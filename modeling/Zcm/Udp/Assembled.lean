import Zcm.Udp.Reassembly

namespace Zcm.Udp
open Zcm.Lib

/-- The message is put together from packets of `hist`, all of one sender and one sequence number: one
for each fragment number, whose payloads tile the data. -/
def Assembled (hist : List Packet) (key : SockAddr) (seqno : Nat) (msg : Message) : Prop :=
  ∃ first rest dataSize,
    (∀ k p, (first :: rest)[k]? = some p → p ∈ hist ∧ p.fromAddr = key ∧ p.getMsgSeqno = seqno ∧
      p.getMsgSize = dataSize ∧ p.getFragmentsInMsg = (first :: rest).length ∧ p.getFragmentNo = k) ∧
    Tiles 0 ((first :: rest).map fun p => (p.getFragmentOffset, p.payload.length)) dataSize ∧
    msg.data = ((first :: rest).map Packet.payload).flatten ∧ msg.channel = first.channel

theorem getElem?_map_range {α : Type} {g : Nat → α} {n k : Nat} {x : α} :
    ((List.range n).map g)[k]? = some x ↔ k < n ∧ g k = x := by
  simp [List.getElem?_eq_some_iff]

section Complete

variable {hist : List Packet} {f : FragBuf} {parts : Nat → Packet}

theorem received_of_complete (h : Holds hist f parts) (complete : f.fragmentsRemaining = 0) {k : Nat}
    (lt : k < f.fragments.length) : ∃ fr, Received f k fr := by
  refine ⟨f.fragments[k], List.getElem?_eq_getElem lt, ?_⟩
  have none := h.remaining.symm.trans complete
  rw [List.countP_eq_zero] at none
  simpa using none _ (List.getElem_mem lt)

theorem Holds.tiles (h : Holds hist f parts) (complete : f.fragmentsRemaining = 0)
    (nonempty : 0 < f.fragments.length) :
    Tiles 0 ((List.range f.fragments.length).map fun k => ((parts k).getFragmentOffset, (parts k).payload.length))
      f.dataSize := by
  have range : ∀ {k fr}, Received f k fr →
      ((parts k).getFragmentOffset, (parts k).payload.length) = (fr.offset, fr.size) := by
    intro k fr received
    rw [(h.part k fr received).offset, (h.part k fr received).size]
  apply tiles_of_adjacent
  · simpa using List.ne_nil_of_length_pos nonempty
  · intro r hr
    obtain ⟨lt, rfl⟩ := getElem?_map_range.mp hr
    obtain ⟨fr, received⟩ := received_of_complete h complete lt
    rw [range received]
    exact (h.part 0 fr received).first rfl
  · intro k r s hr hs
    obtain ⟨lt, rfl⟩ := getElem?_map_range.mp hr
    obtain ⟨lt', rfl⟩ := getElem?_map_range.mp hs
    obtain ⟨fr, received⟩ := received_of_complete h complete lt
    obtain ⟨fr', received'⟩ := received_of_complete h complete lt'
    rw [range received, range received']
    exact h.adjacent k fr fr' received received'
  · intro k r last hr
    obtain ⟨lt, rfl⟩ := getElem?_map_range.mp hr
    obtain ⟨fr, received⟩ := received_of_complete h complete lt
    rw [range received]
    exact (h.part k fr received).last (by simpa using last)

theorem Holds.read_payload (h : Holds hist f parts) (complete : f.fragmentsRemaining = 0) {k : Nat}
    (lt : k < f.fragments.length) :
    f.buf.read (payloadOffset f.dataSize + (parts k).getFragmentOffset) (parts k).payload.length =
      (parts k).payload := by
  have tiles := h.tiles complete (by omega)
  obtain ⟨fr, received⟩ := received_of_complete h complete lt
  have part := h.part k fr received
  refine Mem.read_eq_iff.mpr fun i hi => ?_
  obtain ⟨k', fr', i', received', same, byte⟩ := h.bytes k fr i received (by rw [← part.size]; exact hi)
  have part' := h.part k' fr' received'
  obtain ⟨hi', byte⟩ := List.getElem?_eq_some_iff.mp byte
  have equal : k = k' := by
    have lt' : k' < f.fragments.length := (List.getElem?_eq_some_iff.mp received'.1).1
    refine tiles.disjoint (x := fr.offset + i) (getElem?_map_range.mpr ⟨lt, rfl⟩)
      (getElem?_map_range.mpr ⟨lt', rfl⟩) ?_ ?_
    · simp only [part.offset]
      omega
    · simp only [part'.offset]
      omega
  subst equal
  obtain rfl : fr = fr' := Option.some.inj (received.1.symm.trans received'.1)
  obtain rfl : i = i' := by omega
  rw [part.offset, Nat.add_assoc]
  exact byte.symm

theorem Holds.assembled (h : Holds hist f parts) (complete : f.fragmentsRemaining = 0)
    (nonempty : 0 < f.fragments.length) : Assembled hist f.fromAddr f.msgSeqno f.message := by
  obtain ⟨n, hn⟩ := Nat.exists_eq_add_of_lt nonempty
  rw [Nat.zero_add] at hn
  have split : (List.range f.fragments.length).map parts =
      parts 0 :: (List.range n).map fun k => parts (k + 1) := by
    rw [hn, List.range_succ_eq_map, List.map_cons, List.map_map]
    rfl
  have tiles := h.tiles complete nonempty
  refine ⟨parts 0, (List.range n).map fun k => parts (k + 1), f.dataSize, ?_, ?_, ?_, ?_⟩
  · rw [← split]
    intro k p hp
    obtain ⟨lt, rfl⟩ := getElem?_map_range.mp hp
    obtain ⟨fr, received⟩ := received_of_complete h complete lt
    have part := h.part k fr received
    refine ⟨part.arrived, part.fromAddr, part.msgSeqno, part.dataSize, ?_, part.fragmentNo⟩
    rw [part.fragmentsInMsg, List.length_map, List.length_range]
  · rw [← split, List.map_map]
    exact tiles
  · rw [← split, List.map_map]
    refine tiles.read f.buf (payloadOffset f.dataSize) _ (by simp) fun k r p hr hp => ?_
    obtain ⟨lt, rfl⟩ := getElem?_map_range.mp hr
    obtain ⟨-, rfl⟩ := getElem?_map_range.mp hp
    exact h.read_payload complete lt
  · obtain ⟨fr, received⟩ := received_of_complete h complete nonempty
    exact (h.channel fr received).2

end Complete

theorem mem_swapRemove {α : Type} {xs : List α} {idx : Nat} {x : α} (h : x ∈ swapRemove xs idx) : x ∈ xs := by
  unfold swapRemove at h
  split at h
  · cases h
  next last isLast =>
    rcases List.mem_or_eq_of_mem_set (List.dropLast_subset _ h) with member | rfl
    · exact member
    · exact List.mem_of_getLast? isLast

namespace MessagePool

theorem mem_removeFragBuf {p : MessagePool} {idx : Nat} {f : FragBuf} (h : f ∈ (p.removeFragBuf idx).fragbufs) :
    f ∈ p.fragbufs := by
  unfold removeFragBuf at h
  split at h
  · exact h
  · exact mem_swapRemove h

theorem mem_evict {size rounds : Nat} {p : MessagePool} {f : FragBuf} (h : f ∈ (evict size rounds p).fragbufs) :
    f ∈ p.fragbufs := by
  induction rounds generalizing p with
  | zero => exact h
  | succ rounds ih =>
      rw [evict] at h
      split at h
      · exact mem_removeFragBuf (ih h)
      · exact h

theorem mem_expireFragBufs {p : MessagePool} {now : Int} {f : FragBuf}
    (h : f ∈ (p.expireFragBufs now).fragbufs) : f ∈ p.fragbufs := by
  unfold expireFragBufs at h
  generalize p.fragbufs.length = rounds at h
  generalize 0 = i at h
  induction rounds generalizing p i with
  | zero => exact h
  | succ rounds ih =>
      rw [expireFrom] at h
      split at h
      · exact h
      · split at h
        · exact mem_removeFragBuf (ih _ h)
        · exact ih _ h

def Sound (hist : List Packet) (p : MessagePool) : Prop :=
  ∀ f ∈ p.fragbufs, 0 < f.fragments.length ∧ ∃ parts, Holds hist f parts

end MessagePool

def newFragBuf (pkt : Packet) (a : Accepted) (now : Int) (left : Mem Byte) : FragBuf :=
  { lastPacketUtime := 0, msgSeqno := a.msgSeqno, dataSize := a.dataSize,
    fragmentsRemaining := a.fragmentsInMsg, channellen := 0, fromAddr := pkt.fromAddr,
    fragments := List.replicate a.fragmentsInMsg ⟨0, 0, false⟩,
    allocatedSize := MessagePool.allocatedSizeOf (payloadOffset a.dataSize + a.dataSize) a.fragmentsInMsg,
    lastProgress := now, buf := left }

def withNew (p : MessagePool) (pkt : Packet) (a : Accepted) (now : Int) (left : Mem Byte) : MessagePool :=
  let size := MessagePool.allocatedSizeOf (payloadOffset a.dataSize + a.dataSize) a.fragmentsInMsg
  let p := MessagePool.evict size p.fragbufs.length p
  { p with fragbufs := p.fragbufs ++ [newFragBuf pkt a now left], totalSize := p.totalSize + size }

inductive RecvCase (udp : UDP) (pkt : Packet) (now : Int) (left : Mem Byte) : Option Message × UDP → Prop
  | bad (rejected : checkPacket pkt = none) : RecvCase udp pkt now left (none, udp.discard)
  | mismatch (a : Accepted) (idx : Nat) (checked : checkPacket pkt = some a)
      (found : udp.pool.lookupFragBuf pkt.fromAddr a.msgSeqno = some idx) (f : FragBuf)
      (there : udp.pool.fragbufs[idx]? = some f)
      (differ : f.dataSize ≠ a.dataSize ∨ f.fragments.length ≠ a.fragmentsInMsg) :
      RecvCase udp pkt now left (none, { udp with pool := udp.pool.removeFragBuf idx }.discard)
  | known (a : Accepted) (idx : Nat) (checked : checkPacket pkt = some a)
      (found : udp.pool.lookupFragBuf pkt.fromAddr a.msgSeqno = some idx) (f : FragBuf)
      (there : udp.pool.fragbufs[idx]? = some f) (fits : Fits f pkt a) :
      RecvCase udp pkt now left (depositAt udp idx f pkt a now)
  | fresh (a : Accepted) (checked : checkPacket pkt = some a)
      (unknown : udp.pool.lookupFragBuf pkt.fromAddr a.msgSeqno = none)
      (fits : Fits (newFragBuf pkt a now left) pkt a) :
      RecvCase udp pkt now left
        (depositAt { udp with pool := withNew udp.pool pkt a now left }
          ((withNew udp.pool pkt a now left).fragbufs.length - 1) (newFragBuf pkt a now left) pkt a now)

theorem lookupFragBuf_some {p : MessagePool} {key : SockAddr} {seqno idx : Nat}
    (h : p.lookupFragBuf key seqno = some idx) :
    ∃ f, p.fragbufs[idx]? = some f ∧ f.fromAddr = key ∧ f.msgSeqno = seqno := by
  obtain ⟨lt, isMatch, -⟩ := List.findIdx?_eq_some_iff_getElem.mp h
  refine ⟨_, List.getElem?_eq_getElem lt, ?_⟩
  simpa [FragBuf.matches] using isMatch

theorem lookupFragBuf_none {p : MessagePool} {key : SockAddr} {seqno : Nat} (h : p.lookupFragBuf key seqno = none) :
    ∀ f ∈ p.fragbufs, f.key ≠ (key, seqno) := by
  intro f inPool same
  have none := List.findIdx?_eq_none_iff.mp h f inPool
  simp only [FragBuf.key, Prod.mk.injEq] at same
  simp [FragBuf.matches, same.1, same.2] at none

theorem recvFragment_cases (udp : UDP) (pkt : Packet) (now : Int) (left : Mem Byte) :
    RecvCase udp pkt now left (recvFragment udp pkt now left) := by
  unfold recvFragment
  cases check : checkPacket pkt with
  | none => exact .bad check
  | some a =>
      have checked := checked_of_checkPacket check
      cases found : udp.pool.lookupFragBuf pkt.fromAddr a.msgSeqno with
      | some idx =>
          obtain ⟨f, there, fromAddr, msgSeqno⟩ := lookupFragBuf_some found
          simp only [found, there]
          by_cases differ : f.dataSize ≠ a.dataSize ∨ f.fragments.length ≠ a.fragmentsInMsg
          · rw [if_pos differ]
            exact .mismatch a idx check found f there differ
          · rw [if_neg differ]
            refine .known a idx check found f there ⟨checked, fromAddr.symm, msgSeqno.symm, ?_, ?_⟩ <;> omega
      | none =>
          have fits : Fits (newFragBuf pkt a now left) pkt a := ⟨checked, rfl, rfl, rfl, by simp [newFragBuf]⟩
          have fresh := RecvCase.fresh a check found fits
          simp only [found, MessagePool.addFragBuf, List.length_append, List.length_singleton, Nat.add_sub_cancel]
          rw [List.set_append_right _ _ (Nat.le_refl _), Nat.sub_self, List.set_cons_zero]
          simp only [withNew, List.length_append, List.length_singleton, Nat.add_sub_cancel] at fresh
          exact fresh

theorem MessagePool.Sound.set {hist : List Packet} {p : MessagePool} (sound : p.Sound hist) {f : FragBuf}
    (nonempty : 0 < f.fragments.length) {parts : Nat → Packet} (holds : Holds hist f parts) (idx : Nat) :
    MessagePool.Sound hist { p with fragbufs := p.fragbufs.set idx f } := by
  intro g member
  rcases List.mem_or_eq_of_mem_set member with before | rfl
  · exact sound g before
  · exact ⟨nonempty, parts, holds⟩

theorem MessagePool.Sound.withNew {hist : List Packet} {p : MessagePool} (sound : p.Sound hist) {pkt : Packet}
    {a : Accepted} (checked : Checked pkt a) (now : Int) (left : Mem Byte) :
    (withNew p pkt a now left).Sound hist := by
  have none : ∀ {k fr}, ¬ Received (newFragBuf pkt a now left) k fr := by
    rintro k fr ⟨there, received⟩
    have member := List.mem_of_getElem? there
    rw [List.eq_of_mem_replicate member] at received
    cases received
  have total : a.fragmentsInMsg < 2 ^ 16 := by
    rw [← checked.fragmentsInMsg]
    exact (ofBe_lt _).trans_eq (by simp)
  intro f member
  rcases List.mem_append.mp member with old | new
  · exact sound f (mem_evict old)
  · rw [List.mem_singleton] at new
    subst new
    have no_lt := checked.no_lt
    refine ⟨by simp [newFragBuf]; omega, fun _ => pkt, ?_⟩
    exact
      { few := by simpa [newFragBuf] using total
        remaining := by simp [newFragBuf, List.countP_replicate]
        part := fun k fr received => absurd received none
        adjacent := fun k fr fr' received => absurd received none
        bytes := fun k fr i received => absurd received none
        channel := fun fr received => absurd received none }

structure StepSound (hist : List Packet) (r : Option Message × UDP) : Prop where
  pool : r.2.pool.Sound hist
  message : ∀ msg, r.1 = some msg → ∃ key seqno, Assembled hist key seqno msg

theorem MessagePool.Sound.mono {hist : List Packet} {p : MessagePool} (sound : p.Sound hist) (pkt : Packet) :
    p.Sound (hist ++ [pkt]) := by
  intro f member
  obtain ⟨nonempty, parts, holds⟩ := sound f member
  exact ⟨nonempty, parts, holds.mono pkt⟩

theorem MessagePool.Sound.remove {hist : List Packet} {p : MessagePool} (sound : p.Sound hist) (idx : Nat) :
    (p.removeFragBuf idx).Sound hist := fun f member => sound f (mem_removeFragBuf member)

theorem depositAt_sound {hist : List Packet} {udp : UDP} (sound : udp.pool.Sound hist) {idx : Nat} {f : FragBuf}
    (there : udp.pool.fragbufs[idx]? = some f) {pkt : Packet} {a : Accepted} (fits : Fits f pkt a) (now : Int) :
    StepSound (hist ++ [pkt]) (depositAt udp idx f pkt a now) := by
  obtain ⟨nonempty, parts, holds⟩ := sound f (List.mem_of_getElem? there)
  unfold depositAt
  cases found : f.deposit pkt a now with
  | duplicate => exact ⟨sound.mono pkt, fun msg h => by cases h⟩
  | conflict => exact ⟨(sound.mono pkt).remove idx, fun msg h => by cases h⟩
  | stored g =>
      obtain ⟨stored, nonempty⟩ : Holds (hist ++ [pkt]) g (Function.update parts a.fragmentNo pkt) ∧
          0 < g.fragments.length := by
        unfold FragBuf.deposit at found
        split at found
        · cases found
        next old isOld =>
          split at found
          · split at found <;> cases found
          next missing =>
            split at found
            next meets =>
              cases found
              exact ⟨holds.store fits isOld (by simpa using missing) meets now,
                by simpa [FragBuf.store] using nonempty⟩
            · cases found
      have set := (sound.mono pkt).set nonempty stored idx
      simp only
      split
      · exact ⟨set, fun msg h => by cases h⟩
      next complete =>
        refine ⟨set.remove idx, fun msg h => ?_⟩
        cases h
        exact ⟨_, _, stored.assembled (by omega) nonempty⟩

theorem recvFragment_sound {hist : List Packet} {udp : UDP} (sound : udp.pool.Sound hist) (pkt : Packet)
    (now : Int) (left : Mem Byte) : StepSound (hist ++ [pkt]) (recvFragment udp pkt now left) := by
  have way := recvFragment_cases udp pkt now left
  generalize recvFragment udp pkt now left = r at way ⊢
  cases way with
  | bad => exact ⟨sound.mono pkt, fun msg h => by cases h⟩
  | mismatch a idx => exact ⟨(sound.mono pkt).remove idx, fun msg h => by cases h⟩
  | known a idx _ _ f there fits => exact depositAt_sound sound there fits now
  | fresh a _ _ fits =>
      refine depositAt_sound (sound.withNew fits.checked now left) ?_ fits now
      simp [withNew]

/-- What happens to the receiving end: a packet of the fragmented kind arrives, or old buffers expire. -/
inductive Event
  | packet (pkt : Packet) (now : Int) (left : Mem Byte)
  | expire (now : Int)

namespace Event

def packet? : Event → Option Packet
  | packet pkt _ _ => some pkt
  | expire _ => none

end Event

namespace UDP

def step (udp : UDP) : Event → Option Message × UDP
  | .packet pkt now left => recvFragment udp pkt now left
  | .expire now => (none, { udp with pool := udp.pool.expireFragBufs now })

def after (udp : UDP) (es : List Event) : UDP := es.foldl (fun udp e => (udp.step e).2) udp

end UDP

theorem step_sound {hist : List Packet} {udp : UDP} (sound : udp.pool.Sound hist) (e : Event) :
    StepSound (hist ++ e.packet?.toList) (udp.step e) := by
  cases e with
  | packet pkt now left => exact recvFragment_sound sound pkt now left
  | expire now =>
      refine ⟨fun f member => ?_, fun msg h => by cases h⟩
      simp only [Event.packet?, Option.toList_none, List.append_nil]
      exact sound f (MessagePool.mem_expireFragBufs member)

theorem after_sound {hist : List Packet} {udp : UDP} (sound : udp.pool.Sound hist) (es : List Event) :
    (udp.after es).pool.Sound (hist ++ es.filterMap Event.packet?) := by
  induction es generalizing hist udp with
  | nil => simpa [UDP.after] using sound
  | cons e es ih =>
      have later := ih (step_sound sound e).pool
      rw [List.append_assoc] at later
      cases e <;> exact later

theorem new_sound : UDP.new.pool.Sound [] := fun f member => by cases member

/-- Reassembly fabricates nothing, whatever arrives from the start on. -/
theorem recvFragment_assembled (es : List Event) (pkt : Packet) (now : Int) (left : Mem Byte) (msg : Message)
    (returned : (recvFragment (UDP.new.after es) pkt now left).1 = some msg) :
    ∃ key seqno, Assembled (es.filterMap Event.packet? ++ [pkt]) key seqno msg :=
  (recvFragment_sound (after_sound new_sound es) pkt now left).message msg returned

def samplePacket (offset no : Nat) (body : List Byte) : Packet :=
  let bytes := toBe 4 0 ++ toBe 4 7 ++ toBe 4 4 ++ toBe 4 offset ++ toBe 2 no ++ toBe 2 2 ++ body
  ⟨0, bytes.length, ⟨2, 7667, 1⟩, fun i => bytes.getD i 0⟩

theorem recvFragment_assembled_reversed :
    let first := samplePacket 0 0 [65, 0, 1, 2]
    let second := samplePacket 2 1 [3, 4]
    ∃ key seqno, Assembled [second, first] key seqno ⟨0, [65, 0], [1, 2, 3, 4]⟩ :=
  recvFragment_assembled [.packet (samplePacket 2 1 [3, 4]) 0 fun _ => 0] (samplePacket 0 0 [65, 0, 1, 2]) 0
    (fun _ => 0) ⟨0, [65, 0], [1, 2, 3, 4]⟩ (by decide +kernel)

end Zcm.Udp
