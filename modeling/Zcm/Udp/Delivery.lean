import Mathlib.Data.List.Induction
import Mathlib.Data.List.Nodup
import Zcm.Udp.Collecting

namespace Zcm.Udp
open Zcm.Lib

def Sent.key (m : Sent) : SockAddr × Nat := (m.fromAddr, m.msgSeqno)

section Arrivals

variable (platform : Platform) (es : List Event) (m : Sent)

def Arrived (k : Nat) : Prop := ∃ pkt now left, Event.packet pkt now left ∈ es ∧ Carries platform m k pkt

def Complete : Prop := ∀ k < m.total platform, Arrived platform es m k

def Completes (k : Nat) : Prop :=
  ¬ Arrived platform es m k ∧ ∀ j < m.total platform, j ≠ k → Arrived platform es m j

end Arrivals

def MessagePool.Room (p : MessagePool) (size : Nat) : Prop :=
  p.fragbufs = [] ∨ p.totalSize + size ≤ p.maxSize ∧ p.fragbufs.length < p.maxBuffers

def Undisturbed (udp : UDP) : Event → Prop
  | .packet pkt _ _ => ∀ a, checkPacket pkt = some a →
      udp.pool.lookupFragBuf pkt.fromAddr a.msgSeqno = none →
      udp.pool.Room (MessagePool.allocatedSizeOf (payloadOffset a.dataSize + a.dataSize) a.fragmentsInMsg)
  | .expire now => ∀ f ∈ udp.pool.fragbufs, now - f.lastProgress < MessagePool.expiry

theorem MessagePool.evict_of_room {p : MessagePool} {size : Nat} (room : p.Room size) (rounds : Nat) :
    evict size rounds p = p := by
  cases rounds with
  | zero => rfl
  | succ rounds =>
      rw [evict, if_neg]
      rintro ⟨nonempty, big | many⟩ <;> rcases room with empty | ⟨fits, few⟩
      · exact nonempty empty
      · omega
      · exact nonempty empty
      · omega

theorem MessagePool.expireFragBufs_of_fresh {p : MessagePool} {now : Int}
    (fresh : ∀ f ∈ p.fragbufs, now - f.lastProgress < expiry) : p.expireFragBufs now = p := by
  unfold expireFragBufs
  generalize p.fragbufs.length = rounds
  generalize 0 = i
  induction rounds generalizing i with
  | zero => rfl
  | succ rounds ih =>
      rw [expireFrom]
      split
      · rfl
      next f there =>
        have young := fresh f (List.mem_of_getElem? there)
        rw [if_neg (by omega)]
        exact ih (i + 1)

/-- The buffers of the pool are those of the messages that have begun to arrive and are not complete. -/
structure Pending (platform : Platform) (ms : List Sent) (es : List Event) (p : MessagePool) : Prop where
  distinct : (p.fragbufs.map FragBuf.key).Nodup
  known : ∀ f ∈ p.fragbufs, ∃ m ∈ ms, Collects platform m (Arrived platform es m) f ∧
    ¬ Complete platform es m
  begun : ∀ m ∈ ms, (∃ k, Arrived platform es m k) → ¬ Complete platform es m →
    ∃ f ∈ p.fragbufs, f.key = m.key

theorem Pending.index_inj {platform : Platform} {ms : List Sent} {es : List Event} {p : MessagePool}
    (h : Pending platform ms es p) {i j : Nat} {f g : FragBuf} (hf : p.fragbufs[i]? = some f)
    (hg : p.fragbufs[j]? = some g) (same : f.key = g.key) : i = j := by
  have lt : i < (p.fragbufs.map FragBuf.key).length := by
    simpa using (List.getElem?_eq_some_iff.mp hf).1
  refine (List.getElem?_inj lt h.distinct).mp ?_
  rw [List.getElem?_map, List.getElem?_map, hf, hg, Option.map_some, Option.map_some, same]

structure Messages (platform : Platform) (ms : List Sent) : Prop where
  fragmented : ∀ m ∈ ms, m.Fragmented platform
  distinct : ms.Pairwise fun m m' => m.key ≠ m'.key

theorem Messages.key_inj {platform : Platform} {ms : List Sent} (h : Messages platform ms) {m m' : Sent}
    (hm : m ∈ ms) (hm' : m' ∈ ms) (same : m.key = m'.key) : m = m' := by
  have nodup : (ms.map Sent.key).Nodup := List.pairwise_map.mpr h.distinct
  exact List.inj_on_of_nodup_map nodup hm hm' same

section Step

variable {platform : Platform} {ms : List Sent} (messages : Messages platform ms) {es : List Event} {udp : UDP}
  {m : Sent} (member : m ∈ ms) {k : Nat} {pkt : Packet} (carries : Carries platform m k pkt) {now : Int}
  {left : Mem Byte}

include messages member carries

theorem Carries.unique {m' : Sent} (member' : m' ∈ ms) {j : Nat} (carries' : Carries platform m' j pkt) :
    m' = m ∧ j = k := by
  have header := carries.header_eq (messages.fragmented m member)
  have header' := carries'.header_eq (messages.fragmented m' member')
  constructor
  · refine messages.key_inj member' member ?_
    rw [Sent.key, Sent.key, ← carries.fromAddr, ← carries'.fromAddr, ← header.1, ← header'.1]
  · exact header'.2.2.2.1.symm.trans header.2.2.2.1

theorem arrived_packet {m' : Sent} (member' : m' ∈ ms) (j : Nat) :
    Arrived platform (es ++ [Event.packet pkt now left]) m' j ↔ Arrived platform es m' j ∨ m' = m ∧ j = k := by
  constructor
  · rintro ⟨pkt', now', left', arrival, carries'⟩
    rcases List.mem_append.mp arrival with before | new
    · exact .inl ⟨pkt', now', left', before, carries'⟩
    · rw [List.mem_singleton] at new
      cases new
      exact .inr (carries.unique messages member member' carries')
  · rintro (⟨pkt', now', left', before, carries'⟩ | ⟨rfl, rfl⟩)
    · exact ⟨pkt', now', left', List.mem_append_left _ before, carries'⟩
    · exact ⟨pkt, now, left, by simp, carries⟩

theorem arrived_other {m' : Sent} (member' : m' ∈ ms) (other : m' ≠ m) :
    Arrived platform (es ++ [Event.packet pkt now left]) m' = Arrived platform es m' := by
  funext j
  simp [arrived_packet messages member carries member', other]

theorem arrived_same : Arrived platform (es ++ [Event.packet pkt now left]) m =
    fun j => Arrived platform es m j ∨ j = k := by
  funext j
  simp [arrived_packet messages member carries member]

theorem completes_iff : Completes platform es m k ↔
    ¬ Arrived platform es m k ∧ Complete platform (es ++ [Event.packet pkt now left]) m := by
  rw [Complete, arrived_same messages member carries, Completes]
  refine and_congr_right fun _ => forall_congr' fun j => forall_congr' fun _ => ?_
  exact or_iff_not_imp_right.symm

theorem Pending.update (h : Pending platform ms es udp.pool) {idx : Nat} {f g : FragBuf} {p : MessagePool}
    (there : udp.pool.fragbufs[idx]? = some f) (key : f.key = m.key)
    (collects : Collects platform m (Arrived platform (es ++ [Event.packet pkt now left]) m) g)
    (distinct : (p.fragbufs.map FragBuf.key).Nodup)
    (members : ∀ f', f' ∈ p.fragbufs ↔ (∃ j, j ≠ idx ∧ udp.pool.fragbufs[j]? = some f') ∨
      ¬ Complete platform (es ++ [Event.packet pkt now left]) m ∧ f' = g) :
    Pending platform ms (es ++ [Event.packet pkt now left]) p where
  distinct := distinct
  known := by
    intro f' inPool
    rcases (members f').mp inPool with ⟨j, elsewhere, there'⟩ | ⟨incomplete, rfl⟩
    · obtain ⟨m', member', collects', incomplete'⟩ := h.known f' (List.mem_of_getElem? there')
      have other : m' ≠ m := by
        rintro rfl
        refine elsewhere (h.index_inj there' there ?_)
        rw [key, FragBuf.key, collects'.fromAddr, collects'.msgSeqno, Sent.key]
      refine ⟨m', member', ?_, ?_⟩
      · rwa [arrived_other messages member carries member' other]
      · rwa [Complete, arrived_other messages member carries member' other]
    · exact ⟨m, member, collects, incomplete⟩
  begun := by
    intro m' member' some incomplete
    by_cases same : m' = m
    · subst same
      refine ⟨g, (members g).mpr (.inr ⟨incomplete, rfl⟩), ?_⟩
      rw [FragBuf.key, collects.fromAddr, collects.msgSeqno, Sent.key]
    · rw [Complete, arrived_other messages member carries member' same] at *
      obtain ⟨f', inPool, key'⟩ := h.begun m' member' some incomplete
      obtain ⟨j, there'⟩ := List.getElem?_of_mem inPool
      refine ⟨f', (members f').mpr (.inl ⟨j, ?_, there'⟩), key'⟩
      rintro rfl
      rw [there] at there'
      cases there'
      exact same (messages.key_inj member' member (key'.symm.trans key))

structure Delivers (platform : Platform) (ms : List Sent) (es : List Event) (m : Sent) (k : Nat) (e : Event)
    (r : Option Message × UDP) (utime : Int) : Prop where
  pending : Pending platform ms (es ++ [e]) r.2.pool
  completes : Completes platform es m k → r.1 = some ⟨utime, m.channel.chars ++ [0], m.data⟩
  waits : ¬ Completes platform es m k → r.1 = none

theorem depositAt_delivers (h : Pending platform ms es udp.pool) (incomplete : ¬ Complete platform es m)
    {idx : Nat} {f : FragBuf} (there : udp.pool.fragbufs[idx]? = some f)
    (collects : Collects platform m (Arrived platform es m) f) :
    Delivers platform ms es m k (.packet pkt now left)
      (depositAt udp idx f pkt (m.accepted platform k) now) pkt.utime := by
  have fragmented := messages.fragmented m member
  have lt : idx < udp.pool.fragbufs.length := (List.getElem?_eq_some_iff.mp there).1
  have key : f.key = m.key := by rw [FragBuf.key, collects.fromAddr, collects.msgSeqno, Sent.key]
  have same : Arrived platform (es ++ [Event.packet pkt now left]) m = _ := arrived_same messages member carries
  have completes : Completes platform es m k ↔ ¬ Arrived platform es m k ∧
      Complete platform (es ++ [Event.packet pkt now left]) m := completes_iff messages member carries
  unfold depositAt
  by_cases arrived : Arrived platform es m k
  · rw [collects.deposit_duplicate fragmented carries arrived]
    have unchanged : Arrived platform (es ++ [Event.packet pkt now left]) m = Arrived platform es m := by
      rw [same]
      funext j
      simp only [eq_iff_iff, or_iff_left_iff_imp]
      rintro rfl
      exact arrived
    refine ⟨?_, fun done => absurd arrived done.1, fun _ => rfl⟩
    refine h.update messages member carries there key (unchanged ▸ collects) h.distinct fun f' => ?_
    rw [Complete, unchanged]
    constructor
    · intro inPool
      obtain ⟨j, there'⟩ := List.getElem?_of_mem inPool
      by_cases atIdx : j = idx
      · subst atIdx
        rw [there] at there'
        cases there'
        exact .inr ⟨incomplete, rfl⟩
      · exact .inl ⟨j, atIdx, there'⟩
    · rintro (⟨j, -, there'⟩ | ⟨-, rfl⟩)
      · exact List.mem_of_getElem? there'
      · exact List.mem_of_getElem? there
  · rw [collects.deposit_stored fragmented carries arrived]
    have stored := collects.store fragmented carries arrived now
    rw [← same] at stored
    have storedUtime : (f.store pkt (m.accepted platform k) now).lastPacketUtime = pkt.utime := rfl
    have lt' : idx < (udp.pool.fragbufs.map FragBuf.key).length := by simpa using lt
    have storedKey : (udp.pool.fragbufs.map FragBuf.key)[idx] =
        (f.store pkt (m.accepted platform k) now).key := by
      rw [List.getElem_map, (List.getElem?_eq_some_iff.mp there).2]
      rfl
    generalize f.store pkt (m.accepted platform k) now = g at *
    have zero := stored.remaining_eq_zero
    simp only
    by_cases done : g.fragmentsRemaining > 0
    · have notDone : ¬ Complete platform (es ++ [Event.packet pkt now left]) m := fun all => by
        have := zero.mpr all
        omega
      rw [if_pos done]
      refine ⟨?_, fun last => absurd (completes.mp last).2 notDone, fun _ => rfl⟩
      refine h.update messages member carries there key stored ?_ fun f' => ?_
      · rw [List.map_set, ← storedKey, List.set_getElem_self]
        exact h.distinct
      · rw [(List.set_perm_cons_eraseIdx lt g).mem_iff, List.mem_cons, List.mem_eraseIdx_iff_getElem?]
        simp [notDone, or_comm]
    · have isDone : Complete platform (es ++ [Event.packet pkt now left]) m := zero.mp (by omega)
      have removed : ({ udp.pool with fragbufs := udp.pool.fragbufs.set idx g }.removeFragBuf idx).fragbufs.Perm
          (udp.pool.fragbufs.eraseIdx idx) := by
        simp only [MessagePool.removeFragBuf, List.getElem?_set_self lt]
        have perm := @swapRemove_perm _ (udp.pool.fragbufs.set idx g) idx (by simpa using lt)
        rwa [List.eraseIdx_set_eq] at perm
      rw [if_neg done]
      refine ⟨?_, fun _ => ?_, fun not => absurd (completes.mpr ⟨arrived, isDone⟩) not⟩
      · refine h.update messages member carries there key stored ?_ fun f' => ?_
        · refine (removed.map FragBuf.key).nodup_iff.mpr ?_
          exact ((List.eraseIdx_sublist _ _).map FragBuf.key).nodup h.distinct
        · rw [removed.mem_iff, List.mem_eraseIdx_iff_getElem?]
          simp [isDone]
      · rw [stored.message_eq fragmented isDone, storedUtime]

theorem recvFragment_delivers (h : Pending platform ms es udp.pool) (incomplete : ¬ Complete platform es m)
    (undisturbed : Undisturbed udp (.packet pkt now left)) :
    Delivers platform ms es m k (.packet pkt now left) (recvFragment udp pkt now left) pkt.utime := by
  have fragmented := messages.fragmented m member
  have accepted := carries.checkPacket_eq fragmented
  -- a buffer with the packet's key is the one of its message
  have ofKey : ∀ f ∈ udp.pool.fragbufs, f.key = m.key → Collects platform m (Arrived platform es m) f := by
    intro f inPool key
    obtain ⟨m', member', collects, -⟩ := h.known f inPool
    have same : m' = m := by
      refine messages.key_inj member' member ?_
      rw [← key, FragBuf.key, collects.fromAddr, collects.msgSeqno, Sent.key]
    exact same ▸ collects
  have way := recvFragment_cases udp pkt now left
  generalize recvFragment udp pkt now left = r at way ⊢
  cases way with
  | bad rejected =>
      rw [accepted] at rejected
      cases rejected
  | mismatch a idx checked found f there differ =>
      obtain rfl := Option.some.inj (accepted.symm.trans checked)
      obtain ⟨f', there', fromAddr, msgSeqno⟩ := lookupFragBuf_some found
      obtain rfl := Option.some.inj (there.symm.trans there')
      have collects := ofKey f (List.mem_of_getElem? there) (by
        rw [FragBuf.key, fromAddr, msgSeqno, carries.fromAddr]
        rfl)
      rcases differ with size | total
      · exact absurd collects.dataSize size
      · exact absurd collects.length total
  | known a idx checked found f there fits =>
      obtain rfl := Option.some.inj (accepted.symm.trans checked)
      refine depositAt_delivers messages member carries h incomplete there ?_
      refine ofKey f (List.mem_of_getElem? there) ?_
      rw [FragBuf.key, ← fits.fromAddr, ← fits.msgSeqno, carries.fromAddr]
      rfl
  | fresh a checked unknown fits =>
      obtain rfl := Option.some.inj (accepted.symm.trans checked)
      have noKey : ∀ f ∈ udp.pool.fragbufs, f.key ≠ m.key := by
        have none := lookupFragBuf_none unknown
        rwa [carries.fromAddr] at none
      have nothing : ∀ j, ¬ Arrived platform es m j := by
        intro j arrived
        obtain ⟨f, inPool, key⟩ := h.begun m member ⟨j, arrived⟩ incomplete
        exact noKey f inPool key
      have room := undisturbed _ accepted unknown
      have pool : (withNew udp.pool pkt (m.accepted platform k) now left).fragbufs =
          udp.pool.fragbufs ++ [newFragBuf pkt (m.accepted platform k) now left] := by
        simp only [withNew, MessagePool.evict_of_room room]
      have collects := carries.collects_new nothing now left
      have newKey : (newFragBuf pkt (m.accepted platform k) now left).key = m.key := by
        rw [FragBuf.key, collects.fromAddr, collects.msgSeqno, Sent.key]
      refine depositAt_delivers messages member carries ?_ incomplete ?_ collects
      · refine ⟨?_, fun f inPool => ?_, fun m' member' begun incomplete' => ?_⟩
        · rw [pool, List.map_append, List.nodup_append_comm, List.map_singleton, List.singleton_append,
            List.nodup_cons]
          refine ⟨fun inPool => ?_, h.distinct⟩
          obtain ⟨f, inPool, key⟩ := List.mem_map.mp inPool
          exact noKey f inPool (key.trans newKey)
        · rcases List.mem_append.mp (pool ▸ inPool) with old | new
          · exact h.known f old
          · rw [List.mem_singleton] at new
            subst new
            exact ⟨m, member, collects, incomplete⟩
        · obtain ⟨f, inPool, key⟩ := h.begun m' member' begun incomplete'
          exact ⟨f, pool ▸ List.mem_append_left _ inPool, key⟩
      · simp [withNew]

end Step

/-- The packets that arrive in `es` are fragments of the messages `ms`, in any order. Exact duplicates come
before their message is complete; no buffer expires or is evicted. -/
structure Schedule (platform : Platform) (ms : List Sent) (es : List Event) : Prop where
  messages : Messages platform ms
  carried : ∀ before pkt now left after, es = before ++ Event.packet pkt now left :: after →
    ∃ m ∈ ms, ∃ k, Carries platform m k pkt ∧ ¬ Complete platform before m
  undisturbed : ∀ before e after, es = before ++ e :: after → Undisturbed (UDP.new.after before) e

def Returns (platform : Platform) (es : List Event) (m : Sent) (i : Nat) : Prop :=
  ∃ pkt now left k, es[i]? = some (.packet pkt now left) ∧ Carries platform m k pkt ∧
    ((recvFragment (UDP.new.after (es.take i)) pkt now left).1.map fun msg => (msg.channel, msg.data)) =
      some (m.channel.chars ++ [0], m.data)

/-- Each arrival returns its message if it was the last fragment missing, else nothing, and each message
that arrives in full is returned once. -/
structure Lossless (platform : Platform) (ms : List Sent) (es : List Event) : Prop where
  each : ∀ before pkt now left after m k, es = before ++ Event.packet pkt now left :: after → m ∈ ms →
    Carries platform m k pkt →
    (Completes platform before m k → (recvFragment (UDP.new.after before) pkt now left).1 =
      some ⟨pkt.utime, m.channel.chars ++ [0], m.data⟩) ∧
    (¬ Completes platform before m k → (recvFragment (UDP.new.after before) pkt now left).1 = none)
  once : ∀ m ∈ ms, Complete platform es m → ∃! i, Returns platform es m i

namespace Schedule

variable {platform : Platform} {ms : List Sent} {es : List Event}

theorem left_of_append {before after : List Event} (h : Schedule platform ms (before ++ after)) :
    Schedule platform ms before where
  messages := h.messages
  carried := fun start pkt now left rest split => h.carried start pkt now left (rest ++ after) (by simp [split])
  undisturbed := fun start e rest split => h.undisturbed start e (rest ++ after) (by simp [split])

theorem pending (h : Schedule platform ms es) : Pending platform ms es (UDP.new.after es).pool := by
  induction es using List.reverseRecOn with
  | nil =>
      refine ⟨List.nodup_nil, fun f inPool => absurd inPool List.not_mem_nil, fun m _ some => ?_⟩
      obtain ⟨k, pkt, now, left, arrival, -⟩ := some
      cases arrival
  | append_singleton es e ih =>
      have before := ih h.left_of_append
      have undisturbed := h.undisturbed es e [] rfl
      rw [UDP.after, List.foldl_append]
      cases e with
      | packet pkt now left =>
          obtain ⟨m, member, k, carries, incomplete⟩ := h.carried es pkt now left [] rfl
          exact (recvFragment_delivers h.messages member carries before incomplete undisturbed).pending
      | expire now =>
          have same : ∀ m, Arrived platform (es ++ [.expire now]) m = Arrived platform es m := by
            intro m
            funext k
            simp [Arrived]
          change Pending platform ms (es ++ [.expire now]) ((UDP.new.after es).pool.expireFragBufs now)
          rw [MessagePool.expireFragBufs_of_fresh undisturbed]
          exact
            { distinct := before.distinct
              known := by simpa only [Complete, same] using before.known
              begun := by simpa only [Complete, same] using before.begun }

theorem delivers (h : Schedule platform ms es) {before after : List Event} {pkt : Packet} {now : Int}
    {left : Mem Byte} {m : Sent} {k : Nat} (split : es = before ++ Event.packet pkt now left :: after)
    (member : m ∈ ms) (carries : Carries platform m k pkt) :
    Delivers platform ms before m k (.packet pkt now left) (recvFragment (UDP.new.after before) pkt now left)
      pkt.utime := by
  obtain ⟨m', member', k', carries', incomplete⟩ := h.carried before pkt now left after split
  obtain ⟨rfl, rfl⟩ := carries.unique h.messages member member' carries'
  have start : Schedule platform ms before := left_of_append (split ▸ h)
  exact recvFragment_delivers h.messages member carries start.pending incomplete (h.undisturbed before _ after split)

theorem returns_iff (h : Schedule platform ms es) {m : Sent} (member : m ∈ ms) {i : Nat} :
    Returns platform es m i ↔ ∃ pkt now left k, es[i]? = some (.packet pkt now left) ∧
      Carries platform m k pkt ∧ Completes platform (es.take i) m k := by
  have split : ∀ {e}, es[i]? = some e → es = es.take i ++ e :: es.drop (i + 1) := by
    intro e there
    obtain ⟨lt, rfl⟩ := List.getElem?_eq_some_iff.mp there
    rw [List.getElem_cons_drop, List.take_append_drop]
  constructor
  · rintro ⟨pkt, now, left, k, there, carries, returned⟩
    refine ⟨pkt, now, left, k, there, carries, ?_⟩
    by_contra waits
    rw [(h.delivers (split there) member carries).waits waits] at returned
    cases returned
  · rintro ⟨pkt, now, left, k, there, carries, completes⟩
    refine ⟨pkt, now, left, k, there, carries, ?_⟩
    rw [(h.delivers (split there) member carries).completes completes]
    rfl

theorem exists_completes (h : Schedule platform ms es) {m : Sent} (member : m ∈ ms)
    (complete : Complete platform es m) : ∃ i pkt now left k, es[i]? = some (.packet pkt now left) ∧
      Carries platform m k pkt ∧ Completes platform (es.take i) m k := by
  induction es using List.reverseRecOn with
  | nil =>
      obtain ⟨pkt, now, left, arrival, -⟩ := complete 0 (by
        have := (h.messages.fragmented m member).one_lt_total
        omega)
      cases arrival
  | append_singleton es e ih =>
      by_cases already : Complete platform es m
      · obtain ⟨i, pkt, now, left, k, there, carries, completes⟩ := ih h.left_of_append already
        have lt := (List.getElem?_eq_some_iff.mp there).1
        refine ⟨i, pkt, now, left, k, ?_, carries, ?_⟩
        · rw [List.getElem?_append_left lt, there]
        · rwa [List.take_append_of_le_length (Nat.le_of_lt lt)]
      · simp only [Complete, not_forall] at already
        obtain ⟨k, lt, missing⟩ := already
        obtain ⟨pkt, now, left, arrival, carries⟩ := complete k lt
        rcases List.mem_append.mp arrival with old | new
        · exact absurd ⟨pkt, now, left, old, carries⟩ missing
        · rw [List.mem_singleton] at new
          subst new
          refine ⟨es.length, pkt, now, left, k, by simp, carries, ?_⟩
          rw [List.take_left' rfl]
          exact (completes_iff h.messages member carries).mpr ⟨missing, complete⟩

theorem complete_take {m : Sent} {i j : Nat} (lt : i < j) {pkt : Packet} {now : Int} {left : Mem Byte} {k : Nat}
    (there : es[i]? = some (.packet pkt now left)) (carries : Carries platform m k pkt)
    (completes : Completes platform (es.take i) m k) : Complete platform (es.take j) m := by
  intro k' lt'
  by_cases same : k' = k
  · subst same
    refine ⟨pkt, now, left, List.mem_of_getElem? (i := i) ?_, carries⟩
    rwa [List.getElem?_take_of_lt lt]
  · obtain ⟨pkt', now', left', arrival, carries'⟩ := completes.2 k' lt' same
    refine ⟨pkt', now', left', ?_, carries'⟩
    exact List.take_subset_take_left es (Nat.le_of_lt lt) arrival

end Schedule

theorem recvFragment_lossless {platform : Platform} {ms : List Sent} {es : List Event}
    (h : Schedule platform ms es) : Lossless platform ms es where
  each := fun before pkt now left after m k split member carries =>
    ⟨(h.delivers split member carries).completes, (h.delivers split member carries).waits⟩
  once := by
    intro m member complete
    obtain ⟨i, pkt, now, left, k, there, carries, completes⟩ := h.exists_completes member complete
    refine ⟨i, (h.returns_iff member).mpr ⟨pkt, now, left, k, there, carries, completes⟩, ?_⟩
    intro j returns
    obtain ⟨pkt', now', left', k', there', carries', completes'⟩ := (h.returns_iff member).mp returns
    have lt := carries.lt_total (h.messages.fragmented m member)
    have lt' := carries'.lt_total (h.messages.fragmented m member)
    rcases Nat.lt_trichotomy j i with before | same | after
    · exact absurd (Schedule.complete_take before there' carries' completes' k lt) completes.1
    · exact same
    · exact absurd (Schedule.complete_take after there carries completes k' lt') completes'.1

def Sent.packet (platform : Platform) (m : Sent) (k : Nat) : Packet :=
  ⟨0, (m.datagram platform k).length, m.fromAddr, fun i => (m.datagram platform k).getD i 0⟩

theorem Sent.packet_carries {platform : Platform} {m : Sent} (fragmented : m.Fragmented platform) {k : Nat}
    (lt : k < m.total platform) : Carries platform m k (m.packet platform k) := by
  refine ⟨rfl, ?_⟩
  have whole : (m.packet platform k).buf.read 0 (m.datagram platform k).length = m.datagram platform k :=
    Mem.read_eq_iff.mpr fun i hi => by simp [packet, hi]
  rw [datagrams_eq fragmented, List.getElem?_map, List.getElem?_range lt, Option.map_some]
  exact congrArg some whole.symm

def sampleSent : Sent := ⟨⟨2, 7667, 1⟩, 7, ⟨[65], by decide⟩, List.replicate 1435 1⟩

theorem sampleSent_fragmented : sampleSent.Fragmented .apple :=
  ⟨by decide, by decide, by decide +kernel, by decide +kernel, by decide +kernel⟩

def sampleEvents : List Event :=
  [.packet (sampleSent.packet .apple 1) 0 fun _ => 0, .packet (sampleSent.packet .apple 1) 1 fun _ => 0,
    .packet (sampleSent.packet .apple 0) 2 fun _ => 0]

theorem recvFragment_lossless_reversed : Lossless .apple [sampleSent] sampleEvents := by
  have last : Carries .apple sampleSent 1 (sampleSent.packet .apple 1) :=
    Sent.packet_carries sampleSent_fragmented (by decide +kernel)
  have first : Carries .apple sampleSent 0 (sampleSent.packet .apple 0) :=
    Sent.packet_carries sampleSent_fragmented (by decide +kernel)
  have messages : Messages .apple [sampleSent] :=
    ⟨fun m member => List.mem_singleton.mp member ▸ sampleSent_fragmented, by simp⟩
  have incomplete : ∀ n, ¬ Complete .apple (List.take n (sampleEvents.take 2)) sampleSent := by
    intro n complete
    obtain ⟨pkt, now, left, arrival, carries⟩ := complete 0 (by decide +kernel)
    have member := List.take_subset _ _ arrival
    simp only [sampleEvents, List.take_succ_cons, List.take_zero, List.mem_cons, List.not_mem_nil, or_false] at member
    rcases member with isLast | isLast <;>
    · cases isLast
      have := (last.unique messages (by simp) (by simp) carries).2
      omega
  have known : ∀ n < 2, (UDP.new.after (sampleEvents.take (n + 1))).pool.lookupFragBuf sampleSent.fromAddr 7 =
      some 0 := by decide +kernel
  have undisturbed : ∀ n pkt now left k, n < 2 → Carries .apple sampleSent k pkt →
      Undisturbed (UDP.new.after (sampleEvents.take (n + 1))) (.packet pkt now left) := by
    intro n pkt now left k lt carries a checked unknown
    obtain rfl := Option.some.inj ((carries.checkPacket_eq sampleSent_fragmented).symm.trans checked)
    rw [carries.fromAddr] at unknown
    cases unknown.symm.trans (known n lt)
  refine recvFragment_lossless ⟨messages, ?_, ?_⟩
  · intro before pkt now left after split
    refine ⟨sampleSent, by simp, ?_⟩
    rcases before with _ | ⟨e, _ | ⟨e', _ | ⟨e'', before⟩⟩⟩ <;>
      simp only [sampleEvents, List.nil_append, List.cons_append, List.cons.injEq, Event.packet.injEq] at split
    · obtain ⟨⟨rfl, -⟩, -⟩ := split
      exact ⟨1, last, incomplete 0⟩
    · obtain ⟨rfl, ⟨rfl, -⟩, -⟩ := split
      exact ⟨1, last, incomplete 1⟩
    · obtain ⟨rfl, rfl, ⟨rfl, -⟩, -⟩ := split
      exact ⟨0, first, incomplete 2⟩
    · simp at split
  · intro before e after split
    rcases before with _ | ⟨e, _ | ⟨e', _ | ⟨e'', before⟩⟩⟩ <;>
      simp only [sampleEvents, List.nil_append, List.cons_append, List.cons.injEq] at split
    · obtain ⟨rfl, -⟩ := split
      exact fun a _ _ => .inl rfl
    · obtain ⟨rfl, rfl, -⟩ := split
      exact undisturbed 0 _ _ _ 1 (by omega) last
    · obtain ⟨rfl, rfl, rfl, -⟩ := split
      exact undisturbed 1 _ _ _ 0 (by omega) first
    · simp at split

end Zcm.Udp
