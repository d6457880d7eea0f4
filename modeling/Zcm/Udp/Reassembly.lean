import Zcm.Lib.Tiling
import Zcm.Udp.Transport

namespace Zcm.Udp
open Zcm.Lib

namespace Packet

def body (pkt : Packet) : List Byte := (pkt.buf.read 0 pkt.sz).drop sizeofMsgHeaderLong

def channel (pkt : Packet) : List Byte := pkt.body.takeWhile (· ≠ 0) ++ [0]

def payload (pkt : Packet) : List Byte :=
  if pkt.getFragmentNo = 0 then (pkt.body.dropWhile (· ≠ 0)).tail else pkt.body

end Packet

theorem memchrNul_some {m : Mem Byte} {start n k : Nat} (h : memchrNul m start n = some k) :
    k < n ∧ m (start + k) = 0 ∧ ∀ i < k, m (start + i) ≠ 0 := by
  obtain ⟨zero, bound, before⟩ := List.find?_range_eq_some.mp h
  exact ⟨by simpa using bound, by simpa using zero, fun i hi => by simpa using before i hi⟩

theorem read_split_nul {m : Mem Byte} {start n k : Nat} (bound : k < n) (zero : m (start + k) = 0)
    (before : ∀ i < k, m (start + i) ≠ 0) :
    (m.read start n).takeWhile (· ≠ 0) ++ [0] = m.read start (k + 1) ∧
      ((m.read start n).dropWhile (· ≠ 0)).tail = m.read (start + (k + 1)) (n - (k + 1)) := by
  have plain : ∀ b ∈ m.read start k, decide (b ≠ 0) = true := by
    intro b member
    obtain ⟨i, hi, rfl⟩ := List.mem_map.mp member
    simpa using before i (List.mem_range.mp hi)
  have split : m.read start n = m.read start k ++ 0 :: m.read (start + (k + 1)) (n - (k + 1)) := by
    obtain ⟨j, rfl⟩ := Nat.exists_eq_add_of_lt bound
    rw [Nat.add_assoc k j 1, Mem.read_add, Mem.read_succ, zero, Nat.add_assoc, Nat.add_sub_add_left,
      Nat.add_sub_cancel]
  constructor
  · rw [split, List.takeWhile_append_of_pos plain, Mem.read_add, Mem.read_succ, zero]
    simp
  · rw [split, List.dropWhile_append_of_pos plain]
    simp

structure Checked (pkt : Packet) (a : Accepted) : Prop where
  msgSeqno : pkt.getMsgSeqno = a.msgSeqno
  dataSize : pkt.getMsgSize = a.dataSize
  fragmentOffset : pkt.getFragmentOffset = a.fragmentOffset
  fragmentNo : pkt.getFragmentNo = a.fragmentNo
  fragmentsInMsg : pkt.getFragmentsInMsg = a.fragmentsInMsg
  no_lt : a.fragmentNo < a.fragmentsInMsg
  size_le : a.dataSize ≤ mtu
  within : a.fragmentOffset + a.fragSize ≤ a.dataSize
  payload : pkt.buf.read a.dataStart a.fragSize = pkt.payload
  first : a.fragmentNo = 0 → a.fragmentOffset = 0 ∧ a.channelSz + 1 ≤ payloadOffset a.dataSize ∧
    pkt.buf.read sizeofMsgHeaderLong (a.channelSz + 1) = pkt.channel
  last : a.fragmentNo + 1 = a.fragmentsInMsg → a.fragmentOffset + a.fragSize = a.dataSize

theorem body_eq {pkt : Packet} (long : sizeofMsgHeaderLong ≤ pkt.sz) :
    pkt.body = pkt.buf.read sizeofMsgHeaderLong (pkt.sz - sizeofMsgHeaderLong) := by
  obtain ⟨n, hn⟩ := Nat.exists_eq_add_of_le long
  rw [Packet.body, hn, Mem.read_add, List.drop_left' (by simp)]
  simp

theorem checkRange_some {a b : Accepted} (h : checkRange a = some b) :
    a = b ∧ a.fragmentOffset + a.fragSize ≤ a.dataSize ∧
      (a.fragmentNo + 1 = a.fragmentsInMsg → a.fragmentOffset + a.fragSize = a.dataSize) := by
  unfold checkRange at h
  split at h <;> cases h
  next bad =>
    simp only [not_or, not_and] at bad
    refine ⟨rfl, by omega, fun last => ?_⟩
    have := bad.2.2.2 last
    omega

theorem checked_of_checkPacket {pkt : Packet} {a : Accepted} (h : checkPacket pkt = some a) :
    Checked pkt a := by
  unfold checkPacket at h
  split at h
  · cases h
  next long =>
  have long : sizeofMsgHeaderLong ≤ pkt.sz := by omega
  have bytes := body_eq long
  simp only at h
  split at h
  · cases h
  next limits =>
  split at h
  next isFirst =>
    split at h
    · cases h
    next channelSz found =>
      obtain ⟨bound, zero, before⟩ := memchrNul_some found
      have bound' : channelSz < pkt.sz - sizeofMsgHeaderLong := by
        have : pkt.getFragmentSize = pkt.sz - sizeofMsgHeaderLong := rfl
        omega
      obtain ⟨channel, rest⟩ := read_split_nul bound' zero before
      split at h
      · cases h
      next atStart =>
        obtain ⟨rfl, within, last⟩ := checkRange_some h
        exact
          { msgSeqno := rfl, dataSize := rfl, fragmentOffset := rfl, fragmentNo := rfl, fragmentsInMsg := rfl
            no_lt := by simp only; omega
            size_le := by simp only; omega
            within := within
            payload := by
              rw [Packet.payload, if_pos isFirst, bytes, rest]
              rfl
            first := fun _ => ⟨by simpa using atStart, by simp only; omega,
              by rw [Packet.channel, bytes, channel]⟩
            last := last }
  next notFirst =>
    obtain ⟨rfl, within, last⟩ := checkRange_some h
    exact
      { msgSeqno := rfl, dataSize := rfl, fragmentOffset := rfl, fragmentNo := rfl, fragmentsInMsg := rfl
        no_lt := by simp only; omega
        size_le := by simp only; omega
        within := within
        payload := by
          rw [Packet.payload, if_neg notFirst, bytes]
          rfl
        first := fun isFirst => absurd isFirst notFirst
        last := last }

def Received (f : FragBuf) (k : Nat) (fr : Fragment) : Prop := f.fragments[k]? = some fr ∧ fr.received = true

structure Part (hist : List Packet) (f : FragBuf) (k : Nat) (fr : Fragment) (p : Packet) : Prop where
  arrived : p ∈ hist
  fromAddr : p.fromAddr = f.fromAddr
  msgSeqno : p.getMsgSeqno = f.msgSeqno
  dataSize : p.getMsgSize = f.dataSize
  fragmentsInMsg : p.getFragmentsInMsg = f.fragments.length
  fragmentNo : p.getFragmentNo = k
  offset : p.getFragmentOffset = fr.offset
  size : p.payload.length = fr.size
  first : k = 0 → fr.offset = 0
  last : k + 1 = f.fragments.length → fr.offset + fr.size = f.dataSize

/-- A fragment buffer holds what the packets `parts` brought. Fragments that are not neighbours may
overlap, so a byte is only known to come from one of the fragments that cover it. -/
structure Holds (hist : List Packet) (f : FragBuf) (parts : Nat → Packet) : Prop where
  few : f.fragments.length < 2 ^ 16
  remaining : f.fragmentsRemaining = f.fragments.countP (!·.received)
  part : ∀ k fr, Received f k fr → Part hist f k fr (parts k)
  adjacent : ∀ k fr fr', Received f k fr → Received f (k + 1) fr' → fr.offset + fr.size = fr'.offset
  bytes : ∀ k fr i, Received f k fr → i < fr.size → ∃ k' fr' i', Received f k' fr' ∧
    fr'.offset + i' = fr.offset + i ∧
    (parts k').payload[i']? = some (f.buf (payloadOffset f.dataSize + (fr.offset + i)))
  channel : ∀ fr, Received f 0 fr → f.channellen + 1 ≤ payloadOffset f.dataSize ∧
    f.buf.read 0 (f.channellen + 1) = (parts 0).channel

structure Fits (f : FragBuf) (pkt : Packet) (a : Accepted) : Prop where
  checked : Checked pkt a
  fromAddr : pkt.fromAddr = f.fromAddr
  msgSeqno : a.msgSeqno = f.msgSeqno
  dataSize : a.dataSize = f.dataSize
  fragmentsInMsg : a.fragmentsInMsg = f.fragments.length

theorem Holds.mono {hist : List Packet} {f : FragBuf} {parts : Nat → Packet} (h : Holds hist f parts)
    (pkt : Packet) : Holds (hist ++ [pkt]) f parts :=
  { h with part := fun k fr received => { h.part k fr received with
      arrived := List.mem_append_left _ (h.part k fr received).arrived } }

theorem received_store {f : FragBuf} {pkt : Packet} {a : Accepted} {now : Int}
    (no_lt : a.fragmentNo < f.fragments.length) {k : Nat} {fr : Fragment} :
    Received (f.store pkt a now) k fr ↔
      k = a.fragmentNo ∧ fr = ⟨a.fragmentOffset, a.fragSize, true⟩ ∨
        k ≠ a.fragmentNo ∧ Received f k fr := by
  simp only [Received, FragBuf.store, List.getElem?_set]
  by_cases same : a.fragmentNo = k
  · subst same
    simp only [if_true, no_lt, Option.some.injEq, true_and, ne_eq, not_true, false_and, or_false]
    constructor
    · rintro ⟨rfl, -⟩
      rfl
    · rintro rfl
      exact ⟨rfl, rfl⟩
  · have other : k ≠ a.fragmentNo := fun h => same h.symm
    simp [same, other]

theorem meets_prev {f : FragBuf} {a : Accepted} (meets : meetsNeighbours f a = true) {k : Nat} {prev : Fragment}
    (next : k + 1 = a.fragmentNo) (received : Received f k prev) :
    prev.offset + prev.size = a.fragmentOffset := by
  simp only [meetsNeighbours, Bool.and_eq_true, Bool.or_eq_true, decide_eq_true_eq] at meets
  have isPrev : a.fragmentNo - 1 = k := by omega
  rcases meets.1 with zero | all
  · omega
  · rw [isPrev, received.1] at all
    simpa [received.2] using all

theorem meets_next {f : FragBuf} {a : Accepted} (meets : meetsNeighbours f a = true) {next : Fragment}
    (total : a.fragmentsInMsg = f.fragments.length) (received : Received f (a.fragmentNo + 1) next) :
    a.fragmentOffset + a.fragSize = next.offset := by
  simp only [meetsNeighbours, Bool.and_eq_true, Bool.or_eq_true, decide_eq_true_eq] at meets
  have inside : a.fragmentNo + 1 < f.fragments.length := (List.getElem?_eq_some_iff.mp received.1).1
  rcases meets.2 with outside | all
  · omega
  · rw [received.1] at all
    simpa [received.2] using all

theorem store_buf_outside {f : FragBuf} {pkt : Packet} {a : Accepted} (now : Int) (checked : Checked pkt a)
    {x : Nat} (outside : x < a.fragmentOffset ∨ a.fragmentOffset + a.fragSize ≤ x) :
    (f.store pkt a now).buf (payloadOffset a.dataSize + x) = f.buf (payloadOffset a.dataSize + x) := by
  simp only [FragBuf.store]
  rw [Mem.write_outside _ _ _ _ (by rw [Mem.read_length]; omega)]
  split
  next isFirst =>
    have := (checked.first isFirst).2.1
    exact Mem.write_outside _ _ _ _ (by rw [Mem.read_length]; omega)
  · rfl

theorem store_buf_inside {f : FragBuf} {pkt : Packet} {a : Accepted} (now : Int) (checked : Checked pkt a)
    {i : Nat} (inside : i < a.fragSize) :
    pkt.payload[i]? = some ((f.store pkt a now).buf (payloadOffset a.dataSize + (a.fragmentOffset + i))) := by
  have bound : i < (pkt.buf.read a.dataStart a.fragSize).length := by rwa [Mem.read_length]
  simp only [FragBuf.store]
  rw [← Nat.add_assoc, Mem.write_inside _ _ _ _ bound, ← checked.payload]
  exact List.getElem?_eq_getElem bound

theorem store_remaining {f : FragBuf} {a : Accepted} {old : Fragment} (few : f.fragments.length < 2 ^ 16)
    (remaining : f.fragmentsRemaining = f.fragments.countP (!·.received))
    (there : f.fragments[a.fragmentNo]? = some old) (missing : old.received = false) (pkt : Packet) (now : Int) :
    (f.store pkt a now).fragmentsRemaining = (f.store pkt a now).fragments.countP (!·.received) := by
  obtain ⟨no_lt, found⟩ := List.getElem?_eq_some_iff.mp there
  have count : (f.fragments.set a.fragmentNo ⟨a.fragmentOffset, a.fragSize, true⟩).countP (!·.received) =
      f.fragments.countP (!·.received) - 1 := by
    rw [List.countP_set no_lt, found]
    simp [missing]
  have positive : 0 < f.fragments.countP (!·.received) :=
    List.countP_pos_iff.mpr ⟨old, List.mem_of_getElem? there, by simp [missing]⟩
  have bound : f.fragments.countP (!·.received) ≤ f.fragments.length := List.countP_le_length
  simp only [FragBuf.store, count]
  omega

theorem Holds.store {hist : List Packet} {f : FragBuf} {parts : Nat → Packet} (h : Holds hist f parts)
    {pkt : Packet} {a : Accepted} (fits : Fits f pkt a) {old : Fragment}
    (there : f.fragments[a.fragmentNo]? = some old) (missing : old.received = false)
    (meets : meetsNeighbours f a = true) (now : Int) :
    Holds (hist ++ [pkt]) (f.store pkt a now) (Function.update parts a.fragmentNo pkt) := by
  have checked := fits.checked
  have no_lt : a.fragmentNo < f.fragments.length := (List.getElem?_eq_some_iff.mp there).1
  have sizes : pkt.payload.length = a.fragSize := by rw [← checked.payload, Mem.read_length]
  have length : (f.store pkt a now).fragments.length = f.fragments.length := by simp [FragBuf.store]
  have dataSize : (f.store pkt a now).dataSize = a.dataSize := fits.dataSize.symm
  have notThere : ∀ {fr}, ¬ Received f a.fragmentNo fr := by
    rintro fr ⟨equal, received⟩
    rw [there] at equal
    cases equal
    rw [missing] at received
    cases received
  have stored : Received (f.store pkt a now) a.fragmentNo ⟨a.fragmentOffset, a.fragSize, true⟩ :=
    (received_store no_lt).mpr (.inl ⟨rfl, rfl⟩)
  have kept : ∀ {k fr}, Received f k fr → k ≠ a.fragmentNo ∧ Received (f.store pkt a now) k fr := by
    intro k fr received
    have other : k ≠ a.fragmentNo := by
      rintro rfl
      exact notThere received
    exact ⟨other, (received_store no_lt).mpr (.inr ⟨other, received⟩)⟩
  constructor
  case few => rw [length]; exact h.few
  case remaining => exact store_remaining h.few h.remaining there missing pkt now
  case part =>
    intro k fr received
    rcases (received_store no_lt).mp received with ⟨rfl, rfl⟩ | ⟨other, before⟩
    · rw [Function.update_self]
      exact
        { arrived := by simp
          fromAddr := fits.fromAddr
          msgSeqno := checked.msgSeqno.trans fits.msgSeqno
          dataSize := checked.dataSize.trans fits.dataSize
          fragmentsInMsg := by rw [length, checked.fragmentsInMsg, fits.fragmentsInMsg]
          fragmentNo := checked.fragmentNo
          offset := checked.fragmentOffset
          size := sizes
          first := fun isFirst => (checked.first isFirst).1
          last := fun isLast => by
            rw [dataSize]
            exact checked.last (by rw [fits.fragmentsInMsg, ← length]; exact isLast) }
    · rw [Function.update_of_ne other]
      have part := h.part k fr before
      exact { part with
        arrived := List.mem_append_left _ part.arrived
        fragmentsInMsg := by rw [length]; exact part.fragmentsInMsg
        last := by rw [length]; exact part.last }
  case adjacent =>
    intro k fr fr' received received'
    rcases (received_store no_lt).mp received with ⟨rfl, rfl⟩ | ⟨other, before⟩
    · rcases (received_store no_lt).mp received' with ⟨impossible, -⟩ | ⟨-, before'⟩
      · omega
      · exact meets_next meets fits.fragmentsInMsg before'
    · rcases (received_store no_lt).mp received' with ⟨next, rfl⟩ | ⟨-, before'⟩
      · exact meets_prev meets next before
      · exact h.adjacent k fr fr' before before'
  case bytes =>
    intro k fr i received bound
    rw [dataSize]
    by_cases inside : a.fragmentOffset ≤ fr.offset + i ∧ fr.offset + i < a.fragmentOffset + a.fragSize
    · obtain ⟨j, hj⟩ := Nat.exists_eq_add_of_le inside.1
      refine ⟨a.fragmentNo, _, j, stored, hj.symm, ?_⟩
      rw [Function.update_self, hj]
      exact store_buf_inside now checked (by omega)
    · rcases (received_store no_lt).mp received with ⟨rfl, rfl⟩ | ⟨-, before⟩
      · simp only at inside bound
        omega
      · obtain ⟨k', fr', i', received', same, byte⟩ := h.bytes k fr i before bound
        refine ⟨k', fr', i', (kept received').2, same, ?_⟩
        rw [Function.update_of_ne (kept received').1, byte, ← fits.dataSize,
          store_buf_outside now checked (by omega)]
  case channel =>
    intro fr received
    rw [dataSize]
    by_cases isFirst : a.fragmentNo = 0
    · obtain ⟨-, room, channel⟩ := checked.first isFirst
      rw [isFirst, Function.update_self]
      simp only [FragBuf.store, if_pos isFirst]
      refine ⟨room, ?_⟩
      rw [Mem.read_write_disjoint _ _ _ _ _ (by omega), ← channel]
      have same := Mem.read_write_self f.buf 0 (pkt.buf.read sizeofMsgHeaderLong (a.channelSz + 1))
      rwa [Mem.read_length] at same
    · rcases (received_store no_lt).mp received with ⟨zero, -⟩ | ⟨other, before⟩
      · omega
      · obtain ⟨room, channel⟩ := h.channel fr before
        rw [← fits.dataSize] at room
        rw [Function.update_of_ne other]
        simp only [FragBuf.store, if_neg isFirst]
        refine ⟨room, ?_⟩
        rw [Mem.read_write_disjoint _ _ _ _ _ (by omega)]
        exact channel

end Zcm.Udp
