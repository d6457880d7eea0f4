import Zcm.Udp.Fragments

namespace Zcm.Udp
open Zcm.Lib

structure Collects (platform : Platform) (m : Sent) (got : Nat → Prop) (f : FragBuf) : Prop where
  fromAddr : f.fromAddr = m.fromAddr
  msgSeqno : f.msgSeqno = m.msgSeqno
  dataSize : f.dataSize = m.data.length
  length : f.fragments.length = m.total platform
  remaining : f.fragmentsRemaining = f.fragments.countP (!·.received)
  there : ∀ k < m.total platform, got k →
    f.fragments[k]? = some ⟨m.offset platform k, m.size platform k, true⟩
  missing : ∀ k < m.total platform, ¬ got k → ∃ fr, f.fragments[k]? = some fr ∧ fr.received = false
  bytes : ∀ k < m.total platform, got k →
    f.buf.read (payloadOffset m.data.length + m.offset platform k) (m.size platform k) = m.slice platform k
  channel : got 0 → f.channellen = m.channel.chars.length ∧
    f.buf.read 0 (m.channel.chars.length + 1) = m.channel.chars ++ [0]

section Buffer

variable {platform : Platform} {m : Sent} {got : Nat → Prop} {f : FragBuf} {k : Nat} {pkt : Packet}

theorem Carries.read_slice (h : Carries platform m k pkt) (fragmented : m.Fragmented platform) :
    pkt.buf.read (m.accepted platform k).dataStart (m.size platform k) = m.slice platform k := by
  have body := h.read_body fragmented
  have length := fragmented.slice_length (h.lt_total fragmented)
  by_cases isFirst : k = 0
  · simp only [Sent.body, if_pos isFirst, List.length_append, List.length_singleton, length, Mem.read_add] at body
    simp only [Sent.accepted, if_pos isFirst, ← Nat.add_assoc]
    exact (List.append_inj' body (by simp [length])).2
  · simp only [Sent.body, if_neg isFirst, List.nil_append, length] at body
    simpa only [Sent.accepted, if_neg isFirst] using body

theorem Carries.collects_new (carries : Carries platform m k pkt) (nothing : ∀ j, ¬ got j) (now : Int)
    (left : Mem Byte) : Collects platform m got (newFragBuf pkt (m.accepted platform k) now left) where
  fromAddr := carries.fromAddr
  msgSeqno := rfl
  dataSize := rfl
  length := by simp [newFragBuf, Sent.accepted]
  remaining := by simp [newFragBuf, List.countP_replicate]
  there := fun j _ arrived => absurd arrived (nothing j)
  missing := fun j lt _ => ⟨⟨0, 0, false⟩, by simp [newFragBuf, Sent.accepted, lt], rfl⟩
  bytes := fun j _ arrived => absurd arrived (nothing j)
  channel := fun arrived => absurd arrived (nothing 0)

theorem Collects.received_iff (h : Collects platform m got f) (lt : k < m.total platform) {fr : Fragment} :
    Received f k fr ↔ got k ∧ fr = ⟨m.offset platform k, m.size platform k, true⟩ := by
  by_cases arrived : got k
  · simp only [Received, h.there k lt arrived, Option.some.injEq, arrived, true_and]
    constructor
    · rintro ⟨rfl, -⟩
      rfl
    · rintro rfl
      exact ⟨rfl, rfl⟩
  · obtain ⟨old, there, missing⟩ := h.missing k lt arrived
    simp only [Received, there, Option.some.injEq, arrived, false_and, iff_false, not_and]
    rintro rfl
    simp [missing]

theorem Collects.deposit_duplicate (h : Collects platform m got f) (fragmented : m.Fragmented platform)
    (carries : Carries platform m k pkt) (arrived : got k) (now : Int) :
    f.deposit pkt (m.accepted platform k) now = .duplicate := by
  have lt := carries.lt_total fragmented
  have same : sameAsStored f ⟨m.offset platform k, m.size platform k, true⟩ pkt (m.accepted platform k) = true := by
    simp only [sameAsStored, decide_eq_true_eq]
    refine ⟨rfl, rfl, ?_, ?_⟩
    · exact (h.bytes k lt arrived).trans (carries.read_slice fragmented).symm
    · intro isFirst
      obtain rfl : k = 0 := isFirst
      obtain ⟨length, channel⟩ := h.channel arrived
      exact ⟨length, channel.trans (carries.read_channel fragmented).symm⟩
  unfold FragBuf.deposit
  have there : f.fragments[(m.accepted platform k).fragmentNo]? =
    some ⟨m.offset platform k, m.size platform k, true⟩ := h.there k lt arrived
  rw [there]
  simp only [if_true, same]

theorem Collects.meetsNeighbours (h : Collects platform m got f) (fragmented : m.Fragmented platform)
    (lt : k < m.total platform) : meetsNeighbours f (m.accepted platform k) = true := by
  have isReceived : ∀ {j fr}, j < m.total platform → f.fragments[j]? = some fr → fr.received = true →
      fr = ⟨m.offset platform j, m.size platform j, true⟩ :=
    fun lt there received => ((h.received_iff lt).mp ⟨there, received⟩).2
  rw [Udp.meetsNeighbours, Bool.and_eq_true, Bool.or_eq_true, Bool.or_eq_true, decide_eq_true_eq,
    decide_eq_true_eq]
  constructor
  · by_cases isFirst : k = 0
    · exact .inl isFirst
    · obtain ⟨j, rfl⟩ := Nat.exists_eq_succ_of_ne_zero isFirst
      refine .inr ((Option.all_eq_true _ _).mpr fun prev there => ?_)
      by_cases received : prev.received = true
      · obtain rfl := isReceived (Nat.lt_of_succ_lt lt) there received
        exact decide_eq_true (fragmented.offset_add_size lt)
      · simp [received]
  · by_cases isLast : m.total platform ≤ k + 1
    · exact .inl isLast
    · refine .inr ((Option.all_eq_true _ _).mpr fun next there => ?_)
      by_cases received : next.received = true
      · obtain rfl := isReceived (Nat.lt_of_not_le isLast) there received
        exact decide_eq_true (fragmented.offset_add_size (Nat.lt_of_not_le isLast))
      · simp [received]

theorem Collects.deposit_stored (h : Collects platform m got f) (fragmented : m.Fragmented platform)
    (carries : Carries platform m k pkt) (new : ¬ got k) (now : Int) :
    f.deposit pkt (m.accepted platform k) now = .stored (f.store pkt (m.accepted platform k) now) := by
  have lt := carries.lt_total fragmented
  obtain ⟨old, there, missing⟩ := h.missing k lt new
  have there : f.fragments[(m.accepted platform k).fragmentNo]? = some old := there
  unfold FragBuf.deposit
  rw [there]
  simp only [missing, Bool.false_eq_true, if_false, h.meetsNeighbours fragmented lt, if_true]

theorem Collects.store (h : Collects platform m got f) (fragmented : m.Fragmented platform)
    (carries : Carries platform m k pkt) (new : ¬ got k) (now : Int) :
    Collects platform m (fun j => got j ∨ j = k) (f.store pkt (m.accepted platform k) now) := by
  have lt := carries.lt_total fragmented
  have few := fragmented.few
  have slice := carries.read_slice fragmented
  have length := fragmented.slice_length lt
  have checked := checked_of_checkPacket (carries.checkPacket_eq fragmented)
  obtain ⟨old, there, missing⟩ := h.missing k lt new
  have no_lt : (m.accepted platform k).fragmentNo < f.fragments.length := by
    rw [h.length]
    exact lt
  have room : m.channel.chars.length + 1 ≤ payloadOffset m.data.length := by
    have channel := fragmented.channel_le
    have size := fragmented.size_le
    simp only [payloadOffset, Sent.payloadSize] at *
    omega
  constructor
  case fromAddr => exact h.fromAddr
  case msgSeqno => exact h.msgSeqno
  case dataSize => exact h.dataSize
  case length => simpa [FragBuf.store] using h.length
  case remaining => exact store_remaining (by rw [h.length]; omega) h.remaining there missing pkt now
  case there =>
    intro j lt' arrived
    refine ((received_store no_lt).mpr ?_ : Received _ j _).1
    by_cases same : j = k
    · exact .inl ⟨same, by rw [same]; rfl⟩
    · exact .inr ⟨same, (h.received_iff lt').mpr ⟨arrived.resolve_right same, rfl⟩⟩
  case missing =>
    intro j lt' absent
    obtain ⟨fr, there', missing'⟩ := h.missing j lt' fun arrived => absent (.inl arrived)
    refine ⟨fr, ?_, missing'⟩
    have other : k ≠ j := fun same => absent (.inr same.symm)
    simpa [FragBuf.store, Sent.accepted, List.getElem?_set, other] using there'
  case bytes =>
    intro j lt' arrived
    by_cases same : j = k
    · subst same
      have payload : pkt.payload = m.slice platform j := by rw [← checked.payload]; exact slice
      rw [← length]
      refine Mem.read_eq_iff.mpr fun i hi => ?_
      have byte := store_buf_inside (f := f) now checked (i := i) (hi.trans_eq length)
      rw [payload, List.getElem?_eq_getElem hi] at byte
      rw [Nat.add_assoc]
      exact (Option.some.inj byte).symm
    · rw [← h.bytes j lt' (arrived.resolve_right same)]
      refine Mem.read_congr fun i hi => ?_
      rw [Nat.add_assoc]
      refine store_buf_outside now checked ?_
      simp only [Sent.accepted]
      rcases Nat.lt_or_gt_of_ne same with before | after
      · have := fragmented.offset_add_size_le_offset lt' before
        omega
      · have := fragmented.offset_add_size_le_offset lt after
        omega
  case channel =>
    intro arrived
    simp only [FragBuf.store]
    rw [Mem.read_write_disjoint _ _ _ _ _ (by simp only [Sent.accepted]; omega)]
    by_cases isFirst : k = 0
    · subst isFirst
      simp only [Sent.accepted, if_true, carries.read_channel fragmented]
      refine ⟨trivial, ?_⟩
      have same := Mem.read_write_self f.buf 0 (m.channel.chars ++ [0])
      rwa [List.length_append, List.length_singleton] at same
    · simp only [Sent.accepted, if_neg isFirst]
      exact h.channel (arrived.resolve_right fun zero => isFirst zero.symm)

theorem Collects.remaining_eq_zero (h : Collects platform m got f) :
    f.fragmentsRemaining = 0 ↔ ∀ k < m.total platform, got k := by
  rw [h.remaining, List.countP_eq_zero]
  constructor
  · intro all k lt
    by_contra absent
    obtain ⟨fr, there, missing⟩ := h.missing k lt absent
    exact all fr (List.mem_of_getElem? there) (by simp [missing])
  · intro all fr member
    obtain ⟨k, there⟩ := List.getElem?_of_mem member
    have lt : k < m.total platform := by
      rw [← h.length]
      exact (List.getElem?_eq_some_iff.mp there).1
    rw [h.there k lt (all k lt)] at there
    cases there
    simp

theorem Sent.Fragmented.covered (fragmented : m.Fragmented platform) {i : Nat} (lt : i < m.data.length) :
    ∃ k < m.total platform, m.offset platform k ≤ i ∧ i < m.offset platform k + m.size platform k := by
  have fragment := fragmented.fragment_bounds
  have total := fragmented.total_bounds
  have split := Nat.div_add_mod (i + (m.channel.chars.length + 1)) platform.fragmentMaxPayload
  have rest := Nat.mod_lt (i + (m.channel.chars.length + 1)) (y := platform.fragmentMaxPayload) (by omega)
  rw [Nat.mul_comm] at split
  generalize (i + (m.channel.chars.length + 1)) / platform.fragmentMaxPayload = k at split
  refine ⟨k, ?_, ?_, ?_⟩
  · refine Nat.lt_of_mul_lt_mul_right (a := platform.fragmentMaxPayload) ?_
    simp only [payloadSize] at *
    omega
  · simp only [offset]
    omega
  · simp only [size, offset, Nat.succ_mul]
    omega

theorem Collects.message_eq (h : Collects platform m got f) (fragmented : m.Fragmented platform)
    (complete : ∀ k < m.total platform, got k) :
    f.message = ⟨f.lastPacketUtime, m.channel.chars ++ [0], m.data⟩ := by
  obtain ⟨length, channel⟩ := h.channel (complete 0 (by have := fragmented.one_lt_total; omega))
  have data : f.buf.read (payloadOffset m.data.length) m.data.length = m.data := by
    refine Mem.read_eq_iff.mpr fun i lt => ?_
    obtain ⟨k, lt', start, stop⟩ := fragmented.covered lt
    obtain ⟨j, rfl⟩ := Nat.exists_eq_add_of_le start
    have sliceLength := fragmented.slice_length lt'
    have bytes := h.bytes k lt' (complete k lt')
    rw [← sliceLength] at bytes
    have byte := Mem.read_eq_iff.mp bytes j (by omega)
    rw [Nat.add_assoc] at byte
    rw [byte]
    simp [Sent.slice]
  simp only [FragBuf.message, h.dataSize, length, channel, data]

end Buffer

end Zcm.Udp
