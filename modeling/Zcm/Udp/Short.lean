import Zcm.Udp.Limits

namespace Zcm.Udp
open Zcm.Lib

/-- The packet is discarded, or what follows the header in it is the channel, its terminator and the data. -/
def ShortInside (udp : UDP) (pkt : Packet) : Prop :=
  recvShort udp pkt = (none, udp.discard) ∨
    ∃ (channel : CString) (data : List Byte),
      sizeofMsgHeaderShort + channel.strlen + 1 + data.length = pkt.sz ∧
      pkt.buf.read sizeofMsgHeaderShort (pkt.sz - sizeofMsgHeaderShort) = channel.chars ++ [0] ++ data ∧
      recvShort udp pkt = (some ⟨pkt.utime, channel.chars ++ [0], data⟩, udp)

/-- The first zero behind the header is `n` bytes behind it, and still in the buffer. -/
structure FirstNul (pkt : Packet) (n : Nat) : Prop where
  inBuffer : sizeofMsgHeaderShort + n < maxUnfragmentedPacketSize
  zero : pkt.buf (sizeofMsgHeaderShort + n) = 0
  first : ∀ i < n, pkt.buf (sizeofMsgHeaderShort + i) ≠ 0

variable {udp : UDP} {pkt : Packet}

theorem memchrNul_iff {m : Mem Byte} {start n k : Nat} :
    memchrNul m start n = some k ↔ k < n ∧ m (start + k) = 0 ∧ ∀ i < k, m (start + i) ≠ 0 := by
  refine ⟨memchrNul_some, fun ⟨inside, zero, first⟩ => ?_⟩
  exact List.find?_range_eq_some.mpr
    ⟨by simpa using zero, List.mem_range.mpr inside, fun i lt => by simpa using first i lt⟩

theorem getChannelLen_iff {n : Nat} : pkt.getChannelLen = some n ↔ FirstNul pkt n := by
  have unfolded : pkt.getChannelLen =
      memchrNul pkt.buf sizeofMsgHeaderShort (maxUnfragmentedPacketSize - sizeofMsgHeaderShort) := by
    unfold Packet.getChannelLen
    rfl
  have bound : n < maxUnfragmentedPacketSize - sizeofMsgHeaderShort ↔
      sizeofMsgHeaderShort + n < maxUnfragmentedPacketSize := by
    rw [Nat.lt_sub_iff_add_lt, Nat.add_comm]
  rw [unfolded, memchrNul_iff, bound]
  exact ⟨fun ⟨inBuffer, zero, first⟩ => ⟨inBuffer, zero, first⟩, fun h => ⟨h.inBuffer, h.zero, h.first⟩⟩

theorem FirstNul.unique {n n' : Nat} (h : FirstNul pkt n) (h' : FirstNul pkt n') : n = n' :=
  Option.some.inj ((getChannelLen_iff.mpr h).symm.trans (getChannelLen_iff.mpr h'))

theorem recvShort_overrun (none : pkt.getChannelLen = none) : recvShort udp pkt = (.none, udp) := by
  have checked : checkShort pkt = .overrun := by
    rw [checkShort_eq]
    simp only [none]
  rw [recvShort_eq]
  simp only [checked]

theorem FirstNul.recvShort_bad {n : Nat} (h : FirstNul pkt n) (long : channelMaxlen < n) :
    recvShort udp pkt = (none, udp.discard) := by
  have checked : checkShort pkt = .bad := by rw [checkShort_of_len (getChannelLen_iff.mpr h), if_pos long]
  rw [recvShort_eq]
  simp only [checked]

theorem FirstNul.recvShort_message {n : Nat} (h : FirstNul pkt n) (short : n ≤ channelMaxlen) :
    recvShort udp pkt = (some ⟨pkt.utime, pkt.buf.read sizeofMsgHeaderShort (n + 1),
      pkt.buf.read (Packet.getDataOffset n) (pkt.getDataLen n)⟩, udp) := by
  refine recvShort_of_message ?_
  rw [checkShort_of_len (getChannelLen_iff.mpr h), if_neg (Nat.not_lt.mpr short)]

theorem UDP.discard_ne : udp ≠ udp.discard := fun same =>
  absurd (congrArg UDP.udpDiscardedBad same) (Nat.ne_of_lt (Nat.lt_succ_self _))

def FirstNul.channel {n : Nat} (h : FirstNul pkt n) : CString where
  chars := pkt.buf.read sizeofMsgHeaderShort n
  noNul inChars := by
    obtain ⟨i, lt, zero⟩ := List.mem_map.mp inChars
    exact h.first i (List.mem_range.mp lt) zero

theorem FirstNul.read_channel {n : Nat} (h : FirstNul pkt n) :
    pkt.buf.read sizeofMsgHeaderShort (n + 1) = h.channel.chars ++ [0] := by
  rw [Mem.read_add, Mem.read_succ, h.zero]
  rfl

theorem FirstNul.getDataLen_eq {n : Nat} (inside : sizeofMsgHeaderShort + n < pkt.sz)
    (fits : pkt.sz ≤ maxUnfragmentedPacketSize) :
    Packet.getDataOffset n + pkt.getDataLen n = pkt.sz := by
  simp only [Packet.getDataOffset, Packet.getDataLen, sizeofMsgHeaderShort, maxUnfragmentedPacketSize] at *
  omega

theorem FirstNul.inside_iff {n : Nat} (h : FirstNul pkt n) (short : n ≤ channelMaxlen)
    (fits : pkt.sz ≤ maxUnfragmentedPacketSize) :
    ShortInside udp pkt ↔ sizeofMsgHeaderShort + n < pkt.sz := by
  have received := @FirstNul.recvShort_message udp pkt n h short
  constructor
  · rintro (discarded | ⟨channel, data, size, -, message⟩)
    · rw [received] at discarded
      cases discarded
    · rw [received] at message
      have channels := congrArg List.length (congrArg Message.channel (Option.some.inj (congrArg Prod.fst message)))
      rw [Mem.read_length, List.length_append, List.length_singleton] at channels
      rw [CString.strlen] at size
      omega
  · intro inside
    have whole := FirstNul.getDataLen_eq inside fits
    refine .inr ⟨h.channel, pkt.buf.read (Packet.getDataOffset n) (pkt.getDataLen n), ?_, ?_, ?_⟩
    · rw [CString.strlen, FirstNul.channel, Mem.read_length, Mem.read_length]
      exact whole
    · have split : pkt.sz - sizeofMsgHeaderShort = n + 1 + pkt.getDataLen n := by
        rw [Packet.getDataOffset] at whole
        omega
      rw [split, Mem.read_add, h.read_channel]
      rfl
    · rw [received, h.read_channel]

/-- A short packet is handled inside of its bytes if its channel ends there, or does not end before it is too
long. -/
theorem recvShort_inside_iff (fits : pkt.sz ≤ maxUnfragmentedPacketSize) : ShortInside udp pkt ↔
    ∃ n, FirstNul pkt n ∧ (sizeofMsgHeaderShort + n < pkt.sz ∨ channelMaxlen < n) := by
  cases len : pkt.getChannelLen with
  | none =>
      constructor
      · intro inside
        rw [ShortInside, recvShort_overrun len] at inside
        rcases inside with discarded | ⟨_, _, _, _, message⟩
        · exact absurd (Prod.mk.inj discarded).2 UDP.discard_ne
        · cases message
      · rintro ⟨n, h, _⟩
        rw [getChannelLen_iff.mpr h] at len
        cases len
  | some n =>
      have h := getChannelLen_iff.mp len
      have only : (∃ n', FirstNul pkt n' ∧ (sizeofMsgHeaderShort + n' < pkt.sz ∨ channelMaxlen < n')) ↔
          sizeofMsgHeaderShort + n < pkt.sz ∨ channelMaxlen < n := by
        constructor
        · rintro ⟨n', h', either⟩
          exact h.unique h' ▸ either
        · exact fun either => ⟨n, h, either⟩
      rw [only]
      by_cases bad : channelMaxlen < n
      · exact ⟨fun _ => .inr bad, fun _ => .inl (h.recvShort_bad bad)⟩
      · rw [h.inside_iff (Nat.not_lt.mp bad) fits]
        exact ⟨.inl, fun either => either.resolve_right bad⟩

/-- A short packet of `sz` bytes, and what an earlier one left behind them. -/
def shortPacket (sz : Nat) (bytes : List Byte) : Packet :=
  ⟨0, sz, ⟨2, 7667, 1⟩, fun i => (msgHeaderShort 0 ++ bytes).getD i 0⟩

theorem recvShort_inside_terminated : ShortInside UDP.new (shortPacket 11 [65, 0, 7]) :=
  (recvShort_inside_iff (by decide)).mpr ⟨1, ⟨by decide, by decide, by decide⟩, .inl (by decide)⟩

/-- Eight bytes were received, and the channel of an earlier packet follows them. -/
theorem recvShort_outside :
    (shortPacket 8 [65, 0]).getMagic = magicShort ∧ sizeofMsgHeaderShort ≤ (shortPacket 8 [65, 0]).sz ∧
    (shortPacket 8 [65, 0]).sz ≤ maxUnfragmentedPacketSize ∧ ¬ ShortInside UDP.new (shortPacket 8 [65, 0]) := by
  refine ⟨by decide, by decide, by decide, fun inside => ?_⟩
  have h : FirstNul (shortPacket 8 [65, 0]) 1 := ⟨by decide, by decide, by decide⟩
  exact absurd ((h.inside_iff (by decide) (by decide)).mp inside) (by decide)

end Zcm.Udp
