import Zcm.Udp.Assembled
import Zcm.Udp.Send

namespace Zcm.Udp
open Zcm.Lib

structure Carries (platform : Platform) (m : Sent) (k : Nat) (pkt : Packet) : Prop where
  fromAddr : pkt.fromAddr = m.fromAddr
  bytes : (m.datagrams platform)[k]? = some (pkt.buf.read 0 pkt.sz)

namespace Carries

variable {platform : Platform} {m : Sent} {k : Nat} {pkt : Packet}

theorem lt_total (h : Carries platform m k pkt) (fragmented : m.Fragmented platform) : k < m.total platform := by
  have bytes := h.bytes
  rw [Sent.datagrams_eq fragmented] at bytes
  simpa using (List.getElem?_eq_some_iff.mp bytes).1

theorem read_eq (h : Carries platform m k pkt) (fragmented : m.Fragmented platform) :
    pkt.buf.read 0 pkt.sz = m.datagram platform k := by
  have bytes := h.bytes
  rw [Sent.datagrams_eq fragmented, List.getElem?_map, List.getElem?_range (h.lt_total fragmented)] at bytes
  exact (Option.some.inj bytes).symm

theorem sz_eq (h : Carries platform m k pkt) (fragmented : m.Fragmented platform) :
    pkt.sz = sizeofMsgHeaderLong + (m.body platform k).length := by
  have length := congrArg List.length (h.read_eq fragmented)
  simp only [Mem.read_length, Sent.datagram, msgHeaderLong, List.length_append, toBe_length] at length
  exact length

theorem header_eq (h : Carries platform m k pkt) (fragmented : m.Fragmented platform) :
    pkt.getMsgSeqno = m.msgSeqno ∧ pkt.getMsgSize = m.data.length ∧
      pkt.getFragmentOffset = m.offset platform k ∧ pkt.getFragmentNo = k ∧
      pkt.getFragmentsInMsg = m.total platform := by
  have whole := h.read_eq fragmented
  have sz := h.sz_eq fragmented
  have lt := h.lt_total fragmented
  have few := fragmented.few
  have size := fragmented.size_le
  have offset := fragmented.offset_add_size_le lt
  have field : ∀ a b : Nat, a + b ≤ 20 → pkt.buf.read a b = ((m.datagram platform k).drop a).take b :=
    fun a b inside => Mem.read_drop_take whole (by simp only [sizeofMsgHeaderLong] at sz; omega)
  simp only [Sent.payloadSize, mtu] at size
  simp only [Packet.getMsgSeqno, Packet.getMsgSize, Packet.getFragmentOffset, Packet.getFragmentNo,
    Packet.getFragmentsInMsg]
  rw [field 4 4 (by omega), field 8 4 (by omega), field 12 4 (by omega), field 16 2 (by omega),
    field 18 2 (by omega)]
  simp only [Sent.datagram, msgHeaderLong, List.append_assoc]
  simp [List.drop_append, List.drop_eq_nil_of_le]
  exact ⟨ofBe_toBe_of_lt fragmented.seqno_lt, ofBe_toBe_of_lt (by omega), ofBe_toBe_of_lt (by omega),
    ofBe_toBe_of_lt (by omega), ofBe_toBe_of_lt (by omega)⟩

theorem read_body (h : Carries platform m k pkt) (fragmented : m.Fragmented platform) :
    pkt.buf.read sizeofMsgHeaderLong (m.body platform k).length = m.body platform k := by
  rw [Mem.read_drop_take (h.read_eq fragmented) (h.sz_eq fragmented).ge, Sent.datagram,
    List.drop_left' (by simp [msgHeaderLong, sizeofMsgHeaderLong]), List.take_length]

end Carries

namespace Sent

variable (platform : Platform) (m : Sent)

def accepted (k : Nat) : Accepted where
  msgSeqno := m.msgSeqno
  dataSize := m.data.length
  fragmentOffset := m.offset platform k
  fragmentNo := k
  fragmentsInMsg := m.total platform
  channelSz := if k = 0 then m.channel.chars.length else 0
  dataStart := if k = 0 then sizeofMsgHeaderLong + (m.channel.chars.length + 1) else sizeofMsgHeaderLong
  fragSize := m.size platform k

end Sent

variable {platform : Platform} {m : Sent}

section

variable {mem : Mem Byte} {start : Nat} {s : CString} (read : mem.read start (s.chars.length + 1) = s.chars ++ [0])

include read

theorem memchrNul_string {n : Nat} (room : s.chars.length < n) : memchrNul mem start n = some s.chars.length := by
  have length : s.chars.length + 1 = (s.chars ++ [0]).length := by simp
  rw [length] at read
  have cells := Mem.read_eq_iff.mp read
  refine List.find?_range_eq_some.mpr ⟨?_, List.mem_range.mpr room, fun i lt => ?_⟩
  · rw [cells _ (by simp)]
    simp
  · rw [cells i (by simp only [List.length_append]; omega), List.getElem_append_left lt]
    have nonzero : s.chars[i] ≠ 0 := fun zero => s.noNul (zero ▸ List.getElem_mem lt)
    simpa using nonzero

theorem memchrNul_string_none {n : Nat} (short : n ≤ s.chars.length) : memchrNul mem start n = none := by
  have found := memchrNul_string read (Nat.lt_succ_self _)
  obtain ⟨-, -, before⟩ := List.find?_range_eq_some.mp found
  refine List.find?_eq_none.mpr fun i member => ?_
  have lt := List.mem_range.mp member
  simpa using before i (by omega)

end

theorem Carries.read_channel {pkt : Packet} (h : Carries platform m 0 pkt) (fragmented : m.Fragmented platform) :
    pkt.buf.read sizeofMsgHeaderLong (m.channel.chars.length + 1) = m.channel.chars ++ [0] := by
  have body := h.read_body fragmented
  rw [Sent.body, if_pos rfl, List.length_append, Mem.read_add] at body
  simpa using (List.append_inj body (by simp)).1

theorem Carries.checkRange_eq {k : Nat} {pkt : Packet} (h : Carries platform m k pkt)
    (fragmented : m.Fragmented platform) :
    checkRange (m.accepted platform k) = some (m.accepted platform k) := by
  have lt := h.lt_total fragmented
  have within := fragmented.offset_add_size_le lt
  have pos := fragmented.size_pos lt
  refine if_neg ?_
  simp only [Sent.accepted]
  rintro (start | size | ⟨-, empty⟩ | ⟨last, short⟩)
  · omega
  · omega
  · omega
  · exact short (fragmented.offset_add_size_last last)

theorem Carries.checkPacket_eq {k : Nat} {pkt : Packet} (h : Carries platform m k pkt)
    (fragmented : m.Fragmented platform) : checkPacket pkt = some (m.accepted platform k) := by
  obtain ⟨seqno, size, offset, no, total⟩ := h.header_eq fragmented
  have sz := h.sz_eq fragmented
  have lt := h.lt_total fragmented
  have within := fragmented.size_le
  have slice := fragmented.slice_length lt
  have range := h.checkRange_eq fragmented
  have fragSize : pkt.getFragmentSize = (m.body platform k).length := by
    rw [Packet.getFragmentSize, sz]
    omega
  unfold checkPacket
  rw [if_neg (by omega)]
  simp only [seqno, size, offset, no, total, fragSize]
  rw [if_neg (by simp only [Sent.payloadSize] at within; omega)]
  by_cases isFirst : k = 0
  · subst isFirst
    have length : (m.body platform 0).length = m.channel.chars.length + 1 + m.size platform 0 := by
      rw [Sent.body, if_pos rfl, List.length_append, slice]
      simp
    have room : m.channel.chars.length + 1 ≤ payloadOffset m.data.length := by
      have := fragmented.channel_le
      simp only [payloadOffset, Sent.payloadSize] at *
      omega
    rw [if_pos rfl, memchrNul_string (h.read_channel fragmented) (by omega)]
    simp only [Sent.offset_zero, ne_eq, not_true, if_false]
    rw [← range]
    congr 1
    simp [Sent.accepted, length]
  · have length : (m.body platform k).length = m.size platform k := by
      rw [Sent.body, if_neg isFirst, List.nil_append, slice]
    rw [if_neg isFirst, ← range]
    congr 1
    simp [Sent.accepted, length, isFirst]

end Zcm.Udp
