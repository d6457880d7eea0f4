import Zcm.Udp.Transport

namespace Zcm.Udp
open Zcm.Lib

inductive Platform
  | apple | other
deriving DecidableEq

namespace Platform

def shortMessageMaxSize : Platform → Nat
  | apple => 1435
  | other => 65499

def fragmentMaxPayload : Platform → Nat
  | apple => 1423
  | other => 65487

end Platform

def magicShort : Nat := 0x4c433032

def magicLong : Nat := 0x4c433033

def msgHeaderShort (msgSeqno : Nat) : List Byte := toBe 4 magicShort ++ toBe 4 msgSeqno

def msgHeaderLong (msgSeqno msgSize fragmentOffset fragmentNo fragmentsInMsg : Nat) : List Byte :=
  toBe 4 magicLong ++ toBe 4 msgSeqno ++ toBe 4 msgSize ++ toBe 4 fragmentOffset ++ toBe 2 fragmentNo ++
    toBe 2 fragmentsInMsg

-- The result is `none` where the assertion fails that a message of which a fragment was not taken has been sent.
structure Sending where
  result : Option Int
  datagrams : List (List Byte)
  msgSeqno : Nat

structure Fragments where
  datagrams : List (List Byte)
  status : Int
  fragmentOffset : Nat

/-- The loop over the fragments after the first one. `status` is what the socket returns for a datagram, and what it
returned for the last one is compared with the size of that before the next goes out. -/
def sendRest (status : Nat → List Byte → Int) (header : Nat → Nat → List Byte) (data : List Byte)
    (fragmentSize : Nat) : Nat → Nat → Nat → Nat → Int → Fragments
  | 0, _, fragmentOffset, _, last => ⟨[], last, fragmentOffset⟩
  | rounds + 1, fragNo, fragmentOffset, packetSize, last =>
      if last = packetSize then
        let fraglen := min fragmentSize (data.length - fragmentOffset)
        let pkt := header fragmentOffset fragNo ++ (data.drop fragmentOffset).take fraglen
        let rest := sendRest status header data fragmentSize rounds (fragNo + 1) (fragmentOffset + fraglen) pkt.length
          (status fragNo pkt)
        ⟨pkt :: rest.datagrams, rest.status, rest.fragmentOffset⟩
      else ⟨[], last, fragmentOffset⟩

def nfragments (payloadSize fragmentSize : Nat) : Nat :=
  payloadSize / fragmentSize + if payloadSize % fragmentSize ≠ 0 then 1 else 0

-- `payload_size` is an `int` in the source: `publish` lets no message longer than the MTU through.
def sendmsg (platform : Platform) (status : Nat → List Byte → Int) (msgSeqno : Nat) (channel : CString)
    (data : List Byte) : Sending :=
  let channelSize := channel.chars.length
  if channelSize > channelMaxlen then ⟨some (-1), [], msgSeqno⟩
  else
    let payloadSize := channelSize + 1 + data.length
    let next := (msgSeqno + 1) % 2 ^ 32
    if payloadSize ≤ platform.shortMessageMaxSize then
      let pkt := msgHeaderShort msgSeqno ++ (channel.chars ++ [0]) ++ data
      ⟨some (if status 0 pkt = pkt.length then 0 else status 0 pkt), [pkt], next⟩
    else
      let fragmentSize := platform.fragmentMaxPayload
      let total := nfragments payloadSize fragmentSize
      if total > 65535 then ⟨some (-1), [], msgSeqno⟩
      else
        let header fragmentOffset fragmentNo :=
          msgHeaderLong msgSeqno data.length fragmentOffset fragmentNo total
        let firstfragDatasize := fragmentSize - (channelSize + 1)
        let pkt := header 0 0 ++ (channel.chars ++ [0]) ++ data.take firstfragDatasize
        let rest := sendRest status header data fragmentSize (total - 1) 1 firstfragDatasize pkt.length (status 0 pkt)
        ⟨if rest.status = 0 ∧ rest.fragmentOffset ≠ data.length then none else some 0,
          pkt :: rest.datagrams, next⟩

def transmits (_ : Nat) (pkt : List Byte) : Int := pkt.length

structure Sent where
  fromAddr : SockAddr
  msgSeqno : Nat
  channel : CString
  data : List Byte

namespace Sent

variable (platform : Platform) (m : Sent)

def datagrams : List (List Byte) := (sendmsg platform transmits m.msgSeqno m.channel m.data).datagrams

def payloadSize : Nat := m.channel.chars.length + 1 + m.data.length

def total : Nat := nfragments m.payloadSize platform.fragmentMaxPayload

def offset (k : Nat) : Nat := k * platform.fragmentMaxPayload - (m.channel.chars.length + 1)

def size (k : Nat) : Nat := min (m.offset platform (k + 1)) m.data.length - m.offset platform k

def slice (k : Nat) : List Byte := (m.data.drop (m.offset platform k)).take (m.size platform k)

/-- The message takes the fragmented path of `sendmsg`. Only with the small fragments of `Platform.apple`
can a message within the MTU have too many of them, and is refused then. -/
structure Fragmented : Prop where
  seqno_lt : m.msgSeqno < 2 ^ 32
  channel_le : m.channel.chars.length ≤ channelMaxlen
  size_le : m.payloadSize ≤ mtu
  long : platform.shortMessageMaxSize < m.payloadSize
  few : m.total platform ≤ 65535

variable {platform m}

theorem nfragments_bounds (payloadSize : Nat) {fragmentSize : Nat} (pos : 0 < fragmentSize) :
    payloadSize ≤ nfragments payloadSize fragmentSize * fragmentSize ∧
      nfragments payloadSize fragmentSize * fragmentSize < payloadSize + fragmentSize := by
  have split := Nat.div_add_mod payloadSize fragmentSize
  have lt := Nat.mod_lt payloadSize pos
  rw [Nat.mul_comm] at split
  unfold nfragments
  by_cases exactly : payloadSize % fragmentSize = 0
  · rw [if_neg (by simpa using exactly), Nat.add_zero]
    omega
  · rw [if_pos exactly, Nat.succ_mul]
    omega

@[simp] theorem offset_zero : m.offset platform 0 = 0 := by
  simp [offset]

namespace Fragmented

theorem fragment_bounds (h : Fragmented platform m) :
    m.channel.chars.length + 1 < platform.fragmentMaxPayload ∧ platform.fragmentMaxPayload < m.payloadSize := by
  have channel := h.channel_le
  have long := h.long
  cases platform <;>
    simp only [Platform.fragmentMaxPayload, Platform.shortMessageMaxSize, channelMaxlen] at * <;> omega

theorem total_bounds (h : Fragmented platform m) :
    m.payloadSize ≤ m.total platform * platform.fragmentMaxPayload ∧
      m.total platform * platform.fragmentMaxPayload < m.payloadSize + platform.fragmentMaxPayload :=
  nfragments_bounds _ (by have := h.fragment_bounds; omega)

theorem one_lt_total (h : Fragmented platform m) : 1 < m.total platform := by
  have fragment := h.fragment_bounds
  have total := h.total_bounds
  by_contra few
  have one : m.total platform = 0 ∨ m.total platform = 1 := by omega
  rcases one with none | one
  · rw [none] at total
    omega
  · rw [one] at total
    omega

theorem offset_add_size (h : Fragmented platform m) {k : Nat} (lt : k + 1 < m.total platform) :
    m.offset platform k + m.size platform k = m.offset platform (k + 1) := by
  have fragment := h.fragment_bounds
  have total := h.total_bounds
  have later := Nat.mul_le_mul_right platform.fragmentMaxPayload lt
  simp only [size, offset, payloadSize, Nat.succ_mul] at *
  omega

theorem offset_add_size_last (h : Fragmented platform m) {k : Nat} (last : k + 1 = m.total platform) :
    m.offset platform k + m.size platform k = m.data.length := by
  have fragment := h.fragment_bounds
  have total := h.total_bounds
  rw [← last] at total
  simp only [size, offset, payloadSize, Nat.succ_mul] at *
  omega

theorem size_pos (h : Fragmented platform m) {k : Nat} (lt : k < m.total platform) : 0 < m.size platform k := by
  have fragment := h.fragment_bounds
  have total := h.total_bounds
  have later := Nat.mul_le_mul_right platform.fragmentMaxPayload lt
  simp only [size, offset, payloadSize, Nat.succ_mul] at *
  omega

theorem size_eq (h : Fragmented platform m) {k : Nat} (pos : 0 < k) :
    m.size platform k = min platform.fragmentMaxPayload (m.data.length - m.offset platform k) := by
  have fragment := h.fragment_bounds
  have later := Nat.mul_le_mul_right platform.fragmentMaxPayload pos
  simp only [size, offset, Nat.succ_mul] at *
  omega

theorem size_zero (h : Fragmented platform m) :
    m.size platform 0 = platform.fragmentMaxPayload - (m.channel.chars.length + 1) := by
  have fragment := h.fragment_bounds
  simp only [size, offset, payloadSize] at *
  omega

theorem offset_add_size_le (h : Fragmented platform m) {k : Nat} (lt : k < m.total platform) :
    m.offset platform k + m.size platform k ≤ m.data.length := by
  have pos := h.size_pos lt
  simp only [size] at *
  omega

theorem slice_length (h : Fragmented platform m) {k : Nat} (lt : k < m.total platform) :
    (m.slice platform k).length = m.size platform k := by
  have le := h.offset_add_size_le lt
  simp only [slice, List.length_take, List.length_drop]
  omega

theorem offset_add_size_le_offset (h : Fragmented platform m) {k k' : Nat} (lt : k < m.total platform)
    (before : k < k') : m.offset platform k + m.size platform k ≤ m.offset platform k' := by
  have pos := h.size_pos lt
  have mono : m.offset platform (k + 1) ≤ m.offset platform k' :=
    Nat.sub_le_sub_right (Nat.mul_le_mul_right _ before) _
  simp only [size] at *
  omega

end Fragmented

section

variable (platform m)

def body (k : Nat) : List Byte :=
  (if k = 0 then m.channel.chars ++ [0] else []) ++ m.slice platform k

def datagram (k : Nat) : List Byte :=
  msgHeaderLong m.msgSeqno m.data.length (m.offset platform k) k (m.total platform) ++ m.body platform k

end

theorem sendRest_eq (h : Fragmented platform m) {rounds fragNo packetSize : Nat} (pos : 0 < fragNo)
    (all : fragNo + rounds = m.total platform) :
    (sendRest transmits (fun offset no => msgHeaderLong m.msgSeqno m.data.length offset no (m.total platform))
        m.data platform.fragmentMaxPayload rounds fragNo (m.offset platform fragNo) packetSize packetSize).datagrams =
      (List.range rounds).map fun j => m.datagram platform (fragNo + j) := by
  induction rounds generalizing fragNo packetSize with
  | zero => rfl
  | succ rounds ih =>
      have first : m.datagram platform fragNo =
          msgHeaderLong m.msgSeqno m.data.length (m.offset platform fragNo) fragNo (m.total platform) ++
            (m.data.drop (m.offset platform fragNo)).take (m.size platform fragNo) := by
        rw [datagram, body, if_neg (by omega), List.nil_append, slice]
      have rest : (List.range rounds).map (fun j => m.datagram platform (fragNo + (j + 1))) =
          (List.range rounds).map fun j => m.datagram platform (fragNo + 1 + j) :=
        List.map_congr_left fun j _ => congrArg _ (by omega)
      simp only [sendRest, transmits, if_true, ← h.size_eq pos]
      rw [List.range_succ_eq_map, List.map_cons, List.map_map]
      simp only [Function.comp_def, Nat.succ_eq_add_one, Nat.add_zero]
      rw [first, rest]
      cases rounds with
      | zero => rfl
      | succ rounds => rw [h.offset_add_size (by omega), ih (by omega) (by omega)]

theorem datagrams_eq (h : Fragmented platform m) :
    m.datagrams platform = (List.range (m.total platform)).map (m.datagram platform) := by
  have channel : ¬ m.channel.chars.length > channelMaxlen := Nat.not_lt.mpr h.channel_le
  have long : ¬ m.channel.chars.length + 1 + m.data.length ≤ platform.shortMessageMaxSize :=
    Nat.not_le.mpr h.long
  have few : ¬ nfragments (m.channel.chars.length + 1 + m.data.length) platform.fragmentMaxPayload > 65535 :=
    Nat.not_lt.mpr h.few
  have fragment := h.fragment_bounds
  obtain ⟨n, hn⟩ := Nat.exists_eq_add_of_lt h.one_lt_total
  have rest := fun size => @sendRest_eq platform m h (m.total platform - 1) 1 size Nat.one_pos (by omega)
  have one : m.offset platform 1 = platform.fragmentMaxPayload - (m.channel.chars.length + 1) := by
    simp [offset]
  have first : m.datagram platform 0 =
      msgHeaderLong m.msgSeqno m.data.length 0 0 (m.total platform) ++ (m.channel.chars ++ [0]) ++
        m.data.take (platform.fragmentMaxPayload - (m.channel.chars.length + 1)) := by
    rw [datagram, body, if_pos rfl, slice, offset_zero, List.drop_zero, h.size_zero]
    simp only [List.append_assoc]
  rw [one] at rest
  unfold datagrams sendmsg
  simp only [if_neg channel, if_neg long, if_neg few, transmits, if_true]
  rw [show m.total platform = (m.total platform - 1) + 1 by omega, List.range_succ_eq_map, List.map_cons,
    List.map_map, first]
  refine congrArg _ ((rest _).trans ?_)
  exact List.map_congr_left fun j _ => congrArg _ (by simp [Nat.add_comm])

end Sent

end Zcm.Udp
