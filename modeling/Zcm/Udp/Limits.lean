import Zcm.Udp.Delivery

namespace Zcm.Udp
open Zcm.Lib

def sizeofMsgHeaderShort : Nat := 8

def maxUnfragmentedPacketSize : Nat := 65536

namespace Packet

def getMagic (pkt : Packet) : Nat := ofBe (pkt.buf.read 0 4)

@[irreducible] def getChannelLen (pkt : Packet) : Option Nat :=
  memchrNul pkt.buf sizeofMsgHeaderShort (maxUnfragmentedPacketSize - sizeofMsgHeaderShort)

def getDataOffset (channelLen : Nat) : Nat := sizeofMsgHeaderShort + channelLen + 1

-- a `size_t`
def getDataLen (pkt : Packet) (channelLen : Nat) : Nat := (pkt.sz + 2 ^ 64 - getDataOffset channelLen) % 2 ^ 64

end Packet

inductive ShortCheck
  | overrun
  | bad
  | message (channellen dataStart datalen : Nat)
deriving DecidableEq

def checkShort (pkt : Packet) : ShortCheck :=
  match pkt.getChannelLen with
  | none => .overrun
  | some clen =>
      if clen > channelMaxlen then .bad
      else .message clen (Packet.getDataOffset clen) (pkt.getDataLen clen)

def recvShort (udp : UDP) (pkt : Packet) : Option Message × UDP :=
  match checkShort pkt with
  | .overrun => (none, udp)
  | .bad => (none, udp.discard)
  | .message channellen dataStart datalen =>
      (some ⟨pkt.utime, pkt.buf.read sizeofMsgHeaderShort (channellen + 1), pkt.buf.read dataStart datalen⟩, udp)

def readPacket (udp : UDP) (pkt : Packet) (now : Int) (left : Mem Byte) : Option Message × UDP :=
  if pkt.sz < sizeofMsgHeaderShort then (none, udp.discard)
  else if pkt.getMagic = magicShort then recvShort udp pkt
  else if pkt.getMagic = magicLong then recvFragment udp pkt now left
  else (none, udp.discard)

def Packet.Passes (pkt : Packet) : Prop :=
  sizeofMsgHeaderShort ≤ pkt.sz ∧
    (pkt.getMagic = magicShort ∧
    (∃ channellen dataStart datalen, checkShort pkt = .message channellen dataStart datalen) ∨
      pkt.getMagic = magicLong ∧ ∃ a, checkPacket pkt = some a)

structure Arrival where
  pkt : Packet
  now : Int
  left : Mem Byte

def receives (udp : UDP) : List Arrival → List Message
  | [] => []
  | a :: arrivals =>
      let r := readPacket udp a.pkt a.now a.left
      r.1.toList ++ receives r.2 arrivals

def InOrder (platform : Platform) (m : Sent) : Nat → List Arrival → Prop
  | k, [] => k = (m.datagrams platform).length
  | k, a :: arrivals => Carries platform m k a.pkt ∧ InOrder platform m (k + 1) arrivals

/-- Every packet of the message passes the checks, and if `sendmsg` agrees to send it, it is delivered by any
receiver that holds nothing of an earlier message of the same number. -/
structure Receivable (platform : Platform) (m : Sent) : Prop where
  passes : ∀ k pkt, Carries platform m k pkt → pkt.Passes
  delivered : (sendmsg platform transmits m.msgSeqno m.channel m.data).result = some 0 →
    ∀ udp arrivals, udp.pool.lookupFragBuf m.fromAddr m.msgSeqno = none → InOrder platform m 0 arrivals →
      (receives udp arrivals).map (fun msg => (msg.channel, msg.data)) = [(m.channel.chars ++ [0], m.data)]

section Fragmented

variable {platform : Platform} {m : Sent} {k : Nat} {pkt : Packet}

theorem Carries.getMagic_eq (h : Carries platform m k pkt) (fragmented : m.Fragmented platform) :
    pkt.getMagic = magicLong := by
  have sz := h.sz_eq fragmented
  simp only [sizeofMsgHeaderLong] at sz
  rw [Packet.getMagic, Mem.read_drop_take (h.read_eq fragmented) (by omega), List.drop_zero, Sent.datagram,
    msgHeaderLong, List.append_assoc, List.append_assoc, List.append_assoc, List.append_assoc, List.append_assoc,
    List.take_left' (toBe_length 4 _)]
  exact ofBe_toBe_of_lt (by decide)

theorem Carries.readPacket_eq (h : Carries platform m k pkt) (fragmented : m.Fragmented platform) (udp : UDP)
    (now : Int) (left : Mem Byte) : readPacket udp pkt now left = recvFragment udp pkt now left := by
  have sz := h.sz_eq fragmented
  have magic := h.getMagic_eq fragmented
  rw [readPacket, if_neg (by simp only [sizeofMsgHeaderLong, sizeofMsgHeaderShort] at *; omega), magic,
    if_neg (by decide), if_pos rfl]

structure Gathers (platform : Platform) (m : Sent) (k : Nat) (p : MessagePool) (idx : Nat) (f : FragBuf) : Prop where
  there : p.fragbufs[idx]? = some f
  collects : Collects platform m (· < k) f
  unique : ∀ j g, p.fragbufs[j]? = some g → g.key = m.key → j = idx

structure Next (platform : Platform) (m : Sent) (k : Nat) (r : Option Message × UDP) : Prop where
  waits : k + 1 < m.total platform → r.1 = none ∧ ∃ idx f, Gathers platform m (k + 1) r.2.pool idx f
  delivers : k + 1 = m.total platform → ∃ utime, r.1 = some ⟨utime, m.channel.chars ++ [0], m.data⟩

theorem Gathers.depositAt {udp : UDP} {idx : Nat} {f : FragBuf} (h : Gathers platform m k udp.pool idx f)
    (fragmented : m.Fragmented platform) (carries : Carries platform m k pkt) (now : Int) :
    Next platform m k (depositAt udp idx f pkt (m.accepted platform k) now) := by
  have stored := h.collects.store fragmented carries (Nat.lt_irrefl k) now
  have upTo : (fun j => j < k ∨ j = k) = (· < k + 1) := by
    funext j
    exact propext Nat.lt_succ_iff_lt_or_eq.symm
  rw [upTo] at stored
  have key : (f.store pkt (m.accepted platform k) now).key = f.key := rfl
  have zero := stored.remaining_eq_zero
  have lt := (List.getElem?_eq_some_iff.mp h.there).1
  unfold Udp.depositAt
  rw [h.collects.deposit_stored fragmented carries (Nat.lt_irrefl k)]
  generalize f.store pkt (m.accepted platform k) now = g at *
  constructor
  · intro more
    have left : g.fragmentsRemaining > 0 := by
      refine Nat.pos_of_ne_zero fun none => ?_
      exact Nat.lt_irrefl _ (zero.mp none (k + 1) more)
    simp only [if_pos left]
    refine ⟨trivial, idx, g, List.getElem?_set_self lt, stored, fun j g' there' key' => ?_⟩
    by_cases same : idx = j
    · exact same.symm
    · rw [List.getElem?_set_ne same] at there'
      exact h.unique j g' there' key'
  · intro last
    have none : ¬ g.fragmentsRemaining > 0 := by
      rw [zero.mpr fun j before => last ▸ before]
      exact Nat.lt_irrefl 0
    simp only [if_neg none]
    exact ⟨_, congrArg some (stored.message_eq fragmented fun j before => last ▸ before)⟩

theorem recvFragment_next (fragmented : m.Fragmented platform) (carries : Carries platform m k pkt) {udp : UDP}
    (start : k = 0 ∧ udp.pool.lookupFragBuf m.fromAddr m.msgSeqno = none ∨
      ∃ idx f, Gathers platform m k udp.pool idx f)
    (now : Int) (left : Mem Byte) : Next platform m k (recvFragment udp pkt now left) := by
  have accepted := carries.checkPacket_eq fragmented
  have way := recvFragment_cases udp pkt now left
  generalize recvFragment udp pkt now left = r at way ⊢
  -- the buffer that the packet's key leads to is the one that gathers the message
  have gathers : ∀ idx f, udp.pool.lookupFragBuf pkt.fromAddr m.msgSeqno = some idx →
      udp.pool.fragbufs[idx]? = some f → Gathers platform m k udp.pool idx f := by
    intro idx f found there
    obtain ⟨f', there', fromAddr, msgSeqno⟩ := lookupFragBuf_some found
    obtain rfl := Option.some.inj (there.symm.trans there')
    rcases start with ⟨-, unknown⟩ | ⟨idx', f', h⟩
    · rw [carries.fromAddr, unknown] at found
      cases found
    · obtain rfl := h.unique idx f there (by rw [FragBuf.key, fromAddr, msgSeqno, carries.fromAddr, Sent.key])
      obtain rfl := Option.some.inj (there.symm.trans h.there)
      exact h
  cases way with
  | bad rejected =>
      rw [accepted] at rejected
      cases rejected
  | mismatch a idx checked found f there differ =>
      obtain rfl := Option.some.inj (accepted.symm.trans checked)
      have collects := (gathers idx f found there).collects
      rcases differ with size | total
      · exact absurd collects.dataSize size
      · exact absurd collects.length total
  | known a idx checked found f there fits =>
      obtain rfl := Option.some.inj (accepted.symm.trans checked)
      exact (gathers idx f found there).depositAt fragmented carries now
  | fresh a checked unknown fits =>
      obtain rfl := Option.some.inj (accepted.symm.trans checked)
      have noKey : ∀ f ∈ udp.pool.fragbufs, f.key ≠ m.key := by
        have none := lookupFragBuf_none unknown
        rwa [carries.fromAddr] at none
      have isFirst : k = 0 := by
        rcases start with ⟨rfl, -⟩ | ⟨idx, f, h⟩
        · rfl
        · refine absurd ?_ (noKey f (List.mem_of_getElem? h.there))
          rw [FragBuf.key, h.collects.fromAddr, h.collects.msgSeqno, Sent.key]
      subst isFirst
      refine Gathers.depositAt
        ⟨by simp [withNew], carries.collects_new Nat.not_lt_zero now left, ?_⟩ fragmented carries now
      intro j g there key
      simp only [withNew, List.length_append, List.length_singleton, Nat.add_sub_cancel] at there ⊢
      rcases Nat.lt_or_ge j (MessagePool.evict _ udp.pool.fragbufs.length udp.pool).fragbufs.length with old | new
      · rw [List.getElem?_append_left old] at there
        exact absurd key (noKey g (MessagePool.mem_evict (List.mem_of_getElem? there)))
      · have lt := (List.getElem?_eq_some_iff.mp there).1
        rw [List.length_append, List.length_singleton] at lt
        omega

theorem receives_inOrder (fragmented : m.Fragmented platform) {udp : UDP} {arrivals : List Arrival}
    (start : k = 0 ∧ udp.pool.lookupFragBuf m.fromAddr m.msgSeqno = none ∨
      ∃ idx f, Gathers platform m k udp.pool idx f)
    (lt : k < m.total platform) (order : InOrder platform m k arrivals) :
    (receives udp arrivals).map (fun msg => (msg.channel, msg.data)) = [(m.channel.chars ++ [0], m.data)] := by
  have length : (m.datagrams platform).length = m.total platform := by
    rw [Sent.datagrams_eq fragmented, List.length_map, List.length_range]
  induction arrivals generalizing k udp with
  | nil =>
      have none : k = (m.datagrams platform).length := order
      omega
  | cons a arrivals ih =>
      obtain ⟨carries, order⟩ := order
      have next := recvFragment_next fragmented carries start a.now a.left
      simp only [receives, carries.readPacket_eq fragmented]
      by_cases last : k + 1 = m.total platform
      · obtain ⟨utime, delivered⟩ := next.delivers last
        cases arrivals with
        | nil => simp [delivered, receives]
        | cons b arrivals =>
            have := order.1.lt_total fragmented
            omega
      · obtain ⟨waits, gathers⟩ := next.waits (by omega)
        rw [waits]
        exact ih (.inr gathers) (by omega) order

theorem Sent.Fragmented.receivable (fragmented : m.Fragmented platform) : Receivable platform m where
  passes := fun k pkt carries => by
    have sz := carries.sz_eq fragmented
    refine ⟨?_, .inr ⟨carries.getMagic_eq fragmented, _, carries.checkPacket_eq fragmented⟩⟩
    simp only [sizeofMsgHeaderShort, sizeofMsgHeaderLong] at *
    omega
  delivered := fun _ udp arrivals unknown order =>
    receives_inOrder fragmented (.inl ⟨rfl, unknown⟩) (Nat.zero_lt_of_lt fragmented.one_lt_total) order

end Fragmented

section Short

variable {platform : Platform} {m : Sent} {k : Nat} {pkt : Packet}

-- Unfolded at a packet, `checkShort` would have the kernel evaluate the `strlen`.
theorem checkShort_eq : checkShort = fun pkt => match pkt.getChannelLen with
    | none => .overrun
    | some clen =>
        if clen > channelMaxlen then .bad
        else .message clen (Packet.getDataOffset clen) (pkt.getDataLen clen) := rfl

theorem recvShort_eq : recvShort = fun udp pkt => match checkShort pkt with
    | .overrun => (none, udp)
    | .bad => (none, udp.discard)
    | .message channellen dataStart datalen =>
        (some ⟨pkt.utime, pkt.buf.read sizeofMsgHeaderShort (channellen + 1), pkt.buf.read dataStart datalen⟩,
          udp) := rfl

theorem checkShort_of_len {clen : Nat} (len : pkt.getChannelLen = some clen) : checkShort pkt =
    if clen > channelMaxlen then .bad else .message clen (Packet.getDataOffset clen) (pkt.getDataLen clen) := by
  rw [checkShort_eq]
  simp only [len]

theorem recvShort_of_message {udp : UDP} {channellen dataStart datalen : Nat}
    (checked : checkShort pkt = .message channellen dataStart datalen) : recvShort udp pkt =
      (some ⟨pkt.utime, pkt.buf.read sizeofMsgHeaderShort (channellen + 1), pkt.buf.read dataStart datalen⟩,
        udp) := by
  rw [recvShort_eq]
  simp only [checked]

structure Sent.IsShort (platform : Platform) (m : Sent) : Prop where
  channel_le : m.channel.chars.length ≤ channelMaxlen
  short : m.payloadSize ≤ platform.shortMessageMaxSize

variable (short : m.IsShort platform)

include short

theorem Sent.IsShort.datagrams_eq :
    m.datagrams platform = [msgHeaderShort m.msgSeqno ++ (m.channel.chars ++ [0]) ++ m.data] := by
  unfold datagrams sendmsg
  have channel : ¬ m.channel.chars.length > channelMaxlen := Nat.not_lt.mpr short.channel_le
  have size : m.channel.chars.length + 1 + m.data.length ≤ platform.shortMessageMaxSize := short.short
  simp only [if_neg channel, if_pos size]

theorem Carries.short_bytes (h : Carries platform m k pkt) :
    k = 0 ∧ pkt.buf.read 0 pkt.sz = msgHeaderShort m.msgSeqno ++ (m.channel.chars ++ [0]) ++ m.data := by
  have bytes := h.bytes
  rw [short.datagrams_eq] at bytes
  cases k with
  | zero => exact ⟨rfl, (Option.some.inj bytes).symm⟩
  | succ k => cases bytes

theorem Carries.short_sz (h : Carries platform m k pkt) :
    pkt.sz = sizeofMsgHeaderShort + (m.channel.chars.length + 1) + m.data.length := by
  have length := congrArg List.length (h.short_bytes short).2
  simp only [Mem.read_length, msgHeaderShort, List.length_append, toBe_length, List.length_singleton] at length
  exact length

theorem Carries.short_parts (h : Carries platform m k pkt) : pkt.getMagic = magicShort ∧
    pkt.buf.read sizeofMsgHeaderShort (m.channel.chars.length + 1) = m.channel.chars ++ [0] ∧
    pkt.buf.read (Packet.getDataOffset m.channel.chars.length) m.data.length = m.data := by
  have whole := (h.short_bytes short).2
  have sz := h.short_sz short
  have header : (msgHeaderShort m.msgSeqno).length =
    sizeofMsgHeaderShort := by simp [msgHeaderShort, sizeofMsgHeaderShort]
  have string : (m.channel.chars ++ [0]).length = m.channel.chars.length + 1 := by simp
  have start : (msgHeaderShort m.msgSeqno ++ (m.channel.chars ++ [0])).length =
      Packet.getDataOffset m.channel.chars.length := by
    rw [List.length_append, header, string]
    rfl
  refine ⟨?_, ?_, ?_⟩
  · rw [Packet.getMagic, Mem.read_drop_take whole (by simp only [sizeofMsgHeaderShort] at sz; omega), List.drop_zero,
      msgHeaderShort, List.append_assoc,
      List.append_assoc, List.take_left' (toBe_length 4 _)]
    exact ofBe_toBe_of_lt (by decide)
  · rw [Mem.read_drop_take whole (by omega), List.append_assoc,
      List.drop_left' header, List.take_left' string]
  · rw [Mem.read_drop_take whole (by simp only [Packet.getDataOffset]; omega), List.drop_left' start, List.take_length]

theorem Carries.checkShort_eq (h : Carries platform m k pkt) : checkShort pkt =
    .message m.channel.chars.length (Packet.getDataOffset m.channel.chars.length) m.data.length := by
  have sz := h.short_sz short
  have channel := short.channel_le
  have size := short.short
  have datalen : pkt.getDataLen m.channel.chars.length = m.data.length := by
    have small : m.data.length < 2 ^ 64 := by
      cases platform <;> simp only [Sent.payloadSize, Platform.shortMessageMaxSize] at size <;> omega
    rw [Packet.getDataLen, Packet.getDataOffset, sz,
      show sizeofMsgHeaderShort + (m.channel.chars.length + 1) + m.data.length + 2 ^ 64 -
        (sizeofMsgHeaderShort + m.channel.chars.length + 1) = m.data.length + 2 ^ 64 by omega,
      Nat.add_mod_right, Nat.mod_eq_of_lt small]
  have len : pkt.getChannelLen = some m.channel.chars.length := by
    unfold Packet.getChannelLen
    refine memchrNul_string (h.short_parts short).2.1 ?_
    simp only [channelMaxlen, maxUnfragmentedPacketSize, sizeofMsgHeaderShort] at *
    omega
  rw [checkShort_of_len len, if_neg (Nat.not_lt.mpr channel), datalen]

theorem Carries.short_readPacket (h : Carries platform m k pkt) (udp : UDP) (now : Int) (left : Mem Byte) :
    readPacket udp pkt now left = (some ⟨pkt.utime, m.channel.chars ++ [0], m.data⟩, udp) := by
  obtain ⟨magic, channel, data⟩ := h.short_parts short
  have sz := h.short_sz short
  rw [readPacket, if_neg (by omega), if_pos magic, recvShort_of_message (h.checkShort_eq short), channel, data]

theorem Sent.IsShort.receivable : Receivable platform m where
  passes := fun k pkt carries => by
    refine ⟨?_, .inl ⟨(carries.short_parts short).1, _, _, _, carries.checkShort_eq short⟩⟩
    have sz := carries.short_sz short
    omega
  delivered := fun _ udp arrivals _ order => by
    cases arrivals with
    | nil =>
        have none : 0 = (m.datagrams platform).length := order
        rw [short.datagrams_eq] at none
        cases none
    | cons a arrivals =>
        obtain ⟨carries, order⟩ := order
        cases arrivals with
        | nil =>
            rw [receives, carries.short_readPacket short]
            rfl
        | cons b arrivals => cases (order.1.short_bytes short).1

end Short

theorem Sent.datagrams_head {platform : Platform} {m : Sent} (channel_le : m.channel.chars.length ≤ channelMaxlen)
    (long : platform.shortMessageMaxSize < m.payloadSize) (few : m.total platform ≤ 65535) :
    (m.datagrams platform)[0]? = some (msgHeaderLong m.msgSeqno m.data.length 0 0 (m.total platform) ++
      (m.channel.chars ++ [0]) ++ m.data.take (platform.fragmentMaxPayload - (m.channel.chars.length + 1))) := by
  have notShort : ¬ m.channel.chars.length + 1 + m.data.length ≤ platform.shortMessageMaxSize := Nat.not_le.mpr long
  have notMany : ¬ nfragments (m.channel.chars.length + 1 + m.data.length) platform.fragmentMaxPayload > 65535 :=
    Nat.not_lt.mpr few
  unfold datagrams sendmsg
  simp only [if_neg (Nat.not_lt.mpr channel_le), if_neg notShort, if_neg notMany]
  rfl

theorem not_passes_near_mtu {platform : Platform} {m : Sent} (channel_le : m.channel.chars.length ≤ channelMaxlen)
    (long : platform.shortMessageMaxSize < m.payloadSize) (few : m.total platform ≤ 65535)
    (data_le : m.data.length ≤ mtu) (big : mtu < m.payloadSize) {pkt : Packet} (carries : Carries platform m 0 pkt) :
    ¬ pkt.Passes := by
  have bytes := carries.bytes
  rw [Sent.datagrams_head channel_le long few] at bytes
  have whole := (Option.some.inj bytes).symm
  have sz := congrArg List.length whole
  simp only [Mem.read_length, msgHeaderLong, List.length_append, toBe_length, List.length_singleton] at sz
  have field : ∀ a b : Nat, a + b ≤ 20 → pkt.buf.read a b = _ :=
    fun a b inside => Mem.read_drop_take whole (by omega)
  have magic : pkt.getMagic = magicLong := by
    rw [Packet.getMagic, field 0 4 (by omega)]
    simp only [msgHeaderLong, List.append_assoc, List.drop_zero]
    rw [List.take_left' (toBe_length 4 _)]
    exact ofBe_toBe_of_lt (by decide)
  have size : pkt.getMsgSize = m.data.length := by
    simp only [mtu] at data_le
    rw [Packet.getMsgSize, field 8 4 (by omega)]
    simp [msgHeaderLong, List.append_assoc, List.drop_append, List.drop_eq_nil_of_le]
    exact ofBe_toBe_of_lt (by omega)
  have no : pkt.getFragmentNo = 0 := by
    rw [Packet.getFragmentNo, field 16 2 (by omega)]
    simp [msgHeaderLong, List.append_assoc, List.drop_append, List.drop_eq_nil_of_le]
    exact ofBe_toBe_of_lt (by decide)
  have channel : pkt.buf.read sizeofMsgHeaderLong (m.channel.chars.length + 1) = m.channel.chars ++ [0] := by
    rw [Mem.read_drop_take whole (by simp only [sizeofMsgHeaderLong]; omega), List.append_assoc,
      List.drop_left' (by simp [msgHeaderLong, sizeofMsgHeaderLong]), List.take_left' (by simp)]
  have room : min pkt.getFragmentSize (payloadOffset m.data.length) ≤ m.channel.chars.length := by
    simp only [payloadOffset, Sent.payloadSize] at *
    omega
  rintro ⟨-, ⟨isShort, -⟩ | ⟨-, a, checked⟩⟩
  · rw [magic] at isShort
    exact absurd isShort (by decide)
  · unfold checkPacket at checked
    simp only [size, no, memchrNul_string_none channel room, if_true] at checked
    split at checked
    · cases checked
    · split at checked <;> cases checked

def Packet.ofBytes (fromAddr : SockAddr) (bytes : List Byte) : Packet :=
  ⟨0, bytes.length, fromAddr, fun i => bytes.getD i 0⟩

theorem Packet.ofBytes_carries {platform : Platform} {m : Sent} {k : Nat} {bytes : List Byte}
    (there : (m.datagrams platform)[k]? = some bytes) : Carries platform m k (Packet.ofBytes m.fromAddr bytes) := by
  refine ⟨rfl, there.trans (congrArg some (Eq.symm ?_))⟩
  exact Mem.read_eq_iff.mpr fun i hi => by simp [ofBytes, hi]

theorem Sent.total_other_le_of_data {m : Sent} (channel_le : m.channel.chars.length ≤ channelMaxlen)
    (data_le : m.data.length ≤ mtu) : m.total .other ≤ 65535 := by
  have bounds := (nfragments_bounds m.payloadSize (by decide : 0 < Platform.other.fragmentMaxPayload)).2
  simp only [total, payloadSize, Platform.fragmentMaxPayload, channelMaxlen, mtu] at *
  omega

theorem Sent.receivable_of_refused {platform : Platform} {m : Sent}
    (channel_le : m.channel.chars.length ≤ channelMaxlen)
    (long : platform.shortMessageMaxSize < m.payloadSize) (many : 65535 < m.total platform) :
    Receivable platform m := by
  have refused : sendmsg platform transmits m.msgSeqno m.channel m.data = ⟨some (-1), [], m.msgSeqno⟩ := by
    have notShort : ¬ m.channel.chars.length + 1 + m.data.length ≤ platform.shortMessageMaxSize :=
      Nat.not_le.mpr long
    have tooMany : nfragments (m.channel.chars.length + 1 + m.data.length) platform.fragmentMaxPayload > 65535 := many
    unfold sendmsg
    simp only [if_neg (Nat.not_lt.mpr channel_le), if_neg notShort, if_pos tooMany]
  refine ⟨fun k pkt carries => ?_, fun agreed => ?_⟩
  · have bytes := carries.bytes
    rw [datagrams, refused] at bytes
    cases bytes
  · rw [refused] at agreed
    cases agreed

/-- The receiver accepts whatever `sendmsg` agrees to send, but for messages whose data is within the MTU only without
the channel. The smaller fragments of `Platform.apple` keep all messages below that size. -/
theorem sendmsg_receivable_iff {platform : Platform} {m : Sent} (seqno_lt : m.msgSeqno < 2 ^ 32)
    (channel_le : m.channel.chars.length ≤ channelMaxlen) (data_le : m.data.length ≤ mtu) :
    Receivable platform m ↔ m.channel.chars.length + 1 + m.data.length ≤ mtu ∨ platform = .apple := by
  constructor
  · intro receivable
    by_contra neither
    obtain ⟨big, isOther⟩ := not_or.mp neither
    have big : mtu < m.payloadSize := Nat.lt_of_not_le big
    obtain rfl : platform = .other := by
      cases platform with
      | apple => exact absurd rfl isOther
      | other => rfl
    have long : Platform.other.shortMessageMaxSize < m.payloadSize := Nat.lt_trans (by decide) big
    have few := Sent.total_other_le_of_data channel_le data_le
    have carries := Packet.ofBytes_carries (Sent.datagrams_head channel_le long few)
    exact not_passes_near_mtu channel_le long few data_le big carries (receivable.passes 0 _ carries)
  · intro small
    rcases Nat.lt_or_ge platform.shortMessageMaxSize m.payloadSize with long | short
    · rcases Nat.lt_or_ge 65535 (m.total platform) with many | few
      · exact Sent.receivable_of_refused channel_le long many
      · refine Sent.Fragmented.receivable ⟨seqno_lt, channel_le, ?_, long, few⟩
        rcases small with small | rfl
        · exact small
        · have bounds := (Sent.nfragments_bounds m.payloadSize (by decide : 0 < Platform.apple.fragmentMaxPayload)).1
          simp only [Sent.total, Platform.fragmentMaxPayload, mtu] at *
          omega
    · exact Sent.IsShort.receivable ⟨channel_le, short⟩

theorem sendmsg_receivable_sample : Receivable .apple sampleSent :=
  (sendmsg_receivable_iff (by decide) (by decide) (by decide +kernel)).mpr (.inr rfl)

def nearMtu : Sent := ⟨⟨2, 7667, 1⟩, 7, .ofBytes [65], List.replicate (2 ^ 28) 0⟩

/-- A message of exactly the MTU is sent, and its first packet is discarded as unterminated. -/
theorem nearMtu_not_receivable : nearMtu.msgSeqno < 2 ^ 32 ∧ nearMtu.channel.chars.length ≤ channelMaxlen ∧
    nearMtu.data.length ≤ mtu ∧ ¬ Receivable .other nearMtu := by
  have length : nearMtu.data.length = mtu := List.length_replicate
  have big : mtu < nearMtu.payloadSize := by
    rw [Sent.payloadSize, length]
    exact Nat.lt_add_of_pos_left (Nat.succ_pos _)
  have channel : nearMtu.channel.chars.length ≤ channelMaxlen := by decide
  have long : Platform.other.shortMessageMaxSize < nearMtu.payloadSize := Nat.lt_trans (by decide) big
  have few := Sent.total_other_le_of_data channel length.le
  have carries := Packet.ofBytes_carries (Sent.datagrams_head channel long few)
  refine ⟨by decide, channel, length.le, fun receivable => ?_⟩
  exact not_passes_near_mtu channel long few length.le big carries (receivable.passes 0 _ carries)

end Zcm.Udp
