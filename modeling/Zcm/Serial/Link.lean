import Zcm.Serial.Resync

namespace Zcm.Serial
open Zcm.Lib

structure Pushed (cb : CircBuffer) (s : Sending) (bytes : List Byte) : Prop where
  bounds : InBounds s.cb
  capacity : s.cb.capacity = cb.capacity
  contents : contents s.cb = contents cb ++ bytes
  count : s.nPushed = bytes.length

theorem Pushed.room {cb : CircBuffer} {s : Sending} {bytes : List Byte} (h : Pushed cb s bytes)
    (bounds : InBounds cb) : cbRoom s.cb + bytes.length = cbRoom cb := by
  have before := bounds.cbRoom_add
  have after := h.bounds.cbRoom_add
  have size : cbSize s.cb = cbSize cb + bytes.length := by
    simpa using congrArg List.length h.contents
  rw [h.capacity] at after
  omega

theorem Pushed.push {cb : CircBuffer} {s : Sending} {bytes : List Byte} (h : Pushed cb s bytes)
    (room : 0 < cbRoom s.cb) (d : Byte) : Pushed cb (s.push d) (bytes ++ [d]) := by
  obtain ⟨bounds, contents⟩ := cbPushBack_spec h.bounds room d
  refine ⟨bounds, h.capacity, ?_, ?_⟩
  · rw [Sending.push, contents, h.contents, List.append_assoc]
  · simp [Sending.push, h.count]

theorem Pushed.undo {cb : CircBuffer} {s : Sending} {bytes : List Byte} (h : Pushed cb s bytes) :
    InBounds (cbPopBack s.cb s.nPushed) ∧ (cbPopBack s.cb s.nPushed).capacity = cb.capacity ∧
      Serial.contents (cbPopBack s.cb s.nPushed) = Serial.contents cb := by
  have size : cbSize s.cb = cbSize cb + bytes.length := by
    simpa using congrArg List.length h.contents
  have count := h.count
  have le : s.nPushed ≤ cbSize s.cb := by omega
  obtain ⟨bounds, contents⟩ := cbPopBack_spec h.bounds le
  refine ⟨bounds, h.capacity, ?_⟩
  rw [contents, h.contents, List.take_left' (by rw [contents_length]; omega)]

/-- A loop of `serial_sendmsg` pushes its bytes escaped and leaves room for the rest of the frame, or
takes everything back because the rest would not fit. -/
def PushOutcome (cb : CircBuffer) (after : Nat) (bytes cs : List Byte) (s : Sending) :
    Except CircBuffer Sending → Prop
  | .ok s' => Pushed cb s' (bytes ++ escape cs) ∧ after + 2 ≤ cbRoom s'.cb ∧
      s'.checksum = cs.foldl (fun sum b => fletcherUpdate b sum) s.checksum
  | .error cb' => InBounds cb' ∧ cb'.capacity = cb.capacity ∧ contents cb' = contents cb ∧
      cbRoom s.cb < (escape cs).length + after + 2

theorem PushOutcome.cons {cb : CircBuffer} {after : Nat} {bytes cs pushed : List Byte} {c : Byte}
    {s s' : Sending} {r : Except CircBuffer Sending}
    (h : PushOutcome cb after (bytes ++ pushed) cs s' r) (escaped : escape (c :: cs) = pushed ++ escape cs)
    (sum : s'.checksum = fletcherUpdate c s.checksum) (room : cbRoom s.cb = cbRoom s'.cb + pushed.length) :
    PushOutcome cb after bytes (c :: cs) s r := by
  cases r with
  | ok t =>
      obtain ⟨done, enough, checksum⟩ := h
      refine ⟨?_, enough, ?_⟩
      · rwa [escaped, ← List.append_assoc]
      · rw [checksum, sum, List.foldl_cons]
  | error cb' =>
      obtain ⟨bounds, capacity, same, tooFew⟩ := h
      refine ⟨bounds, capacity, same, ?_⟩
      rw [escaped, List.length_append]
      omega

theorem pushEscaped_spec {cb : CircBuffer} (bounds : InBounds cb) (after : Nat) (cs : List Byte) {s : Sending}
    {bytes : List Byte} (h : Pushed cb s bytes) (room : cs.length + after + 2 ≤ cbRoom s.cb) :
    PushOutcome cb after bytes cs s (pushEscaped after cs s) := by
  induction cs generalizing s bytes with
  | nil => exact ⟨by simpa using h, by simpa using room, rfl⟩
  | cons c cs ih =>
      have first := h.push (by omega) c
      have room0 := h.room bounds
      have room1 := first.room bounds
      have longer := length_le_escape cs
      simp only [List.length_cons, List.length_append, List.length_nil] at room room1
      rw [pushEscaped]
      by_cases escaped : c = escapeChar
      · have doubled : escape (c :: cs) = [c, c] ++ escape cs := by rw [escape_cons, if_pos escaped]
        by_cases enough : cbRoom (s.push c).cb > cs.length + 1 + after + 1
        · have second := first.push (by omega) c
          have room2 := second.room bounds
          simp only [List.length_append, List.length_cons, List.length_nil] at room2
          simp only [if_pos escaped, if_pos enough]
          refine (@ih { (s.push c).push c with checksum := fletcherUpdate c ((s.push c).push c).checksum }
            (bytes ++ [c, c]) ⟨second.bounds, second.capacity, ?_, ?_⟩ ?_).cons doubled rfl ?_
          · simpa using second.contents
          · simpa using second.count
          · simp only
            omega
          · simp only [List.length_cons, List.length_nil]
            omega
        · obtain ⟨undone, capacity, same⟩ := first.undo
          simp only [if_pos escaped, if_neg enough]
          refine ⟨undone, capacity, same, ?_⟩
          rw [doubled]
          simp only [List.length_append, List.length_cons, List.length_nil]
          omega
      · have single : escape (c :: cs) = [c] ++ escape cs := by rw [escape_cons, if_neg escaped]
        simp only [if_neg escaped]
        refine (ih (s := { s.push c with checksum := fletcherUpdate c (s.push c).checksum })
          ⟨first.bounds, first.capacity, first.contents, first.count⟩ ?_).cons single rfl ?_
        · simp only
          omega
        · simp only [List.length_cons, List.length_nil]
          omega

theorem lengthByte_eq (n k : Nat) (le : k ≤ 3) :
    (((BitVec.ofNat 32 n) >>> (8 * k)) &&& 0xff#32).setWidth 8 = BitVec.ofNat 8 (n / 256 ^ k) := by
  apply BitVec.eq_of_toNat_eq
  have mask : (0xff#32).toNat = 2 ^ 8 - 1 := rfl
  simp only [BitVec.toNat_setWidth, BitVec.toNat_and, BitVec.toNat_ushiftRight, BitVec.toNat_ofNat, mask,
    Nat.and_two_pow_sub_one_eq_mod, Nat.shiftRight_eq_div_pow]
  have : k = 0 ∨ k = 1 ∨ k = 2 ∨ k = 3 := by omega
  rcases this with rfl | rfl | rfl | rfl <;> omega

theorem checksumByte_eq (sum : BitVec 16) (k : Nat) :
    ((sum >>> (8 * k)) &&& 0xff#16).setWidth 8 = BitVec.ofNat 8 (sum.toNat / 256 ^ k) := by
  apply BitVec.eq_of_toNat_eq
  have mask : (0xff#16).toNat = 2 ^ 8 - 1 := rfl
  simp only [BitVec.toNat_setWidth, BitVec.toNat_and, BitVec.toNat_ushiftRight, BitVec.toNat_ofNat, mask,
    Nat.and_two_pow_sub_one_eq_mod, Nat.shiftRight_eq_div_pow]
  rw [Nat.mod_mod, pow_mul]
  rfl

theorem pushHeader_spec {cb : CircBuffer} (bounds : InBounds cb) (chanLen len : Nat) (room : 7 ≤ cbRoom cb) :
    Pushed cb (pushHeader cb chanLen len)
      ([escapeChar, 0x00, BitVec.ofNat 8 chanLen] ++ toBe 4 len) ∧
      (pushHeader cb chanLen len).checksum = 0xffff := by
  have start : Pushed cb ⟨cb, 0, 0xffff⟩ [] := ⟨bounds, rfl, by simp, rfl⟩
  have digits : toBe 4 len = [((BitVec.ofNat 32 len >>> 24) &&& 0xff#32).setWidth 8,
      ((BitVec.ofNat 32 len >>> 16) &&& 0xff#32).setWidth 8,
      ((BitVec.ofNat 32 len >>> 8) &&& 0xff#32).setWidth 8, (BitVec.ofNat 32 len &&& 0xff#32).setWidth 8] := by
    have b3 := lengthByte_eq len 3 (by omega)
    have b2 := lengthByte_eq len 2 (by omega)
    have b1 := lengthByte_eq len 1 (by omega)
    have b0 := lengthByte_eq len 0 (by omega)
    simp only [Nat.mul_zero, BitVec.ushiftRight_zero] at b0
    rw [b0]
    simp only [toBe]
    rw [← b3, ← b2, ← b1]
  have more : ∀ {s : Sending} {bytes : List Byte}, Pushed cb s bytes → bytes.length < 7 → ∀ d,
      Pushed cb (s.push d) (bytes ++ [d]) := by
    intro s bytes h short d
    have := h.room bounds
    exact h.push (by omega) d
  rw [digits]
  refine ⟨?_, rfl⟩
  exact more (more (more (more (more (more (more start (by simp) _) (by simp) _) (by simp) _) (by simp) _)
    (by simp) _) (by simp) _) (by simp) _

theorem pushChecksum_spec {cb : CircBuffer} (bounds : InBounds cb) {s : Sending} {bytes : List Byte}
    (h : Pushed cb s bytes) (room : 2 ≤ cbRoom s.cb) :
    Pushed cb (pushChecksum s) (bytes ++ toBe 2 s.checksum.toNat) := by
  have digits : toBe 2 s.checksum.toNat =
      [((s.checksum >>> 8) &&& 0xff#16).setWidth 8, (s.checksum &&& 0xff#16).setWidth 8] := by
    have b1 := checksumByte_eq s.checksum 1
    have b0 := checksumByte_eq s.checksum 0
    simp only [Nat.mul_zero, BitVec.ushiftRight_zero] at b0
    rw [b0]
    simp only [toBe]
    rw [← b1]
  have high := h.push (by omega) (((s.checksum >>> 8) &&& 0xff#16).setWidth 8)
  have room' := high.room bounds
  have before := h.room bounds
  simp only [List.length_append, List.length_cons, List.length_nil] at room'
  have low := high.push (by omega) ((s.checksum &&& 0xff#16).setWidth 8)
  rw [digits]
  simpa [pushChecksum] using low

/-- An accepted message is in the buffer as its frame; a message is accepted when it is within the
limits and its frame fits; nothing else changes. -/
theorem serialSendmsg_spec {zt : GenericSerial} (bounds : InBounds zt.sendBuffer) (m : Msg) :
    ∃ r cb, serialSendmsg zt m = (r, { zt with sendBuffer := cb }) ∧ InBounds cb ∧
      (r = .eok ↔ m.channel.chars.length ≤ channelMaxlen ∧ m.buf.length ≤ zt.mtu ∧
        (frame m).length ≤ cbRoom zt.sendBuffer) ∧
      contents cb = contents zt.sendBuffer ++ if r = .eok then frame m else [] := by
  have total := frame_length m
  have longChan := length_le_escape m.channel.chars
  have longBuf := length_le_escape m.buf
  rw [escape_append, List.length_append] at total
  unfold serialSendmsg
  simp only
  split
  next chan => exact ⟨.einvalid, zt.sendBuffer, rfl, bounds, by simp; omega, by simp⟩
  split
  next len => exact ⟨.einvalid, zt.sendBuffer, rfl, bounds, by simp; omega, by simp⟩
  split
  next room => exact ⟨.eagain, zt.sendBuffer, rfl, bounds, by simp; omega, by simp⟩
  next chan len room =>
    have nine : frameBytes = 9 := rfl
    obtain ⟨header, sum⟩ := pushHeader_spec bounds m.channel.chars.length m.buf.length (by omega)
    have room1 := header.room bounds
    simp only [List.length_append, List.length_cons, List.length_nil, toBe_length] at room1
    have first := pushEscaped_spec bounds m.buf.length m.channel.chars header (by omega)
    cases h1 : pushEscaped m.buf.length m.channel.chars
        (pushHeader zt.sendBuffer m.channel.chars.length m.buf.length) with
    | error cb =>
        rw [h1] at first
        obtain ⟨bounds', -, same, tooFew⟩ := first
        exact ⟨.eagain, cb, rfl, bounds', by simp; omega, by simp [same]⟩
    | ok s =>
        rw [h1] at first
        obtain ⟨pushed, enough, sum1⟩ := first
        have room2 := pushed.room bounds
        simp only [List.length_append, List.length_cons, List.length_nil, toBe_length] at room2
        have second := pushEscaped_spec bounds 0 m.buf pushed (by omega)
        simp only
        cases h2 : pushEscaped 0 m.buf s with
        | error cb =>
            rw [h2] at second
            obtain ⟨bounds', -, same, tooFew⟩ := second
            exact ⟨.eagain, cb, rfl, bounds', by simp; omega, by simp [same]⟩
        | ok s' =>
            rw [h2] at second
            obtain ⟨pushed', enough', sum2⟩ := second
            have final := pushChecksum_spec bounds pushed' (by omega)
            have room3 := final.room bounds
            have checksum : s'.checksum = checksum (m.channel.chars ++ m.buf) := by
              rw [sum2, sum1, sum, Serial.checksum, List.foldl_append]
            have bytes : [escapeChar, 0x00, BitVec.ofNat 8 m.channel.chars.length] ++ toBe 4 m.buf.length ++
                escape m.channel.chars ++ escape m.buf ++ toBe 2 s'.checksum.toNat = frame m := by
              rw [checksum, frame, escape_append]
              simp
            rw [bytes] at final room3
            exact ⟨.eok, _, rfl, final.bounds, by simp; omega, by simp [final.contents]⟩

theorem advance_of_frame {mtu : Nat} {m : Msg} (chan : m.channel.chars.length ≤ channelMaxlen)
    (len : m.buf.length ≤ mtu) (small : m.buf.length < intLimit) : Advance mtu (frame m) [m] [] := by
  have isFrame := verdict_frame chan len (Nat.lt_trans small (by decide)) []
  rw [List.append_nil] at isFrame
  simpa using advance_frame isFrame

theorem not_overruns_frame {mtu : Nat} {m : Msg} (small : m.buf.length < intLimit) (z : List Byte) :
    ¬ Overruns mtu (frame m ++ z) := by
  obtain ⟨b3, b4, b5, b6, digits, equal⟩ := frame_eq m
  rw [equal]
  rintro ⟨-, large, -⟩
  rw [← digits, ofBe_toBe_of_lt (Nat.lt_trans small (by decide))] at large
  omega

theorem clean_frame {mtu : Nat} {m : Msg} (chan : m.channel.chars.length ≤ channelMaxlen)
    (len : m.buf.length ≤ mtu) (small : m.buf.length < intLimit) {z : List Byte} (clean : Clean mtu z) :
    Clean mtu (frame m ++ z) := by
  have isFrame := verdict_frame chan len (Nat.lt_trans small (by decide)) z
  intro ys visits
  generalize xs_eq : frame m ++ z = xs at visits
  cases visits with
  | here =>
      rw [← xs_eq]
      exact not_overruns_frame small z
  | frame isFrame' rest =>
      rw [← xs_eq, isFrame] at isFrame'
      cases isFrame'
      rw [← xs_eq, List.drop_left] at rest
      exact clean ys rest
  | bad isBad rest =>
      rw [← xs_eq, isFrame] at isBad
      cases isBad

structure Carries (mtu : Nat) (pending : List Byte) (returned accepted : List Msg) : Prop where
  scanned : returned ++ scan mtu pending = accepted
  whole : ∀ z, scan mtu (pending ++ z) = scan mtu pending ++ scan mtu z
  clean : ∀ z, Clean mtu z → Clean mtu (pending ++ z)

theorem Carries.send {mtu : Nat} {pending : List Byte} {returned accepted : List Msg}
    (h : Carries mtu pending returned accepted) {m : Msg} (chan : m.channel.chars.length ≤ channelMaxlen)
    (len : m.buf.length ≤ mtu) (small : m.buf.length < intLimit) :
    Carries mtu (pending ++ frame m) returned (accepted ++ [m]) := by
  have frames := advance_of_frame chan len small
  have alone : scan mtu (frame m) = [m] := by simpa using frames.scan []
  refine ⟨?_, fun z => ?_, fun z clean => ?_⟩
  · rw [h.whole, alone, ← List.append_assoc, h.scanned]
  · rw [List.append_assoc, h.whole, h.whole, frames.scan, alone, List.append_assoc]
    rfl
  · rw [List.append_assoc]
    exact h.clean _ (clean_frame chan len small clean)

theorem Carries.recv {mtu : Nat} {front front' rest : List Byte} {ms returned accepted : List Msg}
    (h : Carries mtu (front ++ rest) returned accepted) (advance : Advance mtu front ms front') :
    Carries mtu (front' ++ rest) (returned ++ ms) accepted := by
  refine ⟨?_, fun z => ?_, fun z clean => ?_⟩
  · rw [List.append_assoc, ← advance.scan, h.scanned]
  · have whole := h.whole z
    rw [List.append_assoc, advance.scan, advance.scan, List.append_assoc, List.append_cancel_left_eq] at whole
    rwa [List.append_assoc]
  · have cleaned := h.clean z clean
    rw [List.append_assoc] at cleaned ⊢
    exact advance.clean _ cleaned

structure Link where
  sender : GenericSerial
  receiver : GenericSerial
  wire : List Byte
  accepted : List Msg
  returned : List Msg

inductive LinkEvent
  | sendmsg (m : Msg)
  | updateTx (first second : Nat)
  | updateRx (first second : Nat)
  | recvmsg (time : Nat → Nat)

namespace Link

/-- No next state means that the call ran into the overflow or that it does not return. -/
def next (s : Link) : LinkEvent → Option Link
  | .sendmsg m =>
      let r := serialSendmsg s.sender m
      some { s with sender := r.2, accepted := if r.1 = .eok then s.accepted ++ [m] else s.accepted }
  | .updateTx first second =>
      let r := serialUpdateTx s.sender first second
      some { s with sender := r.2, wire := s.wire ++ r.1 }
  | .updateRx first second =>
      let r := serialUpdateRx s.receiver first second s.wire
      some { s with receiver := r.1, wire := r.2 }
  | .recvmsg time =>
      match serialRecvmsg time (cbSize s.receiver.recvBuffer + 1) s.receiver with
      | some (.eok m _, zt) => some { s with receiver := zt, returned := s.returned ++ [m] }
      | some (.eagain, zt) => some { s with receiver := zt }
      | _ => none

/-- No message of 2^31 bytes or more is sent when the send buffer would take it. -/
def Small (s : Link) : LinkEvent → Prop
  | .sendmsg m =>
      m.channel.chars.length ≤ channelMaxlen → m.buf.length ≤ s.sender.mtu →
        (frame m).length ≤ cbRoom s.sender.sendBuffer → m.buf.length < intLimit
  | _ => True

structure Inv (s : Link) : Prop where
  sendBounds : InBounds s.sender.sendBuffer
  recvBounds : InBounds s.receiver.recvBuffer
  mtu_le : s.sender.mtu ≤ s.receiver.mtu
  carries : Carries s.receiver.mtu
    (contents s.receiver.recvBuffer ++ (s.wire ++ contents s.sender.sendBuffer)) s.returned s.accepted

theorem Inv.sendmsg {s : Link} (inv : s.Inv) {m : Msg} (small : s.Small (.sendmsg m)) :
    ∃ t, s.next (.sendmsg m) = some t ∧ t.Inv := by
  obtain ⟨r, cb, sent, bounds, accepts, bytes⟩ := serialSendmsg_spec inv.sendBounds m
  refine ⟨_, rfl, ?_⟩
  rw [sent]
  refine ⟨bounds, inv.recvBounds, inv.mtu_le, ?_⟩
  simp only [bytes]
  by_cases ok : r = .eok
  · obtain ⟨chan, len, fits⟩ := accepts.mp ok
    rw [if_pos ok, if_pos ok, ← List.append_assoc, ← List.append_assoc, List.append_assoc _ s.wire]
    exact inv.carries.send chan (Nat.le_trans len inv.mtu_le) (small chan len fits)
  · rw [if_neg ok, if_neg ok, List.append_nil]
    exact inv.carries

theorem Inv.recvmsg {s : Link} (inv : s.Inv) (time : Nat → Nat) :
    ∃ t, s.next (.recvmsg time) = some t ∧ t.Inv := by
  have clean := inv.carries.clean [] (clean_of_length (by decide))
  rw [List.append_nil] at clean
  obtain ⟨r, cb, returns, bounds, advance, result⟩ :=
    serialRecvmsg_spec time inv.recvBounds (Nat.lt_succ_self _) clean
  have carries := inv.carries.recv advance
  simp only [Link.next, returns]
  rcases result with ⟨m, utime, rfl⟩ | ⟨rfl, -⟩
  · exact ⟨_, rfl, inv.sendBounds, bounds, inv.mtu_le, carries⟩
  · simp only [Recv.messages, List.append_nil] at carries
    exact ⟨_, rfl, inv.sendBounds, bounds, inv.mtu_le, carries⟩

theorem Inv.next {s : Link} (inv : s.Inv) (e : LinkEvent) (small : s.Small e) :
    ∃ t, s.next e = some t ∧ t.Inv := by
  cases e with
  | sendmsg m => exact inv.sendmsg small
  | recvmsg time => exact inv.recvmsg time
  | updateTx first second =>
      obtain ⟨bounds, bytes⟩ := cbFlushOut_spec inv.sendBounds first second
      refine ⟨_, rfl, bounds, inv.recvBounds, inv.mtu_le, ?_⟩
      simp only [serialUpdateTx]
      rw [List.append_assoc, bytes]
      exact inv.carries
  | updateRx first second =>
      obtain ⟨bounds, bytes⟩ := cbFlushIn_spec inv.recvBounds first second s.wire
      refine ⟨_, rfl, inv.sendBounds, bounds, inv.mtu_le, ?_⟩
      simp only [serialUpdateRx]
      rw [← List.append_assoc, bytes, List.append_assoc]
      exact inv.carries

/-- Every call of the run returns; the messages returned are the first ones accepted, and all of them
once all bytes are in the receive buffer and `serial_recvmsg` has returned ZCM_EAGAIN there. -/
def Lossless (s : Link) (es : List LinkEvent) : Prop :=
  ∃ t, Runs.run next s es = some t ∧ t.returned <+: t.accepted ∧
    (contents t.sender.sendBuffer = [] → t.wire = [] → ∀ time zt,
      serialRecvmsg time (cbSize t.receiver.recvBuffer + 1) t.receiver = some (.eagain, zt) →
        t.returned = t.accepted)

theorem Inv.lossless {t : Link} (inv : t.Inv) : t.returned <+: t.accepted ∧
    (contents t.sender.sendBuffer = [] → t.wire = [] → ∀ time zt,
      serialRecvmsg time (cbSize t.receiver.recvBuffer + 1) t.receiver = some (.eagain, zt) →
        t.returned = t.accepted) := by
  refine ⟨⟨_, inv.carries.scanned⟩, fun flushed arrived time zt again => ?_⟩
  have clean := inv.carries.clean [] (clean_of_length (by decide))
  have scanned := inv.carries.scanned
  rw [flushed, arrived, List.append_nil, List.append_nil] at scanned clean
  obtain ⟨r, cb, returns, -, advance, result⟩ :=
    serialRecvmsg_spec time inv.recvBounds (Nat.lt_succ_self _) clean
  rw [returns] at again
  obtain ⟨rfl, -⟩ := Prod.mk.inj (Option.some.inj again)
  rcases result with ⟨m, utime, impossible⟩ | ⟨-, empty⟩
  · cases impossible
  · have none := advance.scan []
    rw [List.append_nil, List.append_nil, empty] at none
    rw [none] at scanned
    simpa [Recv.messages] using scanned

def init (sender receiver : GenericSerial) : Link := ⟨sender, receiver, [], [], []⟩

/-- The line loses nothing in any run in which no message of 2^31 bytes or more is accepted. -/
theorem link_lossless (memory : Fin 4 → Mem Byte) (sendMtu sendSize recvMtu recvSize : Nat)
    (sender receiver : GenericSerial)
    (created : create (memory 0) (memory 1) sendMtu sendSize = some sender)
    (created' : create (memory 2) (memory 3) recvMtu recvSize = some receiver) (mtu_le : sendMtu ≤ recvMtu)
    (es : List LinkEvent) (small : Runs.Meets next Small (init sender receiver) es) :
    (init sender receiver).Lossless es := by
  obtain ⟨rfl, -, fits⟩ := create_spec created
  obtain ⟨rfl, -, fits'⟩ := create_spec created'
  have nine : frameBytes = 9 := rfl
  have initial : Inv (init ⟨cbInit (memory 0) sendSize, cbInit (memory 1) sendSize, sendMtu⟩
      ⟨cbInit (memory 2) recvSize, cbInit (memory 3) recvSize, recvMtu⟩) :=
    ⟨inBounds_cbInit _ (by omega), inBounds_cbInit _ (by omega), mtu_le,
      ⟨rfl, fun _ => rfl, fun _ clean => clean⟩⟩
  obtain ⟨t, runs, inv⟩ := Runs.run_total (fun _ e inv small => Inv.next inv e small) initial small
  exact ⟨t, runs, inv.lossless⟩

theorem link_lossless_two :
    (init ⟨cbInit (fun _ => 0) 32, cbInit (fun _ => 0) 32, 4⟩
      ⟨cbInit (fun _ => 0) 40, cbInit (fun _ => 0) 40, 8⟩).Lossless
      [.sendmsg ⟨⟨[0x41], by decide⟩, [0xcc, 0x00]⟩, .updateTx 3 0, .updateRx 2 0, .recvmsg id,
        .sendmsg ⟨⟨[0xcc], by decide⟩, []⟩, .updateTx 32 32, .updateRx 40 40, .recvmsg id, .recvmsg id] :=
  link_lossless (fun _ _ => 0) 4 32 8 40 _ _ rfl rfl (by decide) _
    (Runs.meets_of_forall (by simp [Small, intLimit]) _)

theorem not_lossless_of_large {data data' : Mem Byte} {cb cb' : CircBuffer} {mtu sz : Nat} {m : Msg}
    (chan : m.channel.chars.length ≤ channelMaxlen) (len : m.buf.length ≤ mtu)
    (large : intLimit ≤ m.buf.length) (announced : m.buf.length < 2 ^ 32) (fits : (frame m).length < sz)
    (time : Nat → Nat) :
    ¬ (init ⟨cbInit data sz, cb, mtu⟩ ⟨cb', cbInit data' sz, mtu⟩).Lossless
      [.sendmsg m, .updateTx (frame m).length (frame m).length, .updateRx (frame m).length 0,
        .recvmsg time] := by
  rintro ⟨t, runs, -⟩
  obtain ⟨s1, step1, runs⟩ := Runs.run_cons runs
  obtain ⟨s2, step2, runs⟩ := Runs.run_cons runs
  obtain ⟨s3, step3, runs⟩ := Runs.run_cons runs
  obtain ⟨s4, step4, -⟩ := Runs.run_cons runs
  have bounds := inBounds_cbInit data (by omega : 0 < sz)
  have room : cbRoom (cbInit data sz) = sz - 1 := rfl
  obtain ⟨r, sent, equal, bounds', accepts, bytes⟩ :=
    @serialSendmsg_spec ⟨cbInit data sz, cb, mtu⟩ bounds m
  have ok : r = .eok := accepts.mpr ⟨chan, len, by simp only [room]; omega⟩
  simp only [contents_cbInit, if_pos ok, List.nil_append] at bytes
  have all : cbSize sent ≤ (frame m).length := by rw [← contents_length, bytes]
  have flushed := cbFlushOut_all bounds' all
  have read := cbFlushIn_fresh data' fits (Nat.le_refl _) 0
  have overrun := overruns_frame chan len large announced []
  rw [List.append_nil] at overrun
  cases step1
  cases step2
  cases step3
  simp only [init, next, equal, serialUpdateTx, flushed, bytes, List.nil_append, serialUpdateRx] at step4
  rw [serialRecvmsg_overflow] at step4
  · cases step4
  · simp only [read]
    exact overrun
  · rw [← contents_length]
    simp only [read]
    rw [frame_length]
    omega

theorem link_overflows :
    ∃ sender receiver,
      create (fun _ => 0) (fun _ => 0) (intLimit + 1) (frameBytes + intLimit + 2) = some sender ∧
      create (fun _ => 0) (fun _ => 0) (intLimit + 1) (frameBytes + intLimit + 2) = some receiver ∧
      ¬ (init sender receiver).Lossless
        [.sendmsg lostMsg, .updateTx (frame lostMsg).length (frame lostMsg).length,
          .updateRx (frame lostMsg).length 0, .recvmsg id] := by
  refine ⟨⟨cbInit _ _, cbInit _ _, _⟩, ⟨cbInit _ _, cbInit _ _, _⟩, if_neg (by decide), if_neg (by decide), ?_⟩
  refine not_lossless_of_large (Nat.zero_le _) (Nat.le_of_eq lostMsg_buf_length) ?_ ?_ ?_ id
  · rw [lostMsg_buf_length]
    exact Nat.le_succ _
  · rw [lostMsg_buf_length]
    decide
  · rw [lostMsg_frame_length]
    exact Nat.lt_succ_self _

end Link
end Zcm.Serial
