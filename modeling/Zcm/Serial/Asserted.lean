import Zcm.Serial.Link

namespace Zcm.Serial.Asserted
open Zcm.Lib

def asserting {α : Type} (holds : Prop) [Decidable holds] (a : α) : Option α := if holds then some a else none

theorem asserting_of {α : Type} {holds : Prop} [Decidable holds] (h : holds) (a : α) : asserting holds a = some a :=
  if_pos h

def cbPushBack (cb : CircBuffer) (d : Byte) : Option CircBuffer :=
  asserting (cb.capacity > cbSize cb + 1 ∧ cbRoom cb > 0 ∧ cb.back + 1 ≤ cb.capacity) (Serial.cbPushBack cb d)

def cbFront (cb : CircBuffer) (offset : Nat) : Option Byte := asserting (cbSize cb > offset) (Serial.cbFront cb offset)

def cbPopFront (cb : CircBuffer) (num : Nat) :
    Option CircBuffer := asserting (cbSize cb ≥ num) (Serial.cbPopFront cb num)

def cbPopBack (cb : CircBuffer) (num : Nat) : Option CircBuffer :=
  asserting (cbSize cb ≥ num) (Serial.cbPopBack cb num)

def push (s : Sending) (d : Byte) : Option Sending :=
  (cbPushBack s.cb d).map fun cb => { s with cb := cb, nPushed := s.nPushed + 1 }

def pushEscaped (after : Nat) : List Byte → Sending → Option (Except CircBuffer Sending)
  | [], s => some (.ok s)
  | c :: cs, s => do
      let s ← push s c
      if c = escapeChar then
        if cbRoom s.cb > cs.length + 1 + after + 1 then
          let s ← push s c
          pushEscaped after cs { s with checksum := fletcherUpdate c s.checksum }
        else (cbPopBack s.cb s.nPushed).map .error
      else pushEscaped after cs { s with checksum := fletcherUpdate c s.checksum }

def pushHeader (cb : CircBuffer) (chanLen len : Nat) : Option Sending :=
  let len : BitVec 32 := BitVec.ofNat 32 len
  [escapeChar, 0x00, BitVec.ofNat 8 chanLen, ((len >>> 24) &&& 0xff).setWidth 8, ((len >>> 16) &&& 0xff).setWidth 8,
    ((len >>> 8) &&& 0xff).setWidth 8, (len &&& 0xff).setWidth 8].foldlM push ⟨cb, 0, 0xffff⟩

def pushChecksum (s : Sending) : Option Sending :=
  [((s.checksum >>> 8) &&& 0xff).setWidth 8, (s.checksum &&& 0xff).setWidth 8].foldlM push s

def serialSendmsg (zt : GenericSerial) (msg : Msg) : Option (Ret × GenericSerial) :=
  let chanLen := msg.channel.chars.length
  if chanLen > channelMaxlen then some (.einvalid, zt)
  else if msg.buf.length > zt.mtu then some (.einvalid, zt)
  else if frameBytes + chanLen + msg.buf.length > cbRoom zt.sendBuffer then some (.eagain, zt)
  else do
    match ← pushEscaped msg.buf.length msg.channel.chars (← pushHeader zt.sendBuffer chanLen msg.buf.length) with
    | .error cb => some (.eagain, { zt with sendBuffer := cb })
    | .ok s =>
        match ← pushEscaped 0 msg.buf s with
        | .error cb => some (.eagain, { zt with sendBuffer := cb })
        | .ok s => (pushChecksum s).map fun s => (.eok, { zt with sendBuffer := s.cb })

section Send

variable {cb : CircBuffer} {s : Sending} {bytes : List Byte}

theorem cbPushBack_of_room (bounds : InBounds cb) (room : 0 < cbRoom cb) (d : Byte) :
    cbPushBack cb d = some (Serial.cbPushBack cb d) := by
  have total := bounds.cbRoom_add
  have back := bounds.back_lt
  exact asserting_of ⟨by omega, room, back⟩ _

theorem push_of_room (pushed : Pushed cb s bytes) (room : 0 < cbRoom s.cb) (d : Byte) : push s d = some (s.push d) := by
  rw [push, cbPushBack_of_room pushed.bounds room]
  rfl

theorem foldlM_push (bounds : InBounds cb) (ds : List Byte) (pushed : Pushed cb s bytes)
    (room : ds.length ≤ cbRoom s.cb) :
    ds.foldlM push s = some (ds.foldl Sending.push s) := by
  induction ds generalizing s bytes with
  | nil => rfl
  | cons d ds ih =>
      rw [List.length_cons] at room
      have next := pushed.push (by omega) d
      have before := pushed.room bounds
      have after := next.room bounds
      rw [List.length_append, List.length_singleton] at after
      rw [List.foldlM_cons, push_of_room pushed (by omega)]
      exact ih next (by omega)

theorem pushHeader_of_room (bounds : InBounds cb) (chanLen len : Nat) (room : 7 ≤ cbRoom cb) :
    pushHeader cb chanLen len = some (Serial.pushHeader cb chanLen len) :=
  @foldlM_push cb _ [] bounds _ ⟨bounds, rfl, by simp, rfl⟩ room

theorem pushChecksum_of_room (bounds : InBounds cb) (pushed : Pushed cb s bytes) (room : 2 ≤ cbRoom s.cb) :
    pushChecksum s = some (Serial.pushChecksum s) :=
  foldlM_push bounds _ pushed room

theorem pushEscaped_of_room (bounds : InBounds cb) (after : Nat) (cs : List Byte) (pushed : Pushed cb s bytes)
    (room : cs.length + after + 2 ≤ cbRoom s.cb) : pushEscaped after cs s = some (Serial.pushEscaped after cs s) := by
  induction cs generalizing s bytes with
  | nil => rfl
  | cons c cs ih =>
      rw [List.length_cons] at room
      have first := pushed.push (by omega) c
      have room0 := pushed.room bounds
      have room1 := first.room bounds
      rw [List.length_append, List.length_singleton] at room1
      rw [pushEscaped, push_of_room pushed (by omega), Serial.pushEscaped]
      simp only [Option.bind_eq_bind, Option.bind_some]
      by_cases escaped : c = escapeChar
      · rw [if_pos escaped, if_pos escaped]
        by_cases enough : cbRoom (s.push c).cb > cs.length + 1 + after + 1
        · have second := first.push (by omega) c
          have room2 := second.room bounds
          rw [List.length_append, List.length_singleton] at room2
          rw [List.length_append, List.length_singleton] at room2
          rw [if_pos enough, if_pos enough, push_of_room first (by omega), Option.bind_some]
          exact ih ⟨second.bounds, second.capacity, second.contents, second.count⟩ (by simp only; omega)
        · have size : cbSize (s.push c).cb = cbSize cb + (bytes ++ [c]).length := by
            simpa using congrArg List.length first.contents
          have count := first.count
          rw [if_neg enough, if_neg enough, cbPopBack, asserting_of (by omega)]
          rfl
      · rw [if_neg escaped, if_neg escaped]
        exact ih ⟨first.bounds, first.capacity, first.contents, first.count⟩ (by simp only; omega)

theorem serialSendmsg_eq {zt : GenericSerial} (bounds : InBounds zt.sendBuffer) (m : Msg) :
    serialSendmsg zt m = some (Serial.serialSendmsg zt m) := by
  rw [serialSendmsg, Serial.serialSendmsg]
  simp only [apply_ite some]
  refine if_congr Iff.rfl rfl (if_congr Iff.rfl rfl (ite_congr rfl (fun _ => rfl) fun room => ?_))
  have nine : frameBytes = 9 := rfl
  have room : frameBytes + m.channel.chars.length + m.buf.length ≤ cbRoom zt.sendBuffer := Nat.not_lt.mp room
  obtain ⟨header, -⟩ := pushHeader_spec bounds m.channel.chars.length m.buf.length (by omega)
  have room1 := header.room bounds
  simp only [List.length_append, List.length_cons, List.length_nil, toBe_length] at room1
  have first := pushEscaped_spec bounds m.buf.length m.channel.chars header (by omega)
  simp only [pushHeader_of_room bounds m.channel.chars.length m.buf.length (by omega), Option.bind_eq_bind,
    Option.bind_some,
    pushEscaped_of_room bounds m.buf.length m.channel.chars header (by omega)]
  cases channelDone : Serial.pushEscaped m.buf.length m.channel.chars
      (Serial.pushHeader zt.sendBuffer m.channel.chars.length m.buf.length) with
  | error cb => rfl
  | ok s =>
      rw [channelDone] at first
      obtain ⟨pushed, enough, -⟩ := first
      have second := pushEscaped_spec bounds 0 m.buf pushed (by omega)
      simp only
      rw [pushEscaped_of_room bounds 0 m.buf pushed (by omega), Option.bind_some]
      cases dataDone : Serial.pushEscaped 0 m.buf s with
      | error cb => rfl
      | ok s =>
          rw [dataDone] at second
          obtain ⟨pushed, enough, -⟩ := second
          simp only
          rw [pushChecksum_of_room bounds pushed (by omega)]
          rfl

/-- What `serial_sendmsg` does is all or nothing, and no assertion of the ring fails on the way. -/
structure Atomic (zt : GenericSerial) (msg : Msg) : Prop where
  accepts : (Serial.serialSendmsg zt msg).1 = .eok ↔ msg.channel.chars.length ≤ channelMaxlen ∧
    msg.buf.length ≤ zt.mtu ∧ (frame msg).length ≤ cbRoom zt.sendBuffer
  accepted : (Serial.serialSendmsg zt msg).1 = .eok →
    contents (Serial.serialSendmsg zt msg).2.sendBuffer = contents zt.sendBuffer ++ frame msg
  refused : (Serial.serialSendmsg zt msg).1 ≠ .eok →
    contents (Serial.serialSendmsg zt msg).2.sendBuffer = contents zt.sendBuffer
  asserted : serialSendmsg zt msg = some (Serial.serialSendmsg zt msg)

theorem serialSendmsg_atomic {zt : GenericSerial} (bounds : InBounds zt.sendBuffer) (msg : Msg) : Atomic zt msg := by
  obtain ⟨r, cb, sent, -, accepts, bytes⟩ := serialSendmsg_spec bounds msg
  have asserted := serialSendmsg_eq bounds msg
  constructor
  · rw [sent]
    exact accepts
  · intro accepted
    rw [sent] at accepted ⊢
    rw [bytes, if_pos accepted]
  · intro refused
    rw [sent] at refused ⊢
    rw [bytes, if_neg refused, List.append_nil]
  · exact asserted

theorem serialSendmsg_atomic_escape :
    InBounds (cbInit (fun _ => 0) 13) ∧
      Atomic ⟨cbInit (fun _ => 0) 13, cbInit (fun _ => 0) 13, 4⟩ ⟨⟨[65], by decide⟩, [0xcc]⟩ :=
  ⟨inBounds_cbInit _ (by decide), serialSendmsg_atomic (inBounds_cbInit _ (by decide)) _⟩

end Send

section Receive

def readOne (cb : CircBuffer) (incomingSize left after consumed : Nat) : Option (Scan (Byte × Nat)) := do
  let c ← cbFront cb consumed
  let consumed := consumed + 1
  if c = escapeChar then
    if consumed + left + after + 2 > incomingSize then some .again
    else
      let c ← cbFront cb consumed
      if c ≠ escapeChar then some .fail else some (.done (c, consumed + 1))
  else some (.done (c, consumed))

def andThen {α β : Type} (x : Option (Scan α)) (f : α → Option (Scan β)) : Option (Scan β) := do
  match ← x with
  | .done a => f a
  | .again => some .again
  | .fail => some .fail
  | .overflow => some .overflow

/-- The loops of `serial_recvmsg`, which write to an array of `cells` bytes. If the index `wraps` when it overflows,
it is negative then, and as a `size_t` above every length: the loop over the data ends. -/
def readEscaped (wraps : Bool) (cells : Nat) (cb : CircBuffer) (incomingSize : Nat) (guarded : Bool) (after : Nat) :
    Nat → Nat → Cursor → Option (Scan Cursor)
  | 0, _, cur => some (.done cur)
  | left + 1, i, cur =>
      if guarded ∧ cur.consumed > incomingSize then some .again
      else andThen (readOne cb incomingSize (left + 1) after cur.consumed) fun (c, consumed) => do
        let cur ← asserting (i < cells) ⟨consumed, fletcherUpdate c cur.checksum, cur.out ++ [c]⟩
        if i + 1 = intLimit then some (if wraps then .done cur else .overflow)
        else readEscaped wraps cells cb incomingSize guarded after left (i + 1) cur

def recvChecksum (cb : CircBuffer) (chan : List Byte) (cur : Cursor) : Option (Scan (Msg × Nat)) := do
  let expectedHighCS ← cbFront cb cur.consumed
  let expectedLowCS ← cbFront cb (cur.consumed + 1)
  let receivedCS := (expectedHighCS.setWidth 16 <<< 8) ||| expectedLowCS.setWidth 16
  if receivedCS = cur.checksum then some (.done (⟨CString.ofBytes chan, cur.out⟩, cur.consumed + 2))
  else some .fail

def recvData (wraps : Bool) (mtu : Nat) (cb : CircBuffer) (incomingSize len : Nat) (chan : Cursor) :
    Option (Scan (Msg × Nat)) :=
  andThen (readEscaped wraps mtu cb incomingSize true 0 len 0 { chan with out := [] }) (recvChecksum cb chan.out)

def recvChanNameSize : Nat := channelMaxlen + 1

-- Before its loop, all of `recvChanName` but the last byte is cleared.
def recvChannel (wraps : Bool) (mtu : Nat) (cb : CircBuffer) (incomingSize chanLen len : Nat) :
    Option (Scan (Msg × Nat)) :=
  andThen (readEscaped wraps recvChanNameSize cb incomingSize false len chanLen 0 ⟨7, 0xffff, []⟩) fun chan => do
    -- `recvChanName[chan_len]` is set to 0.
    let chan ← asserting (chanLen < recvChanNameSize) chan
    recvData wraps mtu cb incomingSize len chan

def recvAttempt (wraps : Bool) (zt : GenericSerial) : Option (Scan (Msg × Nat)) :=
  let cb := zt.recvBuffer
  let incomingSize := cbSize cb
  if incomingSize < frameBytes then some .again
  else do
    if (← cbFront cb 0) ≠ escapeChar then some .fail
    else if (← cbFront cb 1) ≠ 0x00 then some .fail
    else
      let chanLen := (← cbFront cb 2).toNat
      let len := (lengthField (← cbFront cb 3) (← cbFront cb 4) (← cbFront cb 5) (← cbFront cb 6)).toNat
      if chanLen > channelMaxlen then some .fail
      else if len > zt.mtu then some .fail
      else if incomingSize < frameBytes + chanLen + len then some .again
      else recvChannel wraps zt.mtu cb incomingSize chanLen len

def resync : Nat → CircBuffer → Option (Option CircBuffer)
  | 0, _ => some none
  | fuel + 1, cb => do
      let cb ← cbPopFront cb 1
      if cbSize cb ≠ 0 then
        if (← cbFront cb 0) ≠ escapeChar then resync fuel cb else some (some cb)
      else some (some cb)

def serialRecvmsg (wraps : Bool) (time : Nat → Nat) :
    Nat → GenericSerial → Option (Option (Recv × GenericSerial))
  | 0, _ => some none
  | fuel + 1, zt => do
      match ← recvAttempt wraps zt with
      | .done (msg, consumed) =>
          (cbPopFront zt.recvBuffer consumed).map fun cb => some (.eok msg (time fuel), { zt with recvBuffer := cb })
      | .again => some (some (.eagain, zt))
      | .overflow => some (some (.overflow, zt))
      | .fail =>
          match ← resync fuel zt.recvBuffer with
          | none => some none
          | some cb => serialRecvmsg wraps time fuel { zt with recvBuffer := cb }

/-- No assertion fails in this part of a call, and what it comes to is `fine`. Unless the index wraps, it ends as the
`plain` one does. -/
def Meets {α : Type} (wraps : Bool) (plain : Scan α) (fine : α → Prop) (x : Option (Scan α)) : Prop :=
  ∃ r, x = some r ∧ (wraps = false → r = plain) ∧ ∀ a, r = .done a → fine a

variable {wraps : Bool} {cb : CircBuffer}

theorem Meets.of_eq {α : Type} {plain : Scan α} {fine : α → Prop} {x : Option (Scan α)} (equal : x = some plain)
    (done : ∀ a, plain = .done a → fine a) : Meets wraps plain fine x :=
  ⟨plain, equal, fun _ => rfl, done⟩

theorem Meets.andThen {α β : Type} {plain : Scan α} {fine : α → Prop} {x : Option (Scan α)}
    (h : Meets wraps plain fine x)
    {f : α → Scan β} {f' : α → Option (Scan β)} {fine' : β → Prop}
    (rest : ∀ a, fine a → Meets wraps (f a) fine' (f' a)) :
    Meets wraps (plain.bind f) fine' (andThen x f') := by
  obtain ⟨r, rfl, same, done⟩ := h
  cases r with
  | done a =>
      obtain ⟨r', equal, same', done'⟩ := rest a (done a rfl)
      refine ⟨r', equal, fun stops => ?_, done'⟩
      rw [← same stops]
      exact same' stops
  | again => exact ⟨.again, rfl, fun stops => by rw [← same stops]; rfl, fun a impossible => by cases impossible⟩
  | fail => exact ⟨.fail, rfl, fun stops => by rw [← same stops]; rfl, fun a impossible => by cases impossible⟩
  | overflow =>
      exact ⟨.overflow, rfl, fun stops => by rw [← same stops]; rfl, fun a impossible => by cases impossible⟩

theorem cbFront_of_lt {offset : Nat} (lt : offset < cbSize cb) : cbFront cb offset = some (Serial.cbFront cb offset) :=
  asserting_of lt _

theorem readOne_meets {left after consumed : Nat} (bound : consumed + (left + 1) + after + 2 ≤ cbSize cb) :
    Meets wraps (Serial.readOne cb (cbSize cb) (left + 1) after consumed)
      (fun (_, k) => k + left + after + 2 ≤ cbSize cb)
      (readOne cb (cbSize cb) (left + 1) after consumed) := by
  apply Meets.of_eq
  · rw [readOne, Serial.readOne, cbFront_of_lt (by omega), Option.bind_eq_bind, Option.bind_some]
    simp only [apply_ite some]
    refine if_congr Iff.rfl (ite_congr rfl (fun _ => rfl) fun more => ?_) rfl
    rw [cbFront_of_lt (by omega), Option.bind_some]
  · rintro ⟨c, k⟩ ends
    unfold Serial.readOne at ends
    dsimp only at ends ⊢
    split at ends
    · split at ends
      · cases ends
      · split at ends
        · cases ends
        · cases ends
          omega
    · cases ends
      omega

theorem readEscaped_meets {cells : Nat} {guarded : Bool} {after left i : Nat} {cur : Cursor}
    (bound : cur.consumed + left + after + 2 ≤ cbSize cb) (within : i + left ≤ cells) :
    Meets wraps (Serial.readEscaped cb (cbSize cb) guarded after left i cur)
      (fun cur => cur.consumed + after + 2 ≤ cbSize cb)
      (readEscaped wraps cells cb (cbSize cb) guarded after left i cur) := by
  induction left generalizing i cur with
  | zero =>
      apply Meets.of_eq rfl
      intro cur' ends
      cases ends
      omega
  | succ left ih =>
      rw [readEscaped, Serial.readEscaped, if_neg (by omega), if_neg (by omega)]
      apply (readOne_meets bound).andThen
      rintro ⟨c, consumed⟩ there
      simp only at there ⊢
      rw [asserting_of (by omega), Option.bind_eq_bind, Option.bind_some]
      by_cases last : i + 1 = intLimit
      · rw [if_pos last, if_pos last]
        refine ⟨_, rfl, fun stops => by rw [stops]; rfl, fun cur' ends => ?_⟩
        split at ends
        · cases ends
          simp only
          omega
        · cases ends
      · rw [if_neg last, if_neg last]
        exact ih there (by omega)

theorem recvChecksum_meets {chan : List Byte} {cur : Cursor} (bound : cur.consumed + 2 ≤ cbSize cb) :
    Meets wraps (Serial.recvChecksum cb chan cur) (fun (_, k) => k ≤ cbSize cb) (recvChecksum cb chan cur) := by
  apply Meets.of_eq
  · rw [recvChecksum, cbFront_of_lt (by omega), cbFront_of_lt (by omega), Serial.recvChecksum, apply_ite some]
    rfl
  · rintro ⟨m, k⟩ ends
    unfold Serial.recvChecksum at ends
    dsimp only at ends
    split at ends
    · cases ends
      exact bound
    · cases ends

theorem recvChannel_meets {mtu chanLen len : Nat} (enough : frameBytes + chanLen + len ≤ cbSize cb)
    (chanFits : chanLen ≤ channelMaxlen) (fits : len ≤ mtu) :
    Meets wraps (Serial.recvChannel cb (cbSize cb) chanLen len) (fun (_, k) => k ≤ cbSize cb)
      (recvChannel wraps mtu cb (cbSize cb) chanLen len) := by
  have nine : frameBytes = 9 := rfl
  have cells : recvChanNameSize = channelMaxlen + 1 := rfl
  refine (readEscaped_meets (by simp only; omega) (by omega)).andThen fun chan there => ?_
  rw [asserting_of (by omega), Option.bind_eq_bind, Option.bind_some]
  refine (readEscaped_meets (by simp only; omega) (by omega)).andThen fun cur there' => recvChecksum_meets there'

theorem recvAttempt_meets {zt : GenericSerial} :
    Meets wraps (Serial.recvAttempt zt) (fun (_, k) => k ≤ cbSize zt.recvBuffer) (recvAttempt wraps zt) := by
  have nine : frameBytes = 9 := rfl
  have impossible : ∀ {x : Scan (Msg × Nat)}, (∀ a, x ≠ .done a) →
      Meets wraps x (fun (_, k) => k ≤ cbSize zt.recvBuffer) (some x) :=
    fun no => Meets.of_eq rfl fun a ends => absurd ends (no a)
  unfold recvAttempt Serial.recvAttempt
  dsimp only
  split
  · exact impossible (by simp)
  next long =>
    simp only [cbFront_of_lt (show 0 < cbSize zt.recvBuffer by omega),
      cbFront_of_lt (show 1 < cbSize zt.recvBuffer by omega),
      cbFront_of_lt (show 2 < cbSize zt.recvBuffer by omega), cbFront_of_lt (show 3 < cbSize zt.recvBuffer by omega),
      cbFront_of_lt (show 4 < cbSize zt.recvBuffer by omega), cbFront_of_lt (show 5 < cbSize zt.recvBuffer by omega),
      cbFront_of_lt (show 6 < cbSize zt.recvBuffer by omega), Option.bind_eq_bind, Option.bind_some]
    split
    · exact impossible (by simp)
    split
    · exact impossible (by simp)
    split
    · exact impossible (by simp)
    split
    · exact impossible (by simp)
    split
    · exact impossible (by simp)
    · exact recvChannel_meets (by omega) (by omega) (by omega)

theorem resync_eq {fuel : Nat} (bounds : InBounds cb) (nonempty : 0 < cbSize cb) :
    resync fuel cb = some (Serial.resync fuel cb) ∧ ∀ cb', Serial.resync fuel cb = some cb' → InBounds cb' := by
  induction fuel generalizing cb with
  | zero => exact ⟨rfl, fun cb' ends => by cases ends⟩
  | succ fuel ih =>
      have nonempty : cbSize cb ≥ 1 := nonempty
      have popped := (cbPopFront_spec bounds nonempty).1
      rw [resync, Serial.resync, cbPopFront, asserting_of nonempty, Option.bind_eq_bind, Option.bind_some]
      generalize Serial.cbPopFront cb 1 = cb at popped ⊢
      by_cases empty : cbSize cb = 0
      · simp only [empty, ne_eq, not_true, false_and, if_false, true_and]
        exact fun cb' ends => Option.some.inj ends ▸ popped
      · by_cases marker : Serial.cbFront cb 0 = escapeChar
        · simp only [empty, marker, ne_eq, not_true, not_false_iff, and_false, if_true, if_false,
            cbFront_of_lt (Nat.pos_of_ne_zero empty), Option.bind_eq_bind, Option.bind_some, true_and]
          exact fun cb' ends => Option.some.inj ends ▸ popped
        · simp only [empty, marker, ne_eq, not_false_iff, and_true, if_true,
            cbFront_of_lt (Nat.pos_of_ne_zero empty), Option.bind_eq_bind, Option.bind_some]
          exact ih popped (Nat.pos_of_ne_zero empty)

/-- No assertion fails in a call of `serial_recvmsg`, whatever the buffer holds. -/
theorem serialRecvmsg_asserted {zt : GenericSerial} (bounds : InBounds zt.recvBuffer) (wraps : Bool)
    (time : Nat → Nat) (fuel : Nat) :
    ∃ r, serialRecvmsg wraps time fuel zt = some r ∧
      (wraps = false → r = Serial.serialRecvmsg time fuel zt) := by
  induction fuel generalizing zt with
  | zero => exact ⟨none, rfl, fun _ => rfl⟩
  | succ fuel ih =>
      obtain ⟨r, attempt, same, done⟩ := @recvAttempt_meets wraps zt
      rw [serialRecvmsg, Serial.serialRecvmsg, attempt, Option.bind_eq_bind, Option.bind_some]
      cases r with
      | done found =>
          obtain ⟨m, size⟩ := found
          have le := done _ rfl
          simp only [cbPopFront, asserting_of le, Option.map_some]
          exact ⟨_, rfl, fun stops => by rw [← same stops]⟩
      | again => exact ⟨_, rfl, fun stops => by rw [← same stops]⟩
      | overflow => exact ⟨_, rfl, fun stops => by rw [← same stops]⟩
      | fail =>
          have nonempty : 0 < cbSize zt.recvBuffer := by
            by_contra empty
            rw [recvAttempt, if_pos (Nat.lt_of_le_of_lt (Nat.not_lt.mp empty) (by decide))] at attempt
            cases attempt
          obtain ⟨ends, kept⟩ := @resync_eq zt.recvBuffer fuel bounds nonempty
          simp only [ends]
          cases found : Serial.resync fuel zt.recvBuffer with
          | none => exact ⟨none, rfl, fun stops => by rw [← same stops]; simp⟩
          | some cb =>
              obtain ⟨r, rest, agrees⟩ := @ih { zt with recvBuffer := cb } (kept cb found)
              refine ⟨r, rest, fun stops => ?_⟩
              rw [← same stops, agrees stops]
              simp

/-- A frame with an escape in its data, that goes round the end of the ring. -/
def escapedFrame : GenericSerial where
  sendBuffer := cbInit (fun _ => 0) 16
  recvBuffer := ⟨fun i => [0xcc, 0x00, 1, 0, 0, 0, 1, 97, 0xcc, 0xcc, 0x8f, 0x2e].getD ((i + 6) % 16) 0, 16, 10, 6⟩
  mtu := 4

theorem serialRecvmsg_asserted_escaped :
    (∃ zt, serialRecvmsg false (fun _ => 0) 2 escapedFrame =
      some (some (.eok ⟨CString.ofBytes [97], [0xcc]⟩ 0, zt))) ∧
    ∃ r, serialRecvmsg false (fun _ => 0) 2 escapedFrame = some r ∧
      (false = false → r = Serial.serialRecvmsg (fun _ => 0) 2 escapedFrame) :=
  ⟨⟨_, rfl⟩, @serialRecvmsg_asserted escapedFrame ⟨by decide, by decide⟩ false (fun _ => 0) 2⟩

end Receive

end Zcm.Serial.Asserted
