import Zcm.Serial.CircBuffer

/-!
# The generic serial transport

Sending frames a message into the send buffer; receiving looks for a frame at the front of the
receive buffer and gives up bytes until there may be one.
-/

namespace Zcm.Serial
open Zcm.Lib

def escapeChar : Byte := 0xcc

def frameBytes : Nat := 9

def channelMaxlen : Nat := 32

def fletcherUpdate (b : Byte) (prevSum : BitVec 16) : BitVec 16 :=
  let sumHigh := (prevSum >>> 8) &&& 0xff
  let sumLow := prevSum &&& 0xff
  let sumLow := sumLow + b.setWidth 16
  let sumHigh := sumHigh + sumLow
  let sumLow := (sumLow &&& 0xff) + (sumLow >>> 8)
  let sumHigh := (sumHigh &&& 0xff) + (sumHigh >>> 8)
  let sumLow := (sumLow &&& 0xff) + (sumLow >>> 8)
  let sumHigh := (sumHigh &&& 0xff) + (sumHigh >>> 8)
  (sumHigh <<< 8) ||| sumLow

structure Msg where
  channel : CString
  buf : List Byte
deriving DecidableEq

inductive Ret
  | eok | eagain | einvalid
deriving DecidableEq

structure GenericSerial where
  sendBuffer : CircBuffer
  recvBuffer : CircBuffer
  mtu : Nat

def create (sendData recvData : Mem Byte) (mtu bufSize : Nat) : Option GenericSerial :=
  if mtu = 0 ∨ bufSize < frameBytes + mtu then none
  else some ⟨cbInit sendData bufSize, cbInit recvData bufSize, mtu⟩

structure Sending where
  cb : CircBuffer
  nPushed : Nat
  checksum : BitVec 16

def Sending.push (s : Sending) (d : Byte) : Sending :=
  { s with cb := cbPushBack s.cb d, nPushed := s.nPushed + 1 }

/-- The loops of `serial_sendmsg` over the channel and over the data. The escape character is sent
twice, if there is still room for that and for the rest: `after` counts the bytes of the message
behind this part of it. Without room, all that was pushed is taken back. -/
def pushEscaped (after : Nat) : List Byte → Sending → Except CircBuffer Sending
  | [], s => .ok s
  | c :: cs, s =>
      let s := s.push c
      if c = escapeChar then
        if cbRoom s.cb > cs.length + 1 + after + 1 then
          let s := s.push c
          pushEscaped after cs { s with checksum := fletcherUpdate c s.checksum }
        else .error (cbPopBack s.cb s.nPushed)
      else pushEscaped after cs { s with checksum := fletcherUpdate c s.checksum }

def pushHeader (cb : CircBuffer) (chanLen len : Nat) : Sending :=
  let len : BitVec 32 := BitVec.ofNat 32 len
  let s : Sending := ⟨cb, 0, 0xffff⟩
  let s := s.push escapeChar
  let s := s.push 0x00
  let s := s.push (BitVec.ofNat 8 chanLen)
  let s := s.push (((len >>> 24) &&& 0xff).setWidth 8)
  let s := s.push (((len >>> 16) &&& 0xff).setWidth 8)
  let s := s.push (((len >>> 8) &&& 0xff).setWidth 8)
  s.push ((len &&& 0xff).setWidth 8)

def pushChecksum (s : Sending) : Sending :=
  let high := ((s.checksum >>> 8) &&& 0xff).setWidth 8
  let low := (s.checksum &&& 0xff).setWidth 8
  (s.push high).push low

def serialSendmsg (zt : GenericSerial) (msg : Msg) : Ret × GenericSerial :=
  let chanLen := msg.channel.chars.length
  if chanLen > channelMaxlen then (.einvalid, zt)
  else if msg.buf.length > zt.mtu then (.einvalid, zt)
  else if frameBytes + chanLen + msg.buf.length > cbRoom zt.sendBuffer then (.eagain, zt)
  else
    match pushEscaped msg.buf.length msg.channel.chars (pushHeader zt.sendBuffer chanLen msg.buf.length) with
    | .error cb => (.eagain, { zt with sendBuffer := cb })
    | .ok s =>
        match pushEscaped 0 msg.buf s with
        | .error cb => (.eagain, { zt with sendBuffer := cb })
        | .ok s => (.eok, { zt with sendBuffer := (pushChecksum s).cb })

def intLimit : Nat := 2 ^ 31

/-- How a part of `serial_recvmsg` ends: with a value, with ZCM_EAGAIN, at the label `fail`, or with
an overflow of its loop index, whose type is `int`. -/
inductive Scan (α : Type)
  | done (a : α)
  | again
  | fail
  | overflow

def Scan.bind {α β : Type} (x : Scan α) (f : α → Scan β) : Scan β :=
  match x with
  | .done a => f a
  | .again => .again
  | .fail => .fail
  | .overflow => .overflow

structure Cursor where
  consumed : Nat
  checksum : BitVec 16
  out : List Byte

/-- One byte of a message, when `left` bytes of the loop (this one included) and `after` bytes of the
message behind them are still to be read. -/
def readOne (cb : CircBuffer) (incomingSize left after consumed : Nat) : Scan (Byte × Nat) :=
  let c := cbFront cb consumed
  let consumed := consumed + 1
  if c = escapeChar then
    if consumed + left + after + 2 > incomingSize then .again
    else
      let c := cbFront cb consumed
      if c ≠ escapeChar then .fail else .done (c, consumed + 1)
  else .done (c, consumed)

/-- The loops of `serial_recvmsg` over the channel and over the data; the second one is `guarded`.
`i` is the loop index, and `left` what it is away from its end. -/
def readEscaped (cb : CircBuffer) (incomingSize : Nat) (guarded : Bool) (after : Nat) :
    Nat → Nat → Cursor → Scan Cursor
  | 0, _, cur => .done cur
  | left + 1, i, cur =>
      if guarded ∧ cur.consumed > incomingSize then .again
      else (readOne cb incomingSize (left + 1) after cur.consumed).bind fun (c, consumed) =>
        if i + 1 = intLimit then .overflow
        else readEscaped cb incomingSize guarded after left (i + 1)
          ⟨consumed, fletcherUpdate c cur.checksum, cur.out ++ [c]⟩

def lengthField (b0 b1 b2 b3 : Byte) : BitVec 32 :=
  (b0.setWidth 32 <<< 24) ||| (b1.setWidth 32 <<< 16) ||| (b2.setWidth 32 <<< 8) ||| b3.setWidth 32

def recvChecksum (cb : CircBuffer) (chan : List Byte) (cur : Cursor) : Scan (Msg × Nat) :=
  let expectedHighCS := cbFront cb cur.consumed
  let expectedLowCS := cbFront cb (cur.consumed + 1)
  let receivedCS := (expectedHighCS.setWidth 16 <<< 8) ||| expectedLowCS.setWidth 16
  if receivedCS = cur.checksum then .done (⟨CString.ofBytes chan, cur.out⟩, cur.consumed + 2)
  else .fail

def recvData (cb : CircBuffer) (incomingSize len : Nat) (chan : Cursor) : Scan (Msg × Nat) :=
  (readEscaped cb incomingSize true 0 len 0 { chan with out := [] }).bind (recvChecksum cb chan.out)

def recvChannel (cb : CircBuffer) (incomingSize chanLen len : Nat) : Scan (Msg × Nat) :=
  (readEscaped cb incomingSize false len chanLen 0 ⟨7, 0xffff, []⟩).bind (recvData cb incomingSize len)

def recvAttempt (zt : GenericSerial) : Scan (Msg × Nat) :=
  let cb := zt.recvBuffer
  let incomingSize := cbSize cb
  if incomingSize < frameBytes then .again
  else if cbFront cb 0 ≠ escapeChar then .fail
  else if cbFront cb 1 ≠ 0x00 then .fail
  else
    let chanLen := (cbFront cb 2).toNat
    let len := (lengthField (cbFront cb 3) (cbFront cb 4) (cbFront cb 5) (cbFront cb 6)).toNat
    if chanLen > channelMaxlen then .fail
    else if len > zt.mtu then .fail
    else if incomingSize < frameBytes + chanLen + len then .again
    else recvChannel cb incomingSize chanLen len

def resync : Nat → CircBuffer → Option CircBuffer
  | 0, _ => none
  | fuel + 1, cb =>
      let cb := cbPopFront cb 1
      if cbSize cb ≠ 0 ∧ cbFront cb 0 ≠ escapeChar then resync fuel cb else some cb

inductive Recv
  | eok (msg : Msg) (utime : Nat)
  | eagain
  | overflow

/-- The call, with a bound on its restarts; `time` is the clock it reads at each of them. No result
means that the bound was too small. -/
def serialRecvmsg (time : Nat → Nat) : Nat → GenericSerial → Option (Recv × GenericSerial)
  | 0, _ => none
  | fuel + 1, zt =>
      match recvAttempt zt with
      | .done (msg, consumed) =>
          some (.eok msg (time fuel), { zt with recvBuffer := cbPopFront zt.recvBuffer consumed })
      | .again => some (.eagain, zt)
      | .overflow => some (.overflow, zt)
      | .fail =>
          (resync fuel zt.recvBuffer).bind fun cb => serialRecvmsg time fuel { zt with recvBuffer := cb }

def serialUpdateRx (zt : GenericSerial) (first second : Nat) (input : List Byte) :
    GenericSerial × List Byte :=
  let r := cbFlushIn zt.recvBuffer first second input
  ({ zt with recvBuffer := r.1 }, r.2)

def serialUpdateTx (zt : GenericSerial) (first second : Nat) : List Byte × GenericSerial :=
  let r := cbFlushOut zt.sendBuffer first second
  (r.1, { zt with sendBuffer := r.2 })

end Zcm.Serial
