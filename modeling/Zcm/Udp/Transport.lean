import Zcm.Udp.Buffers

namespace Zcm.Udp
open Zcm.Lib

def mtu : Nat := 2 ^ 28

def channelMaxlen : Nat := 32

def maxFragBufTotalSize : Nat := 2 ^ 24

def maxNumFragBufs : Nat := 1000

structure Message where
  utime : Int
  -- The channel with its terminator.
  channel : List Byte
  data : List Byte
deriving DecidableEq

structure Accepted where
  msgSeqno : Nat
  dataSize : Nat
  fragmentOffset : Nat
  fragmentNo : Nat
  fragmentsInMsg : Nat
  channelSz : Nat
  dataStart : Nat
  fragSize : Nat
deriving DecidableEq

/-- Where the payload starts in a fragment buffer: the channel and its terminator fit before it. -/
def payloadOffset (dataSize : Nat) : Nat := min (channelMaxlen + 1) (mtu - dataSize)

def checkRange (a : Accepted) : Option Accepted :=
  if a.fragmentOffset > a.dataSize ∨ a.fragSize > a.dataSize - a.fragmentOffset ∨
      (a.fragmentNo ≠ 0 ∧ a.fragSize = 0) ∨
      (a.fragmentNo + 1 = a.fragmentsInMsg ∧ a.fragmentOffset + a.fragSize ≠ a.dataSize) then none
  else some a

def checkPacket (pkt : Packet) : Option Accepted :=
  if pkt.sz < sizeofMsgHeaderLong then none
  else
    let a : Accepted :=
      { msgSeqno := pkt.getMsgSeqno
        dataSize := pkt.getMsgSize
        fragmentOffset := pkt.getFragmentOffset
        fragmentNo := pkt.getFragmentNo
        fragmentsInMsg := pkt.getFragmentsInMsg
        channelSz := 0
        dataStart := sizeofMsgHeaderLong
        fragSize := pkt.getFragmentSize }
    if a.dataSize > mtu ∨ a.fragmentsInMsg = 0 ∨ a.fragmentNo ≥ a.fragmentsInMsg then none
    else if a.fragmentNo = 0 then
      match memchrNul pkt.buf a.dataStart (min a.fragSize (payloadOffset a.dataSize)) with
      | none => none
      | some channelSz =>
          if a.fragmentOffset ≠ 0 then none
          else checkRange { a with
            channelSz := channelSz
            dataStart := a.dataStart + (channelSz + 1)
            fragSize := a.fragSize - (channelSz + 1) }
    else checkRange a

inductive Deposit
  | duplicate
  | conflict
  | stored (fbuf : FragBuf)

def sameAsStored (fbuf : FragBuf) (fragment : Fragment) (pkt : Packet) (a : Accepted) : Bool :=
  fragment.offset = a.fragmentOffset ∧ fragment.size = a.fragSize ∧
    fbuf.buf.read (payloadOffset a.dataSize + a.fragmentOffset) a.fragSize =
      pkt.buf.read a.dataStart a.fragSize ∧
    (a.fragmentNo = 0 → fbuf.channellen = a.channelSz ∧
      fbuf.buf.read 0 (a.channelSz + 1) = pkt.buf.read sizeofMsgHeaderLong (a.channelSz + 1))

def meetsNeighbours (fbuf : FragBuf) (a : Accepted) : Bool :=
  (a.fragmentNo = 0 ||
      (fbuf.fragments[a.fragmentNo - 1]?).all fun prev =>
        !prev.received || prev.offset + prev.size = a.fragmentOffset) &&
    (a.fragmentNo + 1 ≥ a.fragmentsInMsg ||
      (fbuf.fragments[a.fragmentNo + 1]?).all fun next =>
        !next.received || a.fragmentOffset + a.fragSize = next.offset)

def FragBuf.store (fbuf : FragBuf) (pkt : Packet) (a : Accepted) (now : Int) : FragBuf :=
  let withChannel :=
    if a.fragmentNo = 0 then fbuf.buf.write 0 (pkt.buf.read sizeofMsgHeaderLong (a.channelSz + 1))
    else fbuf.buf
  { fbuf with
    channellen := if a.fragmentNo = 0 then a.channelSz else fbuf.channellen
    buf := withChannel.write (payloadOffset a.dataSize + a.fragmentOffset) (pkt.buf.read a.dataStart a.fragSize)
    fragments := fbuf.fragments.set a.fragmentNo ⟨a.fragmentOffset, a.fragSize, true⟩
    lastPacketUtime := pkt.utime
    lastProgress := now
    -- a 16-bit counter
    fragmentsRemaining := (fbuf.fragmentsRemaining + (2 ^ 16 - 1)) % 2 ^ 16 }

def FragBuf.deposit (fbuf : FragBuf) (pkt : Packet) (a : Accepted) (now : Int) : Deposit :=
  match fbuf.fragments[a.fragmentNo]? with
  -- not for a buffer with room for all fragments of the message
  | none => .conflict
  | some fragment =>
      if fragment.received then
        if sameAsStored fbuf fragment pkt a then .duplicate else .conflict
      else if meetsNeighbours fbuf a then .stored (fbuf.store pkt a now)
      else .conflict

def FragBuf.message (fbuf : FragBuf) : Message where
  utime := fbuf.lastPacketUtime
  channel := fbuf.buf.read 0 (fbuf.channellen + 1)
  data := fbuf.buf.read (payloadOffset fbuf.dataSize) fbuf.dataSize

structure UDP where
  pool : MessagePool
  udpDiscardedBad : Nat

def UDP.new : UDP := ⟨MessagePool.new maxFragBufTotalSize maxNumFragBufs, 0⟩

def UDP.discard (udp : UDP) : UDP := { udp with udpDiscardedBad := udp.udpDiscardedBad + 1 }

def depositAt (udp : UDP) (idx : Nat) (fbuf : FragBuf) (pkt : Packet) (a : Accepted) (now : Int) :
    Option Message × UDP :=
  match fbuf.deposit pkt a now with
  | .duplicate => (none, udp)
  | .conflict => (none, { udp with pool := udp.pool.removeFragBuf idx }.discard)
  | .stored fbuf =>
      let pool := { udp.pool with fragbufs := udp.pool.fragbufs.set idx fbuf }
      if fbuf.fragmentsRemaining > 0 then (none, { udp with pool := pool })
      else (some fbuf.message, { udp with pool := pool.removeFragBuf idx })

/-- `now` is the clock and `left` what is in the memory that a new fragment buffer gets. -/
def recvFragment (udp : UDP) (pkt : Packet) (now : Int) (left : Mem Byte) : Option Message × UDP :=
  match checkPacket pkt with
  | none => (none, udp.discard)
  | some a =>
      match udp.pool.lookupFragBuf pkt.fromAddr a.msgSeqno with
      | some idx =>
          match udp.pool.fragbufs[idx]? with
          | none => (none, udp)
          | some fbuf =>
              if fbuf.dataSize ≠ a.dataSize ∨ fbuf.fragments.length ≠ a.fragmentsInMsg then
                (none, { udp with pool := udp.pool.removeFragBuf idx }.discard)
              else depositAt udp idx fbuf pkt a now
      | none =>
          let (pool, fbuf) :=
            udp.pool.addFragBuf (payloadOffset a.dataSize + a.dataSize) a.fragmentsInMsg now left
          let idx := pool.fragbufs.length - 1
          let fbuf := { fbuf with
            msgSeqno := a.msgSeqno
            dataSize := a.dataSize
            fragmentsRemaining := a.fragmentsInMsg
            fromAddr := pkt.fromAddr }
          depositAt { udp with pool := { pool with fragbufs := pool.fragbufs.set idx fbuf } } idx fbuf pkt a now

end Zcm.Udp
