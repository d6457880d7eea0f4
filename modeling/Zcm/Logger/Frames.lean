import Zcm.Eventlog.Log

namespace Zcm.Logger
open Zcm.Lib Zcm.Eventlog

def ascii (cs : List Char) : List Byte := cs.map fun c => BitVec.ofNat 8 c.toNat

def controlMagic : List Byte := ascii ['L', 'G', 'C', 'P']

def controlRequestChannel : List Byte :=
  ascii ['l', 'o', 'g', 'g', 'e', 'r', '_', 'c', 'o', 'n', 't', 'r', 'o', 'l', '_', 'v', '1']

def barrierMarkerChannel : List Byte :=
  ascii ['l', 'o', 'g', 'g', 'e', 'r', '_', 'c', 'y', 'c', 'l', 'e', '_', 'b', 'a', 'r', 'r', 'i', 'e', 'r', '_',
    'v', '1']

def controlVersion : BitVec 16 := 1

def msgCycleRequest : BitVec 16 := 2

def errBusyWithOtherCycle : BitVec 32 := 1

def errRotateOpenFailed : BitVec 32 := 3

def errControlProtocolInternal : BitVec 32 := 4

def internalBarrierEventnum : BitVec 64 := -1

def controlHeaderSize : Nat := 12

def cycleRequestFrameSize : Nat := controlHeaderSize + 8 + 8 + 8 + 8

structure CycleId where
  sessionId : BitVec 64
  seq : BitVec 64
deriving DecidableEq

structure CycleRequestFrame where
  cycle : CycleId
  cycleReason : BitVec 64
  requestRobotTimeUs : BitVec 64
deriving DecidableEq

def readBe (data : List Byte) (offset n : Nat) : Nat := ofBe ((data.drop offset).take n)

def parseCycleRequestFrame (data : List Byte) : Option CycleRequestFrame :=
  if data.length ≠ cycleRequestFrameSize then none
  else if data.take 4 ≠ controlMagic then none
  else if BitVec.ofNat 16 (readBe data 4 2) ≠ controlVersion then none
  else if BitVec.ofNat 16 (readBe data 6 2) ≠ msgCycleRequest then none
  else if readBe data 8 4 ≠ data.length then none
  else some
    { cycle :=
        ⟨BitVec.ofNat 64 (readBe data controlHeaderSize 8), BitVec.ofNat 64 (readBe data (controlHeaderSize + 8) 8)⟩
      cycleReason := BitVec.ofNat 64 (readBe data (controlHeaderSize + 16) 8)
      requestRobotTimeUs := BitVec.ofNat 64 (readBe data (controlHeaderSize + 24) 8) }

def CycleRequestFrame.bytes (request : CycleRequestFrame) : List Byte :=
  controlMagic ++ toBe 2 controlVersion.toNat ++ toBe 2 msgCycleRequest.toNat ++ toBe 4 cycleRequestFrameSize ++
    toBe 8 request.cycle.sessionId.toNat ++ toBe 8 request.cycle.seq.toNat ++ toBe 8 request.cycleReason.toNat ++
    toBe 8 request.requestRobotTimeUs.toNat

abbrev Name := List Byte

inductive Frame
  | ready (sessionId : BitVec 64)
  | cycleComplete (cycle : CycleId) (oldFile newFile : Name)
  | cycleError (cycle : CycleId) (code : BitVec 32) (message : String)
deriving DecidableEq

section Barriers

def isInternalBarrier (le : Event) : Bool := le.eventnum = internalBarrierEventnum ∧ le.channel = barrierMarkerChannel

/-- An event of the log's channels. The number of a received event is 0. -/
structure DataEvent where
  event : Event
  data : isInternalBarrier event = false

def barrier (recvUtime : BitVec 64) (data : List Byte) : Event :=
  ⟨internalBarrierEventnum, recvUtime, barrierMarkerChannel, data⟩

@[simp] theorem barrier_isInternalBarrier (recvUtime : BitVec 64) (data : List Byte) :
    isInternalBarrier (barrier recvUtime data) = true := by
  simp [isInternalBarrier, barrier]

end Barriers

end Zcm.Logger
