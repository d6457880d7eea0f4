import Zcm.Logger.Files

/-!
# The logger

The handlers of the transports put events into a queue and the main thread writes them to the log file. A
cycle request puts a barrier into the queue, and the main thread starts a new file behind it. A step is a
call of the handler, a signal, or what the main thread does between two times that it takes the lock.
-/

namespace Zcm.Logger
open Zcm.Lib Zcm.Eventlog

structure ReceiveBuffer where
  recvUtime : BitVec 64
  data : List Byte

structure Completed where
  cycle : CycleId
  oldFile : Name
  newFile : Name
deriving DecidableEq

inductive Pc
  | looping
  | popped (le : Event)
  | written (request : CycleRequestFrame) -- the barrier is in the old file
  | rotated (request : CycleRequestFrame) (oldFile newFile : Name)
  | recorded (request : CycleRequestFrame) (oldFile newFile : Name)
  | stopping -- behind the loop, the transports stop and flush
  | returned
  | exited
deriving DecidableEq

/-- The logger, and the history of what it pushed, wrote and rotated, and of what it sent. An event is
written with the number of the file, which is the number of splits before it. -/
structure State where
  files : Files
  logsize : Nat
  numSplits : Nat
  totalMemoryUsage : Int
  q : List Event
  pendingCycleValid : Bool
  pendingCycle : CycleId
  completed : Option Completed
  done : Nat
  gotSighup : Bool
  pc : Pc
  pushed : List Event
  written : List (Event × Nat)
  rotations : List (Completed × Nat)
  sent : List Frame

inductive Errno
  | enospc | other
deriving DecidableEq

/-- What the system answers to the calls of one step. `errno` is tested behind the reports of a write that failed and
behind the control frame about it, and a call of these that fails overwrites it. -/
structure Outcome where
  first : Opening
  second : Opening
  writeFails : Option Errno
  overwrites : Option Errno
  sends : Bool

def Outcome.isFull (o : Outcome) (errno : Errno) : Bool := o.overwrites.getD errno = .enospc

inductive Action
  | handler (rbuf : ReceiveBuffer) (channel : List Byte) (transcoded : List (Option DataEvent)) (sends : Bool)
  | sigterm
  | sighup
  | main (o : Outcome)

section Program

variable (args : Args) (sizeofLogEvent : Nat) (rounds : Nat)

def memory (le : Event) : Int := le.data.length + le.channel.length + sizeofLogEvent

namespace State

def exit (s : State) : State := { s with pc := .exited }

def sendControlFrame (sends : Bool) (frame : Frame) (s : State) : Bool × State :=
  if !args.controlEnabled then (true, s)
  else if sends then (true, { s with sent := s.sent ++ [frame] })
  else (false, s)

section Handler

def enqueueBarrier (rbuf : ReceiveBuffer) (request : CycleRequestFrame) (s : State) : State :=
  let le := barrier rbuf.recvUtime rbuf.data
  { s with
    q := s.q ++ [le]
    totalMemoryUsage := s.totalMemoryUsage + memory sizeofLogEvent le
    pendingCycleValid := true
    pendingCycle := request.cycle
    pushed := s.pushed ++ [le] }

def handleCycleRequest (rbuf : ReceiveBuffer) (sends : Bool) (s : State) : State :=
  match parseCycleRequestFrame rbuf.data with
  | none => s
  | some request =>
      if request.cycle.sessionId ≠ args.controlSessionId then s
      else if s.pendingCycleValid then
        if s.pendingCycle = request.cycle then s
        else
          let (sent, s) := s.sendControlFrame args sends
            (.cycleError request.cycle errBusyWithOtherCycle "logger busy with another cycle")
          if sent then s else s.exit
      else
        match s.completed with
        | some c =>
            if c.cycle = request.cycle then
              let (sent, s) := s.sendControlFrame args sends (.cycleComplete request.cycle c.oldFile c.newFile)
              if sent then s else s.exit
            else s.enqueueBarrier sizeofLogEvent rbuf request
        | none => s.enqueueBarrier sizeofLogEvent rbuf request

def push (le : Event) (s : State) : State :=
  { s with
    q := s.q ++ [le]
    totalMemoryUsage := s.totalMemoryUsage + memory sizeofLogEvent le
    pushed := s.pushed ++ [le] }

def pushEvents (dataSize : Nat) : List (Option DataEvent) → State → State
  | [], s => s
  | none :: evts, s => pushEvents dataSize evts s
  | some le :: evts, s =>
      let s := s.push sizeofLogEvent le.event
      let stillRoom := args.maxTargetMemory = 0 ∨ s.totalMemoryUsage + dataSize < args.maxTargetMemory
      if stillRoom then pushEvents dataSize evts s else s

def received (rbuf : ReceiveBuffer) (channel : List Byte) : DataEvent where
  event := ⟨0, rbuf.recvUtime, (args.channelRenames.lookup channel).getD channel, rbuf.data⟩
  data := by simp [isInternalBarrier, internalBarrierEventnum]

def handler (rbuf : ReceiveBuffer) (channel : List Byte) (transcoded : List (Option DataEvent)) (sends : Bool)
    (s : State) :
    State :=
  if channel = controlRequestChannel then s.handleCycleRequest args sizeofLogEvent rbuf sends
  else
    let evts := if transcoded.isEmpty then [some (received args rbuf channel)] else transcoded
    s.pushEvents args sizeofLogEvent rbuf.data.length evts.reverse

end Handler

section Main

def writeEvent (le : Event) (s : State) : State :=
  { s with
    files := { s.files with
      dir := Function.update s.files.dir s.files.filename (some ((s.files.dir s.files.filename).getD [] ++ [le])) }
    logsize := s.logsize + (4 + 8 + 8 + 4 + le.channel.length + 4 + le.data.length)
    written := s.written ++ [(le, s.numSplits)] }

def startedLog (files : Files) (s : State) : State :=
  { s with files := files, numSplits := s.numSplits + 1, logsize := 0 }

/-- A new file for the events to come, if it is time for one. Without it the program exits, which is the
result `some none`. -/
def splitLog (due : Bool) (o : Opening) (s : State) : Option (Option State) :=
  if due then (nextLogfile args rounds o s.files).map (Option.map fun files => s.startedLog files) else some (some s)

def writeData (o : Outcome) (le : Event) (s : State) : Option State :=
  match s.splitLog args rounds (args.autoSplit s.logsize) o.first with
  | none => none
  | some none => some s.exit
  | some (some s) =>
      match s.splitLog args rounds s.gotSighup o.second with
      | none => none
      | some none => some s.exit
      | some (some s) =>
          let s := { s with gotSighup := false }
          match o.writeFails with
          | none => some { s.writeEvent le with pc := .looping }
          | some errno => some (if o.isFull errno then s.exit else { s with pc := .looping })

def writeBarrier (o : Outcome) (le : Event) (s : State) : State :=
  match parseCycleRequestFrame le.data with
  | none =>
      (s.sendControlFrame args o.sends
        (.cycleError ⟨args.controlSessionId, s.pendingCycle.seq⟩ errControlProtocolInternal
        "invalid internal barrier payload")).2.exit
  | some request =>
      match o.writeFails with
      | none => { s.writeEvent le with pc := .written request }
      | some errno =>
          let s := (s.sendControlFrame args o.sends (.cycleError request.cycle errControlProtocolInternal
            "failed to write cycle barrier marker")).2
          if o.isFull errno then s.exit else { s with pc := .looping }

def rotateLog (o : Outcome) (request : CycleRequestFrame) (s : State) : Option State :=
  match nextLogfile args rounds o.first s.files with
  | none => none
  | some none =>
      some (s.sendControlFrame args o.sends (.cycleError request.cycle errRotateOpenFailed
        "failed to open rotated log file")).2.exit
  | some (some files) =>
      some { s.startedLog files with
        pc := .rotated request s.files.filename files.filename
        rotations := s.rotations ++ [(⟨request.cycle, s.files.filename, files.filename⟩, s.numSplits)] }

def recordCycle (request : CycleRequestFrame) (oldFile newFile : Name) (s : State) : State :=
  { s with
    pendingCycleValid := false
    completed := some ⟨request.cycle, oldFile, newFile⟩
    pc := .recorded request oldFile newFile }

def completeCycle (o : Outcome) (request : CycleRequestFrame) (oldFile newFile : Name) (s : State) : State :=
  let (sent, s) := s.sendControlFrame args o.sends (.cycleComplete request.cycle oldFile newFile)
  if sent then { s with pc := .looping } else s.exit

def popEvent (s : State) : State :=
  if s.done > 0 then { s with pc := .stopping }
  else
    match s.q with
    | [] => s
    | le :: q => { s with q := q, totalMemoryUsage := s.totalMemoryUsage - memory sizeofLogEvent le, pc := .popped le }

def returnFromMain (s : State) : State := { s with pc := .returned, q := [] }

def mainStep (o : Outcome) (s : State) : Option State :=
  match s.pc with
  | .looping => some (s.popEvent sizeofLogEvent)
  | .popped le => if isInternalBarrier le then some (s.writeBarrier args o le) else s.writeData args rounds o le
  | .written request => s.rotateLog args rounds o request
  | .rotated request oldFile newFile => some (s.recordCycle request oldFile newFile)
  | .recorded request oldFile newFile => some (s.completeCycle args o request oldFile newFile)
  | .stopping => some s.returnFromMain
  | .returned => none
  | .exited => none

end Main

section Signals

def sighandler (s : State) : State :=
  let s := { s with done := s.done + 1 }
  if s.done = 3 then s.exit else s

def sighupHandler (s : State) : State :=
  if !args.autoIncrement && args.rotate ≤ 0 then s else { s with gotSighup := true }

end Signals

def running (s : State) : Bool :=
  match s.pc with
  | .returned | .exited => false
  | _ => true

def next (s : State) (a : Action) : Option State :=
  if !s.running then none
  else
    match a with
    | .handler rbuf channel transcoded sends => some (s.handler args sizeofLogEvent rbuf channel transcoded sends)
    | .sigterm => some s.sighandler
    | .sighup => some (s.sighupHandler args)
    | .main o => s.mainStep args sizeofLogEvent rounds o

def start (dir : Dir) (o : Opening) (sends : Bool) : Option State :=
  match openLogfile args rounds o ⟨dir, [], [], 0⟩ with
  | some (some files) =>
      let s : State :=
        { files := files, logsize := 0, numSplits := 0, totalMemoryUsage := 0, q := [], pendingCycleValid := false
          pendingCycle := ⟨0, 0⟩, completed := none, done := 0, gotSighup := false, pc := .looping, pushed := []
          written := [], rotations := [], sent := [] }
      let (sent, s) := s.sendControlFrame args sends (.ready args.controlSessionId)
      if sent then some s else none
  | _ => none

end State

end Program

end Zcm.Logger
