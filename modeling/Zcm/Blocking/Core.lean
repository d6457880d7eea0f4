import Zcm.Lib.Runs
import Zcm.Util.ThreadsafeQueue

/-!
# The blocking core

`zcm_blocking` as a set of threads that take turns. A thread is where it is in its code (`Pc`), and
one step runs it to the end of the next critical section of a state mutex or of a queue's mutex,
through one lock or unlock of the mutexes that are held longer (`recvModeMutex`, `sendOneMutex`,
`dispOneMutex`), or through one join. A `notify_all` belongs to the step before it.

A thread that finds the condition of `sendPauseCond` or `hndlPauseCond` false holds the state mutex
until it sleeps, and then stays asleep until it is notified. In a queue every change that lets a
waiting thread go on notifies it, and a wait there is a step that is possible when its condition
holds.

Any number of application threads call the API; the send, receive and handle threads are the
instance's own. `run()` executes the handle thread's code in its caller.
-/

namespace Zcm.Blocking
open Zcm.Lib Zcm.Util

structure Msg where
  utime : Nat
  channel : List (BitVec 8)
  buf : List (BitVec 8)
deriving DecidableEq

inductive ThreadState
  | stopped | running | halting | halted
deriving DecidableEq

inductive RecvMode
  | none | run | spawn | handle
deriving DecidableEq

inductive Ret
  | eok | eagain | einvalid
deriving DecidableEq

inductive Agent
  | sender | receiver | handler
  | api (id : Nat)
deriving DecidableEq

inductive PauseCond
  | send | hndl
deriving DecidableEq

inductive SendCaller
  | thread
  | flush (block : Bool) (left : Nat)

inductive DispCaller
  | thread
  | handle
  | flush (left : Nat)

inductive Pc
  -- Between two calls, with what the last one returned; or a thread that does not run.
  | idle (last : Option Ret)
  | publishSpawn (m : Msg) | publishPush (m : Msg)
  | startMode | startSpawn
  | runMode | runSpawn | runRestore
  | handleMode (nonblock : Bool) | handleSpawn (nonblock : Bool) | handleLock (nonblock : Bool)
  | handlePoll
  | pause | resume
  | stopMode (block : Bool) | stopRecv (block : Bool)
  | stopJoinHndl | stopHndlStopped | stopJoinRecv | stopRecvStopped
  | stopSend (block : Bool) | stopJoinSend | stopSendStopped
  | stopPollRecv | stopPollSend | stopRestore
  | flushDisableSend (block : Bool) | flushLockSend (block : Bool) | flushBackoffSend
  | flushEnableSend (block : Bool) | flushCountSend (block : Bool)
  | flushDisableRecv (block : Bool) | flushLockRecv (block : Bool) | flushBackoffRecv
  | flushEnableRecv | flushCountRecv
  | resizeCheckSend (n : Nat) (block : Bool) | resizeDisableSend (n : Nat) (block : Bool)
  | resizeLockSend (n : Nat) (block : Bool) | resizeBackoffSend
  | resizeSetSend (n : Nat) (block : Bool) | resizeEnableSend (n : Nat) (block : Bool)
  | resizeUnlockSend (n : Nat) (block : Bool)
  | resizeCheckRecv (n : Nat) (block : Bool) | resizeDisableRecv (n : Nat) (block : Bool)
  | resizeLockRecv (n : Nat) (block : Bool) | resizeBackoffRecv
  | resizeSetRecv (n : Nat) | resizeEnableRecv | resizeUnlockRecv
  -- In `sendOneMessage`, entered with `sendOneMutex` held.
  | sendTop (c : SendCaller) | sendCheck (c : SendCaller) (m : Option Msg)
  | sendTransmit (c : SendCaller) (m : Option Msg) | sendPop (c : SendCaller)
  | sendDone (c : SendCaller)
  | sendWait | sendLock | sendHalt
  | recvCheck | recvTransport | recvPush (m : Msg) | recvHalt
  -- In `dispatchOneMessage`, entered with `dispOneMutex` held.
  | dispTop (c : DispCaller) | dispCheck (c : DispCaller) (m : Option Msg)
  | dispMsg (c : DispCaller) (m : Option Msg) | dispPop (c : DispCaller)
  | dispDone (c : DispCaller) (dispatched : Bool)
  | hndlSpawn | hndlWait | hndlLock | hndlStopRecv | hndlJoinRecv | hndlHalt
  -- In a wait whose condition was false, with the state mutex held.
  | fallsAsleep (c : PauseCond)

namespace Pc

def waitsOn : Pc → Option PauseCond
  | .sendWait => some .send
  | .hndlWait => some .hndl
  | _ => none

def locks (mode : RecvMode) : Pc → List PauseCond
  | .publishSpawn _ | .stopSend _ | .stopSendStopped | .stopPollSend | .sendCheck .thread _ | .sendWait
  | .sendHalt => [.send]
  | .startSpawn | .runSpawn | .stopHndlStopped | .dispCheck .thread _ | .dispCheck .handle _ | .hndlWait
  | .hndlHalt => [.hndl]
  | .stopRecv _ => if mode = .run ∨ mode = .spawn then [.hndl] else []
  | .stopPollRecv => if mode = .spawn then [.hndl] else []
  | .pause | .resume => [.send, .hndl]
  | _ => []

end Pc

def PauseCond.wait : PauseCond → Pc
  | .send => .sendWait
  | .hndl => .hndlWait

inductive Call
  | publish (m : Msg)
  | start | run
  | handle | handleNonblock
  | stop (block : Bool)
  | pause | resume
  | flush (block : Bool)
  | setQueueSize (numMsgs : Nat) (block : Bool)

/-- The fields `sendThread`, `recvThread` and `hndlThread` say whether the thread object is joinable.
Assigning to a joinable thread object, or joining one that is not, ends the process (`crashed`). -/
structure State where
  mtu : Nat
  sendQueue : ThreadsafeQueue Msg
  recvQueue : ThreadsafeQueue Msg
  recvMode : RecvMode
  sendThreadState : ThreadState
  recvThreadState : ThreadState
  hndlThreadState : ThreadState
  paused : Bool
  sendThread : Bool
  recvThread : Bool
  hndlThread : Bool
  recvModeMutex : Option Agent
  sendOneMutex : Option Agent
  dispOneMutex : Option Agent
  stateMutex : PauseCond → Option Agent
  asleep : Agent → Bool
  sent : List Msg
  dispatched : List Msg
  crashed : Bool
  pc : Agent → Pc

def queueSize : Nat := 16

def channelMaxlen : Nat := 32

namespace State

def init (mtu : Nat) : State where
  mtu := mtu
  sendQueue := ThreadsafeQueue.new queueSize
  recvQueue := ThreadsafeQueue.new queueSize
  recvMode := .none
  sendThreadState := .stopped
  recvThreadState := .stopped
  hndlThreadState := .stopped
  paused := false
  sendThread := false
  recvThread := false
  hndlThread := false
  recvModeMutex := none
  sendOneMutex := none
  dispOneMutex := none
  stateMutex := fun _ => none
  asleep := fun _ => false
  sent := []
  dispatched := []
  crashed := false
  pc := fun _ => .idle none

def goto (s : State) (a : Agent) (p : Pc) : State := { s with pc := Function.update s.pc a p }

def ret (s : State) (a : Agent) (rc : Ret) : State := s.goto a (.idle (some rc))

def notify (s : State) (c : PauseCond) : State :=
  { s with asleep := fun b => s.asleep b && (s.pc b).waitsOn ≠ some c }

def spawnSend (s : State) : State :=
  { s with sendThread := true, crashed := s.crashed || s.sendThread }.goto .sender .sendWait

def spawnRecv (s : State) : State :=
  { s with recvThread := true, crashed := s.crashed || s.recvThread }.goto .receiver .recvCheck

def spawnHndl (s : State) : State :=
  { s with hndlThread := true, crashed := s.crashed || s.hndlThread }.goto .handler .hndlSpawn

def ended (s : State) (worker : Agent) : Bool :=
  match s.pc worker with
  | .idle _ => true
  | _ => false

def joinSend (s : State) : Option State :=
  if s.ended .sender then
    some { s with sendThread := false, crashed := s.crashed || !s.sendThread }
  else none

def joinRecv (s : State) : Option State :=
  if s.ended .receiver then
    some { s with recvThread := false, crashed := s.crashed || !s.recvThread }
  else none

def joinHndl (s : State) : Option State :=
  if s.ended .handler then
    some { s with hndlThread := false, crashed := s.crashed || !s.hndlThread }
  else none

def enter (s : State) (a : Agent) : Call → State
  | .publish m =>
      if m.buf.length > s.mtu then s.ret a .einvalid
      else if m.channel.length > channelMaxlen then s.ret a .einvalid
      else s.goto a (.publishSpawn m)
  | .start => s.goto a .startMode
  | .run => s.goto a .runMode
  | .handle => s.goto a (.handleMode false)
  | .handleNonblock => s.goto a (.handleMode true)
  | .stop block => s.goto a (.stopMode block)
  | .pause => s.goto a .pause
  | .resume => s.goto a .resume
  | .flush block => s.goto a (.flushDisableSend block)
  | .setQueueSize n block => s.goto a (.resizeCheckSend n block)

def stepPublish (s : State) (a : Agent) (m : Msg) : State :=
  (if s.sendThreadState = .stopped then { s with sendThreadState := .running }.spawnSend else s).goto a
    (.publishPush m)

def stepPush (s : State) (a : Agent) (m : Msg) : State :=
  let pushed := s.sendQueue.pushIfRoom m
  { s with sendQueue := pushed.2 }.ret a (if pushed.1 then .eok else .eagain)

def stepMode (s : State) (a : Agent) (mode : RecvMode) (next : Pc) : Option State :=
  if s.recvModeMutex.isSome then none
  else if s.recvMode ≠ .none then some (s.goto a (.idle none))
  else some ({ s with recvMode := mode, recvModeMutex := some a }.goto a next)

def stepHandleMode (s : State) (a : Agent) (nonblock : Bool) : Option State :=
  if s.recvModeMutex.isSome then none
  else match s.recvMode with
    | .none => some ({ s with recvMode := .handle, recvModeMutex := some a }.goto a (.handleSpawn nonblock))
    | .handle => some (s.goto a (.handleLock nonblock))
    | _ => some (s.ret a .einvalid)

def stepStopRecv (s : State) (a : Agent) (block : Bool) : State :=
  match s.recvMode with
  | .run | .spawn =>
      if s.hndlThreadState = .running then
        ({ s with hndlThreadState := .halting, recvQueue := s.recvQueue.disable }.notify .hndl).goto a
          (if block ∧ s.recvMode = RecvMode.spawn then .stopJoinHndl else .stopSend block)
      else s.goto a (.stopSend block)
  | .handle =>
      if s.recvThreadState = .running then
        { s with recvThreadState := .halting, recvQueue := s.recvQueue.disable }.goto a
          (if block then .stopJoinRecv else .stopSend block)
      else s.goto a (.stopSend block)
  | .none => s.goto a (.stopSend block)

def stepStopSend (s : State) (a : Agent) (block : Bool) : State :=
  if s.sendThreadState = .running then
    ({ s with sendThreadState := .halting, sendQueue := s.sendQueue.disable }.notify .send).goto a
      (if block then .stopJoinSend else .stopPollRecv)
  else s.goto a (if block then .stopRestore else .stopPollRecv)

def stepStopPollRecv (s : State) (a : Agent) : Option State :=
  match s.recvMode with
  | .spawn =>
      if s.hndlThreadState = .halting then some ({ s with recvModeMutex := none }.ret a .eagain)
      else if s.hndlThreadState = .halted then
        s.joinHndl.map fun s => { s with hndlThreadState := .stopped }.goto a .stopPollSend
      else some (s.goto a .stopPollSend)
  | .handle =>
      if s.recvThreadState = .halting then some ({ s with recvModeMutex := none }.ret a .eagain)
      else if s.recvThreadState = .halted then
        s.joinRecv.map fun s => { s with recvThreadState := .stopped }.goto a .stopPollSend
      else some (s.goto a .stopPollSend)
  | _ => some (s.goto a .stopPollSend)

def stepStopPollSend (s : State) (a : Agent) : Option State :=
  if s.sendThreadState = .halting then some ({ s with recvModeMutex := none }.ret a .eagain)
  else if s.sendThreadState = .halted then
    s.joinSend.map fun s => { s with sendThreadState := .stopped }.goto a .stopRestore
  else some (s.goto a .stopRestore)

def stepLockSend (s : State) (a : Agent) (block : Bool) (next backoff : Pc) : Option State :=
  if s.sendOneMutex.isNone then some ({ s with sendOneMutex := some a }.goto a next)
  else if block then none
  else some (s.goto a backoff)

def stepLockDisp (s : State) (a : Agent) (block : Bool) (next backoff : Pc) : Option State :=
  if s.dispOneMutex.isNone then some ({ s with dispOneMutex := some a }.goto a next)
  else if block then none
  else some (s.goto a backoff)

def flushSend (block : Bool) (left : Nat) : Pc :=
  if left = 0 then .sendDone (.flush block 0) else .sendTop (.flush block left)

def flushDisp (left : Nat) : Pc :=
  if left = 0 then .dispDone (.flush 0) true else .dispTop (.flush left)

def sendNext : SendCaller → Pc
  | .thread => .sendDone .thread
  | .flush block left => flushSend block (left - 1)

def dispNext (dispatched : Bool) : DispCaller → Pc
  | .flush left => flushDisp (left - 1)
  | c => .dispDone c dispatched

def stepSendTop (s : State) (a : Agent) (c : SendCaller) : Option State :=
  s.sendQueue.top.map fun
    | .null => s.goto a (sendNext c)
    | .elt m => s.goto a (.sendCheck c m)

def stepSendCheck (s : State) (a : Agent) (c : SendCaller) (m : Option Msg) : State :=
  match c with
  | .thread =>
      if s.paused || s.sendThreadState = .halting then s.goto a (sendNext c)
      else s.goto a (.sendTransmit c m)
  | .flush .. => s.goto a (.sendTransmit c m)

def stepSendDone (s : State) (a : Agent) : SendCaller → State
  | .thread => { s with sendOneMutex := none }.goto a .sendWait
  | .flush block _ => ({ s with sendOneMutex := none }.notify .send).goto a (.flushDisableRecv block)

def mayGoOn (s : State) : PauseCond → Bool
  | .send => (!s.paused && s.sendQueue.isEnabled) || s.sendThreadState = .halting
  | .hndl => (!s.paused && s.recvQueue.isEnabled) || s.hndlThreadState = .halting

def stepWait (s : State) (a : Agent) (c : PauseCond) (next : Pc) : Option State :=
  if s.asleep a then none
  else if s.mayGoOn c then some (s.goto a next)
  else some ({ s with stateMutex := Function.update s.stateMutex c (some a) }.goto a (.fallsAsleep c))

def stepFallsAsleep (s : State) (a : Agent) (c : PauseCond) : State :=
  { s with stateMutex := Function.update s.stateMutex c none, asleep := Function.update s.asleep a true }.goto a
    c.wait

def stepSendWait (s : State) (a : Agent) : Option State :=
  s.stepWait a .send (if s.sendThreadState = .halting then .sendHalt else .sendLock)

def stepDispTop (s : State) (a : Agent) (c : DispCaller) : Option State :=
  s.recvQueue.top.map fun
    | .null => s.goto a (dispNext false c)
    | .elt m => s.goto a (.dispCheck c m)

def stepDispCheck (s : State) (a : Agent) (c : DispCaller) (m : Option Msg) : State :=
  match c with
  | .flush _ => s.goto a (.dispMsg c m)
  | _ =>
      if s.paused || s.hndlThreadState = .halting then s.goto a (dispNext false c)
      else s.goto a (.dispMsg c m)

def stepDispDone (s : State) (a : Agent) (dispatched : Bool) : DispCaller → State
  | .thread => { s with dispOneMutex := none }.goto a .hndlWait
  | .handle => { s with dispOneMutex := none }.ret a (if dispatched then .eok else .eagain)
  | .flush _ => ({ s with dispOneMutex := none }.notify .hndl).ret a .eok

def stepHndlWait (s : State) (a : Agent) : Option State :=
  s.stepWait a .hndl (if s.hndlThreadState = .halting then .hndlStopRecv else .hndlLock)

def stepRecvPush (s : State) (a : Agent) (m : Msg) : Option State :=
  (s.recvQueue.push m).map fun pushed => { s with recvQueue := pushed.2 }.goto a .recvCheck

def advance (s : State) (a : Agent) : Option State :=
  match s.pc a with
  | .idle _ => none
  | .publishSpawn m => some (s.stepPublish a m)
  | .publishPush m => some (s.stepPush a m)
  | .startMode => s.stepMode a .spawn .startSpawn
  | .startSpawn =>
      some ({ s with recvModeMutex := none, hndlThreadState := .running,
                     recvQueue := s.recvQueue.enable }.spawnHndl.goto a (.idle none))
  | .runMode => s.stepMode a .run .runSpawn
  | .runSpawn =>
      some ({ s with recvModeMutex := none, hndlThreadState := .running,
                     recvQueue := s.recvQueue.enable }.goto a .hndlSpawn)
  | .runRestore =>
      if s.recvModeMutex.isSome then none else some ({ s with recvMode := .none }.goto a (.idle none))
  | .handleMode nonblock => s.stepHandleMode a nonblock
  | .handleSpawn nonblock =>
      some ({ s with recvModeMutex := none, recvThreadState := .running,
                     recvQueue := s.recvQueue.enable }.spawnRecv.goto a (.handleLock nonblock))
  | .handleLock nonblock =>
      s.stepLockDisp a true (if nonblock then .handlePoll else .dispTop .handle) (.idle none)
  | .handlePoll =>
      if s.recvQueue.hasMessage then some (s.goto a (.dispTop .handle))
      else some ({ s with dispOneMutex := none }.ret a .eagain)
  | .pause => some ({ s with paused := true }.goto a (.idle none))
  | .resume => some ((({ s with paused := false }.notify .send).notify .hndl).goto a (.idle none))
  | .stopMode block =>
      if s.recvModeMutex.isSome then none
      else some ({ s with recvModeMutex := some a }.goto a (.stopRecv block))
  | .stopRecv block => some (s.stepStopRecv a block)
  | .stopJoinHndl => s.joinHndl.map (·.goto a .stopHndlStopped)
  | .stopHndlStopped => some ({ s with hndlThreadState := .stopped }.goto a (.stopSend true))
  | .stopJoinRecv => s.joinRecv.map (·.goto a .stopRecvStopped)
  | .stopRecvStopped => some ({ s with recvThreadState := .stopped }.goto a (.stopSend true))
  | .stopSend block => some (s.stepStopSend a block)
  | .stopJoinSend => s.joinSend.map (·.goto a .stopSendStopped)
  | .stopSendStopped => some ({ s with sendThreadState := .stopped }.goto a .stopRestore)
  | .stopPollRecv => s.stepStopPollRecv a
  | .stopPollSend => s.stepStopPollSend a
  | .stopRestore => some ({ s with recvMode := .none, recvModeMutex := none }.ret a .eok)
  | .flushDisableSend block =>
      some ({ s with sendQueue := s.sendQueue.disable }.goto a (.flushLockSend block))
  | .flushLockSend block => s.stepLockSend a block (.flushEnableSend block) .flushBackoffSend
  | .flushBackoffSend => some (({ s with sendQueue := s.sendQueue.enable }.notify .send).ret a .eagain)
  | .flushEnableSend block =>
      some ({ s with sendQueue := s.sendQueue.enable }.goto a (.flushCountSend block))
  | .flushCountSend block => some (s.goto a (flushSend block s.sendQueue.numMessages))
  | .flushDisableRecv block =>
      some ({ s with recvQueue := s.recvQueue.disable }.goto a (.flushLockRecv block))
  | .flushLockRecv block => s.stepLockDisp a block .flushEnableRecv .flushBackoffRecv
  | .flushBackoffRecv => some (({ s with recvQueue := s.recvQueue.enable }.notify .hndl).ret a .eagain)
  | .flushEnableRecv => some ({ s with recvQueue := s.recvQueue.enable }.goto a .flushCountRecv)
  | .flushCountRecv => some (s.goto a (flushDisp s.recvQueue.numMessages))
  | .resizeCheckSend n block =>
      some (s.goto a (if s.sendQueue.getCapacity ≠ n then .resizeDisableSend n block
        else .resizeCheckRecv n block))
  | .resizeDisableSend n block =>
      some ({ s with sendQueue := s.sendQueue.disable }.goto a (.resizeLockSend n block))
  | .resizeLockSend n block => s.stepLockSend a block (.resizeSetSend n block) .resizeBackoffSend
  | .resizeBackoffSend => some ({ s with sendQueue := s.sendQueue.enable }.ret a .eagain)
  | .resizeSetSend n block =>
      some ({ s with sendQueue := s.sendQueue.setCapacity n }.goto a (.resizeEnableSend n block))
  | .resizeEnableSend n block =>
      some ({ s with sendQueue := s.sendQueue.enable }.goto a (.resizeUnlockSend n block))
  | .resizeUnlockSend n block => some ({ s with sendOneMutex := none }.goto a (.resizeCheckRecv n block))
  | .resizeCheckRecv n block =>
      some (if s.recvQueue.getCapacity ≠ n then s.goto a (.resizeDisableRecv n block)
        else s.ret a .eok)
  | .resizeDisableRecv n block =>
      some ({ s with recvQueue := s.recvQueue.disable }.goto a (.resizeLockRecv n block))
  | .resizeLockRecv n block => s.stepLockDisp a block (.resizeSetRecv n) .resizeBackoffRecv
  | .resizeBackoffRecv => some ({ s with recvQueue := s.recvQueue.enable }.ret a .eagain)
  | .resizeSetRecv n =>
      some ({ s with recvQueue := s.recvQueue.setCapacity n }.goto a .resizeEnableRecv)
  | .resizeEnableRecv =>
      some ({ s with recvQueue := s.recvQueue.enable }.goto a .resizeUnlockRecv)
  | .resizeUnlockRecv => some ({ s with dispOneMutex := none }.ret a .eok)
  | .sendTop c => s.stepSendTop a c
  | .sendCheck c m => some (s.stepSendCheck a c m)
  | .sendTransmit c m => some ({ s with sent := s.sent ++ m.toList }.goto a (.sendPop c))
  | .sendPop c => some ({ s with sendQueue := s.sendQueue.pop }.goto a (sendNext c))
  | .sendDone c => some (s.stepSendDone a c)
  | .sendWait => s.stepSendWait a
  | .sendLock => s.stepLockSend a true (.sendTop .thread) (.idle none)
  | .sendHalt => some ({ s with sendThreadState := .halted }.goto a (.idle none))
  | .recvCheck =>
      some (s.goto a (if s.recvThreadState = .halting then .recvHalt else .recvTransport))
  | .recvTransport => none
  | .recvPush m => s.stepRecvPush a m
  | .recvHalt => some ({ s with recvThreadState := .halted }.goto a (.idle none))
  | .dispTop c => s.stepDispTop a c
  | .dispCheck c m => some (s.stepDispCheck a c m)
  | .dispMsg c m => some ({ s with dispatched := s.dispatched ++ m.toList }.goto a (.dispPop c))
  | .dispPop c => some ({ s with recvQueue := s.recvQueue.pop }.goto a (dispNext true c))
  | .dispDone c dispatched => some (s.stepDispDone a dispatched c)
  | .hndlSpawn => some ({ s with recvThreadState := .running }.spawnRecv.goto a .hndlWait)
  | .hndlWait => s.stepHndlWait a
  | .hndlLock => s.stepLockDisp a true (.dispTop .thread) (.idle none)
  | .hndlStopRecv =>
      some ({ s with recvThreadState := .halting, recvQueue := s.recvQueue.disable }.goto a
        .hndlJoinRecv)
  | .hndlJoinRecv => s.joinRecv.map (·.goto a .hndlHalt)
  | .hndlHalt =>
      some ({ s with hndlThreadState := .halted }.goto a
        (if a = Agent.handler then .idle none else .runRestore))
  | .fallsAsleep c => some (s.stepFallsAsleep a c)

def step (s : State) (a : Agent) : Option State :=
  if ((s.pc a).locks s.recvMode).any fun c => (s.stateMutex c).isSome then none else s.advance a

/-- The call of `zcm_trans_recvmsg` returns: with nothing, with a message that no subscription wants, or with
one to be queued. -/
def transport (s : State) (wanted : Option Msg) : Option State :=
  match s.pc .receiver with
  | .recvTransport =>
      some (s.goto .receiver (match wanted with
        | none => .recvCheck
        | some m => .recvPush m))
  | _ => none

def call (s : State) (id : Nat) (c : Call) : Option State :=
  match s.pc (.api id) with
  | .idle _ => some (s.enter (.api id) c)
  | _ => none

end State

inductive Event
  | call (id : Nat) (c : Call)
  | step (a : Agent)
  | transport (wanted : Option Msg)
  -- A wait that ends without a notification, or with one that came late.
  | wake (a : Agent)

namespace State

def next (s : State) (e : Event) : Option State :=
  if s.crashed then none
  else match e with
    | .call id c => s.call id c
    | .step a => s.step a
    | .transport wanted => s.transport wanted
    | .wake a => if s.asleep a then some { s with asleep := Function.update s.asleep a false } else none

def run (s : State) (es : List Event) : Option State := Runs.run next s es

end State
end Zcm.Blocking
