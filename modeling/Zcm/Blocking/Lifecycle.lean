import Zcm.Blocking.SendEnabled

namespace Zcm.Blocking
open Zcm.Lib Zcm.Util

inductive Spot
  | idle
  -- In a call that neither starts nor stops a thread here.
  | calling
  -- About to enable the send queue.
  | opening
  | publishSpawn
  | startMode | startSpawn
  | runMode | runSpawn | runRestore
  | handleMode | handleSpawn
  | stopMode (block : Bool) | stopRecv (block : Bool)
  | stopJoinHndl | stopHndlStopped | stopJoinRecv | stopRecvStopped
  | stopSend (block : Bool) | stopJoinSend | stopSendStopped
  | stopPollRecv | stopPollSend | stopRestore
  | sending | sendHalt
  | receiving | recvHalt
  | hndlSpawn | handling | hndlStopRecv | hndlJoinRecv | hndlHalt
deriving DecidableEq

def SendCaller.spot : SendCaller → Spot
  | .thread => .sending
  | .flush .. => .calling

def DispCaller.spot : DispCaller → Spot
  | .thread => .handling
  | .handle | .flush _ => .calling

def Pc.spot : Pc → Spot
  | .idle _ => .idle
  | .publishSpawn _ => .publishSpawn
  | .startMode => .startMode
  | .startSpawn => .startSpawn
  | .runMode => .runMode
  | .runSpawn => .runSpawn
  | .runRestore => .runRestore
  | .handleMode _ => .handleMode
  | .handleSpawn _ => .handleSpawn
  | .stopMode block => .stopMode block
  | .stopRecv block => .stopRecv block
  | .stopJoinHndl => .stopJoinHndl
  | .stopHndlStopped => .stopHndlStopped
  | .stopJoinRecv => .stopJoinRecv
  | .stopRecvStopped => .stopRecvStopped
  | .stopSend block => .stopSend block
  | .stopJoinSend => .stopJoinSend
  | .stopSendStopped => .stopSendStopped
  | .stopPollRecv => .stopPollRecv
  | .stopPollSend => .stopPollSend
  | .stopRestore => .stopRestore
  | .flushBackoffSend | .flushEnableSend _ | .resizeBackoffSend | .resizeEnableSend .. => .opening
  | .sendTop c | .sendCheck c _ | .sendTransmit c _ | .sendPop c | .sendDone c => c.spot
  | .sendWait | .sendLock => .sending
  | .sendHalt => .sendHalt
  | .recvCheck | .recvTransport | .recvPush _ => .receiving
  | .recvHalt => .recvHalt
  | .dispTop c | .dispCheck c _ | .dispMsg c _ | .dispPop c | .dispDone c _ => c.spot
  | .hndlSpawn => .hndlSpawn
  | .hndlWait | .hndlLock => .handling
  | .hndlStopRecv => .hndlStopRecv
  | .hndlJoinRecv => .hndlJoinRecv
  | .hndlHalt => .hndlHalt
  | .fallsAsleep .send => .sending
  | .fallsAsleep .hndl => .handling
  | _ => .calling

@[ext] structure Lifecycle where
  recvMode : RecvMode
  sendThreadState : ThreadState
  recvThreadState : ThreadState
  hndlThreadState : ThreadState
  sendThread : Bool
  recvThread : Bool
  hndlThread : Bool
  recvModeMutex : Option Agent
  sendClosed : Bool
  crashed : Bool
  spot : Agent → Spot

def Spot.allows : Spot → Agent → Bool
  | .idle, _ => true
  | .sending, a | .sendHalt, a => a = .sender
  | .receiving, a | .recvHalt, a => a = .receiver
  | .hndlSpawn, a | .handling, a | .hndlStopRecv, a | .hndlJoinRecv, a | .hndlHalt, a =>
      a = .handler || a.isApi
  | _, a => a.isApi

def Spot.holdsMode : Spot → Bool
  | .startSpawn | .runSpawn | .handleSpawn | .stopRecv _ | .stopJoinHndl | .stopHndlStopped
  | .stopJoinRecv | .stopRecvStopped | .stopSend _ | .stopJoinSend | .stopSendStopped
  | .stopPollRecv | .stopPollSend | .stopRestore => true
  | _ => false

def Call.spot : Call → Spot
  | .publish _ => .publishSpawn
  | .start => .startMode
  | .run => .runMode
  | .handle | .handleNonblock => .handleMode
  | .stop block => .stopMode block
  | .pause | .resume | .flush _ | .setQueueSize .. => .calling

namespace Lifecycle

def move (l : Lifecycle) (a : Agent) (p : Spot) : Lifecycle := { l with spot := Function.update l.spot a p }

def spawnSend (l : Lifecycle) : Lifecycle :=
  { l with sendThread := true, crashed := l.crashed || l.sendThread }.move .sender .sending

def spawnRecv (l : Lifecycle) : Lifecycle :=
  { l with recvThread := true, crashed := l.crashed || l.recvThread }.move .receiver .receiving

def spawnHndl (l : Lifecycle) : Lifecycle :=
  { l with hndlThread := true, crashed := l.crashed || l.hndlThread }.move .handler .hndlSpawn

def joinSend (l : Lifecycle) : Lifecycle :=
  { l with sendThread := false, crashed := l.crashed || !l.sendThread }

def joinRecv (l : Lifecycle) : Lifecycle :=
  { l with recvThread := false, crashed := l.crashed || !l.recvThread }

def joinHndl (l : Lifecycle) : Lifecycle :=
  { l with hndlThread := false, crashed := l.crashed || !l.hndlThread }

inductive Step (l : Lifecycle) (a : Agent) : Lifecycle → Prop
  | quiet : Step l a l
  | calls (p : Spot) (closed : Bool) (here : l.spot a = .calling)
      (next : p = .calling ∨ p = .opening ∨ p = .idle) (closes : closed = l.sendClosed ∨ closed = true) :
      Step l a ({ l with sendClosed := closed }.move a p)
  | opens (p : Spot) (here : l.spot a = .opening) (next : p = .calling ∨ p = .idle) :
      Step l a ({ l with sendClosed := false }.move a p)
  | publishes (here : l.spot a = .publishSpawn) (stopped : l.sendThreadState = .stopped) :
      Step l a ({ l with sendThreadState := .running }.spawnSend.move a .calling)
  | publishesToo (here : l.spot a = .publishSpawn) (started : l.sendThreadState ≠ .stopped) :
      Step l a (l.move a .calling)
  | refuses (here : l.spot a = .startMode ∨ l.spot a = .runMode ∨ l.spot a = .handleMode) :
      Step l a (l.move a .idle)
  | starts (here : l.spot a = .startMode) (free : l.recvModeMutex = none) (mode : l.recvMode = .none) :
      Step l a ({ l with recvMode := .spawn, recvModeMutex := some a }.move a .startSpawn)
  | runs (here : l.spot a = .runMode) (free : l.recvModeMutex = none) (mode : l.recvMode = .none) :
      Step l a ({ l with recvMode := .run, recvModeMutex := some a }.move a .runSpawn)
  | handles (here : l.spot a = .handleMode) (free : l.recvModeMutex = none) (mode : l.recvMode = .none) :
      Step l a ({ l with recvMode := .handle, recvModeMutex := some a }.move a .handleSpawn)
  | handlesToo (here : l.spot a = .handleMode) (mode : l.recvMode = .handle) :
      Step l a (l.move a .calling)
  | startsHndl (here : l.spot a = .startSpawn) :
      Step l a ({ l with recvModeMutex := none, hndlThreadState := .running }.spawnHndl.move a .idle)
  | runsHndl (here : l.spot a = .runSpawn) :
      Step l a ({ l with recvModeMutex := none, hndlThreadState := .running }.move a .hndlSpawn)
  | startsRecv (here : l.spot a = .handleSpawn) :
      Step l a ({ l with recvModeMutex := none, recvThreadState := .running }.spawnRecv.move a .calling)
  | restores (here : l.spot a = .runRestore) (free : l.recvModeMutex = none) :
      Step l a ({ l with recvMode := .none }.move a .idle)
  | stops (block : Bool) (here : l.spot a = .stopMode block) (free : l.recvModeMutex = none) :
      Step l a ({ l with recvModeMutex := some a }.move a (.stopRecv block))
  | haltsHndl (block : Bool) (here : l.spot a = .stopRecv block)
      (mode : l.recvMode = .run ∨ l.recvMode = .spawn) (running : l.hndlThreadState = .running) :
      Step l a ({ l with hndlThreadState := .halting }.move a
        (if block ∧ l.recvMode = RecvMode.spawn then .stopJoinHndl else .stopSend block))
  | haltsRecv (block : Bool) (here : l.spot a = .stopRecv block) (mode : l.recvMode = .handle)
      (running : l.recvThreadState = .running) :
      Step l a ({ l with recvThreadState := .halting }.move a
        (if block then .stopJoinRecv else .stopSend block))
  | haltsNone (block : Bool) (here : l.spot a = .stopRecv block)
      (hndl : l.recvMode = .run ∨ l.recvMode = .spawn → l.hndlThreadState ≠ .running)
      (recv : l.recvMode = .handle → l.recvThreadState ≠ .running) :
      Step l a (l.move a (.stopSend block))
  | joinsHndl (here : l.spot a = .stopJoinHndl) (ended : l.spot .handler = .idle) :
      Step l a (l.joinHndl.move a .stopHndlStopped)
  | hndlStopped (here : l.spot a = .stopHndlStopped) :
      Step l a ({ l with hndlThreadState := .stopped }.move a (.stopSend true))
  | joinsRecv (here : l.spot a = .stopJoinRecv) (ended : l.spot .receiver = .idle) :
      Step l a (l.joinRecv.move a .stopRecvStopped)
  | recvStopped (here : l.spot a = .stopRecvStopped) :
      Step l a ({ l with recvThreadState := .stopped }.move a (.stopSend true))
  | haltsSend (block : Bool) (here : l.spot a = .stopSend block)
      (running : l.sendThreadState = .running) :
      Step l a ({ l with sendThreadState := .halting, sendClosed := true }.move a
        (if block then .stopJoinSend else .stopPollRecv))
  | skipsSend (block : Bool) (here : l.spot a = .stopSend block)
      (other : l.sendThreadState ≠ .running) :
      Step l a (l.move a (if block then .stopRestore else .stopPollRecv))
  | joinsSend (here : l.spot a = .stopJoinSend) (ended : l.spot .sender = .idle) :
      Step l a (l.joinSend.move a .stopSendStopped)
  | sendStopped (here : l.spot a = .stopSendStopped) :
      Step l a ({ l with sendThreadState := .stopped }.move a .stopRestore)
  | givesUp (here : l.spot a = .stopPollRecv ∨ l.spot a = .stopPollSend) :
      Step l a ({ l with recvModeMutex := none }.move a .idle)
  | pollsHndl (here : l.spot a = .stopPollRecv) (mode : l.recvMode = .spawn)
      (halted : l.hndlThreadState = .halted) (ended : l.spot .handler = .idle) :
      Step l a ({ l.joinHndl with hndlThreadState := .stopped }.move a .stopPollSend)
  | pollsRecv (here : l.spot a = .stopPollRecv) (mode : l.recvMode = .handle)
      (halted : l.recvThreadState = .halted) (ended : l.spot .receiver = .idle) :
      Step l a ({ l.joinRecv with recvThreadState := .stopped }.move a .stopPollSend)
  | pollsNone (here : l.spot a = .stopPollRecv)
      (hndl : l.recvMode = .spawn → l.hndlThreadState ≠ .halting ∧ l.hndlThreadState ≠ .halted)
      (recv : l.recvMode = .handle → l.recvThreadState ≠ .halting ∧ l.recvThreadState ≠ .halted) :
      Step l a (l.move a .stopPollSend)
  | pollsSend (here : l.spot a = .stopPollSend) (halted : l.sendThreadState = .halted)
      (ended : l.spot .sender = .idle) :
      Step l a ({ l.joinSend with sendThreadState := .stopped }.move a .stopRestore)
  | pollsNoSend (here : l.spot a = .stopPollSend)
      (other : l.sendThreadState ≠ .halting ∧ l.sendThreadState ≠ .halted) :
      Step l a (l.move a .stopRestore)
  | stopped (here : l.spot a = .stopRestore) :
      Step l a ({ l with recvMode := .none, recvModeMutex := none }.move a .idle)
  | sendHalts (here : l.spot a = .sending) (halting : l.sendThreadState = .halting) :
      Step l a (l.move a .sendHalt)
  | sendEnds (here : l.spot a = .sendHalt) :
      Step l a ({ l with sendThreadState := .halted }.move a .idle)
  | recvHalts (here : l.spot a = .receiving) (halting : l.recvThreadState = .halting) :
      Step l a (l.move a .recvHalt)
  | recvEnds (here : l.spot a = .recvHalt) :
      Step l a ({ l with recvThreadState := .halted }.move a .idle)
  | hndlStarts (here : l.spot a = .hndlSpawn) :
      Step l a ({ l with recvThreadState := .running }.spawnRecv.move a .handling)
  | hndlHalts (here : l.spot a = .handling) (halting : l.hndlThreadState = .halting) :
      Step l a (l.move a .hndlStopRecv)
  | hndlHaltsRecv (here : l.spot a = .hndlStopRecv) :
      Step l a ({ l with recvThreadState := .halting }.move a .hndlJoinRecv)
  | hndlJoins (here : l.spot a = .hndlJoinRecv) (ended : l.spot .receiver = .idle) :
      Step l a (l.joinRecv.move a .hndlHalt)
  | hndlEnds (here : l.spot a = .hndlHalt) :
      Step l a ({ l with hndlThreadState := .halted }.move a
        (if a = Agent.handler then .idle else .runRestore))

inductive Next (l : Lifecycle) : Event → Lifecycle → Prop
  | step {a : Agent} {l' : Lifecycle} (steps : Step l a l') : Next l (.step a) l'
  | call {id : Nat} {c : Call} (p : Spot) (idle : l.spot (.api id) = .idle)
      (enters : p = c.spot ∨ p = .idle) : Next l (.call id c) (l.move (.api id) p)
  | transport {wanted : Option Msg} : Next l (.transport wanted) l
  | wake {a : Agent} : Next l (.wake a) l

variable {l l' : Lifecycle} {a b : Agent}

@[grind =] theorem move_spot (l : Lifecycle) (a b : Agent) (p : Spot) :
    (l.move a p).spot b = if b = a then p else l.spot b := by
  simp [move, Function.update_apply]

theorem Step.spot_of_ne (h : Step l a l') (other : b ≠ a) :
    l'.spot b = l.spot b ∨
      b = .sender ∧ l'.spot b = .sending ∧ l.spot a = .publishSpawn ∨
      b = .receiver ∧ l'.spot b = .receiving ∧ (l.spot a = .handleSpawn ∨ l.spot a = .hndlSpawn) ∨
      b = .handler ∧ l'.spot b = .hndlSpawn ∧ l.spot a = .startSpawn := by
  cases h
  all_goals simp only [spawnSend, spawnRecv, spawnHndl, joinHndl, joinRecv, joinSend, move_spot,
    if_neg other, true_or]
  all_goals grind -linarith

def Roles (l : Lifecycle) : Prop := ∀ a, (l.spot a).allows a = true

theorem Roles.step (roles : l.Roles) (h : Step l a l') : l'.Roles := by
  intro b
  have mine := roles a
  by_cases self : b = a
  · subst self
    cases h
    case quiet => exact mine
    all_goals simp only [move_spot]
    all_goals grind -linarith [Spot.allows]
  · rcases h.spot_of_ne self with same | ⟨rfl, spot, -⟩ | ⟨rfl, spot, -⟩ | ⟨rfl, spot, -⟩
    · rw [same]
      exact roles b
    all_goals
      rw [spot]
      rfl

def Held (l : Lifecycle) : Prop := ∀ a, (l.spot a).holdsMode = true → l.recvModeMutex = some a

theorem Step.mutex_of_ne (h : Step l a l') (held : l.Held) (other : b ≠ a)
    (holds : l.recvModeMutex = some b) : l'.recvModeMutex = some b := by
  have mine := held a
  cases h
  case quiet => exact holds
  all_goals simp only [move, spawnSend, spawnRecv, spawnHndl, joinSend, joinRecv, joinHndl]
  all_goals grind -linarith [Spot.holdsMode]

theorem Held.step (held : l.Held) (h : Step l a l') : l'.Held := by
  intro b holds
  by_cases self : b = a
  · subst self
    have mine := held b
    cases h
    case quiet => exact mine holds
    all_goals simp only [move_spot, if_true] at holds
    all_goals simp only [move, spawnSend, spawnRecv, spawnHndl, joinSend, joinRecv, joinHndl]
    all_goals grind -linarith [Spot.holdsMode]
  · rcases h.spot_of_ne self with same | ⟨rfl, spot, -⟩ | ⟨rfl, spot, -⟩ | ⟨rfl, spot, -⟩
    · rw [same] at holds
      exact h.mutex_of_ne held self (held b holds)
    all_goals
      rw [spot] at holds
      cases holds

theorem Roles.call (roles : l.Roles) {id : Nat} {c : Call} {p : Spot} (enters : p = c.spot ∨ p = .idle) :
    (l.move (.api id) p).Roles := by
  intro b
  rw [move_spot]
  split
  · next self =>
      subst self
      rcases enters with rfl | rfl
      · cases c <;> rfl
      · rfl
  · exact roles b

theorem Held.call (held : l.Held) {id : Nat} {c : Call} {p : Spot} (enters : p = c.spot ∨ p = .idle) :
    (l.move (.api id) p).Held := by
  intro b holds
  rw [move_spot] at holds
  split at holds
  · rcases enters with rfl | rfl
    · cases c <;> cases holds
    · cases holds
  · exact held b holds

end Lifecycle

end Zcm.Blocking
