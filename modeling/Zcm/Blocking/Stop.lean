import Zcm.Blocking.Threads

namespace Zcm.Blocking
open Zcm.Lib Zcm.Util

inductive SendPhase
  | down | running | halting | halted
  -- The thread has been joined and its state not yet reset.
  | joined
deriving DecidableEq

/-- A handle thread that was told to halt goes through the phases from `handling true` on; in handle
mode there is the receive thread alone. -/
inductive RecvPhase
  | down
  | spawning (told : Bool) | handling (told : Bool) | haltsRecv | joinsRecv | joinedRecv | hndlHalted
  | hndlJoined
  | recvRunning | recvHalting | recvHalted | recvJoined
deriving DecidableEq

@[grind =] def Spot.allowsSend : Spot → SendPhase → Bool
  | .stopMode true, ph | .stopRecv true, ph | .stopSend true, ph | .stopJoinHndl, ph
  | .stopHndlStopped, ph | .stopJoinRecv, ph | .stopRecvStopped, ph => ph = .down || ph = .running
  | .stopJoinSend, ph => ph = .halting || ph = .halted
  | .stopSendStopped, ph => ph = .joined
  | .stopPollRecv, ph | .stopPollSend, ph => ph = .down || ph = .halting || ph = .halted
  | .stopRestore, ph => ph = .down
  | _, ph => ph ≠ .joined

def RecvPhase.untold : RecvPhase → Bool
  | .spawning told | .handling told => !told
  | .recvRunning => true
  | _ => false

def RecvPhase.joined : RecvPhase → Bool
  | .hndlJoined | .recvJoined => true
  | _ => false

def RecvPhase.hndlLeaves : RecvPhase → Bool
  | .spawning told | .handling told => told
  | .haltsRecv | .joinsRecv | .joinedRecv | .hndlHalted => true
  | _ => false

@[grind =] def Spot.allowsRecv : Spot → RecvPhase → Bool
  | .stopMode true, ph | .stopRecv true, ph => ph = .down || ph.untold
  | .stopJoinHndl, ph => ph.hndlLeaves
  | .stopHndlStopped, ph => ph = .hndlJoined
  | .stopJoinRecv, ph => ph = .recvHalting || ph = .recvHalted
  | .stopRecvStopped, ph => ph = .recvJoined
  | .stopSend false, ph | .stopPollRecv, ph => !ph.untold && !ph.joined
  | .startSpawn, ph | .handleSpawn, ph | .stopSend true, ph | .stopJoinSend, ph | .stopSendStopped, ph
  | .stopPollSend, ph | .stopRestore, ph => ph = .down
  | .idle, ph | .calling, ph | .opening, ph | .publishSpawn, ph | .startMode, ph | .handleMode, ph
  | .stopMode false, ph | .stopRecv false, ph => !ph.joined
  | _, _ => false

inductive SpotPart
  | calling | stopping | polling
  -- In run, or in a thread of the instance.
  | working

@[grind =] def Spot.part : Spot → SpotPart
  | .idle | .calling | .opening | .publishSpawn | .startMode | .startSpawn | .handleMode | .handleSpawn => .calling
  | .stopMode _ | .stopRecv _ | .stopJoinHndl | .stopHndlStopped | .stopJoinRecv | .stopRecvStopped
  | .stopSend _ | .stopJoinSend | .stopSendStopped => .stopping
  | .stopPollRecv | .stopPollSend | .stopRestore => .polling
  | .runMode | .runSpawn | .runRestore | .sending | .sendHalt | .receiving | .recvHalt | .hndlSpawn | .handling
  | .hndlStopRecv | .hndlJoinRecv | .hndlHalt => .working

theorem Spot.part_ne_working {p : Spot} {ph : RecvPhase} (allows : p.allowsRecv ph = true) : p.part ≠ .working := by
  cases p <;> simp_all [allowsRecv, part]

def Spot.spawns : Spot → Bool
  | .startSpawn | .handleSpawn => true
  | _ => false

namespace Lifecycle
variable {l l' : Lifecycle} {a : Agent} {id : Nat}

def SendIs (l : Lifecycle) : SendPhase → Prop
  | .down => l.sendThreadState = .stopped ∧ l.sendThread = false ∧ l.spot .sender = .idle
  | .running => l.sendThreadState = .running ∧ l.sendThread = true ∧ l.spot .sender = .sending
  | .halting => l.sendThreadState = .halting ∧ l.sendThread = true ∧
      (l.spot .sender = .sending ∨ l.spot .sender = .sendHalt)
  | .halted => l.sendThreadState = .halted ∧ l.sendThread = true ∧ l.spot .sender = .idle
  | .joined => l.sendThreadState = .halted ∧ l.sendThread = false ∧ l.spot .sender = .idle

def Receives (l : Lifecycle) : Prop :=
  l.recvThread = true ∧ l.recvThreadState = .running ∧ l.spot .receiver = .receiving

def NoRecv (l : Lifecycle) : Prop :=
  l.recvThread = false ∧ (l.recvThreadState = .stopped ∨ l.recvThreadState = .halted) ∧
    l.spot .receiver = .idle

def NoHndl (l : Lifecycle) : Prop :=
  l.hndlThread = false ∧ l.hndlThreadState = .stopped ∧ l.spot .handler = .idle

def RecvIs (l : Lifecycle) : RecvPhase → Prop
  | .down => l.recvMode ≠ .run ∧ l.NoHndl ∧ l.NoRecv
  | .spawning told => l.recvMode = .spawn ∧ l.hndlThread = true ∧
      l.hndlThreadState = (if told then .halting else .running) ∧ l.spot .handler = .hndlSpawn ∧ l.NoRecv
  | .handling told => l.recvMode = .spawn ∧ l.hndlThread = true ∧
      l.hndlThreadState = (if told then .halting else .running) ∧ l.spot .handler = .handling ∧ l.Receives
  | .haltsRecv => l.recvMode = .spawn ∧ l.hndlThread = true ∧ l.hndlThreadState = .halting ∧
      l.spot .handler = .hndlStopRecv ∧ l.Receives
  | .joinsRecv => l.recvMode = .spawn ∧ l.hndlThread = true ∧ l.hndlThreadState = .halting ∧
      l.spot .handler = .hndlJoinRecv ∧ l.recvThread = true ∧
      (l.recvThreadState = .halting ∧ (l.spot .receiver = .receiving ∨ l.spot .receiver = .recvHalt) ∨
        l.recvThreadState = .halted ∧ l.spot .receiver = .idle)
  | .joinedRecv => l.recvMode = .spawn ∧ l.hndlThread = true ∧ l.hndlThreadState = .halting ∧
      l.spot .handler = .hndlHalt ∧ l.NoRecv
  | .hndlHalted => l.recvMode = .spawn ∧ l.hndlThread = true ∧ l.hndlThreadState = .halted ∧
      l.spot .handler = .idle ∧ l.NoRecv
  | .hndlJoined => l.recvMode = .spawn ∧ l.hndlThread = false ∧ l.hndlThreadState = .halted ∧
      l.spot .handler = .idle ∧ l.NoRecv
  | .recvRunning => l.recvMode = .handle ∧ l.NoHndl ∧ l.Receives
  | .recvHalting => l.recvMode = .handle ∧ l.NoHndl ∧ l.recvThread = true ∧
      l.recvThreadState = .halting ∧ (l.spot .receiver = .receiving ∨ l.spot .receiver = .recvHalt)
  | .recvHalted => l.recvMode = .handle ∧ l.NoHndl ∧ l.recvThread = true ∧
      l.recvThreadState = .halted ∧ l.spot .receiver = .idle
  | .recvJoined => l.recvMode = .handle ∧ l.NoHndl ∧ l.recvThread = false ∧
      l.recvThreadState = .halted ∧ l.spot .receiver = .idle

structure Tidy (l : Lifecycle) (p : Spot) (send : SendPhase) (recv : RecvPhase) : Prop where
  alive : l.crashed = false
  sendIs : l.SendIs send
  recvIs : l.RecvIs recv
  allowsSend : p.allowsSend send = true
  allowsRecv : p.allowsRecv recv = true
  starts : p = .startSpawn → l.recvMode = .spawn
  handles : p = .handleSpawn → l.recvMode = .handle
  -- A handle mode without a receive thread is one that a stop has left, with the thread STOPPED.
  stopped : l.recvMode = .handle → p ≠ .handleSpawn → recv = .down → l.recvThreadState = .stopped

variable {p : Spot} {send : SendPhase} {recv : RecvPhase}

theorem Step.eq_of_idle (h : Step l a l') (idle : l.spot a = .idle) : l' = l := by
  cases h
  case quiet => rfl
  all_goals simp_all

theorem Step.of_sender (roles : l.Roles) (h : Step l .sender l') :
    l' = l ∨ l.spot .sender = .sending ∧ l.sendThreadState = .halting ∧ l' = l.move .sender .sendHalt ∨
      l.spot .sender = .sendHalt ∧ l' = { l with sendThreadState := .halted }.move .sender .idle := by
  have mine := roles .sender
  cases h
  case quiet => exact .inl rfl
  case sendHalts here halting => exact .inr (.inl ⟨here, halting, rfl⟩)
  case sendEnds here => exact .inr (.inr ⟨here, rfl⟩)
  all_goals grind -linarith [Spot.allows, Agent.isApi]

theorem Step.of_receiver (roles : l.Roles) (h : Step l .receiver l') :
    l' = l ∨ l.spot .receiver = .receiving ∧ l.recvThreadState = .halting ∧
        l' = l.move .receiver .recvHalt ∨
      l.spot .receiver = .recvHalt ∧ l' = { l with recvThreadState := .halted }.move .receiver .idle := by
  have mine := roles .receiver
  cases h
  case quiet => exact .inl rfl
  case recvHalts here halting => exact .inr (.inl ⟨here, halting, rfl⟩)
  case recvEnds here => exact .inr (.inr ⟨here, rfl⟩)
  all_goals grind -linarith [Spot.allows, Agent.isApi]

theorem Step.of_handler (roles : l.Roles) (h : Step l .handler l') :
    l' = l ∨
      l.spot .handler = .hndlSpawn ∧
        l' = { l with recvThreadState := .running }.spawnRecv.move .handler .handling ∨
      l.spot .handler = .handling ∧ l.hndlThreadState = .halting ∧ l' = l.move .handler .hndlStopRecv ∨
      l.spot .handler = .hndlStopRecv ∧
        l' = { l with recvThreadState := .halting }.move .handler .hndlJoinRecv ∨
      l.spot .handler = .hndlJoinRecv ∧ l.spot .receiver = .idle ∧
        l' = l.joinRecv.move .handler .hndlHalt ∨
      l.spot .handler = .hndlHalt ∧ l' = { l with hndlThreadState := .halted }.move .handler .idle := by
  have mine := roles .handler
  cases h
  case quiet => exact .inl rfl
  case hndlStarts here => exact .inr (.inl ⟨here, rfl⟩)
  case hndlHalts here halting => exact .inr (.inr (.inl ⟨here, halting, rfl⟩))
  case hndlHaltsRecv here => exact .inr (.inr (.inr (.inl ⟨here, rfl⟩)))
  case hndlJoins here ended => exact .inr (.inr (.inr (.inr (.inl ⟨here, ended, rfl⟩))))
  case hndlEnds here => exact .inr (.inr (.inr (.inr (.inr ⟨here, rfl⟩))))
  all_goals grind -linarith [Spot.allows, Agent.isApi]

theorem SendIs.congr {l l' : Lifecycle} (state : l'.sendThreadState = l.sendThreadState)
    (thread : l'.sendThread = l.sendThread) (spot : l'.spot .sender = l.spot .sender)
    (is : l.SendIs send) : l'.SendIs send := by
  cases send <;> simpa only [SendIs, state, thread, spot] using is

theorem RecvIs.congr {l l' : Lifecycle} (mode : l'.recvMode = l.recvMode)
    (state : l'.recvThreadState = l.recvThreadState ∧ l'.hndlThreadState = l.hndlThreadState)
    (thread : l'.recvThread = l.recvThread ∧ l'.hndlThread = l.hndlThread)
    (spot : l'.spot .receiver = l.spot .receiver ∧ l'.spot .handler = l.spot .handler)
    (is : l.RecvIs recv) : l'.RecvIs recv := by
  cases recv <;>
    simpa only [RecvIs, NoHndl, NoRecv, Receives, mode, state.1, state.2, thread.1, thread.2, spot.1,
      spot.2] using is

theorem Tidy.goes (tidy : l.Tidy p send recv) {p' : Spot} {mutex : Option Agent} {closed : Bool}
    (allowsSend : p'.allowsSend send = true) (allowsRecv : p'.allowsRecv recv = true)
    (spawned : p.spawns = false) (next : p'.spawns = false) :
    Tidy ({ l with recvModeMutex := mutex, sendClosed := closed }.move (.api id) p') p' send recv where
  alive := tidy.alive
  sendIs := tidy.sendIs.congr rfl rfl (by simp [move])
  recvIs := tidy.recvIs.congr rfl ⟨rfl, rfl⟩ ⟨rfl, rfl⟩ (by simp [move])
  allowsSend := allowsSend
  allowsRecv := allowsRecv
  starts here := by
    subst here
    cases next
  handles here := by
    subst here
    cases next
  stopped mode _ down := by
    refine tidy.stopped mode ?_ down
    rintro rfl
    cases spawned

theorem allowsSend_halted (allows : p.allowsSend .halting = true) : p.allowsSend .halted = true := by
  unfold Spot.allowsSend at allows ⊢
  split at allows <;> simp_all

theorem allowsRecv_recvHalted (allows : p.allowsRecv .recvHalting = true) :
    p.allowsRecv .recvHalted = true := by
  unfold Spot.allowsRecv at allows ⊢
  split at allows <;> simp_all [RecvPhase.untold, RecvPhase.joined, RecvPhase.hndlLeaves]

theorem allowsRecv_leaves {recv' : RecvPhase} (allows : p.allowsRecv recv = true)
    (leaves : recv.hndlLeaves = true) (leavesToo : recv'.hndlLeaves = true) :
    p.allowsRecv recv' = true := by
  have phase : recv.untold = false ∧ recv.joined = false ∧ recv ≠ .down ∧ recv ≠ .recvHalting ∧
      recv ≠ .recvHalted ∧ recv ≠ .hndlJoined ∧ recv ≠ .recvJoined := by
    cases recv <;> simp_all [RecvPhase.hndlLeaves, RecvPhase.untold, RecvPhase.joined]
  have phaseToo : recv'.untold = false ∧ recv'.joined = false := by
    cases recv' <;> simp_all [RecvPhase.hndlLeaves, RecvPhase.untold, RecvPhase.joined]
  unfold Spot.allowsRecv at allows ⊢
  split at allows <;> simp_all

theorem allowsRecv_handling {told : Bool} (allows : p.allowsRecv (.spawning told) = true) :
    p.allowsRecv (.handling told) = true := by
  unfold Spot.allowsRecv at allows ⊢
  split at allows <;> simp_all [RecvPhase.untold, RecvPhase.joined, RecvPhase.hndlLeaves]

theorem Tidy.sender (tidy : l.Tidy p send recv) (roles : l.Roles) (h : Step l .sender l') :
    ∃ send', l'.Tidy p send' recv := by
  obtain ⟨alive, sendIs, recvIs, allowsSend, allowsRecv, starts, handles, stopped⟩ := tidy
  rcases h.of_sender roles with rfl | ⟨here, halting, rfl⟩ | ⟨here, rfl⟩
  · exact ⟨send, alive, sendIs, recvIs, allowsSend, allowsRecv, starts, handles, stopped⟩
  · have phase : send = .halting := by cases send <;> simp_all [SendIs]
    subst phase
    refine ⟨.halting, alive, ⟨sendIs.1, sendIs.2.1, by simp [move]⟩,
      recvIs.congr rfl ⟨rfl, rfl⟩ ⟨rfl, rfl⟩ (by simp [move]), allowsSend, allowsRecv, starts, handles,
      stopped⟩
  · have phase : send = .halting := by cases send <;> simp_all [SendIs]
    subst phase
    refine ⟨.halted, alive, ⟨rfl, sendIs.2.1, by simp [move]⟩,
      recvIs.congr rfl ⟨rfl, rfl⟩ ⟨rfl, rfl⟩ (by simp [move]), allowsSend_halted allowsSend, allowsRecv,
      starts, handles, stopped⟩

theorem Tidy.receiver (tidy : l.Tidy p send recv) (roles : l.Roles) (h : Step l .receiver l') :
    ∃ recv', l'.Tidy p send recv' := by
  obtain ⟨alive, sendIs, recvIs, allowsSend, allowsRecv, starts, handles, stopped⟩ := tidy
  rcases h.of_receiver roles with rfl | ⟨here, halting, rfl⟩ | ⟨here, rfl⟩
  · exact ⟨recv, alive, sendIs, recvIs, allowsSend, allowsRecv, starts, handles, stopped⟩
  · have phase : recv = .joinsRecv ∨ recv = .recvHalting := by
      cases recv <;> simp_all [RecvIs, NoRecv, Receives]
    refine ⟨recv, alive, sendIs.congr rfl rfl (by simp [move]), ?_, allowsSend, allowsRecv, starts, handles,
      stopped⟩
    rcases phase with rfl | rfl <;> simp_all [RecvIs, NoHndl, move]
  · have phase : recv = .joinsRecv ∨ recv = .recvHalting := by
      cases recv <;> simp_all [RecvIs, NoRecv, Receives]
    rcases phase with rfl | rfl
    · refine ⟨.joinsRecv, alive, sendIs.congr rfl rfl (by simp [move]), ?_, allowsSend, allowsRecv, starts,
        handles, fun _ _ => RecvPhase.noConfusion⟩
      simp_all [RecvIs, move]
    · refine ⟨.recvHalted, alive, sendIs.congr rfl rfl (by simp [move]), ?_, allowsSend,
        allowsRecv_recvHalted allowsRecv, starts, handles, fun _ _ => RecvPhase.noConfusion⟩
      simp_all [RecvIs, NoHndl, move]

theorem Tidy.handler (tidy : l.Tidy p send recv) (roles : l.Roles) (h : Step l .handler l') :
    ∃ recv', l'.Tidy p send recv' := by
  obtain ⟨alive, sendIs, recvIs, allowsSend, allowsRecv, starts, handles, stopped⟩ := tidy
  rcases h.of_handler roles with rfl | ⟨here, rfl⟩ | ⟨here, halting, rfl⟩ | ⟨here, rfl⟩ |
    ⟨here, ended, rfl⟩ | ⟨here, rfl⟩
  · exact ⟨recv, alive, sendIs, recvIs, allowsSend, allowsRecv, starts, handles, stopped⟩
  · obtain ⟨told, rfl⟩ : ∃ told, recv = .spawning told := by
      cases recv <;> simp_all [RecvIs, NoHndl]
    refine ⟨.handling told, ?_, sendIs.congr rfl rfl (by simp [move, spawnRecv]), ?_, allowsSend,
      allowsRecv_handling allowsRecv, starts, handles, fun _ _ => RecvPhase.noConfusion⟩
    · simp_all [RecvIs, NoRecv, move, spawnRecv]
    · simp_all [RecvIs, Receives, move, spawnRecv]
  · have phase : recv = .handling true := by
      cases recv <;> simp_all [RecvIs, NoHndl]
    subst phase
    refine ⟨.haltsRecv, alive, sendIs.congr rfl rfl (by simp [move]), ?_, allowsSend,
      allowsRecv_leaves allowsRecv rfl rfl, starts, handles, fun _ _ => RecvPhase.noConfusion⟩
    simp_all [RecvIs, Receives, move]
  · have phase : recv = .haltsRecv := by
      cases recv <;> simp_all [RecvIs, NoHndl]
    subst phase
    refine ⟨.joinsRecv, alive, sendIs.congr rfl rfl (by simp [move]), ?_, allowsSend,
      allowsRecv_leaves allowsRecv rfl rfl, starts, handles, fun _ _ => RecvPhase.noConfusion⟩
    simp_all [RecvIs, Receives, move]
  · have phase : recv = .joinsRecv := by
      cases recv <;> simp_all [RecvIs, NoHndl]
    subst phase
    refine ⟨.joinedRecv, ?_, sendIs.congr rfl rfl (by simp [move, joinRecv]), ?_, allowsSend,
      allowsRecv_leaves allowsRecv rfl rfl, starts, handles, fun _ _ => RecvPhase.noConfusion⟩
    · simp_all [RecvIs, move, joinRecv]
    · simp_all [RecvIs, NoRecv, move, joinRecv]
  · have phase : recv = .joinedRecv := by
      cases recv <;> simp_all [RecvIs, NoHndl]
    subst phase
    refine ⟨.hndlHalted, alive, sendIs.congr rfl rfl (by simp [move]), ?_, allowsSend,
      allowsRecv_leaves allowsRecv rfl rfl, starts, handles, fun _ _ => RecvPhase.noConfusion⟩
    simp_all [RecvIs, NoRecv, move]

theorem Tidy.recv_down (tidy : l.Tidy p send recv) (mode : l.recvMode = .none) : recv = .down := by
  have is := tidy.recvIs
  cases recv <;> simp_all [RecvIs]

theorem Tidy.publishes (tidy : l.Tidy .publishSpawn send recv) (down : l.sendThreadState = .stopped) :
    Tidy ({ l with sendThreadState := .running }.spawnSend.move (.api id) .calling) .calling .running
      recv := by
  obtain ⟨alive, sendIs, recvIs, -, allowsRecv, -, -, stopped⟩ := tidy
  have phase : send = .down := by cases send <;> simp_all [SendIs]
  subst phase
  refine ⟨?_, ⟨rfl, rfl, by simp [spawnSend, move]⟩,
    recvIs.congr rfl ⟨rfl, rfl⟩ ⟨rfl, rfl⟩ (by simp [spawnSend, move]), rfl, allowsRecv, nofun, nofun,
    fun mode _ down => stopped mode nofun down⟩
  simp_all [SendIs, spawnSend, move]

theorem Tidy.takesMode (tidy : l.Tidy p send recv) (mode : l.recvMode = .none) (taken : RecvMode)
    (p' : Spot) (next : p' = .startSpawn ∧ taken = .spawn ∨ p' = .handleSpawn ∧ taken = .handle)
    (free : send ≠ .joined) (a : Agent) :
    Tidy ({ l with recvMode := taken, recvModeMutex := some a }.move (.api id) p') p' send .down := by
  have is := tidy.recvIs
  rw [tidy.recv_down mode] at is
  refine ⟨tidy.alive, tidy.sendIs.congr rfl rfl (by simp [move]), ?_, ?_, ?_, ?_, ?_, ?_⟩
  · rcases next with ⟨rfl, rfl⟩ | ⟨rfl, rfl⟩ <;> simp_all [RecvIs, NoHndl, NoRecv, move]
  · rcases next with ⟨rfl, rfl⟩ | ⟨rfl, rfl⟩ <;> simp [Spot.allowsSend, free]
  · rcases next with ⟨rfl, rfl⟩ | ⟨rfl, rfl⟩ <;> rfl
  · rcases next with ⟨rfl, rfl⟩ | ⟨rfl, rfl⟩ <;> simp [move]
  · rcases next with ⟨rfl, rfl⟩ | ⟨rfl, rfl⟩ <;> simp [move]
  · rcases next with ⟨rfl, rfl⟩ | ⟨rfl, rfl⟩ <;> simp [move]

theorem Tidy.startsHndl (tidy : l.Tidy .startSpawn send recv) :
    Tidy ({ l with recvModeMutex := none, hndlThreadState := .running }.spawnHndl.move (.api id) .idle)
      .idle send (.spawning false) := by
  obtain ⟨alive, sendIs, recvIs, allowsSend, allowsRecv, starts, -, -⟩ := tidy
  have phase : recv = .down := by simpa [Spot.allowsRecv] using allowsRecv
  subst phase
  refine ⟨?_, sendIs.congr rfl rfl (by simp [move, spawnHndl]), ?_, allowsSend, rfl, nofun, nofun,
    fun _ _ => nofun⟩
  · simp_all [RecvIs, NoHndl, spawnHndl, move]
  · simp_all [RecvIs, NoRecv, spawnHndl, move]

theorem Tidy.startsRecv (tidy : l.Tidy .handleSpawn send recv) :
    Tidy ({ l with recvModeMutex := none, recvThreadState := .running }.spawnRecv.move (.api id) .calling)
      .calling send .recvRunning := by
  obtain ⟨alive, sendIs, recvIs, allowsSend, allowsRecv, -, handles, -⟩ := tidy
  have phase : recv = .down := by simpa [Spot.allowsRecv] using allowsRecv
  subst phase
  refine ⟨?_, sendIs.congr rfl rfl (by simp [move, spawnRecv]), ?_, allowsSend, rfl, nofun, nofun,
    fun _ _ => nofun⟩
  · simp_all [RecvIs, NoRecv, spawnRecv, move]
  · simp_all [RecvIs, NoHndl, Receives, spawnRecv, move]

theorem Tidy.haltsHndl {block : Bool} (tidy : l.Tidy (.stopRecv block) send recv)
    (mode : l.recvMode = .spawn) (running : l.hndlThreadState = .running) :
    ∃ recv', Tidy ({ l with hndlThreadState := .halting }.move (.api id)
      (if block then .stopJoinHndl else .stopSend block))
      (if block then .stopJoinHndl else .stopSend block) send recv' := by
  obtain ⟨alive, sendIs, recvIs, allowsSend, allowsRecv, -, -, -⟩ := tidy
  have phase : recv = .spawning false ∨ recv = .handling false := by
    cases recv <;> simp_all [RecvIs, NoHndl]
  rcases phase with rfl | rfl
  · refine ⟨.spawning true, alive, sendIs.congr rfl rfl (by simp [move]), ?_, ?_, ?_, ?_, ?_,
      fun _ _ => RecvPhase.noConfusion⟩
    · simp_all [RecvIs, NoRecv, move]
    all_goals cases block <;> simp_all [Spot.allowsSend, Spot.allowsRecv, RecvPhase.untold,
      RecvPhase.joined, RecvPhase.hndlLeaves]
  · refine ⟨.handling true, alive, sendIs.congr rfl rfl (by simp [move]), ?_, ?_, ?_, ?_, ?_,
      fun _ _ => RecvPhase.noConfusion⟩
    · simp_all [RecvIs, Receives, move]
    all_goals cases block <;> simp_all [Spot.allowsSend, Spot.allowsRecv, RecvPhase.untold,
      RecvPhase.joined, RecvPhase.hndlLeaves]

theorem Tidy.haltsRecv {block : Bool} (tidy : l.Tidy (.stopRecv block) send recv)
    (mode : l.recvMode = .handle) (running : l.recvThreadState = .running) :
    Tidy ({ l with recvThreadState := .halting }.move (.api id)
      (if block then .stopJoinRecv else .stopSend block))
      (if block then .stopJoinRecv else .stopSend block) send .recvHalting := by
  obtain ⟨alive, sendIs, recvIs, allowsSend, allowsRecv, -, -, -⟩ := tidy
  have phase : recv = .recvRunning := by
    cases recv <;> simp_all [RecvIs, NoRecv]
  subst phase
  refine ⟨alive, sendIs.congr rfl rfl (by simp [move]), ?_, ?_, ?_, ?_, ?_, fun _ _ => nofun⟩
  · simp_all [RecvIs, NoHndl, Receives, move]
  all_goals cases block <;> simp_all [Spot.allowsSend, Spot.allowsRecv, RecvPhase.untold,
    RecvPhase.joined]

theorem Tidy.haltsNone {block : Bool} (tidy : l.Tidy (.stopRecv block) send recv)
    (hndl : l.recvMode = .run ∨ l.recvMode = .spawn → l.hndlThreadState ≠ .running)
    (recvs : l.recvMode = .handle → l.recvThreadState ≠ .running) :
    Tidy (l.move (.api id) (.stopSend block)) (.stopSend block) send recv := by
  have is := tidy.recvIs
  have allowsSend := tidy.allowsSend
  have allowsRecv := tidy.allowsRecv
  refine tidy.goes ?_ ?_ rfl rfl
  · cases block <;> simp_all [Spot.allowsSend]
  · cases recv <;> cases block <;> simp_all [Spot.allowsRecv, RecvPhase.untold, RecvPhase.joined, RecvIs,
      NoRecv, NoHndl, Receives]

theorem Tidy.joinsHndl (tidy : l.Tidy .stopJoinHndl send recv) (ended : l.spot .handler = .idle) :
    Tidy (l.joinHndl.move (.api id) .stopHndlStopped) .stopHndlStopped send .hndlJoined := by
  obtain ⟨alive, sendIs, recvIs, allowsSend, allowsRecv, -, -, -⟩ := tidy
  have phase : recv = .hndlHalted := by
    cases recv <;> simp_all [RecvIs, Spot.allowsRecv, RecvPhase.hndlLeaves]
  subst phase
  refine ⟨?_, sendIs.congr rfl rfl (by simp [move, joinHndl]), ?_, allowsSend, rfl, nofun, nofun,
    fun _ _ => nofun⟩
  · simp_all [RecvIs, joinHndl, move]
  · simp_all [RecvIs, NoRecv, joinHndl, move]

theorem Tidy.hndlStopped (tidy : l.Tidy .stopHndlStopped send recv) :
    Tidy ({ l with hndlThreadState := .stopped }.move (.api id) (.stopSend true)) (.stopSend true) send
      .down := by
  obtain ⟨alive, sendIs, recvIs, allowsSend, allowsRecv, -, -, -⟩ := tidy
  have phase : recv = .hndlJoined := by simpa [Spot.allowsRecv] using allowsRecv
  subst phase
  refine ⟨alive, sendIs.congr rfl rfl (by simp [move]), ?_, allowsSend, rfl, nofun, nofun, ?_⟩
  · simp_all [RecvIs, NoHndl, NoRecv, move]
  · intro mode
    simp_all [RecvIs, move]

theorem Tidy.joinsRecv (tidy : l.Tidy .stopJoinRecv send recv) (ended : l.spot .receiver = .idle) :
    Tidy (l.joinRecv.move (.api id) .stopRecvStopped) .stopRecvStopped send .recvJoined := by
  obtain ⟨alive, sendIs, recvIs, allowsSend, allowsRecv, -, -, -⟩ := tidy
  have phase : recv = .recvHalted := by
    cases recv <;> simp_all [RecvIs, Spot.allowsRecv]
  subst phase
  refine ⟨?_, sendIs.congr rfl rfl (by simp [move, joinRecv]), ?_, allowsSend, rfl, nofun, nofun,
    fun _ _ => nofun⟩
  · simp_all [RecvIs, joinRecv, move]
  · simp_all [RecvIs, NoHndl, joinRecv, move]

theorem Tidy.recvStopped (tidy : l.Tidy .stopRecvStopped send recv) :
    Tidy ({ l with recvThreadState := .stopped }.move (.api id) (.stopSend true)) (.stopSend true) send
      .down := by
  obtain ⟨alive, sendIs, recvIs, allowsSend, allowsRecv, -, -, -⟩ := tidy
  have phase : recv = .recvJoined := by simpa [Spot.allowsRecv] using allowsRecv
  subst phase
  refine ⟨alive, sendIs.congr rfl rfl (by simp [move]), ?_, allowsSend, rfl, nofun, nofun,
    fun _ _ _ => rfl⟩
  simp_all [RecvIs, NoHndl, NoRecv, move]

theorem Tidy.haltsSend {block : Bool} (tidy : l.Tidy (.stopSend block) send recv)
    (running : l.sendThreadState = .running) :
    Tidy ({ l with sendThreadState := .halting, sendClosed := true }.move (.api id)
      (if block then .stopJoinSend else .stopPollRecv)) (if block then .stopJoinSend else .stopPollRecv)
      .halting recv := by
  obtain ⟨alive, sendIs, recvIs, allowsSend, allowsRecv, -, -, stopped⟩ := tidy
  have phase : send = .running := by
    cases send <;> simp_all [SendIs]
  subst phase
  refine ⟨alive, ⟨rfl, sendIs.2.1, .inl (by simp [move, sendIs.2.2])⟩,
    recvIs.congr rfl ⟨rfl, rfl⟩ ⟨rfl, rfl⟩ (by simp [move]), ?_, ?_, ?_, ?_,
    fun mode _ down => stopped mode nofun down⟩
  all_goals cases block <;> simp_all [Spot.allowsSend, Spot.allowsRecv]

theorem Tidy.skipsSend {block : Bool} (tidy : l.Tidy (.stopSend block) send recv)
    (other : l.sendThreadState ≠ .running) :
    Tidy (l.move (.api id) (if block then .stopRestore else .stopPollRecv))
      (if block then .stopRestore else .stopPollRecv) send recv := by
  have is := tidy.sendIs
  have allowsSend := tidy.allowsSend
  have allowsRecv := tidy.allowsRecv
  refine tidy.goes ?_ ?_ rfl ?_
  · cases send <;> cases block <;> simp_all [Spot.allowsSend, SendIs]
  · cases block <;> simp_all [Spot.allowsRecv]
  · cases block <;> exact rfl

theorem Tidy.joinsSend (tidy : l.Tidy .stopJoinSend send recv) (ended : l.spot .sender = .idle) :
    Tidy (l.joinSend.move (.api id) .stopSendStopped) .stopSendStopped .joined recv := by
  obtain ⟨alive, sendIs, recvIs, allowsSend, allowsRecv, -, -, stopped⟩ := tidy
  have phase : send = .halted := by
    cases send <;> simp_all [SendIs, Spot.allowsSend]
  subst phase
  refine ⟨?_, ⟨sendIs.1, rfl, by simp [move, joinSend, ended]⟩,
    recvIs.congr rfl ⟨rfl, rfl⟩ ⟨rfl, rfl⟩ (by simp [move, joinSend]), rfl, allowsRecv, nofun, nofun,
    fun mode _ down => stopped mode nofun down⟩
  simp_all [SendIs, joinSend, move]

theorem Tidy.sendStopped (tidy : l.Tidy .stopSendStopped send recv) :
    Tidy ({ l with sendThreadState := .stopped }.move (.api id) .stopRestore) .stopRestore .down recv := by
  obtain ⟨alive, sendIs, recvIs, allowsSend, allowsRecv, -, -, stopped⟩ := tidy
  have phase : send = .joined := by simpa [Spot.allowsSend] using allowsSend
  subst phase
  exact ⟨alive, ⟨rfl, sendIs.2.1, by simp [move, sendIs.2.2]⟩,
    recvIs.congr rfl ⟨rfl, rfl⟩ ⟨rfl, rfl⟩ (by simp [move]), rfl, allowsRecv, nofun, nofun,
    fun mode _ down => stopped mode nofun down⟩

theorem Tidy.pollsHndl (tidy : l.Tidy .stopPollRecv send recv) (mode : l.recvMode = .spawn)
    (halted : l.hndlThreadState = .halted) :
    Tidy ({ l.joinHndl with hndlThreadState := .stopped }.move (.api id) .stopPollSend) .stopPollSend send
      .down := by
  obtain ⟨alive, sendIs, recvIs, allowsSend, allowsRecv, -, -, -⟩ := tidy
  have phase : recv = .hndlHalted := by
    cases recv <;> simp_all [RecvIs, NoHndl, Spot.allowsRecv, RecvPhase.untold, RecvPhase.joined]
  subst phase
  refine ⟨?_, sendIs.congr rfl rfl (by simp [move, joinHndl]), ?_, allowsSend, rfl, nofun, nofun, ?_⟩
  · simp_all [RecvIs, joinHndl, move]
  · simp_all [RecvIs, NoHndl, NoRecv, joinHndl, move]
  · simp_all [RecvIs, joinHndl, move]

theorem Tidy.pollsRecv (tidy : l.Tidy .stopPollRecv send recv) (mode : l.recvMode = .handle)
    (halted : l.recvThreadState = .halted) :
    Tidy ({ l.joinRecv with recvThreadState := .stopped }.move (.api id) .stopPollSend) .stopPollSend send
      .down := by
  obtain ⟨alive, sendIs, recvIs, allowsSend, allowsRecv, -, -, stopped⟩ := tidy
  have phase : recv = .recvHalted := by
    cases recv <;> simp_all [RecvIs, Receives, Spot.allowsRecv, RecvPhase.untold, RecvPhase.joined]
  subst phase
  refine ⟨?_, sendIs.congr rfl rfl (by simp [move, joinRecv]), ?_, allowsSend, rfl, nofun, nofun,
    fun _ _ _ => rfl⟩
  · simp_all [RecvIs, joinRecv, move]
  · simp_all [RecvIs, NoHndl, NoRecv, joinRecv, move]

theorem Tidy.pollsNone (tidy : l.Tidy .stopPollRecv send recv)
    (hndl : l.recvMode = .spawn → l.hndlThreadState ≠ .halting ∧ l.hndlThreadState ≠ .halted)
    (recvs : l.recvMode = .handle → l.recvThreadState ≠ .halting ∧ l.recvThreadState ≠ .halted) :
    Tidy (l.move (.api id) .stopPollSend) .stopPollSend send recv := by
  have is := tidy.recvIs
  have allowsRecv := tidy.allowsRecv
  refine tidy.goes tidy.allowsSend ?_ rfl rfl
  cases recv <;> simp_all [Spot.allowsRecv, RecvPhase.untold, RecvPhase.joined, RecvIs]

theorem Tidy.pollsSend (tidy : l.Tidy .stopPollSend send recv) (halted : l.sendThreadState = .halted) :
    Tidy ({ l.joinSend with sendThreadState := .stopped }.move (.api id) .stopRestore) .stopRestore .down
      recv := by
  obtain ⟨alive, sendIs, recvIs, allowsSend, allowsRecv, -, -, stopped⟩ := tidy
  have phase : send = .halted := by
    cases send <;> simp_all [SendIs, Spot.allowsSend]
  subst phase
  refine ⟨?_, ⟨rfl, rfl, by simp [move, joinSend, sendIs.2.2]⟩,
    recvIs.congr rfl ⟨rfl, rfl⟩ ⟨rfl, rfl⟩ (by simp [move, joinSend]), rfl, allowsRecv, nofun, nofun,
    fun mode _ down => stopped mode nofun down⟩
  simp_all [SendIs, joinSend, move]

theorem Tidy.pollsNoSend (tidy : l.Tidy .stopPollSend send recv)
    (other : l.sendThreadState ≠ .halting ∧ l.sendThreadState ≠ .halted) :
    Tidy (l.move (.api id) .stopRestore) .stopRestore send recv := by
  have is := tidy.sendIs
  have allowsSend := tidy.allowsSend
  refine tidy.goes ?_ tidy.allowsRecv rfl rfl
  cases send <;> simp_all [Spot.allowsSend, SendIs]

theorem Tidy.restores (tidy : l.Tidy .stopRestore send recv) :
    Tidy ({ l with recvMode := .none, recvModeMutex := none }.move (.api id) .idle) .idle .down .down := by
  obtain ⟨alive, sendIs, recvIs, allowsSend, allowsRecv, -, -, -⟩ := tidy
  have sendPhase : send = .down := by simpa [Spot.allowsSend] using allowsSend
  have recvPhase : recv = .down := by simpa [Spot.allowsRecv] using allowsRecv
  subst sendPhase recvPhase
  refine ⟨alive, sendIs.congr rfl rfl (by simp [move]), ?_, rfl, rfl, nofun, nofun, fun mode => ?_⟩
  · simp_all [RecvIs, NoHndl, NoRecv, move]
  · cases mode

theorem Tidy.caller_calling (tidy : l.Tidy (l.spot (.api id)) send recv)
    (part : (l.spot (.api id)).part = .calling) (h : Step l (.api id) l') :
    ∃ p' send' recv', l'.spot (.api id) = p' ∧ l'.Tidy p' send' recv' := by
  cases h
  case quiet => exact ⟨_, send, recv, rfl, tidy⟩
  case calls p' closed here next closes =>
    rw [here] at tidy
    refine ⟨p', send, recv, by simp [move], tidy.goes ?_ ?_ rfl ?_⟩
    · rcases next with rfl | rfl | rfl <;> exact tidy.allowsSend
    · rcases next with rfl | rfl | rfl <;> exact tidy.allowsRecv
    · rcases next with rfl | rfl | rfl <;> exact rfl
  case opens p' here next =>
    rw [here] at tidy
    refine ⟨p', send, recv, by simp [move], tidy.goes ?_ ?_ rfl ?_⟩
    · rcases next with rfl | rfl <;> exact tidy.allowsSend
    · rcases next with rfl | rfl <;> exact tidy.allowsRecv
    · rcases next with rfl | rfl <;> exact rfl
  case publishesToo here started =>
    rw [here] at tidy
    exact ⟨_, send, recv, by simp [move], tidy.goes tidy.allowsSend tidy.allowsRecv rfl rfl⟩
  case handlesToo here mode =>
    rw [here] at tidy
    exact ⟨_, send, recv, by simp [move], tidy.goes tidy.allowsSend tidy.allowsRecv rfl rfl⟩
  case refuses here =>
    rcases here with here | here | here
    all_goals rw [here] at tidy
    · exact ⟨_, send, recv, by simp [move], tidy.goes tidy.allowsSend tidy.allowsRecv rfl rfl⟩
    · cases tidy.allowsRecv
    · exact ⟨_, send, recv, by simp [move], tidy.goes tidy.allowsSend tidy.allowsRecv rfl rfl⟩
  case publishes here down =>
    rw [here] at tidy
    exact ⟨_, _, _, by simp [move], tidy.publishes down⟩
  case starts here _ mode =>
    rw [here] at tidy
    have free : send ≠ .joined := by simpa [Spot.allowsSend] using tidy.allowsSend
    exact ⟨_, _, _, by simp [move], tidy.takesMode mode .spawn .startSpawn (.inl ⟨rfl, rfl⟩) free _⟩
  case handles here _ mode =>
    rw [here] at tidy
    have free : send ≠ .joined := by simpa [Spot.allowsSend] using tidy.allowsSend
    exact ⟨_, _, _, by simp [move], tidy.takesMode mode .handle .handleSpawn (.inr ⟨rfl, rfl⟩) free _⟩
  case startsHndl here =>
    rw [here] at tidy
    exact ⟨_, _, _, by simp [move], tidy.startsHndl⟩
  case startsRecv here =>
    rw [here] at tidy
    exact ⟨_, _, _, by simp [move], tidy.startsRecv⟩
  all_goals grind -linarith [Spot.part]

theorem Tidy.caller_stopping (tidy : l.Tidy (l.spot (.api id)) send recv)
    (part : (l.spot (.api id)).part = .stopping) (h : Step l (.api id) l') :
    ∃ p' send' recv', l'.spot (.api id) = p' ∧ l'.Tidy p' send' recv' := by
  cases h
  case quiet => exact ⟨_, send, recv, rfl, tidy⟩
  case stops block here _ =>
    rw [here] at tidy
    refine ⟨_, send, recv, by simp [move], tidy.goes ?_ ?_ rfl rfl⟩
    · cases block <;> exact tidy.allowsSend
    · cases block <;> exact tidy.allowsRecv
  case haltsHndl block here mode running =>
    rw [here] at tidy
    have spawn : l.recvMode = .spawn := by
      have is := tidy.recvIs
      rcases mode with run | spawn
      · cases recv <;> simp_all [RecvIs]
      · exact spawn
    obtain ⟨recv', halts⟩ := @Tidy.haltsHndl l id send recv block tidy spawn running
    have joins : (if block = true ∧ l.recvMode = RecvMode.spawn then Spot.stopJoinHndl
        else .stopSend block) = if block = true then .stopJoinHndl else .stopSend block := by
      simp [spawn]
    rw [joins]
    exact ⟨_, _, recv', by simp [move], halts⟩
  case haltsRecv block here mode running =>
    rw [here] at tidy
    exact ⟨_, _, _, by simp [move], tidy.haltsRecv mode running⟩
  case haltsNone block here hndl recvs =>
    rw [here] at tidy
    exact ⟨_, _, _, by simp [move], tidy.haltsNone hndl recvs⟩
  case joinsHndl here ended =>
    rw [here] at tidy
    exact ⟨_, _, _, by simp [move], tidy.joinsHndl ended⟩
  case hndlStopped here =>
    rw [here] at tidy
    exact ⟨_, _, _, by simp [move], tidy.hndlStopped⟩
  case joinsRecv here ended =>
    rw [here] at tidy
    exact ⟨_, _, _, by simp [move], tidy.joinsRecv ended⟩
  case recvStopped here =>
    rw [here] at tidy
    exact ⟨_, _, _, by simp [move], tidy.recvStopped⟩
  case haltsSend block here running =>
    rw [here] at tidy
    exact ⟨_, _, _, by simp [move], tidy.haltsSend running⟩
  case skipsSend block here other =>
    rw [here] at tidy
    exact ⟨_, _, _, by simp [move], tidy.skipsSend other⟩
  case joinsSend here ended =>
    rw [here] at tidy
    exact ⟨_, _, _, by simp [move], tidy.joinsSend ended⟩
  case sendStopped here =>
    rw [here] at tidy
    exact ⟨_, _, _, by simp [move], tidy.sendStopped⟩
  all_goals grind -linarith [Spot.part]

theorem Tidy.caller_polling (tidy : l.Tidy (l.spot (.api id)) send recv)
    (part : (l.spot (.api id)).part = .polling) (h : Step l (.api id) l') :
    ∃ p' send' recv', l'.spot (.api id) = p' ∧ l'.Tidy p' send' recv' := by
  cases h
  case quiet => exact ⟨_, send, recv, rfl, tidy⟩
  case givesUp here =>
    refine ⟨.idle, send, recv, by simp [move], ?_⟩
    rcases here with here | here
    all_goals
      rw [here] at tidy
      refine tidy.goes ?_ ?_ rfl rfl
      · have allows := tidy.allowsSend
        cases send <;> simp_all [Spot.allowsSend]
      · have allows := tidy.allowsRecv
        cases recv <;> simp_all [Spot.allowsRecv, RecvPhase.untold, RecvPhase.joined]
  case pollsHndl here mode halted _ =>
    rw [here] at tidy
    exact ⟨_, _, _, by simp [move], tidy.pollsHndl mode halted⟩
  case pollsRecv here mode halted _ =>
    rw [here] at tidy
    exact ⟨_, _, _, by simp [move], tidy.pollsRecv mode halted⟩
  case pollsNone here hndl recvs =>
    rw [here] at tidy
    exact ⟨_, _, _, by simp [move], tidy.pollsNone hndl recvs⟩
  case pollsSend here halted _ =>
    rw [here] at tidy
    exact ⟨_, _, _, by simp [move], tidy.pollsSend halted⟩
  case pollsNoSend here other =>
    rw [here] at tidy
    exact ⟨_, _, _, by simp [move], tidy.pollsNoSend other⟩
  case stopped here =>
    rw [here] at tidy
    exact ⟨_, _, _, by simp [move], tidy.restores⟩
  all_goals grind -linarith [Spot.part]

theorem Tidy.caller (tidy : l.Tidy (l.spot (.api id)) send recv) (h : Step l (.api id) l') :
    ∃ p' send' recv', l'.spot (.api id) = p' ∧ l'.Tidy p' send' recv' := by
  cases part : (l.spot (.api id)).part with
  | calling => exact tidy.caller_calling part h
  | stopping => exact tidy.caller_stopping part h
  | polling => exact tidy.caller_polling part h
  | working => exact absurd part (Spot.part_ne_working tidy.allowsRecv)

def Orderly (l : Lifecycle) : Prop :=
  l.Roles ∧ ∃ id send recv, (∀ other, other ≠ id → l.spot (.api other) = .idle) ∧
    l.Tidy (l.spot (.api id)) send recv

theorem Orderly.step (orderly : l.Orderly) (h : Step l a l') : l'.Orderly := by
  obtain ⟨roles, id, send, recv, others, tidy⟩ := orderly
  refine ⟨roles.step h, ?_⟩
  have elsewhere : ∀ other, a ≠ .api other → l'.spot (.api other) = l.spot (.api other) := by
    intro other different
    rcases h.spot_of_ne (b := .api other) different.symm with same | ⟨worker, -⟩ | ⟨worker, -⟩ | ⟨worker, -⟩
    · exact same
    all_goals cases worker
  cases a with
  | sender =>
      obtain ⟨send', after⟩ := tidy.sender roles h
      refine ⟨id, send', recv, fun other different => ?_, ?_⟩
      · rw [elsewhere other nofun]
        exact others other different
      · rw [elsewhere id nofun]
        exact after
  | receiver =>
      obtain ⟨recv', after⟩ := tidy.receiver roles h
      refine ⟨id, send, recv', fun other different => ?_, ?_⟩
      · rw [elsewhere other nofun]
        exact others other different
      · rw [elsewhere id nofun]
        exact after
  | handler =>
      obtain ⟨recv', after⟩ := tidy.handler roles h
      refine ⟨id, send, recv', fun other different => ?_, ?_⟩
      · rw [elsewhere other nofun]
        exact others other different
      · rw [elsewhere id nofun]
        exact after
  | api caller =>
      by_cases self : caller = id
      · subst self
        obtain ⟨p', send', recv', rfl, after⟩ := tidy.caller h
        refine ⟨caller, send', recv', fun other different => ?_, after⟩
        rw [elsewhere other (by simpa using different.symm)]
        exact others other different
      · obtain rfl := h.eq_of_idle (others caller self)
        exact ⟨id, send, recv, others, tidy⟩

def NothingHalting (l : Lifecycle) : Prop :=
  (l.sendThreadState ≠ .halting ∧ l.sendThreadState ≠ .halted) ∧
    (l.recvMode = .spawn → l.hndlThreadState ≠ .halting ∧ l.hndlThreadState ≠ .halted) ∧
    (l.recvMode = .handle → l.recvThreadState ≠ .halting ∧ l.recvThreadState ≠ .halted)

theorem Orderly.call (orderly : l.Orderly) (idle : ∀ other, l.spot (.api other) = .idle) {c : Call}
    (noRun : c ≠ .run) (nothing : c = .stop true → l.NothingHalting) (enters : p = c.spot ∨ p = .idle) :
    (l.move (.api id) p).Orderly := by
  obtain ⟨roles, caller, send, recv, -, tidy⟩ := orderly
  rw [idle caller] at tidy
  have self : (l.move (.api id) p).spot (.api id) = p := by simp [move]
  refine ⟨roles.call enters, id, send, recv, fun other different => ?_, ?_⟩
  · rw [move_spot, if_neg (by simpa using different)]
    exact idle other
  rw [self]
  have sendIs := tidy.sendIs
  have recvIs := tidy.recvIs
  have allowsSend := tidy.allowsSend
  have allowsRecv := tidy.allowsRecv
  rcases enters with rfl | rfl
  · cases c
    case run => exact absurd rfl noRun
    case stop block =>
      refine tidy.goes ?_ ?_ rfl rfl
      · cases block
        · exact allowsSend
        · obtain ⟨sends, -, -⟩ := nothing rfl
          cases send <;> simp_all [Call.spot, Spot.allowsSend, SendIs]
      · cases block
        · exact allowsRecv
        · obtain ⟨-, hndls, recvs⟩ := nothing rfl
          cases recv <;> simp_all [Call.spot, Spot.allowsRecv, RecvPhase.untold, RecvPhase.joined, RecvIs]
    all_goals exact tidy.goes allowsSend allowsRecv rfl rfl
  · exact tidy.goes allowsSend allowsRecv rfl rfl

/-- No thread object is joinable, and all threads are STOPPED, apart from a receive thread that the
handle thread has joined. -/
def NoThreads (l : Lifecycle) : Prop :=
  l.sendThread = false ∧ l.recvThread = false ∧ l.hndlThread = false ∧
    l.sendThreadState = .stopped ∧ l.hndlThreadState = .stopped ∧
    (l.recvThreadState = .stopped ∨ l.recvThreadState = .halted)

theorem Orderly.noThreads (orderly : l.Orderly) (restores : l.spot (.api id) = .stopRestore) :
    l.NoThreads := by
  obtain ⟨-, caller, send, recv, others, tidy⟩ := orderly
  have self : id = caller := by
    by_contra different
    rw [others id different] at restores
    cases restores
  subst self
  rw [restores] at tidy
  have sendPhase : send = .down := by simpa [Spot.allowsSend] using tidy.allowsSend
  have recvPhase : recv = .down := by simpa [Spot.allowsRecv] using tidy.allowsRecv
  subst sendPhase recvPhase
  obtain ⟨sendState, sendThread, -⟩ := tidy.sendIs
  obtain ⟨-, ⟨hndlThread, hndlState, -⟩, recvThread, recvState, -⟩ := tidy.recvIs
  exact ⟨sendThread, recvThread, hndlThread, sendState, hndlState, recvState⟩

end Lifecycle

namespace State

/-- Calls come one after the other, none of them is `run`, and no blocking stop is called while a thread
that it would have to join is on its way out or out. -/
def CallsInOrder (s : State) : Event → Prop
  | .call _ c => (∀ id, s.ended (.api id) = true) ∧ c ≠ .run ∧
      (c = .stop true → s.lifecycle.NothingHalting)
  | _ => True

theorem orderly_init (mtu : Nat) : (init mtu).lifecycle.Orderly :=
  ⟨roles_init mtu, 0, .down, .down, fun _ _ => rfl, rfl, ⟨rfl, rfl, rfl⟩,
    ⟨nofun, ⟨rfl, rfl, rfl⟩, rfl, .inl rfl, rfl⟩, rfl, rfl, nofun, nofun, fun _ _ _ => rfl⟩

theorem orderly_next {s t : State} {e : Event} (orderly : s.lifecycle.Orderly) (inOrder : s.CallsInOrder e)
    (h : s.next e = some t) : t.lifecycle.Orderly := by
  obtain ⟨-, next⟩ := next_lifecycle h
  generalize t.lifecycle = l' at next
  cases next with
  | step steps => exact orderly.step steps
  | call p idle enters =>
      obtain ⟨ended, noRun, nothing⟩ := inOrder
      exact orderly.call (fun other => spot_of_ended (ended other)) noRun nothing enters
  | transport | wake => exact orderly

/-- In every run whose calls come in order, whatever the threads do in between: the process never ends
by assigning to a joinable thread object or joining one that is not, and a stop that returns ZCM_EOK
leaves no thread behind. -/
theorem stop_leaves_no_thread (mtu : Nat) (es : List Event)
    (inOrder : Runs.Meets next CallsInOrder (init mtu) es) (pre : List Event) (reached : pre <+: es)
    (t : State) (runs : (init mtu).run pre = some t) :
    t.crashed = false ∧ ∀ id u, t.pc (.api id) = .stopRestore → t.step (.api id) = some u →
      u.pc (.api id) = .idle (some .eok) ∧ u.lifecycle.NoThreads := by
  have orderly : t.lifecycle.Orderly := by
    refine @Runs.run_invariant _ _ next CallsInOrder (fun s => s.lifecycle.Orderly) ?_ _ _
      (orderly_init mtu) inOrder _ reached _ runs
    intro s e u orderly allowed h
    exact orderly_next orderly allowed h
  constructor
  · obtain ⟨-, _, _, _, -, tidy⟩ := orderly
    exact tidy.alive
  · intro id u here h
    have left := @Lifecycle.Orderly.noThreads t.lifecycle id orderly (congrArg Pc.spot here)
    replace h := (advance_of_step h).2
    simp only [advance, here, Option.some.injEq] at h
    subst h
    exact ⟨by simp [ret], left⟩

def startsAndStops : List Event :=
  Event.call 0 .start :: List.replicate 2 (Event.step (.api 0)) ++
    Event.call 0 (.stop true) :: List.replicate 2 (Event.step (.api 0)) ++ List.replicate 3 (Event.step .handler) ++
    List.replicate 2 (Event.step .receiver) ++ List.replicate 2 (Event.step .handler) ++
    List.replicate 3 (Event.step (.api 0))

theorem stop_leaves_no_thread_after_start :
    ∃ t u, (init 8).run startsAndStops = some t ∧ t.step (.api 0) = some u ∧
      u.pc (.api 0) = .idle (some .eok) ∧ u.lifecycle.NoThreads := by
  have inOrder : Runs.Meets next CallsInOrder (init 8) startsAndStops := by
    repeat
      refine ⟨?_, fun t h => ?_⟩
      · first
          | trivial
          | refine ⟨fun id => by cases id <;> rfl, nofun, fun stops => ?_⟩
            first
              | cases stops
                done
              | unfold Lifecycle.NothingHalting
                decide
      cases h
    trivial
  have main := stop_leaves_no_thread 8 _ inOrder _ (List.prefix_refl _) _ rfl
  exact ⟨_, _, rfl, rfl, main.2 0 _ rfl rfl⟩

def startsAndPolls : List Event :=
  Event.call 0 .start :: List.replicate 2 (Event.step (.api 0)) ++
    Event.call 0 (.stop false) :: List.replicate 4 (Event.step (.api 0))

/-- The handle thread is still to be joined when the second stop returns ZCM_EOK. -/
theorem stop_leaves_hndlThread :
    ¬ ∀ t, (init 8).run (startsAndPolls ++ Event.call 0 (.stop true) :: List.replicate 4 (Event.step (.api 0))) =
      some t → t.pc (.api 0) = .idle (some .eok) → t.lifecycle.NoThreads := by
  intro claim
  obtain ⟨-, -, left, -⟩ := claim _ rfl rfl
  cases left

end State
end Zcm.Blocking
