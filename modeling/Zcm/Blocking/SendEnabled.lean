import Zcm.Blocking.Core

namespace Zcm.Blocking
open Zcm.Lib Zcm.Util

def Pc.inCall : Pc → Bool
  | .stopMode _ | .stopRecv _ | .stopJoinHndl | .stopHndlStopped | .stopJoinRecv | .stopRecvStopped
  | .stopSend _ | .stopJoinSend | .stopSendStopped | .stopPollRecv | .stopPollSend | .stopRestore => true
  | .flushDisableSend _ | .flushLockSend _ | .flushBackoffSend | .flushEnableSend _ | .flushCountSend _
  | .flushDisableRecv _ | .flushLockRecv _ | .flushBackoffRecv | .flushEnableRecv | .flushCountRecv => true
  | .resizeCheckSend .. | .resizeDisableSend .. | .resizeLockSend .. | .resizeBackoffSend
  | .resizeSetSend .. | .resizeEnableSend .. | .resizeUnlockSend .. | .resizeCheckRecv ..
  | .resizeDisableRecv .. | .resizeLockRecv .. | .resizeBackoffRecv | .resizeSetRecv _
  | .resizeEnableRecv | .resizeUnlockRecv => true
  | .sendTop (.flush ..) | .sendCheck (.flush ..) _ | .sendTransmit (.flush ..) _
  | .sendPop (.flush ..) | .sendDone (.flush ..) => true
  | .dispTop (.flush _) | .dispCheck (.flush _) _ | .dispMsg (.flush _) _ | .dispPop (.flush _)
  | .dispDone (.flush _) _ => true
  | _ => false

inductive Part
  | idle | calling | stopping | flushing | resizing | sending | receiving | dispatching | handling | sleeping
deriving DecidableEq

@[grind =] def Pc.part : Pc → Part
  | .idle _ => .idle
  | .publishSpawn _ | .publishPush _ | .startMode | .startSpawn | .runMode | .runSpawn | .runRestore
  | .handleMode _ | .handleSpawn _ | .handleLock _ | .handlePoll | .pause | .resume => .calling
  | .stopMode _ | .stopRecv _ | .stopJoinHndl | .stopHndlStopped | .stopJoinRecv | .stopRecvStopped
  | .stopSend _ | .stopJoinSend | .stopSendStopped | .stopPollRecv | .stopPollSend | .stopRestore => .stopping
  | .flushDisableSend _ | .flushLockSend _ | .flushBackoffSend | .flushEnableSend _ | .flushCountSend _
  | .flushDisableRecv _ | .flushLockRecv _ | .flushBackoffRecv | .flushEnableRecv | .flushCountRecv => .flushing
  | .resizeCheckSend .. | .resizeDisableSend .. | .resizeLockSend .. | .resizeBackoffSend
  | .resizeSetSend .. | .resizeEnableSend .. | .resizeUnlockSend .. | .resizeCheckRecv ..
  | .resizeDisableRecv .. | .resizeLockRecv .. | .resizeBackoffRecv | .resizeSetRecv _
  | .resizeEnableRecv | .resizeUnlockRecv => .resizing
  | .sendTop _ | .sendCheck .. | .sendTransmit .. | .sendPop _ | .sendDone _ | .sendWait | .sendLock
  | .sendHalt => .sending
  | .recvCheck | .recvTransport | .recvPush _ | .recvHalt => .receiving
  | .dispTop _ | .dispCheck .. | .dispMsg .. | .dispPop _ | .dispDone .. => .dispatching
  | .hndlSpawn | .hndlWait | .hndlLock | .hndlStopRecv | .hndlJoinRecv | .hndlHalt => .handling
  | .fallsAsleep _ => .sleeping

def Pc.owesEnable : Pc → Bool
  | .flushLockSend _ | .flushBackoffSend | .flushEnableSend _ => true
  | .resizeLockSend .. | .resizeBackoffSend | .resizeSetSend .. | .resizeEnableSend .. => true
  | _ => false

theorem Pc.inCall_of_owesEnable {p : Pc} (h : p.owesEnable = true) : p.inCall = true := by
  cases p <;> first | rfl | cases h

def Agent.isApi : Agent → Bool
  | .api _ => true
  | _ => false

namespace State

@[simp] theorem goto_pc_self (s : State) (a : Agent) (p : Pc) : (s.goto a p).pc a = p := by
  simp [goto]

theorem goto_pc_of_ne (s : State) {a b : Agent} (p : Pc) (h : b ≠ a) : (s.goto a p).pc b = s.pc b := by
  simp [goto, h]

@[simp] theorem goto_sendQueue (s : State) (a : Agent) (p : Pc) :
    (s.goto a p).sendQueue = s.sendQueue := rfl

@[simp] theorem goto_sendThreadState (s : State) (a : Agent) (p : Pc) :
    (s.goto a p).sendThreadState = s.sendThreadState := rfl

@[simp] theorem spawn_sendQueue (s : State) :
    s.spawnSend.sendQueue = s.sendQueue ∧ s.spawnRecv.sendQueue = s.sendQueue ∧
      s.spawnHndl.sendQueue = s.sendQueue := ⟨rfl, rfl, rfl⟩

@[simp] theorem spawn_sendThreadState (s : State) :
    s.spawnSend.sendThreadState = s.sendThreadState ∧
      s.spawnRecv.sendThreadState = s.sendThreadState ∧
      s.spawnHndl.sendThreadState = s.sendThreadState := ⟨rfl, rfl, rfl⟩

theorem spawnSend_pc (s : State) (b : Agent) :
    s.spawnSend.pc b = s.pc b ∨ b = .sender ∧ s.spawnSend.pc b = .sendWait := by
  cases b <;> simp [spawnSend, goto]

theorem spawnRecv_pc (s : State) (b : Agent) :
    s.spawnRecv.pc b = s.pc b ∨ b = .receiver ∧ s.spawnRecv.pc b = .recvCheck := by
  cases b <;> simp [spawnRecv, goto]

theorem spawnHndl_pc (s : State) (b : Agent) :
    s.spawnHndl.pc b = s.pc b ∨ b = .handler ∧ s.spawnHndl.pc b = .hndlSpawn := by
  cases b <;> simp [spawnHndl, goto]

theorem advance_of_step {s t : State} {a : Agent} (h : s.step a = some t) :
    (∀ c ∈ (s.pc a).locks s.recvMode, s.stateMutex c = none) ∧ s.advance a = some t := by
  unfold step at h
  split at h
  · cases h
  · next free => exact ⟨by simpa using free, h⟩

inductive SendEffect (s : State) (a : Agent) (t : State) : Prop
  | opens (enabled : t.sendQueue.disabled = false)
  | owes (at_ : (t.pc a).owesEnable = true)
  | halts (state : t.sendThreadState ≠ .running)
  | keeps (flag : t.sendQueue.disabled = s.sendQueue.disabled)
      (state : t.sendThreadState = s.sendThreadState) (free : (s.pc a).owesEnable = false)
  | spawns (m : Msg) (at_ : s.pc a = .publishSpawn m) (state : s.sendThreadState = .stopped)
      (flag : t.sendQueue.disabled = s.sendQueue.disabled)

theorem step_sendEffect {s t : State} {a : Agent} (h : s.step a = some t) : SendEffect s a t := by
  replace h := (advance_of_step h).2
  unfold advance at h
  cases hp : s.pc a <;> simp only [hp] at h
  case idle | recvTransport => cases h
  case flushBackoffSend | flushEnableSend | resizeBackoffSend | resizeEnableSend =>
    cases h
    exact .opens rfl
  case flushDisableSend | resizeDisableSend | resizeSetSend =>
    cases h
    refine .owes ?_
    simp [Pc.owesEnable]
  case flushLockSend | resizeLockSend =>
    unfold stepLockSend at h
    repeat' split at h
    all_goals cases h
    all_goals
      refine .owes ?_
      simp [Pc.owesEnable]
  case stopSendStopped | sendHalt =>
    cases h
    refine .halts ?_
    simp
  case stopSend =>
    cases h
    unfold stepStopSend
    split
    · exact .halts (by simp [notify])
    · exact .keeps rfl rfl (by rw [hp]; rfl)
  case stopPollSend =>
    unfold stepStopPollSend at h
    repeat' split at h
    · cases h
      exact .keeps rfl rfl (by rw [hp]; rfl)
    · obtain ⟨u, -, rfl⟩ := Option.map_eq_some_iff.mp h
      exact .halts (by simp)
    · cases h
      exact .keeps rfl rfl (by rw [hp]; rfl)
  case publishSpawn m =>
    cases h
    unfold stepPublish
    split
    · exact .spawns m hp ‹_› rfl
    · exact .keeps rfl rfl (by rw [hp]; rfl)
  case publishPush =>
    cases h
    exact .keeps (by simp [stepPush, ret]) rfl (by rw [hp]; rfl)
  case stopJoinHndl | stopJoinRecv | stopJoinSend | hndlJoinRecv =>
    obtain ⟨u, joined, rfl⟩ := Option.map_eq_some_iff.mp h
    simp only [joinHndl, joinRecv, joinSend] at joined
    split at joined <;> cases joined
    exact .keeps rfl rfl (by rw [hp]; rfl)
  case sendTop | dispTop | recvPush =>
    simp only [stepSendTop, stepDispTop, stepRecvPush] at h
    obtain ⟨x, -, rfl⟩ := Option.map_eq_some_iff.mp h
    repeat' split
    all_goals exact .keeps rfl rfl (by rw [hp]; rfl)
  case stopPollRecv =>
    simp only [stepStopPollRecv, joinHndl, joinRecv] at h
    repeat' split at h
    all_goals cases h
    all_goals exact .keeps rfl rfl (by rw [hp]; rfl)
  case stopRecv =>
    cases h
    simp only [stepStopRecv]
    repeat' split
    all_goals exact .keeps rfl rfl (by rw [hp]; rfl)
  case sendCheck | sendDone | dispCheck | dispDone =>
    cases h
    simp only [stepSendCheck, stepSendDone, stepDispCheck, stepDispDone]
    repeat' split
    all_goals exact .keeps rfl rfl (by rw [hp]; rfl)
  all_goals
    try simp only [stepMode, stepHandleMode, stepLockSend, stepLockDisp, stepSendWait, stepHndlWait,
      stepWait] at h
    try repeat' split at h
    all_goals cases h
    all_goals exact .keeps rfl rfl (by rw [hp]; rfl)

theorem step_pc_frame {s t : State} {a b : Agent} (h : s.step a = some t) (other : b ≠ a) :
    t.pc b = s.pc b ∨
      b = .sender ∧ t.pc b = .sendWait ∧ (∃ m, s.pc a = .publishSpawn m) ∨
      b = .receiver ∧ t.pc b = .recvCheck ∧ ((∃ n, s.pc a = .handleSpawn n) ∨ s.pc a = .hndlSpawn) ∨
      b = .handler ∧ t.pc b = .hndlSpawn ∧ s.pc a = .startSpawn := by
  replace h := (advance_of_step h).2
  unfold advance at h
  cases hp : s.pc a <;> simp only [hp] at h
  case idle | recvTransport => cases h
  case publishSpawn m =>
    cases h
    simp only [stepPublish]
    split <;> rw [goto_pc_of_ne _ _ other]
    · refine (spawnSend_pc _ b).imp id fun spawned => .inl ⟨spawned.1, spawned.2, m, rfl⟩
    · exact .inl rfl
  case startSpawn =>
    cases h
    rw [goto_pc_of_ne _ _ other]
    refine (spawnHndl_pc _ b).imp id fun spawned => .inr (.inr ⟨spawned.1, spawned.2, rfl⟩)
  case handleSpawn nonblock =>
    cases h
    rw [goto_pc_of_ne _ _ other]
    refine (spawnRecv_pc _ b).imp id fun spawned =>
      .inr (.inl ⟨spawned.1, spawned.2, .inl ⟨nonblock, rfl⟩⟩)
  case hndlSpawn =>
    cases h
    rw [goto_pc_of_ne _ _ other]
    refine (spawnRecv_pc _ b).imp id fun spawned => .inr (.inl ⟨spawned.1, spawned.2, .inr rfl⟩)
  all_goals left
  case stopJoinHndl | stopJoinRecv | stopJoinSend | hndlJoinRecv =>
    obtain ⟨u, joined, rfl⟩ := Option.map_eq_some_iff.mp h
    simp only [joinHndl, joinRecv, joinSend] at joined
    split at joined <;> cases joined
    exact goto_pc_of_ne _ _ other
  case sendTop | dispTop | recvPush =>
    simp only [stepSendTop, stepDispTop, stepRecvPush] at h
    obtain ⟨x, -, rfl⟩ := Option.map_eq_some_iff.mp h
    repeat' split
    all_goals exact goto_pc_of_ne _ _ other
  case stopPollRecv | stopPollSend =>
    simp only [stepStopPollRecv, stepStopPollSend, joinHndl, joinRecv, joinSend] at h
    repeat' split at h
    all_goals cases h
    all_goals exact goto_pc_of_ne _ _ other
  case stopRecv | stopSend | sendCheck | sendDone | dispCheck | dispDone =>
    cases h
    simp only [stepStopRecv, stepStopSend, stepSendCheck, stepSendDone, stepDispCheck, stepDispDone]
    repeat' split
    all_goals exact goto_pc_of_ne _ _ other
  all_goals
    try simp only [stepMode, stepHandleMode, stepLockSend, stepLockDisp, stepSendWait, stepHndlWait,
      stepWait] at h
    try repeat' split at h
    all_goals cases h
    all_goals exact goto_pc_of_ne _ _ other

theorem step_pc_of_ne {s t : State} {a b : Agent} (h : s.step a = some t) (other : b ≠ a) :
    t.pc b = s.pc b ∨ b.isApi = false ∧ (t.pc b).inCall = false := by
  rcases step_pc_frame h other with same | ⟨rfl, spawned, -⟩ | ⟨rfl, spawned, -⟩ | ⟨rfl, spawned, -⟩
  · exact .inl same
  all_goals
    rw [spawned]
    exact .inr ⟨rfl, rfl⟩

theorem step_inCall {s t : State} {a : Agent} (h : s.step a = some t)
    (outside : (s.pc a).inCall = false) : (t.pc a).inCall = false := by
  replace h := (advance_of_step h).2
  unfold advance at h
  cases hp : s.pc a <;> simp only [hp] at h outside
  case idle | recvTransport => cases h
  case sendTop c | dispTop c =>
    simp only [stepSendTop, stepDispTop] at h
    obtain ⟨x, -, rfl⟩ := Option.map_eq_some_iff.mp h
    cases c <;> first | (cases outside; done) | skip
    all_goals split <;> simp [Pc.inCall, sendNext, dispNext]
  case sendTransmit c _ | sendPop c | dispMsg c _ | dispPop c =>
    cases h
    cases c <;> first | (cases outside; done) | skip
    all_goals simp [Pc.inCall, sendNext, dispNext]
  case sendCheck c _ | sendDone c | dispCheck c _ | dispDone c _ =>
    cases h
    cases c <;> first | (cases outside; done) | skip
    all_goals simp only [stepSendCheck, stepSendDone, stepDispCheck, stepDispDone, ret]
    all_goals try split
    all_goals simp [Pc.inCall, sendNext, dispNext]
  all_goals first | (cases outside; done) | skip
  case hndlJoinRecv =>
    obtain ⟨u, -, rfl⟩ := Option.map_eq_some_iff.mp h
    simp [Pc.inCall]
  case recvPush =>
    obtain ⟨x, -, rfl⟩ := Option.map_eq_some_iff.mp h
    simp [Pc.inCall]
  case fallsAsleep c =>
    cases h
    cases c <;> simp [stepFallsAsleep, PauseCond.wait, Pc.inCall]
  all_goals
    try simp only [stepPublish, stepPush, stepMode, stepHandleMode, stepLockSend, stepLockDisp,
      stepSendWait, stepHndlWait, stepWait, ret] at h
    try repeat' split at h
    all_goals cases h
    all_goals simp [Pc.inCall]

def SendOpen (s : State) : Prop :=
  s.sendQueue.isEnabled = true ∨ ∃ b, (s.pc b).owesEnable = true

/-- A publish that is about to start the send thread does so on an open queue. -/
def StartsOpen (s : State) : Event → Prop
  | .step a => (∃ m, s.pc a = .publishSpawn m) → s.sendThreadState = .stopped → s.SendOpen
  | _ => True

structure SendInv (s : State) : Prop where
  workers : ∀ b, b.isApi = false → (s.pc b).inCall = false
  opened : s.sendThreadState = .running → s.SendOpen

theorem sendInv_init (mtu : Nat) : (init mtu).SendInv :=
  ⟨fun _ _ => rfl, fun running => by cases running⟩

theorem owes_of_step {s t : State} {a b : Agent} (inv : s.SendInv) (h : s.step a = some t)
    (free : (s.pc a).owesEnable = false) (owes : (s.pc b).owesEnable = true) :
    (t.pc b).owesEnable = true := by
  have other : b ≠ a := by
    rintro rfl
    rw [free] at owes
    cases owes
  rcases step_pc_of_ne h other with same | ⟨worker, -⟩
  · rwa [same]
  · have := inv.workers b worker
    rw [Pc.inCall_of_owesEnable owes] at this
    cases this

theorem sendOpen_of_step {s t : State} {a : Agent} (inv : s.SendInv) (h : s.step a = some t)
    (free : (s.pc a).owesEnable = false) (flag : t.sendQueue.disabled = s.sendQueue.disabled)
    (opened : s.SendOpen) : t.SendOpen := by
  rcases opened with enabled | ⟨b, owes⟩
  · left
    simpa only [ThreadsafeQueue.isEnabled, flag] using enabled
  · exact .inr ⟨b, owes_of_step inv h free owes⟩

theorem sendInv_step {s t : State} {a : Agent} (inv : s.SendInv) (starts : s.StartsOpen (.step a))
    (h : s.step a = some t) : t.SendInv := by
  constructor
  · intro b worker
    by_cases self : b = a
    · subst self
      exact step_inCall h (inv.workers b worker)
    · rcases step_pc_of_ne h self with same | ⟨-, outside⟩
      · rw [same]
        exact inv.workers b worker
      · exact outside
  · intro running
    cases step_sendEffect h with
    | opens enabled => exact .inl (by simp [ThreadsafeQueue.isEnabled, enabled])
    | owes there => exact .inr ⟨a, there⟩
    | halts state => exact absurd running state
    | keeps flag state free =>
        exact sendOpen_of_step inv h free flag (inv.opened (by rw [← state]; exact running))
    | spawns m there state flag =>
        exact sendOpen_of_step inv h (by rw [there]; rfl) flag (starts ⟨m, there⟩ state)

theorem sendInv_goto {s : State} {a : Agent} {p : Pc} (inv : s.SendInv)
    (free : (s.pc a).owesEnable = false) (worker : a.isApi = false → p.inCall = false) :
    (s.goto a p).SendInv := by
  constructor
  · intro b workerB
    by_cases self : b = a
    · subst self
      rw [goto_pc_self]
      exact worker workerB
    · rw [goto_pc_of_ne s p self]
      exact inv.workers b workerB
  · intro running
    rcases inv.opened running with enabled | ⟨b, owes⟩
    · exact .inl enabled
    · have other : b ≠ a := by
        rintro rfl
        rw [free] at owes
        cases owes
      exact .inr ⟨b, by rwa [goto_pc_of_ne s p other]⟩

theorem sendInv_next {s t : State} {e : Event} (inv : s.SendInv) (starts : s.StartsOpen e)
    (h : s.next e = some t) : t.SendInv := by
  unfold next at h
  split at h
  · cases h
  cases e with
  | step a => exact sendInv_step inv starts h
  | call id c =>
      simp only [call] at h
      split at h <;> cases h
      next last idle =>
        have free : (s.pc (.api id)).owesEnable = false := by rw [idle]; rfl
        cases c <;> simp only [enter, ret] <;> repeat' split
        all_goals exact sendInv_goto inv free nofun
  | transport wanted =>
      simp only [transport] at h
      split at h <;> cases h
      next receiving =>
        refine sendInv_goto inv (by rw [receiving]; rfl) fun _ => ?_
        cases wanted <;> rfl
  | wake a =>
      simp only at h
      split at h <;> cases h
      exact ⟨inv.workers, inv.opened⟩

def publishes (id : Nat) (m : Msg) : List Event :=
  [.call id (.publish m), .step (.api id), .step (.api id)]

end State
end Zcm.Blocking
