import Zcm.Blocking.Stop

namespace Zcm.Blocking
open Zcm.Lib Zcm.Util

namespace Lifecycle
variable {l l' : Lifecycle} {a b : Agent} {send : SendPhase}

theorem Roles.ne_sender (roles : l.Roles) {p : Spot} (here : l.spot a = p) (denied : p.allows .sender = false) :
    Agent.sender ≠ a := by
  rintro rfl
  have role := roles .sender
  rw [here, denied] at role
  cases role

theorem Held.alone (held : l.Held) (mine : (l.spot a).holdsMode = true) (theirs : (l.spot b).holdsMode = true) :
    b = a := by
  have one := held a mine
  rw [held b theirs] at one
  exact Option.some.inj one

def Joins (l : Lifecycle) (send : SendPhase) : Prop :=
  ∀ a, (l.spot a = .stopJoinSend → send = .halting ∨ send = .halted) ∧
    (l.spot a = .stopSendStopped → send = .joined)

structure Live (l : Lifecycle) : Prop where
  roles : l.Roles
  held : l.Held
  sender : ∃ send, l.SendIs send ∧ l.Joins send
  receiver : l.spot .receiver ≠ .idle → l.recvThread = true
  handler : l.spot .handler ≠ .idle → l.hndlThread = true

theorem Live.receiver_step (live : l.Live) (h : Step l a l') (runs : l'.spot .receiver ≠ .idle) :
    l'.recvThread = true := by
  have role := live.roles a
  have receiver := live.receiver
  cases h
  case quiet => exact receiver runs
  all_goals simp only [move, spawnSend, spawnRecv, spawnHndl, joinSend, joinRecv, joinHndl,
    Function.update_apply] at runs ⊢
  all_goals grind -linarith [Spot.allows, Agent.isApi]

theorem Live.handler_step (live : l.Live) (h : Step l a l') (runs : l'.spot .handler ≠ .idle) :
    l'.hndlThread = true := by
  have role := live.roles a
  have handler := live.handler
  cases h
  case quiet => exact handler runs
  all_goals simp only [move, spawnSend, spawnRecv, spawnHndl, joinSend, joinRecv, joinHndl,
    Function.update_apply] at runs ⊢
  all_goals grind -linarith [Spot.allows, Agent.isApi]

theorem Live.publishes (live : l.Live) (here : l.spot a = .publishSpawn) (stopped : l.sendThreadState = .stopped) :
    ∃ send, SendIs ({ l with sendThreadState := .running }.spawnSend.move a .calling) send ∧
      Joins ({ l with sendThreadState := .running }.spawnSend.move a .calling) send := by
  obtain ⟨send, is, joins⟩ := live.sender
  have phase : send = .down := by cases send <;> simp_all [SendIs]
  subst phase
  have other := live.roles.ne_sender here rfl
  refine ⟨.running, ⟨rfl, rfl, by simp [spawnSend, move_spot, other]⟩, fun b => ?_⟩
  have theirs := joins b
  simp only [spawnSend, move_spot]
  grind -linarith

theorem Live.haltsSend {block : Bool} (live : l.Live) (here : l.spot a = .stopSend block)
    (running : l.sendThreadState = .running) {p : Spot} (plain : p ≠ .stopSendStopped) :
    ∃ send, SendIs ({ l with sendThreadState := .halting, sendClosed := true }.move a p) send ∧
      Joins ({ l with sendThreadState := .halting, sendClosed := true }.move a p) send := by
  obtain ⟨send, is, joins⟩ := live.sender
  have phase : send = .running := by cases send <;> simp_all [SendIs]
  subst phase
  have other := live.roles.ne_sender here rfl
  refine ⟨.halting, ⟨rfl, is.2.1, .inl (by simp [move_spot, other, is.2.2])⟩, fun b => ?_⟩
  have theirs := joins b
  simp only [move_spot]
  grind -linarith

theorem Live.joinsSend (live : l.Live) (here : l.spot a = .stopJoinSend) (ended : l.spot .sender = .idle) :
    ∃ send, SendIs (l.joinSend.move a .stopSendStopped) send ∧ Joins (l.joinSend.move a .stopSendStopped) send := by
  obtain ⟨send, is, joins⟩ := live.sender
  have mine := (joins a).1 here
  have phase : send = .halted := by cases send <;> simp_all [SendIs]
  subst phase
  have other := live.roles.ne_sender here rfl
  refine ⟨.joined, ⟨is.1, rfl, by simp [joinSend, move_spot, other, ended]⟩, fun b => ?_⟩
  have theirs := joins b
  have alone : l.spot b = .stopJoinSend → b = a := fun joining =>
    live.held.alone (by rw [here]; rfl) (by rw [joining]; rfl)
  simp only [joinSend, move_spot]
  grind -linarith

theorem Live.sendStopped (live : l.Live) (here : l.spot a = .stopSendStopped) :
    ∃ send, SendIs ({ l with sendThreadState := .stopped }.move a .stopRestore) send ∧
      Joins ({ l with sendThreadState := .stopped }.move a .stopRestore) send := by
  obtain ⟨send, is, joins⟩ := live.sender
  obtain rfl := (joins a).2 here
  have other := live.roles.ne_sender here rfl
  refine ⟨.down, ⟨rfl, is.2.1, by simp [move_spot, other, is.2.2]⟩, fun b => ?_⟩
  have theirs := joins b
  have alone : l.spot b = .stopSendStopped → b = a := fun joined =>
    live.held.alone (by rw [here]; rfl) (by rw [joined]; rfl)
  simp only [move_spot]
  grind -linarith

theorem Live.pollsSend (live : l.Live) (here : l.spot a = .stopPollSend) (ended : l.spot .sender = .idle) :
    ∃ send, SendIs ({ l.joinSend with sendThreadState := .stopped }.move a .stopRestore) send ∧
      Joins ({ l.joinSend with sendThreadState := .stopped }.move a .stopRestore) send := by
  have other := live.roles.ne_sender here rfl
  refine ⟨.down, ⟨rfl, rfl, by simp [joinSend, move_spot, other, ended]⟩, fun b => ?_⟩
  have alone : (l.spot b).holdsMode = true → b = a := live.held.alone (by rw [here]; rfl)
  simp only [joinSend, move_spot]
  grind -linarith [Spot.holdsMode]

theorem Live.sender_same (live : l.Live) (state : l'.sendThreadState = l.sendThreadState)
    (thread : l'.sendThread = l.sendThread) (spot : l'.spot .sender = l.spot .sender)
    (others : ∀ b, l'.spot b = l.spot b ∨ l'.spot b ≠ .stopJoinSend ∧ l'.spot b ≠ .stopSendStopped) :
    ∃ send, l'.SendIs send ∧ l'.Joins send := by
  obtain ⟨send, is, joins⟩ := live.sender
  refine ⟨send, is.congr state thread spot, fun b => ?_⟩
  rcases others b with same | ⟨notJoining, notJoined⟩
  · rw [same]
    exact joins b
  · exact ⟨fun joining => absurd joining notJoining, fun joined => absurd joined notJoined⟩

theorem Live.sender_step (live : l.Live) (h : Step l a l') : ∃ send, l'.SendIs send ∧ l'.Joins send := by
  have role := live.roles a
  cases h
  case quiet => exact live.sender
  case publishes here stopped => exact live.publishes here stopped
  case haltsSend block here running => exact live.haltsSend here running (by cases block <;> simp)
  case joinsSend here ended => exact live.joinsSend here ended
  case sendStopped here => exact live.sendStopped here
  case pollsSend here _ ended => exact live.pollsSend here ended
  case sendHalts here halting =>
    obtain rfl : a = .sender := by simpa [here, Spot.allows] using role
    obtain ⟨send, is, joins⟩ := live.sender
    have phase : send = .halting := by cases send <;> simp_all [SendIs]
    subst phase
    refine ⟨.halting, ⟨is.1, is.2.1, .inr (by simp [move_spot])⟩, fun b => ?_⟩
    have theirs := joins b
    simp only [move_spot]
    grind -linarith
  case sendEnds here =>
    obtain rfl : a = .sender := by simpa [here, Spot.allows] using role
    obtain ⟨send, is, joins⟩ := live.sender
    have phase : send = .halting := by cases send <;> simp_all [SendIs]
    subst phase
    refine ⟨.halted, ⟨rfl, is.2.1, by simp [move_spot]⟩, fun b => ?_⟩
    have theirs := joins b
    simp only [move_spot]
    grind -linarith
  all_goals
    refine live.sender_same rfl rfl ?_ fun b => ?_
    all_goals simp only [spawnRecv, spawnHndl, joinRecv, joinHndl, move_spot]
    all_goals grind -linarith [Spot.allows, Agent.isApi]

theorem Live.step (live : l.Live) (h : Step l a l') : l'.Live :=
  ⟨live.roles.step h, live.held.step h, live.sender_step h, live.receiver_step h, live.handler_step h⟩

theorem Live.next {e : Event} (live : l.Live) (h : Next l e l') : l'.Live := by
  cases h with
  | step steps => exact live.step steps
  | @call id c p idle enters =>
      have worker : ∀ {w : Agent}, w.isApi = false → (l.move (.api id) p).spot w = l.spot w := by
        intro w isWorker
        refine (move_spot l _ _ p).trans (if_neg ?_)
        rintro rfl
        cases isWorker
      refine ⟨live.roles.call enters, live.held.call enters, live.sender_same rfl rfl (worker rfl) fun b => ?_,
        fun runs => live.receiver (by rwa [worker rfl] at runs),
        fun runs => live.handler (by rwa [worker rfl] at runs)⟩
      rw [move_spot]
      split
      · right
        rcases enters with rfl | rfl
        · cases c <;> simp [Call.spot]
        · simp
      · exact .inl rfl
  | transport | wake => exact live

theorem Live.sender_idle (live : l.Live) (stopped : l.sendThreadState = .stopped) : l.spot .sender = .idle := by
  obtain ⟨send, is, -⟩ := live.sender
  cases send <;> simp_all [SendIs]

end Lifecycle

def SendCaller.owesNotify : SendCaller → Option PauseCond
  | .thread => none
  | .flush .. => some .send

def DispCaller.owesNotify : DispCaller → Option PauseCond
  | .thread | .handle => none
  | .flush _ => some .hndl

/-- What a flush has still to notify, in the part of it that it is in. -/
def Pc.owesNotify : Pc → Option PauseCond
  | .flushDisableSend _ | .flushLockSend _ | .flushBackoffSend | .flushEnableSend _ | .flushCountSend _ => some .send
  | .sendTop c | .sendCheck c _ | .sendTransmit c _ | .sendPop c | .sendDone c => c.owesNotify
  | .flushDisableRecv _ | .flushLockRecv _ | .flushBackoffRecv | .flushEnableRecv | .flushCountRecv => some .hndl
  | .dispTop c | .dispCheck c _ | .dispMsg c _ | .dispPop c | .dispDone c _ => c.owesNotify
  | _ => none

def Pc.notifies : Pc → Option PauseCond
  | .flushBackoffSend => some .send
  | .flushBackoffRecv => some .hndl
  | .sendDone c => c.owesNotify
  | .dispDone c _ => c.owesNotify
  | _ => none

theorem Pc.inCall_of_owesNotify {c : PauseCond} {p : Pc} (owes : p.owesNotify = some c) : p.inCall = true := by
  cases p
  all_goals first | (cases owes; done) | rfl | skip
  case sendTop caller | sendCheck caller _ | sendTransmit caller _ | sendPop caller | sendDone caller |
      dispTop caller | dispCheck caller _ | dispMsg caller _ | dispPop caller | dispDone caller _ =>
    cases caller <;> first | rfl | cases owes

/-- No flush is in these parts. -/
def Part.silent : Part → Bool
  | .calling | .stopping | .resizing | .receiving | .handling => true
  | .idle | .flushing | .sending | .dispatching | .sleeping => false

def Part.sleeps : Part → Bool
  | .sleeping => true
  | _ => false

theorem Part.sleeps_of_silent {p : Part} (silent : p.silent = true) : p.sleeps = false := by
  cases p <;> first | rfl | cases silent

theorem Pc.owesNotify_of_silent {p : Pc} (silent : p.part.silent = true) : p.owesNotify = none := by
  cases p <;> first | rfl | cases silent

theorem Pc.isApi_of_owesNotify {c : PauseCond} {p : Pc} (owes : p.owesNotify = some c) {a : Agent}
    (role : p.spot.allows a = true) : a.isApi = true := by
  cases p
  all_goals first | (cases owes; done) | exact role | skip
  case sendTop caller | sendCheck caller _ | sendTransmit caller _ | sendPop caller | sendDone caller |
      dispTop caller | dispCheck caller _ | dispMsg caller _ | dispPop caller | dispDone caller _ =>
    cases caller <;> first | exact role | cases owes

def Pc.holdsSendOne : Pc → Bool
  | .flushEnableSend _ | .flushCountSend _ | .resizeSetSend .. | .resizeEnableSend .. | .resizeUnlockSend ..
  | .sendTop _ | .sendCheck .. | .sendTransmit .. | .sendPop _ | .sendDone _ => true
  | _ => false

namespace State

/-- The agent sleeps on `c`, or holds the state mutex and is about to. -/
def SleepsOn (s : State) (c : PauseCond) (a : Agent) : Prop :=
  s.pc a = .fallsAsleep c ∨ s.asleep a = true ∧ (s.pc a).waitsOn = some c

def Wakes (s t : State) (c : PauseCond) : Prop := ∀ b, (s.pc b).waitsOn = some c → t.asleep b = false

inductive WaitEffect (s : State) (a : Agent) (t : State) : Prop
  | stays (asleep : ∀ b, t.asleep b = true → s.asleep b = true) (mutex : t.stateMutex = s.stateMutex)
      (here : ∀ c, s.pc a ≠ .fallsAsleep c) (there : ∀ c, t.pc a ≠ .fallsAsleep c)
      (owes : ∀ c, (s.pc a).owesNotify = some c →
        (t.pc a).owesNotify = some c ∨ (s.pc a).notifies = some c ∧ Wakes s t c)
      (paused : s.paused = true → t.paused = true ∨ s.pc a = .resume ∧ ∀ c, Wakes s t c)
  | checks (c : PauseCond) (here : s.pc a = c.wait) (off : s.mayGoOn c = false)
      (holds : t = { s with stateMutex := Function.update s.stateMutex c (some a) }.goto a (.fallsAsleep c))
  | sleeps (c : PauseCond) (here : s.pc a = .fallsAsleep c) (asleep : t = s.stepFallsAsleep a c)

theorem wakes_notify (s : State) {c : PauseCond} {t : State}
    (asleep : ∀ b, t.asleep b = true → (s.notify c).asleep b = true) :
    Wakes s t c := by
  intro b waits
  by_contra sleeps
  have := asleep b (by simpa using sleeps)
  simp [notify, waits] at this

theorem notify_asleep {s : State} {c : PauseCond} {b : Agent} (asleep : (s.notify c).asleep b = true) :
    s.asleep b = true := by
  simp only [notify, Bool.and_eq_true] at asleep
  exact asleep.1

theorem waitEffect_quiet {s u : State} {a : Agent} {p : Pc} (asleep : ∀ b, u.asleep b = true → s.asleep b = true)
    (same : u.stateMutex = s.stateMutex ∧ u.paused = s.paused) (here : (s.pc a).part.sleeps = false)
    (there : p.part.sleeps = false) (owes : ∀ c, (s.pc a).owesNotify = some c → p.owesNotify = some c) :
    WaitEffect s a (u.goto a p) := by
  refine .stays asleep same.1 (fun c at_ => ?_) (fun c at_ => ?_) (fun c owed => .inl ?_) fun was => .inl ?_
  · rw [at_] at here
    cases here
  · rw [goto_pc_self] at at_
    rw [at_] at there
    cases there
  · rw [goto_pc_self]
    exact owes c owed
  · exact same.2.trans was

theorem waitEffect_keeps {s u : State} {a : Agent} {p : Pc} (here : (s.pc a).part.sleeps = false)
    (asleep : u.asleep = s.asleep) (same : u.stateMutex = s.stateMutex ∧ u.paused = s.paused)
    (there : p.part.sleeps = false) (owes : p.owesNotify = (s.pc a).owesNotify) : WaitEffect s a (u.goto a p) :=
  waitEffect_quiet (fun _ sleeps => asleep ▸ sleeps) same here there fun _ owed => owes.trans owed

theorem waitEffect_silent {s u : State} {a : Agent} {p : Pc} (silent : (s.pc a).part.silent = true)
    (asleep : ∀ b, u.asleep b = true → s.asleep b = true)
    (same : u.stateMutex = s.stateMutex ∧ u.paused = s.paused) (there : p.part.sleeps = false) :
    WaitEffect s a (u.goto a p) := by
  refine waitEffect_quiet asleep same (Part.sleeps_of_silent silent) there fun c owed => ?_
  rw [Pc.owesNotify_of_silent silent] at owed
  cases owed

theorem waitEffect_notifies {s u : State} {a : Agent} {p : Pc} {c : PauseCond} (asleep : u.asleep = (s.notify c).asleep)
    (same : u.stateMutex = s.stateMutex ∧ u.paused = s.paused) (here : (s.pc a).part.sleeps = false)
    (there : p.part.sleeps = false) (owes : (s.pc a).owesNotify = some c) (notifies : (s.pc a).notifies = some c) :
    WaitEffect s a (u.goto a p) := by
  refine .stays (fun b sleeps => ?_) same.1 (fun c at_ => ?_) (fun c at_ => ?_) (fun c' owed => .inr ?_) fun was =>
    .inl (same.2.trans was)
  · have notified : (s.notify c).asleep b = true := by rw [← asleep]; exact sleeps
    exact notify_asleep notified
  · rw [at_] at here
    cases here
  · rw [goto_pc_self] at at_
    rw [at_] at there
    cases there
  · obtain rfl : c = c' := Option.some.inj (owes.symm.trans owed)
    exact ⟨notifies, wakes_notify s fun b sleeps => by rw [← asleep]; exact sleeps⟩

theorem waitEffect_calling {s t : State} {a : Agent} (part : (s.pc a).part = .calling)
    (h : s.advance a = some t) : WaitEffect s a t := by
  have silent : (s.pc a).part.silent = true := by rw [part]; rfl
  unfold advance at h
  cases hp : s.pc a <;> simp only [hp, Pc.part, reduceCtorEq] at part h
  case resume =>
    cases h
    refine .stays (fun b sleeps => notify_asleep (notify_asleep sleeps)) rfl (by simp [hp]) (by simp)
      (by simp [hp, Pc.owesNotify]) fun _ => .inr ⟨hp, fun c => ?_⟩
    cases c with
    | send => exact wakes_notify s fun b sleeps => notify_asleep sleeps
    | hndl =>
        refine wakes_notify s fun b sleeps => ?_
        simp_all [notify, goto]
  case pause =>
    cases h
    exact .stays (fun _ => id) rfl (by simp [hp]) (by simp) (by simp [hp, Pc.owesNotify]) fun _ => .inl rfl
  case publishSpawn m =>
    cases h
    unfold stepPublish
    split <;> exact waitEffect_silent silent (fun _ => id) ⟨rfl, rfl⟩ rfl
  all_goals
    try simp only [stepPush, stepMode, stepHandleMode, stepLockDisp, ret] at h
    try repeat' split at h
    all_goals cases h
    all_goals exact waitEffect_silent silent (fun _ => id) ⟨rfl, rfl⟩ rfl

theorem waitEffect_stopping {s t : State} {a : Agent} (part : (s.pc a).part = .stopping)
    (h : s.advance a = some t) : WaitEffect s a t := by
  have silent : (s.pc a).part.silent = true := by rw [part]; rfl
  unfold advance at h
  cases hp : s.pc a <;> simp only [hp, Pc.part, reduceCtorEq] at part h
  case stopJoinHndl | stopJoinRecv | stopJoinSend =>
    obtain ⟨u, joined, rfl⟩ := Option.map_eq_some_iff.mp h
    simp only [joinHndl, joinRecv, joinSend] at joined
    split at joined <;> cases joined
    exact waitEffect_silent silent (fun _ => id) ⟨rfl, rfl⟩ rfl
  case stopPollRecv | stopPollSend =>
    simp only [stepStopPollRecv, stepStopPollSend, joinHndl, joinRecv, joinSend, ret] at h
    repeat' split at h
    all_goals cases h
    all_goals exact waitEffect_silent silent (fun _ => id) ⟨rfl, rfl⟩ rfl
  case stopRecv block | stopSend block =>
    cases h
    simp only [stepStopRecv, stepStopSend]
    repeat' split
    all_goals first
      | exact waitEffect_silent silent (fun _ => id) ⟨rfl, rfl⟩ rfl
      | exact waitEffect_silent silent (fun _ sleeps => notify_asleep (s := s) sleeps) ⟨rfl, rfl⟩ rfl
  all_goals
    try split at h
    all_goals cases h
    all_goals exact waitEffect_silent silent (fun _ => id) ⟨rfl, rfl⟩ rfl

theorem waitEffect_flushing {s t : State} {a : Agent} (part : (s.pc a).part = .flushing)
    (h : s.advance a = some t) : WaitEffect s a t := by
  have here : (s.pc a).part.sleeps = false := by rw [part]; rfl
  unfold advance at h
  cases hp : s.pc a <;> simp only [hp, Pc.part, reduceCtorEq] at part h
  case flushBackoffSend =>
    cases h
    exact waitEffect_notifies (c := .send) rfl ⟨rfl, rfl⟩ here rfl (by rw [hp]; rfl) (by rw [hp]; rfl)
  case flushBackoffRecv =>
    cases h
    exact waitEffect_notifies (c := .hndl) rfl ⟨rfl, rfl⟩ here rfl (by rw [hp]; rfl) (by rw [hp]; rfl)
  case flushCountSend block =>
    cases h
    unfold flushSend
    split
    all_goals
      exact waitEffect_keeps here rfl ⟨rfl, rfl⟩ rfl (by rw [hp]; rfl)
  case flushCountRecv =>
    cases h
    unfold flushDisp
    split
    all_goals
      exact waitEffect_keeps here rfl ⟨rfl, rfl⟩ rfl (by rw [hp]; rfl)
  all_goals
    try simp only [stepLockSend, stepLockDisp] at h
    try repeat' split at h
    all_goals cases h
    all_goals
      exact waitEffect_keeps here rfl ⟨rfl, rfl⟩ rfl (by rw [hp]; rfl)

theorem waitEffect_resizing {s t : State} {a : Agent} (part : (s.pc a).part = .resizing)
    (h : s.advance a = some t) : WaitEffect s a t := by
  have silent : (s.pc a).part.silent = true := by rw [part]; rfl
  unfold advance at h
  cases hp : s.pc a <;> simp only [hp, Pc.part, reduceCtorEq] at part h
  case resizeCheckSend n block =>
    cases h
    split
    all_goals exact waitEffect_silent silent (fun _ => id) ⟨rfl, rfl⟩ rfl
  case resizeCheckRecv n block =>
    cases h
    split
    all_goals exact waitEffect_silent silent (fun _ => id) ⟨rfl, rfl⟩ rfl
  all_goals
    try simp only [stepLockSend, stepLockDisp] at h
    try repeat' split at h
    all_goals cases h
    all_goals exact waitEffect_silent silent (fun _ => id) ⟨rfl, rfl⟩ rfl

theorem waitEffect_wait {s t : State} {a : Agent} {c : PauseCond} {p : Pc} (here : s.pc a = c.wait)
    (there : p.part.sleeps = false) (h : s.stepWait a c p = some t) : WaitEffect s a t := by
  rcases (stepWait_cases h).2 with ⟨rfl, -⟩ | ⟨off, rfl⟩
  · refine waitEffect_quiet (fun _ => id) ⟨rfl, rfl⟩ ?_ there ?_
    · rw [here]
      cases c <;> rfl
    · rw [here]
      cases c <;> simp [PauseCond.wait, Pc.owesNotify]
  · exact .checks c here off rfl

theorem sendNext_part (caller : SendCaller) : (sendNext caller).part = .sending := by
  cases caller with
  | thread => rfl
  | flush block left =>
      simp only [sendNext, flushSend]
      split <;> rfl

theorem owesNotify_sendNext (caller : SendCaller) : (sendNext caller).owesNotify = caller.owesNotify := by
  cases caller with
  | thread => rfl
  | flush block left =>
      simp only [sendNext, flushSend]
      split <;> rfl

theorem dispNext_part (dispatched : Bool) (caller : DispCaller) :
    (dispNext dispatched caller).part = .dispatching := by
  cases caller with
  | thread | handle => rfl
  | flush left =>
      simp only [dispNext, flushDisp]
      split <;> rfl

theorem owesNotify_dispNext (dispatched : Bool) (caller : DispCaller) :
    (dispNext dispatched caller).owesNotify = caller.owesNotify := by
  cases caller with
  | thread | handle => rfl
  | flush left =>
      simp only [dispNext, flushDisp]
      split <;> rfl

theorem waitEffect_sending {s t : State} {a : Agent} (part : (s.pc a).part = .sending)
    (h : s.advance a = some t) : WaitEffect s a t := by
  have here : (s.pc a).part.sleeps = false := by rw [part]; rfl
  unfold advance at h
  cases hp : s.pc a <;> simp only [hp, Pc.part, reduceCtorEq] at part h
  case sendWait => exact waitEffect_wait (c := .send) hp (by split <;> rfl) h
  case sendLock =>
    rcases stepLockSend_eq_some h with ⟨-, rfl⟩ | ⟨-, waits, -⟩
    · exact waitEffect_keeps here rfl ⟨rfl, rfl⟩ rfl (by rw [hp]; rfl)
    · cases waits
  case sendTop caller =>
    obtain ⟨x, -, rfl⟩ := Option.map_eq_some_iff.mp h
    split
    · exact waitEffect_keeps here rfl ⟨rfl, rfl⟩ (by rw [sendNext_part]; rfl) (by rw [hp, owesNotify_sendNext]; rfl)
    · exact waitEffect_keeps here rfl ⟨rfl, rfl⟩ rfl (by rw [hp]; rfl)
  case sendCheck caller m =>
    cases h
    have owes : (s.pc a).owesNotify = caller.owesNotify := congrArg Pc.owesNotify hp
    unfold stepSendCheck
    repeat' split
    · exact waitEffect_keeps here rfl ⟨rfl, rfl⟩ (by rw [sendNext_part]; rfl) (by rw [owes, owesNotify_sendNext])
    all_goals exact waitEffect_keeps here rfl ⟨rfl, rfl⟩ rfl (by rw [owes]; rfl)
  case sendTransmit caller m =>
    cases h
    exact waitEffect_keeps here rfl ⟨rfl, rfl⟩ rfl (by rw [hp]; rfl)
  case sendPop caller =>
    cases h
    exact waitEffect_keeps here rfl ⟨rfl, rfl⟩ (by rw [sendNext_part]; rfl) (by rw [hp, owesNotify_sendNext]; rfl)
  case sendDone caller =>
    cases h
    cases caller with
    | thread =>
        exact waitEffect_keeps here rfl ⟨rfl, rfl⟩ rfl (by rw [hp]; rfl)
    | flush block left =>
        exact waitEffect_notifies (c := .send) rfl ⟨rfl, rfl⟩ here rfl (by rw [hp]; rfl) (by rw [hp]; rfl)
  case sendHalt =>
    cases h
    exact waitEffect_keeps here rfl ⟨rfl, rfl⟩ rfl (by rw [hp]; rfl)

theorem waitEffect_receiving {s t : State} {a : Agent} (part : (s.pc a).part = .receiving)
    (h : s.advance a = some t) : WaitEffect s a t := by
  have silent : (s.pc a).part.silent = true := by rw [part]; rfl
  unfold advance at h
  cases hp : s.pc a <;> simp only [hp, Pc.part, reduceCtorEq] at part h
  case recvPush =>
    obtain ⟨x, -, rfl⟩ := Option.map_eq_some_iff.mp h
    exact waitEffect_silent silent (fun _ => id) ⟨rfl, rfl⟩ rfl
  case recvCheck =>
    cases h
    exact waitEffect_silent silent (fun _ => id) ⟨rfl, rfl⟩ (by split <;> rfl)
  all_goals
    cases h
    exact waitEffect_silent silent (fun _ => id) ⟨rfl, rfl⟩ rfl

theorem waitEffect_dispatching {s t : State} {a : Agent} (part : (s.pc a).part = .dispatching)
    (h : s.advance a = some t) : WaitEffect s a t := by
  have here : (s.pc a).part.sleeps = false := by rw [part]; rfl
  unfold advance at h
  cases hp : s.pc a <;> simp only [hp, Pc.part, reduceCtorEq] at part h
  case dispTop caller =>
    obtain ⟨x, -, rfl⟩ := Option.map_eq_some_iff.mp h
    split
    · exact waitEffect_keeps here rfl ⟨rfl, rfl⟩ (by rw [dispNext_part]; rfl) (by rw [hp, owesNotify_dispNext]; rfl)
    · exact waitEffect_keeps here rfl ⟨rfl, rfl⟩ rfl (by rw [hp]; rfl)
  case dispCheck caller m =>
    cases h
    have owes : (s.pc a).owesNotify = caller.owesNotify := congrArg Pc.owesNotify hp
    unfold stepDispCheck
    repeat' split
    · exact waitEffect_keeps here rfl ⟨rfl, rfl⟩ rfl (by rw [owes]; rfl)
    · exact waitEffect_keeps here rfl ⟨rfl, rfl⟩ (by rw [dispNext_part]; rfl) (by rw [owes, owesNotify_dispNext])
    · exact waitEffect_keeps here rfl ⟨rfl, rfl⟩ rfl (by rw [owes]; rfl)
  case dispMsg caller m =>
    cases h
    exact waitEffect_keeps here rfl ⟨rfl, rfl⟩ rfl (by rw [hp]; rfl)
  case dispPop caller =>
    cases h
    exact waitEffect_keeps here rfl ⟨rfl, rfl⟩ (by rw [dispNext_part]; rfl) (by rw [hp, owesNotify_dispNext]; rfl)
  case dispDone caller dispatched =>
    cases h
    cases caller with
    | thread | handle =>
        exact waitEffect_keeps here rfl ⟨rfl, rfl⟩ rfl (by rw [hp]; rfl)
    | flush left =>
        exact waitEffect_notifies (c := .hndl) rfl ⟨rfl, rfl⟩ here rfl (by rw [hp]; rfl) (by rw [hp]; rfl)

theorem waitEffect_handling {s t : State} {a : Agent} (part : (s.pc a).part = .handling)
    (h : s.advance a = some t) : WaitEffect s a t := by
  have silent : (s.pc a).part.silent = true := by rw [part]; rfl
  unfold advance at h
  cases hp : s.pc a <;> simp only [hp, Pc.part, reduceCtorEq] at part h
  case hndlWait => exact waitEffect_wait (c := .hndl) hp (by split <;> rfl) h
  case hndlLock =>
    rcases stepLockDisp_eq_some h with ⟨-, rfl⟩ | ⟨-, waits, -⟩
    · exact waitEffect_silent silent (fun _ => id) ⟨rfl, rfl⟩ rfl
    · cases waits
  case hndlJoinRecv =>
    obtain ⟨u, joins, rfl⟩ := Option.map_eq_some_iff.mp h
    unfold joinRecv at joins
    split at joins <;> cases joins
    exact waitEffect_silent silent (fun _ => id) ⟨rfl, rfl⟩ rfl
  case hndlHalt =>
    cases h
    exact waitEffect_silent silent (fun _ => id) ⟨rfl, rfl⟩ (by split <;> rfl)
  all_goals
    cases h
    exact waitEffect_silent silent (fun _ => id) ⟨rfl, rfl⟩ rfl

theorem step_waitEffect {s t : State} {a : Agent} (h : s.step a = some t) : WaitEffect s a t := by
  obtain ⟨-, h⟩ := advance_of_step h
  cases part : (s.pc a).part
  case calling => exact waitEffect_calling part h
  case stopping => exact waitEffect_stopping part h
  case flushing => exact waitEffect_flushing part h
  case resizing => exact waitEffect_resizing part h
  case sending => exact waitEffect_sending part h
  case receiving => exact waitEffect_receiving part h
  case dispatching => exact waitEffect_dispatching part h
  case handling => exact waitEffect_handling part h
  all_goals
    unfold advance at h
    cases hp : s.pc a <;> simp only [hp, Pc.part, reduceCtorEq] at part h
  case sleeping.fallsAsleep c =>
    cases h
    exact .sleeps c hp rfl

theorem holdsSendOne_sendNext (caller : SendCaller) : (sendNext caller).holdsSendOne = true := by
  cases caller with
  | thread => rfl
  | flush block left =>
      simp only [sendNext, flushSend]
      split <;> rfl

theorem step_sendOne {s t : State} {a : Agent} (h : s.step a = some t) :
    t.sendOneMutex = none ∨ t.sendOneMutex = some a ∧ (t.pc a).holdsSendOne = true ∨
      t.sendOneMutex = s.sendOneMutex ∧ ((s.pc a).holdsSendOne = true → (t.pc a).holdsSendOne = true) := by
  replace h := (advance_of_step h).2
  unfold advance at h
  cases hp : s.pc a <;> simp only [hp] at h
  case idle | recvTransport => cases h
  case flushLockSend | resizeLockSend | sendLock =>
    rcases stepLockSend_eq_some h with ⟨-, rfl⟩ | ⟨-, -, rfl⟩
    · exact .inr (.inl ⟨rfl, by simp [Pc.holdsSendOne]⟩)
    · exact .inr (.inr ⟨rfl, fun held => by cases held⟩)
  case resizeUnlockSend | sendDone =>
    cases h
    left
    try unfold stepSendDone
    try split
    all_goals rfl
  all_goals refine .inr (.inr ?_)
  case flushCountSend block =>
    cases h
    refine ⟨rfl, fun _ => ?_⟩
    rw [goto_pc_self, flushSend]
    split <;> rfl
  case sendTop caller =>
    obtain ⟨x, -, rfl⟩ := Option.map_eq_some_iff.mp h
    split
    · exact ⟨rfl, fun _ => by simp [holdsSendOne_sendNext]⟩
    · exact ⟨rfl, fun _ => by simp [Pc.holdsSendOne]⟩
  case sendCheck caller m =>
    cases h
    unfold stepSendCheck
    repeat' split
    · exact ⟨rfl, fun _ => by simp [holdsSendOne_sendNext]⟩
    all_goals exact ⟨rfl, fun _ => by simp [Pc.holdsSendOne]⟩
  case sendPop caller =>
    cases h
    exact ⟨rfl, fun _ => by simp [holdsSendOne_sendNext]⟩
  case sendTransmit | flushEnableSend | resizeSetSend | resizeEnableSend =>
    cases h
    exact ⟨rfl, fun _ => by simp [Pc.holdsSendOne]⟩
  all_goals refine ⟨?_, fun held => by cases held⟩
  case stopJoinHndl | stopJoinRecv | stopJoinSend | hndlJoinRecv =>
    obtain ⟨u, joined, rfl⟩ := Option.map_eq_some_iff.mp h
    simp only [joinHndl, joinRecv, joinSend] at joined
    split at joined <;> cases joined
    rfl
  case dispTop | recvPush =>
    simp only [stepDispTop, stepRecvPush] at h
    obtain ⟨x, -, rfl⟩ := Option.map_eq_some_iff.mp h
    repeat' split
    all_goals rfl
  case stopPollRecv | stopPollSend =>
    simp only [stepStopPollRecv, stepStopPollSend, joinHndl, joinRecv, joinSend] at h
    repeat' split at h
    all_goals cases h
    all_goals rfl
  case publishSpawn | stopRecv | stopSend | dispCheck | dispDone =>
    cases h
    simp only [stepPublish, stepStopRecv, stepStopSend, stepDispCheck, stepDispDone]
    repeat' split
    all_goals rfl
  all_goals
    try simp only [stepMode, stepHandleMode, stepLockDisp, stepSendWait, stepHndlWait, stepWait] at h
    try repeat' split at h
    all_goals cases h
    all_goals rfl

end State
end Zcm.Blocking
