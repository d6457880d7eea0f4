import Zcm.Blocking.Lifecycle

namespace Zcm.Blocking
open Zcm.Lib Zcm.Util

namespace State

def lifecycle (s : State) : Lifecycle where
  recvMode := s.recvMode
  sendThreadState := s.sendThreadState
  recvThreadState := s.recvThreadState
  hndlThreadState := s.hndlThreadState
  sendThread := s.sendThread
  recvThread := s.recvThread
  hndlThread := s.hndlThread
  recvModeMutex := s.recvModeMutex
  sendClosed := s.sendQueue.disabled
  crashed := s.crashed
  spot := fun a => (s.pc a).spot

@[simp] theorem lifecycle_goto (s : State) (a : Agent) (p : Pc) :
    (s.goto a p).lifecycle = s.lifecycle.move a p.spot := by
  unfold goto lifecycle Lifecycle.move
  congr 1
  funext b
  by_cases self : b = a
  · subst self
    simp
  · simp [self]

theorem lifecycle_spawnSend (s : State) : s.spawnSend.lifecycle = s.lifecycle.spawnSend := by
  rw [spawnSend, lifecycle_goto]
  rfl

theorem lifecycle_spawnRecv (s : State) : s.spawnRecv.lifecycle = s.lifecycle.spawnRecv := by
  rw [spawnRecv, lifecycle_goto]
  rfl

theorem lifecycle_spawnHndl (s : State) : s.spawnHndl.lifecycle = s.lifecycle.spawnHndl := by
  rw [spawnHndl, lifecycle_goto]
  rfl

theorem spot_of_ended {s : State} {worker : Agent} (ended : s.ended worker = true) :
    s.lifecycle.spot worker = .idle := by
  unfold State.ended at ended
  split at ended
  · next last idle => exact congrArg Pc.spot idle
  · cases ended

theorem joinSend_eq_some {s t : State} (joins : s.joinSend = some t) :
    s.lifecycle.spot .sender = .idle ∧ t.lifecycle = s.lifecycle.joinSend := by
  unfold State.joinSend at joins
  split at joins
  · next ended =>
      cases joins
      exact ⟨spot_of_ended ended, rfl⟩
  · cases joins

theorem joinRecv_eq_some {s t : State} (joins : s.joinRecv = some t) :
    s.lifecycle.spot .receiver = .idle ∧ t.lifecycle = s.lifecycle.joinRecv := by
  unfold State.joinRecv at joins
  split at joins
  · next ended =>
      cases joins
      exact ⟨spot_of_ended ended, rfl⟩
  · cases joins

theorem joinHndl_eq_some {s t : State} (joins : s.joinHndl = some t) :
    s.lifecycle.spot .handler = .idle ∧ t.lifecycle = s.lifecycle.joinHndl := by
  unfold State.joinHndl at joins
  split at joins
  · next ended =>
      cases joins
      exact ⟨spot_of_ended ended, rfl⟩
  · cases joins

theorem stepLockSend_eq_some {s t : State} {a : Agent} {block : Bool} {next backoff : Pc}
    (locks : s.stepLockSend a block next backoff = some t) :
    s.sendOneMutex = none ∧ t = { s with sendOneMutex := some a }.goto a next ∨
      s.sendOneMutex ≠ none ∧ block = false ∧ t = s.goto a backoff := by
  unfold stepLockSend at locks
  cases taken : s.sendOneMutex <;> cases block <;> simp_all

theorem stepLockDisp_eq_some {s t : State} {a : Agent} {block : Bool} {next backoff : Pc}
    (locks : s.stepLockDisp a block next backoff = some t) :
    s.dispOneMutex = none ∧ t = { s with dispOneMutex := some a }.goto a next ∨
      s.dispOneMutex ≠ none ∧ block = false ∧ t = s.goto a backoff := by
  unfold stepLockDisp at locks
  cases taken : s.dispOneMutex <;> cases block <;> simp_all

theorem lifecycle_goto_same {s : State} {a : Agent} {p : Pc} (stays : p.spot = (s.pc a).spot) :
    (s.goto a p).lifecycle = s.lifecycle := by
  rw [lifecycle_goto]
  ext1 <;> try rfl
  exact Function.update_eq_self_iff.mpr stays

theorem lifecycle_quiet {s u : State} {a : Agent} {p : Pc} (same : u.lifecycle = s.lifecycle)
    (stays : p.spot = (s.pc a).spot) : s.lifecycle.Step a (u.goto a p).lifecycle := by
  rw [lifecycle_goto, same, ← lifecycle_goto, lifecycle_goto_same stays]
  exact .quiet

theorem lifecycle_calls {s u : State} {a : Agent} {p : Pc} (closed : Bool)
    (same : u.lifecycle = { s.lifecycle with sendClosed := closed }) (here : (s.pc a).spot = .calling)
    (next : p.spot = .calling ∨ p.spot = .opening ∨ p.spot = .idle)
    (closes : closed = s.sendQueue.disabled ∨ closed = true) :
    s.lifecycle.Step a (u.goto a p).lifecycle := by
  rw [lifecycle_goto, same]
  exact .calls p.spot closed here next closes

theorem lifecycle_opens {s u : State} {a : Agent} {p : Pc}
    (same : u.lifecycle = { s.lifecycle with sendClosed := false }) (here : (s.pc a).spot = .opening)
    (next : p.spot = .calling ∨ p.spot = .idle) : s.lifecycle.Step a (u.goto a p).lifecycle := by
  rw [lifecycle_goto, same]
  exact .opens p.spot here next

theorem lifecycle_stopRecv {s : State} {a : Agent} {block : Bool} (here : s.pc a = .stopRecv block) :
    s.lifecycle.Step a (s.stepStopRecv a block).lifecycle := by
  have spot : s.lifecycle.spot a = .stopRecv block := congrArg Pc.spot here
  unfold stepStopRecv
  split
  case h_1 mode | h_2 mode =>
    split
    · next running =>
        rw [lifecycle_goto, apply_ite Pc.spot]
        exact .haltsHndl block spot (by simp [lifecycle, mode]) running
    · next other =>
        rw [lifecycle_goto]
        exact .haltsNone block spot (fun _ => other) (fun handle => by simp [lifecycle, mode] at handle)
  case h_3 mode =>
    split
    · next running =>
        rw [lifecycle_goto, apply_ite Pc.spot]
        exact .haltsRecv block spot mode running
    · next other =>
        rw [lifecycle_goto]
        exact .haltsNone block spot (fun spawn => by simp [lifecycle, mode] at spawn) (fun _ => other)
  case h_4 mode =>
    rw [lifecycle_goto]
    exact .haltsNone block spot (fun spawn => by simp [lifecycle, mode] at spawn)
      (fun handle => by simp [lifecycle, mode] at handle)

theorem lifecycle_stopSend {s : State} {a : Agent} {block : Bool} (here : s.pc a = .stopSend block) :
    s.lifecycle.Step a (s.stepStopSend a block).lifecycle := by
  have spot : s.lifecycle.spot a = .stopSend block := congrArg Pc.spot here
  unfold stepStopSend
  split
  · next running =>
      rw [lifecycle_goto, apply_ite Pc.spot]
      exact .haltsSend block spot running
  · next other =>
      rw [lifecycle_goto, apply_ite Pc.spot]
      exact .skipsSend block spot other

theorem lifecycle_stopPollRecv {s t : State} {a : Agent} (here : s.pc a = .stopPollRecv)
    (h : s.stepStopPollRecv a = some t) : s.lifecycle.Step a t.lifecycle := by
  have spot : s.lifecycle.spot a = .stopPollRecv := congrArg Pc.spot here
  unfold stepStopPollRecv at h
  split at h
  case h_1 mode =>
    have handle : s.lifecycle.recvMode ≠ .handle := by simp [lifecycle, mode]
    split at h
    · cases h
      rw [ret, lifecycle_goto]
      exact .givesUp (.inl spot)
    split at h
    · next halted =>
        obtain ⟨u, joins, rfl⟩ := Option.map_eq_some_iff.mp h
        obtain ⟨ended, joined⟩ := joinHndl_eq_some joins
        have joinedToo : { u with hndlThreadState := ThreadState.stopped }.lifecycle =
            { s.lifecycle.joinHndl with hndlThreadState := .stopped } := by
          rw [← joined]
          rfl
        rw [lifecycle_goto, joinedToo]
        exact .pollsHndl spot mode halted ended
    · next halting halted =>
        cases h
        rw [lifecycle_goto]
        exact .pollsNone spot (fun _ => ⟨halting, halted⟩) (fun other => absurd other handle)
  case h_2 mode =>
    have spawn : s.lifecycle.recvMode ≠ .spawn := by simp [lifecycle, mode]
    split at h
    · cases h
      rw [ret, lifecycle_goto]
      exact .givesUp (.inl spot)
    split at h
    · next halted =>
        obtain ⟨u, joins, rfl⟩ := Option.map_eq_some_iff.mp h
        obtain ⟨ended, joined⟩ := joinRecv_eq_some joins
        have joinedToo : { u with recvThreadState := ThreadState.stopped }.lifecycle =
            { s.lifecycle.joinRecv with recvThreadState := .stopped } := by
          rw [← joined]
          rfl
        rw [lifecycle_goto, joinedToo]
        exact .pollsRecv spot mode halted ended
    · next halting halted =>
        cases h
        rw [lifecycle_goto]
        exact .pollsNone spot (fun other => absurd other spawn) (fun _ => ⟨halting, halted⟩)
  case h_3 spawn handle =>
    cases h
    rw [lifecycle_goto]
    exact .pollsNone spot (fun other => absurd other spawn) (fun other => absurd other handle)

theorem lifecycle_stopPollSend {s t : State} {a : Agent} (here : s.pc a = .stopPollSend)
    (h : s.stepStopPollSend a = some t) : s.lifecycle.Step a t.lifecycle := by
  have spot : s.lifecycle.spot a = .stopPollSend := congrArg Pc.spot here
  unfold stepStopPollSend at h
  split at h
  · cases h
    rw [ret, lifecycle_goto]
    exact .givesUp (.inr spot)
  split at h
  · next halted =>
      obtain ⟨u, joins, rfl⟩ := Option.map_eq_some_iff.mp h
      obtain ⟨ended, joined⟩ := joinSend_eq_some joins
      have joinedToo : { u with sendThreadState := ThreadState.stopped }.lifecycle =
          { s.lifecycle.joinSend with sendThreadState := .stopped } := by
        rw [← joined]
        rfl
      rw [lifecycle_goto, joinedToo]
      exact .pollsSend spot halted ended
  · next halting halted =>
      cases h
      rw [lifecycle_goto]
      exact .pollsNoSend spot ⟨halting, halted⟩

theorem lifecycle_mode {s t : State} {a : Agent} {mode : RecvMode} {p : Pc}
    (h : s.stepMode a mode p = some t)
    (here : s.lifecycle.spot a = .startMode ∧ mode = .spawn ∧ p = .startSpawn ∨
      s.lifecycle.spot a = .runMode ∧ mode = .run ∧ p = .runSpawn) :
    s.lifecycle.Step a t.lifecycle := by
  unfold stepMode at h
  split at h
  · cases h
  next free =>
  have free : s.lifecycle.recvModeMutex = none := by simpa [lifecycle] using free
  split at h
  · cases h
    rw [lifecycle_goto]
    rcases here with ⟨spot, -, -⟩ | ⟨spot, -, -⟩
    · exact .refuses (.inl spot)
    · exact .refuses (.inr (.inl spot))
  · next none_ =>
    have none_ : s.lifecycle.recvMode = .none := by simpa [lifecycle] using none_
    cases h
    rw [lifecycle_goto]
    rcases here with ⟨spot, rfl, rfl⟩ | ⟨spot, rfl, rfl⟩
    · exact .starts spot free none_
    · exact .runs spot free none_

theorem lifecycle_handleMode {s t : State} {a : Agent} {nonblock : Bool}
    (h : s.stepHandleMode a nonblock = some t) (here : s.lifecycle.spot a = .handleMode) :
    s.lifecycle.Step a t.lifecycle := by
  unfold stepHandleMode at h
  split at h
  · cases h
  next free =>
  have free : s.lifecycle.recvModeMutex = none := by simpa [lifecycle] using free
  split at h
  case h_1 mode =>
    cases h
    rw [lifecycle_goto]
    exact .handles here free mode
  case h_2 mode =>
    cases h
    rw [lifecycle_goto]
    exact .handlesToo here mode
  case h_3 =>
    cases h
    rw [ret, lifecycle_goto]
    exact .refuses (.inr (.inr here))

@[simp] theorem sendNext_spot (c : SendCaller) : (sendNext c).spot = c.spot := by
  cases c with
  | thread => rfl
  | flush block left =>
      simp only [sendNext, flushSend]
      split <;> rfl

@[simp] theorem dispNext_spot (dispatched : Bool) (c : DispCaller) :
    (dispNext dispatched c).spot = c.spot := by
  cases c with
  | thread | handle => rfl
  | flush left =>
      simp only [dispNext, flushDisp]
      split <;> rfl

theorem lifecycle_calling {s t : State} {a : Agent} (part : (s.pc a).part = .calling)
    (h : s.advance a = some t) : s.lifecycle.Step a t.lifecycle := by
  unfold advance at h
  cases hp : s.pc a <;> simp only [hp, Pc.part, reduceCtorEq] at part h
  all_goals have spot := congrArg Pc.spot hp
  case startMode => exact lifecycle_mode h (.inl ⟨spot, rfl, rfl⟩)
  case runMode => exact lifecycle_mode h (.inr ⟨spot, rfl, rfl⟩)
  case handleMode => exact lifecycle_handleMode h spot
  case publishSpawn m =>
    cases h
    unfold stepPublish
    rw [lifecycle_goto]
    split
    · next stopped =>
        rw [lifecycle_spawnSend]
        exact .publishes spot stopped
    · next started => exact .publishesToo spot started
  case publishPush =>
    cases h
    exact lifecycle_calls s.sendQueue.disabled (by simp [lifecycle]) spot (.inr (.inr rfl)) (.inl rfl)
  case startSpawn =>
    cases h
    rw [lifecycle_goto, lifecycle_spawnHndl]
    exact .startsHndl spot
  case runSpawn =>
    cases h
    rw [lifecycle_goto]
    exact .runsHndl spot
  case runRestore =>
    split at h <;> cases h
    next free =>
      rw [lifecycle_goto]
      exact .restores spot (by simpa [lifecycle] using free)
  case handleSpawn =>
    cases h
    rw [lifecycle_goto, lifecycle_spawnRecv]
    exact .startsRecv spot
  case handleLock nonblock =>
    rcases stepLockDisp_eq_some h with ⟨-, rfl⟩ | ⟨-, waits, -⟩
    · cases nonblock <;> exact lifecycle_quiet rfl spot.symm
    · cases waits
  case handlePoll =>
    split at h <;> cases h
    · exact lifecycle_quiet rfl spot.symm
    · exact lifecycle_calls _ rfl spot (.inr (.inr rfl)) (.inl rfl)
  case pause | resume =>
    cases h
    exact lifecycle_calls _ rfl spot (.inr (.inr rfl)) (.inl rfl)

theorem lifecycle_stopping {s t : State} {a : Agent} (part : (s.pc a).part = .stopping)
    (h : s.advance a = some t) : s.lifecycle.Step a t.lifecycle := by
  unfold advance at h
  cases hp : s.pc a <;> simp only [hp, Pc.part, reduceCtorEq] at part h
  all_goals have spot := congrArg Pc.spot hp
  case stopPollRecv => exact lifecycle_stopPollRecv hp h
  case stopPollSend => exact lifecycle_stopPollSend hp h
  case stopRecv =>
    cases h
    exact lifecycle_stopRecv hp
  case stopSend =>
    cases h
    exact lifecycle_stopSend hp
  case stopMode block =>
    split at h <;> cases h
    next free =>
      rw [lifecycle_goto]
      exact .stops block spot (by simpa [lifecycle] using free)
  case stopJoinHndl =>
    obtain ⟨u, joins, rfl⟩ := Option.map_eq_some_iff.mp h
    obtain ⟨ended, joined⟩ := joinHndl_eq_some joins
    rw [lifecycle_goto, joined]
    exact .joinsHndl spot ended
  case stopJoinRecv =>
    obtain ⟨u, joins, rfl⟩ := Option.map_eq_some_iff.mp h
    obtain ⟨ended, joined⟩ := joinRecv_eq_some joins
    rw [lifecycle_goto, joined]
    exact .joinsRecv spot ended
  case stopJoinSend =>
    obtain ⟨u, joins, rfl⟩ := Option.map_eq_some_iff.mp h
    obtain ⟨ended, joined⟩ := joinSend_eq_some joins
    rw [lifecycle_goto, joined]
    exact .joinsSend spot ended
  all_goals
    cases h
    try rw [ret]
    rw [lifecycle_goto]
  case stopHndlStopped => exact .hndlStopped spot
  case stopRecvStopped => exact .recvStopped spot
  case stopSendStopped => exact .sendStopped spot
  case stopRestore => exact .stopped spot

theorem lifecycle_flushing {s t : State} {a : Agent} (part : (s.pc a).part = .flushing)
    (h : s.advance a = some t) : s.lifecycle.Step a t.lifecycle := by
  unfold advance at h
  cases hp : s.pc a <;> simp only [hp, Pc.part, reduceCtorEq] at part h
  all_goals have spot := congrArg Pc.spot hp
  case flushLockSend =>
    rcases stepLockSend_eq_some h with ⟨-, rfl⟩ | ⟨-, -, rfl⟩
    all_goals exact lifecycle_calls _ rfl spot (.inr (.inl rfl)) (.inl rfl)
  case flushLockRecv =>
    rcases stepLockDisp_eq_some h with ⟨-, rfl⟩ | ⟨-, -, rfl⟩
    all_goals exact lifecycle_quiet rfl spot.symm
  all_goals cases h
  case flushBackoffSend => exact lifecycle_opens rfl spot (.inr rfl)
  case flushEnableSend => exact lifecycle_opens rfl spot (.inl rfl)
  case flushDisableSend => exact lifecycle_calls true rfl spot (.inl rfl) (.inr rfl)
  case flushCountSend block =>
    have next : (flushSend block s.sendQueue.numMessages).spot = .calling := by
      unfold flushSend
      split <;> rfl
    exact lifecycle_quiet rfl (next.trans spot.symm)
  case flushCountRecv =>
    have next : (flushDisp s.recvQueue.numMessages).spot = .calling := by
      unfold flushDisp
      split <;> rfl
    exact lifecycle_quiet rfl (next.trans spot.symm)
  case flushBackoffRecv => exact lifecycle_calls _ rfl spot (.inr (.inr rfl)) (.inl rfl)
  case flushDisableRecv | flushEnableRecv => exact lifecycle_quiet rfl spot.symm

theorem lifecycle_resizing {s t : State} {a : Agent} (part : (s.pc a).part = .resizing)
    (h : s.advance a = some t) : s.lifecycle.Step a t.lifecycle := by
  unfold advance at h
  cases hp : s.pc a <;> simp only [hp, Pc.part, reduceCtorEq] at part h
  all_goals have spot := congrArg Pc.spot hp
  case resizeLockSend =>
    rcases stepLockSend_eq_some h with ⟨-, rfl⟩ | ⟨-, -, rfl⟩
    · exact lifecycle_quiet rfl spot.symm
    · exact lifecycle_calls _ rfl spot (.inr (.inl rfl)) (.inl rfl)
  case resizeLockRecv =>
    rcases stepLockDisp_eq_some h with ⟨-, rfl⟩ | ⟨-, -, rfl⟩
    all_goals exact lifecycle_quiet rfl spot.symm
  all_goals cases h
  case resizeCheckSend n block =>
    rw [apply_ite (s.goto a)]
    split <;> exact lifecycle_quiet rfl spot.symm
  case resizeCheckRecv n block =>
    split
    · exact lifecycle_quiet rfl spot.symm
    · exact lifecycle_calls _ rfl spot (.inr (.inr rfl)) (.inl rfl)
  case resizeBackoffSend => exact lifecycle_opens rfl spot (.inr rfl)
  case resizeEnableSend => exact lifecycle_opens rfl spot (.inl rfl)
  case resizeDisableSend => exact lifecycle_calls true rfl spot (.inl rfl) (.inr rfl)
  case resizeSetSend => exact lifecycle_calls _ rfl spot (.inr (.inl rfl)) (.inl rfl)
  case resizeBackoffRecv | resizeUnlockRecv => exact lifecycle_calls _ rfl spot (.inr (.inr rfl)) (.inl rfl)
  all_goals exact lifecycle_quiet rfl spot.symm

theorem stepWait_cases {s t : State} {a : Agent} {c : PauseCond} {p : Pc} (h : s.stepWait a c p = some t) :
    s.asleep a = false ∧ (t = s.goto a p ∧ s.mayGoOn c = true ∨ s.mayGoOn c = false ∧
      t = { s with stateMutex := Function.update s.stateMutex c (some a) }.goto a (.fallsAsleep c)) := by
  unfold stepWait at h
  split at h
  · cases h
  · next awake =>
      refine ⟨by simpa using awake, ?_⟩
      split at h <;> cases h
      · next on => exact .inl ⟨rfl, on⟩
      · next off => exact .inr ⟨by simpa using off, rfl⟩

theorem lifecycle_sending {s t : State} {a : Agent} (part : (s.pc a).part = .sending)
    (h : s.advance a = some t) : s.lifecycle.Step a t.lifecycle := by
  unfold advance at h
  cases hp : s.pc a <;> simp only [hp, Pc.part, reduceCtorEq] at part h
  all_goals have spot := congrArg Pc.spot hp
  case sendTop c =>
    obtain ⟨x, -, rfl⟩ := Option.map_eq_some_iff.mp h
    split
    · exact lifecycle_quiet rfl ((sendNext_spot c).trans spot.symm)
    · exact lifecycle_quiet rfl spot.symm
  case sendLock =>
    rcases stepLockSend_eq_some h with ⟨-, rfl⟩ | ⟨-, waits, -⟩
    · exact lifecycle_quiet rfl spot.symm
    · cases waits
  case sendWait =>
    rcases (stepWait_cases h).2 with ⟨rfl, -⟩ | ⟨-, rfl⟩
    · rw [apply_ite (s.goto a)]
      split
      · next halting =>
          rw [lifecycle_goto]
          exact .sendHalts spot halting
      · exact lifecycle_quiet rfl spot.symm
    · exact lifecycle_quiet rfl spot.symm
  all_goals cases h
  case sendCheck c m =>
    unfold stepSendCheck
    repeat' split
    · exact lifecycle_quiet rfl ((sendNext_spot .thread).trans spot.symm)
    · exact lifecycle_quiet rfl spot.symm
    · exact lifecycle_quiet rfl spot.symm
  case sendTransmit => exact lifecycle_quiet rfl spot.symm
  case sendPop c => exact lifecycle_quiet rfl ((sendNext_spot c).trans spot.symm)
  case sendDone c => cases c <;> exact lifecycle_quiet rfl spot.symm
  case sendHalt =>
    rw [lifecycle_goto]
    exact .sendEnds spot

theorem lifecycle_receiving {s t : State} {a : Agent} (part : (s.pc a).part = .receiving)
    (h : s.advance a = some t) : s.lifecycle.Step a t.lifecycle := by
  unfold advance at h
  cases hp : s.pc a <;> simp only [hp, Pc.part, reduceCtorEq] at part h
  all_goals have spot := congrArg Pc.spot hp
  case recvPush =>
    obtain ⟨x, -, rfl⟩ := Option.map_eq_some_iff.mp h
    exact lifecycle_quiet rfl spot.symm
  all_goals cases h
  case recvCheck =>
    rw [apply_ite (s.goto a)]
    split
    · next halting =>
        rw [lifecycle_goto]
        exact .recvHalts spot halting
    · exact lifecycle_quiet rfl spot.symm
  case recvHalt =>
    rw [lifecycle_goto]
    exact .recvEnds spot

theorem lifecycle_dispatching {s t : State} {a : Agent} (part : (s.pc a).part = .dispatching)
    (h : s.advance a = some t) : s.lifecycle.Step a t.lifecycle := by
  unfold advance at h
  cases hp : s.pc a <;> simp only [hp, Pc.part, reduceCtorEq] at part h
  all_goals have spot := congrArg Pc.spot hp
  case dispTop c =>
    obtain ⟨x, -, rfl⟩ := Option.map_eq_some_iff.mp h
    split
    · exact lifecycle_quiet rfl ((dispNext_spot false c).trans spot.symm)
    · exact lifecycle_quiet rfl spot.symm
  all_goals cases h
  case dispCheck c m =>
    unfold stepDispCheck
    repeat' split
    · exact lifecycle_quiet rfl spot.symm
    · exact lifecycle_quiet rfl ((dispNext_spot false c).trans spot.symm)
    · exact lifecycle_quiet rfl spot.symm
  case dispMsg => exact lifecycle_quiet rfl spot.symm
  case dispPop c => exact lifecycle_quiet rfl ((dispNext_spot true c).trans spot.symm)
  case dispDone c dispatched =>
    cases c with
    | thread => exact lifecycle_quiet rfl spot.symm
    | handle | flush => exact lifecycle_calls _ rfl spot (.inr (.inr rfl)) (.inl rfl)

theorem lifecycle_handling {s t : State} {a : Agent} (part : (s.pc a).part = .handling)
    (h : s.advance a = some t) : s.lifecycle.Step a t.lifecycle := by
  unfold advance at h
  cases hp : s.pc a <;> simp only [hp, Pc.part, reduceCtorEq] at part h
  all_goals have spot := congrArg Pc.spot hp
  case hndlWait =>
    rcases (stepWait_cases h).2 with ⟨rfl, -⟩ | ⟨-, rfl⟩
    · rw [apply_ite (s.goto a)]
      split
      · next halting =>
          rw [lifecycle_goto]
          exact .hndlHalts spot halting
      · exact lifecycle_quiet rfl spot.symm
    · exact lifecycle_quiet rfl spot.symm
  case hndlLock =>
    rcases stepLockDisp_eq_some h with ⟨-, rfl⟩ | ⟨-, waits, -⟩
    · exact lifecycle_quiet rfl spot.symm
    · cases waits
  case hndlJoinRecv =>
    obtain ⟨u, joins, rfl⟩ := Option.map_eq_some_iff.mp h
    obtain ⟨ended, joined⟩ := joinRecv_eq_some joins
    rw [lifecycle_goto, joined]
    exact .hndlJoins spot ended
  all_goals cases h
  case hndlSpawn =>
    rw [lifecycle_goto, lifecycle_spawnRecv]
    exact .hndlStarts spot
  case hndlStopRecv =>
    rw [lifecycle_goto]
    exact .hndlHaltsRecv spot
  case hndlHalt =>
    rw [lifecycle_goto, apply_ite Pc.spot]
    exact .hndlEnds spot

theorem lifecycle_sleeping {s : State} {a : Agent} {c : PauseCond} (here : s.pc a = .fallsAsleep c) :
    s.lifecycle.Step a (s.stepFallsAsleep a c).lifecycle := by
  cases c <;> exact lifecycle_quiet rfl (congrArg Pc.spot here).symm

theorem step_lifecycle {s t : State} {a : Agent} (h : s.step a = some t) :
    s.lifecycle.Step a t.lifecycle := by
  obtain ⟨-, h⟩ := advance_of_step h
  cases part : (s.pc a).part
  case calling => exact lifecycle_calling part h
  case stopping => exact lifecycle_stopping part h
  case flushing => exact lifecycle_flushing part h
  case resizing => exact lifecycle_resizing part h
  case sending => exact lifecycle_sending part h
  case receiving => exact lifecycle_receiving part h
  case dispatching => exact lifecycle_dispatching part h
  case handling => exact lifecycle_handling part h
  all_goals
    unfold advance at h
    cases hp : s.pc a <;> simp only [hp, Pc.part, reduceCtorEq] at part h
  case sleeping.fallsAsleep c =>
    cases h
    exact lifecycle_sleeping hp

theorem next_lifecycle {s t : State} {e : Event} (h : s.next e = some t) :
    s.crashed = false ∧ s.lifecycle.Next e t.lifecycle := by
  unfold next at h
  split at h
  · cases h
  next alive =>
  refine ⟨by simpa using alive, ?_⟩
  cases e with
  | step a => exact .step (step_lifecycle h)
  | call id c =>
      simp only [call] at h
      split at h <;> cases h
      next last idle =>
        have spot : s.lifecycle.spot (.api id) = .idle := congrArg Pc.spot idle
        cases c
        all_goals simp only [enter, ret]
        case publish m =>
          repeat' split
          all_goals rw [lifecycle_goto]
          · exact .call .idle spot (.inr rfl)
          · exact .call .idle spot (.inr rfl)
          · exact .call .publishSpawn spot (.inl rfl)
        all_goals
          rw [lifecycle_goto]
          exact .call _ spot (.inl rfl)
  | transport wanted =>
      simp only [transport] at h
      split at h <;> cases h
      next receiving =>
        cases wanted with
        | none =>
            have stays : Pc.recvCheck.spot = (s.pc .receiver).spot := by rw [receiving]; rfl
            rw [lifecycle_goto_same stays]
            exact .transport
        | some m =>
            have stays : (Pc.recvPush m).spot = (s.pc .receiver).spot := by rw [receiving]; rfl
            rw [lifecycle_goto_same stays]
            exact .transport
  | wake a =>
      simp only at h
      split at h <;> cases h
      exact .wake

theorem roles_init (mtu : Nat) : (init mtu).lifecycle.Roles := fun _ => rfl

theorem held_init (mtu : Nat) : (init mtu).lifecycle.Held := fun _ holds => by cases holds

end State
end Zcm.Blocking
