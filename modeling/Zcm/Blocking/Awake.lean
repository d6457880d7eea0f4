import Zcm.Blocking.Waits

namespace Zcm.Blocking
open Zcm.Lib Zcm.Util

namespace State

structure Waits (s : State) : Prop where
  live : s.lifecycle.Live
  asleep : ∀ a, s.asleep a = true → (s.pc a).waitsOn ≠ none
  mutex : ∀ c a, s.stateMutex c = some a ↔ s.pc a = .fallsAsleep c
  sendOne : ∀ a, s.sendOneMutex = some a → (s.pc a).holdsSendOne = true

theorem Waits.awake_of_step {s t : State} {a : Agent} (waits : s.Waits) (h : s.step a = some t) :
    s.asleep a = false := by
  by_contra sleeps
  have sleeps : s.asleep a = true := by simpa using sleeps
  have waiting := waits.asleep a sleeps
  have h := (advance_of_step h).2
  cases hp : s.pc a <;> simp only [hp, Pc.waitsOn] at waiting
  case sendWait | hndlWait => simp [advance, hp, stepSendWait, stepHndlWait, stepWait, sleeps] at h
  all_goals exact waiting rfl

theorem Waits.pc_of_ne {s t : State} {a b : Agent} (waits : s.Waits) (h : s.step a = some t)
    (alive : t.crashed = false) (other : b ≠ a) :
    t.pc b = s.pc b ∨
      (s.pc b).spot = .idle ∧ (t.pc b = .sendWait ∨ t.pc b = .recvCheck ∨ t.pc b = .hndlSpawn) := by
  have live := waits.live
  have steps := (advance_of_step h).2
  rcases step_pc_frame h other with same | ⟨rfl, there, m, here⟩ | ⟨rfl, there, here⟩ | ⟨rfl, there, here⟩
  · exact .inl same
  · simp only [advance, here, Option.some.injEq] at steps
    subst steps
    unfold stepPublish
    split
    · next stopped => exact .inr ⟨live.sender_idle stopped, .inl (by simpa [stepPublish, stopped] using there)⟩
    · exact .inl (goto_pc_of_ne _ _ other)
  · refine .inr ⟨?_, .inr (.inl there)⟩
    by_contra runs
    have thread : s.recvThread = true := live.receiver runs
    rcases here with ⟨nonblock, here⟩ | here
    all_goals
      simp only [advance, here, Option.some.injEq] at steps
      subst steps
      simp [spawnRecv, goto, thread] at alive
  · refine .inr ⟨?_, .inr (.inr there)⟩
    by_contra runs
    have thread : s.hndlThread = true := live.handler runs
    simp only [advance, here, Option.some.injEq] at steps
    subst steps
    simp [spawnHndl, goto, thread] at alive

theorem Pc.plain_of_idle {p : Pc} (idle : p.spot = .idle) :
    p.waitsOn = none ∧ p.holdsSendOne = false ∧ ∀ c, p ≠ .fallsAsleep c := by
  cases p
  case idle => exact ⟨rfl, rfl, by simp⟩
  case fallsAsleep c => cases c <;> cases idle
  case sendTop c | sendCheck c _ | sendTransmit c _ | sendPop c | sendDone c | dispTop c | dispCheck c _ |
      dispMsg c _ | dispPop c | dispDone c _ => cases c <;> cases idle
  all_goals cases idle

theorem PauseCond.wait_plain (c : PauseCond) :
    c.wait.waitsOn = some c ∧ c.wait.holdsSendOne = false ∧ c.wait.owesNotify = none ∧
      ∀ c', c.wait ≠ .fallsAsleep c' := by
  cases c <;> exact ⟨rfl, rfl, rfl, by simp [PauseCond.wait]⟩

theorem Waits.falls_of_ne {s t : State} {a b : Agent} (waits : s.Waits) (h : s.step a = some t)
    (alive : t.crashed = false) (other : b ≠ a) (c : PauseCond) :
    t.pc b = .fallsAsleep c ↔ s.pc b = .fallsAsleep c := by
  rcases waits.pc_of_ne h alive other with same | ⟨idle, there⟩
  · rw [same]
  · refine ⟨fun falls => ?_, fun fell => absurd fell ((Pc.plain_of_idle idle).2.2 c)⟩
    rw [falls] at there
    rcases there with there | there | there <;> cases there

theorem Waits.waits_of_ne {s t : State} {a b : Agent} (waits : s.Waits) (h : s.step a = some t)
    (alive : t.crashed = false) (other : b ≠ a) (asleep : s.asleep b = true) : t.pc b = s.pc b := by
  rcases waits.pc_of_ne h alive other with same | ⟨idle, -⟩
  · exact same
  · exact absurd (Pc.plain_of_idle idle).1 (waits.asleep b asleep)

theorem Waits.asleep_step {s t : State} {a b : Agent} (waits : s.Waits) (h : s.step a = some t)
    (alive : t.crashed = false) (asleep : t.asleep b = true) : (t.pc b).waitsOn ≠ none := by
  have others : b ≠ a → s.asleep b = true → (t.pc b).waitsOn ≠ none := by
    intro other was
    rw [waits.waits_of_ne h alive other was]
    exact waits.asleep b was
  have awake := waits.awake_of_step h
  by_cases self : b = a
  · subst self
    cases step_waitEffect h with
    | stays keeps =>
        rw [keeps b asleep] at awake
        cases awake
    | checks c here off holds =>
        subst holds
        have was : s.asleep b = true := asleep
        rw [was] at awake
        cases awake
    | sleeps c here asleep_ =>
        subst asleep_
        simp [stepFallsAsleep, (PauseCond.wait_plain c).1]
  · refine others self ?_
    cases step_waitEffect h with
    | stays keeps => exact keeps b asleep
    | checks c here off holds =>
        subst holds
        exact asleep
    | sleeps c here asleep_ =>
        subst asleep_
        simpa [stepFallsAsleep, goto, self] using asleep

theorem Waits.mutex_step {s t : State} {a : Agent} (waits : s.Waits) (h : s.step a = some t)
    (alive : t.crashed = false) (c : PauseCond) (b : Agent) :
    t.stateMutex c = some b ↔ t.pc b = .fallsAsleep c := by
  have free := (advance_of_step h).1
  have others := waits.falls_of_ne h alive (b := b)
  cases step_waitEffect h with
  | stays _ mutex here there =>
      rw [mutex, waits.mutex]
      by_cases self : b = a
      · subst self
        exact ⟨fun falls => absurd falls (here c), fun falls => absurd falls (there c)⟩
      · exact (others self c).symm
  | checks c' here off holds =>
      have locked : s.stateMutex c' = none := by
        refine free c' ?_
        rw [here]
        cases c' <;> simp [PauseCond.wait, Pc.locks]
      have nobody : s.pc b ≠ .fallsAsleep c' := by
        intro falls
        have := (waits.mutex c' b).mpr falls
        rw [locked] at this
        cases this
      subst holds
      by_cases self : b = a <;> by_cases cond : c = c'
      · subst self cond
        simp [goto]
      · have := waits.mutex c b
        subst self
        rw [here] at this
        simpa [goto, cond, Ne.symm cond, (PauseCond.wait_plain c').2.2.2] using this
      · subst cond
        simp [goto, self, Ne.symm self, nobody]
      · simpa [goto, self, cond] using waits.mutex c b
  | sleeps c' here asleep =>
      have mine := (waits.mutex c' a).mpr here
      subst asleep
      by_cases self : b = a <;> by_cases cond : c = c'
      · subst self cond
        simp [stepFallsAsleep, goto, (PauseCond.wait_plain c).2.2.2]
      · have := waits.mutex c b
        subst self
        rw [here] at this
        simpa [stepFallsAsleep, goto, cond, Ne.symm cond, (PauseCond.wait_plain c').2.2.2] using this
      · subst cond
        have nobody : s.pc b ≠ .fallsAsleep c := by
          intro falls
          have := (waits.mutex c b).mpr falls
          rw [mine] at this
          exact self (Option.some.inj this).symm
        simp [stepFallsAsleep, goto, self, nobody]
      · simpa [stepFallsAsleep, goto, self, cond] using waits.mutex c b

theorem Waits.sendOne_step {s t : State} {a b : Agent} (waits : s.Waits) (h : s.step a = some t)
    (alive : t.crashed = false) (holds : t.sendOneMutex = some b) : (t.pc b).holdsSendOne = true := by
  rcases step_sendOne h with free | ⟨taken, there⟩ | ⟨same, keeps⟩
  · rw [free] at holds
    cases holds
  · rw [taken] at holds
    cases holds
    exact there
  · rw [same] at holds
    have held := waits.sendOne b holds
    by_cases self : b = a
    · subst self
      exact keeps held
    · rcases waits.pc_of_ne h alive self with unmoved | ⟨idle, -⟩
      · rwa [unmoved]
      · rw [(Pc.plain_of_idle idle).2.1] at held
        cases held

theorem waits_init (mtu : Nat) : (init mtu).Waits where
  live := by
    refine ⟨roles_init mtu, held_init mtu, ⟨.down, ⟨rfl, rfl, rfl⟩, ?_⟩,
      fun runs => absurd rfl runs, fun runs => absurd rfl runs⟩
    intro a
    constructor <;> intro joins <;> cases joins
  asleep _ sleeps := by cases sleeps
  mutex _ _ := by simp [init]
  sendOne _ holds := by cases holds

theorem Waits.goto {s : State} (waits : s.Waits) {a : Agent} {p : Pc} (live : (s.goto a p).lifecycle.Live)
    (asleep : (s.pc a).waitsOn = none) (falls : ∀ c, s.pc a ≠ .fallsAsleep c ∧ p ≠ .fallsAsleep c)
    (sendOne : (s.pc a).holdsSendOne = false) : (s.goto a p).Waits := by
  refine ⟨live, fun b sleeps => ?_, fun c b => ?_, fun b holds => ?_⟩
  all_goals by_cases self : b = a
  · subst self
    exact absurd asleep (waits.asleep b sleeps)
  · rw [goto_pc_of_ne s p self]
    exact waits.asleep b sleeps
  · subst self
    rw [goto_pc_self]
    exact ⟨fun holds => absurd ((waits.mutex c b).mp holds) (falls c).1, fun at_ => absurd at_ (falls c).2⟩
  · rw [goto_pc_of_ne s p self]
    exact waits.mutex c b
  · subst self
    have := waits.sendOne b holds
    rw [sendOne] at this
    cases this
  · rw [goto_pc_of_ne s p self]
    exact waits.sendOne b holds

theorem enter_eq_goto (s : State) (a : Agent) (c : Call) :
    ∃ p, s.enter a c = s.goto a p ∧ p.waitsOn = none ∧ ∀ c, p ≠ .fallsAsleep c := by
  cases c
  case publish m =>
    simp only [enter, ret]
    repeat' split
    all_goals exact ⟨_, rfl, rfl, by simp⟩
  all_goals exact ⟨_, rfl, rfl, by simp⟩

theorem waits_next {s t : State} {e : Event} (waits : s.Waits) (h : s.next e = some t)
    (alive : t.crashed = false) : t.Waits := by
  have live := waits.live.next (next_lifecycle h).2
  unfold next at h
  split at h
  · cases h
  cases e with
  | step a =>
      exact ⟨live, fun _ => waits.asleep_step h alive, waits.mutex_step h alive,
        fun _ => waits.sendOne_step h alive⟩
  | call id c =>
      simp only [call] at h
      split at h <;> cases h
      next last idle =>
        obtain ⟨p, enters, -, plain⟩ := s.enter_eq_goto (.api id) c
        rw [enters] at live ⊢
        exact waits.goto live (by rw [idle]; rfl) (fun c => ⟨by simp [idle], plain c⟩) (by rw [idle]; rfl)
  | transport wanted =>
      simp only [transport] at h
      split at h <;> cases h
      next receiving =>
        refine waits.goto live (by rw [receiving]; rfl) (fun c => ⟨by simp [receiving], ?_⟩)
          (by rw [receiving]; rfl)
        cases wanted <;> simp
  | wake a =>
      simp only at h
      split at h <;> cases h
      refine ⟨live, fun b sleeps => waits.asleep b ?_, waits.mutex, waits.sendOne⟩
      by_cases self : b = a
      · subst self
        simp at sleeps
      · simpa [self] using sleeps

def Woken (s : State) (c : PauseCond) : Prop :=
  ∀ a, s.SleepsOn c a → s.paused = true ∨ ∃ b, (s.pc b).owesNotify = some c

/-- A thread finds the condition of its wait on `c` false, or a flush notifies `c` while a thread is between
its check and its sleep, only while the instance is paused or some other flush has still to notify. -/
def StaysAwake (c : PauseCond) (s : State) : Event → Prop
  | .step a =>
      (s.pc a = c.wait → s.asleep a = false → s.mayGoOn c = false →
        s.paused = true ∨ ∃ b, (s.pc b).owesNotify = some c) ∧
      ((s.pc a).notifies = some c → (∃ b, s.pc b = .fallsAsleep c) →
        s.paused = true ∨ ∃ b, b ≠ a ∧ (s.pc b).owesNotify = some c)
  | _ => True

theorem Waits.sleepsOn_step {s t : State} {a b : Agent} {c : PauseCond} (waits : s.Waits) (h : s.step a = some t)
    (alive : t.crashed = false) (sleeps : t.SleepsOn c b) :
    s.SleepsOn c b ∨ b = a ∧ s.pc a = c.wait ∧ s.asleep a = false ∧ s.mayGoOn c = false := by
  have awake := waits.awake_of_step h
  have falls := waits.falls_of_ne h alive (b := b)
  have same := waits.waits_of_ne h alive (b := b)
  cases step_waitEffect h with
  | stays keeps _ here there =>
      rcases sleeps with falls' | ⟨asleep, waiting⟩
      · by_cases self : b = a
        · subst self
          exact absurd falls' (there c)
        · exact .inl (.inl ((falls self c).mp falls'))
      · have was := keeps b asleep
        have self : b ≠ a := by
          rintro rfl
          rw [was] at awake
          cases awake
        rw [same self was] at waiting
        exact .inl (.inr ⟨was, waiting⟩)
  | checks c' here off holds =>
      subst holds
      by_cases self : b = a
      · subst self
        rcases sleeps with fell | ⟨-, waiting⟩
        · obtain rfl : c' = c := by simpa using fell
          exact .inr ⟨rfl, here, awake, off⟩
        · simp [Pc.waitsOn] at waiting
      · simp only [SleepsOn, goto_pc_of_ne _ _ self] at sleeps
        exact .inl sleeps
  | sleeps c' here asleep =>
      subst asleep
      by_cases self : b = a
      · subst self
        rcases sleeps with fell | ⟨-, waiting⟩
        · exact absurd fell (by simp [stepFallsAsleep, (PauseCond.wait_plain c').2.2.2])
        · obtain rfl : c' = c := by simpa [stepFallsAsleep, (PauseCond.wait_plain c').1] using waiting
          exact .inl (.inl here)
      · have still : (s.stepFallsAsleep a c').asleep b = s.asleep b := Function.update_of_ne self _ _
        have pc : (s.stepFallsAsleep a c').pc b = s.pc b := goto_pc_of_ne _ _ self
        rw [SleepsOn, still, pc] at sleeps
        exact .inl sleeps

theorem Waits.owes_of_ne {s t : State} {a b : Agent} {c : PauseCond} (waits : s.Waits) (h : s.step a = some t)
    (other : b ≠ a) (owes : (s.pc b).owesNotify = some c) : (t.pc b).owesNotify = some c := by
  have api := Pc.isApi_of_owesNotify owes (waits.live.roles b)
  rcases step_pc_frame h other with same | ⟨rfl, -⟩ | ⟨rfl, -⟩ | ⟨rfl, -⟩
  · rwa [same]
  all_goals cases api

/-- Where the instance is resumed or a flush notifies, nobody is left asleep but a thread that had yet to
fall asleep. -/
theorem Wakes.falls {s t : State} {a b : Agent} {c : PauseCond} (wakes : Wakes s t c) (was : s.SleepsOn c b)
    (waits : s.Waits) (h : s.step a = some t) (alive : t.crashed = false) (sleeps : t.SleepsOn c b) :
    s.pc b = .fallsAsleep c := by
  rcases was with fell | ⟨asleep, waiting⟩
  · exact fell
  · have awake := waits.awake_of_step h
    have self : b ≠ a := by
      rintro rfl
      rw [asleep] at awake
      cases awake
    rcases sleeps with fell | ⟨still, -⟩
    · exact (waits.falls_of_ne h alive self c).mp fell
    · rw [wakes b waiting] at still
      cases still

theorem woken_step {s t : State} {a : Agent} {c : PauseCond} (waits : s.Waits) (woken : s.Woken c)
    (stays : s.StaysAwake c (.step a)) (h : s.step a = some t) (alive : t.crashed = false) : t.Woken c := by
  intro b sleeps
  have effect := step_waitEffect h
  -- Paused, or owed a notification, and so after the step unless it notifies.
  have owed : s.paused = true ∨ ∃ b, (s.pc b).owesNotify = some c := by
    rcases waits.sleepsOn_step h alive sleeps with was | ⟨-, here, awake, off⟩
    · exact woken b was
    · exact stays.1 here awake off
  have others : ∀ {b'}, b' ≠ a → (s.pc b').owesNotify = some c →
      t.paused = true ∨ ∃ b, (t.pc b).owesNotify = some c :=
    fun other owes => .inr ⟨_, waits.owes_of_ne h other owes⟩
  cases effect with
  | checks c' here off holds =>
      subst holds
      rcases owed with paused | ⟨b', owes⟩
      · exact .inl paused
      · refine others ?_ owes
        rintro rfl
        rw [here, (PauseCond.wait_plain c').2.2.1] at owes
        cases owes
  | sleeps c' here asleep =>
      subst asleep
      rcases owed with paused | ⟨b', owes⟩
      · exact .inl paused
      · refine others ?_ owes
        rintro rfl
        rw [here] at owes
        cases owes
  | stays keeps mutex here there owes paused =>
      have was : s.SleepsOn c b := by
        rcases waits.sleepsOn_step h alive sleeps with was | ⟨rfl, -, awake, -⟩
        · exact was
        · rcases sleeps with fell | ⟨asleep, -⟩
          · exact absurd fell (there c)
          · rw [keeps b asleep] at awake
            cases awake
      have stillPaused : s.paused = true → t.paused = true := by
        intro was_
        rcases paused was_ with still | ⟨resumes, wakes⟩
        · exact still
        · -- Whoever resumes has the state mutexes, so nobody is between check and sleep.
          have falls := (wakes c).falls was waits h alive sleeps
          have free := (advance_of_step h).1 c (by rw [resumes]; cases c <;> simp [Pc.locks])
          rw [(waits.mutex c b).mpr falls] at free
          cases free
      rcases owed with wasPaused | ⟨b', owes'⟩
      · exact .inl (stillPaused wasPaused)
      by_cases self : b' = a
      · subst self
        rcases owes c owes' with still | ⟨notifies, wakes⟩
        · exact .inr ⟨b', still⟩
        · have falls := wakes.falls was waits h alive sleeps
          rcases stays.2 notifies ⟨b, falls⟩ with wasPaused | ⟨b'', other, owesToo⟩
          · exact .inl (stillPaused wasPaused)
          · exact others other owesToo
      · exact others self owes'

theorem woken_init (mtu : Nat) (c : PauseCond) : (init mtu).Woken c := by
  rintro a (fell | ⟨asleep, -⟩)
  · cases fell
  · cases asleep

theorem Woken.goto {s : State} {a : Agent} {c : PauseCond} {p : Pc} (woken : s.Woken c) (plain : p.waitsOn = none)
    (awake : p ≠ .fallsAsleep c) (free : (s.pc a).owesNotify = none) : (s.goto a p).Woken c := by
  intro b sleeps
  have self : b ≠ a := by
    rintro rfl
    rcases sleeps with fell | ⟨-, waiting⟩
    · exact awake (by simpa using fell)
    · simp [plain] at waiting
  rw [SleepsOn, goto_pc_of_ne _ _ self] at sleeps
  rcases woken b sleeps with paused | ⟨b', owes⟩
  · exact .inl paused
  · refine .inr ⟨b', ?_⟩
    rw [goto_pc_of_ne]
    · exact owes
    · rintro rfl
      rw [free] at owes
      cases owes

theorem woken_next {s t : State} {e : Event} {c : PauseCond} (waits : s.Waits) (woken : s.Woken c)
    (stays : s.StaysAwake c e) (h : s.next e = some t) (alive : t.crashed = false) : t.Woken c := by
  unfold next at h
  split at h
  · cases h
  cases e with
  | step a => exact woken_step waits woken stays h alive
  | call id call =>
      simp only [State.call] at h
      split at h <;> cases h
      next last idle =>
        obtain ⟨p, enters, plain, awake⟩ := s.enter_eq_goto (.api id) call
        rw [enters]
        exact woken.goto plain (awake c) (by rw [idle]; rfl)
  | transport wanted =>
      simp only [transport] at h
      split at h <;> cases h
      next receiving =>
        cases wanted <;> exact woken.goto rfl (by simp) (by rw [receiving]; rfl)
  | wake a =>
      simp only at h
      split at h <;> cases h
      intro b sleeps
      refine woken b (sleeps.imp id fun sleep => ⟨?_, sleep.2⟩)
      have asleep := sleep.1
      by_cases self : b = a
      · subst self
        simp at asleep
      · simpa [self] using asleep

/-- In every run that stays awake on `c`, whatever the threads do: while the instance is not paused and no
call is in progress, nobody is left asleep on `c`. -/
theorem awake_of_staysAwake {mtu : Nat} {es pre : List Event} {t : State} {c : PauseCond}
    (stays : Runs.Meets next (StaysAwake c) (init mtu) es) (reached : pre <+: es) (runs : (init mtu).run pre = some t)
    (alive : t.crashed = false) : t.Waits ∧ t.Woken c := by
  refine @Runs.run_invariant _ _ next (StaysAwake c) (fun s => s.crashed = false → s.Waits ∧ s.Woken c) ?_ _ _
    (fun _ => ⟨waits_init mtu, woken_init mtu c⟩) stays _ reached _ runs alive
  intro s e u inv allowed h alive
  obtain ⟨waits, woken⟩ := inv (next_lifecycle h).1
  exact ⟨waits_next waits h alive, woken_next waits woken allowed h alive⟩

/-- The send thread on its own takes the oldest message from the queue. -/
def Takes (s : State) : Prop :=
  ∃ n u, s.run (List.replicate n (.step .sender)) = some u ∧ u.sendQueue = s.sendQueue.pop

structure Ready (s : State) : Prop where
  alive : s.crashed = false
  running : s.sendThreadState = .running
  unpaused : s.paused = false
  enabled : s.sendQueue.isEnabled = true
  message : s.sendQueue.hasMessage = true
  free : s.stateMutex .send = none
  awake : s.asleep .sender = false

theorem Takes.of_step {s t : State} (alive : s.crashed = false) (h : s.step .sender = some t)
    (same : t.sendQueue = s.sendQueue) (takes : t.Takes) : s.Takes := by
  obtain ⟨n, u, runs, popped⟩ := takes
  refine ⟨n + 1, u, ?_, by rw [popped, same]⟩
  have first : s.next (.step .sender) = some t := by simp [next, alive, h]
  simpa [List.replicate_succ, run, Runs.run, first] using runs

theorem Ready.goto {s : State} (ready : s.Ready) (p : Pc) : (s.goto .sender p).Ready :=
  ⟨ready.alive, ready.running, ready.unpaused, ready.enabled, ready.message, ready.free, ready.awake⟩

theorem Ready.step_eq {s : State} (ready : s.Ready) {p : Pc} (here : s.pc .sender = p)
    (locks : ∀ c ∈ p.locks s.recvMode, c = .send) : s.step .sender = s.advance .sender := by
  unfold step
  rw [here, if_neg]
  simp only [List.any_eq_true, not_exists, not_and]
  intro c locked
  rw [locks c locked, ready.free]
  simp

theorem Ready.takes_pop {s : State} (ready : s.Ready) (here : s.pc .sender = .sendPop .thread) : s.Takes := by
  refine ⟨1, { s with sendQueue := s.sendQueue.pop }.goto .sender (.sendDone .thread), ?_, rfl⟩
  have step := ready.step_eq here (by simp [Pc.locks])
  simp [run, Runs.run, next, ready.alive, step, advance, here, sendNext]

theorem Ready.takes_transmit {s : State} (ready : s.Ready) {m : Option Msg}
    (here : s.pc .sender = .sendTransmit .thread m) : s.Takes := by
  have step := ready.step_eq here (by simp [Pc.locks])
  have sends : ({ s with sent := s.sent ++ m.toList } : State).Ready :=
    ⟨ready.alive, ready.running, ready.unpaused, ready.enabled, ready.message, ready.free, ready.awake⟩
  refine Takes.of_step ready.alive (by rw [step, advance, here]) ?_ (Ready.takes_pop (sends.goto _) (by simp))
  rfl

theorem Ready.takes_check {s : State} (ready : s.Ready) {m : Option Msg}
    (here : s.pc .sender = .sendCheck .thread m) : s.Takes := by
  have step := ready.step_eq here (by simp [Pc.locks])
  have goes : s.stepSendCheck .sender .thread m = s.goto .sender (.sendTransmit .thread m) := by
    simp [stepSendCheck, ready.unpaused, ready.running]
  refine Takes.of_step ready.alive (by rw [step, advance, here]) ?_ ?_
  all_goals rw [goes]
  · rfl
  · exact Ready.takes_transmit (ready.goto _) (goto_pc_self ..)

theorem Ready.takes_top {s : State} (ready : s.Ready) (here : s.pc .sender = .sendTop .thread) : s.Takes := by
  have step := ready.step_eq here (by simp [Pc.locks])
  have top := ThreadsafeQueue.top_of_enabled ready.enabled ready.message
  refine Takes.of_step ready.alive (t := s.goto .sender (.sendCheck .thread s.sendQueue.queue.top)) ?_ rfl
    (Ready.takes_check (ready.goto _) (goto_pc_self ..))
  rw [step, advance, here]
  simp only [stepSendTop, top, Option.map_some]

theorem Ready.takes_lock {s : State} (ready : s.Ready) (here : s.pc .sender = .sendLock)
    (unlocked : s.sendOneMutex = none) : s.Takes := by
  have step := ready.step_eq here (by simp [Pc.locks])
  have locks : ({ s with sendOneMutex := some .sender } : State).Ready :=
    ⟨ready.alive, ready.running, ready.unpaused, ready.enabled, ready.message, ready.free, ready.awake⟩
  refine Takes.of_step ready.alive (t := { s with sendOneMutex := some .sender }.goto .sender (.sendTop .thread)) ?_ rfl
    (Ready.takes_top (locks.goto _) (goto_pc_self ..))
  rw [step, advance, here]
  simp [stepLockSend, unlocked]

theorem Ready.takes_wait {s : State} (ready : s.Ready) (here : s.pc .sender = .sendWait)
    (unlocked : s.sendOneMutex = none) : s.Takes := by
  have step := ready.step_eq here (by simp [Pc.locks])
  have on : s.mayGoOn .send = true := by simp [mayGoOn, ready.unpaused, ready.enabled]
  refine Takes.of_step ready.alive (t := s.goto .sender .sendLock) ?_ rfl
    (Ready.takes_lock (ready.goto _) (goto_pc_self ..) unlocked)
  rw [step, advance, here]
  simp [stepSendWait, stepWait, ready.awake, on, ready.running]

theorem Ready.takes_done {s : State} (ready : s.Ready) (here : s.pc .sender = .sendDone .thread) : s.Takes := by
  have step := ready.step_eq here (by simp [Pc.locks])
  have unlocks : ({ s with sendOneMutex := none } : State).Ready :=
    ⟨ready.alive, ready.running, ready.unpaused, ready.enabled, ready.message, ready.free, ready.awake⟩
  refine Takes.of_step ready.alive (t := { s with sendOneMutex := none }.goto .sender .sendWait) ?_ rfl
    (Ready.takes_wait (unlocks.goto _) (goto_pc_self ..) rfl)
  simp only [step, advance, here, stepSendDone]

theorem sending_cases {p : Pc} (spot : p.spot = .sending) :
    p = .sendWait ∨ p = .sendLock ∨ p = .sendTop .thread ∨ (∃ m, p = .sendCheck .thread m) ∨
      (∃ m, p = .sendTransmit .thread m) ∨ p = .sendPop .thread ∨ p = .sendDone .thread ∨
        p = .fallsAsleep .send := by
  cases p
  case sendTop c | sendCheck c m | sendTransmit c m | sendPop c | sendDone c =>
    cases c <;> first | (cases spot; done) | simp
  case dispTop c | dispCheck c m | dispMsg c m | dispPop c | dispDone c _ => cases c <;> cases spot
  case fallsAsleep c => cases c <;> first | (cases spot; done) | simp
  all_goals first | (cases spot; done) | simp

theorem Waits.sender_of_sending {s : State} (waits : s.Waits) {a : Agent} (spot : (s.pc a).spot = .sending) :
    a = .sender := by
  have role : (s.pc a).spot.allows a = true := waits.live.roles a
  simpa [spot, Spot.allows] using role

theorem Waits.sendOne_of_quiet {s : State} (waits : s.Waits) (quiet : ∀ a, (s.pc a).inCall = false)
    (idle : (s.pc .sender).holdsSendOne = false) : s.sendOneMutex = none := by
  cases taken : s.sendOneMutex with
  | none => rfl
  | some b =>
      have holds := waits.sendOne b taken
      have spot : (s.pc b).spot = .sending := by
        have outside := quiet b
        cases hp : s.pc b <;> simp only [hp] at holds outside
        case sendTop c | sendCheck c m | sendTransmit c m | sendPop c | sendDone c =>
          cases c <;> first | rfl | cases outside
        all_goals first | (cases holds; done) | cases outside
      rw [waits.sender_of_sending spot, idle] at holds
      cases holds

theorem Waits.ready {s : State} (waits : s.Waits) (alive : s.crashed = false)
    (running : s.sendThreadState = .running) (unpaused : s.paused = false)
    (enabled : s.sendQueue.isEnabled = true) (message : s.sendQueue.hasMessage = true)
    (awake : ¬ s.SleepsOn .send .sender) (spot : (s.pc .sender).spot = .sending) : s.Ready := by
  refine ⟨alive, running, unpaused, enabled, message, ?_, ?_⟩
  · cases taken : s.stateMutex .send with
    | none => rfl
    | some b =>
        have falls := (waits.mutex .send b).mp taken
        have self := waits.sender_of_sending (a := b) (by rw [falls]; rfl)
        subst self
        exact absurd (.inl falls) awake
  · by_contra sleeps
    have asleep : s.asleep .sender = true := by simpa using sleeps
    have waiting := waits.asleep .sender asleep
    rcases sending_cases spot with here | here | here | ⟨_, here⟩ | ⟨_, here⟩ | here | here | here
    · exact awake (.inr ⟨asleep, by rw [here]; rfl⟩)
    all_goals
      rw [here] at waiting
      exact waiting rfl

theorem Waits.takes {s : State} (waits : s.Waits) (alive : s.crashed = false)
    (running : s.sendThreadState = .running) (unpaused : s.paused = false)
    (enabled : s.sendQueue.isEnabled = true) (message : s.sendQueue.hasMessage = true)
    (quiet : ∀ a, (s.pc a).inCall = false) (awake : ¬ s.SleepsOn .send .sender) : s.Takes := by
  have spot : (s.pc .sender).spot = .sending := by
    obtain ⟨send, is, -⟩ := waits.live.sender
    have phase : send = .running := by
      have state : s.lifecycle.sendThreadState = .running := running
      cases send <;> simp_all [Lifecycle.SendIs]
    subst phase
    exact is.2.2
  have ready := waits.ready alive running unpaused enabled message awake spot
  rcases sending_cases spot with here | here | here | ⟨_, here⟩ | ⟨_, here⟩ | here | here | here
  · exact ready.takes_wait here (waits.sendOne_of_quiet quiet (by rw [here]; rfl))
  · exact ready.takes_lock here (waits.sendOne_of_quiet quiet (by rw [here]; rfl))
  · exact ready.takes_top here
  · exact ready.takes_check here
  · exact ready.takes_transmit here
  · exact ready.takes_pop here
  · exact ready.takes_done here
  · exact absurd (.inl here) awake

/-- In every run in which no publish starts the send thread on a queue that is disabled and that nobody is
about to enable, and the send thread goes to sleep only where it will be notified: while the send thread is
RUNNING, the instance is not paused and no flush, stop or setQueueSize is in progress, the send queue is
enabled, and the send thread takes the oldest message that waits in it. -/
theorem sendQueue_enabled_of_startsOpen (mtu : Nat) (es : List Event)
    (meets : Runs.Meets next (fun s e => s.StartsOpen e ∧ s.StaysAwake .send e) (init mtu) es) (pre : List Event)
    (reached : pre <+: es) (t : State) (runs : (init mtu).run pre = some t)
    (running : t.sendThreadState = .running) (unpaused : t.paused = false)
    (quiet : ∀ a, (t.pc a).inCall = false) :
    t.sendQueue.isEnabled = true ∧
      (t.sendQueue.hasMessage = true → t.sendQueue.top = some (.elt t.sendQueue.queue.top)) ∧
      (t.crashed = false → t.sendQueue.hasMessage = true → t.Takes) := by
  have starts : Runs.Meets next StartsOpen (init mtu) es := meets.mono fun _ _ allowed => allowed.1
  have stays : Runs.Meets next (StaysAwake .send) (init mtu) es := meets.mono fun _ _ allowed => allowed.2
  have inv : t.SendInv :=
    Runs.run_invariant (fun _ _ _ inv allowed h => sendInv_next inv allowed h) (sendInv_init mtu) starts
      reached runs
  have enabled : t.sendQueue.isEnabled = true := by
    rcases inv.opened running with enabled | ⟨b, owes⟩
    · exact enabled
    · have := quiet b
      rw [Pc.inCall_of_owesEnable owes] at this
      cases this
  refine ⟨enabled, ThreadsafeQueue.top_of_enabled enabled, fun alive message => ?_⟩
  obtain ⟨waits, woken⟩ := awake_of_staysAwake stays reached runs alive
  refine waits.takes alive running unpaused enabled message quiet fun sleeps => ?_
  rcases woken .sender sleeps with paused | ⟨b, owes⟩
  · rw [unpaused] at paused
    cases paused
  · have := quiet b
    rw [Pc.inCall_of_owesNotify owes] at this
    cases this

def stops (id : Nat) : List Event :=
  [.call id (.stop true), .step (.api id), .step (.api id), .step (.api id), .step .sender,
    .step .sender, .step (.api id), .step (.api id), .step (.api id)]

/-- Publish, stop, publish again: the queue that `stop` disabled is never enabled. -/
theorem sendQueue_disabled_after_restart :
    ¬ ∀ t, (init 8).run (publishes 0 ⟨0, [], [1]⟩ ++ stops 0 ++ publishes 0 ⟨0, [], [2]⟩) = some t →
      t.sendThreadState = .running → t.paused = false → (∀ a, (t.pc a).inCall = false) →
      t.sendQueue.isEnabled = true := by
  intro claim
  have enabled := claim _ rfl rfl rfl (fun a => by
    cases a with
    | api id => cases id <;> rfl
    | sender | receiver | handler => rfl)
  exact absurd enabled (by decide)

-- A setQueueSize enables the queue and notifies nobody: the send thread that found it disabled sleeps on.
example :
    ((init 8).run (publishes 0 ⟨0, [], [1]⟩ ++
      [.call 1 (.setQueueSize 4 false), .step (.api 1), .step (.api 1), .step .sender, .step .sender] ++
      List.replicate 10 (.step (.api 1)))).map
        (fun t => (t.sendQueue.isEnabled, t.sendQueue.hasMessage, (t.step .sender).isSome)) =
      some (true, true, false) := rfl

def pausesAndResumes (id : Nat) : List Event :=
  [.call id .pause, .step (.api id), .step .sender, .step .sender, .call id .resume, .step (.api id)]

/-- The send thread falls asleep while the instance is paused, and the resume wakes it. -/
theorem sendQueue_enabled_after_resume :
    ∃ t, (init 8).run (publishes 0 ⟨0, [], [1]⟩ ++ pausesAndResumes 1) = some t ∧
      t.sendQueue.isEnabled = true ∧ t.sendQueue.hasMessage = true ∧ t.Takes := by
  have meets : Runs.Meets next (fun s e => s.StartsOpen e ∧ s.StaysAwake .send e) (init 8)
      (publishes 0 ⟨0, [], [1]⟩ ++ pausesAndResumes 1) := by
    repeat
      refine ⟨?_, fun t h => ?_⟩
      · first
          | exact ⟨trivial, trivial⟩
          | refine ⟨fun _ _ => .inl rfl, fun _ _ _ => .inl rfl, fun notifies => ?_⟩
            cases notifies
          | refine ⟨fun _ _ => .inl rfl, fun waits => ?_, fun notifies => ?_⟩
            · cases waits
            · cases notifies
      cases h
    trivial
  have quiet : ∀ t, (init 8).run (publishes 0 ⟨0, [], [1]⟩ ++ pausesAndResumes 1) = some t →
      ∀ a, (t.pc a).inCall = false := by
    intro t runs a
    cases runs
    cases a with
    | api id => rcases id with _ | _ | id <;> rfl
    | sender | receiver | handler => rfl
  have main := sendQueue_enabled_of_startsOpen 8 _ meets _ (List.prefix_refl _) _ rfl rfl rfl (quiet _ rfl)
  exact ⟨_, rfl, main.1, by decide, main.2.2 rfl (by decide)⟩

/-- In every run that stays awake on `hndlPauseCond`: while the instance is not paused and no flush is in
progress, no dispatcher is left asleep, and one at its wait goes on if the receive queue is enabled. -/
theorem dispatcher_not_left_asleep (mtu : Nat) (es : List Event)
    (stays : Runs.Meets next (StaysAwake .hndl) (init mtu) es) (pre : List Event) (reached : pre <+: es) (t : State)
    (runs : (init mtu).run pre = some t) (alive : t.crashed = false) (unpaused : t.paused = false)
    (quiet : ∀ a, (t.pc a).owesNotify ≠ some .hndl) (a : Agent) :
    ¬ t.SleepsOn .hndl a ∧
      (t.pc a = .hndlWait → t.recvQueue.isEnabled = true → t.hndlThreadState = .running →
        t.step a = some (t.goto a .hndlLock)) := by
  obtain ⟨waits, woken⟩ := awake_of_staysAwake stays reached runs alive
  have awake : ∀ b, ¬ t.SleepsOn .hndl b := by
    intro b sleeps
    rcases woken b sleeps with paused | ⟨b', owes⟩
    · rw [unpaused] at paused
      cases paused
    · exact quiet b' owes
  refine ⟨awake a, fun here enabled running => ?_⟩
  have free : t.stateMutex .hndl = none := by
    cases taken : t.stateMutex .hndl with
    | none => rfl
    | some b => exact absurd (.inl ((waits.mutex .hndl b).mp taken)) (awake b)
  have stirs : t.asleep a = false := by
    by_contra sleeps
    exact awake a (.inr ⟨by simpa using sleeps, by rw [here]; rfl⟩)
  have on : t.mayGoOn .hndl = true := by simp [mayGoOn, unpaused, enabled]
  simp [step, here, Pc.locks, free, advance, stepHndlWait, stepWait, stirs, on, running]

def startsAndSleeps : List Event :=
  [.call 0 .start, .step (.api 0), .step (.api 0), .step .handler, .call 1 .pause, .step (.api 1), .step .handler,
    .step .handler, .call 1 .resume, .step (.api 1)]

theorem dispatcher_not_left_asleep_after_resume :
    ∃ t, (init 8).run startsAndSleeps = some t ∧ t.step .handler = some (t.goto .handler .hndlLock) := by
  have stays : Runs.Meets next (StaysAwake .hndl) (init 8) startsAndSleeps := by
    repeat
      refine ⟨?_, fun t h => ?_⟩
      · first
          | trivial
          | refine ⟨fun _ _ _ => .inl rfl, fun notifies => ?_⟩
            cases notifies
          | refine ⟨fun waits => ?_, fun notifies => ?_⟩
            · cases waits
            · cases notifies
      cases h
    trivial
  have quiet : ∀ t, (init 8).run startsAndSleeps = some t → ∀ a, (t.pc a).owesNotify ≠ some .hndl := by
    intro t runs a
    cases runs
    cases a with
    | api id =>
        rcases id with _ | _ | id
        all_goals
          intro owes
          cases owes
    | sender | receiver | handler =>
        intro owes
        cases owes
  have main := dispatcher_not_left_asleep 8 _ stays _ (List.prefix_refl _) _ rfl rfl rfl (quiet _ rfl) .handler
  exact ⟨_, rfl, main.2 rfl rfl rfl⟩

end State
end Zcm.Blocking
