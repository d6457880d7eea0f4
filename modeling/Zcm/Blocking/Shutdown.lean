import Zcm.Blocking.Threads

namespace Zcm.Blocking
open Zcm.Lib Zcm.Util

namespace Lifecycle
variable {l l' : Lifecycle} {a b : Agent}

/-- Whoever joins the send thread joins one that was told to halt, and the queue it may wait on stays
closed until it has halted. -/
structure Shutdown (l : Lifecycle) : Prop where
  roles : l.Roles
  held : l.Held
  joining : ∀ a, l.spot a = .stopJoinSend →
    l.sendThreadState = .halting ∨ l.sendThreadState = .halted
  closed : l.sendThreadState = .halting → l.sendClosed = true
  ended : l.sendThreadState = .halted → l.spot .sender = .idle

theorem Step.sendThreadState_cases (h : Step l a l') :
    l'.sendThreadState = l.sendThreadState ∨
      l.spot a = .publishSpawn ∧ l.sendThreadState = .stopped ∨ (l.spot a).holdsMode = true ∨
      l.spot a = .sendHalt ∧ l'.sendThreadState = .halted := by
  cases h
  case publishes here stopped => exact .inr (.inl ⟨here, stopped⟩)
  case haltsSend here _ | sendStopped here | pollsSend here _ _ =>
    exact .inr (.inr (.inl (by rw [here]; rfl)))
  case sendEnds here => exact .inr (.inr (.inr ⟨here, rfl⟩))
  all_goals exact .inl rfl

theorem Step.sendThreadState_of_joins (h : Step l a l') (joins : l'.spot a = .stopJoinSend) :
    l' = l ∨ l'.sendThreadState = .halting := by
  cases h
  case quiet => exact .inl rfl
  case haltsSend => exact .inr rfl
  all_goals
    rw [move_spot, if_pos rfl] at joins
    grind -linarith

theorem Shutdown.joining_step (inv : l.Shutdown) (h : Step l a l')
    (joining : l'.spot b = .stopJoinSend) :
    l'.sendThreadState = .halting ∨ l'.sendThreadState = .halted := by
  by_cases self : b = a
  · subst self
    rcases h.sendThreadState_of_joins joining with rfl | halting
    · exact inv.joining b joining
    · exact .inl halting
  · rcases h.spot_of_ne self with same | ⟨rfl, spot, -⟩ | ⟨rfl, spot, -⟩ | ⟨rfl, spot, -⟩
    · rw [same] at joining
      have before := inv.joining b joining
      rcases h.sendThreadState_cases with unchanged | ⟨-, stopped⟩ | holds | ⟨-, halted⟩
      · rwa [unchanged]
      · rw [stopped] at before
        rcases before with before | before <;> cases before
      · have mine := inv.held a holds
        rw [inv.held b (by rw [joining]; rfl)] at mine
        exact absurd (Option.some.inj mine) self
      · exact .inr halted
    all_goals
      rw [spot] at joining
      cases joining

theorem Shutdown.closed_step (inv : l.Shutdown) (h : Step l a l')
    (stays : l.spot a = .opening → l.sendThreadState ≠ .halting)
    (halting : l'.sendThreadState = .halting) : l'.sendClosed = true := by
  have closed := inv.closed
  cases h
  case quiet => exact closed halting
  all_goals simp only [move, spawnSend, spawnRecv, spawnHndl, joinSend, joinRecv, joinHndl] at halting ⊢
  all_goals grind -linarith

theorem Shutdown.ended_step (inv : l.Shutdown) (h : Step l a l')
    (halted : l'.sendThreadState = .halted) : l'.spot .sender = .idle := by
  have role := inv.roles a
  have ended := inv.ended
  cases h
  case quiet => exact ended halted
  all_goals simp only [move, spawnSend, spawnRecv, spawnHndl, joinSend, joinRecv, joinHndl,
    Function.update_apply] at halted ⊢
  all_goals grind -linarith [Spot.allows]

theorem Shutdown.next {e : Event} (inv : l.Shutdown) (h : Next l e l')
    (stays : ∀ a, e = .step a → l.spot a = .opening → l.sendThreadState ≠ .halting) : l'.Shutdown := by
  cases h with
  | @step a _ steps =>
      exact ⟨inv.roles.step steps, inv.held.step steps, fun _ => inv.joining_step steps,
        inv.closed_step steps (stays a rfl), inv.ended_step steps⟩
  | @call id c p idle enters =>
      refine ⟨inv.roles.call enters, inv.held.call enters, fun b joining => ?_, inv.closed, fun halted => ?_⟩
      · rw [move_spot] at joining
        split at joining
        · rcases enters with rfl | rfl
          · cases c <;> cases joining
          · cases joining
        · exact inv.joining b joining
      · rw [move_spot, if_neg nofun]
        exact inv.ended halted
  | transport | wake => exact inv

end Lifecycle

namespace State

/-- A stop waits for the send thread, which waits for a message in an enabled and empty queue, and
nobody else is in a call. -/
def Stuck (s : State) : Prop :=
  ∃ a, s.pc a = .stopJoinSend ∧ s.pc .sender = .sendTop .thread ∧ s.sendQueue.isEnabled = true ∧
    s.sendQueue.hasMessage = false ∧ ∀ b, b.isApi = true → b ≠ a → s.ended b = true

/-- No flush or setQueueSize enables the send queue while the send thread is HALTING. -/
def StaysClosed (s : State) : Event → Prop
  | .step a => (s.pc a).spot = .opening → s.sendThreadState ≠ .halting
  | _ => True

theorem shutdown_init (mtu : Nat) : (init mtu).lifecycle.Shutdown where
  roles := roles_init mtu
  held := held_init mtu
  joining _ joining := by cases joining
  closed halting := by cases halting
  ended halted := by cases halted

theorem not_stuck_of_shutdown {s : State} (inv : s.lifecycle.Shutdown) : ¬ s.Stuck := by
  rintro ⟨a, joins, waits, enabled, -, -⟩
  rcases inv.joining a (congrArg Pc.spot joins) with halting | halted
  · have closed : s.sendQueue.disabled = true := inv.closed halting
    simp [ThreadsafeQueue.isEnabled, closed] at enabled
  · have idle : (s.pc .sender).spot = .idle := inv.ended halted
    rw [waits] at idle
    cases idle

/-- In every run, of any calls by any number of threads, in which nobody enables the send queue while
the send thread is HALTING, no stop gets stuck. -/
theorem not_stuck_of_staysClosed (mtu : Nat) (es : List Event)
    (stays : Runs.Meets next StaysClosed (init mtu) es) (pre : List Event) (reached : pre <+: es)
    (t : State) (runs : (init mtu).run pre = some t) : ¬ t.Stuck := by
  have inv : t.lifecycle.Shutdown := by
    refine @Runs.run_invariant _ _ next StaysClosed (fun s => s.lifecycle.Shutdown) ?_ _ _
      (shutdown_init mtu) stays _ reached _ runs
    intro s e u inv allowed h
    refine inv.next (next_lifecycle h).2 fun a step => ?_
    subst step
    exact allowed
  exact not_stuck_of_shutdown inv

def stopsBusy (m : Msg) : List Event :=
  publishes 0 m ++ List.replicate 8 (Event.step .sender) ++
    [Event.call 1 (.stop true), .step (.api 1), .step (.api 1), .step (.api 1)]

theorem not_stuck_after_publish :
    ∃ t, (init 8).run (stopsBusy ⟨0, [], [1]⟩) = some t ∧ t.pc (.api 1) = .stopJoinSend ∧ ¬ t.Stuck := by
  have stays : Runs.Meets next StaysClosed (init 8) (stopsBusy ⟨0, [], [1]⟩) := by
    repeat
      refine ⟨?_, fun t h => ?_⟩
      · first
          | trivial
          | intro opening
            cases opening
      cases h
    trivial
  exact ⟨_, rfl, rfl, not_stuck_of_staysClosed 8 _ stays _ (List.prefix_refl _) _ rfl⟩

/-- A flush that enables the queue again before the send thread waits on it. -/
theorem stuck_after_flush :
    ¬ ∀ t, (init 8).run (stopsBusy ⟨0, [], [1]⟩ ++ Event.call 2 (.flush false) ::
      List.replicate 10 (Event.step (.api 2)) ++ [Event.step .sender]) = some t → ¬ t.Stuck := by
  intro claim
  refine claim _ rfl ⟨.api 1, rfl, rfl, rfl, rfl, ?_⟩
  intro b isApi other
  cases b with
  | api id =>
      rcases id with _ | _ | _ | id
      · rfl
      · exact absurd rfl other
      · rfl
      · rfl
  | sender | receiver | handler => cases isApi

end State
end Zcm.Blocking
