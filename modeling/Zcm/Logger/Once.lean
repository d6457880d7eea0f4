import Zcm.Logger.Cycles
import Zcm.Logger.Reports

namespace Zcm.Logger
open Zcm.Lib Zcm.Eventlog

variable {args : Args} {sizeofLogEvent rounds : Nat}

/-- No two rotations have one cycle, and the names in a completion are those of a rotation of its cycle. -/
structure ExactlyOnce (s : State) : Prop where
  once : (s.rotations.map fun r => r.1.cycle).Nodup
  answers : ∀ cycle oldFile newFile, Frame.cycleComplete cycle oldFile newFile ∈ s.sent →
    ∃ r ∈ s.rotations, r.1 = ⟨cycle, oldFile, newFile⟩

/-- A request that arrives while no cycle is pending is for a cycle that has not been rotated before, or for
the last completed one. -/
def NotDelayed (args : Args) (s : State) : Action → Prop
  | .handler rbuf channel _ _ => channel = controlRequestChannel → ∀ request,
      parseCycleRequestFrame rbuf.data = some request → request.cycle.sessionId = args.controlSessionId →
      s.pendingCycleValid = false → (∀ c, s.completed = some c → c.cycle ≠ request.cycle) →
      ∀ r ∈ s.rotations, r.1.cycle ≠ request.cycle
  | .main _ | .sigterm | .sighup => True

def State.awaits (s : State) : Prop :=
  (∃ le ∈ s.inHand ++ s.q, isInternalBarrier le = true) ∨ s.rotating = true

structure Unrepeated (s : State) : Prop where
  once : (s.rotations.map fun r => r.1.cycle).Nodup
  fresh : s.awaits → ∀ r ∈ s.rotations, r.1.cycle ≠ s.pendingCycle

section Steps

variable {s t : State}

theorem Unrepeated.kept (h : Unrepeated s) (rotations : t.rotations = s.rotations)
    (cycle : t.pendingCycle = s.pendingCycle)
    (awaits : t.awaits → s.awaits) : Unrepeated t :=
  ⟨rotations ▸ h.once, by rw [rotations, cycle]; exact fun waits => h.fresh (awaits waits)⟩

theorem Unrepeated.released (h : Unrepeated s) (rotations : t.rotations = s.rotations)
    (cycle : t.pendingCycle = s.pendingCycle) (q : t.q = s.q) (hand : t.inHand = []) (rotating : t.rotating = false) :
    Unrepeated t := by
  refine h.kept rotations cycle ?_
  rintro (⟨le, member, isBarrier⟩ | absurd)
  · rw [hand, q] at member
    exact .inl ⟨le, List.mem_append_right _ member, isBarrier⟩
  · rw [rotating] at absurd
    cases absurd

theorem Unrepeated.next (h : Unrepeated s) (one : OneBarrier s) {a : Action} (inOrder : NotDelayed args s a)
    (moves : Moves args sizeofLogEvent rounds s a t) : Unrepeated t := by
  cases moves with
  | pushes evts data =>
      refine h.kept rfl rfl ?_
      rintro (⟨le, member, isBarrier⟩ | rotating)
      · simp only [State.pushAll] at member
        rw [← List.append_assoc] at member
        rcases List.mem_append.mp member with old | new
        · exact .inl ⟨le, old, isBarrier⟩
        · rw [data le new] at isBarrier
          cases isBarrier
      · exact .inr rotating
  | enqueues rbuf isControl request parses session notPending other =>
      exact ⟨h.once, fun _ => inOrder isControl request parses session notPending other⟩
  | replies => exact h.kept rfl rfl id
  | replyFails => exact h.released rfl rfl rfl rfl rfl
  | sigterm => exact h.kept rfl rfl id
  | dies => exact h.released rfl rfl rfl rfl rfl
  | sighup => exact h.kept rfl rfl id
  | idles => exact h
  | stops => exact h.released rfl rfl rfl rfl rfl
  | pops loops notDone le q front =>
      refine h.kept rfl rfl ?_
      rintro (⟨le', member, isBarrier⟩ | absurd)
      · refine .inl ⟨le', List.mem_append_right _ ?_, isBarrier⟩
        rw [front]
        exact member
      · cases absurd
  | writesData le holds data s' opened =>
      rw [opened.fields.1]
      exact h.released rfl rfl rfl rfl rfl
  | losesData le holds data s' opened =>
      rw [opened.fields.1]
      exact h.released rfl rfl rfl rfl rfl
  | writesBarrier le holds isBarrier =>
      exact h.kept rfl rfl fun _ => .inl ⟨le, by simp [State.inHand, holds], isBarrier⟩
  | losesBarrier => exact h.released rfl rfl rfl rfl rfl
  | rotates request holds files =>
      have process : s.inProcess = true := by simp [State.inProcess, holds]
      have cycle : request.cycle = s.pendingCycle := one.worked request (by simp [State.atWork, holds])
      have waited : s.awaits := .inr (by simp [State.rotating, holds])
      refine ⟨?_, ?_⟩
      · simp only [List.map_append, List.map_cons, List.map_nil]
        refine List.nodup_append.mpr ⟨h.once, List.pairwise_singleton _ _, ?_⟩
        intro id old id' new
        obtain ⟨r, member, rfl⟩ := List.mem_map.mp old
        rw [List.mem_singleton.mp new, cycle]
        exact h.fresh waited r member
      · -- the barrier was the only one
        rintro (⟨le, member, isBarrier⟩ | absurd)
        · rw [no_barrier_of_countP (one.alone process).1 member] at isBarrier
          cases isBarrier
        · cases absurd
  | records => exact h.released rfl rfl rfl rfl rfl
  | completes => exact h.released rfl rfl rfl rfl rfl
  | returns => exact h.kept rfl rfl (by rintro (⟨le, absurd, -⟩ | absurd) <;> cases absurd)
  | exits s' opened =>
      rw [opened.fields.1]
      exact h.released rfl rfl rfl rfl rfl

end Steps

section Runs

variable {s : State} {dir : Dir} {o : Opening} {sends : Bool}

/-- In every run in which no request comes again after a later cycle has been completed, each cycle rotates
the log at most once, and is answered with the names of that rotation. -/
theorem cycles_exactly_once (starts : State.start args rounds dir o sends = some s) {es : List Action}
    (meets : Runs.Meets (State.next args sizeofLogEvent rounds) (NotDelayed args) s es) {pre : List Action}
    (reached : pre <+: es) {t : State} (runs : Runs.run (State.next args sizeofLogEvent rounds) s pre = some t) :
    ExactlyOnce t := by
  have first : OneBarrier s ∧ Reported s ∧ Unrepeated s := by
    refine ⟨start_oneBarrier starts, start_reported starts, ?_⟩
    obtain ⟨files, frames, -, -, rfl⟩ := start_eq starts
    exact ⟨List.nodup_nil, fun _ r absurd => by cases absurd⟩
  have all := @Runs.run_invariant _ _ (State.next args sizeofLogEvent rounds) (NotDelayed args)
    (fun s => OneBarrier s ∧ Reported s ∧ Unrepeated s)
    (fun s a t inv inOrder steps =>
      have moves := next_moves steps
      ⟨inv.1.next moves, inv.2.1.next moves, inv.2.2.next inv.1 inOrder moves⟩)
    s es first meets pre reached t runs
  exact ⟨all.2.2.once, all.2.1.answers⟩

def cycleSteps : List Action := List.replicate 5 (.main succeeds)

def resent : List Action := asks 1 :: cycleSteps ++ [asks 1]

theorem resent_notDelayed : Runs.Meets (State.next plainArgs 48 10) (NotDelayed plainArgs) plainLogger resent := by
  have ended : (Runs.run (State.next plainArgs 48 10) plainLogger (asks 1 :: cycleSteps)).map
      (fun t => t.completed.map (·.cycle)) = some (some ⟨7, 1⟩) := by decide
  obtain ⟨t, runs, same⟩ := Option.map_eq_some_iff.mp ended
  obtain ⟨c, isLast, cycle⟩ := Option.map_eq_some_iff.mp same
  have parses :
      parseCycleRequestFrame (CycleRequestFrame.bytes ⟨⟨7, 1⟩, 0, 0⟩) = some ⟨⟨7, 1⟩, 0, 0⟩ := by
    decide
  refine Runs.meets_append runs ⟨?_, fun t _ => ?_⟩ ⟨?_, fun _ _ => trivial⟩
  · exact fun _ _ _ _ _ _ r absurd => by cases absurd
  · refine Runs.meets_of_forall (fun a member s => ?_) t
    rw [List.eq_of_mem_replicate member]
    trivial
  · -- the second request is for the cycle that has been completed
    rintro - request parses' - - other
    obtain rfl := Option.some.inj (parses.symm.trans parses')
    exact absurd cycle (other c isLast)

theorem cycles_exactly_once_resent :
    ExactlyOnce ((Runs.run (State.next plainArgs 48 10) plainLogger resent).get (by decide)) :=
  cycles_exactly_once (Option.some_get _).symm resent_notDelayed List.prefix_rfl (Option.some_get _).symm

def delayed : List Action := asks 1 :: cycleSteps ++ asks 2 :: cycleSteps ++ asks 1 :: cycleSteps

/-- The first request comes again behind the second cycle, and the log is rotated for it again. -/
theorem delayed_request_rotates_again : ∃ t, Runs.run (State.next plainArgs 48 10) plainLogger delayed = some t ∧
    t.rotations.map (fun r => r.1.cycle) = [⟨7, 1⟩, ⟨7, 2⟩, ⟨7, 1⟩] ∧ ¬ ExactlyOnce t := by
  have ended : (Runs.run (State.next plainArgs 48 10) plainLogger delayed).map
      (fun t => t.rotations.map fun r => r.1.cycle) = some [⟨7, 1⟩, ⟨7, 2⟩, ⟨7, 1⟩] := by decide
  obtain ⟨t, runs, cycles⟩ := Option.map_eq_some_iff.mp ended
  refine ⟨t, runs, cycles, fun exactly => ?_⟩
  have once := exactly.once
  rw [cycles] at once
  exact absurd once (by decide)

end Runs

end Zcm.Logger
