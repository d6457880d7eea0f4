import Mathlib.Data.List.Basic
import Mathlib.Tactic.Common

namespace Zcm.Lib.Runs

variable {σ ε : Type} (next : σ → ε → Option σ) (allowed : σ → ε → Prop)

def run (s : σ) (es : List ε) : Option σ := es.foldlM next s

def Meets (s : σ) : List ε → Prop
  | [] => True
  | e :: es => allowed s e ∧ ∀ t, next s e = some t → Meets t es

variable {next allowed}

@[simp] theorem run_nil (s : σ) : run next s [] = some s := rfl

theorem run_cons {s t : σ} {e : ε} {es : List ε} (h : run next s (e :: es) = some t) :
    ∃ u, next s e = some u ∧ run next u es = some t := by
  simpa [run, List.foldlM_cons, Option.bind_eq_some_iff] using h

/-- What holds of the run so far and its last state, and is kept by every allowed step, holds of every
state reached. -/
theorem run_history {inv : List ε → σ → Prop}
    (keeps : ∀ past s e t, inv past s → allowed s e → next s e = some t → inv (past ++ [e]) t)
    {past : List ε} {s : σ} {es : List ε} (initial : inv past s) (meets : Meets next allowed s es)
    {pre : List ε} (reached : pre <+: es) {t : σ} (runs : run next s pre = some t) :
    inv (past ++ pre) t := by
  induction pre generalizing past s es with
  | nil =>
      cases runs
      simpa using initial
  | cons e pre ih =>
      obtain ⟨u, first, rest⟩ := run_cons runs
      obtain ⟨_, rfl⟩ := reached
      have later := ih (keeps past s e u initial meets.1 first) (meets.2 u first) (List.prefix_append ..) rest
      simpa using later

theorem run_invariant {inv : σ → Prop}
    (keeps : ∀ s e t, inv s → allowed s e → next s e = some t → inv t) {s : σ} {es : List ε}
    (initial : inv s) (meets : Meets next allowed s es) {pre : List ε} (reached : pre <+: es) {t : σ}
    (runs : run next s pre = some t) : inv t :=
  @run_history _ _ _ _ (fun _ => inv) (fun _ => keeps) [] _ _ initial meets _ reached _ runs

theorem Meets.mono {weaker : σ → ε → Prop} (weakens : ∀ s e, allowed s e → weaker s e) {s : σ} {es : List ε}
    (meets : Meets next allowed s es) : Meets next weaker s es := by
  induction es generalizing s with
  | nil => trivial
  | cons e es ih => exact ⟨weakens s e meets.1, fun t step => ih (meets.2 t step)⟩

theorem meets_cons {s t : σ} {e : ε} {es : List ε} (step : next s e = some t) :
    Meets next allowed s (e :: es) ↔ allowed s e ∧ Meets next allowed t es := by
  refine and_congr_right fun _ => ⟨fun later => later t step, fun later u step' => ?_⟩
  obtain rfl : t = u := Option.some.inj (step.symm.trans step')
  exact later

theorem meets_append {s t : σ} {pre es : List ε} (runs : run next s pre = some t) (first : Meets next allowed s pre)
    (later : Meets next allowed t es) : Meets next allowed s (pre ++ es) := by
  induction pre generalizing s with
  | nil =>
      cases runs
      exact later
  | cons e pre ih =>
      obtain ⟨u, step, rest⟩ := run_cons runs
      exact (meets_cons step).mpr ⟨first.1, ih rest (first.2 u step)⟩

theorem Meets.allowed_next {s t : σ} {e : ε} {es pre : List ε} (meets : Meets next allowed s es)
    (reached : pre ++ [e] <+: es) (runs : run next s pre = some t) : allowed t e := by
  induction pre generalizing s es with
  | nil =>
      cases runs
      obtain ⟨_, rfl⟩ := reached
      exact meets.1
  | cons first pre ih =>
      obtain ⟨u, step, rest⟩ := run_cons runs
      obtain ⟨_, rfl⟩ := reached
      exact ih (meets.2 u step) ⟨_, rfl⟩ rest

/-- Where a step keeps `good` exactly if it is allowed, the runs through good states are those whose steps
are all allowed. -/
theorem meets_iff {inv good : σ → Prop} (stuck : ∀ s e, inv s → next s e = none → allowed s e)
    (keeps : ∀ s e t, inv s → next s e = some t → inv t)
    (exactly : ∀ s e t, inv s → good s → next s e = some t → (good t ↔ allowed s e)) {s : σ} {es : List ε}
    (initial : inv s) (starts : good s) :
    (∀ pre, pre <+: es → ∀ t, run next s pre = some t → good t) ↔ Meets next allowed s es := by
  constructor
  · intro always
    induction es generalizing s with
    | nil => trivial
    | cons e es ih =>
        cases step : next s e with
        | none => exact ⟨stuck s e initial step, fun t step' => by rw [step] at step'; cases step'⟩
        | some u =>
            have reached : good u := always [e] (by simp) u (by simpa [run] using step)
            refine ⟨(exactly s e u initial starts step).mp reached, fun t step' => ?_⟩
            obtain rfl : u = t := Option.some.inj (step.symm.trans step')
            refine ih (keeps s e u initial step) reached fun pre isPrefix t runs => ?_
            refine always (e :: pre) (List.cons_prefix_cons.mpr ⟨rfl, isPrefix⟩) t ?_
            simpa [run, step] using runs
  · intro meets pre reached t runs
    have both := @run_invariant _ _ next allowed (fun s => inv s ∧ good s)
      (fun s e t both allowed step => ⟨keeps s e t both.1 step, (exactly s e t both.1 both.2 step).mpr allowed⟩)
      _ _ ⟨initial, starts⟩ meets _ reached _ runs
    exact both.2

theorem meets_of_forall {es : List ε} (always : ∀ e ∈ es, ∀ s, allowed s e) (s : σ) :
    Meets next allowed s es := by
  induction es generalizing s with
  | nil => trivial
  | cons e es ih =>
      exact ⟨always e (by simp) s, fun t _ => ih (fun e' member => always e' (by simp [member])) t⟩

theorem run_total {inv : σ → Prop}
    (keeps : ∀ s e, inv s → allowed s e → ∃ t, next s e = some t ∧ inv t) {s : σ} {es : List ε}
    (initial : inv s) (meets : Meets next allowed s es) : ∃ t, run next s es = some t ∧ inv t := by
  induction es generalizing s with
  | nil => exact ⟨s, rfl, initial⟩
  | cons e es ih =>
      obtain ⟨u, first, kept⟩ := keeps s e initial meets.1
      obtain ⟨t, rest, reached⟩ := ih kept (meets.2 u first)
      refine ⟨t, ?_, reached⟩
      simpa [run, first] using rest

end Zcm.Lib.Runs
