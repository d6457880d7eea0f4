import Mathlib.Algebra.BigOperators.Group.List.Basic
import Mathlib.Tactic.Abel

namespace Zcm.Lib.RunningSums

section Monoid

variable {α β : Type} [AddCommMonoid α] [AddCommMonoid β]

def step (s : α × α) (x : α) : α × α := (s.1 + x, s.2 + (s.1 + x))

def sums (s : α × α) (xs : List α) : α × α := xs.foldl step s

@[simp] theorem sums_nil (s : α × α) : sums s [] = s := rfl

@[simp] theorem sums_cons (s : α × α) (x : α) (xs : List α) : sums s (x :: xs) = sums (step s x) xs := rfl

theorem sums_append (s : α × α) (xs ys : List α) : sums s (xs ++ ys) = sums (sums s xs) ys := List.foldl_append

theorem sums_map (f : α →+ β) (s : α × α) (xs : List α) :
    sums (f s.1, f s.2) (xs.map f) = (f (sums s xs).1, f (sums s xs).2) := by
  induction xs generalizing s with
  | nil => rfl
  | cons x xs ih =>
      have next : step (f s.1, f s.2) (f x) = (f (step s x).1, f (step s x).2) := by simp [step]
      rw [List.map_cons, sums_cons, sums_cons, next, ih]

end Monoid

section Group

variable {α : Type} [AddCommGroup α] {s t : α × α} {x y : α}

theorem step_eq_iff : step s x = step s y ↔ x = y := by
  rw [step, step, Prod.mk.injEq, add_right_inj, add_right_inj, add_right_inj, and_self]

theorem sums_eq_iff (xs : List α) : sums s xs = sums t xs ↔ s = t := by
  induction xs generalizing s t with
  | nil => rfl
  | cons x xs ih =>
      rw [sums_cons, sums_cons, ih, step, step, Prod.mk.injEq, add_left_inj]
      constructor
      · rintro ⟨first, second⟩
        rw [first, add_left_inj] at second
        exact Prod.ext first second
      · rintro rfl
        exact ⟨rfl, rfl⟩

theorem sums_replace (xs zs : List α) : sums s (xs ++ x :: zs) = sums s (xs ++ y :: zs) ↔ x = y := by
  rw [sums_append, sums_append, sums_cons, sums_cons, sums_eq_iff, step_eq_iff]

theorem sums_exchange (xs zs : List α) : sums s (xs ++ x :: y :: zs) = sums s (xs ++ y :: x :: zs) ↔ x = y := by
  rw [sums_append, sums_append]
  generalize sums s xs = t
  have same : t.1 + x + y = t.1 + y + x := by abel
  rw [sums_cons, sums_cons, sums_cons, sums_cons, sums_eq_iff]
  simp only [step, Prod.mk.injEq, same, true_and, add_left_inj, add_right_inj]

end Group

end Zcm.Lib.RunningSums
