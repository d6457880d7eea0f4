import Zcm.Lib.Memory

namespace Zcm.Lib

def Tiles : Nat → List (Nat × Nat) → Nat → Prop
  | a, [], b => a = b
  | a, r :: rs, b => r.1 = a ∧ Tiles (a + r.2) rs b

variable {a b : Nat} {rs : List (Nat × Nat)}

theorem tiles_of_adjacent (nonempty : rs ≠ []) (first : ∀ r, rs[0]? = some r → r.1 = a)
    (adjacent : ∀ (k : Nat) (r s : Nat × Nat), rs[k]? = some r → rs[k + 1]? = some s → r.1 + r.2 = s.1)
    (last : ∀ (k : Nat) (r : Nat × Nat), k + 1 = rs.length → rs[k]? = some r → r.1 + r.2 = b) :
    Tiles a rs b := by
  induction rs generalizing a with
  | nil => exact absurd rfl nonempty
  | cons r rs ih =>
      have start := first r rfl
      refine ⟨start, ?_⟩
      cases rs with
      | nil =>
          have stop := last 0 r rfl rfl
          rw [start] at stop
          exact stop
      | cons s rs =>
          apply ih (by simp)
          · intro t ht
            have := adjacent 0 r t rfl ht
            omega
          · intro k t u ht hu
            exact adjacent (k + 1) t u ht hu
          · intro k t hk ht
            exact last (k + 1) t (by simpa using hk) ht

theorem Tiles.le (h : Tiles a rs b) : a ≤ b := by
  induction rs generalizing a with
  | nil => exact Nat.le_of_eq h
  | cons r rs ih => exact Nat.le_trans (Nat.le_add_right a r.2) (ih h.2)

theorem Tiles.bounds (h : Tiles a rs b) {k : Nat} {r : Nat × Nat} (hr : rs[k]? = some r) :
    a ≤ r.1 ∧ r.1 + r.2 ≤ b := by
  induction rs generalizing a k with
  | nil => cases hr
  | cons s rs ih =>
      have rest := h.2.le
      cases k with
      | zero =>
          cases hr
          have := h.1
          omega
      | succ k =>
          have := ih h.2 hr
          omega

theorem Tiles.disjoint (h : Tiles a rs b) {j k x : Nat} {r s : Nat × Nat} (hr : rs[j]? = some r)
    (hs : rs[k]? = some s) (inR : r.1 ≤ x ∧ x < r.1 + r.2) (inS : s.1 ≤ x ∧ x < s.1 + s.2) : j = k := by
  induction rs generalizing a j k with
  | nil => cases hr
  | cons t rs ih =>
      have start := h.1
      cases j with
      | zero =>
          cases k with
          | zero => rfl
          | succ k =>
              cases hr
              have := h.2.bounds hs
              omega
      | succ j =>
          cases k with
          | zero =>
              cases hs
              have := h.2.bounds hr
              omega
          | succ k => rw [ih h.2 hr hs]

theorem Tiles.read {α : Type} (h : Tiles a rs b) (m : Mem α) (base : Nat) (pieces : List (List α))
    (lengths : rs.length = pieces.length)
    (holds : ∀ (k : Nat) (r : Nat × Nat) (p : List α), rs[k]? = some r → pieces[k]? = some p →
      m.read (base + r.1) r.2 = p) :
    m.read (base + a) (b - a) = pieces.flatten := by
  induction rs generalizing a pieces with
  | nil =>
      have empty : pieces = [] := List.eq_nil_of_length_eq_zero lengths.symm
      have same : a = b := h
      simp [empty, same]
  | cons r rs ih =>
      cases pieces with
      | nil => cases lengths
      | cons p pieces =>
          have le := h.2.le
          have first := holds 0 r p rfl rfl
          have rest := ih h.2 pieces (by simpa using lengths) fun k s q hs hq => holds (k + 1) s q hs hq
          rw [h.1] at first
          rw [List.flatten_cons, ← first, ← rest, show b - a = r.2 + (b - (a + r.2)) by omega, Mem.read_add,
            Nat.add_assoc]

end Zcm.Lib
