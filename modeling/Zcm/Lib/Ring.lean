import Zcm.Lib.Memory

namespace Zcm.Lib.Ring

variable {α : Type}

def slot (cap i : Nat) : Nat := if cap ≤ i then i - cap else i

def span (cap front back : Nat) : Nat :=
  if front ≤ back then back - front else cap - (front - back)

def view (cells : Mem α) (cap front n : Nat) : List α :=
  (List.range n).map fun i => cells (slot cap (front + i))

theorem slot_lt {cap front k : Nat} (hf : front < cap) (hk : k ≤ cap) : slot cap (front + k) < cap := by
  unfold slot
  split <;> omega

theorem slot_of_lt {cap i : Nat} (h : i < cap) : slot cap i = i := by
  simp [slot, Nat.not_le.mpr h]

theorem slot_slot {cap front k i : Nat} (hf : front < cap) (h : k + i ≤ cap) :
    slot cap (slot cap (front + k) + i) = slot cap (front + (k + i)) := by
  unfold slot
  split <;> split <;> split <;> omega

theorem slot_ne {cap front i j : Nat} (h : i < j) (hj : j < cap) :
    slot cap (front + i) ≠ slot cap (front + j) := by
  unfold slot
  split <;> split <;> omega

theorem slot_retreat {cap front n k : Nat} (hf : front < cap) (hn : n ≤ cap) (hk : k ≤ n) :
    (if slot cap (front + n) < k then cap - (k - slot cap (front + n)) else slot cap (front + n) - k) =
      slot cap (front + (n - k)) := by
  unfold slot
  repeat' split
  all_goals omega

theorem span_lt {cap front back : Nat} (hf : front < cap) (hb : back < cap) :
    span cap front back < cap := by
  unfold span
  split <;> omega

theorem slot_span {cap front back : Nat} (hf : front < cap) (hb : back < cap) :
    slot cap (front + span cap front back) = back := by
  unfold span slot
  split <;> split <;> omega

theorem span_slot {cap front n : Nat} (hf : front < cap) (hn : n < cap) :
    span cap front (slot cap (front + n)) = n := by
  unfold span slot
  split <;> split <;> omega

theorem span_eq_zero {cap front : Nat} (back : Nat) (hf : front < cap) :
    span cap front back = 0 ↔ front = back := by
  unfold span
  split <;> omega

theorem span_advance {cap front back k : Nat} (hf : front < cap) (hb : back < cap)
    (h : k ≤ span cap front back) :
    span cap (slot cap (front + k)) back = span cap front back - k := by
  unfold span slot at *
  split at h <;> split <;> split <;> omega

@[simp] theorem view_length (cells : Mem α) (cap front n : Nat) :
    (view cells cap front n).length = n := by
  simp [view]

@[simp] theorem view_zero (cells : Mem α) (cap front : Nat) : view cells cap front 0 = [] := rfl

theorem view_getElem (cells : Mem α) (cap front n i : Nat) (h : i < (view cells cap front n).length) :
    (view cells cap front n)[i] = cells (slot cap (front + i)) := by
  simp [view]

theorem view_succ_back (cells : Mem α) (cap front n : Nat) :
    view cells cap front (n + 1) = view cells cap front n ++ [cells (slot cap (front + n))] := by
  simp [view, List.range_succ]

theorem view_take (cells : Mem α) (cap front n k : Nat) (h : k ≤ n) :
    (view cells cap front n).take k = view cells cap front k := by
  apply List.ext_getElem (by simp [h])
  intro i hi hi'
  simp [view]

theorem view_drop (cells : Mem α) {cap front n k : Nat} (hf : front < cap) (hk : k ≤ n) (hn : n ≤ cap) :
    (view cells cap front n).drop k = view cells cap (slot cap (front + k)) (n - k) := by
  apply List.ext_getElem (by simp)
  intro i hi hi'
  have bound : i < n - k := by simpa using hi'
  rw [List.getElem_drop, view_getElem, view_getElem, slot_slot hf (by omega)]

theorem view_congr {cells cells' : Mem α} {cap front n : Nat}
    (same : ∀ i < n, cells (slot cap (front + i)) = cells' (slot cap (front + i))) :
    view cells cap front n = view cells' cap front n := by
  apply List.map_congr_left
  intro i member
  exact same i (List.mem_range.mp member)

theorem view_push (cells : Mem α) {cap front n : Nat} (x : α) (hn : n < cap) :
    view (cells.set (slot cap (front + n)) x) cap front (n + 1) = view cells cap front n ++ [x] := by
  rw [view_succ_back]
  congr 1
  · apply view_congr
    intro i hi
    exact Mem.set_of_ne _ _ (slot_ne hi hn)
  · simp

theorem view_cons (cells : Mem α) {cap front n : Nat} (hf : front < cap) (hn : n + 1 ≤ cap) :
    view cells cap front (n + 1) = cells front :: view cells cap (slot cap (front + 1)) n := by
  have rest := view_drop cells hf (k := 1) (Nat.le_add_left 1 n) hn
  rw [Nat.add_sub_cancel] at rest
  rw [← rest]
  apply List.ext_getElem (by simp)
  intro i hi hi'
  cases i with
  | zero => simp [view_getElem, slot_of_lt hf]
  | succ i => simp

theorem view_eq_read (cells : Mem α) {cap front n : Nat} (h : front + n ≤ cap) :
    view cells cap front n = cells.read front n := by
  apply List.map_congr_left
  intro i member
  have := List.mem_range.mp member
  rw [slot_of_lt (by omega)]

theorem view_write (cells : Mem α) {cap front n : Nat} (xs : List α) (hf : front < cap)
    (within : slot cap (front + n) + xs.length ≤ cap) (fits : n + xs.length < cap) :
    view (cells.write (slot cap (front + n)) xs) cap front (n + xs.length) =
      view cells cap front n ++ xs := by
  induction xs generalizing cells n with
  | nil => simp
  | cons x xs ih =>
      simp only [List.length_cons] at within fits ⊢
      rw [Mem.write_cons]
      by_cases last : xs = []
      · subst last
        simpa using view_push cells x (by omega : n < cap)
      · have positive := List.length_pos_iff.mpr last
        have next : slot cap (front + n) + 1 = slot cap (front + (n + 1)) := by
          have turn := slot_slot (i := 1) hf (by omega : n + 1 ≤ cap)
          rwa [slot_of_lt (by omega : slot cap (front + n) + 1 < cap)] at turn
        rw [next, show n + (xs.length + 1) = (n + 1) + xs.length by omega,
          ih _ (by omega) (by omega), view_push cells x (by omega)]
        simp

end Zcm.Lib.Ring
