import Mathlib.Data.List.Basic
import Mathlib.Tactic.Common

namespace Zcm.Lib

/-- Storage with one cell for each address. Addresses are never out of range here: which of them
a program may touch is a matter of the program. -/
abbrev Mem (α : Type) := Nat → α

namespace Mem

variable {α : Type}

def read (m : Mem α) (start : Nat) (n : Nat) : List α :=
  (List.range n).map fun i => m (start + i)

def write (m : Mem α) (start : Nat) (xs : List α) : Mem α := fun a =>
  if h : start ≤ a ∧ a - start < xs.length then xs.get ⟨a - start, h.2⟩ else m a

def set (m : Mem α) (a : Nat) (x : α) : Mem α := Function.update m a x

@[simp] theorem set_self (m : Mem α) (a : Nat) (x : α) : m.set a x a = x := by
  simp [set]

theorem set_of_ne (m : Mem α) {a b : Nat} (x : α) (h : b ≠ a) : m.set a x b = m b :=
  Function.update_of_ne h ..

@[simp] theorem read_length (m : Mem α) (start n : Nat) : (m.read start n).length = n := by
  simp [read]

@[simp] theorem read_zero (m : Mem α) (start : Nat) : m.read start 0 = [] := rfl

theorem read_getElem (m : Mem α) (start n i : Nat) (h : i < (m.read start n).length) :
    (m.read start n)[i] = m (start + i) := by
  simp [read]

theorem read_succ (m : Mem α) (start n : Nat) :
    m.read start (n + 1) = m start :: m.read (start + 1) n := by
  apply List.ext_getElem (by simp)
  intro i hi hi'
  cases i with
  | zero => simp [read]
  | succ i => simp [read, Nat.add_comm, Nat.add_left_comm]

theorem read_add (m : Mem α) (start k n : Nat) :
    m.read start (k + n) = m.read start k ++ m.read (start + k) n := by
  simp [read, List.range_add, Nat.add_assoc, Function.comp_def]

theorem read_drop_take {m : Mem α} {n a b : Nat} {xs : List α} (whole : m.read 0 n = xs)
    (inside : a + b ≤ n) : m.read a b = (xs.drop a).take b := by
  obtain ⟨c, rfl⟩ := Nat.exists_eq_add_of_le inside
  rw [← whole, Nat.add_assoc, Mem.read_add, List.drop_left' (by simp), Mem.read_add, List.take_left' (by simp)]
  simp

theorem read_congr {m m' : Mem α} {start n : Nat} (same : ∀ i < n, m (start + i) = m' (start + i)) :
    m.read start n = m'.read start n := by
  apply List.map_congr_left
  intro i member
  exact same i (List.mem_range.mp member)

theorem read_eq_iff {m : Mem α} {start : Nat} {xs : List α} :
    m.read start xs.length = xs ↔ ∀ i (h : i < xs.length), m (start + i) = xs[i] := by
  constructor
  · intro equal i h
    have := read_getElem m start xs.length i (by simpa using h)
    rw [← this]
    simp only [equal]
  · intro cells
    apply List.ext_getElem (by simp)
    intro i hi hi'
    rw [read_getElem]
    exact cells i hi'

@[simp] theorem write_nil (m : Mem α) (start : Nat) : m.write start [] = m := by
  funext a
  simp [write]

theorem write_inside (m : Mem α) (start : Nat) (xs : List α) (i : Nat) (h : i < xs.length) :
    m.write start xs (start + i) = xs[i] := by
  simp [write, h]

theorem write_outside (m : Mem α) (start : Nat) (xs : List α) (a : Nat)
    (outside : a < start ∨ start + xs.length ≤ a) : m.write start xs a = m a := by
  have : ¬ (start ≤ a ∧ a - start < xs.length) := by omega
  simp [write, this]

theorem write_cons (m : Mem α) (start : Nat) (x : α) (xs : List α) :
    m.write start (x :: xs) = (m.set start x).write (start + 1) xs := by
  funext a
  by_cases first : a = start
  · subst first
    rw [write_outside (m.set a x) _ _ _ (by omega), set_self]
    exact write_inside m a (x :: xs) 0 (by simp)
  · by_cases rest : start + 1 ≤ a ∧ a < start + 1 + xs.length
    · obtain ⟨i, rfl⟩ := Nat.exists_eq_add_of_le rest.1
      rw [write_inside _ _ _ _ (by omega), Nat.add_assoc, write_inside _ _ _ _ (by simp; omega)]
      simp [Nat.add_comm 1 i]
    · rw [write_outside _ _ _ _ (by simp; omega), write_outside _ _ _ _ (by omega), set_of_ne _ _ first]

theorem read_write_self (m : Mem α) (start : Nat) (xs : List α) :
    (m.write start xs).read start xs.length = xs :=
  read_eq_iff.mpr fun i h => write_inside m start xs i h

theorem read_write_disjoint (m : Mem α) (start : Nat) (xs : List α) (other n : Nat)
    (disjoint : other + n ≤ start ∨ start + xs.length ≤ other) :
    (m.write start xs).read other n = m.read other n :=
  read_congr fun i hi => write_outside m start xs (other + i) (by omega)

theorem write_append (m : Mem α) (start : Nat) (xs ys : List α) :
    m.write start (xs ++ ys) = (m.write start xs).write (start + xs.length) ys := by
  funext a
  by_cases first : start ≤ a ∧ a < start + xs.length
  · obtain ⟨i, rfl⟩ := Nat.exists_eq_add_of_le first.1
    have inside : i < xs.length := by omega
    rw [write_inside _ _ _ _ (by simp; omega), write_outside _ _ _ _ (by omega),
      write_inside _ _ _ _ inside, List.getElem_append_left inside]
  · by_cases second : start + xs.length ≤ a ∧ a < start + xs.length + ys.length
    · obtain ⟨i, rfl⟩ := Nat.exists_eq_add_of_le second.1
      rw [write_inside _ _ _ _ (by omega), Nat.add_assoc, write_inside _ _ _ _ (by simp; omega)]
      simp
    · rw [write_outside _ _ _ _ (by simp; omega), write_outside _ _ _ _ (by omega),
        write_outside _ _ _ _ (by omega)]

theorem write_read (m : Mem α) (start n : Nat) : m.write start (m.read start n) = m := by
  funext a
  by_cases inside : start ≤ a ∧ a < start + n
  · obtain ⟨i, rfl⟩ := Nat.exists_eq_add_of_le inside.1
    rw [write_inside _ _ _ _ (by rw [read_length]; omega), read_getElem]
  · rw [write_outside _ _ _ _ (by rw [read_length]; omega)]

theorem set_set (m : Mem α) (a : Nat) (x y : α) : (m.set a x).set a y = m.set a y := by
  simp [Mem.set]

theorem write_concat (m : Mem α) (start : Nat) (xs : List α) (x : α) :
    m.write start (xs ++ [x]) = (m.write start xs).set (start + xs.length) x := by
  rw [write_append, write_cons, write_nil]

end Mem

end Zcm.Lib
