import Mathlib.Algebra.BigOperators.Group.List.Basic
import Zcm.Gen.ComputeHash
import Zcm.Gen.RoundTrip

namespace Zcm.Gen
open Zcm.Lib

def Typename.isNumber : Typename → Bool
  | .prim _ | .bits .. => true
  | _ => false

def Typename.unit : Typename → Bool → Nat
  | .prim p, true => p.size
  | .bits _ numbits _, true => numbits
  | _, _ => 1

def Demands.within : Demands where
  extent e := e.type.unit e.innermost * e.count < 2 ^ 31
  run numbits := numbits < 2 ^ 31
  lengths := True

theorem numbits_le {p : Prim} {numbits : Nat} {signExtend : Bool}
    (accepted : (Typename.bits p numbits signExtend).accepted = true) : 1 ≤ numbits ∧ numbits ≤ 8 * p.size := by
  simp only [Typename.accepted, Bool.and_eq_true, decide_eq_true_eq] at accepted
  omega

theorem unit_pos {t : Typename} (accepted : t.accepted = true) (innermost : Bool) : 1 ≤ t.unit innermost := by
  cases innermost with
  | false => cases t <;> exact le_rfl
  | true =>
      cases t with
      | prim p => exact p.size_pos
      | bits p numbits signExtend => exact (numbits_le accepted).1
      | _ => exact le_rfl

theorem count_lt {t : Typename} (accepted : t.accepted = true) {innermost : Bool} {count : Nat}
    (span : (t.unit innermost : Int) * count < 2 ^ 31) : t.unit innermost * count < 2 ^ 31 ∧ count < 2 ^ 31 := by
  have unit := unit_pos accepted innermost
  have least := Nat.mul_le_mul_right count unit
  rw [← Nat.cast_mul] at span
  omega

namespace Value

mutual

def cells : Value → Nat
  | .num _ => 1
  | .str _ => 1
  | .struct fields => 1 + cellsOf fields
  | .array items => 1 + cellsOf items

def cellsOf : List Value → Nat
  | [] => 0
  | v :: vs => cells v + cellsOf vs

end

theorem cellsOf_eq (vs : List Value) : cellsOf vs = (vs.map cells).sum := by
  induction vs with
  | nil => rfl
  | cons v vs ih => rw [cellsOf, ih, List.map_cons, List.sum_cons]

theorem cells_pos (v : Value) : 1 ≤ v.cells := by
  cases v <;> simp only [cells] <;> omega

end Value

theorem cells_leaves (k : Nat) (v : Value) : ((leaves k v).map Value.cells).sum ≤ v.cells := by
  induction k generalizing v with
  | zero => rw [leaves, List.map_singleton, List.sum_singleton]
  | succ k ih =>
      cases v with
      | array items =>
          rw [leaves, Value.cells, Value.cellsOf_eq]
          refine le_trans ?_ (Nat.le_add_left _ 1)
          induction items with
          | nil => exact le_rfl
          | cons item items rest =>
              rw [List.flatMap_cons, List.map_append, List.sum_append, List.map_cons, List.sum_cons]
              exact Nat.add_le_add (ih item) rest
      | _ => exact Nat.zero_le _

theorem leaves_le_cells (k : Nat) (v : Value) : (leaves k v).length ≤ v.cells := by
  refine le_trans ?_ (cells_leaves k v)
  rw [← List.length_map (f := Value.cells)]
  refine List.length_le_sum_of_one_le _ fun n member => ?_
  obtain ⟨l, -, rfl⟩ := List.mem_map.mp member
  exact l.cells_pos

section Counts

variable {demands : Demands} {conforms : String → List Value → Prop} {t : Typename} {m : Member} {scope : Scope}
  {ds : List Dimension} {v : Value}

theorem leaves_eq_nil (conform : ConformsDims demands conforms t (m.extentsFrom scope ds) v) {d : Dimension}
    (member : d ∈ ds) (none : scope.dimSize d ≤ 0) : leaves ds.length v = [] := by
  induction ds generalizing v with
  | nil => cases member
  | cons d' ds ih =>
      cases v with
      | array items =>
          obtain ⟨-, count, each⟩ := conform
          rw [List.length_cons, leaves, List.flatMap_eq_nil_iff]
          intro item inside
          obtain rfl | member := List.mem_cons.mp member
          · have positive := List.length_pos_of_mem inside
            dsimp only at count
            omega
          · exact ih (each item inside) member
      | _ => cases conform

theorem leaves_count {k : Nat} (le : k ≤ ds.length)
    (conform : ConformsDims demands conforms t (m.extentsFrom scope ds) v) :
    ((leaves k v).length : Int) = ((ds.take k).map scope.dimSize).prod := by
  induction k generalizing ds v with
  | zero => rfl
  | succ k ih =>
      cases ds with
      | nil => simp at le
      | cons d ds =>
          cases v with
          | array items =>
              obtain ⟨-, count, each⟩ := conform
              rw [List.take_succ_cons, List.map_cons, List.prod_cons, leaves,
                ← show (items.length : Int) = scope.dimSize d from count]
              clear count
              induction items with
              | nil => simp
              | cons item items rest =>
                  have first := ih (Nat.le_of_succ_le_succ le) (each item List.mem_cons_self)
                  have rest := rest fun v member => each v (List.mem_cons_of_mem item member)
                  rw [List.flatMap_cons, List.length_append, Nat.cast_add, first, rest, List.length_cons]
                  push_cast
                  ring
          | _ => cases conform

end Counts

end Zcm.Gen
