import Mathlib.Data.List.Forall2
import Zcm.EmitC.Encode
import Zcm.EmitC.Loops

namespace Zcm.EmitC
open Zcm.Lib Zcm.Gen Zcm.Coretypes
open Zcm.Cpp (items)

section Dimensions

variable {m : Member}

variable {abi : Abi} {scope : Scope} {n : Nat} {vars : List Int} {q : Storage}

end Dimensions

section Arrays

variable {abi : Abi} {rounds : Nat} {clone : String → Storage → Storage → Except Fault (Nat × Storage)}
  {bytes : String → List Value → Nat} {conforms clonable : String → List Value → Prop} {m : Member}
  {scope : Scope}
  {p : Storage} {n : Nat} {vars : List Int} {q : Storage}

def Quiet (bytes : String → List Value → Nat) (m : Member) (depth : Nat) (v : Value) : Prop :=
  14 < m.dimensions.length →
    (depth ≤ 13 → ∀ w ∈ leaves (13 - depth) v, OnlyLast bytes m.type (m.dimensions.length - 14) w ∧
      bytesBelow bytes m.type (m.dimensions.length - 14) w + (items w).length < 2 ^ 31) ∧
    (14 ≤ depth → OnlyLast bytes m.type (m.dimensions.length - 1 - depth) v)

namespace Quiet

variable {depth loops : Nat} {row : List Value}

theorem inner (quiet : Quiet bytes m depth (.array row)) (left : m.dimensions.length = depth + (loops + 2)) :
    ∀ x ∈ row, Quiet bytes m (depth + 1) x := by
  intro x member many
  obtain ⟨outside, inside⟩ := quiet many
  constructor
  · intro le w leaf
    obtain ⟨k, next⟩ : ∃ k, 13 - depth = k + 1 := ⟨12 - depth, by omega⟩
    apply outside (by omega)
    rw [next, leaves, List.mem_flatMap]
    refine ⟨x, member, ?_⟩
    rwa [show 13 - (depth + 1) = k by omega] at leaf
  · intro le
    by_cases own : depth = 13
    · have here := (outside (by omega) (.array row) (by simp [own, leaves])).1
      rw [show m.dimensions.length - 14 = loops + 1 by omega, OnlyLast] at here
      rw [show m.dimensions.length - 1 - (depth + 1) = loops by omega]
      exact here.2 x member
    · have here := inside (by omega)
      rw [show m.dimensions.length - 1 - depth = loops + 1 by omega, OnlyLast] at here
      rw [show m.dimensions.length - 1 - (depth + 1) = loops by omega]
      exact here.2 x member

theorem last (quiet : Quiet bytes m depth (.array row)) (left : m.dimensions.length = depth + (loops + 2))
    (many : 14 < m.dimensions.length) (here : 13 ≤ depth) :
    ∀ x ∈ row.dropLast, bytesBelow bytes m.type loops x = 0 := by
  obtain ⟨outside, inside⟩ := quiet many
  by_cases own : depth = 13
  · have here := (outside (by omega) (.array row) (by simp [own, leaves])).1
    rw [show m.dimensions.length - 14 = loops + 1 by omega, OnlyLast] at here
    exact here.1
  · have here := inside (by omega)
    rw [show m.dimensions.length - 1 - depth = loops + 1 by omega, OnlyLast] at here
    exact here.1

theorem moved (quiet : Quiet bytes m depth (.array row)) (left : m.dimensions.length = depth + (loops + 2))
    (many : 14 < m.dimensions.length) (own : depth = 13) :
    (row.map (bytesBelow bytes m.type loops)).sum + row.length < 2 ^ 31 := by
  have bound := ((quiet many).1 (by omega) (.array row) (by simp [own, leaves])).2
  rwa [show m.dimensions.length - 14 = loops + 1 by omega, bytesBelow] at bound

end Quiet

def Declared (earlier : List Member) (scope : Scope) : Prop :=
  ∀ e ∈ earlier, e.dimensions = [] → e.type.isArrayDimType = true → (scope.lookup e.membername).isSome

theorem Declared.sized {earlier : List Member} (declared : Declared earlier scope)
    (accepted : acceptsMember earlier m = true) : Sized scope m.dimensions := by
  intro name member
  simp only [acceptsMember, Bool.and_eq_true, List.all_eq_true] at accepted
  have known := accepted.2 _ member
  simp only [acceptsDimension, List.any_eq_true, Bool.and_eq_true, decide_eq_true_eq, List.isEmpty_iff] at known
  obtain ⟨e, before, ⟨rfl, scalar⟩, integer⟩ := known
  exact declared e before scalar integer

theorem Declared.push {earlier : List Member} (declared : Declared earlier scope) {v : Value}
    (conform : ConformsDims Demands.none conforms m.type (m.extents scope) v) :
    Declared (earlier ++ [m]) (scope.push m v) := by
  intro e member scalar integer
  obtain before | own := List.mem_append.mp member
  · have there := declared e before scalar integer
    simp only [Scope.push]
    split
    any_goals exact there
    all_goals
      rw [List.lookup_cons]
      split
      next => rfl
      next => exact there
  · obtain rfl := List.mem_singleton.mp own
    rw [Member.extents, scalar, Member.extentsFrom, ConformsDims] at conform
    cases type : e.type with
    | string | user name => simp [type, Typename.isArrayDimType] at integer
    | prim p | bits p numbits signExtend =>
        rw [type] at conform
        cases v with
        | num n => simp [Scope.push, scalar, type]
        | str _ | struct _ | array _ => exact conform.elim

end Arrays

def structs (elements : List (List Value)) : List Storage := elements.map fun fields => .ofValue (.struct fields)

/-- An array with a loop variable n, of one byte in each of two rows. -/
def deep : Env := [⟨"deep", 0, [⟨.prim .int8_t, "m", List.replicate 13 (.const 1) ++ [.const 2, .const 1]⟩]⟩]

end Zcm.EmitC
