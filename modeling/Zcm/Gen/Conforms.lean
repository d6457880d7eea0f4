import Zcm.Gen.Format

namespace Zcm.Gen
open Zcm.Lib

structure Demands where
  extent : Extent → Prop
  -- On the bits of a bitfield so far.
  run : Nat → Prop
  -- A length that is kept in a bitfield fits in it.
  lengths : Prop

def Demands.none : Demands := ⟨fun _ => True, fun _ => True, False⟩

section Reduce

variable (callee : String → List Value → List Value)

def reduceLeaf : Typename → Value → Value
  | .bits p numbits signExtend, .num n => .num (extendBits p numbits signExtend (n % 2 ^ numbits))
  | .user name, .struct fields => .struct (callee name fields)
  | _, v => v

def reduceMember (m : Member) (v : Value) : Value := mapLeaves (reduceLeaf callee m.type) m.dimensions.length v

def reduceFields : List Member → List Value → List Value
  | m :: ms, v :: vs => reduceMember callee m v :: reduceFields ms vs
  | _, _ => []

end Reduce

def reduce (Γ : Env) : Nat → String → List Value → List Value
  | 0, _, _ => []
  | depth + 1, name, fields =>
      match Γ.lookup name with
      | none => []
      | some s => reduceFields (reduce Γ depth) s.members fields

def runAfter (run : Nat) (m : Member) (v : Value) : Nat :=
  match m.type with
  | .bits _ numbits _ => run + (leaves m.dimensions.length v).length * numbits
  | _ => 0

section Conforms

variable (demands : Demands) (callee : String → List Value → Prop)

def ConformsLeaf : Typename → Value → Prop
  | .prim p, .num n => n < 2 ^ (8 * p.size)
  | .bits p _ _, .num n => n < 2 ^ (8 * p.size)
  | .string, .str block => ∃ chars, 0 ∉ chars ∧ block = chars ++ [0]
  | .user name, .struct fields => callee name fields
  | _, _ => False

def ConformsDims (t : Typename) : List Extent → Value → Prop
  | [], v => ConformsLeaf callee t v
  | e :: es, .array items =>
      demands.extent e ∧ (items.length : Int) = e.count ∧ ∀ v ∈ items, ConformsDims t es v
  | _ :: _, _ => False

def IsLength (m : Member) (ms : List Member) : Prop :=
  m.dimensions = [] ∧ ∃ m' ∈ ms, .var m.membername ∈ m'.dimensions

def ConformsFields : Scope → Nat → List Member → List Value → Prop
  | _, _, [], [] => True
  | scope, run, m :: ms, v :: vs =>
      ConformsDims demands callee m.type (m.extents scope) v ∧ demands.run (runAfter run m v) ∧
        (demands.lengths → IsLength m ms → reduceLeaf (fun _ fields => fields) m.type v = v) ∧
        ConformsFields (scope.push m v) (runAfter run m v) ms vs
  | _, _, _, _ => False

end Conforms

/-- The fields of a message of type `name` whose members nest at most `depth` deep. -/
def Conforms (Γ : Env) (demands : Demands) : Nat → String → List Value → Prop
  | 0, _, _ => False
  | depth + 1, name, fields =>
      ∃ s, Γ.lookup name = some s ∧ ConformsFields demands (Conforms Γ demands depth) [] 0 s.members fields

end Zcm.Gen
