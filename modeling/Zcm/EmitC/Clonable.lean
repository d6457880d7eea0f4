import Zcm.Cpp.Decode
import Zcm.EmitC.Clone
import Zcm.Gen.ComputeHash
import Zcm.Gen.Conforms

namespace Zcm.EmitC
open Zcm.Lib Zcm.Gen Zcm.Coretypes
open Zcm.Cpp (items)

section Accepted

def acceptsDimension (earlier : List Member) : Dimension → Bool
  | .const _ => true
  | .var name => earlier.any fun m => m.membername = name && m.dimensions.isEmpty && m.type.isArrayDimType

def acceptsMember (earlier : List Member) (m : Member) : Bool :=
  earlier.all (·.membername ≠ m.membername) && m.type.accepted && m.dimensions.all (acceptsDimension earlier)

def acceptsMembers : List Member → List Member → Bool
  | _, [] => true
  | earlier, m :: ms => acceptsMember earlier m && acceptsMembers (earlier ++ [m]) ms

def Accepted (Γ : Env) : Prop := ∀ s ∈ Γ, acceptsMembers [] s.members = true

instance (Γ : Env) : Decidable (Accepted Γ) :=
  inferInstanceAs (Decidable (∀ s ∈ Γ, acceptsMembers [] s.members = true))

end Accepted

section Bytes

variable (callee : String → List Value → Nat)

def leafBytes : Typename → Value → Nat
  | .prim p, _ | .bits p _ _, _ => p.size
  | .string, .str block => block.length
  | .user name, .struct fields => callee name fields
  | _, _ => 0

def rowBytes (t : Typename) (row : List Value) : Nat := u32 (row.map (leafBytes callee t)).sum

def bytesBelow (t : Typename) : Nat → Value → Nat
  | 0, row => rowBytes callee t (items row)
  | loops + 1, v => ((items v).map (bytesBelow t loops)).sum

end Bytes

section Clonable

variable (abi : Abi) (bytes : String → List Value → Nat) (callee : String → List Value → Prop)

def OnlyLast (t : Typename) : Nat → Value → Prop
  | 0, _ => True
  | loops + 1, v => (∀ x ∈ (items v).dropLast, bytesBelow bytes t loops x = 0) ∧
      ∀ x ∈ items v, OnlyLast t loops x

def Undisturbed (m : Member) (v : Value) : Prop :=
  ∀ w ∈ leaves 13 v, OnlyLast bytes m.type (m.dimensions.length - 14) w ∧
    bytesBelow bytes m.type (m.dimensions.length - 14) w + (items w).length < 2 ^ 31

end Clonable

end Zcm.EmitC
