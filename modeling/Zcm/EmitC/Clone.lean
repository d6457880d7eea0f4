import Zcm.Coretypes.Encode
import Zcm.EmitC.Storage

/-!
# The emitted C clone

`__T_clone_array` as it is emitted for a struct, on the storage of the struct that is copied and of the copy. The
loops of an array run over the variables a, b, and so on, so that the fourteenth is called n, as is the count of the
bytes that the function returns.
-/

namespace Zcm.EmitC
open Zcm.Lib Zcm.Gen Zcm.Coretypes

structure Abi where
  pointerSize : Nat
  structSize : String → Nat

section Sizes

/-- The members that a dimension can name, with what was written to them. -/
def push (scope : Scope) (m : Member) (x : Storage) : Scope :=
  match m.dimensions, m.type, x with
  | [], .prim p, .num n => (m.membername, p.toInt n) :: scope
  | [], .bits p _ _, .num n => (m.membername, p.toInt n) :: scope
  | _, _, _ => scope

def arraySize (scope : Scope) : Dimension → Except Fault Int
  | .const size => .ok size
  | .var name =>
      match scope.lookup name with
      | some size => .ok size
      | none => .error .indeterminate

def blankDims : List Dimension → Storage
  | [] => .garbage
  | .const size :: ds => .array (List.replicate size.toNat (blankDims ds))
  | .var _ :: _ => .garbage

/-- A member of a struct that nothing was written to. An array of constant size is in the struct, any other array is
behind a pointer. -/
def blank (m : Member) : Storage := if m.isConstantSizeArray then blankDims m.dimensions else .garbage

def fieldsOf (s : Struct) : Storage → List Storage
  | .struct fields => fields
  | .garbage | .num _ | .str _ | .array _ => s.members.map blank

/-- The variables of the loops get as far as o. After that comes p, and `p[element]` is no struct any more. -/
def compiles (s : Struct) : Bool := s.members.all fun m => m.dimensions.length ≤ 16

def elementSize (abi : Abi) (t : Typename) (inner : List Dimension) : Nat :=
  if inner ≠ [] then abi.pointerSize
  else match t with
    | .prim p | .bits p _ _ => p.size
    | .string => abi.pointerSize
    | .user name => abi.structSize name

def allocated (size : Nat) (count : Int) : Nat :=
  if size = 0 then count.toNat else (size * count % 2 ^ 32).toNat / size

end Sizes

section Rows

variable (callee : String → Storage → Storage → Except Fault (Nat × Storage))

end Rows

/-- The count n of the function, the variables of the loops, the innermost first, and the member in the copy. -/
structure State where
  n : Nat
  vars : List Int
  q : Storage

namespace State

def path (st : State) : List Int := st.vars.reverse

def addCount (m : Member) (k : Nat) (st : State) : State :=
  if 14 < m.dimensions.length then
    { st with vars := st.vars.modify (st.vars.length - 14) fun n => asInt ((n + k) % 2 ^ 32).toNat }
  else { st with n := u32 (st.n + k) }

end State

section Members

variable (abi : Abi) (rounds : Nat) (callee : String → Storage → Storage → Except Fault (Nat × Storage))

section Arrays

variable (m : Member) (scope copied : Scope) (p : Storage)

end Arrays

end Members

end Zcm.EmitC
