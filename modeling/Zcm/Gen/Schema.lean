import Zcm.Lib.Bits

namespace Zcm.Gen
open Zcm.Lib

inductive Prim
  | byte | boolean | int8_t | int16_t | int32_t | int64_t | float | double
deriving DecidableEq

namespace Prim

def size : Prim → Nat
  | byte | boolean | int8_t => 1
  | int16_t => 2
  | int32_t | float => 4
  | int64_t | double => 8

def isFixedPoint : Prim → Bool
  | byte | int8_t | int16_t | int32_t | int64_t => true
  | _ => false

def isArrayDimType : Prim → Bool
  | int8_t | int16_t | int32_t | int64_t => true
  | _ => false

def toInt (p : Prim) (n : Nat) : Int := Int.bmod n (2 ^ (8 * p.size))

theorem size_pos (p : Prim) : 0 < p.size := by
  cases p <;> decide

theorem size_le (p : Prim) : p.size ≤ 8 := by
  cases p <;> decide

end Prim

inductive Typename
  | prim (p : Prim)
  | bits (p : Prim) (numbits : Nat) (signExtend : Bool)
  | string
  | user (fullname : String)
deriving DecidableEq

def Typename.isBits : Typename → Bool
  | bits .. => true
  | _ => false

inductive Dimension
  | const (size : Int)
  | var (name : String)
deriving DecidableEq

def Dimension.isVar : Dimension → Bool
  | const _ => false
  | var _ => true

structure Member where
  type : Typename
  membername : String
  dimensions : List Dimension
deriving DecidableEq

def Member.isConstantSizeArray (m : Member) : Bool := m.dimensions.all (!·.isVar)

structure Struct where
  structname : String
  hash : BitVec 64
  members : List Member

abbrev Env := List Struct

namespace Env

def lookup (Γ : Env) (name : String) : Option Struct := Γ.find? (·.structname = name)

end Env

/-- A number is the bit pattern of its type; a string is its storage with the terminator. -/
inductive Value
  | num (n : Nat)
  | str (block : List Byte)
  | struct (fields : List Value)
  | array (items : List Value)

abbrev Scope := List (String × Int)

namespace Scope

def push (scope : Scope) (m : Member) (v : Value) : Scope :=
  match m.dimensions, m.type, v with
  | [], .prim p, .num n => (m.membername, p.toInt n) :: scope
  | [], .bits p _ _, .num n => (m.membername, p.toInt n) :: scope
  | _, _, _ => scope

def dimSize (scope : Scope) : Dimension → Int
  | .const size => size
  | .var name => (List.lookup name scope).getD 0

end Scope

structure Extent where
  type : Typename
  innermost : Bool
  -- The member has a variable dimension, so C keeps it in allocated blocks.
  allocated : Bool
  isVar : Bool
  count : Int

def Member.extentsFrom (m : Member) (scope : Scope) : List Dimension → List Extent
  | [] => []
  | d :: ds => ⟨m.type, ds.isEmpty, !m.isConstantSizeArray, d.isVar, scope.dimSize d⟩ :: extentsFrom m scope ds

def Member.extents (m : Member) (scope : Scope) : List Extent := m.extentsFrom scope m.dimensions

def leaves : Nat → Value → List Value
  | 0, v => [v]
  | k + 1, .array items => items.flatMap (leaves k)
  | _ + 1, _ => []

def mapLeaves (f : Value → Value) : Nat → Value → Value
  | 0, v => f v
  | k + 1, .array items => .array (items.map (mapLeaves f k))
  | _ + 1, v => v

end Zcm.Gen
