import Zcm.Gen.Schema

/-!
# The hash of one declaration

What the parser keeps of a struct's members, and how `computeHash` feeds it to the hash. The hash is a
parameter, so that its updates can also stand for themselves.
-/

namespace Zcm.Gen
open Zcm.Lib

inductive ZCMDimensionMode
  | ZCM_CONST
  | ZCM_VAR
deriving DecidableEq

structure ZCMDimension where
  mode : ZCMDimensionMode
  size : String
deriving DecidableEq

structure ZCMMember where
  type : Typename
  membername : String
  dimensions : List ZCMDimension
deriving DecidableEq

structure ZCMStruct where
  fullname : String
  shortname : String
  members : List ZCMMember
deriving DecidableEq

def isLegalMemberName (t : String) : Bool :=
  match t.toList with
  | c :: _ => c.isAlpha || c = '_'
  | [] => false

def isConstantSize (t : String) : Bool :=
  match t.toList with
  | c :: _ => c.isDigit || c = '-'
  | [] => false

def Typename.isArrayDimType : Typename → Bool
  | .prim p | .bits p _ _ => p.isArrayDimType
  | _ => false

def Typename.accepted : Typename → Bool
  | .bits p numbits signExtend =>
      p.isFixedPoint && 0 < numbits && numbits ≤ 8 * p.size && (p ≠ .byte || !signExtend) &&
        (p = .byte || numbits ≠ 8 * p.size || signExtend)
  | _ => true

def ZCMDimension.accepted (earlier : List ZCMMember) (dim : ZCMDimension) : Bool :=
  match dim.mode with
  | .ZCM_CONST => isConstantSize dim.size
  | .ZCM_VAR => isLegalMemberName dim.size &&
      earlier.any fun m => m.membername = dim.size && m.dimensions.isEmpty && m.type.isArrayDimType

def ZCMMember.accepted (earlier : List ZCMMember) (m : ZCMMember) : Bool :=
  isLegalMemberName m.membername && earlier.all (·.membername ≠ m.membername) && m.type.accepted &&
    m.dimensions.all (·.accepted earlier)

def acceptedAfter : List ZCMMember → List ZCMMember → Bool
  | _, [] => true
  | earlier, m :: ms => m.accepted earlier && acceptedAfter (earlier ++ [m]) ms

def ZCMStruct.accepted (zs : ZCMStruct) : Bool := acceptedAfter [] zs.members

def Prim.fullname : Prim → String
  | byte => "byte"
  | boolean => "boolean"
  | int8_t => "int8_t"
  | int16_t => "int16_t"
  | int32_t => "int32_t"
  | int64_t => "int64_t"
  | float => "float"
  | double => "double"

structure HashOptions where
  enableTypenameHashing : Bool
  enableMembernameHashing : Bool

def defaultOptions : HashOptions := ⟨true, false⟩

structure Hashing (α : Type) where
  seed : α
  updateChar : α → BitVec 8 → α
  updateString : α → String → α

namespace Hashing
variable {α : Type} (h : Hashing α)

def updateNat (v : α) (n : Nat) : α := h.updateChar v (BitVec.ofNat 8 n)

def mode : ZCMDimensionMode → Nat
  | .ZCM_CONST => 0
  | .ZCM_VAR => 1

def dimension (v : α) (dim : ZCMDimension) : α := h.updateString (h.updateNat v (mode dim.mode)) dim.size

def type (v : α) : Typename → α
  | .prim p => h.updateString v p.fullname
  | .bits p numbits _ =>
      let v := h.updateString v p.fullname
      if numbits ≠ 0 then h.updateNat v numbits else v
  | .string => h.updateString v "string"
  | .user _ => v

def member (options : HashOptions) (v : α) (m : ZCMMember) : α :=
  let v := if options.enableMembernameHashing then h.updateString v m.membername else v
  let v := h.type v m.type
  let v := h.updateNat v m.dimensions.length
  m.dimensions.foldl h.dimension v

end Hashing

def ZCMStruct.computeHash {α : Type} (options : HashOptions) (h : Hashing α) (zs : ZCMStruct) : α :=
  let v := if options.enableTypenameHashing then h.updateString h.seed zs.shortname else h.seed
  zs.members.foldl (h.member options) v

def signExtendedRightShift (val : BitVec 64) (nShift : Nat) : BitVec 64 :=
  if val >>> 63 = 0 then val >>> nShift
  else (val >>> nShift) ||| (~~~((1#32 <<< (64 - nShift)) - 1)).signExtend 64

def hashUpdate (v : BitVec 64) (c : BitVec 8) : BitVec 64 :=
  ((v <<< 8) ^^^ signExtendedRightShift v 55) + c.signExtend 64

def hashUpdateString (v : BitVec 64) (s : String) : BitVec 64 :=
  let chars := (s.toList.flatMap String.utf8EncodeChar).map (·.toBitVec)
  chars.foldl hashUpdate (hashUpdate v (BitVec.ofNat 8 chars.length))

def zcmHashing : Hashing (BitVec 64) where
  seed := 0x12345678
  updateChar := hashUpdate
  updateString := hashUpdateString

/-- The dimension as the emitted code has it; `literal` reads an integer as the target language does. -/
def ZCMDimension.emitted (literal : String → Int) (dim : ZCMDimension) : Dimension :=
  match dim.mode with
  | .ZCM_CONST => .const (literal dim.size)
  | .ZCM_VAR => .var dim.size

def ZCMMember.emitted (literal : String → Int) (m : ZCMMember) : Member :=
  ⟨m.type, m.membername, m.dimensions.map (·.emitted literal)⟩

def ZCMStruct.emitted (options : HashOptions) (literal : String → Int) (zs : ZCMStruct) : Struct :=
  ⟨zs.fullname, zs.computeHash options zcmHashing, zs.members.map (·.emitted literal)⟩

end Zcm.Gen
