import Zcm.Lib.Bytes

namespace Zcm.SpyLite
open Zcm.Lib

abbrev Text := List Byte

abbrev Addr := Nat

inductive FieldType
  | int8_t | int16_t | int32_t | int64_t | byte | float | double | string | boolean | userType
deriving DecidableEq

structure Field where
  name : Text
  type : FieldType
  typestr : Text
  numDim : Int
  dimSize : Int
  dimIsVariable : Bool
  data : Addr

structure TypeInfo where
  structSize : Nat
  numFields : Nat
  getField : Addr → Nat → Field

structure TypeMetadata where
  name : Text
  info : TypeInfo

structure TypeDb where
  getByHash : BitVec 64 → Option TypeMetadata
  getByName : Text → Option TypeMetadata

/-- What is read from memory, and the message that a type makes of encoded bytes, unless its decoder fails. -/
structure Memory where
  pointerAt : Addr → Addr
  int64At : Addr → BitVec 64
  decode : TypeMetadata → Addr → Int → Option Addr

def maxArrayDisplay : Nat := 100

def dotsToUnderscores (s : Text) : Text := s.map fun c => if c = 46 then 95 else c

section Program

variable (db : TypeDb) (mem : Memory)

def Field.elements (field : Field) : Addr :=
  if field.dimIsVariable then mem.pointerAt field.data else field.data

def tryByteArrayToZcmtype (field : Field) : Option Field :=
  if field.numDim ≠ 1 ∨ field.type ≠ .byte ∨ field.dimSize < 8 then some field
  else
    match db.getByHash (mem.int64At (field.elements mem)) with
    | none => some field
    | some t => (mem.decode t (mem.pointerAt field.data) field.dimSize).map fun msg =>
        { field with
          data := msg
          type := .userType
          typestr := t.name
          numDim := 0
          dimSize := 0
          dimIsVariable := false }

def passes (prefixFilter : Text) (field : Field) : Bool := prefixFilter.isPrefixOf field.name

def typeOf (field : Field) : Option TypeMetadata := db.getByName (dotsToUnderscores field.typestr)

section Printing

inductive Cell
  | value
  | number (n : Nat)
  | unknownUserType
  | more
  | multiDim
deriving DecidableEq

def printValueScalar (field : Field) (usertypeCount : Nat) : Cell × Nat :=
  if field.type ≠ .userType then (.value, usertypeCount)
  else if (typeOf db field).isSome then (.number (usertypeCount + 1), usertypeCount + 1)
  else (.unknownUserType, usertypeCount)

def printElements (field : Field) : Nat → Nat → Nat → List Cell × Nat
  | 0, _, usertypeCount => ([], usertypeCount)
  | n + 1, i, usertypeCount =>
      if i = maxArrayDisplay then ([.more], usertypeCount)
      else
        let (cell, usertypeCount) := printValueScalar db field usertypeCount
        let (cells, usertypeCount) := printElements field n (i + 1) usertypeCount
        (cell :: cells, usertypeCount)

def printValueArray (field : Field) (usertypeCount : Nat) : List Cell × Nat :=
  if field.numDim = 1 then printElements db field field.dimSize.toNat 0 usertypeCount
  else ([.multiDim], usertypeCount)

def printField (field : Field) (usertypeCount : Nat) : List Cell × Nat :=
  if field.numDim = 0 then
    let (cell, usertypeCount) := printValueScalar db field usertypeCount
    ([cell], usertypeCount)
  else printValueArray db field usertypeCount

def printFields (info : TypeInfo) (msg : Addr) (activePrefixFilter : Text) :
    List Nat → Nat → Option (List (Nat × List Cell))
  | [], _ => some []
  | i :: is, usertypeCount => do
      let field ← tryByteArrayToZcmtype db mem (info.getField msg i)
      if passes activePrefixFilter field then
        let (cells, usertypeCount) := printField db field usertypeCount
        let rows ← printFields info msg activePrefixFilter is usertypeCount
        return (i, cells) :: rows
      else printFields info msg activePrefixFilter is usertypeCount

end Printing

section Traversal

structure Cursor where
  j : Nat
  field : Option Field
  userFieldCount : Nat
  insideArray : Bool
  index : Nat

def scanElements (recurI : Nat) : Nat → Nat → Nat → Bool × Nat × Nat
  | 0, index, userFieldCount => (false, index, userFieldCount)
  | n + 1, index, userFieldCount =>
      if userFieldCount + 1 = recurI then (true, index, userFieldCount + 1)
      else scanElements recurI n (index + 1) (userFieldCount + 1)

def scanFields (info : TypeInfo) (msg : Addr) (recurI : Nat) (prefixFilter : Text) :
    List Nat → Cursor → Option Cursor
  | [], c => some c
  | j :: js, c => do
      let field ← tryByteArrayToZcmtype db mem (info.getField msg j)
      let c := { c with j := j, field := some field }
      if !passes prefixFilter field then scanFields info msg recurI prefixFilter js c
      else
        let c := { c with insideArray := false }
        if field.type ≠ .userType then scanFields info msg recurI prefixFilter js c
        else if field.numDim = 0 then
          let c := { c with userFieldCount := c.userFieldCount + 1 }
          if c.userFieldCount = recurI then return c else scanFields info msg recurI prefixFilter js c
        else if field.numDim = 1 then
          let (found, index, userFieldCount) := scanElements recurI field.dimSize.toNat 0 c.userFieldCount
          let c := { c with userFieldCount := userFieldCount, insideArray := true, index := index }
          if found then return c else scanFields info msg recurI prefixFilter js c
        else scanFields info msg recurI prefixFilter js c

structure Step where
  j : Nat
  name : Text
  index : Option Nat
deriving DecidableEq

structure View where
  traversal : List Step
  metadata : TypeMetadata
  msg : Addr

inductive Failure
  | unknownType (typestr : Text)
  | noSubMessage

def View.enter (view : View) (j : Nat) (field : Field) (metadata : TypeMetadata) (index : Option Nat) : View where
  traversal := view.traversal ++ [⟨j, field.name, index⟩]
  metadata := metadata
  msg := match index with
    | none => field.data
    | some index => field.elements mem + metadata.info.structSize * index

def descend (view : View) (recurI : Nat) (prefixFilter : Text) : Option (Except Failure View) := do
  let c ← scanFields db mem view.metadata.info view.msg recurI prefixFilter
    (List.range view.metadata.info.numFields) ⟨0, none, 0, false, 0⟩
  if c.userFieldCount ≠ recurI then return .error .noSubMessage
  let field ← c.field -- without fields the variable is not initialised
  match typeOf db field with
  | none => return .error (.unknownType field.typestr)
  | some metadata => return .ok (view.enter mem c.j field metadata (if c.insideArray then some c.index else none))

def resolve (view : View) : List (Nat × Text) → Option (Except Failure View)
  | [] => some (.ok view)
  | (recurI, prefixFilter) :: recurTable =>
      match descend db mem view recurI prefixFilter with
      | none => none
      | some (.error failure) => some (.error failure)
      | some (.ok view) => resolve view recurTable

end Traversal

def msgDisplay (metadata : TypeMetadata) (msg : Addr) (recurTable : List (Nat × Text)) (activePrefixFilter : Text) :
    Option (Except Failure (View × List (Nat × List Cell))) :=
  match resolve db mem ⟨[], metadata, msg⟩ recurTable with
  | none => none
  | some (.error failure) => some (.error failure)
  | some (.ok view) =>
      (printFields db mem view.metadata.info view.msg activePrefixFilter
        (List.range view.metadata.info.numFields) 0).map fun rows => .ok (view, rows)

end Program

end Zcm.SpyLite
