import Zcm.Gen.ComputeHash

/-!
# Introspection

`processType` walks over a message in memory with the descriptions of its fields that the emitted C code
gives, and calls back for every scalar. The memory is what the emitted structs and their arrays lie in.
-/

namespace Zcm.Introspection
open Zcm.Lib Zcm.Gen

abbrev Address := Nat

/-- What is read from memory: the pointer and, as a value of each type, the number at an address. -/
structure Memory where
  pointer : Address → Address
  number : Prim → Address → Int

structure Abi where
  pointerSize : Nat
  structSize : Struct → Nat
  offset : Struct → Nat → Nat

inductive FieldType
  | prim (p : Prim)
  | string
  | userType
deriving DecidableEq

structure Dim where
  size : Int
  isVariable : Bool
deriving DecidableEq

structure Field where
  name : String
  type : FieldType
  typestr : String
  dims : List Dim
  data : Address

structure Call (N : Type) where
  name : N
  type : FieldType
  data : Address
deriving DecidableEq

section Describe

def typeFieldMaxDim : Nat := 50

def shortname (fullname : String) : String :=
  String.ofList (fullname.toList.reverse.takeWhile (· ≠ '.')).reverse

def primitives : List Prim := [.byte, .boolean, .int8_t, .int16_t, .int32_t, .int64_t, .float, .double]

def fieldType : Typename → FieldType
  | .prim p | .bits p _ _ => .prim p
  | .string => .string
  | .user fullname =>
      match primitives.find? (·.fullname = shortname fullname) with
      | some p => .prim p
      | none => if shortname fullname = "string" then .string else .userType

def typestr : Typename → String
  | .prim p => p.fullname
  | .bits p numbits _ => p.fullname ++ ":" ++ toString numbits
  | .string => "string"
  | .user fullname => fullname

def Typename.number? : Typename → Option Prim
  | .prim p | .bits p _ _ => some p
  | .string | .user _ => none

def readSize (abi : Abi) (mem : Memory) (s : Struct) (p : Address) (name : String) : Int :=
  match s.members.findIdx? (·.membername = name) with
  | none => 0
  | some i =>
      match s.members[i]?.bind fun m => Typename.number? m.type with
      | none => 0
      | some prim => mem.number prim (p + abi.offset s i)

def size (abi : Abi) (mem : Memory) (s : Struct) (p : Address) : Dimension → Int
  | .const n => n
  | .var name => readSize abi mem s p name

def asInt32 (n : Int) : Int := Int.bmod n (2 ^ 32)

/-- `_get_field` for a member. More dimensions than the arrays in the field have room for are written
behind them, and nothing is said about what happens then. -/
def getField (abi : Abi) (mem : Memory) (s : Struct) (p : Address) (m : Member) (i : Nat) : Option Field :=
  if m.dimensions.length > typeFieldMaxDim then none
  else some
    { name := m.membername
      type := fieldType m.type
      typestr := typestr m.type
      dims := m.dimensions.map fun d => ⟨asInt32 (size abi mem s p d), d.isVar⟩
      data := p + abi.offset s i }

end Describe

/-- The return value and the calls, in order. Where there is none, the fuel has run out or nothing is said
about what happens. -/
abbrev Outcome (N : Type) := Bool × List (Call N)

def each {N α : Type} (visit : α → Option (Outcome N)) : List α → Option (Outcome N)
  | [] => some (true, [])
  | x :: xs => do
      let (ok, calls) ← visit x
      let (oks, later) ← each visit xs
      some (ok && oks, calls ++ later)

def dotsToUnderscores (name : String) : String :=
  String.ofList (name.toList.map fun c => if c = '.' then '_' else c)

section Program

variable (abi : Abi) (mem : Memory) (typeDb : String → Option Struct)

section Walk

-- `append name component` is the name, the separator and the component.
variable {N : Type} (append : N → String → N) (encoded : N → Address → Int → Outcome N)
  (callee : N → Struct → Address → Option (Outcome N))

def processScalar (name : N) (type : FieldType) (typestr : String) (data : Address) : Option (Outcome N) :=
  match type with
  | .prim _ | .string => some (true, [⟨name, type, data⟩])
  | .userType =>
      match typeDb (dotsToUnderscores typestr) with
      | none => some (false, [])
      | some s => callee name s data

def processElement (name : N) (type : FieldType) (typestr : String) (data : Address) (i : Nat) : Option (Outcome N) :=
  match type with
  | .prim .byte => some (true, [])
  | .prim p => processScalar typeDb callee name type typestr (data + i * p.size)
  | .string => processScalar typeDb callee name type typestr (data + i * abi.pointerSize)
  | .userType =>
      match typeDb (dotsToUnderscores typestr) with
      | none => some (false, [])
      | some s => callee name s (data + i * abi.structSize s)

def processArray (type : FieldType) (typestr : String) : List Dim → N → Address → Option (Outcome N)
  | [], _, _ => none -- the assertion
  | dim :: dims, name, data =>
      let walk := each (fun i =>
        let nextName := append name (toString i)
        if dims = [] then processElement abi typeDb callee nextName type typestr data i
        else processArray type typestr dims nextName (if dim.isVariable then mem.pointer data else data))
        (List.range dim.size.toNat)
      if type = .prim .byte ∧ dims = [] then
        match encoded name data dim.size with
        | (true, calls) => some (true, calls)
        | (false, calls) => walk.map fun (ok, later) => (ok, calls ++ later)
      else walk

def processField (name : N) (f : Field) : Option (Outcome N) :=
  let nextName := append name f.name
  match f.dims with
  | [] => processScalar typeDb callee nextName f.type f.typestr f.data
  | dim :: dims =>
      processArray abi mem typeDb append encoded callee f.type f.typestr (dim :: dims) nextName
        (if dim.isVariable then mem.pointer f.data else f.data)

end Walk

variable {N : Type} (append : N → String → N) (encoded : N → Address → Int → Outcome N)

def processType : Nat → N → Struct → Address → Option (Outcome N)
  | 0, _, _, _ => none
  | fuel + 1, name, s, data =>
      each (fun (m, i) => do
        let f ← getField abi mem s data m i
        processField abi mem typeDb append encoded (processType fuel) name f) s.members.zipIdx

end Program

def appendName (separator : String) (name component : String) : String := name ++ separator ++ component

end Zcm.Introspection
