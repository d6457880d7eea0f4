import Zcm.Filter.Region
import Zcm.Introspection.Process
import Zcm.Lib.Except
import Zcm.Lib.Strtol

namespace Zcm.Filter
open Zcm.Lib
open Zcm.Introspection (FieldType)

section Accessors

structure FieldInfo where
  name : List Byte
  type : FieldType
  typestr : List Byte

structure TypeInfo (Data : Type) where
  fields : List FieldInfo
  /-- None if not all of the data is a message of this type. -/
  decode : List Byte → Option Data
  getField : Data → Nat → Option Data

/-- `getByName` -/
abbrev TypeDb (Data : Type) := List Byte → Option (TypeInfo Data)

structure FieldAccessor (Data : Type) where
  info : TypeInfo Data
  fIdx : Nat
  field : FieldInfo

variable {Double Data : Type}

def split (str : List Byte) (delimiter : Byte) : List (List Byte) :=
  if str = [] then [] else str.splitOn delimiter

def dotsToUnderscores (s : List Byte) : List Byte := s.map fun c => if c = charByte '.' then charByte '_' else c

namespace FieldAccessor

def make (types : TypeDb Data) (msgtype field : List Byte) : Option (FieldAccessor Data) := do
  let info ← types (dotsToUnderscores msgtype)
  let fIdx ← info.fields.findIdx? fun f => f.name = field
  let f ← info.fields[fIdx]?
  some ⟨info, fIdx, f⟩

def canBeBoolean (a : FieldAccessor Data) : Bool :=
  match a.field.type with
  | .prim .int8_t | .prim .int16_t | .prim .int32_t | .prim .int64_t | .prim .boolean => true
  | .prim .byte | .prim .float | .prim .double | .string | .userType => false

def canBeNumeric (a : FieldAccessor Data) : Bool :=
  match a.field.type with
  | .prim .int8_t | .prim .int16_t | .prim .int32_t | .prim .int64_t | .prim .float | .prim .double => true
  | .prim .byte | .prim .boolean | .string | .userType => false

end FieldAccessor

def accessorsFor (types : TypeDb Data) : List Byte → List (List Byte) → Option (List (FieldAccessor Data))
  | _, [] => some []
  | msgtype, field :: fields => do
      let a ← FieldAccessor.make types msgtype field
      let as ← accessorsFor types a.field.typestr fields
      some (a :: as)

def followAccessors : List (FieldAccessor Data) → Data → Option (FieldType × Data)
  | [], _ => none
  | [a], lastData => (a.info.getField lastData a.fIdx).map fun data => (a.field.type, data)
  | a :: as, lastData => (a.info.getField lastData a.fIdx).bind (followAccessors as)

def getField (accessors : List (FieldAccessor Data)) (data : List Byte) : Option (FieldType × Data) := do
  let front ← accessors.head?
  let buf ← front.info.decode data
  followAccessors accessors buf

end Accessors

section Trees

inductive ConditionSourceType
  | seconds | field
deriving DecidableEq

inductive Failed
  | returnsFalse
  | aborts
deriving DecidableEq

/-- A condition that is not compound. Its comparison is `compBool` with what goes with it, once it is
configured. -/
structure SimpleCondition (Double Data : Type) where
  type : Option ConditionSourceType := none
  channel : List Byte := []
  msgtype : List Byte := []
  msgfield : List Byte := []
  accessors : List (FieldAccessor Data) := []
  comparison : Option (Comparison Double) := none

variable {Double Data ε : Type}

namespace SimpleCondition

def isConfigured (c : SimpleCondition Double Data) : Bool := c.comparison.isSome

def setSeconds (c : SimpleCondition Double Data) : Except Failed (SimpleCondition Double Data) :=
  if c.type ≠ none then .error .returnsFalse else .ok { c with type := some .seconds }

def setField (types : TypeDb Data) (field : List Byte) (c : SimpleCondition Double Data) :
    Except Failed (SimpleCondition Double Data) :=
  if c.type ≠ none then .error .returnsFalse
  else match split field (charByte ':') with
    | [channel, msgtype, msgfield] =>
        match accessorsFor types msgtype (split msgfield (charByte '.')) with
        | none => .error .returnsFalse
        | some accessors => .ok ⟨some .field, channel, msgtype, msgfield, accessors, c.comparison⟩
    | _ => .error .returnsFalse

def setCompBool (inverted : Bool) (c : SimpleCondition Double Data) :
    Except Failed (SimpleCondition Double Data) :=
  match c.type with
  | none | some .seconds => .error .returnsFalse
  | some .field =>
      match c.accessors.getLast? with
      | none => .error .aborts
      | some a =>
          if !a.canBeBoolean then .error .returnsFalse else .ok { c with comparison := some (.bool inverted) }

def setCompNumber (number : Double) (lessThan : Bool) (c : SimpleCondition Double Data) :
    Except Failed (SimpleCondition Double Data) :=
  match c.type with
  | none => .error .returnsFalse
  | some .seconds => .ok { c with comparison := some (.number number lessThan) }
  | some .field =>
      match c.accessors.getLast? with
      | none => .error .aborts
      | some a =>
          if !a.canBeBoolean then .error .returnsFalse
          else .ok { c with comparison := some (.number number lessThan) }

def condition (read : FieldType → Data → FieldValue Double) (c : SimpleCondition Double Data) :
    Option (Condition Double) :=
  match c.type, c.comparison with
  | some .seconds, some (.number number lessThan) => some (.seconds number lessThan)
  | some .field, some comparison =>
      some (.field c.channel (fun data => (getField c.accessors data).map fun f => read f.1 f.2) comparison)
  | some .seconds, some (.bool _) | some .seconds, none | some .field, none | none, _ => none

end SimpleCondition

inductive ConditionPtr (Double Data : Type)
  | null
  | simple (c : SimpleCondition Double Data)
  | compound (_and : Bool) (cond1 cond2 : ConditionPtr Double Data)

namespace ConditionPtr

def isFullySpecified : ConditionPtr Double Data → Bool
  | null => false
  | simple c => c.isConfigured
  | compound _ cond1 cond2 => cond1.isFullySpecified && cond2.isFullySpecified

/-- `setSeconds`, `setField`, `setCompBool` and `setCompNumber`, with what each does to a condition that is
not compound. Where there is no condition, there is a new one. -/
def set (f : SimpleCondition Double Data → Except ε (SimpleCondition Double Data)) :
    ConditionPtr Double Data → Except ε (ConditionPtr Double Data)
  | null => (f {}).map simple
  | simple c => (f c).map simple
  | compound _and cond1 cond2 =>
      if !cond1.isFullySpecified then (cond1.set f).map fun cond1 => compound _and cond1 cond2
      else (cond2.set f).map (compound _and cond1)

def orCompound (_and : Bool) : ConditionPtr Double Data → ConditionPtr Double Data
  | null => compound _and null null
  | p => p

def setCompound (and' : Bool) : ConditionPtr Double Data → Bool × ConditionPtr Double Data
  | null => (false, null)
  | simple c => (false, simple c)
  | compound _and cond1 cond2 =>
      let cond1 := cond1.orCompound and'
      if !cond1.isFullySpecified then (false, compound _and cond1 cond2)
      else (false, compound _and cond1 (cond2.orCompound and'))

def addCompound (_and : Bool) : ConditionPtr Double Data → ConditionPtr Double Data
  | null => compound _and null null
  | p => (p.setCompound _and).2

def condition (read : FieldType → Data → FieldValue Double) : ConditionPtr Double Data → Option (Condition Double)
  | null => none
  | simple c => c.condition read
  | compound _and cond1 cond2 => do some (.compound _and (← cond1.condition read) (← cond2.condition read))

end ConditionPtr

end Trees

section Factory

variable {Double Data : Type}

structure RegionOptions (Double Data : Type) where
  beginPtr : ConditionPtr Double Data := .null
  endPtr : ConditionPtr Double Data := .null
  channels : List (List Byte → Bool) := []
  beginAdjustment : Int := 0
  endAdjustment : Int := 0

namespace RegionOptions

def specified : ConditionPtr Double Data → Bool
  | .null => true
  | p => p.isFullySpecified

def isFullySpecified (r : RegionOptions Double Data) : Bool := specified r.beginPtr && specified r.endPtr

def toRegion (read : FieldType → Data → FieldValue Double) (r : RegionOptions Double Data) : Region Double :=
  ⟨r.beginPtr.condition read, r.endPtr.condition read, r.channels, r.beginAdjustment, r.endAdjustment⟩

end RegionOptions

structure RegionsFactory (Double Data : Type) where
  specifyingEnd : Bool := true
  regions : List (RegionOptions Double Data) := []

namespace RegionsFactory

def addBegin (s : RegionsFactory Double Data) : Except Failed (RegionsFactory Double Data) :=
  match s.regions with
  | [] => .ok ⟨false, [{}]⟩
  | back :: rest => if !back.isFullySpecified then .error .returnsFalse else .ok ⟨false, {} :: back :: rest⟩

def addEnd (s : RegionsFactory Double Data) : Except Failed (RegionsFactory Double Data) :=
  match s.regions with
  | [] => .ok ⟨true, [{}]⟩
  | back :: rest =>
      if !back.isFullySpecified then .error .returnsFalse
      else match back.endPtr with
        | .null => .ok ⟨true, back :: rest⟩
        | p => if !p.isFullySpecified then .error .returnsFalse else .ok ⟨true, {} :: back :: rest⟩

def current (s : RegionsFactory Double Data) : Option (ConditionPtr Double Data) :=
  match s.regions with
  | [] => none
  | back :: _ => some (if !s.specifyingEnd then back.beginPtr else back.endPtr)

def updateBack (f : RegionOptions Double Data → Except Failed (RegionOptions Double Data))
    (s : RegionsFactory Double Data) : Except Failed (RegionsFactory Double Data) :=
  match s.regions with
  | [] => .error .returnsFalse
  | back :: rest => (f back).map fun back => ⟨s.specifyingEnd, back :: rest⟩

def updateCurrent (f : ConditionPtr Double Data → Except Failed (ConditionPtr Double Data))
    (s : RegionsFactory Double Data) : Except Failed (RegionsFactory Double Data) :=
  s.updateBack fun back =>
    if !s.specifyingEnd then (f back.beginPtr).map fun p => { back with beginPtr := p }
    else (f back.endPtr).map fun p => { back with endPtr := p }

def addCompound (_and : Bool) : RegionsFactory Double Data → Except Failed (RegionsFactory Double Data) :=
  updateCurrent fun p => .ok (p.addCompound _and)

def setConditionAsTime : RegionsFactory Double Data → Except Failed (RegionsFactory Double Data) :=
  updateCurrent fun p => p.set (·.setSeconds)

def setConditionAsField (types : TypeDb Data) (field : List Byte) :
    RegionsFactory Double Data → Except Failed (RegionsFactory Double Data) :=
  updateCurrent fun p => p.set (·.setField types field)

def setConditionCompBool (inverted : Bool) :
    RegionsFactory Double Data → Except Failed (RegionsFactory Double Data) :=
  updateCurrent fun p => p.set (·.setCompBool inverted)

def setConditionCompNumber (number : Double) (lessThan : Bool) :
    RegionsFactory Double Data → Except Failed (RegionsFactory Double Data) :=
  updateCurrent fun p => p.set (·.setCompNumber number lessThan)

def setChannels (regex : List Byte → Option (List Byte → Bool)) (channels : List Byte) :
    RegionsFactory Double Data → Except Failed (RegionsFactory Double Data) :=
  updateBack fun back => match (split channels (charByte ',')).mapM regex with
    | none => .error .aborts
    | some chans => .ok { back with channels := back.channels ++ chans }

def setBeginAdjustment (beginAdjustment : Int) :
    RegionsFactory Double Data → Except Failed (RegionsFactory Double Data) :=
  updateBack fun back => .ok { back with beginAdjustment }

def setEndAdjustment (endAdjustment : Int) :
    RegionsFactory Double Data → Except Failed (RegionsFactory Double Data) :=
  updateBack fun back => .ok { back with endAdjustment }

end RegionsFactory

end Factory

section Parse

inductive CommandOption
  | input (optarg : List Byte)
  | output (optarg : List Byte)
  | typePath (optarg : List Byte)
  | debug
  | verbose
  | beginRegion
  | endRegion
  | channels (optarg : List Byte)
  | adjustBegin (optarg : List Byte)
  | adjustEnd (optarg : List Byte)
  | compound (_and : Bool)
  | seconds
  | field (optarg : List Byte)
  | boolean (optarg : List Byte)
  | number (optarg : List Byte) (lessThan : Bool)
  | help

structure Library (Double Data : Type) where
  atof : List Byte → Double
  /-- The conversion of `1e6` times a number to `int64_t`. -/
  micros : Double → Int
  regex : List Byte → Option (List Byte → Bool)
  loadTypes : List Byte → Bool → TypeDb Data
  read : FieldType → Data → FieldValue Double

structure Args (Double Data : Type) where
  inlog : List Byte := []
  outlog : List Byte := []
  types : Option (TypeDb Data) := none
  debug : Bool := false
  verbose : Bool := false
  factory : RegionsFactory Double Data := {}

/-- `parse` returns false after a message or after the usage, or the program ends. -/
inductive ParseFailure
  | message (text : String)
  | usage
  | aborts

variable {Double Data α : Type}

def orMessage (text : String) : Except Failed α → Except ParseFailure α
  | .ok a => .ok a
  | .error .returnsFalse => .error (.message text)
  | .error .aborts => .error .aborts

def unlessMessage (b : Bool) (text : String) : Except ParseFailure Unit := if b then .ok () else .error (.message text)

def invert (optarg : List Byte) : Option Bool :=
  if optarg = text "inverted" then some true else if optarg = text "normal" then some false else none

variable (lib : Library Double Data)

def Args.build (a : Args Double Data) (text : String)
    (f : RegionsFactory Double Data → Except Failed (RegionsFactory Double Data)) :
    Except ParseFailure (Args Double Data) :=
  (orMessage text (f a.factory)).map fun factory => { a with factory }

def readOption (a : Args Double Data) : CommandOption → Except ParseFailure (Args Double Data)
  | .input optarg => .ok { a with inlog := optarg }
  | .output optarg => .ok { a with outlog := optarg }
  | .typePath optarg => .ok { a with types := some (lib.loadTypes optarg a.debug) }
  | .debug => .ok { a with debug := true }
  | .verbose => .ok { a with verbose := true }
  | .beginRegion => a.build "Improperly placed begin condition" (·.addBegin)
  | .endRegion => a.build "Improperly placed end condition" (·.addEnd)
  | .channels optarg => a.build "Improperly placed channels" (·.setChannels lib.regex optarg)
  | .adjustBegin optarg =>
      a.build "Improperly placed begin adjustment" (·.setBeginAdjustment (lib.micros (lib.atof optarg)))
  | .adjustEnd optarg => a.build "Improperly placed end adjustment" (·.setEndAdjustment (lib.micros (lib.atof optarg)))
  | .compound true => a.build "Improperly placed and condition" (·.addCompound true)
  | .compound false => a.build "Improperly placed or condition" (·.addCompound false)
  | .seconds => a.build "Improperly specified time condition" (·.setConditionAsTime)
  | .field optarg =>
      match a.types with
      | none => .error (.message "Must specify types.so before field conditions")
      | some types => a.build "Improperly specified field condition" (·.setConditionAsField types optarg)
  | .boolean optarg =>
      match invert optarg with
      | none => .error (.message "Invalid boolean specifier: ")
      | some inverted => a.build "Improperly specified bool comparison" (·.setConditionCompBool inverted)
  | .number optarg true =>
      a.build "Improperly specified less than comparison" (·.setConditionCompNumber (lib.atof optarg) true)
  | .number optarg false =>
      a.build "Improperly specified greater equal comparison" (·.setConditionCompNumber (lib.atof optarg) false)
  | .help => .error .usage

def readOptions (a : Args Double Data) (opts : List CommandOption) : Except ParseFailure (Args Double Data) :=
  opts.foldlM (readOption lib) a

def Args.isFullySpecified (a : Args Double Data) : Bool := a.factory.regions.all RegionOptions.isFullySpecified

def Args.check (a : Args Double Data) : Except ParseFailure (Args Double Data) := do
  unlessMessage (a.inlog ≠ []) "Please specify logfile input"
  unlessMessage (a.outlog ≠ []) "Please specify log file output"
  unlessMessage (!a.factory.regions.isEmpty) "Please specify at least one region"
  match a.factory.regions.reverse.findIdx? fun r => !r.isFullySpecified with
  | some i => .error (.message ("Region " ++ toString i ++ " is not fully specified"))
  | none => .ok a

def parse (opts : List CommandOption) : Except ParseFailure (Args Double Data) := do
  let a ← readOptions lib {} opts
  a.check

def Args.regions (a : Args Double Data) : List (Region Double) :=
  a.factory.regions.reverse.map (RegionOptions.toRegion lib.read)

end Parse

end Zcm.Filter
