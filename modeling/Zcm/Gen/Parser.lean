import Zcm.Coretypes.Bitfields
import Zcm.Gen.ComputeHash
import Zcm.Gen.Tokenize
import Zcm.Lib.Strtol

/-!
# The parser of `zcm-gen`

It reads what the tokenizer returns, call after call. Comments are skipped and not attached to what they precede. A
message stands as its format. Every loop has a bound on its rounds.
-/

namespace Zcm.Gen.Parse
open Zcm.Lib Zcm.Coretypes Tokenize

abbrev Text := List Byte

inductive Error
  | parse (format : String)
  | semantic (format : String)
  | duplicate
  | rounds
deriving DecidableEq

structure Token where
  type : TokenType
  text : Text
deriving DecidableEq

/-- The tokenizer as the parser sees it: what its next calls leave in `token`, or the end of the file, after which it
can still be called. -/
structure Input where
  stream : List (Option Token)
  -- `errno` is ERANGE.
  erange : Bool
deriving DecidableEq

def tokenizePeek (p : Input) : Option Token × Input :=
  match p.stream with
  | [] => (none, p)
  | none :: s => (none, { p with stream := s })
  | some token :: _ => (some token, p)

def tokenizeNext (p : Input) : Option Token × Input :=
  match p.stream with
  | [] => (none, p)
  | token :: s => (token, { p with stream := s })

def skipComments : List (Option Token) → List (Option Token)
  | some token :: s => if token.type = .ZCM_TOK_COMMENT then skipComments s else some token :: s
  | none :: s => s
  | [] => []

def parseTryConsumeComment (p : Input) : Input := { p with stream := skipComments p.stream }

def require (holds : Bool) (e : Error) : Except Error Unit := if holds then .ok () else .error e

def parseTryConsume (tok : Text) (p : Input) : Except Error (Bool × Input) :=
  let p := parseTryConsumeComment p
  match tokenizePeek p with
  | (none, _) => .error (.parse "End of file while looking for %s.")
  | (some token, p) =>
      if token.type ≠ .ZCM_TOK_COMMENT ∧ token.text = tok then .ok (true, (tokenizeNext p).2) else .ok (false, p)

def nextNoComment : List (Option Token) → Option Token × List (Option Token)
  | some token :: s => if token.type = .ZCM_TOK_COMMENT then nextNoComment s else (some token, s)
  | none :: s => (none, s)
  | [] => (none, [])

def parseRequire (tok : Text) (p : Input) : Except Error Input :=
  let p := parseTryConsumeComment p
  match nextNoComment p.stream with
  | (none, _) => .error (.parse "expected token %s")
  | (some token, s) =>
      if token.text = tok then .ok { p with stream := s } else .error (.parse "expected token %s")

def tokenizeNextOrFail (p : Input) : Except Error (Text × Input) :=
  match tokenizeNext p with
  | (none, _) => .error (.parse "End of file reached, expected %s.")
  | (some token, p) => .ok (token.text, p)

def primitiveTypes : List Text :=
  ["int8_t", "int16_t", "int32_t", "int64_t", "byte", "float", "double", "string", "boolean"].map text

def arrayDimTypes : List Text := ["int8_t", "int16_t", "int32_t", "int64_t"].map text

def constTypes : List Text :=
  ["byte", "int8_t", "int16_t", "int32_t", "int64_t", "float", "double", "string"].map text

def fixedPointTypes : List (Text × BitsType) :=
  [(text "byte", .byte), (text "int8_t", .int8_t), (text "int16_t", .int16_t), (text "int32_t", .int32_t),
    (text "int64_t", .int64_t)]

def fixedPointType (t : Text) : Option BitsType := fixedPointTypes.lookup t

def isArrayDimType (t : Text) : Bool := t ∈ arrayDimTypes

def isalpha (b : Byte) : Bool := 65 ≤ b.toNat && b.toNat ≤ 90 || 97 ≤ b.toNat && b.toNat ≤ 122

def isLegalMemberName (t : Text) : Bool := t.head?.any fun b => isalpha b || b = charByte '_'

def isLegalTypeName (t : Text) : Bool := isLegalMemberName t || t.head? = some (charByte '.')

structure ZCMTypename where
  fullname : Text
  numbits : BitVec 8
  signExtend : Bool
  -- The token of the width, which is not kept.
  width : Option Text
deriving DecidableEq

structure ZCMDimension where
  mode : ZCMDimensionMode
  size : Text
  -- The token in the brackets, which is not kept.
  token : Text
deriving DecidableEq

structure ZCMMember where
  type : ZCMTypename
  membername : Text
  dimensions : List ZCMDimension
deriving DecidableEq

structure ZCMConstant where
  type : Text
  membername : Text
  -- The `i64` of the union, if it is set.
  val : Option (BitVec 64)
  valstr : Text
  numbits : BitVec 8
  signExtend : Bool
  width : Option Text
deriving DecidableEq

structure ZCMStruct where
  package : Text
  shortname : Text
  members : List ZCMMember
  constants : List ZCMConstant
deriving DecidableEq

namespace ZCMStruct

def findMember (zs : ZCMStruct) (name : Text) : Option ZCMMember := zs.members.find? (·.membername = name)

def findConst (zs : ZCMStruct) (name : Text) : Option ZCMConstant := zs.constants.find? (·.membername = name)

end ZCMStruct

structure ZCMGen where
  packagePrefix : Text
  structs : List ZCMStruct
  package : Text
deriving DecidableEq

structure FloatLib where
  Double : Type
  -- The value, what is left behind it, and whether `errno` became ERANGE.
  strtod : Text → Double × Text × Bool
  isRepresentable : Text → Double → Bool

structure Width where
  numbits : Nat
  signExtend : Bool
  width : Option Text
deriving DecidableEq

def constWidth (type : Text) (p : Input) : Except Error (Width × Input) := do
  let (colon, p) ← parseTryConsume (text ":") p
  if ¬ colon then return (⟨0, false, none⟩, p)
  match fixedPointType type with
  | none => .error (.semantic "Cannot specify number of bits on a non fixed point type.")
  | some T => do
      let (token, p) ← tokenizeNextOrFail p
      let bits := atoi token
      let p := { p with erange := p.erange || bits.outOfRange }
      let signExtend : Bool := bits.value.toInt < 0
      let numbits := if signExtend then ((-bits.value).signExtend 64).toNat else bits.value.toNat
      require (numbits ≠ 0) (.parse "Failed to parse length of bit field: %s")
      require (numbits ≤ T.width) (.semantic "Specified bit length larger than member type: %u > %u")
      require (¬ (T = .byte ∧ signExtend)) (.semantic
        ("byte is unsigned in all languages that support unsigned types. byte bitfields cannot have sign extension " ++
          "enabled"))
      require (¬ (T ≠ .byte ∧ numbits = T.width ∧ ¬ signExtend)) (.semantic
        "Cannot have a bitfield without sign extension when using all of the bits in a type.")
      return (⟨numbits, signExtend, some token⟩, p)

namespace IntCase

def isHex (token : Text) : Bool :=
  2 < token.length && token[0]? = some (charByte '0') &&
    (token[1]? = some (charByte 'x') || token[1]? = some (charByte 'X'))

variable (T : BitsType) (numbits : Nat) (signExtend : Bool)

def lowest : Int := if T = .byte then 0 else -2 ^ (T.width - 1)

def max : Int := if T = .byte then 2 ^ T.width - 1 else 2 ^ (T.width - 1) - 1

def bounds : Int × Int :=
  if numbits ≠ 0 then
    if signExtend then
      let min : BitVec T.width := (-(1#64 <<< (numbits - 1))).setWidth T.width
      (T.toInt min, T.toInt (~~~min))
    else (0, T.toInt (((1#64 <<< numbits) - 1).setWidth T.width))
  else (lowest T, max T)

def outOfBounds : Error :=
  if numbits ≠ 0 then
    if signExtend then .semantic "Integer value out of bounds [%ld, %ld] for MEMBERTYPE:%u : %lld"
    else .semantic "Integer value out of bounds [0, %u] for MEMBERTYPE:%u : %lld"
  else .semantic "Integer value out of bounds for MEMBERTYPE: %lld"

def topBitsSame (v : BitVec 64) : Bool :=
  let mask : BitVec T.width := (~~~((1#64 <<< numbits) - 1)).setWidth T.width
  let vtop := v.setWidth T.width &&& mask
  vtop = mask || vtop = 0

def normalize (v : BitVec 64) : BitVec 64 :=
  if signExtend then
    let shift := T.width - numbits
    BitVec.ofInt 64 (T.toInt ((v <<< shift).setWidth T.width) >>> shift)
  else BitVec.ofInt 64 (T.toInt (v.setWidth T.width))

def valstr (token : Text) (v : BitVec 64) : Text :=
  if isHex token then hexText (T.width / 8 * 2) (v.setWidth T.width).toNat else decimalText v.toInt

end IntCase

open IntCase in
def intCase (T : BitsType) (numbits : Nat) (signExtend : Bool) (token : Text) (erange : Bool) :
    Except Error (BitVec 64 × Text × Bool) := do
  let r := strtoll 0 token
  -- `errno` may be left from an earlier number.
  let erange := erange || r.outOfRange
  let r := if erange then strtoull 0 token else r
  require (r.rest ≠ token ∧ r.rest = []) (.parse "Expected integer value")
  let v := r.value
  if isHex token then
    require (token.length ≤ T.width / 8 * 2 + 2) (.semantic "Too many hex digits specified for MEMBERTYPE: 0x%llx")
    require (numbits = 0 || numbits = 64 || topBitsSame T numbits v)
      (.semantic "Too many bits used for MEMBERTYPE:%u : 0x%llx")
    let v := normalize T numbits signExtend v
    return (v, valstr T token v, erange)
  else
    require ((bounds T numbits signExtend).1 ≤ v.toInt ∧ v.toInt ≤ (bounds T numbits signExtend).2)
      (outOfBounds numbits signExtend)
    let v := normalize T numbits signExtend v
    return (v, valstr T token v, erange)

def fltCase (lib : FloatLib) (type token : Text) (erange : Bool) : Except Error Bool := do
  let (v, rest, range) := lib.strtod token
  require (rest ≠ token ∧ rest = []) (.parse "Expected floating point value")
  require (lib.isRepresentable type v) (.semantic "Cannot represent precision")
  return erange || range

def constValue (lib : FloatLib) (type : Text) (numbits : Nat) (signExtend : Bool) (token : Text) (erange : Bool) :
    Except Error (Option (BitVec 64) × Text × Bool) :=
  match fixedPointType type with
  | some T => do
      let (v, valstr, erange) ← intCase T numbits signExtend token erange
      return (some v, valstr, erange)
  | none =>
      if type = text "float" ∨ type = text "double" then do
        let erange ← fltCase lib type token erange
        return (none, token, erange)
      -- Only strings are left.
      else .ok (none, token, erange)

def constHeader (zs : ZCMStruct) (p : Input) : Except Error (Text × Text × Input) := do
  let (name, p) ← tokenizeNextOrFail (parseTryConsumeComment p)
  require (isLegalMemberName name) (.parse "Invalid const member name: must start with [a-zA-Z_].")
  require (zs.findMember name).isNone (.semantic "Duplicate member name '%s'.")
  require (zs.findConst name).isNone (.semantic "Duplicate member name '%s'.")
  let p ← parseRequire (text "=") p
  let (token, p) ← tokenizeNextOrFail (parseTryConsumeComment p)
  return (name, token, p)

def constant (lib : FloatLib) (type : Text) (width : Width) (zs : ZCMStruct) (p : Input) :
    Except Error (ZCMConstant × Input) := do
  let (name, token, p) ← constHeader zs p
  let (val, valstr, erange) ← constValue lib type width.numbits width.signExtend token p.erange
  return (⟨type, name, val, valstr, BitVec.ofNat 8 width.numbits, width.signExtend, width.width⟩,
    { p with erange := erange })

def constants (lib : FloatLib) (type : Text) (width : Width) :
    Nat → ZCMStruct → Input → Except Error (ZCMStruct × Input)
  | 0, _, _ => .error .rounds
  | fuel + 1, zs, p => do
      let (zc, p) ← constant lib type width zs p
      let zs := { zs with constants := zs.constants ++ [zc] }
      let (more, p) ← parseTryConsume (text ",") p
      if more then constants lib type width fuel zs p else return (zs, p)

def parseConst (lib : FloatLib) (fuel : Nat) (zs : ZCMStruct) (p : Input) : Except Error (ZCMStruct × Input) := do
  let (type, p) ← tokenizeNextOrFail (parseTryConsumeComment p)
  require (type ∈ constTypes) (.parse "invalid type for const")
  let (width, p) ← constWidth type p
  let (zs, p) ← constants lib type width fuel zs p
  let p ← parseRequire (text ";") p
  return (zs, p)

def memberWidth (type : Text) (p : Input) : Except Error (ZCMTypename × Input) := do
  let (colon, p) ← parseTryConsume (text ":") p
  if ¬ colon then return (⟨type, 0, false, none⟩, p)
  match fixedPointType type with
  | none => .error (.semantic "Cannot specify number of bits on a non fixed point type.")
  | some T => do
      let (token, p) ← tokenizeNextOrFail p
      let bits := atoi token
      let p := { p with erange := p.erange || bits.outOfRange }
      let signExtend : Bool := bits.value.toInt < 0
      require (¬ (signExtend ∧ T = .byte)) (.semantic
        "Sign extension behavior for byte bitfield is language dependent and cannot be specified")
      let numbits := (if signExtend then -bits.value else bits.value).setWidth 8
      require (numbits ≠ 0) (.semantic "Failed to parse length of bit field: %s")
      require (numbits.toNat ≤ T.width) (.semantic "Specified bit length larger than member type: %u > %u")
      require (¬ (T = .byte ∧ signExtend)) (.semantic
        ("byte is unsigned in all languages that support unsigned types. byte bitfields cannot have sign extension " ++
          "enabled"))
      require (¬ (T ≠ .byte ∧ numbits.toNat = T.width ∧ ¬ signExtend)) (.semantic
        "Cannot have a bitfield without sign extension when using all of the bits in a type.")
      return (⟨type, numbits, signExtend, some token⟩, p)

def dimension (zs : ZCMStruct) (token : Text) (erange : Bool) : Except Error (ZCMDimension × Bool) :=
  match zs.findConst token with
  | some c => do
      require (isArrayDimType c.type) (.semantic "Array dimension '%s' must be an integer type.")
      return (⟨.ZCM_CONST, c.valstr, token⟩, erange)
  | none =>
      if token.head?.any (isDigitOf 10) then do
        let r := strtol 0 token
        let sz := (r.value.setWidth 32).toInt
        require (0 < sz) (.semantic "Constant array size must be > 0")
        return (⟨.ZCM_CONST, token, token⟩, erange || r.outOfRange)
      else do
        require (token.head? ≠ some (charByte ']'))
          (.semantic "Array sizes must be declared either as a constant or variable.")
        require (isLegalMemberName token) (.semantic "Invalid array size variable name: must start with [a-zA-Z_].")
        match zs.findMember token with
        | none => .error (.semantic
            "Unknown variable array index '%s'. Index variables must be declared before the array.")
        | some thislm => do
            require thislm.dimensions.isEmpty (.semantic "Array dimension '%s' must be not be an array type.")
            require (isArrayDimType thislm.type.fullname) (.semantic "Array dimension '%s' must be an integer type.")
            return (⟨.ZCM_VAR, token, token⟩, erange)

def dimensions (zs : ZCMStruct) : Nat → List ZCMDimension → Input → Except Error (List ZCMDimension × Input)
  | 0, _, _ => .error .rounds
  | fuel + 1, dims, p => do
      let (bracket, p) ← parseTryConsume (text "[") p
      if bracket then
        let (token, p) ← tokenizeNextOrFail (parseTryConsumeComment p)
        let (dim, erange) ← dimension zs token p.erange
        let p ← parseRequire (text "]") { p with erange := erange }
        dimensions zs fuel (dims ++ [dim]) p
      else return (dims, p)

def member (fuel : Nat) (type : ZCMTypename) (zs : ZCMStruct) (p : Input) : Except Error (ZCMMember × Input) := do
  let (name, p) ← tokenizeNextOrFail (parseTryConsumeComment p)
  require (isLegalMemberName name) (.parse "Invalid member name: must start with [a-zA-Z_]")
  require (zs.findMember name).isNone (.semantic "Duplicate member name '%s'.")
  require (zs.findConst name).isNone (.semantic "Duplicate member name '%s'.")
  let (dims, p) ← dimensions zs fuel [] p
  return (⟨type, name, dims⟩, p)

def members (type : ZCMTypename) : Nat → ZCMStruct → Input → Except Error (ZCMStruct × Input)
  | 0, _, _ => .error .rounds
  | fuel + 1, zs, p => do
      let (zm, p) ← member fuel type zs p
      let zs := { zs with members := zs.members ++ [zm] }
      let (more, p) ← parseTryConsume (text ",") p
      if more then members type fuel zs p else return (zs, p)

def qualified (packagePrefix package type : Text) : Text :=
  if type ∈ primitiveTypes then type
  else if type.head? ≠ some (charByte '.') then if package ≠ [] then package ++ text "." ++ type else type
  else if packagePrefix = [] then type.drop 1
  else packagePrefix ++ text "." ++ type.drop 1

def parseMember (lib : FloatLib) (fuel : Nat) (packagePrefix : Text) (zs : ZCMStruct) (p : Input) :
    Except Error (ZCMStruct × Input) := do
  let (inline, p) ← parseTryConsume (text "struct") p
  require (¬ inline) (.parse "recursive structs not implemented.")
  let (isConst, p) ← parseTryConsume (text "const") p
  if isConst then parseConst lib fuel zs p
  else
    let (type, p) ← tokenizeNextOrFail (parseTryConsumeComment p)
    require (isLegalTypeName type) (.parse "invalid type name")
    require (type ≠ text "int") (.semantic "int type must be int8_t, int16_t, int32_t, or int64_t")
    let (zt, p) ← memberWidth (qualified packagePrefix zs.package type) p
    let (zs, p) ← members zt fuel zs p
    let p ← parseRequire (text ";") p
    return (zs, p)

def structname (packagePrefix name : Text) : Text × Text :=
  let shortname := (name.reverse.takeWhile (· ≠ charByte '.')).reverse
  let package := name.take (name.length - shortname.length - 1)
  if packagePrefix ≠ [] ∧ shortname ∉ primitiveTypes then
    if package ≠ [] then (packagePrefix ++ text "." ++ package, shortname) else (packagePrefix, shortname)
  else (package, shortname)

def structBody (lib : FloatLib) (packagePrefix : Text) :
    Nat → ZCMStruct → Input → Except Error (ZCMStruct × Input)
  | 0, _, _ => .error .rounds
  | fuel + 1, zs, p => do
      let (closed, p) ← parseTryConsume (text "\x7d") p
      if closed then return (zs, p)
      let (closed, p) ← parseTryConsume (text "\x7d") (parseTryConsumeComment p)
      if closed then return (zs, p)
      let (zs, p) ← parseMember lib fuel packagePrefix zs p
      structBody lib packagePrefix fuel zs p

def parseStruct (lib : FloatLib) (fuel : Nat) (packagePrefix package : Text) (p : Input) :
    Except Error (ZCMStruct × Input) := do
  let (name, p) ← tokenizeNextOrFail (parseTryConsumeComment p)
  let (package, shortname) := structname packagePrefix (if package = [] then name else package ++ text "." ++ name)
  let p ← parseRequire (text "\x7b") p
  structBody lib packagePrefix fuel ⟨package, shortname, [], []⟩ p

def parseEntity (lib : FloatLib) (fuel : Nat) (zcmgen : ZCMGen) (p : Input) : Except Error (Bool × ZCMGen × Input) :=
  match tokenizeNext (parseTryConsumeComment p) with
  | (none, p) => .ok (true, zcmgen, p)
  | (some token, p) =>
      if token.text = text "package" then do
        let (package, p) ← tokenizeNextOrFail (parseTryConsumeComment p)
        let p ← parseRequire (text ";") p
        return (false, { zcmgen with package := package }, p)
      else do
        require (token.text = text "struct") (.parse "Missing struct token.")
        let (zs, p) ← parseStruct lib fuel zcmgen.packagePrefix zcmgen.package p
        require (¬ zcmgen.structs.any fun other => other.package = zs.package ∧ other.shortname = zs.shortname)
          .duplicate
        return (false, { zcmgen with structs := zcmgen.structs ++ [zs], package := [] }, p)

def entities (lib : FloatLib) : Nat → ZCMGen → Input → Except Error (ZCMGen × Input)
  | 0, _, _ => .error .rounds
  | fuel + 1, zcmgen, p => do
      let (ended, zcmgen, p) ← parseEntity lib fuel zcmgen p
      if ended then return (zcmgen, p) else entities lib fuel zcmgen p

def handleFiles (lib : FloatLib) (fuel : Nat) :
    List (List (Option Token)) → ZCMGen → Bool → Except Error ZCMGen
  | [], zcmgen, _ => .ok zcmgen
  | file :: files, zcmgen, erange => do
      let (zcmgen, p) ← entities lib fuel zcmgen ⟨file, erange⟩
      handleFiles lib fuel files zcmgen p.erange

end Zcm.Gen.Parse
