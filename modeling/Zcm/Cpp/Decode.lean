import Zcm.Coretypes.Decode

/-!
# The emitted C++ decoder

`_decodeNoHash` as it is emitted for a struct. It works on an object that holds something already: what it
does not assign stays. A string is its characters here, and an array of fixed size has its elements in place.
-/

namespace Zcm.Cpp
open Zcm.Lib Zcm.Gen Zcm.Coretypes

structure Options where
  littleEndianEncoding : Bool
  stdArray : Bool

inductive Abort
  | returned (result : Int)
  -- by a resize or an assign
  | thrown
  -- of an int
  | overflow
  -- The type is not there, or the calls nest deeper than is looked at.
  | depth

section Object

def items : Value → List Value
  | .array items => items
  | _ => []

def fields : Value → List Value
  | .struct fields => fields
  | _ => []

def pattern : Value → Nat
  | .num n => n
  | _ => 0

def store (values : List Nat) (elements : List Value) : List Value :=
  values.map .num ++ elements.drop values.length

variable (options : Options)

def isVector (m : Member) (d : Dimension) : Bool := d.isVar || !m.isConstantSizeArray && !options.stdArray

def resize (n : Int) (blank : Value) (elements : List Value) : Except Abort (List Value) :=
  if n < 0 then .error .thrown
  else .ok (elements.take n.toNat ++ List.replicate (n.toNat - elements.length) blank)

def resizeVector (m : Member) (d : Dimension) (n : Int) (blank : Value) (elements : List Value) :
    Except Abort (List Value) :=
  if isVector options m d then resize n blank elements else .ok elements

variable (callee : String → List Value)

def initialLeaf : Typename → Value
  | .string => .str []
  | .user name => .struct (callee name)
  | _ => .num 0

def initialDims (m : Member) : List Dimension → Value
  | [] => initialLeaf callee m.type
  | d :: ds =>
      if isVector options m d then .array []
      else .array (List.replicate (Scope.dimSize [] d).toNat (initialDims m ds))

end Object

def initial (Γ : Env) (options : Options) : Nat → String → List Value
  | 0, _ => []
  | depth + 1, name =>
      match Γ.lookup name with
      | none => []
      | some s => s.members.map fun m => initialDims options (initial Γ options depth) m m.dimensions

def bitsType : Prim → Option BitsType
  | .byte => some .byte
  | .int8_t => some .int8_t
  | .int16_t => some .int16_t
  | .int32_t => some .int32_t
  | .int64_t => some .int64_t
  | _ => none

section Decode

variable (options : Options) (blanks : String → List Value)
  (callee : String → Nat → Nat → Value → Except Abort (Nat × Value)) (buf : Mem Byte) (offset maxlen : Nat)

def decodePrims (p : Prim) (elements : Nat) (pos : BitPos) : Except Abort (BitPos × List Nat) :=
  let r := decodeArray options.littleEndianEncoding p buf (u32 (offset + pos.byte)) (u32Sub maxlen pos.byte) elements
  if r.1 < 0 then .error (.returned r.1) else .ok (⟨u32 (pos.byte + r.1.toNat), pos.bit⟩, r.2)

def decodeElements (t : Typename) (elements : Nat) (storage : List Value) (pos : BitPos) :
    Except Abort (BitPos × List Value) :=
  match t with
  | .prim p => (decodePrims options buf offset maxlen p elements pos).map fun r => (r.1, store r.2 storage)
  | .bits p numbits signExtend =>
      match bitsType p with
      | none => .error .depth
      | some b =>
          let r := decodeArrayBits b signExtend buf (u32 (offset + pos.byte)) pos.bit (u32Sub maxlen pos.byte)
            (fun i => BitVec.ofNat b.width (pattern (storage.getD i (.num 0)))) elements numbits
          if r.1 < 0 then .error (.returned r.1)
          else .ok (bitfieldAdvanceOffset pos r.1.toNat, store ((r.2.read 0 elements).map (·.toNat)) storage)
  | _ => .error .depth

def decodeString (pos : BitPos) : Except Abort (BitPos × Value) := do
  let (pos, values) ← decodePrims options buf offset maxlen .int32_t 1 pos
  let elemLen := values.headD 0
  if u32Sub maxlen pos.byte < elemLen then .error (.returned (-1))
  else if elemLen = 2 ^ 31 then .error .overflow
  -- the length less one is a size_t
  else if Prim.int32_t.toInt elemLen < 1 then .error .thrown
  else .ok (⟨u32 (pos.byte + elemLen), pos.bit⟩, .str (buf.read (offset + pos.byte) (elemLen - 1)))

def decodeLeaf (t : Typename) (pos : BitPos) (old : Value) : Except Abort (BitPos × Value) :=
  match t with
  | .string => decodeString options buf offset maxlen pos
  | .user name => do
      let (thislen, v) ← callee name (u32 (offset + pos.byte)) (u32Sub maxlen pos.byte) old
      .ok (⟨u32 (pos.byte + thislen), pos.bit⟩, v)
  | t => do
      let (pos, elements) ← decodeElements options buf offset maxlen t 1 [old] pos
      .ok (pos, elements.headD old)

def decodeItems (decode : BitPos → Value → Except Abort (BitPos × Value)) :
    Nat → BitPos → List Value → Except Abort (BitPos × List Value)
  | 0, pos, elements => .ok (pos, elements)
  | n + 1, pos, elements => do
      let (pos, v) ← decode pos (elements.headD (.num 0))
      let (pos, vs) ← decodeItems decode n pos elements.tail
      .ok (pos, v :: vs)

def isRow (t : Typename) (inner : List Dimension) : Bool :=
  match t with
  | .prim _ | .bits .. => inner.isEmpty
  | _ => false

def decodeDims (m : Member) (scope : Scope) : List Dimension → BitPos → Value → Except Abort (BitPos × Value)
  | [], pos, old => decodeLeaf options callee buf offset maxlen m.type pos old
  | d :: ds, pos, old =>
      let n := scope.dimSize d
      -- the guard that the emitter puts around a row, with its resize in it
      if isRow m.type ds && d.isVar && n ≤ 0 then .ok (pos, old)
      else do
        let elements ← resizeVector options m d n (initialDims options blanks m ds) (items old)
        if isRow m.type ds then
          let (pos, elements) ← decodeElements options buf offset maxlen m.type (n % 2 ^ 32).toNat elements pos
          .ok (pos, .array elements)
        else
          let (pos, elements) ← decodeItems (decodeDims m scope ds) n.toNat pos elements
          if n < 2 ^ 31 then .ok (pos, .array elements) else .error .overflow

def closeBits (pos : BitPos) : BitPos := ⟨if pos.bit ≠ 0 then u32 (pos.byte + 1) else pos.byte, 0⟩

def decodeFields : Scope → Bool → List Member → BitPos → List Value → Except Abort (BitPos × List Value)
  | _, inBitMode, [], pos, olds => .ok (if inBitMode then closeBits pos else pos, olds)
  | scope, inBitMode, m :: ms, pos, olds => do
      let pos := if inBitMode && !m.type.isBits then closeBits pos else pos
      let (pos, v) ←
        decodeDims options blanks callee buf offset maxlen m scope m.dimensions pos (olds.headD (.num 0))
      let (pos, vs) ← decodeFields (scope.push m v) m.type.isBits ms pos olds.tail
      .ok (pos, v :: vs)

end Decode

def decodeNoHash (Γ : Env) (options : Options) (buf : Mem Byte) :
    Nat → String → Nat → Nat → Value → Except Abort (Nat × Value)
  | 0, _, _, _, _ => .error .depth
  | depth + 1, name, offset, maxlen, old =>
      match Γ.lookup name with
      | none => .error .depth
      | some s => do
          let (pos, vs) ← decodeFields options (initial Γ options depth)
            (decodeNoHash Γ options buf depth) buf offset
            maxlen [] false s.members ⟨0, 0⟩ (fields old)
          if asInt pos.byte < 0 then .error (.returned (asInt pos.byte)) else .ok (pos.byte, .struct vs)

end Zcm.Cpp
