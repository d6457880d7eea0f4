import Zcm.Gen.Schema

/-!
# The wire format

The bytes that a message stands for, and a reader of such bytes that computes with exact numbers. Both
are what the emitted encoders and decoders are compared with.
-/

namespace Zcm.Gen
open Zcm.Lib

def numBytes (little : Bool) (p : Prim) (n : Nat) : List Byte :=
  if little then (toBe p.size n).reverse else toBe p.size n

def ofNumBytes (little : Bool) (bytes : List Byte) : Nat := ofBe (if little then bytes.reverse else bytes)

def bitsOf (numbits : Nat) : Value → List Bool
  | .num n => toBits numbits n
  | _ => []

section Wire

variable (little : Bool) (callee : String → List Value → List Byte)

def leafBytes : Typename → Value → List Byte
  | .prim p, .num n => numBytes little p n
  | .string, .str block => numBytes little .int32_t block.length ++ block
  | .user name, .struct fields => callee name fields
  | _, _ => []

def wireFields : List Bool → List Member → List Value → List Byte
  | pending, m :: ms, v :: vs =>
      match m.type with
      | .bits _ numbits _ =>
          wireFields (pending ++ (leaves m.dimensions.length v).flatMap (bitsOf numbits)) ms vs
      | t => pack pending ++ ((leaves m.dimensions.length v).flatMap (leafBytes little callee t) ++
          wireFields [] ms vs)
  | pending, _, _ => pack pending

end Wire

def wire (Γ : Env) (little : Bool) : Nat → String → List Value → List Byte
  | 0, _, _ => []
  | depth + 1, name, fields =>
      match Γ.lookup name with
      | none => []
      | some s => wireFields little (wire Γ little depth) [] s.members fields

structure Cursor where
  bytes : List Byte
  bit : Nat

namespace Cursor

def align (c : Cursor) : Cursor := if c.bit = 0 then c else ⟨c.bytes.drop 1, 0⟩

def advance (c : Cursor) (numbits : Nat) : Cursor :=
  ⟨c.bytes.drop ((c.bit + numbits) / 8), (c.bit + numbits) % 8⟩

def bits (c : Cursor) : List Bool := (unpack c.bytes).drop c.bit

end Cursor

inductive Failure
  -- The input ends too early.
  | short
  -- The decoder has a guard that refuses the input.
  | rejected
  -- A count for which the 32-bit arithmetic of the emitted code is not exact.
  | oversize
  -- A size that is negative.
  | negative
  -- The calls nest deeper than is looked at, or the type is not there.
  | depth
deriving DecidableEq

structure Rules where
  extent : Extent → Except Failure Nat
  -- The second number is how many bytes are left.
  text : Int → Nat → Except Failure Nat

def repeatRead {α σ : Type} (read : σ → Except Failure (α × σ)) : Nat → σ → Except Failure (List α × σ)
  | 0, c => .ok ([], c)
  | n + 1, c => do
      let (v, c) ← read c
      let (vs, c) ← repeatRead read n c
      .ok (v :: vs, c)

def extendBits (p : Prim) (numbits : Nat) (signExtend : Bool) (raw : Nat) : Nat :=
  if signExtend then (Int.bmod raw (2 ^ numbits) % 2 ^ (8 * p.size)).toNat else raw

section Parse

variable (rules : Rules) (little : Bool) (callee : String → List Byte → Except Failure (List Value × List Byte))

def takeBytes (n : Nat) (bytes : List Byte) : Except Failure (List Byte × List Byte) :=
  if n ≤ bytes.length then .ok (bytes.take n, bytes.drop n) else .error .short

def parseLeaf (t : Typename) (c : Cursor) : Except Failure (Value × Cursor) :=
  match t with
  | .prim p => do
      let (bytes, rest) ← takeBytes p.size c.bytes
      .ok (.num (ofNumBytes little bytes), ⟨rest, 0⟩)
  | .bits p numbits signExtend =>
      if numbits ≤ c.bits.length then
        .ok (.num (extendBits p numbits signExtend (ofBits (c.bits.take numbits))), c.advance numbits)
      else .error .short
  | .string => do
      let (bytes, rest) ← takeBytes 4 c.bytes
      let length ← rules.text (Prim.int32_t.toInt (ofNumBytes little bytes)) rest.length
      let (block, rest) ← takeBytes length rest
      .ok (.str block, ⟨rest, 0⟩)
  | .user name => do
      let (fields, rest) ← callee name c.bytes
      .ok (.struct fields, ⟨rest, 0⟩)

def parseDims (t : Typename) : List Extent → Cursor → Except Failure (Value × Cursor)
  | [], c => parseLeaf rules little callee t c
  | e :: es, c => do
      let n ← rules.extent e
      let (items, c) ← repeatRead (parseDims t es) n c
      .ok (.array items, c)

def parseFields : Scope → List Member → Cursor → Except Failure (List Value × List Byte)
  | _, [], c => .ok ([], c.align.bytes)
  | scope, m :: ms, c => do
      let (v, c) ← parseDims rules little callee m.type (m.extents scope) (if m.type.isBits then c else c.align)
      let (vs, rest) ← parseFields (scope.push m v) ms c
      .ok (v :: vs, rest)

end Parse

def parse (Γ : Env) (rules : Rules) (little : Bool) :
    Nat → String → List Byte → Except Failure (List Value × List Byte)
  | 0, _, _ => .error .depth
  | depth + 1, name, bytes =>
      match Γ.lookup name with
      | none => .error .depth
      | some s => parseFields rules little (parse Γ rules little depth) [] s.members ⟨bytes, 0⟩

end Zcm.Gen
