import Zcm.Cpp.Decode

namespace Zcm.Cpp
open Zcm.Lib Zcm.Gen Zcm.Coretypes

def chars : Value → List Byte
  | .str chars => chars
  | _ => []

def cStr (v : Value) : List Byte := chars v ++ [0]

section Encode

variable (options : Options) (callee : String → Nat → Nat → Value → Mem Byte → Except Abort (Nat × Mem Byte))
  (offset maxlen : Nat)

def returned (r : Int × Mem Byte) : Except Abort (Nat × Mem Byte) :=
  if r.1 < 0 then .error (.returned r.1) else .ok (r.1.toNat, r.2)

def encodeElements (t : Typename) (elements : Nat) (values : List Nat) (st : BitPos × Mem Byte) :
    Except Abort (BitPos × Mem Byte) := do
  let (pos, buf) := st
  match t with
  | .prim p =>
      let (thislen, buf) ← returned (encodeArray options.littleEndianEncoding p buf (u32 (offset + pos.byte))
        (u32Sub maxlen pos.byte) values elements)
      .ok (⟨u32 (pos.byte + thislen), pos.bit⟩, buf)
  | .bits _ numbits _ =>
      let (thislen, buf) ← returned (encodeArrayBits buf (u32 (offset + pos.byte)) pos.bit
        (u32Sub maxlen pos.byte) values elements numbits)
      .ok (bitfieldAdvanceOffset pos thislen, buf)
  | _ => .error .depth

def encodeLeaf (t : Typename) (st : BitPos × Mem Byte) (v : Value) : Except Abort (BitPos × Mem Byte) :=
  match t with
  | .string => do
      let (pos, buf) := st
      let (thislen, buf) ← returned (stringEncodeArray options.littleEndianEncoding buf (u32 (offset + pos.byte))
        (u32Sub maxlen pos.byte) [cStr v] 1)
      .ok (⟨u32 (pos.byte + thislen), pos.bit⟩, buf)
  | .user name => do
      let (pos, buf) := st
      let (thislen, buf) ← callee name (u32 (offset + pos.byte)) (u32Sub maxlen pos.byte) v buf
      .ok (⟨u32 (pos.byte + thislen), pos.bit⟩, buf)
  | t => encodeElements options offset maxlen t 1 [pattern v] st

def encodeDims (m : Member) (scope : Scope) :
    List Dimension → BitPos × Mem Byte → Value → Except Abort (BitPos × Mem Byte)
  | [], st, v => encodeLeaf options callee offset maxlen m.type st v
  | d :: ds, st, v =>
      let n := scope.dimSize d
      if isRow m.type ds then
        encodeElements options offset maxlen m.type (n % 2 ^ 32).toNat ((items v).map pattern) st
      else do
        let st ← ((items v).take n.toNat).foldlM (encodeDims m scope ds) st
        if n < 2 ^ 31 then .ok st else .error .overflow

def isGuarded (m : Member) (scope : Scope) : Bool :=
  match m.dimensions.getLast? with
  | none => false
  | some d => isRow m.type [] && d.isVar && scope.dimSize d ≤ 0

def encodeFields : Scope → Bool → List Member → BitPos × Mem Byte → List Value →
    Except Abort (BitPos × Mem Byte)
  | _, inBitMode, [], (pos, buf), _ => .ok (if inBitMode then closeBits pos else pos, buf)
  | scope, inBitMode, m :: ms, (pos, buf), vs => do
      let pos := if inBitMode && !m.type.isBits then closeBits pos else pos
      let v := vs.headD (.num 0)
      let st ← if isGuarded m scope then .ok (pos, buf)
        else encodeDims options callee offset maxlen m scope m.dimensions (pos, buf) v
      encodeFields (scope.push m v) m.type.isBits ms st vs.tail

end Encode

def encodeNoHash (Γ : Env) (options : Options) :
    Nat → String → Nat → Nat → Value → Mem Byte → Except Abort (Nat × Mem Byte)
  | 0, _, _, _, _, _ => .error .depth
  | depth + 1, name, offset, maxlen, v, buf =>
      match Γ.lookup name with
      | none => .error .depth
      | some s => do
          let (pos, buf) ← encodeFields options (encodeNoHash Γ options depth) offset maxlen [] false s.members
            (⟨0, 0⟩, buf) (fields v)
          if asInt pos.byte < 0 then .error (.returned (asInt pos.byte)) else .ok (pos.byte, buf)

section Size

variable (callee : String → Value → Except Abort Nat) (all : List Member)

def isLong : Dimension → Bool
  | .const size => 2 ^ 31 ≤ size
  | .var name => all.any fun m => m.membername = name &&
      match m.type with
      | .prim p | .bits p _ _ => p = .int64_t
      | _ => false

def times (long : Bool) (a b : Int) : Except Abort Int :=
  let limit := if long then 2 ^ 63 else 2 ^ 31
  if -limit ≤ a * b ∧ a * b < limit then .ok (a * b) else .error .overflow

def sizesProduct (scope : Scope) (ds : List Dimension) : Except Abort (Int × Bool) :=
  ds.foldlM (fun (n, long) d => do
    let n ← times (long || isLong all d) n (scope.dimSize d)
    .ok (n, long || isLong all d)) (1, false)

def sizeLeaf (t : Typename) (size : Nat) (v : Value) : Except Abort Nat :=
  match t with
  | .string => .ok (u32 (size + ((chars v).length + 4 + 1)))
  | .user name => do
      let nested ← callee name v
      .ok (u32 (size + nested))
  | _ => .error .depth

def sizeDims (m : Member) (scope : Scope) : List Dimension → Nat → Value → Except Abort Nat
  | [], size, v => sizeLeaf callee m.type size v
  | d :: ds, size, v => do
      let n := scope.dimSize d
      let size ← ((items v).take n.toNat).foldlM (sizeDims m scope ds) size
      if n < 2 ^ 31 then .ok size else .error .overflow

/-- The size of a primitive member or of an array of primitives. The last factor is a uint32_t, so where the others
are ints the product is one too. -/
def sizePrims (p : Prim) (scope : Scope) (ds : List Dimension) : Except Abort Int :=
  match ds.getLast? with
  | none => .ok (encodedArraySize p 1)
  | some d => do
      let (n, long) ← sizesProduct all scope ds.dropLast
      let row := encodedArraySize p (scope.dimSize d % 2 ^ 32).toNat
      if long then times true n row else .ok (n * row)

def sizeBits (numbits : Nat) (scope : Scope) (ds : List Dimension) : Except Abort Int := do
  let (n, long) ← sizesProduct all scope ds
  times long n numbits

def asU32 (n : Int) : Nat := (n % 2 ^ 32).toNat

def sizeFields : Scope → Bool → Nat → List Member → Nat → List Value → Except Abort Nat
  | _, inBitMode, numbits, [], size, _ => .ok (if inBitMode then u32 (size + bitfieldEncodedSize numbits) else size)
  | scope, inBitMode, numbits, m :: ms, size, vs => do
      let size := if inBitMode && !m.type.isBits then u32 (size + bitfieldEncodedSize numbits) else size
      let numbits := if inBitMode then numbits else 0
      let v := vs.headD (.num 0)
      let scope' := scope.push m v
      match m.type with
      | .prim p => do
          let total ← sizePrims all p scope m.dimensions
          sizeFields scope' false numbits ms (asU32 (size + total)) vs.tail
      | .bits _ width _ => do
          let total ← sizeBits all width scope m.dimensions
          sizeFields scope' true (asU32 (numbits + total)) ms size vs.tail
      | _ => do
          let size ← sizeDims callee m scope m.dimensions size v
          sizeFields scope' false numbits ms size vs.tail

end Size

def getEncodedSizeNoHash (Γ : Env) : Nat → String → Value → Except Abort Nat
  | 0, _, _ => .error .depth
  | depth + 1, name, v =>
      match Γ.lookup name with
      | none => .error .depth
      | some s => sizeFields (getEncodedSizeNoHash Γ depth) s.members [] false 0 s.members 0 (fields v)

section Message

variable (Γ : Env) (options : Options) (depth : Nat) (name : String)

/-- The emitted `encode`, with the value of `getHash`. The fingerprint is in network order. -/
def encode (getHash : Nat) (offset maxlen : Nat) (v : Value) (buf : Mem Byte) : Except Abort (Nat × Mem Byte) := do
  let (pos, buf) ← returned (encodeArray false .int64_t buf offset maxlen [getHash] 1)
  let (thislen, buf) ← encodeNoHash Γ options depth name (u32 (offset + pos)) (u32Sub maxlen pos) v buf
  let pos := u32 (pos + thislen)
  if asInt pos < 0 then .error (.returned (asInt pos)) else .ok (pos, buf)

def getEncodedSize (v : Value) : Except Abort Nat := do
  let size ← getEncodedSizeNoHash Γ depth name v
  .ok (u32 (8 + size))

end Message

end Zcm.Cpp
