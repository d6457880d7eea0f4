import Zcm.Cpp.Decode
import Zcm.EmitC.Clone

namespace Zcm.EmitC
open Zcm.Lib Zcm.Gen Zcm.Coretypes
open Zcm.Cpp (closeBits)

section Rows

variable (little : Bool) (offset maxlen : Nat)

def returned (r : Int × Mem Byte) : Except Fault (Nat × Mem Byte) :=
  if r.1 < 0 then .error (.returned r.1) else .ok (r.1.toNat, r.2)

def number : Storage → Except Fault Nat
  | .num n => .ok n
  | .garbage => .error .indeterminate
  | .str _ | .array _ | .struct _ => .error .outside

def numbers (elements : Nat) (ps : List Storage) : Except Fault (List Nat) :=
  if ps.length < elements then .error .outside else (ps.take elements).mapM number

def terminated : Storage → Except Fault (List Byte)
  | .str block => if block.contains 0 then .ok block else .error .outside
  | .garbage => .error .indeterminate
  | .num _ | .array _ | .struct _ => .error .outside

def encodeEach {σ : Type} (encode : σ → Storage → Except Fault σ) :
    Nat → List Storage → σ → Except Fault σ
  | 0, _, st => .ok st
  | elements + 1, p :: ps, st => do
      let st ← encode st p
      encodeEach encode elements ps st
  | _ + 1, [], _ => .error .outside

def encodeStrings (elements : Nat) (ps : List Storage) (buf : Mem Byte) : Except Fault (Nat × Mem Byte) := do
  let (pos, buf) ← encodeEach (fun st p => do
    let block ← terminated p
    (stringEncodeElement little offset maxlen st block).mapError .returned) elements ps (0, buf)
  returned (asInt pos, buf)

variable (callee : String → Nat → Nat → Nat → List Storage → Mem Byte → Except Fault (Nat × Mem Byte))

def encodeRow (t : Typename) (elements : Nat) (ps : List Storage) (st : BitPos × Mem Byte) :
    Except Fault (BitPos × Mem Byte) := do
  let (pos, buf) := st
  let start := u32 (offset + pos.byte)
  let left := u32Sub maxlen pos.byte
  match t with
  | .prim p =>
      if left < encodedArraySize p elements then .error (.returned (-1)) else do
        let values ← numbers elements ps
        let (thislen, buf) ← returned (encodeArray little p buf start left values elements)
        .ok (⟨u32 (pos.byte + thislen), pos.bit⟩, buf)
  | .bits _ numbits _ =>
      if left < bitfieldEncodedSize (u32 (u32 (elements * numbits) + pos.bit)) then .error (.returned (-1)) else do
        let values ← numbers elements ps
        let (thislen, buf) ← returned (encodeArrayBits buf start pos.bit left values elements numbits)
        .ok (bitfieldAdvanceOffset pos thislen, buf)
  | .string => do
      let (thislen, buf) ← encodeStrings little start left elements ps buf
      .ok (⟨u32 (pos.byte + thislen), pos.bit⟩, buf)
  | .user name => do
      let (thislen, buf) ← callee name start left elements ps buf
      .ok (⟨u32 (pos.byte + thislen), pos.bit⟩, buf)

def encodeDims (m : Member) (scope : Scope) :
    List Dimension → Storage → BitPos × Mem Byte → Except Fault (BitPos × Mem Byte)
  | [], p, st => encodeRow little offset maxlen callee m.type 1 [p] st
  | [d], p, st => do
      let size ← arraySize scope d
      let ps ← p.elements
      encodeRow little offset maxlen callee m.type (size % 2 ^ 32).toNat ps st
  | d :: d' :: ds, p, st => do
      let size ← arraySize scope d
      if size ≤ 0 then .ok st
      else do
        let ps ← p.elements
        let st ← encodeEach (fun st p => encodeDims m scope (d' :: ds) p st) size.toNat ps st
        if size < 2 ^ 31 then .ok st else .error .overflow

def encodeFields : Scope → Bool → List Member → List Storage → BitPos × Mem Byte →
    Except Fault (BitPos × Mem Byte)
  | _, inBitMode, [], _, (pos, buf) => .ok (if inBitMode then closeBits pos else pos, buf)
  | scope, inBitMode, m :: ms, p :: ps, (pos, buf) => do
      let pos := match inBitMode, m.type.isBits with
        | false, true => ⟨pos.byte, 0⟩
        | true, false => closeBits pos
        | _, _ => pos
      let st ← encodeDims little offset maxlen callee m scope m.dimensions p (pos, buf)
      encodeFields (push scope m p) m.type.isBits ms ps st
  | _, _, _ :: _, [], _ => .error .outside

end Rows

def encodeElements (Γ : Env) (little : Bool) :
    Nat → String → Nat → Nat → Nat → List Storage → Mem Byte → Except Fault (Nat × Mem Byte)
  | 0, _, _, _, _, _, _ => .error .unfinished
  | depth + 1, name, offset, maxlen, elements, ps, buf =>
      match Γ.lookup name with
      | none => .error .ungrammatical
      | some s =>
          if !compiles s then .error .ungrammatical
          else do
            let (pos, buf) ← encodeEach (fun st p =>
              encodeFields little offset maxlen (encodeElements Γ little depth) [] false s.members (fieldsOf s p) st)
              elements ps (⟨0, 0⟩, buf)
            returned (asInt pos.byte, buf)

def encode (Γ : Env) (little : Bool) (depth : Nat) (name : String) (hash offset maxlen : Nat) (p : Storage)
    (buf : Mem Byte) : Except Fault (Nat × Mem Byte) := do
  let (pos, buf) ← returned (encodeArray false .int64_t buf offset maxlen [hash] 1)
  let (thislen, buf) ← encodeElements Γ little depth name (u32 (offset + pos)) (u32Sub maxlen pos) 1 [p] buf
  returned (asInt (u32 (pos + thislen)), buf)

end Zcm.EmitC
