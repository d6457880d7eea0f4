import Zcm.Coretypes.Encode

/-!
# Decoding arrays of the core types

The functions of `zcm_coretypes.h` that the emitted decoders call. Words are two's complement, and a shift to
the left loses what it shifts out.
-/

namespace Zcm.Coretypes
open Zcm.Lib Zcm.Gen

section Arrays

def getWords (little : Bool) (p : Prim) (buf : Mem Byte) : Nat → Nat → List Nat
  | 0, _ => []
  | elements + 1, pos =>
      ofNumBytes little ((List.range p.size).map fun i => buf (u32 (pos + i))) ::
        getWords little p buf elements (u32 (pos + p.size))

def decodeWords (little : Bool) (p : Prim) (buf : Mem Byte) (offset maxlen elements : Nat) : Int × List Nat :=
  let totalSize := encodedArraySize p elements
  if maxlen < totalSize then (-1, []) else (asInt totalSize, getWords little p buf elements offset)

def decodeBytes (p : Prim) (buf : Mem Byte) (offset maxlen elements : Nat) : Int × List Nat :=
  let totalSize := encodedArraySize p elements
  if maxlen < totalSize then (-1, []) else (asInt elements, (buf.read offset elements).map (·.toNat))

/-- `__T_decode_array` and `__T_decode_little_endian_array`, with what they assign to the elements. -/
def decodeArray (little : Bool) : Prim → Mem Byte → Nat → Nat → Nat → Int × List Nat
  | .byte => decodeBytes .byte
  | .boolean => decodeBytes .int8_t
  | .int8_t => decodeBytes .int8_t
  | .int16_t => decodeWords little .int16_t
  | .int32_t => decodeWords little .int32_t
  | .int64_t => decodeWords little .int64_t
  | .float => decodeWords little .float
  | .double => decodeWords little .double

end Arrays

inductive BitsType
  | byte | int8_t | int16_t | int32_t | int64_t
deriving DecidableEq

@[reducible] def BitsType.width : BitsType → Nat
  | byte => 8
  | int8_t => 8
  | int16_t => 16
  | int32_t => 32
  | int64_t => 64

/-- The conversion to 64 bits. Where the operands of an operator have fewer of them, so has the variable that takes
the result. -/
def BitsType.promote : (t : BitsType) → BitVec t.width → BitVec 64
  | byte, v => v.setWidth 64
  | int8_t, v => v.signExtend 64
  | int16_t, v => v.signExtend 64
  | int32_t, v => v.signExtend 64
  | int64_t, v => v.signExtend 64

section Round

variable (t : BitsType) (signExtend : Bool)

def bitsMask (posBit covered : Nat) : Byte := (((1#32 <<< covered) - 1#32) <<< (8 - covered - posBit)).setWidth 8

def bitsPayload (b : Byte) (posBit covered : Nat) : Byte :=
  ((b.setWidth 32 &&& (bitsMask posBit covered).setWidth 32) <<< posBit).setWidth 8

def widened (payload : Byte) : BitVec 64 := if signExtend then payload.signExtend 64 else payload.setWidth 64

def firstChunk (payload : Byte) (shift : Int) : BitVec t.width :=
  if shift < 0 then (widened signExtend payload <<< (-shift).toNat).setWidth t.width
  else ((widened signExtend payload).sshiftRight shift.toNat).setWidth t.width

def laterChunk (p : BitVec t.width) (payload : Byte) (shift : Int) : BitVec t.width :=
  if shift < 0 then (t.promote p ||| payload.setWidth 64 <<< (-shift).toNat).setWidth t.width
  else (t.promote p ||| payload.setWidth 64 >>> shift.toNat).setWidth t.width

def decodeBits (buf : Mem Byte) (numbits : Nat) : Nat → Nat → BitPos → BitVec t.width → BitPos × BitVec t.width
  | 0, _, pos, p => (pos, p)
  | rounds + 1, bitsLeft, pos, p =>
      if bitsLeft = 0 then (pos, p)
      else
        let available := 8 - pos.bit
        let covered := if available < bitsLeft then available else bitsLeft
        let payload := bitsPayload (buf pos.byte) pos.bit covered
        let shift : Int := 8 - bitsLeft
        let p := if bitsLeft = numbits then firstChunk t signExtend payload shift else laterChunk t p payload shift
        let bit := pos.bit + covered
        let pos := if bit = 8 then ⟨u32 (pos.byte + 1), 0⟩ else ⟨pos.byte, bit⟩
        decodeBits buf numbits rounds (bitsLeft - covered) pos p

def decodeElement (buf : Mem Byte) (numbits : Nat) (st : BitPos × Mem (BitVec t.width)) (element : Nat) :
    BitPos × Mem (BitVec t.width) :=
  let (pos, p) := decodeBits t signExtend buf numbits numbits numbits st.1 (st.2 element)
  (pos, st.2.set element p)

/-- `ps` is the storage of the elements; the result is the number of bits. -/
def decodeArrayBits (buf : Mem Byte) (offsetBytes offsetBits maxbytes : Nat) (ps : Mem (BitVec t.width))
    (elements numbits : Nat) : Int × Mem (BitVec t.width) :=
  let totalBits := u32 (elements * numbits)
  if maxbytes < bitfieldEncodedSize (u32 (totalBits + offsetBits)) then (-1, ps)
  else
    let (_, ps) := (List.range elements).foldl (decodeElement t signExtend buf numbits)
      (⟨offsetBytes, offsetBits⟩, ps)
    (asInt totalBits, ps)

end Round

/-- A bitfield of a struct. There is no decoder with sign extension for byte. -/
structure Bitfield where
  t : BitsType
  signExtend : Bool
  numbits : Nat
  listed : signExtend = true → t ≠ .byte
  positive : 1 ≤ numbits
  narrow : numbits ≤ t.width

abbrev Bitfields.Values := List ((t : BitsType) × BitVec t.width)

/-- What the emitted decoders do for one bitfield after another, each with its own storage. -/
def decodeBitfields (buf : Mem Byte) (maxlen : Nat) (ps : (t : BitsType) → Mem (BitVec t.width)) :
    BitPos → List Bitfield → Option (Bitfields.Values × BitPos)
  | pos, [] => some ([], pos)
  | pos, f :: fs =>
      let r := decodeArrayBits f.t f.signExtend buf pos.byte pos.bit (u32Sub maxlen pos.byte) (ps f.t) 1 f.numbits
      if r.1 < 0 then none
      else (decodeBitfields buf maxlen ps (bitfieldAdvanceOffset pos r.1.toNat) fs).map fun (values, pos) =>
        (⟨f.t, r.2 0⟩ :: values, pos)

section Storage

variable (t : BitsType) (signExtend : Bool) (buf : Mem Byte) {numbits : Nat} (positive : 1 ≤ numbits)

include positive

theorem decodeBits_forgets (pos : BitPos) (old old' : BitVec t.width) :
    decodeBits t signExtend buf numbits numbits numbits pos old =
      decodeBits t signExtend buf numbits numbits numbits pos old' := by
  obtain ⟨rounds, rfl⟩ := Nat.exists_eq_add_of_le' positive
  simp only [decodeBits, if_true, if_neg (Nat.succ_ne_zero rounds)]

theorem decodeElements_forget (start : BitPos) (ps ps' : Mem (BitVec t.width)) (n : Nat) :
    let r := (List.range n).foldl (decodeElement t signExtend buf numbits) (start, ps)
    let r' := (List.range n).foldl (decodeElement t signExtend buf numbits) (start, ps')
    r.1 = r'.1 ∧ ∀ i < n, r.2 i = r'.2 i := by
  induction n with
  | zero => exact ⟨rfl, fun i lt => absurd lt (Nat.not_lt_zero i)⟩
  | succ n ih =>
      rw [List.range_succ, List.foldl_append, List.foldl_append]
      generalize (List.range n).foldl (decodeElement t signExtend buf numbits) (start, ps) = r at ih ⊢
      generalize (List.range n).foldl (decodeElement t signExtend buf numbits) (start, ps') = r' at ih ⊢
      obtain ⟨here, cells⟩ := ih
      have same := decodeBits_forgets t signExtend buf positive r.1 (r.2 n) (r'.2 n)
      simp only [List.foldl_cons, List.foldl_nil, decodeElement, ← here, same]
      refine ⟨trivial, ?_⟩
      intro i lt
      by_cases last : i = n
      · rw [last, Mem.set_self, Mem.set_self]
      · rw [Mem.set_of_ne _ _ last, Mem.set_of_ne _ _ last, cells i (by omega)]

theorem decodeArrayBits_forgets (offsetBytes offsetBits maxbytes elements : Nat) (ps ps' : Mem (BitVec t.width)) :
    let r := decodeArrayBits t signExtend buf offsetBytes offsetBits maxbytes ps elements numbits
    let r' := decodeArrayBits t signExtend buf offsetBytes offsetBits maxbytes ps' elements numbits
    r.1 = r'.1 ∧ (0 ≤ r.1 → r.2.read 0 elements = r'.2.read 0 elements) := by
  simp only [decodeArrayBits]
  split
  · exact ⟨rfl, fun nonneg => absurd nonneg (Int.not_le.mpr (Int.negSucc_lt_zero 0))⟩
  · refine ⟨rfl, fun _ => Mem.read_congr ?_⟩
    intro i lt
    rw [Nat.zero_add]
    exact (decodeElements_forget t signExtend buf positive _ ps ps' elements).2 i lt

end Storage

end Zcm.Coretypes
