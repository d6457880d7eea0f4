import Zcm.Gen.Format
import Zcm.Lib.Memory

/-!
# Encoding arrays of the core types

The functions of `zcm_coretypes.h` that the emitted encoders call. Positions and sizes are `uint32_t`,
results are `int`.
-/

namespace Zcm.Coretypes
open Zcm.Lib Zcm.Gen

def u32 (n : Nat) : Nat := n % 2 ^ 32

def u32Sub (a b : Nat) : Nat := (a + 2 ^ 32 - b) % 2 ^ 32

def asInt (n : Nat) : Int := if u32 n < 2 ^ 31 then u32 n else (u32 n : Int) - 2 ^ 32

def encodedArraySize (p : Prim) (elements : Nat) : Nat := u32 (p.size * elements)

def putBytes : Mem Byte → Nat → List Byte → Mem Byte
  | buf, _, [] => buf
  | buf, pos, b :: bs => putBytes (buf.set pos b) (u32 (pos + 1)) bs

def encodeWords (little : Bool) (p : Prim) (buf : Mem Byte) (offset maxlen : Nat) (ps : List Nat) (elements : Nat) :
    Int × Mem Byte :=
  let totalSize := encodedArraySize p elements
  if maxlen < totalSize then (-1, buf)
  else (asInt totalSize, putBytes buf offset ((ps.take elements).flatMap (numBytes little p)))

def encodeBytes (p : Prim) (buf : Mem Byte) (offset maxlen : Nat) (ps : List Nat) (elements : Nat) : Int × Mem Byte :=
  let totalSize := encodedArraySize p elements
  if maxlen < totalSize then (-1, buf)
  else (asInt elements, buf.write offset ((ps.take elements).map (BitVec.ofNat 8)))

def encodeArray (little : Bool) : Prim → Mem Byte → Nat → Nat → List Nat → Nat → Int × Mem Byte
  | .byte => encodeBytes .byte
  | .boolean => encodeBytes .int8_t
  | .int8_t => encodeBytes .int8_t
  | .int16_t => encodeWords little .int16_t
  | .int32_t => encodeWords little .int32_t
  | .int64_t => encodeWords little .int64_t
  | .float => encodeWords little .float
  | .double => encodeWords little .double

def strlen (block : List Byte) : Nat := (block.takeWhile (· ≠ 0)).length

def stringEncodedArraySize (ps : List (List Byte)) (elements : Nat) : Nat :=
  (ps.take elements).foldl (fun size block => u32 (size + (4 + strlen block + 1))) 0

def returns (r : Int × Mem Byte) : Except Int (Nat × Mem Byte) :=
  if r.1 < 0 then .error r.1 else .ok (r.1.toNat, r.2)

def stringEncodeElement (little : Bool) (offset maxlen : Nat) (st : Nat × Mem Byte) (block : List Byte) :
    Except Int (Nat × Mem Byte) := do
  let (pos, buf) := st
  let length := u32 (strlen block + 1)
  let (thislen, buf) ← returns
    (encodeArray little .int32_t buf (u32 (offset + pos)) (u32Sub maxlen pos) [length] 1)
  let pos := u32 (pos + thislen)
  let (thislen, buf) ← returns
    (encodeArray little .int8_t buf (u32 (offset + pos)) (u32Sub maxlen pos) (block.map (·.toNat)) length)
  .ok (u32 (pos + thislen), buf)

-- what a call that fails leaves in the buffer is not looked at, here and in the emitted encoders
def stringEncodeArray (little : Bool) (buf : Mem Byte) (offset maxlen : Nat) (ps : List (List Byte)) (elements : Nat) :
    Int × Mem Byte :=
  match (ps.take elements).foldlM (stringEncodeElement little offset maxlen) (0, buf) with
  | .ok (pos, buf) => (asInt pos, buf)
  | .error r => (r, buf)

def bitfieldEncodedSize (numbits : Nat) : Nat :=
  let size := numbits / 8
  if numbits - size * 8 ≠ 0 then u32 (size + 1) else size

structure BitPos where
  byte : Nat
  bit : Nat

def bitfieldAdvanceOffset (pos : BitPos) (numbits : Nat) : BitPos :=
  let bytes := numbits / 8
  let bit := pos.bit + (numbits - bytes * 8)
  if bit ≥ 8 then ⟨u32 (u32 (pos.byte + bytes) + 1), bit - 8⟩ else ⟨u32 (pos.byte + bytes), bit⟩

/-- The inner loop of the bitfield encoders. Every round uses up one bit at least, so `numbits` rounds
are enough. -/
def encodeBits (v : Nat) : Nat → Nat → BitPos → Mem Byte → BitPos × Mem Byte
  | 0, _, pos, buf => (pos, buf)
  | rounds + 1, bitsLeft, pos, buf =>
      if bitsLeft = 0 then (pos, buf)
      else
        let buf := if pos.bit = 0 then buf.set pos.byte 0 else buf
        if pos.bit + bitsLeft < 8 then
          let mask := 2 ^ bitsLeft - 1
          let shift := 8 - (pos.bit + bitsLeft)
          (⟨pos.byte, pos.bit + bitsLeft⟩,
            buf.set pos.byte (buf pos.byte ||| BitVec.ofNat 8 ((v &&& mask) <<< shift)))
        else
          let shift := pos.bit + bitsLeft - 8
          let mask := 2 ^ (bitsLeft - shift) - 1
          encodeBits v rounds shift ⟨u32 (pos.byte + 1), 0⟩
            (buf.set pos.byte (buf pos.byte ||| BitVec.ofNat 8 ((v >>> shift) &&& mask)))

def encodeArrayBits (buf : Mem Byte) (offsetBytes offsetBits maxbytes : Nat) (ps : List Nat)
    (elements numbits : Nat) : Int × Mem Byte :=
  let totalBits := u32 (elements * numbits)
  if maxbytes < bitfieldEncodedSize (u32 (totalBits + offsetBits)) then (-1, buf)
  else
    let (_, buf) := (ps.take elements).foldl
      (fun (pos, buf) v => encodeBits v numbits numbits pos buf) (BitPos.mk offsetBytes offsetBits, buf)
    (asInt totalBits, buf)

theorem u32_of_lt {n : Nat} (lt : n < 2 ^ 32) : u32 n = n := by
  rw [u32, Nat.mod_eq_of_lt lt]

theorem u32Sub_of_le {a b : Nat} (lt : a < 2 ^ 32) (le : b ≤ a) : u32Sub a b = a - b := by
  simp only [u32Sub]
  omega

theorem asInt_of_lt {n : Nat} (lt : n < 2 ^ 31) : asInt n = n := by
  rw [asInt, u32_of_lt (by omega), if_pos lt]

theorem putBytes_eq (buf : Mem Byte) (pos : Nat) (bs : List Byte) (fits : pos + bs.length ≤ 2 ^ 32) :
    putBytes buf pos bs = buf.write pos bs := by
  induction bs generalizing buf pos with
  | nil => simp [putBytes]
  | cons b bs ih =>
      rw [List.length_cons] at fits
      rw [putBytes, Mem.write_cons]
      cases bs with
      | nil => simp [putBytes]
      | cons b' bs =>
          rw [List.length_cons] at fits
          rw [u32_of_lt (by omega)]
          exact ih _ _ (by rw [List.length_cons]; omega)

theorem flatMap_numBytes_length (little : Bool) (p : Prim) (ps : List Nat) :
    (ps.flatMap (numBytes little p)).length = p.size * ps.length := by
  induction ps with
  | nil => simp
  | cons n ps ih =>
      rw [List.flatMap_cons, List.length_append, ih, numBytes, List.length_cons, Nat.mul_succ]
      split <;> simp [Nat.add_comm]

theorem flatMap_numBytes_byte (little : Bool) {p : Prim} (size : p.size = 1) (ps : List Nat) :
    ps.flatMap (numBytes little p) = ps.map (BitVec.ofNat 8) := by
  induction ps with
  | nil => rfl
  | cons n ps ih => cases little <;> simp [List.flatMap_cons, ih, numBytes, size, toBe]

theorem encodeArray_eq (little : Bool) (p : Prim) (buf : Mem Byte) {offset maxlen : Nat} {ps : List Nat}
    (small : p.size * ps.length < 2 ^ 31) (room : p.size * ps.length ≤ maxlen) (fits : offset + maxlen ≤ 2 ^ 32) :
    encodeArray little p buf offset maxlen ps ps.length =
      (((p.size * ps.length : Nat) : Int), buf.write offset (ps.flatMap (numBytes little p))) := by
  have total : encodedArraySize p ps.length = p.size * ps.length := u32_of_lt (by omega)
  have words : encodeWords little p buf offset maxlen ps ps.length =
      (((p.size * ps.length : Nat) : Int), buf.write offset (ps.flatMap (numBytes little p))) := by
    rw [encodeWords]
    simp only [total]
    rw [if_neg (by omega), asInt_of_lt small, List.take_length,
      putBytes_eq _ _ _ (by rw [flatMap_numBytes_length]; omega)]
  have bytes : p.size = 1 → encodeBytes p buf offset maxlen ps ps.length =
      (((p.size * ps.length : Nat) : Int), buf.write offset (ps.flatMap (numBytes little p))) := by
    intro one
    rw [encodeBytes]
    simp only [total]
    rw [if_neg (by omega), flatMap_numBytes_byte little one, List.take_length, one, Nat.one_mul,
      asInt_of_lt (by rw [one] at small; omega)]
  cases p with
  | byte => exact bytes rfl
  | boolean => exact bytes rfl
  | int8_t => exact bytes rfl
  | _ => exact words

end Zcm.Coretypes
