import Zcm.Coretypes.Decode

namespace Zcm.Java
open Zcm.Lib Zcm.Coretypes

structure ZCMDataInputStream where
  buf : Mem Byte
  -- the length of the array, which is what an index is checked against
  length : Nat
  pos_byte : Nat
  pos_bit : Nat
  indexed : length < 2 ^ 31

section Shifts

variable {w : Nat}

def shl (x : BitVec w) (distance : Int) : BitVec w := x <<< (distance % w).toNat

def shr (x : BitVec w) (distance : Int) : BitVec w := x.sshiftRight (distance % w).toNat

def ushr (x : BitVec w) (distance : Int) : BitVec w := x >>> (distance % w).toNat

end Shifts

def signed (b : Byte) : BitVec 32 := b.signExtend 32

def unsigned (b : Byte) : BitVec 32 := signed b &&& 0xff#32

namespace ZCMDataInputStream

def mask (pos_bit bits_covered : Nat) : Byte :=
  (shl (shl 1#32 bits_covered - 1#32) (8 - bits_covered - pos_bit)).setWidth 8

def payload (b : Byte) (pos_bit bits_covered : Nat) : Byte :=
  (shl (signed b &&& signed (mask pos_bit bits_covered)) pos_bit).setWidth 8

/-- The loop of the readers. The first payload gives the value, and the later ones are or-ed into it. -/
def readBitsLoop {w : Nat} (first later : Byte → Int → BitVec w) (numbits : Nat) :
    Nat → Nat → BitVec w → ZCMDataInputStream → Option (BitVec w × ZCMDataInputStream)
  | 0, _, ret, s => some (ret, s)
  | rounds + 1, bits_left, ret, s =>
      if bits_left = 0 then some (ret, s)
      else if s.length ≤ s.pos_byte then none
      else
        let available_bits := 8 - s.pos_bit
        let bits_covered := if available_bits < bits_left then available_bits else bits_left
        let payload := payload (s.buf s.pos_byte) s.pos_bit bits_covered
        let shift : Int := 8 - bits_left
        let ret := if bits_left = numbits then first payload shift else ret ||| later payload shift
        let pos_bit := s.pos_bit + bits_covered
        readBitsLoop first later numbits rounds (bits_left - bits_covered) ret
          (if pos_bit = 8 then { s with pos_byte := s.pos_byte + 1, pos_bit := 0 } else { s with pos_bit := pos_bit })

variable (s : ZCMDataInputStream) (numbits : Nat) (signExtend : Bool)

-- the first shift is not negative here, and this reader does not ask for the sign in that branch
def readByteBits : Option (BitVec 8 × ZCMDataInputStream) :=
  readBitsLoop
    (fun payload shift =>
      if shift < 0 then (shl (signed payload) (-shift)).setWidth 8
      else if signExtend then (shr (signed payload) shift).setWidth 8 else (ushr (unsigned payload) shift).setWidth 8)
    (fun payload shift =>
      if shift < 0 then (shl (unsigned payload) (-shift)).setWidth 8 else (ushr (unsigned payload) shift).setWidth 8)
    numbits numbits numbits 0 s

def readShortBits : Option (BitVec 16 × ZCMDataInputStream) :=
  readBitsLoop
    (fun payload shift =>
      if shift < 0 then
        if signExtend then (shl (signed payload) (-shift)).setWidth 16 else
          (shl (unsigned payload) (-shift)).setWidth 16
      else if signExtend then (shr (signed payload) shift).setWidth 16 else (ushr (unsigned payload) shift).setWidth 16)
    (fun payload shift =>
      if shift < 0 then (shl (unsigned payload) (-shift)).setWidth 16 else (ushr (unsigned payload) shift).setWidth 16)
    numbits numbits numbits 0 s

def readIntBits : Option (BitVec 32 × ZCMDataInputStream) :=
  readBitsLoop
    (fun payload shift =>
      if shift < 0 then if signExtend then shl (signed payload) (-shift) else shl (unsigned payload) (-shift)
      else if signExtend then shr (signed payload) shift else ushr (unsigned payload) shift)
    (fun payload shift => if shift < 0 then shl (unsigned payload) (-shift) else ushr (unsigned payload) shift)
    numbits numbits numbits 0 s

-- The source casts to long before it shifts, but for the shift to the right in the first round. In the later rounds
-- the payload is not negative, and the order makes no difference.
def readLongBits : Option (BitVec 64 × ZCMDataInputStream) :=
  readBitsLoop
    (fun payload shift =>
      if shift < 0 then
        if signExtend then shl ((signed payload).signExtend 64) (-shift)
        else shl ((unsigned payload).signExtend 64) (-shift)
      else if signExtend then (shr (signed payload) shift).signExtend 64
      else (ushr (unsigned payload) shift).signExtend 64)
    (fun payload shift =>
      if shift < 0 then shl ((unsigned payload).signExtend 64) (-shift)
      else (ushr (unsigned payload) shift).signExtend 64)
    numbits numbits numbits 0 s

def readBits : (t : BitsType) → Option (BitVec t.width × ZCMDataInputStream)
  | .byte => s.readByteBits numbits signExtend
  | .int8_t => s.readByteBits numbits signExtend
  | .int16_t => s.readShortBits numbits signExtend
  | .int32_t => s.readIntBits numbits signExtend
  | .int64_t => s.readLongBits numbits signExtend

def readBitfields : ZCMDataInputStream → List Bitfield → Option (Bitfields.Values × ZCMDataInputStream)
  | s, [] => some ([], s)
  | s, f :: fs => do
      let (v, s) ← s.readBits f.numbits f.signExtend f.t
      let (values, s) ← readBitfields s fs
      some (⟨f.t, v⟩ :: values, s)

end ZCMDataInputStream
end Zcm.Java
