import Zcm.Coretypes.Bitfields

/-!
# Bits from and to a Julia stream

`ZCM.read_bits` and `ZCM.write_bits`. Nothing stands for an InexactError, and for the end of the stream.
-/

namespace Zcm.Julia
open Zcm.Lib Zcm.Coretypes

structure IOBuffer where
  data : Mem Byte
  size : Nat
  ptr : Nat

def IOBuffer.peek (buf : IOBuffer) : Option Byte := if buf.ptr < buf.size then some (buf.data buf.ptr) else none

-- `read(buf, 1)` of a byte that was peeked at
def IOBuffer.skip (buf : IOBuffer) : IOBuffer := { buf with ptr := buf.ptr + 1 }

def IOBuffer.write (buf : IOBuffer) (b : Byte) : IOBuffer :=
  ⟨buf.data.set buf.ptr b, max buf.size (buf.ptr + 1), buf.ptr + 1⟩

section Numbers

abbrev Number := (t : BitsType) × BitVec t.width

def Number.int (n : Number) : Int := n.1.toInt n.2

def checked (t : BitsType) (x : Int) : Option (BitVec t.width) :=
  if t.toInt (BitVec.ofInt t.width x) = x then some (BitVec.ofInt t.width x) else none

def promoteType (a b : BitsType) : BitsType :=
  if a.width < b.width then b else if b.width < a.width then a else if a = .byte then a else b

/-- The operator `|`, for which both numbers are reduced modulo the type that they are promoted to. -/
def Number.or (a b : Number) : Number :=
  ⟨promoteType a.1 b.1, BitVec.ofInt _ a.int ||| BitVec.ofInt _ b.int⟩

def shr (t : BitsType) (x : BitVec t.width) (distance : Nat) : BitVec t.width :=
  if t = .byte then x >>> distance else x.sshiftRight distance

def toUInt8 (x : BitVec 64) : Option Byte := if x.toNat < 2 ^ 8 then some (x.setWidth 8) else none

def toUInt64 (x : BitVec 64) : Option (BitVec 64) := if 0 ≤ x.toInt then some x else none

end Numbers

section Read

variable (T : BitsType)

def readMask (bits_covered offset_bit : Nat) : BitVec 64 :=
  ((1#64 <<< bits_covered) - 1#64) <<< (8 - bits_covered - offset_bit)

def readPayload (byte : Byte) (bits_covered offset_bit : Nat) : Option Byte :=
  toUInt8 ((byte.setWidth 64 &&& readMask bits_covered offset_bit) <<< offset_bit)

def firstRet (signExtend : Bool) (payload : Byte) (shift : Int) : Option Number :=
  if shift < 0 then
    if signExtend then do
      let x ← checked T payload.toInt
      some ⟨T, x <<< (-shift).toNat⟩
    else do
      let x ← checked T payload.toNat
      some ⟨T, x <<< (-shift).toNat⟩
  else if signExtend then do
    let x ← checked T payload.toInt
    some ⟨T, shr T x shift.toNat⟩
  -- here the result stays a UInt8
  else some ⟨.byte, payload >>> shift.toNat⟩

def laterRet (ret : Number) (payload : Byte) (shift : Int) : Option Number :=
  if shift < 0 then do
    let x ← checked T payload.toNat
    some (ret.or ⟨T, x <<< (-shift).toNat⟩)
  else if T = .int8_t then some (ret.or ⟨.int8_t, payload >>> shift.toNat⟩)
  else do
    let x ← checked T payload.toNat
    some (ret.or ⟨T, x >>> shift.toNat⟩)

def nextRet (numbits : Nat) (signExtend : Bool) (bits_left : Nat) (ret : Number) (payload : Byte) : Option Number :=
  let shift : Int := 8 - bits_left
  if bits_left = numbits then firstRet T signExtend payload shift else laterRet T ret payload shift

def readBitsLoop (numbits : Nat) (signExtend : Bool) :
    Nat → Nat → Nat → Number → IOBuffer → Option (Nat × Number × IOBuffer)
  | 0, _, offset_bit, ret, buf => some (offset_bit, ret, buf)
  | rounds + 1, bits_left, offset_bit, ret, buf =>
      if bits_left = 0 then some (offset_bit, ret, buf)
      else do
        let available_bits := 8 - offset_bit
        let bits_covered := if available_bits < bits_left then available_bits else bits_left
        let byte ← buf.peek
        let payload ← readPayload byte bits_covered offset_bit
        let ret ← nextRet T numbits signExtend bits_left ret payload
        let offset_bit := offset_bit + bits_covered
        if offset_bit = 8 then readBitsLoop numbits signExtend rounds (bits_left - bits_covered) 0 ret buf.skip
        else readBitsLoop numbits signExtend rounds (bits_left - bits_covered) offset_bit ret buf

def read_bits (buf : IOBuffer) (numbits offset_bit : Nat) (signExtend : Bool) : Option (Nat × Number × IOBuffer) :=
  readBitsLoop T numbits signExtend numbits numbits offset_bit ⟨T, 0⟩ buf

end Read

section Write

structure Writer where
  buf : IOBuffer
  byte_in_progress : Byte
  offset_bit : Nat

def writeMask (bits_left : Nat) : Option (BitVec 64) := toUInt64 ((1#64 <<< bits_left) - 1#64)

def writeBitsLoop (value : BitVec 64) : Nat → Nat → Writer → Option Writer
  | 0, _, w => some w
  | rounds + 1, bits_left, w =>
      if bits_left = 0 then some w
      else do
        let mask ← writeMask bits_left
        let shift : Int := w.offset_bit + bits_left - 8
        if shift < 0 then
          let bits ← toUInt8 ((value &&& mask) <<< (-shift).toNat)
          some { w with byte_in_progress := w.byte_in_progress ||| bits, offset_bit := w.offset_bit + bits_left }
        else
          let bits ← toUInt8 ((value &&& mask) >>> shift.toNat)
          writeBitsLoop value rounds shift.toNat ⟨w.buf.write (w.byte_in_progress ||| bits), 0, 0⟩

def write_bits (value : Number) (numbits : Nat) (w : Writer) : Option Writer :=
  writeBitsLoop (value.1.promote value.2) numbits numbits w

def Writer.flush (w : Writer) : IOBuffer := if w.offset_bit ≠ 0 then w.buf.write w.byte_in_progress else w.buf

end Write

section Fields

def writeBitfields : List ((f : Bitfield) × BitVec f.t.width) → Writer → Option Writer
  | [], w => some w
  | ⟨f, v⟩ :: fields, w => do
      let w ← write_bits ⟨f.t, v⟩ f.numbits w
      writeBitfields fields w

def readBitfields : List Bitfield → Nat → IOBuffer → Option (List Number × Nat × IOBuffer)
  | [], offset_bit, buf => some ([], offset_bit, buf)
  | f :: fs, offset_bit, buf => do
      let (offset_bit, ret, buf) ← read_bits f.t buf f.numbits offset_bit f.signExtend
      let (values, offset_bit, buf) ← readBitfields fs offset_bit buf
      some (ret :: values, offset_bit, buf)

end Fields

end Zcm.Julia
