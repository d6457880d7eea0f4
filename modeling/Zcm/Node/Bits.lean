import Zcm.Lib.JavaScript
import Zcm.Lib.PutBits

/-!
# Bits from and to a Node buffer

`readBits` and `writeBits` of the emitted readers and writers. Nothing stands for an index or a value out of
range.
-/

namespace Zcm.Node
open Zcm.Lib Zcm.Lib.Js

structure Buffer where
  bytes : Mem Byte
  length : Nat

namespace Buffer

def readUInt8 (buf : Buffer) (offset : Nat) : Option Int :=
  if offset < buf.length then some (buf.bytes offset).toNat else none

def writeUInt8 (buf : Buffer) (value : Int) (offset : Nat) : Option Buffer :=
  if 0 ≤ value ∧ value ≤ 255 ∧ offset < buf.length
  then some { buf with bytes := buf.bytes.set offset (BitVec.ofInt 8 value) } else none

def start (buf : Buffer) (offset_byte offset_bit : Nat) : Option Buffer :=
  if offset_bit = 0 then buf.writeUInt8 0 offset_byte else some buf

end Buffer

structure Methods where
  buf : Buffer
  offset_byte : Nat
  offset_bit : Nat

namespace Methods

section Read

variable (numbits : Nat) (signExtend : Bool)

def readMask (offset_bit bits_covered : Nat) : Int := shl (shl 1 bits_covered - 1) (8 - bits_covered - offset_bit)

def readPayload (byte : Int) (offset_bit bits_covered : Nat) : Int :=
  shl (and byte (readMask offset_bit bits_covered)) offset_bit

def signExtended (payload : Int) : Int := if signExtend then shr (shl payload 24) 24 else ushr (shl payload 24) 24

def firstRet (payload shift : Int) : Value :=
  let signExtendedPayload := signExtended signExtend payload
  if numbits > 32 then .bigint (signExtendedPayload >>> shift)
  else if shift < 0 then .number (shl signExtendedPayload (-shift))
  else if signExtend then .number (shr signExtendedPayload shift)
  else .number (ushr signExtendedPayload shift)

def laterRet (ret : Value) (payload shift : Int) : Value :=
  if numbits > 32 then .bigint (Int.lor ret.int (payload >>> shift))
  else if shift < 0 then .number (or ret.int (shl payload (-shift)))
  else .number (or ret.int (ushr payload shift))

def readBitsLoop : Nat → Nat → Value → Methods → Option (Value × Methods)
  | 0, _, ret, s => some (ret, s)
  | rounds + 1, bits_left, ret, s =>
      if bits_left = 0 then some (ret, s)
      else do
        let available_bits := 8 - s.offset_bit
        let bits_covered := if available_bits < bits_left then available_bits else bits_left
        let byte ← s.buf.readUInt8 s.offset_byte
        let payload := readPayload byte s.offset_bit bits_covered
        let shift : Int := 8 - bits_left
        let ret := if bits_left = numbits then firstRet numbits signExtend payload shift
          else laterRet numbits ret payload shift
        let offset_bit := s.offset_bit + bits_covered
        readBitsLoop rounds (bits_left - bits_covered) ret
          (if offset_bit = 8 then { s with offset_bit := 0, offset_byte := s.offset_byte + 1 }
            else { s with offset_bit := offset_bit })

-- `ret` has no value before the first round
def readBits (s : Methods) : Option (Value × Methods) := readBitsLoop numbits signExtend numbits numbits (.number 0) s

end Read

def writeMask (value : Value) (bits_left : Nat) : Int :=
  match value with
  | .bigint _ => (1 : Int) <<< (bits_left : Int) - 1
  | .number _ => shl 1 bits_left - 1

def leftOf (value : Value) (mask distance : Int) : Int :=
  match value with
  | .bigint n => Int.land n mask <<< distance
  | .number n => shl (and n mask) distance

def rightOf (value : Value) (mask distance : Int) : Int :=
  match value with
  | .bigint n => Int.land n mask >>> distance
  | .number n => shr (and n mask) distance

def writeBitsLoop (value : Value) : Nat → Nat → Methods → Option Methods
  | 0, _, s => some s
  | rounds + 1, bits_left, s =>
      if bits_left = 0 then some s
      else do
        let buf ← s.buf.start s.offset_byte s.offset_bit
        let payload ← buf.readUInt8 s.offset_byte
        let mask := writeMask value bits_left
        let shift : Int := s.offset_bit + bits_left - 8
        if shift < 0 then
          let buf ← buf.writeUInt8 (or payload (leftOf value mask (-shift))) s.offset_byte
          some { s with buf := buf, offset_bit := s.offset_bit + bits_left }
        else
          let buf ← buf.writeUInt8 (or payload (rightOf value mask shift)) s.offset_byte
          writeBitsLoop value rounds shift.toNat
            { s with buf := buf, offset_bit := 0, offset_byte := s.offset_byte + 1 }

def writeBits (value : Value) (numbits : Nat) (s : Methods) : Option Methods := writeBitsLoop value numbits numbits s

end Methods
end Zcm.Node
