import Zcm.Coretypes.EncodeExact

/-!
# The Java output stream

`ZCMDataOutputStream` with its buffer that grows. Nothing stands for an exception, or for a loop that
does not end.
-/

namespace Zcm.Java
open Zcm.Lib Zcm.Coretypes

structure ZCMDataOutputStream where
  buf : Mem Byte
  -- the length of the array, which is what an index is checked against
  length : Nat
  pos_byte : Nat
  pos_bit : Nat

def int (n : Int) : Int := Int.bmod n (2 ^ 32)

def newLength : Nat → Int → Int → Option Int
  | 0, _, _ => none
  | rounds + 1, newlen, wanted => if newlen < wanted then newLength rounds (int (newlen * 2)) wanted else some newlen

namespace ZCMDataOutputStream

def new (sz : Nat) : ZCMDataOutputStream := ⟨fun _ => 0, sz, 0, 0⟩

variable (s : ZCMDataOutputStream)

def resetBits : ZCMDataOutputStream :=
  if s.pos_bit ≠ 0 then { s with pos_bit := 0, pos_byte := s.pos_byte + 1 } else s

/-- A new array, of which only the bytes before `pos_byte` are the old ones. -/
def moved (newlen : Nat) : ZCMDataOutputStream :=
  { s with buf := Mem.write (fun _ => 0) 0 (s.buf.read 0 s.pos_byte), length := newlen }

def ensureSpace (needed : Nat) : Option ZCMDataOutputStream :=
  if (s.length : Int) ≤ int (s.pos_byte + needed) then
    (newLength 33 s.length (int (s.pos_byte + needed))).map fun newlen => s.moved newlen.toNat
  else some s

def store (bytes : List Byte) : Option ZCMDataOutputStream :=
  if s.pos_byte + bytes.length ≤ s.length then
    some { s with buf := s.buf.write s.pos_byte bytes, pos_byte := s.pos_byte + bytes.length }
  else none

def put (bytes : List Byte) : Option ZCMDataOutputStream := (s.ensureSpace bytes.length).bind (·.store bytes)

def writeArray (b : List Byte) : Option ZCMDataOutputStream := s.put b

def write (b : Nat) : Option ZCMDataOutputStream := s.put (toBe 1 b)

def writeByte (v : Nat) : Option ZCMDataOutputStream := s.put (toBe 1 v)

def writeShort (v : Nat) : Option ZCMDataOutputStream := s.put (toBe 2 v)

def writeInt (v : Nat) : Option ZCMDataOutputStream := s.put (toBe 4 v)

def writeLong (v : Nat) : Option ZCMDataOutputStream := s.put (toBe 8 v)

-- As a byte the mask of eight bits is -1; the cast of the result to a byte makes that the same.
def writeBitsLoop (value : Nat) : Nat → Nat → ZCMDataOutputStream → Option ZCMDataOutputStream
  | 0, _, s => some s
  | rounds + 1, bitsLeft, s =>
      if bitsLeft = 0 then some s
      else if s.length ≤ s.pos_byte then none
      else
        let buf := if s.pos_bit = 0 then s.buf.set s.pos_byte 0 else s.buf
        if s.pos_bit + bitsLeft < 8 then
          let mask := 2 ^ bitsLeft - 1
          let shift := 8 - (s.pos_bit + bitsLeft)
          some { s with
            buf := buf.set s.pos_byte (buf s.pos_byte ||| BitVec.ofNat 8 ((value <<< shift) &&& (mask <<< shift)))
            pos_bit := s.pos_bit + bitsLeft }
        else
          let shift := s.pos_bit + bitsLeft - 8
          let mask := 2 ^ (bitsLeft - shift) - 1
          writeBitsLoop value rounds shift { s with
            buf := buf.set s.pos_byte (buf s.pos_byte ||| BitVec.ofNat 8 ((value >>> shift) &&& mask))
            pos_bit := 0
            pos_byte := s.pos_byte + 1 }

-- the argument of Math.ceil is an integer already
def writeBits (value numbits : Nat) : Option ZCMDataOutputStream :=
  (s.ensureSpace ((numbits + s.pos_bit) / 8)).bind (writeBitsLoop value numbits numbits)

def toByteArray : List Byte := s.buf.read 0 s.pos_byte

end ZCMDataOutputStream

inductive Call
  | writeArray (b : List Byte)
  | write (b : Nat)
  | writeByte (v : Nat)
  | writeShort (v : Nat)
  | writeInt (v : Nat)
  | writeLong (v : Nat)
  | writeBits (value numbits : Nat)
  | resetBits

def Call.run (s : ZCMDataOutputStream) : Call → Option ZCMDataOutputStream
  | writeArray b => s.writeArray b
  | write b => s.write b
  | writeByte v => s.writeByte v
  | writeShort v => s.writeShort v
  | writeInt v => s.writeInt v
  | writeLong v => s.writeLong v
  | writeBits value numbits => s.writeBits value numbits
  | resetBits => some s.resetBits

def Call.bytes : Call → Option (List Byte)
  | writeArray b => some b
  | write b => some (toBe 1 b)
  | writeByte v => some (toBe 1 v)
  | writeShort v => some (toBe 2 v)
  | writeInt v => some (toBe 4 v)
  | writeLong v => some (toBe 8 v)
  | writeBits _ _ => none
  | resetBits => none

end Zcm.Java
