import Zcm.Lib.Memory
import Zcm.Lib.Utf8

/-!
# String members in the other languages

What the encoders and decoders emitted for Java, Node, Julia and Python do with a member of type `string`.
A string is what the language takes it for: units of 16 bits, bytes or characters. Nothing stands for an
exception.
-/

namespace Zcm.Gen.Strings
open Zcm.Lib

def takeExactly (n : Nat) (bytes : List Byte) : Option (List Byte × List Byte) :=
  if n ≤ bytes.length then some (bytes.take n, bytes.drop n) else none

def readWord (bytes : List Byte) : Option (Nat × List Byte) :=
  if 4 ≤ bytes.length then some (ofBe (bytes.take 4), bytes.drop 4) else none

namespace Java

def encode (s : List Unit16) : Option (List Byte) :=
  some (toBe 4 (s.length + 1) ++ (s.map (·.setWidth 8) ++ [0]))

def decode (bytes : List Byte) : Option (List Unit16 × List Byte) := do
  let (word, bytes) ← readWord bytes
  let length := Int.bmod (word - 1) (2 ^ 32)
  -- an array of negative size
  if length < 0 then none
  let (strbuf, bytes) ← takeExactly length.toNat bytes
  let (_, bytes) ← takeExactly 1 bytes
  return (strbuf.map (·.setWidth 16), bytes)

end Java

namespace Node

structure Ref where
  writeCString : Mem Byte → Nat → Nat → List Unit16 → Mem Byte
  readCString : List Byte → Option (List Unit16)
  writeCString_fits : ∀ {buf : Mem Byte} {size offset : Nat} {text : List Char},
    offset + (utf8 text).length < size →
      writeCString buf size offset (utf16 text) = buf.write offset (utf8 text ++ [0])
  readCString_utf8 : ∀ {text : List Char} {rest : List Byte},
    Char.ofNat 0 ∉ text → readCString (utf8 text ++ 0 :: rest) = some (utf16 text)

structure Writer where
  buf : Mem Byte
  size : Nat
  offset : Nat

def Writer.write32 (w : Writer) (value : Nat) : Option Writer :=
  if value < 2 ^ 31 ∧ w.offset + 4 ≤ w.size then
    some { w with buf := w.buf.write w.offset (toBe 4 value), offset := w.offset + 4 }
  else none

def Writer.writeString (ref : Ref) (w : Writer) (value : List Unit16) : Option Writer := do
  let w ← w.write32 (value.length + 1)
  return { w with
    buf := ref.writeCString w.buf w.size w.offset value
    offset := w.offset + (value.length + 1) }

def encodedSize (value : List Unit16) : Nat := value.length + 4 + 1

structure Place where
  buf : Mem Byte
  before : Nat
  behind : Nat

def encode (ref : Ref) (place : Place) (s : List Unit16) : Option (List Byte) := do
  let size := place.before + encodedSize s + place.behind
  let w ← Writer.writeString ref ⟨place.buf, size, place.before⟩ s
  return w.buf.read place.before (w.offset - place.before)

def decode (ref : Ref) (bytes : List Byte) : Option (List Unit16 × List Byte) := do
  let (word, bytes) ← readWord bytes
  let len := Int.bmod word (2 ^ 32)
  let ret ← ref.readCString bytes
  -- a negative length moves the offset back, into the string's own bytes
  if len < 0 then none
  return (ret, bytes.drop len.toNat)

end Node

namespace Julia

def codeunit (s : List Byte) (i : Nat) : Byte := s.getD (i - 1) 0

def isContinuation (b : Byte) : Bool := 0x80 ≤ b.toNat ∧ b.toNat < 0xc0

def isLead (least : Nat) (b : Byte) : Bool := least ≤ b.toNat ∧ b.toNat ≤ 0xf7

def thisind (s : List Byte) (i : Nat) : Nat :=
  if ¬ (isContinuation (codeunit s i) ∧ 1 < i) then i
  else if isLead 0xc0 (codeunit s (i - 1)) then i - 1
  else if ¬ (isContinuation (codeunit s (i - 1)) ∧ 2 < i) then i
  else if isLead 0xe0 (codeunit s (i - 2)) then i - 2
  else if ¬ (isContinuation (codeunit s (i - 2)) ∧ 3 < i) then i
  else if isLead 0xf0 (codeunit s (i - 3)) then i - 3
  else i

def isvalid (s : List Byte) (i : Nat) : Bool := thisind s i = i

def length (s : List Byte) : Nat := (List.range s.length).countP fun i => isvalid s (i + 1)

def lastindex (s : List Byte) : Nat := thisind s s.length

def nextind (s : List Byte) (i : Nat) : Nat :=
  let l := codeunit s i
  let more (n : Nat) (least : Nat) : Bool :=
    i + n ≤ s.length ∧ isContinuation (codeunit s (i + n)) ∧ least ≤ l.toNat
  if l.toNat < 0xc0 ∨ 0xf8 ≤ l.toNat then i + 1
  else if ¬ more 1 0xc0 then i + 1
  else if ¬ more 2 0xe0 then i + 2
  else if ¬ more 3 0xf0 then i + 3
  else i + 4

def getindex (s : List Byte) (j : Nat) : Option (List Byte) :=
  if j < 1 then some []
  else if isvalid s j then some (s.take (nextind s j - 1))
  else none

def encode (s : List Byte) : Option (List Byte) :=
  if length s + 1 < 2 ^ 32 then some (toBe 4 (length s + 1) ++ (s ++ [0])) else none

def decode (bytes : List Byte) : Option (List Byte × List Byte) := do
  let (word, bytes) ← readWord bytes
  let s := bytes.take word
  let kept ← getindex s (lastindex s - 1)
  return (kept, bytes.drop word)

end Julia

namespace Python

def encode (s : List Char) : Option (List Byte) :=
  if (utf8 s).length + 1 < 2 ^ 32 then some (toBe 4 ((utf8 s).length + 1) ++ (utf8 s ++ [0])) else none

def decode (bytes : List Byte) : Option (List Char × List Byte) := do
  let (word, bytes) ← readWord bytes
  return (decodeUtf8 0 (bytes.take word).dropLast, bytes.drop word)

end Python

inductive Language
  | java
  | node
  | julia
  | python

def Language.Str : Language → Type
  | .java => List Unit16
  | .node => List Unit16
  | .julia => List Byte
  | .python => List Char

structure Text where
  chars : List Char
  noNul : Char.ofNat 0 ∉ chars

section
variable (ref : Node.Ref)

def Language.encode (place : Node.Place) : (l : Language) → l.Str → Option (List Byte)
  | .java => Java.encode
  | .node => Node.encode ref place
  | .julia => Julia.encode
  | .python => Python.encode

def Language.decode : (l : Language) → List Byte → Option (l.Str × List Byte)
  | .java => Java.decode
  | .node => Node.decode ref
  | .julia => Julia.decode
  | .python => Python.decode

def Text.wire (text : Text) : List Byte :=
  toBe 4 ((utf8 text.chars).length + 1) ++ (utf8 text.chars ++ [0])

end

namespace Java

end Java

namespace Node

end Node

namespace Julia

variable {s : List Byte} (ascii : ∀ b ∈ s, b.toNat < 0x80)
include ascii

end Julia

namespace Python

end Python

section
variable (ref : Node.Ref)

end

end Zcm.Gen.Strings
