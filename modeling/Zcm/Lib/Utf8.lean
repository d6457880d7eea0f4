import Zcm.Lib.Bytes

namespace Zcm.Lib

def utf8 (text : List Char) : List Byte := text.flatMap fun c => (String.utf8EncodeChar c).map (·.toBitVec)

def Ascii (text : List Char) : Prop := ∀ c ∈ text, c.toNat < 0x80

def firstChar (bytes : List Byte) : Option Char := (bytes.map UInt8.ofBitVec).toByteArray.utf8DecodeChar? 0

def secondOf (lead second : Byte) : Bool :=
  if lead = 0xe0 then 0xa0 ≤ second ∧ second ≤ 0xbf
  else if lead = 0xed then 0x80 ≤ second ∧ second ≤ 0x9f
  else if lead = 0xf0 then 0x90 ≤ second ∧ second ≤ 0xbf
  else if lead = 0xf4 then 0x80 ≤ second ∧ second ≤ 0x8f
  else 0x80 ≤ second ∧ second ≤ 0xbf

def illFormed (lead : Byte) : List Byte → Nat
  | [] => 0
  | second :: bytes =>
      if ¬ (0xe0 ≤ lead ∧ lead ≤ 0xf4 ∧ secondOf lead second) then 0
      else match bytes with
        | third :: _ => if 0xf0 ≤ lead ∧ 0x80 ≤ third ∧ third ≤ 0xbf then 2 else 1
        | [] => 1

def replacement : Char := Char.ofNat 0xfffd

-- the first number is how many bytes belong to what has been decoded already
def decodeUtf8 : Nat → List Byte → List Char
  | _, [] => []
  | skip + 1, _ :: bytes => decodeUtf8 skip bytes
  | 0, b :: bytes =>
      match firstChar (b :: bytes) with
      | some c => c :: decodeUtf8 (c.utf8Size - 1) bytes
      | none => replacement :: decodeUtf8 (illFormed b bytes) bytes

abbrev Unit16 := BitVec 16

def utf16Char (c : Char) : List Unit16 :=
  if c.toNat < 0x10000 then [BitVec.ofNat 16 c.toNat]
  else [BitVec.ofNat 16 (0xd800 + (c.toNat - 0x10000) / 0x400), BitVec.ofNat 16 (0xdc00 + (c.toNat - 0x10000) % 0x400)]

def utf16 (text : List Char) : List Unit16 := text.flatMap utf16Char

def Unit16.high (u : Unit16) : Bool := 0xd800 ≤ u.toNat ∧ u.toNat < 0xdc00

def Unit16.low (u : Unit16) : Bool := 0xdc00 ≤ u.toNat ∧ u.toNat < 0xe000

@[simp] theorem utf8_nil : utf8 [] = [] := rfl

@[simp] theorem utf16_nil : utf16 [] = [] := rfl

theorem scalar (c : Char) : c.toNat < 0xd800 ∨ (0xe000 ≤ c.toNat ∧ c.toNat < 0x110000) := by
  have valid := c.valid
  simp only [UInt32.isValidChar, Nat.isValidChar] at valid
  show c.val.toNat < _ ∨ _
  have same : c.toNat = c.val.toNat := rfl
  omega

section Ascii
variable {text : List Char}

theorem Ascii.tail {c : Char} (ascii : Ascii (c :: text)) : Ascii text :=
  fun d member => ascii d (List.mem_cons_of_mem c member)

end Ascii

end Zcm.Lib
