import Zcm.Coretypes.DecodeExact
import Zcm.Lib.PutBits

namespace Zcm.Coretypes
open Zcm.Lib

def encodeBitfields (maxlen : Nat) :
    BitPos → Mem Byte → List ((f : Bitfield) × BitVec f.t.width) → Option (BitPos × Mem Byte)
  | pos, buf, [] => some (pos, buf)
  | pos, buf, ⟨f, v⟩ :: fields =>
      let r := encodeArrayBits buf pos.byte pos.bit (u32Sub maxlen pos.byte) [v.toNat] 1 f.numbits
      if r.1 < 0 then none else encodeBitfields maxlen (bitfieldAdvanceOffset pos r.1.toNat) r.2 fields

def BitPos.place (pos : BitPos) : Nat := 8 * pos.byte + pos.bit

def BitPos.ofPlace (n : Nat) : BitPos := ⟨n / 8, n % 8⟩

theorem BitPos.ofPlace_place {pos : BitPos} (low : pos.bit < 8) : BitPos.ofPlace pos.place = pos :=
  (bitPos_of_value low rfl).symm

theorem BitPos.place_ofPlace (n : Nat) : (BitPos.ofPlace n).place = n := Nat.div_add_mod n 8

theorem encodeBits_putBits (v rounds bitsLeft : Nat) (enough : bitsLeft ≤ rounds) {pos : BitPos} (low : pos.bit < 8)
    (fits : (pos.place + bitsLeft) / 8 < 2 ^ 32) (m : Mem Byte) :
    encodeBits v rounds bitsLeft pos m =
      (.ofPlace (pos.place + bitsLeft), m.putBits pos.place (toBits bitsLeft v)) := by
  induction rounds generalizing bitsLeft pos m with
  | zero =>
      obtain rfl := Nat.le_zero.mp enough
      rw [encodeBits, toBits, Mem.putBits, Nat.add_zero, BitPos.ofPlace_place low]
  | succ rounds ih =>
      have begun : (if pos.bit = 0 then m.set pos.byte 0 else m) = m.begun pos.byte pos.bit := rfl
      rw [encodeBits]
      split
      next none => rw [none, toBits, Mem.putBits, Nat.add_zero, BitPos.ofPlace_place low]
      next some =>
        simp only [begun]
        split
        next inside =>
            have value : (v &&& 2 ^ bitsLeft - 1) <<< (8 - (pos.bit + bitsLeft)) =
                ofBits (toBits bitsLeft v) * 2 ^ (8 - pos.bit - (toBits bitsLeft v).length) := by
              rw [Nat.and_two_pow_sub_one_eq_mod, Nat.shiftLeft_eq, ofBits_toBits, toBits_length, Nat.sub_add_eq]
            have nonempty : toBits bitsLeft v ≠ [] := List.ne_nil_of_length_pos (by rw [toBits_length]; omega)
            rw [value, ← Mem.putBits_byte m pos.byte nonempty (by rw [toBits_length]; omega)]
            congr 1
            exact bitPos_of_value inside (by simp only [BitPos.place]; omega)
        next whole =>
            obtain ⟨shift, split⟩ : ∃ shift, bitsLeft = 8 - pos.bit + shift :=
              ⟨pos.bit + bitsLeft - 8, by omega⟩
            have shifted : pos.bit + bitsLeft - 8 = shift := by omega
            have covered : bitsLeft - shift = 8 - pos.bit := by omega
            have length : (toBits (8 - pos.bit) (v / 2 ^ shift)).length = 8 - pos.bit := toBits_length _ _
            have value : (v >>> shift) &&& 2 ^ (8 - pos.bit) - 1 = ofBits (toBits (8 - pos.bit) (v / 2 ^ shift)) *
                2 ^ (8 - pos.bit - (toBits (8 - pos.bit) (v / 2 ^ shift)).length) := by
              rw [Nat.and_two_pow_sub_one_eq_mod, Nat.shiftRight_eq_div_pow, ofBits_toBits, length, Nat.sub_self,
                Nat.pow_zero, Nat.mul_one]
            have nonempty : toBits (8 - pos.bit) (v / 2 ^ shift) ≠ [] :=
              List.ne_nil_of_length_pos (by rw [length]; omega)
            have next : pos.place + (8 - pos.bit) = (BitPos.mk (u32 (pos.byte + 1)) 0).place := by
              rw [BitPos.place] at fits
              rw [BitPos.place, BitPos.place, u32_of_lt (by omega)]
              simp only
              omega
            rw [shifted, covered, value, ← Mem.putBits_byte m pos.byte nonempty (by rw [length]; omega),
              ih shift (by omega) (by simp) (by rw [← next]; omega), split, toBits_add, Mem.putBits_append, length,
              ← Nat.add_assoc, next]
            rfl

theorem encodeArrayBits_putBits (m : Mem Byte) {pos : BitPos} (low : pos.bit < 8) {numbits maxbytes : Nat} (v : Nat)
    (small : numbits < 2 ^ 31) (room : pos.bit + numbits ≤ 8 * maxbytes)
    (fits : (pos.place + numbits) / 8 < 2 ^ 32) :
    encodeArrayBits m pos.byte pos.bit maxbytes [v] 1 numbits =
      ((numbits : Int), m.putBits pos.place (toBits numbits v)) := by
  have total : u32 numbits = numbits := u32_of_lt (by omega)
  have bits : u32 (numbits + pos.bit) = numbits + pos.bit := u32_of_lt (by omega)
  have size : bitfieldEncodedSize (numbits + pos.bit) = (numbits + pos.bit + 7) / 8 := bitfieldEncodedSize_eq (by omega)
  rw [encodeArrayBits]
  simp only [Nat.one_mul, total, bits, size]
  rw [if_neg (by omega), asInt_of_lt small, List.take_of_length_le (by simp), List.foldl_cons, List.foldl_nil,
    encodeBits_putBits v numbits numbits le_rfl low fits m]

theorem bitfieldAdvanceOffset_place {pos : BitPos} (low : pos.bit < 8) {numbits : Nat}
    (fits : (pos.place + numbits) / 8 < 2 ^ 32) :
    bitfieldAdvanceOffset pos numbits = .ofPlace (pos.place + numbits) := by
  have here : BitPos.mk (0 + pos.place / 8) (pos.place % 8) = pos := by
    rw [Nat.zero_add]
    exact BitPos.ofPlace_place low
  rw [← here, bitfieldAdvanceOffset_eq (by rwa [Nat.zero_add]), here, Nat.zero_add]
  rfl

abbrev Bitfields.size (fs : List Bitfield) : Nat := (fs.map (·.numbits)).sum

abbrev Bitfields.bits (fields : List ((f : Bitfield) × BitVec f.t.width)) : List Bool :=
  fields.flatMap fun field => toBits field.1.numbits field.2.toNat

theorem encodeBitfields_eq {maxlen : Nat} (small : maxlen < 2 ^ 32) (fields : List ((f : Bitfield) × BitVec f.t.width))
    {pos : BitPos} (low : pos.bit < 8) (room : pos.place + Bitfields.size (fields.map (·.1)) ≤ 8 * maxlen)
    (m : Mem Byte) : encodeBitfields maxlen pos m fields =
      some (.ofPlace (pos.place + Bitfields.size (fields.map (·.1))),
        m.putBits pos.place (Bitfields.bits fields)) := by
  induction fields generalizing pos m with
  | nil =>
      rw [encodeBitfields, List.map_nil, Bitfields.size, List.map_nil, List.sum_nil, Nat.add_zero,
        BitPos.ofPlace_place low]
      rfl
  | cons field fields ih =>
      obtain ⟨f, v⟩ := field
      have total : Bitfields.size ((⟨f, v⟩ :: fields : List ((f : Bitfield) × BitVec f.t.width)).map (·.1)) =
          f.numbits + Bitfields.size (fields.map (·.1)) := List.sum_cons
      rw [total] at room ⊢
      have narrow : f.numbits ≤ 64 := f.narrow.trans (width_le f.t)
      have positive := f.positive
      have fits : (pos.place + f.numbits) / 8 < 2 ^ 32 := by omega
      have place : pos.place = 8 * pos.byte + pos.bit := rfl
      have left : u32Sub maxlen pos.byte = maxlen - pos.byte := u32Sub_of_le small (by omega)
      have first := @encodeArrayBits_putBits m _ low _ (u32Sub maxlen pos.byte) v.toNat
        (show f.numbits < 2 ^ 31 by omega) (by rw [left]; omega) fits
      have nonneg : ¬ ((f.numbits : Int) < 0) := Int.not_lt.mpr (Int.natCast_nonneg _)
      rw [encodeBitfields]
      simp only [first]
      rw [if_neg nonneg, Int.toNat_natCast, bitfieldAdvanceOffset_place low fits, ih (Nat.mod_lt _ (by decide))
        (by rw [BitPos.place_ofPlace]; omega), BitPos.place_ofPlace, Nat.add_assoc, Bitfields.bits, Bitfields.bits,
          List.flatMap_cons,
        Mem.putBits_append, toBits_length]

def BitsType.toInt : (t : BitsType) → BitVec t.width → Int
  | byte, v => v.toNat
  | int8_t, v => v.toInt
  | int16_t, v => v.toInt
  | int32_t, v => v.toInt
  | int64_t, v => v.toInt

theorem toInt_fieldValue {t : BitsType} (signExtend : Bool) (listed : signExtend = true → t ≠ .byte) (b : Bool)
    (bs : List Bool) (narrow : bs.length + 1 ≤ t.width) :
    t.toInt (BitVec.ofInt t.width (fieldValue signExtend (b :: bs))) = fieldValue signExtend (b :: bs) -
      if signExtend = false ∧ b = true ∧ t ≠ .byte ∧ bs.length + 1 = t.width then 2 ^ t.width else 0 := by
  have wrapped (n : Nat) (fits : bs.length ≤ n) :
      (BitVec.ofInt (n + 1) (fieldValue signExtend (b :: bs))).toInt = fieldValue signExtend (b :: bs) -
        if signExtend = false ∧ b = true ∧ bs.length = n then 2 ^ (n + 1) else 0 := by
    rw [BitVec.toInt_ofInt, bmod_fieldValue signExtend b bs fits]
  have typed {n : Nat} (other : t ≠ .byte) (width : t.width = n + 1) :
      (signExtend = false ∧ b = true ∧ t ≠ .byte ∧ bs.length + 1 = t.width) =
        (signExtend = false ∧ b = true ∧ bs.length = n) := by
    rw [width, eq_true other, true_and, Nat.add_right_cancel_iff]
  cases t with
  | byte =>
      have unsigned : signExtend = false := Bool.eq_false_iff.mpr fun sign => listed sign rfl
      have lt := (fieldValue_lt signExtend (b :: bs)).2
      have power : (2 : Int) ^ (b :: bs).length ≤ 2 ^ 8 := by
        exact_mod_cast Nat.pow_le_pow_right (by decide) narrow
      have nonneg : 0 ≤ fieldValue signExtend (b :: bs) := by
        rw [unsigned]
        exact Int.natCast_nonneg _
      have whole : ((fieldValue signExtend (b :: bs) % (2 ^ 8 : Nat)).toNat : Int) =
          fieldValue signExtend (b :: bs) := by
        omega
      rw [BitsType.toInt, BitVec.toNat_ofInt, whole, if_neg (fun all => all.2.2.1 rfl), Int.sub_zero]
  | int8_t =>
      simp only [typed (n := 7) (by decide) rfl]
      exact wrapped 7 (Nat.le_of_succ_le_succ narrow)
  | int16_t =>
      simp only [typed (n := 15) (by decide) rfl]
      exact wrapped 15 (Nat.le_of_succ_le_succ narrow)
  | int32_t =>
      simp only [typed (n := 31) (by decide) rfl]
      exact wrapped 31 (Nat.le_of_succ_le_succ narrow)
  | int64_t =>
      simp only [typed (n := 63) (by decide) rfl]
      exact wrapped 63 (Nat.le_of_succ_le_succ narrow)

def AllAt {α : Type} (width : α → Nat) (condition : Nat → α → Prop) : Nat → List α → Prop
  | _, [] => True
  | place, x :: xs => condition place x ∧ AllAt width condition (place + width x) xs

def Bitfields.Values.ints (values : Bitfields.Values) : List Int := values.map fun value => value.1.toInt value.2

def Bitfield.value (f : Bitfield) (buf : Mem Byte) (place : Nat) : BitVec f.t.width :=
  BitVec.ofInt f.t.width (fieldValue f.signExtend (buf.bits place f.numbits))

def Bitfields.valuesAt (buf : Mem Byte) : Nat → List Bitfield → Bitfields.Values
  | _, [] => []
  | place, f :: fs => ⟨f.t, f.value buf place⟩ :: valuesAt buf (place + f.numbits) fs

theorem decodeBitfields_eq {maxlen : Nat} (small : maxlen < 2 ^ 32) (buf : Mem Byte)
    (ps : (t : BitsType) → Mem (BitVec t.width)) (fs : List Bitfield) {pos : BitPos} (low : pos.bit < 8)
    (room : pos.place + Bitfields.size fs ≤ 8 * maxlen) :
    decodeBitfields buf maxlen ps pos fs =
      some (Bitfields.valuesAt buf pos.place fs, .ofPlace (pos.place + Bitfields.size fs)) := by
  induction fs generalizing pos with
  | nil =>
      rw [decodeBitfields, Bitfields.size, List.map_nil, List.sum_nil, Nat.add_zero, BitPos.ofPlace_place low]
      rfl
  | cons f fs ih =>
      have total : Bitfields.size (f :: fs) = f.numbits + Bitfields.size fs := List.sum_cons
      rw [total] at room ⊢
      have narrow : f.numbits ≤ 64 := f.narrow.trans (width_le f.t)
      have positive := f.positive
      have fits : (pos.place + f.numbits) / 8 < 2 ^ 32 := by omega
      have place : pos.place = 8 * pos.byte + pos.bit := rfl
      have left : u32Sub maxlen pos.byte = maxlen - pos.byte := u32Sub_of_le small (by omega)
      have one := @decodeArrayBits_one f.t f.signExtend buf _ pos.byte pos.bit (u32Sub maxlen pos.byte)
        (ps f.t) narrow low (by rw [left]; omega)
      rw [decodeBits_eq f.t f.signExtend buf f.positive low (by omega)] at one
      have nonneg : ¬ ((f.numbits : Int) < 0) := Int.not_lt.mpr (Int.natCast_nonneg _)
      rw [decodeBitfields]
      simp only [one]
      rw [if_neg nonneg, Int.toNat_natCast, bitfieldAdvanceOffset_place low fits, ih (Nat.mod_lt _ (by decide))
        (by rw [BitPos.place_ofPlace]; omega), BitPos.place_ofPlace, Nat.add_assoc, Mem.set_self]
      rfl

end Zcm.Coretypes
