import Zcm.Java.InputStream
import Zcm.Coretypes.DecodeExact

namespace Zcm.Java
open Zcm.Lib Zcm.Coretypes

section Words

theorem unsigned_eq (b : Byte) : unsigned b = b.setWidth 32 := by
  revert b
  decide

theorem getLsbD_signExtend_shr (b : Byte) {w n i : Nat} (wide : 8 ≤ w) (lt : i < w) :
    ((b.signExtend w).sshiftRight n).getLsbD i = if n + i < 8 then b.getLsbD (n + i) else b.msb := by
  rw [BitVec.getLsbD_sshiftRight, BitVec.msb_signExtend, BitVec.getLsbD_signExtend]
  grind

theorem signed_shr (b : Byte) (n : Nat) {w : Nat} (le : w ≤ 32) :
    ((b.signExtend 32).sshiftRight n).setWidth w = ((b.signExtend 64).sshiftRight n).setWidth w := by
  apply BitVec.eq_of_getLsbD_eq
  intro i lt
  rw [BitVec.getLsbD_setWidth, BitVec.getLsbD_setWidth, getLsbD_signExtend_shr b (by omega) (by omega),
    getLsbD_signExtend_shr b (by omega) (by omega)]

theorem signed_shr_long (b : Byte) (n : Nat) :
    ((b.signExtend 32).sshiftRight n).signExtend 64 = (b.signExtend 64).sshiftRight n := by
  apply BitVec.eq_of_getLsbD_eq
  intro i lt
  rw [BitVec.getLsbD_signExtend, getLsbD_signExtend_shr b (by omega) lt, BitVec.msb_sshiftRight, BitVec.msb_signExtend]
  by_cases low : i < 32
  · rw [if_pos low, getLsbD_signExtend_shr b (by omega) low]
    simp [lt]
  · have high : ¬ n + i < 8 := by omega
    rw [if_neg low, if_neg high]
    simp [lt]

theorem unsigned_ushr (b : Byte) (n w : Nat) :
    (b.setWidth 32 >>> n).setWidth w = (b.setWidth 64 >>> n).setWidth w := by
  apply BitVec.eq_of_getLsbD_eq
  intro i lt
  simp only [BitVec.getLsbD_setWidth, BitVec.getLsbD_ushiftRight]
  grind

theorem unsigned_ushr_long (b : Byte) (n : Nat) : (b.setWidth 32 >>> n).signExtend 64 = b.setWidth 64 >>> n := by
  rw [BitVec.signExtend_eq_setWidth_of_msb_false, unsigned_ushr, BitVec.setWidth_eq]
  rw [BitVec.msb_eq_getLsbD_last, BitVec.getLsbD_ushiftRight, BitVec.getLsbD_setWidth]
  grind

theorem unsigned_sshiftRight (b : Byte) (n : Nat) : (b.setWidth 64).sshiftRight n = b.setWidth 64 >>> n := by
  apply BitVec.sshiftRight_eq_of_msb_false
  rw [BitVec.msb_eq_getLsbD_last, BitVec.getLsbD_setWidth]
  grind

theorem unsigned_long (b : Byte) : (b.setWidth 32).signExtend 64 = b.setWidth 64 := unsigned_ushr_long b 0

variable {w : Nat} (x : BitVec w) {distance : Int}

theorem shl_of_lt (pos : 0 ≤ distance) (lt : distance < w) : shl x distance = x <<< distance.toNat := by
  rw [shl, Int.emod_eq_of_lt pos lt]

theorem shr_of_lt (pos : 0 ≤ distance) (lt : distance < w) : shr x distance = x.sshiftRight distance.toNat := by
  rw [shr, Int.emod_eq_of_lt pos lt]

theorem ushr_of_lt (pos : 0 ≤ distance) (lt : distance < w) : ushr x distance = x >>> distance.toNat := by
  rw [ushr, Int.emod_eq_of_lt pos lt]

end Words

section Rounds

open ZCMDataInputStream

theorem mask_eq {pos_bit covered : Nat} (le : pos_bit + covered ≤ 8) :
    mask pos_bit covered = bitsMask pos_bit covered := by
  have distance : ((8 : Int) - covered - pos_bit).toNat = 8 - covered - pos_bit := by omega
  rw [mask, bitsMask, shl_of_lt _ (by omega) (by omega), shl_of_lt _ (by omega) (by omega), distance]
  rfl

theorem payload_eq (b : Byte) {pos_bit covered : Nat} (le : pos_bit + covered ≤ 8) :
    payload b pos_bit covered = bitsPayload b pos_bit covered := by
  have narrow (x : Byte) : (x.setWidth 32).setWidth 8 = x := BitVec.setWidth_setWidth_of_le x (by decide)
  rw [payload, bitsPayload, mask_eq le, shl_of_lt _ (by omega) (by omega), BitVec.setWidth_shiftLeft_of_le (by decide),
    BitVec.setWidth_shiftLeft_of_le (by decide), BitVec.setWidth_and, BitVec.setWidth_and, narrow, narrow, signed,
      signed,
    signExtend_setWidth _ (by decide), signExtend_setWidth _ (by decide), BitVec.signExtend_eq, BitVec.signExtend_eq]
  rfl

structure Agree (t : BitsType) (signExtend : Bool) (first later : Byte → Int → BitVec t.width) : Prop where
  first : ∀ payload (shift : Int), 8 ≤ shift + t.width → shift < 8 → first payload shift =
    firstChunk t signExtend payload shift
  later : ∀ p payload (shift : Int), 8 ≤ shift + t.width → shift < 8 →
    p ||| later payload shift = laterChunk t p payload shift

theorem agree_of_narrow {t : BitsType} (signExtend : Bool) (narrow : t.width ≤ 32)
    {first later : Byte → Int → BitVec t.width}
    (firstLeft : ∀ payload (shift : Int), shift < 0 → 8 ≤ shift + t.width → first payload shift =
      (shl (if signExtend then signed payload else unsigned payload) (-shift)).setWidth t.width)
    (firstRight : ∀ payload (shift : Int), 0 ≤ shift → first payload shift =
      if signExtend then (shr (signed payload) shift).setWidth t.width
      else (ushr (unsigned payload) shift).setWidth t.width)
    (laterLeft : ∀ payload (shift : Int), shift < 0 → later payload shift =
      (shl (unsigned payload) (-shift)).setWidth t.width)
    (laterRight : ∀ payload (shift : Int), 0 ≤ shift → later payload shift =
      (ushr (unsigned payload) shift).setWidth t.width) :
    Agree t signExtend first later := by
  have long : t.width ≤ 64 := narrow.trans (by decide)
  have zeros (b : Byte) : (b.setWidth 32).setWidth t.width = (b.setWidth 64).setWidth t.width := by
    exact unsigned_ushr b 0 t.width
  constructor
  · intro payload shift wide lt
    by_cases neg : shift < 0
    · rw [firstLeft _ _ neg wide, firstChunk, if_pos neg, shl_of_lt _ (by omega) (by omega),
        BitVec.setWidth_shiftLeft_of_le narrow, BitVec.setWidth_shiftLeft_of_le long, widened]
      cases signExtend with
      | false => rw [if_neg Bool.false_ne_true, if_neg Bool.false_ne_true, unsigned_eq, zeros]
      | true => rw [if_pos rfl, if_pos rfl, signed, signExtend_setWidth _ narrow, signExtend_setWidth _ long]
    · rw [firstRight _ _ (by omega), firstChunk, if_neg neg, widened]
      cases signExtend with
      | false =>
          rw [if_neg Bool.false_ne_true, if_neg Bool.false_ne_true, ushr_of_lt _ (by omega) (by omega), unsigned_eq,
            unsigned_ushr, unsigned_sshiftRight]
      | true => rw [if_pos rfl, if_pos rfl, shr_of_lt _ (by omega) (by omega), signed, signed_shr _ _ narrow]
  · intro p payload shift wide lt
    by_cases neg : shift < 0
    · rw [laterLeft _ _ neg, laterChunk, if_pos neg, BitVec.setWidth_or, promote_setWidth, unsigned_eq,
        shl_of_lt _ (by omega) (by omega), BitVec.setWidth_shiftLeft_of_le narrow, BitVec.setWidth_shiftLeft_of_le long,
        zeros]
    · rw [laterRight _ _ (by omega), laterChunk, if_neg neg, BitVec.setWidth_or, promote_setWidth, unsigned_eq,
        ushr_of_lt _ (by omega) (by omega), unsigned_ushr]

theorem agree_long (signExtend : Bool) : Agree .int64_t signExtend
    (fun payload shift =>
      if shift < 0 then
        if signExtend then shl ((signed payload).signExtend 64) (-shift)
        else shl ((unsigned payload).signExtend 64) (-shift)
      else if signExtend then (shr (signed payload) shift).signExtend 64
      else (ushr (unsigned payload) shift).signExtend 64)
    (fun payload shift =>
      if shift < 0 then shl ((unsigned payload).signExtend 64) (-shift)
      else (ushr (unsigned payload) shift).signExtend 64) := by
  have signs (b : Byte) : (signed b).signExtend 64 = b.signExtend 64 := by
    simpa [signed] using signed_shr_long b 0
  constructor
  · intro payload shift wide lt
    by_cases neg : shift < 0
    · rw [if_pos neg, firstChunk, if_pos neg, BitVec.setWidth_eq, widened]
      cases signExtend with
      | false => rw [if_neg Bool.false_ne_true, if_neg Bool.false_ne_true, unsigned_eq, unsigned_long,
          shl_of_lt _ (by omega) (by omega)]
      | true => rw [if_pos rfl, if_pos rfl, signs, shl_of_lt _ (by omega) (by omega)]
    · rw [if_neg neg, firstChunk, if_neg neg, BitVec.setWidth_eq, widened]
      cases signExtend with
      | false => rw [if_neg Bool.false_ne_true, if_neg Bool.false_ne_true, unsigned_eq, unsigned_sshiftRight,
          ushr_of_lt _ (by omega) (by omega), unsigned_ushr_long]
      | true => rw [if_pos rfl, if_pos rfl, shr_of_lt _ (by omega) (by omega), signed, signed_shr_long]
  · intro p payload shift wide lt
    by_cases neg : shift < 0
    · rw [if_pos neg, laterChunk, if_pos neg, BitVec.setWidth_or, promote_setWidth, BitVec.setWidth_eq, unsigned_eq,
        unsigned_long, shl_of_lt _ (by omega) (by omega)]
    · rw [if_neg neg, laterChunk, if_neg neg, BitVec.setWidth_or, promote_setWidth, BitVec.setWidth_eq, unsigned_eq,
        ushr_of_lt _ (by omega) (by omega), unsigned_ushr_long]

end Rounds

section Loop

variable {t : BitsType} {signExtend : Bool} {first later : Byte → Int → BitVec t.width}

def ZCMDataInputStream.moved (s : ZCMDataInputStream) (pos : BitPos) : ZCMDataInputStream :=
  { s with pos_byte := pos.byte, pos_bit := pos.bit }

/-- The loops go side by side. The bits that are left lie inside the array, so that the index is never out of it and
the position never wraps. -/
theorem readBitsLoop_eq (agree : Agree t signExtend first later) {numbits : Nat}
    (narrow : numbits ≤ t.width) (rounds bitsLeft : Nat) (ret : BitVec t.width) (s : ZCMDataInputStream)
    (enough : bitsLeft ≤ rounds) (rest : bitsLeft ≤ numbits) (bit : s.pos_bit < 8)
    (inside : 8 * s.pos_byte + s.pos_bit + bitsLeft ≤ 8 * s.length) :
    ∃ pos v, decodeBits t signExtend s.buf numbits rounds bitsLeft ⟨s.pos_byte, s.pos_bit⟩ ret = (pos, v) ∧
      ZCMDataInputStream.readBitsLoop first later numbits rounds bitsLeft ret s = some (v, s.moved pos) ∧
      pos.bit < 8 ∧ 8 * pos.byte + pos.bit = 8 * s.pos_byte + s.pos_bit + bitsLeft := by
  induction rounds generalizing bitsLeft ret s with
  | zero =>
      obtain rfl : bitsLeft = 0 := by omega
      exact ⟨⟨s.pos_byte, s.pos_bit⟩, ret, rfl, rfl, bit, rfl⟩
  | succ rounds ih =>
      rw [decodeBits, ZCMDataInputStream.readBitsLoop]
      by_cases done : bitsLeft = 0
      · rw [if_pos done, if_pos done]
        exact ⟨⟨s.pos_byte, s.pos_bit⟩, ret, rfl, rfl, bit, by rw [done]; rfl⟩
      · have indexed := s.indexed
        rw [if_neg done, if_neg done, if_neg (by omega)]
        simp only
        generalize covers : (if 8 - s.pos_bit < bitsLeft then 8 - s.pos_bit else bitsLeft) = covered
        have some : 0 < covered ∧ covered ≤ bitsLeft ∧ s.pos_bit + covered ≤ 8 := by
          rw [← covers]
          split <;> omega
        rw [payload_eq _ some.2.2, u32_of_lt (by omega)]
        have same (payload : Byte) : (if bitsLeft = numbits then first payload (8 - bitsLeft)
            else ret ||| later payload (8 - bitsLeft)) = if bitsLeft = numbits
              then firstChunk t signExtend payload (8 - bitsLeft) else laterChunk t ret payload (8 - bitsLeft) := by
          rw [agree.first _ _ (by omega) (by omega), agree.later _ _ _ (by omega) (by omega)]
        rw [same]
        by_cases whole : s.pos_bit + covered = 8
        · rw [if_pos whole, if_pos whole]
          obtain ⟨pos, v, decoded, read, low, value⟩ := ih (bitsLeft - covered) _
            { s with pos_byte := s.pos_byte + 1, pos_bit := 0 } (by omega) (by omega) (by simp) (by simp only; omega)
          exact ⟨pos, v, decoded, read, low, by simp only at value; omega⟩
        · rw [if_neg whole, if_neg whole]
          obtain ⟨pos, v, decoded, read, low, value⟩ := ih (bitsLeft - covered) _
            { s with pos_bit := s.pos_bit + covered } (by omega) (by omega) (by simp only; omega) (by simp only; omega)
          exact ⟨pos, v, decoded, read, low, by simp only at value; omega⟩

theorem readBits_eq (t : BitsType) (signExtend : Bool) {numbits : Nat} (narrow : numbits ≤ t.width)
    (old : BitVec t.width)
    (s : ZCMDataInputStream) (positive : 1 ≤ numbits) (bit : s.pos_bit < 8)
    (inside : 8 * s.pos_byte + s.pos_bit + numbits ≤ 8 * s.length) :
    ∃ pos v, decodeBits t signExtend s.buf numbits numbits numbits ⟨s.pos_byte, s.pos_bit⟩ old = (pos, v) ∧
      s.readBits numbits signExtend t = some (v, s.moved pos) ∧
      pos.bit < 8 ∧ 8 * pos.byte + pos.bit = 8 * s.pos_byte + s.pos_bit + numbits := by
  rw [decodeBits_forgets t signExtend s.buf positive _ old 0]
  cases t with
  | byte | int8_t =>
      refine readBitsLoop_eq
        (agree_of_narrow signExtend (by decide) ?_ ?_ ?_ ?_) narrow numbits numbits 0 s le_rfl le_rfl
        bit inside
      · intro payload shift neg wide
        simp only [BitsType.width] at wide
        omega
      · intro payload shift right
        exact if_neg (by omega)
      · intro payload shift neg
        exact if_pos neg
      · intro payload shift right
        exact if_neg (by omega)
  | int16_t | int32_t =>
      refine readBitsLoop_eq
        (agree_of_narrow signExtend (by decide) ?_ ?_ ?_ ?_) narrow numbits numbits 0 s le_rfl le_rfl
        bit inside
      · intro payload shift neg wide
        rw [if_pos neg]
        split <;> rfl
      · intro payload shift right
        exact if_neg (by omega)
      · intro payload shift neg
        exact if_pos neg
      · intro payload shift right
        exact if_neg (by omega)
  | int64_t => exact readBitsLoop_eq (agree_long signExtend) narrow numbits numbits 0 s le_rfl le_rfl bit inside

end Loop

section Calls

variable (s : ZCMDataInputStream) (f : Bitfield)

theorem readBits_decodeArrayBits (bit : s.pos_bit < 8)
    (inside : 8 * s.pos_byte + s.pos_bit + f.numbits ≤ 8 * s.length) :
    ∃ v, s.readBits f.numbits f.signExtend f.t =
        some (v, s.moved (bitfieldAdvanceOffset ⟨s.pos_byte, s.pos_bit⟩ f.numbits)) ∧
      ∀ (ps : Mem (BitVec f.t.width)) (maxbytes : Nat), s.pos_bit + f.numbits ≤ 8 * maxbytes →
        decodeArrayBits f.t f.signExtend s.buf s.pos_byte s.pos_bit maxbytes ps 1 f.numbits =
          ((f.numbits : Int), ps.set 0 v) := by
  have small : f.numbits ≤ 64 := f.narrow.trans (width_le f.t)
  have indexed := s.indexed
  obtain ⟨pos, v, decoded, read, low, value⟩ :=
    readBits_eq f.t f.signExtend f.narrow 0 s f.positive bit inside
  have advanced := @bitfieldAdvanceOffset_value s.pos_byte s.pos_bit f.numbits bit (by omega)
  obtain rfl : bitfieldAdvanceOffset ⟨s.pos_byte, s.pos_bit⟩ f.numbits = pos :=
    bitPos_eq advanced.1 low (advanced.2.trans value.symm)
  refine ⟨v, read, ?_⟩
  intro ps maxbytes room
  obtain ⟨pos', v', decoded', read', _⟩ := readBits_eq f.t f.signExtend f.narrow (ps 0) s f.positive bit inside
  obtain rfl : v' = v := by
    rw [read] at read'
    exact (congrArg Prod.fst (Option.some.inj read')).symm
  rw [decodeArrayBits_one _ _ _ _ small bit room, decoded']

end Calls

/-- The readers of bits give the values of the C decoders, and leave the stream where the position of C is: for one
read, and for reads one after another. -/
theorem readBits_as_decodeArrayBits (s : ZCMDataInputStream) (bit : s.pos_bit < 8) :
    (∀ f : Bitfield, 8 * s.pos_byte + s.pos_bit + f.numbits ≤ 8 * s.length →
      ∃ v, s.readBits f.numbits f.signExtend f.t =
          some (v, s.moved (bitfieldAdvanceOffset ⟨s.pos_byte, s.pos_bit⟩ f.numbits)) ∧
        ∀ (ps : Mem (BitVec f.t.width)) (maxbytes : Nat), s.pos_bit + f.numbits ≤ 8 * maxbytes →
          decodeArrayBits f.t f.signExtend s.buf s.pos_byte s.pos_bit maxbytes ps 1 f.numbits =
            ((f.numbits : Int), ps.set 0 v)) ∧
    ∀ fs : List Bitfield, 8 * s.pos_byte + s.pos_bit + (fs.map (·.numbits)).sum ≤ 8 * s.length →
      ∃ values pos, s.readBitfields fs = some (values, s.moved pos) ∧
        ∀ ps, decodeBitfields s.buf s.length ps ⟨s.pos_byte, s.pos_bit⟩ fs = some (values, pos) := by
  refine ⟨fun f inside => readBits_decodeArrayBits s f bit inside, ?_⟩
  intro fs inside
  induction fs generalizing s with
  | nil => exact ⟨[], ⟨s.pos_byte, s.pos_bit⟩, rfl, fun ps => rfl⟩
  | cons f fs ih =>
      rw [List.map_cons, List.sum_cons] at inside
      obtain ⟨v, read, decoded⟩ := readBits_decodeArrayBits s f bit (by omega)
      have advanced := @bitfieldAdvanceOffset_value s.pos_byte s.pos_bit f.numbits bit
        (by have := s.indexed; omega)
      generalize advance : bitfieldAdvanceOffset ⟨s.pos_byte, s.pos_bit⟩ f.numbits = next at read advanced
      obtain ⟨values, pos, reads, decodes⟩ := ih (s.moved next) advanced.1
        (by simp only [ZCMDataInputStream.moved]; omega)
      refine ⟨⟨f.t, v⟩ :: values, pos, ?_, ?_⟩
      · rw [ZCMDataInputStream.readBitfields, read]
        simp only [Option.bind_eq_bind, Option.bind_some, reads]
        rfl
      · intro ps
        have indexed := s.indexed
        have room : u32Sub s.length s.pos_byte = s.length - s.pos_byte := u32Sub_of_le (by omega) (by omega)
        have one := decoded (ps f.t) (u32Sub s.length s.pos_byte) (by rw [room]; omega)
        rw [decodeBitfields]
        simp only [one]
        rw [if_neg (Int.not_lt.mpr (Int.natCast_nonneg f.numbits)), Int.toNat_natCast, advance]
        have rest := decodes ps
        simp only [ZCMDataInputStream.moved] at rest
        rw [rest]
        rfl

/-- Three bytes of which eleven bits are read with their sign, from the sixth bit on, and then three without. -/
def crossing : ZCMDataInputStream := ⟨fun a => if a = 0 then 0x05 else 0xa3, 3, 0, 5, by decide⟩

def crossingFields : List Bitfield :=
  [⟨.int16_t, true, 11, by decide, by decide, by decide⟩, ⟨.byte, false, 3, by decide, by decide, by decide⟩]

example : (crossing.readBits 11 true .int16_t).map (·.1) = some (-605#16) := by decide

theorem readBits_crossing :
    ∃ values pos, crossing.readBitfields crossingFields = some (values, crossing.moved pos) ∧
    ∀ ps, decodeBitfields crossing.buf 3 ps ⟨0, 5⟩ crossingFields = some (values, pos) :=
  (readBits_as_decodeArrayBits crossing (by decide)).2 crossingFields (by decide)

end Zcm.Java
