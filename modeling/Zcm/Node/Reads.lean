import Zcm.Coretypes.Bitfields
import Zcm.Node.Writes

namespace Zcm.Node
open Zcm.Lib Zcm.Lib.Js Zcm.Coretypes Methods

def retValue (numbits : Nat) (x : Int) : Value :=
  if numbits > 32 then .bigint x else .number (BitVec.ofInt 32 x).toInt

section Round

variable (signExtend : Bool) {bs : List Bool}

theorem readPayload_eq (m : Mem Byte) (a : Nat) {k c : Nat} (le : k + c ≤ 8) :
    readPayload (m a).toNat k c = (ofBits (m.bits (8 * a + k) c) * 2 ^ (8 - c) : Nat) := by
  have ones : ∀ n ≤ 8, shl 1 (n : Nat) - 1 = ((2 ^ n - 1 : Nat) : Int) := by decide
  have distance : (8 : Int) - c - k = (8 - k - c : Nat) := by omega
  have power : 2 ^ c ≤ 2 ^ 8 := Nat.pow_le_pow_right (by decide) (by omega)
  have power' : 2 ^ (8 - k - c) ≤ 2 ^ 8 := Nat.pow_le_pow_right (by decide) (by omega)
  have maskLt : (2 ^ c - 1) * 2 ^ (8 - k - c) < 2 ^ 31 := by
    calc (2 ^ c - 1) * 2 ^ (8 - k - c) ≤ 2 ^ 8 * 2 ^ 8 := Nat.mul_le_mul (by omega) power'
      _ < 2 ^ 31 := by decide
  have low := (m a).isLt
  have bits := m.ofBits_bits_byte a (k := k) (c := c) le
  have value : ofBits (m.bits (8 * a + k) c) * 2 ^ (8 - k - c) * 2 ^ k =
      ofBits (m.bits (8 * a + k) c) * 2 ^ (8 - c) := by
    rw [Nat.mul_assoc, ← Nat.pow_add]
    congr 2
    omega
  have lt := ofBits_lt (m.bits (8 * a + k) c)
  rw [Mem.bits_length] at lt
  have small : ofBits (m.bits (8 * a + k) c) * 2 ^ (8 - k - c) * 2 ^ k < 2 ^ 31 := by
    rw [value]
    calc ofBits (m.bits (8 * a + k) c) * 2 ^ (8 - c) < 2 ^ c * 2 ^ (8 - c) :=
          Nat.mul_lt_mul_of_pos_right lt (Nat.two_pow_pos _)
      _ = 2 ^ 8 := by rw [← Nat.pow_add, Nat.add_sub_cancel' (by omega)]
      _ < 2 ^ 31 := by decide
  rw [readPayload, readMask, ones c (by omega), distance, shl_natCast (by omega) maskLt, and_natCast maskLt,
    and_ones, ← bits, shl_natCast (by omega) small, value]

variable (short : bs.length ≤ 8)

include short in
theorem signExtended_eq (nonempty : bs ≠ []) :
    signExtended signExtend (ofBits bs * 2 ^ (8 - bs.length) : Nat) =
      fieldValue signExtend bs * 2 ^ (8 - bs.length) := by
  have signed : ∀ b : Byte, shr (shl b.toNat 24) 24 = Int.bmod b.toNat (2 ^ 8) := by decide
  have unsigned : ∀ b : Byte, ushr (shl b.toNat 24) 24 = b.toNat := by decide
  obtain ⟨b, byte⟩ : ∃ b : Byte, b.toNat = ofBits bs * 2 ^ (8 - bs.length) :=
    ⟨byteOf bs, byteOf_toNat short⟩
  rw [signExtended, fieldValue, ← byte]
  cases signExtend with
  | false =>
      rw [if_neg Bool.false_ne_true, if_neg Bool.false_ne_true, unsigned, byte]
      push_cast
      rfl
  | true =>
      have value := @bmod_append (ofBits bs) bs.length 0 (8 - bs.length) (List.length_pos_iff.mpr nonempty)
        (ofBits_lt bs)
        (Nat.two_pow_pos _)
      rw [Nat.add_zero, Nat.add_sub_cancel' short, Int.natCast_zero, Int.add_zero] at value
      rw [if_pos rfl, if_pos rfl, signed, byte, value]

variable {numbits left : Nat} (le : bs.length ≤ left)

include short le in
theorem payload_split (right : left ≤ 8) :
    ofBits bs * 2 ^ (8 - bs.length) = ofBits bs * 2 ^ (left - bs.length) * 2 ^ (8 - left) := by
  rw [Nat.mul_assoc, ← Nat.pow_add]
  congr 2
  omega

include short le in
theorem payload_shl (wide : 8 ≤ left) :
    ofBits bs * 2 ^ (8 - bs.length) * 2 ^ (left - 8) = ofBits bs * 2 ^ (left - bs.length) := by
  rw [Nat.mul_assoc, ← Nat.pow_add]
  congr 2
  omega

include short le in
theorem firstRet_eq (nonempty : bs ≠ []) (enough : numbits ≤ 64) (whole : left = numbits) :
    firstRet numbits signExtend (ofBits bs * 2 ^ (8 - bs.length) : Nat) (8 - left) =
      retValue numbits (fieldValue signExtend bs * 2 ^ (left - bs.length)) := by
  obtain ⟨low, high⟩ := fieldValue_top signExtend bs (8 - bs.length)
  rw [Nat.add_sub_cancel' short] at low high
  rw [firstRet, retValue, signExtended_eq signExtend short nonempty]
  split
  next big =>
      have distance : (8 : Int) - left = -((left - 8 : Nat) : Int) := by omega
      have power : 8 - bs.length + (left - 8) = left - bs.length := by omega
      have cast : ((2 ^ (left - 8) : Nat) : Int) = 2 ^ (left - 8) := by push_cast; rfl
      rw [distance, Int.shiftRight_neg, Int.shiftLeft_eq_mul_pow, cast, Int.mul_assoc, ← pow_add, power]
  next small =>
      split
      next shorter =>
          have distance : -((8 : Int) - left) = ((left - 8 : Nat) : Int) := by omega
          have power : 8 - bs.length + (left - 8) = left - bs.length := by omega
          have word : (((left - 8 : Nat) : Int) % 32).toNat = left - 8 := by omega
          rw [shl, distance, word, toInt32, ← ofInt_mul_two_pow, Int.mul_assoc, ← pow_add, power]
      next right =>
          have distance : (8 : Int) - left = ((8 - left : Nat) : Int) := by omega
          have word : (((8 - left : Nat) : Int) % 32).toNat = 8 - left := by omega
          have power : 8 - bs.length = left - bs.length + (8 - left) := by omega
          cases signExtend with
          | false =>
              have less := top_lt short
              rw [payload_split short le (by omega)] at less
              have lower : ofBits bs * 2 ^ (left - bs.length) < 2 ^ 31 :=
                (Nat.le_mul_of_pos_right _ (Nat.two_pow_pos _)).trans_lt (less.trans (by decide))
              have shifted := ushr_natCast (show 8 - left < 32 by omega) (less.trans (show 2 ^ 8 < 2 ^ 32 by decide))
              rw [Nat.mul_div_cancel _ (Nat.two_pow_pos _)] at shifted
              have value (n : Nat) : fieldValue false bs * 2 ^ n = (ofBits bs * 2 ^ n : Nat) := by
                push_cast
                rfl
              rw [if_neg Bool.false_ne_true, value, value, payload_split short le (by omega), distance,
                shifted, BitVec.ofInt_natCast, toInt_ofNat32 lower]
          | true =>
              rw [power, pow_add, ← Int.mul_assoc] at low high
              rw [if_pos rfl, shr, distance, word, toInt32, power, pow_add, ← Int.mul_assoc,
                ofInt_sshiftRight (by omega) (by omega)]

include short le in
theorem laterRet_eq (x : Int) (enough : left < numbits) :
    laterRet numbits (retValue numbits (x * 2 ^ left)) (ofBits bs * 2 ^ (8 - bs.length) : Nat) (8 - left) =
      retValue numbits (x * 2 ^ left + (ofBits bs * 2 ^ (left - bs.length) : Nat)) := by
  have lt : ofBits bs * 2 ^ (left - bs.length) < 2 ^ left := by
    calc ofBits bs * 2 ^ (left - bs.length) < 2 ^ bs.length * 2 ^ (left - bs.length) :=
          Nat.mul_lt_mul_of_pos_right (ofBits_lt bs) (Nat.two_pow_pos _)
      _ = 2 ^ left := by rw [← Nat.pow_add, Nat.add_sub_cancel' le]
  have top := top_lt short
  rw [laterRet, retValue, retValue]
  split
  next big =>
      have shifted : ((ofBits bs * 2 ^ (8 - bs.length) : Nat) : Int) >>> ((8 : Int) - left) =
          (ofBits bs * 2 ^ (left - bs.length) : Nat) := by
        by_cases right : left ≤ 8
        · have distance : (8 : Int) - left = ((8 - left : Nat) : Int) := by omega
          rw [distance, Int.shiftRight_natCast, Nat.shiftRight_eq_div_pow, payload_split short le right,
            Nat.mul_div_cancel _ (Nat.two_pow_pos _)]
        · have distance : (8 : Int) - left = -((left - 8 : Nat) : Int) := by omega
          rw [distance, Int.shiftRight_neg, Int.shiftLeft_natCast, Nat.shiftLeft_eq, payload_shl short le (by omega)]
      rw [shifted, Value.int, lor_low x lt]
  next small =>
      have below : 2 ^ left ≤ 2 ^ 31 := Nat.pow_le_pow_right (by decide) (by omega)
      have joined : Js.or (BitVec.ofInt 32 (x * 2 ^ left)).toInt (ofBits bs * 2 ^ (left - bs.length) : Nat) =
          (BitVec.ofInt 32 (x * 2 ^ left + (ofBits bs * 2 ^ (left - bs.length) : Nat))).toInt := by
        rw [Js.or, toInt32, BitVec.ofInt_toInt, toInt32_natCast, ofInt_or_ofNat x lt]
      split
      next left' =>
          have distance : -((8 : Int) - left) = ((left - 8 : Nat) : Int) := by omega
          have value := payload_shl short le (show 8 ≤ left by omega)
          have shifted := shl_natCast (show left - 8 < 32 by omega) (value ▸ lt.trans_le below)
          rw [Value.int, distance, shifted, value, joined]
      next right =>
          have distance : (8 : Int) - left = ((8 - left : Nat) : Int) := by omega
          have less := top
          rw [payload_split short le (by omega)] at less
          have shifted := ushr_natCast (show 8 - left < 32 by omega) (less.trans (show 2 ^ 8 < 2 ^ 32 by decide))
          rw [Value.int, distance, payload_split short le (by omega), shifted, Nat.mul_div_cancel _ (Nat.two_pow_pos _),
            joined]

end Round

section Loop

variable (signExtend : Bool) (bytes : Mem Byte) (length : Nat)

theorem readBitsLoop_eq (start rounds : Nat) : ∀ (left done : Nat) (s : Methods) (ret : Value),
    left ≤ rounds → s.offset_bit < 8 → s.place = start + done → s.place + left ≤ 8 * s.buf.length →
      done + left ≤ 64 →
    (done ≠ 0 → ret = retValue (done + left) (fieldValue signExtend (s.buf.bytes.bits start done) * 2 ^ left)) →
    0 < done + left →
    readBitsLoop (done + left) signExtend rounds left ret s =
      some (retValue (done + left) (fieldValue signExtend (s.buf.bytes.bits start (done + left))),
        s.moved s.buf.bytes (start + (done + left))) := by
  have finished (done : Nat) (s : Methods) (ret : Value) (low : s.offset_bit < 8) (here : s.place = start + done)
      (some' : 0 < done)
      (value : done ≠ 0 → ret = retValue done (fieldValue signExtend (s.buf.bytes.bits start done) * 2 ^ 0)) :
      some (ret, s) = some (retValue done (fieldValue signExtend (s.buf.bytes.bits start done)),
        s.moved s.buf.bytes (start + done)) := by
    have byte : s.place / 8 = s.offset_byte := by rw [Methods.place]; omega
    have bit : s.place % 8 = s.offset_bit := by rw [Methods.place]; omega
    rw [value (Nat.ne_of_gt some'), pow_zero, Int.mul_one, ← here, Methods.moved, byte, bit]
  induction rounds with
  | zero =>
      intro left done s ret enough low here inside upto value some'
      obtain rfl := Nat.le_zero.mp enough
      exact finished done s ret low here some' value
  | succ rounds ih =>
      intro left done s ret enough low here inside upto value some'
      rw [readBitsLoop]
      by_cases none : left = 0
      · subst none
        rw [if_pos rfl]
        exact finished done s ret low here some' value
      · have size : 8 * s.offset_byte + s.offset_bit = s.place := rfl
        have within : s.offset_byte < s.buf.length := by omega
        rw [if_neg none, Buffer.readUInt8, if_pos within, Option.bind_eq_bind, Option.bind_some]
        simp only
        generalize coveredEq : (if 8 - s.offset_bit < left then 8 - s.offset_bit else left) = covered
        have atMost : covered ≤ 8 - s.offset_bit ∧ covered ≤ left ∧ 0 < covered := by
          split at coveredEq <;> omega
        have total : done + left = done + covered + (left - covered) := by omega
        rw [readPayload_eq s.buf.bytes s.offset_byte (by omega), size, here]
        have length : (s.buf.bytes.bits (start + done) covered).length = covered := Mem.bits_length _ _ _
        have round : (if left = done + left then
            firstRet (done + left) signExtend
              (ofBits (s.buf.bytes.bits (start + done) covered) * 2 ^ (8 - covered) : Nat) (8 - left)
            else laterRet (done + left) ret
              (ofBits (s.buf.bytes.bits (start + done) covered) * 2 ^ (8 - covered) : Nat) (8 - left)) =
            retValue (done + left) (fieldValue signExtend (s.buf.bytes.bits start (done + covered)) *
              2 ^ (left - covered)) := by
          by_cases first : done = 0
          · subst first
            have chunk := @firstRet_eq signExtend (s.buf.bytes.bits (start + 0) covered) (by omega) left left (by omega)
              (Mem.bits_ne_nil _ _ atMost.2.2) (by omega) rfl
            rw [length] at chunk
            rw [if_pos (Nat.zero_add _).symm, Nat.zero_add, Nat.zero_add, chunk, Nat.add_zero]
          · have chunk := @laterRet_eq (s.buf.bytes.bits (start + done) covered) (by omega) (done + left) left
              (by omega) (fieldValue signExtend (s.buf.bytes.bits start done)) (by omega)
            rw [length] at chunk
            have split : left = covered + (left - covered) := by omega
            have power : (2 : Int) ^ left = 2 ^ covered * 2 ^ (left - covered) := by rw [← pow_add, ← split]
            rw [if_neg (by omega), value first, chunk, Mem.bits_add,
              fieldValue_append _ (Mem.bits_ne_nil _ _ (Nat.pos_of_ne_zero first)), length]
            congr 1
            rw [power]
            push_cast
            ring
        rw [round, total]
        split
        next whole =>
            apply ih
            · omega
            · simp
            · simp only [Methods.place]
              omega
            · simp only [Methods.place]
              omega
            · omega
            · intro _
              rfl
            · omega
        next part =>
            apply ih
            · omega
            · simp only
              omega
            · simp only [Methods.place]
              omega
            · simp only [Methods.place]
              omega
            · omega
            · intro _
              rfl
            · omega

theorem readBits_eq {numbits : Nat} (positive : 1 ≤ numbits) (upto : numbits ≤ 64) (s : Methods)
    (low : s.offset_bit < 8) (inside : s.place + numbits ≤ 8 * s.buf.length) :
    readBits numbits signExtend s =
      some (retValue numbits (fieldValue signExtend (s.buf.bytes.bits s.place numbits)),
        s.moved s.buf.bytes (s.place + numbits)) := by
  have run := readBitsLoop_eq signExtend s.place numbits numbits 0 s (.number 0) le_rfl low rfl inside (by omega)
    (fun some' => absurd rfl some') (by omega)
  rwa [Nat.zero_add] at run

end Loop

end Zcm.Node
