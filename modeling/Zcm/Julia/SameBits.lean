import Zcm.Julia.Writes

namespace Zcm.Julia
open Zcm.Lib Zcm.Coretypes

section Round

variable {T : BitsType} {signExtend : Bool} {bs : List Bool} {numbits left : Nat}

/-- How an integer is held: in the type that was asked for, or in a UInt8 when the first payload was not extended. -/
def HeldAs (T : BitsType) (signExtend : Bool) (numbits : Nat) (x : Int) (ret : Number) : Prop :=
  ∃ t, ret = ⟨t, BitVec.ofInt t.width x⟩ ∧
    (t = T ∧ (T = .int8_t → signExtend = true) ∨ t = .byte ∧ signExtend = false ∧ numbits ≤ 8)

theorem ofInt_toInt (t : BitsType) (x : BitVec t.width) : BitVec.ofInt t.width (t.toInt x) = x := by
  cases t with
  | byte => exact (BitVec.ofInt_natCast _ _).trans (by rw [BitVec.ofNat_toNat, BitVec.setWidth_eq])
  | _ => exact BitVec.ofInt_toInt

theorem width_wide (wide : 8 < T.width) : T ≠ .byte ∧ T ≠ .int8_t ∧ 16 ≤ T.width := by
  revert wide
  cases T <;> decide

theorem checked_wide {x : Int} (wide : 8 < T.width) (low : -2 ^ 8 ≤ x) (high : x < 2 ^ 8) :
    checked T x = some (BitVec.ofInt T.width x) := by
  have narrow (n : Nat) (large : 8 ≤ n) : (BitVec.ofInt (n + 1) x).toInt = x := by
    have power : (2 : Int) ^ 8 ≤ 2 ^ n := by
      exact_mod_cast Nat.pow_le_pow_right (by decide) large
    rw [BitVec.toInt_ofInt, bmod_of_half (by omega) (by omega)]
  have value : T.toInt (BitVec.ofInt T.width x) = x := by
    cases T with
    | byte => exact absurd wide (by decide)
    | int8_t => exact absurd wide (by decide)
    | int16_t => exact narrow 15 (by decide)
    | int32_t => exact narrow 31 (by decide)
    | int64_t => exact narrow 63 (by decide)
  rw [checked, if_pos value]

theorem checked_signed (other : T ≠ .byte) (b : Byte) : checked T b.toInt = some (BitVec.ofInt T.width b.toInt) := by
  have low := BitVec.le_toInt b
  have high := BitVec.toInt_lt (x := b)
  cases T with
  | byte => exact absurd rfl other
  | int8_t => rw [checked, if_pos (by rw [BitsType.toInt, BitVec.ofInt_toInt])]
  | int16_t => exact checked_wide (by decide) (by omega) (by omega)
  | int32_t => exact checked_wide (by decide) (by omega) (by omega)
  | int64_t => exact checked_wide (by decide) (by omega) (by omega)

theorem checked_unsigned (other : T ≠ .int8_t) (b : Byte) :
    checked T b.toNat = some (BitVec.ofInt T.width b.toNat) := by
  have high := b.isLt
  cases T with
  | byte => rw [checked, if_pos (by rw [BitVec.ofInt_natCast, BitVec.ofNat_toNat, BitVec.setWidth_eq]; rfl)]
  | int8_t => exact absurd rfl other
  | int16_t => exact checked_wide (by decide) (by omega) (by omega)
  | int32_t => exact checked_wide (by decide) (by omega) (by omega)
  | int64_t => exact checked_wide (by decide) (by omega) (by omega)

variable (short : bs.length ≤ 8) (le : bs.length ≤ left)

include short in
theorem payload_toNat :
    (BitVec.ofNat 8 (ofBits bs * 2 ^ (8 - bs.length))).toNat = ofBits bs * 2 ^ (8 - bs.length) := by
  rw [BitVec.toNat_ofNat, Nat.mod_eq_of_lt (top_lt short)]

include short in
theorem payload_toInt (nonempty : bs ≠ []) :
    (BitVec.ofNat 8 (ofBits bs * 2 ^ (8 - bs.length))).toInt = fieldValue true bs * 2 ^ (8 - bs.length) := by
  have value := @bmod_append (ofBits bs) bs.length 0 (8 - bs.length) (List.length_pos_iff.mpr nonempty) (ofBits_lt bs)
    (Nat.two_pow_pos _)
  rw [Nat.add_zero, Nat.add_sub_cancel' short, Int.natCast_zero, Int.add_zero] at value
  rw [BitVec.toInt_ofNat', fieldValue, if_pos rfl, ← value]

include short le in
theorem firstRet_held (nonempty : bs ≠ []) (listed : signExtend = true → T ≠ .byte) (narrow : numbits ≤ T.width)
    (whole : left = numbits) :
    ∃ ret, firstRet T signExtend (BitVec.ofNat 8 (ofBits bs * 2 ^ (8 - bs.length))) (8 - left) = some ret ∧
      HeldAs T signExtend numbits (fieldValue signExtend bs * 2 ^ (left - bs.length)) ret := by
  rw [firstRet]
  split
  next wider =>
      have wide : 8 < T.width := by omega
      have distance : (-((8 : Int) - left)).toNat = left - 8 := by omega
      have power : 8 - bs.length + (left - 8) = left - bs.length := by omega
      have typed : T = T ∧ (T = .int8_t → signExtend = true) := ⟨rfl,
        fun narrow' => absurd narrow' (width_wide wide).2.1⟩
      cases signExtend with
      | false =>
          have value : ((ofBits bs * 2 ^ (8 - bs.length) : Nat) : Int) = fieldValue false bs * 2 ^ (8 - bs.length) := by
            push_cast
            rfl
          rw [if_neg Bool.false_ne_true, checked_unsigned (width_wide wide).2.1, payload_toNat short, value, distance,
            Option.bind_eq_bind, Option.bind_some, ← ofInt_mul_two_pow, Int.mul_assoc, ← pow_add, power]
          exact ⟨_, rfl, T, rfl, .inl typed⟩
      | true =>
          rw [if_pos rfl, checked_signed (width_wide wide).1, payload_toInt short nonempty, distance,
            Option.bind_eq_bind, Option.bind_some, ← ofInt_mul_two_pow, Int.mul_assoc, ← pow_add, power]
          exact ⟨_, rfl, T, rfl, .inl typed⟩
  next right =>
      have distance : ((8 : Int) - left).toNat = 8 - left := by omega
      have power : 8 - bs.length = left - bs.length + (8 - left) := by omega
      cases signExtend with
      | false =>
          have less := top_lt short
          rw [power, Nat.pow_add, ← Nat.mul_assoc] at less
          have value : ((ofBits bs * 2 ^ (left - bs.length) : Nat) : Int) =
              fieldValue false bs * 2 ^ (left - bs.length) := by
            push_cast
            rfl
          rw [if_neg Bool.false_ne_true, distance, power, Nat.pow_add, ← Nat.mul_assoc, ofNat_ushiftRight less,
            ← BitVec.ofInt_natCast, value]
          exact ⟨_, rfl, .byte, rfl, .inr ⟨rfl, rfl, by omega⟩⟩
      | true =>
          have low := BitVec.le_toInt (BitVec.ofNat 8 (ofBits bs * 2 ^ (8 - bs.length)))
          have high := BitVec.toInt_lt (x := BitVec.ofNat 8 (ofBits bs * 2 ^ (8 - bs.length)))
          rw [payload_toInt short nonempty, power, pow_add, ← Int.mul_assoc] at low high
          have other := listed rfl
          have wide : (2 : Int) ^ 8 ≤ 2 ^ T.width := by
            exact_mod_cast Nat.pow_le_pow_right (by decide) (show 8 ≤ T.width by cases T <;> decide)
          rw [if_pos rfl, checked_signed other, payload_toInt short nonempty, distance, Option.bind_eq_bind,
            Option.bind_some, shr, if_neg other, power, pow_add, ← Int.mul_assoc,
              ofInt_sshiftRight (by omega) (by omega)]
          exact ⟨_, rfl, T, rfl, .inl ⟨rfl, fun _ => rfl⟩⟩

theorem promoteType_self (t : BitsType) : promoteType t t = t := by
  cases t <;> rfl

theorem or_same (t : BitsType) (a b : BitVec t.width) : Number.or ⟨t, a⟩ ⟨t, b⟩ = ⟨t, a ||| b⟩ := by
  rw [Number.or, Number.int, Number.int]
  simp only
  rw [promoteType_self, ofInt_toInt, ofInt_toInt]

theorem or_byte {t : BitsType} (other : t ≠ .int8_t) (b : Byte) (x : BitVec t.width) :
    Number.or ⟨.byte, b⟩ ⟨t, x⟩ = ⟨t, BitVec.ofInt t.width b.toNat ||| x⟩ := by
  have promoted : promoteType .byte t = t := by
    cases t <;> first | rfl | exact absurd rfl other
  rw [Number.or, Number.int, Number.int]
  simp only
  rw [promoted, ofInt_toInt]
  rfl

theorem or_int8 (b x : Byte) : Number.or ⟨.byte, b⟩ ⟨.int8_t, x⟩ = ⟨.byte, b ||| x⟩ := by
  have same : BitVec.ofInt 8 (BitsType.byte.toInt b) = b := ofInt_toInt .byte b
  have same' : BitVec.ofInt 8 (BitsType.int8_t.toInt x) = x := ofInt_toInt .int8_t x
  exact congrArg (Sigma.mk BitsType.byte) (congrArg₂ (· ||| ·) same same')

include short le in
theorem laterRet_held {x : Int} {ret : Number} (held : HeldAs T signExtend numbits (x * 2 ^ left) ret)
    (narrow : numbits ≤ T.width) (less : left < numbits)
    (inside : signExtend = false → numbits ≤ 8 → 0 ≤ x * 2 ^ left ∧ x * 2 ^ left < 2 ^ 8) :
    ∃ ret', laterRet T ret (BitVec.ofNat 8 (ofBits bs * 2 ^ (8 - bs.length))) (8 - left) = some ret' ∧
      HeldAs T signExtend numbits (x * 2 ^ left + (ofBits bs * 2 ^ (left - bs.length) : Nat)) ret' := by
  have lt : ofBits bs * 2 ^ (left - bs.length) < 2 ^ left := by
    calc ofBits bs * 2 ^ (left - bs.length) < 2 ^ bs.length * 2 ^ (left - bs.length) :=
          Nat.mul_lt_mul_of_pos_right (ofBits_lt bs) (Nat.two_pow_pos _)
      _ = 2 ^ left := by rw [← Nat.pow_add, Nat.add_sub_cancel' le]
  obtain ⟨t, rfl, typed⟩ := held
  rw [laterRet]
  split
  next wider =>
      have wide : 8 < T.width := by omega
      have distance : (-((8 : Int) - left)).toNat = left - 8 := by omega
      have power : 8 - bs.length + (left - 8) = left - bs.length := by omega
      cases typed with
      | inr byte => exact absurd byte.2.2 (by omega)
      | inl same =>
          obtain ⟨rfl, _⟩ := same
          rw [checked_unsigned (width_wide wide).2.1, payload_toNat short, distance, Option.bind_eq_bind,
            Option.bind_some, BitVec.ofInt_natCast, ← ofNat_mul_two_pow, Nat.mul_assoc, ← Nat.pow_add, power,
            or_same,
            ofInt_or_ofNat x lt]
          exact ⟨_, rfl, t, rfl, .inl ⟨rfl, fun narrow' => absurd narrow' (width_wide wide).2.1⟩⟩
  next right =>
      have distance : ((8 : Int) - left).toNat = 8 - left := by omega
      have power : 8 - bs.length = left - bs.length + (8 - left) := by omega
      have top := top_lt short
      split
      next int8 =>
          subst int8
          rw [power, Nat.pow_add, ← Nat.mul_assoc] at top
          rw [distance, power, Nat.pow_add, ← Nat.mul_assoc, ofNat_ushiftRight top]
          cases typed with
          | inl same =>
              obtain ⟨rfl, signed⟩ := same
              rw [or_same, ofInt_or_ofNat x lt]
              exact ⟨_, rfl, .int8_t, rfl, .inl ⟨rfl, signed⟩⟩
          | inr byte =>
              obtain ⟨rfl, unsigned⟩ := byte
              rw [or_int8, ofInt_or_ofNat x lt]
              exact ⟨_, rfl, .byte, rfl, .inr ⟨rfl, unsigned⟩⟩
      next other =>
          have wide : 2 ^ 8 ≤ 2 ^ T.width :=
            Nat.pow_le_pow_right (by decide) (show 8 ≤ T.width by cases T <;> decide)
          have typed' : T = T ∧ (T = .int8_t → signExtend = true) := ⟨rfl, fun int8 => absurd int8 other⟩
          have shifted : ofBits bs * 2 ^ (left - bs.length) * 2 ^ (8 - left) < 2 ^ T.width := by
            rw [Nat.mul_assoc, ← Nat.pow_add, ← power]
            omega
          rw [checked_unsigned other, payload_toNat short, distance, Option.bind_eq_bind, Option.bind_some,
            BitVec.ofInt_natCast, power, Nat.pow_add, ← Nat.mul_assoc, ofNat_ushiftRight shifted]
          cases typed with
          | inl same =>
              obtain ⟨rfl, _⟩ := same
              rw [or_same, ofInt_or_ofNat x lt]
              exact ⟨_, rfl, t, rfl, .inl typed'⟩
          | inr byte =>
              obtain ⟨rfl, unsigned, few⟩ := byte
              obtain ⟨low, high⟩ := inside unsigned few
              have value : ((BitVec.ofInt 8 (x * 2 ^ left)).toNat : Int) = x * 2 ^ left := by
                rw [BitVec.toNat_ofInt]
                omega
              rw [or_byte other, value, ofInt_or_ofNat x lt]
              exact ⟨_, rfl, T, rfl, .inl typed'⟩

theorem held_int_iff (f : Bitfield) (buf : Mem Byte) (place : Nat) {ret : Number}
    (held : HeldAs f.t f.signExtend f.numbits (fieldValue f.signExtend (buf.bits place f.numbits)) ret) :
    ret.int = f.t.toInt (f.value buf place) ↔
      (f.signExtend = true ∨ buf.bit place = false ∨ ¬ (f.t = .int8_t ∧ f.numbits = 8)) := by
  obtain ⟨t, signExtend, numbits, listed, positive, narrow⟩ := f
  obtain ⟨n, rfl⟩ := Nat.exists_eq_add_of_le' positive
  obtain ⟨t', rfl, typed⟩ := held
  have length : (buf.bits (place + 1) n).length = n := Mem.bits_length _ _ _
  simp only at typed narrow ⊢
  cases typed with
  | inl same =>
      obtain ⟨rfl, signed⟩ := same
      refine iff_of_true rfl ?_
      by_cases int8 : t' = .int8_t
      · exact .inl (signed int8)
      · exact .inr (.inr fun both => int8 both.1)
  | inr byte =>
      obtain ⟨rfl, unsigned, few⟩ := byte
      subst unsigned
      have here := @toInt_fieldValue .byte false (fun sign => absurd sign Bool.false_ne_true) (buf.bit place)
        (buf.bits (place + 1) n) (by rw [length]; exact few)
      have c := toInt_fieldValue false listed (buf.bit place) (buf.bits (place + 1) n) (by rw [length]; exact narrow)
      rw [if_neg (fun all => all.2.2.1 rfl), Int.sub_zero, ← Mem.bits_cons] at here
      rw [← Mem.bits_cons, length] at c
      rw [Number.int, here, Bitfield.value, c]
      have power : (0 : Int) < 2 ^ t.width := Int.pow_pos (by decide)
      have whole : (t ≠ .byte ∧ n + 1 = t.width) ↔ (t = .int8_t ∧ n + 1 = 8) := by
        cases t <;> simp [BitsType.width] <;> omega
      by_cases wraps : buf.bit place = true ∧ t ≠ .byte ∧ n + 1 = t.width
      · rw [if_pos ⟨rfl, wraps⟩]
        refine iff_of_false (by omega) ?_
        rintro (sign | zero | other)
        · exact Bool.false_ne_true sign
        · exact Bool.false_ne_true (zero.symm.trans wraps.1)
        · exact other (whole.mp wraps.2)
      · rw [if_neg (fun all => wraps all.2), Int.sub_zero]
        refine iff_of_true rfl (.inr ?_)
        cases bit : buf.bit place with
        | false => exact .inl rfl
        | true => exact .inr fun both => wraps ⟨bit, whole.mpr both⟩

end Round

section Loop

variable (T : BitsType) (signExtend : Bool)

theorem readPayload_eq (m : Mem Byte) (a : Nat) {k c : Nat} (le : k + c ≤ 8) :
    readPayload (m a) c k = some (BitVec.ofNat 8 (ofBits (m.bits (8 * a + k) c) * 2 ^ (8 - c))) := by
  have ones : ∀ n ≤ 8, (1#64 <<< n) - 1#64 = BitVec.ofNat 64 (2 ^ n - 1) := by decide
  have length : (m.bits (8 * a + k) c).length = c := m.bits_length _ _
  have top := @top_lt (m.bits (8 * a + k) c) (by omega)
  rw [length] at top
  have value : ofBits (m.bits (8 * a + k) c) * 2 ^ (8 - k - c) * 2 ^ k =
      ofBits (m.bits (8 * a + k) c) * 2 ^ (8 - c) := by
    rw [Nat.mul_assoc, ← Nat.pow_add]
    congr 2
    omega
  have mask : (2 ^ c - 1) * 2 ^ (8 - k - c) < 2 ^ 64 := by
    calc (2 ^ c - 1) * 2 ^ (8 - k - c) ≤ 2 ^ 8 * 2 ^ 8 := by
          apply Nat.mul_le_mul
          · exact (Nat.sub_le _ _).trans (Nat.pow_le_pow_right (by decide) (by omega))
          · exact Nat.pow_le_pow_right (by decide) (by omega)
      _ < 2 ^ 64 := by decide
  have low := (m a).isLt
  have order : 8 - c - k = 8 - k - c := by omega
  apply toUInt8_eq _ top
  rw [readMask, ones c (by omega), order, ← ofNat_mul_two_pow, BitVec.toNat_shiftLeft, BitVec.toNat_and,
    BitVec.toNat_setWidth,
    BitVec.toNat_ofNat, Nat.mod_eq_of_lt mask, Nat.mod_eq_of_lt (show (m a).toNat < 2 ^ 64 by omega), and_ones,
    ← m.ofBits_bits_byte a le, Nat.shiftLeft_eq, value, Nat.mod_eq_of_lt (by omega)]

theorem readBitsLoop_held (listed : signExtend = true → T ≠ .byte) (start rounds : Nat) :
    ∀ (left done offset_bit : Nat) (ret : Number) (buf : IOBuffer),
    left ≤ rounds → offset_bit < 8 → 8 * buf.ptr + offset_bit = start + done →
    start + done + left ≤ 8 * buf.size →
    done + left ≤ T.width → 0 < done + left →
    (done ≠ 0 →
      HeldAs T signExtend (done + left) (fieldValue signExtend (buf.data.bits start done) * 2 ^ left) ret) →
    ∃ ret', readBitsLoop T (done + left) signExtend rounds left offset_bit ret buf =
        some ((start + (done + left)) % 8, ret', { buf with ptr := (start + (done + left)) / 8 }) ∧
      HeldAs T signExtend (done + left) (fieldValue signExtend (buf.data.bits start (done + left))) ret' := by
  have finished (done offset_bit : Nat) (ret : Number) (buf : IOBuffer) (low : offset_bit < 8)
      (here : 8 * buf.ptr + offset_bit = start + done) (some' : 0 < done)
      (held : done ≠ 0 → HeldAs T signExtend done (fieldValue signExtend (buf.data.bits start done) * 2 ^ 0) ret) :
      ∃ ret', some (offset_bit, ret, buf) =
        some ((start + done) % 8, ret', { buf with ptr := (start + done) / 8 }) ∧
        HeldAs T signExtend done (fieldValue signExtend (buf.data.bits start done)) ret' := by
    have byte : (start + done) / 8 = buf.ptr := by omega
    have bit : (start + done) % 8 = offset_bit := by omega
    have value := held (Nat.ne_of_gt some')
    rw [pow_zero, Int.mul_one] at value
    exact ⟨ret, by rw [byte, bit], value⟩
  induction rounds with
  | zero =>
      intro left done offset_bit ret buf enough low here inside narrow some' held
      obtain rfl := Nat.le_zero.mp enough
      exact finished done offset_bit ret buf low here some' held
  | succ rounds ih =>
      intro left done offset_bit ret buf enough low here inside narrow some' held
      rw [readBitsLoop]
      by_cases none : left = 0
      · subst none
        rw [if_pos rfl]
        exact finished done offset_bit ret buf low here some' held
      · have within : buf.ptr < buf.size := by omega
        rw [if_neg none, IOBuffer.peek, if_pos within, Option.bind_eq_bind, Option.bind_some]
        simp only
        generalize coveredEq : (if 8 - offset_bit < left then 8 - offset_bit else left) = covered
        have atMost : covered ≤ 8 - offset_bit ∧ covered ≤ left ∧ 0 < covered := by
          split at coveredEq <;> omega
        have total : done + left = done + covered + (left - covered) := by omega
        have length : (buf.data.bits (start + done) covered).length = covered := Mem.bits_length _ _ _
        have round : ∃ ret', nextRet T (done + left) signExtend left ret
              (BitVec.ofNat 8 (ofBits (buf.data.bits (start + done) covered) * 2 ^ (8 - covered))) = some ret' ∧
            HeldAs T signExtend (done + left)
              (fieldValue signExtend (buf.data.bits start (done + covered)) * 2 ^ (left - covered)) ret' := by
          rw [nextRet]
          by_cases first : done = 0
          · subst first
            have chunk := @firstRet_held _ _ (buf.data.bits (start + 0) covered) left left
              (by omega) (by omega) (Mem.bits_ne_nil _ _ atMost.2.2) listed (by omega) rfl
            rw [length] at chunk
            rwa [if_pos (Nat.zero_add _).symm, Nat.zero_add, Nat.zero_add, Nat.add_zero]
          · have value := held first
            have power : (2 : Int) ^ left = 2 ^ covered * 2 ^ (left - covered) := by
              rw [← pow_add, Nat.add_sub_cancel' atMost.2.1]
            have byte : signExtend = false → done + left ≤ 8 →
                0 ≤ fieldValue signExtend (buf.data.bits start done) * 2 ^ left ∧
                  fieldValue signExtend (buf.data.bits start done) * 2 ^ left < 2 ^ 8 := by
              intro unsigned few
              have lt := (fieldValue_top signExtend (buf.data.bits start done) left).2
              have nonneg : 0 ≤ fieldValue signExtend (buf.data.bits start done) := by
                rw [unsigned]
                exact Int.natCast_nonneg _
              have wide : (2 : Int) ^ (done + left) ≤ 2 ^ 8 := by
                exact_mod_cast Nat.pow_le_pow_right (by decide) few
              rw [Mem.bits_length] at lt
              exact ⟨Int.mul_nonneg nonneg (Int.pow_pos (by decide)).le, by omega⟩
            have chunk := (@laterRet_held _ _ (buf.data.bits (start + done) covered) _ left) (by omega) (by omega)
              value narrow (by omega) byte
            rw [length] at chunk
            rw [if_neg (by omega), Mem.bits_add, fieldValue_append _ (Mem.bits_ne_nil _ _ (Nat.pos_of_ne_zero first)),
              length]
            have sum : (fieldValue signExtend (buf.data.bits start done) * 2 ^ covered +
                ofBits (buf.data.bits (start + done) covered)) * 2 ^ (left - covered) =
                fieldValue signExtend (buf.data.bits start done) * 2 ^ left +
                  (ofBits (buf.data.bits (start + done) covered) * 2 ^ (left - covered) : Nat) := by
              rw [power]
              push_cast
              ring
            rw [sum]
            exact chunk
        obtain ⟨ret', next, held'⟩ := round
        have payload := readPayload_eq buf.data buf.ptr (k := offset_bit) (c := covered) (by omega)
        rw [here] at payload
        rw [payload, Option.bind_eq_bind, Option.bind_some, next, Option.bind_some, total]
        rw [total] at held'
        split
        next whole =>
            exact ih (left - covered) (done + covered) 0 ret' buf.skip (by omega) (by decide)
              (by simp only [IOBuffer.skip]; omega) (by simp only [IOBuffer.skip]; omega) (by omega) (by omega)
              (fun _ => held')
        next part =>
            exact ih (left - covered) (done + covered) (offset_bit + covered) ret' buf (by omega) (by omega)
              (by omega) (by omega) (by omega) (by omega) (fun _ => held')

theorem read_bits_held (f : Bitfield) (buf : IOBuffer) {offset_bit : Nat} (low : offset_bit < 8)
    (inside : 8 * buf.ptr + offset_bit + f.numbits ≤ 8 * buf.size) :
    ∃ ret, read_bits f.t buf f.numbits offset_bit f.signExtend =
        some ((8 * buf.ptr + offset_bit + f.numbits) % 8, ret,
          { buf with ptr := (8 * buf.ptr + offset_bit + f.numbits) / 8 }) ∧
      (ret.int = f.t.toInt (f.value buf.data (8 * buf.ptr + offset_bit)) ↔ f.signExtend = true ∨
        buf.data.bit (8 * buf.ptr + offset_bit) = false ∨ ¬ (f.t = .int8_t ∧ f.numbits = 8)) := by
  have positive := f.positive
  obtain ⟨ret, run, held⟩ :=
    readBitsLoop_held f.t f.signExtend f.listed (8 * buf.ptr + offset_bit) f.numbits f.numbits 0
    offset_bit ⟨f.t, 0⟩ buf le_rfl low rfl (by omega) (by rw [Nat.zero_add]; exact f.narrow) (by omega)
    (fun some' => absurd rfl some')
  rw [Nat.zero_add] at run held
  exact ⟨ret, run, held_int_iff f buf.data _ held⟩

end Loop

def ReadsAlike (data : Mem Byte) (place : Nat) (f : Bitfield) : Prop :=
  f.signExtend = true ∨ data.bit place = false ∨ ¬ (f.t = .int8_t ∧ f.numbits = 8)

theorem readBitfields_eq (fs : List Bitfield) (buf : IOBuffer) {offset_bit : Nat} (low : offset_bit < 8)
    (inside : 8 * buf.ptr + offset_bit + Bitfields.size fs ≤ 8 * buf.size) :
    ∃ values, readBitfields fs offset_bit buf =
        some (values, (8 * buf.ptr + offset_bit + Bitfields.size fs) % 8,
          { buf with ptr := (8 * buf.ptr + offset_bit + Bitfields.size fs) / 8 }) ∧
      (values.map Number.int = Bitfields.Values.ints (Bitfields.valuesAt buf.data (8 * buf.ptr + offset_bit) fs) ↔
        AllAt (·.numbits) (ReadsAlike buf.data) (8 * buf.ptr + offset_bit) fs) := by
  induction fs generalizing buf offset_bit with
  | nil =>
      have byte : (8 * buf.ptr + offset_bit + 0) / 8 = buf.ptr := by omega
      have bit : (8 * buf.ptr + offset_bit + 0) % 8 = offset_bit := by omega
      have none : Bitfields.size [] = 0 := rfl
      exact ⟨[], by rw [none, byte, bit, readBitfields], iff_of_true rfl trivial⟩
  | cons f fs ih =>
      have total : Bitfields.size (f :: fs) = f.numbits + Bitfields.size fs := List.sum_cons
      rw [total] at inside ⊢
      obtain ⟨ret, run, alike⟩ := read_bits_held f buf low (by omega)
      generalize next : 8 * buf.ptr + offset_bit + f.numbits = place at run
      have here : 8 * (place / 8) + place % 8 = place := Nat.div_add_mod place 8
      obtain ⟨values, rest, same⟩ := @ih { buf with ptr := place / 8 } (place % 8) (Nat.mod_lt _ (by decide))
        (by simp only; omega)
      simp only [here] at rest same
      refine ⟨ret :: values, ?_, ?_⟩
      · rw [readBitfields, run]
        simp only [Option.bind_eq_bind, Option.bind_some, rest]
        rw [← Nat.add_assoc, next]
      · rw [List.map_cons, Bitfields.valuesAt, Bitfields.Values.ints, List.map_cons, List.cons_eq_cons, next]
        rw [AllAt, next]
        exact and_congr alike same

/-- Julia writes what C writes, from call to call, unless a field of 64 bits raises an error; and it reads what C
reads, up to the same position, unless the first bit of an unsigned int8_t of eight bits is set. -/
theorem write_bits_read_bits_iff {w : Writer} {m : Mem Byte} (holds : Holds w m) {maxlen : Nat}
    (small : maxlen < 2 ^ 32) (fields : List ((f : Bitfield) × BitVec f.t.width))
    (room : w.place + Bitfields.size (fields.map (·.1)) ≤ 8 * maxlen) {buf : IOBuffer} {offset_bit : Nat}
    (low : offset_bit < 8) (sized : buf.size < 2 ^ 32) (fs : List Bitfield)
    (inside : 8 * buf.ptr + offset_bit + Bitfields.size fs ≤ 8 * buf.size) :
    ((∃ w' bytes, writeBitfields fields w = some w' ∧
      encodeBitfields maxlen ⟨w.buf.ptr, w.offset_bit⟩ m fields = some (⟨w'.buf.ptr, w'.offset_bit⟩, bytes) ∧
      Holds w' bytes ∧ w'.flush.data.read 0 w'.flush.ptr = bytes.read 0 w'.flush.ptr) ↔
      ∀ field ∈ fields, field.1.numbits ≠ 64) ∧
    ∃ values values' bit ptr, readBitfields fs offset_bit buf = some (values, bit, { buf with ptr := ptr }) ∧
      (∀ ps, decodeBitfields buf.data buf.size ps ⟨buf.ptr, offset_bit⟩ fs = some (values', ⟨ptr, bit⟩)) ∧
      (values.map Number.int = values'.ints ↔
        AllAt (·.numbits) (ReadsAlike buf.data) (8 * buf.ptr + offset_bit) fs) := by
  constructor
  · constructor
    · rintro ⟨w', bytes, run, _⟩ field member whole
      rw [writeBitfields_raises member whole] at run
      cases run
    · intro narrow
      obtain ⟨w', run, after, place⟩ := writeBitfields_holds fields narrow holds
      have c := @encodeBitfields_eq _ small fields ⟨w.buf.ptr, w.offset_bit⟩ holds.low room m
      refine ⟨w', m.putBits w.place (Bitfields.bits fields), run, ?_, after, ?_⟩
      · have here : BitPos.ofPlace (w.place + Bitfields.size (fields.map (·.1))) = ⟨w'.buf.ptr, w'.offset_bit⟩ :=
          ((@bitPos_of_value ⟨w'.buf.ptr, w'.offset_bit⟩) after.low place).symm
        rw [c, ← here]
        rfl
      · apply Mem.read_congr
        intro a lt
        rw [Nat.zero_add]
        exact after.flush.2 a lt
  · obtain ⟨values, run, same⟩ := readBitfields_eq fs buf low inside
    exact ⟨values, _, _, _, run,
      fun ps => @decodeBitfields_eq _ sized buf.data ps fs ⟨buf.ptr, offset_bit⟩ low inside, same⟩

def opened : Writer := ⟨⟨fun _ => 0, 0, 0⟩, 0, 0⟩

def wholeField : (f : Bitfield) × BitVec f.t.width :=
  ⟨⟨.int64_t, true, 64, by decide, by decide, by decide⟩, 0⟩

def wholeByte : Bitfield := ⟨.int8_t, false, 8, by decide, by decide, by decide⟩

/-- The mask of a field of 64 bits is an Int64 of -1, which is no UInt64. And the first payload that is not extended
stays a UInt8. -/
theorem write_bits_raises : writeBitfields [wholeField] opened = none ∧
    (encodeBitfields 8 ⟨0, 0⟩ opened.buf.data [wholeField]).isSome = true ∧
    (readBitfields [wholeByte] 0 ⟨fun _ => 0x80, 1, 0⟩).map (fun r => r.1.map Number.int) = some [128] ∧
    (decodeBitfields (fun _ => 0x80) 1 (fun _ _ => 0) ⟨0, 0⟩ [wholeByte]).map (fun r => r.1.ints) =
      some [-128] := by
  decide +kernel

theorem opened_holds (m : Mem Byte) : Holds opened m :=
  ⟨by decide, fun _ => rfl, fun a lt => absurd lt (Nat.not_lt_zero a), fun unaligned => absurd rfl unaligned⟩

theorem write_bits_read_bits_iff_opened : ((∃ w' bytes, writeBitfields [wholeField] opened = some w' ∧
    encodeBitfields 8 ⟨0, 0⟩ (fun _ => 0) [wholeField] = some (⟨w'.buf.ptr, w'.offset_bit⟩, bytes) ∧
    Holds w' bytes ∧ w'.flush.data.read 0 w'.flush.ptr = bytes.read 0 w'.flush.ptr) ↔
    ∀ field ∈ [wholeField], field.1.numbits ≠ 64) ∧
    ∃ values values' bit ptr, readBitfields [wholeByte] 0 ⟨fun _ => 0x80, 1, 0⟩ =
        some (values, bit, ⟨fun _ => 0x80, 1, ptr⟩) ∧
      (∀ ps, decodeBitfields (fun _ => 0x80) 1 ps ⟨0, 0⟩ [wholeByte] = some (values', ⟨ptr, bit⟩)) ∧
      (values.map Number.int = values'.ints ↔ AllAt (·.numbits) (ReadsAlike fun _ => 0x80) 0 [wholeByte]) :=
  @write_bits_read_bits_iff opened (fun _ => 0) (opened_holds _) 8 (by decide) [wholeField] (by decide)
    ⟨fun _ => 0x80, 1, 0⟩ 0 (by decide) (by decide) [wholeByte] (by decide)

end Zcm.Julia
