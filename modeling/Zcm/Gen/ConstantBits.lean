import Zcm.Coretypes.ArrayBits
import Zcm.Gen.Constants

namespace Zcm.Gen.Parse
open Zcm.Lib Zcm.Coretypes

/-- The value is stored in a member and passed through the encoder and the decoder, wherever they stand. -/
def Survives (f : Bitfield) (v : BitVec 64) : Prop :=
  ∀ (buf : Mem Byte) (offsetBytes offsetBits maxbytes : Nat) (old : Mem (BitVec f.t.width)), offsetBits < 8 →
    (offsetBits + f.numbits + 7) / 8 ≤ maxbytes → offsetBytes + (offsetBits + f.numbits) / 8 < 2 ^ 32 →
    Begun buf offsetBytes offsetBits →
    let encoded := encodeArrayBits buf offsetBytes offsetBits maxbytes [(v.setWidth f.t.width).toNat] 1 f.numbits
    let decoded := decodeArrayBits f.t f.signExtend encoded.2 offsetBytes offsetBits maxbytes old 1 f.numbits
    (decoded.2.read 0 1).map f.t.toInt = [v.toInt]

theorem survives_iff (f : Bitfield) (v : BitVec 64) :
    Survives f v ↔ f.t.toInt (reduced f.t f.signExtend f.numbits (v.setWidth f.t.width)) = v.toInt := by
  have narrow := f.narrow
  have wide := Coretypes.width_le f.t
  have decoded (buf : Mem Byte) (offsetBytes offsetBits maxbytes : Nat) (old : Mem (BitVec f.t.width))
      (low : offsetBits < 8) (room : (offsetBits + f.numbits + 7) / 8 ≤ maxbytes)
      (fits : offsetBytes + (offsetBits + f.numbits) / 8 < 2 ^ 32) (begun : Begun buf offsetBytes offsetBits) :
      (decodeArrayBits f.t f.signExtend (encodeArrayBits buf offsetBytes offsetBits maxbytes
        [(v.setWidth f.t.width).toNat] 1 f.numbits).2 offsetBytes offsetBits maxbytes old 1 f.numbits).2.read 0 1 =
          [reduced f.t f.signExtend f.numbits (v.setWidth f.t.width)] := by
    have one : [v.setWidth f.t.width].length * f.numbits = f.numbits := Nat.one_mul _
    have trips := @arrayBits_round_trip f.t _ f.positive narrow buf _ _ maxbytes [v.setWidth f.t.width] low
      (by rw [one]; omega) (by rwa [one]) (by rwa [one]) begun
    exact (trips.decoded f.signExtend f.listed old).2
  constructor
  · intro survives
    have first := survives (fun _ => 0) 0 0 8 (fun _ => 0) (by decide) (by omega) (by omega)
      (fun some => absurd rfl some)
    simp only at first
    rw [decoded _ 0 0 8 _ (by decide) (by omega) (by omega) (fun some => absurd rfl some)] at first
    exact List.singleton_inj.mp first
  · intro same buf offsetBytes offsetBits maxbytes old low room fits begun
    simp only
    rw [decoded buf offsetBytes offsetBits maxbytes old low room fits begun, List.map_singleton, same]

section Reduced

variable {T : BitsType} {n : Nat}

theorem reduced_signed (listed : T ≠ .byte) (narrow : n ≤ T.width) (v : BitVec 64) :
    T.toInt (reduced T true n (v.setWidth T.width)) = (v.setWidth n).toInt := by
  rw [toInt_signed listed, reduced, if_pos rfl, BitVec.toInt_signExtend_of_le narrow,
    BitVec.setWidth_setWidth_of_le _ narrow]

theorem reduced_unsigned (narrow : n ≤ T.width) (whole : T ≠ .byte → n < T.width) (v : BitVec 64) :
    T.toInt (reduced T false n (v.setWidth T.width)) = (v.toNat % 2 ^ n : Nat) := by
  have value : (reduced T false n (v.setWidth T.width)).toNat = v.toNat % 2 ^ n := by
    have lt : v.toNat % 2 ^ n < 2 ^ T.width :=
      (Nat.mod_lt _ (Nat.two_pow_pos n)).trans_le (Nat.pow_le_pow_right (by decide) narrow)
    rw [reduced, if_neg Bool.false_ne_true, BitVec.setWidth_setWidth_of_le _ narrow, BitVec.toNat_setWidth,
      BitVec.toNat_setWidth, Nat.mod_eq_of_lt lt]
  by_cases byte : T = .byte
  · subst byte
    exact congrArg Int.ofNat value
  · have small : 2 * (v.toNat % 2 ^ n) < 2 ^ T.width := by
      have lt := Nat.mod_lt v.toNat (Nat.two_pow_pos n)
      have power : 2 * 2 ^ n ≤ 2 ^ T.width := by
        rw [← Nat.pow_succ']
        exact Nat.pow_le_pow_right (by decide) (whole byte)
      omega
    rw [toInt_signed byte, BitVec.toInt_eq_toNat_of_lt (by rwa [value]), value]

end Reduced

theorem hex_number {token : Text} (hex : IntCase.isHex token = true) {n : Int} (number : numberOf 0 token = some n) :
    0 ≤ n ∧ n < 16 ^ (token.length - 2) := by
  match token with
  | [] => cases hex
  | [_] => cases hex
  | [_, _] => cases hex
  | z :: x :: d :: s =>
      have parts : z = charByte '0' ∧ (x = charByte 'x' ∨ x = charByte 'X') := by
        simpa [IntCase.isHex] using hex
      obtain ⟨rfl, isX⟩ := parts
      by_cases digit : isDigitOf 16 d = true
      · rw [numberOf, Numeral.read_hex isX digit, Numeral.readDigits,
          if_neg (by rw [List.takeWhile_cons_of_pos digit]; exact List.cons_ne_nil _ _)] at number
        simp only at number
        split at number
        next whole =>
            have all := List.dropWhile_eq_nil_iff.mp whole
            rw [List.takeWhile_eq_self_iff.mpr all] at number
            obtain rfl := Option.some.inj number
            have lt : ((digitsValue 16 (d :: s) : Nat) : Int) < 16 ^ (d :: s).length := by
              exact_mod_cast digitsValue_lt all
            exact ⟨Int.natCast_nonneg _, lt⟩
        next => cases number
      · rw [numberOf_bareRadix isX digit] at number
        cases number

theorem intCase_hex {T : BitsType} {numbits : Nat} {signExtend : Bool} {token : Text} {erange : Bool}
    (hex : IntCase.isHex token = true) {v : BitVec 64} {s : Text} {e : Bool}
    (run : intCase T numbits signExtend token erange = .ok (v, s, e)) :
    ∃ n, numberOf 0 token = some n ∧ token.length ≤ T.width / 8 * 2 + 2 ∧
      v = IntCase.normalize T numbits signExtend (BitVec.ofInt 64 (wrapped n)) := by
  have unfolded : intCase T numbits signExtend token erange = (do
      require ((converted token erange).rest ≠ token ∧ (converted token erange).rest =
        []) (.parse "Expected integer value")
      require (token.length ≤ T.width / 8 * 2 + 2)
        (.semantic "Too many hex digits specified for MEMBERTYPE: 0x%llx")
      require (numbits = 0 || numbits = 64 || IntCase.topBitsSame T numbits (converted token erange).value)
        (.semantic "Too many bits used for MEMBERTYPE:%u : 0x%llx")
      let v := IntCase.normalize T numbits signExtend (converted token erange).value
      return (v, IntCase.valstr T token v, erange || (strtoll 0 token).outOfRange)) := by
    rw [intCase]
    simp only [hex, if_true]
    rfl
  rw [unfolded] at run
  simp only [bind_ok, require_ok, decide_eq_true_eq] at run
  obtain ⟨_, read, _, short, _, -, run⟩ := run
  cases number : numberOf 0 token with
  | none => exact absurd read (converted_none erange number)
  | some n =>
      obtain ⟨-, -, value⟩ := converted_number erange number
      rw [value] at run
      cases run
      exact ⟨n, rfl, short, rfl⟩

theorem hex_lt {T : BitsType} {token : Text} (hex : IntCase.isHex token = true) {n : Int}
    (number : numberOf 0 token = some n) (short : token.length ≤ T.width / 8 * 2 + 2) :
    0 ≤ n ∧ n < 2 ^ T.width := by
  obtain ⟨nonneg, lt⟩ := hex_number hex number
  have digits : token.length - 2 ≤ T.width / 8 * 2 := by omega
  have bits : (16 : Int) ^ (T.width / 8 * 2) = 2 ^ T.width := by cases T <;> decide
  have le : (16 : Int) ^ (token.length - 2) ≤ 16 ^ (T.width / 8 * 2) := by
    exact_mod_cast Nat.pow_le_pow_right (by decide) digits
  exact ⟨nonneg, by omega⟩

theorem toInt_cases (T : BitsType) (x : BitVec T.width) :
    T.toInt x = x.toNat ∧ (T ≠ .byte → 2 * x.toNat < 2 ^ T.width) ∨
      T ≠ .byte ∧ T.toInt x = x.toNat - 2 ^ T.width ∧ 2 ^ T.width ≤ 2 * x.toNat := by
  by_cases byte : T = .byte
  · subst byte
    exact .inl ⟨rfl, fun other => absurd rfl other⟩
  · have cond := BitVec.toInt_eq_toNat_cond x
    rw [← toInt_signed byte] at cond
    split at cond
    next small => exact .inl ⟨cond, fun _ => small⟩
    next big => exact .inr ⟨byte, cond.trans (by push_cast; rfl), Nat.not_lt.mp big⟩

theorem unsigned_hex_iff {T : BitsType} {numbits : Nat} (declared : Declared T numbits false) {n : Nat}
    (lt : n < 2 ^ T.width) :
    T.toInt (reduced T false numbits ((IntCase.normalize T numbits false (BitVec.ofNat 64 n)).setWidth T.width)) =
      (IntCase.normalize T numbits false (BitVec.ofNat 64 n)).toInt ↔ n < 2 ^ numbits := by
  have narrow := declared.narrow
  have whole (other : T ≠ .byte) : numbits < T.width :=
    Nat.lt_of_le_of_ne narrow fun same => absurd (declared.whole other same) Bool.false_ne_true
  have value : ((BitVec.ofNat 64 n).setWidth T.width).toNat = n := by
    have wide : 2 ^ T.width ≤ 2 ^ 64 := Nat.pow_le_pow_right (by decide) (Coretypes.width_le T)
    rw [BitVec.toNat_setWidth, BitVec.toNat_ofNat, Nat.mod_eq_of_lt (lt.trans_le wide), Nat.mod_eq_of_lt lt]
  rw [reduced_unsigned narrow whole, normalize_unsigned]
  have stored := normalize_unsigned T numbits (BitVec.ofNat 64 n)
  have signs := toInt_cases T ((BitVec.ofNat 64 n).setWidth T.width)
  generalize IntCase.normalize T numbits false (BitVec.ofNat 64 n) = y at stored ⊢
  rw [value] at signs
  generalize T.toInt ((BitVec.ofNat 64 n).setWidth T.width) = m at stored signs ⊢
  -- The bits below the width are the same in the number and in what is stored of it.
  have low : ((y.toNat % 2 ^ numbits : Nat) : Int) = (n % 2 ^ numbits : Nat) := by
    have wide : (2 ^ numbits : Int) ∣ 2 ^ T.width := pow_dvd_pow 2 narrow
    have word : (2 ^ numbits : Int) ∣ 2 ^ 64 := pow_dvd_pow 2 (narrow.trans (Coretypes.width_le T))
    have unsigned : (2 ^ numbits : Int) ∣ y.toNat - m := by
      rw [← stored, BitVec.toInt_eq_toNat_cond]
      split
      · rw [sub_self]
        exact dvd_zero _
      · rw [sub_sub_cancel]
        exact word
    have reduced : (2 ^ numbits : Int) ∣ m - n := by
      obtain ⟨same, -⟩ | ⟨-, negative, -⟩ := signs
      · rw [same, sub_self]
        exact dvd_zero _
      · rw [negative, sub_sub_cancel_left]
        exact Int.dvd_neg.mpr wide
    have both := Int.dvd_add unsigned reduced
    rw [sub_add_sub_cancel] at both
    push_cast
    exact Int.emod_eq_emod_iff_emod_sub_eq_zero.mpr (Int.emod_eq_zero_of_dvd both)
  rw [low]
  obtain ⟨same, -⟩ | ⟨other, negative, high⟩ := signs
  · rw [same, Nat.cast_inj, Nat.mod_eq_iff_lt (Nat.two_pow_pos numbits).ne']
  · have power : 2 * 2 ^ numbits ≤ 2 ^ T.width := by
      rw [← Nat.pow_succ']
      exact Nat.pow_le_pow_right (by decide) (whole other)
    have cast : ((2 ^ T.width : Nat) : Int) = 2 ^ T.width := by
      push_cast
      rfl
    constructor
    · intro same
      omega
    · intro small
      omega

theorem signed_survives {T : BitsType} {numbits : Nat} (declared : Declared T numbits true) (v : BitVec 64) :
    T.toInt (reduced T true numbits ((IntCase.normalize T numbits true v).setWidth T.width)) =
      (IntCase.normalize T numbits true v).toInt := by
  have listed := declared.listed rfl
  have narrow := declared.narrow
  have value := normalize_signed listed (declared.positive rfl) narrow v
  rw [reduced_signed listed narrow, toInt_setWidth_bmod _ (narrow.trans (Coretypes.width_le T)), value,
    toInt_setWidth_bmod v (narrow.trans (Coretypes.width_le T)), Int.bmod_bmod]

theorem unsigned_survives {T : BitsType} {numbits : Nat} (declared : Declared T numbits false) (some : numbits ≠ 0)
    {v : BitVec 64} (inRange : InRange T numbits false v.toInt) :
    T.toInt (reduced T false numbits (v.setWidth T.width)) = v.toInt := by
  have whole (other : T ≠ .byte) : numbits < T.width :=
    Nat.lt_of_le_of_ne declared.narrow fun same => absurd (declared.whole other same) Bool.false_ne_true
  rw [InRange, if_neg some, if_neg Bool.false_ne_true] at inRange
  have cond := BitVec.toInt_eq_toNat_cond v
  have lt := v.isLt
  have same : v.toInt = v.toNat := by
    split at cond
    · exact cond
    · omega
  have small : v.toNat < 2 ^ numbits := by
    rw [same] at inRange
    exact_mod_cast inRange.2
  rw [reduced_unsigned declared.narrow whole, Nat.mod_eq_of_lt small, same]

def Declared.bitfield {T : BitsType} {numbits : Nat} {signExtend : Bool} (declared : Declared T numbits signExtend)
    (some : numbits ≠ 0) : Bitfield :=
  ⟨T, signExtend, numbits, declared.listed, Nat.pos_of_ne_zero some, declared.narrow⟩

theorem constant_survives_iff {lib : FloatLib} {type : Text} {T : BitsType} (fixed : fixedPointType type = some T)
    {p₀ p₁ : Input} {width : Width} (declared : constWidth type p₀ = .ok (width, p₁))
    (some : width.numbits ≠ 0)
    {zs : ZCMStruct} {p p' q : Input} {name token : Text} (header : constHeader zs p = .ok (name, token, p'))
    {zc : ZCMConstant} (accepted : constant lib type width zs p = .ok (zc, q)) :
    ∃ v, zc.val = Option.some v ∧
      (Survives ((constWidth_declared fixed declared).bitfield some) v ↔
        (width.signExtend = true ∨ IntCase.isHex token = false ∨
          ∃ n, numberOf 0 token = Option.some n ∧ n < 2 ^ width.numbits)) := by
  obtain ⟨v, s, ⟨e, run⟩, rfl⟩ := (constant_ok fixed header).mp ⟨q, accepted⟩
  refine ⟨v, rfl, ?_⟩
  have legal := constWidth_declared fixed declared
  rw [survives_iff]
  simp only [Declared.bitfield]
  cases hex : IntCase.isHex token with
  | false =>
      obtain ⟨n, number, inRange, rfl, -⟩ := (intCase_ok p'.erange legal hex).mp ⟨e, run⟩
      refine ⟨fun _ => .inr (.inl rfl), fun _ => ?_⟩
      rw [← toInt_ofInt_wrapped] at inRange
      cases signed : width.signExtend with
      | true =>
          rw [signed] at legal inRange
          have normal := signed_survives legal (BitVec.ofInt 64 (wrapped n))
          rwa [normalize_inRange legal inRange] at normal
      | false =>
          rw [signed] at legal inRange
          exact unsigned_survives legal some inRange
  | true =>
      obtain ⟨n, number, short, rfl⟩ := intCase_hex hex run
      cases signed : width.signExtend with
      | true =>
          rw [signed] at legal
          exact ⟨fun _ => .inl rfl, fun _ => signed_survives legal _⟩
      | false =>
          rw [signed] at legal
          obtain ⟨nonneg, lt⟩ := hex_lt hex number short
          obtain ⟨m, rfl⟩ := Int.eq_ofNat_of_zero_le nonneg
          have lt : m < 2 ^ T.width := by exact_mod_cast lt
          have word : m < 2 ^ 64 := lt.trans_le (Nat.pow_le_pow_right (by decide) (Coretypes.width_le T))
          have value : BitVec.ofInt 64 (wrapped m) = BitVec.ofNat 64 m := by
            rw [ofInt_wrapped, Int.natAbs_natCast, if_pos word, BitVec.ofInt_natCast]
          rw [value, unsigned_hex_iff legal lt, number]
          constructor
          · intro small
            exact .inr (.inr ⟨m, rfl, by exact_mod_cast small⟩)
          · rintro (yes | no | ⟨n, same, small⟩)
            · cases yes
            · cases no
            · obtain rfl := Option.some.inj same
              exact_mod_cast small

def int8Width3 : Width := ⟨3, false, some (text "3")⟩

theorem int8Width3_declared (value : String) :
    constWidth (text "int8_t") (tokens [":", "3", "x", "=", value, ";"]) =
      .ok (int8Width3, tokens ["x", "=", value, ";"]) := rfl

theorem seven_survives :
    ∃ v, some (7#64) = some v ∧ (Survives ⟨.int8_t, false, 3, by decide, by decide, by decide⟩ v ↔
      (false = true ∨ IntCase.isHex (text "0x07") = false ∨
        ∃ n, numberOf 0 (text "0x07") = some n ∧ n < 2 ^ 3)) :=
  @constant_survives_iff noFloats _ _ rfl _ _ _ (int8Width3_declared "0x07") (by decide) ⟨[], text "s", [], []⟩
    (tokens ["x", "=", "0x07", ";"]) (tokens [";"]) (tokens [";"]) (text "x") _ rfl
    ⟨text "int8_t", text "x", some 7, text "0x07", 3, false, some (text "3")⟩ rfl

/-- `const int8_t:3 x = 0xff;` declares the constant -1, and a field without a sign is never that. -/
theorem topBits_lost :
    constant noFloats (text "int8_t") int8Width3 ⟨[], text "s", [], []⟩ (tokens ["x", "=", "0xff", ";"]) =
      .ok (⟨text "int8_t", text "x", some (-1), text "0xff", 3, false, some (text "3")⟩, tokens [";"]) ∧
    ¬ Survives ⟨.int8_t, false, 3, by decide, by decide, by decide⟩ (-1) := by
  refine ⟨rfl, ?_⟩
  rw [survives_iff]
  decide

end Zcm.Gen.Parse
