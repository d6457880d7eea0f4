import Zcm.Gen.Parser

namespace Zcm.Gen.Parse
open Zcm.Lib Zcm.Coretypes

theorem require_ok {holds : Bool} {e : Error} {u : Unit} : require holds e = .ok u ↔ holds = true := by
  cases holds with
  | false => exact ⟨fun run => (by cases run), fun yes => absurd yes Bool.false_ne_true⟩
  | true => exact ⟨fun _ => rfl, fun _ => rfl⟩

structure Declared (T : BitsType) (numbits : Nat) (signExtend : Bool) : Prop where
  narrow : numbits ≤ T.width
  listed : signExtend = true → T ≠ .byte
  positive : signExtend = true → 1 ≤ numbits
  whole : T ≠ .byte → numbits = T.width → signExtend = true

def InRange (T : BitsType) (numbits : Nat) (signExtend : Bool) (v : Int) : Prop :=
  if numbits = 0 then IntCase.lowest T ≤ v ∧ v ≤ IntCase.max T
  else if signExtend then -2 ^ (numbits - 1) ≤ v ∧ v < 2 ^ (numbits - 1)
  else 0 ≤ v ∧ v < 2 ^ numbits

def wrapped (n : Int) : Int := if n.natAbs < 2 ^ 64 then Int.bmod n (2 ^ 64) else -1

theorem constWidth_declared {type : Text} {T : BitsType} (fixed : fixedPointType type = some T) {p p' : Input}
    {width : Width} (run : constWidth type p = .ok (width, p')) : Declared T width.numbits width.signExtend := by
  obtain ⟨⟨colon, p₁⟩, -, run⟩ := bind_ok.mp run
  cases colon with
  | false =>
      cases run
      have positive : 0 < T.width := by cases T <;> decide
      exact ⟨Nat.zero_le _, fun yes => absurd yes Bool.false_ne_true, fun yes => absurd yes Bool.false_ne_true,
        fun _ zero => absurd zero positive.ne⟩
  | true =>
      simp only [fixed] at run
      obtain ⟨⟨token, p₂⟩, -, run⟩ := bind_ok.mp run
      obtain ⟨_, some, run⟩ := bind_ok.mp run
      obtain ⟨_, narrow, run⟩ := bind_ok.mp run
      obtain ⟨_, listed, run⟩ := bind_ok.mp run
      obtain ⟨_, whole, run⟩ := bind_ok.mp run
      cases run
      rw [require_ok, decide_eq_true_eq] at some narrow listed whole
      refine ⟨narrow, fun signed byte => listed ⟨byte, signed⟩, fun _ => Nat.pos_of_ne_zero some,
        fun other same => ?_⟩
      by_contra unsigned
      exact whole ⟨other, same, unsigned⟩

section Range

variable {T : BitsType} {numbits : Nat} {signExtend : Bool}

theorem bounds_unsigned (positive : 1 ≤ numbits) (narrow : numbits ≤ T.width)
    (whole : T ≠ .byte → numbits < T.width) : IntCase.bounds T numbits false = (0, 2 ^ numbits - 1) := by
  cases T with
  | byte =>
      have all : ∀ n ≤ 8, 1 ≤ n → IntCase.bounds .byte n false = (0, 2 ^ n - 1) := by decide
      exact all numbits narrow positive
  | int8_t =>
      have all : ∀ n < 8, 1 ≤ n → IntCase.bounds .int8_t n false = (0, 2 ^ n - 1) := by decide
      exact all numbits (whole (by decide)) positive
  | int16_t =>
      have all : ∀ n < 16, 1 ≤ n → IntCase.bounds .int16_t n false = (0, 2 ^ n - 1) := by decide
      exact all numbits (whole (by decide)) positive
  | int32_t =>
      have all : ∀ n < 32, 1 ≤ n → IntCase.bounds .int32_t n false = (0, 2 ^ n - 1) := by decide +kernel
      exact all numbits (whole (by decide)) positive
  | int64_t =>
      have all : ∀ n < 64, 1 ≤ n → IntCase.bounds .int64_t n false = (0, 2 ^ n - 1) := by decide +kernel
      exact all numbits (whole (by decide)) positive

theorem bounds_signed (listed : T ≠ .byte) (positive : 1 ≤ numbits) (narrow : numbits ≤ T.width) :
    IntCase.bounds T numbits true = (-2 ^ (numbits - 1), 2 ^ (numbits - 1) - 1) := by
  cases T with
  | byte => exact absurd rfl listed
  | int8_t =>
      have all : ∀ n ≤ 8, 1 ≤ n → IntCase.bounds .int8_t n true = (-2 ^ (n - 1), 2 ^ (n - 1) - 1) := by decide
      exact all numbits narrow positive
  | int16_t =>
      have all : ∀ n ≤ 16, 1 ≤ n → IntCase.bounds .int16_t n true = (-2 ^ (n - 1), 2 ^ (n - 1) - 1) := by decide
      exact all numbits narrow positive
  | int32_t =>
      have all : ∀ n ≤ 32, 1 ≤ n → IntCase.bounds .int32_t n true = (-2 ^ (n - 1), 2 ^ (n - 1) - 1) := by
        decide +kernel
      exact all numbits narrow positive
  | int64_t =>
      have all : ∀ n ≤ 64, 1 ≤ n → IntCase.bounds .int64_t n true = (-2 ^ (n - 1), 2 ^ (n - 1) - 1) := by
        decide +kernel
      exact all numbits narrow positive

theorem bounds_iff (declared : Declared T numbits signExtend) (v : Int) :
    (IntCase.bounds T numbits signExtend).1 ≤ v ∧ v ≤ (IntCase.bounds T numbits signExtend).2 ↔
      InRange T numbits signExtend v := by
  rw [InRange]
  by_cases zero : numbits = 0
  · rw [IntCase.bounds, if_neg (not_not.mpr zero), if_pos zero]
  · rw [if_neg zero]
    have positive : 1 ≤ numbits := Nat.pos_of_ne_zero zero
    cases signExtend with
    | true =>
        rw [bounds_signed (declared.listed rfl) positive declared.narrow, if_pos rfl]
        simp only
        omega
    | false =>
        have whole (other : T ≠ .byte) : numbits < T.width :=
          Nat.lt_of_le_of_ne declared.narrow fun same => absurd (declared.whole other same) Bool.false_ne_true
        rw [bounds_unsigned positive declared.narrow whole, if_neg Bool.false_ne_true]
        simp only
        omega

theorem two_pow_le {m n : Nat} (le : m ≤ n) : (2 : Int) ^ m ≤ 2 ^ n := by
  exact_mod_cast Nat.pow_le_pow_right (by decide) le

theorem InRange.inType (declared : Declared T numbits signExtend) {v : Int} (inRange : InRange T numbits signExtend v) :
    IntCase.lowest T ≤ v ∧ v ≤ IntCase.max T := by
  rw [InRange] at inRange
  have narrow := declared.narrow
  split at inRange
  next => exact inRange
  next some =>
      rw [IntCase.lowest, IntCase.max]
      cases signExtend with
      | true =>
          rw [if_pos rfl] at inRange
          have wide := two_pow_le (show numbits - 1 ≤ T.width - 1 by omega)
          rw [if_neg (declared.listed rfl), if_neg (declared.listed rfl)]
          omega
      | false =>
          rw [if_neg Bool.false_ne_true] at inRange
          by_cases byte : T = .byte
          · have wide := two_pow_le narrow
            rw [if_pos byte, if_pos byte]
            omega
          · have other : numbits ≠ T.width := fun same => absurd (declared.whole byte same) Bool.false_ne_true
            have wide := two_pow_le (show numbits ≤ T.width - 1 by omega)
            have low : (0 : Int) < 2 ^ (T.width - 1) := Int.pow_pos (by decide)
            rw [if_neg byte, if_neg byte]
            omega

theorem inType_int64 {v : Int} (inType : IntCase.lowest T ≤ v ∧ v ≤ IntCase.max T) :
    -2 ^ 63 ≤ v ∧ v < 2 ^ 63 := by
  cases T with
  | byte =>
      have width : (2 : Int) ^ BitsType.byte.width = 256 := by decide
      rw [IntCase.lowest, IntCase.max, if_pos rfl, if_pos rfl] at inType
      omega
  | int8_t | int16_t | int32_t | int64_t =>
      simp [IntCase.lowest, IntCase.max] at inType
      omega

theorem toInt_inType (T : BitsType) (x : BitVec T.width) :
    IntCase.lowest T ≤ T.toInt x ∧ T.toInt x ≤ IntCase.max T := by
  rw [IntCase.lowest, IntCase.max]
  cases T with
  | byte =>
      have width : (2 : Int) ^ BitsType.byte.width = 256 := by decide
      have lt : x.toNat < 256 := x.isLt
      rw [if_pos rfl, if_pos rfl]
      exact ⟨Int.natCast_nonneg _, by simp only [BitsType.toInt]; omega⟩
  | int8_t | int16_t | int32_t | int64_t => exact ⟨x.le_toInt, Int.le_sub_one_of_lt x.toInt_lt⟩

theorem toInt_signed {T : BitsType} (listed : T ≠ .byte) (x : BitVec T.width) : T.toInt x = x.toInt := by
  cases T with
  | byte => exact absurd rfl listed
  | int8_t | int16_t | int32_t | int64_t => rfl

theorem normalize_signed {T : BitsType} {numbits : Nat} (listed : T ≠ .byte) (positive : 1 ≤ numbits)
    (narrow : numbits ≤ T.width) (v : BitVec 64) :
    (IntCase.normalize T numbits true v).toInt = (v.setWidth numbits).toInt := by
  have wide := width_le T
  obtain ⟨shift, width⟩ := Nat.exists_eq_add_of_le' narrow
  have half : 2 ∣ 2 ^ numbits := dvd_pow_self 2 (by omega)
  have divides : 2 ^ T.width ∣ 2 ^ 64 := Nat.pow_dvd_pow 2 wide
  have shifted : ((v <<< shift).setWidth T.width).toInt = 2 ^ shift * (v.setWidth numbits).toInt := by
    have cast : ((2 ^ shift : Nat) : Int) = 2 ^ shift := by
      push_cast
      rfl
    rw [BitVec.toInt_setWidth, BitVec.toInt_setWidth, BitVec.toNat_shiftLeft, Nat.shiftLeft_eq, Int.natCast_emod,
      ← Int.emod_bmod, Int.emod_emod_of_dvd _ (by exact_mod_cast divides), Int.emod_bmod, width, Nat.pow_add,
      Int.natCast_mul, Int.mul_comm (v.toNat : Int), Int.mod_bmod_mul_of_pos _ _ (Nat.two_pow_pos shift) half, cast]
  have small : -2 ^ 63 ≤ (v.setWidth numbits).toInt ∧ (v.setWidth numbits).toInt < 2 ^ 63 := by
    have low := (v.setWidth numbits).le_toInt
    have high := (v.setWidth numbits).toInt_lt
    have le := two_pow_le (show numbits - 1 ≤ 63 by omega)
    omega
  have distance : T.width - numbits = shift := by omega
  rw [IntCase.normalize, if_pos rfl]
  simp only [distance]
  rw [toInt_signed listed, shifted, Int.shiftRight_eq_div_pow]
  rw [show ((2 ^ shift : Nat) : Int) = 2 ^ shift by push_cast; rfl,
    Int.mul_ediv_cancel_left _ (Int.pow_pos (by decide)).ne', BitVec.toInt_ofInt,
    Int.bmod_eq_of_le (by omega) (by omega)]

theorem normalize_unsigned (T : BitsType) (numbits : Nat) (v : BitVec 64) :
    (IntCase.normalize T numbits false v).toInt = T.toInt (v.setWidth T.width) := by
  have small := inType_int64 (toInt_inType T (v.setWidth T.width))
  rw [IntCase.normalize, if_neg Bool.false_ne_true, BitVec.toInt_ofInt]
  exact Int.bmod_eq_of_le (by omega) (by omega)

theorem toInt_setWidth_inType (T : BitsType) (v : BitVec 64)
    (inType : IntCase.lowest T ≤ v.toInt ∧ v.toInt ≤ IntCase.max T) : T.toInt (v.setWidth T.width) = v.toInt := by
  rw [IntCase.lowest, IntCase.max] at inType
  cases T with
  | byte =>
      have width : (2 : Int) ^ BitsType.byte.width = 256 := by decide
      rw [if_pos rfl, if_pos rfl] at inType
      have signed := BitVec.toInt_eq_toNat_cond v
      have lt := v.isLt
      rw [BitsType.toInt, BitVec.toNat_setWidth, show 2 ^ BitsType.byte.width = 256 from rfl]
      split at signed
      · omega
      · omega
  | int8_t => exact (toInt_setWidth_bmod v (by decide)).trans (bmod_of_half inType.1 (Int.lt_of_le_sub_one inType.2))
  | int16_t => exact (toInt_setWidth_bmod v (by decide)).trans (bmod_of_half inType.1 (Int.lt_of_le_sub_one inType.2))
  | int32_t => exact (toInt_setWidth_bmod v (by decide)).trans (bmod_of_half inType.1 (Int.lt_of_le_sub_one inType.2))
  | int64_t => exact (toInt_setWidth_bmod v (by decide)).trans (bmod_of_half inType.1 (Int.lt_of_le_sub_one inType.2))

theorem normalize_inRange (declared : Declared T numbits signExtend) {v : BitVec 64}
    (inRange : InRange T numbits signExtend v.toInt) : IntCase.normalize T numbits signExtend v = v := by
  apply BitVec.eq_of_toInt_eq
  cases signExtend with
  | false =>
      rw [normalize_unsigned]
      exact toInt_setWidth_inType T v (inRange.inType declared)
  | true =>
      have positive := declared.positive rfl
      rw [InRange, if_neg (by omega), if_pos rfl] at inRange
      obtain ⟨n, rfl⟩ := Nat.exists_eq_add_of_le' positive
      rw [normalize_signed (declared.listed rfl) positive declared.narrow,
        toInt_setWidth_bmod v (declared.narrow.trans (width_le T))]
      exact bmod_of_half inRange.1 inRange.2

end Range

section Reading

variable {token : Text} (erange : Bool)

def converted (token : Text) (erange : Bool) : Conversion 64 :=
  if erange || (strtoll 0 token).outOfRange then strtoull 0 token else strtoll 0 token

theorem ofInt_wrapped (n : Int) :
    BitVec.ofInt 64 (wrapped n) = if n.natAbs < 2 ^ 64 then BitVec.ofInt 64 n else BitVec.allOnes 64 := by
  rw [wrapped]
  split
  · apply BitVec.eq_of_toInt_eq
    rw [BitVec.toInt_ofInt, BitVec.toInt_ofInt, Int.bmod_bmod]
  · decide

theorem wrapped_of_int64 {n : Int} (fits : -2 ^ 63 ≤ n ∧ n < 2 ^ 63) : wrapped n = n := by
  rw [wrapped, if_pos (by omega), Int.bmod_eq_of_le (by omega) (by omega)]

theorem wrapped_int64 (n : Int) : -2 ^ 63 ≤ wrapped n ∧ wrapped n < 2 ^ 63 := by
  rw [wrapped]
  split
  · have low := Int.le_bmod (x := n) (show 0 < 2 ^ 64 by decide)
    have high := Int.bmod_lt (x := n) (show 0 < 2 ^ 64 by decide)
    omega
  · decide

theorem toInt_ofInt_wrapped (n : Int) : (BitVec.ofInt 64 (wrapped n)).toInt = wrapped n := by
  have small := wrapped_int64 n
  rw [BitVec.toInt_ofInt, Int.bmod_eq_of_le (by omega) (by omega)]

theorem converted_number {n : Int} (number : numberOf 0 token = some n) :
    (converted token erange).rest ≠ token ∧ (converted token erange).rest = [] ∧
      (converted token erange).value = BitVec.ofInt 64 (wrapped n) := by
  have nonempty : [] ≠ token := by
    rintro rfl
    cases number
  rw [numberOf] at number
  cases read : Numeral.read 0 token with
  | none => simp [read] at number
  | some m =>
      rw [read] at number
      simp only at number
      split at number
      next whole =>
          obtain rfl := Option.some.inj number
          have unsigned : (strtoull 0 token).value = BitVec.ofInt 64 (wrapped m.value) := by
            rw [strtoull, read, ofInt_wrapped, m.natAbs_value]
            simp only
            split
            next big => exact (if_neg (Nat.not_lt.mpr big)).symm
            next small => exact (if_pos (Nat.not_le.mp small)).symm
          have same : (converted token erange).rest = [] ∧
              (converted token erange).value = BitVec.ofInt 64 (wrapped m.value) := by
            rw [converted]
            split
            next => exact ⟨(strtoull_rest read).trans whole, unsigned⟩
            next inRange =>
                refine ⟨(strtoll_rest read).trans whole, ?_⟩
                have noError : (strtoll 0 token).outOfRange = false := by
                  rw [Bool.or_eq_true, not_or, Bool.not_eq_true, Bool.not_eq_true] at inRange
                  exact inRange.2
                obtain ⟨fits, value⟩ := strtoll_inRange read noError
                rw [value, wrapped_of_int64 fits]
          exact ⟨same.1.symm ▸ nonempty, same⟩
      next => cases number

theorem converted_none (number : numberOf 0 token = none) :
    ¬ ((converted token erange).rest ≠ token ∧ (converted token erange).rest = []) := by
  rw [numberOf] at number
  rintro ⟨some, whole⟩
  cases read : Numeral.read 0 token with
  | none =>
      have rest : (converted token erange).rest = token := by
        rw [converted, strtoull, strtoll, read, ite_self]
      exact some rest
  | some m =>
      rw [read] at number
      have rest : (converted token erange).rest = m.rest := by
        rw [converted]
        split
        · exact strtoull_rest read
        · exact strtoll_rest read
      simp only [← rest, whole, if_true] at number
      cases number

theorem intCase_ok {T : BitsType} {numbits : Nat} {signExtend : Bool} (declared : Declared T numbits signExtend)
    (notHex : IntCase.isHex token = false) {v : BitVec 64} {s : Text} :
    (∃ e, intCase T numbits signExtend token erange = .ok (v, s, e)) ↔
      ∃ n, numberOf 0 token = some n ∧ InRange T numbits signExtend (wrapped n) ∧
        v = BitVec.ofInt 64 (wrapped n) ∧ s = decimalText (wrapped n) := by
  have unfolded : intCase T numbits signExtend token erange = (do
      require ((converted token erange).rest ≠ token ∧ (converted token erange).rest =
        []) (.parse "Expected integer value")
      require ((IntCase.bounds T numbits signExtend).1 ≤ (converted token erange).value.toInt ∧
        (converted token erange).value.toInt ≤ (IntCase.bounds T numbits signExtend).2)
        (IntCase.outOfBounds numbits signExtend)
      let v := IntCase.normalize T numbits signExtend (converted token erange).value
      return (v, decimalText v.toInt, erange || (strtoll 0 token).outOfRange)) := by
    rw [intCase]
    simp only [notHex, IntCase.valstr, Bool.false_eq_true, if_false]
    rfl
  rw [unfolded]
  simp only [bind_ok, require_ok, decide_eq_true_eq, bounds_iff declared]
  constructor
  · rintro ⟨e, _, read, _, inRange, run⟩
    cases number : numberOf 0 token with
    | none => exact absurd read (converted_none erange number)
    | some n =>
        obtain ⟨-, -, value⟩ := converted_number erange number
        rw [value] at inRange run
        rw [normalize_inRange declared inRange] at run
        rw [toInt_ofInt_wrapped] at inRange run
        cases run
        exact ⟨n, rfl, inRange, rfl, rfl⟩
  · rintro ⟨n, number, inRange, rfl, rfl⟩
    obtain ⟨some, whole, value⟩ := converted_number erange number
    rw [value, toInt_ofInt_wrapped, normalize_inRange declared (by rwa [toInt_ofInt_wrapped]), toInt_ofInt_wrapped]
    exact ⟨_, (), ⟨some, whole⟩, (), inRange, rfl⟩

end Reading

structure Decimal where
  negative : Bool
  digits : List Byte
  nonempty : digits ≠ []
  decimal : ∀ b ∈ digits, isDigitOf 10 b = true

namespace Decimal

def text (d : Decimal) : Text := (if d.negative then [charByte '-'] else []) ++ d.digits

def value (d : Decimal) : Int := if d.negative then -digitsValue 10 d.digits else digitsValue 10 d.digits

variable (d : Decimal)

theorem notHex : IntCase.isHex d.text = false := by
  have digit (b : Byte) (member : b ∈ d.digits) : b ≠ charByte 'x' ∧ b ≠ charByte 'X' := by
    have decimal := d.decimal b member
    constructor
    · rintro rfl
      exact absurd decimal (by decide)
    · rintro rfl
      exact absurd decimal (by decide)
  rw [IntCase.isHex, text]
  cases d.negative with
  | true =>
      have minus : charByte '-' ≠ charByte '0' := by decide
      simp [minus]
  | false =>
      rw [if_neg Bool.false_ne_true, List.nil_append]
      match digits : d.digits with
      | [] => rfl
      | [_] => rfl
      | a :: b :: rest =>
          obtain ⟨lower, upper⟩ := digit b (by rw [digits]; simp)
          simp [lower, upper]

theorem read (base : Nat) :
    Numeral.read base d.text = Numeral.readDigits d.negative (plainBase base d.digits) d.digits :=
  Numeral.read_decimal d.decimal d.nonempty d.negative base

theorem addDigit_mono {a b : Nat} (le : a ≤ b) (ds : List Byte) :
    ds.foldl (addDigit 8) a ≤ ds.foldl (addDigit 10) b := by
  induction ds generalizing a b with
  | nil => exact le
  | cons d ds ih =>
      rw [List.foldl_cons, List.foldl_cons]
      apply ih
      rw [addDigit, addDigit]
      exact Nat.add_le_add_right (Nat.mul_le_mul le (by decide)) _

theorem numberOf_le {n : Int} (number : numberOf 0 d.text = some n) :
    ∃ m ≤ digitsValue 10 d.digits, n = if d.negative then -(m : Int) else m := by
  rw [numberOf, d.read, Numeral.readDigits] at number
  by_cases none : d.digits.takeWhile (isDigitOf (plainBase 0 d.digits)) = []
  · rw [if_pos none] at number
    cases number
  · rw [if_neg none] at number
    simp only at number
    split at number
    next whole =>
        have all := List.dropWhile_eq_nil_iff.mp whole
        rw [List.takeWhile_eq_self_iff.mpr all, Numeral.value] at number
        refine ⟨_, ?_, (Option.some.inj number).symm⟩
        rw [plainBase, if_pos rfl]
        split
        · exact addDigit_mono le_rfl d.digits
        · exact le_rfl
    next => cases number

end Decimal

/-- The constant is accepted if its value is in the range, and then it has that value and says so. -/
structure MeansWhatItSays (T : BitsType) (numbits : Nat) (signExtend : Bool) (value : Int)
    (result : Except Error (ZCMConstant × Input)) : Prop where
  accepted : (∃ r, result = .ok r) ↔ InRange T numbits signExtend value
  stored : ∀ zc p, result = .ok (zc, p) →
    zc.val.map (·.toInt) = some value ∧ zc.valstr = decimalText value

/-- The number fits 64 bits, or what is left of it there is out of the range. If base 0 does not take it as decimal,
then neither the number nor what is left of the other is in the range. -/
def AsWritten (T : BitsType) (numbits : Nat) (signExtend : Bool) (d : Decimal) : Prop :=
  if numberOf 0 d.text = some d.value then
    -2 ^ 63 ≤ d.value ∧ d.value < 2 ^ 63 ∨ ¬ InRange T numbits signExtend (wrapped d.value)
  else ¬ InRange T numbits signExtend d.value ∧
    ∀ n, numberOf 0 d.text = some n → ¬ InRange T numbits signExtend (wrapped n)

theorem constant_ok {lib : FloatLib} {type : Text} {T : BitsType} (fixed : fixedPointType type = some T) {width : Width}
    {zs : ZCMStruct} {p p' : Input} {name token : Text} (header : constHeader zs p = .ok (name, token, p'))
    {zc : ZCMConstant} :
    (∃ q, constant lib type width zs p = .ok (zc, q)) ↔
      ∃ v s, (∃ e, intCase T width.numbits width.signExtend token p'.erange = .ok (v, s, e)) ∧
        zc = ⟨type, name, some v, s, BitVec.ofNat 8 width.numbits, width.signExtend, width.width⟩ := by
  rw [constant, header]
  simp only [constValue, fixed, bind_ok]
  constructor
  · rintro ⟨q, _, same, ⟨val, valstr, e⟩, ⟨⟨v, s, e'⟩, run, value⟩, last⟩
    cases same
    cases value
    cases last
    exact ⟨v, s, ⟨_, run⟩, rfl⟩
  · rintro ⟨v, s, ⟨e, run⟩, rfl⟩
    exact ⟨_, _, rfl, _, ⟨_, run, rfl⟩, rfl⟩

theorem constant_decimal {lib : FloatLib} {type : Text} {T : BitsType} (fixed : fixedPointType type = some T)
    {p₀ p₁ : Input} {width : Width} (declared : constWidth type p₀ = .ok (width, p₁)) {zs : ZCMStruct}
    {p p' : Input} {name : Text} (d : Decimal) (header : constHeader zs p = .ok (name, d.text, p')) {zc : ZCMConstant} :
    (∃ q, constant lib type width zs p = .ok (zc, q)) ↔
      ∃ n, numberOf 0 d.text = some n ∧ InRange T width.numbits width.signExtend (wrapped n) ∧
        zc = ⟨type, name, some (BitVec.ofInt 64 (wrapped n)), decimalText (wrapped n), BitVec.ofNat 8 width.numbits,
          width.signExtend, width.width⟩ := by
  rw [constant_ok fixed header]
  simp only [intCase_ok p'.erange (constWidth_declared fixed declared) d.notHex]
  constructor
  · rintro ⟨_, _, ⟨n, number, inRange, rfl, rfl⟩, rfl⟩
    exact ⟨n, number, inRange, rfl⟩
  · rintro ⟨n, number, inRange, rfl⟩
    exact ⟨_, _, ⟨n, number, inRange, rfl, rfl⟩, rfl⟩

theorem constant_meansWhatItSays_iff {lib : FloatLib} {type : Text} {T : BitsType}
    (fixed : fixedPointType type = some T) {p₀ p₁ : Input} {width : Width}
    (declared : constWidth type p₀ = .ok (width, p₁)) {zs : ZCMStruct} {p p' : Input} {name : Text} (d : Decimal)
    (header : constHeader zs p = .ok (name, d.text, p')) :
    MeansWhatItSays T width.numbits width.signExtend d.value (constant lib type width zs p) ↔
      AsWritten T width.numbits width.signExtend d := by
  have runs (zc : ZCMConstant) := @constant_decimal lib _ _ fixed _ _ _ declared _ _ _ _ d header zc
  have accepts : (∃ r, constant lib type width zs p = .ok r) ↔
      ∃ n, numberOf 0 d.text = some n ∧ InRange T width.numbits width.signExtend (wrapped n) := by
    constructor
    · rintro ⟨⟨zc, q⟩, run⟩
      obtain ⟨n, number, inRange, -⟩ := (runs zc).mp ⟨q, run⟩
      exact ⟨n, number, inRange⟩
    · rintro ⟨n, number, inRange⟩
      obtain ⟨q, run⟩ := (runs _).mpr ⟨n, number, inRange, rfl⟩
      exact ⟨_, run⟩
  have small {v : Int} (inRange : InRange T width.numbits width.signExtend v) : -2 ^ 63 ≤ v ∧ v < 2 ^ 63 :=
    inType_int64 (inRange.inType (constWidth_declared fixed declared))
  rw [AsWritten]
  split
  next number =>
      constructor
      · intro means
        by_contra neither
        rw [not_or, not_not] at neither
        obtain ⟨big, inRange⟩ := neither
        exact big (small (means.accepted.mp (accepts.mpr ⟨_, number, inRange⟩)))
      · intro fits
        have same (inRange : InRange T width.numbits width.signExtend (wrapped d.value)) : wrapped d.value = d.value :=
          fits.elim wrapped_of_int64 fun outside => absurd inRange outside
        refine ⟨accepts.trans ⟨?_, ?_⟩, ?_⟩
        · rintro ⟨n, read, inRange⟩
          obtain rfl := Option.some.inj (number.symm.trans read)
          rwa [same inRange] at inRange
        · intro inRange
          exact ⟨_, number, by rwa [wrapped_of_int64 (small inRange)]⟩
        · intro zc q run
          obtain ⟨n, read, inRange, rfl⟩ := (runs zc).mp ⟨q, run⟩
          obtain rfl := Option.some.inj (number.symm.trans read)
          rw [Option.map_some, toInt_ofInt_wrapped, same inRange]
          exact ⟨rfl, rfl⟩
  next other =>
      constructor
      · intro means
        have never (n : Int) (read : numberOf 0 d.text = some n) :
            ¬ InRange T width.numbits width.signExtend (wrapped n) := by
          intro inRange
          obtain ⟨q, run⟩ := (runs _).mpr ⟨n, read, inRange, rfl⟩
          have stored := (means.stored _ _ run).1
          rw [Option.map_some, toInt_ofInt_wrapped] at stored
          have value := Option.some.inj stored
          have fits := small (means.accepted.mp ⟨_, run⟩)
          obtain ⟨m, le, rfl⟩ := d.numberOf_le read
          have notWrapped : -2 ^ 63 ≤ (if d.negative then -(m : Int) else m) ∧
              (if d.negative then -(m : Int) else m) < 2 ^ 63 := by
            rw [Decimal.value] at fits
            cases negative : d.negative with
            | true =>
                simp only [negative, if_true] at fits ⊢
                omega
            | false =>
                simp only [negative, Bool.false_eq_true, if_false] at fits ⊢
                omega
          rw [wrapped_of_int64 notWrapped] at value
          exact other (read.trans (congrArg some value))
        refine ⟨fun inRange => ?_, never⟩
        obtain ⟨n, read, inRange'⟩ := accepts.mp (means.accepted.mpr inRange)
        exact never n read inRange'
      · rintro ⟨outside, never⟩
        have rejected : ¬ ∃ r, constant lib type width zs p = .ok r := by
          rw [accepts]
          rintro ⟨n, read, inRange⟩
          exact never n read inRange
        exact ⟨⟨fun run => absurd run rejected, fun inRange => absurd inRange outside⟩,
          fun zc q run => absurd ⟨_, run⟩ rejected⟩

def tokens (texts : List String) : Input := ⟨texts.map fun s => some ⟨.ZCM_TOK_OTHER, text s⟩, false⟩

def noFloats : FloatLib := ⟨Unit, fun s => ((), s, false), fun _ _ => false⟩

def hundredTwentySeven : Decimal := ⟨false, text "127", by decide, by decide⟩

theorem hundredTwentySeven_means : MeansWhatItSays .int8_t 0 false 127
    (constant noFloats (text "int8_t") ⟨0, false, none⟩ ⟨[], text "s", [], []⟩
      (tokens ["x", "=", "127", ";"])) :=
  (@constant_meansWhatItSays_iff _ _ _ rfl (tokens ["x", "=", "127", ";"]) (tokens ["x", "=", "127", ";"]) _ rfl _ _
    (tokens [";"]) (text "x") hundredTwentySeven rfl).mpr
    (by rw [AsWritten, if_pos (by decide)]; exact .inl (by decide))

/-- `const int8_t x = 99999999999999999999;` declares the constant -1. -/
theorem longConstant_accepted : ¬ MeansWhatItSays .int8_t 0 false 99999999999999999999
    (constant noFloats (text "int8_t") ⟨0, false, none⟩ ⟨[], text "s", [], []⟩
      (tokens ["x", "=", "99999999999999999999", ";"])) := by
  intro means
  have run : constant noFloats (text "int8_t") ⟨0, false, none⟩ ⟨[], text "s", [], []⟩
      (tokens ["x", "=", "99999999999999999999", ";"]) =
        .ok (⟨text "int8_t", text "x", some (-1), text "-1", 0, false, none⟩,
          { tokens [";"] with erange := true }) := by
    rfl
  have inRange := means.accepted.mp ⟨_, run⟩
  rw [InRange, if_pos rfl] at inRange
  exact absurd inRange (by decide)

end Zcm.Gen.Parse
