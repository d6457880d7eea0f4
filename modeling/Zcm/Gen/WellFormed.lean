import Mathlib.Data.List.Nodup
import Zcm.Gen.Constants

namespace Zcm.Gen.Parse
open Zcm.Lib Zcm.Coretypes

def WidthKept (type : Text) (numbits : BitVec 8) (signExtend : Bool) (width : Option Text) : Prop :=
  ∀ token, width = some token → ∃ T w, fixedPointType type = some T ∧ numberOf 10 token = some w ∧
    1 ≤ w.natAbs ∧
    w.natAbs ≤ T.width ∧ (T ≠ .byte → 0 < w → w.natAbs < T.width) ∧ numbits.toNat = w.natAbs ∧
    signExtend = decide (w < 0)

def dimensionNumber (zs : ZCMStruct) (token : Text) : Option Int :=
  match zs.findConst token with
  | some c => c.val.map (·.toInt)
  | none => numberOf 0 token

structure WellFormed (zs : ZCMStruct) : Prop where
  names : (zs.members.map (·.membername) ++ zs.constants.map (·.membername)).Nodup
  memberWidths : ∀ m ∈ zs.members, WidthKept m.type.fullname m.type.numbits m.type.signExtend m.type.width
  constantWidths : ∀ c ∈ zs.constants, WidthKept c.type c.numbits c.signExtend c.width
  earlier : ∀ before m after, zs.members = before ++ m :: after → ∀ dim ∈ m.dimensions, dim.mode = .ZCM_VAR →
    ∃ v ∈ before, v.membername = dim.size ∧ v.dimensions = [] ∧ isArrayDimType v.type.fullname = true
  sizes : ∀ m ∈ zs.members, ∀ dim ∈ m.dimensions, dim.mode = .ZCM_CONST →
    ∃ n, 0 < n ∧ dimensionNumber zs dim.token = some n ∧ numberOf 0 dim.size = some n

def PlainWidth (width : Option Text) : Prop :=
  ∀ token, width = some token → ∃ w, numberOf 10 token = some w ∧ w.natAbs < 256

/-- The tokens are numbers from the first character to the last, and the constants in brackets are positive. -/
structure Plain (zs : ZCMStruct) : Prop where
  memberWidths : ∀ m ∈ zs.members, PlainWidth m.type.width
  constantWidths : ∀ c ∈ zs.constants, PlainWidth c.width
  sizes : ∀ m ∈ zs.members, ∀ dim ∈ m.dimensions, dim.mode = .ZCM_CONST →
    match zs.findConst dim.token with
    | some c => ∃ v, c.val = some v ∧ 0 < v.toInt
    | none => numberOf 0 dim.token ≠ none

def WidthChecked (type : Text) (numbits : BitVec 8) (signExtend : Bool) (width : Option Text) : Prop :=
  ∀ token, width = some token → ∃ T, fixedPointType type = some T ∧ 1 ≤ numbits.toNat ∧
    numbits.toNat ≤ T.width ∧
    (T ≠ .byte → numbits.toNat = T.width → signExtend = true) ∧
    ∀ w, numberOf 10 token = some w → w.natAbs < 256 → numbits.toNat = w.natAbs ∧ signExtend = decide (w < 0)

theorem widthKept_iff {type : Text} {numbits : BitVec 8} {signExtend : Bool} {width : Option Text}
    (checked : WidthChecked type numbits signExtend width) :
    WidthKept type numbits signExtend width ↔ PlainWidth width := by
  constructor
  · intro kept token written
    obtain ⟨T, w, -, number, -, narrow, -⟩ := kept token written
    have wide := width_le T
    exact ⟨w, number, by omega⟩
  · intro plain token written
    obtain ⟨w, number, small⟩ := plain token written
    obtain ⟨T, fixed, positive, narrow, whole, value⟩ := checked token written
    obtain ⟨same, signed⟩ := value w number small
    refine ⟨T, w, fixed, number, by omega, by omega, fun other above => ?_, same, signed⟩
    have notWhole : numbits.toNat ≠ T.width := by
      intro all
      have extends' := whole other all
      rw [signed, decide_eq_true_eq] at extends'
      omega
    omega

def ValueTold (c : ZCMConstant) : Prop :=
  isArrayDimType c.type = true → ∃ v, c.val = some v ∧ (0 < v.toInt → numberOf 0 c.valstr = some v.toInt)

def DimensionChecked (zs : ZCMStruct) (dim : ZCMDimension) : Prop :=
  match dim.mode with
  | .ZCM_CONST =>
      match zs.findConst dim.token with
      | some c => isArrayDimType c.type = true ∧ dim.size = c.valstr
      | none => dim.size = dim.token ∧ dim.token.head?.any (isDigitOf 10) = true ∧
          ∀ n, numberOf 0 dim.token = some n → 0 < n
  | .ZCM_VAR => ∃ v ∈ zs.members, v.membername = dim.size ∧ v.dimensions = [] ∧
      isArrayDimType v.type.fullname = true

structure Parsed (zs : ZCMStruct) : Prop where
  names : (zs.members.map (·.membername) ++ zs.constants.map (·.membername)).Nodup
  legal : ∀ c ∈ zs.constants, isLegalMemberName c.membername = true
  memberWidths : ∀ m ∈ zs.members, WidthChecked m.type.fullname m.type.numbits m.type.signExtend m.type.width
  constantWidths : ∀ c ∈ zs.constants, WidthChecked c.type c.numbits c.signExtend c.width
  told : ∀ c ∈ zs.constants, ValueTold c
  dimensions : ∀ before m after, zs.members = before ++ m :: after → ∀ dim ∈ m.dimensions,
    DimensionChecked { zs with members := before } dim

theorem Parsed.wellFormed_iff {zs : ZCMStruct} (parsed : Parsed zs) : WellFormed zs ↔ Plain zs := by
  constructor
  · intro wellFormed
    refine ⟨fun m member => (widthKept_iff (parsed.memberWidths m member)).mp (wellFormed.memberWidths m member),
      fun c member => (widthKept_iff (parsed.constantWidths c member)).mp (wellFormed.constantWidths c member), ?_⟩
    intro m member dim inside const
    obtain ⟨n, positive, number, -⟩ := wellFormed.sizes m member dim inside const
    rw [dimensionNumber] at number
    cases found : zs.findConst dim.token with
    | some c =>
        simp only [found] at number
        obtain ⟨v, value, rfl⟩ := Option.map_eq_some_iff.mp number
        exact ⟨v, value, positive⟩
    | none =>
        simp only [found] at number
        simp [number]
  · intro plain
    have checked (m : ZCMMember) (member : m ∈ zs.members) :
        ∃ before, (∀ v ∈ before, v ∈ zs.members) ∧ ∀ dim ∈ m.dimensions,
          DimensionChecked { zs with members := before } dim := by
      obtain ⟨before, after, split⟩ := List.append_of_mem member
      refine ⟨before, fun v earlier => ?_, parsed.dimensions before m after split⟩
      rw [split]
      exact List.mem_append_left _ earlier
    refine ⟨parsed.names,
      fun m member => (widthKept_iff (parsed.memberWidths m member)).mpr (plain.memberWidths m member),
      fun c member => (widthKept_iff (parsed.constantWidths c member)).mpr (plain.constantWidths c member), ?_, ?_⟩
    · intro before m after split dim inside var
      have dimension := parsed.dimensions before m after split dim inside
      simp only [DimensionChecked, var] at dimension
      exact dimension
    · intro m member dim inside const
      obtain ⟨before, -, dimensions⟩ := checked m member
      have dimension := dimensions dim inside
      have sizes := plain.sizes m member dim inside const
      rw [DimensionChecked, const] at dimension
      rw [dimensionNumber]
      change match zs.findConst dim.token with
        | some c => isArrayDimType c.type = true ∧ dim.size = c.valstr
        | none => dim.size = dim.token ∧ dim.token.head?.any (isDigitOf 10) = true ∧
            ∀ n, numberOf 0 dim.token = some n → 0 < n at dimension
      cases found : zs.findConst dim.token with
      | some c =>
          simp only [found] at dimension sizes ⊢
          obtain ⟨integer, size⟩ := dimension
          obtain ⟨v, value, positive⟩ := sizes
          obtain ⟨v', value', told⟩ := parsed.told c (List.mem_of_find?_eq_some found) integer
          obtain rfl := Option.some.inj (value.symm.trans value')
          rw [value, size]
          exact ⟨v.toInt, positive, rfl, told positive⟩
      | none =>
          simp only [found] at dimension sizes ⊢
          obtain ⟨size, -, above⟩ := dimension
          obtain ⟨n, number⟩ := Option.ne_none_iff_exists'.mp sizes
          rw [size, number]
          exact ⟨n, above n number, rfl, rfl⟩

section Steps

variable {zs : ZCMStruct}

theorem fresh_member {name : Text} (fresh : (zs.findMember name).isNone = true) :
    name ∉ zs.members.map (·.membername) := by
  intro member
  obtain ⟨m, inside, same⟩ := List.mem_map.mp member
  have none := List.find?_eq_none.mp (Option.isNone_iff_eq_none.mp fresh) m inside
  exact none (by simpa using same)

theorem fresh_const {name : Text} (fresh : (zs.findConst name).isNone = true) :
    name ∉ zs.constants.map (·.membername) := by
  intro member
  obtain ⟨c, inside, same⟩ := List.mem_map.mp member
  have none := List.find?_eq_none.mp (Option.isNone_iff_eq_none.mp fresh) c inside
  exact none (by simpa using same)

theorem legal_not_digit {name : Text} (legal : isLegalMemberName name = true) :
    ¬ name.head?.any (isDigitOf 10) = true := by
  rw [isLegalMemberName] at legal
  cases first : name.head? with
  | none => simp
  | some b =>
      simp only [first, Option.any_some, Bool.or_eq_true, decide_eq_true_eq] at legal ⊢
      rw [isDigitOf_ten_iff]
      obtain alpha | rfl := legal
      · simp only [isalpha, Bool.or_eq_true, Bool.and_eq_true, decide_eq_true_eq] at alpha
        omega
      · decide

theorem DimensionChecked.addConstant {dim : ZCMDimension} (checked : DimensionChecked zs dim) {zc : ZCMConstant}
    (legal : isLegalMemberName zc.membername = true) :
    DimensionChecked { zs with constants := zs.constants ++ [zc] } dim := by
  rw [DimensionChecked] at checked ⊢
  cases mode : dim.mode with
  | ZCM_VAR =>
      rw [mode] at checked
      exact checked
  | ZCM_CONST =>
      rw [mode] at checked
      simp only [ZCMStruct.findConst, List.find?_append] at checked ⊢
      cases found : zs.constants.find? (·.membername = dim.token) with
      | some c => simpa [found] using checked
      | none =>
          simp only [found] at checked
          have other : ¬ zc.membername = dim.token := by
            intro same
            rw [same] at legal
            exact legal_not_digit legal checked.2.1
          simpa [found, other] using checked

theorem Parsed.addConstant (parsed : Parsed zs) {zc : ZCMConstant} (legal : isLegalMemberName zc.membername = true)
    (freshMember : (zs.findMember zc.membername).isNone = true)
    (freshConst : (zs.findConst zc.membername).isNone = true)
    (width : WidthChecked zc.type zc.numbits zc.signExtend zc.width) (told : ValueTold zc) :
    Parsed { zs with constants := zs.constants ++ [zc] } := by
  refine ⟨?_, ?_, parsed.memberWidths, ?_, ?_, fun before m after split dim inside =>
    (parsed.dimensions before m after split dim inside).addConstant legal⟩
  · have names := parsed.names
    rw [List.map_append, ← List.append_assoc, List.nodup_append]
    refine ⟨names, List.nodup_singleton _, ?_⟩
    rintro a member b single rfl
    obtain rfl := List.mem_singleton.mp single
    obtain inMembers | inConstants := List.mem_append.mp member
    · exact fresh_member freshMember inMembers
    · exact fresh_const freshConst inConstants
  · intro c member
    obtain old | single := List.mem_append.mp member
    · exact parsed.legal c old
    · obtain rfl := List.mem_singleton.mp single
      exact legal
  · intro c member
    obtain old | single := List.mem_append.mp member
    · exact parsed.constantWidths c old
    · obtain rfl := List.mem_singleton.mp single
      exact width
  · intro c member
    obtain old | single := List.mem_append.mp member
    · exact parsed.told c old
    · obtain rfl := List.mem_singleton.mp single
      exact told

theorem Parsed.addMember (parsed : Parsed zs) {zm : ZCMMember}
    (freshMember : (zs.findMember zm.membername).isNone = true)
    (freshConst : (zs.findConst zm.membername).isNone = true)
    (width : WidthChecked zm.type.fullname zm.type.numbits zm.type.signExtend zm.type.width)
    (dimensions : ∀ dim ∈ zm.dimensions, DimensionChecked zs dim) :
    Parsed { zs with members := zs.members ++ [zm] } := by
  refine ⟨?_, parsed.legal, ?_, parsed.constantWidths, parsed.told, ?_⟩
  · have names := parsed.names
    have order : (zs.members ++ [zm]).map (·.membername) ++ zs.constants.map (·.membername) =
        zs.members.map (·.membername) ++ zm.membername :: zs.constants.map (·.membername) := by
      simp
    rw [order, List.nodup_middle, List.nodup_cons]
    refine ⟨?_, names⟩
    intro member
    obtain inMembers | inConstants := List.mem_append.mp member
    · exact fresh_member freshMember inMembers
    · exact fresh_const freshConst inConstants
  · intro m member
    obtain old | single := List.mem_append.mp member
    · exact parsed.memberWidths m old
    · obtain rfl := List.mem_singleton.mp single
      exact width
  · intro before m after split dim inside
    obtain rfl | ⟨after, last, rfl⟩ := List.eq_nil_or_concat after
    · obtain ⟨rfl, same⟩ := List.append_inj' split rfl
      obtain rfl := List.cons.inj same |>.1
      exact dimensions dim inside
    · have regroup : zs.members ++ [zm] = (before ++ m :: after) ++ [last] := by
        simpa using split
      obtain ⟨members, -⟩ := List.append_inj' regroup rfl
      exact parsed.dimensions before m after members dim inside

end Steps

section Widths

variable {type : Text}

theorem toNat_of_toInt {w : Nat} {x : BitVec w} {n : Nat} (value : x.toInt = n) : x.toNat = n := by
  have cond := BitVec.toInt_eq_toNat_cond x
  have lt := x.isLt
  have cast : ((2 ^ w : Nat) : Int) = 2 ^ w := by
    push_cast
    rfl
  split at cond
  · omega
  · omega

theorem atoi_neg {token : Text} {w : Int} (number : numberOf 10 token = some w) (small : w.natAbs < 256)
    (negative : w < 0) : (-(atoi token).value).toInt = w.natAbs := by
  rw [BitVec.toInt_neg, atoi_number number (by omega), Int.bmod_eq_of_le (by omega) (by omega)]
  omega

theorem constWidth_checked {p p' : Input} {width : Width} (run : constWidth type p = .ok (width, p')) :
    WidthChecked type (BitVec.ofNat 8 width.numbits) width.signExtend width.width := by
  rw [constWidth] at run
  obtain ⟨⟨colon, p₁⟩, -, run⟩ := bind_ok.mp run
  cases colon with
  | false =>
      cases run
      intro token written
      cases written
  | true =>
      simp only at run
      cases fixed : fixedPointType type with
      | none => simp [fixed] at run
      | some T =>
          simp only [fixed] at run
          obtain ⟨⟨token, p₂⟩, -, run⟩ := bind_ok.mp run
          obtain ⟨_, some, run⟩ := bind_ok.mp run
          obtain ⟨_, narrow, run⟩ := bind_ok.mp run
          obtain ⟨_, -, run⟩ := bind_ok.mp run
          obtain ⟨_, whole, run⟩ := bind_ok.mp run
          cases run
          rw [require_ok, decide_eq_true_eq] at some narrow whole
          rintro _ ⟨⟩
          have wide := width_le T
          generalize decided : decide ((atoi token).value.toInt < 0) = signed at some narrow whole ⊢
          refine ⟨T, fixed, ?_⟩
          simp only
          generalize same : (if signed = true then ((-(atoi token).value).signExtend 64).toNat
            else (atoi token).value.toNat) = n at some narrow whole ⊢
          have kept : (BitVec.ofNat 8 n).toNat = n := by
            rw [BitVec.toNat_ofNat]
            omega
          rw [kept]
          refine ⟨by omega, narrow, fun other all => ?_, fun w number small => ?_⟩
          · by_contra unsigned
            exact whole ⟨other, all, unsigned⟩
          · rw [atoi_number number (by omega)] at decided
            refine ⟨?_, decided.symm⟩
            rw [← same]
            by_cases negative : w < 0
            · rw [if_pos (decided.symm.trans (decide_eq_true negative))]
              apply toNat_of_toInt
              rw [BitVec.toInt_signExtend_of_le (by decide), atoi_neg number small negative]
            · rw [if_neg (by rw [← decided]; simpa using negative)]
              apply toNat_of_toInt
              rw [atoi_number number (by omega)]
              omega

theorem memberWidth_checked {p p' : Input} {zt : ZCMTypename} (run : memberWidth type p = .ok (zt, p')) :
    zt.fullname = type ∧ WidthChecked zt.fullname zt.numbits zt.signExtend zt.width := by
  rw [memberWidth] at run
  obtain ⟨⟨colon, p₁⟩, -, run⟩ := bind_ok.mp run
  cases colon with
  | false =>
      cases run
      refine ⟨rfl, ?_⟩
      intro token written
      cases written
  | true =>
      simp only at run
      cases fixed : fixedPointType type with
      | none => simp [fixed] at run
      | some T =>
          simp only [fixed] at run
          obtain ⟨⟨token, p₂⟩, -, run⟩ := bind_ok.mp run
          obtain ⟨_, -, run⟩ := bind_ok.mp run
          obtain ⟨_, some, run⟩ := bind_ok.mp run
          obtain ⟨_, narrow, run⟩ := bind_ok.mp run
          obtain ⟨_, -, run⟩ := bind_ok.mp run
          obtain ⟨_, whole, run⟩ := bind_ok.mp run
          cases run
          rw [require_ok, decide_eq_true_eq] at some narrow whole
          refine ⟨rfl, ?_⟩
          rintro _ ⟨⟩
          generalize decided : decide ((atoi token).value.toInt < 0) = signed at some narrow whole ⊢
          refine ⟨T, fixed, ?_⟩
          simp only
          refine ⟨Nat.pos_of_ne_zero fun zero => some (BitVec.eq_of_toNat_eq zero), narrow, fun other all => ?_,
            fun w number small => ?_⟩
          · by_contra unsigned
            exact whole ⟨other, all, unsigned⟩
          · rw [atoi_number number (by omega)] at decided
            refine ⟨?_, decided.symm⟩
            rw [BitVec.toNat_setWidth]
            by_cases negative : w < 0
            · rw [if_pos (decided.symm.trans (decide_eq_true negative)),
                toNat_of_toInt (atoi_neg number small negative)]
              exact Nat.mod_eq_of_lt small
            · have value : (atoi token).value.toInt = w.natAbs := by
                rw [atoi_number number (by omega)]
                omega
              rw [if_neg (by rw [← decided]; simpa using negative), toNat_of_toInt value]
              exact Nat.mod_eq_of_lt small

end Widths

section Values

variable {T : BitsType} {numbits : Nat} {signExtend : Bool}

theorem normalize_inType (declared : Declared T numbits signExtend) (v : BitVec 64) :
    IntCase.lowest T ≤ (IntCase.normalize T numbits signExtend v).toInt ∧
      (IntCase.normalize T numbits signExtend v).toInt ≤ IntCase.max T := by
  cases signExtend with
  | false =>
      rw [normalize_unsigned]
      exact toInt_inType T _
  | true =>
      have listed := declared.listed rfl
      have low := BitVec.le_toInt (v.setWidth numbits)
      have high := BitVec.toInt_lt (x := v.setWidth numbits)
      have narrow := declared.narrow
      have wide := two_pow_le (show numbits - 1 ≤ T.width - 1 by omega)
      rw [normalize_signed listed (declared.positive rfl) narrow, IntCase.lowest, IntCase.max, if_neg listed,
        if_neg listed]
      omega

theorem valstr_number {v : BitVec 64} (inType : v.toInt ≤ IntCase.max T) (token : Text) (positive : 0 < v.toInt) :
    numberOf 0 (IntCase.valstr T token v) = some v.toInt := by
  rw [IntCase.valstr]
  split
  next =>
      have value : ((v.setWidth T.width).toNat : Int) = v.toInt := by
        have unsigned : v.toNat = v.toInt.toNat := toNat_of_toInt (Int.toNat_of_nonneg positive.le).symm
        have max : IntCase.max T < 2 ^ T.width := by
          have half := two_pow_le (show T.width - 1 ≤ T.width by omega)
          rw [IntCase.max]
          split
          · omega
          · omega
        have lt : v.toNat < 2 ^ T.width := by
          have cast : ((2 ^ T.width : Nat) : Int) = 2 ^ T.width := by
            push_cast
            rfl
          omega
        rw [BitVec.toNat_setWidth, Nat.mod_eq_of_lt lt]
        omega
      rw [numberOf_hexText, value]
  next => exact numberOf_decimalText v.toInt

theorem intCase_told (declared : Declared T numbits signExtend) {token : Text} {erange : Bool} {v : BitVec 64}
    {s : Text}
    {e : Bool} (run : intCase T numbits signExtend token erange = .ok (v, s, e)) (positive : 0 < v.toInt) :
    numberOf 0 s = some v.toInt := by
  rw [intCase] at run
  obtain ⟨_, -, run⟩ := bind_ok.mp run
  cases hex : IntCase.isHex token with
  | true =>
      simp only [hex, if_true] at run
      obtain ⟨_, -, run⟩ := bind_ok.mp run
      obtain ⟨_, -, run⟩ := bind_ok.mp run
      cases run
      exact valstr_number (normalize_inType declared _).2 token positive
  | false =>
      simp only [hex, Bool.false_eq_true, if_false] at run
      obtain ⟨_, -, run⟩ := bind_ok.mp run
      cases run
      exact valstr_number (normalize_inType declared _).2 token positive

theorem arrayDimType_fixed {type : Text} (integer : isArrayDimType type = true) :
    ∃ T, fixedPointType type = some T := by
  rw [isArrayDimType, decide_eq_true_eq, arrayDimTypes] at integer
  obtain ⟨name, listed, rfl⟩ := List.mem_map.mp integer
  have all : ∀ name ∈ ["int8_t", "int16_t", "int32_t", "int64_t"], (fixedPointType (text name)).isSome = true := by
    decide
  exact Option.isSome_iff_exists.mp (all name listed)

end Values

section Runs

variable {lib : FloatLib} {zs zs' : ZCMStruct} {p p' : Input}

theorem Parsed.constant {type : Text} {p₀ p₁ : Input} {width : Width}
    (declared : constWidth type p₀ = .ok (width, p₁))
    (parsed : Parsed zs) {zc : ZCMConstant} (run : constant lib type width zs p = .ok (zc, p')) :
    Parsed { zs with constants := zs.constants ++ [zc] } := by
  have whole := run
  rw [Parse.constant] at run
  obtain ⟨⟨name, token, p₂⟩, header, run⟩ := bind_ok.mp run
  obtain ⟨⟨val, valstr, e⟩, -, run⟩ := bind_ok.mp run
  cases run
  have started := header
  rw [constHeader] at started
  obtain ⟨⟨_, _⟩, -, started⟩ := bind_ok.mp started
  obtain ⟨_, legal, started⟩ := bind_ok.mp started
  obtain ⟨_, freshMember, started⟩ := bind_ok.mp started
  obtain ⟨_, freshConst, started⟩ := bind_ok.mp started
  obtain ⟨_, -, started⟩ := bind_ok.mp started
  obtain ⟨⟨_, _⟩, -, started⟩ := bind_ok.mp started
  cases started
  rw [require_ok] at legal freshMember freshConst
  refine parsed.addConstant legal freshMember freshConst (constWidth_checked declared) fun integer => ?_
  obtain ⟨T, fixed⟩ := arrayDimType_fixed integer
  obtain ⟨v, s, ⟨e', value⟩, same⟩ := (constant_ok fixed header).mp ⟨_, whole⟩
  cases same
  exact ⟨v, rfl, intCase_told (constWidth_declared fixed declared) value⟩

theorem Parsed.constants {type : Text} {p₀ p₁ : Input} {width : Width}
    (declared : constWidth type p₀ = .ok (width, p₁))
    (parsed : Parsed zs) {fuel : Nat} (run : constants lib type width fuel zs p = .ok (zs', p')) : Parsed zs' := by
  induction fuel generalizing zs p with
  | zero => cases run
  | succ fuel ih =>
      rw [Parse.constants] at run
      obtain ⟨⟨zc, p₂⟩, one, run⟩ := bind_ok.mp run
      obtain ⟨⟨more, p₃⟩, -, run⟩ := bind_ok.mp run
      have next := parsed.constant declared one
      cases more with
      | true => exact ih next run
      | false =>
          cases run
          exact next

theorem Parsed.parseConst (parsed : Parsed zs) {fuel : Nat} (run : parseConst lib fuel zs p = .ok (zs', p')) :
    Parsed zs' := by
  rw [Parse.parseConst] at run
  obtain ⟨⟨type, p₁⟩, -, run⟩ := bind_ok.mp run
  obtain ⟨_, -, run⟩ := bind_ok.mp run
  obtain ⟨⟨width, p₂⟩, declared, run⟩ := bind_ok.mp run
  obtain ⟨⟨zs₁, p₃⟩, loop, run⟩ := bind_ok.mp run
  obtain ⟨p₄, -, run⟩ := bind_ok.mp run
  cases run
  exact parsed.constants declared loop

theorem dimension_checked {token : Text} {erange e : Bool} {dim : ZCMDimension}
    (run : dimension zs token erange = .ok (dim, e)) : DimensionChecked zs dim := by
  rw [dimension] at run
  cases found : zs.findConst token with
  | some c =>
      simp only [found] at run
      obtain ⟨_, integer, run⟩ := bind_ok.mp run
      cases run
      rw [require_ok] at integer
      simp only [DimensionChecked, found]
      exact ⟨integer, trivial⟩
  | none =>
      simp only [found] at run
      split at run
      next digit =>
          obtain ⟨_, above, run⟩ := bind_ok.mp run
          cases run
          rw [require_ok, decide_eq_true_eq] at above
          simp only [DimensionChecked, found]
          refine ⟨trivial, digit, fun n number => Int.lt_iff_le_and_ne.mpr ⟨numberOf_nonneg digit number, ?_⟩⟩
          rintro rfl
          rw [strtol, strtoll_number number (by decide)] at above
          exact absurd above (by decide)
      next =>
          obtain ⟨_, -, run⟩ := bind_ok.mp run
          obtain ⟨_, -, run⟩ := bind_ok.mp run
          cases variable' : zs.findMember token with
          | none => simp [variable'] at run
          | some v =>
              simp only [variable'] at run
              obtain ⟨_, scalar, run⟩ := bind_ok.mp run
              obtain ⟨_, integer, run⟩ := bind_ok.mp run
              cases run
              rw [require_ok] at scalar integer
              have same := List.find?_some variable'
              exact ⟨v, List.mem_of_find?_eq_some variable', of_decide_eq_true same, List.isEmpty_iff.mp scalar,
                integer⟩

theorem dimensions_checked {fuel : Nat} {dims dims' : List ZCMDimension}
    (run : dimensions zs fuel dims p = .ok (dims', p')) (checked : ∀ dim ∈ dims, DimensionChecked zs dim) :
    ∀ dim ∈ dims', DimensionChecked zs dim := by
  induction fuel generalizing dims p with
  | zero => cases run
  | succ fuel ih =>
      rw [dimensions] at run
      obtain ⟨⟨bracket, p₁⟩, -, run⟩ := bind_ok.mp run
      cases bracket with
      | false =>
          cases run
          exact checked
      | true =>
          obtain ⟨⟨token, p₂⟩, -, run⟩ := bind_ok.mp run
          obtain ⟨⟨dim, e⟩, one, run⟩ := bind_ok.mp run
          obtain ⟨p₃, -, run⟩ := bind_ok.mp run
          refine ih run fun d member => ?_
          obtain old | single := List.mem_append.mp member
          · exact checked d old
          · obtain rfl := List.mem_singleton.mp single
            exact dimension_checked one

theorem Parsed.member (parsed : Parsed zs) {fuel : Nat} {zt : ZCMTypename}
    (width : WidthChecked zt.fullname zt.numbits zt.signExtend zt.width) {zm : ZCMMember}
    (run : member fuel zt zs p = .ok (zm, p')) : Parsed { zs with members := zs.members ++ [zm] } := by
  rw [Parse.member] at run
  obtain ⟨⟨name, p₁⟩, -, run⟩ := bind_ok.mp run
  obtain ⟨_, -, run⟩ := bind_ok.mp run
  obtain ⟨_, freshMember, run⟩ := bind_ok.mp run
  obtain ⟨_, freshConst, run⟩ := bind_ok.mp run
  obtain ⟨⟨dims, p₂⟩, brackets, run⟩ := bind_ok.mp run
  cases run
  rw [require_ok] at freshMember freshConst
  exact parsed.addMember freshMember freshConst width
    (dimensions_checked brackets fun dim none => absurd none List.not_mem_nil)

theorem Parsed.members (parsed : Parsed zs) {fuel : Nat} {zt : ZCMTypename}
    (width : WidthChecked zt.fullname zt.numbits zt.signExtend zt.width)
    (run : members zt fuel zs p = .ok (zs', p')) : Parsed zs' := by
  induction fuel generalizing zs p with
  | zero => cases run
  | succ fuel ih =>
      rw [Parse.members] at run
      obtain ⟨⟨zm, p₁⟩, one, run⟩ := bind_ok.mp run
      obtain ⟨⟨more, p₂⟩, -, run⟩ := bind_ok.mp run
      have next := parsed.member width one
      cases more with
      | true => exact ih next run
      | false =>
          cases run
          exact next

theorem Parsed.parseMember (parsed : Parsed zs) {fuel : Nat} {packagePrefix : Text}
    (run : parseMember lib fuel packagePrefix zs p = .ok (zs', p')) : Parsed zs' := by
  rw [Parse.parseMember] at run
  obtain ⟨⟨inline, p₁⟩, -, run⟩ := bind_ok.mp run
  obtain ⟨_, -, run⟩ := bind_ok.mp run
  obtain ⟨⟨isConst, p₂⟩, -, run⟩ := bind_ok.mp run
  cases isConst with
  | true => exact parsed.parseConst run
  | false =>
      obtain ⟨⟨type, p₃⟩, -, run⟩ := bind_ok.mp run
      obtain ⟨_, -, run⟩ := bind_ok.mp run
      obtain ⟨_, -, run⟩ := bind_ok.mp run
      obtain ⟨⟨zt, p₄⟩, declared, run⟩ := bind_ok.mp run
      obtain ⟨⟨zs₁, p₅⟩, loop, run⟩ := bind_ok.mp run
      obtain ⟨p₆, -, run⟩ := bind_ok.mp run
      cases run
      exact parsed.members (memberWidth_checked declared).2 loop

theorem Parsed.structBody (parsed : Parsed zs) {fuel : Nat} {packagePrefix : Text}
    (run : structBody lib packagePrefix fuel zs p = .ok (zs', p')) : Parsed zs' := by
  induction fuel generalizing zs p with
  | zero => cases run
  | succ fuel ih =>
      rw [Parse.structBody] at run
      obtain ⟨⟨closed, p₁⟩, -, run⟩ := bind_ok.mp run
      cases closed with
      | true =>
          cases run
          exact parsed
      | false =>
          obtain ⟨⟨closed, p₂⟩, -, run⟩ := bind_ok.mp run
          cases closed with
          | true =>
              cases run
              exact parsed
          | false =>
              obtain ⟨⟨zs₁, p₃⟩, one, run⟩ := bind_ok.mp run
              exact ih (parsed.parseMember one) run

theorem parseStruct_parsed {fuel : Nat} {packagePrefix package : Text}
    (run : parseStruct lib fuel packagePrefix package p = .ok (zs, p')) : Parsed zs := by
  rw [parseStruct] at run
  obtain ⟨⟨name, p₁⟩, -, run⟩ := bind_ok.mp run
  obtain ⟨p₂, -, run⟩ := bind_ok.mp run
  refine Parsed.structBody ?_ run
  exact ⟨List.nodup_nil, nofun, nofun, nofun, nofun, fun before m after split =>
    absurd split.symm (List.append_ne_nil_of_right_ne_nil _ (List.cons_ne_nil _ _))⟩

theorem parseEntity_parsed {fuel : Nat} {ended : Bool} {zcmgen zcmgen' : ZCMGen}
    (run : parseEntity lib fuel zcmgen p = .ok (ended, zcmgen', p')) (parsed : ∀ zs ∈ zcmgen.structs, Parsed zs) :
    ∀ zs ∈ zcmgen'.structs, Parsed zs := by
  rw [parseEntity] at run
  split at run
  next =>
      cases run
      exact parsed
  next =>
      split at run
      next =>
          obtain ⟨⟨package, p₁⟩, -, run⟩ := bind_ok.mp run
          obtain ⟨p₂, -, run⟩ := bind_ok.mp run
          cases run
          exact parsed
      next =>
          obtain ⟨_, -, run⟩ := bind_ok.mp run
          obtain ⟨⟨zs, p₁⟩, one, run⟩ := bind_ok.mp run
          obtain ⟨_, -, run⟩ := bind_ok.mp run
          cases run
          intro other member
          obtain old | single := List.mem_append.mp member
          · exact parsed other old
          · obtain rfl := List.mem_singleton.mp single
            exact parseStruct_parsed one

theorem entities_parsed {fuel : Nat} {zcmgen zcmgen' : ZCMGen} (run : entities lib fuel zcmgen p = .ok (zcmgen', p'))
    (parsed : ∀ zs ∈ zcmgen.structs, Parsed zs) : ∀ zs ∈ zcmgen'.structs, Parsed zs := by
  induction fuel generalizing zcmgen p with
  | zero => cases run
  | succ fuel ih =>
      rw [entities] at run
      obtain ⟨⟨ended, zcmgen₁, p₁⟩, one, run⟩ := bind_ok.mp run
      have next := parseEntity_parsed one parsed
      cases ended with
      | true =>
          cases run
          exact next
      | false => exact ih run next

theorem handleFiles_parsed {fuel : Nat} {files : List (List (Option Token))} {zcmgen zcmgen' : ZCMGen} {erange : Bool}
    (run : handleFiles lib fuel files zcmgen erange = .ok zcmgen') (parsed : ∀ zs ∈ zcmgen.structs, Parsed zs) :
    ∀ zs ∈ zcmgen'.structs, Parsed zs := by
  induction files generalizing zcmgen erange with
  | nil =>
      cases run
      exact parsed
  | cons file files ih =>
      rw [handleFiles] at run
      obtain ⟨⟨zcmgen₁, p₁⟩, one, run⟩ := bind_ok.mp run
      exact ih run (entities_parsed one parsed)

end Runs

/-- A struct that the parser accepts is well formed exactly if its tokens are numbers and its sizes positive. -/
theorem accepted_wellFormed_iff {lib : FloatLib} {fuel : Nat} {files : List (List (Option Token))}
    {packagePrefix : Text}
    {erange : Bool} {zcmgen : ZCMGen}
    (run : handleFiles lib fuel files ⟨packagePrefix, [], []⟩ erange = .ok zcmgen) :
    ∀ zs ∈ zcmgen.structs, WellFormed zs ↔ Plain zs :=
  fun zs accepted => (handleFiles_parsed run nofun zs accepted).wellFormed_iff

/-- What the tokenizer leaves for the parser up to the end of a file, if no call of it fails. -/
def streamOf : Nat → Tokenize.Tokenizer → Option (List (Option Token))
  | 0, _ => none
  | fuel + 1, t =>
      match Tokenize.tokenizeNext t with
      | some (.token type text, t) => (streamOf fuel t).map (some ⟨type, text⟩ :: ·)
      | some (.eof, _) => some []
      | _ => none

def counted : ZCMStruct where
  package := []
  shortname := text "s"
  members := [⟨⟨text "int8_t", 0, false, none⟩, text "n", []⟩,
    ⟨⟨text "int16_t", 3, false, some (text "3")⟩, text "x", [⟨.ZCM_VAR, text "n", text "n"⟩]⟩]
  constants := []

theorem counted_wellFormed_iff : WellFormed counted ↔ Plain counted :=
  @accepted_wellFormed_iff noFloats 8
    [(tokens ["struct", "s", "\x7b", "int8_t", "n", ";", "int16_t", ":", "3", "x", "[", "n", "]", ";", "\x7d"]).stream]
    [] false ⟨[], [counted], []⟩ rfl counted List.mem_cons_self

def wideFile : CString := .ofBytes (text "struct s \x7b int16_t:264 x; \x7d")

def wideStruct : ZCMStruct where
  package := []
  shortname := text "s"
  members := [⟨⟨text "int16_t", 8, false, some (text "264")⟩, text "x", []⟩]
  constants := []

theorem wideStruct_accepted :
    (∃ stream, streamOf 16 (Tokenize.create wideFile) = some stream ∧
      handleFiles noFloats 4 [stream] ⟨[], [], []⟩ false = .ok ⟨[], [wideStruct], []⟩) ∧
        ¬ WellFormed wideStruct := by
  refine ⟨⟨(tokens ["struct", "s", "\x7b", "int16_t", ":", "264", "x", ";", "\x7d"]).stream,
    by decide +kernel, rfl⟩, ?_⟩
  intro wellFormed
  obtain ⟨T, w, -, number, -, narrow, -⟩ :=
    wellFormed.memberWidths _ List.mem_cons_self (text "264") rfl
  obtain rfl := Option.some.inj (number.symm.trans (by decide : numberOf 10 (text "264") = some 264))
  have wide := width_le T
  omega

end Zcm.Gen.Parse
