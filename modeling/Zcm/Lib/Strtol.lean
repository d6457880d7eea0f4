import Mathlib.Data.List.Induction
import Zcm.Lib.Bytes

namespace Zcm.Lib

def charByte (c : Char) : Byte := BitVec.ofNat 8 c.toNat

def text (s : String) : List Byte := s.toList.map charByte

def digitValue (b : Byte) : Option Nat :=
  if 48 ≤ b.toNat ∧ b.toNat ≤ 57 then some (b.toNat - 48)
  else if 97 ≤ b.toNat ∧ b.toNat ≤ 122 then some (b.toNat - 87)
  else if 65 ≤ b.toNat ∧ b.toNat ≤ 90 then some (b.toNat - 55)
  else none

def isDigitOf (base : Nat) (b : Byte) : Bool := (digitValue b).any (· < base)

def addDigit (base n : Nat) (b : Byte) : Nat := n * base + (digitValue b).getD 0

def digitsValue (base : Nat) (ds : List Byte) : Nat := ds.foldl (addDigit base) 0

def isBlank (b : Byte) : Bool := 9 ≤ b.toNat && b.toNat ≤ 13 || b.toNat = 32

def splitSign : List Byte → Bool × List Byte
  | [] => (false, [])
  | b :: s => if b = charByte '-' then (true, s) else if b = charByte '+' then (false, s) else (false, b :: s)

def plainBase (base : Nat) (s : List Byte) : Nat :=
  if base = 0 then if s.head? = some (charByte '0') then 8 else 10 else base

def splitBase (base : Nat) : List Byte → Nat × List Byte
  | z :: x :: d :: s =>
      if (base = 0 ∨ base = 16) ∧ z = charByte '0' ∧ (x = charByte 'x' ∨ x = charByte 'X') ∧
          isDigitOf 16 d then
        (16, d :: s)
      else (plainBase base (z :: x :: d :: s), z :: x :: d :: s)
  | s => (plainBase base s, s)

structure Numeral where
  negative : Bool
  magnitude : Nat
  rest : List Byte
deriving DecidableEq

namespace Numeral

def value (n : Numeral) : Int := if n.negative then -n.magnitude else n.magnitude

def readDigits (negative : Bool) (base : Nat) (s : List Byte) : Option Numeral :=
  if s.takeWhile (isDigitOf base) = [] then none
  else some ⟨negative, digitsValue base (s.takeWhile (isDigitOf base)), s.dropWhile (isDigitOf base)⟩

def read (base : Nat) (s : List Byte) : Option Numeral :=
  let (negative, s) := splitSign (s.dropWhile isBlank)
  let (base, s) := splitBase base s
  readDigits negative base s

end Numeral

structure Conversion (w : Nat) where
  value : BitVec w
  rest : List Byte
  outOfRange : Bool
deriving DecidableEq

def strtoll (base : Nat) (s : List Byte) : Conversion 64 :=
  match Numeral.read base s with
  | none => ⟨0, s, false⟩
  | some n =>
      if n.value < -2 ^ 63 then ⟨BitVec.ofInt 64 (-2 ^ 63), n.rest, true⟩
      else if 2 ^ 63 ≤ n.value then ⟨BitVec.ofInt 64 (2 ^ 63 - 1), n.rest, true⟩
      else ⟨BitVec.ofInt 64 n.value, n.rest, false⟩

def strtoull (base : Nat) (s : List Byte) : Conversion 64 :=
  match Numeral.read base s with
  | none => ⟨0, s, false⟩
  | some n =>
      if 2 ^ 64 ≤ n.magnitude then ⟨BitVec.allOnes 64, n.rest, true⟩
      else ⟨BitVec.ofInt 64 n.value, n.rest, false⟩

def strtol (base : Nat) (s : List Byte) : Conversion 64 := strtoll base s

def atoi (s : List Byte) : Conversion 32 :=
  let r := strtol 10 s
  ⟨r.value.setWidth 32, r.rest, r.outOfRange⟩

def numberOf (base : Nat) (s : List Byte) : Option Int :=
  match Numeral.read base s with
  | none => none
  | some n => if n.rest = [] then some n.value else none

def natText (base n : Nat) : List Byte := (Nat.toDigits base n).map charByte

def decimalText (v : Int) : List Byte :=
  if v < 0 then charByte '-' :: natText 10 v.natAbs else natText 10 v.natAbs

def hexText (width n : Nat) : List Byte :=
  text "0x" ++ List.replicate (width - (natText 16 n).length) (charByte '0') ++ natText 16 n

theorem Numeral.natAbs_value (n : Numeral) : n.value.natAbs = n.magnitude := by
  rw [Numeral.value]
  cases n.negative with
  | false => exact Int.natAbs_natCast _
  | true => exact (Int.natAbs_neg _).trans (Int.natAbs_natCast _)

section Conversion

variable {base : Nat} {s : List Byte} {n : Numeral} (read : Numeral.read base s = some n)

include read

theorem strtoull_rest : (strtoull base s).rest = n.rest := by
  rw [strtoull, read]
  simp only
  split
  · rfl
  · rfl

theorem strtoll_rest : (strtoll base s).rest = n.rest := by
  rw [strtoll, read]
  simp only
  split
  · rfl
  · split
    · rfl
    · rfl

theorem strtoll_inRange (inRange : (strtoll base s).outOfRange = false) :
    (-2 ^ 63 ≤ n.value ∧ n.value < 2 ^ 63) ∧ (strtoll base s).value = BitVec.ofInt 64 n.value := by
  rw [strtoll, read] at inRange ⊢
  simp only at inRange ⊢
  split at inRange
  next => cases inRange
  next low =>
      rw [if_neg low]
      split at inRange
      next => cases inRange
      next high =>
          rw [if_neg high]
          exact ⟨⟨Int.not_lt.mp low, Int.not_le.mp high⟩, rfl⟩

end Conversion

theorem of_numberOf {base : Nat} {s : List Byte} {v : Int} (number : numberOf base s = some v) :
    ∃ n, Numeral.read base s = some n ∧ n.rest = [] ∧ n.value = v := by
  rw [numberOf] at number
  cases read : Numeral.read base s with
  | none =>
      rw [read] at number
      cases number
  | some n => simpa [read] using number

theorem strtoll_number {base : Nat} {s : List Byte} {v : Int} (number : numberOf base s = some v)
    (fits : -2 ^ 63 ≤ v ∧ v < 2 ^ 63) : strtoll base s = ⟨BitVec.ofInt 64 v, [], false⟩ := by
  obtain ⟨n, read, whole, rfl⟩ := of_numberOf number
  rw [strtoll, read]
  simp only
  rw [if_neg (Int.not_lt.mpr fits.1), if_neg (Int.not_le.mpr fits.2), whole]

theorem toInt_setWidth_bmod {w n : Nat} (v : BitVec w) (le : n ≤ w) :
    (v.setWidth n).toInt = Int.bmod v.toInt (2 ^ n) := by
  rw [BitVec.toInt_setWidth, BitVec.toInt_eq_toNat_bmod, Int.bmod_bmod_of_dvd (Nat.pow_dvd_pow 2 le)]

theorem atoi_number {s : List Byte} {v : Int} (number : numberOf 10 s = some v) (fits : -2 ^ 31 ≤ v ∧ v < 2 ^ 31) :
    (atoi s).value.toInt = v := by
  rw [atoi, strtol, strtoll_number number (by omega)]
  simp only
  rw [toInt_setWidth_bmod _ (by decide), BitVec.toInt_ofInt, Int.bmod_eq_of_le (n := v) (by omega) (by omega),
    Int.bmod_eq_of_le (by omega) (by omega)]

theorem digitValue_digitChar {d : Nat} (digit : d < 16) : digitValue (charByte d.digitChar) = some d := by
  have all : ∀ d < 16, digitValue (charByte d.digitChar) = some d := by decide
  exact all d digit

theorem isDigitOf_digitChar {base d : Nat} (small : base ≤ 16) (digit : d < base) :
    isDigitOf base (charByte d.digitChar) = true := by
  rw [isDigitOf, digitValue_digitChar (by omega)]
  exact decide_eq_true digit

theorem digitsValue_concat (base : Nat) (ds : List Byte) (b : Byte) :
    digitsValue base (ds ++ [b]) = addDigit base (digitsValue base ds) b := by
  rw [digitsValue, List.foldl_append]
  rfl

theorem isDigitOf_natText {base n : Nat} (big : 1 < base) (small : base ≤ 16) :
    ∀ b ∈ natText base n, isDigitOf base b = true := by
  induction n using Nat.strongRecOn with
  | _ n ih =>
      rw [natText, Nat.toDigits_eq_if big]
      split
      next digit =>
          intro b member
          obtain rfl := List.mem_singleton.mp member
          exact isDigitOf_digitChar small digit
      next more =>
          intro b member
          rw [List.map_append] at member
          obtain high | low := List.mem_append.mp member
          · exact ih (n / base) (Nat.div_lt_self (by omega) big) b high
          · obtain rfl := List.mem_singleton.mp low
            exact isDigitOf_digitChar small (Nat.mod_lt n (by omega))

theorem digitsValue_natText {base n : Nat} (big : 1 < base) (small : base ≤ 16) :
    digitsValue base (natText base n) = n := by
  induction n using Nat.strongRecOn with
  | _ n ih =>
      rw [natText, Nat.toDigits_eq_if big]
      split
      next digit =>
          rw [List.map_singleton, digitsValue, List.foldl_cons, List.foldl_nil, addDigit,
            digitValue_digitChar (by omega), Nat.zero_mul, Nat.zero_add, Option.getD_some]
      next more =>
          have high := ih (n / base) (Nat.div_lt_self (by omega) big)
          rw [natText] at high
          have low : n % base < 16 := (Nat.mod_lt n (by omega)).trans_le small
          rw [List.map_append, List.map_singleton, digitsValue_concat, high, addDigit, digitValue_digitChar low,
            Option.getD_some]
          exact Nat.div_add_mod' n base

theorem natText_ne_nil (base n : Nat) : natText base n ≠ [] := by
  rw [natText, ne_eq, List.map_eq_nil_iff]
  exact Nat.toDigits_ne_nil

theorem Numeral.readDigits_all {negative : Bool} {base : Nat} {s : List Byte} (some : s ≠ [])
    (all : ∀ b ∈ s, isDigitOf base b = true) :
    readDigits negative base s = Option.some ⟨negative, digitsValue base s, []⟩ := by
  have taken : s.takeWhile (isDigitOf base) = s := List.takeWhile_eq_self_iff.mpr all
  have dropped : s.dropWhile (isDigitOf base) = [] := List.dropWhile_eq_nil_iff.mpr all
  rw [readDigits, taken, dropped, if_neg some]

theorem isDigitOf_ten_iff {b : Byte} : isDigitOf 10 b = true ↔ 48 ≤ b.toNat ∧ b.toNat ≤ 57 := by
  have all : ∀ n < 256, isDigitOf 10 (BitVec.ofNat 8 n) = true ↔ 48 ≤ n ∧ n ≤ 57 := by decide +kernel
  have this := all b.toNat b.isLt
  rwa [BitVec.ofNat_toNat, BitVec.setWidth_eq] at this

theorem splitSign_digit {d : Byte} {s : List Byte} (digit : isDigitOf 10 d = true) :
    splitSign ((d :: s).dropWhile isBlank) = (false, d :: s) := by
  rw [isDigitOf_ten_iff] at digit
  obtain ⟨low, high⟩ := digit
  have notBlank : ¬ isBlank d = true := by
    rw [isBlank]
    simp
    omega
  have minus : d ≠ charByte '-' := by
    rintro rfl
    exact absurd low (by decide)
  have plus : d ≠ charByte '+' := by
    rintro rfl
    exact absurd low (by decide)
  rw [List.dropWhile_cons_of_neg notBlank, splitSign, if_neg minus, if_neg plus]

theorem numberOf_nonneg {base : Nat} {s : List Byte} {v : Int} (digit : s.head?.any (isDigitOf 10) = true)
    (number : numberOf base s = some v) : 0 ≤ v := by
  obtain ⟨n, read, -, rfl⟩ := of_numberOf number
  cases s with
  | nil => cases digit
  | cons d s =>
      simp only [Numeral.read, splitSign_digit (show isDigitOf 10 d = true from digit), Numeral.readDigits] at read
      split at read
      next => cases read
      next =>
          cases read
          exact Int.natCast_nonneg _

section Decimal

variable {ds : List Byte} (all : ∀ b ∈ ds, isDigitOf 10 b = true)

include all

theorem splitBase_decimal (base : Nat) : splitBase base ds = (plainBase base ds, ds) := by
  match ds with
  | [] => rfl
  | [_] => rfl
  | [_, _] => rfl
  | z :: x :: d :: s =>
      have other : ¬ (x = charByte 'x' ∨ x = charByte 'X') := by
        have digit := all x (by simp)
        rintro (rfl | rfl)
        · exact absurd digit (by decide)
        · exact absurd digit (by decide)
      rw [splitBase, if_neg fun h => other h.2.2.1]

theorem Numeral.read_decimal (some : ds ≠ []) (negative : Bool) (base : Nat) :
    read base ((if negative then [charByte '-'] else []) ++ ds) = readDigits negative (plainBase base ds) ds := by
  have split := splitBase_decimal all base
  cases negative with
  | true =>
      rw [if_pos rfl, List.singleton_append, read, List.dropWhile_cons_of_neg (by decide)]
      simp only [splitSign, if_true, split]
  | false =>
      obtain ⟨d, rest, rfl⟩ := List.exists_cons_of_ne_nil some
      rw [if_neg Bool.false_ne_true, List.nil_append, read, splitSign_digit (all d List.mem_cons_self)]
      simp only [split]

end Decimal

section Hex

variable {x d : Byte} {s : List Byte} (isX : x = charByte 'x' ∨ x = charByte 'X')

theorem Numeral.read_zero :
    read 0 (charByte '0' :: x :: d :: s) =
      let (base, s) := splitBase 0 (charByte '0' :: x :: d :: s)
      readDigits false base s := by
  have sign : splitSign (charByte '0' :: x :: d :: s) = (false, charByte '0' :: x :: d :: s) := by
    rw [splitSign, if_neg (by decide), if_neg (by decide)]
  rw [read, List.dropWhile_cons_of_neg (by decide)]
  simp only [sign]

include isX

theorem Numeral.read_hex (digit : isDigitOf 16 d = true) :
    read 0 (charByte '0' :: x :: d :: s) = readDigits false 16 (d :: s) := by
  rw [read_zero, splitBase, if_pos ⟨.inl rfl, rfl, isX, digit⟩]

theorem numberOf_bareRadix (digit : ¬ isDigitOf 16 d = true) : numberOf 0 (charByte '0' :: x :: d :: s) = none := by
  have notOctal : ¬ isDigitOf 8 x = true := by
    obtain rfl | rfl := isX
    · decide
    · decide
  have rest : (charByte '0' :: x :: d :: s).dropWhile (isDigitOf 8) = x :: d :: s := by
    rw [List.dropWhile_cons_of_pos (by decide), List.dropWhile_cons_of_neg notOctal]
  have taken : (charByte '0' :: x :: d :: s).takeWhile (isDigitOf 8) = [charByte '0'] := by
    rw [List.takeWhile_cons_of_pos (by decide), List.takeWhile_cons_of_neg notOctal]
  have base : plainBase 0 (charByte '0' :: x :: d :: s) = 8 := rfl
  rw [numberOf, Numeral.read_zero, splitBase, if_neg fun all => digit all.2.2.2]
  simp only [base, Numeral.readDigits, taken, rest]
  simp

end Hex

theorem digitsValue_lt {base : Nat} {ds : List Byte} (all : ∀ b ∈ ds, isDigitOf base b = true) :
    digitsValue base ds < base ^ ds.length := by
  induction ds using List.reverseRecOn with
  | nil => exact Nat.one_pos
  | append_singleton ds b ih =>
      have before := ih fun c member => all c (List.mem_append_left _ member)
      have digit : (digitValue b).getD 0 < base := by
        have last := all b (by simp)
        rw [isDigitOf] at last
        cases value : digitValue b with
        | none => simp [value] at last
        | some d => simpa [value] using last
      rw [digitsValue_concat, addDigit, List.length_append, List.length_singleton, Nat.pow_succ]
      calc digitsValue base ds * base + (digitValue b).getD 0 < (digitsValue base ds + 1) * base := by
            rw [Nat.add_mul, Nat.one_mul]
            omega
        _ ≤ base ^ ds.length * base := Nat.mul_le_mul_right base before

theorem natText_head {n : Nat} (positive : 0 < n) : (natText 10 n).head? ≠ some (charByte '0') := by
  induction n using Nat.strongRecOn with
  | _ n ih =>
      rw [natText, Nat.toDigits_eq_if (by decide)]
      split
      next digit =>
          have all : ∀ n < 10, 0 < n → ([Nat.digitChar n].map charByte).head? ≠ some (charByte '0') := by decide
          exact all n digit positive
      next more =>
          have high := ih (n / 10) (by omega) (by omega)
          obtain ⟨d, rest, digits⟩ := List.exists_cons_of_ne_nil (natText_ne_nil 10 (n / 10))
          rw [digits] at high
          rw [List.map_append, ← natText, digits]
          exact high

theorem plainBase_natText (n : Nat) : plainBase 0 (natText 10 n) = if n = 0 then 8 else 10 := by
  rw [plainBase, if_pos rfl]
  by_cases zero : n = 0
  · subst zero
    rfl
  · rw [if_neg (natText_head (Nat.pos_of_ne_zero zero)), if_neg zero]

theorem numberOf_decimalText (v : Int) : numberOf 0 (decimalText v) = some v := by
  have all := @isDigitOf_natText 10 v.natAbs (by decide) (by decide)
  have digits := Numeral.read_decimal all (natText_ne_nil 10 v.natAbs) (decide (v < 0)) 0
  have text : decimalText v = (if decide (v < 0) = true then [charByte '-'] else []) ++ natText 10 v.natAbs := by
    rw [decimalText]
    by_cases negative : v < 0
    · simp [negative]
    · simp [negative]
  rw [numberOf, text, digits, plainBase_natText]
  by_cases zero : v.natAbs = 0
  · obtain rfl := Int.natAbs_eq_zero.mp zero
    decide
  · rw [if_neg zero, Numeral.readDigits_all (natText_ne_nil 10 _) all]
    simp only [if_true, Numeral.value, digitsValue_natText (show 1 < 10 by decide) (show 10 ≤ 16 by decide)]
    by_cases negative : v < 0
    · simp only [negative, decide_true, if_true, Option.some.injEq]
      omega
    · simp only [negative, decide_false, Bool.false_eq_true, if_false, Option.some.injEq]
      omega

theorem digitsValue_zeros (base k : Nat) (ds : List Byte) :
    digitsValue base (List.replicate k (charByte '0') ++ ds) = digitsValue base ds := by
  induction k with
  | zero => rfl
  | succ k ih =>
      have zero : addDigit base 0 (charByte '0') = 0 := by
        rw [addDigit, Nat.zero_mul]
        rfl
      rw [List.replicate_succ, List.cons_append, digitsValue, List.foldl_cons, zero]
      exact ih

theorem numberOf_hexText (width n : Nat) : numberOf 0 (hexText width n) = some (n : Int) := by
  have all : ∀ b ∈ List.replicate (width - (natText 16 n).length) (charByte '0') ++ natText 16 n,
      isDigitOf 16 b = true := by
    intro b member
    obtain zero | digit := List.mem_append.mp member
    · obtain rfl := List.eq_of_mem_replicate zero
      decide
    · exact isDigitOf_natText (by decide) (by decide) b digit
  have value := digitsValue_zeros 16 (width - (natText 16 n).length) (natText 16 n)
  rw [digitsValue_natText (by decide) (by decide)] at value
  rw [numberOf, hexText, List.append_assoc]
  have some : List.replicate (width - (natText 16 n).length) (charByte '0') ++ natText 16 n ≠ [] := by
    simp [natText_ne_nil]
  generalize List.replicate (width - (natText 16 n).length) (charByte '0') ++ natText 16 n = ds at all value some ⊢
  obtain ⟨d, rest, rfl⟩ := List.exists_cons_of_ne_nil some
  have read : Numeral.read 0 (text "0x" ++ d :: rest) = Numeral.readDigits false 16 (d :: rest) :=
    Numeral.read_hex (.inl rfl) (all d List.mem_cons_self)
  rw [read, Numeral.readDigits_all (List.cons_ne_nil _ _) all]
  simp [Numeral.value, value]

end Zcm.Lib
