import Zcm.Lib.Strtol

namespace Zcm.Ipcshm
open Zcm.Lib

def parseDigits : List Byte → BitVec 64 → Option (BitVec 64)
  | [], num => some num
  | c :: s, num =>
      if ¬ (charByte '0' ≤ c ∧ c ≤ charByte '9') then none
      else
        let nextNum := 10 * num + (c - charByte '0').setWidth 64
        if nextNum < num then none else parseDigits s nextNum

def parseU64 (s : CString) : Option (BitVec 64) := parseDigits s.chars 0

def Decimal (s : List Byte) : Prop := ∀ c ∈ s, isDigitOf 10 c = true

def ReadsExactly (s : CString) : Prop := ∀ num : BitVec 64, parseU64 s = some num ↔
  s.chars ≠ [] ∧ Decimal s.chars ∧ digitsValue 10 s.chars < 2 ^ 64 ∧ num.toNat = digitsValue 10 s.chars

def Falls (before : List Byte) (c : Byte) : Prop :=
  digitsValue 10 (before ++ [c]) % 2 ^ 64 < digitsValue 10 before % 2 ^ 64

theorem isDigitOf_iff {c : Byte} : isDigitOf 10 c = true ↔ charByte '0' ≤ c ∧ c ≤ charByte '9' := by
  rw [isDigitOf_ten_iff]
  exact Iff.rfl

theorem digit_value {c : Byte} (digit : isDigitOf 10 c = true) :
    ((c - charByte '0').setWidth 64).toNat = (digitValue c).getD 0 := by
  rw [isDigitOf_ten_iff] at digit
  obtain ⟨low, high⟩ := digit
  rw [digitValue, if_pos ⟨low, high⟩, Option.getD_some, BitVec.toNat_setWidth, BitVec.toNat_sub]
  have zero : (charByte '0').toNat = 48 := by decide
  omega

theorem next_toNat {before : List Byte} {c : Byte} (digit : isDigitOf 10 c = true) {num : BitVec 64}
    (value : num.toNat = digitsValue 10 before % 2 ^ 64) :
    (10 * num + (c - charByte '0').setWidth 64).toNat = digitsValue 10 (before ++ [c]) % 2 ^ 64 := by
  have ten : (10 : BitVec 64).toNat = 10 := rfl
  rw [BitVec.toNat_add, BitVec.toNat_mul, digit_value digit, digitsValue_concat, addDigit, value, ten]
  omega

theorem parseDigits_iff {s before : List Byte} {num out : BitVec 64}
    (value : num.toNat = digitsValue 10 before % 2 ^ 64) :
    parseDigits s num = some out ↔ Decimal s ∧
      (∀ front c rest, s = front ++ c :: rest → ¬ Falls (before ++ front) c) ∧
      out.toNat = digitsValue 10 (before ++ s) % 2 ^ 64 := by
  induction s generalizing before num with
  | nil =>
      rw [parseDigits, Option.some.injEq, List.append_nil, ← value]
      constructor
      · rintro rfl
        exact ⟨nofun, by simp, rfl⟩
      · rintro ⟨-, -, same⟩
        exact (BitVec.eq_of_toNat_eq same).symm
  | cons c s ih =>
      rw [parseDigits]
      by_cases digit : isDigitOf 10 c = true
      · rw [if_neg (not_not.mpr (isDigitOf_iff.mp digit))]
        have next := next_toNat digit value
        have falls : 10 * num + (c - charByte '0').setWidth 64 < num ↔ Falls before c := by
          rw [BitVec.lt_def, next, value, Falls]
        have decimal : Decimal (c :: s) ↔ Decimal s := by
          simp [Decimal, digit]
        have parts : (∀ front d rest, c :: s = front ++ d :: rest → ¬ Falls (before ++ front) d) ↔
            ¬ Falls before c ∧ ∀ front d rest, s = front ++ d :: rest → ¬ Falls (before ++ [c] ++ front) d := by
          constructor
          · intro rises
            refine ⟨by simpa using rises [] c s rfl, ?_⟩
            rintro front d rest rfl
            simpa using rises (c :: front) d rest rfl
          · rintro ⟨first, later⟩ front d rest same
            cases front with
            | nil =>
                obtain ⟨rfl, -⟩ := List.cons.inj same
                rwa [List.append_nil]
            | cons b front =>
                obtain ⟨rfl, tails⟩ := List.cons.inj same
                simpa using later front d rest tails
        dsimp only
        by_cases fall : Falls before c
        · rw [if_pos (falls.mpr fall)]
          simp [parts, fall]
        · rw [if_neg (mt falls.mp fall), ih next, decimal, parts, List.append_assoc, List.singleton_append]
          simp [fall]
      · rw [if_pos (mt isDigitOf_iff.mpr digit)]
        simp [Decimal, digit]

theorem digitsValue_le_append (front rest : List Byte) : digitsValue 10 front ≤ digitsValue 10 (front ++ rest) := by
  induction rest using List.reverseRecOn with
  | nil => rw [List.append_nil]
  | append_singleton rest c ih =>
      rw [← List.append_assoc, digitsValue_concat, addDigit]
      omega

theorem rises_of_small {front rest : List Byte} {c : Byte} (small : digitsValue 10 (front ++ c :: rest) < 2 ^ 64) :
    ¬ Falls front c := by
  have upTo := digitsValue_le_append (front ++ [c]) rest
  rw [List.append_assoc, List.singleton_append] at upTo
  have more := digitsValue_le_append front [c]
  rw [Falls, Nat.mod_eq_of_lt (by omega), Nat.mod_eq_of_lt (by omega)]
  omega

/-- The exceptions are the empty string and the overflows that no falling number tells. -/
theorem parseU64_exact_iff (s : CString) : ReadsExactly s ↔ s.chars ≠ [] ∧ (Decimal s.chars →
    digitsValue 10 s.chars < 2 ^ 64 ∨ ∃ front c rest, s.chars = front ++ c :: rest ∧ Falls front c) := by
  have loop (num : BitVec 64) := @parseDigits_iff s.chars [] 0 num rfl
  simp only [List.nil_append] at loop
  constructor
  · intro exact
    constructor
    · intro empty
      have accepted : parseU64 s = some 0 := by rw [parseU64, empty, parseDigits]
      exact ((exact 0).mp accepted).1 empty
    · intro decimal
      by_contra neither
      obtain ⟨large, rises⟩ := not_or.mp neither
      have accepted : parseU64 s = some (BitVec.ofNat 64 (digitsValue 10 s.chars)) :=
        (loop _).mpr ⟨decimal, fun front c rest parts fall => rises ⟨front, c, rest, parts, fall⟩,
          BitVec.toNat_ofNat _ _⟩
      exact large ((exact _).mp accepted).2.2.1
  · rintro ⟨nonempty, enough⟩ num
    rw [parseU64, loop num]
    constructor
    · rintro ⟨decimal, rises, value⟩
      have small : digitsValue 10 s.chars < 2 ^ 64 := by
        obtain small | ⟨front, c, rest, parts, fall⟩ := enough decimal
        · exact small
        · exact absurd fall (rises front c rest parts)
      rw [Nat.mod_eq_of_lt small] at value
      exact ⟨nonempty, decimal, small, value⟩
    · rintro ⟨-, decimal, small, value⟩
      refine ⟨decimal, ?_, by rw [Nat.mod_eq_of_lt small, value]⟩
      intro front c rest parts
      rw [parts] at small
      exact rises_of_small small

def thirty : CString := .ofBytes (text "30000000000000000000")

theorem thirty_accepted : parseU64 thirty = some 11553255926290448384 ∧ ¬ ReadsExactly thirty := by
  have accepted : parseU64 thirty = some 11553255926290448384 := by decide +kernel
  refine ⟨accepted, fun exact => ?_⟩
  have small := ((exact _).mp accepted).2.2.1
  have large : ¬ digitsValue 10 thirty.chars < 2 ^ 64 := by decide +kernel
  exact large small

end Zcm.Ipcshm
