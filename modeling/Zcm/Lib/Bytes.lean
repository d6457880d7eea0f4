import Mathlib.Data.List.TakeWhile
import Mathlib.Tactic.Ring
import Mathlib.Tactic.Common

namespace Zcm.Lib

abbrev Byte := BitVec 8

def toBe : Nat → Nat → List Byte
  | 0, _ => []
  | k + 1, n => BitVec.ofNat 8 (n / 256 ^ k) :: toBe k n

def ofBe : List Byte → Nat
  | [] => 0
  | b :: bs => b.toNat * 256 ^ bs.length + ofBe bs

@[simp] theorem toBe_length (k n : Nat) : (toBe k n).length = k := by
  induction k with
  | zero => rfl
  | succ k ih => simp [toBe, ih]

theorem ofBe_toBe (k n : Nat) : ofBe (toBe k n) = n % 256 ^ k := by
  induction k with
  | zero => simp [toBe, ofBe, Nat.mod_one]
  | succ k ih =>
      rw [toBe, ofBe, toBe_length, ih, pow_succ, Nat.mod_mul, BitVec.toNat_ofNat]
      ring

theorem ofBe_toBe_of_lt {k n : Nat} (h : n < 256 ^ k) : ofBe (toBe k n) = n := by
  rw [ofBe_toBe, Nat.mod_eq_of_lt h]

theorem ofBe_lt (bs : List Byte) : ofBe bs < 256 ^ bs.length := by
  induction bs with
  | nil => simp [ofBe]
  | cons b bs ih =>
      have digit : b.toNat ≤ 255 := by have := b.isLt; omega
      have high := Nat.mul_le_mul_right (256 ^ bs.length) digit
      rw [ofBe, List.length_cons, pow_succ]
      omega

theorem ofBe_injective : ∀ {bs cs : List Byte}, bs.length = cs.length → ofBe bs = ofBe cs → bs = cs
  | [], [], _, _ => rfl
  | b :: bs, c :: cs, length, same => by
      have tails : bs.length = cs.length := Nat.succ.inj length
      have low := ofBe_lt bs
      have low' := ofBe_lt cs
      rw [ofBe, ofBe, tails] at same
      rw [tails] at low
      have high : b.toNat = c.toNat := by
        have positive : 0 < 256 ^ cs.length := Nat.pow_pos (by decide)
        have div := congrArg (· / 256 ^ cs.length) same
        simp only [Nat.mul_comm _ (256 ^ cs.length), Nat.mul_add_div positive, Nat.div_eq_of_lt low,
          Nat.div_eq_of_lt low', Nat.add_zero] at div
        exact div
      rw [high] at same
      rw [BitVec.eq_of_toNat_eq high, ofBe_injective tails (Nat.add_left_cancel same)]

theorem toBe_ofBe {k : Nat} {bs : List Byte} (length : bs.length = k) : toBe k (ofBe bs) = bs := by
  refine ofBe_injective (by simp [length]) ?_
  rw [ofBe_toBe, Nat.mod_eq_of_lt]
  rw [← length]
  exact ofBe_lt bs

theorem ofBe_append (bs cs : List Byte) : ofBe (bs ++ cs) = ofBe bs * 256 ^ cs.length + ofBe cs := by
  induction bs with
  | nil => simp [ofBe]
  | cons b bs ih =>
      rw [List.cons_append, ofBe, ofBe, ih, List.length_append, pow_add]
      ring

structure CString where
  chars : List Byte
  noNul : 0 ∉ chars
deriving DecidableEq

def CString.ofBytes (bs : List Byte) : CString where
  chars := bs.takeWhile (· ≠ 0)
  noNul := fun member => by simpa using List.mem_takeWhile_imp member

@[ext] theorem CString.ext {s t : CString} (h : s.chars = t.chars) : s = t := by
  cases s
  cases t
  cases h
  rfl

@[simp] theorem CString.ofBytes_chars (s : CString) : ofBytes s.chars = s := by
  ext1
  refine List.takeWhile_eq_self_iff.mpr fun b member => ?_
  have nonzero : b ≠ 0 := fun zero => s.noNul (zero ▸ member)
  simpa using nonzero

namespace CString

def strlen (s : CString) : Nat := s.chars.length

def strncmp (s t : CString) (n : Nat) : Bool := go n s.chars t.chars
where
  go : Nat → List Byte → List Byte → Bool
    | 0, _, _ => true
    | _ + 1, [], [] => true
    | n + 1, a :: as, b :: bs => a = b && go n as bs
    | _ + 1, _, _ => false

theorem strncmp_iff {s t : CString} {n : Nat} : strncmp s t n = true ↔ s.chars.take n = t.chars.take n := by
  suffices go : ∀ n as bs, strncmp.go n as bs = true ↔ as.take n = bs.take n from go n s.chars t.chars
  intro n as bs
  induction n generalizing as bs with
  | zero => simp [strncmp.go]
  | succ n ih => cases as <;> cases bs <;> simp [strncmp.go, ih]

theorem strncmp_iff_eq {s t : CString} {n : Nat} (hs : s.chars.length ≤ n) (ht : t.chars.length ≤ n) :
    strncmp s t n = true ↔ s = t := by
  rw [strncmp_iff, List.take_of_length_le hs, List.take_of_length_le ht]
  exact ⟨CString.ext, congrArg chars⟩

end CString

end Zcm.Lib
