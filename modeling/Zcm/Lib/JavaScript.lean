import Mathlib.Data.Int.Bitwise
import Zcm.Lib.BitReader

namespace Zcm.Lib.Js

def toInt32 (x : Int) : BitVec 32 := BitVec.ofInt 32 x

def and (x y : Int) : Int := (toInt32 x &&& toInt32 y).toInt

def or (x y : Int) : Int := (toInt32 x ||| toInt32 y).toInt

def shl (x distance : Int) : Int := (toInt32 x <<< (distance % 32).toNat).toInt

def shr (x distance : Int) : Int := ((toInt32 x).sshiftRight (distance % 32).toNat).toInt

def ushr (x distance : Int) : Int := (toInt32 x >>> (distance % 32).toNat).toNat

inductive Value
  | number (n : Int)
  | bigint (n : Int)

def Value.int : Value → Int
  | number n => n
  | bigint n => n

section Numbers

theorem toInt32_toInt {x : Int} (low : -2 ^ 31 ≤ x) (high : x < 2 ^ 31) : (toInt32 x).toInt = x := by
  rw [toInt32, BitVec.toInt_ofInt]
  exact Int.bmod_eq_of_le (by omega) (by omega)

theorem toInt32_natCast (n : Nat) : toInt32 n = BitVec.ofNat 32 n := BitVec.ofInt_natCast 32 n

theorem toInt_ofNat32 {n : Nat} (lt : n < 2 ^ 31) : (BitVec.ofNat 32 n).toInt = n := by
  rw [← toInt32_natCast, toInt32_toInt (by omega) (by omega)]

theorem toInt32_mask (n : Nat) : toInt32 (shl 1 n - 1) = BitVec.ofNat 32 (2 ^ (n % 32) - 1) := by
  have words : ∀ k < 32, BitVec.ofInt 32 ((1#32 <<< k).toInt - 1) = BitVec.ofNat 32 (2 ^ k - 1) := by decide
  have distance : ((n : Int) % 32).toNat = n % 32 := by omega
  have one : toInt32 1 = 1#32 := by decide
  rw [shl, distance, one, toInt32, words _ (Nat.mod_lt n (by decide))]

theorem emod_two_pow (x : Int) (k : Nat) : ∃ r : Nat, x % 2 ^ k = r ∧ r < 2 ^ k := by
  have power : (0 : Int) < 2 ^ k := Int.pow_pos (by decide)
  have nonneg := Int.emod_nonneg x power.ne'
  have below := Int.emod_lt_of_pos x power
  have cast : ((2 ^ k : Nat) : Int) = 2 ^ k := by push_cast; rfl
  exact ⟨(x % 2 ^ k).toNat, by omega, by omega⟩

theorem toNat_toInt32_mod (x : Int) {k : Nat} (le : k ≤ 32) :
    (((toInt32 x).toNat % 2 ^ k : Nat) : Int) = x % 2 ^ k := by
  have narrow := congrArg BitVec.toNat (ofInt_setWidth (w := 32) x le)
  have cast : ((2 ^ k : Nat) : Int) = 2 ^ k := by push_cast; rfl
  obtain ⟨r, value, _⟩ := emod_two_pow x k
  rw [BitVec.toNat_setWidth] at narrow
  rw [toInt32, narrow, BitVec.toNat_ofInt, cast, value]
  rfl

theorem and_mask (x : Int) (n : Nat) : and x (shl 1 n - 1) = x % 2 ^ (n % 32) := by
  have low : n % 32 ≤ 31 := Nat.le_of_lt_succ (Nat.mod_lt n (by decide))
  rw [and, toInt32_mask]
  generalize n % 32 = k at low ⊢
  have power : 2 ^ k ≤ 2 ^ 31 := Nat.pow_le_pow_right (by decide) low
  have below := Nat.mod_lt (toInt32 x).toNat (Nat.two_pow_pos k)
  have word : toInt32 x &&& BitVec.ofNat 32 (2 ^ k - 1) = BitVec.ofNat 32 ((toInt32 x).toNat % 2 ^ k) := by
    apply BitVec.eq_of_toNat_eq
    rw [BitVec.toNat_and, BitVec.toNat_ofNat, BitVec.toNat_ofNat, Nat.mod_eq_of_lt (show 2 ^ k - 1 < 2 ^ 32 by omega),
      Nat.and_two_pow_sub_one_eq_mod, Nat.mod_eq_of_lt (show (toInt32 x).toNat % 2 ^ k < 2 ^ 32 by omega)]
  rw [word, toInt_ofNat32 (by omega), toNat_toInt32_mod x (by omega)]

theorem shr_natCast {x : Nat} (lt : x < 2 ^ 31) (n : Nat) : shr x n = (x / 2 ^ (n % 32) : Nat) := by
  have distance : ((n : Int) % 32).toNat = n % 32 := by omega
  have le : x / 2 ^ (n % 32) ≤ x := Nat.div_le_self _ _
  have cast : (x : Int) / ((2 ^ (n % 32) : Nat) : Int) = (x / 2 ^ (n % 32) : Nat) := (Int.natCast_ediv _ _).symm
  rw [shr, distance, BitVec.sshiftRight, toInt32_toInt (by omega) (by omega), Int.shiftRight_eq_div_pow, cast]
  have nonneg := Int.natCast_nonneg (x / 2 ^ (n % 32))
  exact toInt32_toInt (by omega) (by omega)

theorem ushr_natCast {x n : Nat} (low : n < 32) (lt : x < 2 ^ 32) : ushr x n = (x / 2 ^ n : Nat) := by
  have distance : ((n : Int) % 32).toNat = n := by omega
  rw [ushr, distance, toInt32_natCast, BitVec.toNat_ushiftRight, BitVec.toNat_ofNat, Nat.mod_eq_of_lt lt,
    Nat.shiftRight_eq_div_pow]

theorem shl_natCast {x n : Nat} (low : n < 32) (lt : x * 2 ^ n < 2 ^ 31) : shl x n = (x * 2 ^ n : Nat) := by
  have distance : ((n : Int) % 32).toNat = n := by omega
  rw [shl, distance, toInt32_natCast, ← ofNat_mul_two_pow, toInt_ofNat32 lt]

theorem and_natCast {x y : Nat} (lty : y < 2 ^ 31) : and x y = (x &&& y : Nat) := by
  have both : x &&& y < 2 ^ 31 := Nat.and_lt_two_pow x lty
  have word : BitVec.ofNat 32 x &&& BitVec.ofNat 32 y = BitVec.ofNat 32 (x &&& y) := by
    apply BitVec.eq_of_toNat_eq
    rw [BitVec.toNat_and, BitVec.toNat_ofNat, BitVec.toNat_ofNat, BitVec.toNat_ofNat, ← Nat.and_mod_two_pow]
  rw [and, toInt32_natCast, toInt32_natCast, word, toInt_ofNat32 both]

theorem or_natCast {x y : Nat} (ltx : x < 2 ^ 31) (lty : y < 2 ^ 31) : or x y = (x ||| y : Nat) := by
  have both : x ||| y < 2 ^ 31 := Nat.or_lt_two_pow ltx lty
  have word : BitVec.ofNat 32 x ||| BitVec.ofNat 32 y = BitVec.ofNat 32 (x ||| y) := by
    apply BitVec.eq_of_toNat_eq
    rw [BitVec.toNat_or, BitVec.toNat_ofNat, BitVec.toNat_ofNat, BitVec.toNat_ofNat, ← Nat.or_mod_two_pow]
  rw [or, toInt32_natCast, toInt32_natCast, word, toInt_ofNat32 both]

end Numbers

section BigIntegers

theorem land_mask (x : Int) (n : Nat) : Int.land x ((1 : Int) <<< (n : Int) - 1) = x % 2 ^ n := by
  have power := Nat.two_pow_pos n
  have mask : (1 : Int) <<< (n : Int) - 1 = ((2 ^ n - 1 : Nat) : Int) := by
    rw [Int.one_shiftLeft]
    omega
  have cast : ((2 ^ n : Nat) : Int) = 2 ^ n := by push_cast; rfl
  rw [mask]
  cases x with
  | ofNat m =>
      change ((m &&& (2 ^ n - 1) : Nat) : Int) = _
      rw [Nat.and_two_pow_sub_one_eq_mod, Int.natCast_emod, cast]
      rfl
  | negSucc m =>
      change ((Nat.ldiff (2 ^ n - 1) m : Nat) : Int) = _
      have low := Nat.mod_lt m power
      have complement : Nat.ldiff (2 ^ n - 1) m = 2 ^ n - (m % 2 ^ n + 1) := by
        apply Nat.eq_of_testBit_eq
        intro i
        rw [Nat.testBit_ldiff, Nat.testBit_two_pow_sub_one, Nat.testBit_two_pow_sub_succ low, Nat.testBit_mod_two_pow]
        cases decide (i < n) <;> simp
      have rest : (m : Int) % 2 ^ n = (m % 2 ^ n : Nat) := by rw [Int.natCast_emod, cast]
      rw [complement, Int.negSucc_emod m (by omega : (0 : Int) < 2 ^ n), rest]
      omega

theorem testBit_emod (x : Int) (n i : Nat) : (x % 2 ^ n).toNat.testBit i = (decide (i < n) && x.testBit i) := by
  have power := Nat.two_pow_pos n
  have mask : (1 : Int) <<< (n : Int) - 1 = ((2 ^ n - 1 : Nat) : Int) := by
    rw [Int.one_shiftLeft]
    omega
  obtain ⟨r, value, _⟩ := emod_two_pow x n
  have bit := congrArg (fun y => y.testBit i) (land_mask x n)
  simp only [Int.testBit_land, mask, value] at bit
  have ones : Int.testBit ((2 ^ n - 1 : Nat) : Int) i = decide (i < n) := Nat.testBit_two_pow_sub_one n i
  rw [value, ← ones, Bool.and_comm, bit]
  rfl

theorem lor_low (x : Int) {k y : Nat} (lt : y < 2 ^ k) : Int.lor (x * 2 ^ k) y = x * 2 ^ k + y := by
  have power := Nat.two_pow_pos k
  have cast : ((2 ^ k : Nat) : Int) = 2 ^ k := by push_cast; rfl
  cases x with
  | ofNat m =>
      have shifted : Int.ofNat m * 2 ^ k = ((2 ^ k * m : Nat) : Int) := by
        rw [Nat.mul_comm]
        push_cast
        rfl
      rw [shifted]
      change ((2 ^ k * m ||| y : Nat) : Int) = _
      rw [← Nat.two_pow_add_eq_or_of_lt lt]
      push_cast
      rfl
  | negSucc m =>
      have shifted : Int.negSucc m * 2 ^ k = Int.negSucc (2 ^ k * m + (2 ^ k - 1)) := by
        have low : ((2 ^ k - 1 : Nat) : Int) = 2 ^ k - 1 := by omega
        rw [Int.negSucc_eq, Int.negSucc_eq, Int.natCast_add, low]
        push_cast
        ring
      have cleared : Nat.ldiff (2 ^ k * m + (2 ^ k - 1)) y = 2 ^ k * m + (2 ^ k - (y + 1)) := by
        apply Nat.eq_of_testBit_eq
        intro i
        rw [Nat.testBit_ldiff, Nat.testBit_two_pow_mul_add _ (by omega), Nat.testBit_two_pow_mul_add _ (by omega)]
        split
        next low =>
            rw [Nat.testBit_two_pow_sub_one, Nat.testBit_two_pow_sub_succ lt, decide_eq_true low, Bool.true_and]
        next high =>
            rw [Nat.testBit_lt_two_pow (lt.trans_le (Nat.pow_le_pow_right (by decide) (Nat.not_lt.mp high))),
              Bool.not_false, Bool.and_true]
      rw [shifted]
      change Int.negSucc (Nat.ldiff _ y) = _
      rw [cleared, Int.negSucc_eq, Int.negSucc_eq]
      omega

end BigIntegers

end Zcm.Lib.Js
