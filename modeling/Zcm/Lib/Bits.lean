import Mathlib.Data.List.GetD
import Mathlib.Data.List.Flatten
import Zcm.Lib.Bytes

namespace Zcm.Lib

def toBits : Nat → Nat → List Bool
  | 0, _ => []
  | n + 1, v => v.testBit n :: toBits n v

def ofBits : List Bool → Nat
  | [] => 0
  | b :: bs => b.toNat * 2 ^ bs.length + ofBits bs

@[simp] theorem toBits_length (n v : Nat) : (toBits n v).length = n := by
  induction n with
  | zero => rfl
  | succ n ih => simp [toBits, ih]

theorem ofBits_lt (bs : List Bool) : ofBits bs < 2 ^ bs.length := by
  induction bs with
  | nil => simp [ofBits]
  | cons b bs ih =>
      have digit : b.toNat ≤ 1 := Bool.toNat_le b
      have high := Nat.mul_le_mul_right (2 ^ bs.length) digit
      rw [ofBits, List.length_cons, Nat.pow_succ]
      omega

theorem ofBits_append (xs ys : List Bool) : ofBits (xs ++ ys) = ofBits xs * 2 ^ ys.length + ofBits ys := by
  induction xs with
  | nil => simp [ofBits]
  | cons b xs ih =>
      rw [List.cons_append, ofBits, ih, ofBits, List.length_append, Nat.pow_add]
      ring

theorem ofBits_toBits (n v : Nat) : ofBits (toBits n v) = v % 2 ^ n := by
  induction n with
  | zero => simp [toBits, ofBits, Nat.mod_one]
  | succ n ih =>
      rw [toBits, ofBits, toBits_length, ih, Nat.testBit_eq_decide_div_mod_eq, Nat.pow_succ, Nat.mod_mul]
      have bit : (decide (v / 2 ^ n % 2 = 1)).toNat = v / 2 ^ n % 2 := by
        rcases Nat.mod_two_eq_zero_or_one (v / 2 ^ n) with h | h <;> simp [h]
      rw [bit]
      ring

theorem toBits_add (m k v : Nat) : toBits (m + k) v = toBits m (v / 2 ^ k) ++ toBits k v := by
  induction m with
  | zero => simp [toBits]
  | succ m ih =>
      rw [Nat.succ_add, toBits, ih, toBits, Nat.testBit_div_two_pow, Nat.add_comm m k, List.cons_append]

theorem toBits_mod {n k : Nat} (le : n ≤ k) (v : Nat) : toBits n (v % 2 ^ k) = toBits n v := by
  induction n with
  | zero => rfl
  | succ n ih => rw [toBits, toBits, ih (by omega), Nat.testBit_mod_two_pow, decide_eq_true (by omega), Bool.true_and]

theorem toBits_ofBits (bs : List Bool) : toBits bs.length (ofBits bs) = bs := by
  induction bs with
  | nil => rfl
  | cons b bs ih =>
      have lt := ofBits_lt bs
      have top : (ofBits (b :: bs)).testBit bs.length = b := by
        rw [ofBits, Nat.mul_comm, Nat.testBit_two_pow_mul_add _ lt, if_neg (Nat.lt_irrefl _), Nat.sub_self]
        cases b <;> rfl
      have low : toBits bs.length (ofBits (b :: bs)) = toBits bs.length (ofBits bs) := by
        rw [← toBits_mod (Nat.le_refl _) (ofBits (b :: bs)), ofBits, Nat.mul_add_mod_self_right,
          Nat.mod_eq_of_lt lt]
      rw [List.length_cons, toBits, top, low, ih]

def byteOf (bs : List Bool) : Byte := BitVec.ofNat 8 (ofBits bs * 2 ^ (8 - bs.length))

def packedSize (bits : Nat) : Nat := (bits + 7) / 8

def pack (bs : List Bool) : List Byte :=
  (List.range (packedSize bs.length)).map fun i => byteOf ((bs.drop (8 * i)).take 8)

def unpack (bytes : List Byte) : List Bool := bytes.flatMap fun b => toBits 8 b.toNat

@[simp] theorem pack_length (bs : List Bool) : (pack bs).length = packedSize bs.length := by
  simp [pack]

@[simp] theorem pack_nil : pack [] = [] := rfl

@[simp] theorem unpack_length (bytes : List Byte) : (unpack bytes).length = 8 * bytes.length := by
  induction bytes with
  | nil => rfl
  | cons b bytes ih =>
      rw [unpack, List.flatMap_cons, List.length_append, toBits_length, List.length_cons]
      rw [unpack] at ih
      omega

theorem unpack_append (xs ys : List Byte) : unpack (xs ++ ys) = unpack xs ++ unpack ys :=
  List.flatMap_append

theorem byteOf_toNat {bs : List Bool} (le : bs.length ≤ 8) :
    (byteOf bs).toNat = ofBits bs * 2 ^ (8 - bs.length) := by
  have lt := ofBits_lt bs
  have small : ofBits bs * 2 ^ (8 - bs.length) < 2 ^ 8 := by
    calc ofBits bs * 2 ^ (8 - bs.length) < 2 ^ bs.length * 2 ^ (8 - bs.length) :=
          Nat.mul_lt_mul_of_pos_right lt (Nat.two_pow_pos _)
      _ = 2 ^ 8 := by rw [← Nat.pow_add, Nat.add_sub_cancel' le]
  rw [byteOf, BitVec.toNat_ofNat, Nat.mod_eq_of_lt small]

theorem pack_append {xs : List Bool} {q : Nat} (aligned : xs.length = 8 * q) (ys : List Bool) :
    pack (xs ++ ys) = pack xs ++ pack ys := by
  have size : packedSize (xs ++ ys).length = q + packedSize ys.length := by
    simp only [packedSize, List.length_append, aligned]
    omega
  have left : packedSize xs.length = q := by
    simp only [packedSize, aligned]
    omega
  rw [pack, size, List.range_add, List.map_append, List.map_map, pack, left, pack]
  congr 1
  · refine List.map_congr_left fun i hi => ?_
    have lt := List.mem_range.mp hi
    rw [List.drop_append_of_le_length (by omega), List.take_append_of_le_length (by simp; omega)]
  · refine List.map_congr_left fun i _ => ?_
    simp only [Function.comp_apply]
    rw [Nat.mul_add, ← aligned, ← List.drop_drop, List.drop_left' rfl]

theorem pack_of_le {bs : List Bool} (nonempty : bs ≠ []) (le : bs.length ≤ 8) : pack bs = [byteOf bs] := by
  have pos := List.length_pos_iff.mpr nonempty
  have one : packedSize bs.length = 1 := by
    simp only [packedSize]
    omega
  simp [pack, one, List.take_of_length_le le]

theorem unpack_byteOf {bs : List Bool} (le : bs.length ≤ 8) :
    unpack [byteOf bs] = bs ++ List.replicate (8 - bs.length) false := by
  have zeros : ∀ n, ofBits (List.replicate n false) = 0 := by
    intro n
    induction n with
    | zero => rfl
    | succ n ih => simp [List.replicate_succ, ofBits, ih]
  have value : (byteOf bs).toNat = ofBits (bs ++ List.replicate (8 - bs.length) false) := by
    rw [byteOf_toNat le, ofBits_append, zeros, List.length_replicate, Nat.add_zero]
  have length : (bs ++ List.replicate (8 - bs.length) false).length = 8 := by
    simp only [List.length_append, List.length_replicate]
    omega
  have back := toBits_ofBits (bs ++ List.replicate (8 - bs.length) false)
  rw [length, ← value] at back
  simpa [unpack] using back

theorem unpack_pack (bs : List Bool) :
    unpack (pack bs) = bs ++ List.replicate (8 * packedSize bs.length - bs.length) false := by
  induction h : bs.length / 8 generalizing bs with
  | zero =>
      have short : bs.length < 8 := by omega
      by_cases empty : bs = []
      · subst empty
        rfl
      · have pos := List.length_pos_iff.mpr empty
        have one : 8 * packedSize bs.length = 8 := by
          simp only [packedSize]
          omega
        rw [pack_of_le empty (by omega), unpack_byteOf (by omega), one]
  | succ n ih =>
      have first : (bs.take 8).length = 8 * 1 := by
        simp only [List.length_take]
        omega
      have rest := ih (bs.drop 8) (by simp only [List.length_drop]; omega)
      have size : 8 * packedSize (bs.drop 8).length - (bs.drop 8).length =
          8 * packedSize bs.length - bs.length := by
        simp only [packedSize, List.length_drop]
        omega
      have nonempty : bs.take 8 ≠ [] := List.ne_nil_of_length_pos (by omega)
      conv_lhs => rw [← List.take_append_drop 8 bs]
      rw [pack_append first, unpack_append, rest, pack_of_le nonempty (by omega), unpack_byteOf (by omega), size,
        first, Nat.sub_self, List.replicate_zero, List.append_nil, ← List.append_assoc, List.take_append_drop]

end Zcm.Lib
