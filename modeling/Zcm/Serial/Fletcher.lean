import Mathlib.Data.ZMod.Basic
import Zcm.Lib.RunningSums
import Zcm.Serial.Recv

namespace Zcm.Serial
open Zcm.Lib

def sumHigh (sum : BitVec 16) : Nat := sum.toNat / 256

def sumLow (sum : BitVec 16) : Nat := sum.toNat % 256

def reduce (n : Nat) : Nat := n % 256 + n / 256

def exactUpdate (sums : Nat × Nat) (b : Byte) : Nat × Nat :=
  (reduce (reduce (sums.1 + b.toNat)), reduce (reduce (sums.2 + (sums.1 + b.toNat))))

def exactSums (bs : List Byte) : Nat × Nat := bs.foldl exactUpdate (255, 255)

def fletcherSums (bs : List Byte) : Nat × Nat := RunningSums.sums (0, 0) (bs.map (·.toNat))

theorem reduce_modEq (n : Nat) : reduce n ≡ n [MOD 255] := by
  unfold Nat.ModEq reduce
  omega

theorem reduce_reduce_range {n : Nat} (positive : 0 < n) (small : n ≤ 765) :
    1 ≤ reduce (reduce n) ∧ reduce (reduce n) ≤ 255 := by
  unfold reduce
  omega

def fold (x : BitVec 16) : BitVec 16 := (x &&& (0xff : BitVec 16)) + (x >>> 8)

theorem and_ff_toNat (x : BitVec 16) : (x &&& (0xff : BitVec 16)).toNat = x.toNat % 256 := by
  rw [BitVec.toNat_and]
  exact Nat.and_two_pow_sub_one_eq_mod x.toNat 8

theorem shift_toNat (x : BitVec 16) : (x >>> 8).toNat = x.toNat / 256 := by
  rw [BitVec.toNat_ushiftRight, Nat.shiftRight_eq_div_pow]

theorem fold_toNat (x : BitVec 16) : (fold x).toNat = reduce x.toNat := by
  have bound := x.isLt
  rw [fold, BitVec.toNat_add, and_ff_toNat, shift_toNat, reduce, Nat.mod_eq_of_lt (by omega)]

theorem fletcherUpdate_toNat (b : Byte) (sum : BitVec 16) : (fletcherUpdate b sum).toNat =
    256 * (exactUpdate (sumLow sum, sumHigh sum) b).2 + (exactUpdate (sumLow sum, sumHigh sum) b).1 := by
  have byte := b.isLt
  have bound := sum.isLt
  have low : ((sum &&& (0xff : BitVec 16)) + b.setWidth 16).toNat = sumLow sum + b.toNat := by
    rw [BitVec.toNat_add, and_ff_toNat, BitVec.toNat_setWidth, Nat.mod_eq_of_lt (by omega : b.toNat < 2 ^ 16), sumLow,
      Nat.mod_eq_of_lt (by omega)]
  have high : (((sum >>> 8) &&& (0xff : BitVec 16)) + ((sum &&& (0xff : BitVec 16)) + b.setWidth 16)).toNat =
      sumHigh sum + (sumLow sum + b.toNat) := by
    have top : sum.toNat / 256 < 256 := by omega
    rw [BitVec.toNat_add, and_ff_toNat, shift_toNat, low, sumHigh, sumLow, Nat.mod_eq_of_lt top,
      Nat.mod_eq_of_lt (by omega)]
  have highRange : reduce (reduce (sumHigh sum + (sumLow sum + b.toNat))) ≤ 255 := by
    unfold reduce sumHigh sumLow
    omega
  have lowRange : reduce (reduce (sumLow sum + b.toNat)) < 2 ^ 8 := by
    unfold reduce sumLow
    omega
  have shape : fletcherUpdate b sum =
      (fold (fold (((sum >>> 8) &&& (0xff : BitVec 16)) + ((sum &&& (0xff : BitVec 16)) + b.setWidth 16))) <<< 8) |||
        fold (fold ((sum &&& (0xff : BitVec 16)) + b.setWidth 16)) := rfl
  rw [shape, BitVec.toNat_or, BitVec.toNat_shiftLeft, fold_toNat, fold_toNat, fold_toNat, fold_toNat, low, high,
    Nat.shiftLeft_eq, Nat.mod_eq_of_lt (by omega), mul_pow_or _ lowRange, exactUpdate, Nat.mul_comm]
  rfl

theorem fletcherUpdate_eq (b : Byte) (sum : BitVec 16) :
    (sumLow (fletcherUpdate b sum), sumHigh (fletcherUpdate b sum)) = exactUpdate (sumLow sum, sumHigh sum) b := by
  have whole := fletcherUpdate_toNat b sum
  have byte := b.isLt
  have bound := sum.isLt
  have lowRange : (exactUpdate (sumLow sum, sumHigh sum) b).1 < 256 := by
    unfold exactUpdate reduce sumLow
    omega
  rw [sumLow, sumHigh, whole]
  apply Prod.ext <;> omega

theorem foldl_fletcherUpdate (bs : List Byte) (sum : BitVec 16) :
    (sumLow (bs.foldl (fun sum b => fletcherUpdate b sum) sum),
      sumHigh (bs.foldl (fun sum b => fletcherUpdate b sum) sum)) =
      bs.foldl exactUpdate (sumLow sum, sumHigh sum) := by
  induction bs generalizing sum with
  | nil => rfl
  | cons b bs ih => rw [List.foldl_cons, List.foldl_cons, ih, fletcherUpdate_eq]

theorem checksum_exact (bs : List Byte) : (sumLow (checksum bs), sumHigh (checksum bs)) = exactSums bs :=
  foldl_fletcherUpdate bs 0xffff

structure InRange (sums : Nat × Nat) : Prop where
  low : 1 ≤ sums.1 ∧ sums.1 ≤ 255
  high : 1 ≤ sums.2 ∧ sums.2 ≤ 255

theorem InRange.update {sums : Nat × Nat} (h : InRange sums) (b : Byte) : InRange (exactUpdate sums b) := by
  have byte := b.isLt
  obtain ⟨low, high⟩ := h
  exact ⟨reduce_reduce_range (by omega) (by omega), reduce_reduce_range (by omega) (by omega)⟩

def Congruent (s t : Nat × Nat) : Prop := s.1 ≡ t.1 [MOD 255] ∧ s.2 ≡ t.2 [MOD 255]

theorem Congruent.update {s t : Nat × Nat} (h : Congruent s t) (b : Byte) :
    Congruent (exactUpdate s b) (RunningSums.step t b.toNat) := by
  have twice (n : Nat) : reduce (reduce n) ≡ n [MOD 255] := (reduce_modEq _).trans (reduce_modEq n)
  have low := h.1.add_right b.toNat
  exact ⟨(twice _).trans low, (twice _).trans (h.2.add low)⟩

theorem exactSums_spec (bs : List Byte) : InRange (exactSums bs) ∧ Congruent (exactSums bs) (fletcherSums bs) := by
  have run (s t : Nat × Nat) (range : InRange s) (same : Congruent s t) :
      InRange (bs.foldl exactUpdate s) ∧
        Congruent (bs.foldl exactUpdate s) (RunningSums.sums t (bs.map (·.toNat))) := by
    induction bs generalizing s t with
    | nil => exact ⟨range, same⟩
    | cons b bs ih => exact ih _ _ (range.update b) (same.update b)
  exact run (255, 255) (0, 0) ⟨by decide, by decide⟩ ⟨rfl, rfl⟩

def residue (b : Byte) : ZMod 255 := (b.toNat : ZMod 255)

theorem residue_eq_iff {x y : Byte} : residue x = residue y ↔ x.toNat ≡ y.toNat [MOD 255] :=
  ZMod.natCast_eq_natCast_iff _ _ _

theorem residues_of_checksum {bs bs' : List Byte} (same : checksum bs = checksum bs') :
    RunningSums.sums 0 (bs.map residue) = RunningSums.sums 0 (bs'.map residue) := by
  have cast (bs : List Byte) : RunningSums.sums 0 (bs.map residue) =
      (((exactSums bs).1 : ZMod 255), ((exactSums bs).2 : ZMod 255)) := by
    have sums := RunningSums.sums_map (Nat.castAddMonoidHom (ZMod 255)) (0, 0) (bs.map (·.toNat))
    rw [List.map_map] at sums
    obtain ⟨low, high⟩ := (exactSums_spec bs).2
    rw [(ZMod.natCast_eq_natCast_iff _ _ _).mpr low, (ZMod.natCast_eq_natCast_iff _ _ _).mpr high]
    exact sums
  rw [cast, cast, ← checksum_exact, ← checksum_exact, same]

/-- The two bytes of a checksum, as numbers that no carry was lost of. -/
structure IsFletcher (bs : List Byte) : Prop where
  exact : (sumLow (checksum bs), sumHigh (checksum bs)) = exactSums bs
  low : 1 ≤ sumLow (checksum bs) ∧ sumLow (checksum bs) ≤ 255
  high : 1 ≤ sumHigh (checksum bs) ∧ sumHigh (checksum bs) ≤ 255
  low_modEq : sumLow (checksum bs) ≡ (fletcherSums bs).1 [MOD 255]
  high_modEq : sumHigh (checksum bs) ≡ (fletcherSums bs).2 [MOD 255]

theorem checksum_isFletcher (bs : List Byte) : IsFletcher bs := by
  obtain ⟨range, same⟩ := exactSums_spec bs
  have exact := checksum_exact bs
  rw [← exact] at range same
  exact ⟨exact, range.low, range.high, same.1, same.2⟩

def OneByteDiffers (bs bs' : List Byte) : Prop :=
  bs.length = bs'.length ∧ ∃ i : Nat, ∃ x y : Byte, bs[i]? = some x ∧ bs'[i]? = some y ∧
    ¬ (255 : Int) ∣ (x.toNat : Int) - y.toNat ∧
    ∀ j, j ≠ i → bs[j]? = bs'[j]?

def NeighboursExchanged (bs bs' : List Byte) : Prop :=
  bs.length = bs'.length ∧ ∃ i : Nat, ∃ x y : Byte, bs[i]? = some x ∧ bs[i + 1]? = some y ∧
    bs'[i]? = some y ∧ bs'[i + 1]? = some x ∧
    ¬ x.toNat ≡ y.toNat [MOD 255] ∧ ∀ j, j ≠ i → j ≠ i + 1 → bs[j]? = bs'[j]?

theorem split_around {bs bs' : List Byte} {i k : Nat} (others : ∀ j, j < i ∨ i + k ≤ j → bs[j]? = bs'[j]?) :
    ∃ xs zs, bs = xs ++ ((bs.drop i).take k ++ zs) ∧ bs' = xs ++ ((bs'.drop i).take k ++ zs) := by
  have before : bs.take i = bs'.take i := by
    apply List.ext_getElem?
    intro j
    rw [List.getElem?_take, List.getElem?_take]
    split
    next lt => exact others j (.inl lt)
    next => rfl
  have after : bs.drop (i + k) = bs'.drop (i + k) := by
    apply List.ext_getElem?
    intro j
    rw [List.getElem?_drop, List.getElem?_drop]
    exact others _ (.inr (by omega))
  refine ⟨bs.take i, bs.drop (i + k), ?_, ?_⟩
  · rw [← List.drop_drop, List.take_append_drop, List.take_append_drop]
  · rw [before, after, ← List.drop_drop, List.take_append_drop, List.take_append_drop]

theorem drop_cons {bs : List Byte} {i : Nat} {x : Byte} (here : bs[i]? = some x) :
    bs.drop i = x :: bs.drop (i + 1) := by
  obtain ⟨inside, rfl⟩ := List.getElem?_eq_some_iff.mp here
  exact List.drop_eq_getElem_cons inside

theorem checksum_oneByte {bs bs' : List Byte} (differs : OneByteDiffers bs bs') : checksum bs ≠ checksum bs' := by
  obtain ⟨-, i, x, y, here, here', amount, others⟩ := differs
  obtain ⟨xs, zs, split, split'⟩ := split_around (i := i) (k := 1) fun j outside => others j (by omega)
  rw [drop_cons here] at split
  rw [drop_cons here'] at split'
  intro same
  have sums := residues_of_checksum same
  rw [split, split'] at sums
  simp only [List.take_succ_cons, List.take_zero, List.cons_append, List.nil_append, List.map_append,
    List.map_cons, RunningSums.sums_replace, residue_eq_iff] at sums
  exact amount (Nat.modEq_iff_dvd.mp sums.symm)

theorem checksum_exchanged {bs bs' : List Byte} (exchanged : NeighboursExchanged bs bs') :
    checksum bs ≠ checksum bs' := by
  obtain ⟨-, i, x, y, first, second, first', second', different, others⟩ := exchanged
  obtain ⟨xs, zs, split, split'⟩ := split_around (i := i) (k := 2) fun j outside => others j (by omega) (by omega)
  rw [drop_cons first, drop_cons second] at split
  rw [drop_cons first', drop_cons second'] at split'
  intro same
  have sums := residues_of_checksum same
  rw [split, split'] at sums
  simp only [List.take_succ_cons, List.take_zero, List.cons_append, List.nil_append, List.map_append,
    List.map_cons, RunningSums.sums_exchange, residue_eq_iff] at sums
  exact different sums

/-- The checksum is Fletcher's for every message, so it tells apart the messages that it should. -/
theorem checksum_detects (bs bs' : List Byte) : IsFletcher bs ∧
    (OneByteDiffers bs bs' ∨ NeighboursExchanged bs bs' → checksum bs ≠ checksum bs') :=
  ⟨checksum_isFletcher bs, fun differ => differ.elim checksum_oneByte checksum_exchanged⟩

example : checksum [0, 0xff] = checksum [0xff, 0xff] ∧ checksum [1, 2] ≠ checksum [2, 1] := by decide

end Zcm.Serial
