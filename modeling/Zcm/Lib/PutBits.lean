import Zcm.Lib.BitReader

namespace Zcm.Lib
namespace Mem

def putBit (m : Mem Byte) (i : Nat) (b : Bool) : Mem Byte :=
  (m.begun (i / 8) (i % 8)).set (i / 8)
    ((m.begun (i / 8) (i % 8)) (i / 8) ||| BitVec.ofNat 8 (b.toNat * 2 ^ (7 - i % 8)))

def putBits : Mem Byte → Nat → List Bool → Mem Byte
  | m, _, [] => m
  | m, i, b :: bs => (m.putBit i b).putBits (i + 1) bs

theorem putBits_append (m : Mem Byte) (i : Nat) (xs ys : List Bool) :
    m.putBits i (xs ++ ys) = (m.putBits i xs).putBits (i + xs.length) ys := by
  induction xs generalizing m i with
  | nil => rfl
  | cons x xs ih => rw [List.cons_append, putBits, ih, putBits, List.length_cons, Nat.add_right_comm, Nat.add_assoc]

theorem putBit_byte (m : Mem Byte) (a : Nat) {k : Nat} (lt : k < 8) (b : Bool) :
    m.putBit (8 * a + k) b =
      (m.begun a k).set a ((m.begun a k) a ||| BitVec.ofNat 8 (b.toNat * 2 ^ (7 - k))) := by
  have byte : (8 * a + k) / 8 = a := by omega
  have place : (8 * a + k) % 8 = k := by omega
  rw [putBit, byte, place]

theorem ofNat_or (x y : Nat) : BitVec.ofNat 8 x ||| BitVec.ofNat 8 y = BitVec.ofNat 8 (x ||| y) := by
  apply BitVec.eq_of_toNat_eq
  rw [BitVec.toNat_or, BitVec.toNat_ofNat, BitVec.toNat_ofNat, BitVec.toNat_ofNat, ← Nat.or_mod_two_pow]

theorem putBits_byte (m : Mem Byte) (a : Nat) {k : Nat} {bs : List Bool} (nonempty : bs ≠ [])
    (le : k + bs.length ≤ 8) :
    m.putBits (8 * a + k) bs =
      (m.begun a k).set a ((m.begun a k) a ||| BitVec.ofNat 8 (ofBits bs * 2 ^ (8 - k - bs.length))) := by
  induction bs generalizing m k with
  | nil => exact absurd rfl nonempty
  | cons b bs ih =>
      rw [List.length_cons] at le
      rw [putBits, putBit_byte m a (by omega)]
      by_cases last : bs = []
      · subst last
        have top : 8 - k - 1 = 7 - k := by omega
        rw [putBits, List.length_singleton, top, ofBits, ofBits, List.length_nil, Nat.pow_zero, Nat.mul_one,
          Nat.add_zero]
      · have lower : ofBits bs * 2 ^ (8 - (k + 1) - bs.length) < 2 ^ (7 - k) := by
          have lt := ofBits_lt bs
          calc ofBits bs * 2 ^ (8 - (k + 1) - bs.length) < 2 ^ bs.length * 2 ^ (8 - (k + 1) - bs.length) :=
                Nat.mul_lt_mul_of_pos_right lt (Nat.two_pow_pos _)
            _ = 2 ^ (7 - k) := by
                rw [← Nat.pow_add]
                congr 1
                omega
        have parts : ofBits (b :: bs) * 2 ^ (8 - k - (bs.length + 1)) =
            b.toNat * 2 ^ (7 - k) ||| ofBits bs * 2 ^ (8 - (k + 1) - bs.length) := by
          have split : 2 ^ (7 - k) = 2 ^ bs.length * 2 ^ (8 - (k + 1) - bs.length) := by
            rw [← Nat.pow_add]
            congr 1
            omega
          have size : 8 - k - (bs.length + 1) = 8 - (k + 1) - bs.length := by omega
          rw [Nat.mul_comm b.toNat, ← Nat.two_pow_add_eq_or_of_lt lower, ofBits, size, split]
          ring
        have under (m' : Mem Byte) : m'.begun a (k + 1) = m' := if_neg (Nat.succ_ne_zero k)
        rw [Nat.add_assoc, ih _ last (by omega), under, set_self, set_set, BitVec.or_assoc, ofNat_or, ← parts,
          List.length_cons]

theorem bit_putBit (m : Mem Byte) (i : Nat) (b : Bool) (j : Nat) :
    (m.putBit i b).bit j =
      if j = i then (i % 8 ≠ 0 && m.bit i) || b
      else if i % 8 = 0 ∧ j / 8 = i / 8 then false else m.bit j := by
  have digit : ∀ k < 8, ∀ l < 8, (BitVec.ofNat 8 (b.toNat * 2 ^ (7 - k))).getLsbD (7 - l) =
      (decide (l = k) && b) := by
    cases b <;> decide
  by_cases byte : j / 8 = i / 8
  · rw [putBit, bit, byte, set_self, BitVec.getLsbD_or,
      digit _ (Nat.mod_lt i (by decide)) _ (Nat.mod_lt j (by decide)), Mem.begun]
    by_cases fresh : i % 8 = 0
    · rw [if_pos fresh, set_self]
      by_cases same : j = i
      · subst same
        simp [fresh]
      · have apart : ¬ j % 8 = i % 8 := by omega
        rw [decide_eq_false apart, if_neg same, if_pos ⟨fresh, rfl⟩]
        simp
    · rw [if_neg fresh]
      by_cases same : j = i
      · subst same
        simp [fresh, bit]
      · have apart : ¬ j % 8 = i % 8 := by omega
        simp [fresh, same, apart, bit, byte]
  · have other : j ≠ i := fun same => byte (by rw [same])
    have elsewhere : ¬ (i % 8 = 0 ∧ j / 8 = i / 8) := fun both => byte both.2
    rw [if_neg other, if_neg elsewhere, putBit, bit, set_of_ne _ _ byte, Mem.begun]
    split
    · rw [set_of_ne _ _ byte]
      rfl
    · rfl

theorem bit_putBits_before (m : Mem Byte) {i j : Nat} (bs : List Bool) (lt : j < i) :
    (m.putBits i bs).bit j = m.bit j := by
  induction bs generalizing m i with
  | nil => rfl
  | cons b bs ih =>
      rw [putBits, ih _ (by omega), bit_putBit, if_neg (by omega), if_neg (by omega)]

theorem bit_putBits (m : Mem Byte) (i : Nat) (bs : List Bool) {j : Nat} (lt : j < bs.length) :
    (m.putBits i bs).bit (i + j) = ((decide (8 * ((i + j) / 8) < i) && m.bit (i + j)) || bs[j]) := by
  induction bs generalizing m i j with
  | nil => exact absurd lt (Nat.not_lt_zero j)
  | cons b bs ih =>
      rw [putBits]
      cases j with
      | zero =>
          have under : (8 * (i / 8) < i) ↔ i % 8 ≠ 0 := by omega
          rw [bit_putBits_before _ _ (by omega), bit_putBit, Nat.add_zero, if_pos rfl, decide_eq_decide.mpr under,
            List.getElem_cons_zero]
      | succ j =>
          rw [List.length_cons] at lt
          have place : i + (j + 1) = i + 1 + j := by omega
          rw [place, ih _ _ (by omega), bit_putBit, if_neg (by omega), List.getElem_cons_succ]
          congr 1
          by_cases fresh : i % 8 = 0 ∧ (i + 1 + j) / 8 = i / 8
          · rw [if_pos fresh, Bool.and_false, decide_eq_false (by omega), Bool.false_and]
          · rw [if_neg fresh]
            by_cases under : 8 * ((i + 1 + j) / 8) < i
            · rw [decide_eq_true under, decide_eq_true (by omega)]
            · rw [decide_eq_false under, decide_eq_false (by omega)]

theorem bit_putBits_behind (m : Mem Byte) {i j : Nat} (bs : List Bool) (le : i + bs.length ≤ j) :
    (m.putBits i bs).bit j = if i ≤ 8 * (j / 8) ∧ 8 * (j / 8) < i + bs.length then false else m.bit j := by
  induction bs generalizing m i with
  | nil => rw [putBits, List.length_nil, if_neg (by omega)]
  | cons b bs ih =>
      rw [List.length_cons] at le ⊢
      have behind : j ≠ i := by omega
      rw [putBits, ih _ (by omega), bit_putBit, if_neg behind]
      by_cases later : i + 1 ≤ 8 * (j / 8) ∧ 8 * (j / 8) < i + 1 + bs.length
      · rw [if_pos later, if_pos (by omega)]
      · rw [if_neg later]
        by_cases fresh : i % 8 = 0 ∧ j / 8 = i / 8
        · rw [if_pos fresh, if_pos (by omega)]
        · rw [if_neg fresh, if_neg (by omega)]

theorem bit_ext {m m' : Mem Byte} (same : ∀ i, m.bit i = m'.bit i) : m = m' := by
  funext a
  apply BitVec.eq_of_getLsbD_eq
  intro k lt
  have byte : (8 * a + (7 - k)) / 8 = a := by omega
  have place : 7 - (8 * a + (7 - k)) % 8 = k := by omega
  have cell := same (8 * a + (7 - k))
  rwa [bit, bit, byte, place] at cell

end Mem

def SameRow (covered : Nat → Prop) (start : Nat) (xs ys : List Bool) : Prop :=
  ∀ j < xs.length, covered (start + j) ∨ xs[j]? = ys[j]?

theorem sameRow_append {covered : Nat → Prop} {start : Nat} {xs ys : List Bool} (same : xs.length = ys.length)
    (xs' ys' : List Bool) : SameRow covered start (xs ++ xs') (ys ++ ys') ↔
      SameRow covered start xs ys ∧ SameRow covered (start + xs.length) xs' ys' := by
  constructor
  · intro row
    constructor
    · intro j lt
      have cell := row j (by rw [List.length_append]; omega)
      rwa [List.getElem?_append_left lt, List.getElem?_append_left (same ▸ lt)] at cell
    · intro j lt
      have cell := row (xs.length + j) (by rw [List.length_append]; omega)
      rwa [List.getElem?_append_right (by omega), List.getElem?_append_right (by omega), Nat.add_sub_cancel_left,
        ← same, Nat.add_sub_cancel_left, ← Nat.add_assoc] at cell
  · rintro ⟨first, second⟩ j lt
    by_cases left : j < xs.length
    · rw [List.getElem?_append_left left, List.getElem?_append_left (same ▸ left)]
      exact first j left
    · obtain ⟨k, rfl⟩ := Nat.exists_eq_add_of_le (Nat.not_lt.mp left)
      rw [List.length_append] at lt
      rw [List.getElem?_append_right (by omega), List.getElem?_append_right (by omega), Nat.add_sub_cancel_left,
        ← same, Nat.add_sub_cancel_left, ← Nat.add_assoc]
      exact second k (by omega)

/-- Two rows of bits leave the same memory when they are the same, where ones of the byte under way do not
cover it. -/
theorem Mem.putBits_eq_iff (m : Mem Byte) (i : Nat) {xs ys : List Bool} (same : xs.length = ys.length) :
    m.putBits i xs = m.putBits i ys ↔ SameRow (fun place => 8 * (place / 8) < i ∧ m.bit place = true) i xs ys := by
  constructor
  · intro equal j lt
    have cell := congrArg (fun m' => m'.bit (i + j)) equal
    simp only [bit_putBits m i xs lt, bit_putBits m i ys (same ▸ lt)] at cell
    by_cases covered : 8 * ((i + j) / 8) < i ∧ m.bit (i + j) = true
    · exact .inl covered
    · have bare : (decide (8 * ((i + j) / 8) < i) && m.bit (i + j)) = false := by simpa using covered
      rw [bare, Bool.false_or, Bool.false_or] at cell
      rw [List.getElem?_eq_getElem lt, List.getElem?_eq_getElem (same ▸ lt), cell]
      exact .inr rfl
  · intro cells
    apply bit_ext
    intro k
    by_cases before : k < i
    · rw [bit_putBits_before m xs before, bit_putBits_before m ys before]
    · obtain ⟨j, rfl⟩ := Nat.exists_eq_add_of_le (Nat.not_lt.mp before)
      by_cases lt : j < xs.length
      · rw [bit_putBits m i xs lt, bit_putBits m i ys (same ▸ lt)]
        cases cells j lt with
        | inl covered => rw [decide_eq_true covered.1, covered.2, Bool.and_true, Bool.true_or, Bool.true_or]
        | inr equal =>
            rw [List.getElem?_eq_getElem lt, List.getElem?_eq_getElem (same ▸ lt)] at equal
            rw [Option.some.inj equal]
      · rw [bit_putBits_behind m xs (by omega), bit_putBits_behind m ys (by omega), same]

end Zcm.Lib
