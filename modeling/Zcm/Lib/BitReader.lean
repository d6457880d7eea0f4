import Zcm.Lib.BitWriter

namespace Zcm.Lib

theorem flatMap_block {α β : Type} {f : α → List β} {n : Nat} (xs : List α)
    (length : ∀ x ∈ xs, (f x).length = n) {i : Nat}
    (lt : i < xs.length) : ((xs.flatMap f).drop (i * n)).take n = f xs[i] := by
  induction xs generalizing i with
  | nil => exact absurd lt (Nat.not_lt_zero i)
  | cons x xs ih =>
      have first := length x List.mem_cons_self
      rw [List.flatMap_cons]
      cases i with
      | zero => rw [Nat.zero_mul, List.drop_zero, List.take_left' first, List.getElem_cons_zero]
      | succ i =>
          rw [Nat.succ_mul, Nat.add_comm, ← List.drop_drop, List.drop_left' first,
            ih (fun x' member => length x' (List.mem_cons_of_mem x member)) (Nat.lt_of_succ_lt_succ lt),
            List.getElem_cons_succ]

theorem and_ones (b c k : Nat) : b &&& (2 ^ c - 1) * 2 ^ k = b / 2 ^ k % 2 ^ c * 2 ^ k := by
  apply Nat.eq_of_testBit_eq
  intro i
  rw [Nat.testBit_and, Nat.mul_comm, Nat.testBit_two_pow_mul, Nat.mul_comm _ (2 ^ k), Nat.testBit_two_pow_mul,
    Nat.testBit_two_pow_sub_one, Nat.testBit_mod_two_pow, Nat.testBit_div_two_pow]
  by_cases high : i ≥ k
  · rw [Nat.sub_add_cancel high, decide_eq_true high, Bool.true_and, Bool.true_and, Bool.and_comm]
  · rw [decide_eq_false high, Bool.false_and, Bool.false_and, Bool.and_false]

namespace Mem

variable (m : Mem Byte)

def bit (i : Nat) : Bool := (m (i / 8)).getLsbD (7 - i % 8)

def bits (start n : Nat) : List Bool := Mem.read m.bit start n

@[simp] theorem bits_length (start n : Nat) : (m.bits start n).length = n := read_length _ _ _

theorem bits_add (start k n : Nat) : m.bits start (k + n) = m.bits start k ++ m.bits (start + k) n :=
  read_add _ _ _ _

theorem bits_cons (start n : Nat) : m.bits start (n + 1) = m.bit start :: m.bits (start + 1) n := read_succ _ _ _

theorem bits_ne_nil (start : Nat) {n : Nat} (positive : 0 < n) : m.bits start n ≠ [] :=
  List.ne_nil_of_length_pos (by rwa [bits_length])

theorem bits_byte (a : Nat) {k c : Nat} (le : k + c ≤ 8) :
    m.bits (8 * a + k) c = toBits c ((m a).toNat / 2 ^ (8 - k - c)) := by
  induction c generalizing k with
  | zero => rfl
  | succ c ih =>
      have byte : (8 * a + k) / 8 = a := by omega
      have place : 7 - (8 * a + k) % 8 = c + (8 - k - (c + 1)) := by omega
      have rest : 8 - k - (c + 1) = 8 - (k + 1) - c := by omega
      rw [bits, read_succ, ← bits, Nat.add_assoc, ih (by omega), toBits, Nat.testBit_div_two_pow, bit, byte, place,
        rest]
      rfl

theorem ofBits_bits_byte (a : Nat) {k c : Nat} (le : k + c ≤ 8) :
    ofBits (m.bits (8 * a + k) c) = (m a).toNat / 2 ^ (8 - k - c) % 2 ^ c := by
  rw [bits_byte m a le, ofBits_toBits]

theorem unpack_read (a n : Nat) : unpack (m.read a n) = m.bits (8 * a) (8 * n) := by
  induction n generalizing a with
  | zero => rfl
  | succ n ih =>
      have first : m.bits (8 * a) 8 = toBits 8 (m a).toNat := by
        simpa using bits_byte m a (k := 0) (c := 8) (by omega)
      rw [read_succ, unpack, List.flatMap_cons, ← unpack, ih, Nat.mul_succ, Nat.mul_succ, Nat.add_comm (8 * n),
        bits_add,
        first]

theorem bits_write_pack (start : Nat) (bs : List Bool) :
    (m.write start (pack bs)).bits (8 * start) (8 * packedSize bs.length) = align bs := by
  rw [← pack_length, ← unpack_read, read_write_self, unpack_pack_eq]

theorem bit_write_outside (start : Nat) (bs : List Bool) {i : Nat}
    (outside : i < 8 * start ∨ 8 * (start + packedSize bs.length) ≤ i) :
    (m.write start (pack bs)).bit i = m.bit i := by
  rw [bit, bit, write_outside _ _ _ _ (by rw [pack_length]; omega)]

theorem bits_getElem? {start n i : Nat} (lt : i < n) : (m.bits start n)[i]? = some (m.bit (start + i)) := by
  rw [bits, Mem.read, List.getElem?_map, List.getElem?_range lt]
  rfl

theorem bit_write_pack (start : Nat) (bs : List Bool) {i : Nat} (inside : i < 8 * packedSize bs.length) :
    (m.write start (pack bs)).bit (8 * start + i) = bs.getD i false := by
  have cell := (@bits_getElem? (m.write start (pack bs)) (8 * start)) inside
  rw [bits_write_pack, align] at cell
  by_cases written : i < bs.length
  · rw [List.getElem?_append_left written] at cell
    rw [List.getD_eq_getElem?_getD, cell]
    rfl
  · rw [List.getElem?_append_right (by omega), List.getElem?_replicate] at cell
    rw [List.getD_eq_getElem?_getD, List.getElem?_eq_none (by omega)]
    split at cell
    · exact (Option.some.inj cell).symm
    · cases cell

theorem bits_write (start k n : Nat) (bs : List Bool) (inside : k + n ≤ bs.length) :
    (m.write start (pack bs)).bits (8 * start + k) n = (bs.drop k).take n := by
  apply List.ext_getElem?
  intro i
  by_cases lt : i < n
  · have size : bs.length ≤ 8 * packedSize bs.length := by rw [packedSize]; omega
    rw [bits_getElem? _ lt, Nat.add_assoc, bit_write_pack _ _ _ (by omega), List.getElem?_take_of_lt lt,
      List.getElem?_drop, List.getD_eq_getElem?_getD, List.getElem?_eq_getElem (by omega)]
    rfl
  · rw [List.getElem?_eq_none (by rw [bits_length]; omega), List.getElem?_eq_none (by rw [List.length_take]; omega)]

end Mem

def fieldValue (signed : Bool) (bs : List Bool) : Int :=
  if signed then Int.bmod (ofBits bs) (2 ^ bs.length) else ofBits bs

theorem bmod_append {x n y k : Nat} (positive : 0 < n) (xlt : x < 2 ^ n) (ylt : y < 2 ^ k) :
    Int.bmod ((x * 2 ^ k + y : Nat) : Int) (2 ^ (n + k)) = Int.bmod x (2 ^ n) * 2 ^ k + y := by
  obtain ⟨h, rfl⟩ := Nat.exists_eq_add_of_le' positive
  have whole : x * 2 ^ k + y < 2 ^ (h + 1 + k) := by
    calc x * 2 ^ k + y < x * 2 ^ k + 2 ^ k := Nat.add_lt_add_left ylt _
      _ = (x + 1) * 2 ^ k := by ring
      _ ≤ 2 ^ (h + 1) * 2 ^ k := Nat.mul_le_mul_right _ xlt
      _ = 2 ^ (h + 1 + k) := (Nat.pow_add _ _ _).symm
  have half : (2 ^ (h + 1) + 1) / 2 = 2 ^ h := by rw [Nat.pow_succ]; omega
  have half' : (2 ^ (h + 1 + k) + 1) / 2 = 2 ^ h * 2 ^ k := by
    rw [show h + 1 + k = h + k + 1 by omega, Nat.pow_succ, Nat.pow_add]; omega
  have low : x < 2 ^ h ↔ x * 2 ^ k + y < 2 ^ h * 2 ^ k := by
    constructor
    · intro lt
      calc x * 2 ^ k + y < x * 2 ^ k + 2 ^ k := Nat.add_lt_add_left ylt _
        _ = (x + 1) * 2 ^ k := by ring
        _ ≤ 2 ^ h * 2 ^ k := Nat.mul_le_mul_right _ lt
    · intro lt
      by_contra high
      have := Nat.mul_le_mul_right (2 ^ k) (Nat.not_lt.mp high)
      omega
  have small : ((x : Nat) : Int) % (2 ^ (h + 1) : Nat) = x :=
    Int.emod_eq_of_lt (Int.natCast_nonneg x) (by exact_mod_cast xlt)
  have small' : ((x * 2 ^ k + y : Nat) : Int) % (2 ^ (h + 1 + k) : Nat) = (x * 2 ^ k + y : Nat) :=
    Int.emod_eq_of_lt (Int.natCast_nonneg _) (by exact_mod_cast whole)
  rw [Int.bmod_def, Int.bmod_def, small, small']
  have halfInt : (((2 ^ (h + 1) : Nat) : Int) + 1) / 2 = ((2 ^ h : Nat) : Int) := by exact_mod_cast half
  have halfInt' : (((2 ^ (h + 1 + k) : Nat) : Int) + 1) / 2 = ((2 ^ h * 2 ^ k : Nat) : Int) := by exact_mod_cast half'
  rw [halfInt, halfInt']
  by_cases lt : x < 2 ^ h
  · rw [if_pos (by exact_mod_cast low.mp lt), if_pos (by exact_mod_cast lt)]
    push_cast
    rfl
  · rw [if_neg (by exact_mod_cast fun below => lt (low.mpr below)), if_neg (by exact_mod_cast lt), Nat.pow_add]
    push_cast
    ring

theorem fieldValue_append (signed : Bool) {xs : List Bool} (nonempty : xs ≠ []) (ys : List Bool) :
    fieldValue signed (xs ++ ys) = fieldValue signed xs * 2 ^ ys.length + ofBits ys := by
  rw [fieldValue, fieldValue, ofBits_append, List.length_append]
  cases signed with
  | false => simp
  | true =>
      rw [if_pos rfl, if_pos rfl]
      exact bmod_append (List.length_pos_iff.mpr nonempty) (ofBits_lt xs) (ofBits_lt ys)

section Words

variable {w : Nat}

theorem ofInt_mul_two_pow (x : Int) (k : Nat) : BitVec.ofInt w (x * 2 ^ k) = BitVec.ofInt w x <<< k := by
  have power : BitVec.ofInt w (2 ^ k) = BitVec.twoPow w k := by
    apply BitVec.eq_of_toNat_eq
    rw [BitVec.toNat_twoPow]
    have cast : ((2 : Int) ^ k) = ((2 ^ k : Nat) : Int) := by push_cast; rfl
    rw [cast, BitVec.ofInt_natCast, BitVec.toNat_ofNat]
  rw [BitVec.ofInt_mul, power, BitVec.mul_twoPow_eq_shiftLeft]

theorem ofNat_mul_two_pow (y k : Nat) : BitVec.ofNat w (y * 2 ^ k) = BitVec.ofNat w y <<< k := by
  have shifted := ofInt_mul_two_pow (w := w) y k
  rw [BitVec.ofInt_natCast] at shifted
  rw [← shifted, ← BitVec.ofInt_natCast]
  push_cast
  rfl

theorem ofNat_ushiftRight {y k : Nat} (lt : y * 2 ^ k < 2 ^ w) :
    BitVec.ofNat w (y * 2 ^ k) >>> k = BitVec.ofNat w y := by
  have less : y < 2 ^ w := (Nat.le_mul_of_pos_right y (Nat.two_pow_pos k)).trans_lt lt
  apply BitVec.eq_of_toNat_eq
  rw [BitVec.toNat_ushiftRight, BitVec.toNat_ofNat, BitVec.toNat_ofNat, Nat.mod_eq_of_lt lt, Nat.mod_eq_of_lt less,
    Nat.shiftRight_eq_div_pow, Nat.mul_div_cancel _ (Nat.two_pow_pos k)]

theorem ofInt_or_ofNat (x : Int) {k y : Nat} (lt : y < 2 ^ k) :
    BitVec.ofInt w (x * 2 ^ k) ||| BitVec.ofNat w y = BitVec.ofInt w (x * 2 ^ k + y) := by
  have apart : BitVec.ofInt w (x * 2 ^ k) &&& BitVec.ofNat w y = 0#w := by
    apply BitVec.eq_of_getLsbD_eq
    intro i lti
    rw [BitVec.getLsbD_and, ofInt_mul_two_pow, BitVec.getLsbD_shiftLeft, BitVec.getLsbD_ofNat, BitVec.getLsbD_zero]
    by_cases low : i < k
    · simp [low]
    · have high : y.testBit i = false :=
        Nat.testBit_lt_two_pow (lt.trans_le (Nat.pow_le_pow_right (by decide) (Nat.not_lt.mp low)))
      simp [high]
  rw [← BitVec.add_eq_or_of_and_eq_zero _ _ apart, BitVec.ofInt_add, BitVec.ofInt_natCast]

theorem ofInt_setWidth (x : Int) {v : Nat} (le : v ≤ w) : (BitVec.ofInt w x).setWidth v = BitVec.ofInt v x := by
  apply BitVec.eq_of_toNat_eq
  rw [BitVec.toNat_setWidth, BitVec.toNat_ofInt, BitVec.toNat_ofInt]
  have divides : ((2 ^ v : Nat) : Int) ∣ ((2 ^ w : Nat) : Int) := Int.natCast_dvd_natCast.mpr (Nat.pow_dvd_pow 2 le)
  have power : 0 < 2 ^ w := Nat.two_pow_pos w
  have nonneg := Int.emod_nonneg x (show ((2 ^ w : Nat) : Int) ≠ 0 by omega)
  apply Int.natCast_inj.mp
  rw [Int.natCast_emod, Int.toNat_of_nonneg nonneg, Int.emod_emod_of_dvd x divides,
    Int.toNat_of_nonneg (Int.emod_nonneg x (by have := Nat.two_pow_pos v; omega))]

theorem ofInt_sshiftRight {x : Int} {n : Nat} (low : -2 ^ w ≤ x * 2 ^ n * 2) (high : x * 2 ^ n * 2 < 2 ^ w) :
    (BitVec.ofInt w (x * 2 ^ n)).sshiftRight n = BitVec.ofInt w x := by
  have cast : ((2 ^ w : Nat) : Int) = 2 ^ w := by push_cast; rfl
  have inside : Int.bmod (x * 2 ^ n) (2 ^ w) = x * 2 ^ n := Int.bmod_eq_of_le (by omega) (by omega)
  rw [BitVec.sshiftRight, BitVec.toInt_ofInt, inside, Int.shiftRight_eq_div_pow]
  have power : (2 : Int) ^ n ≠ 0 := pow_ne_zero n (by decide)
  have whole := Int.mul_ediv_cancel x power
  push_cast
  rw [whole]

end Words

theorem fieldValue_lt (signed : Bool) (bs : List Bool) : -2 ^ bs.length ≤ fieldValue signed bs * 2 ∧
    fieldValue signed bs < 2 ^ bs.length := by
  have lt := ofBits_lt bs
  have power := Nat.two_pow_pos bs.length
  have cast : ((2 ^ bs.length : Nat) : Int) = 2 ^ bs.length := by push_cast; rfl
  rw [fieldValue]
  cases signed with
  | false =>
      rw [if_neg Bool.false_ne_true]
      omega
  | true =>
      rw [if_pos rfl]
      have low := Int.le_bmod (x := (ofBits bs : Int)) power
      have high := Int.bmod_lt (x := (ofBits bs : Int)) power
      omega

theorem bmod_of_half {x : Int} {n : Nat} (low : -2 ^ n ≤ x) (high : x < 2 ^ n) : Int.bmod x (2 ^ (n + 1)) = x := by
  have power : 2 ^ (n + 1) = 2 * 2 ^ n := by rw [Nat.pow_succ, Nat.mul_comm]
  have cast : ((2 ^ n : Nat) : Int) = 2 ^ n := by push_cast; rfl
  exact Int.bmod_eq_of_le (by omega) (by omega)

/-- A field with its sign extended keeps its value in any word that holds it; without, the highest bit of a field as
wide as the word counts as a sign. -/
theorem bmod_fieldValue (signed : Bool) (b : Bool) (bs : List Bool) {n : Nat} (fits : bs.length ≤ n) :
    Int.bmod (fieldValue signed (b :: bs)) (2 ^ (n + 1)) =
      fieldValue signed (b :: bs) - if signed = false ∧ b = true ∧ bs.length = n then 2 ^ (n + 1) else 0 := by
  have lt := ofBits_lt bs
  have cast : ((2 ^ bs.length : Nat) : Int) = 2 ^ bs.length := by push_cast; rfl
  have wide : (2 : Int) ^ bs.length ≤ 2 ^ n := by
    exact_mod_cast Nat.pow_le_pow_right (by decide) fits
  have double (k : Nat) : (2 : Int) ^ (k + 1) = 2 * 2 ^ k := by rw [pow_succ, Int.mul_comm]
  cases b with
  | false =>
      have value : ((ofBits (false :: bs) : Nat) : Int) = ofBits bs := by
        rw [ofBits, Bool.toNat_false, Nat.zero_mul, Nat.zero_add]
      have same : fieldValue signed (false :: bs) = ofBits bs := by
        rw [fieldValue, value, List.length_cons, bmod_of_half (by omega) (by omega), ite_self]
      rw [same, if_neg (by simp), Int.sub_zero]
      exact bmod_of_half (by omega) (by omega)
  | true =>
      have value : ((ofBits (true :: bs) : Nat) : Int) = 2 ^ bs.length + ofBits bs := by
        rw [ofBits, Bool.toNat_true, Nat.one_mul, Int.natCast_add, cast]
      cases signed with
      | true =>
          have minus : fieldValue true (true :: bs) = ofBits bs - 2 ^ bs.length := by
            have shift : (2 : Int) ^ bs.length + ofBits bs =
                ofBits bs - 2 ^ bs.length + (2 ^ (bs.length + 1) : Nat) := by
              push_cast
              rw [double]
              omega
            rw [fieldValue, if_pos rfl, value, List.length_cons, shift, Int.add_bmod_right,
              bmod_of_half (by omega) (by omega)]
          rw [minus, if_neg (by simp), Int.sub_zero]
          exact bmod_of_half (by omega) (by omega)
      | false =>
          have plus : fieldValue false (true :: bs) = 2 ^ bs.length + ofBits bs := value
          rw [plus]
          by_cases whole : bs.length = n
          · have shift : (2 : Int) ^ bs.length + ofBits bs = ofBits bs - 2 ^ bs.length + (2 ^ (n + 1) : Nat) := by
              push_cast
              rw [whole, double]
              omega
            rw [if_pos ⟨rfl, rfl, whole⟩, shift, Int.add_bmod_right, bmod_of_half (by omega) (by omega)]
            push_cast
            omega
          · have more : (2 : Int) ^ (bs.length + 1) ≤ 2 ^ n := by
              exact_mod_cast Nat.pow_le_pow_right (by decide) (show bs.length + 1 ≤ n by omega)
            rw [double] at more
            rw [if_neg (fun all => whole all.2.2), Int.sub_zero]
            exact bmod_of_half (by omega) (by omega)

theorem fieldValue_top (signed : Bool) (bs : List Bool) (k : Nat) :
    -2 ^ (bs.length + k) ≤ fieldValue signed bs * 2 ^ k * 2 ∧
      fieldValue signed bs * 2 ^ k < 2 ^ (bs.length + k) := by
  obtain ⟨low, high⟩ := fieldValue_lt signed bs
  have power : (0 : Int) < 2 ^ k := Int.pow_pos (by decide)
  constructor
  · calc (-2 ^ (bs.length + k) : Int) = -2 ^ bs.length * 2 ^ k := by ring
      _ ≤ fieldValue signed bs * 2 * 2 ^ k := Int.mul_le_mul_of_nonneg_right low power.le
      _ = fieldValue signed bs * 2 ^ k * 2 := by ring
  · calc fieldValue signed bs * 2 ^ k < 2 ^ bs.length * 2 ^ k := Int.mul_lt_mul_of_pos_right high power
      _ = 2 ^ (bs.length + k) := (pow_add _ _ _).symm

end Zcm.Lib
