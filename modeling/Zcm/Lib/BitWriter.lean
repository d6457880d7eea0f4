import Zcm.Lib.Bits
import Zcm.Lib.Memory

namespace Zcm.Lib

theorem byteOf_append {xs ys : List Bool} (le : xs.length + ys.length ≤ 8) :
    byteOf (xs ++ ys) = byteOf xs ||| BitVec.ofNat 8 (ofBits ys * 2 ^ (8 - xs.length - ys.length)) := by
  have lt := ofBits_lt ys
  have low : ofBits ys * 2 ^ (8 - xs.length - ys.length) < 2 ^ (8 - xs.length) := by
    calc ofBits ys * 2 ^ (8 - xs.length - ys.length) < 2 ^ ys.length * 2 ^ (8 - xs.length - ys.length) :=
          Nat.mul_lt_mul_of_pos_right lt (Nat.two_pow_pos _)
      _ = 2 ^ (8 - xs.length) := by
          rw [← Nat.pow_add]
          congr 1
          omega
  have small : ofBits ys * 2 ^ (8 - xs.length - ys.length) < 2 ^ 8 :=
    low.trans_le (Nat.pow_le_pow_right (by omega) (by omega))
  have split : 2 ^ (8 - xs.length) = 2 ^ ys.length * 2 ^ (8 - xs.length - ys.length) := by
    rw [← Nat.pow_add]
    congr 1
    omega
  apply BitVec.eq_of_toNat_eq
  rw [BitVec.toNat_or, BitVec.toNat_ofNat, Nat.mod_eq_of_lt small, byteOf_toNat (by rw [List.length_append]; omega),
    byteOf_toNat (by omega), Nat.mul_comm (ofBits xs), ← Nat.two_pow_add_eq_or_of_lt low, ofBits_append,
    List.length_append, Nat.sub_add_eq, split]
  ring

theorem whole_part (bs : List Bool) : ∃ full part, bs = full ++ part ∧ full = bs.take (8 * (bs.length / 8)) ∧
    full.length = 8 * (bs.length / 8) ∧ part.length = bs.length % 8 ∧ (pack full).length = bs.length / 8 := by
  have length : (bs.take (8 * (bs.length / 8))).length = 8 * (bs.length / 8) := by
    rw [List.length_take]
    omega
  refine ⟨bs.take (8 * (bs.length / 8)), bs.drop (8 * (bs.length / 8)), (List.take_append_drop _ _).symm, rfl, length,
    ?_, ?_⟩
  · rw [List.length_drop]
    omega
  · rw [pack_length, packedSize, length]
    omega

theorem pack_unpack (bytes : List Byte) : pack (unpack bytes) = bytes := by
  induction bytes with
  | nil => rfl
  | cons b bytes ih =>
      have first : (toBits 8 b.toNat).length = 8 * 1 := toBits_length 8 _
      have nonempty : toBits 8 b.toNat ≠ [] := List.ne_nil_of_length_pos (by rw [first]; omega)
      have back : byteOf (toBits 8 b.toNat) = b := by
        rw [byteOf, ofBits_toBits, toBits_length, Nat.mod_eq_of_lt b.isLt, Nat.sub_self, Nat.pow_zero, Nat.mul_one,
          BitVec.ofNat_toNat, BitVec.setWidth_eq]
      rw [unpack, List.flatMap_cons, ← unpack, pack_append first, ih, pack_of_le nonempty (by omega), back]
      rfl

theorem ofBits_zeros (n : Nat) : ofBits (List.replicate n false) = 0 := by
  induction n with
  | zero => rfl
  | succ n ih => rw [List.replicate_succ, ofBits, ih, Bool.toNat_false, Nat.zero_mul]

theorem byteOf_zeros (n : Nat) : byteOf (List.replicate n false) = 0 := by
  rw [byteOf, ofBits_zeros, Nat.zero_mul]
  rfl

theorem toBits_zero (n : Nat) : toBits n 0 = List.replicate n false := by
  induction n with
  | zero => rfl
  | succ n ih => rw [toBits, ih, Nat.zero_testBit, List.replicate_succ]

theorem byteOf_eq_zero {bs : List Bool} (le : bs.length ≤ 8) (zero : byteOf bs = 0) :
    bs = List.replicate bs.length false := by
  have value : 0 = ofBits bs * 2 ^ (8 - bs.length) := by rw [← byteOf_toNat le, zero]; rfl
  have none : ofBits bs = 0 := by
    cases Nat.mul_eq_zero.mp value.symm with
    | inl none => exact none
    | inr power => exact absurd power (Nat.two_pow_pos _).ne'
  rw [← toBits_zero, ← none, toBits_ofBits]

def align (bs : List Bool) : List Bool := bs ++ List.replicate (8 * packedSize bs.length - bs.length) false

theorem align_length (bs : List Bool) : (align bs).length = 8 * packedSize bs.length := by
  rw [align, List.length_append, List.length_replicate, packedSize]
  omega

theorem unpack_pack_eq (bs : List Bool) : unpack (pack bs) = align bs := unpack_pack bs

theorem pack_align (bs : List Bool) : pack (align bs) = pack bs := by rw [← unpack_pack_eq, pack_unpack]

def Mem.begun (m : Mem Byte) (a bit : Nat) : Mem Byte := if bit = 0 then m.set a 0 else m

theorem Mem.or_write_pack (m : Mem Byte) (start : Nat) (bs : List Bool) {cs : List Bool} (nonempty : cs ≠ [])
    (le : bs.length % 8 + cs.length ≤ 8) {m' : Mem Byte}
    (begun : m' = (m.write start (pack bs)).begun (start + bs.length / 8) (bs.length % 8)) :
    m'.set (start + bs.length / 8) (m' (start + bs.length / 8) |||
        BitVec.ofNat 8 (ofBits cs * 2 ^ (8 - bs.length % 8 - cs.length))) =
      m.write start (pack (bs ++ cs)) := by
  obtain ⟨full, part, parts, _, aligned, short, size⟩ := whole_part bs
  rw [← short] at le begun ⊢
  have small : part.length < 8 := by omega
  generalize bs.length / 8 = q at *
  subst parts
  rw [Mem.begun, pack_append aligned] at begun
  rw [List.append_assoc, pack_append aligned, @pack_of_le (part ++ cs) (by simp [nonempty]) (by simp; omega),
    Mem.write_concat, size, byteOf_append (by omega)]
  by_cases empty : part = []
  · subst empty
    simp only [List.length_nil, if_true, pack_nil, List.append_nil] at begun
    rw [begun, Mem.set_set, Mem.set_self]
    rfl
  · have some : part.length ≠ 0 := by simpa using empty
    rw [if_neg some, pack_of_le empty (by omega), Mem.write_concat, size] at begun
    rw [begun, Mem.set_set, Mem.set_self]

end Zcm.Lib
