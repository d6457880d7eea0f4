import Zcm.Coretypes.DecodeExact

namespace Zcm.Coretypes
open Zcm.Lib

def Begun (buf : Mem Byte) (offsetBytes offsetBits : Nat) : Prop :=
  offsetBits ≠ 0 → ∀ i, offsetBits ≤ i → i < 8 → buf.bit (8 * offsetBytes + i) = false

def reduced (t : BitsType) (signExtend : Bool) (numbits : Nat) (v : BitVec t.width) : BitVec t.width :=
  if signExtend then (v.setWidth numbits).signExtend t.width else (v.setWidth numbits).setWidth t.width

section

variable (t : BitsType) (numbits : Nat) (buf : Mem Byte) (offsetBytes offsetBits maxbytes : Nat)
  (ps : List (BitVec t.width))

/-- What the encoder returned and left, and what a decoder then reads at the same position. -/
structure RoundTrips (r : Int × Mem Byte) : Prop where
  returns : r.1 = (ps.length * numbits : Nat)
  before : ∀ i < 8 * offsetBytes + offsetBits, r.2.bit i = buf.bit i
  written : r.2.bits (8 * offsetBytes + offsetBits) (ps.length * numbits) = ps.flatMap fun v => toBits numbits v.toNat
  unused : ∀ i, 8 * offsetBytes + offsetBits + ps.length * numbits ≤ i →
    i < 8 * (offsetBytes + packedSize (offsetBits + ps.length * numbits)) → r.2.bit i = false
  behind : ∀ i, 8 * (offsetBytes + packedSize (offsetBits + ps.length * numbits)) ≤ i → r.2.bit i = buf.bit i
  decoded : ∀ (signExtend : Bool), (signExtend = true → t ≠ .byte) → ∀ old : Mem (BitVec t.width),
    (decodeArrayBits t signExtend r.2 offsetBytes offsetBits maxbytes old ps.length numbits).1 =
        (ps.length * numbits : Nat) ∧
      (decodeArrayBits t signExtend r.2 offsetBytes offsetBits maxbytes old ps.length numbits).2.read 0 ps.length =
        ps.map (reduced t signExtend numbits)
  advanced : bitfieldAdvanceOffset ⟨offsetBytes, offsetBits⟩ (ps.length * numbits) =
    ⟨(8 * offsetBytes + offsetBits + ps.length * numbits) / 8,
      (8 * offsetBytes + offsetBits + ps.length * numbits) % 8⟩

variable {t numbits buf offsetBytes offsetBits maxbytes}

theorem fieldValue_toBits (signExtend : Bool) {n : Nat} (v : BitVec t.width) :
    BitVec.ofInt t.width (fieldValue signExtend (toBits n v.toNat)) = reduced t signExtend n v := by
  rw [fieldValue, reduced, toBits_length, ofBits_toBits]
  cases signExtend with
  | false =>
      rw [if_neg Bool.false_ne_true, if_neg Bool.false_ne_true, BitVec.ofInt_natCast]
      apply BitVec.eq_of_toNat_eq
      rw [BitVec.toNat_ofNat, BitVec.toNat_setWidth, BitVec.toNat_setWidth]
  | true =>
      rw [if_pos rfl, if_pos rfl, BitVec.signExtend, BitVec.toInt_setWidth]
      rw [Int.natCast_emod, Int.emod_bmod]

theorem write_begun (low : offsetBits < 8) (begun : Begun buf offsetBytes offsetBits) :
    buf.write offsetBytes (pack (buf.bits (8 * offsetBytes) offsetBits)) = buf := by
  by_cases aligned : offsetBits = 0
  · subst aligned
    rw [Mem.bits, Mem.read_zero, pack_nil, Mem.write_nil]
  · have zeros : buf.bits (8 * offsetBytes + offsetBits) (8 - offsetBits) = List.replicate (8 - offsetBits) false := by
      apply List.eq_replicate_iff.mpr
      refine ⟨buf.bits_length _ _, ?_⟩
      intro b member
      obtain ⟨i, inside, rfl⟩ := List.mem_map.mp member
      rw [Nat.add_assoc]
      exact begun aligned _ (Nat.le_add_right _ _) (by have := List.mem_range.mp inside; omega)
    have size : 8 * packedSize offsetBits - offsetBits = 8 - offsetBits := by rw [packedSize]; omega
    have whole : align (buf.bits (8 * offsetBytes) offsetBits) = unpack (buf.read offsetBytes 1) := by
      have split := buf.bits_add (8 * offsetBytes) offsetBits (8 - offsetBits)
      rw [Nat.add_sub_cancel' low.le, zeros] at split
      rw [buf.unpack_read, Nat.mul_one, split, align, buf.bits_length, size]
    rw [← pack_align, whole, pack_unpack, buf.write_read]

theorem encodeArrayBits_begun (low : offsetBits < 8) (small : ps.length * numbits < 2 ^ 31)
    (room : (offsetBits + ps.length * numbits + 7) / 8 ≤ maxbytes)
    (fits : offsetBytes + (offsetBits + ps.length * numbits) / 8 < 2 ^ 32) (begun : Begun buf offsetBytes offsetBits) :
    encodeArrayBits buf offsetBytes offsetBits maxbytes (ps.map (·.toNat)) ps.length numbits =
      (((ps.length * numbits : Nat) : Int), buf.write offsetBytes
        (pack (buf.bits (8 * offsetBytes) offsetBits ++ ps.flatMap fun v => toBits numbits v.toNat))) := by
  have row := @encodeArrayBits_eq buf offsetBytes maxbytes numbits (ps.map (·.toNat))
    (buf.bits (8 * offsetBytes) offsetBits)
  rw [buf.bits_length, List.length_map, Nat.div_eq_of_lt low, Nat.mod_eq_of_lt low, Nat.add_zero, write_begun low begun,
    List.flatMap_map] at row
  exact row small room fits

end

/-- An array of bitfields comes back as it went in, up to the width of the field. -/
theorem arrayBits_round_trip (t : BitsType) {numbits : Nat} (positive : 1 ≤ numbits) (_narrow : numbits ≤ t.width)
    (buf : Mem Byte) {offsetBytes offsetBits maxbytes : Nat} (ps : List (BitVec t.width)) (low : offsetBits < 8)
    (small : ps.length * numbits < 2 ^ 31) (room : (offsetBits + ps.length * numbits + 7) / 8 ≤ maxbytes)
    (fits : offsetBytes + (offsetBits + ps.length * numbits) / 8 < 2 ^ 32) (begun : Begun buf offsetBytes offsetBits) :
    RoundTrips t numbits buf offsetBytes offsetBits maxbytes ps
      (encodeArrayBits buf offsetBytes offsetBits maxbytes (ps.map (·.toNat)) ps.length numbits) := by
  rw [encodeArrayBits_begun ps low small room fits begun]
  generalize content : (ps.flatMap fun v => toBits numbits v.toNat) = bs
  have total : bs.length = ps.length * numbits := by
    rw [← content]
    simp
  have length : (buf.bits (8 * offsetBytes) offsetBits ++ bs).length = offsetBits + ps.length * numbits := by
    rw [List.length_append, total, buf.bits_length]
  have inside : offsetBits + ps.length * numbits ≤ 8 * packedSize (offsetBits + ps.length * numbits) := by
    rw [packedSize]
    omega
  have written (k n : Nat) (le : k + n ≤ ps.length * numbits) :
      (buf.write offsetBytes (pack (buf.bits (8 * offsetBytes) offsetBits ++ bs))).bits
        (8 * offsetBytes + offsetBits + k) n = (bs.drop k).take n := by
    rw [Nat.add_assoc, Mem.bits_write _ _ _ _ _ (by rw [length]; omega), ← List.drop_drop,
      List.drop_left' (buf.bits_length _ _)]
  constructor
  · rfl
  · intro i lt
    by_cases under : i < 8 * offsetBytes
    · exact buf.bit_write_outside _ _ (.inl under)
    · obtain ⟨j, rfl⟩ := Nat.exists_eq_add_of_le (Nat.not_lt.mp under)
      rw [buf.bit_write_pack _ _ (by rw [length]; omega), List.getD_eq_getElem?_getD,
        List.getElem?_append_left (by rw [buf.bits_length]; omega), buf.bits_getElem? (by omega), Option.getD_some]
  · have all := written 0 (ps.length * numbits) (by omega)
    rw [Nat.add_zero, List.drop_zero, ← total, List.take_length, total] at all
    rw [content]
    exact all
  · intro i le lt
    obtain ⟨j, rfl⟩ := Nat.exists_eq_add_of_le (show 8 * offsetBytes ≤ i by omega)
    rw [buf.bit_write_pack _ _ (by rw [length]; omega), List.getD_eq_getElem?_getD,
      List.getElem?_eq_none (by rw [length]; omega), Option.getD_none]
  · intro i le
    exact buf.bit_write_outside _ _ (.inr (by rwa [length]))
  · intro signExtend listed old
    obtain ⟨ps', run, cells⟩ := decodeArrayBits_eq t signExtend
      (buf.write offsetBytes (pack (buf.bits (8 * offsetBytes) offsetBits ++ bs))) positive low small room fits old
    rw [run]
    refine ⟨rfl, ?_⟩
    apply List.ext_getElem (by simp)
    intro i lt lt'
    rw [Mem.read_length] at lt
    have upto : i * numbits + numbits ≤ ps.length * numbits := by
      rw [← Nat.succ_mul]
      exact Nat.mul_le_mul_right numbits lt
    rw [Mem.read_getElem, Nat.zero_add]
    simp only
    rw [cells i lt, written _ _ upto, List.getElem_map, ← content, flatMap_block _ (by simp) lt, fieldValue_toBits]
  · have advanced := @bitfieldAdvanceOffset_eq offsetBytes offsetBits (ps.length * numbits) fits
    rw [Nat.div_eq_of_lt low, Nat.mod_eq_of_lt low, Nat.add_zero] at advanced
    rw [advanced]
    congr 1 <;> omega

theorem arrayBits_round_trip_unaligned : RoundTrips .int16_t 11 (fun _ => 0xe0) 3 3 4 [0x7ff, 0x0005]
    (encodeArrayBits (fun _ => 0xe0) 3 3 4 [0x7ff, 0x0005] 2 11) := by
  have zeros : ∀ i < 8, 3 ≤ i → Mem.bit (fun _ => 0xe0) (8 * 3 + i) = false := by decide
  exact arrayBits_round_trip .int16_t (by decide) (by decide) (fun _ => 0xe0) [0x7ff, 0x0005] (by decide) (by decide)
    (by decide) (by decide) fun _ i le lt => zeros i lt le

/-- Ones that are left in the byte under way are not taken away. -/
theorem arrayBits_left_over : ¬ RoundTrips .byte 4 (fun _ => 0xff) 0 4 1 [0]
    (encodeArrayBits (fun _ => 0xff) 0 4 1 [0] 1 4) := by
  intro trip
  exact absurd trip.written (by decide)

end Zcm.Coretypes
