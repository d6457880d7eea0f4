import Zcm.Julia.Bits

namespace Zcm.Julia
open Zcm.Lib Zcm.Coretypes

def Writer.place (w : Writer) : Nat := 8 * w.buf.ptr + w.offset_bit

structure Holds (w : Writer) (m : Mem Byte) : Prop where
  low : w.offset_bit < 8
  fresh : w.offset_bit = 0 → w.byte_in_progress = 0
  before : ∀ a < w.buf.ptr, m a = w.buf.data a
  under : w.offset_bit ≠ 0 → m w.buf.ptr = w.byte_in_progress

section Chunks

theorem toUInt8_eq {x : BitVec 64} {n : Nat} (value : x.toNat = n) (lt : n < 2 ^ 8) :
    toUInt8 x = some (BitVec.ofNat 8 n) := by
  have byte : x.setWidth 8 = BitVec.ofNat 8 n := by
    apply BitVec.eq_of_toNat_eq
    rw [BitVec.toNat_setWidth, value, BitVec.toNat_ofNat]
  rw [toUInt8, value, if_pos lt, byte]

theorem writeMask_eq {left : Nat} (le : left ≤ 63) : writeMask left = some (BitVec.ofNat 64 (2 ^ left - 1)) := by
  have masks : ∀ n ≤ 63, writeMask n = some (BitVec.ofNat 64 (2 ^ n - 1)) := by decide
  exact masks left le

theorem writeMask_whole : writeMask 64 = none := by decide

theorem masked_toNat (value : BitVec 64) {left : Nat} (le : left ≤ 63) :
    (value &&& BitVec.ofNat 64 (2 ^ left - 1)).toNat = value.toNat % 2 ^ left := by
  have power : 2 ^ left ≤ 2 ^ 63 := Nat.pow_le_pow_right (by decide) le
  rw [BitVec.toNat_and, BitVec.toNat_ofNat, Nat.mod_eq_of_lt (by omega), Nat.and_two_pow_sub_one_eq_mod]

theorem toUInt8_shl (value : BitVec 64) {left distance : Nat} (le : left + distance ≤ 8) :
    toUInt8 ((value &&& BitVec.ofNat 64 (2 ^ left - 1)) <<< distance) =
      some (BitVec.ofNat 8 (ofBits (toBits left value.toNat) * 2 ^ distance)) := by
  have lt : value.toNat % 2 ^ left * 2 ^ distance < 2 ^ 8 := by
    calc value.toNat % 2 ^ left * 2 ^ distance < 2 ^ left * 2 ^ distance :=
          Nat.mul_lt_mul_of_pos_right (Nat.mod_lt _ (Nat.two_pow_pos _)) (Nat.two_pow_pos _)
      _ = 2 ^ (left + distance) := (Nat.pow_add _ _ _).symm
      _ ≤ 2 ^ 8 := Nat.pow_le_pow_right (by decide) le
  rw [ofBits_toBits]
  apply toUInt8_eq _ lt
  rw [BitVec.toNat_shiftLeft, masked_toNat value (by omega), Nat.shiftLeft_eq, Nat.mod_eq_of_lt (by omega)]

theorem toUInt8_shr (value : BitVec 64) {rest covered : Nat} (le : covered + rest ≤ 63) (short : covered ≤ 8) :
    toUInt8 ((value &&& BitVec.ofNat 64 (2 ^ (covered + rest) - 1)) >>> rest) =
      some (BitVec.ofNat 8 (ofBits (toBits covered (value.toNat / 2 ^ rest)))) := by
  have quotient : value.toNat % 2 ^ (covered + rest) / 2 ^ rest = value.toNat / 2 ^ rest % 2 ^ covered := by
    rw [Nat.add_comm, Nat.pow_add, Nat.mod_mul_right_div_self]
  have lt : value.toNat / 2 ^ rest % 2 ^ covered < 2 ^ 8 :=
    (Nat.mod_lt _ (Nat.two_pow_pos _)).trans_le (Nat.pow_le_pow_right (by decide) short)
  rw [ofBits_toBits]
  apply toUInt8_eq _ lt
  rw [BitVec.toNat_ushiftRight, masked_toNat value le, Nat.shiftRight_eq_div_pow, quotient]

end Chunks

section Loop

theorem Holds.begun {w : Writer} {m : Mem Byte} (holds : Holds w m) :
    (m.begun w.buf.ptr w.offset_bit) w.buf.ptr = w.byte_in_progress := by
  rw [Mem.begun]
  split
  next aligned => rw [Mem.set_self, holds.fresh aligned]
  next unaligned => exact holds.under unaligned

theorem begun_before (m : Mem Byte) {a b : Nat} (lt : b < a) (bit : Nat) : (m.begun a bit) b = m b := by
  rw [Mem.begun]
  split
  · exact Mem.set_of_ne _ _ (by omega)
  · rfl

theorem writeBitsLoop_holds (value : BitVec 64) (rounds left : Nat) (enough : left ≤ rounds) (narrow : left ≤ 63)
    {w : Writer} {m : Mem Byte} (holds : Holds w m) :
    ∃ w', writeBitsLoop value rounds left w = some w' ∧
      Holds w' (m.putBits w.place (toBits left value.toNat)) ∧ w'.place = w.place + left := by
  induction rounds generalizing left w m with
  | zero =>
      obtain rfl := Nat.le_zero.mp enough
      exact ⟨w, rfl, holds, rfl⟩
  | succ rounds ih =>
      rw [writeBitsLoop]
      split
      next none =>
          subst none
          exact ⟨w, rfl, holds, rfl⟩
      next some =>
        have low := holds.low
        have size : 8 * w.buf.ptr + w.offset_bit = w.place := rfl
        rw [writeMask_eq narrow, Option.bind_eq_bind, Option.bind_some]
        simp only
        split
        next part =>
            have distance : (-((w.offset_bit : Int) + left - 8)).toNat = 8 - w.offset_bit - left := by omega
            have length : (toBits left value.toNat).length = left := toBits_length _ _
            have bits := @Mem.putBits_byte m w.buf.ptr w.offset_bit (toBits left value.toNat)
              (List.ne_nil_of_length_pos (by rw [length]; omega)) (by rw [length]; omega)
            rw [length, holds.begun, size] at bits
            rw [distance, toUInt8_shl value (by omega), Option.bind_eq_bind, Option.bind_some]
            refine ⟨_, rfl, ?_, by simp only [Writer.place]; omega⟩
            rw [bits]
            constructor
            · simp only
              omega
            · intro none
              simp only at none
              omega
            · intro a lt
              simp only at lt ⊢
              rw [Mem.set_of_ne _ _ (by omega), begun_before m lt, holds.before a lt]
            · intro _
              exact Mem.set_self _ _ _
        next whole =>
            obtain ⟨rest, rfl⟩ : ∃ rest, left = 8 - w.offset_bit + rest := ⟨w.offset_bit + left - 8, by omega⟩
            have shift : ((w.offset_bit : Int) + (8 - w.offset_bit + rest : Nat) - 8).toNat = rest := by omega
            have length : (toBits (8 - w.offset_bit) (value.toNat / 2 ^ rest)).length = 8 - w.offset_bit :=
              toBits_length _ _
            have bits := @Mem.putBits_byte m w.buf.ptr w.offset_bit (toBits (8 - w.offset_bit) (value.toNat / 2 ^ rest))
              (List.ne_nil_of_length_pos (by rw [length]; omega)) (by rw [length]; omega)
            rw [length, holds.begun, size, Nat.sub_self, Nat.pow_zero, Nat.mul_one] at bits
            rw [shift, toUInt8_shr value narrow (by omega), Option.bind_eq_bind, Option.bind_some]
            generalize written : w.byte_in_progress ||| BitVec.ofNat 8 (ofBits (toBits (8 - w.offset_bit)
              (value.toNat / 2 ^ rest))) = b at bits ⊢
            have holds' : Holds ⟨w.buf.write b, 0, 0⟩
                (m.putBits w.place (toBits (8 - w.offset_bit) (value.toNat / 2 ^ rest))) := by
              rw [bits]
              constructor
              · exact Nat.succ_pos 7
              · intro _
                rfl
              · intro a lt
                simp only [IOBuffer.write] at lt ⊢
                by_cases last : a = w.buf.ptr
                · rw [last, Mem.set_self, Mem.set_self]
                · rw [Mem.set_of_ne _ _ last, Mem.set_of_ne _ _ last, begun_before m (by omega),
                    holds.before a (by omega)]
              · intro unaligned
                exact absurd rfl unaligned
            obtain ⟨w', run, after, place⟩ := ih rest (by omega) (by omega) holds'
            have next : (Writer.mk (w.buf.write b) 0 0).place = w.place + (8 - w.offset_bit) := by
              simp only [Writer.place, IOBuffer.write]
              omega
            rw [next] at after place
            refine ⟨w', run, ?_, by omega⟩
            rw [toBits_add, Mem.putBits_append, length]
            exact after

theorem write_bits_holds {f : Bitfield} (v : BitVec f.t.width) {w : Writer} {m : Mem Byte} (holds : Holds w m)
    (narrow : f.numbits ≠ 64) : ∃ w', write_bits ⟨f.t, v⟩ f.numbits w = some w' ∧
      Holds w' (m.putBits w.place (toBits f.numbits v.toNat)) ∧ w'.place = w.place + f.numbits := by
  have upto : f.numbits ≤ 63 := by
    have width := f.narrow.trans (width_le f.t)
    omega
  have value : toBits f.numbits (f.t.promote v).toNat = toBits f.numbits v.toNat := by
    have same := congrArg BitVec.toNat (promote_setWidth f.t v)
    rw [BitVec.toNat_setWidth] at same
    rw [← toBits_mod f.narrow (f.t.promote v).toNat, same]
  have run := writeBitsLoop_holds (f.t.promote v) f.numbits f.numbits le_rfl upto holds
  rwa [value] at run

theorem write_bits_whole (v : Number) (w : Writer) : write_bits v 64 w = none := by
  rw [write_bits, writeBitsLoop, if_neg (by decide), writeMask_whole]
  rfl

end Loop

section Fields

theorem writeBitfields_raises {fields : List ((f : Bitfield) × BitVec f.t.width)}
    {field : (f : Bitfield) × BitVec f.t.width} (member : field ∈ fields) (whole : field.1.numbits = 64)
    (w : Writer) :
    writeBitfields fields w = none := by
  induction fields generalizing w with
  | nil => cases member
  | cons first fields ih =>
      rw [writeBitfields]
      cases member with
      | head => rw [whole, write_bits_whole]; rfl
      | tail _ later =>
          cases write_bits ⟨first.1.t, first.2⟩ first.1.numbits w with
          | none => rfl
          | some w => exact ih later w

theorem writeBitfields_holds (fields : List ((f : Bitfield) × BitVec f.t.width))
    (narrow : ∀ field ∈ fields, field.1.numbits ≠ 64) {w : Writer} {m : Mem Byte} (holds : Holds w m) :
    ∃ w', writeBitfields fields w = some w' ∧ Holds w' (m.putBits w.place (Bitfields.bits fields)) ∧
      w'.place = w.place + Bitfields.size (fields.map (·.1)) := by
  induction fields generalizing w m with
  | nil => exact ⟨w, rfl, holds, rfl⟩
  | cons field fields ih =>
      obtain ⟨f, v⟩ := field
      obtain ⟨w', run, after, place⟩ := write_bits_holds v holds (narrow ⟨f, v⟩ List.mem_cons_self)
      obtain ⟨w'', runs, after', place'⟩ :=
        ih (fun field member => narrow field (List.mem_cons_of_mem _ member)) after
      have total : Bitfields.size (List.map (·.1) (⟨f, v⟩ :: fields)) =
          f.numbits + Bitfields.size (fields.map (·.1)) :=
        List.sum_cons
      refine ⟨w'', ?_, ?_, by rw [total]; omega⟩
      · rw [writeBitfields, run]
        exact runs
      · rw [Bitfields.bits, List.flatMap_cons, Mem.putBits_append, toBits_length, ← place]
        exact after'

theorem Holds.flush {w : Writer} {m : Mem Byte} (holds : Holds w m) :
    w.flush.ptr = (w.place + 7) / 8 ∧ ∀ a < w.flush.ptr, w.flush.data a = m a := by
  have low := holds.low
  rw [Writer.flush, Writer.place]
  split
  next unaligned =>
      refine ⟨by simp only [IOBuffer.write]; omega, ?_⟩
      intro a lt
      simp only [IOBuffer.write] at lt ⊢
      by_cases last : a = w.buf.ptr
      · rw [last, Mem.set_self, holds.under unaligned]
      · rw [Mem.set_of_ne _ _ last, holds.before a (by omega)]
  next aligned =>
      refine ⟨by omega, ?_⟩
      intro a lt
      exact (holds.before a lt).symm

end Fields

end Zcm.Julia
