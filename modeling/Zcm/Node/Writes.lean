import Zcm.Coretypes.Bitfields
import Zcm.Node.Bits

namespace Zcm.Node
open Zcm.Lib Zcm.Lib.Js Zcm.Coretypes Methods

/-- The bit of a number that lands in a byte that the writer comes to with `left` bits to go, `rest` of them for the
bytes behind. -/
def landedBit (value : Value) (left rest i : Nat) : Bool :=
  match value with
  | .bigint n => n.testBit i
  | .number n => if left < 32 then n.testBit i else decide (left < 64 ∧ 32 ≤ rest) && n.testBit (i - 32)

def landed (value : Value) (start last : Nat) : List Bool :=
  (List.range' start (last - start)).map fun place =>
    landedBit value (last - max start (8 * (place / 8))) (last - (8 * (place / 8) + 8)) (last - 1 - place)

section Round

theorem toBits_getElem {n v j : Nat} (lt : j < (toBits n v).length) : (toBits n v)[j] = v.testBit (n - 1 - j) := by
  induction n generalizing j with
  | zero => exact absurd lt (Nat.not_lt_zero j)
  | succ n ih =>
      simp only [toBits]
      cases j with
      | zero => rw [List.getElem_cons_zero, Nat.add_sub_cancel, Nat.sub_zero]
      | succ j =>
          rw [List.getElem_cons_succ, ih]
          congr 1
          omega

/-- What goes into a byte when `rest` bits are for the bytes behind it. -/
def taken (value : Value) (left rest : Nat) : Nat :=
  match value with
  | .bigint n => (n % 2 ^ left).toNat / 2 ^ rest
  | .number n => (n % 2 ^ (left % 32)).toNat / 2 ^ (rest % 32)

theorem taken_testBit (value : Value) {left rest i : Nat} (upto : left ≤ 64) (le : rest ≤ left)
    (byte : left ≤ rest + 8) (lt : i < left) (behind : rest ≤ i) :
    (taken value left rest).testBit (i - rest) = landedBit value left rest i := by
  cases value with
  | bigint n =>
      rw [taken, landedBit, Nat.testBit_div_two_pow, testBit_emod, Nat.sub_add_cancel behind, decide_eq_true lt,
        Bool.true_and]
  | number n =>
      rw [taken, landedBit, Nat.testBit_div_two_pow, testBit_emod]
      split
      next small =>
          rw [Nat.mod_eq_of_lt small, Nat.mod_eq_of_lt (show rest < 32 by omega), Nat.sub_add_cancel behind,
            decide_eq_true lt, Bool.true_and]
      next large =>
          by_cases shifted : left < 64 ∧ 32 ≤ rest
          · have index : i - rest + rest % 32 = i - 32 := by omega
            rw [index, decide_eq_true shifted, decide_eq_true (by omega)]
          · rw [decide_eq_false shifted, decide_eq_false (by omega), Bool.false_and, Bool.false_and]

theorem taken_lt (value : Value) {left rest : Nat} (le : rest ≤ left) (byte : left ≤ rest + 8) :
    taken value left rest < 2 ^ (left - rest) := by
  apply Nat.lt_pow_two_of_testBit
  intro i high
  cases value with
  | bigint n => rw [taken, Nat.testBit_div_two_pow, testBit_emod, decide_eq_false (by omega), Bool.false_and]
  | number n => rw [taken, Nat.testBit_div_two_pow, testBit_emod, decide_eq_false (by omega), Bool.false_and]

theorem rightOf_eq (value : Value) (left rest : Nat) :
    rightOf value (writeMask value left) rest = (taken value left rest : Nat) := by
  cases value with
  | bigint n =>
      obtain ⟨r, masked, _⟩ := emod_two_pow n left
      rw [rightOf, writeMask, taken]
      simp only [land_mask, masked, Int.toNat_natCast, Int.shiftRight_natCast, Nat.shiftRight_eq_div_pow]
  | number n =>
      obtain ⟨r, masked, lt⟩ := emod_two_pow n (left % 32)
      have power : 2 ^ (left % 32) ≤ 2 ^ 31 := Nat.pow_le_pow_right (by decide) (by omega)
      rw [rightOf, writeMask, taken]
      simp only [and_mask, masked, Int.toNat_natCast]
      exact shr_natCast (by omega) rest

theorem leftOf_eq (value : Value) {left distance : Nat} (short : left + distance ≤ 8) :
    leftOf value (writeMask value left) distance = (taken value left 0 * 2 ^ distance : Nat) := by
  cases value with
  | bigint n =>
      obtain ⟨r, masked, _⟩ := emod_two_pow n left
      rw [leftOf, writeMask, taken]
      simp only [land_mask, masked, Int.toNat_natCast, Int.shiftLeft_natCast, Nat.shiftLeft_eq, Nat.pow_zero,
        Nat.div_one]
  | number n =>
      have small : left % 32 = left := Nat.mod_eq_of_lt (by omega)
      obtain ⟨r, masked, lt⟩ := emod_two_pow n left
      have inside : r * 2 ^ distance < 2 ^ 31 := by
        calc r * 2 ^ distance < 2 ^ left * 2 ^ distance := Nat.mul_lt_mul_of_pos_right lt (Nat.two_pow_pos _)
          _ = 2 ^ (left + distance) := (Nat.pow_add _ _ _).symm
          _ ≤ 2 ^ 8 := Nat.pow_le_pow_right (by decide) short
          _ < 2 ^ 31 := by decide
      rw [leftOf, writeMask, taken]
      simp only [and_mask, small, masked, Int.toNat_natCast, Nat.zero_mod, Nat.pow_zero, Nat.div_one]
      exact shl_natCast (by omega) inside

theorem toBits_taken (value : Value) {start left rest : Nat} (upto : left ≤ 64) (le : rest ≤ left)
    (inside : start % 8 + (left - rest) ≤ 8)
    (whole : rest = start + left - (8 * (start / 8) + 8)) :
    toBits (left - rest) (taken value left rest) =
      (List.range' start (left - rest)).map fun place =>
        landedBit value (start + left - max start (8 * (place / 8))) (start + left - (8 * (place / 8) + 8))
          (start + left - 1 - place) := by
  apply List.ext_getElem (by simp)
  intro j lt lt'
  rw [toBits_length] at lt
  have byte : (start + j) / 8 = start / 8 := by omega
  have under : max start (8 * (start / 8)) = start := by omega
  have index : left - rest - 1 - j = left - 1 - j - rest := by omega
  rw [toBits_getElem, List.getElem_map, List.getElem_range', Nat.one_mul, byte, under, ← whole, index,
    taken_testBit value upto le (by omega) (by omega) (by omega), Nat.add_sub_cancel_left]
  congr 1
  omega

end Round

section Loop

theorem landed_split (value : Value) {start next last : Nat} (le : start ≤ next) (le' : next ≤ last)
    (aligned : next % 8 = 0) :
    landed value start last = ((List.range' start (next - start)).map fun place =>
        landedBit value (last - max start (8 * (place / 8))) (last - (8 * (place / 8) + 8)) (last - 1 - place)) ++
      landed value next last := by
  have parts : last - start = (next - start) + (last - next) := by omega
  have here : start + (next - start) = next := by omega
  rw [landed, parts, ← List.range'_append_1, List.map_append, here, landed]
  congr 1
  apply List.map_congr_left
  intro place member
  have bounds := List.mem_range'_1.mp member
  have later : max start (8 * (place / 8)) = max next (8 * (place / 8)) := by omega
  rw [later]

/-- The methods with other bytes in the buffer, and another position. -/
def Methods.moved (s : Methods) (bytes : Mem Byte) (place : Nat) : Methods :=
  ⟨{ s.buf with bytes := bytes }, place / 8, place % 8⟩

def Methods.place (s : Methods) : Nat := 8 * s.offset_byte + s.offset_bit

theorem start_eq (buf : Buffer) {a : Nat} (inside : a < buf.length) (bit : Nat) :
    buf.start a bit = some { buf with bytes := buf.bytes.begun a bit } := by
  rw [Buffer.start, Mem.begun]
  split
  · exact if_pos ⟨le_rfl, by decide, inside⟩
  · rfl

theorem readUInt8_eq (m : Mem Byte) {a n : Nat} (inside : a < n) :
    (Buffer.mk m n).readUInt8 a = some ((m a).toNat : Int) := if_pos inside

theorem writeUInt8_or (m : Mem Byte) {a n : Nat} (inside : a < n) (b : Byte) {x : Nat} (lt : x < 2 ^ 8) :
    (Buffer.mk m n).writeUInt8 (or b.toNat x) a = some ⟨m.set a (b ||| BitVec.ofNat 8 x), n⟩ := by
  have both : b.toNat ||| x < 2 ^ 8 := Nat.or_lt_two_pow b.isLt lt
  have byte : BitVec.ofInt 8 ((b.toNat ||| x : Nat) : Int) = b ||| BitVec.ofNat 8 x := by
    apply BitVec.eq_of_toNat_eq
    rw [BitVec.ofInt_natCast, BitVec.toNat_or, BitVec.toNat_ofNat, BitVec.toNat_ofNat, Nat.mod_eq_of_lt lt,
      Nat.mod_eq_of_lt both]
  have low := b.isLt
  rw [or_natCast (by omega) (by omega), Buffer.writeUInt8, if_pos ⟨by omega, by omega, inside⟩, byte]

theorem putChunk (value : Value) (m : Mem Byte) {a k n left rest : Nat} (inside : a < n) (some' : rest < left)
    (fits : k + (left - rest) ≤ 8) {x : Int}
    (chunk : x = (taken value left rest * 2 ^ (8 - k - (left - rest)) : Nat)) :
    (Buffer.mk (m.begun a k) n).writeUInt8 (or ((m.begun a k) a).toNat x) a =
      some ⟨m.putBits (8 * a + k) (toBits (left - rest) (taken value left rest)), n⟩ := by
  have lt := @taken_lt value left rest (by omega) (by omega)
  have length : (toBits (left - rest) (taken value left rest)).length = left - rest := toBits_length _ _
  have small : taken value left rest * 2 ^ (8 - k - (left - rest)) < 2 ^ 8 := by
    calc taken value left rest * 2 ^ (8 - k - (left - rest)) < 2 ^ (left - rest) * 2 ^ (8 - k - (left - rest)) :=
          Nat.mul_lt_mul_of_pos_right lt (Nat.two_pow_pos _)
      _ = 2 ^ (left - rest + (8 - k - (left - rest))) := (Nat.pow_add _ _ _).symm
      _ ≤ 2 ^ 8 := Nat.pow_le_pow_right (by decide) (by omega)
  have bits := @Mem.putBits_byte m a k (toBits (left - rest) (taken value left rest))
    (List.ne_nil_of_length_pos (by rw [length]; omega)) (by rw [length]; omega)
  rw [length, ofBits_toBits, Nat.mod_eq_of_lt lt] at bits
  rw [chunk, writeUInt8_or _ inside _ small, bits]

theorem writeBitsLoop_eq (value : Value) (rounds left : Nat) (enough : left ≤ rounds) (upto : left ≤ 64)
    (s : Methods) (low : s.offset_bit < 8) (inside : s.place + left ≤ 8 * s.buf.length) :
    writeBitsLoop value rounds left s =
      some (s.moved (s.buf.bytes.putBits s.place (landed value s.place (s.place + left))) (s.place + left)) := by
  have done (s : Methods) (low : s.offset_bit < 8) :
      some s = some (s.moved (s.buf.bytes.putBits s.place (landed value s.place (s.place + 0))) (s.place + 0)) := by
    rw [landed, Nat.add_zero, Nat.sub_self, List.range'_zero, List.map_nil, Mem.putBits, Methods.moved]
    have byte : s.place / 8 = s.offset_byte := by rw [Methods.place]; omega
    have bit : s.place % 8 = s.offset_bit := by rw [Methods.place]; omega
    rw [byte, bit]
  induction rounds generalizing left s with
  | zero =>
      obtain rfl := Nat.le_zero.mp enough
      exact done s low
  | succ rounds ih =>
      rw [writeBitsLoop]
      split
      next none =>
          subst none
          exact done s low
      next some =>
        have within : s.offset_byte < s.buf.length := by rw [Methods.place] at inside; omega
        have size : 8 * s.offset_byte + s.offset_bit = s.place := rfl
        rw [start_eq s.buf within, Option.bind_eq_bind, Option.bind_some, readUInt8_eq _ within, Option.bind_eq_bind,
          Option.bind_some]
        simp only
        split
        next part =>
            have distance : -((s.offset_bit : Int) + left - 8) = ((8 - s.offset_bit - left : Nat) : Int) := by omega
            have chunk := @toBits_taken value s.place _ 0 upto (by omega) (by omega) (by omega)
            have row : landed value s.place (s.place + left) = toBits (left - 0) (taken value left 0) := by
              rw [chunk, landed, Nat.add_sub_cancel_left, Nat.sub_zero]
            rw [distance, putChunk value s.buf.bytes within (by omega) (by omega)
              (@leftOf_eq value left (8 - s.offset_bit - left) (by omega)), Option.bind_some,
              row, size, Methods.moved]
            congr 2 <;> omega
        next whole =>
            obtain ⟨rest, split⟩ : ∃ rest, left = 8 - s.offset_bit + rest :=
              ⟨s.offset_bit + left - 8, by omega⟩
            have shift : (s.offset_bit : Int) + left - 8 = (rest : Nat) := by omega
            have covered : left - rest = 8 - s.offset_bit := by omega
            have chunk := @toBits_taken value s.place _ rest upto (by omega) (by omega) (by omega)
            have aligned := @landed_split value s.place (8 * (s.offset_byte + 1)) (s.place + left) (by omega) (by omega)
              (by omega)
            have next : 8 * (s.offset_byte + 1) - s.place = left - rest := by omega
            have value' : rightOf value (writeMask value left) rest =
                (taken value left rest * 2 ^ (8 - s.offset_bit - (left - rest)) : Nat) := by
              rw [rightOf_eq, covered, Nat.sub_self, Nat.pow_zero, Nat.mul_one]
            rw [next, ← chunk] at aligned
            rw [shift, putChunk value s.buf.bytes within (by omega) (by omega) value', Option.bind_some,
              Int.toNat_natCast, ih rest (by omega) (by omega) _ (by simp) (by simp only [Methods.place]; omega),
                aligned,
              Mem.putBits_append, toBits_length, size]
            simp only [Methods.moved, Methods.place, Nat.add_zero]
            have here : 8 * s.offset_byte + s.offset_bit + (left - rest) = 8 * (s.offset_byte + 1) := by omega
            have last : 8 * (s.offset_byte + 1) + rest = 8 * s.offset_byte + s.offset_bit + left := by omega
            rw [here, last]

theorem writeBits_eq (value : Value) {numbits : Nat} (upto : numbits ≤ 64) (s : Methods) (low : s.offset_bit < 8)
    (inside : s.place + numbits ≤ 8 * s.buf.length) :
    writeBits value numbits s =
      some (s.moved (s.buf.bytes.putBits s.place (landed value s.place (s.place + numbits))) (s.place + numbits)) :=
  writeBitsLoop_eq value numbits numbits le_rfl upto s low inside

end Loop

end Zcm.Node
