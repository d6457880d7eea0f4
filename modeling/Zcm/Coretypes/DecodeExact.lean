import Zcm.Coretypes.Decode
import Zcm.Coretypes.EncodeExact
import Zcm.Lib.BitReader

namespace Zcm.Coretypes
open Zcm.Lib

theorem width_le (t : BitsType) : t.width ≤ 64 := by
  cases t <;> decide

theorem signExtend_setWidth {u : Nat} (x : BitVec u) {w v : Nat} (le : w ≤ v) :
    (x.signExtend v).setWidth w = x.signExtend w := ofInt_setWidth _ le

theorem promote_setWidth (t : BitsType) (p : BitVec t.width) : (t.promote p).setWidth t.width = p := by
  cases t with
  | byte => exact BitVec.setWidth_setWidth_of_le p (by decide)
  | _ => rw [BitsType.promote, signExtend_setWidth p (by decide), BitVec.signExtend_eq]

section Round

variable (t : BitsType) (signExtend : Bool) {bs : List Bool} {bitsLeft : Nat}

theorem bitsPayload_eq (b : Byte) {posBit covered : Nat} (le : posBit + covered ≤ 8) :
    bitsPayload b posBit covered =
      BitVec.ofNat 8 (b.toNat / 2 ^ (8 - posBit - covered) % 2 ^ covered * 2 ^ (8 - covered)) := by
  have ones : ∀ n ≤ 8, (1#32 <<< n) - 1#32 = BitVec.ofNat 32 (2 ^ n - 1) := by decide
  apply BitVec.eq_of_getLsbD_eq
  intro i lt
  rw [bitsPayload, bitsMask, ones covered (by omega), BitVec.getLsbD_ofNat, Nat.mul_comm, Nat.testBit_two_pow_mul,
    Nat.testBit_mod_two_pow,
    Nat.testBit_div_two_pow, BitVec.testBit_toNat]
  simp only [BitVec.getLsbD_setWidth, BitVec.getLsbD_shiftLeft, BitVec.getLsbD_and, BitVec.getLsbD_ofNat,
    Nat.testBit_two_pow_sub_one]
  by_cases low : i < 8 - covered
  · grind
  · have index : i - (8 - covered) + (8 - posBit - covered) = i - posBit := by omega
    rw [index]
    grind

variable (short : bs.length ≤ 8) (le : bs.length ≤ bitsLeft)

include short in
theorem top_lt : ofBits bs * 2 ^ (8 - bs.length) < 2 ^ 8 := by
  have whole : 2 ^ 8 = 2 ^ bs.length * 2 ^ (8 - bs.length) := by rw [← Nat.pow_add, Nat.add_sub_cancel' short]
  rw [whole]
  exact Nat.mul_lt_mul_of_pos_right (ofBits_lt bs) (Nat.two_pow_pos _)

include short in
theorem widened_eq (nonempty : bs ≠ []) : widened signExtend (BitVec.ofNat 8 (ofBits bs * 2 ^ (8 - bs.length))) =
    BitVec.ofInt 64 (fieldValue signExtend bs * 2 ^ (8 - bs.length)) := by
  have small := top_lt short
  rw [widened]
  cases signExtend with
  | false =>
      rw [if_neg Bool.false_ne_true, BitVec.setWidth_ofNat_of_le_of_lt (by decide) small, fieldValue,
        if_neg Bool.false_ne_true, ← BitVec.ofInt_natCast]
      push_cast
      rfl
  | true =>
      have value := @bmod_append (ofBits bs) bs.length 0 (8 - bs.length) (List.length_pos_iff.mpr nonempty)
        (ofBits_lt bs)
        (Nat.two_pow_pos _)
      rw [if_pos rfl, BitVec.signExtend, BitVec.toInt_ofNat', fieldValue, if_pos rfl]
      rw [Nat.add_zero, Nat.add_sub_cancel' short, Int.natCast_zero, Int.add_zero] at value
      rw [value]

include short le in
theorem firstChunk_eq (nonempty : bs ≠ []) :
    firstChunk t signExtend (BitVec.ofNat 8 (ofBits bs * 2 ^ (8 - bs.length))) (8 - bitsLeft) =
      BitVec.ofInt t.width (fieldValue signExtend bs * 2 ^ (bitsLeft - bs.length)) := by
  rw [firstChunk, widened_eq signExtend short nonempty]
  split
  next left =>
      have distance : (-((8 : Int) - bitsLeft)).toNat = bitsLeft - 8 := by omega
      have power : 8 - bs.length + (bitsLeft - 8) = bitsLeft - bs.length := by omega
      rw [distance, ← ofInt_mul_two_pow, ofInt_setWidth _ (width_le t), Int.mul_assoc, ← pow_add, power]
  next right =>
      have distance : ((8 : Int) - bitsLeft).toNat = 8 - bitsLeft := by omega
      have power : 8 - bs.length = bitsLeft - bs.length + (8 - bitsLeft) := by omega
      obtain ⟨low, high⟩ := fieldValue_top signExtend bs (8 - bs.length)
      rw [Nat.add_sub_cancel' short] at low high
      rw [power, pow_add, ← Int.mul_assoc] at low high
      rw [distance, power, pow_add, ← Int.mul_assoc, ofInt_sshiftRight (by omega) (by omega),
        ofInt_setWidth _ (width_le t)]

include short le in
theorem laterChunk_eq (p : BitVec t.width) :
    laterChunk t p (BitVec.ofNat 8 (ofBits bs * 2 ^ (8 - bs.length))) (8 - bitsLeft) =
      p ||| BitVec.ofNat t.width (ofBits bs * 2 ^ (bitsLeft - bs.length)) := by
  have small := top_lt short
  have wide : (BitVec.ofNat 8 (ofBits bs * 2 ^ (8 - bs.length))).setWidth 64 =
      BitVec.ofNat 64 (ofBits bs * 2 ^ (8 - bs.length)) := BitVec.setWidth_ofNat_of_le_of_lt (by decide) small
  rw [laterChunk, wide]
  split
  next left =>
      have distance : (-((8 : Int) - bitsLeft)).toNat = bitsLeft - 8 := by omega
      have power : 8 - bs.length + (bitsLeft - 8) = bitsLeft - bs.length := by omega
      rw [distance, BitVec.setWidth_or, promote_setWidth, ← ofNat_mul_two_pow,
        BitVec.setWidth_ofNat_of_le (width_le t), Nat.mul_assoc, ← Nat.pow_add, power]
  next right =>
      have distance : ((8 : Int) - bitsLeft).toNat = 8 - bitsLeft := by omega
      have power : 8 - bs.length = bitsLeft - bs.length + (8 - bitsLeft) := by omega
      rw [power, Nat.pow_add, ← Nat.mul_assoc] at small
      rw [distance, BitVec.setWidth_or, promote_setWidth, power, Nat.pow_add, ← Nat.mul_assoc,
        ofNat_ushiftRight (by omega), BitVec.setWidth_ofNat_of_le (width_le t)]

end Round

section Loop

variable (t : BitsType) (signExtend : Bool) (buf : Mem Byte)

theorem payload_bits {pos : BitPos} {covered : Nat} (le : pos.bit + covered ≤ 8) :
    bitsPayload (buf pos.byte) pos.bit covered =
      BitVec.ofNat 8 (ofBits (buf.bits (8 * pos.byte + pos.bit) covered) * 2 ^ (8 - covered)) := by
  rw [bitsPayload_eq _ le, Mem.ofBits_bits_byte buf pos.byte le]

theorem bitPos_eq {a b : BitPos} (low : a.bit < 8) (low' : b.bit < 8)
    (value : 8 * a.byte + a.bit = 8 * b.byte + b.bit) : a = b := by
  cases a
  cases b
  simp only at low low' value
  congr 1 <;> omega

theorem bitPos_of_value {pos : BitPos} {n : Nat} (low : pos.bit < 8) (value : 8 * pos.byte + pos.bit = n) :
    pos = ⟨n / 8, n % 8⟩ := bitPos_eq low (Nat.mod_lt n (by decide)) (by simp only; omega)

theorem round_value (start : Nat) {done covered bitsLeft : Nat} (short : covered ≤ 8) (positive : 0 < covered)
    (le : covered ≤ bitsLeft) {p : BitVec t.width}
    (value : done ≠ 0 → p = BitVec.ofInt t.width (fieldValue signExtend (buf.bits start done) * 2 ^ bitsLeft)) :
    (if bitsLeft = done + bitsLeft then
        firstChunk t signExtend (BitVec.ofNat 8 (ofBits (buf.bits (start + done) covered) * 2 ^ (8 - covered)))
          (8 - bitsLeft)
      else laterChunk t p (BitVec.ofNat 8 (ofBits (buf.bits (start + done) covered) * 2 ^ (8 - covered)))
        (8 - bitsLeft)) =
      BitVec.ofInt t.width (fieldValue signExtend (buf.bits start (done + covered)) * 2 ^ (bitsLeft - covered)) := by
  have length : (buf.bits (start + done) covered).length = covered := buf.bits_length _ _
  by_cases first : done = 0
  · subst first
    have chunk := @firstChunk_eq t signExtend (buf.bits (start + 0) covered) bitsLeft
      (by rwa [length]) (by rwa [length]) (buf.bits_ne_nil _ positive)
    rw [length] at chunk
    rw [if_pos (Nat.zero_add _).symm, chunk, Nat.zero_add, Nat.add_zero]
  · have chunk := @laterChunk_eq t (buf.bits (start + done) covered) bitsLeft
      (by rwa [length]) (by rwa [length]) p
    rw [length] at chunk
    have split : bitsLeft = covered + (bitsLeft - covered) := by omega
    have below : ofBits (buf.bits (start + done) covered) * 2 ^ (bitsLeft - covered) < 2 ^ bitsLeft := by
      have lt := ofBits_lt (buf.bits (start + done) covered)
      rw [length] at lt
      calc ofBits (buf.bits (start + done) covered) * 2 ^ (bitsLeft - covered)
          < 2 ^ covered * 2 ^ (bitsLeft - covered) := Nat.mul_lt_mul_of_pos_right lt (Nat.two_pow_pos _)
        _ = 2 ^ bitsLeft := by rw [← Nat.pow_add, ← split]
    rw [if_neg (by omega), chunk, value first, ofInt_or_ofNat _ below, buf.bits_add,
      fieldValue_append _ (buf.bits_ne_nil _ (Nat.pos_of_ne_zero first)), length]
    congr 1
    have power : (2 : Int) ^ bitsLeft = 2 ^ covered * 2 ^ (bitsLeft - covered) := by rw [← pow_add, ← split]
    rw [power]
    push_cast
    ring

theorem decodeBits_loop (start rounds : Nat) : ∀ (bitsLeft done : Nat) (pos : BitPos) (p : BitVec t.width),
    bitsLeft ≤ rounds → pos.bit < 8 → 8 * pos.byte + pos.bit = start + done →
    (start + (done + bitsLeft)) / 8 < 2 ^ 32 →
    (done ≠ 0 → p = BitVec.ofInt t.width (fieldValue signExtend (buf.bits start done) * 2 ^ bitsLeft)) →
    0 < done + bitsLeft →
    decodeBits t signExtend buf (done + bitsLeft) rounds bitsLeft pos p =
      (⟨(start + (done + bitsLeft)) / 8, (start + (done + bitsLeft)) % 8⟩,
        BitVec.ofInt t.width (fieldValue signExtend (buf.bits start (done + bitsLeft)))) := by
  have finished (done : Nat) (pos : BitPos) (p : BitVec t.width) (low : pos.bit < 8)
      (here : 8 * pos.byte + pos.bit = start + done) (some : 0 < done)
      (value : done ≠ 0 → p = BitVec.ofInt t.width (fieldValue signExtend (buf.bits start done) * 2 ^ 0)) :
      (pos, p) = (⟨(start + done) / 8, (start + done) % 8⟩,
        BitVec.ofInt t.width (fieldValue signExtend (buf.bits start done))) := by
    rw [value (Nat.ne_of_gt some), bitPos_of_value low here, pow_zero, Int.mul_one]
  induction rounds with
  | zero =>
      intro bitsLeft done pos p enough low here fits value some
      obtain rfl := Nat.le_zero.mp enough
      rw [decodeBits]
      exact finished done pos p low here some value
  | succ rounds ih =>
      intro bitsLeft done pos p enough low here fits value some
      rw [decodeBits]
      by_cases none : bitsLeft = 0
      · subst none
        rw [if_pos rfl]
        exact finished done pos p low here some value
      · rw [if_neg none]
        simp only
        generalize coveredEq : (if 8 - pos.bit < bitsLeft then 8 - pos.bit else bitsLeft) = covered
        have atMost : covered ≤ 8 - pos.bit ∧ covered ≤ bitsLeft ∧ 0 < covered := by
          split at coveredEq <;> omega
        have total : done + bitsLeft = done + covered + (bitsLeft - covered) := by omega
        rw [payload_bits buf (by omega), here,
          round_value t signExtend buf start (by omega) atMost.2.2 atMost.2.1 value, total]
        apply ih
        · omega
        · split <;> simp only <;> omega
        · split
          next whole =>
              rw [u32_of_lt (by omega)]
              simp only
              omega
          next =>
              simp only
              omega
        · omega
        · intro _
          rfl
        · omega

theorem decodeBits_eq {numbits : Nat} (positive : 1 ≤ numbits) {pos : BitPos} (low : pos.bit < 8)
    (fits : pos.byte + (pos.bit + numbits) / 8 < 2 ^ 32) (old : BitVec t.width) :
    decodeBits t signExtend buf numbits numbits numbits pos old =
      (⟨pos.byte + (pos.bit + numbits) / 8, (pos.bit + numbits) % 8⟩,
        BitVec.ofInt t.width (fieldValue signExtend (buf.bits (8 * pos.byte + pos.bit) numbits))) := by
  have run := decodeBits_loop t signExtend buf (8 * pos.byte + pos.bit) numbits numbits 0 pos old le_rfl low rfl
    (by omega) (fun some => absurd rfl some) (by omega)
  rw [Nat.zero_add] at run
  rw [run]
  congr 2 <;> omega

end Loop

theorem bitfieldAdvanceOffset_value {byte bit numbits : Nat} (low : bit < 8)
    (fits : byte + numbits / 8 + 1 < 2 ^ 32) :
    (bitfieldAdvanceOffset ⟨byte, bit⟩ numbits).bit < 8 ∧
      8 * (bitfieldAdvanceOffset ⟨byte, bit⟩ numbits).byte +
      (bitfieldAdvanceOffset ⟨byte, bit⟩ numbits).bit = 8 * byte + bit + numbits := by
  have start : BitPos.mk (0 + (8 * byte + bit) / 8) ((8 * byte + bit) % 8) = ⟨byte, bit⟩ := by
    congr 1 <;> omega
  rw [← start, bitfieldAdvanceOffset_eq (by omega)]
  constructor <;> simp only <;> omega

section Rows

variable (t : BitsType) (signExtend : Bool) (buf : Mem Byte) {numbits : Nat} (positive : 1 ≤ numbits)

include positive

theorem decodeElements_eq {pos : BitPos} (low : pos.bit < 8) (ps : Mem (BitVec t.width)) (n : Nat)
    (fits : pos.byte + (pos.bit + n * numbits) / 8 < 2 ^ 32) :
    ∃ ps', (List.range n).foldl (decodeElement t signExtend buf numbits) (pos, ps) =
        (⟨pos.byte + (pos.bit + n * numbits) / 8, (pos.bit + n * numbits) % 8⟩, ps') ∧
      ∀ i < n, ps' i =
        BitVec.ofInt t.width (fieldValue signExtend (buf.bits (8 * pos.byte + pos.bit + i * numbits) numbits)) := by
  induction n with
  | zero =>
      refine ⟨ps, ?_, fun i lt => absurd lt (Nat.not_lt_zero i)⟩
      rw [List.range_zero, List.foldl_nil]
      congr 1
      exact bitPos_eq low (Nat.mod_lt _ (by decide)) (by simp only; omega)
  | succ n ih =>
      rw [Nat.succ_mul] at fits
      obtain ⟨ps', run, cells⟩ := ih (by omega)
      have round := @decodeBits_eq t signExtend buf _ positive
        ⟨pos.byte + (pos.bit + n * numbits) / 8, (pos.bit + n * numbits) % 8⟩ (Nat.mod_lt _ (by decide))
        (by simp only; omega) (ps' n)
      rw [List.range_succ, List.foldl_append, run, List.foldl_cons, List.foldl_nil, decodeElement]
      simp only at round ⊢
      rw [round]
      have place : 8 * (pos.byte + (pos.bit + n * numbits) / 8) + (pos.bit + n * numbits) % 8 =
          8 * pos.byte + pos.bit + n * numbits := by omega
      refine ⟨ps'.set n (BitVec.ofInt t.width
        (fieldValue signExtend (buf.bits (8 * pos.byte + pos.bit + n * numbits) numbits))), ?_, ?_⟩
      · rw [place, Nat.succ_mul n numbits]
        congr 1
        exact bitPos_eq (Nat.mod_lt _ (by decide)) (Nat.mod_lt _ (by decide)) (by simp only; omega)
      · intro i lt
        by_cases last : i = n
        · rw [last, Mem.set_self]
        · rw [Mem.set_of_ne _ _ last, cells i (by omega)]

theorem decodeArrayBits_eq {offsetBytes offsetBits maxbytes elements : Nat} (low : offsetBits < 8)
    (small : elements * numbits < 2 ^ 31) (room : (offsetBits + elements * numbits + 7) / 8 ≤ maxbytes)
    (fits : offsetBytes + (offsetBits + elements * numbits) / 8 < 2 ^ 32) (ps : Mem (BitVec t.width)) :
    ∃ ps', decodeArrayBits t signExtend buf offsetBytes offsetBits maxbytes ps elements numbits =
        (((elements * numbits : Nat) : Int), ps') ∧
      ∀ i < elements, ps' i =
        BitVec.ofInt t.width (fieldValue signExtend
          (buf.bits (8 * offsetBytes + offsetBits + i * numbits) numbits)) := by
  have total : u32 (elements * numbits) = elements * numbits := u32_of_lt (by omega)
  have bits : u32 (elements * numbits + offsetBits) = offsetBits + elements * numbits := by
    rw [u32_of_lt (by omega), Nat.add_comm]
  obtain ⟨ps', run, cells⟩ :=
    @decodeElements_eq t signExtend buf _ positive ⟨offsetBytes, offsetBits⟩ low ps elements fits
  refine ⟨ps', ?_, cells⟩
  rw [decodeArrayBits]
  simp only [total, bits, bitfieldEncodedSize_eq (show offsetBits + elements * numbits < 2 ^ 32 by omega)]
  rw [if_neg (by omega), run, asInt_of_lt small]

end Rows

theorem decodeArrayBits_one (t : BitsType) (signExtend : Bool) (buf : Mem Byte) {numbits byte bit maxbytes : Nat}
    (ps : Mem (BitVec t.width)) (small : numbits ≤ 64) (low : bit < 8)
    (room : bit + numbits ≤ 8 * maxbytes) :
    decodeArrayBits t signExtend buf byte bit maxbytes ps 1 numbits =
      ((numbits : Int), ps.set 0 (decodeBits t signExtend buf numbits numbits numbits ⟨byte, bit⟩ (ps 0)).2) := by
  have total : u32 numbits = numbits := u32_of_lt (by omega)
  have bits : u32 (numbits + bit) = bit + numbits := by rw [u32_of_lt (by omega), Nat.add_comm]
  have size : bitfieldEncodedSize (bit + numbits) = (bit + numbits + 7) / 8 := bitfieldEncodedSize_eq (by omega)
  simp only [decodeArrayBits, Nat.one_mul, total, bits, size]
  rw [if_neg (by omega), asInt_of_lt (by omega), List.range_one, List.foldl_cons, List.foldl_nil,
    decodeElement]

end Zcm.Coretypes
