import Zcm.Coretypes.Encode
import Zcm.Gen.RoundTrip
import Zcm.Lib.BitWriter
import Zcm.Lib.Except

namespace Zcm.Coretypes
open Zcm.Lib Zcm.Gen

theorem returns_ok (n : Nat) (buf : Mem Byte) : returns ((n : Int), buf) = .ok (n, buf) := by
  rw [returns, if_neg (by simp)]
  rfl

section Text

def textBytes (little : Bool) (block : List Byte) : List Byte := numBytes little .int32_t block.length ++ block

theorem strlen_terminated {chars rest : List Byte} (noNul : 0 ∉ chars) :
    strlen (chars ++ 0 :: rest) = chars.length := by
  have plain : ∀ b ∈ chars, decide (b ≠ 0) = true := by
    intro b member
    have : b ≠ 0 := fun zero => noNul (zero ▸ member)
    simpa using this
  rw [strlen, List.takeWhile_append_of_pos plain]
  simp

theorem stringEncodeElement_eq (little : Bool) {offset maxlen : Nat} (fits : offset + maxlen ≤ 2 ^ 32)
    {chars : List Byte} (noNul : 0 ∉ chars) (pos : Nat) (buf : Mem Byte)
    (room : pos + (textBytes little (chars ++ [0])).length ≤ maxlen) (lt : maxlen < 2 ^ 32)
    (small : (textBytes little (chars ++ [0])).length < 2 ^ 31) :
    stringEncodeElement little offset maxlen (pos, buf) (chars ++ [0]) =
      .ok (pos + (textBytes little (chars ++ [0])).length,
        buf.write (offset + pos) (textBytes little (chars ++ [0]))) := by
  have len : strlen (chars ++ [0]) + 1 = (chars ++ [0]).length := by
    rw [strlen_terminated noNul, List.length_append, List.length_singleton]
  generalize chars ++ [0] = block at *
  have size : (textBytes little block).length = 4 + block.length := by simp [textBytes, Prim.size]
  rw [size] at room small ⊢
  have length : u32 (strlen block + 1) = block.length := by rw [len, u32_of_lt (by omega)]
  have header := @encodeArray_eq little .int32_t buf (offset + pos) (maxlen - pos) [block.length]
    (by simp [Prim.size]) (by simp only [Prim.size, List.length_singleton]; omega) (by omega)
  have body := @encodeArray_eq little .int8_t
    (buf.write (offset + pos) (numBytes little .int32_t block.length)) (offset + (pos + 4)) (maxlen - (pos + 4))
    (block.map (·.toNat)) (by simp only [Prim.size, List.length_map]; omega)
    (by simp only [Prim.size, List.length_map]; omega) (by omega)
  have bytes : (block.map (·.toNat)).flatMap (numBytes little .int8_t) = block := by
    rw [flatMap_numBytes_byte little rfl]
    simp [Function.comp_def]
  simp only [List.length_singleton, List.length_map, Prim.size, Nat.mul_one, Nat.one_mul, List.flatMap_singleton,
    bytes] at header body
  have nonempty : 0 < block.length := by omega
  have start : u32 (offset + pos) = offset + pos := u32_of_lt (by omega)
  have left : u32Sub maxlen pos = maxlen - pos := u32Sub_of_le lt (by omega)
  have next : u32 (pos + 4) = pos + 4 := u32_of_lt (by omega)
  have start' : u32 (offset + (pos + 4)) = offset + (pos + 4) := u32_of_lt (by omega)
  have left' : u32Sub maxlen (pos + 4) = maxlen - (pos + 4) := u32Sub_of_le lt (by omega)
  have last : u32 (pos + 4 + block.length) = pos + 4 + block.length := u32_of_lt (by omega)
  have parts : textBytes little block = numBytes little .int32_t block.length ++ block := rfl
  rw [stringEncodeElement]
  simp only [length, start, left]
  rw [header, returns_ok, ok_bind]
  simp only [next, left', start']
  rw [body, returns_ok, ok_bind]
  simp only [last]
  rw [parts, Mem.write_append, numBytes_length, Nat.add_assoc, Nat.add_assoc]
  rfl

theorem stringEncodeArray_eq (little : Bool) {offset maxlen : Nat} (fits : offset + maxlen ≤ 2 ^ 32)
    (lt : maxlen < 2 ^ 32) {chars : List Byte} (noNul : 0 ∉ chars) (buf : Mem Byte)
    (room : (textBytes little (chars ++ [0])).length ≤ maxlen)
    (small : (textBytes little (chars ++ [0])).length < 2 ^ 31) :
    stringEncodeArray little buf offset maxlen [chars ++ [0]] 1 =
      (((textBytes little (chars ++ [0])).length : Int), buf.write offset (textBytes little (chars ++ [0]))) := by
  have element := stringEncodeElement_eq little fits noNul 0 buf (by omega) lt small
  rw [Nat.zero_add, Nat.add_zero] at element
  have run : ([chars ++ [0]].take 1).foldlM (stringEncodeElement little offset maxlen) (0, buf) =
      .ok ((textBytes little (chars ++ [0])).length, buf.write offset (textBytes little (chars ++ [0]))) := by
    rw [List.take_of_length_le (by simp), List.foldlM_cons, element, ok_bind]
    rfl
  rw [stringEncodeArray, run]
  simp only [asInt_of_lt small]

end Text

theorem encodeBits_eq (v : Nat) (m : Mem Byte) (start rounds bitsLeft : Nat) (enough : bitsLeft ≤ rounds)
    (bs : List Bool) (fits : start + (bs.length + bitsLeft) / 8 < 2 ^ 32) :
    encodeBits v rounds bitsLeft ⟨start + bs.length / 8, bs.length % 8⟩ (m.write start (pack bs)) =
      (⟨start + (bs.length + bitsLeft) / 8, (bs.length + bitsLeft) % 8⟩,
        m.write start (pack (bs ++ toBits bitsLeft v))) := by
  induction rounds generalizing bitsLeft bs with
  | zero =>
      obtain rfl := Nat.le_zero.mp enough
      rw [encodeBits, toBits, List.append_nil, Nat.add_zero]
  | succ rounds ih =>
      rw [encodeBits]
      split
      next none => rw [none, toBits, List.append_nil, Nat.add_zero]
      next some =>
        have begun : (if bs.length % 8 = 0 then (m.write start (pack bs)).set (start + bs.length / 8) 0
            else m.write start (pack bs)) =
            (m.write start (pack bs)).begun (start + bs.length / 8) (bs.length % 8) := rfl
        simp only [begun]
        split
        next inside =>
          have value : (v &&& 2 ^ bitsLeft - 1) <<< (8 - (bs.length % 8 + bitsLeft)) =
              ofBits (toBits bitsLeft v) * 2 ^ (8 - bs.length % 8 - (toBits bitsLeft v).length) := by
            rw [Nat.and_two_pow_sub_one_eq_mod, Nat.shiftLeft_eq, ofBits_toBits, toBits_length, Nat.sub_add_eq]
          have nonempty : toBits bitsLeft v ≠ [] := List.ne_nil_of_length_pos (by rw [toBits_length]; omega)
          rw [value, Mem.or_write_pack m start bs nonempty (by rw [toBits_length]; omega) rfl]
          congr 2 <;> omega
        next whole =>
          obtain ⟨shift, split⟩ : ∃ shift, bitsLeft = 8 - bs.length % 8 + shift :=
            ⟨bs.length % 8 + bitsLeft - 8, by omega⟩
          have shifted : bs.length % 8 + bitsLeft - 8 = shift := by omega
          have covered : bitsLeft - shift = 8 - bs.length % 8 := by omega
          have value : (v >>> shift) &&& 2 ^ (8 - bs.length % 8) - 1 =
              ofBits (toBits (8 - bs.length % 8) (v / 2 ^ shift)) *
                2 ^ (8 - bs.length % 8 - (toBits (8 - bs.length % 8) (v / 2 ^ shift)).length) := by
            rw [Nat.and_two_pow_sub_one_eq_mod, Nat.shiftRight_eq_div_pow, ofBits_toBits, toBits_length, Nat.sub_self,
              Nat.pow_zero, Nat.mul_one]
          have nonempty : toBits (8 - bs.length % 8) (v / 2 ^ shift) ≠ [] :=
            List.ne_nil_of_length_pos (by rw [toBits_length]; omega)
          have rest := ih shift (by omega) (bs ++ toBits (8 - bs.length % 8) (v / 2 ^ shift))
            (by rw [List.length_append, toBits_length]; omega)
          simp only [List.length_append, toBits_length] at rest
          have length : bs.length + (8 - bs.length % 8) = 8 * (bs.length / 8 + 1) := by omega
          have next : u32 (start + bs.length / 8 + 1) = start + (bs.length + (8 - bs.length % 8)) / 8 := by
            rw [u32_of_lt (by omega)]
            omega
          have aligned : 0 = (bs.length + (8 - bs.length % 8)) % 8 := by omega
          rw [shifted, covered, value, Mem.or_write_pack m start bs nonempty (by rw [toBits_length]; omega) rfl, next]
          conv => lhs; arg 4; arg 2; rw [aligned]
          rw [rest, split, toBits_add, List.append_assoc, Nat.add_assoc]

theorem encodeRow_eq (m : Mem Byte) (start numbits : Nat) (ps : List Nat) (bs : List Bool)
    (fits : start + (bs.length + ps.length * numbits) / 8 < 2 ^ 32) :
    ps.foldl (fun (pos, buf) v => encodeBits v numbits numbits pos buf)
        (⟨start + bs.length / 8, bs.length % 8⟩, m.write start (pack bs)) =
      (⟨start + (bs.length + ps.length * numbits) / 8, (bs.length + ps.length * numbits) % 8⟩,
        m.write start (pack (bs ++ ps.flatMap (toBits numbits)))) := by
  induction ps generalizing bs with
  | nil => simp
  | cons v ps ih =>
      rw [List.length_cons, Nat.succ_mul] at fits
      have first := encodeBits_eq v m start numbits numbits (Nat.le_refl _) bs (by omega)
      have rest := ih (bs ++ toBits numbits v) (by rw [List.length_append, toBits_length]; omega)
      rw [List.length_append, toBits_length] at rest
      rw [List.foldl_cons]
      simp only [first]
      have total : bs.length + numbits + ps.length * numbits = bs.length + (ps.length * numbits + numbits) := by omega
      rw [rest, List.flatMap_cons, List.append_assoc, List.length_cons, Nat.succ_mul, total]

theorem bitfieldEncodedSize_eq {numbits : Nat} (small : numbits < 2 ^ 32) :
    bitfieldEncodedSize numbits = (numbits + 7) / 8 := by
  simp only [bitfieldEncodedSize]
  split
  · rw [u32_of_lt (by omega)]
    omega
  · omega

theorem encodeArrayBits_eq (m : Mem Byte) {start maxbytes numbits : Nat} {ps : List Nat} (bs : List Bool)
    (small : ps.length * numbits < 2 ^ 31) (room : (bs.length % 8 + ps.length * numbits + 7) / 8 ≤ maxbytes)
    (fits : start + (bs.length + ps.length * numbits) / 8 < 2 ^ 32) :
    encodeArrayBits (m.write start (pack bs)) (start + bs.length / 8) (bs.length % 8) maxbytes ps ps.length numbits =
      (((ps.length * numbits : Nat) : Int), m.write start (pack (bs ++ ps.flatMap (toBits numbits)))) := by
  have total : u32 (ps.length * numbits) = ps.length * numbits := u32_of_lt (by omega)
  have bits : u32 (ps.length * numbits + bs.length % 8) = ps.length * numbits + bs.length % 8 := u32_of_lt (by omega)
  rw [encodeArrayBits]
  simp only [total, bits, bitfieldEncodedSize_eq (show ps.length * numbits + bs.length % 8 < 2 ^ 32 by omega)]
  rw [if_neg (by omega), List.take_length, encodeRow_eq m start numbits ps bs fits, asInt_of_lt small]

theorem encodeArrayBits_returns {buf : Mem Byte} {offset bit maxbytes elements numbits : Nat} {ps : List Nat}
    {r : Nat × Mem Byte}
    (returned : returns (encodeArrayBits buf offset bit maxbytes ps elements numbits) = .ok r) :
    r.1 = elements * numbits % 2 ^ 32 ∧ r.1 < 2 ^ 31 := by
  have bound : u32 (elements * numbits) < 2 ^ 32 := Nat.mod_lt _ (by decide)
  have again : u32 (u32 (elements * numbits)) = u32 (elements * numbits) := Nat.mod_mod _ _
  rw [encodeArrayBits] at returned
  simp only at returned
  split at returned
  next => cases returned
  next =>
      rw [returns] at returned
      split at returned
      next => cases returned
      next positive =>
          cases returned
          rw [asInt, again] at positive ⊢
          split at positive
          next half =>
              rw [if_pos half]
              exact ⟨rfl, half⟩
          next => omega

theorem bitfieldAdvanceOffset_eq {start bits numbits : Nat} (fits : start + (bits + numbits) / 8 < 2 ^ 32) :
    bitfieldAdvanceOffset ⟨start + bits / 8, bits % 8⟩ numbits =
      ⟨start + (bits + numbits) / 8, (bits + numbits) % 8⟩ := by
  have bytes : u32 (start + bits / 8 + numbits / 8) = start + bits / 8 + numbits / 8 := u32_of_lt (by omega)
  simp only [bitfieldAdvanceOffset, bytes]
  split
  · rw [u32_of_lt (by omega)]
    congr 1 <;> omega
  · congr 1 <;> omega

end Zcm.Coretypes
