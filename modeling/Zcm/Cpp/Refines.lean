import Zcm.Coretypes.DecodeExact
import Zcm.Coretypes.StringArrays
import Zcm.Cpp.EncodeExact
import Zcm.Cpp.Forgets

namespace Zcm.Cpp
open Zcm.Lib Zcm.Gen Zcm.Coretypes

def rules : Rules where
  extent e :=
    if e.count < 0 then
      if e.isVar then
        match e.innermost, e.type with
        | true, .prim _ => .ok 0
        | true, .bits .. => .ok 0
        | _, _ => .error .negative
      else .error .oversize
    else if e.type.unit e.innermost * e.count < 2 ^ 31 then .ok e.count.toNat
    else .error .oversize
  text length left :=
    if length < 0 ∨ left < length then .error .short
    else if length = 0 then .error .negative
    else .ok length.toNat

inductive Refines {α β : Type} (related : α → β → Prop) : Except Failure α → Except Abort β → Prop
  | ok {a b} : related a b → Refines related (.ok a) (.ok b)
  | short {r} : r < 0 → Refines related (.error .short) (.error (.returned r))
  | rejected {r} : r < 0 → Refines related (.error .rejected) (.error (.returned r))
  | negative : Refines related (.error .negative) (.error .thrown)
  | depth : Refines related (.error .depth) (.error .depth)
  | oversize (y) : Refines related (.error .oversize) y

namespace Refines

variable {α β γ δ : Type} {related : α → β → Prop} {next : γ → δ → Prop} {x : Except Failure α}
  {y : Except Abort β}

theorem bind {f : α → Except Failure γ} {g : β → Except Abort δ} (first : Refines related x y)
    (rest : ∀ a b, related a b → Refines next (f a) (g b)) : Refines next (x >>= f) (y >>= g) := by
  cases first with
  | ok here => exact rest _ _ here
  | short negative => exact .short negative
  | rejected negative => exact .rejected negative
  | negative => exact .negative
  | depth => exact .depth
  | oversize => exact .oversize _

theorem after {next : α → δ → Prop} {g : β → Except Abort δ} (first : Refines related x y)
    (rest : ∀ a b, related a b → Refines next (.ok a) (g b)) : Refines next x (y >>= g) := by
  cases first with
  | ok here => exact rest _ _ here
  | short negative => exact .short negative
  | rejected negative => exact .rejected negative
  | negative => exact .negative
  | depth => exact .depth
  | oversize => exact .oversize _

theorem mono {related' : α → β → Prop} (refines : Refines related x y)
    (weaker : ∀ a b, related a b → related' a b) :
    Refines related' x y := by
  cases refines with
  | ok here => exact .ok (weaker _ _ here)
  | short negative => exact .short negative
  | rejected negative => exact .rejected negative
  | negative => exact .negative
  | depth => exact .depth
  | oversize => exact .oversize _

end Refines

section Numbers

variable (little : Bool) (p : Prim) (buf : Mem Byte)

def numbersAt : Nat → Nat → List Nat
  | 0, _ => []
  | n + 1, a => ofNumBytes little (buf.read a p.size) :: numbersAt n (a + p.size)

theorem numbersAt_length (n a : Nat) : (numbersAt little p buf n a).length = n := by
  induction n generalizing a with
  | zero => rfl
  | succ n ih => rw [numbersAt, List.length_cons, ih]

theorem getWords_eq (n a : Nat) (fits : a + p.size * n < 2 ^ 32) :
    getWords little p buf n a = numbersAt little p buf n a := by
  induction n generalizing a with
  | zero => rfl
  | succ n ih =>
      rw [Nat.mul_succ] at fits
      have cells : ((List.range p.size).map fun i => buf (u32 (a + i))) = buf.read a p.size := by
        refine List.map_congr_left fun i member => ?_
        rw [u32_of_lt (by have := List.mem_range.mp member; omega)]
      rw [getWords, numbersAt, cells, u32_of_lt (by omega), ih _ (by omega)]

theorem numbersAt_bytes (one : p.size = 1) (n a : Nat) :
    (buf.read a n).map (·.toNat) = numbersAt little p buf n a := by
  induction n generalizing a with
  | zero => rfl
  | succ n ih =>
      have single : ofNumBytes little (buf.read a 1) = (buf a).toNat := by
        cases little <;> simp [ofNumBytes, Mem.read, ofBe]
      rw [Mem.read_succ, List.map_cons, numbersAt, one, single, ih]

variable {offset maxlen n : Nat} (small : p.size * n < 2 ^ 31)

include small in
theorem decodeArray_eq (room : p.size * n ≤ maxlen) (fits : offset + p.size * n < 2 ^ 32) :
    decodeArray little p buf offset maxlen n = (((p.size * n : Nat) : Int), numbersAt little p buf n offset) := by
  have total : encodedArraySize p n = p.size * n := u32_of_lt (by omega)
  have words : decodeWords little p buf offset maxlen n =
      (((p.size * n : Nat) : Int), numbersAt little p buf n offset) := by
    simp only [decodeWords, total]
    rw [if_neg (by omega), asInt_of_lt small, getWords_eq little p buf n offset fits]
  have bytes : p.size = 1 → decodeBytes p buf offset maxlen n =
      (((p.size * n : Nat) : Int), numbersAt little p buf n offset) := by
    intro one
    have count : asInt n = (p.size * n : Nat) := by
      rw [one, Nat.one_mul, asInt_of_lt (by rw [one] at small; omega)]
    simp only [decodeBytes, total]
    rw [if_neg (by omega), count, numbersAt_bytes little p buf one]
  cases p with
  | byte => exact bytes rfl
  | boolean => exact bytes rfl
  | int8_t => exact bytes rfl
  | _ => exact words

include small in
theorem decodeArray_short (short : maxlen < p.size * n) :
    decodeArray little p buf offset maxlen n = (-1, []) := by
  have total : encodedArraySize p n = p.size * n := u32_of_lt (by omega)
  have words : decodeWords little p buf offset maxlen n = (-1, []) := by
    simp only [decodeWords, total]
    rw [if_pos short]
  have bytes : decodeBytes p buf offset maxlen n = (-1, []) := by
    simp only [decodeBytes, total]
    rw [if_pos short]
  cases p with
  | byte => exact bytes
  | boolean => exact bytes
  | int8_t => exact bytes
  | _ => exact words

end Numbers

section Reads

variable {α : Type} (m : Mem α)

theorem read_drop (a n k : Nat) : (m.read a n).drop k = m.read (a + k) (n - k) := by
  by_cases le : k ≤ n
  · obtain ⟨rest, rfl⟩ := Nat.exists_eq_add_of_le le
    rw [Mem.read_add, List.drop_left' (m.read_length a k), Nat.add_sub_cancel_left]
  · rw [List.drop_of_length_le (by rw [Mem.read_length]; omega), Nat.sub_eq_zero_of_le (by omega), Mem.read_zero]

theorem read_take {a n k : Nat} (le : k ≤ n) : (m.read a n).take k = m.read a k := by
  obtain ⟨rest, rfl⟩ := Nat.exists_eq_add_of_le le
  rw [Mem.read_add, List.take_left' (m.read_length a k)]

end Reads

section Rows

variable (rules : Rules) (little : Bool) (callee : String → List Byte → Except Failure (List Value × List Byte))
  (buf : Mem Byte)

theorem repeatRead_prims (p : Prim) (n a len : Nat) :
    repeatRead (parseLeaf rules little callee (.prim p)) n ⟨buf.read a len, 0⟩ =
      if p.size * n ≤ len then
        .ok ((numbersAt little p buf n a).map .num, ⟨buf.read (a + p.size * n) (len - p.size * n), 0⟩)
      else .error .short := by
  induction n generalizing a len with
  | zero => simp [repeatRead, numbersAt]
  | succ n ih =>
      rw [repeatRead, parseLeaf, takeBytes, Mem.read_length]
      by_cases first : p.size ≤ len
      · simp only [if_pos first, ok_bind, read_take buf first, read_drop, ih]
        have split : p.size * n ≤ len - p.size ↔ p.size * (n + 1) ≤ len := by
          rw [Nat.mul_succ]
          omega
        by_cases rest : p.size * (n + 1) ≤ len
        · rw [if_pos (split.mpr rest), if_pos rest, ok_bind, numbersAt, List.map_cons, Nat.mul_succ]
          have place : a + p.size + p.size * n = a + (p.size * n + p.size) := by omega
          have left : len - p.size - p.size * n = len - (p.size * n + p.size) := by omega
          rw [place, left]
        · rw [if_neg (fun le => rest (split.mp le)), if_neg rest]
          rfl
      · rw [if_neg first, if_neg (by rw [Nat.mul_succ]; omega)]
        rfl

variable (W : List Byte)

def fieldsAt (p : Prim) (numbits : Nat) (signExtend : Bool) : Nat → Nat → List Nat
  | 0, _ => []
  | n + 1, i => extendBits p numbits signExtend (ofBits (((unpack W).drop i).take numbits)) ::
      fieldsAt p numbits signExtend n (i + numbits)

theorem repeatRead_bits (p : Prim) (numbits : Nat) (signExtend : Bool) (n i : Nat) (inside : i ≤ 8 * W.length) :
    repeatRead (parseLeaf rules little callee (.bits p numbits signExtend)) n (Cursor.ofBit W i) =
      if i + n * numbits ≤ 8 * W.length then
        .ok ((fieldsAt W p numbits signExtend n i).map .num, Cursor.ofBit W (i + n * numbits))
      else .error .short := by
  induction n generalizing i with
  | zero => simp [repeatRead, fieldsAt, inside]
  | succ n ih =>
      rw [repeatRead, parseLeaf, Cursor.bits_ofBit, List.length_drop, unpack_length]
      by_cases first : numbits ≤ 8 * W.length - i
      · simp only [if_pos first, ok_bind, Cursor.advance_ofBit, ih (i + numbits) (by omega)]
        have split : i + numbits + n * numbits = i + (n + 1) * numbits := by
          rw [Nat.succ_mul]
          omega
        rw [split]
        by_cases rest : i + (n + 1) * numbits ≤ 8 * W.length
        · rw [if_pos rest, if_pos rest, ok_bind, fieldsAt, List.map_cons]
        · rw [if_neg rest, if_neg rest]
          rfl
      · rw [if_neg first, if_neg (by rw [Nat.succ_mul]; omega)]
        rfl

end Rows

/-- The reader and the decoder are at the same place, which is a whole byte where the type wants that. -/
def At (W : List Byte) (t : Typename) (c : Cursor) (pos : BitPos) : Prop :=
  ∃ i ≤ 8 * W.length, (t.isBits = false → i % 8 = 0) ∧ c = Cursor.ofBit W i ∧ pos = ⟨i / 8, i % 8⟩

section Fields

theorem bitsType_width {p : Prim} {numbits : Nat} {signExtend : Bool}
    (accepted : (Typename.bits p numbits signExtend).accepted = true) :
    ∃ b, bitsType p = some b ∧ b.width = 8 * p.size := by
  simp only [Typename.accepted, Bool.and_eq_true] at accepted
  have fixed := accepted.1.1.1.1
  cases p with
  | byte => exact ⟨.byte, rfl, rfl⟩
  | int8_t => exact ⟨.int8_t, rfl, rfl⟩
  | int16_t => exact ⟨.int16_t, rfl, rfl⟩
  | int32_t => exact ⟨.int32_t, rfl, rfl⟩
  | int64_t => exact ⟨.int64_t, rfl, rfl⟩
  | _ => cases fixed

theorem fieldValue_extendBits {b : BitsType} {p : Prim} (width : b.width = 8 * p.size) (signExtend : Bool)
    {bs : List Bool} (narrow : bs.length ≤ 8 * p.size) :
    (BitVec.ofInt b.width (fieldValue signExtend bs)).toNat = extendBits p bs.length signExtend (ofBits bs) := by
  rw [BitVec.toNat_ofInt, fieldValue, extendBits, width]
  cases signExtend with
  | true =>
      rw [if_pos rfl, if_pos rfl]
      push_cast
      rfl
  | false =>
      have small : ofBits bs < 2 ^ (8 * p.size) := (ofBits_lt bs).trans_le (Nat.pow_le_pow_right (by decide) narrow)
      rw [if_neg Bool.false_ne_true, if_neg Bool.false_ne_true, ← Int.natCast_emod, Int.toNat_natCast,
        Nat.mod_eq_of_lt small]

theorem fieldsAt_eq (W : List Byte) (p : Prim) (numbits : Nat) (signExtend : Bool) (n i : Nat) :
    fieldsAt W p numbits signExtend n i = (List.range n).map fun j =>
      extendBits p numbits signExtend (ofBits (((unpack W).drop (i + j * numbits)).take numbits)) := by
  induction n generalizing i with
  | zero => rfl
  | succ n ih =>
      rw [fieldsAt, ih, List.range_succ_eq_map, List.map_cons, List.map_map, Nat.zero_mul, Nat.add_zero]
      congr 1
      refine List.map_congr_left fun j _ => ?_
      simp only [Function.comp_apply, Nat.succ_mul]
      congr 4
      omega

theorem unpack_bits (buf : Mem Byte) {offset maxlen i numbits : Nat} (inside : i + numbits ≤ 8 * maxlen) :
    ((unpack (buf.read offset maxlen)).drop i).take numbits = buf.bits (8 * offset + i) numbits := by
  rw [Mem.unpack_read, Mem.bits, read_drop, read_take _ (by omega), Mem.bits]

end Fields

section Elements

variable (options : Options) (callee : String → List Byte → Except Failure (List Value × List Byte))
  (buf : Mem Byte) {offset maxlen : Nat} (fits : offset + maxlen < 2 ^ 32) (half : maxlen < 2 ^ 31) {t : Typename}

include fits half

theorem readElements_refines (accepted : t.accepted = true) (number : t.isNumber = true) {n i : Nat}
    (span : t.unit true * n < 2 ^ 31) (inside : i ≤ 8 * maxlen) (aligned : t.isBits = false → i % 8 = 0) :
    Refines (fun r s => r.1 = s.2.map .num ∧ s.2.length = n ∧ At (buf.read offset maxlen) t r.2 s.1)
      (repeatRead (parseLeaf rules options.littleEndianEncoding callee t) n
        (Cursor.ofBit (buf.read offset maxlen) i))
      (readElements options buf offset maxlen t n ⟨i / 8, i % 8⟩) := by
  have start : u32 (offset + i / 8) = offset + i / 8 := u32_of_lt (by omega)
  have left : u32Sub maxlen (i / 8) = maxlen - i / 8 := u32Sub_of_le (by omega) (by omega)
  cases t with
  | prim p =>
      have whole := aligned rfl
      have small : p.size * n < 2 ^ 31 := span
      have place : Cursor.ofBit (buf.read offset maxlen) i = ⟨buf.read (offset + i / 8) (maxlen - i / 8), 0⟩ := by
        rw [Cursor.ofBit, read_drop, whole]
      rw [place, repeatRead_prims, readElements, decodePrims]
      simp only [start, left]
      by_cases room : p.size * n ≤ maxlen - i / 8
      · rw [if_pos room, decodeArray_eq _ p buf small room (by omega)]
        dsimp only
        rw [if_neg (by omega), Int.toNat_natCast, u32_of_lt (by omega)]
        have byte : (i + 8 * (p.size * n)) / 8 = i / 8 + p.size * n := by omega
        have bit : (i + 8 * (p.size * n)) % 8 = 0 := by omega
        refine .ok ⟨rfl, numbersAt_length _ _ _ _ _, i + 8 *
          (p.size * n), by rw [Mem.read_length]; omega, fun _ => bit, ?_, ?_⟩
        · rw [Cursor.ofBit, read_drop, byte, bit, Nat.add_assoc, Nat.sub_sub]
        · rw [byte, bit, whole]
      · rw [if_neg room, decodeArray_short _ p buf small (by omega)]
        dsimp only
        rw [if_pos (by decide)]
        exact .short (by decide)
  | bits p numbits signExtend =>
      obtain ⟨b, listed, width⟩ := bitsType_width accepted
      obtain ⟨positive, narrow⟩ := numbits_le accepted
      have small : n * numbits < 2 ^ 31 := by rw [Nat.mul_comm]; exact span
      have length := buf.read_length offset maxlen
      rw [repeatRead_bits _ _ _ _ _ _ _ _ _ (by rw [length]; exact inside), length, readElements, listed]
      simp only [start, left]
      by_cases room : i + n * numbits ≤ 8 * maxlen
      · obtain ⟨ps, run, cells⟩ := @decodeArrayBits_eq b signExtend buf numbits positive (offset + i / 8)
          (i % 8) (maxlen - i / 8) n (Nat.mod_lt i (by decide)) small (by omega) (by omega) (fun _ => 0)
        have advanced := @bitfieldAdvanceOffset_eq 0 i (n * numbits) (by omega)
        rw [Nat.zero_add, Nat.zero_add] at advanced
        rw [if_pos room, run]
        dsimp only
        rw [if_neg (by omega), Int.toNat_natCast, advanced]
        have same : fieldsAt (buf.read offset maxlen) p numbits signExtend n i = (ps.read 0 n).map (·.toNat) := by
          have stored : ps.read 0 n = (List.range n).map fun j => ps (0 + j) := rfl
          rw [fieldsAt_eq, stored, List.map_map]
          refine List.map_congr_left fun j member => ?_
          have lt := List.mem_range.mp member
          have upto : j * numbits + numbits ≤ n * numbits := by
            rw [← Nat.succ_mul]
            exact Nat.mul_le_mul_right numbits lt
          have place : 8 * (offset + i / 8) + i % 8 + j * numbits = 8 * offset + (i + j * numbits) := by omega
          have value := @fieldValue_extendBits _ _ width signExtend
            (buf.bits (8 * offset + (i + j * numbits)) numbits) (by rw [Mem.bits_length]; exact narrow)
          rw [Mem.bits_length] at value
          rw [unpack_bits buf (by omega), ← value]
          simp only [Function.comp_apply, Nat.zero_add, cells j lt, place]
        exact .ok ⟨by rw [same], by simp, i + n * numbits, by rw [length]; exact room, by simp [Typename.isBits], rfl,
          rfl⟩
      · have total : u32 (n * numbits) = n * numbits := u32_of_lt (by omega)
        have bits : u32 (n * numbits + i % 8) = n * numbits + i % 8 := u32_of_lt (by omega)
        have short : decodeArrayBits b signExtend buf (offset + i / 8) (i % 8) (maxlen - i / 8) (fun _ => 0) n numbits =
            (-1, fun _ => 0) := by
          simp only [decodeArrayBits, total, bits,
            bitfieldEncodedSize_eq (show n * numbits + i % 8 < 2 ^ 32 by omega)]
          rw [if_pos (by omega)]
        rw [if_neg room, short]
        dsimp only
        rw [if_pos (by decide)]
        exact .short (by decide)
  | string => cases number
  | user name => cases number

def Fills (W : List Byte) (t : Typename) (blank : Value) (r : Value × Cursor) (s : BitPos × Patch) : Prop :=
  At W t r.2 s.1 ∧ s.2.apply blank = r.1.mapText List.dropLast

def CalleeRefines (parsed : String → List Byte → Except Failure (List Value × List Byte))
    (read : String → Nat → Nat → Except Abort (Nat × Patch)) (blanks : String → List Value)
    (buf : Mem Byte) : Prop :=
  ∀ name offset maxlen, offset + maxlen < 2 ^ 32 → maxlen < 2 ^ 31 →
    Refines (fun r s => s.1 ≤ maxlen ∧ r.2 = (buf.read offset maxlen).drop s.1 ∧
      s.2.apply (.struct (blanks name)) = .struct (Value.mapTexts List.dropLast r.1))
      (parsed name (buf.read offset maxlen)) (read name offset maxlen)

theorem readNumber_refines (accepted : t.accepted = true) (number : t.isNumber = true) {i : Nat}
    (inside : i ≤ 8 * maxlen) (aligned : t.isBits = false → i % 8 = 0) :
    Refines (fun r s => s.2 = .put r.1 ∧ (∃ n, r.1 = .num n) ∧ At (buf.read offset maxlen) t r.2 s.1)
      (parseLeaf rules options.littleEndianEncoding callee t (Cursor.ofBit (buf.read offset maxlen) i))
      (readElements options buf offset maxlen t 1 ⟨i / 8, i % 8⟩ >>= fun r =>
        .ok (r.1, Patch.put (.num (r.2.headD 0)))) := by
  have span : t.unit true * 1 < 2 ^ 31 := by
    cases t with
    | prim p =>
        have := p.size_le
        simp only [Typename.unit]
        omega
    | bits p numbits signExtend =>
        have := (numbits_le accepted).2
        have := p.size_le
        simp only [Typename.unit]
        omega
    | string => cases number
    | user name => cases number
  have single : parseLeaf rules options.littleEndianEncoding callee t (Cursor.ofBit (buf.read offset maxlen) i) =
      repeatRead (parseLeaf rules options.littleEndianEncoding callee t) 1
        (Cursor.ofBit (buf.read offset maxlen) i) >>= fun r => .ok (r.1.headD (.num 0), r.2) := by
    rw [repeatRead]
    cases parseLeaf rules options.littleEndianEncoding callee t (Cursor.ofBit (buf.read offset maxlen) i) <;> rfl
  rw [single]
  refine (readElements_refines options callee buf fits half accepted number span inside aligned).bind ?_
  rintro ⟨vs, c⟩ ⟨pos, values⟩ ⟨same, one, here⟩
  obtain ⟨n, rfl⟩ := List.length_eq_one_iff.mp one
  obtain rfl : vs = [.num n] := same
  exact .ok ⟨rfl, ⟨n, rfl⟩, here⟩

omit fits in
theorem takeString_refines {elemLen b limit : Nat} (lt : elemLen < 2 ^ 32) (top : limit = 2 ^ 31)
    (inside : b ≤ maxlen) :
    Refines (fun r s => (∃ block, r.1 = .str block ∧ s.2 = .str block.dropLast) ∧
        At (buf.read offset maxlen) .string r.2 s.1)
      (do
        let length ← rules.text (Prim.int32_t.toInt elemLen) (maxlen - b)
        let (block, rest) ← takeBytes length (buf.read (offset + b) (maxlen - b))
        .ok (Value.str block, (⟨rest, 0⟩ : Cursor)))
      (if maxlen - b < elemLen then .error (.returned (-1))
        else if elemLen = limit then .error .overflow
        else if Prim.int32_t.toInt elemLen < 1 then .error .thrown
        else .ok ((⟨u32 (b + elemLen), 0⟩ : BitPos), Value.str (buf.read (offset + b) (elemLen - 1)))) := by
  by_cases small : elemLen < 2 ^ 31
  · have value : Prim.int32_t.toInt elemLen = elemLen :=
      Int.bmod_eq_of_le (by simp only [Prim.size]; omega) (by simp only [Prim.size]; omega)
    rw [value, if_neg (show ¬ elemLen = limit by omega), rules]
    dsimp only
    by_cases enough : elemLen ≤ maxlen - b
    · rw [if_neg (show ¬ maxlen - b < elemLen by omega), if_neg (by omega)]
      by_cases empty : elemLen = 0
      · rw [if_pos (by omega), if_pos (by omega)]
        exact .negative
      · rw [if_neg (by omega), if_neg (by omega), Int.toNat_natCast, ok_bind, takeBytes, Mem.read_length,
          if_pos enough, ok_bind, read_take buf enough, read_drop, u32_of_lt (by omega)]
        refine .ok ⟨⟨_, rfl, ?_⟩, 8 * (b + elemLen), by rw [Mem.read_length]; omega, fun _ => by omega, ?_, ?_⟩
        · rw [List.dropLast_eq_take, Mem.read_length, read_take buf (by omega)]
        · have byte : 8 * (b + elemLen) / 8 = b + elemLen := by omega
          have bit : 8 * (b + elemLen) % 8 = 0 := by omega
          rw [Cursor.ofBit, read_drop, byte, bit, Nat.add_assoc, Nat.sub_sub]
        · rw [Nat.mul_div_cancel_left _ (by decide), Nat.mul_mod_right]
    · rw [if_pos (show maxlen - b < elemLen by omega), if_pos (by omega)]
      exact .short (by decide)
  · have value : Prim.int32_t.toInt elemLen < 0 := by
      have unfolded : Prim.int32_t.toInt elemLen = Int.bmod elemLen 4294967296 := rfl
      rw [unfolded, Int.bmod_def]
      omega
    rw [if_pos (show maxlen - b < elemLen by omega), rules]
    dsimp only
    rw [if_pos (Or.inl value)]
    exact .short (by decide)

theorem readString_refines {i : Nat} (inside : i ≤ 8 * maxlen) (aligned : i % 8 = 0) :
    Refines (fun r s => (∃ block, r.1 = .str block ∧ s.2 = .str block.dropLast) ∧
        At (buf.read offset maxlen) .string r.2 s.1)
      (parseLeaf rules options.littleEndianEncoding callee .string (Cursor.ofBit (buf.read offset maxlen) i))
      (decodeString options buf offset maxlen ⟨i / 8, i % 8⟩) := by
  have start : u32 (offset + i / 8) = offset + i / 8 := u32_of_lt (by omega)
  have left : u32Sub maxlen (i / 8) = maxlen - i / 8 := u32Sub_of_le (by omega) (by omega)
  have place : Cursor.ofBit (buf.read offset maxlen) i = ⟨buf.read (offset + i / 8) (maxlen - i / 8), 0⟩ := by
    rw [Cursor.ofBit, read_drop, aligned]
  rw [place, parseLeaf, decodeString, decodePrims, takeBytes, Mem.read_length]
  simp only [start, left]
  by_cases header : 4 ≤ maxlen - i / 8
  · have call : decodeArray options.littleEndianEncoding .int32_t buf (offset + i / 8) (maxlen - i / 8) 1 =
        (4, [ofNumBytes options.littleEndianEncoding (buf.read (offset + i / 8) 4)]) :=
      decodeArray_eq _ .int32_t buf (n := 1) (by decide) header (by rw [Prim.size]; omega)
    have lt := ofNumBytes_lt options.littleEndianEncoding (buf.read_length (offset + i / 8) 4)
    rw [if_pos header, call, read_take buf header, read_drop]
    have next : u32 (i / 8 + Int.toNat 4) = i / 8 + 4 := u32_of_lt (by omega)
    have rest : u32Sub maxlen (i / 8 + 4) = maxlen - (i / 8 + 4) := u32Sub_of_le (by omega) (by omega)
    have nonneg : ¬ (4 : Int) < 0 := by decide
    rw [if_neg nonneg, ok_bind, ok_bind]
    simp only [next, rest, List.headD_cons, Nat.sub_sub, Mem.read_length, aligned, ← Nat.add_assoc]
    have text := @takeString_refines buf offset maxlen half _ (i / 8 + 4) _ lt rfl (by omega)
    simp only [← Nat.add_assoc] at text
    exact text
  · rw [if_neg header, decodeArray_short _ .int32_t buf (by decide) (by rw [Prim.size]; omega)]
    exact .short (by decide)

end Elements

section Dims

variable {options : Options} {blanks : String → List Value}
  {parsed : String → List Byte → Except Failure (List Value × List Byte)}
  {read : String → Nat → Nat → Except Abort (Nat × Patch)} {buf : Mem Byte}
  (nested : CalleeRefines parsed read blanks buf) {offset maxlen : Nat} (fits : offset + maxlen < 2 ^ 32)
  (half : maxlen < 2 ^ 31) {t : Typename}

include nested fits half

theorem readLeaf_refines (accepted : t.accepted = true) {i : Nat} (inside : i ≤ 8 * maxlen)
    (aligned : t.isBits = false → i % 8 = 0) :
    Refines (fun r s => Fills (buf.read offset maxlen) t (initialLeaf blanks t) r s ∧
        (t.isNumber = true → s.2 = .put r.1))
      (parseLeaf rules options.littleEndianEncoding parsed t (Cursor.ofBit (buf.read offset maxlen) i))
      (readLeaf options read buf offset maxlen t ⟨i / 8, i % 8⟩) := by
  have number (known : t.isNumber = true) :
    Refines (fun r s => Fills (buf.read offset maxlen) t (initialLeaf blanks t) r s ∧
        (t.isNumber = true → s.2 = .put r.1))
      (parseLeaf rules options.littleEndianEncoding parsed t (Cursor.ofBit (buf.read offset maxlen) i))
      (readElements options buf offset maxlen t 1 ⟨i / 8, i % 8⟩ >>= fun r =>
        .ok (r.1, Patch.put (.num (r.2.headD 0)))) := by
    refine (readNumber_refines options parsed buf fits half accepted known inside aligned).mono ?_
    rintro ⟨v, c⟩ ⟨pos, p⟩ ⟨put, ⟨n, value⟩, here⟩
    obtain rfl : v = .num n := value
    obtain rfl : p = .put (.num n) := put
    exact ⟨⟨here, rfl⟩, fun _ => rfl⟩
  cases t with
  | prim p => exact number rfl
  | bits p numbits signExtend => exact number rfl
  | string =>
      have text := readString_refines options parsed buf fits half inside (aligned rfl)
      have same : readLeaf options read buf offset maxlen .string ⟨i / 8, i % 8⟩ =
          decodeString options buf offset maxlen ⟨i / 8, i % 8⟩ >>= fun r => .ok (r.1, Patch.put r.2) := by
        rw [readLeaf]
        cases decodeString options buf offset maxlen ⟨i / 8, i % 8⟩ <;> rfl
      rw [same]
      refine text.after ?_
      rintro ⟨v, c⟩ ⟨pos, v'⟩ ⟨⟨block, value, text⟩, here⟩
      obtain rfl : v = .str block := value
      obtain rfl : v' = .str block.dropLast := text
      exact .ok ⟨⟨here, rfl⟩, fun known => by cases known⟩
  | user name =>
      have whole := aligned rfl
      have start : u32 (offset + i / 8) = offset + i / 8 := u32_of_lt (by omega)
      have left : u32Sub maxlen (i / 8) = maxlen - i / 8 := u32Sub_of_le (by omega) (by omega)
      have place : Cursor.ofBit (buf.read offset maxlen) i = ⟨buf.read (offset + i / 8) (maxlen - i / 8), 0⟩ := by
        rw [Cursor.ofBit, read_drop, whole]
      rw [place, parseLeaf, readLeaf]
      simp only [start, left]
      refine (nested name (offset + i / 8) (maxlen - i / 8) (by omega) (by omega)).bind ?_
      rintro ⟨fields, rest⟩ ⟨thislen, p⟩ ⟨upto, behind, same⟩
      obtain rfl : rest = (buf.read (offset + i / 8) (maxlen - i / 8)).drop thislen := behind
      dsimp only at upto same
      have byte : (i + 8 * thislen) / 8 = i / 8 + thislen := by omega
      have bit : (i + 8 * thislen) % 8 = 0 := by omega
      refine .ok ⟨⟨⟨i + 8 * thislen, by rw [Mem.read_length]; omega, fun _ => bit, ?_, ?_⟩, same⟩,
        fun known => by
        cases known⟩
      · rw [Cursor.ofBit, read_drop, read_drop, byte, bit, Nat.add_assoc, Nat.sub_sub]
      · rw [u32_of_lt (by omega), byte, bit, whole]

omit fits half nested in
theorem readItems_refines {W : List Byte} {blank : Value} {parse : Cursor → Except Failure (Value × Cursor)}
    {read : BitPos → Except Abort (BitPos × Patch)}
    (each : ∀ c pos, At W t c pos → Refines (Fills W t blank) (parse c) (read pos)) (n : Nat) {c : Cursor}
    {pos : BitPos}
    (here : At W t c pos) :
    Refines (fun r s => At W t r.2 s.1 ∧
        Patch.applyAll s.2 (List.replicate n blank) = Value.mapTexts List.dropLast r.1)
      (repeatRead parse n c) (readItems read n pos) := by
  induction n generalizing c pos with
  | zero => exact .ok ⟨here, rfl⟩
  | succ n ih =>
      rw [repeatRead, readItems]
      refine (each c pos here).bind ?_
      rintro ⟨v, c⟩ ⟨pos, p⟩ ⟨here, first⟩
      refine (ih here).bind ?_
      rintro ⟨vs, c⟩ ⟨pos, ps⟩ ⟨here, rest⟩
      dsimp only at first rest
      refine .ok ⟨here, ?_⟩
      rw [List.replicate_succ, Patch.applyAll, List.headD_cons, List.tail_cons, first, rest, Value.mapTexts]

omit nested fits half in
theorem fit_initialDims {m : Member} {d : Dimension} {ds : List Dimension} {scope : Scope} {n : Nat}
    (size : scope.dimSize d = n) :
    fit (if isVector options m d then some ((scope.dimSize d).toNat, initialDims options blanks m ds) else none)
      (items (initialDims options blanks m (d :: ds))) = List.replicate n (initialDims options blanks m ds) := by
  rw [initialDims]
  by_cases vector : isVector options m d = true
  · rw [if_pos vector, if_pos vector, size, Int.toNat_natCast]
    simp [fit, items]
  · have const : Scope.dimSize [] d = scope.dimSize d := by
      cases d with
      | const => rfl
      | var => simp [isVector, Dimension.isVar] at vector
    rw [if_neg vector, if_neg vector, const, size, Int.toNat_natCast]
    rfl

omit nested fits half in
theorem isRow_iff {ds : List Dimension} : isRow t ds = (t.isNumber && ds.isEmpty) := by
  cases t <;> rfl

omit nested fits half in
theorem extent_skipped {e : Extent} (number : e.type.isNumber = true) (last : e.innermost = true) (var : e.isVar = true)
    (none : e.count ≤ 0) : rules.extent e = .ok 0 := by
  obtain ⟨type, innermost, allocated, isVar, count⟩ := e
  dsimp only at number last var none
  subst last
  subst var
  rw [rules]
  dsimp only
  by_cases negative : count < 0
  · rw [if_pos negative, if_pos rfl]
    cases type with
    | prim p => rfl
    | bits p numbits signExtend => rfl
    | _ => cases number
  · obtain rfl : count = 0 := by omega
    simp

omit nested fits half in
theorem extent_fixed {type : Typename} {innermost allocated : Bool} {count : Int} (negative : count < 0) :
    rules.extent ⟨type, innermost, allocated, false, count⟩ = .error .oversize := by
  rw [rules]
  dsimp only
  rw [if_pos negative, if_neg Bool.false_ne_true]

omit nested fits half in
theorem extent_negative {type : Typename} {innermost allocated : Bool} {count : Int}
    (other : (type.isNumber && innermost) = false) (negative : count < 0) :
    rules.extent ⟨type, innermost, allocated, true, count⟩ = .error .negative := by
  rw [rules]
  dsimp only
  rw [if_pos negative, if_pos rfl]
  cases innermost with
  | false => rfl
  | true =>
      cases type with
      | prim p => cases other
      | bits p numbits signExtend => cases other
      | _ => rfl

omit nested fits half in
theorem extent_eq {type : Typename} {innermost allocated isVar : Bool} {count : Int} {n : Nat} (size : count = n) :
    rules.extent ⟨type, innermost, allocated, isVar, count⟩ =
      if type.unit innermost * n < 2 ^ 31 then .ok n else .error .oversize := by
  subst size
  rw [rules]
  dsimp only
  rw [if_neg (by omega), Int.toNat_natCast]
  by_cases small : type.unit innermost * n < 2 ^ 31
  · rw [if_pos small, if_pos (by exact_mod_cast small)]
  · rw [if_neg small, if_neg (by exact_mod_cast small)]

theorem readDims_refines {m : Member} (accepted : m.type.accepted = true) (scope : Scope) (ds : List Dimension)
    {i : Nat}
    (inside : i ≤ 8 * maxlen) (aligned : m.type.isBits = false → i % 8 = 0) :
    Refines (fun r s => Fills (buf.read offset maxlen) m.type (initialDims options blanks m ds) r s ∧
        (ds = [] → m.type.isNumber = true → s.2 = .put r.1))
      (parseDims rules options.littleEndianEncoding parsed m.type (m.extentsFrom scope ds)
        (Cursor.ofBit (buf.read offset maxlen) i))
      (readDims options blanks read buf offset maxlen m scope ds ⟨i / 8, i % 8⟩) := by
  induction ds generalizing i with
  | nil =>
      refine (readLeaf_refines nested fits half accepted inside aligned).mono ?_
      rintro r s ⟨fills, put⟩
      exact ⟨fills, fun _ => put⟩
  | cons d ds ih =>
      rw [Member.extentsFrom, parseDims, readDims]
      have here : At (buf.read offset maxlen) m.type (Cursor.ofBit (buf.read offset maxlen) i) ⟨i / 8, i % 8⟩ :=
        ⟨i, by rw [Mem.read_length]; exact inside, aligned, rfl, rfl⟩
      by_cases guarded : (isRow m.type ds && d.isVar && decide (scope.dimSize d ≤ 0)) = true
      · -- a row that is skipped
        rw [if_pos guarded]
        simp only [Bool.and_eq_true, decide_eq_true_eq, isRow_iff] at guarded
        obtain ⟨⟨⟨number, last⟩, var⟩, none⟩ := guarded
        rw [extent_skipped number last var none, ok_bind, repeatRead, ok_bind]
        have blank : initialDims options blanks m (d :: ds) = .array [] := by
          rw [initialDims, if_pos (by rw [isVector, var]; rfl)]
        refine .ok ⟨⟨here, ?_⟩, by simp⟩
        rw [blank]
        rfl
      · rw [if_neg guarded]
        by_cases negative : scope.dimSize d < 0
        · cases var : d.isVar with
          | false =>
              rw [extent_fixed negative]
              exact .oversize _
          | true =>
              have other : (m.type.isNumber && ds.isEmpty) = false := by
                rw [isRow_iff, var] at guarded
                simpa [negative.le] using guarded
              rw [extent_negative other negative, if_pos (by simp [isVector, var, negative])]
              exact .negative
        · obtain ⟨n, size⟩ := Int.eq_ofNat_of_zero_le (not_lt.mp negative)
          rw [extent_eq size]
          by_cases small : m.type.unit ds.isEmpty * n < 2 ^ 31
          · have unit := unit_pos accepted ds.isEmpty
            have least := Nat.mul_le_mul_right n unit
            have fitted := @fit_initialDims options blanks m d ds scope n size
            rw [if_pos small, ok_bind, if_neg (by simp [negative])]
            by_cases row : isRow m.type ds = true
            · rw [if_pos row]
              rw [isRow_iff, Bool.and_eq_true] at row
              obtain ⟨number, last⟩ := row
              obtain rfl := List.isEmpty_iff.mp last
              have elements : (scope.dimSize d % 2 ^ 32).toNat = n := by
                rw [size]
                omega
              rw [elements]
              refine (readElements_refines options parsed buf fits half accepted number small inside aligned).bind ?_
              rintro ⟨vs, c⟩ ⟨pos, values⟩ ⟨same, length, here⟩
              obtain rfl : vs = values.map .num := same
              refine .ok ⟨⟨here, ?_⟩, by simp⟩
              dsimp only at length ⊢
              rw [Patch.apply, fitted, store, List.drop_of_length_le (by simp [length]), List.append_nil, Value.mapText,
                Value.mapTexts_eq, List.map_map]
              rfl
            · rw [if_neg row, size, Int.toNat_natCast]
              have each (c : Cursor) (pos : BitPos) (here : At (buf.read offset maxlen) m.type c pos) :
                  Refines (Fills (buf.read offset maxlen) m.type (initialDims options blanks m ds))
                    (parseDims rules options.littleEndianEncoding parsed m.type (m.extentsFrom scope ds) c)
                    (readDims options blanks read buf offset maxlen m scope ds pos) := by
                obtain ⟨j, upto, whole, rfl, rfl⟩ := here
                rw [Mem.read_length] at upto
                exact (ih upto whole).mono fun _ _ fills => fills.1
              refine (readItems_refines each n here).bind ?_
              rintro ⟨vs, c⟩ ⟨pos, ps⟩ ⟨here, same⟩
              rw [size, Int.toNat_natCast] at fitted
              dsimp only at same ⊢
              rw [if_pos (by omega)]
              refine .ok ⟨⟨here, ?_⟩, by simp⟩
              dsimp only
              rw [Patch.apply, fitted, same, Value.mapText]
          · rw [if_neg small]
            exact .oversize _

omit nested fits half in
theorem push_put {m : Member} {scope : Scope} {v : Value} {p : Patch}
    (put : m.dimensions = [] → m.type.isNumber = true → p = .put v) : scope.push m p.value = scope.push m v := by
  cases dims : m.dimensions with
  | cons d ds => simp only [Scope.push, dims]
  | nil =>
      cases type : m.type with
      | prim q => rw [put dims (by rw [type]; rfl)]; rfl
      | bits q numbits signExtend => rw [put dims (by rw [type]; rfl)]; rfl
      | string => simp only [Scope.push, dims, type]
      | user name => simp only [Scope.push, dims, type]

omit nested fits in
theorem closed_place {inBitMode : Bool} {i : Nat} (inside : i ≤ 8 * maxlen)
    (aligned : inBitMode = false → i % 8 = 0) :
    (if inBitMode then closeBits ⟨i / 8, i % 8⟩ else ⟨i / 8, i % 8⟩) = ⟨packedSize i, 0⟩ := by
  cases inBitMode with
  | true => rw [if_pos rfl, closeBits_eq (by rw [packedSize]; omega)]
  | false =>
      have whole := aligned rfl
      rw [if_neg Bool.false_ne_true, packedSize]
      congr 1
      omega

theorem readFields_refines (ms : List Member) (accepted : ∀ m ∈ ms, m.type.accepted = true) (scope : Scope)
    (inBitMode : Bool) {i : Nat} (inside : i ≤ 8 * maxlen) (aligned : inBitMode = false → i % 8 = 0) :
    Refines (fun r s => (∃ n ≤ maxlen, s.1 = ⟨n, 0⟩ ∧ r.2 = (buf.read offset maxlen).drop n) ∧
        Patch.applyAll s.2 (ms.map fun m => initialDims options blanks m m.dimensions) =
          Value.mapTexts List.dropLast r.1)
      (parseFields rules options.littleEndianEncoding parsed scope ms (Cursor.ofBit (buf.read offset maxlen) i))
      (readFields options blanks read buf offset maxlen scope inBitMode ms ⟨i / 8, i % 8⟩) := by
  induction ms generalizing scope inBitMode i with
  | nil =>
      rw [parseFields, readFields, closed_place half inside aligned, Cursor.align_ofBit]
      exact .ok ⟨⟨packedSize i, by rw [packedSize]; omega, rfl, rfl⟩, rfl⟩
  | cons m ms ih =>
      -- the member starts at a bit j
      have start : ∃ j ≤ 8 * maxlen, (m.type.isBits = false → j % 8 = 0) ∧
          (if m.type.isBits then Cursor.ofBit (buf.read offset maxlen) i
            else (Cursor.ofBit (buf.read offset maxlen) i).align) = Cursor.ofBit (buf.read offset maxlen) j ∧
          (if inBitMode && !m.type.isBits then closeBits ⟨i / 8, i % 8⟩ else ⟨i / 8, i % 8⟩) =
            ⟨j / 8, j % 8⟩ := by
        cases isBits : m.type.isBits with
        | true => exact ⟨i, inside, by simp, by simp, by simp⟩
        | false =>
            have byte : 8 * packedSize i / 8 = packedSize i := by omega
            have bit : 8 * packedSize i % 8 = 0 := by omega
            refine ⟨8 * packedSize i, by rw [packedSize]; omega, fun _ => bit, ?_, ?_⟩
            · rw [if_neg Bool.false_ne_true, Cursor.align_ofBit, Cursor.ofBit, byte, bit]
            · rw [byte, bit, Bool.not_false, Bool.and_true, closed_place half inside aligned]
      obtain ⟨j, upto, whole, cursor, place⟩ := start
      rw [parseFields, readFields, cursor, place]
      refine (readDims_refines nested fits half (accepted m List.mem_cons_self) scope m.dimensions upto whole).bind ?_
      rintro ⟨v, c⟩ ⟨pos, p⟩ ⟨⟨⟨k, within, next, rfl, rfl⟩, filled⟩, put⟩
      rw [Mem.read_length] at within
      dsimp only at filled put ⊢
      rw [push_put put]
      refine (ih (fun m' member => accepted m' (List.mem_cons_of_mem m member)) _ m.type.isBits within next).bind ?_
      rintro ⟨vs, rest⟩ ⟨pos, ps⟩ ⟨behind, same⟩
      refine .ok ⟨behind, ?_⟩
      rw [List.map_cons, Patch.applyAll, List.headD_cons, List.tail_cons, filled, same, Value.mapTexts]

end Dims

theorem readNoHash_refines {Γ : Env} (accepted : Accepted Γ) (options : Options) (buf : Mem Byte) (depth : Nat) :
    CalleeRefines (parse Γ rules options.littleEndianEncoding depth) (readNoHash Γ options buf depth)
      (initial Γ options depth) buf := by
  induction depth with
  | zero =>
      intro name offset maxlen _ _
      exact .depth
  | succ depth ih =>
      intro name offset maxlen fits half
      rw [parse, readNoHash]
      cases found : Γ.lookup name with
      | none => exact .depth
      | some s =>
          refine (readFields_refines ih fits half s.members (accepted s (List.mem_of_find?_eq_some found)) [] false
            (Nat.zero_le _) fun _ => rfl).after ?_
          rintro ⟨vs, rest⟩ ⟨pos, ps⟩ ⟨⟨n, le, place, behind⟩, same⟩
          obtain rfl : pos = ⟨n, 0⟩ := place
          dsimp only at behind same ⊢
          rw [asInt_of_lt (by omega), if_neg (by omega)]
          refine .ok ⟨le, behind, ?_⟩
          dsimp only
          rw [Patch.apply, Cpp.fields, initial, found, same]

end Zcm.Cpp
