import Zcm.Node.Reads

namespace Zcm.Node
open Zcm.Lib Zcm.Lib.Js Zcm.Coretypes Methods

structure Field extends Bitfield where
  value : Value

def Field.c (field : Field) :
    (f : Bitfield) × BitVec f.t.width := ⟨field.toBitfield, BitVec.ofInt field.t.width field.value.int⟩

def Methods.writeBitfields : List Field → Methods → Option Methods
  | [], s => some s
  | field :: fields, s => do
      let s ← s.writeBits field.value field.numbits
      s.writeBitfields fields

def Methods.readBitfields : List Bitfield → Methods → Option (List Value × Methods)
  | [], s => some ([], s)
  | f :: fs, s => do
      let (ret, s) ← s.readBits f.numbits f.signExtend
      let (values, s) ← s.readBitfields fs
      some (ret :: values, s)

/-- The bit of the value that belongs at the place is the one that the 32-bit operators take. They take the right one
as long as less than 32 bits are left when the writer comes to the byte; from then on, none from the 64th on and none
in the byte that has the 32nd, and else the one 32 bits lower. -/
def Kept (value : Value) (start last place : Nat) : Prop :=
  match value with
  | .bigint _ => True
  | .number n =>
      let left := last - max start (8 * (place / 8))
      let rest := last - (8 * (place / 8) + 8)
      32 ≤ left → n.testBit (last - 1 - place) =
        (decide (left < 64 ∧ 32 ≤ rest) && n.testBit (last - 1 - place - 32))

def Covered (s : Methods) (place : Nat) : Prop := 8 * (place / 8) < s.place ∧ s.buf.bytes.bit place = true

def Field.Kept (s : Methods) (start : Nat) (field : Field) : Prop :=
  ∀ place, start ≤ place → place < start + field.numbits → Covered s place ∨
    Node.Kept field.value start (start + field.numbits) place

/-- The first bit of an unsigned field is not taken for a sign, or both take it for one. -/
def ReadsAlike (buf : Mem Byte) (place : Nat) (f : Bitfield) : Prop :=
  f.signExtend = true ∨ buf.bit place = false ∨ (f.numbits = 32 ↔ f.t ≠ .byte ∧ f.numbits = f.t.width)

section Writes

theorem landed_length (value : Value) (start last : Nat) : (landed value start last).length = last - start := by
  simp [landed]

theorem landedBit_eq_iff (value : Value) (start last place : Nat) :
    landedBit value (last - max start (8 * (place / 8))) (last - (8 * (place / 8) + 8)) (last - 1 - place) =
      value.int.testBit (last - 1 - place) ↔ Kept value start last place := by
  cases value with
  | bigint n => exact iff_of_true rfl trivial
  | number n =>
      rw [landedBit, Kept, Value.int]
      split
      next small => exact iff_of_true rfl fun large => absurd large (Nat.not_le.mpr small)
      next large =>
          constructor
          · intro same _
            exact same.symm
          · intro same
            exact (same (Nat.not_lt.mp large)).symm

theorem c_testBit (field : Field) {i : Nat} (lt : i < field.numbits) :
    field.c.2.toNat.testBit i = field.value.int.testBit i := by
  have narrow := field.narrow
  have cast : ((2 ^ field.t.width : Nat) : Int) = 2 ^ field.t.width := by push_cast; rfl
  rw [Field.c, BitVec.toNat_ofInt, cast, testBit_emod, decide_eq_true (by omega), Bool.true_and]

theorem sameRow_iff (s : Methods) (start : Nat) (field : Field) :
    SameRow (Covered s) start (landed field.value start (start + field.numbits))
      (toBits field.numbits field.c.2.toNat) ↔ field.Kept s start := by
  have cell {j : Nat} (lt : j < field.numbits) :
      (landed field.value start (start + field.numbits))[j]? = (toBits field.numbits field.c.2.toNat)[j]? ↔
        Kept field.value start (start + field.numbits) (start + j) := by
    have index : start + field.numbits - 1 - (start + j) = field.numbits - 1 - j := by omega
    rw [← landedBit_eq_iff, List.getElem?_eq_getElem (by rw [landed_length]; omega),
      List.getElem?_eq_getElem (by rw [toBits_length]; omega), toBits_getElem, c_testBit field (by omega),
        Option.some_inj,
      index]
    simp only [landed, List.getElem_map, List.getElem_range', Nat.one_mul, index]
  rw [SameRow, landed_length, Nat.add_sub_cancel_left]
  constructor
  · intro row place le lt
    obtain ⟨j, rfl⟩ := Nat.exists_eq_add_of_le le
    exact (row j (by omega)).imp_right (cell (by omega)).mp
  · intro kept j lt
    exact (kept (start + j) (by omega) (by omega)).imp_right (cell lt).mpr

def landedRow : Nat → List Field → List Bool
  | _, [] => []
  | start, field :: fields =>
      landed field.value start (start + field.numbits) ++ landedRow (start + field.numbits) fields

abbrev sizeOf (fields : List Field) : Nat := Bitfields.size (fields.map (·.toBitfield))

theorem sizeOf_cons (field : Field) (fields : List Field) : sizeOf (field :: fields) = field.numbits + sizeOf fields :=
  List.sum_cons

theorem landedRow_length (start : Nat) (fields : List Field) : (landedRow start fields).length = sizeOf fields := by
  induction fields generalizing start with
  | nil => rfl
  | cons field fields ih =>
      rw [landedRow, List.length_append, landed_length, ih, Nat.add_sub_cancel_left, sizeOf_cons]

theorem bits_length (fields : List Field) : (Bitfields.bits (fields.map (·.c))).length = sizeOf fields := by
  induction fields with
  | nil => rfl
  | cons field fields ih =>
      rw [List.map_cons, Bitfields.bits, List.flatMap_cons, List.length_append, toBits_length, ih, sizeOf_cons]
      rfl

theorem writeBitfields_eq (fields : List Field) (s : Methods) (low : s.offset_bit < 8)
    (inside : s.place + sizeOf fields ≤ 8 * s.buf.length) :
    s.writeBitfields fields =
      some (s.moved (s.buf.bytes.putBits s.place (landedRow s.place fields)) (s.place + sizeOf fields)) := by
  induction fields generalizing s with
  | nil =>
      have byte : s.place / 8 = s.offset_byte := by rw [Methods.place]; omega
      have bit : s.place % 8 = s.offset_bit := by rw [Methods.place]; omega
      have none : sizeOf [] = 0 := rfl
      rw [Methods.writeBitfields, landedRow, Mem.putBits, none, Nat.add_zero, Methods.moved, byte, bit]
  | cons field fields ih =>
      rw [sizeOf_cons] at inside ⊢
      have upto : field.numbits ≤ 64 := field.narrow.trans (width_le field.t)
      have moved (bytes : Mem Byte) (place : Nat) : (s.moved bytes place).place = place := Nat.div_add_mod place 8
      have run := writeBits_eq field.value upto s low (by omega)
      have rest := ih (s.moved (s.buf.bytes.putBits s.place (landed field.value s.place (s.place + field.numbits)))
        (s.place + field.numbits)) (Nat.mod_lt _ (by decide)) (by rw [moved]; simp only [Methods.moved]; omega)
      rw [moved] at rest
      rw [Methods.writeBitfields, run, Option.bind_eq_bind, Option.bind_some, rest, landedRow, Mem.putBits_append,
        landed_length, Nat.add_sub_cancel_left, Nat.add_assoc]
      rfl

theorem sameRow_fields_iff (s : Methods) (start : Nat) (fields : List Field) :
    SameRow (Covered s) start (landedRow start fields) (Bitfields.bits (fields.map (·.c))) ↔
      AllAt (·.numbits) (fun place field => field.Kept s place) start fields := by
  induction fields generalizing start with
  | nil => exact iff_of_true (fun j lt => absurd lt (Nat.not_lt_zero j)) trivial
  | cons field fields ih =>
      have length : (landed field.value start (start + field.numbits)).length =
          (toBits field.numbits field.c.2.toNat).length := by
        rw [landed_length, toBits_length, Nat.add_sub_cancel_left]
      have row := (@sameRow_append (Covered s) start) length
        (landedRow (start + field.numbits) fields) (Bitfields.bits (fields.map (·.c)))
      rw [landed_length, Nat.add_sub_cancel_left, sameRow_iff, ih] at row
      exact row

end Writes

section Reads

theorem wraps_iff {x a b : Int} (apos : 0 < a) (bpos : 0 < b) {p q : Prop} [Decidable p] [Decidable q]
    (same : p → q → a = b) : (x - if p then a else 0) = (x - if q then b else 0) ↔ (p ↔ q) := by
  by_cases hp : p
  · by_cases hq : q
    · rw [if_pos hp, if_pos hq, same hp hq]
      exact iff_of_true rfl (iff_of_true hp hq)
    · rw [if_pos hp, if_neg hq]
      exact iff_of_false (by omega) fun both => hq (both.mp hp)
  · by_cases hq : q
    · rw [if_neg hp, if_pos hq]
      exact iff_of_false (by omega) fun both => hp (both.mpr hq)
    · rw [if_neg hp, if_neg hq]
      exact iff_of_true rfl (iff_of_false hp hq)

theorem int_eq_iff (f : Bitfield) (buf : Mem Byte) (place : Nat) :
    (retValue f.numbits (fieldValue f.signExtend (buf.bits place f.numbits))).int = f.t.toInt (f.value buf place) ↔
      ReadsAlike buf place f := by
  obtain ⟨t, signExtend, numbits, listed, positive, narrow⟩ := f
  obtain ⟨n, rfl⟩ := Nat.exists_eq_add_of_le' positive
  have length : (buf.bits (place + 1) n).length = n := Mem.bits_length _ _ _
  have node : (retValue (n + 1) (fieldValue signExtend (buf.bits place (n + 1)))).int =
      fieldValue signExtend (buf.bits place (n + 1)) -
        if signExtend = false ∧ buf.bit place = true ∧ n = 31 then 2 ^ 32 else 0 := by
    rw [retValue, Mem.bits_cons]
    split
    next big => rw [Value.int, if_neg (fun all => by omega), Int.sub_zero]
    next small =>
        have wrapped := bmod_fieldValue signExtend (buf.bit place) (buf.bits (place + 1) n) (n := 31) (by omega)
        rw [Value.int, BitVec.toInt_ofInt, wrapped, length]
  have c := toInt_fieldValue signExtend listed (buf.bit place) (buf.bits (place + 1) n) (by rw [length]; exact narrow)
  rw [← Mem.bits_cons, length] at c
  have alike : ReadsAlike buf place ⟨t, signExtend, n + 1, listed, positive, narrow⟩ ↔
      (signExtend = false ∧ buf.bit place = true ∧ n = 31 ↔
        signExtend = false ∧ buf.bit place = true ∧ t ≠ .byte ∧ n + 1 = t.width) := by
    rw [ReadsAlike]
    cases signExtend <;> cases buf.bit place <;> simp
  rw [node, Bitfield.value, c, alike]
  apply wraps_iff (by decide) (Int.pow_pos (by decide))
  rintro ⟨_, _, rfl⟩ ⟨_, _, _, width⟩
  rw [← width]

theorem readBitfields_eq (fs : List Bitfield) (s : Methods) (low : s.offset_bit < 8)
    (inside : s.place + Bitfields.size fs ≤ 8 * s.buf.length) :
    ∃ values, s.readBitfields fs = some (values, s.moved s.buf.bytes (s.place + Bitfields.size fs)) ∧
      (values.map Value.int = Bitfields.Values.ints (Bitfields.valuesAt s.buf.bytes s.place fs) ↔
        AllAt (·.numbits) (ReadsAlike s.buf.bytes) s.place fs) := by
  induction fs generalizing s with
  | nil =>
      have byte : s.place / 8 = s.offset_byte := by rw [Methods.place]; omega
      have bit : s.place % 8 = s.offset_bit := by rw [Methods.place]; omega
      have none : Bitfields.size [] = 0 := rfl
      refine ⟨[], ?_, iff_of_true rfl trivial⟩
      rw [Methods.readBitfields, none, Nat.add_zero, Methods.moved, byte, bit]
  | cons f fs ih =>
      have total : Bitfields.size (f :: fs) = f.numbits + Bitfields.size fs := List.sum_cons
      rw [total] at inside ⊢
      have upto : f.numbits ≤ 64 := f.narrow.trans (width_le f.t)
      have moved (place : Nat) : (s.moved s.buf.bytes place).place = place := Nat.div_add_mod place 8
      have run := readBits_eq f.signExtend f.positive upto s low (by omega)
      obtain ⟨values, rest, same⟩ := ih (s.moved s.buf.bytes (s.place + f.numbits)) (Nat.mod_lt _ (by decide))
        (by rw [moved]; simp only [Methods.moved]; omega)
      rw [moved] at rest same
      refine ⟨retValue f.numbits (fieldValue f.signExtend (s.buf.bytes.bits s.place f.numbits)) :: values, ?_, ?_⟩
      · rw [Methods.readBitfields, run]
        simp only [Option.bind_eq_bind, Option.bind_some, rest]
        rw [Nat.add_assoc]
        rfl
      · rw [List.map_cons, Bitfields.valuesAt, Bitfields.Values.ints, List.map_cons, List.cons_eq_cons]
        exact and_congr (int_eq_iff f s.buf.bytes s.place) same

end Reads

/-- Where the emitted code of both languages stands at the same bit of the same buffer: each sequence of fields is
written to the same end, and read to the same end. What is written is the same if and only if the 32-bit operators
take the right bits of each number, and what is read is the same if and only if no first bit of an unsigned field is
a sign in one of the languages alone. -/
theorem bitfields_as_c_iff (s : Methods) (low : s.offset_bit < 8) (indexed : s.buf.length < 2 ^ 32) :
    (∀ fields : List Field, s.place + sizeOf fields ≤ 8 * s.buf.length → ∃ bytes bytes' pos,
      s.writeBitfields fields = some (s.moved bytes pos) ∧
      encodeBitfields s.buf.length ⟨s.offset_byte, s.offset_bit⟩ s.buf.bytes (fields.map (·.c)) =
        some (.ofPlace pos, bytes') ∧
      (bytes = bytes' ↔ AllAt (·.numbits) (fun place field => field.Kept s place) s.place fields)) ∧
    ∀ fs : List Bitfield, s.place + Bitfields.size fs ≤ 8 * s.buf.length → ∃ values values' pos,
      s.readBitfields fs = some (values, s.moved s.buf.bytes pos) ∧
      (∀ ps, decodeBitfields s.buf.bytes s.buf.length ps ⟨s.offset_byte, s.offset_bit⟩ fs =
        some (values', .ofPlace pos)) ∧
      (values.map Value.int = values'.ints ↔ AllAt (·.numbits) (ReadsAlike s.buf.bytes) s.place fs) := by
  constructor
  · intro fields inside
    have size : Bitfields.size ((fields.map (·.c)).map (·.1)) = sizeOf fields := by
      rw [List.map_map]
      rfl
    have same := @Mem.putBits_eq_iff s.buf.bytes s.place (landedRow s.place fields) (Bitfields.bits (fields.map (·.c)))
      (by rw [landedRow_length, bits_length])
    have c := @encodeBitfields_eq _ indexed (fields.map (·.c)) ⟨s.offset_byte, s.offset_bit⟩ low
      (by rw [size]; exact inside) s.buf.bytes
    rw [size] at c
    exact ⟨_, _, _, writeBitfields_eq fields s low inside, c, same.trans (sameRow_fields_iff s s.place fields)⟩
  · intro fs inside
    obtain ⟨values, run, same⟩ := readBitfields_eq fs s low inside
    exact ⟨values, _, _, run, fun ps => decodeBitfields_eq indexed s.buf.bytes ps fs low inside, same⟩

def four (b : Byte) : Methods := ⟨⟨fun a => if a = 0 then b else 0, 4⟩, 0, 0⟩

def minusOne : Field := ⟨⟨.int32_t, true, 32, by decide, by decide, by decide⟩, .number (-1)⟩

def lowHalf : Bitfield := ⟨.int64_t, false, 32, by decide, by decide, by decide⟩

/-- The mask of 32 bits is empty, and the first bit of a 32-bit word is a sign. -/
theorem bitfields_as_c_not :
    ((four 0).writeBitfields [minusOne]).map (fun s => s.buf.bytes.read 0 4) = some [0x00, 0xff, 0xff, 0xff] ∧
    (encodeBitfields 4 ⟨0, 0⟩ (four 0).buf.bytes [minusOne.c]).map (fun r => r.2.read 0 4) =
      some [0xff, 0xff, 0xff, 0xff] ∧
    ((four 0x80).readBitfields [lowHalf]).map (fun r => r.1.map Value.int) = some [-2147483648] ∧
    (decodeBitfields (four 0x80).buf.bytes 4 (fun _ _ => 0) ⟨0, 0⟩ [lowHalf]).map (fun r => r.1.ints) =
      some [2147483648] := by
  decide +kernel

theorem bitfields_as_c_iff_four : ∃ bytes bytes' pos,
    (four 0).writeBitfields [minusOne] = some ((four 0).moved bytes pos) ∧
    encodeBitfields 4 ⟨0, 0⟩ (four 0).buf.bytes [minusOne.c] = some (.ofPlace pos, bytes') ∧
    (bytes = bytes' ↔ AllAt (·.numbits) (fun place field => field.Kept (four 0) place) 0 [minusOne]) :=
  (bitfields_as_c_iff (four 0) (by decide) (by decide)).1 [minusOne] (by decide)

end Zcm.Node
