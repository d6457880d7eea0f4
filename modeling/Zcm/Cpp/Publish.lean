import Zcm.Cpp.Refines
import Zcm.Cpp.SizeExact

namespace Zcm.Cpp
open Zcm.Lib Zcm.Gen Zcm.Coretypes

/-- `ZCM::publish` of a message, in a buffer that held something already. It hands on nothing where it returns
ZCM_EAGAIN. -/
def publish (Γ : Env) (options : Options) (depth : Nat) (name : String) (getHash : Nat) (v : Value) (buf : Mem Byte) :
    Except Abort (Option (List Byte)) := do
  let len ← getEncodedSize Γ depth name v
  match encode Γ options depth name getHash 0 len v buf with
  | .ok (encodeRet, buf) => .ok (if encodeRet ≠ len then none else some (buf.read 0 len))
  | .error (.returned _) => .ok none
  | .error e => .error e

/-- An object whose sizes stay within what the emitted code counts in. -/
structure Within (Γ : Env) (options : Options) (depth : Nat) (name : String) (fields : List Value) : Prop where
  conforms : Conforms Γ Demands.within depth name (Value.mapTexts cut fields)
  bytes : 8 + (wire Γ options.littleEndianEncoding depth name (Value.mapTexts whole fields)).length < 2 ^ 31
  cells : Value.cellsOf fields < 2 ^ 31

section Lengths

variable {little : Bool} {bytes : String → List Value → List Byte} {conforms : String → List Value → Prop}

def CountsTexts (bytes : String → List Value → List Byte) (conforms : String → List Value → Prop) : Prop :=
  ∀ name fields (f : List Byte → List Byte), conforms name (Value.mapTexts cut fields) →
    (bytes name (Value.mapTexts f fields)).length = (bytes name (Value.mapTexts (fun _ => []) fields)).length +
      ((Value.textsOf fields).map fun s => (f s).length).sum

variable (nested : CountsTexts bytes conforms) {t : Typename} {v : Value} (f : List Byte → List Byte)

include nested in
theorem leafBytes_texts (conform : ConformsLeaf conforms t (v.mapText cut)) :
    (leafBytes little bytes t (v.mapText f)).length =
      (leafBytes little bytes t (v.mapText fun _ => [])).length + (v.texts.map fun s => (f s).length).sum := by
  cases t with
  | prim p =>
      cases v with
      | num n => rfl
      | _ => cases conform
  | bits p numbits signExtend =>
      cases v with
      | num n => rfl
      | _ => cases conform
  | string =>
      cases v with
      | str s => simp [Value.mapText, leafBytes, Value.texts]
      | _ => cases conform
  | user name =>
      cases v with
      | struct fields => exact nested name fields f conform
      | _ => cases conform

theorem texts_leaves {demands : Demands} {m : Member} {scope : Scope} {ds : List Dimension}
    (conform : ConformsDims demands conforms t (m.extentsFrom scope ds) (v.mapText cut)) :
    v.texts = (leaves ds.length v).flatMap Value.texts := by
  induction ds generalizing v with
  | nil => rw [List.length_nil, leaves, List.flatMap_singleton]
  | cons d ds ih =>
      cases v with
      | array items =>
          obtain ⟨-, -, each⟩ := conform
          simp only [Value.mapTexts_eq] at each
          rw [Value.texts, Value.textsOf_eq, List.length_cons, leaves, List.flatMap_assoc]
          exact List.flatMap_congr fun item member => ih (each _ (List.mem_map_of_mem member))
      | _ => cases conform

theorem sum_texts (ls : List Value) : ((ls.flatMap Value.texts).map fun s => (f s).length).sum =
    (ls.map fun l => (l.texts.map fun s => (f s).length).sum).sum := by
  rw [List.map_flatMap, List.flatMap_def, List.sum_flatten, List.map_map]
  rfl

include nested in
theorem member_texts {demands : Demands} {m : Member} {scope : Scope} {ds : List Dimension}
    (conform : ConformsDims demands conforms t (m.extentsFrom scope ds) (v.mapText cut)) :
    ((leaves ds.length (v.mapText f)).flatMap (leafBytes little bytes t)).length =
      ((leaves ds.length (v.mapText fun _ => [])).flatMap (leafBytes little bytes t)).length +
        (v.texts.map fun s => (f s).length).sum := by
  have leaf := conforms_leaves conform
  rw [texts_leaves conform, sum_texts, leaves_mapText, leaves_mapText, List.flatMap_map, List.flatMap_map]
  generalize leaves ds.length v = ls at leaf ⊢
  induction ls with
  | nil => rfl
  | cons l ls ih =>
      simp only [List.flatMap_cons, List.length_append, List.map_cons, List.sum_cons]
      rw [ih fun l' member => leaf l' (List.mem_cons_of_mem l member),
        leafBytes_texts nested f (leaf l List.mem_cons_self)]
      omega

omit conforms in
theorem bits_mapText (numbits k : Nat) (v : Value) :
    (leaves k (v.mapText f)).flatMap (bitsOf numbits) = (leaves k v).flatMap (bitsOf numbits) := by
  rw [leaves_mapText, List.flatMap_map]
  refine List.flatMap_congr fun l _ => ?_
  cases l <;> rfl

include nested in
theorem fields_texts {demands : Demands} (ms : List Member) (vs : List Value) (scope : Scope) (run : Nat)
    (pending : List Bool) (conform : ConformsFields demands conforms scope run ms (Value.mapTexts cut vs)) :
    (wireFields little bytes pending ms (Value.mapTexts f vs)).length =
      (wireFields little bytes pending ms (Value.mapTexts (fun _ => []) vs)).length +
        ((Value.textsOf vs).map fun s => (f s).length).sum := by
  induction ms generalizing vs scope run pending with
  | nil =>
      cases vs with
      | cons v vs => cases conform
      | nil => rfl
  | cons m ms ih =>
      cases vs with
      | nil => cases conform
      | cons v vs =>
          obtain ⟨first, -, -, later⟩ := conform
          have counted := @member_texts little _ _ nested _ _ f _ _ _ _ first
          rw [Value.mapTexts, Value.mapTexts, Value.textsOf, List.map_append, List.sum_append]
          cases isBits : m.type.isBits with
          | true =>
              obtain ⟨p, numbits, signExtend, type⟩ := exists_bits isBits
              have none : (v.texts.map fun s => (f s).length).sum = 0 := by
                have noBytes (w : Value) : leafBytes little bytes (.bits p numbits signExtend) w = [] := by
                  cases w <;> rfl
                rw [type] at counted
                simp only [List.flatMap_eq_nil_iff.mpr fun w _ => noBytes w, List.length_nil] at counted
                omega
              rw [wireFields_bits type, wireFields_bits type, bits_mapText, bits_mapText,
                ih vs _ _ _ later, none, Nat.zero_add]
          | false =>
              rw [wireFields_bytes isBits, wireFields_bytes isBits]
              simp only [List.length_append]
              rw [counted, ih vs _ _ [] later]
              omega

end Lengths

theorem wire_texts (Γ : Env) (little : Bool) (demands : Demands) (depth : Nat) :
    CountsTexts (wire Γ little depth) (Conforms Γ demands depth) := by
  induction depth with
  | zero =>
      intro name fields f conform
      cases conform
  | succ depth ih =>
      intro name fields f ⟨s, found, conform⟩
      simp only [wire, found]
      exact fields_texts ih f s.members fields [] 0 [] conform

section Cut

theorem cut_length (s : List Byte) : (cut s).length ≤ (whole s).length ∧
    ((cut s).length = (whole s).length ↔ 0 ∉ s) := by
  have le := List.takeWhile_sublist (l := s) (· ≠ 0) |>.length_le
  have exact : s.takeWhile (· ≠ 0) = s ↔ 0 ∉ s := by
    rw [List.takeWhile_eq_self_iff]
    constructor
    · intro plain member
      simpa using plain 0 member
    · intro noNul b member
      have : b ≠ 0 := fun zero => noNul (zero ▸ member)
      simpa using this
  simp only [cut, whole, List.length_append, List.length_singleton]
  refine ⟨by omega, ?_⟩
  rw [← exact]
  constructor
  · intro same
    exact (List.takeWhile_prefix _).eq_of_length (by omega)
  · intro same
    rw [same]

theorem sum_eq_iff {α : Type} {f g : α → Nat} {l : List α} (le : ∀ a ∈ l, f a ≤ g a) :
    (l.map f).sum ≤ (l.map g).sum ∧ ((l.map f).sum = (l.map g).sum ↔ ∀ a ∈ l, f a = g a) := by
  induction l with
  | nil => simp
  | cons a l ih =>
      obtain ⟨less, same⟩ := ih fun b member => le b (List.mem_cons_of_mem a member)
      have first := le a List.mem_cons_self
      rw [List.map_cons, List.map_cons, List.sum_cons, List.sum_cons, List.forall_mem_cons, ← same]
      omega

theorem wire_cut {Γ : Env} {little : Bool} {demands : Demands} {depth : Nat} {name : String} {fields : List Value}
    (conform : Conforms Γ demands depth name (Value.mapTexts cut fields)) :
    (wire Γ little depth name (Value.mapTexts cut fields)).length ≤
        (wire Γ little depth name (Value.mapTexts whole fields)).length ∧
      ((wire Γ little depth name (Value.mapTexts cut fields)).length =
        (wire Γ little depth name (Value.mapTexts whole fields)).length ↔
          ∀ s ∈ Value.textsOf fields, 0 ∉ s) := by
  rw [wire_texts Γ little demands depth name fields cut conform,
    wire_texts Γ little demands depth name fields whole conform]
  obtain ⟨less, same⟩ := sum_eq_iff (l := Value.textsOf fields) fun s _ => (cut_length s).1
  refine ⟨Nat.add_le_add_left less _, ?_⟩
  rw [Nat.add_left_cancel_iff, same]
  exact forall₂_congr fun s _ => (cut_length s).2

end Cut

section Reduce

theorem mapLeaves_mapText {g h : Value → Value} {f : List Byte → List Byte}
    (leaf : ∀ v, g (v.mapText f) = (h v).mapText f) (k : Nat) (v : Value) :
    mapLeaves g k (v.mapText f) = (mapLeaves h k v).mapText f := by
  induction k generalizing v with
  | zero => exact leaf v
  | succ k ih =>
      cases v with
      | array items =>
          simp only [Value.mapText, mapLeaves, Value.mapTexts_eq, List.map_map]
          congr 1
          exact List.map_congr_left fun item _ => ih item
      | _ => rfl

theorem reduceFields_mapTexts {f : List Byte → List Byte} {reduced : String → List Value → List Value}
    (nested : ∀ name fields, reduced name (Value.mapTexts f fields) = Value.mapTexts f (reduced name fields))
    (ms : List Member) (vs : List Value) :
    reduceFields reduced ms (Value.mapTexts f vs) = Value.mapTexts f (reduceFields reduced ms vs) := by
  induction ms generalizing vs with
  | nil => rfl
  | cons m ms ih =>
      cases vs with
      | nil => rfl
      | cons v vs =>
          rw [Value.mapTexts, reduceFields, reduceFields, Value.mapTexts, ih]
          congr 1
          refine mapLeaves_mapText (fun w => ?_) _ v
          cases m.type with
          | user name =>
              cases w with
              | struct fields => simp only [Value.mapText, reduceLeaf, nested]
              | _ => rfl
          | _ => cases w <;> rfl

theorem reduce_mapTexts (Γ : Env) (f : List Byte → List Byte) (depth : Nat) (name : String) (fields : List Value) :
    reduce Γ depth name (Value.mapTexts f fields) = Value.mapTexts f (reduce Γ depth name fields) := by
  induction depth generalizing name fields with
  | zero => rfl
  | succ depth ih =>
      rw [reduce, reduce]
      cases Γ.lookup name with
      | none => rfl
      | some s => exact reduceFields_mapTexts ih s.members fields

mutual

theorem mapText_mapText (f g : List Byte → List Byte) (v : Value) :
    (v.mapText g).mapText f = v.mapText (f ∘ g) := by
  cases v with
  | num n => rfl
  | str s => rfl
  | struct fields => exact congrArg Value.struct (mapTexts_mapTexts f g fields)
  | array items => exact congrArg Value.array (mapTexts_mapTexts f g items)

theorem mapTexts_mapTexts (f g : List Byte → List Byte) (vs : List Value) :
    Value.mapTexts f (Value.mapTexts g vs) = Value.mapTexts (f ∘ g) vs := by
  cases vs with
  | nil => rfl
  | cons v vs => rw [Value.mapTexts, Value.mapTexts, Value.mapTexts, mapText_mapText f g v, mapTexts_mapTexts f g vs]

end

mutual

theorem mapText_id (v : Value) : v.mapText id = v := by
  cases v with
  | num n => rfl
  | str s => rfl
  | struct fields => exact congrArg Value.struct (mapTexts_id fields)
  | array items => exact congrArg Value.array (mapTexts_id items)

theorem mapTexts_id (vs : List Value) : Value.mapTexts id vs = vs := by
  cases vs with
  | nil => rfl
  | cons v vs => rw [Value.mapTexts, mapText_id v, mapTexts_id vs]

end

theorem cut_whole {s : List Byte} (noNul : 0 ∉ s) : cut s = whole s := by
  have uncut : s.takeWhile (· ≠ 0) = s := by
    rw [List.takeWhile_eq_self_iff]
    intro b member
    simpa using fun zero : b = 0 => noNul (zero ▸ member)
  rw [cut, whole, uncut]

end Reduce

section Message

variable {Γ : Env} {options : Options} {depth : Nat} {name : String} {fields : List Value}

/-- Behind the fingerprint the bytes of the format are written, and nothing else. -/
theorem encode_writes_wire (accepted : Accepted Γ)
    (conform : Conforms Γ Demands.within depth name (Value.mapTexts cut fields))
    (hash : Nat) {offset maxlen : Nat} (buf : Mem Byte) (fits : offset + maxlen < 2 ^ 32) (half : maxlen < 2 ^ 31)
    (room : 8 + (wire Γ options.littleEndianEncoding depth name (Value.mapTexts cut fields)).length ≤ maxlen) :
    encode Γ options depth name hash offset maxlen (.struct fields) buf =
      .ok (8 + (wire Γ options.littleEndianEncoding depth name (Value.mapTexts cut fields)).length,
        buf.write offset (toBe 8 hash ++
          wire Γ options.littleEndianEncoding depth name (Value.mapTexts cut fields))) := by
  have header : encodeArray false .int64_t buf offset maxlen [hash] 1 = (8, buf.write offset (toBe 8 hash)) := by
    have written := @encodeArray_eq false .int64_t buf offset maxlen [hash] (by simp [Prim.size])
      (by simp only [Prim.size, List.length_singleton]; omega) (by omega)
    rw [List.flatMap_singleton] at written
    exact written
  have start : u32 (offset + 8) = offset + 8 := u32_of_lt (by omega)
  have left : u32Sub maxlen 8 = maxlen - 8 := u32Sub_of_le (by omega) (by omega)
  have body := encodeNoHash_written accepted options depth name fields (offset + 8) (maxlen - 8)
    (buf.write offset (toBe 8 hash)) (by omega) (by omega) conform (by omega)
  generalize wire Γ options.littleEndianEncoding depth name (Value.mapTexts cut fields) = bytes at room body ⊢
  have total : u32 (8 + bytes.length) = 8 + bytes.length := u32_of_lt (by omega)
  have head : returned (8, buf.write offset (toBe 8 hash)) = .ok (8, buf.write offset (toBe 8 hash)) := returned_ok 8 _
  rw [encode, header, head, ok_bind]
  simp only [start, left, body, ok_bind, total, asInt_of_lt (show 8 + bytes.length < 2 ^ 31 by omega)]
  rw [if_neg (by omega), Mem.write_append, toBe_length]

theorem getEncodedSize_eq (accepted : Accepted Γ) (within : Within Γ options depth name fields) :
    getEncodedSize Γ depth name (.struct fields) =
      .ok (8 + (wire Γ options.littleEndianEncoding depth name (Value.mapTexts whole fields)).length) := by
  have small := within.bytes
  have size := getEncodedSizeNoHash_eq accepted options.littleEndianEncoding depth name fields within.conforms
    (by omega)
    within.cells
  rw [getEncodedSize, size, ok_bind, u32_of_lt (by omega)]

/-- A message is published as what the format says of it, unless a string in it has a NUL. -/
theorem publish_exact (accepted : Accepted Γ) (within : Within Γ options depth name fields) (hash : Nat)
    (buf : Mem Byte) :
    publish Γ options depth name hash (.struct fields) buf =
      .ok (if ∀ s ∈ Value.textsOf fields, 0 ∉ s then
        some (toBe 8 hash ++ wire Γ options.littleEndianEncoding depth name (Value.mapTexts whole fields))
      else none) := by
  obtain ⟨le, same⟩ := @wire_cut _ options.littleEndianEncoding _ _ _ _ within.conforms
  have small := within.bytes
  have run := @encode_writes_wire _ options _ _ _ accepted within.conforms hash _ _ buf
    (show 0 + (8 + (wire Γ options.littleEndianEncoding depth name (Value.mapTexts whole fields)).length) < 2 ^ 32 by
      omega) (by omega) (by omega)
  rw [publish, getEncodedSize_eq accepted within, ok_bind, run]
  simp only [ne_eq, Nat.add_left_cancel_iff, same, ite_not]
  congr 1
  split
  next noNul =>
      have equal : Value.mapTexts cut fields = Value.mapTexts whole fields :=
        Value.mapTexts_congr fields fun s member => cut_whole (noNul s member)
      have length : 8 + (wire Γ options.littleEndianEncoding depth name (Value.mapTexts whole fields)).length =
          (toBe 8 hash ++ wire Γ options.littleEndianEncoding depth name (Value.mapTexts whole fields)).length := by
        rw [List.length_append, toBe_length]
      rw [equal, length, Mem.read_write_self]
  next => rfl

end Message

def notes : Env := [⟨"note", 0, [⟨.prim .int8_t, "n", []⟩, ⟨.prim .int16_t, "values", [.var "n"]⟩,
  ⟨.string, "text", []⟩, ⟨.bits .int8_t 3 true, "level", []⟩,
    ⟨.bits .int16_t 9 false, "code", [.const 2]⟩]⟩]

def note (text : List Byte) : List Value :=
  [.num 2, .array [.num 258, .num 7], .str text, .num 5, .array [.num 300, .num 1]]

theorem notes_accepted : Accepted notes := by
  simp [Accepted, notes, Typename.accepted, Prim.size, Prim.isFixedPoint]

theorem note_within (options : Options) {text : List Byte} (short : text.length ≤ 100) :
    Within notes options 1 "note" (note text) where
  conforms := by
    obtain ⟨plain, rest, noNul, same, -⟩ := cut_spec text
    refine ⟨_, rfl, ?_⟩
    simp [note, Value.mapTexts, Value.mapText, ConformsFields, ConformsDims, ConformsLeaf, Member.extents,
      Member.extentsFrom, Member.isConstantSizeArray, Demands.within, runAfter, leaves, IsLength, reduceLeaf,
      Scope.push, Scope.dimSize, Typename.unit, Prim.size, Prim.toInt, same]
    exact noNul
  bytes := by
    simp [wire, notes, note, Env.lookup, wireFields, Value.mapTexts, Value.mapText, leaves, leafBytes, whole, bitsOf,
      Prim.size, packedSize]
    omega
  cells := by
    simp only [note, Value.cellsOf, Value.cells]
    omega

theorem note_encodes :
    encode notes ⟨true, false⟩ 1 "note" 5 16 64 (.struct (note [72, 105])) (fun _ => 255) =
      .ok (8 + (wire notes true 1 "note" (Value.mapTexts cut (note [72, 105]))).length,
        Mem.write (fun _ => 255) 16
          (toBe 8 5 ++ wire notes true 1 "note" (Value.mapTexts cut (note [72, 105])))) := by
  have short : ([72, 105] : List Byte).length ≤ 100 := by decide
  have within := note_within ⟨true, false⟩ short
  have room : 8 + (wire notes true 1 "note" (Value.mapTexts cut (note [72, 105]))).length ≤ 64 := by
    simp [wire, notes, note, Env.lookup, wireFields, Value.mapTexts, Value.mapText, leaves, leafBytes, cut, bitsOf,
      Prim.size, packedSize]
  exact encode_writes_wire notes_accepted within.conforms 5 (fun _ => 255) (by decide) (by decide) room

/-- A note is published with the text Hi, and not with a NUL in between. -/
theorem note_published :
    (∃ bytes, publish notes ⟨true, false⟩ 1 "note" 5 (.struct (note [72, 105])) (fun _ => 0) =
      .ok (some bytes)) ∧
      publish notes ⟨true, false⟩ 1 "note" 5 (.struct (note [72, 0, 105])) (fun _ => 0) = .ok none := by
  have two : ([72, 105] : List Byte).length ≤ 100 := by decide
  have three : ([72, 0, 105] : List Byte).length ≤ 100 := by decide
  have plain := publish_exact notes_accepted (note_within ⟨true, false⟩ two) 5 fun _ => 0
  have split := publish_exact notes_accepted (note_within ⟨true, false⟩ three) 5 fun _ => 0
  rw [if_pos (by simp [note, Value.textsOf, Value.texts])] at plain
  rw [if_neg (by simp [note, Value.textsOf, Value.texts])] at split
  exact ⟨⟨_, plain⟩, split⟩

end Zcm.Cpp
