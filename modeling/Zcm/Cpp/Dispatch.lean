import Zcm.Cpp.Publish

namespace Zcm.Cpp
open Zcm.Lib Zcm.Gen Zcm.Coretypes

/-- What the reader of the format makes of a message with its fingerprint. -/
def parseMessage (Γ : Env) (options : Options) (depth : Nat) (name : String) (getHash : Nat) (bytes : List Byte) :
    Except Failure (List Value) := do
  let (header, rest) ← takeBytes 8 bytes
  if ofBe header ≠ getHash then .error .rejected
  else do
    let (fields, _) ← parse Γ rules options.littleEndianEncoding depth name rest
    .ok fields

section Dispatch

variable {Γ : Env} (accepted : Accepted Γ) (options : Options) (depth : Nat) (name : String) (getHash : Nat)

theorem decodeArray_fingerprint (buf : Mem Byte) {dataSize : Nat} :
    decodeArray false .int64_t buf 0 dataSize 1 = if dataSize < 8 then (-1, []) else (8, [ofBe (buf.read 0 8)]) := by
  have small : Prim.int64_t.size * 1 < 2 ^ 31 := by decide
  split
  next short => exact decodeArray_short false .int64_t buf small short
  next long => exact decodeArray_eq false .int64_t buf small (Nat.le_of_not_lt long) (by decide)

include accepted in
theorem decode_read {buf : Mem Byte} {dataSize n hash : Nat}
    (read : decodeArray false .int64_t buf 0 dataSize 1 = ((n : Int), [hash])) (old : Value) :
    decode Γ options buf depth name getHash 0 dataSize old =
      if hash = getHash then
        (readNoHash Γ options buf depth name (u32 (0 + n)) (u32Sub dataSize n)).map fun r =>
          (u32 (n + r.1), r.2.apply old)
      else .error (.returned (-1)) := by
  have nonneg : ¬ (n : Int) < 0 := by omega
  simp only [decode, read, List.headD_cons, nonneg, if_false, Int.toNat_natCast,
    decodeNoHash_eq accepted options buf depth name]
  by_cases same : hash = getHash
  · simp only [ne_eq, same, not_true_eq_false, if_false, if_true]
    cases readNoHash Γ options buf depth name (u32 (0 + n)) (u32Sub dataSize n) <;> rfl
  · simp only [ne_eq, same, not_false_eq_true, if_false, if_true]

include accepted in
theorem decode_eq (buf : Mem Byte) {dataSize : Nat} (half : dataSize < 2 ^ 31) (old : Value) :
    decode Γ options buf depth name getHash 0 dataSize old =
      if dataSize < 8 then .error (.returned (-1))
      else if ofBe (buf.read 0 8) = getHash then
        (readNoHash Γ options buf depth name 8 (dataSize - 8)).map fun r => (u32 (8 + r.1), r.2.apply old)
      else .error (.returned (-1)) := by
  have header := @decodeArray_fingerprint buf dataSize
  by_cases short : dataSize < 8
  · rw [if_pos short] at header ⊢
    rw [decode, header]
    exact if_pos (Int.negSucc_lt_zero 0)
  · have left : u32Sub dataSize 8 = dataSize - 8 := u32Sub_of_le (by omega) (by omega)
    have here : u32 (0 + 8) = 8 := by decide
    rw [if_neg short] at header ⊢
    rw [decode_read accepted options depth name getHash (n := 8) header, here, left]

include accepted in
/-- On every message the subscription of a type does what the reader of the format says. -/
theorem typedDispatch_refines (buf : Mem Byte) {dataSize : Nat} (half : dataSize < 2 ^ 31) :
    Refines (fun fields v => v = .struct (Value.mapTexts List.dropLast fields))
      (parseMessage Γ options depth name getHash (buf.read 0 dataSize))
      (typedDispatch Γ options buf depth name getHash dataSize (fresh Γ options depth name)) := by
  rw [parseMessage, takeBytes, Mem.read_length, typedDispatch, decode_eq accepted options depth name getHash buf half]
  by_cases short : dataSize < 8
  · rw [if_pos short, if_neg (by omega)]
    exact .short (by decide)
  · rw [if_neg short, if_pos (by omega), ok_bind, read_take buf (by omega), read_drop, Nat.zero_add]
    by_cases same : ofBe (buf.read 0 8) = getHash
    · have body := readNoHash_refines accepted options buf depth name 8 (dataSize - 8) (by omega) (by omega)
      simp only [same, ne_eq, not_true_eq_false, if_false, if_true]
      generalize parse Γ rules options.littleEndianEncoding depth name (buf.read 8 (dataSize - 8)) = x at body ⊢
      generalize readNoHash Γ options buf depth name 8 (dataSize - 8) = y at body ⊢
      cases body with
      | ok related => exact .ok related.2.2
      | short negative => exact .short negative
      | rejected negative => exact .rejected negative
      | negative => exact .negative
      | depth => exact .depth
      | oversize y => exact .oversize _
    · simp only [ne_eq, same, not_false_eq_true, if_true, if_false]
      exact .rejected (by decide)

end Dispatch

theorem reads : Reads rules Demands.within where
  extent e within nonneg := by
    change (if e.count < 0 then _ else _) = _
    rw [if_neg (Int.not_lt.mpr nonneg)]
    exact if_pos within
  text n avail positive _ le := by
    change (if (n : Int) < 0 ∨ (avail : Int) < n then _ else _) = _
    rw [if_neg (by omega), if_neg (by omega), Int.toNat_natCast]

theorem dropLast_cut {s : List Byte} (noNul : 0 ∉ s) : (cut s).dropLast = s := by
  rw [cut_whole noNul, whole, List.dropLast_concat]

section Published

variable {Γ : Env} {options : Options} {depth : Nat} {name : String} {fields : List Value}

theorem parseMessage_published (within : Within Γ options depth name fields) {getHash : Nat} (word : getHash < 2 ^ 64)
    (noNul : ∀ s ∈ Value.textsOf fields, 0 ∉ s) : parseMessage Γ options depth name getHash
        (toBe 8 getHash ++ wire Γ options.littleEndianEncoding depth name (Value.mapTexts whole fields)) =
      .ok (Value.mapTexts cut (reduce Γ depth name fields)) := by
  have equal : Value.mapTexts cut fields = Value.mapTexts whole fields :=
    Value.mapTexts_congr fields fun s member => cut_whole (noNul s member)
  have small := within.bytes
  have taken := takeBytes_append (toBe 8 getHash)
    (wire Γ options.littleEndianEncoding depth name (Value.mapTexts whole fields))
  rw [toBe_length] at taken
  have parsed := parse_wire reads trivial options.littleEndianEncoding depth name (Value.mapTexts cut fields) []
    within.conforms (by rw [equal]; omega)
  rw [List.append_nil, reduce_mapTexts, equal] at parsed
  rw [parseMessage, taken, ok_bind]
  simp only [ofBe_toBe_of_lt (k := 8) word, ne_eq, not_true_eq_false, if_false, parsed, ok_bind]

/-- What was published is shown to the handlers of its type, up to the bits that its bitfields do not have. -/
theorem typedDispatch_published (accepted : Accepted Γ) (within : Within Γ options depth name fields) {getHash : Nat}
    (word : getHash < 2 ^ 64) {old : Mem Byte} {bytes : List Byte}
    (published : publish Γ options depth name getHash (.struct fields) old = .ok (some bytes)) {buf : Mem Byte}
    (arrived : buf.read 0 bytes.length = bytes) :
    typedDispatch Γ options buf depth name getHash bytes.length (fresh Γ options depth name) =
      .ok (.struct (reduce Γ depth name fields)) := by
  have sent := publish_exact accepted within getHash old
  rw [published] at sent
  by_cases noNul : ∀ s ∈ Value.textsOf fields, 0 ∉ s
  · rw [if_pos noNul] at sent
    cases sent
    have small : (toBe 8 getHash ++
        wire Γ options.littleEndianEncoding depth name (Value.mapTexts whole fields)).length < 2 ^ 31 := by
      rw [List.length_append, toBe_length]
      exact within.bytes
    have plain : Value.mapTexts (List.dropLast ∘ cut) fields = fields := calc
      Value.mapTexts (List.dropLast ∘ cut) fields = Value.mapTexts id fields :=
        Value.mapTexts_congr fields fun s member => dropLast_cut (noNul s member)
      _ = fields := mapTexts_id fields
    have refines := typedDispatch_refines accepted options depth name getHash buf small
    rw [arrived, parseMessage_published within word noNul] at refines
    generalize typedDispatch Γ options buf depth name getHash _ _ = shown at refines ⊢
    cases refines with
    | ok same =>
        rw [same, ← reduce_mapTexts, ← reduce_mapTexts, mapTexts_mapTexts, plain]
  · rw [if_neg noNul] at sent
    cases sent

end Published

theorem note_shown : ∃ bytes,
    publish notes ⟨false, true⟩ 1 "note" 5 (.struct (note [72, 105])) (fun _ => 0) = .ok (some bytes) ∧
      typedDispatch notes ⟨false, true⟩ (Mem.write (fun _ => 0) 0 bytes) 1 "note" 5 bytes.length
          (fresh notes ⟨false, true⟩ 1 "note") =
        .ok (.struct [.num 2, .array [.num 258, .num 7], .str [72, 105], .num 253, .array [.num 300, .num 1]]) := by
  have short : ([72, 105] : List Byte).length ≤ 100 := by decide
  have within := note_within ⟨false, true⟩ short
  have published := publish_exact notes_accepted within 5 fun _ => 0
  rw [if_pos (by simp [note, Value.textsOf, Value.texts])] at published
  refine ⟨_, published, ?_⟩
  exact typedDispatch_published notes_accepted within (by decide) published (Mem.read_write_self _ _ _)

def negativeNote (length : List Byte) : List Byte := [0, 0, 0, 0, 0, 0, 0, 5, 255] ++ length

/-- A row of -1 numbers is skipped, a text without its terminator throws. -/
theorem note_throws :
    (∃ r, r < 0 ∧ typedDispatch notes ⟨false, true⟩ (Mem.write (fun _ => 0) 0 (negativeNote [])) 1 "note" 5 9
        (fresh notes ⟨false, true⟩ 1 "note") = .error (.returned r)) ∧
      typedDispatch notes ⟨false, true⟩ (Mem.write (fun _ => 0) 0 (negativeNote [0, 0, 0, 0])) 1 "note" 5 13
        (fresh notes ⟨false, true⟩ 1 "note") = .error .thrown := by
  have ends := typedDispatch_refines notes_accepted ⟨false, true⟩ 1 "note" 5
    (Mem.write (fun _ => 0) 0 (negativeNote [])) (show 9 < 2 ^ 31 by decide)
  have throws := typedDispatch_refines notes_accepted ⟨false, true⟩ 1 "note" 5
    (Mem.write (fun _ => 0) 0 (negativeNote [0, 0, 0, 0])) (show 13 < 2 ^ 31 by decide)
  obtain ⟨skipped, unterminated⟩ :
      parseMessage notes ⟨false, true⟩ 1 "note" 5 (negativeNote []) = .error .short ∧
        parseMessage notes ⟨false, true⟩ 1 "note" 5 (negativeNote [0, 0, 0, 0]) = .error .negative := by
    constructor <;>
      simp [parseMessage, negativeNote, takeBytes, notes, parse, Env.lookup, parseFields, parseDims, parseLeaf,
        Member.extents, Member.extentsFrom, Scope.push, Scope.dimSize, Cursor.align, Prim.size, rules,
        Typename.isBits, repeatRead, Typename.unit, ofNumBytes, Prim.toInt, ofBe, Dimension.isVar, bind, Except.bind]
  have nine : Mem.read (Mem.write (fun _ => 0) 0 (negativeNote [])) 0 9 = negativeNote [] :=
    Mem.read_write_self _ _ _
  have thirteen : Mem.read (Mem.write (fun _ => 0) 0 (negativeNote [0, 0, 0, 0])) 0 13 = negativeNote [0, 0, 0, 0] :=
    Mem.read_write_self _ _ _
  rw [nine, skipped] at ends
  rw [thirteen, unterminated] at throws
  constructor
  · generalize typedDispatch notes _ _ _ _ _ _ _ = shown at ends ⊢
    cases ends with
    | short negative => exact ⟨_, negative, rfl⟩
  · generalize typedDispatch notes _ _ _ _ _ _ _ = shown at throws ⊢
    cases throws with
    | negative => rfl

end Zcm.Cpp
