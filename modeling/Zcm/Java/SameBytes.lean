import Zcm.Java.Stands

namespace Zcm.Java
open Zcm.Lib Zcm.Gen Zcm.Coretypes

structure BitRow where
  p : Prim
  numbits : Nat
  patterns : List Nat
  narrow : numbits ≤ 8 * p.size
  indexed : patterns.length < 2 ^ 31

/-- What stands between two positions that are not inside a byte: members that are not bitfields, row by row, and
the groups of bitfields. A nested struct is its own members. A float or a double is the pattern that
floatToIntBits or doubleToLongBits gives. -/
inductive Piece
  | scalar (p : Prim) (v : Nat) (flag : p = .boolean → v < 2)
  | row (p : Prim) (vs : List Nat) (flags : p = .boolean → ∀ v ∈ vs, v < 2)
  | text (s : CString)
  | bitfield (rows : List BitRow)

section Emitted

def toLong (p : Prim) (v : Nat) : Nat := (p.toInt v % 2 ^ 64).toNat

def primCall : Prim → Nat → Call
  | .byte, v => .writeByte v
  | .int8_t, v => .writeByte v
  | .int16_t, v => .writeShort v
  | .int32_t, v => .writeInt v
  | .int64_t, v => .writeLong v
  | .boolean, v => .writeByte (if v ≠ 0 then 1 else 0)
  | .float, v => .writeInt v
  | .double, v => .writeLong v

def storageIsByte : Prim → Bool
  | .byte => true
  | .int8_t => true
  | _ => false

def Piece.calls : Piece → List Call
  | .scalar p v _ => [primCall p v]
  | .row p vs _ =>
      if storageIsByte p then if 0 < vs.length then [.writeArray (vs.map (BitVec.ofNat 8))] else []
      else vs.map (primCall p)
  | .text s => .writeInt (s.chars.length + 1) :: (s.chars.map fun c => .write c.toNat) ++ [.writeByte 0]
  | .bitfield rows =>
      (rows.flatMap fun r => r.patterns.map fun v => .writeBits (toLong r.p v) r.numbits) ++ [.resetBits]

variable (offset maxlen : Nat)

def BitRow.encode (st : BitPos × Mem Byte) (r : BitRow) : Except Int (BitPos × Mem Byte) := do
  let (pos, buf) := st
  let (thislen, buf) ← returns
    (encodeArrayBits buf (u32 (offset + pos.byte)) pos.bit
    (u32Sub maxlen pos.byte) r.patterns r.patterns.length r.numbits)
  .ok (bitfieldAdvanceOffset pos thislen, buf)

def encodeCall (st : Nat × Mem Byte) (call : Mem Byte → Nat → Nat → Int × Mem Byte) :
    Except Int (Nat × Mem Byte) := do
  let (pos, buf) := st
  let (thislen, buf) ← returns (call buf (u32 (offset + pos)) (u32Sub maxlen pos))
  .ok (u32 (pos + thislen), buf)

def Piece.encode (st : Nat × Mem Byte) : Piece → Except Int (Nat × Mem Byte)
  | .scalar p v _ => encodeCall offset maxlen st fun buf offset maxlen => encodeArray false p buf offset maxlen [v] 1
  | .row p vs _ =>
      encodeCall offset maxlen st fun buf offset maxlen => encodeArray false p buf offset maxlen vs vs.length
  | .text s => encodeCall offset maxlen st fun buf offset maxlen =>
      stringEncodeArray false buf offset maxlen [s.chars ++ [0]] 1
  | .bitfield rows => do
      let (pos, buf) := st
      let (pos, buf) ← rows.foldlM (BitRow.encode offset maxlen) (⟨pos, 0⟩, buf)
      .ok (if pos.bit ≠ 0 then u32 (pos.byte + 1) else pos.byte, buf)

end Emitted

def BitRow.Counted (r : BitRow) : Prop := r.patterns.length * r.numbits < 2 ^ 31

def Piece.Counted : Piece → Prop
  | .bitfield rows => ∀ r ∈ rows, r.Counted
  | _ => True

def Sound : ZCMDataOutputStream → List Call → Prop
  | _, [] => True
  | s, call :: calls => call.Fits s ∧ ∀ s', call.run s = some s' → Sound s' calls

section Spec

def BitRow.bits (r : BitRow) : List Bool := r.patterns.flatMap (toBits r.numbits)

def Piece.bytes : Piece → List Byte
  | .scalar p v _ => numBytes false p v
  | .row p vs _ => vs.flatMap (numBytes false p)
  | .text s => textBytes false (s.chars ++ [0])
  | .bitfield rows => pack (rows.flatMap BitRow.bits)

end Spec

section Run

def Call.after (n : Nat) : Call → Nat
  | .resetBits => 8 * packedSize n
  | .writeBits _ numbits => n + numbits
  | .writeArray b => n + 8 * b.length
  | .write _ => n + 8 * 1
  | .writeByte _ => n + 8 * 1
  | .writeShort _ => n + 8 * 2
  | .writeInt _ => n + 8 * 4
  | .writeLong _ => n + 8 * 8

def Placed : Nat → List Call → Prop
  | _, [] => True
  | n, call :: calls => (call.bytes ≠ none → n % 8 = 0) ∧ Placed (call.after n) calls

theorem append_length (bs : List Bool) (call : Call) : (call.append bs).length = call.after bs.length := by
  cases call with
  | resetBits => exact align_length bs
  | writeBits value numbits => rw [Call.append, Call.after, List.length_append, toBits_length]
  | writeArray b => rw [Call.append, Call.after, List.length_append, unpack_length]
  | _ => rw [Call.append, Call.after, List.length_append, unpack_length, toBe_length]

theorem append_eq (call : Call) (n : Nat) :
    ∃ xs, ∀ bs : List Bool, bs.length = n → call.append bs = bs ++ xs := by
  cases call with
  | resetBits =>
      exact ⟨List.replicate (8 * packedSize n - n) false, fun bs length => by rw [Call.append, align, length]⟩
  | writeBits value numbits => exact ⟨toBits numbits value, fun _ _ => rfl⟩
  | _ => exact ⟨_, fun _ _ => rfl⟩

theorem call_cases (s : ZCMDataOutputStream) (call : Call) : call = .resetBits ∨
    (∃ value numbits, call = .writeBits value numbits) ∨
    ∃ bytes, call.bytes = some bytes ∧ call.run s = s.put bytes ∧ (call.Fits s ↔ BytesFit s bytes.length) ∧
      ∀ bs, call.append bs = bs ++ unpack bytes := by
  cases call with
  | resetBits => exact .inl rfl
  | writeBits value numbits => exact .inr (.inl ⟨value, numbits, rfl⟩)
  | writeArray b => exact .inr (.inr ⟨b, rfl, rfl, Iff.rfl, fun _ => rfl⟩)
  | write b => exact .inr (.inr ⟨toBe 1 b, rfl, rfl, by rw [toBe_length]; rfl, fun _ => rfl⟩)
  | writeByte v => exact .inr (.inr ⟨toBe 1 v, rfl, rfl, by rw [toBe_length]; rfl, fun _ => rfl⟩)
  | writeShort v => exact .inr (.inr ⟨toBe 2 v, rfl, rfl, by rw [toBe_length]; rfl, fun _ => rfl⟩)
  | writeInt v => exact .inr (.inr ⟨toBe 4 v, rfl, rfl, by rw [toBe_length]; rfl, fun _ => rfl⟩)
  | writeLong v => exact .inr (.inr ⟨toBe 8 v, rfl, rfl, by rw [toBe_length]; rfl, fun _ => rfl⟩)

theorem Stands.step {s : ZCMDataOutputStream} {bs : List Bool} {call : Call} (stands : Stands s bs)
    (placed : call.bytes ≠ none → bs.length % 8 = 0) (fits : call.Fits s) :
    ∃ s', call.run s = some s' ∧ Stands s' (call.append bs) := by
  rcases call_cases s call with rfl | ⟨value, numbits, rfl⟩ | ⟨bytes, whole, run, fit, append⟩
  · exact ⟨_, rfl, stands.resetBits⟩
  · exact stands.writeBits fits
  · rw [run, append]
    exact stands.put (placed (by rw [whole]; nofun)) (fit.mp fits)

def Lost (bs cs : List Bool) : Prop := bs.length = cs.length ∧ ∃ i : Nat, bs[i]? = some false ∧ cs[i]? = some true

theorem clear_getElem? (bs : List Bool) (i : Nat) :
    (clear bs)[i]? = if i < 8 * (bs.length / 8) then bs[i]? else if i < bs.length then some false else none := by
  have front : (bs.take (8 * (bs.length / 8))).length = 8 * (bs.length / 8) := by
    rw [List.length_take]
    omega
  rw [clear]
  split
  next inside =>
      rw [List.getElem?_append_left (by omega), List.getElem?_take, if_pos inside]
  next behind =>
      rw [List.getElem?_append_right (by omega), front, List.getElem?_replicate]
      split <;> split <;> first | rfl | omega

theorem Lost.clear {bs cs : List Bool} (lost : Lost bs cs) : Lost (Java.clear bs) cs := by
  obtain ⟨length, i, zero, one⟩ := lost
  refine ⟨(clear_length bs).trans length, i, ?_, one⟩
  have inside : i < bs.length := (List.getElem?_eq_some_iff.mp zero).1
  rw [clear_getElem?]
  split
  · exact zero
  · rfl

theorem Lost.append {bs cs : List Bool} (lost : Lost bs cs) (call : Call) : Lost (call.append bs) (call.append cs) := by
  obtain ⟨length, i, zero, one⟩ := lost
  obtain ⟨xs, adds⟩ := append_eq call cs.length
  have inside : i < bs.length := (List.getElem?_eq_some_iff.mp zero).1
  rw [adds bs length, adds cs rfl]
  refine ⟨by rw [List.length_append, List.length_append, length], i, ?_, ?_⟩
  · rw [List.getElem?_append_left inside, zero]
  · rw [List.getElem?_append_left (by omega), one]

theorem Stands.run {calls : List Call} {s : ZCMDataOutputStream} {bs : List Bool} (stands : Stands s bs)
    (placed : Placed bs.length calls) (sound : Sound s calls) :
    ∃ s', calls.foldlM Call.run s = some s' ∧ Stands s' (calls.foldl Call.append bs) := by
  induction calls generalizing s bs with
  | nil => exact ⟨s, rfl, stands⟩
  | cons call calls ih =>
      obtain ⟨t, ran, stands'⟩ := stands.step placed.1 sound.1
      have later := ih stands' (by rw [append_length]; exact placed.2) (sound.2 t ran)
      rw [List.foldlM_cons, ran]
      exact later

end Run

section Calls

end Calls

section Encoders
variable {offset maxlen : Nat}

theorem encodeCall_eq {pos : Nat} {buf : Mem Byte} {bytes : List Byte} (room : pos + bytes.length ≤ maxlen)
    (fits : offset + maxlen < 2 ^ 32) {call : Mem Byte → Nat → Nat → Int × Mem Byte}
    (exact : ∀ start : Nat, start + (maxlen - pos) < 2 ^ 32 →
      call buf start (maxlen - pos) = ((bytes.length : Int), buf.write start bytes)) :
    encodeCall offset maxlen (pos, buf) call = .ok (pos + bytes.length, buf.write (offset + pos) bytes) := by
  have start : u32 (offset + pos) = offset + pos := u32_of_lt (by omega)
  have left : u32Sub maxlen pos = maxlen - pos := u32Sub_of_le (by omega) (by omega)
  have next : u32 (pos + bytes.length) = pos + bytes.length := u32_of_lt (by omega)
  rw [encodeCall]
  simp only
  rw [start, left, exact (offset + pos) (by omega), returns_ok, ok_bind]
  simp only [next]

theorem BitRow.encode_eq {r : BitRow} (counted : r.Counted) {pos : Nat} (m : Mem Byte) (bs : List Bool)
    (room : pos + (bs.length + r.bits.length + 7) / 8 ≤ maxlen) (fits : offset + maxlen < 2 ^ 32) :
    r.encode offset maxlen (⟨pos + bs.length / 8, bs.length % 8⟩, m.write (offset + pos) (pack bs)) =
      .ok (⟨pos + (bs ++ r.bits).length / 8, (bs ++ r.bits).length % 8⟩, m.write (offset + pos)
        (pack (bs ++ r.bits))) := by
  have size : r.bits.length = r.patterns.length * r.numbits := by
    rw [BitRow.bits, List.length_flatMap]
    simp
  rw [size] at room
  have start : u32 (offset + (pos + bs.length / 8)) = offset + pos + bs.length / 8 := by
    rw [u32_of_lt (by omega)]
    omega
  have left : u32Sub maxlen (pos + bs.length / 8) = maxlen - (pos + bs.length / 8) := u32Sub_of_le (by omega) (by omega)
  rw [BitRow.encode]
  simp only [start, left]
  rw [encodeArrayBits_eq m bs counted (by omega) (by omega), returns_ok, ok_bind]
  simp only
  rw [bitfieldAdvanceOffset_eq (by omega), List.length_append, size, BitRow.bits]

theorem encode_rows_eq {rows : List BitRow} (counted : ∀ r ∈ rows, r.Counted) {pos : Nat} (m : Mem Byte)
    (bs : List Bool)
    (room : pos + (bs.length + (rows.flatMap BitRow.bits).length + 7) / 8 ≤ maxlen)
    (fits : offset + maxlen < 2 ^ 32) :
    rows.foldlM (BitRow.encode offset maxlen)
        (⟨pos + bs.length / 8, bs.length % 8⟩, m.write (offset + pos) (pack bs)) =
      .ok (⟨pos + (bs ++ rows.flatMap BitRow.bits).length / 8, (bs ++ rows.flatMap BitRow.bits).length % 8⟩,
        m.write (offset + pos) (pack (bs ++ rows.flatMap BitRow.bits))) := by
  induction rows generalizing bs with
  | nil =>
      rw [List.flatMap_nil, List.append_nil]
      rfl
  | cons r rows ih =>
      rw [List.flatMap_cons, List.length_append] at room
      rw [List.foldlM_cons, BitRow.encode_eq (counted r List.mem_cons_self) m bs (by omega) fits, ok_bind,
        ih (fun r' member => counted r' (List.mem_cons_of_mem r member)) (bs ++ r.bits)
          (by rw [List.length_append]; omega), List.flatMap_cons, List.append_assoc]

theorem Piece.encode_eq {piece : Piece} (counted : piece.Counted) {pos : Nat} (buf : Mem Byte)
    (room : pos + piece.bytes.length ≤ maxlen) (small : piece.bytes.length < 2 ^ 31)
    (fits : offset + maxlen < 2 ^ 32) :
    piece.encode offset maxlen (pos, buf) = .ok (pos + piece.bytes.length, buf.write (offset + pos) piece.bytes) := by
  cases piece with
  | scalar p v flag =>
      rw [Piece.encode]
      apply encodeCall_eq room fits
      intro start fits'
      rw [Piece.bytes, numBytes_length] at room small ⊢
      have exact := @encodeArray_eq false p buf start (maxlen - pos) [v] (by rw [List.length_singleton]; omega)
        (by rw [List.length_singleton]; omega) (by omega)
      rw [List.length_singleton, Nat.mul_one, List.flatMap_singleton] at exact
      exact exact
  | row p vs flags =>
      rw [Piece.encode]
      apply encodeCall_eq room fits
      intro start fits'
      rw [Piece.bytes, flatMap_numBytes_length] at room small ⊢
      exact encodeArray_eq false p buf small (by omega) (by omega)
  | text s =>
      rw [Piece.encode]
      apply encodeCall_eq room fits
      intro start fits'
      rw [Piece.bytes] at room small ⊢
      exact stringEncodeArray_eq false (by omega) (by omega) s.noNul buf (by omega) small
  | bitfield rows =>
      rw [Piece.bytes, pack_length, packedSize] at room small ⊢
      have start : (⟨pos, 0⟩ : BitPos) = ⟨pos + ([] : List Bool).length / 8, ([] : List Bool).length % 8⟩ := rfl
      have empty : buf = buf.write (offset + pos) (pack []) := by rw [pack_nil, Mem.write_nil]
      have run := @encode_rows_eq offset maxlen rows counted pos buf [] (by rw [List.length_nil]; omega) fits
      rw [← empty, ← start, List.nil_append] at run
      rw [Piece.encode]
      simp only
      rw [run, ok_bind]
      simp only
      generalize rows.flatMap BitRow.bits = bits at *
      by_cases whole : bits.length % 8 = 0
      · rw [if_neg (by omega)]
        congr 2
        omega
      · rw [if_pos whole, u32_of_lt (by omega)]
        congr 2
        omega

theorem BitRow.encode_short {r : BitRow} {start n missing : Nat} {buf : Mem Byte} {st : BitPos × Mem Byte}
    {pos : BitPos} (here : 8 * pos.byte + pos.bit + 2 ^ 32 * missing = 8 * start + n) (bit : pos.bit < 8)
    (small : start + (n + r.bits.length + 7) / 8 < 2 ^ 32) (ran : r.encode offset maxlen (pos, buf) = .ok st) :
    ∃ missing', 8 * st.1.byte + st.1.bit + 2 ^ 32 * missing' = 8 * start + (n + r.bits.length) ∧ st.1.bit < 8 ∧
      missing ≤ missing' ∧ (missing' = 0 → r.Counted) := by
  have size : r.bits.length = r.patterns.length * r.numbits := by
    rw [BitRow.bits, List.length_flatMap]
    simp
  rw [size] at small ⊢
  rw [BitRow.encode] at ran
  cases returned : returns (encodeArrayBits buf (u32 (offset + pos.byte)) pos.bit (u32Sub maxlen pos.byte) r.patterns
    r.patterns.length r.numbits) with
  | error e =>
      simp only [returned] at ran
      cases ran
  | ok result =>
      obtain ⟨k, buf'⟩ := result
      simp only [returned] at ran
      cases ran
      obtain ⟨count, half⟩ := encodeArrayBits_returns returned
      have wraps := Nat.mod_add_div (r.patterns.length * r.numbits) (2 ^ 32)
      rw [← count] at wraps
      simp only at wraps half
      have place : pos = ⟨0 + (8 * pos.byte + pos.bit) / 8, (8 * pos.byte + pos.bit) % 8⟩ := by
        cases pos
        simp only [BitPos.mk.injEq]
        simp only at bit
        omega
      have advanced := @bitfieldAdvanceOffset_eq 0 (8 * pos.byte + pos.bit) k (by omega)
      rw [← place] at advanced
      rw [advanced]
      refine ⟨missing + r.patterns.length * r.numbits / 2 ^ 32, ?_, Nat.mod_lt _ (by decide), by omega, ?_⟩
      · simp only
        omega
      · intro none
        rw [BitRow.Counted]
        omega

theorem encode_rows_short {rows : List BitRow} {start n missing : Nat} {buf : Mem Byte} {st : BitPos × Mem Byte}
    {pos : BitPos} (here : 8 * pos.byte + pos.bit + 2 ^ 32 * missing = 8 * start + n) (bit : pos.bit < 8)
    (small : start + (n + (rows.flatMap BitRow.bits).length + 7) / 8 < 2 ^ 32)
    (ran : rows.foldlM (BitRow.encode offset maxlen) (pos, buf) = .ok st) :
    ∃ missing', 8 * st.1.byte + st.1.bit + 2 ^ 32 * missing' = 8 * start + (n + (rows.flatMap BitRow.bits).length) ∧
      st.1.bit < 8 ∧ missing ≤ missing' ∧ (missing' = 0 → ∀ r ∈ rows, r.Counted) := by
  induction rows generalizing pos buf n missing with
  | nil =>
      cases ran
      exact ⟨missing, by rw [List.flatMap_nil, List.length_nil, Nat.add_zero]; exact here, bit, Nat.le_refl _,
        nofun⟩
  | cons r rows ih =>
      rw [List.flatMap_cons, List.length_append] at small ⊢
      rw [List.foldlM_cons] at ran
      cases first : r.encode offset maxlen (pos, buf) with
      | error e =>
          rw [first] at ran
          cases ran
      | ok st₁ =>
          rw [first, ok_bind] at ran
          obtain ⟨missing₁, here₁, bit₁, le₁, counted₁⟩ := BitRow.encode_short here bit (by omega) first
          obtain ⟨missing₂, here₂, bit₂, le₂, counted₂⟩ := ih here₁ bit₁ (by omega) ran
          refine ⟨missing₂, by omega, bit₂, by omega, ?_⟩
          intro none r' member
          cases member with
          | head => exact counted₁ (by omega)
          | tail _ member => exact counted₂ none r' member

theorem Piece.encode_short {piece : Piece} {pos : Nat} {buf : Mem Byte} {st : Nat × Mem Byte}
    (room : pos + piece.bytes.length ≤ maxlen) (small : piece.bytes.length < 2 ^ 31) (fits : offset + maxlen < 2 ^ 32)
    (ran : piece.encode offset maxlen (pos, buf) = .ok st) :
    ∃ missing, st.1 + 2 ^ 29 * missing = pos + piece.bytes.length ∧ (missing = 0 → piece.Counted) := by
  have whole (counted : piece.Counted) :
      ∃ missing, st.1 + 2 ^ 29 * missing = pos + piece.bytes.length ∧ (missing = 0 → piece.Counted) := by
    rw [Piece.encode_eq counted buf room small fits] at ran
    cases ran
    exact ⟨0, by omega, fun _ => counted⟩
  cases piece with
  | scalar p v flag => exact whole trivial
  | row p vs flags => exact whole trivial
  | text s => exact whole trivial
  | bitfield rows =>
      rw [Piece.bytes, pack_length, packedSize] at room small ⊢
      rw [Piece.encode] at ran
      simp only at ran
      cases looped : rows.foldlM (BitRow.encode offset maxlen) (⟨pos, 0⟩, buf) with
      | error e =>
          rw [looped] at ran
          cases ran
      | ok st₁ =>
          rw [looped, ok_bind] at ran
          obtain ⟨⟨byte, bit⟩, buf₁⟩ := st₁
          obtain ⟨missing, here, bit, _, counted⟩ :=
            @encode_rows_short offset maxlen rows pos 0 0 buf _ ⟨pos, 0⟩
            (by simp only; omega) (by simp only; omega) (by omega) looped
          simp only at ran here bit
          cases ran
          refine ⟨missing, ?_, counted⟩
          simp only
          split
          · rw [u32_of_lt (by omega)]
            omega
          · omega

end Encoders

end Zcm.Java
