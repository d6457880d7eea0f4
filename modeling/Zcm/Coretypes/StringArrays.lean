import Zcm.Coretypes.Decode
import Zcm.Coretypes.EncodeExact

namespace Zcm.Coretypes
open Zcm.Lib Zcm.Gen

/-- What `zcm_malloc` returns, with what is stored there later: NULL for no bytes. -/
abbrev Pointer := Option (List Byte)

section Decode

variable (little : Bool) (buf : Mem Byte) (offset maxlen : Nat)

def stringDecodeElement (pos : Nat) : Except Int (Nat × Pointer) :=
  let r := decodeArray little .int32_t buf (u32 (offset + pos)) (u32Sub maxlen pos) 1
  if r.1 < 0 then .error r.1
  else
    let pos := u32 (pos + r.1.toNat)
    let length := r.2.headD 0
    let r := decodeArray little .int8_t buf (u32 (offset + pos)) (u32Sub maxlen pos) length
    if r.1 < 0 then .error r.1
    else .ok (u32 (pos + r.1.toNat), if length = 0 then none else some (r.2.map (BitVec.ofNat 8)))

def stringDecodeElements : Nat → Nat → Except Int (Nat × List Pointer)
  | 0, pos => .ok (pos, [])
  | elements + 1, pos => do
      let (pos, p) ← stringDecodeElement little buf offset maxlen pos
      let (pos, ps) ← stringDecodeElements elements pos
      .ok (pos, p :: ps)

-- what a call that fails has assigned is not looked at
def stringDecodeArray (elements : Nat) : Int × List Pointer :=
  match stringDecodeElements little buf offset maxlen elements 0 with
  | .ok (pos, ps) => (asInt pos, ps)
  | .error r => (r, [])

end Decode

/-- Every string can be read up to its terminator, and their encoder returns the bytes they were decoded from. -/
def Reusable (little : Bool) (buf : Mem Byte) (offset n : Nat) (ps : List Pointer) : Prop :=
  ∃ blocks : List (List Byte), ps = blocks.map some ∧ (∀ block ∈ blocks, 0 ∈ block) ∧ ∀ out : Mem Byte,
    let size := stringEncodedArraySize blocks blocks.length
    let r := stringEncodeArray little out 0 size blocks blocks.length
    r.1 = n ∧ r.2.read 0 size = buf.read offset n

def wireLength (little : Bool) (buf : Mem Byte) (offset : Nat) : Nat := ofNumBytes little (buf.read offset 4)

/-- The wire has the terminator of each string as the last of its bytes, and nowhere else. -/
def WellTerminated (little : Bool) (buf : Mem Byte) : Nat → Nat → Prop
  | 0, _ => True
  | elements + 1, offset =>
      let length := wireLength little buf offset
      1 ≤ length ∧ buf (offset + 4 + (length - 1)) = 0 ∧ (∀ i < length - 1, buf (offset + 4 + i) ≠ 0) ∧
        WellTerminated little buf elements (offset + 4 + length)

def Block (block : List Byte) : Prop := ∃ chars, 0 ∉ chars ∧ block = chars ++ [0]

theorem numBytes_ofNumBytes (little : Bool) (p : Prim) {bytes : List Byte} (length : bytes.length = p.size) :
    numBytes little p (ofNumBytes little bytes) = bytes := by
  cases little with
  | false => exact toBe_ofBe length
  | true =>
      have reversed := @toBe_ofBe p.size bytes.reverse (by rwa [List.length_reverse])
      simp only [numBytes, ofNumBytes, if_true, reversed, List.reverse_reverse]

theorem ofNumBytes_lt (little : Bool) {bytes : List Byte} (length : bytes.length = 4) :
    ofNumBytes little bytes < 2 ^ 32 := by
  have lt := ofBe_lt (if little then bytes.reverse else bytes)
  have same : (if little then bytes.reverse else bytes).length = 4 := by
    cases little with
    | false => exact length
    | true => exact List.length_reverse.trans length
  rw [same] at lt
  exact lt

theorem asInt_of_nonneg {n : Nat} (lt : n < 2 ^ 32) (nonneg : ¬ asInt n < 0) : n < 2 ^ 31 ∧ asInt n = n := by
  have value := u32_of_lt lt
  rw [asInt, value] at nonneg ⊢
  split at nonneg
  next half => exact ⟨half, if_pos half⟩
  next => omega

theorem decodeWord_eq (little : Bool) (buf : Mem Byte) (offset maxlen : Nat) :
    decodeArray little .int32_t buf offset maxlen 1 =
      if maxlen < 4 then (-1, []) else (4, [ofNumBytes little ((List.range 4).map fun i => buf (u32 (offset + i)))]) :=
  rfl

theorem decodeChars_eq (little : Bool) (buf : Mem Byte) (offset maxlen : Nat) {length : Nat} (lt : length < 2 ^ 32) :
    decodeArray little .int8_t buf offset maxlen length =
      if maxlen < length then (-1, []) else (asInt length, (buf.read offset length).map (·.toNat)) := by
  have size : encodedArraySize .int8_t length = length := by
    rw [encodedArraySize, Prim.size, Nat.one_mul, u32_of_lt lt]
  rw [decodeArray, decodeBytes, size]

theorem block_read_iff {buf : Mem Byte} {start length : Nat} :
    Block (buf.read start length) ↔
      1 ≤ length ∧ buf (start + (length - 1)) = 0 ∧ ∀ i < length - 1, buf (start + i) ≠ 0 := by
  cases length with
  | zero => exact ⟨fun ⟨chars, _, empty⟩ => by simp at empty, fun some => absurd some.1 (by decide)⟩
  | succ n =>
      have split : buf.read start (n + 1) = buf.read start n ++ [buf (start + n)] := buf.read_add start n 1
      have inner : (0 ∉ buf.read start n) ↔ ∀ i < n, buf (start + i) ≠ 0 := by
        simp [Mem.read]
      rw [split, Nat.add_sub_cancel, ← inner]
      constructor
      · rintro ⟨chars, noNul, same⟩
        obtain ⟨rfl, last⟩ := List.append_inj' same rfl
        exact ⟨by omega, (List.cons.inj last).1, noNul⟩
      · rintro ⟨-, last, noNul⟩
        exact ⟨_, noNul, by rw [last]⟩

theorem stringDecodeElements_error {little : Bool} {buf : Mem Byte} {offset maxlen elements pos : Nat} {r : Int}
    (run : stringDecodeElements little buf offset maxlen elements pos = .error r) : r < 0 := by
  induction elements generalizing pos with
  | zero => cases run
  | succ elements ih =>
      rw [stringDecodeElements] at run
      cases one : stringDecodeElement little buf offset maxlen pos with
      | error r' =>
          rw [one] at run
          cases run
          rw [stringDecodeElement] at one
          split at one
          next negative =>
            cases one
            exact negative
          next =>
            simp only at one
            split at one
            next negative =>
              cases one
              exact negative
            next => cases one
      | ok st =>
          rw [one, ok_bind] at run
          cases rest : stringDecodeElements little buf offset maxlen elements st.1 with
          | error r' =>
              simp only [rest] at run
              cases run
              exact ih rest
          | ok st' =>
              simp only [rest] at run
              cases run

section Element

variable {little : Bool} {buf : Mem Byte} {offset maxlen : Nat} (small : maxlen < 2 ^ 32)

include small

theorem stringDecodeElement_run {pos pos' : Nat} {p : Pointer} (le : pos ≤ maxlen)
    (run : stringDecodeElement little buf offset maxlen pos = .ok (pos', p)) :
    ∃ length, ofNumBytes little ((List.range 4).map fun i => buf (u32 (u32 (offset + pos) + i))) = length ∧
      pos' = pos + 4 + length ∧ pos' ≤ maxlen ∧
      p = if length = 0 then none else some (buf.read (u32 (offset + (pos + 4))) length) := by
  have left : u32Sub maxlen pos = maxlen - pos := u32Sub_of_le small le
  rw [stringDecodeElement, decodeWord_eq, left] at run
  by_cases short : maxlen - pos < 4
  · simp [short] at run
  rw [if_neg short] at run
  generalize word :
    ofNumBytes little ((List.range 4).map fun i => buf (u32 (u32 (offset + pos) + i))) = length at run ⊢
  have next : u32 (pos + 4) = pos + 4 := u32_of_lt (by omega)
  have left' : u32Sub maxlen (pos + 4) = maxlen - (pos + 4) := u32Sub_of_le small (by omega)
  have lt : length < 2 ^ 32 := by
    rw [← word]
    exact ofNumBytes_lt little (by simp)
  have nonneg : ¬ ((4 : Int) < 0) := by decide
  simp only [nonneg, if_false, show ((4 : Int).toNat) = 4 from rfl, next, left', List.headD_cons,
    decodeChars_eq _ _ _ _ lt] at run
  by_cases room : maxlen - (pos + 4) < length
  · simp [room] at run
  simp only [if_neg room] at run
  by_cases negative : asInt length < 0
  · simp [negative] at run
  obtain ⟨half, value⟩ := asInt_of_nonneg lt negative
  rw [if_neg negative, value, Int.toNat_natCast, u32_of_lt (show pos + 4 + length < 2 ^ 32 by omega)] at run
  obtain ⟨rfl, rfl⟩ := Prod.mk.inj (Except.ok.inj run)
  refine ⟨length, rfl, rfl, by omega, ?_⟩
  by_cases zero : length = 0
  · rw [if_pos zero, if_pos zero]
  · rw [if_neg zero, if_neg zero, List.map_map]
    simp [Function.comp_def]

theorem stringDecodeElement_ok {pos pos' : Nat} {p : Pointer} (le : pos ≤ maxlen) (fits : offset + pos' ≤ 2 ^ 32)
    (run : stringDecodeElement little buf offset maxlen pos = .ok (pos', p)) :
    pos' = pos + 4 + wireLength little buf (offset + pos) ∧
      p = if wireLength little buf (offset + pos) = 0 then none
        else some (buf.read (offset + pos + 4) (wireLength little buf (offset + pos))) := by
  obtain ⟨length, word, rfl, -, rfl⟩ := stringDecodeElement_run small le run
  have start : u32 (offset + pos) = offset + pos := u32_of_lt (by omega)
  have cells : ((List.range 4).map fun i => buf (u32 (u32 (offset + pos) + i))) = buf.read (offset + pos) 4 := by
    rw [start]
    apply Mem.read_congr (m := fun a => buf (u32 a))
    intro i inside
    rw [u32_of_lt (by omega)]
  have same : wireLength little buf (offset + pos) = length := by
    rw [← word, wireLength, cells]
  rw [same]
  refine ⟨rfl, ?_⟩
  by_cases zero : length = 0
  · rw [if_pos zero, if_pos zero]
  · rw [if_neg zero, if_neg zero, u32_of_lt (by omega), Nat.add_assoc]

theorem stringDecodeElements_le {elements pos n : Nat} {ps : List Pointer} (le : pos ≤ maxlen)
    (run : stringDecodeElements little buf offset maxlen elements pos = .ok (n, ps)) : pos ≤ n ∧ n ≤ maxlen := by
  induction elements generalizing pos ps with
  | zero =>
      cases run
      exact ⟨Nat.le_refl _, le⟩
  | succ elements ih =>
      rw [stringDecodeElements] at run
      obtain ⟨⟨pos', p⟩, one, run⟩ := bind_ok.mp run
      obtain ⟨⟨n', ps'⟩, rest, run⟩ := bind_ok.mp run
      cases run
      obtain ⟨length, -, rfl, inside, -⟩ := stringDecodeElement_run small le one
      obtain ⟨later, inside'⟩ := ih inside rest
      exact ⟨(Nat.le_add_right pos 4).trans ((Nat.le_add_right _ length).trans later), inside'⟩

theorem stringDecodeElements_ok {elements pos n : Nat} {ps : List Pointer} (le : pos ≤ maxlen)
    (fits : offset + n ≤ 2 ^ 32) (run : stringDecodeElements little buf offset maxlen elements pos = .ok (n, ps)) :
    (WellTerminated little buf elements (offset + pos) ↔ ∃ blocks : List (List Byte), ps = blocks.map some ∧
      ∀ block ∈ blocks, Block block) ∧
      ∀ blocks : List (List Byte), ps = blocks.map some → buf.read (offset + pos) (n - pos) =
        blocks.flatMap (textBytes little) := by
  induction elements generalizing pos ps with
  | zero =>
      cases run
      refine ⟨⟨fun _ => ⟨[], rfl, nofun⟩, fun _ => trivial⟩, fun blocks none => ?_⟩
      obtain rfl := List.map_eq_nil_iff.mp none.symm
      rw [Nat.sub_self]
      rfl
  | succ elements ih =>
      rw [stringDecodeElements] at run
      obtain ⟨⟨pos', p⟩, one, run⟩ := bind_ok.mp run
      obtain ⟨⟨n', ps'⟩, rest, run⟩ := bind_ok.mp run
      cases run
      obtain ⟨_, -, -, inside, -⟩ := stringDecodeElement_run small le one
      have later := (stringDecodeElements_le small inside rest).1
      obtain ⟨rfl, rfl⟩ := stringDecodeElement_ok small le (by omega) one
      obtain ⟨terminated, bytes⟩ := ih inside rest
      have header : numBytes little .int32_t (wireLength little buf (offset + pos)) = buf.read (offset + pos) 4 :=
        numBytes_ofNumBytes little .int32_t (buf.read_length _ _)
      have place : offset + (pos + 4 + wireLength little buf (offset + pos)) =
          offset + pos + 4 + wireLength little buf (offset + pos) := by omega
      rw [place] at terminated bytes
      rw [WellTerminated]
      generalize wireLength little buf (offset + pos) = length at terminated bytes header later ⊢
      constructor
      · rw [terminated]
        constructor
        · rintro ⟨some', last, noNul, blocks, rfl, all⟩
          refine ⟨buf.read (offset + pos + 4) length :: blocks, by rw [if_neg (by omega)]; rfl, ?_⟩
          intro block member
          obtain rfl | member := List.mem_cons.mp member
          · exact block_read_iff.mpr ⟨some', last, noNul⟩
          · exact all block member
        · rintro ⟨blocks, same, all⟩
          cases blocks with
          | nil => cases same
          | cons block blocks =>
              obtain ⟨first, rfl⟩ := List.cons.inj same
              by_cases none : length = 0
              · rw [if_pos none] at first
                cases first
              · rw [if_neg none] at first
                obtain rfl := Option.some.inj first
                obtain ⟨some', last, noNul⟩ := block_read_iff.mp (all _ List.mem_cons_self)
                exact ⟨some', last, noNul, blocks, rfl,
                  fun block member => all block (List.mem_cons_of_mem _ member)⟩
      · intro blocks same
        cases blocks with
        | nil => cases same
        | cons block blocks =>
            obtain ⟨first, rfl⟩ := List.cons.inj same
            have body : block = buf.read (offset + pos + 4) length := by
              by_cases none : length = 0
              · rw [if_pos none] at first
                cases first
              · rw [if_neg none] at first
                exact (Option.some.inj first).symm
            have parts : n - pos = 4 + (length + (n - (pos + 4 + length))) := by omega
            rw [parts, buf.read_add, buf.read_add, bytes blocks rfl, List.flatMap_cons, textBytes, body,
              buf.read_length,
              header, List.append_assoc]

end Element

section Terminated

theorem strlen_le {block : List Byte} (terminated : 0 ∈ block) :
    strlen block + 1 ≤ block.length ∧ (strlen block + 1 = block.length ↔ Block block) := by
  obtain ⟨chars, rest, rfl, noNul⟩ := List.eq_append_cons_of_mem terminated
  have length : strlen (chars ++ 0 :: rest) = chars.length := strlen_terminated noNul
  rw [length, List.length_append, List.length_cons]
  refine ⟨by omega, fun all => ?_, ?_⟩
  · obtain rfl : rest = [] := List.eq_nil_of_length_eq_zero (by omega)
    exact ⟨chars, noNul, rfl⟩
  · rintro ⟨chars', noNul', same⟩
    rw [same, strlen_terminated noNul'] at length
    have lengths := congrArg List.length same
    simp only [List.length_append, List.length_cons, List.length_nil] at lengths
    omega

theorem stringEncodedArraySize_eq (blocks : List (List Byte)) :
    stringEncodedArraySize blocks blocks.length = u32 (blocks.map fun block => 4 + strlen block + 1).sum := by
  suffices from_ : ∀ size, blocks.foldl (fun size block => u32 (size + (4 + strlen block + 1))) (u32 size) =
      u32 (size + (blocks.map fun block => 4 + strlen block + 1).sum) by
    have start := from_ 0
    rw [Nat.zero_add] at start
    rw [stringEncodedArraySize, List.take_length]
    exact start
  induction blocks with
  | nil => exact fun _ => rfl
  | cons block blocks ih =>
      intro size
      have step : u32 (u32 size + (4 + strlen block + 1)) = u32 (size + (4 + strlen block + 1)) :=
        Nat.mod_add_mod ..
      rw [List.foldl_cons, step, ih, List.map_cons, List.sum_cons, Nat.add_assoc]

theorem flatMap_textBytes_length (little : Bool) (blocks : List (List Byte)) :
    (blocks.flatMap (textBytes little)).length = (blocks.map fun block => 4 + block.length).sum := by
  induction blocks with
  | nil => rfl
  | cons block blocks ih =>
      rw [List.flatMap_cons, List.length_append, ih, List.map_cons, List.sum_cons]
      simp [textBytes, Prim.size]

theorem sizes_eq_iff {blocks : List (List Byte)} (terminated : ∀ block ∈ blocks, 0 ∈ block) :
    (blocks.map fun block => 4 + strlen block + 1).sum ≤ (blocks.map fun block => 4 + block.length).sum ∧
      ((blocks.map fun block => 4 + strlen block + 1).sum = (blocks.map fun block => 4 + block.length).sum ↔
        ∀ block ∈ blocks, Block block) := by
  induction blocks with
  | nil => simp
  | cons block blocks ih =>
      obtain ⟨le, same⟩ := ih fun block member => terminated block (List.mem_cons_of_mem _ member)
      obtain ⟨le', same'⟩ := strlen_le (terminated block List.mem_cons_self)
      rw [List.forall_mem_cons, ← same, ← same', List.map_cons, List.map_cons, List.sum_cons, List.sum_cons]
      omega

theorem stringEncodeElements_eq (little : Bool) {offset maxlen : Nat} (fits : offset + maxlen ≤ 2 ^ 32)
    (lt : maxlen < 2 ^ 31) {blocks : List (List Byte)} (all : ∀ block ∈ blocks, Block block) (pos : Nat)
    (buf : Mem Byte) (room : pos + (blocks.flatMap (textBytes little)).length ≤ maxlen) :
    blocks.foldlM (stringEncodeElement little offset maxlen) (pos, buf) =
      .ok (pos + (blocks.flatMap (textBytes little)).length,
        buf.write (offset + pos) (blocks.flatMap (textBytes little))) := by
  induction blocks generalizing pos buf with
  | nil =>
      rw [List.flatMap_nil, Mem.write_nil]
      rfl
  | cons block blocks ih =>
      rw [List.flatMap_cons, List.length_append] at room ⊢
      obtain ⟨chars, noNul, same⟩ := all block List.mem_cons_self
      have first := stringEncodeElement_eq little fits noNul pos buf (by rw [← same]; omega) (by omega)
        (by rw [← same]; omega)
      rw [← same] at first
      have rest := ih (fun block member => all block (List.mem_cons_of_mem _ member))
        (pos + (textBytes little block).length) (buf.write (offset + pos) (textBytes little block)) (by omega)
      rw [List.foldlM_cons, first, ok_bind, rest, Mem.write_append, Nat.add_assoc, Nat.add_assoc]

end Terminated

/-- Decoded strings can be used again exactly if each has its terminator at its end and nowhere before. -/
theorem decoded_reusable_iff {little : Bool} {buf : Mem Byte} {offset maxlen elements n : Nat} {ps : List Pointer}
    (small : maxlen < 2 ^ 32) (run : stringDecodeArray little buf offset maxlen elements = ((n : Int), ps))
    (fits : offset + n ≤ 2 ^ 32) :
    Reusable little buf offset n ps ↔ WellTerminated little buf elements offset := by
  rw [stringDecodeArray] at run
  split at run
  next pos ps' decoded =>
      obtain ⟨value, rfl⟩ := Prod.mk.inj run
      have inside := (stringDecodeElements_le small (Nat.zero_le _) decoded).2
      obtain ⟨half, same⟩ := asInt_of_nonneg (show pos < 2 ^ 32 by omega) (by omega)
      obtain rfl : pos = n := by omega
      obtain ⟨terminated, bytes⟩ := stringDecodeElements_ok small (Nat.zero_le _) fits decoded
      rw [Nat.add_zero, Nat.sub_zero] at bytes
      rw [Nat.add_zero] at terminated
      rw [terminated]
      constructor
      · rintro ⟨blocks, rfl, nul, again⟩
        obtain ⟨-, written⟩ := again fun _ => 0
        have length := congrArg List.length written
        rw [Mem.read_length, Mem.read_length] at length
        have whole := congrArg List.length (bytes blocks rfl)
        rw [Mem.read_length, flatMap_textBytes_length] at whole
        obtain ⟨le, sizes⟩ := sizes_eq_iff nul
        rw [stringEncodedArraySize_eq, u32_of_lt (by omega)] at length
        exact ⟨blocks, rfl, sizes.mp (by omega)⟩
      · rintro ⟨blocks, rfl, all⟩
        have nul : ∀ block ∈ blocks, 0 ∈ block := by
          intro block member
          obtain ⟨chars, -, rfl⟩ := all block member
          simp
        have whole := bytes blocks rfl
        have length := congrArg List.length whole
        rw [Mem.read_length] at length
        have size : stringEncodedArraySize blocks blocks.length = pos := by
          rw [stringEncodedArraySize_eq, (sizes_eq_iff nul).2.mpr all, ← flatMap_textBytes_length little, ← length,
            u32_of_lt (by omega)]
        refine ⟨blocks, rfl, nul, fun out => ?_⟩
        have encoded := stringEncodeElements_eq little (show 0 + pos ≤ 2 ^ 32 by omega) half all 0 out (by omega)
        simp only [size]
        rw [stringEncodeArray, List.take_length, encoded]
        simp only
        rw [Nat.zero_add, ← length, same, whole, Nat.add_zero]
        refine ⟨rfl, ?_⟩
        conv => lhs; rw [length]
        exact Mem.read_write_self _ _ _
  next r failed =>
      have negative := stringDecodeElements_error failed
      have value : r = (n : Int) := (Prod.mk.inj run).1
      omega

def textsOnWire : Mem Byte := fun a => [9, 0, 0, 0, 2, 65, 0, 0, 0, 0, 3, 66, 67, 0].getD a 0

theorem textsOnWire_reusable :
    stringDecodeArray false textsOnWire 1 13 2 = ((13 : Int), [some [65, 0], some [66, 67, 0]]) ∧
    (Reusable false textsOnWire 1 13 [some [65, 0], some [66, 67, 0]] ↔ WellTerminated false textsOnWire 2 1) :=
  ⟨by decide, (@decoded_reusable_iff _ _ _ 13) (by decide) (by decide) (by decide)⟩

theorem emptyLength_accepted : stringDecodeArray false (fun _ => 0) 0 4 1 = ((4 : Int), [none]) ∧
    ¬ Reusable false (fun _ => 0) 0 4 [none] := by
  refine ⟨by decide, ?_⟩
  rintro ⟨blocks, same, -⟩
  cases blocks with
  | nil => cases same
  | cons block blocks => cases (List.cons.inj same).1

end Zcm.Coretypes
