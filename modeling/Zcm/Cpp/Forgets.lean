import Zcm.Cpp.Patch
import Zcm.Gen.ComputeHash

namespace Zcm.Cpp
open Zcm.Lib Zcm.Gen Zcm.Coretypes

section Elements

variable (options : Options) (buf : Mem Byte) (offset maxlen : Nat)

theorem decodeElements_eq {t : Typename} (accepted : t.accepted = true) (elements : Nat) (storage : List Value)
    (pos : BitPos) : decodeElements options buf offset maxlen t elements storage pos =
      (readElements options buf offset maxlen t elements pos).map fun r => (r.1, store r.2 storage) := by
  cases t with
  | prim p => rfl
  | bits p numbits signExtend =>
      have positive : 1 ≤ numbits := by
        simp only [Typename.accepted, Bool.and_eq_true, decide_eq_true_eq] at accepted
        exact accepted.1.1.1.2
      simp only [decodeElements, readElements]
      cases bitsType p with
      | none => rfl
      | some b =>
          obtain ⟨count, cells⟩ :=
            decodeArrayBits_forgets b signExtend buf positive (u32 (offset + pos.byte)) pos.bit
            (u32Sub maxlen pos.byte) elements (fun i => BitVec.ofNat b.width (pattern (storage.getD i (.num 0))))
            (fun _ => 0)
          simp only [count] at cells ⊢
          split
          · rfl
          · next nonneg => rw [cells (Int.not_lt.mp nonneg)]; rfl
  | string => rfl
  | user name => rfl

theorem getWords_length (little : Bool) (p : Prim) (elements pos : Nat) :
    (getWords little p buf elements pos).length = elements := by
  induction elements generalizing pos with
  | zero => rfl
  | succ elements ih => rw [getWords, List.length_cons, ih]

theorem decodeArray_length (little : Bool) (p : Prim) (elements : Nat)
    (nonneg : ¬ (decodeArray little p buf offset maxlen elements).1 < 0) :
    (decodeArray little p buf offset maxlen elements).2.length = elements := by
  have words (p : Prim) (nonneg : ¬ (decodeWords little p buf offset maxlen elements).1 < 0) :
      (decodeWords little p buf offset maxlen elements).2.length = elements := by
    simp only [decodeWords] at nonneg ⊢
    split at nonneg
    · exact absurd (Int.negSucc_lt_zero 0) nonneg
    · next room => rw [if_neg room, getWords_length]
  have bytes (p : Prim) (nonneg : ¬ (decodeBytes p buf offset maxlen elements).1 < 0) :
      (decodeBytes p buf offset maxlen elements).2.length = elements := by
    simp only [decodeBytes] at nonneg ⊢
    split at nonneg
    · exact absurd (Int.negSucc_lt_zero 0) nonneg
    · next room => rw [if_neg room, List.length_map, Mem.read_length]
  cases p with
  | byte => exact bytes _ nonneg
  | boolean => exact bytes _ nonneg
  | int8_t => exact bytes _ nonneg
  | _ => exact words _ nonneg

theorem readElements_length {t : Typename} {elements : Nat} {pos pos' : BitPos} {values : List Nat}
    (read : readElements options buf offset maxlen t elements pos = .ok (pos', values)) :
    values.length = elements := by
  cases t with
  | prim p =>
      simp only [readElements, decodePrims] at read
      split at read
      · cases read
      · next nonneg =>
          cases read
          exact decodeArray_length buf _ _ _ p elements nonneg
  | bits p numbits signExtend =>
      simp only [readElements] at read
      cases bits : bitsType p with
      | none => rw [bits] at read; cases read
      | some b =>
          rw [bits] at read
          simp only at read
          split at read
          · cases read
          · cases read
            rw [List.length_map, Mem.read_length]
  | string => cases read
  | user name => cases read

end Elements

section Dims

variable (options : Options) (blanks : String → List Value)
  (decode : String → Nat → Nat → Value → Except Abort (Nat × Value))
  (read : String → Nat → Nat → Except Abort (Nat × Patch)) (buf : Mem Byte) (offset maxlen : Nat)

def IsPatch : Prop := ∀ name offset maxlen old,
  decode name offset maxlen old = (read name offset maxlen).map fun r => (r.1, r.2.apply old)

variable {decode read}

theorem decodeScalar_eq {t : Typename} (accepted : t.accepted = true) (pos : BitPos) (old : Value) :
    (do
      let (pos, elements) ← decodeElements options buf offset maxlen t 1 [old] pos
      .ok (pos, elements.headD old) : Except Abort (BitPos × Value)) =
    (do
      let (pos, values) ← readElements options buf offset maxlen t 1 pos
      .ok (pos, .put (.num (values.headD 0))) : Except Abort (BitPos × Patch)).map
        fun r => (r.1, r.2.apply old) := by
  rw [decodeElements_eq options buf offset maxlen accepted]
  cases read : readElements options buf offset maxlen t 1 pos with
  | error e => rfl
  | ok r =>
      obtain ⟨v, single⟩ := List.length_eq_one_iff.mp (readElements_length options buf offset maxlen read)
      simp only [Except.map, bind, Except.bind, single]
      rfl

theorem decodeLeaf_eq (callee : IsPatch decode read) {t : Typename} (accepted : t.accepted = true) (pos : BitPos)
    (old : Value) : decodeLeaf options decode buf offset maxlen t pos old =
      (readLeaf options read buf offset maxlen t pos).map fun r => (r.1, r.2.apply old) := by
  cases t with
  | prim p => exact decodeScalar_eq options buf offset maxlen accepted pos old
  | bits p numbits signExtend => exact decodeScalar_eq options buf offset maxlen accepted pos old
  | string =>
      simp only [decodeLeaf, readLeaf]
      cases decodeString options buf offset maxlen pos <;> rfl
  | user name =>
      simp only [decodeLeaf, readLeaf, callee name]
      cases read name (u32 (offset + pos.byte)) (u32Sub maxlen pos.byte) <;> rfl

theorem decodeItems_eq {decode : BitPos → Value → Except Abort (BitPos × Value)}
    {read : BitPos → Except Abort (BitPos × Patch)}
    (same : ∀ pos old, decode pos old = (read pos).map fun r => (r.1, r.2.apply old)) (n : Nat) (pos : BitPos)
    (olds : List Value) : decodeItems decode n pos olds =
      (readItems read n pos).map fun r => (r.1, Patch.applyAll r.2 olds) := by
  induction n generalizing pos olds with
  | zero => rfl
  | succ n ih =>
      simp only [decodeItems, readItems, same]
      cases read pos with
      | error e => rfl
      | ok r =>
          simp only [Except.map, bind, Except.bind, ih]
          cases readItems read n r.1 with
          | error e => rfl
          | ok rs => rfl

theorem resizeVector_eq (m : Member) (d : Dimension) (n : Int) (blank : Value) (elements : List Value) :
    resizeVector options m d n blank elements = if isVector options m d && n < 0 then .error .thrown
      else .ok (fit (if isVector options m d then some (n.toNat, blank) else none) elements) := by
  cases vector : isVector options m d with
  | false => simp only [resizeVector, vector, Bool.false_and, if_neg Bool.false_ne_true, fit]
  | true => simp only [resizeVector, vector, Bool.true_and, if_true, resize, fit, decide_eq_true_eq]

theorem decodeDims_eq (callee : IsPatch decode read) {m : Member} (accepted : m.type.accepted = true) (scope : Scope)
    (dims : List Dimension) (pos : BitPos) (old : Value) :
    decodeDims options blanks decode buf offset maxlen m scope dims pos old =
      (readDims options blanks read buf offset maxlen m scope dims pos).map fun r => (r.1, r.2.apply old) := by
  induction dims generalizing pos old with
  | nil => exact decodeLeaf_eq options buf offset maxlen callee accepted pos old
  | cons d ds ih =>
      simp only [decodeDims, readDims]
      split
      · rfl
      · rw [resizeVector_eq]
        split
        · rfl
        · simp only [bind, Except.bind]
          split
          · rw [decodeElements_eq options buf offset maxlen accepted]
            cases readElements options buf offset maxlen m.type (scope.dimSize d % 2 ^ 32).toNat pos <;> rfl
          · rw [decodeItems_eq ih]
            cases readItems (readDims options blanks read buf offset maxlen m scope ds) (scope.dimSize d).toNat pos with
            | error e => rfl
            | ok r =>
                simp only [Except.map]
                split <;> rfl

theorem push_apply {m : Member} {pos pos' : BitPos} {scope : Scope} {p : Patch}
    (got : readDims options blanks read buf offset maxlen m scope m.dimensions pos = .ok (pos', p)) (old : Value) :
    scope.push m (p.apply old) = scope.push m p.value := by
  have scalar {t : Typename} (read : (do
      let (pos, values) ← readElements options buf offset maxlen t 1 pos
      .ok (pos, .put (.num (values.headD 0))) : Except Abort (BitPos × Patch)) = .ok (pos', p)) :
      p.apply old = p.value := by
    cases elements : readElements options buf offset maxlen t 1 pos with
    | error e => rw [elements] at read; cases read
    | ok r => rw [elements] at read; cases read; rfl
  cases dims : m.dimensions with
  | cons d ds => simp only [Scope.push, dims]
  | nil =>
      rw [dims, readDims] at got
      cases type : m.type with
      | prim q => rw [type] at got; rw [scalar got]
      | bits q numbits signExtend => rw [type] at got; rw [scalar got]
      | string => simp only [Scope.push, dims, type]
      | user name => simp only [Scope.push, dims, type]

theorem decodeFields_eq (callee : IsPatch decode read) (ms : List Member)
    (accepted : ∀ m ∈ ms, m.type.accepted = true) (scope : Scope) (inBitMode : Bool) (pos : BitPos)
    (olds : List Value) : decodeFields options blanks decode buf offset maxlen scope inBitMode ms pos olds =
      (readFields options blanks read buf offset maxlen scope inBitMode ms pos).map
        fun r => (r.1, Patch.applyAll r.2 olds) := by
  induction ms generalizing scope inBitMode pos olds with
  | nil => rfl
  | cons m ms ih =>
      simp only [decodeFields, readFields,
        decodeDims_eq options blanks buf offset maxlen callee (accepted m List.mem_cons_self)]
      cases got : readDims options blanks read buf offset maxlen m scope m.dimensions
          (if inBitMode && !m.type.isBits then closeBits pos else pos) with
      | error e => rfl
      | ok r =>
          simp only [Except.map, bind, Except.bind, push_apply options blanks buf offset maxlen got,
            ih (fun m' member => accepted m' (List.mem_cons_of_mem m member))]
          cases readFields options blanks read buf offset maxlen (scope.push m r.2.value) m.type.isBits ms r.1 <;> rfl

end Dims

def Accepted (Γ : Env) : Prop := ∀ s ∈ Γ, ∀ m ∈ s.members, m.type.accepted = true

theorem decodeNoHash_eq {Γ : Env} (accepted : Accepted Γ) (options : Options) (buf : Mem Byte) (depth : Nat) :
    IsPatch (decodeNoHash Γ options buf depth) (readNoHash Γ options buf depth) := by
  induction depth with
  | zero =>
      intro name offset maxlen old
      rfl
  | succ depth ih =>
      intro name offset maxlen old
      simp only [decodeNoHash, readNoHash]
      cases found : Γ.lookup name with
      | none => rfl
      | some s =>
          simp only [decodeFields_eq options (initial Γ options depth) buf offset maxlen ih s.members
            (accepted s (List.mem_of_find?_eq_some found))]
          cases readFields options (initial Γ options depth)
            (readNoHash Γ options buf depth) buf offset maxlen [] false
              s.members ⟨0, 0⟩ with
          | error e => rfl
          | ok r =>
              simp only [Except.map, bind, Except.bind]
              split <;> rfl

section Objects

variable (Γ : Env) (options : Options) (buf : Mem Byte) (depth : Nat) (name : String)

/-- Where both decodings succeed, they return the same count and leave the objects in the same state. -/
def Forgets (offset maxlen : Nat) (a b : Value) : Prop := ∀ n n' a' b',
  decodeNoHash Γ options buf depth name offset maxlen a = .ok (n, a') →
  decodeNoHash Γ options buf depth name offset maxlen b = .ok (n', b') → n = n' ∧ a' = b'

/-- The buffer has no row, of a size that is not positive or is counted wrong, in which the objects differ. -/
def SameLeft (offset maxlen : Nat) (a b : Value) : Prop :=
  ∀ n p, readNoHash Γ options buf depth name offset maxlen = .ok (n, p) → p.Agree a b

def decode (getHash : Nat) (offset maxlen : Nat) (old : Value) : Except Abort (Nat × Value) :=
  let r := decodeArray false .int64_t buf offset maxlen 1
  if r.1 < 0 then .error (.returned r.1)
  else if r.2.headD 0 ≠ getHash then .error (.returned (-1))
  else do
    let pos := r.1.toNat
    let (thislen, v) ← decodeNoHash Γ options buf depth name (u32 (offset + pos)) (u32Sub maxlen pos) old
    .ok (u32 (pos + thislen), v)

/-- The memory after a message that the handler is shown; what a failed one leaves is not looked at. -/
def typedDispatch (getHash dataSize : Nat) (msgMem : Value) : Except Abort Value :=
  (decode Γ options buf depth name getHash 0 dataSize msgMem).map (·.2)

def fresh : Value := .struct (initial Γ options depth name)

variable {Γ}

theorem forgets_iff (accepted : Accepted Γ) (offset maxlen : Nat) (a b : Value) :
    Forgets Γ options buf depth name offset maxlen a b ↔ SameLeft Γ options buf depth name offset maxlen a b := by
  simp only [Forgets, SameLeft, decodeNoHash_eq accepted options buf depth name]
  cases readNoHash Γ options buf depth name offset maxlen with
  | error e => simp [Except.map]
  | ok r =>
      constructor
      · intro forgets n p read
        cases read
        exact (Patch.apply_eq_iff _ a b).mp (forgets _ _ _ _ rfl rfl).2
      · intro same n n' a' b' left right
        cases left
        cases right
        exact ⟨rfl, (Patch.apply_eq_iff _ a b).mpr (same _ _ rfl)⟩

theorem decode_fingerprint (dataSize : Nat) : decodeArray false .int64_t buf 0 dataSize 1 = (-1, []) ∨
    ∃ hash, decodeArray false .int64_t buf 0 dataSize 1 = (8, [hash]) := by
  have eight : asInt (encodedArraySize .int64_t 1) = 8 := by decide
  rw [decodeArray, decodeWords]
  by_cases short : dataSize < encodedArraySize .int64_t 1
  · exact Or.inl (if_pos short)
  · apply Or.inr
    simp only [if_neg short, eight, getWords]
    exact ⟨_, rfl⟩

theorem typedDispatch_cases (getHash dataSize : Nat) :
    (∃ e, ∀ msgMem, typedDispatch Γ options buf depth name getHash dataSize msgMem = .error e) ∨
    ∀ msgMem, typedDispatch Γ options buf depth name getHash dataSize msgMem =
      (decodeNoHash Γ options buf depth name 8 (u32Sub dataSize 8) msgMem).map (·.2) := by
  rcases decode_fingerprint buf dataSize with short | ⟨hash, read⟩
  · apply Or.inl
    refine ⟨.returned (-1), ?_⟩
    intro msgMem
    simp only [typedDispatch, decode, short]
    rfl
  · simp only [typedDispatch, decode, read, List.headD_cons]
    by_cases equal : hash = getHash
    · apply Or.inr
      intro msgMem
      rw [if_neg (by decide), if_neg (not_not.mpr equal)]
      have here : u32 (0 + 8) = 8 := by decide
      have eight : Int.toNat 8 = 8 := rfl
      simp only [eight, here, bind, Except.bind]
      cases decodeNoHash Γ options buf depth name 8 (u32Sub dataSize 8) msgMem <;> rfl
    · apply Or.inl
      refine ⟨.returned (-1), ?_⟩
      intro msgMem
      rw [if_neg (by decide), if_pos equal]
      rfl

theorem typedDispatch_fresh_iff (accepted : Accepted Γ) (getHash dataSize : Nat) (msgMem v : Value)
    (shown : typedDispatch Γ options buf depth name getHash dataSize msgMem = .ok v) :
    typedDispatch Γ options buf depth name getHash dataSize (fresh Γ options depth name) = .ok v ↔
      SameLeft Γ options buf depth name 8 (u32Sub dataSize 8) msgMem (fresh Γ options depth name) := by
  cases typedDispatch_cases options buf depth name getHash dataSize with
  | inl fails =>
      obtain ⟨e, fails⟩ := fails
      rw [fails] at shown
      cases shown
  | inr decodes =>
      rw [decodes] at shown ⊢
      simp only [SameLeft, decodeNoHash_eq accepted options buf depth name] at shown ⊢
      cases read : readNoHash Γ options buf depth name 8 (u32Sub dataSize 8) with
      | error e => rw [read] at shown; cases shown
      | ok r =>
          rw [read] at shown
          cases shown
          simp only [Except.map, Except.ok.injEq]
          rw [eq_comm, Patch.apply_eq_iff]
          constructor
          · intro agree n p same
            cases same
            exact agree
          · intro same
            exact same _ _ rfl

end Objects

/-- The emitted decoder and the subscription that reuses one object forget the past exactly where the two objects
are the same in every row that the buffer leaves alone. -/
theorem decodeNoHash_forgets_iff {Γ : Env} (accepted : Accepted Γ) (options : Options) (buf : Mem Byte) (depth : Nat)
    (name : String) :
    (∀ (offset maxlen : Nat) (a b : Value), Forgets Γ options buf depth name offset maxlen a b ↔
      SameLeft Γ options buf depth name offset maxlen a b) ∧
    ∀ (getHash dataSize : Nat) (msgMem v : Value),
      typedDispatch Γ options buf depth name getHash dataSize msgMem = .ok v →
      (typedDispatch Γ options buf depth name getHash dataSize (fresh Γ options depth name) = .ok v ↔
        SameLeft Γ options buf depth name 8 (u32Sub dataSize 8) msgMem (fresh Γ options depth name)) :=
  ⟨forgets_iff options buf depth name accepted, typedDispatch_fresh_iff options buf depth name accepted⟩

def samples : Env := [⟨"samples", 0, [⟨.prim .int32_t, "n", []⟩, ⟨.prim .int16_t, "values", [.var "n"]⟩]⟩]

def single (v : Byte) : Mem Byte := fun a => if a = 3 then 1 else if a = 5 then v else 0

def sevenSeen : Value := .struct [.num 1, .array [.num 7]]

example : decodeNoHash samples ⟨false, false⟩ (single 7) 1 "samples" 0 6
    (fresh samples ⟨false, false⟩ 1 "samples") =
    .ok (6, sevenSeen) := rfl

theorem samples_forgets : Forgets samples ⟨false, false⟩ (single 9) 1 "samples" 0 6 sevenSeen
    (fresh samples ⟨false, false⟩ 1 "samples") := by
  have accepted : Accepted samples := by simp [Accepted, samples, Typename.accepted]
  apply ((decodeNoHash_forgets_iff accepted _ _ _ _).1 _ _ _ _).mpr
  intro n p read
  have message : readNoHash samples ⟨false, false⟩ (single 9) 1 "samples" 0 6 =
      .ok (6, .struct [.put (.num 1), .row (some (1, .num 0)) [9]]) := rfl
  rw [message] at read
  cases read
  exact ⟨trivial, rfl, rfl⟩

theorem sevenSeen_remains : ¬ Forgets samples ⟨false, false⟩ (fun _ => 0) 1 "samples" 0 4 sevenSeen
    (fresh samples ⟨false, false⟩ 1 "samples") := by
  intro forgets
  have same := (forgets 4 4 (.struct [.num 0, .array [.num 7]]) (.struct [.num 0, .array []]) rfl rfl).2
  simp at same

end Zcm.Cpp
