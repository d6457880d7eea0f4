import Zcm.Gen.Conforms

namespace Zcm.Gen
open Zcm.Lib

@[simp] theorem numBytes_length (little : Bool) (p : Prim) (n : Nat) : (numBytes little p n).length = p.size := by
  cases little <;> simp [numBytes]

theorem ofNumBytes_numBytes (little : Bool) (p : Prim) {n : Nat} (lt : n < 2 ^ (8 * p.size)) :
    ofNumBytes little (numBytes little p n) = n := by
  have small : n < 256 ^ p.size := by
    rw [show 256 = 2 ^ 8 from rfl, ← Nat.pow_mul]
    exact lt
  cases little <;> simp [ofNumBytes, numBytes, ofBe_toBe_of_lt small]

theorem takeBytes_append (xs rest : List Byte) : takeBytes xs.length (xs ++ rest) = .ok (xs, rest) := by
  simp [takeBytes]

theorem unpack_drop (bytes : List Byte) (q : Nat) : unpack (bytes.drop q) = (unpack bytes).drop (8 * q) := by
  by_cases le : q ≤ bytes.length
  · have split := unpack_append (bytes.take q) (bytes.drop q)
    rw [List.take_append_drop] at split
    rw [split, List.drop_left' (by simp [le])]
  · rw [List.drop_of_length_le (by omega), List.drop_of_length_le (by simp; omega)]
    rfl

def Cursor.ofBit (bytes : List Byte) (i : Nat) : Cursor := ⟨bytes.drop (i / 8), i % 8⟩

theorem Cursor.bits_ofBit (bytes : List Byte) (i : Nat) : (Cursor.ofBit bytes i).bits = (unpack bytes).drop i := by
  rw [Cursor.bits, Cursor.ofBit, unpack_drop, List.drop_drop, Nat.div_add_mod]

theorem Cursor.advance_ofBit (bytes : List Byte) (i numbits : Nat) :
    (Cursor.ofBit bytes i).advance numbits = Cursor.ofBit bytes (i + numbits) := by
  simp only [Cursor.advance, Cursor.ofBit, List.drop_drop, Cursor.mk.injEq]
  constructor
  · congr 1
    omega
  · omega

section Sequence

variable {rules : Rules} {little : Bool} {callee : String → List Byte → Except Failure (List Value × List Byte)}
  {demands : Demands} {conforms : String → List Value → Prop} {t : Typename} {f : Value → Value}
  {place : List Value → Cursor → Prop}

theorem parseDims_of_leaf (extents : ∀ e, demands.extent e → 0 ≤ e.count → rules.extent e = .ok e.count.toNat)
    (leaf : ∀ v vs c, ConformsLeaf conforms t v → place (v :: vs) c →
      ∃ c', parseLeaf rules little callee t c = .ok (f v, c') ∧ place vs c')
    (es : List Extent) (v : Value) (vs : List Value) (c : Cursor)
    (conform : ConformsDims demands conforms t es v) (here : place (leaves es.length v ++ vs) c) :
    ∃ c', parseDims rules little callee t es c = .ok (mapLeaves f es.length v, c') ∧ place vs c' := by
  induction es generalizing v vs c with
  | nil => exact leaf v vs c conform here
  | cons e es ih =>
      cases v with
      | array items =>
          obtain ⟨bound, count, conform⟩ := conform
          have size : rules.extent e = .ok items.length := by
            rw [extents e bound (by omega), ← count]
            rfl
          have row : ∃ c', repeatRead (parseDims rules little callee t es) items.length c =
              .ok (items.map (mapLeaves f es.length), c') ∧ place vs c' := by
            clear size count
            induction items generalizing c with
            | nil => exact ⟨c, rfl, here⟩
            | cons item items rowIh =>
                simp only [List.length_cons, leaves, List.flatMap_cons, List.append_assoc] at here
                obtain ⟨c₁, first, here⟩ := ih item _ c (conform item (by simp)) here
                obtain ⟨c₂, rest, here⟩ := rowIh c₁ here fun v member => conform v (by simp [member])
                refine ⟨c₂, ?_, here⟩
                simp [repeatRead, first, rest, bind, Except.bind]
          obtain ⟨c', row, here⟩ := row
          refine ⟨c', ?_, here⟩
          simp [parseDims, size, row, mapLeaves, bind, Except.bind]
      | num n => cases conform
      | str block => cases conform
      | struct fields => cases conform

end Sequence

structure Reads (rules : Rules) (demands : Demands) : Prop where
  extent : ∀ e, demands.extent e → 0 ≤ e.count → rules.extent e = .ok e.count.toNat
  text : ∀ n avail : Nat, 0 < n → n < 2 ^ 31 → n ≤ avail → rules.text n avail = .ok n

section Fields

variable {rules : Rules} {demands : Demands} (reads : Reads rules demands) (lengths : demands.lengths)
  {little : Bool} {parsed : String → List Byte → Except Failure (List Value × List Byte)}
  {bytes : String → List Value → List Byte} {reduced : String → List Value → List Value}
  {conforms : String → List Value → Prop}
  (nested : ∀ name fields rest, conforms name fields → (bytes name fields).length < 2 ^ 31 →
    parsed name (bytes name fields ++ rest) = .ok (reduced name fields, rest))

include reads nested in
theorem parseLeaf_bytes {t : Typename} (notBits : t.isBits = false) {v : Value} (conform : ConformsLeaf conforms t v)
    (small : (leafBytes little bytes t v).length < 2 ^ 31) (rest : List Byte) :
    parseLeaf rules little parsed t ⟨leafBytes little bytes t v ++ rest, 0⟩ =
      .ok (reduceLeaf reduced t v, ⟨rest, 0⟩) := by
  cases t with
  | bits => cases notBits
  | prim p =>
      cases v with
      | num n =>
          have taken := takeBytes_append (numBytes little p n) rest
          rw [numBytes_length] at taken
          simp [parseLeaf, leafBytes, taken, bind, Except.bind, ofNumBytes_numBytes little p conform, reduceLeaf]
      | _ => cases conform
  | string =>
      cases v with
      | str block =>
          obtain ⟨chars, -, rfl⟩ := conform
          simp only [leafBytes, List.length_append, numBytes_length] at small
          have header := takeBytes_append (numBytes little .int32_t (chars ++ [0]).length) ((chars ++ [0]) ++ rest)
          rw [numBytes_length] at header
          have number : Prim.int32_t.toInt (ofNumBytes little (numBytes little .int32_t (chars ++ [0]).length)) =
              ((chars ++ [0]).length : Int) := by
            rw [ofNumBytes_numBytes little .int32_t (by simp only [Prim.size, List.length_append] at *; omega)]
            exact Int.bmod_eq_of_le (by simp only [Prim.size]; omega)
              (by simp only [Prim.size, List.length_append] at *; omega)
          have text := reads.text (chars ++ [0]).length ((chars ++ [0]) ++ rest).length (by simp) (by simp at *; omega)
            (by simp)
          have taken := takeBytes_append (chars ++ [0]) rest
          simp only [parseLeaf, leafBytes, reduceLeaf, List.append_assoc, bind, Except.bind] at *
          simp only [Prim.size] at header
          rw [header]
          simp only [number, text, taken]
      | _ => cases conform
  | user name =>
      cases v with
      | struct fields =>
          simp only [leafBytes] at small
          simp [parseLeaf, leafBytes, nested name fields rest conform small, bind, Except.bind, reduceLeaf]
      | _ => cases conform

theorem parseDims_bits {p : Prim} {numbits : Nat} {signExtend : Bool} {W : List Byte} {more : List Bool}
    {es : List Extent} {v : Value} {i : Nat} (reads : Reads rules demands)
    (conform : ConformsDims demands conforms (.bits p numbits signExtend) es v)
    (here : (unpack W).drop i = (leaves es.length v).flatMap (bitsOf numbits) ++ more) :
    parseDims rules little parsed (.bits p numbits signExtend) es (Cursor.ofBit W i) =
      .ok (mapLeaves (reduceLeaf reduced (.bits p numbits signExtend)) es.length v,
        Cursor.ofBit W (i + (leaves es.length v).length * numbits)) := by
  let last := i + (leaves es.length v).length * numbits
  let next (vs : List Value) (c : Cursor) : Prop := ∃ j, c = Cursor.ofBit W j ∧
    (unpack W).drop j = vs.flatMap (bitsOf numbits) ++ more ∧ j + vs.length * numbits = last
  have parse := @parseDims_of_leaf rules little parsed demands conforms (.bits p numbits signExtend)
    (reduceLeaf reduced (.bits p numbits signExtend)) next reads.extent ?_ es v [] (Cursor.ofBit W i) conform
    ⟨i, rfl, by simpa using here, by simp [last]⟩
  · obtain ⟨_, parse, j, rfl, -, stop⟩ := parse
    simp only [List.length_nil, Nat.zero_mul, Nat.add_zero] at stop
    rw [parse, stop]
  · rintro v vs c conform ⟨j, rfl, bits, stop⟩
    cases v with
    | num n =>
        have available := Cursor.bits_ofBit W j
        rw [bits] at available
        simp only [List.flatMap_cons, bitsOf, List.append_assoc] at available
        refine ⟨Cursor.ofBit W (j + numbits), ?_, j + numbits, rfl, ?_, ?_⟩
        · have taken : (Cursor.ofBit W j).bits.take numbits = toBits numbits n := by
            rw [available, List.take_left' (by simp)]
          have enough : numbits ≤ (Cursor.ofBit W j).bits.length := by
            rw [available, List.length_append, toBits_length]
            omega
          simp only [parseLeaf]
          rw [if_pos enough, taken, ofBits_toBits, Cursor.advance_ofBit]
          rfl
        · rw [← List.drop_drop, bits, List.flatMap_cons, List.append_assoc, bitsOf, List.drop_left' (by simp)]
        · rw [← stop, List.length_cons, Nat.succ_mul]
          omega
    | _ => cases conform

theorem Cursor.align_ofBit (W : List Byte) (i : Nat) :
    (Cursor.ofBit W i).align = ⟨W.drop (packedSize i), 0⟩ := by
  have bit : (Cursor.ofBit W i).bit = i % 8 := rfl
  rw [Cursor.align, bit]
  by_cases aligned : i % 8 = 0
  · have size : packedSize i = i / 8 := by
      simp only [packedSize]
      omega
    rw [if_pos aligned, Cursor.ofBit, aligned, size]
  · have size : packedSize i = i / 8 + 1 := by
      simp only [packedSize]
      omega
    rw [if_neg aligned, Cursor.ofBit, List.drop_drop, size]

theorem wireFields_bits {m : Member} {p : Prim} {numbits : Nat} {signExtend : Bool}
    (type : m.type = .bits p numbits signExtend) (pending : List Bool) (ms : List Member) (v : Value)
    (vs : List Value) : wireFields little bytes pending (m :: ms) (v :: vs) =
      wireFields little bytes (pending ++ (leaves m.dimensions.length v).flatMap (bitsOf numbits)) ms vs := by
  simp [wireFields, type]

theorem wireFields_bytes {m : Member} (notBits : m.type.isBits = false) (pending : List Bool) (ms : List Member)
    (v : Value) (vs : List Value) : wireFields little bytes pending (m :: ms) (v :: vs) =
      pack pending ++ ((leaves m.dimensions.length v).flatMap (leafBytes little bytes m.type) ++
        wireFields little bytes [] ms vs) := by
  cases type : m.type with
  | bits => simp [type, Typename.isBits] at notBits
  | _ => simp [wireFields, type]

theorem exists_bits {t : Typename} (isBits : t.isBits = true) :
    ∃ p numbits signExtend, t = .bits p numbits signExtend := by
  cases t with
  | bits p numbits signExtend => exact ⟨p, numbits, signExtend, rfl⟩
  | _ => cases isBits

theorem unpack_wireFields (pending : List Bool) (ms : List Member) (vs : List Value) :
    ∃ more, unpack (wireFields little bytes pending ms vs) = pending ++ more := by
  induction ms generalizing pending vs with
  | nil => exact ⟨_, by rw [wireFields]; exact unpack_pack pending; simp⟩
  | cons m ms ih =>
      cases vs with
      | nil => exact ⟨_, by rw [wireFields]; exact unpack_pack pending; simp⟩
      | cons v vs =>
          rw [wireFields]
          split
          next numbits _ _ =>
            obtain ⟨more, same⟩ := ih (pending ++ (leaves m.dimensions.length v).flatMap (bitsOf numbits)) vs
            exact ⟨_, by rw [same, List.append_assoc]⟩
          · rw [unpack_append, unpack_pack]
            exact ⟨_, List.append_assoc _ _ _⟩

def SameSizes (ms : List Member) (scope scope' : Scope) : Prop :=
  ∀ m ∈ ms, ∀ name, .var name ∈ m.dimensions → List.lookup name scope = List.lookup name scope'

theorem SameSizes.extents {m : Member} {ms : List Member} {scope scope' : Scope}
    (h : SameSizes (m :: ms) scope scope') : m.extents scope' = m.extents scope := by
  have each : ∀ ds, ds ⊆ m.dimensions → m.extentsFrom scope' ds = m.extentsFrom scope ds := by
    intro ds
    induction ds with
    | nil => exact fun _ => rfl
    | cons d ds ih =>
        intro inside
        have size : scope'.dimSize d = scope.dimSize d := by
          cases d with
          | const size => rfl
          | var name => rw [Scope.dimSize, Scope.dimSize, h m (by simp) name (inside (by simp))]
        rw [Member.extentsFrom, Member.extentsFrom, size, ih fun d member => inside (by simp [member])]
  exact each m.dimensions (List.Subset.refl _)

theorem SameSizes.push {m : Member} {ms : List Member} {scope scope' : Scope} {v : Value}
    (h : SameSizes (m :: ms) scope scope')
    (kept : IsLength m ms → reduceLeaf (fun _ fields => fields) m.type v = v) :
    SameSizes ms (scope.push m v) (scope'.push m (reduceMember reduced m v)) := by
  have cons : ∀ n n' : Int, (m.dimensions = [] ∧ (IsLength m ms → n = n')) →
      SameSizes ms ((m.membername, n) :: scope) ((m.membername, n') :: scope') := by
    rintro n n' ⟨scalar, same⟩ m' member name named
    simp only [List.lookup_cons]
    split
    next found =>
      rw [same ⟨scalar, m', member, by rwa [← (beq_iff_eq.mp found)]⟩]
    · exact h m' (by simp [member]) name named
  have rest : SameSizes ms scope scope' := fun m' member => h m' (by simp [member])
  cases dims : m.dimensions with
  | cons d ds => simpa [Scope.push, dims] using rest
  | nil =>
      have scalar : reduceMember reduced m v = reduceLeaf reduced m.type v := by simp [reduceMember, dims, mapLeaves]
      rw [scalar]
      cases type : m.type with
      | prim p =>
          cases v with
          | num n =>
              simp only [Scope.push, dims, type, reduceLeaf]
              exact cons _ _ ⟨dims, fun _ => rfl⟩
          | _ => simpa [Scope.push, dims, type, reduceLeaf] using rest
      | bits p numbits signExtend =>
          cases v with
          | num n =>
              simp only [Scope.push, dims, type, reduceLeaf]
              refine cons _ _ ⟨dims, fun isLength => ?_⟩
              have same := kept isLength
              simp only [type, reduceLeaf, Value.num.injEq] at same
              rw [same]
          | _ => simpa [Scope.push, dims, type, reduceLeaf] using rest
      | string => cases v <;> simpa [Scope.push, dims, type, reduceLeaf] using rest
      | user name => cases v <;> simpa [Scope.push, dims, type, reduceLeaf] using rest

theorem extents_length (m : Member) (scope : Scope) : (m.extents scope).length = m.dimensions.length := by
  have each : ∀ ds, (m.extentsFrom scope ds).length = ds.length := by
    intro ds
    induction ds with
    | nil => rfl
    | cons d ds ih => rw [Member.extentsFrom, List.length_cons, ih, List.length_cons]
  exact each m.dimensions

theorem ConformsDims.leaves {t : Typename} {es : List Extent} {v : Value}
    (conform : ConformsDims demands conforms t es v) : ∀ l ∈ leaves es.length v, ConformsLeaf conforms t l := by
  induction es generalizing v with
  | nil =>
      intro l member
      rw [List.mem_singleton.mp member]
      exact conform
  | cons e es ih =>
      cases v with
      | array items =>
          intro l member
          obtain ⟨item, inItems, member⟩ := List.mem_flatMap.mp member
          exact ih (conform.2.2 item inItems) l member
      | _ => cases conform

theorem bits_length {p : Prim} {numbits : Nat} {signExtend : Bool} {ls : List Value}
    (conform : ∀ l ∈ ls, ConformsLeaf conforms (.bits p numbits signExtend) l) :
    (ls.flatMap (bitsOf numbits)).length = ls.length * numbits := by
  induction ls with
  | nil => simp
  | cons l ls ih =>
      have first := conform l (by simp)
      rw [List.flatMap_cons, List.length_append, ih fun l member => conform l (by simp [member]), List.length_cons,
        Nat.succ_mul]
      cases l with
      | num n => simp [bitsOf, Nat.add_comm]
      | _ => cases first

include reads nested in
theorem parseDims_bytes {t : Typename} (notBits : t.isBits = false) {es : List Extent} {v : Value}
    (conform : ConformsDims demands conforms t es v)
    (small : ((leaves es.length v).flatMap (leafBytes little bytes t)).length < 2 ^ 31) (rest : List Byte) :
    parseDims rules little parsed t es ⟨(leaves es.length v).flatMap (leafBytes little bytes t) ++ rest, 0⟩ =
      .ok (mapLeaves (reduceLeaf reduced t) es.length v, ⟨rest, 0⟩) := by
  let next (vs : List Value) (c : Cursor) : Prop :=
    c = ⟨vs.flatMap (leafBytes little bytes t) ++ rest, 0⟩ ∧
      (vs.flatMap (leafBytes little bytes t)).length < 2 ^ 31
  have parse := @parseDims_of_leaf rules little parsed demands conforms t (reduceLeaf reduced t) next reads.extent ?_
    es v [] ⟨(leaves es.length v).flatMap (leafBytes little bytes t) ++ rest, 0⟩ conform
    ⟨by simp, by simpa using small⟩
  · obtain ⟨_, parse, rfl, -⟩ := parse
    exact parse
  · rintro v vs c conform ⟨rfl, small⟩
    rw [List.flatMap_cons, List.length_append] at small
    refine ⟨_, ?_, rfl, by omega⟩
    rw [List.flatMap_cons, List.append_assoc]
    exact parseLeaf_bytes reads nested notBits conform (by omega) _

theorem parseFields_cons {scope : Scope} {m : Member} {ms : List Member} {c c' : Cursor} {v : Value}
    {vs : List Value} {rest : List Byte}
    (first : parseDims rules little parsed m.type (m.extents scope) (if m.type.isBits then c else c.align) = .ok
    (v, c'))
    (later : parseFields rules little parsed (scope.push m v) ms c' = .ok (vs, rest)) :
    parseFields rules little parsed scope (m :: ms) c = .ok (v :: vs, rest) := by
  simp only [parseFields, first, later, bind, Except.bind]

include reads lengths nested in
theorem parseFields_wire (ms : List Member) (vs : List Value) (scope scope' : Scope) (run : Nat)
    (pending : List Bool) (rest : List Byte) (conform : ConformsFields demands conforms scope run ms vs)
    (same : SameSizes ms scope scope') (small : (wireFields little bytes pending ms vs).length < 2 ^ 31) :
    parseFields rules little parsed scope' ms
        (Cursor.ofBit (wireFields little bytes pending ms vs ++ rest) pending.length) =
      .ok (reduceFields reduced ms vs, rest) := by
  induction ms generalizing vs scope scope' run pending with
  | nil =>
      cases vs with
      | cons v vs => cases conform
      | nil =>
          rw [wireFields, parseFields, Cursor.align_ofBit, List.drop_left' (by simp)]
          · rfl
          all_goals simp
  | cons m ms ih =>
      cases vs with
      | nil => cases conform
      | cons v vs =>
          obtain ⟨first, -, kept, conform⟩ := conform
          have same' : SameSizes ms (scope.push m v) (scope'.push m (reduceMember reduced m v)) :=
            same.push (kept lengths)
          have extents := same.extents
          have length := extents_length m scope
          cases isBits : m.type.isBits with
          | true =>
              obtain ⟨p, numbits, signExtend, type⟩ := exists_bits isBits
              rw [wireFields_bits type] at small ⊢
              obtain ⟨more, unpacked⟩ := @unpack_wireFields little bytes
                (pending ++ (leaves m.dimensions.length v).flatMap (bitsOf numbits)) ms vs
              have later := ih vs _ _ _ _ conform same' small
              rw [type] at first
              have count := bits_length first.leaves
              rw [length] at count
              rw [List.length_append, count] at later
              refine parseFields_cons ?_ later
              rw [if_pos isBits, extents, type, reduceMember, type, ← length]
              rw [← length] at unpacked
              refine parseDims_bits reads first (W := _) (?_ : _ = _ ++ (more ++ unpack rest))
              rw [unpack_append, unpacked]
              simp
          | false =>
              rw [wireFields_bytes isBits] at small ⊢
              simp only [List.length_append] at small
              have later := ih vs _ _ _ [] conform same' (by omega)
              refine parseFields_cons ?_ later
              rw [if_neg (by simp [isBits]), extents, Cursor.align_ofBit, List.append_assoc,
                List.drop_left' (by simp), List.append_assoc, reduceMember]
              rw [← length] at small ⊢
              exact parseDims_bytes reads nested isBits first (by omega) _

end Fields

theorem parse_wire {Γ : Env} {rules : Rules} {demands : Demands} (reads : Reads rules demands)
    (lengths : demands.lengths) (little : Bool) (depth : Nat) (name : String) (fields : List Value)
    (rest : List Byte) (conform : Conforms Γ demands depth name fields)
    (small : (wire Γ little depth name fields).length < 2 ^ 31) :
    parse Γ rules little depth name (wire Γ little depth name fields ++ rest) =
      .ok (reduce Γ depth name fields, rest) := by
  induction depth generalizing name fields rest with
  | zero => cases conform
  | succ depth ih =>
      obtain ⟨s, found, conform⟩ := conform
      simp only [wire, parse, reduce, found] at small ⊢
      exact parseFields_wire reads lengths (fun name fields rest conform small => ih name fields rest conform small)
        s.members fields [] [] 0 [] rest conform (fun _ _ _ _ => rfl) small

end Zcm.Gen
