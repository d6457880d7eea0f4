import Mathlib.Algebra.BigOperators.Group.List.Basic
import Mathlib.Data.List.Nodup
import Mathlib.Data.List.Range
import Zcm.SpyLite.Display

namespace Zcm.SpyLite
open Zcm.Lib

variable {db : TypeDb} {mem : Memory}

section Counts

def printed (db : TypeDb) (field : Field) : Nat :=
  if field.type = .userType ∧ (typeOf db field).isSome = true then
    if field.numDim = 0 then 1 else if field.numDim = 1 then min field.dimSize.toNat maxArrayDisplay else 0
  else 0

def selectable (field : Field) : Nat :=
  if field.type = .userType then
    if field.numDim = 0 then 1 else if field.numDim = 1 then field.dimSize.toNat else 0
  else 0

theorem printed_le_selectable (field : Field) : printed db field ≤ selectable field := by
  unfold printed selectable
  split
  next known =>
    rw [if_pos known.1]
    split
    · exact Nat.le_refl _
    · split
      · exact Nat.min_le_left _ _
      · exact Nat.le_refl _
  next => exact Nat.zero_le _

/-- The fields of a view, with those byte arrays replaced that hold a message, and with their numbers. -/
def loadFields (db : TypeDb) (mem : Memory) (info : TypeInfo) (msg : Addr) : List Nat → Option (List (Nat × Field))
  | [] => some []
  | j :: js => do
      let field ← tryByteArrayToZcmtype db mem (info.getField msg j)
      let fields ← loadFields db mem info msg js
      return (j, field) :: fields

def visible (prefixFilter : Text) (fields : List (Nat × Field)) : List (Nat × Field) :=
  fields.filter fun x => passes prefixFilter x.2

theorem visible_cons (prefixFilter : Text) (x : Nat × Field) (fields : List (Nat × Field)) :
    visible prefixFilter (x :: fields) =
      if passes prefixFilter x.2 then x :: visible prefixFilter fields else visible prefixFilter fields :=
  List.filter_cons

def printedBefore (db : TypeDb) (fields : List (Nat × Field)) : Nat := (fields.map fun x => printed db x.2).sum

def selectableBefore (fields : List (Nat × Field)) : Nat := (fields.map fun x => selectable x.2).sum

end Counts

section Printing

structure Numbered (count n : Nat) (cells : List Cell) : Prop where
  iff : ∀ p k, cells[p]? = some (.number k) ↔ p < n ∧ k = count + p + 1

theorem numbered_cons {count n : Nat} {cells : List Cell} (later : Numbered (count + 1) n cells) :
    Numbered count (n + 1) (.number (count + 1) :: cells) := by
  refine ⟨fun p k => ?_⟩
  cases p with
  | zero => simp [eq_comm]
  | succ p =>
      rw [List.getElem?_cons_succ, later.iff]
      omega

theorem numbered_none {count : Nat} {cells : List Cell} (none : ∀ k, Cell.number k ∉ cells) :
    Numbered count 0 cells :=
  ⟨fun p k => iff_of_false (fun here => none k (List.mem_of_getElem? here)) (by omega)⟩

theorem printElements_known {field : Field} (isUser : field.type = .userType) (known : (typeOf db field).isSome = true)
    (n i count : Nat) (le : i ≤ maxArrayDisplay) :
    (printElements db field n i count).2 = count + min n (maxArrayDisplay - i) ∧
      Numbered count (min n (maxArrayDisplay - i)) (printElements db field n i count).1 := by
  induction n generalizing i count with
  | zero => simpa [printElements] using numbered_none (by simp)
  | succ n ih =>
      rw [printElements]
      split
      next atEnd => simpa [atEnd] using numbered_none (by simp)
      next inside =>
        have less : i + 1 ≤ maxArrayDisplay := by omega
        obtain ⟨total, later⟩ := ih (i + 1) (count + 1) less
        have one : min (n + 1) (maxArrayDisplay - i) = min n (maxArrayDisplay - (i + 1)) + 1 := by omega
        simp only [printValueScalar, isUser, known, ne_eq, not_true_eq_false, if_false, if_true, total, one]
        exact ⟨by omega, numbered_cons later⟩

theorem printValueScalar_unknown {field : Field}
    (unknown : ¬ (field.type = .userType ∧ (typeOf db field).isSome = true)) (count : Nat) :
    printValueScalar db field count = (.value, count) ∨
      printValueScalar db field count = (.unknownUserType, count) := by
  unfold printValueScalar
  split
  next => exact .inl rfl
  next isUser =>
    rw [if_neg fun known => unknown ⟨not_not.mp isUser, known⟩]
    exact .inr rfl

theorem printElements_unknown {field : Field}
    (unknown : ¬ (field.type = .userType ∧ (typeOf db field).isSome = true)) (n i count : Nat) :
    (printElements db field n i count).2 = count ∧ ∀ k, Cell.number k ∉ (printElements db field n i count).1 := by
  induction n generalizing i with
  | zero => simp [printElements]
  | succ n ih =>
      rw [printElements]
      split
      next => simp
      next =>
        obtain ⟨total, none⟩ := ih (i + 1)
        rcases printValueScalar_unknown unknown count with same | same <;> simp [same, total, none]

theorem printField_numbered (field : Field) (count : Nat) :
    (printField db field count).2 = count + printed db field ∧
      Numbered count (printed db field) (printField db field count).1 := by
  unfold printField printed
  by_cases known : field.type = .userType ∧ (typeOf db field).isSome = true
  · rw [if_pos known]
    split
    next =>
      simp only [printValueScalar, known, ne_eq, not_true_eq_false, if_false, if_true]
      exact ⟨trivial, numbered_cons (numbered_none (by simp))⟩
    next =>
      unfold printValueArray
      split
      next => simpa using printElements_known known.1 known.2 field.dimSize.toNat 0 count (Nat.zero_le _)
      next => exact ⟨rfl, numbered_none (by simp)⟩
  · rw [if_neg known]
    split
    next =>
      rcases printValueScalar_unknown known count with same | same <;> simpa [same] using numbered_none (by simp)
    next =>
      unfold printValueArray
      split
      next =>
        obtain ⟨total, none⟩ := printElements_unknown known field.dimSize.toNat 0 count
        exact ⟨total, numbered_none none⟩
      next => exact ⟨rfl, numbered_none (by simp)⟩

def rowsOf (db : TypeDb) : List (Nat × Field) → Nat → List (Nat × List Cell)
  | [], _ => []
  | (j, field) :: fields, count => (j, (printField db field count).1) :: rowsOf db fields (printField db field count).2

theorem printFields_eq (info : TypeInfo) (msg : Addr) (prefixFilter : Text) (js : List Nat) (count : Nat) :
    printFields db mem info msg prefixFilter js count =
      (loadFields db mem info msg js).map fun fields => rowsOf db (visible prefixFilter fields) count := by
  induction js generalizing count with
  | nil => rfl
  | cons j js ih =>
      simp only [printFields, loadFields, bind, Option.bind]
      cases tryByteArrayToZcmtype db mem (info.getField msg j) with
      | none => rfl
      | some field =>
          cases loaded : loadFields db mem info msg js with
          | none => by_cases pass : passes prefixFilter field = true <;> simp [pass, ih, loaded]
          | some fields =>
              by_cases pass : passes prefixFilter field = true <;> simp [pass, ih, loaded, visible, rowsOf]

theorem mem_rowsOf {fields : List (Nat × Field)} {count j : Nat} {cells : List Cell} :
    (j, cells) ∈ rowsOf db fields count ↔ ∃ front field back, fields = front ++ (j, field) :: back ∧
      cells = (printField db field (count + printedBefore db front)).1 := by
  induction fields generalizing count with
  | nil => simp [rowsOf]
  | cons x fields ih =>
      obtain ⟨j', field'⟩ := x
      rw [rowsOf, List.mem_cons, ih, (printField_numbered field' count).1]
      constructor
      · rintro (same | ⟨front, field, back, rfl, rfl⟩)
        · cases same
          exact ⟨[], field', fields, rfl, by simp [printedBefore]⟩
        · exact ⟨(j', field') :: front, field, back, rfl, by simp [printedBefore, Nat.add_assoc]⟩
      · rintro ⟨front, field, back, same, rfl⟩
        rcases List.cons_eq_append_iff.mp same with ⟨rfl, tail⟩ | ⟨front, rfl, rfl⟩
        · cases tail
          exact .inl (by simp [printedBefore])
        · exact .inr ⟨front, field, back, rfl, by simp [printedBefore, Nat.add_assoc]⟩

end Printing

section Traversal

theorem scanElements_found {k n count p : Nat} (index : Nat) (number : k = count + p + 1) (inside : p < n) :
    scanElements k n index count = (true, index + p, k) := by
  induction n generalizing index count p with
  | zero => omega
  | succ n ih =>
      rw [scanElements]
      split
      next here =>
        obtain rfl : p = 0 := by omega
        rw [here, Nat.add_zero]
      next later =>
        obtain ⟨p, rfl⟩ := Nat.exists_eq_succ_of_ne_zero (show p ≠ 0 by omega)
        rw [ih (p := p) (index + 1) (by omega) (by omega)]
        congr 2
        omega

theorem scanElements_passed {k n index count : Nat} (behind : count + n < k) :
    scanElements k n index count = (false, index + n, count + n) := by
  induction n generalizing index count with
  | zero => rfl
  | succ n ih =>
      rw [scanElements, if_neg (by omega), ih (by omega), Nat.add_assoc, Nat.add_assoc, Nat.add_comm 1]

theorem scanFields_found {info : TypeInfo} {msg : Addr} {prefixFilter : Text} {k p j : Nat} {field : Field}
    (inside : p < selectable field) {js : List Nat} {fields front back : List (Nat × Field)}
    (loads : loadFields db mem info msg js = some fields)
    (split : visible prefixFilter fields = front ++ (j, field) :: back) (c : Cursor)
    (number : k = c.userFieldCount + selectableBefore front + p + 1) :
    ∃ c', scanFields db mem info msg k prefixFilter js c = some c' ∧ c'.userFieldCount = k ∧
      c'.field = some field ∧
      c'.j = j ∧ (if c'.insideArray then some c'.index else none) = if field.numDim = 0 then none else some p := by
  induction js generalizing fields front c with
  | nil =>
      cases loads
      simp [visible] at split
  | cons j' js ih =>
      simp only [loadFields, Option.bind_eq_bind, Option.bind_eq_some_iff] at loads
      obtain ⟨field', isField, fields', later, same⟩ := loads
      cases same
      rw [scanFields, isField]
      simp only [Option.bind_eq_bind, Option.bind_some]
      rw [visible_cons] at split
      by_cases pass : passes prefixFilter field' = true
      · simp only [pass, Bool.not_true, Bool.false_eq_true, if_false, if_true] at split ⊢
        rcases List.cons_eq_append_iff.mp split.symm.symm with ⟨rfl, here⟩ | ⟨front, rfl, behind⟩
        · cases here
          have isUser : field.type = .userType := by
            by_contra other
            simp [selectable, other] at inside
          rw [selectable, if_pos isUser] at inside
          simp only [selectableBefore, List.map_nil, List.sum_nil, Nat.add_zero] at number
          rw [if_neg (not_not_intro isUser)]
          by_cases scalar : field.numDim = 0
          · rw [if_pos scalar] at inside ⊢
            rw [if_pos (by omega)]
            exact ⟨_, rfl, by simp; omega, rfl, rfl, by simp [scalar]⟩
          · rw [if_neg scalar] at inside ⊢
            by_cases array : field.numDim = 1
            · rw [if_pos array] at inside ⊢
              rw [scanElements_found 0 (by omega) inside]
              exact ⟨_, rfl, rfl, rfl, rfl, by simp [scalar]⟩
            · rw [if_neg array] at inside
              exact absurd inside (Nat.not_lt_zero _)
        · simp only [selectableBefore, List.map_cons, List.sum_cons] at number
          by_cases isUser : field'.type = .userType
          · rw [if_neg (not_not_intro isUser)]
            rw [selectable, if_pos isUser] at number
            by_cases scalar : field'.numDim = 0
            · rw [if_pos scalar] at number ⊢
              rw [if_neg (by omega)]
              exact ih later behind _ (by simp only [selectableBefore]; omega)
            · rw [if_neg scalar] at number ⊢
              by_cases array : field'.numDim = 1
              · rw [if_pos array] at number ⊢
                rw [scanElements_passed (by omega)]
                exact ih later behind _ (by simp only [selectableBefore]; omega)
              · rw [if_neg array] at number ⊢
                exact ih later behind _ (by simp only [selectableBefore]; omega)
          · rw [if_pos isUser]
            rw [selectable, if_neg isUser] at number
            exact ih later behind _ (by simp only [selectableBefore]; omega)
      · simp only [pass, Bool.not_false, if_true, Bool.false_eq_true, if_false] at split ⊢
        exact ih later split _ number

end Traversal

section Selection

variable {view : View} {prefixFilter : Text} {fields : List (Nat × Field)}

def subView (db : TypeDb) (mem : Memory) (view : View) (j : Nat) (field : Field) (p : Nat) :
    Except Failure View :=
  match typeOf db field with
  | none => .error (.unknownType field.typestr)
  | some metadata => .ok (view.enter mem j field metadata (if field.numDim = 0 then none else some p))

theorem subView_last {j p : Nat} {field : Field} {sub : View} (isSub : subView db mem view j field p = .ok sub) :
    sub.traversal.getLast?.map Step.j = some j := by
  unfold subView at isSub
  cases isType : typeOf db field with
  | none => simp [isType] at isSub
  | some metadata =>
      rw [isType] at isSub
      cases isSub
      simp [View.enter]

theorem descend_found {k p j : Nat} {field : Field} (inside : p < selectable field) {front back : List (Nat × Field)}
    (loads : loadFields db mem view.metadata.info view.msg (List.range view.metadata.info.numFields) = some fields)
    (split : visible prefixFilter fields = front ++ (j, field) :: back) (number : k = selectableBefore front + p + 1) :
    descend db mem view k prefixFilter = some (subView db mem view j field p) := by
  obtain ⟨c, scanned, count, isField, isJ, index⟩ :=
    scanFields_found (k := k) inside loads split ⟨0, none, 0, false, 0⟩
    (by simpa using number)
  rw [descend, scanned]
  simp only [Option.bind_eq_bind, Option.bind_some, count, ne_eq, not_true_eq_false, if_false, isField, isJ, index,
    subView]
  cases typeOf db field <;> rfl

theorem exists_selected {k : Nat} (positive : 0 < k) (inside : k ≤ selectableBefore fields) :
    ∃ front j field back p, fields = front ++ (j, field) :: back ∧ p < selectable field ∧
      k = selectableBefore front + p + 1 := by
  induction fields generalizing k with
  | nil => simp [selectableBefore] at inside; omega
  | cons x fields ih =>
      obtain ⟨j, field⟩ := x
      simp only [selectableBefore, List.map_cons, List.sum_cons] at inside ih
      by_cases here : k ≤ selectable field
      · exact ⟨[], j, field, fields, k - 1, rfl, by omega, by simp [selectableBefore]; omega⟩
      · obtain ⟨front, j', field', back, p, rfl, less, number⟩ :=
          ih (k := k - selectable field) (by omega) (by omega)
        refine ⟨(j, field) :: front, j', field', back, p, rfl, less, ?_⟩
        simp only [selectableBefore, List.map_cons, List.sum_cons] at number ⊢
        omega

theorem loadFields_fst {info : TypeInfo} {msg : Addr} {js : List Nat}
    (loads : loadFields db mem info msg js = some fields) :
    fields.map Prod.fst = js := by
  induction js generalizing fields with
  | nil =>
      cases loads
      rfl
  | cons j js ih =>
      simp only [loadFields, Option.bind_eq_bind, Option.bind_eq_some_iff] at loads
      obtain ⟨field, -, fields', later, same⟩ := loads
      cases same
      rw [List.map_cons, ih later]

theorem loadFields_mem {info : TypeInfo} {msg : Addr} {js : List Nat}
    (loads : loadFields db mem info msg js = some fields)
    {j : Nat} {field : Field} (member : (j, field) ∈ fields) :
    tryByteArrayToZcmtype db mem (info.getField msg j) = some field := by
  induction js generalizing fields with
  | nil =>
      cases loads
      cases member
  | cons j' js ih =>
      simp only [loadFields, Option.bind_eq_bind, Option.bind_eq_some_iff] at loads
      obtain ⟨field', isField, fields', later, same⟩ := loads
      cases same
      rcases List.mem_cons.mp member with same | member
      · cases same
        exact isField
      · exact ih later member

theorem printedBefore_le (fields : List (Nat × Field)) : printedBefore db fields ≤ selectableBefore fields := by
  induction fields with
  | nil => exact Nat.le_refl _
  | cons x fields ih =>
      have here := @printed_le_selectable db x.2
      simp only [printedBefore, selectableBefore, List.map_cons, List.sum_cons] at ih ⊢
      omega

theorem printedBefore_eq_iff (fields : List (Nat × Field)) :
    printedBefore db fields = selectableBefore fields ↔ ∀ x ∈ fields, printed db x.2 = selectable x.2 := by
  induction fields with
  | nil => simp [printedBefore, selectableBefore]
  | cons x fields ih =>
      have here := @printed_le_selectable db x.2
      have later := @printedBefore_le db fields
      simp only [printedBefore, selectableBefore, List.map_cons, List.sum_cons, List.forall_mem_cons] at ih later ⊢
      rw [← ih]
      omega

theorem resolve_append (table table' : List (Nat × Text)) (view : View) :
    resolve db mem view (table ++ table') = match resolve db mem view table with
      | none => none
      | some (.error failure) => some (.error failure)
      | some (.ok view') => resolve db mem view' table' := by
  induction table generalizing view with
  | nil => rfl
  | cons entry table ih =>
      obtain ⟨recurI, prefixFilter⟩ := entry
      rw [List.cons_append, resolve, resolve]
      cases descend db mem view recurI prefixFilter with
      | none => rfl
      | some result =>
          cases result with
          | error failure => rfl
          | ok view' => exact ih view'

/-- In the fields that pass the filter, all elements before a printed number have got numbers themselves: no type is
unknown and no array is cut. -/
def AllNumbered (db : TypeDb) (fields : List (Nat × Field)) : Prop :=
  ∀ front x back, fields = front ++ x :: back → 0 < printed db x.2 →
    ∀ y ∈ front, printed db y.2 = selectable y.2

theorem msgDisplay_eq_ok {metadata : TypeMetadata} {msg : Addr} {recurTable : List (Nat × Text)}
    {rows : List (Nat × List Cell)} :
    msgDisplay db mem metadata msg recurTable prefixFilter = some (.ok (view, rows)) ↔
    resolve db mem ⟨[], metadata, msg⟩ recurTable = some (.ok view) ∧ ∃ fields,
      loadFields db mem view.metadata.info view.msg (List.range view.metadata.info.numFields) = some fields ∧
      rowsOf db (visible prefixFilter fields) 0 = rows := by
  unfold msgDisplay
  cases resolve db mem ⟨[], metadata, msg⟩ recurTable with
  | none => simp
  | some result =>
      cases result with
      | error failure => simp
      | ok view' =>
          simp only [printFields_eq, Option.map_map, Option.map_eq_some_iff, Function.comp_apply, Except.ok.injEq,
            Prod.mk.injEq, Option.some.injEq]
          constructor
          · rintro ⟨fields, loads, rfl, rows⟩
            exact ⟨rfl, fields, loads, rows⟩
          · rintro ⟨rfl, fields, loads, rows⟩
            exact ⟨fields, loads, rfl, rows⟩

/-- Descending with a number that is printed shows the thing it is printed for. -/
def NumbersSelect (db : TypeDb) (mem : Memory) (metadata : TypeMetadata) (msg : Addr) (recurTable : List (Nat × Text))
    (prefixFilter : Text) (view : View) (rows : List (Nat × List Cell)) : Prop :=
  ∀ j cells p k, (j, cells) ∈ rows → cells[p]? = some (.number k) →
    ∃ field sub, tryByteArrayToZcmtype db mem (view.metadata.info.getField view.msg j) = some field ∧
      subView db mem view j field p = .ok sub ∧
      resolve db mem ⟨[], metadata, msg⟩ (recurTable ++ [(k, prefixFilter)]) = some (.ok sub)

/-- The numbers of a view select what they are printed for if and only if all elements before them have got numbers. -/
theorem msgDisplay_selects_iff (db : TypeDb) (mem : Memory) (metadata : TypeMetadata) (msg : Addr)
    (recurTable : List (Nat × Text)) (prefixFilter : Text) (view : View) (rows : List (Nat × List Cell))
    (shown : msgDisplay db mem metadata msg recurTable prefixFilter = some (.ok (view, rows))) :
    NumbersSelect db mem metadata msg recurTable prefixFilter view rows ↔
      ∃ fields, loadFields db mem view.metadata.info view.msg
        (List.range view.metadata.info.numFields) = some fields ∧
        AllNumbered db (visible prefixFilter fields) := by
  obtain ⟨resolved, fields, loads, rfl⟩ := msgDisplay_eq_ok.mp shown
  have resolves {k : Nat} {result : Except Failure View} (down : descend db mem view k prefixFilter = some result) :
      resolve db mem ⟨[], metadata, msg⟩ (recurTable ++ [(k, prefixFilter)]) = some result := by
    rw [resolve_append, resolved]
    simp only [resolve, down]
    cases result <;> rfl
  constructor
  · refine fun selects => ⟨fields, loads, fun front x back split numbered => ?_⟩
    by_contra cut
    rw [← printedBefore_eq_iff] at cut
    have less := Nat.lt_of_le_of_ne (@printedBefore_le db front) cut
    obtain ⟨j, field⟩ := x
    have row : (j, (printField db field (printedBefore db front)).1) ∈ rowsOf db (visible prefixFilter fields) 0 :=
      mem_rowsOf.mpr ⟨front, field, back, split, by rw [Nat.zero_add]⟩
    have first := ((printField_numbered field (printedBefore db front)).2.iff 0 _).mpr ⟨numbered, rfl⟩
    obtain ⟨field', sub, -, isSub, selected⟩ := selects j _ 0 _ row first
    -- the number selects an element of a field before this one
    obtain ⟨front', j', field'', back', p, rfl, inside, number⟩ :=
      (@exists_selected front) (Nat.succ_pos (printedBefore db front)) less
    have other := resolves (descend_found inside loads (by rw [split, List.append_assoc]; rfl) number)
    rw [Nat.add_zero] at selected
    have isSub' := Option.some.inj (other.symm.trans selected)
    have same : j' = j := Option.some.inj ((subView_last isSub').symm.trans (subView_last isSub))
    have distinct : ((visible prefixFilter fields).map Prod.fst).Nodup := by
      have all : (fields.map Prod.fst).Nodup := loadFields_fst loads ▸ List.nodup_range
      exact all.sublist (List.filter_sublist.map _)
    rw [split, List.map_append] at distinct
    exact List.disjoint_of_nodup_append distinct (a := j') (by simp) (by simp [same])
  · rintro ⟨_, loads', all⟩ j cells p k row here
    cases loads.symm.trans loads'
    obtain ⟨front, field, back, split, rfl⟩ := mem_rowsOf.mp row
    rw [Nat.zero_add] at here
    obtain ⟨inside, number⟩ := ((printField_numbered field (printedBefore db front)).2.iff p k).mp here
    have counts := (printedBefore_eq_iff front).mpr (all front (j, field) back split (Nat.zero_lt_of_lt inside))
    have known : (typeOf db field).isSome = true := by
      by_contra unknown
      simp [printed, unknown] at inside
    obtain ⟨metadata', isType⟩ := Option.isSome_iff_exists.mp known
    have found := descend_found (Nat.lt_of_lt_of_le inside (printed_le_selectable field)) loads split
      (counts ▸ number)
    have member : (j, field) ∈ visible prefixFilter fields := by simp [split]
    have isSub : subView db mem view j field p =
        .ok (view.enter mem j field metadata' (if field.numDim = 0 then none else some p)) := by rw [subView, isType]
    exact ⟨field, _, loadFields_mem loads (List.mem_of_mem_filter member), isSub, resolves (isSub ▸ found)⟩

section Unknown

/-- A message of two sub-messages, the first of a type that the database does not have. -/
def outer : TypeMetadata where
  name := [79]
  info :=
    { structSize := 16
      numFields := 2
      getField := fun msg i =>
        if i = 0 then ⟨[97], .userType, [85], 0, 0, false, msg⟩
        else ⟨[98], .userType, [73], 0, 0, false, msg + 8⟩ }

def inner : TypeMetadata where
  name := [73]
  info := { structSize := 8, numFields := 0, getField := fun msg _ => ⟨[], .byte, [], 0, 0, false, msg⟩ }

def withoutUnknown : TypeDb where
  getByHash _ := none
  getByName name := if name = [73] then some inner else none

def noMemory : Memory where
  pointerAt p := p
  int64At _ := 0
  decode _ _ _ := none

def outerRows : List (Nat × List Cell) := [(0, [.unknownUserType]), (1, [.number 1])]

/-- The second field is printed as number 1, which selects the first. -/
theorem second_not_selected :
    msgDisplay withoutUnknown noMemory outer 0 [] [] = some (.ok (⟨[], outer, 0⟩, outerRows)) ∧
    msgDisplay withoutUnknown noMemory outer 0 [(1, [])] [] = some (.error (.unknownType [85])) :=
  ⟨rfl, rfl⟩

theorem outer_selects_iff : NumbersSelect withoutUnknown noMemory outer 0 [] [] ⟨[], outer, 0⟩ outerRows ↔
    ∃ fields, loadFields withoutUnknown noMemory outer.info 0 (List.range 2) = some fields ∧
      AllNumbered withoutUnknown (visible [] fields) :=
  msgDisplay_selects_iff withoutUnknown noMemory outer 0 [] [] ⟨[], outer, 0⟩ outerRows rfl

end Unknown

end Selection

end Zcm.SpyLite
