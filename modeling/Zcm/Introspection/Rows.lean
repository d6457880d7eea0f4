import Mathlib.Logic.Function.Iterate
import Zcm.Introspection.Leaves
import Zcm.Lib.Arrays

namespace Zcm.Introspection
open Zcm.Lib Zcm.Gen

section Elements

variable {abi : Abi} {mem : Memory} {elementSize : Nat}

theorem elements_indices (allocated : Bool) (ns : List Nat) (a : Address) :
    (elements abi mem elementSize allocated ns a).map (·.1) = indices ns := by
  induction ns generalizing a with
  | nil => rfl
  | cons n ns ih =>
      rw [elements, indices, List.map_flatMap]
      congr 1
      funext i
      rw [← ih, List.map_map, List.map_map]
      rfl

theorem visited_indices (dims : List Dim) (a : Address) :
    (visited mem elementSize dims a).map (·.1) = indices (dims.map (·.size.toNat)) := by
  induction dims generalizing a with
  | nil => rfl
  | cons dim dims ih =>
      rw [visited, List.map_cons, indices, List.map_flatMap]
      congr 1
      funext i
      rw [← ih, List.map_map, List.map_map]
      rfl

def followed (dims : List Dim) : Nat := (dims.dropLast.filter (·.isVariable)).length

theorem followed_cons (dim next : Dim) (dims : List Dim) :
    followed (dim :: next :: dims) = followed (next :: dims) + (if dim.isVariable then 1 else 0) := by
  cases isVar : dim.isVariable with
  | true => simp [followed, isVar]
  | false => simp [followed, isVar]

theorem visited_address {dims : List Dim} {a : Address} {is : List Nat} {i : Nat} {address : Address}
    (element : (is ++ [i], address) ∈ visited mem elementSize dims a) :
    address = mem.pointer^[followed dims] a + i * elementSize := by
  induction dims generalizing a is with
  | nil => simp [visited] at element
  | cons dim dims ih =>
      simp only [visited, List.mem_flatMap, List.mem_map, Prod.mk.injEq] at element
      obtain ⟨first, _, ⟨js, _⟩, inner, same, rfl⟩ := element
      cases dims with
      | nil =>
          simp only [visited, List.mem_singleton, Prod.mk.injEq, if_true] at inner
          obtain ⟨rfl, rfl⟩ := inner
          obtain ⟨rfl, last⟩ := @List.append_inj' _ [] _ _ _ same rfl
          cases last
          rfl
      | cons next dims =>
          cases is with
          | nil =>
              obtain ⟨_, rfl⟩ := List.cons.inj same
              simp [visited] at inner
          | cons first' is =>
              obtain ⟨_, rfl⟩ := List.cons.inj same
              simp only [reduceCtorEq, if_false] at inner
              rw [ih inner, followed_cons, Function.iterate_add_apply]
              cases dim.isVariable <;> rfl

theorem elements_first {ns : List Nat} {a address : Address}
    (element : (ns.map fun _ => 0, address) ∈ elements abi mem elementSize true ns a) :
    address = mem.pointer^[ns.length - 1] a := by
  induction ns generalizing a with
  | nil =>
      simp only [elements, List.map_nil, List.mem_singleton, Prod.mk.injEq] at element
      exact element.2
  | cons n ns ih =>
      simp only [elements, List.mem_flatMap, List.mem_map, Prod.mk.injEq, List.map_cons] at element
      obtain ⟨first, _, ⟨js, _⟩, inner, same, rfl⟩ := element
      obtain ⟨rfl, rfl⟩ := List.cons.inj same
      rw [ih inner]
      cases ns with
      | nil => simp
      | cons next ns => simp

theorem followed_lt {dims : List Dim} {dim : Dim} (row : dim ∈ dims.dropLast) (stays : dim.isVariable = false) :
    followed dims + 1 < dims.length := by
  have fewer : followed dims < dims.dropLast.length :=
    List.length_filter_lt_length_iff_exists.mpr ⟨dim, row, by simp [stays]⟩
  rw [List.length_dropLast] at fewer
  omega

theorem start_eq (cell : Address) (dims : List Dim) :
    ∃ k ≤ 1, start mem cell dims = mem.pointer^[k] cell := by
  cases dims with
  | nil => exact ⟨0, Nat.zero_le _, rfl⟩
  | cons dim dims =>
      cases isVar : dim.isVariable with
      | true => exact ⟨1, Nat.le_refl _, by simp [start, isVar]⟩
      | false => exact ⟨0, Nat.zero_le _, by simp [start, isVar]⟩

end Elements

section Separate

variable (Γ : Env) (abi : Abi) (mem : Memory)

/-- The elements of a member are at different addresses, and no pointer on the way to the first of them leads
back to where the way has been. -/
structure SeparateMember (s : Struct) (p : Address) (m : Member) (i : Nat) : Prop where
  apart : ∀ e ∈ memberElements Γ abi mem s p m i, ∀ e' ∈ memberElements Γ abi mem s p m i, e.2 = e'.2 →
    e.1 = e'.1
  chain : memberElements Γ abi mem s p m i ≠ [] → m.isConstantSizeArray = false → ∀ k < m.dimensions.length,
    mem.pointer^[k] (p + abi.offset s i) ≠ mem.pointer^[m.dimensions.length] (p + abi.offset s i)

/-- So are those of all members of the message and of the messages in it. -/
def Separate : Nat → Struct → Address → Prop
  | 0, _, _ => True
  | fuel + 1, s, p => ∀ m i, (m, i) ∈ s.members.zipIdx → SeparateMember Γ abi mem s p m i ∧
      ∀ fullname t, m.type = .user fullname → Γ.lookup fullname = some t →
        ∀ e ∈ memberElements Γ abi mem s p m i, Separate fuel t e.2

variable {Γ : Env} {abi : Abi} {mem : Memory} {s : Struct} {p : Address} {m : Member} {i : Nat}

def memberSizes (abi : Abi) (mem : Memory) (s : Struct) (p : Address) (m : Member) : List Nat :=
  m.dimensions.map fun d => (size abi mem s p d).toNat

theorem exists_memberElements {is : List Nat} :
    (∃ a, (is, a) ∈ memberElements Γ abi mem s p m i) ↔ Within is (memberSizes abi mem s p m) := by
  rw [← mem_indices, memberSizes, ← elements_indices, List.mem_map]
  constructor
  · rintro ⟨a, element⟩
    exact ⟨_, element, rfl⟩
  · rintro ⟨e, element, rfl⟩
    exact ⟨_, element⟩

theorem exists_memberVisited {is : List Nat} :
    (∃ a, (is, a) ∈ memberVisited Γ abi mem s p m i) ↔
    Within is ((memberDims abi mem s p m).map (·.size.toNat)) := by
  rw [← mem_indices, ← visited_indices, List.mem_map]
  constructor
  · rintro ⟨a, element⟩
    exact ⟨_, element, rfl⟩
  · rintro ⟨e, element, rfl⟩
    exact ⟨_, element⟩

structure Comes (Γ : Env) (abi : Abi) (mem : Memory) (s : Struct) (p : Address) (m : Member) (i : Nat) : Prop where
  found : ∀ is, (∃ a, (is, a) ∈ memberVisited Γ abi mem s p m i) ↔
    ∃ a, (is, a) ∈ memberElements Γ abi mem s p m i
  located : ∀ is a b, (is, a) ∈ memberVisited Γ abi mem s p m i →
    (is, b) ∈ memberElements Γ abi mem s p m i → a = b

theorem Comes.sizes (comes : Comes Γ abi mem s p m i) :
    (∃ d ∈ m.dimensions, size abi mem s p d ≤ 0) ∧
        (∃ d ∈ m.dimensions, asInt32 (size abi mem s p d) ≤ 0) ∨
      0 ∉ memberSizes abi mem s p m ∧
        ∀ d ∈ m.dimensions, asInt32 (size abi mem s p d) = size abi mem s p d := by
  have converted : (memberDims abi mem s p m).map (·.size.toNat) =
      m.dimensions.map fun d => (asInt32 (size abi mem s p d)).toNat := by
    rw [memberDims, List.map_map]
    rfl
  have zero (f : Dimension → Int) (none : 0 ∈ m.dimensions.map fun d => (f d).toNat) :
      ∃ d ∈ m.dimensions, f d ≤ 0 := by
    obtain ⟨d, inDims, small⟩ := List.mem_map.mp none
    exact ⟨d, inDims, Int.toNat_eq_zero.mp small⟩
  have same is : Within is (memberSizes abi mem s p m) ↔
      Within is (m.dimensions.map fun d => (asInt32 (size abi mem s p d)).toNat) := by
    rw [← exists_memberElements, ← converted, ← exists_memberVisited, comes.found]
  rcases sizes_eq same with equal | ⟨none, none'⟩
  · by_cases positive : 0 ∈ memberSizes abi mem s p m
    · exact .inl ⟨zero _ positive, zero _ (equal ▸ positive)⟩
    · refine .inr ⟨positive, fun d inDims => ?_⟩
      have equalHere : (size abi mem s p d).toNat = (asInt32 (size abi mem s p d)).toNat :=
        List.map_inj_left.mp equal d inDims
      have some : (size abi mem s p d).toNat ≠ 0 := fun none => positive (none ▸ List.mem_map_of_mem inDims)
      omega
  · exact .inl ⟨zero _ none, zero _ none'⟩

theorem Comes.one (comes : Comes Γ abi mem s p m i) (separate : SeparateMember Γ abi mem s p m i)
    (positive : 0 ∉ memberSizes abi mem s p m) : ∀ d ∈ m.dimensions.dropLast, size abi mem s p d = 1 := by
  rcases List.eq_nil_or_concat m.dimensions with none | ⟨rows, last, dims⟩
  · simp [none]
  rw [dims, List.concat_eq_append, List.dropLast_concat]
  have sizes : memberSizes abi mem s p m = rows.map (fun d => (size abi mem s p d).toNat) ++
      [(size abi mem s p last).toNat] := by
    simp [memberSizes, dims]
  have ones := rows_one (sizes ▸ positive) fun is js k inFirst inSecond => by
    rw [← sizes] at inFirst inSecond
    obtain ⟨b, element⟩ := exists_memberElements.mpr inFirst
    obtain ⟨b', element'⟩ := exists_memberElements.mpr inSecond
    obtain ⟨a, visit⟩ := (comes.found _).mpr ⟨b, element⟩
    obtain ⟨a', visit'⟩ := (comes.found _).mpr ⟨b', element'⟩
    have sameAddress : b = b' := by
      rw [← comes.located _ _ _ visit element, ← comes.located _ _ _ visit' element', visited_address visit,
        visited_address visit']
    exact List.append_cancel_right (separate.apart _ element _ element' sameAddress)
  intro d inRows
  have one : (size abi mem s p d).toNat = 1 := ones _ (List.mem_map_of_mem inRows)
  omega

theorem Comes.follows (comes : Comes Γ abi mem s p m i) (separate : SeparateMember Γ abi mem s p m i)
    (positive : 0 ∉ memberSizes abi mem s p m) :
    m.isConstantSizeArray = true ∨ ∀ d ∈ m.dimensions.dropLast, d.isVar = true := by
  by_contra neither
  obtain ⟨allocated, stays⟩ := not_or.mp neither
  obtain ⟨d, row, constant⟩ : ∃ d ∈ m.dimensions.dropLast, d.isVar = false := by simpa using stays
  obtain ⟨rows, last, dims⟩ := (List.eq_nil_or_concat m.dimensions).resolve_left fun none => by simp [none] at row
  obtain ⟨b, element⟩ := exists_memberElements.mpr (within_zeros positive)
  obtain ⟨a, visit⟩ := (comes.found _).mpr ⟨b, element⟩
  have behind : b = mem.pointer^[m.dimensions.length] (p + abi.offset s i) := by
    rw [memberElements, if_neg allocated, Bool.eq_false_iff.mpr allocated] at element
    have size : (memberSizes abi mem s p m).length - 1 + 1 = m.dimensions.length := by simp [memberSizes, dims]
    rw [elements_first element, ← Function.iterate_succ_apply, Nat.succ_eq_add_one, ← size]
    rfl
  have before : ∃ k < m.dimensions.length, a = mem.pointer^[k] (p + abi.offset s i) := by
    have zeros : (memberSizes abi mem s p m).map (fun _ => 0) = rows.map (fun _ => 0) ++ [0] := by
      simp [memberSizes, dims, Function.comp_def]
    rw [zeros] at visit
    obtain ⟨k, atMost, started⟩ := @start_eq mem (p + abi.offset s i) (memberDims abi mem s p m)
    have reached := visited_address visit
    rw [started, ← Function.iterate_add_apply, Nat.zero_mul, Nat.add_zero] at reached
    have fewer : followed (memberDims abi mem s p m) + 1 < (memberDims abi mem s p m).length := by
      refine @followed_lt _ ⟨asInt32 (size abi mem s p d), d.isVar⟩ ?_ constant
      rw [memberDims, ← List.map_dropLast]
      exact List.mem_map_of_mem row
    have length : (memberDims abi mem s p m).length = m.dimensions.length := List.length_map _
    exact ⟨_, by omega, reached⟩
  obtain ⟨k, fewer, reached⟩ := before
  refine separate.chain (List.ne_nil_of_mem element) (by simpa using allocated) k fewer ?_
  rw [← reached, ← behind, comes.located _ _ _ visit element]

theorem Comes.straight (comes : Comes Γ abi mem s p m i) (separate : SeparateMember Γ abi mem s p m i)
    (room : m.dimensions.length ≤ typeFieldMaxDim)
    (type : memberElements Γ abi mem s p m i ≠ [] → ∀ fullname, m.type = .user fullname →
    fieldType m.type = .userType) :
    StraightMember abi mem s p m := by
  refine ⟨room, comes.sizes.imp_right fun ⟨positive, sizes⟩ => ?_⟩
  obtain ⟨a, element⟩ := (exists_memberElements (Γ := Γ) (i := i)).mpr (within_zeros positive)
  exact ⟨type (List.ne_nil_of_mem element), sizes, comes.one separate positive, comes.follows separate positive⟩

end Separate

end Zcm.Introspection
