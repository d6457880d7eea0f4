import Zcm.Introspection.Process

namespace Zcm.Introspection
open Zcm.Lib Zcm.Gen

section Leaves

variable (Γ : Env) (abi : Abi) (mem : Memory)

/-- The elements of an array, with their indices. An array with a variable dimension is in allocated blocks,
where each dimension but the last is a table of pointers. -/
def elements (elementSize : Nat) (allocated : Bool) : List Nat → Address → List (List Nat × Address)
  | [], a => [([], a)]
  | n :: ns, a => (List.range n).flatMap fun i =>
      (elements elementSize allocated ns
        (if !allocated then a + i * (ns.prod * elementSize)
          else if ns = [] then a + i * elementSize else mem.pointer (a + i * abi.pointerSize))).map fun e =>
            (i :: e.1, e.2)

def elementSize : Typename → Nat
  | .prim p | .bits p _ _ => p.size
  | .string => abi.pointerSize
  | .user name => ((Γ.lookup name).map abi.structSize).getD 0

def memberElements (s : Struct) (p : Address) (m : Member) (i : Nat) : List (List Nat × Address) :=
  elements abi mem (elementSize Γ abi m.type) (!m.isConstantSizeArray)
    (m.dimensions.map fun d => (size abi mem s p d).toNat)
    (if m.isConstantSizeArray then p + abi.offset s i else mem.pointer (p + abi.offset s i))

def collect {α β : Type} (f : α → Option (List β)) : List α → Option (List β)
  | [] => some []
  | x :: xs => do
      let first ← f x
      let later ← collect f xs
      some (first ++ later)

variable {N : Type} (append : N → String → N)

def indexed (name : N) (indices : List Nat) : N := indices.foldl (fun name i => append name (toString i)) name

def leavesOf (callee : N → Struct → Address → Option (List (Call N))) (name : N) (a : Address) :
    Typename → Option (List (Call N))
  | .prim p | .bits p _ _ => some [⟨name, .prim p, a⟩]
  | .string => some [⟨name, .string, a⟩]
  | .user fullname => (Γ.lookup fullname).bind fun s => callee name s a

/-- The calls that are due for the message at an address, if its types nest at most as deep as the fuel says. -/
def scalarLeaves : Nat → N → Struct → Address → Option (List (Call N))
  | 0, _, _, _ => none
  | fuel + 1, name, s, p =>
      collect (fun (m, i) =>
        collect (fun e => leavesOf Γ (scalarLeaves fuel) (indexed append (append name m.membername) e.1) e.2 m.type)
          (memberElements Γ abi mem s p m i))
        s.members.zipIdx

end Leaves

section Straight

variable (Γ : Env) (abi : Abi) (mem : Memory)

/-- The emitter takes the type of a member for what it is, and one `int32_t` holds each size. There is one
row in each dimension but the last, and a pointer to follow in all of these or in none. -/
structure StraightRows (s : Struct) (p : Address) (m : Member) : Prop where
  type : ∀ fullname, m.type = .user fullname → fieldType m.type = .userType
  sizes : ∀ d ∈ m.dimensions, asInt32 (size abi mem s p d) = size abi mem s p d
  one : ∀ d ∈ m.dimensions.dropLast, size abi mem s p d = 1
  follows : m.isConstantSizeArray = true ∨ ∀ d ∈ m.dimensions.dropLast, d.isVar = true

/-- The member has no elements, also with the sizes as they are converted, or its rows are straight. -/
structure StraightMember (s : Struct) (p : Address) (m : Member) : Prop where
  room : m.dimensions.length ≤ typeFieldMaxDim
  rows : (∃ d ∈ m.dimensions, size abi mem s p d ≤ 0) ∧
    (∃ d ∈ m.dimensions, asInt32 (size abi mem s p d) ≤ 0) ∨
    StraightRows abi mem s p m

/-- All members of the message are straight, and those of the messages in it. -/
def Straight : Nat → Struct → Address → Prop
  | 0, _, _ => True
  | fuel + 1, s, p => ∀ m i, (m, i) ∈ s.members.zipIdx → StraightMember abi mem s p m ∧
      ∀ fullname t, m.type = .user fullname → Γ.lookup fullname = some t →
        ∀ e ∈ memberElements Γ abi mem s p m i, Straight fuel t e.2

/-- The types of the members are found, and none is an array of bytes. -/
structure Described (typeDb : String → Option Struct) (s : Struct) : Prop where
  found : ∀ m ∈ s.members, ∀ fullname, m.type = .user fullname →
    ∃ t, Γ.lookup fullname = some t ∧ typeDb (dotsToUnderscores fullname) = some t
  noBytes : ∀ m ∈ s.members, m.dimensions ≠ [] → fieldType m.type ≠ .prim .byte

end Straight

section Loops

variable {N α : Type} {visit : α → Option (Outcome N)}

theorem each_singleton (x : α) : each visit [x] = visit x := by
  cases result : visit x with
  | none => simp [each, result]
  | some outcome => simp [each, result]

theorem each_append (xs ys : List α) :
    each visit (xs ++ ys) = (each visit xs).bind fun first => (each visit ys).map fun later =>
      (first.1 && later.1, first.2 ++ later.2) := by
  induction xs with
  | nil => simp [each]
  | cons x xs ih =>
      simp only [List.cons_append, each, ih]
      cases visit x with
      | none => rfl
      | some first =>
          cases each visit xs with
          | none => rfl
          | some middle =>
              cases each visit ys with
              | none => rfl
              | some later => simp [Bool.and_assoc]

theorem each_flatMap {β : Type} (f : β → List α) (xs : List β) :
    each visit (xs.flatMap f) = each (fun x => each visit (f x)) xs := by
  induction xs with
  | nil => rfl
  | cons x xs ih =>
      rw [List.flatMap_cons, each_append, ih]
      simp only [each]
      cases each visit (f x) with
      | none => rfl
      | some first => cases each (fun x => each visit (f x)) xs <;> rfl

theorem each_map {β : Type} (f : β → α) (xs : List β) :
    each visit (xs.map f) = each (fun x => visit (f x)) xs := by
  induction xs with
  | nil => rfl
  | cons x xs ih => simp only [List.map_cons, each, ih]

theorem each_collect {leaf : α → Option (List (Call N))} {xs : List α}
    (rounds : ∀ x ∈ xs, ∀ calls, leaf x = some calls → visit x = some (true, calls)) {calls : List (Call N)}
    (due : collect leaf xs = some calls) : each visit xs = some (true, calls) := by
  induction xs generalizing calls with
  | nil =>
      cases due
      rfl
  | cons x xs ih =>
      simp only [collect, Option.bind_eq_bind, Option.bind_eq_some_iff] at due
      obtain ⟨first, here, later, rest, same⟩ := due
      cases same
      have visited := rounds x List.mem_cons_self first here
      have others := ih (fun x' member => rounds x' (List.mem_cons_of_mem _ member)) rest
      simp [each, visited, others]

end Loops

section Visited

/-- The elements that `processArray` comes to, with their indices and the addresses it takes for theirs. -/
def visited (mem : Memory) (elementSize : Nat) : List Dim → Address → List (List Nat × Address)
  | [], a => [([], a)]
  | dim :: dims, a => (List.range dim.size.toNat).flatMap fun i =>
      (visited mem elementSize dims
        (if dims = [] then a + i * elementSize else if dim.isVariable then mem.pointer a else a)).map fun e =>
          (i :: e.1, e.2)

def visitSize (Γ : Env) (abi : Abi) (t : Typename) : Nat :=
  match fieldType t with
  | .prim p => p.size
  | .string => abi.pointerSize
  | .userType => elementSize Γ abi t

def memberDims (abi : Abi) (mem : Memory) (s : Struct) (p : Address) (m : Member) : List Dim :=
  m.dimensions.map fun d => ⟨asInt32 (size abi mem s p d), d.isVar⟩

def start (mem : Memory) (cell : Address) : List Dim → Address
  | [] => cell
  | dim :: _ => if dim.isVariable then mem.pointer cell else cell

def memberVisited (Γ : Env) (abi : Abi) (mem : Memory) (s : Struct) (p : Address) (m : Member) (i : Nat) :
    List (List Nat × Address) :=
  visited mem (visitSize Γ abi m.type) (memberDims abi mem s p m) (start mem (p + abi.offset s i)
    (memberDims abi mem s p m))

variable {Γ : Env} {abi : Abi} {mem : Memory} {typeDb : String → Option Struct} {N : Type}
  {append : N → String → N}
  {encoded : N → Address → Int → Outcome N} {callee : N → Struct → Address → Option (Outcome N)}

theorem processArray_cons {type : FieldType} (notByte : type ≠ .prim .byte) (typestr : String) (dim : Dim)
    (dims : List Dim)
    (name : N) (data : Address) :
    processArray abi mem typeDb append encoded callee type typestr (dim :: dims) name data =
      each (fun i =>
        if dims = [] then processElement abi typeDb callee (append name (toString i)) type typestr data i
        else processArray abi mem typeDb append encoded callee type typestr dims (append name (toString i))
          (if dim.isVariable then mem.pointer data else data)) (List.range dim.size.toNat) := by
  rw [processArray, if_neg fun both => notByte both.1]

theorem processElement_eq {t : Typename} (notByte : fieldType t ≠ .prim .byte)
    (found : ∀ fullname, t = .user fullname →
      ∃ s, Γ.lookup fullname = some s ∧ typeDb (dotsToUnderscores fullname) = some s)
    (name : N) (data : Address) (i : Nat) :
    processElement abi typeDb callee name (fieldType t) (typestr t) data i =
      processScalar typeDb callee name (fieldType t) (typestr t) (data + i * visitSize Γ abi t) := by
  cases type : fieldType t with
  | prim p =>
      cases p with
      | byte => exact absurd type notByte
      | _ => simp [processElement, visitSize, type]
  | string => simp [processElement, visitSize, type]
  | userType =>
      cases t with
      | user fullname =>
          obtain ⟨s, known, inDb⟩ := found fullname rfl
          simp [processElement, processScalar, visitSize, type, typestr, inDb, elementSize, known]
      | prim p => cases type
      | bits p numbits signExtend => cases type
      | string => cases type

theorem processArray_visited {type : FieldType} (notByte : type ≠ .prim .byte) {typestr : String} {elementSize : Nat}
    (element : ∀ name data i, processElement abi typeDb callee name type typestr data i =
      processScalar typeDb callee name type typestr (data + i * elementSize))
    {dims : List Dim} (array : dims ≠ []) (name : N) (data : Address) :
    processArray abi mem typeDb append encoded callee type typestr dims name data =
      each (fun e => processScalar typeDb callee (indexed append name e.1) type typestr e.2)
        (visited mem elementSize dims data) := by
  induction dims generalizing name data with
  | nil => exact absurd rfl array
  | cons dim dims ih =>
      rw [processArray_cons notByte, visited, each_flatMap]
      congr 1
      funext i
      rw [each_map]
      cases dims with
      | nil =>
          simp only [visited, if_true, element]
          rw [each_singleton]
          rfl
      | cons next dims =>
          simp only [reduceCtorEq, if_false]
          exact ih (by simp) _ _

theorem processField_visited {s : Struct} {p : Address} {m : Member} {i : Nat} (described : Described Γ typeDb s)
    (member : m ∈ s.members) {f : Field} (field : getField abi mem s p m i = some f) (name : N) :
    processField abi mem typeDb append encoded callee name f =
      each (fun e => processScalar typeDb callee (indexed append (append name m.membername) e.1) (fieldType m.type)
        (typestr m.type) e.2) (memberVisited Γ abi mem s p m i) := by
  unfold getField at field
  split at field
  next => cases field
  next =>
    cases field
    change (match memberDims abi mem s p m with
      | [] => _
      | dim :: dims => _) = _
    rw [memberVisited]
    cases dims : memberDims abi mem s p m with
    | nil =>
        simp only [visited, start]
        rw [each_singleton]
        rfl
    | cons dim rest =>
        have array : m.dimensions ≠ [] := fun empty => by simp [memberDims, empty] at dims
        have notByte := described.noBytes m member array
        exact processArray_visited notByte (processElement_eq notByte (described.found m member)) (by simp) _ _

end Visited

section Rows

variable {Γ : Env} {abi : Abi} {mem : Memory} {elementSize : Nat}

theorem elements_nothing {allocated : Bool} {ns : List Nat} (nothing : 0 ∈ ns) (a : Address) :
    elements abi mem elementSize allocated ns a = [] := by
  induction ns generalizing a with
  | nil => cases nothing
  | cons n ns ih =>
      rcases List.mem_cons.mp nothing with rfl | later
      · rfl
      · simp [elements, ih later]

theorem visited_nothing {dims : List Dim} (nothing : ∃ d ∈ dims, d.size ≤ 0) (a : Address) :
    visited mem elementSize dims a = [] := by
  induction dims generalizing a with
  | nil =>
      obtain ⟨d, inDims, _⟩ := nothing
      cases inDims
  | cons dim dims ih =>
      obtain ⟨d, inDims, small⟩ := nothing
      rcases List.mem_cons.mp inDims with rfl | later
      · simp [visited, Int.toNat_eq_zero.mpr small]
      · simp [visited, ih ⟨d, later, small⟩]

/-- With one row in each dimension but the last, the walk stays where it is or follows pointers, as the rows
are laid out. -/
theorem visited_rows {allocated : Bool} {dims : List Dim} (one : ∀ d ∈ dims.dropLast, d.size = 1)
    (follows : ∀ d ∈ dims.dropLast, d.isVariable = allocated) (a : Address) :
    visited mem elementSize dims a = elements abi mem elementSize allocated (dims.map (·.size.toNat)) a := by
  induction dims generalizing a with
  | nil => rfl
  | cons dim dims ih =>
      cases dims with
      | nil => cases allocated <;> simp [visited, elements]
      | cons next dims =>
          have row := one dim (by simp)
          have follow := follows dim (by simp)
          have inner := ih (fun d later => one d (by simp [later])) (fun d later => follows d (by simp [later]))
          rw [visited, List.map_cons, elements, row]
          simp only [inner]
          cases allocated <;> simp [follow]

theorem memberDims_sizes {s : Struct} {p : Address} {m : Member}
    (sizes : ∀ d ∈ m.dimensions, asInt32 (size abi mem s p d) = size abi mem s p d) :
    (memberDims abi mem s p m).map (·.size.toNat) = m.dimensions.map fun d => (size abi mem s p d).toNat := by
  rw [memberDims, List.map_map]
  exact List.map_congr_left fun d inDims => congrArg Int.toNat (sizes d inDims)

theorem start_rows {s : Struct} {p : Address} {m : Member} (rows : StraightRows abi mem s p m) (cell : Address) :
    start mem cell (memberDims abi mem s p m) = if m.isConstantSizeArray then cell else mem.pointer cell := by
  have follows := rows.follows
  cases dims : m.dimensions with
  | nil => simp [memberDims, dims, start, Member.isConstantSizeArray]
  | cons d ds =>
      rw [memberDims, dims, List.map_cons, start]
      cases constant : m.isConstantSizeArray with
      | true =>
          simp only [Member.isConstantSizeArray, dims, List.all_cons, Bool.and_eq_true, Bool.not_eq_true'] at constant
          simp [constant.1]
      | false =>
          have isVar : d.isVar = true := by
            cases ds with
            | nil => simpa [Member.isConstantSizeArray, dims] using constant
            | cons next ds => exact (follows.resolve_left (by simp [constant])) d (by simp [dims])
          simp [isVar]

theorem memberElements_nothing {s : Struct} {p : Address} {m : Member} {i : Nat}
    (nothing : ∃ d ∈ m.dimensions, size abi mem s p d ≤ 0) : memberElements Γ abi mem s p m i = [] := by
  obtain ⟨d, inDims, small⟩ := nothing
  exact elements_nothing (List.mem_map.mpr ⟨d, inDims, Int.toNat_eq_zero.mpr small⟩) _

theorem StraightMember.straightRows {s : Struct} {p : Address} {m : Member} {i : Nat}
    (straight : StraightMember abi mem s p m)
    {e : List Nat × Address} (element : e ∈ memberElements Γ abi mem s p m i) : StraightRows abi mem s p m := by
  rcases straight.rows with ⟨nothing, _⟩ | rows
  · rw [memberElements_nothing nothing] at element
    cases element
  · exact rows

theorem memberVisited_eq {s : Struct} {p : Address} {m : Member} {i : Nat} (straight : StraightMember abi mem s p m) :
    memberVisited Γ abi mem s p m i = memberElements Γ abi mem s p m i := by
  rcases straight.rows with ⟨nothing, ⟨d, inDims, small⟩⟩ | rows
  · have noneVisited : ∃ dim ∈ memberDims abi mem s p m, dim.size ≤ 0 :=
      ⟨_, List.mem_map_of_mem inDims, small⟩
    rw [memberVisited, visited_nothing noneVisited, memberElements_nothing nothing]
  · have rowOne : ∀ dim ∈ (memberDims abi mem s p m).dropLast, dim.size = 1 := fun dim inDims => by
      rw [memberDims, ← List.map_dropLast] at inDims
      obtain ⟨d, inRows, rfl⟩ := List.mem_map.mp inDims
      exact (rows.sizes d (List.dropLast_subset _ inRows)).trans (rows.one d inRows)
    have follows : ∀ dim ∈ (memberDims abi mem s p m).dropLast, dim.isVariable = !m.isConstantSizeArray :=
        fun dim inDims => by
      rw [memberDims, ← List.map_dropLast] at inDims
      obtain ⟨d, inRows, rfl⟩ := List.mem_map.mp inDims
      cases constant : m.isConstantSizeArray with
      | true => simpa using List.all_eq_true.mp constant d (List.dropLast_subset _ inRows)
      | false => exact rows.follows.resolve_left (by simp [constant]) d inRows
    have sameSize : visitSize Γ abi m.type = elementSize Γ abi m.type := by
      cases type : m.type with
      | user fullname =>
          have named := rows.type fullname type
          rw [type] at named
          rw [visitSize, named]
      | _ => rfl
    rw [memberVisited, visited_rows rowOne follows, sameSize, memberDims_sizes rows.sizes, start_rows rows,
      memberElements]

end Rows

section Types

variable {Γ : Env} {abi : Abi} {mem : Memory} {typeDb : String → Option Struct} {N : Type}
  {append : N → String → N} {encoded : N → Address → Int → Outcome N}

theorem processScalar_leaf {callee : N → Struct → Address → Option (Outcome N)}
    {leaf : N → Struct → Address → Option (List (Call N))} {t : Typename}
    (named : ∀ fullname, t = .user fullname → fieldType t = .userType)
    (found : ∀ fullname, t = .user fullname →
      ∃ s, Γ.lookup fullname = some s ∧ typeDb (dotsToUnderscores fullname) = some s)
    {name : N} {a : Address}
    (nested : ∀ fullname s calls, t = .user fullname → Γ.lookup fullname = some s →
      leaf name s a = some calls → callee name s a = some (true, calls))
    {calls : List (Call N)} (due : leavesOf Γ leaf name a t = some calls) :
    processScalar typeDb callee name (fieldType t) (typestr t) a = some (true, calls) := by
  cases t with
  | prim p =>
      cases due
      rfl
  | bits p numbits signExtend =>
      cases due
      rfl
  | string =>
      cases due
      rfl
  | user fullname =>
      obtain ⟨s, known, inDb⟩ := found fullname rfl
      rw [leavesOf, known] at due
      rw [named fullname rfl]
      simp only [processScalar, typestr, inDb]
      exact nested fullname s calls rfl known due

/-- Where all messages are straight, `processType` calls back once for each scalar leaf, in order, with its
name, its type and its address. -/
theorem processType_visits_leaves {fuel : Nat} {name : N} {s : Struct} {p : Address} {calls : List (Call N)}
    (described : ∀ t ∈ s :: Γ, Described Γ typeDb t)
    (due : scalarLeaves Γ abi mem append fuel name s p = some calls)
    (straight : Straight Γ abi mem fuel s p) {more : Nat} (enough : fuel ≤ more) :
    processType abi mem typeDb append encoded more name s p = some (true, calls) := by
  induction fuel generalizing name s p calls more with
  | zero => cases due
  | succ fuel ih =>
      obtain ⟨more, rfl⟩ : ∃ k, more = k + 1 := ⟨more - 1, by omega⟩
      have here := described s List.mem_cons_self
      refine each_collect (fun (m, i) inMembers calls due => ?_) due
      obtain ⟨straightMember, inner⟩ := straight m i inMembers
      have member : m ∈ s.members := (List.mem_zipIdx inMembers).2.2 ▸ List.getElem_mem _
      obtain ⟨f, field⟩ : ∃ f, getField abi mem s p m i = some f :=
        ⟨_, by rw [getField, if_neg (Nat.not_lt.mpr straightMember.room)]⟩
      simp only [field, Option.bind_eq_bind, Option.bind_some]
      rw [processField_visited here member field, memberVisited_eq straightMember]
      refine each_collect (fun e inElements calls due => ?_) due
      refine processScalar_leaf (straightMember.straightRows inElements).type (here.found m member)
        (fun fullname t calls isUser known due => ?_) due
      have inEnv : t ∈ Γ := List.mem_of_find?_eq_some known
      refine ih (fun u inEither => ?_) due (inner fullname t isUser known e inElements) (Nat.le_of_succ_le_succ enough)
      rcases List.mem_cons.mp inEither with rfl | other
      · exact described u (List.mem_cons_of_mem _ inEnv)
      · exact described u (List.mem_cons_of_mem _ other)

end Types

end Zcm.Introspection
