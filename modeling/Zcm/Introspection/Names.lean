import Mathlib
import Zcm.Introspection.Leaves

namespace Zcm.Introspection
open Zcm.Lib Zcm.Gen

section Blocks

variable {N α : Type}

theorem each_blocks {visit : α → Option (Outcome N)} {xs : List α} {ok : Bool} {calls : List (Call N)}
    (walked : each visit xs = some (ok, calls)) :
    ∃ block : α → List (Call N), calls = xs.flatMap block ∧
      ∀ x ∈ xs, ∃ ok, visit x = some (ok, block x) := by
  refine ⟨fun x => ((visit x).map (·.2)).getD [], ?_⟩
  induction xs generalizing ok calls with
  | nil =>
      cases walked
      exact ⟨rfl, nofun⟩
  | cons x xs ih =>
      simp only [each, Option.bind_eq_bind, Option.bind_eq_some_iff] at walked
      obtain ⟨⟨first, made⟩, here, ⟨oks, later⟩, rest, same⟩ := walked
      cases same
      obtain ⟨blocks, visits⟩ := ih rest
      refine ⟨by simp [here, blocks], List.forall_mem_cons.mpr ⟨⟨first, by simp [here]⟩, visits⟩⟩

theorem collect_blocks {β : Type} {leaf : α → Option (List β)} {xs : List α} {all : List β}
    (due : collect leaf xs = some all) :
    ∃ block : α → List β, all = xs.flatMap block ∧ ∀ x ∈ xs, leaf x = some (block x) := by
  refine ⟨fun x => (leaf x).getD [], ?_⟩
  induction xs generalizing all with
  | nil =>
      cases due
      exact ⟨rfl, nofun⟩
  | cons x xs ih =>
      simp only [collect, Option.bind_eq_bind, Option.bind_eq_some_iff] at due
      obtain ⟨first, here, later, rest, same⟩ := due
      cases same
      obtain ⟨blocks, leaves⟩ := ih rest
      refine ⟨by simp [here, blocks], List.forall_mem_cons.mpr ⟨by simp [here], leaves⟩⟩

end Blocks

section Members

variable {Γ : Env} {abi : Abi} {mem : Memory} {typeDb : String → Option Struct} {N : Type}
  {append : N → String → N} {encoded : N → Address → Int → Outcome N}

theorem processType_blocks {s : Struct} (described : Described Γ typeDb s) {more : Nat} {name : N} {p : Address}
    {ok : Bool}
    {calls : List (Call N)}
    (walked : processType abi mem typeDb append encoded (more + 1) name s p = some (ok, calls)) :
    ∃ block : Member × Nat → List (Call N), calls = s.members.zipIdx.flatMap block ∧
      ∀ m i, (m, i) ∈ s.members.zipIdx → m.dimensions.length ≤ typeFieldMaxDim ∧ ∃ ok,
        each (fun e => processScalar typeDb (processType abi mem typeDb append encoded more)
          (indexed append (append name m.membername) e.1) (fieldType m.type) (typestr m.type) e.2)
          (memberVisited Γ abi mem s p m i) = some (ok, block (m, i)) := by
  obtain ⟨block, blocks, visits⟩ := each_blocks walked
  refine ⟨block, blocks, fun m i inMembers => ?_⟩
  obtain ⟨ok, visit⟩ := visits (m, i) inMembers
  obtain ⟨f, field, visit⟩ := Option.bind_eq_some_iff.mp visit
  have member : m ∈ s.members := List.fst_mem_of_mem_zipIdx inMembers
  refine ⟨?_, ok, (processField_visited described member field name).symm.trans visit⟩
  by_contra tooMany
  simp [getField, Nat.lt_of_not_le tooMany] at field

theorem scalarLeaves_blocks {s : Struct} {fuel : Nat} {name : N} {p : Address} {calls : List (Call N)}
    (due : scalarLeaves Γ abi mem append (fuel + 1) name s p = some calls) :
    ∃ block : Member × Nat → List (Call N), calls = s.members.zipIdx.flatMap block ∧
      ∀ m i, (m, i) ∈ s.members.zipIdx →
        collect (fun e => leavesOf Γ (scalarLeaves Γ abi mem append fuel)
          (indexed append (append name m.membername) e.1) e.2 m.type)
          (memberElements Γ abi mem s p m i) = some (block (m, i)) := by
  obtain ⟨block, blocks, leaves⟩ := collect_blocks due
  exact ⟨block, blocks, fun m i inMembers => leaves (m, i) inMembers⟩

end Members

section Under

variable {N : Type} {append : N → String → N} {good : String → Prop}

/-- A name tells of which components it is made, if the components are good ones. -/
structure Unambiguous (append : N → String → N) (good : String → Prop) : Prop where
  decimal : ∀ n : Nat, good (toString n)
  apart : ∀ (name : N) (xs ys : List String), (∀ x ∈ xs, good x) → (∀ y ∈ ys, good y) →
    xs.foldl append name = ys.foldl append name → xs = ys

def Under (append : N → String → N) (good : String → Prop) (name : N) (call : Call N) : Prop :=
  ∃ components : List String, (∀ x ∈ components, good x) ∧ call.name = components.foldl append name

theorem Under.of_append {name : N} {call : Call N} {component : String}
    (under : Under append good (append name component) call)
    (proper : good component) : Under append good name call := by
  obtain ⟨components, each, same⟩ := under
  exact ⟨component :: components, List.forall_mem_cons.mpr ⟨proper, each⟩, same⟩

theorem indexed_eq (name : N) (is : List Nat) : indexed append name is = (is.map toString).foldl append name :=
  (List.foldl_map).symm

theorem Under.of_indexed (decimal : ∀ n : Nat, good (toString n)) {name : N} {call : Call N} {is : List Nat}
    (under : Under append good (indexed append name is) call) : Under append good name call := by
  obtain ⟨components, each, same⟩ := under
  refine ⟨is.map toString ++ components,
    List.forall_mem_append.mpr ⟨List.forall_mem_map.mpr fun i _ => decimal i, each⟩, ?_⟩
  rw [List.foldl_append, ← indexed_eq, same]

theorem Under.own {name : N} {type : FieldType} {a : Address} : Under append good name ⟨name, type, a⟩ :=
  ⟨[], nofun, rfl⟩

variable {Γ : Env} {abi : Abi} {mem : Memory} {typeDb : String → Option Struct}
  {encoded : N → Address → Int → Outcome N}

theorem Unambiguous.indices_eq (unambiguous : Unambiguous append good) {name : N} {is js : List Nat} {call : Call N}
    (length : is.length = js.length) (under : Under append good (indexed append name is) call)
    (under' : Under append good (indexed append name js) call) : is = js := by
  obtain ⟨xs, each, same⟩ := under
  obtain ⟨ys, each', same'⟩ := under'
  have decimals (is : List Nat) :
    ∀ x ∈ is.map toString, good x := List.forall_mem_map.mpr fun i _ => unambiguous.decimal i
  rw [indexed_eq, ← List.foldl_append] at same same'
  have equal := unambiguous.apart name _ _ (List.forall_mem_append.mpr ⟨decimals is, each⟩)
    (List.forall_mem_append.mpr ⟨decimals js, each'⟩) (same.symm.trans same')
  have texts := (List.append_inj equal (by simp [length])).1
  exact List.map_inj_right (fun _ _ => Nat.repr_injective) |>.mp texts

theorem processScalar_cases {callee : N → Struct → Address → Option (Outcome N)} {t : Typename}
    (found : ∀ fullname, t = .user fullname →
      ∃ s, Γ.lookup fullname = some s ∧ typeDb (dotsToUnderscores fullname) = some s)
    {name : N} {a : Address} {ok : Bool} {calls : List (Call N)}
    (walked : processScalar typeDb callee name (fieldType t) (typestr t) a = some (ok, calls)) :
    (fieldType t ≠ .userType ∧ calls = [⟨name, fieldType t, a⟩]) ∨
      ∃ fullname s, t = .user fullname ∧ fieldType t = .userType ∧ Γ.lookup fullname = some s ∧
        callee name s a = some (ok, calls) := by
  cases type : fieldType t with
  | prim p =>
      rw [type] at walked
      cases walked
      exact .inl ⟨nofun, rfl⟩
  | string =>
      rw [type] at walked
      cases walked
      exact .inl ⟨nofun, rfl⟩
  | userType =>
      cases t with
      | user fullname =>
          obtain ⟨s, known, inDb⟩ := found fullname rfl
          rw [type, typestr, processScalar, inDb] at walked
          exact .inr ⟨fullname, s, rfl, rfl, known, walked⟩
      | prim p => cases type
      | bits p numbits signExtend => cases type
      | string => cases type

theorem leavesOf_cases {callee : N → Struct → Address → Option (List (Call N))} {t : Typename} {name : N}
    {a : Address} {calls : List (Call N)} (due : leavesOf Γ callee name a t = some calls) :
    ((∀ fullname, t ≠ .user fullname) ∧ calls = [⟨name, fieldType t, a⟩]) ∨
      ∃ fullname s, t = .user fullname ∧ Γ.lookup fullname = some s ∧ callee name s a = some calls := by
  cases t with
  | user fullname =>
      obtain ⟨s, known, due⟩ := Option.bind_eq_some_iff.mp due
      exact .inr ⟨fullname, s, rfl, known, due⟩
  | prim p =>
      cases due
      exact .inl ⟨nofun, rfl⟩
  | bits p numbits signExtend =>
      cases due
      exact .inl ⟨nofun, rfl⟩
  | string =>
      cases due
      exact .inl ⟨nofun, rfl⟩

structure Named (good : String → Prop) (s : Struct) : Prop where
  proper : ∀ m ∈ s.members, good m.membername
  once : (s.members.map (·.membername)).Nodup

theorem forall_lookup {P : Struct → Prop} {s t : Struct} (all : ∀ t ∈ s :: Γ, P t) {fullname : String}
    (known : Γ.lookup fullname = some t) : ∀ u ∈ t :: Γ, P u := by
  have others : ∀ u ∈ Γ, P u := fun u inEnv => all u (List.mem_cons_of_mem _ inEnv)
  exact List.forall_mem_cons.mpr ⟨others t (List.mem_of_find?_eq_some known), others⟩

variable {s : Struct} {name : N} {p : Address}

theorem processScalar_under {callee : N → Struct → Address → Option (Outcome N)} {t : Typename}
    (found : ∀ fullname, t = .user fullname →
      ∃ s, Γ.lookup fullname = some s ∧ typeDb (dotsToUnderscores fullname) = some s)
    (nested : ∀ name fullname s a ok calls, Γ.lookup fullname = some s → callee name s a = some (ok, calls) →
      ∀ call ∈ calls, Under append good name call)
    {a : Address} {ok : Bool} {calls : List (Call N)}
    (walked : processScalar typeDb callee name (fieldType t) (typestr t) a = some (ok, calls)) :
    ∀ call ∈ calls, Under append good name call := by
  rcases processScalar_cases found walked with ⟨_, rfl⟩ | ⟨fullname, u, _, _, known, walked⟩
  · exact List.forall_mem_singleton.mpr .own
  · exact nested name fullname u a ok calls known walked

theorem leavesOf_under {callee : N → Struct → Address → Option (List (Call N))} {t : Typename}
    (nested : ∀ name fullname s a calls, Γ.lookup fullname = some s → callee name s a = some calls →
      ∀ call ∈ calls, Under append good name call)
    {a : Address} {calls : List (Call N)}
    (due : leavesOf Γ callee name a t = some calls) : ∀ call ∈ calls, Under append good name call := by
  rcases leavesOf_cases due with ⟨_, rfl⟩ | ⟨fullname, u, _, known, due⟩
  · exact List.forall_mem_singleton.mpr .own
  · exact nested name fullname u a calls known due

theorem each_under {callee : N → Struct → Address → Option (Outcome N)} {t : Typename}
    (decimal : ∀ n : Nat, good (toString n))
    (found : ∀ fullname, t = .user fullname →
      ∃ s, Γ.lookup fullname = some s ∧ typeDb (dotsToUnderscores fullname) = some s)
    (nested : ∀ name fullname s a ok calls, Γ.lookup fullname = some s → callee name s a = some (ok, calls) →
      ∀ call ∈ calls, Under append good name call)
    {es : List (List Nat × Address)} {ok : Bool} {calls : List (Call N)}
    (walked : each (fun e => processScalar typeDb callee (indexed append name e.1) (fieldType t) (typestr t) e.2) es =
      some (ok, calls)) :
    ∀ call ∈ calls, Under append good name call := by
  obtain ⟨block, rfl, visits⟩ := each_blocks walked
  intro call inBlocks
  obtain ⟨e, inVisited, inElement⟩ := List.mem_flatMap.mp inBlocks
  obtain ⟨_, visit⟩ := visits e inVisited
  exact (processScalar_under found nested visit call inElement).of_indexed decimal

theorem collect_under {callee : N → Struct → Address → Option (List (Call N))} {t : Typename}
    (decimal : ∀ n : Nat, good (toString n))
    (nested : ∀ name fullname s a calls, Γ.lookup fullname = some s → callee name s a = some calls →
      ∀ call ∈ calls, Under append good name call)
    {es : List (List Nat × Address)} {calls : List (Call N)}
    (due : collect (fun e => leavesOf Γ callee (indexed append name e.1) e.2 t) es = some calls) :
    ∀ call ∈ calls, Under append good name call := by
  obtain ⟨block, rfl, leaves⟩ := collect_blocks due
  intro call inBlocks
  obtain ⟨e, inElements, inElement⟩ := List.mem_flatMap.mp inBlocks
  exact (leavesOf_under nested (leaves e inElements) call inElement).of_indexed decimal

theorem processType_under (decimal : ∀ n : Nat, good (toString n)) {more : Nat} {ok : Bool} {calls : List (Call N)}
    (described : ∀ t ∈ s :: Γ, Described Γ typeDb t) (named : ∀ t ∈ s :: Γ, Named good t)
    (walked : processType abi mem typeDb append encoded more name s p = some (ok, calls)) :
    ∀ call ∈ calls, ∃ m ∈ s.members, Under append good (append name m.membername) call := by
  induction more generalizing name s p ok calls with
  | zero => cases walked
  | succ more ih =>
      have here := described s List.mem_cons_self
      obtain ⟨block, rfl, visits⟩ := processType_blocks here walked
      intro call inBlocks
      obtain ⟨⟨m, i⟩, inMembers, inBlock⟩ := List.mem_flatMap.mp inBlocks
      obtain ⟨_, _, visit⟩ := visits m i inMembers
      have member : m ∈ s.members := List.fst_mem_of_mem_zipIdx inMembers
      refine ⟨m, member, each_under decimal (here.found m member) ?_ visit call inBlock⟩
      intro name fullname t a ok calls known walked call inCalls
      have named' := forall_lookup named known
      obtain ⟨m', member', under⟩ := ih (forall_lookup described known) named' walked call inCalls
      exact under.of_append ((named' t List.mem_cons_self).proper m' member')

theorem scalarLeaves_under (decimal : ∀ n : Nat, good (toString n)) {fuel : Nat} {calls : List (Call N)}
    (named : ∀ t ∈ s :: Γ, Named good t) (due : scalarLeaves Γ abi mem append fuel name s p = some calls) :
    ∀ call ∈ calls, ∃ m ∈ s.members, Under append good (append name m.membername) call := by
  induction fuel generalizing name s p calls with
  | zero => cases due
  | succ fuel ih =>
      obtain ⟨block, rfl, leaves⟩ := scalarLeaves_blocks due
      intro call inBlocks
      obtain ⟨⟨m, i⟩, inMembers, inBlock⟩ := List.mem_flatMap.mp inBlocks
      refine ⟨m, List.fst_mem_of_mem_zipIdx inMembers, collect_under decimal ?_ (leaves m i inMembers) call inBlock⟩
      intro name fullname t a calls known due call inCalls
      have named' := forall_lookup named known
      obtain ⟨m', member', under⟩ := ih named' due call inCalls
      exact under.of_append ((named' t List.mem_cons_self).proper m' member')

theorem processType_nested (decimal : ∀ n : Nat, good (toString n)) {more : Nat}
    (described : ∀ t ∈ s :: Γ, Described Γ typeDb t) (named : ∀ t ∈ s :: Γ, Named good t) (name : N)
    (fullname : String)
    (t : Struct) (a : Address) (ok : Bool) (calls : List (Call N)) (known : Γ.lookup fullname = some t)
    (walked : processType abi mem typeDb append encoded more name t a = some (ok, calls)) :
    ∀ call ∈ calls, Under append good name call := by
  intro call inCalls
  have named' := forall_lookup named known
  obtain ⟨m, member, under⟩ := processType_under decimal (forall_lookup described known) named' walked call inCalls
  exact under.of_append ((named' t List.mem_cons_self).proper m member)

theorem scalarLeaves_nested (decimal : ∀ n : Nat, good (toString n)) {fuel : Nat}
    (named : ∀ t ∈ s :: Γ, Named good t)
    (name : N) (fullname : String) (t : Struct) (a : Address) (calls : List (Call N))
    (known : Γ.lookup fullname = some t)
    (due : scalarLeaves Γ abi mem append fuel name t a = some calls) :
    ∀ call ∈ calls, Under append good name call := by
  intro call inCalls
  have named' := forall_lookup named known
  obtain ⟨m, member, under⟩ := scalarLeaves_under decimal named' due call inCalls
  exact under.of_append ((named' t List.mem_cons_self).proper m member)

end Under

section Strings

variable {separator : String} {first : Char} {rest : List Char}

theorem appendName_foldl (name : String) (xs : List String) :
    (xs.foldl (appendName separator) name).toList = name.toList ++
    xs.flatMap fun x => separator.toList ++ x.toList := by
  induction xs generalizing name with
  | nil => simp
  | cons x xs ih => simp [ih, appendName]

theorem takeWhile_component (begins : separator.toList = first :: rest) {x : String} (proper : first ∉ x.toList)
    (xs : List String) :
    (x.toList ++ xs.flatMap fun x => separator.toList ++ x.toList).takeWhile (· ≠ first) = x.toList := by
  have stops : (xs.flatMap fun x => separator.toList ++ x.toList).takeWhile (· ≠ first) = [] := by
    cases xs with
    | nil => rfl
    | cons y ys => simp [begins]
  have other : ∀ c ∈ x.toList, decide (c ≠ first) = true := fun c inName => by
    simpa using fun same : c = first => proper (same ▸ inName)
  rw [List.takeWhile_append_of_pos other, stops, List.append_nil]

theorem appendName_unambiguous (begins : separator.toList = first :: rest) (notDigit : first.isDigit = false) :
    Unambiguous (appendName separator) fun name => first ∉ name.toList where
  decimal n inDigits := by
    have digits : (toString n).toList = Nat.toDigits 10 n := Nat.toList_repr
    rw [digits] at inDigits
    have digit := Nat.isDigit_of_mem_toDigits (by decide) (by decide) inDigits
    simp [notDigit] at digit
  apart name xs ys proper proper' same := by
    have texts := congrArg String.toList same
    rw [appendName_foldl, appendName_foldl] at texts
    replace texts := List.append_cancel_left texts
    clear same
    induction xs generalizing ys with
    | nil =>
        cases ys with
        | nil => rfl
        | cons y ys => simp [begins] at texts
    | cons x xs ih =>
        cases ys with
        | nil => simp [begins] at texts
        | cons y ys =>
            rw [List.flatMap_cons, List.flatMap_cons, List.append_assoc, List.append_assoc] at texts
            have rests := List.append_cancel_left texts
            have heads := congrArg (List.takeWhile (· ≠ first)) rests
            rw [takeWhile_component begins (proper x List.mem_cons_self),
              takeWhile_component begins (proper' y List.mem_cons_self)] at heads
            obtain rfl := String.toList_inj.mp heads
            rw [ih ys (fun x later => proper x (List.mem_cons_of_mem _ later))
              (fun y later => proper' y (List.mem_cons_of_mem _ later))
              (List.append_cancel_left rests)]

end Strings

end Zcm.Introspection
