import Zcm.Introspection.Names
import Zcm.Introspection.Rows

namespace Zcm.Introspection
open Zcm.Lib Zcm.Gen

section Leafy

/-- The message has a scalar of its own, outside of arrays and of messages in it. -/
def Leafy (s : Struct) : Prop :=
  ∃ m ∈ s.members, m.dimensions = [] ∧ ∀ fullname, m.type ≠ .user fullname

variable {Γ : Env} {abi : Abi} {mem : Memory} {typeDb : String → Option Struct} {N : Type}

theorem memberVisited_scalar {s : Struct} {p : Address} {m : Member} {i : Nat} (scalar : m.dimensions = []) :
    memberVisited Γ abi mem s p m i = [([], p + abi.offset s i)] := by
  simp [memberVisited, memberDims, scalar, visited, start]

theorem memberElements_scalar {s : Struct} {p : Address} {m : Member} {i : Nat} (scalar : m.dimensions = []) :
    memberElements Γ abi mem s p m i = [([], p + abi.offset s i)] := by
  simp [memberElements, Member.isConstantSizeArray, scalar, elements]

theorem processScalar_scalar {callee : N → Struct → Address → Option (Outcome N)} {t : Typename}
    (scalar : ∀ fullname, t ≠ .user fullname) (name : N) (a : Address) :
    processScalar typeDb callee name (fieldType t) (typestr t) a = some (true, [⟨name, fieldType t, a⟩]) := by
  cases t with
  | user fullname => exact absurd rfl (scalar fullname)
  | _ => rfl

theorem leavesOf_scalar {callee : N → Struct → Address → Option (List (Call N))} {t : Typename}
    (scalar : ∀ fullname, t ≠ .user fullname) (name : N) (a : Address) :
    leavesOf Γ callee name a t = some [⟨name, fieldType t, a⟩] := by
  cases t with
  | user fullname => exact absurd rfl (scalar fullname)
  | _ => rfl

theorem collect_singleton {α β : Type} {leaf : α → Option (List β)} (x : α) : collect leaf [x] = leaf x := by
  cases result : leaf x with
  | none => simp [collect, result]
  | some leaves => simp [collect, result]

theorem exists_zipIdx {α : Type} {xs : List α} {x : α} (member : x ∈ xs) : ∃ i, (x, i) ∈ xs.zipIdx := by
  obtain ⟨i, located⟩ := List.getElem?_of_mem member
  exact ⟨i, List.mem_zipIdx_iff_getElem?.mpr located⟩

variable {append : N → String → N} {encoded : N → Address → Int → Outcome N} {s : Struct} {name : N}
  {p : Address}

theorem processType_ne_nil (described : Described Γ typeDb s) (leafy : Leafy s) {more : Nat} {ok : Bool}
    {calls : List (Call N)}
    (walked : processType abi mem typeDb append encoded more name s p = some (ok, calls)) : calls ≠ [] := by
  cases more with
  | zero => cases walked
  | succ more =>
      obtain ⟨m, member, scalar, type⟩ := leafy
      obtain ⟨i, inMembers⟩ := exists_zipIdx member
      obtain ⟨block, rfl, visits⟩ := processType_blocks described walked
      obtain ⟨_, _, visit⟩ := visits m i inMembers
      rw [memberVisited_scalar scalar, each_singleton, processScalar_scalar type] at visit
      have own := (Prod.mk.inj (Option.some.inj visit)).2
      exact List.ne_nil_of_mem (List.mem_flatMap.mpr ⟨_, inMembers, own ▸ List.mem_singleton_self _⟩)

theorem scalarLeaves_ne_nil (leafy : Leafy s) {fuel : Nat} {calls : List (Call N)}
    (due : scalarLeaves Γ abi mem append fuel name s p = some calls) : calls ≠ [] := by
  cases fuel with
  | zero => cases due
  | succ fuel =>
      obtain ⟨m, member, scalar, type⟩ := leafy
      obtain ⟨i, inMembers⟩ := exists_zipIdx member
      obtain ⟨block, rfl, leaves⟩ := scalarLeaves_blocks due
      have leaf := leaves m i inMembers
      rw [memberElements_scalar scalar, collect_singleton, leavesOf_scalar type] at leaf
      have own := Option.some.inj leaf
      exact List.ne_nil_of_mem (List.mem_flatMap.mpr ⟨_, inMembers, own ▸ List.mem_singleton_self _⟩)

theorem processScalar_ne_nil {t : Typename} (described : ∀ t ∈ Γ, Described Γ typeDb t)
    (leafy : ∀ t ∈ Γ, Leafy t)
    (found : ∀ fullname, t = .user fullname →
      ∃ s, Γ.lookup fullname = some s ∧ typeDb (dotsToUnderscores fullname) = some s)
    {more : Nat} {a : Address} {ok : Bool} {calls : List (Call N)}
    (walked : processScalar typeDb (processType abi mem typeDb append encoded more) name (fieldType t) (typestr t) a =
      some (ok, calls)) : calls ≠ [] := by
  rcases processScalar_cases found walked with ⟨_, rfl⟩ | ⟨fullname, u, _, _, known, walked⟩
  · exact List.cons_ne_nil _ _
  · have inEnv : u ∈ Γ := List.mem_of_find?_eq_some known
    exact processType_ne_nil (described u inEnv) (leafy u inEnv) walked

theorem leavesOf_ne_nil (leafy : ∀ t ∈ Γ, Leafy t) {fuel : Nat} {t : Typename} {a : Address}
    {calls : List (Call N)}
    (due : leavesOf Γ (scalarLeaves Γ abi mem append fuel) name a t = some calls) : calls ≠ [] := by
  rcases leavesOf_cases due with ⟨_, rfl⟩ | ⟨fullname, u, _, known, due⟩
  · exact List.cons_ne_nil _ _
  · exact scalarLeaves_ne_nil (leafy u (List.mem_of_find?_eq_some known)) due

end Leafy

section Apart

variable {Γ : Env} {abi : Abi} {mem : Memory} {typeDb : String → Option Struct} {N : Type}
  {append : N → String → N}
  {encoded : N → Address → Int → Outcome N} {good : String → Prop} {s : Struct} {name : N}

theorem members_perm (unambiguous : Unambiguous append good) (described : ∀ t ∈ s :: Γ, Described Γ typeDb t)
    (named : ∀ t ∈ s :: Γ, Named good t) {more fuel : Nat} {a b : Address} {ok : Bool} {calls due : List (Call N)}
    (walked : processType abi mem typeDb append encoded (more + 1) name s a = some (ok, calls))
    (leaves : scalarLeaves Γ abi mem append (fuel + 1) name s b = some due) (same : calls.Perm due) {m : Member}
    {i : Nat}
    (inMembers : (m, i) ∈ s.members.zipIdx) : m.dimensions.length ≤ typeFieldMaxDim ∧ ∃ ok calls due,
      each (fun e => processScalar typeDb (processType abi mem typeDb append encoded more)
        (indexed append (append name m.membername) e.1) (fieldType m.type) (typestr m.type) e.2)
        (memberVisited Γ abi mem s a m i) = some (ok, calls) ∧
      collect (fun e => leavesOf Γ (scalarLeaves Γ abi mem append fuel)
        (indexed append (append name m.membername) e.1) e.2 m.type)
        (memberElements Γ abi mem s b m i) = some due ∧ calls.Perm due := by
  have here := described s List.mem_cons_self
  have names := named s List.mem_cons_self
  obtain ⟨block, rfl, visits⟩ := processType_blocks here walked
  obtain ⟨block', rfl, elements⟩ := scalarLeaves_blocks leaves
  let mine (key : String) (call : Call N) : Prop := good key ∧ Under append good (append name key) call
  have apart : ∀ key key' call, mine key call → mine key' call → key = key' := by
    rintro key key' call ⟨proper, xs, each, same⟩ ⟨proper', ys, each', same'⟩
    have equal := unambiguous.apart name (key :: xs) (key' :: ys) (List.forall_mem_cons.mpr ⟨proper, each⟩)
      (List.forall_mem_cons.mpr ⟨proper', each'⟩) (same.symm.trans same')
    exact (List.cons.inj equal).1
  have own : ∀ x ∈ s.members.zipIdx, ∀ call ∈ block x, mine x.1.membername call := by
    rintro ⟨m, i⟩ inMembers call inBlock
    have member : m ∈ s.members := List.fst_mem_of_mem_zipIdx inMembers
    obtain ⟨_, ok, visit⟩ := visits m i inMembers
    exact ⟨names.proper m member, each_under unambiguous.decimal (here.found m member)
      (processType_nested unambiguous.decimal described named) visit call inBlock⟩
  have own' : ∀ x ∈ s.members.zipIdx, ∀ call ∈ block' x, mine x.1.membername call := by
    rintro ⟨m, i⟩ inMembers call inBlock
    exact ⟨names.proper m (List.fst_mem_of_mem_zipIdx inMembers), collect_under unambiguous.decimal
      (scalarLeaves_nested unambiguous.decimal named) (elements m i inMembers) call inBlock⟩
  have once : (s.members.zipIdx.map (·.1.membername)).Nodup := by
    have once := names.once
    rwa [← List.zipIdx_map_fst 0 s.members, List.map_map] at once
  obtain ⟨room, ok, visit⟩ := visits m i inMembers
  exact ⟨room, ok, _, _, visit, elements m i inMembers,
    block_perm apart own own' once once same inMembers inMembers rfl⟩

theorem length_memberElements {p : Address} {m : Member} {i : Nat} {e : List Nat × Address}
    (element : e ∈ memberElements Γ abi mem s p m i) : e.1.length = m.dimensions.length := by
  have within := exists_memberElements.mp ⟨e.2, element⟩
  rw [within.length_eq, memberSizes, List.length_map]

theorem length_memberVisited {p : Address} {m : Member} {i : Nat} {e : List Nat × Address}
    (visit : e ∈ memberVisited Γ abi mem s p m i) : e.1.length = m.dimensions.length := by
  have within := exists_memberVisited.mp ⟨e.2, visit⟩
  rw [within.length_eq, memberDims, List.length_map, List.length_map]

/-- If the calls for a member are its leaves, then so are those for an element, and the walk comes to the
elements that have leaves. -/
theorem elements_perm (unambiguous : Unambiguous append good) (described : ∀ t ∈ s :: Γ, Described Γ typeDb t)
    (named : ∀ t ∈ s :: Γ, Named good t) (leafy : ∀ t ∈ Γ, Leafy t) {more fuel : Nat} {p : Address}
    {m : Member} {i : Nat}
    (member : m ∈ s.members) {ok : Bool} {calls due : List (Call N)}
    (walked : each (fun e => processScalar typeDb (processType abi mem typeDb append encoded more)
      (indexed append name e.1) (fieldType m.type) (typestr m.type) e.2) (memberVisited Γ abi mem s p m i) = some
        (ok, calls))
    (leaves : collect (fun e => leavesOf Γ (scalarLeaves Γ abi mem append fuel) (indexed append name e.1) e.2 m.type)
      (memberElements Γ abi mem s p m i) = some due) (same : calls.Perm due) :
    (∀ is, (∃ a, (is, a) ∈ memberVisited Γ abi mem s p m i) ↔
        ∃ a, (is, a) ∈ memberElements Γ abi mem s p m i) ∧
      ∀ is a b, (is, a) ∈ memberVisited Γ abi mem s p m i → (is, b) ∈ memberElements Γ abi mem s p m i →
        ∃ ok calls due, processScalar typeDb (processType abi mem typeDb append encoded more) (indexed append name is)
            (fieldType m.type) (typestr m.type) a = some (ok, calls) ∧
          leavesOf Γ (scalarLeaves Γ abi mem append fuel) (indexed append name is) b m.type = some due ∧
            calls.Perm due := by
  have found := (described s List.mem_cons_self).found m member
  have nested := @processType_nested N append good Γ abi mem typeDb encoded s unambiguous.decimal more described named
  have nested' := @scalarLeaves_nested N append good Γ abi mem s unambiguous.decimal fuel named
  have others : ∀ t ∈ Γ, Described Γ typeDb t := fun t inEnv => described t (List.mem_cons_of_mem _ inEnv)
  obtain ⟨block, rfl, visits⟩ := each_blocks walked
  obtain ⟨block', rfl, elements⟩ := collect_blocks leaves
  let mine (is : List Nat) (call : Call N) : Prop :=
    is.length = m.dimensions.length ∧ Under append good (indexed append name is) call
  have apart : ∀ is js call, mine is call → mine js call → is = js := by
    rintro is js call ⟨length, under⟩ ⟨length', under'⟩
    exact unambiguous.indices_eq (length.trans length'.symm) under under'
  have own : ∀ e ∈ memberVisited Γ abi mem s p m i, ∀ call ∈ block e, mine e.1 call := by
    intro e visit call inBlock
    obtain ⟨ok, walked⟩ := visits e visit
    exact ⟨length_memberVisited visit, processScalar_under found nested walked call inBlock⟩
  have own' : ∀ e ∈ memberElements Γ abi mem s p m i, ∀ call ∈ block' e, mine e.1 call := by
    intro e element call inBlock
    exact ⟨length_memberElements element, leavesOf_under nested' (elements e element) call inBlock⟩
  have once : ((memberVisited Γ abi mem s p m i).map (·.1)).Nodup := by
    rw [memberVisited, visited_indices]
    exact nodup_indices _
  have once' : ((memberElements Γ abi mem s p m i).map (·.1)).Nodup := by
    rw [memberElements, elements_indices]
    exact nodup_indices _
  refine ⟨fun is => ⟨?_, ?_⟩, fun is a b visit element => ?_⟩
  · rintro ⟨a, visit⟩
    obtain ⟨ok, walked⟩ := visits _ visit
    obtain ⟨⟨_, b⟩, element, rfl⟩ :=
      block_key apart own own' same visit (processScalar_ne_nil others leafy found walked)
    exact ⟨b, element⟩
  · rintro ⟨b, element⟩
    obtain ⟨⟨_, a⟩, visit, rfl⟩ :=
      block_key apart own' own same.symm element (leavesOf_ne_nil leafy (elements _ element))
    exact ⟨a, visit⟩
  · obtain ⟨ok, walked⟩ := visits _ visit
    exact ⟨ok, _, _, walked, elements _ element, block_perm apart own own' once once' same visit element rfl⟩

theorem processType_address (unambiguous : Unambiguous append good)
    (described : ∀ t ∈ s :: Γ, Described Γ typeDb t)
    (named : ∀ t ∈ s :: Γ, Named good t) (leafy : Leafy s) {more fuel : Nat} {a b : Address} {ok : Bool}
    {calls due : List (Call N)}
    (walked : processType abi mem typeDb append encoded more name s a = some (ok, calls))
    (leaves : scalarLeaves Γ abi mem append fuel name s b = some due) (same : calls.Perm due) : a = b := by
  cases more with
  | zero => cases walked
  | succ more =>
      cases fuel with
      | zero => cases leaves
      | succ fuel =>
          obtain ⟨m, member, scalar, type⟩ := leafy
          obtain ⟨i, inMembers⟩ := exists_zipIdx member
          obtain ⟨_, ok, calls, due, visit, leaf, same⟩ :=
            members_perm unambiguous described named walked leaves same inMembers
          rw [memberVisited_scalar scalar, each_singleton, processScalar_scalar type] at visit
          rw [memberElements_scalar scalar, collect_singleton, leavesOf_scalar type] at leaf
          cases visit
          cases leaf
          have equal := List.perm_singleton.mp same
          simp only [List.cons.injEq, Call.mk.injEq, true_and, and_true] at equal
          exact Nat.add_right_cancel equal

theorem processScalar_address (unambiguous : Unambiguous append good)
    (described : ∀ t ∈ s :: Γ, Described Γ typeDb t)
    (named : ∀ t ∈ s :: Γ, Named good t) (leafy : ∀ t ∈ Γ, Leafy t) {m : Member} (member : m ∈ s.members)
    {more fuel : Nat}
    {a b : Address} {ok : Bool} {calls due : List (Call N)}
    (walked : processScalar typeDb (processType abi mem typeDb append encoded more) name (fieldType m.type)
    (typestr m.type) a =
      some (ok, calls))
    (leaves : leavesOf Γ (scalarLeaves Γ abi mem append fuel) name b m.type = some due) (same : calls.Perm due) :
    a = b ∧ ∀ fullname, m.type = .user fullname → fieldType m.type = .userType := by
  have found := (described s List.mem_cons_self).found m member
  rcases processScalar_cases found walked with ⟨type, rfl⟩ | ⟨fullname, u, isUser, type, known, walked⟩
  · rcases leavesOf_cases leaves with ⟨scalar, rfl⟩ | ⟨fullname, u, isUser, known, leaves⟩
    · have equal := List.perm_singleton.mp same
      simp only [List.cons.injEq, Call.mk.injEq, true_and, and_true] at equal
      exact ⟨equal, fun fullname isUser => absurd isUser (scalar fullname)⟩
    · -- The leaves of a message all have longer names than it.
      have some := scalarLeaves_ne_nil (leafy u (List.mem_of_find?_eq_some known)) leaves
      obtain ⟨call, inDue⟩ := List.exists_mem_of_ne_nil _ some
      obtain ⟨m', member', xs, each, longer⟩ :=
        scalarLeaves_under unambiguous.decimal (forall_lookup named known) leaves call inDue
      obtain rfl := List.mem_singleton.mp (same.mem_iff.mpr inDue)
      have proper := ((forall_lookup named known) u List.mem_cons_self).proper m' member'
      have equal := unambiguous.apart name [] (m'.membername :: xs) nofun
        (List.forall_mem_cons.mpr ⟨proper, each⟩) longer
      cases equal
  · refine ⟨?_, fun _ _ => type⟩
    rw [isUser, leavesOf, known] at leaves
    exact processType_address unambiguous (forall_lookup described known) (forall_lookup named known)
      (leafy u (List.mem_of_find?_eq_some known)) walked leaves same

theorem straight_of_visits (unambiguous : Unambiguous append good)
    (described : ∀ t ∈ s :: Γ, Described Γ typeDb t)
    (named : ∀ t ∈ s :: Γ, Named good t) (leafy : ∀ t ∈ Γ, Leafy t) {more fuel : Nat} {p : Address}
    (separate : Separate Γ abi mem fuel s p) {ok : Bool} {calls due : List (Call N)}
    (walked : processType abi mem typeDb append encoded more name s p = some (ok, calls))
    (leaves : scalarLeaves Γ abi mem append fuel name s p = some due) (same : calls.Perm due) :
    Straight Γ abi mem fuel s p := by
  induction fuel generalizing s name p more ok calls due with
  | zero => cases leaves
  | succ fuel ih =>
      cases more with
      | zero => cases walked
      | succ more =>
          intro m i inMembers
          have member : m ∈ s.members := List.fst_mem_of_mem_zipIdx inMembers
          obtain ⟨separateHere, separateInner⟩ := separate m i inMembers
          obtain ⟨room, ok, calls, due, visit, leaf, same⟩ :=
            members_perm unambiguous described named walked leaves same inMembers
          obtain ⟨found, perm⟩ := elements_perm unambiguous described named leafy member visit leaf same
          have comes : Comes Γ abi mem s p m i := by
            refine ⟨found, fun is a b visit element => ?_⟩
            obtain ⟨ok, calls, due, walked, leaves, same⟩ := perm is a b visit element
            exact (processScalar_address unambiguous described named leafy member walked leaves same).1
          refine ⟨comes.straight separateHere room fun some => ?_, fun fullname t isUser known e element => ?_⟩
          · obtain ⟨⟨is, b⟩, element⟩ := List.exists_mem_of_ne_nil _ some
            obtain ⟨a, visit⟩ := (found is).mpr ⟨b, element⟩
            obtain ⟨ok, calls, due, walked, leaves, same⟩ := perm is a b visit element
            exact (processScalar_address unambiguous described named leafy member walked leaves same).2
          · obtain ⟨a, visit⟩ := (found e.1).mpr ⟨e.2, element⟩
            obtain ⟨ok, calls, due, walked, leaves, same⟩ := perm e.1 a e.2 visit element
            obtain ⟨rfl, type⟩ := processScalar_address unambiguous described named leafy member walked leaves same
            have found := (described s List.mem_cons_self).found m member
            rcases processScalar_cases found walked with ⟨scalar, _⟩ |
              ⟨fullname', t', isUser', _, known', walked⟩
            · exact absurd (type fullname isUser) scalar
            · obtain rfl := Typename.user.inj (isUser.symm.trans isUser')
              obtain rfl := Option.some.inj (known.symm.trans known')
              rw [isUser, leavesOf, known] at leaves
              exact ih (forall_lookup described known) (forall_lookup named known)
                (separateInner fullname t isUser known e element) walked leaves same

end Apart

section Visits

variable {Γ : Env} {abi : Abi} {mem : Memory} {typeDb : String → Option Struct} {N : Type}
  {append : N → String → N} {encoded : N → Address → Int → Outcome N}

def Visits (abi : Abi) (mem : Memory) (typeDb : String → Option Struct) (append : N → String → N)
    (encoded : N → Address → Int → Outcome N) (more : Nat) (name : N) (s : Struct) (p : Address)
    (leaves : List (Call N)) : Prop :=
  ∃ ok calls, processType abi mem typeDb append encoded more name s p = some (ok, calls) ∧ calls.Perm leaves

/-- `processType` visits each scalar leaf once where the message is straight, and only there, if the elements
of the message are apart, each type has a scalar of its own and the names tell the leaves apart. -/
theorem visits_leaves {fuel : Nat} {name : N} {s : Struct} {p : Address} {leaves : List (Call N)}
    (described : ∀ t ∈ s :: Γ, Described Γ typeDb t)
    (due : scalarLeaves Γ abi mem append fuel name s p = some leaves) {more : Nat} (enough : fuel ≤ more) :
    (Straight Γ abi mem fuel s p → Visits abi mem typeDb append encoded more name s p leaves) ∧
      ∀ good, Unambiguous append good → (∀ t ∈ s :: Γ, Named good t) → (∀ t ∈ Γ, Leafy t) →
        Separate Γ abi mem fuel s p →
        (Visits abi mem typeDb append encoded more name s p leaves ↔ Straight Γ abi mem fuel s p) := by
  have enoughFor (straight : Straight Γ abi mem fuel s p) :
      Visits abi mem typeDb append encoded more name s p leaves :=
    ⟨true, leaves, processType_visits_leaves described due straight enough, .refl _⟩
  refine ⟨enoughFor, fun good unambiguous named leafy separate => ⟨?_, enoughFor⟩⟩
  rintro ⟨ok, calls, walked, same⟩
  exact straight_of_visits unambiguous described named leafy separate walked due same

end Visits

section Runs

/-- The layout of 64-bit machines, for structs whose members are all aligned to eight bytes. -/
def plainAbi : Abi := ⟨8, fun s => 8 * s.members.length, fun _ i => 8 * i⟩

def point : Struct := ⟨"geo.point", 0, [⟨.prim .double, "x", []⟩, ⟨.prim .double, "y", []⟩]⟩

def track : Struct := ⟨"geo.track", 0, [⟨.prim .int32_t, "n", []⟩, ⟨.user "geo.point", "at", [.var "n"]⟩]⟩

def trackMemory : Memory := ⟨fun a => if a = 108 then 200 else 0, fun _ a => if a = 100 then 2 else 0⟩

def typesOf (Γ : Env) (name : String) : Option Struct := Γ.find? fun s => dotsToUnderscores s.structname = name

def noEncoded (_ : String) (_ : Address) (_ : Int) : Outcome String := (false, [])

def trackLeaves : List (Call String) :=
  [⟨"m/n", .prim .int32_t, 100⟩, ⟨"m/at/0/x", .prim .double, 200⟩, ⟨"m/at/0/y", .prim .double, 208⟩,
    ⟨"m/at/1/x", .prim .double, 216⟩, ⟨"m/at/1/y", .prim .double, 224⟩]

theorem track_described : ∀ t ∈ [track, point], Described [point] (typesOf [track, point]) t := by
  have ofTrack : Described [point] (typesOf [track, point]) track := by
    refine ⟨List.forall_mem_cons.mpr ⟨nofun, List.forall_mem_singleton.mpr fun fullname isUser => ?_⟩,
      by decide⟩
    cases isUser
    exact ⟨point, rfl, rfl⟩
  have ofPoint : Described [point] (typesOf [track, point]) point :=
    ⟨List.forall_mem_cons.mpr ⟨nofun, List.forall_mem_singleton.mpr nofun⟩, by decide⟩
  exact List.forall_mem_cons.mpr ⟨ofTrack, List.forall_mem_singleton.mpr ofPoint⟩

theorem straightMember_scalar {abi : Abi} {mem : Memory} {s : Struct} {p : Address} {m : Member}
    (scalar : m.dimensions = [])
    (type : ∀ fullname, m.type ≠ .user fullname) : StraightMember abi mem s p m where
  room := by simp [scalar, typeFieldMaxDim]
  rows := .inr
    { type := fun fullname isUser => absurd isUser (type fullname)
      sizes := by simp [scalar]
      one := by simp [scalar]
      follows := .inl (by simp [Member.isConstantSizeArray, scalar]) }

theorem track_straight : Straight [point] plainAbi trackMemory 2 track 100 := by
  intro m i inMembers
  have points : ∀ p, Straight [point] plainAbi trackMemory 1 point p := by
    intro p m i inMembers
    simp only [point, List.zipIdx_cons, List.zipIdx_nil, List.mem_cons, List.not_mem_nil, or_false,
      Prod.mk.injEq] at inMembers
    rcases inMembers with ⟨rfl, rfl⟩ | ⟨rfl, rfl⟩ <;>
      exact ⟨straightMember_scalar rfl (by simp), fun fullname t isUser => nomatch isUser⟩
  simp only [track, List.zipIdx_cons, List.zipIdx_nil, List.mem_cons, List.not_mem_nil, or_false,
    Prod.mk.injEq] at inMembers
  rcases inMembers with ⟨rfl, rfl⟩ | ⟨rfl, rfl⟩
  · exact ⟨straightMember_scalar rfl (by simp), fun fullname t isUser => nomatch isUser⟩
  · refine ⟨⟨by decide, .inr ⟨?_, ?_, ?_, .inr ?_⟩⟩, fun fullname t isUser known e _ => ?_⟩
    · intro fullname isUser
      decide
    · decide
    · simp
    · simp
    · cases isUser
      cases known
      exact points e.2

theorem separateMember_scalar {Γ : Env} {abi : Abi} {mem : Memory} {s : Struct} {p : Address} {m : Member} {i : Nat}
    (scalar : m.dimensions = []) : SeparateMember Γ abi mem s p m i where
  apart := by simp [memberElements_scalar scalar]
  chain := by simp [Member.isConstantSizeArray, scalar]

theorem track_separate : Separate [point] plainAbi trackMemory 2 track 100 := by
  have points : ∀ p, Separate [point] plainAbi trackMemory 1 point p := by
    intro p m i inMembers
    simp only [point, List.zipIdx_cons, List.zipIdx_nil, List.mem_cons, List.not_mem_nil, or_false,
      Prod.mk.injEq] at inMembers
    rcases inMembers with ⟨rfl, rfl⟩ | ⟨rfl, rfl⟩ <;>
      exact ⟨separateMember_scalar rfl, fun fullname t isUser => nomatch isUser⟩
  intro m i inMembers
  simp only [track, List.zipIdx_cons, List.zipIdx_nil, List.mem_cons, List.not_mem_nil, or_false,
    Prod.mk.injEq] at inMembers
  rcases inMembers with ⟨rfl, rfl⟩ | ⟨rfl, rfl⟩
  · exact ⟨separateMember_scalar rfl, fun fullname t isUser => nomatch isUser⟩
  · refine ⟨⟨by decide, fun _ _ => by decide⟩, fun fullname t isUser known e _ => ?_⟩
    cases isUser
    cases known
    exact points e.2

/-- The points of the track are found, each coordinate is visited once, and it takes straight rows for that. -/
theorem track_visits_leaves :
    Visits plainAbi trackMemory (typesOf [track, point]) (appendName "/") noEncoded 2 "m" track 100 trackLeaves ∧
      Straight [point] plainAbi trackMemory 2 track 100 := by
  have both := @visits_leaves [point] plainAbi trackMemory (typesOf [track, point]) String
    (appendName "/") noEncoded 2 "m" track 100
    trackLeaves track_described (by decide) 2 (Nat.le_refl 2)
  have visits := both.1 track_straight
  have named : ∀ t ∈ [track, point], Named (fun name => '/' ∉ name.toList) t :=
    List.forall_mem_cons.mpr ⟨⟨by decide, by decide⟩, List.forall_mem_singleton.mpr ⟨by decide, by decide⟩⟩
  have leafy : ∀ t ∈ [point], Leafy t := List.forall_mem_singleton.mpr ⟨_, List.mem_cons_self, rfl, nofun⟩
  exact ⟨visits, (both.2 _ (appendName_unambiguous rfl rfl) named leafy track_separate).mp visits⟩

def grid : Struct := ⟨"geo.grid", 0, [⟨.prim .int8_t, "cells", [.const 2, .const 2]⟩]⟩

theorem rows_visited_twice (more : Nat) :
    processType plainAbi trackMemory (typesOf []) (appendName "/") noEncoded (more + 1) "m" grid 100 = some (true,
      [⟨"m/cells/0/0", .prim .int8_t, 100⟩, ⟨"m/cells/0/1", .prim .int8_t, 101⟩,
        ⟨"m/cells/1/0", .prim .int8_t, 100⟩, ⟨"m/cells/1/1", .prim .int8_t, 101⟩]) := by
  rfl

/-- The second row of a constant array is four cells at four addresses, and two of them are never visited. -/
theorem second_row_missed : Described [] (typesOf []) grid ∧
    ∃ due, scalarLeaves [] plainAbi trackMemory (appendName "/") 1 "m" grid 100 = some due ∧
      ∀ more, ¬ Visits plainAbi trackMemory (typesOf []) (appendName "/") noEncoded more "m" grid 100 due := by
  refine ⟨⟨List.forall_mem_singleton.mpr nofun, by decide⟩, _, (Option.some_get (by decide)).symm, ?_⟩
  rintro more ⟨ok, calls, walked, same⟩
  cases more with
  | zero => cases walked
  | succ more =>
      rw [rows_visited_twice] at walked
      cases walked
      exact absurd ((List.Perm.mem_iff (a := (⟨"m/cells/1/0", .prim .int8_t, 102⟩ : Call String)) same).mpr
        (by decide)) (by decide)

end Runs

end Zcm.Introspection
