import Zcm.Gen.Fingerprint

namespace Zcm.Gen
open Zcm.Lib

namespace EmitNode

structure Module where
  hash : String → Option Nat
  -- No function declares it, so there is one variable for all of them.
  newparents : List String

def Module.initial : Module := ⟨fun _ => none, []⟩

def rotateLeftOne (val : Nat) : Nat := ((val <<< 1) &&& UINT64_MAX) + ((val >>> 63) &&& 1)

def addNested (getHashRecursive : List String → String → Module → Option (Nat × Module)) :
    Nat → List String → Module → Option (Nat × Module)
  | tmphash, [], js => some (tmphash, js)
  | tmphash, name :: names, js => do
      let (nested, js) ← getHashRecursive js.newparents name js
      addNested getHashRecursive (tmphash + nested) names js

def getHashRecursive (Γ : Env) : Nat → List String → String → Module → Option (Nat × Module)
  | 0, _, _, _ => none
  | fuel + 1, parents, name, js => do
      let zs ← Γ.lookup name
      match js.hash name with
      | some hash => return (hash, js)
      | none =>
          if name ∈ parents then return (0, js)
          let js := if zs.nestedTypes = [] then js else { js with newparents := parents ++ [name] }
          let (tmphash, js) ← addNested (getHashRecursive Γ fuel) zs.hash.toNat zs.nestedTypes js
          let hash := rotateLeftOne (tmphash &&& UINT64_MAX)
          return (hash, { js with hash := Function.update js.hash name (some hash) })

def requests (Γ : Env) (fuel : Nat) : List String → Module → Option (List Nat × Module)
  | [], js => some ([], js)
  | name :: names, js => do
      let (hash, js) ← getHashRecursive Γ fuel [] name js
      let (hashes, js) ← requests Γ fuel names js
      return (hash :: hashes, js)

end EmitNode

namespace EmitJulia

abbrev Module := String → BitVec 64

def Module.initial : Module := fun _ => 0

def addNested (getHashRecursive : String → Module → Option (BitVec 64 × Module)) :
    BitVec 64 → List String → Module → Option (BitVec 64 × Module)
  | hash, [], jl => some (hash, jl)
  | hash, name :: names, jl => do
      let (nested, jl) ← getHashRecursive name jl
      addNested getHashRecursive (hash + nested) names jl

def getHashRecursive (Γ : Env) : Nat → List String → String → Module → Option (BitVec 64 × Module)
  | 0, _, _, _ => none
  | fuel + 1, parents, name, jl => do
      let zs ← Γ.lookup name
      if jl name ≠ 0 then return (jl name, jl)
      if name ∈ parents then return (0, jl)
      let newparents := parents ++ [name]
      let (hash, jl) ← addNested (getHashRecursive Γ fuel newparents) zs.hash zs.nestedTypes jl
      return (rotateLeft hash, Function.update jl name (rotateLeft hash))

def requests (Γ : Env) (fuel : Nat) : List String → Module → Option (List (BitVec 64) × Module)
  | [], jl => some ([], jl)
  | name :: names, jl => do
      let (hash, jl) ← getHashRecursive Γ fuel [] name jl
      let (hashes, jl) ← requests Γ fuel names jl
      return (hash :: hashes, jl)

end EmitJulia

/-- One after the other, the requests get the answers that C gives to each of them alone. -/
def CachesAgree (Γ : Env) (fuel : Nat) (names : List String) : Prop :=
  ∃ hashes, names.mapM (EmitC.hashRecursive Γ fuel []) = some hashes ∧
    (∃ js, EmitNode.requests Γ fuel names .initial = some (hashes.map BitVec.toNat, js)) ∧
    ∃ jl, EmitJulia.requests Γ fuel names .initial = some (hashes, jl)

namespace Declarations
variable (decls : Declarations)

theorem reaches_nested {name nested : String} {zs : Struct} (found : decls.structs.lookup name = some zs)
    (member : nested ∈ zs.nestedTypes) : decls.graph.Reaches name nested := by
  apply Graph.reaches_successor
  change nested ∈ decls.successors name
  rw [successors, found]
  exact member

def part (name nested : String) : BitVec 64 := if nested = name then 0 else decls.fingerprint [] nested

theorem fingerprint_parts {name : String} {zs : Struct} (declared : name ∈ decls.names)
    (found : decls.structs.lookup name = some zs) (untangled : decls.graph.Untangled name) :
    decls.fingerprint [] name = rotateLeft ((zs.nestedTypes.map (decls.part name)).foldl (· + ·) zs.hash) := by
  have parts : zs.nestedTypes.map (decls.fingerprint [name]) = zs.nestedTypes.map (decls.part name) := by
    apply List.map_congr_left
    intro nested member
    by_cases own : nested = name
    · rw [decls.fingerprint_met (List.mem_singleton.mpr own), part, if_pos own]
    · rw [part, if_neg own]
      -- The type does not come back from what it nests, so it may as well not be a parent.
      apply decls.graph.fold_congr
      intro other reached
      have different : other ≠ name := by
        rintro rfl
        exact own (untangled _ _ .refl (decls.reaches_nested found member) reached).symm
      simp [different]
  rw [decls.fingerprint_new declared found List.not_mem_nil, parts]

structure Pending (stack : List String) (name : String) : Prop where
  declared : name ∈ decls.names
  untangled : decls.graph.Untangled name
  apart : ∀ parent ∈ stack, ¬ decls.graph.Reaches name parent

variable {decls}

theorem Pending.new {stack : List String} {name : String} (pending : decls.Pending stack name) : name ∉ stack :=
  fun member => pending.apart name member .refl

theorem Pending.nested {stack : List String} {name nested : String} {zs : Struct}
    (pending : decls.Pending stack name) (found : decls.structs.lookup name = some zs)
    (member : nested ∈ zs.nestedTypes) (other : nested ≠ name) : decls.Pending (name :: stack) nested where
  declared := decls.nested_declared pending.declared found member
  untangled := pending.untangled.reached (decls.reaches_nested found member)
  apart := by
    have reached := decls.reaches_nested found member
    intro parent onStack back
    cases List.mem_cons.mp onStack with
    | inl same =>
        rw [same] at back
        exact other (pending.untangled name nested .refl reached back).symm
    | inr earlier => exact pending.apart parent earlier (reached.trans back)

end Declarations

section
variable (decls : Declarations)

namespace EmitNode

theorem rotateLeftOne_eq (sum : Nat) :
    rotateLeftOne (sum &&& UINT64_MAX) = (rotateLeft (BitVec.ofNat 64 sum)).toNat := by
  have mask (n : Nat) : n &&& UINT64_MAX = n % 2 ^ 64 := Nat.and_two_pow_sub_one_eq_mod n 64
  have bit (n : Nat) : n &&& 1 = n % 2 := Nat.and_one_is_mod n
  have one : (1 : BitVec 64).toNat = 1 := rfl
  simp only [rotateLeftOne, mask, rotateLeft, BitVec.toNat_add, BitVec.toNat_shiftLeft, BitVec.toNat_and,
    BitVec.toNat_ushiftRight, BitVec.toNat_ofNat, one, bit, Nat.shiftLeft_eq, Nat.shiftRight_eq_div_pow]
  omega

structure Ready (stack parents : List String) (js : Module) : Prop where
  sound : ∀ name hash, js.hash name = some hash → hash = (decls.fingerprint [] name).toNat
  unknown : ∀ name ∈ stack, js.hash name = none
  covers : ∀ name ∈ stack, name ∈ parents
  only : ∀ name ∈ parents, name ∈ stack ∨ js.hash name ≠ none

structure Extends (name : String) (js js' : Module) : Prop where
  kept : ∀ other, js.hash other ≠ none → js'.hash other ≠ none
  frame : ∀ other, ¬ decls.graph.Reaches name other → js'.hash other = js.hash other

variable {decls}

theorem addNested_eq {fuel : Nat} {stack : List String} {name : String} {zs : Struct}
    (pending : decls.Pending stack name) (found : decls.structs.lookup name = some zs)
    (call : ∀ nested ∈ zs.nestedTypes, nested ≠ name → ∀ js, Ready decls (name :: stack) js.newparents js →
      ∃ js', getHashRecursive decls.structs fuel js.newparents nested js =
          some ((decls.fingerprint [] nested).toNat, js') ∧
        Ready decls (name :: stack) js'.newparents js' ∧ Extends decls nested js js')
    (positive : 0 < fuel) (names : List String) (subset : names ⊆ zs.nestedTypes) (tmphash : Nat) (js : Module)
    (ready : Ready decls (name :: stack) js.newparents js) :
    ∃ sum js', addNested (getHashRecursive decls.structs fuel) tmphash names js = some (sum, js') ∧
      BitVec.ofNat 64 sum = (names.map (decls.part name)).foldl (· + ·) (BitVec.ofNat 64 tmphash) ∧
      Ready decls (name :: stack) js'.newparents js' ∧ Extends decls name js js' := by
  induction names generalizing tmphash js with
  | nil => exact ⟨tmphash, js, rfl, rfl, ready, fun _ known => known, fun _ _ => rfl⟩
  | cons nested names ih =>
      have member := subset List.mem_cons_self
      have later := List.subset_of_cons_subset subset
      by_cases own : nested = name
      · -- The type itself has no hash yet and is among the parents.
        subst own
        obtain ⟨fuel, rfl⟩ := Nat.exists_eq_succ_of_ne_zero (Nat.ne_of_gt positive)
        have first : getHashRecursive decls.structs (fuel + 1) js.newparents nested js = some (0, js) := by
          simp [getHashRecursive, found, ready.unknown nested List.mem_cons_self,
            ready.covers nested List.mem_cons_self]
        obtain ⟨sum, js', added, equal, ready', extends'⟩ := ih later tmphash js ready
        refine ⟨sum, js', ?_, ?_, ready', extends'⟩
        · simpa [addNested, first] using added
        · simpa [Declarations.part] using equal
      · obtain ⟨between, first, readied, extended⟩ := call nested member own js ready
        obtain ⟨sum, js', added, equal, ready', extends'⟩ :=
          ih later (tmphash + (decls.fingerprint [] nested).toNat) between readied
        refine ⟨sum, js', ?_, ?_, ready', ?_, ?_⟩
        · simpa [addNested, first] using added
        · simpa [Declarations.part, own, BitVec.ofNat_add] using equal
        · intro other known
          exact extends'.kept other (extended.kept other known)
        · intro other apart
          have further : ¬ decls.graph.Reaches nested other := fun reached =>
            apart ((decls.reaches_nested found member).trans reached)
          rw [extends'.frame other apart, extended.frame other further]

theorem Ready.store {stack inner : List String} {name : String} {js : Module} {hash : Nat}
    (ready : Ready decls inner js.newparents js) (holds : stack ⊆ inner) (within : inner ⊆ name :: stack)
    (new : name ∉ stack) (right : hash = (decls.fingerprint [] name).toNat) :
    Ready decls stack js.newparents { js with hash := Function.update js.hash name (some hash) } where
  sound := by
    intro other known stored
    by_cases same : other = name
    · subst same
      simp only [Function.update_self, Option.some.injEq] at stored
      rw [← stored, right]
    · exact ready.sound other known (by simpa [same] using stored)
  unknown := by
    intro other member
    have different : other ≠ name := fun same => new (same ▸ member)
    simpa [different] using ready.unknown other (holds member)
  covers := fun other member => ready.covers other (holds member)
  only := by
    intro other member
    by_cases same : other = name
    · right
      simp [same]
    · cases ready.only other member with
      | inl onStack => exact .inl ((List.mem_cons.mp (within onStack)).resolve_left same)
      | inr known => exact .inr (by simpa [same] using known)

theorem Extends.store {name : String} {js js' : Module} {hash : Nat} (grown : Extends decls name js js') :
    Extends decls name js { js' with hash := Function.update js'.hash name (some hash) } where
  kept := by
    intro other known
    by_cases same : other = name
    · simp [same]
    · simpa [same] using grown.kept other known
  frame := by
    intro other apart
    have different : other ≠ name := fun same => apart (same ▸ .refl)
    simpa [different] using grown.frame other apart

theorem getHashRecursive_eq {fuel : Nat} {stack parents : List String} {name : String} {js : Module}
    (pending : decls.Pending stack name) (enough : decls.graph.fresh stack < fuel)
    (ready : Ready decls stack parents js) (last : Ready decls stack js.newparents js) :
    ∃ js', getHashRecursive decls.structs fuel parents name js = some ((decls.fingerprint [] name).toNat, js') ∧
      Ready decls stack js'.newparents js' ∧ Extends decls name js js' := by
  induction fuel generalizing stack parents name js with
  | zero => exact absurd enough (Nat.not_lt_zero _)
  | succ fuel ih =>
      obtain ⟨zs, _, found⟩ := decls.lookup_isSome pending.declared
      cases stored : js.hash name with
      | some hash =>
          refine ⟨js, ?_, last, fun _ known => known, fun _ _ => rfl⟩
          simp [getHashRecursive, found, stored, ready.sound name hash stored]
      | none =>
          have absent : name ∉ parents := by
            intro member
            cases ready.only name member with
            | inl onStack => exact pending.new onStack
            | inr known => exact known stored
          have fewer := decls.graph.fresh_cons_lt pending.declared pending.new
          have nonempty : 0 < fuel := by omega
          by_cases plain : zs.nestedTypes = []
          · refine ⟨_, ?_, last.store (List.Subset.refl _) (List.subset_cons_self _ _) pending.new rfl,
              Extends.store ⟨fun _ known => known, fun _ _ => rfl⟩⟩
            rw [decls.fingerprint_parts pending.declared found pending.untangled]
            simp [getHashRecursive, found, stored, absent, plain, addNested, rotateLeftOne_eq]
          · have entered : Ready decls (name :: stack) (parents ++ [name])
                { js with newparents := parents ++ [name] } := by
              refine ⟨ready.sound, ?_, ?_, ?_⟩
              · intro other member
                cases List.mem_cons.mp member with
                | inl same => exact same ▸ stored
                | inr earlier => exact ready.unknown other earlier
              · intro other member
                cases List.mem_cons.mp member with
                | inl same => simp [same]
                | inr earlier => simp [ready.covers other earlier]
              · intro other member
                cases List.mem_append.mp member with
                | inl earlier =>
                    cases ready.only other earlier with
                    | inl onStack => exact .inl (List.mem_cons_of_mem _ onStack)
                    | inr known => exact .inr known
                | inr same => exact .inl (by simp [List.mem_singleton.mp same])
            obtain ⟨sum, js', added, equal, ready', extended⟩ := addNested_eq pending found
              (fun nested member other js ready =>
                ih (pending.nested found member other) (by omega) ready ready)
              nonempty zs.nestedTypes (List.Subset.refl _) zs.hash.toNat
              { js with newparents := parents ++ [name] } entered
            have right : rotateLeftOne (sum &&& UINT64_MAX) = (decls.fingerprint [] name).toNat := by
              rw [rotateLeftOne_eq, equal, decls.fingerprint_parts pending.declared found pending.untangled,
                BitVec.ofNat_toNat, BitVec.setWidth_eq]
            refine ⟨_, ?_, ready'.store (List.subset_cons_self _ _) (List.Subset.refl _) pending.new right,
              Extends.store ⟨extended.kept, extended.frame⟩⟩
            simp [getHashRecursive, found, stored, absent, plain, added, right]

theorem requests_eq {fuel : Nat} (bound : decls.structs.length < fuel) (names : List String)
    (declared : ∀ name ∈ names, name ∈ decls.names) (untangled : ∀ name ∈ names, decls.graph.Untangled name)
    (js : Module) (ready : Ready decls [] js.newparents js) :
    ∃ js', requests decls.structs fuel names js =
      some (names.map fun name => (decls.fingerprint [] name).toNat, js') := by
  induction names generalizing js with
  | nil => exact ⟨js, rfl⟩
  | cons name names ih =>
      have pending : decls.Pending [] name :=
        ⟨declared name List.mem_cons_self, untangled name List.mem_cons_self, by simp⟩
      have first : Ready decls [] [] js := ⟨ready.sound, by simp, by simp, by simp⟩
      obtain ⟨between, answer, ready', _⟩ := getHashRecursive_eq pending (decls.fresh_lt bound) first ready
      obtain ⟨js', answers⟩ := ih (fun other member => declared other (List.mem_cons_of_mem _ member))
        (fun other member => untangled other (List.mem_cons_of_mem _ member)) between ready'
      exact ⟨js', by simp [requests, answer, answers]⟩

end EmitNode

namespace EmitJulia

structure Ready (stack parents : List String) (jl : Module) : Prop where
  sound : ∀ name, jl name ≠ 0 → jl name = decls.fingerprint [] name
  unknown : ∀ name ∈ stack, jl name = 0
  parents : ∀ name, name ∈ parents ↔ name ∈ stack

variable {decls}

theorem addNested_eq {fuel : Nat} {stack parents : List String} {name : String} {zs : Struct}
    (pending : decls.Pending stack name) (found : decls.structs.lookup name = some zs)
    (call : ∀ nested ∈ zs.nestedTypes, nested ≠ name → ∀ jl, Ready decls (name :: stack) parents jl →
      ∃ jl', getHashRecursive decls.structs fuel parents nested jl = some (decls.fingerprint [] nested, jl') ∧
        Ready decls (name :: stack) parents jl')
    (positive : 0 < fuel) (names : List String) (subset : names ⊆ zs.nestedTypes) (hash : BitVec 64) (jl : Module)
    (ready : Ready decls (name :: stack) parents jl) :
    ∃ jl', addNested (getHashRecursive decls.structs fuel parents) hash names jl =
        some ((names.map (decls.part name)).foldl (· + ·) hash, jl') ∧
      Ready decls (name :: stack) parents jl' := by
  induction names generalizing hash jl with
  | nil => exact ⟨jl, rfl, ready⟩
  | cons nested names ih =>
      have member := subset List.mem_cons_self
      have later := List.subset_of_cons_subset subset
      by_cases own : nested = name
      · subst own
        obtain ⟨fuel, rfl⟩ := Nat.exists_eq_succ_of_ne_zero (Nat.ne_of_gt positive)
        have first : getHashRecursive decls.structs (fuel + 1) parents nested jl = some (0, jl) := by
          simp [getHashRecursive, found, ready.unknown nested List.mem_cons_self, ready.parents]
        obtain ⟨jl', added, ready'⟩ := ih later hash jl ready
        refine ⟨jl', ?_, ready'⟩
        simpa [addNested, first, Declarations.part] using added
      · obtain ⟨between, first, readied⟩ := call nested member own jl ready
        obtain ⟨jl', added, ready'⟩ := ih later (hash + decls.fingerprint [] nested) between readied
        refine ⟨jl', ?_, ready'⟩
        simpa [addNested, first, Declarations.part, own] using added

theorem getHashRecursive_eq {fuel : Nat} {stack parents : List String} {name : String} {jl : Module}
    (pending : decls.Pending stack name) (enough : decls.graph.fresh stack < fuel)
    (ready : Ready decls stack parents jl) :
    ∃ jl', getHashRecursive decls.structs fuel parents name jl = some (decls.fingerprint [] name, jl') ∧
      Ready decls stack parents jl' := by
  induction fuel generalizing stack parents name jl with
  | zero => exact absurd enough (Nat.not_lt_zero _)
  | succ fuel ih =>
      obtain ⟨zs, _, found⟩ := decls.lookup_isSome pending.declared
      by_cases stored : jl name = 0
      · have absent : name ∉ parents := fun member => pending.new ((ready.parents name).mp member)
        have fewer := decls.graph.fresh_cons_lt pending.declared pending.new
        have entered : Ready decls (name :: stack) (parents ++ [name]) jl := by
          refine ⟨ready.sound, ?_, ?_⟩
          · intro other member
            cases List.mem_cons.mp member with
            | inl same => exact same ▸ stored
            | inr earlier => exact ready.unknown other earlier
          · intro other
            simp [ready.parents other, or_comm]
        obtain ⟨jl', added, ready'⟩ := addNested_eq pending found
          (fun nested member other jl ready => ih (pending.nested found member other) (by omega) ready)
          (by omega) zs.nestedTypes (List.Subset.refl _) zs.hash jl entered
        have right := decls.fingerprint_parts pending.declared found pending.untangled
        refine ⟨Function.update jl' name (decls.fingerprint [] name), ?_, ?_, ?_, ready.parents⟩
        · simp [getHashRecursive, found, stored, absent, added, right]
        · intro other known
          by_cases same : other = name
          · simp [same]
          · simpa [same] using ready'.sound other (by simpa [same] using known)
        · intro other member
          have different : other ≠ name := fun same => pending.new (same ▸ member)
          simpa [different] using ready'.unknown other (List.mem_cons_of_mem _ member)
      · refine ⟨jl, ?_, ready⟩
        have known : jl name ≠ 0#64 := stored
        rw [← ready.sound name stored]
        simp [getHashRecursive, found, known]

theorem requests_eq {fuel : Nat} (bound : decls.structs.length < fuel) (names : List String)
    (declared : ∀ name ∈ names, name ∈ decls.names) (untangled : ∀ name ∈ names, decls.graph.Untangled name)
    (jl : Module) (ready : Ready decls [] [] jl) :
    ∃ jl', requests decls.structs fuel names jl = some (names.map (decls.fingerprint []), jl') := by
  induction names generalizing jl with
  | nil => exact ⟨jl, rfl⟩
  | cons name names ih =>
      have pending : decls.Pending [] name :=
        ⟨declared name List.mem_cons_self, untangled name List.mem_cons_self, by simp⟩
      obtain ⟨between, answer, ready'⟩ := getHashRecursive_eq pending (decls.fresh_lt bound) ready
      obtain ⟨jl', answers⟩ := ih (fun other member => declared other (List.mem_cons_of_mem _ member))
        (fun other member => untangled other (List.mem_cons_of_mem _ member)) between ready'
      exact ⟨jl', by simp [requests, answer, answers]⟩

end EmitJulia

/-- Self-recursive types are no obstacle: only a cycle through two types makes a value depend on its parents. -/
theorem caches_agree (fuel : Nat) (bound : decls.structs.length < fuel) (names : List String)
    (declared : ∀ name ∈ names, name ∈ decls.names) (untangled : ∀ name ∈ names, decls.graph.Untangled name) :
    CachesAgree decls.structs fuel names := by
  refine ⟨names.map (decls.fingerprint []), ?_, ?_, ?_⟩
  · have answers : ∀ name ∈ names,
        EmitC.hashRecursive decls.structs fuel [] name = some (decls.fingerprint [] name) :=
      fun name member => EmitC.hashRecursive_eq decls (declared name member) (decls.fresh_lt bound)
    clear declared untangled
    induction names with
    | nil => rfl
    | cons name names ih =>
        have rest := ih fun other member => answers other (List.mem_cons_of_mem _ member)
        simp [List.mapM_cons, answers name List.mem_cons_self, rest]
  · rw [List.map_map]
    exact EmitNode.requests_eq bound names declared untangled .initial
      ⟨by simp [EmitNode.Module.initial], by simp, by simp, by simp [EmitNode.Module.initial]⟩
  · exact EmitJulia.requests_eq bound names declared untangled .initial
      ⟨by simp [EmitJulia.Module.initial], by simp, by simp⟩

end

namespace Tree

def declarations : Declarations where
  structs := [⟨"tree", "tree", Mutual.members "tree"⟩].map (ZCMStruct.emitted defaultOptions fun _ => 0)
  closed := by decide

theorem reaches_only {name : String} (reached : declarations.graph.Reaches "tree" name) : name = "tree" := by
  induction reached with
  | refl => rfl
  | tail _ edge ih =>
      subst ih
      exact List.mem_singleton.mp edge

end Tree

theorem caches_agree_tree : CachesAgree Tree.declarations.structs 2 ["tree", "tree"] := by
  refine caches_agree Tree.declarations 2 (by decide) ["tree", "tree"] (by decide) ?_
  intro name member b c first second third
  have own : name = "tree" := by simpa using member
  subst own
  obtain rfl := Tree.reaches_only first
  exact (Tree.reaches_only second).symm

/-- The second request finds what the first left behind: a hash that was computed below `a`. -/
theorem caches_differ_mutual : (∀ name ∈ ["a", "b"], name ∈ Mutual.declarations.names) ∧
    Mutual.declarations.structs.length < 3 ∧ ¬ CachesAgree Mutual.declarations.structs 3 ["a", "b"] := by
  refine ⟨by decide, by decide, ?_⟩
  rintro ⟨hashes, answers, -, jl, julia⟩
  have differ : (EmitJulia.requests Mutual.declarations.structs 3 ["a", "b"] .initial).map Prod.fst ≠
      ["a", "b"].mapM (EmitC.hashRecursive Mutual.declarations.structs 3 []) := by
    decide +kernel
  rw [julia, answers] at differ
  exact differ rfl

end Zcm.Gen
