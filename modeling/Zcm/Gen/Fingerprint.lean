import Zcm.Gen.ComputeHash
import Zcm.Lib.Graph

/-!
# The recursive fingerprint

The functions that the emitters write for it, each with its own way to keep the list of parents.
A call that is nested more deeply than `fuel` has no result. How the emitted files include or import
each other is left out.
-/

namespace Zcm.Gen
open Zcm.Lib

def Member.nestedType (zm : Member) : Option String :=
  match zm.type with
  | .user name => some name
  | _ => none

def Struct.nestedTypes (zs : Struct) : List String := zs.members.filterMap Member.nestedType

structure Declarations where
  structs : Env
  closed : ∀ zs ∈ structs, ∀ name ∈ zs.nestedTypes, name ∈ structs.map (·.structname)

def rotateLeft (hash : BitVec 64) : BitVec 64 := (hash <<< 1) + ((hash >>> 63) &&& 1)

def UINT64_MAX : Nat := 0xffffffffffffffff

namespace EmitC

def memberHash (hashRecursive : String → Option (BitVec 64)) : Typename → Option (BitVec 64)
  | .user name => hashRecursive name
  | _ => some 0

def addMembers (hashRecursive : String → Option (BitVec 64)) : BitVec 64 → List Member → Option (BitVec 64)
  | hash, [] => some hash
  | hash, zm :: zms => do
      let nested ← memberHash hashRecursive zm.type
      addMembers hashRecursive (hash + nested) zms

def hashRecursive (Γ : Env) : Nat → List String → String → Option (BitVec 64)
  | 0, _, _ => none
  | fuel + 1, p, name => do
      let zs ← Γ.lookup name
      if name ∈ p then return 0
      let hash ← addMembers (hashRecursive Γ fuel (name :: p)) zs.hash zs.members
      return rotateLeft hash

end EmitC

namespace EmitCpp

def addNested (computeHash : String → Option (BitVec 64)) : BitVec 64 → List String → Option (BitVec 64)
  | hash, [] => some hash
  | hash, name :: names => do
      let nested ← computeHash name
      addNested computeHash (hash + nested) names

def computeHash (Γ : Env) : Nat → List String → String → Option (BitVec 64)
  | 0, _, _ => none
  | fuel + 1, p, name => do
      let zs ← Γ.lookup name
      -- A struct without nested structs gets a function that ignores its parents.
      if zs.nestedTypes = [] then return rotateLeft zs.hash
      if name ∈ p then return 0
      let hash ← addNested (computeHash Γ fuel (name :: p)) zs.hash zs.nestedTypes
      return rotateLeft hash

end EmitCpp

namespace EmitJava

def addNested (hashRecursive : String → List String → Option (BitVec 64 × List String)) :
    BitVec 64 → List String → List String → Option (BitVec 64 × List String)
  | hash, [], classes => some (hash, classes)
  | hash, name :: names, classes => do
      let (nested, classes) ← hashRecursive name classes
      addNested hashRecursive (hash + nested) names classes

/-- All calls share one list of classes; each call takes its own class off again. -/
def hashRecursive (Γ : Env) : Nat → String → List String → Option (BitVec 64 × List String)
  | 0, _, _ => none
  | fuel + 1, name, classes => do
      let zs ← Γ.lookup name
      if name ∈ classes then return (0, classes)
      let (hash, classes) ← addNested (hashRecursive Γ fuel) zs.hash zs.nestedTypes (classes ++ [name])
      return (rotateLeft hash, classes.dropLast)

end EmitJava

namespace EmitPython

def addNested (getHashRecursive : String → Option Nat) : Nat → List String → Option Nat
  | tmphash, [] => some tmphash
  | tmphash, name :: names => do
      let nested ← getHashRecursive name
      addNested getHashRecursive (tmphash + nested) names

def rotate (tmphash : Nat) : Nat :=
  (((tmphash <<< 1) &&& UINT64_MAX) + ((tmphash >>> 63) &&& 1)) &&& UINT64_MAX

/-- Python's integers are unbounded; the masks bring them back to 64 bits. -/
def getHashRecursive (Γ : Env) : Nat → List String → String → Option Nat
  | 0, _, _ => none
  | fuel + 1, parents, name => do
      let zs ← Γ.lookup name
      if name ∈ parents then return 0
      let sum ← addNested (getHashRecursive Γ fuel (parents ++ [name])) zs.hash.toNat zs.nestedTypes
      return rotate (sum &&& UINT64_MAX)

end EmitPython

namespace Declarations

def names (decls : Declarations) : List String := decls.structs.map (·.structname)

theorem lookup_isSome (decls : Declarations) {name : String} (declared : name ∈ decls.names) :
    ∃ zs ∈ decls.structs, decls.structs.lookup name = some zs := by
  obtain ⟨zs, member, named⟩ := List.mem_map.mp declared
  cases found : decls.structs.lookup name with
  | none =>
      have absent := List.find?_eq_none.mp found zs member
      exact absurd (decide_eq_true named) absent
  | some zs => exact ⟨zs, List.mem_of_find?_eq_some found, rfl⟩

def successors (decls : Declarations) (name : String) : List String :=
  match decls.structs.lookup name with
  | some zs => zs.nestedTypes
  | none => []

def graph (decls : Declarations) : Graph String where
  nodes := decls.names
  successors := decls.successors
  closed := by
    intro name declared nested edge
    obtain ⟨zs, member, found⟩ := decls.lookup_isSome declared
    rw [successors, found] at edge
    exact decls.closed zs member nested edge

def combine (decls : Declarations) (name : String) (nested : List (BitVec 64)) : BitVec 64 :=
  match decls.structs.lookup name with
  | some zs => rotateLeft (nested.foldl (· + ·) zs.hash)
  | none => 0

/-- What the emitted functions have in common: a parent that comes again counts as zero. -/
def fingerprint (decls : Declarations) (parents : List String) (name : String) : BitVec 64 :=
  decls.graph.fold decls.combine 0 parents name

variable (decls : Declarations)

theorem fingerprint_met {parents : List String} {name : String} (met : name ∈ parents) :
    decls.fingerprint parents name = 0 :=
  decls.graph.fold_met _ _ met

theorem fingerprint_new {parents : List String} {name : String} {zs : Struct} (declared : name ∈ decls.names)
    (found : decls.structs.lookup name = some zs) (new : name ∉ parents) :
    decls.fingerprint parents name =
      rotateLeft ((zs.nestedTypes.map (decls.fingerprint (name :: parents))).foldl (· + ·) zs.hash) := by
  have edges : decls.graph.successors name = zs.nestedTypes := by
    change decls.successors name = _
    rw [successors, found]
  rw [fingerprint, decls.graph.fold_new _ _ declared new, edges, combine, found]
  rfl

theorem nested_declared {name nested : String} {zs : Struct} (declared : name ∈ decls.names)
    (found : decls.structs.lookup name = some zs) (member : nested ∈ zs.nestedTypes) : nested ∈ decls.names := by
  apply decls.graph.closed name declared
  change nested ∈ decls.successors name
  rw [successors, found]
  exact member

theorem fresh_lt {fuel : Nat} (bound : decls.structs.length < fuel) : decls.graph.fresh [] < fuel := by
  have most := decls.graph.fresh_le []
  have count : decls.graph.nodes.length = decls.structs.length := List.length_map _
  omega

end Declarations

section
variable (decls : Declarations)

theorem EmitC.addMembers_eq {hashRecursive : String → Option (BitVec 64)} {value : String → BitVec 64}
    (hash : BitVec 64) (members : List Member)
    (agree : ∀ name ∈ members.filterMap Member.nestedType, hashRecursive name = some (value name)) :
    addMembers hashRecursive hash members =
      some (((members.filterMap Member.nestedType).map value).foldl (· + ·) hash) := by
  induction members generalizing hash with
  | nil => rfl
  | cons zm zms ih =>
      cases nested : zm.nestedType with
      | none =>
          have zero : memberHash hashRecursive zm.type = some 0 := by
            unfold Member.nestedType at nested
            unfold memberHash
            split at nested <;> simp_all
          rw [List.filterMap_cons_none nested] at agree ⊢
          simpa [addMembers, zero] using ih hash agree
      | some name =>
          have type : zm.type = .user name := by
            unfold Member.nestedType at nested
            split at nested <;> simp_all
          rw [List.filterMap_cons_some nested] at agree ⊢
          have call := agree name List.mem_cons_self
          have rest := ih (hash + value name) fun other member => agree other (List.mem_cons_of_mem _ member)
          simpa [addMembers, memberHash, type, call] using rest

theorem EmitC.hashRecursive_eq {fuel : Nat} {p : List String} {name : String} (declared : name ∈ decls.names)
    (enough : decls.graph.fresh p < fuel) :
    hashRecursive decls.structs fuel p name = some (decls.fingerprint p name) := by
  induction fuel generalizing p name with
  | zero => exact absurd enough (Nat.not_lt_zero _)
  | succ fuel ih =>
      obtain ⟨zs, _, found⟩ := decls.lookup_isSome declared
      by_cases met : name ∈ p
      · simp [hashRecursive, found, met, decls.fingerprint_met met]
      · have fewer := decls.graph.fresh_cons_lt declared met
        have agree : ∀ nested ∈ zs.nestedTypes, hashRecursive decls.structs fuel (name :: p) nested =
            some (decls.fingerprint (name :: p) nested) := by
          intro nested member
          exact ih (decls.nested_declared declared found member) (by omega)
        have sum := addMembers_eq zs.hash zs.members agree
        rw [decls.fingerprint_new declared found met]
        simp [hashRecursive, found, met, sum, Struct.nestedTypes]

theorem EmitCpp.addNested_eq {computeHash : String → Option (BitVec 64)} {value : String → BitVec 64}
    (hash : BitVec 64) (names : List String) (agree : ∀ name ∈ names, computeHash name = some (value name)) :
    addNested computeHash hash names = some ((names.map value).foldl (· + ·) hash) := by
  induction names generalizing hash with
  | nil => rfl
  | cons name names ih =>
      have call := agree name List.mem_cons_self
      have rest := ih (hash + value name) fun other member => agree other (List.mem_cons_of_mem _ member)
      simpa [addNested, call] using rest

theorem EmitCpp.computeHash_eq {fuel : Nat} {p : List String} {name : String} (declared : name ∈ decls.names)
    (nesting : ∀ parent ∈ p, decls.successors parent ≠ []) (enough : decls.graph.fresh p < fuel) :
    computeHash decls.structs fuel p name = some (decls.fingerprint p name) := by
  induction fuel generalizing p name with
  | zero => exact absurd enough (Nat.not_lt_zero _)
  | succ fuel ih =>
      obtain ⟨zs, _, found⟩ := decls.lookup_isSome declared
      have edges : decls.successors name = zs.nestedTypes := by rw [Declarations.successors, found]
      by_cases plain : zs.nestedTypes = []
      · -- The parents need no look: a struct that nests nothing is never one of them.
        have new : name ∉ p := fun met => nesting name met (edges.trans plain)
        simp [computeHash, found, plain, decls.fingerprint_new declared found new]
      · by_cases met : name ∈ p
        · simp [computeHash, found, plain, met, decls.fingerprint_met met]
        · have fewer := decls.graph.fresh_cons_lt declared met
          have deeper : ∀ parent ∈ name :: p, decls.successors parent ≠ [] := by
            intro parent member
            cases List.mem_cons.mp member with
            | inl same => rw [same, edges]; exact plain
            | inr earlier => exact nesting parent earlier
          have agree : ∀ nested ∈ zs.nestedTypes, computeHash decls.structs fuel (name :: p) nested =
              some (decls.fingerprint (name :: p) nested) := by
            intro nested member
            exact ih (decls.nested_declared declared found member) deeper (by omega)
          have sum := addNested_eq zs.hash zs.nestedTypes agree
          rw [decls.fingerprint_new declared found met]
          simp [computeHash, found, plain, met, sum]

theorem EmitJava.addNested_eq {hashRecursive : String → List String → Option (BitVec 64 × List String)}
    {value : String → BitVec 64} (hash : BitVec 64) (names classes : List String)
    (agree : ∀ name ∈ names, hashRecursive name classes = some (value name, classes)) :
    addNested hashRecursive hash names classes = some ((names.map value).foldl (· + ·) hash, classes) := by
  induction names generalizing hash with
  | nil => rfl
  | cons name names ih =>
      have call := agree name List.mem_cons_self
      have rest := ih (hash + value name) fun other member => agree other (List.mem_cons_of_mem _ member)
      simpa [addNested, call] using rest

theorem EmitJava.hashRecursive_eq {fuel : Nat} {classes p : List String} {name : String}
    (declared : name ∈ decls.names) (same : ∀ parent, parent ∈ classes ↔ parent ∈ p)
    (enough : decls.graph.fresh p < fuel) :
    hashRecursive decls.structs fuel name classes = some (decls.fingerprint p name, classes) := by
  induction fuel generalizing classes p name with
  | zero => exact absurd enough (Nat.not_lt_zero _)
  | succ fuel ih =>
      obtain ⟨zs, _, found⟩ := decls.lookup_isSome declared
      by_cases met : name ∈ p
      · simp [hashRecursive, found, (same name).mpr met, decls.fingerprint_met met]
      · have fewer := decls.graph.fresh_cons_lt declared met
        have added : ∀ parent, parent ∈ classes ++ [name] ↔ parent ∈ name :: p := by
          intro parent
          simp [same parent, or_comm]
        have agree : ∀ nested ∈ zs.nestedTypes, hashRecursive decls.structs fuel nested (classes ++ [name]) =
            some (decls.fingerprint (name :: p) nested, classes ++ [name]) := by
          intro nested member
          exact ih (decls.nested_declared declared found member) added (by omega)
        have sum := addNested_eq zs.hash zs.nestedTypes (classes ++ [name]) agree
        have new : name ∉ classes := fun member => met ((same name).mp member)
        rw [decls.fingerprint_new declared found met]
        simp [hashRecursive, found, new, sum]

theorem EmitPython.addNested_eq {getHashRecursive : String → Option Nat} {value : String → BitVec 64}
    (tmphash : Nat)
    (names : List String) (agree : ∀ name ∈ names, getHashRecursive name = some (value name).toNat) :
    ∃ sum, addNested getHashRecursive tmphash names = some sum ∧
      BitVec.ofNat 64 sum = (names.map value).foldl (· + ·) (BitVec.ofNat 64 tmphash) := by
  induction names generalizing tmphash with
  | nil => exact ⟨tmphash, rfl, rfl⟩
  | cons name names ih =>
      have call := agree name List.mem_cons_self
      obtain ⟨sum, added, equal⟩ := ih (tmphash + (value name).toNat)
        fun other member => agree other (List.mem_cons_of_mem _ member)
      refine ⟨sum, by simpa [addNested, call] using added, ?_⟩
      rw [equal, BitVec.ofNat_add, BitVec.ofNat_toNat, BitVec.setWidth_eq]
      rfl

theorem EmitPython.rotate_eq (sum : Nat) : rotate (sum &&& UINT64_MAX) = (rotateLeft (BitVec.ofNat 64 sum)).toNat := by
  have mask (n : Nat) : n &&& UINT64_MAX = n % 2 ^ 64 := Nat.and_two_pow_sub_one_eq_mod n 64
  simp only [rotate, mask, rotateLeft, BitVec.toNat_add, BitVec.toNat_shiftLeft, BitVec.toNat_and,
    BitVec.toNat_ushiftRight, BitVec.toNat_ofNat]
  rfl

theorem EmitPython.getHashRecursive_eq {fuel : Nat} {parents p : List String} {name : String}
    (declared : name ∈ decls.names) (same : ∀ parent, parent ∈ parents ↔ parent ∈ p)
    (enough : decls.graph.fresh p < fuel) :
    getHashRecursive decls.structs fuel parents name = some (decls.fingerprint p name).toNat := by
  induction fuel generalizing parents p name with
  | zero => exact absurd enough (Nat.not_lt_zero _)
  | succ fuel ih =>
      obtain ⟨zs, _, found⟩ := decls.lookup_isSome declared
      by_cases met : name ∈ p
      · simp [getHashRecursive, found, (same name).mpr met, decls.fingerprint_met met]
      · have fewer := decls.graph.fresh_cons_lt declared met
        have added : ∀ parent, parent ∈ parents ++ [name] ↔ parent ∈ name :: p := by
          intro parent
          simp [same parent, or_comm]
        have agree : ∀ nested ∈ zs.nestedTypes, getHashRecursive decls.structs fuel (parents ++ [name]) nested =
            some (decls.fingerprint (name :: p) nested).toNat := by
          intro nested member
          exact ih (decls.nested_declared declared found member) added (by omega)
        have new : name ∉ parents := fun member => met ((same name).mp member)
        obtain ⟨sum, total, equal⟩ := addNested_eq zs.hash.toNat zs.nestedTypes agree
        rw [BitVec.ofNat_toNat, BitVec.setWidth_eq] at equal
        rw [decls.fingerprint_new declared found met, ← equal, ← rotate_eq]
        simp [getHashRecursive, found, new, total]

/-- The recursion never nests more deeply than there are types. -/
theorem fingerprint_shared (name : String) (declared : name ∈ decls.names) :
    ∃ fingerprint : BitVec 64, ∀ fuel, decls.structs.length < fuel →
      EmitC.hashRecursive decls.structs fuel [] name = some fingerprint ∧
      EmitCpp.computeHash decls.structs fuel [] name = some fingerprint ∧
      EmitJava.hashRecursive decls.structs fuel name [] = some (fingerprint, []) ∧
      EmitPython.getHashRecursive decls.structs fuel [] name = some fingerprint.toNat := by
  refine ⟨decls.fingerprint [] name, ?_⟩
  intro fuel bound
  have enough := decls.fresh_lt bound
  refine ⟨?_, ?_, ?_, ?_⟩
  · exact EmitC.hashRecursive_eq decls declared enough
  · exact EmitCpp.computeHash_eq decls declared (by simp) enough
  · exact EmitJava.hashRecursive_eq decls declared (fun _ => Iff.rfl) enough
  · exact EmitPython.getHashRecursive_eq decls declared (fun _ => Iff.rfl) enough

end

namespace Mutual

def members (name : String) : List ZCMMember :=
  [⟨.prim .int32_t, "n", []⟩, ⟨.user name, "x", [⟨.ZCM_VAR, "n"⟩]⟩]

def declarations : Declarations where
  structs := [⟨"a", "a", members "b"⟩, ⟨"b", "b", members "a"⟩].map
    (ZCMStruct.emitted defaultOptions fun _ => 0)
  closed := by decide

end Mutual

theorem fingerprint_shared_mutual : ∃ fingerprint : BitVec 64, ∀ fuel, 2 < fuel →
    EmitC.hashRecursive Mutual.declarations.structs fuel [] "a" = some fingerprint ∧
    EmitCpp.computeHash Mutual.declarations.structs fuel [] "a" = some fingerprint ∧
    EmitJava.hashRecursive Mutual.declarations.structs fuel "a" [] = some (fingerprint, []) ∧
    EmitPython.getHashRecursive Mutual.declarations.structs fuel [] "a" = some fingerprint.toNat :=
  fingerprint_shared Mutual.declarations "a" (by decide)

end Zcm.Gen
