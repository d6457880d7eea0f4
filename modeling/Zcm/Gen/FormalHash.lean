import Mathlib.Algebra.BigOperators.Group.Multiset.Basic
import Mathlib.Data.BitVec
import Zcm.Gen.Fingerprint

namespace Zcm.Gen
open Zcm.Lib

inductive Update
  | char (c : BitVec 8)
  | text (s : String)
deriving DecidableEq

def formal : Hashing (List Update) where
  seed := []
  updateChar := fun v c => v ++ [.char c]
  updateString := fun v s => v ++ [.text s]

def Hashing.apply {α : Type} (h : Hashing α) (v : α) : Update → α
  | .char c => h.updateChar v c
  | .text s => h.updateString v s

namespace Updates

def type : Typename → List Update
  | .prim p => [.text p.fullname]
  | .bits p numbits _ => if numbits ≠ 0 then [.text p.fullname, .char (.ofNat 8 numbits)] else [.text p.fullname]
  | .string => [.text "string"]
  | .user _ => []

def dimension (dim : ZCMDimension) : List Update := [.char (.ofNat 8 (Hashing.mode dim.mode)), .text dim.size]

def name (hashed : Bool) (s : String) : List Update := if hashed then [.text s] else []

def member (options : HashOptions) (m : ZCMMember) : List Update :=
  name options.enableMembernameHashing m.membername ++ type m.type ++
    .char (.ofNat 8 m.dimensions.length) :: m.dimensions.flatMap dimension

end Updates

section
variable {α : Type} (h : Hashing α)

theorem Hashing.type_apply (v : α) (t : Typename) : h.type v t = (Updates.type t).foldl h.apply v := by
  cases t with
  | bits p numbits signExtend =>
      by_cases zero : numbits = 0
      · simp [Hashing.type, Updates.type, zero, Hashing.apply]
      · simp [Hashing.type, Updates.type, zero, Hashing.apply, Hashing.updateNat]
  | _ => rfl

theorem Hashing.dimensions_apply (v : α) (dims : List ZCMDimension) :
    dims.foldl h.dimension v = (dims.flatMap Updates.dimension).foldl h.apply v := by
  induction dims generalizing v with
  | nil => rfl
  | cons dim dims ih => exact ih _

theorem Hashing.member_apply (options : HashOptions) (v : α) (m : ZCMMember) :
    h.member options v m = (Updates.member options m).foldl h.apply v := by
  cases hashed : options.enableMembernameHashing <;>
    simp [Hashing.member, Updates.member, Updates.name, hashed, h.type_apply, h.dimensions_apply, Hashing.apply,
      Hashing.updateNat]

def ZCMStruct.updates (options : HashOptions) (zs : ZCMStruct) : List Update :=
  Updates.name options.enableTypenameHashing zs.shortname ++ zs.members.flatMap (Updates.member options)

theorem ZCMStruct.computeHash_apply (options : HashOptions) (zs : ZCMStruct) :
    zs.computeHash options h = (zs.updates options).foldl h.apply h.seed := by
  have members (v : α) (ms : List ZCMMember) :
      ms.foldl (h.member options) v = (ms.flatMap (Updates.member options)).foldl h.apply v := by
    induction ms generalizing v with
    | nil => rfl
    | cons m ms ih => simpa [h.member_apply] using ih _
  cases hashed : options.enableTypenameHashing <;>
    simp [ZCMStruct.computeHash, ZCMStruct.updates, Updates.name, hashed, members, Hashing.apply]

theorem ZCMStruct.computeHash_formal (options : HashOptions) (zs : ZCMStruct) :
    zs.computeHash options formal = zs.updates options := by
  have collect (past updates : List Update) : updates.foldl formal.apply past = past ++ updates := by
    induction updates generalizing past with
    | nil => simp
    | cons update updates ih =>
        have once : formal.apply past update = past ++ [update] := by cases update <;> rfl
        rw [List.foldl_cons, once, ih, List.append_assoc, List.singleton_append]
  rw [zs.computeHash_apply formal, collect]
  rfl

end

structure FingerprintTerm where
  own : List Update
  nested : Multiset String
deriving DecidableEq

def FingerprintTerm.value (term : FingerprintTerm) (hashes : String → BitVec 64) : BitVec 64 :=
  rotateLeft (term.own.foldl zcmHashing.apply zcmHashing.seed + (term.nested.map hashes).sum)

def ZCMStruct.nestedTypes (zs : ZCMStruct) : List String :=
  zs.members.filterMap fun m => (m.emitted fun _ => 0).nestedType

def ZCMStruct.fingerprintTerm (options : HashOptions) (zs : ZCMStruct) : FingerprintTerm :=
  ⟨zs.computeHash options formal, zs.nestedTypes.filter (· ≠ zs.fullname)⟩

namespace Typename

def Alike : Typename → Typename → Prop
  | .prim p, .prim q => p = q
  | .bits p numbits _, .bits q numbits' _ => p = q ∧ numbits = numbits'
  | .string, .string => True
  | .user _, .user _ => True
  | _, _ => False

end Typename

structure ZCMMember.Alike (options : HashOptions) (m m' : ZCMMember) : Prop where
  name : options.enableMembernameHashing = true → m.membername = m'.membername
  type : m.type.Alike m'.type
  dimensions : m.dimensions = m'.dimensions

structure ZCMStruct.Alike (options : HashOptions) (zs zs' : ZCMStruct) : Prop where
  name : options.enableTypenameHashing = true → zs.shortname = zs'.shortname
  members : List.Forall₂ (ZCMMember.Alike options) zs.members zs'.members
  nested : (zs.fingerprintTerm options).nested = (zs'.fingerprintTerm options).nested

namespace Updates

theorem letter_le {c : Char} (letter : c.isAlpha = true) : 65 ≤ c.toNat := by
  have cases : c.isUpper = true ∨ c.isLower = true := Bool.or_eq_true_iff.mp letter
  cases cases with
  | inl upper =>
      have bounds : 'A'.val ≤ c.val ∧ c.val ≤ 'Z'.val := of_decide_eq_true upper
      exact UInt32.le_iff_toNat_le.mp bounds.1
  | inr lower =>
      have first : 'a'.val ≤ c.val := of_decide_eq_true (Bool.and_eq_true_iff.mp lower).1
      exact Nat.le_trans (by decide) (UInt32.le_iff_toNat_le.mp first)

theorem not_constant_of_legal {s : String} (legal : isLegalMemberName s = true) : isConstantSize s = false := by
  unfold isLegalMemberName at legal
  unfold isConstantSize
  cases chars : s.toList with
  | nil => rfl
  | cons c rest =>
      simp only [chars, Bool.or_eq_true, decide_eq_true_eq] at legal ⊢
      cases legal with
      | inl letter =>
          have least := letter_le letter
          have digit : ¬ c.isDigit = true := by
            intro isDigit
            have most : c.toNat ≤ 57 := (Char.isDigit_iff_toNat.mp isDigit).2
            omega
          have dash : c ≠ '-' := by
            rintro rfl
            exact absurd least (by decide)
          simp [digit, dash]
      | inr underscore =>
          subst underscore
          decide

theorem fullname_legal (p : Prim) : isLegalMemberName p.fullname = true := by
  cases p <;> decide

theorem fullname_injective {p q : Prim} (same : p.fullname = q.fullname) : p = q := by
  cases p <;> cases q <;> first | rfl | exact absurd same (by decide)

theorem fullname_ne_string (p : Prim) : p.fullname ≠ "string" := by
  cases p <;> decide

theorem mode_zero {mode : ZCMDimensionMode} (zero : (0 : BitVec 8) = .ofNat 8 (Hashing.mode mode)) :
    mode = .ZCM_CONST := by
  cases mode with
  | ZCM_CONST => rfl
  | ZCM_VAR => exact absurd zero (by decide)

theorem mode_injective {mode mode' : ZCMDimensionMode}
    (same : BitVec.ofNat 8 (Hashing.mode mode) = .ofNat 8 (Hashing.mode mode')) : mode = mode' := by
  cases mode <;> cases mode' <;> first | rfl | exact absurd same (by decide)

section
variable (options : HashOptions)

theorem member_start (m : ZCMMember) (legal : isLegalMemberName m.membername = true) :
    (∃ s rest, isLegalMemberName s = true ∧ member options m = .text s :: rest) ∨
      member options m = .char (.ofNat 8 m.dimensions.length) :: m.dimensions.flatMap dimension := by
  cases hashed : options.enableMembernameHashing with
  | true =>
      simp only [member, name, hashed, if_true, List.cons_append, List.nil_append]
      exact .inl ⟨_, _, legal, rfl⟩
  | false =>
      simp only [member, name, hashed, Bool.false_eq_true, if_false, List.nil_append]
      cases m.type with
      | prim p => exact .inl ⟨_, _, fullname_legal p, rfl⟩
      | bits p numbits signExtend =>
          by_cases zero : numbits = 0
          · simp only [type, zero, ne_eq, not_true, if_false, List.cons_append]
            exact .inl ⟨_, _, fullname_legal p, rfl⟩
          · simp only [type, zero, ne_eq, not_false_iff, if_true, List.cons_append]
            exact .inl ⟨_, _, fullname_legal p, rfl⟩
      | string => exact .inl ⟨"string", _, by decide, rfl⟩
      | user nested => exact .inr rfl

theorem accepted_cons {earlier ms : List ZCMMember} {m : ZCMMember}
    (accepted : acceptedAfter earlier (m :: ms) = true) :
    isLegalMemberName m.membername = true ∧ m.type.accepted = true ∧
      (∀ dim ∈ m.dimensions, dim.accepted earlier = true) ∧ acceptedAfter (earlier ++ [m]) ms = true := by
  simp only [acceptedAfter, ZCMMember.accepted, Bool.and_eq_true, List.all_eq_true] at accepted
  exact ⟨accepted.1.1.1.1, accepted.1.1.2, accepted.1.2, accepted.2⟩

theorem constant_not_first {earlier ms : List ZCMMember} (accepted : acceptedAfter earlier ms = true) {s : String}
    (constant : isConstantSize s = true) (rest : List Update) :
    ms.flatMap (member options) ≠ .text s :: rest := by
  intro same
  cases ms with
  | nil => cases same
  | cons m ms =>
      rw [List.flatMap_cons] at same
      obtain ⟨first, others, legal, start⟩ | start := member_start options m (accepted_cons accepted).1
      · rw [start, List.cons_append, List.cons.injEq, Update.text.injEq] at same
        rw [← same.1, not_constant_of_legal legal] at constant
        cases constant
      · rw [start] at same
        cases same

theorem constant_of_accepted {earlier : List ZCMMember} {dim : ZCMDimension} (accepted : dim.accepted earlier = true)
    (mode : dim.mode = .ZCM_CONST) : isConstantSize dim.size = true := by
  simpa only [ZCMDimension.accepted, mode] using accepted

theorem dimension_not_first {earlier earlier' ms : List ZCMMember} (accepted : acceptedAfter earlier ms = true)
    {dim : ZCMDimension} (dimAccepted : dim.accepted earlier' = true) (rest : List Update) :
    ms.flatMap (member options) ≠ dimension dim ++ rest := by
  intro same
  cases ms with
  | nil => cases same
  | cons m ms =>
      obtain ⟨legal, _, _, later⟩ := accepted_cons accepted
      rw [List.flatMap_cons] at same
      obtain ⟨first, others, _, start⟩ | start := member_start options m legal
      · rw [start] at same
        cases same
      · rw [start] at same
        -- A nested struct, with as many dimensions as the mode of this one says.
        cases dims : m.dimensions with
        | nil =>
            simp only [dims, dimension, List.length_nil, List.flatMap_nil, List.cons_append, List.nil_append,
              List.cons.injEq, Update.char.injEq] at same
            have constant := constant_of_accepted dimAccepted (mode_zero same.1)
            exact constant_not_first options later constant rest same.2
        | cons other others =>
            simp only [dims, dimension, List.flatMap_cons, List.cons_append, List.nil_append, List.cons.injEq,
              reduceCtorEq, false_and, and_false] at same

theorem dimensions_unique {earlier earlier' ms ms' : List ZCMMember} (accepted : acceptedAfter earlier ms = true)
    (accepted' : acceptedAfter earlier' ms' = true) {before before' : List ZCMMember} (dims dims' : List ZCMDimension)
    (dimsAccepted : ∀ dim ∈ dims, dim.accepted before = true)
    (dimsAccepted' : ∀ dim ∈ dims', dim.accepted before' = true)
    (same : dims.flatMap dimension ++ ms.flatMap (member options) =
      dims'.flatMap dimension ++ ms'.flatMap (member options)) :
    dims = dims' ∧ ms.flatMap (member options) = ms'.flatMap (member options) := by
  induction dims generalizing dims' with
  | nil =>
      cases dims' with
      | nil => exact ⟨rfl, same⟩
      | cons dim dims' =>
          rw [List.flatMap_cons, List.append_assoc] at same
          exact absurd same (dimension_not_first options accepted (dimsAccepted' dim List.mem_cons_self) _)
  | cons dim dims ih =>
      cases dims' with
      | nil =>
          rw [List.flatMap_cons, List.append_assoc] at same
          exact absurd same.symm (dimension_not_first options accepted' (dimsAccepted dim List.mem_cons_self) _)
      | cons dim' dims' =>
          simp only [List.flatMap_cons, dimension, List.cons_append, List.nil_append, List.cons.injEq,
            Update.char.injEq, Update.text.injEq] at same
          obtain ⟨mode, size, rest⟩ := same
          have first : dim = dim' := by
            cases dim
            cases dim'
            cases mode_injective mode
            cases size
            rfl
          obtain ⟨others, members⟩ := ih dims' (fun d member => dimsAccepted d (List.mem_cons_of_mem _ member))
            (fun d member => dimsAccepted' d (List.mem_cons_of_mem _ member)) rest
          exact ⟨by rw [first, others], members⟩

theorem numbits_not_count {earlier' ms ms' : List ZCMMember} (accepted' : acceptedAfter earlier' ms' = true)
    {before : List ZCMMember} {dims dims' : List ZCMDimension}
    (dimsAccepted : ∀ dim ∈ dims, dim.accepted before = true)
    {numbits : Nat} (positive : 0 < numbits) (bound : numbits ≤ 64) :
    .char (.ofNat 8 dims.length) :: (dims.flatMap dimension ++ ms.flatMap (member options)) ≠
      .char (.ofNat 8 numbits) :: .char (.ofNat 8 dims'.length) ::
        (dims'.flatMap dimension ++ ms'.flatMap (member options)) := by
  intro same
  cases dims with
  | nil =>
      simp only [List.length_nil, List.cons.injEq, Update.char.injEq] at same
      have zero := congrArg BitVec.toNat same.1
      simp only [BitVec.toNat_ofNat] at zero
      omega
  | cons dim dims =>
      simp only [List.flatMap_cons, dimension, List.cons_append, List.nil_append, List.cons.injEq,
        Update.char.injEq] at same
      obtain ⟨-, mode, rest⟩ := same
      cases dims' with
      | nil =>
          have constant := constant_of_accepted (dimsAccepted dim List.mem_cons_self) (mode_zero mode.symm)
          exact constant_not_first options accepted' constant _ rest.symm
      | cons dim' dims' => cases rest

theorem numbits_bounds {p : Prim} {numbits : Nat} {signExtend : Bool}
    (accepted : (Typename.bits p numbits signExtend).accepted = true) : 0 < numbits ∧ numbits ≤ 64 := by
  simp only [Typename.accepted, Bool.and_eq_true, decide_eq_true_eq] at accepted
  have size := p.size_le
  omega

theorem type_bits {p : Prim} {numbits : Nat} {signExtend : Bool} (positive : 0 < numbits) :
    type (.bits p numbits signExtend) = [.text p.fullname, .char (.ofNat 8 numbits)] := by
  simp only [type, ne_eq, Nat.ne_of_gt positive, not_false_iff, if_true]

theorem type_unique {t t' : Typename} (accepted : t.accepted = true) (accepted' : t'.accepted = true)
    {count count' : BitVec 8} {rest rest' : List Update}
    (apart : ∀ numbits, 0 < numbits → numbits ≤ 64 →
      .char count :: rest ≠ .char (.ofNat 8 numbits) :: .char count' :: rest')
    (apart' : ∀ numbits, 0 < numbits → numbits ≤ 64 →
      .char count' :: rest' ≠ .char (.ofNat 8 numbits) :: .char count :: rest)
    (same : type t ++ .char count :: rest = type t' ++ .char count' :: rest') :
    t.Alike t' ∧ .char count :: rest = .char count' :: rest' := by
  cases t with
  | prim p =>
      cases t' with
      | prim q =>
          simp only [type, List.cons_append, List.nil_append, List.cons.injEq, Update.text.injEq] at same
          exact ⟨fullname_injective same.1, by rw [List.cons.injEq]; exact same.2⟩
      | bits q numbits' signExtend' =>
          obtain ⟨positive, bound⟩ := numbits_bounds accepted'
          rw [type_bits positive] at same
          simp only [type, List.cons_append, List.nil_append, List.cons.injEq] at same
          exact absurd (by rw [List.cons.injEq]; exact same.2) (apart numbits' positive bound)
      | string =>
          simp only [type, List.cons_append, List.nil_append, List.cons.injEq, Update.text.injEq] at same
          exact absurd same.1 (fullname_ne_string p)
      | user nested' => cases same
  | bits p numbits signExtend =>
      obtain ⟨positive, bound⟩ := numbits_bounds accepted
      rw [type_bits positive] at same
      cases t' with
      | prim q =>
          simp only [type, List.cons_append, List.nil_append, List.cons.injEq] at same
          exact absurd (by rw [List.cons.injEq]; exact ⟨same.2.1.symm, same.2.2.symm⟩)
            (apart' numbits positive bound)
      | bits q numbits' signExtend' =>
          obtain ⟨positive', bound'⟩ := numbits_bounds accepted'
          rw [type_bits positive'] at same
          simp only [List.cons_append, List.nil_append, List.cons.injEq, Update.text.injEq,
            Update.char.injEq] at same
          have widths := congrArg BitVec.toNat same.2.1
          simp only [BitVec.toNat_ofNat] at widths
          refine ⟨⟨fullname_injective same.1, by omega⟩, ?_⟩
          rw [List.cons.injEq, Update.char.injEq]
          exact same.2.2
      | string =>
          simp only [type, List.cons_append, List.nil_append, List.cons.injEq, Update.text.injEq] at same
          exact absurd same.1 (fullname_ne_string p)
      | user nested' => cases same
  | string =>
      cases t' with
      | prim q =>
          simp only [type, List.cons_append, List.nil_append, List.cons.injEq, Update.text.injEq] at same
          exact absurd same.1.symm (fullname_ne_string q)
      | bits q numbits' signExtend' =>
          rw [type_bits (numbits_bounds accepted').1] at same
          simp only [type, List.cons_append, List.nil_append, List.cons.injEq, Update.text.injEq] at same
          exact absurd same.1.symm (fullname_ne_string q)
      | string =>
          simp only [type, List.cons_append, List.nil_append, List.cons.injEq] at same
          exact ⟨trivial, by rw [List.cons.injEq]; exact same.2⟩
      | user nested' => cases same
  | user nested =>
      cases t' with
      | user nested' => exact ⟨trivial, same⟩
      | prim q => cases same
      | bits q numbits' signExtend' =>
          rw [type_bits (numbits_bounds accepted').1] at same
          cases same
      | string => cases same

theorem name_unique {hashed : Bool} {s s' : String} {rest rest' : List Update}
    (same : name hashed s ++ rest = name hashed s' ++ rest') : (hashed = true → s = s') ∧ rest = rest' := by
  cases hashed with
  | false => exact ⟨fun hashed => (Bool.noConfusion hashed), same⟩
  | true =>
      simp only [name, if_true, List.cons_append, List.nil_append, List.cons.injEq, Update.text.injEq] at same
      exact ⟨fun _ => same.1, same.2⟩

theorem members_unique {earlier earlier' : List ZCMMember} (ms ms' : List ZCMMember)
    (accepted : acceptedAfter earlier ms = true) (accepted' : acceptedAfter earlier' ms' = true)
    (same : ms.flatMap (member options) = ms'.flatMap (member options)) :
    List.Forall₂ (ZCMMember.Alike options) ms ms' := by
  have nonempty (m : ZCMMember) : member options m ≠ [] := by simp [member]
  induction ms generalizing earlier earlier' ms' with
  | nil =>
      cases ms' with
      | nil => exact .nil
      | cons m' ms' =>
          rw [List.flatMap_nil, List.flatMap_cons] at same
          exact absurd (List.append_eq_nil_iff.mp same.symm).1 (nonempty m')
  | cons m ms ih =>
      cases ms' with
      | nil =>
          rw [List.flatMap_nil, List.flatMap_cons] at same
          exact absurd (List.append_eq_nil_iff.mp same).1 (nonempty m)
      | cons m' ms' =>
          obtain ⟨_, type, dims, later⟩ := accepted_cons accepted
          obtain ⟨_, type', dims', later'⟩ := accepted_cons accepted'
          simp only [List.flatMap_cons, member, List.append_assoc, List.cons_append] at same
          obtain ⟨names, same⟩ := name_unique same
          obtain ⟨types, same⟩ := type_unique type type'
            (fun numbits positive bound => numbits_not_count options later' dims positive bound)
            (fun numbits positive bound => numbits_not_count options later dims' positive bound) same
          obtain ⟨dimensions, rest⟩ := dimensions_unique options later later' m.dimensions m'.dimensions dims dims'
            (List.cons.injEq .. ▸ same).2
          exact .cons ⟨names, types, dimensions⟩ (ih ms' later later' rest)

theorem member_alike {m m' : ZCMMember} (alike : m.Alike options m') : member options m = member options m' := by
  have names : name options.enableMembernameHashing m.membername =
      name options.enableMembernameHashing m'.membername := by
    cases hashed : options.enableMembernameHashing with
    | false => rfl
    | true => rw [alike.name hashed]
  have types : type m.type = type m'.type := by
    have equal := alike.type
    cases kind : m.type <;> cases kind' : m'.type <;> rw [kind, kind'] at equal <;>
      first | exact equal.elim | rfl | (cases equal; rfl) | (obtain ⟨rfl, rfl⟩ := equal; rfl)
  rw [member, member, names, types, alike.dimensions]

theorem members_alike {ms ms' : List ZCMMember} (alike : List.Forall₂ (ZCMMember.Alike options) ms ms') :
    ms.flatMap (member options) = ms'.flatMap (member options) := by
  induction alike with
  | nil => rfl
  | cons first _ ih => rw [List.flatMap_cons, List.flatMap_cons, member_alike options first, ih]

end

end Updates

theorem fingerprintTerm_eq_iff (options : HashOptions) {zs zs' : ZCMStruct} (accepted : zs.accepted = true)
    (accepted' : zs'.accepted = true) :
    zs.fingerprintTerm options = zs'.fingerprintTerm options ↔ zs.Alike options zs' := by
  constructor
  · intro same
    have own := congrArg FingerprintTerm.own same
    simp only [ZCMStruct.fingerprintTerm, ZCMStruct.computeHash_formal, ZCMStruct.updates] at own
    obtain ⟨names, members⟩ := Updates.name_unique own
    exact ⟨names, Updates.members_unique options _ _ accepted accepted' members,
      congrArg FingerprintTerm.nested same⟩
  · intro alike
    have names : Updates.name options.enableTypenameHashing zs.shortname =
        Updates.name options.enableTypenameHashing zs'.shortname := by
      cases hashed : options.enableTypenameHashing with
      | false => rfl
      | true => rw [alike.name hashed]
    have members := Updates.members_alike options alike.members
    have own : (zs.fingerprintTerm options).own = (zs'.fingerprintTerm options).own := by
      simp only [ZCMStruct.fingerprintTerm, ZCMStruct.computeHash_formal, ZCMStruct.updates, names, members]
    have nested := alike.nested
    cases first : zs.fingerprintTerm options
    cases second : zs'.fingerprintTerm options
    rw [first, second] at own nested
    cases own
    cases nested
    rfl

end Zcm.Gen
