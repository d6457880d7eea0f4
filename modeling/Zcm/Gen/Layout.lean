import Zcm.Gen.Format
import Zcm.Gen.FormalHash

namespace Zcm.Gen
open Zcm.Lib

inductive Size
  | const (text : String)
  | member (index : Nat)
deriving DecidableEq

structure Slot where
  -- Nothing stands for the struct itself.
  type : Option Typename
  dimensions : List Size
deriving DecidableEq

def ZCMDimension.resolve (earlier : List ZCMMember) (dim : ZCMDimension) : Size :=
  match dim.mode with
  | .ZCM_CONST => .const dim.size
  | .ZCM_VAR => .member (earlier.findIdx (·.membername = dim.size))

def Typename.within (own : String) (t : Typename) : Option Typename := if t = .user own then none else some t

def layoutAfter (own : String) : List ZCMMember → List ZCMMember → List Slot
  | _, [] => []
  | earlier, m :: ms =>
      ⟨m.type.within own, m.dimensions.map (·.resolve earlier)⟩ :: layoutAfter own (earlier ++ [m]) ms

def ZCMStruct.layout (zs : ZCMStruct) : List Slot := layoutAfter zs.fullname [] zs.members

def Env.Without (Γ : Env) (name : String) : Prop := ∀ s ∈ Γ, s.structname ≠ name ∧ name ∉ s.nestedTypes

/-- Over every environment that knows neither of them, and for every way to treat sizes that does not tell
the two apart, they read the same values out of the same bytes. -/
def SameDecoding (zs zs' : ZCMStruct) : Prop :=
  ∀ (Γ : Env) (options : HashOptions) (literal : String → Int) (rules : Rules) (little : Bool) (depth : Nat)
    (bytes : List Byte), Γ.Without zs.fullname → Γ.Without zs'.fullname →
    (∀ e : Extent, rules.extent { e with type := .user zs.fullname } =
      rules.extent { e with type := .user zs'.fullname }) →
    parse (zs.emitted options literal :: Γ) rules little depth zs.fullname bytes =
      parse (zs'.emitted options literal :: Γ) rules little depth zs'.fullname bytes

def Determines (options : HashOptions) (zs zs' : ZCMStruct) : Prop :=
  zs.fingerprintTerm options = zs'.fingerprintTerm options → zs.layout = zs'.layout ∧ SameDecoding zs zs'

section Parse
variable {rules : Rules} {little : Bool}
  {callee callee' : String → List Byte → Except Failure (List Value × List Byte)}

theorem parseDims_congr {t t' : Typename}
    (leaf : ∀ c, parseLeaf rules little callee t c = parseLeaf rules little callee' t' c) (es es' : List Extent)
    (extents : es.map rules.extent = es'.map rules.extent) (c : Cursor) :
    parseDims rules little callee t es c = parseDims rules little callee' t' es' c := by
  induction es generalizing es' c with
  | nil =>
      cases es' with
      | nil => exact leaf c
      | cons e' es' => cases extents
  | cons e es ih =>
      cases es' with
      | nil => cases extents
      | cons e' es' =>
          rw [List.map_cons, List.map_cons, List.cons.injEq] at extents
          have items : parseDims rules little callee t es = parseDims rules little callee' t' es' :=
            funext fun c => ih es' extents.2 c
          simp only [parseDims, extents.1, items]

theorem parseLeaf_congr {t : Typename} (calls : ∀ name, t = .user name → callee name = callee' name) (c : Cursor) :
    parseLeaf rules little callee t c = parseLeaf rules little callee' t c := by
  cases t with
  | user name => simp only [parseLeaf, calls name rfl]
  | _ => rfl

theorem parseFields_congr (ms : List Member)
    (calls : ∀ name ∈ ms.filterMap Member.nestedType, callee name = callee' name) (scope : Scope) (c : Cursor) :
    parseFields rules little callee scope ms c = parseFields rules little callee' scope ms c := by
  induction ms generalizing scope c with
  | nil => rfl
  | cons m ms ih =>
      have later (scope : Scope) (c : Cursor) : parseFields rules little callee scope ms c =
          parseFields rules little callee' scope ms c := by
        apply ih
        intro name nested
        apply calls name
        obtain ⟨m', member, type⟩ := List.mem_filterMap.mp nested
        exact List.mem_filterMap.mpr ⟨m', List.mem_cons_of_mem _ member, type⟩
      have first (es : List Extent) (c : Cursor) : parseDims rules little callee m.type es c =
          parseDims rules little callee' m.type es c := by
        apply parseDims_congr _ es es rfl
        intro c
        apply parseLeaf_congr
        intro name type
        apply calls name
        exact List.mem_filterMap.mpr ⟨m, List.mem_cons_self, by simp [Member.nestedType, type]⟩
      simp only [parseFields, first, later]

end Parse

theorem parse_cons {Γ : Env} {rules : Rules} {little : Bool} {s : Struct} (without : Γ.Without s.structname)
    (depth : Nat) {name : String} (different : name ≠ s.structname) :
    parse (s :: Γ) rules little depth name = parse Γ rules little depth name := by
  induction depth generalizing name with
  | zero => rfl
  | succ depth ih =>
      have skipped : Env.lookup (s :: Γ) name = Γ.lookup name :=
        List.find?_cons_of_neg (by simpa using different.symm)
      funext bytes
      cases found : Γ.lookup name with
      | none => simp only [parse, skipped, found]
      | some t =>
          simp only [parse, skipped, found]
          apply parseFields_congr
          intro nested member
          have unknown := (without t (List.mem_of_find?_eq_some found)).2
          exact ih fun same => unknown (same ▸ member)

structure ScopesAgree (earlier earlier' : List ZCMMember) (scope scope' : Scope) : Prop where
  length : earlier.length = earlier'.length
  each : ∀ (i : Nat) (m m' : ZCMMember), earlier[i]? = some m → earlier'[i]? = some m' →
    List.lookup m.membername scope = List.lookup m'.membername scope'
  fresh : ∀ name, (∀ m ∈ earlier, m.membername ≠ name) → List.lookup name scope = none
  fresh' : ∀ name, (∀ m ∈ earlier', m.membername ≠ name) → List.lookup name scope' = none

namespace ScopesAgree

theorem findIdx_named {earlier : List ZCMMember} {dim : ZCMDimension} (mode : dim.mode = .ZCM_VAR)
    (accepted : dim.accepted earlier = true) :
    ∃ m, earlier[earlier.findIdx (·.membername = dim.size)]? = some m ∧ m.membername = dim.size := by
  simp only [ZCMDimension.accepted, mode, Bool.and_eq_true, List.any_eq_true, decide_eq_true_eq] at accepted
  obtain ⟨m, member, ⟨named, _⟩, _⟩ := accepted.2
  have bound : earlier.findIdx (·.membername = dim.size) < earlier.length :=
    List.findIdx_lt_length_of_exists ⟨m, member, by simpa using named⟩
  refine ⟨earlier[earlier.findIdx (·.membername = dim.size)], List.getElem?_eq_getElem bound, ?_⟩
  have holds := List.findIdx_getElem (p := fun m : ZCMMember => decide (m.membername = dim.size)) (w := bound)
  simpa using holds

variable {earlier earlier' : List ZCMMember} {scope scope' : Scope}

theorem dimSize_eq (agree : ScopesAgree earlier earlier' scope scope') (literal : String → Int)
    {dim dim' : ZCMDimension}
    (accepted : dim.accepted earlier = true) (accepted' : dim'.accepted earlier' = true)
    (same : dim.resolve earlier = dim'.resolve earlier') :
    (dim.emitted literal).isVar = (dim'.emitted literal).isVar ∧
      scope.dimSize (dim.emitted literal) = scope'.dimSize (dim'.emitted literal) := by
  cases mode : dim.mode with
  | ZCM_CONST =>
      cases mode' : dim'.mode with
      | ZCM_CONST =>
          simp only [ZCMDimension.resolve, mode, mode', Size.const.injEq] at same
          simp [ZCMDimension.emitted, mode, mode', same, Dimension.isVar, Scope.dimSize]
      | ZCM_VAR => simp [ZCMDimension.resolve, mode, mode'] at same
  | ZCM_VAR =>
      cases mode' : dim'.mode with
      | ZCM_CONST => simp [ZCMDimension.resolve, mode, mode'] at same
      | ZCM_VAR =>
          simp only [ZCMDimension.resolve, mode, mode', Size.member.injEq] at same
          obtain ⟨m, place, named⟩ := findIdx_named mode accepted
          obtain ⟨m', place', named'⟩ := findIdx_named mode' accepted'
          rw [← same] at place'
          have values := agree.each _ m m' place place'
          rw [named, named'] at values
          simp [ZCMDimension.emitted, mode, mode', Dimension.isVar, Scope.dimSize, values]

theorem extents_eq (agree : ScopesAgree earlier earlier' scope scope') (literal : String → Int) (rules : Rules)
    {m m' : Member} (dims dims' : List ZCMDimension) (accepted : ∀ dim ∈ dims, dim.accepted earlier = true)
    (accepted' : ∀ dim ∈ dims', dim.accepted earlier' = true)
    (same : dims.map (·.resolve earlier) = dims'.map (·.resolve earlier'))
    (constant : m.isConstantSizeArray = m'.isConstantSizeArray)
    (types : ∀ e : Extent, rules.extent { e with type := m.type } = rules.extent { e with type := m'.type }) :
    (m.extentsFrom scope (dims.map (·.emitted literal))).map rules.extent =
      (m'.extentsFrom scope' (dims'.map (·.emitted literal))).map rules.extent := by
  induction dims generalizing dims' with
  | nil =>
      cases dims' with
      | nil => rfl
      | cons dim' dims' => cases same
  | cons dim dims ih =>
      cases dims' with
      | nil => cases same
      | cons dim' dims' =>
          rw [List.map_cons, List.map_cons, List.cons.injEq] at same
          obtain ⟨isVar, size⟩ := agree.dimSize_eq literal (accepted dim List.mem_cons_self)
            (accepted' dim' List.mem_cons_self) same.1
          have rest := ih dims' (fun d member => accepted d (List.mem_cons_of_mem _ member))
            (fun d member => accepted' d (List.mem_cons_of_mem _ member)) same.2
          have innermost : (dims.map (·.emitted literal)).isEmpty = (dims'.map (·.emitted literal)).isEmpty := by
            have lengths := congrArg List.length same.2
            simp only [List.length_map] at lengths
            cases dims <;> cases dims' <;> first | rfl | cases lengths
          have first := types ⟨m.type, (dims.map (·.emitted literal)).isEmpty, !m.isConstantSizeArray,
            (dim.emitted literal).isVar, scope.dimSize (dim.emitted literal)⟩
          simp only [List.map_cons, Member.extentsFrom, rest, List.cons.injEq, and_true]
          rw [← innermost, ← isVar, ← size, ← constant]
          exact first

theorem push_cases (literal : String → Int) {m m' : ZCMMember} (dims : m.dimensions.length = m'.dimensions.length)
    (types : m.type = m'.type ∨ ∃ name name', m.type = .user name ∧ m'.type = .user name') (v : Value) :
    scope.push (m.emitted literal) v = scope ∧ scope'.push (m'.emitted literal) v = scope' ∨
      ∃ x, scope.push (m.emitted literal) v = (m.membername, x) :: scope ∧
        scope'.push (m'.emitted literal) v = (m'.membername, x) :: scope' := by
  cases first : m.dimensions with
  | cons dim rest =>
      cases second : m'.dimensions with
      | cons dim' rest' => left; simp [Scope.push, ZCMMember.emitted, first, second]
      | nil => simp [first, second] at dims
  | nil =>
      cases second : m'.dimensions with
      | cons dim' rest' => simp [first, second] at dims
      | nil =>
          obtain same | ⟨name, name', own, own'⟩ := types
          · simp only [Scope.push, ZCMMember.emitted, first, second, List.map_nil, same]
            cases m'.type <;> cases v <;> simp
          · left
            simp [Scope.push, ZCMMember.emitted, first, second, own, own']

theorem push (agree : ScopesAgree earlier earlier' scope scope') (literal : String → Int) {m m' : ZCMMember}
    (new : ∀ e ∈ earlier, e.membername ≠ m.membername) (new' : ∀ e ∈ earlier', e.membername ≠ m'.membername)
    (dims : m.dimensions.length = m'.dimensions.length)
    (types : m.type = m'.type ∨ ∃ name name', m.type = .user name ∧ m'.type = .user name') (v : Value) :
    ScopesAgree (earlier ++ [m]) (earlier' ++ [m']) (scope.push (m.emitted literal) v)
      (scope'.push (m'.emitted literal) v) := by
  have absent {before : List ZCMMember} {m : ZCMMember} {name : String}
      (other : ∀ e ∈ before ++ [m], e.membername ≠ name) :
      (∀ e ∈ before, e.membername ≠ name) ∧ m.membername ≠ name :=
    ⟨fun e member => other e (by simp [member]), other m (by simp)⟩
  have place {i : Nat} {e e' : ZCMMember} (first : (earlier ++ [m])[i]? = some e)
      (second : (earlier' ++ [m'])[i]? = some e') :
      (earlier[i]? = some e ∧ earlier'[i]? = some e') ∨ (e = m ∧ e' = m') := by
    have lengths := agree.length
    by_cases inside : i < earlier.length
    · rw [List.getElem?_append_left inside] at first
      rw [List.getElem?_append_left (by omega)] at second
      exact .inl ⟨first, second⟩
    · rw [List.getElem?_append_right (by omega)] at first second
      exact .inr ⟨List.mem_singleton.mp (List.mem_of_getElem? first), List.mem_singleton.mp
        (List.mem_of_getElem? second)⟩
  obtain ⟨same, same'⟩ | ⟨x, pushed, pushed'⟩ := push_cases literal dims types v
  · rw [same, same']
    refine ⟨by simp [agree.length], ?_, fun name other => agree.fresh name (absent other).1,
      fun name other => agree.fresh' name (absent other).1⟩
    intro i e e' first second
    obtain ⟨before, before'⟩ | ⟨rfl, rfl⟩ := place first second
    · exact agree.each i e e' before before'
    · rw [agree.fresh _ new, agree.fresh' _ new']
  · rw [pushed, pushed']
    have later {name : String} {scope : Scope} (m : ZCMMember) (different : m.membername ≠ name) :
        List.lookup name ((m.membername, x) :: scope) = List.lookup name scope := by
      have unequal : (name == m.membername) = false := by simpa using different.symm
      rw [List.lookup_cons, unequal]
    refine ⟨by simp [agree.length], ?_, fun name other => ?_, fun name other => ?_⟩
    · intro i e e' first second
      obtain ⟨before, before'⟩ | ⟨rfl, rfl⟩ := place first second
      · rw [later m (new e (List.mem_of_getElem? before)).symm, later m' (new' e' (List.mem_of_getElem? before')).symm]
        exact agree.each i e e' before before'
      · rw [List.lookup_cons_self, List.lookup_cons_self]
    · rw [later m (absent other).2]
      exact agree.fresh name (absent other).1
    · rw [later m' (absent other).2]
      exact agree.fresh' name (absent other).1

end ScopesAgree

theorem within_eq {own own' : String} {t t' : Typename} (same : t.within own = t'.within own') :
    (t = .user own ∧ t' = .user own') ∨ (t = t' ∧ t ≠ .user own ∧ t ≠ .user own') := by
  unfold Typename.within at same
  by_cases first : t = .user own
  · by_cases second : t' = .user own'
    · exact .inl ⟨first, second⟩
    · simp [first, second] at same
  · by_cases second : t' = .user own'
    · simp [first, second] at same
    · simp only [first, second, if_false, Option.some.injEq] at same
      exact .inr ⟨same, first, same ▸ second⟩

def Size.isConst : Size → Bool
  | .const _ => true
  | .member _ => false

theorem isConstantSizeArray_resolve (literal : String → Int) (earlier : List ZCMMember) (m : ZCMMember) :
    (m.emitted literal).isConstantSizeArray = (m.dimensions.map (·.resolve earlier)).all Size.isConst := by
  have each (dim : ZCMDimension) : (!(dim.emitted literal).isVar) = (dim.resolve earlier).isConst := by
    cases mode : dim.mode <;> simp [ZCMDimension.emitted, ZCMDimension.resolve, mode, Dimension.isVar, Size.isConst]
  simp only [Member.isConstantSizeArray, ZCMMember.emitted, List.all_map, Function.comp_def, each]

theorem accepted_new {earlier ms : List ZCMMember} {m : ZCMMember} (accepted : acceptedAfter earlier (m :: ms) = true) :
    ∀ e ∈ earlier, e.membername ≠ m.membername := by
  simp only [acceptedAfter, ZCMMember.accepted, Bool.and_eq_true, List.all_eq_true, decide_eq_true_eq] at accepted
  exact accepted.1.1.1.2

theorem parseFields_layout {zs zs' : ZCMStruct} (literal : String → Int) {rules : Rules} {little : Bool}
    {callee callee' : String → List Byte → Except Failure (List Value × List Byte)}
    (own : callee zs.fullname = callee' zs'.fullname)
    (others : ∀ name, name ≠ zs.fullname → name ≠ zs'.fullname → callee name = callee' name)
    (blind : ∀ e : Extent, rules.extent { e with type := .user zs.fullname } =
      rules.extent { e with type := .user zs'.fullname })
    {earlier earlier' : List ZCMMember} (ms ms' : List ZCMMember) (accepted : acceptedAfter earlier ms = true)
    (accepted' : acceptedAfter earlier' ms' = true)
    (same : layoutAfter zs.fullname earlier ms = layoutAfter zs'.fullname earlier' ms')
    (scope scope' : Scope) (agree : ScopesAgree earlier earlier' scope scope') (c : Cursor) :
    parseFields rules little callee scope (ms.map (·.emitted literal)) c =
      parseFields rules little callee' scope' (ms'.map (·.emitted literal)) c := by
  induction ms generalizing earlier earlier' ms' scope scope' c with
  | nil =>
      cases ms' with
      | nil => rfl
      | cons m' ms' => cases same
  | cons m ms ih =>
      cases ms' with
      | nil => cases same
      | cons m' ms' =>
          rw [layoutAfter, layoutAfter, List.cons.injEq, Slot.mk.injEq] at same
          obtain ⟨⟨types, dims⟩, later⟩ := same
          obtain ⟨_, _, dimsAccepted, acceptedLater⟩ := Updates.accepted_cons accepted
          obtain ⟨_, _, dimsAccepted', acceptedLater'⟩ := Updates.accepted_cons accepted'
          have constant : (m.emitted literal).isConstantSizeArray = (m'.emitted literal).isConstantSizeArray := by
            rw [isConstantSizeArray_resolve literal earlier, isConstantSizeArray_resolve literal earlier', dims]
          have lengths : m.dimensions.length = m'.dimensions.length := by
            simpa using congrArg List.length dims
          have kinds := within_eq types
          have leaf (c : Cursor) : parseLeaf rules little callee m.type c =
              parseLeaf rules little callee' m'.type c := by
            obtain ⟨itself, itself'⟩ | ⟨equal, notOwn, notOwn'⟩ := kinds
            · simp only [itself, itself', parseLeaf, own]
            · rw [← equal]
              apply parseLeaf_congr
              intro name type
              exact others name (fun same => notOwn (same ▸ type)) (fun same => notOwn' (same ▸ type))
          have extents : ((m.emitted literal).extents scope).map rules.extent =
              ((m'.emitted literal).extents scope').map rules.extent := by
            apply agree.extents_eq literal rules m.dimensions m'.dimensions dimsAccepted dimsAccepted' dims constant
            intro e
            obtain ⟨itself, itself'⟩ | ⟨equal, -, -⟩ := kinds
            · simpa only [ZCMMember.emitted, itself, itself'] using blind e
            · simp only [ZCMMember.emitted, equal]
          have bits : m.type.isBits = m'.type.isBits := by
            obtain ⟨itself, itself'⟩ | ⟨equal, -, -⟩ := kinds
            · rw [itself, itself']
              rfl
            · rw [equal]
          have pushed : m.type = m'.type ∨ ∃ name name', m.type = .user name ∧ m'.type = .user name' := by
            obtain ⟨itself, itself'⟩ | ⟨equal, -, -⟩ := kinds
            · exact .inr ⟨_, _, itself, itself'⟩
            · exact .inl equal
          have first (c : Cursor) := parseDims_congr leaf _ _ extents c
          have rest (v : Value) (c : Cursor) := ih ms' acceptedLater acceptedLater' later _ _
            (agree.push literal (accepted_new accepted) (accepted_new accepted') lengths pushed v) c
          have type : (m.emitted literal).type = m.type := rfl
          have type' : (m'.emitted literal).type = m'.type := rfl
          simp only [List.map_cons, parseFields, type, type', bits, first, rest]

theorem sameDecoding_of_layout {zs zs' : ZCMStruct} (accepted : zs.accepted = true) (accepted' : zs'.accepted = true)
    (same : zs.layout = zs'.layout) : SameDecoding zs zs' := by
  intro Γ options literal rules little depth bytes without without' blind
  induction depth generalizing bytes with
  | zero => rfl
  | succ depth ih =>
      have found : Env.lookup (zs.emitted options literal :: Γ) zs.fullname = some (zs.emitted options literal) :=
        List.find?_cons_of_pos (by simp [ZCMStruct.emitted])
      have found' : Env.lookup (zs'.emitted options literal :: Γ) zs'.fullname = some (zs'.emitted options literal) :=
        List.find?_cons_of_pos (by simp [ZCMStruct.emitted])
      simp only [parse, found, found']
      apply parseFields_layout literal (funext ih) _ blind zs.members zs'.members accepted accepted' same
      · exact ⟨rfl, by simp, by simp, by simp⟩
      · intro name different different'
        rw [parse_cons without depth different, parse_cons without' depth different']

def Hidden (zs zs' : ZCMStruct) (earlier earlier' : List ZCMMember) (m m' : ZCMMember) : Prop :=
  (∃ p numbits signExtend, m.type = .bits p numbits signExtend ∧ m'.type = .bits p numbits (!signExtend)) ∨
  (∃ name name', m.type = .user name ∧ m'.type = .user name' ∧
    m.type.within zs.fullname ≠ m'.type.within zs'.fullname) ∨
  ∃ dim ∈ m.dimensions, dim.mode = .ZCM_VAR ∧ dim.resolve earlier ≠ dim.resolve earlier'

def Confusable (options : HashOptions) (zs zs' : ZCMStruct) : Prop :=
  zs.Alike options zs' ∧ ∃ earlier m later earlier' m' later', zs.members = earlier ++ m :: later ∧
    zs'.members = earlier' ++ m' :: later' ∧ earlier.length = earlier'.length ∧ Hidden zs zs' earlier earlier' m m'

section
variable {options : HashOptions} {zs zs' : ZCMStruct}

theorem dims_eq_iff {earlier earlier' : List ZCMMember} (dims : List ZCMDimension) :
    dims.map (·.resolve earlier) = dims.map (·.resolve earlier') ↔
      ¬ ∃ dim ∈ dims, dim.mode = .ZCM_VAR ∧ dim.resolve earlier ≠ dim.resolve earlier' := by
  rw [List.map_inj_left]
  constructor
  · rintro same ⟨dim, member, -, different⟩
    exact different (same dim member)
  · intro none dim member
    cases mode : dim.mode with
    | ZCM_CONST => simp only [ZCMDimension.resolve, mode]
    | ZCM_VAR =>
        by_contra different
        exact none ⟨dim, member, mode, different⟩

theorem types_eq_iff {t t' : Typename} (alike : t.Alike t') (own own' : String) :
    t.within own = t'.within own' ↔
      ¬ ((∃ p numbits signExtend, t = .bits p numbits signExtend ∧ t' = .bits p numbits (!signExtend)) ∨
        ∃ name name', t = .user name ∧ t' = .user name' ∧ t.within own ≠ t'.within own') := by
  constructor
  · rintro same (⟨p, numbits, signExtend, rfl, rfl⟩ | ⟨_, _, _, _, different⟩)
    · simp [Typename.within] at same
    · exact different same
  · intro none
    cases t with
    | prim p =>
        cases t' with
        | prim q =>
            cases alike
            simp [Typename.within]
        | _ => exact alike.elim
    | bits p numbits signExtend =>
        cases t' with
        | bits q numbits' signExtend' =>
            obtain ⟨rfl, rfl⟩ := alike
            have signs : signExtend = signExtend' := by
              by_contra different
              refine none (.inl ⟨p, numbits, signExtend, rfl, ?_⟩)
              cases signExtend <;> cases signExtend' <;> first | rfl | exact absurd rfl different
            simp [Typename.within, signs]
        | _ => exact alike.elim
    | string =>
        cases t' with
        | string => simp [Typename.within]
        | _ => exact alike.elim
    | user name =>
        cases t' with
        | user name' =>
            by_contra different
            exact none (.inr ⟨name, name', rfl, rfl, different⟩)
        | _ => exact alike.elim

theorem slot_eq_iff {earlier earlier' : List ZCMMember} {m m' : ZCMMember} (alike : m.Alike options m') :
    (m.type.within zs.fullname = m'.type.within zs'.fullname ∧
      m.dimensions.map (·.resolve earlier) = m'.dimensions.map (·.resolve earlier')) ↔
      ¬ Hidden zs zs' earlier earlier' m m' := by
  rw [← alike.dimensions, dims_eq_iff, types_eq_iff alike.type, Hidden, ← not_or, or_assoc]

theorem layoutAfter_eq_iff {earlier earlier' ms ms' : List ZCMMember}
    (alike : List.Forall₂ (ZCMMember.Alike options) ms ms') :
    layoutAfter zs.fullname earlier ms = layoutAfter zs'.fullname earlier' ms' ↔
      ∀ before m later before' m' later', ms = before ++ m :: later → ms' = before' ++ m' :: later' →
        before.length = before'.length → ¬ Hidden zs zs' (earlier ++ before) (earlier' ++ before') m m' := by
  induction alike generalizing earlier earlier' with
  | nil => simp [layoutAfter]
  | @cons m m' ms ms' first _ ih =>
      rw [layoutAfter, layoutAfter, List.cons.injEq, Slot.mk.injEq, slot_eq_iff first, ih]
      constructor
      · rintro ⟨here, there⟩ before n later before' n' later' split split' lengths
        cases before with
        | nil =>
            obtain rfl := List.length_eq_zero_iff.mp lengths.symm
            cases split
            cases split'
            simpa using here
        | cons e before =>
            cases before' with
            | nil => cases lengths
            | cons e' before' =>
                cases split
                cases split'
                have hidden := there before n later before' n' later' rfl rfl (Nat.succ.inj lengths)
                simpa using hidden
      · intro all
        refine ⟨by simpa using all [] m ms [] m' ms' rfl rfl rfl, ?_⟩
        intro before n later before' n' later' split split' lengths
        have hidden := all (m :: before) n later (m' :: before') n' later' (by simp [split]) (by simp [split'])
          (by simp [lengths])
        simpa using hidden

end

/-- The fingerprint determines the decoding of two declarations unless they differ in what it does not see. -/
theorem determines_iff (options : HashOptions) (zs zs' : ZCMStruct) (accepted : zs.accepted = true)
    (accepted' : zs'.accepted = true) : Determines options zs zs' ↔ ¬ Confusable options zs zs' := by
  constructor
  · rintro determines ⟨alike, earlier, m, later, earlier', m', later', split, split', lengths, hidden⟩
    have same := (determines ((fingerprintTerm_eq_iff options accepted accepted').mpr alike)).1
    exact (layoutAfter_eq_iff alike.members).mp same earlier m later earlier' m' later' split split' lengths hidden
  · intro clear equal
    have alike := (fingerprintTerm_eq_iff options accepted accepted').mp equal
    have same : zs.layout = zs'.layout := by
      apply (layoutAfter_eq_iff alike.members).mpr
      intro earlier m later earlier' m' later' split split' lengths hidden
      exact clear ⟨alike, earlier, m, later, earlier', m', later', split, split', lengths, hidden⟩
    exact ⟨same, sameDecoding_of_layout accepted accepted' same⟩

namespace Signs

def declaration (signExtend : Bool) : ZCMStruct := ⟨"a", "a", [⟨.bits .int8_t 3 signExtend, "x", []⟩]⟩

end Signs

theorem determines_iff_signs : Determines defaultOptions (Signs.declaration false) (Signs.declaration true) ↔
    ¬ Confusable defaultOptions (Signs.declaration false) (Signs.declaration true) :=
  determines_iff defaultOptions (Signs.declaration false) (Signs.declaration true) (by decide) (by decide)

theorem signs_not_determined :
    (Signs.declaration false).accepted = true ∧ (Signs.declaration true).accepted = true ∧
    ¬ Determines defaultOptions (Signs.declaration false) (Signs.declaration true) := by
  refine ⟨by decide, by decide, ?_⟩
  intro determines
  have equal : (Signs.declaration false).fingerprintTerm defaultOptions =
      (Signs.declaration true).fingerprintTerm defaultOptions := rfl
  exact absurd (determines equal).1 (by decide)

end Zcm.Gen
