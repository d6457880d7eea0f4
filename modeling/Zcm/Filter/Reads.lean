import Zcm.Filter.Expressions

namespace Zcm.Filter
open Zcm.Lib Zcm.Eventlog
open Zcm.Introspection (FieldType)

section Options

variable {Double Data : Type} (lib : Library Double Data)

namespace Args

variable {a : Args Double Data} {p : ConditionPtr Double Data}

def withCurrent (a : Args Double Data) (p : ConditionPtr Double Data) : Args Double Data :=
  match a.factory.regions with
  | [] => a
  | back :: rest =>
      let back := if !a.factory.specifyingEnd then { back with beginPtr := p } else { back with endPtr := p }
      { a with factory := ⟨a.factory.specifyingEnd, back :: rest⟩ }

theorem current_eq_some : a.factory.current = some p ↔ ∃ back rest, a.factory.regions = back :: rest ∧
    p = if !a.factory.specifyingEnd then back.beginPtr else back.endPtr := by
  rw [RegionsFactory.current]
  cases a.factory.regions with
  | nil => simp
  | cons back rest => simp [eq_comm (b := p)]

theorem build_current (current : a.factory.current = some p) (message : String)
    (f : ConditionPtr Double Data → Except Failed (ConditionPtr Double Data)) :
    a.build message (fun s => s.updateCurrent f) = (orMessage message (f p)).map a.withCurrent := by
  obtain ⟨back, rest, regions, rfl⟩ := current_eq_some.mp current
  rw [build, RegionsFactory.updateCurrent, RegionsFactory.updateBack, regions]
  dsimp only
  unfold withCurrent
  rw [regions]
  split
  · cases f back.beginPtr with
    | error failed => cases failed <;> rfl
    | ok p => rfl
  · cases f back.endPtr with
    | error failed => cases failed <;> rfl
    | ok p => rfl

theorem current_withCurrent (current : a.factory.current = some p) (q : ConditionPtr Double Data) :
    (a.withCurrent q).factory.current = some q := by
  obtain ⟨back, rest, regions, rfl⟩ := current_eq_some.mp current
  rw [withCurrent, regions]
  cases specifying : a.factory.specifyingEnd <;> rfl

theorem withCurrent_twice (q r : ConditionPtr Double Data) : (a.withCurrent q).withCurrent r = a.withCurrent r := by
  obtain ⟨inlog, outlog, types, debug, verbose, ⟨specifyingEnd, regions⟩⟩ := a
  cases regions with
  | nil => rfl
  | cons back rest => cases specifyingEnd <;> rfl

theorem types_withCurrent (q : ConditionPtr Double Data) : (a.withCurrent q).types = a.types := by
  rw [withCurrent]
  cases a.factory.regions <;> rfl

theorem withCurrent_self (current : a.factory.current = some p) : a.withCurrent p = a := by
  obtain ⟨inlog, outlog, types, debug, verbose, ⟨specifyingEnd, regions⟩⟩ := a
  cases regions with
  | nil => rfl
  | cons back rest => cases specifyingEnd <;> cases current <;> rfl

end Args

theorem Args.build_set {a : Args Double Data} {p : ConditionPtr Double Data} (current : a.factory.current = some p)
    (message : String) (f : SimpleCondition Double Data → Except Failed (SimpleCondition Double Data)) :
    a.build message (fun s => s.updateCurrent fun p => p.set f) =
      (p.set fun c => orMessage message (f c)).map a.withCurrent := by
  rw [build_current current, ConditionPtr.set_orMessage]

theorem ConditionPtr.set_error {ε : Type} (e : ε) (p : ConditionPtr Double Data) :
    p.set (fun _ => .error e) = .error e := by
  induction p with
  | null | simple c => rfl
  | compound _and cond1 cond2 ih1 ih2 =>
      rw [set, ih1, ih2]
      split <;> rfl

variable {a : Args Double Data} {p : ConditionPtr Double Data} (current : a.factory.current = some p)
include current

theorem readOption_source (source : Source) :
    readOption lib a source.option = (p.set fun c => source.setter a.types c).map a.withCurrent := by
  cases source with
  | seconds => exact Args.build_set current _ _
  | field optarg =>
      simp only [Source.option, readOption, Source.setter]
      cases a.types with
      | none =>
          rw [ConditionPtr.set_error]
          rfl
      | some types => exact Args.build_set current _ _

theorem readOption_compared (compared : Compared) :
    readOption lib a compared.option = (p.set fun c => compared.setter lib c).map a.withCurrent := by
  cases compared with
  | boolean optarg =>
      simp only [Compared.option, readOption, Compared.setter]
      cases invert optarg with
      | none =>
          rw [ConditionPtr.set_error]
          rfl
      | some inverted => exact Args.build_set current _ _
  | number optarg lessThan => cases lessThan <;> exact Args.build_set current _ _

theorem readOptions_token (t : Token) :
    readOptions lib a (tokenOptions t) = (readToken lib a.types p t).map a.withCurrent := by
  cases t with
  | op _and =>
      have built (message : String) : a.build message (fun s => s.addCompound _and) =
          (readToken lib a.types p (.op _and)).map a.withCurrent :=
        Args.build_current current message fun p => .ok (p.addCompound _and)
      rw [← built (if _and then "Improperly placed and condition" else "Improperly placed or condition")]
      cases _and <;> exact bind_pure _
  | leaf l =>
      have two : readToken lib a.types p (.leaf l) =
          (p.set fun c => l.source.setter a.types c) >>= fun p => p.set fun c => l.compared.setter lib c :=
        (ConditionPtr.set_bind _ (fun done => l.source.setter_keeps done) p).symm
      rw [two]
      change (readOption lib a l.source.option >>= fun a => readOption lib a l.compared.option >>= pure) = _
      rw [readOption_source lib current]
      cases p.set fun c => l.source.setter a.types c with
      | error e => rfl
      | ok p₁ =>
          change readOption lib (a.withCurrent p₁) l.compared.option >>= pure =
            (p₁.set fun c => l.compared.setter lib c).map a.withCurrent
          rw [bind_pure, readOption_compared lib (Args.current_withCurrent current p₁),
            funext (Args.withCurrent_twice p₁)]

theorem readOptions_tokens (w : List Token) :
    readOptions lib a (options w) = (readTokens lib a.types p w).map a.withCurrent := by
  induction w generalizing a p with
  | nil => exact congrArg Except.ok (Args.withCurrent_self current).symm
  | cons t w ih =>
      have first := readOptions_token lib current t
      rw [options, List.flatMap_cons, readOptions, List.foldlM_append]
      change readOptions lib a (tokenOptions t) >>= (fun a => readOptions lib a (options w)) =
        (readToken lib a.types p t >>= fun p => readTokens lib a.types p w).map a.withCurrent
      rw [first]
      cases readToken lib a.types p t with
      | error e => rfl
      | ok p₁ =>
          have rest := ih (Args.current_withCurrent current p₁)
          rw [Args.types_withCurrent] at rest
          change readOptions lib (a.withCurrent p₁) (options w) = (readTokens lib a.types p₁ w).map a.withCurrent
          rw [rest, funext (Args.withCurrent_twice p₁)]

end Options

section Begun

variable {Double Data : Type} (lib : Library Double Data) {a : Args Double Data}

def Args.Ordered (a : Args Double Data) : Prop := ∀ r ∈ a.factory.regions.tail, r.isFullySpecified = true

theorem updateBack_tail {s s' : RegionsFactory Double Data}
    {f : RegionOptions Double Data → Except Failed (RegionOptions Double Data)} (done : s.updateBack f = .ok s') :
    s'.regions.tail = s.regions.tail := by
  rw [RegionsFactory.updateBack] at done
  split at done
  · cases done
  next back rest regions =>
    obtain ⟨back', -, rfl⟩ := map_ok.mp done
    rw [regions]
    rfl

theorem build_ordered {message : String} {f : RegionsFactory Double Data → Except Failed (RegionsFactory Double Data)}
    (keeps : ∀ {s s'}, f s = .ok s' → (∀ r ∈ s.regions.tail, r.isFullySpecified = true) →
      ∀ r ∈ s'.regions.tail, r.isFullySpecified = true)
    {a' : Args Double Data} (done : a.build message f = .ok a') (ordered : a.Ordered) : a'.Ordered := by
  obtain ⟨factory, built, rfl⟩ := map_ok.mp done
  exact keeps (orMessage_ok.mp built) ordered

theorem addBegin_ok {s s' : RegionsFactory Double Data} (done : s.addBegin = .ok s')
    (ordered : ∀ r ∈ s.regions.tail, r.isFullySpecified = true) :
    s'.current = some .null ∧ ∀ r ∈ s'.regions, r.isFullySpecified = true := by
  rw [RegionsFactory.addBegin] at done
  split at done
  · cases done
    exact ⟨rfl, by simp [RegionOptions.isFullySpecified, RegionOptions.specified]⟩
  next back rest regions =>
    split at done
    · cases done
    next full =>
      cases done
      rw [regions] at ordered
      refine ⟨rfl, fun r mem => ?_⟩
      obtain rfl | mem := List.mem_cons.mp mem
      · rfl
      · obtain rfl | mem := List.mem_cons.mp mem
        · simpa using full
        · exact ordered r mem

theorem addEnd_ok {s s' : RegionsFactory Double Data} (done : s.addEnd = .ok s')
    (ordered : ∀ r ∈ s.regions.tail, r.isFullySpecified = true) :
    s'.current = some .null ∧ ∀ r ∈ s'.regions, r.isFullySpecified = true := by
  rw [RegionsFactory.addEnd] at done
  split at done
  · cases done
    exact ⟨rfl, by simp [RegionOptions.isFullySpecified, RegionOptions.specified]⟩
  next back rest regions =>
    rw [regions] at ordered
    split at done
    · cases done
    next full =>
      have complete : ∀ r ∈ back :: rest, r.isFullySpecified = true := by
        intro r mem
        obtain rfl | mem := List.mem_cons.mp mem
        · simpa using full
        · exact ordered r mem
      split at done
      next empty =>
        cases done
        exact ⟨congrArg some empty, complete⟩
      next p present =>
        split at done
        · cases done
        · cases done
          refine ⟨rfl, fun r mem => ?_⟩
          obtain rfl | mem := List.mem_cons.mp mem
          · rfl
          · exact complete r mem

theorem build_updateBack {message : String}
    {f : RegionOptions Double Data → Except Failed (RegionOptions Double Data)} {a' : Args Double Data}
    (done : a.build message (fun s => s.updateBack f) = .ok a') (ordered : a.Ordered) : a'.Ordered := by
  refine build_ordered (fun done ordered => ?_) done ordered
  rwa [updateBack_tail done]

theorem readOption_ordered {a' : Args Double Data} {o : CommandOption} (done : readOption lib a o = .ok a')
    (ordered : a.Ordered) : a'.Ordered := by
  cases o with
  | input _ | output _ | typePath _ | debug | verbose =>
      cases done
      exact ordered
  | beginRegion =>
      exact build_ordered (fun done ordered r mem => (addBegin_ok done ordered).2 r
        (List.mem_of_mem_tail mem)) done ordered
  | endRegion =>
      exact build_ordered (fun done ordered r mem => (addEnd_ok done ordered).2 r
        (List.mem_of_mem_tail mem)) done ordered
  | channels _ | adjustBegin _ | adjustEnd _ | seconds => exact build_updateBack done ordered
  | compound _and => cases _and <;> exact build_updateBack done ordered
  | field optarg =>
      rw [readOption] at done
      split at done
      · cases done
      · exact build_updateBack done ordered
  | boolean optarg =>
      rw [readOption] at done
      split at done
      · cases done
      · exact build_updateBack done ordered
  | number optarg lessThan => cases lessThan <;> exact build_updateBack done ordered
  | help => cases done

theorem readOptions_ordered {a' : Args Double Data} {opts : List CommandOption}
    (done : readOptions lib a opts = .ok a') (ordered : a.Ordered) : a'.Ordered := by
  induction opts generalizing a with
  | nil =>
      cases done
      exact ordered
  | cons o opts ih =>
      rw [readOptions, List.foldlM_cons] at done
      obtain ⟨a₁, first, rest⟩ := bind_ok.mp done
      exact ih rest (readOption_ordered lib first ordered)

def Begun (a : Args Double Data) : Prop :=
  ∃ before o, (o = .beginRegion ∨ o = .endRegion) ∧ readOptions lib {} (before ++ [o]) = .ok a

theorem begun_current (begun : Begun lib a) :
    a.factory.current = some .null ∧ ∀ r ∈ a.factory.regions, r.isFullySpecified = true := by
  obtain ⟨before, o, either, done⟩ := begun
  rw [readOptions, List.foldlM_append] at done
  obtain ⟨a₁, first, last⟩ := bind_ok.mp done
  have ordered : a₁.Ordered := readOptions_ordered lib first nofun
  obtain ⟨a₂, last, same⟩ := bind_ok.mp last
  cases same
  obtain rfl | rfl := either
  · obtain ⟨factory, built, rfl⟩ := map_ok.mp last
    exact addBegin_ok (orMessage_ok.mp built) ordered
  · obtain ⟨factory, built, rfl⟩ := map_ok.mp last
    exact addEnd_ok (orMessage_ok.mp built) ordered

theorem isFullySpecified_withCurrent (begun : Begun lib a) (p : ConditionPtr Double Data) :
    (a.withCurrent p).isFullySpecified = RegionOptions.specified p := by
  obtain ⟨current, complete⟩ := begun_current lib begun
  obtain ⟨back, rest, regions, null⟩ := Args.current_eq_some.mp current
  rw [regions] at complete
  have others : rest.all RegionOptions.isFullySpecified = true :=
    List.all_eq_true.mpr fun r mem => complete r (List.mem_cons_of_mem _ mem)
  have both := complete back List.mem_cons_self
  rw [RegionOptions.isFullySpecified, Bool.and_eq_true] at both
  rw [Args.withCurrent, regions]
  cases specifying : a.factory.specifyingEnd <;>
    simp [Args.isFullySpecified, RegionOptions.isFullySpecified, both.1, both.2, others]

end Begun

section Exact

variable {Double Data : Type} (lib : Library Double Data)

theorem simple_ne_null (c : SimpleCondition Double Data) : ConditionPtr.simple c ≠ .null := nofun

theorem compound_ne_null (_and : Bool) (cond1 cond2 : ConditionPtr Double Data) :
    ConditionPtr.compound _and cond1 cond2 ≠ .null := nofun

theorem readToken_ne_null {types : Option (TypeDb Data)} {p p' : ConditionPtr Double Data} {t : Token}
    (done : readToken lib types p t = .ok p') : p' ≠ .null := by
  cases t with
  | op _and =>
      cases done
      cases p with
      | null => exact compound_ne_null _ _ _
      | simple c => exact simple_ne_null c
      | compound or' cond1 cond2 =>
          rw [ConditionPtr.addCompound, ConditionPtr.setCompound]
          · split <;> exact compound_ne_null _ _ _
          · exact compound_ne_null _ _ _
  | leaf l =>
      rw [readToken] at done
      cases p with
      | null | simple c =>
          obtain ⟨c', -, rfl⟩ := map_ok.mp done
          exact simple_ne_null c'
      | compound or' cond1 cond2 =>
          rw [ConditionPtr.set] at done
          split at done
          · obtain ⟨cond1', -, rfl⟩ := map_ok.mp done
            exact compound_ne_null _ _ _
          · obtain ⟨cond2', -, rfl⟩ := map_ok.mp done
            exact compound_ne_null _ _ _

theorem readTokens_ne_null {types : Option (TypeDb Data)} {p p' : ConditionPtr Double Data} {w : List Token}
    (done : readTokens lib types p w = .ok p') (present : p ≠ .null ∨ w ≠ []) : p' ≠ .null := by
  induction w generalizing p with
  | nil =>
      cases done
      exact present.resolve_right (not_not.mpr rfl)
  | cons t w ih =>
      obtain ⟨p₁, first, rest⟩ := (readTokens_cons_ok lib types).mp done
      exact ih rest (.inl (readToken_ne_null lib first))

theorem specified_iff {p : ConditionPtr Double Data} :
    RegionOptions.specified p = true ↔ p = .null ∨ p.isFullySpecified = true := by
  cases p <;> simp [RegionOptions.specified]

variable {a : Args Double Data}

/-- What is accepted behind -b and -e: nothing, or options that leave an expression whose leaves are taken when
those are left out that find no place. -/
theorem accepts_iff (begun : Begun lib a) {w : List Token} {a' : Args Double Data} :
    Accepts lib a w a' ↔ w = [] ∧ a' = a ∨ ∃ e p, kept [0] w = Prefix.Expr.tokens e ∧
      tree lib a.types FieldAccessor.canBeBoolean e = some p ∧ a' = a.withCurrent p := by
  have current := (begun_current lib begun).1
  rw [Accepts, readOptions_tokens lib current]
  have complete (p : ConditionPtr Double Data) :
      readTokens lib a.types .null w = .ok p ∧ p.isFullySpecified = true ↔
      ∃ e, kept [0] w = Prefix.Expr.tokens e ∧ tree lib a.types FieldAccessor.canBeBoolean e = some p := by
    rw [readTokens_ok lib a.types (p := .null) trivial]
    constructor
    · rintro ⟨es, ts, read, built, length, rfl⟩
      obtain ⟨e, rfl⟩ := List.length_eq_one_iff.mp length
      obtain ⟨t, _, tree, rest, rfl⟩ := List.forall₂_cons_left_iff.mp built
      exact ⟨e, Prefix.forest_eq_singleton.mp read, tree⟩
    · rintro ⟨e, read, tree⟩
      exact ⟨[e], [p], Prefix.forest_eq_singleton.mpr read, .cons tree .nil, rfl, rfl⟩
  constructor
  · rintro ⟨done, full⟩
    obtain ⟨p, read, rfl⟩ := map_ok.mp done
    rw [isFullySpecified_withCurrent lib begun, specified_iff] at full
    obtain rfl | full := full
    · have empty : w = [] := by
        by_contra options
        exact readTokens_ne_null lib read (.inr options) rfl
      exact .inl ⟨empty, Args.withCurrent_self current⟩
    · obtain ⟨e, same, tree⟩ := (complete p).mp ⟨read, full⟩
      exact .inr ⟨e, p, same, tree, rfl⟩
  · rintro (⟨rfl, rfl⟩ | ⟨e, p, same, tree, rfl⟩)
    · refine ⟨congrArg Except.ok (Args.withCurrent_self current), ?_⟩
      have full := isFullySpecified_withCurrent lib begun .null
      rwa [Args.withCurrent_self current] at full
    · obtain ⟨read, full⟩ := (complete p).mpr ⟨e, same, tree⟩
      rw [read, isFullySpecified_withCurrent lib begun]
      exact ⟨rfl, specified_iff.mpr (.inr full)⟩

theorem kept_sublist (levels : List Nat) (w : List Token) : (kept levels w).Sublist w := by
  induction w generalizing levels with
  | nil => rw [kept]
  | cons t w ih =>
      cases t with
      | leaf l =>
          rw [kept]
          exact (ih _).cons_cons _
      | op _and =>
          cases levels with
          | nil =>
              rw [kept]
              exact (ih _).cons _
          | cons level levels =>
              rw [kept]
              split
              · exact (ih _).cons_cons _
              · exact (ih _).cons _

theorem leaves_kept (levels : List Nat) (w : List Token) : Prefix.leaves (kept levels w) = Prefix.leaves w := by
  induction w generalizing levels with
  | nil => rw [kept]
  | cons t w ih =>
      cases t with
      | leaf l =>
          rw [kept]
          exact congrArg (l :: ·) (ih _)
      | op _and =>
          cases levels with
          | nil =>
              rw [kept]
              exact ih _
          | cons level levels =>
              rw [kept]
              split <;> exact ih _

theorem kept_expression {e e' : Expression} (read : kept [0] e.tokens = e'.tokens) : e' = e := by
  have leaves := leaves_kept [0] e.tokens
  have length := Prefix.length_tokens e
  have length' := Prefix.length_tokens e'
  rw [read] at leaves
  rw [leaves] at length'
  have all := (kept_sublist [0] e.tokens).eq_of_length (by rw [read]; omega)
  exact Prefix.tokens_injective (read.symm.trans all)

theorem kept_tokens_append {level : Nat} (reached : level ≤ 2) (levels : List Nat) (e : Expression) (w : List Token) :
    kept (level :: levels) (e.tokens ++ w) = e.tokens ++ w ↔ level + e.depth ≤ 2 ∧ kept levels w = w := by
  induction e generalizing level levels w with
  | leaf l =>
      rw [Prefix.Expr.tokens, List.singleton_append, kept, List.cons.injEq, Prefix.Expr.depth]
      exact ⟨fun same => ⟨reached, same.2⟩, fun same => ⟨rfl, same.2⟩⟩
  | node _and left right ihl ihr =>
      rw [Prefix.Expr.tokens, List.cons_append, List.append_assoc, kept, Prefix.Expr.depth]
      split
      next below =>
        rw [List.cons.injEq, ihl below, ihr below]
        simp only [true_and]
        rw [← and_assoc]
        exact and_congr_left' (by omega)
      next above =>
        constructor
        · intro same
          have shorter := (kept_sublist (level :: levels) (left.tokens ++ (right.tokens ++ w))).length_le
          rw [same, List.length_cons] at shorter
          omega
        · rintro ⟨deep, -⟩
          omega

theorem kept_tokens {e : Expression} : kept [0] e.tokens = e.tokens ↔ e.depth ≤ 2 := by
  have whole := kept_tokens_append (Nat.zero_le 2) [] e []
  rw [List.append_nil, Nat.zero_add] at whole
  rw [whole, kept]
  exact and_iff_left rfl

section Leaves

variable {types : Option (TypeDb Data)} {numeric numeric' : FieldAccessor Data → Bool}

theorem comparison_numeric {compared : Compared} {last : FieldAccessor Data}
    {comparison comparison' : Comparison Double}
    (built : compared.comparison lib numeric last = some comparison)
    (built' : compared.comparison lib numeric' last = some comparison') : comparison = comparison' := by
  cases compared with
  | boolean optarg => exact Option.some.inj (built.symm.trans built')
  | number optarg lessThan =>
      rw [Compared.comparison, Option.ite_none_right_eq_some, Option.some.injEq] at built built'
      exact built.2.symm.trans built'.2

theorem simple_numeric {l : Leaf} {c c' : SimpleCondition Double Data} (built : l.simple lib types numeric = some c)
    (built' : l.simple lib types numeric' = some c') : c = c' := by
  obtain ⟨source, compared⟩ := l
  cases source with
  | seconds =>
      cases compared with
      | boolean _ => cases built
      | number _ _ => exact Option.some.inj (built.symm.trans built')
  | field optarg =>
      obtain ⟨db, c₀, loaded, found, last, comparison, target, asked, rfl⟩ := (Leaf.simple_field lib).mp built
      obtain ⟨db', c₀', loaded', found', last', comparison', target', asked', rfl⟩ :=
        (Leaf.simple_field lib).mp built'
      cases loaded.symm.trans loaded'
      cases found.symm.trans found'
      cases target.symm.trans target'
      rw [comparison_numeric lib asked asked']

theorem tree_numeric {e : Expression} {p p' : ConditionPtr Double Data} (built : tree lib types numeric e = some p)
    (built' : tree lib types numeric' e = some p') : p = p' := by
  induction e generalizing p p' with
  | leaf l =>
      obtain ⟨c, leaf, rfl⟩ := Option.map_eq_some_iff.mp built
      obtain ⟨c', leaf', rfl⟩ := Option.map_eq_some_iff.mp built'
      rw [simple_numeric lib leaf leaf']
  | node _and left right ihl ihr =>
      simp only [tree, Option.bind_eq_bind, Option.bind_eq_some_iff, Option.some.injEq] at built built'
      obtain ⟨t1, left', t2, right', rfl⟩ := built
      obtain ⟨t1', left'', t2', right'', rfl⟩ := built'
      rw [ihl left' left'', ihr right' right'']

theorem simple_condition {l : Leaf} {c : SimpleCondition Double Data} (built : l.simple lib types numeric = some c) :
    ∃ cond, c.condition lib.read = some cond := by
  obtain ⟨source, compared⟩ := l
  cases source with
  | seconds =>
      cases compared with
      | boolean _ => cases built
      | number _ _ =>
          cases built
          exact ⟨_, rfl⟩
  | field optarg =>
      obtain ⟨db, c₀, -, found, last, comparison, -, -, rfl⟩ := (Leaf.simple_field lib).mp built
      rw [SimpleCondition.condition, (setField_ok found).1]
      exact ⟨_, rfl⟩

end Leaves

section Active

theorem earliest_twice (firstUtime : BitVec 64) (le : Event) :
    earliest (earliest firstUtime le) le = earliest firstUtime le := by
  unfold earliest
  split
  · exact ite_self _
  · rfl

theorem simple_isActive {c : SimpleCondition Double Data} {cond : Condition Double}
    {read : FieldType → Data → FieldValue Double}
    (is : c.condition read = some cond) (d : Doubles Double) (firstUtime : BitVec 64) (le : Event) :
    cond.isActive d firstUtime le = ((cond.isActive d (earliest firstUtime le) le).1, earliest firstUtime le) := by
  have twice := earliest_twice firstUtime le
  rw [SimpleCondition.condition] at is
  split at is
  next number lessThan _ _ =>
    obtain rfl := Option.some.inj is
    change (numberIsActive d number lessThan (d.seconds (le.timestamp - earliest firstUtime le)), _) =
      (numberIsActive d number lessThan (d.seconds (le.timestamp - earliest (earliest firstUtime le) le)), _)
    rw [twice]
    rfl
  next comparison _ _ =>
    obtain rfl := Option.some.inj is
    cases comparison <;> rfl
  all_goals cases is

theorem tree_readsFreed {types : Option (TypeDb Data)} {e : Expression} {p : ConditionPtr Double Data}
    (built : tree lib types FieldAccessor.canBeNumeric e = some p) {c : Condition Double}
    (is : p.condition lib.read = some c) (le : Event) : c.readsFreed le = true ↔
      ∃ l, .leaf l ∈ e.tokens ∧ Leaf.readsFreed lib types FieldAccessor.canBeNumeric le l = true := by
  induction e generalizing p c with
  | leaf l =>
      obtain ⟨simple, leaf, rfl⟩ := Option.map_eq_some_iff.mp built
      have is : simple.condition lib.read = some c := is
      simp [Prefix.Expr.tokens, Leaf.readsFreed, leaf, is]
  | node _and left right ihl ihr =>
      simp only [tree, Option.bind_eq_bind, Option.bind_eq_some_iff, Option.some.injEq] at built
      obtain ⟨t1, left', t2, right', rfl⟩ := built
      simp only [ConditionPtr.condition, Option.bind_eq_bind, Option.bind_eq_some_iff, Option.some.injEq] at is
      obtain ⟨c1, is1, c2, is2, rfl⟩ := is
      simp only [Condition.readsFreed, Bool.or_eq_true, ihl left' is1, ihr right' is2, Prefix.Expr.tokens,
        List.mem_cons, reduceCtorEq, false_or, List.mem_append, or_and_right, exists_or]

theorem tree_isActive {types : Option (TypeDb Data)} {e : Expression} {p : ConditionPtr Double Data}
    (built : tree lib types FieldAccessor.canBeNumeric e = some p) :
    ∃ c, p.condition lib.read = some c ∧ ∀ (d : Doubles Double) firstUtime le, c.isActive d firstUtime le =
      (e.value join (Leaf.holds lib types FieldAccessor.canBeNumeric d (earliest firstUtime le) le),
        earliest firstUtime le) := by
  induction e generalizing p with
  | leaf l =>
      obtain ⟨c, leaf, rfl⟩ := Option.map_eq_some_iff.mp built
      obtain ⟨cond, is⟩ := simple_condition lib leaf
      refine ⟨cond, is, fun d firstUtime le => ?_⟩
      rw [simple_isActive is, Prefix.Expr.value, Leaf.holds, leaf, Option.bind_some, is]
  | node _and left right ihl ihr =>
      simp only [tree, Option.bind_eq_bind, Option.bind_eq_some_iff, Option.some.injEq] at built
      obtain ⟨t1, left', t2, right', rfl⟩ := built
      obtain ⟨c1, is1, active1⟩ := ihl left'
      obtain ⟨c2, is2, active2⟩ := ihr right'
      refine ⟨.compound _and c1 c2, ?_, fun d firstUtime le => ?_⟩
      · rw [ConditionPtr.condition, is1, is2]
        rfl
      · rw [Condition.isActive, active1]
        dsimp only
        rw [active2, earliest_twice]
        rfl

end Active

/-- Operators find no place at the third level and behind the expression. With those, an expression is read in
which they are left out. A field is read behind the message that it is in. -/
theorem readsExpressions_iff (begun : Begun lib a) (w : List Token) : ReadsExpressions lib a w ↔
    w ≠ [] ∧
      (∀ e : Expression, w = e.tokens → e.wellFormed lib a.types → e.depth ≤ 2 ∧ e.taken lib a.types ∧
        ∀ l, .leaf l ∈ w → ∀ le, Leaf.readsFreed lib a.types FieldAccessor.canBeNumeric le l = false) ∧
      (∀ e : Expression, kept [0] w = e.tokens → e.taken lib a.types →
        kept [0] w = w ∧ e.wellFormed lib a.types) := by
  have current := (begun_current lib begun).1
  have accepted (e : Expression) (read : kept [0] w = e.tokens) (taken : e.taken lib a.types) :
      ∃ a', Accepts lib a w a' := by
    obtain ⟨p, tree⟩ := Option.isSome_iff_exists.mp taken
    exact ⟨_, (accepts_iff lib begun).mpr (.inr ⟨e, p, read, tree, rfl⟩)⟩
  constructor
  · intro reads
    refine ⟨?_, fun e same formed => ?_, fun e read taken => ?_⟩
    · rintro rfl
      obtain ⟨e, -, empty⟩ := reads.accepts.mp ⟨a, (accepts_iff lib begun).mpr (.inl ⟨rfl, rfl⟩)⟩
      exact Prefix.tokens_ne_nil e empty.symm
    · obtain ⟨a', accepts⟩ := reads.accepts.mpr ⟨e, formed, same⟩
      obtain ⟨rfl, -⟩ | ⟨e', p, read, tree, -⟩ := (accepts_iff lib begun).mp accepts
      · exact absurd same.symm (Prefix.tokens_ne_nil e)
      · subst same
        cases kept_expression read
        refine ⟨kept_tokens.mp read, Option.isSome_of_eq_some tree, fun l member le => ?_⟩
        obtain ⟨p', built⟩ := Option.isSome_iff_exists.mp formed
        obtain ⟨-, c, is, evaluates⟩ := reads.builds a' e p' accepts rfl built
        have defined := evaluates
          ⟨fun _ _ => false, fun _ _ => false, fun _ => lib.atof [], fun _ => lib.atof []⟩ 0 le
        rw [← Bool.not_eq_true]
        intro freed
        rw [Condition.evaluate, if_pos ((tree_readsFreed lib built is le).mpr ⟨l, member, freed⟩)] at defined
        cases defined
    · obtain ⟨e', formed, same⟩ := reads.accepts.mp (accepted e read taken)
      subst same
      cases kept_expression read
      exact ⟨read, formed⟩
  · rintro ⟨nonempty, forward, backward⟩
    refine ⟨⟨?_, ?_⟩, fun a' e p accepts same tree => ?_⟩
    · rintro ⟨a', accepts⟩
      obtain ⟨empty, -⟩ | ⟨e, p, read, tree, -⟩ := (accepts_iff lib begun).mp accepts
      · exact absurd empty nonempty
      · obtain ⟨all, formed⟩ := backward e read (Option.isSome_of_eq_some tree)
        exact ⟨e, formed, all.symm.trans read⟩
    · rintro ⟨e, formed, rfl⟩
      obtain ⟨flat, taken, -⟩ := forward e rfl formed
      exact accepted e (kept_tokens.mpr flat) taken
    · obtain ⟨empty, -⟩ | ⟨e', p', read, tree', rfl⟩ := (accepts_iff lib begun).mp accepts
      · exact absurd empty nonempty
      · subst same
        cases kept_expression read
        cases tree_numeric lib tree tree'
        obtain ⟨c, is, active⟩ := tree_isActive lib tree
        refine ⟨Args.current_withCurrent current p, c, is, fun d firstUtime le => ?_⟩
        have live : ¬ c.readsFreed le = true := by
          rw [tree_readsFreed lib tree is]
          rintro ⟨l, member, freed⟩
          rw [(forward e rfl (Option.isSome_of_eq_some tree)).2.2 l member le] at freed
          cases freed
        rw [Condition.evaluate, if_neg live, active]

end Exact

section Examples

def integers : Library Int Unit where
  atof s := digitsValue 10 s
  micros x := x * 1000000
  regex _ := none
  loadTypes _ _ _ := none
  read _ _ := .other

def afterBegin : Args Int Unit := { factory := ⟨false, [{}]⟩ }

theorem afterBegin_begun : Begun integers afterBegin := ⟨[], .beginRegion, .inl rfl, rfl⟩

def atLeast (seconds : String) : Leaf := ⟨.seconds, .number (text seconds) false⟩
def lessThan (seconds : String) : Leaf := ⟨.seconds, .number (text seconds) true⟩

theorem usage_readsExpressions :
    ReadsExpressions integers afterBegin [.op true, .leaf (atLeast "10"), .leaf (lessThan "20")] := by
  have only {e : Expression} (same : [.op true, .leaf (atLeast "10"), .leaf (lessThan "20")] = e.tokens) :
      e = .node true (.leaf (atLeast "10")) (.leaf (lessThan "20")) := Prefix.tokens_injective same.symm
  refine (readsExpressions_iff integers afterBegin_begun _).mpr
    ⟨nofun, fun e same _ => ?_, fun e same _ => ⟨rfl, ?_⟩⟩
  · rw [only same]
    refine ⟨by decide, rfl, fun l member le => ?_⟩
    rcases List.mem_cons.mp member with absurd | member
    · cases absurd
    · obtain rfl | rfl : l = atLeast "10" ∨ l = lessThan "20" := by simpa using member
      all_goals rfl
  · rw [only same]
    rfl

/-- An expression with an and at the third level is refused, and one with an and too many is accepted. -/
theorem nested_not_readsExpressions :
    ¬ ReadsExpressions integers afterBegin [.op true, .op true, .op true, .leaf (atLeast "1"), .leaf (atLeast "2"),
      .leaf (atLeast "3"), .leaf (atLeast "4")] ∧
    ¬ ReadsExpressions integers afterBegin [.op true, .op true, .op true, .leaf (atLeast "1"), .leaf (atLeast "2"),
      .leaf (atLeast "3")] := by
  constructor
  · intro reads
    obtain ⟨a', done, -⟩ := reads.accepts.mpr ⟨.node true (.node true (.node true (.leaf (atLeast "1"))
      (.leaf (atLeast "2"))) (.leaf (atLeast "3"))) (.leaf (atLeast "4")), rfl, rfl⟩
    cases done
  · intro reads
    obtain ⟨e, -, same⟩ := reads.accepts.mp ⟨_, rfl, rfl⟩
    have read := Prefix.forest_eq_singleton.mpr same
    cases read

end Examples

end Zcm.Filter
