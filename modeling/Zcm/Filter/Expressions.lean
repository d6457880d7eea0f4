import Mathlib.Data.List.Forall2
import Zcm.Filter.Places
import Zcm.Lib.Prefix

namespace Zcm.Filter
open Zcm.Lib Zcm.Eventlog

section Expressions

inductive Source
  | seconds
  | field (optarg : List Byte)
deriving DecidableEq

inductive Compared
  | boolean (optarg : List Byte)
  | number (optarg : List Byte) (lessThan : Bool)
deriving DecidableEq

structure Leaf where
  source : Source
  compared : Compared
deriving DecidableEq

abbrev Token := Prefix.Token Bool Leaf
abbrev Expression := Prefix.Expr Bool Leaf

def Source.option : Source → CommandOption
  | seconds => .seconds
  | field optarg => .field optarg

def Compared.option : Compared → CommandOption
  | boolean optarg => .boolean optarg
  | number optarg lessThan => .number optarg lessThan

def tokenOptions : Token → List CommandOption
  | .op _and => [.compound _and]
  | .leaf l => [l.source.option, l.compared.option]

def options (w : List Token) : List CommandOption := w.flatMap tokenOptions

variable {Double Data : Type} (lib : Library Double Data) (types : Option (TypeDb Data))
  (numeric : FieldAccessor Data → Bool)

def Compared.comparison (a : FieldAccessor Data) : Compared → Option (Comparison Double)
  | boolean optarg => if a.canBeBoolean then (invert optarg).map .bool else none
  | number optarg lessThan => if numeric a then some (.number (lib.atof optarg) lessThan) else none

/-- The condition that a leaf describes. Only a number is compared with the seconds, and a field is compared
as what it can be. -/
def Leaf.simple : Leaf → Option (SimpleCondition Double Data)
  | ⟨.seconds, .boolean _⟩ => none
  | ⟨.seconds, .number optarg lessThan⟩ =>
      some { type := some .seconds, comparison := some (.number (lib.atof optarg) lessThan) }
  | ⟨.field optarg, compared⟩ => do
      let types ← types
      let c ← (({} : SimpleCondition Double Data).setField types optarg).toOption
      let last ← c.accessors.getLast?
      let comparison ← compared.comparison lib numeric last
      some { c with comparison := some comparison }

def tree : Expression → Option (ConditionPtr Double Data)
  | .leaf l => (l.simple lib types numeric).map .simple
  | .node _and left right => do some (.compound _and (← tree left) (← tree right))

/-- Whether the event brings the field of a leaf, so that `isActive` reads it. -/
def Leaf.readsFreed (le : Event) (l : Leaf) : Bool :=
  match (l.simple lib types numeric).bind (·.condition lib.read) with
  | some c => c.readsFreed le
  | none => false

def Leaf.holds (d : Doubles Double) (firstUtime : BitVec 64) (le : Event) (l : Leaf) : Bool :=
  match (l.simple lib types numeric).bind (·.condition lib.read) with
  | some c => (c.isActive d firstUtime le).1
  | none => false

end Expressions

section Acceptance

variable {Double Data : Type}

/-- The options without each -a and -r that finds no place, from the levels at which the tree is empty. Where
the first empty place is at the third level, only a leaf gets into it. -/
def kept : List Nat → List Token → List Token
  | _, [] => []
  | levels, .leaf l :: w => .leaf l :: kept levels.tail w
  | [], .op _ :: w => kept [] w
  | level :: levels, .op _and :: w =>
      if level < 2 then .op _and :: kept ((level + 1) :: (level + 1) :: levels) w else kept (level :: levels) w

def join (_and x y : Bool) : Bool := if _and then x && y else x || y

def earliest (firstUtime : BitVec 64) (le : Event) : BitVec 64 :=
  if le.timestamp < firstUtime then le.timestamp else firstUtime

variable (lib : Library Double Data) (a : Args Double Data)

def Expression.wellFormed (types : Option (TypeDb Data)) (e : Expression) : Bool :=
  (tree lib types FieldAccessor.canBeNumeric e).isSome

/-- The setters take all the leaves. A number is compared with a field that can be a boolean. -/
def Expression.taken (types : Option (TypeDb Data)) (e : Expression) : Bool :=
  (tree lib types FieldAccessor.canBeBoolean e).isSome

def Accepts (w : List Token) (a' : Args Double Data) : Prop :=
  readOptions lib a (options w) = .ok a' ∧ a'.isFullySpecified

/-- Exactly the expressions are accepted, and the condition is the expression. -/
structure ReadsExpressions (w : List Token) : Prop where
  accepts : (∃ a', Accepts lib a w a') ↔ ∃ e : Expression, e.wellFormed lib a.types ∧ w = e.tokens
  builds : ∀ a' e p, Accepts lib a w a' → w = Prefix.Expr.tokens e →
    tree lib a.types FieldAccessor.canBeNumeric e = some p →
    a'.factory.current = some p ∧ ∃ c, p.condition lib.read = some c ∧ ∀ d firstUtime le,
      c.evaluate d firstUtime le =
        some (e.value join (Leaf.holds lib a.types FieldAccessor.canBeNumeric d (earliest firstUtime le) le),
          earliest firstUtime le)

end Acceptance

section Tokens

variable {Double Data : Type} (lib : Library Double Data) (types : Option (TypeDb Data))

def Source.setter (c : SimpleCondition Double Data) : Source → Except ParseFailure (SimpleCondition Double Data)
  | seconds => orMessage "Improperly specified time condition" c.setSeconds
  | field optarg =>
      match types with
      | none => .error (.message "Must specify types.so before field conditions")
      | some types => orMessage "Improperly specified field condition" (c.setField types optarg)

def Compared.setter (c : SimpleCondition Double Data) : Compared → Except ParseFailure (SimpleCondition Double Data)
  | boolean optarg =>
      match invert optarg with
      | none => .error (.message "Invalid boolean specifier: ")
      | some inverted => orMessage "Improperly specified bool comparison" (c.setCompBool inverted)
  | number optarg true =>
      orMessage "Improperly specified less than comparison" (c.setCompNumber (lib.atof optarg) true)
  | number optarg false =>
      orMessage "Improperly specified greater equal comparison" (c.setCompNumber (lib.atof optarg) false)

def Leaf.setter (l : Leaf) (c : SimpleCondition Double Data) : Except ParseFailure (SimpleCondition Double Data) :=
  l.source.setter types c >>= fun c => l.compared.setter lib c

theorem orMessage_ok {α : Type} {message : String} {x : Except Failed α} {a : α} :
    orMessage message x = .ok a ↔ x = .ok a := by
  obtain (_ | _) | _ := x <;> simp [orMessage]

theorem orMessage_error {α : Type} (message : String) {x : Except Failed α} {e : Failed} (failed : x = .error e) :
    ∃ e, orMessage message x = .error e := by
  subst failed
  cases e <;> exact ⟨_, rfl⟩

theorem Source.setter_typed (source : Source) {c : SimpleCondition Double Data} (typed : c.type ≠ none) :
    ∃ e, source.setter types c = .error e := by
  cases source with
  | seconds => exact orMessage_error _ (if_pos typed)
  | field optarg =>
      cases types with
      | none => exact ⟨_, rfl⟩
      | some types => exact orMessage_error _ (if_pos typed)

theorem Leaf.setter_typed (l : Leaf) {c : SimpleCondition Double Data} (typed : c.type ≠ none) :
    ∃ e, l.setter lib types c = .error e := by
  obtain ⟨e, refused⟩ := l.source.setter_typed types typed
  exact ⟨e, by rw [Leaf.setter, refused]; rfl⟩

variable {types}

theorem setField_ok {types : TypeDb Data} {optarg : List Byte} {c c' : SimpleCondition Double Data}
    (done : c.setField types optarg = .ok c') : c'.type = some .field ∧ c'.comparison = c.comparison := by
  rw [SimpleCondition.setField] at done
  split at done
  · cases done
  · split at done
    · split at done
      · cases done
      · cases done
        exact ⟨rfl, rfl⟩
    · cases done

theorem Source.setter_keeps (source : Source) {c c' : SimpleCondition Double Data}
    (done : source.setter types c = .ok c') : c'.isConfigured = c.isConfigured := by
  cases source with
  | seconds =>
      have done := orMessage_ok.mp done
      rw [SimpleCondition.setSeconds] at done
      split at done
      · cases done
      · cases done
        rfl
  | field optarg =>
      cases types with
      | none => cases done
      | some types =>
          rw [SimpleCondition.isConfigured, (setField_ok (orMessage_ok.mp done)).2]
          rfl

theorem Leaf.simple_field {numeric : FieldAccessor Data → Bool} {optarg : List Byte} {compared : Compared}
    {c : SimpleCondition Double Data} :
    Leaf.simple lib types numeric ⟨.field optarg, compared⟩ = some c ↔
      ∃ db c₀, types = some db ∧ ({} : SimpleCondition Double Data).setField db optarg = .ok c₀ ∧
        ∃ last comparison, c₀.accessors.getLast? = some last ∧
          compared.comparison lib numeric last = some comparison ∧
            c = { c₀ with comparison := some comparison } := by
  cases types with
  | none => simp [Leaf.simple]
  | some db =>
      cases found : ({} : SimpleCondition Double Data).setField db optarg with
      | error e => simp [Leaf.simple, found, Except.toOption]
      | ok c₀ => simp [Leaf.simple, found, Except.toOption, Option.bind_eq_some_iff, eq_comm (b := c)]

theorem Leaf.simple_ready {numeric : FieldAccessor Data → Bool} {l : Leaf} {c : SimpleCondition Double Data}
    (built : l.simple lib types numeric = some c) : c.type ≠ none ∧ c.isConfigured = true := by
  obtain ⟨source, compared⟩ := l
  cases source with
  | seconds =>
      cases compared with
      | boolean _ => cases built
      | number _ _ =>
          cases built
          exact ⟨nofun, rfl⟩
  | field optarg =>
      obtain ⟨db, c₀, -, found, last, comparison, -, -, rfl⟩ := (Leaf.simple_field lib).mp built
      exact ⟨by rw [(setField_ok found).1]; nofun, rfl⟩

section Fields

variable {c c' : SimpleCondition Double Data} (field : c.type = some .field)
include field

theorem setCompBool_field {inverted : Bool} : c.setCompBool inverted = .ok c' ↔
    ∃ last, c.accessors.getLast? = some last ∧ last.canBeBoolean = true ∧
      c' = { c with comparison := some (.bool inverted) } := by
  rw [SimpleCondition.setCompBool, field]
  cases c.accessors.getLast? with
  | none => simp
  | some last => cases canBe : last.canBeBoolean <;> simp [canBe, eq_comm (b := c')]

theorem setCompNumber_field {number : Double} {lessThan : Bool} : c.setCompNumber number lessThan = .ok c' ↔
    ∃ last, c.accessors.getLast? = some last ∧ last.canBeBoolean = true ∧
      c' = { c with comparison := some (.number number lessThan) } := by
  rw [SimpleCondition.setCompNumber, field]
  cases c.accessors.getLast? with
  | none => simp
  | some last => cases canBe : last.canBeBoolean <;> simp [canBe, eq_comm (b := c')]

theorem Compared.setter_field (compared : Compared) : compared.setter lib c = .ok c' ↔
    ∃ last comparison, c.accessors.getLast? = some last ∧
      compared.comparison lib FieldAccessor.canBeBoolean last = some comparison ∧
      c' = { c with comparison := some comparison } := by
  have asked (comparison : Comparison Double) :
      (∃ last, c.accessors.getLast? = some last ∧ last.canBeBoolean = true ∧
        c' = { c with comparison := some comparison }) ↔
      ∃ last comparison', c.accessors.getLast? = some last ∧
        (if last.canBeBoolean then some comparison else none) = some comparison' ∧
        c' = { c with comparison := some comparison' } := by
    refine exists_congr fun last => ?_
    cases last.canBeBoolean <;> simp
  cases compared with
  | boolean optarg =>
      simp only [Compared.setter, Compared.comparison]
      cases invert optarg with
      | none => simp
      | some inverted =>
          dsimp only
          rw [orMessage_ok, setCompBool_field field, asked]
          rfl
  | number optarg lessThan =>
      cases lessThan
      · rw [Compared.setter, orMessage_ok, setCompNumber_field field, asked]
        rfl
      · rw [Compared.setter, orMessage_ok, setCompNumber_field field, asked]
        rfl

end Fields

/-- What the setters make of a new condition is what the leaf describes, if a number is compared with a field
that can be a boolean. -/
theorem Leaf.setter_ok (l : Leaf) {c : SimpleCondition Double Data} :
    l.setter lib types {} = .ok c ↔ l.simple lib types FieldAccessor.canBeBoolean = some c := by
  obtain ⟨source, compared⟩ := l
  cases source with
  | seconds =>
      cases compared with
      | boolean optarg =>
          simp only [Leaf.setter, Compared.setter, reduceCtorEq, iff_false, Leaf.simple]
          cases invert optarg <;> exact nofun
      | number optarg lessThan =>
          have new : Leaf.setter lib types ⟨.seconds, .number optarg lessThan⟩ {} =
              .ok { type := some .seconds, comparison := some (.number (lib.atof optarg) lessThan) } := by
            cases lessThan <;> rfl
          rw [new, Leaf.simple, Except.ok.injEq, Option.some.injEq]
  | field optarg =>
      rw [Leaf.simple_field, Leaf.setter, bind_ok]
      cases types with
      | none => simp [Source.setter]
      | some db =>
          simp only [Source.setter, orMessage_ok]
          constructor
          · rintro ⟨c₀, found, done⟩
            exact ⟨db, c₀, rfl, found, (compared.setter_field lib (setField_ok found).1).mp done⟩
          · rintro ⟨_, c₀, same, found, rest⟩
            cases same
            exact ⟨c₀, found, (compared.setter_field lib (setField_ok found).1).mpr rest⟩

variable (types)

def readToken (p : ConditionPtr Double Data) : Token → Except ParseFailure (ConditionPtr Double Data)
  | .op _and => .ok (p.addCompound _and)
  | .leaf l => p.set (l.setter lib types)

def readTokens (p : ConditionPtr Double Data) (w : List Token) : Except ParseFailure (ConditionPtr Double Data) :=
  w.foldlM (readToken lib types) p

def Trees (es : List Expression) (ts : List (ConditionPtr Double Data)) : Prop :=
  es.Forall₂ (fun e t => tree lib types FieldAccessor.canBeBoolean e = some t) ts

theorem readTokens_cons_ok {p p' : ConditionPtr Double Data} {t : Token} {w : List Token} :
    readTokens lib types p (t :: w) = .ok p' ↔
      ∃ p₁, readToken lib types p t = .ok p₁ ∧ readTokens lib types p₁ w = .ok p' := by
  rw [readTokens, List.foldlM_cons, bind_ok]
  rfl

theorem trees_leaf {l : Leaf} {es : List Expression} {ts : List (ConditionPtr Double Data)} :
    Trees lib types (.leaf l :: es) ts ↔
      ∃ c ts', l.setter lib types {} = .ok c ∧ Trees lib types es ts' ∧ ts = .simple c :: ts' := by
  simp only [Trees, List.forall₂_cons_left_iff, tree, Option.map_eq_some_iff, Leaf.setter_ok]
  constructor
  · rintro ⟨_, ts', ⟨c, built, rfl⟩, rest, rfl⟩
    exact ⟨c, ts', built, rest, rfl⟩
  · rintro ⟨c, ts', built, rest, rfl⟩
    exact ⟨_, ts', ⟨c, built, rfl⟩, rest, rfl⟩

theorem trees_node {_and : Bool} {left right : Expression} {es : List Expression}
    {ts : List (ConditionPtr Double Data)} :
    Trees lib types (.node _and left right :: es) ts ↔
      ∃ t1 t2 ts', Trees lib types (left :: right :: es) (t1 :: t2 :: ts') ∧ ts = .compound _and t1 t2 :: ts' := by
  rw [Trees, List.forall₂_cons_left_iff]
  simp only [tree, Option.bind_eq_bind, Option.bind_eq_some_iff, Option.some.injEq]
  constructor
  · rintro ⟨_, ts', ⟨t1, left', t2, right', rfl⟩, rest, rfl⟩
    exact ⟨t1, t2, ts', .cons left' (.cons right' rest), rfl⟩
  · rintro ⟨t1, t2, ts', built, rfl⟩
    obtain ⟨left', built⟩ := List.forall₂_cons.mp built
    obtain ⟨right', rest⟩ := List.forall₂_cons.mp built
    exact ⟨_, ts', ⟨t1, left', t2, right', rfl⟩, rest, rfl⟩

/-- The tree gets complete if what is kept of the options are the expressions for its empty places, and these
are then in the places. -/
theorem readTokens_ok {p p' : ConditionPtr Double Data} (settled : p.Settled) {w : List Token} :
    readTokens lib types p w = .ok p' ∧ p'.isFullySpecified = true ↔
      ∃ es ts, Prefix.forest (kept (p.places 0) w) = some es ∧ Trees lib types es ts ∧
        es.length = (p.places 0).length ∧ p' = (p.fill ts).1 := by
  induction w generalizing p with
  | nil =>
      rw [kept]
      constructor
      · rintro ⟨done, full⟩
        obtain rfl : p = p' := Except.ok.inj done
        refine ⟨[], [], rfl, .nil, ?_, ?_⟩
        · rw [(ConditionPtr.isFullySpecified_iff settled).mp full]
          rfl
        · rw [p.fill_nil]
      · rintro ⟨es, ts, read, built, length, rfl⟩
        cases read
        cases built
        rw [p.fill_nil]
        exact ⟨rfl, (ConditionPtr.isFullySpecified_iff settled).mpr (List.eq_nil_of_length_eq_zero length.symm)⟩
  | cons t w ih =>
      rw [readTokens_cons_ok]
      cases t with
      | leaf l =>
          have typed {c : SimpleCondition Double Data} (typed : c.type ≠ none) := l.setter_typed lib types typed
          rw [readToken, kept]
          simp only [Prefix.forest_leaf]
          cases first : p.places 0 with
          | nil =>
              obtain ⟨e, refused⟩ := ConditionPtr.set_full typed settled first
              constructor
              · rintro ⟨⟨p₁, done, -⟩, -⟩
                cases refused.symm.trans done
              · rintro ⟨es, ts, ⟨rest, -, rfl⟩, -, length, -⟩
                cases length
          | cons place rest =>
              rw [List.tail_cons]
              cases new : l.setter lib types {} with
              | error e =>
                  obtain ⟨e, refused⟩ := ConditionPtr.set_refused typed new settled
                  constructor
                  · rintro ⟨⟨p₁, done, -⟩, -⟩
                    cases refused.symm.trans done
                  · rintro ⟨es, ts, ⟨es', -, rfl⟩, built, -, -⟩
                    obtain ⟨c, ts', new', -, -⟩ := (trees_leaf lib types).mp built
                    cases new.symm.trans new'
              | ok c =>
                  have ready := Leaf.simple_ready lib ((l.setter_ok lib).mp new)
                  obtain ⟨p₁, done, settled₁, places₁, filled⟩ :=
                    ConditionPtr.set_place new ready settled first
                  have later := ih settled₁
                  rw [places₁] at later
                  constructor
                  · rintro ⟨⟨p₁', done', reads⟩, full⟩
                    cases done.symm.trans done'
                    obtain ⟨es, ts, read, built, length, rfl⟩ := later.mp ⟨reads, full⟩
                    exact ⟨.leaf l :: es, .simple c :: ts, ⟨es, read, rfl⟩,
                      (trees_leaf lib types).mpr ⟨c, ts, new, built, rfl⟩,
                        congrArg (· + 1) length, by rw [filled]⟩
                  · rintro ⟨_, ts, ⟨es, read, rfl⟩, built, length, rfl⟩
                    obtain ⟨c', ts', new', built', rfl⟩ := (trees_leaf lib types).mp built
                    cases new.symm.trans new'
                    obtain ⟨reads, full⟩ :=
                      later.mpr ⟨es, ts', read, built', Nat.succ.inj length, by rw [filled]⟩
                    exact ⟨⟨p₁, done, reads⟩, full⟩
      | op _and =>
          simp only [readToken, Except.ok.injEq, exists_eq_left']
          by_cases reached : ∃ place rest, p.places 0 = place :: rest ∧ place < 2
          · obtain ⟨place, rest, first, reached⟩ := reached
            obtain ⟨settled₁, places₁, filled⟩ := ConditionPtr.addCompound_place _and settled first reached
            rw [ih settled₁, places₁, first, kept, if_pos reached]
            simp only [Prefix.forest_op]
            constructor
            · rintro ⟨es, ts, read, built, length, rfl⟩
              match es, length with
              | left :: right :: es, length =>
                  obtain ⟨t1, _, left', later, rfl⟩ := List.forall₂_cons_left_iff.mp built
                  obtain ⟨t2, ts', right', rest', rfl⟩ := List.forall₂_cons_left_iff.mp later
                  have node : Trees lib types (.node _and left right :: es) (.compound _and t1 t2 :: ts') :=
                    (trees_node lib types).mpr ⟨t1, t2, ts', .cons left' (.cons right' rest'), rfl⟩
                  exact ⟨.node _and left right :: es, .compound _and t1 t2 :: ts', ⟨left, right, es, read, rfl⟩,
                    node, Nat.succ.inj length, by rw [filled]⟩
            · rintro ⟨_, ts, ⟨left, right, es, read, rfl⟩, built, length, rfl⟩
              obtain ⟨t1, t2, ts', built', rfl⟩ := (trees_node lib types).mp built
              exact ⟨left :: right :: es, t1 :: t2 :: ts', read, built', congrArg (· + 1) length, by rw [filled]⟩
          · have ignored : kept (p.places 0) (.op _and :: w) = kept (p.places 0) w := by
              cases first : p.places 0 with
              | nil => rw [kept]
              | cons place rest => rw [kept, if_neg fun less => reached ⟨place, rest, first, less⟩]
            have unreached : ∀ place rest, p.places 0 = place :: rest → 2 ≤ place :=
              fun place rest first => not_lt.mp fun less => reached ⟨place, rest, first, less⟩
            rw [ConditionPtr.addCompound_ignored _and settled unreached, ih settled, ignored]

end Tokens

end Zcm.Filter
