import Mathlib.Tactic.Common

namespace Zcm.Lib.Prefix

inductive Token (Op Leaf : Type)
  | op (o : Op)
  | leaf (l : Leaf)
deriving DecidableEq

inductive Expr (Op Leaf : Type)
  | leaf (l : Leaf)
  | node (o : Op) (left right : Expr Op Leaf)
deriving DecidableEq

variable {Op Leaf : Type}

namespace Expr

def tokens : Expr Op Leaf → List (Token Op Leaf)
  | leaf l => [.leaf l]
  | node o left right => .op o :: (left.tokens ++ right.tokens)

def depth : Expr Op Leaf → Nat
  | leaf _ => 0
  | node _ left right => max left.depth right.depth + 1

def value {V : Type} (apply : Op → V → V → V) (truth : Leaf → V) : Expr Op Leaf → V
  | leaf l => truth l
  | node o left right => apply o (left.value apply truth) (right.value apply truth)

end Expr

def forest : List (Token Op Leaf) → Option (List (Expr Op Leaf))
  | [] => some []
  | .leaf l :: w => (forest w).map (.leaf l :: ·)
  | .op o :: w =>
      match forest w with
      | some (left :: right :: es) => some (.node o left right :: es)
      | some [_] | some [] | none => none

theorem forest_op {o : Op} {w : List (Token Op Leaf)} {es : List (Expr Op Leaf)} :
    forest (.op o :: w) = some es ↔
      ∃ left right rest, forest w = some (left :: right :: rest) ∧ es = .node o left right :: rest := by
  rw [forest]
  split
  next left right rest read =>
    simp only [read, Option.some.injEq, List.cons.injEq]
    constructor
    · rintro rfl
      exact ⟨left, right, rest, ⟨rfl, rfl, rfl⟩, rfl⟩
    · rintro ⟨_, _, _, ⟨rfl, rfl, rfl⟩, rfl⟩
      rfl
  all_goals simp_all

theorem forest_leaf {l : Leaf} {w : List (Token Op Leaf)} {es : List (Expr Op Leaf)} :
    forest (.leaf l :: w) = some es ↔ ∃ rest, forest w = some rest ∧ es = .leaf l :: rest := by
  rw [forest, Option.map_eq_some_iff]
  exact exists_congr fun _ => and_congr_right' eq_comm

theorem forest_append (e : Expr Op Leaf) (w : List (Token Op Leaf)) :
    forest (e.tokens ++ w) = (forest w).map (e :: ·) := by
  induction e generalizing w with
  | leaf l => rfl
  | node o left right ihl ihr =>
      rw [Expr.tokens, List.cons_append, List.append_assoc, forest, ihl, ihr]
      cases forest w <;> rfl

theorem forest_tokens (e : Expr Op Leaf) : forest e.tokens = some [e] := by
  rw [← List.append_nil e.tokens, forest_append]
  rfl

theorem tokens_of_forest {w : List (Token Op Leaf)} {es : List (Expr Op Leaf)} (read : forest w = some es) :
    w = es.flatMap Expr.tokens := by
  induction w generalizing es with
  | nil =>
      obtain rfl : [] = es := Option.some.inj read
      rfl
  | cons t w ih =>
      cases t with
      | leaf l =>
          obtain ⟨rest, later, rfl⟩ := forest_leaf.mp read
          rw [ih later]
          rfl
      | op o =>
          obtain ⟨left, right, rest, later, rfl⟩ := forest_op.mp read
          rw [ih later]
          simp only [List.flatMap_cons, Expr.tokens, List.cons_append, List.append_assoc]

theorem forest_eq_singleton {w : List (Token Op Leaf)} {e : Expr Op Leaf} : forest w = some [e] ↔ w = e.tokens := by
  constructor
  · intro read
    simpa using tokens_of_forest read
  · rintro rfl
    exact forest_tokens e

theorem tokens_injective {e e' : Expr Op Leaf} (same : e.tokens = e'.tokens) : e = e' := by
  have read := forest_tokens e
  rw [same, forest_tokens, Option.some.injEq, List.cons.injEq] at read
  exact read.1.symm

theorem tokens_ne_nil (e : Expr Op Leaf) : e.tokens ≠ [] := by
  cases e <;> exact List.cons_ne_nil _ _

section Leaves

def Token.leaf? : Token Op Leaf → Option Leaf
  | op _ => none
  | leaf l => some l

def leaves (w : List (Token Op Leaf)) : List Leaf := w.filterMap Token.leaf?

theorem length_tokens (e : Expr Op Leaf) : e.tokens.length + 1 = 2 * (leaves e.tokens).length := by
  induction e with
  | leaf l => rfl
  | node o left right ihl ihr =>
      have parts : leaves (Expr.node o left right).tokens = leaves left.tokens ++ leaves right.tokens := by
        rw [Expr.tokens, leaves, List.filterMap_cons_none (rfl : Token.leaf? (.op o : Token Op Leaf) = none),
          List.filterMap_append]
        rfl
      rw [parts, List.length_append, Expr.tokens, List.length_cons, List.length_append]
      omega

end Leaves

end Zcm.Lib.Prefix
