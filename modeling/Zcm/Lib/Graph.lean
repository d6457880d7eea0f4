import Mathlib.Data.List.Basic
import Mathlib.Logic.Relation

namespace Zcm.Lib

structure Graph (α : Type*) where
  nodes : List α
  successors : α → List α
  closed : ∀ a ∈ nodes, ∀ b ∈ successors a, b ∈ nodes

namespace Graph
variable {α β : Type*}

def Reaches (g : Graph α) : α → α → Prop := Relation.ReflTransGen (fun a b => b ∈ g.successors a)

/-- Nothing reached from the node lies on a cycle of more than one node. -/
def Untangled (g : Graph α) (a : α) : Prop :=
  ∀ b c, g.Reaches a b → g.Reaches b c → g.Reaches c b → b = c

theorem Untangled.reached {g : Graph α} {a b : α} (untangled : g.Untangled a) (reached : g.Reaches a b) :
    g.Untangled b :=
  fun c d first => untangled c d (reached.trans first)

theorem reaches_successor {g : Graph α} {a b : α} (edge : b ∈ g.successors a) : g.Reaches a b :=
  Relation.ReflTransGen.single edge

variable [DecidableEq α]

def foldWithin (g : Graph α) (combine : α → List β → β) (cut : β) : Nat → List α → α → β
  | 0, _, _ => cut
  | depth + 1, path, a =>
      if a ∈ path then cut
      else combine a ((g.successors a).map (g.foldWithin combine cut depth (a :: path)))

def fold (g : Graph α) (combine : α → List β → β) (cut : β) (path : List α) (a : α) : β :=
  g.foldWithin combine cut (g.nodes.length + 1) path a

def fresh (g : Graph α) (path : List α) : Nat := (g.nodes.filter (· ∉ path)).length

theorem fresh_le (g : Graph α) (path : List α) : g.fresh path ≤ g.nodes.length :=
  List.length_filter_le _ _

theorem fresh_cons_lt (g : Graph α) {path : List α} {a : α} (node : a ∈ g.nodes) (new : a ∉ path) :
    g.fresh (a :: path) < g.fresh path := by
  have split : g.nodes.filter (· ∉ a :: path) = (g.nodes.filter (· ∉ path)).filter (· ≠ a) := by
    rw [List.filter_filter]
    apply List.filter_congr
    intro b _
    simp [List.mem_cons, not_or]
  rw [fresh, fresh, split]
  apply Nat.lt_of_le_of_ne (List.length_filter_le _ _)
  intro same
  have all := List.length_filter_eq_length_iff.mp same a (List.mem_filter.mpr ⟨node, by simpa using new⟩)
  simp at all

theorem foldWithin_stable (g : Graph α) (combine : α → List β → β) (cut : β) {depth deeper : Nat}
    {path : List α} {a : α} (node : a ∈ g.nodes) (enough : g.fresh path < depth) (more : g.fresh path < deeper) :
    g.foldWithin combine cut depth path a = g.foldWithin combine cut deeper path a := by
  induction depth generalizing deeper path a with
  | zero => exact absurd enough (Nat.not_lt_zero _)
  | succ depth ih =>
      cases deeper with
      | zero => exact absurd more (Nat.not_lt_zero _)
      | succ deeper =>
          simp only [foldWithin]
          by_cases met : a ∈ path
          · simp only [met, if_true]
          · simp only [met, if_false]
            congr 1
            apply List.map_congr_left
            intro b edge
            have fewer := g.fresh_cons_lt node met
            exact ih (g.closed a node b edge) (by omega) (by omega)

theorem fold_met (g : Graph α) (combine : α → List β → β) (cut : β) {path : List α} {a : α}
    (met : a ∈ path) :
    g.fold combine cut path a = cut := by
  rw [fold, foldWithin, if_pos met]

theorem fold_new (g : Graph α) (combine : α → List β → β) (cut : β) {path : List α} {a : α}
    (node : a ∈ g.nodes) (new : a ∉ path) :
    g.fold combine cut path a = combine a ((g.successors a).map (g.fold combine cut (a :: path))) := by
  rw [fold, foldWithin, if_neg new]
  congr 1
  apply List.map_congr_left
  intro b edge
  have fewer := g.fresh_cons_lt node new
  have bound := g.fresh_le path
  exact g.foldWithin_stable combine cut (g.closed a node b edge) (by omega) (by omega)

theorem fold_congr (g : Graph α) (combine : α → List β → β) (cut : β) {path path' : List α} {a : α}
    (same : ∀ b, g.Reaches a b → (b ∈ path ↔ b ∈ path')) :
    g.fold combine cut path a = g.fold combine cut path' a := by
  unfold fold
  generalize g.nodes.length + 1 = depth
  induction depth generalizing path path' a with
  | zero => rfl
  | succ depth ih =>
      simp only [foldWithin, same a .refl]
      by_cases met : a ∈ path'
      · simp only [met, if_true]
      · simp only [met, if_false]
        congr 1
        apply List.map_congr_left
        intro b edge
        apply ih
        intro c reached
        rw [List.mem_cons, List.mem_cons, same c ((reaches_successor edge).trans reached)]

end Graph

end Zcm.Lib
