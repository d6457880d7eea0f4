import Mathlib.Data.Fintype.Card
import Mathlib.Data.Set.Finite.Basic
import Mathlib.Logic.Relation
import Mathlib.Order.WellFounded

namespace Zcm.Lib

variable {α : Type*} {r : α → α → Prop}

theorem exists_cycle {s : List α} (some : s ≠ []) (successor : ∀ a ∈ s, ∃ b ∈ s, r a b) :
    ∃ a ∈ s, Relation.TransGen r a a := by
  by_contra acyclic
  push Not at acyclic
  let after (b a : {a // a ∈ s}) : Prop := Relation.TransGen r a.1 b.1
  have trans : IsTrans {a // a ∈ s} after := ⟨fun _ _ _ first second => second.trans first⟩
  have irrefl : Std.Irrefl after := ⟨fun a => acyclic a.1 a.2⟩
  have finite : Finite {a // a ∈ s} := s.finite_toSet.to_subtype
  have founded := Finite.wellFounded_of_trans_of_irrefl after
  obtain ⟨first, member⟩ := List.exists_mem_of_ne_nil s some
  obtain ⟨last, -, least⟩ := founded.has_min Set.univ ⟨⟨first, member⟩, trivial⟩
  obtain ⟨b, inside, edge⟩ := successor last.1 last.2
  exact least ⟨b, inside⟩ trivial (.single edge)

theorem not_transGen_of_layers {layer : Nat → α → Prop}
    (descends : ∀ a b, r a b → ∀ i, layer i a → ∃ j < i, layer j b)
    {a : α} {i : Nat} (placed : layer i a) : ¬ Relation.TransGen r a a := by
  intro cycle
  have along (b : α) (path : Relation.TransGen r a b) : ∀ i, layer i a → ∃ j < i, layer j b := by
    induction path with
    | single edge => exact descends _ _ edge
    | tail _ edge ih =>
        intro i placed
        obtain ⟨j, less, there⟩ := ih i placed
        obtain ⟨k, less', here⟩ := descends _ _ edge j there
        exact ⟨k, less'.trans less, here⟩
  induction i using Nat.strongRecOn with
  | _ i ih =>
      obtain ⟨j, less, there⟩ := along a cycle i placed
      exact ih j less there

end Zcm.Lib
