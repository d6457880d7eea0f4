import Mathlib.Logic.Function.Basic
import Mathlib.Tactic.Common

namespace Zcm.Lib.FreeList

variable {α : Type} {next next' : α → Option α}

inductive Chain (next : α → Option α) : Option α → List α → Prop
  | nil : Chain next none []
  | cons {a : α} {as : List α} (rest : Chain next (next a) as) : Chain next (some a) (a :: as)

theorem Chain.congr {head : Option α} {as : List α} (chain : Chain next head as)
    (same : ∀ a ∈ as, next a = next' a) :
    Chain next' head as := by
  induction chain with
  | nil => exact .nil
  | @cons a as rest ih =>
      rw [same a List.mem_cons_self] at ih
      exact .cons (ih fun b member => same b (List.mem_cons_of_mem _ member))

theorem Chain.of_some {a : α} {as : List α} (chain : Chain next (some a) as) :
    ∃ rest, as = a :: rest ∧ Chain next (next a) rest := by
  cases chain with
  | cons rest => exact ⟨_, rfl, rest⟩

variable [DecidableEq α]

theorem Chain.write {head : Option α} {as : List α} (chain : Chain next head as) {a : α} (apart : a ∉ as)
    (link : Option α) : Chain (Function.update next a link) head as := by
  apply chain.congr
  intro b member
  rw [Function.update_of_ne]
  rintro rfl
  exact apart member

theorem Chain.push {head : Option α} {as : List α} (chain : Chain next head as) {a : α} (apart : a ∉ as) :
    Chain (Function.update next a head) (some a) (a :: as) := by
  refine .cons ?_
  rw [Function.update_self]
  exact chain.write apart head

end Zcm.Lib.FreeList
