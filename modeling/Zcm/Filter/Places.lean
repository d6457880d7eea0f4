import Zcm.Filter.Options

namespace Zcm.Filter
open Zcm.Lib

section Setters

variable {Double Data ε : Type}

theorem orMessage_map {α β : Type} (message : String) (g : α → β) (x : Except Failed α) :
    orMessage message (x.map g) = (orMessage message x).map g := by
  obtain (_ | _) | _ := x <;> rfl

namespace ConditionPtr

theorem set_orMessage (message : String) (p : ConditionPtr Double Data)
    (f : SimpleCondition Double Data → Except Failed (SimpleCondition Double Data)) :
    orMessage message (p.set f) = p.set fun c => orMessage message (f c) := by
  induction p with
  | null | simple c => exact orMessage_map _ _ _
  | compound _and cond1 cond2 ih1 ih2 =>
      rw [set, set]
      split
      · rw [orMessage_map, ih1]
      · rw [orMessage_map, ih2]

theorem set_isFullySpecified {f : SimpleCondition Double Data → Except ε (SimpleCondition Double Data)}
    (keeps : ∀ {c c'}, f c = .ok c' → c'.isConfigured = c.isConfigured) {p p' : ConditionPtr Double Data}
    (set : p.set f = .ok p') : p'.isFullySpecified = p.isFullySpecified := by
  induction p generalizing p' with
  | null =>
      obtain ⟨c, done, rfl⟩ := map_ok.mp set
      exact keeps done
  | simple c =>
      obtain ⟨c', done, rfl⟩ := map_ok.mp set
      exact keeps done
  | compound _and cond1 cond2 ih1 ih2 =>
      rw [ConditionPtr.set] at set
      split at set
      · obtain ⟨cond1', done, rfl⟩ := map_ok.mp set
        rw [isFullySpecified, isFullySpecified, ih1 done]
      · obtain ⟨cond2', done, rfl⟩ := map_ok.mp set
        rw [isFullySpecified, isFullySpecified, ih2 done]

theorem set_bind {f : SimpleCondition Double Data → Except ε (SimpleCondition Double Data)}
    (g : SimpleCondition Double Data → Except ε (SimpleCondition Double Data))
    (keeps : ∀ {c c'}, f c = .ok c' → c'.isConfigured = c.isConfigured) (p : ConditionPtr Double Data) :
    (p.set f >>= fun p => p.set g) = p.set fun c => f c >>= g := by
  induction p with
  | null =>
      rw [set, set]
      cases f {} <;> rfl
  | simple c =>
      rw [set, set]
      cases f c <;> rfl
  | compound _and cond1 cond2 ih1 ih2 =>
      rw [set, set]
      cases full : cond1.isFullySpecified with
      | false =>
          simp only [Bool.not_false, if_true]
          rw [← ih1]
          cases done : cond1.set f with
          | error _ => rfl
          | ok cond1' =>
              change set g (compound _and cond1' cond2) = (cond1'.set g).map _
              rw [set, set_isFullySpecified keeps done, full]
              rfl
      | true =>
          simp only [Bool.not_true, Bool.false_eq_true, if_false]
          rw [← ih2]
          cases done : cond2.set f with
          | error _ => rfl
          | ok cond2' =>
              change set g (compound _and cond1 cond2') = (cond2'.set g).map _
              rw [set, full]
              rfl

end ConditionPtr

end Setters

section Places

variable {Double Data ε : Type}

namespace ConditionPtr

def places : Nat → ConditionPtr Double Data → List Nat
  | level, null => [level]
  | _, simple _ => []
  | level, compound _ cond1 cond2 => places (level + 1) cond1 ++ places (level + 1) cond2

def fill : ConditionPtr Double Data → List (ConditionPtr Double Data) →
    ConditionPtr Double Data × List (ConditionPtr Double Data)
  | null, [] => (null, [])
  | null, t :: ts => (t, ts)
  | simple c, ts => (simple c, ts)
  | compound _and cond1 cond2, ts =>
      let (cond1, ts) := fill cond1 ts
      let (cond2, ts) := fill cond2 ts
      (compound _and cond1 cond2, ts)

def Settled : ConditionPtr Double Data → Prop
  | null => True
  | simple c => c.type ≠ none ∧ c.isConfigured = true
  | compound _ cond1 cond2 => cond1.Settled ∧ cond2.Settled

theorem isFullySpecified_iff {level : Nat} {p : ConditionPtr Double Data} (settled : p.Settled) :
    p.isFullySpecified = true ↔ p.places level = [] := by
  induction p generalizing level with
  | null => simp [isFullySpecified, places]
  | simple c => simp [isFullySpecified, places, settled.2]
  | compound _and cond1 cond2 ih1 ih2 =>
      rw [isFullySpecified, Bool.and_eq_true, ih1 settled.1, ih2 settled.2, places, List.append_eq_nil_iff]

theorem fill_nil (p : ConditionPtr Double Data) : p.fill [] = (p, []) := by
  induction p with
  | null | simple c => rfl
  | compound _and cond1 cond2 ih1 ih2 =>
      rw [fill, ih1]
      dsimp only
      rw [ih2]

theorem fill_full {level : Nat} {p : ConditionPtr Double Data} (full : p.places level = [])
    (ts : List (ConditionPtr Double Data)) : p.fill ts = (p, ts) := by
  induction p generalizing level with
  | null => exact absurd full (List.cons_ne_nil _ _)
  | simple c => rfl
  | compound _and cond1 cond2 ih1 ih2 =>
      obtain ⟨full1, full2⟩ := List.append_eq_nil_iff.mp full
      rw [fill, ih1 full1]
      dsimp only
      rw [ih2 full2]

theorem le_of_mem_places {level place : Nat} {p : ConditionPtr Double Data} (mem : place ∈ p.places level) :
    level ≤ place := by
  induction p generalizing level with
  | null => exact (List.mem_singleton.mp mem).ge
  | simple c => exact absurd mem List.not_mem_nil
  | compound _and cond1 cond2 ih1 ih2 =>
      obtain mem | mem := List.mem_append.mp mem
      · exact Nat.le_of_succ_le (ih1 mem)
      · exact Nat.le_of_succ_le (ih2 mem)

section Leaf

variable {f : SimpleCondition Double Data → Except ε (SimpleCondition Double Data)}
  (typed : ∀ {c}, c.type ≠ none → ∃ e, f c = .error e)
include typed

theorem set_full {level : Nat} {p : ConditionPtr Double Data} (settled : p.Settled) (full : p.places level = []) :
    ∃ e, p.set f = .error e := by
  induction p generalizing level with
  | null => exact absurd full (List.cons_ne_nil _ _)
  | simple c =>
      obtain ⟨e, refused⟩ := typed settled.1
      exact ⟨e, by rw [set, refused]; rfl⟩
  | compound _and cond1 cond2 ih1 ih2 =>
      obtain ⟨full1, full2⟩ := List.append_eq_nil_iff.mp full
      obtain ⟨e, refused⟩ := ih2 settled.2 full2
      refine ⟨e, ?_⟩
      rw [set, (isFullySpecified_iff settled.1).mpr full1, refused]
      rfl

theorem set_refused {e : ε} (refused : f {} = .error e) {p : ConditionPtr Double Data} (settled : p.Settled) :
    ∃ e, p.set f = .error e := by
  induction p with
  | null => exact ⟨e, by rw [set, refused]; rfl⟩
  | simple c =>
      obtain ⟨e, refused⟩ := typed settled.1
      exact ⟨e, by rw [set, refused]; rfl⟩
  | compound _and cond1 cond2 ih1 ih2 =>
      rw [set]
      split
      · obtain ⟨e, refused⟩ := ih1 settled.1
        exact ⟨e, by rw [refused]; rfl⟩
      · obtain ⟨e, refused⟩ := ih2 settled.2
        exact ⟨e, by rw [refused]; rfl⟩

omit typed in
theorem set_place {c : SimpleCondition Double Data} (new : f {} = .ok c)
    (ready : c.type ≠ none ∧ c.isConfigured = true)
    {level place : Nat} {rest : List Nat} {p : ConditionPtr Double Data} (settled : p.Settled)
    (first : p.places level = place :: rest) :
    ∃ p', p.set f = .ok p' ∧ p'.Settled ∧ p'.places level = rest ∧
      ∀ ts, p'.fill ts = p.fill (simple c :: ts) := by
  induction p generalizing level rest with
  | null =>
      obtain ⟨-, rfl⟩ := List.cons.inj first
      exact ⟨simple c, by rw [set, new]; rfl, ready, rfl, fun ts => rfl⟩
  | simple c => exact absurd first (List.cons_ne_nil _ _).symm
  | compound _and cond1 cond2 ih1 ih2 =>
      cases first1 : cond1.places (level + 1) with
      | nil =>
          rw [places, first1, List.nil_append] at first
          obtain ⟨cond2', done, settled', places', filled⟩ := ih2 settled.2 first
          refine ⟨compound _and cond1 cond2', ?_, ⟨settled.1, settled'⟩, ?_, fun ts => ?_⟩
          · rw [set, (isFullySpecified_iff settled.1).mpr first1, done]
            rfl
          · rw [places, first1, places', List.nil_append]
          · rw [fill, fill, fill_full first1, fill_full first1]
            dsimp only
            rw [filled]
      | cons place' rest1 =>
          rw [places, first1, List.cons_append, List.cons.injEq] at first
          obtain ⟨rfl, rfl⟩ := first
          obtain ⟨cond1', done, settled', places', filled⟩ := ih1 settled.1 first1
          have open1 : cond1.isFullySpecified = false := by
            rw [← Bool.not_eq_true, isFullySpecified_iff settled.1, first1]
            exact List.cons_ne_nil _ _
          refine ⟨compound _and cond1' cond2, ?_, ⟨settled', settled.2⟩, ?_, fun ts => ?_⟩
          · rw [set, open1, done]
            rfl
          · rw [places, places']
          · rw [fill, fill, filled]

end Leaf

section Compound

theorem deeper {level place : Nat} {rest : List Nat} {p : ConditionPtr Double Data} (present : p ≠ null)
    (first : p.places level = place :: rest) : level < place := by
  cases p with
  | null => exact absurd rfl present
  | simple c => exact absurd first (List.cons_ne_nil _ _).symm
  | compound _and cond1 cond2 =>
      have mem : place ∈ (compound _and cond1 cond2).places level := by
        rw [first]
        exact List.mem_cons_self
      obtain mem | mem := List.mem_append.mp mem
      · exact le_of_mem_places mem
      · exact le_of_mem_places mem

theorem orCompound_of_ne {p : ConditionPtr Double Data} (present : p ≠ null) (_and : Bool) :
    p.orCompound _and = p := by
  cases p with
  | null => exact absurd rfl present
  | simple c => rfl
  | compound _ _ _ => rfl

theorem addCompound_null (_and or' : Bool) (cond2 : ConditionPtr Double Data) :
    (compound or' null cond2).addCompound _and = compound or' (compound _and null null) cond2 := rfl

theorem addCompound_open (_and or' : Bool) {cond1 : ConditionPtr Double Data} (cond2 : ConditionPtr Double Data)
    (present : cond1 ≠ null) (open1 : cond1.isFullySpecified = false) :
    (compound or' cond1 cond2).addCompound _and = compound or' cond1 cond2 := by
  rw [addCompound, setCompound, orCompound_of_ne present, open1]
  · rfl
  · exact nofun

theorem addCompound_full (_and or' : Bool) {cond1 : ConditionPtr Double Data} (cond2 : ConditionPtr Double Data)
    (full1 : cond1.isFullySpecified = true) :
    (compound or' cond1 cond2).addCompound _and = compound or' cond1 (cond2.orCompound _and) := by
  have present : cond1 ≠ null := by
    rintro rfl
    exact Bool.false_ne_true full1
  rw [addCompound, setCompound, orCompound_of_ne present, full1]
  · rfl
  · exact nofun

theorem addCompound_place (_and : Bool) {place : Nat} {rest : List Nat} {p : ConditionPtr Double Data}
    (settled : p.Settled) (first : p.places 0 = place :: rest) (reached : place < 2) :
    (p.addCompound _and).Settled ∧ (p.addCompound _and).places 0 = (place + 1) :: (place + 1) :: rest ∧
      ∀ t1 t2 ts, (p.addCompound _and).fill (t1 :: t2 :: ts) = p.fill (compound _and t1 t2 :: ts) := by
  cases p with
  | null =>
      obtain ⟨rfl, rfl⟩ := List.cons.inj first
      exact ⟨⟨trivial, trivial⟩, rfl, fun t1 t2 ts => rfl⟩
  | simple c => exact absurd first (List.cons_ne_nil _ _).symm
  | compound or' cond1 cond2 =>
      rw [places] at first
      cases first1 : cond1.places 1 with
      | cons place1 rest1 =>
          rw [first1, List.cons_append, List.cons.injEq] at first
          obtain ⟨rfl, rfl⟩ := first
          -- Only an empty `cond1` has an empty place at this level.
          have empty : cond1 = null := by
            by_contra present
            have := deeper present first1
            omega
          subst empty
          obtain ⟨rfl, rfl⟩ := List.cons.inj first1
          rw [addCompound_null]
          exact ⟨⟨⟨trivial, trivial⟩, settled.2⟩, rfl, fun t1 t2 ts => rfl⟩
      | nil =>
          rw [first1, List.nil_append] at first
          have empty : cond2 = null := by
            by_contra present
            have := deeper present first
            omega
          subst empty
          obtain ⟨rfl, rfl⟩ := List.cons.inj first
          rw [addCompound_full _ _ _ ((isFullySpecified_iff settled.1).mpr first1)]
          refine ⟨⟨settled.1, trivial, trivial⟩, ?_, fun t1 t2 ts => ?_⟩
          · rw [places, first1]
            rfl
          · rw [fill, fill, fill_full first1, fill_full first1]
            rfl

theorem addCompound_ignored (_and : Bool) {p : ConditionPtr Double Data} (settled : p.Settled)
    (unreached : ∀ place rest, p.places 0 = place :: rest → 2 ≤ place) : p.addCompound _and = p := by
  cases p with
  | null => exact absurd (unreached 0 [] rfl) (by decide)
  | simple c => rfl
  | compound or' cond1 cond2 =>
      rw [places] at unreached
      cases first1 : cond1.places 1 with
      | cons place1 rest1 =>
          refine addCompound_open _ _ _ ?_ ?_
          · rintro rfl
            exact absurd (unreached 1 _ rfl) (by decide)
          · rw [← Bool.not_eq_true, isFullySpecified_iff settled.1, first1]
            exact List.cons_ne_nil _ _
      | nil =>
          rw [addCompound_full _ _ _ ((isFullySpecified_iff settled.1).mpr first1), orCompound_of_ne]
          rintro rfl
          rw [first1] at unreached
          exact absurd (unreached 1 [] rfl) (by decide)

end Compound

end ConditionPtr

end Places

end Zcm.Filter
