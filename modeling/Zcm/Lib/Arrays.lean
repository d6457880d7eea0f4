import Mathlib.Data.List.Forall2
import Mathlib.Data.List.Nodup

namespace Zcm.Lib

section Indices

abbrev Within (is ns : List Nat) : Prop := List.Forall₂ (· < ·) is ns

variable {ns ns' : List Nat}

theorem within_zeros (positive : 0 ∉ ns) : Within (ns.map fun _ => 0) ns := by
  induction ns with
  | nil => exact .nil
  | cons n ns ih =>
      have first : 0 < n := Nat.pos_of_ne_zero fun zero => positive (zero ▸ List.mem_cons_self)
      exact .cons first (ih fun later => positive (List.mem_cons_of_mem _ later))

theorem within_last (positive : 0 ∉ ns) : Within (ns.map (· - 1)) ns := by
  induction ns with
  | nil => exact .nil
  | cons n ns ih =>
      have first : 0 < n := Nat.pos_of_ne_zero fun zero => positive (zero ▸ List.mem_cons_self)
      exact .cons (Nat.sub_lt first Nat.one_pos) (ih fun later => positive (List.mem_cons_of_mem _ later))

theorem Within.positive {is : List Nat} (within : Within is ns) : 0 ∉ ns := by
  induction within with
  | nil => exact List.not_mem_nil
  | cons first _ ih =>
      intro zero
      rcases List.mem_cons.mp zero with rfl | later
      · exact absurd first (Nat.not_lt_zero _)
      · exact ih later

theorem forall₂_le_of_last (positive : 0 ∉ ns) (within : Within (ns.map (· - 1)) ns') :
    List.Forall₂ (· ≤ ·) ns ns' := by
  induction ns generalizing ns' with
  | nil =>
      cases within
      exact .nil
  | cons n ns ih =>
      cases within with
      | cons first rest =>
          exact .cons (Nat.le_of_pred_lt first) (ih (fun later => positive (List.mem_cons_of_mem _ later)) rest)

theorem forall₂_le_antisymm (le : List.Forall₂ (· ≤ ·) ns ns') (ge : List.Forall₂ (· ≤ ·) ns' ns) :
    ns = ns' := by
  induction le with
  | nil => rfl
  | cons first _ ih =>
      cases ge with
      | cons first' rest => rw [Nat.le_antisymm first first', ih rest]

theorem sizes_eq (same : ∀ is, Within is ns ↔ Within is ns') : ns = ns' ∨ 0 ∈ ns ∧ 0 ∈ ns' := by
  by_cases positive : 0 ∈ ns
  · refine .inr ⟨positive, ?_⟩
    by_contra positive'
    exact ((same _).mpr (within_zeros positive')).positive positive
  · have last := (same _).mp (within_last positive)
    have last' := (same _).mpr (within_last last.positive)
    exact .inl (forall₂_le_antisymm (forall₂_le_of_last positive last) (forall₂_le_of_last last.positive last'))

theorem rows_one {n : Nat} (positive : 0 ∉ ns ++ [n])
    (same : ∀ is js i, Within (is ++ [i]) (ns ++ [n]) → Within (js ++ [i]) (ns ++ [n]) → is = js) :
    ∀ row ∈ ns, row = 1 := by
  have rows : 0 ∉ ns := fun zero => positive (List.mem_append_left _ zero)
  have first : 0 < n := Nat.pos_of_ne_zero fun zero => positive (by simp [zero])
  have agree := same _ _ 0 (List.rel_append (within_zeros rows) (.cons first .nil))
    (List.rel_append (within_last rows) (.cons first .nil))
  intro row inRows
  have one : 0 = row - 1 := List.map_inj_left.mp agree row inRows
  have some : row ≠ 0 := fun zero => rows (zero ▸ inRows)
  omega

def indices : List Nat → List (List Nat)
  | [] => [[]]
  | n :: ns => (List.range n).flatMap fun i => (indices ns).map (i :: ·)

theorem mem_indices {is : List Nat} : is ∈ indices ns ↔ Within is ns := by
  induction ns generalizing is with
  | nil => simp [indices]
  | cons n ns ih =>
      simp only [indices, List.mem_flatMap, List.mem_range, List.mem_map]
      constructor
      · rintro ⟨i, first, js, rest, rfl⟩
        exact .cons first (ih.mp rest)
      · intro within
        cases within with
        | cons first rest => exact ⟨_, first, _, ih.mpr rest, rfl⟩

theorem nodup_indices (ns : List Nat) : (indices ns).Nodup := by
  induction ns with
  | nil => exact List.nodup_singleton _
  | cons n ns ih =>
      refine List.nodup_flatMap.mpr ⟨fun i _ => ih.map (List.cons_injective), ?_⟩
      refine List.Pairwise.imp ?_ (List.nodup_range (n := n))
      intro i j other js inFirst inSecond
      obtain ⟨_, _, rfl⟩ := List.mem_map.mp inFirst
      obtain ⟨_, _, same⟩ := List.mem_map.mp inSecond
      exact other (List.cons.inj same).1.symm

end Indices

section Blocks

variable {α β κ γ : Type} {mine : κ → γ → Prop} {xs : List α} {ys : List β} {f : α → List γ}
  {g : β → List γ} {key : α → κ} {key' : β → κ}

open Classical in
theorem filter_blocks (apart : ∀ k k' c, mine k c → mine k' c → k = k')
    (own : ∀ x ∈ xs, ∀ c ∈ f x, mine (key x) c)
    (once : (xs.map key).Nodup) {x : α} (here : x ∈ xs) : (xs.flatMap f).filter (mine (key x)) = f x := by
  have others {zs : List α} (owned : ∀ z ∈ zs, ∀ c ∈ f z, mine (key z) c) (other : key x ∉ zs.map key) :
      (zs.flatMap f).filter (mine (key x)) = [] := by
    refine List.filter_eq_nil_iff.mpr fun c inBlocks mineToo => ?_
    obtain ⟨z, inList, inBlock⟩ := List.mem_flatMap.mp inBlocks
    have same := apart _ _ c (owned z inList c inBlock) (of_decide_eq_true mineToo)
    exact other (same ▸ List.mem_map_of_mem inList)
  induction xs with
  | nil => cases here
  | cons y ys ih =>
      rw [List.flatMap_cons, List.filter_append]
      obtain ⟨new, rest⟩ := List.nodup_cons.mp once
      have owned : ∀ z ∈ ys, ∀ c ∈ f z, mine (key z) c := fun z later => own z (List.mem_cons_of_mem _ later)
      rcases List.mem_cons.mp here with rfl | later
      · rw [others owned new, List.append_nil]
        exact List.filter_eq_self.mpr fun c inBlock => decide_eq_true (own x List.mem_cons_self c inBlock)
      · have first : (f y).filter (mine (key x)) = [] := by
          refine List.filter_eq_nil_iff.mpr fun c inBlock mineToo => ?_
          have same := apart _ _ c (own y List.mem_cons_self c inBlock) (of_decide_eq_true mineToo)
          exact new (same ▸ List.mem_map_of_mem later)
        rw [first, List.nil_append, ih owned rest later]

theorem block_perm (apart : ∀ k k' c, mine k c → mine k' c → k = k')
    (own : ∀ x ∈ xs, ∀ c ∈ f x, mine (key x) c)
    (own' : ∀ y ∈ ys, ∀ c ∈ g y, mine (key' y) c) (once : (xs.map key).Nodup) (once' : (ys.map key').Nodup)
    (same : (xs.flatMap f).Perm (ys.flatMap g)) {x : α} {y : β} (here : x ∈ xs) (there : y ∈ ys)
    (keys : key x = key' y) :
    (f x).Perm (g y) := by
  classical
  have filtered := same.filter (mine (key x))
  rw [filter_blocks apart own once here, keys, filter_blocks apart own' once' there] at filtered
  exact filtered

theorem block_key (apart : ∀ k k' c, mine k c → mine k' c → k = k')
    (own : ∀ x ∈ xs, ∀ c ∈ f x, mine (key x) c)
    (own' : ∀ y ∈ ys, ∀ c ∈ g y, mine (key' y) c) (same : (xs.flatMap f).Perm (ys.flatMap g)) {x : α}
    (here : x ∈ xs) (block : f x ≠ []) : ∃ y ∈ ys, key' y = key x := by
  obtain ⟨c, inBlock⟩ := List.exists_mem_of_ne_nil _ block
  obtain ⟨y, there, inOther⟩ := List.mem_flatMap.mp (same.mem_iff.mp (List.mem_flatMap.mpr ⟨x, here, inBlock⟩))
  exact ⟨y, there, apart _ _ c (own' y there c inOther) (own x here c inBlock)⟩

end Blocks

end Zcm.Lib
