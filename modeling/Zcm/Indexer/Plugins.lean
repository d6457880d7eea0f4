import Zcm.Lib.Cycles

namespace Zcm.Indexer
open Zcm.Lib

variable {α N : Type} [DecidableEq N]

structure PluginRuntimeInfo (α : Type) where
  plugin : α
  runThroughLog : Bool

inductive Result (α : Type)
  | groups (groups : List (List (PluginRuntimeInfo α)))
  -- `exit(1)` with the plugins that are left
  | unresolved (plugins : List α)

section Program

variable (name : α → N) (dependsOn : α → List N)

def dependsOnAny (p : α) (plugins : List α) : Bool := plugins.any fun q => name q ∈ dependsOn p

def pass : List α → List α → List (PluginRuntimeInfo α) → List α × List (PluginRuntimeInfo α)
  | skipped, [], group => (skipped, group)
  | skipped, p :: plugins, group =>
      let skipUntilLater := dependsOnAny name dependsOn p (skipped ++ p :: plugins) ||
        dependsOnAny name dependsOn p (group.map (·.plugin))
      if !skipUntilLater then pass skipped plugins (group ++ [⟨p, false⟩]) else pass (skipped ++ [p]) plugins group

variable [DecidableEq α]

def buildLoop : Nat → List (List (PluginRuntimeInfo α)) → List α → List α → Option (Result α)
  | 0, _, _, _ => none
  | rounds + 1, groups, prevLoopPlugins, plugins =>
      if plugins = [] then some (.groups groups)
      else
        let (plugins, group) := pass name dependsOn [] plugins []
        if plugins = prevLoopPlugins then some (.unresolved plugins)
        else buildLoop rounds (groups ++ [group]) plugins plugins

def buildPluginGroups (rounds : Nat) (plugins : List α) : Option (Result α) :=
  buildLoop name dependsOn rounds [] plugins plugins

end Program

section Meaning

variable (name : α → N) (dependsOn : α → List N) (plugins : List α)

def DependsOn (p q : α) : Prop := p ∈ plugins ∧ q ∈ plugins ∧ name q ∈ dependsOn p

def NoCycle : Prop := ∀ p, ¬ Relation.TransGen (DependsOn name dependsOn plugins) p p

def InGroup (groups : List (List (PluginRuntimeInfo α))) (i : Nat) (p : α) : Prop :=
  ∃ group, groups[i]? = some group ∧ p ∈ group.map (·.plugin)

/-- The groups have all plugins, each once, and every dependency of a plugin is in an earlier group. -/
structure Layered (groups : List (List (PluginRuntimeInfo α))) : Prop where
  once : (groups.flatten.map (·.plugin)).Perm plugins
  earlier : ∀ p q, DependsOn name dependsOn plugins p q → ∀ i, InGroup groups i p →
    ∃ j < i, InGroup groups j q

end Meaning

variable {name : α → N} {dependsOn : α → List N}

section Pass

theorem dependsOnAny_perm {p : α} {plugins plugins' : List α} (perm : plugins.Perm plugins') :
    dependsOnAny name dependsOn p plugins = dependsOnAny name dependsOn p plugins' :=
  perm.any_eq

theorem dependsOnAny_append (p : α) (plugins plugins' : List α) :
    (dependsOnAny name dependsOn p plugins || dependsOnAny name dependsOn p plugins') =
      dependsOnAny name dependsOn p (plugins ++ plugins') :=
  List.any_append.symm

theorem pass_eq {whole skipped plugins : List α} {group : List (PluginRuntimeInfo α)}
    (perm : (skipped ++ plugins ++ group.map (·.plugin)).Perm whole) :
    pass name dependsOn skipped plugins group =
      (skipped ++ plugins.filter (dependsOnAny name dependsOn · whole),
        group ++ (plugins.filter (!dependsOnAny name dependsOn · whole)).map (⟨·, false⟩)) := by
  induction plugins generalizing skipped group with
  | nil => simp [pass]
  | cons p plugins ih =>
      rw [pass]
      simp only [dependsOnAny_append, dependsOnAny_perm perm]
      cases waits : dependsOnAny name dependsOn p whole with
      | true =>
          rw [if_neg (by simp), ih (by simpa using perm)]
          simp [waits]
      | false =>
          rw [if_pos (by rfl), ih]
          · simp [waits]
          · refine .trans ?_ perm
            rw [List.map_append, List.map_singleton, List.append_assoc, List.append_assoc]
            apply List.Perm.append_left
            rw [List.cons_append]
            exact (List.append_assoc plugins _ _ ▸ List.perm_append_singleton p _)

end Pass

section Layers

variable {plugins : List α} {groups : List (List (PluginRuntimeInfo α))}

omit [DecidableEq N] in
theorem layered_nil : Layered name dependsOn [] [] where
  once := .refl _
  earlier := fun _ _ edge => absurd edge.1 List.not_mem_nil

theorem inGroup_zero {group : List (PluginRuntimeInfo α)} {p : α} :
    InGroup (group :: groups) 0 p ↔ p ∈ group.map (·.plugin) := by
  simp [InGroup]

theorem inGroup_succ {group : List (PluginRuntimeInfo α)} {i : Nat} {p : α} :
    InGroup (group :: groups) (i + 1) p ↔ InGroup groups i p := by
  simp [InGroup]

theorem exists_inGroup {p : α} (member : p ∈ groups.flatten.map (·.plugin)) : ∃ i, InGroup groups i p := by
  obtain ⟨info, inside, rfl⟩ := List.mem_map.mp member
  obtain ⟨group, here, inGroup⟩ := List.mem_flatten.mp inside
  obtain ⟨i, there⟩ := List.mem_iff_getElem?.mp here
  exact ⟨i, group, there, List.mem_map_of_mem inGroup⟩

theorem Layered.cons (layered : Layered name dependsOn
    (plugins.filter (dependsOnAny name dependsOn · plugins)) groups) :
    Layered name dependsOn plugins
      ((plugins.filter (!dependsOnAny name dependsOn · plugins)).map (PluginRuntimeInfo.mk · false) :: groups) where
  once := by
    rw [List.flatten_cons, List.map_append, List.map_map]
    refine (List.Perm.append (List.Perm.of_eq (List.map_id _)) layered.once).trans ?_
    exact List.perm_append_comm.trans (List.filter_append_perm _ plugins)
  earlier := by
    rintro p q ⟨present, present', named⟩ i placed
    have waits : dependsOnAny name dependsOn p plugins = true :=
      List.any_eq_true.mpr ⟨q, present', decide_eq_true named⟩
    cases i with
    | zero =>
        have first := inGroup_zero.mp placed
        simp [waits] at first
    | succ i =>
        have later := inGroup_succ.mp placed
        by_cases waits' : dependsOnAny name dependsOn q plugins = true
        · have edge : DependsOn name dependsOn (plugins.filter (dependsOnAny name dependsOn · plugins)) p q :=
            ⟨List.mem_filter.mpr ⟨present, waits⟩, List.mem_filter.mpr ⟨present', waits'⟩, named⟩
          obtain ⟨j, less, there⟩ := layered.earlier p q edge i later
          exact ⟨j + 1, by omega, inGroup_succ.mpr there⟩
        · refine ⟨0, by omega, inGroup_zero.mpr ?_⟩
          simpa [present'] using waits'

theorem buildLoop_ends [DecidableEq α] (groups : List (List (PluginRuntimeInfo α))) (plugins : List α) :
    ∃ result, (∀ rounds, plugins.length < rounds →
        buildLoop name dependsOn rounds groups plugins plugins = some result) ∧
      match result with
      | .groups built => ∃ more, built = groups ++ more ∧ Layered name dependsOn plugins more
      | .unresolved left => left ≠ [] ∧ ∀ p ∈ left, ∃ q ∈ left, DependsOn name dependsOn plugins p q := by
  induction length : plugins.length using Nat.strongRecOn generalizing groups plugins with
  | _ n ih =>
      by_cases done : plugins = []
      · subst done
        refine ⟨.groups groups, fun rounds enough => ?_, [], (List.append_nil _).symm, layered_nil⟩
        obtain ⟨rounds, rfl⟩ := Nat.exists_eq_add_of_lt enough
        rfl
      · have parts := @pass_eq _ _ _ name dependsOn _ [] _ []
          (List.Perm.of_eq (List.append_nil plugins))
        rw [List.nil_append, List.nil_append] at parts
        have step (rounds : Nat) : buildLoop name dependsOn (rounds + 1) groups plugins plugins =
            if plugins.filter (dependsOnAny name dependsOn · plugins) = plugins then some (.unresolved plugins)
            else buildLoop name dependsOn rounds (groups ++
                [(plugins.filter (!dependsOnAny name dependsOn · plugins)).map (PluginRuntimeInfo.mk · false)])
              (plugins.filter (dependsOnAny name dependsOn · plugins))
              (plugins.filter (dependsOnAny name dependsOn · plugins)) := by
          rw [buildLoop, if_neg done]
          simp only [parts]
          split
          next all => rw [all]
          next => rfl
        by_cases stuck : plugins.filter (dependsOnAny name dependsOn · plugins) = plugins
        · refine ⟨.unresolved plugins, fun rounds enough => ?_, done, fun p present => ?_⟩
          · obtain ⟨rounds, rfl⟩ := Nat.exists_eq_succ_of_ne_zero (Nat.ne_of_gt (Nat.zero_lt_of_lt enough))
            rw [step, if_pos stuck]
          · obtain ⟨q, present', named⟩ := List.any_eq_true.mp (List.filter_eq_self.mp stuck p present)
            exact ⟨q, present', present, present', of_decide_eq_true named⟩
        · have fewer : (plugins.filter (dependsOnAny name dependsOn · plugins)).length < n := by
            rw [← length]
            exact Nat.lt_of_le_of_ne (List.length_filter_le _ _)
              fun same => stuck (List.filter_eq_self.mpr (List.length_filter_eq_length_iff.mp same))
          obtain ⟨result, ends, meaning⟩ := ih _ fewer (groups ++
            [(plugins.filter (!dependsOnAny name dependsOn · plugins)).map (PluginRuntimeInfo.mk · false)]) _ rfl
          refine ⟨result, fun rounds enough => ?_, ?_⟩
          · obtain ⟨rounds, rfl⟩ := Nat.exists_eq_succ_of_ne_zero (Nat.ne_of_gt (Nat.zero_lt_of_lt enough))
            rw [step, if_neg stuck]
            exact ends rounds (by omega)
          · cases result with
            | groups built =>
                obtain ⟨more, rfl, layered⟩ := meaning
                exact ⟨_ :: more, List.append_assoc _ _ _, layered.cons⟩
            | unresolved left =>
                obtain ⟨some, waits⟩ := meaning
                refine ⟨some, fun p present => ?_⟩
                obtain ⟨q, present', edge⟩ := waits p present
                exact ⟨q, present', List.mem_of_mem_filter edge.1, List.mem_of_mem_filter edge.2.1, edge.2.2⟩

end Layers

/-- The grouping ends for every set of plugins. It succeeds exactly without cycles, and then its groups are layers. -/
theorem buildPluginGroups_layers [DecidableEq α] (name : α → N) (dependsOn : α → List N) (plugins : List α) :
    ∃ result, (∀ rounds, plugins.length < rounds →
      buildPluginGroups name dependsOn rounds plugins = some result) ∧
      ((∃ groups, result = .groups groups) ↔ NoCycle name dependsOn plugins) ∧
      ∀ groups, result = .groups groups → Layered name dependsOn plugins groups := by
  obtain ⟨result, ends, meaning⟩ := (@buildLoop_ends _ _ _ name dependsOn) [] plugins
  refine ⟨result, ends, ?_⟩
  cases result with
  | groups built =>
      obtain ⟨more, rfl, layered⟩ := meaning
      refine ⟨iff_of_true ⟨_, rfl⟩ fun p cycle => ?_, fun groups same => ?_⟩
      · have present : p ∈ plugins := by
          obtain ⟨q, edge, -⟩ := Relation.TransGen.head'_iff.mp cycle
          exact edge.1
        obtain ⟨i, placed⟩ := exists_inGroup (layered.once.mem_iff.mpr present)
        exact not_transGen_of_layers layered.earlier placed cycle
      · cases same
        exact layered
  | unresolved left =>
      obtain ⟨some, waits⟩ := meaning
      obtain ⟨p, -, cycle⟩ := exists_cycle some waits
      exact ⟨iff_of_false nofun fun none => none p cycle, nofun⟩

end Zcm.Indexer
