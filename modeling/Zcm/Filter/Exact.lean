import Mathlib.Data.List.Induction
import Zcm.Filter.Zones

namespace Zcm.Filter
open Zcm.Lib Zcm.Eventlog

variable {Double : Type} (d : Doubles Double) (regions : List (Region Double)) (log : List Event)

section Activity

def evaluateRegions (le : Event) :
    List (Region Double × RegionState) → BitVec 64 → List (Region Double × RegionState) × BitVec 64
  | [], firstUtime => ([], firstUtime)
  | (r, s) :: rs, firstUtime =>
      let (s, firstUtime) := r.isActive d s firstUtime le
      let (rs, firstUtime) := evaluateRegions le rs firstUtime
      ((r, s) :: rs, firstUtime)

def evaluated : List (Region Double × RegionState) × BitVec 64 :=
  log.foldl (fun s le => evaluateRegions d le s.1 s.2) (regions.map fun r => (r, {}), -1)

def activeAt (i k : Nat) : Bool :=
  match (evaluated d regions (log.take (k + 1))).1[i]? with
  | some (_, s) => s.active
  | none => false

def wanted (le : Event) (k : Nat) : Bool :=
  (evaluated d regions (log.take (k + 1))).1.any fun p => p.2.active && p.1.keepEvent le.channel

def wantedLog : List (Event × Nat) := log.zipIdx.filter fun p => wanted d regions log p.1 p.2

def timestampAt (k : Nat) : Int :=
  match log[k]? with
  | some le => le.timestamp.toInt
  | none => 0

/-- The activity of some region that keeps the channel lasts beyond the timestamp of event `k`. -/
def Outlasted (le : Event) (k : Nat) : Prop :=
  ∃ i r, regions[i]? = some r ∧ r.keepEvent le.channel = true ∧
    Lasting (activeAt d regions log i) (timestampAt log) log.length k

end Activity

section FirstPass

variable {d}

def Tracked.evaluated (t : Tracked Double) : Region Double × RegionState := (t.region, t.state)

theorem markRegions_evaluated (le : Event) (ts : List (Tracked Double)) (firstUtime : BitVec 64) :
    ((markRegions d le ts firstUtime).1.map Tracked.evaluated, (markRegions d le ts firstUtime).2) =
      evaluateRegions d le (ts.map Tracked.evaluated) firstUtime := by
  induction ts generalizing firstUtime with
  | nil => rfl
  | cons t ts ih =>
      have rest := ih (t.region.isActive d t.state firstUtime le).2
      simp only [markRegions, List.map_cons, evaluateRegions, Tracked.evaluated, ← rest]

theorem markRegions_getElem? (le : Event) {ts : List (Tracked Double)} (firstUtime : BitVec 64) {i : Nat}
    {t : Tracked Double}
    (there : ts[i]? = some t) : ∃ s, (markRegions d le ts firstUtime).1[i]? =
      some ⟨t.region, s, markZone s.active le.timestamp.toInt t.zones⟩ := by
  induction ts generalizing firstUtime i with
  | nil => cases there
  | cons t' ts ih =>
      cases i with
      | zero =>
          cases there
          exact ⟨_, rfl⟩
      | succ i => exact ih _ there

theorem firstPass_append (le : Event) : firstPass d regions (log ++ [le]) =
    markRegions d le (firstPass d regions log).1 (firstPass d regions log).2 := by
  simp only [firstPass, List.foldl_append, List.foldl_cons, List.foldl_nil]

theorem evaluated_append (le : Event) : evaluated d regions (log ++ [le]) =
    evaluateRegions d le (evaluated d regions log).1 (evaluated d regions log).2 := by
  simp only [evaluated, List.foldl_append, List.foldl_cons, List.foldl_nil]

theorem firstPass_evaluated : ((firstPass d regions log).1.map Tracked.evaluated, (firstPass d regions log).2) =
    evaluated d regions log := by
  induction log using List.reverseRecOn with
  | nil =>
      simp only [firstPass, evaluated, List.foldl_nil, List.map_map]
      rfl
  | append_singleton log le ih =>
      rw [firstPass_append, evaluated_append, ← ih]
      exact markRegions_evaluated le _ _

theorem markRegions_length (le : Event) (ts : List (Tracked Double)) (firstUtime : BitVec 64) :
    (markRegions d le ts firstUtime).1.length = ts.length := by
  induction ts generalizing firstUtime with
  | nil => rfl
  | cons t ts ih => simp only [markRegions, List.length_cons, ih]

theorem firstPass_length : (firstPass d regions log).1.length = regions.length := by
  induction log using List.reverseRecOn with
  | nil => simp [firstPass]
  | append_singleton log le ih => rw [firstPass_append, markRegions_length, ih]

variable {regions log}

theorem firstPass_getElem? {i : Nat} {r : Region Double} (there : regions[i]? = some r) {n : Nat}
    (le : n ≤ log.length) :
    ∃ s, (firstPass d regions (log.take n)).1[i]? =
      some ⟨r, s, zonesAfter (activeAt d regions log i) (timestampAt log) n⟩ := by
  induction n with
  | zero =>
      refine ⟨{}, ?_⟩
      simp [firstPass, there, Region.track, zonesAfter]
  | succ n ih =>
      obtain ⟨s, before⟩ := ih (by omega)
      have lt : n < log.length := le
      obtain ⟨s', after⟩ := @markRegions_getElem? _ d log[n] _ (firstPass d regions (log.take n)).2 _ _ before
      have pass : (firstPass d regions (log.take (n + 1))).1 =
          (markRegions d log[n] (firstPass d regions (log.take n)).1 (firstPass d regions (log.take n)).2).1 := by
        rw [List.take_succ_eq_append_getElem lt, firstPass_append]
      rw [← pass] at after
      have activity : activeAt d regions log i n = s'.active := by
        have same := congrArg Prod.fst (firstPass_evaluated (d := d) regions (log.take (n + 1)))
        simp only [activeAt, ← same, List.getElem?_map, after, Option.map_some, Tracked.evaluated]
      have time : timestampAt log n = log[n].timestamp.toInt := by
        simp only [timestampAt, List.getElem?_eq_getElem lt]
      exact ⟨s', by rw [after, zonesAfter, activity, time]⟩

end FirstPass

section SecondPass

variable {d regions log}

theorem writeKept_outlog (ts : List (Tracked Double)) (log : List Event) (out : Output) :
    (log.foldl (writeKept ts) out).outlog =
      out.outlog ++ (log.zipIdx out.numInEvents).filter fun p => keepEvent ts p.1 := by
  induction log generalizing out with
  | nil => simp
  | cons le log ih =>
      rw [List.foldl_cons, ih, List.zipIdx_cons, List.filter_cons]
      cases kept : keepEvent ts le <;> simp [writeKept, kept]

theorem timestampAt_mono (sorted : log.Pairwise fun le le' => le.timestamp.toInt ≤ le'.timestamp.toInt) {i j : Nat}
    (le : i ≤ j) (lt : j < log.length) : timestampAt log i ≤ timestampAt log j := by
  simp only [timestampAt, List.getElem?_eq_getElem lt, List.getElem?_eq_getElem (Nat.lt_of_le_of_lt le lt)]
  rcases Nat.lt_or_eq_of_le le with lt' | rfl
  · exact List.pairwise_iff_getElem.mp sorted i j _ lt lt'
  · exact le_refl _

theorem timestampAt_le {i : Nat} (lt : i < log.length) : timestampAt log i ≤ i64max := by
  simp only [timestampAt, List.getElem?_eq_getElem lt, i64max]
  have := BitVec.toInt_lt (x := log[i].timestamp)
  omega

theorem settle_covers (sorted : log.Pairwise fun le le' => le.timestamp.toInt ≤ le'.timestamp.toInt)
    {r : Region Double}
    (adjusted : r.beginAdjustment = 0 ∧ r.endAdjustment = 0) (active : Nat → Bool) (s : RegionState) (time : Int) :
    Covers (Tracked.settle ⟨r, s, zonesAfter active (timestampAt log) log.length⟩).zones time ↔
      Between active (timestampAt log) log.length time := by
  have bounded : ∀ i, i < log.length → timestampAt log i ≤ i64max := fun i lt => timestampAt_le lt
  have marked : Marked active (timestampAt log) log.length (zonesAfter active (timestampAt log) log.length) :=
    marked_zonesAfter (fun i j le lt => timestampAt_mono sorted le lt) bounded
  rw [← marked.covers]
  generalize zonesAfter active (timestampAt log) log.length = zones at marked
  cases zones with
  | nil => rfl
  | cons back rest =>
      by_cases unset : back.1 = i64max
      · simp [Tracked.settle, unset, adjusted, ← marked.removed_covers bounded unset]
      · simp [Tracked.settle, unset, adjusted]

theorem keepEvent_iff (sorted : log.Pairwise fun le le' => le.timestamp.toInt ≤ le'.timestamp.toInt)
    (adjusted : ∀ r ∈ regions, r.beginAdjustment = 0 ∧ r.endAdjustment = 0) {k : Nat} (lt : k < log.length) :
    keepEvent ((firstPass d regions log).1.map Tracked.settle) log[k] = true ↔ Outlasted d regions log log[k] k := by
  have time : timestampAt log k = log[k].timestamp.toInt := by
    simp only [timestampAt, List.getElem?_eq_getElem lt]
  -- the zones of a region that keeps the channel decide for it
  have zone {i : Nat} {r : Region Double} (there : regions[i]? = some r) :
      ∃ t, (firstPass d regions log).1[i]? = some t ∧ t.region = r ∧
        (Covers t.settle.zones log[k].timestamp.toInt ↔
          Lasting (activeAt d regions log i) (timestampAt log) log.length k) := by
    obtain ⟨s, tracked⟩ := firstPass_getElem? (d := d) there (Nat.le_refl log.length)
    rw [List.take_length] at tracked
    refine ⟨_, tracked, rfl, ?_⟩
    rw [settle_covers sorted (adjusted r (List.mem_of_getElem? there)), ← time]
    exact between_timestamp_iff (fun i j le lt => timestampAt_mono sorted le lt) lt
  have kept (t : Tracked Double) : (t.settle.zones.any fun r =>
      decide (r.1 ≤ log[k].timestamp.toInt) && decide (log[k].timestamp.toInt < r.2) &&
        t.settle.region.keepEvent log[k].channel) = true ↔
      t.region.keepEvent log[k].channel = true ∧ Covers t.settle.zones log[k].timestamp.toInt := by
    have same : t.settle.region = t.region := rfl
    simp only [List.any_eq_true, Bool.and_eq_true, decide_eq_true_eq, Covers, same]
    constructor
    · rintro ⟨z, member, inside, keeps⟩
      exact ⟨keeps, z, member, inside⟩
    · rintro ⟨keeps, z, member, inside⟩
      exact ⟨z, member, inside, keeps⟩
  simp only [keepEvent, List.any_map, List.any_eq_true, Function.comp_apply, kept]
  constructor
  · rintro ⟨t, member, keeps, covered⟩
    obtain ⟨i, there⟩ := List.mem_iff_getElem?.mp member
    obtain ⟨bound, -⟩ := List.getElem?_eq_some_iff.mp there
    rw [firstPass_length] at bound
    obtain ⟨t', there', same, lasting⟩ := zone (List.getElem?_eq_getElem bound)
    obtain rfl : t' = t := Option.some.inj (there'.symm.trans there)
    exact ⟨i, _, List.getElem?_eq_getElem bound, same ▸ keeps, lasting.mp covered⟩
  · rintro ⟨i, r, there, keeps, lasting⟩
    obtain ⟨t, there', rfl, same⟩ := zone there
    exact ⟨t, List.mem_of_getElem? there', keeps, same.mpr lasting⟩

end SecondPass

section Exact

variable {regions log}

/-- The output is what it should be for exactly the logs in which every event at which a region is active
is outlasted by the activity of such a region, and no other event is. -/
theorem filterLog_exact_iff (sorted : log.Pairwise fun le le' => le.timestamp.toInt ≤ le'.timestamp.toInt)
    (adjusted : ∀ r ∈ regions, r.beginAdjustment = 0 ∧ r.endAdjustment = 0) :
    (filterLog d regions log).outlog = wantedLog d regions log ↔
      ∀ k (lt : k < log.length), wanted d regions log log[k] k = true ↔ Outlasted d regions log log[k] k := by
  have written := writeKept_outlog ((firstPass d regions log).1.map Tracked.settle) log ⟨0, 0, []⟩
  rw [filterLog, written, List.nil_append, wantedLog]
  constructor
  · intro same k lt
    have member : (log[k], k) ∈ log.zipIdx := List.mem_zipIdx_iff_getElem?.mpr (List.getElem?_eq_getElem lt)
    rw [← keepEvent_iff sorted adjusted lt]
    have both := @List.mem_filter _ (fun p => wanted d regions log p.1 p.2) log.zipIdx (log[k], k)
    rw [← same, List.mem_filter] at both
    simpa [member, iff_comm] using both
  · intro agree
    refine List.filter_congr fun p member => ?_
    obtain ⟨le, k⟩ := p
    have there : log[k]? = some le := List.mem_zipIdx_iff_getElem?.mp member
    obtain ⟨lt, rfl⟩ := List.getElem?_eq_some_iff.mp there
    exact Bool.eq_iff_iff.mpr ((keepEvent_iff sorted adjusted lt).trans (agree k lt).symm)

def wholeLog : Region Int := ⟨none, none, [], 0, 0⟩

def ints : Doubles Int where
  lt v number := v < number
  ge v number := v ≥ number
  ofInt v := v
  seconds micros := micros.toNat / 1000000

def pings : List Event := [⟨0, 5, [65], [1]⟩, ⟨1, 6, [65], [2]⟩]

theorem filterLog_exact_iff_pings :
    (filterLog ints [wholeLog] pings).outlog = wantedLog ints [wholeLog] pings ↔
      ∀ k (lt : k < pings.length), wanted ints [wholeLog] pings pings[k] k = true ↔
        Outlasted ints [wholeLog] pings pings[k] k :=
  filterLog_exact_iff ints (by decide) (by decide)

theorem last_event_dropped : pings.Pairwise (fun le le' => le.timestamp.toInt ≤ le'.timestamp.toInt) ∧
    wantedLog ints [wholeLog] pings = [(⟨0, 5, [65], [1]⟩, 0), (⟨1, 6, [65], [2]⟩, 1)] ∧
    (filterLog ints [wholeLog] pings).outlog = [(⟨0, 5, [65], [1]⟩, 0)] ∧
    (filterLog ints [wholeLog] pings).outlog ≠ wantedLog ints [wholeLog] pings := by
  decide

end Exact

end Zcm.Filter
