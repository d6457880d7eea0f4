import Zcm.Filter.Region

namespace Zcm.Filter

section Marking

variable (active : Nat → Bool) (timestamp : Nat → Int)

def zonesAfter : Nat → List Zone
  | 0 => []
  | n + 1 => markZone (active n) (timestamp n) (zonesAfter n)

def ActiveThrough (s m : Nat) : Prop := ∀ j, s ≤ j → j ≤ m → active j = true

def Covers (zones : List Zone) (time : Int) : Prop := ∃ z ∈ zones, z.1 ≤ time ∧ time < z.2

def Between (n : Nat) (time : Int) : Prop :=
  ∃ s m, s ≤ m ∧ m < n ∧ timestamp s ≤ time ∧ time < timestamp m ∧ ActiveThrough active s m

/-- From an event with the timestamp of event `k`, this one or a later one, the activity lasts through an
event with a later timestamp. -/
def Lasting (n k : Nat) : Prop :=
  ∃ s m, k ≤ s ∧ s ≤ m ∧ m < n ∧ timestamp s = timestamp k ∧ timestamp s < timestamp m ∧
    ActiveThrough active s m

inductive Back (n : Nat) : List Zone → Prop
  | empty (paused : ∀ k, n = k + 1 → active k = false) : Back n []
  | waiting (rest : List Zone) (paused : ∀ k, n = k + 1 → active k = false) : Back n ((i64max, i64max) :: rest)
  | running (s k : Nat) (rest : List Zone) (last : n = k + 1) (le : s ≤ k) (through : ActiveThrough active s k)
      (starts : ∀ j, s = j + 1 → active j = false) : Back n ((timestamp s, timestamp k) :: rest)
  | spent (first : Int) (k : Nat) (rest : List Zone) (last : n = k + 1) (top : timestamp k = i64max) :
      Back n ((first, i64max) :: rest)

end Marking

variable {active : Nat → Bool} {timestamp : Nat → Int} {n : Nat} {zones : List Zone}

theorem covers_cons {z : Zone} {time : Int} :
    Covers (z :: zones) time ↔ (z.1 ≤ time ∧ time < z.2) ∨ Covers zones time := by
  simp [Covers]

theorem between_succ {time : Int} : Between active timestamp (n + 1) time ↔ Between active timestamp n time ∨
    ∃ s, s ≤ n ∧ timestamp s ≤ time ∧ time < timestamp n ∧ ActiveThrough active s n := by
  constructor
  · rintro ⟨s, m, le, lt, after, before, through⟩
    rcases Nat.lt_or_eq_of_le (Nat.le_of_lt_succ lt) with lt' | rfl
    · exact .inl ⟨s, m, le, lt', after, before, through⟩
    · exact .inr ⟨s, le, after, before, through⟩
  · rintro (⟨s, m, le, lt, rest⟩ | ⟨s, le, rest⟩)
    · exact ⟨s, m, le, Nat.lt_succ_of_lt lt, rest⟩
    · exact ⟨s, n, le, Nat.lt_succ_self n, rest⟩

theorem ActiveThrough.only_last {s : Nat} (h : ActiveThrough active s n) (le : s ≤ n)
    (paused : ∀ k, n = k + 1 → active k = false) : s = n := by
  rcases Nat.lt_or_eq_of_le le with lt | same
  · obtain ⟨k, rfl⟩ := Nat.exists_eq_add_of_lt lt
    have on := h (s + k) (Nat.le_add_right s k) (Nat.le_succ _)
    rw [paused (s + k) rfl] at on
    cases on
  · exact same

theorem ActiveThrough.from_start {s s' k : Nat} (h : ActiveThrough active s' k) (le : s ≤ k)
    (starts : ∀ j, s = j + 1 → active j = false) : s ≤ s' := by
  by_contra lt
  obtain ⟨j, rfl⟩ := Nat.exists_eq_add_of_lt (Nat.lt_of_not_le lt)
  have on := h (s' + j) (Nat.le_add_right s' j) (by omega)
  rw [starts (s' + j) rfl] at on
  cases on

theorem between_timestamp_iff (sorted : ∀ i j, i ≤ j → j < n → timestamp i ≤ timestamp j) {k : Nat}
    (lt : k < n) :
    Between active timestamp n (timestamp k) ↔ Lasting active timestamp n k := by
  constructor
  · rintro ⟨s, m, le, lt', after, before, through⟩
    rcases Nat.le_total k s with later | earlier
    · have same : timestamp s = timestamp k := Int.le_antisymm after (sorted k s later (by omega))
      exact ⟨s, m, later, le, lt', same, same ▸ before, through⟩
    · have inside : k ≤ m := by
        by_contra beyond
        exact absurd (sorted m k (by omega) lt) (Int.not_le.mpr before)
      exact ⟨k, m, Nat.le_refl k, inside, lt', rfl, before, fun j ge => through j (Nat.le_trans earlier ge)⟩
  · rintro ⟨s, m, -, le, lt', same, before, through⟩
    exact ⟨s, m, le, lt', same ▸ Int.le_refl _, same ▸ before, through⟩

/-- The zones cover the times between the events of an active stretch, and the back is as it should be. -/
structure Marked (active : Nat → Bool) (timestamp : Nat → Int) (n : Nat) (zones : List Zone) : Prop where
  covers : ∀ time, Covers zones time ↔ Between active timestamp n time
  back : Back active timestamp n zones

theorem Marked.mark_inactive (h : Marked active timestamp n zones) (off : active n = false)
    (later : ∀ k, n = k + 1 → timestamp k ≤ timestamp n) (bounded : timestamp n ≤ i64max) :
    Marked active timestamp (n + 1) (markZone (active n) (timestamp n) zones) := by
  have paused : ∀ k, n + 1 = k + 1 → active k = false := by
    rintro k same
    obtain rfl := Nat.succ.inj same
    exact off
  have nothing (time : Int) : Between active timestamp (n + 1) time ↔ Between active timestamp n time := by
    rw [between_succ]
    refine or_iff_left ?_
    rintro ⟨s, le, -, -, through⟩
    have on := through n le (Nat.le_refl n)
    rw [off] at on
    cases on
  have sentinel (time : Int) : Covers ((i64max, i64max) :: zones) time ↔ Covers zones time := by
    rw [covers_cons]
    refine or_iff_right ?_
    rintro ⟨after, before⟩
    exact absurd after (Int.not_le.mpr before)
  obtain ⟨covers, back⟩ := h
  cases back with
  | empty =>
      exact ⟨fun time => by rw [nothing, ← covers]; simp [markZone, off],
        by simpa [markZone, off] using .empty paused⟩
  | waiting rest =>
      have same : markZone (active n) (timestamp n) ((i64max, i64max) :: rest) = (i64max, i64max) :: rest := by
        simp [markZone, off]
      rw [same]
      exact ⟨fun time => by rw [nothing, covers], .waiting rest paused⟩
  | running s k rest last le through starts =>
      by_cases top : timestamp k = i64max
      · have same : markZone (active n) (timestamp n) ((timestamp s, timestamp k) :: rest) =
            (timestamp s, timestamp k) :: rest := by
          simp [markZone, off, top]
        rw [same]
        refine ⟨fun time => by rw [nothing, covers], top ▸ .spent _ n rest rfl ?_⟩
        exact Int.le_antisymm bounded (top ▸ later k last)
      · have pushed : markZone (active n) (timestamp n) ((timestamp s, timestamp k) :: rest) =
            (i64max, i64max) :: (timestamp s, timestamp k) :: rest := by
          simp [markZone, off, top]
        rw [pushed]
        exact ⟨fun time => by rw [nothing, sentinel, covers], .waiting _ paused⟩
  | spent first k rest last top =>
      have same : markZone (active n) (timestamp n) ((first, i64max) :: rest) = (first, i64max) :: rest := by
        simp [markZone, off]
      rw [same]
      refine ⟨fun time => by rw [nothing, covers], .spent _ n rest rfl ?_⟩
      exact Int.le_antisymm bounded (top ▸ later k last)

theorem Marked.mark_active (h : Marked active timestamp n zones) (on : active n = true)
    (sorted : ∀ i j, i ≤ j → j ≤ n → timestamp i ≤ timestamp j) (bounded : timestamp n ≤ i64max) :
    Marked active timestamp (n + 1) (markZone (active n) (timestamp n) zones) := by
  have single : ActiveThrough active n n := fun j ge le => Nat.le_antisymm le ge ▸ on
  -- an active stretch that begins with event `n` covers no time yet
  have begins (paused : ∀ k, n = k + 1 → active k = false) (time : Int) :
      Between active timestamp (n + 1) time ↔ Between active timestamp n time := by
    rw [between_succ]
    refine or_iff_left ?_
    rintro ⟨s, le, after, before, through⟩
    obtain rfl := through.only_last le paused
    exact absurd after (Int.not_le.mpr before)
  have point {rest : List Zone} (time : Int) :
      Covers ((timestamp n, timestamp n) :: rest) time ↔ Covers rest time := by
    rw [covers_cons]
    refine or_iff_right ?_
    rintro ⟨after, before⟩
    exact absurd after (Int.not_le.mpr before)
  obtain ⟨covers, back⟩ := h
  cases back with
  | empty paused =>
      have fresh : markZone (active n) (timestamp n) [] = [(timestamp n, timestamp n)] := by simp [markZone, on]
      rw [fresh]
      exact ⟨fun time => by rw [begins paused, point, covers], .running n n [] rfl (Nat.le_refl n) single paused⟩
  | waiting rest paused =>
      have filled : markZone (active n) (timestamp n) ((i64max, i64max) :: rest) =
          (timestamp n, timestamp n) :: rest := by
        simp [markZone, on]
      rw [filled]
      refine ⟨fun time => ?_, .running n n rest rfl (Nat.le_refl n) single paused⟩
      rw [begins paused, point, ← covers, covers_cons]
      refine (or_iff_right ?_).symm
      rintro ⟨after, before⟩
      exact absurd after (Int.not_le.mpr before)
  | running s k rest last le through starts =>
      have first : timestamp s ≤ timestamp n := sorted s n (by omega) (Nat.le_refl n)
      have kept : (if timestamp s = i64max then timestamp n else timestamp s) = timestamp s := by
        split
        next top => exact Int.le_antisymm (top ▸ bounded) first
        next => rfl
      have moved : markZone (active n) (timestamp n) ((timestamp s, timestamp k) :: rest) =
          (timestamp s, timestamp n) :: rest := by
        simp [markZone, on, kept]
      have longer : ActiveThrough active s n := by
        intro j ge le
        rcases Nat.lt_or_eq_of_le le with lt | rfl
        · exact through j ge (by omega)
        · exact on
      rw [moved]
      refine ⟨fun time => ?_, .running s n rest rfl (by omega) longer starts⟩
      have before := sorted k n (by omega) (Nat.le_refl n)
      rw [between_succ, ← covers, covers_cons, covers_cons]
      constructor
      · rintro (⟨after, until_n⟩ | old)
        · exact .inr ⟨s, by omega, after, until_n, longer⟩
        · exact .inl (.inr old)
      · rintro ((⟨after, until_k⟩ | old) | ⟨s', le', after, until_n, through'⟩)
        · exact .inl ⟨after, lt_of_lt_of_le until_k before⟩
        · exact .inr old
        · have later : s ≤ s' := through'.from_start (by omega) starts
          exact .inl ⟨le_trans (sorted s s' later le') after, until_n⟩
  | spent first k rest last top =>
      have highest : timestamp n = i64max := Int.le_antisymm bounded (top ▸ sorted k n (by omega) (Nat.le_refl n))
      have same : markZone (active n) (timestamp n) ((first, i64max) :: rest) = (first, i64max) :: rest := by
        by_cases unset : first = i64max <;> simp [markZone, on, highest, unset]
      rw [same]
      refine ⟨fun time => ?_, .spent _ n rest rfl highest⟩
      rw [between_succ, covers]
      refine (or_iff_left_of_imp ?_).symm
      rintro ⟨s, le, after, before, through⟩
      rcases Nat.lt_or_eq_of_le le with lt | rfl
      · exact ⟨s, k, by omega, by omega, after, by omega, fun j ge le => through j ge (by omega)⟩
      · exact absurd after (Int.not_le.mpr before)

theorem marked_zonesAfter (sorted : ∀ i j, i ≤ j → j < n → timestamp i ≤ timestamp j)
    (bounded : ∀ i, i < n → timestamp i ≤ i64max) :
    Marked active timestamp n (zonesAfter active timestamp n) := by
  induction n with
  | zero =>
      refine ⟨fun time => ?_, .empty fun k absurd => by cases absurd⟩
      simp [Covers, Between, zonesAfter]
  | succ n ih =>
      have before := ih (fun i j le lt => sorted i j le (by omega)) fun i lt => bounded i (by omega)
      have top := bounded n (Nat.lt_succ_self n)
      cases activity : active n with
      | false => exact before.mark_inactive activity (fun k last => sorted k n (by omega) (Nat.lt_succ_self n)) top
      | true => exact before.mark_active activity (fun i j le le' => sorted i j le (by omega)) top

theorem Marked.removed_covers {back : Zone} {rest : List Zone} (h : Marked active timestamp n (back :: rest))
    (bounded : ∀ i, i < n → timestamp i ≤ i64max) (unset : back.1 = i64max) (time : Int) :
    Covers rest time ↔ Covers (back :: rest) time := by
  have low : back.2 ≤ i64max := by
    cases h.back with
    | waiting => exact le_refl _
    | running s k _ last => exact bounded k (by omega)
    | spent => exact le_refl _
  rw [covers_cons]
  refine (or_iff_right ?_).symm
  rintro ⟨after, before⟩
  omega

end Zcm.Filter
