import Mathlib.Data.List.Induction
import Mathlib.Data.BitVec

namespace Zcm.Tracking

/-- A message with its time: its own `utime`, or the time of its arrival. -/
structure Stamped (α : Type) where
  msg : α
  utime : BitVec 64
deriving DecidableEq

structure Tracker (α : Type) where
  maxTimeErr : BitVec 64
  bufMax : Nat
  positive : 0 < bufMax
  buf : List (Stamped α)
  fits : buf.length ≤ bufMax

variable {α : Type}

namespace Tracker

def create (maxTimeErr : BitVec 64) (maxMsgs : Nat) (positive : 0 < maxMsgs) : Tracker α :=
  ⟨maxTimeErr, maxMsgs, positive, [], Nat.zero_le _⟩

def newMsg (t : Tracker α) (m : Stamped α) : Tracker α where
  maxTimeErr := t.maxTimeErr
  bufMax := t.bufMax
  positive := t.positive
  buf := (if t.buf.length = t.bufMax then t.buf.tail else t.buf) ++ [m]
  fits := by
    have positive := t.positive
    have fits := t.fits
    split
    · rw [List.length_append, List.length_tail, List.length_singleton]
      omega
    · rw [List.length_append, List.length_singleton]
      omega

theorem newMsg_buf (t : Tracker α) (m : Stamped α) :
    ∃ old, old.Sublist t.buf ∧ (t.newMsg m).buf = old ++ [m] := by
  refine ⟨_, ?_, rfl⟩
  split
  · exact List.tail_sublist _
  · exact List.Sublist.refl _

end Tracker

section Search

variable (accept : α → Bool) (better : α → α → Bool)

/-- One round of a search for the best element that is acceptable; of equally good ones the first stays. -/
def keepBest (best : Option α) (m : α) : Option α := if accept m && best.all (better m) then some m else best

inductive IsBest (ms : List α) : Option α → Prop
  | nothing (rejected : ∀ m ∈ ms, accept m = false) : IsBest ms none
  | found (best : α) (member : best ∈ ms) (accepted : accept best = true)
      (optimal : ∀ m ∈ ms, accept m = true → better m best = false) : IsBest ms (some best)

variable {accept better}

theorem keepBest_isBest (irrefl : ∀ m, better m m = false)
    (worse : ∀ x best m, better x best = false → better m best = true → better x m = false) (ms : List α) :
    IsBest accept better ms (ms.foldl (keepBest accept better) none) := by
  induction ms using List.reverseRecOn with
  | nil => exact .nothing fun m absurd => by cases absurd
  | append_singleton ms m ih =>
      rw [List.foldl_append, List.foldl_cons, List.foldl_nil]
      generalize ms.foldl (keepBest accept better) none = found at ih
      cases accepted : accept m with
      | false =>
          have same : keepBest accept better found m = found := by simp [keepBest, accepted]
          rw [same]
          cases ih with
          | nothing rejected => exact .nothing fun x member => by grind -linarith
          | found best member ok optimal =>
              exact .found best (by simp [member]) ok fun x member' ok' => by grind -linarith
      | true =>
          cases ih with
          | nothing rejected =>
              have taken : keepBest accept better none m = some m := by simp [keepBest, accepted]
              rw [taken]
              exact .found m (by simp) accepted fun x member ok => by grind -linarith
          | found best member ok optimal =>
              cases isBetter : better m best with
              | false =>
                  have same : keepBest accept better (some best) m = some best := by simp [keepBest, isBetter]
                  rw [same]
                  exact .found best (by simp [member]) ok fun x member' ok' => by grind -linarith
              | true =>
                  have taken : keepBest accept better (some best) m = some m := by simp [keepBest, accepted, isBetter]
                  rw [taken]
                  exact .found m (by simp) accepted fun x member' ok' => by grind -linarith

theorem IsBest.filter_isSome {ms : List α} {found : Option α} (h : IsBest accept better ms found) (test : α → Bool)
    (enough : ∀ m best, accept m = true → accept best = true → better m best = false → test m = true →
    test best = true) :
    (found.filter test).isSome ↔ ∃ m ∈ ms, accept m = true ∧ test m = true := by
  cases h with
  | nothing rejected =>
      simp only [Option.filter_none, Option.isSome_none, Bool.false_eq_true, false_iff]
      rintro ⟨m, member, accepted, -⟩
      rw [rejected m member] at accepted
      cases accepted
  | found best member accepted optimal =>
      have tested : ((some best).filter test).isSome ↔ test best = true := by cases tests : test best <;> simp [tests]
      rw [tested]
      constructor
      · intro passes
        exact ⟨best, member, accepted, passes⟩
      · rintro ⟨m, member', accepted', passes⟩
        exact enough m best accepted' accepted (optimal m member' accepted') passes

end Search

namespace Tracker

section Get

/-- One round of the search: the latest message that is not after the time, and the earliest not before it. -/
def bracket (utime : BitVec 64) (found : Option (Stamped α) × Option (Stamped α)) (m : Stamped α) :
    Option (Stamped α) × Option (Stamped α) :=
  (if m.utime ≤ utime && found.1.all (fun m0 => m.utime > m0.utime) then some m else found.1,
    if m.utime ≥ utime && found.2.all (fun m1 => m.utime < m1.utime) then some m else found.2)

def get (t : Tracker α) (interpolate : BitVec 64 → Stamped α → Stamped α → α) (utime : BitVec 64) :
    Option α :=
  let (m0, m1) := t.buf.foldl (bracket utime) (none, none)
  let m0 := m0.filter fun m0 => ¬ utime - m0.utime > t.maxTimeErr
  let m1 := m1.filter fun m1 => ¬ m1.utime - utime > t.maxTimeErr
  match m0, m1 with
  | some m0, some m1 => if m0.utime = m1.utime then some m0.msg else some (interpolate utime m0 m1)
  | some m0, none => some m0.msg
  | none, some m1 => some m1.msg
  | none, none => none

theorem foldl_bracket (utime : BitVec 64) (ms : List (Stamped α))
    (found : Option (Stamped α) × Option (Stamped α)) :
    ms.foldl (bracket utime) found =
      (ms.foldl (keepBest (fun m => m.utime ≤ utime) fun m m0 => m.utime > m0.utime) found.1,
        ms.foldl (keepBest (fun m => m.utime ≥ utime) fun m m1 => m.utime < m1.utime) found.2) := by
  induction ms generalizing found with
  | nil => rfl
  | cons m ms ih => exact ih (bracket utime found m)

def Near (maxTimeErr utime : BitVec 64) (m : Stamped α) : Prop :=
  (m.utime ≤ utime ∧ utime - m.utime ≤ maxTimeErr) ∨ (utime ≤ m.utime ∧ m.utime - utime ≤ maxTimeErr)

instance (maxTimeErr utime : BitVec 64) (m : Stamped α) : Decidable (Near maxTimeErr utime m) :=
  inferInstanceAs (Decidable (_ ∨ _))

theorem get_isSome_iff (t : Tracker α) (interpolate : BitVec 64 → Stamped α → Stamped α → α)
    (utime : BitVec 64) :
    (t.get interpolate utime).isSome ↔ ∃ m ∈ t.buf, Near t.maxTimeErr utime m := by
  have before := @keepBest_isBest (Stamped α) (fun m => m.utime ≤ utime) (fun m m0 => m.utime > m0.utime)
    (by simp) (by simp only [decide_eq_true_eq, decide_eq_false_iff_not]; bv_omega) t.buf
  have after := @keepBest_isBest (Stamped α) (fun m => m.utime ≥ utime) (fun m m1 => m.utime < m1.utime)
    (by simp) (by simp only [decide_eq_true_eq, decide_eq_false_iff_not]; bv_omega) t.buf
  have low := before.filter_isSome (fun m0 => ¬ utime - m0.utime > t.maxTimeErr)
    (by simp only [decide_eq_true_eq, decide_eq_false_iff_not]; bv_omega)
  have high := after.filter_isSome (fun m1 => ¬ m1.utime - utime > t.maxTimeErr)
    (by simp only [decide_eq_true_eq, decide_eq_false_iff_not]; bv_omega)
  have either : (t.get interpolate utime).isSome ↔
      (∃ m ∈ t.buf, m.utime ≤ utime ∧ ¬ utime - m.utime > t.maxTimeErr) ∨
        ∃ m ∈ t.buf, m.utime ≥ utime ∧ ¬ m.utime - utime > t.maxTimeErr := by
    simp only [decide_eq_true_eq] at low high
    rw [← low, ← high, get, foldl_bracket]
    simp only
    generalize (t.buf.foldl (keepBest (fun m => m.utime ≤ utime) fun m m0 => m.utime > m0.utime) none).filter _ = m0
    generalize (t.buf.foldl (keepBest (fun m => m.utime ≥ utime) fun m m1 => m.utime < m1.utime) none).filter _ = m1
    cases m0 with
    | none => cases m1 <;> simp
    | some m0 =>
        cases m1 with
        | none => simp
        | some m1 =>
            simp only [Option.isSome_some, true_or, iff_true]
            split <;> rfl
  rw [either]
  constructor
  · rintro (⟨m, member, before, close⟩ | ⟨m, member, after, close⟩)
    · exact ⟨m, member, .inl ⟨before, BitVec.not_lt.mp close⟩⟩
    · exact ⟨m, member, .inr ⟨after, BitVec.not_lt.mp close⟩⟩
  · rintro ⟨m, member, ⟨before, close⟩ | ⟨after, close⟩⟩
    · exact .inl ⟨m, member, before, BitVec.not_lt.mpr close⟩
    · exact .inr ⟨m, member, after, BitVec.not_lt.mpr close⟩

end Get

end Tracker
end Zcm.Tracking
