import Mathlib.Data.List.Perm.Subperm
import Zcm.Lib.Runs
import Zcm.Tracking.Tracker

namespace Zcm.Tracking
open Zcm.Lib

variable {α β : Type}

def Tracker.keep (t : Tracker α) (buf : List (Stamped α)) (sublist : buf.Sublist t.buf) : Tracker α where
  maxTimeErr := t.maxTimeErr
  bufMax := t.bufMax
  positive := t.positive
  buf := buf
  fits := sublist.length_le.trans t.fits

structure Dispatcher (α β : Type) where
  t1 : Tracker α
  t2 : Tracker β
  calls : List (Stamped α × β)
  received : List (Stamped α)

inductive Arrival (α β : Type)
  | type1 (msg : Stamped α)
  | type2 (msg : Stamped β)

section Scan

variable (interpolate : BitVec 64 → Stamped β → Stamped β → β) (t2 : Tracker β) (t2Utime : BitVec 64)

/-- The loop of `process`: the messages that stay, and the calls of the callback. -/
def scan : List (Stamped α) → List (Stamped α) × List (Stamped α × β)
  | [] => ([], [])
  | it :: rest =>
      let (kept, calls) := scan rest
      if it.utime ≤ t2Utime then
        match t2.get interpolate it.utime with
        | some msg2 => (kept, (it, msg2) :: calls)
        | none => (it :: kept, calls)
      else (it :: kept, calls)

def Passes (m : Stamped α) : Bool := m.utime ≤ t2Utime && (t2.get interpolate m.utime).isSome

theorem scan_eq (ms : List (Stamped α)) :
    (scan interpolate t2 t2Utime ms).1 = ms.filter (fun m => !Passes interpolate t2 t2Utime m) ∧
      (scan interpolate t2 t2Utime ms).2.map Prod.fst = ms.filter (Passes interpolate t2 t2Utime) := by
  induction ms with
  | nil => exact ⟨rfl, rfl⟩
  | cons m ms ih =>
      obtain ⟨kept, called⟩ := ih
      by_cases early : m.utime ≤ t2Utime
      · cases found : t2.get interpolate m.utime with
        | none => simp [scan, early, found, Passes, kept, called]
        | some msg2 => simp [scan, early, found, Passes, kept, called]
      · simp [scan, early, Passes, kept, called]

theorem scan_sublist (ms : List (Stamped α)) : (scan interpolate t2 t2Utime ms).1.Sublist ms := by
  rw [(scan_eq interpolate t2 t2Utime ms).1]
  exact List.filter_sublist

end Scan

namespace Dispatcher

variable (interpolate : BitVec 64 → Stamped β → Stamped β → β)

def create (maxMsgs1 : Nat) (maxTimeErr2 : BitVec 64) (maxMsgs2 : Nat) (positive1 : 0 < maxMsgs1)
    (positive2 : 0 < maxMsgs2) :
    Dispatcher α β := ⟨.create 0 maxMsgs1 positive1, .create maxTimeErr2 maxMsgs2 positive2, [], []⟩

theorem process_sublist (t2 : Tracker β) (t2Utime : BitVec 64) (t1Begin : Nat) (buf : List (Stamped α)) :
    (buf.take t1Begin ++ (scan interpolate t2 t2Utime (buf.drop t1Begin)).1).Sublist buf := by
  have tail := (scan_sublist interpolate t2 t2Utime (buf.drop t1Begin)).append_left (buf.take t1Begin)
  rwa [List.take_append_drop] at tail

def process (s : Dispatcher α β) (t1Begin : Nat) : Dispatcher α β :=
  match s.t2.buf.getLast? with
  | none => s
  | some last =>
      { s with
        t1 := s.t1.keep _ (process_sublist interpolate s.t2 last.utime t1Begin s.t1.buf)
        calls := s.calls ++ (scan interpolate s.t2 last.utime (s.t1.buf.drop t1Begin)).2 }

def handle (s : Dispatcher α β) : Arrival α β → Dispatcher α β
  | .type1 msg =>
      let s := { s with t1 := s.t1.newMsg msg, received := s.received ++ [msg] }
      if s.t1.buf.isEmpty then s else s.process interpolate (s.t1.buf.length - 1)
  | .type2 msg => process interpolate { s with t2 := s.t2.newMsg msg } 0

def next (s : Dispatcher α β) (e : Arrival α β) : Option (Dispatcher α β) := some (s.handle interpolate e)

section Properties

/-- What was passed on and what still waits are, with their numbers, among the messages received. -/
def AtMostOnce (s : Dispatcher α β) : Prop := (s.calls.map Prod.fst ++ s.t1.buf).Subperm s.received

def Dispatchable (t2 : Tracker β) (m : Stamped α) : Prop :=
  (∃ m2 ∈ t2.buf, m.utime ≤ m2.utime) ∧ (t2.get interpolate m.utime).isSome

def Complete (s : Dispatcher α β) : Prop := ∀ m ∈ s.t1.buf, ¬ Dispatchable interpolate s.t2 m

/-- The newest message of type 2 is too early, an older one is not, and one of them is near enough. -/
def Overtaken (t2 : Tracker β) (m : Stamped α) : Prop :=
  (∃ last ∈ t2.buf.getLast?, last.utime < m.utime) ∧ (∃ m2 ∈ t2.buf, m.utime ≤ m2.utime) ∧
    ∃ m2 ∈ t2.buf, Tracker.Near t2.maxTimeErr m.utime m2

/-- The message that arrives is not overtaken, and overtakes none that waits. -/
def NoneOvertaken (s : Dispatcher α β) : Arrival α β → Prop
  | .type1 msg => ¬ Overtaken s.t2 msg
  | .type2 msg => ∀ m ∈ s.t1.buf, ¬ Overtaken (s.t2.newMsg msg) m

end Properties

section Steps

variable {interpolate} {s : Dispatcher α β}

theorem scan_perm (t2 : Tracker β) (t2Utime : BitVec 64) (ms : List (Stamped α)) :
    ((scan interpolate t2 t2Utime ms).2.map Prod.fst ++ (scan interpolate t2 t2Utime ms).1).Perm ms := by
  obtain ⟨kept, called⟩ := scan_eq interpolate t2 t2Utime ms
  rw [kept, called]
  exact List.filter_append_perm _ ms

theorem AtMostOnce.process (h : s.AtMostOnce) (t1Begin : Nat) : (s.process interpolate t1Begin).AtMostOnce := by
  unfold Dispatcher.process
  split
  · exact h
  next last isLast =>
    have scanned := @scan_perm _ _ interpolate s.t2 last.utime (s.t1.buf.drop t1Begin)
    refine List.Subperm.trans (List.Perm.subperm ?_) h
    simp only [Tracker.keep, List.map_append, List.append_assoc]
    refine List.Perm.append_left _ ?_
    calc _ ++ (s.t1.buf.take t1Begin ++ _)
      _ |>.Perm (s.t1.buf.take t1Begin ++ (_ ++ _)) := List.perm_append_comm_assoc _ _ _
      _ |>.Perm (s.t1.buf.take t1Begin ++ s.t1.buf.drop t1Begin) := scanned.append_left _
      _ = s.t1.buf := List.take_append_drop _ _

theorem handle_type1 (s : Dispatcher α β) (msg : Stamped α) : s.handle interpolate (.type1 msg) =
    process interpolate { s with t1 := s.t1.newMsg msg, received := s.received ++ [msg] }
      ((s.t1.newMsg msg).buf.length - 1) := by
  have nonempty : (s.t1.newMsg msg).buf.isEmpty = false := by simp [Tracker.newMsg]
  simp only [Dispatcher.handle, nonempty, Bool.false_eq_true, if_false]

theorem AtMostOnce.handle (h : s.AtMostOnce) (e : Arrival α β) : (s.handle interpolate e).AtMostOnce := by
  cases e with
  | type1 msg =>
      have pushed : AtMostOnce { s with t1 := s.t1.newMsg msg, received := s.received ++ [msg] } := by
        refine List.Subperm.trans ?_ (List.Subperm.append h (List.Subperm.refl [msg]))
        obtain ⟨old, sublist, buf⟩ := s.t1.newMsg_buf msg
        simp only [buf, List.append_assoc]
        exact ((sublist.append_right [msg]).append_left _).subperm
      rw [handle_type1]
      exact pushed.process _
  | type2 msg =>
      have same : AtMostOnce { s with t2 := s.t2.newMsg msg } := h
      exact same.process 0

theorem dispatchable_iff {t2 : Tracker β} {last : Stamped β} (isLast : t2.buf.getLast? = some last) {m : Stamped α} :
    Dispatchable interpolate t2 m ∧ Passes interpolate t2 last.utime m = false ↔ Overtaken t2 m := by
  have later : m.utime ≤ last.utime ↔ ¬ last.utime < m.utime := BitVec.not_lt.symm
  simp only [Dispatchable, Overtaken, Passes, isLast, Option.mem_some_iff, exists_eq_left',
    ← Tracker.get_isSome_iff _ interpolate,
    Bool.and_eq_false_iff, decide_eq_false_iff_not, later, not_not]
  constructor
  · rintro ⟨⟨later, found⟩, early | missing⟩
    · exact ⟨early, later, found⟩
    · simp [found] at missing
  · rintro ⟨early, later, found⟩
    exact ⟨⟨later, found⟩, .inl early⟩

theorem process_complete_iff (t1Begin : Nat)
    (before : ∀ m ∈ s.t1.buf.take t1Begin, ¬ Dispatchable interpolate s.t2 m) :
    (s.process interpolate t1Begin).Complete interpolate ↔ ∀ m ∈ s.t1.buf.drop t1Begin, ¬ Overtaken s.t2 m := by
  unfold process
  split
  next none =>
    have empty : s.t2.buf = [] := List.getLast?_eq_none_iff.mp none
    simp [Complete, Dispatchable, Overtaken, empty]
  next last isLast =>
    have kept (m : Stamped α) : m ∈ (scan interpolate s.t2 last.utime (s.t1.buf.drop t1Begin)).1 ↔
        m ∈ s.t1.buf.drop t1Begin ∧ Passes interpolate s.t2 last.utime m = false := by
      rw [(scan_eq interpolate s.t2 last.utime _).1, List.mem_filter, Bool.not_eq_true']
    simp only [Complete, Tracker.keep, List.mem_append, kept]
    constructor
    · intro complete m member overtaken
      obtain ⟨dispatchable, stays⟩ := (dispatchable_iff isLast).mpr overtaken
      exact complete m (.inr ⟨member, stays⟩) dispatchable
    · rintro none m (early | ⟨member, stays⟩) dispatchable
      · exact before m early dispatchable
      · exact none m member ((dispatchable_iff isLast).mp ⟨dispatchable, stays⟩)

theorem handle_complete_iff (complete : s.Complete interpolate) (e : Arrival α β) :
    (s.handle interpolate e).Complete interpolate ↔ s.NoneOvertaken e := by
  cases e with
  | type1 msg =>
      obtain ⟨old, sublist, buf⟩ := s.t1.newMsg_buf msg
      have before : (s.t1.newMsg msg).buf.take ((s.t1.newMsg msg).buf.length - 1) = old := by simp [buf]
      have arrived : (s.t1.newMsg msg).buf.drop ((s.t1.newMsg msg).buf.length - 1) = [msg] := by simp [buf]
      rw [handle_type1, process_complete_iff]
      · simp only [arrived, NoneOvertaken, List.mem_singleton, forall_eq]
      · simp only [before]
        exact fun m member => complete m (sublist.subset member)
  | type2 msg =>
      have processed := @process_complete_iff _ _ interpolate { s with t2 := s.t2.newMsg msg } 0 (by simp)
      simpa only [handle, NoneOvertaken, List.drop_zero] using processed

end Steps

section Runs

/-- In every run each message of type 1 is passed on at most once; and none ever waits that could be passed
on exactly in the runs in which none is overtaken. -/
theorem synchronized_iff (interpolate : BitVec 64 → Stamped β → Stamped β → β) (maxMsgs1 maxMsgs2 : Nat)
    (maxTimeErr2 : BitVec 64) (positive1 : 0 < maxMsgs1) (positive2 : 0 < maxMsgs2) (es : List (Arrival α β)) :
    (∀ pre, pre <+: es → ∀ s,
      Runs.run (next interpolate) (create maxMsgs1 maxTimeErr2 maxMsgs2 positive1 positive2) pre = some s →
        s.AtMostOnce ∧ s.Complete interpolate) ↔
      Runs.Meets (next interpolate) NoneOvertaken (create maxMsgs1 maxTimeErr2 maxMsgs2 positive1 positive2) es := by
  refine @Runs.meets_iff _ _ (next interpolate) NoneOvertaken (fun _ => True) (fun s => s.AtMostOnce ∧
    s.Complete interpolate)
    ?_ ?_ ?_ _ _ trivial ⟨?_, ?_⟩
  · intro s e _ stops
    cases stops
  · intro s e t _ _
    trivial
  · rintro s e t - ⟨once, complete⟩ steps
    cases steps
    rw [handle_complete_iff complete]
    exact and_iff_right (once.handle e)
  · exact List.Subperm.refl _
  · intro m absurd
    cases absurd

def nearer (utime : BitVec 64) (m0 m1 : Stamped Nat) :
    Nat := if utime - m0.utime < m1.utime - utime then m0.msg else m1.msg

def jumpsBack : List (Arrival Nat Nat) := [.type2 ⟨0, 100⟩, .type2 ⟨1, 50⟩, .type1 ⟨2, 80⟩]

theorem synchronized_iff_jumpsBack :
    (∀ pre, pre <+: jumpsBack →
      ∀ s, Runs.run (next nearer) (create 1 30 2 (by decide) (by decide)) pre = some s →
        s.AtMostOnce ∧ s.Complete nearer) ↔
      Runs.Meets (next nearer) NoneOvertaken (create 1 30 2 (by decide) (by decide)) jumpsBack :=
  synchronized_iff nearer 1 2 30 (by decide) (by decide) jumpsBack

/-- The message of time 80 waits although there is one of time 100, and the tracker has one for 80. -/
theorem earlier_message_waits :
    ¬ ∀ s, Runs.run (next nearer) (create 1 30 2 (by decide) (by decide)) jumpsBack = some s →
      s.Complete nearer := by
  intro claim
  have waits := claim _ rfl ⟨2, 80⟩ (by decide)
  exact waits ⟨⟨⟨0, 100⟩, by decide, by decide⟩, by decide⟩

end Runs

section Sorted

def Arrival.msg2? : Arrival α β → Option (Stamped β)
  | .type1 _ => none
  | .type2 msg => some msg

theorem not_overtaken_of_sorted {t2 : Tracker β} (sorted : t2.buf.Pairwise fun m m' => m.utime ≤ m'.utime)
    (m : Stamped α) : ¬ Overtaken t2 m := by
  rintro ⟨⟨last, isLast, early⟩, ⟨m2, member, late⟩, -⟩
  obtain ⟨init, split⟩ := List.getLast?_eq_some_iff.mp isLast
  rw [split] at sorted member
  have before := (List.pairwise_append.mp sorted).2.2
  have le : m2.utime ≤ last.utime := by
    rcases List.mem_append.mp member with old | new
    · exact before m2 old last (by simp)
    · rw [List.mem_singleton.mp new]
      exact BitVec.le_refl _
  bv_omega

theorem process_t2 (s : Dispatcher α β) (t1Begin : Nat) : (s.process interpolate t1Begin).t2 = s.t2 := by
  unfold process
  split <;> rfl

theorem meets_of_sorted {s : Dispatcher α β} {es : List (Arrival α β)}
    (sorted : (s.t2.buf ++ es.filterMap Arrival.msg2?).Pairwise fun m m' => m.utime ≤ m'.utime) :
    Runs.Meets (next interpolate) NoneOvertaken s es := by
  induction es generalizing s with
  | nil => trivial
  | cons e es ih =>
      cases e with
      | type1 msg =>
          refine ⟨not_overtaken_of_sorted (sorted.sublist (List.sublist_append_left _ _)) msg, fun t steps => ih ?_⟩
          cases steps
          rw [handle_type1, process_t2]
          exact sorted
      | type2 msg =>
          obtain ⟨old, sublist, buf⟩ := s.t2.newMsg_buf msg
          have kept : ((s.t2.newMsg msg).buf ++
              es.filterMap Arrival.msg2?).Pairwise fun m m' => m.utime ≤ m'.utime := by
            rw [buf, List.append_assoc]
            exact sorted.sublist (sublist.append_right _)
          refine ⟨fun m _ => not_overtaken_of_sorted (kept.sublist (List.sublist_append_left _ _)) m,
            fun t steps => ih ?_⟩
          cases steps
          rw [handle, process_t2]
          exact kept

end Sorted

end Dispatcher
end Zcm.Tracking
