import Mathlib.Tactic.Linarith
import Zcm.Lib.Runs
import Zcm.Logger.Moves

namespace Zcm.Logger
open Zcm.Lib Zcm.Eventlog

variable {args : Args} {sizeofLogEvent rounds : Nat}

def State.inHand (s : State) : List Event :=
  match s.pc with
  | .popped le => [le]
  | _ => []

def State.rotating (s : State) : Bool :=
  match s.pc with
  | .written _ => true
  | _ => false

/-- The numbers are those of the files. A barrier is the last event of its file. -/
structure InOrder (sizeofLogEvent : Nat) (s : State) : Prop where
  all : s.pushed = s.written.map Prod.fst ++ s.inHand ++ s.q
  usage : s.totalMemoryUsage = (s.q.map (memory sizeofLogEvent)).sum
  numbers : s.written.Pairwise fun w w' => w.2 ≤ w'.2 ∧ (isInternalBarrier w.1 = true → w.2 < w'.2)
  current : ∀ w ∈ s.written, w.2 ≤ s.numSplits
  behind : ∀ w ∈ s.written, isInternalBarrier w.1 = true → s.rotating = false → w.2 < s.numSplits
  rotation : ∀ w ∈ s.written, isInternalBarrier w.1 = true → w.2 < s.numSplits →
    ∃ r ∈ s.rotations, r.2 = w.2

def Action.writes : Action → Bool
  | .main o => o.writeFails = none
  | .handler .. | .sigterm | .sighup => true

section Steps

variable {s t : State}

theorem InOrder.pushAll (h : InOrder sizeofLogEvent s) (evts : List Event) :
    InOrder sizeofLogEvent (s.pushAll sizeofLogEvent evts) := by
  refine ⟨?_, ?_, h.numbers, h.current, h.behind, h.rotation⟩
  · have all := h.all
    simp only [State.pushAll, all, List.append_assoc]
    rfl
  · simp only [State.pushAll, List.map_append, List.sum_append, h.usage]

theorem InOrder.wrote (h : InOrder sizeofLogEvent s) {le : Event} (holds : s.pc = .popped le) {n : Nat}
    (later : s.numSplits ≤ n)
    (t : State) (written : t.written = s.written ++ [(le, n)]) (number : t.numSplits = n) (pushed : t.pushed = s.pushed)
    (q : t.q = s.q) (usage : t.totalMemoryUsage = s.totalMemoryUsage) (rotations : t.rotations = s.rotations)
    (empty : t.inHand = []) (rotating : isInternalBarrier le = true → t.rotating = true) :
    InOrder sizeofLogEvent t := by
  have idle : s.rotating = false := by simp [State.rotating, holds]
  constructor
  · rw [pushed, h.all, written, empty, q]
    simp [State.inHand, holds]
  · rw [usage, q, h.usage]
  · rw [written, List.pairwise_append]
    refine ⟨h.numbers, List.pairwise_singleton _ _, ?_⟩
    intro w member w' last
    obtain rfl := List.mem_singleton.mp last
    exact ⟨(h.current w member).trans later, fun isBarrier => (h.behind w member isBarrier idle).trans_le later⟩
  · intro w member
    rw [written] at member
    rw [number]
    rcases List.mem_append.mp member with old | new
    · exact (h.current w old).trans later
    · rw [List.mem_singleton.mp new]
  · intro w member isBarrier settled
    rw [written] at member
    rw [number]
    rcases List.mem_append.mp member with old | new
    · exact (h.behind w old isBarrier idle).trans_le later
    · rw [List.mem_singleton.mp new] at isBarrier
      rw [rotating isBarrier] at settled
      cases settled
  · intro w member isBarrier before
    rw [written] at member
    rw [number] at before
    rw [rotations]
    rcases List.mem_append.mp member with old | new
    · exact h.rotation w old isBarrier (h.behind w old isBarrier idle)
    · rw [List.mem_singleton.mp new] at before
      exact absurd before (Nat.lt_irrefl n)

theorem InOrder.moves (h : InOrder sizeofLogEvent s) (empty : s.inHand = []) (idle : s.rotating = false) (t : State)
    (written : t.written = s.written) (number : t.numSplits = s.numSplits) (rotations : t.rotations = s.rotations)
    (pushed : t.pushed = s.pushed) (q : s.q = t.inHand ++ t.q)
    (usage : t.totalMemoryUsage + (t.inHand.map (memory sizeofLogEvent)).sum = s.totalMemoryUsage) :
    InOrder sizeofLogEvent t := by
  refine ⟨?_, ?_, written ▸ h.numbers, by rw [written, number]; exact h.current, ?_, ?_⟩
  · rw [pushed, h.all, empty, q, written]
    simp
  · have before := h.usage
    rw [q, List.map_append, List.sum_append] at before
    linarith
  · rw [written, number]
    exact fun w member isBarrier _ => h.behind w member isBarrier idle
  · rw [written, number, rotations]
    exact h.rotation

theorem InOrder.next (h : InOrder sizeofLogEvent s) {a : Action} (writes : a.writes = true)
    (steps : s.next args sizeofLogEvent rounds a = some t) (runs : t.running = true) : InOrder sizeofLogEvent t := by
  have opens {s' : State} (opened : OpenedLogs args rounds s s') {le : Event} (holds : s.pc = .popped le)
      (data : isInternalBarrier le = false) :
      InOrder sizeofLogEvent { ({ s' with gotSighup := false } : State).writeEvent le with pc := .looping } := by
    obtain ⟨same, later⟩ := opened.fields
    rw [same]
    exact h.wrote holds later _ rfl rfl rfl rfl rfl rfl rfl fun isBarrier => by rw [data] at isBarrier; cases isBarrier
  cases next_moves steps with
  | pushes evts => exact h.pushAll evts
  | enqueues rbuf isControl request =>
      have pushed := h.pushAll [barrier rbuf.recvUtime rbuf.data]
      refine ⟨pushed.all, ?_, h.numbers, h.current, h.behind, h.rotation⟩
      simpa [State.pushAll, State.enqueueBarrier] using pushed.usage
  | replies => exact ⟨h.all, h.usage, h.numbers, h.current, h.behind, h.rotation⟩
  | replyFails => cases runs
  | sigterm => exact ⟨h.all, h.usage, h.numbers, h.current, h.behind, h.rotation⟩
  | dies => cases runs
  | sighup => exact ⟨h.all, h.usage, h.numbers, h.current, h.behind, h.rotation⟩
  | idles => exact h
  | stops loops =>
      have empty : s.inHand = [] := by simp [State.inHand, loops]
      have idle : s.rotating = false := by simp [State.rotating, loops]
      exact h.moves empty idle _ rfl rfl rfl rfl rfl (by simp [State.inHand])
  | pops loops notDone le q front =>
      have empty : s.inHand = [] := by simp [State.inHand, loops]
      have idle : s.rotating = false := by simp [State.rotating, loops]
      exact h.moves empty idle _ rfl rfl rfl rfl front (by simp [State.inHand])
  | writesData le holds data s' opened => exact opens opened holds data
  | losesData le holds data s' opened fails =>
      obtain ⟨errno, fails, -⟩ := fails
      simp [Action.writes, fails] at writes
  | writesBarrier le holds isBarrier request =>
      exact h.wrote holds (Nat.le_refl _) _ rfl rfl rfl rfl rfl rfl rfl fun _ => rfl
  | losesBarrier le holds isBarrier request parses fails =>
      obtain ⟨errno, fails, -⟩ := fails
      simp [Action.writes, fails] at writes
  | rotates request holds files =>
      have all := h.all
      have empty : s.inHand = [] := by simp [State.inHand, holds]
      rw [empty] at all
      refine ⟨all, h.usage, h.numbers, ?_, ?_, ?_⟩
      · exact fun w member => Nat.le_succ_of_le (h.current w member)
      · exact fun w member _ _ => Nat.lt_succ_of_le (h.current w member)
      · intro w member isBarrier before
        rcases Nat.lt_or_eq_of_le (Nat.le_of_lt_succ before) with earlier | this
        · obtain ⟨r, rotated, same⟩ := h.rotation w member isBarrier earlier
          exact ⟨r, List.mem_append_left _ rotated, same⟩
        · exact ⟨_, List.mem_append_right _ (List.mem_singleton.mpr rfl), this.symm⟩
  | records request oldFile newFile holds =>
      have empty : s.inHand = [] := by simp [State.inHand, holds]
      have idle : s.rotating = false := by simp [State.rotating, holds]
      exact h.moves empty idle _ rfl rfl rfl rfl rfl (by simp [State.inHand, State.recordCycle])
  | completes request oldFile newFile holds =>
      have empty : s.inHand = [] := by simp [State.inHand, holds]
      have idle : s.rotating = false := by simp [State.rotating, holds]
      exact h.moves empty idle _ rfl rfl rfl rfl rfl (by simp [State.inHand])
  | returns => cases runs
  | exits => cases runs

end Steps

section Runs

theorem start_eq {dir : Dir} {o : Opening} {sends : Bool} {s : State}
    (starts : State.start args rounds dir o sends = some s) :
    ∃ files frames, openLogfile args rounds o ⟨dir, [], [], 0⟩ = some (some files) ∧
      (∀ frame ∈ frames, frame.isComplete = false) ∧ s =
        { files := files, logsize := 0, numSplits := 0, totalMemoryUsage := 0, q := [], pendingCycleValid := false
          pendingCycle := ⟨0, 0⟩, completed := none, done := 0, gotSighup := false, pc := .looping, pushed := []
          written := [], rotations := [], sent := frames } := by
  unfold State.start at starts
  split at starts
  next files opened =>
    simp only at starts
    split at starts
    next isSent =>
      obtain ⟨sent, frames, result, only, -⟩ := sendControlFrame_cases args sends (.ready args.controlSessionId)
        { files := files, logsize := 0, numSplits := 0, totalMemoryUsage := 0, q := [], pendingCycleValid := false
          pendingCycle := ⟨0, 0⟩, completed := none, done := 0, gotSighup := false, pc := .looping, pushed := []
          written := [], rotations := [], sent := [] }
      rw [result] at starts
      cases starts
      exact ⟨files, frames, opened, fun frame member => by rw [only frame member]; rfl, rfl⟩
    next => cases starts
  next => cases starts

theorem start_inOrder {dir : Dir} {o : Opening} {sends : Bool} {s : State}
    (starts : State.start args rounds dir o sends = some s) : InOrder sizeofLogEvent s := by
  obtain ⟨files, frames, -, -, rfl⟩ := start_eq starts
  constructor <;> simp [State.inHand]

def plainArgs : Args where
  autoSplit _ := false
  forceOverwrite := false
  autoIncrement := true
  useStrftime := false
  rotate := -1
  inputFname := ascii ['l', 'o', 'g']
  maxTargetMemory := 0
  controlEnabled := true
  controlSessionId := 7
  channelRenames := []
  exclusive := by decide
  splits := by simp

def opens : Opening := ⟨[], true, fun _ => true, true⟩

def succeeds : Outcome := ⟨opens, opens, none, none, true⟩

def plainLogger : State := (State.start plainArgs 10 (fun _ => none) opens true).get (by decide)

def oneEvent : List Action :=
  [.handler ⟨5, [1, 2]⟩ (ascii ['A']) [] true, .main succeeds, .main succeeds]

end Runs

end Zcm.Logger
