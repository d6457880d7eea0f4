import Zcm.Logger.Order

namespace Zcm.Logger
open Zcm.Lib Zcm.Eventlog

variable {args : Args} {sizeofLogEvent rounds : Nat}

namespace State

/-- A barrier is being processed, up to the record that its file has been rotated. -/
def inProcess (s : State) : Bool :=
  match s.pc with
  | .popped le => isInternalBarrier le
  | .written _ | .rotated .. => true
  | _ => false

def atWork (s : State) : Option CycleRequestFrame :=
  match s.pc with
  | .written request | .rotated request _ _ => some request
  | _ => none

def barriers (s : State) : Nat := s.q.countP isInternalBarrier + s.inProcess.toNat

end State

structure OneBarrier (s : State) : Prop where
  one : s.barriers ≤ s.pendingCycleValid.toNat
  carried : ∀ le ∈ s.inHand ++ s.q, isInternalBarrier le = true →
    ∃ request, parseCycleRequestFrame le.data = some request ∧ request.cycle = s.pendingCycle
  worked : ∀ request, s.atWork = some request → request.cycle = s.pendingCycle

section Steps

variable {s t : State}

structure SameCycles (s t : State) : Prop where
  q : t.q = s.q
  pc : t.pc = s.pc
  valid : t.pendingCycleValid = s.pendingCycleValid
  cycle : t.pendingCycle = s.pendingCycle

theorem OneBarrier.same (h : OneBarrier s) (same : SameCycles s t) : OneBarrier t := by
  obtain ⟨q, pc, valid, cycle⟩ := same
  have hand : t.inHand = s.inHand := by simp only [State.inHand, pc]
  have process : t.inProcess = s.inProcess := by simp only [State.inProcess, pc]
  have work : t.atWork = s.atWork := by simp only [State.atWork, pc]
  exact ⟨by rw [State.barriers, q, process, valid]; exact h.one, by rw [hand, q, cycle]; exact h.carried,
    by rw [work, cycle]; exact h.worked⟩

theorem OneBarrier.released (h : OneBarrier s) (q : t.q = s.q) (valid : t.pendingCycleValid = s.pendingCycleValid)
    (cycle : t.pendingCycle = s.pendingCycle) (hand : t.inHand = []) (process : t.inProcess = false)
    (work : t.atWork = none) :
    OneBarrier t := by
  refine ⟨?_, ?_, ?_⟩
  · rw [State.barriers, q, process, valid]
    exact Nat.le_trans (Nat.add_le_add_left (Nat.zero_le _) _) h.one
  · rw [hand, q, cycle]
    exact fun le member => h.carried le (List.mem_append_right _ member)
  · rw [work]
    exact fun request absurd => by cases absurd

theorem countP_data {evts : List Event} (data : ∀ le ∈ evts, isInternalBarrier le = false) :
    evts.countP isInternalBarrier = 0 :=
  List.countP_eq_zero.mpr fun le member isBarrier => by rw [data le member] at isBarrier; cases isBarrier

theorem no_barrier_of_countP (none : s.q.countP isInternalBarrier = 0) {le : Event} (member : le ∈ s.q) :
    isInternalBarrier le = false := by
  have rejected := List.countP_eq_zero.mp none le member
  simpa using rejected

theorem OneBarrier.idle (h : OneBarrier s) (notPending : s.pendingCycleValid = false) :
    s.q.countP isInternalBarrier = 0 ∧ s.inProcess = false := by
  have one := h.one
  simp only [State.barriers, notPending, Bool.toNat_false] at one
  cases process : s.inProcess with
  | false => exact ⟨by omega, rfl⟩
  | true => simp [process] at one

theorem OneBarrier.alone (h : OneBarrier s) (process : s.inProcess = true) :
    s.q.countP isInternalBarrier = 0 ∧ s.pendingCycleValid = true := by
  have one := h.one
  simp only [State.barriers, process, Bool.toNat_true] at one
  cases valid : s.pendingCycleValid with
  | true =>
      simp only [valid, Bool.toNat_true] at one
      exact ⟨by omega, rfl⟩
  | false => simp [valid] at one

theorem atWork_inProcess {request : CycleRequestFrame} (work : s.atWork = some request) : s.inProcess = true := by
  unfold State.atWork at work
  unfold State.inProcess
  split at work <;> simp_all

theorem inHand_inProcess {le : Event} (member : le ∈ s.inHand) : isInternalBarrier le = s.inProcess := by
  unfold State.inHand at member
  unfold State.inProcess
  split at member
  next held holds =>
    obtain rfl := List.mem_singleton.mp member
    simp only [holds]
  next => cases member

theorem OneBarrier.next (h : OneBarrier s) {a : Action} (moves : Moves args sizeofLogEvent rounds s a t) :
    OneBarrier t := by
  cases moves with
  | pushes evts data =>
      refine ⟨?_, ?_, h.worked⟩
      · have one := h.one
        simp only [State.barriers, State.pushAll, List.countP_append, countP_data data, Nat.add_zero] at one ⊢
        exact one
      · intro le member isBarrier
        simp only [State.pushAll] at member
        rw [← List.append_assoc] at member
        rcases List.mem_append.mp member with old | new
        · exact h.carried le old isBarrier
        · rw [data le new] at isBarrier
          cases isBarrier
  | enqueues rbuf isControl request parses session notPending other =>
      obtain ⟨none, process⟩ := h.idle notPending
      have process' : (s.enqueueBarrier sizeofLogEvent rbuf request).inProcess = false := process
      refine ⟨?_, ?_, ?_⟩
      · rw [State.barriers, process']
        simp [State.enqueueBarrier, none]
      · intro le member isBarrier
        rcases List.mem_append.mp member with held | queued
        · rw [inHand_inProcess held, process'] at isBarrier
          cases isBarrier
        · rcases List.mem_append.mp queued with old | new
          · rw [no_barrier_of_countP none old] at isBarrier
            cases isBarrier
          · rw [List.mem_singleton.mp new]
            exact ⟨request, parses, rfl⟩
      · intro request' work
        have absurd := atWork_inProcess work
        rw [process'] at absurd
        cases absurd
  | replies => exact h.same ⟨rfl, rfl, rfl, rfl⟩
  | replyFails => exact h.released rfl rfl rfl rfl rfl rfl
  | sigterm => exact h.same ⟨rfl, rfl, rfl, rfl⟩
  | dies => exact h.released rfl rfl rfl rfl rfl rfl
  | sighup => exact h.same ⟨rfl, rfl, rfl, rfl⟩
  | idles => exact h
  | stops => exact h.released rfl rfl rfl rfl rfl rfl
  | pops loops notDone le q front =>
      have idle : s.inProcess = false := by simp [State.inProcess, loops]
      have empty : s.inHand = [] := by simp [State.inHand, loops]
      have one := h.one
      have carried := h.carried
      rw [State.barriers, idle, front, List.countP_cons] at one
      rw [empty, front] at carried
      refine ⟨?_, carried, fun request absurd => by cases absurd⟩
      cases isBarrier : isInternalBarrier le <;> simp_all [State.barriers, State.inProcess]
  | writesData le holds data s' opened =>
      rw [opened.fields.1]
      exact h.released rfl rfl rfl rfl rfl rfl
  | losesData le holds data s' opened =>
      rw [opened.fields.1]
      exact h.released rfl rfl rfl rfl rfl rfl
  | writesBarrier le holds isBarrier request parses =>
      have process : s.inProcess = true := by simp [State.inProcess, holds, isBarrier]
      have one := h.one
      rw [State.barriers, process] at one
      refine ⟨one, fun le' member => h.carried le' (List.mem_append_right _ member), ?_⟩
      rintro request' work
      obtain rfl : request = request' := by simpa [State.atWork] using work
      obtain ⟨request', parses', cycle⟩ := h.carried le (by simp [State.inHand, holds]) isBarrier
      obtain rfl := Option.some.inj (parses.symm.trans parses')
      exact cycle
  | losesBarrier => exact h.released rfl rfl rfl rfl rfl rfl
  | rotates request holds files =>
      have process : s.inProcess = true := by simp [State.inProcess, holds]
      have one := h.one
      rw [State.barriers, process] at one
      refine ⟨one, fun le' member => h.carried le' (List.mem_append_right _ member), ?_⟩
      intro request' work
      refine h.worked request' ?_
      simpa [State.atWork, holds] using work
  | records request oldFile newFile holds =>
      have process : s.inProcess = true := by simp [State.inProcess, holds]
      obtain ⟨none, -⟩ := h.alone process
      refine ⟨?_, ?_, fun request' absurd => by cases absurd⟩
      · simp [State.barriers, State.recordCycle, State.inProcess, none]
      · intro le member isBarrier
        rw [no_barrier_of_countP none member] at isBarrier
        cases isBarrier
  | completes => exact h.released rfl rfl rfl rfl rfl rfl
  | returns => exact ⟨Nat.zero_le _, (fun le absurd => by cases absurd), (fun request absurd => by cases absurd)⟩
  | exits s' opened =>
      rw [opened.fields.1]
      exact h.released rfl rfl rfl rfl rfl rfl

end Steps

section Stuck

variable {s t : State}

/-- The flag is set exactly while a barrier is on its way; and without one the next request is enqueued,
unless it is the last completed one again. -/
structure NeverStuck (args : Args) (sizeofLogEvent : Nat) (s : State) : Prop where
  flag : s.pendingCycleValid = true ↔ (∃ le ∈ s.q, isInternalBarrier le = true) ∨ s.inProcess = true
  accepts : (∀ le ∈ s.q, isInternalBarrier le = false) → s.inProcess = false →
    ∀ rbuf request sends, parseCycleRequestFrame rbuf.data = some request →
      request.cycle.sessionId = args.controlSessionId →
      (∀ c, s.completed = some c → c.cycle ≠ request.cycle) →
      s.handleCycleRequest args sizeofLogEvent rbuf sends = s.enqueueBarrier sizeofLogEvent rbuf request

def KeepsBarrier (s : State) : Action → Prop
  | .main o => ∀ le, s.pc = .popped le → isInternalBarrier le = true → ¬ o.loses
  | .handler .. | .sigterm | .sighup => True

theorem flag_iff_barriers :
    ((∃ le ∈ s.q, isInternalBarrier le = true) ∨ s.inProcess = true) ↔ 0 < s.barriers := by
  rw [State.barriers, ← List.countP_pos_iff]
  cases s.inProcess <;> simp

theorem neverStuck_of_flag (flag : s.pendingCycleValid = true ↔ 0 < s.barriers) :
    NeverStuck args sizeofLogEvent s := by
  refine ⟨flag.trans flag_iff_barriers.symm, ?_⟩
  intro data process rbuf request sends parses session other
  have notPending : s.pendingCycleValid = false := by
    rw [← Bool.not_eq_true, flag, State.barriers, process, countP_data data]
    simp
  unfold State.handleCycleRequest
  simp only [parses, session, ne_eq, not_true, if_false, notPending, Bool.false_eq_true]
  split
  next c isLast => rw [if_neg (other c isLast)]
  next => rfl

theorem neverStuck_iff : NeverStuck args sizeofLogEvent s ↔ (s.pendingCycleValid = true ↔ 0 < s.barriers) :=
  ⟨fun never => never.flag.trans flag_iff_barriers, neverStuck_of_flag⟩

theorem flag_congr (flag : s.pendingCycleValid = true ↔ 0 < s.barriers)
    (valid : t.pendingCycleValid = s.pendingCycleValid)
    (count : t.q.countP isInternalBarrier = s.q.countP isInternalBarrier) (process : t.inProcess = s.inProcess) :
    t.pendingCycleValid = true ↔ 0 < t.barriers := by
  rw [valid, State.barriers, count, process]
  exact flag

theorem neverStuck_next_iff {a : Action} (h : OneBarrier s) (never : NeverStuck args sizeofLogEvent s)
    (moves : Moves args sizeofLogEvent rounds s a t) (runs : t.running = true) :
    NeverStuck args sizeofLogEvent t ↔ KeepsBarrier s a := by
  rw [neverStuck_iff] at never ⊢
  have elsewhere {o : Outcome} (notPopped : ∀ le, s.pc ≠ .popped le) : KeepsBarrier s (.main o) :=
    fun le holds => absurd holds (notPopped le)
  cases moves with
  | pushes evts data =>
      refine iff_of_true (flag_congr never rfl ?_ rfl) trivial
      simp [State.pushAll, countP_data data]
  | enqueues rbuf isControl request => exact iff_of_true (by simp [State.enqueueBarrier, State.barriers]) trivial
  | replies => exact iff_of_true (flag_congr never rfl rfl rfl) trivial
  | replyFails => cases runs
  | sigterm => exact iff_of_true (flag_congr never rfl rfl rfl) trivial
  | dies => cases runs
  | sighup => exact iff_of_true (flag_congr never rfl rfl rfl) trivial
  | idles loops => exact iff_of_true never (elsewhere (by simp [loops]))
  | stops loops =>
      exact iff_of_true (flag_congr never rfl rfl (by simp [State.inProcess, loops])) (elsewhere (by simp [loops]))
  | pops loops notDone le q front =>
      refine iff_of_true ?_ (elsewhere (by simp [loops]))
      have idle : s.inProcess = false := by simp [State.inProcess, loops]
      rw [State.barriers, idle, front, List.countP_cons] at never
      rw [never]
      cases isBarrier : isInternalBarrier le <;> simp [State.barriers, State.inProcess, isBarrier]
  | writesData le holds data s' opened =>
      have idle : s.inProcess = false := by simp [State.inProcess, holds, data]
      refine iff_of_true ?_ ?_
      · rw [opened.fields.1]
        exact flag_congr never rfl rfl idle.symm
      · intro le' holds' isBarrier
        obtain rfl : le = le' := by simpa using holds.symm.trans holds'
        rw [data] at isBarrier
        cases isBarrier
  | losesData le holds data s' opened =>
      have idle : s.inProcess = false := by simp [State.inProcess, holds, data]
      refine iff_of_true ?_ ?_
      · rw [opened.fields.1]
        exact flag_congr never rfl rfl idle.symm
      · intro le' holds' isBarrier
        obtain rfl : le = le' := by simpa using holds.symm.trans holds'
        rw [data] at isBarrier
        cases isBarrier
  | writesBarrier le holds isBarrier request parses writes =>
      have process : s.inProcess = true := by simp [State.inProcess, holds, isBarrier]
      exact iff_of_true (flag_congr never rfl rfl process.symm) fun le' _ _ => by simp [Outcome.loses, writes]
  | losesBarrier le holds isBarrier request parses fails =>
      have process : s.inProcess = true := by simp [State.inProcess, holds, isBarrier]
      obtain ⟨none, valid⟩ := h.alone process
      refine iff_of_false ?_ fun keeps => keeps le holds isBarrier fails
      simp [valid, State.barriers, State.inProcess, none]
  | rotates request holds =>
      have process : s.inProcess = true := by simp [State.inProcess, holds]
      exact iff_of_true (flag_congr never rfl rfl process.symm) (elsewhere (by simp [holds]))
  | records request oldFile newFile holds =>
      have process : s.inProcess = true := by simp [State.inProcess, holds]
      obtain ⟨none, -⟩ := h.alone process
      refine iff_of_true ?_ (elsewhere (by simp [holds]))
      simp [State.recordCycle, State.barriers, State.inProcess, none]
  | completes request oldFile newFile holds =>
      have idle : s.inProcess = false := by simp [State.inProcess, holds]
      exact iff_of_true (flag_congr never rfl rfl idle.symm) (elsewhere (by simp [holds]))
  | returns => cases runs
  | exits => cases runs

end Stuck

section Runs

variable {s : State} {dir : Dir} {o : Opening} {sends : Bool}

theorem start_oneBarrier (starts : State.start args rounds dir o sends = some s) : OneBarrier s := by
  obtain ⟨files, frames, -, -, rfl⟩ := start_eq starts
  constructor <;> simp [State.barriers, State.inProcess, State.inHand, State.atWork]

theorem stops_elsewhere {a : Action} (stops : s.next args sizeofLogEvent rounds a = none) : KeepsBarrier s a := by
  cases a with
  | handler => trivial
  | sigterm => trivial
  | sighup => trivial
  | main o =>
      intro le holds isBarrier _
      simp [State.next, State.running, State.mainStep, holds, isBarrier] at stops

theorem ends_elsewhere {t : State} {a : Action} (h : OneBarrier s) (moves : Moves args sizeofLogEvent rounds s a t)
    (running : s.running = true) (stopped : t.running = false) : KeepsBarrier s a := by
  cases a with
  | handler => trivial
  | sigterm => trivial
  | sighup => trivial
  | main o =>
      intro le holds isBarrier
      obtain ⟨request, parses, -⟩ := h.carried le (by simp [State.inHand, holds]) isBarrier
      cases moves with
      | exits s' opened got kept frames errors fatal => exact fatal.notLost le holds isBarrier (by simp [parses])
      | returns behind => simp [holds] at behind
      | idles => simp [running] at stopped
      | _ => cases stopped

/-- The flag is set exactly while a barrier is on its way, in every state of the runs in which `errno` is `ENOSPC`
whenever it is tested behind the failed write of a barrier, and in no others. -/
theorem never_stuck_iff (starts : State.start args rounds dir o sends = some s) (es : List Action) :
    (∀ pre, pre <+: es → ∀ t, Runs.run (State.next args sizeofLogEvent rounds) s pre = some t →
      t.running = true →
      NeverStuck args sizeofLogEvent t) ↔ Runs.Meets (State.next args sizeofLogEvent rounds) KeepsBarrier s es := by
  have first : NeverStuck args sizeofLogEvent s := by
    obtain ⟨files, frames, -, -, rfl⟩ := start_eq starts
    exact neverStuck_of_flag (by simp [State.barriers, State.inProcess])
  refine @Runs.meets_iff _ _ (State.next args sizeofLogEvent rounds) KeepsBarrier OneBarrier
    (fun t => t.running = true → NeverStuck args sizeofLogEvent t) ?_ ?_ ?_ _ _ (start_oneBarrier starts)
    (fun _ => first)
  · exact fun s a _ stops => stops_elsewhere stops
  · exact fun s a t inv steps => inv.next (next_moves steps)
  · intro s a t inv never steps
    have running := next_running steps
    cases runs : t.running with
    | true => exact (forall_prop_of_true rfl).trans (neverStuck_next_iff inv (never running) (next_moves steps) runs)
    | false => exact iff_of_true (fun absurd => by cases absurd) (ends_elsewhere inv (next_moves steps) running runs)

def asks (seq : BitVec 64) : Action :=
  .handler ⟨5, CycleRequestFrame.bytes ⟨⟨7, seq⟩, 0, 0⟩⟩ controlRequestChannel [] true

theorem never_stuck_iff_asks :
    (∀ pre, pre <+: [asks 1, .main succeeds] →
      ∀ t, Runs.run (State.next plainArgs 48 10) plainLogger pre = some t →
      t.running = true → NeverStuck plainArgs 48 t) ↔
      Runs.Meets (State.next plainArgs 48 10) KeepsBarrier plainLogger [asks 1, .main succeeds] :=
  never_stuck_iff (Option.some_get _).symm [asks 1, .main succeeds]

def failedBarrier : List Action := [asks 1, .main succeeds, .main { succeeds with writeFails := some .other }, asks 2]

/-- The write of the first barrier fails, and the next request is refused. -/
theorem stuck_after_failed_barrier : ∃ t, Runs.run (State.next plainArgs 48 10) plainLogger failedBarrier = some t ∧
    t.running = true ∧ t.q = [] ∧ t.inProcess = false ∧ t.sent = [.ready 7,
      .cycleError ⟨7, 1⟩ errControlProtocolInternal "failed to write cycle barrier marker",
      .cycleError ⟨7, 2⟩ errBusyWithOtherCycle "logger busy with another cycle"] ∧
        ¬ NeverStuck plainArgs 48 t := by
  have ended : (Runs.run (State.next plainArgs 48 10) plainLogger failedBarrier).map
      (fun t => (t.running, t.q, t.inProcess, t.sent, t.pendingCycleValid)) = some (true, [], false, [.ready 7,
        .cycleError ⟨7, 1⟩ errControlProtocolInternal "failed to write cycle barrier marker",
        .cycleError ⟨7, 2⟩ errBusyWithOtherCycle "logger busy with another cycle"], true) := by decide
  obtain ⟨t, runs, same⟩ := Option.map_eq_some_iff.mp ended
  simp only [Prod.mk.injEq] at same
  obtain ⟨running, q, process, sent, valid⟩ := same
  refine ⟨t, runs, running, q, process, sent, fun never => ?_⟩
  have barrier := never.flag.mp valid
  simp [q, process] at barrier

end Runs

end Zcm.Logger
