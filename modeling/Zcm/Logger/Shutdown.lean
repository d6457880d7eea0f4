import Zcm.Logger.Order

namespace Zcm.Logger
open Zcm.Lib Zcm.Eventlog

variable {args : Args} {sizeofLogEvent rounds : Nat}

def Pushes (args : Args) (s : State) (rbuf : ReceiveBuffer) (channel : List Byte)
    (transcoded : List (Option DataEvent)) : Prop :=
  if channel = controlRequestChannel then
    ∃ request, parseCycleRequestFrame rbuf.data = some request ∧ request.cycle.sessionId = args.controlSessionId ∧
      s.pendingCycleValid = false ∧ ∀ c, s.completed = some c → c.cycle ≠ request.cycle
  else transcoded = [] ∨ ∃ le ∈ transcoded, le ≠ none

/-- The queue is empty when the loop is left, and nothing is pushed behind it. -/
def Drained (args : Args) (s : State) : Action → Prop
  | .handler rbuf channel transcoded _ => s.pc = .stopping → ¬ Pushes args s rbuf channel transcoded
  | .main _ => s.pc = .looping → s.done > 0 → s.q = []
  | .sigterm => True
  | .sighup => True

section Steps

variable {s t : State}

theorem sendControlFrame_q (args : Args) (sends : Bool) (frame : Frame) (s : State) :
    (if (s.sendControlFrame args sends frame).1 then (s.sendControlFrame args sends frame).2
      else (s.sendControlFrame args sends frame).2.exit).q = s.q := by
  obtain ⟨sent, frames, result, -, -⟩ := sendControlFrame_cases args sends frame s
  rw [result]
  cases sent <;> rfl

theorem handleCycleRequest_q (rbuf : ReceiveBuffer) (sends : Bool) (transcoded : List (Option DataEvent)) :
    (s.handleCycleRequest args sizeofLogEvent rbuf sends).q = [] ↔
      s.q = [] ∧ ¬ Pushes args s rbuf controlRequestChannel transcoded := by
  have kept {t : State} (same : t.q = s.q) (refused : ¬ Pushes args s rbuf controlRequestChannel transcoded) :
      t.q = [] ↔ s.q = [] ∧ ¬ Pushes args s rbuf controlRequestChannel transcoded := by
    rw [same]
    exact (and_iff_left refused).symm
  have grown (request : CycleRequestFrame) (accepted : Pushes args s rbuf controlRequestChannel transcoded) :
      (s.enqueueBarrier sizeofLogEvent rbuf request).q = [] ↔
        s.q = [] ∧ ¬ Pushes args s rbuf controlRequestChannel transcoded := by
    simp [State.enqueueBarrier, accepted]
  unfold State.handleCycleRequest
  split
  next malformed => exact kept rfl (by simp [Pushes, malformed])
  next request parses =>
    split
    next stale => exact kept rfl (by simp [Pushes, parses, stale])
    next session =>
      have ours : request.cycle.sessionId = args.controlSessionId := by simpa using session
      split
      next pending =>
        have refused : ¬ Pushes args s rbuf controlRequestChannel transcoded := by simp [Pushes, pending]
        split
        · exact kept rfl refused
        · exact kept (sendControlFrame_q ..) refused
      next idle =>
        have notPending : s.pendingCycleValid = false := by simpa using idle
        split
        next c isLast =>
          split
          next again => exact kept (sendControlFrame_q ..) (by simp [Pushes, parses, isLast, again])
          next other => exact grown request (by simp [Pushes, parses, ours, notPending, isLast, other])
        next none => exact grown request (by simp [Pushes, parses, ours, notPending, none])

theorem handler_q (rbuf : ReceiveBuffer) (channel : List Byte) (transcoded : List (Option DataEvent)) (sends : Bool) :
    (s.handler args sizeofLogEvent rbuf channel transcoded sends).q = [] ↔
      s.q = [] ∧ ¬ Pushes args s rbuf channel transcoded := by
  unfold State.handler
  split
  next isControl =>
    subst isControl
    exact handleCycleRequest_q rbuf sends transcoded
  next isData =>
    obtain ⟨pushed, same, -, empty⟩ := @pushEvents_eq args sizeofLogEvent rbuf.data.length
      (if transcoded.isEmpty then [some (State.received args rbuf channel)] else transcoded).reverse s
    rw [same]
    simp only [State.pushAll, List.append_eq_nil_iff, empty, Pushes, isData, if_false]
    refine and_congr_right fun _ => ?_
    cases transcoded with
    | nil => simp
    | cons le rest => simp [or_comm]

end Steps

section Runs

variable {s t u : State}

def Emptied (s : State) : Prop := s.pc = .stopping → s.q = []

theorem handler_pc {rbuf : ReceiveBuffer} {channel : List Byte} {transcoded : List (Option DataEvent)} {sends : Bool}
    (moves : Moves args sizeofLogEvent rounds s (.handler rbuf channel transcoded sends) t) (runs : t.running = true) :
    t.pc = s.pc := by
  cases moves with
  | pushes => rfl
  | enqueues => rfl
  | replies => rfl
  | replyFails => cases runs

theorem emptied_iff {a : Action} (steps : s.next args sizeofLogEvent rounds a = some t) (runs : t.running = true) :
    Emptied t ↔ Emptied s ∧ Drained args s a := by
  have moves := next_moves steps
  cases a with
  | handler rbuf channel transcoded sends =>
      have result : t = s.handler args sizeofLogEvent rbuf channel transcoded sends := by
        simp only [State.next, next_running steps, Bool.not_true, Bool.false_eq_true, if_false,
          Option.some.injEq] at steps
        exact steps.symm
      simp only [Emptied, Drained, handler_pc moves runs]
      rw [result, handler_q]
      exact forall_and
  | sigterm =>
      cases moves with
      | sigterm => exact (and_iff_left trivial).symm
      | dies => cases runs
  | sighup =>
      cases moves with
      | sighup => exact (and_iff_left trivial).symm
  | main o =>
      cases moves with
      | idles loops empty => simp [Emptied, Drained, loops, empty]
      | stops loops isDone => simp [Emptied, Drained, loops, isDone]
      | pops loops notDone => simp [Emptied, Drained, loops, notDone]
      | writesData le holds => simp [Emptied, Drained, holds]
      | losesData le holds => simp [Emptied, Drained, holds]
      | writesBarrier le holds => simp [Emptied, Drained, holds]
      | losesBarrier le holds => simp [Emptied, Drained, holds]
      | rotates request holds => simp [Emptied, Drained, holds]
      | records request oldFile newFile holds => simp [Emptied, Drained, holds, State.recordCycle]
      | completes request oldFile newFile holds => simp [Emptied, Drained, holds]
      | returns => cases runs
      | exits => cases runs

theorem next_of_not_running (stopped : t.running = false) (a : Action) :
    t.next args sizeofLogEvent rounds a = none := by
  simp [State.next, stopped]

theorem run_of_not_running (stopped : t.running = false) {es : List Action}
    (runs : Runs.run (State.next args sizeofLogEvent rounds) t es = some u) : es = [] ∧ u = t := by
  cases es with
  | nil =>
      cases runs
      exact ⟨rfl, rfl⟩
  | cons a es =>
      obtain ⟨v, steps, -⟩ := Runs.run_cons runs
      rw [next_of_not_running stopped] at steps
      cases steps

theorem returns_of_returned {a : Action} (moves : Moves args sizeofLogEvent rounds s a t) (running : s.running = true)
    (returned : t.pc = .returned) : s.pc = .stopping ∧ (∃ o, a = .main o) ∧ t = s.returnFromMain := by
  have kept (same : t.pc = s.pc) : False := by
    rw [State.running, ← same, returned] at running
    cases running
  cases moves with
  | returns stopped => exact ⟨stopped, ⟨_, rfl⟩, rfl⟩
  | pushes => exact (kept rfl).elim
  | enqueues => exact (kept rfl).elim
  | replies => exact (kept rfl).elim
  | sigterm => exact (kept rfl).elim
  | sighup => exact (kept rfl).elim
  | idles => exact (kept rfl).elim
  | _ => cases returned

theorem returned_iff (order : s.running = true → InOrder sizeofLogEvent s) (running : s.running = true)
    {es : List Action}
    (writes : ∀ a ∈ es, a.writes = true) (runs : Runs.run (State.next args sizeofLogEvent rounds) s es = some t)
    (returned : t.pc = .returned) :
    t.pushed = t.written.map Prod.fst ↔
      Emptied s ∧ Runs.Meets (State.next args sizeofLogEvent rounds) (Drained args) s es := by
  induction es generalizing s with
  | nil =>
      cases runs
      rw [State.running, returned] at running
      cases running
  | cons a es ih =>
      obtain ⟨u, steps, rest⟩ := Runs.run_cons runs
      rw [Runs.meets_cons steps]
      cases uRunning : u.running with
      | true =>
          have order' (_ : u.running = true) : InOrder sizeofLogEvent u :=
            (order running).next (writes a (by simp)) steps uRunning
          rw [ih order' uRunning (fun a' member => writes a' (by simp [member])) rest, emptied_iff steps uRunning]
          exact and_assoc
      | false =>
          obtain ⟨rfl, rfl⟩ := run_of_not_running uRunning rest
          obtain ⟨stopped, ⟨o, rfl⟩, rfl⟩ := returns_of_returned (next_moves steps) running returned
          have all := (order running).all
          simp only [State.inHand, stopped, List.append_nil] at all
          simp only [Emptied, stopped, forall_const, Drained, Runs.Meets, and_true, reduceCtorEq, false_implies]
          change s.pushed = s.written.map Prod.fst ↔ s.q = []
          simp [all]

/-- Where every write succeeds and `main` returns, every event pushed is in a log file exactly if the queue
was empty when the loop was left and nothing was pushed after that. -/
theorem shutdown_loses_nothing_iff {dir : Dir} {o : Opening} {sends : Bool}
    (starts : State.start args rounds dir o sends = some s) {es : List Action} (writes : ∀ a ∈ es, a.writes = true)
    (runs : Runs.run (State.next args sizeofLogEvent rounds) s es = some t) (returned : t.pc = .returned) :
    t.pushed = t.written.map Prod.fst ↔ Runs.Meets (State.next args sizeofLogEvent rounds) (Drained args) s es := by
  have order := @start_inOrder args sizeofLogEvent rounds dir o sends s starts
  obtain ⟨files, frames, -, -, rfl⟩ := start_eq starts
  rw [returned_iff (fun _ => order) rfl writes runs returned]
  exact and_iff_right fun stopped => by cases stopped

theorem shutdown_loses_nothing_iff_idle :
    ((Runs.run (State.next plainArgs 48 10) plainLogger
        (oneEvent ++ [Action.sigterm, .main succeeds, .main succeeds])).get (by decide)).pushed =
      ((Runs.run (State.next plainArgs 48 10) plainLogger
        (oneEvent ++ [Action.sigterm, .main succeeds, .main succeeds])).get (by decide)).written.map Prod.fst ↔
      Runs.Meets (State.next plainArgs 48 10) (Drained plainArgs) plainLogger
        (oneEvent ++ [Action.sigterm, .main succeeds, .main succeeds]) := by
  have started : State.start plainArgs 10 (fun _ => none) opens true = some plainLogger := (Option.some_get _).symm
  have writes : ∀ a ∈ oneEvent ++ [Action.sigterm, .main succeeds, .main succeeds], a.writes = true := by decide
  exact shutdown_loses_nothing_iff started writes (Option.some_get _).symm (by decide)

/-- A signal behind an event, before the main thread has taken it from the queue. -/
def interrupted : List Action :=
  [.handler ⟨5, [1, 2]⟩ (ascii ['A']) [] true, .sigterm, .main succeeds, .main succeeds]

theorem event_lost_at_shutdown : (∀ a ∈ interrupted, a.writes = true) ∧
    ∃ t, Runs.run (State.next plainArgs 48 10) plainLogger interrupted = some t ∧ t.pc = .returned ∧
      t.pushed = [⟨0, 5, ascii ['A'], [1, 2]⟩] ∧ t.written = [] := by
  refine ⟨by decide, ?_⟩
  have ended : (Runs.run (State.next plainArgs 48 10) plainLogger interrupted).map
      (fun t => (t.pc, t.pushed, t.written)) = some (.returned, [⟨0, 5, ascii ['A'], [1, 2]⟩], []) := by decide
  obtain ⟨t, runs, same⟩ := Option.map_eq_some_iff.mp ended
  simp only [Prod.mk.injEq] at same
  exact ⟨t, runs, same⟩

end Runs

end Zcm.Logger
