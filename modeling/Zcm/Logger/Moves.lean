import Mathlib.Algebra.BigOperators.Group.List.Basic
import Zcm.Logger.Core

namespace Zcm.Logger
open Zcm.Lib Zcm.Eventlog

variable {args : Args} {sizeofLogEvent rounds : Nat}

section States

inductive OpenedLogs (args : Args) (rounds : Nat) (s : State) : State → Prop
  | none : OpenedLogs args rounds s s
  | another {t : State} (before : OpenedLogs args rounds s t)
      (due : args.autoIncrement = true ∨ args.rotate > 0 ∨ t.gotSighup = true) (o : Opening) (files : Files)
      (opened : nextLogfile args rounds o t.files = some (some files)) :
      OpenedLogs args rounds s (t.startedLog files)

def State.pushAll (sizeofLogEvent : Nat) (evts : List Event) (s : State) : State :=
  { s with
    q := s.q ++ evts
    totalMemoryUsage := s.totalMemoryUsage + (evts.map (memory sizeofLogEvent)).sum
    pushed := s.pushed ++ evts }

def Frame.isComplete : Frame → Bool
  | .cycleComplete .. => true
  | .ready .. | .cycleError .. => false

def Outcome.loses (o : Outcome) : Prop := ∃ errno, o.writeFails = some errno ∧ o.isFull errno = false

/-- Where the main thread can exit: not in the loop or behind it, and not because a barrier was not written
without the disk being found full. -/
structure FatalAt (s : State) (o : Outcome) : Prop where
  notLooping : s.pc ≠ .looping
  notStopping : s.pc ≠ .stopping
  notLost : ∀ le, s.pc = .popped le → isInternalBarrier le = true →
    (parseCycleRequestFrame le.data).isSome = true →
    ¬ o.loses

inductive Moves (args : Args) (sizeofLogEvent rounds : Nat) (s : State) : Action → State → Prop
  | pushes {rbuf channel transcoded sends} (evts : List Event) (data : ∀ le ∈ evts, isInternalBarrier le = false) :
      Moves args sizeofLogEvent rounds s (.handler rbuf channel transcoded sends) (s.pushAll sizeofLogEvent evts)
  | enqueues (rbuf : ReceiveBuffer) {channel transcoded sends} (isControl : channel = controlRequestChannel)
      (request : CycleRequestFrame)
      (parses : parseCycleRequestFrame rbuf.data = some request)
      (session : request.cycle.sessionId = args.controlSessionId) (idle : s.pendingCycleValid = false)
      (other : ∀ c, s.completed = some c → c.cycle ≠ request.cycle) :
      Moves args sizeofLogEvent rounds s (.handler rbuf channel transcoded sends)
        (s.enqueueBarrier sizeofLogEvent rbuf request)
  | replies {rbuf channel transcoded sends} (frames : List Frame)
      (complete : ∀ frame ∈ frames, frame.isComplete = true → ∃ c, s.completed = some c ∧
        frame = .cycleComplete c.cycle c.oldFile c.newFile) :
      Moves args sizeofLogEvent rounds s (.handler rbuf channel transcoded sends) { s with sent := s.sent ++ frames }
  | replyFails {rbuf channel transcoded sends} :
    Moves args sizeofLogEvent rounds s (.handler rbuf channel transcoded sends) s.exit
  | sigterm : Moves args sizeofLogEvent rounds s .sigterm { s with done := s.done + 1 }
  | dies : Moves args sizeofLogEvent rounds s .sigterm ({ s with done := s.done + 1 } : State).exit
  | sighup (got : Bool) (due : got = true → s.gotSighup = true ∨ args.autoIncrement = true ∨ args.rotate > 0) :
      Moves args sizeofLogEvent rounds s .sighup { s with gotSighup := got }
  | idles {o} (loops : s.pc = .looping) (empty : s.q = []) : Moves args sizeofLogEvent rounds s (.main o) s
  | stops {o} (loops : s.pc = .looping) (isDone : s.done > 0) :
      Moves args sizeofLogEvent rounds s (.main o) { s with pc := .stopping }
  | pops {o} (loops : s.pc = .looping) (notDone : s.done = 0) (le : Event) (q : List Event) (front : s.q = le :: q) :
      Moves args sizeofLogEvent rounds s (.main o)
        { s with q := q, totalMemoryUsage := s.totalMemoryUsage - memory sizeofLogEvent le, pc := .popped le }
  | writesData {o} (le : Event) (holds : s.pc = .popped le) (data : isInternalBarrier le = false) (s' : State)
      (opened : OpenedLogs args rounds s s') (writes : o.writeFails = none) :
      Moves args sizeofLogEvent rounds s
        (.main o) { ({ s' with gotSighup := false } : State).writeEvent le with pc := .looping }
  | losesData {o} (le : Event) (holds : s.pc = .popped le) (data : isInternalBarrier le = false) (s' : State)
      (opened : OpenedLogs args rounds s s') (fails : o.loses) :
      Moves args sizeofLogEvent rounds s (.main o) { s' with gotSighup := false, pc := .looping }
  | writesBarrier {o} (le : Event) (holds : s.pc = .popped le) (isBarrier : isInternalBarrier le = true)
      (request : CycleRequestFrame) (parses : parseCycleRequestFrame le.data = some request)
      (writes : o.writeFails = none) :
      Moves args sizeofLogEvent rounds s (.main o) { s.writeEvent le with pc := .written request }
  | losesBarrier {o} (le : Event) (holds : s.pc = .popped le) (isBarrier : isInternalBarrier le = true)
      (request : CycleRequestFrame) (parses : parseCycleRequestFrame le.data = some request) (fails : o.loses)
      (frames : List Frame) (errors : ∀ frame ∈ frames, frame.isComplete = false) :
      Moves args sizeofLogEvent rounds s (.main o) { s with sent := s.sent ++ frames, pc := .looping }
  | rotates {o} (request : CycleRequestFrame) (holds : s.pc = .written request) (files : Files)
      (opened : nextLogfile args rounds o.first s.files = some (some files)) :
      Moves args sizeofLogEvent rounds s (.main o)
        { s.startedLog files with
          pc := .rotated request s.files.filename files.filename
          rotations := s.rotations ++ [(⟨request.cycle, s.files.filename, files.filename⟩, s.numSplits)] }
  | records {o} (request : CycleRequestFrame) (oldFile newFile : Name)
      (holds : s.pc = .rotated request oldFile newFile) :
      Moves args sizeofLogEvent rounds s (.main o) (s.recordCycle request oldFile newFile)
  | completes {o} (request : CycleRequestFrame) (oldFile newFile : Name)
      (holds : s.pc = .recorded request oldFile newFile)
      (frames : List Frame) (complete : ∀ frame ∈ frames, frame = .cycleComplete request.cycle oldFile newFile) :
      Moves args sizeofLogEvent rounds s (.main o) { s with sent := s.sent ++ frames, pc := .looping }
  | returns {o} (stopped : s.pc = .stopping) : Moves args sizeofLogEvent rounds s (.main o) s.returnFromMain
  | exits {o} (s' : State) (opened : OpenedLogs args rounds s s') (got : Bool)
      (kept : got = true → s.gotSighup = true)
      (frames : List Frame) (errors : ∀ frame ∈ frames, frame.isComplete = false) (fatal : FatalAt s o) :
      Moves args sizeofLogEvent rounds s (.main o)
        ({ s' with gotSighup := got, sent := s'.sent ++ frames } : State).exit

end States

section Fields

variable {s t : State}

theorem OpenedLogs.fields (h : OpenedLogs args rounds s t) :
    t = { s with files := t.files, logsize := t.logsize, numSplits := t.numSplits } ∧
      s.numSplits ≤ t.numSplits := by
  induction h with
  | none => exact ⟨rfl, Nat.le_refl _⟩
  | another before due o files opened ih =>
      obtain ⟨same, le⟩ := ih
      refine ⟨?_, Nat.le_succ_of_le le⟩
      rw [State.startedLog, same]

end Fields

section Replies

variable {s : State}

theorem sendControlFrame_cases (args : Args) (sends : Bool) (frame : Frame) (s : State) :
    ∃ sent frames, s.sendControlFrame args sends frame = (sent, { s with sent := s.sent ++ frames }) ∧
      (∀ f ∈ frames, f = frame) ∧ (sent = false → frames = []) := by
  unfold State.sendControlFrame
  split
  · exact ⟨true, [], by simp, by simp, by simp⟩
  · split
    · exact ⟨true, [frame], rfl, by simp, by simp⟩
    · exact ⟨false, [], by simp, by simp, by simp⟩

theorem handleCycleRequest_moves {rbuf : ReceiveBuffer} {channel : List Byte} {transcoded : List (Option DataEvent)}
    {sends : Bool} (isControl : channel = controlRequestChannel) :
    Moves args sizeofLogEvent rounds s (.handler rbuf channel transcoded sends)
      (s.handleCycleRequest args sizeofLogEvent rbuf sends) := by
  have same : Moves args sizeofLogEvent rounds s (.handler rbuf channel transcoded sends) s := by
    simpa using @Moves.replies args sizeofLogEvent rounds s rbuf channel transcoded sends [] (by simp)
  have reply (frame : Frame) (complete : frame.isComplete = true → ∃ c, s.completed = some c ∧
        frame = .cycleComplete c.cycle c.oldFile c.newFile) : Moves args sizeofLogEvent rounds s
      (.handler rbuf channel transcoded sends)
      (if (s.sendControlFrame args sends frame).1 then (s.sendControlFrame args sends frame).2
        else (s.sendControlFrame args sends frame).2.exit) := by
    obtain ⟨sent, frames, result, only, failed⟩ := sendControlFrame_cases args sends frame s
    rw [result]
    cases sent with
    | true => exact .replies frames fun f member isComplete => only f member ▸ complete (only f member ▸ isComplete)
    | false =>
        obtain rfl := failed rfl
        simpa using Moves.replyFails
  unfold State.handleCycleRequest
  split
  · exact same
  next request parses =>
    split
    · exact same
    next session =>
      split
      · split
        · exact same
        · exact reply _ fun isComplete => by cases isComplete
      next idle =>
        have notPending : s.pendingCycleValid = false := by simpa using idle
        have ours : request.cycle.sessionId = args.controlSessionId := by simpa using session
        split
        next c isLast =>
          split
          next again =>
            rw [← again]
            exact reply _ fun _ => ⟨c, isLast, rfl⟩
          next other =>
            refine .enqueues rbuf isControl request parses ours notPending fun c' isLast' => ?_
            obtain rfl := Option.some.inj (isLast.symm.trans isLast')
            exact other
        next none =>
          refine .enqueues rbuf isControl request parses ours notPending fun c isLast => ?_
          rw [none] at isLast
          cases isLast

end Replies

section Handler

variable {s : State}

theorem pushAll_push (le : Event) (evts : List Event) :
    (s.push sizeofLogEvent le).pushAll sizeofLogEvent evts = s.pushAll sizeofLogEvent (le :: evts) := by
  simp [State.push, State.pushAll, add_assoc]

theorem pushEvents_eq (dataSize : Nat) (evts : List (Option DataEvent)) (s : State) :
    ∃ pushed : List Event, s.pushEvents args sizeofLogEvent dataSize evts = s.pushAll sizeofLogEvent pushed ∧
      (∀ le ∈ pushed, isInternalBarrier le = false) ∧ (pushed = [] ↔ ∀ le ∈ evts, le = none) := by
  induction evts generalizing s with
  | nil => exact ⟨[], by simp [State.pushEvents, State.pushAll], by simp, by simp⟩
  | cons le evts ih =>
      cases le with
      | none =>
          obtain ⟨pushed, same, data, empty⟩ := ih s
          exact ⟨pushed, same, data, by simp [empty]⟩
      | some le =>
          unfold State.pushEvents
          simp only
          split
          · obtain ⟨pushed, same, data, -⟩ := ih (s.push sizeofLogEvent le.event)
            refine ⟨le.event :: pushed, by rw [same, pushAll_push], ?_, by simp⟩
            simpa using ⟨le.data, data⟩
          · refine ⟨[le.event], ?_, by simpa using le.data, by simp⟩
            simp [State.push, State.pushAll]

theorem handler_moves (rbuf : ReceiveBuffer) (channel : List Byte) (transcoded : List (Option DataEvent))
    (sends : Bool) :
    Moves args sizeofLogEvent rounds s (.handler rbuf channel transcoded sends)
      (s.handler args sizeofLogEvent rbuf channel transcoded sends) := by
  unfold State.handler
  split
  next isControl => exact handleCycleRequest_moves isControl
  next =>
    obtain ⟨pushed, same, data, -⟩ := @pushEvents_eq args sizeofLogEvent rbuf.data.length
      (if transcoded.isEmpty then [some (State.received args rbuf channel)] else transcoded).reverse s
    rw [same]
    exact .pushes pushed data

end Handler

section Main

variable {s t : State} {o : Outcome}

theorem splitLog_opened {due : Bool} {opening : Opening} {t : State}
    (isDue : due = true → args.autoIncrement = true ∨ args.rotate > 0 ∨ s.gotSighup = true)
    (h : s.splitLog args rounds due opening = some (some t)) : OpenedLogs args rounds s t := by
  unfold State.splitLog at h
  split at h
  next now =>
    cases next : nextLogfile args rounds opening s.files with
    | none => simp [next] at h
    | some result =>
        cases result with
        | none => simp [next] at h
        | some files =>
            rw [next] at h
            cases h
            exact .another .none (isDue now) opening files next
  next =>
    cases h
    exact .none

theorem OpenedLogs.trans {u : State} (first : OpenedLogs args rounds s t) (second : OpenedLogs args rounds t u) :
    OpenedLogs args rounds s u := by
  induction second with
  | none => exact first
  | another _ due o files opened ih => exact ih.another due o files opened

theorem OpenedLogs.gotSighup (h : OpenedLogs args rounds s t) : t.gotSighup = s.gotSighup := by rw [h.fields.1]

theorem exits_moves (opened : OpenedLogs args rounds s t) (got : Bool) (kept : got = true → s.gotSighup = true)
    (fatal : FatalAt s o) :
    Moves args sizeofLogEvent rounds s (.main o) ({ t with gotSighup := got } : State).exit := by
  simpa using @Moves.exits args sizeofLogEvent rounds s o t opened got kept [] (by simp) fatal

theorem error_exits {sends : Bool} {frame : Frame} (error : frame.isComplete = false) (fatal : FatalAt s o) :
    Moves args sizeofLogEvent rounds s (.main o) (s.sendControlFrame args sends frame).2.exit := by
  obtain ⟨sent, frames, result, only, -⟩ := sendControlFrame_cases args sends frame s
  rw [result]
  exact .exits s .none s.gotSighup id frames (fun f member => only f member ▸ error) fatal

theorem writeData_moves {le : Event} (holds : s.pc = .popped le) (data : isInternalBarrier le = false)
    (steps : s.writeData args rounds o le = some t) : Moves args sizeofLogEvent rounds s (.main o) t := by
  have fatal : FatalAt s o := by
    refine ⟨by simp [holds], by simp [holds], fun le' holds' isBarrier => ?_⟩
    obtain rfl : le = le' := by simpa using holds.symm.trans holds'
    rw [data] at isBarrier
    cases isBarrier
  unfold State.writeData at steps
  split at steps
  · cases steps
  · cases steps
    exact exits_moves .none s.gotSighup id fatal
  next s₁ first =>
    have opened₁ := splitLog_opened (fun due => or_assoc.mp (.inl (args.splits ⟨_, due⟩))) first
    split at steps
    · cases steps
    · cases steps
      exact exits_moves opened₁ s₁.gotSighup (fun got => opened₁.gotSighup ▸ got) fatal
    next s₂ second =>
      have opened := opened₁.trans (splitLog_opened (fun due => .inr (.inr due)) second)
      simp only at steps
      split at steps
      next writes =>
        cases steps
        exact .writesData le holds data s₂ opened writes
      next errno fails =>
        cases steps
        split
        · exact exits_moves opened false (by simp) fatal
        next notFull => exact .losesData le holds data s₂ opened ⟨errno, fails, by simpa using notFull⟩

theorem writeBarrier_moves {le : Event} (holds : s.pc = .popped le) (isBarrier : isInternalBarrier le = true) :
    Moves args sizeofLogEvent rounds s (.main o) (s.writeBarrier args o le) := by
  have fatal (known : (parseCycleRequestFrame le.data).isSome = true → ¬ o.loses) : FatalAt s o := by
    refine ⟨by simp [holds], by simp [holds], fun le' holds' _ parses => ?_⟩
    obtain rfl : le = le' := by simpa using holds.symm.trans holds'
    exact known parses
  unfold State.writeBarrier
  split
  next malformed => exact error_exits rfl (fatal (by simp [malformed]))
  next request parses =>
    split
    next writes => exact .writesBarrier le holds isBarrier request parses writes
    next errno fails =>
      simp only
      split
      next full =>
        refine error_exits rfl (fatal fun _ => ?_)
        rintro ⟨errno', fails', notFull⟩
        obtain rfl := Option.some.inj (fails.symm.trans fails')
        rw [full] at notFull
        cases notFull
      next notFull =>
        obtain ⟨sent, frames, result, only, -⟩ := sendControlFrame_cases args o.sends
          (.cycleError request.cycle errControlProtocolInternal "failed to write cycle barrier marker") s
        rw [result]
        exact .losesBarrier le holds isBarrier request parses ⟨errno, fails, by simpa using notFull⟩ frames
          fun f member => by rw [only f member]; rfl

theorem rotateLog_moves {request : CycleRequestFrame} (holds : s.pc = .written request)
    (steps : s.rotateLog args rounds o request = some t) : Moves args sizeofLogEvent rounds s (.main o) t := by
  unfold State.rotateLog at steps
  split at steps
  next => cases steps
  next =>
    cases steps
    exact error_exits rfl ⟨by simp [holds], by simp [holds], by simp [holds]⟩
  next files opened =>
    cases steps
    exact .rotates request holds files opened

theorem completeCycle_moves {request : CycleRequestFrame} {oldFile newFile : Name}
    (holds : s.pc = .recorded request oldFile newFile) :
    Moves args sizeofLogEvent rounds s (.main o) (s.completeCycle args o request oldFile newFile) := by
  obtain ⟨sent, frames, result, only, failed⟩ := sendControlFrame_cases args o.sends
    (.cycleComplete request.cycle oldFile newFile) s
  unfold State.completeCycle
  rw [result]
  cases sent with
  | true => exact .completes request oldFile newFile holds frames only
  | false =>
      obtain rfl := failed rfl
      simpa using @Moves.exits args sizeofLogEvent rounds s o s .none s.gotSighup id [] (by simp)
        ⟨by simp [holds], by simp [holds], by simp [holds]⟩

theorem popEvent_moves (loops : s.pc = .looping) :
    Moves args sizeofLogEvent rounds s (.main o) (s.popEvent sizeofLogEvent) := by
  unfold State.popEvent
  split
  next isDone => exact .stops loops isDone
  next notDone =>
    split
    next empty => exact .idles loops empty
    next le q front => exact .pops loops (by omega) le q front

theorem mainStep_moves (steps : s.mainStep args sizeofLogEvent rounds o = some t) :
    Moves args sizeofLogEvent rounds s (.main o) t := by
  unfold State.mainStep at steps
  split at steps
  next loops =>
    cases steps
    exact popEvent_moves loops
  next le holds =>
    split at steps
    next isBarrier =>
      cases steps
      exact writeBarrier_moves holds isBarrier
    next data => exact writeData_moves holds (by simpa using data) steps
  next request holds => exact rotateLog_moves holds steps
  next request oldFile newFile holds =>
    cases steps
    exact .records request oldFile newFile holds
  next request oldFile newFile holds =>
    cases steps
    exact completeCycle_moves holds
  next stopped =>
    cases steps
    exact .returns stopped
  next => cases steps
  next => cases steps

theorem next_moves {a : Action} (steps : s.next args sizeofLogEvent rounds a = some t) :
    Moves args sizeofLogEvent rounds s a t := by
  unfold State.next at steps
  split at steps
  · cases steps
  · cases a with
    | handler rbuf channel transcoded sends =>
        cases steps
        exact handler_moves rbuf channel transcoded sends
    | sigterm =>
        cases steps
        unfold State.sighandler
        simp only
        split
        · exact .dies
        · exact .sigterm
    | sighup =>
        cases steps
        unfold State.sighupHandler
        split
        · exact .sighup s.gotSighup .inl
        next renews => exact .sighup true fun _ => .inr (by simpa [or_iff_not_imp_left] using renews)
    | main o => exact mainStep_moves steps

theorem next_running {a : Action} (steps : s.next args sizeofLogEvent rounds a = some t) : s.running = true := by
  unfold State.next at steps
  split at steps
  · cases steps
  next runs => simpa using runs

end Main

end Zcm.Logger
