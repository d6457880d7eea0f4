import Mathlib.Data.List.ReduceOption
import Zcm.Logger.Order

namespace Zcm.Logger
open Zcm.Lib Zcm.Eventlog

section Program

variable (args : Args) (sizeofLogEvent : Nat)

def dropEvents : List (Option DataEvent) → Option (List Event)
  | [] => some []
  | none :: _ => none
  | some le :: evts => (dropEvents evts).map (le.event :: ·)

def pushOrDrop (dataSize : Nat) : Bool → List (Option DataEvent) → State → Option (State × List Event)
  | _, [], s => some (s, [])
  | false, evt :: evts, s => (dropEvents (evt :: evts)).map (s, ·)
  | true, none :: evts, s => pushOrDrop dataSize true evts s
  | true, some le :: evts, s =>
      let s := s.push sizeofLogEvent le.event
      pushOrDrop dataSize (args.maxTargetMemory = 0 ∨ s.totalMemoryUsage + dataSize < args.maxTargetMemory) evts s

def handlerEvents (rbuf : ReceiveBuffer) (channel : List Byte) (transcoded : List (Option DataEvent)) :
    List (Option DataEvent) :=
  if transcoded.isEmpty then [some (State.received args rbuf channel)] else transcoded

/-- `Logger::handler`, with the events it frees, unless it dereferences a null event. -/
def handlerChecked (rbuf : ReceiveBuffer) (channel : List Byte) (transcoded : List (Option DataEvent))
    (sends : Bool) (s : State) : Option (State × List Event) :=
  if channel = controlRequestChannel then some (s.handleCycleRequest args sizeofLogEvent rbuf sends, [])
  else pushOrDrop args sizeofLogEvent rbuf.data.length true (handlerEvents args rbuf channel transcoded).reverse s

end Program

variable {args : Args} {sizeofLogEvent rounds : Nat}

def present (evts : List (Option DataEvent)) : List Event := evts.reduceOption.map (·.event)

/-- Every event of the vector is queued or freed, and the counter is that of the queue. -/
structure Handled (sizeofLogEvent : Nat) (s s' : State) (evts : List (Option DataEvent)) (freed : List Event) :
    Prop where
  once : ∃ queued, s'.q = s.q ++ queued ∧ (queued ++ freed).Perm (present evts)
  usage : s'.totalMemoryUsage = (s'.q.map (memory sizeofLogEvent)).sum

def Fills (args : Args) (sizeofLogEvent : Nat) (s : State) (dataSize : Nat) (queued : List Event) : Prop :=
  args.maxTargetMemory ≠ 0 ∧
    args.maxTargetMemory ≤ s.totalMemoryUsage + (queued.map (memory sizeofLogEvent)).sum + dataSize

/-- A null entry is left in the vector when an event reaches the limit. -/
def NullsBehindLimit (args : Args) (sizeofLogEvent : Nat) (s : State) (dataSize : Nat)
    (evts : List (Option DataEvent)) : Prop :=
  ∃ front le rest, evts = front ++ some le :: rest ∧
    Fills args sizeofLogEvent s dataSize (present front ++ [le.event]) ∧ none ∈ rest

@[simp] theorem present_nil : present [] = [] := rfl

@[simp] theorem present_none (evts : List (Option DataEvent)) : present (none :: evts) = present evts := rfl

@[simp] theorem present_some (le : DataEvent) (evts : List (Option DataEvent)) :
    present (some le :: evts) = le.event :: present evts := rfl

section Loop

variable {s : State} {dataSize : Nat}

theorem dropEvents_of_null {evts : List (Option DataEvent)} (null : none ∈ evts) : dropEvents evts = none := by
  induction evts with
  | nil => simp at null
  | cons evt evts ih =>
      cases evt with
      | none => rfl
      | some le => simp [dropEvents, ih (by simpa using null)]

theorem dropEvents_present {evts : List (Option DataEvent)} (noNull : none ∉ evts) :
    dropEvents evts = some (present evts) := by
  induction evts with
  | nil => rfl
  | cons evt evts ih =>
      cases evt with
      | none => simp at noNull
      | some le => simp [dropEvents, ih (by simpa using noNull)]

theorem pushOrDrop_full (evts : List (Option DataEvent)) :
    pushOrDrop args sizeofLogEvent dataSize false evts s = (dropEvents evts).map (s, ·) := by
  cases evts <;> rfl

theorem fills_push (le : Event) (queued : List Event) :
    Fills args sizeofLogEvent (s.push sizeofLogEvent le) dataSize queued ↔
      Fills args sizeofLogEvent s dataSize (le :: queued) := by
  simp [Fills, State.push, add_assoc]

theorem room_iff (le : Event) :
    (args.maxTargetMemory = 0 ∨ (s.push sizeofLogEvent le).totalMemoryUsage + dataSize < args.maxTargetMemory) ↔
      ¬ Fills args sizeofLogEvent s dataSize [le] := by
  simp [Fills, State.push, or_iff_not_imp_left]

theorem pushOrDrop_room {le : DataEvent} (room : ¬ Fills args sizeofLogEvent s dataSize [le.event])
    (evts : List (Option DataEvent)) :
    pushOrDrop args sizeofLogEvent dataSize true (some le :: evts) s =
      pushOrDrop args sizeofLogEvent dataSize true evts (s.push sizeofLogEvent le.event) := by
  rw [← room_iff] at room
  simp only [pushOrDrop, room, decide_true]

theorem pushOrDrop_fills {le : DataEvent} (fills : Fills args sizeofLogEvent s dataSize [le.event])
    (evts : List (Option DataEvent)) :
    pushOrDrop args sizeofLogEvent dataSize true (some le :: evts) s =
      (dropEvents evts).map (s.push sizeofLogEvent le.event, ·) := by
  have full := mt (room_iff le.event).mp (not_not_intro fills)
  simp only [pushOrDrop, full, decide_false, pushOrDrop_full]

theorem nullsBehindLimit_none (evts : List (Option DataEvent)) :
    NullsBehindLimit args sizeofLogEvent s dataSize (none :: evts) ↔
      NullsBehindLimit args sizeofLogEvent s dataSize evts := by
  constructor
  · rintro ⟨front, le, rest, same, fills, null⟩
    rcases List.cons_eq_append_iff.mp same with ⟨rfl, tail⟩ | ⟨front, rfl, rfl⟩
    · simp at tail
    · exact ⟨front, le, rest, rfl, fills, null⟩
  · rintro ⟨front, le, rest, rfl, fills, null⟩
    exact ⟨none :: front, le, rest, rfl, fills, null⟩

theorem nullsBehindLimit_some (le : DataEvent) (evts : List (Option DataEvent)) :
    NullsBehindLimit args sizeofLogEvent s dataSize (some le :: evts) ↔
      (Fills args sizeofLogEvent s dataSize [le.event] ∧ none ∈ evts) ∨
        NullsBehindLimit args sizeofLogEvent (s.push sizeofLogEvent le.event) dataSize evts := by
  constructor
  · rintro ⟨front, last, rest, same, fills, null⟩
    rcases List.cons_eq_append_iff.mp same with ⟨rfl, tail⟩ | ⟨front, rfl, rfl⟩
    · cases tail
      exact .inl ⟨fills, null⟩
    · exact .inr ⟨front, last, rest, rfl, (fills_push _ _).mpr fills, null⟩
  · rintro (⟨fills, null⟩ | ⟨front, last, rest, rfl, fills, null⟩)
    · exact ⟨[], le, evts, rfl, fills, null⟩
    · exact ⟨some le :: front, last, rest, rfl, (fills_push _ _).mp fills, null⟩

theorem pushOrDrop_null (evts : List (Option DataEvent)) (s : State)
    (nulls : NullsBehindLimit args sizeofLogEvent s dataSize evts) :
    pushOrDrop args sizeofLogEvent dataSize true evts s = none := by
  induction evts generalizing s with
  | nil => simp [NullsBehindLimit] at nulls
  | cons evt evts ih =>
      cases evt with
      | none => exact ih s ((nullsBehindLimit_none evts).mp nulls)
      | some le =>
          by_cases fills : Fills args sizeofLogEvent s dataSize [le.event]
          · have null : none ∈ evts := by
              rcases (nullsBehindLimit_some le evts).mp nulls with ⟨-, null⟩ | ⟨front, last, rest, rfl, -, null⟩
              · exact null
              · simp [null]
            rw [pushOrDrop_fills fills, dropEvents_of_null null, Option.map_none]
          · have later : NullsBehindLimit args sizeofLogEvent (s.push sizeofLogEvent le.event) dataSize evts :=
              ((nullsBehindLimit_some le evts).mp nulls).resolve_left fun first => fills first.1
            rw [pushOrDrop_room fills]
            exact ih _ later

theorem pushOrDrop_present (evts : List (Option DataEvent)) (s : State)
    (safe : ¬ NullsBehindLimit args sizeofLogEvent s dataSize evts) :
    ∃ queued freed, pushOrDrop args sizeofLogEvent dataSize true evts s =
        some (s.pushAll sizeofLogEvent queued, freed) ∧ queued ++ freed = present evts ∧
      s.pushEvents args sizeofLogEvent dataSize evts = s.pushAll sizeofLogEvent queued := by
  induction evts generalizing s with
  | nil => exact ⟨[], [], by simp [pushOrDrop, State.pushAll], rfl, by simp [State.pushEvents, State.pushAll]⟩
  | cons evt evts ih =>
      cases evt with
      | none => exact ih s fun nulls => safe ((nullsBehindLimit_none evts).mpr nulls)
      | some le =>
          rw [nullsBehindLimit_some, not_or] at safe
          simp only [State.pushEvents]
          by_cases fills : Fills args sizeofLogEvent s dataSize [le.event]
          · have noNull : none ∉ evts := fun null => safe.1 ⟨fills, null⟩
            have one : s.push sizeofLogEvent le.event = s.pushAll sizeofLogEvent [le.event] := by
              simp [State.push, State.pushAll]
            refine ⟨[le.event], present evts, ?_, rfl, ?_⟩
            · rw [pushOrDrop_fills fills, dropEvents_present noNull, Option.map_some, one]
            · rw [if_neg (mt (room_iff le.event).mp (not_not_intro fills)), one]
          · obtain ⟨queued, freed, checked, all, plain⟩ := ih _ safe.2
            refine ⟨le.event :: queued, freed, ?_, by simp [all], ?_⟩
            · rw [pushOrDrop_room fills, checked, pushAll_push]
            · rw [if_pos ((room_iff le.event).mpr fills), plain, pushAll_push]

end Loop

section Runs

variable {s t : State}

theorem usage_next {a : Action} (usage : s.totalMemoryUsage = (s.q.map (memory sizeofLogEvent)).sum)
    (steps : s.next args sizeofLogEvent rounds a = some t) (runs : t.running = true) :
    t.totalMemoryUsage = (t.q.map (memory sizeofLogEvent)).sum := by
  cases next_moves steps with
  | pushes evts => simp [State.pushAll, usage]
  | enqueues => simp [State.enqueueBarrier, usage]
  | replyFails | dies | returns | exits => cases runs
  | pops loops notDone le q front => simp [usage, front]
  | writesData le holds data s' opened | losesData le holds data s' opened =>
      obtain ⟨same, -⟩ := opened.fields
      rw [same]
      exact usage
  | replies | sigterm | sighup | idles | stops | writesBarrier | losesBarrier | rotates | records | completes =>
      exact usage

theorem usage_run {dir : Dir} {o : Opening} {sends : Bool} (starts : State.start args rounds dir o sends = some s)
    {es : List Action} (runs : Runs.run (State.next args sizeofLogEvent rounds) s es = some t)
    (running : t.running = true) : t.totalMemoryUsage = (t.q.map (memory sizeofLogEvent)).sum := by
  have meets := @Runs.meets_of_forall _ _ (State.next args sizeofLogEvent rounds) (fun _ _ => True) es
    (fun _ _ _ => trivial) s
  have kept := @Runs.run_invariant _ _ (State.next args sizeofLogEvent rounds) (fun _ _ => True)
    (fun s => s.running = true → s.totalMemoryUsage = (s.q.map (memory sizeofLogEvent)).sum)
    (fun s a t inv _ steps runs => usage_next (inv (next_running steps)) steps runs)
    s es (fun _ => (start_inOrder starts).usage) meets es List.prefix_rfl t runs
  exact kept running

theorem handlerChecked_state {rbuf : ReceiveBuffer} {channel : List Byte} {transcoded : List (Option DataEvent)}
    {sends : Bool} {freed : List Event}
    (checked : handlerChecked args sizeofLogEvent rbuf channel transcoded sends s = some (t, freed)) :
    s.handler args sizeofLogEvent rbuf channel transcoded sends = t := by
  unfold handlerChecked at checked
  unfold State.handler
  split at checked
  next isControl =>
    cases checked
    rw [if_pos isControl]
  next notControl =>
    rw [if_neg notControl]
    have safe : ¬ NullsBehindLimit args sizeofLogEvent s rbuf.data.length
        (handlerEvents args rbuf channel transcoded).reverse := by
      intro nulls
      rw [pushOrDrop_null _ s nulls] at checked
      cases checked
    obtain ⟨queued, freed', checked', -, plain⟩ := pushOrDrop_present _ s safe
    rw [checked'] at checked
    cases checked
    exact plain

/-- In every state that the logger can reach, the handler queues or frees each event once, and dereferences
none that is null, if and only if no null entry is left when an event reaches the memory limit. -/
theorem handlerChecked_safe_iff {dir : Dir} {o : Opening} {ready : Bool}
    (starts : State.start args rounds dir o ready = some s) (es : List Action)
    (runs : Runs.run (State.next args sizeofLogEvent rounds) s es = some t) (running : t.running = true)
    (rbuf : ReceiveBuffer) (channel : List Byte) (data : channel ≠ controlRequestChannel)
    (transcoded : List (Option DataEvent)) (sends : Bool) :
    (∃ t' freed, handlerChecked args sizeofLogEvent rbuf channel transcoded sends t = some (t', freed) ∧
      t.handler args sizeofLogEvent rbuf channel transcoded sends = t' ∧
      Handled sizeofLogEvent t t' (handlerEvents args rbuf channel transcoded) freed) ↔
    ¬ NullsBehindLimit args sizeofLogEvent t rbuf.data.length
      (handlerEvents args rbuf channel transcoded).reverse := by
  have usage := usage_run starts runs running
  have asPushed : handlerChecked args sizeofLogEvent rbuf channel transcoded sends t =
      pushOrDrop args sizeofLogEvent rbuf.data.length true (handlerEvents args rbuf channel transcoded).reverse t :=
    if_neg data
  constructor
  · rintro ⟨t', freed, checked, -, -⟩ nulls
    rw [asPushed, pushOrDrop_null _ t nulls] at checked
    cases checked
  · intro safe
    obtain ⟨queued, freed, pushed, all, -⟩ := pushOrDrop_present _ t safe
    have checked := asPushed.trans pushed
    refine ⟨_, freed, checked, handlerChecked_state checked, ⟨queued, rfl, ?_⟩, by simp [State.pushAll, usage]⟩
    rw [all]
    exact ((List.reverse_perm (handlerEvents args rbuf channel transcoded)).filterMap id).map _

def limitedArgs : Args := { plainArgs with maxTargetMemory := 1 }

def limitedLogger : State := (State.start limitedArgs 10 (fun _ => none) opens true).get (by decide)

def suppressed : List (Option DataEvent) := [none, some ⟨⟨0, 5, ascii ['A'], [1]⟩, by decide⟩]

theorem null_dereferenced :
    limitedLogger.running = true ∧
      handlerChecked limitedArgs 48 ⟨5, [1]⟩ (ascii ['A']) suppressed true limitedLogger = none :=
  ⟨rfl, rfl⟩

theorem suppressed_safe_iff :
    (∃ t' freed,
      handlerChecked limitedArgs 48 ⟨5, [1]⟩ (ascii ['A']) suppressed true limitedLogger = some (t', freed) ∧
      limitedLogger.handler limitedArgs 48 ⟨5, [1]⟩ (ascii ['A']) suppressed true = t' ∧
      Handled 48 limitedLogger t' (handlerEvents limitedArgs ⟨5, [1]⟩ (ascii ['A']) suppressed) freed) ↔
    ¬ NullsBehindLimit limitedArgs 48 limitedLogger 1
      (handlerEvents limitedArgs ⟨5, [1]⟩ (ascii ['A']) suppressed).reverse :=
  handlerChecked_safe_iff (Option.some_get _).symm [] rfl rfl ⟨5, [1]⟩ (ascii ['A']) (by decide) suppressed true

end Runs

end Zcm.Logger
