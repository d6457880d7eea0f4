import Zcm.Lib.Runs
import Zcm.Eventlog.Cursor

namespace Zcm.Eventlog
open Zcm.Lib

structure Msg where
  utime : BitVec 64
  channel : List Byte
  buf : List Byte
deriving DecidableEq

def Event.msg (le : Event) : Msg := ⟨le.timestamp, le.channel, le.data⟩

inductive Code
  | eok | eagain | econnect
deriving DecidableEq

/-- A call of `recvmsg`, with what the clock reads at its start, after its sleep and at its end. -/
structure Call where
  timeoutMs : BitVec 32
  now : BitVec 64
  woken : BitVec 64
  dispatched : BitVec 64

def Call.timeoutUs (call : Call) : BitVec 64 := (call.timeoutMs * 1000).setWidth 64

structure Answer where
  code : Code
  msg : Option Msg
  slept : Option (BitVec 64)
deriving DecidableEq

def Read.event? : Read → Option Event
  | .event le => some le
  | .null | .overflow => none

structure TransportFile where
  log : Option File
  lastMsgUtime : BitVec 64
  lastDispatchUtime : BitVec 64

namespace TransportFile

def create (bytes : List Byte) : TransportFile := ⟨some ⟨bytes, 0⟩, 0, 0⟩

def start (t : TransportFile) (le : Event) (now : BitVec 64) : TransportFile where
  log := t.log
  lastMsgUtime := if t.lastMsgUtime = 0 then le.timestamp else t.lastMsgUtime
  lastDispatchUtime := if t.lastDispatchUtime = 0 then now else t.lastDispatchUtime

section Recvmsg

-- `logDiff / this->speed`, as an unsigned number
variable (atSpeed : BitVec 64 → BitVec 64) (rounds : Nat)

def diff (t : TransportFile) (le : Event) (now : BitVec 64) : BitVec 64 :=
  let localDiff := now - t.lastDispatchUtime
  let logDiff := le.timestamp - t.lastMsgUtime
  let logDiffSpeed := atSpeed logDiff
  if logDiffSpeed > localDiff then logDiffSpeed - localDiff else 0

def recvmsg (t : TransportFile) (call : Call) : Option (Answer × TransportFile) :=
  match t.log with
  | none => some (⟨.econnect, none, if call.timeoutMs > 0 then some call.timeoutUs else none⟩, t)
  | some f =>
      match zcmEventlogReadNextEvent rounds f with
      | none => none
      | some (.overflow, _) => none
      | some (.null, _) => some (⟨.econnect, none, none⟩, { t with log := none })
      | some (.event le, f) =>
          let t := start { t with log := some f } le call.now
          let diff := t.diff atSpeed le call.now
          if diff > 0 then
            let slept := some (if call.timeoutUs < diff then call.timeoutUs else diff)
            if call.woken < call.now + diff then some (⟨.eagain, some le.msg, slept⟩, t)
            else some (⟨.eok, some le.msg, slept⟩,
              { t with lastDispatchUtime := call.dispatched, lastMsgUtime := le.timestamp })
          else some (⟨.eok, some le.msg, none⟩,
            { t with lastDispatchUtime := call.dispatched, lastMsgUtime := le.timestamp })

def unread (t : TransportFile) : List Event :=
  match t.log with
  | none => []
  | some f => ((walk rounds f (List.replicate f.bytes.length .next)).getD []).filterMap Read.event?

def CutShort (t : TransportFile) (le : Event) (call : Call) : Prop :=
  0 < (t.start le call.now).diff atSpeed le call.now ∧
    call.woken < call.now + (t.start le call.now).diff atSpeed le call.now

instance (t : TransportFile) (le : Event) (call : Call) : Decidable (t.CutShort atSpeed le call) :=
  inferInstanceAs (Decidable (_ ∧ _))

end Recvmsg

section Events

variable {atSpeed : BitVec 64 → BitVec 64} {rounds : Nat} {events : List Event} {k : Nat} {t : TransportFile}

inductive Follows (events : List Event) : Nat → Option File → Prop
  | reading {k : Nat} (le : k ≤ events.length) : Follows events k (some ⟨recordsOf events, startOf events k⟩)
  | closed : Follows events events.length none

theorem recordsOf_length (events : List Event) : events.length ≤ (recordsOf events).length := by
  induction events with
  | nil => exact Nat.le_refl _
  | cons e events ih =>
      rw [recordsOf_cons, List.length_append, List.length_cons, Event.record, List.length_append]
      have four : magicBytes.length = 4 := rfl
      omega

theorem cursorWalk_events (events : List Event) (n k : Nat) :
    (cursorWalk events k (List.replicate n Move.next)).filterMap Read.event? = (events.drop k).take n := by
  induction n generalizing k with
  | zero => rfl
  | succ n ih =>
      rw [List.replicate_succ, cursorWalk]
      rcases Nat.lt_or_ge k events.length with lt | ge
      · have along : Move.next.along events k = (.event events[k], k + 1) := by
          simp only [Move.along, List.getElem?_eq_getElem lt]
        simp only [along, List.filterMap_cons, Read.event?, ih]
        rw [List.drop_eq_getElem_cons lt, List.take_succ_cons]
      · have along : Move.next.along events k = (.null, k) := by
          simp only [Move.along, List.getElem?_eq_none ge]
        simp only [along, List.filterMap_cons, Read.event?, ih]
        rw [List.drop_eq_nil_of_le ge, List.take_nil, List.take_nil]

theorem unread_follows (readable : ∀ e ∈ events, e.Readable) (enough : (recordsOf events).length + 1 < rounds)
    (follows : Follows events k t.log) : t.unread rounds = events.drop k := by
  unfold unread
  cases log : t.log with
  | none =>
      rw [log] at follows
      cases follows
      exact List.drop_length.symm
  | some f =>
      rw [log] at follows
      cases follows with
      | reading le =>
          have walked := @walk_eq_cursorWalk rounds (recordsOf events) events
            (List.replicate (recordsOf events).length .next)
            (fun m member k le => by
              obtain rfl := List.eq_of_mem_replicate member
              exact next_follows readable enough le) k le
          have long := recordsOf_length events
          simp only [walked, Option.getD_some, cursorWalk_events]
          exact List.take_of_length_le (by rw [List.length_drop]; omega)

theorem recvmsg_event {f f' : File} {le : Event} (log : t.log = some f)
    (read : zcmEventlogReadNextEvent rounds f = some (.event le, f')) (call : Call) :
    ∃ a t', t.recvmsg atSpeed rounds call = some (a, t') ∧ t'.log = some f' ∧ a.msg = some le.msg ∧
      a.code = if t.CutShort atSpeed le call then .eagain else .eok := by
  unfold recvmsg
  simp only [log, read]
  split
  next waits =>
    split
    next early =>
      have short : t.CutShort atSpeed le call := ⟨waits, early⟩
      exact ⟨_, _, rfl, rfl, rfl, by rw [if_pos short]⟩
    next late =>
      have enough : ¬ t.CutShort atSpeed le call := fun short => late short.2
      exact ⟨_, _, rfl, rfl, rfl, by rw [if_neg enough]⟩
  next due =>
    have enough : ¬ t.CutShort atSpeed le call := fun short => due short.1
    exact ⟨_, _, rfl, rfl, rfl, by rw [if_neg enough]⟩

theorem recvmsg_follows (readable : ∀ e ∈ events, e.Readable) (enough : (recordsOf events).length + 1 < rounds)
    (follows : Follows events k t.log) (call : Call) :
    ∃ a t', t.recvmsg atSpeed rounds call = some (a, t') ∧
      match events[k]? with
      | none => a.code = .econnect ∧ Follows events k t'.log
      | some le => Follows events (k + 1) t'.log ∧ a.msg = some le.msg ∧
          a.code = if t.CutShort atSpeed le call then .eagain else .eok := by
  cases log : t.log with
  | none =>
      rw [log] at follows
      cases follows
      have closed : t.recvmsg atSpeed rounds call =
          some (⟨.econnect, none, if call.timeoutMs > 0 then some call.timeoutUs else none⟩, t) := by
        simp only [recvmsg, log]
      rw [List.getElem?_eq_none (Nat.le_refl _)]
      exact ⟨_, _, closed, rfl, log ▸ .closed⟩
  | some f =>
      rw [log] at follows
      cases follows with
      | reading le =>
          have read := (next_follows readable enough le).1
          rcases Nat.lt_or_eq_of_le le with lt | rfl
          · simp only [Move.read, Move.along, List.getElem?_eq_getElem lt] at read ⊢
            obtain ⟨a, t', returns, log', answer⟩ := recvmsg_event log read call
            exact ⟨a, t', returns, log' ▸ .reading lt, answer⟩
          · simp only [Move.read, Move.along, List.getElem?_eq_none (Nat.le_refl _)] at read ⊢
            have ended : t.recvmsg atSpeed rounds call =
                some (⟨.econnect, none, none⟩, { t with log := none }) := by
              simp only [recvmsg, log, read]
            exact ⟨_, _, ended, rfl, .closed⟩

end Events

end TransportFile

structure Replay where
  transport : TransportFile
  answers : List Answer

def Answer.returned (a : Answer) : Option Msg := if a.code = .eok then a.msg else none

namespace Replay
open TransportFile

section Calls

variable (atSpeed : BitVec 64 → BitVec 64) (rounds : Nat)

def create (bytes : List Byte) : Replay := ⟨TransportFile.create bytes, []⟩

def next (s : Replay) (call : Call) : Option Replay :=
  match s.transport.recvmsg atSpeed rounds call with
  | none => none
  | some (a, t) => some ⟨t, s.answers ++ [a]⟩

/-- Every event of the log has been returned or is still to be read, in order. -/
def Lossless (events : List Event) (s : Replay) : Prop :=
  s.answers.filterMap Answer.returned ++ (s.transport.unread rounds).map Event.msg = events.map Event.msg

instance (events : List Event) (s : Replay) : Decidable (s.Lossless rounds events) :=
  inferInstanceAs (Decidable (_ = _))

/-- The next event, if there is one, is due when the sleep before it ends. -/
def WaitsOut (s : Replay) (call : Call) : Prop :=
  ∀ le ∈ (s.transport.unread rounds).head?, ¬ s.transport.CutShort atSpeed le call

end Calls

section Runs

variable {atSpeed : BitVec 64 → BitVec 64} {rounds : Nat} {events : List Event}

def Reading (events : List Event) (s : Replay) : Prop := ∃ k, Follows events k s.transport.log

theorem reading_next (readable : ∀ e ∈ events, e.Readable) (enough : (recordsOf events).length + 1 < rounds)
    {s : Replay} (reading : s.Reading events) (call : Call) :
    ∃ t, s.next atSpeed rounds call = some t ∧ t.Reading events := by
  obtain ⟨k, follows⟩ := reading
  obtain ⟨a, t, returns, answer⟩ := @recvmsg_follows atSpeed _ _ _ _ readable enough follows call
  refine ⟨⟨t, s.answers ++ [a]⟩, by simp only [next, returns], ?_⟩
  split at answer
  · exact ⟨k, answer.2⟩
  · exact ⟨k + 1, answer.1⟩

theorem lossless_next_iff (readable : ∀ e ∈ events, e.Readable) (enough : (recordsOf events).length + 1 < rounds)
    {s t : Replay} (reading : s.Reading events) (lossless : s.Lossless rounds events) {call : Call}
    (steps : s.next atSpeed rounds call = some t) : t.Lossless rounds events ↔ s.WaitsOut atSpeed rounds call := by
  obtain ⟨k, follows⟩ := reading
  obtain ⟨a, t', returns, answer⟩ := @recvmsg_follows atSpeed _ _ _ _ readable enough follows call
  simp only [next, returns] at steps
  cases steps
  simp only [Lossless, WaitsOut, unread_follows readable enough follows, List.filterMap_append,
    List.head?_drop] at lossless ⊢
  rcases Nat.lt_or_ge k events.length with lt | ge
  · simp only [List.getElem?_eq_getElem lt, Option.mem_some_iff, forall_eq'] at answer ⊢
    obtain ⟨later, stored, code⟩ := answer
    rw [unread_follows readable enough later]
    rw [List.drop_eq_getElem_cons lt, List.map_cons] at lossless
    by_cases short : s.transport.CutShort atSpeed events[k] call
    · -- the event is behind the position of the file, and not among the answers
      rw [if_pos short] at code
      have nothing : [a].filterMap Answer.returned = [] := by simp [Answer.returned, code]
      simp only [nothing, List.append_nil, short, not_true, iff_false]
      intro kept
      rw [← kept] at lossless
      have same := List.append_cancel_left lossless
      have longer := congrArg List.length same
      rw [List.length_cons] at longer
      omega
    · rw [if_neg short] at code
      have returned : [a].filterMap Answer.returned = [events[k].msg] := by simp [Answer.returned, code, stored]
      simp only [returned, short, not_false_iff, iff_true, List.append_assoc]
      exact lossless
  · simp only [List.getElem?_eq_none ge] at answer ⊢
    obtain ⟨code, later⟩ := answer
    have nothing : [a].filterMap Answer.returned = [] := by simp [Answer.returned, code]
    rw [unread_follows readable enough later, nothing, List.append_nil]
    simpa using lossless

/-- Every call is answered, and the answers lose no event in exactly the runs in which every sleep that a
call needs is as long as the remaining delay. -/
theorem lossless_iff (atSpeed : BitVec 64 → BitVec 64) (readable : ∀ e ∈ events, e.Readable)
    (enough : (recordsOf events).length + 1 < rounds) (calls : List Call) :
    (∃ s, Runs.run (next atSpeed rounds) (create (recordsOf events)) calls = some s) ∧
      ((∀ pre, pre <+: calls → ∀ s, Runs.run (next atSpeed rounds) (create (recordsOf events)) pre = some s →
        s.Lossless rounds events) ↔
        Runs.Meets (next atSpeed rounds) (WaitsOut atSpeed rounds) (create (recordsOf events)) calls) := by
  have opened : Follows events 0 (create (recordsOf events)).transport.log := .reading (Nat.zero_le _)
  have reading : (create (recordsOf events)).Reading events := ⟨0, opened⟩
  have starts : (create (recordsOf events)).Lossless rounds events := by
    rw [Lossless, unread_follows readable enough opened]
    rfl
  constructor
  · have all := @Runs.meets_of_forall _ _ (next atSpeed rounds) (fun _ _ => True) calls (fun _ _ _ => trivial)
    obtain ⟨s, runs, -⟩ := Runs.run_total
      (fun s call inv _ => reading_next readable enough inv call) reading (all _)
    exact ⟨s, runs⟩
  · refine @Runs.meets_iff _ _ (next atSpeed rounds) (WaitsOut atSpeed rounds) (Reading events)
      (Lossless rounds events)
      ?_ ?_ ?_ _ _ reading starts
    · intro s call inv stops
      obtain ⟨t, steps, -⟩ := @reading_next atSpeed _ _ readable enough s inv call
      rw [steps] at stops
      cases stops
    · intro s call t inv steps
      obtain ⟨t', steps', inv'⟩ := @reading_next atSpeed _ _ readable enough s inv call
      cases steps.symm.trans steps'
      exact inv'
    · intro s call t inv lossless steps
      exact lossless_next_iff readable enough inv lossless steps

def twoSeconds : List Event := [⟨0, 1000000, [65], []⟩, ⟨1, 2000000, [65], [7]⟩]

/-- The second event is read with a delay of a second and a timeout of a tenth. -/
def impatient : List Call :=
  [⟨100, 5000000, 5000000, 5000000⟩, ⟨100, 5000010, 5100010, 5100010⟩, ⟨100, 7000000, 7000000, 7000000⟩]

theorem lossless_iff_patient :
    (∃ s, Runs.run (next id 70) (create (recordsOf twoSeconds)) (impatient.take 1) = some s) ∧
      ((∀ pre, pre <+: impatient.take 1 →
        ∀ s, Runs.run (next id 70) (create (recordsOf twoSeconds)) pre = some s →
        s.Lossless 70 twoSeconds) ↔
        Runs.Meets (next id 70) (WaitsOut id 70) (create (recordsOf twoSeconds)) (impatient.take 1)) :=
  lossless_iff id (by decide) (by decide) (impatient.take 1)

/-- The clock of these calls never goes back, the log ends, and its second event was not returned. -/
theorem second_event_lost :
    (impatient.flatMap fun call => [call.now, call.woken, call.dispatched]).Pairwise (· ≤ ·) ∧
    ∃ s, Runs.run (next id 70) (create (recordsOf twoSeconds)) impatient = some s ∧
      s.answers.map Answer.code = [.eok, .eagain, .econnect] ∧
      s.answers.filterMap Answer.returned = [⟨1000000, [65], []⟩] ∧ ¬ s.Lossless 70 twoSeconds := by
  refine ⟨by decide, ?_⟩
  have ended : (Runs.run (next id 70) (create (recordsOf twoSeconds)) impatient).map
      (fun s => (s.answers.map Answer.code, s.answers.filterMap Answer.returned, decide (s.Lossless 70 twoSeconds))) =
      some ([.eok, .eagain, .econnect], [⟨1000000, [65], []⟩], false) := by decide
  obtain ⟨s, runs, same⟩ := Option.map_eq_some_iff.mp ended
  simp only [Prod.mk.injEq, decide_eq_false_iff_not] at same
  exact ⟨s, runs, same⟩

end Runs

end Replay
end Zcm.Eventlog
