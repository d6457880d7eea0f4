import Mathlib.Data.List.Nodup
import Zcm.Eventlog.Repair

namespace Zcm.Eventlog
open Zcm.Lib

section Sorting

variable {rounds pos : Nat} {bytes : List Byte} {es : List (Event × Nat)}

theorem inOrder_perm (es : List (Event × Nat)) : (inOrder es).Perm es := List.mergeSort_perm _ _

theorem inOrder_pairs (es : List (Event × Nat)) : (inOrder es).map pair = (es.map pair).mergeSort pairLe :=
  List.map_mergeSort fun _ _ _ _ => rfl

theorem inOrder_sorted (es : List (Event × Nat)) :
    (inOrder es).Pairwise fun x y => pairLe (pair x) (pair y) = true := by
  apply List.pairwise_mergeSort
  · intro a b c ab bc
    simp only [pairLe, decide_eq_true_eq] at ab bc ⊢
    omega
  · intro a b
    simp only [pairLe, Bool.or_eq_true, decide_eq_true_eq]
    omega

/-- Offsets increase in the input, so that the order of the pairs is that of the input for events of one time. -/
theorem inOrder_stablySorted (reads : Reads rounds bytes pos es) : StablySorted (msgs es) (msgs (inOrder es)) where
  perm := (inOrder_perm es).map _
  sorted := by
    rw [msgs, List.pairwise_map]
    refine (inOrder_sorted es).imp fun le => ?_
    exact (of_decide_eq_true le).elim Int.le_of_lt fun same => Int.le_of_eq same.1
  stable := by
    intro t
    have same : (inOrder es).filter (fun x => x.1.timestamp = t) = es.filter (fun x => x.1.timestamp = t) := by
      apply @List.Perm.eq_of_pairwise _ (fun x y => x.2 ≤ y.2)
      · intro x y memberX memberY le ge
        have offsets : x.2 = y.2 := Nat.le_antisymm le ge
        have inX := (inOrder_perm es).mem_iff.mp (List.mem_of_mem_filter memberX)
        have inY := List.mem_of_mem_filter memberY
        exact List.inj_on_of_nodup_map (List.pairwise_map.mpr (reads.increasing.imp Nat.ne_of_lt)) inX inY offsets
      · have sorted := (inOrder_sorted es).filter fun x => x.1.timestamp = t
        refine sorted.imp_of_mem fun memberX memberY le => ?_
        have timeX := of_decide_eq_true (List.mem_filter.mp memberX).2
        have timeY := of_decide_eq_true (List.mem_filter.mp memberY).2
        simp only [pairLe, pair, timeX, timeY, decide_eq_true_eq] at le
        omega
      · exact (reads.increasing.filter _).imp Nat.le_of_lt
      · exact (inOrder_perm es).filter _
    have filtered : ∀ es : List (Event × Nat), ((msgs es).filter fun m => m.utime = t) =
        msgs (es.filter fun x => x.1.timestamp = t) := fun es => List.filter_map
    rw [filtered, filtered, same]

end Sorting

section Writing

variable {env : Environment} {es es' : List (Event × Nat)} {i : Nat} {l : Writer}

theorem record_length (e : Event) : e.record.length = 28 + e.msg.channel.length + e.msg.buf.length := by
  have four : magicBytes.length = 4 := rfl
  rw [Event.record, List.length_append, Event.body_length, four]
  change _ = 28 + e.channel.length + e.data.length
  omega

theorem size_eq (es : List (Event × Nat)) :
    size es = ((msgs es).map fun m => 28 + m.channel.length + m.buf.length).sum := by
  simp [size, msgs, record_length, Function.comp_def]

theorem size_perm (perm : (msgs es).Perm (msgs es')) : size es = size es' := by
  rw [size_eq, size_eq]
  exact (perm.map _).sum_eq

theorem attempt_bytes (ok : Bool) (l : Writer) (e : Event) :
    (l.attempt ok e).bytes = l.bytes ++ { e with eventnum := l.eventcount }.record := by
  rw [← zcmEventlogWriteEvent_bytes]
  cases ok <;> rfl

theorem writeEvents_bytes : ∃ events : List Event, (writeEvents env i es l).bytes = l.bytes ++ recordsOf events ∧
    events.map Event.msg = msgs es := by
  induction es generalizing i l with
  | nil => exact ⟨[], by simp [writeEvents, recordsOf], rfl⟩
  | cons x es ih =>
      obtain ⟨events, bytes, same⟩ := @ih (i + 1) (l.attempt (env.returnsZero i) x.1)
      refine ⟨{ x.1 with eventnum := l.eventcount } :: events, ?_, ?_⟩
      · rw [writeEvents, bytes, attempt_bytes, recordsOf_cons, List.append_assoc]
      · rw [List.map_cons, same]
        rfl

theorem recordsOf_size {events : List Event} (same : events.map Event.msg = msgs es) :
    (recordsOf events).length = size es := by
  rw [size_eq, ← same, recordsOf, List.length_flatten]
  simp [record_length, Function.comp_def]

end Writing

section Reached

variable {env : Environment} {bytes : List Byte}

theorem reached_sublist : (env.reached bytes).Sublist bytes := by
  have kept := (List.filter_sublist (p := fun b : Byte × Nat => !env.lost b.2) (l := bytes.zipIdx)).map Prod.fst
  rwa [List.zipIdx_map_fst] at kept

theorem reached_whole_iff : env.reached bytes = bytes ↔ ∀ i < bytes.length, env.lost i = false := by
  have lengths : env.reached bytes = bytes ↔ (env.reached bytes).length = bytes.length :=
    ⟨fun same => by rw [same], reached_sublist.eq_of_length⟩
  have same : bytes.zipIdx.length = bytes.length := List.length_zipIdx
  rw [lengths, Environment.reached, List.length_map, ← same, List.length_filter_eq_length_iff, same]
  constructor
  · intro kept i lt
    have member : (bytes[i], i) ∈ bytes.zipIdx := List.mk_mem_zipIdx_iff_getElem?.mpr (List.getElem?_eq_getElem lt)
    simpa using kept _ member
  · intro kept b member
    have lt := (List.getElem?_eq_some_iff.mp (List.mem_zipIdx_iff_getElem?.mp member)).1
    simpa using kept b.2 lt

end Reached

section Runs

variable {env : Environment} {rounds : Nat} {input bytes : List Byte} {es : List (Event × Nat)}

theorem eventsOf_eq_some :
    eventsOf rounds bytes = some es ↔ readAll rounds rounds ⟨bytes, 0⟩ = some (es, .null) := by
  unfold eventsOf
  split
  next es' all => simp [all]
  next other => exact ⟨fun h => by simp at h, fun all => absurd all (other es)⟩

theorem eventsOf_reads (enough : bytes.length + 1 < rounds) (reads : eventsOf rounds bytes = some es) :
    Reads rounds bytes 0 es := by
  obtain ⟨es', r, all, reads'⟩ := (@readAll_reads _ _ rounds) (Nat.zero_le bytes.length) enough (by omega)
  rw [eventsOf_eq_some, all] at reads
  cases reads
  exact reads'

theorem writeEvents_length (env : Environment) (es : List (Event × Nat)) :
    (writeEvents env 0 (inOrder es) Writer.create).bytes.length = size es := by
  obtain ⟨events, written, same⟩ := @writeEvents_bytes env (inOrder es) 0 Writer.create
  rw [written, Writer.create, List.nil_append, recordsOf_size same]
  exact size_perm ((inOrder_perm es).map _)

theorem output_length (reads : Reads rounds bytes 0 es) : (output env es).length ≤ bytes.length := by
  have part := (@reached_sublist env ((writeEvents env 0 (inOrder es) Writer.create).bytes)).length_le
  rw [writeEvents_length] at part
  exact Nat.le_trans part (by simpa using reads.room)

theorem rewriteAndVerify_eq (enough : input.length + 1 < rounds) (reads : Reads rounds input 0 es) :
    ∃ result, rewriteAndVerify env rounds input ((inOrder es).map pair) = some result ∧
      ∀ out, result = .ok out ↔
      env.opensOutput = true ∧ Undisturbed env .writing 0 es.length ∧
      (∃ es', eventsOf rounds (output env es) = some es' ∧ times es' <+: times (inOrder es) ∧
        Undisturbed env .verifying 0 (es'.length + 1)) ∧ out = output env es := by
  have length : (inOrder es).length = es.length := (inOrder_perm es).length_eq
  obtain ⟨result, rewritten, written⟩ := @rewrite_eq env input rounds (inOrder es)
    (fun x member => reads.again x ((inOrder_perm es).mem_iff.mp member)) 0 input.length Writer.create
  rw [length] at written
  rw [rewriteAndVerify, rewritten]
  cases result with
  | error ending =>
      refine ⟨_, rfl, fun out => iff_of_false (by simp) fun passes => ?_⟩
      have passed := (written _).mpr ⟨passes.2.1, rfl⟩
      cases passed
  | ok logOut =>
      obtain ⟨writing, rfl⟩ := (written logOut).mp rfl
      simp only [writing, true_and]
      by_cases opens : env.opensOutput = true
      · simp only [opens, Bool.not_true, Bool.false_eq_true, if_false, true_and]
        have short := (@output_length env) reads
        obtain ⟨es', r, all, -⟩ :=
          (@readAll_reads _ rounds rounds) (Nat.zero_le (output env es).length) (by omega) (by omega)
        obtain ⟨result, verified, passed⟩ := (@verifyOutput_eq env) all 0 ((inOrder es).map pair)
        have expected : ((inOrder es).map pair).map Prod.fst = times (inOrder es) := by simp [times, pair]
        rw [List.drop_zero, expected] at passed
        rw [output] at verified
        rw [verified]
        cases result with
        | error ending =>
            refine ⟨_, rfl, fun out => iff_of_false (by simp) ?_⟩
            rintro ⟨⟨es'', reads', times, undisturbed⟩, -⟩
            rw [eventsOf_eq_some, all] at reads'
            cases reads'
            have passed := (passed _).mpr ⟨rfl, undisturbed, times, rfl⟩
            cases passed
        | ok n =>
            obtain ⟨rfl, undisturbed, times, -⟩ := (passed n).mp rfl
            refine ⟨_, rfl, fun out => ⟨fun same => ?_, fun same => ?_⟩⟩
            · cases same
              exact ⟨⟨es', eventsOf_eq_some.mpr all, times, undisturbed⟩, rfl⟩
            · rw [same.2, output]
      · simp [opens]

theorem run_eq (enough : input.length + 1 < rounds) (opens : env.opensInput = true ∧ env.createsOutput = true) :
    ∃ result, run env rounds false input = some result ∧
      ∀ out, result = .ok out ↔ ∃ es, Passes env rounds input es ∧ out = output env es := by
  obtain ⟨es, r, all, reads⟩ := (@readAll_reads _ _ rounds) (Nat.zero_le input.length) enough (by omega)
  obtain ⟨result, first, passed⟩ := (@readTimestamps_eq env) all false 0 none
  have unique : ∀ es', eventsOf rounds input = some es' → r = .null ∧ es' = es := by
    intro es' reads'
    rw [eventsOf_eq_some, all] at reads'
    cases reads'
    exact ⟨rfl, rfl⟩
  rw [run, first]
  cases result with
  | error ending =>
      refine ⟨_, rfl, fun out => iff_of_false (by simp) ?_⟩
      rintro ⟨es', passes, -⟩
      obtain ⟨rfl, rfl⟩ := unique es' passes.reads
      have passed := (passed _).mpr ⟨rfl, passes.reading, by simp, rfl⟩
      cases passed
  | ok ts =>
      obtain ⟨rfl, reading, -, rfl⟩ := (passed ts).mp rfl
      obtain ⟨result, rest, written⟩ := (@rewriteAndVerify_eq env) enough reads
      simp only [Bool.false_eq_true, if_false]
      rw [← inOrder_pairs, rest]
      refine ⟨result, rfl, fun out => (written out).trans ⟨?_, ?_⟩⟩
      · rintro ⟨opensOutput, writing, verifying, same⟩
        exact ⟨es, ⟨⟨opens.1, opens.2, opensOutput⟩, eventsOf_eq_some.mpr all, reading, writing, verifying⟩,
          same⟩
      · rintro ⟨es', passes, same⟩
        obtain ⟨-, rfl⟩ := unique es' passes.reads
        exact ⟨passes.opens.2.2, passes.writing, passes.verifying, same⟩

theorem readAll_recordsOf {events : List Event} (readable : ∀ e ∈ events, e.Readable)
    (enough : (recordsOf events).length + 1 < rounds) {k fuel : Nat} (le : k ≤ events.length)
    (fueled : events.length - k < fuel) :
    ∃ es, readAll rounds fuel ⟨recordsOf events, startOf events k⟩ = some (es, .null) ∧
      es.map Prod.fst = events.drop k := by
  induction fuel generalizing k with
  | zero => omega
  | succ fuel ih =>
      rcases Nat.lt_or_eq_of_le le with lt | rfl
      · obtain ⟨es, all, same⟩ := ih (k := k + 1) lt (by omega)
        refine ⟨(events[k], startOf events k) :: es, ?_, ?_⟩
        · simp only [readAll, readNext_startOf readable lt enough, all, Option.map_some]
        · rw [List.map_cons, same, List.drop_eq_getElem_cons lt]
      · refine ⟨[], ?_, by simp⟩
        rw [startOf_length, readAll, readNext_atEnd (by omega)]

theorem output_repaired (enough : input.length + 1 < rounds) (reads : Reads rounds input 0 es)
    (whole : ∀ i < size es, env.lost i = false) :
    ∃ es', eventsOf rounds (output env es) = some es' ∧ msgs es' = msgs (inOrder es) := by
  obtain ⟨events, written, same⟩ := @writeEvents_bytes env (inOrder es) 0 Writer.create
  have bytes : output env es = recordsOf events := by
    rw [← writeEvents_length env, ← reached_whole_iff] at whole
    rw [output, whole, written, Writer.create, List.nil_append]
  have readable : ∀ e ∈ events, e.Readable := by
    intro e member
    have inMsgs : e.msg ∈ msgs (inOrder es) := same ▸ List.mem_map_of_mem member
    obtain ⟨x, inside, equal⟩ := List.mem_map.mp inMsgs
    have ok := reads.readable x ((inOrder_perm es).mem_iff.mp inside)
    have channel : x.1.channel = e.channel := congrArg Msg.channel equal
    have data : x.1.data = e.data := congrArg Msg.buf equal
    rw [Event.Readable, channel, data] at ok
    exact ok
  have short := (@output_length env) reads
  rw [bytes] at short
  have few := TransportFile.recordsOf_length events
  obtain ⟨es', all, same'⟩ := @readAll_recordsOf rounds _ readable (by omega) 0 rounds
    (Nat.zero_le _) (by omega)
  refine ⟨es', by rw [eventsOf_eq_some, bytes]; exact all, ?_⟩
  rw [← same, ← List.drop_zero (l := events), ← same', msgs, List.map_map]
  rfl

theorem logRepair_eq (enough : input.length + 1 < rounds) :
    ∃ result, logRepair env rounds false input = some result ∧ ∀ out, result = .ok out ↔
      ∃ es, Passes env rounds (if env.sameFile then [] else input) es ∧ out = output env es := by
  unfold logRepair
  by_cases opensInput : env.opensInput = true
  · by_cases createsOutput : env.createsOutput = true
    · simp only [opensInput, createsOutput, Bool.not_true, Bool.false_eq_true, if_false]
      have enough' : (if env.sameFile then [] else input).length + 1 < rounds := by
        split
        · exact Nat.lt_of_le_of_lt (Nat.le_add_left _ _) enough
        · exact enough
      exact run_eq enough' ⟨opensInput, createsOutput⟩
    · simp only [opensInput, createsOutput, Bool.not_true, Bool.not_false, Bool.false_eq_true, if_false, if_true]
      exact ⟨_, rfl, fun out => iff_of_false (by simp) fun ⟨_, passes, _⟩ => createsOutput passes.opens.2.1⟩
  · simp only [opensInput, Bool.not_false, if_true]
    exact ⟨_, rfl, fun out => iff_of_false (by simp) fun ⟨_, passes, _⟩ => opensInput passes.opens.1⟩

theorem eventsOf_nil (enough : 1 < rounds) : eventsOf rounds [] = some [] := by
  have atEnd : zcmEventlogReadNextEvent rounds ⟨[], 0⟩ = some (.null, ⟨[], 0⟩) := readNext_atEnd enough
  cases rounds with
  | zero => omega
  | succ fuel => rw [eventsOf_eq_some, readAll, atEnd]

theorem output_nil : output env [] = [] := by
  rw [output, inOrder, List.mergeSort_nil]
  rfl

/-- The program always ends. If it returns 0 the output is the repaired input, if and only if every run that passes
its checks loses none of the bytes of the events, and has another file for the output unless there are no events. -/
theorem logRepair_repairs_iff (env : Environment) (rounds : Nat) (input : List Byte)
    (enough : input.length + 1 < rounds) :
    ∃ result, logRepair env rounds false input = some result ∧
      ((∀ out, result = .ok out → Repaired rounds input out) ↔
        ∀ es, Passes env rounds (if env.sameFile then [] else input) es →
          (∀ i < size es, env.lost i = false) ∧ (env.sameFile = true → eventsOf rounds input = some [])) := by
  obtain ⟨result, runs, passes⟩ := (@logRepair_eq env) enough
  refine ⟨result, runs, ?_⟩
  have all : (∀ out, result = .ok out → Repaired rounds input out) ↔
      ∀ es, Passes env rounds (if env.sameFile then [] else input) es → Repaired rounds input (output env es) :=
    ⟨fun h es pass => h _ ((passes _).mpr ⟨es, pass, rfl⟩), fun h out isOk => by
      obtain ⟨es, pass, rfl⟩ := (passes out).mp isOk
      exact h es pass⟩
  rw [all]
  refine forall_congr' fun es => imp_congr_right fun pass => ?_
  by_cases same : env.sameFile = true
  · have empty := pass.reads
    rw [if_pos same, eventsOf_nil (by omega)] at empty
    cases empty
    simp only [same, size, List.map_nil, List.sum_nil, Nat.not_lt_zero, false_implies, implies_true, true_and,
      true_implies, output_nil]
    constructor
    · rintro ⟨es, es', reads, nothing, sorted⟩
      rw [eventsOf_nil (by omega)] at nothing
      cases nothing
      rw [reads]
      simpa [msgs] using sorted.perm.symm.eq_nil
    · exact fun reads => ⟨[], [], reads, eventsOf_nil (by omega), .refl _, .nil, fun _ => rfl⟩
  · have here := pass.reads
    rw [if_neg same] at here
    have reads := eventsOf_reads enough here
    simp only [same, Bool.false_eq_true, false_implies, and_true]
    constructor
    · rintro ⟨es', out, reads', outReads, sorted⟩
      rw [here] at reads'
      cases reads'
      have short := (@output_length env) reads
      have room := (eventsOf_reads (by omega) outReads).room
      rw [size_perm sorted.perm, Nat.zero_add, ← writeEvents_length env] at room
      rw [← writeEvents_length env, ← reached_whole_iff]
      exact reached_sublist.eq_of_length_le room
    · intro whole
      obtain ⟨es', reads', same'⟩ := output_repaired enough reads whole
      exact ⟨es, es', here, reads', same' ▸ inOrder_stablySorted reads⟩

/-- In verify mode it returns 0 if and only if the log can be read to its end, no signal arrives, and no time is
before that of an earlier event. -/
theorem logRepair_verifies (env : Environment) (enough : input.length + 1 < rounds) :
    ∃ result, logRepair env rounds true input = some result ∧ ((∃ out, result = .ok out) ↔
      env.opensInput = true ∧ ∃ es, eventsOf rounds input = some es ∧
        Undisturbed env .reading 0 (es.length + 1) ∧
        (times es).Pairwise (· ≤ ·)) := by
  obtain ⟨es, r, all, reads⟩ := (@readAll_reads _ _ rounds) (Nat.zero_le input.length) enough (by omega)
  obtain ⟨result, first, passed⟩ := (@readTimestamps_eq env) all true 0 none
  simp only [true_implies, Option.toList_none, List.nil_append, List.isChain_iff_pairwise] at passed
  unfold logRepair
  by_cases opens : env.opensInput = true
  · rw [if_neg (by simp [opens]), if_pos rfl, run, first]
    cases result with
    | error ending =>
        refine ⟨_, rfl, iff_of_false (by simp) ?_⟩
        rintro ⟨-, es', reads', undisturbed, ascending⟩
        rw [eventsOf_eq_some, all] at reads'
        cases reads'
        have passed := (passed _).mpr ⟨rfl, undisturbed, ascending, rfl⟩
        cases passed
    | ok ts =>
        obtain ⟨rfl, undisturbed, ascending, -⟩ := (passed ts).mp rfl
        exact ⟨_, rfl, iff_of_true ⟨_, rfl⟩ ⟨opens, es, eventsOf_eq_some.mpr all, undisturbed, ascending⟩⟩
  · rw [if_pos (by simp [opens])]
    exact ⟨_, rfl, iff_of_false (by simp) fun passes => opens passes.1⟩

def fullDisk : Environment where
  opensInput := true
  createsOutput := true
  opensOutput := true
  sameFile := false
  done _ _ := false
  returnsZero _ := false
  lost _ := true

def backwardsLog : List Event := [⟨0, 6, [65], [1]⟩, ⟨0, 5, [65], [2]⟩]

theorem backwardsLog_refused : ∃ result, logRepair fullDisk 80 true (written backwardsLog) = some result ∧
    ∀ out, result ≠ .ok out := by
  obtain ⟨result, runs, verifies⟩ := @logRepair_verifies 80 (written backwardsLog) fullDisk (by decide)
  refine ⟨result, runs, fun out ok => ?_⟩
  obtain ⟨-, es, reads, -, ascending⟩ := verifies.mp ⟨out, ok⟩
  have all : eventsOf 80 (written backwardsLog) = some [(⟨0, 6, [65], [1]⟩, 0), (⟨1, 5, [65], [2]⟩, 30)] := by
    decide
  rw [all] at reads
  cases reads
  exact absurd ascending (by decide)

theorem fullDisk_returns_zero : logRepair fullDisk 70 false (written plainLog) = some (.ok []) ∧
    ¬ Repaired 70 (written plainLog) [] := by
  have reads : eventsOf 70 (written plainLog) = some [(⟨0, 5, [65], [1, 2]⟩, 0)] := by decide
  have empty : ∀ es, output fullDisk es = [] := fun es => by simp [output, Environment.reached, fullDisk]
  constructor
  · obtain ⟨result, runs, passes⟩ :=
      @logRepair_eq fullDisk 70 (written plainLog) (by decide)
    have undisturbed : ∀ loop i n, Undisturbed fullDisk loop i n := fun _ _ _ _ _ => rfl
    have pass : Passes fullDisk 70 (written plainLog) [(⟨0, 5, [65], [1, 2]⟩, 0)] :=
      ⟨⟨rfl, rfl, rfl⟩, reads, undisturbed _ _ _, undisturbed _ _ _,
        [], by rw [empty, eventsOf_nil (by decide)], List.nil_prefix, undisturbed _ _ _⟩
    rw [runs, (passes []).mpr ⟨_, pass, (empty _).symm⟩]
  · rintro ⟨es, es', before, after, sorted⟩
    rw [reads] at before
    rw [eventsOf_nil (by decide)] at after
    cases before
    cases after
    exact absurd sorted.perm.length_eq (by decide)

theorem plainLog_repairs_iff : ∃ result, logRepair fullDisk 70 false (written plainLog) = some result ∧
    ((∀ out, result = .ok out → Repaired 70 (written plainLog) out) ↔
      ∀ es, Passes fullDisk 70 (if fullDisk.sameFile then [] else written plainLog) es →
        (∀ i < size es, fullDisk.lost i = false) ∧
        (fullDisk.sameFile = true → eventsOf 70 (written plainLog) = some [])) :=
  logRepair_repairs_iff fullDisk 70 (written plainLog) (by decide)

end Runs

end Zcm.Eventlog
