import Mathlib.Data.Int.Order.Basic
import Zcm.Eventlog.Replay
import Zcm.Eventlog.Seek
import Zcm.Lib.Except

namespace Zcm.Eventlog
open Zcm.Lib

inductive Loop
  | reading | writing | verifying

inductive Ending
  | failure | undefined
deriving DecidableEq

/-- What the system does in a run. Of the bytes that are written to the output, some can be lost, by a write
that fails or when the file is closed. -/
structure Environment where
  opensInput : Bool
  createsOutput : Bool
  opensOutput : Bool
  sameFile : Bool -- the output file is the input file
  done : Loop → Nat → Bool
  returnsZero : Nat → Bool
  lost : Nat → Bool

section Program

variable (env : Environment) (rounds : Nat)

def Environment.reached (bytes : List Byte) : List Byte :=
  (bytes.zipIdx.filter fun b => !env.lost b.2).map Prod.fst

def readTimestamps (verify : Bool) : Nat → Nat → Option Int → File → Option (Except Ending (List (Int × Nat)))
  | 0, _, _, _ => none
  | fuel + 1, i, back, logIn =>
      if env.done .reading i then some (.error .failure)
      else
        let offset := logIn.pos
        match zcmEventlogReadNextEvent rounds logIn with
        | none => none
        | some (.overflow, _) => some (.error .undefined)
        | some (.null, _) => some (.ok [])
        | some (.event event, logIn) =>
            let timestamp := event.timestamp.toInt
            if verify && back.any (timestamp < ·) then some (.error .failure)
            else (readTimestamps verify fuel (i + 1) (some timestamp) logIn).map
              (Except.map ((timestamp, offset) :: ·))

def pairLe (a b : Int × Nat) : Bool := a.1 < b.1 ∨ a.1 = b.1 ∧ a.2 ≤ b.2

def Writer.attempt (ok : Bool) (l : Writer) (le : Event) : Writer :=
  if ok then zcmEventlogWriteEvent l le else { zcmEventlogWriteEvent l le with eventcount := l.eventcount }

def rewrite : Nat → List (Int × Nat) → File → Writer → Option (Except Ending Writer)
  | _, [], _, logOut => some (.ok logOut)
  | i, (_, offset) :: timestamps, logIn, logOut =>
      if env.done .writing i then some (.error .failure)
      else
        match zcmEventlogReadEventAtOffset rounds logIn offset with
        | none => none
        | some (.event le, logIn) => rewrite (i + 1) timestamps logIn (logOut.attempt (env.returnsZero i) le)
        | some (.null, _) | some (.overflow, _) => some (.error .undefined)

def verifyOutput (timestamps : List (Int × Nat)) : Nat → Nat → File → Option (Except Ending Nat)
  | 0, _, _ => none
  | fuel + 1, i, logOut =>
      if env.done .verifying i then some (.error .failure)
      else
        match zcmEventlogReadNextEvent rounds logOut with
        | none => none
        | some (.overflow, _) => some (.error .undefined)
        | some (.null, _) => some (.ok i)
        | some (.event event, logOut) =>
            match timestamps[i]? with
            | none => some (.error .undefined)
            | some (timestamp, _) =>
                if event.timestamp.toInt ≠ timestamp then some (.error .failure)
                else verifyOutput timestamps fuel (i + 1) logOut

def rewriteAndVerify (input : List Byte) (timestamps : List (Int × Nat)) : Option (Except Ending (List Byte)) :=
  match rewrite env rounds 0 timestamps ⟨input, input.length⟩ Writer.create with
  | none => none
  | some (.error ending) => some (.error ending)
  | some (.ok logOut) =>
      if !env.opensOutput then some (.error .failure)
      else
        let output := env.reached logOut.bytes
        match verifyOutput env rounds timestamps rounds 0 ⟨output, 0⟩ with
        | none => none
        | some (.error ending) => some (.error ending)
        -- that events are missing is reported, and that is all
        | some (.ok _) => some (.ok output)

def run (verify : Bool) (input : List Byte) : Option (Except Ending (List Byte)) :=
  match readTimestamps env rounds verify rounds 0 none ⟨input, 0⟩ with
  | none => none
  | some (.error ending) => some (.error ending)
  | some (.ok timestamps) =>
      if verify then some (.ok [])
      else rewriteAndVerify env rounds input (timestamps.mergeSort pairLe)

/-- What the output file holds if the program returns 0. It is truncated before the input is read. -/
def logRepair (verify : Bool) (input : List Byte) : Option (Except Ending (List Byte)) :=
  if !env.opensInput then some (.error .failure)
  else if verify then run env rounds verify input
  else if !env.createsOutput then some (.error .failure)
  else run env rounds verify (if env.sameFile then [] else input)

end Program

section Specification

/-- The events that can be read from a log, with the offsets from which they are read, and how the reading
ends. -/
def readAll (rounds : Nat) : Nat → File → Option (List (Event × Nat) × Read)
  | 0, _ => none
  | fuel + 1, f =>
      match zcmEventlogReadNextEvent rounds f with
      | none => none
      | some (.event e, f') => (readAll rounds fuel f').map fun (es, r) => ((e, f.pos) :: es, r)
      | some (r, _) => some ([], r)

def eventsOf (rounds : Nat) (bytes : List Byte) : Option (List (Event × Nat)) :=
  match readAll rounds rounds ⟨bytes, 0⟩ with
  | some (es, .null) => some es
  | _ => none

structure StablySorted (before after : List Msg) : Prop where
  perm : after.Perm before
  sorted : after.Pairwise fun m m' => m.utime.toInt ≤ m'.utime.toInt
  stable : ∀ t, (after.filter fun m => m.utime = t) = before.filter fun m => m.utime = t

def msgs (es : List (Event × Nat)) : List Msg := es.map (·.1.msg)

def Repaired (rounds : Nat) (input output : List Byte) : Prop :=
  ∃ es es', eventsOf rounds input = some es ∧ eventsOf rounds output = some es' ∧
    StablySorted (msgs es) (msgs es')

def pair (x : Event × Nat) : Int × Nat := (x.1.timestamp.toInt, x.2)

def times (es : List (Event × Nat)) : List Int := es.map (·.1.timestamp.toInt)

def inOrder (es : List (Event × Nat)) : List (Event × Nat) := es.mergeSort fun x y => pairLe (pair x) (pair y)

def size (es : List (Event × Nat)) : Nat := (es.map (·.1.record.length)).sum

def Undisturbed (env : Environment) (loop : Loop) (i n : Nat) : Prop := ∀ j < n, env.done loop (i + j) = false

def writeEvents (env : Environment) : Nat → List (Event × Nat) → Writer → Writer
  | _, [], l => l
  | i, x :: es, l => writeEvents env (i + 1) es (l.attempt (env.returnsZero i) x.1)

def output (env : Environment) (es : List (Event × Nat)) : List Byte :=
  env.reached (writeEvents env 0 (inOrder es) Writer.create).bytes

/-- Nothing ends the run early, and the times that can be read from the output are an initial part of the
sorted ones. -/
structure Passes (env : Environment) (rounds : Nat) (input : List Byte) (es : List (Event × Nat)) : Prop where
  opens : env.opensInput = true ∧ env.createsOutput = true ∧ env.opensOutput = true
  reads : eventsOf rounds input = some es
  reading : Undisturbed env .reading 0 (es.length + 1)
  writing : Undisturbed env .writing 0 es.length
  verifying : ∃ es', eventsOf rounds (output env es) = some es' ∧ times es' <+: times (inOrder es) ∧
    Undisturbed env .verifying 0 (es'.length + 1)

end Specification

section Reading

variable {bytes : List Byte} {rounds fuel : Nat} {es : List (Event × Nat)} {r : Read}

theorem readNext_cases {pos : Nat} (inside : pos ≤ bytes.length) (enough : bytes.length + 1 < rounds) :
    (∃ f, zcmEventlogReadNextEvent rounds ⟨bytes, pos⟩ = some (.overflow, f)) ∨
    (∃ f, zcmEventlogReadNextEvent rounds ⟨bytes, pos⟩ = some (.null, f)) ∨
    ∃ e pos', zcmEventlogReadNextEvent rounds ⟨bytes, pos⟩ = some (.event e, ⟨bytes, pos'⟩) ∧ e.Readable ∧
      pos + e.record.length ≤ pos' ∧ pos' ≤ bytes.length := by
  have readable := @readNext_readable rounds bytes pos
  have spec := @zcmEventlogReadNextEvent_spec bytes rounds pos (by omega)
  generalize zcmEventlogReadNextEvent rounds ⟨bytes, pos⟩ = result at spec readable
  cases spec with
  | overflow p le first isOverflow f => exact .inl ⟨f, rfl⟩
  | null none pos' => exact .inr (.inl ⟨_, rfl⟩)
  | record p le first noOverflow e rest split limits follows =>
      refine .inr (.inr ⟨e, _, rfl, readable enough rfl, ?_, ?_⟩)
      · have four : magicBytes.length = 4 := rfl
        rw [Event.record, List.length_append, bodyEnd]
        omega
      · have whole := congrArg List.length split
        have four : magicBytes.length = 4 := rfl
        rw [List.length_drop, List.length_append, Event.record, List.length_append] at whole
        rw [bodyEnd]
        split
        next => omega
        next => omega

/-- What is known of events read from `pos` on: each is read again from its offset, and their records are apart. -/
structure Reads (rounds : Nat) (bytes : List Byte) (pos : Nat) (es : List (Event × Nat)) : Prop where
  readable : ∀ x ∈ es, x.1.Readable
  again : ∀ x ∈ es, ∃ pos', zcmEventlogReadNextEvent rounds ⟨bytes, x.2⟩ =
    some (.event x.1, ⟨bytes, pos'⟩)
  behind : ∀ x ∈ es, pos ≤ x.2
  increasing : es.Pairwise fun x y => x.2 < y.2
  room : pos + size es ≤ bytes.length

theorem record_length_pos (e : Event) : 0 < e.record.length := by
  have four : magicBytes.length = 4 := rfl
  rw [Event.record, List.length_append]
  omega

theorem readAll_reads {pos : Nat} (inside : pos ≤ bytes.length) (enough : bytes.length + 1 < rounds)
    (fueled : bytes.length - pos < fuel) :
    ∃ es r, readAll rounds fuel ⟨bytes, pos⟩ = some (es, r) ∧ Reads rounds bytes pos es := by
  induction fuel generalizing pos with
  | zero => omega
  | succ fuel ih =>
      rcases readNext_cases inside enough with ⟨f, read⟩ | ⟨f, read⟩ |
        ⟨e, pos', read, readable, room, inside'⟩
      · exact ⟨[], .overflow, by rw [readAll, read], by simp, by simp, by simp, .nil, by simpa [size] using inside⟩
      · exact ⟨[], .null, by rw [readAll, read], by simp, by simp, by simp, .nil, by simpa [size] using inside⟩
      · have positive := record_length_pos e
        obtain ⟨es, r, all, reads⟩ := ih inside' (by omega)
        refine ⟨(e, pos) :: es, r, by simp only [readAll, read, all, Option.map_some], ?_, ?_, ?_, ?_, ?_⟩
        · simpa using ⟨readable, fun e' offset => reads.readable (e', offset)⟩
        · simpa using ⟨⟨pos', read⟩, fun e' offset => reads.again (e', offset)⟩
        · intro x member
          rcases List.mem_cons.mp member with rfl | member
          · exact Nat.le_refl _
          · have := reads.behind x member
            omega
        · refine List.pairwise_cons.mpr ⟨fun x member => ?_, reads.increasing⟩
          have := reads.behind x member
          exact Nat.lt_of_lt_of_le (by omega) this
        · have := reads.room
          simp only [size, List.map_cons, List.sum_cons] at this ⊢
          omega

end Reading

theorem undisturbed_zero {env : Environment} {loop : Loop} {i : Nat} : Undisturbed env loop i 0 :=
  fun _ lt => absurd lt (Nat.not_lt_zero _)

theorem undisturbed_succ {env : Environment} {loop : Loop} {i n : Nat} :
    Undisturbed env loop i (n + 1) ↔ env.done loop i = false ∧ Undisturbed env loop (i + 1) n := by
  refine ⟨fun h => ⟨h 0 (by omega), fun j lt => ?_⟩, fun h j lt => ?_⟩
  · rw [Nat.add_assoc, Nat.add_comm 1]
    exact h (j + 1) (by omega)
  · cases j with
    | zero => exact h.1
    | succ j =>
        have later := h.2 j (by omega)
        rwa [Nat.add_assoc, Nat.add_comm 1] at later

section Loops

variable {env : Environment} {bytes : List Byte} {rounds fuel : Nat} {f : File} {es : List (Event × Nat)} {r : Read}

/-- The first loop is passed if no signal arrives and the log is read to its end, and in verify mode if no time
decreases. -/
theorem readTimestamps_eq (all : readAll rounds fuel f = some (es, r)) (verify : Bool) (i : Nat) (back : Option Int) :
    ∃ result, readTimestamps env rounds verify fuel i back f = some result ∧ ∀ ts, result = .ok ts ↔
      r = .null ∧ Undisturbed env .reading i (es.length + 1) ∧
        (verify = true → (back.toList ++ times es).IsChain (· ≤ ·)) ∧ ts = es.map pair := by
  induction fuel generalizing i back f es with
  | zero => simp [readAll] at all
  | succ fuel ih =>
      rw [readAll] at all
      rw [readTimestamps]
      simp only [undisturbed_succ]
      by_cases done : env.done .reading i = true
      · rw [if_pos done]
        exact ⟨_, rfl, fun ts => iff_of_false (by simp) (by simp [done])⟩
      · rw [if_neg done]
        have notDone : env.done .reading i = false := by simpa using done
        cases read : zcmEventlogReadNextEvent rounds f with
        | none => simp [read] at all
        | some result =>
            obtain ⟨result, f'⟩ := result
            cases result with
            | overflow =>
                simp only [read, Option.some.injEq, Prod.mk.injEq] at all
                obtain ⟨rfl, rfl⟩ := all
                exact ⟨_, rfl, fun ts => iff_of_false (by simp) (by simp)⟩
            | null =>
                simp only [read, Option.some.injEq, Prod.mk.injEq] at all
                obtain ⟨rfl, rfl⟩ := all
                refine ⟨_, rfl, fun ts => ?_⟩
                have empty : (Except.ok [] : Except Ending _) = .ok ts ↔ ts = [] := by simp [eq_comm]
                cases back <;> simp [times, notDone, empty, undisturbed_zero]
            | event e =>
                simp only [read, Option.map_eq_some_iff] at all
                obtain ⟨⟨es', r'⟩, later, same⟩ := all
                cases same
                obtain ⟨result, later, passed⟩ := ih later (i + 1) (some e.timestamp.toInt)
                simp only
                split
                next decreases =>
                  simp only [Bool.and_eq_true, Option.any_eq_true, decide_eq_true_eq] at decreases
                  obtain ⟨isVerify, t, isBack, less⟩ := decreases
                  refine ⟨_, rfl, fun ts => iff_of_false (by simp) fun passed => ?_⟩
                  have chain := passed.2.2.1 isVerify
                  obtain rfl := Option.mem_def.mp isBack
                  simp only [times, List.map_cons, Option.toList_some, List.cons_append, List.nil_append,
                    List.isChain_cons_cons] at chain
                  omega
                next keeps =>
                  rw [later]
                  have chains : (verify = true → (back.toList ++ times ((e, f.pos) :: es')).IsChain (· ≤ ·)) ↔
                      (verify = true → (e.timestamp.toInt :: times es').IsChain (· ≤ ·)) := by
                    refine imp_congr_right fun isVerify => ?_
                    cases back with
                    | none => rfl
                    | some t =>
                        have le : t ≤ e.timestamp.toInt := by simpa [isVerify] using keeps
                        simp [times, le]
                  refine ⟨_, rfl, fun ts => ?_⟩
                  rw [map_ok, chains, List.length_cons, undisturbed_succ]
                  simp only [passed, notDone, true_and, List.map_cons, Option.toList_some, List.singleton_append]
                  constructor
                  · rintro ⟨_, ⟨isNull, more, chain, rfl⟩, rfl⟩
                    exact ⟨isNull, undisturbed_succ.mp more, chain, rfl⟩
                  · rintro ⟨isNull, more, chain, rfl⟩
                    exact ⟨_, ⟨isNull, undisturbed_succ.mpr more, chain, rfl⟩, rfl⟩

theorem rewrite_eq
    (again : ∀ x ∈ es,
      ∃ pos', zcmEventlogReadNextEvent rounds ⟨bytes, x.2⟩ = some (.event x.1, ⟨bytes, pos'⟩))
    (i pos : Nat) (l : Writer) :
    ∃ result, rewrite env rounds i (es.map pair) ⟨bytes, pos⟩ l = some result ∧ ∀ l', result = .ok l' ↔
      Undisturbed env .writing i es.length ∧ l' = writeEvents env i es l := by
  induction es generalizing i pos l with
  | nil => exact ⟨_, rfl, fun l' => by simp [undisturbed_zero, writeEvents, eq_comm]⟩
  | cons x es ih =>
      obtain ⟨e, offset⟩ := x
      simp only [List.map_cons, pair, rewrite, List.length_cons, undisturbed_succ]
      by_cases done : env.done .writing i = true
      · rw [if_pos done]
        exact ⟨_, rfl, fun l' => iff_of_false (by simp) (by simp [done])⟩
      · rw [if_neg done]
        have notDone : env.done .writing i = false := by simpa using done
        obtain ⟨pos', read⟩ := again (e, offset) (by simp)
        obtain ⟨result, later, passed⟩ := ih (fun x member => again x (List.mem_cons_of_mem _ member)) (i + 1) pos'
          (l.attempt (env.returnsZero i) e)
        simp only [zcmEventlogReadEventAtOffset, read, notDone, true_and, writeEvents]
        exact ⟨result, later, passed⟩

theorem verifyOutput_eq (all : readAll rounds fuel f = some (es, r)) (i : Nat) (ts : List (Int × Nat)) :
    ∃ result, verifyOutput env rounds ts fuel i f = some result ∧ ∀ n, result = .ok n ↔
      r = .null ∧ Undisturbed env .verifying i (es.length + 1) ∧ times es <+: (ts.drop i).map Prod.fst ∧
        n = i + es.length := by
  induction fuel generalizing i f es with
  | zero => simp [readAll] at all
  | succ fuel ih =>
      rw [readAll] at all
      rw [verifyOutput]
      simp only [undisturbed_succ]
      by_cases done : env.done .verifying i = true
      · rw [if_pos done]
        exact ⟨_, rfl, fun n => iff_of_false (by simp) (by simp [done])⟩
      · rw [if_neg done]
        have notDone : env.done .verifying i = false := by simpa using done
        cases read : zcmEventlogReadNextEvent rounds f with
        | none => simp [read] at all
        | some result =>
            obtain ⟨result, f'⟩ := result
            cases result with
            | overflow =>
                simp only [read, Option.some.injEq, Prod.mk.injEq] at all
                obtain ⟨rfl, rfl⟩ := all
                exact ⟨_, rfl, fun n => iff_of_false (by simp) (by simp)⟩
            | null =>
                simp only [read, Option.some.injEq, Prod.mk.injEq] at all
                obtain ⟨rfl, rfl⟩ := all
                exact ⟨_, rfl, fun n => by simp [notDone, undisturbed_zero, times, eq_comm]⟩
            | event e =>
                simp only [read, Option.map_eq_some_iff] at all
                obtain ⟨⟨es', r'⟩, later, same⟩ := all
                cases same
                simp only
                cases expected : ts[i]? with
                | none =>
                    refine ⟨_, rfl, fun n => iff_of_false (by simp) fun passed => ?_⟩
                    have behind : ts.drop i = [] := List.drop_eq_nil_of_le (List.getElem?_eq_none_iff.mp expected)
                    simp [behind, times] at passed
                | some t =>
                    obtain ⟨t, offset⟩ := t
                    obtain ⟨result, later, passed⟩ := ih later (i + 1)
                    have split : ts.drop i = (t, offset) :: ts.drop (i + 1) := by
                      obtain ⟨lt, here⟩ := List.getElem?_eq_some_iff.mp expected
                      rw [List.drop_eq_getElem_cons lt, here]
                    simp only [split, times, List.map_cons, List.cons_prefix_cons]
                    split
                    next differs => exact ⟨_, rfl, fun n => iff_of_false (by simp) (by simp [differs])⟩
                    next same =>
                      refine ⟨result, later, fun n => ?_⟩
                      rw [passed, List.length_cons, undisturbed_succ]
                      simp only [notDone, true_and, not_not.mp same, times, Nat.add_assoc, Nat.add_comm 1]

end Loops

end Zcm.Eventlog
