import Mathlib.Algebra.Order.Floor.Semifield
import Mathlib.Data.Rat.Floor
import Mathlib.Tactic.Linarith
import Mathlib.Tactic.LinearCombination
import Mathlib.Tactic.NormNum
import Zcm.Eventlog.Cursor

namespace Zcm.Eventlog
open Zcm.Lib

section Seeking

structure Log where
  f : File
  eventcount : BitVec 64
deriving DecidableEq

def getNextEventTime (rounds : Nat) (l : Log) : Option (Int × Log) :=
  match syncStream rounds l.f with
  | none => none
  | some (false, f) => some (-1, { l with f := f })
  | some (true, f) =>
      match fread64 f with
      | .error _ f => some (-1, { l with f := f })
      | .ok eventNum f =>
          match fread64 f with
          | .error _ f => some (-1, { l with f := f })
          | .ok timestamp f => some (timestamp.toInt, ⟨f.fseekCur (-20), eventNum⟩)

def seekLoop (rounds fileLen : Nat) (timestamp : Int) : Nat → ℚ → ℚ → ℚ → Log → Option (Int × Log)
  | 0, _, _, _, _ => none
  | probes + 1, frac1, frac2, prevFrac, l =>
      let frac := 1 / 2 * (frac1 + frac2)
      let offset := ⌊frac * fileLen⌋₊
      match getNextEventTime rounds { l with f := { l.f with pos := offset } } with
      | none => none
      | some (curTime, l) =>
          if curTime < 0 then some (-1, l)
          else if frac > frac2 ∨ frac < frac1 ∨ frac1 ≥ frac2 then some (0, l)
          else
            let df := frac - prevFrac
            let df := if df < 0 then -df else df
            if df < 1 / 10 ^ 12 then some (0, l)
            else if curTime = timestamp then some (0, l)
            else if curTime < timestamp then seekLoop rounds fileLen timestamp probes frac frac2 frac l
            else seekLoop rounds fileLen timestamp probes frac1 frac frac l

def zcmEventlogSeekToTimestamp (rounds probes : Nat) (l : Log) (timestamp : Int) : Option (Int × Log) :=
  seekLoop rounds l.f.bytes.length timestamp probes 0 1 (-1) l

end Seeking

section Probes

variable {events : List Event} {i : Nat}

theorem magicAt_recordsOf (noSync : ∀ e ∈ events, ∀ q, ¬ MagicAt e.body q) {p : Nat}
    (isMagic : MagicAt (recordsOf events) p) :
    ∃ i < events.length, p = startOf events i := by
  induction events generalizing p with
  | nil =>
      have le := isMagic.le
      simp [recordsOf] at le
  | cons e events ih =>
      have first : MagicAt (recordsOf (e :: events)) 0 := magic_recordsOf e events
      have four : magicBytes.length = 4 := rfl
      rcases Nat.eq_zero_or_pos p with rfl | pos
      · exact ⟨0, Nat.zero_lt_succ _, rfl⟩
      have apart := first.apart isMagic pos
      obtain ⟨q, rfl⟩ := Nat.exists_eq_add_of_le (show 4 ≤ p by omega)
      have behind : (recordsOf (e :: events)).drop (4 + q) = (e.body ++ recordsOf events).drop q := by
        rw [← List.drop_drop, recordsOf_cons, Event.record, List.append_assoc, List.drop_left' four]
      rcases Nat.lt_or_ge q e.body.length with inBody | beyond
      · -- Either it ends in the body, or the next record starts inside of it.
        exfalso
        rcases Nat.lt_or_ge e.body.length (q + 4) with across | inside
        · cases events with
          | nil =>
              have le := isMagic.le
              simp only [recordsOf, List.map_cons, List.map_nil, List.flatten_cons, List.flatten_nil, List.append_nil,
                Event.record, List.length_append] at le
              omega
          | cons e' events =>
              have next : MagicAt (recordsOf (e :: e' :: events)) (4 + e.body.length) := by
                rw [MagicAt, recordsOf_cons, List.drop_left' (by rw [Event.record, List.length_append]; rfl)]
                exact magic_recordsOf e' events
              have apart' := isMagic.apart next (by omega)
              omega
        · rw [MagicAt, behind, List.drop_append_of_le_length (by omega)] at isMagic
          obtain ⟨rest, same⟩ := isMagic
          refine noSync e List.mem_cons_self q ⟨(e.body.drop q).drop 4, ?_⟩
          have word := congrArg (List.take 4) same
          rw [List.take_left' four, List.take_append_of_le_length (by rw [List.length_drop]; omega)] at word
          rw [word, List.take_append_drop]
      · obtain ⟨d, rfl⟩ := Nat.exists_eq_add_of_le beyond
        rw [MagicAt, behind, ← List.drop_drop, List.drop_left] at isMagic
        obtain ⟨i, lt, rfl⟩ := ih (fun e' member => noSync e' (List.mem_cons_of_mem _ member)) isMagic
        refine ⟨i + 1, Nat.succ_lt_succ lt, ?_⟩
        simp only [startOf, List.take_succ_cons, List.map_cons, List.flatten_cons, List.length_append, Event.record,
          four]
        omega

theorem magicAt_startOf (lt : i < events.length) : MagicAt (recordsOf events) (startOf events i) := by
  rw [MagicAt, drop_startOf, List.drop_eq_getElem_cons lt]
  exact magic_recordsOf _ _

theorem startOf_lt {j : Nat} (lt : i < j) (le : j ≤ events.length) : startOf events i + 28 ≤ startOf events j := by
  have next := @startOf_mono events (i + 1) j lt
  have here := startOf_succ (show i < events.length by omega)
  have length := (events[i]).body_length
  omega

variable {rounds offset : Nat} {eventcount : BitVec 64}

theorem getNextEventTime_at (noSync : ∀ e ∈ events, ∀ q, ¬ MagicAt e.body q)
    (enough : (recordsOf events).length < rounds)
    (lt : i < events.length) (le : offset ≤ startOf events i) (before : ∀ j < i, startOf events j < offset) :
    getNextEventTime rounds ⟨⟨recordsOf events, offset⟩, eventcount⟩ =
      some (events[i].timestamp.toInt, ⟨⟨recordsOf events, startOf events i⟩, events[i].eventnum⟩) := by
  have synced := @syncStream_spec (recordsOf events) offset rounds (by omega)
  have here := @magicAt_startOf events i lt
  rcases synced with ⟨p, from_, isMagic, first, found⟩ | ⟨none, -⟩
  · obtain ⟨j, ltj, rfl⟩ := magicAt_recordsOf noSync isMagic
    have same : j = i := by
      rcases Nat.lt_trichotomy j i with less | same | more
      · have := before j less
        omega
      · exact same
      · exact absurd here (first _ le (by have := startOf_lt more (Nat.le_of_lt ltj); omega))
    subst same
    have bytes : File.rest ⟨recordsOf events, startOf events j + 4⟩ =
        be64 events[j].eventnum ++ (be64 events[j].timestamp ++ (toBe 4 events[j].channel.length ++
          (toBe 4 events[j].data.length ++
            (events[j].channel ++ (events[j].data ++ recordsOf (events.drop (j + 1))))))) := by
      rw [File.rest, ← List.drop_drop, drop_startOf, List.drop_eq_getElem_cons ltj, recordsOf_cons, Event.record,
        List.append_assoc, List.drop_left' (show magicBytes.length = 4 from rfl), Event.body]
      simp only [List.append_assoc]
    have second := File.skip_rest bytes
    rw [be64_length] at second
    unfold getNextEventTime
    simp only [found, fread64_of_rest bytes, fread64_of_rest second]
    congr 3
    exact File.fseekCur_back (n := 20) (by simp)
  · exact absurd here (none _ le)

theorem getNextEventTime_off (noSync : ∀ e ∈ events, ∀ q, ¬ MagicAt e.body q)
    (enough : (recordsOf events).length < rounds)
    (off : ∀ j < events.length, startOf events j < offset) :
    ∃ f, getNextEventTime rounds ⟨⟨recordsOf events, offset⟩, eventcount⟩ =
      some (-1, ⟨f, eventcount⟩) := by
  have synced := @syncStream_spec (recordsOf events) offset rounds (by omega)
  rcases synced with ⟨p, from_, isMagic, -, -⟩ | ⟨-, pos, failed⟩
  · obtain ⟨j, ltj, rfl⟩ := magicAt_recordsOf noSync isMagic
    have := off j ltj
    omega
  · exact ⟨⟨recordsOf events, pos⟩, by simp only [getNextEventTime, failed]⟩

/-- Where the events before `k` end, as a bound on the offsets from which the reader comes to `k`. -/
def behindPrevious (events : List Event) : Nat → Nat
  | 0 => 0
  | k + 1 => startOf events k + 1

inductive Probe (rounds : Nat) (events : List Event) (k : Nat) (offset : Nat) (eventcount : BitVec 64) : Prop
  | hit (low : behindPrevious events k ≤ offset) (high : offset ≤ startOf events k) (lt : k < events.length)
      (found : getNextEventTime rounds ⟨⟨recordsOf events, offset⟩, eventcount⟩ =
        some (events[k].timestamp.toInt, ⟨⟨recordsOf events, startOf events k⟩, events[k].eventnum⟩))
  | below (low : offset < behindPrevious events k) (i : Nat) (less : i < k) (lt : i < events.length)
      (found : getNextEventTime rounds ⟨⟨recordsOf events, offset⟩, eventcount⟩ =
        some (events[i].timestamp.toInt, ⟨⟨recordsOf events, startOf events i⟩, events[i].eventnum⟩))
  | above (high : startOf events k < offset) (within : offset ≤ startOf events (events.length - 1)) (i : Nat)
      (more : k < i) (lt : i < events.length)
      (found : getNextEventTime rounds ⟨⟨recordsOf events, offset⟩, eventcount⟩ =
        some (events[i].timestamp.toInt, ⟨⟨recordsOf events, startOf events i⟩, events[i].eventnum⟩))
  | off (beyond : startOf events (events.length - 1) < offset) (f : File)
      (failed : getNextEventTime rounds ⟨⟨recordsOf events, offset⟩, eventcount⟩ =
        some (-1, ⟨f, eventcount⟩))

theorem probe (noSync : ∀ e ∈ events, ∀ q, ¬ MagicAt e.body q) (enough : (recordsOf events).length < rounds)
    {k : Nat}
    (ltk : k < events.length) (offset : Nat) (eventcount : BitVec 64) : Probe rounds events k offset eventcount := by
  rcases Nat.lt_or_ge (startOf events (events.length - 1)) offset with beyond | within
  · obtain ⟨f, failed⟩ := @getNextEventTime_off events rounds offset eventcount noSync enough fun j ltj =>
      Nat.lt_of_le_of_lt (startOf_mono (by omega)) beyond
    exact .off beyond f failed
  -- The first record at the offset or behind it.
  have some_ : ∃ i, offset ≤ startOf events i := ⟨_, within⟩
  have here := Nat.find_spec some_
  have first : ∀ j < Nat.find some_, startOf events j < offset :=
    fun j less => Nat.not_le.mp (Nat.find_min some_ less)
  have last : Nat.find some_ ≤ events.length - 1 := Nat.find_min' some_ within
  generalize Nat.find some_ = i at here first last
  have lt : i < events.length := by omega
  have found := @getNextEventTime_at events i rounds offset eventcount noSync enough lt here first
  rcases Nat.lt_trichotomy i k with less | rfl | more
  · refine .below ?_ i less lt found
    obtain ⟨k, rfl⟩ := Nat.exists_eq_succ_of_ne_zero (Nat.ne_of_gt (Nat.zero_lt_of_lt less))
    have := @startOf_mono events i k (by omega)
    exact Nat.lt_succ_of_le (Nat.le_trans here this)
  · refine .hit ?_ here lt found
    cases i with
    | zero => exact Nat.zero_le _
    | succ i => exact first i (Nat.lt_succ_self i)
  · exact .above (first k more) within i more lt found

end Probes

section Bisection

/-- A log in the order of its times, without sync words in the bodies, and the event that is looked for. -/
structure Target (events : List Event) (rounds k : Nat) : Prop where
  noSync : ∀ e ∈ events, ∀ q, ¬ MagicAt e.body q
  enough : (recordsOf events).length < rounds
  lt : k < events.length
  nonneg : ∀ (i : Nat) (lt : i < events.length), 0 ≤ events[i].timestamp.toInt
  increasing : ∀ (i j : Nat) (less : i < j) (lt : j < events.length),
    events[i].timestamp.toInt < events[j].timestamp.toInt

variable {events : List Event} {rounds k n : Nat} {frac1 frac2 prevFrac : ℚ} {l : Log}

def offsetOf (events : List Event) (frac : ℚ) : Nat := ⌊frac * (recordsOf events).length⌋₊

theorem df_eq_abs (df : ℚ) : (if df < 0 then -df else df) = |df| := by
  split
  · next negative => exact (abs_of_neg negative).symm
  · next nonneg => exact (abs_of_nonneg (not_lt.mp nonneg)).symm

theorem seekLoop_off (target : Target events rounds k) (bytes : l.f.bytes = recordsOf events) (timestamp : Int)
    (beyond : startOf events (events.length - 1) < offsetOf events (1 / 2 * (frac1 + frac2))) :
    ∃ l', seekLoop rounds (recordsOf events).length timestamp (n + 1) frac1 frac2 prevFrac l = some (-1, l') := by
  obtain ⟨⟨_, pos⟩, eventcount⟩ := l
  obtain rfl : _ = recordsOf events := bytes
  rw [seekLoop]
  cases probe target.noSync target.enough target.lt (offsetOf events (1 / 2 * (frac1 + frac2))) eventcount with
  | hit _ high lt _ =>
      have := @startOf_mono events k (events.length - 1) (by omega)
      omega
  | below low i less lt _ =>
      have := @startOf_mono events k (events.length - 1) (by have := target.lt; omega)
      cases k with
      | zero => cases less
      | succ k =>
          have := @startOf_mono events k (k + 1) (Nat.le_succ k)
          simp only [behindPrevious] at low
          omega
  | above _ within => omega
  | off _ f failed =>
      refine ⟨⟨f, eventcount⟩, ?_⟩
      unfold offsetOf at failed
      simp only [failed]
      rfl

theorem seekLoop_probe {offset : Nat} (here : offsetOf events (1 / 2 * (frac1 + frac2)) = offset)
    (bytes : l.f.bytes = recordsOf events)
    {time : Int} {l' : Log}
    (found : getNextEventTime rounds ⟨⟨recordsOf events, offset⟩, l.eventcount⟩ = some (time, l'))
    (nonneg : 0 ≤ time) (less : frac1 < frac2) (timestamp : Int) :
    seekLoop rounds (recordsOf events).length timestamp (n + 1) frac1 frac2 prevFrac l =
      if |1 / 2 * (frac1 + frac2) - prevFrac| < 1 / 10 ^ 12 ∨ time = timestamp then some (0, l')
      else if time < timestamp then
        seekLoop rounds (recordsOf events).length timestamp n (1 / 2 * (frac1 + frac2)) frac2
          (1 / 2 * (frac1 + frac2)) l'
      else seekLoop rounds (recordsOf events).length timestamp n frac1 (1 / 2 * (frac1 + frac2))
        (1 / 2 * (frac1 + frac2)) l' := by
  subst here
  obtain ⟨⟨_, pos⟩, eventcount⟩ := l
  obtain rfl : _ = recordsOf events := bytes
  unfold offsetOf at found
  have inside : ¬ (1 / 2 * (frac1 + frac2) > frac2 ∨ 1 / 2 * (frac1 + frac2) < frac1 ∨ frac1 ≥ frac2) := by
    rintro (high | low | none)
    · linarith
    · linarith
    · linarith
  rw [seekLoop]
  simp only [found, if_neg (not_lt.mpr nonneg), if_neg inside, df_eq_abs]
  by_cases small : |1 / 2 * (frac1 + frac2) - prevFrac| < 1 / 10 ^ 12
  · rw [if_pos small, if_pos (.inl small)]
  · rw [if_neg small]
    simp only [small, false_or]

def Found (events : List Event) (k : Nat) (r : Option (Int × Log)) : Prop :=
  ∃ l', r = some (0, l') ∧ l'.f = ⟨recordsOf events, startOf events k⟩

theorem half_pow_mul_lt {len : Nat} (small : len < 2 ^ 40) {m : Nat} (late : 40 ≤ m) :
    (1 / 2 : ℚ) ^ m * len < 1 := by
  have shrinks : (1 / 2 : ℚ) ^ m ≤ (1 / 2) ^ 40 := pow_le_pow_of_le_one (by norm_num) (by norm_num) late
  have bound : (len : ℚ) < 2 ^ 40 := by exact_mod_cast small
  calc (1 / 2 : ℚ) ^ m * len ≤ (1 / 2) ^ 40 * len := mul_le_mul_of_nonneg_right shrinks (Nat.cast_nonneg len)
    _ < (1 / 2) ^ 40 * 2 ^ 40 := mul_lt_mul_of_pos_left bound (by norm_num)
    _ = 1 := by norm_num

theorem late_of_small {m : Nat} (tiny : (1 / 2 : ℚ) ^ m < 1 / 10 ^ 12) : 40 ≤ m := by
  by_contra early
  have shrinks : (1 / 2 : ℚ) ^ 39 ≤ (1 / 2) ^ m := pow_le_pow_of_le_one (by norm_num) (by norm_num) (by omega)
  have far : (1 / 10 ^ 12 : ℚ) ≤ (1 / 2) ^ 39 := by norm_num
  linarith

theorem Target.behindPrevious_le (target : Target events rounds k) :
    behindPrevious events k = 0 ∧ startOf events k = 0 ∨ behindPrevious events k + 28 ≤ startOf events k + 1 := by
  cases k with
  | zero => exact .inl ⟨rfl, rfl⟩
  | succ k =>
      have := startOf_lt (Nat.lt_add_one k) (Nat.le_of_lt target.lt)
      exact .inr (by simp only [behindPrevious]; omega)

theorem Target.startOf_last (target : Target events rounds k) :
    startOf events k ≤ startOf events (events.length - 1) ∧ startOf events (events.length - 1) + 28 ≤
      (recordsOf events).length := by
  have lt := target.lt
  have last := @startOf_lt events (events.length - 1) events.length (by omega) (Nat.le_refl _)
  rw [startOf_length] at last
  exact ⟨startOf_mono (by omega), last⟩

theorem offsetOf_le {frac : ℚ} (nonneg : 0 ≤ frac) :
    (offsetOf events frac : ℚ) ≤ frac * (recordsOf events).length :=
  Nat.floor_le (mul_nonneg nonneg (Nat.cast_nonneg _))

theorem lt_offsetOf_add_one (frac : ℚ) : frac * (recordsOf events).length < offsetOf events frac + 1 :=
  Nat.lt_floor_add_one _

/-- Between a fraction from which the event lies ahead and one that has passed it without leaving the log, the loop
finds the event before it runs out of probes. -/
theorem seekLoop_between (target : Target events rounds k) (small : (recordsOf events).length < 2 ^ 40) {j : Nat}
    (probes : 40 ≤ n + j) (width : frac2 = frac1 + (1 / 2) ^ j) (nonneg : 0 ≤ frac1)
    (prev : prevFrac = frac1 ∨ prevFrac = frac2)
    (low : frac1 * (recordsOf events).length ≤ behindPrevious events k)
    (high : (startOf events k + 1 : ℚ) ≤ frac2 * (recordsOf events).length)
    (within : offsetOf events frac2 ≤ startOf events (events.length - 1)) (bytes : l.f.bytes = recordsOf events) :
    Found events k
      (seekLoop rounds (recordsOf events).length
        (events.get ⟨k, target.lt⟩).timestamp.toInt n frac1 frac2 prevFrac l) := by
  have wide := target.behindPrevious_le
  induction n generalizing j frac1 frac2 prevFrac l with
  | zero =>
      have little := half_pow_mul_lt small (show 40 ≤ j by omega)
      have room : (behindPrevious events k : ℚ) ≤ startOf events k := by exact_mod_cast (by omega)
      rw [width, add_mul] at high
      linarith
  | succ n ih =>
      have mid : 1 / 2 * (frac1 + frac2) = frac1 + (1 / 2) ^ (j + 1) := by
        rw [width, pow_succ]
        ring
      have positive : (0 : ℚ) < (1 / 2) ^ (j + 1) := by positivity
      have less : frac1 < frac2 := by
        rw [width]
        have : (0 : ℚ) < (1 / 2) ^ j := by positivity
        linarith
      have halves : (1 / 2 : ℚ) ^ j = 2 * (1 / 2) ^ (j + 1) := by
        rw [pow_succ]
        ring
      have floor := @offsetOf_le events (1 / 2 * (frac1 + frac2)) (by rw [mid]; linarith)
      have ceil := @lt_offsetOf_add_one events (1 / 2 * (frac1 + frac2))
      have inside : offsetOf events (1 / 2 * (frac1 + frac2)) ≤ offsetOf events frac2 :=
        Nat.floor_mono (mul_le_mul_of_nonneg_right (by linarith) (Nat.cast_nonneg _))
      have df : |1 / 2 * (frac1 + frac2) - prevFrac| = (1 / 2) ^ (j + 1) := by
        rcases prev with prev | prev
        · rw [prev, mid, add_sub_cancel_left, abs_of_pos positive]
        · have back : frac1 + (1 / 2) ^ (j + 1) - (frac1 + 2 * (1 / 2) ^ (j + 1)) = -(1 / 2 : ℚ) ^ (j + 1) := by ring
          rw [prev, mid, width, halves, back, abs_neg, abs_of_pos positive]
      -- The steps are that small only when the first record alone is left.
      have early : offsetOf events (1 / 2 * (frac1 + frac2)) < behindPrevious events k ∨
          startOf events k < offsetOf events (1 / 2 * (frac1 + frac2)) →
          ¬ |1 / 2 * (frac1 + frac2) - prevFrac| < 1 / 10 ^ 12 := by
        intro missed tiny
        rw [df] at tiny
        have little := half_pow_mul_lt small (late_of_small tiny)
        rcases wide with ⟨zero, zero'⟩ | wide
        · rw [zero, Nat.cast_zero] at low
          rw [mid, add_mul] at floor
          have below : (offsetOf events (frac1 + (1 / 2) ^ (j + 1)) : ℚ) < 1 := by linarith
          rw [← mid] at below
          have below : offsetOf events (1 / 2 * (frac1 + frac2)) < 1 := by exact_mod_cast below
          omega
        · have wide : (behindPrevious events k + 28 : ℚ) ≤ startOf events k + 1 := by exact_mod_cast wide
          rw [width, halves, add_mul] at high
          linarith
      cases probe target.noSync target.enough target.lt (offsetOf events (1 / 2 * (frac1 + frac2))) l.eventcount with
      | hit _ _ lt found =>
          rw [seekLoop_probe rfl bytes found (target.nonneg k lt) less, if_pos (.inr rfl)]
          exact ⟨_, rfl, rfl⟩
      | below before i earlier lt found =>
          have time : events[i].timestamp.toInt < (events.get ⟨k, target.lt⟩).timestamp.toInt :=
            target.increasing i k earlier target.lt
          have go : ¬ (|1 / 2 * (frac1 + frac2) - prevFrac| < 1 / 10 ^ 12 ∨
              events[i].timestamp.toInt = (events.get ⟨k, target.lt⟩).timestamp.toInt) := by
            rintro (tiny | same)
            · exact early (.inl before) tiny
            · exact absurd same (Int.ne_of_lt time)
          rw [seekLoop_probe rfl bytes found (target.nonneg i lt) less, if_neg go, if_pos time]
          have before : (offsetOf events (1 / 2 * (frac1 + frac2)) + 1 : ℚ) ≤
            behindPrevious events k := by exact_mod_cast before
          refine ih (show 40 ≤ n + (j + 1) by omega) ?_ ?_ (.inl rfl) ?_ high within rfl
          · rw [mid, width, halves]
            ring
          · rw [mid]
            linarith
          · linarith
      | above beyond inLog i later lt found =>
          have time : (events.get ⟨k, target.lt⟩).timestamp.toInt < events[i].timestamp.toInt :=
            target.increasing k i later lt
          have go : ¬ (|1 / 2 * (frac1 + frac2) - prevFrac| < 1 / 10 ^ 12 ∨
              events[i].timestamp.toInt = (events.get ⟨k, target.lt⟩).timestamp.toInt) := by
            rintro (tiny | same)
            · exact early (.inr beyond) tiny
            · exact absurd same (Int.ne_of_gt time)
          rw [seekLoop_probe rfl bytes found (target.nonneg i lt) less, if_neg go,
            if_neg (Int.not_lt.mpr (Int.le_of_lt time))]
          have beyond : (startOf events k + 1 : ℚ) ≤
            offsetOf events (1 / 2 * (frac1 + frac2)) := by exact_mod_cast beyond
          exact ih (show 40 ≤ n + (j + 1) by omega) mid nonneg (.inr rfl) low (beyond.trans floor) inLog rfl
      | off outside => omega

def rightward (len n : Nat) : Nat := (2 ^ n - 1) * len / 2 ^ n

theorem offsetOf_rightward (n : Nat) : offsetOf events (1 - (1 / 2) ^ n) = rightward (recordsOf events).length n := by
  have scaled : (1 - (1 / 2 : ℚ) ^ n) * (recordsOf events).length =
      (((2 ^ n - 1) * (recordsOf events).length : ℕ) : ℚ) / ((2 ^ n : ℕ) : ℚ) := by
    have inverse : (1 / 2 : ℚ) ^ n * 2 ^ n = 1 := by
      rw [← mul_pow]
      norm_num
    rw [Nat.cast_mul, Nat.cast_sub Nat.one_le_two_pow, Nat.cast_pow, Nat.cast_one, Nat.cast_two,
      eq_div_iff (by positivity)]
    linear_combination (-(recordsOf events).length : ℚ) * inverse
  rw [offsetOf, scaled, Nat.floor_div_eq_div, rightward]

theorem rightward_mono (len : Nat) {n m : Nat} (le : n ≤ m) : rightward len n ≤ rightward len m := by
  refine monotone_nat_of_le_succ (fun n => ?_) le
  have pos := Nat.two_pow_pos n
  have step : rightward len n = 2 * ((2 ^ n - 1) * len) / (2 * 2 ^ n) := (Nat.mul_div_mul_left _ _ (by decide)).symm
  rw [step, rightward, pow_succ, Nat.mul_comm (2 ^ n) 2, ← Nat.mul_assoc]
  exact Nat.div_le_div_right (Nat.mul_le_mul_right len (by omega))

/-- As long as all probes go to the right, they follow `rightward`. What decides is the first one that has passed the
event before `k`. -/
theorem seekLoop_rightwards (target : Target events rounds k) (small : (recordsOf events).length < 2 ^ 40) {j : Nat}
    (probes : 40 ≤ n + j) (here : frac1 = 1 - (1 / 2) ^ j) (prev : prevFrac = frac1 ∨ j = 0 ∧ prevFrac = -1)
    (low : frac1 * (recordsOf events).length ≤ behindPrevious events k) (bytes : l.f.bytes = recordsOf events) :
    let r := seekLoop rounds (recordsOf events).length
      (events.get ⟨k, target.lt⟩).timestamp.toInt n frac1 1 prevFrac l
    let lands := ∃ m > j, behindPrevious events k ≤ rightward (recordsOf events).length m ∧
      rightward (recordsOf events).length m ≤ startOf events (events.length - 1)
    lands ∧ Found events k r ∨ ¬ lands ∧ ∃ l', r = some (-1, l') := by
  obtain ⟨inLog, last⟩ := target.startOf_last
  have wide := target.behindPrevious_le
  have lastCast : (startOf events (events.length - 1) + 28 : ℚ) ≤ (recordsOf events).length := by
    exact_mod_cast last
  induction n generalizing j frac1 prevFrac l with
  | zero =>
      have little := half_pow_mul_lt small (show 40 ≤ j by omega)
      have room : (behindPrevious events k : ℚ) ≤ startOf events (events.length - 1) := by exact_mod_cast (by omega)
      rw [here, sub_mul] at low
      linarith
  | succ n ih =>
      have mid : 1 / 2 * (frac1 + 1) = 1 - (1 / 2) ^ (j + 1) := by
        rw [here, pow_succ]
        ring
      have offset : offsetOf events (1 / 2 * (frac1 + 1)) = rightward (recordsOf events).length (j + 1) := by
        rw [mid, offsetOf_rightward]
      have positive : (0 : ℚ) < (1 / 2) ^ (j + 1) := by positivity
      have halves : (1 / 2 : ℚ) ^ j = 2 * (1 / 2) ^ (j + 1) := by
        rw [pow_succ]
        ring
      have whole : (1 / 2 : ℚ) ^ j ≤ 1 := pow_le_one₀ (by norm_num) (by norm_num)
      have less : frac1 < 1 := by
        rw [here]
        linarith
      have floor := @offsetOf_le events (1 / 2 * (frac1 + 1)) (by rw [mid]; linarith)
      have ceil := @lt_offsetOf_add_one events (1 / 2 * (frac1 + 1))
      -- A probe that meets a record is not among the last ones, which lie in the last record.
      have early : offsetOf events (1 / 2 * (frac1 + 1)) ≤ startOf events (events.length - 1) →
          ¬ |1 / 2 * (frac1 + 1) - prevFrac| < 1 / 10 ^ 12 := by
        intro inside tiny
        have inside : (offsetOf events (1 / 2 * (frac1 + 1)) : ℚ) ≤
          startOf events (events.length - 1) := by exact_mod_cast inside
        rcases prev with prev | ⟨rfl, prev⟩
        · have df : |1 / 2 * (frac1 + 1) - prevFrac| = (1 / 2) ^ (j + 1) := by
            have step : 1 - (1 / 2) ^ (j + 1) - (1 - 2 * (1 / 2) ^ (j + 1)) = (1 / 2 : ℚ) ^ (j + 1) := by ring
            rw [mid, prev, here, halves, step, abs_of_pos positive]
          rw [df] at tiny
          have little := half_pow_mul_lt small (late_of_small tiny)
          rw [mid, sub_mul] at ceil
          rw [← mid] at ceil
          linarith
        · rw [mid, prev] at tiny
          norm_num at tiny
      intro r lands
      have beyond : ∀ m > j, rightward (recordsOf events).length (j + 1) ≤ rightward (recordsOf events).length m :=
        fun m later => rightward_mono _ later
      cases probe target.noSync target.enough target.lt (offsetOf events (1 / 2 * (frac1 + 1))) l.eventcount with
      | hit low high lt found =>
          refine .inl ⟨⟨j + 1, Nat.lt_succ_self j, offset ▸ low, offset ▸ Nat.le_trans high inLog⟩, ?_⟩
          unfold r
          rw [seekLoop_probe rfl bytes found (target.nonneg k lt) less, if_pos (.inr rfl)]
          exact ⟨_, rfl, rfl⟩
      | below before i earlier lt found =>
          have time : events[i].timestamp.toInt < (events.get ⟨k, target.lt⟩).timestamp.toInt :=
            target.increasing i k earlier target.lt
          have go : ¬ (|1 / 2 * (frac1 + 1) - prevFrac| < 1 / 10 ^ 12 ∨
              events[i].timestamp.toInt = (events.get ⟨k, target.lt⟩).timestamp.toInt) := by
            rintro (tiny | same)
            · exact early (by omega) tiny
            · exact absurd same (Int.ne_of_lt time)
          have low' : 1 / 2 * (frac1 + 1) * (recordsOf events).length ≤ behindPrevious events k := by
            have before : (offsetOf events (1 / 2 * (frac1 + 1)) + 1 : ℚ) ≤
              behindPrevious events k := by exact_mod_cast before
            linarith
          have rest := @ih (1 / 2 * (frac1 + 1)) (1 / 2 * (frac1 + 1))
            ⟨⟨recordsOf events, startOf events i⟩, events[i].eventnum⟩ (j + 1) (by omega) mid
              (.inl rfl) low' rfl
          have same : lands ↔ ∃ m > j + 1, behindPrevious events k ≤ rightward (recordsOf events).length m ∧
              rightward (recordsOf events).length m ≤ startOf events (events.length - 1) := by
            constructor
            · rintro ⟨m, later, behind, inside⟩
              refine ⟨m, Nat.lt_of_le_of_ne later ?_, behind, inside⟩
              rintro rfl
              omega
            · rintro ⟨m, later, behind, inside⟩
              exact ⟨m, by omega, behind, inside⟩
          unfold r
          rw [seekLoop_probe rfl bytes found (target.nonneg i lt) less, if_neg go, if_pos time, same]
          exact rest
      | above high inside i later lt found =>
          have time : (events.get ⟨k, target.lt⟩).timestamp.toInt < events[i].timestamp.toInt :=
            target.increasing k i later lt
          have go : ¬ (|1 / 2 * (frac1 + 1) - prevFrac| < 1 / 10 ^ 12 ∨
              events[i].timestamp.toInt = (events.get ⟨k, target.lt⟩).timestamp.toInt) := by
            rintro (tiny | same)
            · exact early inside tiny
            · exact absurd same (Int.ne_of_gt time)
          refine .inl ⟨⟨j + 1, Nat.lt_succ_self j, by omega, by omega⟩, ?_⟩
          unfold r
          rw [seekLoop_probe rfl bytes found (target.nonneg i lt) less, if_neg go,
            if_neg (Int.not_lt.mpr (Int.le_of_lt time))]
          have high : (startOf events k + 1 : ℚ) ≤ offsetOf events (1 / 2 * (frac1 + 1)) := by exact_mod_cast high
          refine seekLoop_between target small (show 40 ≤ n + (j + 1) by omega) ?_ ?_ (.inr rfl) low
            (high.trans floor) inside rfl
          · rw [mid, here, halves]
            ring
          · rw [here]
            linarith
      | off outside _ _ =>
          refine .inr ⟨?_, seekLoop_off target bytes _ outside⟩
          rintro ⟨m, later, -, inside⟩
          have := beyond m later
          omega

end Bisection

section Found

variable {es : List Event} {rounds probes k : Nat} {l : Log}

/-- What a log must be to be sought in: short, in the order of its times, and with sync words before the bodies only. -/
structure Orderly (es : List Event) : Prop where
  noSync : ∀ e ∈ numbered es, ∀ q, ¬ MagicAt e.body q
  small : (written es).length < 2 ^ 40
  nonneg : ∀ e ∈ es, 0 ≤ e.timestamp.toInt
  increasing : es.Pairwise fun e e' => e.timestamp.toInt < e'.timestamp.toInt

/-- The call comes back with 0, and the next event that is read is this one. -/
def Finds (rounds probes : Nat) (l : Log) (e : Event) : Prop :=
  ∃ l' f', zcmEventlogSeekToTimestamp rounds probes l e.timestamp.toInt = some (0, l') ∧
    zcmEventlogReadNextEvent rounds l'.f = some (.event e, f')

theorem numbered_timestamps (es : List Event) : (numbered es).map Event.timestamp = es.map Event.timestamp :=
  List.ext_getElem (by simp [numbered]) fun i _ _ => by simp [numbered]

theorem Orderly.target (orderly : Orderly es) (lt : k < (numbered es).length)
    (enough : (written es).length + 1 < rounds) :
    Target (numbered es) rounds k where
  noSync := orderly.noSync
  enough := by
    have bytes : written es = recordsOf (numbered es) := written_eq es
    rw [← bytes]
    omega
  lt := lt
  nonneg i lti := by
    have member : (numbered es)[i].timestamp ∈ es.map Event.timestamp := by
      rw [← numbered_timestamps]
      exact List.mem_map_of_mem (List.getElem_mem lti)
    obtain ⟨e, inLog, same⟩ := List.mem_map.mp member
    rw [← same]
    exact orderly.nonneg e inLog
  increasing i j less ltj := by
    have sorted : ((numbered es).map Event.timestamp).Pairwise fun t t' => t.toInt < t'.toInt := by
      rw [numbered_timestamps, List.pairwise_map]
      exact orderly.increasing
    rw [List.pairwise_map, List.pairwise_iff_getElem] at sorted
    exact sorted i j (by omega) ltj less

theorem readNext_readable {bytes : List Byte} {offset : Nat} {e : Event} {f' : File}
    (enough : bytes.length + 1 < rounds)
    (read : zcmEventlogReadNextEvent rounds ⟨bytes, offset⟩ = some (.event e, f')) : e.Readable := by
  have spec := @zcmEventlogReadNextEvent_spec bytes rounds offset (by omega)
  rw [read] at spec
  cases spec with
  | record p _ _ noOverflow _ rest split limits follows =>
      have short : e.data.length ≠ 2 ^ 31 - 1 :=
        fun long => noOverflow (overflowAt_of_recordAt ⟨rest, split, limits, follows⟩ long)
      obtain ⟨positive, few, len⟩ := limits
      exact ⟨positive, few, by omega⟩

/-- The call always ends. It finds an event that can be read at all just if one of the offsets at 1/2, 3/4, 7/8, … of
the log is behind the start of the event before it and not behind the start of the last record. -/
theorem seekToTimestamp_finds_iff (orderly : Orderly es) (lt : k < (numbered es).length)
    (enough : (written es).length + 1 < rounds) (bisects : 40 ≤ probes) (opened : l.f.bytes = written es) :
    (∃ r, zcmEventlogSeekToTimestamp rounds probes l (numbered es)[k].timestamp.toInt = some r) ∧
      (Finds rounds probes l (numbered es)[k] ↔ (numbered es)[k].Readable ∧
        ∃ n > 0, behindPrevious (numbered es) k ≤ rightward (written es).length n ∧
          rightward (written es).length n ≤ startOf (numbered es) ((numbered es).length - 1)) := by
  have bytes : written es = recordsOf (numbered es) := written_eq es
  have target := orderly.target lt enough
  have small := orderly.small
  rw [bytes] at enough opened small ⊢
  have spec := @seekLoop_rightwards (numbered es) rounds k probes 0 (-1) l target small 0 bisects (by norm_num)
    (.inr ⟨rfl, rfl⟩) (by simp) opened
  simp only [List.get_eq_getElem] at spec
  have run : zcmEventlogSeekToTimestamp rounds probes l (numbered es)[k].timestamp.toInt =
      seekLoop rounds (recordsOf (numbered es)).length (numbered es)[k].timestamp.toInt probes 0 1 (-1) l := by
    rw [zcmEventlogSeekToTimestamp, opened]
  unfold Finds
  rw [run]
  generalize seekLoop rounds (recordsOf (numbered es)).length (numbered es)[k].timestamp.toInt probes 0 1
    (-1) l = r at spec
  rcases spec with ⟨lands, l', rfl, there⟩ | ⟨misses, l', rfl⟩
  · refine ⟨⟨_, rfl⟩, ?_⟩
    constructor
    · rintro ⟨_, f', same, read⟩
      cases same
      rw [there] at read
      exact ⟨readNext_readable enough read, lands⟩
    · rintro ⟨readable, -⟩
      have read := (isRecord_of_readable lt readable).readNext enough
      exact ⟨l', _, rfl, by rw [there]; exact read⟩
  · refine ⟨⟨_, rfl⟩, iff_of_false ?_ fun found => misses found.2⟩
    rintro ⟨_, _, same, -⟩
    cases same

theorem noSync_of_short {events : List Event} (few : ∀ e ∈ events, e.body.length < 30)
    (none : ∀ e ∈ events, ∀ q < 30, ¬ MagicAt e.body q) : ∀ e ∈ events, ∀ q, ¬ MagicAt e.body q := by
  intro e member q isMagic
  have le := isMagic.le
  have short := few e member
  exact none e member q (by omega) isMagic

def twoLog : List Event := [⟨0, 5, [65], []⟩, ⟨0, 7, [65], []⟩]

theorem twoLog_orderly : Orderly twoLog :=
  ⟨noSync_of_short (by decide) (by decide), by decide, by decide, by decide⟩

theorem seekToTimestamp_finds_second : Finds 60 40 ⟨⟨written twoLog, 0⟩, 0⟩ ⟨1, 7, [65], []⟩ :=
  (@seekToTimestamp_finds_iff twoLog 60 40 1 ⟨⟨written twoLog, 0⟩, 0⟩ twoLog_orderly (by decide) (by decide)
    (by decide) rfl).2.mpr
    ⟨by decide, 1, by decide, by decide, by decide⟩

theorem plainLog_orderly : Orderly plainLog :=
  ⟨noSync_of_short (by decide) (by decide), by decide, by decide, by decide⟩

/-- Half of the log is already behind the start of its only event. -/
theorem single_event_missed : Orderly plainLog ∧ (∀ e ∈ numbered plainLog, e.Readable) ∧
    ¬ Finds 40 40 ⟨⟨written plainLog, 0⟩, 0⟩ ⟨0, 5, [65], [1, 2]⟩ := by
  refine ⟨plainLog_orderly, by decide, ?_⟩
  rintro ⟨l', f', found, -⟩
  have bytes : written plainLog = recordsOf (numbered plainLog) := written_eq plainLog
  have target : Target (numbered plainLog) 40 0 := plainLog_orderly.target (by decide) (by decide)
  have half : offsetOf (numbered plainLog) (1 / 2 * (0 + 1)) = 15 := by
    have length : (recordsOf (numbered plainLog)).length = 31 := by decide
    rw [offsetOf, length]
    norm_num
  obtain ⟨l'', missed⟩ :=
    @seekLoop_off (numbered plainLog) 40 0 39 0 1 (-1) ⟨⟨written plainLog, 0⟩, 0⟩ target bytes 5
    (by rw [half]; decide)
  have same : zcmEventlogSeekToTimestamp 40 40 ⟨⟨written plainLog, 0⟩, 0⟩ 5 = some (-1, l'') := by
    rw [zcmEventlogSeekToTimestamp, bytes]
    rw [bytes] at missed
    exact missed
  have same' := same.symm.trans found
  cases same'

end Found

end Zcm.Eventlog
