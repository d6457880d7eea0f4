import Zcm.Eventlog.Resync

namespace Zcm.Eventlog
open Zcm.Lib

section Written

def numbered (es : List Event) : List Event := es.mapIdx fun i e => { e with eventnum := BitVec.ofNat 64 i }

def written (es : List Event) : List Byte := (es.foldl zcmEventlogWriteEvent Writer.create).bytes

theorem toBe_mod (n : Nat) : toBe 4 (n % 2 ^ 32) = toBe 4 n := by
  refine ofBe_injective (by simp) ?_
  rw [ofBe_toBe, ofBe_toBe]
  exact Nat.mod_mod _ _

theorem fwrite64_eq (v : BitVec 64) : fwrite64 v = be64 v := by
  have lt := v.isLt
  have high : (v >>> 32).toNat % 2 ^ 32 = v.toNat / 2 ^ 32 := by
    rw [BitVec.toNat_ushiftRight, Nat.shiftRight_eq_div_pow]
    omega
  have low : (v &&& 0xffffffff#64).toNat % 2 ^ 32 = v.toNat % 2 ^ 32 := by
    rw [BitVec.toNat_and]
    have mask : v.toNat &&& (0xffffffff#64).toNat = v.toNat % 2 ^ 32 := Nat.and_two_pow_sub_one_eq_mod v.toNat 32
    rw [mask, Nat.mod_mod]
  change fwrite32 ((v >>> 32).setWidth 32) ++ fwrite32 ((v &&& 0xffffffff#64).setWidth 32) = _
  rw [fwrite32, fwrite32, BitVec.toNat_setWidth, BitVec.toNat_setWidth, high, low, toBe_mod, be64]

theorem zcmEventlogWriteEvent_bytes (l : Writer) (le : Event) :
    (zcmEventlogWriteEvent l le).bytes = l.bytes ++ { le with eventnum := l.eventcount }.record := by
  have word : fwrite32 magic = magicBytes := by decide
  have length : ∀ n, fwrite32 (BitVec.ofNat 32 n) = toBe 4 n := by
    intro n
    rw [fwrite32, BitVec.toNat_ofNat, toBe_mod]
  simp only [zcmEventlogWriteEvent, word, fwrite64_eq, length, Event.record, Event.body, List.append_assoc]

def startOf (events : List Event) (i : Nat) : Nat := ((events.take i).map Event.record).flatten.length

theorem written_eq (es : List Event) : written es = ((numbered es).map Event.record).flatten := by
  have general : ∀ (es : List Event) (l : Writer) (k : Nat), l.eventcount = BitVec.ofNat 64 k →
      (es.foldl zcmEventlogWriteEvent l).bytes =
        l.bytes ++
          ((es.mapIdx fun i e => { e with eventnum := BitVec.ofNat 64 (k + i) }).map Event.record).flatten := by
    intro es
    induction es with
    | nil => simp
    | cons e es ih =>
        intro l k count
        have next : (zcmEventlogWriteEvent l e).eventcount = BitVec.ofNat 64 (k + 1) := by
          change l.eventcount + 1 = _
          rw [count]
          exact (BitVec.ofNat_add ..).symm
        rw [List.foldl_cons, ih _ (k + 1) next, zcmEventlogWriteEvent_bytes, List.mapIdx_cons, count]
        simp only [List.map_cons, List.flatten_cons, List.append_assoc, Nat.add_zero, Nat.add_right_comm, Nat.add_assoc]
  have whole := general es Writer.create 0 rfl
  simp only [Nat.zero_add] at whole
  exact whole

end Written

section Reading

variable {bytes : List Byte} {p : Nat} {e : Event} {rest : List Byte}

def Event.Readable (e : Event) : Prop :=
  0 < e.channel.length ∧ e.channel.length < 1000 ∧ e.data.length ≤ 2 ^ 31 - 2

instance (e : Event) : Decidable e.Readable := inferInstanceAs (Decidable (_ ∧ _ ∧ _))

theorem Event.Readable.inLimits (h : e.Readable) : e.InLimits := by
  obtain ⟨positive, short, len⟩ := h
  exact ⟨positive, short, by omega⟩

/-- The bytes at `p` are the record of a readable event, and another record or the end of the file follows. -/
structure IsRecord (bytes : List Byte) (p : Nat) (e : Event) (rest : List Byte) : Prop where
  split : bytes.drop p = e.record ++ rest
  readable : e.Readable
  follows : rest.length < 4 ∨ magicBytes <+: rest

theorem IsRecord.recordAt (h : IsRecord bytes p e rest) : RecordAt bytes p e :=
  ⟨rest, h.split, h.readable.inLimits, h.follows⟩

theorem IsRecord.readRecord_eq (h : IsRecord bytes p e rest) :
    readRecord ⟨bytes, p + 4⟩ = .ok e ((File.mk bytes (p + 4)).skip (bodyEnd e rest)) := by
  have parts := (recordAt_magic h.recordAt).split
  rw [h.split, Event.record, List.append_assoc] at parts
  have len := h.readable.2.2
  exact readRecord_of_body (List.append_cancel_left parts).symm h.readable.inLimits (by omega) h.follows

theorem IsRecord.not_overflowAt (h : IsRecord bytes p e rest) : ¬ OverflowAt bytes p := by
  intro overflow
  obtain ⟨f', overflows⟩ := readRecord_of_overflow ((overflowAt_iff (overflowAt_magic overflow)).mp overflow)
  rw [h.readRecord_eq] at overflows
  cases overflows

theorem IsRecord.unique (h : IsRecord bytes p e rest) {e' : Event} {rest' : List Byte}
    (h' : IsRecord bytes p e' rest') :
    e' = e ∧ rest' = rest := by
  have same := h.readRecord_eq.symm.trans h'.readRecord_eq
  obtain rfl := (EStateM.Result.ok.inj same).1
  exact ⟨rfl, List.append_cancel_left (h'.split.symm.trans h.split)⟩

theorem IsRecord.readNext (h : IsRecord bytes p e rest) {rounds : Nat} (enough : bytes.length + 1 < rounds) :
    zcmEventlogReadNextEvent rounds ⟨bytes, p⟩ = some (.event e, ⟨bytes, p + 4 + bodyEnd e rest⟩) := by
  have stops : Stops bytes p := .inr ⟨e, h.recordAt⟩
  have spec := @zcmEventlogReadNextEvent_spec bytes rounds p (by omega)
  generalize zcmEventlogReadNextEvent rounds ⟨bytes, p⟩ = r at spec
  cases spec with
  | overflow q le first isOverflow f =>
      rcases Nat.eq_or_lt_of_le le with rfl | lt
      · exact absurd isOverflow h.not_overflowAt
      · exact absurd stops (first p (Nat.le_refl p) lt)
  | record q le first noOverflow e' rest' split limits follows =>
      rcases Nat.eq_or_lt_of_le le with rfl | lt
      · have small : e'.data.length ≠ 2 ^ 31 - 1 := fun long =>
          noOverflow (overflowAt_of_recordAt ⟨rest', split, limits, follows⟩ long)
        obtain ⟨positive, short, len⟩ := limits
        obtain ⟨rfl, rfl⟩ := h.unique ⟨split, ⟨positive, short, by omega⟩, follows⟩
        rfl
      · exact absurd stops (first p (Nat.le_refl p) lt)
  | null none pos => exact absurd stops (none p (Nat.le_refl p))

theorem readNext_atEnd {rounds : Nat} (enough : 1 < rounds) :
    zcmEventlogReadNextEvent rounds ⟨bytes, bytes.length⟩ = some (.null, ⟨bytes, bytes.length⟩) := by
  obtain ⟨n, rfl⟩ := Nat.exists_eq_add_of_lt enough
  have nothing : File.rest ⟨bytes, bytes.length⟩ = [] := List.drop_length
  rw [Nat.add_comm 1 n, zcmEventlogReadNextEvent, syncStream, syncLoop, File.fgetc_nil nothing]

theorem readPrev_atStart {rounds : Nat} (enough : 1 < rounds) :
    zcmEventlogReadPrevEvent rounds ⟨bytes, 0⟩ = some (.null, ⟨bytes, 0⟩) := by
  obtain ⟨n, rfl⟩ := Nat.exists_eq_add_of_lt enough
  rw [Nat.add_comm 1 n, zcmEventlogReadPrevEvent, syncStreamBackwards, syncLoopBackwards, if_pos Nat.zero_lt_two]

/-- Backwards, the reader comes to the record at `p` if nothing behind it stops it. Each candidate on the way lets it
go on from there, which hides a sync word that ends right before the candidate. -/
theorem IsRecord.readPrev (h : IsRecord bytes p e rest) (notTwice : ¬ MagicAt bytes (p + 4)) {rounds stop : Nat}
    (room : p + 5 ≤ stop) (inside : stop ≤ bytes.length) (enough : stop + 1 < rounds)
    (between : ∀ q, p < q → q + 5 ≤ stop → ¬ Stops bytes q) :
    zcmEventlogReadPrevEvent rounds ⟨bytes, stop⟩ = some (.event e, ⟨bytes, p⟩) := by
  have isMagic := recordAt_magic h.recordAt
  induction rounds generalizing stop with
  | zero => omega
  | succ rounds ih =>
      rw [zcmEventlogReadPrevEvent]
      rcases @syncStreamBackwards_spec bytes stop rounds inside (by omega) with
        ⟨q, bound, qMagic, last, synced⟩ | ⟨none, pos, synced⟩
      · rw [synced]
        have candidate := zcmEventReadHelper_spec qMagic
        simp only
        generalize zcmEventReadHelper false ⟨bytes, q + 4⟩ = r at candidate
        generalize zcmEventReadHelper true ⟨bytes, q + 4⟩ = r' at candidate
        rcases Nat.lt_trichotomy q p with lower | rfl | higher
        · exact absurd isMagic (last p lower room)
        · cases candidate with
          | overflow isOverflow f f' => exact absurd isOverflow h.not_overflowAt
          | record e' rest' split limits follows noOverflow =>
              have small : e'.data.length ≠ 2 ^ 31 - 1 := fun long =>
                noOverflow (overflowAt_of_recordAt ⟨rest', split, limits, follows⟩ long)
              obtain ⟨positive, short, len⟩ := limits
              obtain ⟨rfl, rfl⟩ := h.unique ⟨split, ⟨positive, short, by omega⟩, follows⟩
              rfl
          | rejected noRecord noOverflow => exact absurd h.recordAt (noRecord e)
        · have apart := isMagic.apart qMagic higher
          have further : q ≠ p + 4 := by
            rintro rfl
            exact notTwice qMagic
          cases candidate with
          | overflow isOverflow f f' => exact absurd (.inl isOverflow) (between q higher bound)
          | record e' rest' split limits follows noOverflow =>
              exact absurd (.inr ⟨e', rest', split, limits, follows⟩) (between q higher bound)
          | rejected noRecord noOverflow =>
              exact ih (by omega) (by omega) (by omega) fun q' lt bound' => between q' lt (by omega)
      · exact absurd isMagic (none p room)

end Reading

section Starts

variable {events : List Event} {i : Nat}

def recordsOf (events : List Event) : List Byte := (events.map Event.record).flatten

theorem recordsOf_cons (e : Event) (events : List Event) : recordsOf (e :: events) = e.record ++ recordsOf events := rfl

theorem magic_recordsOf (e : Event) (events : List Event) : magicBytes <+: recordsOf (e :: events) := by
  rw [recordsOf_cons, Event.record, List.append_assoc]
  exact List.prefix_append _ _

theorem recordsOf_follows (events : List Event) :
    (recordsOf events).length < 4 ∨ magicBytes <+: recordsOf events := by
  cases events with
  | nil => exact .inl (by decide)
  | cons e events => exact .inr (magic_recordsOf e events)

theorem bodyEnd_recordsOf (e : Event) (events : List Event) : bodyEnd e (recordsOf events) = e.body.length := by
  rw [bodyEnd]
  cases events with
  | nil => rfl
  | cons e' events =>
      have four := (magic_recordsOf e' events).length_le
      rw [if_neg (by simpa [magicBytes] using four), Nat.add_zero]

theorem drop_startOf (events : List Event) (i : Nat) :
    (recordsOf events).drop (startOf events i) = recordsOf (events.drop i) := by
  have split : recordsOf events = recordsOf (events.take i) ++ recordsOf (events.drop i) := by
    rw [recordsOf, recordsOf, recordsOf, ← List.flatten_append, ← List.map_append, List.take_append_drop]
  rw [split]
  exact List.drop_left' rfl

theorem startOf_succ (lt : i < events.length) :
    startOf events (i + 1) = startOf events i + 4 + (events[i]).body.length := by
  rw [startOf, List.take_succ_eq_append_getElem lt, List.map_append, List.flatten_append, List.length_append]
  simp only [startOf, List.map_cons, List.map_nil, List.flatten_cons, List.flatten_nil, List.append_nil, Event.record,
    List.length_append, magicBytes, List.length_cons, List.length_nil]
  omega

theorem startOf_length (events : List Event) : startOf events events.length = (recordsOf events).length := by
  rw [startOf, List.take_length, recordsOf]

theorem startOf_mono {j : Nat} (le : i ≤ j) : startOf events i ≤ startOf events j := by
  obtain ⟨k, rfl⟩ := Nat.exists_eq_add_of_le le
  rw [startOf, startOf, List.take_add, List.map_append, List.flatten_append, List.length_append]
  exact Nat.le_add_right _ _

theorem isRecord_of_readable (lt : i < events.length) (readable : events[i].Readable) :
    IsRecord (recordsOf events) (startOf events i) events[i] (recordsOf (events.drop (i + 1))) where
  split := by rw [drop_startOf, List.drop_eq_getElem_cons lt, recordsOf_cons]
  readable := readable
  follows := recordsOf_follows _

theorem isRecord_startOf (readable : ∀ e ∈ events, e.Readable) (lt : i < events.length) :
    IsRecord (recordsOf events) (startOf events i) events[i] (recordsOf (events.drop (i + 1))) :=
  isRecord_of_readable lt (readable _ (List.getElem_mem lt))

theorem readNext_startOf (readable : ∀ e ∈ events, e.Readable) (lt : i < events.length) {rounds : Nat}
    (enough : (recordsOf events).length + 1 < rounds) :
    zcmEventlogReadNextEvent rounds ⟨recordsOf events, startOf events i⟩ =
      some (.event events[i], ⟨recordsOf events, startOf events (i + 1)⟩) := by
  rw [(isRecord_startOf readable lt).readNext enough, bodyEnd_recordsOf, startOf_succ lt]

end Starts

section Walks

inductive Move
  | next | prev
deriving DecidableEq

def Move.read (rounds : Nat) : Move → File → Option (Read × File)
  | .next => zcmEventlogReadNextEvent rounds
  | .prev => zcmEventlogReadPrevEvent rounds

def walk (rounds : Nat) (f : File) : List Move → Option (List Read)
  | [] => some []
  | m :: ms =>
      match m.read rounds f with
      | none => none
      | some (r, f) => (walk rounds f ms).map (r :: ·)

def Move.along (events : List Event) (k : Nat) : Move → Read × Nat
  | .next => match events[k]? with
      | some e => (.event e, k + 1)
      | none => (.null, k)
  | .prev => match k with
      | k + 1 => match events[k]? with
          | some e => (.event e, k)
          | none => (.null, k)
      | 0 => (.null, 0)

def cursorWalk (events : List Event) (k : Nat) : List Move → List Read
  | [] => []
  | m :: ms => (m.along events k).1 :: cursorWalk events (m.along events k).2 ms

theorem walk_eq_cursorWalk {rounds : Nat} {bytes : List Byte} {events : List Event} {moves : List Move}
    (follows : ∀ m ∈ moves, ∀ k ≤ events.length, m.read rounds ⟨bytes, startOf events k⟩ =
      some ((m.along events k).1, ⟨bytes, startOf events (m.along events k).2⟩) ∧
        (m.along events k).2 ≤ events.length)
    {k : Nat} (le : k ≤ events.length) :
    walk rounds ⟨bytes, startOf events k⟩ moves = some (cursorWalk events k moves) := by
  induction moves generalizing k with
  | nil => rfl
  | cons m ms ih =>
      obtain ⟨read, le'⟩ := follows m (by simp) k le
      rw [walk, read]
      simp only [ih (fun m' member => follows m' (List.mem_cons_of_mem _ member)) le', Option.map_some, cursorWalk]

theorem next_follows {events : List Event} (readable : ∀ e ∈ events, e.Readable) {rounds k : Nat}
    (enough : (recordsOf events).length + 1 < rounds) (le : k ≤ events.length) :
    Move.next.read rounds ⟨recordsOf events, startOf events k⟩ =
      some ((Move.next.along events k).1, ⟨recordsOf events, startOf events (Move.next.along events k).2⟩) ∧
      (Move.next.along events k).2 ≤ events.length := by
  rcases Nat.lt_or_eq_of_le le with lt | rfl
  · simp only [Move.read, Move.along, List.getElem?_eq_getElem lt, readNext_startOf readable lt enough]
    exact ⟨trivial, lt⟩
  · simp only [Move.read, Move.along, List.getElem?_eq_none (Nat.le_refl _), startOf_length,
      readNext_atEnd (by omega : 1 < rounds)]
    exact ⟨trivial, le⟩

theorem cursorWalk_next (events : List Event) (k : Nat) (le : k ≤ events.length) :
    cursorWalk events k (List.replicate (events.length - k + 1) Move.next) =
      (events.drop k).map Read.event ++ [Read.null] := by
  induction n : events.length - k generalizing k with
  | zero =>
      obtain rfl : k = events.length := by omega
      simp [cursorWalk, Move.along]
  | succ n ih =>
      have lt : k < events.length := by omega
      rw [List.replicate_succ, cursorWalk]
      simp only [Move.along, List.getElem?_eq_getElem lt]
      rw [ih (k + 1) lt (by omega), List.drop_eq_getElem_cons lt]
      rfl

theorem numbered_length (es : List Event) : (numbered es).length = es.length := by simp [numbered]

theorem numbered_readable {es : List Event} (readable : ∀ e ∈ es, e.Readable) :
    ∀ e ∈ numbered es, e.Readable := by
  intro e member
  obtain ⟨i, lt, rfl⟩ := List.mem_mapIdx.mp member
  exact readable es[i] (List.getElem_mem lt)

/-- What was written comes back, with the numbers of the calls, and then nothing. -/
theorem read_written (es : List Event) (readable : ∀ e ∈ es, e.Readable) (rounds : Nat)
    (enough : (written es).length + 1 < rounds) :
    walk rounds ⟨written es, 0⟩ (List.replicate (es.length + 1) Move.next) =
      some ((numbered es).map Read.event ++ [Read.null]) := by
  have bytes : written es = recordsOf (numbered es) := written_eq es
  have walked := @walk_eq_cursorWalk rounds (recordsOf (numbered es)) (numbered es)
    (List.replicate (es.length + 1) Move.next)
    (fun m member k le => by
      obtain rfl := List.eq_of_mem_replicate member
      exact next_follows (numbered_readable readable) (bytes ▸ enough) le) 0 (Nat.zero_le _)
  have read := cursorWalk_next (numbered es) 0 (Nat.zero_le _)
  rw [Nat.sub_zero, numbered_length, List.drop_zero] at read
  rw [read] at walked
  rw [bytes]
  exact walked

theorem read_written_two :
    walk 70 ⟨written [⟨0, 5, [65, 66], [1, 2, 3]⟩, ⟨0, -1, [67], magicBytes⟩], 0⟩ [.next, .next, .next] =
      some [.event ⟨0, 5, [65, 66], [1, 2, 3]⟩, .event ⟨1, -1, [67], magicBytes⟩, .null] :=
  read_written [⟨0, 5, [65, 66], [1, 2, 3]⟩, ⟨0, -1, [67], magicBytes⟩] (by decide) 70 (by decide)

structure Unambiguous (es : List Event) : Prop where
  limits : ∀ e ∈ es, e.InLimits
  few : es.length < 2 ^ 32
  only : ∀ p, (∀ i < es.length, p ≠ startOf (numbered es) i) → ∀ e, ¬ RecordAt (written es) p e

variable {es : List Event}

theorem Unambiguous.readable (h : Unambiguous es) (noOverflow : ∀ p, ¬ OverflowAt (written es) p) :
    ∀ e ∈ numbered es, e.Readable := by
  intro e member
  obtain ⟨i, lt, rfl⟩ := List.mem_mapIdx.mp member
  have limits := h.limits es[i] (List.getElem_mem lt)
  have lt' : i < (numbered es).length := by rwa [numbered_length]
  have entry : (numbered es)[i] = { es[i] with eventnum := BitVec.ofNat 64 i } := List.getElem_mapIdx
  have record : RecordAt (written es) (startOf (numbered es) i) (numbered es)[i] := by
    refine ⟨recordsOf ((numbered es).drop (i + 1)), ?_, entry ▸ limits, recordsOf_follows _⟩
    rw [written_eq]
    change (recordsOf (numbered es)).drop _ = _
    rw [drop_startOf, List.drop_eq_getElem_cons lt', recordsOf_cons]
  have small : es[i].data.length ≠ 2 ^ 31 - 1 := by
    intro long
    refine noOverflow _ (overflowAt_of_recordAt record ?_)
    rw [entry]
    exact long
  obtain ⟨positive, short, len⟩ := limits
  exact ⟨positive, short, by simp only; omega⟩

theorem not_magic_behind_start (few : es.length < 2 ^ 32) {i : Nat} (lt : i < es.length) :
    ¬ MagicAt (recordsOf (numbered es)) (startOf (numbered es) i + 4) := by
  have lt' : i < (numbered es).length := by rwa [numbered_length]
  have entry : (numbered es)[i].eventnum = BitVec.ofNat 64 i := by simp [numbered]
  have high : (BitVec.ofNat 64 i).toNat / 2 ^ 32 = 0 := by
    rw [BitVec.toNat_ofNat]
    omega
  have behind : ∀ xs, (magicBytes ++ xs).drop 4 = xs := fun xs => List.drop_left' rfl
  intro isMagic
  rw [MagicAt, ← List.drop_drop, drop_startOf, List.drop_eq_getElem_cons lt', recordsOf_cons, Event.record,
    List.append_assoc, behind, Event.body, be64, entry, high] at isMagic
  obtain ⟨rest, same⟩ := isMagic
  have first := congrArg List.head? same
  simp [magicBytes, toBe] at first

theorem prev_follows (h : Unambiguous es) (noOverflow : ∀ p, ¬ OverflowAt (written es) p) {rounds k : Nat}
    (enough : (recordsOf (numbered es)).length + 1 < rounds) (le : k ≤ (numbered es).length) :
    Move.prev.read rounds ⟨recordsOf (numbered es), startOf (numbered es) k⟩ =
      some ((Move.prev.along (numbered es) k).1,
        ⟨recordsOf (numbered es), startOf (numbered es) (Move.prev.along (numbered es) k).2⟩) ∧
      (Move.prev.along (numbered es) k).2 ≤ (numbered es).length := by
  cases k with
  | zero =>
      have zero : startOf (numbered es) 0 = 0 := rfl
      simp only [Move.read, Move.along, zero, readPrev_atStart (by omega : 1 < rounds)]
      exact ⟨trivial, le⟩
  | succ k =>
      have bytes : written es = recordsOf (numbered es) := written_eq es
      have next := startOf_succ le
      have lt : k < es.length := by rwa [numbered_length] at le
      have positive := ((h.readable noOverflow) _ (List.getElem_mem le)).1
      have length := Event.body_length (numbered es)[k]
      have within : startOf (numbered es) (k + 1) ≤ (recordsOf (numbered es)).length := by
        rw [← startOf_length]
        exact startOf_mono le
      have between : ∀ q, startOf (numbered es) k < q → q + 5 ≤ startOf (numbered es) (k + 1) →
          ¬ Stops (recordsOf (numbered es)) q := by
        rintro q behind bound (overflow | ⟨e, record⟩)
        · exact noOverflow q (bytes ▸ overflow)
        · refine h.only q (fun i _ same => ?_) e (bytes ▸ record)
          rcases Nat.lt_or_ge k i with later | earlier
          · have := @startOf_mono (numbered es) (k + 1) i later
            omega
          · have := @startOf_mono (numbered es) i k earlier
            omega
      have read := @IsRecord.readPrev _ _ _ _ (isRecord_startOf (h.readable noOverflow) le)
        (not_magic_behind_start h.few lt) rounds _ (by omega) within (by omega) between
      simp only [Move.read, Move.along, List.getElem?_eq_getElem le, read]
      exact ⟨trivial, Nat.le_of_lt le⟩

theorem cursorWalk_append (events : List Event) (ms ms' : List Move) (k : Nat) :
    cursorWalk events k (ms ++ ms') = cursorWalk events k ms ++
      cursorWalk events (ms.foldl (fun k m => (m.along events k).2) k) ms' := by
  induction ms generalizing k with
  | nil => rfl
  | cons m ms ih => simp only [List.cons_append, cursorWalk, List.foldl_cons, ih]

theorem cursorWalk_there_and_back (events : List Event) {k : Nat} (le : k ≤ events.length) :
    cursorWalk events 0 (List.replicate k Move.next ++ List.replicate k Move.prev ++ [Move.prev, Move.next]) =
      (events.take k).map Read.event ++ (events.take k).reverse.map Read.event ++
        [Read.null, (Move.next.along events 0).1] := by
  have forth : ∀ k ≤ events.length,
      cursorWalk events 0 (List.replicate k Move.next) = (events.take k).map .event ∧
      (List.replicate k Move.next).foldl (fun k m => (m.along events k).2) 0 = k := by
    intro k
    induction k with
    | zero => exact fun _ => ⟨rfl, rfl⟩
    | succ k ih =>
        intro lt
        obtain ⟨walked, stands⟩ := ih (Nat.le_of_lt lt)
        rw [List.replicate_succ', cursorWalk_append, List.foldl_append, stands, walked,
          List.take_succ_eq_append_getElem lt, List.map_append]
        simp [cursorWalk, Move.along, List.getElem?_eq_getElem lt]
  have back : ∀ k ≤ events.length,
      cursorWalk events k (List.replicate k .prev) = (events.take k).reverse.map .event ∧
      (List.replicate k Move.prev).foldl (fun k m => (m.along events k).2) k = 0 := by
    intro k
    induction k with
    | zero => exact fun _ => ⟨rfl, rfl⟩
    | succ k ih =>
        intro lt
        obtain ⟨walked, stands⟩ := ih (Nat.le_of_lt lt)
        have step : Move.prev.along events (k + 1) = (.event events[k], k) := by
          simp [Move.along, List.getElem?_eq_getElem lt]
        rw [List.replicate_succ, cursorWalk, List.foldl_cons, List.take_succ_eq_append_getElem lt, List.reverse_append,
          step, walked]
        exact ⟨rfl, stands⟩
  obtain ⟨walked, stands⟩ := forth k le
  obtain ⟨walked', stands'⟩ := back k le
  rw [cursorWalk_append, cursorWalk_append, List.foldl_append, stands, stands', walked, walked']
  rfl

/-- On a log without an overflowing header, all walks are those of the cursor. In particular, `k` steps there and back
read the first `k` events in both directions. -/
theorem walk_follows_cursor (h : Unambiguous es) (noOverflow : ∀ p, ¬ OverflowAt (written es) p) {rounds : Nat}
    (enough : (written es).length + 1 < rounds) :
    (∀ moves, walk rounds ⟨written es, 0⟩ moves = some (cursorWalk (numbered es) 0 moves)) ∧
    ∀ k ≤ es.length,
      walk rounds ⟨written es, 0⟩ (List.replicate k Move.next ++ List.replicate k Move.prev ++
        [Move.prev, Move.next]) =
        some (((numbered es).take k).map Read.event ++ ((numbered es).take k).reverse.map Read.event ++
          [.null, ((numbered es)[0]?).elim .null .event]) := by
  have bytes : written es = recordsOf (numbered es) := written_eq es
  have follows : ∀ moves, walk rounds ⟨written es, 0⟩ moves = some (cursorWalk (numbered es) 0 moves) := by
    intro moves
    rw [bytes] at enough ⊢
    refine @walk_eq_cursorWalk rounds _ (numbered es) moves (fun m _ k le => ?_) 0 (Nat.zero_le _)
    cases m with
    | next => exact next_follows (h.readable noOverflow) enough le
    | prev => exact prev_follows h noOverflow enough le
  refine ⟨follows, fun k le => ?_⟩
  rw [follows, cursorWalk_there_and_back _ (by rwa [numbered_length])]
  have first : (Move.next.along (numbered es) 0).1 = ((numbered es)[0]?).elim .null .event := by
    cases there : (numbered es)[0]? with
    | none => simp [Move.along, there]
    | some e => simp [Move.along, there]
  rw [first]

def plainLog : List Event := [⟨0, 5, [65], [1, 2]⟩]

theorem plainLog_magicAt {p : Nat} (h : MagicAt (written plainLog) p) : p = 0 := by
  have all : ∀ p < 28, MagicAt (written plainLog) p → p = 0 := by decide
  have le := h.le
  have length : (written plainLog).length = 31 := by decide
  exact all p (by omega) h

theorem walk_follows_cursor_plain :
    walk 40 ⟨written plainLog, 0⟩ [.next, .prev, .prev, .next] =
      some [.event ⟨0, 5, [65], [1, 2]⟩, .event ⟨0, 5, [65], [1, 2]⟩, .null,
        .event ⟨0, 5, [65], [1, 2]⟩] := by
  have readable : ∀ e ∈ numbered plainLog, e.Readable := by decide
  have bytes : written plainLog = recordsOf (numbered plainLog) := written_eq plainLog
  have record := @isRecord_startOf (numbered plainLog) 0 readable (by decide)
  have unambiguous : Unambiguous plainLog :=
    { limits := by decide
      few := by decide
      only := fun p elsewhere e record => elsewhere 0 (by decide) (plainLog_magicAt (recordAt_magic record)) }
  have noOverflow : ∀ p, ¬ OverflowAt (written plainLog) p := by
    intro p overflow
    obtain rfl := plainLog_magicAt (overflowAt_magic overflow)
    exact record.not_overflowAt (bytes ▸ overflow)
  exact (walk_follows_cursor unambiguous noOverflow (by decide)).2 1 (by decide)

def trickyLog : List Event := [⟨0, 5, [65], hugeHeader⟩]

theorem trickyLog_unambiguous : Unambiguous trickyLog where
  limits := by decide
  few := by decide
  only := by
    intro p elsewhere e record
    have isMagic := recordAt_magic record
    have all : ∀ p < 56, MagicAt (written trickyLog) p → p = 0 ∨ p = 29 := by decide
    have length : (written trickyLog).length = 59 := by decide
    have le := isMagic.le
    rcases all p (by omega) isMagic with rfl | rfl
    · exact elsewhere 0 (by decide) rfl
    · obtain ⟨rest, split, limits, follows⟩ := record
      have total := congrArg List.length split
      simp only [List.length_drop, length, Event.record, List.length_append, Event.body_length] at total
      have parts := isMagic.split
      rw [split, Event.record, List.append_assoc] at parts
      have accepted := readRecord_of_body (List.append_cancel_left parts).symm limits (by omega) follows
      have overflows : ∃ f, readRecord ⟨written trickyLog, 33⟩ = .error .overflow f :=
        readRecord_of_overflow ⟨0, 0, [65], [0], by decide, by decide, by decide⟩
      obtain ⟨f, overflows⟩ := overflows
      rw [overflows] at accepted
      cases accepted

/-- Read forwards it is the only event; on the way back the reader runs into the overflow. -/
theorem trickyLog_overflows : Unambiguous trickyLog ∧
    walk 70 ⟨written trickyLog, 0⟩ [.next, .prev] ≠ some (cursorWalk (numbered trickyLog) 0 [.next, .prev]) :=
  ⟨trickyLog_unambiguous, by decide⟩

end Walks

end Zcm.Eventlog
