import Mathlib.Order.Bounds.Defs
import Zcm.Eventlog.Record
import Zcm.Eventlog.Sync

namespace Zcm.Eventlog
open Zcm.Lib

variable {bytes : List Byte} {p : Nat}

theorem MagicAt.split (h : MagicAt bytes p) : bytes.drop p = magicBytes ++ File.rest ⟨bytes, p + 4⟩ := by
  obtain ⟨rest, same⟩ := h
  have behind : bytes.drop (p + 4) = rest := by
    rw [← List.drop_drop, ← same]
    rfl
  rw [File.rest, behind, same]

theorem recordAt_magic {e : Event} (h : RecordAt bytes p e) : MagicAt bytes p := by
  obtain ⟨rest, split, -⟩ := h
  rw [MagicAt, split, Event.record, List.append_assoc]
  exact List.prefix_append _ _

theorem overflowAt_magic (h : OverflowAt bytes p) : MagicAt bytes p := by
  obtain ⟨eventnum, timestamp, channel, rest, split, -⟩ := h
  rw [MagicAt, split]
  exact List.prefix_append _ _

theorem overflowAt_iff (h : MagicAt bytes p) : OverflowAt bytes p ↔ OverflowBody (File.rest ⟨bytes, p + 4⟩) := by
  simp only [OverflowAt, OverflowBody, h.split, List.append_cancel_left_eq]

theorem recordAt_iff (h : MagicAt bytes p) {e : Event} : RecordAt bytes p e ↔
    ∃ rest, File.rest ⟨bytes, p + 4⟩ = e.body ++ rest ∧ e.InLimits ∧
      (rest.length < 4 ∨ magicBytes <+: rest) := by
  simp only [RecordAt, h.split, Event.record, List.append_assoc, List.append_cancel_left_eq]

theorem overflowAt_of_recordAt {e : Event} (h : RecordAt bytes p e) (long : e.data.length = 2 ^ 31 - 1) :
    OverflowAt bytes p := by
  obtain ⟨rest, split, ⟨positive, short, -⟩, -⟩ := h
  refine ⟨e.eventnum, e.timestamp, e.channel, e.data ++ rest, ?_, positive, short⟩
  rw [split, Event.record, Event.body, long]
  simp only [List.append_assoc]

inductive Candidate (bytes : List Byte) (p : Nat) : Read × File → Read × File → Prop
  | overflow (isOverflow : OverflowAt bytes p) (f f' : File) : Candidate bytes p (.overflow, f) (.overflow, f')
  | record (e : Event) (rest : List Byte) (split : bytes.drop p = e.record ++ rest) (limits : e.InLimits)
      (follows : rest.length < 4 ∨ magicBytes <+: rest) (noOverflow : ¬ OverflowAt bytes p) :
      Candidate bytes p (.event e, ⟨bytes, p + 4 + bodyEnd e rest⟩) (.event e, ⟨bytes, p⟩)
  | rejected (noRecord : ∀ e, ¬ RecordAt bytes p e) (noOverflow : ¬ OverflowAt bytes p) :
      Candidate bytes p (.null, ⟨bytes, p + 4⟩) (.null, ⟨bytes, p⟩)

theorem zcmEventReadHelper_spec (h : MagicAt bytes p) : Candidate bytes p
    (zcmEventReadHelper false ⟨bytes, p + 4⟩) (zcmEventReadHelper true ⟨bytes, p + 4⟩) := by
  obtain ⟨sameBytes, le⟩ := readRecord_forward ⟨bytes, p + 4⟩
  unfold zcmEventReadHelper
  cases read : readRecord ⟨bytes, p + 4⟩ with
  | ok e f' =>
      obtain ⟨rest, parts, limits, small, follows, rfl⟩ := readRecord_ok read
      have noOverflow : ¬ OverflowAt bytes p := by
        intro overflow
        obtain ⟨f', overflows⟩ := readRecord_of_overflow ((overflowAt_iff h).mp overflow)
        rw [read] at overflows
        cases overflows
      have back : ((File.mk bytes (p + 4)).skip (bodyEnd e rest)).fseekCur (-(bodyEnd e rest + 4)) =
          ⟨bytes, p⟩ := by
        rw [File.fseekCur, if_pos (by simp only [File.skip_pos]; omega)]
        refine congrArg _ ?_
        simp only [File.skip_pos]
        omega
      have numRead : ((p + 4 + bodyEnd e rest : Nat) : Int) - (p + 4 : Nat) = bodyEnd e rest := by omega
      simp only [File.skip_pos, numRead, if_true, Bool.false_eq_true, if_false, back]
      exact .record e rest (by rw [h.split, parts, Event.record, List.append_assoc]) limits follows noOverflow
  | error stop f' =>
      rw [Reader.after_error read] at sameBytes le
      cases stop with
      | overflow => exact .overflow ((overflowAt_iff h).mpr (readRecord_overflow read)) f' f'
      | rejected =>
          obtain ⟨bytes', pos'⟩ := f'
          obtain rfl : bytes' = bytes := sameBytes
          simp only at le
          have stays : (File.mk bytes' pos').fseekCur (-((pos' : Int) - (p + 4 : Nat))) = ⟨bytes', p + 4⟩ := by
            rw [File.fseekCur, if_pos (by simp only; omega)]
            refine congrArg _ ?_
            simp only
            omega
          have back : (File.mk bytes' pos').fseekCur (-((pos' : Int) - (p + 4 : Nat) + 4)) = ⟨bytes', p⟩ := by
            rw [File.fseekCur, if_pos (by simp only; omega)]
            refine congrArg _ ?_
            simp only
            omega
          simp only [if_true, Bool.false_eq_true, if_false, stays, back]
          refine .rejected (fun e isRecord => ?_) fun overflow => ?_
          · by_cases long : e.data.length = 2 ^ 31 - 1
            · obtain ⟨f', overflows⟩ :=
                readRecord_of_overflow ((overflowAt_iff h).mp (overflowAt_of_recordAt isRecord long))
              rw [read] at overflows
              cases overflows
            · obtain ⟨rest, parts, limits, follows⟩ := (recordAt_iff h).mp isRecord
              rw [readRecord_of_body parts limits long follows] at read
              cases read
          · obtain ⟨f', overflows⟩ := readRecord_of_overflow ((overflowAt_iff h).mp overflow)
            rw [read] at overflows
            cases overflows

def Stops (bytes : List Byte) (p : Nat) : Prop := OverflowAt bytes p ∨ ∃ e, RecordAt bytes p e

theorem Stops.magic (h : Stops bytes p) : MagicAt bytes p := by
  rcases h with overflow | ⟨e, record⟩
  · exact overflowAt_magic overflow
  · exact recordAt_magic record

inductive NextResult (bytes : List Byte) (offset : Nat) : Option (Read × File) → Prop
  | overflow (p : Nat) (le : offset ≤ p) (first : ∀ q, offset ≤ q → q < p → ¬ Stops bytes q)
      (isOverflow : OverflowAt bytes p) (f : File) : NextResult bytes offset (some (.overflow, f))
  | record (p : Nat) (le : offset ≤ p) (first : ∀ q, offset ≤ q → q < p → ¬ Stops bytes q)
      (noOverflow : ¬ OverflowAt bytes p) (e : Event) (rest : List Byte) (split : bytes.drop p = e.record ++ rest)
      (limits : e.InLimits) (follows : rest.length < 4 ∨ magicBytes <+: rest) :
      NextResult bytes offset (some (.event e, ⟨bytes, p + 4 + bodyEnd e rest⟩))
  | null (none : ∀ q, offset ≤ q → ¬ Stops bytes q) (pos : Nat) :
      NextResult bytes offset (some (.null, ⟨bytes, pos⟩))

theorem NextResult.mono {offset offset' : Nat} {r : Option (Read × File)} (h : NextResult bytes offset' r)
    (le' : offset ≤ offset') (between : ∀ q, offset ≤ q → q < offset' → ¬ Stops bytes q) :
    NextResult bytes offset r := by
  have sooner : ∀ {p}, (∀ q, offset' ≤ q → q < p → ¬ Stops bytes q) → ∀ q, offset ≤ q → q < p →
      ¬ Stops bytes q := by
    intro p first q le lt
    rcases Nat.lt_or_ge q offset' with before | behind
    · exact between q le before
    · exact first q behind lt
  cases h with
  | overflow p le first isOverflow f => exact .overflow p (Nat.le_trans le' le) (sooner first) isOverflow f
  | record p le first noOverflow e rest split limits follows =>
      exact .record p (Nat.le_trans le' le) (sooner first) noOverflow e rest split limits follows
  | null none pos =>
      refine .null (fun q le => ?_) pos
      rcases Nat.lt_or_ge q offset' with before | behind
      · exact between q le before
      · exact none q behind

theorem zcmEventlogReadNextEvent_spec {rounds offset : Nat} (enough : bytes.length - offset + 1 < rounds) :
    NextResult bytes offset (zcmEventlogReadNextEvent rounds ⟨bytes, offset⟩) := by
  induction rounds generalizing offset with
  | zero => omega
  | succ rounds ih =>
      rw [zcmEventlogReadNextEvent]
      rcases @syncStream_spec bytes offset rounds (by omega) with ⟨p, le, isMagic, first, synced⟩ |
        ⟨none, pos, synced⟩
      · rw [synced]
        have before : ∀ q, offset ≤ q → q < p → ¬ Stops bytes q :=
          fun q le lt stops => first q le lt stops.magic
        have candidate := zcmEventReadHelper_spec isMagic
        simp only
        generalize zcmEventReadHelper false ⟨bytes, p + 4⟩ = r at candidate
        generalize zcmEventReadHelper true ⟨bytes, p + 4⟩ = r' at candidate
        cases candidate with
        | overflow isOverflow f f' => exact .overflow p le before isOverflow f
        | record e rest split limits follows noOverflow =>
            exact .record p le before noOverflow e rest split limits follows
        | rejected noRecord noOverflow =>
            have bound := isMagic.le
            refine (ih (by omega)).mono (by omega) fun q le lt stops => ?_
            rcases Nat.lt_trichotomy q p with lower | rfl | higher
            · exact before q le lower stops
            · rcases stops with overflow | ⟨e, record⟩
              · exact noOverflow overflow
              · exact noRecord e record
            · have := isMagic.apart stops.magic higher
              omega
      · rw [synced]
        exact .null (fun q le stops => none q le stops.magic) pos

/-- The call returns, with the event at the least position from `offset` on that begins a well-formed record. -/
def ReturnsFirst (bytes : List Byte) (offset : Nat) : Prop :=
  ∀ rounds, bytes.length + 1 < rounds →
    ∃ r f, zcmEventlogReadNextEvent rounds ⟨bytes, offset⟩ = some (r, f) ∧
    ((∃ p e, IsLeast {p | offset ≤ p ∧ ∃ e, RecordAt bytes p e} p ∧ RecordAt bytes p e ∧ r = .event e) ∨
      (∀ p, offset ≤ p → ∀ e, ¬ RecordAt bytes p e) ∧ r = .null)

/-- The first well-formed record is returned exactly if no header before it announces 2^31 - 1 bytes of data. -/
theorem readNextEvent_returns_first_iff (bytes : List Byte) (offset : Nat) :
    ReturnsFirst bytes offset ↔
      ∀ q, offset ≤ q → OverflowAt bytes q → ∃ p, offset ≤ p ∧ p < q ∧ ∃ e, RecordAt bytes p e := by
  constructor
  · intro returns q le overflow
    obtain ⟨r, f, result, outcome⟩ := returns (bytes.length + 2) (by omega)
    have spec := @zcmEventlogReadNextEvent_spec bytes (bytes.length + 2) offset (by omega)
    rw [result] at spec
    cases spec with
    | overflow p le' first isOverflow f =>
        rcases outcome with ⟨_, _, _, _, impossible⟩ | ⟨_, impossible⟩ <;> cases impossible
    | record p le' first noOverflow e rest split limits follows =>
        have isRecord : RecordAt bytes p e := ⟨rest, split, limits, follows⟩
        rcases Nat.lt_trichotomy p q with before | rfl | behind
        · exact ⟨p, le', before, e, isRecord⟩
        · exact absurd overflow noOverflow
        · exact absurd (.inl overflow) (first q le behind)
    | null none pos => exact absurd (.inl overflow) (none q le)
  · intro early rounds enough
    have spec := @zcmEventlogReadNextEvent_spec bytes rounds offset (by omega)
    generalize zcmEventlogReadNextEvent rounds ⟨bytes, offset⟩ = result at spec
    cases spec with
    | overflow p le first isOverflow f =>
        obtain ⟨q, le', lt, record⟩ := early p le isOverflow
        exact absurd (.inr record) (first q le' lt)
    | record p le first noOverflow e rest split limits follows =>
        have isRecord : RecordAt bytes p e := ⟨rest, split, limits, follows⟩
        refine ⟨_, _, rfl, .inl ⟨p, e, ⟨⟨le, e, isRecord⟩, ?_⟩, isRecord, rfl⟩⟩
        rintro q ⟨le', record⟩
        by_contra sooner
        exact first q le' (Nat.lt_of_not_le sooner) (.inr record)
    | null none pos =>
        exact ⟨_, _, rfl, .inr ⟨fun q le e record => none q le (.inr ⟨e, record⟩), rfl⟩⟩

def hugeHeader : List Byte :=
  magicBytes ++ (be64 0 ++ (be64 0 ++ (toBe 4 1 ++ (toBe 4 (2 ^ 31 - 1) ++ [65, 0]))))

theorem hugeHeader_not_returned : ¬ ReturnsFirst hugeHeader 0 := by
  intro returns
  obtain ⟨r, f, result, outcome⟩ := returns 32 (by decide)
  have overflows : (zcmEventlogReadNextEvent 32 ⟨hugeHeader, 0⟩).map Prod.fst = some .overflow := by decide
  rw [result] at overflows
  cases overflows
  rcases outcome with ⟨_, _, _, _, impossible⟩ | ⟨_, impossible⟩ <;> cases impossible

end Zcm.Eventlog
