import Zcm.Eventlog.Log

namespace Zcm.Eventlog
open Zcm.Lib

variable {f f' : File} {stop : Stop}

section Fields

variable {xs ys : List Byte}

theorem fread32_of_rest {n : Nat} (h : f.rest = toBe 4 n ++ ys) : fread32 f = .ok (BitVec.ofNat 32 n) (f.skip 4) := by
  have read := File.fread_append h
  rw [toBe_length] at read
  have value : BitVec.ofNat 32 (ofBe (toBe 4 n)) = BitVec.ofNat 32 n := by
    rw [ofBe_toBe]
    apply BitVec.eq_of_toNat_eq
    rw [BitVec.toNat_ofNat, BitVec.toNat_ofNat]
    exact Nat.mod_mod _ _
  simp only [fread32, read, toBe_length, if_true, value]

theorem fread32_short (h : f.rest.length < 4) : fread32 f = .error .rejected (f.skip f.rest.length) := by
  simp only [fread32, File.fread_short h]
  rw [if_neg (by omega)]

theorem fread32_ok {v : BitVec 32} (h : fread32 f = .ok v f') :
    f' = f.skip 4 ∧ f.rest = toBe 4 v.toNat ++ f'.rest := by
  rcases Nat.lt_or_ge f.rest.length 4 with short | long
  · rw [fread32_short short] at h
    cases h
  · have first : (f.rest.take 4).length = 4 := by
      rw [List.length_take]
      omega
    have split : f.rest = toBe 4 (ofBe (f.rest.take 4)) ++ f.rest.drop 4 := by
      rw [toBe_ofBe first, List.take_append_drop]
    rw [fread32_of_rest split] at h
    cases h
    have low := ofBe_lt (f.rest.take 4)
    rw [first] at low
    refine ⟨rfl, ?_⟩
    rw [BitVec.toNat_ofNat, Nat.mod_eq_of_lt (by simpa using low)]
    have after := File.skip_rest split
    rw [toBe_length] at after
    rw [after]
    exact split

theorem fread32_error (h : fread32 f = .error stop f') :
    stop = .rejected ∧ f.rest.length < 4 ∧ f' = f.skip f.rest.length := by
  rcases Nat.lt_or_ge f.rest.length 4 with short | long
  · rw [fread32_short short] at h
    cases h
    exact ⟨rfl, short, rfl⟩
  · have first : (f.rest.take 4).length = 4 := by
      rw [List.length_take]
      omega
    have split : f.rest = toBe 4 (ofBe (f.rest.take 4)) ++ f.rest.drop 4 := by
      rw [toBe_ofBe first, List.take_append_drop]
    rw [fread32_of_rest split] at h
    cases h

theorem halves_toNat (v1 v2 : BitVec 32) :
    ((v1.signExtend 64 <<< 32) ||| (v2.signExtend 64 &&& 0xffffffff)).toNat = v1.toNat * 2 ^ 32 + v2.toNat := by
  have same : (v1.signExtend 64 <<< 32) ||| (v2.signExtend 64 &&& 0xffffffff#64) = v1 ++ v2 := by
    apply BitVec.eq_of_getLsbD_eq
    intro i hi
    have mask : (0xffffffff#64).getLsbD i = decide (i < 32) := by
      revert i
      decide
    rw [BitVec.getLsbD_or, BitVec.getLsbD_and, BitVec.getLsbD_shiftLeft, BitVec.getLsbD_signExtend,
      BitVec.getLsbD_signExtend, BitVec.getLsbD_append, mask]
    by_cases low : i < 32
    · simp [low, hi]
    · have high : i - 32 < 64 := by omega
      have high' : i - 32 < 32 := by omega
      simp [low, hi, high, high']
  have low := v2.isLt
  change BitVec.toNat ((v1.signExtend 64 <<< 32) ||| (v2.signExtend 64 &&& 0xffffffff#64)) = _
  rw [same, BitVec.toNat_append, Nat.shiftLeft_eq, Nat.mul_comm, Nat.two_pow_add_eq_or_of_lt low]

@[simp] theorem be64_length (v : BitVec 64) : (be64 v).length = 8 := by simp [be64]

theorem fread64_of_rest {v : BitVec 64} (h : f.rest = be64 v ++ ys) : fread64 f = .ok v (f.skip 8) := by
  rw [be64, List.append_assoc] at h
  have second := File.skip_rest h
  rw [toBe_length] at second
  unfold fread64
  rw [Reader.bind_ok (fread32_of_rest h), Reader.bind_ok (fread32_of_rest second)]
  refine congrArg (fun w => EStateM.Result.ok w ((f.skip 4).skip 4)) (BitVec.eq_of_toNat_eq ?_)
  rw [halves_toNat, BitVec.toNat_ofNat, BitVec.toNat_ofNat]
  have lt := v.isLt
  omega

theorem fread64_ok {v : BitVec 64} (h : fread64 f = .ok v f') : f' = f.skip 8 ∧ f.rest = be64 v ++ f'.rest := by
  obtain ⟨v1, f₁, first, h⟩ := Reader.bind_eq_ok h
  obtain ⟨v2, f₂, second, h⟩ := Reader.bind_eq_ok h
  obtain ⟨rfl, high⟩ := fread32_ok first
  obtain ⟨rfl, low⟩ := fread32_ok second
  cases h
  refine ⟨by simp, ?_⟩
  have lt := v2.isLt
  rw [high, low, be64, halves_toNat, List.append_assoc, Nat.mul_comm, Nat.mul_add_div (by decide),
    Nat.div_eq_of_lt lt, Nat.add_zero]
  have same : toBe 4 (2 ^ 32 * v1.toNat + v2.toNat) = toBe 4 v2.toNat := by
    refine ofBe_injective (by simp) ?_
    rw [ofBe_toBe, ofBe_toBe]
    omega
  rw [same]

theorem freadAll_of_rest (h : f.rest = xs ++ ys) : freadAll xs.length f = .ok xs (f.skip xs.length) := by
  simp only [freadAll, File.fread_append h, if_true]

theorem freadAll_ok {n : Nat} (h : freadAll n f = .ok xs f') :
    f' = f.skip n ∧ xs.length = n ∧ f.rest = xs ++ f'.rest := by
  rcases Nat.lt_or_ge f.rest.length n with short | long
  · simp only [freadAll, File.fread_short short] at h
    rw [if_neg (by omega)] at h
    cases h
  · have first : (f.rest.take n).length = n := by
      rw [List.length_take]
      omega
    have split : f.rest = f.rest.take n ++ f.rest.drop n := (List.take_append_drop n f.rest).symm
    have read := freadAll_of_rest split
    have after := File.skip_rest split
    rw [first] at read after
    rw [read] at h
    cases h
    exact ⟨rfl, first, by rw [after]; exact split⟩

theorem fseekCur_skip_four : (f.skip 4).fseekCur (-4) = f := File.fseekCur_back (n := 4) (by simp)

theorem peekMagic_ok {u : Unit} (h : peekMagic f = .ok u f') :
    f.rest.length < 4 ∧ f' = f.skip f.rest.length ∨ magicBytes <+: f.rest ∧ f' = f := by
  unfold peekMagic at h
  cases read : fread32 f with
  | ok v f₁ =>
      rw [read] at h
      obtain ⟨rfl, bytes⟩ := fread32_ok read
      by_cases isMagic : v = magic
      · simp only [ne_eq, isMagic, not_true, if_false] at h
        cases h
        refine .inr ⟨⟨(f.skip 4).rest, ?_⟩, ?_⟩
        · rw [bytes, isMagic]
          rfl
        · exact fseekCur_skip_four
      · simp only [ne_eq, isMagic, not_false_iff, if_true] at h
        cases h
  | error stop f₁ =>
      rw [read] at h
      obtain ⟨-, short, rfl⟩ := fread32_error read
      cases h
      exact .inl ⟨short, rfl⟩

theorem peekMagic_short (h : f.rest.length < 4) : peekMagic f = .ok () (f.skip f.rest.length) := by
  simp only [peekMagic, fread32_short h]

theorem peekMagic_magic (h : magicBytes <+: f.rest) : peekMagic f = .ok () f := by
  obtain ⟨ys, split⟩ := h
  have read := @fread32_of_rest f ys magic.toNat split.symm
  have value : BitVec.ofNat 32 magic.toNat = magic := rfl
  simp only [peekMagic, read, value, ne_eq, not_true, if_false]
  rw [fseekCur_skip_four]

end Fields

section Body

theorem channellen_checked {v : BitVec 32} :
    ¬ (v.toInt ≤ 0 ∨ v.toInt ≥ 1000) ↔ 0 < v.toNat ∧ v.toNat < 1000 := by
  rw [BitVec.toInt_eq_toNat_cond]
  have lt := v.isLt
  split <;> omega

theorem datalen_checked {v : BitVec 32} : ¬ v.toInt < 0 ↔ v.toNat < 2 ^ 31 := by
  rw [BitVec.toInt_eq_toNat_cond]
  have lt := v.isLt
  split <;> omega

theorem datalen_overflows {v : BitVec 32} : v.toInt + 1 = 2 ^ 31 ↔ v.toNat = 2 ^ 31 - 1 := by
  rw [BitVec.toInt_eq_toNat_cond]
  have lt := v.isLt
  split <;> omega

theorem Event.body_length (e : Event) : e.body.length = 24 + e.channel.length + e.data.length := by
  simp only [body, List.length_append, be64_length, toBe_length]
  omega

/-- Where `readRecord` stops: behind the body, and at the end of a file that has no room for a sync word. -/
def bodyEnd (e : Event) (rest : List Byte) : Nat := e.body.length + if rest.length < 4 then rest.length else 0

theorem readRecord_ok {e : Event} (h : readRecord f = .ok e f') :
    ∃ rest, f.rest = e.body ++ rest ∧ e.InLimits ∧ e.data.length ≠ 2 ^ 31 - 1 ∧
      (rest.length < 4 ∨ magicBytes <+: rest) ∧ f' = f.skip (bodyEnd e rest) := by
  obtain ⟨eventnum, f₁, num, h⟩ := Reader.bind_eq_ok h
  obtain ⟨timestamp, f₂, time, h⟩ := Reader.bind_eq_ok h
  obtain ⟨channellen, f₃, chanLen, h⟩ := Reader.bind_eq_ok h
  obtain ⟨datalen, f₄, dataLen, h⟩ := Reader.bind_eq_ok h
  obtain ⟨_, f₅, chanCheck, h⟩ := Reader.bind_eq_ok h
  obtain ⟨_, f₆, dataCheck, h⟩ := Reader.bind_eq_ok h
  obtain ⟨channel, f₇, chan, h⟩ := Reader.bind_eq_ok h
  obtain ⟨_, f₈, sizeCheck, h⟩ := Reader.bind_eq_ok h
  obtain ⟨data, f₉, bytes, h⟩ := Reader.bind_eq_ok h
  obtain ⟨_, f₁₀, peek, returns⟩ := Reader.bind_eq_ok h
  obtain ⟨rfl, num⟩ := fread64_ok num
  obtain ⟨rfl, time⟩ := fread64_ok time
  obtain ⟨rfl, chanLen⟩ := fread32_ok chanLen
  obtain ⟨rfl, dataLen⟩ := fread32_ok dataLen
  obtain ⟨chanOk, rfl⟩ := Reader.failIf_ok chanCheck
  obtain ⟨dataOk, rfl⟩ := Reader.failIf_ok dataCheck
  obtain ⟨rfl, chanLength, chan⟩ := freadAll_ok chan
  obtain ⟨small, rfl⟩ := Reader.failIf_ok sizeCheck
  obtain ⟨rfl, dataLength, bytes⟩ := freadAll_ok bytes
  rw [channellen_checked] at chanOk
  rw [datalen_checked] at dataOk
  rw [datalen_overflows] at small
  cases returns
  have position : ((((((f.skip 8).skip 8).skip 4).skip 4).skip channellen.toNat).skip datalen.toNat) =
      f.skip (Event.body ⟨eventnum, timestamp, channel, data⟩).length := by
    simp only [File.skip_skip, Event.body_length, chanLength, dataLength]
  have limits : Event.InLimits ⟨eventnum, timestamp, channel, data⟩ := by
    simp only [Event.InLimits]
    omega
  refine ⟨((((((f.skip 8).skip 8).skip 4).skip 4).skip channellen.toNat).skip datalen.toNat).rest, ?_, limits,
    dataLength ▸ small, ?_, ?_⟩
  · rw [num, time, chanLen, dataLen, chan, bytes]
    simp only [Event.body, chanLength, dataLength, List.append_assoc]
  · rcases peekMagic_ok peek with ⟨short, -⟩ | ⟨next, -⟩
    · exact .inl short
    · exact .inr next
  · rw [bodyEnd]
    rcases peekMagic_ok peek with ⟨short, rfl⟩ | ⟨next, rfl⟩
    · rw [if_pos short, ← File.skip_skip, ← position]
    · have four := next.length_le
      rw [if_neg (by simpa [magicBytes] using four), Nat.add_zero, ← position]

theorem readRecord_header {eventnum timestamp : BitVec 64} {channel ys : List Byte} {len : Nat} (len_lt : len < 2 ^ 31)
    (h : f.rest = be64 eventnum ++ (be64 timestamp ++ (toBe 4 channel.length ++ (toBe 4 len ++ (channel ++ ys)))))
    (positive : 0 < channel.length) (short : channel.length < 1000) :
    readRecord f = (do
      Reader.failIf ((BitVec.ofNat 32 len).toInt + 1 = 2 ^ 31) .overflow
      let data ← freadAll len
      peekMagic
      return ⟨eventnum, timestamp, channel, data⟩ : Reader Stop Event) (f.skip (24 + channel.length)) := by
  have second := File.skip_rest h
  have third := File.skip_rest second
  have fourth := File.skip_rest third
  have fifth := File.skip_rest fourth
  simp only [be64_length, toBe_length] at second third fourth fifth
  have chanLen : (BitVec.ofNat 32 channel.length).toNat = channel.length := by
    rw [BitVec.toNat_ofNat]
    omega
  have dataLen : (BitVec.ofNat 32 len).toNat = len := by
    rw [BitVec.toNat_ofNat]
    omega
  have read := freadAll_of_rest fifth
  unfold readRecord
  rw [Reader.bind_ok (fread64_of_rest h), Reader.bind_ok (fread64_of_rest second),
    Reader.bind_ok (fread32_of_rest third), Reader.bind_ok (fread32_of_rest fourth),
    Reader.bind_ok (Reader.failIf_of_not (channellen_checked.mpr (by omega))),
    Reader.bind_ok (Reader.failIf_of_not (datalen_checked.mpr (by omega))), chanLen, dataLen, Reader.bind_ok read]
  simp only [File.skip_skip]

theorem readRecord_of_body {e : Event} {rest : List Byte} (h : f.rest = e.body ++ rest) (limits : e.InLimits)
    (small : e.data.length ≠ 2 ^ 31 - 1) (follows : rest.length < 4 ∨ magicBytes <+: rest) :
    readRecord f = .ok e (f.skip (bodyEnd e rest)) := by
  obtain ⟨positive, short, len_lt⟩ := limits
  have parts : f.rest = be64 e.eventnum ++ (be64 e.timestamp ++ (toBe 4 e.channel.length ++
      (toBe 4 e.data.length ++ (e.channel ++ (e.data ++ rest))))) := by
    rw [h]
    simp only [Event.body, List.append_assoc]
  have whole := File.skip_rest h
  have behind : (f.skip (24 + e.channel.length)).rest = e.data ++ rest := by
    have prefixed : f.rest = (be64 e.eventnum ++ be64 e.timestamp ++ toBe 4 e.channel.length ++ toBe 4 e.data.length ++
        e.channel) ++ (e.data ++ rest) := by
      rw [parts]
      simp only [List.append_assoc]
    have after := File.skip_rest prefixed
    simpa only [List.length_append, be64_length, toBe_length] using after
  have noOverflow : ¬ (BitVec.ofNat 32 e.data.length).toInt + 1 = 2 ^ 31 := by
    rw [datalen_overflows, BitVec.toNat_ofNat]
    omega
  rw [readRecord_header len_lt parts positive short, Reader.bind_ok (Reader.failIf_of_not noOverflow),
    Reader.bind_ok (freadAll_of_rest behind), File.skip_skip, ← Event.body_length]
  rcases follows with atEnd | next
  · rw [Reader.bind_ok (peekMagic_short (by rw [whole]; exact atEnd)), whole, File.skip_skip, bodyEnd, if_pos atEnd]
    rfl
  · have four := next.length_le
    rw [Reader.bind_ok (peekMagic_magic (by rw [whole]; exact next)), bodyEnd,
      if_neg (by simpa [magicBytes] using four), Nat.add_zero]
    rfl

def OverflowBody (xs : List Byte) : Prop :=
  ∃ (eventnum timestamp : BitVec 64) (channel rest : List Byte),
    xs = be64 eventnum ++ (be64 timestamp ++ (toBe 4 channel.length ++ (toBe 4 (2 ^ 31 - 1) ++ (channel ++ rest)))) ∧
      0 < channel.length ∧ channel.length < 1000

theorem readRecord_of_overflow (h : OverflowBody f.rest) : ∃ f', readRecord f = .error .overflow f' := by
  obtain ⟨eventnum, timestamp, channel, rest, parts, positive, short⟩ := h
  have large : (BitVec.ofNat 32 (2 ^ 31 - 1)).toInt + 1 = 2 ^ 31 := by decide
  exact ⟨_, (readRecord_header (by decide) parts positive short).trans (Reader.bind_error (Reader.failIf_of large))⟩

theorem fread64_error (h : fread64 f = .error stop f') : stop = .rejected := by
  rcases Reader.bind_eq_error h with first | ⟨v1, f₁, -, h⟩
  · exact (fread32_error first).1
  · rcases Reader.bind_eq_error h with second | ⟨v2, f₂, -, h⟩
    · exact (fread32_error second).1
    · cases h

theorem freadAll_error {n : Nat} (h : freadAll n f = .error stop f') : stop = .rejected := by
  unfold freadAll at h
  simp only at h
  split at h
  · cases h
  · cases h
    rfl

theorem peekMagic_error (h : peekMagic f = .error stop f') : stop = .rejected := by
  unfold peekMagic at h
  split at h
  · split at h
    · cases h
      rfl
    · cases h
  · cases h

theorem readRecord_overflow (h : readRecord f = .error .overflow f') : OverflowBody f.rest := by
  rcases Reader.bind_eq_error h with num | ⟨eventnum, f₁, num, h⟩
  · cases fread64_error num
  rcases Reader.bind_eq_error h with time | ⟨timestamp, f₂, time, h⟩
  · cases fread64_error time
  rcases Reader.bind_eq_error h with chanLen | ⟨channellen, f₃, chanLen, h⟩
  · cases (fread32_error chanLen).1
  rcases Reader.bind_eq_error h with dataLen | ⟨datalen, f₄, dataLen, h⟩
  · cases (fread32_error dataLen).1
  rcases Reader.bind_eq_error h with chanCheck | ⟨_, f₅, chanCheck, h⟩
  · cases (Reader.failIf_error chanCheck).2
  rcases Reader.bind_eq_error h with dataCheck | ⟨_, f₆, dataCheck, h⟩
  · cases (Reader.failIf_error dataCheck).2
  rcases Reader.bind_eq_error h with chan | ⟨channel, f₇, chan, h⟩
  · cases freadAll_error chan
  rcases Reader.bind_eq_error h with sizeCheck | ⟨_, f₈, -, h⟩
  · obtain ⟨rfl, num⟩ := fread64_ok num
    obtain ⟨rfl, time⟩ := fread64_ok time
    obtain ⟨rfl, chanLen⟩ := fread32_ok chanLen
    obtain ⟨rfl, dataLen⟩ := fread32_ok dataLen
    obtain ⟨chanOk, rfl⟩ := Reader.failIf_ok chanCheck
    obtain ⟨-, rfl⟩ := Reader.failIf_ok dataCheck
    obtain ⟨rfl, chanLength, chan⟩ := freadAll_ok chan
    have large := datalen_overflows.mp (Reader.failIf_error sizeCheck).1
    rw [channellen_checked] at chanOk
    refine ⟨eventnum, timestamp, channel, (((((f.skip 8).skip 8).skip 4).skip 4).skip channellen.toNat).rest, ?_,
      by omega, by omega⟩
    rw [num, time, chanLen, dataLen, chan, large, chanLength]
  rcases Reader.bind_eq_error h with bytes | ⟨data, f₉, -, h⟩
  · cases freadAll_error bytes
  rcases Reader.bind_eq_error h with peek | ⟨_, f₁₀, -, h⟩
  · cases peekMagic_error peek
  · cases h

theorem fread32_forward : Reader.Forward fread32 := by
  intro f
  rcases Nat.lt_or_ge f.rest.length 4 with short | long
  · rw [Reader.after_error (fread32_short short)]
    exact ⟨rfl, Nat.le_add_right _ _⟩
  · cases read : fread32 f with
    | ok v f' =>
        obtain ⟨rfl, -⟩ := fread32_ok read
        rw [Reader.after_ok read]
        exact ⟨rfl, Nat.le_add_right _ _⟩
    | error stop f' =>
        have := (fread32_error read).2.1
        omega

theorem fread64_forward : Reader.Forward fread64 :=
  fread32_forward.bind fun _ => fread32_forward.bind fun _ => .pure _

theorem freadAll_forward (n : Nat) : Reader.Forward (freadAll n) := by
  intro f
  have after : Reader.after (freadAll n) f = (f.fread n).2 := by
    unfold Reader.after freadAll
    simp only
    split_ifs <;> rfl
  rw [after]
  exact ⟨rfl, Nat.le_add_right _ _⟩

theorem peekMagic_forward : Reader.Forward peekMagic := by
  intro f
  obtain ⟨bytes, le⟩ := fread32_forward f
  cases read : fread32 f with
  | error stop f' =>
      rw [Reader.after_error read] at bytes le
      have after : Reader.after peekMagic f = f' := by simp only [Reader.after, peekMagic, read]
      rw [after]
      exact ⟨bytes, le⟩
  | ok v f' =>
      obtain ⟨rfl, -⟩ := fread32_ok read
      by_cases isMagic : v = magic
      · have after : Reader.after peekMagic f = (f.skip 4).fseekCur (-4) := by
          simp only [Reader.after, peekMagic, read, ne_eq, isMagic, not_true, if_false]
        rw [after, fseekCur_skip_four]
        exact ⟨rfl, Nat.le_refl _⟩
      · have after : Reader.after peekMagic f = f.skip 4 := by
          simp only [Reader.after, peekMagic, read, ne_eq, isMagic, not_false_iff, if_true]
        rw [after]
        exact ⟨rfl, Nat.le_add_right _ _⟩

theorem readRecord_forward : Reader.Forward readRecord := by
  unfold readRecord
  refine fread64_forward.bind fun _ => fread64_forward.bind fun _ => fread32_forward.bind fun _ =>
    fread32_forward.bind fun _ => (Reader.Forward.failIf _ _).bind fun _ => (Reader.Forward.failIf _ _).bind fun _ =>
    (freadAll_forward _).bind fun _ => (Reader.Forward.failIf _ _).bind fun _ => (freadAll_forward _).bind fun _ =>
    peekMagic_forward.bind fun _ => .pure _

end Body

end Zcm.Eventlog
