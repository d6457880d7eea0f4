import Zcm.Eventlog.Log

namespace Zcm.Eventlog
open Zcm.Lib

def MagicAt (bytes : List Byte) (p : Nat) : Prop := magicBytes <+: bytes.drop p

instance (bytes : List Byte) (p : Nat) : Decidable (MagicAt bytes p) := inferInstanceAs (Decidable (_ <+: _))

theorem MagicAt.le {bytes : List Byte} {p : Nat} (h : MagicAt bytes p) : p + 4 ≤ bytes.length := by
  have le := h.length_le
  rw [List.length_drop] at le
  simp only [magicBytes, List.length_cons, List.length_nil] at le
  omega

theorem MagicAt.getElem? {bytes : List Byte} {p : Nat} (h : MagicAt bytes p) {i : Nat} (lt : i < 4) :
    bytes[p + i]? = magicBytes[i]? := by
  obtain ⟨rest, split⟩ := h
  rw [← List.getElem?_drop, ← split, List.getElem?_append_left (by simpa [magicBytes] using lt)]

theorem MagicAt.apart {bytes : List Byte} {p q : Nat} (hp : MagicAt bytes p) (hq : MagicAt bytes q) (lt : p < q) :
    p + 4 ≤ q := by
  by_contra near
  obtain ⟨d, rfl⟩ := Nat.exists_eq_add_of_lt lt
  have inside := hp.getElem? (show d + 1 < 4 by omega)
  have start := hq.getElem? (show 0 < 4 by decide)
  rw [Nat.add_zero, Nat.add_assoc, inside] at start
  have differ : ∀ d < 3, magicBytes[d + 1]? ≠ magicBytes[0]? := by decide
  exact differ d (by omega) start

section Forwards

theorem shiftIn_eq (seen : List Byte) (r : Byte) :
    (BitVec.ofNat 32 (ofBe seen) <<< 8) ||| r.setWidth 32 = BitVec.ofNat 32 (ofBe (seen ++ [r])) := by
  apply BitVec.eq_of_toNat_eq
  have low := r.isLt
  have value : ofBe (seen ++ [r]) = ofBe seen * 256 + r.toNat := by simp [ofBe_append, ofBe]
  have shifted : (ofBe seen % 2 ^ 32) <<< 8 % 2 ^ 32 = (ofBe seen % 2 ^ 24) <<< 8 := by
    rw [Nat.shiftLeft_eq, Nat.shiftLeft_eq]
    omega
  rw [BitVec.toNat_or, BitVec.toNat_shiftLeft, BitVec.toNat_setWidth, BitVec.toNat_ofNat, BitVec.toNat_ofNat, shifted,
    value,
    Nat.mod_eq_of_lt (show r.toNat < 2 ^ 32 by omega), ← Nat.shiftLeft_add_eq_or_of_lt low, Nat.shiftLeft_eq]
  omega

theorem ofBe_eq_magic_iff (seen : List Byte) : BitVec.ofNat 32 (ofBe seen) = magic ↔ magicBytes <:+ seen := by
  constructor
  · intro same
    have value : ofBe seen % 2 ^ 32 = 0xEDA1DA01 := by
      have toNat := congrArg BitVec.toNat same
      rwa [BitVec.toNat_ofNat] at toNat
    rcases Nat.lt_or_ge seen.length 4 with short | long
    · have small := ofBe_lt seen
      have bound : 256 ^ seen.length ≤ 256 ^ 3 := Nat.pow_le_pow_right (by decide) (by omega)
      omega
    · have split := List.take_append_drop (seen.length - 4) seen
      have length : (seen.drop (seen.length - 4)).length = 4 := by
        rw [List.length_drop]
        omega
      have low := ofBe_lt (seen.drop (seen.length - 4))
      rw [length] at low
      rw [← split, ofBe_append, length] at value
      refine ⟨seen.take (seen.length - 4), ?_⟩
      have last : seen.drop (seen.length - 4) = magicBytes := by
        refine ofBe_injective length ?_
        have isMagic : ofBe magicBytes = 0xEDA1DA01 := by decide
        omega
      rw [← last, split]
  · rintro ⟨before, rfl⟩
    apply BitVec.eq_of_toNat_eq
    rw [BitVec.toNat_ofNat, ofBe_append]
    have isMagic : ofBe magicBytes = 0xEDA1DA01 := by decide
    have length : magicBytes.length = 4 := rfl
    rw [isMagic, length]
    have toNat : magic.toNat = 0xEDA1DA01 := by decide
    omega

variable {bytes : List Byte} {start : Nat}

theorem magicAt_iff_suffix {seen rest : List Byte} (split : bytes.drop start = seen ++ rest) {q : Nat}
    (le : start ≤ q) (atEnd : q + 4 = start + seen.length) : MagicAt bytes q ↔ magicBytes <:+ seen := by
  obtain ⟨k, rfl⟩ := Nat.exists_eq_add_of_le le
  have length : (seen.drop k).length = magicBytes.length := by
    rw [List.length_drop]
    simp only [magicBytes, List.length_cons, List.length_nil]
    omega
  have there : bytes.drop (start + k) = seen.drop k ++ rest := by
    rw [← List.drop_drop, split, List.drop_append_of_le_length (by omega)]
  rw [MagicAt, there]
  constructor
  · rintro ⟨after, same⟩
    have word := (List.append_inj same length.symm).1
    exact ⟨seen.take k, by rw [word, List.take_append_drop]⟩
  · rintro ⟨before, same⟩
    have word : seen.drop k = magicBytes := by
      have total := congrArg List.length same
      rw [List.length_append] at total
      simp only [magicBytes, List.length_cons, List.length_nil] at total
      rw [← same, List.drop_left' (by omega)]
    rw [word]
    exact List.prefix_append _ _

def Synced (bytes : List Byte) (start : Nat) (r : Option (Bool × File)) : Prop :=
  (∃ p, start ≤ p ∧ MagicAt bytes p ∧ (∀ q, start ≤ q → q < p → ¬ MagicAt bytes q) ∧
    r = some (true, ⟨bytes, p + 4⟩)) ∨
    (∀ q, start ≤ q → ¬ MagicAt bytes q) ∧ ∃ pos, r = some (false, ⟨bytes, pos⟩)

theorem syncLoop_spec {rounds : Nat} {seen rest : List Byte} (split : bytes.drop start = seen ++ rest)
    (none : ∀ q, start ≤ q → q + 4 ≤ start + seen.length → ¬ MagicAt bytes q)
    (enough : rest.length < rounds) :
    Synced bytes start (syncLoop rounds (BitVec.ofNat 32 (ofBe seen)) ⟨bytes, start + seen.length⟩) := by
  induction rounds generalizing seen rest with
  | zero => omega
  | succ rounds ih =>
      have here : File.rest ⟨bytes, start + seen.length⟩ = rest := by
        rw [File.rest, ← List.drop_drop, split, List.drop_left]
      cases rest with
      | nil =>
          refine .inr ⟨fun q le isMagic => none q le ?_ isMagic, ?_⟩
          · have length := congrArg List.length split
            have bound := isMagic.le
            rw [List.length_drop, List.append_nil] at length
            omega
          · rw [syncLoop, File.fgetc_nil here]
            exact ⟨_, rfl⟩
      | cons r rest =>
          have split' : bytes.drop start = (seen ++ [r]) ++
            rest := by rw [split, List.append_assoc, List.singleton_append]
          have length : (seen ++ [r]).length = seen.length + 1 := by simp
          rw [syncLoop, File.fgetc_cons here]
          simp only [shiftIn_eq]
          by_cases found : BitVec.ofNat 32 (ofBe (seen ++ [r])) = magic
          · have word := (ofBe_eq_magic_iff _).mp found
            have four := word.length_le
            simp only [magicBytes, List.length_cons, List.length_nil, List.length_append] at four
            rw [if_pos found]
            refine .inl ⟨start + seen.length + 1 - 4, by omega, ?_, fun q le lt => none q le (by omega), ?_⟩
            · exact (magicAt_iff_suffix split' (by omega) (by omega)).mpr word
            · rw [File.skip, show start + seen.length + 1 - 4 + 4 = start + seen.length + 1 by omega]
          · rw [if_neg found]
            have next := ih split' (fun q le bound isMagic => ?_) (by simp at enough; omega)
            · rw [length] at next
              exact next
            · by_cases last : q + 4 = start + (seen ++ [r]).length
              · exact found ((ofBe_eq_magic_iff _).mpr ((magicAt_iff_suffix split' le last).mp isMagic))
              · exact none q le (by omega) isMagic

theorem syncStream_spec {rounds : Nat} (enough : bytes.length - start < rounds) :
    Synced bytes start (syncStream rounds ⟨bytes, start⟩) := by
  have spec := @syncLoop_spec bytes start rounds [] (bytes.drop start) rfl (fun q le bound => ?_) ?_
  · exact spec
  · simp only [List.length_nil] at bound
    omega
  · rw [List.length_drop]
    exact enough

end Forwards

section Backwards

def firstFour (seen : List Byte) : BitVec 32 := BitVec.ofNat 32 (ofBe ((seen ++ [0, 0, 0, 0]).take 4))

theorem shiftInHigh_eq (seen : List Byte) (r : Byte) :
    ((firstFour seen >>> 8) &&& 0x00ffffff) ||| ((r.setWidth 32 <<< 24) &&& 0xff000000) = firstFour (r :: seen) := by
  obtain ⟨b0, b1, b2, b3, word⟩ : ∃ b0 b1 b2 b3, (seen ++ [0, 0, 0, 0]).take 4 = [b0, b1, b2, b3] := by
    have length : ((seen ++ [0, 0, 0, 0]).take 4).length = 4 := by
      rw [List.length_take, List.length_append, List.length_cons, List.length_cons, List.length_cons, List.length_cons,
        List.length_nil]
      omega
    match (seen ++ [0, 0, 0, 0]).take 4, length with
    | [b0, b1, b2, b3], _ => exact ⟨b0, b1, b2, b3, rfl⟩
  have next : (r :: seen ++ [0, 0, 0, 0]).take 4 = [r, b0, b1, b2] := by
    rw [List.cons_append, List.take_succ_cons]
    have three := congrArg (List.take 3) word
    rw [List.take_take] at three
    exact congrArg (r :: ·) three
  have high : ∀ r : Byte, (r.setWidth 32 <<< 24) &&& 0xff000000#32 = r.setWidth 32 <<< 24 := by decide
  have h0 := b0.isLt
  have h1 := b1.isLt
  have h2 := b2.isLt
  have h3 := b3.isLt
  have hr := r.isLt
  change ((firstFour seen >>> 8) &&& 0x00ffffff#32) ||| ((r.setWidth 32 <<< 24) &&& 0xff000000#32) = _
  rw [high, firstFour, firstFour, word, next]
  apply BitVec.eq_of_toNat_eq
  simp only [ofBe, List.length_cons, List.length_nil, BitVec.toNat_or, BitVec.toNat_and, BitVec.toNat_ushiftRight,
    BitVec.toNat_shiftLeft, BitVec.toNat_setWidth, BitVec.toNat_ofNat, Nat.shiftLeft_eq, Nat.shiftRight_eq_div_pow]
  have mask : ∀ x, x &&& 0x00ffffff % 2 ^ 32 = x % 2 ^ 24 := fun x => Nat.and_two_pow_sub_one_eq_mod x 24
  rw [mask, Nat.or_comm, Nat.mod_eq_of_lt (show r.toNat < 2 ^ 32 by omega),
    Nat.mod_eq_of_lt (show r.toNat * 2 ^ 24 < 2 ^ 32 by omega), ← Nat.shiftLeft_eq,
    ← Nat.shiftLeft_add_eq_or_of_lt (Nat.mod_lt _ (by decide)), Nat.shiftLeft_eq]
  omega

theorem firstFour_eq_magic_iff (seen : List Byte) : firstFour seen = magic ↔ magicBytes <+: seen := by
  have length : ((seen ++ [0, 0, 0, 0]).take 4).length = magicBytes.length := by
    rw [List.length_take, List.length_append]
    simp only [magicBytes, List.length_cons, List.length_nil]
    omega
  constructor
  · intro same
    have low := ofBe_lt ((seen ++ [0, 0, 0, 0]).take 4)
    have four : magicBytes.length = 4 := rfl
    rw [length, four] at low
    have word : (seen ++ [0, 0, 0, 0]).take 4 = magicBytes := by
      refine ofBe_injective length ?_
      have toNat := congrArg BitVec.toNat same
      rw [firstFour, BitVec.toNat_ofNat, Nat.mod_eq_of_lt (by simpa using low)] at toNat
      rw [toNat]
      decide
    rcases Nat.lt_or_ge seen.length 4 with short | long
    · -- the last byte of the word is not zero
      have last := congrArg (fun bs => bs[3]?) word
      simp only [List.getElem?_take_of_lt (show 3 < 4 by decide)] at last
      rw [List.getElem?_append_right (by omega)] at last
      have zero : ∀ n < 4, ([0, 0, 0, 0] : List Byte)[n]? ≠ magicBytes[3]? := by decide
      exact absurd last (zero _ (by omega))
    · rw [List.take_append_of_le_length long] at word
      exact ⟨seen.drop 4, by rw [← word, List.take_append_drop]⟩
  · rintro ⟨rest, rfl⟩
    have word : (magicBytes ++ rest ++ [0, 0, 0, 0]).take 4 = magicBytes := by
      rw [List.append_assoc]
      exact List.take_left' rfl
    rw [firstFour, word]
    decide

variable {bytes : List Byte}

theorem fgetc_before {x : Nat} (two : 2 ≤ x) (inside : x ≤ bytes.length) :
    ∃ r, ((File.mk bytes x).fseekCur (-2)).fgetc = (some r, ⟨bytes, x - 1⟩) ∧
      bytes.drop (x - 2) = r :: bytes.drop (x - 1) := by
  have lt : x - 2 < bytes.length := by omega
  have back : (File.mk bytes x).fseekCur (-2) = ⟨bytes, x - 2⟩ := File.fseekCur_back (n := 2) two
  refine ⟨bytes[x - 2], ?_, ?_⟩
  · rw [back, File.fgetc]
    simp only [List.getElem?_eq_getElem lt]
    rw [show x - 2 + 1 = x - 1 by omega]
  · rw [List.drop_eq_getElem_cons lt, show x - 2 + 1 = x - 1 by omega]

/-- What `sync_stream_backwards` does from `stop` on: it finds the last sync word that ends before the byte in front
of `stop`. -/
def SyncedBackwards (bytes : List Byte) (stop : Nat) (r : Option (Backwards × File)) : Prop :=
  (∃ p, p + 5 ≤ stop ∧ MagicAt bytes p ∧ (∀ q, p < q → q + 5 ≤ stop → ¬ MagicAt bytes q) ∧
      r = some (.found, ⟨bytes, p + 4⟩)) ∨
    (∀ q, q + 5 ≤ stop → ¬ MagicAt bytes q) ∧ ∃ pos, r = some (.atStart, ⟨bytes, pos⟩)

theorem syncLoopBackwards_spec {stop rounds x : Nat} {seen rest : List Byte} (split : bytes.drop (x - 1) = seen ++ rest)
    (total : x + seen.length = stop) (inside : stop ≤ bytes.length)
    (none : ∀ q, x - 1 ≤ q → q + 5 ≤ stop → ¬ MagicAt bytes q) (enough : x < rounds) :
    SyncedBackwards bytes stop (syncLoopBackwards rounds (firstFour seen) ⟨bytes, x⟩) := by
  induction rounds generalizing x seen with
  | zero => omega
  | succ rounds ih =>
      rw [syncLoopBackwards]
      by_cases low : x < 2
      · rw [if_pos low]
        exact .inr ⟨fun q bound => none q (by omega) bound, _, rfl⟩
      · obtain ⟨r, read, word⟩ := @fgetc_before bytes x (by omega) (by omega)
        rw [split] at word
        rw [if_neg low, read]
        simp only [shiftInHigh_eq]
        have isMagic : x - 2 + 5 ≤ stop → (MagicAt bytes (x - 2) ↔ magicBytes <+: r :: seen) := by
          intro bound
          rw [MagicAt, word, ← List.cons_append]
          refine ⟨fun h => List.prefix_of_prefix_length_le h (List.prefix_append _ _) ?_,
            fun h => h.trans (List.prefix_append _ _)⟩
          simp only [magicBytes, List.length_cons, List.length_nil]
          omega
        by_cases found : firstFour (r :: seen) = magic
        · have here := (firstFour_eq_magic_iff _).mp found
          have four := here.length_le
          simp only [magicBytes, List.length_cons, List.length_nil] at four
          rw [if_pos found]
          refine .inl ⟨x - 2, by omega, (isMagic (by omega)).mpr here,
            fun q lt bound => none q (by omega) bound, ?_⟩
          have forth : (File.mk bytes (x - 1)).fseekCur 3 = (File.mk bytes (x - 1)).skip 3 := File.fseekCur_forth 3
          rw [forth, File.skip, show x - 1 + 3 = x - 2 + 4 by omega]
        · rw [if_neg found]
          refine @ih (x - 1) (r :: seen) (by rw [Nat.sub_sub, word, List.cons_append]) ?_ (fun q le bound => ?_)
            (by omega)
          · rw [List.length_cons]
            omega
          · by_cases new : q = x - 2
            · subst new
              exact fun h => found ((firstFour_eq_magic_iff _).mpr ((isMagic bound).mp h))
            · exact none q (by omega) bound

theorem syncStreamBackwards_spec {stop rounds : Nat} (inside : stop ≤ bytes.length) (enough : stop < rounds) :
    SyncedBackwards bytes stop (syncStreamBackwards rounds ⟨bytes, stop⟩) := by
  have spec := @syncLoopBackwards_spec bytes stop rounds stop [] (bytes.drop (stop - 1)) rfl (by simp) inside
    (fun q le bound => by omega) enough
  exact spec

end Backwards

end Zcm.Eventlog
