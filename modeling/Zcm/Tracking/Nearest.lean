import Zcm.Tracking.Tracker

namespace Zcm.Tracking

variable {α : Type}

section Best

variable {accept : α → Bool} {better : α → α → Bool} {ms : List α} {found : Option α}

theorem IsBest.member (h : IsBest accept better ms found) : ∀ m ∈ found, m ∈ ms ∧ accept m = true := by
  rintro m found
  cases h with
  | nothing => cases found
  | found best member accepted =>
      cases found
      exact ⟨member, accepted⟩

theorem IsBest.best (h : IsBest accept better ms found) {m : α} (member : m ∈ ms) (accepted : accept m = true) :
    ∃ best ∈ found, better m best = false := by
  cases h with
  | nothing rejected =>
      rw [rejected m member] at accepted
      cases accepted
  | found best _ _ optimal => exact ⟨best, rfl, optimal m member accepted⟩

end Best

namespace Tracker

/-- The default `interpolate`: the nearer of the two, and the later one if they are equally near. -/
def interpolate (utimeTarget : BitVec 64) (a b : Stamped α) : α :=
  if utimeTarget - a.utime < b.utime - utimeTarget then a.msg else b.msg

def distance (utime : BitVec 64) (m : Stamped α) : Nat := ((m.utime.toNat : Int) - utime.toNat).natAbs

section Checked

def sub (a b : BitVec 64) : Option (BitVec 64) := if b ≤ a then some (a - b) else none

def dropFar (t : Tracker α) (difference : Stamped α → Option (BitVec 64)) :
    Option (Stamped α) → Option (Option (Stamped α))
  | none => some none
  | some m => (difference m).map fun d => if d > t.maxTimeErr then none else some m

def interpolateChecked (utimeTarget : BitVec 64) (a b : Stamped α) : Option α := do
  let before ← sub utimeTarget a.utime
  let behind ← sub b.utime utimeTarget
  some (if before < behind then a.msg else b.msg)

def getChecked (t : Tracker α) (utime : BitVec 64) : Option (Option α) := do
  let (m0, m1) := t.buf.foldl (bracket utime) (none, none)
  let m0 ← t.dropFar (fun m0 => sub utime m0.utime) m0
  let m1 ← t.dropFar (fun m1 => sub m1.utime utime) m1
  match m0, m1 with
  | some m0, some m1 =>
      if m0.utime = m1.utime then some (some m0.msg) else (interpolateChecked utime m0 m1).map some
  | some m0, none => some (some m0.msg)
  | none, some m1 => some (some m1.msg)
  | none, none => some none

end Checked

section Bracket

structure Brackets (utime : BitVec 64) (buf : List (Stamped α)) (m0 m1 : Option (Stamped α)) : Prop where
  before : ∀ m ∈ m0, m ∈ buf ∧ m.utime ≤ utime
  behind : ∀ m ∈ m1, m ∈ buf ∧ utime ≤ m.utime
  latest : ∀ m ∈ buf, m.utime ≤ utime → ∃ m' ∈ m0, m.utime ≤ m'.utime
  earliest : ∀ m ∈ buf, utime ≤ m.utime → ∃ m' ∈ m1, m'.utime ≤ m.utime

theorem foldl_brackets (utime : BitVec 64) (buf : List (Stamped α)) :
    Brackets utime buf (buf.foldl (bracket utime) (none, none)).1 (buf.foldl (bracket utime) (none, none)).2 := by
  have before := @keepBest_isBest (Stamped α) (fun m => m.utime ≤ utime) (fun m m0 => m.utime > m0.utime)
    (by simp) (by simp only [decide_eq_true_eq, decide_eq_false_iff_not]; bv_omega) buf
  have behind := @keepBest_isBest (Stamped α) (fun m => m.utime ≥ utime) (fun m m1 => m.utime < m1.utime)
    (by simp) (by simp only [decide_eq_true_eq, decide_eq_false_iff_not]; bv_omega) buf
  rw [foldl_bracket]
  constructor
  · intro m found
    simpa using before.member m found
  · intro m found
    simpa using behind.member m found
  · intro m member accepted
    obtain ⟨best, found, optimal⟩ := before.best member (by simpa using accepted)
    exact ⟨best, found, by simpa using optimal⟩
  · intro m member accepted
    obtain ⟨best, found, optimal⟩ := behind.best member (by simpa using accepted)
    exact ⟨best, found, by simpa using optimal⟩

end Bracket

section Get

variable {t : Tracker α} {utime : BitVec 64} {m0 m1 : Option (Stamped α)}

theorem sub_of_le {a b : BitVec 64} (le : b ≤ a) : sub a b = some (a - b) := if_pos le

theorem dropFar_eq {difference : Stamped α → Option (BitVec 64)} {distance : Stamped α → BitVec 64}
    {m : Option (Stamped α)} (exact : ∀ x ∈ m, difference x = some (distance x)) :
    t.dropFar difference m = some (m.filter fun x => ¬ distance x > t.maxTimeErr) := by
  cases m with
  | none => rfl
  | some x =>
      rw [dropFar, exact x rfl, Option.map_some]
      by_cases far : distance x > t.maxTimeErr <;> simp [Option.filter, far]

theorem interpolateChecked_eq {a b : Stamped α} (before : a.utime ≤ utime) (behind : utime ≤ b.utime) :
    interpolateChecked utime a b = some (interpolate utime a b) := by
  rw [interpolateChecked, sub_of_le before, sub_of_le behind]
  rfl

theorem getChecked_eq (t : Tracker α) (utime : BitVec 64) : t.getChecked utime = some (t.get interpolate utime) := by
  have brackets := foldl_brackets utime t.buf
  rw [getChecked, get]
  generalize t.buf.foldl (bracket utime) (none, none) = found at brackets ⊢
  obtain ⟨m0, m1⟩ := found
  have low := @dropFar_eq α t (fun m0 => sub utime m0.utime) (fun m0 => utime - m0.utime) m0
    fun m member => sub_of_le (brackets.before m member).2
  have high := @dropFar_eq α t (fun m1 => sub m1.utime utime) (fun m1 => m1.utime - utime) m1
    fun m member => sub_of_le (brackets.behind m member).2
  simp only [low, high, Option.bind_eq_bind, Option.bind_some]
  have before : ∀ m ∈ m0.filter fun m0 => ¬ utime - m0.utime > t.maxTimeErr, m.utime ≤ utime :=
    fun m member => (brackets.before m (Option.eq_some_of_filter_eq_some member)).2
  have behind : ∀ m ∈ m1.filter fun m1 => ¬ m1.utime - utime > t.maxTimeErr, utime ≤ m.utime :=
    fun m member => (brackets.behind m (Option.eq_some_of_filter_eq_some member)).2
  generalize m0.filter (fun m0 => ¬ utime - m0.utime > t.maxTimeErr) = m0 at before ⊢
  generalize m1.filter (fun m1 => ¬ m1.utime - utime > t.maxTimeErr) = m1 at behind ⊢
  cases m0 with
  | none => cases m1 <;> rfl
  | some a =>
      cases m1 with
      | none => rfl
      | some b =>
          simp only [interpolateChecked_eq (before a rfl) (behind b rfl)]
          split <;> rfl

theorem distance_before {m : Stamped α} (before : m.utime ≤ utime) : distance utime m = (utime - m.utime).toNat := by
  rw [BitVec.toNat_sub_of_le before, distance]
  have le := BitVec.le_def.mp before
  omega

theorem distance_behind {m : Stamped α} (behind : utime ≤ m.utime) : distance utime m = (m.utime - utime).toNat := by
  rw [BitVec.toNat_sub_of_le behind, distance]
  have le := BitVec.le_def.mp behind
  omega

theorem Brackets.nearest {buf : List (Stamped α)} (brackets : Brackets utime buf m0 m1) {m : Stamped α}
    (member : m ∈ buf) : (∃ a ∈ m0, distance utime a ≤ distance utime m) ∨
      ∃ b ∈ m1, distance utime b ≤ distance utime m := by
  by_cases before : m.utime ≤ utime
  · obtain ⟨a, found, le⟩ := brackets.latest m member before
    refine .inl ⟨a, found, ?_⟩
    have inside := BitVec.le_def.mp (brackets.before a found).2
    have later := BitVec.le_def.mp le
    rw [distance, distance]
    omega
  · have behind : utime ≤ m.utime := BitVec.le_of_lt (BitVec.not_le.mp before)
    obtain ⟨b, found, le⟩ := brackets.earliest m member behind
    refine .inr ⟨b, found, ?_⟩
    have inside := BitVec.le_def.mp (brackets.behind b found).2
    have earlier := BitVec.le_def.mp le
    rw [distance, distance]
    omega

theorem get_of_brackets (brackets : Brackets utime t.buf m0 m1)
    (found : t.buf.foldl (bracket utime) (none, none) = (m0, m1)) :
    match t.get interpolate utime with
    | none => ∀ m ∈ t.buf, ¬ distance utime m ≤ t.maxTimeErr.toNat
    | some got => ∃ m ∈ t.buf, m.msg = got ∧ distance utime m ≤ t.maxTimeErr.toNat ∧
        ∀ m' ∈ t.buf, distance utime m ≤ distance utime m' := by
  have low (a : Stamped α) (here : a ∈ m0) :
      a ∈ (m0.filter fun m0 => ¬ utime - m0.utime > t.maxTimeErr) ↔ distance utime a ≤ t.maxTimeErr.toNat := by
    rw [Option.mem_filter_iff, and_iff_right here, distance_before (brackets.before a here).2]
    simp [BitVec.le_def]
  have high (b : Stamped α) (here : b ∈ m1) :
      b ∈ (m1.filter fun m1 => ¬ m1.utime - utime > t.maxTimeErr) ↔ distance utime b ≤ t.maxTimeErr.toNat := by
    rw [Option.mem_filter_iff, and_iff_right here, distance_behind (brackets.behind b here).2]
    simp [BitVec.le_def]
  rw [get, found]
  have before : ∀ m ∈ m0.filter fun m0 => ¬ utime - m0.utime > t.maxTimeErr, m ∈ m0 :=
    fun m member => Option.eq_some_of_filter_eq_some member
  have behind : ∀ m ∈ m1.filter fun m1 => ¬ m1.utime - utime > t.maxTimeErr, m ∈ m1 :=
    fun m member => Option.eq_some_of_filter_eq_some member
  dsimp only
  generalize m0.filter (fun m0 => ¬ utime - m0.utime > t.maxTimeErr) = near0 at low before ⊢
  generalize m1.filter (fun m1 => ¬ m1.utime - utime > t.maxTimeErr) = near1 at high behind ⊢
  have answer (w : Stamped α) (member : w ∈ t.buf) (close : distance utime w ≤ t.maxTimeErr.toNat)
      (low' : ∀ a ∈ m0, distance utime a ≤ t.maxTimeErr.toNat → distance utime w ≤ distance utime a)
      (high' : ∀ b ∈ m1, distance utime b ≤ t.maxTimeErr.toNat → distance utime w ≤ distance utime b) :
      ∃ m ∈ t.buf, m.msg = w.msg ∧ distance utime m ≤ t.maxTimeErr.toNat ∧
        ∀ m' ∈ t.buf, distance utime m ≤ distance utime m' := by
    refine ⟨w, member, rfl, close, fun m' member' => ?_⟩
    rcases brackets.nearest member' with ⟨a, here, le⟩ | ⟨b, here, le⟩
    · have := low' a here
      omega
    · have := high' b here
      omega
  cases near0 with
  | none =>
      have far0 (a : Stamped α) (here : a ∈ m0) : ¬ distance utime a ≤ t.maxTimeErr.toNat :=
        fun close => Option.not_mem_none a ((low a here).mpr close)
      cases near1 with
      | none =>
          have far1 (b : Stamped α) (here : b ∈ m1) : ¬ distance utime b ≤ t.maxTimeErr.toNat :=
            fun close => Option.not_mem_none b ((high b here).mpr close)
          intro m member close
          rcases brackets.nearest member with ⟨a, here, le⟩ | ⟨b, here, le⟩
          · exact far0 a here (le.trans close)
          · exact far1 b here (le.trans close)
      | some b =>
          have here := behind b rfl
          exact answer b (brackets.behind b here).1 ((high b here).mp rfl) (fun a is close => absurd close (far0 a is))
            fun b' is _ => by rw [Option.mem_unique is here]
  | some a =>
      have here := before a rfl
      have closeA := (low a here).mp rfl
      have onlyA (a' : Stamped α) (is : a' ∈ m0) : a' = a := Option.mem_unique is here
      cases near1 with
      | none =>
          have far1 (b : Stamped α) (is : b ∈ m1) : ¬ distance utime b ≤ t.maxTimeErr.toNat :=
            fun close => Option.not_mem_none b ((high b is).mpr close)
          exact answer a (brackets.before a here).1 closeA (fun a' is _ => by rw [onlyA a' is])
            fun b is close => absurd close (far1 b is)
      | some b =>
          have there := behind b rfl
          have closeB := (high b there).mp rfl
          have onlyB (b' : Stamped α) (is : b' ∈ m1) : b' = b := Option.mem_unique is there
          obtain ⟨memberA, leA⟩ := brackets.before a here
          obtain ⟨memberB, leB⟩ := brackets.behind b there
          dsimp only
          by_cases hit : a.utime = b.utime
          · rw [if_pos hit]
            have zero : distance utime a = 0 := by
              have low := BitVec.le_def.mp leA
              have high := BitVec.le_def.mp leB
              rw [← hit] at high
              rw [distance]
              omega
            exact answer a memberA closeA (fun _ _ _ => by omega) fun _ _ _ => by omega
          · have compare : utime - a.utime < b.utime - utime ↔ distance utime a < distance utime b := by
              rw [BitVec.lt_def, ← distance_before leA, ← distance_behind leB]
            rw [if_neg hit, interpolate]
            by_cases nearer : distance utime a < distance utime b
            · rw [if_pos (compare.mpr nearer)]
              exact answer a memberA closeA (fun a' is _ => by rw [onlyA a' is])
                fun b' is _ => by rw [onlyB b' is]; omega
            · rw [if_neg (mt compare.mp nearer)]
              exact answer b memberB closeB (fun a' is _ => by rw [onlyA a' is]; omega)
                fun b' is _ => by rw [onlyB b' is]

/-- A tracker returns nothing exactly if every message is too far from the time, else one of the nearest; and no
subtraction on the way wraps. -/
theorem get_nearest (t : Tracker α) (utime : BitVec 64) :
    (t.get interpolate utime = none ↔ ∀ m ∈ t.buf, ¬ distance utime m ≤ t.maxTimeErr.toNat) ∧
    (∀ got, t.get interpolate utime = some got →
      ∃ m ∈ t.buf, m.msg = got ∧ ∀ m' ∈ t.buf, distance utime m ≤ distance utime m') ∧
    t.getChecked utime = some (t.get interpolate utime) := by
  have result := get_of_brackets (foldl_brackets utime t.buf) rfl
  refine ⟨?_, ?_, getChecked_eq t utime⟩
  · cases found : t.get interpolate utime with
    | none =>
        rw [found] at result
        exact iff_of_true rfl result
    | some got =>
        rw [found] at result
        obtain ⟨m, member, -, close, -⟩ := result
        exact iff_of_false nofun fun far => far m member close
  · intro got found
    rw [found] at result
    obtain ⟨m, member, same, -, nearest⟩ := result
    exact ⟨m, member, same, nearest⟩

end Get

end Tracker

end Zcm.Tracking
