import Zcm.Logger.Files
import Zcm.Lib.Strtol

namespace Zcm.Logger
open Zcm.Lib Zcm.Eventlog

def rotated (fnamePrefix : Name) (i : Int) : Name := fnamePrefix ++ dot ++ toString i

/-- The first `n` names of the rotation hold what was before them, and no other file has changed. -/
structure Shifted (fnamePrefix : Name) (n : Nat) (before after : Dir) : Prop where
  moved : ∀ i : Nat, i + 1 < n → after (rotated fnamePrefix (i + 1 : Nat)) = before (rotated fnamePrefix i)
  front : 0 < n → after (rotated fnamePrefix 0) = none
  others : ∀ name, (∀ i : Nat, i < n → name ≠ rotated fnamePrefix i) → after name = before name

section Names

theorem decimal_inj {m n : Nat} (same : decimal m = decimal n) : m = n := by
  have value := congrArg (digitsValue 10) same
  have left := @digitsValue_natText 10 m (by decide) (by decide)
  have right := @digitsValue_natText 10 n (by decide) (by decide)
  exact left.symm.trans (value.trans right)

theorem toString_natCast (n : Nat) : toString n = decimal n := by
  rw [toString, if_neg (by omega), Int.natAbs_natCast]

theorem rotated_inj {fnamePrefix : Name} {i j : Nat} : rotated fnamePrefix i = rotated fnamePrefix j ↔ i = j := by
  constructor
  · intro same
    have numbers := List.append_cancel_left same
    rw [toString_natCast, toString_natCast] at numbers
    exact decimal_inj numbers
  · rintro rfl
    rfl

theorem rotated_neg_ne {fnamePrefix : Name} {i : Nat} : rotated fnamePrefix (-1) ≠ rotated fnamePrefix i := by
  intro same
  have numbers := List.append_cancel_left same
  rw [toString_natCast] at numbers
  have digits := @isDigitOf_natText 10 i (by decide) (by decide)
  have minus : charByte '-' ∈ natText 10 i := by
    have first : charByte '-' ∈ toString (-1) := by decide
    rw [numbers] at first
    exact first
  have digit := digits _ minus
  revert digit
  decide

end Names

section Rename

variable {o : Opening} {fnamePrefix : Name}

theorem update_missing {dir : Dir} {name : Name} (gone : dir name = none) : Function.update dir name none = dir := by
  have same := Function.update_eq_self name dir
  rwa [gone] at same

theorem rename_eq {dir : Dir} {old new : Name} (free : dir new = none) :
    (if dir.exists old then dir.rename old new else dir) = dir.rename old new := by
  split
  next => rfl
  next missing =>
      have gone : dir old = none := by simpa [Dir.exists] using missing
      rw [Dir.rename, gone, update_missing gone, update_missing free]

theorem renameAway_shifted (renames : ∀ k, o.renames k = true) (n : Nat) (dir : Dir)
    (below : dir (rotated fnamePrefix (-1)) = none)
    (free : ∀ k : Nat, n = k + 1 → dir (rotated fnamePrefix k) = none) :
    Shifted fnamePrefix n dir (renameAway o fnamePrefix n dir) := by
  induction n generalizing dir with
  | zero =>
      exact ⟨fun i less => absurd less (Nat.not_lt_zero _), fun less => absurd less (Nat.not_lt_zero _),
        fun _ _ => rfl⟩
  | succ n ih =>
      have step : renameAway o fnamePrefix (n + 1) dir =
          renameAway o fnamePrefix n (dir.rename (rotated fnamePrefix (n - 1 : Int)) (rotated fnamePrefix n)) := by
        rw [← rename_eq (free n rfl), renameAway]
        simp only [renames, Bool.and_true]
        rfl
      rw [step]
      cases n with
      | zero =>
          have first : dir.rename (rotated fnamePrefix (-1)) (rotated fnamePrefix 0) = dir := by
            rw [Dir.rename, below, update_missing below]
            exact update_missing (free 0 rfl)
          have front := free 0 rfl
          refine ⟨fun i less => absurd less (by omega), fun _ => ?_, fun name other => ?_⟩
          · show dir.rename (rotated fnamePrefix (-1)) (rotated fnamePrefix 0) _ = _
            rw [first]
            exact front
          · show dir.rename (rotated fnamePrefix (-1)) (rotated fnamePrefix 0) _ = _
            rw [first]
      | succ n =>
          have last : ((n + 1 : Nat) : Int) - 1 = (n : Nat) := by omega
          have fresh := free (n + 1) rfl
          rw [last]
          have moved (name : Name) : dir.rename (rotated fnamePrefix n) (rotated fnamePrefix (n + 1 : Nat)) name =
              if name = rotated fnamePrefix (n + 1 : Nat) then dir (rotated fnamePrefix n)
              else if name = rotated fnamePrefix n then none else dir name := by
            rw [Dir.rename, Function.update_apply, Function.update_apply]
          have rest := ih (dir.rename (rotated fnamePrefix n) (rotated fnamePrefix (n + 1 : Nat)))
            (by rw [moved, if_neg rotated_neg_ne, if_neg rotated_neg_ne]; exact below)
            (by
              intro k same
              obtain rfl : n = k := by omega
              rw [moved, if_neg (by rw [rotated_inj]; omega), if_pos rfl])
          generalize renameAway o fnamePrefix (n + 1) _ = after at rest ⊢
          refine ⟨fun i less => ?_, fun _ => rest.front (Nat.succ_pos n), fun name other => ?_⟩
          · by_cases top : i = n
            · subst top
              rw [rest.others _ fun j below same => by rw [rotated_inj] at same; omega, moved, if_pos rfl]
            · rw [rest.moved i (by omega), moved, if_neg (by rw [rotated_inj]; omega),
                if_neg (by rw [rotated_inj]; omega)]
          · rw [rest.others name fun j below => other j (by omega), moved, if_neg (other _ (by omega)),
              if_neg (other _ (by omega))]

end Rename

/-- Where every call succeeds, the rotation moves every file on and drops the last one. -/
theorem rotateLogfiles_shifted (args : Args) (o : Opening) (f : Files) (rotate : 0 < args.rotate)
    (below : f.dir (rotated f.fnamePrefix (-1)) = none) (removes : o.removes = true)
    (renames : ∀ k, o.renames k = true) :
    Shifted f.fnamePrefix args.rotate.toNat f.dir (rotateLogfiles o args f).dir := by
  obtain ⟨n, count⟩ : ∃ n : Nat, args.rotate = (n + 1 : Nat) := ⟨args.rotate.toNat - 1, by omega⟩
  have last : args.rotate - 1 = (n : Nat) := by omega
  have many : args.rotate.toNat = n + 1 := by omega
  have removed : (if f.dir.exists (rotated f.fnamePrefix n) && o.removes then f.dir.remove (rotated f.fnamePrefix n)
      else f.dir) = f.dir.remove (rotated f.fnamePrefix n) := by
    rw [removes, Bool.and_true]
    split
    next => rfl
    next missing =>
        have gone : f.dir (rotated f.fnamePrefix n) = none := by simpa [Dir.exists] using missing
        rw [Dir.remove, update_missing gone]
  have run : (rotateLogfiles o args f).dir =
      renameAway o f.fnamePrefix (n + 1) (f.dir.remove (rotated f.fnamePrefix n)) := by
    rw [rotateLogfiles, last, many, ← removed]
    rfl
  have left (name : Name) (other : name ≠ rotated f.fnamePrefix n) :
      f.dir.remove (rotated f.fnamePrefix n) name = f.dir name := Function.update_of_ne other ..
  have shifted := renameAway_shifted renames (n + 1) (f.dir.remove (rotated f.fnamePrefix n))
    (by rw [left _ rotated_neg_ne]; exact below)
    (by
      intro k same
      obtain rfl : n = k := by omega
      exact Function.update_self ..)
  rw [run, many]
  refine ⟨fun i less => ?_, shifted.front, fun name other => ?_⟩
  · rw [shifted.moved i less, left _ (by rw [Ne, rotated_inj]; omega)]
  · rw [shifted.others name other, left _ (other n (by omega))]

def threeFiles : Args where
  autoSplit := fun _ => false
  forceOverwrite := false
  autoIncrement := false
  useStrftime := false
  rotate := 3
  inputFname := ascii ['l', 'o', 'g']
  maxTargetMemory := 0
  controlEnabled := false
  controlSessionId := 0
  channelRenames := []
  exclusive := by simp
  splits := by simp

def gap : Dir := fun name =>
  if name = rotated (ascii ['l', 'o', 'g']) 0 then some [barrier 1 []]
  else if name = rotated (ascii ['l', 'o', 'g']) 2 then some [barrier 2 []] else none

theorem gap_shifted : Shifted (ascii ['l', 'o', 'g']) 3 gap
    (rotateLogfiles ⟨[], true, fun _ => true, true⟩ threeFiles ⟨gap, [], ascii ['l', 'o', 'g'], 0⟩).dir :=
  rotateLogfiles_shifted threeFiles _ ⟨gap, [], ascii ['l', 'o', 'g'], 0⟩ (by decide) (by decide) rfl fun _ => rfl

end Zcm.Logger
