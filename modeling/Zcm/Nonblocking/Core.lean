import Zcm.Blocking.Subscriptions
import Zcm.Lib.Regex

/-!
# The non-blocking instance

Its table of subscriptions, the calls that change the table and the dispatch of a message. A handle
is the place of its slot in the table, so that an integer stands for any pointer that a caller may
pass. The transport answers each call of `zcm_trans_recvmsg_enable` as `accepted` says.
-/

namespace Zcm.Nonblocking
open Zcm.Lib Zcm.Blocking
open Zcm.Lib.Regex (isWordChar)
open Zcm.Blocking.Subscriptions (Handler Enable isRegexChar copyChannel copyChannel_eq)

def subsMax : Nat := 512

structure Sub where
  channel : CString
  handler : Handler
deriving DecidableEq

structure Instance where
  subs : Mem Sub
  subInUse : Mem Bool
  subIsRegex : Mem Bool
  subInUseEnd : Nat

def isRegexChannel (c : CString) : Bool := c.chars.any isRegexChar

def isSupportedRegex (c : CString) : Bool :=
  if !isRegexChannel c then true
  else if c.strlen < 2 then false
  else if c.chars.getD (c.strlen - 1) 0 ≠ 0x2a then false
  else if c.chars.getD (c.strlen - 2) 0 ≠ 0x2e then false
  else (c.chars.take (c.strlen - 2)).all isWordChar

def shrink (subInUse : Mem Bool) : Nat → Nat
  | 0 => 0
  | n + 1 => if subInUse n then n + 1 else shrink subInUse n

namespace Instance

def create (subs : Mem Sub) (subIsRegex : Mem Bool) : Instance where
  subs := subs
  subInUse := fun _ => false
  subIsRegex := subIsRegex
  subInUseEnd := 0

def freeSlot (z : Instance) : Option Nat :=
  (List.range (min (z.subInUseEnd + 1) subsMax)).find? fun i => !z.subInUse i

def subscribe (z : Instance) (channel : CString) (handler : Handler) (accepted : Bool) :
    Instance × Option Nat × List Enable :=
  if !accepted then (z, none, [⟨channel, true⟩])
  else
    match z.freeSlot with
    | none => (z, none, [⟨channel, true⟩])
    | some i =>
        let stored := copyChannel channel
        let z := { z with
          subs := z.subs.set i ⟨stored, handler⟩
          subIsRegex := z.subIsRegex.set i (isRegexChannel stored) }
        if isRegexChannel stored && !isSupportedRegex stored then (z, none, [⟨channel, true⟩])
        else
          ({ z with
              subInUse := z.subInUse.set i true
              subInUseEnd := if i = z.subInUseEnd then z.subInUseEnd + 1 else z.subInUseEnd },
            some i, [⟨channel, true⟩])

def lastChanSub (z : Instance) (m : Nat) : Bool :=
  (List.range z.subInUseEnd).all fun i =>
    !(z.subInUse i && i != m && (z.subs m).channel.strncmp (z.subs i).channel channelMaxlen)

def unsubscribe (z : Instance) (sub : Int) (accepted : Bool) : Instance × Ret × List Enable :=
  if sub < 0 ∨ (z.subInUseEnd : Int) ≤ sub then (z, .einvalid, [])
  else if !z.subInUse sub.toNat then (z, .einvalid, [])
  else
    let subInUse := z.subInUse.set sub.toNat false
    let left := { z with subInUse := subInUse, subInUseEnd := shrink subInUse z.subInUseEnd }
    if z.lastChanSub sub.toNat then
      (left, if accepted then .eok else .einvalid, [⟨(z.subs sub.toNat).channel, false⟩])
    else (left, .eok, [])

def shouldDispatch (z : Instance) (channel : CString) (i : Nat) : Bool :=
  let sub := (z.subs i).channel
  if z.subIsRegex i then 2 ≤ sub.strlen && sub.strncmp channel (sub.strlen - 2)
  else sub.strncmp channel channelMaxlen

def dispatchMessage (z : Instance) (channel : CString) : List (Nat × Handler) :=
  ((List.range z.subInUseEnd).filter fun i => z.subInUse i && z.shouldDispatch channel i).map fun i =>
    (i, (z.subs i).handler)

/-- What every slot in use has: a place in the part of the table that is searched, a channel that fits,
and a flag that says what kind of channel it is. -/
structure Table (z : Instance) : Prop where
  bounded : z.subInUseEnd ≤ subsMax
  inside : ∀ i, z.subInUse i = true → i < z.subInUseEnd
  fits : ∀ i, z.subInUse i = true → (z.subs i).channel.chars.length ≤ channelMaxlen
  regex : ∀ i, z.subInUse i = true → z.subIsRegex i = isRegexChannel (z.subs i).channel
  supported : ∀ i, z.subInUse i = true → isSupportedRegex (z.subs i).channel = true

theorem create_table (subs : Mem Sub) (subIsRegex : Mem Bool) : (create subs subIsRegex).Table where
  bounded := Nat.zero_le _
  inside _ used := by cases used
  fits _ used := by cases used
  regex _ used := by cases used
  supported _ used := by cases used

section
variable {z : Instance} {i : Nat}

theorem freeSlot_some (h : z.freeSlot = some i) :
    i < subsMax ∧ i ≤ z.subInUseEnd ∧ z.subInUse i = false := by
  have member := List.mem_of_find?_eq_some h
  have free := List.find?_some h
  rw [List.mem_range] at member
  exact ⟨by omega, by omega, by simpa using free⟩

theorem freeSlot_isSome (table : z.Table) :
    z.freeSlot.isSome = true ↔ ∃ i, i < subsMax ∧ z.subInUse i = false := by
  constructor
  · intro found
    obtain ⟨i, found⟩ := Option.isSome_iff_exists.mp found
    exact ⟨i, (freeSlot_some found).1, (freeSlot_some found).2.2⟩
  · rintro ⟨i, inTable, free⟩
    rw [freeSlot, List.find?_isSome]
    by_cases early : i ≤ z.subInUseEnd
    · exact ⟨i, List.mem_range.mpr (by omega), by simpa using free⟩
    · -- the slot behind the searched part is free and still in the table
      refine ⟨z.subInUseEnd, List.mem_range.mpr (by omega), ?_⟩
      cases used : z.subInUse z.subInUseEnd with
      | false => rfl
      | true => exact absurd (table.inside _ used) (Nat.lt_irrefl _)

theorem copyChannel_length (channel : CString) : (copyChannel channel).chars.length ≤ channelMaxlen :=
  List.length_take_le ..

theorem isSupportedRegex_of_plain {c : CString} (plain : isRegexChannel c = false) : isSupportedRegex c = true := by
  simp [isSupportedRegex, plain]

/-- The table has a free slot and the channel, as it is stored, is literal or a supported pattern. -/
def Accepts (z : Instance) (channel : CString) : Prop :=
  (∃ i, i < subsMax ∧ z.subInUse i = false) ∧ isSupportedRegex (copyChannel channel) = true

/-- What a call of `zcm_nonblocking_subscribe` that the transport accepts does to the slots in use. -/
inductive Subscribed (z : Instance) (channel : CString) (handler : Handler) : Instance → Option Nat → Prop
  | refused {z' : Instance} (notAccepted : ¬ z.Accepts channel) (inUse : z'.subInUse = z.subInUse)
      (sameEnd : z'.subInUseEnd = z.subInUseEnd)
      (kept : ∀ i, z.subInUse i = true → z'.subs i = z.subs i ∧ z'.subIsRegex i = z.subIsRegex i) :
      Subscribed z channel handler z' none
  | stored {z' : Instance} {i : Nat} (accepted : z.Accepts channel) (inTable : i < subsMax)
      (free : z.subInUse i = false) (inUse : z'.subInUse = z.subInUse.set i true)
      (newEnd : z'.subInUseEnd = max z.subInUseEnd (i + 1))
      (sub : z'.subs i = ⟨copyChannel channel, handler⟩)
      (isRegex : z'.subIsRegex i = isRegexChannel (copyChannel channel))
      (kept : ∀ j, j ≠ i → z'.subs j = z.subs j ∧ z'.subIsRegex j = z.subIsRegex j) :
      Subscribed z channel handler z' (some i)

theorem subscribe_spec (table : z.Table) (channel : CString) (handler : Handler) :
    Subscribed z channel handler (z.subscribe channel handler true).1 (z.subscribe channel handler true).2.1 := by
  have room := freeSlot_isSome table
  unfold subscribe
  cases found : z.freeSlot with
  | none =>
      rw [found] at room
      exact .refused (fun accepted => by cases room.mpr accepted.1) rfl rfl fun i _ => ⟨rfl, rfl⟩
  | some i =>
      obtain ⟨inTable, early, free⟩ := freeSlot_some found
      have other : ∀ j, j ≠ i → (z.subs.set i ⟨copyChannel channel, handler⟩) j = z.subs j ∧
          (z.subIsRegex.set i (isRegexChannel (copyChannel channel))) j = z.subIsRegex j :=
        fun j ne => ⟨Mem.set_of_ne _ _ ne, Mem.set_of_ne _ _ ne⟩
      simp only [Bool.not_true, Bool.false_eq_true, if_false]
      split
      · next unsupported =>
          simp only [Bool.and_eq_true, Bool.not_eq_true'] at unsupported
          refine .refused (fun accepted => ?_) rfl rfl fun j used => other j ?_
          · rw [accepted.2] at unsupported
            cases unsupported.2
          · rintro rfl
            rw [free] at used
            cases used
      · next supported =>
          refine .stored ⟨⟨i, inTable, free⟩, ?_⟩ inTable free rfl ?_ (Mem.set_self ..) (Mem.set_self ..) other
          · cases regex : isRegexChannel (copyChannel channel) with
            | false => exact isSupportedRegex_of_plain regex
            | true => simpa [regex] using supported
          · dsimp only
            split <;> omega

theorem subscribed_table {channel : CString} {handler : Handler} {z' : Instance} {r : Option Nat}
    (table : z.Table) (h : Subscribed z channel handler z' r) : z'.Table := by
  cases h with
  | refused _ inUse sameEnd kept =>
      constructor
      · rw [sameEnd]
        exact table.bounded
      · intro i used
        rw [inUse] at used
        rw [sameEnd]
        exact table.inside i used
      all_goals
        intro i used
        rw [inUse] at used
        simp only [kept i used]
      · exact table.fits i used
      · exact table.regex i used
      · exact table.supported i used
  | @stored i accepted inTable free inUse newEnd sub isRegex kept =>
      have cases_ : ∀ j, z'.subInUse j = true → j = i ∨ j ≠ i ∧ z.subInUse j = true := by
        intro j used
        by_cases same : j = i
        · exact .inl same
        · rw [inUse, Mem.set_of_ne _ _ same] at used
          exact .inr ⟨same, used⟩
      constructor
      · have := table.bounded
        omega
      · intro j used
        rw [newEnd]
        rcases cases_ j used with rfl | ⟨-, used⟩
        · omega
        · have := table.inside j used
          omega
      all_goals
        intro j used
        rcases cases_ j used with rfl | ⟨ne, used⟩
      · rw [sub]
        exact copyChannel_length channel
      · rw [(kept j ne).1]
        exact table.fits j used
      · rw [sub, isRegex]
      · rw [(kept j ne).1, (kept j ne).2]
        exact table.regex j used
      · rw [sub]
        exact accepted.2
      · rw [(kept j ne).1]
        exact table.supported j used

theorem shrink_le (subInUse : Mem Bool) (n : Nat) : shrink subInUse n ≤ n := by
  induction n with
  | zero => exact Nat.le_refl _
  | succ n ih =>
      rw [shrink]
      split
      · exact Nat.le_refl _
      · omega

theorem lt_shrink {subInUse : Mem Bool} {n i : Nat} (lt : i < n) (used : subInUse i = true) :
    i < shrink subInUse n := by
  induction n with
  | zero => omega
  | succ n ih =>
      rw [shrink]
      split
      · exact lt
      · next free =>
          refine ih (Nat.lt_of_le_of_ne (Nat.le_of_lt_succ lt) ?_)
          rintro rfl
          exact free used

def Last (z : Instance) (m : Nat) : Prop :=
  ∀ i, z.subInUse i = true → (z.subs i).channel = (z.subs m).channel → i = m

theorem lastChanSub_iff (table : z.Table) {m : Nat} (used : z.subInUse m = true) :
    z.lastChanSub m = true ↔ z.Last m := by
  rw [lastChanSub, List.all_eq_true]
  constructor
  · intro last i usedToo same
    have := last i (List.mem_range.mpr (table.inside i usedToo))
    by_contra ne
    have equal := (CString.strncmp_iff_eq (table.fits m used) (table.fits i usedToo)).mpr same.symm
    simp [usedToo, ne, equal] at this
  · intro last i _
    simp only [Bool.not_eq_true', Bool.and_eq_false_iff]
    cases usedToo : z.subInUse i with
    | false => exact .inl (.inl rfl)
    | true =>
        by_cases same : i = m
        · exact .inl (.inr (by simpa using same))
        · refine .inr (Bool.eq_false_iff.mpr fun equal => same (last i usedToo ?_))
          exact ((CString.strncmp_iff_eq (table.fits m used) (table.fits i usedToo)).mp equal).symm

inductive Unsubscribed (z : Instance) : Instance → List Enable → Prop
  | invalid : Unsubscribed z z []
  | freed {z' : Instance} {told : List Enable} (m : Nat) (used : z.subInUse m = true) (subs : z'.subs = z.subs)
      (isRegex : z'.subIsRegex = z.subIsRegex) (inUse : z'.subInUse = z.subInUse.set m false)
      (shorter : z'.subInUseEnd ≤ z.subInUseEnd) (inside : ∀ i, z'.subInUse i = true → i < z'.subInUseEnd)
      (tells : z.Last m ∧ told = [⟨(z.subs m).channel, false⟩] ∨ ¬ z.Last m ∧ told = []) :
      Unsubscribed z z' told

theorem unsubscribe_spec (table : z.Table) (sub : Int) (accepted : Bool) :
    Unsubscribed z (z.unsubscribe sub accepted).1 (z.unsubscribe sub accepted).2.2 := by
  unfold unsubscribe
  split
  · exact .invalid
  split
  · exact .invalid
  next outside unused =>
  have used : z.subInUse sub.toNat = true := by simpa using unused
  have last := lastChanSub_iff table used
  have inside : ∀ i, (z.subInUse.set sub.toNat false) i = true →
      i < shrink (z.subInUse.set sub.toNat false) z.subInUseEnd := by
    intro i usedToo
    refine lt_shrink (table.inside i ?_) usedToo
    by_cases same : i = sub.toNat
    · rw [same, Mem.set_self] at usedToo
      cases usedToo
    · rwa [Mem.set_of_ne _ _ same] at usedToo
  dsimp only
  split
  · next isLast => exact .freed sub.toNat used rfl rfl rfl (shrink_le ..) inside (.inl ⟨last.mp isLast, rfl⟩)
  · next notLast =>
      exact .freed sub.toNat used rfl rfl rfl (shrink_le ..) inside
        (.inr ⟨fun isLast => notLast (last.mpr isLast), rfl⟩)

theorem unsubscribed_table {z' : Instance} {told : List Enable} (table : z.Table) (h : Unsubscribed z z' told) :
    z'.Table := by
  cases h with
  | invalid => exact table
  | freed m _ subs isRegex inUse shorter inside _ =>
      have before : ∀ i, z'.subInUse i = true → z.subInUse i = true := by
        intro i used
        rw [inUse] at used
        by_cases same : i = m
        · rw [same, Mem.set_self] at used
          cases used
        · rwa [Mem.set_of_ne _ _ same] at used
      constructor
      · exact shorter.trans table.bounded
      · exact inside
      all_goals
        intro i used
        simp only [subs, isRegex]
      · exact table.fits i (before i used)
      · exact table.regex i (before i used)
      · exact table.supported i (before i used)

end
end Instance
end Zcm.Nonblocking
