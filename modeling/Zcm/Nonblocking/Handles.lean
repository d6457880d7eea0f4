import Zcm.Nonblocking.Dispatch

namespace Zcm.Nonblocking
open Zcm.Lib Zcm.Blocking
open Zcm.Blocking.Subscriptions (Handler copyChannel)

inductive Call
  | subscribe (channel : CString) (handler : Handler) (accepted : Bool)
  | unsubscribe (sub : Int) (accepted : Bool)
  | dispatch (channel : CString)

structure Session where
  zcm : Instance
  live : List (Nat × Sub)

/-- What a subscription asks for and a message has: the same channel, or a prefix of it. The name of a literal
subscription and that of the message are compared as far as a channel may go. -/
def Wants (asked channel : CString) : Prop :=
  if isRegexChannel asked then ∃ stem : List Byte, asked.chars = stem ++ [0x2e, 0x2a] ∧ stem <+: channel.chars
  else asked.chars = channel.chars.take channelMaxlen

def IsEnd (subInUse : Mem Bool) (n : Nat) : Prop :=
  (∀ i, subInUse i = true → i < n) ∧ (0 < n → subInUse (n - 1) = true)

section
variable {z : Instance}

theorem shrink_used (subInUse : Mem Bool) {n : Nat} (pos : 0 < shrink subInUse n) :
    subInUse (shrink subInUse n - 1) = true := by
  induction n with
  | zero => cases pos
  | succ n ih =>
      rw [shrink] at pos ⊢
      split at pos
      · next used =>
        rw [if_pos used]
        exact used
      · next free =>
        rw [if_neg free]
        exact ih pos

theorem unsubscribe_fst (z : Instance) (sub : Int) (accepted : Bool) : (z.unsubscribe sub accepted).1 =
    if 0 ≤ sub ∧ sub < z.subInUseEnd ∧ z.subInUse sub.toNat = true then
      { z with
        subInUse := z.subInUse.set sub.toNat false
        subInUseEnd := shrink (z.subInUse.set sub.toNat false) z.subInUseEnd }
    else z := by
  unfold Instance.unsubscribe
  by_cases outside : sub < 0 ∨ (z.subInUseEnd : Int) ≤ sub
  · rw [if_pos outside, if_neg fun inside => by omega]
  cases used : z.subInUse sub.toNat with
  | false => simp [outside]
  | true =>
      have inside : 0 ≤ sub ∧ sub < z.subInUseEnd ∧ true = true := ⟨by omega, by omega, rfl⟩
      rw [if_neg outside, Bool.not_true, if_neg Bool.false_ne_true, if_pos inside]
      dsimp only
      split <;> rfl

theorem shouldDispatch_iff_wants (table : z.Table) {i : Nat} (used : z.subInUse i = true) (channel : CString) :
    z.shouldDispatch channel i = true ↔ Wants (z.subs i).channel channel := by
  unfold Instance.shouldDispatch Wants
  rw [table.regex i used]
  dsimp only
  cases regex : isRegexChannel (z.subs i).channel with
  | false =>
      simp only [Bool.false_eq_true, if_false, CString.strncmp_iff]
      rw [List.take_of_length_le (table.fits i used)]
  | true =>
      obtain ⟨stem, text, -⟩ := isSupportedRegex_cases regex (table.supported i used)
      have length : (z.subs i).channel.strlen = stem.length + 2 := by simp [CString.strlen, text]
      simp only [if_true, Bool.and_eq_true, decide_eq_true_eq, length, Nat.add_sub_cancel, CString.strncmp_iff]
      rw [text, List.take_left]
      constructor
      · rintro ⟨-, same⟩
        exact ⟨stem, rfl, List.prefix_iff_eq_take.mpr same⟩
      · rintro ⟨stem', same, starts⟩
        obtain rfl := List.append_cancel_right same
        exact ⟨Nat.le_add_left .., List.prefix_iff_eq_take.mp starts⟩

end

namespace Session

def create (subs : Mem Sub) (subIsRegex : Mem Bool) : Session := ⟨.create subs subIsRegex, []⟩

def next (s : Session) : Call → Session
  | .subscribe channel handler accepted =>
      let r := s.zcm.subscribe channel handler accepted
      match r.2.1 with
      | some handle => ⟨r.1, (handle, ⟨copyChannel channel, handler⟩) :: s.live⟩
      | none => ⟨r.1, s.live⟩
  | .unsubscribe sub accepted =>
      ⟨(s.zcm.unsubscribe sub accepted).1, s.live.filter fun entry => (entry.1 : Int) ≠ sub⟩
  | .dispatch _ => s

def run (s : Session) (calls : List Call) : Session := calls.foldl next s

structure Exact (s : Session) : Prop where
  table : s.zcm.Table
  isEnd : IsEnd s.zcm.subInUse s.zcm.subInUseEnd
  nodup : (s.live.map Prod.fst).Nodup
  live_iff : ∀ handle sub, (handle, sub) ∈ s.live ↔ s.zcm.subInUse handle = true ∧ s.zcm.subs handle = sub

variable {s : Session}

theorem create_exact (subs : Mem Sub) (subIsRegex : Mem Bool) : (create subs subIsRegex).Exact where
  table := Instance.create_table subs subIsRegex
  isEnd := ⟨fun _ used => Bool.noConfusion used, fun pos => absurd pos (Nat.lt_irrefl 0)⟩
  nodup := List.nodup_nil
  live_iff handle sub := by simp [create, Instance.create]

theorem Exact.subscribe (exact_ : s.Exact) (channel : CString) (handler : Handler) (accepted : Bool) :
    (s.next (.subscribe channel handler accepted)).Exact := by
  cases accepted with
  | false => exact exact_
  | true =>
      have spec := Instance.subscribe_spec exact_.table channel handler
      have table := Instance.subscribed_table exact_.table spec
      unfold next
      dsimp only
      generalize (s.zcm.subscribe channel handler true).1 = zcm at spec table ⊢
      generalize (s.zcm.subscribe channel handler true).2.1 = returned at spec ⊢
      cases spec with
      | refused _ inUse sameEnd kept =>
          refine ⟨table, ?_, exact_.nodup, fun handle sub => ?_⟩
          · rw [inUse, sameEnd]
            exact exact_.isEnd
          · rw [exact_.live_iff, inUse]
            exact and_congr_right fun used => by rw [(kept handle used).1]
      | @stored i _ _ free inUse newEnd sub isRegex kept =>
          have unused : ∀ sub, (i, sub) ∉ s.live := by
            intro sub member
            have used := ((exact_.live_iff i sub).mp member).1
            rw [free] at used
            cases used
          refine ⟨table, ⟨table.inside, fun _ => ?_⟩, ?_, fun handle sub' => ?_⟩
          · rw [newEnd, inUse]
            by_cases last : s.zcm.subInUseEnd ≤ i + 1
            · rw [Nat.max_eq_right last]
              exact Mem.set_self ..
            · rw [Nat.max_eq_left (by omega), Mem.set_of_ne _ _ (by omega)]
              exact exact_.isEnd.2 (by omega)
          · refine List.nodup_cons.mpr ⟨fun member => ?_, exact_.nodup⟩
            obtain ⟨⟨handle, sub'⟩, live, same⟩ := List.mem_map.mp member
            obtain rfl : handle = i := same
            exact unused sub' live
          · rw [List.mem_cons, Prod.mk.injEq, exact_.live_iff]
            by_cases same : handle = i
            · subst same
              rw [inUse, Mem.set_self, free, sub]
              simp [eq_comm]
            · rw [inUse, Mem.set_of_ne _ _ same, (kept handle same).1]
              simp [same]

theorem Exact.unsubscribe (exact_ : s.Exact) (sub : Int) (accepted : Bool) :
    (s.next (.unsubscribe sub accepted)).Exact := by
  have table := Instance.unsubscribed_table exact_.table (Instance.unsubscribe_spec exact_.table sub accepted)
  have nodup : ((s.live.filter fun entry => (entry.1 : Int) ≠ sub).map Prod.fst).Nodup :=
    exact_.nodup.sublist (List.filter_sublist.map _)
  unfold next
  dsimp only
  rw [unsubscribe_fst] at table ⊢
  by_cases found : 0 ≤ sub ∧ sub < s.zcm.subInUseEnd ∧ s.zcm.subInUse sub.toNat = true
  · rw [if_pos found] at table ⊢
    refine ⟨table, ⟨table.inside, shrink_used _⟩, nodup, fun handle sub' => ?_⟩
    simp only [List.mem_filter, exact_.live_iff, ne_eq, decide_not, Bool.not_eq_true', decide_eq_false_iff_not]
    by_cases same : handle = sub.toNat
    · have equal : (handle : Int) = sub := by omega
      rw [same, Mem.set_self]
      simp [← same, equal]
    · have different : (handle : Int) ≠ sub := by omega
      rw [Mem.set_of_ne _ _ same]
      simp [different]
  · rw [if_neg found] at table ⊢
    -- No slot in use has this place, so there was no such handle either.
    refine ⟨table, exact_.isEnd, nodup, fun handle sub' => ?_⟩
    simp only [List.mem_filter, exact_.live_iff, ne_eq, decide_not, Bool.not_eq_true', decide_eq_false_iff_not]
    refine and_iff_left_of_imp fun live equal => found ?_
    have inside := exact_.table.inside handle live.1
    have place : sub.toNat = handle := by omega
    exact ⟨by omega, by omega, by rw [place]; exact live.1⟩

theorem Exact.next (exact_ : s.Exact) (call : Call) : (s.next call).Exact := by
  cases call with
  | subscribe channel handler accepted => exact exact_.subscribe channel handler accepted
  | unsubscribe sub accepted => exact exact_.unsubscribe sub accepted
  | dispatch channel => exact exact_

theorem Exact.run (exact_ : s.Exact) (calls : List Call) : (s.run calls).Exact := by
  induction calls generalizing s with
  | nil => exact exact_
  | cons call calls ih => exact ih (exact_.next call)

/-- `subscribe` returns no handle only if the transport or the pattern is the reason, or all slots are in use. -/
theorem Exact.full (exact_ : s.Exact) {channel : CString} {handler : Handler} {accepted : Bool}
    (refused : (s.zcm.subscribe channel handler accepted).2.1 = none) :
    accepted = false ∨ isSupportedRegex (copyChannel channel) = false ∨
      ∀ i < subsMax, s.zcm.subInUse i = true := by
  cases accepted with
  | false => exact .inl rfl
  | true =>
      have spec := Instance.subscribe_spec exact_.table channel handler
      rw [refused] at spec
      cases spec with
      | refused notAccepted _ _ _ =>
          refine .inr ?_
          cases supported : isSupportedRegex (copyChannel channel) with
          | false => exact .inl rfl
          | true =>
              refine .inr fun i inTable => ?_
              by_contra free
              exact notAccepted ⟨⟨i, inTable, by simpa using free⟩, supported⟩

theorem Exact.dispatch (exact_ : s.Exact) (channel : CString) :
    ((s.zcm.dispatchMessage channel).map Prod.fst).Nodup ∧ ∀ handle handler,
      (handle, handler) ∈ s.zcm.dispatchMessage channel ↔
        ∃ asked, (handle, ⟨asked, handler⟩) ∈ s.live ∧ Wants asked channel := by
  refine ⟨Instance.nodup_dispatchMessage s.zcm channel, fun handle handler => ?_⟩
  simp only [Instance.dispatchMessage, List.mem_map, List.mem_filter, List.mem_range, Bool.and_eq_true, Prod.mk.injEq,
    exact_.live_iff]
  constructor
  · rintro ⟨_, ⟨-, used, should⟩, rfl, rfl⟩
    exact ⟨_, ⟨used, rfl⟩, (shouldDispatch_iff_wants exact_.table used channel).mp should⟩
  · rintro ⟨asked, ⟨used, stored⟩, wants⟩
    refine ⟨handle, ⟨exact_.table.inside handle used, used, ?_⟩, rfl, by rw [stored]⟩
    rw [shouldDispatch_iff_wants exact_.table used, stored]
    exact wants

/-- After any calls: the end is behind the last slot in use; the live handles are distinct and are the slots in use,
each still with what was subscribed; `subscribe` fails for lack of room only if all slots are in use; and a message
goes once to each live handle that wants it. -/
theorem run_exact (subs : Mem Sub) (subIsRegex : Mem Bool) (calls : List Call) :
    let s := (create subs subIsRegex).run calls
    IsEnd s.zcm.subInUse s.zcm.subInUseEnd ∧
      (s.live.map Prod.fst).Nodup ∧
      (∀ handle sub, (handle, sub) ∈ s.live ↔ s.zcm.subInUse handle = true ∧ s.zcm.subs handle = sub) ∧
      (∀ channel handler accepted, (s.zcm.subscribe channel handler accepted).2.1 = none →
        accepted = false ∨ isSupportedRegex (copyChannel channel) = false ∨
          ∀ i < subsMax, s.zcm.subInUse i = true) ∧
      ∀ channel, ((s.zcm.dispatchMessage channel).map Prod.fst).Nodup ∧ ∀ handle handler,
        (handle, handler) ∈ s.zcm.dispatchMessage channel ↔
          ∃ asked, (handle, ⟨asked, handler⟩) ∈ s.live ∧ Wants asked channel := by
  have exact_ := (create_exact subs subIsRegex).run calls
  exact ⟨exact_.isEnd, exact_.nodup, exact_.live_iff, fun channel handler accepted => exact_.full, exact_.dispatch⟩

end Session

end Zcm.Nonblocking
