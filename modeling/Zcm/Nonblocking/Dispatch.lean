import Zcm.Nonblocking.Enabled

namespace Zcm.Nonblocking
open Zcm.Lib Zcm.Blocking
open Zcm.Lib.Regex (isWordChar isLineTerminator IsEcmaScript)
open Zcm.Blocking.Subscriptions (Handle Handler Registry Subscription Matches)

theorem isSupportedRegex_cases {c : CString} (regex : isRegexChannel c = true) (supported : isSupportedRegex c = true) :
    ∃ stem : List Byte, c.chars = stem ++ [0x2e, 0x2a] ∧ ∀ x ∈ stem, isWordChar x = true := by
  unfold isSupportedRegex at supported
  rw [regex] at supported
  split at supported
  · next absurd => cases absurd
  split at supported
  · cases supported
  next long =>
  split at supported
  · cases supported
  next star =>
  split at supported
  · cases supported
  next dot =>
  unfold CString.strlen at long star dot supported
  have split_ : c.chars = c.chars.take (c.chars.length - 2) ++ c.chars.drop (c.chars.length - 2) :=
    (List.take_append_drop ..).symm
  have tail : c.chars.drop (c.chars.length - 2) = [0x2e, 0x2a] := by
    have first : c.chars.length - 2 < c.chars.length := by omega
    have second : c.chars.length - 2 + 1 = c.chars.length - 1 := by omega
    have last : c.chars.length - 1 < c.chars.length := by omega
    rw [List.drop_eq_getElem_cons first, second, List.drop_eq_getElem_cons last, List.drop_of_length_le (by omega)]
    rw [List.getD_eq_getElem?_getD, List.getElem?_eq_getElem last, Option.getD_some, ne_eq, not_not] at star
    rw [List.getD_eq_getElem?_getD, List.getElem?_eq_getElem first, Option.getD_some, ne_eq, not_not] at dot
    rw [star, dot]
  refine ⟨_, split_.trans (by rw [tail]), ?_⟩
  exact List.all_eq_true.mp supported

theorem regexMatch_supported {regexMatch : CString → CString → Bool} (ecma : IsEcmaScript regexMatch)
    {pattern channel : CString} {stem : List Byte} (text : pattern.chars = stem ++ [0x2e, 0x2a])
    (word : ∀ x ∈ stem, isWordChar x = true) (oneLine : ∀ x ∈ channel.chars, isLineTerminator x = false) :
    regexMatch pattern channel = true ↔ stem <+: channel.chars := by
  rw [ecma (Regex.literals stem ++ [⟨.dot, true⟩]) pattern channel ?_ ?_, Regex.wholeMatch_prefix]
  · constructor
    · rintro ⟨rest, split_, -⟩
      exact ⟨rest, split_.symm⟩
    · rintro ⟨rest, split_⟩
      refine ⟨rest, split_.symm, fun x member => oneLine x ?_⟩
      rw [← split_]
      exact List.mem_append_right _ member
  · intro t member
    rcases List.mem_append.mp member with member | member
    · obtain ⟨x, inStem, rfl⟩ := List.mem_map.mp member
      exact word x inStem
    · rw [List.mem_singleton.mp member]
      trivial
  · rw [text, List.flatMap_append, Regex.literals_text]
    rfl

namespace Instance
variable {z : Instance} {regexMatch : CString → CString → Bool} {channel : CString}

theorem shouldDispatch_iff (table : z.Table) (ecma : IsEcmaScript regexMatch) {i : Nat} (used : z.subInUse i = true)
    (short : channel.chars.length ≤ channelMaxlen) (oneLine : ∀ x ∈ channel.chars, isLineTerminator x = false) :
    z.shouldDispatch channel i = true ↔ Matches regexMatch (z.subs i).channel channel := by
  have fits := table.fits i used
  have supported := table.supported i used
  unfold shouldDispatch Matches
  rw [table.regex i used]
  change _ ↔ if isRegexChannel (z.subs i).channel = true then _ else _
  cases regex : isRegexChannel (z.subs i).channel with
  | false => simpa using CString.strncmp_iff_eq fits short
  | true =>
      obtain ⟨stem, text, word⟩ := isSupportedRegex_cases regex supported
      have length : (z.subs i).channel.strlen = stem.length + 2 := by simp [CString.strlen, text]
      simp only [if_true, Bool.and_eq_true, decide_eq_true_eq, length, Nat.add_sub_cancel, CString.strncmp_iff,
        regexMatch_supported ecma text word oneLine]
      rw [text, List.take_left, List.prefix_iff_eq_take]
      exact and_iff_right (Nat.le_add_left ..)

theorem mem_dispatchMessage (table : z.Table) (ecma : IsEcmaScript regexMatch)
    (short : channel.chars.length ≤ channelMaxlen) (oneLine : ∀ x ∈ channel.chars, isLineTerminator x = false)
    (i : Nat) (handler : Handler) : (i, handler) ∈ z.dispatchMessage channel ↔
      z.subInUse i = true ∧ (z.subs i).handler = handler ∧ Matches regexMatch (z.subs i).channel channel := by
  simp only [dispatchMessage, List.mem_map, List.mem_filter, List.mem_range, Bool.and_eq_true, Prod.mk.injEq]
  constructor
  · rintro ⟨_, ⟨-, used, should⟩, rfl, same⟩
    exact ⟨used, same, (shouldDispatch_iff table ecma used short oneLine).mp should⟩
  · rintro ⟨used, same, matched⟩
    exact ⟨i, ⟨table.inside i used, used, (shouldDispatch_iff table ecma used short oneLine).mpr matched⟩, rfl,
      same⟩

theorem nodup_dispatchMessage (z : Instance) (channel : CString) :
    ((z.dispatchMessage channel).map Prod.fst).Nodup := by
  rw [dispatchMessage, List.map_map]
  exact ((List.nodup_range).filter _).map fun _ _ => id

end Instance

/-- `handleOf` takes the slots in use to the live handles, each with its channel and callback. -/
structure SameSubscriptions (z : Instance) (live : Handle → Option Subscription)
    (handleOf : Nat → Handle) : Prop where
  distinct : ∀ i j, z.subInUse i = true → z.subInUse j = true → handleOf i = handleOf j → i = j
  stored : ∀ i, z.subInUse i = true → live (handleOf i) = some ⟨(z.subs i).channel, (z.subs i).handler⟩
  used : ∀ handle sub, live handle = some sub → ∃ i, z.subInUse i = true ∧ handleOf i = handle

/-- A subscribe that both instances take: the channel fits and is literal or a supported pattern. -/
def IsSupported : Subscriptions.Event → Prop
  | .subscribe channel .. => channel.chars.length ≤ channelMaxlen ∧ isSupportedRegex channel = true
  | _ => True

/-- Whatever calls made the same subscriptions on both sides, a message leads to the same calls of
callbacks, each of them once. -/
theorem dispatch_agrees {regexMatch : CString → CString → Bool} {regexValid : CString → Bool}
    (ecma : IsEcmaScript regexMatch)
    (compiles : ∀ c, isRegexChannel c = true → isSupportedRegex c = true → regexValid c = true)
    (subs : Mem Sub) (subIsRegex : Mem Bool) (calls : List Event) {s : Endpoint}
    (nonblocking : (Endpoint.create subs subIsRegex).run calls = some s)
    (events : List Subscriptions.Event) (supported : ∀ e ∈ events, IsSupported e) {r : Registry}
    (blocking : Registry.empty.run regexMatch regexValid events = some r) {handleOf : Nat → Handle}
    (same : SameSubscriptions s.zcm (Subscriptions.live events) handleOf) {channel : CString}
    (short : channel.chars.length ≤ channelMaxlen) (oneLine : ∀ x ∈ channel.chars, isLineTerminator x = false) :
    ∃ invoked, r.dispatchMsg regexMatch channel = some (r, .dispatched invoked) ∧
      (invoked.map Prod.fst).Nodup ∧ ((s.zcm.dispatchMessage channel).map Prod.fst).Nodup ∧
      ((s.zcm.dispatchMessage channel).map fun call => (handleOf call.1, call.2)).Perm invoked := by
  have table : s.zcm.Table := @Runs.run_invariant _ _ Endpoint.next (fun _ _ => True) (fun s => s.zcm.Table)
    (fun _ _ _ table _ steps => Endpoint.next_table table steps) _ _ (Instance.create_table subs subIsRegex)
    (Runs.meets_of_forall (fun _ _ _ => trivial) _) _ (List.prefix_refl _) _ nonblocking
  have consistent : r.Consistent (Subscriptions.live events) := by
    refine Registry.run_of_consistent (fun e member => ?_) (fun e member => ?_) Registry.consistent_empty blocking
    all_goals
      have := supported e member
      cases e
    case subscribe => exact fun regex => compiles _ regex this.2
    case subscribe => exact this.1
    all_goals trivial
  obtain ⟨invoked, dispatches, once, mem_invoked⟩ :=
    @Registry.dispatchMsg_of_tables regexMatch r _ consistent.tables channel
  refine ⟨invoked, dispatches, once, Instance.nodup_dispatchMessage s.zcm channel, ?_⟩
  have mem := @Instance.mem_dispatchMessage s.zcm regexMatch channel table ecma short oneLine
  refine (List.perm_ext_iff_of_nodup ?_ once.of_map).mpr ?_
  · refine (Instance.nodup_dispatchMessage s.zcm channel).of_map.map_on ?_
    rintro ⟨i, hi⟩ memberI ⟨j, hj⟩ memberJ equal
    simp only [Prod.mk.injEq] at equal
    obtain rfl := same.distinct i j ((mem i hi).mp memberI).1 ((mem j hj).mp memberJ).1 equal.1
    rw [equal.2]
  · rintro ⟨handle, handler⟩
    rw [mem_invoked, List.mem_map]
    constructor
    · rintro ⟨⟨i, _⟩, member, equal⟩
      obtain ⟨rfl, rfl⟩ := Prod.mk.injEq .. ▸ equal
      obtain ⟨used, rfl, matched⟩ := (mem i _).mp member
      exact ⟨_, same.stored i used, matched⟩
    · rintro ⟨asked, found, matched⟩
      obtain ⟨i, used, rfl⟩ := same.used handle _ found
      have stored := same.stored i used
      rw [found] at stored
      obtain ⟨rfl, rfl⟩ := Subscription.mk.injEq .. ▸ Option.some.inj stored
      exact ⟨(i, _), (mem i _).mpr ⟨used, rfl, matched⟩, rfl⟩

def anyA : CString := ⟨[0x41, 0x2e, 0x2a], by decide⟩

def onlyA : CString := .ofBytes [0x41]

def startsWithA : CString := ⟨[0x41, 0x42], by decide⟩

theorem dispatch_agrees_on_prefix : ∃ r invoked,
    Registry.empty.run Regex.regexMatch (fun _ => true)
      [Subscriptions.Event.subscribe onlyA ⟨1, 0⟩ true ⟨false, true, 7⟩,
        Subscriptions.Event.subscribe anyA ⟨2, 0⟩ true ⟨false, true, 9⟩] = some r ∧
      r.dispatchMsg Regex.regexMatch startsWithA = some (r, .dispatched invoked) ∧
      [(9, (⟨2, 0⟩ : Handler))].Perm invoked := by
  have same : SameSubscriptions
      (((Instance.create (fun _ => ⟨onlyA, ⟨0, 0⟩⟩) fun _ => false).subscribe onlyA ⟨1, 0⟩ true).1.subscribe
        anyA ⟨2, 0⟩ true).1
      (Subscriptions.live [Subscriptions.Event.subscribe onlyA ⟨1, 0⟩ true ⟨false, true, 7⟩,
        Subscriptions.Event.subscribe anyA ⟨2, 0⟩ true ⟨false, true, 9⟩]) fun i => 7 + 2 * i := by
    constructor
    · intro i j _ _ equal
      have equal : 7 + 2 * i = 7 + 2 * j := equal
      omega
    · intro i used
      match i with
      | 0 => rfl
      | 1 => rfl
      | i + 2 => cases used
    · intro handle sub found
      simp only [Subscriptions.live, List.foldl_cons, List.foldl_nil, Subscriptions.liveAfter,
        Subscriptions.getsLocks, Bool.true_or, Bool.and_self, if_true] at found
      by_cases second : handle = 9
      · exact ⟨1, rfl, second.symm⟩
      · rw [Function.update_of_ne second] at found
        by_cases first : handle = 7
        · exact ⟨0, rfl, first.symm⟩
        · rw [Function.update_of_ne first] at found
          cases found
  have supported : ∀ e ∈ [Subscriptions.Event.subscribe onlyA ⟨1, 0⟩ true ⟨false, true, 7⟩,
      Subscriptions.Event.subscribe anyA ⟨2, 0⟩ true ⟨false, true, 9⟩], IsSupported e := by
    intro e member
    rcases List.mem_pair.mp member with rfl | rfl
    · exact ⟨by decide, by decide⟩
    · exact ⟨by decide, by decide⟩
  obtain ⟨invoked, dispatches, -, -, agrees⟩ := dispatch_agrees Regex.regexMatch_isEcmaScript
    (fun _ _ _ => rfl) (fun _ => ⟨onlyA, ⟨0, 0⟩⟩) (fun _ => false)
    [.subscribe onlyA ⟨1, 0⟩, .subscribe anyA ⟨2, 0⟩] rfl _ supported rfl same
    (by decide : startsWithA.chars.length ≤ channelMaxlen) (by decide)
  exact ⟨_, invoked, rfl, dispatches, agrees⟩

end Zcm.Nonblocking
