import Zcm.Blocking.Subscriptions

namespace Zcm.Blocking.Subscriptions
open Zcm.Lib

/-- `subscribe` stores the object under this channel, which is no pattern. -/
def Event.Stores (asked : CString) : Event → Prop
  | .subscribe channel _ block env =>
      channel = asked ∧ isRegexChannel asked = false ∧ getsLocks block env = true ∧ env.accepted = true
  | _ => False

def WithinMax (sub : Subscription) : Bool := sub.channel.chars.length ≤ channelMaxlen

/-- The subscriptions in the tables. A pattern that is no regular expression does not get there, and a
subscription whose channel was cut off in its object is not found again. -/
def registeredAfter (regexValid : CString → Bool) (registered : Handle → Option Subscription) : Event →
    Handle → Option Subscription
  | .subscribe channel handler block env =>
      if getsLocks block env && env.accepted && (!isRegexChannel channel || regexValid channel) then
        Function.update registered env.address (some ⟨channel, handler⟩)
      else registered
  | .unsubscribe handle block env =>
      if getsLocks block env && (registered handle).any WithinMax then Function.update registered handle none
      else registered
  | .dispatch _ => registered

def registered (regexValid : CString → Bool) (es : List Event) : Handle → Option Subscription :=
  es.foldl (registeredAfter regexValid) fun _ => none

namespace Registry

variable {regexMatch : CString → CString → Bool} {regexValid : CString → Bool} {r r' : Registry}
  {registered : Handle → Option Subscription} {reply : Reply}

/-- The filter lets a message on this channel through just if the dispatch would invoke a subscription for it. -/
def Agrees (regexMatch : CString → CString → Bool) (r : Registry) (channel : CString) : Prop :=
  ∃ pushed invoked, r.wants regexMatch channel = some pushed ∧
    r.dispatchMsg regexMatch channel = some (r, .dispatched invoked) ∧ (pushed = true ↔ invoked ≠ [])

theorem tables_empty : empty.Tables fun _ => none := consistent_empty.tables

theorem subscribe_tables (tables : r.Tables registered) {channel : CString} {handler : Handler} {block : Bool}
    {env : Env}
    (subscribes : r.subscribe regexValid channel handler block env = some (r', reply)) :
    r'.Tables (registeredAfter regexValid registered (.subscribe channel handler block env)) := by
  unfold subscribe at subscribes
  dsimp only [registeredAfter]
  cases locks : getsLocks block env with
  | false =>
      rw [locks] at subscribes
      cases subscribes
      exact tables
  | true =>
  cases accepted : env.accepted with
  | false =>
      rw [locks, accepted] at subscribes
      cases subscribes
      exact tables
  | true =>
  rw [locks, accepted] at subscribes
  simp only [Bool.not_true, Bool.false_eq_true, if_false] at subscribes
  split at subscribes
  · cases subscribes
  next fresh =>
  have fresh : r.memory env.address = none := by simpa using fresh
  cases pattern : isRegexChannel channel && !regexValid channel with
  | true =>
      -- The object is lost: no table and no handle leads to it.
      have thrown : ((newSub channel handler).regex && !regexValid channel) = true := pattern
      rw [if_pos thrown] at subscribes
      cases subscribes
      rw [if_neg (by simpa using pattern)]
      refine ⟨fun handle sub used => ?_, tables.nodup, tables.listed⟩
      have there := tables.objects handle sub used
      have different : handle ≠ env.address := by
        rintro rfl
        rw [fresh] at there
        cases there
      exact (Function.update_of_ne different ..).trans there
  | false =>
      have kept : ((newSub channel handler).regex && !regexValid channel) = false := pattern
      rw [kept] at subscribes
      cases subscribes
      rw [if_pos (by cases h : isRegexChannel channel <;> simp_all)]
      have stored := @Tables.subscribed r registered channel handler env.address tables fresh
      cases regex : isRegexChannel channel <;> simpa [newSub, regex, setSelected, selected, listOf] using stored

theorem unsubscribe_unfound (tables : r.Tables registered) {handle : Handle} {block : Bool} {env : Env}
    (unfound : (registered handle).any WithinMax = false)
    (unsubscribes : r.unsubscribe handle block env = some (r', reply)) : r' = r := by
  unfold unsubscribe at unsubscribes
  split at unsubscribes
  · cases unsubscribes
    rfl
  obtain ⟨sub, object, result⟩ := Option.map_eq_some_iff.mp unsubscribes
  cases listed : (r.selected sub.regex).lookup sub.channel with
  | none =>
      rw [listed] at result
      cases result
      rfl
  | some slist =>
      by_cases member : handle ∈ slist
      · -- It is listed under the channel in its object, so nothing was cut off of that.
        have listed : handle ∈ r.listOf sub.regex sub.channel := by
          rw [listOf, listed]
          exact member
        obtain ⟨-, handler, used⟩ := (tables.listed sub.regex sub.channel handle).mp listed
        have same := tables.objects handle _ used
        rw [object] at same
        have copied : sub.channel = copyChannel sub.channel := congrArg Sub.channel (Option.some.inj same)
        have short : sub.channel.chars.length ≤ channelMaxlen := by
          rw [copied]
          exact List.length_take_le ..
        rw [used] at unfound
        simp [WithinMax, short] at unfound
      · have kept : deleteFromSubList slist handle = none := if_neg member
        rw [listed] at result
        simp only [kept] at result
        cases result
        rfl

theorem unsubscribe_tables (tables : r.Tables registered) {handle : Handle} {block : Bool} {env : Env}
    (unsubscribes : r.unsubscribe handle block env = some (r', reply)) :
    r'.Tables (registeredAfter regexValid registered (.unsubscribe handle block env)) := by
  dsimp only [registeredAfter]
  cases locks : getsLocks block env with
  | false =>
      rw [unsubscribe, locks] at unsubscribes
      cases unsubscribes
      exact tables
  | true =>
  cases found : (registered handle).any WithinMax with
  | false =>
      rw [unsubscribe_unfound tables found unsubscribes]
      exact tables
  | true =>
      cases used : registered handle with
      | none =>
          rw [used] at found
          cases found
      | some sub =>
          obtain ⟨channel, handler⟩ := sub
          rw [used] at found
          have short : channel.chars.length ≤ channelMaxlen := by simpa [WithinMax] using found
          rw [unsubscribe_of_live tables used short locks] at unsubscribes
          cases unsubscribes
          exact tables.unsubscribed used

theorem next_tables (tables : r.Tables registered) {e : Event}
    (steps : r.next regexMatch regexValid e = some (r', reply)) :
    r'.Tables (registeredAfter regexValid registered e) := by
  cases e with
  | subscribe channel handler block env => exact subscribe_tables tables steps
  | unsubscribe handle block env => exact unsubscribe_tables tables steps
  | dispatch channel =>
      obtain ⟨invoked, dispatches, -⟩ := @dispatchMsg_of_tables regexMatch r registered tables channel
      rw [next, dispatches] at steps
      cases steps
      exact tables

theorem subscribe_keys {asked channel : CString} {handler : Handler} {block : Bool} {env : Env}
    (subscribes : r.subscribe regexValid asked handler block env = some (r', reply)) :
    (r'.subs.lookup channel).isSome = true ↔
      (r.subs.lookup channel).isSome = true ∨ (Event.subscribe asked handler block env).Stores channel := by
  unfold subscribe at subscribes
  simp only [Event.Stores]
  cases locks : getsLocks block env with
  | false =>
      rw [locks] at subscribes
      cases subscribes
      simp
  | true =>
  cases accepted : env.accepted with
  | false =>
      rw [locks, accepted] at subscribes
      cases subscribes
      simp
  | true =>
  rw [locks, accepted] at subscribes
  simp only [Bool.not_true, Bool.false_eq_true, if_false] at subscribes
  split at subscribes
  · cases subscribes
  cases regex : isRegexChannel asked with
  | false =>
      simp only [newSub, regex, Bool.false_and, Bool.false_eq_true, if_false] at subscribes
      cases subscribes
      by_cases same : channel = asked
      · subst same
        simp [setSelected, selected, regex]
      · simp [setSelected, selected, AList.lookup_insert_ne same, Ne.symm same]
  | true =>
      have unstored : ¬ (asked = channel ∧ isRegexChannel channel = false ∧ true = true ∧ true = true) := by
        rintro ⟨rfl, literal, -⟩
        rw [regex] at literal
        cases literal
      simp only [newSub, regex, Bool.true_and] at subscribes
      split at subscribes
      · cases subscribes
        exact (or_iff_left unstored).symm
      · cases subscribes
        exact (or_iff_left unstored).symm

theorem unsubscribe_keys {handle : Handle} {block : Bool} {env : Env} {channel : CString}
    (unsubscribes : r.unsubscribe handle block env = some (r', reply)) :
    (r'.subs.lookup channel).isSome = true ↔ (r.subs.lookup channel).isSome = true := by
  unfold unsubscribe at unsubscribes
  split at unsubscribes
  · cases unsubscribes
    rfl
  obtain ⟨sub, object, result⟩ := Option.map_eq_some_iff.mp unsubscribes
  cases listed : (r.selected sub.regex).lookup sub.channel with
  | none =>
      rw [listed] at result
      cases result
      rfl
  | some slist =>
      rw [listed] at result
      simp only at result
      split at result
      · cases result
        rfl
      · cases result
        cases regex : sub.regex with
        | true => rfl
        | false =>
            rw [regex] at listed
            have there : r.subs.lookup sub.channel = some slist := listed
            by_cases same : channel = sub.channel
            · subst same
              simp [setSelected, selected, there]
            · simp [setSelected, selected, AList.lookup_insert_ne same]

theorem next_keys {e : Event} {channel : CString} (steps : r.next regexMatch regexValid e = some (r', reply)) :
    (r'.subs.lookup channel).isSome = true ↔ (r.subs.lookup channel).isSome = true ∨ e.Stores channel := by
  cases e with
  | subscribe asked handler block env => exact subscribe_keys steps
  | unsubscribe handle block env =>
      rw [unsubscribe_keys steps]
      simp [Event.Stores]
  | dispatch asked =>
      obtain ⟨direct, -, patterns⟩ := Option.bind_eq_some_iff.mp steps
      obtain ⟨loaded, -, result⟩ := Option.bind_eq_some_iff.mp patterns
      cases result
      simp [Event.Stores]

theorem run_tables {es : List Event} (tables : r.Tables registered) (runs : r.run regexMatch regexValid es = some r') :
    r'.Tables (es.foldl (registeredAfter regexValid) registered) ∧
      ∀ channel, (r'.subs.lookup channel).isSome = true ↔
        (r.subs.lookup channel).isSome = true ∨ ∃ e ∈ es, e.Stores channel := by
  induction es generalizing r registered with
  | nil =>
      cases runs
      exact ⟨tables, fun channel => by simp⟩
  | cons e es ih =>
      obtain ⟨between, first, rest⟩ := Runs.run_cons runs
      obtain ⟨⟨_, reply⟩, steps, rfl⟩ := Option.map_eq_some_iff.mp first
      obtain ⟨kept, keys⟩ := ih (next_tables tables steps) rest
      refine ⟨kept, fun channel => ?_⟩
      rw [keys, next_keys steps, or_assoc]
      simp

theorem dispatched_ne_nil_iff (tables : r.Tables registered) (channel : CString) :
    ∃ invoked, r.dispatchMsg regexMatch channel = some (r, .dispatched invoked) ∧
      (invoked ≠ [] ↔ ∃ handle sub, registered handle = some sub ∧ Matches regexMatch sub.channel channel) := by
  obtain ⟨invoked, dispatches, -, listed⟩ := @dispatchMsg_of_tables regexMatch r registered tables channel
  refine ⟨invoked, dispatches, ?_⟩
  constructor
  · intro some_
    obtain ⟨⟨handle, handler⟩, member⟩ := List.exists_mem_of_ne_nil invoked some_
    obtain ⟨asked, used, matching⟩ := (listed handle handler).mp member
    exact ⟨handle, _, used, matching⟩
  · rintro ⟨handle, ⟨asked, handler⟩, used, matching⟩
    exact List.ne_nil_of_mem ((listed handle handler).mpr ⟨asked, used, matching⟩)

theorem wants_eq (tables : r.Tables registered) (channel : CString) :
    ∃ pushed, r.wants regexMatch channel = some pushed ∧
      (pushed = true ↔ (r.subs.lookup channel).isSome = true ∨
      ∃ handle sub, registered handle = some sub ∧ Matches regexMatch sub.channel channel) := by
  obtain ⟨patterns, loads, -, objects⟩ := load_patterns tables
  cases found : r.subs.lookup channel with
  | some slist => exact ⟨true, by simp [wants, found], by simp⟩
  | none =>
      refine ⟨_, by simp only [wants, found, loads]; rfl, ?_⟩
      simp only [Option.isSome_none, Bool.false_eq_true, false_or, List.any_eq_true, Prod.exists]
      constructor
      · rintro ⟨handle, sub, member, matching⟩
        obtain ⟨asked, handler, used, regex, rfl⟩ := (objects handle sub).mp member
        refine ⟨handle, _, used, ?_⟩
        rw [Matches, if_pos regex]
        exact (newSub_regexobj_any.mp matching).2
      · rintro ⟨handle, ⟨asked, handler⟩, used, matching⟩
        cases regex : isRegexChannel asked with
        | true =>
            rw [Matches, if_pos regex] at matching
            exact ⟨handle, _, (objects handle _).mpr ⟨asked, handler, used, regex, rfl⟩,
              newSub_regexobj_any.mpr ⟨regex, matching⟩⟩
        | false =>
            -- It would be in the list of the channel, and there is none.
            obtain rfl : asked = channel := by simpa [Matches, regex] using matching
            have listed := (tables.listed false asked handle).mpr ⟨regex, handler, used⟩
            simp [listOf, selected, found] at listed

/-- After any calls the filter and the dispatch agree on a channel unless it was subscribed by its name before and
nothing in the tables matches it now. -/
theorem agrees_iff (regexMatch : CString → CString → Bool) (regexValid : CString → Bool) (es : List Event)
    (r : Registry)
    (runs : empty.run regexMatch regexValid es = some r) (channel : CString) :
    r.Agrees regexMatch channel ↔ ((∃ e ∈ es, e.Stores channel) →
      ∃ handle sub, Subscriptions.registered regexValid es handle = some sub ∧
        Matches regexMatch sub.channel channel) := by
  obtain ⟨tables, keys⟩ := run_tables tables_empty runs
  have keys : (r.subs.lookup channel).isSome = true ↔
      ∃ e ∈ es, e.Stores channel := by
    simpa [empty] using keys channel
  obtain ⟨pushed, wants, pushes⟩ := @wants_eq regexMatch r _ tables channel
  obtain ⟨invoked, dispatches, invokes⟩ := @dispatched_ne_nil_iff regexMatch r _ tables channel
  rw [keys] at pushes
  unfold Agrees
  rw [wants, dispatches]
  constructor
  · rintro ⟨_, _, same, same', agree⟩ stored
    cases same
    cases same'
    exact invokes.mp (agree.mp (pushes.mpr (.inl stored)))
  · intro matched
    refine ⟨pushed, invoked, rfl, rfl, ?_⟩
    rw [pushes, invokes]
    exact ⟨fun wanted => wanted.elim matched id, .inr⟩

theorem agrees_of_subscribed :
    ∃ r, empty.run (fun _ _ => false) (fun _ => true) [subscribes (letters 1) 7] = some r ∧
    (r.Agrees (fun _ _ => false) (letters 1) ↔ ((∃ e ∈ [subscribes (letters 1) 7], e.Stores (letters 1)) →
      ∃ handle sub, Subscriptions.registered (fun _ => true) [subscribes (letters 1) 7] handle = some sub ∧
        Matches (fun _ _ => false) sub.channel (letters 1))) :=
  ⟨_, rfl, agrees_iff (fun _ _ => false) (fun _ => true) [subscribes (letters 1) 7] _ rfl (letters 1)⟩

/-- The only subscription of a channel is given back, and the filter still lets the channel through. -/
theorem abandoned_disagrees : ¬ ∀ r, empty.run (fun _ _ => false) (fun _ => true)
    [subscribes (letters 1) 7, .unsubscribe 7 true ⟨false, true, 0⟩] = some r → r.Agrees (fun _ _ => false)
    (letters 1) := by
  intro claim
  obtain ⟨pushed, invoked, wants, dispatches, agree⟩ := claim _ rfl
  have nothing : invoked = [] := by
    cases dispatches
    rfl
  have let_through : pushed = true := by
    cases wants
    rfl
  exact agree.mp let_through nothing

end Registry
end Zcm.Blocking.Subscriptions
