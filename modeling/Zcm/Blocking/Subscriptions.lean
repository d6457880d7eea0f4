import Mathlib.Data.List.AList
import Zcm.Blocking.Core
import Zcm.Lib.Bytes

namespace Zcm.Blocking.Subscriptions
open Zcm.Lib

abbrev Handle := Nat

structure Handler where
  callback : Nat
  usr : Nat
deriving DecidableEq

structure Sub where
  channel : CString
  regex : Bool
  regexobj : Option CString
  handler : Handler
deriving DecidableEq

abbrev SubList := List Handle

abbrev SubMap := AList fun _ : CString => SubList

structure Registry where
  subs : SubMap
  subsRegex : SubMap
  memory : Handle → Option Sub

structure Env where
  busy : Bool
  accepted : Bool
  address : Handle

structure Enable where
  channel : CString
  enable : Bool
deriving DecidableEq

inductive Reply
  | subscribed (handle : Option Handle) (told : List Enable)
  -- The constructor of `std::regex` throws.
  | threw (told : List Enable)
  | unsubscribed (rc : Ret) (told : List Enable)
  | dispatched (invoked : List (Handle × Handler))
deriving DecidableEq

inductive Event
  | subscribe (channel : CString) (handler : Handler) (block : Bool) (env : Env)
  | unsubscribe (handle : Handle) (block : Bool) (env : Env)
  | dispatch (channel : CString)

def isRegexChar (c : Byte) : Bool :=
  c = 0x28 || c = 0x29 || c = 0x7c || c = 0x2e || c = 0x2a || c = 0x2b

def isRegexChannel (channel : CString) : Bool := channel.chars.any isRegexChar

def copyChannel (channel : CString) : CString where
  chars := channel.chars.take channelMaxlen
  noNul := fun member => channel.noNul (List.mem_of_mem_take member)

def newSub (channel : CString) (handler : Handler) : Sub where
  channel := copyChannel channel
  regex := isRegexChannel channel
  regexobj := if isRegexChannel channel then some channel else none
  handler := handler

def getsLocks (block : Bool) (env : Env) : Bool := block || !env.busy

def swapRemove (slist : SubList) (i : Nat) : SubList :=
  (slist.set i (slist.getD (slist.length - 1) 0)).take (slist.length - 1)

def deleteFromSubList (slist : SubList) (handle : Handle) : Option SubList :=
  if handle ∈ slist then some (swapRemove slist (slist.idxOf handle)) else none

namespace Registry

def empty : Registry where
  subs := ∅
  subsRegex := ∅
  memory := fun _ => none

def selected (r : Registry) (regex : Bool) : SubMap := if regex then r.subsRegex else r.subs

def setSelected (r : Registry) (regex : Bool) (map : SubMap) : Registry :=
  if regex then { r with subsRegex := map } else { r with subs := map }

def listOf (r : Registry) (regex : Bool) (channel : CString) : SubList :=
  ((r.selected regex).lookup channel).getD []

variable (regexMatch : CString → CString → Bool) (regexValid : CString → Bool)

/-- A pattern that is no regular expression leaves a lost object and an enabled channel behind. -/
def subscribe (r : Registry) (channel : CString) (handler : Handler) (block : Bool) (env : Env) :
    Option (Registry × Reply) :=
  if !getsLocks block env then some (r, .subscribed none [])
  else if !env.accepted then some (r, .subscribed none [⟨channel, true⟩])
  else if (r.memory env.address).isSome then none
  else
    let sub := newSub channel handler
    let r := { r with memory := Function.update r.memory env.address (some sub) }
    if sub.regex && !regexValid channel then some (r, .threw [⟨channel, true⟩])
    else
      some (r.setSelected sub.regex
        ((r.selected sub.regex).insert channel (r.listOf sub.regex channel ++ [env.address])),
        .subscribed (some env.address) [⟨channel, true⟩])

def unsubscribe (r : Registry) (handle : Handle) (block : Bool) (env : Env) :
    Option (Registry × Reply) :=
  if !getsLocks block env then some (r, .unsubscribed .eagain [])
  else (r.memory handle).map fun sub =>
    match (r.selected sub.regex).lookup sub.channel with
    | none => (r, .unsubscribed .einvalid [])
    | some slist =>
        match deleteFromSubList slist handle with
        | none => (r, .unsubscribed .einvalid [])
        | some left =>
            ({ r.setSelected sub.regex ((r.selected sub.regex).insert sub.channel left) with
                memory := Function.update r.memory handle none },
              if left.length = 0 then
                .unsubscribed (if env.accepted then .eok else .einvalid) [⟨sub.channel, false⟩]
              else .unsubscribed .eok [])

def load (r : Registry) (slist : SubList) : Option (List (Handle × Sub)) :=
  slist.mapM fun handle => (r.memory handle).map fun sub => (handle, sub)

def dispatchMsg (r : Registry) (channel : CString) : Option (Registry × Reply) := do
  let direct ← r.load (r.listOf false channel)
  let patterns ← r.load (r.subsRegex.entries.flatMap fun entry => entry.2)
  let matching := patterns.filter fun entry =>
    entry.2.regexobj.any fun pattern => regexMatch pattern channel
  some (r, .dispatched ((direct ++ matching).map fun entry => (entry.1, entry.2.handler)))

/-- The test with which `recvThreadFunc` drops a message that no subscription wants. -/
def wants (r : Registry) (channel : CString) : Option Bool :=
  if (r.subs.lookup channel).isSome then some true
  else do
    let patterns ← r.load (r.subsRegex.entries.flatMap fun entry => entry.2)
    some (patterns.any fun entry => entry.2.regexobj.any fun pattern => regexMatch pattern channel)

def next (r : Registry) : Event → Option (Registry × Reply)
  | .subscribe channel handler block env => r.subscribe regexValid channel handler block env
  | .unsubscribe handle block env => r.unsubscribe handle block env
  | .dispatch channel => r.dispatchMsg regexMatch channel

def run (r : Registry) (es : List Event) : Option Registry :=
  Runs.run (fun r e => (r.next regexMatch regexValid e).map Prod.fst) r es

end Registry

structure Subscription where
  channel : CString
  handler : Handler
deriving DecidableEq

def liveAfter (live : Handle → Option Subscription) : Event → Handle → Option Subscription
  | .subscribe channel handler block env =>
      if getsLocks block env && env.accepted then
        Function.update live env.address (some ⟨channel, handler⟩)
      else live
  | .unsubscribe handle block env =>
      if getsLocks block env then Function.update live handle none else live
  | .dispatch _ => live

def live (es : List Event) : Handle → Option Subscription := es.foldl liveAfter fun _ => none

def Matches (regexMatch : CString → CString → Bool) (asked channel : CString) : Prop :=
  if isRegexChannel asked then regexMatch asked channel = true else asked = channel

def Last (live : Handle → Option Subscription) (handle : Handle) (channel : CString) : Prop :=
  ∀ other sub, live other = some sub → sub.channel = channel → other = handle

def Exact (regexMatch : CString → CString → Bool) (live : Handle → Option Subscription) :
    Event → Reply → Prop
  | .subscribe channel _ block env, .subscribed handle told =>
      handle = (if getsLocks block env && env.accepted then some env.address else none) ∧
        told = if getsLocks block env then [⟨channel, true⟩] else []
  | .unsubscribe handle block env, .unsubscribed rc told =>
      if getsLocks block env then
        ∃ sub, live handle = some sub ∧
          (Last live handle sub.channel ∧ told = [⟨sub.channel, false⟩] ∧
              rc = (if env.accepted then .eok else .einvalid) ∨
            ¬ Last live handle sub.channel ∧ told = [] ∧ rc = .eok)
      else told = [] ∧ rc = .eagain
  | .dispatch channel, .dispatched invoked =>
      (invoked.map Prod.fst).Nodup ∧ ∀ handle handler, (handle, handler) ∈ invoked ↔
        ∃ asked, live handle = some ⟨asked, handler⟩ ∧ Matches regexMatch asked channel
  | _, _ => False

theorem copyChannel_eq {channel : CString} (short : channel.chars.length ≤ channelMaxlen) :
    copyChannel channel = channel := by
  ext1
  exact List.take_of_length_le short

theorem swapRemove_perm {slist : SubList} {handle : Handle} (member : handle ∈ slist) :
    (swapRemove slist (slist.idxOf handle)).Perm (slist.erase handle) := by
  obtain ⟨before, after, fresh, rfl, erased⟩ := List.exists_erase_eq member
  rw [erased]
  have index : (before ++ handle :: after).idxOf handle = before.length := by
    rw [List.idxOf_append_of_notMem fresh]
    simp
  rw [index, swapRemove]
  rcases List.eq_nil_or_concat after with rfl | ⟨after, z, rfl⟩
  · simp
  · rw [List.concat_eq_append]
    have moved : (before ++ handle :: (after ++ [z])).set before.length z =
        (before ++ z :: after) ++ [z] := by simp
    have size : (before ++ handle :: (after ++ [z])).length - 1 = (before ++ z :: after).length := by
      simp
    have last : (before ++ handle :: (after ++ [z])).getD
        ((before ++ handle :: (after ++ [z])).length - 1) 0 = z := by
      rw [size]
      simp [List.getD_eq_getElem?_getD]
    rw [last, moved, size, List.take_left]
    refine List.Perm.append_left _ ?_
    exact (List.perm_append_singleton z after).symm

theorem nodup_swapRemove {slist : SubList} {handle : Handle} (member : handle ∈ slist)
    (nodup : slist.Nodup) : (swapRemove slist (slist.idxOf handle)).Nodup :=
  (swapRemove_perm member).nodup_iff.mpr (nodup.erase handle)

theorem mem_swapRemove {slist : SubList} {handle other : Handle} (member : handle ∈ slist)
    (nodup : slist.Nodup) :
    other ∈ swapRemove slist (slist.idxOf handle) ↔ other ≠ handle ∧ other ∈ slist := by
  rw [(swapRemove_perm member).mem_iff, nodup.mem_erase_iff]

namespace Registry
variable {regexMatch : CString → CString → Bool} {regexValid : CString → Bool}

@[simp] theorem selected_setSelected (r : Registry) (regex other : Bool) (map : SubMap) :
    (r.setSelected regex map).selected other = if other = regex then map else r.selected other := by
  cases regex <;> cases other <;> simp [selected, setSelected]

structure Consistent (r : Registry) (live : Handle → Option Subscription) : Prop where
  memory : ∀ handle, r.memory handle = (live handle).map fun sub => newSub sub.channel sub.handler
  nodup : ∀ regex channel, (r.listOf regex channel).Nodup
  listed : ∀ regex channel handle, handle ∈ r.listOf regex channel ↔
    isRegexChannel channel = regex ∧ ∃ handler, live handle = some ⟨channel, handler⟩
  short : ∀ handle sub, live handle = some sub → sub.channel.chars.length ≤ channelMaxlen

theorem consistent_empty : empty.Consistent fun _ => none where
  memory _ := rfl
  nodup regex channel := by cases regex <;> simp [listOf, selected, empty]
  listed regex channel handle := by cases regex <;> simp [listOf, selected, empty]
  short _ _ absurd := by cases absurd

structure Tables (r : Registry) (live : Handle → Option Subscription) : Prop where
  objects : ∀ handle sub, live handle = some sub → r.memory handle = some (newSub sub.channel sub.handler)
  nodup : ∀ regex channel, (r.listOf regex channel).Nodup
  listed : ∀ regex channel handle, handle ∈ r.listOf regex channel ↔
    isRegexChannel channel = regex ∧ ∃ handler, live handle = some ⟨channel, handler⟩

theorem Consistent.tables {r : Registry} {live : Handle → Option Subscription} (consistent : r.Consistent live) :
    r.Tables live where
  objects handle sub used := by
    rw [consistent.memory, used]
    rfl
  nodup := consistent.nodup
  listed := consistent.listed

theorem listOf_insert (r : Registry) (regex other : Bool) (channel asked : CString) (slist : SubList) :
    (r.setSelected regex ((r.selected regex).insert channel slist)).listOf other asked =
      if other = regex ∧ asked = channel then slist else r.listOf other asked := by
  unfold listOf
  rw [selected_setSelected]
  by_cases kind : other = regex
  · subst kind
    by_cases same : asked = channel
    · subst same
      simp
    · simp [same, AList.lookup_insert_ne same]
  · simp [kind]

theorem Tables.subscribed {r : Registry} {live : Handle → Option Subscription} {channel : CString}
    {handler : Handler} {address : Handle} (tables : r.Tables live) (fresh : r.memory address = none) :
    Tables { r.setSelected (isRegexChannel channel) ((r.selected (isRegexChannel channel)).insert
          channel (r.listOf (isRegexChannel channel) channel ++ [address])) with
        memory := Function.update r.memory address (some (newSub channel handler)) }
      (Function.update live address (some ⟨channel, handler⟩)) := by
  have unused : live address = none := by
    cases used : live address with
    | none => rfl
    | some sub =>
        rw [tables.objects address sub used] at fresh
        cases fresh
  have unlisted : ∀ regex asked, address ∉ r.listOf regex asked := by
    intro regex asked member
    obtain ⟨-, handler, used⟩ := (tables.listed regex asked address).mp member
    rw [unused] at used
    cases used
  have lists : ∀ regex asked, listOf { r.setSelected (isRegexChannel channel)
        ((r.selected (isRegexChannel channel)).insert channel
          (r.listOf (isRegexChannel channel) channel ++ [address])) with
        memory := Function.update r.memory address (some (newSub channel handler)) } regex asked =
      if regex = isRegexChannel channel ∧ asked = channel then r.listOf regex asked ++ [address]
      else r.listOf regex asked := by
    intro regex asked
    refine (listOf_insert r (isRegexChannel channel) regex channel asked _).trans ?_
    split
    · next same => rw [same.1, same.2]
    · rfl
  constructor
  · intro handle sub used
    by_cases same : handle = address
    · subst same
      rw [Function.update_self] at used
      cases used
      exact Function.update_self ..
    · rw [Function.update_of_ne same] at used
      exact (Function.update_of_ne same ..).trans (tables.objects handle sub used)
  · intro regex asked
    rw [lists]
    split
    · refine (tables.nodup regex asked).append (List.nodup_singleton _) ?_
      simpa using unlisted regex asked
    · exact tables.nodup regex asked
  · intro regex asked handle
    rw [lists]
    by_cases same : handle = address
    · subst same
      split
      · next here => simp [here.1, here.2]
      · next elsewhere =>
          simp only [unlisted regex asked, Function.update_self, false_iff]
          rintro ⟨kind, other, equal⟩
          cases equal
          exact elsewhere ⟨kind.symm, rfl⟩
    · rw [Function.update_of_ne same, ← tables.listed regex asked handle]
      split <;> simp [same]

theorem consistent_subscribed {r : Registry} {live : Handle → Option Subscription} {channel : CString}
    {handler : Handler} {address : Handle} (consistent : r.Consistent live)
    (fresh : r.memory address = none) (short : channel.chars.length ≤ channelMaxlen) :
    Consistent { r.setSelected (isRegexChannel channel) ((r.selected (isRegexChannel channel)).insert
          channel (r.listOf (isRegexChannel channel) channel ++ [address])) with
        memory := Function.update r.memory address (some (newSub channel handler)) }
      (Function.update live address (some ⟨channel, handler⟩)) := by
  have tables := @Tables.subscribed r live channel handler address consistent.tables fresh
  constructor
  · intro handle
    by_cases same : handle = address
    · subst same
      simp
    · simpa [same] using consistent.memory handle
  · exact tables.nodup
  · exact tables.listed
  · intro handle sub used
    by_cases same : handle = address
    · subst same
      rw [Function.update_self] at used
      cases used
      exact short
    · rw [Function.update_of_ne same] at used
      exact consistent.short handle sub used

theorem unsubscribe_of_live {r : Registry} {live : Handle → Option Subscription} {handle : Handle}
    {channel : CString} {handler : Handler} (tables : r.Tables live)
    (used : live handle = some ⟨channel, handler⟩) (short : channel.chars.length ≤ channelMaxlen) {block : Bool}
    {env : Env} (locks : getsLocks block env = true) :
    let left := swapRemove (r.listOf (isRegexChannel channel) channel)
      ((r.listOf (isRegexChannel channel) channel).idxOf handle)
    r.unsubscribe handle block env =
      some ({ r.setSelected (isRegexChannel channel)
                ((r.selected (isRegexChannel channel)).insert channel left) with
              memory := Function.update r.memory handle none },
            if left.length = 0 then
              .unsubscribed (if env.accepted then .eok else .einvalid) [⟨channel, false⟩]
            else .unsubscribed .eok []) := by
  intro left
  have object := tables.objects handle _ used
  have copied : (newSub channel handler).channel = channel := copyChannel_eq short
  have member : handle ∈ r.listOf (isRegexChannel channel) channel :=
    (tables.listed _ _ _).mpr ⟨rfl, handler, used⟩
  obtain ⟨slist, found⟩ : ∃ slist, (r.selected (isRegexChannel channel)).lookup channel = some slist := by
    cases found : (r.selected (isRegexChannel channel)).lookup channel with
    | none => simp [listOf, found] at member
    | some slist => exact ⟨slist, rfl⟩
  have listed : r.listOf (isRegexChannel channel) channel = slist := by simp [listOf, found]
  have deleted : deleteFromSubList slist handle = some left := by
    rw [deleteFromSubList, if_pos (by rwa [← listed]), ← listed]
  simp only [unsubscribe, locks, Bool.not_true, Bool.false_eq_true, if_false, object, Option.map_some]
  rw [copied]
  simp only [newSub, found, deleted]

theorem Tables.unsubscribed {r : Registry} {live : Handle → Option Subscription} {handle : Handle}
    {channel : CString} {handler : Handler} (tables : r.Tables live)
    (used : live handle = some ⟨channel, handler⟩) :
    Tables { r.setSelected (isRegexChannel channel) ((r.selected (isRegexChannel channel)).insert
          channel (swapRemove (r.listOf (isRegexChannel channel) channel)
            ((r.listOf (isRegexChannel channel) channel).idxOf handle))) with
        memory := Function.update r.memory handle none }
      (Function.update live handle none) := by
  have member : handle ∈ r.listOf (isRegexChannel channel) channel :=
    (tables.listed _ _ _).mpr ⟨rfl, handler, used⟩
  have nodup := tables.nodup (isRegexChannel channel) channel
  have lists : ∀ regex asked, listOf { r.setSelected (isRegexChannel channel)
        ((r.selected (isRegexChannel channel)).insert channel
          (swapRemove (r.listOf (isRegexChannel channel) channel)
            ((r.listOf (isRegexChannel channel) channel).idxOf handle))) with
        memory := Function.update r.memory handle none } regex asked =
      if regex = isRegexChannel channel ∧ asked = channel then
        swapRemove (r.listOf regex asked) ((r.listOf regex asked).idxOf handle)
      else r.listOf regex asked := by
    intro regex asked
    refine (listOf_insert r (isRegexChannel channel) regex channel asked _).trans ?_
    split
    · next same => rw [same.1, same.2]
    · rfl
  constructor
  · intro other sub usedToo
    by_cases same : other = handle
    · subst same
      rw [Function.update_self] at usedToo
      cases usedToo
    · rw [Function.update_of_ne same] at usedToo
      exact (Function.update_of_ne same ..).trans (tables.objects other sub usedToo)
  · intro regex asked
    rw [lists]
    split
    · next here =>
        obtain ⟨rfl, rfl⟩ := here
        exact nodup_swapRemove member nodup
    · exact tables.nodup regex asked
  · intro regex asked other
    rw [lists]
    by_cases same : other = handle
    · subst same
      rw [Function.update_self]
      split
      · next here =>
          obtain ⟨rfl, rfl⟩ := here
          simp [mem_swapRemove member nodup]
      · next elsewhere =>
          refine iff_of_false (fun listed => elsewhere ?_) (by simp)
          obtain ⟨kind, _, equal⟩ := (tables.listed regex asked other).mp listed
          rw [used] at equal
          cases equal
          exact ⟨kind.symm, rfl⟩
    · rw [Function.update_of_ne same, ← tables.listed regex asked other]
      split
      · next here =>
          obtain ⟨rfl, rfl⟩ := here
          simp [mem_swapRemove member nodup, same]
      · rfl

theorem consistent_unsubscribed {r : Registry} {live : Handle → Option Subscription} {handle : Handle}
    {channel : CString} {handler : Handler} (consistent : r.Consistent live)
    (used : live handle = some ⟨channel, handler⟩) :
    Consistent { r.setSelected (isRegexChannel channel) ((r.selected (isRegexChannel channel)).insert
          channel (swapRemove (r.listOf (isRegexChannel channel) channel)
            ((r.listOf (isRegexChannel channel) channel).idxOf handle))) with
        memory := Function.update r.memory handle none }
      (Function.update live handle none) := by
  have tables := consistent.tables.unsubscribed used
  constructor
  · intro other
    by_cases same : other = handle
    · subst same
      simp
    · simpa [same] using consistent.memory other
  · exact tables.nodup
  · exact tables.listed
  · intro other sub usedToo
    by_cases same : other = handle
    · subst same
      rw [Function.update_self] at usedToo
      cases usedToo
    · rw [Function.update_of_ne same] at usedToo
      exact consistent.short other sub usedToo

theorem length_swapRemove_eq_zero {r : Registry} {live : Handle → Option Subscription}
    {handle : Handle} {channel : CString} {handler : Handler} (tables : r.Tables live)
    (used : live handle = some ⟨channel, handler⟩) :
    (swapRemove (r.listOf (isRegexChannel channel) channel)
      ((r.listOf (isRegexChannel channel) channel).idxOf handle)).length = 0 ↔
      Last live handle channel := by
  have member : handle ∈ r.listOf (isRegexChannel channel) channel :=
    (tables.listed _ _ _).mpr ⟨rfl, handler, used⟩
  have nodup := tables.nodup (isRegexChannel channel) channel
  rw [List.length_eq_zero_iff, List.eq_nil_iff_forall_not_mem]
  constructor
  · rintro none_ other ⟨asked, theirs⟩ usedToo rfl
    by_contra different
    refine none_ other ((mem_swapRemove member nodup).mpr ⟨different, ?_⟩)
    exact (tables.listed _ _ _).mpr ⟨rfl, theirs, usedToo⟩
  · intro last other listed
    obtain ⟨different, listedToo⟩ := (mem_swapRemove member nodup).mp listed
    obtain ⟨-, theirs, usedToo⟩ := (tables.listed _ _ _).mp listedToo
    exact different (last other _ usedToo rfl)

theorem load_of_live {r : Registry} {live : Handle → Option Subscription}
    (tables : r.Tables live) {slist : SubList}
    (used : ∀ handle ∈ slist, (live handle).isSome = true) :
    ∃ loaded, r.load slist = some loaded ∧ loaded.map Prod.fst = slist ∧
      ∀ handle sub, (handle, sub) ∈ loaded ↔ handle ∈ slist ∧
        ∃ asked handler, live handle = some ⟨asked, handler⟩ ∧ sub = newSub asked handler := by
  induction slist with
  | nil => exact ⟨[], rfl, rfl, by simp⟩
  | cons first slist ih =>
      obtain ⟨⟨asked, handler⟩, here⟩ := Option.isSome_iff_exists.mp (used first (by simp))
      obtain ⟨loaded, rest, handles, objects⟩ := ih fun other member => used other (by simp [member])
      refine ⟨(first, newSub asked handler) :: loaded, ?_, by simp [handles], ?_⟩
      · unfold load at rest
        simp [load, List.mapM_cons, tables.objects first _ here, rest]
      · intro handle sub
        rw [List.mem_cons, List.mem_cons, objects, Prod.mk.injEq, or_and_right]
        refine or_congr_left (and_congr_right ?_)
        rintro rfl
        simp only [here, Option.some.injEq, Subscription.mk.injEq]
        constructor
        · rintro rfl
          exact ⟨asked, handler, ⟨rfl, rfl⟩, rfl⟩
        · rintro ⟨_, _, ⟨rfl, rfl⟩, rfl⟩
          rfl

theorem mem_patterns {r : Registry} {live : Handle → Option Subscription} (tables : r.Tables live)
    {handle : Handle} :
    handle ∈ r.subsRegex.entries.flatMap (fun entry => entry.2) ↔
      ∃ sub, live handle = some sub ∧ isRegexChannel sub.channel = true := by
  rw [List.mem_flatMap]
  constructor
  · rintro ⟨⟨channel, slist⟩, entry, member⟩
    have found : r.subsRegex.lookup channel = some slist := AList.mem_lookup_iff.mpr entry
    have listed : handle ∈ r.listOf true channel := by simpa [listOf, selected, found] using member
    obtain ⟨regex, handler, used⟩ := (tables.listed true channel handle).mp listed
    exact ⟨_, used, regex⟩
  · rintro ⟨⟨channel, handler⟩, used, regex⟩
    have listed := (tables.listed true channel handle).mpr ⟨regex, handler, used⟩
    unfold listOf at listed
    cases found : (r.selected true).lookup channel with
    | none => simp [found] at listed
    | some slist =>
        refine ⟨⟨channel, slist⟩, AList.mem_lookup_iff.mp found, ?_⟩
        simpa [found] using listed

theorem nodup_patterns {r : Registry} {live : Handle → Option Subscription}
    (tables : r.Tables live) :
    (r.subsRegex.entries.flatMap fun entry => entry.2).Nodup := by
  have lists : ∀ entry ∈ r.subsRegex.entries, entry.2 = r.listOf true entry.1 := by
    rintro ⟨channel, slist⟩ member
    have found : r.subsRegex.lookup channel = some slist := AList.mem_lookup_iff.mpr member
    simp [listOf, selected, found]
  refine List.nodup_flatMap.mpr ⟨fun entry member => ?_, ?_⟩
  · rw [lists entry member]
    exact tables.nodup true entry.1
  · refine List.Pairwise.imp_of_mem ?_ (List.nodupKeys_iff_pairwise.mp r.subsRegex.nodupKeys)
    intro entry other member memberToo different handle listed listedToo
    change handle ∈ entry.2 at listed
    change handle ∈ other.2 at listedToo
    rw [lists entry member] at listed
    rw [lists other memberToo] at listedToo
    obtain ⟨-, handler, used⟩ := (tables.listed _ _ _).mp listed
    obtain ⟨-, theirs, usedToo⟩ := (tables.listed _ _ _).mp listedToo
    rw [used] at usedToo
    exact different (congrArg Subscription.channel (Option.some.inj usedToo))

theorem newSub_regexobj_any {channel asked : CString} {handler : Handler} :
    ((newSub asked handler).regexobj.any fun pattern => regexMatch pattern channel) = true ↔
      isRegexChannel asked = true ∧ regexMatch asked channel = true := by
  cases regex : isRegexChannel asked <;> simp [newSub, regex]

theorem load_direct {r : Registry} {live : Handle → Option Subscription} (tables : r.Tables live)
    (channel : CString) :
    ∃ loaded, r.load (r.listOf false channel) = some loaded ∧
      loaded.map Prod.fst = r.listOf false channel ∧
      ∀ handle sub, (handle, sub) ∈ loaded ↔ ∃ handler, live handle = some ⟨channel, handler⟩ ∧
        isRegexChannel channel = false ∧ sub = newSub channel handler := by
  obtain ⟨loaded, loads, handles, objects⟩ :=
    @load_of_live r live tables (r.listOf false channel) fun handle member => by
      obtain ⟨-, handler, used⟩ := (tables.listed _ _ _).mp member
      simp [used]
  refine ⟨loaded, loads, handles, fun handle sub => ?_⟩
  rw [objects, tables.listed]
  constructor
  · rintro ⟨⟨plain, handler, used⟩, asked, theirs, usedToo, rfl⟩
    rw [used] at usedToo
    cases usedToo
    exact ⟨handler, used, plain, rfl⟩
  · rintro ⟨handler, used, plain, rfl⟩
    exact ⟨⟨plain, handler, used⟩, channel, handler, used, rfl⟩

theorem load_patterns {r : Registry} {live : Handle → Option Subscription}
    (tables : r.Tables live) :
    ∃ loaded, r.load (r.subsRegex.entries.flatMap fun entry => entry.2) = some loaded ∧
      (loaded.map Prod.fst = r.subsRegex.entries.flatMap fun entry => entry.2) ∧
      ∀ handle sub, (handle, sub) ∈ loaded ↔ ∃ asked handler, live handle = some ⟨asked, handler⟩ ∧
        isRegexChannel asked = true ∧ sub = newSub asked handler := by
  obtain ⟨loaded, loads, handles, objects⟩ :=
    @load_of_live r live tables (r.subsRegex.entries.flatMap fun entry => entry.2)
      fun handle member => by
        obtain ⟨sub, used, -⟩ := (mem_patterns tables).mp member
        simp [used]
  refine ⟨loaded, loads, handles, fun handle sub => ?_⟩
  rw [objects, mem_patterns tables]
  constructor
  · rintro ⟨⟨_, used, regex⟩, asked, handler, usedToo, rfl⟩
    rw [used] at usedToo
    cases usedToo
    exact ⟨asked, handler, used, regex, rfl⟩
  · rintro ⟨asked, handler, used, regex, rfl⟩
    exact ⟨⟨_, used, regex⟩, asked, handler, used, rfl⟩

theorem dispatchMsg_of_tables {r : Registry} {live : Handle → Option Subscription}
    (tables : r.Tables live) (channel : CString) :
    ∃ invoked, r.dispatchMsg regexMatch channel = some (r, .dispatched invoked) ∧
      (invoked.map Prod.fst).Nodup ∧ ∀ handle handler, (handle, handler) ∈ invoked ↔
        ∃ asked, live handle = some ⟨asked, handler⟩ ∧ Matches regexMatch asked channel := by
  obtain ⟨direct, loadsDirect, directHandles, mem_direct⟩ := load_direct tables channel
  obtain ⟨patterns, loadsPatterns, patternHandles, mem_loaded⟩ := load_patterns tables
  refine ⟨_, by simp only [dispatchMsg, loadsDirect, loadsPatterns]; rfl, ?_, ?_⟩
  · have kept : ((patterns.filter fun entry => entry.2.regexobj.any fun pattern =>
        regexMatch pattern channel).map Prod.fst).Sublist
          (r.subsRegex.entries.flatMap fun entry => entry.2) := by
      rw [← patternHandles]
      exact List.filter_sublist.map _
    have handles : (direct ++ patterns.filter fun entry => entry.2.regexobj.any fun pattern =>
          regexMatch pattern channel).map (Prod.fst ∘ fun entry => (entry.1, entry.2.handler)) =
        r.listOf false channel ++ (patterns.filter fun entry => entry.2.regexobj.any fun pattern =>
          regexMatch pattern channel).map Prod.fst := by
      rw [List.map_append, ← directHandles]
      rfl
    rw [List.map_map, handles]
    refine (tables.nodup false channel).append (kept.nodup (nodup_patterns tables)) ?_
    intro handle listed listedToo
    obtain ⟨plain, handler, used⟩ := (tables.listed _ _ _).mp listed
    obtain ⟨sub, usedToo, regex⟩ := (mem_patterns tables).mp (kept.subset listedToo)
    rw [used] at usedToo
    cases usedToo
    rw [plain] at regex
    cases regex
  · intro handle handler
    simp only [List.mem_map, List.mem_append, List.mem_filter, Prod.exists, Prod.mk.injEq, mem_direct,
      mem_loaded]
    constructor
    · rintro ⟨_, sub, found, rfl, rfl⟩
      rcases found with ⟨handler, used, plain, rfl⟩ | ⟨⟨asked, handler, used, regex, rfl⟩, matching⟩
      · exact ⟨channel, used, by simp [Matches, plain]⟩
      · refine ⟨asked, used, ?_⟩
        simpa [Matches, regex] using (newSub_regexobj_any.mp matching).2
    · rintro ⟨asked, used, matched⟩
      refine ⟨handle, newSub asked handler, ?_, rfl, rfl⟩
      cases regex : isRegexChannel asked with
      | false =>
          obtain rfl : asked = channel := by simpa [Matches, regex] using matched
          exact .inl ⟨handler, used, regex, rfl⟩
      | true =>
          refine .inr ⟨⟨asked, handler, used, regex, rfl⟩, newSub_regexobj_any.mpr ⟨regex, ?_⟩⟩
          simpa [Matches, regex] using matched

theorem wants_of_live {r : Registry} {live : Handle → Option Subscription} (tables : r.Tables live) {handle : Handle}
    {asked channel : CString} {handler : Handler}
    (used : live handle = some ⟨asked, handler⟩) (matched : Matches regexMatch asked channel) :
    r.wants regexMatch channel = some true := by
  obtain ⟨patterns, loadsPatterns, -, mem_loaded⟩ := load_patterns tables
  cases regex : isRegexChannel asked with
  | false =>
      obtain rfl : asked = channel := by simpa [Matches, regex] using matched
      have listed := (tables.listed false asked handle).mpr ⟨regex, handler, used⟩
      cases found : r.subs.lookup asked with
      | none => simp [listOf, selected, found] at listed
      | some slist => simp [wants, found]
  | true =>
      have loaded := (mem_loaded handle _).mpr ⟨asked, handler, used, regex, rfl⟩
      have matching : ((newSub asked handler).regexobj.any fun pattern => regexMatch pattern channel) =
          true := by
        refine newSub_regexobj_any.mpr ⟨regex, ?_⟩
        simpa [Matches, regex] using matched
      unfold wants
      split
      · rfl
      · simp only [loadsPatterns]
        exact congrArg some (List.any_eq_true.mpr ⟨_, loaded, matching⟩)

end Registry

def Event.Valid (regexValid : CString → Bool) : Event → Prop
  | .subscribe channel .. => isRegexChannel channel = true → regexValid channel = true
  | _ => True

def Event.Short : Event → Prop
  | .subscribe channel .. => channel.chars.length ≤ channelMaxlen
  | _ => True

namespace Registry
variable {regexMatch : CString → CString → Bool} {regexValid : CString → Bool}
  {r r' : Registry} {live : Handle → Option Subscription} {e : Event} {reply : Reply}

theorem subscribe_of_consistent (consistent : r.Consistent live) {channel : CString} {handler : Handler}
    {block : Bool} {env : Env} (valid : (Event.subscribe channel handler block env).Valid regexValid)
    (subscribes : r.subscribe regexValid channel handler block env = some (r', reply)) :
    Exact regexMatch live (.subscribe channel handler block env) reply ∧
      ((Event.subscribe channel handler block env).Short →
        r'.Consistent (liveAfter live (.subscribe channel handler block env))) := by
  unfold subscribe at subscribes
  split at subscribes
  · next waits =>
    cases subscribes
    have waits : getsLocks block env = false := by simpa using waits
    simpa [Exact, liveAfter, waits] using fun _ => consistent
  next locks =>
  have locks : getsLocks block env = true := by simpa using locks
  split at subscribes
  · next refused =>
    cases subscribes
    have refused : env.accepted = false := by simpa using refused
    simpa [Exact, liveAfter, locks, refused] using fun _ => consistent
  next accepted =>
  have accepted : env.accepted = true := by simpa using accepted
  split at subscribes
  · cases subscribes
  next fresh =>
  have fresh : r.memory env.address = none := by simpa using fresh
  have compiles : ((newSub channel handler).regex && !regexValid channel) = false := by
    cases regex : isRegexChannel channel with
    | false => simp [newSub, regex]
    | true => simp [newSub, valid regex]
  simp only [compiles, Bool.false_eq_true, if_false, Option.some.injEq, Prod.mk.injEq] at subscribes
  obtain ⟨rfl, rfl⟩ := subscribes
  refine ⟨by simp [Exact, locks, accepted], fun short => ?_⟩
  simp only [liveAfter, locks, accepted, Bool.and_self, if_true]
  have stored := @consistent_subscribed r live channel handler env.address consistent fresh short
  cases regex : isRegexChannel channel <;> simpa [newSub, regex, setSelected, selected, listOf] using stored

theorem unsubscribe_of_consistent (consistent : r.Consistent live) {handle : Handle} {block : Bool}
    {env : Env} (unsubscribes : r.unsubscribe handle block env = some (r', reply)) :
    Exact regexMatch live (.unsubscribe handle block env) reply ∧
      r'.Consistent (liveAfter live (.unsubscribe handle block env)) := by
  cases locks : getsLocks block env with
  | false =>
      simp only [unsubscribe, locks, Bool.not_false, if_true, Option.some.injEq, Prod.mk.injEq]
        at unsubscribes
      obtain ⟨rfl, rfl⟩ := unsubscribes
      simpa [Exact, liveAfter, locks] using consistent
  | true =>
      cases used : live handle with
      | none =>
          have freed : r.memory handle = none := by
            rw [consistent.memory, used]
            rfl
          simp [unsubscribe, locks, freed] at unsubscribes
      | some sub =>
          obtain ⟨channel, handler⟩ := sub
          have last := length_swapRemove_eq_zero consistent.tables used
          rw [unsubscribe_of_live consistent.tables used (consistent.short handle _ used) locks] at unsubscribes
          obtain ⟨rfl, rfl⟩ := Prod.mk.injEq .. ▸ Option.some.inj unsubscribes
          constructor
          · by_cases left : Last live handle channel
            · rw [if_pos (last.mpr left)]
              simp [Exact, locks, used, left]
            · rw [if_neg (fun empty => left (last.mp empty))]
              simp [Exact, locks, used, left]
          · simpa only [liveAfter, locks, if_true] using consistent_unsubscribed consistent used

theorem next_of_consistent (consistent : r.Consistent live) (valid : e.Valid regexValid)
    (steps : r.next regexMatch regexValid e = some (r', reply)) :
    Exact regexMatch live e reply ∧ (e.Short → r'.Consistent (liveAfter live e)) := by
  cases e with
  | subscribe channel handler block env => exact subscribe_of_consistent consistent valid steps
  | unsubscribe handle block env =>
      obtain ⟨exact_, kept⟩ := unsubscribe_of_consistent consistent steps
      exact ⟨exact_, fun _ => kept⟩
  | dispatch channel =>
      obtain ⟨invoked, dispatches, once⟩ := dispatchMsg_of_tables consistent.tables channel
      rw [next, dispatches] at steps
      obtain ⟨rfl, rfl⟩ := Prod.mk.injEq .. ▸ Option.some.inj steps
      exact ⟨once, fun _ => consistent⟩

theorem run_of_consistent {es : List Event} (valid : ∀ e ∈ es, e.Valid regexValid)
    (short : ∀ e ∈ es, e.Short) (consistent : r.Consistent live)
    (runs : r.run regexMatch regexValid es = some r') : r'.Consistent (es.foldl liveAfter live) := by
  induction es generalizing r live with
  | nil =>
      cases runs
      exact consistent
  | cons e es ih =>
      obtain ⟨between, first, rest⟩ := Runs.run_cons runs
      obtain ⟨⟨_, reply⟩, steps, rfl⟩ := Option.map_eq_some_iff.mp first
      have kept := (next_of_consistent consistent (valid e (by simp)) steps).2 (short e (by simp))
      exact ih (fun e' member => valid e' (by simp [member])) (fun e' member => short e' (by simp [member]))
        kept rest

/-- In every run whose channels all fit in the objects, whatever the order of the calls, the locks, the
addresses and the answers of the transport: `unsubscribe` can be called on exactly the live handles,
every call is answered exactly, and the receive thread drops no message that a live handle matches. -/
theorem subscriptions_exact (regexMatch : CString → CString → Bool) (regexValid : CString → Bool)
    (es : List Event) (valid : ∀ e ∈ es, e.Valid regexValid) (short : ∀ e ∈ es, e.Short) (r : Registry)
    (runs : empty.run regexMatch regexValid es = some r) :
    (∀ handle block env, getsLocks block env = true →
      ((∃ r' rc told, r.unsubscribe handle block env = some (r', .unsubscribed rc told)) ↔
        (Subscriptions.live es handle).isSome = true)) ∧
    (∀ e r' reply, e.Valid regexValid → r.next regexMatch regexValid e = some (r', reply) →
      Exact regexMatch (Subscriptions.live es) e reply) ∧
    (∀ channel, ∃ r' invoked, r.dispatchMsg regexMatch channel = some (r', .dispatched invoked)) ∧
    ∀ handle asked handler channel, Subscriptions.live es handle = some ⟨asked, handler⟩ →
      Matches regexMatch asked channel → r.wants regexMatch channel = some true := by
  have consistent : r.Consistent (Subscriptions.live es) :=
    run_of_consistent valid short consistent_empty runs
  refine ⟨fun handle block env locks => ?_, fun e r' reply valid steps => ?_, fun channel => ?_,
    fun handle asked handler channel used matched => wants_of_live consistent.tables used matched⟩
  · cases used : Subscriptions.live es handle with
    | none =>
        have freed : r.memory handle = none := by
          rw [consistent.memory, used]
          rfl
        simp [unsubscribe, locks, freed]
    | some sub =>
        simp only [Option.isSome_some, iff_true]
        rw [unsubscribe_of_live consistent.tables used (consistent.short handle _ used) locks]
        split
        · exact ⟨_, _, _, rfl⟩
        · exact ⟨_, _, _, rfl⟩
  · exact (next_of_consistent consistent valid steps).1
  · obtain ⟨invoked, dispatches, -⟩ := dispatchMsg_of_tables consistent.tables channel
    exact ⟨r, invoked, dispatches⟩

def letters (n : Nat) : CString where
  chars := List.replicate n 0x41
  noNul := fun member => by
    have := List.eq_of_mem_replicate member
    simp at this

def subscribes (channel : CString) (address : Handle) : Event :=
  .subscribe channel ⟨0, 0⟩ true ⟨false, true, address⟩

theorem subscriptions_exact_twice :
    ∃ r, empty.run (fun _ _ => false) (fun _ => true)
        [subscribes (letters 32) 7, subscribes (letters 32) 9] = some r ∧
      ∃ r' rc told, r.unsubscribe 7 true ⟨false, true, 0⟩ = some (r', .unsubscribed rc told) ∧
        told = [] ∧ rc = .eok := by
  refine ⟨_, rfl, ?_⟩
  have main := subscriptions_exact (fun _ _ => false) (fun _ => true)
    [subscribes (letters 32) 7, subscribes (letters 32) 9] (by simp [subscribes, Event.Valid])
    (by simp [subscribes, Event.Short, letters, channelMaxlen]) _ rfl
  obtain ⟨r', rc, told, unsubscribes⟩ := (main.1 7 true ⟨false, true, 0⟩ rfl).mpr rfl
  refine ⟨r', rc, told, unsubscribes, ?_⟩
  have answer := main.2.1 (.unsubscribe 7 true ⟨false, true, 0⟩) r' _ trivial unsubscribes
  obtain ⟨sub, used, ⟨last, -⟩ | ⟨-, quiet⟩⟩ := answer
  · cases used
    have := last 9 ⟨letters 32, ⟨0, 0⟩⟩ rfl rfl
    cases this
  · exact quiet

theorem unsubscribe_of_long_channel :
    ¬ ∀ r, empty.run (fun _ _ => false) (fun _ => true) [subscribes (letters 33) 7] = some r →
      Subscriptions.live [subscribes (letters 33) 7] 7 = some ⟨letters 33, ⟨0, 0⟩⟩ →
      ∃ r' told, r.unsubscribe 7 true ⟨false, true, 0⟩ = some (r', .unsubscribed .eok told) := by
  intro claim
  obtain ⟨r', told, unsubscribes⟩ := claim _ rfl rfl
  cases unsubscribes

end Registry
end Zcm.Blocking.Subscriptions
