import Zcm.Lib.Except
import Zcm.Logplayer.Channels

namespace Zcm.Logplayer
open Zcm.Lib Zcm.Eventlog Zcm.Logger

section Sections

def Json.withoutRename : Json → Json
  | .object members => .object (members.filter fun m => m.1 ≠ renameKey)
  | j => j

def renameOf (root : Json) (c : Channel) : Option Channel := do
  let entries ← (← root.get renameKey).members
  (← entries.lookup c).asString

def renamed (renames : Channel → Option Channel) (le : Event) : Event :=
  match renames le.channel with
  | some replayChannel => if replayChannel.isEmpty then le else { le with channel := replayChannel }
  | none => le

namespace LogPlayer

def listed (p : LogPlayer) (le : Event) : Bool := (p.channelMap le.channel).isSome

def enabled (p : LogPlayer) (le : Event) : Bool := (p.channelMap.details le.channel).enabled

def heardFrom (p : LogPlayer) (firstMsgUtime : BitVec 64) (signalled : Nat → Bool) :
    Nat → Bool → List Event → List Event
  | _, _, [] => []
  | i, startedPub, le :: log =>
      let startedPub := startedPub || p.starts firstMsgUtime le
      (if startedPub then [le] else []) ++
        if signalled i then [] else heardFrom p firstMsgUtime signalled (i + 1) startedPub log

def heard (p : LogPlayer) (signalled : Nat → Bool) (log : List Event) : List Event :=
  match log with
  | [] => []
  | le :: _ => p.heardFrom le.timestamp signalled 0 p.startMode.isNone log

/-- The sections do not meet in these events. In the mode "specified", nothing that is enabled comes between the
first event that the filter does not know and the first that neither section knows. -/
def Apart (p : LogPlayer) (renames : Channel → Option Channel) (heard : List Event) : Prop :=
  match p.filterMode with
  | none => True
  | some .whitelist | some .blacklist => ∀ le ∈ heard, (renames le.channel).isSome = true → p.listed le = true
  | some .specified =>
      ∀ le ∈ (heard.dropWhile p.listed).takeWhile fun le => p.listed le || (renames le.channel).isSome,
        p.enabled le = false

structure Renames (renames : Channel → Option Channel) (p₀ p : LogPlayer) : Prop where
  startMode : p.startMode = p₀.startMode
  filterMode : p.filterMode = p₀.filterMode
  plain : ∀ c details, p₀.channelMap c = some details → details.replayChannel = []
  channelMap : ∀ c, p.channelMap c = match renames c with
    | none => p₀.channelMap c
    | some replayChannel => some ⟨(p₀.channelMap.details c).enabled, replayChannel⟩

end LogPlayer

end Sections

section Runs

variable {p p₀ : LogPlayer} {renames : Channel → Option Channel} {firstMsgUtime : BitVec 64}
  {signalled : Nat → Bool}

namespace LogPlayer

def published (p : LogPlayer) (heard : List Event) : List Event :=
  ((heard.takeWhile fun le => p.judge le ≠ .fail).filter fun le => p.judge le = .publish).map p.newLe

theorem loop_eq (i : Nat) (startedPub : Bool) (log : List Event) :
    (p.loop firstMsgUtime signalled i startedPub log).1 =
      p.published (p.heardFrom firstMsgUtime signalled i startedPub log) := by
  induction log generalizing i startedPub with
  | nil => rfl
  | cons le log ih =>
      rw [loop, heardFrom]
      generalize (startedPub || p.starts firstMsgUtime le) = startedPub
      cases startedPub with
      | false =>
          cases signal : signalled i with
          | false => simpa [signal] using ih (i + 1) false
          | true => simp [published]
      | true =>
          have more (heard : List Event) : p.published (le :: heard) =
              if p.judge le = .fail then []
              else (if p.judge le = .publish then [p.newLe le] else []) ++ p.published heard := by
            cases verdict : p.judge le <;> simp [published, verdict]
          simp only [if_true, List.singleton_append, more]
          by_cases fails : p.judge le = .fail
          · rw [if_pos fails, if_pos fails]
          · rw [if_neg fails, if_neg fails]
            cases signal : signalled i with
            | false => simp [ih]
            | true => simp [published]

theorem run_eq (log : List Event) : (p.run signalled log).1 = p.published (p.heard signalled log) := by
  cases log with
  | nil => rfl
  | cons le log => exact loop_eq 0 _ _

namespace Renames

theorem starts_eq (h : Renames renames p₀ p) (le : Event) :
    p.starts firstMsgUtime le = p₀.starts firstMsgUtime le := by
  rw [starts, starts, h.startMode]

theorem heardFrom_eq (h : Renames renames p₀ p) (i : Nat) (startedPub : Bool) (log : List Event) :
    p.heardFrom firstMsgUtime signalled i startedPub log = p₀.heardFrom firstMsgUtime signalled i startedPub log := by
  induction log generalizing i startedPub with
  | nil => rfl
  | cons le log ih => simp only [heardFrom, h.starts_eq, ih]

theorem heard_eq (h : Renames renames p₀ p) (log : List Event) :
    p.heard signalled log = p₀.heard signalled log := by
  cases log with
  | nil => rfl
  | cons le log => simp only [heard, h.startMode, h.heardFrom_eq]

theorem newLe_eq (h : Renames renames p₀ p) (le : Event) : p.newLe le = renamed renames (p₀.newLe le) := by
  have same : p₀.newLe le = le := by
    unfold newLe
    split
    next details entry => simp [h.plain _ _ entry]
    next => rfl
  rw [same, newLe, h.channelMap, renamed]
  cases renames le.channel with
  | some name => rfl
  | none => exact same

theorem listed_eq (h : Renames renames p₀ p) (le : Event) :
    p.listed le = (p₀.listed le || (renames le.channel).isSome) := by
  rw [listed, h.channelMap]
  cases renames le.channel <;> simp [listed]

theorem enabled_eq (h : Renames renames p₀ p) (le : Event) : p.enabled le = p₀.enabled le := by
  rw [enabled, ChannelMap.details, h.channelMap]
  cases renames le.channel <;> rfl

end Renames

theorem map_filter_eq_iff {α β : Type} {f : α → β} {a b : α → Bool} {xs : List α}
    (less : ∀ x ∈ xs, a x = true → b x = true) :
    (xs.filter b).map f = (xs.filter a).map f ↔ ∀ x ∈ xs, b x = true → a x = true := by
  have inner : xs.filter a = (xs.filter b).filter a := by
    rw [List.filter_filter]
    refine List.filter_congr fun x member => ?_
    cases keeps : a x with
    | false => simp
    | true => simp [less x member keeps]
  constructor
  · intro same
    have lengths := congrArg List.length same
    rw [List.length_map, List.length_map, inner] at lengths
    have all := List.length_filter_eq_length_iff.mp lengths.symm
    exact fun x member keeps => all x (List.mem_filter.mpr ⟨member, keeps⟩)
  · intro all
    congr 1
    exact List.filter_congr fun x member => Bool.eq_iff_iff.mpr ⟨all x member, less x member⟩

section Modes

variable (heard : List Event)

theorem published_of_judge {keeps : Event → Bool}
    (judged : ∀ le, p.judge le = if keeps le then .publish else .drop) :
    p.published heard = (heard.filter keeps).map p.newLe := by
  have passes (le : Event) : p.judge le ≠ .fail := by
    rw [judged]
    split <;> simp
  have published' (le : Event) : decide (p.judge le = .publish) = keeps le := by
    rw [judged]
    cases keeps le <;> rfl
  simp only [published, passes, published', ne_eq, not_false_eq_true, decide_true]
  rw [List.takeWhile_eq_self_iff.mpr fun _ _ => rfl]

theorem published_unfiltered (mode : p.filterMode = none) : p.published heard = heard.map p.newLe := by
  rw [@published_of_judge _ heard (fun _ => true) fun le => by rw [judge, mode, if_pos rfl],
    List.filter_eq_self.mpr fun _ _ => rfl]

theorem published_whitelist (mode : p.filterMode = some .whitelist) :
    p.published heard = (heard.filter p.listed).map p.newLe :=
  published_of_judge heard fun le => by rw [judge, mode, listed]

theorem published_blacklist (mode : p.filterMode = some .blacklist) :
    p.published heard = (heard.filter fun le => !p.listed le).map p.newLe := by
  refine published_of_judge heard fun le => ?_
  rw [judge, mode, listed]
  cases p.channelMap le.channel <;> rfl

theorem published_specified (mode : p.filterMode = some .specified) :
    p.published heard = ((heard.takeWhile p.listed).filter p.enabled).map p.newLe := by
  have passes (le : Event) : decide (p.judge le ≠ .fail) = p.listed le := by
    rw [judge, mode, listed]
    cases p.channelMap le.channel with
    | none => rfl
    | some details => cases isEnabled : details.enabled <;> simp [isEnabled]
  have published' (le : Event) (inside : p.listed le = true) : decide (p.judge le = .publish) = p.enabled le := by
    rw [listed, Option.isSome_iff_exists] at inside
    obtain ⟨details, entry⟩ := inside
    rw [judge, mode, enabled, ChannelMap.details, entry, Option.getD_some]
    cases isEnabled : details.enabled <;> simp [isEnabled]
  simp only [published, passes]
  congr 1
  exact List.filter_congr fun le member => published' le (List.mem_takeWhile_imp member)

end Modes

/-- The events published under the section RENAME are those published without it, renamed, if and only if the
sections are apart. -/
theorem Renames.published_eq_iff (h : Renames renames p₀ p) (heard : List Event) :
    p.published heard = (p₀.published heard).map (renamed renames) ↔ p₀.Apart renames heard := by
  have names : p.newLe = renamed renames ∘ p₀.newLe := funext h.newLe_eq
  unfold Apart
  cases mode : p₀.filterMode with
  | none =>
      rw [published_unfiltered heard (h.filterMode.trans mode), published_unfiltered heard mode, List.map_map, names]
      exact iff_of_true rfl trivial
  | some m =>
      cases m with
      | whitelist =>
          rw [published_whitelist heard (h.filterMode.trans mode), published_whitelist heard mode, List.map_map,
            ← names,
            map_filter_eq_iff fun le _ inside => by rw [h.listed_eq, inside, Bool.true_or]]
          refine forall₂_congr fun le _ => ?_
          rw [h.listed_eq, Bool.or_eq_true]
          exact ⟨fun all isRenamed => all (.inr isRenamed), fun all either => either.elim id all⟩
      | blacklist =>
          rw [published_blacklist heard (h.filterMode.trans mode), published_blacklist heard mode, List.map_map,
            ← names,
            eq_comm, map_filter_eq_iff fun le _ outside => by simp_all [h.listed_eq]]
          refine forall₂_congr fun le _ => ?_
          rw [h.listed_eq]
          cases p₀.listed le <;> cases (renames le.channel).isSome <;> simp
      | specified =>
          have enabled : p.enabled = p₀.enabled := funext h.enabled_eq
          have listed : p.listed = fun le => p₀.listed le || (renames le.channel).isSome := funext h.listed_eq
          have split : heard.takeWhile p.listed =
              heard.takeWhile p₀.listed ++ (heard.dropWhile p₀.listed).takeWhile p.listed := by
            rw [listed]
            induction heard with
            | nil => rfl
            | cons le heard ih =>
                cases inside : p₀.listed le with
                | false => simp [inside]
                | true => simp [inside, ih]
          rw [published_specified heard (h.filterMode.trans mode), published_specified heard mode, List.map_map,
            ← names,
            enabled, split, List.filter_append, List.map_append, List.append_right_eq_self, List.map_eq_nil_iff,
            List.filter_eq_nil_iff, listed]
          simp only [Bool.not_eq_true]

end LogPlayer

end Runs

section Loading

variable {root : Json} {p : LogPlayer} {m m' : ChannelMap}

theorem asserted_eq_ok {α : Type} {o : Option α} {a : α} : asserted o = .ok a ↔ o = some a := by
  cases o <;> simp [asserted]

theorem members_withoutRename :
    root.withoutRename.members = root.members.map (·.filter fun m => m.1 ≠ renameKey) := by
  cases root <;> rfl

theorem lookup_filter {β : Type} {k r : List Byte} (ms : List (List Byte × β)) :
    (ms.filter fun m => m.1 ≠ r).lookup k = if k = r then none else ms.lookup k := by
  induction ms with
  | nil => simp
  | cons m ms ih =>
      obtain ⟨k', v⟩ := m
      by_cases same : k' = r
      · subst same
        rw [List.filter_cons_of_neg (by simp), ih, List.lookup_cons]
        by_cases key : k = k'
        · simp [key]
        · have other : (k == k') = false := by simpa using key
          simp [key, other]
      · rw [List.filter_cons_of_pos (by simpa using same), List.lookup_cons, List.lookup_cons, ih]
        by_cases key : k = k'
        · subst key
          simp [same]
        · have other : (k == k') = false := by simpa using key
          simp [other]

theorem get_withoutRename {k : List Byte} (other : k ≠ renameKey) : root.withoutRename.get k = root.get k := by
  rw [Json.get, members_withoutRename, Json.get, Option.map_map]
  congr 1
  funext ms
  rw [Function.comp_apply, lookup_filter, if_neg other]

theorem isMember_withoutRename {k : List Byte} :
    root.withoutRename.isMember k = (root.isMember k).map fun b => b && k ≠ renameKey := by
  rw [Json.isMember, members_withoutRename, Json.isMember, Option.map_map, Option.map_map]
  congr 1
  funext ms
  rw [Function.comp_apply, Function.comp_apply, lookup_filter]
  by_cases same : k = renameKey
  · simp [same]
  · rw [if_neg same]
    simp [same]

theorem initStart_withoutRename : initStart root.withoutRename = initStart root := by
  have other : start ≠ renameKey := by decide
  have member : root.withoutRename.isMember start = root.isMember start := by simp [isMember_withoutRename, other]
  rw [initStart, initStart, member, get_withoutRename other]

theorem initFilter_withoutRename : initFilter root.withoutRename = initFilter root := by
  have other : filter ≠ renameKey := by decide
  have member : root.withoutRename.isMember filter = root.isMember filter := by simp [isMember_withoutRename, other]
  rw [initFilter, initFilter, member, get_withoutRename other]

theorem initRename_withoutRename (loads : initRename root m = .ok m') : initRename root.withoutRename m = .ok m := by
  have member : ∃ b, root.isMember renameKey = some b := by
    cases member : root.isMember renameKey with
    | none => simp [initRename, member, asserted, bind, Except.bind] at loads
    | some b => exact ⟨b, rfl⟩
  obtain ⟨b, member⟩ := member
  simp [initRename, isMember_withoutRename, member, asserted, bind, Except.bind, pure, Except.pure]

theorem details_setReplayChannel (m : ChannelMap) (c c' replayChannel : Channel) :
    ((m.setReplayChannel c replayChannel).details c').enabled = (m.details c').enabled := by
  by_cases same : c' = c
  · subst same
    simp [ChannelMap.setReplayChannel, ChannelMap.details]
  · simp [ChannelMap.setReplayChannel, ChannelMap.details, same]

theorem setReplayChannels_ok {entries : Json} {names : List Channel}
    (loads : names.foldlM
      (fun m c => return m.setReplayChannel c (← asserted ((← asserted (entries.get c)).asString))) m = .ok m')
    (c : Channel) :
    if c ∈ names then ∃ v r, entries.get c = some v ∧ v.asString = some r ∧
      m' c = some ⟨(m.details c).enabled, r⟩
    else m' c = m c := by
  induction names generalizing m with
  | nil =>
      cases loads
      simp
  | cons c' names ih =>
      rw [List.foldlM_cons] at loads
      simp only [bind_ok, asserted_eq_ok] at loads
      obtain ⟨m₁, ⟨v, isValue, r, isString, set⟩, later⟩ := loads
      cases set
      have later := ih later
      by_cases inside : c ∈ names
      · simpa [inside, details_setReplayChannel] using later
      · simp only [if_neg inside] at later
        by_cases same : c = c'
        · subst same
          simp [later, isValue, isString, ChannelMap.setReplayChannel]
        · simp [inside, same, later, ChannelMap.setReplayChannel]

theorem initRename_ok (loads : initRename root m = .ok m') (c : Channel) :
    m' c = match renameOf root c with
      | none => m c
      | some replayChannel => some ⟨(m.details c).enabled, replayChannel⟩ := by
  unfold initRename at loads
  rw [bind_ok] at loads
  obtain ⟨there, isThere, loads⟩ := loads
  rw [asserted_eq_ok, Json.isMember, Option.map_eq_some_iff] at isThere
  obtain ⟨ms, isMembers, rfl⟩ := isThere
  cases found : ms.lookup renameKey with
  | none =>
      simp only [found, Option.isSome_none, Bool.not_false, if_true] at loads
      cases loads
      have noEntries : root.get renameKey = some .null := by simp [Json.get, isMembers, found]
      simp [renameOf, noEntries, Json.members]
  | some entries =>
      have isEntries : root.get renameKey = some entries := by simp [Json.get, isMembers, found]
      simp only [found, Option.isSome_some, Bool.not_true, Bool.false_eq_true, if_false, isEntries, bind_ok,
        asserted_eq_ok, Option.some.injEq] at loads
      obtain ⟨_, rfl, names, isNames, loads⟩ := loads
      rw [Json.getMemberNames, Option.map_eq_some_iff] at isNames
      obtain ⟨es, isObject, rfl⟩ := isNames
      have set := setReplayChannels_ok loads c
      have isRename : renameOf root c = (es.lookup c).bind Json.asString := by
        simp [renameOf, isEntries, isObject, Option.bind]
      rw [isRename]
      split at set
      next inside =>
        obtain ⟨v, r, isValue, isString, set⟩ := set
        obtain ⟨entry, member, rfl⟩ := List.mem_map.mp inside
        have isSome : (es.lookup entry.1).isSome = true := List.lookup_isSome_iff.mpr ⟨entry, member, by simp⟩
        obtain ⟨v', isValue'⟩ := Option.isSome_iff_exists.mp isSome
        rw [Json.get, isObject, Option.map_some, isValue', Option.getD_some] at isValue
        cases isValue
        rw [isValue', Option.bind_some, isString, set]
      next outside =>
        have missing : es.lookup c = none := by
          rw [List.lookup_eq_none_iff]
          intro entry member
          simpa using fun same => outside (List.mem_map.mpr ⟨entry, member, same.symm⟩)
        rw [missing, set, Option.bind_none]

def Plain (m : ChannelMap) : Prop := ∀ c details, m c = some details → details.replayChannel = []

theorem setEnabled_plain (plain : Plain m) (c : Channel) (enabled : Bool) : Plain (m.setEnabled c enabled) := by
  intro c' details entry
  by_cases same : c' = c
  · subst same
    simp only [ChannelMap.setEnabled, Function.update_self, Option.some.injEq] at entry
    subst entry
    change (m.details c').replayChannel = []
    rw [ChannelMap.details]
    cases before : m c' with
    | none => rfl
    | some details => exact plain c' details before
  · rw [ChannelMap.setEnabled, Function.update_of_ne same] at entry
    exact plain c' details entry

theorem newChannels_plain {filterMode : FilterMode} {entries : Json} {names : List Channel} (plain : Plain m)
    (loads : names.foldlM (newChannel filterMode entries) m = .ok m') : Plain m' := by
  induction names generalizing m with
  | nil =>
      cases loads
      exact plain
  | cons c names ih =>
      rw [List.foldlM_cons, bind_ok] at loads
      obtain ⟨m₁, first, later⟩ := loads
      refine ih ?_ later
      unfold newChannel at first
      split at first
      next =>
        simp only [bind_ok] at first
        obtain ⟨v, -, enabled, -, set⟩ := first
        cases set
        exact setEnabled_plain plain c enabled
      next =>
        cases first
        exact setEnabled_plain plain c true

theorem initFilter_plain {filterMode : Option FilterMode} (loads : initFilter root = .ok (filterMode, m)) :
    Plain m := by
  unfold initFilter at loads
  simp only [bind_ok] at loads
  obtain ⟨there, -, loads⟩ := loads
  split at loads
  next =>
    cases loads
    simp [Plain]
  next =>
    simp only [bind_ok] at loads
    obtain ⟨section', -, hasType, -, _, -, hasMode, -, _, -, isType, -, _, -, isMode, -, mode, -, loads⟩ := loads
    obtain ⟨entries, -, names, -, m', fills, same⟩ := loads
    cases same
    exact newChannels_plain (by simp [Plain]) fills

theorem init_renames (loads : init root = .ok p) :
    ∃ p₀, init root.withoutRename = .ok p₀ ∧ LogPlayer.Renames (renameOf root) p₀ p := by
  unfold init at loads
  simp only [bind_ok] at loads
  obtain ⟨startMode, starts, ⟨filterMode, m⟩, filters, m', renames, loads⟩ := loads
  cases loads
  refine ⟨⟨startMode, filterMode, m⟩, ?_, rfl, rfl, initFilter_plain filters, initRename_ok renames⟩
  unfold init
  simp only [bind_ok, initStart_withoutRename, initFilter_withoutRename]
  exact ⟨startMode, starts, ⟨filterMode, m⟩, filters, m, initRename_withoutRename renames, rfl⟩

end Loading

section Independence

/-- What is replayed with the section RENAME is what is replayed without it, renamed, if and only if the two sections
are apart in the events behind the start. -/
theorem replay_independent_iff (root : Json) (p : LogPlayer) (loads : init root = .ok p) (log : List Event)
    (signalled : Nat → Bool) :
    ∃ p₀, init root.withoutRename = .ok p₀ ∧
      ((p.run signalled log).1 = ((p₀.run signalled log).1).map (renamed (renameOf root)) ↔
        p₀.Apart (renameOf root) (p₀.heard signalled log)) := by
  obtain ⟨p₀, loads₀, renames⟩ := init_renames loads
  refine ⟨p₀, loads₀, ?_⟩
  rw [LogPlayer.run_eq, LogPlayer.run_eq, renames.heard_eq, renames.published_eq_iff]

def renamedOutsider : Json := .object
  [(filter, .object [(type, .string channels), (mode, .string (ascii ['w', 'h', 'i', 't', 'e', 'l', 'i', 's', 't'])),
    (channels, .array [.string (ascii ['A'])])]),
   (renameKey, .object [(ascii ['B'], .string (ascii ['C']))])]

def loaded (root : Json) : LogPlayer :=
  match init root with
  | .ok p => p
  | .error _ => ⟨none, none, fun _ => none⟩

def outsider : List Event := [⟨0, 5, ascii ['B'], [1]⟩]

theorem outsider_replayed : init renamedOutsider = .ok (loaded renamedOutsider) ∧
    init renamedOutsider.withoutRename = .ok (loaded renamedOutsider.withoutRename) ∧
    ((loaded renamedOutsider).run (fun _ => false) outsider).1 = [⟨0, 5, ascii ['C'], [1]⟩] ∧
    ((loaded renamedOutsider.withoutRename).run (fun _ => false) outsider).1 = [] :=
  ⟨rfl, rfl, by decide, by decide⟩

theorem outsider_independent_iff : ∃ p₀, init renamedOutsider.withoutRename = .ok p₀ ∧
    (((loaded renamedOutsider).run (fun _ => false) outsider).1 =
        ((p₀.run (fun _ => false) outsider).1).map (renamed (renameOf renamedOutsider)) ↔
      p₀.Apart (renameOf renamedOutsider) (p₀.heard (fun _ => false) outsider)) :=
  replay_independent_iff renamedOutsider (loaded renamedOutsider) rfl outsider fun _ => false

end Independence

end Zcm.Logplayer
