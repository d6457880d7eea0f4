import Mathlib.Data.List.Nodup
import Zcm.Lib.Runs
import Zcm.Zmq.Transport

namespace Zcm.Zmq
open Zcm.Lib

variable {options : Options} {regexMatch : CString → CString → Bool} {regexValid : CString → Bool}

section States

def State.live (s : State) (socket : Socket) : Prop := socket ∈ s.opened ∧ ∃ e ∈ s.subsocks, e.socket = socket

/-- What is polled and received from next is open, and every entry of the map is for a subscription in force. -/
structure PollsOpen (regexMatch : CString → CString → Bool) (s : State) : Prop where
  receives : ∀ leftover i p, s.pc = .handling leftover i → s.pitems[i]? = some p → p.revents = true →
    s.live p.socket
  polls : s.pc = .polling → ∀ p ∈ s.pitems, s.live p.socket
  inForce : ∀ e ∈ s.subsocks, isRegexChannel e.channel = false ∧ s.subscribed e.channel = true ∨
    ∃ regex, isRegexChannel regex = true ∧ s.subscribed regex = true ∧ regexMatch e.channel regex = true

def State.awaits (s : State) (socket : Socket) : Prop :=
  ∃ p ∈ s.pitems, p.socket = socket ∧ (s.pc = .polling ∨ p.revents = true)

def State.dropped (regexMatch : CString → CString → Bool) (channel : CString) (s : State) : List Subsock :=
  if isRegexChannel channel then
    s.subsocks.filter fun e => !e.isExplicit && !(s.regexChannels.filter (· ≠ channel)).any (regexMatch e.channel)
  else s.subsocks.filter fun e => e.channel = channel && !s.isRegexSubscribed regexMatch e.channel

/-- A call that disables a channel closes no socket that `recvmsg` still waits for, and ZMQ lets it close
the others. -/
def KeepsAwaited (regexMatch : CString → CString → Bool) (s : State) : Action → Prop
  | .recvmsgEnable channel false _ deletes _ => ∀ e ∈ s.dropped regexMatch channel, ¬ s.awaits e.socket ∧
    deletes e.socket = .ok
  | .recvmsgEnable _ true _ _ _ => True
  | .sendmsg .. => True
  | .recvmsg _ => True

structure Table (s : State) : Prop where
  channels : (s.subsocks.map (·.channel)).Nodup
  sockets : (s.subsocks.map (·.socket)).Nodup
  areOpen : ∀ e ∈ s.subsocks, e.socket ∈ s.opened
  fresh : ∀ socket ∈ s.opened, socket < s.nextSocket
  awaited : ∀ socket, s.awaits socket → ∃ e ∈ s.subsocks, e.socket = socket
  regexes : ∀ regex ∈ s.regexChannels, isRegexChannel regex = true ∧ s.subscribed regex = true
  literals : ∀ e ∈ s.subsocks, e.isExplicit = true →
    isRegexChannel e.channel = false ∧ s.subscribed e.channel = true

/-- An entry is explicit, or a regular expression matches its channel. -/
def Kept (regexMatch : CString → CString → Bool) (s : State) : Prop :=
  ∀ e ∈ s.subsocks, e.isExplicit = true ∨ s.isRegexSubscribed regexMatch e.channel = true

end States

section Entries

variable {s t : State}

theorem Table.live (h : Table s) {socket : Socket} (awaits : s.awaits socket) : s.live socket := by
  obtain ⟨e, member, rfl⟩ := h.awaited socket awaits
  exact ⟨h.areOpen e member, e, member, rfl⟩

theorem Table.pollsOpen (h : Table s) (kept : Kept regexMatch s) : PollsOpen regexMatch s := by
  refine ⟨?_, ?_, ?_⟩
  · intro leftover i p holds item marked
    exact h.live ⟨p, List.mem_of_getElem? item, rfl, .inr marked⟩
  · exact fun polling p member => h.live ⟨p, member, rfl, .inl polling⟩
  · intro e member
    rcases kept e member with isExplicit | matched
    · exact .inl (h.literals e member isExplicit)
    · obtain ⟨regex, inForce, matched⟩ := List.any_eq_true.mp matched
      obtain ⟨isRegex, subscribed⟩ := h.regexes regex inForce
      exact .inr ⟨regex, isRegex, subscribed, matched⟩

theorem Table.same (h : Table s) (subsocks : t.subsocks = s.subsocks) (opened : t.opened = s.opened)
    (nextSocket : t.nextSocket = s.nextSocket) (regexChannels : t.regexChannels = s.regexChannels)
    (subscribed : t.subscribed = s.subscribed) (awaits : ∀ socket, t.awaits socket → s.awaits socket) :
    Table t := by
  obtain ⟨channels, sockets, areOpen, fresh, awaited, regexes, literals⟩ := h
  refine ⟨?_, ?_, ?_, ?_, ?_, ?_, ?_⟩
  · rwa [subsocks]
  · rwa [subsocks]
  · rwa [subsocks, opened]
  · rwa [opened, nextSocket]
  · rw [subsocks]
    exact fun socket waits => awaited socket (awaits socket waits)
  · rwa [regexChannels, subscribed]
  · rwa [subsocks, subscribed]

theorem Table.flags (h : Table s) {f : Subsock → Subsock} (channel : ∀ e, (f e).channel = e.channel)
    (socket : ∀ e, (f e).socket = e.socket) {regexChannels : List CString} {subscribed : CString → Bool}
    (regexes : ∀ regex ∈ regexChannels, isRegexChannel regex = true ∧ subscribed regex = true)
    (literals : ∀ e ∈ s.subsocks, (f e).isExplicit = true → isRegexChannel e.channel = false ∧
    subscribed e.channel = true) :
    Table { s with subsocks := s.subsocks.map f, regexChannels := regexChannels, subscribed := subscribed } := by
  refine ⟨?_, ?_, ?_, h.fresh, ?_, regexes, ?_⟩
  · simpa [Function.comp_def, channel] using h.channels
  · simpa [Function.comp_def, socket] using h.sockets
  · intro e' member
    obtain ⟨e, old, rfl⟩ := List.mem_map.mp member
    rw [socket]
    exact h.areOpen e old
  · intro sock awaits
    obtain ⟨e, member, same⟩ := h.awaited sock awaits
    exact ⟨f e, List.mem_map_of_mem member, by rw [socket, same]⟩
  · intro e' member isExplicit
    obtain ⟨e, old, rfl⟩ := List.mem_map.mp member
    rw [channel]
    exact literals e old isExplicit

theorem Table.findOrCreate (h : Table s) (creation : Creation) {channel : CString} {subExplicit : Bool}
    (literal : subExplicit = true → isRegexChannel channel = false ∧ s.subscribed channel = true) :
    Table (s.subsockFindOrCreate creation channel subExplicit).2 := by
  unfold State.subsockFindOrCreate
  split
  next found =>
    refine h.flags ?_ ?_ h.regexes ?_
    · intro e
      split <;> rfl
    · intro e
      split <;> rfl
    · intro e member isExplicit
      split at isExplicit
      next same =>
        rw [same]
        rcases Bool.or_eq_true_iff.mp isExplicit with old | new
        · exact same ▸ h.literals e member old
        · exact literal new
      next => exact h.literals e member isExplicit
  next missing =>
    have older {socket : Socket} (isOpen : socket ∈ s.opened) : socket ∈ s.nextSocket :: s.opened :=
      List.mem_cons_of_mem _ isOpen
    have fresh (socket : Socket) (isOpen : socket ∈ s.nextSocket :: s.opened) : socket < s.nextSocket + 1 := by
      rcases List.mem_cons.mp isOpen with rfl | old
      · exact Nat.lt_succ_self _
      · exact Nat.lt_succ_of_lt (h.fresh socket old)
    cases creation with
    | noSocket => exact h
    | unusable =>
        exact ⟨h.channels, h.sockets, fun e member => older (h.areOpen e member), fresh, h.awaited, h.regexes,
          h.literals⟩
    | ok =>
        refine ⟨?_, ?_, ?_, fresh, ?_, h.regexes, ?_⟩
        · refine List.nodup_cons.mpr ⟨?_, h.channels⟩
          simpa using missing
        · refine List.nodup_cons.mpr ⟨fun member => ?_, h.sockets⟩
          obtain ⟨e, old, same⟩ := List.mem_map.mp member
          exact absurd (h.fresh _ (h.areOpen e old)) (by simp [same])
        · intro e member
          rcases List.mem_cons.mp member with rfl | old
          · exact List.mem_cons_self
          · exact older (h.areOpen e old)
        · intro socket awaits
          obtain ⟨e, member, same⟩ := h.awaited socket awaits
          exact ⟨e, List.mem_cons_of_mem _ member, same⟩
        · intro e member isExplicit
          rcases List.mem_cons.mp member with rfl | old
          · exact literal isExplicit
          · exact h.literals e old isExplicit

theorem Kept.findOrCreate (kept : Kept regexMatch s) (creation : Creation) {channel : CString} {subExplicit : Bool}
    (reason : subExplicit = true ∨ s.isRegexSubscribed regexMatch channel = true) :
    Kept regexMatch (s.subsockFindOrCreate creation channel subExplicit).2 := by
  unfold State.subsockFindOrCreate
  split
  next found =>
    intro e' member
    obtain ⟨e, old, rfl⟩ := List.mem_map.mp member
    split
    next => exact (kept e old).imp_left fun isExplicit => by simp [isExplicit]
    next => exact kept e old
  next missing =>
    cases creation with
    | noSocket => exact kept
    | unusable => exact kept
    | ok =>
        intro e member
        rcases List.mem_cons.mp member with rfl | old
        · exact reason
        · exact kept e old

theorem Table.entry_eq (h : Table s) {e e' : Subsock} (member : e ∈ s.subsocks) (member' : e' ∈ s.subsocks)
    (same : e.channel = e'.channel ∨ e.socket = e'.socket) : e = e' := by
  rcases same with channel | socket
  · exact List.inj_on_of_nodup_map h.channels member member' channel
  · exact List.inj_on_of_nodup_map h.sockets member member' socket

theorem Table.delete (h : Table s) {e : Subsock} (member : e ∈ s.subsocks) (notAwaited : ¬ s.awaits e.socket) :
    Table (s.subsockDelete .ok e).2 := by
  have kept {e' : Subsock} (left : e' ∈ s.subsocks.filter (·.channel ≠ e.channel)) :
      e' ∈ s.subsocks ∧ e'.socket ≠ e.socket := by
    obtain ⟨member', other⟩ := List.mem_filter.mp left
    refine ⟨member', fun same => ?_⟩
    rw [h.entry_eq member' member (.inr same)] at other
    simp at other
  refine ⟨?_, ?_, ?_, ?_, ?_, h.regexes, ?_⟩
  · exact h.channels.sublist (List.filter_sublist.map _)
  · exact h.sockets.sublist (List.filter_sublist.map _)
  · intro e' left
    refine List.mem_filter.mpr ⟨h.areOpen e' (kept left).1, ?_⟩
    simpa using (kept left).2
  · exact fun socket isOpen => h.fresh socket (List.mem_filter.mp isOpen).1
  · intro socket awaits
    obtain ⟨e', member', rfl⟩ := h.awaited socket awaits
    refine ⟨e', List.mem_filter.mpr ⟨member', ?_⟩, rfl⟩
    simp only [decide_eq_true_eq]
    intro same
    rw [h.entry_eq member' member (.inl same)] at awaits
    exact notAwaited awaits
  · exact fun e' left isExplicit => h.literals e' (kept left).1 isExplicit

theorem Table.deleteUnmatched (h : Table s) {deletes : Socket → Deletion} {es : List Subsock} (nodup : es.Nodup)
    (members : ∀ e ∈ es, e ∈ s.subsocks)
    (done : ∀ e ∈ s.subsocks, e ∈ es ∨ e.isExplicit = true ∨ s.isRegexSubscribed regexMatch e.channel = true)
    (allowed : ∀ e ∈ es, e.isExplicit = false → s.isRegexSubscribed regexMatch e.channel = false →
      ¬ s.awaits e.socket ∧ deletes e.socket = .ok) :
    Table (s.deleteUnmatched regexMatch deletes es).2 ∧
      Kept regexMatch (s.deleteUnmatched regexMatch deletes es).2 := by
  induction es generalizing s with
  | nil => exact ⟨h, fun e member => (done e member).resolve_left List.not_mem_nil⟩
  | cons e es ih =>
      obtain ⟨other, nodup⟩ := List.nodup_cons.mp nodup
      have member := members e List.mem_cons_self
      have skips (reason : e.isExplicit = true ∨ s.isRegexSubscribed regexMatch e.channel = true) :
          Table (s.deleteUnmatched regexMatch deletes es).2 ∧
            Kept regexMatch (s.deleteUnmatched regexMatch deletes es).2 := by
        refine ih h nodup (fun e' later => members e' (List.mem_cons_of_mem _ later)) (fun e' member' => ?_)
          fun e' later => allowed e' (List.mem_cons_of_mem _ later)
        rcases done e' member' with here | kept
        · rcases List.mem_cons.mp here with rfl | later
          · exact .inr reason
          · exact .inl later
        · exact .inr kept
      unfold State.deleteUnmatched
      split
      next isExplicit => exact skips (.inl isExplicit)
      next notExplicit =>
        split
        next matched => exact skips (.inr matched)
        next unmatched =>
          obtain ⟨notAwaited, deleted⟩ :=
            allowed e List.mem_cons_self (by simpa using notExplicit) (by simpa using unmatched)
          rw [deleted]
          refine ih (h.delete member notAwaited) nodup (fun e' later => ?_) (fun e' left => ?_)
            fun e' later => allowed e' (List.mem_cons_of_mem _ later)
          · refine List.mem_filter.mpr ⟨members e' (List.mem_cons_of_mem _ later), ?_⟩
            simp only [decide_eq_true_eq]
            intro same
            rw [h.entry_eq (members e' (List.mem_cons_of_mem _ later)) member (.inl same)] at later
            exact other later
          · obtain ⟨member', different⟩ := List.mem_filter.mp left
            rcases done e' member' with here | kept
            · rcases List.mem_cons.mp here with rfl | later
              · simp at different
              · exact .inl later
            · exact .inr kept

end Entries

section Steps

variable {s t : State}

theorem Table.subscribes (h : Table s) (channel : CString) :
    Table { s with subscribed := Function.update s.subscribed channel true } := by
  have more {c : CString} (subscribed : s.subscribed c = true) :
      Function.update s.subscribed channel true c = true := by
    by_cases same : c = channel
    · rw [same, Function.update_self]
    · rw [Function.update_of_ne same, subscribed]
  exact ⟨h.channels, h.sockets, h.areOpen, h.fresh, h.awaited,
    fun regex inForce => (h.regexes regex inForce).imp_right more,
    fun e member isExplicit => (h.literals e member isExplicit).imp_right more⟩

theorem enables_kept (h : Table s) (kept : Kept regexMatch s) {channel : CString} {creates : Creation}
    {deletes : Socket → Deletion} {order : List Subsock} {ret : Ret}
    (steps : s.recvmsgEnable regexMatch regexValid channel true creates deletes order = some (ret, t)) :
    Table t ∧ Kept regexMatch t := by
  have enabled := h.subscribes channel
  unfold State.recvmsgEnable at steps
  simp only [if_true] at steps
  split at steps
  next isRegex =>
    split at steps
    next =>
      cases steps
      refine ⟨⟨enabled.channels, enabled.sockets, enabled.areOpen, enabled.fresh, enabled.awaited, ?_,
        enabled.literals⟩, ?_⟩
      · intro regex inForce
        rcases List.mem_insert_iff.mp inForce with rfl | old
        · exact ⟨isRegex, Function.update_self _ _ _⟩
        · exact enabled.regexes regex old
      · intro e member
        refine (kept e member).imp_right fun matched => ?_
        obtain ⟨regex, old, matched⟩ := List.any_eq_true.mp matched
        exact List.any_eq_true.mpr ⟨regex, List.mem_insert_of_mem old, matched⟩
    next => cases steps
  next notRegex =>
    cases steps
    have literal : isRegexChannel channel = false := by simpa using notRegex
    refine ⟨enabled.findOrCreate creates fun _ => ⟨literal, Function.update_self _ _ _⟩, ?_⟩
    exact Kept.findOrCreate (s := { s with subscribed := Function.update s.subscribed channel true }) kept creates
      (.inl rfl)

theorem Table.unsubscribes (h : Table s) {channel : CString} (noRegex : channel ∉ s.regexChannels)
    (noLiteral : ∀ e ∈ s.subsocks, e.isExplicit = true → e.channel ≠ channel) :
    Table { s with subscribed := Function.update s.subscribed channel false } := by
  have other {c : CString} (different : c ≠ channel) (subscribed : s.subscribed c = true) :
      Function.update s.subscribed channel false c = true := by
    rw [Function.update_of_ne different, subscribed]
  refine ⟨h.channels, h.sockets, h.areOpen, h.fresh, h.awaited, ?_, ?_⟩
  · exact fun regex inForce => (h.regexes regex inForce).imp_right (other fun same => noRegex (same ▸ inForce))
  · exact fun e member isExplicit => (h.literals e member isExplicit).imp_right (other (noLiteral e member isExplicit))

theorem disablesRegex_kept (h : Table s) {channel : CString} (isRegex : isRegexChannel channel = true)
    {deletes : Socket → Deletion}
    {order : List Subsock} (perm : order.Perm s.subsocks)
    (allowed : ∀ e ∈ s.dropped regexMatch channel, ¬ s.awaits e.socket ∧ deletes e.socket = .ok) :
    let u := ({ s with
      subscribed := Function.update s.subscribed channel false
      regexChannels := s.regexChannels.filter (· ≠ channel) } : State).deleteUnmatched regexMatch deletes order
    Table u.2 ∧ Kept regexMatch u.2 := by
  have without : Table { s with regexChannels := s.regexChannels.filter (· ≠ channel) } :=
    ⟨h.channels, h.sockets, h.areOpen, h.fresh, h.awaited,
      fun regex inForce => h.regexes regex (List.mem_of_mem_filter inForce), h.literals⟩
  have gone : channel ∉ s.regexChannels.filter (· ≠ channel) := by simp
  have disabled := without.unsubscribes gone fun e member isExplicit same => by
    rw [← same, (h.literals e member isExplicit).1] at isRegex
    cases isRegex
  refine disabled.deleteUnmatched (perm.nodup_iff.mpr (List.Nodup.of_map _ h.channels)) (fun e => perm.mem_iff.mp)
    (fun e member => .inl (perm.mem_iff.mpr member)) fun e member notExplicit unmatched => ?_
  refine allowed e ?_
  rw [State.dropped, if_pos isRegex]
  refine List.mem_filter.mpr ⟨perm.mem_iff.mp member, ?_⟩
  rw [notExplicit]
  simpa [State.isRegexSubscribed] using unmatched

theorem disables_kept (h : Table s) (kept : Kept regexMatch s) {channel : CString} {creates : Creation}
    {deletes : Socket → Deletion} {order : List Subsock} {ret : Ret}
    (allowed : ∀ e ∈ s.dropped regexMatch channel, ¬ s.awaits e.socket ∧ deletes e.socket = .ok)
    (steps : s.recvmsgEnable regexMatch regexValid channel false creates deletes order = some (ret, t)) :
    Table t ∧ Kept regexMatch t := by
  unfold State.recvmsgEnable at steps
  simp only [Bool.false_eq_true, if_false] at steps
  split at steps
  next isRegex =>
    split at steps
    next isPerm =>
      have result := Option.some.inj steps
      have both := disablesRegex_kept h isRegex (List.isPerm_iff.mp isPerm) allowed
      rw [result] at both
      exact both
    next => cases steps
  next notRegex =>
    have literal : isRegexChannel channel = false := by simpa using notRegex
    have noRegex : channel ∉ s.regexChannels := fun inForce => notRegex (h.regexes channel inForce).1
    split at steps
    next missing =>
      cases steps
      refine ⟨h.unsubscribes noRegex fun e member _ same => ?_, kept⟩
      have other := List.find?_eq_none.mp missing e member
      simp [same] at other
    next e found =>
      obtain rfl : e.channel = channel := by simpa using List.find?_some found
      have member : e ∈ s.subsocks := List.mem_of_find?_eq_some found
      let f (e' : Subsock) : Subsock := if e'.channel = e.channel then { e' with isExplicit := false } else e'
      have channel (e' : Subsock) : (f e').channel = e'.channel := by
        simp only [f]
        split <;> rfl
      have socket (e' : Subsock) : (f e').socket = e'.socket := by
        simp only [f]
        split <;> rfl
      have marked : Table
          { s with subsocks := s.subsocks.map f, subscribed := Function.update s.subscribed e.channel false } := by
        refine h.flags channel socket (fun regex inForce => ?_) fun e' member' isExplicit => ?_
        · rw [Function.update_of_ne fun (same : regex = e.channel) => noRegex (same ▸ inForce)]
          exact h.regexes regex inForce
        · simp only [f] at isExplicit
          split at isExplicit
          next => cases isExplicit
          next different =>
            rw [Function.update_of_ne different]
            exact h.literals e' member' isExplicit
      have others (e' : Subsock) (member' : e' ∈ s.subsocks.map f) (different : e'.channel ≠ e.channel) :
          e'.isExplicit = true ∨ s.isRegexSubscribed regexMatch e'.channel = true := by
        obtain ⟨old, oldMember, rfl⟩ := List.mem_map.mp member'
        rw [channel] at different
        simp only [f, if_neg different]
        exact kept old oldMember
      split at steps
      next matched =>
        cases steps
        refine ⟨marked, fun e' member' => ?_⟩
        by_cases same : e'.channel = e.channel
        · exact .inr (same ▸ matched)
        · exact others e' member' same
      next unmatched =>
        have inDropped : e ∈ s.dropped regexMatch e.channel := by
          rw [State.dropped, if_neg notRegex]
          refine List.mem_filter.mpr ⟨member, ?_⟩
          simpa [State.isRegexSubscribed] using unmatched
        obtain ⟨notAwaited, deleted⟩ := allowed e inDropped
        rw [deleted] at steps
        cases steps
        have left := @Table.delete _ marked (f e) (List.mem_map_of_mem member) (by rw [socket]; exact notAwaited)
        simp only [State.subsockDelete, channel, socket] at left
        refine ⟨left, fun e' member' => ?_⟩
        obtain ⟨member', different⟩ := List.mem_filter.mp member'
        exact others e' member' (by simpa using different)

theorem scan_kept {creates : CString → Creation} {channels : List CString} (h : Table s) (kept : Kept regexMatch s) :
    Table (s.scan regexMatch creates channels) ∧ Kept regexMatch (s.scan regexMatch creates channels) := by
  induction channels generalizing s with
  | nil => exact ⟨h, kept⟩
  | cons channel channels ih =>
      unfold State.scan
      split
      next matched =>
          exact ih (h.findOrCreate (creates channel) (by simp)) (kept.findOrCreate (creates channel) (.inr matched))
      next => exact ih h kept

theorem scanForNewChannels_kept (h : Table s) (kept : Kept regexMatch s) (a : Answer) :
    Table (s.scanForNewChannels options regexMatch a) ∧
      Kept regexMatch (s.scanForNewChannels options regexMatch a) := by
  have scanned : Table { s with lastScanUtime := a.now } :=
    h.same rfl rfl rfl rfl rfl fun _ => id
  unfold State.scanForNewChannels
  split
  · cases options.kind with
    | ipc =>
        obtain ⟨table, rest⟩ :=
          @scan_kept regexMatch { s with lastScanUtime := a.now } a.creates a.listing scanned kept
        exact scan_kept table rest
    | inproc => exact @scan_kept regexMatch { s with lastScanUtime := a.now } a.creates _ scanned kept
  · exact ⟨h, kept⟩

theorem awaits_of_marked (pc : t.pc ≠ .polling) (pitems : ∀ p ∈ t.pitems, p.revents = true → p ∈ s.pitems)
    {socket : Socket}
    (awaits : t.awaits socket) : s.awaits socket := by
  obtain ⟨p, member, same, waits⟩ := awaits
  have marked := waits.resolve_left pc
  exact ⟨p, pitems p member marked, same, .inr marked⟩

theorem handlePitem_kept (h : Table s) (kept : Kept regexMatch s) {a : Answer} {leftover : Bool} {i : Nat}
    (steps : s.handlePitem a leftover i = some t) : Table t ∧ Kept regexMatch t := by
  have advanced (pc : Pc) (other : pc ≠ .polling) : Table { s with pc := pc } :=
    h.same rfl rfl rfl rfl rfl fun _ => @awaits_of_marked s { s with pc := pc } other (fun _ member _ => member) _
  unfold State.handlePitem at steps
  split at steps
  next =>
    cases steps
    split
    · exact ⟨h.same rfl rfl rfl rfl rfl fun _ => awaits_of_marked (by simp) (by simp), kept⟩
    · exact ⟨advanced _ (by simp), kept⟩
  next p item =>
    split at steps
    next =>
      cases steps
      exact ⟨advanced _ (by simp), kept⟩
    next =>
      have taken (size : Nat) (pc : Pc) (other : pc ≠ .polling) :
          Table
            { s with pitems := s.pitems.set i { p with revents := false }, recvmsgBufferSize := size, pc := pc } := by
        refine h.same rfl rfl rfl rfl rfl fun _ => awaits_of_marked other fun q member marked => ?_
        rcases List.mem_or_eq_of_mem_set member with old | rfl
        · exact old
        · cases marked
      simp only at steps
      split at steps
      next =>
        cases steps
        exact ⟨taken _ _ (by simp), kept⟩
      next buf =>
        split at steps
        · cases steps
        · split at steps
          · cases steps
            exact ⟨taken _ _ (by simp), kept⟩
          · cases steps
            exact ⟨taken _ _ (by simp), kept⟩

theorem buildPitems_kept (h : Table s) (kept : Kept regexMatch s) {a : Answer}
    (steps : s.buildPitems options regexMatch a = some t) : Table t ∧ Kept regexMatch t := by
  obtain ⟨table, rest⟩ := @scanForNewChannels_kept options regexMatch s h kept a
  unfold State.buildPitems at steps
  simp only at steps
  split at steps
  next isPerm =>
    cases steps
    have perm := List.isPerm_iff.mp isPerm
    refine ⟨⟨table.channels, table.sockets, table.areOpen, table.fresh, ?_, table.regexes, table.literals⟩,
      rest⟩
    rintro socket ⟨p, member, rfl, -⟩
    obtain ⟨e, inOrder, rfl⟩ := List.mem_map.mp member
    exact ⟨e, perm.mem_iff.mp inOrder, rfl⟩
  next => cases steps

theorem recvmsg_kept (h : Table s) (kept : Kept regexMatch s) {a : Answer}
    (steps : s.recvmsg options regexMatch a = some t) :
    Table t ∧ Kept regexMatch t := by
  unfold State.recvmsg at steps
  split at steps
  next last holds =>
    cases steps
    refine ⟨h.same rfl rfl rfl rfl rfl ?_, kept⟩
    rintro socket ⟨p, member, same, waits⟩
    exact ⟨p, member, same, waits.imp_left fun absurd => by cases absurd⟩
  next leftover i holds => exact handlePitem_kept h kept steps
  next holds => exact buildPitems_kept h kept steps
  next polling =>
    cases steps
    refine ⟨h.same rfl rfl rfl rfl rfl ?_, kept⟩
    rintro socket ⟨p, member, same, -⟩
    obtain ⟨p, old, rfl⟩ := List.mem_map.mp member
    exact ⟨p, old, same, .inl polling⟩

theorem pubsockFindOrCreate_same (channel : CString) (created : Bool) (s : State) :
    ∃ found pubsocks, s.pubsockFindOrCreate channel created = (found, { s with pubsocks := pubsocks }) := by
  unfold State.pubsockFindOrCreate
  split
  · exact ⟨true, s.pubsocks, rfl⟩
  · split
    · exact ⟨true, s.pubsocks ++ [channel], rfl⟩
    · exact ⟨false, s.pubsocks, rfl⟩

theorem sendmsg_same (channel : CString) (buf : List Byte) (created sends : Bool) (s : State) :
    ∃ pubsocks, (s.sendmsg channel buf created sends).2 = { s with pubsocks := pubsocks } := by
  obtain ⟨found, pubsocks, result⟩ := pubsockFindOrCreate_same channel created s
  unfold State.sendmsg
  rw [result]
  split
  · exact ⟨s.pubsocks, rfl⟩
  · split
    · exact ⟨s.pubsocks, rfl⟩
    · exact ⟨pubsocks, rfl⟩

theorem next_kept (h : Table s) (kept : Kept regexMatch s) {a : Action} (allowed : KeepsAwaited regexMatch s a)
    (steps : s.next options regexMatch regexValid a = some t) : Table t ∧ Kept regexMatch t := by
  cases a with
  | sendmsg channel buf created sends =>
      cases steps
      obtain ⟨pubsocks, same⟩ := sendmsg_same channel buf created sends s
      rw [same]
      exact ⟨h.same rfl rfl rfl rfl rfl fun _ => id, kept⟩
  | recvmsgEnable channel enable creates deletes order =>
      obtain ⟨⟨ret, t⟩, calls, rfl⟩ := Option.map_eq_some_iff.mp steps
      cases enable with
      | true => exact enables_kept h kept calls
      | false => exact disables_kept h kept allowed calls
  | recvmsg a => exact recvmsg_kept h kept steps

end Steps

section Runs

theorem start_table : Table .start := by
  constructor <;> simp [State.start, State.awaits]

/-- In every run in which no call disables a channel while its socket waits to be polled or received from,
`recvmsg` uses open sockets of the map only, and the map is that of the subscriptions in force. -/
theorem polls_open_sockets {es : List Action}
    (meets : Runs.Meets (State.next options regexMatch regexValid) (KeepsAwaited regexMatch) .start es)
    {pre : List Action}
    (reached : pre <+: es) {t : State}
    (runs : Runs.run (State.next options regexMatch regexValid) .start pre = some t) :
    PollsOpen regexMatch t := by
  obtain ⟨table, kept⟩ :=
    @Runs.run_invariant _ _ (State.next options regexMatch regexValid) (KeepsAwaited regexMatch)
    (fun s => Table s ∧ Kept regexMatch s)
    (fun s a t both allowed steps => next_kept both.1 both.2 allowed steps)
    .start es ⟨start_table, fun e absurd => by cases absurd⟩ meets pre reached t runs
  exact table.pollsOpen kept

def plainOptions : Options := ⟨.ipc, 250000⟩

def literal : CString := .ofBytes [0x41]

def answer : Answer where
  now := 5
  received := some [1, 2]
  listing := []
  creates _ := .ok
  order := [⟨literal, 0, true⟩]
  polls := true
  revents _ := true

def enables : Action := .recvmsgEnable literal true .ok (fun _ => .ok) []

def disables : Action := .recvmsgEnable literal false .ok (fun _ => .ok) []

def polled : List Action := enables :: List.replicate 4 (.recvmsg answer)

abbrev nextLiteral : State → Action → Option State := State.next plainOptions (fun _ _ => false) fun _ => true

theorem disables_behind_receive :
    Runs.Meets nextLiteral (KeepsAwaited fun _ _ => false) .start (polled ++ [.recvmsg answer, disables]) := by
  have ended : (Runs.run nextLiteral .start (polled ++ [.recvmsg answer])).map (fun t => (t.pc, t.pitems)) =
      some (.idle (some ⟨5, literal, [1, 2]⟩), [⟨0, false⟩]) := by decide
  obtain ⟨t, runs, same⟩ := Option.map_eq_some_iff.mp ended
  simp only [Prod.mk.injEq] at same
  obtain ⟨pc, pitems⟩ := same
  have later : Runs.Meets nextLiteral (KeepsAwaited fun _ _ => false) t [disables] := by
    refine ⟨fun e _ => ⟨?_, rfl⟩, fun _ _ => trivial⟩
    rintro ⟨p, member, -, waits⟩
    rw [pitems] at member
    cases List.mem_singleton.mp member
    simp [pc] at waits
  refine @Runs.meets_append _ _ nextLiteral _ _ _ (polled ++ [.recvmsg answer]) [disables] runs ?_ later
  refine Runs.meets_of_forall (fun a member s => ?_) State.start
  simp only [polled, List.replicate, List.cons_append, List.nil_append, List.mem_cons, List.not_mem_nil,
    or_false] at member
  rcases member with rfl | rfl | rfl | rfl | rfl | rfl <;> trivial

theorem polls_open_sockets_disables :
    PollsOpen (fun _ _ => false) ((Runs.run nextLiteral .start (polled ++ [.recvmsg answer, disables])).get
      (by decide)) :=
  polls_open_sockets disables_behind_receive List.prefix_rfl (Option.some_get _).symm

theorem closed_socket_received : ∃ t, Runs.run nextLiteral .start (polled ++ [disables]) = some t ∧
    t.pc = .handling false 0 ∧ t.pitems = [⟨0, true⟩] ∧ t.opened = [] ∧
      ¬ PollsOpen (fun _ _ => false) t := by
  have ended : (Runs.run nextLiteral .start (polled ++ [disables])).map (fun t => (t.pc, t.pitems, t.opened)) =
      some (.handling false 0, [⟨0, true⟩], []) := by decide
  obtain ⟨t, runs, same⟩ := Option.map_eq_some_iff.mp ended
  simp only [Prod.mk.injEq] at same
  obtain ⟨pc, pitems, opened⟩ := same
  refine ⟨t, runs, pc, pitems, opened, fun safe => ?_⟩
  have isOpen := (safe.receives false 0 ⟨0, true⟩ pc (by rw [pitems]; rfl) rfl).1
  rw [opened] at isOpen
  cases isOpen

end Runs

end Zcm.Zmq
