import Zcm.Logger.Once

namespace Zcm.Logger
open Zcm.Lib Zcm.Eventlog

variable {args : Args} {sizeofLogEvent rounds : Nat}

def State.chunk (s : State) (n : Nat) : List Event := (s.written.filter fun w => w.2 = n).map Prod.fst

/-- Every file opened in the run has a name of its own, and the events that have been written to it. -/
structure Intact (s : State) (names : Nat → Name) : Prop where
  numbers : ∀ w ∈ s.written, w.2 ≤ s.numSplits
  distinct : ∀ m n, m ≤ s.numSplits → n ≤ s.numSplits → names m = names n → m = n
  contents : ∀ n, n ≤ s.numSplits → s.files.dir (names n) = some (s.chunk n)

def EndsWith (cycle : CycleId) (evts : List Event) : Prop :=
  ∃ before le request, evts = before ++ [le] ∧ isInternalBarrier le = true ∧
    parseCycleRequestFrame le.data = some request ∧ request.cycle = cycle

/-- The old file of a completion has the events up to its barrier, the new one is another, and no file has
lost its events. -/
def TellsTruth (s : State) : Prop :=
  ∀ cycle oldFile newFile, Frame.cycleComplete cycle oldFile newFile ∈ s.sent →
    newFile ≠ oldFile ∧
    (∃ n, (⟨cycle, oldFile, newFile⟩, n) ∈ s.rotations ∧ s.files.dir oldFile = some (s.chunk n) ∧
    EndsWith cycle (s.chunk n)) ∧
    ∃ names, Intact s names

def newPrefix (args : Args) (o : Opening) : Name := if args.useStrftime then o.strftime else args.inputFname

/-- A barrier rotates the log without `--rotate`, and with `--force` only to a name that no earlier file of
the run has. -/
def NewName (args : Args) (s : State) : Action → Prop
  | .main o => ∀ request, s.pc = .written request → args.rotate ≤ 0 ∧
      (args.autoIncrement = true ∨ args.forceOverwrite = false ∨
        s.files.filename ≠ newPrefix args o.first ∧ ∀ r ∈ s.rotations, r.1.oldFile ≠ newPrefix args o.first)
  | .handler .. | .sigterm | .sighup => True

section Opening

variable {f files : Files} {o : Opening}

theorem findIncrement_fresh {dir : Dir} {fnamePrefix filename : Name} {n next : Nat}
    (found : findIncrement dir fnamePrefix rounds n = some (filename, next)) : dir filename = none := by
  induction rounds generalizing n with
  | zero => cases found
  | succ rounds ih =>
      unfold findIncrement at found
      simp only at found
      split at found
      · exact ih found
      next fresh =>
        cases found
        simpa [Dir.exists] using fresh

theorem openLogfile_fresh (noRotate : args.rotate ≤ 0) (opened : openLogfile args rounds o f = some (some files)) :
    files.dir = Function.update f.dir files.filename (some []) ∧
      (f.dir files.filename = none ∨
        args.autoIncrement = false ∧ args.forceOverwrite = true ∧ files.filename = newPrefix args o) := by
  have notRotated : ¬ args.rotate > 0 := by omega
  have named : (if args.useStrftime then o.strftime else args.inputFname) = newPrefix args o := rfl
  unfold openLogfile at opened
  simp only [notRotated, if_false, named] at opened
  cases opens : o.opens with
  | false =>
      simp only [opens, Bool.false_eq_true, if_false] at opened
      split at opened
      · split at opened <;> cases opened
      · split at opened <;> cases opened
  | true =>
      simp only [opens, if_true] at opened
      split at opened
      next increments =>
        split at opened
        · cases opened
        next filename next found =>
          cases opened
          exact ⟨by simp [Dir.fopen], .inl (findIncrement_fresh found)⟩
      next notIncremented =>
        split at opened
        · cases opened
        next allowed =>
          cases opened
          refine ⟨by simp [Dir.fopen], ?_⟩
          cases force : args.forceOverwrite with
          | true => exact .inr ⟨by simpa using notIncremented, rfl, rfl⟩
          | false => exact .inl (by simpa [force, Dir.exists] using allowed)

theorem nextLogfile_eq (noRotate : args.rotate ≤ 0) : nextLogfile args rounds o f = openLogfile args rounds o f := by
  unfold nextLogfile
  rw [if_neg (by omega)]

end Opening

/-- The names of the files up to now. The rotations, and without `--increment` only they, have opened them. -/
structure Filed (args : Args) (s : State) (names : Nat → Name) : Prop where
  intact : Intact s names
  current : names s.numSplits = s.files.filename
  rotated : ∀ r ∈ s.rotations, r.2 < s.numSplits ∧ names r.2 = r.1.oldFile ∧ names (r.2 + 1) = r.1.newFile ∧
    EndsWith r.1.cycle (s.chunk r.2)
  barriers : args.autoIncrement = false → ∀ n < s.numSplits, ∃ r ∈ s.rotations, r.1.oldFile = names n

section Chunks

variable {s t : State} {names : Nat → Name}

theorem Filed.same (h : Filed args s names) (files : t.files = s.files) (numSplits : t.numSplits = s.numSplits)
    (written : t.written = s.written) (rotations : t.rotations = s.rotations) : Filed args t names := by
  obtain ⟨⟨numbers, distinct, contents⟩, current, rotated, barriers⟩ := h
  have chunk (n : Nat) : t.chunk n = s.chunk n := by rw [State.chunk, written, State.chunk]
  refine ⟨⟨?_, ?_, ?_⟩, ?_, ?_, ?_⟩
  · rwa [written, numSplits]
  · rwa [numSplits]
  · simpa only [numSplits, files, chunk] using contents
  · rwa [numSplits, files]
  · simpa only [rotations, numSplits, chunk] using rotated
  · rwa [numSplits, rotations]

theorem writeEvent_chunk (le : Event) (n : Nat) :
    (s.writeEvent le).chunk n = if n = s.numSplits then s.chunk n ++ [le] else s.chunk n := by
  simp only [State.chunk, State.writeEvent, List.filter_append, List.map_append]
  split
  next current => simp [current]
  next other => simp [Ne.symm other]

theorem Filed.wrote (h : Filed args s names) (le : Event) : Filed args (s.writeEvent le) names := by
  obtain ⟨⟨numbers, distinct, contents⟩, current, rotated, barriers⟩ := h
  refine ⟨⟨?_, distinct, ?_⟩, current, ?_, barriers⟩
  · intro w member
    rcases List.mem_append.mp member with old | new
    · exact numbers w old
    · rw [List.mem_singleton.mp new]
      exact Nat.le_refl _
  · intro n inRange
    rw [writeEvent_chunk]
    split
    next here =>
      rw [here, current]
      simp [State.writeEvent, ← current, contents s.numSplits (Nat.le_refl _)]
    next elsewhere =>
      have other : names n ≠ s.files.filename := by
        rw [← current]
        exact fun same => elsewhere (distinct n s.numSplits inRange (Nat.le_refl _) same)
      simp only [State.writeEvent, Function.update_of_ne other]
      exact contents n inRange
  · intro r member
    obtain ⟨earlier, old, new, ends⟩ := rotated r member
    refine ⟨earlier, old, new, ?_⟩
    rw [writeEvent_chunk, if_neg (Nat.ne_of_lt earlier)]
    exact ends

theorem Intact.fresh (h : Intact s names) {filename : Name} (absent : s.files.dir filename = none) (n : Nat)
    (inRange : n ≤ s.numSplits) : names n ≠ filename := by
  intro same
  have content := h.contents n inRange
  rw [same, absent] at content
  cases content

theorem Filed.opened (h : Filed args s names) {files : Files}
    (dir : files.dir = Function.update s.files.dir files.filename (some []))
    (fresh : ∀ n ≤ s.numSplits, names n ≠ files.filename) {reported : List (Completed × Nat)}
    (barrier : ∀ r ∈ reported, r.2 = s.numSplits ∧ r.1.oldFile = s.files.filename ∧
      r.1.newFile = files.filename ∧
      EndsWith r.1.cycle (s.chunk s.numSplits))
    (only : args.autoIncrement = false → reported ≠ []) :
    Filed args { s.startedLog files with rotations := s.rotations ++ reported }
      (Function.update names (s.numSplits + 1) files.filename) := by
  obtain ⟨⟨numbers, distinct, contents⟩, current, rotated, barriers⟩ := h
  have older {n : Nat} (inRange : n ≤ s.numSplits) :
      Function.update names (s.numSplits + 1) files.filename n = names n :=
    Function.update_of_ne (by omega) _ _
  have newest : Function.update names (s.numSplits + 1) files.filename (s.numSplits + 1) = files.filename :=
    Function.update_self _ _ _
  refine ⟨⟨fun w member => Nat.le_succ_of_le (numbers w member), ?_, ?_⟩, newest, ?_, ?_⟩
  · intro m n mRange nRange same
    rcases Nat.lt_or_eq_of_le mRange with mOld | rfl
    · rcases Nat.lt_or_eq_of_le nRange with nOld | rfl
      · rw [older (Nat.le_of_lt_succ mOld), older (Nat.le_of_lt_succ nOld)] at same
        exact distinct m n (Nat.le_of_lt_succ mOld) (Nat.le_of_lt_succ nOld) same
      · rw [older (Nat.le_of_lt_succ mOld)] at same
        exact absurd (same.trans newest) (fresh m (Nat.le_of_lt_succ mOld))
    · rcases Nat.lt_or_eq_of_le nRange with nOld | rfl
      · rw [older (Nat.le_of_lt_succ nOld)] at same
        exact absurd (same.symm.trans newest) (fresh n (Nat.le_of_lt_succ nOld))
      · rfl
  · intro n (inRange : n ≤ s.numSplits + 1)
    change files.dir _ = some (s.chunk n)
    rcases Nat.lt_or_eq_of_le inRange with old | rfl
    · have other := fresh n (Nat.le_of_lt_succ old)
      rw [older (Nat.le_of_lt_succ old), dir, Function.update_of_ne other]
      exact contents n (Nat.le_of_lt_succ old)
    · -- nothing has been written to the new file yet
      have empty : s.written.filter (fun w => w.2 = s.numSplits + 1) = [] := by
        refine List.filter_eq_nil_iff.mpr fun w member => ?_
        have earlier := numbers w member
        simp only [decide_eq_true_eq]
        omega
      rw [newest, dir, Function.update_self, State.chunk]
      change some [] = some ((s.written.filter fun w => w.2 = s.numSplits + 1).map Prod.fst)
      rw [empty]
      rfl
  · intro r member
    rcases List.mem_append.mp member with old | new
    · obtain ⟨earlier, oldFile, newFile, ends⟩ := rotated r old
      refine ⟨Nat.lt_succ_of_lt earlier, ?_, ?_, ends⟩
      · rw [older (Nat.le_of_lt earlier), oldFile]
      · rw [older earlier, newFile]
    · obtain ⟨number, oldFile, newFile, ends⟩ := barrier r new
      refine ⟨number ▸ Nat.lt_succ_self _, ?_, ?_, number ▸ ends⟩
      · rw [number, older (Nat.le_refl _), current, oldFile]
      · rw [number, newest, newFile]
  · intro unincremented n (inRange : n < s.numSplits + 1)
    rcases Nat.lt_or_eq_of_le (Nat.le_of_lt_succ inRange) with old | rfl
    · obtain ⟨r, member, same⟩ := barriers unincremented n old
      exact ⟨r, List.mem_append_left _ member, by rw [older (Nat.le_of_lt old), same]⟩
    · obtain ⟨r, member⟩ := List.exists_mem_of_ne_nil reported (only unincremented)
      obtain ⟨-, oldFile, -, -⟩ := barrier r member
      exact ⟨r, List.mem_append_right _ member, by rw [older (Nat.le_refl _), current, oldFile]⟩

end Chunks

section Steps

variable {s t : State}

structure Consistent (args : Args) (s : State) : Prop where
  sighup : s.gotSighup = true → args.autoIncrement = true ∨ args.rotate > 0
  unrotated : args.rotate > 0 → s.rotations = []
  written : ∀ request, s.pc = .written request → EndsWith request.cycle (s.chunk s.numSplits)
  filed : args.rotate ≤ 0 → ∃ names, Filed args s names

theorem Consistent.kept (h : Consistent args s) (files : t.files = s.files) (numSplits : t.numSplits = s.numSplits)
    (written : t.written = s.written) (rotations : t.rotations = s.rotations)
    (gotSighup : t.gotSighup = true → args.autoIncrement = true ∨ args.rotate > 0)
    (pc : ∀ request, t.pc = .written request → s.pc = .written request) : Consistent args t := by
  refine ⟨gotSighup, rotations ▸ h.unrotated, ?_, ?_⟩
  · intro request holds
    rw [State.chunk, written, numSplits]
    exact h.written request (pc request holds)
  · intro noRotate
    obtain ⟨names, filed⟩ := h.filed noRotate
    exact ⟨names, filed.same files numSplits written rotations⟩

theorem Consistent.opened (h : Consistent args s) (noBarrier : ∀ request, s.pc ≠ .written request)
    (opened : OpenedLogs args rounds s t) : Consistent args t := by
  induction opened with
  | none => exact h
  | @another t before due o files opened ih =>
      have pc : t.pc = s.pc := by rw [before.fields.1]
      refine ⟨ih.sighup, ih.unrotated, fun request holds => absurd (pc.symm.trans holds) (noBarrier request), ?_⟩
      intro noRotate
      have increments : args.autoIncrement = true := by
        rcases due with increments | rotates | got
        · exact increments
        · omega
        · exact (ih.sighup got).resolve_right (by omega)
      obtain ⟨names, filed⟩ := ih.filed noRotate
      rw [nextLogfile_eq noRotate] at opened
      obtain ⟨dir, absent | ⟨unincremented, -⟩⟩ := openLogfile_fresh noRotate opened
      · have added := @Filed.opened args t names filed files dir (filed.intact.fresh absent) []
          (fun r absurd => by cases absurd)
          (fun unincremented => by rw [increments] at unincremented; cases unincremented)
        exact ⟨_, added.same rfl rfl rfl (List.append_nil _).symm⟩
      · rw [increments] at unincremented
        cases unincremented

theorem OpenedLogs.exit (opened : OpenedLogs args rounds s t) : OpenedLogs args rounds s.exit t.exit := by
  induction opened with
  | none => exact .none
  | another before due o files opened ih => exact .another ih due o files opened

theorem Consistent.wrote (h : Consistent args s) (le : Event) {got : Bool} {pc : Pc}
    (gotSighup : got = true → args.autoIncrement = true ∨ args.rotate > 0)
    (written : ∀ request, pc = .written request → EndsWith request.cycle (s.chunk s.numSplits ++ [le])) :
    Consistent args { s.writeEvent le with gotSighup := got, pc := pc } := by
  refine ⟨gotSighup, h.unrotated, ?_, ?_⟩
  · intro request holds
    change EndsWith request.cycle ((s.writeEvent le).chunk s.numSplits)
    rw [writeEvent_chunk, if_pos rfl]
    exact written request holds
  · intro noRotate
    obtain ⟨names, filed⟩ := h.filed noRotate
    exact ⟨names, (filed.wrote le).same rfl rfl rfl rfl⟩

theorem new_name {names : Nat → Name} (filed : Filed args s names) {request : CycleRequestFrame} {o : Outcome}
    (holds : s.pc = .written request) (newName : NewName args s (.main o)) {files : Files}
    (opened : openLogfile args rounds o.first s.files = some (some files)) (n : Nat) (inRange : n ≤ s.numSplits) :
    names n ≠ files.filename := by
  obtain ⟨noRotate, unused⟩ := newName request holds
  obtain ⟨-, absent | ⟨unincremented, force, named⟩⟩ := openLogfile_fresh noRotate opened
  · exact filed.intact.fresh absent n inRange
  · obtain ⟨current, earlier⟩ := (unused.resolve_left (by simp [unincremented])).resolve_left (by simp [force])
    rw [named]
    rcases Nat.lt_or_eq_of_le inRange with old | rfl
    · obtain ⟨r, member, same⟩ := filed.barriers unincremented n old
      rw [← same]
      exact earlier r member
    · rw [filed.current]
      exact current

theorem Consistent.next (h : Consistent args s) {a : Action} (newName : NewName args s a)
    (moves : Moves args sizeofLogEvent rounds s a t) : Consistent args t := by
  have released (files : t.files = s.files) (numSplits : t.numSplits = s.numSplits) (written : t.written = s.written)
      (rotations : t.rotations = s.rotations) (gotSighup : t.gotSighup = s.gotSighup)
      (pc : ∀ request, t.pc ≠ .written request) : Consistent args t :=
    h.kept files numSplits written rotations (fun got => h.sighup (gotSighup ▸ got))
      fun request holds => absurd holds (pc request)
  cases moves with
  | pushes => exact h.kept rfl rfl rfl rfl h.sighup fun _ => id
  | enqueues => exact h.kept rfl rfl rfl rfl h.sighup fun _ => id
  | replies => exact h.kept rfl rfl rfl rfl h.sighup fun _ => id
  | replyFails => exact released rfl rfl rfl rfl rfl (by simp [State.exit])
  | sigterm => exact h.kept rfl rfl rfl rfl h.sighup fun _ => id
  | dies => exact released rfl rfl rfl rfl rfl (by simp [State.exit])
  | sighup got due => exact h.kept rfl rfl rfl rfl (fun isGot => (due isGot).elim h.sighup id) fun _ => id
  | idles => exact h
  | stops => exact released rfl rfl rfl rfl rfl (by simp)
  | pops => exact released rfl rfl rfl rfl rfl (by simp)
  | writesData le holds data s' opened =>
      have before := h.opened (by simp [holds]) opened
      exact @Consistent.wrote args s' before le false .looping (by simp) (by simp)
  | losesData le holds data s' opened =>
      have before := h.opened (by simp [holds]) opened
      exact before.kept rfl rfl rfl rfl (by simp) (by simp)
  | writesBarrier le holds isBarrier request parses =>
      refine h.wrote le h.sighup ?_
      rintro request' same
      cases same
      exact ⟨s.chunk s.numSplits, le, request, rfl, isBarrier, parses, rfl⟩
  | losesBarrier => exact released rfl rfl rfl rfl rfl (by simp)
  | rotates request holds files opened =>
      have noRotate := (newName request holds).1
      rw [nextLogfile_eq noRotate] at opened
      refine ⟨h.sighup, fun absurd => by omega, (fun request' absurd => by cases absurd), fun _ => ?_⟩
      obtain ⟨names, filed⟩ := h.filed noRotate
      have barrier : EndsWith request.cycle (s.chunk s.numSplits) := h.written request holds
      have added := @Filed.opened args s names filed files (openLogfile_fresh noRotate opened).1
        (new_name filed holds newName opened) [(⟨request.cycle, s.files.filename, files.filename⟩, s.numSplits)]
        (fun r member => by rw [List.mem_singleton.mp member]; exact ⟨rfl, rfl, rfl, barrier⟩) (fun _ => by simp)
      exact ⟨_, added.same rfl rfl rfl rfl⟩
  | records => exact released rfl rfl rfl rfl rfl (by simp [State.recordCycle])
  | completes => exact released rfl rfl rfl rfl rfl (by simp)
  | returns => exact released rfl rfl rfl rfl rfl (by simp [State.returnFromMain])
  | exits s' opened got kept frames errors fatal =>
      have left : Consistent args s.exit := h.kept rfl rfl rfl rfl h.sighup (by simp [State.exit])
      have after := left.opened (by simp [State.exit]) opened.exit
      exact after.kept rfl rfl rfl rfl (fun isGot => h.sighup (kept isGot)) (by simp [State.exit])

end Steps

section Runs

variable {s : State} {dir : Dir} {o : Opening} {sends : Bool}

theorem start_consistent (starts : State.start args rounds dir o sends = some s) : Consistent args s := by
  obtain ⟨files, frames, opened, -, rfl⟩ := start_eq starts
  refine ⟨by simp, fun _ => rfl, by simp, fun noRotate => ⟨fun _ => files.filename, ?_⟩⟩
  have dir' := (openLogfile_fresh noRotate opened).1
  refine ⟨⟨by simp, fun m n (mRange : m ≤ 0) (nRange : n ≤ 0) _ => by omega, ?_⟩, rfl, by simp,
    fun _ n absurd => by cases absurd⟩
  intro n inRange
  simp [dir', State.chunk]

/-- In every run whose barriers open files with new names, what a completion says about the files is true,
when it is sent and from then on. -/
theorem completions_tell_truth (starts : State.start args rounds dir o sends = some s) {es : List Action}
    (meets : Runs.Meets (State.next args sizeofLogEvent rounds) (NewName args) s es) {pre : List Action}
    (reached : pre <+: es) {t : State} (runs : Runs.run (State.next args sizeofLogEvent rounds) s pre = some t) :
    TellsTruth t := by
  obtain ⟨reported, consistent⟩ := @Runs.run_invariant _ _ (State.next args sizeofLogEvent rounds) (NewName args)
    (fun s => Reported s ∧ Consistent args s)
    (fun s a t inv newName steps => ⟨inv.1.next (next_moves steps), inv.2.next newName (next_moves steps)⟩)
    s es ⟨start_reported starts, start_consistent starts⟩ meets pre reached t runs
  intro cycle oldFile newFile sent
  obtain ⟨⟨c, n⟩, rotated, rfl⟩ := reported.answers cycle oldFile newFile sent
  have noRotate : args.rotate ≤ 0 := by
    by_contra rotates
    rw [consistent.unrotated (by omega)] at rotated
    cases rotated
  obtain ⟨names, filed⟩ := consistent.filed noRotate
  obtain ⟨earlier, old, new, ends⟩ := filed.rotated _ rotated
  simp only at earlier old new ends
  refine ⟨?_, ⟨n, rotated, ?_, ends⟩, names, filed.intact⟩
  · rw [← old, ← new]
    intro same
    have absurd := filed.intact.distinct (n + 1) n earlier (Nat.le_of_lt earlier) same
    omega
  · rw [← old]
    exact filed.intact.contents n (Nat.le_of_lt earlier)

theorem increments_newName (es : List Action) :
    Runs.Meets (State.next plainArgs 48 10) (NewName plainArgs) plainLogger es := by
  refine Runs.meets_of_forall (fun a _ s => ?_) plainLogger
  cases a with
  | main o => exact fun _ _ => ⟨by decide, .inl rfl⟩
  | handler => trivial
  | sigterm => trivial
  | sighup => trivial

theorem completions_tell_truth_oneCycle :
    TellsTruth ((Runs.run (State.next plainArgs 48 10) plainLogger (asks 1 :: cycleSteps)).get (by decide)) :=
  completions_tell_truth (Option.some_get _).symm (increments_newName _) List.prefix_rfl (Option.some_get _).symm

def rotatingArgs : Args :=
  { plainArgs with autoIncrement := false, rotate := 2, exclusive := by decide, splits := by simp }

def rotatingLogger : State := (State.start rotatingArgs 10 (fun _ => none) opens true).get (by decide)

/-- Both names of the completion are those of the new file, which is empty. -/
theorem rotated_file_misnamed :
    ∃ t, Runs.run (State.next rotatingArgs 48 10) rotatingLogger (asks 1 :: cycleSteps) = some t ∧
    t.sent = [.ready 7, .cycleComplete ⟨7, 1⟩ (ascii ['l', 'o', 'g', '.', '0'])
      (ascii ['l', 'o', 'g', '.', '0'])] ∧
    t.files.dir (ascii ['l', 'o', 'g', '.', '0']) = some [] ∧ ¬ TellsTruth t := by
  have ended : (Runs.run (State.next rotatingArgs 48 10) rotatingLogger (asks 1 :: cycleSteps)).map
      (fun t => (t.sent, t.files.dir (ascii ['l', 'o', 'g', '.', '0']))) = some ([.ready 7,
        .cycleComplete ⟨7, 1⟩ (ascii ['l', 'o', 'g', '.', '0']) (ascii ['l', 'o', 'g', '.', '0'])],
          some []) := by decide
  obtain ⟨t, runs, same⟩ := Option.map_eq_some_iff.mp ended
  simp only [Prod.mk.injEq] at same
  obtain ⟨sent, emptied⟩ := same
  refine ⟨t, runs, sent, emptied, fun truth => ?_⟩
  obtain ⟨other, -⟩ := truth _ _ _ (by rw [sent]; exact List.mem_cons_of_mem _ (List.mem_singleton.mpr rfl))
  exact other rfl

end Runs

end Zcm.Logger
