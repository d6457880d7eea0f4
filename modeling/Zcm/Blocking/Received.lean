import Zcm.Blocking.Launch

namespace Zcm.Blocking
open Zcm.Lib Zcm.Util

inductive Share
  | blank
  | holding
  | reading (m : Option Msg)
  | popping
  | pushing (m : Msg)
deriving DecidableEq

def Pc.share : Pc → Share
  | .dispTop _ | .dispDone .. | .handlePoll | .flushEnableRecv | .flushCountRecv
  | .resizeSetRecv _ | .resizeEnableRecv | .resizeUnlockRecv => .holding
  | .dispCheck _ m | .dispMsg _ m => .reading m
  | .dispPop _ => .popping
  | .recvPush m => .pushing m
  | _ => .blank

theorem Pc.spot_of_share {p : Pc} (owns : p.share ≠ .blank) :
    p.spot = .calling ∨ p.spot = .handling ∨ p.spot = .receiving := by
  have caller : ∀ c : DispCaller, c.spot = .calling ∨ c.spot = .handling ∨ c.spot = .receiving := by
    intro c
    cases c <;> simp [DispCaller.spot]
  cases p
  case dispTop c | dispCheck c _ | dispMsg c _ | dispPop c | dispDone c _ => exact caller c
  all_goals first
    | exact absurd rfl owns
    | exact .inl rfl
    | exact .inr (.inr rfl)

theorem Pc.share_of_spot_idle {p : Pc} (idle : p.spot = .idle) : p.share = .blank := by
  by_contra owns
  rcases Pc.spot_of_share owns with spot | spot | spot
  all_goals
    rw [idle] at spot
    cases spot

def Share.pending : Share → List Msg
  | .pushing m => [m]
  | _ => []

structure Custody where
  queue : Queue Msg
  mutex : Option Agent
  share : Agent → Share
  dispatched : List Msg

namespace Custody

def give (k : Custody) (a : Agent) (x : Share) : Custody := { k with share := Function.update k.share a x }

def waiting (k : Custody) : List (Option Msg) :=
  if ∃ a ∈ k.mutex, k.share a = .popping then k.queue.contents.tail else k.queue.contents

/-- The messages received so far are those dispatched, those waiting in the queue and the one about to be
pushed, in this order. -/
structure Keeps (k : Custody) (received : List Msg) : Prop where
  inBounds : k.queue.InBounds
  held : ∀ a, k.share a ≠ .blank → (∀ m, k.share a ≠ .pushing m) → k.mutex = some a
  front : ∀ a m, k.share a = .reading m → k.queue.contents.head? = some m
  popping : ∀ a, k.share a = .popping → k.queue.contents ≠ []
  pusher : ∀ a m, k.share a = .pushing m → a = .receiver
  flow : received.map some =
    k.dispatched.map some ++ k.waiting ++ (k.share .receiver).pending.map some

inductive Step (k : Custody) (a : Agent) : Custody → Prop
  | quiet : Step k a k
  | forgets (m : Option Msg) (was : k.share a = .reading m) : Step k a (k.give a .holding)
  | locks (free : k.mutex = none) (was : k.share a = .blank) :
      Step k a ({ k with mutex := some a }.give a .holding)
  | unlocks (was : k.share a = .holding) : Step k a ({ k with mutex := none }.give a .blank)
  | reads (was : k.share a = .holding) (message : k.queue.hasMessage = true) :
      Step k a (k.give a (.reading k.queue.top))
  | dispatches (m : Option Msg) (was : k.share a = .reading m) :
      Step k a ({ k with dispatched := k.dispatched ++ m.toList }.give a .popping)
  | pops (was : k.share a = .popping) : Step k a ({ k with queue := k.queue.pop }.give a .holding)
  | pushes (m : Msg) (was : k.share a = .pushing m) (room : k.queue.hasFreeSpace = true) :
      Step k a ({ k with queue := k.queue.push m }.give a .blank)
  | resizes (n : Nat) (was : k.share a = .holding) (fits : k.queue.numMessages < n) :
      Step k a ({ k with queue := k.queue.setCapacity n }.give a .holding)

variable {k k' : Custody} {a : Agent} {received : List Msg}

theorem give_share (k : Custody) (a b : Agent) (x : Share) :
    (k.give a x).share b = if b = a then x else k.share b := by
  simp [give, Function.update_apply]

theorem Keeps.alone (keeps : k.Keeps received) (held : k.mutex = some a) {b : Agent} (other : b ≠ a) :
    k.share b = .blank ∨ ∃ m, k.share b = .pushing m := by
  by_contra share
  push Not at share
  have := keeps.held b share.1 share.2
  rw [held] at this
  exact other (Option.some.inj this).symm

theorem waiting_of_holder (held : k.mutex = some a) :
    k.waiting = if k.share a = .popping then k.queue.contents.tail else k.queue.contents := by
  simp [waiting, held]

theorem waiting_give (queue : Queue Msg) (share : Agent → Share) (dispatched : List Msg) (x : Share) :
    (give ⟨queue, some a, share, dispatched⟩ a x).waiting =
      if x = .popping then queue.contents.tail else queue.contents := by
  simp [waiting, give]

theorem waiting_of_free (free : k.mutex = none) : k.waiting = k.queue.contents := by
  simp [waiting, free]

theorem Keeps.moves (keeps : k.Keeps received)
    (others : ∀ b, b ≠ a → k.share b = .blank ∨ ∃ m, k.share b = .pushing m) {queue : Queue Msg}
    {mutex : Option Agent} {dispatched : List Msg} {x : Share} (holder : x ≠ .blank → mutex = some a)
    (was : (k.share a).pending = []) (is : x.pending = []) (inBounds : queue.InBounds)
    (front : ∀ m, x = .reading m → queue.contents.head? = some m)
    (popping : x = .popping → queue.contents ≠ [])
    (moved : dispatched.map some ++ (give ⟨queue, mutex, k.share, dispatched⟩ a x).waiting =
      k.dispatched.map some ++ k.waiting) :
    (give ⟨queue, mutex, k.share, dispatched⟩ a x).Keeps received := by
  have mine : (give ⟨queue, mutex, k.share, dispatched⟩ a x).share a = x := by simp [give_share]
  have theirs : ∀ b, b ≠ a → (give ⟨queue, mutex, k.share, dispatched⟩ a x).share b = k.share b :=
    fun b other => by simp [give_share, other]
  have pending : ((give ⟨queue, mutex, k.share, dispatched⟩ a x).share .receiver).pending =
      (k.share .receiver).pending := by
    by_cases self : Agent.receiver = a
    · rw [self, mine, is, was]
    · rw [theirs _ self]
  refine ⟨inBounds, fun b owns notPushing => ?_, fun b m reads => ?_, fun b pops => ?_,
    fun b m pushes => ?_, ?_⟩
  · by_cases self : b = a
    · subst self
      rw [mine] at owns
      exact holder owns
    · rw [theirs b self] at owns notPushing
      rcases others b self with blank | ⟨m, pushes⟩
      · exact absurd blank owns
      · exact absurd pushes (notPushing m)
  · by_cases self : b = a
    · subst self
      rw [mine] at reads
      exact front m reads
    · rw [theirs b self] at reads
      rcases others b self with blank | ⟨m, pushes⟩ <;> simp_all
  · by_cases self : b = a
    · subst self
      rw [mine] at pops
      exact popping pops
    · rw [theirs b self] at pops
      rcases others b self with blank | ⟨m, pushes⟩ <;> simp_all
  · by_cases self : b = a
    · subst self
      rw [mine] at pushes
      rw [pushes] at is
      cases is
    · rw [theirs b self] at pushes
      exact keeps.pusher b m pushes
  · rw [pending, keeps.flow]
    exact congrArg (· ++ (k.share .receiver).pending.map some) moved.symm

theorem Keeps.pushes (keeps : k.Keeps received) {m : Msg} (was : k.share a = .pushing m)
    (room : k.queue.hasFreeSpace = true) :
    ({ k with queue := k.queue.push m }.give a .blank).Keeps received := by
  obtain rfl := keeps.pusher a m was
  have contents := Queue.contents_push keeps.inBounds room m
  have theirs : ∀ {b x}, ({ k with queue := k.queue.push m }.give .receiver .blank).share b = x →
      x ≠ .blank → k.share b = x := by
    intro b x share owns
    rw [give_share] at share
    split at share
    · exact absurd share.symm owns
    · exact share
  refine ⟨keeps.inBounds.push m, fun b owns notPushing => ?_, fun b n reads => ?_, fun b pops => ?_,
    fun b n pushes => keeps.pusher b n (theirs pushes nofun), ?_⟩
  · have share := theirs rfl owns
    refine keeps.held b (share ▸ owns) (share ▸ notPushing)
  · have before := keeps.front b n (theirs reads nofun)
    change (k.queue.push m).contents.head? = some n
    rw [contents, List.head?_append, before]
    rfl
  · have before := keeps.popping b (theirs pops nofun)
    change (k.queue.push m).contents ≠ []
    rw [contents]
    simp
  · have waiting : ({ k with queue := k.queue.push m }.give .receiver .blank).waiting =
        k.waiting ++ [some m] := by
      cases holder : k.mutex with
      | none =>
          rw [waiting_of_free holder]
          exact (waiting_of_free rfl).trans contents
      | some b =>
          rw [waiting_of_holder holder]
          refine (waiting_of_holder (a := b) rfl).trans ?_
          change (if _ then (k.queue.push m).contents.tail else (k.queue.push m).contents) = _
          rw [contents]
          by_cases pops : k.share b = .popping
          · have other : b ≠ .receiver := by
              rintro rfl
              rw [was] at pops
              cases pops
            rw [if_pos (by simpa [give_share, other] using pops), if_pos pops]
            exact List.tail_append_of_ne_nil (keeps.popping b pops)
          · rw [if_neg pops]
            exact if_neg fun after => pops (theirs after nofun)
    have blank : ({ k with queue := k.queue.push m }.give .receiver .blank).share .receiver = .blank := by
      simp [give_share]
    rw [waiting, blank, keeps.flow, was]
    simp [Share.pending, give]

theorem Keeps.step (keeps : k.Keeps received) (h : Step k a k') : k'.Keeps received := by
  have alone : k.mutex = some a → ∀ b, b ≠ a → k.share b = .blank ∨ ∃ m, k.share b = .pushing m :=
    fun held b other => keeps.alone held other
  cases h with
  | quiet => exact keeps
  | pushes m was room => exact keeps.pushes was room
  | forgets m was =>
      have held := keeps.held a (by simp [was]) (by simp [was])
      refine keeps.moves (alone held) (fun _ => held) (by rw [was]; rfl) rfl keeps.inBounds nofun nofun ?_
      rw [waiting_of_holder held, held, waiting_give, was]
      rfl
  | locks free was =>
      refine keeps.moves (fun b _ => ?_) (fun _ => rfl) (by rw [was]; rfl) rfl keeps.inBounds nofun nofun ?_
      · by_contra share
        push Not at share
        have := keeps.held b share.1 share.2
        rw [free] at this
        cases this
      · rw [waiting_of_free free, waiting_give]
        rfl
  | unlocks was =>
      have held := keeps.held a (by simp [was]) (by simp [was])
      refine keeps.moves (alone held) (fun blank => absurd rfl blank) (by rw [was]; rfl) rfl keeps.inBounds
        nofun nofun ?_
      rw [waiting_of_holder held, waiting_of_free rfl, was]
      simp [give]
  | reads was message =>
      have held := keeps.held a (by simp [was]) (by simp [was])
      refine keeps.moves (alone held) (fun _ => held) (by rw [was]; rfl) rfl keeps.inBounds ?_ nofun ?_
      · rintro m reads
        cases reads
        rw [Queue.contents_advance keeps.inBounds message]
        rfl
      · rw [waiting_of_holder held, held, waiting_give, was]
        rfl
  | dispatches m was =>
      have held := keeps.held a (by simp [was]) (by simp [was])
      obtain ⟨rest, contents⟩ : ∃ rest, k.queue.contents = m :: rest := by
        have front := keeps.front a m was
        cases contents : k.queue.contents with
        | nil => simp [contents] at front
        | cons x rest =>
            rw [contents] at front
            cases front
            exact ⟨rest, rfl⟩
      have waits : k.waiting = m :: rest := by
        rw [waiting_of_holder held, was, contents]
        rfl
      obtain ⟨x, rfl⟩ : ∃ x, m = some x := by
        have member : m ∈ received.map some := by
          rw [keeps.flow, waits]
          simp
        obtain ⟨x, -, rfl⟩ := List.mem_map.mp member
        exact ⟨x, rfl⟩
      refine keeps.moves (alone held) (fun _ => held) (by rw [was]; rfl) rfl keeps.inBounds nofun
        (fun _ => by simp [contents]) ?_
      rw [waits, held, waiting_give, contents]
      simp
  | pops was =>
      have held := keeps.held a (by simp [was]) (by simp [was])
      have message : k.queue.hasMessage = true := by
        have nonempty := keeps.popping a was
        rw [keeps.inBounds.hasMessage_iff, ← Queue.contents_length]
        exact List.length_pos_of_ne_nil nonempty
      refine keeps.moves (alone held) (fun _ => held) (by rw [was]; rfl) rfl keeps.inBounds.pop nofun nofun ?_
      rw [waiting_of_holder held, held, waiting_give, was, Queue.contents_pop keeps.inBounds message]
      rfl
  | resizes n was fits =>
      have held := keeps.held a (by simp [was]) (by simp [was])
      refine keeps.moves (alone held) (fun _ => held) (by rw [was]; rfl) rfl (keeps.inBounds.setCapacity fits)
        nofun nofun ?_
      rw [waiting_of_holder held, held, waiting_give, was,
        Queue.contents_setCapacity keeps.inBounds fits]

theorem Keeps.receives (keeps : k.Keeps received) (blank : k.share .receiver = .blank) (m : Msg) :
    (k.give .receiver (.pushing m)).Keeps (received ++ [m]) := by
  have theirs : ∀ {b x}, (k.give .receiver (.pushing m)).share b = x → (∀ n, x ≠ .pushing n) →
      k.share b = x := by
    intro b x share notPushing
    rw [give_share] at share
    split at share
    · exact absurd share.symm (notPushing m)
    · exact share
  have waiting : (k.give .receiver (.pushing m)).waiting = k.waiting := by
    unfold Custody.waiting
    refine if_congr ⟨?_, ?_⟩ rfl rfl
    · rintro ⟨b, holder, pops⟩
      exact ⟨b, holder, theirs pops nofun⟩
    · rintro ⟨b, holder, pops⟩
      refine ⟨b, holder, ?_⟩
      rw [give_share, if_neg ?_]
      · exact pops
      · rintro rfl
        rw [blank] at pops
        cases pops
  refine ⟨keeps.inBounds, fun b owns notPushing => ?_, fun b n reads => keeps.front b n (theirs reads nofun),
    fun b pops => keeps.popping b (theirs pops nofun), fun b n pushes => ?_, ?_⟩
  · have share := theirs rfl notPushing
    exact keeps.held b (share ▸ owns) (share ▸ notPushing)
  · rw [give_share] at pushes
    split at pushes
    · assumption
    · exact keeps.pusher b n pushes
  · have mine : (k.give .receiver (.pushing m)).share .receiver = .pushing m := by simp [give_share]
    have flow := keeps.flow
    rw [blank] at flow
    rw [waiting, mine, List.map_append, flow]
    simp [Share.pending, give]

end Custody

namespace State

def custody (s : State) : Custody where
  queue := s.recvQueue.queue
  mutex := s.dispOneMutex
  share := fun a => (s.pc a).share
  dispatched := s.dispatched

@[simp] theorem custody_goto (s : State) (a : Agent) (p : Pc) :
    (s.goto a p).custody = s.custody.give a p.share := by
  unfold goto custody Custody.give
  congr 1
  funext b
  by_cases self : b = a
  · subst self
    simp
  · simp [self]

/-- The receive thread does not find the queue full and disabled, and nobody shrinks the queue to its
contents or below. -/
def LosesNothing (s : State) : Event → Prop
  | .call _ c => ∀ block, c ≠ .stop block
  | .step a =>
      (∀ m, s.pc a = .recvPush m → s.recvQueue.isEnabled = true ∨ s.recvQueue.queue.hasFreeSpace = true) ∧
        ∀ n, s.pc a = .resizeSetRecv n → s.recvQueue.numMessages < n
  | .transport _ | .wake _ => True

theorem custody_give_same {s : State} {a : Agent} {p : Pc} (stays : p.share = (s.pc a).share) :
    (s.goto a p).custody = s.custody := by
  rw [custody_goto]
  unfold Custody.give
  congr 1
  exact Function.update_eq_self_iff.mpr stays

theorem custody_quiet {s u : State} {a : Agent} {p : Pc} (same : u.custody = s.custody)
    (stays : p.share = (s.pc a).share) : s.custody.Step a (u.goto a p).custody := by
  rw [custody_goto, same, ← custody_goto, custody_give_same stays]
  exact .quiet

theorem custody_unlocks {s u : State} {a : Agent} {p : Pc}
    (same : u.custody = { s.custody with mutex := none }) (was : (s.pc a).share = .holding)
    (blank : p.share = .blank) : s.custody.Step a (u.goto a p).custody := by
  rw [custody_goto, same, blank]
  exact .unlocks was

theorem custody_locks {s u : State} {a : Agent} {p : Pc} (free : s.dispOneMutex = none)
    (same : u.custody = { s.custody with mutex := some a }) (was : (s.pc a).share = .blank)
    (holding : p.share = .holding) : s.custody.Step a (u.goto a p).custody := by
  rw [custody_goto, same, holding]
  exact .locks free was

@[simp] theorem dispNext_share (dispatched : Bool) (c : DispCaller) :
    (dispNext dispatched c).share = .holding := by
  cases c with
  | thread | handle => rfl
  | flush left =>
      simp only [dispNext, flushDisp]
      split <;> rfl

@[simp] theorem sendNext_share (c : SendCaller) : (sendNext c).share = .blank := by
  cases c with
  | thread => rfl
  | flush block left =>
      simp only [sendNext, flushSend]
      split <;> rfl

theorem custody_spawnSend {s : State} (blank : (s.pc .sender).share = .blank) :
    s.spawnSend.custody = s.custody :=
  custody_give_same (s := { s with sendThread := true, crashed := s.crashed || s.sendThread }) blank.symm

theorem custody_spawnRecv {s : State} (blank : (s.pc .receiver).share = .blank) :
    s.spawnRecv.custody = s.custody :=
  custody_give_same (s := { s with recvThread := true, crashed := s.crashed || s.recvThread }) blank.symm

theorem custody_spawnHndl {s : State} (blank : (s.pc .handler).share = .blank) :
    s.spawnHndl.custody = s.custody :=
  custody_give_same (s := { s with hndlThread := true, crashed := s.crashed || s.hndlThread }) blank.symm

theorem share_sender {s : State} (roles : s.lifecycle.Roles) : (s.pc .sender).share = .blank := by
  have mine := roles .sender
  by_contra owns
  rcases Pc.spot_of_share owns with spot | spot | spot
  all_goals
    change (s.pc .sender).spot.allows .sender = true at mine
    rw [spot] at mine
    cases mine

section Parts

variable {s t : State} {a : Agent}

theorem custody_calling (launch : s.lifecycle.Launch) (part : (s.pc a).part = .calling)
    (h : s.advance a = some t) : s.custody.Step a t.custody := by
  unfold advance at h
  cases hp : s.pc a <;> simp only [hp, Pc.part, reduceCtorEq] at part h
  all_goals have share := congrArg Pc.share hp
  case publishSpawn m =>
    cases h
    unfold stepPublish
    split
    · refine custody_quiet (custody_spawnSend ?_) share.symm
      exact share_sender launch.roles
    · exact custody_quiet rfl share.symm
  case startSpawn =>
    cases h
    refine custody_quiet (custody_spawnHndl ?_) share.symm
    exact Pc.share_of_spot_idle (launch.starting a (congrArg Pc.spot hp)).2
  case handleSpawn =>
    cases h
    have launches : (s.lifecycle.spot a).launches = true := by
      rw [show s.lifecycle.spot a = _ from congrArg Pc.spot hp]
      rfl
    refine custody_quiet (custody_spawnRecv ?_) share.symm
    exact Pc.share_of_spot_idle (launch.launching a launches).2.1
  case handleLock nonblock =>
    rcases stepLockDisp_eq_some h with ⟨free, rfl⟩ | ⟨-, waits, -⟩
    · cases nonblock <;> exact custody_locks free rfl share rfl
    · cases waits
  case handlePoll =>
    split at h <;> cases h
    · exact custody_quiet rfl share.symm
    · exact custody_unlocks rfl share rfl
  case startMode | runMode | handleMode =>
    simp only [stepMode, stepHandleMode] at h
    repeat' split at h
    all_goals cases h
    all_goals exact custody_quiet rfl share.symm
  case runRestore =>
    split at h <;> cases h
    exact custody_quiet rfl share.symm
  all_goals
    cases h
    exact custody_quiet rfl share.symm

theorem custody_stopping (part : (s.pc a).part = .stopping) (h : s.advance a = some t) :
    s.custody.Step a t.custody := by
  unfold advance at h
  cases hp : s.pc a <;> simp only [hp, Pc.part, reduceCtorEq] at part h
  all_goals have share := congrArg Pc.share hp
  case stopJoinHndl | stopJoinRecv | stopJoinSend =>
    obtain ⟨u, joined, rfl⟩ := Option.map_eq_some_iff.mp h
    simp only [joinHndl, joinRecv, joinSend] at joined
    split at joined <;> cases joined
    exact custody_quiet rfl share.symm
  case stopPollRecv | stopPollSend =>
    simp only [stepStopPollRecv, stepStopPollSend, joinHndl, joinRecv, joinSend] at h
    repeat' split at h
    all_goals cases h
    all_goals exact custody_quiet rfl share.symm
  case stopRecv | stopSend =>
    cases h
    simp only [stepStopRecv, stepStopSend]
    repeat' split
    all_goals exact custody_quiet rfl share.symm
  case stopMode =>
    split at h <;> cases h
    exact custody_quiet rfl share.symm
  all_goals
    cases h
    exact custody_quiet rfl share.symm

theorem custody_flushing (part : (s.pc a).part = .flushing) (h : s.advance a = some t) :
    s.custody.Step a t.custody := by
  unfold advance at h
  cases hp : s.pc a <;> simp only [hp, Pc.part, reduceCtorEq] at part h
  all_goals have share := congrArg Pc.share hp
  case flushLockSend =>
    rcases stepLockSend_eq_some h with ⟨-, rfl⟩ | ⟨-, -, rfl⟩
    all_goals exact custody_quiet rfl share.symm
  case flushLockRecv =>
    rcases stepLockDisp_eq_some h with ⟨free, rfl⟩ | ⟨-, -, rfl⟩
    · exact custody_locks free rfl share rfl
    · exact custody_quiet rfl share.symm
  all_goals cases h
  case flushCountRecv =>
    have next : (flushDisp s.recvQueue.numMessages).share = .holding := by
      unfold flushDisp
      split <;> rfl
    exact custody_quiet rfl (next.trans share.symm)
  case flushCountSend block =>
    have next : (flushSend block s.sendQueue.numMessages).share = .blank := by
      unfold flushSend
      split <;> rfl
    exact custody_quiet rfl (next.trans share.symm)
  all_goals exact custody_quiet rfl share.symm

theorem custody_resizing (loses : s.LosesNothing (.step a)) (part : (s.pc a).part = .resizing)
    (h : s.advance a = some t) : s.custody.Step a t.custody := by
  unfold advance at h
  cases hp : s.pc a <;> simp only [hp, Pc.part, reduceCtorEq] at part h
  all_goals have share := congrArg Pc.share hp
  case resizeLockSend =>
    rcases stepLockSend_eq_some h with ⟨-, rfl⟩ | ⟨-, -, rfl⟩
    all_goals exact custody_quiet rfl share.symm
  case resizeLockRecv =>
    rcases stepLockDisp_eq_some h with ⟨free, rfl⟩ | ⟨-, -, rfl⟩
    · exact custody_locks free rfl share rfl
    · exact custody_quiet rfl share.symm
  all_goals cases h
  case resizeSetRecv n =>
    rw [custody_goto]
    exact .resizes n share (loses.2 n hp)
  case resizeUnlockRecv => exact custody_unlocks rfl share rfl
  case resizeCheckSend =>
    rw [apply_ite (s.goto a)]
    split <;> exact custody_quiet rfl share.symm
  case resizeCheckRecv => split <;> exact custody_quiet rfl share.symm
  all_goals exact custody_quiet rfl share.symm

theorem custody_sending (part : (s.pc a).part = .sending) (h : s.advance a = some t) :
    s.custody.Step a t.custody := by
  unfold advance at h
  cases hp : s.pc a <;> simp only [hp, Pc.part, reduceCtorEq] at part h
  all_goals have share := congrArg Pc.share hp
  case sendTop c =>
    obtain ⟨x, -, rfl⟩ := Option.map_eq_some_iff.mp h
    split
    · exact custody_quiet rfl ((sendNext_share c).trans share.symm)
    · exact custody_quiet rfl share.symm
  case sendLock =>
    rcases stepLockSend_eq_some h with ⟨-, rfl⟩ | ⟨-, -, rfl⟩
    all_goals exact custody_quiet rfl share.symm
  case sendWait =>
    rcases (stepWait_cases h).2 with ⟨rfl, -⟩ | ⟨-, rfl⟩
    · rw [apply_ite (s.goto a)]
      split <;> exact custody_quiet rfl share.symm
    · exact custody_quiet rfl share.symm
  all_goals cases h
  case sendCheck c m =>
    unfold stepSendCheck
    repeat' split
    · exact custody_quiet rfl ((sendNext_share .thread).trans share.symm)
    · exact custody_quiet rfl share.symm
    · exact custody_quiet rfl share.symm
  case sendPop c => exact custody_quiet rfl ((sendNext_share c).trans share.symm)
  case sendDone c => cases c <;> exact custody_quiet rfl share.symm
  all_goals exact custody_quiet rfl share.symm

theorem custody_receiving (loses : s.LosesNothing (.step a)) (part : (s.pc a).part = .receiving)
    (h : s.advance a = some t) : s.custody.Step a t.custody := by
  unfold advance at h
  cases hp : s.pc a <;> simp only [hp, Pc.part, reduceCtorEq] at part h
  all_goals have share := congrArg Pc.share hp
  case recvPush m =>
    obtain ⟨pushed, pushes, rfl⟩ := Option.map_eq_some_iff.mp h
    have room : s.recvQueue.queue.hasFreeSpace = true := by
      rcases loses.1 m hp with enabled | room
      · unfold ThreadsafeQueue.push at pushes
        split at pushes
        · next ready =>
            have on : s.recvQueue.disabled = false := by simpa [ThreadsafeQueue.isEnabled] using enabled
            simpa [on] using ready
        · cases pushes
      · exact room
    simp [ThreadsafeQueue.push, room] at pushes
    subst pushes
    rw [custody_goto]
    exact .pushes m share room
  all_goals cases h
  case recvCheck =>
    rw [apply_ite (s.goto a)]
    split <;> exact custody_quiet rfl share.symm
  case recvHalt => exact custody_quiet rfl share.symm

theorem custody_dispatching (part : (s.pc a).part = .dispatching) (h : s.advance a = some t) :
    s.custody.Step a t.custody := by
  unfold advance at h
  cases hp : s.pc a <;> simp only [hp, Pc.part, reduceCtorEq] at part h
  all_goals have share := congrArg Pc.share hp
  case dispTop c =>
    obtain ⟨top, tops, rfl⟩ := Option.map_eq_some_iff.mp h
    unfold ThreadsafeQueue.top at tops
    split at tops
    · next ready =>
        split at tops <;> cases tops
        · exact custody_quiet rfl ((dispNext_share false c).trans share.symm)
        · next enabled =>
            have message : s.recvQueue.queue.hasMessage = true := by simpa [enabled] using ready
            rw [custody_goto]
            exact .reads share message
    · cases tops
  all_goals cases h
  case dispCheck c m =>
    unfold stepDispCheck
    repeat' split
    · exact custody_quiet rfl share.symm
    · rw [custody_goto, dispNext_share]
      exact .forgets m share
    · exact custody_quiet rfl share.symm
  case dispMsg c m =>
    rw [custody_goto]
    exact .dispatches m share
  case dispPop c =>
    rw [custody_goto, dispNext_share]
    exact .pops share
  case dispDone c dispatched => cases c <;> exact custody_unlocks rfl share rfl

theorem custody_handling (launch : s.lifecycle.Launch) (part : (s.pc a).part = .handling)
    (h : s.advance a = some t) : s.custody.Step a t.custody := by
  unfold advance at h
  cases hp : s.pc a <;> simp only [hp, Pc.part, reduceCtorEq] at part h
  all_goals have share := congrArg Pc.share hp
  case hndlWait =>
    rcases (stepWait_cases h).2 with ⟨rfl, -⟩ | ⟨-, rfl⟩
    · rw [apply_ite (s.goto a)]
      split <;> exact custody_quiet rfl share.symm
    · exact custody_quiet rfl share.symm
  case hndlLock =>
    rcases stepLockDisp_eq_some h with ⟨free, rfl⟩ | ⟨-, waits, -⟩
    · exact custody_locks free rfl share rfl
    · cases waits
  case hndlJoinRecv =>
    obtain ⟨u, joined, rfl⟩ := Option.map_eq_some_iff.mp h
    simp only [joinRecv] at joined
    split at joined <;> cases joined
    exact custody_quiet rfl share.symm
  all_goals cases h
  case hndlSpawn =>
    have launches : (s.lifecycle.spot a).launches = true := by
      rw [show s.lifecycle.spot a = _ from congrArg Pc.spot hp]
      rfl
    refine custody_quiet (custody_spawnRecv ?_) share.symm
    exact Pc.share_of_spot_idle (launch.launching a launches).2.1
  case hndlStopRecv => exact custody_quiet rfl share.symm
  case hndlHalt =>
    rw [apply_ite (State.goto _ a)]
    split <;> exact custody_quiet rfl share.symm

end Parts

theorem step_custody {s t : State} {a : Agent} (launch : s.lifecycle.Launch)
    (loses : s.LosesNothing (.step a)) (h : s.step a = some t) : s.custody.Step a t.custody := by
  obtain ⟨-, h⟩ := advance_of_step h
  cases part : (s.pc a).part
  case calling => exact custody_calling launch part h
  case stopping => exact custody_stopping part h
  case flushing => exact custody_flushing part h
  case resizing => exact custody_resizing loses part h
  case sending => exact custody_sending part h
  case receiving => exact custody_receiving loses part h
  case dispatching => exact custody_dispatching part h
  case handling => exact custody_handling launch part h
  all_goals
    unfold advance at h
    cases hp : s.pc a <;> simp only [hp, Pc.part, reduceCtorEq] at part h
  case sleeping.fallsAsleep c =>
    cases h
    cases c <;> exact custody_quiet rfl (congrArg Pc.share hp).symm

/-- The wanted messages that the transport returns in a run, in this order. -/
def received (es : List Event) : List Msg :=
  es.filterMap fun
    | .transport wanted => wanted
    | _ => none

theorem keeps_transport {s t : State} {wanted : Option Msg} {past : List Msg}
    (keeps : s.custody.Keeps past) (h : s.transport wanted = some t) :
    t.custody.Keeps (past ++ wanted.toList) := by
  unfold transport at h
  split at h <;> cases h
  next receiving =>
  have blank : (s.pc .receiver).share = .blank := congrArg Pc.share receiving
  cases wanted with
  | none =>
      have stays : Pc.recvCheck.share = (s.pc .receiver).share := blank.symm
      rw [custody_give_same stays]
      simpa using keeps
  | some m =>
      rw [custody_goto]
      exact keeps.receives blank m

theorem keeps_init (mtu : Nat) : (init mtu).custody.Keeps [] where
  inBounds := ⟨Nat.zero_lt_succ 15, Nat.zero_lt_succ 15⟩
  held _ owns := absurd rfl owns
  front _ _ reads := by cases reads
  popping _ pops := by cases pops
  pusher _ _ pushes := by cases pushes
  flow := rfl

theorem keeps_call {s t : State} {id : Nat} {c : Call} {past : List Msg} (keeps : s.custody.Keeps past)
    (h : s.call id c = some t) : t.custody.Keeps past := by
  unfold call at h
  split at h <;> cases h
  next last idle =>
  have blank : (s.pc (.api id)).share = .blank := congrArg Pc.share idle
  have same : ∀ p : Pc, p.share = .blank → (s.goto (.api id) p).custody = s.custody :=
    fun p none_ => custody_give_same (none_.trans blank.symm)
  cases c
  case publish m =>
    simp only [enter, ret]
    repeat' split
    all_goals
      rw [same _ rfl]
      exact keeps
  all_goals
    rw [enter, same _ rfl]
    exact keeps

theorem keeps_next {s t : State} {e : Event} {past : List Event} (launch : s.lifecycle.Launch)
    (keeps : s.custody.Keeps (received past)) (loses : s.LosesNothing e) (h : s.next e = some t) :
    t.custody.Keeps (received (past ++ [e])) := by
  have grows : received (past ++ [e]) = received past ++ received [e] := List.filterMap_append
  rw [grows]
  unfold next at h
  split at h
  · cases h
  cases e with
  | step a => simpa [received] using keeps.step (step_custody launch loses h)
  | call id c => simpa [received] using keeps_call keeps h
  | transport wanted =>
      have after := keeps_transport keeps h
      cases wanted <;> simpa [received] using after
  | wake a =>
      simp only at h
      split at h <;> cases h
      rw [show received [Event.wake a] = [] from rfl, List.append_nil]
      exact keeps

/-- In every run without a stop, of any other calls by any number of threads, in which the receive thread
never pushes to a queue that is full and disabled and no resize of the receive queue is to its contents
or below: the messages that the transport returned are those dispatched, those in the queue and the one
being pushed, in the order received; and no push fails. -/
theorem received_in_order (mtu : Nat) (es : List Event)
    (loses : Runs.Meets next LosesNothing (init mtu) es) (pre : List Event) (reached : pre <+: es)
    (t : State) (runs : (init mtu).run pre = some t) :
    t.crashed = false ∧
      (received pre).map some =
        t.dispatched.map some ++ t.custody.waiting ++ (t.pc .receiver).share.pending.map some ∧
      t.dispatched <+: received pre ∧
      ∀ m pushed, pre ++ [Event.step .receiver] <+: es → t.pc .receiver = .recvPush m →
        t.recvQueue.push m = some pushed → pushed.1 = true := by
  have inv : t.lifecycle.Launch ∧ t.custody.Keeps (received pre) := by
    refine @Runs.run_history _ _ next LosesNothing
      (fun past s => s.lifecycle.Launch ∧ s.custody.Keeps (received past)) ?_ [] _ _
      ⟨launch_init mtu, keeps_init mtu⟩ loses _ reached _ runs
    rintro past s e u ⟨launch, keeps⟩ allowed h
    refine ⟨launch_next launch (fun id block stops => ?_) h, keeps_next launch keeps allowed h⟩
    subst stops
    exact allowed block rfl
  obtain ⟨launch, keeps⟩ := inv
  refine ⟨launch.alive, keeps.flow, ?_, fun m pushed next pushing pushes => ?_⟩
  · have dispatched : t.dispatched.map some <+: (received pre).map some := by
      rw [keeps.flow, List.append_assoc]
      exact List.prefix_append ..
    exact (List.prefix_map_iff_of_injective fun _ _ => Option.some.inj).mp dispatched
  · rcases (loses.allowed_next next runs).1 m pushing with enabled | room
    all_goals unfold ThreadsafeQueue.push at pushes
    · have on : t.recvQueue.disabled = false := by simpa [ThreadsafeQueue.isEnabled] using enabled
      split at pushes
      · next ready =>
          have room : t.recvQueue.queue.hasFreeSpace = true := by simpa [on] using ready
          simp [room] at pushes
          rw [← pushes]
      · cases pushes
    · simp [room] at pushes
      rw [← pushes]

def pollsAndReceives (m : Msg) : List Event :=
  Event.call 0 .handleNonblock :: List.replicate 4 (Event.step (.api 0)) ++
    [Event.step .receiver, .transport (some m), .step .receiver]

theorem received_in_order_flush :
    ∃ t, (init 8).run (pollsAndReceives ⟨0, [], [1]⟩ ++ Event.call 0 (.flush false) ::
        List.replicate 14 (Event.step (.api 0))) = some t ∧
      t.dispatched = [⟨0, [], [1]⟩] ∧
      t.dispatched <+: received (pollsAndReceives ⟨0, [], [1]⟩ ++ Event.call 0 (.flush false) ::
        List.replicate 14 (Event.step (.api 0))) := by
  have loses : Runs.Meets next LosesNothing (init 8) (pollsAndReceives ⟨0, [], [1]⟩ ++
      Event.call 0 (.flush false) :: List.replicate 14 (Event.step (.api 0))) := by
    repeat
      refine ⟨?_, fun t h => ?_⟩
      · first
          | trivial
          | refine ⟨fun m pushing => ?_, fun n resizing => ?_⟩
            · cases pushing
              all_goals exact .inl rfl
            · cases resizing
          | intro block stops
            cases stops
      cases h
    trivial
  have main := received_in_order 8 _ loses _ (List.prefix_refl _) _ rfl
  exact ⟨_, rfl, rfl, main.2.2.1⟩

/-- Queues for one message each, one message in the receive queue and a second one waiting to be pushed
when a flush disables the queue. -/
def flushesFull : List Event :=
  Event.call 1 (.setQueueSize 2 true) :: List.replicate 12 (Event.step (.api 1)) ++
    pollsAndReceives ⟨0, [], [1]⟩ ++ [Event.step .receiver, .transport (some ⟨1, [], [2]⟩)] ++
    Event.call 1 (.flush false) :: List.replicate 6 (Event.step (.api 1))

theorem push_fails_during_flush :
    ¬ ∀ t m pushed, (init 8).run flushesFull = some t → t.pc .receiver = .recvPush m →
      t.recvQueue.push m = some pushed → pushed.1 = true := by
  intro claim
  cases claim _ _ _ rfl rfl rfl

end State
end Zcm.Blocking
