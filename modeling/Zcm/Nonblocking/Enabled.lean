import Zcm.Nonblocking.Core

namespace Zcm.Nonblocking
open Zcm.Lib Zcm.Blocking
open Zcm.Blocking.Subscriptions (Handler Enable copyChannel copyChannel_eq)

inductive Event
  | subscribe (channel : CString) (handler : Handler)
  | unsubscribe (sub : Int)

structure Endpoint where
  zcm : Instance
  enabled : CString → Bool

namespace Endpoint

def recvmsgEnable (enabled : CString → Bool) (told : List Enable) : CString → Bool :=
  told.foldl (fun enabled call => Function.update enabled call.channel call.enable) enabled

def create (subs : Mem Sub) (subIsRegex : Mem Bool) : Endpoint where
  zcm := .create subs subIsRegex
  enabled := fun _ => false

def next (s : Endpoint) : Event → Option Endpoint
  | .subscribe channel handler =>
      let r := s.zcm.subscribe channel handler true
      some ⟨r.1, recvmsgEnable s.enabled r.2.2⟩
  | .unsubscribe sub =>
      let r := s.zcm.unsubscribe sub true
      some ⟨r.1, recvmsgEnable s.enabled r.2.2⟩

def run (s : Endpoint) (es : List Event) : Option Endpoint := Runs.run next s es

def Used (s : Endpoint) (channel : CString) : Prop :=
  ∃ i, s.zcm.subInUse i = true ∧ (s.zcm.subs i).channel = channel

def Agrees (s : Endpoint) : Prop :=
  ∀ channel : CString, channel.chars.length ≤ channelMaxlen → (s.enabled channel = true ↔ s.Used channel)

/-- Channels of more than 32 characters are refused and all others accepted; or the channel as it is
stored already has a subscription. -/
def StoresEnabled (s : Endpoint) : Event → Prop
  | .subscribe channel _ =>
      (s.zcm.Accepts channel ↔ channel.chars.length ≤ channelMaxlen) ∨ s.Used (copyChannel channel)
  | .unsubscribe _ => True

variable {s t : Endpoint} {e : Event}

theorem next_table (table : s.zcm.Table) (steps : s.next e = some t) : t.zcm.Table := by
  cases e with
  | subscribe channel handler =>
      cases steps
      exact Instance.subscribed_table table (Instance.subscribe_spec table channel handler)
  | unsubscribe sub =>
      cases steps
      exact Instance.unsubscribed_table table (Instance.unsubscribe_spec table sub true)

theorem subscribe_told (z : Instance) (channel : CString) (handler : Handler) (accepted : Bool) :
    (z.subscribe channel handler accepted).2.2 = [⟨channel, true⟩] := by
  unfold Instance.subscribe
  split
  · rfl
  · split
    · rfl
    · dsimp only
      split <;> rfl

theorem used_of_refused {z' : Instance} {enabled : CString → Bool} (inUse : z'.subInUse = s.zcm.subInUse)
    (kept : ∀ i, s.zcm.subInUse i = true → z'.subs i = s.zcm.subs i ∧ z'.subIsRegex i = s.zcm.subIsRegex i)
    (asked : CString) : Used ⟨z', enabled⟩ asked ↔ s.Used asked := by
  refine exists_congr fun i => ?_
  simp only [inUse]
  refine and_congr_right fun used => ?_
  rw [(kept i used).1]

theorem used_of_stored {z' : Instance} {enabled : CString → Bool} {i : Nat} {channel : CString} {handler : Handler}
    (free : s.zcm.subInUse i = false) (inUse : z'.subInUse = s.zcm.subInUse.set i true)
    (sub : z'.subs i = ⟨channel, handler⟩)
    (kept : ∀ j, j ≠ i → z'.subs j = s.zcm.subs j ∧ z'.subIsRegex j = s.zcm.subIsRegex j) (asked : CString) :
    Used ⟨z', enabled⟩ asked ↔ asked = channel ∨ s.Used asked := by
  constructor
  · rintro ⟨j, used, rfl⟩
    by_cases same : j = i
    · rw [same]
      exact .inl (congrArg Sub.channel sub)
    · dsimp only at used ⊢
      rw [inUse, Mem.set_of_ne _ _ same] at used
      rw [(kept j same).1]
      exact .inr ⟨j, used, rfl⟩
  · rintro (rfl | ⟨j, used, rfl⟩)
    · exact ⟨i, by simp only [inUse, Mem.set_self], congrArg Sub.channel sub⟩
    · have other : j ≠ i := by
        rintro rfl
        rw [free] at used
        cases used
      refine ⟨j, ?_, congrArg Sub.channel (kept j other).1⟩
      simp only [inUse, Mem.set_of_ne _ _ other, used]

theorem agrees_subscribe_iff (table : s.zcm.Table) (agrees : s.Agrees) {channel : CString} {handler : Handler}
    (steps : s.next (.subscribe channel handler) = some t) :
    t.Agrees ↔ s.StoresEnabled (.subscribe channel handler) := by
  have spec := Instance.subscribe_spec table channel handler
  have told := subscribe_told s.zcm channel handler true
  simp only [next, Option.some.injEq] at steps
  rw [told] at steps
  generalize s.zcm.subscribe channel handler true = r at spec steps
  obtain ⟨z', handle, told'⟩ := r
  dsimp only at spec steps
  subst steps
  -- the transport is enabled for the channel as it was asked for
  have enabled : ∀ asked : CString, asked.chars.length ≤ channelMaxlen →
      (recvmsgEnable s.enabled [⟨channel, true⟩] asked = true ↔ asked = channel ∨ s.Used asked) := by
    intro asked short
    rw [← agrees asked short]
    by_cases same : asked = channel
    · simp [recvmsgEnable, same]
    · simp [recvmsgEnable, same]
  generalize recvmsgEnable s.enabled [⟨channel, true⟩] = told at enabled
  cases spec with
  | refused notAccepted inUse _ kept =>
      unfold Agrees StoresEnabled
      simp only [used_of_refused inUse kept, notAccepted, false_iff]
      constructor
      · intro all
        rcases Nat.lt_or_ge channelMaxlen channel.chars.length with long | short
        · exact .inl (Nat.not_le.mpr long)
        · rw [copyChannel_eq short]
          exact .inr ((all channel short).mp ((enabled channel short).mpr (.inl rfl)))
      · rintro (long | used) asked short
        · rw [enabled asked short, or_iff_right_iff_imp]
          rintro rfl
          exact absurd short long
        · rw [enabled asked short, or_iff_right_iff_imp]
          rintro rfl
          rwa [copyChannel_eq short] at used
  | stored accepted _ free inUse _ sub _ kept =>
      unfold Agrees StoresEnabled
      simp only [used_of_stored free inUse sub kept, accepted, true_iff]
      constructor
      · intro all
        rcases Nat.lt_or_ge channelMaxlen channel.chars.length with long | short
        · have stored := (all _ (Instance.copyChannel_length channel)).mpr (.inl rfl)
          rcases (enabled _ (Instance.copyChannel_length channel)).mp stored with same | used
          · exact absurd (same ▸ Instance.copyChannel_length channel) (Nat.not_le.mpr long)
          · exact .inr used
        · exact .inl short
      · rintro (short | used) asked asked_short
        · rw [enabled asked asked_short, copyChannel_eq short]
        · rw [enabled asked asked_short]
          constructor
          · rintro (rfl | usedToo)
            · exact .inl (copyChannel_eq asked_short).symm
            · exact .inr usedToo
          · rintro (rfl | usedToo)
            · exact .inr used
            · exact .inr usedToo

theorem agrees_unsubscribe (table : s.zcm.Table) (agrees : s.Agrees) {sub : Int}
    (steps : s.next (.unsubscribe sub) = some t) : t.Agrees := by
  have spec := Instance.unsubscribe_spec table sub true
  simp only [next, Option.some.injEq] at steps
  generalize s.zcm.unsubscribe sub true = r at spec steps
  obtain ⟨z', rc, told⟩ := r
  dsimp only at spec steps
  subst steps
  cases spec with
  | invalid => exact agrees
  | freed m used subs _ inUse _ _ tells =>
      have left : ∀ asked, Used ⟨z', recvmsgEnable s.enabled told⟩ asked ↔
          ∃ i, i ≠ m ∧ s.zcm.subInUse i = true ∧ (s.zcm.subs i).channel = asked := by
        intro asked
        refine exists_congr fun i => ?_
        simp only [inUse, subs]
        by_cases same : i = m
        · simp [same]
        · simp [Mem.set_of_ne _ _ same, same]
      intro asked short
      rw [left]
      dsimp only
      rcases tells with ⟨last, rfl⟩ | ⟨notLast, rfl⟩
      · by_cases same : asked = (s.zcm.subs m).channel
        · simp only [recvmsgEnable, List.foldl_cons, List.foldl_nil, same, Function.update_self,
            Bool.false_eq_true, false_iff]
          rintro ⟨i, ne, usedToo, equal⟩
          exact ne (last i usedToo equal)
        · have kept : recvmsgEnable s.enabled [⟨(s.zcm.subs m).channel, false⟩] asked = s.enabled asked := by
            simp [recvmsgEnable, same]
          rw [kept, agrees asked short]
          refine exists_congr fun i => ?_
          constructor
          · rintro ⟨usedToo, rfl⟩
            exact ⟨fun here => same (by rw [here]), usedToo, rfl⟩
          · rintro ⟨-, both⟩
            exact both
      · refine (agrees asked short).trans ?_
        constructor
        · rintro ⟨i, usedToo, rfl⟩
          by_cases same : i = m
          · -- another subscription has the channel of the one that is gone
            subst same
            unfold Instance.Last at notLast
            push Not at notLast
            obtain ⟨j, usedAlso, equal, ne⟩ := notLast
            exact ⟨j, ne, usedAlso, equal⟩
          · exact ⟨i, same, usedToo, rfl⟩
        · rintro ⟨i, -, both⟩
          exact ⟨i, both⟩

theorem agrees_create (subs : Mem Sub) (subIsRegex : Mem Bool) : (create subs subIsRegex).Agrees := by
  intro channel _
  constructor
  · intro absurd
    cases absurd
  · rintro ⟨i, used, -⟩
    cases used

/-- The transport stays enabled for exactly the channels of the subscriptions in use, from the creation
of the instance on, in exactly the runs in which `subscribe` refuses channels that are too long, accepts
all others, or is called for a channel that has a subscription already. -/
theorem enabled_iff_used (subs : Mem Sub) (subIsRegex : Mem Bool) (es : List Event) :
    (∀ pre, pre <+: es → ∀ s, (create subs subIsRegex).run pre = some s → s.Agrees) ↔
      Runs.Meets next StoresEnabled (create subs subIsRegex) es := by
  refine @Runs.meets_iff _ _ next StoresEnabled (fun s => s.zcm.Table) Agrees ?_ ?_ ?_ _ _
    (Instance.create_table subs subIsRegex) (agrees_create subs subIsRegex)
  · intro s e _ stops
    cases e <;> cases stops
  · intro s e t table steps
    exact next_table table steps
  · intro s e t table agrees steps
    cases e with
    | subscribe channel handler => exact agrees_subscribe_iff table agrees steps
    | unsubscribe sub =>
        simp only [StoresEnabled, iff_true]
        exact agrees_unsubscribe table agrees steps

/-- A pattern that is not supported is refused, and the transport stays enabled for it. -/
theorem enabled_after_refusal :
    ¬ ∀ s, (create (fun _ => ⟨⟨[], by decide⟩, ⟨0, 0⟩⟩) fun _ => false).run
      [.subscribe ⟨[0x2a], by decide⟩ ⟨1, 2⟩] = some s → s.Agrees := by
  intro claim
  obtain ⟨i, used, -⟩ := (claim _ rfl ⟨[0x2a], by decide⟩ (by decide)).mp (by decide)
  cases used

end Endpoint
end Zcm.Nonblocking
