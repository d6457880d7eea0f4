import Zcm.Logger.Order

namespace Zcm.Logger
open Zcm.Lib Zcm.Eventlog

variable {args : Args} {sizeofLogEvent rounds : Nat}

def State.unreported (s : State) : Option Completed :=
  match s.pc with
  | .rotated request oldFile newFile | .recorded request oldFile newFile => some ⟨request.cycle, oldFile, newFile⟩
  | _ => none

structure Reported (s : State) : Prop where
  answers : ∀ cycle oldFile newFile, Frame.cycleComplete cycle oldFile newFile ∈ s.sent →
    ∃ r ∈ s.rotations, r.1 = ⟨cycle, oldFile, newFile⟩
  unreported : ∀ c, s.unreported = some c → ∃ r ∈ s.rotations, r.1 = c
  completed : ∀ c, s.completed = some c → ∃ r ∈ s.rotations, r.1 = c

variable {s t : State}

theorem no_completion {frames : List Frame} (errors : ∀ frame ∈ frames, frame.isComplete = false) {cycle : CycleId}
    {oldFile newFile : Name} {P : Prop} (member : Frame.cycleComplete cycle oldFile newFile ∈ frames) : P := by
  have error := errors _ member
  cases error

theorem Reported.kept (h : Reported s) (frames : List Frame) (sent : t.sent = s.sent ++ frames)
    (complete : ∀ cycle oldFile newFile, Frame.cycleComplete cycle oldFile newFile ∈ frames →
      ∃ r ∈ s.rotations, r.1 = ⟨cycle, oldFile, newFile⟩)
    (rotations : t.rotations = s.rotations) (record : t.completed = s.completed)
    (unreported : ∀ c, t.unreported = some c → s.unreported = some c) : Reported t := by
  refine ⟨?_, ?_, ?_⟩
  · intro cycle oldFile newFile member
    rw [rotations]
    rw [sent] at member
    rcases List.mem_append.mp member with old | new
    · exact h.answers cycle oldFile newFile old
    · exact complete cycle oldFile newFile new
  · rw [rotations]
    exact fun c same => h.unreported c (unreported c same)
  · rw [rotations, record]
    exact h.completed

theorem Reported.next (h : Reported s) {a : Action} (moves : Moves args sizeofLogEvent rounds s a t) : Reported t := by
  have quiet (same : t.sent = s.sent) (rotations : t.rotations = s.rotations) (record : t.completed = s.completed)
      (unreported : ∀ c, t.unreported = some c → s.unreported = some c) : Reported t :=
    h.kept [] (by rw [same, List.append_nil]) (fun _ _ _ absurd => by cases absurd) rotations record unreported
  have nothing (c : Completed) (absurd : (none : Option Completed) = some c) : s.unreported = some c := by cases absurd
  cases moves with
  | pushes => exact quiet rfl rfl rfl fun _ => id
  | enqueues => exact quiet rfl rfl rfl fun _ => id
  | replies frames complete =>
      refine h.kept frames rfl ?_ rfl rfl fun _ => id
      intro cycle oldFile newFile member
      obtain ⟨c, isLast, same⟩ := complete _ member rfl
      cases same
      exact h.completed c isLast
  | replyFails => exact quiet rfl rfl rfl nothing
  | sigterm => exact quiet rfl rfl rfl fun _ => id
  | dies => exact quiet rfl rfl rfl nothing
  | sighup => exact quiet rfl rfl rfl fun _ => id
  | idles => exact h
  | stops => exact quiet rfl rfl rfl nothing
  | pops => exact quiet rfl rfl rfl nothing
  | writesData le holds data s' opened =>
      rw [opened.fields.1]
      exact h.kept [] (List.append_nil _).symm (fun _ _ _ absurd => by cases absurd) rfl rfl nothing
  | losesData le holds data s' opened =>
      rw [opened.fields.1]
      exact h.kept [] (List.append_nil _).symm (fun _ _ _ absurd => by cases absurd) rfl rfl nothing
  | writesBarrier => exact quiet rfl rfl rfl nothing
  | losesBarrier le holds isBarrier request parses fails frames errors =>
      exact h.kept frames rfl (fun _ _ _ => no_completion errors) rfl rfl nothing
  | rotates request holds files =>
      have older {c : Completed} (rotated : ∃ r ∈ s.rotations, r.1 = c) :
          ∃ r ∈ s.rotations ++ [(⟨request.cycle, s.files.filename, files.filename⟩, s.numSplits)], r.1 = c := by
        obtain ⟨r, member, same⟩ := rotated
        exact ⟨r, List.mem_append_left _ member, same⟩
      refine ⟨fun cycle oldFile newFile member => older (h.answers cycle oldFile newFile member), ?_,
        fun c isLast => older (h.completed c isLast)⟩
      rintro c same
      cases same
      exact ⟨_, List.mem_append_right _ (List.mem_singleton.mpr rfl), rfl⟩
  | records request oldFile newFile holds =>
      have reported := h.unreported ⟨request.cycle, oldFile, newFile⟩ (by simp [State.unreported, holds])
      refine ⟨h.answers, ?_, ?_⟩
      · rintro c same
        cases same
        exact reported
      · rintro c same
        cases same
        exact reported
  | completes request oldFile newFile holds frames complete =>
      refine h.kept frames rfl ?_ rfl rfl nothing
      intro cycle oldFile' newFile' member
      cases complete _ member
      exact h.unreported _ (by simp [State.unreported, holds])
  | returns => exact quiet rfl rfl rfl nothing
  | exits s' opened got kept frames errors =>
      rw [opened.fields.1]
      exact h.kept frames rfl (fun _ _ _ => no_completion errors) rfl rfl nothing

theorem start_reported {dir : Dir} {o : Opening} {sends : Bool}
    (starts : State.start args rounds dir o sends = some s) :
    Reported s := by
  obtain ⟨files, frames, -, errors, rfl⟩ := start_eq starts
  exact ⟨fun _ _ _ => no_completion errors, (fun c absurd => by cases absurd), (fun c absurd => by cases absurd)⟩

end Zcm.Logger
