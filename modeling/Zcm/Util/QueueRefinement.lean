import Zcm.Util.Queue

namespace Zcm.Util

variable {α : Type}

structure Fifo (α : Type) where
  capacity : Nat
  items : List α
  fits : items.length < capacity

inductive Op (α : Type)
  | push (x : α)
  | pop
  | setCapacity (c : Nat) (two : 2 ≤ c)

namespace Fifo

def new (capacity : Nat) (two : 2 ≤ capacity) : Fifo α := ⟨capacity, [], by simp; omega⟩

def push (f : Fifo α) (x : α) : Fifo α :=
  if room : f.items.length + 1 < f.capacity then ⟨f.capacity, f.items ++ [x], by simpa using room⟩
  else f

def pop (f : Fifo α) : Fifo α :=
  ⟨f.capacity, f.items.tail, by have := f.fits; simp; omega⟩

def setCapacity (f : Fifo α) (c : Nat) (two : 2 ≤ c) : Fifo α :=
  ⟨c, f.items.take (c - 1), by simp; omega⟩

def step (f : Fifo α) : Op α → Fifo α
  | .push x => f.push x
  | .pop => f.pop
  | .setCapacity c two => f.setCapacity c two

def run (f : Fifo α) (ops : List (Op α)) : Fifo α := ops.foldl step f

end Fifo

structure Life (α : Type) where
  queue : Queue α
  constructed : List α
  destroyed : List (Option α)

namespace Life

def new (capacity : Nat) : Life α := ⟨Queue.new capacity, [], []⟩

def push (s : Life α) (x : α) : Life α :=
  if s.queue.hasFreeSpace then { s with queue := s.queue.push x, constructed := s.constructed ++ [x] }
  else s

def pop (s : Life α) : Life α :=
  if s.queue.hasMessage then
    { s with queue := s.queue.pop, destroyed := s.destroyed ++ [s.queue.top] }
  else s

def step (s : Life α) : Op α → Life α
  | .push x => s.push x
  | .pop => s.pop
  | .setCapacity c _ => { s with queue := s.queue.setCapacity c }

def run (s : Life α) (ops : List (Op α)) : Life α := ops.foldl step s

def destroy : Nat → Life α → Option (Life α)
  | fuel, s =>
      if s.queue.hasMessage then
        match fuel with
        | 0 => none
        | fuel + 1 => destroy fuel s.pop
      else some s

/-- The queue behaves as the list `f`, and destroying it now ends with every element that was ever
constructed destroyed exactly once. -/
structure Correct (s : Life α) (f : Fifo α) : Prop where
  bounds : s.queue.InBounds
  capacity : s.queue.capacity = f.capacity
  contents : s.queue.contents = f.items.map some
  lifetimes : ∃ fuel final, s.destroy fuel = some final ∧ final.constructed = s.constructed ∧
    final.destroyed = final.constructed.map some

def RefinesFifo (c : Nat) (two : 2 ≤ c) (ops : List (Op α)) : Prop :=
  ∀ pre, pre <+: ops → ((new c).run pre).Correct ((Fifo.new c two).run pre)

structure Refines (s : Life α) (f : Fifo α) : Prop where
  bounds : s.queue.InBounds
  capacity : s.queue.capacity = f.capacity
  contents : s.queue.contents = f.items.map some
  alive : s.constructed.map some = s.destroyed ++ s.queue.contents

/-- Each resize leaves room for the messages that are in the queue when it is called. -/
def ResizesFit (s : Life α) : List (Op α) → Prop
  | [] => True
  | op :: ops =>
      (∀ c two, op = .setCapacity c two → s.queue.numMessages < c) ∧ ResizesFit (s.step op) ops

theorem Refines.numMessages {s : Life α} {f : Fifo α} (h : s.Refines f) :
    s.queue.numMessages = f.items.length := by
  simpa using congrArg List.length h.contents

theorem refines_new (c : Nat) (two : 2 ≤ c) : (new c : Life α).Refines (Fifo.new c two) where
  bounds := ⟨show 0 < c by omega, show 0 < c by omega⟩
  capacity := rfl
  contents := rfl
  alive := rfl

theorem Refines.push {s : Life α} {f : Fifo α} (h : s.Refines f) (x : α) :
    (s.push x).Refines (f.push x) := by
  have guards : s.queue.hasFreeSpace = true ↔ f.items.length + 1 < f.capacity := by
    rw [h.bounds.hasFreeSpace_iff, h.numMessages, h.capacity]
  by_cases room : s.queue.hasFreeSpace = true
  · have appended := Queue.contents_push h.bounds room x
    have room' := guards.mp room
    simp only [Life.push, Fifo.push, room, room', if_true, dite_true]
    refine ⟨h.bounds.push x, h.capacity, ?_, ?_⟩
    · simp only [appended, h.contents, List.map_append, List.map_cons, List.map_nil]
    · simp only [appended, List.map_append, h.alive, List.map_cons, List.map_nil, List.append_assoc]
  · have room' := mt guards.mpr room
    rw [Life.push, Fifo.push, if_neg room, dif_neg room']
    exact h

theorem Refines.pop {s : Life α} {f : Fifo α} (h : s.Refines f) : s.pop.Refines f.pop := by
  by_cases message : s.queue.hasMessage = true
  · have split := Queue.contents_pop h.bounds message
    have items : f.items ≠ [] := by
      intro empty
      have := h.bounds.hasMessage_iff.mp message
      rw [h.numMessages, empty] at this
      exact Nat.lt_irrefl 0 this
    obtain ⟨x, rest, hx⟩ := List.exists_cons_of_ne_nil items
    have contents := h.contents
    rw [split, hx, List.map_cons, List.cons.injEq] at contents
    simp only [Life.pop, message, if_true]
    refine ⟨h.bounds.pop, h.capacity, ?_, ?_⟩
    · simpa only [Fifo.pop, hx, List.tail_cons] using contents.2
    · simp only [h.alive, split, List.append_assoc, List.cons_append, List.nil_append]
  · have empty : f.items = [] := by
      have := mt h.bounds.hasMessage_iff.mpr message
      rw [h.numMessages] at this
      exact List.eq_nil_of_length_eq_zero (by omega)
    have same : f.pop = f := by
      cases f
      simp_all [Fifo.pop]
    rw [Life.pop, if_neg message, same]
    exact h

theorem Refines.setCapacity {s : Life α} {f : Fifo α} (h : s.Refines f) {c : Nat} (two : 2 ≤ c)
    (fits : s.queue.numMessages < c) :
    (s.step (.setCapacity c two)).Refines (f.setCapacity c two) := by
  have same := Queue.contents_setCapacity h.bounds fits
  have short : f.items.length ≤ c - 1 := by
    rw [h.numMessages] at fits
    omega
  refine ⟨h.bounds.setCapacity fits, rfl, ?_, ?_⟩
  · simp only [Life.step, Fifo.setCapacity, same, h.contents, List.take_of_length_le short]
  · simp only [Life.step, same, h.alive]

theorem Refines.step {s : Life α} {f : Fifo α} (h : s.Refines f) (op : Op α)
    (fits : ∀ c two, op = .setCapacity c two → s.queue.numMessages < c) :
    (s.step op).Refines (f.step op) := by
  cases op with
  | push x => exact h.push x
  | pop => exact h.pop
  | setCapacity c two => exact h.setCapacity two (fits c two rfl)

theorem Refines.destroy {s : Life α} {f : Fifo α} (h : s.Refines f) :
    ∃ final, s.destroy f.items.length = some final ∧ final.constructed = s.constructed ∧
      final.destroyed = final.constructed.map some := by
  obtain ⟨n, hn⟩ : ∃ n, n = f.items.length := ⟨_, rfl⟩
  rw [← hn]
  induction n generalizing s f with
  | zero =>
      have empty : f.items = [] := List.eq_nil_of_length_eq_zero hn.symm
      have noMessage : ¬ s.queue.hasMessage = true := by
        rw [h.bounds.hasMessage_iff, h.numMessages, empty]
        simp
      refine ⟨s, by simp [Life.destroy, noMessage], rfl, ?_⟩
      simp [h.alive, h.contents, empty]
  | succ n ih =>
      have message : s.queue.hasMessage = true := by
        rw [h.bounds.hasMessage_iff, h.numMessages]
        omega
      obtain ⟨final, ends, constructed, destroyed⟩ := ih h.pop (by simp [Fifo.pop]; omega)
      refine ⟨final, by simp [Life.destroy, message, ends], ?_, destroyed⟩
      simpa [Life.pop, message] using constructed

theorem Refines.correct {s : Life α} {f : Fifo α} (h : s.Refines f) : s.Correct f :=
  ⟨h.bounds, h.capacity, h.contents, f.items.length, h.destroy⟩

theorem Refines.setCapacity_overfull {s : Life α} {f : Fifo α} (h : s.Refines f) {c : Nat}
    (two : 2 ≤ c) (bounds : (s.step (.setCapacity c two)).queue.InBounds) :
    s.queue.numMessages < c := by
  have back : (s.step (.setCapacity c two)).queue.back = min s.queue.numMessages c :=
    Queue.setCapacity_back h.bounds c
  have back_lt : (s.step (.setCapacity c two)).queue.back < c := bounds.back_lt
  omega

theorem correct_iff_resizesFit {s : Life α} {f : Fifo α} (h : s.Refines f) (ops : List (Op α)) :
    (∀ pre, pre <+: ops → (s.run pre).Correct (f.run pre)) ↔ s.ResizesFit ops := by
  induction ops generalizing s f with
  | nil =>
      simp only [List.prefix_nil, forall_eq, ResizesFit, iff_true]
      exact h.correct
  | cons op ops ih =>
      constructor
      · intro correct
        have fits : ∀ c two, op = .setCapacity c two → s.queue.numMessages < c := by
          intro c two equal
          subst equal
          exact h.setCapacity_overfull two (correct [.setCapacity c two] (by simp)).bounds
        refine ⟨fits, (ih (h.step op fits)).mp fun pre isPrefix => ?_⟩
        exact correct (op :: pre) (List.cons_prefix_cons.mpr ⟨rfl, isPrefix⟩)
      · rintro ⟨fits, rest⟩ pre isPrefix
        cases pre with
        | nil => exact h.correct
        | cons first pre =>
            obtain ⟨rfl, tailPrefix⟩ := List.cons_prefix_cons.mp isPrefix
            exact (ih (h.step first fits)).mpr rest pre tailPrefix

/-- The queue refines the bounded list, with every element destroyed exactly once, exactly in the
runs in which no resize is asked to hold as many messages as its capacity or more. -/
theorem queue_refines_fifo_iff (c : Nat) (two : 2 ≤ c) (ops : List (Op α)) :
    RefinesFifo c two ops ↔ (new c).ResizesFit ops :=
  correct_iff_resizesFit (refines_new c two) ops

theorem queue_refines_fifo_resize_up :
    RefinesFifo 16 (by decide) [Op.push 1, .push 2, .setCapacity 3 (by decide), .pop] :=
  (queue_refines_fifo_iff 16 (by decide) _).mpr
    ⟨by simp, by simp, by simp only [Op.setCapacity.injEq]; rintro c _ rfl; decide, by simp, trivial⟩

theorem queue_resize_to_contents_overruns :
    ¬ RefinesFifo 16 (by decide) [Op.push 1, .push 2, .setCapacity 2 (by decide)] := by
  intro correct
  have back_lt := (correct _ (List.prefix_refl _)).bounds.back_lt
  exact absurd back_lt (by decide)

end Life
end Zcm.Util
