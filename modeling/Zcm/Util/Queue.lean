import Zcm.Lib.Ring

namespace Zcm.Util
open Zcm.Lib

/-- The bounded queue: a block of `capacity` cells with one cell always left free. A cell holds an
element from its construction to its destruction; `none` is raw storage. -/
structure Queue (α : Type) where
  queue : Mem (Option α)
  capacity : Nat
  front : Nat
  back : Nat

namespace Queue

variable {α : Type}

def new (capacity : Nat) : Queue α := ⟨fun _ => none, capacity, 0, 0⟩

def incIdx (q : Queue α) (i : Nat) : Nat :=
  let nextIdx := i + 1
  if nextIdx = q.capacity then 0 else nextIdx

def hasFreeSpace (q : Queue α) : Bool := q.front != q.incIdx q.back

def hasMessage (q : Queue α) : Bool := q.front != q.back

def numMessages (q : Queue α) : Nat :=
  if q.back ≥ q.front then q.back - q.front else q.capacity - (q.front - q.back)

def push (q : Queue α) (x : α) : Queue α :=
  { q with queue := q.queue.set q.back (some x), back := q.incIdx q.back }

def top (q : Queue α) : Option α := q.queue q.front

/-- The destructor runs on the front cell, which is raw storage from then on. -/
def pop (q : Queue α) : Queue α :=
  { q with queue := q.queue.set q.front none, front := q.incIdx q.front }

def relocate (q : Queue α) (newQueue : Mem (Option α)) (newBack : Nat) :
    Nat → Mem (Option α) × Nat
  | 0 => (newQueue, newBack)
  | room + 1 =>
      if q.hasMessage then
        relocate { q with front := q.incIdx q.front } (newQueue.set newBack q.top) (newBack + 1) room
      else (newQueue, newBack)

/-- Elements move to the new block as bytes: nothing is constructed or destroyed. -/
def setCapacity (q : Queue α) (capacity : Nat) : Queue α :=
  let moved := relocate q (fun _ => none) 0 capacity
  ⟨moved.1, capacity, 0, moved.2⟩

def contents (q : Queue α) : List (Option α) :=
  Ring.view q.queue q.capacity q.front q.numMessages

structure InBounds (q : Queue α) : Prop where
  front_lt : q.front < q.capacity
  back_lt : q.back < q.capacity

theorem numMessages_eq_span (q : Queue α) : q.numMessages = Ring.span q.capacity q.front q.back := rfl

theorem incIdx_eq_slot (q : Queue α) {i : Nat} (h : i < q.capacity) :
    q.incIdx i = Ring.slot q.capacity (i + 1) := by
  unfold incIdx Ring.slot
  simp only
  split <;> split <;> omega

theorem incIdx_lt (q : Queue α) {i : Nat} (h : i < q.capacity) : q.incIdx i < q.capacity := by
  rw [incIdx_eq_slot q h]
  exact Ring.slot_lt h (by omega)

theorem InBounds.numMessages_lt {q : Queue α} (h : q.InBounds) : q.numMessages < q.capacity :=
  Ring.span_lt h.front_lt h.back_lt

theorem InBounds.hasMessage_iff {q : Queue α} (h : q.InBounds) :
    q.hasMessage = true ↔ 0 < q.numMessages := by
  have := Ring.span_eq_zero q.back h.front_lt
  rw [numMessages_eq_span]
  simp only [hasMessage, bne_iff_ne, ne_eq]
  omega

theorem InBounds.hasFreeSpace_iff {q : Queue α} (h : q.InBounds) :
    q.hasFreeSpace = true ↔ q.numMessages + 1 < q.capacity := by
  have := h.front_lt
  have := h.back_lt
  simp only [hasFreeSpace, incIdx, numMessages, bne_iff_ne, ne_eq]
  split <;> split <;> omega

@[simp] theorem contents_length (q : Queue α) : q.contents.length = q.numMessages := by
  simp [contents]

theorem InBounds.push {q : Queue α} (h : q.InBounds) (x : α) : (q.push x).InBounds :=
  ⟨h.front_lt, q.incIdx_lt h.back_lt⟩

theorem InBounds.pop {q : Queue α} (h : q.InBounds) : q.pop.InBounds :=
  ⟨q.incIdx_lt h.front_lt, h.back_lt⟩

theorem contents_push {q : Queue α} (h : q.InBounds) (room : q.hasFreeSpace = true) (x : α) :
    (q.push x).contents = q.contents ++ [some x] := by
  have room' := h.hasFreeSpace_iff.mp room
  have place : q.back = Ring.slot q.capacity (q.front + q.numMessages) :=
    (Ring.slot_span h.front_lt h.back_lt).symm
  have advance : q.incIdx q.back = Ring.slot q.capacity (q.front + (q.numMessages + 1)) := by
    rw [incIdx_eq_slot q h.back_lt, place, Ring.slot_slot h.front_lt (by omega)]
  have count : (q.push x).numMessages = q.numMessages + 1 := by
    change Ring.span q.capacity q.front (q.incIdx q.back) = _
    rw [advance]
    exact Ring.span_slot h.front_lt room'
  unfold contents
  rw [count]
  simp only [Queue.push]
  rw [place]
  exact Ring.view_push q.queue (some x) (by omega)

theorem contents_advance {q : Queue α} (h : q.InBounds) (message : q.hasMessage = true) :
    q.contents = q.top :: { q with front := q.incIdx q.front }.contents := by
  have positive := h.hasMessage_iff.mp message
  have bound := h.numMessages_lt
  have advance := q.incIdx_eq_slot h.front_lt
  have count : Queue.numMessages { q with front := q.incIdx q.front } = q.numMessages - 1 := by
    have front_lt := h.front_lt
    have back_lt := h.back_lt
    have different : q.front ≠ q.back := by simpa [hasMessage] using message
    simp only [numMessages, incIdx]
    split <;> split <;> split <;> omega
  unfold contents
  rw [count]
  simp only [advance]
  obtain ⟨n, hn⟩ := Nat.exists_eq_add_of_lt positive
  rw [show q.numMessages = n + 1 by omega, Nat.add_sub_cancel]
  exact Ring.view_cons q.queue h.front_lt (by omega)

theorem contents_pop {q : Queue α} (h : q.InBounds) (message : q.hasMessage = true) :
    q.contents = q.top :: q.pop.contents := by
  rw [contents_advance h message]
  congr 1
  have bound := (InBounds.pop h).numMessages_lt
  have count : q.pop.numMessages = Queue.numMessages { q with front := q.incIdx q.front } := rfl
  unfold contents
  rw [count]
  apply Ring.view_congr
  intro i hi
  -- The cleared cell is the one just behind the new front, a whole turn away.
  have apart : Ring.slot q.capacity (q.incIdx q.front + i) ≠ q.front := by
    rw [← count] at hi
    have capacity : q.pop.capacity = q.capacity := rfl
    have front_lt := h.front_lt
    have back_lt := h.back_lt
    have different : q.front ≠ q.back := by simpa [hasMessage] using message
    simp only [numMessages, Queue.pop, incIdx] at hi
    simp only [Ring.slot, incIdx]
    split at hi <;> split at hi <;> split <;> split <;> omega
  simp only [Queue.pop]
  exact (Mem.set_of_ne _ _ apart).symm

theorem relocate_spec (room : Nat) {q : Queue α} (h : q.InBounds) (newQueue : Mem (Option α))
    (newBack : Nat) :
    (relocate q newQueue newBack room).2 = newBack + min q.numMessages room ∧
      (relocate q newQueue newBack room).1.read 0 (newBack + min q.numMessages room) =
        newQueue.read 0 newBack ++ q.contents.take room := by
  induction room generalizing q newQueue newBack with
  | zero => simp [relocate]
  | succ room ih =>
      by_cases message : q.hasMessage = true
      · have positive := h.hasMessage_iff.mp message
        have advanced : InBounds { q with front := q.incIdx q.front } :=
          ⟨q.incIdx_lt h.front_lt, h.back_lt⟩
        have split := contents_advance h message
        have count : q.numMessages = Queue.numMessages { q with front := q.incIdx q.front } + 1 := by
          simpa using congrArg List.length split
        obtain ⟨moved, copied⟩ := ih advanced (newQueue.set newBack q.top) (newBack + 1)
        have total : newBack + 1 + min (Queue.numMessages { q with front := q.incIdx q.front }) room =
            newBack + min q.numMessages (room + 1) := by omega
        rw [total] at moved copied
        simp only [relocate, message, if_true]
        refine ⟨moved, ?_⟩
        rw [copied, split, List.take_succ_cons, Mem.read_add, List.append_assoc]
        congr 1
        · apply Mem.read_congr
          intro i hi
          exact Mem.set_of_ne _ _ (by omega)
        · simp [Mem.read_succ]
      · have empty : q.numMessages = 0 := by
          have := mt h.hasMessage_iff.mpr message
          omega
        have none : q.contents = [] := List.eq_nil_of_length_eq_zero (by simp [empty])
        simp [relocate, message, empty, none]

theorem setCapacity_back {q : Queue α} (h : q.InBounds) (c : Nat) :
    (q.setCapacity c).back = min q.numMessages c := by
  have moved := (relocate_spec c h (fun _ => none) 0).1
  rwa [Nat.zero_add] at moved

theorem InBounds.setCapacity {q : Queue α} (h : q.InBounds) {c : Nat} (fits : q.numMessages < c) :
    (q.setCapacity c).InBounds := by
  refine ⟨Nat.zero_lt_of_lt fits, ?_⟩
  rw [setCapacity_back h]
  change min q.numMessages c < c
  omega

theorem contents_setCapacity {q : Queue α} (h : q.InBounds) {c : Nat} (fits : q.numMessages < c) :
    (q.setCapacity c).contents = q.contents := by
  have back := setCapacity_back h c
  have count : (q.setCapacity c).numMessages = q.numMessages := by
    have front : (q.setCapacity c).front = 0 := rfl
    rw [numMessages_eq_span, front, back, Ring.span, if_pos (Nat.zero_le _)]
    omega
  have copied := (relocate_spec c h (fun _ => none) 0).2
  rw [Nat.zero_add, Nat.min_eq_left (Nat.le_of_lt fits), Mem.read_zero, List.nil_append,
    List.take_of_length_le (by simpa using Nat.le_of_lt fits)] at copied
  rw [contents, count, Ring.view_eq_read _ (by change 0 + q.numMessages ≤ c; omega)]
  exact copied

end Queue
end Zcm.Util
