import Zcm.Lib.Runs
import Zcm.Serial.CircBuffer

namespace Zcm.Serial
open Zcm.Lib

/-- The calls of a flush function take and give as many bytes as they like, up to `first` and `second`. -/
inductive CircCall
  | pushBack (d : Byte)
  | popFront (num : Nat)
  | popBack (num : Nat)
  | flushIn (first second : Nat) (input : List Byte)
  | flushOut (first second : Nat)

inductive CircEffect
  | pushed (d : Byte)
  | poppedFront (num : Nat)
  | poppedBack (num : Nat)
  | read (bytes : List Byte)
  | written (bytes : List Byte)

structure BoundedList where
  capacity : Nat
  bytes : List Byte
  fits : bytes.length < capacity

namespace BoundedList

def empty {capacity : Nat} (positive : 0 < capacity) : BoundedList := ⟨capacity, [], positive⟩

def append (l : BoundedList) (bytes : List Byte) : Option BoundedList :=
  if fits : (l.bytes ++ bytes).length < l.capacity then some ⟨l.capacity, l.bytes ++ bytes, fits⟩ else none

def drop (l : BoundedList) (num : Nat) : BoundedList :=
  ⟨l.capacity, l.bytes.drop num, by have := l.fits; simp; omega⟩

def dropLast (l : BoundedList) (num : Nat) : BoundedList :=
  ⟨l.capacity, l.bytes.take (l.bytes.length - num), by have := l.fits; simp; omega⟩

def next (l : BoundedList) : CircEffect → Option BoundedList
  | .pushed d => l.append [d]
  | .poppedFront num => if num ≤ l.bytes.length then some (l.drop num) else none
  | .poppedBack num => if num ≤ l.bytes.length then some (l.dropLast num) else none
  | .read bytes => l.append bytes
  | .written bytes => if bytes <+: l.bytes then some (l.drop bytes.length) else none

end BoundedList

/-- A call that keeps to what the ring asks of its users, and what it did. -/
def CircBuffer.call (cb : CircBuffer) : CircCall → Option (CircEffect × CircBuffer)
  | .pushBack d => if 0 < cbRoom cb then some (.pushed d, cbPushBack cb d) else none
  | .popFront num => if num ≤ cbSize cb then some (.poppedFront num, cbPopFront cb num) else none
  | .popBack num => if num ≤ cbSize cb then some (.poppedBack num, cbPopBack cb num) else none
  | .flushIn first second input =>
      let (cb, left) := cbFlushIn cb first second input
      some (.read (input.take (input.length - left.length)), cb)
  | .flushOut first second =>
      let (bytes, cb) := cbFlushOut cb first second
      some (.written bytes, cb)

structure Driven where
  cb : CircBuffer
  effects : List CircEffect

def Driven.next (s : Driven) (c : CircCall) : Option Driven :=
  (s.cb.call c).map fun (e, cb) => ⟨cb, s.effects ++ [e]⟩

section Refinement

variable {cb : CircBuffer} {l : BoundedList}

structure Matches (cb : CircBuffer) (l : BoundedList) : Prop where
  bounds : InBounds cb
  capacity : cb.capacity = l.capacity
  bytes : contents cb = l.bytes

theorem Matches.size (h : Matches cb l) : cbSize cb = l.bytes.length := by
  rw [← h.bytes, contents_length]

theorem Matches.append {cb' : CircBuffer} (h : Matches cb l) {bytes : List Byte} (bounds : InBounds cb')
    (capacity : cb'.capacity = cb.capacity) (appended : contents cb' = contents cb ++ bytes) :
    ∃ l', l.append bytes = some l' ∧ Matches cb' l' := by
  have lt := bounds.cbSize_lt
  rw [← contents_length, appended, h.bytes, capacity, h.capacity] at lt
  refine ⟨⟨l.capacity, l.bytes ++ bytes, lt⟩, dif_pos lt, bounds, capacity.trans h.capacity, ?_⟩
  rw [appended, h.bytes]

theorem Matches.call (h : Matches cb l) {c : CircCall} {e : CircEffect} {cb' : CircBuffer}
    (called : cb.call c = some (e, cb')) : ∃ l', l.next e = some l' ∧ Matches cb' l' := by
  have size := h.size
  cases c with
  | pushBack d =>
      rw [CircBuffer.call] at called
      split at called
      next room =>
        cases called
        obtain ⟨bounds, pushed⟩ := cbPushBack_spec h.bounds room d
        exact h.append bounds rfl pushed
      next => cases called
  | popFront num =>
      rw [CircBuffer.call] at called
      split at called
      next le =>
        cases called
        obtain ⟨bounds, popped⟩ := cbPopFront_spec h.bounds le
        exact ⟨l.drop num, if_pos (size ▸ le), bounds, h.capacity, by rw [popped, h.bytes]; rfl⟩
      next => cases called
  | popBack num =>
      rw [CircBuffer.call] at called
      split at called
      next le =>
        cases called
        obtain ⟨bounds, popped⟩ := cbPopBack_spec h.bounds le
        exact ⟨l.dropLast num, if_pos (size ▸ le), bounds, h.capacity, by rw [popped, h.bytes, size]; rfl⟩
      next => cases called
  | flushIn first second input =>
      obtain ⟨bounds, xs, split, appended⟩ := cbFlushIn_read h.bounds first second input
      have read : input.take (input.length - (cbFlushIn cb first second input).2.length) = xs := by
        have length := congrArg List.length split
        rw [List.length_append] at length
        conv_lhs => arg 2; rw [split]
        exact List.take_left' (by omega)
      obtain ⟨rfl, rfl⟩ : .read xs = e ∧ (cbFlushIn cb first second input).1 = cb' := by
        simpa only [CircBuffer.call, read, Option.some.injEq, Prod.mk.injEq] using called
      exact h.append bounds (cbFlushIn_capacity cb first second input) appended
  | flushOut first second =>
      obtain ⟨bounds, split⟩ := cbFlushOut_spec h.bounds first second
      rw [h.bytes] at split
      obtain ⟨rfl, rfl⟩ : .written (cbFlushOut cb first second).1 = e ∧ (cbFlushOut cb first second).2 = cb' := by
        simpa only [CircBuffer.call, Option.some.injEq, Prod.mk.injEq] using called
      refine ⟨l.drop _, if_pos ⟨_, split⟩, bounds, (cbFlushOut_capacity cb first second).trans h.capacity, ?_⟩
      change _ = l.bytes.drop _
      rw [← split, List.drop_left]

end Refinement

end Zcm.Serial
