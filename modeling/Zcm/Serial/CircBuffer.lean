import Zcm.Lib.Bytes
import Zcm.Lib.Ring

namespace Zcm.Serial
open Zcm.Lib

structure CircBuffer where
  data : Mem Byte
  capacity : Nat
  front : Nat
  back : Nat

def cbInit (data : Mem Byte) (sz : Nat) : CircBuffer := ⟨data, sz, 0, 0⟩

def cbSize (cb : CircBuffer) : Nat :=
  if cb.back ≥ cb.front then cb.back - cb.front else cb.capacity - (cb.front - cb.back)

def cbRoom (cb : CircBuffer) : Nat := cb.capacity - 1 - cbSize cb

def cbPushBack (cb : CircBuffer) (d : Byte) : CircBuffer :=
  { cb with
    data := cb.data.set cb.back d
    back := if cb.back + 1 = cb.capacity then 0 else cb.back + 1 }

def cbFront (cb : CircBuffer) (offset : Nat) : Byte :=
  let idx := cb.front + offset
  cb.data (if idx ≥ cb.capacity then idx - cb.capacity else idx)

def cbPopFront (cb : CircBuffer) (num : Nat) : CircBuffer :=
  let front := cb.front + num
  { cb with front := if front ≥ cb.capacity then front - cb.capacity else front }

def cbPopBack (cb : CircBuffer) (num : Nat) : CircBuffer :=
  { cb with back := if cb.back < num then cb.capacity - (num - cb.back) else cb.back - num }

/-- The bytes that `write` took and the buffer without them. A call of `write` takes as many bytes as
it likes of those offered, up to `first`; a second one is made for the part of the data that lies at
the beginning of the block. -/
def cbFlushOut (cb : CircBuffer) (first second : Nat) : List Byte × CircBuffer :=
  let sz := cbSize cb
  if sz = 0 then ([], cb)
  else
    let contiguous := min (cb.capacity - cb.front) sz
    let wrapped := sz - contiguous
    let n := min first contiguous
    let out := cb.data.read cb.front n
    let cb' := cbPopFront cb n
    if n ≠ contiguous ∨ wrapped = 0 then (out, cb')
    else
      let n' := min second wrapped
      (out ++ cb'.data.read 0 n', cbPopFront cb' n')

def readIn (cb : CircBuffer) (limit num : Nat) (input : List Byte) : Nat × CircBuffer × List Byte :=
  let n := min limit (min num input.length)
  (n, { cb with data := cb.data.write cb.back (input.take n), back := cb.back + n }, input.drop n)

def cbFlushIn (cb : CircBuffer) (first second : Nat) (input : List Byte) : CircBuffer × List Byte :=
  let room := cbRoom cb
  if cb.back < cb.front then (readIn cb first room input).2
  else
    let contiguous := min (cb.capacity - cb.back) room
    let wrapped := room - contiguous
    let r := readIn cb first contiguous input
    if r.1 ≠ contiguous then r.2
    else
      let cb' := { r.2.1 with back := if r.2.1.back = r.2.1.capacity then 0 else r.2.1.back }
      if wrapped = 0 then (cb', r.2.2)
      else (readIn cb' second wrapped r.2.2).2

structure InBounds (cb : CircBuffer) : Prop where
  front_lt : cb.front < cb.capacity
  back_lt : cb.back < cb.capacity

def contents (cb : CircBuffer) : List Byte := Ring.view cb.data cb.capacity cb.front (cbSize cb)

theorem cbSize_eq_span (cb : CircBuffer) : cbSize cb = Ring.span cb.capacity cb.front cb.back := rfl

@[simp] theorem contents_length (cb : CircBuffer) : (contents cb).length = cbSize cb := by
  simp [contents]

theorem inBounds_cbInit (data : Mem Byte) {sz : Nat} (positive : 0 < sz) : InBounds (cbInit data sz) :=
  ⟨positive, positive⟩

@[simp] theorem contents_cbInit (data : Mem Byte) (sz : Nat) : contents (cbInit data sz) = [] := rfl

theorem InBounds.cbSize_lt {cb : CircBuffer} (h : InBounds cb) : cbSize cb < cb.capacity :=
  Ring.span_lt h.front_lt h.back_lt

theorem InBounds.cbRoom_add {cb : CircBuffer} (h : InBounds cb) :
    cbRoom cb + cbSize cb + 1 = cb.capacity := by
  have := h.cbSize_lt
  unfold cbRoom
  omega

theorem cbFront_eq (cb : CircBuffer) {k : Nat} (h : k < (contents cb).length) :
    cbFront cb k = (contents cb)[k] := by
  simp only [contents]
  rw [Ring.view_getElem]
  rfl

theorem InBounds.back_eq {cb : CircBuffer} (h : InBounds cb) :
    cb.back = Ring.slot cb.capacity (cb.front + cbSize cb) :=
  (Ring.slot_span h.front_lt h.back_lt).symm

theorem cbSize_of_back (cb : CircBuffer) {n : Nat} (hf : cb.front < cb.capacity) (hn : n < cb.capacity)
    (hb : cb.back = Ring.slot cb.capacity (cb.front + n)) : cbSize cb = n := by
  rw [cbSize_eq_span, hb]
  exact Ring.span_slot hf hn

theorem cbPushBack_spec {cb : CircBuffer} (h : InBounds cb) (room : 0 < cbRoom cb) (d : Byte) :
    InBounds (cbPushBack cb d) ∧ contents (cbPushBack cb d) = contents cb ++ [d] := by
  have total := h.cbRoom_add
  have back : (cbPushBack cb d).back = Ring.slot cb.capacity (cb.front + (cbSize cb + 1)) := by
    have front_lt := h.front_lt
    have back_lt := h.back_lt
    rw [← Ring.slot_slot front_lt (by omega), ← h.back_eq]
    simp only [cbPushBack, Ring.slot]
    split <;> split <;> omega
  have size : cbSize (cbPushBack cb d) = cbSize cb + 1 :=
    cbSize_of_back (cbPushBack cb d) h.front_lt (by change _ < cb.capacity; omega) back
  refine ⟨⟨h.front_lt, ?_⟩, ?_⟩
  · rw [back]
    exact Ring.slot_lt h.front_lt (by omega)
  · rw [contents, size]
    simp only [cbPushBack]
    rw [h.back_eq]
    exact Ring.view_push cb.data d (by omega)

theorem cbPopFront_spec {cb : CircBuffer} (h : InBounds cb) {num : Nat} (le : num ≤ cbSize cb) :
    InBounds (cbPopFront cb num) ∧ contents (cbPopFront cb num) = (contents cb).drop num := by
  have lt := h.cbSize_lt
  have front : (cbPopFront cb num).front = Ring.slot cb.capacity (cb.front + num) := rfl
  have size : cbSize (cbPopFront cb num) = cbSize cb - num := by
    rw [cbSize_eq_span, front]
    exact Ring.span_advance h.front_lt h.back_lt le
  refine ⟨⟨?_, h.back_lt⟩, ?_⟩
  · rw [front]
    exact Ring.slot_lt h.front_lt (by omega)
  · rw [contents, size, front]
    exact (Ring.view_drop cb.data h.front_lt le (by omega)).symm

theorem cbPopBack_spec {cb : CircBuffer} (h : InBounds cb) {num : Nat} (le : num ≤ cbSize cb) :
    InBounds (cbPopBack cb num) ∧
      contents (cbPopBack cb num) = (contents cb).take (cbSize cb - num) := by
  have lt := h.cbSize_lt
  have back : (cbPopBack cb num).back = Ring.slot cb.capacity (cb.front + (cbSize cb - num)) := by
    simp only [cbPopBack]
    rw [h.back_eq]
    exact Ring.slot_retreat h.front_lt (by omega) le
  have size : cbSize (cbPopBack cb num) = cbSize cb - num :=
    cbSize_of_back (cbPopBack cb num) h.front_lt (by change _ < cb.capacity; omega) back
  refine ⟨⟨h.front_lt, ?_⟩, ?_⟩
  · rw [back]
    exact Ring.slot_lt h.front_lt (by omega)
  · rw [contents, size]
    exact (Ring.view_take cb.data _ _ _ _ (by omega)).symm

theorem read_front {cb : CircBuffer} {n : Nat} (le : n ≤ cbSize cb) (flat : cb.front + n ≤ cb.capacity) :
    cb.data.read cb.front n = (contents cb).take n := by
  rw [contents, Ring.view_take _ _ _ _ _ le, Ring.view_eq_read _ flat]

@[simp] theorem cbFlushOut_capacity (cb : CircBuffer) (first second : Nat) :
    (cbFlushOut cb first second).2.capacity = cb.capacity := by
  unfold cbFlushOut
  simp only
  split
  · rfl
  · split <;> rfl

@[simp] theorem cbFlushIn_capacity (cb : CircBuffer) (first second : Nat) (input : List Byte) :
    (cbFlushIn cb first second input).1.capacity = cb.capacity := by
  unfold cbFlushIn
  simp only
  split
  · rfl
  · split
    · rfl
    · split <;> rfl

theorem cbFlushOut_spec {cb : CircBuffer} (h : InBounds cb) (first second : Nat) :
    InBounds (cbFlushOut cb first second).2 ∧
      (cbFlushOut cb first second).1 ++ contents (cbFlushOut cb first second).2 = contents cb := by
  have front_lt := h.front_lt
  unfold cbFlushOut
  simp only
  split
  · exact ⟨h, rfl⟩
  have le : min first (min (cb.capacity - cb.front) (cbSize cb)) ≤ cbSize cb := by omega
  obtain ⟨bounds, rest⟩ := cbPopFront_spec h le
  have out := read_front le (by omega)
  split
  · refine ⟨bounds, ?_⟩
    rw [out, rest, List.take_append_drop]
  next both =>
    -- The first call took everything up to the end of the block, so `front` is back at 0.
    have full : min first (min (cb.capacity - cb.front) (cbSize cb)) = cb.capacity - cb.front := by omega
    rw [full] at bounds rest out ⊢
    have front : (cbPopFront cb (cb.capacity - cb.front)).front = 0 := by
      simp only [cbPopFront]
      rw [if_pos (by omega)]
      omega
    have size : cbSize (cbPopFront cb (cb.capacity - cb.front)) = cbSize cb - (cb.capacity - cb.front) := by
      simpa using congrArg List.length rest
    have capacity : (cbPopFront cb (cb.capacity - cb.front)).capacity = cb.capacity := rfl
    have le' : min second (cbSize cb - min (cb.capacity - cb.front) (cbSize cb)) ≤
        cbSize (cbPopFront cb (cb.capacity - cb.front)) := by omega
    have flat : (cbPopFront cb (cb.capacity - cb.front)).front +
        min second (cbSize cb - min (cb.capacity - cb.front) (cbSize cb)) ≤ cb.capacity := by
      have := h.cbSize_lt
      omega
    have out' := read_front le' flat
    obtain ⟨bounds', rest'⟩ := cbPopFront_spec bounds le'
    rw [front] at out'
    refine ⟨bounds', ?_⟩
    rw [out', rest', List.append_assoc, List.take_append_drop, rest, out, List.take_append_drop]

theorem cbFlushOut_all {cb : CircBuffer} (h : InBounds cb) {limit : Nat} (all : cbSize cb ≤ limit) :
    (cbFlushOut cb limit limit).1 = contents cb := by
  have front_lt := h.front_lt
  have parts := (cbFlushOut_spec h limit limit).2
  have length : (cbFlushOut cb limit limit).1.length = cbSize cb := by
    unfold cbFlushOut
    simp only
    repeat' split
    all_goals simp
    all_goals omega
  have total := congrArg List.length parts
  rw [List.length_append, length, contents_length cb] at total
  have none : contents (cbFlushOut cb limit limit).2 = [] := List.eq_nil_of_length_eq_zero (by omega)
  rwa [none, List.append_nil] at parts

theorem fill_spec {cb : CircBuffer} (h : InBounds cb) (xs : List Byte)
    (flat : cb.back + xs.length ≤ cb.capacity) (fits : xs.length ≤ cbRoom cb) (cb' : CircBuffer)
    (data : cb'.data = cb.data.write cb.back xs) (capacity : cb'.capacity = cb.capacity)
    (front : cb'.front = cb.front) (back : cb'.back = Ring.slot cb.capacity (cb.back + xs.length)) :
    InBounds cb' ∧ contents cb' = contents cb ++ xs := by
  have total := h.cbRoom_add
  have place := h.back_eq
  have back' : cb'.back = Ring.slot cb.capacity (cb.front + (cbSize cb + xs.length)) := by
    rw [back, ← Ring.slot_slot h.front_lt (by omega), ← place]
  have size : cbSize cb' = cbSize cb + xs.length := by
    apply cbSize_of_back
    · rw [front, capacity]
      exact h.front_lt
    · omega
    · rw [back', front, capacity]
  refine ⟨⟨?_, ?_⟩, ?_⟩
  · rw [front, capacity]
    exact h.front_lt
  · rw [back', capacity]
    exact Ring.slot_lt h.front_lt (by omega)
  · rw [contents, size, data, capacity, front, place]
    exact Ring.view_write cb.data xs h.front_lt (by rw [← place]; exact flat) (by omega)

theorem fill_below {cb : CircBuffer} (h : InBounds cb) (xs : List Byte)
    (below : cb.back + xs.length < cb.capacity) (fits : xs.length ≤ cbRoom cb) :
    InBounds { cb with data := cb.data.write cb.back xs, back := cb.back + xs.length } ∧
      contents { cb with data := cb.data.write cb.back xs, back := cb.back + xs.length } =
        contents cb ++ xs :=
  fill_spec h xs (Nat.le_of_lt below) fits _ rfl rfl rfl (Ring.slot_of_lt below).symm

theorem readIn_eq (cb : CircBuffer) (limit num : Nat) (input : List Byte) :
    ∃ xs rest, input = xs ++ rest ∧ xs.length ≤ num ∧
      readIn cb limit num input =
        (xs.length, { cb with data := cb.data.write cb.back xs, back := cb.back + xs.length }, rest) := by
  have length : (input.take (min limit (min num input.length))).length =
      min limit (min num input.length) := by simp
  refine ⟨_, _, (List.take_append_drop (min limit (min num input.length)) input).symm, by omega, ?_⟩
  rw [length]
  rfl

theorem cbFlushIn_read {cb : CircBuffer} (h : InBounds cb) (first second : Nat) (input : List Byte) :
    InBounds (cbFlushIn cb first second input).1 ∧ ∃ xs, input = xs ++ (cbFlushIn cb first second input).2 ∧
      contents (cbFlushIn cb first second input).1 = contents cb ++ xs := by
  have total := h.cbRoom_add
  have front_lt := h.front_lt
  have back_lt := h.back_lt
  unfold cbFlushIn
  simp only
  split
  next below =>
    have size : cbSize cb = cb.capacity - (cb.front - cb.back) := if_neg (by omega)
    obtain ⟨xs, rest, rfl, le, equal⟩ := readIn_eq cb first (cbRoom cb) input
    rw [equal]
    have filled := fill_below h xs (by omega) le
    exact ⟨filled.1, xs, rfl, filled.2⟩
  next above =>
    have size : cbSize cb = cb.back - cb.front := if_pos (by omega)
    obtain ⟨xs, rest, rfl, le, equal⟩ := readIn_eq cb first (min (cb.capacity - cb.back) (cbRoom cb)) input
    rw [equal]
    simp only
    split
    next short =>
      have filled := fill_below h xs (by omega) (by omega)
      exact ⟨filled.1, xs, rfl, filled.2⟩
    next full =>
      have turn : (if cb.back + xs.length = cb.capacity then 0 else cb.back + xs.length) =
          Ring.slot cb.capacity (cb.back + xs.length) := by
        unfold Ring.slot
        split <;> split <;> omega
      have filled := fill_spec h xs (by omega) (by omega) { cb with
          data := cb.data.write cb.back xs
          back := if cb.back + xs.length = cb.capacity then 0 else cb.back + xs.length }
        rfl rfl rfl turn
      split
      · exact ⟨filled.1, xs, rfl, filled.2⟩
      next more =>
        -- The block is full up to its end: `back` is 0, and the cells before `front` are free.
        generalize hcb' : ({ cb with
          data := cb.data.write cb.back xs
          back := if cb.back + xs.length = cb.capacity then 0 else cb.back + xs.length } : CircBuffer) =
            cb' at filled ⊢
        have zero : cb'.back = 0 := by
          subst hcb'
          exact if_pos (by omega)
        have capacity : cb'.capacity = cb.capacity := by subst hcb'; rfl
        obtain ⟨ys, rest', rfl, le', equal'⟩ :=
          readIn_eq cb' second (cbRoom cb - min (cb.capacity - cb.back) (cbRoom cb)) rest
        have room : cbRoom cb' + xs.length = cbRoom cb := by
          have := filled.1.cbRoom_add
          have size' : cbSize cb' = cbSize cb + xs.length := by
            simpa using congrArg List.length filled.2
          omega
        have filled' := fill_below filled.1 ys (by omega) (by omega)
        rw [equal']
        refine ⟨filled'.1, xs ++ ys, by simp, ?_⟩
        rw [filled'.2, filled.2, List.append_assoc]

theorem cbFlushIn_spec {cb : CircBuffer} (h : InBounds cb) (first second : Nat) (input : List Byte) :
    InBounds (cbFlushIn cb first second input).1 ∧
      contents (cbFlushIn cb first second input).1 ++ (cbFlushIn cb first second input).2 =
        contents cb ++ input := by
  obtain ⟨bounds, xs, split, appended⟩ := cbFlushIn_read h first second input
  refine ⟨bounds, ?_⟩
  rw [appended, List.append_assoc, ← split]

theorem cbFlushIn_fresh (data : Mem Byte) {sz first : Nat} {input : List Byte} (fits : input.length < sz)
    (all : input.length ≤ first) (second : Nat) :
    contents (cbFlushIn (cbInit data sz) first second input).1 = input := by
  have spec := cbFlushIn_spec (inBounds_cbInit data (by omega : 0 < sz)) first second input
  have rest : (cbFlushIn (cbInit data sz) first second input).2 = [] := by
    have room : cbRoom (cbInit data sz) = sz - 1 := rfl
    have n : min first (min (min (sz - 0) (sz - 1)) input.length) = input.length := by omega
    unfold cbFlushIn readIn
    simp only [room]
    simp only [cbInit, Nat.lt_irrefl, if_false, n, List.drop_length]
    repeat' split
    all_goals simp
  simpa [rest] using spec.2

end Zcm.Serial
