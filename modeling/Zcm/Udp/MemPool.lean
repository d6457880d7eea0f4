import Mathlib.Data.Nat.Log
import Mathlib.Order.Bounds.Defs
import Mathlib.Tactic.Ring
import Zcm.Lib.FreeList
import Zcm.Lib.Runs

/-!
# The memory pool

Free blocks of the sizes 2^16 to 2^28 are kept in thirteen lists, whose links are in the blocks. An assertion that
fails stops the run with no state.
-/

namespace Zcm.Udp
open Zcm.Lib

abbrev Addr := Nat

def numLists : Nat := 13

def maxAlloc : Nat := 2 ^ 28

def builtinClz (v : Nat) : Nat := 31 - v.log2

def computeSlot (v : Nat) : Option Nat :=
  let bits := 31 - builtinClz v
  let bits := if 2 ^ bits ≠ v then bits + 1 else bits
  if 2 ^ (bits - 1) < v ∧ v ≤ 2 ^ bits then some (max bits 16 - 16) else none

def slotToSize (slot : Nat) : Nat := 2 ^ (slot + 16)

def checkedSlot (sz : Nat) : Option Nat :=
  if maxAlloc < sz then none
  else do
    let slot ← computeSlot sz
    if slot < numLists then some slot else none

structure Heap where
  blocks : Addr → Option Nat
  next : Addr → Option Addr

def Heap.malloc (heap : Heap) (size : Nat) : Option Addr → Heap
  | none => heap
  | some mem => { heap with blocks := Function.update heap.blocks mem (some size) }

structure MemPool where
  sizelists : Nat → Option Addr

namespace MemPool

def new : MemPool := ⟨fun _ => none⟩

def alloc (pool : MemPool) (heap : Heap) (sz : Nat) (fresh : Option Addr) :
    Option (Option Addr × MemPool × Heap) := do
  let slot ← checkedSlot sz
  match pool.sizelists slot with
  | some mem => some (some mem, ⟨Function.update pool.sizelists slot (heap.next mem)⟩, heap)
  | none => some (fresh, pool, heap.malloc (slotToSize slot) fresh)

def free (pool : MemPool) (heap : Heap) (mem : Addr) (sz : Nat) : Option (MemPool × Heap) := do
  let slot ← checkedSlot sz
  some (⟨Function.update pool.sizelists slot (some mem)⟩,
    { heap with next := Function.update heap.next mem (pool.sizelists slot) })

end MemPool

section Slots

variable {sz : Nat}

theorem computeSlot_bits (two : 2 ≤ sz) (fits : sz ≤ maxAlloc) :
    ∃ bits, computeSlot sz = some (max bits 16 - 16) ∧ 2 ^ (bits - 1) < sz ∧ sz ≤ 2 ^ bits := by
  have nonzero : sz ≠ 0 := by omega
  have below : 2 ^ sz.log2 ≤ sz := Nat.log2_self_le nonzero
  have above : sz < 2 ^ (sz.log2 + 1) := Nat.lt_log2_self
  have small : sz.log2 ≤ 28 := by
    have lt : 2 ^ sz.log2 < 2 ^ 29 := lt_of_le_of_lt (below.trans fits) (by decide)
    have := (Nat.pow_lt_pow_iff_right (by decide)).mp lt
    omega
  have positive : 1 ≤ sz.log2 := (Nat.le_log2 nonzero).mpr two
  have bits : 31 - builtinClz sz = sz.log2 := by
    rw [builtinClz]
    omega
  by_cases power : 2 ^ sz.log2 = sz
  · have half : 2 ^ (sz.log2 - 1) < sz := by
      calc 2 ^ (sz.log2 - 1) < 2 ^ sz.log2 := Nat.pow_lt_pow_right (by decide) (by omega)
        _ = sz := power
    refine ⟨sz.log2, ?_, half, power.ge⟩
    simp only [computeSlot, bits, power, ne_eq, not_true_eq_false, if_false, half, le_refl, and_self, if_true]
  · have lower : 2 ^ (sz.log2 + 1 - 1) < sz := lt_of_le_of_ne below power
    refine ⟨sz.log2 + 1, ?_, lower, above.le⟩
    simp only [computeSlot, bits, ne_eq, power, not_false_eq_true, if_true, lower, above.le, and_self]

theorem computeSlot_least (two : 2 ≤ sz) (fits : sz ≤ maxAlloc) :
    ∃ slot, computeSlot sz = some slot ∧ slot < numLists ∧ IsLeast {slot | sz ≤ slotToSize slot} slot := by
  obtain ⟨bits, computed, lower, upper⟩ := computeSlot_bits two fits
  refine ⟨_, computed, ?_, ?_, ?_⟩
  · have := (Nat.pow_lt_pow_iff_right (by decide)).mp (lt_of_lt_of_le lower fits)
    rw [numLists]
    omega
  · exact upper.trans (Nat.pow_le_pow_right (by decide) (by omega))
  · intro k enough
    have := (Nat.pow_lt_pow_iff_right (by decide)).mp (lt_of_lt_of_le lower enough)
    omega

theorem checkedSlot_eq (two : 2 ≤ sz) (fits : sz ≤ maxAlloc) {slot : Nat} (computed : computeSlot sz = some slot) :
    checkedSlot sz = some slot := by
  obtain ⟨slot', computed', inside, -⟩ := computeSlot_least two fits
  obtain rfl : slot' = slot := Option.some.inj (computed'.symm.trans computed)
  simp [checkedSlot, not_lt.mpr fits, computed, inside]

theorem slotToSize_inj {i j : Nat} (same : slotToSize i = slotToSize j) : i = j := by
  have := Nat.pow_right_injective (le_refl 2) same
  omega

end Slots

/-- The pool in use, with the blocks that are handed out and the sizes that they were asked for with. -/
structure InUse where
  pool : MemPool
  heap : Heap
  out : Addr → Option Nat

inductive PoolCall
  | alloc (sz : Nat) (fresh : Option Addr)
  | free (mem : Addr) (sz : Nat)
  -- Who has a block writes to its beginning.
  | store (mem : Addr) (word : Option Addr)

namespace InUse

def init (next : Addr → Option Addr) : InUse := ⟨.new, ⟨fun _ => none, next⟩, fun _ => none⟩

def alloc (s : InUse) (sz : Nat) (fresh : Option Addr) : Option (Option Addr × InUse) := do
  let (mem, pool, heap) ← s.pool.alloc s.heap sz fresh
  some (mem, ⟨pool, heap, match mem with
    | none => s.out
    | some mem => Function.update s.out mem (some sz)⟩)

def free (s : InUse) (mem : Addr) (sz : Nat) : Option InUse := do
  let (pool, heap) ← s.pool.free s.heap mem sz
  some ⟨pool, heap, Function.update s.out mem none⟩

def store (s : InUse) (mem : Addr) (word : Option Addr) : InUse :=
  { s with heap := { s.heap with next := Function.update s.heap.next mem word } }

def next (s : InUse) : PoolCall → Option InUse
  | .alloc sz fresh => (s.alloc sz fresh).map (·.2)
  | .free mem sz => s.free mem sz
  | .store mem word => some (s.store mem word)

/-- Only a block that is handed out is freed or written to, and freed with a size of its class. What malloc returns
is no block yet. -/
def Allowed (s : InUse) : PoolCall → Prop
  | .alloc sz fresh => (2 ≤ sz ∧ sz ≤ maxAlloc) ∧ ∀ mem, fresh = some mem → s.heap.blocks mem = none
  | .free mem sz => (2 ≤ sz ∧ sz ≤ maxAlloc) ∧
      ∃ asked, s.out mem = some asked ∧ computeSlot asked = computeSlot sz
  | .store mem _ => (s.out mem).isSome

structure Idle (s : InUse) (i : Nat) (idle : List Addr) : Prop where
  chain : FreeList.Chain s.heap.next (s.pool.sizelists i) idle
  nodup : idle.Nodup
  size : ∀ mem ∈ idle, s.heap.blocks mem = some (slotToSize i)
  notOut : ∀ mem ∈ idle, s.out mem = none

structure Inv (s : InUse) : Prop where
  lists : ∀ i, ∃ idle, s.Idle i idle
  room : ∀ mem sz, s.out mem = some sz →
    ∃ slot, computeSlot sz = some slot ∧ sz ≤ slotToSize slot ∧ s.heap.blocks mem = some (slotToSize slot)

theorem inv_init (next : Addr → Option Addr) : (init next).Inv where
  lists i := ⟨[], .nil, List.nodup_nil, nofun, nofun⟩
  room _ _ isOut := by cases isOut

variable {s : InUse} {mem : Addr} {sz slot : Nat}

theorem Idle.apart {i j : Nat} {idle idle' : List Addr} (here : s.Idle i idle) (there : s.Idle j idle')
    (member : mem ∈ idle) (member' : mem ∈ idle') : i = j :=
  slotToSize_inj (Option.some.inj ((here.size mem member).symm.trans (there.size mem member')))

theorem Idle.not_mem {i : Nat} {idle : List Addr} (here : s.Idle i idle) (isOut : s.out mem = some sz) :
    mem ∉ idle := by
  intro member
  rw [here.notOut mem member] at isOut
  cases isOut

theorem Inv.store (h : s.Inv) (isOut : (s.out mem).isSome) (word : Option Addr) : (s.store mem word).Inv := by
  obtain ⟨asked, isOut⟩ := Option.isSome_iff_exists.mp isOut
  refine ⟨fun i => ?_, h.room⟩
  obtain ⟨idle, here⟩ := h.lists i
  exact ⟨idle, here.chain.write (here.not_mem isOut) word, here.nodup, here.size, here.notOut⟩

theorem Inv.free (h : s.Inv) {asked : Nat} (two : 2 ≤ sz) (fits : sz ≤ maxAlloc) (isOut : s.out mem = some asked)
    (sameClass : computeSlot asked = computeSlot sz) :
    ∃ t, s.free mem sz = some t ∧ t.Inv ∧ t.heap.blocks = s.heap.blocks ∧
      t.out = Function.update s.out mem none := by
  obtain ⟨slot, computed, -, size⟩ := h.room mem asked isOut
  have checked := checkedSlot_eq two fits (sameClass ▸ computed)
  refine ⟨⟨⟨Function.update s.pool.sizelists slot (some mem)⟩,
    ⟨s.heap.blocks, Function.update s.heap.next mem (s.pool.sizelists slot)⟩, Function.update s.out mem none⟩,
    ?_, ⟨?_, ?_⟩, rfl, rfl⟩
  · simp only [InUse.free, MemPool.free, checked, Option.bind_eq_bind, Option.bind_some]
  · intro i
    obtain ⟨idle, here⟩ := h.lists i
    have apart := here.not_mem isOut
    have others (a : Addr) (member : a ∈ idle) : Function.update s.out mem none a = none := by
      have other : a ≠ mem := fun same => apart (same ▸ member)
      rw [Function.update_of_ne other, here.notOut a member]
    by_cases own : i = slot
    · subst own
      refine ⟨mem :: idle, ?_, List.nodup_cons.mpr ⟨apart, here.nodup⟩, ?_, ?_⟩
      · dsimp only
        rw [Function.update_self]
        exact here.chain.push apart
      · exact List.forall_mem_cons.mpr ⟨size, here.size⟩
      · exact List.forall_mem_cons.mpr ⟨Function.update_self .., others⟩
    · refine ⟨idle, ?_, here.nodup, here.size, others⟩
      dsimp only
      rw [Function.update_of_ne own]
      exact here.chain.write apart _
  · intro a sz' isOut'
    change Function.update s.out mem none a = some sz' at isOut'
    by_cases own : a = mem
    · subst own
      rw [Function.update_self] at isOut'
      cases isOut'
    · rw [Function.update_of_ne own] at isOut'
      exact h.room a sz' isOut'

/-- What `alloc` returned is handed out now and was not before, and has room for what was asked for. -/
structure Allocated (s : InUse) (sz : Nat) (fresh mem : Option Addr) (t : InUse) : Prop where
  inv : t.Inv
  notOut : ∀ a, mem = some a → s.out a = none
  room : ∀ a, mem = some a → ∃ n, t.heap.blocks a = some n ∧ sz ≤ n
  out : t.out = match mem with
    | none => s.out
    | some mem => Function.update s.out mem (some sz)
  new : ∀ a, s.heap.blocks a = none → fresh ≠ some a → t.heap.blocks a = none
  null : mem = none → fresh = none

theorem Inv.allocPooled (h : s.Inv) (computed : computeSlot sz = some slot) (enough : sz ≤ slotToSize slot)
    (fresh : Option Addr) (head : s.pool.sizelists slot = some mem) :
    Allocated s sz fresh (some mem)
      ⟨⟨Function.update s.pool.sizelists slot (s.heap.next mem)⟩, s.heap,
        Function.update s.out mem (some sz)⟩ := by
  obtain ⟨idle, here⟩ := h.lists slot
  have chain := here.chain
  rw [head] at chain
  obtain ⟨rest, rfl, chain⟩ := chain.of_some
  obtain ⟨apart, nodup⟩ := List.nodup_cons.mp here.nodup
  obtain ⟨size, sizes⟩ := List.forall_mem_cons.mp here.size
  obtain ⟨notOut, notOuts⟩ := List.forall_mem_cons.mp here.notOut
  refine ⟨⟨?_, ?_⟩, ?_, ?_, rfl, fun _ none _ => none, nofun⟩
  · intro i
    by_cases own : i = slot
    · subst own
      refine ⟨rest, ?_, nodup, sizes, ?_⟩
      · dsimp only
        rwa [Function.update_self]
      · intro a member
        have other : a ≠ mem := fun same => apart (same ▸ member)
        exact (Function.update_of_ne other ..).trans (notOuts a member)
    · obtain ⟨idle, there⟩ := h.lists i
      refine ⟨idle, ?_, there.nodup, there.size, ?_⟩
      · dsimp only
        rw [Function.update_of_ne own]
        exact there.chain
      · intro a member
        have other : a ≠ mem := by
          rintro rfl
          exact own (there.apart here member List.mem_cons_self)
        exact (Function.update_of_ne other ..).trans (there.notOut a member)
  · intro a sz' isOut
    change Function.update s.out mem (some sz) a = some sz' at isOut
    by_cases own : a = mem
    · subst own
      rw [Function.update_self, Option.some.injEq] at isOut
      subst isOut
      exact ⟨slot, computed, enough, size⟩
    · rw [Function.update_of_ne own] at isOut
      exact h.room a sz' isOut
  · rintro a ⟨⟩
    exact notOut
  · rintro a ⟨⟩
    exact ⟨_, size, enough⟩

theorem Inv.allocNew (h : s.Inv) (computed : computeSlot sz = some slot) (enough : sz ≤ slotToSize slot)
    (unknown : s.heap.blocks mem = none) :
    Allocated s sz (some mem) (some mem)
      ⟨s.pool, s.heap.malloc (slotToSize slot) (some mem), Function.update s.out mem (some sz)⟩ := by
  have notOut : s.out mem = none := by
    cases isOut : s.out mem with
    | none => rfl
    | some sz' =>
        obtain ⟨_, -, -, size⟩ := h.room mem sz' isOut
        rw [unknown] at size
        cases size
  refine ⟨⟨?_, ?_⟩, ?_, ?_, rfl, ?_, nofun⟩
  · intro i
    obtain ⟨idle, here⟩ := h.lists i
    have other (a : Addr) (member : a ∈ idle) : a ≠ mem := by
      rintro rfl
      rw [here.size a member] at unknown
      cases unknown
    refine ⟨idle, here.chain, here.nodup, ?_, ?_⟩
    · intro a member
      exact (Function.update_of_ne (other a member) ..).trans (here.size a member)
    · intro a member
      exact (Function.update_of_ne (other a member) ..).trans (here.notOut a member)
  · intro a sz' isOut
    change Function.update s.out mem (some sz) a = some sz' at isOut
    by_cases own : a = mem
    · subst own
      rw [Function.update_self, Option.some.injEq] at isOut
      subst isOut
      exact ⟨slot, computed, enough, Function.update_self ..⟩
    · rw [Function.update_of_ne own] at isOut
      obtain ⟨slot', computed', enough', size⟩ := h.room a sz' isOut
      exact ⟨slot', computed', enough', (Function.update_of_ne own ..).trans size⟩
  · rintro a ⟨⟩
    exact notOut
  · rintro a ⟨⟩
    exact ⟨_, Function.update_self .., enough⟩
  · intro a none other
    have other : a ≠ mem := fun same => other (congrArg some same.symm)
    exact (Function.update_of_ne other ..).trans none

theorem Inv.alloc (h : s.Inv) (two : 2 ≤ sz) (fits : sz ≤ maxAlloc) {fresh : Option Addr}
    (unknown : ∀ mem, fresh = some mem → s.heap.blocks mem = none) :
    ∃ mem t, s.alloc sz fresh = some (mem, t) ∧ Allocated s sz fresh mem t := by
  obtain ⟨slot, computed, -, enough, -⟩ := computeSlot_least two fits
  have checked := checkedSlot_eq two fits computed
  cases head : s.pool.sizelists slot with
  | some mem =>
      refine ⟨some mem, _, ?_, h.allocPooled computed enough fresh head⟩
      simp only [InUse.alloc, MemPool.alloc, checked, head, Option.bind_eq_bind, Option.bind_some]
  | none =>
      cases fresh with
      | some mem =>
          refine ⟨some mem, _, ?_, h.allocNew computed enough (unknown mem rfl)⟩
          simp only [InUse.alloc, MemPool.alloc, checked, head, Option.bind_eq_bind, Option.bind_some]
      | none =>
          refine ⟨none, s, ?_, h, nofun, nofun, rfl, fun _ none _ => none, fun _ => rfl⟩
          simp only [InUse.alloc, MemPool.alloc, checked, head, Option.bind_eq_bind, Option.bind_some, Heap.malloc]

theorem Inv.next (h : s.Inv) (c : PoolCall) (allowed : s.Allowed c) : ∃ t, s.next c = some t ∧ t.Inv := by
  cases c with
  | alloc sz fresh =>
      obtain ⟨⟨two, fits⟩, unknown⟩ := allowed
      obtain ⟨mem, t, run, after⟩ := h.alloc two fits unknown
      exact ⟨t, by rw [InUse.next, run]; rfl, after.inv⟩
  | free mem sz =>
      obtain ⟨⟨two, fits⟩, asked, isOut, sameClass⟩ := allowed
      obtain ⟨t, run, inv, -⟩ := h.free two fits isOut sameClass
      exact ⟨t, run, inv⟩
  | store mem word => exact ⟨_, rfl, h.store allowed word⟩

/-- Free lists hold blocks of their class that nobody has, who has a block has room for what was asked for, and so it
will be for the next block. -/
structure Sound (s : InUse) : Prop where
  lists : ∀ i, ∃ idle, FreeList.Chain s.heap.next (s.pool.sizelists i) idle ∧
    ∀ mem ∈ idle, s.heap.blocks mem = some (slotToSize i) ∧ s.out mem = none
  room : ∀ mem sz, s.out mem = some sz → ∃ n, s.heap.blocks mem = some n ∧ sz ≤ n
  alloc : ∀ sz fresh, s.Allowed (.alloc sz fresh) → ∃ mem t, s.alloc sz fresh = some (mem, t) ∧
    ∀ a, mem = some a → s.out a = none ∧ ∃ n, t.heap.blocks a = some n ∧ sz ≤ n

theorem Inv.sound (h : s.Inv) : s.Sound := by
  refine ⟨?_, ?_, ?_⟩
  · intro i
    obtain ⟨idle, here⟩ := h.lists i
    exact ⟨idle, here.chain, fun mem member => ⟨here.size mem member, here.notOut mem member⟩⟩
  · intro mem sz isOut
    obtain ⟨slot, -, enough, size⟩ := h.room mem sz isOut
    exact ⟨_, size, enough⟩
  · rintro sz fresh ⟨⟨two, fits⟩, unknown⟩
    obtain ⟨mem, t, run, after⟩ := h.alloc two fits unknown
    exact ⟨mem, t, run, fun a returned => ⟨after.notOut a returned, after.room a returned⟩⟩

end InUse

end Zcm.Udp
