import Mathlib.Algebra.Order.BigOperators.Group.List
import Zcm.Lib.Bytes
import Zcm.Lib.Runs

namespace Zcm.Util
open Zcm.Lib

abbrev Addr := Nat

structure PoolBuffer where
  channel : String
  payload : List Byte
  capacity : Nat
  fits : payload.length ≤ capacity

namespace PoolBuffer

def new : PoolBuffer := ⟨"", [], 0, le_rfl⟩

/-- `payload.resize(size)`. Beyond the capacity it gets `grown` bytes, and `size` at least, or throws. -/
def resize (buffer : PoolBuffer) (size : Nat) (grown : Option Nat) : Option PoolBuffer :=
  let payload := (buffer.payload ++ List.replicate (size - buffer.payload.length) 0).take size
  if fits : size ≤ buffer.capacity then
    some ⟨buffer.channel, payload, buffer.capacity, (List.length_take_le ..).trans fits⟩
  else
    grown.map fun grown => ⟨buffer.channel, payload, max size grown,
      (List.length_take_le ..).trans (le_max_left ..)⟩

theorem resize_length {buffer buffer' : PoolBuffer} {size : Nat} {grown : Option Nat}
    (grows : buffer.resize size grown = some buffer') : buffer'.payload.length = size := by
  have length : ((buffer.payload ++ List.replicate (size - buffer.payload.length) 0).take size).length = size := by
    rw [List.length_take, List.length_append, List.length_replicate]
    omega
  rw [resize] at grows
  split at grows
  · cases grows
    exact length
  · obtain ⟨_, -, rfl⟩ := Option.map_eq_some_iff.mp grows
    exact length

/-- `memcpy` to the beginning of the payload, which has to have room. -/
def write (buffer : PoolBuffer) (bytes : List Byte) : Option PoolBuffer :=
  if room : bytes.length ≤ buffer.payload.length then
    some ⟨buffer.channel, bytes ++ buffer.payload.drop bytes.length, buffer.capacity, by
      rw [List.length_append, List.length_drop, Nat.add_sub_cancel' room]
      exact buffer.fits⟩
  else none

end PoolBuffer

structure MessageBufferPool where
  idle : List (Addr × PoolBuffer)
  cachedBytes : Nat

namespace MessageBufferPool

def maxBuffers : Nat := 16

def maxBytes : Nat := 16 <<< 20

def new : MessageBufferPool := ⟨[], 0⟩

def minus (a b : Nat) : Nat := (a + 2 ^ 64 - b) % 2 ^ 64

def takeIdle (pool : MessageBufferPool) (fresh : Option Addr) : Option (Addr × PoolBuffer) × MessageBufferPool :=
  match pool.idle.getLast? with
  | some owned => (some owned, ⟨pool.idle.dropLast, minus pool.cachedBytes owned.2.capacity⟩)
  | none => (fresh.map fun p => (p, .new), pool)

def acquire (pool : MessageBufferPool) (size : Nat) (fresh : Option Addr) (grown : Option Nat) :
    Option (Addr × PoolBuffer) × MessageBufferPool :=
  let (owned, pool) := pool.takeIdle fresh
  let size := if size = 0 then 1 else size
  match owned with
  | none => (none, pool)
  | some (p, buffer) =>
      if buffer.payload.length < size then ((buffer.resize size grown).map (p, ·), pool) else (some (p, buffer), pool)

theorem acquire_cases {pool pool' : MessageBufferPool} {size : Nat} {fresh : Option Addr} {grown : Option Nat}
    {acquired : Option (Addr × PoolBuffer)} (acquires : pool.acquire size fresh grown = (acquired, pool')) :
    pool' = (pool.takeIdle fresh).2 ∧ ∀ p buffer, acquired = some (p, buffer) →
      (∃ buffer', (pool.takeIdle fresh).1 = some (p, buffer')) ∧ max size 1 ≤ buffer.payload.length := by
  have least : (if size = 0 then 1 else size) = max size 1 := by
    split <;> omega
  simp only [acquire, least] at acquires
  generalize pool.takeIdle fresh = takes at acquires ⊢
  obtain ⟨taken, rest⟩ := takes
  cases taken with
  | none =>
      simp only [Prod.mk.injEq] at acquires
      obtain ⟨rfl, rfl⟩ := acquires
      exact ⟨rfl, nofun⟩
  | some owned =>
      obtain ⟨p, buffer⟩ := owned
      dsimp only at acquires
      split at acquires
      next short =>
        simp only [Prod.mk.injEq] at acquires
        obtain ⟨rfl, rfl⟩ := acquires
        refine ⟨rfl, fun p' buffer' resizes => ?_⟩
        obtain ⟨_, resizes, same⟩ := Option.map_eq_some_iff.mp resizes
        cases same
        exact ⟨⟨buffer, rfl⟩, (PoolBuffer.resize_length resizes).ge⟩
      next enough =>
        simp only [Prod.mk.injEq] at acquires
        obtain ⟨rfl, rfl⟩ := acquires
        refine ⟨rfl, ?_⟩
        rintro _ _ ⟨⟩
        exact ⟨⟨buffer, rfl⟩, not_lt.mp enough⟩

def release (pool : MessageBufferPool) (owned : Addr × PoolBuffer) : MessageBufferPool :=
  let capacity := owned.2.capacity
  if pool.idle.length < maxBuffers ∧ capacity ≤ minus maxBytes pool.cachedBytes then
    ⟨pool.idle ++ [owned], (pool.cachedBytes + capacity) % 2 ^ 64⟩
  else pool

end MessageBufferPool

structure Leases where
  pool : MessageBufferPool
  leased : Addr → Option PoolBuffer

inductive Lease
  | acquire (size : Nat) (fresh : Option Addr) (grown : Option Nat)
  -- Who has a buffer changes it.
  | change (p : Addr) (buffer : PoolBuffer)
  | release (p : Addr)
  -- An exception destroys a buffer that is leased.
  | destroy (p : Addr)

namespace Leases
open MessageBufferPool

def init : Leases := ⟨.new, fun _ => none⟩

def set (s : Leases) (p : Addr) (buffer : Option PoolBuffer) : Leases :=
  { s with leased := Function.update s.leased p buffer }

def acquire (s : Leases) (size : Nat) (fresh : Option Addr) (grown : Option Nat) : Option Addr × Leases :=
  match s.pool.acquire size fresh grown with
  | (none, pool) => (none, { s with pool := pool })
  | (some (p, buffer), pool) => (some p, set { s with pool := pool } p (some buffer))

def release (s : Leases) (p : Addr) : Option Leases :=
  (s.leased p).map fun buffer => set { s with pool := s.pool.release (p, buffer) } p none

def next (s : Leases) : Lease → Option Leases
  | .acquire size fresh grown => some (s.acquire size fresh grown).2
  | .change p buffer => some (s.set p (some buffer))
  | .release p => s.release p
  | .destroy p => some (s.set p none)

/-- Only who has a buffer changes it or gives it back, and a new buffer is none of those that there are. -/
def Allowed (s : Leases) : Lease → Prop
  | .acquire _ fresh _ => ∀ p, fresh = some p → s.leased p = none ∧ ∀ owned ∈ s.pool.idle, owned.1 ≠ p
  | .change p _ | .release p | .destroy p => (s.leased p).isSome

def Bytes (idle : List (Addr × PoolBuffer)) : Nat := (idle.map fun owned => owned.2.capacity).sum

structure Inv (s : Leases) : Prop where
  cached : s.pool.cachedBytes = Bytes s.pool.idle
  bounded : Bytes s.pool.idle ≤ maxBytes
  few : s.pool.idle.length ≤ maxBuffers
  nodup : (s.pool.idle.map Prod.fst).Nodup
  apart : ∀ owned ∈ s.pool.idle, s.leased owned.1 = none

theorem inv_init : init.Inv := ⟨rfl, Nat.zero_le _, Nat.zero_le _, List.nodup_nil, nofun⟩

theorem minus_eq {a b : Nat} (le : b ≤ a) (fits : a < 2 ^ 64) : minus a b = a - b := by
  rw [minus]
  omega

theorem maxBytes_lt : maxBytes < 2 ^ 64 := by decide

variable {s : Leases} {p : Addr} {buffer : PoolBuffer}

theorem Inv.underflow (h : s.Inv) {rest : List (Addr × PoolBuffer)} {owned : Addr × PoolBuffer}
    (isIdle : s.pool.idle = rest ++ [owned]) : s.pool.cachedBytes = Bytes rest + owned.2.capacity := by
  rw [h.cached, isIdle]
  simp [Bytes]

theorem Inv.set_some (h : s.Inv) (apart : ∀ owned ∈ s.pool.idle, owned.1 ≠ p) : (s.set p (some buffer)).Inv := by
  refine ⟨h.cached, h.bounded, h.few, h.nodup, fun owned member => ?_⟩
  exact (Function.update_of_ne (apart owned member) ..).trans (h.apart owned member)

theorem Inv.set_none (h : s.Inv) : (s.set p none).Inv := by
  refine ⟨h.cached, h.bounded, h.few, h.nodup, fun owned member => ?_⟩
  by_cases same : owned.1 = p
  · exact same ▸ Function.update_self ..
  · exact (Function.update_of_ne same ..).trans (h.apart owned member)

theorem Inv.idle_ne (h : s.Inv) (leased : (s.leased p).isSome) : ∀ owned ∈ s.pool.idle, owned.1 ≠ p := by
  rintro owned member rfl
  rw [h.apart owned member] at leased
  cases leased

theorem Inv.takeIdle (h : s.Inv) {fresh : Option Addr}
    (new : ∀ p, fresh = some p → s.leased p = none ∧ ∀ owned ∈ s.pool.idle, owned.1 ≠ p) :
    Inv { s with pool := (s.pool.takeIdle fresh).2 } ∧ ∀ p buffer, (s.pool.takeIdle fresh).1 = some (p, buffer) →
      s.leased p = none ∧ ∀ owned ∈ (s.pool.takeIdle fresh).2.idle, owned.1 ≠ p := by
  cases last : s.pool.idle.getLast? with
  | none =>
      simp only [MessageBufferPool.takeIdle, last]
      refine ⟨h, fun p buffer isFresh => ?_⟩
      obtain ⟨q, isNew, same⟩ := Option.map_eq_some_iff.mp isFresh
      cases same
      exact new p isNew
  | some owned =>
      obtain ⟨rest, isIdle⟩ := List.getLast?_eq_some_iff.mp last
      simp only [MessageBufferPool.takeIdle, last]
      have bytes := h.underflow isIdle
      have bounded := h.cached ▸ h.bounded
      have few := h.few
      have nodup := h.nodup
      have apart := h.apart
      have fits := maxBytes_lt
      rw [isIdle, List.length_append] at few
      rw [isIdle, List.map_append, List.nodup_append] at nodup
      simp only [isIdle, List.mem_append, List.mem_singleton] at apart
      rw [minus_eq (by omega) (by omega), isIdle, List.dropLast_concat]
      refine ⟨⟨?_, ?_, ?_, nodup.1, fun other member => apart other (.inl member)⟩, ?_⟩
      · change s.pool.cachedBytes - owned.2.capacity = Bytes rest
        omega
      · change Bytes rest ≤ maxBytes
        omega
      · change rest.length ≤ maxBuffers
        omega
      · rintro _ _ ⟨⟩
        refine ⟨apart _ (.inr rfl), fun other member => ?_⟩
        exact nodup.2.2 _ (List.mem_map_of_mem member) _ List.mem_cons_self

theorem Inv.acquire (h : s.Inv) {size : Nat} {fresh grown : Option Nat}
    (new : ∀ p, fresh = some p → s.leased p = none ∧ ∀ owned ∈ s.pool.idle, owned.1 ≠ p) :
    (s.acquire size fresh grown).2.Inv := by
  obtain ⟨kept, apart⟩ := h.takeIdle new
  rw [Leases.acquire]
  split
  next _ pool acquires =>
    obtain ⟨rfl, -⟩ := acquire_cases acquires
    exact kept
  next p buffer pool acquires =>
    obtain ⟨rfl, taken⟩ := acquire_cases acquires
    obtain ⟨⟨buffer', taken⟩, -⟩ := taken p buffer rfl
    exact kept.set_some (apart p buffer' taken).2

theorem Inv.release (h : s.Inv) (leased : s.leased p = some buffer) :
    (set { s with pool := s.pool.release (p, buffer) } p none).Inv := by
  have fits := maxBytes_lt
  have bounded := h.cached ▸ h.bounded
  rw [MessageBufferPool.release, minus_eq bounded fits]
  split
  next room =>
    have cached := h.cached
    have sum : Bytes (s.pool.idle ++ [(p, buffer)]) = Bytes s.pool.idle + buffer.capacity := by
      simp [Bytes]
    have others := h.idle_ne (Option.isSome_of_eq_some leased)
    dsimp only at room
    refine ⟨?_, ?_, ?_, ?_, fun owned member => ?_⟩
    · change (s.pool.cachedBytes + buffer.capacity) % 2 ^ 64 = Bytes (s.pool.idle ++ [(p, buffer)])
      omega
    · change Bytes (s.pool.idle ++ [(p, buffer)]) ≤ maxBytes
      omega
    · change (s.pool.idle ++ [(p, buffer)]).length ≤ maxBuffers
      rw [List.length_append, List.length_singleton]
      omega
    · change ((s.pool.idle ++ [(p, buffer)]).map Prod.fst).Nodup
      rw [List.map_append, List.nodup_append]
      refine ⟨h.nodup, by simp, fun q member q' same => ?_⟩
      obtain ⟨owned, isIdle, rfl⟩ := List.mem_map.mp member
      exact List.mem_singleton.mp same ▸ others owned isIdle
    · obtain member | same := List.mem_append.mp member
      · exact (Function.update_of_ne (others owned member) ..).trans (h.apart owned member)
      · obtain rfl := List.mem_singleton.mp same
        exact Function.update_self ..
  next => exact h.set_none

theorem Inv.next (h : s.Inv) (c : Lease) (allowed : s.Allowed c) : ∃ t, s.next c = some t ∧ t.Inv := by
  cases c with
  | acquire size fresh grown => exact ⟨_, rfl, h.acquire allowed⟩
  | change p buffer => exact ⟨_, rfl, h.set_some (h.idle_ne allowed)⟩
  | release p =>
      obtain ⟨buffer, leased⟩ := Option.isSome_iff_exists.mp allowed
      exact ⟨_, by rw [Leases.next, Leases.release, leased]; rfl, h.release leased⟩
  | destroy p => exact ⟨_, rfl, h.set_none⟩

/-- The counter is exact and within its bound, so that neither operation subtracts too much, what is idle is not
leased, and who acquires a buffer gets one that is long enough. -/
structure Exact (s : Leases) : Prop where
  cached : s.pool.cachedBytes = Bytes s.pool.idle
  bounded : s.pool.cachedBytes ≤ maxBytes
  noUnderflow : ∀ owned ∈ s.pool.idle, owned.2.capacity ≤ s.pool.cachedBytes
  few : s.pool.idle.length ≤ maxBuffers
  nodup : (s.pool.idle.map Prod.fst).Nodup
  apart : ∀ owned ∈ s.pool.idle, s.leased owned.1 = none
  enough : ∀ size fresh grown p buffer pool, s.pool.acquire size fresh grown = (some (p, buffer), pool) →
    max size 1 ≤ buffer.payload.length

theorem Inv.exact (h : s.Inv) : s.Exact where
  cached := h.cached
  bounded := h.cached ▸ h.bounded
  noUnderflow _ member := h.cached ▸ List.le_sum_of_mem (List.mem_map_of_mem member)
  few := h.few
  nodup := h.nodup
  apart := h.apart
  enough _ _ _ p buffer _ acquires := ((acquire_cases acquires).2 p buffer rfl).2

/-- Over all interleavings of leases, whatever capacities the buffers come back with. -/
theorem accounting_exact (leases : List Lease) (kept : Runs.Meets next Allowed init leases) :
    ∃ s, Runs.run next init leases = some s ∧ s.Exact := by
  obtain ⟨s, run, inv⟩ := Runs.run_total (fun _ c inv => inv.next c) inv_init kept
  exact ⟨s, run, inv.exact⟩

theorem accounting_exact_grown :
    ∃ s, Runs.run next init [.acquire 5 (some 1) (some 8), .change 1 ⟨"c", [], 100, by decide⟩, .release 1,
      .acquire 0 none none, .release 1] = some s ∧ s.pool.cachedBytes = 100 ∧
        s.pool.cachedBytes = Bytes s.pool.idle := by
  have kept : Runs.Meets next Allowed init [.acquire 5 (some 1) (some 8), .change 1 ⟨"c", [], 100, by decide⟩,
      .release 1, .acquire 0 none none, .release 1] := by
    refine (Runs.meets_cons rfl).mpr ⟨by rintro _ ⟨⟩; exact ⟨rfl, nofun⟩, ?_⟩
    refine (Runs.meets_cons rfl).mpr ⟨rfl, ?_⟩
    refine (Runs.meets_cons rfl).mpr ⟨rfl, ?_⟩
    refine (Runs.meets_cons rfl).mpr ⟨nofun, ?_⟩
    exact (Runs.meets_cons rfl).mpr ⟨rfl, trivial⟩
  obtain ⟨s, run, exact⟩ := accounting_exact _ kept
  refine ⟨s, run, ?_, exact.cached⟩
  cases run
  rfl

/-- A message that is in the queues. Its data is the payload of its buffer. -/
structure Msg where
  utime : Nat
  len : Nat
  buffer : Addr

namespace Msg

end Msg

end Leases

end Zcm.Util
