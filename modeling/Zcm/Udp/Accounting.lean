import Mathlib.Algebra.BigOperators.Group.List.Basic
import Mathlib.Data.List.Nodup
import Zcm.Udp.Assembled

namespace Zcm.Udp
open Zcm.Lib

namespace MessagePool

structure Accounts (p : MessagePool) : Prop where
  total : p.totalSize = (p.fragbufs.map (·.allocatedSize)).sum
  few : p.fragbufs.length ≤ p.maxBuffers
  bounded : p.totalSize ≤ p.maxSize ∨ p.fragbufs.length = 1
  distinct : (p.fragbufs.map FragBuf.key).Nodup
  waiting : ∀ f ∈ p.fragbufs, 1 ≤ f.fragmentsRemaining

variable {p q : MessagePool} {idx : Nat} {f g : FragBuf}

theorem Accounts.erase (h : p.Accounts) (there : p.fragbufs[idx]? = some f)
    (perm : q.fragbufs.Perm (p.fragbufs.eraseIdx idx)) (total : q.totalSize = p.totalSize - f.allocatedSize)
    (maxSize : q.maxSize = p.maxSize) (maxBuffers : q.maxBuffers = p.maxBuffers) : q.Accounts := by
  obtain ⟨lt, found⟩ := List.getElem?_eq_some_iff.mp there
  have whole := List.getElem_cons_eraseIdx_perm lt
  have sum := (whole.map (·.allocatedSize)).sum_eq
  rw [found, List.map_cons, List.sum_cons, ← h.total] at sum
  have rest : q.totalSize = (q.fragbufs.map (·.allocatedSize)).sum := by
    rw [(perm.map (·.allocatedSize)).sum_eq, total]
    omega
  have length : q.fragbufs.length = p.fragbufs.length - 1 := by
    rw [perm.length_eq, List.length_eraseIdx_of_lt lt]
  have few := h.few
  constructor
  case total => exact rest
  case few => omega
  case bounded =>
    rcases h.bounded with small | one
    · left
      omega
    · have none : q.fragbufs = [] := List.eq_nil_of_length_eq_zero (by omega)
      rw [none] at rest
      left
      rw [rest]
      simp
  case distinct =>
    refine (perm.map FragBuf.key).nodup_iff.mpr ?_
    exact ((List.eraseIdx_sublist _ _).map FragBuf.key).nodup h.distinct
  case waiting =>
    intro f member
    exact h.waiting f (List.mem_of_mem_eraseIdx (perm.mem_iff.mp member))

theorem removeFragBuf_eq (there : p.fragbufs[idx]? = some f) : p.removeFragBuf idx =
    { p with fragbufs := swapRemove p.fragbufs idx, totalSize := p.totalSize - f.allocatedSize } := by
  rw [removeFragBuf, there]

theorem Accounts.remove (h : p.Accounts) (idx : Nat) : (p.removeFragBuf idx).Accounts := by
  cases there : p.fragbufs[idx]? with
  | none =>
      rw [removeFragBuf, there]
      exact h
  | some f =>
      rw [removeFragBuf_eq there]
      exact h.erase there (swapRemove_perm (List.getElem?_eq_some_iff.mp there).1) rfl rfl rfl

theorem Accounts.complete (h : p.Accounts) (there : p.fragbufs[idx]? = some f)
    (size : g.allocatedSize = f.allocatedSize) :
    ({ p with fragbufs := p.fragbufs.set idx g }.removeFragBuf idx).Accounts := by
  have lt := (List.getElem?_eq_some_iff.mp there).1
  have perm := @swapRemove_perm _ (p.fragbufs.set idx g) idx (by simpa using lt)
  rw [List.eraseIdx_set_eq] at perm
  rw [removeFragBuf_eq (List.getElem?_set_self lt)]
  exact h.erase there perm (by simp only [size]) rfl rfl

theorem Accounts.set (h : p.Accounts) (there : p.fragbufs[idx]? = some f)
    (size : g.allocatedSize = f.allocatedSize) (key : g.key = f.key) (waiting : 1 ≤ g.fragmentsRemaining) :
    Accounts { p with fragbufs := p.fragbufs.set idx g } := by
  obtain ⟨lt, found⟩ := List.getElem?_eq_some_iff.mp there
  have same : ∀ {α : Type} (field : FragBuf → α), field g = field f →
      (p.fragbufs.set idx g).map field = p.fragbufs.map field := by
    intro α field equal
    have lt' : idx < (p.fragbufs.map field).length := by simpa using lt
    have there : field g = (p.fragbufs.map field)[idx] := by rw [List.getElem_map, found, equal]
    rw [List.map_set, there, List.set_getElem_self]
  constructor
  case total => rw [same _ size]; exact h.total
  case few => rw [List.length_set]; exact h.few
  case bounded => rw [List.length_set]; exact h.bounded
  case distinct => rw [same _ key]; exact h.distinct
  case waiting =>
    intro f' member
    rcases List.mem_or_eq_of_mem_set member with old | rfl
    · exact h.waiting f' old
    · exact waiting

theorem eldest_lt {fs : List FragBuf} (nonempty : fs ≠ []) : eldest fs < fs.length := by
  induction fs with
  | nil => exact absurd rfl nonempty
  | cons f fs ih =>
      rw [eldest]
      split
      · simp
      next g there =>
        have lt := (List.getElem?_eq_some_iff.mp there).1
        rw [List.length_cons]
        split
        · omega
        · omega

theorem Accounts.evict (h : p.Accounts) (size : Nat) {rounds : Nat} (enough : p.fragbufs.length ≤ rounds) :
    (evict size rounds p).Accounts ∧ (evict size rounds p).maxSize = p.maxSize ∧
      (evict size rounds p).maxBuffers = p.maxBuffers ∧
      ((evict size rounds p).fragbufs = [] ∨ (evict size rounds p).totalSize + size ≤ p.maxSize ∧
        (evict size rounds p).fragbufs.length < p.maxBuffers) := by
  induction rounds generalizing p with
  | zero =>
      have none : p.fragbufs = [] := List.eq_nil_of_length_eq_zero (by omega)
      exact ⟨h, rfl, rfl, .inl none⟩
  | succ rounds ih =>
      rw [MessagePool.evict]
      split
      next full =>
        have lt := eldest_lt full.1
        have there := List.getElem?_eq_getElem lt
        have removed := removeFragBuf_eq there
        have shorter : (p.removeFragBuf (eldest p.fragbufs)).fragbufs.length ≤ rounds := by
          rw [removed]
          simp only [(swapRemove_perm lt).length_eq, List.length_eraseIdx_of_lt lt]
          omega
        have step := ih (h.remove _) shorter
        rw [removed] at step ⊢
        exact step
      next room =>
        refine ⟨h, rfl, rfl, ?_⟩
        by_cases empty : p.fragbufs = []
        · exact .inl empty
        · right
          simp only [not_and, not_or] at room
          have := room empty
          omega

theorem Accounts.withNew (h : p.Accounts) {pkt : Packet} {a : Accepted} (checked : Checked pkt a)
    (unknown : p.lookupFragBuf pkt.fromAddr a.msgSeqno = none) (limit : 0 < p.maxBuffers) (now : Int)
    (left : Mem Byte) : (withNew p pkt a now left).Accounts := by
  obtain ⟨kept, maxSize, maxBuffers, room⟩ :=
    h.evict (allocatedSizeOf (payloadOffset a.dataSize + a.dataSize) a.fragmentsInMsg) (Nat.le_refl _)
  have newKey : (newFragBuf pkt a now left).key = (pkt.fromAddr, a.msgSeqno) := rfl
  have absent : ∀ f ∈ p.fragbufs, f.key ≠ (pkt.fromAddr, a.msgSeqno) := by
    intro f member same
    have none := List.findIdx?_eq_none_iff.mp unknown f member
    simp only [FragBuf.key, Prod.mk.injEq] at same
    simp [FragBuf.matches, same.1, same.2] at none
  have no_lt := checked.no_lt
  constructor
  case total =>
    simp only [Udp.withNew, List.map_append, List.sum_append, ← kept.total]
    simp [newFragBuf]
  case few =>
    simp only [Udp.withNew, List.length_append, List.length_singleton, maxBuffers]
    rcases room with none | ⟨-, few⟩
    · rw [none, List.length_nil]
      omega
    · omega
  case bounded =>
    simp only [Udp.withNew, List.length_append, List.length_singleton, maxSize]
    rcases room with none | ⟨fits, -⟩
    · exact .inr (by rw [none]; rfl)
    · exact .inl fits
  case distinct =>
    simp only [Udp.withNew]
    rw [List.map_append, List.nodup_append_comm, List.map_singleton, List.singleton_append, List.nodup_cons]
    refine ⟨fun inPool => ?_, kept.distinct⟩
    obtain ⟨f, member, key⟩ := List.mem_map.mp inPool
    exact absent f (mem_evict member) (key.trans newKey)
  case waiting =>
    intro f member
    rcases List.mem_append.mp member with old | new
    · exact kept.waiting f old
    · rw [List.mem_singleton.mp new]
      simp only [newFragBuf]
      omega

theorem removeFragBuf_maxBuffers (p : MessagePool) (idx : Nat) : (p.removeFragBuf idx).maxBuffers = p.maxBuffers := by
  rw [removeFragBuf]
  split <;> rfl

theorem Accounts.expire (h : p.Accounts) (now : Int) :
    (p.expireFragBufs now).Accounts ∧ (p.expireFragBufs now).maxBuffers = p.maxBuffers := by
  unfold expireFragBufs
  generalize p.fragbufs.length = rounds
  generalize 0 = i
  induction rounds generalizing p i with
  | zero => exact ⟨h, rfl⟩
  | succ rounds ih =>
      rw [expireFrom]
      split
      · exact ⟨h, rfl⟩
      · split
        · obtain ⟨kept, same⟩ := ih (h.remove i) i
          exact ⟨kept, same.trans (removeFragBuf_maxBuffers p i)⟩
        · exact ih h (i + 1)

end MessagePool

def UDP.Accounts (udp : UDP) : Prop := udp.pool.Accounts ∧ 0 < udp.pool.maxBuffers

theorem FragBuf.deposit_eq_stored {f g : FragBuf} {pkt : Packet} {a : Accepted} {now : Int}
    (found : f.deposit pkt a now = .stored g) : f.store pkt a now = g := by
  unfold FragBuf.deposit at found
  split at found
  · cases found
  · split at found
    · split at found <;> cases found
    · split at found
      · exact Deposit.stored.inj found
      · cases found

theorem depositAt_accounts {udp : UDP} (h : udp.Accounts) {idx : Nat} {f : FragBuf}
    (there : udp.pool.fragbufs[idx]? = some f) (pkt : Packet) (a : Accepted) (now : Int) :
    (depositAt udp idx f pkt a now).2.Accounts := by
  obtain ⟨accounts, limit⟩ := h
  have limit' : 0 < (udp.pool.removeFragBuf idx).maxBuffers := by
    rw [MessagePool.removeFragBuf_maxBuffers]
    exact limit
  unfold depositAt
  cases found : f.deposit pkt a now with
  | duplicate => exact ⟨accounts, limit⟩
  | conflict => exact ⟨accounts.remove idx, limit'⟩
  | stored g =>
      obtain rfl := FragBuf.deposit_eq_stored found
      have key : (f.store pkt a now).key = f.key := rfl
      simp only
      split
      next waiting => exact ⟨accounts.set there rfl key waiting, limit⟩
      · refine ⟨accounts.complete there rfl, ?_⟩
        simp only [MessagePool.removeFragBuf_maxBuffers]
        exact limit

theorem recvFragment_accounts {udp : UDP} (h : udp.Accounts) (pkt : Packet) (now : Int) (left : Mem Byte) :
    (recvFragment udp pkt now left).2.Accounts := by
  obtain ⟨accounts, limit⟩ := h
  have way := recvFragment_cases udp pkt now left
  generalize recvFragment udp pkt now left = r at way ⊢
  cases way with
  | bad => exact ⟨accounts, limit⟩
  | mismatch a idx =>
      refine ⟨accounts.remove idx, ?_⟩
      simp only [UDP.discard, MessagePool.removeFragBuf_maxBuffers]
      exact limit
  | known a idx _ _ f there => exact depositAt_accounts ⟨accounts, limit⟩ there pkt a now
  | fresh a _ unknown fits =>
      have same := (accounts.evict
        (MessagePool.allocatedSizeOf (payloadOffset a.dataSize + a.dataSize) a.fragmentsInMsg)
        (Nat.le_refl _)).2.2.1
      refine depositAt_accounts ⟨accounts.withNew fits.checked unknown limit now left, ?_⟩
        (by simp [withNew]) pkt a now
      simp only [withNew, same]
      exact limit

theorem after_accounts {udp : UDP} (h : udp.Accounts) (es : List Event) : (udp.after es).Accounts := by
  induction es generalizing udp with
  | nil => exact h
  | cons e es ih =>
      refine ih ?_
      cases e with
      | packet pkt now left => exact recvFragment_accounts h pkt now left
      | expire now =>
          obtain ⟨kept, same⟩ := h.1.expire now
          exact ⟨kept, by simp only [UDP.step, same]; exact h.2⟩

theorem new_accounts : UDP.new.Accounts :=
  ⟨⟨rfl, by decide, .inl (by decide), List.nodup_nil, fun f member => by cases member⟩, by decide⟩

/-- In every state that packets and expiry calls lead to, the pool's accounts are right, and each buffer
counts the fragments it waits for. -/
theorem pool_accounts (es : List Event) :
    (UDP.new.after es).pool.Accounts ∧ ∀ f ∈ (UDP.new.after es).pool.fragbufs,
      f.fragmentsRemaining = f.fragments.countP (!·.received) := by
  refine ⟨(after_accounts new_accounts es).1, fun f member => ?_⟩
  obtain ⟨-, parts, holds⟩ := after_sound new_sound es f member
  exact holds.remaining

end Zcm.Udp
