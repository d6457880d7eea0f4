import Zcm.Udp.Accounting

namespace Zcm.Udp
open Zcm.Lib

def MessagePool.others (p : MessagePool) (key : SockAddr × Nat) : List FragBuf := p.fragbufs.filter (·.key ≠ key)

def MessagePool.Exceeds (p : MessagePool) (size : Nat) (before : List FragBuf) : Prop :=
  p.totalSize - (before.map (·.allocatedSize)).sum + size > p.maxSize ∨
    p.fragbufs.length - before.length + 1 > p.maxBuffers

structure Eviction (p : MessagePool) (size : Nat) (evicted kept : List FragBuf) : Prop where
  parts : p.fragbufs.Perm (evicted ++ kept)
  inOrder : evicted.Pairwise fun f g => f.lastPacketUtime ≤ g.lastPacketUtime
  eldest : ∀ f ∈ evicted, ∀ g ∈ kept, f.lastPacketUtime ≤ g.lastPacketUtime
  needed : ∀ before f after, evicted = before ++ f :: after → p.Exceeds size before
  enough : kept = [] ∨ ¬ p.Exceeds size evicted

def InOwnMemory (key : SockAddr × Nat) (left : Mem Byte) (p p' : MessagePool) : Prop :=
  ∀ f' ∈ p'.fragbufs, f'.key = key → ∃ before : Mem Byte,
    (before = left ∨ ∃ f ∈ p.fragbufs, f.key = key ∧ f.dataSize = f'.dataSize ∧ f.buf = before) ∧
      ∀ x, payloadOffset f'.dataSize + f'.dataSize ≤ x → f'.buf x = before x

structure Isolated (key : SockAddr × Nat) (size : Nat) (left : Mem Byte) (p p' : MessagePool) : Prop where
  known : (∃ f ∈ p.fragbufs, f.key = key) → (p'.others key).Perm (p.others key)
  unknown : (∀ f ∈ p.fragbufs, f.key ≠ key) →
    ∃ evicted kept, Eviction p size evicted kept ∧ (p'.others key).Perm kept
  own : InOwnMemory key left p p'

namespace MessagePool

variable {p : MessagePool} {idx : Nat} {f g : FragBuf} {key : SockAddr × Nat}

theorem others_of_perm {q : MessagePool} (perm : (f :: q.fragbufs).Perm p.fragbufs) (own : f.key = key) :
    (q.others key).Perm (p.others key) := by
  have kept := perm.filter fun f => decide (f.key ≠ key)
  rwa [List.filter_cons_of_neg (by simp [own])] at kept

theorem others_removeFragBuf (there : p.fragbufs[idx]? = some f) (own : f.key = key) :
    ((p.removeFragBuf idx).others key).Perm (p.others key) := by
  obtain ⟨lt, found⟩ := List.getElem?_eq_some_iff.mp there
  have whole := List.getElem_cons_eraseIdx_perm lt
  rw [found] at whole
  rw [removeFragBuf_eq there]
  exact others_of_perm (((swapRemove_perm lt).cons f).trans whole) own

theorem others_set (there : p.fragbufs[idx]? = some f) (own : f.key = key) (own' : g.key = key) :
    (others { p with fragbufs := p.fragbufs.set idx g } key).Perm (p.others key) := by
  obtain ⟨lt, found⟩ := List.getElem?_eq_some_iff.mp there
  have before := (List.getElem_cons_eraseIdx_perm lt).filter fun f => decide (f.key ≠ key)
  have after := (List.set_perm_cons_eraseIdx lt g).filter fun f => decide (f.key ≠ key)
  rw [found, List.filter_cons_of_neg (by simp [own])] at before
  rw [List.filter_cons_of_neg (by simp [own'])] at after
  exact after.trans before

theorem eldest_le {fs : List FragBuf} (there : fs[eldest fs]? = some f) :
    ∀ g ∈ fs, f.lastPacketUtime ≤ g.lastPacketUtime := by
  induction fs generalizing f with
  | nil => exact nofun
  | cons first fs ih =>
      refine List.forall_mem_cons.mpr ?_
      rw [eldest] at there
      cases rest : fs[eldest fs]? with
      | none =>
          have empty : fs = [] := by
            by_contra nonempty
            rw [List.getElem?_eq_getElem (eldest_lt nonempty)] at rest
            cases rest
          rw [rest] at there
          cases there
          exact ⟨Int.le_refl _, empty ▸ nofun⟩
      | some g =>
          have least := ih rest
          simp only [rest] at there
          by_cases earlier : g.lastPacketUtime < first.lastPacketUtime
          · rw [if_pos earlier, List.getElem?_cons_succ, rest] at there
            cases there
            exact ⟨Int.le_of_lt earlier, least⟩
          · rw [if_neg earlier] at there
            cases there
            exact ⟨Int.le_refl _, fun h member => Int.le_trans (Int.not_lt.mp earlier) (least h member)⟩

theorem Exceeds.of_removed {q : MessagePool} {size : Nat} {before : List FragBuf}
    (perm : p.fragbufs.Perm (f :: q.fragbufs)) (total : q.totalSize = p.totalSize - f.allocatedSize)
    (maxSize : q.maxSize = p.maxSize) (maxBuffers : q.maxBuffers = p.maxBuffers) :
    q.Exceeds size before ↔ p.Exceeds size (f :: before) := by
  have length := perm.length_eq
  simp only [Exceeds, total, maxSize, maxBuffers, List.map_cons, List.sum_cons, List.length_cons, length, Nat.sub_sub,
    Nat.add_sub_add_right]

theorem exceeds_nil_iff (size : Nat) : p.Exceeds size [] ↔
    p.totalSize + size > p.maxSize ∨ p.fragbufs.length ≥ p.maxBuffers := by
  simp only [Exceeds, List.map_nil, List.sum_nil, List.length_nil, Nat.sub_zero]
  omega

theorem evict_eviction (size : Nat) {rounds : Nat} (enough : p.fragbufs.length ≤ rounds) :
    ∃ evicted, Eviction p size evicted (evict size rounds p).fragbufs := by
  induction rounds generalizing p with
  | zero =>
      have none : p.fragbufs = [] := List.eq_nil_of_length_eq_zero (by omega)
      refine ⟨[], .refl _, .nil, List.forall_mem_nil _, fun before f after split => ?_, .inl none⟩
      simp at split
  | succ rounds ih =>
      rw [evict]
      split
      next full =>
        have lt := eldest_lt full.1
        have there := List.getElem?_eq_getElem lt
        have removed := removeFragBuf_eq there
        have perm := swapRemove_perm lt
        have whole := List.getElem_cons_eraseIdx_perm lt
        generalize p.fragbufs[eldest p.fragbufs] = f at there removed whole
        have parts : p.fragbufs.Perm (f :: (p.removeFragBuf (eldest p.fragbufs)).fragbufs) := by
          rw [removed]
          exact whole.symm.trans (perm.symm.cons f)
        have length := parts.length_eq
        rw [List.length_cons] at length
        obtain ⟨evicted, rest⟩ := ih (p := p.removeFragBuf (eldest p.fragbufs)) (by omega)
        have exceeds before :=
          @Exceeds.of_removed p f _ size before parts (by rw [removed]) (by rw [removed]) (by rw [removed])
        have least : ∀ g ∈ (p.removeFragBuf (eldest p.fragbufs)).fragbufs,
            f.lastPacketUtime ≤ g.lastPacketUtime :=
          fun g member => eldest_le there g (mem_removeFragBuf member)
        have later : ∀ g,
            g ∈ evicted ∨ g ∈ (evict size rounds (p.removeFragBuf (eldest p.fragbufs))).fragbufs →
            f.lastPacketUtime ≤ g.lastPacketUtime := fun g either =>
          least g (rest.parts.mem_iff.mpr (List.mem_append.mpr either))
        refine ⟨f :: evicted, ?_, ?_, ?_, ?_, ?_⟩
        · exact parts.trans (rest.parts.cons f)
        · exact List.pairwise_cons.mpr ⟨fun g member => later g (.inl member), rest.inOrder⟩
        · exact List.forall_mem_cons.mpr ⟨fun g member => later g (.inr member), rest.eldest⟩
        · intro before g after split
          cases before with
          | nil => exact (exceeds_nil_iff size).mpr full.2
          | cons first before =>
              obtain ⟨rfl, tails⟩ := List.cons.inj split
              exact (exceeds before).mp (rest.needed before g after tails)
        · exact rest.enough.imp_right fun room exceeded => room ((exceeds evicted).mpr exceeded)
      next room =>
        refine ⟨[], ⟨.refl _, .nil, List.forall_mem_nil _, fun before f after split => by simp at split, ?_⟩⟩
        by_cases empty : p.fragbufs = []
        · exact .inl empty
        · exact .inr fun exceeded => room ⟨empty, (exceeds_nil_iff size).mp exceeded⟩

end MessagePool

section Deposit

variable {udp : UDP} {idx : Nat} {f : FragBuf} {pkt : Packet} {a : Accepted} {now : Int} {key : SockAddr × Nat}

theorem depositAt_pool (udp : UDP) (idx : Nat) (f : FragBuf) (pkt : Packet) (a : Accepted) (now : Int) :
    let stored : MessagePool := { udp.pool with fragbufs := udp.pool.fragbufs.set idx (f.store pkt a now) }
    (depositAt udp idx f pkt a now).2.pool ∈
      [udp.pool, udp.pool.removeFragBuf idx, stored, stored.removeFragBuf idx] := by
  unfold depositAt
  cases found : f.deposit pkt a now with
  | duplicate => simp
  | conflict => simp [UDP.discard]
  | stored g =>
      obtain rfl := FragBuf.deposit_eq_stored found
      simp only
      split <;> simp

theorem depositAt_others (there : udp.pool.fragbufs[idx]? = some f) (own : f.key = key) :
    ((depositAt udp idx f pkt a now).2.pool.others key).Perm (udp.pool.others key) := by
  have pool := depositAt_pool udp idx f pkt a now
  simp only [List.mem_cons, List.not_mem_nil, or_false] at pool
  have stored := @MessagePool.others_set udp.pool idx f (f.store pkt a now) key there own own
  rcases pool with same | removed | same | removed
  · rw [same]
  · rw [removed]
    exact MessagePool.others_removeFragBuf there own
  · rw [same]
    exact stored
  · rw [removed]
    have here := List.getElem?_set_self (List.getElem?_eq_some_iff.mp there).1 (a := f.store pkt a now)
    have own' : (f.store pkt a now).key = key := own
    exact (MessagePool.others_removeFragBuf here own').trans stored

theorem depositAt_mem {f' : FragBuf} (member : f' ∈ (depositAt udp idx f pkt a now).2.pool.fragbufs) :
    f' ∈ udp.pool.fragbufs ∨ f' = f.store pkt a now := by
  have pool := depositAt_pool udp idx f pkt a now
  simp only [List.mem_cons, List.not_mem_nil, or_false] at pool
  rcases pool with same | same | same | same <;> rw [same] at member
  · exact .inl member
  · exact .inl (MessagePool.mem_removeFragBuf member)
  · exact List.mem_or_eq_of_mem_set member
  · exact List.mem_or_eq_of_mem_set (MessagePool.mem_removeFragBuf member)

theorem store_buf_behind (fits : Fits f pkt a) {x : Nat} (behind : payloadOffset f.dataSize + f.dataSize ≤ x) :
    (f.store pkt a now).buf x = f.buf x := by
  have within := fits.checked.within
  rw [← fits.dataSize] at behind
  obtain ⟨y, rfl⟩ := Nat.exists_eq_add_of_le (Nat.le_trans (Nat.le_add_right _ _) behind)
  exact store_buf_outside now fits.checked (.inr (by omega))

end Deposit

section Cases

variable {udp : UDP} {idx : Nat} {f : FragBuf} {pkt : Packet} {a : Accepted} {now : Int} {left : Mem Byte} {size : Nat}

theorem isolated_mismatch (there : udp.pool.fragbufs[idx]? = some f) {key : SockAddr × Nat} (own : f.key = key) :
    Isolated key size left udp.pool (udp.pool.removeFragBuf idx) where
  known _ := MessagePool.others_removeFragBuf there own
  unknown none := absurd own (none f (List.mem_of_getElem? there))
  own f' member isKey :=
    ⟨f'.buf, .inr ⟨f', MessagePool.mem_removeFragBuf member, isKey, rfl, rfl⟩, fun _ _ => rfl⟩

theorem isolated_known (there : udp.pool.fragbufs[idx]? = some f) (fits : Fits f pkt a) {key : SockAddr × Nat}
    (own : f.key = key) : Isolated key size left udp.pool (depositAt udp idx f pkt a now).2.pool where
  known _ := depositAt_others there own
  unknown none := absurd own (none f (List.mem_of_getElem? there))
  own f' member isKey := by
    rcases depositAt_mem member with old | rfl
    · exact ⟨f'.buf, .inr ⟨f', old, isKey, rfl, rfl⟩, fun _ _ => rfl⟩
    · exact ⟨f.buf, .inr ⟨f, List.mem_of_getElem? there, own, rfl, rfl⟩,
        fun x behind => store_buf_behind fits behind⟩

theorem isolated_fresh (unknown : udp.pool.lookupFragBuf pkt.fromAddr a.msgSeqno = none)
    (fits : Fits (newFragBuf pkt a now left) pkt a) :
    Isolated (pkt.fromAddr, a.msgSeqno)
      (MessagePool.allocatedSizeOf (payloadOffset a.dataSize + a.dataSize) a.fragmentsInMsg)
      left udp.pool
      (depositAt { udp with pool := withNew udp.pool pkt a now left }
        ((withNew udp.pool pkt a now left).fragbufs.length - 1) (newFragBuf pkt a now left) pkt a now).2.pool where
  known := fun ⟨f, member, isKey⟩ => absurd isKey (lookupFragBuf_none unknown f member)
  unknown none := by
    obtain ⟨evicted, eviction⟩ := @MessagePool.evict_eviction udp.pool
      (MessagePool.allocatedSizeOf (payloadOffset a.dataSize + a.dataSize) a.fragmentsInMsg) _ (Nat.le_refl _)
    refine ⟨evicted, _, eviction, (depositAt_others ?_ rfl).trans ?_⟩
    · simp [withNew]
    · simp only [MessagePool.others, withNew, List.filter_append]
      rw [List.filter_cons_of_neg (by simp [newFragBuf, FragBuf.key]), List.filter_nil, List.append_nil]
      refine .of_eq (List.filter_eq_self.mpr fun f member => ?_)
      exact decide_eq_true (none f (MessagePool.mem_evict member))
  own f' member isKey := by
    rcases depositAt_mem member with inPool | rfl
    · simp only [withNew, List.mem_append, List.mem_singleton] at inPool
      rcases inPool with old | rfl
      · exact absurd isKey (lookupFragBuf_none unknown f' (MessagePool.mem_evict old))
      · exact ⟨left, .inl rfl, fun _ _ => rfl⟩
    · exact ⟨left, .inl rfl, fun x behind => store_buf_behind fits behind⟩

end Cases

/-- A fragment that is not accepted changes nothing in the pool, and another one is isolated. -/
theorem recvFragment_isolates (udp : UDP) (pkt : Packet) (now : Int) (left : Mem Byte) :
    (checkPacket pkt = none → (recvFragment udp pkt now left).2.pool = udp.pool) ∧
      ∀ a, checkPacket pkt = some a → Isolated (pkt.fromAddr, a.msgSeqno)
        (MessagePool.allocatedSizeOf (payloadOffset a.dataSize + a.dataSize) a.fragmentsInMsg) left
        udp.pool (recvFragment udp pkt now left).2.pool := by
  have way := recvFragment_cases udp pkt now left
  generalize recvFragment udp pkt now left = r at way ⊢
  have only {a a' : Accepted} (checked : checkPacket pkt = some a) (checked' : checkPacket pkt = some a') : a = a' :=
    Option.some.inj (checked.symm.trans checked')
  cases way with
  | bad rejected =>
      refine ⟨fun _ => rfl, fun a checked => ?_⟩
      rw [rejected] at checked
      cases checked
  | mismatch a idx checked found f there =>
      refine ⟨fun rejected => by simp [checked] at rejected, fun a' checked' => ?_⟩
      obtain rfl := only checked checked'
      obtain ⟨f', there', fromAddr, msgSeqno⟩ := lookupFragBuf_some found
      exact isolated_mismatch there' (Prod.ext fromAddr msgSeqno)
  | known a idx checked found f there fits =>
      refine ⟨fun rejected => by simp [checked] at rejected, fun a' checked' => ?_⟩
      obtain rfl := only checked checked'
      exact isolated_known there fits (Prod.ext fits.fromAddr.symm fits.msgSeqno.symm)
  | fresh a checked unknown fits =>
      refine ⟨fun rejected => by simp [checked] at rejected, fun a' checked' => ?_⟩
      obtain rfl := only checked checked'
      exact isolated_fresh unknown fits

end Zcm.Udp
