import Zcm.Udp.Buffers
import Zcm.Udp.MemPool

namespace Zcm.Udp
open Zcm.Lib

structure Buffer where
  data : Option Addr
  size : Nat

namespace Buffer

def empty : Buffer := ⟨none, 0⟩

/-- The assignment of a buffer that is given up, with what is left of both. It asserts that nothing gets lost. -/
def assign (this other : Buffer) : Option (Buffer × Buffer) :=
  if this.data.isSome then none else some (other, ⟨none, other.size⟩)

end Buffer

inductive Kind
  | packet | message | fragBuf
deriving DecidableEq

def Kind.sizeof : Kind → Nat
  | packet => 56
  | message => 56
  | fragBuf => sizeofFragBuf

theorem Kind.two_le_sizeof (kind : Kind) : 2 ≤ kind.sizeof ∧ kind.sizeof ≤ maxAlloc := by
  cases kind <;> decide

structure Objects where
  inUse : InUse
  objects : Addr → Option (Kind × Buffer)

def allocBuffer (s : InUse) (sz : Nat) (fresh : Option Addr) : Option (Buffer × InUse) := do
  let (mem, s) ← s.alloc sz fresh
  some (⟨mem, sz⟩, s)

def freeBuffer (s : InUse) (buf : Buffer) : Option (Buffer × InUse) :=
  match buf.data with
  | none => some (buf, s)
  | some mem => do
      let s ← s.free mem buf.size
      some (⟨none, buf.size⟩, s)

namespace Objects

def init (next : Addr → Option Addr) : Objects := ⟨.init next, fun _ => none⟩

def set (s : Objects) (p : Addr) (object : Option (Kind × Buffer)) : Objects :=
  { s with objects := Function.update s.objects p object }

def allocObject (kind : Kind) (bufSize : Option Nat) (place : Addr) (fresh : Option Addr) (s : Objects) :
    Option Objects := do
  let (mem, inUse) ← s.inUse.alloc kind.sizeof (some place)
  let p ← mem
  match bufSize with
  | none => some (set { s with inUse := inUse } p (some (kind, .empty)))
  | some sz => do
      let (buf, inUse) ← allocBuffer inUse sz fresh
      let (buf, _) ← Buffer.empty.assign buf
      some (set { s with inUse := inUse } p (some (kind, buf)))

def allocPacket (maxsz : Nat) : Addr → Option Addr → Objects → Option Objects := allocObject .packet (some maxsz)

def maxUnfragmented : Nat := 65536

def allocMessage : Addr → Option Addr → Objects → Option Objects := allocObject .message (some maxUnfragmented)

def allocMessageEmpty (place : Addr) : Objects → Option Objects := allocObject .message none place none

/-- The part of `addFragBuf` that follows the removal of other fragment buffers. -/
def addFragBuf (dataSize : Nat) : Addr → Option Addr → Objects → Option Objects :=
  allocObject .fragBuf (some dataSize)

def freeObject (kind : Kind) (p : Addr) (s : Objects) : Option Objects := do
  let (k, buf) ← s.objects p
  if k ≠ kind then none
  else do
    let (_, inUse) ← freeBuffer s.inUse buf
    let inUse ← inUse.free p kind.sizeof
    some (set { s with inUse := inUse } p none)

def freePacket : Addr → Objects → Option Objects := freeObject .packet

def freeMessage : Addr → Objects → Option Objects := freeObject .message

def removeFragBuf : Addr → Objects → Option Objects := freeObject .fragBuf

def moveBuffer (dst src : Addr) (s : Objects) : Option Objects := do
  let (k, buf) ← s.objects dst
  let (buf, inUse) ← freeBuffer s.inUse buf
  let s := set { s with inUse := inUse } dst (some (k, buf))
  let (k', given) ← s.objects src
  some ((s.set dst (some (k, given))).set src (some (k', ⟨none, given.size⟩)))

def transferBuffer (dst src : Addr) (s : Objects) : Option Objects := do
  let (k, buf) ← s.objects dst
  let (buf, inUse) ← freeBuffer s.inUse buf
  let (k', given) ← s.objects src
  let (buf, left) ← buf.assign given
  some (((set { s with inUse := inUse } dst (some (k, buf)))).set src (some (k', left)))

end Objects

inductive ObjectCall
  | allocPacket (maxsz : Nat) (place : Addr) (fresh : Option Addr)
  | allocMessage (place : Addr) (fresh : Option Addr)
  | allocMessageEmpty (place : Addr)
  | addFragBuf (dataSize : Nat) (place : Addr) (fresh : Option Addr)
  | freePacket (p : Addr)
  | freeMessage (p : Addr)
  | removeFragBuf (p : Addr)
  | moveBuffer (dst src : Addr)
  | transferBuffer (dst src : Addr)
  | store (mem : Addr) (word : Option Addr)

namespace Objects

def next (s : Objects) : ObjectCall → Option Objects
  | .allocPacket maxsz place fresh => s.allocPacket maxsz place fresh
  | .allocMessage place fresh => s.allocMessage place fresh
  | .allocMessageEmpty place => s.allocMessageEmpty place
  | .addFragBuf dataSize place fresh => s.addFragBuf dataSize place fresh
  | .freePacket p => s.freePacket p
  | .freeMessage p => s.freeMessage p
  | .removeFragBuf p => s.removeFragBuf p
  | .moveBuffer dst src => s.moveBuffer dst src
  | .transferBuffer dst src => s.transferBuffer dst src
  | .store mem word => some { s with inUse := s.inUse.store mem word }

def New (s : Objects) (place : Addr) (fresh : Option Addr) : Prop :=
  s.inUse.heap.blocks place = none ∧ ∀ a, fresh = some a → a ≠ place ∧ s.inUse.heap.blocks a = none

def Is (s : Objects) (kind : Kind) (p : Addr) : Prop := ∃ buf, s.objects p = some (kind, buf)

/-- The calls name objects that there are, and the sizes are in the range of the pool. -/
def Allowed (s : Objects) : ObjectCall → Prop
  | .allocPacket sz place fresh | .addFragBuf sz place fresh => (2 ≤ sz ∧ sz ≤ maxAlloc) ∧ s.New place fresh
  | .allocMessage place fresh => s.New place fresh
  | .allocMessageEmpty place => s.New place none
  | .freePacket p => s.Is .packet p
  | .freeMessage p => s.Is .message p
  | .removeFragBuf p => s.Is .fragBuf p
  | .moveBuffer dst src => (s.objects dst).isSome ∧ (s.objects src).isSome
  | .transferBuffer dst src => s.Is .message dst ∧ s.Is .fragBuf src
  | .store mem _ => (s.inUse.out mem).isSome

def Owns (s : Objects) (p a : Addr) (size : Nat) : Prop :=
  ∃ k buf, s.objects p = some (k, buf) ∧ (a = p ∧ size = k.sizeof ∨ buf.data = some a ∧ size = buf.size)

/-- The blocks that are handed out have one owner each, who would free them with the size that they were asked for
with. -/
structure Owned (s : Objects) : Prop where
  out : ∀ a size, s.inUse.out a = some size ↔ ∃ p, s.Owns p a size
  unique : ∀ p p' a size size', s.Owns p a size → s.Owns p' a size' → p = p'
  apart : ∀ p k buf, s.objects p = some (k, buf) → buf.data ≠ some p

structure Inv (s : Objects) : Prop where
  pool : s.inUse.Inv
  sizes : ∀ a size, s.inUse.out a = some size → 2 ≤ size ∧ size ≤ maxAlloc
  owned : s.Owned

theorem inv_init (next : Addr → Option Addr) : (init next).Inv where
  pool := InUse.inv_init next
  sizes _ _ isOut := by cases isOut
  owned := by
    refine ⟨fun a size => ⟨nofun, ?_⟩, ?_, nofun⟩
    · rintro ⟨p, k, buf, there, -⟩
      cases there
    · rintro p p' a size size' ⟨k, buf, there, -⟩
      cases there

variable {s t : Objects} {p q a : Addr} {k : Kind} {buf : Buffer} {size : Nat}

theorem owns_iff (there : s.objects p = some (k, buf)) :
    s.Owns p a size ↔ a = p ∧ size = k.sizeof ∨ buf.data = some a ∧ size = buf.size := by
  constructor
  · rintro ⟨k', buf', there', holds⟩
    rw [there] at there'
    cases there'
    exact holds
  · exact fun holds => ⟨k, buf, there, holds⟩

theorem objects_set (s : Objects) (p : Addr) (object : Option (Kind × Buffer)) :
    (s.set p object).objects p = object := Function.update_self ..

theorem objects_set_of_ne (s : Objects) (object : Option (Kind × Buffer)) (other : q ≠ p) :
    (s.set p object).objects q = s.objects q := Function.update_of_ne other ..

theorem owns_set_of_ne (object : Option (Kind × Buffer)) (other : q ≠ p) :
    (s.set p object).Owns q a size ↔ s.Owns q a size := by
  simp only [Owns, objects_set_of_ne s object other]

theorem apart_set (h : s.Owned) {inUse : InUse} {object : Option (Kind × Buffer)}
    (apart : ∀ k buf, object = some (k, buf) → buf.data ≠ some p) (q : Addr) (k : Kind) (buf : Buffer)
    (there : (set { s with inUse := inUse } p object).objects q = some (k, buf)) : buf.data ≠ some q := by
  by_cases same : q = p
  · subst same
    rw [objects_set] at there
    exact apart k buf there
  · rw [objects_set_of_ne _ _ same] at there
    exact h.apart q k buf there

theorem Inv.add (h : s.Inv) {fresh : Option Addr} {inUse : InUse} {object : Option (Kind × Buffer)}
    (bounds : 2 ≤ size ∧ size ≤ maxAlloc) (after : InUse.Allocated s.inUse size fresh (some a) inUse)
    (owns : ∀ b n, (set { s with inUse := inUse } p object).Owns p b n ↔ s.Owns p b n ∨ b = a ∧ n = size)
    (apart : ∀ k buf, object = some (k, buf) → buf.data ≠ some p) :
    (set { s with inUse := inUse } p object).Inv := by
  have notOut := after.notOut a rfl
  have out : (set { s with inUse := inUse } p object).inUse.out = Function.update s.inUse.out a (some size) := after.out
  have nobody (q : Addr) (n : Nat) : ¬ s.Owns q a n := by
    intro owned
    rw [(h.owned.out a n).mpr ⟨q, owned⟩] at notOut
    cases notOut
  have ownsAll (q b : Addr) (n : Nat) : (set { s with inUse := inUse } p object).Owns q b n ↔
      s.Owns q b n ∨ q = p ∧ b = a ∧ n = size := by
    by_cases same : q = p
    · subst same
      simpa using owns b n
    · rw [owns_set_of_ne object same]
      exact ⟨Or.inl, fun owned => owned.resolve_right fun here => same here.1⟩
  refine ⟨after.inv, fun b n isOut => ?_, fun b n => ?_, fun q q' b n n' => ?_, apart_set h.owned apart⟩
  · rw [out] at isOut
    by_cases same : b = a
    · subst same
      rw [Function.update_self, Option.some.injEq] at isOut
      exact isOut ▸ bounds
    · rw [Function.update_of_ne same] at isOut
      exact h.sizes b n isOut
  · rw [out]
    by_cases same : b = a
    · subst same
      rw [Function.update_self]
      constructor
      · rintro ⟨⟩
        exact ⟨p, (ownsAll ..).mpr (.inr ⟨rfl, rfl, rfl⟩)⟩
      · rintro ⟨q, owned⟩
        obtain owned | ⟨-, -, rfl⟩ := (ownsAll ..).mp owned
        · exact absurd owned (nobody q n)
        · rfl
    · simp only [Function.update_of_ne same, h.owned.out, ownsAll, same, false_and, and_false, or_false]
  · rw [ownsAll, ownsAll]
    rintro (one | ⟨here, new, -⟩) (two | ⟨here', new', -⟩)
    · exact h.owned.unique q q' b n n' one two
    · exact absurd (new' ▸ one) (nobody q n)
    · exact absurd (new ▸ two) (nobody q' n')
    · exact here.trans here'.symm

theorem Inv.remove (h : s.Inv) {inUse : InUse} {object : Option (Kind × Buffer)} (was : s.Owns p a size)
    (inv : inUse.Inv) (out : inUse.out = Function.update s.inUse.out a none)
    (owns : ∀ b n, (set { s with inUse := inUse } p object).Owns p b n ↔ s.Owns p b n ∧ b ≠ a)
    (apart : ∀ k buf, object = some (k, buf) → buf.data ≠ some p) :
    (set { s with inUse := inUse } p object).Inv := by
  have ownsAll (q b : Addr) (n : Nat) : (set { s with inUse := inUse } p object).Owns q b n ↔
      s.Owns q b n ∧ b ≠ a := by
    by_cases same : q = p
    · subst same
      exact owns b n
    · rw [owns_set_of_ne object same]
      refine ⟨fun owned => ⟨owned, ?_⟩, And.left⟩
      rintro rfl
      exact same (h.owned.unique q p b n size owned was)
  have out : (set { s with inUse := inUse } p object).inUse.out = Function.update s.inUse.out a none := out
  have outIff (b : Addr) (n : Nat) : (set { s with inUse := inUse } p object).inUse.out b = some n ↔
      s.inUse.out b = some n ∧ b ≠ a := by
    rw [out]
    by_cases same : b = a
    · simp [same]
    · simp [same]
  refine ⟨inv, fun b n isOut => ?_, fun b n => ?_, fun q q' b n n' => ?_, apart_set h.owned apart⟩
  · exact h.sizes b n ((outIff b n).mp isOut).1
  · simp only [outIff, h.owned.out, ownsAll, exists_and_right]
  · rw [ownsAll, ownsAll]
    exact fun one two => h.owned.unique q q' b n n' one.1 two.1

theorem Inv.move (h : s.Inv) (inv : t.inUse.Inv) (out : t.inUse.out = s.inUse.out) (owner : Addr → Addr → Addr)
    (owns : ∀ q b n, t.Owns q b n ↔ ∃ q', s.Owns q' b n ∧ q = owner q' b)
    (apart : ∀ p k buf, t.objects p = some (k, buf) → buf.data ≠ some p) : t.Inv := by
  refine ⟨inv, fun b n isOut => h.sizes b n (out ▸ isOut), fun b n => ?_, fun q q' b n n' => ?_, apart⟩
  · rw [out, h.owned.out]
    constructor
    · rintro ⟨q, owned⟩
      exact ⟨_, (owns ..).mpr ⟨q, owned, rfl⟩⟩
    · rintro ⟨q, owned⟩
      obtain ⟨q', owned, -⟩ := (owns ..).mp owned
      exact ⟨q', owned⟩
  · rw [owns, owns]
    rintro ⟨_, one, rfl⟩ ⟨_, two, rfl⟩
    rw [h.owned.unique _ _ b n n' one two]

theorem Inv.keep (h : s.Inv) {inUse : InUse} {object : Option (Kind × Buffer)} (inv : inUse.Inv)
    (out : inUse.out = s.inUse.out)
    (owns : ∀ b n, (set { s with inUse := inUse } p object).Owns p b n ↔ s.Owns p b n)
    (apart : ∀ k buf, object = some (k, buf) → buf.data ≠ some p) :
    (set { s with inUse := inUse } p object).Inv := by
  refine h.move inv out (fun q _ => q) (fun q b n => ?_) (apart_set h.owned apart)
  rw [exists_eq_right']
  by_cases same : q = p
  · subst same
    exact owns b n
  · exact owns_set_of_ne object same

theorem Inv.none_of_notOut (h : s.Inv) (notOut : s.inUse.out p = none) : s.objects p = none := by
  cases there : s.objects p with
  | none => rfl
  | some object =>
      obtain ⟨k, buf⟩ := object
      have isOut := (h.owned.out p k.sizeof).mpr ⟨p, (owns_iff there).mpr (.inl ⟨rfl, rfl⟩)⟩
      rw [notOut] at isOut
      cases isOut

theorem Inv.place (h : s.Inv) (kind : Kind) {fresh : Option Addr} {inUse : InUse}
    (after : InUse.Allocated s.inUse kind.sizeof fresh (some p) inUse) :
    (set { s with inUse := inUse } p (some (kind, .empty))).Inv := by
  have unused := h.none_of_notOut (after.notOut p rfl)
  refine h.add kind.two_le_sizeof after (fun b n => ?_) ?_
  · rw [owns_iff (objects_set ..)]
    simp [Owns, unused, Buffer.empty]
  · rintro _ _ ⟨⟩
    exact nofun

theorem Inv.fill (h : s.Inv) {n : Nat} (there : s.objects p = some (k, ⟨none, n⟩))
    (bounds : 2 ≤ size ∧ size ≤ maxAlloc)
    {fresh mem : Option Addr} {inUse : InUse} (after : InUse.Allocated s.inUse size fresh mem inUse) :
    (set { s with inUse := inUse } p (some (k, ⟨mem, size⟩))).Inv := by
  cases mem with
  | none =>
      refine h.keep after.inv after.out (fun b n => ?_) ?_
      · rw [owns_iff (objects_set ..), owns_iff there]
        simp
      · rintro _ _ ⟨⟩
        exact nofun
  | some a =>
      have isOut := (h.owned.out p k.sizeof).mpr ⟨p, (owns_iff there).mpr (.inl ⟨rfl, rfl⟩)⟩
      refine h.add bounds after (fun b n => ?_) ?_
      · rw [owns_iff (objects_set ..), owns_iff there]
        simp [eq_comm]
      · rintro _ _ ⟨⟩ own
        rw [after.notOut p own] at isOut
        cases isOut

theorem Inv.drain (h : s.Inv) (there : s.objects p = some (k, buf)) :
    ∃ inUse, freeBuffer s.inUse buf = some (⟨none, buf.size⟩, inUse) ∧
      (set { s with inUse := inUse } p (some (k, ⟨none, buf.size⟩))).Inv := by
  obtain ⟨data, size⟩ := buf
  cases data with
  | none =>
      refine ⟨s.inUse, rfl, h.keep h.pool rfl (fun b n => ?_) ?_⟩
      · rw [owns_iff (objects_set ..), owns_iff there]
      · rintro _ _ ⟨⟩
        exact nofun
  | some a =>
      have was : s.Owns p a size := (owns_iff there).mpr (.inr ⟨rfl, rfl⟩)
      have isOut := (h.owned.out a size).mpr ⟨p, was⟩
      obtain ⟨two, fits⟩ := h.sizes a size isOut
      obtain ⟨inUse, run, inv, -, out⟩ := h.pool.free two fits isOut rfl
      refine ⟨inUse, by simp [freeBuffer, run], h.remove was inv out (fun b n => ?_) ?_⟩
      · have apart := h.owned.apart p k _ there
        rw [owns_iff (objects_set ..), owns_iff there]
        grind
      · rintro _ _ ⟨⟩
        exact nofun

theorem Inv.drop (h : s.Inv) {n : Nat} (there : s.objects p = some (k, ⟨none, n⟩)) :
    ∃ inUse, s.inUse.free p k.sizeof = some inUse ∧ (set { s with inUse := inUse } p none).Inv := by
  have was : s.Owns p p k.sizeof := (owns_iff there).mpr (.inl ⟨rfl, rfl⟩)
  have isOut := (h.owned.out p k.sizeof).mpr ⟨p, was⟩
  obtain ⟨two, fits⟩ := k.two_le_sizeof
  obtain ⟨inUse, run, inv, -, out⟩ := h.pool.free two fits isOut rfl
  refine ⟨inUse, run, h.remove was inv out (fun b n => ?_) nofun⟩
  rw [owns_iff there]
  simp only [Owns, objects_set, reduceCtorEq, false_and, or_false]
  grind

theorem Inv.pass (h : s.Inv) {dst src : Addr} {k' : Kind} {given : Buffer} {n : Nat} (other : src ≠ dst)
    (toDst : s.objects dst = some (k, ⟨none, n⟩)) (ofSrc : s.objects src = some (k', given))
    (inUse : t.inUse = s.inUse)
    (inDst : t.objects dst = some (k, given)) (inSrc : t.objects src = some (k', ⟨none, given.size⟩))
    (elsewhere : ∀ q, q ≠ src → q ≠ dst → t.objects q = s.objects q) : t.Inv := by
  have apart := h.owned.apart src k' given ofSrc
  have owner (b : Addr) (passed : given.data = some b) (q : Addr) (m : Nat) :
      s.Owns q b m ↔ q = src ∧ m = given.size := by
    have owned : s.Owns src b given.size := (owns_iff ofSrc).mpr (.inr ⟨passed, rfl⟩)
    constructor
    · intro owned'
      obtain rfl := h.owned.unique q src b m given.size owned' owned
      refine ⟨rfl, ((owns_iff ofSrc).mp owned').elim ?_ And.right⟩
      rintro ⟨rfl, -⟩
      exact absurd passed apart
    · rintro ⟨rfl, rfl⟩
      exact owned
  have dstOwn : s.Owns dst dst k.sizeof := (owns_iff toDst).mpr (.inl ⟨rfl, rfl⟩)
  refine h.move (inUse ▸ h.pool) (by rw [inUse]) (fun q b => if given.data = some b then dst else q)
    (fun q b m => ?_) (fun q l buf there => ?_)
  · by_cases passed : given.data = some b
    · simp only [passed, if_true, owner b passed, exists_and_right, exists_eq, true_and]
      by_cases atDst : q = dst
      · subst atDst
        have notObject : b ≠ q := fun same => other ((owner q (same ▸ passed) q k.sizeof).mp dstOwn).1.symm
        rw [owns_iff inDst]
        simp [passed, notObject]
      · refine iff_of_false (fun owned => ?_) fun both => atDst both.2
        by_cases atSrc : q = src
        · subst atSrc
          obtain ⟨rfl, -⟩ | ⟨⟨⟩, -⟩ := (owns_iff inSrc).mp owned
          exact apart passed
        · simp only [Owns, elsewhere q atSrc atDst] at owned
          exact atSrc ((owner b passed q m).mp owned).1
    · simp only [passed, if_false, exists_eq_right']
      by_cases atSrc : q = src
      · subst atSrc
        rw [owns_iff inSrc, owns_iff ofSrc]
        simp [passed]
      · by_cases atDst : q = dst
        · subst atDst
          rw [owns_iff inDst, owns_iff toDst]
          simp [passed]
        · simp only [Owns, elsewhere q atSrc atDst]
  · by_cases atSrc : q = src
    · subst atSrc
      rw [inSrc] at there
      cases there
      exact nofun
    · by_cases atDst : q = dst
      · subst atDst
        rw [inDst] at there
        cases there
        intro own
        exact other ((owner q own q k.sizeof).mp dstOwn).1.symm
      · exact h.owned.apart q l buf (elsewhere q atSrc atDst ▸ there)

theorem Inv.give (h : s.Inv) {dst src : Addr} {k' : Kind} {given : Buffer} {n : Nat}
    (toDst : s.objects dst = some (k, ⟨none, n⟩)) (ofSrc : s.objects src = some (k', given)) :
    ((s.set dst (some (k, given))).set src (some (k', ⟨none, given.size⟩))).Inv := by
  by_cases same : src = dst
  · subst same
    rw [toDst] at ofSrc
    cases ofSrc
    change ((s.set src (some (k, ⟨none, n⟩))).set src (some (k, ⟨none, n⟩))).Inv
    rw [← toDst]
    simpa only [set, Function.update_eq_self] using h
  · exact h.pass same toDst ofSrc rfl ((objects_set_of_ne _ _ (Ne.symm same)).trans (objects_set ..)) (objects_set ..)
      fun q atSrc atDst => (objects_set_of_ne _ _ atSrc).trans (objects_set_of_ne _ _ atDst)

theorem Inv.allocObject (h : s.Inv) (kind : Kind) (bufSize : Option Nat) {place : Addr} {fresh : Option Addr}
    (bounds : ∀ sz, bufSize = some sz → 2 ≤ sz ∧ sz ≤ maxAlloc) (new : s.New place fresh) :
    ∃ t, s.allocObject kind bufSize place fresh = some t ∧ t.Inv := by
  obtain ⟨unknown, unknownFresh⟩ := new
  obtain ⟨two, fits⟩ := kind.two_le_sizeof
  have unknownPlace (a : Addr) (isPlace : some place = some a) : s.inUse.heap.blocks a = none :=
    Option.some.inj isPlace ▸ unknown
  obtain ⟨mem, inUse, run, after⟩ := h.pool.alloc two fits unknownPlace
  cases mem with
  | none => cases after.null rfl
  | some p =>
      have placed := h.place kind after
      cases bufSize with
      | none => exact ⟨_, by simp [Objects.allocObject, run], placed⟩
      | some sz =>
          obtain ⟨two, fits⟩ := bounds sz rfl
          have unknown' (a : Addr) (isFresh : fresh = some a) : inUse.heap.blocks a = none := by
            obtain ⟨other, unknown⟩ := unknownFresh a isFresh
            exact after.new a unknown fun same => other (Option.some.inj same).symm
          obtain ⟨mem, inUse', run', after'⟩ := after.inv.alloc two fits unknown'
          have filled := placed.fill (objects_set ..) ⟨two, fits⟩ after'
          refine ⟨_, ?_, filled⟩
          simp [Objects.allocObject, run, allocBuffer, run', Buffer.assign, Buffer.empty, set]

theorem Inv.freeObject (h : s.Inv) (kind : Kind) (there : s.Is kind p) :
    ∃ t, s.freeObject kind p = some t ∧ t.Inv := by
  obtain ⟨buf, there⟩ := there
  obtain ⟨inUse, freed, drained⟩ := h.drain there
  obtain ⟨inUse', dropped, inv⟩ := drained.drop (objects_set ..)
  refine ⟨_, ?_, inv⟩
  change inUse.free p kind.sizeof = some inUse' at dropped
  simp [Objects.freeObject, there, freed, dropped, set]

theorem Inv.moveBuffer (h : s.Inv) {dst src : Addr} (isDst : (s.objects dst).isSome) (isSrc : (s.objects src).isSome) :
    ∃ t, s.moveBuffer dst src = some t ∧ t.Inv := by
  obtain ⟨⟨k, buf⟩, toDst⟩ := Option.isSome_iff_exists.mp isDst
  obtain ⟨inUse, freed, drained⟩ := h.drain toDst
  have isSrc' : ((set { s with inUse := inUse } dst (some (k, ⟨none, buf.size⟩))).objects src).isSome := by
    by_cases same : src = dst
    · rw [same, objects_set]
      rfl
    · rw [objects_set_of_ne _ _ same]
      exact isSrc
  obtain ⟨⟨k', given⟩, ofSrc⟩ := Option.isSome_iff_exists.mp isSrc'
  refine ⟨_, ?_, drained.give (objects_set ..) ofSrc⟩
  simp [Objects.moveBuffer, toDst, freed, ofSrc]

theorem Inv.transferBuffer (h : s.Inv) {dst src : Addr} (isDst : s.Is .message dst) (isSrc : s.Is .fragBuf src) :
    ∃ t, s.transferBuffer dst src = some t ∧ t.Inv := by
  obtain ⟨buf, toDst⟩ := isDst
  obtain ⟨given, ofSrc⟩ := isSrc
  obtain ⟨inUse, freed, drained⟩ := h.drain toDst
  have other : src ≠ dst := by
    rintro rfl
    rw [toDst] at ofSrc
    cases ofSrc
  have ofSrc' := (objects_set_of_ne { s with inUse := inUse } (some (.message, ⟨none, buf.size⟩)) other).trans ofSrc
  refine ⟨_, ?_, drained.give (objects_set ..) ofSrc'⟩
  simp [Objects.transferBuffer, toDst, freed, ofSrc, Buffer.assign, set]

theorem Inv.store (h : s.Inv) {mem : Addr} (isOut : (s.inUse.out mem).isSome) (word : Option Addr) :
    Inv { s with inUse := s.inUse.store mem word } where
  pool := h.pool.store isOut word
  sizes := h.sizes
  owned := ⟨h.owned.out, h.owned.unique, h.owned.apart⟩

theorem Inv.next (h : s.Inv) (c : ObjectCall) (allowed : s.Allowed c) : ∃ t, s.next c = some t ∧ t.Inv := by
  cases c with
  | allocPacket sz place fresh => exact h.allocObject .packet (some sz) (by rintro _ ⟨⟩; exact allowed.1) allowed.2
  | allocMessage place fresh => exact h.allocObject .message (some maxUnfragmented) (by rintro _ ⟨⟩; decide) allowed
  | allocMessageEmpty place => exact h.allocObject .message none nofun allowed
  | addFragBuf sz place fresh => exact h.allocObject .fragBuf (some sz) (by rintro _ ⟨⟩; exact allowed.1) allowed.2
  | freePacket p => exact h.freeObject .packet allowed
  | freeMessage p => exact h.freeObject .message allowed
  | removeFragBuf p => exact h.freeObject .fragBuf allowed
  | moveBuffer dst src => exact h.moveBuffer allowed.1 allowed.2
  | transferBuffer dst src => exact h.transferBuffer allowed.1 allowed.2
  | store mem word => exact ⟨_, rfl, h.store allowed word⟩

/-- Each block in use has one owner, and a buffer is freed with the size that its memory was asked for with, whichever
object has it by now. -/
structure Sound (s : Objects) : Prop where
  pool : s.inUse.Sound
  size : ∀ p k buf a, s.objects p = some (k, buf) → buf.data = some a → s.inUse.out a = some buf.size
  owner : ∀ a, (s.inUse.out a).isSome → ∃! p, ∃ size, s.Owns p a size

theorem Inv.sound (h : s.Inv) : s.Sound where
  pool := h.pool.sound
  size p k buf a there has := (h.owned.out a buf.size).mpr ⟨p, (owns_iff there).mpr (.inr ⟨has, rfl⟩)⟩
  owner a isOut := by
    obtain ⟨size, isOut⟩ := Option.isSome_iff_exists.mp isOut
    obtain ⟨p, owned⟩ := (h.owned.out a size).mp isOut
    refine ⟨p, ⟨size, owned⟩, ?_⟩
    rintro q ⟨size', owned'⟩
    exact h.owned.unique q p a size' size owned' owned

end Objects

/-- Slots are the least that are large enough, and over any calls the pool hands out a block once at a time, of at
least the size that is asked for. Over any calls on packets, fragment buffers and messages, so it does, and buffers
are freed with the sizes that they were allocated with. -/
theorem pool_hands_out_once (links links' : Addr → Option Addr) (calls : List PoolCall)
    (kept : Runs.Meets InUse.next InUse.Allowed (.init links) calls) (ops : List ObjectCall)
    (kept' : Runs.Meets Objects.next Objects.Allowed (.init links') ops) :
    (∀ sz, 2 ≤ sz → sz ≤ 2 ^ 28 →
      ∃ slot, computeSlot sz = some slot ∧ slot < numLists ∧ IsLeast {slot | sz ≤ slotToSize slot} slot) ∧
    (∃ t, Runs.run InUse.next (.init links) calls = some t ∧ t.Sound) ∧
    ∃ t, Runs.run Objects.next (.init links') ops = some t ∧ t.Sound := by
  refine ⟨fun sz => computeSlot_least, ?_, ?_⟩
  · obtain ⟨t, run, inv⟩ := Runs.run_total (fun _ c inv => inv.next c) (InUse.inv_init links) kept
    exact ⟨t, run, inv.sound⟩
  · obtain ⟨t, run, inv⟩ := Runs.run_total (fun _ c inv => inv.next c) (Objects.inv_init links') kept'
    exact ⟨t, run, inv.sound⟩

theorem pool_hands_out_once_twice :
    (Runs.run InUse.next (.init fun _ => none) [.alloc 70000 (some 1), .free 1 70000, .alloc (2 ^ 17) none]).isSome ∧
    (Runs.run Objects.next (.init fun _ => none) [.addFragBuf 70000 1 (some 2), .allocMessageEmpty 3,
      .transferBuffer 3 1, .freeMessage 3]).isSome := by
  have pooled : Runs.Meets InUse.next InUse.Allowed (.init fun _ => none)
      [.alloc 70000 (some 1), .free 1 70000, .alloc (2 ^ 17) none] := by
    refine (Runs.meets_cons rfl).mpr ⟨⟨by decide, by rintro _ ⟨⟩; rfl⟩, ?_⟩
    refine (Runs.meets_cons rfl).mpr ⟨⟨by decide, 70000, rfl, rfl⟩, ?_⟩
    exact (Runs.meets_cons rfl).mpr ⟨⟨by decide, nofun⟩, trivial⟩
  have moved : Runs.Meets Objects.next Objects.Allowed (.init fun _ => none)
      [.addFragBuf 70000 1 (some 2), .allocMessageEmpty 3, .transferBuffer 3 1, .freeMessage 3] := by
    refine (Runs.meets_cons rfl).mpr ⟨⟨by decide, rfl, by rintro _ ⟨⟩; exact ⟨by decide, rfl⟩⟩, ?_⟩
    refine (Runs.meets_cons rfl).mpr ⟨⟨rfl, nofun⟩, ?_⟩
    refine (Runs.meets_cons rfl).mpr ⟨⟨⟨_, rfl⟩, _, rfl⟩, ?_⟩
    exact (Runs.meets_cons rfl).mpr ⟨⟨_, rfl⟩, trivial⟩
  obtain ⟨-, ⟨s, run, -⟩, t, run', -⟩ := pool_hands_out_once _ _ _ pooled _ moved
  rw [run, run']
  exact ⟨rfl, rfl⟩

end Zcm.Udp
