import Mathlib.Data.List.Perm.Basic
import Zcm.Lib.Bytes
import Zcm.Lib.Memory

namespace Zcm.Udp
open Zcm.Lib

structure SockAddr where
  family : Nat
  port : Nat
  addr : Nat
deriving DecidableEq

/-- A datagram in its buffer. The first `sz` bytes were received; what follows them in `buf` is left
from earlier use of the memory. -/
structure Packet where
  utime : Int
  sz : Nat
  fromAddr : SockAddr
  buf : Mem Byte

def sizeofMsgHeaderLong : Nat := 20

namespace Packet

def getMsgSeqno (pkt : Packet) : Nat := ofBe (pkt.buf.read 4 4)

def getMsgSize (pkt : Packet) : Nat := ofBe (pkt.buf.read 8 4)

def getFragmentOffset (pkt : Packet) : Nat := ofBe (pkt.buf.read 12 4)

def getFragmentNo (pkt : Packet) : Nat := ofBe (pkt.buf.read 16 2)

def getFragmentsInMsg (pkt : Packet) : Nat := ofBe (pkt.buf.read 18 2)

def getFragmentSize (pkt : Packet) : Nat := pkt.sz - sizeofMsgHeaderLong

end Packet

structure Fragment where
  offset : Nat
  size : Nat
  received : Bool
deriving DecidableEq

structure FragBuf where
  lastPacketUtime : Int
  msgSeqno : Nat
  dataSize : Nat
  fragmentsRemaining : Nat
  channellen : Nat
  fromAddr : SockAddr
  fragments : List Fragment
  allocatedSize : Nat
  lastProgress : Int
  buf : Mem Byte

def sizeofFragBuf : Nat := 104

def sizeofFragment : Nat := 12

def FragBuf.matches (f : FragBuf) (key : SockAddr) (msgSeqno : Nat) : Bool :=
  f.fromAddr = key ∧ f.msgSeqno = msgSeqno

def FragBuf.key (f : FragBuf) : SockAddr × Nat := (f.fromAddr, f.msgSeqno)

structure MessagePool where
  fragbufs : List FragBuf
  maxSize : Nat
  maxBuffers : Nat
  totalSize : Nat

def swapRemove {α : Type} (xs : List α) (idx : Nat) : List α :=
  match xs.getLast? with
  | none => []
  | some last => (xs.set idx last).dropLast

theorem swapRemove_perm {α : Type} {xs : List α} {idx : Nat} (lt : idx < xs.length) :
    (swapRemove xs idx).Perm (xs.eraseIdx idx) := by
  rcases List.eq_nil_or_concat xs with rfl | ⟨ys, last, rfl⟩
  · simp at lt
  · rw [List.concat_eq_append] at *
    simp only [swapRemove, List.getLast?_append, List.getLast?_singleton, Option.some_or]
    rw [List.length_append, List.length_singleton] at lt
    by_cases atEnd : idx = ys.length
    · subst atEnd
      rw [List.set_append_right _ _ (Nat.le_refl _), List.eraseIdx_append_of_length_le (Nat.le_refl _)]
      simp
    · have inside : idx < ys.length := by omega
      rw [List.set_append_left _ _ inside, List.dropLast_concat, List.eraseIdx_append_of_lt_length inside]
      exact (List.set_perm_cons_eraseIdx inside last).trans (List.perm_append_singleton _ _).symm

namespace MessagePool

def new (maxSize maxBuffers : Nat) : MessagePool := ⟨[], maxSize, maxBuffers, 0⟩

def removeFragBuf (p : MessagePool) (idx : Nat) : MessagePool :=
  match p.fragbufs[idx]? with
  | none => p
  | some f => { p with fragbufs := swapRemove p.fragbufs idx, totalSize := p.totalSize - f.allocatedSize }

def eldest : List FragBuf → Nat
  | [] => 0
  | f :: fs =>
      match fs[eldest fs]? with
      | none => 0
      | some g => if g.lastPacketUtime < f.lastPacketUtime then eldest fs + 1 else 0

/-- The loop that makes room for `allocatedSize` more bytes; each round removes one buffer, so there
are at most as many rounds as buffers. -/
def evict (allocatedSize : Nat) : Nat → MessagePool → MessagePool
  | 0, p => p
  | rounds + 1, p =>
      if p.fragbufs ≠ [] ∧ (p.totalSize + allocatedSize > p.maxSize ∨ p.fragbufs.length ≥ p.maxBuffers) then
        evict allocatedSize rounds (p.removeFragBuf (eldest p.fragbufs))
      else p

def allocatedSizeOf (dataSize fragmentsInMsg : Nat) : Nat :=
  dataSize + sizeofFragBuf + fragmentsInMsg * sizeofFragment

/-- The new buffer is the last one of the pool. Its memory holds whatever was `left` in it. -/
def addFragBuf (p : MessagePool) (dataSize fragmentsInMsg : Nat) (now : Int) (left : Mem Byte) :
    MessagePool × FragBuf :=
  let allocatedSize := allocatedSizeOf dataSize fragmentsInMsg
  let p := evict allocatedSize p.fragbufs.length p
  let fbuf : FragBuf :=
    { lastPacketUtime := 0, msgSeqno := 0, dataSize := 0, fragmentsRemaining := 0, channellen := 0,
      fromAddr := ⟨0, 0, 0⟩, fragments := List.replicate fragmentsInMsg ⟨0, 0, false⟩,
      allocatedSize := allocatedSize, lastProgress := now, buf := left }
  ({ p with fragbufs := p.fragbufs ++ [fbuf], totalSize := p.totalSize + allocatedSize }, fbuf)

def lookupFragBuf (p : MessagePool) (key : SockAddr) (msgSeqno : Nat) : Option Nat :=
  p.fragbufs.findIdx? (·.matches key msgSeqno)

def expiry : Int := 5000000000

def expireFrom (now : Int) : Nat → Nat → MessagePool → MessagePool
  | 0, _, p => p
  | rounds + 1, i, p =>
      match p.fragbufs[i]? with
      | none => p
      | some f =>
          if now - f.lastProgress ≥ expiry then expireFrom now rounds i (p.removeFragBuf i)
          else expireFrom now rounds (i + 1) p

def expireFragBufs (p : MessagePool) (now : Int) : MessagePool := expireFrom now p.fragbufs.length 0 p

end MessagePool

def memchrNul (m : Mem Byte) (start n : Nat) : Option Nat := (List.range n).find? fun i => m (start + i) = 0

end Zcm.Udp
