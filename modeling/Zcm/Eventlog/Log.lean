import Zcm.Lib.File

/-!
# The event log

A log is a file of records: a sync word, the number and the time of an event, the lengths of its channel
and its data, and both. The reader looks for the sync word and takes a record if the next one or the end of
the file follows it.
-/

namespace Zcm.Eventlog
open Zcm.Lib

def magic : BitVec 32 := 0xEDA1DA01

structure Event where
  eventnum : BitVec 64
  timestamp : BitVec 64
  channel : List Byte
  data : List Byte
deriving DecidableEq

section Writing

def fwrite32 (v : BitVec 32) : List Byte := toBe 4 v.toNat

def fwrite64 (v64 : BitVec 64) : List Byte :=
  fwrite32 ((v64 >>> 32).setWidth 32) ++ fwrite32 ((v64 &&& 0xffffffff).setWidth 32)

structure Writer where
  bytes : List Byte
  eventcount : BitVec 64

def Writer.create : Writer := ⟨[], 0⟩

def zcmEventlogWriteEvent (l : Writer) (le : Event) : Writer where
  bytes := l.bytes ++ fwrite32 magic ++ fwrite64 l.eventcount ++ fwrite64 le.timestamp ++
    fwrite32 (BitVec.ofNat 32 le.channel.length) ++ fwrite32 (BitVec.ofNat 32 le.data.length) ++ le.channel ++ le.data
  eventcount := l.eventcount + 1

end Writing

section Reading

/-- Why no event was read: the record is not accepted, or the size of the buffer for its data, an `int`,
overflows. -/
inductive Stop
  | rejected
  | overflow
deriving DecidableEq

def fread32 : Reader Stop (BitVec 32) := fun f =>
  let (v, f) := f.fread 4
  if v.length = 4 then .ok (BitVec.ofNat 32 (ofBe v)) f else .error .rejected f

def fread64 : Reader Stop (BitVec 64) := do
  let v1 ← fread32
  let v2 ← fread32
  return (v1.signExtend 64 <<< 32) ||| (v2.signExtend 64 &&& 0xffffffff)

def freadAll (n : Nat) : Reader Stop (List Byte) := fun f =>
  let (bytes, f) := f.fread n
  if bytes.length = n then .ok bytes f else .error .rejected f

def peekMagic : Reader Stop Unit := fun f =>
  match fread32 f with
  | .ok nextMagic f => if nextMagic ≠ magic then .error .rejected f else .ok () (f.fseekCur (-4))
  | .error _ f => .ok () f

def readRecord : Reader Stop Event := do
  let eventnum ← fread64
  let timestamp ← fread64
  let channellen ← fread32
  let datalen ← fread32
  Reader.failIf (channellen.toInt ≤ 0 ∨ channellen.toInt ≥ 1000) .rejected
  Reader.failIf (datalen.toInt < 0) .rejected
  let channel ← freadAll channellen.toNat
  Reader.failIf (datalen.toInt + 1 = 2 ^ 31) .overflow
  let data ← freadAll datalen.toNat
  peekMagic
  return ⟨eventnum, timestamp, channel, data⟩

inductive Read
  | event (le : Event)
  | null
  | overflow
deriving DecidableEq

def zcmEventReadHelper (rewindWhenDone : Bool) (f : File) : Read × File :=
  let startOffset := f.pos
  match readRecord f with
  | .ok le f =>
      let numRead : Int := f.pos - startOffset
      (.event le, if rewindWhenDone then f.fseekCur (-(numRead + 4)) else f)
  | .error .rejected f =>
      let numRead : Int := f.pos - startOffset
      (.null, if rewindWhenDone then f.fseekCur (-(numRead + 4)) else f.fseekCur (-numRead))
  | .error .overflow f => (.overflow, f)

def syncLoop : Nat → BitVec 32 → File → Option (Bool × File)
  | 0, _, _ => none
  | rounds + 1, m, f =>
      match f.fgetc with
      | (none, f) => some (false, f)
      | (some r, f) =>
          let m := (m <<< 8) ||| r.setWidth 32
          if m = magic then some (true, f) else syncLoop rounds m f

def syncStream (rounds : Nat) (f : File) : Option (Bool × File) := syncLoop rounds 0 f

inductive Backwards
  | found | atStart | atEnd
deriving DecidableEq

def syncLoopBackwards : Nat → BitVec 32 → File → Option (Backwards × File)
  | 0, _, _ => none
  | rounds + 1, m, f =>
      if f.pos < 2 then some (.atStart, f)
      else
        match (f.fseekCur (-2)).fgetc with
        | (none, f) => some (.atEnd, f)
        | (some r, f) =>
            let m := ((m >>> 8) &&& 0x00ffffff) ||| ((r.setWidth 32 <<< 24) &&& 0xff000000)
            if m = magic then some (.found, f.fseekCur 3) else syncLoopBackwards rounds m f

def syncStreamBackwards (rounds : Nat) (f : File) : Option (Backwards × File) := syncLoopBackwards rounds 0 f

def zcmEventlogReadNextEvent : Nat → File → Option (Read × File)
  | 0, _ => none
  | rounds + 1, f =>
      match syncStream rounds f with
      | none => none
      | some (false, f) => some (.null, f)
      | some (true, f) =>
          match zcmEventReadHelper false f with
          | (.null, f) => zcmEventlogReadNextEvent rounds f
          | r => some r

def zcmEventlogReadPrevEvent : Nat → File → Option (Read × File)
  | 0, _ => none
  | rounds + 1, f =>
      match syncStreamBackwards rounds f with
      | none => none
      | some (.atStart, f) => some (.null, f)
      | some (_, f) =>
          match zcmEventReadHelper true f with
          | (.null, f) => zcmEventlogReadPrevEvent rounds f
          | r => some r

def zcmEventlogReadEventAtOffset (rounds : Nat) (f : File) (offset : Nat) : Option (Read × File) :=
  zcmEventlogReadNextEvent rounds { f with pos := offset }

end Reading

section Format

def magicBytes : List Byte := [0xed, 0xa1, 0xda, 0x01]

def be64 (v : BitVec 64) : List Byte := toBe 4 (v.toNat / 2 ^ 32) ++ toBe 4 v.toNat

def Event.body (e : Event) : List Byte :=
  be64 e.eventnum ++ (be64 e.timestamp ++ (toBe 4 e.channel.length ++ (toBe 4 e.data.length ++ (e.channel ++ e.data))))

def Event.record (e : Event) : List Byte := magicBytes ++ e.body

def Event.InLimits (e : Event) : Prop :=
  0 < e.channel.length ∧ e.channel.length < 1000 ∧ e.data.length < 2 ^ 31

instance (e : Event) : Decidable e.InLimits := inferInstanceAs (Decidable (_ ∧ _ ∧ _))

/-- A sync word and a well-formed record of `e` are at `p`, and then another sync word or fewer than four
bytes. -/
def RecordAt (bytes : List Byte) (p : Nat) (e : Event) : Prop :=
  ∃ rest, bytes.drop p = e.record ++ rest ∧ e.InLimits ∧ (rest.length < 4 ∨ magicBytes <+: rest)

/-- A sync word and a header are at `p` whose data would be 2^31 - 1 bytes long, and all of the channel. -/
def OverflowAt (bytes : List Byte) (p : Nat) : Prop :=
  ∃ (eventnum timestamp : BitVec 64) (channel rest : List Byte),
    bytes.drop p = magicBytes ++ (be64 eventnum ++ (be64 timestamp ++ (toBe 4 channel.length ++
      (toBe 4 (2 ^ 31 - 1) ++ (channel ++ rest))))) ∧ 0 < channel.length ∧ channel.length < 1000

end Format

end Zcm.Eventlog
