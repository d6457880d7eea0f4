import Mathlib.Logic.Function.Basic
import Zcm.Logger.Frames

namespace Zcm.Logger
open Zcm.Lib Zcm.Eventlog

abbrev Dir := Name → Option (List Event)

structure Args where
  autoSplit : Nat → Bool -- `auto_split_mb` is set and a log of this size exceeds it
  forceOverwrite : Bool
  autoIncrement : Bool
  useStrftime : Bool
  rotate : Int
  inputFname : Name
  maxTargetMemory : Int
  controlEnabled : Bool
  controlSessionId : BitVec 64
  channelRenames : List (List Byte × List Byte)
  exclusive : ¬ (rotate > 0 ∧ autoIncrement = true)
  splits : (∃ logsize, autoSplit logsize = true) → autoIncrement = true ∨ rotate > 0

structure Files where
  dir : Dir
  filename : Name
  fnamePrefix : Name
  nextIncrementNum : Nat

structure Opening where
  strftime : Name -- the template for the time of the call
  removes : Bool
  renames : Int → Bool
  opens : Bool

section Names

def decimal (n : Nat) : Name := ascii (Nat.toDigits 10 n)

def toString (n : Int) : Name := if n < 0 then ascii ['-'] ++ decimal n.natAbs else decimal n.natAbs

def dot : Name := ascii ['.']

def pathMax : Nat := 4096

def incremented (fnamePrefix : Name) (n : Nat) : Name :=
  (fnamePrefix ++ dot ++ List.replicate (4 - (decimal n).length) (BitVec.ofNat 8 '0'.toNat) ++
    decimal n).take (pathMax - 1)

end Names

section Rotate

def Dir.exists (dir : Dir) (name : Name) : Bool := (dir name).isSome

def Dir.remove (dir : Dir) (name : Name) : Dir := Function.update dir name none

def Dir.rename (dir : Dir) (old new : Name) : Dir := Function.update (Function.update dir old none) new (dir old)

variable (o : Opening)

def renameAway (fnamePrefix : Name) : Nat → Dir → Dir
  | 0, dir => dir
  | n + 1, dir =>
      let newname := fnamePrefix ++ dot ++ toString n
      let tomove := fnamePrefix ++ dot ++ toString (n - 1)
      renameAway fnamePrefix n (if dir.exists tomove && o.renames n then dir.rename tomove newname else dir)

def rotateLogfiles (args : Args) (f : Files) : Files :=
  let tomove := f.fnamePrefix ++ dot ++ toString (args.rotate - 1)
  let dir := if f.dir.exists tomove && o.removes then f.dir.remove tomove else f.dir
  { f with dir := renameAway o f.fnamePrefix args.rotate.toNat dir }

end Rotate

section Open

/-- The loop over the names with increasing numbers, with a bound on its rounds: the name that does not
exist, and the number after its own. -/
def findIncrement (dir : Dir) (fnamePrefix : Name) : Nat → Nat → Option (Name × Nat)
  | 0, _ => none
  | rounds + 1, n =>
      let filename := incremented fnamePrefix n
      if dir.exists filename then findIncrement dir fnamePrefix rounds (n + 1) else some (filename, n + 1)

def Dir.fopen (dir : Dir) (append : Bool) (name : Name) : Dir :=
  if append then Function.update dir name (some ((dir name).getD [])) else Function.update dir name (some [])

def openLogfile (args : Args) (rounds : Nat) (o : Opening) (f : Files) : Option (Option Files) :=
  let fnamePrefix := if args.useStrftime then o.strftime else args.inputFname
  let nextIncrementNum :=
    if args.useStrftime && args.autoIncrement && f.fnamePrefix ≠ fnamePrefix then 0 else f.nextIncrementNum
  let opened (filename : Name) (nextIncrementNum : Nat) : Option Files :=
    if o.opens then some ⟨f.dir.fopen (args.rotate > 0) filename, filename, fnamePrefix, nextIncrementNum⟩ else none
  if args.autoIncrement then
    match findIncrement f.dir fnamePrefix rounds nextIncrementNum with
    | none => none
    | some (filename, nextIncrementNum) => some (opened filename nextIncrementNum)
  else if args.rotate > 0 then some (opened (fnamePrefix ++ dot ++ ascii ['0']) nextIncrementNum)
  else if !args.forceOverwrite && f.dir.exists fnamePrefix then some none
  else some (opened fnamePrefix nextIncrementNum)

def nextLogfile (args : Args) (rounds : Nat) (o : Opening) (f : Files) : Option (Option Files) :=
  openLogfile args rounds o (if args.rotate > 0 then rotateLogfiles o args f else f)

end Open

end Zcm.Logger
