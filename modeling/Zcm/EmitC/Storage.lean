import Zcm.Gen.Schema
import Zcm.Lib.Except

/-!
# Storage of emitted structs

The objects behind a pointer to an emitted struct: what is not written yet is garbage, a pointer to an allocated
block stands for the block. A path is the indices behind a member, the outermost first.
-/

namespace Zcm.EmitC
open Zcm.Lib Zcm.Gen

inductive Fault
  -- A value that nothing was written to is used.
  | indeterminate
  -- of the array or the block
  | outside
  -- of an int
  | overflow
  -- A call for an encoding returned this.
  | returned (result : Int)
  -- The emitted code does not compile.
  | ungrammatical
  -- The loops or the calls go on longer than is looked at.
  | unfinished
deriving DecidableEq

inductive Storage
  | garbage
  | num (n : Nat)
  | str (block : List Byte)
  | array (items : List Storage)
  | struct (fields : List Storage)

namespace Storage

mutual

def ofValue : Value → Storage
  | .num n => num n
  | .str block => str block
  | .struct fields => struct (ofValues fields)
  | .array items => array (ofValues items)

def ofValues : List Value → List Storage
  | [] => []
  | v :: vs => ofValue v :: ofValues vs

end

def elements : Storage → Except Fault (List Storage)
  | array items => .ok items
  | garbage => .error .indeterminate
  | num _ | str _ | struct _ => .error .outside

def get : List Int → Storage → Except Fault Storage
  | [], s => .ok s
  | j :: js, s => do
      let items ← s.elements
      if j < 0 then .error .outside
      else match items[j.toNat]? with
        | none => .error .outside
        | some item => get js item

def modify {α : Type} (f : Storage → Except Fault (α × Storage)) :
    List Int → Storage → Except Fault (α × Storage)
  | [], s => f s
  | j :: js, s => do
      let items ← s.elements
      if j < 0 then .error .outside
      else match items[j.toNat]? with
        | none => .error .outside
        | some item => do
            let (a, item) ← modify f js item
            .ok (a, array (items.set j.toNat item))

@[simp] def put : List Int → Storage → Storage → Storage
  | [], _, y => y
  | j :: js, array items, y => array (items.set j.toNat (put js (items.getD j.toNat garbage) y))
  | _ :: _, s, _ => s

variable {path : List Int} {q x y : Storage}

end Storage

end Zcm.EmitC
