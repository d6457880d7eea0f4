import Zcm.Eventlog.Log

/-!
# The log filter

A region is switched on and off by conditions on the events. A first pass over the log turns the events
at which a region is active into intervals of time, and a second pass writes the events in these intervals.
-/

namespace Zcm.Filter
open Zcm.Lib Zcm.Eventlog

structure Doubles (Double : Type) where
  lt : Double → Double → Bool
  ge : Double → Double → Bool
  ofInt : Int → Double
  /-- `(double) micros / 1e6` -/
  seconds : BitVec 64 → Double

variable {Double : Type}

section Conditions

inductive FieldValue (Double : Type)
  | int (v : Int)
  | boolean (v : Bool)
  | floating (v : Double)
  | other

inductive Comparison (Double : Type)
  | bool (inverted : Bool)
  | number (number : Double) (lessThan : Bool)

/-- A fully specified condition. `getField` decodes the data of an event and follows the path to the field, and gives
what the caller reads there: by then the decoded message has been deleted. -/
inductive Condition (Double : Type)
  | seconds (number : Double) (lessThan : Bool)
  | field (channel : List Byte) (getField : List Byte → Option (FieldValue Double)) (comparison : Comparison Double)
  | compound (conjunction : Bool) (cond1 cond2 : Condition Double)

variable (d : Doubles Double)

def boolIsActive (inverted val : Bool) : Bool := if inverted then !val else val

def numberIsActive (number : Double) (lessThan : Bool) (val : Double) : Bool :=
  if lessThan then d.lt val number else d.ge val number

section Fields

variable (channel : List Byte) (getField : List Byte → Option (FieldValue Double)) (le : Event)

def extractBool : Option Bool :=
  if le.channel ≠ channel then none
  else match getField le.data with
    | some (.int v) => some (v ≠ 0)
    | some (.boolean v) => some v
    | some (.floating _) | some .other | none => none

def extractNumber : Option Double :=
  if le.channel ≠ channel then none
  else match getField le.data with
    | some (.int v) => some (d.ofInt v)
    | some (.floating v) => some v
    | some (.boolean _) | some .other | none => none

end Fields

def Condition.readsFreed : Condition Double → Event → Bool
  | .seconds _ _, _ => false
  | .field channel getField comparison, le =>
      le.channel = channel && match comparison, getField le.data with
        | .bool _, some (.int _) | .bool _, some (.boolean _) => true
        | .number _ _, some (.int _) | .number _ _, some (.floating _) => true
        | .bool _, some (.floating _) | .number _ _, some (.boolean _) | _, some .other | _, none => false
  | .compound _ cond1 cond2, le => cond1.readsFreed le || cond2.readsFreed le

def Condition.isActive : Condition Double → BitVec 64 → Event → Bool × BitVec 64
  | .seconds number lessThan, firstUtime, le =>
      let firstUtime := if le.timestamp < firstUtime then le.timestamp else firstUtime
      (numberIsActive d number lessThan (d.seconds (le.timestamp - firstUtime)), firstUtime)
  | .field channel getField comparison, firstUtime, le =>
      let firstUtime := if le.timestamp < firstUtime then le.timestamp else firstUtime
      match comparison with
      | .bool inverted => (((extractBool channel getField le).map (boolIsActive inverted)).getD false, firstUtime)
      | .number number lessThan =>
          (((extractNumber d channel getField le).map (numberIsActive d number lessThan)).getD false, firstUtime)
  | .compound conjunction cond1 cond2, firstUtime, le =>
      let (c1, firstUtime) := cond1.isActive firstUtime le
      let (c2, firstUtime) := cond2.isActive firstUtime le
      (if conjunction then c1 && c2 else c1 || c2, firstUtime)

def Condition.evaluate (c : Condition Double) (firstUtime : BitVec 64) (le : Event) : Option (Bool × BitVec 64) :=
  if c.readsFreed le then none else some (c.isActive d firstUtime le)

end Conditions

section Regions

structure Region (Double : Type) where
  beginCondition : Option (Condition Double)
  endCondition : Option (Condition Double)
  channels : List (List Byte → Bool)
  beginAdjustment : Int
  endAdjustment : Int

structure RegionState where
  firstTimeThrough : Bool := true
  active : Bool := false

def conditionHolds (d : Doubles Double) (c : Option (Condition Double)) (firstUtime : BitVec 64) (le : Event) :
    Bool × BitVec 64 :=
  match c with
  | none => (true, firstUtime)
  | some c => c.isActive d firstUtime le

namespace Region

def isActive (d : Doubles Double) (r : Region Double) (s : RegionState) (firstUtime : BitVec 64) (le : Event) :
    RegionState × BitVec 64 :=
  let (b, firstUtime) := conditionHolds d r.beginCondition firstUtime le
  let (e, firstUtime) := conditionHolds d r.endCondition firstUtime le
  let active := if r.beginCondition.isNone && s.firstTimeThrough then true else s.active
  let active := if r.beginCondition.isSome && b then true else active
  let active := if r.endCondition.isSome && e then false else active
  (⟨false, active⟩, firstUtime)

def keepEvent (r : Region Double) (channel : List Byte) : Bool :=
  if r.channels.isEmpty then true else r.channels.any fun c => c channel

end Region

end Regions

section Passes

def i64max : Int := 2 ^ 63 - 1

abbrev Zone := Int × Int

structure Tracked (Double : Type) where
  region : Region Double
  state : RegionState
  zones : List Zone

def Region.track (r : Region Double) : Tracked Double := ⟨r, {}, []⟩

/-- The end of a zone is moved along with its events. A zone that has not begun has `i64max` at both ends. -/
def markZone (active : Bool) (timestamp : Int) (r : List Zone) : List Zone :=
  if !active then
    match r with
    | [] => []
    | back :: rest => if back.2 ≠ i64max then (i64max, i64max) :: back :: rest else back :: rest
  else
    match r with
    | [] => [(timestamp, timestamp)]
    | back :: rest => (if back.1 = i64max then timestamp else back.1, timestamp) :: rest

variable (d : Doubles Double)

def markRegions (le : Event) : List (Tracked Double) → BitVec 64 → List (Tracked Double) × BitVec 64
  | [], firstUtime => ([], firstUtime)
  | t :: ts, firstUtime =>
      let (s, firstUtime) := t.region.isActive d t.state firstUtime le
      let (ts, firstUtime) := markRegions le ts firstUtime
      (⟨t.region, s, markZone s.active le.timestamp.toInt t.zones⟩ :: ts, firstUtime)

def firstPass (regions : List (Region Double)) (log : List Event) : List (Tracked Double) × BitVec 64 :=
  log.foldl (fun s le => markRegions d le s.1 s.2) (regions.map Region.track, -1)

/-- What stands between the passes: a zone that has not begun is removed, and the others are adjusted. -/
def Tracked.settle (t : Tracked Double) : Tracked Double :=
  let zones := match t.zones with
    | [] => []
    | back :: rest => if back.1 = i64max then rest else back :: rest
  { t with zones := zones.map fun r => (r.1 + t.region.beginAdjustment, r.2 + t.region.endAdjustment) }

def keepEvent (ts : List (Tracked Double)) (le : Event) : Bool :=
  ts.any fun t => t.zones.any fun r =>
    decide (r.1 ≤ le.timestamp.toInt) && decide (le.timestamp.toInt < r.2) && t.region.keepEvent le.channel

structure Output where
  numInEvents : Nat
  numOutEvents : Nat
  outlog : List (Event × Nat)

def writeKept (ts : List (Tracked Double)) (out : Output) (le : Event) : Output :=
  if keepEvent ts le then ⟨out.numInEvents + 1, out.numOutEvents + 1, out.outlog ++ [(le, out.numInEvents)]⟩
  else { out with numInEvents := out.numInEvents + 1 }

def filterLog (regions : List (Region Double)) (log : List Event) : Output :=
  let ts := (firstPass d regions log).1.map Tracked.settle
  log.foldl (writeKept ts) ⟨0, 0, []⟩

end Passes

end Zcm.Filter
