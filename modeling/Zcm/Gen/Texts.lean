import Zcm.Gen.RoundTrip

namespace Zcm.Gen
open Zcm.Lib

namespace Value

mutual

def mapText (f : List Byte → List Byte) : Value → Value
  | .num n => .num n
  | .str s => .str (f s)
  | .struct fields => .struct (mapTexts f fields)
  | .array items => .array (mapTexts f items)

def mapTexts (f : List Byte → List Byte) : List Value → List Value
  | [] => []
  | v :: vs => mapText f v :: mapTexts f vs

end

mutual

def texts : Value → List (List Byte)
  | .num _ => []
  | .str s => [s]
  | .struct fields => textsOf fields
  | .array items => textsOf items

def textsOf : List Value → List (List Byte)
  | [] => []
  | v :: vs => texts v ++ textsOf vs

end

theorem mapTexts_eq (f : List Byte → List Byte) (vs : List Value) : mapTexts f vs = vs.map (mapText f) := by
  induction vs with
  | nil => rfl
  | cons v vs ih => rw [mapTexts, ih, List.map_cons]

theorem textsOf_eq (vs : List Value) : textsOf vs = vs.flatMap texts := by
  induction vs with
  | nil => rfl
  | cons v vs ih => rw [textsOf, ih, List.flatMap_cons]

mutual

theorem mapText_congr {f g : List Byte → List Byte} (v : Value) (same : ∀ s ∈ v.texts, f s = g s) :
    v.mapText f = v.mapText g := by
  cases v with
  | num n => rfl
  | str s => rw [mapText, mapText, same s List.mem_cons_self]
  | struct fields => rw [mapText, mapText, mapTexts_congr fields same]
  | array items => rw [mapText, mapText, mapTexts_congr items same]

theorem mapTexts_congr {f g : List Byte → List Byte} (vs : List Value) (same : ∀ s ∈ textsOf vs, f s = g s) :
    mapTexts f vs = mapTexts g vs := by
  cases vs with
  | nil => rfl
  | cons v vs =>
      rw [mapTexts, mapTexts, mapText_congr v fun s member => same s (List.mem_append_left _ member),
        mapTexts_congr vs fun s member => same s (List.mem_append_right _ member)]

end

end Value

theorem leaves_mapText (f : List Byte → List Byte) (k : Nat) (v : Value) :
    leaves k (v.mapText f) = (leaves k v).map (Value.mapText f) := by
  induction k generalizing v with
  | zero => rfl
  | succ k ih =>
      cases v with
      | array items =>
          simp only [Value.mapText, leaves, Value.mapTexts_eq, List.flatMap_map, List.map_flatMap, ih]
      | _ => rfl

theorem push_mapText (f : List Byte → List Byte) (scope : Scope) (m : Member) (v : Value) :
    scope.push m (v.mapText f) = scope.push m v := by
  cases v with
  | num n => rfl
  | _ => cases dims : m.dimensions <;> cases type : m.type <;> simp [Scope.push, Value.mapText, dims, type]

end Zcm.Gen
