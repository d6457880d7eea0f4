import Zcm.Cpp.Decode

namespace Zcm.Cpp
open Zcm.Lib Zcm.Gen Zcm.Coretypes

inductive Patch
  | put (v : Value)
  | keep
  -- A vector gets the size first, with the value for new elements.
  | row (sized : Option (Nat × Value)) (values : List Nat)
  | items (sized : Option (Nat × Value)) (patches : List Patch)
  | struct (patches : List Patch)

def fit : Option (Nat × Value) → List Value → List Value
  | none, elements => elements
  | some (n, blank), elements => elements.take n ++ List.replicate (n - elements.length) blank

namespace Patch

mutual

def apply : Patch → Value → Value
  | put v, _ => v
  | keep, old => old
  | row sized values, old => .array (store values (fit sized (Cpp.items old)))
  | items sized patches, old => .array (applyAll patches (fit sized (Cpp.items old)))
  | struct patches, old => .struct (applyAll patches (fields old))

def applyAll : List Patch → List Value → List Value
  | [], olds => olds
  | p :: ps, olds => p.apply (olds.headD (.num 0)) :: applyAll ps olds.tail

end

mutual

def Agree : Patch → Value → Value → Prop
  | put _, _, _ => True
  | keep, a, b => a = b
  | row sized values, a, b =>
      (fit sized (Cpp.items a)).drop values.length = (fit sized (Cpp.items b)).drop values.length
  | items sized patches, a, b => AgreeAll patches (fit sized (Cpp.items a)) (fit sized (Cpp.items b))
  | struct patches, a, b => AgreeAll patches (fields a) (fields b)

def AgreeAll : List Patch → List Value → List Value → Prop
  | [], as, bs => as = bs
  | p :: ps, as, bs => p.Agree (as.headD (.num 0)) (bs.headD (.num 0)) ∧ AgreeAll ps as.tail bs.tail

end

mutual

theorem apply_eq_iff (p : Patch) (a b : Value) : p.apply a = p.apply b ↔ p.Agree a b := by
  cases p with
  | put v => simp [apply, Agree]
  | keep => simp [apply, Agree]
  | row sized values => simp [apply, Agree, store]
  | items sized patches => simp only [apply, Agree, Value.array.injEq, applyAll_eq_iff patches]
  | struct patches => simp only [apply, Agree, Value.struct.injEq, applyAll_eq_iff patches]

theorem applyAll_eq_iff (ps : List Patch) (as bs : List Value) :
    applyAll ps as = applyAll ps bs ↔ AgreeAll ps as bs := by
  cases ps with
  | nil => rfl
  | cons p ps =>
      simp only [applyAll, AgreeAll, List.cons.injEq, apply_eq_iff p, applyAll_eq_iff ps]

end

def value : Patch → Value
  | put v => v
  | _ => .num 0

end Patch

section Read

variable (options : Options) (blanks : String → List Value)
  (callee : String → Nat → Nat → Except Abort (Nat × Patch)) (buf : Mem Byte) (offset maxlen : Nat)

def readElements (t : Typename) (elements : Nat) (pos : BitPos) : Except Abort (BitPos × List Nat) :=
  match t with
  | .prim p => decodePrims options buf offset maxlen p elements pos
  | .bits p numbits signExtend =>
      match bitsType p with
      | none => .error .depth
      | some b =>
          let r := decodeArrayBits b signExtend buf (u32 (offset + pos.byte)) pos.bit (u32Sub maxlen pos.byte)
            (fun _ => 0) elements numbits
          if r.1 < 0 then .error (.returned r.1)
          else .ok (bitfieldAdvanceOffset pos r.1.toNat, (r.2.read 0 elements).map (·.toNat))
  | _ => .error .depth

def readLeaf (t : Typename) (pos : BitPos) : Except Abort (BitPos × Patch) :=
  match t with
  | .string => (decodeString options buf offset maxlen pos).map fun r => (r.1, .put r.2)
  | .user name => do
      let (thislen, p) ← callee name (u32 (offset + pos.byte)) (u32Sub maxlen pos.byte)
      .ok (⟨u32 (pos.byte + thislen), pos.bit⟩, p)
  | t => do
      let (pos, values) ← readElements options buf offset maxlen t 1 pos
      .ok (pos, .put (.num (values.headD 0)))

def readItems (read : BitPos → Except Abort (BitPos × Patch)) :
    Nat → BitPos → Except Abort (BitPos × List Patch)
  | 0, pos => .ok (pos, [])
  | n + 1, pos => do
      let (pos, p) ← read pos
      let (pos, ps) ← readItems read n pos
      .ok (pos, p :: ps)

/-- A row whose variable size is not positive is kept, and so is what lies behind the elements of a row that are
counted in 32 bits. -/
def readDims (m : Member) (scope : Scope) : List Dimension → BitPos → Except Abort (BitPos × Patch)
  | [], pos => readLeaf options callee buf offset maxlen m.type pos
  | d :: ds, pos =>
      let n := scope.dimSize d
      if isRow m.type ds && d.isVar && n ≤ 0 then .ok (pos, .keep)
      else if isVector options m d && n < 0 then .error .thrown
      else
        let sized := if isVector options m d then some (n.toNat, initialDims options blanks m ds) else none
        if isRow m.type ds then do
          let (pos, values) ← readElements options buf offset maxlen m.type (n % 2 ^ 32).toNat pos
          .ok (pos, .row sized values)
        else do
          let (pos, patches) ← readItems (readDims m scope ds) n.toNat pos
          if n < 2 ^ 31 then .ok (pos, .items sized patches) else .error .overflow

def readFields : Scope → Bool → List Member → BitPos → Except Abort (BitPos × List Patch)
  | _, inBitMode, [], pos => .ok (if inBitMode then closeBits pos else pos, [])
  | scope, inBitMode, m :: ms, pos => do
      let pos := if inBitMode && !m.type.isBits then closeBits pos else pos
      let (pos, p) ← readDims options blanks callee buf offset maxlen m scope m.dimensions pos
      let (pos, ps) ← readFields (scope.push m p.value) m.type.isBits ms pos
      .ok (pos, p :: ps)

end Read

def readNoHash (Γ : Env) (options : Options) (buf : Mem Byte) :
    Nat → String → Nat → Nat → Except Abort (Nat × Patch)
  | 0, _, _, _ => .error .depth
  | depth + 1, name, offset, maxlen =>
      match Γ.lookup name with
      | none => .error .depth
      | some s => do
          let (pos, ps) ← readFields options (initial Γ options depth) (readNoHash Γ options buf depth) buf offset
            maxlen [] false s.members ⟨0, 0⟩
          if asInt pos.byte < 0 then .error (.returned (asInt pos.byte)) else .ok (pos.byte, .struct ps)

end Zcm.Cpp
