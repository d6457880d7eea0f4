import Mathlib.Algebra.Order.BigOperators.Group.List
import Zcm.Cpp.EncodeExact

namespace Zcm.Cpp
open Zcm.Lib Zcm.Gen Zcm.Coretypes

def whole (chars : List Byte) : List Byte := chars ++ [0]

section Products

variable {all : List Member} {scope : Scope}

theorem times_eq (long : Bool) {a b : Int} {n : Nat} (product : a * b = n) (small : n < 2 ^ 31) :
    times long a b = .ok n := by
  have wide : (n : Int) < if long then 2 ^ 63 else 2 ^ 31 := by
    split <;> omega
  rw [times, product]
  exact if_pos ⟨by omega, wide⟩

theorem sizesProduct_eq (ds : List Dimension)
    (small : ∀ k ≤ ds.length, ∃ n : Nat, ((ds.take k).map scope.dimSize).prod = n ∧ n < 2 ^ 31) :
    ∃ long, sizesProduct all scope ds = .ok ((ds.map scope.dimSize).prod, long) := by
  have each : ∀ (ds : List Dimension) (a : Int) (long : Bool),
      (∀ k ≤ ds.length, ∃ n : Nat, a * ((ds.take k).map scope.dimSize).prod = n ∧ n < 2 ^ 31) →
      ∃ long', ds.foldlM (fun (r : Int × Bool) d => do
        let n ← times (r.2 || isLong all d) r.1 (scope.dimSize d)
        .ok (n, r.2 || isLong all d)) (a, long) = .ok (a * (ds.map scope.dimSize).prod, long') := by
    intro ds
    induction ds with
    | nil =>
        intro a long _
        exact ⟨long, by rw [List.foldlM_nil, List.map_nil, List.prod_nil, mul_one]; rfl⟩
    | cons d ds ih =>
        intro a long small
        obtain ⟨n, product, lt⟩ := small 1 (by simp)
        have first : a * scope.dimSize d = n := by simpa using product
        obtain ⟨long', rest⟩ := ih (a * scope.dimSize d) (long || isLong all d) (by
          intro k le
          have next := small (k + 1) (by simpa using le)
          simpa [List.take_succ_cons, mul_assoc] using next)
        refine ⟨long', ?_⟩
        rw [List.foldlM_cons, times_eq _ first lt, ok_bind, ok_bind, ← first, rest, List.map_cons, List.prod_cons,
          mul_assoc]
  obtain ⟨long, run⟩ := each ds 1 false (by simpa using small)
  exact ⟨long, by rw [sizesProduct]; simpa using run⟩

end Products

section Numbers

theorem row_total {p : Prim} {rows elements : Nat} {size : Int} (product : (elements : Int) = rows * size)
    (bytes : elements * p.size < 2 ^ 31) :
    (rows : Int) * (encodedArraySize p (size % 2 ^ 32).toNat : Nat) = (elements * p.size : Nat) := by
  cases rows with
  | zero =>
      have empty : elements = 0 := by simpa using product
      simp [empty]
  | succ rows =>
      have positive : 0 ≤ size := by
        by_contra negative
        have less : ((rows + 1 : Nat) : Int) * size < 0 := Int.mul_neg_of_pos_of_neg (by omega) (by omega)
        omega
      obtain ⟨n, rfl⟩ := Int.eq_ofNat_of_zero_le positive
      have exact : elements = (rows + 1) * n := by exact_mod_cast product
      have within : n * p.size ≤ elements * p.size := by
        rw [exact]
        exact Nat.mul_le_mul_right _ (Nat.le_mul_of_pos_left _ (Nat.succ_pos rows))
      have least : n ≤ n * p.size := Nat.le_mul_of_pos_right _ p.size_pos
      have argument : ((n : Int) % 2 ^ 32).toNat = n := by omega
      rw [argument, encodedArraySize, u32_of_lt (by rw [Nat.mul_comm]; omega), exact]
      push_cast
      ring

variable {all : List Member} {demands : Demands} {conforms : String → List Value → Prop} {t : Typename} {m : Member}
  {scope : Scope} {ds : List Dimension} {v : Value}
  (conform : ConformsDims demands conforms t (m.extentsFrom scope ds) v)
  (small : ∀ k ≤ ds.length, (leaves k v).length < 2 ^ 31)

include conform small

theorem sizesProduct_leaves {k : Nat} (le : k ≤ ds.length) :
    ∃ long, sizesProduct all scope (ds.take k) = .ok (((leaves k v).length : Nat), long) := by
  have steps : ∀ j ≤ (ds.take k).length,
      ∃ n : Nat, (((ds.take k).take j).map scope.dimSize).prod = n ∧ n < 2 ^ 31 := by
    intro j lej
    rw [List.length_take] at lej
    refine ⟨(leaves j v).length, ?_, small j (by omega)⟩
    rw [List.take_take, Nat.min_eq_left (by omega), leaves_count (by omega) conform]
  obtain ⟨long, run⟩ := @sizesProduct_eq all scope (ds.take k) steps
  exact ⟨long, by rw [run, leaves_count le conform]⟩

theorem sizePrims_eq {p : Prim} (bytes : (leaves ds.length v).length * p.size < 2 ^ 31) :
    sizePrims all p scope ds = .ok ((leaves ds.length v).length * p.size : Nat) := by
  cases last : ds.getLast? with
  | none =>
      rw [List.getLast?_eq_none_iff] at last
      subst last
      have size := p.size_le
      have one : encodedArraySize p 1 = p.size := by rw [encodedArraySize, Nat.mul_one, u32_of_lt (by omega)]
      simp [sizePrims, leaves, one]
  | some d =>
      obtain ⟨outer, rfl⟩ := List.getLast?_eq_some_iff.mp last
      have length : (outer ++ [d]).length = outer.length + 1 := by simp
      obtain ⟨long, run⟩ := @sizesProduct_leaves all _ _ _ _ _ _ _ conform small outer.length (by omega)
      rw [List.take_left' rfl] at run
      have inner := leaves_count (k := outer.length) (by omega) conform
      have product := leaves_count le_rfl conform
      rw [List.take_left' rfl] at inner
      rw [List.take_length, List.map_append, List.prod_append, ← inner, List.map_singleton,
        List.prod_singleton] at product
      have total : ((leaves outer.length v).length : Int) *
          (encodedArraySize p (scope.dimSize d % 2 ^ 32).toNat : Nat) =
          ((leaves (outer ++ [d]).length v).length * p.size : Nat) := row_total product bytes
      rw [sizePrims, last]
      simp only [List.dropLast_concat, run, ok_bind]
      cases long with
      | true =>
          rw [if_pos rfl]
          exact times_eq true total bytes
      | false => rw [if_neg Bool.false_ne_true, total]

theorem sizeBits_eq {width : Nat} (bits : (leaves ds.length v).length * width < 2 ^ 31) :
    sizeBits all width scope ds = .ok ((leaves ds.length v).length * width : Nat) := by
  obtain ⟨long, run⟩ := @sizesProduct_leaves all _ _ _ _ _ _ _ conform small _ le_rfl
  rw [List.take_length] at run
  rw [sizeBits, run, ok_bind]
  exact times_eq long (by push_cast; rfl) bits

end Numbers

section Dims

variable {callee : String → Value → Except Abort Nat} {little : Bool} {bytes : String → List Value → List Byte}
  {conforms : String → List Value → Prop}

def Sizes (callee : String → Value → Except Abort Nat) (bytes : String → List Value → List Byte)
    (conforms : String → List Value → Prop) : Prop :=
  ∀ name fields, conforms name (Value.mapTexts cut fields) →
    (bytes name (Value.mapTexts whole fields)).length < 2 ^ 31 →
    Value.cellsOf fields < 2 ^ 31 →
      callee name (.struct fields) = .ok (bytes name (Value.mapTexts whole fields)).length

def leafSize (little : Bool) (bytes : String → List Value → List Byte) (t : Typename) (v : Value) : Nat :=
  (leafBytes little bytes t (v.mapText whole)).length

variable (nested : Sizes callee bytes conforms) {m : Member} {scope : Scope} {size : Nat} {v : Value}

include nested in
theorem sizeLeaf_eq {t : Typename} (other : t.isNumber = false) (conform : ConformsLeaf conforms t (v.mapText cut))
    (cells : v.cells < 2 ^ 31) (room : size + leafSize little bytes t v < 2 ^ 31) :
    sizeLeaf callee t size v = .ok (size + leafSize little bytes t v) := by
  cases t with
  | prim p => cases other
  | bits p numbits signExtend => cases other
  | string =>
      cases v with
      | str chars =>
          have length : leafSize little bytes .string (.str chars) = chars.length + 4 + 1 := by
            simp only [leafSize, Value.mapText, leafBytes, whole, List.length_append, numBytes_length,
              List.length_singleton, Prim.size]
            omega
          rw [length] at room ⊢
          rw [sizeLeaf, Cpp.chars, u32_of_lt (by omega)]
      | _ => cases conform
  | user name =>
      cases v with
      | struct fields =>
          simp only [leafSize, Value.mapText, leafBytes, Value.cells] at room cells ⊢
          have call := nested name fields conform (by omega) (by omega)
          rw [sizeLeaf, call, ok_bind, u32_of_lt (by omega)]
      | _ => cases conform

theorem foldlM_sum {step : Nat → Value → Except Abort Nat} {part : Value → Nat} {items : List Value}
    (each : ∀ v ∈ items, ∀ size, size + part v < 2 ^ 31 → step size v = .ok (size + part v))
    (room : size + (items.map part).sum < 2 ^ 31) :
    items.foldlM step size = .ok (size + (items.map part).sum) := by
  induction items generalizing size with
  | nil => rfl
  | cons v items ih =>
      rw [List.map_cons, List.sum_cons] at room ⊢
      rw [List.foldlM_cons, each v List.mem_cons_self size (by omega), ok_bind,
        ih (fun w member => each w (List.mem_cons_of_mem v member)) (by omega), Nat.add_assoc]

theorem sum_leaves (k : Nat) (items : List Value) (f : Value → Nat) :
    ((items.flatMap (leaves k)).map f).sum = (items.map fun v => ((leaves k v).map f).sum).sum := by
  rw [List.map_flatMap, List.flatMap_def, List.sum_flatten, List.map_map]
  rfl

theorem cells_item {items : List Value} (member : v ∈ items) : v.cells ≤ (Value.array items).cells := by
  rw [Value.cells, Value.cellsOf_eq]
  have le := List.single_le_sum (l := items.map Value.cells) (fun _ _ => Nat.zero_le _) _ (List.mem_map_of_mem member)
  omega

include nested in
theorem sizeDims_eq (accepted : m.type.accepted = true) (other : m.type.isNumber = false) {ds : List Dimension}
    (conform : ConformsDims Demands.within conforms m.type (m.extentsFrom scope ds) (v.mapText cut))
    (cells : v.cells < 2 ^ 31)
    (room : size + ((leaves ds.length v).map (leafSize little bytes m.type)).sum < 2 ^ 31) :
    sizeDims callee m scope ds size v = .ok (size + ((leaves ds.length v).map (leafSize little bytes m.type)).sum) := by
  induction ds generalizing v size with
  | nil =>
      simp only [List.length_nil, leaves, List.map_singleton, List.sum_singleton] at room ⊢
      exact sizeLeaf_eq nested other conform cells room
  | cons d ds ih =>
      cases v with
      | array items =>
          obtain ⟨span, count, each⟩ := conform
          simp only [Value.mapTexts_eq, List.length_map] at count each
          have positive : 0 ≤ scope.dimSize d := by rw [← count]; exact Int.natCast_nonneg _
          have small := (@count_lt _ accepted _ items.length (by rw [count]; exact span)).2
          have taken : (Cpp.items (.array items)).take (scope.dimSize d).toNat = items := by
            rw [← count, Cpp.items, Int.toNat_natCast, List.take_length]
          rw [List.length_cons, leaves, sum_leaves] at room ⊢
          have loop : items.foldlM (sizeDims callee m scope ds) size = .ok (size +
              (items.map fun v => ((leaves ds.length v).map (leafSize little bytes m.type)).sum).sum) :=
            foldlM_sum (fun v member size room =>
              ih (each _ (List.mem_map_of_mem member)) ((cells_item member).trans_lt cells) room) room
          rw [sizeDims]
          simp only [taken, loop, ok_bind]
          rw [if_pos (by omega)]
      | _ => cases conform

theorem leaves_size (k : Nat) (t : Typename) (v : Value) :
    ((leaves k (v.mapText whole)).flatMap (leafBytes little bytes t)).length =
      ((leaves k v).map (leafSize little bytes t)).sum := by
  rw [leaves_mapText, List.flatMap_map, List.length_flatMap]
  rfl

theorem conforms_leaves {demands : Demands} {t : Typename} {ds : List Dimension}
    (conform : ConformsDims demands conforms t (m.extentsFrom scope ds) (v.mapText cut)) :
    ∀ l ∈ leaves ds.length v, ConformsLeaf conforms t (l.mapText cut) := by
  intro l member
  have length : (m.extentsFrom scope ds).length = ds.length := by
    clear conform member
    induction ds with
    | nil => rfl
    | cons d ds ih => rw [Member.extentsFrom, List.length_cons, ih, List.length_cons]
  have all := conform.leaves
  rw [length, leaves_mapText] at all
  exact all _ (List.mem_map_of_mem member)

theorem prims_size {p : Prim} {ls : List Value}
    (conform : ∀ l ∈ ls, ConformsLeaf conforms (.prim p) (l.mapText cut)) :
    (ls.map (leafSize little bytes (.prim p))).sum = ls.length * p.size := by
  have each : ∀ l ∈ ls, leafSize little bytes (.prim p) l = p.size := by
    intro l member
    cases l with
    | num n => exact numBytes_length little p n
    | _ => cases conform _ member
  rw [List.map_congr_left each, List.map_const', List.sum_replicate_nat]

theorem bits_size {p : Prim} {numbits : Nat} {signExtend : Bool} {ls : List Value}
    (conform : ∀ l ∈ ls, ConformsLeaf conforms (.bits p numbits signExtend) (l.mapText cut)) :
    ((ls.map (Value.mapText whole)).flatMap (bitsOf numbits)).length = ls.length * numbits := by
  have each : ∀ l ∈ ls, (bitsOf numbits (l.mapText whole)).length = numbits := by
    intro l member
    cases l with
    | num n => exact toBits_length numbits n
    | _ => cases conform _ member
  rw [List.flatMap_map, List.length_flatMap, List.map_congr_left each, List.map_const', List.sum_replicate_nat]

theorem leaves_fit (cells : v.cells < 2 ^ 31) (k : Nat) : (leaves k v).length < 2 ^ 31 :=
  (leaves_le_cells k v).trans_lt cells

theorem pack_le_wireFields (pending : List Bool) (ms : List Member) (vs : List Value) :
    (pack pending).length ≤ (wireFields little bytes pending ms vs).length := by
  obtain ⟨more, unpacked⟩ := @unpack_wireFields little bytes pending ms vs
  have length := congrArg List.length unpacked
  rw [unpack_length, List.length_append] at length
  rw [pack_length, packedSize]
  omega

theorem closed_size {inBitMode : Bool} {numbits : Nat} {pending : List Bool} (mode : inBitMode = false → pending = [])
    (count : inBitMode = true → numbits = pending.length) (run : pending.length < 2 ^ 31)
    (small : size + (pack pending).length < 2 ^ 31) :
    (if inBitMode then u32 (size + bitfieldEncodedSize numbits) else size) = size + (pack pending).length := by
  cases inBitMode with
  | false =>
      rw [mode rfl]
      rfl
  | true =>
      rw [pack_length, packedSize] at small ⊢
      rw [if_pos rfl, count rfl, bitfieldEncodedSize_eq (by omega), u32_of_lt (by omega)]

theorem asU32_add {a b : Nat} (small : a + b < 2 ^ 31) : asU32 ((a : Int) + (b : Nat)) = a + b := by
  rw [asU32]
  omega

include nested in
theorem sizeFields_bytes {all ms : List Member} {vs : List Value} {inBitMode : Bool} {numbits behind : Nat}
    (accepted : m.type.accepted = true) (notBits : m.type.isBits = false)
    (opened : (if inBitMode then u32 (size + bitfieldEncodedSize numbits) else size) = behind)
    (conform : ConformsDims Demands.within conforms m.type (m.extents scope) (v.mapText cut)) (cells : v.cells < 2 ^ 31)
    (room : behind + ((leaves m.dimensions.length v).map (leafSize little bytes m.type)).sum < 2 ^ 31) :
    sizeFields callee all scope inBitMode numbits (m :: ms) size (v :: vs) =
      sizeFields callee all (scope.push m v) false (if inBitMode then numbits else 0) ms
        (behind + ((leaves m.dimensions.length v).map (leafSize little bytes m.type)).sum) vs := by
  have leaf := conforms_leaves conform
  have fit (k : Nat) : (leaves k (v.mapText cut)).length < 2 ^ 31 := by
    rw [leaves_mapText, List.length_map]
    exact leaves_fit cells k
  cases type : m.type with
  | bits => rw [type] at notBits; cases notBits
  | prim p =>
      rw [type] at conform leaf room
      rw [prims_size leaf] at room ⊢
      have total := @sizePrims_eq all _ _ _ _ _ _ _ conform (fun k _ => fit k) p
        (by rw [leaves_mapText, List.length_map]; omega)
      rw [leaves_mapText, List.length_map] at total
      rw [sizeFields]
      simp only [type, Typename.isBits, Bool.not_false, Bool.and_true, opened, List.headD_cons, List.tail_cons, total,
        ok_bind, asU32_add room]
  | string =>
      have run := sizeDims_eq nested accepted (by rw [type]; rfl) conform cells room
      rw [type] at run
      rw [sizeFields]
      simp only [type, Typename.isBits, Bool.not_false, Bool.and_true, opened, List.headD_cons, List.tail_cons, run,
        ok_bind]
  | user name =>
      have run := sizeDims_eq nested accepted (by rw [type]; rfl) conform cells room
      rw [type] at run
      rw [sizeFields]
      simp only [type, Typename.isBits, Bool.not_false, Bool.and_true, opened, List.headD_cons, List.tail_cons, run,
        ok_bind]

theorem sizeFields_bits {all ms : List Member} {vs : List Value} {inBitMode : Bool} {numbits before : Nat} {p : Prim}
    {width : Nat} {signExtend : Bool} (type : m.type = .bits p width signExtend)
    (opened : (if inBitMode then numbits else 0) = before)
    (conform : ConformsDims Demands.within conforms m.type (m.extents scope) (v.mapText cut)) (cells : v.cells < 2 ^ 31)
    (room : before + (leaves m.dimensions.length v).length * width < 2 ^ 31) :
    sizeFields callee all scope inBitMode numbits (m :: ms) size (v :: vs) =
      sizeFields callee all (scope.push m v) true (before + (leaves m.dimensions.length v).length * width) ms size
        vs := by
  have fit (k : Nat) : (leaves k (v.mapText cut)).length < 2 ^ 31 := by
    rw [leaves_mapText, List.length_map]
    exact leaves_fit cells k
  have total := @sizeBits_eq all _ _ _ _ _ _ _ conform (fun k _ => fit k) width
    (by rw [leaves_mapText, List.length_map]; omega)
  rw [leaves_mapText, List.length_map] at total
  rw [sizeFields]
  simp only [type, Typename.isBits, Bool.not_true, Bool.and_false, Bool.false_eq_true, if_false, opened,
    List.headD_cons, List.tail_cons, total, ok_bind, asU32_add room]

include nested in
theorem sizeFields_eq {all : List Member} (ms : List Member) (accepted : ∀ m ∈ ms, m.type.accepted = true)
    (vs : List Value) (scope : Scope) (inBitMode : Bool) (numbits size : Nat) (pending : List Bool)
    (mode : inBitMode = false → pending = []) (count : inBitMode = true → numbits = pending.length)
    (conform : ConformsFields Demands.within conforms scope pending.length ms (Value.mapTexts cut vs))
    (run : pending.length < 2 ^ 31) (cells : Value.cellsOf vs < 2 ^ 31)
    (room : size + (wireFields little bytes pending ms (Value.mapTexts whole vs)).length < 2 ^ 31) :
    sizeFields callee all scope inBitMode numbits ms size vs =
      .ok (size + (wireFields little bytes pending ms (Value.mapTexts whole vs)).length) := by
  induction ms generalizing vs scope inBitMode numbits size pending with
  | nil =>
      cases vs with
      | cons v vs => cases conform
      | nil =>
          have packed := @pack_le_wireFields little bytes pending [] []
          have closed := @closed_size size _ _ _ mode count run (by rw [Value.mapTexts] at room; omega)
          rw [Value.mapTexts, wireFields, sizeFields, closed]
          all_goals simp
  | cons m ms ih =>
      cases vs with
      | nil => cases conform
      | cons v vs =>
          obtain ⟨first, next, -, later⟩ := conform
          rw [push_mapText] at later
          rw [Value.cellsOf] at cells
          have acceptedHere := accepted m List.mem_cons_self
          have ih := fun inBitMode numbits size pending =>
            ih (fun m' member => accepted m' (List.mem_cons_of_mem m member)) vs (scope.push m v) inBitMode numbits size
              pending
          rw [Value.mapTexts] at room ⊢
          have closed := @closed_size size _ _ _ mode count run (by
            have packed := @pack_le_wireFields little bytes pending (m :: ms)
              (v.mapText whole :: Value.mapTexts whole vs)
            omega)
          cases isBits : m.type.isBits with
          | true =>
              obtain ⟨p, width, signExtend, type⟩ := exists_bits isBits
              have leaf := conforms_leaves first
              rw [type] at leaf
              have bits := bits_size leaf
              rw [← leaves_mapText] at bits
              have number : (if inBitMode then numbits else 0) = pending.length := by
                cases inBitMode with
                | false => rw [mode rfl]; rfl
                | true => exact count rfl
              have after : runAfter pending.length m (v.mapText cut) =
                  (pending ++ (leaves m.dimensions.length (v.mapText whole)).flatMap (bitsOf width)).length := by
                rw [runAfter, type, List.length_append, bits, leaves_mapText, List.length_map]
              rw [after] at later next
              have longer : pending.length + (leaves m.dimensions.length v).length * width < 2 ^ 31 := by
                rw [← bits, ← List.length_append]
                exact next
              rw [wireFields_bits type] at room ⊢
              rw [sizeFields_bits type number first (by omega) longer]
              exact ih true _ size _ (by simp) (fun _ => by rw [List.length_append, bits]) later next (by omega) room
          | false =>
              rw [wireFields_bytes isBits] at room ⊢
              have after : runAfter pending.length m (v.mapText cut) = ([] : List Bool).length := by
                cases type : m.type with
                | bits => rw [type] at isBits; cases isBits
                | _ => rw [runAfter, type]; rfl
              rw [after] at later
              simp only [List.length_append, leaves_size] at room ⊢
              have step := @sizeFields_bytes _ little _ _ nested _ _ _ _ all ms vs _ _ _ acceptedHere isBits closed
                first (by omega) (by omega)
              rw [step,
                ih false _ _ [] (fun _ => rfl) (by simp) later (by simp) (by omega) (by omega)]
              congr 1
              omega

end Dims

theorem getEncodedSizeNoHash_eq {Γ : Env} (accepted : Accepted Γ) (little : Bool) (depth : Nat) :
    Sizes (getEncodedSizeNoHash Γ depth) (wire Γ little depth) (Conforms Γ Demands.within depth) := by
  induction depth with
  | zero =>
      intro name fields conform
      cases conform
  | succ depth ih =>
      intro name fields ⟨s, found, conform⟩ small cells
      simp only [wire, found] at small ⊢
      have run := @sizeFields_eq _ little _ _ ih s.members s.members (accepted s (List.mem_of_find?_eq_some found))
        fields [] false 0 0 [] (fun _ => rfl) (by simp) conform (by simp) cells (by omega)
      rw [Nat.zero_add] at run
      simp only [getEncodedSizeNoHash, found, Cpp.fields]
      exact run

end Zcm.Cpp
