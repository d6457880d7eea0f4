import Zcm.Coretypes.EncodeExact
import Zcm.Cpp.Encode
import Zcm.Cpp.Forgets
import Zcm.Gen.Texts
import Zcm.Gen.Within

namespace Zcm.Cpp
open Zcm.Lib Zcm.Gen Zcm.Coretypes

section Text

theorem encodeArray_take (little : Bool) (p : Prim) (buf : Mem Byte) (offset maxlen : Nat) (ps : List Nat)
    (elements : Nat) : encodeArray little p buf offset maxlen (ps.take elements) elements =
      encodeArray little p buf offset maxlen ps elements := by
  cases p <;> simp only [encodeArray, encodeWords, encodeBytes, List.take_take, Nat.min_self]

theorem stringEncodeElement_terminated (little : Bool) (offset maxlen : Nat) (st : Nat × Mem Byte) {chars : List Byte}
    (noNul : 0 ∉ chars) (rest : List Byte) (small : chars.length + 1 < 2 ^ 32) :
    stringEncodeElement little offset maxlen st (chars ++ 0 :: rest) =
      stringEncodeElement little offset maxlen st (chars ++ [0]) := by
  have taken : ((chars ++ 0 :: rest).map fun b : Byte => b.toNat).take (chars.length + 1) =
      (chars ++ [0]).map fun b : Byte => b.toNat := by
    rw [← List.map_take, List.append_cons, List.take_left' (by simp)]
  have same (buf : Mem Byte) (offset maxlen : Nat) := encodeArray_take little .int8_t buf offset maxlen
    ((chars ++ 0 :: rest).map fun b : Byte => b.toNat) (chars.length + 1)
  simp only [taken] at same
  simp only [stringEncodeElement, strlen_terminated noNul, u32_of_lt small, same]

theorem stringEncodeArray_terminated (little : Bool) (buf : Mem Byte) (offset maxlen : Nat) {chars : List Byte}
    (noNul : 0 ∉ chars) (rest : List Byte) (small : chars.length + 1 < 2 ^ 32) :
    stringEncodeArray little buf offset maxlen [chars ++ 0 :: rest] 1 =
      stringEncodeArray little buf offset maxlen [chars ++ [0]] 1 := by
  have one (block : List Byte) : [block].take 1 = [block] := rfl
  rw [stringEncodeArray, stringEncodeArray, one, one, List.foldlM_cons, List.foldlM_cons,
    stringEncodeElement_terminated little offset maxlen _ noNul rest small]

end Text

def cut (chars : List Byte) : List Byte := chars.takeWhile (· ≠ 0) ++ [0]

theorem cut_spec (chars : List Byte) :
    ∃ plain rest, 0 ∉ plain ∧ cut chars = plain ++ [0] ∧ chars ++ [0] = plain ++ 0 :: rest := by
  induction chars with
  | nil => exact ⟨[], [], List.not_mem_nil, rfl, rfl⟩
  | cons b chars ih =>
      obtain ⟨plain, rest, noNul, same, split⟩ := ih
      by_cases zero : b = 0
      · exact ⟨[], chars ++ [0], List.not_mem_nil, by simp [cut, zero], by simp [zero]⟩
      · refine ⟨b :: plain, rest, ?_, ?_, ?_⟩
        · simp only [List.mem_cons, not_or]
          exact ⟨Ne.symm zero, noNul⟩
        · rw [cut, List.takeWhile_cons_of_pos (by simpa using zero), List.cons_append, List.cons_append, ← same, cut]
        · rw [List.cons_append, split, List.cons_append]

def written (m : Mem Byte) (offset : Nat) (bs : List Bool) : BitPos × Mem Byte :=
  (⟨bs.length / 8, bs.length % 8⟩, m.write offset (pack bs))

section Written

variable (m : Mem Byte) {offset : Nat} {bs : List Bool}

theorem pack_whole (aligned : bs.length % 8 = 0) (bytes : List Byte) :
    pack (bs ++ unpack bytes) = pack bs ++ bytes := by
  rw [pack_append (q := bs.length / 8) (by omega), pack_unpack]

theorem written_bytes (aligned : bs.length % 8 = 0) (bytes : List Byte) :
    written m offset (bs ++ unpack bytes) =
      (⟨bs.length / 8 + bytes.length, 0⟩, (m.write offset (pack bs)).write (offset + bs.length / 8) bytes) := by
  have size : (pack bs).length = bs.length / 8 := by
    rw [pack_length, packedSize]
    omega
  rw [written, pack_whole aligned, Mem.write_append, size, List.length_append, unpack_length]
  congr 2 <;> omega

theorem closeBits_eq {n : Nat} (fits : packedSize n < 2 ^ 32) :
    closeBits ⟨n / 8, n % 8⟩ = ⟨packedSize n, 0⟩ := by
  simp only [packedSize] at fits ⊢
  simp only [closeBits]
  split
  · rw [u32_of_lt (by omega)]
    congr 1
    omega
  · congr 1
    omega

theorem closeBits_written (fits : packedSize bs.length < 2 ^ 32) :
    (closeBits (written m offset bs).1, (written m offset bs).2) = written m offset (align bs) := by
  rw [written, written, closeBits_eq fits, pack_align, align_length]
  congr 2 <;> omega

end Written

section LeafBits

variable (little : Bool) (bytes : String → List Value → List Byte)

def leafBits (t : Typename) (v : Value) : List Bool :=
  match t with
  | .bits _ numbits _ => bitsOf numbits v
  | t => unpack (leafBytes little bytes t v)

theorem leafBits_bits (p : Prim) (numbits : Nat) (signExtend : Bool) (v : Value) :
    leafBits little bytes (.bits p numbits signExtend) v = bitsOf numbits v := rfl

theorem leafBits_bytes {t : Typename} (notBits : t.isBits = false) (v : Value) :
    leafBits little bytes t v = unpack (leafBytes little bytes t v) := by
  cases t with
  | bits => cases notBits
  | _ => rfl

theorem flatMap_leafBits {t : Typename} (notBits : t.isBits = false) (ls : List Value) :
    ls.flatMap (leafBits little bytes t) = unpack (ls.flatMap (leafBytes little bytes t)) := by
  rw [unpack, List.flatMap_assoc]
  exact List.flatMap_congr fun v _ => leafBits_bytes little bytes notBits v

end LeafBits

theorem flatMap_toBits_length (numbits : Nat) (ns : List Nat) :
    (ns.flatMap (toBits numbits)).length = ns.length * numbits := by
  simp

section Encode

variable {options : Options} {offset maxlen : Nat} (fits : offset + maxlen < 2 ^ 32) (half : maxlen < 2 ^ 31)
  {m : Mem Byte} {bs : List Bool}

theorem returned_ok (n : Nat) (buf : Mem Byte) : returned ((n : Int), buf) = .ok (n, buf) := by
  rw [returned, if_neg (by simp)]
  rfl

include fits half

theorem encodePrims_written {p : Prim} {ns : List Nat} (aligned : bs.length % 8 = 0)
    (room : bs.length / 8 + p.size * ns.length ≤ maxlen) :
    encodeElements options offset maxlen (.prim p) ns.length ns (written m offset bs) =
      .ok (written m offset (bs ++ unpack (ns.flatMap (numBytes options.littleEndianEncoding p)))) := by
  have start : u32 (offset + bs.length / 8) = offset + bs.length / 8 := u32_of_lt (by omega)
  have left : u32Sub maxlen (bs.length / 8) = maxlen - bs.length / 8 := u32Sub_of_le (by omega) (by omega)
  have next : u32 (bs.length / 8 + p.size * ns.length) = bs.length / 8 + p.size * ns.length := u32_of_lt (by omega)
  have call := encodeArray_eq options.littleEndianEncoding p (m.write offset (pack bs))
    (show p.size * ns.length < 2 ^ 31 by omega) (show p.size * ns.length ≤ maxlen - bs.length / 8 by omega)
    (show offset + bs.length / 8 + (maxlen - bs.length / 8) ≤ 2 ^ 32 by omega)
  rw [written_bytes m aligned, flatMap_numBytes_length, written]
  simp only [encodeElements, start, left, call, returned_ok, ok_bind, next, aligned]

theorem encodeBits_written {p : Prim} {numbits : Nat} {signExtend : Bool} {ns : List Nat}
    (small : ns.length * numbits < 2 ^ 31) (room : packedSize (bs.length + ns.length * numbits) ≤ maxlen) :
    encodeElements options offset maxlen (.bits p numbits signExtend) ns.length ns (written m offset bs) =
      .ok (written m offset (bs ++ ns.flatMap (toBits numbits))) := by
  rw [packedSize] at room
  have start : u32 (offset + bs.length / 8) = offset + bs.length / 8 := u32_of_lt (by omega)
  have left : u32Sub maxlen (bs.length / 8) = maxlen - bs.length / 8 := u32Sub_of_le (by omega) (by omega)
  have call := @encodeArrayBits_eq m offset (maxlen - bs.length / 8) numbits ns bs small (by omega) (by omega)
  have advanced := @bitfieldAdvanceOffset_eq 0 bs.length (ns.length * numbits) (by omega)
  rw [Nat.zero_add, Nat.zero_add] at advanced
  rw [written, written, List.length_append, flatMap_toBits_length]
  simp only [encodeElements, start, left, call, returned_ok, ok_bind, advanced]

theorem encodeString_written {chars : List Byte} (aligned : bs.length % 8 = 0)
    (room : bs.length / 8 + (textBytes options.littleEndianEncoding (cut chars)).length ≤ maxlen)
    (callee : String → Nat → Nat → Value → Mem Byte → Except Abort (Nat × Mem Byte)) :
    encodeLeaf options callee offset maxlen .string (written m offset bs) (.str chars) =
      .ok (written m offset (bs ++ unpack (textBytes options.littleEndianEncoding (cut chars)))) := by
  have start : u32 (offset + bs.length / 8) = offset + bs.length / 8 := u32_of_lt (by omega)
  have left : u32Sub maxlen (bs.length / 8) = maxlen - bs.length / 8 := u32Sub_of_le (by omega) (by omega)
  have next : u32 (bs.length / 8 + (textBytes options.littleEndianEncoding (cut chars)).length) =
      bs.length / 8 + (textBytes options.littleEndianEncoding (cut chars)).length := u32_of_lt (by omega)
  obtain ⟨plain, rest, noNul, same, split⟩ := cut_spec chars
  have size : plain.length + 1 < 2 ^ 32 := by
    rw [same, textBytes, List.length_append, List.length_append, List.length_singleton] at room
    omega
  have call : stringEncodeArray options.littleEndianEncoding (m.write offset (pack bs)) (offset + bs.length / 8)
      (maxlen - bs.length / 8) [chars ++ [0]] 1 =
      (((textBytes options.littleEndianEncoding (cut chars)).length : Int), (m.write offset (pack bs)).write
        (offset + bs.length / 8) (textBytes options.littleEndianEncoding (cut chars))) := by
    have exact := stringEncodeArray_eq options.littleEndianEncoding
      (show offset + bs.length / 8 + (maxlen - bs.length / 8) ≤ 2 ^ 32 by omega) (by omega) noNul
      (m.write offset (pack bs)) (by rw [← same]; omega) (by rw [← same]; omega)
    rw [same, ← exact, split]
    exact stringEncodeArray_terminated _ _ _ _ noNul rest size
  rw [written_bytes m aligned, written]
  simp only [encodeLeaf, cStr, Cpp.chars, start, left, call, returned_ok, ok_bind, next, aligned]

end Encode

section Dims

variable {options : Options} {callee : String → Nat → Nat → Value → Mem Byte → Except Abort (Nat × Mem Byte)}
  {offset maxlen : Nat} (fits : offset + maxlen < 2 ^ 32) (half : maxlen < 2 ^ 31)
  {bytes : String → List Value → List Byte} {demands : Demands} {conforms : String → List Value → Prop}

def Writes (callee : String → Nat → Nat → Value → Mem Byte → Except Abort (Nat × Mem Byte))
    (bytes : String → List Value → List Byte) (conforms : String → List Value → Prop) : Prop :=
  ∀ name fields offset maxlen buf, offset + maxlen < 2 ^ 32 → maxlen < 2 ^ 31 →
    conforms name (Value.mapTexts cut fields) → (bytes name (Value.mapTexts cut fields)).length ≤ maxlen →
    callee name offset maxlen (.struct fields) buf = .ok ((bytes name (Value.mapTexts cut fields)).length,
      buf.write offset (bytes name (Value.mapTexts cut fields)))

variable (nested : Writes callee bytes conforms) {m : Mem Byte} {bs : List Bool} {t : Typename}

theorem packedSize_bytes (aligned : bs.length % 8 = 0) (more : List Byte) :
    packedSize (bs ++ unpack more).length = bs.length / 8 + more.length := by
  rw [List.length_append, unpack_length, packedSize]
  omega

include fits half nested in
theorem encodeLeaf_written {v : Value} (accepted : t.accepted = true)
    (aligned : t.isBits = false → bs.length % 8 = 0) (conform : ConformsLeaf conforms t (v.mapText cut))
    (room : packedSize (bs ++ leafBits options.littleEndianEncoding bytes t (v.mapText cut)).length ≤ maxlen) :
    encodeLeaf options callee offset maxlen t (written m offset bs) v =
      .ok (written m offset (bs ++ leafBits options.littleEndianEncoding bytes t (v.mapText cut))) := by
  cases t with
  | prim p =>
      cases v with
      | num n =>
          have whole := aligned rfl
          rw [leafBits_bytes _ _ rfl, packedSize_bytes whole] at room
          have call := @encodePrims_written options offset maxlen fits half m bs p [n] whole
            (by simpa [Value.mapText, leafBytes] using room)
          rw [List.flatMap_singleton] at call
          rw [leafBits_bytes _ _ rfl]
          exact call
      | _ => cases conform
  | bits p numbits signExtend =>
      cases v with
      | num n =>
          have size := p.size_le
          have width := (numbits_le accepted).2
          have call := @encodeBits_written options offset maxlen fits half m bs p numbits signExtend [n]
            (by simp only [List.length_singleton]; omega)
            (by simpa [Value.mapText, leafBits_bits, bitsOf] using room)
          rw [List.flatMap_singleton] at call
          exact call
      | _ => cases conform
  | string =>
      cases v with
      | str chars =>
          have whole := aligned rfl
          rw [leafBits_bytes _ _ rfl, packedSize_bytes whole] at room
          rw [leafBits_bytes _ _ rfl]
          exact encodeString_written fits half whole room callee
      | _ => cases conform
  | user name =>
      cases v with
      | struct fields =>
          have whole := aligned rfl
          rw [leafBits_bytes _ _ rfl, packedSize_bytes whole] at room
          rw [leafBits_bytes _ _ rfl, written_bytes m whole, written]
          simp only [Value.mapText, leafBytes] at room ⊢
          have start : u32 (offset + bs.length / 8) = offset + bs.length / 8 := u32_of_lt (by omega)
          have left : u32Sub maxlen (bs.length / 8) = maxlen - bs.length / 8 := u32Sub_of_le (by omega) (by omega)
          have call := nested name fields (offset + bs.length / 8) (maxlen - bs.length / 8)
            (m.write offset (pack bs)) (by omega) (by omega) conform (by omega)
          simp only [encodeLeaf, start, left, call, ok_bind, whole]
          rw [u32_of_lt (by omega)]
      | _ => cases conform

theorem aligned_append (little : Bool) (aligned : t.isBits = false → bs.length % 8 = 0) (ls : List Value) :
    t.isBits = false → (bs ++ ls.flatMap (leafBits little bytes t)).length % 8 = 0 := by
  intro notBits
  have here := aligned notBits
  rw [flatMap_leafBits little bytes notBits, List.length_append, unpack_length]
  omega

theorem leafBits_flatMap_pattern (little : Bool) {row : List Value}
    (conform : ∀ v ∈ row, ConformsLeaf conforms t (v.mapText cut)) :
    (∀ p, t = .prim p → (row.map (Value.mapText cut)).flatMap (leafBits little bytes t) =
      unpack ((row.map pattern).flatMap (numBytes little p))) ∧
    ∀ p numbits signExtend, t = .bits p numbits signExtend →
      (row.map (Value.mapText cut)).flatMap (leafBits little bytes t) =
        (row.map pattern).flatMap (toBits numbits) := by
  constructor
  · rintro p rfl
    rw [flatMap_leafBits little bytes rfl, List.flatMap_map, List.flatMap_map]
    congr 1
    apply List.flatMap_congr
    intro v member
    cases v with
    | num n => rfl
    | _ => cases conform _ member
  · rintro p numbits signExtend rfl
    rw [List.flatMap_map, List.flatMap_map]
    apply List.flatMap_congr
    intro v member
    cases v with
    | num n => rfl
    | _ => cases conform _ member

include fits half in
theorem encodeRow_written {row : List Value} (isRow : isRow t [] = true)
    (aligned : t.isBits = false → bs.length % 8 = 0)
    (conform : ∀ v ∈ row, ConformsLeaf conforms t (v.mapText cut))
    (span : ∀ p numbits signExtend, t = .bits p numbits signExtend → row.length * numbits < 2 ^ 31)
    (room : packedSize (bs ++ (row.map (Value.mapText cut)).flatMap
      (leafBits options.littleEndianEncoding bytes t)).length ≤ maxlen) :
    encodeElements options offset maxlen t row.length (row.map pattern) (written m offset bs) =
      .ok (written m offset (bs ++ (row.map (Value.mapText cut)).flatMap
        (leafBits options.littleEndianEncoding bytes t))) := by
  obtain ⟨prims, fields⟩ := @leafBits_flatMap_pattern bytes conforms t options.littleEndianEncoding row conform
  have length : row.length = (row.map pattern).length := (List.length_map pattern).symm
  cases t with
  | prim p =>
      have whole := aligned rfl
      rw [prims p rfl, packedSize_bytes whole, flatMap_numBytes_length] at room
      rw [prims p rfl, length]
      exact encodePrims_written fits half whole room
  | bits p numbits signExtend =>
      rw [fields p numbits signExtend rfl, List.length_append, flatMap_toBits_length] at room
      rw [fields p numbits signExtend rfl, length]
      refine encodeBits_written fits half ?_ room
      rw [← length]
      exact span p numbits signExtend rfl
  | _ => cases isRow

theorem foldlM_written {step : BitPos × Mem Byte → Value → Except Abort (BitPos × Mem Byte)}
    {part : Value → List Bool} {good : List Bool → Prop} {items : List Value}
    (each : ∀ v ∈ items, ∀ bs, good bs → packedSize (bs ++ part v).length ≤ maxlen →
      step (written m offset bs) v = .ok (written m offset (bs ++ part v)) ∧ good (bs ++ part v))
    (here : good bs) (room : packedSize (bs ++ items.flatMap part).length ≤ maxlen) :
    items.foldlM step (written m offset bs) = .ok (written m offset (bs ++ items.flatMap part)) := by
  induction items generalizing bs with
  | nil => rw [List.flatMap_nil, List.append_nil, List.foldlM_nil]; rfl
  | cons v items ih =>
      rw [List.flatMap_cons, ← List.append_assoc] at room ⊢
      have shorter : packedSize (bs ++ part v).length ≤ packedSize (bs ++ part v ++ items.flatMap part).length := by
        simp only [packedSize, List.length_append]
        omega
      obtain ⟨first, next⟩ := each v List.mem_cons_self bs here (shorter.trans room)
      rw [List.foldlM_cons, first, ok_bind]
      exact ih (fun w member => each w (List.mem_cons_of_mem v member)) next room

include fits half nested in
theorem encodeDims_written {mb : Member} {scope : Scope} (accepted : mb.type.accepted = true) {ds : List Dimension}
    {v : Value} (aligned : mb.type.isBits = false → bs.length % 8 = 0)
    (conform : ConformsDims Demands.within conforms mb.type (mb.extentsFrom scope ds) (v.mapText cut))
    (room : packedSize (bs ++ (leaves ds.length (v.mapText cut)).flatMap
      (leafBits options.littleEndianEncoding bytes mb.type)).length ≤ maxlen) :
    encodeDims options callee offset maxlen mb scope ds (written m offset bs) v =
      .ok (written m offset (bs ++ (leaves ds.length (v.mapText cut)).flatMap
        (leafBits options.littleEndianEncoding bytes mb.type))) := by
  induction ds generalizing v bs with
  | nil =>
      simp only [List.length_nil, leaves, List.flatMap_singleton] at room ⊢
      exact encodeLeaf_written fits half nested accepted aligned conform room
  | cons d ds ih =>
      cases v with
      | array items =>
          obtain ⟨span, count, each⟩ := conform
          simp only [Value.mapTexts_eq, List.length_map] at count each
          simp only [Value.mapText, Value.mapTexts_eq, List.length_cons, leaves] at room ⊢
          have size : (scope.dimSize d).toNat = items.length := by rw [← count]; rfl
          have positive : 0 ≤ scope.dimSize d := by rw [← count]; exact Int.natCast_nonneg _
          obtain ⟨span, small⟩ := @count_lt _ accepted _ items.length (by rw [count]; exact span)
          rw [encodeDims]
          by_cases row : isRow mb.type ds = true
          · have last : ds = [] := by
              cases ds with
              | nil => rfl
              | cons => cases type : mb.type <;> simp [isRow, type] at row
            subst last
            have flat : (items.map (Value.mapText cut)).flatMap (leaves 0) = items.map (Value.mapText cut) := by
              simp [leaves]
            rw [List.length_nil, flat] at room ⊢
            have elements : (scope.dimSize d % 2 ^ 32).toNat = items.length := by omega
            simp only [if_pos row, elements]
            refine encodeRow_written fits half row aligned (fun v member => each _ (List.mem_map_of_mem member)) ?_ room
            rintro p numbits signExtend type
            simp only [List.isEmpty_nil, type, Typename.unit] at span
            rwa [Nat.mul_comm]
          · have taken : (Cpp.items (.array items)).take (scope.dimSize d).toNat = items := by
              rw [size, Cpp.items, List.take_length]
            have parts : ((items.map (Value.mapText cut)).flatMap (leaves ds.length)).flatMap
                (leafBits options.littleEndianEncoding bytes mb.type) =
                items.flatMap fun v => (leaves ds.length (v.mapText cut)).flatMap
                  (leafBits options.littleEndianEncoding bytes mb.type) := by
              rw [List.flatMap_assoc, List.flatMap_map]
            rw [parts] at room ⊢
            have loop := @foldlM_written offset maxlen m bs _ _ (fun bs => mb.type.isBits = false →
              bs.length % 8 = 0) items
              (fun v member bs here room => ⟨ih here (each _ (List.mem_map_of_mem member)) room,
                aligned_append _ here _⟩) aligned room
            simp only [if_neg row, taken, loop, ok_bind]
            rw [if_pos (by omega)]
      | _ => cases conform

theorem align_append (aligned : bs.length % 8 = 0) (more : List Bool) : align (bs ++ more) = bs ++ align more := by
  rw [align, align, List.append_assoc, List.length_append]
  simp only [packedSize]
  congr 3
  omega

include fits half nested in
theorem encodeMember_written {mb : Member} {scope : Scope} (accepted : mb.type.accepted = true) {v : Value}
    (aligned : mb.type.isBits = false → bs.length % 8 = 0)
    (conform : ConformsDims Demands.within conforms mb.type (mb.extents scope) (v.mapText cut))
    (room : packedSize (bs ++ (leaves mb.dimensions.length (v.mapText cut)).flatMap
      (leafBits options.littleEndianEncoding bytes mb.type)).length ≤ maxlen) :
    (if isGuarded mb scope then .ok (written m offset bs)
      else encodeDims options callee offset maxlen mb scope mb.dimensions (written m offset bs) v) =
      .ok (written m offset (bs ++ (leaves mb.dimensions.length (v.mapText cut)).flatMap
        (leafBits options.littleEndianEncoding bytes mb.type))) := by
  split
  next guarded =>
      rw [isGuarded] at guarded
      cases last : mb.dimensions.getLast? with
      | none => rw [last] at guarded; cases guarded
      | some d =>
          rw [last] at guarded
          simp only [Bool.and_eq_true, decide_eq_true_eq] at guarded
          rw [leaves_eq_nil conform (List.mem_of_getLast? last) guarded.2, List.flatMap_nil, List.append_nil]
  next => exact encodeDims_written fits half nested accepted aligned conform room

theorem closed_written {inBitMode : Bool} {done pending : List Bool} (aligned : done.length % 8 = 0)
    (mode : inBitMode = false → pending = []) (small : packedSize (done ++ pending).length < 2 ^ 32) :
    ((if inBitMode then closeBits (written m offset (done ++ pending)).1 else (written m offset (done ++ pending)).1),
      (written m offset (done ++ pending)).2) = written m offset (done ++ align pending) := by
  cases inBitMode with
  | false =>
      rw [mode rfl]
      rfl
  | true => rw [if_pos rfl, closeBits_written m small, align_append aligned]

theorem packedSize_mono {a b : Nat} (le : a ≤ b) : packedSize a ≤ packedSize b := by
  simp only [packedSize]
  omega

theorem encodeFields_cons {scope : Scope} {inBitMode : Bool} {mb : Member} {ms : List Member}
    {st closed next : BitPos × Mem Byte} {v : Value} {vs : List Value}
    (opened : ((if inBitMode && !mb.type.isBits then closeBits st.1 else st.1), st.2) = closed)
    (member : (if isGuarded mb scope then .ok closed
      else encodeDims options callee offset maxlen mb scope mb.dimensions closed v) = .ok next) :
    encodeFields options callee offset maxlen scope inBitMode (mb :: ms) st (v :: vs) =
      encodeFields options callee offset maxlen (scope.push mb v) mb.type.isBits ms next vs := by
  subst opened
  rw [encodeFields]
  simp only [List.headD_cons, List.tail_cons]
  split at member
  next guarded =>
      cases member
      rw [if_pos guarded, ok_bind]
  next unguarded => rw [if_neg unguarded, member, ok_bind]

include fits half nested in
theorem encodeFields_written (ms : List Member) (accepted : ∀ mb ∈ ms, mb.type.accepted = true) (vs : List Value)
    (scope : Scope) (run : Nat) (inBitMode : Bool) (done pending : List Bool) (aligned : done.length % 8 = 0)
    (mode : inBitMode = false → pending = [])
    (conform : ConformsFields Demands.within conforms scope run ms (Value.mapTexts cut vs))
    (room : packedSize (done ++ unpack (wireFields options.littleEndianEncoding bytes pending ms
      (Value.mapTexts cut vs))).length ≤ maxlen) :
    encodeFields options callee offset maxlen scope inBitMode ms (written m offset (done ++ pending)) vs =
      .ok (written m offset (done ++ unpack (wireFields options.littleEndianEncoding bytes pending ms
        (Value.mapTexts cut vs)))) := by
  induction ms generalizing vs scope run inBitMode done pending with
  | nil =>
      cases vs with
      | cons v vs => cases conform
      | nil =>
          rw [wireFields, unpack_pack_eq] at room ⊢
          · have small : packedSize (done ++ pending).length < 2 ^ 32 := by
              have mono := packedSize_mono (show (done ++ pending).length ≤ (done ++ align pending).length by
                simp [align])
              omega
            exact congrArg Except.ok (closed_written aligned mode small)
          all_goals simp
  | cons mb ms ih =>
      cases vs with
      | nil => cases conform
      | cons v vs =>
          obtain ⟨first, -, -, later⟩ := conform
          rw [push_mapText] at later
          have acceptedHere := accepted mb List.mem_cons_self
          have later := fun done pending aligned mode room =>
            ih (fun mb' member => accepted mb' (List.mem_cons_of_mem mb member)) vs _ _ mb.type.isBits done pending
              aligned mode later room
          rw [Value.mapTexts] at room ⊢
          cases isBits : mb.type.isBits with
          | true =>
              obtain ⟨p, numbits, signExtend, type⟩ := exists_bits isBits
              rw [wireFields_bits type] at room ⊢
              have same : (leaves mb.dimensions.length (v.mapText cut)).flatMap
                  (leafBits options.littleEndianEncoding bytes mb.type) =
                  (leaves mb.dimensions.length (v.mapText cut)).flatMap (bitsOf numbits) := by rw [type]; rfl
              obtain ⟨more, unpacked⟩ := @unpack_wireFields options.littleEndianEncoding bytes
                (pending ++ (leaves mb.dimensions.length (v.mapText cut)).flatMap (bitsOf numbits)) ms
                (Value.mapTexts cut vs)
              have inside : packedSize (done ++ pending ++ (leaves mb.dimensions.length (v.mapText cut)).flatMap
                  (leafBits options.littleEndianEncoding bytes mb.type)).length ≤ maxlen := by
                refine (packedSize_mono ?_).trans room
                rw [unpacked, same]
                simp only [List.length_append]
                omega
              have here := encodeMember_written fits half nested (m := m) acceptedHere (by simp [isBits]) first inside
              rw [encodeFields_cons (by simp [isBits]) here, same, List.append_assoc]
              exact later done _ aligned (by simp [isBits]) room
          | false =>
              rw [wireFields_bytes isBits] at room ⊢
              rw [unpack_append, unpack_append, unpack_pack_eq, ← List.append_assoc, ← List.append_assoc,
                ← flatMap_leafBits _ _ isBits] at room ⊢
              have closed : packedSize (done ++ pending).length < 2 ^ 32 := by
                refine lt_of_le_of_lt ((packedSize_mono ?_).trans room) (by omega)
                simp only [List.length_append, align]
                omega
              have inside : packedSize (done ++ align pending ++ (leaves mb.dimensions.length (v.mapText cut)).flatMap
                  (leafBits options.littleEndianEncoding bytes mb.type)).length ≤ maxlen := by
                refine (packedSize_mono ?_).trans room
                simp only [List.length_append]
                omega
              have whole : mb.type.isBits = false → (done ++ align pending).length % 8 = 0 := by
                intro _
                rw [List.length_append, align_length]
                omega
              have here := encodeMember_written fits half nested (m := m) acceptedHere whole first inside
              rw [encodeFields_cons (by simpa [isBits] using closed_written aligned mode closed) here]
              have rest := later _ [] (aligned_append _ whole _ isBits) (fun _ => rfl) room
              rwa [List.append_nil] at rest

end Dims

theorem encodeNoHash_written {Γ : Env} (accepted : Accepted Γ) (options : Options) (depth : Nat) :
    Writes (encodeNoHash Γ options depth) (wire Γ options.littleEndianEncoding depth)
      (Conforms Γ Demands.within depth) := by
  induction depth with
  | zero =>
      intro name fields offset maxlen buf _ _ conform
      cases conform
  | succ depth ih =>
      intro name fields offset maxlen buf fits half ⟨s, found, conform⟩ room
      simp only [wire, found] at room ⊢
      have empty : (⟨⟨0, 0⟩, buf⟩ : BitPos × Mem Byte) = written buf offset [] := by
        rw [written, pack_nil, Mem.write_nil]
        rfl
      have run := @encodeFields_written options _ _ _ fits half _ _ ih buf s.members
        (accepted s (List.mem_of_find?_eq_some found)) fields [] 0 false [] [] rfl (fun _ => rfl) conform
        (by rw [List.nil_append, packedSize, unpack_length]; omega)
      rw [List.nil_append, List.nil_append] at run
      simp only [encodeNoHash, found, empty, Cpp.fields]
      rw [run, ok_bind]
      generalize wireFields options.littleEndianEncoding (wire Γ options.littleEndianEncoding depth) [] s.members
        (Value.mapTexts cut fields) = bytes at room ⊢
      have count : (unpack bytes).length / 8 = bytes.length := by
        rw [unpack_length]
        omega
      simp only [written, count, pack_unpack, asInt_of_lt (show bytes.length < 2 ^ 31 by omega)]
      rw [if_neg (by omega)]

end Zcm.Cpp
