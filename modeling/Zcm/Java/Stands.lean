import Zcm.Java.OutputStream

namespace Zcm.Java
open Zcm.Lib Zcm.Coretypes

structure Stands (s : ZCMDataOutputStream) (bs : List Bool) : Prop where
  buf : ∃ base : Mem Byte, s.buf = base.write 0 (pack bs)
  pos_byte : s.pos_byte = bs.length / 8
  pos_bit : s.pos_bit = bs.length % 8
  room : packedSize bs.length ≤ s.length
  limit : s.length < 2 ^ 31

def clear (bs : List Bool) : List Bool := bs.take (8 * (bs.length / 8)) ++ List.replicate (bs.length % 8) false

@[simp] theorem clear_length (bs : List Bool) : (clear bs).length = bs.length := by
  rw [clear, List.length_append, List.length_take, List.length_replicate]
  omega

theorem clear_aligned {bs : List Bool} (aligned : bs.length % 8 = 0) : clear bs = bs := by
  rw [clear, aligned, List.replicate_zero, List.append_nil, List.take_of_length_le (by omega)]

section NewLength

theorem int_lt (n : Int) : int n < 2 ^ 31 := by
  have bound := Int.bmod_lt (x := n) (m := 2 ^ 32) (by decide)
  rw [int]
  omega

theorem int_of_lt {n : Nat} (lt : n < 2 ^ 31) : int n = n := Int.bmod_eq_of_le (by omega) (by omega)

theorem newLength_bounds {rounds : Nat} {newlen wanted m : Int} (small : newlen < 2 ^ 31)
    (found : newLength rounds newlen wanted = some m) : wanted ≤ m ∧ m < 2 ^ 31 := by
  induction rounds generalizing newlen with
  | zero => cases found
  | succ rounds ih =>
      rw [newLength] at found
      split at found
      next => exact ih (int_lt _) found
      next enough =>
          cases found
          exact ⟨by omega, small⟩

end NewLength

namespace Stands
variable {s : ZCMDataOutputStream} {bs : List Bool}

theorem new {capacity : Nat} (small : capacity < 2 ^ 31) : Stands (.new capacity) [] where
  buf := ⟨fun _ => 0, by rw [pack_nil, Mem.write_nil]; rfl⟩
  pos_byte := rfl
  pos_bit := rfl
  room := Nat.zero_le _
  limit := small

theorem read_front (stands : Stands s bs) : s.buf.read 0 s.pos_byte = pack (bs.take (8 * (bs.length / 8))) := by
  obtain ⟨base, written⟩ := stands.buf
  obtain ⟨full, part, parts, front, aligned, _, size⟩ := whole_part bs
  rw [written, stands.pos_byte, ← front, ← size]
  rw [parts, pack_append aligned, Mem.write_append,
    Mem.read_write_disjoint _ _ _ _ _ (.inl (by omega)), Mem.read_write_self]

theorem write_clear (bs : List Bool) :
    Mem.write (fun _ => (0 : Byte)) 0 (pack (bs.take (8 * (bs.length / 8)))) =
      Mem.write (fun _ => 0) 0 (pack (clear bs)) := by
  obtain ⟨full, part, parts, front, aligned, short, size⟩ := whole_part bs
  rw [clear, ← front, pack_append aligned, ← short]
  by_cases whole : part = []
  · rw [whole, List.length_nil, List.replicate_zero, pack_nil, List.append_nil]
  · have some : List.replicate part.length false ≠ [] := by simpa using whole
    rw [pack_of_le some (by rw [List.length_replicate]; omega), byteOf_zeros, Mem.write_concat]
    funext a
    rw [Mem.set, Function.update_apply]
    split
    next here => rw [Mem.write_outside _ _ _ _ (by omega)]
    next => rfl

theorem moved (stands : Stands s bs) {newlen : Nat} (room : packedSize bs.length ≤ newlen) (limit : newlen < 2 ^ 31) :
    Stands (s.moved newlen) (clear bs) where
  buf := ⟨fun _ => 0, by rw [← write_clear, ← stands.read_front]; rfl⟩
  pos_byte := by rw [clear_length]; exact stands.pos_byte
  pos_bit := by rw [clear_length]; exact stands.pos_bit
  room := by rw [clear_length]; exact room
  limit := limit

theorem ensureSpace_cases (stands : Stands s bs) {needed : Nat} (small : s.pos_byte + needed < 2 ^ 31) :
    (s.pos_byte + needed < s.length ∧ s.ensureSpace needed = some s) ∨
    (s.length ≤ s.pos_byte + needed ∧ newLength 33 s.length (s.pos_byte + needed : Nat) = none ∧
      s.ensureSpace needed = none) ∨
    (s.length ≤ s.pos_byte + needed ∧ ∃ newlen : Nat,
      newLength 33 s.length (s.pos_byte + needed : Nat) = some (newlen : Int) ∧ s.pos_byte + needed ≤ newlen ∧
      s.ensureSpace needed = some (s.moved newlen) ∧ Stands (s.moved newlen) (clear bs)) := by
  have wanted : int (s.pos_byte + needed) = (s.pos_byte + needed : Nat) := by
    rw [← Nat.cast_add, int_of_lt small]
  have room := stands.room
  rw [ZCMDataOutputStream.ensureSpace, wanted]
  by_cases inside : s.pos_byte + needed < s.length
  · exact .inl ⟨inside, if_neg (by omega)⟩
  · rw [if_pos (by omega)]
    have limit := stands.limit
    cases found : newLength 33 s.length (s.pos_byte + needed : Nat) with
    | none => exact .inr (.inl ⟨by omega, rfl, rfl⟩)
    | some m =>
        obtain ⟨enough, bound⟩ := newLength_bounds (by omega) found
        obtain ⟨newlen, rfl⟩ := Int.eq_ofNat_of_zero_le (show 0 ≤ m by omega)
        exact .inr (.inr ⟨by omega, newlen, rfl, by omega, rfl, stands.moved (by omega) (by omega)⟩)

theorem store (stands : Stands s bs) {bytes : List Byte} (aligned : bs.length % 8 = 0)
    (fits : s.pos_byte + bytes.length ≤ s.length) :
    ∃ s', s.store bytes = some s' ∧ Stands s' (bs ++ unpack bytes) := by
  obtain ⟨base, written⟩ := stands.buf
  have whole : bs.length = 8 * (bs.length / 8) := by omega
  have size : (pack bs).length = s.pos_byte := by
    rw [pack_length, packedSize, stands.pos_byte]
    omega
  have position := stands.pos_byte
  have more : (bs ++ unpack bytes).length = bs.length + 8 * bytes.length := by rw [List.length_append, unpack_length]
  refine ⟨_, if_pos fits, ?_, ?_, ?_, ?_, stands.limit⟩
  · refine ⟨base, ?_⟩
    rw [pack_append whole, pack_unpack, Mem.write_append, size, Nat.zero_add, ← written]
  · show s.pos_byte + bytes.length = _
    omega
  · show s.pos_bit = _
    rw [more, stands.pos_bit]
    omega
  · rw [more, packedSize]
    show _ ≤ s.length
    omega

theorem resetBits (stands : Stands s bs) : Stands s.resetBits (align bs) := by
  obtain ⟨base, written⟩ := stands.buf
  have bit := stands.pos_bit
  have byte := stands.pos_byte
  have room := stands.room
  rw [packedSize] at room
  rw [ZCMDataOutputStream.resetBits]
  split
  next part =>
    refine ⟨⟨base, by rw [pack_align]; exact written⟩, ?_, ?_, ?_, stands.limit⟩
    · rw [align_length, packedSize]
      show s.pos_byte + 1 = _
      omega
    · rw [align_length, packedSize]
      show 0 = _
      omega
    · rw [align_length, packedSize, packedSize]
      show _ ≤ s.length
      omega
  next whole =>
    rw [not_not] at whole
    have same : align bs = bs := by
      rw [align, packedSize, show 8 * ((bs.length + 7) / 8) - bs.length = 0 by omega, List.replicate_zero,
        List.append_nil]
    rw [same]
    exact stands

theorem pending_iff (stands : Stands s bs) : (s.pos_bit = 0 ∨ s.buf s.pos_byte = 0) ↔ clear bs = bs := by
  obtain ⟨base, written⟩ := stands.buf
  by_cases whole : bs.length % 8 = 0
  · exact iff_of_true (.inl (stands.pos_bit.trans whole)) (clear_aligned whole)
  · obtain ⟨full, part, parts, front, aligned, short, size⟩ := whole_part bs
    have some : part ≠ [] := List.ne_nil_of_length_pos (by omega)
    have byte : s.buf s.pos_byte = byteOf part := by
      rw [written, stands.pos_byte, ← size]
      rw [parts, pack_append aligned, pack_of_le some (by omega), Mem.write_concat, Nat.zero_add, Mem.set_self]
    have cleared : clear bs = full ++ List.replicate part.length false := by rw [clear, ← front, ← short]
    rw [byte, cleared, stands.pos_bit, or_iff_right whole]
    conv => rhs; rhs; rw [parts]
    rw [List.append_cancel_left_eq]
    constructor
    · intro zero
      exact (byteOf_eq_zero (by omega) zero).symm
    · intro same
      rw [← same, byteOf_zeros]

theorem writeBitsLoop (stands : Stands s bs) (value : Nat) {rounds bitsLeft : Nat} (enough : bitsLeft ≤ rounds)
    (fits : packedSize (bs.length + bitsLeft) ≤ s.length) :
    ∃ s', ZCMDataOutputStream.writeBitsLoop value rounds bitsLeft s = some s' ∧
      Stands s' (bs ++ toBits bitsLeft value) := by
  have loop : ∀ (rounds bitsLeft : Nat) (s : ZCMDataOutputStream), bitsLeft ≤ rounds → s.pos_bit < 8 →
      s.pos_byte + (s.pos_bit + bitsLeft + 7) / 8 ≤ s.length → s.length < 2 ^ 31 →
      ZCMDataOutputStream.writeBitsLoop value rounds bitsLeft s =
        some { s with
          buf := (encodeBits value rounds bitsLeft ⟨s.pos_byte, s.pos_bit⟩ s.buf).2
          pos_byte := (encodeBits value rounds bitsLeft ⟨s.pos_byte, s.pos_bit⟩ s.buf).1.byte
          pos_bit := (encodeBits value rounds bitsLeft ⟨s.pos_byte, s.pos_bit⟩ s.buf).1.bit } := by
    intro rounds
    induction rounds with
    | zero => intros; rfl
    | succ rounds ih =>
        intro bitsLeft s enough bit fits limit
        rw [ZCMDataOutputStream.writeBitsLoop, encodeBits]
        by_cases none : bitsLeft = 0
        · rw [if_pos none, if_pos none]
        · rw [if_neg none, if_neg none, if_neg (by omega)]
          by_cases inside : s.pos_bit + bitsLeft < 8
          · simp only [if_pos inside, Nat.shiftLeft_and_distrib]
          · have next : u32 (s.pos_byte + 1) = s.pos_byte + 1 := u32_of_lt (by omega)
            simp only [if_neg inside, next]
            exact ih _ _ (by omega) (by show 0 < 8; omega)
              (by show s.pos_byte + 1 + (0 + _ + 7) / 8 ≤ s.length; omega) limit
  obtain ⟨base, written⟩ := stands.buf
  have bit := stands.pos_bit
  have byte := stands.pos_byte
  have limit := stands.limit
  rw [packedSize] at fits
  have exact := encodeBits_eq value base 0 rounds bitsLeft enough bs (by omega)
  rw [Nat.zero_add, ← byte, ← bit, ← written] at exact
  refine ⟨_, loop rounds bitsLeft s enough (by omega) (by omega) limit, ?_⟩
  rw [exact]
  refine ⟨⟨base, rfl⟩, ?_, ?_, ?_, limit⟩
  · rw [List.length_append, toBits_length, Nat.zero_add]
  · rw [List.length_append, toBits_length]
  · rw [List.length_append, toBits_length]
    exact fits

end Stands

section Conditions

def HasLength (s : ZCMDataOutputStream) (last : Nat) (more : Nat → Prop) : Prop :=
  ∃ newlen : Nat, newLength 33 s.length (last : Nat) = some (newlen : Int) ∧ more newlen

def BytesFit (s : ZCMDataOutputStream) (k : Nat) : Prop :=
  s.pos_byte + k < s.length ∨ HasLength s (s.pos_byte + k) fun _ => True

/-- Either the buffer has room behind the last byte, or the doublings find a length that is enough and the bits
of the byte under way, which the new buffer does not get, are zero. -/
def Call.Fits (s : ZCMDataOutputStream) : Call → Prop
  | .resetBits => True
  | .writeBits _ numbits =>
      s.pos_byte + (numbits + s.pos_bit) / 8 < s.length ∨
        ((s.pos_bit = 0 ∨ s.buf s.pos_byte = 0) ∧ HasLength s (s.pos_byte + (numbits + s.pos_bit) / 8) fun newlen =>
          (numbits + s.pos_bit) % 8 = 0 ∨ s.pos_byte + (numbits + s.pos_bit) / 8 < newlen)
  | .writeArray b => BytesFit s b.length
  | .write _ => BytesFit s 1
  | .writeByte _ => BytesFit s 1
  | .writeShort _ => BytesFit s 2
  | .writeInt _ => BytesFit s 4
  | .writeLong _ => BytesFit s 8

def Call.append (bs : List Bool) : Call → List Bool
  | .resetBits => align bs
  | .writeBits value numbits => bs ++ toBits numbits value
  | .writeArray b => bs ++ unpack b
  | .write b => bs ++ unpack (toBe 1 b)
  | .writeByte v => bs ++ unpack (toBe 1 v)
  | .writeShort v => bs ++ unpack (toBe 2 v)
  | .writeInt v => bs ++ unpack (toBe 4 v)
  | .writeLong v => bs ++ unpack (toBe 8 v)

variable {s : ZCMDataOutputStream} {bs : List Bool}

theorem HasLength.small (limit : s.length < 2 ^ 31) {last : Nat} {more : Nat → Prop} (has : HasLength s last more) :
    last < 2 ^ 31 := by
  obtain ⟨newlen, found, _⟩ := has
  have bounds := newLength_bounds (by omega) found
  omega

namespace Stands

theorem put (stands : Stands s bs) (aligned : bs.length % 8 = 0) {bytes : List Byte} (fits : BytesFit s bytes.length) :
    ∃ s', s.put bytes = some s' ∧ Stands s' (bs ++ unpack bytes) := by
  have limit := stands.limit
  have small : s.pos_byte + bytes.length < 2 ^ 31 := by
    cases fits with
    | inl inside => omega
    | inr has => exact has.small limit
  rw [ZCMDataOutputStream.put]
  rcases stands.ensureSpace_cases small with ⟨inside, left⟩ | ⟨beyond, none, _⟩ |
    ⟨_, newlen, _, enough, moved, stands'⟩
  · rw [left]
    exact stands.store aligned (by omega)
  · exfalso
    cases fits with
    | inl inside => omega
    | inr has =>
        obtain ⟨newlen, found, _⟩ := has
        rw [none] at found
        cases found
  · rw [moved]
    rw [clear_aligned aligned] at stands'
    exact stands'.store aligned enough

theorem writeBits (stands : Stands s bs) {value numbits : Nat} (fits : (Call.writeBits value numbits).Fits s) :
    ∃ s', s.writeBits value numbits = some s' ∧ Stands s' (bs ++ toBits numbits value) := by
  have limit := stands.limit
  have bit := stands.pos_bit
  have byte := stands.pos_byte
  have small : s.pos_byte + (numbits + s.pos_bit) / 8 < 2 ^ 31 := by
    rcases fits with inside | ⟨_, has⟩
    · omega
    · exact has.small limit
  rw [ZCMDataOutputStream.writeBits]
  rcases stands.ensureSpace_cases small with ⟨inside, left⟩ | ⟨beyond, none, _⟩ |
    ⟨beyond, newlen, found, enough, moved, stands'⟩
  · rw [left]
    exact stands.writeBitsLoop value (Nat.le_refl _) (by rw [packedSize]; omega)
  · exfalso
    rcases fits with inside | ⟨_, newlen, found, _⟩
    · omega
    · rw [none] at found
      cases found
  · rcases fits with inside | ⟨zero, newlen', found', whole⟩
    · omega
    · rw [found] at found'
      obtain rfl : newlen = newlen' := Int.ofNat.inj (Option.some.inj found')
      rw [stands.pending_iff.mp zero] at stands'
      rw [moved]
      refine stands'.writeBitsLoop value (Nat.le_refl _) ?_
      rw [packedSize]
      show _ ≤ newlen
      omega

end Stands

end Conditions

end Zcm.Java
