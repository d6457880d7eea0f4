import Zcm.Serial.Transport

namespace Zcm.Serial
open Zcm.Lib

def escape (bs : List Byte) : List Byte := bs.flatMap fun c => if c = escapeChar then [c, c] else [c]

def checksum (bs : List Byte) : BitVec 16 := bs.foldl (fun sum b => fletcherUpdate b sum) 0xffff

def frame (m : Msg) : List Byte :=
  [escapeChar, 0x00, BitVec.ofNat 8 m.channel.chars.length] ++ toBe 4 m.buf.length ++
    escape (m.channel.chars ++ m.buf) ++ toBe 2 (checksum (m.channel.chars ++ m.buf)).toNat

inductive Unescaped
  | short
  | bad
  | ok (plain rest : List Byte)

def Unescaped.cons (c : Byte) : Unescaped → Unescaped
  | .ok plain rest => .ok (c :: plain) rest
  | u => u

/-- Reads `n` escaped bytes with at least `after` bytes behind them. The stream is `short` as soon as
what is left of it cannot hold the bytes still to be read. -/
@[simp] def unescape (after : Nat) : Nat → List Byte → Unescaped
  | 0, xs => if xs.length < after then .short else .ok [] xs
  | _ + 1, [] => .short
  | n + 1, c :: xs =>
      if c ≠ escapeChar then (unescape after n xs).cons c
      else match xs with
        | [] => .short
        | d :: xs =>
            if xs.length < n + after then .short
            else if d = escapeChar then (unescape after n xs).cons c
            else .bad

/-- What the front of a stream is: too short for the frame that it announces, no frame, or a frame of
so many bytes. -/
inductive Verdict
  | short
  | bad
  | frame (m : Msg) (size : Nat)

def headerOk (mtu : Nat) (b0 b1 chanLen : Byte) (len : Nat) : Prop :=
  b0 = escapeChar ∧ b1 = 0x00 ∧ chanLen.toNat ≤ channelMaxlen ∧ len ≤ mtu

instance (mtu : Nat) (b0 b1 chanLen : Byte) (len : Nat) : Decidable (headerOk mtu b0 b1 chanLen len) :=
  inferInstanceAs (Decidable (_ ∧ _ ∧ _ ∧ _))

def verdictOf (mtu : Nat) (b0 b1 chanLen : Byte) (len : Nat) (body : List Byte) : Verdict :=
  if headerOk mtu b0 b1 chanLen len then
    match unescape 2 (chanLen.toNat + len) body with
    | .short => .short
    | .bad => .bad
    | .ok plain rest =>
        if ofBe (rest.take 2) = (checksum plain).toNat then
          .frame ⟨CString.ofBytes (plain.take chanLen.toNat), plain.drop chanLen.toNat⟩
            (7 + (body.length - rest.length) + 2)
        else .bad
  else .bad

def verdict (mtu : Nat) : List Byte → Verdict
  | b0 :: b1 :: b2 :: b3 :: b4 :: b5 :: b6 :: body =>
      verdictOf mtu b0 b1 b2 (ofBe [b3, b4, b5, b6]) body
  | xs => if xs.take 2 <+: [escapeChar, 0x00] then .short else .bad

/-- The reference: from the left, delivers the frame that starts here and skips past it, stops when
the stream ends before the frame that is announced here, and otherwise goes on by one byte. -/
def scanFrom (mtu : Nat) : Nat → List Byte → List Msg
  | _, [] => []
  | skip + 1, _ :: xs => scanFrom mtu skip xs
  | 0, x :: xs =>
      match verdict mtu (x :: xs) with
      | .frame m size => m :: scanFrom mtu (size - 1) xs
      | .short => []
      | .bad => scanFrom mtu 0 xs

def scan (mtu : Nat) (xs : List Byte) : List Msg := scanFrom mtu 0 xs

theorem scanFrom_eq (mtu skip : Nat) (xs : List Byte) : scanFrom mtu skip xs = scan mtu (xs.drop skip) := by
  induction skip generalizing xs with
  | zero => rfl
  | succ skip ih =>
      cases xs with
      | nil => rfl
      | cons x xs => exact ih xs

@[simp] theorem scan_nil (mtu : Nat) : scan mtu [] = [] := rfl

theorem scan_frame {mtu : Nat} {xs : List Byte} {m : Msg} {size : Nat} (positive : 0 < size)
    (h : verdict mtu xs = .frame m size) : scan mtu xs = m :: scan mtu (xs.drop size) := by
  cases xs with
  | nil => simp [verdict] at h
  | cons x xs =>
      obtain ⟨size, rfl⟩ := Nat.exists_eq_succ_of_ne_zero (Nat.ne_of_gt positive)
      simp only [scan, scanFrom, h, Nat.succ_eq_add_one, Nat.add_sub_cancel, List.drop_succ_cons]
      rw [scanFrom_eq]
      rfl

theorem scan_short {mtu : Nat} {xs : List Byte} (h : verdict mtu xs = .short) : scan mtu xs = [] := by
  cases xs with
  | nil => rfl
  | cons x xs => simp only [scan, scanFrom, h]

theorem scan_bad {mtu : Nat} {x : Byte} {xs : List Byte} (h : verdict mtu (x :: xs) = .bad) :
    scan mtu (x :: xs) = scan mtu xs := by
  simp only [scan, scanFrom, h]

theorem unescape_plain {after n : Nat} {c : Byte} (plain : c ≠ escapeChar) (xs : List Byte) :
    unescape after (n + 1) (c :: xs) = (unescape after n xs).cons c := by
  simp [unescape, plain]

theorem unescape_short {after n : Nat} {xs : List Byte} (h : xs.length < n + after) :
    unescape after n xs = .short := by
  induction n generalizing xs with
  | zero =>
      rw [unescape, if_pos (by omega)]
  | succ n ih =>
      match xs with
      | [] => rfl
      | c :: xs =>
          simp only [List.length_cons] at h
          by_cases plain : c ≠ escapeChar
          · rw [unescape_plain plain, ih (by omega)]
            rfl
          · cases xs with
            | nil => rw [unescape, if_neg plain]
            | cons d xs =>
                simp only [List.length_cons] at h
                rw [unescape, if_neg plain, if_pos (by omega)]

theorem unescape_escaped {after n : Nat} (xs : List Byte) :
    unescape after (n + 1) (escapeChar :: escapeChar :: xs) = (unescape after n xs).cons escapeChar := by
  simp only [unescape, ne_eq, not_true, if_false, if_true]
  split
  · rw [unescape_short ‹_›]
    rfl
  · rfl

theorem unescape_bad {after n : Nat} {d : Byte} (notEscape : d ≠ escapeChar) (xs : List Byte) :
    unescape after (n + 1) (escapeChar :: d :: xs) = if xs.length < n + after then .short else .bad := by
  simp [unescape, notEscape]

inductive FirstByte (after n : Nat) (xs : List Byte) : Prop
  | plain (c : Byte) (ys : List Byte) (notEscape : c ≠ escapeChar) (eq : xs = c :: ys)
  | escaped (ys : List Byte) (eq : xs = escapeChar :: escapeChar :: ys)
  | bad (d : Byte) (ys : List Byte) (notEscape : d ≠ escapeChar) (long : n + after ≤ ys.length)
      (eq : xs = escapeChar :: d :: ys)
  | short (cut : xs = [] ∨ ∃ ys, xs = escapeChar :: ys ∧ ys.length < n + 1 + after)
      (eq : ∀ n' after', n' + after' = n + after → unescape after' (n' + 1) xs = .short)

theorem firstByte (after n : Nat) (xs : List Byte) : FirstByte after n xs := by
  match xs with
  | [] => exact .short (.inl rfl) fun _ _ _ => rfl
  | [c] =>
      by_cases plain : c = escapeChar
      · exact .short (.inr ⟨[], by rw [plain], by simp⟩) fun _ _ _ => by simp [unescape, plain]
      · exact .plain c [] plain rfl
  | c :: d :: ys =>
      by_cases plain : c = escapeChar
      · subst plain
        by_cases escaped : d = escapeChar
        · exact .escaped ys (by rw [escaped])
        · by_cases long : n + after ≤ ys.length
          · exact .bad d ys escaped long rfl
          · exact .short (.inr ⟨d :: ys, rfl, by simp; omega⟩) fun _ _ _ => by
              rw [unescape_bad escaped, if_pos (by omega)]
      · exact .plain c (d :: ys) plain rfl

theorem cons_eq_ok {c : Byte} {u : Unescaped} {plain rest : List Byte} (h : u.cons c = .ok plain rest) :
    ∃ plain', u = .ok plain' rest ∧ plain = c :: plain' := by
  cases u <;> simp_all [Unescaped.cons]

theorem cons_eq_bad {c : Byte} {u : Unescaped} (h : u.cons c = .bad) : u = .bad := by
  cases u <;> simp_all [Unescaped.cons]

theorem unescape_append {after n : Nat} {xs plain rest : List Byte}
    (h : unescape after n xs = .ok plain rest) (ys : List Byte) :
    unescape after n (xs ++ ys) = .ok plain (rest ++ ys) := by
  induction n generalizing xs plain with
  | zero =>
      rw [unescape] at h
      split at h <;> cases h
      rw [unescape, if_neg (by simp; omega)]
  | succ n ih =>
      cases firstByte after n xs with
      | plain c zs notEscape eq =>
          subst eq
          rw [unescape_plain notEscape] at h
          obtain ⟨plain', read, rfl⟩ := cons_eq_ok h
          rw [List.cons_append, unescape_plain notEscape, ih read]
          rfl
      | escaped zs eq =>
          subst eq
          rw [unescape_escaped] at h
          obtain ⟨plain', read, rfl⟩ := cons_eq_ok h
          rw [List.cons_append, List.cons_append, unescape_escaped, ih read]
          rfl
      | bad d zs notEscape long eq =>
          subst eq
          rw [unescape_bad notEscape, if_neg (by omega)] at h
          cases h
      | short _ eq =>
          rw [eq n after rfl] at h
          cases h

theorem unescape_append_bad {after n : Nat} {xs : List Byte} (h : unescape after n xs = .bad)
    (ys : List Byte) : unescape after n (xs ++ ys) = .bad := by
  induction n generalizing xs with
  | zero =>
      rw [unescape] at h
      split at h <;> cases h
  | succ n ih =>
      cases firstByte after n xs with
      | plain c zs notEscape eq =>
          subst eq
          rw [unescape_plain notEscape] at h
          rw [List.cons_append, unescape_plain notEscape, ih (cons_eq_bad h)]
          rfl
      | escaped zs eq =>
          subst eq
          rw [unescape_escaped] at h
          rw [List.cons_append, List.cons_append, unescape_escaped, ih (cons_eq_bad h)]
          rfl
      | bad d zs notEscape long eq =>
          subst eq
          rw [List.cons_append, List.cons_append, unescape_bad notEscape, if_neg (by simp; omega)]
      | short _ eq =>
          rw [eq n after rfl] at h
          cases h

theorem unescape_ok {after n : Nat} {xs plain rest : List Byte} (h : unescape after n xs = .ok plain rest) :
    plain.length = n ∧ after ≤ rest.length ∧ ∃ front, xs = front ++ rest := by
  induction n generalizing xs plain with
  | zero =>
      rw [unescape] at h
      split at h <;> cases h
      exact ⟨rfl, by omega, [], rfl⟩
  | succ n ih =>
      cases firstByte after n xs with
      | plain c zs notEscape eq =>
          subst eq
          rw [unescape_plain notEscape] at h
          obtain ⟨plain', read, rfl⟩ := cons_eq_ok h
          obtain ⟨length, enough, front, rfl⟩ := ih read
          exact ⟨by simp [length], enough, c :: front, rfl⟩
      | escaped zs eq =>
          subst eq
          rw [unescape_escaped] at h
          obtain ⟨plain', read, rfl⟩ := cons_eq_ok h
          obtain ⟨length, enough, front, rfl⟩ := ih read
          exact ⟨by simp [length], enough, escapeChar :: escapeChar :: front, rfl⟩
      | bad d zs notEscape long eq =>
          subst eq
          rw [unescape_bad notEscape, if_neg (by omega)] at h
          cases h
      | short _ eq =>
          rw [eq n after rfl] at h
          cases h

@[simp] theorem escape_nil : escape [] = [] := rfl

@[simp] theorem escape_cons (c : Byte) (bs : List Byte) :
    escape (c :: bs) = (if c = escapeChar then [c, c] else [c]) ++ escape bs := rfl

theorem escape_append (xs ys : List Byte) : escape (xs ++ ys) = escape xs ++ escape ys := by
  simp [escape]

theorem length_le_escape (bs : List Byte) : bs.length ≤ (escape bs).length := by
  induction bs with
  | nil => simp
  | cons b bs ih =>
      rw [escape_cons, List.length_append, List.length_cons]
      split <;> simp <;> omega

theorem unescape_escape {after : Nat} (bs : List Byte) {rest : List Byte} (enough : after ≤ rest.length) :
    unescape after bs.length (escape bs ++ rest) = .ok bs rest := by
  induction bs with
  | nil => simp [unescape]; omega
  | cons c bs ih =>
      by_cases escaped : c = escapeChar
      · subst escaped
        simp only [escape_cons, if_true, List.length_cons, List.cons_append, List.nil_append]
        rw [unescape_escaped, ih]
        rfl
      · simp only [escape_cons, if_neg escaped, List.length_cons, List.cons_append, List.nil_append]
        rw [unescape_plain escaped, ih]
        rfl

def Unescaped.prepend (front : List Byte) : Unescaped → Unescaped
  | .ok plain rest => .ok (front ++ plain) rest
  | u => u

theorem unescape_add (after n k : Nat) (xs : List Byte) :
    unescape after (n + k) xs =
      match unescape (k + after) n xs with
      | .ok plain rest => (unescape after k rest).prepend plain
      | u => u := by
  induction n generalizing xs with
  | zero =>
      rw [Nat.zero_add]
      by_cases short : xs.length < k + after
      · simp [unescape, short, unescape_short short]
      · simp only [unescape, if_neg short]
        cases unescape after k xs <;> rfl
  | succ n ih =>
      rw [Nat.add_right_comm]
      cases firstByte (k + after) n xs with
      | plain c zs notEscape eq =>
          subst eq
          rw [unescape_plain notEscape, unescape_plain notEscape, ih]
          cases unescape (k + after) n zs with
          | ok plain rest =>
              simp only [Unescaped.cons]
              cases unescape after k rest <;> rfl
          | short | bad => rfl
      | escaped zs eq =>
          subst eq
          rw [unescape_escaped, unescape_escaped, ih]
          cases unescape (k + after) n zs with
          | ok plain rest =>
              simp only [Unescaped.cons]
              cases unescape after k rest <;> rfl
          | short | bad => rfl
      | bad d zs notEscape long eq =>
          subst eq
          rw [unescape_bad notEscape, unescape_bad notEscape, if_neg (by omega), if_neg (by omega)]
      | short _ eq => rw [eq (n + k) after (by omega), eq n (k + after) rfl]

theorem verdict_of_lt {mtu : Nat} {xs : List Byte} (h : xs.length < 7) :
    verdict mtu xs = if xs.take 2 <+: [escapeChar, 0x00] then .short else .bad := by
  match xs, h with
  | [], _ | [_], _ | [_, _], _ | [_, _, _], _ | [_, _, _, _], _ | [_, _, _, _, _], _
  | [_, _, _, _, _, _], _ => rfl
  | _ :: _ :: _ :: _ :: _ :: _ :: _ :: _, h => simp at h; omega

theorem exists_header {xs : List Byte} (h : 7 ≤ xs.length) :
    ∃ b0 b1 b2 b3 b4 b5 b6 body, xs = b0 :: b1 :: b2 :: b3 :: b4 :: b5 :: b6 :: body := by
  match xs, h with
  | b0 :: b1 :: b2 :: b3 :: b4 :: b5 :: b6 :: body, _ => exact ⟨b0, b1, b2, b3, b4, b5, b6, body, rfl⟩

theorem verdict_of_not_marker {mtu : Nat} {xs : List Byte} (h : ¬ xs.take 2 <+: [escapeChar, 0x00]) :
    verdict mtu xs = .bad := by
  by_cases long : 7 ≤ xs.length
  · obtain ⟨b0, b1, b2, b3, b4, b5, b6, body, rfl⟩ := exists_header long
    rw [verdict, verdictOf, if_neg]
    rintro ⟨rfl, rfl, -⟩
    simp at h
  · rw [verdict_of_lt (by omega), if_neg h]

theorem verdict_of_ne {mtu : Nat} {x : Byte} {xs : List Byte} (h : x ≠ escapeChar) :
    verdict mtu (x :: xs) = .bad := by
  apply verdict_of_not_marker
  cases xs <;> simp [h]

theorem verdictOf_frame {mtu : Nat} {b0 b1 chanLen : Byte} {len : Nat} {body : List Byte} {m : Msg}
    {size : Nat} (h : verdictOf mtu b0 b1 chanLen len body = .frame m size) :
    frameBytes ≤ size ∧ size ≤ 7 + body.length ∧
      ∀ ys, verdictOf mtu b0 b1 chanLen len (body ++ ys) = .frame m size := by
  unfold verdictOf at h
  split at h
  next header =>
    split at h <;> try cases h
    next plain rest read =>
      split at h <;> cases h
      next equal =>
        obtain ⟨-, enough, front, rfl⟩ := unescape_ok read
        refine ⟨by rw [frameBytes]; omega, by simp; omega, fun ys => ?_⟩
        have same : (rest ++ ys).take 2 = rest.take 2 := List.take_append_of_le_length enough
        rw [verdictOf, if_pos header, unescape_append read ys]
        simp only [same, if_pos equal, List.length_append, Nat.add_sub_add_right]
  · cases h

theorem verdictOf_bad {mtu : Nat} {b0 b1 chanLen : Byte} {len : Nat} {body : List Byte}
    (h : verdictOf mtu b0 b1 chanLen len body = .bad) (ys : List Byte) :
    verdictOf mtu b0 b1 chanLen len (body ++ ys) = .bad := by
  unfold verdictOf at h
  split at h
  next header =>
    rw [verdictOf, if_pos header]
    split at h
    · cases h
    next read => rw [unescape_append_bad read ys]
    next plain rest read =>
      split at h
      · cases h
      next differ =>
        obtain ⟨-, enough, -⟩ := unescape_ok read
        have same : (rest ++ ys).take 2 = rest.take 2 := List.take_append_of_le_length enough
        rw [unescape_append read ys]
        simp only [same, if_neg differ]
  next header => rw [verdictOf, if_neg header]

theorem verdict_append {mtu : Nat} {xs : List Byte} {m : Msg} {size : Nat}
    (h : verdict mtu xs = .frame m size) (ys : List Byte) : verdict mtu (xs ++ ys) = .frame m size := by
  by_cases long : 7 ≤ xs.length
  · obtain ⟨b0, b1, b2, b3, b4, b5, b6, body, rfl⟩ := exists_header long
    exact (verdictOf_frame h).2.2 ys
  · rw [verdict_of_lt (by omega)] at h
    split at h <;> cases h

theorem verdict_append_bad {mtu : Nat} {xs : List Byte} (h : verdict mtu xs = .bad) (ys : List Byte) :
    verdict mtu (xs ++ ys) = .bad := by
  by_cases long : 7 ≤ xs.length
  · obtain ⟨b0, b1, b2, b3, b4, b5, b6, body, rfl⟩ := exists_header long
    exact verdictOf_bad h ys
  · rw [verdict_of_lt (by omega)] at h
    split at h
    · cases h
    next notMarker =>
      refine verdict_of_not_marker fun isPrefix => notMarker ?_
      refine List.IsPrefix.trans ?_ isPrefix
      rw [List.take_append]
      exact List.prefix_append ..

theorem verdict_size {mtu : Nat} {xs : List Byte} {m : Msg} {size : Nat}
    (h : verdict mtu xs = .frame m size) : frameBytes ≤ size ∧ size ≤ xs.length := by
  by_cases long : 7 ≤ xs.length
  · obtain ⟨b0, b1, b2, b3, b4, b5, b6, body, rfl⟩ := exists_header long
    obtain ⟨low, high, -⟩ := verdictOf_frame h
    refine ⟨low, ?_⟩
    simp only [List.length_cons]
    omega
  · rw [verdict_of_lt (by omega)] at h
    split at h <;> cases h

theorem frame_eq (m : Msg) :
    ∃ b3 b4 b5 b6, toBe 4 m.buf.length = [b3, b4, b5, b6] ∧
      frame m = escapeChar :: 0x00 :: BitVec.ofNat 8 m.channel.chars.length :: b3 :: b4 :: b5 :: b6 ::
        (escape (m.channel.chars ++ m.buf) ++ toBe 2 (checksum (m.channel.chars ++ m.buf)).toNat) :=
  ⟨_, _, _, _, rfl, rfl⟩

theorem verdict_frame {mtu : Nat} {m : Msg} (chan : m.channel.chars.length ≤ channelMaxlen)
    (len : m.buf.length ≤ mtu) (small : m.buf.length < 2 ^ 32) (rest : List Byte) :
    verdict mtu (frame m ++ rest) = .frame m (frame m).length := by
  obtain ⟨b3, b4, b5, b6, digits, equal⟩ := frame_eq m
  have chanLen : (BitVec.ofNat 8 m.channel.chars.length).toNat = m.channel.chars.length := by
    rw [BitVec.toNat_ofNat]
    exact Nat.mod_eq_of_lt (by unfold channelMaxlen at chan; omega)
  have length : ofBe [b3, b4, b5, b6] = m.buf.length := by
    rw [← digits]
    exact ofBe_toBe_of_lt (by simpa using small)
  have header : headerOk mtu escapeChar 0x00 (BitVec.ofNat 8 m.channel.chars.length) m.buf.length :=
    ⟨rfl, rfl, by rw [chanLen]; exact chan, len⟩
  have read : unescape 2 (m.channel.chars ++ m.buf).length (escape (m.channel.chars ++ m.buf) ++
      (toBe 2 (checksum (m.channel.chars ++ m.buf)).toNat ++ rest)) = .ok _ _ :=
    unescape_escape _ (by simp)
  have sum : ofBe ((toBe 2 (checksum (m.channel.chars ++ m.buf)).toNat ++ rest).take 2) =
      (checksum (m.channel.chars ++ m.buf)).toNat := by
    rw [List.take_left' (by simp)]
    exact ofBe_toBe_of_lt (by simpa using (checksum (m.channel.chars ++ m.buf)).isLt)
  rw [List.length_append] at read
  rw [equal]
  simp only [List.cons_append, List.append_assoc, verdict, length, verdictOf, if_pos header, chanLen, read,
    if_pos sum]
  simp
  omega

theorem escape_of_plain {bs : List Byte} (plain : ∀ b ∈ bs, b ≠ escapeChar) : escape bs = bs := by
  induction bs with
  | nil => rfl
  | cons b bs ih =>
      rw [escape_cons, if_neg (plain b (by simp)), ih fun c member => plain c (by simp [member])]
      rfl

theorem frame_length (m : Msg) :
    (frame m).length = frameBytes + (escape (m.channel.chars ++ m.buf)).length := by
  simp [frame, frameBytes]
  omega

end Zcm.Serial
