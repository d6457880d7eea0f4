import Mathlib.Data.List.Basic
import Zcm.Gen.Tokenize

namespace Zcm.Gen.Tokenize
open Zcm.Lib

def ch (c : Char) : Byte := toByte (code c)

def isSpace (b : Byte) : Bool := isspace b.toInt
def isOp (b : Byte) : Bool := strchr opChars b.toInt
def isSingle (b : Byte) : Bool := strchr singleCharToks b.toInt

def stream (t : Tokenizer) : List Byte := if 0 ≤ t.ungetChar then toByte t.ungetChar :: t.rest else t.rest

def Valid (t : Tokenizer) : Prop := ∃ b : Byte, t.ungetChar = b.toInt

def unget (b : Byte) : List Byte := if 0 ≤ b.toInt then [b] else []

def afterUnget (last : Byte) : List Byte → List Byte
  | [] => unget last
  | b :: bs => unget b ++ bs

@[simp] theorem toByte_toInt (b : Byte) : toByte b.toInt = b := BitVec.ofInt_toInt

theorem toInt_eq_eof {b : Byte} : b.toInt = EOF ↔ b = 0xff#8 := by
  have value : EOF = (0xff#8).toInt := by decide
  rw [value, BitVec.toInt_inj]

theorem toInt_eq_code {b : Byte} {c : Char} (ascii : c.toNat < 128) : b.toInt = code c ↔ b = ch c := by
  have value : (ch c).toInt = code c := by
    unfold ch toByte code
    rw [BitVec.toInt_ofInt, Int.bmod_eq_of_le] <;> omega
  rw [← value, BitVec.toInt_inj]

theorem stream_reading {rest : List Byte} {u c : Int} (none : u < 0) : stream ⟨rest, u, c⟩ = rest := by
  simp only [stream, Int.not_le.mpr none, if_false]

theorem nextChar_nil {u c : Int} (none : u < 0) : nextChar ⟨[], u, c⟩ = (EOF, ⟨[], u, c⟩) := by
  simp only [nextChar, Int.not_le.mpr none, if_false]

theorem nextChar_cons {b : Byte} {rest : List Byte} {u c : Int} (none : u < 0) :
    nextChar ⟨b :: rest, u, c⟩ = (b.toInt, ⟨rest, u, b.toInt⟩) := by
  simp only [nextChar, Int.not_le.mpr none, if_false]

theorem stream_ungetc {rest : List Byte} {u : Int} {b : Byte} (c : Int) :
    stream (ungetc ⟨rest, u, b.toInt⟩ c) = unget b ++ rest := by
  by_cases low : 0 ≤ b.toInt
  · simp [stream, ungetc, unget, low]
  · simp [stream, ungetc, unget, low]

theorem valid_ungetc {rest : List Byte} {u : Int} {b : Byte} (c : Int) : Valid (ungetc ⟨rest, u, b.toInt⟩ c) :=
  ⟨b, rfl⟩

theorem nextChar_stream {t : Tokenizer} (valid : Valid t) {b : Byte} {bs : List Byte} (first : stream t = b :: bs) :
    ∃ u, u < 0 ∧ Valid ⟨bs, u, b.toInt⟩ ∧ nextChar t = (b.toInt, ⟨bs, u, b.toInt⟩) := by
  obtain ⟨saved, same⟩ := valid
  obtain ⟨rest, u, c⟩ := t
  change u = saved.toInt at same
  subst same
  by_cases pending : 0 ≤ saved.toInt
  · simp only [stream, pending, if_true, toByte_toInt, List.cons.injEq] at first
    obtain ⟨rfl, rfl⟩ := first
    exact ⟨-1, by decide,
      ⟨0xff#8, (by decide : (-1 : Int) = (0xff#8).toInt)⟩, by simp only [nextChar, pending, if_true]⟩
  · simp only [stream, pending, if_false] at first
    subst first
    exact ⟨saved.toInt, Int.not_le.mp pending, ⟨saved, rfl⟩, nextChar_cons (Int.not_le.mp pending)⟩

theorem nextChar_ended {t : Tokenizer} (ended : stream t = []) : nextChar t = (EOF, t) := by
  obtain ⟨rest, u, c⟩ := t
  by_cases pending : 0 ≤ u
  · simp [stream, pending] at ended
  · simp only [stream, pending, if_false] at ended
    subst ended
    exact nextChar_nil (Int.not_le.mp pending)

theorem skipSpaces_ended {fuel : Nat} {t : Tokenizer} (valid : Valid t) (enough : (stream t).length < fuel)
    (blank : (stream t).dropWhile isSpace = []) :
    ∃ t', skipSpaces fuel t = some (EOF, t') ∧ Valid t' ∧ stream t' = [] := by
  induction fuel generalizing t with
  | zero => exact absurd enough (Nat.not_lt_zero _)
  | succ fuel ih =>
      cases left : stream t with
      | nil => exact ⟨t, by simp [skipSpaces, nextChar_ended left], valid, left⟩
      | cons b bs =>
          obtain ⟨u, none, valid', next⟩ := nextChar_stream valid left
          rw [left] at blank enough
          have space : isSpace b = true := by
            by_contra other
            simp [other] at blank
          have notEof : b.toInt ≠ EOF := by
            intro eof
            rw [isSpace, eof] at space
            exact absurd space (by decide)
          rw [List.dropWhile_cons_of_pos space] at blank
          have later := ih (t := ⟨bs, u, b.toInt⟩) valid' (by simpa [stream_reading none] using enough)
            (by rwa [stream_reading none])
          have isspace : isspace b.toInt = true := space
          simpa [skipSpaces, next, notEof, isspace] using later

theorem skipSpaces_next {fuel : Nat} {t : Tokenizer} (valid : Valid t) (enough : (stream t).length < fuel) {b : Byte}
    {cs : List Byte} (first : (stream t).dropWhile isSpace = b :: cs) :
    ∃ u, u < 0 ∧ Valid ⟨cs, u, b.toInt⟩ ∧ skipSpaces fuel t = some (b.toInt, ⟨cs, u, b.toInt⟩) := by
  induction fuel generalizing t with
  | zero => exact absurd enough (Nat.not_lt_zero _)
  | succ fuel ih =>
      cases left : stream t with
      | nil => simp [left] at first
      | cons c rest =>
          obtain ⟨u, none, valid', next⟩ := nextChar_stream valid left
          rw [left] at first enough
          by_cases space : isSpace c = true
          · rw [List.dropWhile_cons_of_pos space] at first
            have notEof : c.toInt ≠ EOF := by
              intro eof
              rw [isSpace, eof] at space
              exact absurd space (by decide)
            have later := ih (t := ⟨rest, u, c.toInt⟩) valid' (by simpa [stream_reading none] using enough)
              (by rwa [stream_reading none])
            have isspace : isspace c.toInt = true := space
            simpa [skipSpaces, next, notEof, isspace] using later
          · rw [List.dropWhile_cons_of_neg space] at first
            obtain ⟨rfl, rfl⟩ := List.cons.inj first
            have isspace : isspace c.toInt = false := by simpa [isSpace] using space
            exact ⟨u, none, valid', by simp [skipSpaces, next, isspace]⟩

def stringText : Bool → List Byte → List Byte × List Byte
  | _, [] => ([], [])
  | escape, c :: cs =>
      if c = 0xff#8 then ([], cs)
      else if escape then stringText false cs
      else if c = ch '"' then ([c], cs)
      else if c = ch '\\' then stringText true cs
      else (c :: (stringText false cs).1, (stringText false cs).2)

/-- The text of a token that is no literal and no operator, and what is left after it. A blank after the
token is used up; so is the byte 255. -/
def blobText : Byte → List Byte → List Byte × List Byte
  | b, [] => ([b], [])
  | b, c :: cs =>
      if isSingle b || isSingle c || isOp c then ([b], c :: cs)
      else if isSpace c || c = 0xff#8 then ([b], cs)
      else (b :: (blobText c cs).1, (blobText c cs).2)

def isLineChar (b : Byte) : Bool := b ≠ ch '\n' && b ≠ 0xff#8

def scanClose : Bool → List Byte → Bool × List Byte
  | _, [] => (false, [])
  | star, b :: bs =>
      if b = 0xff#8 then (false, bs) else if star && b = ch '/' then (true, bs) else scanClose (b = ch '*') bs

theorem strchr_nonneg {s : String} {c : Int} (found : strchr s c = true) : 0 ≤ c := by
  simp only [strchr, Bool.or_eq_true, decide_eq_true_eq, List.any_eq_true] at found
  obtain rfl | ⟨x, -, rfl⟩ := found
  · exact Int.le_refl 0
  · exact Int.natCast_nonneg _

theorem scanClose_star {b : Byte} {s : List Byte} (open' : s.head? ≠ some (ch '/') ∨ b ≠ ch '*') :
    scanClose (b = ch '*') s = scanClose false s := by
  cases s with
  | nil => rfl
  | cons c s =>
      by_cases star : b = ch '*'
      · have other : ¬ c = ch '/' := by
          obtain head | different := open'
          · simpa using head
          · exact absurd star different
        simp [scanClose, other]
      · simp [scanClose, star]

/-- The reader has a character in hand: the first of `s`, or none after the last one that was read. -/
def At (u : Int) (last : Byte) (s : List Byte) (c : Int) (t : Tokenizer) : Prop :=
  match s with
  | [] => c = EOF ∧ t = ⟨[], u, last.toInt⟩
  | b :: bs => c = b.toInt ∧ t = ⟨bs, u, b.toInt⟩

section Loops
variable {u : Int} (none : u < 0)
include none

theorem at_next (b : Byte) (s : List Byte) :
    At u b s (nextChar ⟨s, u, b.toInt⟩).1 (nextChar ⟨s, u, b.toInt⟩).2 := by
  cases s with
  | nil =>
      rw [nextChar_nil none]
      exact ⟨rfl, rfl⟩
  | cons c s =>
      rw [nextChar_cons none]
      exact ⟨rfl, rfl⟩

theorem operator_eq (fuel : Nat) (b : Byte) (cs token : List Byte) (enough : cs.length + 1 < fuel)
    (op : isOp b = true) :
    ∃ t', operator fuel b.toInt token ⟨cs, u, b.toInt⟩ =
        some (.token .ZCM_TOK_OTHER (token ++ b :: cs.takeWhile isOp), t') ∧ Valid t' ∧
      stream t' = afterUnget ((b :: cs.takeWhile isOp).getLast (List.cons_ne_nil _ _)) (cs.dropWhile isOp) := by
  induction cs generalizing fuel b token with
  | nil =>
      obtain ⟨fuel, rfl⟩ : ∃ n, fuel = n + 2 := ⟨fuel - 2, by simp at enough; omega⟩
      have isOp : strchr opChars b.toInt = true := op
      have eof : strchr opChars EOF = false := by decide
      refine ⟨ungetc ⟨[], u, b.toInt⟩ EOF, ?_, valid_ungetc _, ?_⟩
      · simp [operator, isOp, nextChar_nil none, eof]
      · rw [stream_ungetc]
        simp [afterUnget]
  | cons c cs ih =>
      obtain ⟨fuel, rfl⟩ : ∃ n, fuel = n + 2 := ⟨fuel - 2, by simp at enough; omega⟩
      have isOp : strchr opChars b.toInt = true := op
      by_cases more : Tokenize.isOp c = true
      · obtain ⟨t', runs, valid, left⟩ := ih (fuel + 1) c (token ++ [b]) (by simpa using enough) more
        refine ⟨t', ?_, valid, ?_⟩
        · rw [operator]
          simpa [isOp, nextChar_cons none, more] using runs
        · simpa [more] using left
      · have stops : strchr opChars c.toInt = false := by simpa [Tokenize.isOp] using more
        refine ⟨ungetc ⟨cs, u, c.toInt⟩ c.toInt, ?_, valid_ungetc _, ?_⟩
        · simp [operator, isOp, nextChar_cons none, stops, more]
        · rw [stream_ungetc]
          simp [afterUnget, more]

theorem stringLiteral_eq (fuel : Nat) (escape : Bool) (current : Int) (cs token : List Byte)
    (enough : cs.length < fuel) :
    ∃ c, stringLiteral fuel escape token ⟨cs, u, current⟩ =
      some (.token .ZCM_TOK_INVALID (token ++ (stringText escape cs).1), ⟨(stringText escape cs).2, u, c⟩) := by
  induction cs generalizing fuel escape current token with
  | nil =>
      obtain ⟨fuel, rfl⟩ : ∃ n, fuel = n + 1 := ⟨fuel - 1, by simp at enough; omega⟩
      exact ⟨current, by simp [stringLiteral, nextChar_nil none, stringText]⟩
  | cons c cs ih =>
      obtain ⟨fuel, rfl⟩ : ∃ n, fuel = n + 1 := ⟨fuel - 1, by simp at enough; omega⟩
      have later : cs.length < fuel := by simpa using enough
      rw [stringLiteral, nextChar_cons none]
      simp only [toInt_eq_eof, @toInt_eq_code c '"' (by decide), @toInt_eq_code c '\\' (by decide), toByte_toInt]
      by_cases eof : c = 0xff#8
      · exact ⟨c.toInt, by simp [eof, stringText]⟩
      · simp only [eof, if_false, stringText]
        cases escape with
        | true => exact ih fuel false c.toInt token later
        | false =>
            by_cases quote : c = ch '"'
            · exact ⟨c.toInt, by simp [quote]⟩
            · by_cases backslash : c = ch '\\'
              · simpa only [if_neg quote, if_pos backslash, Bool.false_eq_true, if_false] using
                  ih fuel true c.toInt token later
              · simpa [quote, backslash] using ih fuel false c.toInt (token ++ [c]) later

theorem blob_eq (fuel : Nat) (b : Byte) (cs token : List Byte) (enough : cs.length < fuel)
    (saved : Valid ⟨[], u, 0⟩) :
    ∃ t', blob fuel b.toInt token ⟨cs, u, b.toInt⟩ =
        some (.token .ZCM_TOK_OTHER (token ++ (blobText b cs).1), t') ∧ Valid t' ∧
          stream t' = (blobText b cs).2 := by
  induction cs generalizing fuel b token with
  | nil =>
      obtain ⟨fuel, rfl⟩ : ∃ n, fuel = n + 1 := ⟨fuel - 1, by simp at enough; omega⟩
      have eof : strchr singleCharToks EOF = false ∧ strchr opChars EOF = false := by decide
      refine ⟨⟨[], u, b.toInt⟩, ?_, saved, stream_reading none⟩
      by_cases single : strchr singleCharToks b.toInt = true
      · simp [blob, single, blobText]
      · simp [blob, single, nextChar_nil none, eof, blobText]
  | cons c cs ih =>
      obtain ⟨fuel, rfl⟩ : ∃ n, fuel = n + 1 := ⟨fuel - 1, by simp at enough; omega⟩
      have later : cs.length < fuel := by simpa using enough
      rw [blob, nextChar_cons none, toByte_toInt]
      simp only [blobText, isSingle, isOp, isSpace, ← toInt_eq_eof]
      by_cases single : strchr singleCharToks b.toInt = true
      · exact ⟨⟨c :: cs, u, b.toInt⟩, by simp [single], saved, by simp [single, stream_reading none]⟩
      · by_cases ends : (strchr singleCharToks c.toInt || strchr opChars c.toInt) = true
        · have low : 0 ≤ c.toInt := by
            obtain found | found := Bool.or_eq_true_iff.mp ends
            · exact strchr_nonneg found
            · exact strchr_nonneg found
          refine ⟨ungetc ⟨cs, u, c.toInt⟩ c.toInt, by simp [single, ends], valid_ungetc _, ?_⟩
          rw [stream_ungetc]
          simp [unget, low, single, ends]
        · by_cases blank : (isspace c.toInt || decide (c.toInt = EOF)) = true
          · refine ⟨⟨cs, u, c.toInt⟩, ?_, saved, ?_⟩
            · simp only [Bool.or_eq_true, decide_eq_true_eq] at blank
              obtain space | eof := blank
              · simp [single, ends, space]
              · rw [eof] at ends
                simp [single, ends, eof]
            · simp [single, ends, blank, stream_reading none]
          · obtain ⟨t', runs, valid, left⟩ := ih fuel c (token ++ [b]) later
            simp only [Bool.or_eq_true, decide_eq_true_eq, not_or] at blank
            refine ⟨t', ?_, valid, ?_⟩
            · simpa [single, ends, blank] using runs
            · simpa [single, ends, blank] using left

theorem skipChar_eq {char : Char} (ascii : char.toNat < 128) (fuel : Nat) (last : Byte) (s : List Byte) (c : Int)
    (t : Tokenizer) (enough : s.length < fuel) (here : At u last s c t) :
    ∃ last' c' t', skipChar char fuel c t = some (c', t') ∧ At u last' (s.dropWhile (· = ch char)) c' t' ∧
      (last' :: s.dropWhile (· = ch char)).getLast (List.cons_ne_nil _ _) =
        (last :: s).getLast (List.cons_ne_nil _ _) := by
  induction s generalizing fuel last c t with
  | nil =>
      obtain ⟨fuel, rfl⟩ : ∃ n, fuel = n + 1 := ⟨fuel - 1, by simp at enough; omega⟩
      obtain ⟨rfl, rfl⟩ := here
      have eof : EOF ≠ code char := by
        unfold EOF code
        omega
      exact ⟨last, EOF, _, by simp [skipChar, eof], ⟨rfl, rfl⟩, rfl⟩
  | cons b s ih =>
      obtain ⟨fuel, rfl⟩ : ∃ n, fuel = n + 1 := ⟨fuel - 1, by simp at enough; omega⟩
      obtain ⟨rfl, rfl⟩ := here
      rw [skipChar]
      simp only [toInt_eq_code ascii]
      by_cases skipped : b = ch char
      · obtain ⟨last', c', t', runs, there, same⟩ := ih fuel b _ _ (by simpa using enough) (at_next none b s)
        have goes : (b :: s).dropWhile (· = ch char) = s.dropWhile (· = ch char) :=
          List.dropWhile_cons_of_pos (decide_eq_true skipped)
        refine ⟨last', c', t', ?_, ?_, ?_⟩
        · simpa only [if_pos skipped] using runs
        · rw [goes]
          exact there
        · simp only [goes, List.getLast_cons_cons]
          exact same
      · have stays : (b :: s).dropWhile (· = ch char) = b :: s := List.dropWhile_cons_of_neg (by simpa using skipped)
        refine ⟨last, b.toInt, ⟨s, u, b.toInt⟩, by rw [if_neg skipped], ?_, ?_⟩
        · rw [stays]
          exact ⟨rfl, rfl⟩
        · simp only [stays]

theorem restOfLine_eq (fuel : Nat) (last : Byte) (s token : List Byte) (c : Int) (t : Tokenizer)
    (enough : s.length < fuel) (here : At u last s c t) :
    ∃ t', restOfLine fuel c token t = some (.token .ZCM_TOK_COMMENT (token ++ s.takeWhile isLineChar), t') ∧
      Valid t' ∧
      stream t' = afterUnget ((last :: s).getLast (List.cons_ne_nil _ _)) (s.dropWhile isLineChar) := by
  induction s generalizing fuel last token c t with
  | nil =>
      obtain ⟨fuel, rfl⟩ : ∃ n, fuel = n + 1 := ⟨fuel - 1, by simp at enough; omega⟩
      obtain ⟨rfl, rfl⟩ := here
      refine ⟨ungetc ⟨[], u, last.toInt⟩ EOF, by simp [restOfLine], valid_ungetc _, ?_⟩
      rw [stream_ungetc]
      simp [afterUnget]
  | cons b s ih =>
      obtain ⟨fuel, rfl⟩ : ∃ n, fuel = n + 1 := ⟨fuel - 1, by simp at enough; omega⟩
      obtain ⟨rfl, rfl⟩ := here
      rw [restOfLine]
      simp only [ne_eq, toInt_eq_eof, @toInt_eq_code b '\n' (by decide), toByte_toInt]
      by_cases more : isLineChar b = true
      · have continues : ¬ b = 0xff#8 ∧ ¬ b = ch '\n' := by
          simpa [isLineChar, and_comm] using more
        obtain ⟨t', runs, valid, left⟩ := ih fuel b (token ++ [b]) _ _ (by simpa using enough) (at_next none b s)
        refine ⟨t', ?_, valid, ?_⟩
        · rw [if_pos continues, runs]
          simp [more]
        · simpa [more] using left
      · have ends : ¬ (¬ b = 0xff#8 ∧ ¬ b = ch '\n') := by
          simpa [isLineChar, and_comm] using more
        refine ⟨ungetc ⟨s, u, b.toInt⟩ b.toInt, ?_, valid_ungetc _, ?_⟩
        · rw [if_neg ends]
          simp [more]
        · rw [stream_ungetc]
          simp [afterUnget, more]

theorem leadingBlanks_eq (fuel : Nat) (b : Byte) (s token : List Byte) (enough : s.length < fuel) :
    ∃ last s' c token' t', leadingBlanks fuel token ⟨s, u, b.toInt⟩ = some (c, token', t') ∧
      At u last s' c t' ∧
      scanClose false s = scanClose false s' ∧ s'.length ≤ s.length := by
  induction s generalizing fuel b token with
  | nil =>
      obtain ⟨fuel, rfl⟩ : ∃ n, fuel = n + 1 := ⟨fuel - 1, by simp at enough; omega⟩
      exact ⟨b, [], EOF, token, _, by simp [leadingBlanks, nextChar_nil none], ⟨rfl, rfl⟩, rfl, Nat.le_refl _⟩
  | cons c s ih =>
      obtain ⟨fuel, rfl⟩ : ∃ n, fuel = n + 1 := ⟨fuel - 1, by simp at enough; omega⟩
      rw [leadingBlanks, nextChar_cons none]
      simp only [ne_eq, toInt_eq_eof, @toInt_eq_code c ' ' (by decide), @toInt_eq_code c '\t' (by decide), toByte_toInt]
      by_cases blank : ¬ c = 0xff#8 ∧ (c = ch ' ' ∨ c = ch '\t')
      · obtain ⟨last, s', c', token', t', runs, there, same, shorter⟩ :=
          ih fuel c (token ++ [c]) (by simpa using enough)
        refine ⟨last, s', c', token', t', by rw [if_pos blank, runs], there, ?_, by simp; omega⟩
        have other : ¬ c = ch '*' := by
          obtain space | tab := blank.2
          · rw [space]
            decide
          · rw [tab]
            decide
        rw [← same, scanClose, if_neg blank.1]
        simp [other]
      · exact ⟨b, c :: s, c.toInt, token, _, by rw [if_neg blank], ⟨rfl, rfl⟩, rfl, Nat.le_refl _⟩

theorem asterisks_eq (fuel : Nat) (last : Byte) (s token : List Byte) (got : Bool) (c : Int) (t : Tokenizer)
    (enough : s.length < fuel) (here : At u last s c t) :
    ∃ last' s' c' got' token' t', asterisks fuel c got token t = some (c', got', token', t') ∧
      At u last' s' c' t' ∧
      scanClose got s = scanClose got' s' ∧ s'.length ≤ s.length := by
  induction s generalizing fuel last token got c t with
  | nil =>
      obtain ⟨fuel, rfl⟩ : ∃ n, fuel = n + 1 := ⟨fuel - 1, by simp at enough; omega⟩
      obtain ⟨rfl, rfl⟩ := here
      have eof : EOF ≠ code '*' := by decide
      exact ⟨last, [], EOF, got, token, _, by simp [asterisks, eof], ⟨rfl, rfl⟩, rfl, Nat.le_refl _⟩
  | cons b s ih =>
      obtain ⟨fuel, rfl⟩ : ∃ n, fuel = n + 1 := ⟨fuel - 1, by simp at enough; omega⟩
      obtain ⟨rfl, rfl⟩ := here
      rw [asterisks]
      simp only [@toInt_eq_code b '*' (by decide), toByte_toInt]
      by_cases star : b = ch '*'
      · obtain ⟨last', s', c', got', token', t', runs, there, same, shorter⟩ :=
          ih fuel b (token ++ [b]) true _ _ (by simpa using enough) (at_next none b s)
        refine ⟨last', s', c', got', token', t', by rw [if_pos star, runs], there, ?_, by simp; omega⟩
        have first : scanClose got (b :: s) = scanClose true s := by
          subst star
          cases got <;> rfl
        rw [first, same]
      · exact ⟨last, b :: s, b.toInt, got, token, _, by rw [if_neg star], ⟨rfl, rfl⟩, rfl, Nat.le_refl _⟩

theorem commentLine_eq (fuel : Nat) (last : Byte) (s token : List Byte) (c : Int) (t : Tokenizer)
    (enough : s.length < fuel) (here : At u last s c t) :
    ∃ finished c' token' t', commentLine fuel c token t = some (finished, c', token', t') ∧
      if finished then ∃ b rest, t' = ⟨rest, u, b⟩ ∧ scanClose false s = (true, rest)
      else ∃ last' s', At u last' s' c' t' ∧ scanClose false s = scanClose false s' ∧ s'.length ≤ s.length ∧
        ∀ b ∈ s'.head?, b = 0xff#8 ∨ b = ch '\n' := by
  induction s generalizing fuel last token c t with
  | nil =>
      obtain ⟨fuel, rfl⟩ : ∃ n, fuel = n + 1 := ⟨fuel - 1, by simp at enough; omega⟩
      obtain ⟨rfl, rfl⟩ := here
      exact ⟨false, EOF, token, _, by simp [commentLine], last, [], ⟨rfl, rfl⟩, rfl, Nat.le_refl _, by simp⟩
  | cons b s ih =>
      obtain ⟨fuel, rfl⟩ : ∃ n, fuel = n + 1 := ⟨fuel - 1, by simp at enough; omega⟩
      obtain ⟨rfl, rfl⟩ := here
      rw [commentLine]
      simp only [ne_eq, toInt_eq_eof, @toInt_eq_code b '\n' (by decide), @toInt_eq_code b '*' (by decide), toByte_toInt]
      by_cases more : ¬ b = 0xff#8 ∧ ¬ b = ch '\n'
      · simp only [if_pos more]
        have step : scanClose false (b :: s) = scanClose (b = ch '*') s := by
          rw [scanClose, if_neg more.1]
          simp
        by_cases closes : b = ch '*' ∧ (nextChar ⟨s, u, b.toInt⟩).1 = code '/'
        · cases s with
          | nil =>
              rw [nextChar_nil none] at closes
              have eof : EOF ≠ code '/' := by decide
              exact absurd closes.2 eof
          | cons d s =>
              rw [nextChar_cons none] at closes ⊢
              have slash : d = ch '/' := (toInt_eq_code (by decide)).mp closes.2
              refine ⟨true, d.toInt, _, ⟨s, u, d.toInt⟩, by rw [if_pos closes], d.toInt, s, rfl, ?_⟩
              rw [step, closes.1, slash]
              rfl
        · rw [if_neg closes]
          obtain ⟨finished, c', token', t', runs, outcome⟩ :=
            ih fuel b (token ++ [b]) _ _ (by simpa using enough) (at_next none b s)
          have same : scanClose false (b :: s) = scanClose false s := by
            rw [step]
            apply scanClose_star
            by_contra both
            obtain ⟨slash, star⟩ := not_or.mp both
            apply closes
            refine ⟨not_not.mp star, ?_⟩
            cases s with
            | nil => simp at slash
            | cons d s =>
                rw [nextChar_cons none]
                exact (toInt_eq_code (by decide)).mpr (by simpa using slash)
          refine ⟨finished, c', token', t', runs, ?_⟩
          rw [same]
          cases finished with
          | true => exact outcome
          | false =>
              obtain ⟨last', s', there, scan, shorter, stops⟩ := outcome
              exact ⟨last', s', there, scan, by simp; omega, stops⟩
      · refine ⟨false, b.toInt, token, ⟨s, u, b.toInt⟩, by rw [if_neg more], last, b :: s, ⟨rfl, rfl⟩, rfl,
          Nat.le_refl _, ?_⟩
        intro first head
        obtain rfl : b = first := by simpa using head
        by_cases eof : b = 0xff#8
        · exact .inl eof
        · exact .inr (by_contra fun newline => more ⟨eof, newline⟩)

theorem skipBlank_eq {last : Byte} {s : List Byte} {got : Bool} {c : Int} {t : Tokenizer} (here : At u last s c t)
    (notClosed : ¬ (got = true ∧ c = code '/')) :
    ∃ last' s', At u last' s' (if got = true ∧ c = code ' ' then nextChar t else (c, t)).1
        (if got = true ∧ c = code ' ' then nextChar t else (c, t)).2 ∧
      scanClose got s = scanClose false s' ∧ s'.length ≤ s.length := by
  cases got with
  | false => exact ⟨last, s, by simpa using here, rfl, Nat.le_refl _⟩
  | true =>
      simp only [true_and] at notClosed ⊢
      cases s with
      | nil =>
          obtain ⟨rfl, rfl⟩ := here
          have eof : EOF ≠ code ' ' := by decide
          exact ⟨last, [], by simp [eof, At], rfl, Nat.le_refl _⟩
      | cons b s =>
          obtain ⟨rfl, rfl⟩ := here
          simp only [@toInt_eq_code b ' ' (by decide), @toInt_eq_code b '/' (by decide)] at notClosed ⊢
          by_cases blank : b = ch ' '
          · refine ⟨b, s, ?_, ?_, by simp⟩
            · simp only [if_pos blank]
              exact at_next none b s
            · subst blank
              rfl
          · refine ⟨last, b :: s, ?_, ?_, Nat.le_refl _⟩
            · simp only [if_neg blank]
              exact ⟨rfl, rfl⟩
            · simp [scanClose, notClosed]

theorem extendedComment_eq (fuel : Nat) (b : Byte) (s token : List Byte) (enough : s.length < fuel)
    (saved : Valid ⟨[], u, 0⟩) :
    ∃ result t', extendedComment fuel token ⟨s, u, b.toInt⟩ = some (result, t') ∧ Valid t' ∧
      stream t' = (scanClose false s).2 ∧
      if (scanClose false s).1 then ∃ text, result = .token .ZCM_TOK_COMMENT text else result = .eof := by
  induction fuel generalizing b s token with
  | zero => exact absurd enough (Nat.not_lt_zero _)
  | succ fuel ih =>
      obtain ⟨last, s₁, c₁, token₁, t₁, blanks, at₁, scan₁, length₁⟩ :=
        leadingBlanks_eq none (fuel + 1) b s token enough
      obtain ⟨last₂, s₂, c₂, got, token₂, t₂, stars, at₂, scan₂, length₂⟩ :=
        asterisks_eq none (fuel + 1) last s₁ token₁ false c₁ t₁ (by omega) at₁
      rw [scan₁, scan₂]
      simp only [extendedComment, blanks, stars, Option.bind_eq_bind, Option.bind_some]
      by_cases closed : got = true ∧ c₂ = code '/'
      · cases s₂ with
        | nil =>
            have eof : EOF ≠ code '/' := by decide
            exact absurd (at₂.1.symm.trans closed.2) eof
        | cons d rest =>
            obtain ⟨rfl, rfl⟩ := at₂
            have slash : d = ch '/' := (toInt_eq_code (by decide)).mp closed.2
            have scan : scanClose got (d :: rest) = (true, rest) := by
              rw [closed.1, slash]
              rfl
            refine ⟨_, ⟨rest, u, d.toInt⟩, by rw [if_pos closed]; rfl, saved, ?_, ?_⟩
            · rw [scan, stream_reading none]
            · simp [scan]
      · obtain ⟨last₃, s₃, at₃, scan₃, length₃⟩ := skipBlank_eq none at₂ closed
        obtain ⟨finished, c₄, token₄, t₄, line, outcome⟩ := commentLine_eq none (fuel + 1) last₃ s₃
          (if got = true then token₂.take token.length else token₂) _ _ (by omega) at₃
        rw [if_neg closed, scan₃]
        simp only [line, Option.bind_some]
        cases finished with
        | true =>
            obtain ⟨d, rest, rfl, scan⟩ := outcome
            refine ⟨_, ⟨rest, u, d⟩, rfl, saved, ?_, ?_⟩
            · rw [scan, stream_reading none]
            · simp [scan]
        | false =>
            obtain ⟨last₄, s₄, at₄, scan₄, length₄, stops⟩ := outcome
            rw [scan₄]
            cases s₄ with
            | nil =>
                obtain ⟨rfl, rfl⟩ := at₄
                exact ⟨.eof, ⟨[], u, last₄.toInt⟩, rfl, saved, stream_reading none, rfl⟩
            | cons d rest =>
                obtain ⟨rfl, rfl⟩ := at₄
                obtain rfl | rfl := stops d rfl
                · exact ⟨.eof, ⟨rest, u, _⟩, rfl, saved, stream_reading none, rfl⟩
                · have smaller : rest.length < fuel := by
                    simp only [List.length_cons] at length₄
                    omega
                  exact ih (ch '\n') rest _ smaller

end Loops

def unescapeByte (b : Byte) : Byte := toByte (unescape b.toInt)

def charClose (middle : Byte) : List Byte → Result × List Byte
  | [] => (.error (-5), [])
  | c :: cs =>
      if c = ch '\'' then (.token .ZCM_TOK_OTHER [ch '\'', middle, c], cs) else (.error (-5), cs)

def charText : List Byte → Result × List Byte
  | [] => (.error (-4), [])
  | c :: cs =>
      if c = ch '\\' then
        match cs with
        | [] => (.error (-4), [])
        | d :: ds => if d = 0xff#8 then (.error (-4), ds) else charClose (unescapeByte d) ds
      else if c = 0xff#8 then (.error (-4), cs)
      else charClose c cs

theorem unescape_eq_eof {b : Byte} : unescape b.toInt = EOF ↔ b = 0xff#8 := by
  rw [← toInt_eq_eof]
  unfold unescape
  split
  · rename_i letter
    rw [letter]
    decide
  · split
    · rename_i letter
      rw [letter]
      decide
    · split
      · rename_i letter
        rw [letter]
        decide
      · rfl

theorem charClose_eq {u : Int} (none : u < 0) (b : Byte) (cs : List Byte) (middle : Int) :
    ∃ last : Byte, (if (nextChar ⟨cs, u, b.toInt⟩).1 ≠ code '\'' then
        (Result.error (-5), (nextChar ⟨cs, u, b.toInt⟩).2)
      else (.token .ZCM_TOK_OTHER [ch '\'', toByte middle, toByte (nextChar ⟨cs, u, b.toInt⟩).1],
        (nextChar ⟨cs, u, b.toInt⟩).2)) =
      ((charClose (toByte middle) cs).1, ⟨(charClose (toByte middle) cs).2, u, last.toInt⟩) := by
  cases cs with
  | nil =>
      have eof : EOF ≠ code '\'' := by decide
      exact ⟨b, by simp [nextChar_nil none, eof, charClose]⟩
  | cons c cs =>
      refine ⟨c, ?_⟩
      simp only [nextChar_cons none, ne_eq, @toInt_eq_code c '\'' (by decide), toByte_toInt, charClose]
      by_cases quote : c = ch '\''
      · simp only [if_neg (not_not.mpr quote), if_pos quote]
      · simp only [if_pos quote, if_neg quote]

theorem charLiteral_eq {u : Int} (none : u < 0) (b : Byte) (cs : List Byte) :
    ∃ last : Byte, charLiteral ⟨cs, u, b.toInt⟩ = ((charText cs).1, ⟨(charText cs).2, u, last.toInt⟩) := by
  have backslash : EOF ≠ code '\\' := by decide
  have escaped : unescape EOF = EOF := by decide
  unfold charLiteral
  cases cs with
  | nil => exact ⟨b, by simp [nextChar_nil none, backslash, charText]⟩
  | cons c cs =>
      simp only [nextChar_cons none, @toInt_eq_code c '\\' (by decide), charText]
      by_cases escape : c = ch '\\'
      · simp only [if_pos escape]
        cases cs with
        | nil => exact ⟨c, by simp [nextChar_nil none, escaped]⟩
        | cons d ds =>
            simp only [nextChar_cons none, unescape_eq_eof]
            by_cases eof : d = 0xff#8
            · exact ⟨d, by simp only [if_pos eof]⟩
            · simp only [if_neg eof]
              exact charClose_eq none d ds (unescape d.toInt)
      · simp only [if_neg escape, toInt_eq_eof]
        by_cases eof : c = 0xff#8
        · exact ⟨c, by simp only [if_pos eof]⟩
        · simp only [if_neg eof]
          have closes := charClose_eq none c cs c.toInt
          simp only [toByte_toInt] at closes ⊢
          exact closes

/-- What one call returns when `b` is the first character that is not blank, `cs` follow it, and `after`
is left for the next call. -/
inductive Outcome : Byte → List Byte → Result → List Byte → Prop
  | eof (cs) : Outcome 0xff#8 cs .eof cs
  | char (cs) : Outcome (ch '\'') cs (charText cs).1 (charText cs).2
  | string (cs) : Outcome (ch '"') cs (.token .ZCM_TOK_INVALID (ch '"' :: (stringText false cs).1))
    (stringText false cs).2
  | operator (b cs) (op : isOp b = true) : Outcome b cs (.token .ZCM_TOK_OTHER (b :: cs.takeWhile isOp))
      (afterUnget ((b :: cs.takeWhile isOp).getLast (List.cons_ne_nil _ _)) (cs.dropWhile isOp))
  | slashEnd : Outcome (ch '/') [] (.token .ZCM_TOK_OTHER [ch '/']) []
  | slash (c cs) (noStar : c ≠ ch '*') (noSlash : c ≠ ch '/') :
      Outcome (ch '/') (c :: cs) (.token .ZCM_TOK_OTHER [ch '/']) (unget c ++ cs)
  | line (cs text) : Outcome (ch '/') (ch '/' :: cs) (.token .ZCM_TOK_COMMENT text)
      (afterUnget ((ch '/' :: cs).getLast (List.cons_ne_nil _ _)) (cs.dropWhile isLineChar))
  | closed (cs text) (closed : (scanClose false cs).1 = true) :
      Outcome (ch '/') (ch '*' :: cs) (.token .ZCM_TOK_COMMENT text) (scanClose false cs).2
  | unclosed (cs) (unclosed : (scanClose false cs).1 = false) :
      Outcome (ch '/') (ch '*' :: cs) .eof (scanClose false cs).2
  | blob (b cs) (noEof : b ≠ 0xff#8) (noChar : b ≠ ch '\'') (noString : b ≠ ch '"') (noOp : isOp b = false)
      (noSlash : b ≠ ch '/') : Outcome b cs (.token .ZCM_TOK_OTHER (blobText b cs).1) (blobText b cs).2

theorem dropWhile_dropWhile {p q : Byte → Bool} (implies : ∀ b, q b = true → p b = true) (s : List Byte) :
    (s.dropWhile q).dropWhile p = s.dropWhile p := by
  induction s with
  | nil => rfl
  | cons b s ih =>
      by_cases skipped : q b = true
      · rw [List.dropWhile_cons_of_pos skipped, List.dropWhile_cons_of_pos (implies b skipped), ih]
      · rw [List.dropWhile_cons_of_neg skipped]

theorem slash_eq {u : Int} (none : u < 0) (saved : Valid ⟨[], u, 0⟩) (fuel : Nat) (cs : List Byte)
    (enough : cs.length < fuel) :
    ∃ result t', slash fuel ⟨cs, u, (ch '/').toInt⟩ = some (result, t') ∧ Valid t' ∧
      Outcome (ch '/') cs result (stream t') := by
  unfold slash
  cases cs with
  | nil =>
      refine ⟨_, ⟨[], u, (ch '/').toInt⟩, by rw [nextChar_nil none]; rfl, saved, ?_⟩
      rw [stream_reading none]
      exact .slashEnd
  | cons c cs =>
      simp only [nextChar_cons none, toInt_eq_eof, @toInt_eq_code c '*' (by decide), @toInt_eq_code c '/' (by decide)]
      by_cases eof : c = 0xff#8
      · refine ⟨_, ⟨cs, u, c.toInt⟩, by rw [if_pos eof]; rfl, saved, ?_⟩
        rw [stream_reading none]
        subst eof
        exact .slash 0xff#8 cs (by decide) (by decide)
      · rw [if_neg eof]
        have shorter : cs.length < fuel := by
          rw [List.length_cons] at enough
          omega
        by_cases star : c = ch '*'
        · subst star
          obtain ⟨result, t', runs, valid, left, kind⟩ := extendedComment_eq none fuel (ch '*') cs [] shorter saved
          refine ⟨result, t', by simpa using runs, valid, ?_⟩
          rw [left]
          cases closed : (scanClose false cs).1 with
          | true =>
              rw [if_pos closed] at kind
              obtain ⟨text, rfl⟩ := kind
              exact .closed cs text closed
          | false =>
              rw [if_neg (by simp [closed])] at kind
              subst kind
              exact .unclosed cs closed
        · rw [if_neg star]
          by_cases line : c = ch '/'
          · subst line
            have slashes : ∀ b, decide (b = ch '/') = true → isLineChar b = true := by
              intro b slash
              rw [of_decide_eq_true slash]
              decide
            have blanks : ∀ b, decide (b = ch ' ') = true → isLineChar b = true := by
              intro b blank
              rw [of_decide_eq_true blank]
              decide
            obtain ⟨last₁, c₁, t₁, skipped₁, at₁, same₁⟩ :=
              skipChar_eq none (by decide : '/'.toNat < 128) fuel
              (ch '/') cs _ _ shorter (at_next none (ch '/') cs)
            have length₁ := cs.length_dropWhile_le (· = ch '/')
            obtain ⟨last₂, c₂, t₂, skipped₂, at₂, same₂⟩ :=
              skipChar_eq none (by decide : ' '.toNat < 128) fuel last₁
              (cs.dropWhile (· = ch '/')) c₁ t₁ (by omega) at₁
            have length₂ := (cs.dropWhile (· = ch '/')).length_dropWhile_le (· = ch ' ')
            obtain ⟨t', runs, valid, left⟩ := restOfLine_eq none fuel last₂
              ((cs.dropWhile (· = ch '/')).dropWhile (· = ch ' ')) [] c₂ t₂ (by omega) at₂
            refine ⟨_, t', by simp [skipped₁, skipped₂, runs]; rfl, valid, ?_⟩
            rw [left, dropWhile_dropWhile blanks, dropWhile_dropWhile slashes, same₂, same₁]
            exact .line cs _
          · refine ⟨_, ungetc ⟨cs, u, c.toInt⟩ c.toInt, by rw [if_neg line]; rfl, valid_ungetc _, ?_⟩
            rw [stream_ungetc]
            exact .slash c cs star line

theorem tokenizeNext_outcome {t : Tokenizer} (valid : Valid t) :
    ∃ result t', tokenizeNext t = some (result, t') ∧ Valid t' ∧
      match (stream t).dropWhile isSpace with
      | [] => result = .eof ∧ stream t' = []
      | b :: cs => Outcome b cs result (stream t') := by
  have length : (stream t).length < t.rest.length + 2 := by
    unfold stream
    split
    · simp
    · omega
  cases first : (stream t).dropWhile isSpace with
  | nil =>
      obtain ⟨t', skipped, valid', ended⟩ := skipSpaces_ended valid length first
      exact ⟨.eof, t', by simp [tokenizeNext, tokenizeNextInternal, skipped], valid', rfl, ended⟩
  | cons b cs =>
      obtain ⟨u, none, valid', skipped⟩ := skipSpaces_next valid length first
      have saved : Valid ⟨[], u, 0⟩ := valid'
      have enough : cs.length + 1 < t.rest.length + 2 := by
        have shorter := (stream t).length_dropWhile_le isSpace
        rw [first, List.length_cons] at shorter
        omega
      simp only [tokenizeNext, tokenizeNextInternal, skipped, Option.bind_eq_bind, Option.bind_some, toInt_eq_eof,
        @toInt_eq_code b '\'' (by decide), @toInt_eq_code b '"' (by decide), @toInt_eq_code b '/' (by decide)]
      by_cases eof : b = 0xff#8
      · subst eof
        refine ⟨_, ⟨cs, u, _⟩, rfl, saved, ?_⟩
        rw [stream_reading none]
        exact .eof cs
      rw [if_neg eof]
      by_cases char : b = ch '\''
      · subst char
        obtain ⟨last, literal⟩ := charLiteral_eq none (ch '\'') cs
        refine ⟨(charText cs).1, ⟨(charText cs).2, u, last.toInt⟩, by rw [if_pos rfl, literal]; rfl, saved, ?_⟩
        rw [stream_reading none]
        exact .char cs
      rw [if_neg char]
      by_cases string : b = ch '"'
      · subst string
        obtain ⟨c, literal⟩ := stringLiteral_eq none (t.rest.length + 2) false (ch '"').toInt cs [ch '"'] (by omega)
        refine ⟨_, ⟨(stringText false cs).2, u, c⟩, by simpa using literal, saved, ?_⟩
        rw [stream_reading none]
        exact .string cs
      rw [if_neg string]
      by_cases op : isOp b = true
      · obtain ⟨t', runs, valid'', left⟩ := operator_eq none (t.rest.length + 2) b cs [] enough op
        have isOp : strchr opChars b.toInt = true := op
        refine ⟨_, t', by simpa [isOp] using runs, valid'', ?_⟩
        rw [left]
        exact .operator b cs op
      have notOp : strchr opChars b.toInt = false := by simpa [Tokenize.isOp] using op
      by_cases slash : b = ch '/'
      · subst slash
        obtain ⟨result, t', runs, valid'', outcome⟩ := slash_eq none saved (t.rest.length + 2) cs (by omega)
        exact ⟨result, t', by simpa [notOp] using runs, valid'', outcome⟩
      · obtain ⟨t', runs, valid'', left⟩ := blob_eq none (t.rest.length + 2) b cs [] (by omega) saved
        refine ⟨_, t', by simpa [notOp, slash] using runs, valid'', ?_⟩
        rw [left]
        exact .blob b cs eof char string (by simpa using op) slash

end Zcm.Gen.Tokenize
