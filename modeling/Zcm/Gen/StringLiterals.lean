import Zcm.Gen.TokenizeClean

namespace Zcm.Gen.Tokenize
open Zcm.Lib

inductive Piece
  | plain (b : Byte) (bare : b ≠ ch '"' ∧ b ≠ ch '\\')
  | escape (b : Byte)

def Piece.written : Piece → List Byte
  | plain b _ => [b]
  | escape b => [ch '\\', b]

def Piece.value : Piece → Byte
  | plain b _ => b
  | escape b => unescapeByte b

/-- A character as it is, and not the one that is taken for the end of the file. -/
def Piece.Kept (piece : Piece) : Prop := ∃ b bare, piece = .plain b bare ∧ b ≠ 0xff#8

theorem Piece.kept_plain {b : Byte} (bare : b ≠ ch '"' ∧ b ≠ ch '\\') :
    Kept (.plain b bare) ↔ b ≠ 0xff#8 := by
  constructor
  · rintro ⟨b', bare', same, low⟩
    cases same
    exact low
  · intro low
    exact ⟨b, bare, rfl, low⟩

theorem Piece.not_kept_escape (b : Byte) : ¬ Kept (.escape b) := by
  rintro ⟨b', bare, same, _⟩
  cases same

def written (pieces : List Piece) (rest : List Byte) : List Byte := pieces.flatMap (·.written) ++ ch '"' :: rest

def meant (pieces : List Piece) : List Byte := ch '"' :: (pieces.map (·.value) ++ [ch '"'])

section Stored

variable (rest : List Byte)

theorem stringText_end : stringText false (written [] rest) = ([ch '"'], rest) := by
  have low : ch '"' ≠ 0xff#8 := by decide
  change stringText false (ch '"' :: rest) = _
  rw [stringText, if_neg low, if_neg Bool.false_ne_true, if_pos rfl]

theorem stringText_plain_piece {b : Byte} (bare : b ≠ ch '"' ∧ b ≠ ch '\\') (pieces : List Piece) :
    (stringText false (written (.plain b bare :: pieces) rest)).1 =
      if b = 0xff#8 then [] else b :: (stringText false (written pieces rest)).1 := by
  change (stringText false (b :: written pieces rest)).1 = _
  rw [stringText, if_neg Bool.false_ne_true, if_neg bare.1, if_neg bare.2]
  split <;> rfl

theorem stringText_escape (b : Byte) (pieces : List Piece) :
    (stringText false (written (.escape b :: pieces) rest)).1 =
      if b = 0xff#8 then [] else (stringText false (written pieces rest)).1 := by
  have low : ch '\\' ≠ 0xff#8 := by decide
  have quote : ch '\\' ≠ ch '"' := by decide
  change (stringText false (ch '\\' :: b :: written pieces rest)).1 = _
  rw [stringText, if_neg low, if_neg Bool.false_ne_true, if_neg quote, if_pos rfl, stringText]
  split
  next => rfl
  next => rw [if_pos rfl]

theorem stringText_le (pieces : List Piece) :
    (stringText false (written pieces rest)).1.length ≤ pieces.length + 1 := by
  induction pieces with
  | nil => rw [stringText_end]; exact Nat.le_refl 1
  | cons piece pieces ih =>
      rw [List.length_cons]
      cases piece with
      | plain b bare =>
          rw [stringText_plain_piece]
          split
          · exact Nat.zero_le _
          · exact Nat.succ_le_succ ih
      | escape b =>
          rw [stringText_escape]
          split
          · exact Nat.zero_le _
          · exact ih.trans (Nat.le_succ _)

theorem stringText_iff (pieces : List Piece) :
    (stringText false (written pieces rest)).1 = pieces.map (·.value) ++ [ch '"'] ↔
    ∀ piece ∈ pieces, piece.Kept := by
  induction pieces with
  | nil => exact iff_of_true (by rw [stringText_end]; rfl) (fun piece member => nomatch member)
  | cons piece pieces ih =>
      rw [List.forall_mem_cons, ← ih, List.map_cons, List.cons_append]
      cases piece with
      | plain b bare =>
          rw [stringText_plain_piece, Piece.kept_plain]
          split
          next eof => exact iff_of_false (List.cons_ne_nil _ _).symm (fun both => both.1 eof)
          next low =>
              rw [List.cons_eq_cons]
              exact and_congr_left fun _ => iff_of_true rfl low
      | escape b =>
          refine iff_of_false ?_ (fun both => Piece.not_kept_escape b both.1)
          intro same
          have lengths := congrArg List.length same
          have short := stringText_le rest pieces
          rw [stringText_escape, List.length_cons, List.length_append, List.length_map,
            List.length_singleton] at lengths
          split at lengths
          · exact absurd lengths (by simp)
          · omega

end Stored

/-- A string literal survives if and only if it has no escape pairs, and no byte that is taken for the end of the
file. Files have no NUL here: `strlen` cuts a line off at its first one. -/
theorem stringLiteral_survives_iff {t : Tokenizer} (valid : Valid t) (pieces : List Piece) (rest : List Byte)
    (first : (stream t).dropWhile isSpace = ch '"' :: written pieces rest) :
    (∃ type t', tokenizeNext t = some (.token type (meant pieces), t')) ↔ ∀ piece ∈ pieces, piece.Kept := by
  obtain ⟨result, t', call, _, outcome⟩ := tokenizeNext_outcome valid
  rw [first] at outcome
  obtain ⟨rfl, -⟩ := outcome.of_string rfl
  rw [← stringText_iff rest, call]
  constructor
  · rintro ⟨type, t'', same⟩
    obtain ⟨token, -⟩ := Prod.mk.inj (Option.some.inj same)
    obtain ⟨-, text⟩ := Result.token.inj token
    exact (List.cons.inj text).2
  · intro text
    exact ⟨.ZCM_TOK_INVALID, t', by rw [text, meant]⟩

def escapedFile : CString := ⟨[ch '"', ch 'a', ch '\\', ch 'n', ch 'b', ch '"'], by decide⟩

def escapedPieces : List Piece := [.plain (ch 'a') (by decide), .escape (ch 'n'), .plain (ch 'b') (by decide)]

theorem stringLiteral_loses : (stream (create escapedFile)).dropWhile isSpace = ch '"' :: written escapedPieces [] ∧
    (tokenizeNext (create escapedFile)).map (·.1) =
      some (.token .ZCM_TOK_INVALID [ch '"', ch 'a', ch 'b', ch '"']) ∧
    meant escapedPieces = [ch '"', ch 'a', 10, ch 'b', ch '"'] := by
  decide

theorem stringLiteral_survives_iff_escaped :
    (∃ type t', tokenizeNext (create escapedFile) = some (.token type (meant escapedPieces), t')) ↔
      ∀ piece ∈ escapedPieces, piece.Kept :=
  stringLiteral_survives_iff ⟨0xff#8, by decide⟩ escapedPieces [] (by decide)

end Zcm.Gen.Tokenize
