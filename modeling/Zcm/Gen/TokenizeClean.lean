import Zcm.Gen.TokenizeStream

namespace Zcm.Gen.Tokenize
open Zcm.Lib

def close : Bool → List Byte → Option (List Byte)
  | _, [] => none
  | star, b :: bs => if star && b = ch '/' then some bs else close (b = ch '*') bs

inductive OnlyComments : List Byte → Prop
  | blank {s} (blank : s.dropWhile isSpace = []) : OnlyComments s
  | line {s cs} (first : s.dropWhile isSpace = ch '/' :: ch '/' :: cs)
      (later : OnlyComments (cs.dropWhile (· ≠ ch '\n'))) : OnlyComments s
  | closed {s cs rest} (first : s.dropWhile isSpace = ch '/' :: ch '*' :: cs) (closes : close false cs = some rest)
      (later : OnlyComments rest) : OnlyComments s
  | unclosed {s cs} (first : s.dropWhile isSpace = ch '/' :: ch '*' :: cs) (open' : close false cs = none) :
      OnlyComments s

def unescapeAll : List Byte → List Byte
  | [] => []
  | [b] => [b]
  | b :: c :: cs => if b = ch '\\' then unescapeByte c :: unescapeAll cs else b :: unescapeAll (c :: cs)

def isQuote (b : Byte) : Bool := b = ch '\'' || b = ch '"'

def endsLine (s : List Byte) : Bool :=
  match s.dropWhile (fun b => isSpace b && b ≠ ch '\n') with
  | [] => true
  | b :: _ => b = ch '\n'

/-- The result is what the characters in front of `after` stand for: a token that is spelled so, up to blanks
behind it, a literal with its escapes, or a whole comment. -/
inductive Belongs : List Byte → Result → List Byte → Prop
  | plain (type b text blanks after) (noComment : type ≠ .ZCM_TOK_COMMENT) (noQuote : isQuote b = false)
      (blank : ∀ c ∈ blanks, isSpace c = true) :
      Belongs (b :: text ++ blanks ++ after) (.token type (b :: text)) after
  | literal (type q body after) (noComment : type ≠ .ZCM_TOK_COMMENT) (quote : isQuote q = true) :
      Belongs (q :: body ++ after) (.token type (q :: unescapeAll body)) after
  | line (body text after) (inLine : ch '\n' ∉ body) (ends : endsLine after = true) :
      Belongs (ch '/' :: ch '/' :: body ++ after) (.token .ZCM_TOK_COMMENT text) after
  | extended (body text after) (closes : close false body = some []) :
      Belongs (ch '/' :: ch '*' :: body ++ after) (.token .ZCM_TOK_COMMENT text) after

/-- Call after call takes its token off what is left, until nothing but comments is and the end is reported. -/
inductive Tokenizes : Tokenizer → Prop
  | done {t t'} (call : tokenizeNext t = some (.eof, t')) (rest : OnlyComments (stream t)) : Tokenizes t
  | next {t t' result} (call : tokenizeNext t = some (result, t')) (more : result ≠ .eof)
      (belongs : Belongs ((stream t).dropWhile isSpace) result (stream t')) (later : Tokenizes t') : Tokenizes t

def isBlobChar (b : Byte) : Bool := !isSingle b && !isOp b && !isSpace b

/-- A token or comment that begins with `b`, goes on in `cs` and is taken off whole, so that `after` is left:
no byte 255 in it, no byte above 127 right behind an operator or a slash, no operator at the very end, no
escape in a string, no malformed character literal, and no comment that ends with the file in a character
that would come again. -/
inductive CleanLexeme : Byte → List Byte → List Byte → Prop
  | char (c rest) (noEscape : c ≠ ch '\\') (noEof : c ≠ 0xff#8) : CleanLexeme (ch '\'') (c :: ch '\'' :: rest) rest
  | escape (c rest) (noEof : c ≠ 0xff#8) : CleanLexeme (ch '\'') (ch '\\' :: c :: ch '\'' :: rest) rest
  | string (cs) (noEscape : ∀ c ∈ cs.takeWhile (· ≠ ch '"'), c ≠ ch '\\' ∧ c ≠ 0xff#8) :
      CleanLexeme (ch '"') cs (cs.dropWhile (· ≠ ch '"')).tail
  | operator (b cs c rest) (op : isOp b = true) (follows : cs.dropWhile isOp = c :: rest) (low : 0 ≤ c.toInt) :
      CleanLexeme b cs (c :: rest)
  | slashEnd : CleanLexeme (ch '/') [] []
  | slash (c cs) (noStar : c ≠ ch '*') (noSlash : c ≠ ch '/') (low : 0 ≤ c.toInt) :
      CleanLexeme (ch '/') (c :: cs) (c :: cs)
  | line (cs rest) (newline : cs.dropWhile isLineChar = ch '\n' :: rest) :
      CleanLexeme (ch '/') (ch '/' :: cs) (ch '\n' :: rest)
  | lineCut (cs rest) (eof : cs.dropWhile isLineChar = 0xff#8 :: rest) (ends : endsLine rest = true) :
      CleanLexeme (ch '/') (ch '/' :: cs) rest
  | lineEnd (cs) (ended : cs.dropWhile isLineChar = [])
      (last : isSpace ((ch '/' :: cs).getLast (List.cons_ne_nil _ _)) = true ∨
        ((ch '/' :: cs).getLast (List.cons_ne_nil _ _)).toInt < 0) : CleanLexeme (ch '/') (ch '/' :: cs) []
  | extended (cs) (closes : (scanClose false cs).1 = true) :
      CleanLexeme (ch '/') (ch '*' :: cs) (scanClose false cs).2
  | single (b cs) (single : isSingle b = true) (noQuote : isQuote b = false) (noOp : isOp b = false) :
      CleanLexeme b cs cs
  | blob (b cs) (starts : isBlobChar b = true) (noSlash : b ≠ ch '/')
      (noEof : 0xff#8 ∉ b :: cs.takeWhile isBlobChar) :
      CleanLexeme b cs (cs.dropWhile isBlobChar)

/-- Nothing but clean tokens and comments; an extended comment that is never closed, or has a byte 255 in it,
may only be followed by comments. -/
inductive Clean : List Byte → Prop
  | blank {s} (blank : s.dropWhile isSpace = []) : Clean s
  | lexeme {s b cs after} (first : s.dropWhile isSpace = b :: cs) (lexeme : CleanLexeme b cs after)
      (later : Clean after) : Clean s
  | unclosed {s cs} (first : s.dropWhile isSpace = ch '/' :: ch '*' :: cs) (open' : (scanClose false cs).1 = false)
      (rest : OnlyComments s) : Clean s

theorem OnlyComments.congr {s s' : List Byte} (only : OnlyComments s)
    (same : s'.dropWhile isSpace = s.dropWhile isSpace) : OnlyComments s' := by
  cases only with
  | blank blank => exact .blank (same.trans blank)
  | line first later => exact .line (same.trans first) later
  | closed first closes later => exact .closed (same.trans first) closes later
  | unclosed first open' => exact .unclosed (same.trans first) open'

theorem Clean.congr {s s' : List Byte} (clean : Clean s) (same : s'.dropWhile isSpace = s.dropWhile isSpace) :
    Clean s' := by
  cases clean with
  | blank blank => exact .blank (same.trans blank)
  | lexeme first lexeme later => exact .lexeme (same.trans first) lexeme later
  | unclosed first open' rest => exact .unclosed (same.trans first) open' (rest.congr same)

theorem high_not_space {b : Byte} (high : ¬ 0 ≤ b.toInt) : isSpace b = false := by
  have ascii : isSpace b = true → 0 ≤ b.toInt := by
    intro space
    simp only [isSpace, isspace, Bool.or_eq_true, Bool.and_eq_true, decide_eq_true_eq] at space
    obtain ⟨least, -⟩ | blank := space
    · omega
    · rw [blank]
      exact Int.natCast_nonneg _
  simpa using fun space => high (ascii space)

theorem op_not_quote {b : Byte} (op : isOp b = true) : isQuote b = false := by
  by_contra quote
  simp only [isQuote, Bool.not_eq_false, Bool.or_eq_true, decide_eq_true_eq] at quote
  obtain rfl | rfl := quote
  · exact absurd op (by decide)
  · exact absurd op (by decide)

theorem unget_low {b : Byte} (low : 0 ≤ b.toInt) : unget b = [b] := by simp [unget, low]

theorem unget_high {b : Byte} (high : ¬ 0 ≤ b.toInt) : unget b = [] := by simp [unget, high]

theorem Belongs.isToken {s after : List Byte} {result : Result} (belongs : Belongs s result after) :
    ∃ type text, result = .token type text := by
  cases belongs <;> exact ⟨_, _, rfl⟩

theorem Belongs.plain_split {s text after : List Byte} {type : TokenType} {b : Byte}
    (noComment : type ≠ .ZCM_TOK_COMMENT)
    (noQuote : isQuote b = false) (belongs : Belongs s (.token type (b :: text)) after) :
    ∃ blanks, (∀ c ∈ blanks, isSpace c = true) ∧ s = b :: text ++ blanks ++ after := by
  cases belongs with
  | plain _ _ _ blanks _ _ _ blank => exact ⟨blanks, blank, rfl⟩
  | literal _ q body _ _ quote =>
      rw [noQuote] at quote
      cases quote
  | line => exact absurd rfl noComment
  | extended => exact absurd rfl noComment

theorem Belongs.literal_split {s text after : List Byte} {type : TokenType} {q : Byte}
    (noComment : type ≠ .ZCM_TOK_COMMENT)
    (quote : isQuote q = true) (belongs : Belongs s (.token type (q :: text)) after) :
    ∃ body, s = q :: body ++ after ∧ text = unescapeAll body := by
  cases belongs with
  | plain _ _ _ _ _ _ noQuote _ =>
      rw [noQuote] at quote
      cases quote
  | literal _ _ body _ _ _ => exact ⟨body, rfl, rfl⟩
  | line => exact absurd rfl noComment
  | extended => exact absurd rfl noComment

theorem Belongs.line_ends {s cs text after : List Byte} (slashes : s = ch '/' :: ch '/' :: cs)
    (belongs : Belongs s (.token .ZCM_TOK_COMMENT text) after) : endsLine after = true := by
  cases belongs with
  | plain _ _ _ _ _ noComment => exact absurd rfl noComment
  | literal _ _ _ _ noComment => exact absurd rfl noComment
  | line _ _ _ _ ends => exact ends
  | extended body _ _ _ =>
      simp only [List.cons_append, List.cons.injEq] at slashes
      exact absurd slashes.2.1 (by decide)

theorem scanClose_closes {star : Bool} {cs : List Byte} (closes : (scanClose star cs).1 = true) :
    ∃ body, cs = body ++ (scanClose star cs).2 ∧ close star body = some [] := by
  induction cs generalizing star with
  | nil => cases closes
  | cons b cs ih =>
      unfold scanClose at closes ⊢
      by_cases eof : b = 0xff#8
      · simp [eof] at closes
      · simp only [if_neg eof] at closes ⊢
        by_cases ends : (star && decide (b = ch '/')) = true
        · simp only [if_pos ends] at closes ⊢
          exact ⟨[b], rfl, by simp only [close, if_pos ends]⟩
        · simp only [if_neg ends] at closes ⊢
          obtain ⟨body, split, closed⟩ := ih closes
          refine ⟨b :: body, by rw [List.cons_append, ← split], ?_⟩
          rw [close, if_neg ends, closed]

theorem stringText_plain {cs : List Byte}
    (noEscape : ∀ c ∈ cs.takeWhile (· ≠ ch '"'), c ≠ ch '\\' ∧ c ≠ 0xff#8) :
    ∃ body, cs = body ++ (cs.dropWhile (· ≠ ch '"')).tail ∧
      stringText false cs = (body, (cs.dropWhile (· ≠ ch '"')).tail) ∧ unescapeAll body = body := by
  induction cs with
  | nil => exact ⟨[], rfl, rfl, rfl⟩
  | cons b cs ih =>
      by_cases quote : b = ch '"'
      · subst quote
        exact ⟨[ch '"'], by simp, by simp [stringText, show ch '"' ≠ 0xff#8 by decide], rfl⟩
      · have step : (b :: cs).dropWhile (· ≠ ch '"') = cs.dropWhile (· ≠ ch '"') :=
          List.dropWhile_cons_of_pos (by simpa using quote)
        have taken : (b :: cs).takeWhile (· ≠ ch '"') = b :: cs.takeWhile (· ≠ ch '"') :=
          List.takeWhile_cons_of_pos (by simpa using quote)
        rw [taken] at noEscape
        obtain ⟨body, split, text, plain⟩ := ih fun c member => noEscape c (List.mem_cons_of_mem _ member)
        obtain ⟨escape, eof⟩ := noEscape b List.mem_cons_self
        refine ⟨b :: body, by rw [step, List.cons_append, ← split], ?_, ?_⟩
        · rw [step, stringText, if_neg eof, if_neg Bool.false_ne_true, if_neg quote, if_neg escape, text]
        · cases body with
          | nil => rfl
          | cons c body => rw [unescapeAll, if_neg escape, plain]

theorem stringText_length (cs : List Byte) :
    (∃ body, cs = body ++ (stringText false cs).2 ∧ (stringText false cs).1.length ≤ (unescapeAll body).length ∧
      ((stringText false cs).1.length = (unescapeAll body).length →
        ∀ c ∈ cs.takeWhile (· ≠ ch '"'), c ≠ ch '\\' ∧ c ≠ 0xff#8)) ∧
    ∃ body, cs = body ++ (stringText true cs).2 ∧
      (stringText true cs).1.length < (unescapeAll (ch '\\' :: body)).length := by
  induction cs with
  | nil => exact ⟨⟨[], rfl, Nat.le_refl _, by simp⟩, [], rfl, by decide⟩
  | cons b cs ih =>
      obtain ⟨⟨body, split, short, exactly⟩, body', split', short'⟩ := ih
      constructor
      · by_cases eof : b = 0xff#8
        · subst eof
          exact ⟨[0xff#8], by simp [stringText], by simp [stringText], by simp [stringText, unescapeAll]⟩
        by_cases quote : b = ch '"'
        · subst quote
          refine ⟨[ch '"'], ?_, ?_, by simp⟩
          · rw [stringText, if_neg eof]
            simp
          · rw [stringText, if_neg eof]
            simp [unescapeAll]
        by_cases escape : b = ch '\\'
        · have step : stringText false (b :: cs) = stringText true cs := by
            rw [stringText, if_neg eof, if_neg Bool.false_ne_true, if_neg quote, if_pos escape]
          refine ⟨b :: body', ?_, ?_, ?_⟩
          · rw [step, List.cons_append, ← split']
          · rw [step, escape]
            exact Nat.le_of_lt short'
          · rw [step, escape]
            intro equal
            omega
        · have step : stringText false (b :: cs) = (b :: (stringText false cs).1, (stringText false cs).2) := by
            rw [stringText, if_neg eof, if_neg Bool.false_ne_true, if_neg quote, if_neg escape]
          have longer : (unescapeAll (b :: body)).length = (unescapeAll body).length + 1 := by
            cases body with
            | nil => rfl
            | cons c body => rw [unescapeAll, if_neg escape, List.length_cons]
          refine ⟨b :: body, ?_, ?_, ?_⟩
          · rw [step, List.cons_append, ← split]
          · rw [step, longer, List.length_cons]
            omega
          · rw [step, longer, List.length_cons]
            intro equal
            rw [List.takeWhile_cons_of_pos (by simpa using quote)]
            intro c member
            obtain rfl | later := List.mem_cons.mp member
            · exact ⟨escape, eof⟩
            · exact exactly (by omega) c later
      · by_cases eof : b = 0xff#8
        · subst eof
          exact ⟨[0xff#8], by simp [stringText], by simp [stringText, unescapeAll]⟩
        · have step : stringText true (b :: cs) = stringText false cs := by
            rw [stringText, if_neg eof, if_pos rfl]
          refine ⟨b :: body, ?_, ?_⟩
          · rw [step, List.cons_append, ← split]
          · rw [step, unescapeAll, if_pos rfl, List.length_cons]
            omega

theorem blobText_single {b : Byte} (single : isSingle b = true) (cs : List Byte) : blobText b cs = ([b], cs) := by
  cases cs with
  | nil => rfl
  | cons c cs => rw [blobText, if_pos (by simp [single])]

theorem blobText_head (b : Byte) (cs : List Byte) : ∃ text, (blobText b cs).1 = b :: text := by
  cases cs with
  | nil => exact ⟨[], rfl⟩
  | cons c cs =>
      rw [blobText]
      split
      · exact ⟨[], rfl⟩
      · split <;> exact ⟨_, rfl⟩

theorem blobText_run {b : Byte} {cs : List Byte} (noSingle : isSingle b = false)
    (noEof : 0xff#8 ∉ cs.takeWhile isBlobChar) :
    ∃ blanks, (∀ c ∈ blanks, isSpace c = true) ∧ (blobText b cs).1 = b :: cs.takeWhile isBlobChar ∧
      cs.dropWhile isBlobChar = blanks ++ (blobText b cs).2 := by
  induction cs generalizing b with
  | nil => exact ⟨[], by simp, rfl, rfl⟩
  | cons c cs ih =>
      rw [blobText, noSingle, Bool.false_or]
      by_cases ends : (isSingle c || isOp c) = true
      · have stops : ¬ isBlobChar c = true := by
          obtain single | op := Bool.or_eq_true_iff.mp ends
          · simp [isBlobChar, single]
          · simp [isBlobChar, op]
        rw [if_pos ends, List.takeWhile_cons_of_neg stops, List.dropWhile_cons_of_neg stops]
        exact ⟨[], by simp, rfl, rfl⟩
      · rw [if_neg ends]
        by_cases space : isSpace c = true
        · have stops : ¬ isBlobChar c = true := by simp [isBlobChar, space]
          rw [if_pos (by simp [space]), List.takeWhile_cons_of_neg stops, List.dropWhile_cons_of_neg stops]
          exact ⟨[c], by simpa using space, rfl, rfl⟩
        · have kinds : isSingle c = false ∧ isOp c = false := by simpa using ends
          have goes : isBlobChar c = true := by simp [isBlobChar, kinds, space]
          rw [List.takeWhile_cons_of_pos goes] at noEof ⊢
          simp only [List.mem_cons, not_or] at noEof
          have notEof : ¬ c = 0xff#8 := fun same => noEof.1 same.symm
          obtain ⟨blanks, blank, text, left⟩ := ih kinds.1 noEof.2
          rw [if_neg (by simp [space, notEof]), List.dropWhile_cons_of_pos goes]
          exact ⟨blanks, blank, by rw [text], left⟩

theorem blobText_cut {b : Byte} {cs : List Byte} (noSingle : isSingle b = false)
    (eof : 0xff#8 ∈ cs.takeWhile isBlobChar) : b :: cs = (blobText b cs).1 ++ 0xff#8 :: (blobText b cs).2 := by
  induction cs generalizing b with
  | nil => cases eof
  | cons c cs ih =>
      have goes : isBlobChar c = true := by
        by_contra stops
        rw [List.takeWhile_cons_of_neg stops] at eof
        cases eof
      have kinds : isSingle c = false ∧ isOp c = false ∧ isSpace c = false := by
        simpa [isBlobChar, and_assoc] using goes
      rw [blobText, noSingle, if_neg (by simp [kinds])]
      by_cases here : c = 0xff#8
      · rw [if_pos (by simp [here]), here]
        rfl
      · rw [if_neg (by simp [kinds, here])]
        rw [List.takeWhile_cons_of_pos goes] at eof
        have later := ih kinds.1 ((List.mem_cons.mp eof).resolve_left fun same => here same.symm)
        rw [List.cons_append, ← later]

theorem head_not_lineChar {cs rest : List Byte} {b : Byte} (ends : cs.dropWhile isLineChar = b :: rest) :
    b = ch '\n' ∨ b = 0xff#8 := by
  have stops : isLineChar b = false := by
    have head := List.head?_dropWhile_not isLineChar cs
    rw [ends] at head
    simpa using head
  simpa [isLineChar, or_iff_not_imp_left] using stops

theorem endsLine_unget {b : Byte} (ends : endsLine (unget b) = true) : isSpace b = true ∨ b.toInt < 0 := by
  by_cases low : 0 ≤ b.toInt
  · left
    rw [unget_low low, endsLine] at ends
    by_contra solid
    rw [List.dropWhile_cons_of_neg (by simp [solid])] at ends
    rw [of_decide_eq_true ends] at solid
    exact solid (by decide)
  · exact .inr (Int.not_le.mp low)

theorem unget_blank {b : Byte} (last : isSpace b = true ∨ b.toInt < 0) : (unget b).dropWhile isSpace = [] := by
  by_cases low : 0 ≤ b.toInt
  · have space : isSpace b = true := last.resolve_right (Int.not_lt.mpr low)
    rw [unget_low low, List.dropWhile_cons_of_pos space]
    rfl
  · rw [unget_high low]
    rfl

theorem charText_token {cs : List Byte} {type : TokenType} {text : List Byte}
    (token : (charText cs).1 = .token type text) : CleanLexeme (ch '\'') cs (charText cs).2 := by
  have closes {middle : Byte} {ds : List Byte} (token : (charClose middle ds).1 = .token type text) :
      ds = ch '\'' :: (charClose middle ds).2 := by
    cases ds with
    | nil => cases token
    | cons d ds =>
        by_cases quote : d = ch '\''
        · simp [charClose, quote]
        · simp [charClose, quote] at token
  cases cs with
  | nil => cases token
  | cons c cs =>
      by_cases escape : c = ch '\\'
      · subst escape
        cases cs with
        | nil => cases token
        | cons d ds =>
            by_cases eof : d = 0xff#8
            · simp [charText, eof] at token
            · have step : charText (ch '\\' :: d :: ds) = charClose (unescapeByte d) ds := by simp [charText, eof]
              rw [step] at token ⊢
              rw [closes token]
              exact .escape d _ eof
      · by_cases eof : c = 0xff#8
        · subst eof
          cases cs <;> simp [charText, escape] at token
        · have step : charText (c :: cs) = charClose c cs := by simp [charText, escape, eof]
          rw [step] at token ⊢
          rw [closes token]
          exact .char c _ escape eof

theorem Outcome.clean {b : Byte} {cs after : List Byte} {result : Result} (outcome : Outcome b cs result after)
    (solid : isSpace b = false) (belongs : Belongs (b :: cs) result after) :
    ∃ after', CleanLexeme b cs after' ∧ after.dropWhile isSpace = after'.dropWhile isSpace := by
  obtain ⟨type, text, token⟩ := belongs.isToken
  cases outcome with
  | eof => cases token
  | char cs => exact ⟨_, charText_token token, rfl⟩
  | string cs =>
      obtain ⟨body, split, same⟩ := belongs.literal_split (by decide) (by decide)
      obtain ⟨⟨body', split', -, exactly⟩, -⟩ := stringText_length cs
      have equal : body = body' := by
        rw [List.cons_append, List.cons.injEq] at split
        exact List.append_cancel_right (split.2.symm.trans split')
      have clean := exactly (by rw [same, equal])
      obtain ⟨_, _, left, _⟩ := stringText_plain clean
      exact ⟨_, .string cs clean, by rw [left]⟩
  | operator b cs op =>
      have noQuote := op_not_quote op
      obtain ⟨blanks, blank, split⟩ := belongs.plain_split (by decide) noQuote
      have rest : cs.dropWhile isOp =
          blanks ++ afterUnget ((b :: cs.takeWhile isOp).getLast (List.cons_ne_nil _ _)) (cs.dropWhile isOp) := by
        rw [List.cons_append, List.cons_append, List.cons.injEq, List.append_assoc] at split
        apply (List.append_right_inj (cs.takeWhile isOp)).mp
        rw [List.takeWhile_append_dropWhile]
        exact split.2
      cases follows : cs.dropWhile isOp with
      | nil =>
          -- The last of the operator's characters was pushed back.
          have last : isOp ((b :: cs.takeWhile isOp).getLast (List.cons_ne_nil _ _)) = true := by
            obtain same | member := List.mem_cons.mp (List.getLast_mem (List.cons_ne_nil b (cs.takeWhile isOp)))
            · rw [same]
              exact op
            · exact List.mem_takeWhile_imp member
          rw [follows, afterUnget, unget_low (strchr_nonneg last)] at rest
          simp at rest
      | cons c rest' =>
          rw [follows, afterUnget] at rest
          by_cases low : 0 ≤ c.toInt
          · exact ⟨_, .operator b cs c rest' op follows low, by rw [afterUnget, unget_low low]; rfl⟩
          · rw [unget_high low, List.nil_append] at rest
            have gap : blanks = [c] := List.append_cancel_right (rest.symm.trans List.singleton_append.symm)
            have space := blank c (by simp [gap])
            rw [high_not_space low] at space
            cases space
  | slashEnd => exact ⟨[], .slashEnd, rfl⟩
  | slash c cs noStar noSlash =>
      obtain ⟨blanks, blank, split⟩ := belongs.plain_split (by decide) (by decide)
      by_cases low : 0 ≤ c.toInt
      · exact ⟨_, .slash c cs noStar noSlash low, by rw [unget_low low]; rfl⟩
      · rw [unget_high low, List.nil_append, List.cons_append, List.cons_append, List.nil_append,
          List.cons.injEq] at split
        have gap : blanks = [c] := List.append_cancel_right (split.2.symm.trans List.singleton_append.symm)
        have space := blank c (by simp [gap])
        rw [high_not_space low] at space
        cases space
  | line cs text =>
      have ends := belongs.line_ends rfl
      cases left : cs.dropWhile isLineChar with
      | nil =>
          rw [left, afterUnget] at ends
          obtain space | high := endsLine_unget ends
          · exact ⟨[], .lineEnd cs left (.inl space), by simp [afterUnget, unget_blank (.inl space)]⟩
          · exact ⟨[], .lineEnd cs left (.inr high), by simp [afterUnget, unget_blank (.inr high)]⟩
      | cons b rest =>
          rw [left, afterUnget] at ends
          obtain rfl | rfl := head_not_lineChar left
          · exact ⟨_, .line cs rest left, rfl⟩
          · exact ⟨_, .lineCut cs rest left ends, rfl⟩
  | closed cs text closed => exact ⟨_, .extended cs closed, rfl⟩
  | unclosed cs unclosed => cases token
  | blob b cs noEof noChar noString noOp noSlash =>
      have noQuote : isQuote b = false := by simp [isQuote, noChar, noString]
      cases single : isSingle b with
      | true => exact ⟨cs, .single b cs single noQuote noOp, by rw [blobText_single single]⟩
      | false =>
          by_cases eof : 0xff#8 ∈ cs.takeWhile isBlobChar
          · obtain ⟨text', head⟩ := blobText_head b cs
            have cut := blobText_cut single eof
            rw [head] at belongs cut
            obtain ⟨blanks, blank, split⟩ := belongs.plain_split (by decide) noQuote
            rw [split, List.append_assoc] at cut
            have gap : blanks = [0xff#8] :=
              List.append_cancel_right ((List.append_cancel_left cut).trans List.singleton_append.symm)
            exact absurd (blank 0xff#8 (by simp [gap])) (by decide)
          · obtain ⟨blanks, blank, text, left⟩ := blobText_run single eof
            refine ⟨_, .blob b cs ?_ noSlash ?_, ?_⟩
            · simp [isBlobChar, single, noOp, solid]
            · simpa using ⟨fun same => noEof same.symm, eof⟩
            · rw [left, List.dropWhile_append_of_pos blank]

section
variable {b c : Byte} {cs after : List Byte} {result : Result}

theorem Outcome.of_char (outcome : Outcome b cs result after) (quote : b = ch '\'') :
    result = (charText cs).1 ∧ after = (charText cs).2 := by
  cases outcome with
  | char => exact ⟨rfl, rfl⟩
  | eof | string | slashEnd | slash | line | closed | unclosed => exact absurd quote (by decide)
  | operator _ _ op => exact absurd (quote ▸ op) (by decide)
  | blob _ _ _ noChar => exact absurd quote noChar

theorem Outcome.of_string (outcome : Outcome b cs result after) (quote : b = ch '"') :
    result = .token .ZCM_TOK_INVALID (ch '"' :: (stringText false cs).1) ∧ after = (stringText false cs).2 := by
  cases outcome with
  | string => exact ⟨rfl, rfl⟩
  | eof | char | slashEnd | slash | line | closed | unclosed => exact absurd quote (by decide)
  | operator _ _ op => exact absurd (quote ▸ op) (by decide)
  | blob _ _ _ _ noString => exact absurd quote noString

theorem Outcome.of_operator (outcome : Outcome b cs result after) (op : isOp b = true) :
    result = .token .ZCM_TOK_OTHER (b :: cs.takeWhile isOp) ∧
      after = afterUnget ((b :: cs.takeWhile isOp).getLast (List.cons_ne_nil _ _)) (cs.dropWhile isOp) := by
  cases outcome with
  | operator => exact ⟨rfl, rfl⟩
  | eof | char | string | slashEnd | slash | line | closed | unclosed => exact absurd op (by decide)
  | blob _ _ _ _ _ noOp =>
      rw [noOp] at op
      cases op

theorem Outcome.of_slashEnd (outcome : Outcome b [] result after) (slash : b = ch '/') :
    result = .token .ZCM_TOK_OTHER [ch '/'] ∧ after = [] := by
  generalize empty : ([] : List Byte) = cs at outcome
  cases outcome with
  | slashEnd => exact ⟨rfl, rfl⟩
  | eof | char | string => exact absurd slash (by decide)
  | operator _ _ op => exact absurd (slash ▸ op) (by decide)
  | slash | line | closed | unclosed => cases empty
  | blob _ _ _ _ _ _ noSlash => exact absurd slash noSlash

theorem Outcome.of_slash (outcome : Outcome b (c :: cs) result after) (slash : b = ch '/') (noStar : c ≠ ch '*')
    (noSlash : c ≠ ch '/') : result = .token .ZCM_TOK_OTHER [ch '/'] ∧ after = unget c ++ cs := by
  generalize all : c :: cs = ds at outcome
  cases outcome with
  | slash =>
      cases all
      exact ⟨rfl, rfl⟩
  | eof | char | string => exact absurd slash (by decide)
  | operator _ _ op => exact absurd (slash ▸ op) (by decide)
  | slashEnd => cases all
  | line => exact absurd (List.cons.inj all).1 noSlash
  | closed | unclosed => exact absurd (List.cons.inj all).1 noStar
  | blob _ _ _ _ _ _ noSlash => exact absurd slash noSlash

theorem Outcome.of_line (outcome : Outcome b (c :: cs) result after) (slash : b = ch '/') (second : c = ch '/') :
    (∃ text, result = .token .ZCM_TOK_COMMENT text) ∧
      after = afterUnget ((ch '/' :: cs).getLast (List.cons_ne_nil _ _)) (cs.dropWhile isLineChar) := by
  generalize all : c :: cs = ds at outcome
  cases outcome with
  | line =>
      cases all
      exact ⟨⟨_, rfl⟩, rfl⟩
  | eof | char | string => exact absurd slash (by decide)
  | operator _ _ op => exact absurd (slash ▸ op) (by decide)
  | slashEnd => cases all
  | slash _ _ _ noSlash => exact absurd (second ▸ (List.cons.inj all).1).symm noSlash
  | closed | unclosed => exact absurd (second ▸ (List.cons.inj all).1) (by decide)
  | blob _ _ _ _ _ _ noSlash => exact absurd slash noSlash

theorem Outcome.of_extended (outcome : Outcome b (c :: cs) result after) (slash : b = ch '/') (second : c = ch '*') :
    after = (scanClose false cs).2 ∧
      ((scanClose false cs).1 = true → ∃ text, result = .token .ZCM_TOK_COMMENT text) ∧
      ((scanClose false cs).1 = false → result = .eof) := by
  generalize all : c :: cs = ds at outcome
  cases outcome with
  | closed _ _ closed =>
      cases all
      exact ⟨rfl, fun _ => ⟨_, rfl⟩, fun unclosed => by simp [closed] at unclosed⟩
  | unclosed _ unclosed =>
      cases all
      exact ⟨rfl, fun closed => by simp [unclosed] at closed, fun _ => rfl⟩
  | eof | char | string => exact absurd slash (by decide)
  | operator _ _ op => exact absurd (slash ▸ op) (by decide)
  | slashEnd => cases all
  | slash _ _ noStar => exact absurd (second ▸ (List.cons.inj all).1).symm noStar
  | line => exact absurd (second ▸ (List.cons.inj all).1) (by decide)
  | blob _ _ _ _ _ _ noSlash => exact absurd slash noSlash

theorem Outcome.of_blob (outcome : Outcome b cs result after) (noEof : b ≠ 0xff#8) (noQuote : isQuote b = false)
    (noOp : isOp b = false) (noSlash : b ≠ ch '/') :
    result = .token .ZCM_TOK_OTHER (blobText b cs).1 ∧ after = (blobText b cs).2 := by
  cases outcome with
  | blob => exact ⟨rfl, rfl⟩
  | eof => exact absurd rfl noEof
  | char | string => exact absurd noQuote (by decide)
  | operator _ _ op =>
      rw [op] at noOp
      cases noOp
  | slashEnd | slash | line | closed | unclosed => exact absurd rfl noSlash

end

theorem isSingle_of_isQuote {b : Byte} (quote : isQuote b = true) : isSingle b = true := by
  simp only [isQuote, Bool.or_eq_true, decide_eq_true_eq] at quote
  obtain rfl | rfl := quote
  · decide
  · decide

theorem line_belongs {cs after text : List Byte} (body : List Byte) (split : cs = body ++ after)
    (inLine : ch '\n' ∉ body) (ends : endsLine after = true) :
    Belongs (ch '/' :: ch '/' :: cs) (.token .ZCM_TOK_COMMENT text) after := by
  rw [split]
  exact .line body text after inLine ends

theorem newline_not_taken (cs : List Byte) : ch '\n' ∉ cs.takeWhile isLineChar := by
  intro member
  exact absurd (List.mem_takeWhile_imp member) (by decide)

theorem Outcome.operator_taken {b c : Byte} {cs rest after : List Byte} {result : Result} (op : isOp b = true)
    (follows : cs.dropWhile isOp = c :: rest) (low : 0 ≤ c.toInt) (outcome : Outcome b cs result after) :
    Belongs (b :: cs) result after ∧ after = c :: rest := by
  obtain ⟨rfl, rfl⟩ := outcome.of_operator op
  have noQuote := op_not_quote op
  have left : afterUnget ((b :: cs.takeWhile isOp).getLast (List.cons_ne_nil _ _)) (cs.dropWhile isOp) = c :: rest := by
    rw [follows, afterUnget, unget_low low]
    rfl
  rw [left]
  refine ⟨?_, rfl⟩
  have belongs := Belongs.plain .ZCM_TOK_OTHER b (cs.takeWhile isOp) [] (c :: rest) (by decide) noQuote (by simp)
  rw [List.append_nil, ← follows, List.cons_append, List.takeWhile_append_dropWhile] at belongs
  rw [← follows]
  exact belongs

/-- A line comment that ends with the file: a blank at its end is read once more, a high byte is not. -/
theorem Outcome.lineEnd_taken {cs after : List Byte} {result : Result} (ended : cs.dropWhile isLineChar = [])
    (last : isSpace ((ch '/' :: cs).getLast (List.cons_ne_nil _ _)) = true ∨
      ((ch '/' :: cs).getLast (List.cons_ne_nil _ _)).toInt < 0)
    (outcome : Outcome (ch '/') (ch '/' :: cs) result after) :
    Belongs (ch '/' :: ch '/' :: cs) result after ∧ after.dropWhile isSpace = [] := by
  obtain ⟨⟨text, rfl⟩, rfl⟩ := outcome.of_line rfl rfl
  have all : cs.takeWhile isLineChar = cs := by
    have split := List.takeWhile_append_dropWhile (p := isLineChar) (l := cs)
    rwa [ended, List.append_nil] at split
  have inLine : ch '\n' ∉ cs := all ▸ newline_not_taken cs
  rw [ended, afterUnget]
  refine ⟨?_, unget_blank last⟩
  by_cases low : 0 ≤ ((ch '/' :: cs).getLast (List.cons_ne_nil _ _)).toInt
  · have space := last.resolve_right (Int.not_lt.mpr low)
    rw [unget_low low]
    cases cs with
    | nil => exact absurd space (by decide)
    | cons c cs =>
        rw [List.getLast_cons (List.cons_ne_nil c cs)] at space ⊢
        have member := List.getLast_mem (List.cons_ne_nil c cs)
        refine line_belongs (c :: cs).dropLast (List.dropLast_append_getLast _).symm ?_ ?_
        · exact fun newline => inLine ((List.dropLast_sublist _).mem newline)
        · have other : (c :: cs).getLast (List.cons_ne_nil c cs) ≠ ch '\n' :=
            fun same => inLine (same ▸ member)
          rw [endsLine, List.dropWhile_cons_of_pos (by simp [space, other])]
          rfl
  · rw [unget_high low]
    exact line_belongs cs (List.append_nil cs).symm inLine rfl

theorem Outcome.blob_taken {b : Byte} {cs after : List Byte} {result : Result} (starts : isBlobChar b = true)
    (noSlash : b ≠ ch '/') (noEof : 0xff#8 ∉ b :: cs.takeWhile isBlobChar) (outcome : Outcome b cs result after) :
    Belongs (b :: cs) result after ∧ after.dropWhile isSpace = (cs.dropWhile isBlobChar).dropWhile isSpace := by
  have kinds : isSingle b = false ∧ isOp b = false ∧ isSpace b = false := by
    simpa [isBlobChar, and_assoc] using starts
  have noQuote : isQuote b = false := by
    by_contra quote
    rw [isSingle_of_isQuote (by simpa using quote)] at kinds
    cases kinds.1
  simp only [List.mem_cons, not_or] at noEof
  obtain ⟨rfl, rfl⟩ := outcome.of_blob (fun same => noEof.1 same.symm) noQuote kinds.2.1 noSlash
  obtain ⟨blanks, blank, text, left⟩ := blobText_run kinds.1 noEof.2
  rw [text]
  refine ⟨?_, by rw [left, List.dropWhile_append_of_pos blank]⟩
  have belongs := Belongs.plain .ZCM_TOK_OTHER b (cs.takeWhile isBlobChar) blanks (blobText b cs).2
    (by decide) noQuote blank
  rw [List.append_assoc, ← left, List.cons_append, List.takeWhile_append_dropWhile] at belongs
  exact belongs

theorem CleanLexeme.taken {b : Byte} {cs after after' : List Byte} {result : Result} (lexeme : CleanLexeme b cs after')
    (outcome : Outcome b cs result after) :
    Belongs (b :: cs) result after ∧ after.dropWhile isSpace = after'.dropWhile isSpace := by
  cases lexeme with
  | char c rest noEscape noEof =>
      obtain ⟨rfl, rfl⟩ := outcome.of_char rfl
      have text : charText (c :: ch '\'' :: after') =
          (.token .ZCM_TOK_OTHER [ch '\'', c, ch '\''], after') := by
        simp [charText, charClose, noEscape, noEof]
      rw [text]
      refine ⟨?_, rfl⟩
      have belongs := Belongs.literal .ZCM_TOK_OTHER (ch '\'') [c, ch '\''] after' (by decide) (by decide)
      simpa [unescapeAll, noEscape] using belongs
  | escape c rest noEof =>
      obtain ⟨rfl, rfl⟩ := outcome.of_char rfl
      have text : charText (ch '\\' :: c :: ch '\'' :: after') =
          (.token .ZCM_TOK_OTHER [ch '\'', unescapeByte c, ch '\''], after') := by
        simp [charText, charClose, noEof]
      rw [text]
      refine ⟨?_, rfl⟩
      have belongs := Belongs.literal .ZCM_TOK_OTHER (ch '\'') [ch '\\', c, ch '\''] after' (by decide) (by decide)
      simpa [unescapeAll] using belongs
  | string cs noEscape =>
      obtain ⟨rfl, rfl⟩ := outcome.of_string rfl
      obtain ⟨body, split, text, plain⟩ := stringText_plain noEscape
      rw [text]
      refine ⟨?_, rfl⟩
      have belongs := Belongs.literal .ZCM_TOK_INVALID (ch '"') body (cs.dropWhile (· ≠ ch '"')).tail (by decide)
        (by decide)
      rw [plain, List.cons_append, ← split] at belongs
      exact belongs
  | operator b cs c rest op follows low =>
      obtain ⟨belongs, rfl⟩ := outcome.operator_taken op follows low
      exact ⟨belongs, rfl⟩
  | slashEnd =>
      obtain ⟨rfl, rfl⟩ := outcome.of_slashEnd rfl
      exact ⟨.plain .ZCM_TOK_OTHER (ch '/') [] [] [] (by decide) (by decide) (by simp), rfl⟩
  | slash c cs noStar noSlash low =>
      obtain ⟨rfl, rfl⟩ := outcome.of_slash rfl noStar noSlash
      rw [unget_low low]
      exact ⟨.plain .ZCM_TOK_OTHER (ch '/') [] [] (c :: cs) (by decide) (by decide) (by simp), rfl⟩
  | line cs rest newline =>
      obtain ⟨⟨text, rfl⟩, rfl⟩ := outcome.of_line rfl rfl
      have left : afterUnget ((ch '/' :: cs).getLast (List.cons_ne_nil _ _)) (cs.dropWhile isLineChar) =
          ch '\n' :: rest := by
        rw [newline]
        rfl
      rw [left]
      refine ⟨line_belongs (cs.takeWhile isLineChar) ?_ (newline_not_taken cs) rfl, rfl⟩
      rw [← newline, List.takeWhile_append_dropWhile]
  | lineCut cs rest eof ends =>
      obtain ⟨⟨text, rfl⟩, rfl⟩ := outcome.of_line rfl rfl
      have left : afterUnget ((ch '/' :: cs).getLast (List.cons_ne_nil _ _)) (cs.dropWhile isLineChar) = after' := by
        rw [eof]
        rfl
      rw [left]
      refine ⟨line_belongs (cs.takeWhile isLineChar ++ [0xff#8]) ?_ ?_ ends, rfl⟩
      · rw [List.append_assoc, List.singleton_append, ← eof, List.takeWhile_append_dropWhile]
      · intro member
        obtain taken | cut := List.mem_append.mp member
        · exact newline_not_taken cs taken
        · exact absurd (List.mem_singleton.mp cut) (by decide)
  | lineEnd cs ended last => exact outcome.lineEnd_taken ended last
  | extended cs closes =>
      obtain ⟨rfl, comment, -⟩ := outcome.of_extended rfl rfl
      obtain ⟨text, rfl⟩ := comment closes
      obtain ⟨body, split, closed⟩ := scanClose_closes closes
      refine ⟨?_, rfl⟩
      have belongs := Belongs.extended body text (scanClose false cs).2 closed
      rw [List.cons_append, List.cons_append, ← split] at belongs
      exact belongs
  | single b cs single noQuote noOp =>
      have noEof : b ≠ 0xff#8 := by
        rintro rfl
        exact absurd single (by decide)
      have noSlash : b ≠ ch '/' := by
        rintro rfl
        exact absurd single (by decide)
      obtain ⟨rfl, rfl⟩ := outcome.of_blob noEof noQuote noOp noSlash
      rw [blobText_single single]
      exact ⟨.plain .ZCM_TOK_OTHER b [] [] cs (by decide) noQuote (by simp), rfl⟩
  | blob b cs starts noSlash noEof => exact outcome.blob_taken starts noSlash noEof

theorem head_solid {s cs : List Byte} {b : Byte} (first : s.dropWhile isSpace = b :: cs) : isSpace b = false := by
  have head := List.head?_dropWhile_not isSpace s
  rw [first] at head
  simpa using head

theorem OnlyComments.slash_first {s cs : List Byte} {b : Byte} (only : OnlyComments s)
    (first : s.dropWhile isSpace = b :: cs) : b = ch '/' := by
  cases only with
  | blank blank => simp [blank] at first
  | line slash _ => exact (List.cons.inj (first.symm.trans slash)).1
  | closed slash _ _ => exact (List.cons.inj (first.symm.trans slash)).1
  | unclosed slash _ => exact (List.cons.inj (first.symm.trans slash)).1

theorem charText_ne_eof (cs : List Byte) : (charText cs).1 ≠ .eof := by
  have closes (middle : Byte) (ds : List Byte) : (charClose middle ds).1 ≠ .eof := by
    cases ds with
    | nil => simp [charClose]
    | cons d ds => by_cases quote : d = ch '\'' <;> simp [charClose, quote]
  cases cs with
  | nil => simp [charText]
  | cons c cs =>
      cases cs with
      | nil =>
          simp only [charText]
          split
          · simp
          · split
            · simp
            · exact closes c []
      | cons d ds =>
          simp only [charText]
          split
          · split
            · simp
            · exact closes _ ds
          · split
            · simp
            · exact closes c (d :: ds)

theorem Outcome.of_eof {b : Byte} {cs after : List Byte} (outcome : Outcome b cs .eof after) :
    b = 0xff#8 ∨ ∃ ds, b = ch '/' ∧ cs = ch '*' :: ds ∧ (scanClose false ds).1 = false := by
  generalize ended : Result.eof = result at outcome
  cases outcome with
  | eof => exact .inl rfl
  | unclosed ds unclosed => exact .inr ⟨ds, rfl, rfl, unclosed⟩
  | char cs => exact absurd ended.symm (charText_ne_eof cs)
  | string | operator | slashEnd | slash | line | closed | blob => cases ended

theorem clean_of_tokenizes {t : Tokenizer} (valid : Valid t) (tokenizes : Tokenizes t) : Clean (stream t) := by
  induction tokenizes with
  | @done t t' call rest =>
      obtain ⟨result, t'', call', _, outcome⟩ := tokenizeNext_outcome valid
      obtain ⟨rfl, rfl⟩ := Prod.mk.inj (Option.some.inj (call.symm.trans call'))
      cases first : (stream t).dropWhile isSpace with
      | nil => exact .blank first
      | cons b cs =>
          rw [first] at outcome
          obtain rfl | ⟨ds, rfl, rfl, unclosed⟩ := outcome.of_eof
          · exact absurd (rest.slash_first first) (by decide)
          · exact .unclosed first unclosed rest
  | @next t t' result call more belongs later ih =>
      obtain ⟨result', t'', call', valid', outcome⟩ := tokenizeNext_outcome valid
      obtain ⟨rfl, rfl⟩ := Prod.mk.inj (Option.some.inj (call.symm.trans call'))
      cases first : (stream t).dropWhile isSpace with
      | nil =>
          rw [first] at outcome
          exact absurd outcome.1 more
      | cons b cs =>
          rw [first] at outcome belongs
          obtain ⟨after, lexeme, same⟩ := outcome.clean (head_solid first) belongs
          exact .lexeme first lexeme ((ih valid').congr same.symm)

theorem tokenizes_of_clean {s : List Byte} (clean : Clean s) {t : Tokenizer} (valid : Valid t)
    (same : (stream t).dropWhile isSpace = s.dropWhile isSpace) : Tokenizes t := by
  induction clean generalizing t with
  | blank blank =>
      obtain ⟨result, t', call, _, outcome⟩ := tokenizeNext_outcome valid
      rw [same, blank] at outcome
      obtain ⟨rfl, -⟩ := outcome
      exact .done call (.blank (same.trans blank))
  | lexeme first lexeme later ih =>
      obtain ⟨result, t', call, valid', outcome⟩ := tokenizeNext_outcome valid
      rw [same, first] at outcome
      obtain ⟨belongs, left⟩ := lexeme.taken outcome
      obtain ⟨type, text, rfl⟩ := belongs.isToken
      refine .next call (by simp) ?_ (ih valid' left)
      rw [same, first]
      exact belongs
  | unclosed first open' rest =>
      obtain ⟨result, t', call, _, outcome⟩ := tokenizeNext_outcome valid
      rw [same, first] at outcome
      obtain ⟨-, -, ended⟩ := outcome.of_extended rfl rfl
      obtain rfl := ended open'
      exact .done call (rest.congr same)

/-- The calls terminate and the tokens account for the characters of the file exactly if it is clean. -/
theorem tokenizes_iff_clean (content : CString) : Tokenizes (create content) ↔ Clean content.chars := by
  have valid : Valid (create content) := ⟨0xff#8, (by decide : (-1 : Int) = (0xff#8).toInt)⟩
  have all : stream (create content) = content.chars := stream_reading (by decide)
  constructor
  · intro tokenizes
    have clean := clean_of_tokenizes valid tokenizes
    rwa [all] at clean
  · intro clean
    exact tokenizes_of_clean clean valid (by rw [all])

/-- A file that ends in an operator: after the call the operator is there again. -/
theorem operator_comes_again : ¬ Tokenizes (create ⟨[ch '='], by decide⟩) := by
  have first : tokenizeNext (create ⟨[ch '='], by decide⟩) =
      some (.token .ZCM_TOK_OTHER [ch '='], ⟨[], code '=', code '='⟩) := by decide
  intro tokenizes
  cases tokenizes with
  | done call => simp [first] at call
  | next call _ belongs =>
      obtain ⟨rfl, rfl⟩ := Prod.mk.inj (Option.some.inj (call.symm.trans first))
      have before : (stream (create ⟨[ch '='], by decide⟩)).dropWhile isSpace = [ch '='] := by decide
      have after : stream ⟨[], code '=', code '='⟩ = [ch '='] := by decide
      obtain ⟨blanks, -, split⟩ := belongs.plain_split (by decide) (by decide)
      rw [before, after] at split
      have lengths := congrArg List.length split
      simp at lengths

end Zcm.Gen.Tokenize
