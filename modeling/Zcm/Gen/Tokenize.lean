import Zcm.Lib.Bytes

/-!
# The tokenizer of `zcm-gen`

Characters are `char`s in an `int`, so a byte above 127 is negative and 255 is `EOF`. Every loop has a
bound on its rounds, beyond which it has no result. Lines and columns are left out, and so are the
failures of `realloc`.
-/

namespace Zcm.Gen.Tokenize
open Zcm.Lib

def EOF : Int := -1

structure Tokenizer where
  -- What the line buffer and the file still hold; `fgets` moves it from the one to the other.
  rest : List Byte
  ungetChar : Int
  currentChar : Int
deriving DecidableEq

def create (content : CString) : Tokenizer := ⟨content.chars, -1, 0⟩

def nextChar (t : Tokenizer) : Int × Tokenizer :=
  if 0 ≤ t.ungetChar then (t.ungetChar, { t with currentChar := t.ungetChar, ungetChar := -1 })
  else
    match t.rest with
    | [] => (EOF, t)
    | b :: rest => (b.toInt, { t with rest := rest, currentChar := b.toInt })

def ungetc (t : Tokenizer) (_c : Int) : Tokenizer := { t with ungetChar := t.currentChar }

def code (c : Char) : Int := c.toNat

def strchr (s : String) (c : Int) : Bool := c = 0 || s.toList.any (code · = c)

def singleCharToks : String := "();\",:'[]"
def opChars : String := "!~<>=&|^%*+="

def isspace (c : Int) : Bool := 9 ≤ c && c ≤ 13 || c = code ' '

def unescape (c : Int) : Int :=
  if c = code 'n' then 10 else if c = code 'r' then 13 else if c = code 't' then 9 else c

def toByte (c : Int) : Byte := BitVec.ofInt 8 c

inductive TokenType
  | ZCM_TOK_INVALID
  | ZCM_TOK_EOF
  | ZCM_TOK_COMMENT
  | ZCM_TOK_OTHER
deriving DecidableEq

inductive Result
  | eof
  -- A negative number that is not `EOF`.
  | error (code : Int)
  | token (type : TokenType) (text : List Byte)
deriving DecidableEq

def skipSpaces : Nat → Tokenizer → Option (Int × Tokenizer)
  | 0, _ => none
  | fuel + 1, t =>
      let (c, t) := nextChar t
      if c = EOF then some (c, t) else if isspace c then skipSpaces fuel t else some (c, t)

def charLiteral (t : Tokenizer) : Result × Tokenizer :=
  let (c, t) := nextChar t
  let (c, t) :=
    if c = code '\\' then
      let (c, t) := nextChar t
      (unescape c, t)
    else (c, t)
  if c = EOF then (.error (-4), t)
  else
    let middle := c
    let (c, t) := nextChar t
    if c ≠ code '\'' then (.error (-5), t)
    else (.token .ZCM_TOK_OTHER [toByte (code '\''), toByte middle, toByte c], t)

def stringLiteral : Nat → Bool → List Byte → Tokenizer → Option (Result × Tokenizer)
  | 0, _, _, _ => none
  | fuel + 1, escape, token, t =>
      let (c, t) := nextChar t
      if c = EOF then some (.token .ZCM_TOK_INVALID token, t)
      else if escape then stringLiteral fuel false token t
      else if c = code '"' then some (.token .ZCM_TOK_INVALID (token ++ [toByte c]), t)
      else if c = code '\\' then stringLiteral fuel true token t
      else stringLiteral fuel false (token ++ [toByte c]) t

def operator : Nat → Int → List Byte → Tokenizer → Option (Result × Tokenizer)
  | 0, _, _, _ => none
  | fuel + 1, c, token, t =>
      if strchr opChars c then
        let token := token ++ [toByte c]
        let (c, t) := nextChar t
        operator fuel c token t
      else some (.token .ZCM_TOK_OTHER token, ungetc t c)

def skipChar (char : Char) : Nat → Int → Tokenizer → Option (Int × Tokenizer)
  | 0, _, _ => none
  | fuel + 1, c, t =>
      if c = code char then
        let (c, t) := nextChar t
        skipChar char fuel c t
      else some (c, t)

def restOfLine : Nat → Int → List Byte → Tokenizer → Option (Result × Tokenizer)
  | 0, _, _, _ => none
  | fuel + 1, c, token, t =>
      if c ≠ EOF ∧ c ≠ code '\n' then
        let token := token ++ [toByte c]
        let (c, t) := nextChar t
        restOfLine fuel c token t
      else some (.token .ZCM_TOK_COMMENT token, ungetc t c)

def leadingBlanks : Nat → List Byte → Tokenizer → Option (Int × List Byte × Tokenizer)
  | 0, _, _ => none
  | fuel + 1, token, t =>
      let (c, t) := nextChar t
      if c ≠ EOF ∧ (c = code ' ' ∨ c = code '\t') then leadingBlanks fuel (token ++ [toByte c]) t
      else some (c, token, t)

def asterisks : Nat → Int → Bool → List Byte → Tokenizer → Option (Int × Bool × List Byte × Tokenizer)
  | 0, _, _, _, _ => none
  | fuel + 1, c, gotAsterisk, token, t =>
      if c = code '*' then
        let token := token ++ [toByte c]
        let (c, t) := nextChar t
        asterisks fuel c true token t
      else some (c, gotAsterisk, token, t)

def commentLine : Nat → Int → List Byte → Tokenizer → Option (Bool × Int × List Byte × Tokenizer)
  | 0, _, _, _ => none
  | fuel + 1, c, token, t =>
      if c ≠ EOF ∧ c ≠ code '\n' then
        let last := c
        let token := token ++ [toByte c]
        let (c, t) := nextChar t
        if last = code '*' ∧ c = code '/' then some (true, c, token.dropLast, t)
        else commentLine fuel c token t
      else some (false, c, token, t)

def extendedComment : Nat → List Byte → Tokenizer → Option (Result × Tokenizer)
  | 0, _, _ => none
  | fuel + 1, token, t => do
      let posLineStart := token.length
      let (c, token, t) ← leadingBlanks (fuel + 1) token t
      let (c, gotAsterisk, token, t) ← asterisks (fuel + 1) c false token t
      -- The comment characters that lead the line are taken back.
      let token := if gotAsterisk then token.take posLineStart else token
      if gotAsterisk ∧ c = code '/' then return (.token .ZCM_TOK_COMMENT token, t)
      let (c, t) := if gotAsterisk ∧ c = code ' ' then nextChar t else (c, t)
      let (finished, c, token, t) ← commentLine (fuel + 1) c token t
      if finished then return (.token .ZCM_TOK_COMMENT token, t)
      if c = EOF then return (.eof, t)
      extendedComment fuel (if posLineStart ≠ token.length then token ++ [toByte c] else token) t

def slash (fuel : Nat) (t : Tokenizer) : Option (Result × Tokenizer) := do
  let (c, t) := nextChar t
  if c = EOF then return (.token .ZCM_TOK_OTHER [toByte (code '/')], t)
  if c = code '*' then return ← extendedComment fuel [] t
  if c = code '/' then
    let (c, t) := nextChar t
    let (c, t) ← skipChar '/' fuel c t
    let (c, t) ← skipChar ' ' fuel c t
    return ← restOfLine fuel c [] t
  return (.token .ZCM_TOK_OTHER [toByte (code '/')], ungetc t c)

def blob : Nat → Int → List Byte → Tokenizer → Option (Result × Tokenizer)
  | 0, _, _, _ => none
  | fuel + 1, c, token, t =>
      let token := token ++ [toByte c]
      if strchr singleCharToks c then some (.token .ZCM_TOK_OTHER token, t)
      else
        let (c, t) := nextChar t
        if strchr singleCharToks c || strchr opChars c then some (.token .ZCM_TOK_OTHER token, ungetc t c)
        else if ¬ isspace c ∧ c ≠ EOF then blob fuel c token t
        else some (.token .ZCM_TOK_OTHER token, t)

def tokenizeNextInternal (fuel : Nat) (t : Tokenizer) : Option (Result × Tokenizer) := do
  let (c, t) ← skipSpaces fuel t
  if c = EOF then return (.eof, t)
  if c = code '\'' then return charLiteral t
  if c = code '"' then return ← stringLiteral fuel false [toByte c] t
  if strchr opChars c then return ← operator fuel c [] t
  if c = code '/' then return ← slash fuel t
  blob fuel c [] t

/-- No loop makes more rounds than there are characters, and one more. -/
def tokenizeNext (t : Tokenizer) : Option (Result × Tokenizer) := tokenizeNextInternal (t.rest.length + 2) t

end Zcm.Gen.Tokenize
