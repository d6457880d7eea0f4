import Zcm.Gen.TokenizeStream

/-!
# The token buffer

The tokenizer again, with the capacity of its buffer and with every index that it writes. A `realloc` never fails
here, and neither the capacity (a `size_t`) nor a position in the token (an `int`) overflows.
-/

namespace Zcm.Gen.Tokenize
open Zcm.Lib

structure TokenBuffer where
  capacity : Nat
  -- no index was written that the buffer did not have at the time
  inside : Bool
deriving DecidableEq

namespace TokenBuffer

def create : TokenBuffer := ⟨1024, true⟩

def ensureCapacity (b : TokenBuffer) (pos : Nat) : TokenBuffer :=
  if pos ≥ b.capacity then { b with capacity := b.capacity * 2 } else b

def put (b : TokenBuffer) (pos : Nat) : TokenBuffer := { b with inside := b.inside && decide (pos < b.capacity) }

def addChar (b : TokenBuffer) (pos : Nat) : TokenBuffer := (b.ensureCapacity pos).put pos

end TokenBuffer

-- The functions of the tokenizer with the buffer. What they store of a token is a list, and the next index its
-- length; the terminator is written behind it.
namespace Buffered

abbrev Call := Result × Tokenizer × TokenBuffer

def charLiteral (t : Tokenizer) (b : TokenBuffer) : Call :=
  let b := b.put 0
  let (c, t) := nextChar t
  let (c, t) :=
    if c = code '\\' then
      let (c, t) := nextChar t
      (unescape c, t)
    else (c, t)
  if c = EOF then (.error (-4), t, b)
  else
    let b := b.put 1
    let middle := c
    let (c, t) := nextChar t
    if c ≠ code '\'' then (.error (-5), t, b)
    else (.token .ZCM_TOK_OTHER [toByte (code '\''), toByte middle, toByte c], t, (b.put 2).put 3)

def stringLiteral : Nat → Bool → List Byte → Tokenizer → TokenBuffer → Option Call
  | 0, _, _, _, _ => none
  | fuel + 1, escape, token, t, b =>
      let b := b.ensureCapacity token.length
      let (c, t) := nextChar t
      if c = EOF then some (.token .ZCM_TOK_INVALID token, t, b.put token.length)
      else if escape then stringLiteral fuel false token t b
      else if c = code '"' then
        some (.token .ZCM_TOK_INVALID (token ++ [toByte c]), t, (b.put token.length).put (token.length + 1))
      else if c = code '\\' then stringLiteral fuel true token t b
      else stringLiteral fuel false (token ++ [toByte c]) t (b.put token.length)

def operator : Nat → Int → List Byte → Tokenizer → TokenBuffer → Option Call
  | 0, _, _, _, _ => none
  | fuel + 1, c, token, t, b =>
      if strchr opChars c then
        let b := b.addChar token.length
        let token := token ++ [toByte c]
        let (c, t) := nextChar t
        operator fuel c token t b
      else some (.token .ZCM_TOK_OTHER token, ungetc t c, b.put token.length)

def restOfLine : Nat → Int → List Byte → Tokenizer → TokenBuffer → Option Call
  | 0, _, _, _, _ => none
  | fuel + 1, c, token, t, b =>
      if c ≠ EOF ∧ c ≠ code '\n' then
        let b := b.addChar token.length
        let token := token ++ [toByte c]
        let (c, t) := nextChar t
        restOfLine fuel c token t b
      else some (.token .ZCM_TOK_COMMENT token, ungetc t c, b.put token.length)

def leadingBlanks : Nat → List Byte → Tokenizer → TokenBuffer →
    Option (Int × List Byte × Tokenizer × TokenBuffer)
  | 0, _, _, _ => none
  | fuel + 1, token, t, b =>
      let (c, t) := nextChar t
      if c ≠ EOF ∧ (c = code ' ' ∨ c = code '\t') then
        leadingBlanks fuel (token ++ [toByte c]) t (b.addChar token.length)
      else some (c, token, t, b)

def asterisks :
    Nat → Int → Bool → List Byte → Tokenizer → TokenBuffer →
      Option (Int × Bool × List Byte × Tokenizer × TokenBuffer)
  | 0, _, _, _, _, _ => none
  | fuel + 1, c, gotAsterisk, token, t, b =>
      if c = code '*' then
        let b := b.addChar token.length
        let token := token ++ [toByte c]
        let (c, t) := nextChar t
        asterisks fuel c true token t b
      else some (c, gotAsterisk, token, t, b)

def commentLine :
    Nat → Int → List Byte → Tokenizer → TokenBuffer →
      Option (Bool × Int × List Byte × Tokenizer × TokenBuffer)
  | 0, _, _, _, _ => none
  | fuel + 1, c, token, t, b =>
      if c ≠ EOF ∧ c ≠ code '\n' then
        let last := c
        let b := b.addChar token.length
        let token := token ++ [toByte c]
        let (c, t) := nextChar t
        if last = code '*' ∧ c = code '/' then some (true, c, token.dropLast, t, b)
        else commentLine fuel c token t b
      else some (false, c, token, t, b)

def extendedComment : Nat → List Byte → Tokenizer → TokenBuffer → Option Call
  | 0, _, _, _ => none
  | fuel + 1, token, t, b => do
      let posLineStart := token.length
      let (c, token, t, b) ← leadingBlanks (fuel + 1) token t b
      let (c, gotAsterisk, token, t, b) ← asterisks (fuel + 1) c false token t b
      let token := if gotAsterisk then token.take posLineStart else token
      if gotAsterisk ∧ c = code '/' then return (.token .ZCM_TOK_COMMENT token, t, b.put token.length)
      let (c, t) := if gotAsterisk ∧ c = code ' ' then nextChar t else (c, t)
      let (finished, c, token, t, b) ← commentLine (fuel + 1) c token t b
      if finished then return (.token .ZCM_TOK_COMMENT token, t, b.put token.length)
      if c = EOF then return (.eof, t, b)
      if posLineStart ≠ token.length then extendedComment fuel (token ++ [toByte c]) t (b.addChar token.length)
      else extendedComment fuel token t b

def slash (fuel : Nat) (t : Tokenizer) (b : TokenBuffer) : Option Call := do
  let b := b.addChar 0
  let (c, t) := nextChar t
  if c = EOF then return (.token .ZCM_TOK_OTHER [toByte (code '/')], t, b.put 1)
  if c = code '*' then return ← extendedComment fuel [] t b
  if c = code '/' then
    let (c, t) := nextChar t
    let (c, t) ← skipChar '/' fuel c t
    let (c, t) ← skipChar ' ' fuel c t
    return ← restOfLine fuel c [] t b
  return (.token .ZCM_TOK_OTHER [toByte (code '/')], ungetc t c, b.put 1)

def blob : Nat → Int → List Byte → Tokenizer → TokenBuffer → Option Call
  | 0, _, _, _, _ => none
  | fuel + 1, c, token, t, b =>
      let b := b.addChar token.length
      let token := token ++ [toByte c]
      if strchr singleCharToks c then some (.token .ZCM_TOK_OTHER token, t, b.put token.length)
      else
        let (c, t) := nextChar t
        if strchr singleCharToks c || strchr opChars c then
          some (.token .ZCM_TOK_OTHER token, ungetc t c, b.put token.length)
        else if ¬ isspace c ∧ c ≠ EOF then blob fuel c token t b
        else some (.token .ZCM_TOK_OTHER token, t, b.put token.length)

def tokenizeNextInternal (fuel : Nat) (t : Tokenizer) (b : TokenBuffer) : Option Call := do
  let (c, t) ← skipSpaces fuel t
  if c = EOF then return (.eof, t, b)
  if c = code '\'' then return charLiteral t b
  if c = code '"' then return ← stringLiteral fuel false [toByte c] t (b.put 0)
  if strchr opChars c then return ← operator fuel c [] t b
  if c = code '/' then return ← slash fuel t b
  blob fuel c [] t b

def tokenizeNext (t : Tokenizer) (b : TokenBuffer) : Option Call := tokenizeNextInternal (t.rest.length + 2) t b

end Buffered

def afterCalls (content : CString) : Nat → Option (Tokenizer × TokenBuffer)
  | 0 => some (create content, TokenBuffer.create)
  | n + 1 => do
      let (t, b) ← afterCalls content n
      let (_, t, b) ← Buffered.tokenizeNext t b
      some (t, b)

end Zcm.Gen.Tokenize
