import Zcm.Gen.TokenBuffer

namespace Zcm.Gen.Tokenize
open Zcm.Lib

structure Filled (cap : Nat) (safe : Bool) (n : Nat) (b : TokenBuffer) : Prop where
  inside : b.inside = safe
  room : n ≤ b.capacity
  grown : ∃ k, b.capacity = cap * 2 ^ k ∧ (k = 0 ∨ b.capacity < 2 * n)

def Terminated (cap : Nat) (safe : Bool) (n : Nat) (b : TokenBuffer) : Prop :=
  ∃ b₀, Filled cap safe n b₀ ∧ b = b₀.put n

def Fills (cap n : Nat) : Prop := ∃ k, n = cap * 2 ^ k

def stringCloses : Bool → List Byte → Bool
  | _, [] => false
  | escape, c :: cs =>
      if c = 0xff#8 then false
      else if escape then stringCloses false cs
      else if c = ch '"' then true
      else if c = ch '\\' then stringCloses true cs
      else stringCloses false cs

def lineText (cs : List Byte) : List Byte :=
  ((cs.dropWhile (· = ch '/')).dropWhile (· = ch ' ')).takeWhile isLineChar

def slashEnd : List Byte → Option Nat
  | [] => none
  | c :: cs => if c = ch '/' then some (lineText cs).length else none

/-- How many bytes are stored of a token before its terminator, if nothing has made sure of a byte for that. -/
def bareEnd (b : Byte) (cs : List Byte) : Option Nat :=
  if b = 0xff#8 ∨ b = ch '\'' then none
  else if b = ch '"' then if stringCloses false cs then some ((stringText false cs).1.length + 1) else none
  else if isOp b then some ((cs.takeWhile isOp).length + 1)
  else if b = ch '/' then slashEnd cs
  else some (blobText b cs).1.length

/-- The next token does not fill the buffer, nor a buffer twice as large, and so on. -/
def Fits (capacity : Nat) (s : List Byte) : Prop :=
  match s.dropWhile isSpace with
  | [] => True
  | b :: cs => ∀ n, bareEnd b cs = some n → ¬ Fills capacity n

section Filled

variable {cap n : Nat} {safe : Bool} {b : TokenBuffer}

theorem Filled.start (b : TokenBuffer) : Filled b.capacity b.inside 0 b :=
  ⟨rfl, Nat.zero_le _, 0, by rw [Nat.pow_zero, Nat.mul_one], .inl rfl⟩

theorem Filled.capacity_le (filled : Filled cap safe n b) : cap ≤ b.capacity := by
  obtain ⟨k, capacity, _⟩ := filled.grown
  rw [capacity]
  exact Nat.le_mul_of_pos_right cap (Nat.two_pow_pos k)

theorem Filled.ensure (positive : 0 < cap) (filled : Filled cap safe n b) :
    Filled cap safe (n + 1) (b.ensureCapacity n) := by
  obtain ⟨k, capacity, least⟩ := filled.grown
  have room := filled.room
  have some := filled.capacity_le
  rw [TokenBuffer.ensureCapacity]
  split
  next full =>
      refine ⟨filled.inside, by simp only; omega, k + 1, ?_, .inr (by simp only; omega)⟩
      simp only
      rw [capacity, Nat.pow_succ, Nat.mul_assoc]
  next =>
      refine ⟨filled.inside, by omega, k, capacity, ?_⟩
      omega

theorem Filled.ensure_again (filled : Filled cap safe (n + 1) b) : b.ensureCapacity n = b :=
  if_neg (Nat.not_le.mpr filled.room)

theorem put_inside {m : Nat} (lt : m < b.capacity) : b.put m = b := by
  rw [TokenBuffer.put, decide_eq_true lt, Bool.and_true]

theorem Filled.addChar (positive : 0 < cap) (filled : Filled cap safe n b) :
    Filled cap safe (n + 1) (b.addChar n) := by
  have ensured := filled.ensure positive
  rw [TokenBuffer.addChar, put_inside ensured.room]
  exact ensured

theorem Filled.full_iff (positive : 0 < cap) (filled : Filled cap safe n b) : n = b.capacity ↔ Fills cap n := by
  obtain ⟨k, capacity, least⟩ := filled.grown
  constructor
  · intro full
    exact ⟨k, full.trans capacity⟩
  · rintro ⟨j, rfl⟩
    have room := filled.room
    rw [capacity] at room least ⊢
    have order : j ≤ k := (Nat.pow_le_pow_iff_right (by decide)).mp (Nat.le_of_mul_le_mul_left room positive)
    obtain rfl | more := Nat.eq_or_lt_of_le order
    · rfl
    · have double : cap * 2 ^ (j + 1) ≤ cap * 2 ^ k :=
        Nat.mul_le_mul_left cap (Nat.pow_le_pow_right (by decide) more)
      rw [Nat.pow_succ] at double
      have twice : cap * (2 ^ j * 2) = 2 * (cap * 2 ^ j) := by ring
      omega

theorem Terminated.inside_iff (positive : 0 < cap) (terminated : Terminated cap safe n b) :
    (b.inside = true ↔ safe = true ∧ ¬ Fills cap n) ∧ cap ≤ b.capacity := by
  obtain ⟨b₀, filled, rfl⟩ := terminated
  have room := filled.room
  refine ⟨?_, filled.capacity_le⟩
  rw [TokenBuffer.put, Bool.and_eq_true, filled.inside, decide_eq_true_eq, ← filled.full_iff positive]
  exact and_congr_right fun _ => by omega

end Filled

namespace Buffered

section Loops

variable {cap : Nat} (positive : 0 < cap) {safe : Bool} {b : TokenBuffer} {result : Result} {t' : Tokenizer}

include positive

theorem operator_terminated {fuel : Nat} {c : Int} {token : List Byte} {t : Tokenizer}
    (run : Tokenize.operator fuel c token t = some (result, t')) (filled : Filled cap safe token.length b) :
    ∃ type text b', result = .token type text ∧ operator fuel c token t b = some (result, t', b') ∧
      Terminated cap safe text.length b' := by
  induction fuel generalizing c token t b with
  | zero => cases run
  | succ fuel ih =>
      rw [Tokenize.operator] at run
      rw [operator]
      split at run
      next op =>
          rw [if_pos op]
          exact ih run (by rw [List.length_append]; exact filled.addChar positive)
      next other =>
          obtain ⟨rfl, rfl⟩ := Prod.mk.inj (Option.some.inj run)
          rw [if_neg other]
          exact ⟨_, token, _, rfl, rfl, b, filled, rfl⟩

theorem restOfLine_terminated {fuel : Nat} {c : Int} {token : List Byte} {t : Tokenizer}
    (run : Tokenize.restOfLine fuel c token t = some (result, t')) (filled : Filled cap safe token.length b) :
    ∃ type text b', result = .token type text ∧ restOfLine fuel c token t b = some (result, t', b') ∧
      Terminated cap safe text.length b' := by
  induction fuel generalizing c token t b with
  | zero => cases run
  | succ fuel ih =>
      rw [Tokenize.restOfLine] at run
      rw [restOfLine]
      split at run
      next more =>
          rw [if_pos more]
          exact ih run (by rw [List.length_append]; exact filled.addChar positive)
      next ends =>
          obtain ⟨rfl, rfl⟩ := Prod.mk.inj (Option.some.inj run)
          rw [if_neg ends]
          exact ⟨_, token, _, rfl, rfl, b, filled, rfl⟩

theorem blob_terminated {fuel : Nat} {c : Int} {token : List Byte} {t : Tokenizer}
    (run : Tokenize.blob fuel c token t = some (result, t')) (filled : Filled cap safe token.length b) :
    ∃ type text b', result = .token type text ∧ blob fuel c token t b = some (result, t', b') ∧
      Terminated cap safe text.length b' := by
  induction fuel generalizing c token t b with
  | zero => cases run
  | succ fuel ih =>
      have longer : Filled cap safe (token ++ [toByte c]).length (b.addChar token.length) := by
        rw [List.length_append]
        exact filled.addChar positive
      rw [Tokenize.blob] at run
      rw [blob]
      simp only at run ⊢
      split at run
      next single =>
          obtain ⟨rfl, rfl⟩ := Prod.mk.inj (Option.some.inj run)
          rw [if_pos single]
          exact ⟨_, _, _, rfl, rfl, _, longer, rfl⟩
      next notSingle =>
          rw [if_neg notSingle]
          split at run
          next ends =>
              obtain ⟨rfl, rfl⟩ := Prod.mk.inj (Option.some.inj run)
              rw [if_pos ends]
              exact ⟨_, _, _, rfl, rfl, _, longer, rfl⟩
          next goes =>
              rw [if_neg goes]
              split at run
              next more =>
                  rw [if_pos more]
                  exact ih run longer
              next blank =>
                  obtain ⟨rfl, rfl⟩ := Prod.mk.inj (Option.some.inj run)
                  rw [if_neg blank]
                  exact ⟨_, _, _, rfl, rfl, _, longer, rfl⟩

omit positive in
theorem stringLiteral_forget {fuel : Nat} {escape : Bool} {token : List Byte} {t : Tokenizer} {b' : TokenBuffer}
    (run : stringLiteral fuel escape token t b = some (result, t', b')) :
    Tokenize.stringLiteral fuel escape token t = some (result, t') := by
  induction fuel generalizing escape token t b with
  | zero => cases run
  | succ fuel ih =>
      rw [stringLiteral] at run
      rw [Tokenize.stringLiteral]
      generalize nextChar t = next at run ⊢
      obtain ⟨c, t⟩ := next
      simp only at run ⊢
      split at run
      next eof =>
          cases run
          rw [if_pos eof]
      next more =>
          rw [if_neg more]
          split at run
          next escaped =>
              rw [if_pos escaped]
              exact ih run
          next plain =>
              rw [if_neg plain]
              split at run
              next quote =>
                  cases run
                  rw [if_pos quote]
              next inner =>
                  rw [if_neg inner]
                  split at run
                  next backslash =>
                      rw [if_pos backslash]
                      exact ih run
                  next char =>
                      rw [if_neg char]
                      exact ih run

theorem stringLiteral_terminated {u : Int} (none : u < 0) (fuel : Nat) (escape : Bool) (current : Int)
    (cs token : List Byte) (enough : cs.length < fuel)
    (filled : Filled cap safe token.length b ∨ Filled cap safe (token.length + 1) b) :
    ∃ c b', stringLiteral fuel escape token ⟨cs, u, current⟩ b =
        some (.token .ZCM_TOK_INVALID (token ++ (stringText escape cs).1), ⟨(stringText escape cs).2, u, c⟩, b') ∧
      (b'.inside = true ↔ safe = true ∧
        (stringCloses escape cs = true → ¬ Fills cap (token ++ (stringText escape cs).1).length)) ∧
      cap ≤ b'.capacity := by
  have ensured (token : List Byte) (b : TokenBuffer)
      (filled : Filled cap safe token.length b ∨ Filled cap safe (token.length + 1) b) :
      Filled cap safe (token.length + 1) (b.ensureCapacity token.length) := by
    cases filled with
    | inl filled => exact filled.ensure positive
    | inr filled =>
        rw [filled.ensure_again]
        exact filled
  have ended (token : List Byte) (b : TokenBuffer) (filled : Filled cap safe (token.length + 1) b) :
      ((b.put token.length).inside = true ↔ safe = true ∧ (false = true → ¬ Fills cap (token ++ []).length)) ∧
        cap ≤ (b.put token.length).capacity := by
    rw [put_inside filled.room, filled.inside]
    exact ⟨⟨fun safe => ⟨safe, fun closes => absurd closes Bool.false_ne_true⟩, And.left⟩,
      filled.capacity_le⟩
  induction cs generalizing fuel escape current token b with
  | nil =>
      obtain ⟨fuel, rfl⟩ : ∃ n, fuel = n + 1 := ⟨fuel - 1, by simp at enough; omega⟩
      refine ⟨current, (b.ensureCapacity token.length).put token.length, ?_, ended token _ (ensured token b filled)⟩
      simp [stringLiteral, nextChar_nil none, stringText]
  | cons c cs ih =>
      obtain ⟨fuel, rfl⟩ : ∃ n, fuel = n + 1 := ⟨fuel - 1, by simp at enough; omega⟩
      have later : cs.length < fuel := by simpa using enough
      have filled' := ensured token b filled
      rw [stringLiteral, nextChar_cons none]
      simp only [toInt_eq_eof, @toInt_eq_code c '"' (by decide), @toInt_eq_code c '\\' (by decide), toByte_toInt]
      rw [stringText, stringCloses]
      by_cases eof : c = 0xff#8
      · rw [if_pos eof, if_pos eof, if_pos eof]
        exact ⟨c.toInt, _, by rw [List.append_nil], ended token _ filled'⟩
      · rw [if_neg eof, if_neg eof, if_neg eof]
        cases escape with
        | true => exact ih fuel false c.toInt token later (.inr filled')
        | false =>
            rw [if_neg Bool.false_ne_true, if_neg Bool.false_ne_true, if_neg Bool.false_ne_true]
            by_cases quote : c = ch '"'
            · rw [if_pos quote, if_pos quote, if_pos quote, put_inside filled'.room]
              have terminated : Terminated cap safe (token ++ [c]).length
                  ((b.ensureCapacity token.length).put (token.length + 1)) := by
                rw [List.length_append]
                exact ⟨_, filled', rfl⟩
              obtain ⟨inside, grown⟩ := terminated.inside_iff positive
              exact ⟨c.toInt, _, rfl, inside.trans (and_congr_right fun _ => ⟨fun fits _ => fits,
                fun fits => fits rfl⟩), grown⟩
            · rw [if_neg quote, if_neg quote, if_neg quote]
              by_cases backslash : c = ch '\\'
              · rw [if_pos backslash, if_pos backslash, if_pos backslash]
                exact ih fuel true c.toInt token later (.inr filled')
              · rw [if_neg backslash, if_neg backslash, if_neg backslash, put_inside filled'.room]
                have rest := ih fuel false c.toInt (token ++ [c]) later
                  (.inl (by rw [List.length_append]; exact filled'))
                rwa [List.append_assoc, List.singleton_append] at rest

end Loops

section Comments

structure Roomy (cap : Nat) (safe : Bool) (n : Nat) (b : TokenBuffer) : Prop where
  inside : b.inside = safe
  room : n ≤ b.capacity
  grown : cap ≤ b.capacity

variable {cap : Nat} (positive : 0 < cap) {safe : Bool} {b : TokenBuffer} {t' : Tokenizer}

theorem Roomy.take {m n : Nat} (roomy : Roomy cap safe n b) (le : m ≤ n) : Roomy cap safe m b :=
  ⟨roomy.inside, le.trans roomy.room, roomy.grown⟩

include positive

theorem Roomy.addChar {n : Nat} (roomy : Roomy cap safe n b) : Roomy cap safe (n + 1) (b.addChar n) := by
  have room := roomy.room
  have grown := roomy.grown
  have more : Roomy cap safe (n + 1) (b.ensureCapacity n) := by
    rw [TokenBuffer.ensureCapacity]
    split
    · exact ⟨roomy.inside, by simp only; omega, by simp only; omega⟩
    · exact ⟨roomy.inside, by omega, grown⟩
  rw [TokenBuffer.addChar, put_inside more.room]
  exact more

theorem leadingBlanks_roomy {fuel : Nat} {token token' : List Byte} {c : Int} {t : Tokenizer}
    (run : Tokenize.leadingBlanks fuel token t = some (c, token', t')) (roomy : Roomy cap safe token.length b) :
    ∃ b', leadingBlanks fuel token t b = some (c, token', t', b') ∧ Roomy cap safe token'.length b' ∧
      token.length ≤ token'.length := by
  induction fuel generalizing token t b with
  | zero => cases run
  | succ fuel ih =>
      rw [Tokenize.leadingBlanks] at run
      rw [leadingBlanks]
      generalize nextChar t = next at run ⊢
      obtain ⟨d, t⟩ := next
      simp only at run ⊢
      split at run
      next blank =>
          obtain ⟨b', runs, roomy', longer⟩ := ih run (by rw [List.length_append]; exact roomy.addChar positive)
          rw [List.length_append] at longer
          rw [if_pos blank]
          exact ⟨b', runs, roomy', by omega⟩
      next other =>
          cases run
          rw [if_neg other]
          exact ⟨b, rfl, roomy, Nat.le_refl _⟩

theorem asterisks_roomy {fuel : Nat} {c c' : Int} {got got' : Bool} {token token' : List Byte} {t : Tokenizer}
    (run : Tokenize.asterisks fuel c got token t = some (c', got', token', t'))
    (roomy : Roomy cap safe token.length b) :
    ∃ b', asterisks fuel c got token t b = some (c', got', token', t', b') ∧ Roomy cap safe token'.length b' ∧
      token.length ≤ token'.length ∧ (got' = true → got = false → token.length < token'.length) := by
  induction fuel generalizing c got token t b with
  | zero => cases run
  | succ fuel ih =>
      rw [Tokenize.asterisks] at run
      rw [asterisks]
      split at run
      next star =>
          obtain ⟨b', runs, roomy', longer, _⟩ := ih run (by rw [List.length_append]; exact roomy.addChar positive)
          rw [List.length_append] at longer
          rw [if_pos star]
          exact ⟨b', runs, roomy', by omega, fun _ _ => by simp at longer; omega⟩
      next other =>
          cases run
          rw [if_neg other]
          exact ⟨b, rfl, roomy, Nat.le_refl _, fun yes no => absurd (yes.symm.trans no) (by decide)⟩

theorem commentLine_roomy {fuel : Nat} {c c' : Int} {finished : Bool} {token token' : List Byte} {t : Tokenizer}
    (run : Tokenize.commentLine fuel c token t = some (finished, c', token', t'))
    (roomy : Roomy cap safe token.length b) :
    ∃ b', commentLine fuel c token t b = some (finished, c', token', t', b') ∧ Roomy cap safe token'.length b' ∧
      (finished = true → token'.length < b'.capacity) := by
  induction fuel generalizing c token t b with
  | zero => cases run
  | succ fuel ih =>
      rw [Tokenize.commentLine] at run
      rw [commentLine]
      split at run
      next more =>
          have longer : Roomy cap safe (token ++ [toByte c]).length (b.addChar token.length) := by
            rw [List.length_append]
            exact roomy.addChar positive
          rw [if_pos more]
          simp only at run ⊢
          split at run
          next closes =>
              cases run
              have room := longer.room
              rw [List.length_append, List.length_singleton] at room
              rw [if_pos closes]
              refine ⟨_, rfl, longer.take (by simp), fun _ => ?_⟩
              rw [List.dropLast_concat]
              exact room
          next goes =>
              rw [if_neg goes]
              exact ih run longer
      next ends =>
          cases run
          rw [if_neg ends]
          exact ⟨b, rfl, roomy, fun yes => absurd yes Bool.false_ne_true⟩

theorem lineEnd {fuel : Nat} {token token₄ : List Byte} {c : Int} {finished : Bool} {t : Tokenizer} {result : Result}
    (ih : ∀ {b : TokenBuffer} {token : List Byte} {t : Tokenizer},
      Tokenize.extendedComment fuel token t = some (result, t') → Roomy cap safe token.length b →
        ∃ b', extendedComment fuel token t b = some (result, t', b') ∧ b'.inside = safe ∧ cap ≤ b'.capacity)
    (run : (if finished = true then some (Result.token .ZCM_TOK_COMMENT token₄, t)
      else if c = EOF then some (.eof, t)
      else Tokenize.extendedComment fuel
        (if token.length ≠ token₄.length then token₄ ++ [toByte c] else token₄) t) = some (result, t'))
    (roomy : Roomy cap safe token₄.length b) (less : finished = true → token₄.length < b.capacity) :
    ∃ b', (if finished = true then some (Result.token .ZCM_TOK_COMMENT token₄, t, b.put token₄.length)
      else if c = EOF then some (.eof, t, b)
      else if token.length ≠ token₄.length then
        extendedComment fuel (token₄ ++ [toByte c]) t (b.addChar token₄.length)
      else extendedComment fuel token₄ t b) = some (result, t', b') ∧ b'.inside = safe ∧ cap ≤ b'.capacity := by
  split at run
  next ends =>
      cases run
      rw [if_pos ends, put_inside (less ends)]
      exact ⟨b, rfl, roomy.inside, roomy.grown⟩
  next open' =>
      rw [if_neg open']
      split at run
      next eof =>
          cases run
          rw [if_pos eof]
          exact ⟨b, rfl, roomy.inside, roomy.grown⟩
      next more =>
          rw [if_neg more]
          split at run
          next stored =>
              rw [if_pos stored]
              exact ih run (by rw [List.length_append]; exact roomy.addChar positive)
          next nothing =>
              rw [if_neg nothing]
              exact ih run roomy

theorem extendedComment_roomy {fuel : Nat} {token : List Byte} {t : Tokenizer} {result : Result}
    (run : Tokenize.extendedComment fuel token t = some (result, t')) (roomy : Roomy cap safe token.length b) :
    ∃ b', extendedComment fuel token t b = some (result, t', b') ∧ b'.inside = safe ∧ cap ≤ b'.capacity := by
  induction fuel generalizing token t b with
  | zero => cases run
  | succ fuel ih =>
      rw [Tokenize.extendedComment] at run
      rw [extendedComment]
      cases blanks : Tokenize.leadingBlanks (fuel + 1) token t with
      | none => simp [blanks] at run
      | some r =>
          obtain ⟨c, token₁, t₁⟩ := r
          obtain ⟨b₁, blanks', roomy₁, longer₁⟩ := leadingBlanks_roomy positive blanks roomy
          rw [blanks] at run
          rw [blanks']
          cases stars : Tokenize.asterisks (fuel + 1) c false token₁ t₁ with
          | none => simp [stars] at run
          | some r =>
              obtain ⟨c₂, got, token₂, t₂⟩ := r
              obtain ⟨b₂, stars', roomy₂, longer₂, starred⟩ := asterisks_roomy positive stars roomy₁
              simp only [stars, Option.bind_eq_bind, Option.bind_some] at run
              simp only [stars', Option.bind_eq_bind, Option.bind_some]
              have taken : Roomy cap safe (if got = true then token₂.take token.length else token₂).length b₂ ∧
                  (got = true →
                    (if got = true then token₂.take token.length else token₂).length < b₂.capacity) := by
                cases got with
                | false => exact ⟨roomy₂, fun yes => absurd yes Bool.false_ne_true⟩
                | true =>
                    have more := starred rfl rfl
                    have room := roomy₂.room
                    rw [if_pos rfl, List.length_take]
                    exact ⟨roomy₂.take (by omega), fun _ => by omega⟩
              generalize (if got = true then token₂.take token.length else token₂) = token₃ at run taken ⊢
              obtain ⟨roomy₃, less⟩ := taken
              generalize (if got = true ∧ c₂ = code ' ' then nextChar t₂ else (c₂, t₂)) = next at run ⊢
              obtain ⟨c₃, t₃⟩ := next
              split at run
              next closes =>
                  cases run
                  rw [if_pos closes, put_inside (less closes.1)]
                  exact ⟨_, rfl, roomy₃.inside, roomy₃.grown⟩
              next goes =>
                  rw [if_neg goes]
                  cases line : Tokenize.commentLine (fuel + 1) c₃ token₃ t₃ with
                  | none => simp [line] at run
                  | some r =>
                      obtain ⟨finished, c₄, token₄, t₄⟩ := r
                      obtain ⟨b₄, line', roomy₄, less₄⟩ := commentLine_roomy positive line roomy₃
                      simp only [line, Option.bind_some] at run
                      simp only [line', Option.bind_some]
                      exact (@lineEnd _ positive _ _ _ fuel token) ih run roomy₄ less₄

end Comments

section Calls

variable {b : TokenBuffer} (room : 4 ≤ b.capacity)

include room

theorem charLiteral_inside (t : Tokenizer) :
    charLiteral t b = ((Tokenize.charLiteral t).1, (Tokenize.charLiteral t).2, b) := by
  have fits {m : Nat} (lt : m < 4) : b.put m = b := put_inside (by omega)
  rw [charLiteral, Tokenize.charLiteral]
  simp only [fits (show 0 < 4 by decide), fits (show 1 < 4 by decide), fits (show 2 < 4 by decide),
    fits (show 3 < 4 by decide)]
  generalize (if (nextChar t).1 = code '\\' then
    (unescape (nextChar (nextChar t).2).1, (nextChar (nextChar t).2).2) else ((nextChar t).1, (nextChar t).2)) = middle
  by_cases eof : middle.1 = EOF
  · rw [if_pos eof, if_pos eof]
  · rw [if_neg eof, if_neg eof]
    by_cases open' : (nextChar middle.2).1 ≠ code '\''
    · rw [if_pos open', if_pos open']
    · rw [if_neg open', if_neg open']

theorem slash_inside {u : Int} (none : u < 0) (fuel : Nat) (cs : List Byte) (enough : cs.length < fuel)
    {result : Result} {t' : Tokenizer} (run : Tokenize.slash fuel ⟨cs, u, (ch '/').toInt⟩ = some (result, t')) :
    ∃ b', slash fuel ⟨cs, u, (ch '/').toInt⟩ b = some (result, t', b') ∧ b.capacity ≤ b'.capacity ∧
      (b'.inside = true ↔ b.inside = true ∧ ∀ n, slashEnd cs = some n → ¬ Fills b.capacity n) := by
  have positive : 0 < b.capacity := by omega
  have first : b.addChar 0 = b := by
    have ensured : b.ensureCapacity 0 = b := if_neg (by omega)
    rw [TokenBuffer.addChar, ensured, put_inside (by omega)]
  have second : b.put 1 = b := put_inside (by omega)
  have bare (h : slashEnd cs = Option.none) : b.capacity ≤ b.capacity ∧
      (b.inside = true ↔ b.inside = true ∧ ∀ n, slashEnd cs = some n → ¬ Fills b.capacity n) := by
    rw [h]
    exact ⟨Nat.le_refl _, by simp⟩
  rw [Tokenize.slash] at run
  rw [slash, first, second]
  cases cs with
  | nil =>
      rw [nextChar_nil none] at run ⊢
      cases run
      exact ⟨b, rfl, bare rfl⟩
  | cons c cs =>
      simp only [nextChar_cons none, toInt_eq_eof, @toInt_eq_code c '*' (by decide),
        @toInt_eq_code c '/' (by decide)] at run ⊢
      by_cases eof : c = 0xff#8
      · subst eof
        cases run
        exact ⟨b, rfl, bare rfl⟩
      rw [if_neg eof] at run ⊢
      by_cases star : c = ch '*'
      · subst star
        have run : Tokenize.extendedComment fuel [] ⟨cs, u, (ch '*').toInt⟩ = some (result, t') := by
          simpa using run
        obtain ⟨b', runs, inside, grown⟩ := extendedComment_roomy positive run
          ⟨rfl, Nat.zero_le _, Nat.le_refl _⟩
        refine ⟨b', by simpa using runs, grown, ?_⟩
        rw [inside]
        exact (bare rfl).2
      rw [if_neg star] at run ⊢
      by_cases line : c = ch '/'
      · subst line
        have shorter : cs.length < fuel := by
          rw [List.length_cons] at enough
          omega
        obtain ⟨last₁, c₁, t₁, skipped₁, at₁, -⟩ := skipChar_eq none (by decide : '/'.toNat < 128) fuel
          (ch '/') cs _ _ shorter (at_next none (ch '/') cs)
        have length₁ := cs.length_dropWhile_le (· = ch '/')
        obtain ⟨last₂, c₂, t₂, skipped₂, at₂, -⟩ :=
          skipChar_eq none (by decide : ' '.toNat < 128) fuel last₁
          (cs.dropWhile (· = ch '/')) c₁ t₁ (by omega) at₁
        have length₂ := (cs.dropWhile (· = ch '/')).length_dropWhile_le (· = ch ' ')
        obtain ⟨t'', runs, -⟩ := restOfLine_eq none fuel last₂
          ((cs.dropWhile (· = ch '/')).dropWhile (· = ch ' ')) [] c₂ t₂ (by omega) at₂
        simp only [if_true, Option.bind_eq_bind, skipped₁, skipped₂, runs,
          Option.bind_some, Option.pure_def, Option.some.injEq, Prod.mk.injEq] at run
        obtain ⟨rfl, rfl⟩ := run
        obtain ⟨type, text, b', same, runs', terminated⟩ := restOfLine_terminated positive runs (.start b)
        obtain ⟨rfl, rfl⟩ := Result.token.inj same
        obtain ⟨inside, grown⟩ := terminated.inside_iff positive
        refine ⟨b', by simp [skipped₁, skipped₂, runs'], grown, inside.trans (and_congr_right fun _ => ?_)⟩
        rw [slashEnd, if_pos rfl, lineText]
        simp
      · rw [if_neg line] at run ⊢
        cases run
        exact ⟨b, rfl, bare (if_neg line)⟩

theorem tokenizeNext_inside {t : Tokenizer} (valid : Valid t) :
    ∃ result t' b', tokenizeNext t b = some (result, t', b') ∧ Tokenize.tokenizeNext t = some (result, t') ∧
      Valid t' ∧ b.capacity ≤ b'.capacity ∧
      (b'.inside = true ↔ b.inside = true ∧ Fits b.capacity (stream t)) := by
  have positive : 0 < b.capacity := by omega
  have length : (stream t).length < t.rest.length + 2 := by
    unfold stream
    split
    · simp
    · omega
  obtain ⟨result, t', call, valid', -⟩ := tokenizeNext_outcome valid
  refine ⟨result, t', ?_⟩
  rw [Fits]
  cases first : (stream t).dropWhile isSpace with
  | nil =>
      obtain ⟨t'', skipped, -⟩ := skipSpaces_ended valid length first
      have same := call
      rw [Tokenize.tokenizeNext, Tokenize.tokenizeNextInternal, skipped] at call
      rw [tokenizeNext, tokenizeNextInternal, skipped]
      cases call
      exact ⟨b, rfl, same, valid', Nat.le_refl _, by simp⟩
  | cons d cs =>
      obtain ⟨u, none, valid'', skipped⟩ := skipSpaces_next valid length first
      have enough : cs.length + 1 < t.rest.length + 2 := by
        have shorter := (stream t).length_dropWhile_le isSpace
        rw [first, List.length_cons] at shorter
        omega
      have same := call
      have bare (h : bareEnd d cs = Option.none) : b.capacity ≤ b.capacity ∧
          (b.inside = true ↔ b.inside = true ∧ ∀ n, bareEnd d cs = some n → ¬ Fills b.capacity n) := by
        rw [h]
        exact ⟨Nat.le_refl _, by simp⟩
      simp only [Tokenize.tokenizeNext, Tokenize.tokenizeNextInternal, skipped, Option.bind_eq_bind, Option.bind_some,
        toInt_eq_eof, @toInt_eq_code d '\'' (by decide), @toInt_eq_code d '"' (by decide),
        @toInt_eq_code d '/' (by decide)] at call
      simp only [tokenizeNext, tokenizeNextInternal, skipped, Option.bind_eq_bind, Option.bind_some,
        toInt_eq_eof, @toInt_eq_code d '\'' (by decide), @toInt_eq_code d '"' (by decide),
        @toInt_eq_code d '/' (by decide)]
      by_cases eof : d = 0xff#8
      · rw [if_pos eof] at call ⊢
        cases call
        exact ⟨b, rfl, same, valid', bare (if_pos (.inl eof))⟩
      rw [if_neg eof] at call ⊢
      by_cases char : d = ch '\''
      · rw [if_pos char] at call ⊢
        obtain ⟨rfl, rfl⟩ := Prod.mk.inj (Option.some.inj call)
        rw [charLiteral_inside room]
        exact ⟨b, rfl, same, valid', bare (if_pos (.inr char))⟩
      have neither : ¬ (d = 0xff#8 ∨ d = ch '\'') := not_or.mpr ⟨eof, char⟩
      rw [if_neg char] at call ⊢
      by_cases string : d = ch '"'
      · subst string
        rw [if_pos rfl] at call ⊢
        rw [put_inside (by omega)]
        obtain ⟨c, b', runs, inside, grown⟩ := stringLiteral_terminated positive none (t.rest.length + 2) false
          (ch '"').toInt cs [ch '"'] (by omega)
          (.inr ⟨rfl, (show 2 ≤ b.capacity by omega), 0, by rw [Nat.pow_zero, Nat.mul_one], .inl rfl⟩)
        have literal := stringLiteral_forget runs
        rw [toByte_toInt] at call
        obtain ⟨rfl, rfl⟩ := Prod.mk.inj (Option.some.inj (literal.symm.trans (by simpa using call)))
        refine ⟨b', by simpa using runs, same, valid', grown, inside.trans (and_congr_right fun _ => ?_)⟩
        rw [bareEnd, if_neg neither, if_pos rfl, List.length_append, List.length_singleton, Nat.add_comm]
        cases stringCloses false cs
        · simp
        · simp
      rw [if_neg string] at call ⊢
      by_cases op : isOp d = true
      · have isOp : strchr opChars d.toInt = true := op
        rw [if_pos isOp] at call ⊢
        obtain ⟨t'', text, -⟩ := operator_eq none (t.rest.length + 2) d cs [] enough op
        obtain ⟨rfl, rfl⟩ := Prod.mk.inj (Option.some.inj (text.symm.trans call))
        obtain ⟨type, text, b', token, runs, terminated⟩ := operator_terminated positive text (.start b)
        obtain ⟨rfl, rfl⟩ := Result.token.inj token
        obtain ⟨inside, grown⟩ := terminated.inside_iff positive
        refine ⟨b', runs, same, valid', grown, inside.trans (and_congr_right fun _ => ?_)⟩
        rw [bareEnd, if_neg neither, if_neg string, if_pos op]
        simp
      have notOp : strchr opChars d.toInt = false := by simpa [Tokenize.isOp] using op
      rw [if_neg (by rw [notOp]; decide)] at call ⊢
      by_cases slash : d = ch '/'
      · subst slash
        rw [if_pos rfl] at call ⊢
        obtain ⟨b', runs, grown, inside⟩ :=
          slash_inside room none (t.rest.length + 2) cs (by omega) (by simpa using call)
        refine ⟨b', by simpa using runs, same, valid', grown, ?_⟩
        rw [inside, bareEnd, if_neg neither, if_neg string, if_neg op, if_pos rfl]
      · rw [if_neg slash] at call ⊢
        obtain ⟨t'', text, -⟩ := blob_eq none (t.rest.length + 2) d cs [] (by omega) valid''
        obtain ⟨rfl, rfl⟩ := Prod.mk.inj (Option.some.inj (text.symm.trans call))
        obtain ⟨type, text, b', token, runs, terminated⟩ := blob_terminated positive text (.start b)
        obtain ⟨rfl, rfl⟩ := Result.token.inj token
        obtain ⟨inside, grown⟩ := terminated.inside_iff positive
        refine ⟨b', runs, same, valid', grown, inside.trans (and_congr_right fun _ => ?_)⟩
        rw [bareEnd, if_neg neither, if_neg string, if_neg op, if_neg slash]
        simp

end Calls

end Buffered

theorem valid_create (content : CString) : Valid (create content) :=
  ⟨0xff#8, (by decide : (-1 : Int) = (0xff#8).toInt)⟩

theorem afterCalls_defined (content : CString) (n : Nat) :
    ∃ t b, afterCalls content n = some (t, b) ∧ Valid t ∧ 4 ≤ b.capacity := by
  induction n with
  | zero => exact ⟨_, _, rfl, valid_create content, by decide⟩
  | succ n ih =>
      obtain ⟨t, b, before, valid, room⟩ := ih
      obtain ⟨result, t', b', runs, -, valid', grown, -⟩ := Buffered.tokenizeNext_inside room valid
      exact ⟨t', b', by simp [afterCalls, before, runs], valid', room.trans grown⟩

/-- Every index is inside the buffer exactly if no token that has no room made for its terminator fills it. -/
theorem writes_inside_iff (content : CString) (n : Nat) :
    ∃ t b, afterCalls content n = some (t, b) ∧
      (b.inside = true ↔
        ∀ i < n, ∀ t b, afterCalls content i = some (t, b) → Fits b.capacity (stream t)) := by
  induction n with
  | zero => exact ⟨_, _, rfl, fun _ i less => absurd less (Nat.not_lt_zero i), fun _ => rfl⟩
  | succ n ih =>
      obtain ⟨t, b, before, inside⟩ := ih
      obtain ⟨t₀, b₀, before₀, valid, room⟩ := afterCalls_defined content n
      obtain ⟨rfl, rfl⟩ := Prod.mk.inj (Option.some.inj (before.symm.trans before₀))
      obtain ⟨result, t', b', runs, -, -, -, inside'⟩ := Buffered.tokenizeNext_inside room valid
      refine ⟨t', b', by simp [afterCalls, before, runs], ?_⟩
      rw [inside', inside]
      constructor
      · rintro ⟨earlier, last⟩ i less t b call
        obtain less | rfl := Nat.lt_succ_iff_lt_or_eq.mp less
        · exact earlier i less t b call
        · obtain ⟨rfl, rfl⟩ := Prod.mk.inj (Option.some.inj (before.symm.trans call))
          exact last
      · intro all
        exact ⟨fun i less => all i (Nat.lt_succ_of_lt less), all n (Nat.lt_succ_self n) t b before⟩

theorem blobText_replicate (n : Nat) : (blobText (ch 'a') (List.replicate n (ch 'a'))).1.length = n + 1 := by
  have letter : (isSingle (ch 'a') || isSingle (ch 'a') || isOp (ch 'a')) = false := by decide
  have inner : (isSpace (ch 'a') || decide (ch 'a' = 0xff#8)) = false := by decide
  induction n with
  | zero => rfl
  | succ n ih =>
      rw [List.replicate_succ, blobText, letter, inner]
      simp only [Bool.false_eq_true, if_false, List.length_cons]
      rw [ih]

def longIdentifier : CString := ⟨List.replicate 1024 (ch 'a'), by decide +kernel⟩

/-- The terminator of an identifier of 1024 letters is written behind the buffer. -/
theorem longIdentifier_outside : ∃ t b, afterCalls longIdentifier 1 = some (t, b) ∧ b.inside = false := by
  obtain ⟨result, t', b', runs, -, -, -, inside⟩ :=
    Buffered.tokenizeNext_inside (b := TokenBuffer.create) (by decide) (valid_create longIdentifier)
  refine ⟨t', b', by simp [afterCalls, runs], ?_⟩
  have starts : (stream (create longIdentifier)).dropWhile isSpace = ch 'a' :: List.replicate 1023 (ch 'a') := by
    have blank : ¬ isSpace (ch 'a') = true := by decide
    exact List.dropWhile_cons_of_neg blank
  have full : bareEnd (ch 'a') (List.replicate 1023 (ch 'a')) = some 1024 := by
    rw [bareEnd, if_neg (by decide), if_neg (by decide), if_neg (by decide), if_neg (by decide), blobText_replicate]
  rw [Bool.eq_false_iff, ne_eq, inside, Fits, starts]
  exact fun fits => fits.2 1024 full ⟨0, rfl⟩

end Zcm.Gen.Tokenize
