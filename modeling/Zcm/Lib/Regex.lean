import Zcm.Lib.Bytes

namespace Zcm.Lib.Regex

def isWordChar (c : Byte) : Bool :=
  0x61 ≤ c.toNat && c.toNat ≤ 0x7a || 0x41 ≤ c.toNat && c.toNat ≤ 0x5a ||
    0x30 ≤ c.toNat && c.toNat ≤ 0x39 || c = 0x5f

def isLineTerminator (c : Byte) : Bool := c = 0x0a || c = 0x0d

inductive Atom
  | char (c : Byte)
  | dot
deriving DecidableEq

namespace Atom

def text : Atom → Byte
  | char c => c
  | dot => 0x2e

def accepts : Atom → Byte → Bool
  | char c, x => x = c
  | dot, x => !isLineTerminator x

def IsSimple : Atom → Prop
  | char c => isWordChar c = true
  | dot => True

end Atom

structure Term where
  atom : Atom
  star : Bool
deriving DecidableEq

def Term.text (t : Term) : List Byte := if t.star then [t.atom.text, 0x2a] else [t.atom.text]

def starMatches (a : Atom) (rest : List Byte → Bool) : List Byte → Bool
  | [] => rest []
  | x :: xs => rest (x :: xs) || a.accepts x && starMatches a rest xs

def termMatches (a : Atom) (rest : List Byte → Bool) : List Byte → Bool
  | [] => false
  | x :: xs => a.accepts x && rest xs

def wholeMatch : List Term → List Byte → Bool
  | [] => List.isEmpty
  | t :: ts => if t.star then starMatches t.atom (wholeMatch ts) else termMatches t.atom (wholeMatch ts)

def IsEcmaScript (regexMatch : CString → CString → Bool) : Prop :=
  ∀ (terms : List Term) (pattern subject : CString), (∀ t ∈ terms, t.atom.IsSimple) →
    pattern.chars = terms.flatMap Term.text → regexMatch pattern subject = wholeMatch terms subject.chars

theorem starMatches_dot_isEmpty (xs : List Byte) :
    starMatches .dot List.isEmpty xs = true ↔ ∀ x ∈ xs, isLineTerminator x = false := by
  induction xs with
  | nil => simp [starMatches]
  | cons x xs ih => simp [starMatches, Atom.accepts, ih]

def literals (cs : List Byte) : List Term := cs.map fun c => ⟨.char c, false⟩

theorem wholeMatch_literals_append (cs : List Byte) (ts : List Term) (xs : List Byte) :
    wholeMatch (literals cs ++ ts) xs = true ↔ ∃ rest, xs = cs ++ rest ∧ wholeMatch ts rest = true := by
  induction cs generalizing xs with
  | nil => simp [literals]
  | cons c cs ih =>
      cases xs with
      | nil => simp [literals, wholeMatch, termMatches]
      | cons x xs =>
          have later := ih xs
          unfold literals at later
          simp only [literals, List.map_cons, List.cons_append, wholeMatch, Bool.false_eq_true, if_false, termMatches,
            Atom.accepts, Bool.and_eq_true, decide_eq_true_eq, later, List.cons.injEq]
          constructor
          · rintro ⟨rfl, rest, rfl, matched⟩
            exact ⟨rest, ⟨rfl, rfl⟩, matched⟩
          · rintro ⟨rest, ⟨rfl, rfl⟩, matched⟩
            exact ⟨rfl, rest, rfl, matched⟩

theorem wholeMatch_prefix (cs xs : List Byte) : wholeMatch (literals cs ++ [⟨.dot, true⟩]) xs = true ↔
    ∃ rest, xs = cs ++ rest ∧ ∀ x ∈ rest, isLineTerminator x = false := by
  rw [wholeMatch_literals_append]
  simp only [wholeMatch, if_true, starMatches_dot_isEmpty]

theorem literals_text (cs : List Byte) : (literals cs).flatMap Term.text = cs := by
  induction cs with
  | nil => rfl
  | cons c cs ih =>
      unfold literals at ih
      simp [literals, Term.text, Atom.text, ih]

section Parse

def parseAtom (c : Byte) : Option Atom :=
  if c = 0x2e then some .dot else if isWordChar c then some (.char c) else none

def parse : List Byte → Option (List Term)
  | [] => some []
  | [c] => (parseAtom c).map fun a => [⟨a, false⟩]
  | c :: d :: rest =>
      if d = 0x2a then (parseAtom c).bind fun a => (parse rest).map (⟨a, true⟩ :: ·)
      else (parseAtom c).bind fun a => (parse (d :: rest)).map (⟨a, false⟩ :: ·)

def regexMatch (pattern subject : CString) : Bool :=
  (parse pattern.chars).any fun terms => wholeMatch terms subject.chars

theorem parseAtom_text {a : Atom} (simple : a.IsSimple) : parseAtom a.text = some a := by
  cases a with
  | dot => rfl
  | char c =>
      have word : isWordChar c = true := simple
      have notDot : c ≠ 0x2e := by
        rintro rfl
        cases word
      rw [Atom.text, parseAtom, if_neg notDot, if_pos word]

theorem text_ne_star {a : Atom} (simple : a.IsSimple) : a.text ≠ 0x2a := by
  cases a with
  | dot => decide
  | char c =>
      rintro rfl
      cases simple

theorem parse_text {terms : List Term} (simple : ∀ t ∈ terms, t.atom.IsSimple) :
    parse (terms.flatMap Term.text) = some terms := by
  induction terms with
  | nil => rfl
  | cons t ts ih =>
      have rest := ih fun t' member => simple t' (by simp [member])
      have atom := parseAtom_text (simple t (by simp))
      obtain ⟨a, star⟩ := t
      dsimp only at atom
      cases star with
      | true => simp [Term.text, parse, atom, rest]
      | false =>
          cases ts with
          | nil => simp [Term.text, parse, atom]
          | cons u us =>
              have next : u.atom.text ≠ 0x2a := text_ne_star (simple u (by simp))
              have starts : ∃ tail, (u :: us).flatMap Term.text = u.atom.text :: tail := by
                cases u with
                | mk b star => cases star <;> exact ⟨_, rfl⟩
              obtain ⟨tail, starts⟩ := starts
              rw [starts] at rest
              rw [List.flatMap_cons, starts]
              simp only [Term.text, Bool.false_eq_true, if_false, List.cons_append, List.nil_append, parse,
                if_neg next, atom, rest, Option.bind_some, Option.map_some]

theorem regexMatch_isEcmaScript : IsEcmaScript regexMatch := by
  intro terms pattern subject simple text
  rw [regexMatch, text, parse_text simple]
  rfl

end Parse
end Zcm.Lib.Regex
