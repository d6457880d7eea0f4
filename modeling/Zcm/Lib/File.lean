import Zcm.Lib.Bytes

namespace Zcm.Lib

structure File where
  bytes : List Byte
  pos : Nat
deriving DecidableEq

namespace File

variable (f : File)

def fgetc : Option Byte × File :=
  match f.bytes[f.pos]? with
  | none => (none, f)
  | some b => (some b, { f with pos := f.pos + 1 })

def fread (n : Nat) : List Byte × File :=
  let got := (f.bytes.drop f.pos).take n
  (got, { f with pos := f.pos + got.length })

def fseekCur (offset : Int) : File :=
  if 0 ≤ f.pos + offset then { f with pos := (f.pos + offset).toNat } else f

def rest : List Byte := f.bytes.drop f.pos

def skip (n : Nat) : File := { f with pos := f.pos + n }

variable {f}

@[simp] theorem skip_bytes (n : Nat) : (f.skip n).bytes = f.bytes := rfl

@[simp] theorem skip_pos (n : Nat) : (f.skip n).pos = f.pos + n := rfl

@[simp] theorem skip_skip (n k : Nat) : (f.skip n).skip k = f.skip (n + k) := by
  simp [skip, Nat.add_assoc]

theorem skip_rest {xs ys : List Byte} (h : f.rest = xs ++ ys) : (f.skip xs.length).rest = ys := by
  rw [rest, skip_bytes, skip_pos, ← List.drop_drop]
  change f.rest.drop xs.length = ys
  rw [h, List.drop_left]

theorem fgetc_cons {b : Byte} {ys : List Byte} (h : f.rest = b :: ys) : f.fgetc = (some b, f.skip 1) := by
  have there : f.bytes[f.pos]? = some b := by
    have first := congrArg List.head? h
    simpa [rest, List.head?_drop] using first
  rw [fgetc, there]
  rfl

theorem fgetc_nil (h : f.rest = []) : f.fgetc = (none, f) := by
  have there : f.bytes[f.pos]? = none := by
    have first := congrArg List.head? h
    simpa [rest, List.head?_drop] using first
  rw [fgetc, there]

theorem fread_append {xs ys : List Byte} (h : f.rest = xs ++ ys) : f.fread xs.length = (xs, f.skip xs.length) := by
  have got : (f.bytes.drop f.pos).take xs.length = xs := by
    change f.rest.take xs.length = xs
    rw [h, List.take_left]
  simp only [fread, got, skip]

theorem fread_short {n : Nat} (h : f.rest.length < n) : f.fread n = (f.rest, f.skip f.rest.length) := by
  have got : (f.bytes.drop f.pos).take n = f.rest := List.take_of_length_le (Nat.le_of_lt h)
  simp only [fread, got, skip]

theorem fseekCur_back {n : Nat} (le : n ≤ f.pos) : f.fseekCur (-n) = { f with pos := f.pos - n } := by
  rw [fseekCur, if_pos (by omega)]
  congr 1
  omega

theorem fseekCur_forth (n : Nat) : f.fseekCur n = f.skip n := by
  rw [fseekCur, if_pos (by omega)]
  rfl

end File

abbrev Reader (ε α : Type) := EStateM ε File α

namespace Reader

variable {ε α β : Type} {x : Reader ε α} {g : α → Reader ε β} {f f' : File} {a : α} {e : ε}

theorem bind_ok (h : x f = .ok a f') : (x >>= g) f = g a f' := by
  change EStateM.bind x g f = _
  rw [EStateM.bind, h]

theorem bind_error (h : x f = .error e f') : (x >>= g) f = .error e f' := by
  change EStateM.bind x g f = _
  rw [EStateM.bind, h]

theorem bind_eq_ok {b : β} (h : (x >>= g) f = .ok b f') : ∃ a f₁, x f = .ok a f₁ ∧ g a f₁ = .ok b f' := by
  cases first : x f with
  | ok a f₁ => exact ⟨a, f₁, rfl, (bind_ok first).symm.trans h⟩
  | error e f₁ =>
      rw [bind_error first] at h
      cases h

theorem bind_eq_error (h : (x >>= g) f = .error e f') :
    x f = .error e f' ∨ ∃ a f₁, x f = .ok a f₁ ∧ g a f₁ = .error e f' := by
  cases first : x f with
  | ok a f₁ => exact .inr ⟨a, f₁, rfl, (bind_ok first).symm.trans h⟩
  | error e₁ f₁ =>
      rw [bind_error first] at h
      cases h
      exact .inl rfl

def failIf (c : Prop) [Decidable c] (e : ε) : Reader ε Unit := fun f => if c then .error e f else .ok () f

theorem failIf_of_not {c : Prop} [Decidable c] (h : ¬ c) : failIf c e f = .ok () f := if_neg h

theorem failIf_of {c : Prop} [Decidable c] (h : c) : failIf c e f = .error e f := if_pos h

theorem failIf_ok {c : Prop} [Decidable c] {u : Unit} (h : failIf c e f = .ok u f') : ¬ c ∧ f' = f := by
  by_cases holds : c
  · rw [failIf_of holds] at h
    cases h
  · rw [failIf_of_not holds] at h
    cases h
    exact ⟨holds, rfl⟩

theorem failIf_error {c : Prop} [Decidable c] {e' : ε} (h : failIf c e f = .error e' f') : c ∧ e' = e := by
  by_cases holds : c
  · rw [failIf_of holds] at h
    cases h
    exact ⟨holds, rfl⟩
  · rw [failIf_of_not holds] at h
    cases h

def after (x : Reader ε α) (f : File) : File :=
  match x f with
  | .ok _ f' => f'
  | .error _ f' => f'

def Forward (x : Reader ε α) : Prop := ∀ f, (after x f).bytes = f.bytes ∧ f.pos ≤ (after x f).pos

theorem after_ok (h : x f = .ok a f') : after x f = f' := by rw [after, h]

theorem after_error (h : x f = .error e f') : after x f = f' := by rw [after, h]

theorem Forward.bind (hx : Forward x) (hg : ∀ a, Forward (g a)) : Forward (x >>= g) := by
  intro f
  obtain ⟨bytes, le⟩ := hx f
  cases first : x f with
  | ok a f₁ =>
      obtain ⟨bytes', le'⟩ := hg a f₁
      rw [after_ok first] at bytes le
      have same : after (x >>= g) f = after (g a) f₁ := by rw [after, bind_ok first, after]
      rw [same]
      exact ⟨bytes'.trans bytes, Nat.le_trans le le'⟩
  | error e f₁ =>
      rw [after_error first] at bytes le
      rw [after_error (bind_error first)]
      exact ⟨bytes, le⟩

theorem Forward.pure (a : α) : Forward (pure a : Reader ε α) := fun f => ⟨rfl, Nat.le_refl f.pos⟩

theorem Forward.failIf (c : Prop) [Decidable c] (e : ε) : Forward (Reader.failIf c e) := by
  intro f
  by_cases holds : c
  · rw [after_error (failIf_of holds)]
    exact ⟨rfl, Nat.le_refl f.pos⟩
  · rw [after_ok (failIf_of_not holds)]
    exact ⟨rfl, Nat.le_refl f.pos⟩

end Reader

end Zcm.Lib
