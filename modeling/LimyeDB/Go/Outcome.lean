/-
  WHAT A GO CALL CAN DO: return a value, return an error, or panic.
-/
import Mathlib

namespace Go

open List

inductive Outcome (ε α : Type) where
  | value (a : α) : Outcome ε α
  | error (e : ε) : Outcome ε α
  | panic : Outcome ε α
  deriving DecidableEq, Repr

namespace Outcome

variable {ε ε' α β : Type}

/-- `if err != nil { return err }` after every step; a panic passes through. -/
def bind : Outcome ε α → (α → Outcome ε β) → Outcome ε β
  | .value a, f => f a
  | .error e, _ => .error e
  | .panic, _ => .panic

instance : Monad (Outcome ε) where
  pure := .value
  bind := Outcome.bind

@[simp] theorem pure_eq (a : α) : (pure a : Outcome ε α) = .value a := rfl

@[simp] theorem value_bind (a : α) (f : α → Outcome ε β) : (Outcome.value a >>= f) = f a := rfl

@[simp] theorem error_bind (e : ε) (f : α → Outcome ε β) : (Outcome.error e >>= f) = .error e := rfl

@[simp] theorem panic_bind (f : α → Outcome ε β) :
    ((Outcome.panic : Outcome ε α) >>= f) = .panic := rfl

instance : LawfulMonad (Outcome ε) :=
  LawfulMonad.mk' (Outcome ε) (by intro α x; cases x <;> rfl) (fun _ _ => rfl)
    (by intro α β γ x f g; cases x <;> rfl)

variable {x : Outcome ε α} {f : α → Outcome ε β}

theorem bind_eq_value {b : β} :
    (x >>= f) = .value b ↔ ∃ a, x = .value a ∧ f a = .value b := by
  cases x with
  | value a => simp
  | error e => simp
  | panic => simp

theorem bind_ne_panic :
    (x >>= f) ≠ .panic ↔ x ≠ .panic ∧ ∀ a, x = .value a → f a ≠ .panic := by
  cases x with
  | value a => simp
  | error e => simp
  | panic => simp

theorem mapM_value {g : α → β} {l : List α}
    (h : ∀ x ∈ l, f x = .value (g x)) : l.mapM f = .value (l.map g) := by
  induction l with
  | nil => rfl
  | cons x l ih =>
    rw [mapM_cons, h x mem_cons_self, ih fun y hy => h y (mem_cons_of_mem x hy)]
    rfl

theorem mem_of_mapM {l : List α} {l' : List β} (h : l.mapM f = .value l')
    {b : β} (hb : b ∈ l') : ∃ a ∈ l, f a = .value b := by
  induction l generalizing l' with
  | nil =>
    cases h
    cases hb
  | cons x l ih =>
    rw [mapM_cons] at h
    obtain ⟨b₀, hx, h⟩ := bind_eq_value.mp h
    obtain ⟨bs, hl, h⟩ := bind_eq_value.mp h
    cases h
    rcases mem_cons.mp hb with rfl | hb
    · exact ⟨x, mem_cons_self, hx⟩
    · obtain ⟨a, ha, hf⟩ := ih hl hb
      exact ⟨a, mem_cons_of_mem x ha, hf⟩

def mapError (g : ε → ε') : Outcome ε α → Outcome ε' α
  | .value a => .value a
  | .error e => .error (g e)
  | .panic => .panic

@[simp] theorem mapError_value (g : ε → ε') (a : α) : (Outcome.value a).mapError g = .value a := rfl

@[simp] theorem mapError_error (g : ε → ε') (e : ε) :
    (Outcome.error e : Outcome ε α).mapError g = .error (g e) := rfl

theorem mapError_eq_value {g : ε → ε'} {a : α}
    (h : x.mapError g = .value a) : x = .value a := by
  cases x with
  | value b =>
    cases h
    rfl
  | error e => cases h
  | panic => cases h

end Outcome

end Go
