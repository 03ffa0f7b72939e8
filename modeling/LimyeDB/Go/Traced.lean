/-
  A GO CALL THAT NOTES WHAT IT DOES ON THE WAY: an `Outcome` with a trace.
-/
import LimyeDB.Go.Outcome

namespace Go

structure Traced (σ ε α : Type) where
  trace : List σ
  result : Outcome ε α
  deriving DecidableEq, Repr

namespace Traced

variable {σ ε α β : Type}

def bind (x : Traced σ ε α) (f : α → Traced σ ε β) : Traced σ ε β :=
  match x.result with
  | .value a => ⟨x.trace ++ (f a).trace, (f a).result⟩
  | .error e => ⟨x.trace, .error e⟩
  | .panic => ⟨x.trace, .panic⟩

instance : Monad (Traced σ ε) where
  pure a := ⟨[], .value a⟩
  bind := Traced.bind

def lift (x : Outcome ε α) : Traced σ ε α := ⟨[], x⟩

def note (s : σ) : Traced σ ε Unit := ⟨[s], .value ()⟩

@[simp] theorem result_pure (a : α) : (pure a : Traced σ ε α).result = .value a := rfl

@[simp] theorem result_lift (x : Outcome ε α) : (lift x : Traced σ ε α).result = x := rfl

@[simp] theorem result_note (s : σ) : (note s : Traced σ ε Unit).result = .value () := rfl

@[simp] theorem result_bind (x : Traced σ ε α) (f : α → Traced σ ε β) :
    (x >>= f).result = x.result >>= fun a => (f a).result := by
  obtain ⟨t, o⟩ := x
  cases o with
  | value a => rfl
  | error e => rfl
  | panic => rfl

/-! ## Safe calls -/

def Safe (good : σ → Prop) (x : Traced σ ε α) : Prop :=
  x.result ≠ .panic ∧ ∀ s ∈ x.trace, good s

variable {good : σ → Prop}

@[simp] theorem safe_pure (a : α) : (pure a : Traced σ ε α).Safe good :=
  ⟨by simp, fun _ hs => nomatch hs⟩

@[simp] theorem safe_lift (x : Outcome ε α) : (lift x : Traced σ ε α).Safe good ↔ x ≠ .panic :=
  ⟨fun h => h.1, fun h => ⟨h, fun _ hs => nomatch hs⟩⟩

@[simp] theorem safe_note (s : σ) : (note s : Traced σ ε Unit).Safe good ↔ good s := by
  simp [Safe, note]

theorem safe_bind {x : Traced σ ε α} {f : α → Traced σ ε β} :
    (x >>= f).Safe good ↔ x.Safe good ∧ ∀ a, x.result = .value a → (f a).Safe good := by
  obtain ⟨t, o⟩ := x
  cases o with
  | value a =>
    have hbind : ((⟨t, .value a⟩ : Traced σ ε α) >>= f) = ⟨t ++ (f a).trace, (f a).result⟩ := rfl
    rw [hbind]
    simp only [Safe, List.mem_append, Outcome.value.injEq, forall_eq', ne_eq, reduceCtorEq,
      not_false_eq_true, true_and]
    constructor
    · intro h
      exact ⟨fun s hs => h.2 s (.inl hs), h.1, fun s hs => h.2 s (.inr hs)⟩
    · intro h
      exact ⟨h.2.1, fun s hs => hs.elim (h.1 s) (h.2.2 s)⟩
  | error e =>
    have hbind : ((⟨t, .error e⟩ : Traced σ ε α) >>= f) = ⟨t, .error e⟩ := rfl
    rw [hbind]
    simp [Safe]
  | panic =>
    have hbind : ((⟨t, .panic⟩ : Traced σ ε α) >>= f) = ⟨t, .panic⟩ := rfl
    simp [Safe]

end Traced

end Go
