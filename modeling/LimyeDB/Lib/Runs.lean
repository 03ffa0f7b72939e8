/-
  RUNS OF A LABELLED MACHINE whose actions may be disabled, over any states and labels.
-/
import Mathlib

namespace LimyeDB.Lib.Runs

open List

variable {σ ℓ : Type} {step : σ → ℓ → Option σ}

def run (step : σ → ℓ → Option σ) : σ → List ℓ → Option σ
  | s, [] => some s
  | s, l :: ls => (step s l).bind fun s => run step s ls

variable {s t : σ} {ls : List ℓ} {P : σ → ℓ → Prop} {I : σ → Prop} {Q : ℓ → Prop}

theorem run_cons {l : ℓ} :
    run step s (l :: ls) = some t ↔ ∃ s', step s l = some s' ∧ run step s' ls = some t :=
  Option.bind_eq_some_iff

theorem run_append {ls' : List ℓ} :
    run step s (ls ++ ls') = some t ↔ ∃ s', run step s ls = some s' ∧ run step s' ls' = some t := by
  induction ls generalizing s with
  | nil => simp [run]
  | cons l ls ih =>
    simp only [cons_append, run_cons, ih]
    constructor
    · rintro ⟨s₁, h₁, s₂, h₂, h₃⟩
      exact ⟨s₂, ⟨s₁, h₁, h₂⟩, h₃⟩
    · rintro ⟨s₂, ⟨s₁, h₁, h₂⟩, h₃⟩
      exact ⟨s₁, h₁, s₂, h₂, h₃⟩

/-- **A run that is evaluated**: `V` is what the evaluation shows of its two ends. -/
theorem exists_view {ε : Type} {x : Except ε σ} {f : σ → Option σ} (V : σ → σ → Prop)
    [∀ s t, Decidable (V s t)] {R : σ → σ → Prop}
    (hview : x.toOption.any (fun s => (f s).any fun t => decide (V s t)) = true)
    (hR : ∀ s t, x = .ok s → f s = some t → V s t → R s t) : ∃ s t, x = .ok s ∧ f s = some t ∧ R s t := by
  cases x with
  | error e => cases hview
  | ok s =>
    have hend : (f s).any (fun t => decide (V s t)) = true := hview
    obtain ⟨t, ht, hV⟩ := (Option.any_eq_true ..).mp hend
    exact ⟨s, t, rfl, ht, hR s t rfl ht (of_decide_eq_true hV)⟩

theorem exists_view_next {ε : Type} {x : Except ε σ} {f : σ → Option σ} (V : σ → σ → Prop)
    [∀ s t, Decidable (V s t)] {R : σ → σ → σ → Prop}
    (hview : x.toOption.any (fun s => (f s).any fun t => decide (V s t)) = true)
    (hR : ∀ s t, x = .ok s → f s = some t → V s t → ∃ u, R s t u) :
    ∃ s t u, x = .ok s ∧ f s = some t ∧ R s t u := by
  obtain ⟨s, t, hs, ht, u, hu⟩ := exists_view V hview hR
  exact ⟨s, t, u, hs, ht, hu⟩

/-- The condition `P` on an action and the state it is taken in holds all along the run. -/
def Along (step : σ → ℓ → Option σ) (P : σ → ℓ → Prop) : σ → List ℓ → Prop
  | _, [] => True
  | s, l :: ls => P s l ∧ ∀ s', step s l = some s' → Along step P s' ls

instance decidableAlong {P : σ → ℓ → Prop} [∀ s l, Decidable (P s l)] :
    ∀ s ls, Decidable (Along step P s ls)
  | _, [] => isTrue trivial
  | s, l :: ls =>
    match h : step s l with
    | none => decidable_of_iff (P s l) (by simp [Along, h])
    | some s' =>
      have := decidableAlong (P := P) s' ls
      decidable_of_iff (P s l ∧ Along step P s' ls) (by simp [Along, h])

/-- **What every action keeps that meets the condition, every run keeps that does.** -/
theorem run_along (hstep : ∀ s l s', I s → P s l → step s l = some s' → I s') (hs : I s)
    (hP : Along step P s ls) (h : run step s ls = some t) : I t := by
  induction ls generalizing s with
  | nil =>
    cases h
    exact hs
  | cons l ls ih =>
    obtain ⟨s', hs', h⟩ := run_cons.mp h
    exact ih (hstep s l s' hs hP.1 hs') (hP.2 s' hs') h

/-- **Where the invariant and the condition enable every action, the run goes to its end.** -/
theorem run_total (hstep : ∀ s l, I s → P s l → ∃ s', step s l = some s' ∧ I s') (hs : I s)
    (hP : Along step P s ls) : ∃ t, run step s ls = some t ∧ I t := by
  induction ls generalizing s with
  | nil => exact ⟨s, rfl, hs⟩
  | cons l ls ih =>
    obtain ⟨s', hs', hI⟩ := hstep s l hs hP.1
    obtain ⟨t, ht, hIt⟩ := ih hI (hP.2 s' hs')
    exact ⟨t, run_cons.mpr ⟨s', hs', ht⟩, hIt⟩

theorem along_and (hP : Along step P s ls) (hQ : ∀ l ∈ ls, Q l) :
    Along step (fun s l => P s l ∧ Q l) s ls := by
  induction ls generalizing s with
  | nil => trivial
  | cons l ls ih =>
    refine ⟨⟨hP.1, hQ l mem_cons_self⟩, fun s' hs' => ?_⟩
    exact ih (hP.2 s' hs') fun l' hl' => hQ l' (mem_cons_of_mem _ hl')

theorem Along.mono {Q : σ → ℓ → Prop} (hPQ : ∀ s l, P s l → Q s l) (hP : Along step P s ls) :
    Along step Q s ls := by
  induction ls generalizing s with
  | nil => trivial
  | cons l ls ih => exact ⟨hPQ s l hP.1, fun s' hs' => ih (hP.2 s' hs')⟩

/-- From one condition along the run to another, with an invariant. -/
theorem along_along {Q : σ → ℓ → Prop}
    (hstep : ∀ s l s', I s → P s l → step s l = some s' → Q s l ∧ I s') (hs : I s)
    (hP : Along step P s ls) (h : run step s ls = some t) : Along step Q s ls := by
  induction ls generalizing s with
  | nil => trivial
  | cons l ls ih =>
    obtain ⟨s', hs', h⟩ := run_cons.mp h
    obtain ⟨hQ, hI⟩ := hstep s l s' hs hP.1 hs'
    refine ⟨hQ, fun s'' hs'' => ?_⟩
    rw [hs'] at hs''
    cases hs''
    exact ih hI (hP.2 s' hs') h

theorem along_of_forall (hP : ∀ s l, P s l) (s : σ) (ls : List ℓ) : Along step P s ls := by
  induction ls generalizing s with
  | nil => trivial
  | cons l ls ih => exact ⟨hP s l, fun s' _ => ih s'⟩

section

variable (hstep : ∀ s l s', I s → step s l = some s' → I s')
include hstep

/-- A condition that the invariant and the action alone give holds all along. -/
theorem along_of_inv
    (hP : ∀ s l, I s → Q l → P s l) (hs : I s) (hQ : ∀ l ∈ ls, Q l) : Along step P s ls := by
  induction ls generalizing s with
  | nil => trivial
  | cons l ls ih =>
    refine ⟨hP s l hs (hQ l mem_cons_self), fun s' hs' => ?_⟩
    exact ih (hstep s l s' hs hs') fun l' hl' => hQ l' (mem_cons_of_mem _ hl')

theorem run_induct (hs : I s) (h : run step s ls = some t) : I t :=
  run_along (fun s l s' hI _ => hstep s l s' hI) hs (along_of_forall (fun _ _ => trivial) s ls) h

end

/-- **Where no invariant state hides a step against the condition, the property at every prefix of a run is
    the condition along the run.** `I` and `F` may speak of the past. -/
theorem run_exact {I F : List ℓ → σ → Prop} (htotal : ∀ s l, ∃ s', step s l = some s')
    (hgood : ∀ past s, I past s → F past s)
    (hstep : ∀ past s l s', I past s → Q l → P s l → step s l = some s' → I (past ++ [l]) s')
    (hbad : ∀ past s l s', I past s → Q l → ¬ P s l → step s l = some s' → ¬ F (past ++ [l]) s')
    (past : List ℓ) (hQ : ∀ l ∈ ls, Q l) (hs : I past s) :
    (∀ before, before <+: ls → ∀ t, run step s before = some t → F (past ++ before) t) ↔
      Along step P s ls := by
  induction ls generalizing past s with
  | nil =>
    refine ⟨fun _ => trivial, fun _ before hbefore t ht => ?_⟩
    obtain rfl := prefix_nil.mp hbefore
    cases ht
    rw [append_nil]
    exact hgood past s hs
  | cons l ls ih =>
    have hQl : Q l := hQ l mem_cons_self
    have hQls : ∀ l' ∈ ls, Q l' := fun l' hl' => hQ l' (mem_cons_of_mem l hl')
    constructor
    · intro hF
      have hP : P s l := by
        by_contra hnot
        obtain ⟨s', hs'⟩ := htotal s l
        refine hbad past s l s' hs hQl hnot hs' (hF [l] ⟨ls, rfl⟩ s' ?_)
        exact run_cons.mpr ⟨s', hs', rfl⟩
      refine ⟨hP, fun s' hs' => (ih _ hQls (hstep past s l s' hs hQl hP hs')).mp ?_⟩
      intro before hbefore t ht
      rw [append_assoc]
      refine hF (l :: before) ?_ t (run_cons.mpr ⟨s', hs', ht⟩)
      exact cons_prefix_cons.mpr ⟨rfl, hbefore⟩
    · intro halong before hbefore t ht
      cases before with
      | nil =>
        cases ht
        rw [append_nil]
        exact hgood past s hs
      | cons l' before =>
        obtain ⟨rfl, htail⟩ := cons_prefix_cons.mp hbefore
        obtain ⟨s', hs', ht⟩ := run_cons.mp ht
        have hI := hstep past s l' s' hs hQl halong.1 hs'
        have hF := (ih _ hQls hI).mpr (halong.2 s' hs') before htail t ht
        rwa [append_assoc] at hF

end LimyeDB.Lib.Runs
