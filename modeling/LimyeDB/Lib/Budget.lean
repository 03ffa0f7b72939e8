/-
  A BUDGET THAT REFILLS WITH TIME, over any machine whose actions have times.
-/
import Mathlib

namespace LimyeDB.Lib.Budget

open List

variable {σ ℓ : Type}

def trace (step : σ → ℓ → σ) : σ → List ℓ → List (σ × ℓ)
  | _, [] => []
  | s, l :: ls => (s, l) :: trace step (step s l) ls

/-- The times `time` of the actions do not fall, from `t` on. -/
def Timed (time : ℓ → ℚ) (t : ℚ) (ls : List ℓ) : Prop := (t :: ls.map time).Pairwise (· ≤ ·)

theorem timed_cons {time : ℓ → ℚ} {t : ℚ} {l : ℓ} {ls : List ℓ} (h : Timed time t (l :: ls)) :
    t ≤ time l ∧ Timed time (time l) ls := by
  rw [Timed, map_cons, pairwise_cons] at h
  exact ⟨h.1 _ mem_cons_self, h.2⟩

/-- What holds of a state at a time, kept by every action and as time goes on, holds along a run. -/
theorem timed_induct {step : σ → ℓ → σ} {time : ℓ → ℚ} {I : σ → ℚ → Prop}
    (hlater : ∀ s t t', I s t → t ≤ t' → I s t') (hstep : ∀ s l, I s (time l) → I (step s l) (time l))
    {ls : List ℓ} {s : σ} {t : ℚ} (htimed : Timed time t ls) (hs : I s t) :
    ∀ x ∈ trace step s ls, I x.1 (time x.2) := by
  induction ls generalizing s t with
  | nil => exact forall_mem_nil _
  | cons l ls ih =>
    obtain ⟨hle, htimed⟩ := timed_cons htimed
    have hI : I s (time l) := hlater s t (time l) hs hle
    exact forall_mem_cons.mpr ⟨hI, ih htimed (hstep s l hI)⟩

/-- **What one action does to the level.** `I` is an invariant of the states and the time. -/
structure Refills (step : σ → ℓ → σ) (time : ℓ → ℚ) (rate cap : ℚ) (I : σ → ℚ → Prop)
    (level : σ → ℚ → ℚ) (spends grants : σ → ℓ → Bool) : Prop where
  later   : ∀ s t t', I s t → t ≤ t' → I s t'
  kept    : ∀ s l, I s (time l) → I (step s l) (time l)
  nonneg  : ∀ s t, I s t → 0 ≤ level s t
  bounded : ∀ s t, I s t → level s t ≤ cap
  fills   : ∀ s t t', I s t → t ≤ t' → level s t' ≤ level s t + rate * (t' - t)
  pays    : ∀ s l, I s (time l) → level (step s l) (time l) + (if spends s l then 1 else 0) ≤
    level s (time l) + if grants s l then cap else 0

/-- The number of actions in the window from `a` to `b` that meet `p`. -/
def countIn (time : ℓ → ℚ) (a b : ℚ) (p : σ → ℓ → Bool) (l : List (σ × ℓ)) : ℕ :=
  l.countP fun x => decide (a ≤ time x.2 ∧ time x.2 ≤ b) && p x.1 x.2

section Window

variable {step : σ → ℓ → σ} {time : ℓ → ℚ} {rate cap : ℚ} {I : σ → ℚ → Prop} {level : σ → ℚ → ℚ}
  {spends grants p : σ → ℓ → Bool} {a b : ℚ}

theorem countIn_cons (x : σ × ℓ) (l : List (σ × ℓ)) : countIn time a b p (x :: l) =
      countIn time a b p l + if (a ≤ time x.2 ∧ time x.2 ≤ b) ∧ p x.1 x.2 then 1 else 0 := by
  simp [countIn, countP_cons]

variable {t : ℚ} {ls : List ℓ} {s : σ}

theorem countIn_after (htimed : Timed time t ls) (hb : b < t) :
    countIn time a b p (trace step s ls) = 0 := by
  have hafter : ∀ x ∈ trace step s ls, b < time x.2 :=
    timed_induct (fun _ _ _ hlt hle => lt_of_lt_of_le hlt hle)
      (fun _ _ hlt => hlt) htimed hb
  refine countP_eq_zero.mpr fun x hx => ?_
  have hlt := hafter x hx
  simp [not_le.mpr hlt]

theorem timed_self {l : ℓ} (htimed : Timed time t (l :: ls)) : Timed time (time l) (l :: ls) := by
  have htimed' := (timed_cons htimed).2
  refine pairwise_cons.mpr ⟨fun t' ht' => ?_, htimed'⟩
  rcases mem_cons.mp ht' with rfl | ht'
  · exact le_refl _
  · exact rel_of_pairwise_cons htimed' ht'

variable (hrate : 0 ≤ rate) (hcap : 0 ≤ cap)
include hrate hcap

theorem unspent_le {x : ℚ} {n k : ℕ} (hx : 0 ≤ x) (ht : t ≤ b) (hn : n = 0) :
    (n : ℚ) ≤ x + rate * (b - t) + cap * k := by
  have hflow : 0 ≤ rate * (b - t) := mul_nonneg hrate (sub_nonneg.mpr ht)
  have hgiven : 0 ≤ cap * k := mul_nonneg hcap (Nat.cast_nonneg k)
  rw [hn, Nat.cast_zero]
  linarith

variable (hB : Refills step time rate cap I level spends grants)
include hB

/-- **From a moment in the window on**, what is spent comes out of the level, what flows in, and the grants.
    -/
theorem Refills.inside (htimed : Timed time t ls) (hs : I s t) (ha : a ≤ t)
    (hb : t ≤ b) : (countIn time a b spends (trace step s ls) : ℚ) ≤
      level s t + rate * (b - t) + cap * countIn time a b grants (trace step s ls) := by
  induction ls generalizing s t with
  | nil => exact unspent_le hrate hcap (hB.nonneg s t hs) hb rfl
  | cons l ls ih =>
    obtain ⟨hle, htimed'⟩ := timed_cons htimed
    have hI : I s (time l) := hB.later s t (time l) hs hle
    have hal : a ≤ time l := le_trans ha hle
    by_cases hbl : time l ≤ b
    · have hrest := ih htimed' (hB.kept s l hI) hal hbl
      have hpays := hB.pays s l hI
      have hfills := hB.fills s t (time l) hs hle
      simp only [trace, countIn_cons, hal, hbl, true_and]
      push_cast
      have hspread : cap * ((countIn time a b grants (trace step (step s l) ls) : ℚ) +
          if grants s l = true then 1 else 0) =
          cap * countIn time a b grants (trace step (step s l) ls) +
            if grants s l = true then cap else 0 := by
        rw [mul_add, mul_ite, mul_one, mul_zero]
      have hsplit : rate * (b - t) = rate * (time l - t) + rate * (b - time l) := by ring
      linarith
    · refine unspent_le hrate hcap (hB.nonneg s t hs) hb ?_
      exact countIn_after (timed_self htimed) (not_le.mp hbl)

/-- **In every window so many actions spend at most**: a full level, what flows in, and a full level for each
    grant. -/
theorem Refills.window (htimed : Timed time t ls) (hs : I s t) (hab : a ≤ b) :
    (countIn time a b spends (trace step s ls) : ℚ) ≤
      cap + rate * (b - a) + cap * countIn time a b grants (trace step s ls) := by
  induction ls generalizing s t with
  | nil => exact unspent_le hrate hcap hcap hab rfl
  | cons l ls ih =>
    obtain ⟨hle, htimed'⟩ := timed_cons htimed
    have hI : I s (time l) := hB.later s t (time l) hs hle
    by_cases hal : a ≤ time l
    · by_cases hbl : time l ≤ b
      · -- The first action in the window: from here on the bound is that of `inside`.
        have hinside := hB.inside hrate hcap (timed_self htimed) hI hal hbl
        have hbounded := hB.bounded s (time l) hI
        have hflow : rate * (b - time l) ≤ rate * (b - a) :=
          mul_le_mul_of_nonneg_left (sub_le_sub_left hal b) hrate
        linarith
      · refine unspent_le hrate hcap hcap hab ?_
        exact countIn_after (timed_self htimed) (not_le.mp hbl)
    · have hrest := ih htimed' (hB.kept s l hI)
      simp only [trace, countIn_cons, hal, false_and, if_false, add_zero]
      exact hrest

end Window

end LimyeDB.Lib.Budget
