/-
  PATTERNS WITH WILDCARDS, as SQL's LIKE has them: `%` for any text, `_` for one character. Over any equality
  of characters.
-/
import Mathlib

namespace LimyeDB.Lib.Like

open List

inductive Token where
  | any
  | one
  | lit (c : Char)
  deriving DecidableEq, Repr

def matchTokens (eq : Char → Char → Bool) : List Token → List Char → Bool
  | [], s => s.isEmpty
  | .any :: ts, s => s.tails.any fun t => matchTokens eq ts t
  | .one :: _, [] => false
  | .one :: ts, _ :: s => matchTokens eq ts s
  | .lit _ :: _, [] => false
  | .lit c :: ts, d :: s => eq c d && matchTokens eq ts s

def parseEscaped : List Char → List Token
  | [] => []
  | '\\' :: c :: cs => .lit c :: parseEscaped cs
  | '%' :: cs => .any :: parseEscaped cs
  | '_' :: cs => .one :: parseEscaped cs
  | c :: cs => .lit c :: parseEscaped cs

def replaceAll (c : Char) (new : List Char) (s : List Char) : List Char :=
  s.flatMap fun d => if d = c then new else [d]

def escape (s : List Char) : List Char :=
  replaceAll '_' ['\\', '_'] (replaceAll '%' ['\\', '%'] (replaceAll '\\' ['\\', '\\'] s))

theorem escape_cons (c : Char) (s : List Char) : escape (c :: s) =
    (if c = '\\' ∨ c = '%' ∨ c = '_' then ['\\', c] else [c]) ++ escape s := by
  by_cases hback : c = '\\'
  · subst hback
    simp [escape, replaceAll]
  · by_cases hpercent : c = '%'
    · subst hpercent
      simp [escape, replaceAll]
    · by_cases hunder : c = '_'
      · subst hunder
        simp [escape, replaceAll]
      · simp [escape, replaceAll, hback, hpercent, hunder]

/-- **What is escaped stands for itself**, also before more of the pattern. -/
theorem parseEscaped_escape (s rest : List Char) :
    parseEscaped (escape s ++ rest) = s.map .lit ++ parseEscaped rest := by
  induction s with
  | nil => rfl
  | cons c s ih =>
    rw [escape_cons]
    split_ifs with hspecial
    · simp [parseEscaped, ih]
    · obtain ⟨hback, hpercent, hunder⟩ : c ≠ '\\' ∧ c ≠ '%' ∧ c ≠ '_' := by
        simpa [not_or] using hspecial
      simp only [cons_append, nil_append, map_cons]
      rw [parseEscaped, ih]
      all_goals simp_all

section Match

variable {eq : Char → Char → Bool}

theorem matchTokens_any (ts : List Token) (s : List Char) :
    matchTokens eq (.any :: ts) s = true ↔ ∃ t, t <:+ s ∧ matchTokens eq ts t = true := by
  simp [matchTokens, any_eq_true]

theorem matchTokens_lits (t : List Char) (ts : List Token) (s : List Char) :
    matchTokens eq (t.map .lit ++ ts) s = true ↔
      ∃ s₁ s₂, s = s₁ ++ s₂ ∧ List.Forall₂ (fun c d => eq c d = true) t s₁ ∧
        matchTokens eq ts s₂ = true := by
  induction t generalizing s with
  | nil =>
    constructor
    · intro h
      exact ⟨[], s, rfl, .nil, h⟩
    · intro ⟨s₁, s₂, hs, hforall, h⟩
      cases hforall
      rw [hs]
      exact h
  | cons c t ih =>
    cases s with
    | nil =>
      constructor
      · intro h
        cases h
      · intro ⟨s₁, s₂, hs, hforall, _⟩
        cases hforall
        cases hs
    | cons d s =>
      simp only [map_cons, cons_append, matchTokens, Bool.and_eq_true, ih]
      constructor
      · intro ⟨heq, s₁, s₂, hs, hforall, h⟩
        exact ⟨d :: s₁, s₂, by rw [hs]; rfl, .cons heq hforall, h⟩
      · intro ⟨s₁, s₂, hs, hforall, h⟩
        cases hforall with
        | cons heq hforall =>
          cases hs
          exact ⟨heq, _, _, rfl, hforall, h⟩

theorem matchTokens_rest (s : List Char) : matchTokens eq [.any] s = true :=
  (matchTokens_any [] s).mpr ⟨[], nil_suffix, rfl⟩

theorem matchTokens_nil (s : List Char) : matchTokens eq [] s = true ↔ s = [] := by
  simp [matchTokens]

end Match

/-! Characters are equal if a folding makes them equal. -/

section Fold

variable {f : Char → Char} {t s : List Char}

theorem forall₂_fold :
    List.Forall₂ (fun c d => (f c == f d) = true) t s ↔ t.map f = s.map f := by
  simp only [beq_iff_eq]
  rw [← forall₂_eq_eq_eq, forall₂_map_left_iff, forall₂_map_right_iff]

theorem matches_starts :
    matchTokens (fun c d => f c == f d) (t.map .lit ++ [.any]) s = true ↔ t.map f <+: s.map f := by
  rw [matchTokens_lits]
  simp only [matchTokens_rest, and_true, forall₂_fold]
  constructor
  · intro ⟨s₁, s₂, hs, ht⟩
    rw [hs, ht, map_append]
    exact prefix_append _ _
  · intro ⟨s', hs'⟩
    obtain ⟨s₁, s₂, hs, h₁, _⟩ := map_eq_append_iff.mp hs'.symm
    exact ⟨s₁, s₂, hs, h₁.symm⟩

theorem matches_ends :
    matchTokens (fun c d => f c == f d) (.any :: t.map .lit) s = true ↔ t.map f <:+ s.map f := by
  rw [matchTokens_any]
  constructor
  · intro ⟨s', ⟨s₀, hs⟩, h⟩
    rw [← append_nil (t.map Token.lit), matchTokens_lits] at h
    obtain ⟨s₁, s₂, hs', hforall, hnil⟩ := h
    rw [matchTokens_nil] at hnil
    rw [forall₂_fold] at hforall
    rw [← hs, hs', hnil, append_nil, map_append, hforall]
    exact suffix_append _ _
  · intro ⟨s', hs'⟩
    obtain ⟨s₀, s₁, hs, _, h₁⟩ := map_eq_append_iff.mp hs'.symm
    refine ⟨s₁, ⟨s₀, hs.symm⟩, ?_⟩
    rw [← append_nil (t.map Token.lit), matchTokens_lits]
    exact ⟨s₁, [], (append_nil s₁).symm, forall₂_fold.mpr h₁.symm, rfl⟩

theorem matches_contains :
    matchTokens (fun c d => f c == f d) (.any :: (t.map .lit ++ [.any])) s = true ↔
      t.map f <:+: s.map f := by
  rw [matchTokens_any]
  simp only [matches_starts]
  constructor
  · intro ⟨s', ⟨s₀, hs⟩, ⟨s₂, hs₂⟩⟩
    exact ⟨s₀.map f, s₂, by rw [append_assoc, hs₂, ← map_append, hs]⟩
  · intro ⟨u, v, huv⟩
    rw [append_assoc] at huv
    obtain ⟨s₀, s₁, hs, _, h₁⟩ := map_eq_append_iff.mp huv.symm
    exact ⟨s₁, ⟨s₀, hs.symm⟩, v, h₁.symm⟩

end Fold

end LimyeDB.Lib.Like
