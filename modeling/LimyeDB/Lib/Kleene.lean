/-
  THREE TRUTH VALUES: true, false and unknown, with the strong connectives, over lists.
-/
import Mathlib

namespace LimyeDB.Lib.Kleene

open List

variable {α : Type}

def neg (x : Option Bool) : Option Bool := x.map not

def conj (xs : List (Option Bool)) : Option Bool :=
  if some false ∈ xs then some false else if none ∈ xs then none else some true

def disj (xs : List (Option Bool)) : Option Bool :=
  if some true ∈ xs then some true else if none ∈ xs then none else some false

@[simp] theorem neg_some (b : Bool) : neg (some b) = some !b := rfl

variable {xs : List (Option Bool)}

theorem conj_eq_true :
    conj xs = some true ↔ some false ∉ xs ∧ none ∉ xs := by
  unfold conj
  split_ifs with hfalse hnone
  · simp [hfalse]
  · simp [hnone]
  · simp [hfalse, hnone]

theorem conj_eq_false : conj xs = some false ↔ some false ∈ xs := by
  unfold conj
  split_ifs with hfalse hnone
  · simp [hfalse]
  · simp [hfalse]
  · simp [hfalse]

theorem disj_eq_true : disj xs = some true ↔ some true ∈ xs := by
  unfold disj
  split_ifs with htrue hnone
  · simp [htrue]
  · simp [htrue]
  · simp [htrue]

theorem disj_eq_false :
    disj xs = some false ↔ some true ∉ xs ∧ none ∉ xs := by
  unfold disj
  split_ifs with htrue hnone
  · simp [htrue]
  · simp [hnone]
  · simp [htrue, hnone]

theorem conj_known {f : α → Option Bool} {g : α → Bool} {l : List α}
    (h : ∀ a ∈ l, f a = some (g a)) : conj (l.map f) = some (l.all g) := by
  cases hall : l.all g with
  | false =>
    obtain ⟨a, ha, hg⟩ := all_eq_false.mp hall
    refine conj_eq_false.mpr (mem_map.mpr ⟨a, ha, ?_⟩)
    rw [h a ha, Bool.eq_false_of_not_eq_true hg]
  | true =>
    refine conj_eq_true.mpr ⟨fun hmem => ?_, fun hmem => ?_⟩
    · obtain ⟨a, ha, hfa⟩ := mem_map.mp hmem
      rw [h a ha, all_eq_true.mp hall a ha] at hfa
      cases hfa
    · obtain ⟨a, ha, hfa⟩ := mem_map.mp hmem
      rw [h a ha] at hfa
      cases hfa

theorem disj_known {f : α → Option Bool} {g : α → Bool} {l : List α}
    (h : ∀ a ∈ l, f a = some (g a)) : disj (l.map f) = some (l.any g) := by
  cases hany : l.any g with
  | true =>
    obtain ⟨a, ha, hg⟩ := any_eq_true.mp hany
    refine disj_eq_true.mpr (mem_map.mpr ⟨a, ha, ?_⟩)
    rw [h a ha, hg]
  | false =>
    refine disj_eq_false.mpr ⟨fun hmem => ?_, fun hmem => ?_⟩
    · obtain ⟨a, ha, hfa⟩ := mem_map.mp hmem
      rw [h a ha, Bool.eq_false_of_not_eq_true (any_eq_false.mp hany a ha)] at hfa
      cases hfa
    · obtain ⟨a, ha, hfa⟩ := mem_map.mp hmem
      rw [h a ha] at hfa
      cases hfa

end LimyeDB.Lib.Kleene
