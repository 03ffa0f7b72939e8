/-
  FACETS (pkg/collection/facets.go): what is counted of a payload field, by ranges of its numbers. A filter is
  what it says of a payload.
-/
import LimyeDB.Payload.Filter

namespace LimyeDB.Facets

open Payload List

/-- `names` are the indices in which the point is; without named vectors there is one for all. -/
structure Stored where
  payload : Option Object
  names : List String

/-- Of an index for each name, the first that a loop over the map meets. -/
def allPoints (first : Option String) (points : List Stored) : List Stored :=
  match first with
  | none => points
  | some name => points.filter (name ∈ ·.names)

/-- The value that counts, if the point passes and has a number there. -/
def numeric (field : String) (filter : Object → Bool) (p : Stored) : Option ℚ :=
  p.payload.bind fun m => if filter m then toFloat64 (m.at field) else none

structure Range where
  lower : Option ℚ
  upper : Option ℚ

structure RangeFacetValue where
  lower : ℚ
  upper : ℚ
  count : ℕ

/-- Smallest and largest value, and whether the next one is the first. -/
def extend : ℚ × ℚ × Bool → ℚ → ℚ × ℚ × Bool
  | (minVal, maxVal, first), val =>
    let (minVal, maxVal, first) := if first then (val, val, true) else (minVal, maxVal, first)
    (if val < minVal then val else minVal, if maxVal < val then val else maxVal, first)

/-- The loop runs while `v < maxVal`. -/
def autoRanges (interval minVal maxVal : ℚ) : List Range :=
  (range ⌈(maxVal - minVal) / interval⌉₊).map fun i => ⟨some (minVal + i * interval), some (minVal + (i + 1) * interval)⟩

def inRange (r : Range) (val : ℚ) : Bool := r.lower.all (· ≤ val) && r.upper.all (val < ·)

def rangeFacet (custom : List Range) (interval : ℚ) (vals : List ℚ) : List RangeFacetValue :=
  let (minVal, maxVal, _) := vals.foldl extend (0, 0, true)
  let ranges := if 0 < interval ∧ custom = [] then autoRanges interval minVal maxVal else custom
  ranges.map fun r => ⟨r.lower.getD 0, r.upper.getD 0, vals.countP (inRange r)⟩

/-- **What automatic ranges are to be**: consecutive, of the width, and every value is counted in one. -/
structure Histogram (interval : ℚ) (vals : List ℚ) (result : List RangeFacetValue) : Prop where
  width : ∀ r ∈ result, r.upper = r.lower + interval
  consecutive : result.IsChain (·.upper = ·.lower)
  once : ∀ v ∈ vals, result.countP (fun r => r.lower ≤ v ∧ v < r.upper) = 1
  total : (result.map RangeFacetValue.count).sum = vals.length

theorem foldl_extend (vals : List ℚ) (v : ℚ) : ∃ w, vals.foldl extend (v, v, true) = (w, w, true) := by
  induction vals generalizing v with
  | nil => exact ⟨v, rfl⟩
  | cons val vals ih => simpa [extend] using ih val

/-- **Automatic ranges are right just if no point has a number to count**: there never are any. -/
theorem rangeFacet_exact_iff (first : Option String) (points : List Stored) (field : String)
    (filter : Object → Bool) (interval : ℚ) :
    Histogram interval (points.filterMap (numeric field filter))
      (rangeFacet [] interval ((allPoints first points).filterMap (numeric field filter))) ↔
    ∀ p ∈ points, numeric field filter p = none := by
  have hnone : ∀ vals, rangeFacet [] interval vals = [] := by
    intro vals
    obtain ⟨w, hw⟩ := foldl_extend vals 0
    simp [rangeFacet, hw, autoRanges]
  rw [hnone, ← filterMap_eq_nil_iff]
  constructor
  · intro h
    exact length_eq_zero_iff.mp h.total.symm
  · intro h
    rw [h]
    exact ⟨nofun, .nil, nofun, rfl⟩

/-- The values 1 and 7 with the interval 5: no range, and nothing is counted. -/
theorem rangeFacet_empty : rangeFacet [] 5 [1, 7] = [] ∧ ¬ Histogram 5 [1, 7] (rangeFacet [] 5 [1, 7]) := by
  have hnone : rangeFacet [] 5 [1, 7] = [] := by decide +kernel
  rw [hnone]
  exact ⟨rfl, fun h => by simpa using h.total⟩

end LimyeDB.Facets
