/-
  THE SCALAR QUANTIZER of an index, with exact rationals. It is trained by the first vector it encodes, and one
  vector has a range of a single value.
-/
import Mathlib
import LimyeDB.Go.Outcome

namespace LimyeDB.Quantization

open Go List

variable {n : ℕ}

structure ScalarQuantizer (n : ℕ) where
  quantile : ℚ
  mins : Fin n → ℚ
  maxs : Fin n → ℚ
  scales : Fin n → ℚ
  trained : Bool

def newScalarQuantizer (quantile : ℚ) : ScalarQuantizer n := ⟨quantile, 0, 0, 0, false⟩

/-- The conversion to `int`, towards zero. -/
def toInt (x : ℚ) : ℤ := if 0 ≤ x then ⌊x⌋ else ⌈x⌉

/-- The values of a component are as many as the vectors, so the indices are good for all components or none. -/
def ScalarQuantizer.train (q : ScalarQuantizer n) (vectors : List (Fin n → ℚ)) :
    Outcome String (ScalarQuantizer n) :=
  if vectors = [] then .error "no vectors to train on"
  else
    let lowIdx := max (toInt (vectors.length * (1 - q.quantile))) 0
    let highIdx := min (toInt (vectors.length * q.quantile)) (vectors.length - 1)
    if lowIdx < vectors.length ∧ 0 ≤ highIdx then
      let dimValues i := (vectors.map (· i)).insertionSort (· ≤ ·)
      let mins i := (dimValues i).getD lowIdx.toNat 0
      let maxs i := (dimValues i).getD highIdx.toNat 0
      let rang i := maxs i - mins i
      .value ⟨q.quantile, mins, maxs, fun i => 255 / if rang i < 1 / 10 ^ 8 then 1 else rang i, true⟩
    else .panic

def ScalarQuantizer.code (q : ScalarQuantizer n) (v : Fin n → ℚ) (i : Fin n) : ℕ :=
  let v := min (max (v i) (q.mins i)) (q.maxs i)
  ⌊min ((v - q.mins i) * q.scales i) 255⌋.toNat

def ScalarQuantizer.encode (q : ScalarQuantizer n) (v : Fin n → ℚ) :
    Outcome String (ScalarQuantizer n × (Fin n → ℕ)) := do
  let q ← if q.trained then pure q else q.train [v]
  return (q, q.code v)

def encodeAll (q : ScalarQuantizer n) : List (Fin n → ℚ) → Outcome String (List (Fin n → ℕ))
  | [] => pure []
  | v :: vs => do
    let (q, code) ← q.encode v
    let codes ← encodeAll q vs
    return code :: codes

/-! ## What is told apart -/

/-- In some component the two differ by more than 1/255 of what any two of the vectors do. -/
def Far (vs : List (Fin n → ℚ)) (u w : Fin n → ℚ) : Prop :=
  ∃ i, ∀ a ∈ vs, ∀ b ∈ vs, (a i - b i) / 255 < |u i - w i|

def trainedBy (quantile : ℚ) (v : Fin n → ℚ) : ScalarQuantizer n := ⟨quantile, v, v, fun _ => 255, true⟩

theorem train_one (quantile : ℚ) (v : Fin n → ℚ) : (newScalarQuantizer quantile).train [v] =
    if 0 < quantile then .value (trainedBy quantile v) else .panic := by
  have hlow : toInt (1 - quantile) < 1 ↔ 0 < quantile := by
    unfold toInt
    split_ifs with h
    · rw [Int.floor_lt]
      norm_num
    · refine iff_of_true (Int.ceil_lt_iff.mpr ?_) ?_
      all_goals push_cast; linarith
  have hhigh : 0 < quantile → 0 ≤ toInt quantile := by
    intro h
    rw [toInt, if_pos h.le]
    exact Int.floor_nonneg.mpr h.le
  by_cases hq : 0 < quantile
  · have hzero : max (toInt (1 - quantile)) 0 = 0 := max_eq_right (Int.lt_add_one_iff.mp (hlow.mpr hq))
    simp [ScalarQuantizer.train, newScalarQuantizer, trainedBy, hzero, hhigh hq, hq]
  · simp [ScalarQuantizer.train, newScalarQuantizer, hlow, hq]

theorem code_trainedBy (quantile : ℚ) (u v : Fin n → ℚ) : (trainedBy quantile u).code v = 0 := by
  funext i
  simp [ScalarQuantizer.code, trainedBy]

theorem encode_new (quantile : ℚ) (v : Fin n → ℚ) : (newScalarQuantizer quantile).encode v =
    if 0 < quantile then .value (trainedBy quantile v, 0) else .panic := by
  have hfirst : (newScalarQuantizer quantile).encode v =
    (newScalarQuantizer quantile).train [v] >>= fun q => pure (q, q.code v) := rfl
  rw [hfirst, train_one]
  split
  · simp [code_trainedBy]
  · rfl

theorem encode_trainedBy (quantile : ℚ) (u v : Fin n → ℚ) :
    (trainedBy quantile u).encode v = .value (trainedBy quantile u, 0) := by
  rw [← code_trainedBy quantile u v]
  rfl

theorem encodeAll_trainedBy (quantile : ℚ) (u : Fin n → ℚ) (vs : List (Fin n → ℚ)) :
    encodeAll (trainedBy quantile u) vs = .value (vs.map 0) := by
  induction vs with
  | nil => rfl
  | cons v vs ih => simp [encodeAll, encode_trainedBy, ih]

theorem encodeAll_new (quantile : ℚ) (v : Fin n → ℚ) (vs : List (Fin n → ℚ)) :
    encodeAll (newScalarQuantizer quantile) (v :: vs) =
      if 0 < quantile then .value ((v :: vs).map 0) else .panic := by
  rw [encodeAll, encode_new]
  split
  · simp [encodeAll_trainedBy]
  · rfl

/-- **The vectors of an index are told apart** just if there is nothing to tell apart. -/
theorem encodeAll_separates_iff (quantile : ℚ) (vs : List (Fin (n + 1) → ℚ)) :
    (∃ codes, encodeAll (newScalarQuantizer quantile) vs = .value codes ∧ ∀ (i j : ℕ) (u w), vs[i]? = some u →
        vs[j]? = some w → Far vs u w → codes[i]? ≠ codes[j]?) ↔
      vs = [] ∨ (0 < quantile ∧ ∀ u ∈ vs, ∀ w ∈ vs, u = w) := by
  cases vs with
  | nil => simp [encodeAll]
  | cons v vs =>
    rw [encodeAll_new]
    by_cases hq : 0 < quantile
    · simp only [hq, if_true, Outcome.value.injEq, exists_eq_left', true_and, reduceCtorEq, false_or]
      constructor
      · intro h u hu w hw
        by_contra hne
        obtain ⟨i, hi⟩ := Function.ne_iff.mp hne
        -- the two vectors with the greatest and the least component
        obtain ⟨a, ha, hmax⟩ := (v :: vs).toFinset.exists_max_image (· i) ⟨v, by simp⟩
        obtain ⟨b, hb, hmin⟩ := (v :: vs).toFinset.exists_min_image (· i) ⟨v, by simp⟩
        simp only [mem_toFinset] at ha hb hmax hmin
        obtain ⟨j, hj⟩ := mem_iff_getElem?.mp ha
        obtain ⟨k, hk⟩ := mem_iff_getElem?.mp hb
        refine h j k a b hj hk ⟨i, fun c hc d hd => ?_⟩ (by rw [getElem?_map, getElem?_map, hj, hk]; rfl)
        have hlt : b i < a i := by
          rcases lt_or_gt_of_ne hi with hi | hi
          · exact (hmin u hu).trans_lt (hi.trans_le (hmax w hw))
          · exact (hmin w hw).trans_lt (hi.trans_le (hmax u hu))
        rw [abs_of_pos (sub_pos.mpr hlt)]
        linarith [hmax c hc, hmin d hd]
      · intro h i j u w hu hw ⟨k, hk⟩
        have huw := h u (mem_of_getElem? hu) w (mem_of_getElem? hw)
        have hlt := hk v mem_cons_self v mem_cons_self
        simp [huw] at hlt
    · simp [hq]

/-- The two ends of a range have one code. -/
theorem encodeAll_same : encodeAll (newScalarQuantizer (99 / 100)) [fun _ : Fin 1 => 0, fun _ => 1] =
    .value [0, 0] ∧ Far [fun _ : Fin 1 => 0, fun _ => 1] (fun _ => 0) (fun _ => 1) := by
  refine ⟨by rw [encodeAll_new, if_pos (by norm_num)]; rfl, 0, ?_⟩
  norm_num

end LimyeDB.Quantization
