/-
  DISCOVERY BY CONTEXT: the context that is made of the examples, and the distances by which nodes are ranked.
-/
import LimyeDB.Go.Traced
import LimyeDB.Graph.Selection

namespace LimyeDB.Graph

open Go Hnsw List Outcome

variable {F P D Q C S : Type} [Distance D]

/-! ## The context -/

structure ContextPair (F : Type) where
  positive : Option (List F)
  negative : Option (List F)
  deriving DecidableEq, Repr

structure DiscoverParams (F P : Type) where
  Target : List F
  Context : List (ContextPair F)
  K : Int
  Ef : Int
  Filter : Option (Bytes → Option P → Bool)

structure Arithmetic (D : Type) where
  plus : D → D → D
  minus : D → D → D
  divide : D → ℕ → D
  tenth : D → D

section Context

variable (T : Tools F D Q C S) (A : Arithmetic D) (vec : List F)

def measure (v : Option (List F)) : Traced (Option (List F)) Empty D := do
  Traced.note v
  return T.distance vec (v.getD [])

def totalPenalty : List (ContextPair F) → D → Traced (Option (List F)) Empty D
  | [], total => pure total
  | pair :: context, total => do
    let posDist ← measure T vec pair.positive
    let negDist ← measure T vec pair.negative
    totalPenalty context
      (if Distance.lt negDist posDist then A.plus total (A.minus posDist negDist) else total)

def regularize : List (ContextPair F) → D → Traced (Option (List F)) Empty D
  | [], regDist => pure regDist
  | pair :: context, regDist => do
    let dist ← measure T vec pair.positive
    regularize context (A.plus regDist dist)

def contextDistance (target : List F) (context : List (ContextPair F)) :
    Traced (Option (List F)) Empty D := do
  let total ← totalPenalty T A vec context Distance.zero
  if target ≠ [] then
    let dist ← measure T vec (some target)
    return A.plus total dist
  let regDist ← regularize T A vec context Distance.zero
  return A.plus total (A.tenth (if context = [] then regDist else A.divide regDist context.length))

end Context

section Safe

variable {T : Tools F D Q C S} {A : Arithmetic D} {vec : List F} {good : Option (List F) → Prop}

theorem measure_safe (v : Option (List F)) : (measure T vec v).Safe good ↔ good v := by
  simp [measure, Traced.safe_bind]

theorem totalPenalty_safe (context : List (ContextPair F)) (total : D) :
    (totalPenalty T A vec context total).Safe good ↔ ∀ p ∈ context, good p.positive ∧ good p.negative := by
  induction context generalizing total with
  | nil => simp [totalPenalty]
  | cons p context ih => simp [totalPenalty, Traced.safe_bind, ih, measure, and_assoc]

theorem regularize_safe (context : List (ContextPair F)) (regDist : D) :
    (regularize T A vec context regDist).Safe good ↔ ∀ p ∈ context, good p.positive := by
  induction context generalizing regDist with
  | nil => simp [regularize]
  | cons p context ih => simp [regularize, Traced.safe_bind, ih, measure]

theorem contextDistance_safe (hgood : ∀ v, good (some v)) (target : List F) (context : List (ContextPair F)) :
    (contextDistance T A vec target context).Safe good ↔
      ∀ p ∈ context, good p.positive ∧ good p.negative := by
  unfold contextDistance
  rw [Traced.safe_bind, totalPenalty_safe]
  refine and_iff_left_of_imp fun hall total _ => ?_
  split
  · simp [Traced.safe_bind, measure_safe, hgood]
  · simp only [Traced.safe_bind, regularize_safe]
    exact ⟨fun p hp => (hall p hp).1, fun _ _ => by simp⟩

end Safe

/-! ## The examples -/

structure ContextExample (F : Type) where
  id : Bytes
  vector : List F

/-- `DiscoveryParams` of the collection, as far as the search depends on them; a context that is nil has
    no examples. -/
structure DiscoveryParams (F P : Type) where
  Target : List F
  Positive : List (ContextExample F)
  Negative : List (ContextExample F)
  K : Int
  Ef : Int
  Filter : Option (Bytes → Option P → Bool)

/-- `normalize` leaves a vector as it is unless the metric is cosine. -/
structure Metric (F : Type) where
  dimension : ℕ
  normalize : List F → List F
  centroid : List (List F) → List F

inductive DiscoverError where
  | index (e : IndexError)
  | noExample
  | noTarget
  | dimensionMismatch
  deriving DecidableEq, Repr

def DiscoverError.message : DiscoverError → String
  | .index e => e.message
  | .noExample => "context example must have either id or vector"
  | .noTarget => "no target vector or positive examples provided"
  | .dimensionMismatch => "vector dimension mismatch"

section Examples

variable (T : Tools F D Q C S) (M : Metric F) (h : Index F P Q C S)

def resolveContextExample (ex : ContextExample F) : Outcome DiscoverError (List F) :=
  if ex.vector ≠ [] then .value ex.vector
  else if ex.id ≠ [] then do
    let p ← (Hnsw.get T.mmap h ex.id).mapError DiscoverError.index
    return p.vector
  else .error .noExample

def exampleVectors (examples : List (ContextExample F)) : Outcome DiscoverError (List (List F)) :=
  examples.mapM fun ex => do
    let vec ← resolveContextExample T h ex
    return M.normalize vec

/-- `make([]ContextPair, len(positive))`, and behind that the pairs that are appended. -/
def hnswContext (positive negative : List (List F)) : List (ContextPair F) :=
  replicate positive.length ⟨none, none⟩ ++
    (range (max positive.length negative.length)).map fun i => ⟨positive[i]?, negative[i]?⟩

def targetVector (target : List F) (positive : List (List F)) : Outcome DiscoverError (List F) :=
  if target ≠ [] then .value (M.normalize target)
  else if positive ≠ [] then .value (M.centroid positive)
  else .error .noTarget

/-- `Discover` up to its call of `DiscoverWithFilter`. -/
def discoverParams (params : DiscoveryParams F P) : Outcome DiscoverError (DiscoverParams F P) := do
  let positive ← exampleVectors T M h params.Positive
  let negative ← exampleVectors T M h params.Negative
  let target ← targetVector M params.Target positive
  if target.length ≠ M.dimension then .error .dimensionMismatch
  else
    let ef := if params.Ef = 0 then 100 else params.Ef
    return ⟨target, hnswContext positive negative, max 100 (wrapInt (params.K * 3)),
      max ef (wrapInt (params.K * 3)), params.Filter⟩

end Examples

theorem exampleVectors_eq_nil {T : Tools F D Q C S} {M : Metric F} {h : Index F P Q C S}
    {examples : List (ContextExample F)} {vectors : List (List F)}
    (hv : exampleVectors T M h examples = .value vectors) : vectors = [] ↔ examples = [] := by
  cases examples with
  | nil =>
    cases hv
    simp
  | cons ex examples =>
    rw [exampleVectors, mapM_cons] at hv
    obtain ⟨v, -, hv⟩ := bind_eq_value.mp hv
    obtain ⟨vs, -, hv⟩ := bind_eq_value.mp hv
    cases hv
    simp

theorem hnswContext_whole_iff (positive negative : List (List F)) :
    (∀ p ∈ hnswContext positive negative, p.positive ≠ none ∧ p.negative ≠ none) ↔
      positive = [] ∧ negative = [] := by
  constructor
  · intro hall
    cases positive with
    | cons v positive => exact absurd rfl (hall ⟨none, none⟩ (by simp [hnswContext])).1
    | nil =>
      cases negative with
      | nil => exact ⟨rfl, rfl⟩
      | cons v negative =>
        exact absurd rfl (hall ⟨none, some v⟩ (by simp [hnswContext, range_succ_eq_map])).1
  · rintro ⟨rfl, rfl⟩
    simp [hnswContext]

theorem filterMap_range_getElem? {α : Type} (l : List α) (n : ℕ) :
    (range (max l.length n)).filterMap (l[·]?) = l := by
  induction l generalizing n with
  | nil => simp
  | cons a l ih =>
    have hmax : max (a :: l).length n = max l.length (n - 1) + 1 := by
      rw [length_cons]
      omega
    rw [hmax, range_succ_eq_map, filterMap_cons, filterMap_map]
    simp [ih]

/-- **Every example is in the context once, and nothing else is; a distance to a missing vector is computed as
    soon as there is an example.** -/
theorem context_missing_iff (T : Tools F D Q C S) (A : Arithmetic D) (M : Metric F) (h : Index F P Q C S)
    (params : DiscoveryParams F P) {dp : DiscoverParams F P} (hdp : discoverParams T M h params = .value dp) :
    (exampleVectors T M h params.Positive = .value (dp.Context.filterMap ContextPair.positive) ∧
      exampleVectors T M h params.Negative = .value (dp.Context.filterMap ContextPair.negative)) ∧
    ∀ vec, (none ∉ (contextDistance T A vec dp.Target dp.Context).trace ↔
      params.Positive = [] ∧ params.Negative = []) := by
  obtain ⟨positive, hpos, hrun⟩ := bind_eq_value.mp hdp
  obtain ⟨negative, hneg, hrun⟩ := bind_eq_value.mp hrun
  obtain ⟨target, -, hrun⟩ := bind_eq_value.mp hrun
  split at hrun
  · cases hrun
  cases hrun
  refine ⟨⟨?_, ?_⟩, fun vec => ?_⟩
  · rw [hpos, hnswContext, filterMap_append, filterMap_replicate_of_none rfl, filterMap_map]
    exact congrArg _ (filterMap_range_getElem? positive _).symm
  · rw [hneg, hnswContext, filterMap_append, filterMap_replicate_of_none rfl, filterMap_map, max_comm]
    exact congrArg _ (filterMap_range_getElem? negative _).symm
  · have htotal : (contextDistance T A vec target (hnswContext positive negative)).Safe fun _ => True :=
      (contextDistance_safe (fun _ => trivial) _ _).mpr fun _ _ => ⟨trivial, trivial⟩
    have hsafe : (contextDistance T A vec target (hnswContext positive negative)).Safe (· ≠ none) ↔ _ :=
      contextDistance_safe (fun _ => Option.some_ne_none _) target _
    rw [← exampleVectors_eq_nil hpos, ← exampleVectors_eq_nil hneg, ← hnswContext_whole_iff, ← hsafe]
    exact ⟨fun hnot => ⟨htotal.1, fun v hv hnone => hnot (hnone ▸ hv)⟩, fun h hnone => h.2 none hnone rfl⟩

def natural : Arithmetic ℕ := ⟨(· + ·), (· - ·), (· / ·), (· / 10)⟩

def plainMetric : Metric ℕ := ⟨1, id, fun vectors => vectors.headD []⟩

theorem context_missing : ∃ dp,
    discoverParams line plainMetric unread ⟨[5], [⟨[], [7]⟩], [], 1, 0, none⟩ = .value dp ∧
      none ∈ (contextDistance line natural [3] dp.Target dp.Context).trace :=
  ⟨_, rfl, by decide⟩

theorem context_missing_iff_none : ∃ dp,
    discoverParams line plainMetric unread ⟨[5], [], [], 1, 0, none⟩ = .value dp ∧
      none ∉ (contextDistance line natural [3] dp.Target dp.Context).trace :=
  ⟨_, rfl, ((context_missing_iff line natural plainMetric unread ⟨[5], [], [], 1, 0, none⟩ rfl).2 [3]).mpr
    ⟨rfl, rfl⟩⟩

end LimyeDB.Graph
