/-
  SPARSE VECTORS: the inverted index with its posting lists, the search by dot product, and the fusion of
  dense and sparse results by reciprocal ranks.

  A posting names a document, which is the number of a node of the dense index.
-/
import LimyeDB.Graph.Index

namespace LimyeDB.Hybrid

open Go List

/-! ## The posting lists -/

structure Posting (F : Type) where
  docID : ℕ
  value : F
  deriving DecidableEq, Repr

/-- An index without an entry in the map has the empty list. -/
structure InvertedIndex (F : Type) where
  postingLists : UInt32 → List (Posting F)
  docCount : ℕ

variable {F D : Type}

def InvertedIndex.new : InvertedIndex F := ⟨fun _ => [], 0⟩

/-- The loop over the indices, `vec.Values[i]` beside each. -/
def addPostings (docID : ℕ) : List UInt32 → List F → (UInt32 → List (Posting F)) →
    Outcome Empty (UInt32 → List (Posting F))
  | [], _, lists => .value lists
  | _ :: _, [], _ => .panic
  | dimIdx :: indices, x :: values, lists =>
    addPostings docID indices values
      (Function.update lists dimIdx (lists dimIdx ++ [⟨docID, x⟩]))

def InvertedIndex.add (idx : InvertedIndex F) (docID : ℕ) (vec : SparseVector F) :
    Outcome Empty (InvertedIndex F) := do
  let lists ← addPostings docID vec.indices vec.values idx.postingLists
  return ⟨lists, idx.docCount + 1⟩

/-- The count of documents is not changed. -/
def InvertedIndex.remove (idx : InvertedIndex F) (docID : ℕ) : InvertedIndex F :=
  { idx with postingLists := fun dimIdx =>
      (idx.postingLists dimIdx).filter fun p => decide (p.docID ≠ docID) }

/-! ## Scores -/

structure ScoredDoc (D : Type) where
  docID : ℕ
  score : D
  deriving DecidableEq, Repr

structure HybridResult (D : Type) where
  docID : ℕ
  denseScore : D
  sparseScore : D
  finalScore : D
  deriving DecidableEq, Repr

/-- Of the arithmetic of scores nothing is assumed: `similarity` is `1.0 - distance`, `reciprocal rank` is `1.0
    / float32(60 + rank + 1)`. The sorts take a map's entries in any order, by falling score. -/
structure Scores (F D : Type) where
  plus : D → D → D
  times : F → F → D
  similarity : D → D
  reciprocal : ℕ → D
  sortDocs : List (ScoredDoc D) → List (ScoredDoc D)
  sortHybrid : List (HybridResult D) → List (HybridResult D)
  sortDocs_perm : ∀ l, (sortDocs l).Perm l
  sortHybrid_perm : ∀ l, (sortHybrid l).Perm l

def firstK {α : Type} (k : Int) (results : List α) : Outcome Empty (List α) :=
  if k < (results.length : Int) then
    if k < 0 then .panic else .value (results.take k.toNat)
  else .value results

theorem firstK_eq {α : Type} (k : Int) (results : List α) :
    firstK k results = if k < 0 then .panic else .value (results.take k.toNat) := by
  unfold firstK
  split
  · rfl
  · rw [if_neg (by omega), take_of_length_le (by omega)]

theorem firstK_subset {α : Type} {k : Int} {results first : List α}
    (hfirst : firstK k results = .value first) : first ⊆ results := by
  rw [firstK_eq] at hfirst
  split at hfirst
  · cases hfirst
  · cases hfirst
    exact take_subset ..

variable {indices : List UInt32} {values : List F}

section Search

variable [Graph.Distance D] (A : Scores F D)

def addScore (docID : ℕ) (x : D) : List (ScoredDoc D) → List (ScoredDoc D)
  | [] => [⟨docID, A.plus Graph.Distance.zero x⟩]
  | doc :: scores =>
    if doc.docID = docID then ⟨docID, A.plus doc.score x⟩ :: scores
    else doc :: addScore docID x scores

def scorePostings (queryVal : F) (postings : List (Posting F)) (scores : List (ScoredDoc D)) :
    List (ScoredDoc D) :=
  postings.foldl (fun scores p => addScore A p.docID (A.times queryVal p.value) scores) scores

def scoreQuery (idx : InvertedIndex F) : List UInt32 → List F → List (ScoredDoc D) →
    Outcome Empty (List (ScoredDoc D))
  | [], _, scores => .value scores
  | _ :: _, [], _ => .panic
  | dimIdx :: indices, queryVal :: values, scores =>
    scoreQuery idx indices values (scorePostings A queryVal (idx.postingLists dimIdx) scores)

def InvertedIndex.search (idx : InvertedIndex F) (query : SparseVector F) (k : Int) :
    Outcome Empty (List (ScoredDoc D)) := do
  let scores ← scoreQuery A idx query.indices query.values []
  firstK k (A.sortDocs scores)

/-! ## The fusion -/

/-- One document of a list, at its rank: `set` is the field of its own score. -/
def fuseDoc (set : HybridResult D → D → HybridResult D) (rank : ℕ) (doc : ScoredDoc D) :
    List (HybridResult D) → List (HybridResult D)
  | [] =>
    let result : HybridResult D :=
      ⟨doc.docID, Graph.Distance.zero, Graph.Distance.zero, Graph.Distance.zero⟩
    [{ set result doc.score with finalScore := A.plus result.finalScore (A.reciprocal rank) }]
  | result :: results =>
    if result.docID = doc.docID then
      { set result doc.score with finalScore := A.plus result.finalScore (A.reciprocal rank) }
        :: results
    else result :: fuseDoc set rank doc results

def fuseDocs (set : HybridResult D → D → HybridResult D) (docs : List (ScoredDoc D))
    (results : List (HybridResult D)) : List (HybridResult D) :=
  docs.zipIdx.foldl (fun results (doc, rank) => fuseDoc A set rank doc results) results

def setDense (result : HybridResult D) (score : D) : HybridResult D :=
  { result with denseScore := score }

def setSparse (result : HybridResult D) (score : D) : HybridResult D :=
  { result with sparseScore := score }

/-- `FuseResults` with the default configuration. -/
def fuseRRF (denseResults sparseResults : List (ScoredDoc D)) (k : Int) :
    Outcome Empty (List (HybridResult D)) :=
  let results := fuseDocs A setDense denseResults []
  let results := fuseDocs A setSparse sparseResults results
  firstK k (A.sortHybrid results)

/-! ## Where the documents come from -/

/-- The documents with a posting at one of the indices. -/
def InvertedIndex.Matches (idx : InvertedIndex F) (indices : List UInt32) (docID : ℕ) : Prop :=
  ∃ dimIdx ∈ indices, ∃ p ∈ idx.postingLists dimIdx, p.docID = docID

omit [Graph.Distance D] in
theorem matches_cons (idx : InvertedIndex F) (dimIdx : UInt32) (indices : List UInt32) (d : ℕ) :
    idx.Matches (dimIdx :: indices) d ↔
      (∃ p ∈ idx.postingLists dimIdx, p.docID = d) ∨ idx.Matches indices d :=
  exists_mem_cons_iff ..

theorem mem_addScore (docID d : ℕ) (x : D) (scores : List (ScoredDoc D)) :
    d ∈ (addScore A docID x scores).map ScoredDoc.docID ↔
      d = docID ∨ d ∈ scores.map ScoredDoc.docID := by
  induction scores with
  | nil => simp [addScore]
  | cons doc scores ih =>
    unfold addScore
    split
    · rename_i hdoc
      subst hdoc
      simp
    · rw [map_cons, mem_cons, ih, map_cons, mem_cons]
      tauto

theorem nodup_addScore (docID : ℕ) (x : D) {scores : List (ScoredDoc D)}
    (hnodup : (scores.map ScoredDoc.docID).Nodup) :
    ((addScore A docID x scores).map ScoredDoc.docID).Nodup := by
  induction scores with
  | nil => simp [addScore]
  | cons doc scores ih =>
    rw [map_cons, nodup_cons] at hnodup
    unfold addScore
    split
    · rename_i hdoc
      subst hdoc
      exact nodup_cons.mpr hnodup
    · rename_i hdoc
      refine nodup_cons.mpr ⟨fun hmem => ?_, ih hnodup.2⟩
      rcases (mem_addScore A ..).mp hmem with h | h
      · exact hdoc h
      · exact hnodup.1 h

theorem mem_scorePostings (queryVal : F) (postings : List (Posting F)) (d : ℕ)
    (scores : List (ScoredDoc D)) :
    d ∈ (scorePostings A queryVal postings scores).map ScoredDoc.docID ↔
      (∃ p ∈ postings, p.docID = d) ∨ d ∈ scores.map ScoredDoc.docID := by
  induction postings generalizing scores with
  | nil => simp [scorePostings]
  | cons p postings ih =>
    show d ∈ (scorePostings A queryVal postings _).map ScoredDoc.docID ↔ _
    rw [ih, mem_addScore, exists_mem_cons_iff, eq_comm, or_left_comm, or_assoc]

theorem nodup_scorePostings (queryVal : F) (postings : List (Posting F))
    {scores : List (ScoredDoc D)} (hnodup : (scores.map ScoredDoc.docID).Nodup) :
    ((scorePostings A queryVal postings scores).map ScoredDoc.docID).Nodup := by
  induction postings generalizing scores with
  | nil => exact hnodup
  | cons p postings ih => exact ih (nodup_addScore A _ _ hnodup)

theorem scoreQuery_short {idx : InvertedIndex F}
    (hlen : values.length < indices.length) (scores : List (ScoredDoc D)) :
    scoreQuery A idx indices values scores = .panic := by
  induction indices generalizing values scores with
  | nil => cases hlen
  | cons dimIdx indices ih =>
    cases values with
    | nil => rfl
    | cons x values => exact ih (Nat.lt_of_succ_lt_succ hlen) _

theorem scoreQuery_value (idx : InvertedIndex F)
    (hlen : indices.length ≤ values.length) (scores : List (ScoredDoc D))
    (hnodup : (scores.map ScoredDoc.docID).Nodup) :
    ∃ scores', scoreQuery A idx indices values scores = .value scores' ∧
      (scores'.map ScoredDoc.docID).Nodup ∧
      ∀ d, d ∈ scores'.map ScoredDoc.docID ↔
        idx.Matches indices d ∨ d ∈ scores.map ScoredDoc.docID := by
  induction indices generalizing values scores with
  | nil => exact ⟨scores, rfl, hnodup, fun d => by simp [InvertedIndex.Matches]⟩
  | cons dimIdx indices ih =>
    cases values with
    | nil => cases hlen
    | cons x values =>
      obtain ⟨scores', hrun, hnodup', hmem⟩ := ih (Nat.le_of_succ_le_succ hlen) _
        (nodup_scorePostings A x (idx.postingLists dimIdx) hnodup)
      refine ⟨scores', hrun, hnodup', fun d => ?_⟩
      rw [hmem, mem_scorePostings, matches_cons, or_left_comm, or_assoc]

/-- **The search of the sparse index** panics if there are fewer values than indices, and gives the first `k`
    matching documents otherwise. -/
theorem search_eq (idx : InvertedIndex F) (query : SparseVector F) (k : Int) :
    query.values.length < query.indices.length ∧ idx.search A query k = .panic ∨
    query.indices.length ≤ query.values.length ∧ ∃ docs : List (ScoredDoc D),
      idx.search A query k = firstK k docs ∧ (docs.map ScoredDoc.docID).Nodup ∧
      ∀ d, d ∈ docs.map ScoredDoc.docID ↔ idx.Matches query.indices d := by
  unfold InvertedIndex.search
  rcases Nat.lt_or_ge query.values.length query.indices.length with hlen | hlen
  · rw [scoreQuery_short A hlen]
    exact .inl ⟨hlen, rfl⟩
  · obtain ⟨scores, hscores, hnodup, hmem⟩ :=
      scoreQuery_value A idx hlen [] nodup_nil
    have hperm := (A.sortDocs_perm scores).map ScoredDoc.docID
    rw [hscores]
    refine .inr ⟨hlen, A.sortDocs scores, rfl, hperm.nodup_iff.mpr hnodup, fun d => ?_⟩
    rw [hperm.mem_iff, hmem]
    simp

section Fuse

variable {set : HybridResult D → D → HybridResult D} (hset : ∀ r x, (set r x).docID = r.docID)

include hset

theorem mem_fuseDoc (rank : ℕ) (doc : ScoredDoc D) (d : ℕ) (results : List (HybridResult D)) :
    d ∈ (fuseDoc A set rank doc results).map HybridResult.docID ↔
      d = doc.docID ∨ d ∈ results.map HybridResult.docID := by
  induction results with
  | nil => simp [fuseDoc, hset]
  | cons result results ih =>
    unfold fuseDoc
    split
    · rename_i hdoc
      simp [hset, hdoc]
    · rw [map_cons, mem_cons, ih, map_cons, mem_cons, or_left_comm]

theorem nodup_fuseDoc (rank : ℕ) (doc : ScoredDoc D) {results : List (HybridResult D)}
    (hnodup : (results.map HybridResult.docID).Nodup) :
    ((fuseDoc A set rank doc results).map HybridResult.docID).Nodup := by
  induction results with
  | nil => simp [fuseDoc]
  | cons result results ih =>
    rw [map_cons, nodup_cons] at hnodup
    unfold fuseDoc
    split
    · rw [map_cons, hset]
      exact nodup_cons.mpr hnodup
    · rename_i hdoc
      refine nodup_cons.mpr ⟨fun hmem => ?_, ih hnodup.2⟩
      rcases (mem_fuseDoc A hset ..).mp hmem with h | h
      · exact hdoc h
      · exact hnodup.1 h

theorem foldl_fuseDoc (ranked : List (ScoredDoc D × ℕ)) {results : List (HybridResult D)}
    (hnodup : (results.map HybridResult.docID).Nodup) :
    ((ranked.foldl (fun rs (doc, rank) => fuseDoc A set rank doc rs) results).map
      HybridResult.docID).Nodup ∧
    ∀ d, d ∈ (ranked.foldl (fun rs (doc, rank) => fuseDoc A set rank doc rs) results).map
        HybridResult.docID ↔
      d ∈ (ranked.map Prod.fst).map ScoredDoc.docID ∨ d ∈ results.map HybridResult.docID := by
  induction ranked generalizing results with
  | nil => exact ⟨hnodup, fun d => by simp⟩
  | cons entry ranked ih =>
    obtain ⟨hnodup', hmem⟩ := ih (nodup_fuseDoc A hset entry.2 entry.1 hnodup)
    refine ⟨hnodup', fun d => (hmem d).trans ?_⟩
    rw [mem_fuseDoc A hset, map_cons, map_cons, mem_cons, or_left_comm, or_assoc]

theorem fuseDocs_spec (docs : List (ScoredDoc D)) (results : List (HybridResult D))
    (hnodup : (results.map HybridResult.docID).Nodup) :
    ((fuseDocs A set docs results).map HybridResult.docID).Nodup ∧
      ∀ d, d ∈ (fuseDocs A set docs results).map HybridResult.docID ↔
        d ∈ docs.map ScoredDoc.docID ∨ d ∈ results.map HybridResult.docID := by
  have h := foldl_fuseDoc A hset docs.zipIdx hnodup
  rwa [zipIdx_map_fst] at h

end Fuse

omit [Graph.Distance D] in
theorem docID_setDense (r : HybridResult D) (x : D) : (setDense r x).docID = r.docID := rfl

omit [Graph.Distance D] in
theorem docID_setSparse (r : HybridResult D) (x : D) : (setSparse r x).docID = r.docID := rfl

/-- **The fusion**: the first `k` of the documents of both lists, each once. -/
theorem fuseRRF_eq (denseResults sparseResults : List (ScoredDoc D)) (k : Int) :
    ∃ results : List (HybridResult D), fuseRRF A denseResults sparseResults k = firstK k results ∧
      (results.map HybridResult.docID).Nodup ∧
      ∀ d, d ∈ results.map HybridResult.docID ↔
        d ∈ sparseResults.map ScoredDoc.docID ∨ d ∈ denseResults.map ScoredDoc.docID := by
  obtain ⟨hdense, hmemDense⟩ :=
    fuseDocs_spec A docID_setDense denseResults [] nodup_nil
  obtain ⟨hsparse, hmemSparse⟩ := fuseDocs_spec A docID_setSparse sparseResults _ hdense
  have hperm := (A.sortHybrid_perm
    (fuseDocs A setSparse sparseResults (fuseDocs A setDense denseResults []))).map
      HybridResult.docID
  refine ⟨_, rfl, hperm.nodup_iff.mpr hsparse, fun d => ?_⟩
  rw [hperm.mem_iff, hmemSparse, hmemDense]
  simp

end Search

/-! ## Adding and removing -/

theorem addPostings_short {docID : ℕ}
    (hlen : values.length < indices.length) (lists : UInt32 → List (Posting F)) :
    addPostings docID indices values lists = .panic := by
  induction indices generalizing values lists with
  | nil => cases hlen
  | cons dimIdx indices ih =>
    cases values with
    | nil => rfl
    | cons x values => exact ih (Nat.lt_of_succ_lt_succ hlen) _

def valuesAt (vec : SparseVector F) (dimIdx : UInt32) : List F :=
  ((vec.indices.zip vec.values).filter fun e => decide (e.1 = dimIdx)).map Prod.snd

theorem addPostings_value (docID : ℕ)
    (hlen : indices.length ≤ values.length) (lists : UInt32 → List (Posting F)) :
    addPostings docID indices values lists =
      .value fun dimIdx => lists dimIdx ++ (valuesAt ⟨indices, values⟩ dimIdx).map (⟨docID, ·⟩) := by
  induction indices generalizing values lists with
  | nil => simp [addPostings, valuesAt]
  | cons i indices ih =>
    cases values with
    | nil => cases hlen
    | cons x values =>
      rw [addPostings, ih (Nat.le_of_succ_le_succ hlen)]
      congr 1
      funext dimIdx
      by_cases hi : i = dimIdx
      · subst hi
        simp [valuesAt]
      · simp [valuesAt, hi, Function.update_of_ne (Ne.symm hi)]

theorem add_eq (idx : InvertedIndex F) (docID : ℕ) (vec : SparseVector F) : idx.add docID vec =
      if vec.indices.length ≤ vec.values.length then
        .value ⟨fun dimIdx => idx.postingLists dimIdx ++ (valuesAt vec dimIdx).map (⟨docID, ·⟩),
          idx.docCount + 1⟩
      else .panic := by
  unfold InvertedIndex.add
  split
  · rename_i hlen
    rw [addPostings_value docID hlen]
    rfl
  · rename_i hlen
    rw [addPostings_short (Nat.lt_of_not_le hlen)]
    rfl

theorem mem_remove (idx : InvertedIndex F) (docID : ℕ) (dimIdx : UInt32) (p : Posting F) :
    p ∈ (idx.remove docID).postingLists dimIdx ↔
      p ∈ idx.postingLists dimIdx ∧ p.docID ≠ docID := by
  simp [InvertedIndex.remove]

def valuesOf (s : InvertedIndex F) (dimIdx : UInt32) (docID : ℕ) : List F :=
  ((s.postingLists dimIdx).filter fun q => decide (q.docID = docID)).map Posting.value

theorem valuesOf_append {s s' : InvertedIndex F} {dimIdx : UInt32} {vs : List F} {j : ℕ}
    (hs' : s'.postingLists dimIdx = s.postingLists dimIdx ++ vs.map (Posting.mk j)) (i : ℕ) :
    valuesOf s' dimIdx i = valuesOf s dimIdx i ++ if j = i then vs else [] := by
  unfold valuesOf
  rw [hs', filter_append, map_append]
  congr 1
  by_cases hj : j = i
  · simp [hj, filter_map, Function.comp_def]
  · simp [hj, filter_map, Function.comp_def]

theorem valuesOf_remove (s : InvertedIndex F) (dimIdx : UInt32) (j i : ℕ) :
    valuesOf (s.remove j) dimIdx i = if i = j then [] else valuesOf s dimIdx i := by
  unfold valuesOf InvertedIndex.remove
  simp only [filter_filter]
  split
  · rename_i hij
    subst hij
    simp
  · rename_i hij
    congr 2
    funext q
    by_cases hq : q.docID = i
    · simp [hq, hij]
    · simp [hq]

end LimyeDB.Hybrid
