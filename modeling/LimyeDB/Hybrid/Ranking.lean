/-
  RANKED DOCUMENTS IN EXACT NUMBERS: the search by dot product and the fusion by reciprocal ranks, with
  rationals for floats.
-/
import LimyeDB.Lib.Runs
import LimyeDB.Hybrid.Sparse

namespace LimyeDB.Hybrid

open Go List Lib.Runs Function

/-! ## Exact scores -/

instance : Graph.Distance ℚ where
  lt a b := decide (a < b)
  nan _ := false
  zero := 0
  asymm h := decide_eq_false (of_decide_eq_true h).asymm
  trans h h' := decide_eq_true ((of_decide_eq_true h).trans (of_decide_eq_true h'))
  cotrans {a b c} h _ := by
    simp only [decide_eq_true_eq] at h ⊢
    exact (lt_or_ge a c).imp_right fun hca => hca.trans_lt h
  lt_nan _ := ⟨rfl, rfl⟩

/-- `sort.Slice` by falling scores: entries of one score may stand in any order. -/
structure Sorting where
  sort : {α : Type} → (α → ℚ) → List α → List α
  perm : ∀ {α : Type} (score : α → ℚ) (l : List α), (sort score l).Perm l
  sorted : ∀ {α : Type} (score : α → ℚ) (l : List α), (sort score l).Pairwise fun a b => score b ≤ score a

def exact (R : Sorting) (c : ℕ) : Scores ℚ ℚ where
  plus a b := a + b
  times a b := a * b
  similarity d := 1 - d
  reciprocal rank := 1 / (c + rank + 1)
  sortDocs := R.sort ScoredDoc.score
  sortHybrid := R.sort HybridResult.finalScore
  sortDocs_perm := R.perm _
  sortHybrid_perm := R.perm _

section Best

variable {α : Type} (id : α → ℕ) (score : α → ℚ)

/-- The best `k` of the documents `A`, by falling score. -/
structure Best (k : ℕ) (A : Set ℕ) (scoreOf : ℕ → ℚ) (l : List α) : Prop where
  once : (l.map id).Nodup
  count : l.length = min k A.ncard
  scored : ∀ r ∈ l, id r ∈ A ∧ score r = scoreOf (id r)
  sorted : l.Pairwise fun a b => score b ≤ score a
  best : ∀ r ∈ l, ∀ d ∈ A, d ∉ l.map id → scoreOf d ≤ score r

def sumOf (d : ℕ) (l : List α) : ℚ := ((l.filter (id · = d)).map score).sum

variable {id score} {k : ℕ} {A : Set ℕ} {scoreOf : ℕ → ℚ} {l : List α}

theorem sumOf_cons (d : ℕ) (r : α) (l : List α) :
    sumOf id score d (r :: l) = (if id r = d then score r else 0) + sumOf id score d l := by
  by_cases h : id r = d <;> simp [sumOf, h]

theorem eq_sumOf (hnodup : (l.map id).Nodup) {r : α} (hr : r ∈ l) : score r = sumOf id score (id r) l := by
  induction l with
  | nil => cases hr
  | cons x l ih =>
    obtain ⟨hx, hl⟩ := nodup_cons.mp hnodup
    rw [sumOf_cons]
    rcases mem_cons.mp hr with rfl | hr
    · have hnone : l.filter (id · = id r) = [] := filter_eq_nil_iff.mpr fun y hy heq =>
        hx (of_decide_eq_true heq ▸ mem_map_of_mem hy)
      simp [sumOf, hnone]
    · rw [if_neg fun heq : id x = id r => hx (heq ▸ mem_map_of_mem hr), zero_add, ih hl hr]

theorem best_firstK (R : Sorting) (hnodup : (l.map id).Nodup) (hA : ∀ d, d ∈ l.map id ↔ d ∈ A)
    (hscore : ∀ d, sumOf id score d l = scoreOf d) :
    ∃ results, firstK k (R.sort score l) = .value results ∧ Best id score k A scoreOf results := by
  have hperm := R.perm score l
  have hsub : ((R.sort score l).take k).Sublist (R.sort score l) := take_sublist ..
  have hscored : ∀ r ∈ R.sort score l, score r = scoreOf (id r) := fun r hr =>
    (eq_sumOf hnodup (hperm.mem_iff.mp hr)).trans (hscore _)
  refine ⟨(R.sort score l).take k, (firstK_eq k _).trans (if_neg (Int.not_lt.mpr (Int.natCast_nonneg k))),
    ((hperm.map id).nodup_iff.mpr hnodup).sublist (hsub.map _), ?_, fun r hr => ?_,
    (R.sorted score l).sublist hsub, fun r hr d hd hnot => ?_⟩
  · have hset : A = ((l.map id).toFinset : Set ℕ) := Set.ext fun d => by simp [← hA]
    rw [hset, Set.ncard_coe_finset, toFinset_card_of_nodup hnodup, length_map, length_take, hperm.length_eq]
  · exact ⟨(hA _).mp (mem_map_of_mem (hperm.mem_iff.mp (hsub.subset hr))), hscored r (hsub.subset hr)⟩
  · obtain ⟨x, hx, rfl⟩ := mem_map.mp ((hA d).mpr hd)
    have hx' := hperm.mem_iff.mpr hx
    have hsorted := R.sorted score l
    rw [← hscored x hx']
    rw [← take_append_drop k (R.sort score l)] at hsorted hx'
    rcases mem_append.mp hx' with hfirst | hrest
    · exact absurd (mem_map_of_mem hfirst) hnot
    · exact (pairwise_append.mp hsorted).2.2 r hr x hrest

end Best

/-! ## The search -/

def dot (query vec : SparseVector ℚ) : ℚ :=
  ((query.indices.zip query.values).map fun e => ((valuesAt vec e.1).map (e.2 * ·)).sum).sum

section Search

variable (R : Sorting) (c d : ℕ)

theorem sumOf_addScore (docID : ℕ) (x : ℚ) (scores : List (ScoredDoc ℚ)) :
    sumOf ScoredDoc.docID ScoredDoc.score d (addScore (exact R c) docID x scores) =
      sumOf ScoredDoc.docID ScoredDoc.score d scores + if docID = d then x else 0 := by
  induction scores with
  | nil =>
    rw [addScore, sumOf_cons]
    simp [exact, Graph.Distance.zero, sumOf]
  | cons doc scores ih =>
    unfold addScore
    split
    · rename_i hdoc
      by_cases hd : docID = d
      · simp only [sumOf_cons, exact, hdoc, hd, if_true]
        ring
      · simp [sumOf_cons, hdoc, hd]
    · rw [sumOf_cons, sumOf_cons, ih, add_assoc]

theorem sumOf_scorePostings (queryVal : ℚ) (postings : List (Posting ℚ)) (scores : List (ScoredDoc ℚ)) :
    sumOf ScoredDoc.docID ScoredDoc.score d (scorePostings (exact R c) queryVal postings scores) =
      sumOf ScoredDoc.docID ScoredDoc.score d scores +
        (((postings.filter (·.docID = d)).map Posting.value).map (queryVal * ·)).sum := by
  induction postings generalizing scores with
  | nil => simp [scorePostings]
  | cons p postings ih =>
    change sumOf _ _ d (scorePostings _ queryVal postings _) = _
    rw [ih, sumOf_addScore, add_assoc]
    by_cases hd : p.docID = d <;> simp [hd, exact]

theorem sumOf_scoreQuery (idx : InvertedIndex ℚ) {indices : List UInt32} {values : List ℚ}
    {scores scores' : List (ScoredDoc ℚ)}
    (h : scoreQuery (exact R c) idx indices values scores = .value scores') :
    sumOf ScoredDoc.docID ScoredDoc.score d scores' = sumOf ScoredDoc.docID ScoredDoc.score d scores +
      ((indices.zip values).map fun e => ((valuesOf idx e.1 d).map (e.2 * ·)).sum).sum := by
  induction indices generalizing values scores with
  | nil =>
    cases h
    simp
  | cons i indices ih =>
    cases values with
    | nil => cases h
    | cons x values =>
      rw [ih h, sumOf_scorePostings, zip_cons_cons, map_cons, sum_cons, add_assoc]
      rfl

end Search

inductive DocOp where
  | add (docID : ℕ) (vec : SparseVector ℚ)
  | remove (docID : ℕ)

/-- The index, and beside it the documents that are present. Only an absent one is added. -/
def docStep (s : InvertedIndex ℚ × (ℕ → Option (SparseVector ℚ))) :
    DocOp → Option (InvertedIndex ℚ × (ℕ → Option (SparseVector ℚ)))
  | .add docID vec =>
    if s.2 docID = none then
      match s.1.add docID vec with
      | .value idx => some (idx, update s.2 docID (some vec))
      | _ => none
    else none
  | .remove docID => some (s.1.remove docID, update s.2 docID none)

/-- Each list has the values of each document that is present, in their order. -/
structure Stores (idx : InvertedIndex ℚ) (docs : ℕ → Option (SparseVector ℚ)) : Prop where
  values : ∀ i d, valuesOf idx i d = (docs d).elim [] (valuesAt · i)
  complete : ∀ d vec, docs d = some vec → vec.indices.length ≤ vec.values.length

theorem Stores.step {s s' : InvertedIndex ℚ × (ℕ → Option (SparseVector ℚ))} {op : DocOp}
    (h : Stores s.1 s.2) (hstep : docStep s op = some s') : Stores s'.1 s'.2 := by
  obtain ⟨idx, docs⟩ := s
  cases op with
  | add docID vec =>
    simp only [docStep, add_eq] at hstep
    split_ifs at hstep with habsent hlen
    cases hstep
    refine ⟨fun i d => ?_, fun d v hv => ?_⟩
    · rw [valuesOf_append rfl, h.values]
      by_cases hd : d = docID
      · subst hd
        simp [habsent]
      · simp [update_of_ne hd, Ne.symm hd]
    · by_cases hd : d = docID
      · subst hd
        cases (update_self d (some vec) docs).symm.trans hv
        exact hlen
      · exact h.complete d v ((update_of_ne hd _ docs).symm.trans hv)
  | remove docID =>
    cases hstep
    refine ⟨fun i d => ?_, fun d v hv => ?_⟩
    · rw [valuesOf_remove, h.values]
      by_cases hd : d = docID <;> simp [hd]
    · by_cases hd : d = docID
      · simp [hd] at hv
      · exact h.complete d v ((update_of_ne hd _ docs).symm.trans hv)

/-- The documents that are present and share an index with the query. -/
def Sharing (docs : ℕ → Option (SparseVector ℚ)) (query : SparseVector ℚ) : Set ℕ :=
  {d | ∃ vec, docs d = some vec ∧ ∃ i ∈ query.indices, i ∈ vec.indices}

theorem Stores.matches_iff {idx : InvertedIndex ℚ} {docs : ℕ → Option (SparseVector ℚ)} (h : Stores idx docs)
    (query : SparseVector ℚ) (d : ℕ) : idx.Matches query.indices d ↔ d ∈ Sharing docs query := by
  have hlist : ∀ i, (∃ p ∈ idx.postingLists i, p.docID = d) ↔ ∃ x, x ∈ (docs d).elim [] (valuesAt · i) := by
    intro i
    simp [← h.values i d, valuesOf]
  simp only [InvertedIndex.Matches, hlist, Sharing, Set.mem_ofPred_eq]
  cases hd : docs d with
  | none => simp
  | some vec =>
    have hindex : ∀ i, (∃ x, x ∈ valuesAt vec i) ↔ i ∈ vec.indices := by
      intro i
      conv_rhs => rw [← map_fst_zip (h.complete d vec hd)]
      simp [valuesAt]
    simp [hindex]

/-- **After any adds of absent documents and any removes, the search returns the best `k` of those that share
    an index with the query.** -/
theorem search_ranked (R : Sorting) (c : ℕ) (ops : List DocOp) {idx : InvertedIndex ℚ}
    {docs : ℕ → Option (SparseVector ℚ)} (hrun : run docStep (.new, fun _ => none) ops = some (idx, docs))
    (query : SparseVector ℚ) (hlen : query.indices.length = query.values.length) (k : ℕ) :
    ∃ results, idx.search (exact R c) query k = .value results ∧ Best ScoredDoc.docID ScoredDoc.score k
      (Sharing docs query) (fun d => (docs d).elim 0 (dot query)) results := by
  have hstores : Stores idx docs := run_along (I := fun s => Stores s.1 s.2) (P := fun _ _ => True)
    (fun _ _ _ h _ hstep => h.step hstep) ⟨fun _ _ => rfl, fun _ _ h => by cases h⟩
    (along_of_forall (fun _ _ => trivial) _ _) hrun
  obtain ⟨scores, hscores, hnodup, hmem⟩ := scoreQuery_value (exact R c) idx hlen.le [] nodup_nil
  rw [InvertedIndex.search, hscores]
  refine best_firstK R hnodup (fun d => ?_) fun d => ?_
  · rw [hmem, hstores.matches_iff]
    simp
  · rw [sumOf_scoreQuery R c d idx hscores]
    simp only [hstores.values]
    cases docs d <;> simp [sumOf, dot]

/-! ## The fusion -/

def rrf (c : ℕ) (l : List (ScoredDoc ℚ)) (d : ℕ) : ℚ :=
  if d ∈ l.map ScoredDoc.docID then 1 / (c + (l.map ScoredDoc.docID).idxOf d + 1) else 0

theorem rrf_le (c : ℕ) {l : List (ScoredDoc ℚ)} {a b : ℕ}
    (h : (l.map ScoredDoc.docID).idxOf a ≤ (l.map ScoredDoc.docID).idxOf b) : rrf c l b ≤ rrf c l a := by
  unfold rrf
  by_cases hb : b ∈ l.map ScoredDoc.docID
  · rw [if_pos hb, if_pos (idxOf_lt_length_iff.mp (h.trans_lt (idxOf_lt_length_iff.mpr hb)))]
    refine one_div_le_one_div_of_le (by positivity) ?_
    have hcast : ((l.map ScoredDoc.docID).idxOf a : ℚ) ≤ (l.map ScoredDoc.docID).idxOf b := by exact_mod_cast h
    linarith
  · rw [if_neg hb]
    split_ifs
    · positivity
    · exact le_rfl

section Fuse

variable (R : Sorting) (c d : ℕ) {set : HybridResult ℚ → ℚ → HybridResult ℚ}
  (hset : ∀ r x, (set r x).docID = r.docID)
include hset

theorem sumOf_fuseDoc (rank : ℕ) (doc : ScoredDoc ℚ) (results : List (HybridResult ℚ)) :
    sumOf HybridResult.docID HybridResult.finalScore d (fuseDoc (exact R c) set rank doc results) =
      sumOf HybridResult.docID HybridResult.finalScore d results +
        if doc.docID = d then 1 / (c + rank + 1 : ℚ) else 0 := by
  induction results with
  | nil =>
    rw [fuseDoc, sumOf_cons]
    simp [hset, exact, Graph.Distance.zero, sumOf]
  | cons result results ih =>
    unfold fuseDoc
    split
    · rename_i hdoc
      by_cases hd : doc.docID = d
      · simp only [sumOf_cons, hset, exact, hdoc, hd, if_true]
        ring
      · simp [sumOf_cons, hset, hdoc, hd]
    · rw [sumOf_cons, sumOf_cons, ih]
      exact (add_assoc ..).symm

theorem sumOf_fuseDocs {docs : List (ScoredDoc ℚ)} (hnodup : (docs.map ScoredDoc.docID).Nodup) (n : ℕ)
    (results : List (HybridResult ℚ)) :
    sumOf HybridResult.docID HybridResult.finalScore d
      ((docs.zipIdx n).foldl (fun rs (doc, rank) => fuseDoc (exact R c) set rank doc rs) results) =
      sumOf HybridResult.docID HybridResult.finalScore d results + rrf (c + n) docs d := by
  induction docs generalizing n results with
  | nil => simp [rrf]
  | cons doc docs ih =>
    obtain ⟨hdoc, hdocs⟩ := nodup_cons.mp hnodup
    rw [zipIdx_cons, foldl_cons, ih hdocs, sumOf_fuseDoc R c d hset, add_assoc]
    congr 1
    unfold rrf
    by_cases hd : doc.docID = d
    · subst hd
      simp only [hdoc, if_true, if_false, map_cons, mem_cons_self, idxOf_cons_self]
      push_cast
      ring
    · simp only [hd, if_false, map_cons, mem_cons, Ne.symm hd, false_or, idxOf_cons_ne _ hd, zero_add]
      split_ifs <;> push_cast <;> ring

end Fuse

theorem fuseRRF_best (R : Sorting) (c k : ℕ) {dense sparse : List (ScoredDoc ℚ)}
    (hdense : (dense.map ScoredDoc.docID).Nodup) (hsparse : (sparse.map ScoredDoc.docID).Nodup) :
    ∃ results, fuseRRF (exact R c) dense sparse k = .value results ∧
      Best HybridResult.docID HybridResult.finalScore k
        {d | d ∈ dense.map ScoredDoc.docID ∨ d ∈ sparse.map ScoredDoc.docID}
        (fun d => rrf c dense d + rrf c sparse d) results := by
  obtain ⟨hfirst, hmemFirst⟩ := fuseDocs_spec (exact R c) docID_setDense dense [] nodup_nil
  obtain ⟨hnodup, hmem⟩ := fuseDocs_spec (exact R c) docID_setSparse sparse _ hfirst
  refine best_firstK R hnodup (fun d => ?_) fun d => ?_
  · rw [hmem, hmemFirst]
    simp [or_comm]
  · rw [fuseDocs, sumOf_fuseDocs R c d docID_setSparse hsparse 0, fuseDocs,
      sumOf_fuseDocs R c d docID_setDense hdense 0]
    simp [sumOf]

/-- **The fusion returns the best documents of both lists**, the scores do not change if the lists are
    swapped, and what stands at least as high in both lists scores at least as high. -/
theorem fuseRRF_ranked (R : Sorting) (c k : ℕ) (dense sparse : List (ScoredDoc ℚ))
    (hdense : (dense.map ScoredDoc.docID).Nodup) (hsparse : (sparse.map ScoredDoc.docID).Nodup) :
    ∃ results, fuseRRF (exact R c) dense sparse k = .value results ∧
      Best HybridResult.docID HybridResult.finalScore k
        {d | d ∈ dense.map ScoredDoc.docID ∨ d ∈ sparse.map ScoredDoc.docID}
        (fun d => rrf c dense d + rrf c sparse d) results ∧
      (∀ (k' : ℕ) swapped, fuseRRF (exact R c) sparse dense k' = .value swapped →
        ∀ r ∈ results, ∀ r' ∈ swapped, r.docID = r'.docID → r.finalScore = r'.finalScore) ∧
      ∀ r ∈ results, ∀ r' ∈ results, (∀ l ∈ [dense, sparse],
        (l.map ScoredDoc.docID).idxOf r.docID ≤ (l.map ScoredDoc.docID).idxOf r'.docID) →
          r'.finalScore ≤ r.finalScore := by
  obtain ⟨results, hresults, hbest⟩ := fuseRRF_best R c k hdense hsparse
  refine ⟨results, hresults, hbest, fun k' swapped hswapped r hr r' hr' hid => ?_, fun r hr r' hr' hrank => ?_⟩
  · obtain ⟨_, hother, hbest'⟩ := fuseRRF_best R c k' hsparse hdense
    cases hswapped.symm.trans hother
    rw [(hbest.scored r hr).2, (hbest'.scored r' hr').2, hid]
    exact add_comm _ _
  · rw [(hbest.scored r hr).2, (hbest.scored r' hr').2]
    exact add_le_add (rrf_le c (hrank dense mem_cons_self))
      (rrf_le c (hrank sparse (mem_cons_of_mem _ mem_cons_self)))

/-! ## One document -/

def mergeSorting : Sorting where
  sort score l := l.mergeSort fun a b => decide (score b ≤ score a)
  perm _ l := mergeSort_perm l _
  sorted score l := (pairwise_mergeSort (fun a b c h h' =>
      decide_eq_true ((of_decide_eq_true h').trans (of_decide_eq_true h)))
    (fun a b => by simpa using le_total (score b) (score a)) l).imp of_decide_eq_true

/-- Three documents, of which one shares no index with the query and one comes again after a remove. -/
def threeDocs : List DocOp :=
  [.add 3 ⟨[1, 4], [2, 1]⟩, .add 5 ⟨[4], [9]⟩, .add 7 ⟨[6], [1]⟩, .remove 5, .add 5 ⟨[1], [1]⟩]

theorem search_ranked_docs : ∃ idx docs results,
    run docStep (.new, fun _ => none) threeDocs = some (idx, docs) ∧
    idx.search (exact mergeSorting 0) ⟨[1, 4], [5, 2]⟩ 2 = .value results ∧
    Best ScoredDoc.docID ScoredDoc.score 2 (Sharing docs ⟨[1, 4], [5, 2]⟩)
      (fun d => (docs d).elim 0 (dot ⟨[1, 4], [5, 2]⟩)) results := by
  obtain ⟨results, h⟩ := search_ranked mergeSorting 0 threeDocs rfl ⟨[1, 4], [5, 2]⟩ rfl 2
  exact ⟨_, _, results, rfl, h⟩

/-- Two lists that have two documents in common. -/
theorem fuseRRF_ranked_docs : ∃ results,
    fuseRRF (exact mergeSorting 60) [⟨1, 9⟩, ⟨2, 8⟩, ⟨3, 7⟩] [⟨3, 5⟩, ⟨1, 4⟩, ⟨8, 2⟩] 2 = .value results ∧
      Best HybridResult.docID HybridResult.finalScore 2 {d | d ∈ [1, 2, 3] ∨ d ∈ [3, 1, 8]}
        (fun d => rrf 60 [⟨1, 9⟩, ⟨2, 8⟩, ⟨3, 7⟩] d + rrf 60 [⟨3, 5⟩, ⟨1, 4⟩, ⟨8, 2⟩] d) results := by
  obtain ⟨results, h, hbest, -⟩ := fuseRRF_ranked mergeSorting 60 2 [⟨1, 9⟩, ⟨2, 8⟩, ⟨3, 7⟩]
    [⟨3, 5⟩, ⟨1, 4⟩, ⟨8, 2⟩] (by decide) (by decide)
  exact ⟨results, h, hbest⟩

end LimyeDB.Hybrid
