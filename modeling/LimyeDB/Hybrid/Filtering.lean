/-
  FILTERED SEARCHES: which points a search with a filter returns, alone and fused with the results of a sparse
  query.

  The sparse index knows nothing of the filter, and the fusion does not look again.
-/
import LimyeDB.Hybrid.Effects
import LimyeDB.Hybrid.Vectors
import LimyeDB.Graph.Valid

namespace LimyeDB.Hybrid

open Go Hnsw Lib Lib.Runs List Outcome
open LimyeDB.Graph (Index Tools Distance VisitedList Candidate Passes passesFilter)
open LimyeDB.Collection (Error)

variable {F P D Q C S : Type} [Distance D]

/-! ## The dense search -/

section Dense

variable {T : Tools F D Q C S} {h : Index F P Q C S} {query : List F}
  {params : Graph.SearchParams P D} {l l' : List (Candidate D)}

theorem dropWorst_subset (hdrop : Graph.dropWorst l = .value l') : l' ⊆ l := by
  unfold Graph.dropWorst at hdrop
  split at hdrop
  · rename_i c results hpop
    cases hdrop
    exact fun x hx => (Heap.pop_perm hpop).mem_iff.mpr (mem_cons_of_mem _ hx)
  · cases hdrop

variable {ef : Int}

theorem dropWhileLonger_subset {fuel : ℕ} (hdrop : Graph.dropWhileLonger ef fuel l = .value l') :
    l' ⊆ l := by
  induction fuel generalizing l with
  | zero =>
    cases hdrop
    exact List.Subset.refl _
  | succ fuel ih =>
    unfold Graph.dropWhileLonger at hdrop
    split at hdrop
    · obtain ⟨l₁, hone, hrest⟩ := bind_eq_value.mp hdrop
      exact List.Subset.trans (ih hrest) (dropWorst_subset hone)
    · cases hdrop
      exact List.Subset.refl _

theorem filterResults_passes {node : Node F P} {c : Candidate D}
    (hnode : h.nodes[c.id]? = some (some node)) (hl : ∀ x ∈ l, Passes h params x.id)
    (hres : Graph.filterResults params ef node c l = .value l') :
    ∀ x ∈ l', Passes h params x.id := by
  obtain ⟨passes, hpass, hres⟩ := bind_eq_value.mp hres
  cases passes with
  | false =>
    cases hres
    exact hl
  | true =>
    simp only [Bool.not_true, Bool.false_eq_true, if_false] at hres
    split at hres
    · cases hres
      exact hl
    · obtain ⟨better, -, hres⟩ := bind_eq_value.mp hres
      split at hres
      · intro x hx
        have hx := (Heap.push_perm l c).mem_iff.mp (dropWhileLonger_subset hres hx)
        rcases mem_cons.mp hx with rfl | hx
        · exact ⟨node, hnode, hpass⟩
        · exact hl x hx
      · cases hres
        exact hl

theorem searchLayerWithFilter_passes {visited : VisitedList} {entryID layer : ℕ}
    (hsearch : Graph.searchLayerWithFilter T h query visited entryID ef layer params = .value l) :
    ∀ c ∈ l, Passes h params c.id := by
  obtain ⟨entryDist, -, hsearch⟩ := bind_eq_value.mp hsearch
  obtain ⟨entryNode, hentry, hsearch⟩ := bind_eq_value.mp hsearch
  obtain ⟨passes, hpasses, hsearch⟩ := bind_eq_value.mp hsearch
  obtain ⟨results, hexplore, hret⟩ := bind_eq_value.mp hsearch
  cases hret
  have hall : ∀ c ∈ results, Passes h params c.id := by
    refine Explore.explore_keeps (I := fun found => ∀ c ∈ found, Passes h params c.id) ?_ ?_ hexplore
    · intro i fr found fr' found' hfound hcons
      obtain ⟨node, hnode, hcons⟩ := bind_eq_value.mp hcons
      split at hcons
      · cases hcons
        exact hfound
      · obtain ⟨dist, -, hcons⟩ := bind_eq_value.mp hcons
        obtain ⟨near, -, hcons⟩ := bind_eq_value.mp hcons
        obtain ⟨found₁, hres, hret⟩ := bind_eq_value.mp hcons
        cases hret
        exact filterResults_passes (Graph.nodeAt_value hnode) hfound hres
    · split
      · rename_i hpass
        intro c hc
        have hc := (Heap.push_perm [] (⟨entryID, entryDist⟩ : Candidate D)).mem_iff.mp hc
        cases mem_singleton.mp hc
        obtain ⟨rfl, -⟩ := Bool.and_eq_true_iff.mp hpass
        exact ⟨entryNode, Graph.nodeAt_value hentry, hpasses⟩
      · exact nofun
  exact fun c hc => hall c ((Graph.sortedResults_perm results).mem_iff.mp hc)

theorem rescore_ids (hre : Graph.rescore T h query l = .value l') :
    ∀ c' ∈ l', ∃ c ∈ l, c'.id = c.id := by
  unfold Graph.rescore at hre
  split at hre
  · cases hre
    exact fun c hc => ⟨c, hc, rfl⟩
  · obtain ⟨l₁, hmap, hret⟩ := bind_eq_value.mp hre
    cases hret
    intro c' hc'
    obtain ⟨c, hc, hone⟩ := mem_of_mapM hmap ((T.sort_perm l₁).mem_iff.mp hc')
    obtain ⟨dist, -, hret⟩ := bind_eq_value.mp hone
    cases hret
    exact ⟨c, hc, rfl⟩

theorem searchWithFilter_passes {visited : VisitedList}
    (hsearch : Graph.searchWithFilter T h query visited params = .value l) :
    ∀ c ∈ l, Passes h params c.id := by
  unfold Graph.searchWithFilter at hsearch
  split at hsearch
  · cases hsearch
  · split at hsearch
    · cases hsearch
      exact nofun
    · have hsearch := mapError_eq_value hsearch
      obtain ⟨currNode, -, hsearch⟩ := bind_eq_value.mp hsearch
      obtain ⟨found, hlayer, hsearch⟩ := bind_eq_value.mp hsearch
      obtain ⟨ranked, hre, htop⟩ := bind_eq_value.mp hsearch
      have hsub : l ⊆ ranked := by
        unfold Graph.topK at htop
        split at htop
        · split at htop
          · cases htop
          · cases htop
            exact take_subset ..
        · cases htop
          exact List.Subset.refl _
      intro c hc
      obtain ⟨c₀, hc₀, hid⟩ := rescore_ids hre c (hsub hc)
      rw [hid]
      exact searchLayerWithFilter_passes hlayer c₀ hc₀

end Dense

/-! ## The points of the results -/

section Points

variable {T : Tools F D Q C S} {h : Index F P Q C S} {params : SearchParams F P}
  {name : Bytes → Point F P → Bytes} {docs : List (ℕ × D)} {points : List (ScoredPoint F P D)}

def FoundAt (T : Tools F D Q C S) (h : Index F P Q C S) (i : ℕ) (id : Bytes) (pt : Point F P) :
    Prop :=
  getPointID h i = .value id ∧ Hnsw.get T.mmap h id = .value pt

theorem mem_pointsAt (hpoints : pointsAt T h params name docs = .value points)
    (sp : ScoredPoint F P D) :
    sp ∈ points ↔ ∃ doc ∈ docs, ∃ id pt, FoundAt T h doc.1 id pt ∧
      sp = ScoredPoint.of params (name id pt) doc.2 pt := by
  induction docs generalizing points with
  | nil =>
    cases hpoints
    simp
  | cons doc docs ih =>
    obtain ⟨i, score⟩ := doc
    obtain ⟨id, hid, hpoints⟩ := bind_eq_value.mp hpoints
    rw [exists_mem_cons_iff]
    cases hget : (Hnsw.get T.mmap h id : Outcome IndexError (Point F P)) with
    | panic =>
      rw [hget] at hpoints
      cases hpoints
    | error e =>
      rw [hget] at hpoints
      rw [ih hpoints]
      refine ⟨.inr, fun hor => hor.resolve_left ?_⟩
      rintro ⟨id', pt, ⟨hid', hget'⟩, -⟩
      cases hid.symm.trans hid'
      cases hget.symm.trans hget'
    | value pt =>
      rw [hget] at hpoints
      obtain ⟨rest, hrest, hret⟩ := bind_eq_value.mp hpoints
      cases hret
      rw [mem_cons, ih hrest]
      refine or_congr_left ⟨fun heq => ⟨id, pt, ⟨hid, hget⟩, heq⟩, ?_⟩
      rintro ⟨id', pt', ⟨hid', hget'⟩, heq⟩
      cases hid.symm.trans hid'
      cases hget.symm.trans hget'
      exact heq

theorem foundAt_iff (hx : Indexed h) {i : ℕ} {node : Node F P}
    (hnode : h.nodes[i]? = some (some node)) {id : Bytes} {pt : Point F P} :
    FoundAt T h i id pt ↔ id = node.id ∧ node.deleted = false ∧
      pt = ⟨node.id, getVector T.mmap h node, node.payload, [], none⟩ := by
  have hid : h.idToIndex node.id = some i := (hx node.id i).mpr ⟨node, hnode, rfl⟩
  have hpoint : getPointID h i = .value node.id := by
    unfold getPointID
    rw [hnode]
  have hget : (Hnsw.get T.mmap h node.id : Outcome IndexError (Point F P)) =
      if node.deleted then .error .pointNotFound
      else .value ⟨node.id, getVector T.mmap h node, node.payload, [], none⟩ := by
    unfold Hnsw.get
    rw [hid]
    simp only [hnode]
  unfold FoundAt
  rw [hpoint]
  constructor
  · rintro ⟨hv, hg⟩
    cases hv
    rw [hget] at hg
    split at hg
    · cases hg
    · rename_i hlive
      cases hg
      exact ⟨rfl, Bool.eq_false_iff.mpr hlive, rfl⟩
  · rintro ⟨rfl, hlive, rfl⟩
    rw [hget, hlive]
    exact ⟨rfl, rfl⟩

theorem Listed.node_of_foundAt (hl : Listed h) {i : ℕ} {id : Bytes} {pt : Point F P}
    (hfound : FoundAt T h i id pt) : ∃ node, h.nodes[i]? = some (some node) := by
  obtain ⟨hid, hget⟩ := hfound
  unfold getPointID at hid
  split at hid
  · cases hid
    obtain ⟨hmem, hnil⟩ := (Graph.get_eq_iff hl.indexed [] pt).mp hget
    obtain ⟨j, node, hnode, -, rfl⟩ := Graph.mem_livePoints.mp hmem
    exact absurd hnil (hl.named node (mem_of_getElem? hnode))
  · cases hid
  · rename_i node hnode
    exact ⟨node, hnode⟩

omit [Distance D] in
theorem get_ne_panic {G : Type} {m : VectorMmap F S} {h : HNSW F P G S} (hx : Indexed h) (id : Bytes) :
    Hnsw.get m h id ≠ .panic := by
  intro hget
  unfold Hnsw.get at hget
  split at hget
  · cases hget
  · rename_i j hj
    obtain ⟨node, hnode, -⟩ := (hx id j).mp hj
    simp only [hnode] at hget
    split at hget
    · cases hget
    · cases hget

theorem Listed.pointsAt_returns (hl : Listed h) (params : SearchParams F P)
    (name : Bytes → Point F P → Bytes) (docs : List (ℕ × D)) :
    ∃ points, pointsAt T h params name docs = .value points := by
  induction docs with
  | nil => exact ⟨[], rfl⟩
  | cons doc docs ih =>
    obtain ⟨i, score⟩ := doc
    obtain ⟨rest, hrest⟩ := ih
    have hid : ∃ id, getPointID h i = .value id := by
      unfold getPointID
      rcases Nat.lt_or_ge i h.nodes.length with hlt | hge
      · obtain ⟨node, hnode⟩ := hl.node i hlt
        exact ⟨node.id, by rw [hnode]⟩
      · exact ⟨[], by rw [getElem?_eq_none hge]⟩
    obtain ⟨id, hid⟩ := hid
    unfold pointsAt
    rw [hid, value_bind]
    cases hget : (Hnsw.get T.mmap h id : Outcome IndexError (Point F P)) with
    | error e => exact ⟨rest, hrest⟩
    | value pt => exact ⟨_, by simp only [hrest, value_bind]; rfl⟩
    | panic => exact absurd hget (get_ne_panic hl.indexed id)

end Points

/-! ## The fusion -/

/-- **What a caller expects of a filter**: every point that is returned is in the index and passes. -/
def Conforms (T : Tools F D Q C S) (h : Index F P Q C S) (f : Option P → Outcome Empty Bool)
    (points : List (ScoredPoint F P D)) : Prop :=
  ∀ sp ∈ points, ∃ pt, Hnsw.get T.mmap h sp.id = .value pt ∧ f pt.payload = .value true

/-- **The condition**: a sparse query that can be read matches no live node that does not pass. -/
def Harmless (h : Index F P Q C S) (sparseIdx : InvertedIndex F) (f : Option P → Outcome Empty Bool)
    (sparse : Option (SparseVector F)) : Prop :=
  ∀ vec, sparse = some vec → vec.indices.length ≤ vec.values.length →
    ∀ i node, sparseIdx.Matches vec.indices i → h.nodes[i]? = some (some node) →
      node.deleted = false → f node.payload = .value true

section Fusion

variable {K : Kit F P D Q C S} {T : Tools F D Q C S} {h : Index F P Q C S}
  {sparseIdx : InvertedIndex F} {visited : VisitedList} {query : List F}
  {params : SearchParams F P} {f : Option P → Outcome Empty Bool} {points fused : List (ScoredPoint F P D)}

theorem densePoints_conform (hx : Indexed h) (hfilter : params.Filter = some f)
    {candidates : List (Candidate D)}
    (hcand : denseCandidates T h visited query params = .value candidates)
    (hpoints : densePoints K T h params candidates = .value points) : Conforms T h f points := by
  intro sp hsp
  obtain ⟨doc, hdoc, id, pt, hfound, rfl⟩ := (mem_pointsAt hpoints sp).mp hsp
  obtain ⟨c, hc, rfl⟩ := mem_map.mp hdoc
  unfold denseCandidates at hcand
  rw [hfilter] at hcand
  obtain ⟨node, hnode, hpass⟩ := searchWithFilter_passes hcand c hc
  obtain ⟨rfl, -, rfl⟩ := (foundAt_iff hx hnode).mp hfound
  exact ⟨_, hfound.2, hpass⟩

theorem fusePoints_cases {vec : SparseVector F} (hsparse : params.SparseQuery = some vec)
    (hfuse : fusePoints K T h sparseIdx params points = .value fused) :
    vec.indices.length ≤ vec.values.length ∧ ∃ docs : List (ℕ × D),
      pointsAt T h params (fun id _ => id) docs = .value fused ∧
      ∀ doc ∈ docs, sparseIdx.Matches vec.indices doc.1 ∨
        ∃ sp ∈ points, h.idToIndex sp.id = some doc.1 := by
  unfold fusePoints at hfuse
  rw [hsparse] at hfuse
  obtain ⟨sparseMatches, hsearch, hfuse⟩ := bind_eq_value.mp hfuse
  obtain ⟨fusedDocs, hrrf, hpoints⟩ := bind_eq_value.mp hfuse
  rcases search_eq K.toScores sparseIdx vec params.K with ⟨-, hpanic⟩ |
    ⟨hlen, docs, hdocs, -, hmatch⟩
  · cases hpanic.symm.trans hsearch
  refine ⟨hlen, _, hpoints, fun doc hdoc => ?_⟩
  obtain ⟨fd, hfd, rfl⟩ := mem_map.mp hdoc
  obtain ⟨results, hresults, -, hfrom⟩ := fuseRRF_eq K.toScores (denseMatches h points)
    sparseMatches params.K
  rw [hresults] at hrrf
  rw [hdocs] at hsearch
  rcases (hfrom fd.docID).mp (mem_map_of_mem (firstK_subset hrrf hfd)) with hs | hd
  · obtain ⟨sd, hsd, hid⟩ := mem_map.mp hs
    rw [← hid]
    exact .inl ((hmatch _).mp (mem_map_of_mem (firstK_subset hsearch hsd)))
  · obtain ⟨sd, hsd, hid⟩ := mem_map.mp hd
    obtain ⟨sp, hsp, heq⟩ := mem_filterMap.mp hsd
    obtain ⟨i, hi, rfl⟩ := Option.map_eq_some_iff.mp heq
    exact .inr ⟨sp, hsp, hid ▸ hi⟩

/-- **A search on one index** returns only points that pass, if those that the sparse query leads
    to do. -/
theorem searchIndex_conforms (hx : Indexed h) (hfilter : params.Filter = some f)
    (hmatches : ∀ vec, params.SparseQuery = some vec → vec.indices.length ≤ vec.values.length →
      ∀ i id pt, sparseIdx.Matches vec.indices i → FoundAt T h i id pt →
        f pt.payload = .value true)
    (hsearch : searchIndex K T h sparseIdx visited query params = .value fused) :
    Conforms T h f fused := by
  obtain ⟨candidates, hcand, hsearch⟩ := bind_eq_value.mp hsearch
  obtain ⟨points, hpoints, hfuse⟩ :=
    bind_eq_value.mp (mapError_eq_value hsearch)
  have hdense := densePoints_conform hx hfilter hcand hpoints
  cases hsparse : params.SparseQuery with
  | none =>
    unfold fusePoints at hfuse
    rw [hsparse] at hfuse
    cases hfuse
    exact hdense
  | some vec =>
    obtain ⟨hlen, docs, hdocs, hfrom⟩ := fusePoints_cases hsparse hfuse
    intro sp hsp
    obtain ⟨doc, hdoc, id, pt, hfound, rfl⟩ := (mem_pointsAt hdocs sp).mp hsp
    refine ⟨pt, hfound.2, ?_⟩
    rcases hfrom doc hdoc with hmatch | ⟨sp', hsp', hid⟩
    · exact hmatches vec hsparse hlen doc.1 id pt hmatch hfound
    · -- The dense result is of the same node, and it passes.
      obtain ⟨pt', hget', hpass⟩ := hdense sp' hsp'
      obtain ⟨node, hnode, hid'⟩ := (hx sp'.id doc.1).mp hid
      obtain ⟨rfl, -, -⟩ := (foundAt_iff hx hnode).mp hfound
      rw [← hid'] at hget'
      cases hfound.2.symm.trans hget'
      exact hpass

theorem Harmless.passes (hharmless : Harmless h sparseIdx f params.SparseQuery) (hl : Listed h)
    {vec : SparseVector F} (hsparse : params.SparseQuery = some vec)
    (hlen : vec.indices.length ≤ vec.values.length) {i : ℕ} {id : Bytes} {pt : Point F P}
    (hmatch : sparseIdx.Matches vec.indices i) (hfound : FoundAt T h i id pt) :
    f pt.payload = .value true := by
  obtain ⟨node, hnode⟩ := hl.node_of_foundAt hfound
  obtain ⟨-, hlive, rfl⟩ := (foundAt_iff hl.indexed hnode).mp hfound
  exact hharmless vec hsparse hlen i node hmatch hnode hlive

end Fusion

/-! ## Asking for everything -/

section Everything

variable {K : Kit F P D Q C S} {T : Tools F D Q C S} {h : Index F P Q C S}
  {sparseIdx : InvertedIndex F} {query : List F} {f : Option P → Outcome Empty Bool}
  {vec : SparseVector F}

/-- The filter can judge every payload of the index. -/
def Judges (f : Option P → Outcome Empty Bool) (h : Index F P Q C S) : Prop :=
  ∀ node, some node ∈ h.nodes → ∃ b, f node.payload = .value b

theorem Judges.evaluates (hf : Judges f h) (params : SearchParams F P) (layer entry : ℕ) :
    Graph.Evaluates h (params.filtered f : Graph.SearchParams P D) layer entry :=
  fun _ node _ hnode => hf node (mem_of_getElem? hnode)

omit [Distance D] in
theorem firstK_all {α : Type} {g : α → ℕ} {l : List α} {n : ℕ} (hnodup : (l.map g).Nodup)
    (hle : ∀ i ∈ l.map g, i ≤ n) : firstK (n + 1) l = .value l := by
  have hcard := toFinset_card_of_nodup hnodup
  have hsub : (l.map g).toFinset ⊆ Finset.range (n + 1) := by
    intro i hi
    exact Finset.mem_range_succ_iff.mpr (hle i (mem_toFinset.mp hi))
  have hlen := Finset.card_le_card hsub
  rw [hcard, length_map, Finset.card_range] at hlen
  rw [firstK_eq, if_neg (by omega), take_of_length_le (by omega)]

/-- Counts far from overflow widen to positive ones. -/
theorem width_pos (T : Tools F D Q C S) (h : Index F P Q C S) {K ef : Int} (hK : 0 ≤ K) (hef : 0 < ef)
    (hKsmall : 30 * K < 9223372036854775808) (hsmall : 30 * ef < 9223372036854775808) (sel : Option ℚ) :
    let width := Graph.overFetch h (if ef < K then K else ef)
    0 < width ∧ 0 < Graph.calculateAdaptiveEf T width (Graph.selectivity sel) := by
  obtain ⟨n, hn, hpos, hsmall⟩ : ∃ n, (if ef < K then K else ef) = n ∧ 0 < n ∧
      30 * n < 9223372036854775808 := by
    split
    · exact ⟨_, rfl, by omega, hKsmall⟩
    · exact ⟨_, rfl, hef, hsmall⟩
  rw [hn]
  obtain ⟨hle, htwice⟩ : n ≤ Graph.overFetch h n ∧ Graph.overFetch h n ≤ 2 * n :=
    Graph.le_overFetch h (by omega) (by omega)
  have hwidens : Graph.Widens T 1 (Graph.overFetch h n) (Graph.selectivity sel) :=
    Graph.widens_of_small T (by omega) (by omega) (by omega) _
  exact ⟨by omega, hwidens.le⟩

theorem searchWithFilter_returns (hs : Graph.Sound h) (hdim : query.length = h.dimension)
    (visited : VisitedList) {params : Graph.SearchParams P D}
    (heval : ∀ s, Graph.Evaluates h params 0 s) (hK : 0 ≤ params.K)
    (hEf : 0 < params.Ef) (hKsmall : 30 * params.K < 9223372036854775808)
    (hEfsmall : 30 * params.Ef < 9223372036854775808) :
    ∃ cs, Graph.searchWithFilter T h query visited params = .value cs := by
  by_cases hne : h.maxLevel = -1
  · unfold Graph.searchWithFilter
    rw [if_neg (not_not.mpr hdim), if_pos hne]
    exact ⟨[], rfl⟩
  · obtain ⟨s, -, -, hstart⟩ := Graph.layer0Start_spec T query hs hne
    rcases Graph.searchWithFilter_spec hs hdim hne hstart visited params rfl rfl with
      ⟨cs, hcall, -, -⟩ | ⟨hwidth, -⟩
    · rw [hcall, Graph.topK_value hK]
      exact ⟨_, rfl⟩
    · obtain ⟨hpos, hpos'⟩ := width_pos T h hK hEf hKsmall hEfsmall params.EstimatedSelectivity
      exact absurd ⟨hpos, .inr hpos', heval s⟩ hwidth

def everything (h : Index F P Q C S) (f : Option P → Outcome Empty Bool) (vec : SparseVector F) :
    SearchParams F P :=
  ⟨h.nodes.length + 1, 0, some f, false, false, some vec⟩

theorem everything_found (hg : Graph.Good h) (hl : Listed h) (hf : Judges f h) (hdim : query.length = h.dimension)
    (hlen : vec.indices.length ≤ vec.values.length)
    (hnumbers : ∀ i, sparseIdx.Matches vec.indices i → i ≤ h.nodes.length)
    (visited : VisitedList) : ∃ fused,
      searchIndex K T h sparseIdx visited query (everything h f vec) = .value fused ∧
      ∀ i node, sparseIdx.Matches vec.indices i → h.nodes[i]? = some (some node) →
        node.deleted = false → ∃ sp ∈ fused, sp.id = node.id := by
  have hlimit := hg.limit
  unfold maxNodes at hlimit
  have hdense : ∃ cs, denseCandidates T h visited query (everything h f vec) = .value cs := by
    refine searchWithFilter_returns hg.base.sound hdim visited (hf.evaluates _ 0) ?_ ?_ ?_ ?_
    · simp only [everything, SearchParams.filtered]
      omega
    · simp [everything, SearchParams.filtered, SearchParams.ef]
    · simp only [everything, SearchParams.filtered]
      omega
    · simp [everything, SearchParams.filtered, SearchParams.ef]
  obtain ⟨cs, hdense⟩ := hdense
  obtain ⟨points, hpoints⟩ := hl.pointsAt_returns (everything h f vec) (fun _ p => p.id)
    (cs.map fun c => (c.id, K.similarity c.distance))
  rcases search_eq K.toScores sparseIdx vec (h.nodes.length + 1) with ⟨hshort, -⟩ |
    ⟨-, docs, hdocs, hnodup, hmatch⟩
  · omega
  rw [firstK_all hnodup fun i hi => hnumbers i ((hmatch i).mp hi)] at hdocs
  obtain ⟨results, hresults, hnodup', hfrom⟩ := fuseRRF_eq K.toScores (denseMatches h points)
    docs (h.nodes.length + 1)
  have hrange : ∀ i ∈ results.map HybridResult.docID, i ≤ h.nodes.length := by
    intro i hi
    rcases (hfrom i).mp hi with hs | hd
    · exact hnumbers i ((hmatch i).mp hs)
    · obtain ⟨sd, hsd, rfl⟩ := mem_map.mp hd
      obtain ⟨sp, -, heq⟩ := mem_filterMap.mp hsd
      obtain ⟨j, hj, rfl⟩ := Option.map_eq_some_iff.mp heq
      obtain ⟨node, hnode, -⟩ := (hl.indexed sp.id j).mp hj
      exact (List.getElem?_eq_some_iff.mp hnode).1.le
  rw [firstK_all hnodup' hrange] at hresults
  obtain ⟨fused, hfused⟩ := hl.pointsAt_returns (everything h f vec) (fun id _ => id)
    (results.map fun fd => (fd.docID, fd.finalScore))
  refine ⟨fused, ?_, fun i node hi hnode hlive => ?_⟩
  · have hone : densePoints K T h (everything h f vec) cs = .value points := hpoints
    unfold searchIndex
    simp only [hdense, hone, value_bind]
    unfold fusePoints
    simp only [everything, hdocs, value_bind, hresults]
    exact congrArg Graph.lift hfused
  · obtain ⟨fd, hfd, rfl⟩ := mem_map.mp ((hfrom i).mpr (.inl ((hmatch i).mpr hi)))
    have hfound := (foundAt_iff (T := T) hl.indexed hnode).mpr ⟨rfl, hlive, rfl⟩
    exact ⟨_, (mem_pointsAt hfused _).mpr ⟨_, mem_map_of_mem hfd, _, _, hfound, rfl⟩, rfl⟩

end Everything

/-! ## The numbers of postings -/

/-- A posting is of a node of the default index, or of the first one to come. -/
def Numbered (c : Collection F P D Q C S) : Prop :=
  ∀ dimIdx, ∀ q ∈ c.sparseIdx.postingLists dimIdx,
    ∃ h, c.index = some h ∧ q.docID ≤ h.nodes.length

section Numbered

variable {K : Kit F P D Q C S} {c c' : Collection F P D Q C S} {p : Point F P}

variable {h : Index F P Q C S}

theorem act_grows {T : Tools F D Q C S} {h' : Index F P Q C S} {a : Graph.Action F P}
    {e : Option IndexError} (hact : Graph.act T h a = .value (h', e)) :
    h.nodes.length ≤ h'.nodes.length := by
  cases a with
  | insert p visited =>
    have hins : Graph.Inserted T h p h' e := Graph.insert_cases hact
    cases e with
    | some err => rw [hins.idle.nodes]
    | none =>
      rw [hins.store.2.2.2.1, length_append]
      exact Nat.le_add_right ..
  | delete id =>
    unfold Graph.act at hact
    simp only at hact
    split at hact
    · rename_i hdel
      cases hact
      obtain ⟨i, node, -, -, ⟨-, rfl⟩ | ⟨-, rfl⟩⟩ := Graph.marked_of_delete hdel
      · exact le_rfl
      · exact (length_set ..).ge
    · cases hact
      exact le_rfl
    · cases hact
  | setEfSearch ef =>
    cases hact
    exact le_rfl

theorem grows_of_evolves (hev : Evolves K c c') (hindex : c.index = some h) :
    ∃ h', c'.index = some h' ∧ h.nodes.length ≤ h'.nodes.length := by
  obtain ⟨h', actions, hindex', hrun, -⟩ := hev.some h hindex
  refine ⟨h', hindex', ?_⟩
  refine run_induct (I := fun s => h.nodes.length ≤ s.nodes.length) ?_ le_rfl hrun
  intro s a s' hs hstep
  obtain ⟨e, hact⟩ := Graph.act_of_step hstep
  exact hs.trans (act_grows hact)

theorem Numbered.evolves (hn : Numbered c) (hev : Evolves K c c')
    (hnew : ∀ dimIdx, ∀ q ∈ c'.sparseIdx.postingLists dimIdx, q ∈ c.sparseIdx.postingLists dimIdx ∨
        ∃ h, c'.index = some h ∧ q.docID ≤ h.nodes.length) : Numbered c' := by
  intro dimIdx q hq
  rcases hnew dimIdx q hq with hold | hnow
  · obtain ⟨h, hindex, hle⟩ := hn dimIdx q hold
    obtain ⟨h', hindex', hgrow⟩ := grows_of_evolves hev hindex
    exact ⟨h', hindex', hle.trans hgrow⟩
  · exact hnow

variable [Scalar F]

theorem insertInternal_postings {e : Option (Error F)}
    (hins : insertInternal K c p = .value (c', e)) : c'.sparseIdx = c.sparseIdx ∨
      ∃ h vec, c'.index = some h ∧
        c.sparseIdx.add ((h.idToIndex p.id).getD 0) vec = .value c'.sparseIdx := by
  refine insertInternal_keeps (I := fun s => s.sparseIdx = c.sparseIdx)
    (J := fun s => s.sparseIdx = c.sparseIdx ∨ ∃ h vec, s.index = some h ∧
      c.sparseIdx.add ((h.idToIndex p.id).getD 0) vec = .value s.sparseIdx) (fun c₁ _ hdef => ?_)
    (fun c₁ c₂ _ hI hn => ?_) (fun c₁ c₂ _ hI hrest => ?_) (fun c₁ hI => ?_) hins
  · rcases insertDefault_cases hdef with ⟨rfl, -⟩ | ⟨h₀, h₁, err, -, -, -, -, rfl, -⟩
    · rfl
    · rfl
  · rw [insertNamed_frame hn]
    exact hI
  · obtain ⟨-, h₀, hindex, sparseIdx, hadd, rfl⟩ := insertRest_cases hrest
    cases hs : p.sparse with
    | none =>
      rw [hs] at hadd
      exact .inl (hadd.trans hI)
    | some vec =>
      rw [hs] at hadd
      exact .inr ⟨h₀, vec, hindex, hI ▸ hadd⟩
  · exact .inl hI

theorem insertV2_frame {names : List Bytes} {e : Option (VectorError F)}
    (hins : insertV2 K c names p = .value (c', e)) :
    c' = { c with index := c'.index, indices := c'.indices, payloads := c'.payloads } := by
  refine insertV2_keeps (I := fun s => s = { c with
    index := s.index, indices := s.indices, payloads := s.payloads }) rfl
    (fun c₁ _ hvec => by rw [insertVectors_frame hvec]) (fun c₁ c₂ _ hI hdef => ?_)
    (fun c₁ payloads hI => by rw [hI]) (fun _ hleg => ?_) hins
  · rw [insertDefaultVector_frame hdef, hI]
  · rcases insertLegacy_cases hleg with rfl | ⟨vec, h₀, h₁, err, payloads, -, -, -, -, rfl⟩
    · rfl
    · rfl

omit [Distance D] [Scalar F] in
theorem mem_removeSparse {sparseIdx : InvertedIndex F} {id : Bytes} {dimIdx : UInt32}
    {q : Posting F} (hq : q ∈ (removeSparse h sparseIdx id).postingLists dimIdx) :
    q ∈ sparseIdx.postingLists dimIdx := by
  unfold removeSparse at hq
  split at hq
  · exact ((mem_remove ..).mp hq).1
  · exact hq

/-- What every history keeps of the default index and the postings. -/
structure InPlace (K : Kit F P D Q C S) (c₀ c : Collection F P D Q C S) : Prop where
  evolves : Evolves K c₀ c
  listed : ∀ h, c.index = some h → Listed h
  numbered : Numbered c

omit [Scalar F] in
theorem InPlace.next {c₀ : Collection F P D Q C S} (hI : InPlace K c₀ c) (hev : Evolves K c c')
    (hnew : ∀ dimIdx, ∀ q ∈ c'.sparseIdx.postingLists dimIdx, q ∈ c.sparseIdx.postingLists dimIdx ∨
        ∃ h, c'.index = some h ∧ q.docID ≤ h.nodes.length) : InPlace K c₀ c' := by
  refine ⟨hI.evolves.trans hev, fun h' hindex' => ?_, hI.numbered.evolves hev hnew⟩
  cases hindex : c.index with
  | none => cases (hev.none hindex).symm.trans hindex'
  | some h =>
    obtain ⟨h₁, hindex₁, hl⟩ := listed_of_evolves hev hindex (hI.listed h hindex)
    cases hindex₁.symm.trans hindex'
    exact hl

theorem kept_inPlace (c₀ : Collection F P D Q C S) : Kept K (InPlace K c₀) where
  frame _ _ _ hI := hI.next (evolves_of_eq rfl rfl) fun _ _ hq => .inl hq
  insert c p c' e hI hval hins := by
    have hev := insertInternal_evolves (id_ne_nil_of_validate hval) hins
    refine hI.next hev fun dimIdx q hq => ?_
    rcases insertInternal_postings hins with heq | ⟨h', vec, hindex', hadd⟩
    · exact .inl (heq ▸ hq)
    · have hbefore : InPlace K c₀ { c' with sparseIdx := c.sparseIdx } :=
        hI.next (hev.trans (evolves_of_eq rfl rfl)) fun _ _ hq => .inl hq
      have hl : Listed h' := hbefore.listed h' hindex'
      rw [add_eq] at hadd
      split at hadd
      · injection hadd with hadd
        rw [← hadd] at hq
        refine (mem_append.mp hq).imp_right fun hq => ⟨h', hindex', ?_⟩
        obtain ⟨x, -, rfl⟩ := mem_map.mp hq
        cases hid : h'.idToIndex p.id with
        | none => exact Nat.zero_le _
        | some i =>
          obtain ⟨node, hnode, -⟩ := (hl.indexed p.id i).mp hid
          exact (List.getElem?_eq_some_iff.mp hnode).1.le
      · cases hadd
  insertV2 c names p c' e hI hins := by
    refine hI.next (insertV2_evolves hins) fun dimIdx q hq => .inl ?_
    rw [insertV2_frame hins] at hq
    exact hq
  upsert c p c' e hI hval hups := by
    refine hI.next (upsertInternal_evolves (id_ne_nil_of_validate hval) hups) fun dimIdx q hq => ?_
    obtain ⟨h₀, h₁, h₂, err, -, -, -, -, rfl⟩ := upsertInternal_cases hups
    exact .inl (mem_removeSparse hq)
  delete c id c' e hI hdel := by
    refine hI.next (deleteInternal_evolves hdel) fun dimIdx q hq => ?_
    obtain ⟨h₀, -, ⟨err, -, -, rfl⟩ | ⟨h₁, -, -, rfl⟩⟩ := deleteInternal_cases hdel
    · exact .inl hq
    · exact .inl (mem_removeSparse hq)
  setEfSearch c h ef hI hindex :=
    hI.next (evolves_of_act (a := .setEfSearch ef) hindex rfl nofun rfl rfl)
      fun _ _ hq => .inl hq

theorem inPlace_of_run {cfg : Config} {parts : Bytes → Parts Q S} {payloads : ℕ → Option P}
    {dispatcher : Dispatcher} {c₀ : Collection F P D Q C S} {xs : List (Call F P)}
    (hnew : new cfg parts payloads dispatcher = .ok c₀) (hrun : run (step K) c₀ xs = some c) :
    InPlace K c₀ c := by
  refine (kept_inPlace c₀).run ⟨evolves_of_eq rfl rfl, fun h hindex => ?_, ?_⟩ hrun
  · cases hlayout : cfg.hasNamedVectors with
    | true =>
      obtain ⟨-, indices, -, rfl⟩ := new_named hnew hlayout
      cases hindex
    | false =>
      obtain ⟨-, h₀, hindex₀, rfl⟩ := new_single hnew hlayout
      cases hindex
      exact listed_new hindex₀
  · intro dimIdx q hq
    rw [new_eq hnew] at hq
    exact absurd hq not_mem_nil

end Numbered

/-! ## Both searches -/

def target (c : Collection F P D Q C S) (vectorName : Bytes) : Bytes × Option (Index F P Q C S) :=
  if c.config.hasNamedVectors then
    let name := if vectorName = [] then defaultName else vectorName
    (name, c.indices name)
  else ([], c.index)

section Searches

variable [Scalar F] {K : Kit F P D Q C S} {c c' : Collection F P D Q C S} {visited : VisitedList}
  {query : List F} {params : SearchParams F P} {points : List (ScoredPoint F P D)}

/-- **What both searches return with a filter and a sparse query passes**, whatever else they are
    given. -/
structure FilterHolds (K : Kit F P D Q C S) (c : Collection F P D Q C S)
    (f : Option P → Outcome Empty Bool) (sparse : Option (SparseVector F)) : Prop where
  search : ∀ now later visited query params c' points, params.Filter = some f →
    params.SparseQuery = sparse →
    searchWithParams K c now later visited query params = .value (c', .ok points) →
    ∃ h, c.index = some h ∧ Conforms (K.tools []) h f points
  searchV2 : ∀ visited query vectorName params points, params.Filter = some f →
    params.SparseQuery = sparse →
    searchV2WithParams K c visited query vectorName params = .value points →
    ∃ h, (target c vectorName).2 = some h ∧
      Conforms (K.tools (target c vectorName).1) h f points

variable {f : Option P → Outcome Empty Bool}

theorem searchWithParams_filtered {now later : ℕ} (hfilter : params.Filter = some f)
    (hsearch : searchWithParams K c now later visited query params = .value (c', .ok points)) :
    ∃ h, c.index = some h ∧ searchIndex K (K.tools []) h c.sparseIdx visited
      (asStored c.config.metric query) params = .value points := by
  unfold searchWithParams at hsearch
  rw [show params.useCache = false by unfold SearchParams.useCache; rw [hfilter]; rfl] at hsearch
  simp only [Bool.false_eq_true, if_false] at hsearch
  split at hsearch
  · cases hsearch
  · cases hsearch
  · rename_i points' huncached
    cases hsearch
    unfold searchUncached at huncached
    split at huncached
    · cases huncached
    · split at huncached
      · cases huncached
      · rename_i h hindex
        exact ⟨h, hindex, mapError_eq_value huncached⟩

theorem searchV2WithParams_value {vectorName : Bytes}
    (hsearch : searchV2WithParams K c visited query vectorName params = .value points) :
    ∃ h q, (target c vectorName).2 = some h ∧ searchIndex K (K.tools (target c vectorName).1) h
      c.sparseIdx visited q params = .value points := by
  obtain ⟨⟨name, idx⟩, htarget, hsearch⟩ := bind_eq_value.mp hsearch
  have heq : target c vectorName = (name, idx) := by
    unfold target
    split at htarget
    · rename_i hnamed
      rw [if_pos hnamed]
      generalize (if vectorName = [] then defaultName else vectorName) = name' at htarget ⊢
      simp only at htarget
      split at htarget
      · cases htarget
      · rename_i h hindex
        cases htarget
        simp only [hindex]
    · rename_i hsingle
      rw [if_neg hsingle]
      cases htarget
      rfl
  rw [heq]
  simp only at hsearch
  split at hsearch
  · cases hsearch
  · split at hsearch
    · cases hsearch
    · split at hsearch
      · cases hsearch
      · rename_i h
        exact ⟨h, _, rfl, mapError_eq_value hsearch⟩

section Runs

variable {cfg : Config} {parts : Bytes → Parts Q S} {payloads : ℕ → Option P} {dispatcher : Dispatcher}
  {c₀ : Collection F P D Q C S} {xs : List (Call F P)} {sparse : Option (SparseVector F)}

variable (hnew : new cfg parts payloads dispatcher = .ok c₀) (hrun : run (step K) c₀ xs = some c)
include hnew hrun

theorem filterHolds_of_harmless
    (hharmless : ∀ h, c.index = some h → Harmless h c.sparseIdx f sparse) :
    FilterHolds K c f sparse := by
  have hplace := inPlace_of_run hnew hrun
  have hconfig : c.config = cfg := hplace.evolves.config.trans (new_config hnew)
  constructor
  · intro now later visited query params c' points hfilter hsparse hsearch
    obtain ⟨h, hindex, hsearch⟩ := searchWithParams_filtered hfilter hsearch
    have hl := hplace.listed h hindex
    exact ⟨h, hindex, searchIndex_conforms hl.indexed hfilter
      (fun vec hvec hlen i id pt => (hsparse ▸ hharmless h hindex).passes hl hvec hlen) hsearch⟩
  · intro visited query vectorName params points hfilter hsparse hsearch
    obtain ⟨h, q, htarget, hsearch⟩ := searchV2WithParams_value hsearch
    refine ⟨h, htarget, ?_⟩
    cases hlayout : cfg.hasNamedVectors with
    | false =>
      have hindex : c.index = some h := by
        unfold target at htarget
        rwa [hconfig, hlayout] at htarget
      have hl := hplace.listed h hindex
      exact searchIndex_conforms hl.indexed hfilter
        (fun vec hvec hlen i id pt => (hsparse ▸ hharmless h hindex).passes hl hvec hlen) hsearch
    | true =>
      -- There are no postings, because there is no default index to number them.
      have hnone : c.index = none := by
        obtain ⟨-, indices, -, rfl⟩ := new_named hnew hlayout
        exact hplace.evolves.none rfl
      have hx : NamedAll (fun _ => Indexed) c.indices := by
        refine run_named (fun name h h' p e hx hins => ?_) (fun name h hh => ?_) hrun
        · exact (Graph.insert_cases hins).indexed hx
        · obtain ⟨vc, -, hone⟩ := new_named_all hnew hlayout name h hh
          exact (listed_new hone).indexed
      have hindex : c.indices (target c vectorName).1 = some h := by
        unfold target at htarget ⊢
        rwa [hconfig, hlayout] at htarget ⊢
      refine searchIndex_conforms (hx _ h hindex) hfilter
        (fun vec _ _ i id pt hmatch _ => ?_) hsearch
      obtain ⟨dimIdx, -, q, hq, -⟩ := hmatch
      obtain ⟨h', hindex', -⟩ := hplace.numbered dimIdx q hq
      cases hnone.symm.trans hindex'

theorem harmless_of_filterHolds (hlinks : (parts []).links = .empty)
    (hholds : FilterHolds K c f sparse) {h : Graph.Index F P Q C S} (hindex : c.index = some h)
    (hf : Judges f h) : Harmless h c.sparseIdx f sparse := by
  have hplace := inPlace_of_run hnew hrun
  have hconfig : c.config = cfg := hplace.evolves.config.trans (new_config hnew)
  intro vec hvec hlen i node hmatch hnode hlive
  have hsingle : cfg.hasNamedVectors = false := by
    refine Bool.eq_false_iff.mpr fun hlayout => ?_
    obtain ⟨-, indices, -, rfl⟩ := new_named hnew hlayout
    cases (hplace.evolves.none rfl).symm.trans hindex
  obtain ⟨-, h₀, hindex₀, rfl⟩ := new_single hnew hsingle
  rw [hlinks] at hindex₀
  obtain ⟨h', actions, hindex', hacts, -⟩ := hplace.evolves.some h₀ rfl
  cases hindex.symm.trans hindex'
  obtain ⟨hreached, hm⟩ := Graph.reached_of_run hindex₀ hacts
  have hl := hplace.listed h hindex
  obtain ⟨query, hquery⟩ : ∃ query : List F, query.length = c.config.dimension :=
    ⟨replicate c.config.dimension Scalar.zero, length_replicate⟩
  have hdim : (asStored c.config.metric query).length = h.dimension := by
    rw [length_asStored, hquery, hconfig, hm.dimension]
  have hnumbers : ∀ j, c.sparseIdx.Matches vec.indices j → j ≤ h.nodes.length := by
    rintro j ⟨dimIdx, -, q, hq, rfl⟩
    obtain ⟨h', hindex', hle⟩ := hplace.numbered dimIdx q hq
    cases hindex.symm.trans hindex'
    exact hle
  obtain ⟨fused, hsearch, hall⟩ := everything_found (K := K) (T := K.tools []) (f := f)
    hreached.good hl hf hdim hlen hnumbers (.new 0)
  have hcall : searchWithParams K c 0 0 (.new 0) query (everything h f vec) =
      .value (c, .ok fused) := by
    unfold searchWithParams searchUncached
    simp only [hquery, hindex, hsearch, ne_eq, not_true, if_false]
    rfl
  obtain ⟨h', hindex', hconf⟩ := hholds.search 0 0 _ _ _ _ _ rfl hvec.symm hcall
  cases hindex.symm.trans hindex'
  obtain ⟨sp, hsp, hid⟩ := hall i node hmatch hnode hlive
  obtain ⟨pt, hget, hpass⟩ := hconf sp hsp
  have hfound := (foundAt_iff (T := K.tools []) hl.indexed hnode).mpr ⟨rfl, hlive, rfl⟩
  rw [hid] at hget
  cases hfound.2.symm.trans hget
  exact hpass

end Runs

/-- **The filter in any state of a collection**: both searches return only points that pass if the sparse
    query matches no live node that does not pass. In memory this is exactly when, if the filter can judge every
    payload. -/
theorem filter_conforms_iff {cfg : Config} {parts : Bytes → Parts Q S} {payloads : ℕ → Option P}
    {dispatcher : Dispatcher} {c₀ : Collection F P D Q C S} {xs : List (Call F P)}
    (hnew : new cfg parts payloads dispatcher = .ok c₀) (hrun : run (step K) c₀ xs = some c)
    (f : Option P → Outcome Empty Bool) (sparse : Option (SparseVector F)) :
    ((∀ h, c.index = some h → Harmless h c.sparseIdx f sparse) → FilterHolds K c f sparse) ∧
    ((parts []).links = .empty → FilterHolds K c f sparse →
      ∀ h, c.index = some h → Judges f h → Harmless h c.sparseIdx f sparse) :=
  ⟨filterHolds_of_harmless hnew hrun, fun hlinks hholds _ => harmless_of_filterHolds hnew hrun hlinks hholds⟩

end Searches

def taggedHistory : List (Call ℕ ℕ) :=
  [.insert (linePoint 1 5 (some 1) none), .insert (linePoint 2 6 (some 0) (some ⟨[3], [1]⟩))]

def tagged (payload : Option ℕ) : Outcome Empty Bool := .value (payload == some 1)

def foundIds (c : Collection ℕ ℕ ℕ Unit Unit Unit) (sparse : Option (SparseVector ℕ)) :
    Option (List Bytes) :=
  match searchWithParams lineKit c 0 0 (.new 8) [5] ⟨10, 0, some tagged, false, true, sparse⟩ with
  | .value (_, .ok points) => some (points.map ScoredPoint.id)
  | _ => none

theorem of_foundIds {c : Collection ℕ ℕ ℕ Unit Unit Unit} {sparse : Option (SparseVector ℕ)}
    {ids : List Bytes} (h : foundIds c sparse = some ids) : ∃ c' points,
      searchWithParams lineKit c 0 0 (.new 8) [5] ⟨10, 0, some tagged, false, true, sparse⟩ =
        .value (c', .ok points) ∧ points.map ScoredPoint.id = ids := by
  unfold foundIds at h
  split at h
  · rename_i c' points hsearch
    cases h
    exact ⟨c', points, hsearch, rfl⟩
  · cases h

def unfit (c : Collection ℕ ℕ ℕ Unit Unit Unit) (id : Bytes) : Bool :=
  match get lineKit c id with
  | .value pt => tagged pt.payload = .value false
  | _ => false

/-- **A point that does not pass the filter is returned for its sparse vector.** -/
theorem fused_against_filter : ∃ c c' points,
    run (step lineKit) lineCollection taggedHistory = some c ∧
      searchWithParams lineKit c 0 0 (.new 8) [5]
        ⟨10, 0, some tagged, false, true, some ⟨[3], [1]⟩⟩ = .value (c', .ok points) ∧
      [2] ∈ points.map ScoredPoint.id ∧ unfit c [2] = true ∧
      ¬ FilterHolds lineKit c tagged (some ⟨[3], [1]⟩) := by
  have hview : (run (step lineKit) lineCollection taggedHistory).any (fun c =>
      decide (foundIds c (some ⟨[3], [1]⟩) = some [[1], [2]]) && unfit c [2]) = true := by
    decide +kernel
  obtain ⟨c, hrun, hview⟩ := (Option.any_eq_true ..).mp hview
  obtain ⟨hids, hunfit⟩ := Bool.and_eq_true_iff.mp hview
  obtain ⟨c', points, hsearch, hpoints⟩ := of_foundIds (of_decide_eq_true hids)
  have hmem : [2] ∈ points.map ScoredPoint.id := by
    rw [hpoints]
    decide
  refine ⟨c, c', points, hrun, hsearch, hmem, hunfit, fun hholds => ?_⟩
  obtain ⟨h, hindex, hconf⟩ := hholds.search 0 0 _ _ _ _ _ rfl rfl hsearch
  obtain ⟨sp, hsp, hid⟩ := mem_map.mp hmem
  obtain ⟨pt, hget, hpass⟩ := hconf sp hsp
  unfold unfit get at hunfit
  rw [hindex] at hunfit
  rw [hid] at hget
  simp only [hget, hpass] at hunfit
  cases hunfit

/-- Without a sparse query every result passes, and the one that passes is found. -/
theorem filter_conforms_line : ∃ c, run (step lineKit) lineCollection taggedHistory = some c ∧
    foundIds c none = some [[1]] ∧ FilterHolds lineKit c tagged none := by
  have hview : (run (step lineKit) lineCollection taggedHistory).any (fun c =>
      decide (foundIds c none = some [[1]])) = true := by decide +kernel
  obtain ⟨c, hrun, hview⟩ := (Option.any_eq_true ..).mp hview
  refine ⟨c, hrun, of_decide_eq_true hview,
    (filter_conforms_iff lineCollection_new hrun tagged none).1 fun h hindex vec hvec => ?_⟩
  cases hvec

end LimyeDB.Hybrid
