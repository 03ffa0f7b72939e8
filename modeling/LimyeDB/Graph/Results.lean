/-
  WHAT THE SEARCH CALLS RETURN on an index that can be searched.
-/
import LimyeDB.Graph.Layer

namespace LimyeDB.Graph

open Go Hnsw Lib Outcome

variable {F P D Q C S : Type} [Distance D]

/-! ## Exact distances -/

/-- Results of a search that began at `s` and wants `W`, with their exact distances. -/
structure Ranked (T : Tools F D Q C S) (h : Index F P Q C S) (query : List F) (s : ℕ)
    (W : ℕ → Prop) (cs : List (Candidate D)) : Prop where
  once : (cs.map Candidate.id).Nodup
  distance : ∀ c ∈ cs, c.distance = exactDist T h query c.id
  reach : ∀ c ∈ cs, Reach h 0 s c.id
  wanted : ∀ c ∈ cs, W c.id
  sorted : (∀ c ∈ cs, Distance.nan c.distance = false) →
    (h.graph.quantizer = none → ∀ i, Reach h 0 s i → W i →
      Distance.nan (exactDist T h query i) = false) →
    cs.Pairwise fun a b => Distance.lt b.distance a.distance = false

def scored (T : Tools F D Q C S) (h : Index F P Q C S) (query : List F)
    (cs : List (Candidate D)) : List (Candidate D) :=
  cs.map fun c => ⟨c.id, exactDist T h query c.id⟩

section Rescore

variable {T : Tools F D Q C S} {h : Index F P Q C S} {query : List F} {s : ℕ} {N : Finset ℕ}
  {wanted : ℕ → Prop} {cs : List (Candidate D)}

theorem rescore_spec (hA : Area h 0 N) (hs : s ∈ N) (hf : Found T h query 0 s wanted cs) :
    ∃ cs', rescore T h query cs = .value cs' ∧ Ranked T h query s wanted cs' ∧
      (Whole h 0 s wanted cs → Whole h 0 s wanted cs') := by
  have hnode : ∀ i, Reach h 0 s i → ∃ node, h.nodes[i]? = some (some node) := fun i hi =>
    hA.node i (hA.reach hs hi)
  cases hq : h.graph.quantizer with
  | none =>
    have hdist : ∀ i, Reach h 0 s i → dist T h query i = exactDist T h query i := by
      intro i hi
      obtain ⟨node, hi⟩ := hnode i hi
      exact dist_eq_exactDist hq hi
    refine ⟨cs, ?_, ⟨hf.once, fun c hc => ?_, hf.reach, hf.wanted, fun _ hclean => ?_⟩, fun hw => hw⟩
    · unfold rescore
      rw [hq]
    · rw [hf.distance c hc, hdist c.id (hf.reach c hc)]
    · exact hf.sorted fun i hi hwanted => by rw [hdist i hi]; exact hclean hq i hi hwanted
  | some q =>
    have hmap : cs.mapM (fun c => do
        let dist ← exactDistance T h query c.id
        return (⟨c.id, dist⟩ : Candidate D)) = .value (scored T h query cs) := by
      refine mapM_value fun c hc => ?_
      obtain ⟨node, hnode⟩ := hnode c.id (hf.reach c hc)
      rw [exactDistance_eq hnode]
      rfl
    have hperm := T.sort_perm (scored T h query cs)
    have hfrom : ∀ c ∈ T.sort (scored T h query cs),
        ∃ c₀ ∈ cs, c = ⟨c₀.id, exactDist T h query c₀.id⟩ := by
      intro c hc
      obtain ⟨c₀, hc₀, rfl⟩ := List.mem_map.mp (hperm.mem_iff.mp hc)
      exact ⟨c₀, hc₀, rfl⟩
    have hids : (scored T h query cs).map Candidate.id = cs.map Candidate.id := List.map_map
    refine ⟨T.sort (scored T h query cs), ?_,
      ⟨?_, fun c hc => ?_, fun c hc => ?_, fun c hc => ?_, fun hnan _ => ?_⟩,
      fun hw i hi hwanted => ?_⟩
    · unfold rescore
      rw [hq]
      simp only [hmap, value_bind]
      rfl
    · refine (hperm.map Candidate.id).nodup_iff.mpr ?_
      rw [hids]
      exact hf.once
    · obtain ⟨c₀, -, rfl⟩ := hfrom c hc
      rfl
    · obtain ⟨c₀, hc₀, rfl⟩ := hfrom c hc
      exact hf.reach c₀ hc₀
    · obtain ⟨c₀, hc₀, rfl⟩ := hfrom c hc
      exact hf.wanted c₀ hc₀
    · exact T.sort_sorted _ fun c hc => hnan c (hperm.mem_iff.mpr hc)
    · obtain ⟨c, hc, rfl⟩ := hw i hi hwanted
      exact ⟨_, hperm.mem_iff.mpr (List.mem_map.mpr ⟨c, hc, rfl⟩), rfl⟩

end Rescore

/-! ## The calls -/

section Calls

variable {T : Tools F D Q C S} {h : Index F P Q C S} {query : List F} {s : ℕ}

theorem searchWithEf_spec (hs : Sound h) (hdim : query.length = h.dimension)
    (hne : h.maxLevel ≠ -1) (hstart : Start T h query s) (visited : VisitedList) (k ef : Int) :
    ∃ cs, searchWithEf T h query visited k ef = lift (topK k cs) ∧
      Ranked T h query s (fun _ => True) cs ∧
      ((h.nodes.length : Int) ≤ overFetch h (if ef < k then k else ef) →
        Whole h 0 s (fun _ => True) cs) := by
  obtain ⟨hlt, hlayer0⟩ := layer0Start_eq hs hne hstart
  have hA := hs.area 0
  have hentry := Finset.mem_range.mpr hlt
  obtain ⟨cs, hsearch, -, -, hfound, hwhole⟩ := searchLayer_spec T query visited
    (overFetch h (if ef < k then k else ef)) hA hentry
  obtain ⟨cs', hrescore, hranked, hwhole'⟩ := rescore_spec hA hentry hfound
  refine ⟨cs', ?_, hranked, fun hef => hwhole' (hwhole ?_)⟩
  · unfold searchWithEf
    rw [if_neg (not_not.mpr hdim), if_neg hne]
    simp only [hlayer0, value_bind, hsearch, hrescore]
  · rwa [Finset.card_range]

/-- **SearchWithFilter** returns the first `k` of ranked results, or panics if a width is not
    positive or the filter panics. -/
theorem searchWithFilter_spec (hs : Sound h) (hdim : query.length = h.dimension)
    (hne : h.maxLevel ≠ -1) (hstart : Start T h query s) (visited : VisitedList)
    (params : SearchParams P D) {ef searchEf : Int}
    (hef : overFetch h (if params.Ef < params.K then params.K else params.Ef) = ef)
    (hsearch : calculateAdaptiveEf T ef (selectivity params.EstimatedSelectivity) = searchEf) :
    (∃ cs, searchWithFilter T h query visited params = lift (topK params.K cs) ∧
      Ranked T h query s (Shown T h query params s) cs ∧
      ((h.nodes.length : Int) ≤ ef → (Alone h 0 s ∨ (h.nodes.length : Int) ≤ searchEf) →
        Whole h 0 s (Shown T h query params s) cs)) ∨
    ¬ Careful h params ef searchEf 0 s ∧ searchWithFilter T h query visited params = .panic := by
  obtain ⟨hlt, hlayer0⟩ := layer0Start_eq hs hne hstart
  have hA := hs.area 0
  have hentry := Finset.mem_range.mpr hlt
  have hcode : searchWithFilter T h query visited params =
      lift (searchLayerWithFilter T h query visited s ef 0 params >>= fun candidates =>
        rescore T h query candidates >>= topK params.K) := by
    unfold searchWithFilter
    rw [if_neg (not_not.mpr hdim), if_neg hne]
    simp only [hlayer0, value_bind, hef]
  rw [hcode]
  refine (searchLayerWithFilter_spec T query visited ef params hsearch hA hentry).imp ?_ ?_
  · rintro ⟨cs, hlayer, hfound, hwhole⟩
    obtain ⟨cs', hrescore, hranked, hwhole'⟩ := rescore_spec hA hentry hfound
    refine ⟨cs', ?_, hranked, fun hle hle' => hwhole' (hwhole ?_ ?_)⟩
    · simp only [hlayer, value_bind, hrescore]
    · rwa [Finset.card_range]
    · rwa [Finset.card_range]
  · rintro ⟨hwidth, hpanic⟩
    refine ⟨hwidth, ?_⟩
    simp only [hpanic, panic_bind]
    rfl

omit [Distance D] in
theorem topK_value {k : Int} (hk : 0 ≤ k) (cs : List (Candidate D)) :
    topK k cs = .value (cs.take k.toNat) := by
  unfold topK
  rw [if_neg (Int.not_lt.mpr hk)]
  split
  · rfl
  · rw [List.take_of_length_le (by omega)]

omit [Distance D] in
theorem topK_negative {k : Int} (hk : k < 0) (cs : List (Candidate D)) : topK k cs = .panic := by
  unfold topK
  rw [if_pos (by omega), if_pos hk]

omit [Distance D] in
theorem lift_topK_eq {k : Int} {cs found : List (Candidate D)}
    (hvalue : lift (topK k cs) = .value found) : 0 ≤ k ∧ found = cs.take k.toNat := by
  rcases Int.lt_or_le k 0 with hneg | hpos
  · rw [topK_negative hneg] at hvalue
    cases hvalue
  · rw [topK_value hpos] at hvalue
    cases hvalue
    exact ⟨hpos, rfl⟩

theorem searchWithEf_ne_panic (T : Tools F D Q C S) (hs : Sound h) (query : List F)
    (visited : VisitedList) {k : Int} (hk : 0 ≤ k) (ef : Int) :
    searchWithEf T h query visited k ef ≠ .panic := by
  by_cases hdim : query.length = h.dimension
  · by_cases hne : h.maxLevel = -1
    · unfold searchWithEf
      rw [if_neg (not_not.mpr hdim), if_pos hne]
      simp
    · obtain ⟨s, -, -, hstart⟩ := layer0Start_spec T query hs hne
      obtain ⟨cs, hcall, -⟩ := searchWithEf_spec hs hdim hne hstart visited k ef
      rw [hcall, topK_value hk]
      simp [lift]
  · unfold searchWithEf
    rw [if_pos hdim]
    simp

/-! ## The list from the pool -/

variable (T h query) (v v' : VisitedList)

theorem searchLayer_visited (entryID : ℕ) (ef : Int) (layer : ℕ) :
    searchLayer T h query v entryID ef layer = searchLayer T h query v' entryID ef layer := by
  unfold searchLayer
  cases distanceTo T h query entryID with
  | error e => exact e.elim
  | panic => rfl
  | value d =>
    simp only [value_bind]
    rw [Explore.explore_congr VisitedList.agree_mark _ _ (v.start_represents entryID),
      Explore.explore_congr VisitedList.agree_mark _ _ (v'.start_represents entryID)]

theorem searchLayerWithFilter_visited (entryID : ℕ) (ef : Int) (layer : ℕ) (params : SearchParams P D) :
    searchLayerWithFilter T h query v entryID ef layer params =
      searchLayerWithFilter T h query v' entryID ef layer params := by
  unfold searchLayerWithFilter
  cases distanceTo T h query entryID with
  | error e => exact e.elim
  | panic => rfl
  | value d =>
    cases nodeAt h entryID with
    | error e => exact e.elim
    | panic => rfl
    | value node =>
      simp only [value_bind]
      cases passesFilter params node with
      | error e => exact e.elim
      | panic => rfl
      | value passes =>
      simp only [value_bind]
      rw [Explore.explore_congr VisitedList.agree_mark _ _ (v.start_represents entryID),
        Explore.explore_congr VisitedList.agree_mark _ _ (v'.start_represents entryID)]

theorem searchWithEf_visited (k ef : Int) :
    searchWithEf T h query v k ef = searchWithEf T h query v' k ef := by
  unfold searchWithEf
  simp only [searchLayer_visited T h query v v']

theorem searchWithFilter_visited (params : SearchParams P D) :
    searchWithFilter T h query v params = searchWithFilter T h query v' params := by
  unfold searchWithFilter
  simp only [searchLayerWithFilter_visited T h query v v']

end Calls

end LimyeDB.Graph
