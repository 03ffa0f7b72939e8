/-
  THE CLOSEST POINTS: what SearchWithFilter returns if ef is at least the number of nodes.
-/
import LimyeDB.Graph.Valid

namespace LimyeDB.Graph

open Go Hnsw Lib.Runs List

variable {F P D Q C S : Type} [Distance D]

/-! ## The closest of a set -/

/-- The `k` nodes of `A` that are closest to the query, or all if there are fewer. -/
structure Nearest (T : Tools F D Q C S) (h : Index F P Q C S) (query : List F) (k : Int)
    (A : Set ℕ) (cs : List (Candidate D)) : Prop where
  once : (cs.map Candidate.id).Nodup
  mem : ∀ c ∈ cs, c.id ∈ A
  distance : ∀ c ∈ cs, c.distance = exactDist T h query c.id
  count : (cs.length : Int) = min k A.ncard
  sorted : cs.Pairwise fun a b => Distance.le a.distance b.distance = true
  closest : ∀ c ∈ cs, ∀ i ∈ A, i ∉ cs.map Candidate.id →
    Distance.le c.distance (exactDist T h query i) = true

section Nearest

variable {T : Tools F D Q C S} {h : Index F P Q C S} {query : List F} {s : ℕ} {W : ℕ → Prop}
  {cs : List (Candidate D)}

variable (hr : Ranked T h query s W cs) (hw : Whole h 0 s W cs)
include hr hw

theorem Ranked.ids_eq : ((cs.map Candidate.id).toFinset : Set ℕ) = {i | Reach h 0 s i ∧ W i} := by
  ext i
  rw [coe_toFinset, Set.mem_ofPred_eq, Set.mem_ofPred_eq, mem_map]
  constructor
  · rintro ⟨c, hc, rfl⟩
    exact ⟨hr.reach c hc, hr.wanted c hc⟩
  · rintro ⟨hreach, hwanted⟩
    exact hw i hreach hwanted

theorem Ranked.length_eq : cs.length = Set.ncard {i | Reach h 0 s i ∧ W i} := by
  rw [← hr.ids_eq hw, Set.ncard_coe_finset, toFinset_card_of_nodup hr.once, length_map]

theorem Ranked.nearest
    (hordered : Alone h 0 s ∨
      ∀ i, Reach h 0 s i → W i → Distance.nan (exactDist T h query i) = false)
    {k : Int} (hk : 0 ≤ k) : Nearest T h query k {i | Reach h 0 s i ∧ W i} (cs.take k.toNat) := by
  have hsorted := hr.pairwise hordered
  have hsub : (cs.take k.toNat).Sublist cs := take_sublist ..
  refine ⟨hr.once.sublist (hsub.map _), fun c hc => ?_, fun c hc => hr.distance c (hsub.subset hc),
    ?_, hsorted.sublist hsub, fun c hc i hi hnot => ?_⟩
  · exact ⟨hr.reach c (hsub.subset hc), hr.wanted c (hsub.subset hc)⟩
  · rw [← hr.length_eq hw, length_take]
    omega
  · -- what is not among the first ones stands behind them
    obtain ⟨d, hd, rfl⟩ := hw i hi.1 hi.2
    rw [← hr.distance d hd]
    rw [← take_append_drop k.toNat cs] at hsorted hd
    rcases mem_append.mp hd with hd | hd
    · exact absurd (mem_map_of_mem hd) hnot
    · exact (pairwise_append.mp hsorted).2.2 c hc d hd

end Nearest

/-! ## SearchWithFilter -/

/-- The live nodes that pass the filter and that the links of layer 0 lead to, from the start over
    live nodes. -/
def Findable (T : Tools F D Q C S) (h : Index F P Q C S) (query : List F)
    (params : SearchParams P D) : Set ℕ :=
  {i | ∃ s, Start T h query s ∧ Reach h 0 s i ∧ Live h i ∧ Passes h params i}

section Findable

variable {T : Tools F D Q C S} {h : Index F P Q C S} {query : List F} {s : ℕ}
  {params : SearchParams P D}

theorem findable_eq (hradius : Distance.lt Distance.zero params.Radius = false)
    (hstart : Start T h query s) :
    Findable T h query params = {i | Reach h 0 s i ∧ Shown T h query params s i} := by
  have hin : ∀ d, ¬ Beyond params d := by
    rintro d ⟨hpos, -⟩
    rw [hradius] at hpos
    cases hpos
  ext i
  constructor
  · rintro ⟨s', hstart', hreach, hlive, hpasses⟩
    rw [hstart'.unique hstart] at hreach
    exact ⟨hreach, hlive, hpasses, .inr (hin _)⟩
  · rintro ⟨hreach, hlive, hpasses, -⟩
    exact ⟨s, hstart, hreach, hlive, hpasses⟩

theorem findable_empty (hnodes : h.nodes = []) : Findable T h query params = ∅ := by
  refine Set.eq_empty_of_forall_notMem ?_
  rintro i ⟨-, -, -, ⟨node, hnode, -⟩, -⟩
  rw [hnodes] at hnode
  cases hnode

end Findable

/-- **SearchWithFilter returns the closest** of the reachable live points that pass the filter, without a
    quantizer and a radius, if ef is at least the number of nodes. Either the search comes to its start only, as
    in an empty index, or the width for the filter has not overflowed and no distance is NaN. -/
theorem filtered_nearest {T : Tools F D Q C S} {h : Index F P Q C S} (hr : Reached T h)
    (hq : h.graph.quantizer = none) {query : List F} (hdim : query.length = h.dimension)
    (params : SearchParams P D) (hradius : Distance.lt Distance.zero params.Radius = false)
    (hall : (h.nodes.length : Int) ≤ params.Ef) (hk : 0 ≤ params.K)
    (heval : ∀ s, Start T h query s → Evaluates h params 0 s)
    (hwide : (∀ s, Start T h query s → Alone h 0 s) ∨
      Widens T h.nodes.length (max params.Ef params.K) (selectivity params.EstimatedSelectivity) ∧
        ∀ i ∈ Findable T h query params, Distance.nan (exactDist T h query i) = false)
    (visited : VisitedList) :
    ∃ cs, searchWithFilter T h query visited params = .value cs ∧
      Nearest T h query params.K (Findable T h query params) cs := by
  have hb := hr.good.base
  by_cases hne : h.maxLevel = -1
  · have hnodes : h.nodes = [] := by
      by_contra hnot
      exact hb.begun.mp hnot hne
    refine ⟨[], ?_, ⟨nodup_nil, ?_, ?_, ?_, Pairwise.nil, ?_⟩⟩
    · unfold searchWithFilter
      rw [if_neg (not_not.mpr hdim), if_pos hne]
    · exact nofun
    · exact nofun
    · rw [findable_empty hnodes, Set.ncard_empty, length_nil]
      omega
    · exact nofun
  · obtain ⟨s, -, -, hstart⟩ := layer0Start_spec T query hb.sound hne
    have hef : overFetch h (if params.Ef < params.K then params.K else params.Ef) =
        max params.Ef params.K := by
      unfold overFetch
      rw [hq]
      simp only
      split <;> omega
    have hset := findable_eq hradius hstart
    rcases searchWithFilter_spec hb.sound hdim hne hstart visited params hef rfl with
      ⟨cs, hcall, hranked, hwhole⟩ | ⟨hwidth, -⟩
    · rw [topK_value hk] at hcall
      refine ⟨_, hcall, ?_⟩
      rw [hset] at hwide ⊢
      refine hranked.nearest (hwhole (hall.trans (le_max_left ..)) ?_) ?_ hk
      · exact hwide.imp (fun halone => halone s hstart) fun hwide => hwide.1.le
      · exact hwide.imp (fun halone => halone s hstart) fun hwide i hreach hshown =>
          hwide.2 i ⟨hreach, hshown⟩
    · have hpos : 0 < h.nodes.length := length_pos_of_ne_nil (hb.begun.mpr hne)
      refine absurd ⟨by omega, hwide.imp (fun halone => halone s hstart) fun hwide => ?_, heval s hstart⟩ hwidth
      exact (Int.natCast_pos.mpr hpos).trans_le hwide.1.le

/-- Two points, of which the search begins with the one that the filter rejects, and an ef of which
    fifteenfold is negative. -/
theorem wide_filter_panics : ∃ h₀ h : Index ℕ ℕ Unit Unit Unit,
    new ⟨2, 10, 10, 1⟩ (Stream'.const 0) none Links.empty none = .ok h₀ ∧
      run (step line) h₀ [.put 1 5, .put 2 7] = some h ∧
      h.graph.quantizer = none ∧ h.nodes.length = 2 ∧
      1 ∈ Findable line h [5] ⟨1, 1152921504606846976, 0, some fun id _ => .value (id == [2]), some 0⟩ ∧
      searchWithFilter line h [5] (.new 4)
        ⟨1, 1152921504606846976, 0, some fun id _ => .value (id == [2]), some 0⟩ = .panic := by
  refine exists_view (fun _ h => h.graph.quantizer = none ∧ h.maxLevel = 0 ∧ h.entryPoint = 0 ∧
    conn h 0 0 = [1] ∧
    h.nodes = [some ⟨[1], [5], 0, 0, false, none⟩, some ⟨[2], [7], 0, 0, false, none⟩] ∧
    searchWithFilter line h [5] (.new 4)
      ⟨1, 1152921504606846976, 0, some fun id _ => .value (id == [2]), some 0⟩ = .panic) (by decide +kernel)
    fun h₀ h hnew hrun ⟨hq, hlevel, hentry, hconn, hnodes, hpanic⟩ => ?_
  have hnode : h.nodes[1]? = some (some ⟨[2], [7], 0, 0, false, none⟩) := by rw [hnodes]; rfl
  have hlive : Live h 1 := ⟨_, hnode, rfl⟩
  refine ⟨hq, by rw [hnodes]; rfl, ⟨0, ?_, ?_, hlive, _, hnode, rfl⟩, hpanic⟩
  · rw [Start, hlevel, hentry]
    exact .done le_rfl
  · exact .single ⟨by rw [hconn]; exact mem_singleton.mpr rfl, hlive⟩

/-- The same points and the same filter, with an ef of 10. -/
theorem filtered_nearest_line : ∃ h₀ h : Index ℕ ℕ Unit Unit Unit,
    new ⟨2, 10, 10, 1⟩ (Stream'.const 0) none Links.empty none = .ok h₀ ∧
      run (step line) h₀ [.put 1 5, .put 2 7] = some h ∧
      h.nodes.length = 2 ∧ ∀ visited,
        ∃ cs, searchWithFilter line h [5] visited ⟨1, 10, 0, some fun id _ => .value (id == [2]), some 0⟩ =
            .value cs ∧
          Nearest line h [5] 1
            (Findable line h [5] ⟨1, 10, 0, some fun id _ => .value (id == [2]), some 0⟩) cs := by
  refine exists_view (fun _ h => h.graph.quantizer = none ∧ h.nodes.length = 2) (by decide +kernel)
    fun h₀ h hnew hrun ⟨hq, hlength⟩ => ?_
  obtain ⟨hr, hm⟩ := reached_of_run hnew hrun
  have hdim : [5].length = h.dimension := hm.dimension.symm
  refine ⟨hlength, fun visited => ?_⟩
  refine filtered_nearest hr hq hdim _ rfl ?_ (by decide) (fun _ _ _ _ _ _ => ⟨_, rfl⟩)
    (.inr ⟨?_, fun _ _ => rfl⟩) visited
  · rw [hlength]
    decide
  · rw [hlength]
    exact widens_of_small line (by decide) (by decide) (by decide) _

end LimyeDB.Graph
