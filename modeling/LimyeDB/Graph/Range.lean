/-
  THE RANGE SEARCH: every live point within a radius, by a breadth-first walk of layer 0.
-/
import LimyeDB.Graph.Reached

namespace LimyeDB.Graph

open Go Hnsw Lib Lib.Runs List Outcome

variable {F P D Q C S : Type} [Distance D]

/-! ## The walk -/

/-- What RangeSearch is to return of node `c.id`. -/
def Within (T : Tools F D Q C S) (h : Index F P Q C S) (query : List F) (radius : D)
    (c : Candidate D) : Prop :=
  Live h c.id ∧ c.distance = exactDist T h query c.id ∧ Distance.le c.distance radius = true

/-- The walk from `s`, with `seen` visited and `queue` ahead. -/
structure Ranged (T : Tools F D Q C S) (h : Index F P Q C S) (query : List F) (radius : D)
    (N : Finset ℕ) (s : ℕ) (seen : Finset ℕ) (queue : List ℕ) (results : List (Candidate D)) :
    Prop where
  inside : seen ⊆ N
  begun : s ∈ seen
  queued : ∀ i ∈ queue, i ∈ seen
  once : queue.Nodup
  reach : ∀ i ∈ seen, Live h i → Live h s ∧ Reach h 0 s i
  explored : ∀ i ∈ seen, i ∉ queue → Live h i → ∀ j ∈ conn h 0 i, j ∈ seen
  distinct : (results.map Candidate.id).Nodup
  found : ∀ c, c ∈ results ↔ c.id ∈ seen ∧ c.id ∉ queue ∧ Within T h query radius c

section Walk

variable {T : Tools F D Q C S} {h : Index F P Q C S} {query : List F} {radius : D} {N : Finset ℕ}
  {s cur : ℕ} {seen : Finset ℕ} {queue : List ℕ} {results : List (Candidate D)}

theorem ranged_start (hs : s ∈ N) : Ranged T h query radius N s {s} [s] [] where
  inside := Finset.singleton_subset_iff.mpr hs
  begun := Finset.mem_singleton_self s
  queued i hi := Finset.mem_singleton.mpr (mem_singleton.mp hi)
  once := nodup_singleton s
  reach i hi hlive := by
    rw [Finset.mem_singleton.mp hi] at hlive ⊢
    exact ⟨hlive, .refl⟩
  explored i hi hnot := absurd (mem_singleton.mpr (Finset.mem_singleton.mp hi)) hnot
  distinct := nodup_nil
  found c := by
    refine iff_of_false not_mem_nil fun ⟨hin, hnot, _⟩ => ?_
    exact hnot (mem_singleton.mpr (Finset.mem_singleton.mp hin))

theorem Ranged.drop (hr : Ranged T h query radius N s seen (cur :: queue) results)
    (hdead : ¬ Live h cur) : Ranged T h query radius N s seen queue results where
  inside := hr.inside
  begun := hr.begun
  queued i hi := hr.queued i (mem_cons_of_mem _ hi)
  once := (nodup_cons.mp hr.once).2
  reach := hr.reach
  explored i hi hnot hlive := by
    refine hr.explored i hi (fun hin => ?_) hlive
    rcases mem_cons.mp hin with rfl | hin
    · exact hdead hlive
    · exact hnot hin
  distinct := hr.distinct
  found c := by
    rw [hr.found c, mem_cons, not_or]
    constructor
    · exact fun ⟨hin, ⟨_, hnot⟩, hw⟩ => ⟨hin, hnot, hw⟩
    · exact fun ⟨hin, hnot, hw⟩ => ⟨hin, ⟨fun heq => hdead (heq ▸ hw.1), hnot⟩, hw⟩

theorem mem_measured (hlive : Live h cur) (c : Candidate D) :
    c ∈ (if Distance.le (exactDist T h query cur) radius then
        results ++ [⟨cur, exactDist T h query cur⟩] else results) ↔
      c ∈ results ∨ c.id = cur ∧ Within T h query radius c := by
  have hcand : Distance.le (exactDist T h query cur) radius = true ∧
      c = ⟨cur, exactDist T h query cur⟩ ↔ c.id = cur ∧ Within T h query radius c := by
    constructor
    · rintro ⟨hle, rfl⟩
      exact ⟨rfl, hlive, rfl, hle⟩
    · rintro ⟨rfl, -, hdist, hle⟩
      rw [← hdist]
      exact ⟨hle, rfl⟩
  rw [← hcand]
  split
  case isTrue hle => rw [mem_append, mem_singleton, and_iff_right hle]
  case isFalse hle => exact ⟨.inl, fun hc => hc.resolve_right fun hc => hle hc.1⟩

theorem Ranged.take (hA : Area h 0 N)
    (hr : Ranged T h query radius N s seen (cur :: queue) results) (hlive : Live h cur)
    {fresh : List ℕ} (hnodup : fresh.Nodup)
    (hfresh : ∀ i, i ∈ fresh ↔ i ∈ conn h 0 cur ∧ i ∉ seen) :
    Ranged T h query radius N s (seen ∪ (conn h 0 cur).toFinset) (queue ++ fresh)
      (if Distance.le (exactDist T h query cur) radius then
        results ++ [⟨cur, exactDist T h query cur⟩] else results) := by
  have hcur := hr.queued cur mem_cons_self
  have hnot := (nodup_cons.mp hr.once).1
  obtain ⟨hs, hreach⟩ := hr.reach cur hcur hlive
  have hmem : ∀ i, i ∈ seen ∪ (conn h 0 cur).toFinset ↔ i ∈ seen ∨ i ∈ conn h 0 cur := by
    intro i
    rw [Finset.mem_union, mem_toFinset]
  have hout : ∀ i, i ∉ queue ++ fresh ∧ (i ∈ seen ∨ i ∈ conn h 0 cur) ↔
      i ∉ queue ∧ i ∈ seen := by
    intro i
    rw [mem_append, hfresh, not_or, not_and_not_right]
    constructor
    · exact fun ⟨⟨hq, hold⟩, hin⟩ => ⟨hq, hin.elim id hold⟩
    · exact fun ⟨hq, hin⟩ => ⟨⟨hq, fun _ => hin⟩, .inl hin⟩
  refine ⟨fun i hi => ?_, (hmem s).mpr (.inl hr.begun), fun i hi => ?_, ?_, fun i hi hl => ?_,
    fun i hi hq hl j hj => ?_, ?_, fun c => ?_⟩
  · rcases (hmem i).mp hi with hi | hi
    · exact hr.inside hi
    · exact hA.closed cur (hr.inside hcur) i hi
  · rcases mem_append.mp hi with hi | hi
    · exact (hmem i).mpr (.inl (hr.queued i (mem_cons_of_mem _ hi)))
    · exact (hmem i).mpr (.inr ((hfresh i).mp hi).1)
  · refine nodup_append.mpr ⟨(nodup_cons.mp hr.once).2, hnodup, fun a ha b hb hab => ?_⟩
    exact ((hfresh b).mp hb).2 (hab ▸ hr.queued a (mem_cons_of_mem _ ha))
  · rcases (hmem i).mp hi with hi | hi
    · exact hr.reach i hi hl
    · exact ⟨hs, hreach.tail ⟨hi, hl⟩⟩
  · obtain ⟨hq, hi⟩ := (hout i).mp ⟨hq, (hmem i).mp hi⟩
    rw [hmem]
    by_cases heq : i = cur
    · exact .inr (heq ▸ hj)
    · exact .inl (hr.explored i hi (fun hin => (mem_cons.mp hin).elim heq hq) hl j hj)
  · split
    · rw [map_append, map_singleton]
      refine nodup_append.mpr ⟨hr.distinct, nodup_singleton _, fun a ha b hb hab => ?_⟩
      obtain ⟨c, hc, rfl⟩ := mem_map.mp ha
      refine ((hr.found c).mp hc).2.1 (mem_cons.mpr (.inl ?_))
      rw [hab, mem_singleton.mp hb]
    · exact hr.distinct
  · rw [mem_measured hlive, hr.found, hmem, mem_cons, not_or]
    constructor
    · rintro (⟨hin, ⟨-, hq⟩, hw⟩ | ⟨rfl, hw⟩)
      · obtain ⟨hq, hin⟩ := (hout c.id).mpr ⟨hq, hin⟩
        exact ⟨hin, hq, hw⟩
      · obtain ⟨hq, hin⟩ := (hout c.id).mpr ⟨hnot, hcur⟩
        exact ⟨hin, hq, hw⟩
    · rintro ⟨hin, hq, hw⟩
      obtain ⟨hq, hin⟩ := (hout c.id).mp ⟨hq, hin⟩
      by_cases heq : c.id = cur
      · exact .inr ⟨heq, hw⟩
      · exact .inl ⟨hin, ⟨heq, hq⟩, hw⟩

theorem rangeLoop_spec (hA : Area h 0 N) (fuel : ℕ) {visited : VisitedList}
    (hv : visited.Represents seen) (hr : Ranged T h query radius N s seen queue results)
    (hfuel : (N \ seen).card + queue.length < fuel) :
    ∃ cs seen', rangeLoop T h query radius fuel (visited, queue) results = .value cs ∧
      Ranged T h query radius N s seen' [] cs := by
  induction fuel generalizing visited seen queue results with
  | zero => omega
  | succ fuel ih =>
    cases queue with
    | nil => exact ⟨results, seen, rfl, hr⟩
    | cons cur queue =>
      have hcur := hr.inside (hr.queued cur mem_cons_self)
      obtain ⟨node, hnode⟩ := hA.node cur hcur
      unfold rangeLoop
      simp only [isDeleted_eq hnode, value_bind]
      cases hdel : node.deleted with
      | true =>
        have hdead : ¬ Live h cur := by rw [live_iff hnode, hdel]; simp
        refine ih hv (hr.drop hdead) ?_
        rw [length_cons] at hfuel
        omega
      | false =>
        have hlive := (live_iff hnode).mpr hdel
        simp only [Bool.false_eq_true, if_false, exactDistance_eq hnode, hA.links cur hcur,
          value_bind]
        obtain ⟨fresh, hset, hnodup, hfresh⟩ := Explore.visitEach_queue (conn h 0 cur) seen queue
        rcases Explore.visitEach_congr VisitedList.agree_mark
          (fun i queue => .value (queue ++ [i])) (conn h 0 cur) hv queue with
          ⟨-, hpanic⟩ | ⟨v', w', q', hlist, hset', hv'⟩
        · rw [hset] at hpanic
          cases hpanic
        · rw [hset] at hset'
          cases hset'
          simp only [hlist, value_bind]
          refine ih hv' (hr.take hA hlive hnodup hfresh) ?_
          -- what is new in the queue was not visited before
          have hsub : fresh.toFinset ⊆ N \ seen := by
            intro i hi
            obtain ⟨hi, hnew⟩ := (hfresh i).mp (mem_toFinset.mp hi)
            exact Finset.mem_sdiff.mpr ⟨hA.closed cur hcur i hi, hnew⟩
          have hrest : (N \ (seen ∪ (conn h 0 cur).toFinset)).card + fresh.length ≤
              (N \ seen).card := by
            rw [← toFinset_card_of_nodup hnodup, ← Finset.card_sdiff_add_card_eq_card hsub]
            refine Nat.add_le_add_right (Finset.card_le_card fun i hi => ?_) _
            obtain ⟨hN, hnot⟩ := Finset.mem_sdiff.mp hi
            rw [Finset.mem_union, not_or, mem_toFinset] at hnot
            refine Finset.mem_sdiff.mpr ⟨Finset.mem_sdiff.mpr ⟨hN, hnot.1⟩, fun hin => ?_⟩
            exact hnot.2 ((hfresh i).mp (mem_toFinset.mp hin)).1
          rw [length_cons] at hfuel
          rw [length_append]
          omega

theorem Ranged.reached (hr : Ranged T h query radius N s seen [] results) (hs : Live h s) {i : ℕ}
    (hi : Reach h 0 s i) : i ∈ seen := by
  induction hi with
  | refl => exact hr.begun
  | @tail a b hab hstep ih =>
    have hlive : Live h a := (Reach.live hab).elim (fun heq => heq ▸ hs) id
    exact hr.explored a ih not_mem_nil hlive b hstep.1

/-- **The range search of layer 0** finds each live node within the radius that it reaches, once,
    and nothing if its start is deleted. -/
theorem rangeSearchLayer0_spec (T : Tools F D Q C S) (query : List F) (radius : D)
    (hA : Area h 0 N) (hs : s ∈ N) (visited : VisitedList) :
    ∃ cs, rangeSearchLayer0 T h query visited s radius = .value cs ∧ (cs.map Candidate.id).Nodup ∧
      ∀ c, c ∈ cs ↔ Live h s ∧ Reach h 0 s c.id ∧ Within T h query radius c := by
  have hfuel : (N \ {s}).card + [s].length < h.nodes.length + 1 := by
    rw [Finset.card_sdiff_of_subset (Finset.singleton_subset_iff.mpr hs), Finset.card_singleton,
      length_singleton]
    have hpos := Finset.card_pos.mpr ⟨s, hs⟩
    have hle := hA.length_le
    omega
  have hfirst : Ranged T h query radius N s {s} [s] [] := ranged_start hs
  obtain ⟨cs, seen, hrun, hr⟩ := rangeLoop_spec hA _ (visited.start_represents s) hfirst hfuel
  refine ⟨cs, hrun, hr.distinct, fun c => ?_⟩
  rw [hr.found]
  constructor
  · rintro ⟨hin, -, hw⟩
    obtain ⟨hs, hreach⟩ := hr.reach c.id hin hw.1
    exact ⟨hs, hreach, hw⟩
  · rintro ⟨hs, hreach, hw⟩
    exact ⟨hr.reached hs hreach, not_mem_nil, hw⟩

end Walk

/-! ## RangeSearch -/

/-- What RangeSearch is to return: the live points within the radius, each once. -/
structure Exact (T : Tools F D Q C S) (h : Index F P Q C S) (query : List F) (radius : D)
    (cs : List (Candidate D)) : Prop where
  once : (cs.map Candidate.id).Nodup
  mem : ∀ c, c ∈ cs ↔ Within T h query radius c

/-- **RangeSearch over connected live points** returns exactly those within the radius if and only if the entry
    point is live, or an upper layer has a live neighbour of it closer to the query, or there is nothing to
    return. -/
theorem range_exact_iff {T : Tools F D Q C S} {h : Index F P Q C S} (hr : Reached T h)
    (hconnected : ∀ a b, Live h a → Live h b → Reach h 0 a b) {query : List F}
    (hdim : query.length = h.dimension) (radius : D) (visited : VisitedList) :
    (∃ cs, rangeSearch T h query visited radius = .value cs ∧ Exact T h query radius cs) ↔
      Live h h.entryPoint ∨
      (∃ layer : ℕ, 0 < layer ∧ (layer : Int) ≤ h.maxLevel ∧
        ¬ Settled T h query layer h.entryPoint) ∨
      ∀ c, ¬ Within T h query radius c := by
  have hb := hr.good.base
  by_cases hne : h.maxLevel = -1
  · -- no nodes, so nothing is live
    have hnodes : h.nodes = [] := by
      by_contra hnot
      exact hb.begun.mp hnot hne
    have hnone : ∀ c, ¬ Within T h query radius c := by
      rintro c ⟨⟨node, hnode, -⟩, -⟩
      rw [hnodes] at hnode
      cases hnode
    refine iff_of_true ⟨[], ?_, nodup_nil, fun c => ?_⟩ (.inr (.inr hnone))
    · unfold rangeSearch
      rw [if_neg (not_not.mpr hdim), if_pos hne]
    · exact iff_of_false not_mem_nil (hnone c)
  · obtain ⟨s, hlt, hlayer0, hstart⟩ := layer0Start_spec T query hb.sound hne
    obtain ⟨cs, hrun, honce, hcs⟩ := rangeSearchLayer0_spec T query radius (hb.sound.area 0)
      (Finset.mem_range.mpr hlt) visited
    have hcall : rangeSearch T h query visited radius = .value cs := by
      unfold rangeSearch
      rw [if_neg (not_not.mpr hdim), if_neg hne]
      simp only [hlayer0, value_bind, hrun]
      rfl
    rw [← or_assoc, ← start_live_iff hstart]
    constructor
    · rintro ⟨cs', hcall', hexact⟩
      rw [hcall] at hcall'
      cases hcall'
      by_cases hs : Live h s
      · exact .inl hs
      · exact .inr fun c hw => hs ((hcs c).mp ((hexact.mem c).mpr hw)).1
    · intro hor
      refine ⟨cs, hcall, honce, fun c => ?_⟩
      rw [hcs]
      rcases hor with hs | hnone
      · exact ⟨fun ⟨_, _, hw⟩ => hw, fun hw => ⟨hs, hconnected s c.id hs hw.1, hw⟩⟩
      · exact ⟨fun ⟨_, _, hw⟩ => hw, fun hw => absurd hw (hnone c)⟩

/-- The entry point is deleted: the point that is left is at the query, and is not returned. -/
theorem range_misses_point : ∃ h₀ h : Index ℕ ℕ Unit Unit Unit,
    new ⟨2, 10, 10, 1⟩ (Stream'.const 0) none Links.empty none = .ok h₀ ∧
      run (step line) h₀ [.put 1 5, .put 2 7, .delete [1]] = some h ∧
      (∀ a b, Live h a → Live h b → Reach h 0 a b) ∧ Within line h [7] 1 ⟨1, 0⟩ ∧
      rangeSearch line h [7] (.new 4) 1 = .value [] := by
  refine exists_view (fun _ h =>
    h.nodes = [some ⟨[1], [5], 0, 0, true, none⟩, some ⟨[2], [7], 0, 0, false, none⟩] ∧
    exactDist line h [7] 1 = 0 ∧ rangeSearch line h [7] (.new 4) 1 = .value []) (by decide +kernel)
    fun h₀ h hnew hrun ⟨hnodes, hdist, hcall⟩ => ?_
  have hlive : ∀ i, Live h i ↔ i = 1 := by
    intro i
    unfold Live
    rw [hnodes]
    match i with
    | 0 => simp
    | 1 => simp
    | i + 2 => simp
  refine ⟨fun a b ha hb => ?_, ⟨(hlive 1).mpr rfl, hdist.symm, rfl⟩, hcall⟩
  rw [(hlive a).mp ha, (hlive b).mp hb]
  exact .refl

/-- Three points, of which the one in the middle is deleted; the others are linked. -/
theorem range_exact_line : ∃ h₀ h : Index ℕ ℕ Unit Unit Unit,
    new ⟨2, 10, 10, 1⟩ (Stream'.const 0) none Links.empty none = .ok h₀ ∧
      run (step line) h₀ [.put 1 5, .put 2 7, .put 3 9, .delete [2]] = some h ∧
      (∀ a b, Live h a → Live h b → Reach h 0 a b) ∧ ∀ x radius visited,
        ∃ cs, rangeSearch line h [x] visited radius = .value cs ∧ Exact line h [x] radius cs := by
  refine exists_view (fun _ h => h.nodes = [some ⟨[1], [5], 0, 0, false, none⟩,
    some ⟨[2], [7], 0, 0, true, none⟩, some ⟨[3], [9], 0, 0, false, none⟩] ∧ h.entryPoint = 0 ∧
    2 ∈ conn h 0 0 ∧ 0 ∈ conn h 0 2) (by decide +kernel)
    fun h₀ h hnew hrun ⟨hnodes, hentry, hthere, hback⟩ => ?_
  obtain ⟨hr, hm⟩ := reached_of_run hnew hrun
  have hlive : ∀ i, Live h i ↔ i = 0 ∨ i = 2 := by
    intro i
    unfold Live
    rw [hnodes]
    match i with
    | 0 => simp
    | 1 => simp
    | 2 => simp
    | i + 3 => simp
  have hconnected : ∀ a b, Live h a → Live h b → Reach h 0 a b := by
    intro a b ha hb
    rcases (hlive a).mp ha with rfl | rfl <;> rcases (hlive b).mp hb with rfl | rfl
    · exact .refl
    · exact .single ⟨hthere, hb⟩
    · exact .single ⟨hback, hb⟩
    · exact .refl
  refine ⟨hconnected, fun x radius visited => ?_⟩
  have hdim : [x].length = h.dimension := hm.dimension.symm
  refine (range_exact_iff hr hconnected hdim radius visited).mpr (.inl ?_)
  rw [hentry]
  exact (hlive 0).mpr (.inl rfl)

end LimyeDB.Graph
