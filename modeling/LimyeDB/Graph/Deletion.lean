/-
  WHAT A DELETE HIDES: a deleted node stays in the graph, and no search goes on from it unless it is where the
  search begins.
-/
import LimyeDB.Graph.Valid

namespace LimyeDB.Graph

open Go Hnsw Lib.Runs List

variable {F P D Q C S : Type} [Distance D]

/-! ## The mark -/

def Around (h : Index F P Q C S) (layer : ℕ) (id : Bytes) : ℕ → ℕ → Prop :=
  Relation.ReflTransGen fun a b => b ∈ conn h layer a ∧ Live h b ∧ h.idToIndex id ≠ some b

section Mark

variable {T : Tools F D Q C S} {h h' : Index F P Q C S} {i : ℕ} {node : Node F P} {id : Bytes}
  {e : Option IndexError}

theorem delete_cases (hx : Indexed h) (hact : act T h (.delete id) = .value (h', e)) :
    (h' = h ∧ ∀ i, h.idToIndex id = some i → ¬ Live h i) ∨
      ∃ i node, h.idToIndex id = some i ∧ h.nodes[i]? = some (some node) ∧
        h' = marked h i node := by
  cases hid : h.idToIndex id with
  | none =>
    simp only [act, Hnsw.delete, hid, Outcome.value.injEq, Prod.mk.injEq] at hact
    exact .inl ⟨hact.1.symm, fun i hi => by cases hi⟩
  | some i =>
    obtain ⟨node, hnode, -⟩ := (hx id i).mp hid
    cases hdel : node.deleted with
    | true =>
      simp only [act, Hnsw.delete, hid, hnode, hdel, if_true, Outcome.value.injEq,
        Prod.mk.injEq] at hact
      refine .inl ⟨hact.1.symm, fun j hj hlive => ?_⟩
      cases hj
      rw [live_iff hnode, hdel] at hlive
      cases hlive
    | false =>
      simp only [act, Hnsw.delete, hid, hnode, hdel, Bool.false_eq_true, if_false,
        Outcome.value.injEq, Prod.mk.injEq] at hact
      exact .inr ⟨i, node, rfl, hnode, hact.1.symm⟩

theorem live_marked (hnode : h.nodes[i]? = some (some node)) (j : ℕ) :
    Live (marked h i node) j ↔ Live h j ∧ j ≠ i := by
  unfold Live marked
  by_cases hij : i = j
  · subst hij
    have hlt := (List.getElem?_eq_some_iff.mp hnode).1
    simp [getElem?_set_self hlt]
  · simp [getElem?_set_ne hij, Ne.symm hij]

theorem exactDist_marked (hnode : h.nodes[i]? = some (some node)) (query : List F) (j : ℕ) :
    exactDist T (marked h i node) query j = exactDist T h query j := by
  have hvector : vectorAt T (marked h i node) j = vectorAt T h j := by
    unfold vectorAt nodeAt marked
    by_cases hij : i = j
    · subst hij
      have hlt := (List.getElem?_eq_some_iff.mp hnode).1
      simp only [getElem?_set_self hlt, hnode]
      rfl
    · simp only [getElem?_set_ne hij]
      rfl
  unfold exactDist exactDistance
  rw [hvector]

theorem reach_marked (hid : h.idToIndex id = some i)
    (hnode : h.nodes[i]? = some (some node)) (layer a b : ℕ) :
    Reach (marked h i node) layer a b ↔ Around h layer id a b := by
  have hstep : (fun a b => b ∈ conn (marked h i node) layer a ∧ Live (marked h i node) b) =
      fun a b => b ∈ conn h layer a ∧ Live h b ∧ h.idToIndex id ≠ some b := by
    funext a b
    rw [(sameGraph_marked hnode).conn, live_marked hnode, hid]
    simp only [ne_eq, Option.some.injEq, eq_comm]
  unfold Reach Around
  rw [hstep]

theorem reach_eq_around (hdead : ∀ i, h.idToIndex id = some i → ¬ Live h i) (layer : ℕ) :
    Reach h layer = Around h layer id := by
  have hstep : (fun a b => b ∈ conn h layer a ∧ Live h b) =
      fun a b => b ∈ conn h layer a ∧ Live h b ∧ h.idToIndex id ≠ some b := by
    funext a b
    refine propext ⟨fun ⟨hb, hlive⟩ => ⟨hb, hlive, fun hid => hdead b hid hlive⟩, ?_⟩
    exact fun ⟨hb, hlive, _⟩ => ⟨hb, hlive⟩
  unfold Reach Around
  rw [hstep]

/-- What a search sees of an index behind a delete. -/
structure Hidden (T : Tools F D Q C S) (h : Index F P Q C S) (id : Bytes) (h' : Index F P Q C S) :
    Prop where
  length : h'.nodes.length = h.nodes.length
  dimension : h'.dimension = h.dimension
  maxLevel : h'.maxLevel = h.maxLevel
  width : ∀ ef, overFetch h' ef = overFetch h ef
  distance : ∀ query j, exactDist T h' query j = exactDist T h query j
  reach : ∀ layer a b, Reach h' layer a b ↔ Around h layer id a b

theorem delete_hidden (hx : Indexed h) (hact : act T h (.delete id) = .value (h', e)) :
    Hidden T h id h' := by
  rcases delete_cases hx hact with ⟨rfl, hdead⟩ | ⟨i, node, hid, hnode, rfl⟩
  · refine ⟨rfl, rfl, rfl, fun _ => rfl, fun _ _ => rfl, fun layer a b => ?_⟩
    rw [reach_eq_around hdead]
  · exact ⟨length_set, rfl, rfl, fun _ => rfl, exactDist_marked hnode,
      reach_marked hid hnode⟩

end Mark

/-! ## A search for everything -/

section Everything

variable {T : Tools F D Q C S} {h : Index F P Q C S}

omit [Distance D] in
theorem fits_delete (id : Bytes) : Fits h (.delete id : Action F P) := by
  rintro ⟨p, visited, heq, -⟩
  cases heq

theorem searchWithEf_all (hr : Reached T h) {query : List F} (hdim : query.length = h.dimension)
    (hne : h.maxLevel ≠ -1) {s : ℕ} (hstart : Start T h query s) {k ef : Int}
    (hk : (h.nodes.length : Int) ≤ k)
    (hwide : (h.nodes.length : Int) ≤ overFetch h (if ef < k then k else ef))
    (visited : VisitedList) :
    ∃ cs, searchWithEf T h query visited k ef = .value cs ∧
      ∀ c, c ∈ cs ↔ Reach h 0 s c.id ∧ c.distance = exactDist T h query c.id := by
  have hs := hr.good.base.sound
  obtain ⟨hlt, -⟩ := layer0Start_eq hs hne hstart
  obtain ⟨cs, hcall, hranked, hwhole⟩ := searchWithEf_spec hs hdim hne hstart visited k ef
  have hlength := hranked.length_le hs hlt
  rw [topK_value (by omega), take_of_length_le (by omega)] at hcall
  refine ⟨cs, hcall, fun c => ⟨fun hc => ⟨hranked.reach c hc, hranked.distance c hc⟩, ?_⟩⟩
  rintro ⟨hreach, hdist⟩
  obtain ⟨d, hd, hid⟩ := hwhole hwide c.id hreach trivial
  have hcd : c = d := by
    cases c
    cases d
    simp only [Candidate.mk.injEq]
    refine ⟨hid.symm, hdist.trans ?_⟩
    rw [← hid]
    exact (hranked.distance _ hd).symm
  exact hcd ▸ hd

end Everything

/-- **After a delete**, a search for everything returns what it returned before and lies around the deleted
    point, seen from where it begins now; of the point itself only if the search begins there. -/
theorem delete_keeps_findable {T : Tools F D Q C S} {h h' : Index F P Q C S} (hr : Reached T h)
    {id : Bytes} {e : Option IndexError} (hact : act T h (.delete id) = .value (h', e))
    (query : List F) {k ef : Int} (hk : (h.nodes.length : Int) ≤ k)
    (hwide : (h.nodes.length : Int) ≤ overFetch h (if ef < k then k else ef))
    (visited visited' : VisitedList) {cs : List (Candidate D)}
    (hcall : searchWithEf T h query visited k ef = .value cs) :
    ∃ cs', searchWithEf T h' query visited' k ef = .value cs' ∧
      ∀ c ∈ cs, (c ∈ cs' ↔ ∃ s, Start T h' query s ∧ Around h 0 id s c.id) := by
  have hv := delete_hidden hr.good.counted.indexed hact
  have hr' : Reached T h' := .call hr (fits_delete id) hact
  by_cases hdim : query.length = h.dimension
  · by_cases hne : h.maxLevel = -1
    · refine ⟨[], ?_, ?_⟩
      · unfold searchWithEf
        rw [hv.dimension, hv.maxLevel, if_neg (not_not.mpr hdim), if_pos hne]
      · unfold searchWithEf at hcall
        rw [if_neg (not_not.mpr hdim), if_pos hne] at hcall
        cases hcall
        exact nofun
    · obtain ⟨s, -, -, hstart⟩ := layer0Start_spec T query hr.good.base.sound hne
      have hne' : h'.maxLevel ≠ -1 := hv.maxLevel ▸ hne
      obtain ⟨s', -, -, hstart'⟩ := layer0Start_spec T query hr'.good.base.sound hne'
      obtain ⟨cs₀, hcall₀, hcs⟩ := searchWithEf_all hr hdim hne hstart hk hwide visited
      obtain ⟨cs', hcall', hcs'⟩ := searchWithEf_all hr' (hdim.trans hv.dimension.symm) hne' hstart'
        (hv.length ▸ hk) (by rw [hv.length, hv.width]; exact hwide) visited'
      rw [hcall] at hcall₀
      cases hcall₀
      refine ⟨cs', hcall', fun c hc => ?_⟩
      obtain ⟨-, hdist⟩ := (hcs c).mp hc
      rw [hcs', hv.reach, hv.distance]
      constructor
      · exact fun ⟨hreach, _⟩ => ⟨s', hstart', hreach⟩
      · rintro ⟨s'', hstart'', hreach⟩
        rw [hstart''.unique hstart'] at hreach
        exact ⟨hreach, hdist⟩
  · unfold searchWithEf at hcall
    rw [if_pos hdim] at hcall
    cases hcall

/-- Without the one in the middle of three points in a row the last is no longer found. -/
theorem delete_hides_neighbour : ∃ h₀ h h' : Index ℕ ℕ Unit Unit Unit,
    new ⟨2, 1, 10, 1⟩ (Stream'.const 0) none Links.empty none = .ok h₀ ∧
      run (step line) h₀ [.put 1 5, .put 2 7, .put 3 9] = some h ∧
      h.nodes.length = 3 ∧ step line h (.delete [2]) = some h' ∧ Hnsw.get line.mmap h' [3] = .value ⟨[3], [9], none, [], none⟩ ∧
      searchWithEf line h [9] (.new 4) 3 10 = .value [⟨2, 0⟩, ⟨1, 2⟩, ⟨0, 4⟩] ∧
      searchWithEf line h' [9] (.new 4) 3 10 = .value [⟨0, 4⟩] := by
  refine exists_view_next (fun _ h => (step line h (.delete [2])).any fun h' => decide (h.nodes.length = 3 ∧
    Hnsw.get line.mmap h' [3] = .value ⟨[3], [9], none, [], none⟩ ∧
    searchWithEf line h [9] (.new 4) 3 10 = .value [⟨2, 0⟩, ⟨1, 2⟩, ⟨0, 4⟩] ∧
    searchWithEf line h' [9] (.new 4) 3 10 = .value [⟨0, 4⟩])) (by decide +kernel)
    fun h₀ h _ _ hview => ?_
  obtain ⟨h', hstep, hview⟩ := (Option.any_eq_true ..).mp hview
  obtain ⟨hlength, hget, hbefore, hafter⟩ := of_decide_eq_true hview
  exact ⟨h', hlength, hstep, hget, hbefore, hafter⟩

/-- Without the last one, the search finds the two that are left. -/
theorem delete_keeps_findable_line : ∃ h₀ h h' : Index ℕ ℕ Unit Unit Unit,
    new ⟨2, 1, 10, 1⟩ (Stream'.const 0) none Links.empty none = .ok h₀ ∧
      run (step line) h₀ [.put 1 5, .put 2 7, .put 3 9] = some h ∧
      step line h (.delete [3]) = some h' ∧
      ∃ cs', searchWithEf line h' [9] (.new 4) 3 10 = .value cs' ∧
        ∀ c ∈ [(⟨2, 0⟩ : Candidate ℕ), ⟨1, 2⟩, ⟨0, 4⟩],
          (c ∈ cs' ↔ ∃ s, Start line h' [9] s ∧ Around h 0 [3] s c.id) := by
  refine exists_view_next (fun _ h => (step line h (.delete [3])).any fun _ => decide ((h.nodes.length : Int) ≤ 3 ∧
    (h.nodes.length : Int) ≤ overFetch h (if (10 : Int) < 3 then 3 else 10) ∧
    searchWithEf line h [9] (.new 4) 3 10 = .value [⟨2, 0⟩, ⟨1, 2⟩, ⟨0, 4⟩])) (by decide +kernel)
    fun h₀ h hnew hrun hview => ?_
  obtain ⟨h', hstep, hview⟩ := (Option.any_eq_true ..).mp hview
  obtain ⟨hk, hwide, hcall⟩ := of_decide_eq_true hview
  obtain ⟨hr, -⟩ := reached_of_run hnew hrun
  obtain ⟨e, hact⟩ := act_of_step hstep
  exact ⟨h', hstep, delete_keeps_findable hr hact [9] hk hwide (.new 4) (.new 4) hcall⟩

end LimyeDB.Graph
