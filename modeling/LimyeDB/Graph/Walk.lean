/-
  WHERE A SEARCH OF LAYER 0 BEGINS: the greedy walk of the upper layers, without the code.
-/
import LimyeDB.Graph.Search

namespace LimyeDB.Graph

open Go Hnsw Lib List Outcome

variable {F P D Q C S : Type} [Distance D]

/-! ## The graph as it is read -/

def conn (h : Index F P Q C S) (layer i : ℕ) : List ℕ :=
  match getConnections h i layer with
  | .value ids => ids
  | _ => []

def Live (h : Index F P Q C S) (i : ℕ) : Prop :=
  ∃ node, h.nodes[i]? = some (some node) ∧ node.deleted = false

def dist (T : Tools F D Q C S) (h : Index F P Q C S) (query : List F) (i : ℕ) : D :=
  match distanceTo T h query i with
  | .value d => d
  | _ => Distance.zero

def exactDist (T : Tools F D Q C S) (h : Index F P Q C S) (query : List F) (i : ℕ) : D :=
  match exactDistance T h query i with
  | .value d => d
  | _ => Distance.zero

/-- Nodes that exist, with links at the layer that lead to nodes among them. -/
structure Area (h : Index F P Q C S) (layer : ℕ) (N : Finset ℕ) : Prop where
  node : ∀ i ∈ N, ∃ node, h.nodes[i]? = some (some node)
  links : ∀ i ∈ N, getConnections h i layer = .value (conn h layer i)
  closed : ∀ i ∈ N, ∀ j ∈ conn h layer i, j ∈ N

section Access

variable {T : Tools F D Q C S} {h : Index F P Q C S} {query : List F} {layer i : ℕ}

variable {node : Node F P}

theorem nodeAt_value (hnode : nodeAt h i = .value node) : h.nodes[i]? = some (some node) := by
  unfold nodeAt at hnode
  split at hnode
  · cases hnode
    assumption
  · cases hnode

section

variable (hnode : h.nodes[i]? = some (some node))
include hnode

theorem nodeAt_eq : nodeAt h i = .value node := by
  unfold nodeAt
  rw [hnode]

theorem isDeleted_eq : isDeleted h i = .value node.deleted := by
  unfold isDeleted
  rw [nodeAt_eq hnode]
  rfl

theorem live_iff : Live h i ↔ node.deleted = false := by
  unfold Live
  simp [hnode]

theorem exactDistance_eq : exactDistance T h query i = .value (exactDist T h query i) := by
  unfold exactDist exactDistance vectorAt
  rw [nodeAt_eq hnode]
  rfl

theorem distanceTo_eq : distanceTo T h query i = .value (dist T h query i) := by
  unfold dist distanceTo
  simp only [nodeAt_eq hnode, value_bind, exactDistance_eq hnode]
  split <;> rfl

end

theorem dist_eq_exactDist (hq : h.graph.quantizer = none) (hnode : h.nodes[i]? = some (some node)) :
    dist T h query i = exactDist T h query i := by
  have hboth : distanceTo T h query i = exactDistance T h query i := by
    unfold distanceTo
    simp only [nodeAt_eq hnode, value_bind, hq]
  rw [distanceTo_eq hnode, exactDistance_eq hnode] at hboth
  exact Outcome.value.inj hboth

theorem Area.length_le {N : Finset ℕ} (hA : Area h layer N) : N.card ≤ h.nodes.length := by
  have hsub : N ⊆ Finset.range h.nodes.length := by
    intro i hi
    obtain ⟨node, hnode⟩ := hA.node i hi
    rw [Finset.mem_range]
    exact (List.getElem?_eq_some_iff.mp hnode).1
  exact (Finset.card_le_card hsub).trans (Finset.card_range _).le

end Access

/-! ## The walk -/

/-- The first of the closest live neighbours, if it is closer than the node itself. -/
def Chosen (T : Tools F D Q C S) (h : Index F P Q C S) (query : List F) (layer i j : ℕ) : Prop :=
  ∃ before after, conn h layer i = before ++ j :: after ∧ Live h j ∧
    Distance.lt (dist T h query j) (dist T h query i) = true ∧
    (∀ k ∈ before, Live h k → Distance.lt (dist T h query j) (dist T h query k) = true ∨
      Distance.lt (dist T h query k) (dist T h query i) = false) ∧
    ∀ k ∈ after, Live h k → Distance.lt (dist T h query k) (dist T h query j) = false

def Settled (T : Tools F D Q C S) (h : Index F P Q C S) (query : List F) (layer i : ℕ) : Prop :=
  ∀ k ∈ conn h layer i, Live h k → Distance.lt (dist T h query k) (dist T h query i) = false

inductive Walk (T : Tools F D Q C S) (h : Index F P Q C S) (query : List F) (layer : ℕ) :
    ℕ → ℕ → Prop where
  | stop {i : ℕ} (hstop : Settled T h query layer i) : Walk T h query layer i i
  | move {i j k : ℕ} (hmove : Chosen T h query layer i j) (hrest : Walk T h query layer j k) :
      Walk T h query layer i k

/-- A walk at each layer from `l` down to the one above `stop`. -/
inductive Descent (T : Tools F D Q C S) (h : Index F P Q C S) (query : List F) (stop : ℕ) :
    ℕ → ℕ → ℕ → Prop where
  | done {l i : ℕ} (hdone : l ≤ stop) : Descent T h query stop l i i
  | layer {l i j k : ℕ} (hl : stop < l + 1) (hwalk : Walk T h query (l + 1) i j)
      (hrest : Descent T h query stop l j k) : Descent T h query stop (l + 1) i k

/-- **The node with which the search of layer 0 begins.** -/
def Start (T : Tools F D Q C S) (h : Index F P Q C S) (query : List F) (s : ℕ) : Prop :=
  Descent T h query 0 h.maxLevel.toNat h.entryPoint s

section Walk

variable {T : Tools F D Q C S} {h : Index F P Q C S} {query : List F} {layer i j k : ℕ}

theorem Chosen.unique (hj : Chosen T h query layer i j) (hk : Chosen T h query layer i k) :
    j = k := by
  obtain ⟨b, a, hconn, hlive, hlt, hbefore, hafter⟩ := hj
  obtain ⟨b', a', hconn', hlive', hlt', hbefore', hafter'⟩ := hk
  rw [hconn] at hconn'
  -- one of the two stands first, and the other one is then both closer and not closer
  rcases append_eq_append_iff.mp hconn' with ⟨m, hb', hm⟩ | ⟨m, hb, hm⟩
  · cases m with
    | nil => exact (cons.inj hm).1
    | cons x m =>
      obtain ⟨rfl, rfl⟩ := cons.inj hm
      have hnot := hafter k (by simp) hlive'
      rcases hbefore' j (by rw [hb']; simp) hlive with hcloser | hfar
      · rw [hnot] at hcloser
        cases hcloser
      · rw [hlt] at hfar
        cases hfar
  · cases m with
    | nil => exact (cons.inj hm).1.symm
    | cons x m =>
      obtain ⟨rfl, rfl⟩ := cons.inj hm
      have hnot := hafter' j (by simp) hlive
      rcases hbefore k (by rw [hb]; simp) hlive' with hcloser | hfar
      · rw [hnot] at hcloser
        cases hcloser
      · rw [hlt'] at hfar
        cases hfar

theorem Settled.not_chosen (hi : Settled T h query layer i) : ¬ Chosen T h query layer i j := by
  rintro ⟨b, a, hconn, hlive, hlt, -⟩
  rw [hi j (by rw [hconn]; simp) hlive] at hlt
  cases hlt

theorem Walk.unique (hj : Walk T h query layer i j) (hk : Walk T h query layer i k) : j = k := by
  induction hj with
  | stop hstop =>
    cases hk with
    | stop => rfl
    | move hmove => exact absurd hmove hstop.not_chosen
  | move hmove _ ih =>
    cases hk with
    | stop hstop => exact absurd hmove hstop.not_chosen
    | move hmove' hrest' => exact ih (hmove.unique hmove' ▸ hrest')

theorem Descent.unique {stop l : ℕ} (hj : Descent T h query stop l i j)
    (hk : Descent T h query stop l i k) : j = k := by
  induction hj with
  | done hdone =>
    cases hk with
    | done => rfl
    | layer hl => omega
  | layer hl hwalk _ ih =>
    cases hk with
    | done hdone => omega
    | layer _ hwalk' hrest' => exact ih (hwalk.unique hwalk' ▸ hrest')

end Walk

/-! ## The code walks -/

/-- The loop over the neighbours of `i` behind `before`: nothing closer was there, or the first of the closest
    so far. -/
def Scanned (T : Tools F D Q C S) (h : Index F P Q C S) (query : List F) (i : ℕ)
    (before : List ℕ) : ℕ × D × Bool → Prop
  | (cur, d, false) => cur = i ∧ d = dist T h query i ∧
      ∀ k ∈ before, Live h k → Distance.lt (dist T h query k) (dist T h query i) = false
  | (cur, d, true) => d = dist T h query cur ∧ ∃ b a, before = b ++ cur :: a ∧ Live h cur ∧
      Distance.lt (dist T h query cur) (dist T h query i) = true ∧
      (∀ k ∈ b, Live h k → Distance.lt (dist T h query cur) (dist T h query k) = true ∨
        Distance.lt (dist T h query k) (dist T h query i) = false) ∧
      ∀ k ∈ a, Live h k → Distance.lt (dist T h query k) (dist T h query cur) = false

section Greedy

variable {T : Tools F D Q C S} {h : Index F P Q C S} {query : List F} {layer i : ℕ}

variable {before : List ℕ} {s : ℕ × D × Bool} {j : ℕ} {N : Finset ℕ}

theorem Scanned.skip (hs : Scanned T h query i before s) {x : ℕ}
    (hx : Live h x → Distance.lt (dist T h query x) s.2.1 = false) :
    Scanned T h query i (before ++ [x]) s := by
  obtain ⟨cur, d, changed⟩ := s
  cases changed with
  | false =>
    obtain ⟨rfl, rfl, hall⟩ := hs
    exact ⟨rfl, rfl, forall_mem_append.mpr ⟨hall, forall_mem_singleton.mpr hx⟩⟩
  | true =>
    obtain ⟨rfl, b, a, rfl, hlive, hlt, hb, ha⟩ := hs
    exact ⟨rfl, b, a ++ [x], by simp, hlive, hlt, hb, forall_mem_append.mpr ⟨ha, forall_mem_singleton.mpr hx⟩⟩

theorem Scanned.take (hs : Scanned T h query i before s) {x : ℕ} (hlive : Live h x)
    (hx : Distance.lt (dist T h query x) s.2.1 = true) :
    Scanned T h query i (before ++ [x]) (x, dist T h query x, true) := by
  obtain ⟨cur, d, changed⟩ := s
  cases changed with
  | false =>
    obtain ⟨rfl, rfl, hall⟩ := hs
    exact ⟨rfl, before, [], rfl, hlive, hx, fun k hk hk' => .inr (hall k hk hk'), by simp⟩
  | true =>
    obtain ⟨rfl, b, a, rfl, hcur, hlt, hb, ha⟩ := hs
    have hlt' : Distance.lt (dist T h query x) (dist T h query i) = true := Distance.trans hx hlt
    refine ⟨rfl, b ++ cur :: a, [], by simp, hlive, hlt', fun k hk hk' => ?_, by simp⟩
    rcases mem_append.mp hk with hk | hk
    · rcases hb k hk hk' with hcloser | hfar
      · exact .inl (Distance.trans hx hcloser)
      · exact .inr hfar
    · rcases mem_cons.mp hk with rfl | hk
      · exact .inl hx
      · -- behind the old choice: not closer than it, so farther than the new one, or NaN
        cases hnan : Distance.nan (dist T h query k) with
        | true =>
          refine .inr (Bool.eq_false_iff.mpr fun hki => ?_)
          rw [(Distance.lt_nan hki).1] at hnan
          cases hnan
        | false =>
          rcases Distance.cotrans hx hnan with hcloser | hki
          · exact .inl hcloser
          · rw [ha k hk hk'] at hki
            cases hki

theorem greedyStep_spec {neighbors : List ℕ}
    (hnodes : ∀ j ∈ neighbors, ∃ node, h.nodes[j]? = some (some node))
    (hs : Scanned T h query i before s) : ∃ s', greedyStep T h query neighbors s = .value s' ∧
      Scanned T h query i (before ++ neighbors) s' := by
  induction neighbors generalizing before s with
  | nil => exact ⟨s, rfl, by rwa [append_nil]⟩
  | cons x neighbors ih =>
    obtain ⟨node, hnode⟩ := hnodes x mem_cons_self
    obtain ⟨cur, d, changed⟩ := s
    unfold greedyStep
    simp only [isDeleted_eq hnode, distanceTo_eq hnode, value_bind]
    have hnext : ∀ s, Scanned T h query i (before ++ [x]) s → ∃ s',
        greedyStep T h query neighbors s = .value s' ∧
          Scanned T h query i (before ++ x :: neighbors) s' := by
      intro s hs
      obtain ⟨s', hrun, hs'⟩ := ih (forall_mem_cons.mp hnodes).2 hs
      rw [append_assoc, singleton_append] at hs'
      exact ⟨s', hrun, hs'⟩
    cases hdel : node.deleted with
    | true =>
      refine hnext _ (hs.skip fun hlive => ?_)
      rw [(live_iff hnode).mp hlive] at hdel
      cases hdel
    | false =>
      have hlive := (live_iff hnode).mpr hdel
      cases hlt : Distance.lt (dist T h query x) d with
      | true =>
        exact hnext _ (hs.take hlive hlt)
      | false =>
        exact hnext _ (hs.skip fun _ => hlt)

theorem Scanned.finish (hs : Scanned T h query i (conn h layer i) s) :
    (s = (i, dist T h query i, false) ∧ Settled T h query layer i) ∨
      ∃ j, s = (j, dist T h query j, true) ∧ Chosen T h query layer i j := by
  obtain ⟨cur, d, changed⟩ := s
  cases changed with
  | false =>
    obtain ⟨rfl, rfl, hall⟩ := hs
    exact .inl ⟨rfl, hall⟩
  | true =>
    obtain ⟨rfl, b, a, hconn, hchosen⟩ := hs
    exact .inr ⟨cur, rfl, b, a, hconn, hchosen⟩

section

variable (hj : Chosen T h query layer i j)
include hj

theorem Chosen.mem : j ∈ conn h layer i := by
  obtain ⟨b, a, hconn, -⟩ := hj
  rw [hconn]
  simp

theorem Chosen.live : Live h j := by
  obtain ⟨-, -, -, hlive, -⟩ := hj
  exact hlive

theorem Chosen.closer : Distance.lt (dist T h query j) (dist T h query i) = true := by
  obtain ⟨-, -, -, -, hlt, -⟩ := hj
  exact hlt

end

def closerNodes (T : Tools F D Q C S) (h : Index F P Q C S) (query : List F) (N : Finset ℕ)
    (i : ℕ) : Finset ℕ :=
  N.filter fun j => Distance.lt (dist T h query j) (dist T h query i) = true

theorem closerNodes_lt (hj : j ∈ N) (hlt : Distance.lt (dist T h query j) (dist T h query i) = true) :
    (closerNodes T h query N j).card < (closerNodes T h query N i).card := by
  refine Finset.card_lt_card ⟨fun k hk => ?_, fun hall => ?_⟩
  · obtain ⟨hk, hcloser⟩ := Finset.mem_filter.mp hk
    exact Finset.mem_filter.mpr ⟨hk, Distance.trans hcloser hlt⟩
  · have hself := (Finset.mem_filter.mp (hall (Finset.mem_filter.mpr ⟨hj, hlt⟩))).2
    rw [Distance.irrefl] at hself
    cases hself

theorem greedyLoop_spec (hA : Area h layer N) (fuel : ℕ) (hi : i ∈ N)
    (hfuel : (closerNodes T h query N i).card < fuel) :
    ∃ r ∈ N, greedyLoop T h query layer fuel i (dist T h query i) = .value r ∧
      Walk T h query layer i r := by
  induction fuel generalizing i with
  | zero => omega
  | succ fuel ih =>
    have hstart : Scanned T h query i [] (i, dist T h query i, false) := ⟨rfl, rfl, by simp⟩
    have hnodes : ∀ j ∈ conn h layer i, ∃ node, h.nodes[j]? = some (some node) := fun j hj =>
      hA.node j (hA.closed i hi j hj)
    obtain ⟨s, hstep, hs⟩ := greedyStep_spec hnodes hstart
    unfold greedyLoop
    simp only [hA.links i hi, value_bind, hstep]
    rcases hs.finish with ⟨rfl, hsettled⟩ | ⟨j, rfl, hchosen⟩
    · exact ⟨i, hi, rfl, .stop hsettled⟩
    · have hj := hA.closed i hi j hchosen.mem
      have hfewer := closerNodes_lt hj hchosen.closer
      obtain ⟨r, hr, hloop, hwalk⟩ := ih hj (by omega)
      exact ⟨r, hr, hloop, .move hchosen hwalk⟩

theorem greedySearchLayer_spec (T : Tools F D Q C S) (query : List F) (hA : Area h layer N)
    (hi : i ∈ N) :
    ∃ r ∈ N, greedySearchLayer T h query i layer = .value r ∧ Walk T h query layer i r := by
  obtain ⟨node, hnode⟩ := hA.node i hi
  unfold greedySearchLayer
  simp only [distanceTo_eq hnode, value_bind]
  refine greedyLoop_spec hA _ hi (Nat.lt_succ_of_le ?_)
  exact (Finset.card_filter_le ..).trans hA.length_le

theorem descend_spec (T : Tools F D Q C S) (query : List F) {N : ℕ → Finset ℕ} (stop l : ℕ)
    (hA : ∀ layer, stop < layer → layer ≤ l → Area h layer (N layer))
    (hmono : ∀ layer, layer < l → N (layer + 1) ⊆ N layer) (hi : i ∈ N l) :
    ∃ r ∈ N (min stop l), descend T h query stop l i = .value r ∧
      Descent T h query stop l i r := by
  induction l generalizing i with
  | zero => exact ⟨i, by rwa [Nat.min_zero], rfl, .done (Nat.zero_le _)⟩
  | succ l ih =>
    unfold descend
    by_cases hl : stop < l + 1
    · obtain ⟨j, hj, hgreedy, hwalk⟩ := greedySearchLayer_spec T query (hA (l + 1) hl le_rfl) hi
      obtain ⟨r, hr, hrest, hdescent⟩ := ih (fun layer hs hle => hA layer hs (by omega))
        (fun layer hlt => hmono layer (by omega)) (hmono l (Nat.lt_succ_self l) hj)
      rw [if_pos hl]
      simp only [hgreedy, value_bind]
      refine ⟨r, ?_, hrest, .layer hl hwalk hdescent⟩
      rw [Nat.min_eq_left (Nat.le_of_lt_succ hl)] at hr
      rwa [Nat.min_eq_left hl.le]
    · rw [if_neg hl]
      refine ⟨i, ?_, rfl, .done (Nat.le_of_not_lt hl)⟩
      rwa [Nat.min_eq_right (Nat.le_of_not_lt hl)]

end Greedy

/-! ## Where the descent ends -/

/-- An index that can be searched: its nodes are there, and its links lead to nodes. -/
structure Sound (h : Index F P Q C S) : Prop where
  node : ∀ i < h.nodes.length, ∃ node, h.nodes[i]? = some (some node)
  links : ∀ i < h.nodes.length, ∀ layer, getConnections h i layer = .value (conn h layer i)
  closed : ∀ i < h.nodes.length, ∀ layer, ∀ j ∈ conn h layer i, j < h.nodes.length
  entry : h.maxLevel ≠ -1 → h.entryPoint < h.nodes.length

section Start

variable {T : Tools F D Q C S} {h : Index F P Q C S} {query : List F} {layer i r : ℕ}

theorem Sound.area (hs : Sound h) (layer : ℕ) : Area h layer (Finset.range h.nodes.length) where
  node i hi := hs.node i (Finset.mem_range.mp hi)
  links i hi := hs.links i (Finset.mem_range.mp hi) layer
  closed i hi j hj := Finset.mem_range.mpr (hs.closed i (Finset.mem_range.mp hi) layer j hj)

theorem layer0Start_spec (T : Tools F D Q C S) (query : List F) (hs : Sound h)
    (hne : h.maxLevel ≠ -1) :
    ∃ s < h.nodes.length, layer0Start T h query = .value s ∧ Start T h query s := by
  obtain ⟨s, hlt, hrun, hstart⟩ := descend_spec T query 0 h.maxLevel.toNat
    (fun layer _ _ => hs.area layer) (fun _ _ => Finset.Subset.refl _)
    (Finset.mem_range.mpr (hs.entry hne))
  exact ⟨s, Finset.mem_range.mp hlt, hrun, hstart⟩

theorem layer0Start_eq (hs : Sound h) (hne : h.maxLevel ≠ -1) {s : ℕ} (hstart : Start T h query s) :
    s < h.nodes.length ∧ layer0Start T h query = .value s := by
  obtain ⟨s', hlt, hrun, hstart'⟩ := layer0Start_spec T query hs hne
  rw [hstart.unique hstart']
  exact ⟨hlt, hrun⟩

theorem Walk.live (hw : Walk T h query layer i r) :
    (r = i ∧ Settled T h query layer i) ∨ Live h r := by
  induction hw with
  | stop hstop => exact .inl ⟨rfl, hstop⟩
  | move hmove _ ih =>
    rcases ih with ⟨rfl, -⟩ | hlive
    · exact .inr hmove.live
    · exact .inr hlive

theorem Descent.live {stop l : ℕ} (hd : Descent T h query stop l i r) :
    Live h r ↔ Live h i ∨ ∃ layer, stop < layer ∧ layer ≤ l ∧ ¬ Settled T h query layer i := by
  induction hd with
  | done hdone =>
    refine ⟨.inl, fun hl => hl.resolve_right ?_⟩
    rintro ⟨layer, hlt, hle, -⟩
    omega
  | @layer l i j k hl hwalk hrest ih =>
    rw [ih]
    rcases hwalk.live with ⟨rfl, hsettled⟩ | hlive
    · refine or_congr Iff.rfl ⟨fun ⟨m, hlt, hle, hnot⟩ => ⟨m, hlt, by omega, hnot⟩, ?_⟩
      rintro ⟨m, hlt, hle, hnot⟩
      refine ⟨m, hlt, ?_, hnot⟩
      rcases Nat.lt_or_ge l m with hgt | hle'
      · rw [show m = l + 1 by omega] at hnot
        exact absurd hsettled hnot
      · exact hle'
    · refine iff_of_true (.inl hlive) ?_
      by_cases hi : Live h i
      · exact .inl hi
      · refine .inr ⟨l + 1, hl, le_rfl, fun hsettled => ?_⟩
        cases hwalk with
        | stop => exact hi hlive
        | move hmove => exact hsettled.not_chosen hmove

/-- **The start is deleted exactly if the entry point is, and no upper layer has a live neighbour of
    it that is closer.** -/
theorem start_live_iff {s : ℕ} (hstart : Start T h query s) : Live h s ↔ Live h h.entryPoint ∨
      ∃ layer : ℕ, 0 < layer ∧ (layer : Int) ≤ h.maxLevel ∧
        ¬ Settled T h query layer h.entryPoint := by
  rw [Descent.live hstart]
  refine or_congr Iff.rfl (exists_congr fun layer => ?_)
  refine and_congr_right fun hpos => and_congr_left fun _ => ?_
  omega

end Start

end LimyeDB.Graph
