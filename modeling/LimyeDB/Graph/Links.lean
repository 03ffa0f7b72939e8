/-
  LINKS IN MEMORY AND ON DISK, AS ONE: what can be read, what a write changes, and what a new node finds.
-/
import LimyeDB.Graph.Walk

namespace LimyeDB.Graph

open Go Hnsw GraphMmap Outcome Function List

variable {F P Q C S : Type}

/-! ## Levels -/

def levelAt (h : Index F P Q C S) (i : ℕ) : Option ℕ :=
  match h.nodes[i]? with
  | some (some node) => some node.level
  | _ => none

def Links.Holds : Links → ℕ → Prop
  | .memory _, _ => True
  | .file _, layer => layer ≤ defaultMaxLevel

/-- Links that can be read and set. A list that is not in `used` may be anything. -/
def Stored (h : Index F P Q C S) (used : ℕ → ℕ → Prop) : Prop :=
  match h.graph.links with
  | .memory rows => (∀ i level, levelAt h i = some level → (rows i).length = level + 1) ∧
      ∀ i, levelAt h i = none → rows i = []
  | .file g => g.Laid h.M ∧ ∀ i level, levelAt h i = some level →
      g.Has h.M i ∧ level ≤ defaultMaxLevel ∧ g.words (g.blockOffset i) = level ∧
      ∀ layer ≤ level, used i layer → g.words (g.countOffset i layer) ≤ room h.M layer

variable {g : GraphMmap}

section Read

variable {h h' : Index F P Q C S} {used : ℕ → ℕ → Prop} {i layer level : ℕ}

theorem levelAt_eq {node : Node F P} (hnode : h.nodes[i]? = some (some node)) :
    levelAt h i = some node.level := by
  unfold levelAt
  rw [hnode]

theorem levelAt_some : levelAt h i = some level ↔
    ∃ node, h.nodes[i]? = some (some node) ∧ node.level = level := by
  unfold levelAt
  split
  case h_1 node hnode => simp [hnode]
  case h_2 hnone =>
    refine iff_of_false (by simp) ?_
    rintro ⟨node, hnode, -⟩
    exact hnone node hnode

theorem nodeAt_panic (hlevel : levelAt h i = none) : nodeAt h i = .panic := by
  unfold nodeAt
  split
  case h_1 node hnode =>
    rw [levelAt_eq hnode] at hlevel
    cases hlevel
  case h_2 => rfl

theorem conn_of_get {ids : List ℕ} (hget : getConnections h i layer = .value ids) :
    conn h layer i = ids := by
  unfold conn
  rw [hget]

theorem getConnections_memory {rows : ℕ → List (List ℕ)} (hl : h.graph.links = .memory rows)
    (hlevel : levelAt h i = some level) : getConnections h i layer =
      if level < layer then .value [] else
        match (rows i)[layer]? with
        | some ids => .value ids
        | none => .panic := by
  obtain ⟨node, hnode, rfl⟩ := levelAt_some.mp hlevel
  unfold getConnections
  simp only [hl, nodeAt_eq hnode, value_bind]
  rfl

theorem getConnections_file (hl : h.graph.links = .file g) :
    getConnections h i layer = g.getConnections i layer := by
  unfold getConnections
  rw [hl]

theorem Stored.above (hs : Stored h used) (hlevel : levelAt h i = some level)
    (habove : level < layer) : getConnections h i layer = .value [] := by
  unfold Stored at hs
  cases hl : h.graph.links with
  | memory rows => rw [getConnections_memory hl hlevel, if_pos habove]
  | file g =>
    rw [hl] at hs
    obtain ⟨hL, hall⟩ := hs
    obtain ⟨hhas, -, hword, -⟩ := hall i level hlevel
    rw [getConnections_file hl]
    exact getConnections_above hL hhas (by rw [hword]; exact habove)

theorem Stored.get_file (hs : Stored h used) (hl : h.graph.links = .file g)
    (hlevel : levelAt h i = some level) (hle : layer ≤ level) (hused : used i layer) :
    getConnections h i layer = .value (g.listAt i layer) := by
  unfold Stored at hs
  rw [hl] at hs
  obtain ⟨hL, hall⟩ := hs
  obtain ⟨hhas, htop, hword, hcount⟩ := hall i level hlevel
  rw [getConnections_file hl]
  exact getConnections_eq hL hhas (hle.trans htop) (hle.trans hword.ge) (hcount layer hle hused)

/-- Two files have the same list if they have it up to the node's level. -/
theorem Stored.conn_file {g' : GraphMmap} {used' : ℕ → ℕ → Prop} (hs : Stored h used)
    (hs' : Stored h' used') (hl : h.graph.links = .file g) (hl' : h'.graph.links = .file g')
    (hlevel : levelAt h i = some level) (hlevel' : levelAt h' i = some level) (hused : used i layer)
    (hused' : used' i layer) (hlist : layer ≤ level → g'.listAt i layer = g.listAt i layer) :
    conn h' layer i = conn h layer i := by
  rcases Nat.lt_or_ge level layer with habove | hle
  · rw [conn_of_get (hs.above hlevel habove), conn_of_get (hs'.above hlevel' habove)]
  · rw [conn_of_get (hs.get_file hl hlevel hle hused), conn_of_get (hs'.get_file hl' hlevel' hle hused'),
      hlist hle]

theorem Stored.get (hs : Stored h used) (hlevel : levelAt h i = some level)
    (hused : used i layer) : getConnections h i layer = .value (conn h layer i) := by
  suffices hsome : ∃ ids, getConnections h i layer = .value ids by
    obtain ⟨ids, hids⟩ := hsome
    rw [hids, conn_of_get hids]
  rcases Nat.lt_or_ge level layer with habove | hle
  · exact ⟨[], hs.above hlevel habove⟩
  · cases hl : h.graph.links with
    | memory rows =>
      unfold Stored at hs
      rw [hl] at hs
      have hrow : layer < (rows i).length := by
        rw [hs.1 i level hlevel]
        exact Nat.lt_succ_of_le hle
      rw [getConnections_memory hl hlevel, if_neg (Nat.not_lt.mpr hle),
        getElem?_eq_getElem hrow]
      exact ⟨_, rfl⟩
    | file g => exact ⟨_, hs.get_file hl hlevel hle hused⟩

theorem Stored.mono {used' : ℕ → ℕ → Prop} (hs : Stored h used)
    (hsub : ∀ i layer level, levelAt h i = some level → used' i layer → used i layer) :
    Stored h used' := by
  unfold Stored at hs ⊢
  split at hs
  · exact hs
  · refine ⟨hs.1, fun i level hlevel => ?_⟩
    obtain ⟨hhas, htop, hword, hcount⟩ := hs.2 i level hlevel
    exact ⟨hhas, htop, hword, fun layer hle hused => hcount layer hle (hsub i layer level hlevel hused)⟩

variable (hlinks : h'.graph.links = h.graph.links)
include hlinks

theorem getConnections_congr (hlevel : levelAt h' i = levelAt h i) :
    getConnections h' i layer = getConnections h i layer := by
  cases hl : h.graph.links with
  | file g => rw [getConnections_file hl, getConnections_file (hlinks.trans hl)]
  | memory rows =>
    cases hi : levelAt h i with
    | some level =>
      rw [getConnections_memory hl hi, getConnections_memory (hlinks.trans hl) (hlevel.trans hi)]
    | none =>
      have hpanic : ∀ h : Index F P Q C S, h.graph.links = .memory rows → levelAt h i = none →
          getConnections h i layer = .panic := by
        intro h hl hi
        unfold getConnections
        simp only [hl, nodeAt_panic hi, panic_bind]
      rw [hpanic h hl hi, hpanic h' (hlinks.trans hl) (hlevel.trans hi)]

theorem conn_congr (hlevel : levelAt h' i = levelAt h i) : conn h' layer i = conn h layer i := by
  unfold conn
  rw [getConnections_congr hlinks hlevel]

end Read

/-! ## Writing -/

section Write

variable {h : Index F P Q C S} {used : ℕ → ℕ → Prop} {i layer level : ℕ} {ids : List ℕ}

theorem levelAt_withLinks (h : Index F P Q C S) (links : Links) (j : ℕ) :
    levelAt (Index.withLinks h links) j = levelAt h j := rfl

/-- What setting the list of `i` at `layer` to `ids` makes of the links. -/
structure Replaced (h h' : Index F P Q C S) (used : ℕ → ℕ → Prop) (i layer level : ℕ)
    (ids : List ℕ) : Prop where
  stored : Stored h' fun j k => used j k ∨ j = i ∧ k = layer
  self : conn h' layer i = if layer ≤ level then ids else []
  others : ∀ j k level', levelAt h j = some level' → used j k → ¬ (j = i ∧ k = layer) →
    conn h' k j = conn h k j

variable (hs : Stored h used)
include hs

theorem set_memory {rows : ℕ → List (List ℕ)}
    (hl : h.graph.links = .memory rows) (hlevel : levelAt h i = some level) (hle : layer ≤ level) :
    setConnections h i layer ids = .value (Index.withLinks h
        (.memory (update rows i ((rows i).set layer ids)))) ∧
      Replaced h (Index.withLinks h (.memory (update rows i ((rows i).set layer ids))))
        used i layer level ids := by
  unfold Stored at hs
  rw [hl] at hs
  have hrow : layer < (rows i).length := by
    rw [hs.1 i level hlevel]
    exact Nat.lt_succ_of_le hle
  refine ⟨?_, ⟨fun j levelj hj => ?_, fun j hj => ?_⟩, ?_, fun j k levelj hj _ hne => ?_⟩
  · obtain ⟨node, hnode, rfl⟩ := levelAt_some.mp hlevel
    unfold setConnections
    simp only [hl, nodeAt_eq hnode, value_bind, Nat.not_lt.mpr hle, if_false,
      Nat.not_le.mpr hrow]
    rfl
  · by_cases hji : j = i
    · subst hji
      rw [update_self, length_set]
      exact hs.1 j levelj hj
    · rw [update_of_ne hji]
      exact hs.1 j levelj hj
  · have hji : j ≠ i := by
      rintro rfl
      rw [levelAt_withLinks, hlevel] at hj
      cases hj
    rw [update_of_ne hji]
    exact hs.2 j hj
  · refine conn_of_get ((getConnections_memory rfl
      ((levelAt_withLinks h _ i).trans hlevel)).trans ?_)
    rw [update_self, getElem?_set_self hrow, if_neg (Nat.not_lt.mpr hle),
      if_pos hle]
  · have hget : getConnections (Index.withLinks h
        (.memory (update rows i ((rows i).set layer ids)))) j k =
        getConnections h j k := by
      rw [getConnections_memory hl hj]
      refine (getConnections_memory rfl ((levelAt_withLinks h _ j).trans hj)).trans ?_
      by_cases hji : j = i
      · subst hji
        have hkl : layer ≠ k := fun heq => hne ⟨rfl, heq.symm⟩
        rw [update_self, getElem?_set_ne hkl]
      · rw [update_of_ne hji]
    unfold conn
    rw [hget]

theorem set_file (hl : h.graph.links = .file g)
    (hlevel : levelAt h i = some level) (hlayer : layer ≤ defaultMaxLevel)
    (hids : ids.length ≤ room h.M layer) : setConnections h i layer ids =
        .value (Index.withLinks h (.file (g.withList i layer ids))) ∧
      Replaced h (Index.withLinks h (.file (g.withList i layer ids))) used i layer level ids := by
  have hs' := hs
  unfold Stored at hs'
  rw [hl] at hs'
  obtain ⟨hL, hall⟩ := hs'
  obtain ⟨hhas, -⟩ := hall i level hlevel
  have hstored : Stored (Index.withLinks h (.file (g.withList i layer ids)))
      fun j k => used j k ∨ j = i ∧ k = layer := by
    refine ⟨hL.withList, fun j levelj hj => ?_⟩
    obtain ⟨hhasj, htopj, hwordj, hcountj⟩ := hall j levelj hj
    refine ⟨hhasj, htopj, (withList_level hL hlayer hids j).trans hwordj, fun k hk hused => ?_⟩
    by_cases hself : j = i ∧ k = layer
    · obtain ⟨rfl, rfl⟩ := hself
      exact (withList_count_self hL hlayer).trans_le hids
    · refine (withList_other hL hlayer hids (hk.trans htopj) hself).1.trans_le ?_
      exact hcountj k hk (hused.resolve_right hself)
  refine ⟨?_, hstored, ?_, fun j k levelj hj hused hne => ?_⟩
  · unfold setConnections
    simp only [hl, setConnections_eq hL hhas hlayer hids, value_bind]
    rfl
  · split
    case isTrue hle =>
      rw [conn_of_get (hstored.get_file rfl hlevel hle (.inr ⟨rfl, rfl⟩)), withList_listAt_self hL hlayer]
    case isFalse hnot => exact conn_of_get (hstored.above hlevel (Nat.lt_of_not_le hnot))
  · refine hs.conn_file hstored hl rfl hj hj hused (.inl hused) fun hle => ?_
    obtain ⟨-, htopj, -, hcountj⟩ := hall j levelj hj
    exact withList_listAt_other hL hlayer hids (hle.trans htopj) hne (hcountj k hle hused)

/-- **A list that fits can be set**, and no other list in use changes. -/
theorem Stored.set (hlevel : levelAt h i = some level)
    (hlayer : h.graph.links.Holds layer) (hids : ids.length ≤ room h.M layer) :
    ∃ links, setConnections h i layer ids = .value (Index.withLinks h links) ∧
      (∀ k, links.Holds k ↔ h.graph.links.Holds k) ∧
      Replaced h (Index.withLinks h links) used i layer level ids := by
  cases hl : h.graph.links with
  | file g =>
    rw [hl] at hlayer
    obtain ⟨hset, hrep⟩ := set_file hs hl hlevel hlayer hids
    exact ⟨_, hset, fun _ => Iff.rfl, hrep⟩
  | memory rows =>
    rcases Nat.lt_or_ge level layer with habove | hle
    · -- above the node's level nothing happens
      have hsame : Index.withLinks h (.memory rows) = h := by
        unfold Index.withLinks
        rw [← hl]
      refine ⟨.memory rows, ?_, fun _ => Iff.rfl, ?_⟩
      · obtain ⟨node, hnode, rfl⟩ := levelAt_some.mp hlevel
        unfold setConnections
        simp only [hl, nodeAt_eq hnode, value_bind, habove, if_true]
        rw [hsame]
        rfl
      · rw [hsame]
        refine ⟨?_, ?_, fun _ _ _ _ _ _ => rfl⟩
        · unfold Stored at hs ⊢
          rw [hl] at hs ⊢
          exact hs
        · rw [if_neg (Nat.not_le.mpr habove)]
          exact conn_of_get (hs.above hlevel habove)
    · obtain ⟨hset, hrep⟩ := set_memory hs hl hlevel hle
      exact ⟨_, hset, fun _ => Iff.rfl, hrep⟩

end Write

/-! ## A new node -/

/-- What a new node finds at a layer: in memory nothing, in a file what was left in its block. -/
def Links.leftover : Links → ℕ → ℕ → List ℕ
  | .memory _, _, _ => []
  | .file g, nodeID, layer => g.leftover nodeID layer

section Add

variable {h h₁ : Index F P Q C S} {node : Node F P} {fresh : ℕ → Prop}

section

variable (hnodes : h₁.nodes = h.nodes ++ [some node])
include hnodes

theorem levelAt_append {i level : ℕ} (hlevel : levelAt h₁ i = some level) :
    i < h.nodes.length ∧ levelAt h i = some level ∨ i = h.nodes.length ∧ level = node.level := by
  obtain ⟨node', hnode', rfl⟩ := levelAt_some.mp hlevel
  rw [hnodes] at hnode'
  rcases Nat.lt_or_ge i h.nodes.length with hlt | hge
  · rw [getElem?_append_left hlt] at hnode'
    exact .inl ⟨hlt, levelAt_eq hnode'⟩
  · rw [getElem?_append_right hge] at hnode'
    have hi : i - h.nodes.length = 0 := by
      have := (List.getElem?_eq_some_iff.mp hnode').1
      rw [length_singleton] at this
      omega
    rw [hi] at hnode'
    cases hnode'
    exact .inr ⟨by omega, rfl⟩

theorem levelAt_append_old {i : ℕ} (hi : i < h.nodes.length) : levelAt h₁ i = levelAt h i := by
  unfold levelAt
  rw [hnodes, getElem?_append_left hi]

theorem levelAt_append_new : levelAt h₁ h.nodes.length = some node.level := by
  refine levelAt_eq ?_
  rw [hnodes, getElem?_append_right le_rfl, Nat.sub_self]
  rfl

end

structure Added (h h₁ : Index F P Q C S) (node : Node F P) (fresh : ℕ → Prop) : Prop where
  stored : Stored h₁ fun i layer => i < h.nodes.length ∨ fresh layer
  old : ∀ i < h.nodes.length, ∀ layer, conn h₁ layer i = conn h layer i
  own : ∀ layer ≤ node.level, fresh layer →
    conn h₁ layer h.nodes.length = h.graph.links.leftover h.nodes.length layer

variable (hs : Stored h fun _ _ => True) (hnodes : h₁.nodes = h.nodes ++ [some node])
  (hlinks : h₁.graph.links = h.graph.links.addNode h.nodes.length node.level)
include hs hnodes hlinks

theorem add_memory {rows : ℕ → List (List ℕ)} (hl : h.graph.links = .memory rows) :
    Added h h₁ node fresh := by
  unfold Stored at hs
  rw [hl] at hs hlinks
  refine ⟨?_, fun i hi layer => ?_, fun layer hle _ => ?_⟩
  · unfold Stored
    rw [hlinks]
    refine ⟨fun i level hlevel => ?_, fun i hi => ?_⟩
    · rcases levelAt_append hnodes hlevel with ⟨hlt, hold⟩ | ⟨rfl, rfl⟩
      · rw [update_of_ne hlt.ne]
        exact hs.1 i level hold
      · rw [update_self, length_replicate]
    · have hne : i ≠ h.nodes.length := by
        rintro rfl
        rw [levelAt_append_new hnodes] at hi
        cases hi
      rw [update_of_ne hne]
      refine hs.2 i ?_
      rcases Nat.lt_or_ge i h.nodes.length with hlt | hge
      · rwa [levelAt_append_old hnodes hlt] at hi
      · unfold levelAt
        rw [getElem?_eq_none hge]
  · have hsame : getConnections h₁ i layer = getConnections h i layer := by
      have hlevel := levelAt_append_old hnodes hi
      cases hi' : levelAt h i with
      | some level =>
        rw [getConnections_memory hl hi', getConnections_memory hlinks (hlevel.trans hi'),
          update_of_ne hi.ne]
      | none =>
        unfold getConnections
        simp only [hl, hlinks, nodeAt_panic hi', nodeAt_panic (hlevel.trans hi'),
          panic_bind, Links.addNode]
    unfold conn
    rw [hsame]
  · refine conn_of_get ?_
    rw [getConnections_memory hlinks (levelAt_append_new hnodes), if_neg (Nat.not_lt.mpr hle),
      update_self, getElem?_replicate, if_pos (Nat.lt_succ_of_le hle), hl]
    rfl

variable (hall : ∀ i < h.nodes.length, ∃ level, levelAt h i = some level)
include hall

theorem add_file (hM : h₁.M = h.M) (hl : h.graph.links = .file g)
    (htop : node.level ≤ defaultMaxLevel) (hfresh : ∀ layer ≤ node.level, fresh layer →
      (g.leftover h.nodes.length layer).length ≤ room h.M layer) : Added h h₁ node fresh := by
  have hs' := hs
  unfold Stored at hs'
  rw [hl] at hs' hlinks
  obtain ⟨hL, hblocks⟩ := hs'
  obtain ⟨g', hlinks, hA⟩ : ∃ g', h₁.graph.links = .file g' ∧
    NodeAdded h.M g g' h.nodes.length node.level := ⟨_, hlinks, hL.added ..⟩
  have hstored : Stored h₁ fun i layer => i < h.nodes.length ∨ fresh layer := by
    unfold Stored
    rw [hlinks, hM]
    refine ⟨hA.laid, fun i level hlevel => ?_⟩
    rcases levelAt_append hnodes hlevel with ⟨hlt, hlevel'⟩ | ⟨rfl, rfl⟩
    · obtain ⟨hhas, htopi, hword, hroom⟩ := hblocks i level hlevel'
      refine ⟨hhas.trans hA.grown, htopi, (hA.levels i hhas hlt.ne).trans hword, fun layer hle _ => ?_⟩
      rw [(hA.lists i hhas hlt.ne layer (hle.trans htopi) (hroom layer hle trivial)).1]
      exact hroom layer hle trivial
    · refine ⟨hA.has, htop, hA.level, fun layer hle hused => ?_⟩
      rw [(hA.own layer).1]
      exact hfresh layer hle (hused.resolve_left (Nat.lt_irrefl _))
  refine ⟨hstored, fun i hi layer => ?_, fun layer hle hlayer => ?_⟩
  · obtain ⟨level, hlevel⟩ := hall i hi
    refine hs.conn_file hstored hl hlinks hlevel ((levelAt_append_old hnodes hi).trans hlevel) trivial
      (.inl hi) fun hle => ?_
    obtain ⟨hhas, htopi, -, hroom⟩ := hblocks i level hlevel
    exact (hA.lists i hhas hi.ne layer (hle.trans htopi) (hroom layer hle trivial)).2
  · rw [conn_of_get (hstored.get_file hlinks (levelAt_append_new hnodes) hle (.inr hlayer)), (hA.own layer).2, hl]
    rfl

theorem Stored.add (hM : h₁.M = h.M) (htop : h.graph.links.Holds node.level) (hfresh : ∀ layer ≤ node.level, fresh layer →
      (h.graph.links.leftover h.nodes.length layer).length ≤ room h.M layer) :
    Added h h₁ node fresh := by
  cases hl : h.graph.links with
  | memory rows => exact add_memory hs hnodes hlinks hl
  | file g =>
    rw [hl] at htop hfresh
    exact add_file hs hnodes hlinks hall hM hl htop hfresh

end Add

end LimyeDB.Graph
