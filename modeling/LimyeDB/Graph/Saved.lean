/-
  SAVING AND LOADING AN INDEX IN MEMORY, with its graph: what a search finds afterwards.
-/
import LimyeDB.Graph.Points
import LimyeDB.Graph.Reached

namespace LimyeDB.Graph

open Go Hnsw Lib Lib.Runs List Function

variable {F P D Q C S : Type} [Distance D]

/-! ## What a search reads -/

structure Alike (T : Tools F D Q C S) (h h' : Index F P Q C S) : Prop where
  length : h'.nodes.length = h.nodes.length
  isDeleted : isDeleted h' = isDeleted h
  distanceTo : distanceTo T h' = distanceTo T h
  exactDistance : exactDistance T h' = exactDistance T h
  getConnections : getConnections h' = getConnections h
  quantizer : h'.graph.quantizer.isSome = h.graph.quantizer.isSome
  dimension : h'.dimension = h.dimension
  maxLevel : h'.maxLevel = h.maxLevel
  entryPoint : h'.entryPoint = h.entryPoint

namespace Alike

variable {T : Tools F D Q C S} {h h' : Index F P Q C S}

variable (ha : Alike T h h')
include ha

theorem greedyStep (query : List F) (neighbors : List ℕ) (s : ℕ × D × Bool) :
    greedyStep T h' query neighbors s = greedyStep T h query neighbors s := by
  induction neighbors generalizing s with
  | nil => rfl
  | cons x neighbors ih =>
    obtain ⟨cur, d, changed⟩ := s
    unfold Graph.greedyStep
    simp only [ha.isDeleted, ha.distanceTo, ih]

theorem greedyLoop (query : List F) (layer fuel i : ℕ) (d : D) :
    greedyLoop T h' query layer fuel i d = greedyLoop T h query layer fuel i d := by
  induction fuel generalizing i d with
  | zero => rfl
  | succ fuel ih =>
    unfold Graph.greedyLoop
    simp only [ha.getConnections, ha.greedyStep, ih]

theorem descend (query : List F) (stop l i : ℕ) :
    descend T h' query stop l i = descend T h query stop l i := by
  induction l generalizing i with
  | zero => rfl
  | succ l ih =>
    unfold Graph.descend greedySearchLayer
    simp only [ha.distanceTo, ha.length, ha.greedyLoop, ih]

theorem searchLayer (query : List F) (visited : VisitedList) (entry : ℕ) (ef : Int) (layer : ℕ) :
    searchLayer T h' query visited entry ef layer = searchLayer T h query visited entry ef layer := by
  have hrules : searchRules T h' query ef layer = searchRules T h query ef layer := by
    unfold searchRules
    rw [ha.isDeleted, ha.distanceTo, ha.getConnections]
  unfold Graph.searchLayer
  rw [hrules, ha.distanceTo, ha.length]

theorem rescore (query : List F) (cs : List (Candidate D)) :
    rescore T h' query cs = rescore T h query cs := by
  have hsome := ha.quantizer
  unfold Graph.rescore
  rw [ha.exactDistance]
  cases hq : h.graph.quantizer <;> cases hq' : h'.graph.quantizer <;> simp [hq, hq'] at hsome ⊢

theorem overFetch (ef : Int) : overFetch h' ef = overFetch h ef := by
  have hsome := ha.quantizer
  unfold Graph.overFetch
  cases hq : h.graph.quantizer <;> cases hq' : h'.graph.quantizer <;> simp [hq, hq'] at hsome ⊢

theorem searchWithEf (query : List F) (visited : VisitedList) (k ef : Int) :
    searchWithEf T h' query visited k ef = searchWithEf T h query visited k ef := by
  have hstart : layer0Start T h' query = layer0Start T h query := by
    unfold layer0Start
    rw [ha.maxLevel, ha.entryPoint, ha.descend]
  unfold Graph.searchWithEf
  simp only [ha.dimension, ha.maxLevel, hstart, ha.overFetch, ha.searchLayer, ha.rescore]

end Alike

/-! ## The loaded links -/

def loadedRow (m : NodeMetadata F P) : List (List ℕ) :=
  if m.id = [] then []
  else if m.connections = [] then replicate (m.level + 1) [] else m.connections

def loadedRows (nodes : List (NodeMetadata F P)) (i : ℕ) : List (List ℕ) :=
  (nodes[i]?.map loadedRow).getD []

section Load

variable {T : Tools F D Q C S} {h h₀ h₁ : Index F P Q C S} {pool : Index F P Q C S → ℕ → VisitedList}

omit [Distance D] in
theorem loadedRows_append (nodes : List (NodeMetadata F P)) (m : NodeMetadata F P) :
    loadedRows (nodes ++ [m]) = Function.update (loadedRows nodes) nodes.length (loadedRow m) := by
  funext i
  unfold loadedRows
  rw [update_apply]
  split
  case isTrue hi => rw [hi, getElem?_concat_length]; rfl
  case isFalse hi =>
    rcases Nat.lt_or_ge i nodes.length with hlt | hge
    · rw [getElem?_append_left hlt]
    · rw [getElem?_eq_none (by rw [length_append, length_singleton]; omega),
        getElem?_eq_none hge]

theorem loadNodes_eq (graph : GraphState Q C) (done nodes : List (NodeMetadata F P))
    (hlinks : graph.links = .memory (loadedRows done)) :
    loadNodes (T.env pool) graph done.length nodes =
      .value ({ graph with links := .memory (loadedRows (done ++ nodes)) }, nodes.map loadNode, none) := by
  induction nodes generalizing graph done with
  | nil =>
    rw [append_nil, ← hlinks]
    rfl
  | cons m nodes ih =>
    have hrow : restoreNode (T.env pool) graph done.length m =
        .value ({ graph with links := .memory (loadedRows (done ++ [m])) }, none) := by
      rw [loadedRows_append]
      unfold restoreNode
      by_cases hm : m.id = []
      · -- a nil node has no row, as before
        have hsame : loadedRow m = loadedRows done done.length := by
          unfold loadedRow loadedRows
          rw [if_pos hm, getElem?_eq_none le_rfl]
          rfl
        rw [if_pos hm, hsame, update_eq_self, ← hlinks]
      · have hthis : loadedRow m = if m.connections = [] then replicate (m.level + 1) [] else m.connections :=
          if_neg hm
        rw [if_neg hm, hthis]
        show (graph.links.restore done.length m.level m.connections >>= _) = _
        rw [hlinks]
        rfl
    have hrest := ih { graph with links := .memory (loadedRows (done ++ [m])) } _ rfl
    rw [length_append, length_singleton, append_assoc, singleton_append] at hrest
    unfold loadNodes
    simp only [hrow, Outcome.value_bind, hrest]
    rfl

theorem Counted.named (hc : Counted h) (hnameless : h.idToIndex [] = none) {node : Node F P}
    (hnode : some node ∈ h.nodes) : node.id ≠ [] := by
  intro hnil
  obtain ⟨i, hi⟩ := mem_iff_getElem?.mp hnode
  rw [← hnil, (hc.indexed node.id i).mpr ⟨node, hi, rfl⟩] at hnameless
  cases hnameless

theorem loadedRows_saved (hw : Wired h) (hnamed : ∀ node, some node ∈ h.nodes → node.id ≠ []) :
    .memory (loadedRows (saveMetadata (T.env pool) h).nodes) = h.graph.links := by
  have hstored := hw.stored
  unfold Stored at hstored
  cases hl : h.graph.links with
  | file g =>
    have hmem := hw.memory (defaultMaxLevel + 1)
    rw [hl] at hmem
    exact absurd hmem (Nat.not_succ_le_self _)
  | memory rows =>
    rw [hl] at hstored
    congr 1
    funext i
    show ((h.nodes.mapIdx (saveNode (T.env pool) h))[i]?.map loadedRow).getD [] = rows i
    rw [getElem?_mapIdx]
    cases hi : h.nodes[i]? with
    | none =>
      have hlevel : levelAt h i = none := by unfold levelAt; rw [hi]
      exact (hstored.2 i hlevel).symm
    | some n =>
      obtain ⟨node, hnode⟩ := hw.node i (List.getElem?_eq_some_iff.mp hi).1
      rw [hi] at hnode
      cases hnode
      have hrow := hstored.1 i node.level (levelAt_eq hi)
      have hconn : (T.env pool).connections h.graph i node.level = rows i := by
        show Links.saved i node.level h.graph.links = rows i
        rw [hl]
        rfl
      show loadedRow (saveNode (T.env pool) h i (some node)) = rows i
      unfold saveNode loadedRow
      simp only [hconn]
      rw [if_neg (hnamed node (mem_of_getElem? hi)), if_neg]
      intro hnil
      rw [hnil] at hrow
      cases hrow

end Load

/-! ## The loaded index -/

/-- The index that LoadMetadata makes of `h₀` and of what SaveMetadata wrote of `h`. -/
def loaded (T : Tools F D Q C S) (h₀ h : Index F P Q C S) : Index F P Q C S :=
  { h₀ with
    entryPoint := h.entryPoint
    maxLevel := h.maxLevel
    nodeCount := h.nodeCount
    deletedCount := h.deletedCount
    idToIndex := h.idToIndex
    nodes := h.nodes.map (Option.map (inMemory T.mmap h))
    graph := { h₀.graph with links := h.graph.links } }

section Loaded

variable {T : Tools F D Q C S} {h h₀ : Index F P Q C S} {cfg : Config} {pool : Index F P Q C S → ℕ → VisitedList}

theorem loadMetadata_eq (hm : InMemory cfg h) (hnameless : h.idToIndex [] = none)
    (hdim : h₀.dimension = h.dimension) (hlinks : h₀.graph.links = Links.empty) :
    loadMetadata (T.env pool) h₀ (saveMetadata (T.env pool) h) = .value (loaded T h₀ h, none) := by
  have hnamed : ∀ node, some node ∈ h.nodes → node.id ≠ [] := fun node hnode =>
    hm.counted.named hnameless hnode
  have hnodes : (saveMetadata (T.env pool) h).nodes.map loadNode =
      h.nodes.map (Option.map (inMemory T.mmap h)) := by
    refine ext_getElem? fun i => ?_
    rw [getElem?_load_save hnamed, getElem?_map]
    rfl
  have hload : loadNodes (T.env pool) h₀.graph 0 _ = _ :=
    loadNodes_eq h₀.graph [] (saveMetadata (T.env pool) h).nodes hlinks
  rw [nil_append, loadedRows_saved hm.wired hnamed, hnodes] at hload
  rw [loadMetadata_save hdim]
  exact congrArg (· >>= _) hload

theorem getElem?_loaded (i : ℕ) :
    (loaded T h₀ h).nodes[i]? = h.nodes[i]?.map (Option.map (inMemory T.mmap h)) :=
  getElem?_map ..

variable (hmmap : h₀.vectorMmap = none)
include hmmap

end Loaded

/-! ## The environment of an index in memory -/

section Steady

variable {T : Tools F D Q C S} {h h₀ : Index F P Q C S} {cfg cfg₀ : Config}

theorem InMemory.loaded (hm : InMemory cfg h) (hm₀ : InMemory cfg₀ h₀) (hM : h₀.M = h.M) :
    InMemory cfg₀ (loaded T h₀ h) := by
  have hlength : (Graph.loaded T h₀ h).nodes.length = h.nodes.length := length_map ..
  have hlevel : levelAt (Graph.loaded T h₀ h) = levelAt h := by
    funext i
    unfold levelAt
    rw [getElem?_loaded]
    rcases h.nodes[i]? with _ | _ | node <;> rfl
  have hconn : conn (Graph.loaded T h₀ h) = conn h := by
    funext k i
    unfold conn
    have hsame : getConnections (Graph.loaded T h₀ h) i k = getConnections h i k :=
      getConnections_congr rfl (congrFun hlevel i)
    rw [hsame]
  have hw := hm.wired
  have hw₀ := hm₀.wired
  refine ⟨⟨⟨fun i hi => ?_, ?_, hw₀.Mmax, hw₀.Mmax0, hw.bottom, ?_, ?_, ?_⟩, hw.memory, ?_, ?_, ?_, ?_⟩,
    ⟨fun id i => ?_, hm.counted.nodeCount.trans hlength.symm, ?_⟩, hm₀.M, hm₀.dimension⟩
  · obtain ⟨node, hnode⟩ := hw.node i (hlength ▸ hi)
    exact ⟨inMemory T.mmap h node, by rw [getElem?_loaded, hnode]; rfl⟩
  · have hstored := hw.stored
    have hlinks : (Graph.loaded T h₀ h).graph.links = h.graph.links := rfl
    unfold Stored at hstored ⊢
    rw [hlinks]
    cases hl : h.graph.links with
    | file g =>
      have hmem := hw.memory (defaultMaxLevel + 1)
      rw [hl] at hmem
      exact absurd hmem (Nat.not_succ_le_self _)
    | memory rows =>
      rw [hl] at hstored
      simpa only [hlevel] using hstored
  · rw [← length_pos_iff_ne_nil, hlength, length_pos_iff_ne_nil]
    exact hw.begun
  · rw [hlength]
    exact hw.entry
  · rw [hlength, hconn]
    exact hw.closed
  · rw [hlevel]
    exact hw.top
  · rw [hlength, hconn, hlevel]
    exact hw.link
  · rw [hlength, hconn]
    exact hw.once
  · rw [hlength, hconn]
    exact hM ▸ hw.few
  · rw [getElem?_loaded]
    refine (hm.counted.indexed id i).trans ?_
    rcases h.nodes[i]? with _ | _ | node <;> simp [inMemory]
  · refine hm.counted.deletedCount.trans ?_
    show _ = countP _ (h.nodes.map _)
    rw [countP_map]
    refine congrArg (countP · h.nodes) (funext fun n => ?_)
    cases n <;> rfl

/-- In memory, and the quantizer can encode. -/
def Working (T : Tools F D Q C S) (h : Index F P Q C S) : Prop :=
  (∃ cfg, InMemory cfg h) ∧ T.Encodes h.graph.quantizer

omit [Distance D] in
theorem links_of_empty (hstored : Stored h₀ fun _ _ => True) (hmem : ∀ k, h₀.graph.links.Holds k)
    (hnodes : h₀.nodes = []) : h₀.graph.links = Links.empty := by
  cases hl : h₀.graph.links with
  | file g =>
    have := hmem (defaultMaxLevel + 1)
    rw [hl] at this
    exact absurd this (Nat.not_succ_le_self _)
  | memory rows =>
    unfold Stored at hstored
    rw [hl] at hstored
    refine congrArg Links.memory (funext fun i => hstored.2 i ?_)
    unfold levelAt
    rw [hnodes]
    rfl

/-- **The graph in memory does its work**: no Insert and no load fails or panics because of it. -/
instance steady_memory (pool : Index F P Q C S → ℕ → VisitedList) : Steady (T.env pool) where
  Sound := Working T
  insert {h} hsound p := by
    obtain ⟨⟨cfg, hm⟩, he⟩ := hsound
    obtain ⟨h', e, hact, hch, hm', he'⟩ := hm.act T he (.insert p (pool (added T h p)))
    exact ⟨h', e, (insert_env pool).trans hact, insert_error hact, ⟨cfg, hm'⟩, he'⟩
  delete {h h' id} hsound hdelete := by
    obtain ⟨⟨cfg, hm⟩, he⟩ := hsound
    have hact : act T h (.delete id) = .value (h', none) := by
      simp only [act, hdelete]
    obtain ⟨hch, hm'⟩ := hm.acted hact
    exact ⟨⟨cfg, hm'⟩, hch.encodes he⟩
  load {h h₀} hsound hnameless hsound₀ hnodes hM hdim := by
    obtain ⟨⟨cfg, hm⟩, -⟩ := hsound
    obtain ⟨⟨cfg₀, hm₀⟩, he₀⟩ := hsound₀
    exact ⟨loaded T h₀ h, loadMetadata_eq hm hnameless hdim
      (links_of_empty hm₀.wired.stored hm₀.wired.memory hnodes), ⟨cfg₀, hm.loaded hm₀ hM⟩, he₀⟩

end Steady

end LimyeDB.Graph
