/-
  THE INDEX ON DISK: what SaveMetadata writes and LoadMetadata restores.
-/
import LimyeDB.Hnsw.Index

namespace LimyeDB.Hnsw

open Go Lib.WriteOnce List

variable {F P G S : Type}

structure NodeMetadata (F P : Type) where
  id : Bytes
  level : ℕ
  deleted : Bool
  connections : List (List ℕ)
  vector : List F
  payload : Option P
  deriving DecidableEq, Repr

structure IndexMetadata (F P : Type) where
  version : Int
  entryPoint : ℕ
  maxLevel : Int
  nodeCount : ℕ
  deletedCount : ℕ
  M : ℕ
  Mmax : ℕ
  efSearch : Int
  dimension : ℕ
  idToIndex : Bytes → Option ℕ
  nodes : List (NodeMetadata F P)

def metadataVersion : Int := 1

def saveNode (E : Env F P G S) (h : HNSW F P G S) (i : ℕ) : Option (Node F P) → NodeMetadata F P
  | none => ⟨[], 0, false, [], [], none⟩
  | some node => ⟨node.id, node.level, node.deleted, E.connections h.graph i node.level,
      getVector E.mmap h node, node.payload⟩

def saveMetadata (E : Env F P G S) (h : HNSW F P G S) : IndexMetadata F P where
  version := metadataVersion
  entryPoint := h.entryPoint
  maxLevel := h.maxLevel
  nodeCount := h.nodeCount
  deletedCount := h.deletedCount
  M := h.M
  Mmax := h.Mmax
  efSearch := h.efSearch
  dimension := h.dimension
  idToIndex := h.idToIndex
  nodes := h.nodes.mapIdx (saveNode E h)

inductive LoadError where
  | unmarshal
  | version (found : Int)
  | dimension (found configured : ℕ)
  | graph (text : String)
  deriving DecidableEq, Repr

def loadNode (m : NodeMetadata F P) : Option (Node F P) :=
  if m.id = [] then none
  else some ⟨m.id, m.vector, 0, m.level, m.deleted, m.payload⟩

def restoreNode (E : Env F P G S) (g : G) (i : ℕ) (m : NodeMetadata F P) : Outcome Empty (G × Option String) :=
  if m.id = [] then .value (g, none) else E.restore g i m.level m.connections

/-- The nodes one after the other. An error of the graph ends the loop, and the nodes from there on stay nil. -/
def loadNodes (E : Env F P G S) : G → ℕ → List (NodeMetadata F P) →
    Outcome Empty (G × List (Option (Node F P)) × Option String)
  | g, _, [] => .value (g, [], none)
  | g, i, m :: ms => do
    let (g, err) ← restoreNode E g i m
    if let some text := err then return (g, none :: ms.map fun _ => none, some text)
    let (g, nodes, err) ← loadNodes E g (i + 1) ms
    return (g, loadNode m :: nodes, err)

/-- LoadMetadata behind the JSON decoder. M, Mmax and efSearch stay those of the new index. -/
def loadMetadata (E : Env F P G S) (h : HNSW F P G S) (m : IndexMetadata F P) :
    Outcome Empty (HNSW F P G S × Option LoadError) :=
  if m.version ≠ metadataVersion then .value (h, some (.version m.version))
  else if m.dimension ≠ h.dimension then .value (h, some (.dimension m.dimension h.dimension))
  else do
    let (graph, nodes, err) ← loadNodes E h.graph 0 m.nodes
    return ({ h with
      entryPoint := m.entryPoint
      maxLevel := m.maxLevel
      nodeCount := m.nodeCount
      deletedCount := m.deletedCount
      idToIndex := m.idToIndex
      nodes := nodes
      graph := graph }, err.map .graph)

section LoadSave

variable {E : Env F P G S} {h h₀ : HNSW F P G S}

def inMemory (m : VectorMmap F S) (h : HNSW F P G S) (node : Node F P) : Node F P :=
  { node with vector := getVector m h node, vectorOffset := 0 }

theorem loadNode_saveNode (i : ℕ) {n : Option (Node F P)}
    (hid : ∀ node, n = some node → node.id ≠ []) :
    loadNode (saveNode E h i n) = n.map (inMemory E.mmap h) := by
  cases n with
  | none => rfl
  | some node =>
    unfold saveNode loadNode inMemory
    rw [if_neg (hid node rfl)]
    rfl

theorem Inv.named (hinv : Inv E.mmap h) (hnameless : (view E.mmap h).slot [] = .absent) {node : Node F P}
    (hnode : some node ∈ h.nodes) : node.id ≠ [] := by
  intro hnil
  obtain ⟨i, hi⟩ := mem_iff_getElem?.mp hnode
  have hid := (hinv.indexed node.id i).mpr ⟨node, hi, rfl⟩
  rw [hnil, (hinv.view_absent_iff []).mp hnameless] at hid
  cases hid

theorem getElem?_load_save (hnamed : ∀ node, some node ∈ h.nodes → node.id ≠ []) (i : ℕ) :
    ((saveMetadata E h).nodes.map loadNode)[i]? = h.nodes[i]?.map (Option.map (inMemory E.mmap h)) := by
  show ((h.nodes.mapIdx (saveNode E h)).map loadNode)[i]? = _
  rw [getElem?_map, getElem?_mapIdx]
  cases hi : h.nodes[i]? with
  | none => rfl
  | some n =>
    show some (loadNode (saveNode E h i n)) = some (n.map (inMemory E.mmap h))
    rw [loadNode_saveNode i fun node hn => hnamed node (hn ▸ mem_of_getElem? hi)]

theorem getVector_inMemory {h₁ : HNSW F P G S} (hinv : Inv E.mmap h) {node : Node F P}
    (hnode : some node ∈ h.nodes) : getVector E.mmap h₁ (inMemory E.mmap h node) = getVector E.mmap h node := by
  have hne : getVector E.mmap h node ≠ [] := by
    intro hnil
    have hsize := hinv.sized node hnode
    rw [hnil] at hsize
    exact hinv.positive.ne hsize
  exact if_pos hne

theorem loadNodes_nodes {g g' : G} {i : ℕ} {ms : List (NodeMetadata F P)} {nodes : List (Option (Node F P))}
    (hload : loadNodes E g i ms = .value (g', nodes, none)) : nodes = ms.map loadNode := by
  induction ms generalizing g i nodes with
  | nil =>
    cases hload
    rfl
  | cons m ms ih =>
    unfold loadNodes at hload
    obtain ⟨⟨g₁, _ | text⟩, -, hload⟩ := Outcome.bind_eq_value.mp hload
    · obtain ⟨⟨g₂, rest, err⟩, hrest, hload⟩ := Outcome.bind_eq_value.mp hload
      cases hload
      rw [ih hrest, map_cons]
    · cases hload

theorem loadMetadata_save (hdim : h₀.dimension = h.dimension) :
    loadMetadata E h₀ (saveMetadata E h) = do
      let (graph, nodes, err) ← loadNodes E h₀.graph 0 (saveMetadata E h).nodes
      return ({ h₀ with
        entryPoint := h.entryPoint
        maxLevel := h.maxLevel
        nodeCount := h.nodeCount
        deletedCount := h.deletedCount
        idToIndex := h.idToIndex
        nodes := nodes
        graph := graph }, err.map .graph) := by
  have hversion : ¬ (saveMetadata E h).version ≠ metadataVersion := not_not.mpr rfl
  have hsame : ¬ (saveMetadata E h).dimension ≠ h₀.dimension := not_not.mpr hdim.symm
  unfold loadMetadata
  rw [if_neg hversion, if_neg hsame]
  rfl

theorem loadMetadata_saved {h₁ : HNSW F P G S} (hdim : h₀.dimension = h.dimension)
    (hload : loadMetadata E h₀ (saveMetadata E h) = .value (h₁, none)) :
    h₁.nodes = (saveMetadata E h).nodes.map loadNode ∧ h₁.idToIndex = h.idToIndex ∧
      h₁.vectorMmap = h₀.vectorMmap ∧ h₁.dimension = h.dimension ∧ h₁.M = h₀.M := by
  rw [loadMetadata_save hdim] at hload
  obtain ⟨⟨graph, nodes, err⟩, hnodes, hload⟩ := Outcome.bind_eq_value.mp hload
  cases err with
  | some text => cases hload
  | none =>
    cases hload
    exact ⟨loadNodes_nodes hnodes, rfl, rfl, hdim, rfl⟩

/-- **An index that is loaded has the points that were saved.** -/
theorem load_save {h₁ : HNSW F P G S} (hinv : Inv E.mmap h) (hnameless : (view E.mmap h).slot [] = .absent)
    (hinv₀ : Inv E.mmap h₀) (hdim : h₀.dimension = h.dimension)
    (hload : loadMetadata E h₀ (saveMetadata E h) = .value (h₁, none)) :
    Inv E.mmap h₁ ∧ h₁.dimension = h.dimension ∧ h₁.M = h₀.M ∧ view E.mmap h₁ = view E.mmap h := by
  obtain ⟨hnodes, hids, hmmap, hdim₁, hM⟩ := loadMetadata_saved hdim hload
  have hget : ∀ i : ℕ, h₁.nodes[i]? = h.nodes[i]?.map (Option.map (inMemory E.mmap h)) := by
    intro i
    rw [hnodes]
    exact getElem?_load_save (fun node hnode => hinv.named hnameless hnode) i
  -- every node of the loaded index comes from a node of the saved one
  have hfrom : ∀ node, some node ∈ h₁.nodes →
      ∃ node₀, some node₀ ∈ h.nodes ∧ node = inMemory E.mmap h node₀ := by
    intro node hnode
    obtain ⟨i, hi⟩ := mem_iff_getElem?.mp hnode
    rw [hget i, Option.map_eq_some_iff] at hi
    obtain ⟨n, hn, hmap⟩ := hi
    obtain ⟨node₀, rfl, rfl⟩ := Option.map_eq_some_iff.mp hmap
    exact ⟨node₀, mem_of_getElem? hn, rfl⟩
  refine ⟨?_, hdim₁, hM, ?_⟩
  · exact
      { indexed := by
          intro id i
          rw [hids, hinv.indexed, hget i]
          cases h.nodes[i]? with
          | none => simp
          | some n => cases n <;> simp [inMemory]
        sized := by
          intro node hnode
          obtain ⟨node₀, hnode₀, rfl⟩ := hfrom node hnode
          rw [getVector_inMemory hinv hnode₀, hdim₁]
          exact hinv.sized node₀ hnode₀
        positive := hdim₁ ▸ hinv.positive
        reliable := hmmap ▸ hinv₀.reliable
        kept := by
          intro s _ node hnode hvec
          obtain ⟨node₀, hnode₀, rfl⟩ := hfrom node hnode
          have hsize := hinv.sized node₀ hnode₀
          rw [show getVector E.mmap h node₀ = [] from hvec] at hsize
          exact absurd hsize hinv.positive.ne }
  · have hslot : (view E.mmap h₁).slot = (view E.mmap h).slot := by
      funext id
      cases hid : h.idToIndex id with
      | none => rw [view_absent hid, view_absent (hids ▸ hid)]
      | some i =>
        obtain ⟨node, hnode, -⟩ := hinv.node hid
        have hnode₁ : h₁.nodes[i]? = some (some (inMemory E.mmap h node)) := by
          rw [hget i, hnode]
          rfl
        rw [view_node hid hnode, view_node (hids ▸ hid) hnode₁]
        unfold slotOf
        rw [getVector_inMemory hinv (mem_of_getElem? hnode)]
        rfl
    have hused : (view E.mmap h₁).used = (view E.mmap h).used := by
      show h₁.nodes.length = h.nodes.length
      rw [hnodes, length_map]
      exact length_mapIdx
    exact Table.ext hslot hused

end LoadSave

/-! ## Environments that do their work -/

/-- From a sound index on, an insert returns without an error of the graph, and so does a new index that loads
    what was saved; the index is sound again. -/
class Steady (E : Env F P G S) where
  Sound : HNSW F P G S → Prop
  insert : ∀ {h}, Sound h → ∀ p, ∃ h' e, Hnsw.insert E h p = .value (h', e) ∧
    (∀ text, e ≠ some (.graph text)) ∧ Sound h'
  delete : ∀ {h h' id}, Sound h → Hnsw.delete h id = .value h' → Sound h'
  load : ∀ {h h₀}, Sound h → h.idToIndex [] = none → Sound h₀ → h₀.nodes = [] → h₀.M = h.M →
    h₀.dimension = h.dimension → ∃ h₁, loadMetadata E h₀ (saveMetadata E h) = .value (h₁, none) ∧ Sound h₁

def Env.Sound (E : Env F P G S) [Steady E] (h : HNSW F P G S) : Prop := Steady.Sound (E := E) h

end LimyeDB.Hnsw
