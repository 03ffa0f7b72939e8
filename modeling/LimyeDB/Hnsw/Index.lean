/-
  THE INDEX AS A STORE OF POINTS: insert, lazy delete and get, over nodes that are only ever appended. The
  graph and the file of the vectors are parameters.
-/
import LimyeDB.Point
import LimyeDB.Lib.WriteOnce

namespace LimyeDB.Hnsw

open Go Lib.WriteOnce List Function

/-! ## The index -/

def maxNodes : ℕ := 4294967295

/-- A node. Its vector is empty if it is in the vector file, at the node's offset. -/
structure Node (F P : Type) where
  id : Bytes
  vector : List F
  vectorOffset : ℕ
  level : ℕ
  deleted : Bool
  payload : Option P
  deriving DecidableEq, Repr

/-- `G` is the type of the graph, `S` that of the vector file. A node is a pointer, which may be nil; `rng`
    are the levels that the random numbers are going to give. -/
structure HNSW (F P G S : Type) where
  M : ℕ
  Mmax : ℕ
  efSearch : Int
  maxLevel : Int
  nodes : List (Option (Node F P))
  entryPoint : ℕ
  nodeCount : ℕ
  dimension : ℕ
  idToIndex : Bytes → Option ℕ
  deletedCount : ℕ
  rng : Stream' ℕ
  graph : G
  vectorMmap : Option S

/-- The vector file. A failed `Allocate` returns no offset, a failed `WriteVector` leaves the file as it is.
    -/
structure VectorMmap (F S : Type) where
  allocate : S → S × Option ℕ
  writeVector : S → ℕ → List F → S
  readVector : S → ℕ → Option (List F)

/-- What `Insert` calls beside the list of nodes, each of which may panic. `encode` may train the quantizer;
    `addNode` and `restore` may return an error of the graph file; `connect` is the search and the linking at
    the end of `Insert`; `connections` reads a node's links up to its level. -/
structure Env (F P G S : Type) where
  Code : Type
  encode : G → List F → Outcome Empty (G × Code)
  addNode : G → (nodeID level : ℕ) → Code → Outcome Empty (G × Option String)
  connect : HNSW F P G S → List F → (nodeID entryPoint : ℕ) → (maxLevel : Int) → (level : ℕ) → Outcome Empty G
  connections : G → ℕ → ℕ → List (List ℕ)
  restore : G → ℕ → ℕ → List (List ℕ) → Outcome Empty (G × Option String)
  mmap : VectorMmap F S

inductive IndexError where
  | dimensionMismatch
  | pointExists
  | pointNotFound
  | tooManyNodes
  | graph (text : String)
  deriving DecidableEq, Repr

def IndexError.message : IndexError → String
  | .dimensionMismatch => "vector dimension mismatch"
  | .pointExists => "point with this ID already exists"
  | .pointNotFound => "point not found"
  | .tooManyNodes => "maximum number of nodes exceeded"
  | .graph text => text

structure Config where
  M : ℕ
  efSearch : Int
  dimension : ℕ
  deriving DecidableEq, Repr

inductive NewError where
  | smallM
  | badDimension
  deriving DecidableEq, Repr

variable {F P G S : Type}

def new (cfg : Config) (rng : Stream' ℕ) (graph : G) (vectorMmap : Option S) :
    Except NewError (HNSW F P G S) :=
  if cfg.M < 2 then .error .smallM
  else if cfg.dimension = 0 then .error .badDimension
  else .ok
    { M := cfg.M, Mmax := cfg.M, efSearch := cfg.efSearch, maxLevel := -1, nodes := []
      entryPoint := 0, nodeCount := 0, dimension := cfg.dimension, idToIndex := fun _ => none
      deletedCount := 0, rng := rng, graph := graph, vectorMmap := vectorMmap }

def getVector (m : VectorMmap F S) (h : HNSW F P G S) (node : Node F P) : List F :=
  if node.vector ≠ [] then node.vector
  else
    match h.vectorMmap with
    | some s => (m.readVector s node.vectorOffset).getD []
    | none => []

/-- The part of `Insert` under the lock: the node's id, the entry point, the level to begin with, and whether
    there is nothing to search. The code is the node's quantised vector. -/
def insertNode (E : Env F P G S) (h : HNSW F P G S) (node : Node F P) (code : E.Code) (pointID : Bytes)
    (level : ℕ) : Outcome Empty (HNSW F P G S × Except IndexError (ℕ × ℕ × Int × Bool)) :=
  if maxNodes ≤ h.nodes.length then .value (h, .error .tooManyNodes)
  else do
    let nodeID := h.nodes.length
    let (graph, err) ← E.addNode h.graph nodeID level code
    if let some text := err then return ({ h with graph := graph }, .error (.graph text))
    let h := { h with
      graph := graph
      nodes := h.nodes ++ [some node]
      idToIndex := update h.idToIndex pointID (some nodeID)
      nodeCount := h.nodeCount + 1 }
    if h.maxLevel = -1 then
      return ({ h with maxLevel := level, entryPoint := nodeID }, .ok (nodeID, 0, 0, true))
    let entryPoint := h.entryPoint
    let maxLevel : Int := h.maxLevel
    let h := if maxLevel < (level : Int) then { h with maxLevel := level, entryPoint := nodeID }
      else h
    return (h, .ok (nodeID, entryPoint, maxLevel, false))

/-- The vector goes to the file if there is one; errors of the file are ignored. -/
def storeVector (m : VectorMmap F S) (h : HNSW F P G S) (v : List F) :
    HNSW F P G S × List F × ℕ :=
  match h.vectorMmap with
  | none => (h, v, 0)
  | some s =>
    let (s, offset) := m.allocate s
    let offset := offset.getD 0
    ({ h with vectorMmap := some (m.writeVector s offset v) }, [], offset)

def insert (E : Env F P G S) (h : HNSW F P G S) (p : Point F P) :
    Outcome Empty (HNSW F P G S × Option IndexError) :=
  if p.vector.length ≠ h.dimension then .value (h, some .dimensionMismatch)
  else
    match h.idToIndex p.id with
    | some _ => .value (h, some .pointExists)
    | none => do
      let level := h.rng.head
      let (h, vec, offset) := storeVector E.mmap { h with rng := h.rng.tail } p.vector
      let node : Node F P := ⟨p.id, vec, offset, level, false, p.payload⟩
      let (graph, code) ← E.encode h.graph p.vector
      let (h, result) ← insertNode E { h with graph := graph } node code p.id level
      match result with
      | .error e => return (h, some e)
      | .ok (nodeID, entryPoint, maxLevel, done) =>
        if done then return (h, none)
        let graph ← E.connect h p.vector nodeID entryPoint maxLevel level
        return ({ h with graph := graph }, none)

def delete (h : HNSW F P G S) (id : Bytes) : Outcome IndexError (HNSW F P G S) :=
  match h.idToIndex id with
  | none => .error .pointNotFound
  | some nodeID =>
    match h.nodes[nodeID]? with
    | some (some node) =>
      if node.deleted then .value h
      else .value { h with
        nodes := h.nodes.set nodeID (some { node with deleted := true })
        deletedCount := h.deletedCount + 1 }
    | _ => .panic

def get (m : VectorMmap F S) (h : HNSW F P G S) (id : Bytes) : Outcome IndexError (Point F P) :=
  match h.idToIndex id with
  | none => .error .pointNotFound
  | some nodeID =>
    match h.nodes[nodeID]? with
    | some (some node) =>
      if node.deleted then .error .pointNotFound
      else .value ⟨node.id, getVector m h node, node.payload, [], none⟩
    | _ => .panic

/-! ## A vector file that keeps what it is given -/

namespace VectorMmap

variable {m : VectorMmap F S} {s : S}

def put (m : VectorMmap F S) (s : S) (v : List F) : S × ℕ :=
  let (s, offset) := m.allocate s
  let offset := offset.getD 0
  (m.writeVector s offset v, offset)

/-- The offset reads `v`, and will, whatever is put into the file. -/
def Keeps (m : VectorMmap F S) (s : S) (offset : ℕ) (v : List F) : Prop :=
  ∀ vs : List (List F), m.readVector (vs.foldl (fun s v => (m.put s v).1) s) offset = some v

/-- From `s` on the file does not fail: it keeps every vector that is put into it. -/
def Reliable (m : VectorMmap F S) (s : S) : Prop :=
  ∀ (vs : List (List F)) (v : List F), m.Keeps
    (m.put (vs.foldl (fun s v => (m.put s v).1) s) v).1
    (m.put (vs.foldl (fun s v => (m.put s v).1) s) v).2 v

theorem Keeps.put {offset : ℕ} {v : List F} (h : m.Keeps s offset v) (w : List F) :
    m.Keeps (m.put s w).1 offset v :=
  fun vs => h (w :: vs)

theorem Reliable.put (h : m.Reliable s) (w : List F) : m.Reliable (m.put s w).1 :=
  fun vs => h (w :: vs)

theorem Reliable.keeps (h : m.Reliable s) (v : List F) : m.Keeps (m.put s v).1 (m.put s v).2 v :=
  h [] v

theorem Keeps.read {offset : ℕ} {v : List F} (h : m.Keeps s offset v) :
    m.readVector s offset = some v :=
  h []

end VectorMmap

/-! ## The index as a table -/

def slotOf (m : VectorMmap F S) (h : HNSW F P G S) (node : Node F P) : Slot (List F × Option P) :=
  if node.deleted then .dead else .live (getVector m h node, node.payload)

def view (m : VectorMmap F S) (h : HNSW F P G S) : Table Bytes (List F × Option P) where
  slot id :=
    match h.idToIndex id with
    | none => .absent
    | some nodeID =>
      match h.nodes[nodeID]? with
      | some (some node) => slotOf m h node
      | _ => .absent
  used := h.nodes.length

def Indexed (h : HNSW F P G S) : Prop :=
  ∀ id i, h.idToIndex id = some i ↔ ∃ node, h.nodes[i]? = some (some node) ∧ node.id = id

/-- Ids and nodes are inverse to each other, and every node has its vector. -/
structure Inv (m : VectorMmap F S) (h : HNSW F P G S) : Prop where
  indexed : ∀ id i, h.idToIndex id = some i ↔ ∃ node, h.nodes[i]? = some (some node) ∧ node.id = id
  sized : ∀ node, some node ∈ h.nodes → (getVector m h node).length = h.dimension
  positive : 0 < h.dimension
  reliable : ∀ s, h.vectorMmap = some s → m.Reliable s
  kept : ∀ s, h.vectorMmap = some s → ∀ node, some node ∈ h.nodes → node.vector = [] →
    ∃ v, m.Keeps s node.vectorOffset v

section View

variable {m : VectorMmap F S} {h h' : HNSW F P G S}

theorem view_absent {id : Bytes} (hid : h.idToIndex id = none) :
    (view m h).slot id = .absent := by
  simp only [view, hid]

theorem view_node {id : Bytes} {i : ℕ} {node : Node F P} (hid : h.idToIndex id = some i)
    (hnode : h.nodes[i]? = some (some node)) : (view m h).slot id = slotOf m h node := by
  simp only [view, hid, hnode]

theorem slotOf_ne_absent (node : Node F P) : slotOf m h node ≠ .absent := by
  unfold slotOf
  split <;> simp

theorem view_congr (hids : h'.idToIndex = h.idToIndex) (hnodes : h'.nodes = h.nodes)
    (hvec : ∀ node, some node ∈ h.nodes → getVector m h' node = getVector m h node) :
    view m h' = view m h := by
  unfold view
  rw [hids, hnodes]
  congr 1
  funext id
  split
  · rfl
  · split
    · rename_i hnode
      unfold slotOf
      rw [hvec _ (mem_of_getElem? hnode)]
    · rfl

theorem Inv.node {id : Bytes} {i : ℕ} (hinv : Inv m h) (hid : h.idToIndex id = some i) :
    ∃ node, h.nodes[i]? = some (some node) ∧ node.id = id :=
  (hinv.indexed id i).mp hid

theorem Inv.view_absent_iff (hinv : Inv m h) (id : Bytes) :
    (view m h).slot id = .absent ↔ h.idToIndex id = none := by
  constructor
  · intro habs
    cases hid : h.idToIndex id with
    | none => rfl
    | some i =>
      obtain ⟨node, hnode, -⟩ := hinv.node hid
      rw [view_node hid hnode] at habs
      exact absurd habs (slotOf_ne_absent node)
  · exact view_absent

def answer (id : Bytes) : Option (List F × Option P) → Outcome IndexError (Point F P)
  | some (v, payload) => .value ⟨id, v, payload, [], none⟩
  | none => .error .pointNotFound

theorem answer_inj (id : Bytes) (a b : Option (List F × Option P)) :
    answer id a = answer id b ↔ a = b := by
  refine ⟨fun h => ?_, fun h => h ▸ rfl⟩
  rcases a with _ | ⟨v, pl⟩ <;> rcases b with _ | ⟨v', pl'⟩ <;> simp_all [answer]

theorem Inv.get_eq (hinv : Inv m h) (id : Bytes) : get m h id = answer id ((view m h).find id) := by
  unfold get Table.find
  cases hid : h.idToIndex id with
  | none => simp only [view_absent hid, Slot.value, answer]
  | some i =>
    obtain ⟨node, hnode, rfl⟩ := hinv.node hid
    simp only [view_node hid hnode, hnode, slotOf]
    split <;> rfl

theorem inv_new {cfg : Config} {rng : Stream' ℕ} {graph : G} {vectorMmap : Option S}
    (hnew : new cfg rng graph vectorMmap = .ok h)
    (hmmap : ∀ s, vectorMmap = some s → m.Reliable s) :
    Inv m h ∧ h.dimension = cfg.dimension ∧ view m h = Table.empty := by
  unfold new at hnew
  split at hnew
  · cases hnew
  · split at hnew
    · cases hnew
    · rename_i hdim
      cases hnew
      exact ⟨⟨by simp, by simp, Nat.pos_of_ne_zero hdim, hmmap, by simp⟩, rfl, rfl⟩

end View

/-! ## Insert -/

section Insert

variable {m : VectorMmap F S} {h : HNSW F P G S} {p : Point F P}

def stored (m : VectorMmap F S) (h : HNSW F P G S) (v : List F) : Option S :=
  h.vectorMmap.map fun s => (m.put s v).1

def newNode (m : VectorMmap F S) (h : HNSW F P G S) (p : Point F P) : Node F P :=
  match h.vectorMmap with
  | none => ⟨p.id, p.vector, 0, h.rng.head, false, p.payload⟩
  | some s => ⟨p.id, [], (m.put s p.vector).2, h.rng.head, false, p.payload⟩

/-- The index with the new node; its graph is what the environment makes of it. -/
def appended (m : VectorMmap F S) (h : HNSW F P G S) (p : Point F P) (graph : G) : HNSW F P G S :=
  { h with
    rng := h.rng.tail
    vectorMmap := stored m h p.vector
    graph := graph
    nodes := h.nodes ++ [some (newNode m h p)]
    idToIndex := update h.idToIndex p.id (some h.nodes.length)
    nodeCount := h.nodeCount + 1
    maxLevel := if h.maxLevel < h.rng.head then h.rng.head else h.maxLevel
    entryPoint := if h.maxLevel < h.rng.head then h.nodes.length else h.entryPoint }

/-- An insert that finds no place for its node has used up a level, a place in the vector file and a training of
    the quantizer. -/
def refused (m : VectorMmap F S) (h : HNSW F P G S) (p : Point F P) (graph : G) : HNSW F P G S :=
  { h with rng := h.rng.tail, vectorMmap := stored m h p.vector, graph := graph }

theorem storeVector_eq : storeVector m { h with rng := h.rng.tail } p.vector =
    ({ h with rng := h.rng.tail, vectorMmap := stored m h p.vector },
      (newNode m h p).vector, (newNode m h p).vectorOffset) := by
  unfold storeVector stored newNode
  cases h.vectorMmap with
  | none => simp
  | some s => simp [VectorMmap.put]

theorem newNode_eq : (⟨p.id, (newNode m h p).vector, (newNode m h p).vectorOffset,
    h.rng.head, false, p.payload⟩ : Node F P) = newNode m h p := by
  unfold newNode
  cases h.vectorMmap <;> rfl

theorem insert_mismatch {E : Env F P G S} (hdim : p.vector.length ≠ h.dimension) :
    insert E h p = .value (h, some .dimensionMismatch) :=
  if_pos hdim

section

variable {E : Env F P G S} (hdim : p.vector.length = h.dimension)
include hdim

theorem insert_exists {i : ℕ} (hid : h.idToIndex p.id = some i) :
    insert E h p = .value (h, some .pointExists) := by
  unfold insert
  rw [if_neg (not_not.mpr hdim), hid]

/-- **The insert of a new id**: the vector is encoded, and the node gets its place in the graph and its links. -/
theorem insert_new (hid : h.idToIndex p.id = none) :
    insert E h p = do
      let (graph, code) ← E.encode h.graph p.vector
      if maxNodes ≤ h.nodes.length then return (refused E.mmap h p graph, some .tooManyNodes)
      let (graph, err) ← E.addNode graph h.nodes.length h.rng.head code
      if let some text := err then return (refused E.mmap h p graph, some (.graph text))
      if h.maxLevel = -1 then return (appended E.mmap h p graph, none)
      let graph ← E.connect (appended E.mmap h p graph) p.vector h.nodes.length h.entryPoint
        h.maxLevel h.rng.head
      return (appended E.mmap h p graph, none) := by
  unfold insert
  rw [if_neg (not_not.mpr hdim)]
  simp only [hid, storeVector_eq, newNode_eq]
  cases E.encode h.graph p.vector with
  | error e => exact e.elim
  | panic => rfl
  | value r =>
    obtain ⟨graph, code⟩ := r
    simp only [Outcome.value_bind]
    unfold insertNode
    by_cases hfull : maxNodes ≤ h.nodes.length
    · simp only [hfull, if_true]
      rfl
    · simp only [hfull, if_false]
      cases E.addNode graph h.nodes.length h.rng.head code with
      | error e => exact e.elim
      | panic => rfl
      | value r =>
        obtain ⟨graph, _ | text⟩ := r
        · by_cases hfirst : h.maxLevel = -1
          · have hlt : -1 < (h.rng.head : Int) := by omega
            simp [hfirst, appended, hlt]
          · by_cases hlt : h.maxLevel < (h.rng.head : Int) <;> simp [hfirst, appended, hlt]
        · rfl

end

/-- **How an insert ends that returns**: the errors in the order of the checks, or a new node. -/
inductive Ends (m : VectorMmap F S) (h : HNSW F P G S) (p : Point F P) :
    HNSW F P G S → Option IndexError → Prop where
  | mismatch (hdim : p.vector.length ≠ h.dimension) : Ends m h p h (some .dimensionMismatch)
  | known {i} (hdim : p.vector.length = h.dimension) (hid : h.idToIndex p.id = some i) :
      Ends m h p h (some .pointExists)
  | full (hid : h.idToIndex p.id = none) (hfull : maxNodes ≤ h.nodes.length) (graph : G) :
      Ends m h p (refused m h p graph) (some .tooManyNodes)
  | failed (graph : G) (text : String) : Ends m h p (refused m h p graph) (some (.graph text))
  | fresh (hdim : p.vector.length = h.dimension) (hid : h.idToIndex p.id = none)
      (hroom : h.nodes.length < maxNodes) (graph : G) : Ends m h p (appended m h p graph) none

theorem insert_ends {E : Env F P G S} {h' : HNSW F P G S} {e : Option IndexError}
    (hins : insert E h p = .value (h', e)) : Ends E.mmap h p h' e := by
  by_cases hdim : p.vector.length = h.dimension
  · cases hid : h.idToIndex p.id with
    | some i =>
      rw [insert_exists hdim hid] at hins
      cases hins
      exact .known hdim hid
    | none =>
      rw [insert_new hdim hid] at hins
      obtain ⟨⟨graph, code⟩, -, hins⟩ := Outcome.bind_eq_value.mp hins
      simp only at hins
      split at hins
      · rename_i hfull
        cases hins
        exact .full hid hfull graph
      · rename_i hroom
        obtain ⟨⟨graph, _ | text⟩, -, hins⟩ := Outcome.bind_eq_value.mp hins
        · simp only at hins
          split at hins
          · cases hins
            exact .fresh hdim hid (Nat.lt_of_not_le hroom) graph
          · obtain ⟨graph, -, hins⟩ := Outcome.bind_eq_value.mp hins
            cases hins
            exact .fresh hdim hid (Nat.lt_of_not_le hroom) graph
        · cases hins
          exact .failed graph text
  · rw [insert_mismatch hdim] at hins
    cases hins
    exact .mismatch hdim

theorem Ends.M {h' : HNSW F P G S} {e : Option IndexError} (hends : Ends m h p h' e) : h'.M = h.M := by
  cases hends <;> rfl

theorem Inv.getVector_stored (hinv : Inv m h) {h' : HNSW F P G S} {v : List F}
    (hmmap : h'.vectorMmap = stored m h v) {node : Node F P} (hnode : some node ∈ h.nodes) :
    getVector m h' node = getVector m h node := by
  unfold getVector stored at *
  by_cases hvec : node.vector = []
  · cases hs : h.vectorMmap with
    | none => simp [hvec, hmmap, hs]
    | some s =>
      obtain ⟨w, hkeeps⟩ := hinv.kept s hs node hnode hvec
      simp [hvec, hmmap, hs, hkeeps.read, (hkeeps.put v).read]
  · simp [hvec]

theorem Inv.getVector_newNode (hinv : Inv m h) {h' : HNSW F P G S}
    (hmmap : h'.vectorMmap = stored m h p.vector) (hdim : p.vector.length = h.dimension) :
    getVector m h' (newNode m h p) = p.vector := by
  have hne : p.vector ≠ [] := by
    intro hnil
    rw [hnil] at hdim
    exact hinv.positive.ne hdim
  unfold getVector newNode stored at *
  cases hs : h.vectorMmap with
  | none => simp [hne]
  | some s =>
    have hread := ((hinv.reliable s hs).keeps p.vector).read
    simp [hmmap, hs, hread]

@[simp] theorem newNode_id (m : VectorMmap F S) (h : HNSW F P G S) (p : Point F P) :
    (newNode m h p).id = p.id := by
  unfold newNode
  split <;> rfl

@[simp] theorem newNode_deleted (m : VectorMmap F S) (h : HNSW F P G S) (p : Point F P) :
    (newNode m h p).deleted = false := by
  unfold newNode
  split <;> rfl

@[simp] theorem newNode_payload (m : VectorMmap F S) (h : HNSW F P G S) (p : Point F P) :
    (newNode m h p).payload = p.payload := by
  unfold newNode
  split <;> rfl

theorem newNode_level (m : VectorMmap F S) (h : HNSW F P G S) (p : Point F P) :
    (newNode m h p).level = h.rng.head := by
  unfold newNode
  split <;> rfl

variable (hinv : Inv m h)
include hinv

theorem Inv.reliable_stored (v : List F) {s : S} (hs : stored m h v = some s) :
    m.Reliable s := by
  obtain ⟨s₀, hs₀, rfl⟩ := Option.map_eq_some_iff.mp hs
  exact (hinv.reliable s₀ hs₀).put v

theorem Inv.kept_stored (v : List F) {s : S} (hs : stored m h v = some s) :
    ∀ node, some node ∈ h.nodes → node.vector = [] → ∃ w, m.Keeps s node.vectorOffset w := by
  obtain ⟨s₀, hs₀, rfl⟩ := Option.map_eq_some_iff.mp hs
  intro node hnode hvec
  obtain ⟨w, hw⟩ := hinv.kept s₀ hs₀ node hnode hvec
  exact ⟨w, hw.put v⟩

omit hinv in
theorem Indexed.append (hx : Indexed h) {node : Node F P} (hid : h.idToIndex node.id = none)
    (id : Bytes) (i : ℕ) :
    update h.idToIndex node.id (some h.nodes.length) id = some i ↔
      ∃ node', (h.nodes ++ [some node])[i]? = some (some node') ∧ node'.id = id := by
  by_cases hsame : id = node.id
  · subst hsame
    rw [update_self, Option.some_inj]
    constructor
    · rintro rfl
      exact ⟨node, getElem?_concat_length, rfl⟩
    · rintro ⟨node', hnode', hid'⟩
      rcases Nat.lt_or_ge i h.nodes.length with hi | hi
      · rw [getElem?_append_left hi] at hnode'
        rw [(hx _ i).mpr ⟨node', hnode', hid'⟩] at hid
        cases hid
      · obtain ⟨hi', -⟩ := List.getElem?_eq_some_iff.mp hnode'
        rw [length_append, length_singleton] at hi'
        omega
  · rw [update_of_ne hsame, hx id i]
    rcases Nat.lt_or_ge i h.nodes.length with hi | hi
    · rw [getElem?_append_left hi]
    · rw [getElem?_append_right hi, getElem?_eq_none hi]
      refine iff_of_false (fun ⟨_, hnone, _⟩ => by cases hnone) ?_
      rintro ⟨node', hnode', rfl⟩
      cases mem_singleton.mp (mem_of_getElem? hnode')
      exact hsame rfl

theorem Inv.append (hdim : p.vector.length = h.dimension) (hid : h.idToIndex p.id = none) {h' : HNSW F P G S}
    (hnodes : h'.nodes = h.nodes ++ [some (newNode m h p)])
    (hids : h'.idToIndex = update h.idToIndex p.id (some h.nodes.length))
    (hmmap : h'.vectorMmap = stored m h p.vector) (hdim' : h'.dimension = h.dimension) :
    Inv m h' ∧ view m h' =
      ⟨update (view m h).slot p.id (.live (p.vector, p.payload)), h.nodes.length + 1⟩ := by
  have hnew := hinv.getVector_newNode hmmap hdim
  constructor
  · exact
      { indexed := by
          rw [hids, hnodes, ← newNode_id m h p]
          exact Indexed.append hinv.indexed (by rw [newNode_id]; exact hid)
        sized := by
          rw [hnodes, hdim']
          intro node hnode
          rcases mem_append.mp hnode with hnode | hnode
          · rw [hinv.getVector_stored hmmap hnode]
            exact hinv.sized node hnode
          · cases mem_singleton.mp hnode
            rw [hnew]
            exact hdim
        positive := hdim' ▸ hinv.positive
        reliable := fun s hs => hinv.reliable_stored p.vector (hmmap ▸ hs)
        kept := by
          intro s hs node hnode hvec
          rw [hmmap] at hs
          rw [hnodes] at hnode
          rcases mem_append.mp hnode with hnode | hnode
          · exact hinv.kept_stored p.vector hs node hnode hvec
          · -- the new node's vector is in memory or was just put into the file
            obtain ⟨s₀, hs₀, rfl⟩ := Option.map_eq_some_iff.mp hs
            refine ⟨p.vector, ?_⟩
            cases mem_singleton.mp hnode
            simpa [newNode, hs₀] using (hinv.reliable s₀ hs₀).keeps p.vector }
  · have hslot : (view m h').slot =
        update (view m h).slot p.id (.live (p.vector, p.payload)) := by
      funext id
      by_cases hsame : id = p.id
      · subst hsame
        have hnode : h'.nodes[h.nodes.length]? = some (some (newNode m h p)) := by
          rw [hnodes]
          exact getElem?_concat_length
        rw [update_self, view_node (by rw [hids, update_self]) hnode]
        simp [slotOf, hnew]
      · rw [update_of_ne hsame]
        cases hi : h.idToIndex id with
        | none =>
          rw [view_absent hi, view_absent]
          rw [hids, update_of_ne hsame, hi]
        | some i =>
          obtain ⟨node, hnode, -⟩ := hinv.node hi
          have hnode' : h'.nodes[i]? = some (some node) := by
            rw [hnodes, List.getElem?_append_left (List.getElem?_eq_some_iff.mp hnode).1]
            exact hnode
          rw [view_node hi hnode, view_node (by rw [hids, update_of_ne hsame, hi]) hnode']
          unfold slotOf
          rw [hinv.getVector_stored hmmap (mem_of_getElem? hnode)]
    have hused : (view m h').used = h.nodes.length + 1 := by
      show h'.nodes.length = _
      rw [hnodes, length_append, length_singleton]
    exact Table.ext hslot hused

theorem Inv.refused (graph : G) :
    Inv m (Hnsw.refused m h p graph) ∧ view m (Hnsw.refused m h p graph) = view m h := by
  refine ⟨⟨hinv.indexed, ?_, hinv.positive, fun s => hinv.reliable_stored _, fun s => hinv.kept_stored _⟩,
    view_congr rfl rfl fun node hnode => hinv.getVector_stored rfl hnode⟩
  intro node hnode
  rw [hinv.getVector_stored rfl hnode]
  exact hinv.sized node hnode

/-- Without an error of the graph the table of points is written to once. -/
theorem Inv.insert_view {h' : HNSW F P G S} {e : Option IndexError} (hends : Ends m h p h' e)
    (hgraph : ∀ text, e ≠ some (.graph text)) (hdim : p.vector.length = h.dimension) :
    Inv m h' ∧ h'.dimension = h.dimension ∧
      view m h' = (view m h).insert maxNodes p.id (p.vector, p.payload) := by
  unfold Table.insert
  cases hends with
  | mismatch hne => exact absurd hdim hne
  | known _ hid =>
    obtain ⟨node, hnode, -⟩ := hinv.node hid
    refine ⟨hinv, rfl, ?_⟩
    cases hslot : (view m h).slot p.id with
    | absent =>
      rw [view_node hid hnode] at hslot
      exact absurd hslot (slotOf_ne_absent node)
    | live v => rfl
    | dead => rfl
  | full hid hfull graph =>
    obtain ⟨hinv', hview⟩ := hinv.refused (p := p) graph
    rw [view_absent hid, if_neg (show ¬ (view m h).used < maxNodes from Nat.not_lt.mpr hfull)]
    exact ⟨hinv', rfl, hview⟩
  | failed graph text => exact absurd rfl (hgraph text)
  | fresh _ hid hroom graph =>
    obtain ⟨hinv', hview⟩ : Inv m (appended m h p graph) ∧ _ := hinv.append hdim hid rfl rfl rfl rfl
    rw [view_absent hid, if_pos (show (view m h).used < maxNodes from hroom)]
    exact ⟨hinv', rfl, hview⟩

end Insert

/-! ## Delete -/

section Delete

variable {m : VectorMmap F S} {h : HNSW F P G S} {id : Bytes}

theorem getVector_congr {h' : HNSW F P G S} (hmmap : h'.vectorMmap = h.vectorMmap)
    (node : Node F P) : getVector m h' node = getVector m h node := by
  unfold getVector
  rw [hmmap]

theorem Indexed.mark (hx : Indexed h) {i : ℕ} {node : Node F P}
    (hnode : h.nodes[i]? = some (some node)) (id : Bytes) (j : ℕ) : h.idToIndex id = some j ↔
      ∃ node', (h.nodes.set i (some { node with deleted := true }))[j]? = some (some node') ∧
        node'.id = id := by
  rw [hx id j]
  by_cases hj : i = j
  · subst hj
    simp [hnode, List.getElem?_set_self (List.getElem?_eq_some_iff.mp hnode).1]
  · rw [List.getElem?_set_ne hj]

theorem Inv.mark (hinv : Inv m h) {i : ℕ} {node : Node F P} (hid : h.idToIndex node.id = some i)
    (hnode : h.nodes[i]? = some (some node)) (h' : HNSW F P G S)
    (hnodes : h'.nodes = h.nodes.set i (some { node with deleted := true }))
    (hids : h'.idToIndex = h.idToIndex) (hmmap : h'.vectorMmap = h.vectorMmap)
    (hdim : h'.dimension = h.dimension) :
    Inv m h' ∧ view m h' =
      { view m h with slot := update (view m h).slot node.id .dead } := by
  have hmem := mem_of_getElem? hnode
  have hi : i < h.nodes.length := (List.getElem?_eq_some_iff.mp hnode).1
  have hmarked : h'.nodes[i]? = some (some { node with deleted := true }) := by
    rw [hnodes]
    exact getElem?_set_self hi
  have hother : ∀ j, i ≠ j → h'.nodes[j]? = h.nodes[j]? := by
    intro j hj
    rw [hnodes]
    exact getElem?_set_ne hj
  constructor
  · exact
      { indexed := by
          rw [hids, hnodes]
          exact Indexed.mark hinv.indexed hnode
        sized := by
          rw [hnodes, hdim]
          intro node' hnode'
          rw [getVector_congr hmmap]
          rcases mem_or_eq_of_mem_set hnode' with hnode' | hnode'
          · exact hinv.sized node' hnode'
          · cases hnode'
            exact hinv.sized node hmem
        positive := hdim ▸ hinv.positive
        reliable := hmmap ▸ hinv.reliable
        kept := by
          rw [hmmap, hnodes]
          intro s hs node' hnode' hvec
          rcases mem_or_eq_of_mem_set hnode' with hnode' | hnode'
          · exact hinv.kept s hs node' hnode' hvec
          · cases hnode'
            exact hinv.kept s hs node hmem hvec }
  · have hslot : (view m h').slot = update (view m h).slot node.id .dead := by
      funext id
      by_cases hsame : id = node.id
      · subst hsame
        rw [update_self, view_node (hids ▸ hid) hmarked]
        rfl
      · rw [update_of_ne hsame]
        cases hj : h.idToIndex id with
        | none => rw [view_absent hj, view_absent (hids ▸ hj)]
        | some j =>
          obtain ⟨node', hnode', rfl⟩ := hinv.node hj
          have hne : i ≠ j := by
            rintro rfl
            rw [hnode] at hnode'
            cases hnode'
            exact hsame rfl
          rw [view_node hj hnode', view_node (hids ▸ hj) ((hother j hne).trans hnode')]
          unfold slotOf
          rw [getVector_congr hmmap]
    have hused : (view m h').used = (view m h).used := by
      show h'.nodes.length = h.nodes.length
      rw [hnodes, length_set]
    exact Table.ext hslot hused

theorem M_delete {h' : HNSW F P G S} (hdel : delete h id = .value h') : h'.M = h.M := by
  unfold delete at hdel
  split at hdel
  · cases hdel
  · split at hdel
    · split at hdel <;> cases Outcome.value.inj hdel <;> rfl
    · cases hdel

theorem Inv.delete_view (hinv : Inv m h) (id : Bytes) :
    (h.idToIndex id = none ∧ delete h id = .error .pointNotFound) ∨
      ∃ h', delete h id = .value h' ∧ Inv m h' ∧ h'.dimension = h.dimension ∧
        view m h' = (view m h).delete id := by
  unfold delete
  cases hid : h.idToIndex id with
  | none => exact .inl ⟨rfl, rfl⟩
  | some i =>
    right
    obtain ⟨node, hnode, rfl⟩ := hinv.node hid
    have hslot := view_node (m := m) hid hnode
    unfold slotOf at hslot
    simp only [hnode]
    cases hdel : node.deleted with
    | true =>
      rw [hdel] at hslot
      refine ⟨h, rfl, hinv, rfl, ?_⟩
      unfold Table.delete
      rw [hslot]
      rfl
    | false =>
      rw [hdel] at hslot
      obtain ⟨hinv', hview⟩ := hinv.mark hid hnode { h with
        nodes := h.nodes.set i (some { node with deleted := true })
        deletedCount := h.deletedCount + 1 } rfl rfl rfl rfl
      refine ⟨_, rfl, hinv', rfl, ?_⟩
      unfold Table.delete
      rw [hslot]
      exact hview

end Delete

end LimyeDB.Hnsw
