/-
  THE LINKS OF AN INDEX IN EVERY STATE THAT CALLS CAN REACH.
-/
import LimyeDB.Graph.Linking
import LimyeDB.Lib.Runs

namespace LimyeDB.Graph

open Go Hnsw GraphMmap Lib.Runs List

variable {F P D Q C S : Type} [Distance D]

/-! ## What every index has -/

/-- Nodes, links that can be read and lead to nodes, and an entry point as soon as there are
    nodes. -/
structure Base (h : Index F P Q C S) : Prop where
  node : ∀ i < h.nodes.length, Exists h i
  stored : Stored h fun _ _ => True
  Mmax : h.Mmax = h.M
  Mmax0 : h.graph.Mmax0 = 2 * h.M
  bottom : -1 ≤ h.maxLevel
  begun : h.nodes ≠ [] ↔ h.maxLevel ≠ -1
  entry : h.maxLevel ≠ -1 → h.entryPoint < h.nodes.length
  closed : ∀ k, ∀ i < h.nodes.length, ∀ j ∈ conn h k i, j < h.nodes.length

variable {i : ℕ}

section Base

variable {h h' : Index F P Q C S} {N : ℕ → Finset ℕ}

omit [Distance D] in
theorem exists_iff : Exists h i ↔ ∃ level, levelAt h i = some level := by
  refine ⟨level_of_exists, fun ⟨level, hlevel⟩ => ?_⟩
  obtain ⟨node, hnode, -⟩ := levelAt_some.mp hlevel
  exact ⟨node, hnode⟩

theorem Base.get (hb : Base h) (hi : i < h.nodes.length) (k : ℕ) :
    getConnections h i k = .value (conn h k i) := by
  obtain ⟨level, hlevel⟩ := level_of_exists (hb.node i hi)
  exact hb.stored.get hlevel trivial

theorem Base.sound (hb : Base h) : Sound h where
  node := hb.node
  links _ hi layer := hb.get hi layer
  closed i hi layer j hj := hb.closed layer i hi j hj
  entry := hb.entry

theorem Stored.congr {used : ℕ → ℕ → Prop} (hs : Stored h used)
    (hlinks : h'.graph.links = h.graph.links) (hM : h'.M = h.M)
    (hlevels : ∀ i, levelAt h' i = levelAt h i) : Stored h' used := by
  unfold Stored at hs ⊢
  rw [hlinks]
  split at hs
  · exact ⟨fun i level hi => hs.1 i level (hlevels i ▸ hi), fun i hi => hs.2 i (hlevels i ▸ hi)⟩
  · rw [hM]
    exact ⟨hs.1, fun i level hi => hs.2 i level (hlevels i ▸ hi)⟩

structure SameGraph (h h' : Index F P Q C S) : Prop where
  links : h'.graph.links = h.graph.links
  levels : ∀ i, levelAt h' i = levelAt h i
  length : h'.nodes.length = h.nodes.length
  M : h'.M = h.M
  Mmax : h'.Mmax = h.Mmax
  Mmax0 : h'.graph.Mmax0 = h.graph.Mmax0
  maxLevel : h'.maxLevel = h.maxLevel
  entryPoint : h'.entryPoint = h.entryPoint

theorem SameGraph.conn (hg : SameGraph h h') (k i : ℕ) : conn h' k i = conn h k i :=
  conn_congr hg.links (hg.levels i)

theorem Base.congr (hb : Base h) (hg : SameGraph h h') : Base h' where
  node i hi := by
    rw [exists_iff, hg.levels i, ← exists_iff]
    exact hb.node i (hg.length ▸ hi)
  stored := hb.stored.congr hg.links hg.M hg.levels
  Mmax := by rw [hg.Mmax, hg.M, hb.Mmax]
  Mmax0 := by rw [hg.Mmax0, hg.M, hb.Mmax0]
  bottom := hg.maxLevel ▸ hb.bottom
  begun := by
    rw [hg.maxLevel, ← hb.begun, ← length_pos_iff, hg.length, length_pos_iff]
  entry hne := by
    rw [hg.entryPoint, hg.length]
    exact hb.entry (hg.maxLevel ▸ hne)
  closed k i hi j hj := by
    rw [hg.conn] at hj
    rw [hg.length] at hi ⊢
    exact hb.closed k i hi j hj

theorem Base.grown (hb : Base h) (T : Tools F D Q C S) (p : Point F P) (hr : Ready h N)
    {links : Links} (hg : Grown h (Index.withLinks (added T h p) links) N)
    (hleft : ∀ k ≤ h.rng.head, linkedLayers h ≤ k →
      ∀ j ∈ h.graph.links.leftover h.nodes.length k, j ≤ h.nodes.length) :
    Base (Index.withLinks (added T h p) links) := by
  have hlength : (Index.withLinks (added T h p) links).nodes.length = h.nodes.length + 1 :=
    length_append
  refine ⟨fun i hi => ?_, hg.stored, hb.Mmax, hb.Mmax0, ?_, ?_, fun _ => ?_, fun k i hi j hj => ?_⟩
  · exact added_node hr T p (by omega)
  · have := hb.bottom
    show -1 ≤ if h.maxLevel < h.rng.head then (h.rng.head : Int) else h.maxLevel
    split <;> omega
  · have := hb.bottom
    refine iff_of_true (ne_nil_of_length_pos (by omega)) ?_
    show (if h.maxLevel < h.rng.head then (h.rng.head : Int) else h.maxLevel) ≠ -1
    split <;> omega
  · rw [hlength]
    show (if h.maxLevel < h.rng.head then h.nodes.length else h.entryPoint) < h.nodes.length + 1
    split
    · omega
    · have hentry := hb.entry (by omega)
      omega
  · rw [hlength] at hi ⊢
    rcases Nat.lt_or_eq_of_le (Nat.le_of_lt_succ hi) with hlt | rfl
    · rcases (hg.others k i hlt).mem hj with hj | rfl
      · exact Nat.lt_succ_of_lt (hb.closed k i hlt j hj)
      · exact Nat.lt_succ_self _
    · rcases Nat.lt_or_ge k (linkedLayers h) with hlt | hge
      · exact Nat.lt_succ_of_lt (hr.old k j ((hg.own k hlt).2.1 j hj))
      · rcases Nat.lt_or_ge h.rng.head k with habove | hle
        · have hlevel : levelAt (Index.withLinks (added T h p) links) h.nodes.length =
            some h.rng.head := (hr.ground T p).levelled
          rw [conn_of_get (hg.stored.above hlevel habove)] at hj
          exact absurd hj not_mem_nil
        · rw [hg.left k hle hge] at hj
          exact Nat.lt_succ_of_le (hleft k hle hge j hj)

end Base

/-! ## What a call can do -/

/-- Nothing has happened to the points and their links. -/
structure Idle (h h' : Index F P Q C S) : Prop where
  nodes : h'.nodes = h.nodes
  idToIndex : h'.idToIndex = h.idToIndex
  nodeCount : h'.nodeCount = h.nodeCount
  deletedCount : h'.deletedCount = h.deletedCount
  dimension : h'.dimension = h.dimension
  links : h'.graph.links = h.graph.links
  M : h'.M = h.M
  Mmax : h'.Mmax = h.Mmax
  Mmax0 : h'.graph.Mmax0 = h.graph.Mmax0
  maxLevel : h'.maxLevel = h.maxLevel
  entryPoint : h'.entryPoint = h.entryPoint

def marked (h : Index F P Q C S) (i : ℕ) (node : Node F P) : Index F P Q C S :=
  { h with
    nodes := h.nodes.set i (some { node with deleted := true })
    deletedCount := h.deletedCount + 1 }

/-- The quantizer is as it was, or has encoded a vector. -/
def Trained (T : Tools F D Q C S) (h h' : Index F P Q C S) : Prop :=
  h'.graph.quantizer = h.graph.quantizer ∨
    ∃ v, Encodable T h v ∧ h'.graph.quantizer = (encoded T h v).1

def Adds (h : Index F P Q C S) (a : Action F P) : Prop :=
  ∃ p visited, a = .insert p visited ∧ p.vector.length = h.dimension ∧
    h.idToIndex p.id = none ∧ h.nodes.length < maxNodes

/-- **What a call does**: nothing, one node marked, or one node added and linked. -/
inductive Change (T : Tools F D Q C S) (h : Index F P Q C S) (N : ℕ → Finset ℕ) :
    Action F P → Index F P Q C S → Option IndexError → Prop where
  | idle {a h' e} (hidle : Idle h h')
      (herr : ∀ p visited, a = .insert p visited → p.vector.length = h.dimension →
        h.nodes.length < maxNodes → (∃ i, h.idToIndex p.id = some i) ∧ e ≠ none)
      (hquant : Trained T h h') : Change T h N a h' e
  | mark {id i node} (hid : h.idToIndex id = some i) (hnode : h.nodes[i]? = some (some node))
      (hlive : node.deleted = false) : Change T h N (.delete id) (marked h i node) none
  | grow {p visited links} (hdim : p.vector.length = h.dimension)
      (hid : h.idToIndex p.id = none) (hroom : h.nodes.length < maxNodes) (hready : Ready h N)
      (hgrown : Grown h (Index.withLinks (added T h p) links) N) (hcode : Encodable T h p.vector) :
      Change T h N (.insert p visited) (Index.withLinks (added T h p) links) none

variable {e : Option IndexError}

section Change

variable {T : Tools F D Q C S} {h h' : Index F P Q C S} {N : ℕ → Finset ℕ}

theorem Idle.refl (h : Index F P Q C S) : Idle h h :=
  ⟨rfl, rfl, rfl, rfl, rfl, rfl, rfl, rfl, rfl, rfl, rfl⟩

theorem act_delete (hx : Indexed h) (id : Bytes) :
    ∃ h' e, act T h (.delete id) = .value (h', e) ∧ Change T h N (.delete id) h' e := by
  have hidle : ∀ e, Change T h N (.delete id) h e := fun e =>
    .idle (.refl h) (fun p visited heq => by cases heq) (.inl rfl)
  cases hid : h.idToIndex id with
  | none => exact ⟨h, some .pointNotFound, by simp only [act, Hnsw.delete, hid], hidle _⟩
  | some i =>
    obtain ⟨node, hnode, -⟩ := (hx id i).mp hid
    cases hdel : node.deleted with
    | true => exact ⟨h, none, by simp only [act, Hnsw.delete, hid, hnode, hdel, if_true], hidle _⟩
    | false =>
      refine ⟨marked h i node, none, ?_, .mark hid hnode hdel⟩
      simp only [act, Hnsw.delete, hid, hnode, hdel, Bool.false_eq_true, if_false]
      rfl

/-- An Insert that comes to the quantizer has a vector that it encodes. -/
def Takes (T : Tools F D Q C S) (h : Index F P Q C S) (a : Action F P) : Prop :=
  ∀ p visited, a = .insert p visited → p.vector.length = h.dimension → h.idToIndex p.id = none →
    Encodable T h p.vector

theorem takes_of_act {a : Action F P} (hact : act T h a = .value (h', e)) :
    Takes T h a := by
  intro p visited ha hdim hid
  subst ha
  by_contra hnot
  have hpanic : insert T visited h p = .panic := insert_panics hdim hid hnot
  rw [show act T h (.insert p visited) = .panic from hpanic] at hact
  cases hact

theorem act_insert (p : Point F P) (visited : ℕ → VisitedList)
    (hr : Adds h (.insert p visited) → Ready h N) (ht : Takes T h (.insert p visited)) :
    ∃ h' e, act T h (.insert p visited) = .value (h', e) ∧
      Change T h N (.insert p visited) h' e := by
  unfold act
  by_cases hdim : p.vector.length = h.dimension
  · cases hid : h.idToIndex p.id with
    | some i =>
      refine ⟨h, some .pointExists, insert_exists hdim hid,
        .idle (.refl h) (fun p' visited' heq _ _ => ?_) (.inl rfl)⟩
      cases heq
      exact ⟨⟨i, hid⟩, Option.some_ne_none _⟩
    | none =>
      have he := ht p visited rfl hdim hid
      rcases Nat.lt_or_ge h.nodes.length maxNodes with hroom | hfull
      · have hready := hr ⟨p, visited, rfl, hdim, hid, hroom⟩
        obtain ⟨links, hinsert, hgrown⟩ := insert_spec T visited hready hdim hid he hroom
        exact ⟨_, none, hinsert, .grow hdim hid hroom hready hgrown he⟩
      · refine ⟨_, _, insert_full_eq hdim hid he hfull,
          .idle ?_ (fun p' visited' _ _ hlt => ?_) (.inr ⟨_, he, rfl⟩)⟩
        · exact ⟨rfl, rfl, rfl, rfl, rfl, rfl, rfl, rfl, rfl, rfl, rfl⟩
        · exact absurd hlt (Nat.not_lt.mpr hfull)
  · refine ⟨h, some .dimensionMismatch, insert_mismatch hdim,
      .idle (.refl h) (fun p' visited' heq hdim' => ?_) (.inl rfl)⟩
    cases heq
    exact absurd hdim' hdim

theorem act_cases (hx : Indexed h) (a : Action F P) (hr : Adds h a → Ready h N) (ht : Takes T h a) :
    ∃ h' e, act T h a = .value (h', e) ∧ Change T h N a h' e := by
  cases a with
  | insert p visited => exact act_insert p visited hr ht
  | delete id => exact act_delete hx id
  | setEfSearch ef =>
    refine ⟨setEfSearch h ef, none, rfl, .idle ?_ (fun p visited heq => by cases heq) (.inl rfl)⟩
    exact ⟨rfl, rfl, rfl, rfl, rfl, rfl, rfl, rfl, rfl, rfl, rfl⟩

theorem act_change {a : Action F P} (hx : Indexed h) (hr : Adds h a → Ready h N)
    (hact : act T h a = .value (h', e)) : Change T h N a h' e := by
  obtain ⟨h₁, e₁, hact₁, hch⟩ := act_cases hx a hr (takes_of_act hact)
  rw [hact] at hact₁
  cases hact₁
  exact hch

theorem Encodes.encodable (he : T.Encodes h.graph.quantizer) (v : List F) :
    Encodable T h v ∧ T.Encodes (encoded T h v).1 := by
  unfold Encodable encoded Graph.encode
  obtain ⟨I, hI, hstep⟩ := he
  cases hq : h.graph.quantizer with
  | none => exact ⟨⟨_, rfl⟩, I, by simp [hq], hstep⟩
  | some q =>
    obtain ⟨q', code, hcode, hI'⟩ := hstep q v (hI q hq)
    simp only [hcode, Outcome.value_bind, Outcome.pure_eq]
    exact ⟨⟨_, rfl⟩, I, by simpa using hI', hstep⟩

theorem Change.encodes {a : Action F P} (hch : Change T h N a h' e)
    (he : T.Encodes h.graph.quantizer) : T.Encodes h'.graph.quantizer := by
  cases hch with
  | idle _ _ hquant =>
    rcases hquant with hsame | ⟨v, -, hafter⟩
    · rwa [hsame]
    · rw [hafter]
      exact (Encodes.encodable he v).2
  | mark => exact he
  | @grow p => exact (Encodes.encodable he p.vector).2

theorem levelAt_marked {node : Node F P} (hnode : h.nodes[i]? = some (some node)) (j : ℕ) :
    levelAt (marked h i node) j = levelAt h j := by
  unfold levelAt marked
  by_cases hij : i = j
  · subst hij
    have hlt := (List.getElem?_eq_some_iff.mp hnode).1
    simp only [getElem?_set_self hlt, hnode]
  · simp only [getElem?_set_ne hij]

theorem Idle.sameGraph (hi : Idle h h') : SameGraph h h' where
  links := hi.links
  levels i := by unfold levelAt; rw [hi.nodes]
  length := by rw [hi.nodes]
  M := hi.M
  Mmax := hi.Mmax
  Mmax0 := hi.Mmax0
  maxLevel := hi.maxLevel
  entryPoint := hi.entryPoint

theorem sameGraph_marked {node : Node F P} (hnode : h.nodes[i]? = some (some node)) :
    SameGraph h (marked h i node) where
  links := rfl
  levels := levelAt_marked hnode
  length := length_set
  M := rfl
  Mmax := rfl
  Mmax0 := rfl
  maxLevel := rfl
  entryPoint := rfl

end Change

/-! ## An index in memory -/

/-- Links lead to other nodes of the layer, each once and not too many. -/
structure Wired (h : Index F P Q C S) : Prop extends Base h where
  memory : ∀ k, h.graph.links.Holds k
  top : h.maxLevel ≠ -1 → ∃ level : ℕ, levelAt h h.entryPoint = some level ∧ h.maxLevel = level
  link : ∀ k, ∀ i < h.nodes.length, ∀ j ∈ conn h k i,
    j ≠ i ∧ ∃ level, levelAt h j = some level ∧ k ≤ level
  once : ∀ k, ∀ i < h.nodes.length, (conn h k i).Nodup
  few : ∀ k, ∀ i < h.nodes.length, (conn h k i).length ≤ room h.M k

def nodesAt (h : Index F P Q C S) (k : ℕ) : Finset ℕ :=
  (Finset.range h.nodes.length).filter fun i => (levelAt h i).any (k ≤ ·)

section Wired

variable {T : Tools F D Q C S} {h h' : Index F P Q C S}

omit [Distance D] in
theorem mem_nodesAt {k : ℕ} :
    i ∈ nodesAt h k ↔ i < h.nodes.length ∧ ∃ level, levelAt h i = some level ∧ k ≤ level := by
  simp [nodesAt, Option.any_eq_true]

variable {links : Links}

omit [Distance D] in
theorem leftover_memory (hmem : ∀ k, links.Holds k) (n k : ℕ) :
    links.leftover n k = [] := by
  cases links with
  | memory rows => rfl
  | file g => exact absurd (hmem (defaultMaxLevel + 1)) (Nat.not_succ_le_self _)

variable (hw : Wired h)
include hw

theorem Wired.ready : Ready h (nodesAt h) where
  node := hw.node
  stored := hw.stored
  Mmax := hw.Mmax
  Mmax0 := hw.Mmax0
  holds k _ := hw.memory k
  left k _ _ := by
    rw [leftover_memory hw.memory]
    exact Nat.zero_le _
  bottom := hw.bottom
  old k i hi := (mem_nodesAt.mp hi).1
  closed k i hi j hj := by
    have hlt := (mem_nodesAt.mp hi).1
    exact mem_nodesAt.mpr ⟨hw.closed k i hlt j hj, (hw.link k i hlt j hj).2⟩
  mono k i hi := by
    obtain ⟨hlt, level, hlevel, hle⟩ := mem_nodesAt.mp hi
    exact mem_nodesAt.mpr ⟨hlt, level, hlevel, by omega⟩
  entry hne := by
    obtain ⟨level, hlevel, htop⟩ := hw.top hne
    exact mem_nodesAt.mpr ⟨hw.entry hne, level, hlevel, by omega⟩

theorem Wired.congr (hg : SameGraph h h') : Wired h' where
  toBase := hw.toBase.congr hg
  memory := hg.links ▸ hw.memory
  top := by
    rw [hg.maxLevel, hg.entryPoint, hg.levels]
    exact hw.top
  link k i hi j hj := by
    rw [hg.conn] at hj
    rw [hg.levels]
    exact hw.link k i (hg.length ▸ hi) j hj
  once k i hi := by
    rw [hg.conn]
    exact hw.once k i (hg.length ▸ hi)
  few k i hi := by
    rw [hg.conn, hg.M]
    exact hw.few k i (hg.length ▸ hi)

theorem Wired.ownLinks (p : Point F P)
    (hg : Grown h (Index.withLinks (added T h p) links) (nodesAt h)) (k : ℕ) :
    (conn (Index.withLinks (added T h p) links) k h.nodes.length).Nodup ∧
      (∀ j ∈ conn (Index.withLinks (added T h p) links) k h.nodes.length, j ∈ nodesAt h k) ∧
      (conn (Index.withLinks (added T h p) links) k h.nodes.length).length ≤ room h.M k := by
  rcases Nat.lt_or_ge k (linkedLayers h) with hlt | hge
  · exact hg.own k hlt
  · have hnone : conn (Index.withLinks (added T h p) links) k h.nodes.length = [] := by
      rcases Nat.lt_or_ge h.rng.head k with habove | hle
      · have hlevel : levelAt (Index.withLinks (added T h p) links) h.nodes.length =
          some h.rng.head := (hw.ready.ground T p).levelled
        exact conn_of_get (hg.stored.above hlevel habove)
      · rw [hg.left k hle hge, leftover_memory hw.memory]
    rw [hnone]
    exact ⟨nodup_nil, nofun, Nat.zero_le _⟩

theorem Wired.grown (p : Point F P)
    (hg : Grown h (Index.withLinks (added T h p) links) (nodesAt h)) :
    Wired (Index.withLinks (added T h p) links) := by
  have hlength : (Index.withLinks (added T h p) links).nodes.length = h.nodes.length + 1 :=
    length_append
  have hnew : levelAt (Index.withLinks (added T h p) links) h.nodes.length = some h.rng.head :=
    (hw.ready.ground T p).levelled
  have hold : ∀ i < h.nodes.length,
      levelAt (Index.withLinks (added T h p) links) i = levelAt h i := fun i hi =>
    (levelAt_withLinks ..).trans (levelAt_append_old rfl hi)
  have hown := hw.ownLinks p hg
  have hbase : Base (Index.withLinks (added T h p) links) := by
    refine hw.toBase.grown T p hw.ready hg fun k _ _ j hj => ?_
    rw [leftover_memory hw.memory] at hj
    exact absurd hj not_mem_nil
  refine ⟨hbase, fun k => (hg.holds k).mpr (hw.memory k), fun _ => ?_, fun k i hi j hj => ?_,
    fun k i hi => ?_, fun k i hi => ?_⟩
  · show ∃ level : ℕ, levelAt (Index.withLinks (added T h p) links)
        (if h.maxLevel < h.rng.head then h.nodes.length else h.entryPoint) = some level ∧
      (if h.maxLevel < h.rng.head then (h.rng.head : Int) else h.maxLevel) = level
    by_cases hlt : h.maxLevel < h.rng.head
    · simp only [if_pos hlt]
      exact ⟨_, hnew, rfl⟩
    · simp only [if_neg hlt]
      have hne : h.maxLevel ≠ -1 := by omega
      rw [hold _ (hw.entry hne)]
      exact hw.top hne
  · rw [hlength] at hi
    rcases Nat.lt_or_eq_of_le (Nat.le_of_lt_succ hi) with hlt | rfl
    · have holdlink : j ∈ conn h k i → j ≠ i ∧
          ∃ level, levelAt (Index.withLinks (added T h p) links) j = some level ∧ k ≤ level := by
        intro hj
        rw [hold j (hw.closed k i hlt j hj)]
        exact hw.link k i hlt j hj
      rcases Nat.lt_or_ge k (linkedLayers h) with hk | hk
      · rcases (hg.others k i hlt).mem hj with hj | rfl
        · exact holdlink hj
        · have htop := (hw.ready.ground T p).upto
          exact ⟨hlt.ne', h.rng.head, hnew, by omega⟩
      · rw [hg.away k hk i hlt] at hj
        exact holdlink hj
    · obtain ⟨hj', level, hlevel, hle⟩ := mem_nodesAt.mp ((hown k).2.1 j hj)
      exact ⟨hj'.ne, level, (hold j hj').trans hlevel, hle⟩
  · rw [hlength] at hi
    rcases Nat.lt_or_eq_of_le (Nat.le_of_lt_succ hi) with hlt | rfl
    · exact (hg.others k i hlt).nodup (hw.once k i hlt)
    · exact (hown k).1
  · rw [hlength] at hi
    rcases Nat.lt_or_eq_of_le (Nat.le_of_lt_succ hi) with hlt | rfl
    · exact (hg.others k i hlt).length (hw.few k i hlt)
    · exact (hown k).2.2

end Wired

/-! ## Runs in memory -/

structure Counted (h : Index F P Q C S) : Prop where
  indexed : Indexed h
  nodeCount : h.nodeCount = h.nodes.length
  deletedCount : h.deletedCount = h.nodes.countP fun n => n.any Node.deleted

structure InMemory (cfg : Config) (h : Index F P Q C S) : Prop where
  wired : Wired h
  counted : Counted h
  M : h.M = cfg.M
  dimension : h.dimension = cfg.dimension

section Runs

variable {T : Tools F D Q C S} {h h' : Index F P Q C S} {N : ℕ → Finset ℕ} {cfg : Config}

theorem Counted.marked (hc : Counted h) {node : Node F P}
    (hnode : h.nodes[i]? = some (some node)) (hlive : node.deleted = false) :
    Counted (marked h i node) where
  indexed := hc.indexed.mark hnode
  nodeCount := hc.nodeCount.trans length_set.symm
  deletedCount := by
    obtain ⟨hi, hget⟩ := List.getElem?_eq_some_iff.mp hnode
    show h.deletedCount + 1 = (h.nodes.set i (some { node with deleted := true })).countP _
    rw [hc.deletedCount, countP_set hi, hget]
    simp [hlive]

theorem Counted.added (hc : Counted h) (T : Tools F D Q C S) {p : Point F P}
    (hid : h.idToIndex p.id = none) (links : Links) :
    Counted (Index.withLinks (added T h p) links) where
  indexed id i := by
    show Function.update h.idToIndex p.id (some h.nodes.length) id = some i ↔ _
    rw [← newNode_id T.mmap h p] at hid ⊢
    exact hc.indexed.append hid id i
  nodeCount := by
    show h.nodeCount + 1 = (h.nodes ++ [some (newNode T.mmap h p)]).length
    rw [hc.nodeCount, length_append, length_singleton]
  deletedCount := by
    show h.deletedCount = (h.nodes ++ [some (newNode T.mmap h p)]).countP _
    rw [hc.deletedCount, countP_append]
    simp

variable {a : Action F P}

theorem Change.counted (hch : Change T h N a h' e)
    (hc : Counted h) : Counted h' := by
  cases hch with
  | idle hidle =>
    refine ⟨?_, ?_, ?_⟩
    · unfold Indexed
      rw [hidle.idToIndex, hidle.nodes]
      exact hc.indexed
    · rw [hidle.nodeCount, hidle.nodes, hc.nodeCount]
    · rw [hidle.deletedCount, hidle.nodes, hc.deletedCount]
  | mark _ hnode hlive => exact hc.marked hnode hlive
  | grow _ hid => exact hc.added T hid _

theorem InMemory.acted (hm : InMemory cfg h)
    (hact : Graph.act T h a = .value (h', e)) : Change T h (nodesAt h) a h' e ∧ InMemory cfg h' := by
  have hch := act_change hm.counted.indexed (fun _ => hm.wired.ready) hact
  refine ⟨hch, ?_, hch.counted hm.counted, ?_, ?_⟩
  · cases hch with
    | idle hidle => exact hm.wired.congr hidle.sameGraph
    | mark _ hnode => exact hm.wired.congr (sameGraph_marked hnode)
    | grow _ _ _ _ hgrown => exact hm.wired.grown _ hgrown
  · cases hch with
    | idle hidle => rw [hidle.M, hm.M]
    | mark => exact hm.M
    | grow => exact hm.M
  · cases hch with
    | idle hidle => rw [hidle.dimension, hm.dimension]
    | mark => exact hm.dimension
    | grow => exact hm.dimension

theorem InMemory.act (hm : InMemory cfg h) (T : Tools F D Q C S) (he : T.Encodes h.graph.quantizer)
    (a : Action F P) : ∃ h' e, act T h a = .value (h', e) ∧ Change T h (nodesAt h) a h' e ∧
      InMemory cfg h' ∧ T.Encodes h'.graph.quantizer := by
  obtain ⟨h', e, hact, hch⟩ := act_cases (T := T) hm.counted.indexed a (fun _ => hm.wired.ready)
    fun p _ _ _ _ => (Encodes.encodable he p.vector).1
  exact ⟨h', e, hact, hch, (hm.acted hact).2, hch.encodes he⟩

theorem act_of_step (hstep : step T h a = some h') :
    ∃ e, Graph.act T h a = .value (h', e) := by
  unfold step at hstep
  split at hstep
  · rename_i e hact
    cases hstep
    exact ⟨e, hact⟩
  · cases hstep

theorem step_of_act (hact : Graph.act T h a = .value (h', e)) :
    step T h a = some h' := by
  unfold step
  rw [hact]

theorem inMemory_new {rng : Stream' ℕ} {quantizer : Option Q} {vectorMmap : Option S}
    (hnew : new cfg rng quantizer Links.empty vectorMmap = .ok h) : InMemory cfg h := by
  rw [new_eq hnew]
  refine ⟨⟨⟨by simp, ⟨by simp [levelAt], by simp [levelAt]⟩, rfl, rfl, le_rfl, by simp, by simp,
    by simp⟩, fun _ => trivial, by simp, by simp, by simp, by simp⟩, ⟨?_, rfl, rfl⟩, rfl, rfl⟩
  intro id i
  simp

theorem InMemory.ran (hm : InMemory cfg h) {actions : List (Action F P)}
    (hrun : run (step T) h actions = some h') : InMemory cfg h' := by
  refine run_induct (I := InMemory cfg) (fun s a s' hs hstep => ?_) hm hrun
  obtain ⟨e, hact⟩ := act_of_step hstep
  exact (hs.acted hact).2

theorem InMemory.runs (hm : InMemory cfg h) (T : Tools F D Q C S) (he : T.Encodes h.graph.quantizer)
    (actions : List (Action F P)) :
    ∃ h', run (step T) h actions = some h' ∧ InMemory cfg h' ∧ T.Encodes h'.graph.quantizer := by
  refine run_total (I := fun s => InMemory cfg s ∧ T.Encodes s.graph.quantizer) (fun s a hs _ => ?_)
    ⟨hm, he⟩ (along_of_forall (fun _ _ => trivial) h actions)
  obtain ⟨s', e, hact, -, hs'⟩ := hs.1.act T hs.2 a
  exact ⟨s', step_of_act hact, hs'⟩

end Runs

structure WellLinked (M : ℕ) (h : Index F P Q C S) : Prop where
  links : ∃ rows, h.graph.links = .memory rows ∧ ∀ a l ids, (rows a)[l]? = some ids →
    (∃ level, levelAt h a = some level ∧ l ≤ level) ∧ ids.Nodup ∧
    ids.length ≤ (if l = 0 then 2 * M else M) ∧
    ∀ b ∈ ids, b ≠ a ∧ ∃ level, levelAt h b = some level ∧ l ≤ level
  entry : h.nodes ≠ [] → ∃ level : ℕ, levelAt h h.entryPoint = some level ∧ h.maxLevel = level

theorem InMemory.wellLinked {cfg : Config} {h : Index F P Q C S} (hm : InMemory cfg h) :
    WellLinked cfg.M h := by
  have hw := hm.wired
  refine ⟨?_, fun hne => hw.top (hw.begun.mp hne)⟩
  cases hl : h.graph.links with
  | file g => exact absurd (hl ▸ hw.memory (defaultMaxLevel + 1)) (Nat.not_succ_le_self _)
  | memory rows =>
    have hstored := hw.stored
    unfold Stored at hstored
    rw [hl] at hstored
    refine ⟨rows, rfl, fun a l ids hids => ?_⟩
    obtain ⟨hlt, -⟩ := List.getElem?_eq_some_iff.mp hids
    -- only a node has a row, and the row has the node's layers
    cases hlevel : levelAt h a with
    | none =>
      rw [hstored.2 a hlevel] at hlt
      exact absurd hlt (Nat.not_lt_zero _)
    | some level =>
      rw [hstored.1 a level hlevel] at hlt
      have hle : l ≤ level := Nat.le_of_lt_succ hlt
      have hconn : conn h l a = ids := by
        refine conn_of_get ?_
        rw [getConnections_memory hl hlevel, if_neg (Nat.not_lt.mpr hle), hids]
      have ha : a < h.nodes.length := by
        obtain ⟨node, hnode, -⟩ := levelAt_some.mp hlevel
        exact (List.getElem?_eq_some_iff.mp hnode).1
      rw [← hconn, ← hm.M]
      exact ⟨⟨level, rfl, hle⟩, hw.once l a ha, hw.few l a ha, hw.link l a ha⟩

/-- **After every run of calls on a new index in memory** the links lead from nodes of the layer to other nodes
    of it, each once, at most M of them, or 2M at layer 0, and the entry point is at the maximum level. If the
    quantizer encodes what it is given, no call panics. -/
theorem links_well_formed (T : Tools F D Q C S) {cfg : Config} {rng : Stream' ℕ}
    {quantizer : Option Q} {vectorMmap : Option S} {h₀ : Index F P Q C S}
    (hnew : new cfg rng quantizer Links.empty vectorMmap = .ok h₀)
    (actions : List (Action F P)) :
    (∀ h, run (step T) h₀ actions = some h → WellLinked cfg.M h) ∧
      (T.Encodes quantizer → ∃ h, run (step T) h₀ actions = some h ∧ WellLinked cfg.M h) := by
  have hm₀ := inMemory_new hnew
  refine ⟨fun h hrun => (hm₀.ran hrun).wellLinked, fun he => ?_⟩
  obtain ⟨h, hrun, hm, -⟩ := hm₀.runs T (by rwa [new_eq hnew]) actions
  exact ⟨h, hrun, hm.wellLinked⟩

/-- Three points on a line, one of them deleted. -/
theorem links_well_formed_line : ∃ h₀ h : Index ℕ ℕ Unit Unit Unit,
    new ⟨2, 10, 10, 1⟩ (Stream'.const 1) none Links.empty none = .ok h₀ ∧
      run (step line) h₀ [.put 1 5, .put 2 7, .delete [1], .put 3 6] = some h ∧ WellLinked 2 h := by
  obtain ⟨h₀, hnew⟩ : ∃ h₀ : Index ℕ ℕ Unit Unit Unit,
    new ⟨2, 10, 10, 1⟩ (Stream'.const 1) none Links.empty none = .ok h₀ := ⟨_, rfl⟩
  exact ⟨h₀, ((links_well_formed line hnew _).2 (encodes_none _)).imp fun h hwell => ⟨hnew, hwell⟩⟩

end LimyeDB.Graph
