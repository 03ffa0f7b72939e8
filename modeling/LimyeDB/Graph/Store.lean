/-
  THE POINTS BEHIND AN INSERT: linking changes no point, so their store is the same one for every graph, an
  old file's included.
-/
import LimyeDB.Graph.Wiring

namespace LimyeDB.Graph

open Go Hnsw Lib.WriteOnce Outcome

variable {F P D Q C S : Type} [Distance D]

/-! ## Linking -/

def Relinks (h h' : Index F P Q C S) : Prop := ∃ links, h' = Index.withLinks h links

section Links

variable {T : Tools F D Q C S} {h h' h'' : Index F P Q C S}

theorem Relinks.refl (h : Index F P Q C S) : Relinks h h := ⟨h.graph.links, rfl⟩

theorem Relinks.trans (hab : Relinks h h') (hbc : Relinks h' h'') : Relinks h h'' := by
  obtain ⟨links, rfl⟩ := hab
  obtain ⟨links', rfl⟩ := hbc
  exact ⟨links', rfl⟩

theorem setConnections_links {nodeID layer : ℕ} {ids : List ℕ}
    (hset : setConnections h nodeID layer ids = .value h') : Relinks h h' := by
  unfold setConnections at hset
  split at hset
  · obtain ⟨g, -, hret⟩ := bind_eq_value.mp hset
    cases hret
    exact ⟨_, rfl⟩
  · obtain ⟨node, -, hret⟩ := bind_eq_value.mp hset
    split at hret
    · cases hret
      exact .refl h
    · split at hret
      · cases hret
      · cases hret
        exact ⟨_, rfl⟩

theorem addConnection_links {fromID toID layer maxConn : ℕ}
    (hadd : addConnection T h fromID toID layer maxConn = .value h') : Relinks h h' := by
  obtain ⟨conns, -, hadd⟩ := bind_eq_value.mp hadd
  split at hadd
  · cases hadd
    exact .refl h
  · split at hadd
    · exact setConnections_links hadd
    · obtain ⟨fromVec, -, hadd⟩ := bind_eq_value.mp hadd
      obtain ⟨candidates, -, hadd⟩ := bind_eq_value.mp hadd
      obtain ⟨selected, -, hadd⟩ := bind_eq_value.mp hadd
      exact setConnections_links hadd

theorem addConnections_links {nodeID layer maxConn : ℕ} {selected : List (Candidate D)}
    (hadd : addConnections T nodeID layer maxConn h selected = .value h') : Relinks h h' := by
  induction selected generalizing h with
  | nil =>
    cases hadd
    exact .refl _
  | cons c selected ih =>
    obtain ⟨h₁, hfirst, hrest⟩ := bind_eq_value.mp hadd
    exact (addConnection_links hfirst).trans (ih hrest)

theorem selectNeighbors_links {nodeID layer : ℕ} {candidates : List (Candidate D)}
    (hsel : selectNeighbors T h nodeID candidates layer = .value h') : Relinks h h' := by
  obtain ⟨v, -, hsel⟩ := bind_eq_value.mp hsel
  obtain ⟨selected, -, hsel⟩ := bind_eq_value.mp hsel
  obtain ⟨h₁, hset, hadd⟩ := bind_eq_value.mp hsel
  exact (setConnections_links hset).trans (addConnections_links hadd)

theorem connectLayers_links {visited : ℕ → VisitedList} {query : List F} {nodeID l currNode : ℕ}
    (hconn : connectLayers T visited query nodeID l currNode h = .value h') : Relinks h h' := by
  induction l generalizing h currNode with
  | zero =>
    unfold connectLayers at hconn
    obtain ⟨neighbors, -, hconn⟩ := bind_eq_value.mp hconn
    obtain ⟨h₁, hsel, hconn⟩ := bind_eq_value.mp hconn
    cases neighbors with
    | nil => cases hconn
    | cons c cs =>
      cases hconn
      exact selectNeighbors_links hsel
  | succ l ih =>
    unfold connectLayers at hconn
    obtain ⟨neighbors, -, hconn⟩ := bind_eq_value.mp hconn
    obtain ⟨h₁, hsel, hconn⟩ := bind_eq_value.mp hconn
    cases neighbors with
    | nil => cases hconn
    | cons c cs => exact (selectNeighbors_links hsel).trans (ih hconn)

theorem connect_links {visited : ℕ → VisitedList} {v : List F} {nodeID entryPoint level : ℕ}
    {maxLevel : Int} {graph : GraphState Q C}
    (hconn : connect T visited h v nodeID entryPoint maxLevel level = .value graph) :
    Relinks h { h with graph := graph } := by
  obtain ⟨currNode, -, hconn⟩ := bind_eq_value.mp hconn
  obtain ⟨h₁, hlayers, hret⟩ := bind_eq_value.mp hconn
  obtain ⟨links, rfl⟩ := connectLayers_links hlayers
  cases hret
  exact ⟨links, rfl⟩

end Links

/-! ## Insert -/

/-- **What an insert does that returns**: the errors in the order of the checks, or a new node. -/
inductive Inserted (T : Tools F D Q C S) (h : Index F P Q C S) (p : Point F P) :
    Index F P Q C S → Option IndexError → Prop where
  | mismatch (hdim : p.vector.length ≠ h.dimension) : Inserted T h p h (some .dimensionMismatch)
  | known {i} (hdim : p.vector.length = h.dimension) (hid : h.idToIndex p.id = some i) :
      Inserted T h p h (some .pointExists)
  | full (hdim : p.vector.length = h.dimension) (hid : h.idToIndex p.id = none)
      (hfull : maxNodes ≤ h.nodes.length) : Inserted T h p (refused T h p) (some .tooManyNodes)
  | fresh {h'} (hdim : p.vector.length = h.dimension) (hid : h.idToIndex p.id = none)
      (hroom : h.nodes.length < maxNodes) (hlinks : Relinks (added T h p) h') :
      Inserted T h p h' none

section Insert

variable {T : Tools F D Q C S} {h h' : Index F P Q C S} {p : Point F P} {e : Option IndexError}

theorem insert_cases {visited : ℕ → VisitedList} (hins : insert T visited h p = .value (h', e)) :
    Inserted T h p h' e := by
  by_cases hdim : p.vector.length = h.dimension
  · cases hid : h.idToIndex p.id with
    | some i =>
      unfold insert at hins
      rw [insert_exists hdim hid] at hins
      cases hins
      exact .known hdim hid
    | none =>
      have he : Encodable T h p.vector := by
        by_contra hnot
        rw [insert_panics hdim hid hnot] at hins
        cases hins
      rcases Nat.lt_or_ge h.nodes.length maxNodes with hroom | hfull
      · rw [insert_fresh_eq hdim hid he hroom] at hins
        split at hins
        · cases hins
          exact .fresh hdim hid hroom (.refl _)
        · obtain ⟨graph, hconn, hret⟩ := bind_eq_value.mp hins
          cases hret
          exact .fresh hdim hid hroom (connect_links hconn)
      · rw [insert_full_eq hdim hid he hfull] at hins
        cases hins
        exact .full hdim hid hfull
  · unfold insert at hins
    rw [insert_mismatch hdim] at hins
    cases hins
    exact .mismatch hdim

theorem Inserted.idle {err : IndexError} (hi : Inserted T h p h' (some err)) : Idle h h' := by
  cases hi with
  | mismatch => exact .refl h
  | known => exact .refl h
  | full => exact ⟨rfl, rfl, rfl, rfl, rfl, rfl, rfl, rfl, rfl, rfl, rfl⟩

omit [Distance D] in
theorem Idle.indexed (hidle : Idle h h') (hx : Indexed h) : Indexed h' := by
  intro id i
  rw [hidle.idToIndex, hidle.nodes]
  exact hx id i

theorem Inserted.store (hi : Inserted T h p h' none) :
    p.vector.length = h.dimension ∧ h.idToIndex p.id = none ∧ h.nodes.length < maxNodes ∧
      h'.nodes = h.nodes ++ [some (newNode T.mmap h p)] ∧
      h'.idToIndex = Function.update h.idToIndex p.id (some h.nodes.length) ∧
      h'.vectorMmap = Hnsw.stored T.mmap h p.vector ∧ h'.dimension = h.dimension := by
  cases hi with
  | fresh hdim hid hroom hlinks =>
    obtain ⟨links, rfl⟩ := hlinks
    exact ⟨hdim, hid, hroom, rfl, rfl, rfl, rfl⟩

variable (hi : Inserted T h p h' e)
include hi

theorem Inserted.dimension : h'.dimension = h.dimension := by
  cases e with
  | some err => exact hi.idle.dimension
  | none => exact hi.store.2.2.2.2.2.2

theorem Inserted.indexed (hx : Indexed h) : Indexed h' := by
  cases e with
  | some err => exact hi.idle.indexed hx
  | none =>
    obtain ⟨-, hid, -, hnodes, hids, -, -⟩ := hi.store
    intro id i
    rw [hids, hnodes, ← newNode_id T.mmap h p]
    exact Indexed.append hx (by rwa [newNode_id]) id i

theorem Inserted.ends : Ends T.mmap h p h' e := by
  cases hi with
  | mismatch hdim => exact .mismatch hdim
  | known hdim hid => exact .known hdim hid
  | full hdim hid hfull => exact .full hid hfull _
  | fresh hdim hid hroom hlinks =>
    obtain ⟨links, rfl⟩ := hlinks
    exact .fresh hdim hid hroom _

theorem Inserted.table (hinv : Inv T.mmap h) (hdim : p.vector.length = h.dimension) : Inv T.mmap h' ∧
      view T.mmap h' = (view T.mmap h).insert maxNodes p.id (p.vector, p.payload) := by
  obtain ⟨hinv', -, hview⟩ := hinv.insert_view hi.ends (fun text he => by subst he; cases hi) hdim
  exact ⟨hinv', hview⟩

end Insert

/-! ## Delete -/

section Delete

variable {h h' : Index F P Q C S} {id : Bytes}

omit [Distance D]

theorem marked_of_delete (hdel : Hnsw.delete h id = .value h') :
    ∃ i node, h.idToIndex id = some i ∧ h.nodes[i]? = some (some node) ∧
      (node.deleted = true ∧ h' = h ∨ node.deleted = false ∧ h' = marked h i node) := by
  unfold Hnsw.delete at hdel
  split at hdel
  · cases hdel
  · rename_i i hid
    split at hdel
    · rename_i node hnode
      refine ⟨i, node, hid, hnode, ?_⟩
      split at hdel
      · rename_i hmark
        cases hdel
        exact .inl ⟨hmark, rfl⟩
      · rename_i hmark
        cases hdel
        exact .inr ⟨Bool.eq_false_iff.mpr hmark, rfl⟩
    · cases hdel

theorem indexed_marked (hx : Indexed h) {i : ℕ} {node : Node F P}
    (hnode : h.nodes[i]? = some (some node)) : Indexed (marked h i node) :=
  fun id j => Indexed.mark hx hnode id j

theorem indexed_delete (hx : Indexed h) (hdel : Hnsw.delete h id = .value h') : Indexed h' := by
  obtain ⟨i, node, -, hnode, ⟨-, rfl⟩ | ⟨-, rfl⟩⟩ := marked_of_delete hdel
  · exact hx
  · exact indexed_marked hx hnode

end Delete

end LimyeDB.Graph
