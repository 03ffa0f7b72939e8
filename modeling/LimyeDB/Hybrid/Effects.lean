/-
  WHAT THE CALLS DO TO A SINGLE-VECTOR COLLECTION, under the lock: the cases of each call, whatever the graph
  of the index is.
-/
import LimyeDB.Hybrid.Calls

namespace LimyeDB.Hybrid

open Go Hnsw Outcome Function Option List
open LimyeDB.Graph (Index Tools Distance Inserted Idle)
open LimyeDB.Collection (Error BatchResult)

variable {F P D Q C S : Type} [Distance D]

/-! ## Under the lock -/

def addSparse (sparseIdx : InvertedIndex F) (docID : ℕ) :
    Option (SparseVector F) → Outcome Empty (InvertedIndex F)
  | none => .value sparseIdx
  | some vec => sparseIdx.add docID vec

section Effects

variable [Scalar F] (K : Kit F P D Q C S) (c : Collection F P D Q C S) (h : Index F P Q C S)
  (p : Point F P)

def storedPoint : Point F P := { p with vector := asStored c.config.metric p.vector }

/-- Without a dense vector only payload and sparse vector are taken; with one, it fails and changes no point,
    or there is a new node. -/
inductive InsertEffect : Collection F P D Q C S → Option (Error F) → Prop where
  | sparseOnly {sparseIdx} (hvec : p.vector = [])
      (hadd : addSparse c.sparseIdx ((h.idToIndex p.id).getD 0) p.sparse = .value sparseIdx) :
      InsertEffect { c with
        payloads := indexPoint K c.payloads ((h.idToIndex p.id).getD 0) p.payload
        sparseIdx := sparseIdx } none
  | failed {h' err} (hvec : p.vector ≠ []) (hidle : Idle h h')
      (hknown : h.idToIndex p.id ≠ none → h' = h) :
      InsertEffect { c with index := some h' } (some err)
  | stored {h' sparseIdx} (hvec : p.vector ≠ []) (hlen : p.vector.length = c.config.dimension)
      (hins : Inserted (K.tools []) h (storedPoint c p) h' none)
      (hadd : addSparse c.sparseIdx h.nodes.length p.sparse = .value sparseIdx) :
      InsertEffect { c with
        index := some h'
        payloads := indexPoint K c.payloads h.nodes.length p.payload
        sparseIdx := sparseIdx } none

/-- A known id is deleted with its postings, and the insert fails; a new one is inserted without its sparse
    vector, or not. -/
inductive UpsertEffect : Collection F P D Q C S → Option (Error F) → Prop where
  | known {i h' err} (hid : h.idToIndex p.id = some i) (hdel : Hnsw.delete h p.id = .value h') :
      UpsertEffect { c with index := some h', sparseIdx := c.sparseIdx.remove i } (some err)
  | failed {h' err} (hid : h.idToIndex p.id = none) (hidle : Idle h h') :
      UpsertEffect { c with index := some h' } (some err)
  | stored {h'} (hins : Inserted (K.tools []) h (storedPoint c p) h' none) :
      UpsertEffect { c with
        index := some h'
        payloads := indexPoint K c.payloads h.nodes.length p.payload
        dispatcher := c.dispatcher.publish ⟨c.config.name, .insert, p.id⟩ } none

omit [Distance D] [Scalar F] in
/-- What `deleteInternal` does: a known id is deleted with its postings, and an event is
    published, also if it was deleted before. -/
inductive DeleteEffect (id : Bytes) : Collection F P D Q C S → Option (Error F) → Prop where
  | unknown {err} (hid : h.idToIndex id = none) : DeleteEffect id c (some err)
  | known {i h'} (hid : h.idToIndex id = some i) (hdel : Hnsw.delete h id = .value h') :
      DeleteEffect id { c with
        index := some h'
        sparseIdx := c.sparseIdx.remove i
        dispatcher := c.dispatcher.publish ⟨c.config.name, .delete, id⟩ } none

variable {K c h p}

variable {c' : Collection F P D Q C S} {e : Option (Error F)} {id : Bytes}

omit [Scalar F] in
theorem insertRest_addSparse (hindex : c.index = some h) (hrest : insertRest K c p = .value (c', e)) :
    e = none ∧
      ∃ sparseIdx, addSparse c.sparseIdx ((h.idToIndex p.id).getD 0) p.sparse = .value sparseIdx ∧
        c' = { c with
          payloads := indexPoint K c.payloads ((h.idToIndex p.id).getD 0) p.payload
          sparseIdx := sparseIdx } := by
  obtain ⟨he, h₀, hindex₀, sparseIdx, hadd, hc'⟩ := insertRest_cases hrest
  cases hindex.symm.trans hindex₀
  refine ⟨he, sparseIdx, ?_, hc'⟩
  cases hs : p.sparse with
  | none =>
    rw [hs] at hadd
    exact congrArg _ hadd.symm
  | some vec =>
    rw [hs] at hadd
    exact hadd

theorem insertInternal_effect (hsingle : c.config.hasNamedVectors = false)
    (hindex : c.index = some h) (hins : insertInternal K c p = .value (c', e)) :
    InsertEffect K c h p c' e := by
  rcases andThen_value hins with ⟨err, hdef, rfl⟩ | ⟨c₁, hdef, hthen⟩
  · rcases insertDefault_cases hdef with ⟨rfl, ⟨-, hnil⟩ | ⟨hvec, -, -⟩⟩ |
      ⟨h₀, h₁, ierr, hindex₀, hvec, -, hinto, rfl, herr⟩
    · cases hnil
    · have hfail : InsertEffect K c' h p { c' with index := some h } (some err) :=
        .failed hvec (.refl h) fun _ => rfl
      rwa [← hindex] at hfail
    · cases hindex.symm.trans hindex₀
      cases ierr with
      | none => cases herr
      | some ierr =>
        have hcases := Graph.insert_cases hinto
        refine .failed hvec hcases.idle fun hknown => ?_
        cases hcases with
        | mismatch => rfl
        | known => rfl
        | full _ hid => exact absurd hid hknown
  · rcases insertDefault_cases hdef with ⟨rfl, ⟨hnone | hvec, -⟩ | ⟨-, -, hnil⟩⟩ |
      ⟨h₀, h₁, ierr, hindex₀, hvec, hlen, hinto, rfl, herr⟩
    · cases hnone.symm.trans hindex
    · rw [hsingle] at hthen
      obtain ⟨rfl, sparseIdx, hadd, rfl⟩ := insertRest_addSparse hindex hthen
      exact .sparseOnly hvec hadd
    · cases hnil
    · cases hindex.symm.trans hindex₀
      cases ierr with
      | some ierr => cases herr
      | none =>
        have hcases := Graph.insert_cases hinto
        simp only [hsingle, Bool.false_eq_true, if_false, andThen] at hthen
        obtain ⟨rfl, sparseIdx, hadd, rfl⟩ := insertRest_addSparse rfl hthen
        have hnode : (h₁.idToIndex p.id).getD 0 = h.nodes.length := by
          rw [hcases.store.2.2.2.2.1, update_self]
          rfl
        rw [hnode] at hadd ⊢
        exact .stored hvec hlen hcases hadd

omit [Distance D] [Scalar F] in
theorem idToIndex_delete {h' : Index F P Q C S} (hdel : Hnsw.delete h id = .value h') :
    h'.idToIndex = h.idToIndex := by
  obtain ⟨i, node, -, -, ⟨-, rfl⟩ | ⟨-, rfl⟩⟩ := Graph.marked_of_delete hdel
  · rfl
  · rfl

omit [Distance D] [Scalar F] in
theorem delete_error {err : IndexError} (hdel : Hnsw.delete h id = .error err) :
    h.idToIndex id = none := by
  unfold Hnsw.delete at hdel
  split at hdel
  · assumption
  · split at hdel
    · split at hdel
      · cases hdel
      · cases hdel
    · cases hdel

theorem upsertInternal_effect (hindex : c.index = some h)
    (hups : upsertInternal K c p = .value (c', e)) : UpsertEffect K c h p c' e := by
  obtain ⟨h₀, h₁, h₂, err, hindex₀, hquiet, hinto, rfl, rfl⟩ := upsertInternal_cases hups
  cases hindex.symm.trans hindex₀
  have hins := Graph.insert_cases hinto
  unfold deleteQuietly at hquiet
  split at hquiet
  · rename_i h₁ hdel
    cases hquiet
    obtain ⟨i, node, hid, -, -⟩ := Graph.marked_of_delete hdel
    have hid₁ : h₁.idToIndex p.id = some i := (idToIndex_delete hdel).symm ▸ hid
    have hsparse : removeSparse h₁ c.sparseIdx p.id = c.sparseIdx.remove i := by
      unfold removeSparse
      rw [hid₁]
    rw [hsparse]
    cases hins with
    | mismatch => exact .known hid hdel
    | known => exact .known hid hdel
    | full _ hnew => cases hid₁.symm.trans hnew
    | fresh _ hnew => cases hid₁.symm.trans hnew
  · rename_i err' hdel
    cases hquiet
    have hid := delete_error hdel
    have hsparse : removeSparse h c.sparseIdx p.id = c.sparseIdx := by
      unfold removeSparse
      rw [hid]
    rw [hsparse]
    cases err with
    | some err => exact .failed hid hins.idle
    | none =>
      have hnode : (h₂.idToIndex p.id).getD 0 = h.nodes.length := by
        rw [hins.store.2.2.2.2.1, update_self]
        rfl
      rw [hnode]
      exact .stored hins
  · cases hquiet

omit [Distance D] [Scalar F] in
theorem deleteInternal_effect (hindex : c.index = some h)
    (hdel : deleteInternal c id = .value (c', e)) : DeleteEffect c h id c' e := by
  obtain ⟨h₀, hindex₀, ⟨err, hdel, rfl, rfl⟩ | ⟨h₁, hdel, rfl, rfl⟩⟩ := deleteInternal_cases hdel
  · cases hindex.symm.trans hindex₀
    exact .unknown (delete_error hdel)
  · cases hindex.symm.trans hindex₀
    obtain ⟨i, node, hid, -, -⟩ := Graph.marked_of_delete hdel
    have hsparse : removeSparse h₁ c.sparseIdx id = c.sparseIdx.remove i := by
      unfold removeSparse
      rw [idToIndex_delete hdel, hid]
    rw [hsparse]
    exact .known hid hdel

/-- The sparse vector has a value for each index, so that no read of `Values` is out of range. -/
def Readable (p : Point F P) : Prop := ∀ vec ∈ p.sparse, vec.indices.length ≤ vec.values.length

instance (p : Point F P) : Decidable (Readable p) :=
  inferInstanceAs (Decidable (∀ vec ∈ p.sparse, vec.indices.length ≤ vec.values.length))

omit [Scalar F] in
theorem insertRest_returns (hindex : c.index = some h) (hread : Readable p) :
    ∃ c', insertRest K c p = .value (c', none) := by
  unfold insertRest
  rw [hindex]
  cases hs : p.sparse with
  | none => exact ⟨_, rfl⟩
  | some vec =>
    simp only [add_eq, if_pos (hread vec hs)]
    exact ⟨_, rfl⟩

variable (hsingle : c.config.hasNamedVectors = false) (hindex : c.index = some h) (hread : Readable p)
include hsingle hindex hread

theorem insertInternal_aside
    (haside : p.vector = [] ∨ p.vector.length ≠ c.config.dimension) :
    ∃ c' e, insertInternal K c p = .value (c', e) ∧ c'.config = c.config ∧ c'.index = c.index := by
  unfold insertInternal insertDefault
  rw [hindex]
  by_cases hvec : p.vector = []
  · obtain ⟨c', hrest⟩ := insertRest_returns (K := K) hindex hread
    obtain ⟨-, h₀, -, sparseIdx, -, hc'⟩ := insertRest_cases hrest
    refine ⟨c', none, ?_, by rw [hc'], by rw [hc', hindex]⟩
    simp only [hvec, if_true, andThen, hsingle, Bool.false_eq_true, if_false, hrest]
  · have hdim := haside.resolve_left hvec
    simp only [hvec, if_false, hdim, ne_eq, not_false_eq_true, if_true, andThen]
    exact ⟨c, _, rfl, rfl, hindex⟩

theorem insertInternal_index {h' : Index F P Q C S} {err : Option IndexError} (hvec : p.vector ≠ [])
    (hdim : p.vector.length = c.config.dimension)
    (hinto : insertInto K [] h (storedPoint c p) = .value (h', err)) :
    ∃ c' e, insertInternal K c p = .value (c', e) ∧ c'.index = some h' ∧ c'.config = c.config ∧
      c'.wal = c.wal := by
  unfold storedPoint at hinto
  unfold insertInternal insertDefault
  rw [hindex]
  simp only [hvec, if_false, hdim, ne_eq, not_true, hinto, value_bind, pure_eq]
  cases err with
  | some err => exact ⟨_, _, rfl, rfl, rfl, rfl⟩
  | none =>
    obtain ⟨c', hrest⟩ := insertRest_returns (K := K) (c := { c with index := some h' })
      (p := p) rfl hread
    refine ⟨c', none, ?_, ?_⟩
    · simp only [map_none, andThen, hsingle, Bool.false_eq_true, if_false, hrest]
    · obtain ⟨-, h₀, -, sparseIdx, -, rfl⟩ := insertRest_cases hrest
      exact ⟨rfl, rfl, rfl⟩

theorem insertInternal_returns
    (hinto : ∃ h' e, insertInto K [] h (storedPoint c p) = .value (h', e)) :
    ∃ c' e, insertInternal K c p = .value (c', e) := by
  by_cases haside : p.vector = [] ∨ p.vector.length ≠ c.config.dimension
  · obtain ⟨c', e, hins, -⟩ := insertInternal_aside hsingle hindex hread haside
    exact ⟨c', e, hins⟩
  · obtain ⟨hvec, hdim⟩ := not_or.mp haside
    obtain ⟨h', err, hinto⟩ := hinto
    obtain ⟨c', e, hins, -⟩ := insertInternal_index hsingle hindex hread hvec (not_not.mp hdim) hinto
    exact ⟨c', e, hins⟩

end Effects

/-! ## The points that a call stores -/

section Stored

variable [Scalar F] (K : Kit F P D Q C S)

/-- The points of a batch that are counted as succeeded, in the order in which they are applied. -/
def kept : List (Point F P) → Collection F P D Q C S → List (Point F P)
  | [], _ => []
  | p :: ps, c =>
    match insertInternal K c p with
    | .value (c, none) => p :: kept ps c
    | .value (c, some _) => kept ps c
    | _ => []

/-- The batch as it gets to step 3, with the log behind step 2; an error ends it before. -/
def batchReady (c : Collection F P D Q C S) (ps : List (Point F P)) :
    Option (Collection F P D Q C S × List (Point F P)) :=
  let checked := checkBatch c.config ps ⟨ps.length, 0, 0, []⟩
  let logged := batchLog K c checked.1 checked.2
  match logged.2.2 with
  | some _ => none
  | none => some ({ c with wal := logged.1 }, checked.1)

def stores (c : Collection F P D Q C S) : Call F P → List (Point F P)
  | .insert p =>
    match insert K c p with
    | .value (_, none) => [p]
    | _ => []
  | .insertBatch ps =>
    match batchReady K c ps with
    | some (c, valid) => kept K valid c
    | none => []
  | .insertV2 names p =>
    match insertV2 K c names p with
    | .value (_, none) => [p]
    | _ => []
  | .upsert p =>
    match upsert K c p with
    | .value (_, none) => [p]
    | _ => []
  | .delete _ => []
  | .search .. => []
  | .setWAL _ => []
  | .setEfSearch _ => []

variable {e : Option (Error F)}

variable {K} in
theorem stores_insert {c c' : Collection F P D Q C S} {p : Point F P}
    (h : insert K c p = .value (c', e)) :
    stores K c (.insert p) = if e = none then [p] else [] := by
  cases e with
  | none => simp only [stores, h, if_true]
  | some err => simp only [stores, h, reduceCtorEq, if_false]

variable {K} in
theorem stores_upsert {c c' : Collection F P D Q C S} {p : Point F P}
    (h : upsert K c p = .value (c', e)) :
    stores K c (.upsert p) = if e = none then [p] else [] := by
  cases e with
  | none => simp only [stores, h, if_true]
  | some err => simp only [stores, h, reduceCtorEq, if_false]

def stepStored (s : Collection F P D Q C S × List (Point F P)) (x : Call F P) :
    Option (Collection F P D Q C S × List (Point F P)) :=
  (step K s.1 x).map fun c => (c, s.2 ++ stores K s.1 x)

variable {K} {c c' : Collection F P D Q C S}

/-- **The rule for step 3**: what each insert keeps, with the point if it succeeds, the batch
    keeps with the points that succeed. -/
theorem applyBatch_induct {I : Collection F P D Q C S → List (Point F P) → Prop}
    {ps : List (Point F P)}
    (hstep : ∀ c c' p e stored, p ∈ ps → I c stored → insertInternal K c p = .value (c', e) →
      I c' (if e = none then stored ++ [p] else stored))
    (stored : List (Point F P)) {r r' : BatchResult F} (hI : I c stored)
    (happ : applyBatch K ps c r = .value (c', r')) : I c' (stored ++ kept K ps c) := by
  induction ps generalizing c stored r with
  | nil =>
    cases happ
    rwa [kept, append_nil]
  | cons p ps ih =>
    obtain ⟨⟨c₁, err⟩, hins, hrest⟩ := bind_eq_value.mp happ
    have hfirst := hstep c c₁ p err stored mem_cons_self hI hins
    have htail := fun c c' q e stored hq => hstep c c' q e stored (mem_cons_of_mem _ hq)
    unfold kept
    rw [hins]
    cases err with
    | some e => exact ih htail _ hfirst hrest
    | none =>
      rw [append_cons]
      exact ih htail _ hfirst hrest

theorem insertBatch_cases {ps : List (Point F P)} {r : BatchResult F}
    (h : insertBatch K c ps = .value (c', r, e)) :
    (∃ w, c' = { c with wal := w }) ∧ stores K c (.insertBatch ps) = [] ∨
    ∃ w c₁ r₀, applyBatch K (ps.filter (accepted c.config)) { c with wal := w } r₀ =
        .value (c₁, r) ∧ c' = invalidate c₁ ∧
      stores K c (.insertBatch ps) =
        kept K (ps.filter (accepted c.config)) { c with wal := w } := by
  by_cases hne : ps = []
  · subst hne
    cases h
    refine .inl ⟨⟨c.wal, rfl⟩, ?_⟩
    cases hw : c.wal with
    | none => simp [stores, batchReady, batchLog, checkBatch, kept, hw]
    | some w => simp [stores, batchReady, batchLog, checkBatch, kept, hw]
  · rw [insertBatch_eq ps hne] at h
    unfold stores batchReady
    simp only [checkBatch_fst] at h ⊢
    cases hlog : (batchLog K c (ps.filter (accepted c.config))
      (checkBatch c.config ps ⟨ps.length, 0, 0, []⟩).2).2.2 with
    | some e =>
      simp only [hlog] at h ⊢
      cases h
      exact .inl ⟨⟨_, rfl⟩, trivial⟩
    | none =>
      simp only [hlog] at h ⊢
      obtain ⟨⟨c₁, r₁⟩, happ, hret⟩ := bind_eq_value.mp h
      cases hret
      exact .inr ⟨_, c₁, _, happ, rfl, rfl⟩

end Stored

/-! ## Where an id stands -/

inductive Presence where
  | absent
  | live
  | deleted
  deriving DecidableEq, Repr

/-- A deleted id keeps its node. -/
def presenceIn (h : Index F P Q C S) (id : Bytes) : Presence :=
  match (h.idToIndex id).bind fun i => h.nodes[i]? with
  | some (some node) => if node.deleted then .deleted else .live
  | _ => .absent

def presence (c : Collection F P D Q C S) (id : Bytes) : Presence :=
  match c.index with
  | none => .absent
  | some h => presenceIn h id

variable {h h' : Index F P Q C S} {id : Bytes}

section

omit [Distance D]

theorem presence_eq {c : Collection F P D Q C S} (hindex : c.index = some h) (id : Bytes) :
    presence c id = presenceIn h id := by
  rw [presence, hindex]

theorem presenceIn_live (hlive : presenceIn h id = .live) :
    ∃ i, h.idToIndex id = some i ∧ Graph.Live h i := by
  unfold presenceIn at hlive
  split at hlive
  · rename_i node hnode
    obtain ⟨i, hid, hnode⟩ := bind_eq_some_iff.mp hnode
    split at hlive
    · cases hlive
    · rename_i hdel
      exact ⟨i, hid, node, hnode, Bool.eq_false_iff.mpr hdel⟩
  · cases hlive

theorem presenceIn_absent (hx : Indexed h) : presenceIn h id = .absent ↔ h.idToIndex id = none := by
  unfold presenceIn
  cases hid : h.idToIndex id with
  | none => simp
  | some i =>
    obtain ⟨node, hnode, -⟩ := (hx id i).mp hid
    rw [bind_some, hnode]
    simp only [reduceCtorEq, iff_false]
    split <;> simp

theorem presenceIn_idle (hidle : Idle h h') (id : Bytes) : presenceIn h' id = presenceIn h id := by
  rw [presenceIn, presenceIn, hidle.idToIndex, hidle.nodes]

end

theorem presenceIn_inserted {T : Tools F D Q C S} {p : Point F P} (hins : Inserted T h p h' none) :
    presenceIn h' p.id = .live := by
  obtain ⟨-, -, -, hnodes, hids, -, -⟩ := hins.store
  rw [presenceIn, hids, hnodes, update_self, bind_some, getElem?_concat_length]
  simp

omit [Distance D] in
theorem presenceIn_deleted (hdel : Hnsw.delete h id = .value h') : presenceIn h' id = .deleted := by
  obtain ⟨i, node, hid, hnode, ⟨hmark, rfl⟩ | ⟨-, rfl⟩⟩ := Graph.marked_of_delete hdel
  · rw [presenceIn, hid, bind_some, hnode]
    simp [hmark]
  · obtain ⟨hlt, -⟩ := List.getElem?_eq_some_iff.mp hnode
    have hself : (Graph.marked h i node).nodes[i]? = some (some { node with deleted := true }) :=
      getElem?_set_self hlt
    have hid' : (Graph.marked h i node).idToIndex id = some i := hid
    rw [presenceIn, hid', bind_some, hself]
    simp

end LimyeDB.Hybrid
