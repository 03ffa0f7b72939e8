/-
  A SINGLE-VECTOR COLLECTION AS A TABLE of vectors and payloads by id, whatever its random levels and its
  links are.
-/
import LimyeDB.Hybrid.Batch

namespace LimyeDB.Hybrid

open Go Hnsw Lib.WriteOnce List Outcome
open LimyeDB.Graph (Index Tools Distance InMemory)
open LimyeDB.Collection (Log Error BatchResult record)

variable {F P D Q C S : Type} [Scalar F] [Distance D]

/-! ## The table of a collection -/

abbrev Points (F P : Type) := Table Bytes (List F × Option P)

def Config.indexConfig (cfg : Config) : Graph.Config :=
  ⟨cfg.M, cfg.efConstruction, cfg.efSearch, cfg.dimension⟩

structure ShowsTable (K : Kit F P D Q C S) (c : Collection F P D Q C S) (t : Points F P) : Prop where
  single : c.config.hasNamedVectors = false
  index : ∃ h, c.index = some h ∧ InMemory c.config.indexConfig h ∧
    (K.tools []).Encodes h.graph.quantizer ∧ Inv (K.tools []).mmap h ∧ view (K.tools []).mmap h = t

def Sound (wal : Option Log) : Prop := ∀ w ∈ wal, w.faults = Stream'.const false

def putPoint (cfg : Config) (t : Points F P) (p : Point F P) : Points F P :=
  t.insert maxNodes p.id (asStored cfg.metric p.vector, p.payload)

def putPoints (cfg : Config) (t : Points F P) (ps : List (Point F P)) : Points F P :=
  (ps.filter (accepted cfg)).foldl (putPoint cfg) t

def dropPoints (t : Points F P) (ids : List Bytes) : Points F P := ids.foldl Table.delete t

section Log

theorem Sound.write {w : Log} (h : Sound (some w)) (rs : List Wal.Record) :
    ∃ w', w.write rs = (w', true) ∧ Sound (some w') := by
  have hfaults := h w rfl
  refine ⟨⟨w.records ++ rs, w.faults.tail⟩, ?_, ?_⟩
  · simp [Log.write, hfaults]
  · intro w' hw'
    cases hw'
    rw [hfaults, Stream'.tail_const]

omit [Scalar F] [Distance D] in
theorem logRecord_sound {c : Collection F P D Q C S} (h : Sound c.wal) (r : Wal.Record) :
    ∃ wal, logRecord c r = ({ c with wal := wal }, none) ∧ Sound wal := by
  unfold logRecord
  cases hwal : c.wal with
  | none =>
    exact ⟨c.wal, rfl, h⟩
  | some w =>
    rw [hwal] at h
    obtain ⟨w', hwrite, hw'⟩ := h.write [r]
    exact ⟨some w', by simp [hwrite], hw'⟩

omit [Scalar F] in
theorem batchLog_sound (K : Kit F P D Q C S) {c : Collection F P D Q C S}
    (h : Sound c.wal) (valid : List (Point F P)) (r : BatchResult F) :
    ∃ wal r', batchLog K c valid r = (wal, r', none) ∧ Sound wal := by
  unfold batchLog
  cases hwal : c.wal with
  | none => exact ⟨none, r, rfl, hwal ▸ h⟩
  | some w =>
    rw [hwal] at h
    cases valid with
    | nil => exact ⟨some w, r, rfl, h⟩
    | cons p valid =>
      obtain ⟨w', hwrite, hw'⟩ := h.write (LimyeDB.Collection.serializeBatch K.codec
        c.config.name (p :: valid) r).1
      refine ⟨some w', (LimyeDB.Collection.serializeBatch K.codec c.config.name (p :: valid) r).2,
        ?_, hw'⟩
      simp only [hwrite, if_true]

end Log

/-! ## The calls -/

section Calls

variable {K : Kit F P D Q C S} {c : Collection F P D Q C S} {t : Points F P} {p : Point F P}

/-- What the calls need of a collection, with the log that they use. -/
structure Ready (K : Kit F P D Q C S) (c : Collection F P D Q C S) (t : Points F P) : Prop extends
    ShowsTable K c t where
  sound : Sound c.wal

/-- What a call leaves: another table and the same configuration. -/
structure Turned (K : Kit F P D Q C S) (c c' : Collection F P D Q C S) (t : Points F P) : Prop
    extends Ready K c' t where
  config : c'.config = c.config

omit [Scalar F] in
theorem ShowsTable.dimension_pos (hs : ShowsTable K c t) : 0 < c.config.dimension := by
  obtain ⟨h, -, hm, -, hinv, -⟩ := hs.index
  have hdim : h.dimension = c.config.dimension := hm.dimension
  rw [← hdim]
  exact hinv.positive

theorem ShowsTable.insertInternal (hs : ShowsTable K c t) (hdim : p.vector.length = c.config.dimension)
    (hread : Readable p) : ∃ c' e, insertInternal K c p = .value (c', e) ∧
      ShowsTable K c' (putPoint c.config t p) ∧ c'.config = c.config ∧ c'.wal = c.wal := by
  have hvec : p.vector ≠ [] := by
    intro hnil
    have hpos := hs.dimension_pos
    rw [← hdim, hnil] at hpos
    exact absurd hpos (Nat.lt_irrefl 0)
  obtain ⟨h, hindex, hm, he, hinv, rfl⟩ := hs.index
  obtain ⟨h', err, hact, -, hm', he'⟩ := hm.act (K.tools []) he
    (.insert (storedPoint c p) (K.pool [] h.nodes.length))
  obtain ⟨c', e, hins, hindex', hconfig, hwal⟩ :=
    insertInternal_index hs.single hindex hread hvec hdim hact
  have hlen : (storedPoint c p).vector.length = h.dimension := by
    rw [storedPoint, length_asStored, hdim]
    exact hm.dimension.symm
  obtain ⟨hinv', hview⟩ := (Graph.insert_cases hact).table hinv hlen
  refine ⟨c', e, hins, ⟨hconfig ▸ hs.single, h', hindex', hconfig ▸ hm', he', hinv', ?_⟩, hconfig, hwal⟩
  exact hview

theorem Ready.applyBatch (hr : Ready K c t) (ps : List (Point F P))
    (hdim : ∀ p ∈ ps, p.vector.length = c.config.dimension) (hread : ∀ p ∈ ps, Readable p)
    (r : BatchResult F) : ∃ c' r', applyBatch K ps c r = .value (c', r') ∧
      Turned K c c' (ps.foldl (putPoint c.config) t) := by
  induction ps generalizing c t r with
  | nil => exact ⟨c, r, rfl, ⟨hr, rfl⟩⟩
  | cons p ps ih =>
    obtain ⟨c₁, e, hins, hshows, hconfig, hwal⟩ :=
      hr.insertInternal (hdim p mem_cons_self) (hread p mem_cons_self)
    have hr₁ : Ready K c₁ (putPoint c.config t p) := ⟨hshows, hwal ▸ hr.sound⟩
    have hrest := fun r => ih hr₁ (fun q hq => hconfig ▸ hdim q (mem_cons_of_mem _ hq))
      (forall_mem_cons.mp hread).2 r
    unfold applyBatch
    rw [hins]
    cases e with
    | none =>
      obtain ⟨c', r', happ, hturned⟩ := hrest { r with succeeded := r.succeeded + 1 }
      rw [hconfig] at hturned
      exact ⟨c', r', happ, ⟨hturned.toReady, hturned.config.trans hconfig⟩⟩
    | some err =>
      obtain ⟨c', r', happ, hturned⟩ := hrest (r.fail p.id err)
      rw [hconfig] at hturned
      exact ⟨c', r', happ, ⟨hturned.toReady, hturned.config.trans hconfig⟩⟩

theorem Ready.insertBatch {ps : List (Point F P)} (hr : Ready K c t)
    (hread : ∀ p ∈ ps, Readable p) : ∃ c' r, insertBatch K c ps = .value (c', r, none) ∧
      Turned K c c' (putPoints c.config t ps) := by
  by_cases hne : ps = []
  · subst hne
    exact ⟨c, _, rfl, ⟨hr, rfl⟩⟩
  · rw [insertBatch_eq ps hne]
    simp only [checkBatch_fst]
    obtain ⟨wal, r, hlog, hsound⟩ := batchLog_sound K hr.sound
      (ps.filter (accepted c.config)) (checkBatch c.config ps ⟨ps.length, 0, 0, []⟩).2
    have hr₁ : Ready K { c with wal := wal } t := ⟨⟨hr.single, hr.index⟩, hsound⟩
    obtain ⟨c', r', happ, hturned⟩ := hr₁.applyBatch (ps.filter (accepted c.config))
      (fun p hp => (accepted_iff.mp (mem_filter.mp hp).2).2)
      (fun p hp => hread p (mem_filter.mp hp).1) r
    refine ⟨invalidate c', r', ?_, ⟨⟨hturned.single, hturned.index⟩, hturned.sound⟩, hturned.config⟩
    simp only [hlog, happ, value_bind, pure_eq]

omit [Scalar F] in
theorem Ready.delete (hr : Ready K c t) (id : Bytes) :
    ∃ c' e, delete c id = .value (c', e) ∧ Turned K c c' (t.delete id) := by
  obtain ⟨h, hindex, hm, he, hinv, rfl⟩ := hr.index
  obtain ⟨wal, hlog, hsound⟩ := logRecord_sound hr.sound
    (record Wal.RecordType.delete c.config.name id)
  unfold Hybrid.delete deleteInternal
  simp only [hlog, hindex]
  rcases hinv.delete_view id with ⟨hid, hdel⟩ | ⟨h', hdel, hinv', -, hview⟩
  · refine ⟨{ c with wal := wal }, some (.index .pointNotFound), ?_, ?_⟩
    · simp only [hdel, andThen, hindex]
    · have hsame : (view (K.tools []).mmap h).delete id = view (K.tools []).mmap h := by
        unfold Table.delete
        rw [view_absent hid]
      rw [hsame]
      exact ⟨⟨⟨hr.single, h, hindex, hm, he, hinv, rfl⟩, hsound⟩, rfl⟩
  · obtain ⟨h'', e, hact, -, hm', he'⟩ := hm.act (K.tools []) he (.delete id)
    have heq : h'' = h' := by
      simp only [Graph.act, hdel] at hact
      cases hact
      rfl
    subst heq
    simp only [hdel, andThen]
    exact ⟨_, none, rfl, ⟨⟨⟨hr.single, h'', rfl, hm', he', hinv', hview⟩, hsound⟩, rfl⟩⟩

omit [Scalar F] in
theorem ShowsTable.get_eq (hs : ShowsTable K c t) (id : Bytes) : get K c id = answer id (t.find id) := by
  obtain ⟨h, hindex, -, -, hinv, rfl⟩ := hs.index
  unfold Hybrid.get
  rw [hindex]
  exact hinv.get_eq id

end Calls

/-! ## A new collection -/

section New

variable {cfg : Config} {parts : Bytes → Parts Q S} {payloads : ℕ → Option P}
  {dispatcher : Dispatcher}

omit [Scalar F] in
theorem showsTable_new {K : Kit F P D Q C S} {c : Collection F P D Q C S}
    (hnew : new cfg parts payloads dispatcher = .ok c) (hsingle : cfg.hasNamedVectors = false)
    (hlinks : (parts []).links = .empty) (he : (K.tools []).Encodes (parts []).quantizer)
    (hmmap : ∀ s, (parts []).vectorMmap = some s → (K.tools []).mmap.Reliable s) :
    ShowsTable K c Table.empty := by
  obtain ⟨-, h₀, hindex, rfl⟩ := new_single hnew hsingle
  rw [hlinks] at hindex
  obtain ⟨hinv, -, hview⟩ := Hnsw.inv_new (m := (K.tools []).mmap) hindex hmmap
  exact ⟨hsingle, h₀, rfl, Graph.inMemory_new hindex, by rwa [Graph.new_eq hindex], hinv, hview⟩

def Config.makes (cfg : Config) : Bool := cfg.validate = .ok () ∧ 2 ≤ cfg.M

omit [Scalar F] [Distance D] in
theorem new_ok_iff (hsingle : cfg.hasNamedVectors = false) :
    (∃ c : Collection F P D Q C S, new cfg parts payloads dispatcher = .ok c) ↔
      cfg.makes = true := by
  rw [Config.makes, decide_eq_true_iff]
  constructor
  · rintro ⟨c, hnew⟩
    obtain ⟨hval, h₀, hindex, -⟩ := new_single hnew hsingle
    refine ⟨hval, ?_⟩
    by_contra hsmall
    unfold Graph.new Hnsw.new at hindex
    rw [if_pos (by simpa using hsmall)] at hindex
    cases hindex
  · rintro ⟨hval, hM⟩
    have hdim := dimension_ne_zero hval hsingle
    unfold new newIndex Graph.new Hnsw.new
    simp only [hval, hsingle, Bool.false_eq_true, if_false, Nat.not_lt.mpr hM, hdim]
    exact ⟨_, rfl⟩

end New

end LimyeDB.Hybrid
