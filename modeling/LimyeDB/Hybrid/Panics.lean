/-
  CALLS THAT RETURN. A collection with named vectors has no default index, a sparse vector may have fewer
  values than indices, a search may be asked for less than nothing, and a filter and a quantizer may panic.
-/
import LimyeDB.Hybrid.Contents
import LimyeDB.Hybrid.Filtering
import LimyeDB.Graph.Deletion

namespace LimyeDB.Hybrid

open Go Hnsw Lib.Runs List Outcome
open LimyeDB.Graph (Index Tools Distance VisitedList Fits Good Working)
open LimyeDB.Collection (Error BatchResult Log record)
open LimyeDB.Quantization (ScalarQuantizer newScalarQuantizer encode_new)

variable {F P D Q C S : Type} [Distance D]

/-! ## Careful calls -/

/-- An insert of the point would be encoded and find its place, in memory always and in an old file if what
    was left there is in range. -/
def Places (T : Tools F D Q C S) (h : Index F P Q C S) (p : Point F P) : Prop :=
  ∀ visited, Fits h (.insert p visited) ∧ Graph.Takes T h (.insert p visited)

def PlacesAll (K : Kit F P D Q C S) : List (Point F P) → Index F P Q C S → Prop
  | [], _ => True
  | p :: ps, h => Places (K.tools []) h p ∧ ∀ h' e, insertInto K [] h p = .value (h', e) → PlacesAll K ps h'

def filterWidth (h : Index F P Q C S) (params : SearchParams F P) : Int :=
  Graph.overFetch h (if params.ef < params.K then params.K else params.ef)

/-- A search with a value for each index of the sparse query; if there is a filter, it can judge every payload
    and the widths do not overflow. -/
structure Askable (T : Tools F D Q C S) (h : Index F P Q C S) (params : SearchParams F P) : Prop where
  count : 0 ≤ params.K
  sparse : ∀ vec, params.SparseQuery = some vec → vec.indices.length ≤ vec.values.length
  width : params.Filter.isSome → 0 < filterWidth h params ∧
    0 < Graph.calculateAdaptiveEf T (filterWidth h params) (Graph.selectivity (some 0))
  judges : ∀ f, params.Filter = some f → Judges f h

section Careful

variable [Scalar F]

/-- What a call must keep to in a single-vector collection. A call that fails at its checks may be
    anything. -/
def Careful (K : Kit F P D Q C S) (c : Collection F P D Q C S) : Call F P → Prop
  | .insert p => p.validate = .ok () →
      Readable p ∧ ∀ h, c.index = some h → Places (K.tools []) h (storedPoint c p)
  | .insertBatch ps => let valid := ps.filter (accepted c.config)
      (∀ p ∈ valid, Readable p) ∧
        ∀ h, c.index = some h → PlacesAll K (valid.map (storedPoint c)) h
  | .insertV2 _ p => p.validateV2 = .ok () → ∀ vec h, p.defaultVector = some vec →
      c.index = some h → Places (K.tools []) h { p with vector := asStored c.config.metric vec }
  | .upsert p => p.validate = .ok () → ∀ h, c.index = some h → Places (K.tools []) h (storedPoint c p)
  | .delete _ => True
  | .search _ _ _ query params => query.length = c.config.dimension →
      ∀ h, c.index = some h → Askable (K.tools []) h params
  | .setWAL _ => True
  | .setEfSearch _ => True

end Careful

/-! ## Searches -/

section Searches

variable {K : Kit F P D Q C S} {T : Tools F D Q C S} {h : Index F P Q C S}
  {sparseIdx : InvertedIndex F} {query : List F} {params : SearchParams F P}

theorem denseCandidates_ne_panic (hs : Graph.Sound h) (ha : Askable T h params)
    (visited : VisitedList) : denseCandidates T h visited query params ≠ .panic := by
  unfold denseCandidates
  cases hf : params.Filter with
  | none => exact Graph.searchWithEf_ne_panic T hs query visited ha.count _
  | some f =>
    by_cases hdim : query.length = h.dimension
    · by_cases hne : h.maxLevel = -1
      · simp [Graph.searchWithFilter, hdim, hne]
      · obtain ⟨s, -, -, hstart⟩ := Graph.layer0Start_spec T query hs hne
        rcases Graph.searchWithFilter_spec hs hdim hne hstart visited (params.filtered f) rfl rfl
          with ⟨cs, hcall, -, -⟩ | ⟨hwidth, -⟩
        · show Graph.searchWithFilter T h query visited (params.filtered f) ≠ .panic
          have hK : 0 ≤ (params.filtered f : Graph.SearchParams P D).K := ha.count
          rw [hcall, Graph.topK_value hK]
          simp [Graph.lift]
        · obtain ⟨hpos, hpos'⟩ := ha.width (by rw [hf]; rfl)
          exact absurd ⟨hpos, .inr hpos', (ha.judges f hf).evaluates params 0 s⟩ hwidth
    · simp [Graph.searchWithFilter, hdim]

theorem fusePoints_returns (hl : Listed h) (ha : Askable T h params)
    (points : List (ScoredPoint F P D)) :
    ∃ fused, fusePoints K T h sparseIdx params points = .value fused := by
  unfold fusePoints
  cases hs : params.SparseQuery with
  | none => exact ⟨points, rfl⟩
  | some vec =>
    have hK : ¬ params.K < 0 := Int.not_lt.mpr ha.count
    have hlen := ha.sparse vec hs
    rcases search_eq K.toScores sparseIdx vec params.K with ⟨hshort, -⟩ | ⟨-, docs, hdocs, -⟩
    · omega
    · obtain ⟨results, hresults, -⟩ := fuseRRF_eq K.toScores (denseMatches h points)
        (docs.take params.K.toNat) params.K
      rw [firstK_eq, if_neg hK] at hdocs hresults
      simp only [hdocs, hresults, value_bind]
      exact hl.pointsAt_returns params _ _

theorem searchIndex_ne_panic (hs : Graph.Sound h) (hl : Listed h) (ha : Askable T h params)
    (visited : VisitedList) : searchIndex K T h sparseIdx visited query params ≠ .panic := by
  unfold searchIndex
  cases hdense : denseCandidates T h visited query params with
  | panic => exact absurd hdense (denseCandidates_ne_panic hs ha visited)
  | error e => simp
  | value candidates =>
    obtain ⟨points, hpoints⟩ := hl.pointsAt_returns params (fun _ p => p.id)
      (candidates.map fun c => (c.id, K.similarity c.distance))
    obtain ⟨fused, hfused⟩ : ∃ fused, fusePoints K T h sparseIdx params points = .value fused :=
      fusePoints_returns hl ha points
    have hone : densePoints K T h params candidates = .value points := hpoints
    simp only [value_bind, hone, hfused]
    simp [Graph.lift]

end Searches

/-! ## A collection that serves -/

/-- The default index is there, and can be searched; its ids lead to its nodes. -/
structure Serves (cfg : Config) (c : Collection F P D Q C S) : Prop where
  config : c.config = cfg
  single : cfg.hasNamedVectors = false
  positive : cfg.dimension ≠ 0
  index : ∃ h, c.index = some h ∧ Good h ∧ Listed h

section Serves

variable {K : Kit F P D Q C S} {cfg : Config} {c c' : Collection F P D Q C S}
  {h : Index F P Q C S} {p : Point F P}

omit [Distance D] in
theorem Serves.frame (hs : Serves cfg c) (hconfig : c'.config = c.config)
    (hindex : c'.index = c.index) : Serves cfg c' :=
  ⟨hconfig.trans hs.config, hs.single, hs.positive, hindex ▸ hs.index⟩

omit [Distance D] in
theorem Serves.reindex (hs : Serves cfg c) (hconfig : c'.config = c.config)
    (hindex : c'.index = some h) (hg : Good h) (hl : Listed h) : Serves cfg c' :=
  ⟨hconfig.trans hs.config, hs.single, hs.positive, h, hindex, hg, hl⟩

theorem insertInto_returns (hg : Good h) (hl : Listed h) (hid : p.id ≠ [])
    (ht : Places (K.tools []) h p) : ∃ h' e, insertInto K [] h p = .value (h', e) ∧ Good h' ∧ Listed h' := by
  obtain ⟨hfits, htakes⟩ := ht (K.pool [] h.nodes.length)
  obtain ⟨h', e, hact, hg'⟩ := hg.act hfits htakes
  refine ⟨h', e, hact, hg', hl.act hact fun q visited heq => ?_⟩
  cases heq
  exact hid

theorem delete_returns (K : Kit F P D Q C S) (hg : Good h) (hl : Listed h) (id : Bytes) :
    (∃ e, Hnsw.delete h id = .error e) ∨
      ∃ h', Hnsw.delete h id = .value h' ∧ Good h' ∧ Listed h' := by
  obtain ⟨h', e, hact, hg'⟩ := hg.act (T := K.tools []) (Graph.fits_delete id) nofun
  cases hdel : Hnsw.delete h id with
  | error err => exact .inl ⟨err, rfl⟩
  | panic => simp only [Graph.act, hdel, reduceCtorEq] at hact
  | value h₁ =>
    simp only [Graph.act, hdel] at hact
    cases hact
    exact .inr ⟨h', rfl, hg', hl.deleted hdel⟩

variable [Scalar F]

theorem Serves.insertInternal (hs : Serves cfg c) (hid : p.id ≠ []) (hread : Readable p)
    (hplace : ∀ h, c.index = some h → Places (K.tools []) h (storedPoint c p)) :
    ∃ c' e, insertInternal K c p = .value (c', e) ∧ Serves cfg c' := by
  obtain ⟨h, hindex, hg, hl⟩ := hs.index
  have hlayout : c.config.hasNamedVectors = false := hs.config ▸ hs.single
  by_cases haside : p.vector = [] ∨ p.vector.length ≠ c.config.dimension
  · obtain ⟨c', e, hins, hconfig, hindex'⟩ :=
      insertInternal_aside (K := K) hlayout hindex hread haside
    exact ⟨c', e, hins, hs.frame hconfig hindex'⟩
  · obtain ⟨hvec, hdim⟩ := not_or.mp haside
    obtain ⟨h', err, hinto, hg', hl'⟩ :=
      insertInto_returns (K := K) hg hl (p := storedPoint c p) hid (hplace h hindex)
    obtain ⟨c', e, hins, hindex', hconfig, -⟩ :=
      insertInternal_index hlayout hindex hread hvec (not_not.mp hdim) hinto
    exact ⟨c', e, hins, hs.reindex hconfig hindex' hg' hl'⟩

theorem Serves.applyBatch (hs : Serves cfg c) (ps : List (Point F P))
    (hps : ∀ p ∈ ps, accepted cfg p = true) (hread : ∀ p ∈ ps, Readable p)
    (hplace : ∀ h, c.index = some h → PlacesAll K (ps.map (storedPoint c)) h)
    (r : BatchResult F) :
    ∃ c' r', applyBatch K ps c r = .value (c', r') ∧ Serves cfg c' := by
  induction ps generalizing c r with
  | nil => exact ⟨c, r, rfl, hs⟩
  | cons p ps ih =>
    obtain ⟨h, hindex, hg, hl⟩ := hs.index
    obtain ⟨hval, hdim⟩ := accepted_iff.mp (hps p mem_cons_self)
    have hvec : p.vector ≠ [] := by
      intro hnil
      rw [hnil] at hdim
      exact hs.positive hdim.symm
    obtain ⟨hfirst, hrest⟩ := hplace h hindex
    obtain ⟨h', err, hinto, hg', hl'⟩ := insertInto_returns (K := K) hg hl
      (p := storedPoint c p) (id_ne_nil_of_validate hval : p.id ≠ []) hfirst
    obtain ⟨c₁, e, hins, hindex₁, hconfig₁, -⟩ := insertInternal_index (hs.config ▸ hs.single) hindex
      (hread p mem_cons_self) hvec (hs.config ▸ hdim) hinto
    have hs₁ := hs.reindex hconfig₁ hindex₁ hg' hl'
    have hsame : (storedPoint c₁ : Point F P → Point F P) = storedPoint c := by
      funext q
      unfold storedPoint
      rw [hconfig₁]
    have htail := fun r => ih hs₁ (fun q hq => hps q (mem_cons_of_mem _ hq))
      (fun q hq => hread q (mem_cons_of_mem _ hq)) (fun h₁ hh₁ => by
        cases hindex₁.symm.trans hh₁
        rw [hsame]
        exact hrest h' err hinto) r
    unfold Hybrid.applyBatch
    rw [hins]
    cases e with
    | none => exact htail _
    | some err => exact htail _

/-! ## The calls -/

section

variable (hs : Serves cfg c)
include hs

omit [Distance D] [Scalar F] in
theorem Serves.logged (w : Option Log) : Serves cfg { c with wal := w } :=
  hs.frame rfl rfl

omit [Scalar F] hs in
theorem logPoint_wal (c : Collection F P D Q C S) (type : Wal.RecordType) (p : Point F P) :
    ∃ w err, logPoint K c type p = ({ c with wal := w }, err) :=
  ⟨_, _, Prod.ext (logPoint_frame c type p) rfl⟩

theorem Serves.insert (hcareful : Careful K c (.insert p)) :
    ∃ c' e, insert K c p = .value (c', e) ∧ Serves cfg c' := by
  unfold Hybrid.insert
  cases hval : p.validate with
  | error err => exact ⟨c, _, rfl, hs⟩
  | ok u =>
    obtain ⟨hread, hplace⟩ := hcareful hval
    obtain ⟨w, err, hlog⟩ := logPoint_wal (K := K) c Wal.RecordType.insert p
    simp only [hlog]
    cases err with
    | some err => exact ⟨_, _, rfl, hs.logged w⟩
    | none =>
      obtain ⟨c₂, e, hins, hs₂⟩ := (hs.logged w).insertInternal (K := K)
        (id_ne_nil_of_validate hval) hread hplace
      simp only [hins]
      cases e with
      | some err => exact ⟨c₂, _, rfl, hs₂⟩
      | none => exact ⟨invalidate c₂, _, rfl, hs₂.frame rfl rfl⟩

theorem Serves.insertBatch {ps : List (Point F P)} (hcareful : Careful K c (.insertBatch ps)) :
    ∃ c' r e, insertBatch K c ps = .value (c', r, e) ∧ Serves cfg c' := by
  obtain ⟨hread, hplace⟩ := hcareful
  by_cases hne : ps = []
  · subst hne
    exact ⟨c, _, _, rfl, hs⟩
  · rw [insertBatch_eq ps hne]
    simp only [checkBatch_fst]
    generalize batchLog K c (ps.filter (accepted c.config)) _ = logged
    obtain ⟨w, r, err⟩ := logged
    cases err with
    | some err => exact ⟨_, _, _, rfl, hs.logged w⟩
    | none =>
      obtain ⟨c', r', happ, hs'⟩ := (hs.logged w).applyBatch
        (ps.filter (accepted c.config)) (fun p hp => hs.config ▸ (mem_filter.mp hp).2) hread
        hplace r
      exact ⟨invalidate c', r', none, by simp only [happ, value_bind, pure_eq],
        hs'.frame rfl rfl⟩

theorem Serves.upsertInternal (hid : p.id ≠ [])
    (hplace : ∀ h, c.index = some h → Places (K.tools []) h (storedPoint c p)) :
    ∃ c' e, upsertInternal K c p = .value (c', e) ∧ Serves cfg c' := by
  obtain ⟨h, hindex, hg, hl⟩ := hs.index
  -- a known id is marked and then refused, a new one goes to its place
  have hquiet : ∃ h₁, deleteQuietly h p.id = .value h₁ ∧ Good h₁ ∧ Listed h₁ ∧
      Places (K.tools []) h₁ (storedPoint c p) := by
    unfold deleteQuietly
    rcases delete_returns K hg hl p.id with ⟨e, hdel⟩ | ⟨h₁, hdel, hg₁, hl₁⟩
    · exact ⟨h, by rw [hdel], hg, hl, hplace h hindex⟩
    · obtain ⟨i, node, hknown, -⟩ := Graph.marked_of_delete hdel
      rw [← idToIndex_delete hdel] at hknown
      refine ⟨h₁, by rw [hdel], hg₁, hl₁, fun visited => ⟨?_, ?_⟩⟩
      · rintro ⟨q, _, heq, -, hnew, -⟩
        cases heq
        cases hknown.symm.trans hnew
      · intro q _ heq _ hnew
        cases heq
        cases hknown.symm.trans hnew
  obtain ⟨h₁, hdel, hg₁, hl₁, hplace₁⟩ := hquiet
  obtain ⟨h₂, err, hinto, hg₂, hl₂⟩ := insertInto_returns (K := K) hg₁ hl₁
    (p := storedPoint c p) hid hplace₁
  unfold storedPoint at hinto
  unfold Hybrid.upsertInternal
  simp only [hindex, hdel, hinto, value_bind, pure_eq]
  cases err with
  | some err => exact ⟨_, _, rfl, hs.reindex rfl rfl hg₂ hl₂⟩
  | none => exact ⟨_, _, rfl, hs.reindex rfl rfl hg₂ hl₂⟩

theorem Serves.upsert (hcareful : Careful K c (.upsert p)) :
    ∃ c' e, upsert K c p = .value (c', e) ∧ Serves cfg c' := by
  unfold Hybrid.upsert
  cases hval : p.validate with
  | error err => exact ⟨c, _, rfl, hs⟩
  | ok u =>
    obtain ⟨w, err, hlog⟩ := logPoint_wal (K := K) c Wal.RecordType.update p
    simp only [hlog]
    split
    · exact ⟨c, _, rfl, hs⟩
    · cases err with
      | some err => exact ⟨_, _, rfl, hs.logged w⟩
      | none =>
        exact (hs.logged w).upsertInternal (id_ne_nil_of_validate hval) (hcareful hval)

theorem Serves.insertV2 {names : List Bytes} {p : PointV2 F P}
    (hcareful : Careful K c (.insertV2 names p)) :
    ∃ c' e, insertV2 K c names p = .value (c', e) ∧ Serves cfg c' := by
  obtain ⟨h, hindex, hg, hl⟩ := hs.index
  have hlayout : c.config.hasNamedVectors = false := hs.config ▸ hs.single
  unfold Hybrid.insertV2
  cases hval : p.validateV2 with
  | error err => exact ⟨c, _, rfl, hs⟩
  | ok u =>
    simp only [hlayout, Bool.false_eq_true, if_false]
    unfold insertLegacy
    cases hvec : p.defaultVector with
    | none => exact ⟨c, _, rfl, hs⟩
    | some vec =>
      simp only [hindex]
      split
      · exact ⟨c, _, rfl, hs⟩
      · obtain ⟨h', err, hinto, hg', hl'⟩ := insertInto_returns (K := K) hg hl
          (p := { p with vector := asStored c.config.metric vec })
          (id_ne_nil_of_validateV2 hval : p.id ≠ []) (hcareful hval vec h hvec hindex)
        simp only [hinto, value_bind, pure_eq]
        cases err with
        | some err => exact ⟨_, _, rfl, hs.reindex rfl rfl hg' hl'⟩
        | none => exact ⟨_, _, rfl, hs.reindex rfl rfl hg' hl'⟩

omit [Scalar F] hs in
theorem Serves.delete (K : Kit F P D Q C S) (hs : Serves cfg c) (id : Bytes) :
    ∃ c' e, delete c id = .value (c', e) ∧ Serves cfg c' := by
  obtain ⟨h, hindex, hg, hl⟩ := hs.index
  obtain ⟨w, err, hlog⟩ : ∃ w err, logRecord c (record Wal.RecordType.delete c.config.name id) =
      ({ c with wal := w }, err) := ⟨_, _, Prod.ext (logRecord_frame c _) rfl⟩
  unfold Hybrid.delete
  rw [hlog]
  cases err with
  | some err => exact ⟨_, _, rfl, hs.logged w⟩
  | none =>
    unfold deleteInternal
    simp only [hindex]
    rcases delete_returns K hg hl id with ⟨e, hdel⟩ | ⟨h₁, hdel, hg₁, hl₁⟩
    · simp only [hdel]
      exact ⟨_, _, rfl, hs.reindex rfl rfl hg hl⟩
    · simp only [hdel]
      exact ⟨_, _, rfl, hs.reindex rfl rfl hg₁ hl₁⟩

theorem Serves.search {now later : ℕ} {visited : VisitedList} {query : List F}
    {params : SearchParams F P} (hcareful : Careful K c (.search now later visited query params)) :
    ∃ c' r, searchWithParams K c now later visited query params = .value (c', r) ∧
      Serves cfg c' := by
  obtain ⟨h, hindex, hg, hl⟩ := hs.index
  have huncached : searchUncached K c visited query params ≠ .panic := by
    unfold searchUncached
    split
    · simp
    · rename_i hdim
      have hask := hcareful (not_not.mp hdim) h hindex
      simp only [hindex]
      cases hsearch : searchIndex K (K.tools []) h c.sparseIdx visited
        (asStored c.config.metric query) params with
      | panic => exact absurd hsearch (searchIndex_ne_panic hg.base.sound hl hask visited)
      | error e => simp
      | value points => simp
  suffices hret : ∃ c' r, searchWithParams K c now later visited query params = .value (c', r) by
    obtain ⟨c', r, hcall⟩ := hret
    have hframe := searchWithParams_frame hcall
    exact ⟨c', r, hcall, hs.frame (by rw [hframe]) (by rw [hframe])⟩
  rcases searchWithParams_cases K c now later visited query params with
    ⟨-, points, -, heq⟩ | ⟨-, heq⟩
  · exact ⟨_, _, heq⟩
  · rw [heq]
    cases hun : searchUncached K c visited query params with
    | panic => exact absurd hun huncached
    | error e => exact ⟨_, _, rfl⟩
    | value points => exact ⟨_, _, rfl⟩

theorem Serves.call {x : Call F P} (hcareful : Careful K c x) :
    ∃ c' reply, call K c x = .value (c', reply) ∧ Serves cfg c' := by
  cases x with
  | insert p =>
    obtain ⟨c', e, hcall, hs'⟩ := hs.insert hcareful
    exact ⟨c', .error e, by simp only [Hybrid.call, hcall, value_bind, pure_eq], hs'⟩
  | insertBatch ps =>
    obtain ⟨c', r, e, hcall, hs'⟩ := hs.insertBatch hcareful
    exact ⟨c', .batch r e, by simp only [Hybrid.call, hcall, value_bind, pure_eq], hs'⟩
  | insertV2 names p =>
    obtain ⟨c', e, hcall, hs'⟩ := hs.insertV2 hcareful
    exact ⟨c', .vectors e, by simp only [Hybrid.call, hcall, value_bind, pure_eq], hs'⟩
  | upsert p =>
    obtain ⟨c', e, hcall, hs'⟩ := hs.upsert hcareful
    exact ⟨c', .error e, by simp only [Hybrid.call, hcall, value_bind, pure_eq], hs'⟩
  | delete id =>
    obtain ⟨c', e, hcall, hs'⟩ := hs.delete K id
    exact ⟨c', .error e, by simp only [Hybrid.call, hcall, value_bind, pure_eq], hs'⟩
  | search now later visited query params =>
    obtain ⟨c', r, hcall, hs'⟩ := hs.search hcareful
    exact ⟨c', .found r, by simp only [Hybrid.call, hcall, value_bind, pure_eq], hs'⟩
  | setWAL w => exact ⟨_, _, rfl, hs.logged (some w)⟩
  | setEfSearch ef =>
    obtain ⟨h, hindex, hg, hl⟩ := hs.index
    have hfits : Fits h (.setEfSearch ef : Graph.Action F P) := by
      rintro ⟨q, visited, heq, -⟩
      cases heq
    obtain ⟨h', e, hact, hg'⟩ := hg.act (T := K.tools []) hfits nofun
    cases hact
    have hl' : Listed (Graph.setEfSearch h ef) := ⟨hl.indexed, hl.node, hl.named⟩
    exact ⟨{ c with index := some (Graph.setEfSearch h ef) }, .done,
      by simp only [Hybrid.call, hindex], hs.reindex rfl rfl hg' hl'⟩

end

/-! ## The reads -/

omit [Scalar F]

theorem Serves.get (hs : Serves cfg c) (id : Bytes) : get K c id ≠ .panic := by
  obtain ⟨h, hindex, -, hl⟩ := hs.index
  unfold Hybrid.get
  rw [hindex]
  exact get_ne_panic hl.indexed id

theorem iterateNodes_ne_panic (hl : Listed h) {nodes : List (Option (Node F P))}
    (hnodes : ∀ node ∈ nodes, node ≠ none) : iterateNodes K h nodes ≠ .panic := by
  induction nodes with
  | nil => simp [iterateNodes]
  | cons node nodes ih =>
    have htail := ih fun n hn => hnodes n (mem_cons_of_mem _ hn)
    cases node with
    | none => exact absurd rfl (hnodes none mem_cons_self)
    | some node =>
      unfold iterateNodes
      split
      · exact htail
      · cases hget : (Hnsw.get (K.tools []).mmap h node.id : Outcome IndexError (Point F P)) with
        | panic => exact absurd hget (get_ne_panic hl.indexed _)
        | error e => simp
        | value p =>
          exact bind_ne_panic.mpr ⟨htail, fun _ _ => by simp⟩

theorem Serves.iterate (hs : Serves cfg c) : iterate K c ≠ .panic := by
  obtain ⟨h, hindex, -, hl⟩ := hs.index
  unfold Hybrid.iterate
  rw [hindex]
  refine iterateNodes_ne_panic hl fun node hmem hnone => ?_
  obtain ⟨i, hi, hget⟩ := mem_iff_getElem.mp hmem
  obtain ⟨node', hnode'⟩ := hl.node i hi
  rw [getElem?_eq_getElem hi, hget, hnone] at hnode'
  cases hnode'

end Serves

/-! ## Histories -/

/-- What the files of an index are when it is opened: nothing in memory, or a graph file of the
    layout, whatever is in it. -/
def Parts.Opened (parts : Parts Q S) (M : ℕ) : Prop :=
  parts.links = Graph.Links.empty ∨ parts.links = .file (Graph.GraphMmap.fresh M) ∨
    ∃ words size, parts.links = .file (Graph.GraphMmap.opened M words size)

section Histories

variable [Scalar F] {K : Kit F P D Q C S} {cfg : Config} {parts : Bytes → Parts Q S}
  {payloads : ℕ → Option P} {dispatcher : Dispatcher} {c₀ : Collection F P D Q C S}

omit [Distance D] [Scalar F] in
theorem serves_new (hnew : new cfg parts payloads dispatcher = .ok c₀)
    (hsingle : cfg.hasNamedVectors = false) (hparts : (parts []).Opened cfg.M) :
    Serves cfg c₀ := by
  obtain ⟨hval, h₀, hindex, rfl⟩ := new_single hnew hsingle
  refine ⟨rfl, hsingle, dimension_ne_zero hval hsingle, h₀, rfl, ?_, listed_new hindex⟩
  refine Graph.good_new (fun g hl => ?_) (fun rows hl i => ?_) hindex
  · rcases hparts with hempty | hfresh | ⟨words, size, hold⟩
    · cases hempty.symm.trans hl
    · cases hfresh.symm.trans hl
      exact ⟨rfl, rfl, rfl⟩
    · cases hold.symm.trans hl
      exact ⟨rfl, rfl, rfl⟩
  · rcases hparts with hempty | hfresh | ⟨words, size, hold⟩
    · cases hempty.symm.trans hl
      rfl
    · cases hfresh.symm.trans hl
    · cases hold.symm.trans hl

structure Returns (K : Kit F P D Q C S) (c : Collection F P D Q C S) : Prop where
  call : ∀ x, Careful K c x → call K c x ≠ .panic
  get : ∀ id, get K c id ≠ .panic
  iterate : iterate K c ≠ .panic

/-- **A history of careful calls on a new single-vector collection goes to its end**, and after it
    no careful call panics, nor a read. -/
theorem careful_calls_return (hnew : new cfg parts payloads dispatcher = .ok c₀)
    (hsingle : cfg.hasNamedVectors = false) (hparts : (parts []).Opened cfg.M)
    {xs : List (Call F P)} (hcareful : Along (step K) (Careful K) c₀ xs) :
    ∃ c, run (step K) c₀ xs = some c ∧ Returns K c := by
  have hstep : ∀ (c : Collection F P D Q C S) x, Serves cfg c → Careful K c x →
      ∃ c', step K c x = some c' ∧ Serves cfg c' := by
    intro c x hs hx
    obtain ⟨c', reply, hcall, hs'⟩ := hs.call hx
    exact ⟨c', by simp only [step, hcall], hs'⟩
  obtain ⟨c, hrun, hs⟩ := run_total hstep (serves_new hnew hsingle hparts) hcareful
  refine ⟨c, hrun, fun x hx hpanic => ?_, hs.get, hs.iterate⟩
  obtain ⟨c', reply, hcall, -⟩ := hs.call hx
  cases hpanic.symm.trans hcall

/-! ## In memory -/

omit [Distance D] in
/-- What a call in memory must keep to, which has nothing to do with the state. -/
def Modest : Call F P → Prop
  | .insert p => Readable p
  | .insertBatch ps => ∀ p ∈ ps, Readable p
  | .search _ _ _ _ params => (0 ≤ params.K ∧ 30 * params.K < 9223372036854775808) ∧
      (0 < params.ef ∧ 30 * params.ef < 9223372036854775808) ∧
      (∀ vec ∈ params.SparseQuery, vec.indices.length ≤ vec.values.length) ∧
      ∀ f ∈ params.Filter, ∀ payload, ∃ b, f payload = .value b
  | _ => True

omit [Scalar F] in
theorem places_memory {h : Index F P Q C S} (hw : Working (K.tools []) h) (p : Point F P) :
    Places (K.tools []) h p := by
  obtain ⟨⟨gcfg, hm⟩, he⟩ := hw
  exact fun _ => ⟨Graph.fits_memory hm.wired.memory _,
    fun q _ _ _ _ => (Graph.Encodes.encodable he q.vector).1⟩

omit [Scalar F] in
theorem placesAll_memory (ps : List (Point F P)) {h : Index F P Q C S}
    (hw : Working (K.tools []) h) : PlacesAll K ps h := by
  induction ps generalizing h with
  | nil => trivial
  | cons p ps ih => exact ⟨places_memory hw p, fun h' e hinto => ih (working_insert hw hinto)⟩

omit [Scalar F] in
theorem askable_of_modest {now later : ℕ} {visited : VisitedList} {query : List F}
    {params : SearchParams F P} (T : Tools F D Q C S) (h : Index F P Q C S)
    (hmodest : Modest (.search now later visited query params)) : Askable T h params := by
  obtain ⟨⟨hK, hKsmall⟩, ⟨hef, hefsmall⟩, hsparse, hfilter⟩ := hmodest
  exact ⟨hK, fun vec hvec => hsparse vec hvec, fun _ => width_pos T h hK hef hKsmall hefsmall _,
    fun f hf node _ => hfilter f hf node.payload⟩

theorem careful_of_modest (hnew : new cfg parts payloads dispatcher = .ok c₀)
    (hsingle : cfg.hasNamedVectors = false) (hmemory : (parts []).links = Graph.Links.empty)
    (he : (K.tools []).Encodes (parts []).quantizer) {xs : List (Call F P)} (hmodest : ∀ x ∈ xs, Modest x) :
    Along (step K) (Careful K) c₀ xs := by
  obtain ⟨-, h₀, hindex, rfl⟩ := new_single hnew hsingle
  rw [hmemory] at hindex
  have hw₀ : Working (K.tools []) h₀ :=
    ⟨⟨_, Graph.inMemory_new hindex⟩, by rwa [Graph.new_eq hindex]⟩
  refine along_of_inv (I := fun c => ∃ h, c.index = some h ∧ Working (K.tools []) h)
    (fun c x c' hI hstep => ?_) (fun c x hI hx => ?_) ⟨h₀, rfl, hw₀⟩ hmodest
  · obtain ⟨h, hh, ⟨gcfg, hm⟩, he⟩ := hI
    obtain ⟨reply, hcall⟩ := call_of_step hstep
    obtain ⟨h', hh', hm', he'⟩ := inMemory_of_evolves (call_evolves hcall) hh hm he
    exact ⟨h', hh', ⟨gcfg, hm'⟩, he'⟩
  · obtain ⟨h, hh, hw⟩ := hI
    have hplace : ∀ h', c.index = some h' → ∀ p : Point F P, Places (K.tools []) h' p := by
      intro h' hh' p
      cases hh.symm.trans hh'
      exact places_memory hw p
    cases x with
    | insert p => exact fun _ => ⟨hx, fun h' hh' => hplace h' hh' _⟩
    | insertBatch ps =>
      refine ⟨fun p hp => hx p (mem_filter.mp hp).1, fun h' hh' => ?_⟩
      cases hh.symm.trans hh'
      exact placesAll_memory _ hw
    | insertV2 names p => exact fun _ vec h' _ hh' => hplace h' hh' _
    | upsert p => exact fun _ h' hh' => hplace h' hh' _
    | delete id => trivial
    | search now later visited query params => exact fun _ h' _ => askable_of_modest _ h' hx
    | setWAL w => trivial
    | setEfSearch ef => trivial

end Histories

/-! ## Points on a line -/

def modestHistory : List (Call ℕ ℕ) :=
  [.insert (linePoint 1 5 none (some ⟨[3], [2]⟩)),
    .insertBatch [linePoint 2 7 none none, linePoint 3 9 none (some ⟨[3, 4], [1, 1]⟩)],
    .upsert (linePoint 4 1 none none),
    .search 0 0 (.new 8) [5] ⟨2, 0, none, true, true, some ⟨[3], [1]⟩⟩, .delete [1],
    .search 0 0 (.new 8) [5] ⟨2, 0, some fun _ => .value true, true, true, none⟩]

theorem careful_calls_return_line :
    ∃ c, run (step lineKit) lineCollection modestHistory = some c ∧ Returns lineKit c := by
  have hsingle : lineConfig.hasNamedVectors = false := rfl
  refine careful_calls_return lineCollection_new hsingle (.inl rfl) ?_
  refine careful_of_modest lineCollection_new hsingle rfl (Graph.encodes_none _) ?_
  simp [modestHistory, Modest, Readable, linePoint, SearchParams.ef]

def namedPoint : Point ℕ ℕ := ⟨[1], [], none, [([118], [5])], none⟩

/-- As `lineKit`, with a scalar quantizer. -/
def scalarKit : Kit ℕ ℕ ℕ (ScalarQuantizer 1) (Fin 1 → ℕ) Unit :=
  { toScores := lineKit.toScores, tools := fun _ => Graph.scalarLine, pool := lineKit.pool
    codec := lineKit.codec, blank := lineKit.blank, searchKey := lineKit.searchKey }

theorem scalarKit_panics {h : Index ℕ ℕ (ScalarQuantizer 1) (Fin 1 → ℕ) Unit} {p : Point ℕ ℕ}
    (hdim : p.vector.length = h.dimension) (hid : h.idToIndex p.id = none)
    (hquant : h.graph.quantizer = some (newScalarQuantizer 0)) : insertInto scalarKit [] h p = .panic := by
  refine Graph.insert_panics hdim hid fun he => ?_
  obtain ⟨r, hr⟩ := he
  simp [Graph.encode, hquant, scalarKit, Graph.scalarLine, encode_new] at hr

def scalarParts (_ : Bytes) : Parts (ScalarQuantizer 1) Unit :=
  ⟨Stream'.const 0, some (newScalarQuantizer 0), .empty, none⟩

/-- **Calls that panic**: with named vectors everything that goes to the default index; otherwise an insert
    and a search with fewer sparse values than indices, and an insert with a quantile of 0. -/
theorem calls_panic : (∃ c : Collection ℕ ℕ ℕ Unit Unit Unit,
      new namedLine lineParts (fun _ => none) freeDispatcher = .ok c ∧
      namedPoint.validate = .ok () ∧ insert lineKit c namedPoint = .panic ∧
      get lineKit c [1] = .panic ∧ delete c [1] = .panic ∧ iterate lineKit c = .panic ∧
      searchWithParams lineKit c 0 0 (.new 8) [5] ⟨1, 0, none, false, false, none⟩ = .panic) ∧
    (linePoint 1 5 none (some ⟨[3], []⟩)).validate = .ok () ∧
      insert lineKit lineCollection (linePoint 1 5 none (some ⟨[3], []⟩)) = .panic ∧
    searchWithParams lineKit lineCollection 0 0 (.new 8) [5]
      ⟨1, 0, none, false, false, some ⟨[3], []⟩⟩ = .panic ∧
    ∃ c : Collection ℕ ℕ ℕ (ScalarQuantizer 1) (Fin 1 → ℕ) Unit,
      new lineConfig scalarParts (fun _ => none) freeDispatcher = .ok c ∧
      insert scalarKit c (linePoint 1 5 none none) = .panic := by
  refine ⟨⟨_, rfl, by decide, rfl, rfl, rfl, rfl, rfl⟩, by decide, rfl, rfl, _, rfl, ?_⟩
  have hval : (linePoint 1 5 none none).validate = .ok () := by decide
  unfold insert insertInternal insertDefault
  rw [hval]
  simp only [logPoint, linePoint, asStored, lineConfig]
  rw [scalarKit_panics rfl rfl rfl]
  rfl

end LimyeDB.Hybrid
