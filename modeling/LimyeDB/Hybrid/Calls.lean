/-
  HISTORIES OF CALLS, and what a call does to the default index: a run of inserts and deletes of points with
  ids.
-/
import LimyeDB.Collection.Recovery
import LimyeDB.Hybrid.Search
import LimyeDB.Graph.Points
import LimyeDB.Graph.Store

namespace LimyeDB.Hybrid

open Go Hnsw Lib.Runs List Outcome
open LimyeDB.Graph (Index Tools Distance VisitedList Action Exists)
open LimyeDB.Collection (Error BatchResult Log)

variable {F P D Q C S : Type} [Distance D]

/-! ## Calls -/

inductive Call (F P : Type) where
  | insert (p : Point F P)
  | insertBatch (ps : List (Point F P))
  | insertV2 (names : List Bytes) (p : PointV2 F P)
  | upsert (p : Point F P)
  | delete (id : Bytes)
  | search (now later : ℕ) (visited : VisitedList) (query : List F) (params : SearchParams F P)
  | setWAL (w : Log)
  | setEfSearch (ef : Int)

inductive Reply (F P D : Type) where
  | error (err : Option (Error F))
  | batch (r : BatchResult F) (err : Option (Error F))
  | vectors (err : Option (VectorError F))
  | found (r : Except SearchError (List (ScoredPoint F P D)))
  | done

section Calls

variable [Scalar F]

def call (K : Kit F P D Q C S) (c : Collection F P D Q C S) :
    Call F P → Outcome Empty (Collection F P D Q C S × Reply F P D)
  | .insert p => do
    let (c, err) ← insert K c p
    return (c, .error err)
  | .insertBatch ps => do
    let (c, r, err) ← insertBatch K c ps
    return (c, .batch r err)
  | .insertV2 names p => do
    let (c, err) ← insertV2 K c names p
    return (c, .vectors err)
  | .upsert p => do
    let (c, err) ← upsert K c p
    return (c, .error err)
  | .delete id => do
    let (c, err) ← delete c id
    return (c, .error err)
  | .search now later visited query params => do
    let (c, r) ← searchWithParams K c now later visited query params
    return (c, .found r)
  | .setWAL w => .value ({ c with wal := some w }, .done)
  | .setEfSearch ef =>
    match c.index with
    | none => .panic
    | some h => .value ({ c with index := some (Graph.setEfSearch h ef) }, .done)

def step (K : Kit F P D Q C S) (c : Collection F P D Q C S) (x : Call F P) :
    Option (Collection F P D Q C S) :=
  match call K c x with
  | .value (c, _) => some c
  | _ => none

/-- What a call that returned has done. -/
inductive Called (K : Kit F P D Q C S) (c : Collection F P D Q C S) :
    Call F P → Collection F P D Q C S → Reply F P D → Prop where
  | insert {p c' e} (h : insert K c p = .value (c', e)) : Called K c (.insert p) c' (.error e)
  | insertBatch {ps c' r e} (h : insertBatch K c ps = .value (c', r, e)) :
    Called K c (.insertBatch ps) c' (.batch r e)
  | insertV2 {names p c' e} (h : insertV2 K c names p = .value (c', e)) :
    Called K c (.insertV2 names p) c' (.vectors e)
  | upsert {p c' e} (h : upsert K c p = .value (c', e)) : Called K c (.upsert p) c' (.error e)
  | delete {id c' e} (h : delete c id = .value (c', e)) : Called K c (.delete id) c' (.error e)
  | search {now later visited query params c' r}
    (h : searchWithParams K c now later visited query params = .value (c', r)) :
    Called K c (.search now later visited query params) c' (.found r)
  | setWAL {w} : Called K c (.setWAL w) { c with wal := some w } .done
  | setEfSearch {ef h} (hindex : c.index = some h) :
    Called K c (.setEfSearch ef) { c with index := some (Graph.setEfSearch h ef) } .done

variable {K : Kit F P D Q C S} {c c' : Collection F P D Q C S} {x : Call F P}

theorem called {reply : Reply F P D} (h : call K c x = .value (c', reply)) :
    Called K c x c' reply := by
  cases x with
  | setWAL w =>
    cases h
    exact .setWAL
  | setEfSearch ef =>
    unfold call at h
    simp only at h
    split at h
    · cases h
    · rename_i hindex
      cases h
      exact .setEfSearch hindex
  | _ =>
    obtain ⟨r, hcall, hret⟩ := bind_eq_value.mp h
    cases hret
    constructor
    exact hcall

theorem call_of_step (hstep : step K c x = some c') : ∃ reply, call K c x = .value (c', reply) := by
  unfold step at hstep
  split at hstep
  · rename_i c₁ reply hcall
    cases hstep
    exact ⟨reply, hcall⟩
  · cases hstep

end Calls

/-! ## The default index -/

/-- The configuration stays, and the default index goes through inserts of points with ids and
    through deletes. -/
structure Evolves (K : Kit F P D Q C S) (c c' : Collection F P D Q C S) : Prop where
  config : c'.config = c.config
  none : c.index = none → c'.index = none
  some : ∀ h, c.index = some h → ∃ h' actions, c'.index = some h' ∧
    run (Graph.step (K.tools [])) h actions = some h' ∧
    ∀ p visited, Action.insert p visited ∈ actions → p.id ≠ []

variable {p : Point F P}

section Evolves

variable {K : Kit F P D Q C S} {c c' c'' : Collection F P D Q C S}

theorem evolves_of_eq (hconfig : c'.config = c.config) (hindex : c'.index = c.index) :
    Evolves K c c' := by
  refine ⟨hconfig, fun h => hindex.trans h, fun h hh => ⟨h, [], hindex.trans hh, rfl, ?_⟩⟩
  intro p visited hmem
  cases hmem

theorem Evolves.trans (h₁ : Evolves K c c') (h₂ : Evolves K c' c'') : Evolves K c c'' := by
  refine ⟨h₂.config.trans h₁.config, fun h => h₂.none (h₁.none h), fun h hh => ?_⟩
  obtain ⟨h', as, hh', hrun, has⟩ := h₁.some h hh
  obtain ⟨h'', as', hh'', hrun', has'⟩ := h₂.some h' hh'
  refine ⟨h'', as ++ as', hh'', run_append.mpr ⟨h', hrun, hrun'⟩, fun p visited hmem => ?_⟩
  rcases mem_append.mp hmem with hmem | hmem
  · exact has p visited hmem
  · exact has' p visited hmem

theorem evolves_of_act {h h' : Index F P Q C S} {a : Action F P} {e : Option IndexError}
    (hindex : c.index = some h) (hact : Graph.act (K.tools []) h a = .value (h', e))
    (hid : ∀ p visited, a = .insert p visited → p.id ≠ []) (hconfig : c'.config = c.config)
    (hindex' : c'.index = some h') : Evolves K c c' := by
  refine ⟨hconfig, fun h => absurd (h.symm.trans hindex) (Option.some_ne_none _).symm, ?_⟩
  intro h₁ hh₁
  cases hindex.symm.trans hh₁
  refine ⟨h', [a], hindex', run_cons.mpr ⟨h', Graph.step_of_act hact, rfl⟩, fun p visited hmem => ?_⟩
  exact hid p visited (mem_singleton.mp hmem).symm

theorem evolves_of_insert {h h' : Index F P Q C S} {e : Option IndexError}
    (hindex : c.index = some h) (hins : insertInto K [] h p = .value (h', e)) (hid : p.id ≠ [])
    (hconfig : c'.config = c.config) (hindex' : c'.index = some h') : Evolves K c c' := by
  refine evolves_of_act (a := .insert p _) hindex hins (fun p' visited heq => ?_) hconfig hindex'
  cases heq
  exact hid

end Evolves

/-! ## What each part changes -/

omit [Distance D] in
theorem andThen_value {σ ε : Type} {x : Outcome Empty (σ × Option ε)}
    {next : σ → Outcome Empty (σ × Option ε)} {s : σ} {e : Option ε}
    (h : andThen x next = .value (s, e)) :
    (∃ err, x = .value (s, some err) ∧ e = some err) ∨
      ∃ s₁, x = .value (s₁, none) ∧ next s₁ = .value (s, e) := by
  match x, h with
  | .value (s₁, none), h => exact .inr ⟨s₁, rfl, h⟩
  | .value (s₁, some err), h =>
    cases h
    exact .inl ⟨err, rfl, rfl⟩

section Frames

variable [Scalar F] {K : Kit F P D Q C S} {c c' : Collection F P D Q C S} {p : Point F P}

variable {e : Option (Error F)} {id : Bytes}

theorem insertDefault_cases (h : insertDefault K c p = .value (c', e)) :
    c' = c ∧ ((c.index = none ∨ p.vector = []) ∧ e = none ∨
      p.vector ≠ [] ∧ p.vector.length ≠ c.config.dimension ∧ e = some .dimensionMismatch) ∨
    ∃ h₀ h₁ err, c.index = some h₀ ∧ p.vector ≠ [] ∧ p.vector.length = c.config.dimension ∧
      insertInto K [] h₀ { p with vector := asStored c.config.metric p.vector } =
        .value (h₁, err) ∧ c' = { c with index := some h₁ } ∧ e = err.map .index := by
  unfold insertDefault at h
  split at h
  · rename_i hnone
    cases h
    exact .inl ⟨rfl, .inl ⟨.inl hnone, rfl⟩⟩
  · rename_i h₀ hsome
    split at h
    · rename_i hempty
      cases h
      exact .inl ⟨rfl, .inl ⟨.inr hempty, rfl⟩⟩
    · rename_i hne
      split at h
      · rename_i hdim
        cases h
        exact .inl ⟨rfl, .inr ⟨hne, hdim, rfl⟩⟩
      · rename_i hdim
        obtain ⟨⟨h₁, err⟩, hins, hret⟩ := bind_eq_value.mp h
        cases hret
        exact .inr ⟨h₀, h₁, err, hsome, hne, not_not.mp hdim, hins, rfl, rfl⟩

theorem insertDefault_evolves (hid : p.id ≠ []) (h : insertDefault K c p = .value (c', e)) :
    Evolves K c c' := by
  rcases insertDefault_cases h with ⟨rfl, -⟩ | ⟨h₀, h₁, err, hindex, -, -, hins, rfl, -⟩
  · exact evolves_of_eq rfl rfl
  · exact evolves_of_insert hindex hins hid rfl rfl

theorem insertNamed_frame {payload : Option P} {named : List (Bytes × List F)}
    (h : insertNamed K id payload named c = .value (c', e)) :
    c' = { c with indices := c'.indices } := by
  induction named generalizing c with
  | nil =>
    cases h
    rfl
  | cons nv named ih =>
    obtain ⟨name, vec⟩ := nv
    unfold insertNamed at h
    split at h
    · split at h
      · cases h
        rfl
      · obtain ⟨⟨h₁, err⟩, -, hrest⟩ := bind_eq_value.mp h
        cases err with
        | some e =>
          cases hrest
          rfl
        | none => exact ih (c := { c with indices := Function.update c.indices name (some h₁) }) hrest
    · exact ih h

omit [Scalar F] in
theorem insertRest_cases (h : insertRest K c p = .value (c', e)) :
    e = none ∧ ∃ h₀, c.index = some h₀ ∧ ∃ sparseIdx,
      (match p.sparse with
        | none => sparseIdx = c.sparseIdx
        | some vec => c.sparseIdx.add ((h₀.idToIndex p.id).getD 0) vec = .value sparseIdx) ∧
      c' = { c with
        payloads := indexPoint K c.payloads ((h₀.idToIndex p.id).getD 0) p.payload
        sparseIdx := sparseIdx } := by
  unfold insertRest at h
  split at h
  · cases h
  · rename_i h₀ hindex
    cases hs : p.sparse with
    | none =>
      rw [hs] at h
      cases h
      exact ⟨rfl, h₀, hindex, c.sparseIdx, rfl, rfl⟩
    | some vec =>
      rw [hs] at h
      obtain ⟨sparseIdx, hadd, hret⟩ := bind_eq_value.mp h
      cases hret
      exact ⟨rfl, h₀, hindex, sparseIdx, hadd, rfl⟩

theorem insertInternal_keeps {I J : Collection F P D Q C S → Prop} {e : Option (Error F)}
    (hdefault : ∀ c₁ e₁, insertDefault K c p = .value (c₁, e₁) → I c₁)
    (hnamed : ∀ c₁ c₂ e₂, I c₁ → insertNamed K p.id p.payload p.namedVectors c₁ = .value (c₂, e₂) → I c₂)
    (hrest : ∀ c₁ c₂ e₂, I c₁ → insertRest K c₁ p = .value (c₂, e₂) → J c₂) (hIJ : ∀ c₁, I c₁ → J c₁)
    (h : insertInternal K c p = .value (c', e)) : J c' := by
  rcases andThen_value h with ⟨err, hdef, -⟩ | ⟨c₁, hdef, h⟩
  · exact hIJ _ (hdefault _ _ hdef)
  · have hI := hdefault _ _ hdef
    have hsecond : ∀ c₂ e₂, (if c₁.config.hasNamedVectors then
        insertNamed K p.id p.payload p.namedVectors c₁ else .value (c₁, none)) = .value (c₂, e₂) → I c₂ := by
      intro c₂ e₂ hn
      split at hn
      · exact hnamed _ _ _ hI hn
      · cases hn
        exact hI
    rcases andThen_value h with ⟨err, hn, -⟩ | ⟨c₂, hn, h⟩
    · exact hIJ _ (hsecond _ _ hn)
    · exact hrest _ _ _ (hsecond _ _ hn) h

theorem insertInternal_evolves {e : Option (Error F)} (hid : p.id ≠ [])
    (h : insertInternal K c p = .value (c', e)) : Evolves K c c' := by
  refine insertInternal_keeps (fun c₁ _ hdef => insertDefault_evolves hid hdef) (fun c₁ c₂ _ hI hn => ?_)
    (fun c₁ c₂ _ hI hrest => ?_) (fun _ hI => hI) h
  · rw [insertNamed_frame hn]
    exact hI.trans (evolves_of_eq rfl rfl)
  · obtain ⟨-, h₀, -, sparseIdx, -, rfl⟩ := insertRest_cases hrest
    exact hI.trans (evolves_of_eq rfl rfl)

omit [Scalar F] in
theorem deleteQuietly_act {h h' : Index F P Q C S} (T : Tools F D Q C S)
    (hdel : deleteQuietly h id = .value h') : ∃ e, Graph.act T h (.delete id) = .value (h', e) := by
  unfold deleteQuietly at hdel
  cases hd : Hnsw.delete h id with
  | value h₁ =>
    rw [hd] at hdel
    cases hdel
    exact ⟨none, by simp only [Graph.act, hd]⟩
  | error e =>
    rw [hd] at hdel
    cases hdel
    exact ⟨some e, by simp only [Graph.act, hd]⟩
  | panic =>
    rw [hd] at hdel
    cases hdel

theorem upsertInternal_cases (h : upsertInternal K c p = .value (c', e)) :
    ∃ h₀ h₁ h₂ err, c.index = some h₀ ∧ deleteQuietly h₀ p.id = .value h₁ ∧
      insertInto K [] h₁ { p with vector := asStored c.config.metric p.vector } =
        .value (h₂, err) ∧ e = err.map .index ∧
      c' = { c with
        index := some h₂
        sparseIdx := removeSparse h₁ c.sparseIdx p.id
        payloads := if err = none then
          indexPoint K c.payloads ((h₂.idToIndex p.id).getD 0) p.payload else c.payloads
        dispatcher := if err = none then
          c.dispatcher.publish ⟨c.config.name, .insert, p.id⟩ else c.dispatcher } := by
  unfold upsertInternal at h
  split at h
  · cases h
  · rename_i h₀ hindex
    obtain ⟨h₁, hdel, h⟩ := bind_eq_value.mp h
    obtain ⟨⟨h₂, err⟩, hins, h⟩ := bind_eq_value.mp h
    refine ⟨h₀, h₁, h₂, err, hindex, hdel, hins, ?_⟩
    cases err with
    | some e =>
      cases h
      exact ⟨rfl, rfl⟩
    | none =>
      cases h
      exact ⟨rfl, rfl⟩

theorem upsertInternal_evolves (hid : p.id ≠ []) (h : upsertInternal K c p = .value (c', e)) :
    Evolves K c c' := by
  obtain ⟨h₀, h₁, h₂, err, hindex, hdel, hins, -, rfl⟩ := upsertInternal_cases h
  obtain ⟨e', hact⟩ := deleteQuietly_act (K.tools []) hdel
  have hfirst : Evolves K c { c with index := some h₁ } :=
    evolves_of_act hindex hact nofun rfl rfl
  exact hfirst.trans (evolves_of_insert rfl hins hid rfl rfl)

variable (h : deleteInternal c id = .value (c', e))
include h

omit [Scalar F] [Distance D] in
theorem deleteInternal_cases : ∃ h₀, c.index = some h₀ ∧
      ((∃ err, Hnsw.delete h₀ id = .error err ∧ e = some (.index err) ∧ c' = c) ∨
        ∃ h₁, Hnsw.delete h₀ id = .value h₁ ∧ e = none ∧ c' = { c with
          index := some h₁
          sparseIdx := removeSparse h₁ c.sparseIdx id
          dispatcher := c.dispatcher.publish ⟨c.config.name, .delete, id⟩ }) := by
  unfold deleteInternal at h
  split at h
  · cases h
  · rename_i h₀ hindex
    refine ⟨h₀, hindex, ?_⟩
    split at h
    · cases h
    · rename_i err hdel
      cases h
      exact .inl ⟨err, hdel, rfl, rfl⟩
    · rename_i h₁ hdel
      cases h
      exact .inr ⟨h₁, hdel, rfl, rfl⟩

omit [Scalar F] in
theorem deleteInternal_evolves : Evolves K c c' := by
  obtain ⟨h₀, hindex, ⟨err, -, -, rfl⟩ | ⟨h₁, hdel, -, rfl⟩⟩ := deleteInternal_cases h
  · exact evolves_of_eq rfl rfl
  · refine evolves_of_act (a := .delete id) (e := none) hindex ?_ nofun rfl rfl
    simp only [Graph.act, hdel]

end Frames

/-! ## Every call -/

omit [Distance D] in
theorem id_ne_nil_of_validate [Scalar F] (h : p.validate = .ok ()) : p.id ≠ [] := by
  intro hnil
  unfold Point.validate at h
  rw [if_pos hnil] at h
  cases h

omit [Distance D] in
theorem id_ne_nil_of_validateV2 [Scalar F] {p : PointV2 F P} (h : p.validateV2 = .ok ()) :
    p.id ≠ [] := by
  intro hnil
  unfold PointV2.validateV2 at h
  rw [if_pos hnil] at h
  cases h

section Outer

variable {K : Kit F P D Q C S} {c c' : Collection F P D Q C S} {p : Point F P}

omit [Distance D] in
theorem logRecord_frame (c : Collection F P D Q C S) (r : Wal.Record) :
    (logRecord c r).1 = { c with wal := (logRecord c r).1.wal } := by
  unfold logRecord
  split <;> rfl

theorem logPoint_frame (c : Collection F P D Q C S) (type : Wal.RecordType) (p : Point F P) :
    (logPoint K c type p).1 = { c with wal := (logPoint K c type p).1.wal } := by
  unfold logPoint
  split
  · rfl
  · split
    · rfl
    · exact logRecord_frame ..

theorem searchWithParams_cases [Scalar F] (K : Kit F P D Q C S) (c : Collection F P D Q C S)
    (now later : ℕ) (visited : VisitedList) (query : List F) (params : SearchParams F P) :
    let key := K.searchKey c.config.name query params.K
    let looked := c.searchCache.get now key
    (params.useCache = true ∧ ∃ points, looked.2 = some points ∧
      searchWithParams K c now later visited query params =
        .value ({ c with searchCache := looked.1 }, .ok points)) ∨
    (params.useCache = true → looked.2 = none) ∧
      searchWithParams K c now later visited query params =
        match searchUncached K c visited query params with
        | .panic => .panic
        | .error e => .value ({ c with
            searchCache := if params.useCache then looked.1 else c.searchCache }, .error e)
        | .value points => .value ({ c with
            searchCache := if params.useCache then looked.1.set later key points
              else c.searchCache }, .ok points) := by
  unfold searchWithParams
  cases huse : params.useCache with
  | false => exact .inr ⟨fun h => absurd h Bool.false_ne_true, rfl⟩
  | true =>
    simp only [if_true]
    split
    · rename_i cache points hget
      exact .inl ⟨trivial, points, by rw [hget], by rw [hget]⟩
    · rename_i cache hget
      exact .inr ⟨fun _ => by rw [hget], hget ▸ rfl⟩

theorem searchWithParams_frame [Scalar F] {now later : ℕ} {visited : VisitedList} {query : List F}
    {params : SearchParams F P} {r : Except SearchError (List (ScoredPoint F P D))}
    (h : searchWithParams K c now later visited query params = .value (c', r)) :
    c' = { c with searchCache := c'.searchCache } := by
  rcases searchWithParams_cases K c now later visited query params with
    ⟨-, points, -, heq⟩ | ⟨-, heq⟩
  · rw [heq] at h
    cases h
    rfl
  · rw [heq] at h
    split at h
    · cases h
    · cases h
      rfl
    · cases h
      rfl

variable [Scalar F]

/-- **An insert** fails at the checks or the log, or does its work under the lock; only then the
    cache is cleared. -/
theorem insert_cases {e : Option (Error F)} (h : insert K c p = .value (c', e)) :
    (∃ w err, c' = { c with wal := w } ∧ e = some err) ∨
    p.validate = .ok () ∧ ∃ w c₁, insertInternal K { c with wal := w } p = .value (c₁, e) ∧
      c' = if e = none then invalidate c₁ else c₁ := by
  unfold insert at h
  split at h
  · cases h
    exact .inl ⟨c.wal, _, rfl, rfl⟩
  · rename_i hval
    have hframe := logPoint_frame (K := K) c Wal.RecordType.insert p
    split at h
    · rename_i c₀ err hlog
      cases h
      rw [hlog] at hframe
      exact .inl ⟨_, err, hframe, rfl⟩
    · rename_i c₀ hlog
      rw [hlog] at hframe
      refine .inr ⟨hval, c₀.wal, ?_⟩
      rw [← show c₀ = { c with wal := c₀.wal } from hframe]
      rcases andThen_value h with ⟨err, hint, rfl⟩ | ⟨c₁, hint, hret⟩
      · exact ⟨c', hint, rfl⟩
      · cases hret
        exact ⟨c₁, hint, rfl⟩

theorem upsert_cases {e : Option (Error F)} (h : upsert K c p = .value (c', e)) :
    (∃ w err, c' = { c with wal := w } ∧ e = some err) ∨
    p.validate = .ok () ∧ p.vector.length = c.config.dimension ∧
      ∃ w, upsertInternal K { c with wal := w } p = .value (c', e) := by
  unfold upsert at h
  split at h
  · cases h
    exact .inl ⟨c.wal, _, rfl, rfl⟩
  · rename_i hval
    split at h
    · cases h
      exact .inl ⟨c.wal, _, rfl, rfl⟩
    · rename_i hdim
      have hframe := logPoint_frame (K := K) c Wal.RecordType.update p
      split at h
      · rename_i c₀ err hlog
        cases h
        rw [hlog] at hframe
        exact .inl ⟨_, err, hframe, rfl⟩
      · rename_i c₀ hlog
        rw [hlog] at hframe
        refine .inr ⟨hval, not_not.mp hdim, c₀.wal, ?_⟩
        rwa [← show c₀ = { c with wal := c₀.wal } from hframe]

omit [Scalar F] [Distance D] in
theorem delete_cases {id : Bytes} {e : Option (Error F)} (h : delete c id = .value (c', e)) :
    (∃ w err, c' = { c with wal := w } ∧ e = some err) ∨
    ∃ w c₁, deleteInternal { c with wal := w } id = .value (c₁, e) ∧
      c' = if e = none then invalidate c₁ else c₁ := by
  unfold delete at h
  have hframe := logRecord_frame c (Collection.record Wal.RecordType.delete c.config.name id)
  split at h
  · rename_i c₀ err hlog
    cases h
    rw [hlog] at hframe
    exact .inl ⟨_, err, hframe, rfl⟩
  · rename_i c₀ hlog
    rw [hlog] at hframe
    refine .inr ⟨c₀.wal, ?_⟩
    rw [← show c₀ = { c with wal := c₀.wal } from hframe]
    rcases andThen_value h with ⟨err, hint, rfl⟩ | ⟨c₁, hint, hret⟩
    · exact ⟨c', hint, rfl⟩
    · cases hret
      exact ⟨c₁, hint, rfl⟩

def accepted (cfg : Config) (p : Point F P) : Bool :=
  p.validate.toBool && decide (p.vector.length = cfg.dimension)

omit [Distance D] in
theorem accepted_iff {cfg : Config} :
    accepted cfg p = true ↔ p.validate = .ok () ∧ p.vector.length = cfg.dimension := by
  unfold accepted
  cases hval : p.validate with
  | ok u => simp [Except.toBool]
  | error e => simp [Except.toBool]

omit [Distance D] in
theorem checkBatch_cons (cfg : Config) (p : Point F P) (ps : List (Point F P)) (r : BatchResult F) :
    accepted cfg p = true ∧
      checkBatch cfg (p :: ps) r = (p :: (checkBatch cfg ps r).1, (checkBatch cfg ps r).2) ∨
    accepted cfg p = false ∧
      ∃ e, checkBatch cfg (p :: ps) r = checkBatch cfg ps (r.fail p.id e) := by
  rw [checkBatch]
  cases hval : p.validate with
  | error e => exact .inr ⟨by simp [accepted, hval, Except.toBool], _, rfl⟩
  | ok u =>
    by_cases hdim : p.vector.length = cfg.dimension
    · exact .inl ⟨accepted_iff.mpr ⟨hval, hdim⟩, if_neg (not_not.mpr hdim)⟩
    · exact .inr ⟨by simp [accepted, hdim], _, if_pos hdim⟩

theorem checkBatch_fst (cfg : Config) (ps : List (Point F P)) (r : BatchResult F) :
    (checkBatch cfg ps r).1 = ps.filter (accepted cfg) := by
  induction ps generalizing r with
  | nil => rfl
  | cons p ps ih =>
    rcases checkBatch_cons cfg p ps r with ⟨hacc, heq⟩ | ⟨hnot, e, heq⟩
    · rw [heq, filter_cons_of_pos hacc, ih]
    · rw [heq, filter_cons_of_neg (by simp [hnot]), ih]

/-- The result with the serialisation of step 2, and its error. -/
def batchLog (K : Kit F P D Q C S) (c : Collection F P D Q C S) (valid : List (Point F P))
    (r : BatchResult F) : Option Log × BatchResult F × Option (Error F) :=
  match c.wal, valid with
  | some w, _ :: _ =>
    let (records, r) := LimyeDB.Collection.serializeBatch K.codec c.config.name valid r
    let (w, ok) := w.write records
    (some w, r, if ok then none else some .walBatchWrite)
  | wal, _ => (wal, r, none)

theorem insertBatch_eq (ps : List (Point F P)) (hne : ps ≠ []) :
    let checked := checkBatch c.config ps ⟨ps.length, 0, 0, []⟩
    let logged := batchLog K c checked.1 checked.2
    insertBatch K c ps = match logged.2.2 with
      | some e => .value ({ c with wal := logged.1 }, logged.2.1, some e)
      | none => do
        let (c, r) ← applyBatch K checked.1 { c with wal := logged.1 } logged.2.1
        return (invalidate c, r, none) := by
  unfold insertBatch batchLog
  simp only [hne, if_false]
  cases hw : c.wal with
  | none =>
    simp only
    rw [← hw]
  | some w =>
    cases hv : (checkBatch c.config ps ⟨ps.length, 0, 0, []⟩).1 with
    | nil =>
      simp only
      rw [← hw]
    | cons p valid => rfl

variable {e : Option (VectorError F)}

omit [Scalar F] in
theorem insertVector_cases {name : Bytes} {h₀ : Index F P Q C S}
    (h : insertVector K c name h₀ p = .value (c', e)) :
    ∃ h₁ err, insertInto K name h₀ p = .value (h₁, err) ∧
      c' = { c with indices := Function.update c.indices name (some h₁) } ∧ e = otherError err := by
  obtain ⟨⟨h₁, err⟩, hins, hret⟩ := bind_eq_value.mp h
  injection hret with hret
  obtain ⟨rfl, rfl⟩ := Prod.mk.inj hret
  exact ⟨h₁, err, hins, rfl, rfl⟩

theorem insertVectors_frame {vectors : List (Bytes × List F)}
    (h : insertVectors K p vectors c = .value (c', e)) : c' = { c with indices := c'.indices } := by
  induction vectors generalizing c with
  | nil =>
    cases h
    rfl
  | cons nv vectors ih =>
    obtain ⟨name, vec⟩ := nv
    unfold insertVectors at h
    split at h
    · cases h
      rfl
    · split at h
      · cases h
        rfl
      · split at h
        · cases h
          rfl
        · rcases andThen_value h with ⟨err, hins, -⟩ | ⟨c₁, hins, hrest⟩
          · obtain ⟨h₁, err', -, rfl, -⟩ := insertVector_cases hins
            rfl
          · obtain ⟨h₁, err', -, rfl, -⟩ := insertVector_cases hins
            exact ih (c := { c with indices := Function.update c.indices name (some h₁) }) hrest

omit [Scalar F] in
theorem insertDefaultVector_frame (h : insertDefaultVector K p c = .value (c', e)) :
    c' = { c with indices := c'.indices } := by
  unfold insertDefaultVector at h
  split at h
  · cases h
    rfl
  · split at h
    · cases h
      rfl
    · obtain ⟨h₁, err, -, rfl, -⟩ := insertVector_cases h
      rfl

omit [Scalar F] in
theorem indexPayloadV2_frame (names : List Bytes) (p : PointV2 F P) (c : Collection F P D Q C S) :
    indexPayloadV2 K names p c = { c with payloads := (indexPayloadV2 K names p c).payloads } := by
  unfold indexPayloadV2
  split <;> rfl

theorem insertLegacy_cases (h : insertLegacy K c p = .value (c', e)) : c' = c ∨
    ∃ vec h₀ h₁ err payloads, PointV2.defaultVector p = some vec ∧
      vec.length = c.config.dimension ∧ c.index = some h₀ ∧
      insertInto K [] h₀ { p with vector := asStored c.config.metric vec } = .value (h₁, err) ∧
      c' = { c with index := some h₁, payloads := payloads } := by
  unfold insertLegacy at h
  split at h
  · cases h
    exact .inl rfl
  · rename_i vec hvec
    split at h
    · cases h
      exact .inl rfl
    · rename_i hdim
      split at h
      · cases h
      · rename_i h₀ hindex
        obtain ⟨⟨h₁, err⟩, hins, h⟩ := bind_eq_value.mp h
        cases err <;> cases h <;> exact .inr ⟨vec, h₀, h₁, _, _, hvec, not_not.mp hdim, hindex, hins, rfl⟩

theorem insertLegacy_evolves (hid : p.id ≠ []) (h : insertLegacy K c p = .value (c', e)) :
    Evolves K c c' := by
  rcases insertLegacy_cases h with rfl | ⟨vec, h₀, h₁, err, payloads, -, -, hindex, hins, rfl⟩
  · exact evolves_of_eq rfl rfl
  · exact evolves_of_insert hindex hins hid rfl rfl

theorem insertV2_keeps {names : List Bytes} {I : Collection F P D Q C S → Prop} (hI : I c)
    (hvectors : ∀ c₁ e₁, insertVectors K p p.namedVectors c = .value (c₁, e₁) → I c₁)
    (hdefault : ∀ c₁ c₂ e₂, I c₁ → insertDefaultVector K p c₁ = .value (c₂, e₂) → I c₂)
    (hpayload : ∀ c₁ payloads, I c₁ → I { c₁ with payloads := payloads })
    (hlegacy : p.id ≠ [] → insertLegacy K c p = .value (c', e) → I c')
    (h : insertV2 K c names p = .value (c', e)) : I c' := by
  unfold insertV2 at h
  split at h
  · cases h
    exact hI
  · rename_i hval
    split at h
    · rcases andThen_value h with ⟨err, hvec, -⟩ | ⟨c₁, hvec, h⟩
      · exact hvectors _ _ hvec
      · rcases andThen_value h with ⟨err, hdef, -⟩ | ⟨c₂, hdef, hret⟩
        · exact hdefault _ _ _ (hvectors _ _ hvec) hdef
        · cases hret
          rw [indexPayloadV2_frame]
          exact hpayload _ _ (hdefault _ _ _ (hvectors _ _ hvec) hdef)
    · exact hlegacy (id_ne_nil_of_validateV2 hval) h

theorem insertV2_evolves {names : List Bytes} (h : insertV2 K c names p = .value (c', e)) :
    Evolves K c c' := by
  refine insertV2_keeps (evolves_of_eq rfl rfl) (fun c₁ _ hvec => ?_) (fun c₁ c₂ _ hI hdef => ?_)
    (fun _ _ hI => hI.trans (evolves_of_eq rfl rfl)) (fun hid hleg => insertLegacy_evolves hid hleg) h
  · rw [insertVectors_frame hvec]
    exact evolves_of_eq rfl rfl
  · rw [insertDefaultVector_frame hdef]
    exact hI.trans (evolves_of_eq rfl rfl)

/-! ## The rule for calls -/

/-- What the steps under the lock keep, and the changes of log and cache around them. -/
structure Kept (K : Kit F P D Q C S) (I : Collection F P D Q C S → Prop) : Prop where
  frame : ∀ c w cache, I c → I { c with wal := w, searchCache := cache }
  insert : ∀ c p c' e, I c → p.validate = .ok () → insertInternal K c p = .value (c', e) → I c'
  insertV2 : ∀ c names p c' e, I c → insertV2 K c names p = .value (c', e) → I c'
  upsert : ∀ c p c' e, I c → p.validate = .ok () → upsertInternal K c p = .value (c', e) → I c'
  delete : ∀ c id c' e, I c → deleteInternal c id = .value (c', e) → I c'
  setEfSearch : ∀ c h ef, I c → c.index = some h →
    I { c with index := some (Graph.setEfSearch h ef) }

section Kept

variable {I : Collection F P D Q C S → Prop}

variable (hk : Kept K I)
include hk

theorem Kept.applyBatch {ps : List (Point F P)} {r r' : BatchResult F}
    (hps : ∀ p ∈ ps, p.validate = .ok ()) (hI : I c)
    (happ : applyBatch K ps c r = .value (c', r')) : I c' := by
  induction ps generalizing c r with
  | nil =>
    cases happ
    exact hI
  | cons p ps ih =>
    obtain ⟨⟨c₁, err⟩, hins, hrest⟩ := bind_eq_value.mp happ
    have hfirst := hk.insert c p c₁ err hI (hps p mem_cons_self) hins
    have hps' := (forall_mem_cons.mp hps).2
    cases err with
    | some e => exact ih hps' hfirst hrest
    | none => exact ih hps' hfirst hrest

theorem Kept.insertBatch {ps : List (Point F P)} {r : BatchResult F}
    {e : Option (Error F)} (hI : I c) (h : insertBatch K c ps = .value (c', r, e)) : I c' := by
  by_cases hne : ps = []
  · unfold Hybrid.insertBatch at h
    rw [if_pos hne] at h
    cases h
    exact hI
  · rw [insertBatch_eq ps hne] at h
    split at h
    · cases h
      exact hk.frame c _ _ hI
    · obtain ⟨⟨c₁, r₁⟩, happ, hret⟩ := bind_eq_value.mp h
      cases hret
      refine hk.frame c₁ _ _ (hk.applyBatch (fun p hp => ?_) (hk.frame c _ _ hI) happ)
      rw [checkBatch_fst, mem_filter, accepted_iff] at hp
      exact hp.2.1

theorem Kept.call {x : Call F P} {reply : Reply F P D} (hI : I c)
    (h : call K c x = .value (c', reply)) : I c' := by
  have hwal : ∀ w, I { c with wal := w } := fun w => hk.frame c w c.searchCache hI
  cases called h with
  | insert hcall =>
    rcases insert_cases hcall with ⟨w, err, rfl, -⟩ | ⟨hval, w, c₂, hint, rfl⟩
    · exact hwal w
    · have hdone := hk.insert _ _ c₂ _ (hwal w) hval hint
      split
      · exact hk.frame c₂ _ _ hdone
      · exact hdone
  | insertBatch hcall =>
    exact hk.insertBatch hI hcall
  | insertV2 hcall =>
    exact hk.insertV2 c _ _ c' _ hI hcall
  | upsert hcall =>
    rcases upsert_cases hcall with ⟨w, err, rfl, -⟩ | ⟨hval, -, w, hint⟩
    · exact hwal w
    · exact hk.upsert _ _ c' _ (hwal w) hval hint
  | delete hcall =>
    rcases delete_cases hcall with ⟨w, err, rfl, -⟩ | ⟨w, c₂, hint, rfl⟩
    · exact hwal w
    · have hdone := hk.delete _ _ c₂ _ (hwal w) hint
      split
      · exact hk.frame c₂ _ _ hdone
      · exact hdone
  | search hcall =>
    rw [searchWithParams_frame hcall]
    exact hk.frame c _ _ hI
  | setWAL => exact hwal _
  | setEfSearch hindex => exact hk.setEfSearch c _ _ hI hindex

theorem Kept.run {xs : List (Call F P)} (hI : I c) (hrun : run (step K) c xs = some c') : I c' := by
  refine run_induct (fun s x s' hs hstep => ?_) hI hrun
  obtain ⟨reply, hcall⟩ := call_of_step hstep
  exact hk.call hs hcall

end Kept

theorem kept_evolves (c₀ : Collection F P D Q C S) : Kept K (Evolves K c₀) where
  frame _ _ _ hI := hI.trans (evolves_of_eq rfl rfl)
  insert _ _ _ _ hI hval hins :=
    hI.trans (insertInternal_evolves (id_ne_nil_of_validate hval) hins)
  insertV2 _ _ _ _ _ hI hins := hI.trans (insertV2_evolves hins)
  upsert _ _ _ _ hI hval hups :=
    hI.trans (upsertInternal_evolves (id_ne_nil_of_validate hval) hups)
  delete _ _ _ _ hI hdel := hI.trans (deleteInternal_evolves hdel)
  setEfSearch _ _ ef hI hindex := hI.trans
    (evolves_of_act (a := .setEfSearch ef) hindex rfl nofun rfl rfl)

theorem call_evolves {x : Call F P} {reply : Reply F P D}
    (h : call K c x = .value (c', reply)) : Evolves K c c' :=
  (kept_evolves c).call (evolves_of_eq rfl rfl) h

theorem run_evolves {xs : List (Call F P)} (h : run (step K) c xs = some c') : Evolves K c c' :=
  (kept_evolves c).run (evolves_of_eq rfl rfl) h

end Outer

/-! ## Points with ids -/

/-- Every place has a node, ids and nodes are inverse to each other, and no id is empty. -/
structure Listed (h : Index F P Q C S) : Prop where
  indexed : Indexed h
  node : ∀ i < h.nodes.length, Exists h i
  named : ∀ node, some node ∈ h.nodes → node.id ≠ []

section Listed

variable {T : Tools F D Q C S} {h h' : Index F P Q C S}

theorem Listed.inserted (hl : Listed h) {e : Option IndexError}
    (hi : Graph.Inserted T h p h' e) (hid : p.id ≠ []) : Listed h' := by
  refine ⟨hi.indexed hl.indexed, ?_, ?_⟩
  · cases e with
    | some err =>
      intro i
      unfold Graph.Exists
      rw [hi.idle.nodes]
      exact hl.node i
    | none =>
      intro i hlt
      unfold Graph.Exists
      rw [hi.store.2.2.2.1, length_append, length_singleton] at *
      rcases Nat.lt_or_eq_of_le (Nat.le_of_lt_succ hlt) with hlt | rfl
      · rw [getElem?_append_left hlt]
        exact hl.node i hlt
      · exact ⟨_, getElem?_concat_length⟩
  · cases e with
    | some err =>
      rw [hi.idle.nodes]
      exact hl.named
    | none =>
      rw [hi.store.2.2.2.1]
      intro node hnode
      rcases mem_append.mp hnode with hnode | hnode
      · exact hl.named node hnode
      · cases mem_singleton.mp hnode
        rwa [newNode_id]

omit [Distance D] in
theorem Listed.deleted (hl : Listed h) {id : Bytes} (hdel : Hnsw.delete h id = .value h') :
    Listed h' := by
  obtain ⟨i, node, -, hnode, ⟨-, rfl⟩ | ⟨-, rfl⟩⟩ := Graph.marked_of_delete hdel
  · exact hl
  · refine ⟨Graph.indexed_marked hl.indexed hnode, fun j hj => ?_, fun node' hnode' => ?_⟩
    · rw [Graph.exists_iff, Graph.levelAt_marked hnode, ← Graph.exists_iff]
      exact hl.node j (length_set ▸ hj)
    · rcases mem_or_eq_of_mem_set hnode' with hmem | heq
      · exact hl.named node' hmem
      · cases heq
        exact hl.named node (mem_of_getElem? hnode)

theorem Listed.act (hl : Listed h) {a : Action F P} {e : Option IndexError}
    (hact : Graph.act T h a = .value (h', e))
    (hid : ∀ p visited, a = .insert p visited → p.id ≠ []) : Listed h' := by
  cases a with
  | insert p visited => exact hl.inserted (Graph.insert_cases hact) (hid p visited rfl)
  | delete id =>
    unfold Graph.act at hact
    simp only at hact
    split at hact
    · rename_i hdel
      cases hact
      exact hl.deleted hdel
    · cases hact
      exact hl
    · cases hact
  | setEfSearch ef =>
    cases hact
    exact ⟨hl.indexed, hl.node, hl.named⟩

theorem Listed.run (hl : Listed h) {actions : List (Action F P)}
    (hids : ∀ p visited, Action.insert p visited ∈ actions → p.id ≠ [])
    (hrun : run (Graph.step T) h actions = some h') : Listed h' := by
  induction actions generalizing h with
  | nil =>
    cases hrun
    exact hl
  | cons a actions ih =>
    obtain ⟨h₁, hstep, hrun⟩ := run_cons.mp hrun
    obtain ⟨e, hact⟩ := Graph.act_of_step hstep
    refine ih (hl.act hact fun p visited heq => hids p visited (heq ▸ mem_cons_self)) ?_ hrun
    exact fun p visited hmem => hids p visited (mem_cons_of_mem _ hmem)

theorem listed_of_evolves {K : Kit F P D Q C S} {c c' : Collection F P D Q C S}
    (hev : Evolves K c c') (hindex : c.index = some h) (hl : Listed h) :
    ∃ h', c'.index = some h' ∧ Listed h' := by
  obtain ⟨h', actions, hindex', hrun, hids⟩ := hev.some h hindex
  exact ⟨h', hindex', hl.run hids hrun⟩

theorem listed_new {cfg : Graph.Config} {rng : Stream' ℕ} {quantizer : Option Q}
    {links : Graph.Links} {vectorMmap : Option S}
    (hnew : Graph.new cfg rng quantizer links vectorMmap = .ok h) : Listed h := by
  rw [Graph.new_eq hnew]
  refine ⟨fun id i => by simp, fun i hi => absurd hi (Nat.not_lt_zero i), fun node hnode => ?_⟩
  exact absurd hnode not_mem_nil

end Listed

/-! ## From New on -/

section New

variable {cfg : Config} {parts : Bytes → Parts Q S} {payloads : ℕ → Option P}
  {dispatcher : Dispatcher} {c₀ c : Collection F P D Q C S}

variable (hnew : new cfg parts payloads dispatcher = .ok c₀)
include hnew

omit [Distance D] in
theorem new_single
    (hsingle : cfg.hasNamedVectors = false) : cfg.validate = .ok () ∧ ∃ h₀ : Index F P Q C S,
      Graph.new ⟨cfg.M, cfg.efConstruction, cfg.efSearch, cfg.dimension⟩ (parts []).rng
        (parts []).quantizer (parts []).links (parts []).vectorMmap = .ok h₀ ∧
      c₀ = { config := cfg, index := some h₀, indices := fun _ => none, payloads := payloads
             sparseIdx := .new, searchCache := Cache.new 10000 300, wal := none
             dispatcher := dispatcher } := by
  unfold new at hnew
  split at hnew
  · cases hnew
  · rename_i hval
    rw [hsingle] at hnew
    simp only [Bool.false_eq_true, if_false, newIndex] at hnew
    split at hnew
    · cases hnew
    · rename_i h₀ hindex
      cases hnew
      exact ⟨hval, h₀, hindex, rfl⟩

omit [Distance D] hnew in
theorem dimension_ne_zero (hval : cfg.validate = .ok ()) (hsingle : cfg.hasNamedVectors = false) :
    cfg.dimension ≠ 0 := by
  intro hzero
  have hvectors : cfg.vectors = [] := by
    unfold Config.hasNamedVectors at hsingle
    simpa using hsingle
  unfold Config.validate at hval
  simp only [hvectors, ne_eq, not_true, if_false, hzero, Config.badDimension] at hval
  split at hval
  · cases hval
  · cases hval

omit [Distance D] in
theorem new_named (hnamed : cfg.hasNamedVectors = true) : cfg.validate = .ok () ∧ ∃ indices,
      newIndices parts cfg.vectors = .ok indices ∧
      c₀ = { config := cfg, index := none, indices := indices, payloads := payloads
             sparseIdx := .new, searchCache := Cache.new 10000 300, wal := none
             dispatcher := dispatcher } := by
  unfold new at hnew
  split at hnew
  · cases hnew
  · rename_i hval
    rw [hnamed, if_pos rfl] at hnew
    cases hind : (newIndices parts cfg.vectors :
        Except NewError (Bytes → Option (Index F P Q C S))) with
    | error e =>
      rw [hind] at hnew
      cases hnew
    | ok indices =>
      rw [hind] at hnew
      cases hnew
      exact ⟨hval, indices, rfl, rfl⟩

omit [Distance D] in
theorem new_eq :
    c₀ = { config := cfg, index := c₀.index, indices := c₀.indices, payloads := payloads
           sparseIdx := .new, searchCache := Cache.new 10000 300, wal := none
           dispatcher := dispatcher } := by
  cases hlayout : cfg.hasNamedVectors with
  | true =>
    obtain ⟨-, indices, -, rfl⟩ := new_named hnew hlayout
    rfl
  | false =>
    obtain ⟨-, h₀, -, rfl⟩ := new_single hnew hlayout
    rfl

omit [Distance D] in
theorem new_config : c₀.config = cfg := by
  rw [new_eq hnew]

/-- **In every history of a single-vector collection** the default index is there, and its points
    have ids. -/
theorem listed_of_run [Scalar F] {K : Kit F P D Q C S} {xs : List (Call F P)}
    (hsingle : cfg.hasNamedVectors = false) (hrun : run (step K) c₀ xs = some c) :
    c.config = cfg ∧ ∃ h, c.index = some h ∧ Listed h := by
  obtain ⟨-, h₀, hindex, rfl⟩ := new_single hnew hsingle
  have hev := run_evolves hrun
  exact ⟨hev.config, listed_of_evolves hev rfl (listed_new hindex)⟩

end New

/-! ## Points on a line -/

/-- Vectors of one number, as in `Graph.line`. The key of a search is its query and `k` in unary. -/
def lineKit : Kit ℕ ℕ ℕ Unit Unit Unit where
  plus := (· + ·)
  times := (· * ·)
  similarity d := 100 - d
  reciprocal rank := 100 - rank
  sortDocs l := l.insertionSort fun a b => b.score ≤ a.score
  sortHybrid l := l.insertionSort fun a b => b.finalScore ≤ a.finalScore
  sortDocs_perm l := perm_insertionSort _ l
  sortHybrid_perm l := perm_insertionSort _ l
  tools _ := Graph.line
  pool _ _ _ := .new 8
  codec := ⟨fun p => .ok (p.id ++ p.vector.map UInt8.ofNat), fun _ => .error "not used"⟩
  blank _ := false
  searchKey _ query k :=
    (query.flatMap fun x => replicate x 1 ++ [0]) ++ 2 :: (if k < 0 then 3 else 4) ::
      replicate k.natAbs 1

def lineConfig : Config := ⟨[99], 1, .known .euclidean, 2, 10, 10, []⟩

def lineParts (_ : Bytes) : Parts Unit Unit := ⟨Stream'.const 0, none, .empty, none⟩

def freeDispatcher : Dispatcher := ⟨[], Stream'.const false⟩

def lineCollection : Collection ℕ ℕ ℕ Unit Unit Unit where
  config := lineConfig
  index := some
    { M := 2, Mmax := 2, efSearch := 10, maxLevel := -1, nodes := [], entryPoint := 0, nodeCount := 0
      dimension := 1, idToIndex := fun _ => none, deletedCount := 0, rng := Stream'.const 0
      graph := ⟨4, 10, none, fun _ => none, .empty⟩, vectorMmap := none }
  indices _ := none
  payloads _ := none
  sparseIdx := .new
  searchCache := Cache.new 10000 300
  wal := none
  dispatcher := freeDispatcher

theorem lineCollection_new :
    new lineConfig lineParts (fun _ => none) freeDispatcher = .ok lineCollection := rfl

def linePoint (id : UInt8) (x : ℕ) (payload : Option ℕ) (sparse : Option (SparseVector ℕ)) :
    Point ℕ ℕ :=
  ⟨[id], [x], payload, [], sparse⟩

end LimyeDB.Hybrid
