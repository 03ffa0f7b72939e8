/-
  THE LEADER AND ITS LOG (api/rest, pkg/cluster/raft.go): the requests that change collections and points, the
  entries they leave in the Raft log, and a replica that applies this log from the start.
-/
import LimyeDB.Cluster.Fsm

namespace LimyeDB.Cluster

open Go Hnsw Hybrid Server Lib.Runs Lib.WriteOnce List Outcome AList Option
open LimyeDB.Graph (Distance)
open LimyeDB.Collection (Log validateName)
open LimyeDB.Snapshot (PointData)

variable {F P D Q C S J : Type} [Scalar F] [Distance D]

/-! ## What a log says -/

abbrev Db (F P : Type) := AList fun _ : Bytes => Hybrid.Config × Points F P

namespace Db

def update (A : Db F P) (name : Bytes) (f : Hybrid.Config → Points F P → Points F P) : Db F P :=
  match A.lookup name with
  | none => A
  | some (cfg, t) => A.insert name (cfg, f cfg t)

def create (limit : ℕ) (A : Db F P) (cfg : Hybrid.Config) : Db F P :=
  if validateName cfg.name ∧ cfg.name ∉ A ∧ A.keys.length < limit ∧ (applyDefaults cfg).makes then
    A.insert cfg.name (applyDefaults cfg, .empty)
  else A

def delete (A : Db F P) (name : Bytes) : Db F P :=
  if validateName name ∧ name ∈ A then A.erase name else A

def apply (limit : ℕ) (A : Db F P) : Command F P → Db F P
  | .createCollection cfg => A.create limit cfg
  | .deleteCollection name => A.delete name
  | .upsertPoints name points => A.update name fun cfg t => putPoints cfg t points
  | .deletePoints name ids => A.update name fun _ t => dropPoints t ids
  | _ => A

end Db

/-- The command of a single-vector server: no named vectors, and no sparse vector with values
    missing. -/
def Command.Plain : Command F P → Prop
  | .createCollection cfg => cfg.vectors = []
  | .upsertPoints _ points => ∀ p ∈ points, Readable p
  | _ => True

/-- What is written as a plain command reads as one. -/
def Transport.Plain {E : Type} (T : Transport F P E) : Prop :=
  ∀ cmd entry cmd', cmd.Plain → T.marshal cmd = some entry → T.unmarshal entry = some cmd' →
    cmd'.Plain

def logDb {E : Type} (T : Transport F P E) (limit : ℕ) (log : List E) : Db F P :=
  (log.filterMap T.unmarshal).foldl (Db.apply limit) ∅

/-- The graphs of new collections are linked in memory, their quantizers encode what they get, and vector files
    keep it. -/
structure MemorySite (W : Site F P D Q C S J) : Prop where
  links : ∀ n, (W.parts n []).links = .empty
  encodes : ∀ n cfg, ((W.kit cfg).tools []).Encodes (W.parts n []).quantizer
  files : ∀ n cfg s, (W.parts n []).vectorMmap = some s → ((W.kit cfg).tools []).mmap.Reliable s

structure Pictures (W : Site F P D Q C S J) (limit : ℕ) (m : Manager F P D Q C S) (A : Db F P) :
    Prop where
  limit : m.maxCollections = limit
  sound : Sound m.wal
  keys : m.collections.keys.Perm A.keys
  entry : ∀ name e, m.collections.lookup name = some e → ∃ t,
    A.lookup name = some (e.coll.config, t) ∧ ShowsTable (W.kit e.coll.config) e.coll t

section Pictures

variable {W : Site F P D Q C S J} {limit : ℕ} {m m' : Manager F P D Q C S} {A : Db F P}

variable (h : Pictures W limit m A)
include h

omit [Scalar F] in
theorem Pictures.lookup (name : Bytes) : m.collections.lookup name = none ∧ A.lookup name = none ∨
    ∃ e t, m.collections.lookup name = some e ∧ A.lookup name = some (e.coll.config, t) ∧
      ShowsTable (W.kit e.coll.config) e.coll t := by
  cases hlook : m.collections.lookup name with
  | none =>
    left
    refine ⟨rfl, lookup_eq_none.mpr ?_⟩
    rw [AList.mem_keys, ← h.keys.mem_iff, ← AList.mem_keys]
    exact lookup_eq_none.mp hlook
  | some e =>
    right
    obtain ⟨t, ht, hshows⟩ := h.entry name e hlook
    exact ⟨e, t, rfl, ht, hshows⟩

omit [Scalar F]

theorem Pictures.exist_iff (name : Bytes) : m.exist name = true ↔ name ∈ A := by
  unfold Manager.exist
  rw [AList.lookup_isSome, AList.mem_keys, AList.mem_keys, h.keys.mem_iff]

variable {e : Entry F P D Q C S} {t : Points F P}

theorem Pictures.insert {name : Bytes}
    (hcollections : m'.collections = m.collections.insert name e)
    (hlimit : m'.maxCollections = m.maxCollections) (hsound : Sound m'.wal)
    (hshows : ShowsTable (W.kit e.coll.config) e.coll t) :
    Pictures W limit m' (A.insert name (e.coll.config, t)) where
  limit := hlimit.trans h.limit
  sound := hsound
  keys := by
    rw [hcollections, keys_insert, keys_insert]
    exact (@List.Perm.erase _ instBEqOfDecidableEq inferInstance name _ _ h.keys).cons name
  entry := by
    intro n e' he'
    rw [hcollections] at he'
    by_cases hn : n = name
    · subst hn
      rw [lookup_insert] at he' ⊢
      cases he'
      exact ⟨t, rfl, hshows⟩
    · rw [lookup_insert_ne hn] at he' ⊢
      exact h.entry n e' he'

theorem Pictures.keep {name : Bytes}
    {c : Hybrid.Collection F P D Q C S}
    (hturned : Turned (W.kit e.coll.config) (m.lend e) c t) :
    Pictures W limit (m.keep name e c) (A.insert name (e.coll.config, t)) := by
  have hconfig : c.config = e.coll.config := hturned.config
  have hshows : ShowsTable (W.kit c.config) { c with wal := none } t :=
    ⟨hturned.single, hconfig ▸ hturned.index⟩
  rw [← hconfig]
  refine h.insert (e := { e with coll := { c with wal := none } }) rfl rfl ?_ hshows
  show Sound (if e.logged then c.wal else m.wal)
  split
  · exact hturned.sound
  · exact h.sound

theorem Pictures.lend (hshows : ShowsTable (W.kit e.coll.config) e.coll t) :
    Ready (W.kit e.coll.config) (m.lend e) t := by
  refine ⟨⟨hshows.single, hshows.index⟩, ?_⟩
  show Sound (if e.logged then m.wal else none)
  split
  · exact h.sound
  · intro w hw
    cases hw

theorem Pictures.on {α : Type} (name : Bytes)
    {f : Hybrid.Collection F P D Q C S → Outcome Empty (Hybrid.Collection F P D Q C S × α)}
    {g : Hybrid.Config → Points F P → Points F P}
    (hf : ∀ c t, Ready (W.kit c.config) c t → ∃ c' a, f c = .value (c', a) ∧
      Turned (W.kit c.config) c c' (g c.config t)) :
    ∃ m' a, m.on name f = .value (m', a) ∧ Pictures W limit m' (A.update name g) := by
  unfold Manager.on Db.update
  rcases h.lookup name with ⟨hnone, hA⟩ | ⟨e, t, hsome, hA, hshows⟩
  · simp only [hnone, hA]
    exact ⟨m, none, rfl, h⟩
  · obtain ⟨c', a, hcall, hturned⟩ := hf (m.lend e) t (h.lend hshows)
    simp only [hsome, hA, hcall, value_bind, pure_eq]
    exact ⟨_, _, rfl, h.keep hturned⟩

theorem Pictures.same {J' : Type} {W' : Site F P D Q C S J'}
    (h' : Pictures W' limit m' A) : SameContents W m W' m' := by
  refine ⟨fun name => ?_, fun name id => ?_⟩
  · rcases h.lookup name with ⟨hnone, hA⟩ | ⟨e, t, hsome, hA, -⟩ <;>
      rcases h'.lookup name with ⟨hnone', hA'⟩ | ⟨e', t', hsome', hA', -⟩
    · rw [hnone, hnone']
    · cases hA.symm.trans hA'
    · cases hA.symm.trans hA'
    · obtain ⟨hconfig, -⟩ := Prod.mk.inj (some.inj (hA.symm.trans hA'))
      rw [hsome, hsome', map_some, map_some, hconfig]
  · unfold Manager.getPoint
    rcases h.lookup name with ⟨hnone, hA⟩ | ⟨e, t, hsome, hA, hshows⟩ <;>
      rcases h'.lookup name with ⟨hnone', hA'⟩ | ⟨e', t', hsome', hA', hshows'⟩
    · rw [hnone, hnone']
      rfl
    · cases hA.symm.trans hA'
    · cases hA.symm.trans hA'
    · obtain ⟨-, rfl⟩ := Prod.mk.inj (some.inj (hA.symm.trans hA'))
      rw [hsome, hsome', map_some, map_some, hshows.get_eq, hshows'.get_eq]

theorem Pictures.length_eq : m.collections.entries.length = A.keys.length := by
  rw [← h.keys.length_eq]
  exact (length_map _).symm

end Pictures

/-! ## A machine applies a log -/

section Apply

variable {W : Site F P D Q C S J} {limit : ℕ} {A : Db F P} {f : FSM F P D Q C S}

omit [Scalar F] in
theorem ready_deleteEach {K : Kit F P D Q C S} {c : Hybrid.Collection F P D Q C S}
    {t : Points F P} (hr : Ready K c t) (ids : List Bytes) :
    ∃ c' n, deleteEach c ids = .value (c', n) ∧ Turned K c c' (dropPoints t ids) := by
  induction ids generalizing c t with
  | nil => exact ⟨c, 0, rfl, ⟨hr, rfl⟩⟩
  | cons id ids ih =>
    obtain ⟨c₁, e, hdel, hturned⟩ := hr.delete id
    obtain ⟨c', n, hrest, hturned'⟩ := ih hturned.toReady
    simp only [deleteEach, hdel, value_bind, hrest, pure_eq]
    exact ⟨c', _, rfl, ⟨hturned'.toReady, hturned'.config.trans hturned.config⟩⟩

omit [Scalar F] in
theorem Pictures.create {m : Manager F P D Q C S} (h : Pictures W limit m A) (hW : MemorySite W)
    {cfg : Hybrid.Config} (hvectors : cfg.vectors = []) :
    Pictures W limit (m.create W cfg).1 (A.create limit cfg) := by
  have hsingle : (applyDefaults cfg).hasNamedVectors = false := by
    simp [Hybrid.Config.hasNamedVectors, applyDefaults, hvectors]
  unfold Db.create
  rcases m.create_cases W cfg with ⟨disk, made, e, hnot, -, heq⟩ | ⟨c, hcreates, heq⟩
  · have hrefused : ¬ (validateName cfg.name ∧ cfg.name ∉ A ∧ A.keys.length < limit ∧
        (applyDefaults cfg).makes) := by
      intro ⟨hname, hexist, hroom, hmakes⟩
      obtain ⟨c, hnew⟩ := (new_ok_iff hsingle).mpr hmakes
      rw [← h.exist_iff] at hexist
      rw [← h.length_eq, ← h.limit] at hroom
      exact hnot c ⟨hname, hexist, hroom, hnew⟩
    rw [if_neg hrefused, heq]
    exact ⟨h.limit, h.sound, h.keys, h.entry⟩
  · obtain ⟨hname, hexist, hroom, hnew⟩ := hcreates
    have hmakes := (new_ok_iff hsingle).mp ⟨c, hnew⟩
    rw [h.exist_iff] at hexist
    rw [h.length_eq, h.limit] at hroom
    rw [if_pos ⟨hname, hexist, hroom, hmakes⟩, heq, ← new_config hnew]
    have hshows : ShowsTable (W.kit c.config) c .empty :=
      showsTable_new hnew hsingle (hW.links _) (hW.encodes _ _) (hW.files _ _)
    exact h.insert (e := ⟨m.made, m.wal.isSome, c⟩) rfl rfl h.sound hshows

omit [Scalar F] in
theorem Pictures.delete {m : Manager F P D Q C S} (h : Pictures W limit m A) (name : Bytes) :
    Pictures W limit (m.delete name).1 (A.delete name) := by
  unfold Db.delete
  rcases m.delete_cases name with ⟨e, hnot, heq⟩ | ⟨hdel, heq⟩
  · rw [h.exist_iff] at hnot
    rw [if_neg hnot, heq]
    exact h
  · rw [h.exist_iff] at hdel
    rw [if_pos hdel, heq]
    refine ⟨h.limit, h.sound, ?_, fun n e he => ?_⟩
    · show (m.collections.erase name).keys.Perm _
      rw [keys_erase, keys_erase]
      exact @List.Perm.erase _ instBEqOfDecidableEq inferInstance name _ _ h.keys
    · by_cases hn : n = name
      · subst hn
        rw [lookup_erase] at he
        cases he
      · rw [lookup_erase_ne hn] at he ⊢
        exact h.entry n e he

theorem pictures_apply (hW : MemorySite W) (h : Pictures W limit f.manager A) {cmd : Command F P}
    (hplain : cmd.Plain) : ∃ f' resp, f.apply W cmd = .value (f', resp) ∧
      Pictures W limit f'.manager (A.apply limit cmd) := by
  cases cmd with
  | setLeaderRest restAddr => exact ⟨_, _, rfl, h⟩
  | unknown op => exact ⟨_, _, rfl, h⟩
  | createCollection cfg =>
    simp only [FSM.apply, Db.apply]
    split
    · rename_i hexist
      have hsame : A.create limit cfg = A :=
        if_neg fun hall => hall.2.1 ((h.exist_iff cfg.name).mp hexist)
      rw [hsame]
      exact ⟨f, _, rfl, h⟩
    · exact ⟨_, _, rfl, h.create hW hplain⟩
  | deleteCollection name =>
    simp only [FSM.apply, Db.apply]
    split
    · exact ⟨_, _, rfl, h.delete name⟩
    · rename_i hexist
      have hsame : A.delete name = A := if_neg fun hall => hexist ((h.exist_iff name).mpr hall.2)
      rw [hsame]
      exact ⟨f, _, rfl, h⟩
  | upsertPoints name points =>
    obtain ⟨m', r, hon, hpict⟩ := h.on name (g := fun cfg t => putPoints cfg t points)
      fun c t hr => by
        obtain ⟨c', r, hins, hturned⟩ := hr.insertBatch hplain
        exact ⟨c', (r, none), hins, hturned⟩
    simp only [FSM.apply, Db.apply, hon, value_bind, pure_eq]
    rcases Manager.on_cases hon with ⟨-, rfl, rfl⟩ | ⟨e, c, ⟨r, err⟩, -, -, -, rfl⟩
    · exact ⟨f, _, rfl, hpict⟩
    · cases err with
      | none => exact ⟨_, _, rfl, hpict⟩
      | some err => exact ⟨_, _, rfl, hpict⟩
  | deletePoints name ids =>
    obtain ⟨m', r, hon, hpict⟩ := h.on name (g := fun _ t => dropPoints t ids)
      fun c t hr => ready_deleteEach hr ids
    simp only [FSM.apply, Db.apply, hon, value_bind, pure_eq]
    rcases Manager.on_cases hon with ⟨-, rfl, rfl⟩ | ⟨e, c, u, -, -, -, rfl⟩
    · exact ⟨f, _, rfl, hpict⟩
    · exact ⟨_, _, rfl, hpict⟩

theorem pictures_applyLog {E : Type} {T : Transport F P E} (hW : MemorySite W)
    (h : Pictures W limit f.manager A) {log : List E}
    (hplain : ∀ entry ∈ log, ∀ cmd, T.unmarshal entry = some cmd → cmd.Plain) :
    ∃ f', f.applyLog T W log = .value f' ∧
      Pictures W limit f'.manager ((log.filterMap T.unmarshal).foldl (Db.apply limit) A) := by
  induction log generalizing f A with
  | nil => exact ⟨f, rfl, h⟩
  | cons entry log ih =>
    have hrest := (forall_mem_cons.mp hplain).2
    cases hcmd : T.unmarshal entry with
    | none =>
      simp only [FSM.applyLog, FSM.applyEntry, hcmd, value_bind, filterMap_cons_none hcmd]
      exact ih h hrest
    | some cmd =>
      obtain ⟨f₁, resp, happ, h₁⟩ :=
        pictures_apply hW h (hplain entry mem_cons_self cmd hcmd)
      simp only [FSM.applyLog, FSM.applyEntry, hcmd, happ, value_bind,
        filterMap_cons_some hcmd, foldl_cons]
      exact ih h₁ hrest

end Apply

/-! ## The routes -/

structure HNSWParams where
  M : Int
  efConstruction : Int
  efSearch : Int

structure CreateCollectionRequest where
  name : Bytes
  dimension : ℕ
  metric : Metric
  hnsw : Option HNSWParams

structure VectorConfigInput where
  dimension : ℕ
  metric : Metric
  hnsw : Option HNSWParams

/-- The requests as they are bound. `mayWrite` is what the claims allow; names behind a point are the order of
    its vectors. -/
inductive Request (F P : Type) where
  | createCollection (req : CreateCollectionRequest) (mayWrite : Bool)
  | createCollectionV2 (name : Bytes) (vectors : List (Bytes × VectorConfigInput))
    (mayWrite : Bool)
  | deleteCollection (name : Bytes)
  | upsertPoints (name : Bytes) (points : List (PointData F P))
  | deletePoint (name id : Bytes)
  | batchDelete (name : Bytes) (ids : List Bytes)
  | upsertPointsV2 (name : Bytes) (points : List (PointV2 F P × List Bytes))

inductive Status where
  | ok
  | created
  | badRequest
  | forbidden
  | notFound
  | conflict
  | internal
  deriving DecidableEq, Repr

def orCosine : Metric → Metric
  | .unset => .known .cosine
  | m => m

/-- The parameters that are given and positive, and 16, 200 and 100 for the others. -/
def HNSWParams.apply (hnsw : Option HNSWParams) : ℕ × Int × Int :=
  match hnsw with
  | none => (16, 200, 100)
  | some p => (if 0 < p.M then p.M.toNat else 16,
      if 0 < p.efConstruction then p.efConstruction else 200,
      if 0 < p.efSearch then p.efSearch else 100)

def CreateCollectionRequest.config (req : CreateCollectionRequest) : Hybrid.Config :=
  let (M, efConstruction, efSearch) := HNSWParams.apply req.hnsw
  ⟨req.name, req.dimension, orCosine req.metric, M, efConstruction, efSearch, []⟩

def VectorConfigInput.config (vc : VectorConfigInput) : VectorConfig :=
  let (M, efConstruction, efSearch) := HNSWParams.apply vc.hnsw
  ⟨vc.dimension, orCosine vc.metric, M, efConstruction, efSearch⟩

/-- The configuration with named vectors; dimension and metric of the collection are not set. -/
def configV2 (name : Bytes) (vectors : List (Bytes × VectorConfigInput)) : Hybrid.Config :=
  ⟨name, 0, .unset, 0, 0, 0, vectors.map fun v => (v.1, v.2.config)⟩

def insertEachV2 (K : Kit F P D Q C S) (c : Hybrid.Collection F P D Q C S) :
    List (PointV2 F P × List Bytes) → Outcome Empty (Hybrid.Collection F P D Q C S × ℕ)
  | [] => .value (c, 0)
  | (p, names) :: points => do
    let (c, err) ← insertV2 K c names p
    let (c, succeeded) ← insertEachV2 K c points
    return (c, if err.isNone then succeeded + 1 else succeeded)

/-- The leader's machine, whose manager the handlers use too, and the committed entries. -/
structure Leader (F P D Q C S E : Type) where
  fsm : FSM F P D Q C S
  log : List E

namespace Leader

variable {E : Type} (T : Transport F P E) (W : Site F P D Q C S J)

def write (s : Leader F P D Q C S E) (cmd : Command F P) :
    Outcome Empty (Leader F P D Q C S E × Option (Response F)) :=
  match T.marshal cmd with
  | none => .value (s, none)
  | some entry => do
    let (f, resp) ← s.fsm.applyEntry T W entry
    match resp with
    | .error _ => return (⟨f, s.log ++ [entry]⟩, none)
    | resp => return (⟨f, s.log ++ [entry]⟩, some resp)

def writeThen (s : Leader F P D Q C S E) (cmd : Command F P) (status : Status) :
    Outcome Empty (Leader F P D Q C S E × Status) := do
  let (s, resp) ← s.write T W cmd
  match resp with
  | none => return (s, .badRequest)
  | some _ => return (s, status)

def handle (s : Leader F P D Q C S E) :
    Request F P → Outcome Empty (Leader F P D Q C S E × Status)
  | .createCollection req mayWrite =>
    if req.name = [] ∨ req.dimension < 1 ∨ 65536 < req.dimension then .value (s, .badRequest)
    else if !mayWrite then .value (s, .forbidden)
    else do
      let (s, status) ← s.writeThen T W (.createCollection req.config) .created
      if status = .created ∧ !s.fsm.manager.exist req.name then return (s, .internal)
      else return (s, status)
  | .createCollectionV2 name vectors mayWrite =>
    if name = [] then .value (s, .badRequest)
    else if !mayWrite then .value (s, .forbidden)
    else
      let (m, err) := s.fsm.manager.create W (configV2 name vectors)
      .value ({ s with fsm := { s.fsm with manager := m } },
        match err with
        | none => .created
        | some .collectionExists => .conflict
        | some _ => .internal)
  | .deleteCollection name => s.writeThen T W (.deleteCollection name) .ok
  | .upsertPoints name points =>
    if !s.fsm.manager.exist name then .value (s, .notFound)
    else s.writeThen T W (.upsertPoints name (points.map newPointWithID)) .ok
  | .deletePoint name id =>
    if !s.fsm.manager.exist name then .value (s, .notFound)
    else s.writeThen T W (.deletePoints name [id]) .ok
  | .batchDelete name ids => do
    let (m, r) ← s.fsm.manager.on name fun c => deleteEach c ids
    return ({ s with fsm := { s.fsm with manager := m } }, if r.isNone then .notFound else .ok)
  | .upsertPointsV2 name points => do
    let (m, r) ← s.fsm.manager.on name fun c => insertEachV2 (W.kit c.config) c points
    return ({ s with fsm := { s.fsm with manager := m } }, if r.isNone then .notFound else .ok)

def step (s : Leader F P D Q C S E) (req : Request F P) : Option (Leader F P D Q C S E) :=
  match s.handle T W req with
  | .value (s, _) => some s
  | _ => none

/-- **The request does not go past the log**: the batch delete finds no point, upsert of version 2 no collection
    or no points, and create of version 2 does not create. -/
def Spares (s : Leader F P D Q C S E) : Request F P → Prop
  | .createCollectionV2 name vectors mayWrite =>
    mayWrite = true → ∀ c, ¬ s.fsm.manager.Creates W (configV2 name vectors) c
  | .batchDelete name ids => ∀ id ∈ ids, ∀ p, s.fsm.manager.getPoint W name id ≠ some (.value p)
  | .upsertPointsV2 name points => points = [] ∨ s.fsm.manager.exist name = false
  | _ => True

structure Tracks (limit : ℕ) (s : Leader F P D Q C S E) : Prop where
  pictures : Pictures W limit s.fsm.manager (logDb T limit s.log)
  plain : ∀ entry ∈ s.log, ∀ cmd, T.unmarshal entry = some cmd → cmd.Plain

end Leader

/-! ## The leader and its log -/

section Tracks

variable {E : Type} {T : Transport F P E} {W : Site F P D Q C S J} {limit : ℕ}
  {s s' : Leader F P D Q C S E} {A : Db F P} {m : Manager F P D Q C S}

omit [Scalar F] in
theorem Pictures.of_update {name : Bytes} {g : Hybrid.Config → Points F P → Points F P}
    (h : Pictures W limit m (A.update name g))
    (hg : ∀ cfg t, A.lookup name = some (cfg, t) → g cfg t = t) : Pictures W limit m A := by
  unfold Db.update at h
  cases hlook : A.lookup name with
  | none =>
    rw [hlook] at h
    exact h
  | some x =>
    obtain ⟨cfg, t⟩ := x
    simp only [hlook, hg cfg t hlook] at h
    have hmem : name ∈ A.keys := by
      rw [← AList.mem_keys, ← AList.lookup_isSome, hlook]
      rfl
    refine ⟨h.limit, h.sound, h.keys.trans ?_, fun n e he => ?_⟩
    · rw [keys_insert]
      exact (@perm_cons_erase _ instBEqOfDecidableEq inferInstance _ _ hmem).symm
    · obtain ⟨t', ht', hshows⟩ := h.entry n e he
      refine ⟨t', ?_, hshows⟩
      by_cases hn : n = name
      · subst hn
        rw [lookup_insert] at ht'
        rw [hlook, ht']
      · rwa [lookup_insert_ne hn] at ht'

theorem logDb_append (log : List E) (entry : E) : logDb T limit (log ++ [entry]) =
    match T.unmarshal entry with
    | none => logDb T limit log
    | some cmd => (logDb T limit log).apply limit cmd := by
  unfold logDb
  rw [filterMap_append, foldl_append]
  cases hcmd : T.unmarshal entry with
  | none => rw [filterMap_cons_none hcmd]; rfl
  | some cmd => rw [filterMap_cons_some hcmd]; rfl

variable (h : s.Tracks T W limit)
include h

theorem Leader.Tracks.write (hT : T.Plain) (hW : MemorySite W)
    {cmd : Command F P} (hplain : cmd.Plain) {resp : Option (Response F)}
    (hwrite : s.write T W cmd = .value (s', resp)) : s'.Tracks T W limit := by
  unfold Leader.write at hwrite
  cases hmarshal : T.marshal cmd with
  | none =>
    rw [hmarshal] at hwrite
    cases hwrite
    exact h
  | some entry =>
    rw [hmarshal] at hwrite
    obtain ⟨⟨f, resp₀⟩, happ, hret⟩ := bind_eq_value.mp hwrite
    have hs' : s' = ⟨f, s.log ++ [entry]⟩ := by
      cases resp₀ <;> cases hret <;> rfl
    subst hs'
    refine ⟨?_, ?_⟩
    · show Pictures W limit f.manager (logDb T limit (s.log ++ [entry]))
      rw [logDb_append]
      unfold FSM.applyEntry at happ
      cases hcmd : T.unmarshal entry with
      | none =>
        rw [hcmd] at happ
        cases happ
        exact h.pictures
      | some cmd' =>
        rw [hcmd] at happ
        obtain ⟨f', resp', happ', hpict⟩ :=
          pictures_apply hW h.pictures (hT cmd entry cmd' hplain hmarshal hcmd)
        cases happ.symm.trans happ'
        exact hpict
    · refine forall_mem_append.mpr ⟨h.plain, forall_mem_singleton.mpr fun cmd' hcmd' => ?_⟩
      exact hT cmd entry cmd' hplain hmarshal hcmd'

theorem Leader.Tracks.writeThen (hT : T.Plain) (hW : MemorySite W)
    (cmd : Command F P) (hplain : cmd.Plain) {status status' : Status}
    (hwrite : s.writeThen T W cmd status = .value (s', status')) : s'.Tracks T W limit := by
  obtain ⟨⟨s₁, resp⟩, hw, hret⟩ := bind_eq_value.mp hwrite
  have hs' : s' = s₁ := by
    cases resp <;> cases hret <;> rfl
  rw [hs']
  exact h.write hT hW hplain hw

theorem Leader.Tracks.aside (hm : Pictures W limit m (logDb T limit s.log)) :
    Leader.Tracks T W limit { s with fsm := { s.fsm with manager := m } } :=
  ⟨hm, h.plain⟩

omit [Scalar F] h in
theorem dropPoints_of_absent {t : Points F P} {ids : List Bytes}
    (h : ∀ id ∈ ids, t.find id = none) : dropPoints t ids = t := by
  induction ids with
  | nil => rfl
  | cons id ids ih =>
    have hfirst : t.delete id = t := by
      have hnone := h id mem_cons_self
      unfold Table.delete
      unfold Table.find at hnone
      cases hslot : t.slot id with
      | absent => rfl
      | dead => rfl
      | live v =>
        rw [hslot] at hnone
        cases hnone
    show dropPoints (t.delete id) ids = t
    rw [hfirst]
    exact ih (forall_mem_cons.mp h).2

theorem Leader.Tracks.handle (hT : T.Plain) (hW : MemorySite W)
    {req : Request F P} (hspares : s.Spares W req) {status : Status}
    (hreq : s.handle T W req = .value (s', status)) : s'.Tracks T W limit := by
  cases req with
  | createCollection req mayWrite =>
    simp only [Leader.handle] at hreq
    split_ifs at hreq
    · cases hreq
      exact h
    · cases hreq
      exact h
    · obtain ⟨⟨s₁, status₁⟩, hwrite, hret⟩ := bind_eq_value.mp hreq
      have hs' : s' = s₁ := by
        split at hret <;> cases hret <;> rfl
      rw [hs']
      exact h.writeThen hT hW (.createCollection req.config) rfl hwrite
  | createCollectionV2 name vectors mayWrite =>
    simp only [Leader.handle] at hreq
    split_ifs at hreq with hname hmay
    · cases hreq
      exact h
    · cases hreq
      exact h
    · have hrefused := hspares (by simpa using hmay)
      cases hreq
      refine h.aside ?_
      rcases s.fsm.manager.create_cases W (configV2 name vectors) with
        ⟨disk, made, e, -, -, heq⟩ | ⟨c, hcreates, -⟩
      · rw [heq]
        exact ⟨h.pictures.limit, h.pictures.sound, h.pictures.keys, h.pictures.entry⟩
      · exact absurd hcreates (hrefused c)
  | deleteCollection name =>
    exact h.writeThen hT hW (.deleteCollection name) trivial hreq
  | upsertPoints name points =>
    simp only [Leader.handle] at hreq
    split at hreq
    · cases hreq
      exact h
    · refine h.writeThen hT hW (.upsertPoints name (points.map newPointWithID)) ?_ hreq
      intro p hp
      obtain ⟨pd, -, rfl⟩ := mem_map.mp hp
      intro vec hvec
      cases hvec
  | deletePoint name id =>
    simp only [Leader.handle] at hreq
    split at hreq
    · cases hreq
      exact h
    · exact h.writeThen hT hW (.deletePoints name [id]) trivial hreq
  | batchDelete name ids =>
    obtain ⟨m', r, hon, hpict⟩ := h.pictures.on name (g := fun _ t => dropPoints t ids)
      fun c t hr => ready_deleteEach hr ids
    simp only [Leader.handle, hon, value_bind, pure_eq] at hreq
    cases hreq
    refine h.aside (hpict.of_update fun cfg t ht => dropPoints_of_absent fun id hid => ?_)
    -- an id that is in the table would be found by `Get`
    rcases h.pictures.lookup name with ⟨-, hA⟩ | ⟨e, t', hsome, hA, hshows⟩
    · cases hA.symm.trans ht
    · obtain ⟨-, rfl⟩ := Prod.mk.inj (some.inj (hA.symm.trans ht))
      cases hfind : t'.find id with
      | none => rfl
      | some v =>
        refine absurd ?_ (hspares id hid ⟨id, v.1, v.2, [], none⟩)
        rw [Manager.getPoint, hsome, map_some, hshows.get_eq, hfind]
        rfl
  | upsertPointsV2 name points =>
    rcases hspares with rfl | hnone
    · obtain ⟨m', r, hon, hpict⟩ := h.pictures.on name (g := fun _ t => t)
        (f := fun c => insertEachV2 (W.kit c.config) c [])
        fun c t hr => ⟨c, 0, rfl, ⟨hr, rfl⟩⟩
      simp only [Leader.handle, hon, value_bind, pure_eq] at hreq
      cases hreq
      exact h.aside (hpict.of_update fun cfg t _ => rfl)
    · have hlook : s.fsm.manager.collections.lookup name = none := by
        simpa [Manager.exist] using hnone
      simp only [Leader.handle, Manager.on, hlook, value_bind, pure_eq] at hreq
      cases hreq
      exact h

end Tracks

def freshFSM (limit : ℕ) (disk : AList fun _ : Bytes => Option Hybrid.Config)
    (wal : Option Log) : FSM F P D Q C S :=
  ⟨.start limit disk wal, ∅, none⟩

omit [Scalar F] in
theorem pictures_start {W : Site F P D Q C S J} (limit : ℕ)
    (disk : AList fun _ : Bytes => Option Hybrid.Config) {wal : Option Log} (hwal : Sound wal) :
    Pictures W limit (Manager.start limit disk wal) ∅ :=
  ⟨rfl, hwal, Perm.refl _, fun _ _ he => by cases he⟩

/-- **A replica shows what the leader shows**, after every sequence of requests none of which goes
    past the log. -/
theorem replica_agrees {E : Type} (T : Transport F P E) (hT : T.Plain)
    (W W' : Site F P D Q C S J) (hW : MemorySite W) (hW' : MemorySite W') (limit : ℕ)
    (disk disk' : AList fun _ : Bytes => Option Hybrid.Config) (wal wal' : Option Log)
    (hwal : Sound wal) (hwal' : Sound wal') (reqs : List (Request F P))
    (s : Leader F P D Q C S E)
    (hrun : run (Leader.step T W) ⟨freshFSM limit disk wal, []⟩ reqs = some s)
    (hspares : Along (Leader.step T W) (Leader.Spares W) ⟨freshFSM limit disk wal, []⟩ reqs) :
    ∃ f, (freshFSM limit disk' wal').applyLog T W' s.log = .value f ∧
      SameContents W s.fsm.manager W' f.manager := by
  have hstart : Leader.Tracks T W limit (⟨freshFSM limit disk wal, []⟩ : Leader F P D Q C S E) :=
    ⟨pictures_start limit disk hwal, fun _ hmem => by cases hmem⟩
  have htracks : s.Tracks T W limit := by
    refine run_along (fun s req s' hI hP hstep => ?_) hstart hspares hrun
    unfold Leader.step at hstep
    split at hstep
    · rename_i status hreq
      cases hstep
      exact hI.handle hT hW hP hreq
    · cases hstep
  obtain ⟨f, happ, hpict⟩ := pictures_applyLog (f := freshFSM limit disk' wal') hW'
    (pictures_start limit disk' hwal') htracks.plain
  exact ⟨f, happ, htracks.pictures.same hpict⟩

/-! ## Points on a line -/

def lineTransport : Transport ℕ ℕ (Command ℕ ℕ) := ⟨some, some⟩

def lineReplica : Site ℕ ℕ ℕ Unit Unit Unit Hybrid.Config :=
  { lineSite with parts := fun _ _ => ⟨Stream'.const 1, none, .empty, none⟩ }

def lineLeader : Leader ℕ ℕ ℕ Unit Unit Unit (Command ℕ ℕ) := ⟨freshFSM 10 ∅ (some soundLog), []⟩

def lineCreate : Request ℕ ℕ :=
  .createCollection ⟨[99], 1, .known .euclidean, some ⟨2, 10, 10⟩⟩ true

def lineRequests : List (Request ℕ ℕ) :=
  [lineCreate, .upsertPoints [99] [⟨[1], [5], none⟩, ⟨[2], [7], some 3⟩], .deletePoint [99] [1]]

theorem replica_agrees_line : ∃ s f,
    run (Leader.step lineTransport lineSite) lineLeader lineRequests = some s ∧
    Along (Leader.step lineTransport lineSite) (Leader.Spares lineSite) lineLeader lineRequests ∧
    (freshFSM 10 ∅ none).applyLog lineTransport lineReplica s.log = .value f ∧
    SameContents lineSite s.fsm.manager lineReplica f.manager := by
  have hplain : lineTransport.Plain := by
    intro cmd entry cmd' hcmd hm hu
    cases hm
    cases hu
    exact hcmd
  have hsound : Sound (some soundLog) := by
    intro w hw
    cases hw
    rfl
  have hnone : Sound none := fun w hw => by cases hw
  have hW : MemorySite lineSite :=
    ⟨fun _ => rfl, fun _ _ => Graph.encodes_none _, fun _ _ s hs => by cases hs⟩
  have hW' : MemorySite lineReplica :=
    ⟨fun _ => rfl, fun _ _ => Graph.encodes_none _, fun _ _ s hs => by cases hs⟩
  have hspares : Along (Leader.step lineTransport lineSite) (Leader.Spares lineSite) lineLeader
      lineRequests :=
    ⟨trivial, fun _ _ => ⟨trivial, fun _ _ => ⟨trivial, fun _ _ => trivial⟩⟩⟩
  have hrun : (run (Leader.step lineTransport lineSite) lineLeader lineRequests).isSome := by
    decide +kernel
  obtain ⟨s, hs⟩ := isSome_iff_exists.mp hrun
  obtain ⟨f, happ, hsame⟩ := replica_agrees lineTransport hplain lineSite lineReplica hW hW' 10
    ∅ ∅ (some soundLog) none hsound hnone lineRequests s hs hspares
  exact ⟨s, f, hs, hspares, happ, hsame⟩

def Leader.serve {E : Type} (T : Transport F P E) (W : Site F P D Q C S J) :
    Leader F P D Q C S E → List (Request F P) → Option (List Status × Leader F P D Q C S E)
  | s, [] => some ([], s)
  | s, req :: reqs =>
    match s.handle T W req with
    | .value (s, status) => (serve T W s reqs).map fun x => (status :: x.1, x.2)
    | _ => none

/-- One point, which is deleted in a batch; another one and another collection by version 2. -/
def asideRequests : List (Request ℕ ℕ) :=
  [lineCreate, .upsertPoints [99] [⟨[1], [5], none⟩], .batchDelete [99] [[1]],
    .upsertPointsV2 [99] [(linePoint 2 7 none none, [])],
    .createCollectionV2 [100] [([118], ⟨1, .known .euclidean, none⟩)] true]

/-- What a manager has of the points 1 and 2 of "c", and whether it has "d". -/
structure LineView where
  one : Option (Outcome IndexError (Point ℕ ℕ))
  two : Option (Outcome IndexError (Point ℕ ℕ))
  other : Bool
  deriving DecidableEq

def lineView (W : Site ℕ ℕ ℕ Unit Unit Unit Hybrid.Config) (m : Manager ℕ ℕ ℕ Unit Unit Unit) :
    LineView :=
  ⟨m.getPoint W [99] [1], m.getPoint W [99] [2], m.exist [100]⟩

def replicaView (log : List (Command ℕ ℕ)) : Option LineView :=
  match (freshFSM 10 ∅ none).applyLog lineTransport lineReplica log with
  | .value f => some (lineView lineReplica f.manager)
  | _ => none

/-- **A batch delete and the routes of version 2 are not in the log**: in the end the leader has point 2 and
    collection "d", and the replica has point 1. -/
theorem replica_differs : ∃ s f, lineLeader.serve lineTransport lineSite asideRequests =
      some ([.created, .ok, .ok, .ok, .created], s) ∧
    (freshFSM 10 ∅ none).applyLog lineTransport lineReplica s.log = .value f ∧
    lineView lineSite s.fsm.manager =
      ⟨some (.error .pointNotFound), some (.value (linePoint 2 7 none none)), true⟩ ∧
    lineView lineReplica f.manager =
      ⟨some (.value (linePoint 1 5 none none)), some (.error .pointNotFound), false⟩ := by
  have hserve : ((lineLeader.serve lineTransport lineSite asideRequests).map fun x =>
      (x.1, lineView lineSite x.2.fsm.manager, replicaView x.2.log)) =
      some ([.created, .ok, .ok, .ok, .created],
        ⟨some (.error .pointNotFound), some (.value (linePoint 2 7 none none)), true⟩,
        some ⟨some (.value (linePoint 1 5 none none)), some (.error .pointNotFound), false⟩) := by
    decide +kernel
  obtain ⟨⟨statuses, s⟩, hs, heq⟩ := map_eq_some_iff.mp hserve
  obtain ⟨rfl, heq⟩ := Prod.mk.inj heq
  obtain ⟨hleader, hreplica⟩ := Prod.mk.inj heq
  unfold replicaView at hreplica
  split at hreplica
  · rename_i f happ
    exact ⟨s, f, hs, happ, hleader, some.inj hreplica⟩
  · cases hreplica

end LimyeDB.Cluster
