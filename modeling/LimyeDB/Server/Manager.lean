/-
  THE MANAGER OF THE COLLECTIONS (pkg/collection/manager.go): its table, the directories with their saved
  configurations, the log that the collections share, and the snapshots.

  `LimyeDB.Collection.Host` has the same manager over the dense part of a collection.
-/
import LimyeDB.Collection.Manager
import LimyeDB.Hybrid.Effects
import LimyeDB.Snapshot.Format

namespace LimyeDB.Server

open Go Hybrid Snapshot
open LimyeDB.Graph (Distance)
open LimyeDB.Collection (Log Error validateName BatchResult)

/-! ## The manager -/

/-- The kit of a collection, what the n-th object gets from outside, the coding of snapshots and
    configurations, and whether the data directory is `./data`. -/
structure Site (F P D Q C S J : Type) [Distance D] where
  kit : Config → Kit F P D Q C S
  parts : ℕ → Bytes → Parts Q S
  rows : ℕ → ℕ → Option P
  dispatcher : ℕ → Dispatcher
  coding : Coding F P J
  toJSON : Config → J
  ofJSON : J → Option Config
  shared : Bool

/-- The number of the object, and whether it has the manager's log. The collection itself is kept without a
    log. -/
structure Entry (F P D Q C S : Type) where
  ref : ℕ
  logged : Bool
  coll : Hybrid.Collection F P D Q C S

/-- `disk` has the directories, with the saved configuration if there is one; `made` is the number
    of the next collection object. -/
structure Manager (F P D Q C S : Type) where
  collections : AList fun _ : Bytes => Entry F P D Q C S
  maxCollections : ℕ
  disk : AList fun _ : Bytes => Option Config
  wal : Option Log
  made : ℕ

inductive ManagerError where
  | invalidName
  | collectionExists
  | maxCollections
  | collectionNotFound
  | new (e : Hybrid.NewError)
  | noDirectory
  deriving DecidableEq, Repr

def mkdir (disk : AList fun _ : Bytes => Option Config) (name : Bytes) :
    AList fun _ : Bytes => Option Config :=
  if (disk.lookup name).isSome then disk else disk.insert name none

def newDisk (shared : Bool) (disk : AList fun _ : Bytes => Option Config) (cfg : Config) :
    AList fun _ : Bytes => Option Config :=
  if shared ∧ cfg.validate = .ok () then mkdir disk cfg.name else disk

def applyDefaults (cfg : Config) : Config :=
  { cfg with
    M := if cfg.M = 0 then 16 else cfg.M
    efConstruction := if cfg.efConstruction = 0 then 200 else cfg.efConstruction
    efSearch := if cfg.efSearch = 0 then 100 else cfg.efSearch }

variable {F P D Q C S J : Type} [Scalar F] [Distance D]

namespace Manager

def start (maxCollections : ℕ) (disk : AList fun _ : Bytes => Option Config) (wal : Option Log) :
    Manager F P D Q C S :=
  { collections := ∅, maxCollections, disk, wal, made := 0 }

def metadata (m : Manager F P D Q C S) (name : Bytes) : Option Config := (m.disk.lookup name).join

def exist (m : Manager F P D Q C S) (name : Bytes) : Bool := (m.collections.lookup name).isSome

omit [Scalar F] in
def newCollection (W : Site F P D Q C S J) (m : Manager F P D Q C S) (cfg : Config) :
    Manager F P D Q C S × Except Hybrid.NewError (Hybrid.Collection F P D Q C S) :=
  ({ m with disk := newDisk W.shared m.disk cfg, made := m.made + 1 },
    Hybrid.new cfg (W.parts m.made) (W.rows m.made) (W.dispatcher m.made))

/-- The file can be written if the directory is there. -/
def saveMetadata (m : Manager F P D Q C S) (cfg : Config) :
    Manager F P D Q C S × Option ManagerError :=
  if !validateName cfg.name then (m, some .invalidName)
  else if (m.disk.lookup cfg.name).isNone then (m, some .noDirectory)
  else ({ m with disk := m.disk.insert cfg.name (some cfg) }, none)

omit [Scalar F] in
def create (W : Site F P D Q C S J) (m : Manager F P D Q C S) (cfg : Config) :
    Manager F P D Q C S × Option ManagerError :=
  if !validateName cfg.name then (m, some .invalidName)
  else if m.exist cfg.name then (m, some .collectionExists)
  else if m.maxCollections ≤ m.collections.entries.length then (m, some .maxCollections)
  else
    let cfg := applyDefaults cfg
    match m.newCollection W cfg with
    | (m, .error e) => (m, some (.new e))
    | (m, .ok coll) =>
      ({ m with
        disk := m.disk.insert cfg.name (some cfg)
        collections := m.collections.insert cfg.name ⟨m.made - 1, m.wal.isSome, coll⟩ }, none)

def delete (m : Manager F P D Q C S) (name : Bytes) : Manager F P D Q C S × Option ManagerError :=
  if !validateName name then (m, some .invalidName)
  else if !m.exist name then (m, some .collectionNotFound)
  else
    ({ m with collections := m.collections.erase name, disk := m.disk.erase name }, none)

def lend (m : Manager F P D Q C S) (e : Entry F P D Q C S) : Hybrid.Collection F P D Q C S :=
  { e.coll with wal := if e.logged then m.wal else none }

/-- The collection after a call, and what the call has done to the log. -/
def keep (m : Manager F P D Q C S) (name : Bytes) (e : Entry F P D Q C S)
    (c : Hybrid.Collection F P D Q C S) : Manager F P D Q C S :=
  { m with
    wal := if e.logged then c.wal else m.wal
    collections := m.collections.insert name { e with coll := { c with wal := none } } }

/-- `Get` and a call on the collection found; `none` if there is none. -/
def on {α : Type} (m : Manager F P D Q C S) (name : Bytes)
    (f : Hybrid.Collection F P D Q C S → Outcome Empty (Hybrid.Collection F P D Q C S × α)) :
    Outcome Empty (Manager F P D Q C S × Option α) :=
  match m.collections.lookup name with
  | none => .value (m, none)
  | some e => do
    let (c, a) ← f (m.lend e)
    return (m.keep name e c, some a)

def getPoint (W : Site F P D Q C S J) (m : Manager F P D Q C S) (name id : Bytes) :
    Option (Outcome Hnsw.IndexError (Point F P)) :=
  (m.collections.lookup name).map fun e => Hybrid.get (W.kit e.coll.config) e.coll id

/-- `Create` gets past its checks, and `New` makes the collection. -/
def Creates (W : Site F P D Q C S J) (m : Manager F P D Q C S) (cfg : Config)
    (c : Hybrid.Collection F P D Q C S) : Prop :=
  validateName cfg.name ∧ ¬ m.exist cfg.name ∧ m.collections.entries.length < m.maxCollections ∧
    Hybrid.new (applyDefaults cfg) (W.parts m.made) (W.rows m.made) (W.dispatcher m.made) = .ok c

omit [Scalar F] in
/-- **What `Create` does:** it fails and leaves the table and the log, or it adds a collection that
    has the log. -/
theorem create_cases (W : Site F P D Q C S J) (m : Manager F P D Q C S) (cfg : Config) :
    (∃ disk made e, (∀ c, ¬ m.Creates W cfg c) ∧ m.made ≤ made ∧
      m.create W cfg = ({ m with disk, made }, some e)) ∨
    ∃ c, m.Creates W cfg c ∧
      m.create W cfg = ({ m with
        disk := (newDisk W.shared m.disk (applyDefaults cfg)).insert cfg.name
          (some (applyDefaults cfg))
        made := m.made + 1
        collections := m.collections.insert cfg.name ⟨m.made, m.wal.isSome, c⟩ }, none) := by
  unfold create newCollection
  split_ifs with hname hexist hlimit
  · exact .inl ⟨m.disk, m.made, _, fun c hc => by simp [hc.1] at hname, le_rfl, rfl⟩
  · exact .inl ⟨m.disk, m.made, _, fun c hc => hc.2.1 hexist, le_rfl, rfl⟩
  · exact .inl ⟨m.disk, m.made, _, fun c hc => absurd hc.2.2.1 (Nat.not_lt.mpr hlimit), le_rfl,
      rfl⟩
  · cases hnew : Hybrid.new (F := F) (D := D) (C := C) (applyDefaults cfg) (W.parts m.made)
        (W.rows m.made) (W.dispatcher m.made) with
    | error e =>
      simp only [hnew]
      refine .inl ⟨_, _, _, fun c hc => ?_, Nat.le_succ _, rfl⟩
      cases hnew.symm.trans hc.2.2.2
    | ok c =>
      simp only [hnew]
      exact .inr ⟨c, ⟨by simpa using hname, hexist, Nat.not_le.mp hlimit, hnew⟩, rfl⟩

omit [Scalar F] [Distance D] in
theorem delete_cases (m : Manager F P D Q C S) (name : Bytes) :
    (∃ e, ¬ (validateName name ∧ m.exist name) ∧ m.delete name = (m, some e)) ∨
    (validateName name ∧ m.exist name) ∧ m.delete name =
      ({ m with collections := m.collections.erase name, disk := m.disk.erase name }, none) := by
  unfold delete
  split_ifs with hname hexist
  · exact .inl ⟨_, fun h => by simp [h.1] at hname, rfl⟩
  · exact .inl ⟨_, fun h => by simp [h.2] at hexist, rfl⟩
  · exact .inr ⟨⟨by simpa using hname, by simpa using hexist⟩, rfl⟩

omit [Scalar F] [Distance D] in
theorem on_cases {α : Type} {m m' : Manager F P D Q C S} {name : Bytes} {a : Option α}
    {f : Hybrid.Collection F P D Q C S → Outcome Empty (Hybrid.Collection F P D Q C S × α)}
    (h : m.on name f = .value (m', a)) :
    m.collections.lookup name = none ∧ m' = m ∧ a = none ∨
    ∃ e c b, m.collections.lookup name = some e ∧ f (m.lend e) = .value (c, b) ∧
      m' = m.keep name e c ∧ a = some b := by
  unfold on at h
  cases hlook : m.collections.lookup name with
  | none =>
    rw [hlook] at h
    cases h
    exact .inl ⟨rfl, rfl, rfl⟩
  | some e =>
    rw [hlook] at h
    obtain ⟨⟨c, b⟩, hf, hret⟩ := Outcome.bind_eq_value.mp h
    cases hret
    exact .inr ⟨e, c, b, rfl, hf, rfl, rfl⟩

end Manager

def deleteEach (c : Hybrid.Collection F P D Q C S) : List Bytes →
    Outcome Empty (Hybrid.Collection F P D Q C S × ℕ)
  | [] => .value (c, 0)
  | id :: ids => do
    let (c, err) ← Hybrid.delete c id
    let (c, deleted) ← deleteEach c ids
    return (c, if err.isNone then deleted + 1 else deleted)

/-! ## Snapshots -/

inductive SnapshotError where
  | emptyID
  | idTooLong
  | idFormat
  | idPath
  | notExist
  | write (e : WriteError)
  | read (e : ReadError)
  deriving DecidableEq, Repr

def snapshotStem : Bytes := [115, 110, 97, 112, 95]

def decimal (n : ℕ) : Bytes := (Nat.toDigits 10 n).map fun d => UInt8.ofNat d.toNat

def snapID (now : ℕ) : Bytes := snapshotStem ++ decimal now

def isDigit (b : UInt8) : Bool := 48 ≤ b && b ≤ 57

/-- `^snap_[0-9]+$`. -/
def matchesSnapshotID (id : Bytes) : Bool :=
  id.take 5 == snapshotStem && !(id.drop 5).isEmpty && (id.drop 5).all isDigit

/-- Two dots in a row, a slash or a backslash. -/
def hasPathCharacters : Bytes → Bool
  | [] => false
  | b :: bs => (b == 46 && bs.head? == some 46) || b == 47 || b == 92 || hasPathCharacters bs

def validateSnapshotID (id : Bytes) : Except SnapshotError Unit :=
  if id = [] then .error .emptyID
  else if 64 < id.length then .error .idTooLong
  else if !matchesSnapshotID id then .error .idFormat
  else if hasPathCharacters id then .error .idPath
  else .ok ()

/-- The snapshot directory: the streams of its `.snap` files by their id. -/
abbrev SnapshotDir := AList fun _ : Bytes => Bytes

/-- The reader behind the header: the number of collections, and the rest of the stream. -/
def openSnapshot (dir : SnapshotDir) (id : Bytes) : Outcome SnapshotError (ℕ × Bytes) :=
  match validateSnapshotID id with
  | .error e => .error e
  | .ok () =>
    match dir.lookup id with
    | none => .error .notExist
    | some b => do
      let ((_, _, count), r) ← (readHeader b).mapError .read
      return (count, r)

/-- The points that `Iterate` gives, up to its first error, which is ignored. -/
def exportPoints (K : Kit F P D Q C S) (c : Hybrid.Collection F P D Q C S) :
    Outcome SnapshotError (List (PointData F P)) := do
  let (ps, _) ← (iterate K c).mapError Empty.elim
  return ps.map fun p => ⟨p.id, p.vector, p.payload⟩

def writeCollections (W : Site F P D Q C S J) :
    List (Sigma fun _ : Bytes => Entry F P D Q C S) → Outcome SnapshotError Bytes
  | [] => .value []
  | ⟨name, e⟩ :: entries => do
    let points ← exportPoints (W.kit e.coll.config) e.coll
    match writeCollection W.coding name ⟨W.toJSON e.coll.config, points⟩ with
    | .error err => .error (.write err)
    | .ok b =>
      let bs ← writeCollections W entries
      return b ++ bs

/-- The stream of a snapshot. One that fails is cancelled and leaves no file. -/
def createSnapshot (W : Site F P D Q C S J) (m : Manager F P D Q C S) (timestamp : ℕ) :
    Outcome SnapshotError Bytes :=
  match writeHeader 1 timestamp m.collections.entries.length with
  | .error err => .error (.write err)
  | .ok b => do
    let bs ← writeCollections W m.collections.entries
    return b ++ bs

inductive RestoreError where
  | snapshot (e : SnapshotError)
  | config
  | new (e : Hybrid.NewError)
  | metadata (e : ManagerError)
  deriving DecidableEq, Repr

def newPointWithID (pd : PointData F P) : Point F P := ⟨pd.id, pd.vector, pd.payload, [], none⟩

/-- The points into a new collection, one after the other; their errors are ignored. -/
def insertAll (K : Kit F P D Q C S) : List (PointData F P) → Hybrid.Collection F P D Q C S →
    Outcome Empty (Hybrid.Collection F P D Q C S)
  | [], c => .value c
  | pd :: pds, c => do
    let (c, _) ← insert K c (newPointWithID pd)
    insertAll K pds c

/-- The next collection of the stream, up to where it is put into the table. -/
def restoreOne (W : Site F P D Q C S J) (m : Manager F P D Q C S) (r : Bytes) :
    Outcome Empty (Manager F P D Q C S ×
      Except RestoreError (Bytes × Config × Hybrid.Collection F P D Q C S × Bytes)) :=
  match readCollection W.coding r with
  | .panic => .panic
  | .error e => .value (m, .error (.snapshot (.read e)))
  | .value ((name, data), r) =>
    match W.ofJSON data.config with
    | none => .value (m, .error .config)
    | some cfg =>
      match m.newCollection W cfg with
      | (m, .error e) => .value (m, .error (.new e))
      | (m, .ok c) => do
        let c ← insertAll (W.kit cfg) data.points c
        return (m, .ok (name, cfg, c, r))

/-- Each collection is put into the table before the next one is read. `SetWAL` is not called. -/
def restoreLoop (W : Site F P D Q C S J) : ℕ → Bytes → Manager F P D Q C S →
    Outcome Empty (Manager F P D Q C S × Option RestoreError)
  | 0, _, m => .value (m, none)
  | n + 1, r, m => do
    let (m, x) ← restoreOne W m r
    match x with
    | .error e => return (m, some e)
    | .ok (name, cfg, c, r) =>
      let m := { m with collections := m.collections.insert name ⟨m.made - 1, false, c⟩ }
      match m.saveMetadata cfg with
      | (m, some e) => return (m, some (.metadata e))
      | (m, none) => restoreLoop W n r m

def restoreSnapshot (W : Site F P D Q C S J) (m : Manager F P D Q C S) (dir : SnapshotDir)
    (id : Bytes) : Outcome Empty (Manager F P D Q C S × Option RestoreError) :=
  match openSnapshot dir id with
  | .panic => .panic
  | .error e => .value (m, some (.snapshot e))
  | .value (n, r) => restoreLoop W n r m

/-- **A turn up to the table** leaves the table, and fails or has made the next collection of the
    stream. -/
theorem restoreOne_cases {W : Site F P D Q C S J} {m m' : Manager F P D Q C S} {r : Bytes}
    {x : Except RestoreError (Bytes × Config × Hybrid.Collection F P D Q C S × Bytes)}
    (h : restoreOne W m r = .value (m', x)) :
    m'.collections = m.collections ∧ ((∃ e, x = .error e) ∨
      ∃ name data cfg c₀ c r', readCollection W.coding r = .value ((name, data), r') ∧
        W.ofJSON data.config = some cfg ∧
        Hybrid.new cfg (W.parts m.made) (W.rows m.made) (W.dispatcher m.made) = .ok c₀ ∧
        insertAll (W.kit cfg) data.points c₀ = .value c ∧ x = .ok (name, cfg, c, r')) := by
  unfold restoreOne at h
  cases hread : readCollection W.coding r with
  | panic => simp only [hread] at h; cases h
  | error e =>
    simp only [hread] at h
    cases h
    exact ⟨rfl, .inl ⟨_, rfl⟩⟩
  | value y =>
    obtain ⟨⟨name, data⟩, r'⟩ := y
    simp only [hread] at h
    cases hcfg : W.ofJSON data.config with
    | none =>
      simp only [hcfg] at h
      cases h
      exact ⟨rfl, .inl ⟨_, rfl⟩⟩
    | some cfg =>
      simp only [hcfg, Manager.newCollection] at h
      cases hnew : Hybrid.new (F := F) (D := D) (C := C) cfg (W.parts m.made) (W.rows m.made)
          (W.dispatcher m.made) with
      | error e =>
        simp only [hnew] at h
        cases h
        exact ⟨rfl, .inl ⟨_, rfl⟩⟩
      | ok c₀ =>
        simp only [hnew] at h
        obtain ⟨c, hins, hret⟩ := Outcome.bind_eq_value.mp h
        cases hret
        exact ⟨rfl, .inr ⟨name, data, cfg, c₀, c, r', rfl, hcfg, hnew, hins, rfl⟩⟩

omit [Scalar F] [Distance D] in
theorem saveMetadata_collections (m : Manager F P D Q C S) (cfg : Config) :
    (m.saveMetadata cfg).1.collections = m.collections := by
  unfold Manager.saveMetadata
  split_ifs <;> rfl

/-! ## Points on a line -/

def lineCoding : Coding ℕ ℕ Config where
  putFloat x := leBytes 4 x
  getFloat := leNat
  marshalPayload
    | none => some [0]
    | some x => some (1 :: leBytes 8 x)
  unmarshalPayload
    | [0] => some none
    | 1 :: b => some (some (leNat b))
    | _ => none
  marshalConfig cfg := if cfg = { lineConfig with name := cfg.name } then some cfg.name else none
  unmarshalConfig b := some { lineConfig with name := b }

def lineSite : Site ℕ ℕ ℕ Unit Unit Unit Config where
  kit _ := lineKit
  parts _ := lineParts
  rows _ _ := none
  dispatcher _ := freeDispatcher
  coding := lineCoding
  toJSON cfg := cfg
  ofJSON cfg := some cfg
  shared := false

def soundLog : Log := ⟨[], Stream'.const false⟩

def lineSnapshotID : Bytes := [115, 110, 97, 112, 95, 49]

def lineStream (count : ℕ) (collections : List (Bytes × CollectionData ℕ ℕ Config)) : Bytes :=
  let written : Except WriteError Bytes := do
    let b ← writeHeader 1 0 count
    let bs ← collections.mapM fun x => writeCollection lineCoding x.1 x.2
    return b ++ bs.flatten
  written.toOption.getD []

end LimyeDB.Server
