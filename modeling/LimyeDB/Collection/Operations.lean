/-
  THE CALLS OF A SINGLE-VECTOR COLLECTION: Insert, InsertBatch, Upsert, Delete and Get, each of which goes to
  the log first and to the index then.

  The log is what its replay delivers: a write that succeeds adds its records at the end, one that fails adds
  none.
-/
import LimyeDB.Hnsw.Index
import LimyeDB.Wal.Record

namespace LimyeDB

open Go Hnsw

/-! ## The collection -/

inductive MetricType where
  | cosine
  | euclidean
  | dotProduct
  deriving DecidableEq, Repr

structure CollectionConfig where
  name : Bytes
  dimension : ℕ
  metric : MetricType
  M : ℕ
  efSearch : Int
  deriving DecidableEq, Repr

inductive ConfigError where
  | invalidName
  | invalidDimension
  deriving DecidableEq, Repr

def CollectionConfig.validate (cfg : CollectionConfig) : Except ConfigError Unit :=
  if cfg.name = [] then .error .invalidName
  else if cfg.dimension = 0 ∨ 65536 < cfg.dimension then .error .invalidDimension
  else .ok ()

structure Collection (F P G S : Type) where
  config : CollectionConfig
  index : HNSW F P G S

namespace Collection

variable {F P G S : Type} [Scalar F]

inductive NewError where
  | config (e : ConfigError)
  | index (e : Hnsw.NewError)
  deriving DecidableEq, Repr

def new (cfg : CollectionConfig) (rng : Stream' ℕ) (graph : G) (vectorMmap : Option S) :
    Except NewError (Collection F P G S) :=
  match cfg.validate with
  | .error e => .error (.config e)
  | .ok () =>
    match Hnsw.new ⟨cfg.M, cfg.efSearch, cfg.dimension⟩ rng graph vectorMmap with
    | .error e => .error (.index e)
    | .ok index => .ok ⟨cfg, index⟩

structure Codec (F P : Type) where
  serializePoint : Point F P → Except String Bytes
  deserializePoint : Bytes → Except String (Point F P)

structure Log where
  records : List Wal.Record
  faults : Stream' Bool

def Log.write (w : Log) (rs : List Wal.Record) : Log × Bool :=
  if w.faults.head then ({ w with faults := w.faults.tail }, false)
  else ({ w with records := w.records ++ rs, faults := w.faults.tail }, true)

inductive Error (F : Type) where
  | invalid (e : PointError F)
  | dimensionMismatch
  | serialize (e : String)
  | walWrite
  | walBatchWrite
  | index (e : IndexError)
  deriving DecidableEq, Repr

/-- How a call ends that changes a state: it panics, or leaves a state and returns an error or
    nil. -/
abbrev Exec (σ ε : Type) := Outcome Empty (σ × Option ε)

def Exec.lift {σ τ ε : Type} (f : σ → τ) : Exec σ ε → Exec τ ε
  | .value (s, err) => .value (f s, err)
  | .error e => .error e
  | .panic => .panic

/-! ## Under the lock -/

def prepare (cfg : CollectionConfig) (p : Point F P) : Point F P :=
  if cfg.metric = .cosine then { p with vector := normalize p.vector } else p

/-- A point without a dense vector is accepted and not put into the index. -/
def insertInternal (E : Env F P G S) (c : Collection F P G S) (p : Point F P) :
    Outcome Empty (Collection F P G S × Option (Error F)) :=
  if p.vector = [] then .value (c, none)
  else if p.vector.length ≠ c.config.dimension then .value (c, some .dimensionMismatch)
  else do
    let (index, err) ← Hnsw.insert E c.index (prepare c.config p)
    return ({ c with index := index }, err.map .index)

/-- The old point is deleted, whatever becomes of the new one. -/
def upsertInternal (E : Env F P G S) (c : Collection F P G S) (p : Point F P) :
    Outcome Empty (Collection F P G S × Option (Error F)) :=
  let p := prepare c.config p
  match Hnsw.delete c.index p.id with
  | .panic => .panic
  | .error _ => do
    let (index, err) ← Hnsw.insert E c.index p
    return ({ c with index := index }, err.map .index)
  | .value index => do
    let (index, err) ← Hnsw.insert E index p
    return ({ c with index := index }, err.map .index)

def deleteInternal (c : Collection F P G S) (id : Bytes) :
    Exec (Collection F P G S) (Error F) :=
  match Hnsw.delete c.index id with
  | .panic => .panic
  | .error e => .value (c, some (.index e))
  | .value index => .value ({ c with index := index }, none)

def get (E : Env F P G S) (c : Collection F P G S) (id : Bytes) :
    Outcome IndexError (Point F P) :=
  Hnsw.get E.mmap c.index id

/-! ## The calls -/

structure Db (F P G S : Type) where
  coll : Collection F P G S
  wal : Option Log

def record (type : Wal.RecordType) (collection data : Bytes) : Wal.Record :=
  ⟨0, type, collection, data, 0⟩

def logRecord (db : Db F P G S) (r : Wal.Record) : Db F P G S × Option (Error F) :=
  match db.wal with
  | none => (db, none)
  | some w =>
    let (w, ok) := w.write [r]
    ({ db with wal := some w }, if ok then none else some .walWrite)

def logPoint (K : Codec F P) (db : Db F P G S) (type : Wal.RecordType) (p : Point F P) :
    Db F P G S × Option (Error F) :=
  match db.wal with
  | none => (db, none)
  | some _ =>
    match K.serializePoint p with
    | .error e => (db, some (.serialize e))
    | .ok data => logRecord db (record type db.coll.config.name data)

def insert (E : Env F P G S) (K : Codec F P) (db : Db F P G S) (p : Point F P) :
    Exec (Db F P G S) (Error F) :=
  match p.validate with
  | .error e => .value (db, some (.invalid e))
  | .ok () =>
    match logPoint K db Wal.RecordType.insert p with
    | (db, some e) => .value (db, some e)
    | (db, none) => Exec.lift (fun coll => { db with coll := coll }) (insertInternal E db.coll p)

def upsert (E : Env F P G S) (K : Codec F P) (db : Db F P G S) (p : Point F P) :
    Exec (Db F P G S) (Error F) :=
  match p.validate with
  | .error e => .value (db, some (.invalid e))
  | .ok () =>
    if p.vector.length ≠ db.coll.config.dimension then .value (db, some .dimensionMismatch)
    else
      match logPoint K db Wal.RecordType.update p with
      | (db, some e) => .value (db, some e)
      | (db, none) => Exec.lift (fun coll => { db with coll := coll }) (upsertInternal E db.coll p)

def delete (db : Db F P G S) (id : Bytes) : Exec (Db F P G S) (Error F) :=
  match logRecord db (record Wal.RecordType.delete db.coll.config.name id) with
  | (db, some e) => .value (db, some e)
  | (db, none) => (deleteInternal db.coll id).lift fun coll => { db with coll := coll }

structure BatchResult (F : Type) where
  total : ℕ
  succeeded : ℕ
  failed : ℕ
  errors : List (Bytes × Error F)
  deriving DecidableEq, Repr

def BatchResult.fail (r : BatchResult F) (id : Bytes) (e : Error F) : BatchResult F :=
  { r with failed := r.failed + 1, errors := r.errors ++ [(id, e)] }

def checkBatch (cfg : CollectionConfig) : List (Point F P) → BatchResult F →
    List (Point F P) × BatchResult F
  | [], r => ([], r)
  | p :: ps, r =>
    match p.validate with
    | .error e => checkBatch cfg ps (r.fail p.id (.invalid e))
    | .ok () =>
      if p.vector.length ≠ cfg.dimension then
        checkBatch cfg ps (r.fail p.id .dimensionMismatch)
      else
        let (valid, r) := checkBatch cfg ps r
        (p :: valid, r)

def serializeBatch (K : Codec F P) (name : Bytes) : List (Point F P) → BatchResult F →
    List Wal.Record × BatchResult F
  | [], r => ([], r)
  | p :: ps, r =>
    match K.serializePoint p with
    | .error e => serializeBatch K name ps (r.fail p.id (.serialize e))
    | .ok data =>
      let (records, r) := serializeBatch K name ps r
      (record Wal.RecordType.insert name data :: records, r)

def applyBatch (E : Env F P G S) : List (Point F P) → Collection F P G S → BatchResult F →
    Outcome Empty (Collection F P G S × BatchResult F)
  | [], c, r => .value (c, r)
  | p :: ps, c, r => do
    let (c, err) ← insertInternal E c p
    match err with
    | some e => applyBatch E ps c (r.fail p.id e)
    | none => applyBatch E ps c { r with succeeded := r.succeeded + 1 }

def insertBatch (E : Env F P G S) (K : Codec F P) (db : Db F P G S) (ps : List (Point F P)) :
    Outcome Empty (Db F P G S × BatchResult F × Option (Error F)) :=
  let r : BatchResult F := ⟨ps.length, 0, 0, []⟩
  if ps = [] then .value (db, r, none)
  else
    let (valid, r) := checkBatch db.coll.config ps r
    match db.wal, valid with
    | some w, _ :: _ =>
      let (records, r) := serializeBatch K db.coll.config.name valid r
      match w.write records with
      | (w, false) => .value ({ db with wal := some w }, r, some .walBatchWrite)
      | (w, true) => do
        let (coll, r) ← applyBatch E valid db.coll r
        return (⟨coll, some w⟩, r, none)
    | wal, valid => do
      let (coll, r) ← applyBatch E valid db.coll r
      return (⟨coll, wal⟩, r, none)

inductive Call (F P : Type) where
  | insert (p : Point F P)
  | insertBatch (ps : List (Point F P))
  | upsert (p : Point F P)
  | delete (id : Bytes)
  deriving DecidableEq, Repr

def Call.points : Call F P → List (Point F P)
  | .insert p => [p]
  | .insertBatch ps => ps
  | .upsert p => [p]
  | .delete _ => []

inductive Reply (F : Type) where
  | error (err : Option (Error F))
  | batch (r : BatchResult F) (err : Option (Error F))
  deriving DecidableEq, Repr

def Exec.reply {σ : Type} : Exec σ (Error F) → Outcome Empty (σ × Reply F)
  | .value (s, err) => .value (s, .error err)
  | .error e => .error e
  | .panic => .panic

def call (E : Env F P G S) (K : Codec F P) (db : Db F P G S) :
    Call F P → Outcome Empty (Db F P G S × Reply F)
  | .insert p => (insert E K db p).reply
  | .insertBatch ps => do
    let (db, r, err) ← insertBatch E K db ps
    return (db, .batch r err)
  | .upsert p => (upsert E K db p).reply
  | .delete id => (delete db id).reply

def calls (E : Env F P G S) (K : Codec F P) :
    Db F P G S → List (Call F P) → Outcome Empty (Db F P G S × List (Reply F))
  | db, [] => .value (db, [])
  | db, c :: cs => do
    let (db, reply) ← call E K db c
    let (db, replies) ← calls E K db cs
    return (db, reply :: replies)

/-! ## The two steps of a call -/

/-- A call on one id, in two steps: its write to the log, and its work under the lock. -/
inductive Op (F P : Type) where
  | insert (p : Point F P)
  | upsert (p : Point F P)
  | delete (id : Bytes)
  deriving DecidableEq, Repr

namespace Op

def call : Op F P → Call F P
  | .insert p => .insert p
  | .upsert p => .upsert p
  | .delete id => .delete id

def id : Op F P → Bytes
  | .insert p => p.id
  | .upsert p => p.id
  | .delete id => id

def log (K : Codec F P) (db : Db F P G S) : Op F P → Db F P G S × Option (Error F)
  | .insert p =>
    match p.validate with
    | .error e => (db, some (.invalid e))
    | .ok () => logPoint K db Wal.RecordType.insert p
  | .upsert p =>
    match p.validate with
    | .error e => (db, some (.invalid e))
    | .ok () =>
      if p.vector.length ≠ db.coll.config.dimension then (db, some .dimensionMismatch)
      else logPoint K db Wal.RecordType.update p
  | .delete id => logRecord db (record Wal.RecordType.delete db.coll.config.name id)

def lock (E : Env F P G S) (c : Collection F P G S) : Op F P → Exec (Collection F P G S) (Error F)
  | .insert p => insertInternal E c p
  | .upsert p => upsertInternal E c p
  | .delete id => deleteInternal c id

end Op

end Collection

end LimyeDB
