/-
  THE WHOLE COLLECTION: one dense index or one for each vector name, the sparse index, the payload index, the
  search cache, the log and the change events, with every call that writes to them.

  A Go map is listed in the order in which a loop meets its entries.
-/
import LimyeDB.Collection.Operations
import LimyeDB.Graph.Build
import LimyeDB.Hybrid.Sparse
import LimyeDB.Hybrid.Cache

namespace LimyeDB.Hybrid

open Go Hnsw
open LimyeDB.Graph (Index Tools Distance VisitedList Links)
open LimyeDB.Collection (Codec Log Error Exec BatchResult record serializeBatch)

/-! ## The configuration -/

/-- A metric as a text: empty, one of the three, or another. -/
inductive Metric where
  | unset
  | known (m : MetricType)
  | unknown (text : Bytes)
  deriving DecidableEq, Repr

structure VectorConfig where
  dimension : ℕ
  metric : Metric
  M : ℕ
  efConstruction : Int
  efSearch : Int
  deriving DecidableEq, Repr

structure Config where
  name : Bytes
  dimension : ℕ
  metric : Metric
  M : ℕ
  efConstruction : Int
  efSearch : Int
  vectors : List (Bytes × VectorConfig)
  deriving DecidableEq, Repr

def defaultName : Bytes := [100, 101, 102, 97, 117, 108, 116]

namespace Config

inductive Invalid where
  | name
  | dimension
  | metric
  | vectorDimension (name : Bytes)
  | vectorMetric (name : Bytes)
  deriving DecidableEq, Repr

def badDimension (dimension : ℕ) : Bool := dimension = 0 || 65536 < dimension

/-- The check of the named vectors, one after the other. -/
def validateVectors : List (Bytes × VectorConfig) → Except Invalid Unit
  | [] => .ok ()
  | (name, vc) :: vectors =>
    if badDimension vc.dimension then .error (.vectorDimension name)
    else
      match vc.metric with
      | .unknown _ => .error (.vectorMetric name)
      | _ => validateVectors vectors

/-- With named vectors, the dimension and the metric of the collection itself are not looked at. -/
def validate (cfg : Config) : Except Invalid Unit :=
  if cfg.name = [] then .error .name
  else if cfg.vectors ≠ [] then validateVectors cfg.vectors
  else if badDimension cfg.dimension then .error .dimension
  else
    match cfg.metric with
    | .known _ => .ok ()
    | _ => .error .metric

def hasNamedVectors (cfg : Config) : Bool := !cfg.vectors.isEmpty

def getVectorConfig (cfg : Config) (name : Bytes) : Option VectorConfig :=
  if cfg.hasNamedVectors then cfg.vectors.lookup name
  else if name = [] ∨ name = defaultName then
    some ⟨cfg.dimension, cfg.metric, cfg.M, cfg.efConstruction, cfg.efSearch⟩
  else none

end Config

/-! ## The collection -/

inductive EventType where
  | insert
  | update
  | delete
  deriving DecidableEq, Repr

structure Event where
  collection : Bytes
  type : EventType
  pointID : Bytes
  deriving DecidableEq, Repr

/-- What the dispatcher was given, and whether its buffer is full at each of the calls to come. -/
structure Dispatcher where
  events : List Event
  full : Stream' Bool

def Dispatcher.publish (d : Dispatcher) (e : Event) : Dispatcher where
  events := if d.full.head then d.events else d.events ++ [e]
  full := d.full.tail

structure ScoredPoint (F P D : Type) where
  id : Bytes
  score : D
  vector : List F
  payload : Option P
  deriving DecidableEq, Repr

/-- The dispatcher is global in the source; here it is seen from the one collection. -/
structure Collection (F P D Q C S : Type) where
  config : Config
  index : Option (Index F P Q C S)
  indices : Bytes → Option (Index F P Q C S)
  payloads : ℕ → Option P
  sparseIdx : InvertedIndex F
  searchCache : Cache (List (ScoredPoint F P D))
  wal : Option Log
  dispatcher : Dispatcher

/-- The tools of each index (the default one goes by the empty name), the pool's lists when a node is linked,
    the codec of points, whether a payload has no fields, and the key of a search. -/
structure Kit (F P D Q C S : Type) [Distance D] extends Scores F D where
  tools : Bytes → Tools F D Q C S
  pool : Bytes → ℕ → ℕ → VisitedList
  codec : Codec F P
  blank : P → Bool
  searchKey : Bytes → List F → Int → Bytes

/-- What a new index starts from: its random levels, its quantizer and its files. -/
structure Parts (Q S : Type) where
  rng : Stream' ℕ
  quantizer : Option Q
  links : Links
  vectorMmap : Option S

inductive NewError where
  | config (e : Config.Invalid)
  | index (e : Hnsw.NewError)
  deriving DecidableEq, Repr

variable {F P D Q C S : Type}

def newIndex (cfg : Graph.Config) (parts : Parts Q S) : Except NewError (Index F P Q C S) :=
  match Graph.new cfg parts.rng parts.quantizer parts.links parts.vectorMmap with
  | .error e => .error (.index e)
  | .ok h => .ok h

/-- The configuration of a named index, with the defaults for what is 0. -/
def VectorConfig.indexConfig (vc : VectorConfig) : Graph.Config where
  M := if vc.M = 0 then 16 else vc.M
  efConstruction := if vc.efConstruction = 0 then 200 else vc.efConstruction
  efSearch := if vc.efSearch = 0 then 100 else vc.efSearch
  dimension := vc.dimension

def newIndices (parts : Bytes → Parts Q S) : List (Bytes × VectorConfig) →
    Except NewError (Bytes → Option (Index F P Q C S))
  | [] => .ok fun _ => none
  | (name, vc) :: vectors => do
    let h ← newIndex vc.indexConfig (parts name)
    let indices ← newIndices parts vectors
    return Function.update indices name (some h)

/-- A cache of 10000 entries for five minutes. The payload index is a file that may have rows from
    before. -/
def new (cfg : Config) (parts : Bytes → Parts Q S) (payloads : ℕ → Option P)
    (dispatcher : Dispatcher) : Except NewError (Collection F P D Q C S) :=
  match cfg.validate with
  | .error e => .error (.config e)
  | .ok () => do
    let c : Collection F P D Q C S :=
      { config := cfg, index := none, indices := fun _ => none, payloads := payloads
        sparseIdx := .new, searchCache := Cache.new 10000 300, wal := none
        dispatcher := dispatcher }
    if cfg.hasNamedVectors then
      let indices ← newIndices parts cfg.vectors
      return { c with indices := indices }
    else
      let h ← newIndex ⟨cfg.M, cfg.efConstruction, cfg.efSearch, cfg.dimension⟩ (parts [])
      return { c with index := some h }

def andThen {σ ε : Type} (x : Exec σ ε) (next : σ → Exec σ ε) : Exec σ ε :=
  match x with
  | .value (s, none) => next s
  | x => x

/-! ## Under the lock -/

section Calls

variable [Scalar F] [Distance D] (K : Kit F P D Q C S)

/-- The vector as an index of the metric gets it. A metric that is not set is not cosine here. -/
def asStored (metric : Metric) (v : List F) : List F :=
  if metric = .known .cosine then normalize v else v

omit [Distance D] in
@[simp] theorem length_asStored (metric : Metric) (v : List F) :
    (asStored metric v).length = v.length := by
  unfold asStored
  split
  · exact length_normalize v
  · rfl

def insertInto (name : Bytes) (h : Index F P Q C S) (p : Point F P) :
    Outcome Empty (Index F P Q C S × Option IndexError) :=
  Graph.insert (K.tools name) (K.pool name h.nodes.length) h p

def indexPoint (payloads : ℕ → Option P) (nodeID : ℕ) : Option P → ℕ → Option P
  | none => payloads
  | some pl => if K.blank pl then payloads else Function.update payloads nodeID (some pl)

def insertDefault (c : Collection F P D Q C S) (p : Point F P) :
    Outcome Empty (Collection F P D Q C S × Option (Error F)) :=
  match c.index with
  | none => .value (c, none)
  | some h =>
    if p.vector = [] then .value (c, none)
    else if p.vector.length ≠ c.config.dimension then .value (c, some .dimensionMismatch)
    else do
      let (h, err) ← insertInto K [] h { p with vector := asStored c.config.metric p.vector }
      return ({ c with index := some h }, err.map .index)

/-- The named vectors one after the other; a name without an index is passed over. -/
def insertNamed (id : Bytes) (payload : Option P) : List (Bytes × List F) →
    Collection F P D Q C S → Outcome Empty (Collection F P D Q C S × Option (Error F))
  | [], c => .value (c, none)
  | (name, vec) :: named, c =>
    match c.indices name, c.config.getVectorConfig name with
    | some h, some vc =>
      if vec.length ≠ vc.dimension then .value (c, some .dimensionMismatch)
      else do
        let (h, err) ← insertInto K name h ⟨id, asStored vc.metric vec, payload, [], none⟩
        let c := { c with indices := Function.update c.indices name (some h) }
        match err with
        | some e => return (c, some (.index e))
        | none => insertNamed id payload named c
    | _, _ => insertNamed id payload named c

/-- The payload and the sparse vector, at the number that the default index has for the id. An id
    that it does not know has number 0. -/
def insertRest (c : Collection F P D Q C S) (p : Point F P) :
    Outcome Empty (Collection F P D Q C S × Option (Error F)) :=
  match c.index with
  | none => .panic
  | some h => do
    let nodeID := (h.idToIndex p.id).getD 0
    let c := { c with payloads := indexPoint K c.payloads nodeID p.payload }
    match p.sparse with
    | none => return (c, none)
    | some vec =>
      let sparseIdx ← c.sparseIdx.add nodeID vec
      return ({ c with sparseIdx := sparseIdx }, none)

def insertInternal (c : Collection F P D Q C S) (p : Point F P) :
    Outcome Empty (Collection F P D Q C S × Option (Error F)) :=
  andThen (insertDefault K c p) fun c =>
  andThen (if c.config.hasNamedVectors then insertNamed K p.id p.payload p.namedVectors c
    else .value (c, none)) fun c =>
  insertRest K c p

def deleteQuietly (h : Index F P Q C S) (id : Bytes) : Outcome Empty (Index F P Q C S) :=
  match Hnsw.delete h id with
  | .value h => .value h
  | .error _ => .value h
  | .panic => .panic

/-- The postings of the id go, if the index knows it. -/
def removeSparse (h : Index F P Q C S) (sparseIdx : InvertedIndex F) (id : Bytes) :
    InvertedIndex F :=
  match h.idToIndex id with
  | some nodeID => sparseIdx.remove nodeID
  | none => sparseIdx

/-- The old point is deleted, with its postings; the new one's sparse vector is not added. -/
def upsertInternal (c : Collection F P D Q C S) (p : Point F P) :
    Outcome Empty (Collection F P D Q C S × Option (Error F)) :=
  let p := { p with vector := asStored c.config.metric p.vector }
  match c.index with
  | none => .panic
  | some h => do
    let h ← deleteQuietly h p.id
    let sparseIdx := removeSparse h c.sparseIdx p.id
    let (h, err) ← insertInto K [] h p
    let c := { c with index := some h, sparseIdx := sparseIdx }
    match err with
    | some e => return (c, some (.index e))
    | none =>
      let nodeID := (h.idToIndex p.id).getD 0
      return ({ c with
        payloads := indexPoint K c.payloads nodeID p.payload
        dispatcher := c.dispatcher.publish ⟨c.config.name, .insert, p.id⟩ }, none)

omit [Scalar F] [Distance D] in
def deleteInternal (c : Collection F P D Q C S) (id : Bytes) :
    Outcome Empty (Collection F P D Q C S × Option (Error F)) :=
  match c.index with
  | none => .panic
  | some h =>
    match Hnsw.delete h id with
    | .panic => .panic
    | .error e => .value (c, some (.index e))
    | .value h => .value ({ c with
        index := some h
        sparseIdx := removeSparse h c.sparseIdx id
        dispatcher := c.dispatcher.publish ⟨c.config.name, .delete, id⟩ }, none)

/-! ## The calls -/

def logRecord (c : Collection F P D Q C S) (r : Wal.Record) :
    Collection F P D Q C S × Option (Error F) :=
  match c.wal with
  | none => (c, none)
  | some w =>
    let (w, ok) := w.write [r]
    ({ c with wal := some w }, if ok then none else some .walWrite)

def logPoint (c : Collection F P D Q C S) (type : Wal.RecordType) (p : Point F P) :
    Collection F P D Q C S × Option (Error F) :=
  match c.wal with
  | none => (c, none)
  | some _ =>
    match K.codec.serializePoint p with
    | .error e => (c, some (.serialize e))
    | .ok data => logRecord c (record type c.config.name data)

def invalidate (c : Collection F P D Q C S) : Collection F P D Q C S :=
  { c with searchCache := c.searchCache.clear }

def insert (c : Collection F P D Q C S) (p : Point F P) :
    Outcome Empty (Collection F P D Q C S × Option (Error F)) :=
  match p.validate with
  | .error e => .value (c, some (.invalid e))
  | .ok () =>
    match logPoint K c Wal.RecordType.insert p with
    | (c, some e) => .value (c, some e)
    | (c, none) => andThen (insertInternal K c p) fun c => .value (invalidate c, none)

/-- The cache is not invalidated. -/
def upsert (c : Collection F P D Q C S) (p : Point F P) :
    Outcome Empty (Collection F P D Q C S × Option (Error F)) :=
  match p.validate with
  | .error e => .value (c, some (.invalid e))
  | .ok () =>
    if p.vector.length ≠ c.config.dimension then .value (c, some .dimensionMismatch)
    else
      match logPoint K c Wal.RecordType.update p with
      | (c, some e) => .value (c, some e)
      | (c, none) => upsertInternal K c p

def delete (c : Collection F P D Q C S) (id : Bytes) :
    Outcome Empty (Collection F P D Q C S × Option (Error F)) :=
  match logRecord c (record Wal.RecordType.delete c.config.name id) with
  | (c, some e) => .value (c, some e)
  | (c, none) => andThen (deleteInternal c id) fun c => .value (invalidate c, none)

def checkBatch (cfg : Config) : List (Point F P) → BatchResult F →
    List (Point F P) × BatchResult F
  | [], r => ([], r)
  | p :: ps, r =>
    match p.validate with
    | .error e => checkBatch cfg ps (r.fail p.id (.invalid e))
    | .ok () =>
      if p.vector.length ≠ cfg.dimension then
        checkBatch cfg ps (r.fail p.id .dimensionMismatch)
      else
        let (valid, r) := checkBatch cfg ps r
        (p :: valid, r)

/-- Step 3: the points into the indices, one after the other. -/
def applyBatch : List (Point F P) → Collection F P D Q C S → BatchResult F →
    Outcome Empty (Collection F P D Q C S × BatchResult F)
  | [], c, r => .value (c, r)
  | p :: ps, c, r => do
    let (c, err) ← insertInternal K c p
    match err with
    | some e => applyBatch ps c (r.fail p.id e)
    | none => applyBatch ps c { r with succeeded := r.succeeded + 1 }

/-- Step 2 is one batch of records. A point that cannot be serialised is counted and stays among the valid
    ones. -/
def insertBatch (c : Collection F P D Q C S) (ps : List (Point F P)) :
    Outcome Empty (Collection F P D Q C S × BatchResult F × Option (Error F)) :=
  let r : BatchResult F := ⟨ps.length, 0, 0, []⟩
  if ps = [] then .value (c, r, none)
  else
    let (valid, r) := checkBatch c.config ps r
    let (c, r, err) := match c.wal, valid with
      | some w, _ :: _ =>
        let (records, r) := serializeBatch K.codec c.config.name valid r
        let (w, ok) := w.write records
        ({ c with wal := some w }, r, if ok then none else some .walBatchWrite)
      | _, _ => (c, r, none)
    match err with
    | some e => .value (c, r, some e)
    | none => do
      let (c, r) ← applyBatch K valid c r
      return (invalidate c, r, none)

def get (c : Collection F P D Q C S) (id : Bytes) : Outcome IndexError (Point F P) :=
  match c.index with
  | none => .panic
  | some h => Hnsw.get (K.tools []).mmap h id

/-- The points that `Iterate` hands to a callback that returns nil, up to the first error. -/
def iterateNodes (h : Index F P Q C S) : List (Option (Node F P)) →
    Outcome Empty (List (Point F P) × Option IndexError)
  | [] => .value ([], none)
  | none :: _ => .panic
  | some node :: nodes =>
    if node.deleted then iterateNodes h nodes
    else
      match Hnsw.get (K.tools []).mmap h node.id with
      | .panic => .panic
      | .error e => .value ([], some e)
      | .value p => do
        let (ps, err) ← iterateNodes h nodes
        return (p :: ps, err)

def iterate (c : Collection F P D Q C S) :
    Outcome Empty (List (Point F P) × Option IndexError) :=
  match c.index with
  | none => .panic
  | some h => iterateNodes K h h.nodes

/-! ## InsertV2 -/

abbrev PointV2 := Point

inductive PointV2Error (F : Type) where
  | emptyID
  | emptyVector
  | default (e : PointError F)
  | vector (name : Bytes) (e : PointError F)
  deriving DecidableEq, Repr

def validateVector (v : List F) : Except (PointError F) Unit :=
  if v = [] then .error .emptyVector
  else
    match firstInvalid v with
    | some (i, x) => .error (.invalidVector i x)
    | none => .ok ()

def validateNamed : List (Bytes × List F) → Except (PointV2Error F) Unit
  | [] => .ok ()
  | (name, v) :: named =>
    match validateVector v with
    | .error e => .error (.vector name e)
    | .ok () => validateNamed named

def PointV2.validateV2 (p : PointV2 F P) : Except (PointV2Error F) Unit :=
  if p.id = [] then .error .emptyID
  else if p.vector = [] ∧ p.namedVectors = [] ∧ p.sparse.isNone then .error .emptyVector
  else
    match (if p.vector = [] then .ok () else validateVector p.vector) with
    | .error e => .error (.default e)
    | .ok () => validateNamed p.namedVectors

/-- `GetVector("")`: the default vector, the one named "default", or the only one. -/
def PointV2.defaultVector (p : PointV2 F P) : Option (List F) :=
  if p.vector ≠ [] then some p.vector
  else
    match p.namedVectors.lookup defaultName, p.namedVectors with
    | some v, _ => some v
    | none, [(_, v)] => some v
    | none, _ => none

inductive VectorError (F : Type) where
  | invalid (e : PointV2Error F)
  | unknownVector (name : Bytes)
  | noConfig (name : Bytes)
  | dimensionMismatch
  | emptyVector
  | index (e : IndexError)
  deriving DecidableEq, Repr

/-- An id that the index knows already is no error: it keeps what it has. -/
def otherError : Option IndexError → Option (VectorError F)
  | none => none
  | some .pointExists => none
  | some e => some (.index e)

def insertVector (c : Collection F P D Q C S) (name : Bytes) (h : Index F P Q C S)
    (p : Point F P) : Outcome Empty (Collection F P D Q C S × Option (VectorError F)) := do
  let (h, err) ← insertInto K name h p
  return ({ c with indices := Function.update c.indices name (some h) }, otherError err)

/-- The vectors one after the other, each with its checks before it is inserted. -/
def insertVectors (p : PointV2 F P) : List (Bytes × List F) → Collection F P D Q C S →
    Outcome Empty (Collection F P D Q C S × Option (VectorError F))
  | [], c => .value (c, none)
  | (name, vec) :: vectors, c =>
    match c.indices name with
    | none => .value (c, some (.unknownVector name))
    | some h =>
      match c.config.getVectorConfig name with
      | none => .value (c, some (.noConfig name))
      | some vc =>
        if vec.length ≠ vc.dimension then .value (c, some .dimensionMismatch)
        else andThen (insertVector K c name h { p with vector := asStored vc.metric vec })
          (insertVectors p vectors)

/-- The default vector, if there is an index of that name. It is not normalised. -/
def insertDefaultVector (p : PointV2 F P) (c : Collection F P D Q C S) :
    Outcome Empty (Collection F P D Q C S × Option (VectorError F)) :=
  if p.vector = [] then .value (c, none)
  else
    match c.indices defaultName with
    | none => .value (c, none)
    | some h => insertVector K c defaultName h p

/-- The payload, at the number that the first index has which knows the id; `names` are the names
    in the order of the loop. -/
def indexPayloadV2 (names : List Bytes) (p : PointV2 F P) (c : Collection F P D Q C S) :
    Collection F P D Q C S :=
  match names.findSome? fun name => (c.indices name).bind fun h => h.idToIndex p.id with
  | some nodeID => { c with payloads := indexPoint K c.payloads nodeID p.payload }
  | none => c

/-- Into the default index of a single-vector collection. -/
def insertLegacy (c : Collection F P D Q C S) (p : PointV2 F P) :
    Outcome Empty (Collection F P D Q C S × Option (VectorError F)) :=
  match p.defaultVector with
  | none => .value (c, some .emptyVector)
  | some vec =>
    if vec.length ≠ c.config.dimension then .value (c, some .dimensionMismatch)
    else
      match c.index with
      | none => .panic
      | some h => do
        let (h, err) ← insertInto K [] h { p with vector := asStored c.config.metric vec }
        let c := { c with index := some h }
        match err with
        | some e => return (c, some (.index e))
        | none =>
          let nodeID := (h.idToIndex p.id).getD 0
          return ({ c with payloads := indexPoint K c.payloads nodeID p.payload }, none)

/-- Without the log, and without invalidating the cache. -/
def insertV2 (c : Collection F P D Q C S) (names : List Bytes) (p : PointV2 F P) :
    Outcome Empty (Collection F P D Q C S × Option (VectorError F)) :=
  match p.validateV2 with
  | .error e => .value (c, some (.invalid e))
  | .ok () =>
    if c.config.hasNamedVectors then
      andThen (insertVectors K p p.namedVectors c) fun c =>
      andThen (insertDefaultVector K p c) fun c =>
      .value (indexPayloadV2 K names p c, none)
    else insertLegacy K c p

end Calls

end LimyeDB.Hybrid
