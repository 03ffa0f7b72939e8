/-
  THE SEARCHES OF A COLLECTION: by a dense query, with a filter, fused with the results of a sparse query,
  through the cache; and Scroll, page by page.
-/
import LimyeDB.Hybrid.Collection

namespace LimyeDB.Hybrid

open Go Hnsw
open LimyeDB.Graph (Index Tools Distance VisitedList Candidate)

/-- The filter is a call of Evaluate on the payload, which may panic. -/
structure SearchParams (F P : Type) where
  K : Int
  Ef : Int
  Filter : Option (Option P → Outcome Empty Bool)
  WithVector : Bool
  WithPayload : Bool
  SparseQuery : Option (SparseVector F)

inductive SearchError where
  | dimensionMismatch
  | unknownVector (name : Bytes)
  | noConfig
  | index (e : IndexError)
  deriving DecidableEq, Repr

variable {F P D Q C S : Type} [Distance D]

/-! ## On one index -/

def SearchParams.ef (params : SearchParams F P) : Int := if params.Ef = 0 then 100 else params.Ef

/-- The parameters of the filtered search; radius and selectivity are not given. -/
def SearchParams.filtered (params : SearchParams F P) (f : Option P → Outcome Empty Bool) :
    Graph.SearchParams P D :=
  ⟨params.K, params.ef, Distance.zero, some fun _ payload => f payload, some 0⟩

def denseCandidates (T : Tools F D Q C S) (h : Index F P Q C S) (visited : VisitedList)
    (query : List F) (params : SearchParams F P) : Outcome IndexError (List (Candidate D)) :=
  match params.Filter with
  | some f => Graph.searchWithFilter T h query visited (params.filtered f)
  | none => Graph.searchWithEf T h query visited params.K params.ef

/-- `GetPointID`: a number beyond the nodes has the empty id. -/
def getPointID (h : Index F P Q C S) (nodeID : ℕ) : Outcome Empty Bytes :=
  match h.nodes[nodeID]? with
  | none => .value []
  | some none => .panic
  | some (some node) => .value node.id

/-- The vector and the payload if they are asked for. -/
def ScoredPoint.of (params : SearchParams F P) (id : Bytes) (score : D) (p : Point F P) :
    ScoredPoint F P D where
  id := id
  score := score
  vector := if params.WithVector then p.vector else []
  payload := if params.WithPayload then p.payload else none

/-- The points of numbers with their scores; a number whose point is not found is passed over. `name` says how
    a result is named. -/
def pointsAt (T : Tools F D Q C S) (h : Index F P Q C S) (params : SearchParams F P)
    (name : Bytes → Point F P → Bytes) : List (ℕ × D) → Outcome Empty (List (ScoredPoint F P D))
  | [] => .value []
  | (nodeID, score) :: docs => do
    let id ← getPointID h nodeID
    match Hnsw.get T.mmap h id with
    | .panic => .panic
    | .error _ => pointsAt T h params name docs
    | .value p =>
      let points ← pointsAt T h params name docs
      return ScoredPoint.of params (name id p) score p :: points

section Search

variable (K : Kit F P D Q C S)

def densePoints (T : Tools F D Q C S) (h : Index F P Q C S) (params : SearchParams F P)
    (candidates : List (Candidate D)) : Outcome Empty (List (ScoredPoint F P D)) :=
  pointsAt T h params (fun _ p => p.id) (candidates.map fun c => (c.id, K.similarity c.distance))

def denseMatches (h : Index F P Q C S) (points : List (ScoredPoint F P D)) :
    List (ScoredDoc D) :=
  points.filterMap fun sp => (h.idToIndex sp.id).map fun nodeID => ⟨nodeID, sp.score⟩

def fusePoints (T : Tools F D Q C S) (h : Index F P Q C S) (sparseIdx : InvertedIndex F)
    (params : SearchParams F P) (points : List (ScoredPoint F P D)) :
    Outcome Empty (List (ScoredPoint F P D)) :=
  match params.SparseQuery with
  | none => .value points
  | some sparseVec => do
    let sparseMatches ← sparseIdx.search K.toScores sparseVec params.K
    let fusedDocs ← fuseRRF K.toScores (denseMatches h points) sparseMatches params.K
    pointsAt T h params (fun id _ => id) (fusedDocs.map fun fd => (fd.docID, fd.finalScore))

def searchIndex (T : Tools F D Q C S) (h : Index F P Q C S) (sparseIdx : InvertedIndex F)
    (visited : VisitedList) (query : List F) (params : SearchParams F P) :
    Outcome IndexError (List (ScoredPoint F P D)) := do
  let candidates ← denseCandidates T h visited query params
  Graph.lift do
    let points ← densePoints K T h params candidates
    fusePoints K T h sparseIdx params points

/-! ## The calls -/

variable [Scalar F]

def searchUncached (c : Collection F P D Q C S) (visited : VisitedList) (query : List F)
    (params : SearchParams F P) : Outcome SearchError (List (ScoredPoint F P D)) :=
  if query.length ≠ c.config.dimension then .error .dimensionMismatch
  else
    match c.index with
    | none => .panic
    | some h => (searchIndex K (K.tools []) h c.sparseIdx visited
        (asStored c.config.metric query) params).mapError .index

def SearchParams.useCache (params : SearchParams F P) : Bool :=
  params.Filter.isNone && params.SparseQuery.isNone

/-- The call begins at `now` and ends at `later`. A hit comes before all checks. -/
def searchWithParams (c : Collection F P D Q C S) (now later : ℕ) (visited : VisitedList)
    (query : List F) (params : SearchParams F P) :
    Outcome Empty (Collection F P D Q C S × Except SearchError (List (ScoredPoint F P D))) :=
  if params.useCache then
    let key := K.searchKey c.config.name query params.K
    match c.searchCache.get now key with
    | (cache, some points) => .value ({ c with searchCache := cache }, .ok points)
    | (cache, none) =>
      match searchUncached K c visited query params with
      | .panic => .panic
      | .error e => .value ({ c with searchCache := cache }, .error e)
      | .value points =>
        .value ({ c with searchCache := cache.set later key points }, .ok points)
  else
    match searchUncached K c visited query params with
    | .panic => .panic
    | .error e => .value (c, .error e)
    | .value points => .value (c, .ok points)

/-- The empty name stands for "default" if there are named vectors. -/
def searchV2WithParams (c : Collection F P D Q C S) (visited : VisitedList) (query : List F)
    (vectorName : Bytes) (params : SearchParams F P) :
    Outcome SearchError (List (ScoredPoint F P D)) := do
  let (name, idx) ← (if c.config.hasNamedVectors then
      let name := if vectorName = [] then defaultName else vectorName
      match c.indices name with
      | none => .error (.unknownVector name)
      | some h => .value (name, some h)
    else .value ([], c.index) : Outcome SearchError (Bytes × Option (Index F P Q C S)))
  match c.config.getVectorConfig name with
  | none => .error .noConfig
  | some vc =>
    if query.length ≠ vc.dimension then .error .dimensionMismatch
    else
      match idx with
      | none => .panic
      | some h => (searchIndex K (K.tools name) h c.sparseIdx visited
          (asStored vc.metric query) params).mapError .index

/-! ## Scroll -/

structure ScrollParams (P : Type) where
  Offset : Bytes
  Limit : Int
  Filter : Option (Option P → Outcome Empty Bool)
  WithVector : Bool
  WithPayload : Bool

structure ScrollResult (F P D : Type) where
  points : List (ScoredPoint F P D)
  nextOffset : Bytes
  deriving DecidableEq, Repr

/-- Between 1 and 1000; 10 is the default. -/
def ScrollParams.limit (params : ScrollParams P) : ℕ :=
  if params.Limit ≤ 0 then 10 else if 1000 < params.Limit then 1000 else params.Limit.toNat

def evaluate (filter : Option (Option P → Outcome Empty Bool)) (payload : Option P) : Outcome Empty Bool :=
  match filter with
  | none => .value true
  | some f => f payload

omit [Distance D] [Scalar F] in
def filteredPoints (filter : Option (Option P → Outcome Empty Bool)) :
    List (Point F P) → Outcome Empty (List (Point F P))
  | [] => .value []
  | p :: allPoints => do
    let passes ← evaluate filter p.payload
    let points ← filteredPoints filter allPoints
    return if passes then p :: points else points

/-- The place behind the offset; 0 if it is not found. -/
def startIdx (offset : Bytes) (points : List (Point F P)) : ℕ :=
  if offset = [] then 0
  else
    match points.findIdx? fun p => decide (p.id = offset) with
    | some i => i + 1
    | none => 0

def pageOf (params : ScrollParams P) (points : List (Point F P)) : ScrollResult F P D :=
  let start := startIdx params.Offset points
  let stop := min (start + params.limit) points.length
  let page := (points.take stop).drop start
  { points := page.map fun p => ⟨p.id, Distance.zero, if params.WithVector then p.vector else [],
      if params.WithPayload then p.payload else none⟩
    nextOffset := match page.getLast? with
      | some p => if stop < points.length then p.id else []
      | none => [] }

/-- `names` are the names of the indices in the order of the loop, which takes the first. -/
def scroll (c : Collection F P D Q C S) (names : List Bytes) (params : ScrollParams P) :
    Outcome Empty (ScrollResult F P D) :=
  let name := if c.config.hasNamedVectors then names.headD [] else []
  match (if c.config.hasNamedVectors then c.indices name else c.index) with
  | none => .value ⟨[], []⟩
  | some h => do
    let allPoints ← Graph.getAllPoints (K.tools name) h
    let points ← filteredPoints params.Filter allPoints
    return pageOf params points

def size (c : Collection F P D Q C S) (names : List Bytes) : Outcome Empty Int :=
  if c.config.hasNamedVectors then
    match names.head?.bind c.indices with
    | some h => .value (Graph.size h)
    | none => .value 0
  else
    match c.index with
    | none => .panic
    | some h => .value (Graph.size h)

end Search

end LimyeDB.Hybrid
