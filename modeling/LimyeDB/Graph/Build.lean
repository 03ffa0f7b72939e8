/-
  THE GRAPH AS IT GROWS: Insert with the search for neighbours, their selection and the links back, layer by
  layer.
-/
import LimyeDB.Graph.Search

namespace LimyeDB.Graph

open Go Hnsw Lib

variable {F P D Q C S : Type} [Distance D]

section Link

variable (T : Tools F D Q C S) (h : Index F P Q C S)

/-! ## The selection -/

/-- The candidate is not closer to a selected one than to the node; one without a vector does not
    count. -/
def accepts (cVec : List F) (c : Candidate D) : List (Candidate D) → Outcome Empty Bool
  | [] => .value true
  | s :: selected => do
    let sVec ← vectorAt T h s.id
    if sVec ≠ [] ∧ Distance.lt (T.distance cVec sVec) c.distance = true then return false
    accepts cVec c selected

/-- The loop over the sorted candidates: those that are selected, and those that are discarded. -/
def selectLoop (maxConn : ℕ) : List (Candidate D) → List (Candidate D) × List (Candidate D) →
    Outcome Empty (List (Candidate D) × List (Candidate D))
  | [], s => .value s
  | c :: working, (selected, discarded) =>
    if maxConn ≤ selected.length then .value (selected, discarded)
    else do
      let cVec ← vectorAt T h c.id
      if cVec = [] then selectLoop maxConn working (selected, discarded ++ [c])
      else
        let accept ← accepts T h cVec c selected
        if accept then selectLoop maxConn working (selected ++ [c], discarded)
        else selectLoop maxConn working (selected, discarded ++ [c])

/-- The selected ones, filled up with discarded ones. -/
def selectNeighborsHeuristic (candidates : List (Candidate D)) (maxConn : ℕ) :
    Outcome Empty (List (Candidate D)) :=
  if candidates.length ≤ maxConn then .value candidates
  else do
    let (selected, discarded) ← selectLoop T h maxConn (T.sort candidates) ([], [])
    return selected ++ discarded.take (maxConn - selected.length)

end Link

/-! ## The links of one layer -/

section Connect

variable (T : Tools F D Q C S)

/-- One link; a list that is full is selected anew, with the link among the candidates. -/
def addConnection (h : Index F P Q C S) (fromID toID layer maxConn : ℕ) :
    Outcome Empty (Index F P Q C S) := do
  let conns ← getConnections h fromID layer
  if toID ∈ conns then return h
  if conns.length < maxConn then setConnections h fromID layer (conns ++ [toID])
  else
    let fromVec ← vectorAt T h fromID
    let candidates ← (conns ++ [toID]).mapM fun connID => do
      let v ← vectorAt T h connID
      return (⟨connID, T.distance fromVec v⟩ : Candidate D)
    let selected ← selectNeighborsHeuristic T h candidates maxConn
    setConnections h fromID layer (selected.map Candidate.id)

def addConnections (nodeID layer maxConn : ℕ) : Index F P Q C S → List (Candidate D) →
    Outcome Empty (Index F P Q C S)
  | h, [] => .value h
  | h, c :: selected => do
    let h ← addConnection T h c.id nodeID layer maxConn
    addConnections nodeID layer maxConn h selected

/-- The node's own links, and the links back to it. -/
def selectNeighbors (h : Index F P Q C S) (nodeID : ℕ) (candidates : List (Candidate D))
    (layer : ℕ) : Outcome Empty (Index F P Q C S) := do
  let ownMax := if layer = 0 then h.graph.Mmax0 else h.M
  let neighborMax := if layer = 0 then h.graph.Mmax0 else h.Mmax
  let _ ← vectorAt T h nodeID
  let selected ← selectNeighborsHeuristic T h candidates ownMax
  let h ← setConnections h nodeID layer (selected.map Candidate.id)
  addConnections T nodeID layer neighborMax h selected

/-- From layer `l` down to 0, each search beginning where the one above has ended. The pool hands
    out the list `visited l`. -/
def connectLayers (visited : ℕ → VisitedList) (query : List F) (nodeID : ℕ) :
    ℕ → ℕ → Index F P Q C S → Outcome Empty (Index F P Q C S)
  | l, currNode, h => do
    let neighbors ← searchLayer T h query (visited l) currNode h.graph.efConstruction l
    let h ← selectNeighbors T h nodeID neighbors l
    match neighbors with
    | [] => .panic
    | c :: _ =>
      match l with
      | 0 => .value h
      | l + 1 => connectLayers visited query nodeID l c.id h

/-! ## Insert -/

/-- The quantised vector, which may train the quantizer. -/
def encode (g : GraphState Q C) (v : List F) : Outcome Empty (GraphState Q C × Option C) :=
  match g.quantizer with
  | none => .value (g, none)
  | some q => do
    let (q, code) ← T.encode q v
    return ({ g with quantizer := some q }, code)

/-- The loops at the end of `Insert`. -/
def connect (visited : ℕ → VisitedList) (h : Index F P Q C S) (v : List F) (nodeID entryPoint : ℕ)
    (currentMaxLevel : Int) (level : ℕ) : Outcome Empty (GraphState Q C) := do
  let currNode ← descend T h v level currentMaxLevel.toNat entryPoint
  let h ← connectLayers T visited v nodeID (min level currentMaxLevel.toNat) currNode h
  return h.graph

/-- The environment of the store of points. The lists that the pool hands out may depend on all of the index. -/
def Tools.env (pool : Index F P Q C S → ℕ → VisitedList) : Env F P (GraphState Q C) S where
  Code := Option C
  encode := Graph.encode T
  addNode g nodeID level code := .value
    ({ g with
      links := g.links.addNode nodeID level
      quantized := Function.update g.quantized nodeID code }, none)
  connect h := Graph.connect T (pool h) h
  connections g nodeID level := g.links.saved nodeID level
  restore g nodeID level connections := do
    let links ← g.links.restore nodeID level connections
    return ({ g with links := links }, none)
  mmap := T.mmap

def insert (visited : ℕ → VisitedList) (h : Index F P Q C S) (p : Point F P) :
    Outcome Empty (Index F P Q C S × Option IndexError) :=
  Hnsw.insert (T.env fun _ => visited) h p

end Connect

/-! ## The calls on an index -/

/-- `Size`: counters of 64 bits, which this many nodes do not overflow. -/
def size (h : Index F P Q C S) : Int := (h.nodeCount : Int) - h.deletedCount

/-- The live points in the order of their nodes; a nil node panics. -/
def getAllPoints (T : Tools F D Q C S) (h : Index F P Q C S) :
    Outcome Empty (List (Point F P)) := do
  let points ← h.nodes.mapM fun
    | none => (.panic : Outcome Empty (Option (Point F P)))
    | some node => .value
      (if node.deleted then none else some ⟨node.id, getVector T.mmap h node, node.payload, [], none⟩)
  return points.reduceOption

def setEfSearch (h : Index F P Q C S) (ef : Int) : Index F P Q C S := { h with efSearch := ef }

inductive Action (F P : Type) where
  | insert (p : Point F P) (visited : ℕ → VisitedList)
  | delete (id : Bytes)
  | setEfSearch (ef : Int)

/-- The insert of a point on the line. -/
def Action.put (id : UInt8) (x : ℕ) : Action ℕ ℕ := .insert ⟨[id], [x], none, [], none⟩ fun _ => .new 4

def act (T : Tools F D Q C S) (h : Index F P Q C S) :
    Action F P → Outcome Empty (Index F P Q C S × Option IndexError)
  | .insert p visited => insert T visited h p
  | .delete id =>
    match Hnsw.delete h id with
    | .value h => .value (h, none)
    | .error e => .value (h, some e)
    | .panic => .panic
  | .setEfSearch ef => .value (setEfSearch h ef, none)

def step (T : Tools F D Q C S) (h : Index F P Q C S) (a : Action F P) :
    Option (Index F P Q C S) :=
  match act T h a with
  | .value (h, _) => some h
  | _ => none

end LimyeDB.Graph
