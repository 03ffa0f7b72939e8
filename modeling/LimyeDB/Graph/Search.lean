/-
  THE SEARCHES: the greedy walk down the layers, the best-first search of a layer with and without a filter,
  and the range search.
-/
import LimyeDB.Graph.Index

namespace LimyeDB.Graph

open Go Hnsw Lib

variable {F P D Q C S : Type} [Distance D]

section Layer

variable (T : Tools F D Q C S) (h : Index F P Q C S) (query : List F)

/-! ## The greedy walk -/

/-- The loop over the neighbours: the node to go on with, its distance, and whether it changed. -/
def greedyStep : List ℕ → ℕ × D × Bool → Outcome Empty (ℕ × D × Bool)
  | [], s => .value s
  | neighborID :: neighbors, (currentID, currentDist, changed) => do
    let deleted ← isDeleted h neighborID
    if deleted then greedyStep neighbors (currentID, currentDist, changed)
    else
      let dist ← distanceTo T h query neighborID
      if Distance.lt dist currentDist then greedyStep neighbors (neighborID, dist, true)
      else greedyStep neighbors (currentID, currentDist, changed)

/-- The distance falls with every turn, so one turn a node is enough. -/
def greedyLoop (layer : ℕ) : ℕ → ℕ → D → Outcome Empty ℕ
  | 0, _, _ => .panic
  | fuel + 1, currentID, currentDist => do
    let neighbors ← getConnections h currentID layer
    let (currentID, currentDist, changed) ←
      greedyStep T h query neighbors (currentID, currentDist, false)
    if changed then greedyLoop layer fuel currentID currentDist else return currentID

def greedySearchLayer (entryID layer : ℕ) : Outcome Empty ℕ := do
  let currentDist ← distanceTo T h query entryID
  greedyLoop T h query layer (h.nodes.length + 1) entryID currentDist

def descend (stop : ℕ) : ℕ → ℕ → Outcome Empty ℕ
  | 0, currNode => .value currNode
  | l + 1, currNode =>
    if stop < l + 1 then do
      let currNode ← greedySearchLayer T h query currNode (l + 1)
      descend stop l currNode
    else .value currNode

/-! ## The search of a layer -/

def worst (results : List (Candidate D)) : Outcome Empty D :=
  match results with
  | c :: _ => .value c.distance
  | [] => .panic

def tooFar (ef : Int) (curr : Candidate D) (results : List (Candidate D)) : Outcome Empty Bool :=
  if (results.length : Int) < ef then .value false
  else do
    let d ← worst results
    return Distance.lt d curr.distance

def improves (ef : Int) (dist : D) (results : List (Candidate D)) : Outcome Empty Bool :=
  if (results.length : Int) < ef then .value true
  else do
    let d ← worst results
    return Distance.lt dist d

def dropWorst (results : List (Candidate D)) : Outcome Empty (List (Candidate D)) :=
  match Heap.pop farther results with
  | some (_, results) => .value results
  | none => .panic

/-- A neighbour that improves the results goes to both heaps, and the worst result may go. -/
def searchRules (ef : Int) (layer : ℕ) : Explore.Rules ℕ (Candidate D) where
  pop := Heap.pop closer
  stop := tooFar ef
  neighbors c := getConnections h c.id layer
  consider neighborID s := do
    let (candidates, results) := s
    let deleted ← isDeleted h neighborID
    if deleted then return (candidates, results)
    let dist ← distanceTo T h query neighborID
    let better ← improves ef dist results
    if better then
      let candidates := Heap.push closer candidates ⟨neighborID, dist⟩
      let results := Heap.push farther results ⟨neighborID, dist⟩
      if ef < (results.length : Int) then
        let results ← dropWorst results
        return (candidates, results)
      else return (candidates, results)
    else return (candidates, results)

def sortedResults (results : List (Candidate D)) : List (Candidate D) :=
  (Heap.drain farther results).reverse

/-- The list from the pool is `visited`. The entry is among the results, deleted or not. -/
def searchLayer (visited : VisitedList) (entryID : ℕ) (ef : Int) (layer : ℕ) :
    Outcome Empty (List (Candidate D)) := do
  let visited := (visited.reset.add entryID).1
  let entryDist ← distanceTo T h query entryID
  let results ← Explore.explore (searchRules T h query ef layer) VisitedList.add
    (h.nodes.length + 1)
    (visited, Heap.push closer [] ⟨entryID, entryDist⟩, Heap.push farther [] ⟨entryID, entryDist⟩)
  return sortedResults results

/-! ## The search of a layer with a filter -/

/-- The filter may panic. -/
structure SearchParams (P D : Type) where
  K : Int
  Ef : Int
  Radius : D
  Filter : Option (Bytes → Option P → Outcome Empty Bool)
  EstimatedSelectivity : Option ℚ    -- none is NaN

def wrapInt (x : Int) : Int := x.bmod 18446744073709551616

/-- The multiplier; NaN is in no case but the last. -/
def efMultiplier : Option ℚ → ℚ
  | none => 10
  | some s =>
    let s := if s ≤ 0 ∨ 1 < s then 1 / 2 else s
    if 4 / 5 ≤ s then 3 / 2
    else if 1 / 2 ≤ s then 2
    else if 1 / 5 ≤ s then 3
    else if 1 / 10 ≤ s then 5
    else if 1 / 20 ≤ s then 7
    else 10

def calculateAdaptiveEf (ef : Int) (estimatedSelectivity : Option ℚ) : Int :=
  let adaptiveEf := T.scaleEf (efMultiplier estimatedSelectivity) ef
  let maxEf := wrapInt (ef * 15)
  if maxEf < adaptiveEf then maxEf else adaptiveEf

/-- The caller's estimate, or a third. -/
def selectivity : Option ℚ → Option ℚ
  | none => none
  | some s => if s ≤ 0 then some (33 / 100) else some s

def passesFilter (params : SearchParams P D) (node : Node F P) : Outcome Empty Bool :=
  match params.Filter with
  | none => .value true
  | some f => f node.id node.payload

def dropWhileLonger (ef : Int) : ℕ → List (Candidate D) → Outcome Empty (List (Candidate D))
  | 0, results => .value results
  | fuel + 1, results =>
    if ef < (results.length : Int) then do
      let results ← dropWorst results
      dropWhileLonger ef fuel results
    else .value results

/-- The results with a live neighbour, if it passes, is not outside the radius and improves them. -/
def filterResults (params : SearchParams P D) (ef : Int) (node : Node F P) (c : Candidate D)
    (results : List (Candidate D)) : Outcome Empty (List (Candidate D)) := do
  let passes ← passesFilter params node
  if !passes then .value results
  else if Distance.lt Distance.zero params.Radius && Distance.lt params.Radius c.distance then
    .value results
  else do
    let better ← improves ef c.distance results
    if better then
      let results := Heap.push farther results c
      -- each turn takes an element, so that one turn more than there are elements is enough
      dropWhileLonger ef (results.length + 1) results
    else return results

/-- Every neighbour that is close enough is explored; those that pass go to the results. -/
def filterRules (params : SearchParams P D) (ef searchEf : Int) (layer : ℕ) :
    Explore.Rules ℕ (Candidate D) where
  pop := Heap.pop closer
  stop := tooFar ef
  neighbors c := getConnections h c.id layer
  consider neighborID s := do
    let (candidates, results) := s
    let node ← nodeAt h neighborID
    if node.deleted then return (candidates, results)
    let dist ← distanceTo T h query neighborID
    let near ← improves searchEf dist results
    let candidates := if near then Heap.push closer candidates ⟨neighborID, dist⟩ else candidates
    let results ← filterResults params ef node ⟨neighborID, dist⟩ results
    return (candidates, results)

/-- Here the entry is among the results only if it is live and passes. -/
def searchLayerWithFilter (visited : VisitedList) (entryID : ℕ) (ef : Int) (layer : ℕ)
    (params : SearchParams P D) : Outcome Empty (List (Candidate D)) := do
  let visited := (visited.reset.add entryID).1
  let searchEf := calculateAdaptiveEf T ef (selectivity params.EstimatedSelectivity)
  let entryDist ← distanceTo T h query entryID
  let entryNode ← nodeAt h entryID
  let passes ← passesFilter params entryNode
  let results := if passes && !entryNode.deleted then
    Heap.push farther [] ⟨entryID, entryDist⟩ else []
  let results ← Explore.explore (filterRules T h query params ef searchEf layer) VisitedList.add
    (h.nodes.length + 1) (visited, Heap.push closer [] ⟨entryID, entryDist⟩, results)
  return sortedResults results

/-! ## The range search of layer 0 -/

/-- The breadth-first loop. A node that is deleted is dropped when its turn comes. -/
def rangeLoop (radius : D) : ℕ → VisitedList × List ℕ → List (Candidate D) →
    Outcome Empty (List (Candidate D))
  | 0, _, _ => .panic
  | _ + 1, (_, []), results => .value results
  | fuel + 1, (visited, currID :: queue), results => do
    let deleted ← isDeleted h currID
    if deleted then rangeLoop radius fuel (visited, queue) results
    else
      let dist ← exactDistance T h query currID
      let results := if Distance.le dist radius then results ++ [⟨currID, dist⟩] else results
      let neighbors ← getConnections h currID 0
      let (visited, queue) ← Explore.visitEach VisitedList.add
        (fun neighborID queue => .value (queue ++ [neighborID])) neighbors (visited, queue)
      rangeLoop radius fuel (visited, queue) results

def rangeSearchLayer0 (visited : VisitedList) (entryID : ℕ) (radius : D) :
    Outcome Empty (List (Candidate D)) :=
  rangeLoop T h query radius (h.nodes.length + 1) ((visited.reset.add entryID).1, [entryID]) []

end Layer

/-! ## The calls -/

section Calls

variable (T : Tools F D Q C S) (h : Index F P Q C S) (query : List F)

def lift {α : Type} (x : Outcome Empty α) : Outcome IndexError α := x.mapError Empty.elim

/-- Stage 2 on a quantised index: exact distances, and sorted by them. -/
def rescore (candidates : List (Candidate D)) : Outcome Empty (List (Candidate D)) :=
  match h.graph.quantizer with
  | none => .value candidates
  | some _ => do
    let candidates ← candidates.mapM fun c => do
      let dist ← exactDistance T h query c.id
      return ⟨c.id, dist⟩
    return T.sort candidates

def topK (k : Int) (candidates : List (Candidate D)) : Outcome Empty (List (Candidate D)) :=
  if k < (candidates.length : Int) then
    if k < 0 then .panic else .value (candidates.take k.toNat)
  else .value candidates

def overFetch (ef : Int) : Int :=
  match h.graph.quantizer with
  | none => ef
  | some _ => wrapInt (ef * 2)

def layer0Start : Outcome Empty ℕ := descend T h query 0 h.maxLevel.toNat h.entryPoint

def searchWithEf (visited : VisitedList) (k ef : Int) :
    Outcome IndexError (List (Candidate D)) :=
  if query.length ≠ h.dimension then .error .dimensionMismatch
  else if h.maxLevel = -1 then .value []
  else lift do
    let ef := if ef < k then k else ef
    let currNode ← layer0Start T h query
    let candidates ← searchLayer T h query visited currNode (overFetch h ef) 0
    let candidates ← rescore T h query candidates
    topK k candidates

def search (visited : VisitedList) (k : Int) : Outcome IndexError (List (Candidate D)) :=
  searchWithEf T h query visited k h.efSearch

def searchWithFilter (visited : VisitedList) (params : SearchParams P D) :
    Outcome IndexError (List (Candidate D)) :=
  if query.length ≠ h.dimension then .error .dimensionMismatch
  else if h.maxLevel = -1 then .value []
  else lift do
    let ef := if params.Ef < params.K then params.K else params.Ef
    let currNode ← layer0Start T h query
    let candidates ← searchLayerWithFilter T h query visited currNode (overFetch h ef) 0 params
    let candidates ← rescore T h query candidates
    topK params.K candidates

def rangeSearch (visited : VisitedList) (radius : D) : Outcome IndexError (List (Candidate D)) :=
  if query.length ≠ h.dimension then .error .dimensionMismatch
  else if h.maxLevel = -1 then .value []
  else lift do
    let currNode ← layer0Start T h query
    rangeSearchLayer0 T h query visited currNode radius

end Calls

end LimyeDB.Graph
