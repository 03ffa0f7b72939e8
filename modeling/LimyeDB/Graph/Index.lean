/-
  THE INDEX WITH ITS GRAPH: the store of points of `LimyeDB.Hnsw`, with the links of each node at each layer,
  in memory or in a file, and the quantised vectors.
-/
import LimyeDB.Hnsw.Metadata
import LimyeDB.Lib.Heap
import LimyeDB.Graph.Visited
import LimyeDB.Graph.Mmap

namespace LimyeDB.Graph

open Go Hnsw

/-! ## Distances -/

/-- Numbers as they are compared: a strict weak order, and NaN, which is in no relation. -/
class Distance (D : Type) where
  lt : D → D → Bool
  nan : D → Bool
  zero : D
  asymm : ∀ {a b}, lt a b = true → lt b a = false
  trans : ∀ {a b c}, lt a b = true → lt b c = true → lt a c = true
  cotrans : ∀ {a b c}, lt a b = true → nan c = false → lt a c = true ∨ lt c b = true
  lt_nan : ∀ {a b}, lt a b = true → nan a = false ∧ nan b = false

namespace Distance

variable {D : Type} [Distance D]

/-- `a <= b`, which is false if one of them is NaN. -/
def le (a b : D) : Bool := !nan a && !nan b && !lt b a

theorem irrefl (a : D) : lt a a = false := by
  cases h : lt a a with
  | false => rfl
  | true => rw [asymm h] at h; cases h

end Distance

structure Candidate (D : Type) where
  id : ℕ
  distance : D
  deriving DecidableEq, Repr

section Compare

variable {D : Type} [Distance D]

def closer (a b : Candidate D) : Bool := Distance.lt a.distance b.distance

def farther (a b : Candidate D) : Bool := Distance.lt b.distance a.distance

theorem weakOn_farther :
    Lib.Heap.WeakOn (farther (D := D)) fun c => Distance.nan c.distance = false where
  asymm := fun _ _ h => Distance.asymm h
  cotrans := fun _ _ hc h => (Distance.cotrans h hc).symm

end Compare

/-! ## The state -/

/-- What the index is given. `sort` is `sort.Slice` by distance: sorted if no distance is NaN, equal distances
    in any order. Encoding may train the quantizer, and may panic in it. Of `scaleEf` nothing is known where the product is no int.
    -/
structure Tools (F D Q C S : Type) [Distance D] where
  distance : List F → List F → D
  encode : Q → List F → Outcome Empty (Q × Option C)
  codeDistance : Q → List F → C → D
  sort : List (Candidate D) → List (Candidate D)
  mmap : VectorMmap F S
  scaleEf : ℚ → Int → Int
  sort_perm : ∀ l, (sort l).Perm l
  sort_sorted : ∀ l, (∀ c ∈ l, Distance.nan c.distance = false) →
    (sort l).Pairwise fun a b => Distance.lt b.distance a.distance = false
  le_scaleEf : ∀ m ef, 3 / 2 ≤ m → m ≤ 10 → 0 ≤ ef → 15 * ef < 9223372036854775808 →
    ef ≤ scaleEf m ef

section

variable {F D Q C S : Type} [Distance D]

/-- The quantizer, if there is one, encodes whatever comes: `I` holds of it, and of what encoding makes of it. -/
def Tools.Encodes (T : Tools F D Q C S) (quantizer : Option Q) : Prop :=
  ∃ I : Q → Prop, (∀ q ∈ quantizer, I q) ∧ ∀ q v, I q → ∃ q' code, T.encode q v = .value (q', code) ∧ I q'

theorem encodes_none (T : Tools F D Q C S) : T.Encodes none :=
  ⟨fun _ => False, by simp, fun _ _ => False.elim⟩

end

/-- The connections of each node layer by layer, or the file that has them. -/
inductive Links where
  | memory (connections : ℕ → List (List ℕ))
  | file (g : GraphMmap)

structure GraphState (Q C : Type) where
  Mmax0 : ℕ
  efConstruction : Int
  quantizer : Option Q
  quantized : ℕ → Option C
  links : Links

/-- The index, with points as `LimyeDB.Hnsw` has them. -/
abbrev Index (F P Q C S : Type) := HNSW F P (GraphState Q C) S

variable {F P D Q C S : Type} [Distance D]

/-- The links of a new node: none at each of its layers. A file keeps what its block has; that it can grow is
    assumed, so `AddNode` returns no error. -/
def Links.addNode (nodeID level : ℕ) : Links → Links
  | .memory connections =>
    .memory (Function.update connections nodeID (List.replicate (level + 1) []))
  | .file g => .file (g.addNode nodeID level)

def Links.restore (nodeID level : ℕ) (connections : List (List ℕ)) : Links → Outcome Empty Links
  | .memory all =>
    .value (.memory (Function.update all nodeID
      (if connections = [] then List.replicate (level + 1) [] else connections)))
  | .file g => do
    let g ← connections.zipIdx.foldlM (fun g (ids, layer) => g.setConnections nodeID layer ids)
      (g.addNode nodeID level)
    return .file g

def Links.saved (nodeID level : ℕ) : Links → List (List ℕ)
  | .memory connections => connections nodeID
  | .file g => (List.range (level + 1)).map fun layer => match g.getConnections nodeID layer with
    | .value ids => ids
    | _ => []

structure Config where
  M : ℕ
  efConstruction : Int
  efSearch : Int
  dimension : ℕ
  deriving DecidableEq, Repr

def new (cfg : Config) (rng : Stream' ℕ) (quantizer : Option Q) (links : Links)
    (vectorMmap : Option S) : Except NewError (Index F P Q C S) :=
  Hnsw.new ⟨cfg.M, cfg.efSearch, cfg.dimension⟩ rng
    ⟨2 * cfg.M, cfg.efConstruction, quantizer, fun _ => none, links⟩ vectorMmap

omit [Distance D] in
theorem new_eq {cfg : Config} {rng : Stream' ℕ} {quantizer : Option Q} {links : Links}
    {vectorMmap : Option S} {h : Index F P Q C S}
    (hnew : new cfg rng quantizer links vectorMmap = .ok h) :
    h = { M := cfg.M, Mmax := cfg.M, efSearch := cfg.efSearch, maxLevel := -1, nodes := []
          entryPoint := 0, nodeCount := 0, dimension := cfg.dimension, idToIndex := fun _ => none
          deletedCount := 0, rng := rng
          graph := ⟨2 * cfg.M, cfg.efConstruction, quantizer, fun _ => none, links⟩
          vectorMmap := vectorMmap } := by
  unfold new Hnsw.new at hnew
  split at hnew
  · cases hnew
  · split at hnew
    · cases hnew
    · cases hnew
      rfl

def Links.empty : Links := .memory fun _ => []

/-! ## Accesses -/

section Access

variable (T : Tools F D Q C S) (h : Index F P Q C S)

def nodeAt (id : ℕ) : Outcome Empty (Node F P) :=
  match h.nodes[id]? with
  | some (some node) => .value node
  | _ => .panic

def isDeleted (id : ℕ) : Outcome Empty Bool := do
  let node ← nodeAt h id
  return node.deleted

/-- `getVector`; nil is the empty vector. -/
def vectorAt (id : ℕ) : Outcome Empty (List F) := do
  let node ← nodeAt h id
  return getVector T.mmap h node

def exactDistance (query : List F) (id : ℕ) : Outcome Empty D := do
  let v ← vectorAt T h id
  return T.distance query v

/-- By the quantised vector if there is one. -/
def distanceTo (query : List F) (id : ℕ) : Outcome Empty D := do
  let _ ← nodeAt h id
  match h.graph.quantizer, h.graph.quantized id with
  | some q, some code => return T.codeDistance q query code
  | _, _ => exactDistance T h query id

def Index.withLinks (links : Links) : Index F P Q C S :=
  { h with graph := { h.graph with links := links } }

def getConnections (nodeID layer : ℕ) : Outcome Empty (List ℕ) :=
  match h.graph.links with
  | .file g => g.getConnections nodeID layer
  | .memory connections => do
    let node ← nodeAt h nodeID
    if node.level < layer then return []
    match (connections nodeID)[layer]? with
    | some ids => return ids
    | none => .panic

/-- In memory a layer above the node's level is passed over; a file takes it. -/
def setConnections (nodeID layer : ℕ) (ids : List ℕ) : Outcome Empty (Index F P Q C S) :=
  match h.graph.links with
  | .file g => do
    let g ← g.setConnections nodeID layer ids
    return Index.withLinks h (.file g)
  | .memory connections => do
    let node ← nodeAt h nodeID
    if node.level < layer then return h
    if (connections nodeID).length ≤ layer then .panic
    else
      let row := (connections nodeID).set layer ids
      return Index.withLinks h (.memory (Function.update connections nodeID row))

end Access

/-! ## Points on a line -/

instance : Distance ℕ where
  lt a b := a < b
  nan _ := false
  zero := 0
  asymm h := by simp at h ⊢; omega
  trans h h' := by simp at h h' ⊢; omega
  cotrans h _ := by simp at h ⊢; omega
  lt_nan _ := ⟨rfl, rfl⟩

theorem line_sorted (l : List (Candidate ℕ)) :
    (l.insertionSort fun a b => a.distance ≤ b.distance).Pairwise fun a b =>
      Distance.lt b.distance a.distance = false := by
  have htotal : Std.Total fun a b : Candidate ℕ => a.distance ≤ b.distance :=
    ⟨fun a b => Nat.le_total ..⟩
  have htrans : IsTrans (Candidate ℕ) fun a b => a.distance ≤ b.distance :=
    ⟨fun _ _ _ => Nat.le_trans⟩
  refine (List.pairwise_insertionSort (fun a b : Candidate ℕ => a.distance ≤ b.distance) l).imp ?_
  intro a b hab
  exact decide_eq_false (Nat.not_lt.mpr hab)

/-- Vectors of one number, with the distance of numbers; no quantizer and no vector file. -/
def line : Tools ℕ ℕ Unit Unit Unit where
  distance v w := (v.headD 0 - w.headD 0) + (w.headD 0 - v.headD 0)
  encode q _ := .value (q, none)
  codeDistance _ _ _ := 0
  sort l := l.insertionSort fun a b => a.distance ≤ b.distance
  mmap := ⟨fun s => (s, none), fun s _ _ => s, fun _ _ => none⟩
  scaleEf m ef := (m * ef).floor
  sort_perm l := List.perm_insertionSort _ l
  sort_sorted l _ := line_sorted l
  le_scaleEf m ef hm _ hef _ := by
    rw [Rat.le_floor_iff]
    have hef' : (0 : ℚ) ≤ ef := by exact_mod_cast hef
    nlinarith

end LimyeDB.Graph
