/-
  POINTS: an id, a dense vector, a payload and the other kinds of vectors, with the check of every write and
  the normalisation of the cosine metric.
-/
import LimyeDB.Go.Bytes

namespace LimyeDB

open Go

/-- What the code asks of a vector component (a float32). -/
class Scalar (F : Type) extends Add F, Mul F, Div F where
  zero : F
  isZero : F → Bool
  sqrt : F → F
  finite : F → Bool    -- neither NaN nor an infinity

structure SparseVector (F : Type) where
  indices : List UInt32
  values : List F
  deriving DecidableEq, Repr

/-- A point. A nil slice is an empty one; a payload is a Go map that may be nil. -/
structure Point (F P : Type) where
  id : Bytes
  vector : List F
  payload : Option P
  namedVectors : List (Bytes × List F)
  sparse : Option (SparseVector F)
  deriving DecidableEq, Repr

inductive PointError (F : Type) where
  | emptyID
  | emptyVector
  | invalidVector (index : ℕ) (value : F)
  deriving DecidableEq, Repr

variable {F P : Type} [Scalar F]

def firstInvalid (v : List F) : Option (ℕ × F) :=
  match v.findIdx? (fun x => !Scalar.finite x) with
  | some i => v[i]?.map fun x => (i, x)
  | none => none

def Point.validate (p : Point F P) : Except (PointError F) Unit := do
  if p.id = [] then throw .emptyID
  if p.vector = [] ∧ p.namedVectors = [] ∧ p.sparse.isNone then throw .emptyVector
  match firstInvalid p.vector with
  | some (i, x) => throw (.invalidVector i x)
  | none =>
    match p.namedVectors.findSome? fun nv => firstInvalid nv.2 with
    | some (i, x) => throw (.invalidVector i x)
    | none => return ()

def normalize (v : List F) : List F :=
  let norm := v.foldl (fun norm x => norm + x * x) Scalar.zero
  if Scalar.isZero norm then v
  else
    let norm := Scalar.sqrt norm
    v.map (· / norm)

@[simp] theorem length_normalize (v : List F) : (normalize v).length = v.length := by
  unfold normalize
  simp only
  split
  · rfl
  · exact List.length_map _

end LimyeDB
