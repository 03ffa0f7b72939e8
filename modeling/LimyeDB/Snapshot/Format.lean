/-
  THE STREAM OF A SNAPSHOT (pkg/storage/snapshot/snapshot.go), as it is before gzip.

  Every part has its length before it, in two, four or eight bytes.
-/
import LimyeDB.Go.Bytes

namespace LimyeDB.Snapshot

open Go List Outcome

/-! ## What is written -/

structure PointData (F P : Type) where
  id : Bytes
  vector : List F
  payload : Option P
  deriving DecidableEq, Repr

structure CollectionData (F P Cfg : Type) where
  config : Cfg
  points : List (PointData F P)
  deriving DecidableEq, Repr

/-- The four bytes of a float32, and JSON for payloads and configurations. A nil payload has a text
    too. -/
structure Coding (F P Cfg : Type) where
  putFloat : F → Bytes
  getFloat : Bytes → F
  marshalPayload : Option P → Option Bytes
  unmarshalPayload : Bytes → Option (Option P)
  marshalConfig : Cfg → Option Bytes
  unmarshalConfig : Bytes → Option Cfg

/-- JSON and the bytes of a float lose nothing; a JSON text is not empty. -/
structure Coding.Lossless {F P Cfg : Type} (J : Coding F P Cfg) : Prop where
  floatLength : ∀ x, (J.putFloat x).length = 4
  float : ∀ x, J.getFloat (J.putFloat x) = x
  payload : ∀ p b, J.marshalPayload p = some b → b ≠ [] ∧ J.unmarshalPayload b = some p
  config : ∀ c b, J.marshalConfig c = some b → J.unmarshalConfig b = some c

inductive WriteError where
  | collectionCount
  | nameTooLong
  | configMarshal
  | configTooLarge
  | idTooLong
  | vectorTooLarge
  | payloadMarshal
  | payloadTooLarge
  deriving DecidableEq, Repr

/-- `0x564558DB`. -/
def magic : ℕ := 0x564558DB

def putLength (w : ℕ) (e : WriteError) (n : ℕ) : Except WriteError Bytes :=
  if n < 256 ^ w then .ok (leBytes w n) else .error e

def writeHeader (version timestamp totalCollections : ℕ) : Except WriteError Bytes := do
  let count ← putLength 4 .collectionCount totalCollections
  return leBytes 4 magic ++ leBytes 8 version ++ leBytes 8 timestamp ++ count

section Write

variable {F P Cfg : Type} (J : Coding F P Cfg)

def marshalled (e : WriteError) : Option Bytes → Except WriteError Bytes
  | some b => .ok b
  | none => .error e

def writePoint (p : PointData F P) : Except WriteError Bytes := do
  let idLen ← putLength 2 .idTooLong p.id.length
  let vecLen ← putLength 4 .vectorTooLarge p.vector.length
  let payload ← marshalled .payloadMarshal (J.marshalPayload p.payload)
  let payloadLen ← putLength 4 .payloadTooLarge payload.length
  return idLen ++ p.id ++ vecLen ++ p.vector.flatMap J.putFloat ++ payloadLen ++ payload

def writePoints : List (PointData F P) → Except WriteError Bytes
  | [] => .ok []
  | p :: ps => do
    let b ← writePoint J p
    let bs ← writePoints ps
    return b ++ bs

def writeCollection (name : Bytes) (data : CollectionData F P Cfg) : Except WriteError Bytes := do
  let nameLen ← putLength 2 .nameTooLong name.length
  let config ← marshalled .configMarshal (J.marshalConfig data.config)
  let configLen ← putLength 4 .configTooLarge config.length
  let points ← writePoints J data.points
  return nameLen ++ name ++ configLen ++ config ++ leBytes 8 data.points.length ++ points

end Write

/-! ## What is read -/

inductive ReadError where
  | io (e : IoError)
  | badMagic
  | config
  | payload
  deriving DecidableEq, Repr

/-- The most bytes for which the run time makes a slice. -/
def maxAlloc : ℕ := 2 ^ 48

/-- The bytes of a `PointData`: a string, a slice and a map. -/
def pointDataSize : ℕ := 48

def readBytes (r : Bytes) (n : ℕ) : Outcome ReadError (Bytes × Bytes) :=
  (readFull r n).mapError .io

def readWord (r : Bytes) (w : ℕ) : Outcome ReadError (ℕ × Bytes) := do
  let (b, r) ← readBytes r w
  return (leNat b, r)

/-- The version, the timestamp and the number of collections. -/
def readHeader (r : Bytes) : Outcome ReadError ((ℕ × ℕ × ℕ) × Bytes) := do
  let (m, r) ← readWord r 4
  if m ≠ magic then .error .badMagic
  else do
    let (version, r) ← readWord r 8
    let (timestamp, r) ← readWord r 8
    let (count, r) ← readWord r 4
    return ((version, timestamp, count), r)

section Read

variable {F P Cfg : Type} (J : Coding F P Cfg)

def readFloats : ℕ → Bytes → Outcome ReadError (List F × Bytes)
  | 0, r => .value ([], r)
  | n + 1, r => do
    let (b, r) ← readBytes r 4
    let (vs, r) ← readFloats n r
    return (J.getFloat b :: vs, r)

/-- A length of 0 leaves the payload nil. -/
def readPayload (r : Bytes) : Outcome ReadError (Option P × Bytes) := do
  let (n, r) ← readWord r 4
  if n = 0 then .value (none, r)
  else do
    let (b, r) ← readBytes r n
    match J.unmarshalPayload b with
    | none => .error .payload
    | some payload => return (payload, r)

def readPoint (r : Bytes) : Outcome ReadError (PointData F P × Bytes) := do
  let (idLen, r) ← readWord r 2
  let (id, r) ← readBytes r idLen
  let (vecLen, r) ← readWord r 4
  let (vector, r) ← readFloats J vecLen r
  let (payload, r) ← readPayload J r
  return (⟨id, vector, payload⟩, r)

def readPoints : ℕ → Bytes → Outcome ReadError (List (PointData F P) × Bytes)
  | 0, r => .value ([], r)
  | n + 1, r => do
    let (p, r) ← readPoint J r
    let (ps, r) ← readPoints n r
    return (p :: ps, r)

def readCollection (r : Bytes) :
    Outcome ReadError ((Bytes × CollectionData F P Cfg) × Bytes) := do
  let (nameLen, r) ← readWord r 2
  let (name, r) ← readBytes r nameLen
  let (configLen, r) ← readWord r 4
  let (b, r) ← readBytes r configLen
  match J.unmarshalConfig b with
  | none => .error .config
  | some config =>
    let (numPoints, r) ← readWord r 8
    -- `make([]PointData, numPoints)`
    if maxAlloc < pointDataSize * numPoints then .panic
    else do
      let (points, r) ← readPoints J numPoints r
      return ((name, ⟨config, points⟩), r)

end Read

/-! ## What was written reads back -/

theorem readBytes_append {a rest : Bytes} {n : ℕ} (h : a.length = n) :
    readBytes (a ++ rest) n = .value (a, rest) := by
  rw [readBytes, readFull_append h]
  rfl

theorem readWord_append {w n : ℕ} (h : n < 256 ^ w) (rest : Bytes) :
    readWord (leBytes w n ++ rest) w = .value (n, rest) := by
  simp only [readWord, readBytes_append (leBytes_length w n), value_bind, leNat_leBytes h, pure_eq]

variable {b : Bytes}

theorem putLength_ok {w n : ℕ} {e : WriteError} (h : putLength w e n = .ok b) :
    n < 256 ^ w ∧ b = leBytes w n := by
  unfold putLength at h
  split at h
  · rename_i hlt
    cases h
    exact ⟨hlt, rfl⟩
  · cases h

theorem marshalled_ok {e : WriteError} {x : Option Bytes} (h : marshalled e x = .ok b) :
    x = some b := by
  cases x with
  | none => cases h
  | some b' =>
    cases h
    rfl

theorem except_bind_ok {ε α β : Type} {x : Except ε α} {f : α → Except ε β} {b : β}
    (h : (x >>= f) = .ok b) : ∃ a, x = .ok a ∧ f a = .ok b := by
  cases x with
  | error e => cases h
  | ok a => exact ⟨a, rfl, h⟩

theorem readHeader_write {version timestamp count : ℕ} (hv : version < 256 ^ 8)
    (ht : timestamp < 256 ^ 8) (h : writeHeader version timestamp count = .ok b) (rest : Bytes) :
    readHeader (b ++ rest) = .value ((version, timestamp, count), rest) := by
  obtain ⟨n, hn, hret⟩ := except_bind_ok h
  obtain ⟨hlt, rfl⟩ := putLength_ok hn
  cases hret
  have hmagic : magic < 256 ^ 4 := by decide
  simp only [readHeader, append_assoc, readWord_append hmagic, readWord_append hv,
    readWord_append ht, readWord_append hlt, value_bind, ne_eq, not_true, if_false,
    pure_eq]

section RoundTrip

variable {F P Cfg : Type} {J : Coding F P Cfg}

variable (hJ : J.Lossless)
include hJ

theorem readFloats_write (vs : List F) (rest : Bytes) :
    readFloats J vs.length (vs.flatMap J.putFloat ++ rest) = .value (vs, rest) := by
  induction vs with
  | nil => rfl
  | cons v vs ih =>
    simp only [length_cons, readFloats, flatMap_cons, append_assoc,
      readBytes_append (hJ.floatLength v), value_bind, ih, hJ.float, pure_eq]

variable {b : Bytes}

theorem readPayload_write {payload : Option P}
    (hm : J.marshalPayload payload = some b) (hlt : b.length < 256 ^ 4) (rest : Bytes) :
    readPayload J (leBytes 4 b.length ++ (b ++ rest)) = .value (payload, rest) := by
  obtain ⟨hne, hun⟩ := hJ.payload payload b hm
  have hlen : b.length ≠ 0 := fun hzero => hne (length_eq_zero_iff.mp hzero)
  simp only [readPayload, readWord_append hlt, value_bind, hlen, if_false,
    readBytes_append rfl, hun, pure_eq]

theorem readPoint_write {p : PointData F P}
    (h : writePoint J p = .ok b) (rest : Bytes) : readPoint J (b ++ rest) = .value (p, rest) := by
  obtain ⟨idLen, hid, h⟩ := except_bind_ok h
  obtain ⟨vecLen, hvec, h⟩ := except_bind_ok h
  obtain ⟨payload, hpayload, h⟩ := except_bind_ok h
  obtain ⟨payloadLen, hlen, hret⟩ := except_bind_ok h
  obtain ⟨hidLt, rfl⟩ := putLength_ok hid
  obtain ⟨hvecLt, rfl⟩ := putLength_ok hvec
  obtain ⟨hlenLt, rfl⟩ := putLength_ok hlen
  cases hret
  simp only [readPoint, append_assoc, readWord_append hidLt, readBytes_append rfl,
    readWord_append hvecLt, readFloats_write hJ,
    readPayload_write hJ (marshalled_ok hpayload) hlenLt, value_bind, pure_eq]

theorem readPoints_write {ps : List (PointData F P)}
    (h : writePoints J ps = .ok b) (rest : Bytes) :
    readPoints J ps.length (b ++ rest) = .value (ps, rest) := by
  induction ps generalizing b with
  | nil =>
    cases h
    rfl
  | cons p ps ih =>
    obtain ⟨b₁, hp, h⟩ := except_bind_ok h
    obtain ⟨b₂, hps, hret⟩ := except_bind_ok h
    cases hret
    simp only [length_cons, readPoints, append_assoc, readPoint_write hJ hp,
      value_bind, ih hps, pure_eq]

/-- **A collection that was written reads back**, if a slice of its points can be made. -/
theorem readCollection_write {name : Bytes} {data : CollectionData F P Cfg}
    (hfits : pointDataSize * data.points.length ≤ maxAlloc)
    (h : writeCollection J name data = .ok b) (rest : Bytes) :
    readCollection J (b ++ rest) = .value ((name, data), rest) := by
  obtain ⟨nameLen, hname, h⟩ := except_bind_ok h
  obtain ⟨config, hconfig, h⟩ := except_bind_ok h
  obtain ⟨configLen, hlen, h⟩ := except_bind_ok h
  obtain ⟨points, hpoints, hret⟩ := except_bind_ok h
  obtain ⟨hnameLt, rfl⟩ := putLength_ok hname
  obtain ⟨hlenLt, rfl⟩ := putLength_ok hlen
  cases hret
  have hcount : data.points.length < 256 ^ 8 := by
    unfold pointDataSize maxAlloc at hfits
    omega
  simp only [readCollection, append_assoc, readWord_append hnameLt, readBytes_append rfl,
    readWord_append hlenLt, value_bind, hJ.config _ _ (marshalled_ok hconfig),
    readWord_append hcount, Nat.not_lt.mpr hfits, if_false, readPoints_write hJ hpoints,
    pure_eq]

end RoundTrip

end LimyeDB.Snapshot
