/-
  THE STATE MACHINE BEHIND THE RAFT LOG (pkg/cluster/fsm.go): the commands, what `Apply` does with each of
  them, and the snapshots with which Raft compacts its log.
-/
import LimyeDB.Server.Manager
import LimyeDB.Hybrid.Contents

namespace LimyeDB.Cluster

open Go Hybrid Server
open LimyeDB.Graph (Distance)
open LimyeDB.Collection (Error BatchResult)

variable {F P D Q C S J : Type} [Scalar F] [Distance D]

/-! ## Commands -/

inductive Command (F P : Type) where
  | setLeaderRest (restAddr : Bytes)
  | createCollection (config : Config)
  | deleteCollection (name : Bytes)
  | upsertPoints (collectionName : Bytes) (points : List (Point F P))
  | deletePoints (collectionName : Bytes) (ids : List Bytes)
  | unknown (op : Bytes)

/-- The text of a command in the log, and what `Apply` reads from it. -/
structure Transport (F P E : Type) where
  marshal : Command F P → Option E
  unmarshal : E → Option (Command F P)

inductive ApplyError (F : Type) where
  | manager (e : ManagerError)
  | points (e : Error F)
  | unknownOp
  deriving DecidableEq, Repr

inductive Response (F : Type) where
  | nil
  | error (e : ApplyError F)
  | result (r : BatchResult F)

/-- `rn` is the address that the linked node keeps for the leader, if a node is linked. -/
structure FSM (F P D Q C S : Type) where
  manager : Manager F P D Q C S
  snapDir : SnapshotDir
  rn : Option Bytes

namespace FSM

def answered (f : FSM F P D Q C S) (x : Manager F P D Q C S × Option ManagerError) :
    FSM F P D Q C S × Response F :=
  ({ f with manager := x.1 },
    match x.2 with
    | some e => .error (.manager e)
    | none => .nil)

def apply (W : Site F P D Q C S J) (f : FSM F P D Q C S) :
    Command F P → Outcome Empty (FSM F P D Q C S × Response F)
  | .setLeaderRest restAddr => .value ({ f with rn := f.rn.map fun _ => restAddr }, .nil)
  | .createCollection config =>
    if f.manager.exist config.name then .value (f, .nil)
    else .value (f.answered (f.manager.create W config))
  | .deleteCollection name =>
    if f.manager.exist name then .value (f.answered (f.manager.delete name))
    else .value (f, .nil)
  | .upsertPoints name points => do
    let (m, r) ← f.manager.on name fun c => insertBatch (W.kit c.config) c points
    match r with
    | none => return (f, .error (.manager .collectionNotFound))
    | some (_, some e) => return ({ f with manager := m }, .error (.points e))
    | some (r, none) => return ({ f with manager := m }, .result r)
  | .deletePoints name ids => do
    let (m, r) ← f.manager.on name fun c => deleteEach c ids
    match r with
    | none => return (f, .error (.manager .collectionNotFound))
    | some _ => return ({ f with manager := m }, .nil)
  | .unknown _ => .value (f, .error .unknownOp)

def applyEntry {E : Type} (T : Transport F P E) (W : Site F P D Q C S J) (f : FSM F P D Q C S)
    (entry : E) : Outcome Empty (FSM F P D Q C S × Response F) :=
  match T.unmarshal entry with
  | none => .value (f, .nil)
  | some cmd => f.apply W cmd

def applyLog {E : Type} (T : Transport F P E) (W : Site F P D Q C S J) :
    FSM F P D Q C S → List E → Outcome Empty (FSM F P D Q C S)
  | f, [] => .value f
  | f, entry :: entries => do
    let (f, _) ← f.applyEntry T W entry
    applyLog T W f entries

end FSM

/-! ## Snapshots -/

def raftStem : Bytes := [114, 97, 102, 116, 95, 114, 101, 115, 116, 111, 114, 101, 95]

def tempID (now : ℕ) : Bytes := raftStem ++ decimal now

/-- What was restored is what was there: the collections with their configurations and points. -/
structure SameContents {J' : Type} (W : Site F P D Q C S J) (m : Manager F P D Q C S)
    (W' : Site F P D Q C S J') (m' : Manager F P D Q C S) : Prop where
  configs : ∀ name, (m'.collections.lookup name).map (·.coll.config) =
    (m.collections.lookup name).map (·.coll.config)
  points : ∀ name id, m'.getPoint W' name id = m.getPoint W name id

namespace FSM

def snapshot (W : Site F P D Q C S J) (f : FSM F P D Q C S) (now timestamp : ℕ) :
    Outcome SnapshotError (FSM F P D Q C S × Bytes) := do
  let b ← createSnapshot W f.manager timestamp
  return ({ f with snapDir := f.snapDir.insert (snapID now) b }, snapID now)

def persist (f : FSM F P D Q C S) (id : Bytes) : Outcome SnapshotError Bytes :=
  match f.snapDir.lookup id with
  | none => .error .notExist
  | some b => .value b

/-- `Restore`: the bytes go to a temporary file, and from there into the manager, whose collections stay. -/
def restore (W : Site F P D Q C S J) (f : FSM F P D Q C S) (now : ℕ) (b : Bytes) :
    Outcome Empty (FSM F P D Q C S × Option RestoreError) := do
  let (m, e) ← restoreSnapshot W f.manager (f.snapDir.insert (tempID now) b) (tempID now)
  return ({ f with manager := m, snapDir := f.snapDir.erase (tempID now) }, e)

theorem validateSnapshotID_tempID (now : ℕ) : ∃ e, validateSnapshotID (tempID now) = .error e := by
  have hformat : matchesSnapshotID (tempID now) = false := by
    rfl
  unfold validateSnapshotID
  split_ifs with hempty hlong hmatch hpath
  · exact ⟨_, rfl⟩
  · exact ⟨_, rfl⟩
  · exact ⟨_, rfl⟩
  · exact ⟨_, rfl⟩
  · rw [hformat] at hmatch
    exact absurd rfl hmatch

theorem restore_refused (W : Site F P D Q C S J) (f : FSM F P D Q C S) (now : ℕ) (b : Bytes) :
    ∃ e, f.restore W now b =
      .value ({ f with snapDir := f.snapDir.erase (tempID now) }, some (.snapshot e)) := by
  obtain ⟨e, he⟩ := validateSnapshotID_tempID now
  refine ⟨e, ?_⟩
  unfold restore restoreSnapshot openSnapshot
  simp only [he, Outcome.value_bind, Outcome.pure_eq]

omit [Scalar F] in
theorem persist_snapshot {W : Site F P D Q C S J} {f f' : FSM F P D Q C S}
    {now timestamp : ℕ} {id : Bytes} (hsnap : f.snapshot W now timestamp = .value (f', id)) :
    ∃ b, f'.persist id = .value b := by
  obtain ⟨b, -, hret⟩ := Outcome.bind_eq_value.mp hsnap
  cases hret
  refine ⟨b, ?_⟩
  unfold persist
  rw [AList.lookup_insert]

/-- `Restore` on `g` of what `Snapshot` and `Persist` made of `f` succeeds, and `g` has the contents of `f`.
    -/
def RestoresSnapshot (W W' : Site F P D Q C S J) (f g : FSM F P D Q C S)
    (now timestamp later : ℕ) : Prop :=
  ∀ f' id b, f.snapshot W now timestamp = .value (f', id) → f'.persist id = .value b →
    ∃ g', g.restore W' later b = .value (g', none) ∧ SameContents W f.manager W' g'.manager

/-- **No snapshot is ever restored**: whatever `Snapshot` and `Persist` have produced, `Restore`
    fails on it. -/
theorem restore_never_succeeds (W W' : Site F P D Q C S J) (f f' g : FSM F P D Q C S)
    (now timestamp later : ℕ) (id : Bytes) (hsnap : f.snapshot W now timestamp = .value (f', id)) :
    ¬ RestoresSnapshot W W' f g now timestamp later := by
  intro hrestores
  obtain ⟨b, hpersist⟩ := persist_snapshot hsnap
  obtain ⟨g', hrestore, -⟩ := hrestores f' id b hsnap hpersist
  obtain ⟨e, he⟩ := restore_refused W' g later b
  rw [he] at hrestore
  cases hrestore

end FSM

def lineFSM : FSM ℕ ℕ ℕ Unit Unit Unit := ⟨.start 10 ∅ none, ∅, none⟩

/-- The snapshot of an empty machine. -/
theorem restore_never_succeeds_line : (∃ f' id, lineFSM.snapshot lineSite 1 1 = .value (f', id)) ∧
      ¬ FSM.RestoresSnapshot lineSite lineSite lineFSM lineFSM 1 1 2 := by
  have hsnap : ∃ f' id, lineFSM.snapshot lineSite 1 1 = .value (f', id) := ⟨_, _, rfl⟩
  obtain ⟨f', id, h⟩ := hsnap
  exact ⟨⟨f', id, h⟩, FSM.restore_never_succeeds lineSite lineSite lineFSM f' lineFSM 1 1 2 id h⟩

/-- **The snapshot of one collection with one point is refused by an empty machine.** -/
theorem restore_fails : ∃ f₁ f₂ f₃ r id b g,
    lineFSM.apply lineSite (.createCollection lineConfig) = .value (f₁, .nil) ∧
    f₁.apply lineSite (.upsertPoints [99] [linePoint 1 5 none none]) = .value (f₂, .result r) ∧
    r.succeeded = 1 ∧ f₂.snapshot lineSite 1 1 = .value (f₃, id) ∧ f₃.persist id = .value b ∧
    lineFSM.restore lineSite 2 b = .value (g, some (.snapshot .idFormat)) ∧
    g.manager.exist [99] = false := by
  refine ⟨_, _, _, _, _, _, _, rfl, rfl, ?_, rfl, rfl, rfl, ?_⟩ <;> decide +kernel

end LimyeDB.Cluster
