/-
  COLLECTIONS THAT COME AND GO: create, delete and rename over one log, whose records say no more of their
  collection than its name.
-/
import LimyeDB.Collection.Recovery
import LimyeDB.Lib.Runs

namespace LimyeDB.Collection

open Go Hnsw Lib.WriteOnce List AList
open LimyeDB.Graph (GraphState Tools VisitedList line)

variable {F P G S T : Type} [Scalar F]

/-! ## The manager -/

def isAlphanumeric (b : UInt8) : Bool :=
  (48 ≤ b && b ≤ 57) || (65 ≤ b && b ≤ 90) || (97 ≤ b && b ≤ 122)

/-- Letters and digits, and behind the first one underscores and hyphens; at most 255. -/
def validateName : Bytes → Bool
  | [] => false
  | b :: bs => bs.length < 255 && isAlphanumeric b &&
      bs.all fun b => isAlphanumeric b || b == 95 || b == 45

inductive ManagerError where
  | invalidName
  | collectionExists
  | maxCollections
  | collectionNotFound
  | new (e : NewError)
  | renameDirectory
  deriving DecidableEq, Repr

/-- What a new collection is given: its random numbers, the graph for its configuration and, if there is one, a
    vector file that works. The graph does its work: see `Resources.memory`. -/
structure Resources (E : Env F P G S) [Steady E] where
  rng : Stream' ℕ
  graph : CollectionConfig → G
  file : Option S
  reliable : ∀ s, file = some s → E.mmap.Reliable s
  sound : ∀ {cfg : CollectionConfig} {c : Collection F P G S}, new cfg rng (graph cfg) file = .ok c →
    E.Sound c.index

/-- For a collection in memory, with a quantizer that encodes, or none. -/
def Resources.memory {D Q C : Type} [Graph.Distance D] {T : Tools F D Q C S}
    (pool : Graph.Index F P Q C S → ℕ → VisitedList) (rng : Stream' ℕ) (efConstruction : Int) (quantizer : Option Q)
    (he : T.Encodes quantizer) : Resources (T.env pool) :=
  ⟨rng, fun cfg => memoryGraph cfg efConstruction quantizer, none, nofun, working_new he⟩

/-- The manager with its log, and the directories on disk with the configurations in them. -/
structure Host (F P G S : Type) where
  collections : AList fun _ : Bytes => Collection F P G S
  maxCollections : ℕ
  disk : AList fun _ : Bytes => CollectionConfig
  wal : Log

def applyDefaults (cfg : CollectionConfig) : CollectionConfig :=
  { cfg with
    M := if cfg.M = 0 then 16 else cfg.M
    efSearch := if cfg.efSearch = 0 then 100 else cfg.efSearch }

def Host.create {E : Env F P G S} [Steady E] (h : Host F P G S) (cfg : CollectionConfig) (r : Resources E) :
    Host F P G S × Option ManagerError :=
  if !validateName cfg.name then (h, some .invalidName)
  else if (h.collections.lookup cfg.name).isSome then (h, some .collectionExists)
  else if h.maxCollections ≤ h.collections.entries.length then (h, some .maxCollections)
  else
    let cfg := applyDefaults cfg
    match new cfg r.rng (r.graph cfg) r.file with
    | .error e => (h, some (.new e))
    | .ok coll =>
      ({ h with
        disk := h.disk.insert cfg.name cfg
        collections := h.collections.insert cfg.name coll }, none)

def Host.delete (h : Host F P G S) (name : Bytes) : Host F P G S × Option ManagerError :=
  if !validateName name then (h, some .invalidName)
  else if (h.collections.lookup name).isNone then (h, some .collectionNotFound)
  else
    ({ h with collections := h.collections.erase name, disk := h.disk.erase name }, none)

/-- The configuration changes first: if the directory cannot be moved, records are written with the new name.
    -/
def Host.rename (h : Host F P G S) (oldName newName : Bytes) : Host F P G S × Option ManagerError :=
  if !validateName newName then (h, some .invalidName)
  else
    match h.collections.lookup oldName with
    | none => (h, some .collectionNotFound)
    | some coll =>
      if (h.collections.lookup newName).isSome then (h, some .collectionExists)
      else
        let coll := { coll with config := { coll.config with name := newName } }
        if (h.disk.lookup oldName).isNone then
          ({ h with collections := h.collections.insert oldName coll }, some .renameDirectory)
        else
          ({ h with
            disk := (h.disk.erase oldName).insert newName coll.config
            collections := (h.collections.erase oldName).insert newName coll }, none)

inductive ManagerReply (F : Type) where
  | manager (err : Option ManagerError)
  | call (r : Reply F)
  deriving DecidableEq, Repr

def Host.write (E : Env F P G S) (K : Codec F P) (h : Host F P G S) (name : Bytes)
    (c : Call F P) : Outcome Empty (Host F P G S × ManagerReply F) :=
  match h.collections.lookup name with
  | none => .value (h, .manager (some .collectionNotFound))
  | some coll => do
    let (db, reply) ← call E K ⟨coll, some h.wal⟩ c
    return ({ h with
      collections := h.collections.insert name db.coll
      wal := db.wal.getD h.wal }, .call reply)

inductive HostAction (E : Env F P G S) [Steady E] where
  | create (cfg : CollectionConfig) (r : Resources E)
  | delete (name : Bytes)
  | rename (oldName newName : Bytes)
  | write (name : Bytes) (c : Call F P)

def HostAction.points {E : Env F P G S} [Steady E] : HostAction E → List (Point F P)
  | .write _ c => c.points
  | _ => []

def Host.act (E : Env F P G S) [Steady E] (K : Codec F P) (h : Host F P G S) :
    HostAction E → Outcome Empty (Host F P G S × ManagerReply F)
  | .create cfg r =>
    let (h, err) := h.create cfg r
    .value (h, .manager err)
  | .delete name =>
    let (h, err) := h.delete name
    .value (h, .manager err)
  | .rename oldName newName =>
    let (h, err) := h.rename oldName newName
    .value (h, .manager err)
  | .write name c => h.write E K name c

def Host.step (E : Env F P G S) [Steady E] (K : Codec F P) (h : Host F P G S) (a : HostAction E) :
    Option (Host F P G S) :=
  match h.act E K a with
  | .value (h, _) => some h
  | _ => none

def Host.start (maxCollections : ℕ) (faults : Stream' Bool) : Host F P G S :=
  ⟨∅, maxCollections, ∅, ⟨[], faults⟩⟩

/-- The collection of one configuration on disk, without its points; one that cannot be made is
    passed over. -/
def loadCollection {E : Env F P G S} [Steady E] (res : Bytes → Resources E) (m : Manager F P G S)
    (cfg : CollectionConfig) : Manager F P G S :=
  let r := res cfg.name
  match new cfg r.rng (r.graph cfg) r.file with
  | .ok c => m.put cfg.name c
  | .error _ => m

/-- The manager of the next start: `loadCollections`. -/
def reopen {E : Env F P G S} [Steady E] (res : Bytes → Resources E)
    (disk : AList fun _ : Bytes => CollectionConfig) : Manager F P G S :=
  disk.entries.foldl (fun m entry => loadCollection res m entry.2) ⟨∅⟩

/-! ## What the steps keep -/

def CollectionConfig.Makes (cfg : CollectionConfig) : Prop :=
  cfg.validate = .ok () ∧ 2 ≤ cfg.M

omit [Scalar F] in
theorem new_iff {cfg : CollectionConfig} {rng : Stream' ℕ} {graph : G} {file : Option S} :
    (∃ c : Collection F P G S, new cfg rng graph file = .ok c) ↔ CollectionConfig.Makes cfg := by
  unfold new CollectionConfig.Makes
  cases hvalid : cfg.validate with
  | error e => simp
  | ok _ =>
    have hdim : cfg.dimension ≠ 0 := by
      intro hzero
      unfold CollectionConfig.validate at hvalid
      split at hvalid
      · cases hvalid
      · rw [if_pos (.inl hzero)] at hvalid
        cases hvalid
    by_cases hM : cfg.M < 2
    · simp [Hnsw.new, hM]
    · simp [Hnsw.new, hM, hdim, Nat.le_of_not_lt hM]

/-- The collection of a name, as the log and the disk have it. -/
structure Kept (E : Env F P G S) [Steady E] (K : Codec F P) (h : Host F P G S) (name : Bytes)
    (c : Collection F P G S) : Prop where
  inv : Inv E c
  stored : h.disk.lookup name = some c.config
  named : c.config.name = name
  makes : CollectionConfig.Makes c.config
  nameless : (table E c).slot [] = .absent
  history : table E c = Table.empty.replay maxNodes
    ((recordsOf name h.wal.records).flatMap (recordCmds K c.config))

/-- Every collection is what the records of its name make of an empty one, and the disk has no
    others. -/
structure Host.Inv (E : Env F P G S) [Steady E] (K : Codec F P) (h : Host F P G S) : Prop where
  kept : ∀ name c, h.collections.lookup name = some c → Kept E K h name c
  gone : ∀ name, h.collections.lookup name = none → h.disk.lookup name = none

def Host.Unrecorded (h : Host F P G S) (name : Bytes) : Prop :=
  ∀ r ∈ h.wal.records, r.collection ≠ name

def Host.Creates (h : Host F P G S) (cfg : CollectionConfig) : Prop :=
  validateName cfg.name = true ∧ h.collections.lookup cfg.name = none ∧
    h.collections.entries.length < h.maxCollections ∧ CollectionConfig.Makes (applyDefaults cfg)

def Host.Renames (h : Host F P G S) (oldName newName : Bytes) : Prop :=
  validateName newName = true ∧ h.collections.lookup oldName ≠ none ∧
    h.collections.lookup newName = none

/-- **The condition on a step**: no collection gets or gives up a name that the log has records of,
    unless it is deleted. -/
def Host.Clean {E : Env F P G S} [Steady E] (h : Host F P G S) : HostAction E → Prop
  | .create cfg _ => h.Creates cfg → h.Unrecorded cfg.name
  | .rename oldName newName =>
    h.Renames oldName newName → h.Unrecorded oldName ∧ h.Unrecorded newName
  | .delete _ => True
  | .write _ _ => True

/-- The names of a step have no records: enough for `Clean`, and easy to decide. -/
def Host.Untouched {E : Env F P G S} [Steady E] (h : Host F P G S) : HostAction E → Prop
  | .create cfg _ => h.Unrecorded cfg.name
  | .rename oldName newName => h.Unrecorded oldName ∧ h.Unrecorded newName
  | .delete _ => True
  | .write _ _ => True

instance {E : Env F P G S} [Steady E] (h : Host F P G S) (a : HostAction E) : Decidable (h.Untouched a) := by
  cases a <;> unfold Host.Untouched Host.Unrecorded <;> infer_instance

omit [Scalar F] in
theorem Host.Untouched.clean {E : Env F P G S} [Steady E] {h : Host F P G S} {a : HostAction E}
    (hu : h.Untouched a) : h.Clean a := by
  cases a with
  | create cfg r => exact fun _ => hu
  | rename oldName newName => exact fun _ => hu
  | delete name => trivial
  | write name c => trivial

section Steps

variable {E : Env F P G S} [Steady E] {K : Codec F P} {h : Host F P G S}

theorem Kept.frame {h' : Host F P G S} {name : Bytes} {c : Collection F P G S}
    (hk : Kept E K h name c) (hdisk : h'.disk.lookup name = h.disk.lookup name)
    (hlog : recordsOf name h'.wal.records = recordsOf name h.wal.records) : Kept E K h' name c where
  inv := hk.inv
  stored := hdisk.trans hk.stored
  named := hk.named
  makes := hk.makes
  nameless := hk.nameless
  history := hlog ▸ hk.history

omit [Scalar F] in
/-- **Create**: the checks fail and nothing changes, or there is a new collection, on disk and in
    the map. -/
theorem Host.create_cases (h : Host F P G S) (cfg : CollectionConfig) (r : Resources E) :
    (h.create cfg r).1 = h ∨ h.Creates cfg ∧ ∃ coll,
      new (applyDefaults cfg) r.rng (r.graph (applyDefaults cfg)) r.file = .ok coll ∧
      (h.create cfg r).1 = { h with
        disk := h.disk.insert cfg.name (applyDefaults cfg)
        collections := h.collections.insert cfg.name coll } := by
  unfold Host.create
  by_cases hname : validateName cfg.name = true
  · cases hlook : h.collections.lookup cfg.name with
    | some c => simp [hname]
    | none =>
      by_cases hmax : h.maxCollections ≤ h.collections.entries.length
      · simp [hname, hmax]
      · cases hnew : new (applyDefaults cfg) r.rng (r.graph (applyDefaults cfg)) r.file with
        | error e => simp [hname, hmax, hnew]
        | ok coll =>
          have hmakes := new_iff.mp ⟨coll, hnew⟩
          refine .inr ⟨⟨hname, hlook, Nat.lt_of_not_le hmax, hmakes⟩, coll, rfl, ?_⟩
          simp only [hname, hmax, hnew, Bool.not_true, Bool.false_eq_true, Option.isSome_none,
            if_false]
          rfl
  · simp [hname]

omit [Scalar F] in
theorem Host.delete_cases (h : Host F P G S) (name : Bytes) :
    (h.delete name).1 = h ∨ (h.delete name).1 = { h with
      collections := h.collections.erase name, disk := h.disk.erase name } := by
  unfold Host.delete
  split
  · exact .inl rfl
  · split
    · exact .inl rfl
    · exact .inr rfl

omit [Scalar F] in
theorem Host.rename_cases (h : Host F P G S) (oldName newName : Bytes)
    (hdisk : ∀ c, h.collections.lookup oldName = some c → h.disk.lookup oldName ≠ none) :
    (h.rename oldName newName).1 = h ∨ h.Renames oldName newName ∧ ∃ coll,
      h.collections.lookup oldName = some coll ∧
      (h.rename oldName newName).1 = { h with
        disk := (h.disk.erase oldName).insert newName { coll.config with name := newName }
        collections := (h.collections.erase oldName).insert newName
          { coll with config := { coll.config with name := newName } } } := by
  unfold Host.rename
  by_cases hname : validateName newName = true
  · cases hold : h.collections.lookup oldName with
    | none => simp [hname]
    | some coll =>
      cases hnew : h.collections.lookup newName with
      | some c => simp [hname]
      | none =>
        have hdir : (h.disk.lookup oldName).isNone = false :=
          Bool.eq_false_iff.mpr fun hnone => hdisk coll hold (Option.isNone_iff_eq_none.mp hnone)
        refine .inr ⟨⟨hname, by simp [hold], hnew⟩, coll, rfl, ?_⟩
        simp only [hname, hdir, Bool.not_true, Bool.false_eq_true, Option.isSome_none, if_false]
  · simp [hname]

omit [Scalar F] in
theorem Inv.rename {c : Collection F P G S} (hinv : Collection.Inv E c) (name : Bytes) :
    Collection.Inv E { c with config := { c.config with name := name } } :=
  ⟨hinv.index, hinv.dimension, hinv.M, hinv.sound⟩

section

variable (hinv : h.Inv E K)
include hinv

theorem Host.Inv.create (cfg : CollectionConfig) (r : Resources E)
    (hclean : h.Creates cfg → h.Unrecorded cfg.name) : ((h.create cfg r).1).Inv E K := by
  rcases h.create_cases cfg r with hsame | ⟨hcreates, coll, hnew, hafter⟩
  · rw [hsame]
    exact hinv
  · obtain ⟨hcoll, hconfig, hempty⟩ := inv_new hnew r.reliable (r.sound hnew)
    rw [hafter]
    refine ⟨fun name c hc => ?_, fun name hnone => ?_⟩
    · by_cases hname : name = cfg.name
      · subst hname
        rw [lookup_insert] at hc
        cases hc
        exact
          { inv := hcoll
            stored := hconfig ▸ lookup_insert _
            named := by rw [hconfig]; rfl
            makes := hconfig ▸ hcreates.2.2.2
            nameless := by rw [hempty]; rfl
            history := by rw [hempty, recordsOf_other (hclean hcreates)]; rfl }
      · rw [lookup_insert_ne hname] at hc
        exact (hinv.kept name c hc).frame (lookup_insert_ne hname) rfl
    · rw [lookup_insert_eq_none] at hnone
      rw [lookup_insert_ne hnone.1]
      exact hinv.gone name hnone.2

theorem Host.Inv.delete (name : Bytes) : ((h.delete name).1).Inv E K := by
  rcases h.delete_cases name with hsame | hafter
  · rw [hsame]
    exact hinv
  · rw [hafter]
    refine ⟨fun name' c hc => ?_, fun name' hnone => ?_⟩
    · by_cases hname : name' = name
      · subst hname
        rw [lookup_erase] at hc
        cases hc
      · rw [lookup_erase_ne hname] at hc
        exact (hinv.kept name' c hc).frame (lookup_erase_ne hname) rfl
    · show AList.lookup name' (h.disk.erase name) = none
      by_cases hname : name' = name
      · subst hname
        exact lookup_erase ..
      · rw [lookup_erase_ne hname] at hnone ⊢
        exact hinv.gone name' hnone

omit [Scalar F] hinv in
theorem makes_rename {cfg : CollectionConfig} {name : Bytes} (hname : validateName name = true)
    (hmakes : CollectionConfig.Makes cfg) :
    CollectionConfig.Makes { cfg with name := name } := by
  have hne : name ≠ [] := by
    rintro rfl
    cases hname
  obtain ⟨hvalid, hM⟩ := hmakes
  refine ⟨?_, hM⟩
  unfold CollectionConfig.validate at hvalid ⊢
  split at hvalid
  · cases hvalid
  · rw [if_neg hne]
    exact hvalid

theorem Host.Inv.rename (oldName newName : Bytes)
    (hclean : h.Renames oldName newName → h.Unrecorded oldName ∧ h.Unrecorded newName) :
    ((h.rename oldName newName).1).Inv E K := by
  have hdisk : ∀ c, h.collections.lookup oldName = some c → h.disk.lookup oldName ≠ none := by
    intro c hc
    rw [(hinv.kept oldName c hc).stored]
    exact Option.some_ne_none _
  rcases h.rename_cases oldName newName hdisk with hsame | ⟨hrenames, coll, hcoll, hafter⟩
  · rw [hsame]
    exact hinv
  · obtain ⟨hold, hnew⟩ := hclean hrenames
    have hk := hinv.kept oldName coll hcoll
    -- without a record of its name the collection is empty
    have hempty : table E coll = Table.empty := by
      rw [hk.history, recordsOf_other hold]
      rfl
    rw [hafter]
    refine ⟨fun name c hc => ?_, fun name hnone => ?_⟩
    · by_cases hname : name = newName
      · subst hname
        rw [lookup_insert] at hc
        cases hc
        exact
          { inv := hk.inv.rename name
            stored := lookup_insert _
            named := rfl
            makes := makes_rename hrenames.1 hk.makes
            nameless := hk.nameless
            history := by
              rw [recordsOf_other hnew]
              exact hempty }
      · rw [lookup_insert_ne hname] at hc
        by_cases hname' : name = oldName
        · subst hname'
          rw [lookup_erase] at hc
          cases hc
        · rw [lookup_erase_ne hname'] at hc
          refine (hinv.kept name c hc).frame ?_ rfl
          exact (lookup_insert_ne hname).trans (lookup_erase_ne hname')
    · rw [lookup_insert_eq_none] at hnone
      rw [lookup_insert_ne hnone.1]
      by_cases hname : name = oldName
      · subst hname
        exact lookup_erase ..
      · rw [lookup_erase_ne hname] at hnone ⊢
        exact hinv.gone name hnone.2

theorem Host.Inv.write (name : Bytes) {c : Call F P}
    (hc : ∀ p ∈ c.points, K.Serializes p ∧ K.Faithful p) :
    ∃ h' reply, h.write E K name c = .value (h', reply) ∧ h'.Inv E K := by
  unfold Host.write
  cases hcoll : h.collections.lookup name with
  | none => exact ⟨h, _, rfl, hinv⟩
  | some coll =>
    have hk := hinv.kept name coll hcoll
    have hdb : Collection.Inv E (⟨coll, some h.wal⟩ : Db F P G S).coll := hk.inv
    obtain ⟨db, reply, rs, cmds, hcall, hj⟩ := call_journaled hdb rfl fun p hp => (hc p hp).2
    obtain ⟨w, hw, hrec⟩ := hj.log h.wal rfl
    have hcmds := hj.complete fun p hp => (hc p (c.batch_subset p hp)).1
    have howned : ∀ r ∈ rs, r.collection = name := fun r hr => (hj.owned r hr).trans hk.named
    have hconfig : db.coll.config = coll.config := hj.through.config
    simp only [hcall, Outcome.value_bind, hw, Option.getD_some]
    refine ⟨_, _, rfl, fun name' c' hc' => ?_, fun name' hnone => ?_⟩
    · by_cases hname : name' = name
      · subst hname
        rw [lookup_insert] at hc'
        cases hc'
        exact
          { inv := hj.through.inv
            stored := hconfig ▸ hk.stored
            named := hconfig ▸ hk.named
            makes := hconfig ▸ hk.makes
            nameless := by
              rw [hj.through.table]
              exact slot_replay_absent hj.named hk.nameless
            history := by
              rw [hj.through.table, hk.history, hrec, recordsOf_append, recordsOf_owned howned,
                flatMap_append, hconfig, hcmds]
              exact (foldl_append ..).symm }
      · rw [lookup_insert_ne hname] at hc'
        refine (hinv.kept name' c' hc').frame rfl ?_
        have hother : recordsOf name' rs = [] :=
          recordsOf_other fun r hr hr' => hname (hr'.symm.trans (howned r hr))
        rw [hrec, recordsOf_append, hother, append_nil]
    · rw [lookup_insert_eq_none] at hnone
      exact hinv.gone name' hnone.2

theorem Host.Inv.step {a : HostAction E} (hclean : h.Clean a)
    (hpoints : ∀ p ∈ a.points, K.Serializes p ∧ K.Faithful p) :
    ∃ h', h.step E K a = some h' ∧ h'.Inv E K := by
  unfold Host.step
  cases a with
  | create cfg r => exact ⟨_, rfl, hinv.create cfg r hclean⟩
  | delete name => exact ⟨_, rfl, hinv.delete name⟩
  | rename oldName newName => exact ⟨_, rfl, hinv.rename oldName newName hclean⟩
  | write name c =>
    obtain ⟨h', reply, hwrite, hinv'⟩ := hinv.write name hpoints
    exact ⟨h', by simp only [Host.act, hwrite], hinv'⟩

end

theorem Host.inv_start (maxCollections : ℕ) (faults : Stream' Bool) :
    (Host.start maxCollections faults : Host F P G S).Inv E K :=
  ⟨fun name c hc => (by cases hc), fun name _ => rfl⟩

end Steps

/-! ## A restart -/

/-- Without a metadata file, or with a saved index in which no point is found that the log updates or deletes.
    -/
def Stopped (E : Env F P G S) (K : Codec F P) (J : MetadataCodec F P T) (h : Host F P G S)
    (files : Bytes → Option T) (name : Bytes) (c : Collection F P G S) : Prop :=
  files name = none ∨ ∃ text, files name = some text ∧
    J.unmarshal text = some (saveMetadata E c.index) ∧
    ∀ r ∈ h.wal.records, r.collection = name → ∀ id, Touches K r id →
      c.get E id = .error .pointNotFound

section Restart

variable {E : Env F P G S} [Steady E] {K : Codec F P} {h : Host F P G S}

structure Fresh (E : Env F P G S) [Steady E] (cfg : CollectionConfig) (c : Collection F P G S) : Prop where
  inv : Inv E c
  config : c.config = cfg
  empty : table E c = Table.empty

omit [Scalar F] in
theorem loadCollection_spec (res : Bytes → Resources E) (m : Manager F P G S)
    {cfg : CollectionConfig} (hmakes : CollectionConfig.Makes cfg) :
    ∃ c, loadCollection res m cfg = m.put cfg.name c ∧ Fresh E cfg c := by
  obtain ⟨c, hnew⟩ : ∃ c : Collection F P G S,
      new cfg (res cfg.name).rng ((res cfg.name).graph cfg) (res cfg.name).file = .ok c :=
    new_iff.mpr hmakes
  obtain ⟨hinv, hconfig, hempty⟩ := inv_new hnew (res cfg.name).reliable ((res cfg.name).sound hnew)
  refine ⟨c, ?_, hinv, hconfig, hempty⟩
  unfold loadCollection
  simp only [hnew]

omit [Scalar F] in
theorem loadCollections_spec (res : Bytes → Resources E) :
    ∀ (l : List (Sigma fun _ : Bytes => CollectionConfig)) (m : Manager F P G S), l.NodupKeys →
      (∀ entry ∈ l, entry.2.name = entry.1 ∧ CollectionConfig.Makes entry.2) → ∀ name,
      (name ∉ l.keys → (l.foldl (fun m entry => loadCollection res m entry.2) m).collections name =
        m.collections name) ∧
      ∀ cfg, ⟨name, cfg⟩ ∈ l → ∃ c,
        (l.foldl (fun m entry => loadCollection res m entry.2) m).collections name = some c ∧
        Fresh E cfg c
  | [], _, _, _, _ => ⟨fun _ => rfl, nofun⟩
  | entry :: l, m, hnodup, hall, name => by
      obtain ⟨hnew, hnodup⟩ := nodupKeys_cons.mp hnodup
      obtain ⟨hname, hmakes⟩ := hall entry mem_cons_self
      obtain ⟨c, hload, hfresh⟩ := loadCollection_spec res m hmakes
      obtain ⟨hother, hin⟩ := loadCollections_spec res l (loadCollection res m entry.2) hnodup
        (forall_mem_cons.mp hall).2 name
      rw [foldl_cons]
      refine ⟨fun hnot => ?_, fun cfg hcfg => ?_⟩
      · rw [keys_cons, mem_cons, not_or] at hnot
        rw [hother hnot.2, hload, hname, put_of_ne m c hnot.1]
      · rcases mem_cons.mp hcfg with rfl | hcfg
        · refine ⟨c, ?_, hfresh⟩
          rw [hother hnew, hload, hname, put_self]
        · exact hin cfg hcfg

theorem reopen_spec (hinv : h.Inv E K) (res : Bytes → Resources E) (name : Bytes) :
    Option.Rel (fun c fresh => Kept E K h name c ∧ Fresh E c.config fresh)
      (h.collections.lookup name) ((reopen res h.disk).collections name) := by
  have hall : ∀ entry ∈ h.disk.entries, entry.2.name = entry.1 ∧
      CollectionConfig.Makes entry.2 := by
    rintro ⟨name, cfg⟩ hentry
    have hdisk := mem_lookup_iff.mpr hentry
    cases hc : h.collections.lookup name with
    | none =>
      rw [hinv.gone name hc] at hdisk
      cases hdisk
    | some c =>
      have hk := hinv.kept name c hc
      rw [hk.stored] at hdisk
      cases hdisk
      exact ⟨hk.named, hk.makes⟩
  obtain ⟨hother, hin⟩ := loadCollections_spec res h.disk.entries ⟨∅⟩
    h.disk.nodupKeys hall name
  unfold reopen
  cases hc : h.collections.lookup name with
  | none =>
    rw [hother (lookup_eq_none.mp (hinv.gone name hc))]
    exact Option.Rel.none
  | some c =>
    have hk := hinv.kept name c hc
    obtain ⟨fresh, hlook, hfresh⟩ := hin c.config (mem_lookup_iff.mp hk.stored)
    rw [hlook]
    exact .some ⟨hk, hfresh⟩

/-- The records of its name bring `c₁` to where `c` is. -/
structure Resumes (E : Env F P G S) [Steady E] (K : Codec F P) (h : Host F P G S) (name : Bytes)
    (c c₁ : Collection F P G S) : Prop where
  kept : Kept E K h name c
  inv : Inv E c₁
  config : c₁.config = c.config
  back : ∀ id, ((table E c₁).replay maxNodes
    ((recordsOf name h.wal.records).flatMap (recordCmds K c.config))).find id = (table E c).find id

/-- **A collection comes back**: the saved index or an empty one, taken through the records of its
    name. -/
theorem Kept.recovered {J : MetadataCodec F P T} {files : Bytes → Option T} {name : Bytes}
    {c fresh : Collection F P G S} (hk : Kept E K h name c) (hfresh : Fresh E c.config fresh)
    (hstop : Stopped E K J h files name c) :
    ∃ c₁ err, loadIndexState E J files fresh = .value (c₁, err) ∧ Resumes E K h name c c₁ := by
  rcases hstop with hnone | ⟨text, hsaved, hjson, htouch⟩
  · refine ⟨fresh, none, ?_, hk, hfresh.inv, hfresh.config, fun id => ?_⟩
    · unfold loadIndexState
      rw [hfresh.config, hk.named, hnone]
    · rw [hfresh.empty, ← hk.history]
  · obtain ⟨c₁, hload, hinv₁, hconfig₁, htable₁⟩ := loadIndexState_saved files hk.inv hk.nameless
      hfresh.inv hfresh.empty hfresh.config (hk.named ▸ hsaved) hjson
    refine ⟨c₁, none, hload, hk, hinv₁, hconfig₁, ?_⟩
    have hover := replay_over_iff maxNodes Table.empty
      fun cmd (hcmd : cmd ∈ (recordsOf name h.wal.records).flatMap (recordCmds K c.config)) => hcmd
    rw [htable₁]
    rw [← hk.history] at hover
    refine hover.mpr fun cmd hcmd hkill => ?_
    obtain ⟨r, hr, hcmd⟩ := mem_flatMap.mp hcmd
    obtain ⟨hr, hname⟩ := mem_filter.mp hr
    rw [← hk.inv.get_not_found_iff]
    exact htouch r hr (of_decide_eq_true hname) cmd.key
      ((touches_iff c.config r cmd.key).mpr ⟨cmd, hcmd, hkill, rfl⟩)

theorem recover_all (hinv : h.Inv E K) (J : MetadataCodec F P T) (res : Bytes → Resources E)
    {files : Bytes → Option T}
    (hstop : ∀ name c, h.collections.lookup name = some c → Stopped E K J h files name c) :
    ∃ m count, recover E K J files (reopen res h.disk) (some h.wal.records) = .value (m, count) ∧
      ∀ name, Option.Rel (fun c c' => ∀ id, c'.get E id = c.get E id)
        (h.collections.lookup name) (m.collections name) := by
  -- the indices are loaded, and each collection is one that the log brings to where it was
  obtain ⟨m₁, hrun₁, hload⟩ := loadIndexStates_rel (E := E) (J := J) (m := reopen res h.disk)
    (R := fun name _ c₁ => ∃ c, h.collections.lookup name = some c ∧ Resumes E K h name c c₁)
    fun name fresh hfresh => by
      have hopen := reopen_spec hinv res name
      rw [hfresh] at hopen
      generalize hc : h.collections.lookup name = live at hopen
      cases hopen with
      | some hboth =>
        obtain ⟨c₁, err, hload, hc₁⟩ := hboth.1.recovered hboth.2 (hstop name _ hc)
        exact ⟨c₁, err, hload, _, rfl, hc₁⟩
  have hloaded : ∀ name,
      Option.Rel (Resumes E K h name) (h.collections.lookup name) (m₁.collections name) := fun name => by
    have hopen := reopen_spec hinv res name
    have hone := hload name
    generalize h.collections.lookup name = live at hopen hone ⊢
    generalize (reopen res h.disk).collections name = fresh at hopen hone
    generalize m₁.collections name = loaded at hone ⊢
    cases hopen with
    | none =>
      cases hone
      exact .none
    | some =>
      cases hone with
      | some hresumes =>
        obtain ⟨c, hc, hresumes⟩ := hresumes
        cases hc
        exact .some hresumes
  obtain ⟨m, count, hreplay, hrel⟩ := replayWAL_spec (K := K) m₁ h.wal.records fun name c hc => by
    have hone := hloaded name
    rw [hc] at hone
    generalize h.collections.lookup name = live at hone
    cases hone with
    | some hresumes => exact hresumes.inv
  refine ⟨m, count, by simp only [recover, hrun₁, Outcome.value_bind, hreplay], fun name => ?_⟩
  refine rel_comp (hloaded name) (hrel name) fun c c₁ c' hresumes hthrough id => ?_
  rw [hthrough.inv.get_eq_iff hresumes.kept.inv, hthrough.table, hresumes.config]
  exact hresumes.back id

end Restart

/-! ## Every history -/

/-- **In every history of Create, Delete, Rename and writes over collections in memory in which no collection
    gets or gives up a name that the log has records of, every call returns, and a restart brings back the
    collections, with the result of every Get.** -/
theorem recovery_restores {D Q C X : Type} [Graph.Distance D] (T : Tools F D Q C S)
    (pool : Graph.Index F P Q C S → ℕ → VisitedList) (K : Codec F P) (J : MetadataCodec F P X)
    (maxCollections : ℕ) (faults : Stream' Bool) (as : List (HostAction (T.env (P := P) pool)))
    (hpoints : ∀ a ∈ as, ∀ p ∈ a.points, K.Serializes p ∧ K.Faithful p)
    (hclean : Lib.Runs.Along (Host.step (T.env pool) K) Host.Clean (Host.start maxCollections faults) as) :
    ∃ h, Lib.Runs.run (Host.step (T.env pool) K) (Host.start maxCollections faults) as = some h ∧
      ∀ (res : Bytes → Resources (T.env pool)) (files : Bytes → Option X),
        (∀ name c, h.collections.lookup name = some c → Stopped (T.env pool) K J h files name c) →
        ∃ m count, recover (T.env pool) K J files (reopen res h.disk) (some h.wal.records) =
            .value (m, count) ∧
          ∀ name, Option.Rel (fun c c' => ∀ id, c'.get (T.env pool) id = c.get (T.env pool) id)
            (h.collections.lookup name) (m.collections name) := by
  obtain ⟨h, hrun, hinv⟩ := Lib.Runs.run_total
    (fun h a hinv hboth => hinv.step hboth.1 hboth.2) (Host.inv_start maxCollections faults)
    (Lib.Runs.along_and hclean hpoints)
  exact ⟨h, hrun, fun res files hstop => recover_all hinv J res hstop⟩

def smallResources : Resources smallEnv := .memory _ (Stream'.const 0) 10 none (Graph.encodes_none _)

def smallHistory : List (HostAction smallEnv) :=
  [.create smallConfig smallResources, .write [99] (.insertBatch [letter 97, letter 98]),
    .create { smallConfig with name := [100] } smallResources, .rename [100] [101],
    .write [101] (.insert (letter 99))]

/-- Two points in one collection, and one in a collection that was renamed before. -/
theorem recovery_restores_small : ∃ h m count,
    Lib.Runs.run (Host.step smallEnv smallCodec) (Host.start 10 (Stream'.const false))
      smallHistory = some h ∧
    (h.collections.lookup [99]).isSome ∧ (h.collections.lookup [101]).isSome ∧
    recover smallEnv smallCodec smallMetadata (fun _ => none)
      (reopen (fun _ => smallResources) h.disk) (some h.wal.records) = .value (m, count) ∧
    ∀ name, Option.Rel (fun c c' => ∀ id, c'.get smallEnv id = c.get smallEnv id)
      (h.collections.lookup name) (m.collections name) := by
  have hclean : Lib.Runs.Along (Host.step smallEnv smallCodec) Host.Clean
      (Host.start 10 (Stream'.const false)) smallHistory :=
    .mono (fun _ _ hu => Host.Untouched.clean hu) (by decide +kernel)
  obtain ⟨h, hrun, hall⟩ := recovery_restores line _ smallCodec smallMetadata 10
    (Stream'.const false) smallHistory (by
      intro a ha p hp
      obtain ⟨n, rfl⟩ : ∃ n, p = letter n := by
        simp only [smallHistory, mem_cons, not_mem_nil, or_false] at ha
        rcases ha with rfl | rfl | rfl | rfl | rfl <;> simp [HostAction.points, Call.points] at hp
        · exact hp.elim (⟨97, ·⟩) (⟨98, ·⟩)
        · exact ⟨99, hp⟩
      exact smallCodec_faithful n) hclean
  obtain ⟨m, count, hrecover, hrel⟩ := hall (fun _ => smallResources) (fun _ => none)
    fun name c _ => .inl rfl
  have hboth : (h.collections.lookup [99]).isSome ∧ (h.collections.lookup [101]).isSome := by
    have hview : (Lib.Runs.run (Host.step smallEnv smallCodec) (Host.start 10 (Stream'.const false))
      smallHistory).any (fun h => (h.collections.lookup [99]).isSome && (h.collections.lookup [101]).isSome) =
        true := by decide +kernel
    rw [hrun] at hview
    simpa using hview
  exact ⟨h, m, count, hrun, hboth.1, hboth.2, hrecover, hrel⟩

/-- **A point comes back that was written to a collection that is deleted**, in a new collection of
    the same name. -/
theorem deleted_point_returns : ∃ h c m count c',
    Lib.Runs.run (Host.step smallEnv smallCodec) (Host.start 10 (Stream'.const false))
      [.create smallConfig smallResources, .write [99] (.insert smallPoint), .delete [99],
        .create smallConfig smallResources] = some h ∧
    h.collections.lookup [99] = some c ∧
    c.get smallEnv smallPoint.id = .error .pointNotFound ∧
    recover smallEnv smallCodec smallMetadata (fun _ => none)
      (reopen (fun _ => smallResources) h.disk) (some h.wal.records) = .value (m, count) ∧
    m.collections [99] = some c' ∧ c'.get smallEnv smallPoint.id = .value smallPoint :=
  ⟨_, _, _, _, _, rfl, rfl, rfl, rfl, rfl, rfl⟩

end LimyeDB.Collection
