/-
  A COLLECTION AS A TABLE: each record of the log is a command on the table of points, and a call does what
  the records do that it logged.
-/
import LimyeDB.Collection.Operations
import LimyeDB.Hnsw.Metadata

namespace LimyeDB.Collection

open Go Hnsw Lib.WriteOnce List

variable {F P G S : Type} [Scalar F]

/-! ## Records as commands -/

def storedValue (cfg : CollectionConfig) (p : Point F P) : List F × Option P :=
  ((prepare cfg p).vector, p.payload)

/-- A point of another dimension is not inserted. -/
def insertCmds (cfg : CollectionConfig) (p : Point F P) : List (Cmd Bytes (List F × Option P)) :=
  if p.vector.length = cfg.dimension then [.insert p.id (storedValue cfg p)] else []

/-- A point of another dimension still deletes the old one. -/
def upsertCmd (cfg : CollectionConfig) (p : Point F P) : Cmd Bytes (List F × Option P) :=
  if p.vector.length = cfg.dimension then .upsert p.id (storedValue cfg p) else .delete p.id

def recordCmds (K : Codec F P) (cfg : CollectionConfig) (r : Wal.Record) :
    List (Cmd Bytes (List F × Option P)) :=
  if r.type = Wal.RecordType.insert then
    match K.deserializePoint r.data with
    | .ok p => insertCmds cfg p
    | .error _ => []
  else if r.type = Wal.RecordType.update then
    match K.deserializePoint r.data with
    | .ok p => [upsertCmd cfg p]
    | .error _ => []
  else if r.type = Wal.RecordType.delete then [.delete r.data]
  else []

def Op.cmds (cfg : CollectionConfig) : Op F P → List (Cmd Bytes (List F × Option P))
  | .insert p => insertCmds cfg p
  | .upsert p => [upsertCmd cfg p]
  | .delete id => [.delete id]

abbrev table (E : Env F P G S) (c : Collection F P G S) : Table Bytes (List F × Option P) :=
  view E.mmap c.index

/-- The points are in order, and the graph does its work. -/
structure Inv (E : Env F P G S) [Steady E] (c : Collection F P G S) : Prop where
  index : Hnsw.Inv E.mmap c.index
  dimension : c.index.dimension = c.config.dimension
  M : c.index.M = c.config.M
  sound : E.Sound c.index

structure Through (E : Env F P G S) [Steady E] (c : Collection F P G S)
    (cmds : List (Cmd Bytes (List F × Option P))) (c' : Collection F P G S) : Prop where
  inv : Inv E c'
  config : c'.config = c.config
  table : table E c' = (table E c).replay maxNodes cmds

omit [Scalar F] in
theorem Through.refl {E : Env F P G S} [Steady E] {c : Collection F P G S} (h : Inv E c) : Through E c [] c :=
  ⟨h, rfl, rfl⟩

omit [Scalar F] in
theorem Through.trans {E : Env F P G S} [Steady E] {c₁ c₂ c₃ : Collection F P G S}
    {l l' : List (Cmd Bytes (List F × Option P))} (h : Through E c₁ l c₂)
    (h' : Through E c₂ l' c₃) : Through E c₁ (l ++ l') c₃ where
  inv := h'.inv
  config := h'.config.trans h.config
  table := by
    rw [h'.table, h.table]
    exact (foldl_append ..).symm

/-! ## Under the lock -/

section Internal

variable {E : Env F P G S} [Steady E] {c : Collection F P G S} {p : Point F P}

@[simp] theorem prepare_id (cfg : CollectionConfig) (p : Point F P) :
    (prepare cfg p).id = p.id := by
  unfold prepare
  split <;> rfl

@[simp] theorem prepare_payload (cfg : CollectionConfig) (p : Point F P) :
    (prepare cfg p).payload = p.payload := by
  unfold prepare
  split <;> rfl

@[simp] theorem length_prepare (cfg : CollectionConfig) (p : Point F P) :
    (prepare cfg p).vector.length = p.vector.length := by
  unfold prepare
  split
  · exact length_normalize _
  · rfl

variable (h : Inv E c)
include h

theorem Inv.insert_prepared (p : Point F P) (hdim : p.vector.length = c.config.dimension) :
    ∃ index err, Hnsw.insert E c.index (prepare c.config p) = .value (index, err) ∧
      Ends E.mmap c.index (prepare c.config p) index err ∧ (∀ text, err ≠ some (.graph text)) ∧
      Through E c [.insert p.id (storedValue c.config p)] { c with index := index } := by
  obtain ⟨index, err, hins, hgraph, hsound⟩ := Steady.insert h.sound (prepare c.config p)
  have hends := insert_ends hins
  obtain ⟨hinv, hdim', hview⟩ := h.index.insert_view hends hgraph
    (by rw [length_prepare, hdim, h.dimension])
  rw [prepare_id, prepare_payload] at hview
  exact ⟨index, err, hins, hends, hgraph,
    ⟨⟨hinv, hdim'.trans h.dimension, hends.M.trans h.M, hsound⟩, rfl, hview⟩⟩

theorem Inv.insertInternal_spec (p : Point F P) :
    ∃ c' err, insertInternal E c p = .value (c', err) ∧ Through E c (insertCmds c.config p) c' := by
  unfold insertInternal insertCmds
  by_cases hnil : p.vector = []
  · have hdim : p.vector.length ≠ c.config.dimension := by
      rw [hnil, ← h.dimension]
      exact h.index.positive.ne
    rw [if_pos hnil, if_neg hdim]
    exact ⟨_, _, rfl, .refl h⟩
  · rw [if_neg hnil]
    by_cases hdim : p.vector.length = c.config.dimension
    · obtain ⟨index, err, hins, -, -, hthrough⟩ := h.insert_prepared p hdim
      rw [if_neg (not_not.mpr hdim), if_pos hdim, hins]
      exact ⟨_, _, rfl, hthrough⟩
    · rw [if_pos hdim, if_neg hdim]
      exact ⟨_, _, rfl, .refl h⟩

omit [Scalar F] in
theorem Inv.delete_spec (id : Bytes) :
    (Hnsw.delete c.index id = .error .pointNotFound ∧ Through E c [.delete id] c) ∨
      ∃ index, Hnsw.delete c.index id = .value index ∧
        Through E c [.delete id] { c with index := index } := by
  rcases h.index.delete_view id with ⟨hid, hdel⟩ | ⟨index, hdel, hinv, hdim, hview⟩
  · refine .inl ⟨hdel, h, rfl, ?_⟩
    show view E.mmap c.index = (view E.mmap c.index).delete id
    unfold Table.delete
    rw [view_absent hid]
  · exact .inr ⟨index, hdel, ⟨hinv, hdim.trans h.dimension, (M_delete hdel).trans h.M,
      Steady.delete h.sound hdel⟩, rfl, hview⟩

omit [Scalar F] in
theorem Inv.deleteInternal_spec (id : Bytes) :
    ∃ c' err, deleteInternal c id = .value (c', err) ∧ Through E c [.delete id] c' := by
  unfold deleteInternal
  rcases h.delete_spec id with ⟨hdel, hthrough⟩ | ⟨index, hdel, hthrough⟩
  · rw [hdel]
    exact ⟨_, _, rfl, hthrough⟩
  · rw [hdel]
    exact ⟨_, _, rfl, hthrough⟩

theorem Inv.upsertInternal_spec (p : Point F P) :
    ∃ c' err, upsertInternal E c p = .value (c', err) ∧ Through E c [upsertCmd c.config p] c' := by
  -- the insert in the collection that the delete has left
  have hinsert : ∀ {c₁ : Collection F P G S}, Through E c [.delete p.id] c₁ →
      ∃ index err, Hnsw.insert E c₁.index (prepare c.config p) = .value (index, err) ∧
        Through E c [upsertCmd c.config p] { c₁ with index := index } := by
    intro c₁ hdel
    unfold upsertCmd
    by_cases hdim : p.vector.length = c.config.dimension
    · obtain ⟨index, err, hrun, -, -, hins⟩ :=
        hdel.inv.insert_prepared p (hdim.trans (congrArg _ hdel.config.symm))
      rw [if_pos hdim, ← hdel.config]
      exact ⟨index, err, hrun, hins.inv, hins.config.trans hdel.config, (hdel.trans hins).table⟩
    · rw [if_neg hdim, insert_mismatch]
      · exact ⟨_, _, rfl, hdel⟩
      · rw [length_prepare, hdel.inv.dimension, hdel.config]
        exact hdim
  unfold upsertInternal
  simp only [prepare_id]
  rcases h.delete_spec p.id with ⟨hdel, hthrough⟩ | ⟨index, hdel, hthrough⟩
  · obtain ⟨index, err, hrun, hins⟩ := hinsert hthrough
    rw [hdel]
    simp only [hrun]
    exact ⟨_, _, rfl, hins⟩
  · obtain ⟨index, err, hrun, hins⟩ := hinsert hthrough
    rw [hdel]
    simp only at hrun ⊢
    rw [hrun]
    exact ⟨_, _, rfl, hins⟩

end Internal

/-! ## What a call logs it does -/

def Codec.Faithful (K : Codec F P) (p : Point F P) : Prop :=
  ∀ data, K.serializePoint p = .ok data → K.deserializePoint data = .ok p

def Codec.Serializes (K : Codec F P) (p : Point F P) : Prop :=
  ∃ data, K.serializePoint p = .ok data

/-- The points of a batch, which go into the collection also if they have no record. -/
def Call.batch : Call F P → List (Point F P)
  | .insertBatch ps => ps
  | _ => []

omit [Scalar F] in
theorem Call.batch_subset (c : Call F P) : ∀ p ∈ c.batch, p ∈ c.points := by
  cases c with
  | insertBatch ps => exact fun p hp => hp
  | _ => exact nofun

theorem validate_id {p : Point F P} (h : p.validate = .ok ()) : p.id ≠ [] := by
  intro hnil
  unfold Point.validate at h
  rw [if_pos hnil] at h
  cases h

/-- Calls have put the records `rs` into the log, and the collection has gone through `cmds`; those of a point
    that cannot be serialised have no record. -/
structure Journaled (E : Env F P G S) [Steady E] (K : Codec F P) (ps : List (Point F P)) (db : Db F P G S)
    (rs : List Wal.Record) (cmds : List (Cmd Bytes (List F × Option P))) (db' : Db F P G S) :
    Prop where
  through : Through E db.coll cmds db'.coll
  covered : (rs.flatMap (recordCmds K db.coll.config)).Sublist cmds
  complete : (∀ p ∈ ps, K.Serializes p) → rs.flatMap (recordCmds K db.coll.config) = cmds
  log : ∀ w, db.wal = some w → ∃ w', db'.wal = some w' ∧ w'.records = w.records ++ rs
  owned : ∀ r ∈ rs, r.collection = db.coll.config.name
  named : ∀ c ∈ cmds, c.key = [] → c = .delete []

section Journaled

variable {E : Env F P G S} [Steady E] {K : Codec F P} {db : Db F P G S} {ps : List (Point F P)}

theorem Journaled.trans {ps ps' : List (Point F P)} {db₁ db₂ db₃ : Db F P G S}
    {l l' : List Wal.Record} {k k' : List (Cmd Bytes (List F × Option P))}
    (h : Journaled E K ps db₁ l k db₂) (h' : Journaled E K ps' db₂ l' k' db₃) :
    Journaled E K (ps ++ ps') db₁ (l ++ l') (k ++ k') db₃ where
  through := h.through.trans h'.through
  covered := by
    rw [flatMap_append]
    exact h.covered.append (h.through.config ▸ h'.covered)
  complete := by
    intro hall
    rw [flatMap_append, h.complete fun p hp => hall p (mem_append_left _ hp),
      ← h.through.config, h'.complete (forall_mem_append.mp hall).2]
  log := by
    intro w hw
    obtain ⟨w₂, hw₂, hrec₂⟩ := h.log w hw
    obtain ⟨w₃, hw₃, hrec₃⟩ := h'.log w₂ hw₂
    exact ⟨w₃, hw₃, by rw [hrec₃, hrec₂, append_assoc]⟩
  owned := forall_mem_append.mpr ⟨h.owned, fun r hr => h.through.config ▸ h'.owned r hr⟩
  named := forall_mem_append.mpr ⟨h.named, h'.named⟩

theorem Journaled.nothing (hinv : Inv E db.coll) {db' : Db F P G S} (hcoll : db'.coll = db.coll)
    (hlog : ∀ w, db.wal = some w → ∃ w', db'.wal = some w' ∧ w'.records = w.records) :
    Journaled E K ps db [] [] db' where
  through := by
    rw [hcoll]
    exact .refl hinv
  covered := Sublist.refl _
  complete _ := rfl
  log w hw := by simpa using hlog w hw
  owned := nofun
  named := nofun

variable {w : Log} {p : Point F P} {cfg : CollectionConfig}

omit [Scalar F] in
theorem logRecord_spec (hw : db.wal = some w) (r : Wal.Record) :
    (∃ w', logRecord db r = ({ db with wal := some w' }, none) ∧
        w'.records = w.records ++ [r]) ∨
      ∃ w' e, logRecord db r = ({ db with wal := some w' }, some e) ∧
        w'.records = w.records := by
  unfold logRecord Log.write
  rw [hw]
  cases hfault : w.faults.head with
  | true => exact .inr ⟨{ w with faults := w.faults.tail }, .walWrite, by simp [hfault], rfl⟩
  | false =>
    exact .inl ⟨{ w with records := w.records ++ [r], faults := w.faults.tail },
      by simp [hfault], rfl⟩

theorem recordCmds_insert (cfg : CollectionConfig) (name : Bytes) {data : Bytes}
    (h : K.deserializePoint data = .ok p) :
    recordCmds K cfg (record Wal.RecordType.insert name data) = insertCmds cfg p := by
  unfold recordCmds record
  rw [if_pos rfl]
  simp only [h]

theorem recordCmds_update (cfg : CollectionConfig) (name : Bytes) {data : Bytes}
    (h : K.deserializePoint data = .ok p) :
    recordCmds K cfg (record Wal.RecordType.update name data) = [upsertCmd cfg p] := by
  unfold recordCmds record
  rw [if_neg (show ¬ Wal.RecordType.update = Wal.RecordType.insert by decide), if_pos rfl]
  simp only [h]

theorem recordCmds_delete {name id : Bytes} :
    recordCmds K cfg (record Wal.RecordType.delete name id) = [.delete id] := by
  unfold recordCmds record
  rw [if_neg (show ¬ Wal.RecordType.delete = Wal.RecordType.insert by decide),
    if_neg (show ¬ Wal.RecordType.delete = Wal.RecordType.update by decide), if_pos rfl]

theorem insertCmds_named (hid : p.id ≠ []) :
    ∀ c ∈ insertCmds cfg p, c.key = [] → c = .delete [] := by
  intro c hc hkey
  unfold insertCmds at hc
  split at hc
  · rw [mem_singleton.mp hc] at hkey
    exact absurd hkey hid
  · exact absurd hc not_mem_nil

theorem upsertCmd_key (cfg : CollectionConfig) (p : Point F P) : (upsertCmd cfg p).key = p.id := by
  unfold upsertCmd
  split <;> rfl

theorem upsertCmd_named (hid : p.id ≠ []) :
    ∀ c ∈ [upsertCmd cfg p], c.key = [] → c = .delete [] := by
  intro c hc hkey
  rw [mem_singleton.mp hc, upsertCmd_key] at hkey
  exact absurd hkey hid

omit [Scalar F] in
theorem delete_named (id : Bytes) :
    ∀ c ∈ [(Cmd.delete id : Cmd Bytes (List F × Option P))], c.key = [] → c = .delete [] := by
  intro c hc hkey
  rw [mem_singleton.mp hc] at hkey ⊢
  exact congrArg Cmd.delete hkey

omit [Scalar F] in
theorem logPoint_eq (hw : db.wal = some w) (type : Wal.RecordType) (p : Point F P) :
    logPoint K db type p = match K.serializePoint p with
      | .error e => (db, some (.serialize e))
      | .ok data => logRecord db (record type db.coll.config.name data) := by
  unfold logPoint
  cases K.serializePoint p <;> simp only [hw]

/-- The operation has passed the checks that come before the log. -/
def Op.Admitted (cfg : CollectionConfig) : Op F P → Prop
  | .insert p => p.validate = .ok ()
  | .upsert p => p.validate = .ok () ∧ p.vector.length = cfg.dimension
  | .delete _ => True

theorem Op.Admitted.named {op : Op F P} (h : op.Admitted cfg) :
    ∀ c ∈ op.cmds cfg, c.key = [] → c = .delete [] := by
  cases op with
  | insert p => exact insertCmds_named (validate_id h)
  | upsert p => exact upsertCmd_named (validate_id h.1)
  | delete id => exact delete_named id

/-- What the first step of a call leaves: the record of the operation is in the log, or the call is
    over. -/
inductive Logged (K : Codec F P) (db : Db F P G S) (w : Log) (op : Op F P) :
    Db F P G S × Option (Error F) → Prop where
  | record {w' : Log} {r : Wal.Record} (hrec : w'.records = w.records ++ [r])
      (hcmds : recordCmds K db.coll.config r = op.cmds db.coll.config)
      (howned : r.collection = db.coll.config.name) (hadm : op.Admitted db.coll.config) :
      Logged K db w op ({ db with wal := some w' }, none)
  | refused {w' : Log} {e : Error F} (hrec : w'.records = w.records) :
      Logged K db w op ({ db with wal := some w' }, some e)

theorem Op.log_spec (hw : db.wal = some w) {op : Op F P} (hop : ∀ p ∈ op.call.points, K.Faithful p) :
    Logged K db w op (op.log K db) := by
  have hover : ∀ e : Error F, Logged K db w op (db, some e) := fun e => by
    have hdb : db = { db with wal := some w } := by rw [← hw]
    rw [hdb]
    exact .refused rfl
  have hrecord : ∀ r, recordCmds K db.coll.config r = op.cmds db.coll.config →
      r.collection = db.coll.config.name → op.Admitted db.coll.config →
      Logged K db w op (logRecord db r) := by
    intro r hcmds howned hadm
    rcases logRecord_spec hw r with ⟨w', hlog, hrec⟩ | ⟨w', e, hlog, hrec⟩
    · rw [hlog]
      exact .record hrec hcmds howned hadm
    · rw [hlog]
      exact .refused hrec
  cases op with
  | insert p =>
    simp only [Op.log]
    cases hvalid : p.validate with
    | error e => exact hover _
    | ok _ =>
      simp only [logPoint_eq hw]
      cases hdata : K.serializePoint p with
      | error e => exact hover _
      | ok data =>
        have hback := hop p mem_cons_self data hdata
        exact hrecord _ (recordCmds_insert _ _ hback) rfl hvalid
  | upsert p =>
    simp only [Op.log]
    cases hvalid : p.validate with
    | error e => exact hover _
    | ok _ =>
      by_cases hdim : p.vector.length = db.coll.config.dimension
      · simp only [hdim, ne_eq, not_true_eq_false, if_false, logPoint_eq hw]
        cases hdata : K.serializePoint p with
        | error e => exact hover _
        | ok data =>
          have hback := hop p mem_cons_self data hdata
          exact hrecord _ (recordCmds_update _ _ hback) rfl ⟨hvalid, hdim⟩
      · simp only [hdim, ne_eq, not_false_eq_true, if_true]
        exact hover _
  | delete id => exact hrecord _ recordCmds_delete rfl trivial

theorem Op.lock_spec {c : Collection F P G S} (hinv : Inv E c) (op : Op F P) :
    ∃ c' err, op.lock E c = .value (c', err) ∧ Through E c (op.cmds c.config) c' := by
  cases op with
  | insert p => exact hinv.insertInternal_spec p
  | upsert p => exact hinv.upsertInternal_spec p
  | delete id => exact hinv.deleteInternal_spec id

theorem call_eq_steps (E : Env F P G S) (K : Codec F P) (db : Db F P G S) (op : Op F P) :
    call E K db op.call = match op.log K db with
      | (db, some e) => .value (db, .error (some e))
      | (db, none) => ((op.lock E db.coll).lift fun coll => { db with coll := coll }).reply := by
  cases op with
  | insert p =>
    simp only [Op.call, call, insert, Op.log, Op.lock]
    cases p.validate with
    | error e => rfl
    | ok _ => rcases logPoint K db Wal.RecordType.insert p with ⟨db', _ | e⟩ <;> rfl
  | upsert p =>
    simp only [Op.call, call, upsert, Op.log, Op.lock]
    cases p.validate with
    | error e => rfl
    | ok _ =>
      simp only
      split
      · rfl
      · rcases logPoint K db Wal.RecordType.update p with ⟨db', _ | e⟩ <;> rfl
  | delete id =>
    simp only [Op.call, call, delete, Op.log, Op.lock]
    rcases logRecord db (record Wal.RecordType.delete db.coll.config.name id) with ⟨db', _ | e⟩ <;>
      rfl

theorem op_journaled (op : Op F P) (hinv : Inv E db.coll) (hw : db.wal = some w)
    (hop : ∀ p ∈ op.call.points, K.Faithful p) :
    ∃ db' reply rs cmds, call E K db op.call = .value (db', reply) ∧
      Journaled E K [] db rs cmds db' := by
  rw [call_eq_steps]
  have hfirst := Op.log_spec hw hop
  generalize op.log K db = first at hfirst ⊢
  cases hfirst with
  | @record w' r hrec hcmds howned hadm =>
    obtain ⟨c', err, hlock, hthrough⟩ := Op.lock_spec hinv op
    have hflat : [r].flatMap (recordCmds K db.coll.config) = op.cmds db.coll.config := by
      rw [flatMap_singleton, hcmds]
    simp only [hlock, Exec.lift, Exec.reply]
    refine ⟨_, _, [r], _, rfl, hthrough, hflat ▸ Sublist.refl _, fun _ => hflat, ?_, ?_,
      hadm.named⟩
    · intro w₀ hw₀
      rw [hw] at hw₀
      cases hw₀
      exact ⟨w', rfl, hrec⟩
    · intro r' hr'
      rw [mem_singleton.mp hr']
      exact howned
  | @refused w' e hrec =>
    refine ⟨_, _, [], [], rfl, .nothing hinv rfl ?_⟩
    intro w₀ hw₀
    rw [hw] at hw₀
    cases hw₀
    exact ⟨w', rfl, hrec⟩

theorem mem_checkBatch : ∀ {ps : List (Point F P)} {r : BatchResult F}
    {p : Point F P}, p ∈ (checkBatch cfg ps r).1 → p ∈ ps ∧ p.validate = .ok ()
  | [], _, _, hp => absurd hp not_mem_nil
  | q :: ps, r, p, hp => by
      unfold checkBatch at hp
      cases hvalid : q.validate with
      | error e =>
        simp only [hvalid] at hp
        exact (mem_checkBatch hp).imp_left (mem_cons_of_mem _)
      | ok _ =>
        simp only [hvalid] at hp
        split at hp
        · exact (mem_checkBatch hp).imp_left (mem_cons_of_mem _)
        · rcases mem_cons.mp hp with rfl | hp
          · exact ⟨mem_cons_self, hvalid⟩
          · exact (mem_checkBatch hp).imp_left (mem_cons_of_mem _)

theorem serializeBatch_spec (cfg : CollectionConfig) : ∀ {ps : List (Point F P)}
    (r : BatchResult F), (∀ p ∈ ps, K.Faithful p) →
    ((serializeBatch K cfg.name ps r).1.flatMap (recordCmds K cfg)).Sublist
        (ps.flatMap (insertCmds cfg)) ∧
      ((∀ p ∈ ps, K.Serializes p) → (serializeBatch K cfg.name ps r).1.flatMap
        (recordCmds K cfg) = ps.flatMap (insertCmds cfg)) ∧
      ∀ rec ∈ (serializeBatch K cfg.name ps r).1, rec.collection = cfg.name
  | [], _, _ => ⟨List.Sublist.refl _, fun _ => rfl, nofun⟩
  | p :: ps, r, h => by
      have ih := fun r => serializeBatch_spec cfg r (forall_mem_cons.mp h).2
      unfold serializeBatch
      cases hdata : K.serializePoint p with
      | error e =>
        obtain ⟨hsub, -, howned⟩ := ih (r.fail p.id (.serialize e))
        refine ⟨hsub.trans (sublist_append_right ..), fun hall => ?_, howned⟩
        obtain ⟨data, hok⟩ := hall p mem_cons_self
        rw [hdata] at hok
        cases hok
      | ok data =>
        obtain ⟨hsub, hcomplete, howned⟩ := ih r
        have hcmds := recordCmds_insert cfg cfg.name (h p mem_cons_self data hdata)
        simp only [flatMap_cons, hcmds]
        refine ⟨hsub.append_left _, fun hall => ?_, fun rec hrec => ?_⟩
        · rw [hcomplete (forall_mem_cons.mp hall).2]
        · rcases mem_cons.mp hrec with rfl | hrec
          · rfl
          · exact howned rec hrec

theorem applyBatch_spec : ∀ (ps : List (Point F P)) {c : Collection F P G S} (r : BatchResult F),
    Inv E c → ∃ c' r', applyBatch E ps c r = .value (c', r') ∧
      Through E c (ps.flatMap (insertCmds c.config)) c'
  | [], c, r, h => ⟨c, r, rfl, .refl h⟩
  | p :: ps, c, r, h => by
      obtain ⟨c₁, err, hins, hone⟩ := h.insertInternal_spec p
      unfold applyBatch
      simp only [hins, Outcome.value_bind]
      cases err with
      | none =>
        obtain ⟨c', r', hrun, hrest⟩ := applyBatch_spec ps { r with succeeded := r.succeeded + 1 } hone.inv
        exact ⟨c', r', hrun, hone.trans (hone.config ▸ hrest)⟩
      | some e =>
        obtain ⟨c', r', hrun, hrest⟩ := applyBatch_spec ps (r.fail p.id e) hone.inv
        exact ⟨c', r', hrun, hone.trans (hone.config ▸ hrest)⟩

theorem insertBatch_journaled (hinv : Inv E db.coll) (hw : db.wal = some w)
    (hps : ∀ p ∈ ps, K.Faithful p) :
    ∃ db' r err rs cmds, insertBatch E K db ps = .value (db', r, err) ∧ Journaled E K ps db rs cmds db' := by
  unfold insertBatch
  by_cases hnil : ps = []
  · rw [if_pos hnil]
    exact ⟨_, _, _, [], [], rfl, .nothing hinv rfl fun w hw => ⟨w, hw, rfl⟩⟩
  · rw [if_neg hnil]
    rcases hcheck : checkBatch db.coll.config ps ⟨ps.length, 0, 0, []⟩ with ⟨valid, r⟩
    have hvalid : ∀ p ∈ valid, p ∈ ps ∧ p.validate = .ok () := fun p hp =>
      mem_checkBatch (by rw [hcheck]; exact hp)
    cases valid with
    | nil =>
      simp only [hw]
      refine ⟨_, _, _, [], [], rfl, .nothing hinv rfl fun w₀ hw₀ => ?_⟩
      rw [hw] at hw₀
      exact ⟨w₀, hw₀, rfl⟩
    | cons p valid =>
      obtain ⟨hsub, hcomplete, howned⟩ := serializeBatch_spec db.coll.config r
        fun q hq => hps q (hvalid q hq).1
      simp only [hw]
      unfold Log.write
      cases hfault : w.faults.head with
      | true =>
        refine ⟨_, _, _, [], [], rfl, .nothing hinv rfl fun w₀ hw₀ => ?_⟩
        rw [hw] at hw₀
        cases hw₀
        exact ⟨_, rfl, rfl⟩
      | false =>
        obtain ⟨c', r', hrun, hthrough⟩ := applyBatch_spec (p :: valid)
          (serializeBatch K db.coll.config.name (p :: valid) r).2 hinv
        simp only [hrun, Bool.false_eq_true, if_false, Outcome.value_bind]
        refine ⟨_, _, _, _, _, rfl, hthrough, hsub,
          fun hall => hcomplete fun q hq => hall q (hvalid q hq).1, fun w₀ hw₀ => ?_, howned, ?_⟩
        · rw [hw] at hw₀
          cases hw₀
          exact ⟨_, rfl, rfl⟩
        · intro c hc
          obtain ⟨q, hq, hc⟩ := mem_flatMap.mp hc
          exact insertCmds_named (validate_id (hvalid q hq).2) c hc

/-- **A call**, whatever it returns, does to the table what its records do. -/
theorem call_journaled (hinv : Inv E db.coll) (hw : db.wal = some w) {c : Call F P}
    (hc : ∀ p ∈ c.points, K.Faithful p) : ∃ db' reply rs cmds, call E K db c = .value (db', reply) ∧
      Journaled E K c.batch db rs cmds db' := by
  cases c with
  | insert p => exact op_journaled (.insert p) hinv hw hc
  | upsert p => exact op_journaled (.upsert p) hinv hw hc
  | delete id => exact op_journaled (.delete id) hinv hw hc
  | insertBatch ps =>
    obtain ⟨db', r, err, rs, cmds, hrun, hj⟩ := insertBatch_journaled hinv hw hc
    exact ⟨db', .batch r err, rs, cmds, Outcome.bind_eq_value.mpr ⟨_, hrun, rfl⟩, hj⟩

/-- **A history** returns, and does to the table what its records do. -/
theorem calls_journaled {cs : List (Call F P)} (hcs : ∀ c ∈ cs, ∀ p ∈ c.points, K.Faithful p)
    (db : Db F P G S) (hinv : Inv E db.coll) (hw : db.wal = some w) :
    ∃ db' replies rs cmds, calls E K db cs = .value (db', replies) ∧
      Journaled E K (cs.flatMap Call.batch) db rs cmds db' := by
  induction cs generalizing db w with
  | nil => exact ⟨db, [], [], [], rfl, .nothing hinv rfl fun w hw => ⟨w, hw, rfl⟩⟩
  | cons c cs ih =>
    obtain ⟨db₁, reply, rs, cmds, hrun, hj⟩ := call_journaled hinv hw (hcs c mem_cons_self)
    obtain ⟨w₁, hw₁, -⟩ := hj.log w hw
    obtain ⟨db₂, replies, rs', cmds', hruns, hj'⟩ :=
      ih (fun c' hc' => hcs c' (mem_cons_of_mem _ hc')) db₁ hj.through.inv hw₁
    refine ⟨db₂, reply :: replies, rs ++ rs', cmds ++ cmds', ?_, hj.trans hj'⟩
    unfold calls
    simp only [hrun, hruns, Outcome.value_bind, Outcome.pure_eq]

end Journaled

end LimyeDB.Collection
