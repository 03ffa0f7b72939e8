/-
  WHAT A RESTART BRINGS BACK: the log replayed into a fresh collection, and the log replayed over the index
  that was saved when the process stopped.
-/
import LimyeDB.Collection.Table
import LimyeDB.Graph.Saved

namespace LimyeDB.Collection

open Go Hnsw Lib.WriteOnce List Function
open LimyeDB.Graph (GraphState GraphMmap Links Tools VisitedList Working line)

variable {F P G S T : Type} [Scalar F]

/-! ## Recovery -/

structure Manager (F P G S : Type) where
  all : AList fun _ : Bytes => Collection F P G S

def Manager.collections (m : Manager F P G S) (name : Bytes) : Option (Collection F P G S) :=
  m.all.lookup name

def Manager.put (m : Manager F P G S) (name : Bytes) (c : Collection F P G S) :
    Manager F P G S :=
  ⟨m.all.insert name c⟩

def Manager.single (c : Collection F P G S) : Manager F P G S :=
  ⟨AList.singleton c.config.name c⟩

variable {name : Bytes}

section Managers

omit [Scalar F]

@[simp] theorem put_self (m : Manager F P G S) (name : Bytes) (c : Collection F P G S) :
    (m.put name c).collections name = some c :=
  AList.lookup_insert _

theorem put_of_ne (m : Manager F P G S) {other : Bytes} (c : Collection F P G S) (hne : other ≠ name) :
    (m.put name c).collections other = m.collections other :=
  AList.lookup_insert_ne hne

theorem single_iff {c c' : Collection F P G S} :
    (Manager.single c).collections name = some c' ↔ name = c.config.name ∧ c' = c := by
  have hmem := AList.mem_lookup_iff (s := (Manager.single c).all) (a := name) (b := c')
  refine hmem.trans ?_
  simp [Manager.single, AList.singleton]

end Managers

/-- The callback of the replay, with the count of records. What cannot be applied is skipped, and an insert of
    a known point is not counted. -/
def replayRecord (E : Env F P G S) (K : Codec F P) (m : Manager F P G S × ℕ) (r : Wal.Record) :
    Outcome Empty (Manager F P G S × ℕ) :=
  let (m, count) := m
  match m.collections r.collection with
  | none => .value (m, count)
  | some coll =>
    if r.type = Wal.RecordType.insert then
      match K.deserializePoint r.data with
      | .error _ => .value (m, count)
      | .ok p => do
        let (coll, err) ← insertInternal E coll p
        let m := m.put r.collection coll
        match err with
        | some (.index e) =>
          if e.message = "point with this ID already exists" then .value (m, count)
          else .value (m, count + 1)
        | _ => .value (m, count + 1)
    else if r.type = Wal.RecordType.update then
      match K.deserializePoint r.data with
      | .error _ => .value (m, count)
      | .ok p => do
        let (coll, _) ← upsertInternal E coll p
        return (m.put r.collection coll, count + 1)
    else if r.type = Wal.RecordType.delete then do
      let (coll, _) ← (deleteInternal coll r.data : Exec _ (Error F))
      return (m.put r.collection coll, count + 1)
    else
      -- checkpoints, and types the replay does not know
      .value (m, count + 1)

def replayWAL (E : Env F P G S) (K : Codec F P) (m : Manager F P G S)
    (records : List Wal.Record) : Outcome Empty (Manager F P G S × ℕ) :=
  records.foldlM (replayRecord E K) (m, 0)

structure MetadataCodec (F P T : Type) where
  marshal : IndexMetadata F P → Option T
  unmarshal : T → Option (IndexMetadata F P)

/-- The index of the metadata file, if there is one; a file that is not for this index leaves it empty. -/
def loadIndexState (E : Env F P G S) (J : MetadataCodec F P T) (files : Bytes → Option T)
    (c : Collection F P G S) : Outcome Empty (Collection F P G S × Option LoadError) :=
  match files c.config.name with
  | none => .value (c, none)
  | some text =>
    match J.unmarshal text with
    | none => .value (c, some .unmarshal)
    | some m => do
      let (index, err) ← loadMetadata E c.index m
      return ({ c with index := index }, err)

/-- Over all collections; an error is reported and passed over. -/
def loadIndexStates (E : Env F P G S) (J : MetadataCodec F P T) (files : Bytes → Option T) :
    List (Sigma fun _ : Bytes => Collection F P G S) → Manager F P G S → Outcome Empty (Manager F P G S)
  | [], m => .value m
  | entry :: entries, m => do
    let (c, _) ← loadIndexState E J files entry.2
    loadIndexStates E J files entries (m.put entry.1 c)

def recover (E : Env F P G S) (K : Codec F P) (J : MetadataCodec F P T)
    (files : Bytes → Option T) (m : Manager F P G S) (wal : Option (List Wal.Record)) :
    Outcome Empty (Manager F P G S × ℕ) := do
  let m ← loadIndexStates E J files m.all.entries m
  match wal with
  | none => .value (m, 0)
  | some records => replayWAL E K m records

/-! ## A replay -/

section Replay

variable {E : Env F P G S} [Steady E] {K : Codec F P}

def recordsOf (name : Bytes) (records : List Wal.Record) : List Wal.Record :=
  records.filter fun r => r.collection = name

theorem recordsOf_append (name : Bytes) (l l' : List Wal.Record) :
    recordsOf name (l ++ l') = recordsOf name l ++ recordsOf name l' :=
  filter_append ..

theorem recordsOf_owned {l : List Wal.Record} (hl : ∀ r ∈ l, r.collection = name) :
    recordsOf name l = l :=
  filter_eq_self.mpr fun r hr => by simpa using hl r hr

theorem recordsOf_other {l : List Wal.Record} (hl : ∀ r ∈ l, r.collection ≠ name) :
    recordsOf name l = [] :=
  filter_eq_nil_iff.mpr fun r hr => by simpa using hl r hr

theorem rel_comp {α β γ : Type} {A : α → β → Prop} {B : β → γ → Prop} {C : α → γ → Prop} {a : Option α}
    {b : Option β} {c : Option γ} (h : Option.Rel A a b) (h' : Option.Rel B b c)
    (hC : ∀ x y z, A x y → B y z → C x z) : Option.Rel C a c := by
  cases h with
  | none =>
    cases h'
    exact .none
  | some hA =>
    cases h' with
    | some hB => exact .some (hC _ _ _ hA hB)

variable {name : Bytes} {m : Manager F P G S} {c : Collection F P G S}

theorem replayRecord_spec {r : Wal.Record} (hc : m.collections r.collection = some c)
    (hinv : Inv E c) (count : ℕ) :
    ∃ m' c' count', replayRecord E K (m, count) r = .value (m', count') ∧ (m' = m ∧ c' = c ∨
      m' = m.put r.collection c') ∧ Through E c (recordCmds K c.config r) c' := by
  have hstay : ∀ count', ∃ m' c' n, (.value (m, count') : Outcome Empty (Manager F P G S × ℕ)) = .value (m', n) ∧
      (m' = m ∧ c' = c ∨ m' = m.put r.collection c') ∧ Through E c [] c' :=
    fun count' => ⟨m, c, count', rfl, .inl ⟨rfl, rfl⟩, .refl hinv⟩
  unfold replayRecord recordCmds
  simp only [hc]
  by_cases hins : r.type = Wal.RecordType.insert
  · simp only [hins, if_true]
    cases K.deserializePoint r.data with
    | error e => exact hstay count
    | ok p =>
      obtain ⟨c', err, hins, hthrough⟩ := hinv.insertInternal_spec p
      simp only [hins, Outcome.value_bind]
      split
      · split
        · exact ⟨_, c', _, rfl, .inr rfl, hthrough⟩
        · exact ⟨_, c', _, rfl, .inr rfl, hthrough⟩
      · exact ⟨_, c', _, rfl, .inr rfl, hthrough⟩
  · simp only [hins, if_false]
    by_cases hupd : r.type = Wal.RecordType.update
    · simp only [hupd, if_true]
      cases K.deserializePoint r.data with
      | error e => exact hstay count
      | ok p =>
        obtain ⟨c', err, hups, hthrough⟩ := hinv.upsertInternal_spec p
        simp only [hups]
        exact ⟨_, c', _, rfl, .inr rfl, hthrough⟩
    · simp only [hupd, if_false]
      by_cases hdel : r.type = Wal.RecordType.delete
      · simp only [hdel, if_true]
        obtain ⟨c', err, hd, hthrough⟩ := hinv.deleteInternal_spec r.data
        simp only [hd]
        exact ⟨_, c', _, rfl, .inr rfl, hthrough⟩
      · simp only [hdel, if_false]
        exact hstay (count + 1)

theorem replayRecord_rel (hinv : ∀ name c, m.collections name = some c → Inv E c) (r : Wal.Record)
    (count : ℕ) : ∃ m' count', replayRecord E K (m, count) r = .value (m', count') ∧
      ∀ name, Option.Rel
        (fun c c' => Through E c ((recordsOf name [r]).flatMap (recordCmds K c.config)) c')
        (m.collections name) (m'.collections name) := by
  have hsame : ∀ name, (r.collection = name → m.collections name = none) → Option.Rel
      (fun c c' => Through E c ((recordsOf name [r]).flatMap (recordCmds K c.config)) c')
      (m.collections name) (m.collections name) := by
    intro name hname
    cases hc : m.collections name with
    | none => exact .none
    | some c =>
      rw [recordsOf_other (by simpa [hc] using hname)]
      exact .some (.refl (hinv name c hc))
  cases hr : m.collections r.collection with
  | none => exact ⟨m, count, by simp only [replayRecord, hr], fun name => hsame name (· ▸ hr)⟩
  | some c =>
    obtain ⟨m', c₁, count₁, hone, hm', hthrough⟩ := replayRecord_spec (K := K) hr (hinv _ c hr) count
    have hself : m'.collections r.collection = some c₁ := by
      rcases hm' with ⟨rfl, rfl⟩ | rfl
      · exact hr
      · exact put_self ..
    have hother : ∀ name, name ≠ r.collection → m'.collections name = m.collections name := by
      rcases hm' with ⟨rfl, rfl⟩ | rfl
      · exact fun _ _ => rfl
      · exact fun name hne => put_of_ne m c₁ hne
    refine ⟨m', count₁, hone, fun name => ?_⟩
    by_cases hname : r.collection = name
    · subst hname
      rw [hr, hself, recordsOf_owned (by simp)]
      exact .some (by simpa using hthrough)
    · rw [hother name (Ne.symm hname)]
      exact hsame name (absurd · hname)

/-- **A replay** takes every collection through the commands of the records of its name, and never
    fails. -/
theorem replayWAL_spec (m : Manager F P G S) (records : List Wal.Record)
    (hinv : ∀ name c, m.collections name = some c → Inv E c) :
    ∃ m' count, replayWAL E K m records = .value (m', count) ∧ ∀ name, Option.Rel
      (fun c c' => Through E c ((recordsOf name records).flatMap (recordCmds K c.config)) c')
      (m.collections name) (m'.collections name) := by
  unfold replayWAL
  generalize 0 = count
  induction records generalizing m count with
  | nil =>
    refine ⟨m, count, rfl, fun name => ?_⟩
    cases hc : m.collections name with
    | none => exact .none
    | some c => exact .some (.refl (hinv name c hc))
  | cons r records ih =>
    obtain ⟨m₁, count₁, hone, hfirst⟩ := replayRecord_rel (K := K) hinv r count
    obtain ⟨m', count', hrest, hrel⟩ := ih m₁ (fun name c hc => by
      have hrel := hfirst name
      generalize m.collections name = before at hrel
      rw [hc] at hrel
      cases hrel with
      | some hthrough => exact hthrough.inv) count₁
    rw [foldlM_cons, hone]
    refine ⟨m', count', hrest, fun name => rel_comp (hfirst name) (hrel name) ?_⟩
    intro c c₁ c' hthrough hafter
    rw [← singleton_append, recordsOf_append, flatMap_append]
    exact hthrough.trans (hthrough.config ▸ hafter)

theorem replayWAL_at {records : List Wal.Record} (hinv : ∀ name c, m.collections name = some c → Inv E c)
    (hc : m.collections name = some c) (howned : ∀ r ∈ records, r.collection = name) :
    ∃ m' count c', replayWAL E K m records = .value (m', count) ∧ m'.collections name = some c' ∧
      Through E c (records.flatMap (recordCmds K c.config)) c' := by
  obtain ⟨m', count, hreplay, hrel⟩ := replayWAL_spec (K := K) m records hinv
  have hafter := hrel name
  rw [hc, recordsOf_owned howned] at hafter
  generalize hc' : m'.collections name = after at hafter
  cases hafter with
  | some hthrough => exact ⟨m', count, _, hreplay, hc', hthrough⟩

omit [Scalar F] in
theorem inv_single (hinv : Inv E c) (name : Bytes) (c' : Collection F P G S)
    (hc' : (Manager.single c).collections name = some c') : Inv E c' := by
  obtain ⟨-, rfl⟩ := single_iff.mp hc'
  exact hinv

theorem replayWAL_single {records : List Wal.Record} (hinv : Inv E c)
    (howned : ∀ r ∈ records, r.collection = c.config.name) :
    ∃ m count c', replayWAL E K (.single c) records = .value (m, count) ∧
      m.collections c.config.name = some c' ∧
      Through E c (records.flatMap (recordCmds K c.config)) c' :=
  replayWAL_at (inv_single hinv) (single_iff.mpr ⟨rfl, rfl⟩) howned

omit [Scalar F]

theorem Inv.get_eq_iff {c' : Collection F P G S} (h : Inv E c) (h' : Inv E c') (id : Bytes) :
    c.get E id = c'.get E id ↔ (table E c).find id = (table E c').find id := by
  unfold Collection.get
  rw [h.index.get_eq, h'.index.get_eq]
  exact answer_inj id _ _

theorem Inv.get_not_found_iff (h : Inv E c) (id : Bytes) :
    c.get E id = .error .pointNotFound ↔ (table E c).find id = none := by
  unfold Collection.get
  rw [h.index.get_eq]
  exact answer_inj id _ none

theorem new_index {cfg : CollectionConfig} {rng : Stream' ℕ} {graph : G} {file : Option S}
    (hnew : new cfg rng graph file = .ok c) : c.config = cfg ∧
      Hnsw.new ⟨cfg.M, cfg.efSearch, cfg.dimension⟩ rng graph file = .ok c.index := by
  unfold new at hnew
  cases hvalid : cfg.validate with
  | error e => rw [hvalid] at hnew; cases hnew
  | ok _ =>
    simp only [hvalid] at hnew
    cases hindex : Hnsw.new ⟨cfg.M, cfg.efSearch, cfg.dimension⟩ rng graph
      file with
    | error e => rw [hindex] at hnew; cases hnew
    | ok index =>
      rw [hindex] at hnew
      cases hnew
      exact ⟨rfl, rfl⟩

theorem inv_new {cfg : CollectionConfig} {rng : Stream' ℕ} {graph : G} {file : Option S}
    (hnew : new cfg rng graph file = .ok c) (hfile : ∀ s, file = some s → E.mmap.Reliable s)
    (hsound : E.Sound c.index) : Inv E c ∧ c.config = cfg ∧ table E c = Table.empty := by
  obtain ⟨rfl, hindex⟩ := new_index hnew
  obtain ⟨hinv, hdim, hview⟩ := Hnsw.inv_new hindex hfile
  refine ⟨⟨hinv, hdim, ?_, hsound⟩, rfl, hview⟩
  unfold Hnsw.new at hindex
  generalize c.index = h at hindex ⊢
  split at hindex
  · cases hindex
  · split at hindex <;> cases hindex
    rfl

end Replay

/-! ## Into a fresh collection -/

section Fresh

variable {D Q C : Type} [Graph.Distance D]

/-- The graph of a new index in memory. -/
def memoryGraph (cfg : CollectionConfig) (efConstruction : Int) (quantizer : Option Q) : GraphState Q C :=
  ⟨2 * cfg.M, efConstruction, quantizer, fun _ => none, Links.empty⟩

omit [Scalar F] in
theorem working_new {T : Tools F D Q C S} {cfg : CollectionConfig} {rng : Stream' ℕ} {efConstruction : Int}
    {quantizer : Option Q} (he : T.Encodes quantizer) {c : Collection F P (GraphState Q C) S}
    (hnew : new cfg rng (memoryGraph cfg efConstruction quantizer) none = .ok c) : Working T c.index := by
  obtain ⟨-, hindex⟩ := new_index hnew
  have hgraph : Graph.new ⟨cfg.M, efConstruction, cfg.efSearch, cfg.dimension⟩ rng quantizer Links.empty none =
    .ok c.index := hindex
  refine ⟨⟨_, Graph.inMemory_new hgraph⟩, ?_⟩
  rw [Graph.new_eq hgraph]
  exact he

/-- **The log of any history of a collection in memory, replayed into a fresh collection of the same
    configuration, gives every id the result that Get has in the live one.** The quantizer, if there is one, is
    one that encodes without a panic. -/
theorem replay_restores (T : Tools F D Q C S) (pool : Graph.Index F P Q C S → ℕ → VisitedList)
    (K : Codec F P) (cfg : CollectionConfig) (rng rng' : Stream' ℕ) (efConstruction : Int)
    (quantizer quantizer' : Option Q) (he : T.Encodes quantizer) (he' : T.Encodes quantizer')
    (live fresh : Collection F P (GraphState Q C) S)
    (hlive : new cfg rng (memoryGraph cfg efConstruction quantizer) none = .ok live)
    (hfresh : new cfg rng' (memoryGraph cfg efConstruction quantizer') none = .ok fresh)
    (faults : Stream' Bool) (cs : List (Call F P))
    (hcs : ∀ c ∈ cs, ∀ p ∈ c.points, K.Serializes p ∧ K.Faithful p) :
    ∃ db replies w m count c,
      calls (T.env pool) K ⟨live, some ⟨[], faults⟩⟩ cs = .value (db, replies) ∧ db.wal = some w ∧
      replayWAL (T.env pool) K (.single fresh) w.records = .value (m, count) ∧
      m.collections cfg.name = some c ∧ ∀ id, c.get (T.env pool) id = db.coll.get (T.env pool) id := by
  obtain ⟨hinv, hcfg, hempty⟩ := inv_new (E := T.env pool) hlive nofun (working_new he hlive)
  obtain ⟨hinv', hcfg', hempty'⟩ := inv_new (E := T.env pool) hfresh nofun (working_new he' hfresh)
  have hsame : fresh.config = live.config := hcfg'.trans hcfg.symm
  obtain ⟨db, replies, rs, cmds, hrun, hj⟩ := calls_journaled
    (fun c hc p hp => (hcs c hc p hp).2) ⟨live, some ⟨[], faults⟩⟩ hinv rfl
  have hcmds : rs.flatMap (recordCmds K live.config) = cmds := hj.complete fun p hp => by
    obtain ⟨c, hc, hp⟩ := mem_flatMap.mp hp
    exact (hcs c hc p (c.batch_subset p hp)).1
  obtain ⟨w, hw, hrec⟩ := hj.log _ rfl
  rw [nil_append] at hrec
  obtain ⟨m, count, c, hreplay, hc, hthrough⟩ := replayWAL_single hinv'
    fun r hr => hsame ▸ hj.owned r (hrec ▸ hr)
  refine ⟨db, replies, w, m, count, c, hrun, hw, hreplay, hcfg' ▸ hc, fun id => ?_⟩
  rw [hthrough.inv.get_eq_iff hj.through.inv, hthrough.table, hj.through.table, hempty', hrec,
    hsame, hcmds]
  exact congrArg (fun t => (Table.replay maxNodes t _).find id) hempty.symm

end Fresh

instance natScalar : Scalar ℕ where
  zero := 0
  isZero x := x == 0
  sqrt := Nat.sqrt
  finite _ := true

abbrev smallEnv : Env ℕ Unit (GraphState Unit Unit) Unit := line.env fun _ _ => .new 4

def smallConfig : CollectionConfig := ⟨[99], 1, .euclidean, 2, 100⟩

/-- The point with a letter for its id and for its vector. -/
def letter (n : UInt8) : Point ℕ Unit := ⟨[n], [n.toNat], none, [], none⟩

abbrev smallPoint : Point ℕ Unit := letter 97

def smallCodec : Codec ℕ Unit :=
  ⟨fun p => .ok p.id, fun data => .ok ⟨data, data.map UInt8.toNat, none, [], none⟩⟩

def smallCollection : Collection ℕ Unit (GraphState Unit Unit) Unit :=
  ⟨smallConfig, ⟨2, 2, 100, -1, [], 0, 0, 1, fun _ => none, 0, Stream'.const 0,
    memoryGraph smallConfig 10 none, none⟩⟩

theorem smallCollection_new :
    new smallConfig (Stream'.const 0) (memoryGraph smallConfig 10 none) none = .ok smallCollection := rfl

theorem smallCodec_faithful (n : UInt8) : smallCodec.Serializes (letter n) ∧ smallCodec.Faithful (letter n) :=
  ⟨⟨[n], rfl⟩, fun data hdata => by cases hdata; rfl⟩

/-- What calls on a collection with a log leave, looked at by a decidable view. -/
theorem calls_view (E : Env F P G S) (K : Codec F P) (db : Db F P G S) (cs : List (Call F P))
    (V : Collection F P G S → Log → Prop) [∀ c w, Decidable (V c w)]
    (hview : (match calls E K db cs with
      | .value (⟨c, some w⟩, _) => decide (V c w)
      | _ => false) = true) :
    ∃ c w replies, calls E K db cs = .value (⟨c, some w⟩, replies) ∧ V c w := by
  split at hview
  · rename_i c w replies hcalls
    exact ⟨c, w, replies, hcalls, of_decide_eq_true hview⟩
  · cases hview

/-- Three points that are linked, an upsert that deletes one of them and fails, and a delete. -/
theorem replay_restores_small : ∃ db replies w m count c,
    calls smallEnv smallCodec ⟨smallCollection, some ⟨[], Stream'.const false⟩⟩
      [.insert (letter 97), .insertBatch [letter 98, letter 99], .upsert (letter 97), .delete [98]] =
        .value (db, replies) ∧
    db.wal = some w ∧
    replayWAL smallEnv smallCodec (.single smallCollection) w.records = .value (m, count) ∧
    m.collections smallConfig.name = some c ∧
    ∀ id, c.get smallEnv id = db.coll.get smallEnv id := by
  refine replay_restores line _ smallCodec smallConfig (Stream'.const 0) (Stream'.const 0) 10 none none
    (Graph.encodes_none _) (Graph.encodes_none _) smallCollection smallCollection smallCollection_new
    smallCollection_new (Stream'.const false) _ ?_
  intro c hc p hp
  obtain ⟨n, rfl⟩ : ∃ n, p = letter n := by
    simp only [mem_cons, not_mem_nil, or_false] at hc
    rcases hc with rfl | rfl | rfl | rfl <;> simp [Call.points] at hp
    · exact ⟨97, hp⟩
    · exact hp.elim (⟨98, ·⟩) (⟨99, ·⟩)
    · exact ⟨97, hp⟩
  exact smallCodec_faithful n

/-! ## Over a graph file that was there -/

/-- Vectors on the line, in a file that appends. -/
def disk : Tools ℕ ℕ Unit Unit (List (List ℕ)) :=
  { line with mmap := ⟨fun s => (s ++ [[]], some s.length), fun s i v => s.set i v, fun s i => s[i]?⟩ }

abbrev diskEnv : Env ℕ Unit (GraphState Unit Unit) (List (List ℕ)) := disk.env fun _ _ => .new 4

def diskGraph (g : GraphMmap) : GraphState Unit Unit := ⟨4, 10, none, fun _ => none, .file g⟩

def diskCollection (g : GraphMmap) : Collection ℕ Unit (GraphState Unit Unit) (List (List ℕ)) :=
  ⟨smallConfig, ⟨2, 2, 100, -1, [], 0, 0, 1, fun _ => none, 0, Stream'.const 0, diskGraph g, some []⟩⟩

/-- The graph file as the live collection has left it. -/
def leftOf : Links → GraphMmap
  | .file g => .opened 2 g.words g.size
  | .memory _ => .fresh 2

/-- **A collection on disk: the replay panics.** New opens the graph file that the live collection has written,
    and the second Insert of the replay follows a link of the first node to a node that is not there. -/
theorem replay_panics_on_disk : ∃ live db replies w fresh,
    new smallConfig (Stream'.const 0) (diskGraph (.fresh 2)) (some []) = .ok live ∧
    calls diskEnv smallCodec ⟨live, some ⟨[], Stream'.const false⟩⟩
      [.insert (letter 97), .insert (letter 98), .insert (letter 99)] = .value (db, replies) ∧
    db.wal = some w ∧ db.coll.get diskEnv [98] = .value (letter 98) ∧
    new smallConfig (Stream'.const 0) (diskGraph (leftOf db.coll.index.graph.links)) (some []) = .ok fresh ∧
    replayWAL diskEnv smallCodec (.single fresh) w.records = .panic := by
  obtain ⟨coll, w, replies, hcalls, hget, hview⟩ := calls_view diskEnv smallCodec
    ⟨diskCollection (.fresh 2), some ⟨[], Stream'.const false⟩⟩
    [.insert (letter 97), .insert (letter 98), .insert (letter 99)] (fun coll w => coll.get diskEnv [98] = .value (letter 98) ∧ (match replayWAL diskEnv smallCodec
      (.single (diskCollection (leftOf coll.index.graph.links))) w.records with
      | .panic => true
      | _ => false) = true) (by decide +kernel)
  split at hview
  · rename_i hpanic
    exact ⟨_, ⟨coll, some w⟩, replies, w, _, rfl, hcalls, rfl, hget, rfl, hpanic⟩
  · cases hview

/-! ## Over the saved index -/

def Touches (K : Codec F P) (r : Wal.Record) (id : Bytes) : Prop :=
  (r.type = Wal.RecordType.update ∧ ∃ p, K.deserializePoint r.data = .ok p ∧ p.id = id) ∨
    (r.type = Wal.RecordType.delete ∧ r.data = id)

section Recover

variable {E : Env F P G S} [Steady E] {K : Codec F P}

theorem upsertCmd_kills (cfg : CollectionConfig) (p : Point F P) : (upsertCmd cfg p).kills := by
  unfold upsertCmd
  split <;> rfl

theorem touches_iff (cfg : CollectionConfig) (r : Wal.Record) (id : Bytes) :
    Touches K r id ↔ ∃ c ∈ recordCmds K cfg r, c.kills ∧ c.key = id := by
  unfold Touches recordCmds
  by_cases hins : r.type = Wal.RecordType.insert
  · rw [hins, if_pos rfl]
    refine iff_of_false ?_ ?_
    · rintro (⟨h, -⟩ | ⟨h, -⟩) <;> exact absurd h (by decide)
    · rintro ⟨c, hc, hkill, -⟩
      cases hd : K.deserializePoint r.data with
      | error e =>
        rw [hd] at hc
        exact absurd hc not_mem_nil
      | ok p =>
        rw [hd] at hc
        simp only [insertCmds] at hc
        split at hc
        · rw [mem_singleton.mp hc] at hkill
          cases hkill
        · exact absurd hc not_mem_nil
  · rw [if_neg hins]
    by_cases hupd : r.type = Wal.RecordType.update
    · rw [hupd, if_pos rfl]
      have hne : Wal.RecordType.update ≠ Wal.RecordType.delete := by decide
      cases K.deserializePoint r.data with
      | error e => simp [hne]
      | ok p => simp [hne, upsertCmd_kills, upsertCmd_key]
    · rw [if_neg hupd]
      by_cases hdel : r.type = Wal.RecordType.delete
      · have hne : Wal.RecordType.delete ≠ Wal.RecordType.update := by decide
        simp [hdel, hne, Cmd.kills, Cmd.key]
      · rw [if_neg hdel]
        simp [hupd, hdel]

variable {J : MetadataCodec F P T}

omit [Scalar F] in
theorem loadIndexState_saved (files : Bytes → Option T) {text : T}
    {live fresh : Collection F P G S} (hinv : Inv E live)
    (hnameless : (table E live).slot [] = .absent) (hfresh : Inv E fresh)
    (hempty : table E fresh = Table.empty) (hconfig : fresh.config = live.config)
    (hsaved : files live.config.name = some text)
    (hjson : J.unmarshal text = some (saveMetadata E live.index)) :
    ∃ c, loadIndexState E J files fresh = .value (c, none) ∧ Inv E c ∧ c.config = live.config ∧
      table E c = table E live := by
  have hdim : fresh.index.dimension = live.index.dimension := by
    rw [hfresh.dimension, hinv.dimension, hconfig]
  have hnodes : fresh.index.nodes = [] := length_eq_zero_iff.mp (congrArg Table.used hempty)
  obtain ⟨index, hload, hsound⟩ := Steady.load hinv.sound ((hinv.index.view_absent_iff []).mp hnameless)
    hfresh.sound hnodes (by rw [hfresh.M, hinv.M, hconfig]) hdim
  obtain ⟨hindex, hdim', hM, hview⟩ := load_save hinv.index hnameless hfresh.index hdim hload
  refine ⟨{ fresh with index := index }, ?_, ⟨hindex, ?_, hM.trans hfresh.M, hsound⟩, hconfig, hview⟩
  · unfold loadIndexState
    rw [hconfig, hsaved]
    simp only [hjson, hload, Outcome.value_bind, Outcome.pure_eq]
  · rw [hdim', hinv.dimension, hconfig]

omit [Scalar F] [Steady E] in
theorem loadIndexStates_spec {files : Bytes → Option T}
    {R : Bytes → Collection F P G S → Collection F P G S → Prop} :
    ∀ (l : List (Sigma fun _ : Bytes => Collection F P G S)) (m : Manager F P G S), l.NodupKeys →
      (∀ entry ∈ l, ∃ c err, loadIndexState E J files entry.2 = .value (c, err) ∧ R entry.1 entry.2 c) →
      ∃ m', loadIndexStates E J files l m = .value m' ∧ ∀ name,
        (name ∉ l.keys → m'.collections name = m.collections name) ∧
        ∀ c, ⟨name, c⟩ ∈ l → ∃ c', m'.collections name = some c' ∧ R name c c'
  | [], m, _, _ => ⟨m, rfl, fun _ => ⟨fun _ => rfl, nofun⟩⟩
  | entry :: l, m, hnodup, hall => by
    obtain ⟨hnew, hnodup⟩ := nodupKeys_cons.mp hnodup
    obtain ⟨c, err, hload, hR⟩ := hall entry mem_cons_self
    obtain ⟨m', hrun, hrest⟩ := loadIndexStates_spec l (m.put entry.1 c) hnodup (forall_mem_cons.mp hall).2
    refine ⟨m', by simp only [loadIndexStates, hload, Outcome.value_bind, hrun], fun name => ⟨fun hnot => ?_, ?_⟩⟩
    · rw [keys_cons, mem_cons, not_or] at hnot
      rw [(hrest name).1 hnot.2, put_of_ne m c hnot.1]
    · intro c₀ hc₀
      rcases mem_cons.mp hc₀ with rfl | hc₀
      · exact ⟨c, by rw [(hrest name).1 hnew, put_self], hR⟩
      · exact (hrest name).2 c₀ hc₀

omit [Scalar F] [Steady E] in
theorem loadIndexStates_rel {files : Bytes → Option T} {m : Manager F P G S}
    {R : Bytes → Collection F P G S → Collection F P G S → Prop}
    (hload : ∀ name c, m.collections name = some c →
      ∃ c' err, loadIndexState E J files c = .value (c', err) ∧ R name c c') :
    ∃ m', loadIndexStates E J files m.all.entries m = .value m' ∧
      ∀ name, Option.Rel (R name) (m.collections name) (m'.collections name) := by
  obtain ⟨m', hrun, hall⟩ := loadIndexStates_spec m.all.entries m m.all.nodupKeys fun entry hentry =>
    hload entry.1 entry.2 (AList.mem_lookup_iff.mpr hentry)
  refine ⟨m', hrun, fun name => ?_⟩
  cases hc : m.collections name with
  | none =>
    rw [(hall name).1 (AList.lookup_eq_none.mp hc), hc]
    exact .none
  | some c =>
    obtain ⟨c', hc', hR⟩ := (hall name).2 c (AList.mem_lookup_iff.mp hc)
    rw [hc']
    exact .some hR

end Recover

def smallMetadata : MetadataCodec ℕ Unit (IndexMetadata ℕ Unit) := ⟨some, some⟩

end LimyeDB.Collection
