/-
  CALLS SIDE BY SIDE: a call writes its record to the log before it takes the lock of the collection, and
  other clients may come in between.
-/
import LimyeDB.Collection.Recovery
import LimyeDB.Lib.Runs

namespace LimyeDB.Collection

open Go Hnsw Lib.WriteOnce List
open LimyeDB.Graph (GraphState)

variable {F P G S : Type} [Scalar F]

/-! ## The states of a collection -/

/-- Each change is made under the lock by one of the three operations, and a restart loads what was saved. -/
inductive Reachable (E : Env F P G S) [Steady E] (cfg : CollectionConfig) : Collection F P G S → Prop where
  | new {rng : Stream' ℕ} {graph : G} {file : Option S} {c : Collection F P G S} :
      new cfg rng graph file = .ok c → (∀ s, file = some s → E.mmap.Reliable s) → E.Sound c.index →
      Reachable E cfg c
  | insert {c c' : Collection F P G S} {p : Point F P} {err : Option (Error F)} :
      Reachable E cfg c → p.validate = .ok () → insertInternal E c p = .value (c', err) →
      Reachable E cfg c'
  | upsert {c c' : Collection F P G S} {p : Point F P} {err : Option (Error F)} :
      Reachable E cfg c → p.validate = .ok () → upsertInternal E c p = .value (c', err) →
      Reachable E cfg c'
  | delete {c c' : Collection F P G S} {id : Bytes} {err : Option (Error F)} :
      Reachable E cfg c → deleteInternal c id = .value (c', err) → Reachable E cfg c'
  | load {c fresh : Collection F P G S} {index : HNSW F P G S} {rng : Stream' ℕ} {graph : G}
      {file : Option S} :
      Reachable E cfg c → Collection.new cfg rng graph file = .ok fresh →
      (∀ s, file = some s → E.mmap.Reliable s) → E.Sound fresh.index →
      loadMetadata E fresh.index (saveMetadata E c.index) = .value (index, none) →
      Reachable E cfg { fresh with index := index }

omit [Scalar F] in
theorem nameless_of_through {E : Env F P G S} [Steady E] {c c' : Collection F P G S}
    {cmds : List (Cmd Bytes (List F × Option P))} (h : Through E c cmds c')
    (hcmds : ∀ cmd ∈ cmds, cmd.key = [] → cmd = .delete []) (hc : (table E c).slot [] = .absent) :
    (table E c').slot [] = .absent := by
  rw [h.table]
  exact slot_replay_absent hcmds hc

variable {cfg : CollectionConfig}

theorem Reachable.inv {E : Env F P G S} [Steady E] {c : Collection F P G S} (h : Reachable E cfg c) :
    Inv E c ∧ c.config = cfg ∧ (table E c).slot [] = .absent := by
  induction h with
  | new hnew hfile hsound =>
    obtain ⟨hinv, hcfg, hempty⟩ := inv_new hnew hfile hsound
    exact ⟨hinv, hcfg, hempty ▸ rfl⟩
  | @insert c c' p err _ hvalid hins ih =>
    obtain ⟨hinv, hcfg, hnone⟩ := ih
    obtain ⟨c₁, err₁, hins₁, hthrough⟩ := hinv.insertInternal_spec p
    rw [hins] at hins₁
    cases hins₁
    exact ⟨hthrough.inv, hthrough.config.trans hcfg,
      nameless_of_through hthrough (insertCmds_named (validate_id hvalid)) hnone⟩
  | @upsert c c' p err _ hvalid hups ih =>
    obtain ⟨hinv, hcfg, hnone⟩ := ih
    obtain ⟨c₁, err₁, hups₁, hthrough⟩ := hinv.upsertInternal_spec p
    rw [hups] at hups₁
    cases hups₁
    exact ⟨hthrough.inv, hthrough.config.trans hcfg,
      nameless_of_through hthrough (upsertCmd_named (validate_id hvalid)) hnone⟩
  | @delete c c' id err _ hdel ih =>
    obtain ⟨hinv, hcfg, hnone⟩ := ih
    obtain ⟨c₁, err₁, hdel₁, hthrough⟩ := hinv.deleteInternal_spec id
    rw [hdel] at hdel₁
    cases hdel₁
    exact ⟨hthrough.inv, hthrough.config.trans hcfg,
      nameless_of_through hthrough (delete_named id) hnone⟩
  | @load c fresh index rng graph file _ hnew hfile hsound hload ih =>
    obtain ⟨hinv, hcfg, hnone⟩ := ih
    obtain ⟨hinv', hcfg', hempty⟩ := inv_new hnew hfile hsound
    obtain ⟨c', hload', hinv₁, hcfg₁, htable⟩ := loadIndexState_saved (J := ⟨some, some⟩)
      (fun _ => some (saveMetadata E c.index)) hinv hnone hinv' hempty (hcfg'.trans hcfg.symm) rfl rfl
    simp only [loadIndexState, hload, Outcome.value_bind, Outcome.pure_eq] at hload'
    cases hload'
    exact ⟨hinv₁, hcfg₁.trans hcfg, htable ▸ hnone⟩

/-! ## Clients -/

variable {ι : Type} [DecidableEq ι]

inductive Status (F : Type) where
  | ready
  | logged
  | returned (err : Option (Error F))
  deriving DecidableEq, Repr

structure Clients (ι F P G S : Type) where
  db : Db F P G S
  status : ι → Status F

inductive Action (ι : Type) where
  | log (c : ι)
  | lock (c : ι)
  deriving DecidableEq, Repr

def step (E : Env F P G S) (K : Codec F P) (ops : ι → Op F P) (s : Clients ι F P G S) :
    Action ι → Option (Clients ι F P G S)
  | .log c =>
    match s.status c with
    | .ready =>
      match (ops c).log K s.db with
      | (db, some e) => some ⟨db, Function.update s.status c (.returned (some e))⟩
      | (db, none) => some ⟨db, Function.update s.status c .logged⟩
    | _ => none
  | .lock c =>
    match s.status c with
    | .logged =>
      match (ops c).lock E s.db.coll with
      | .value (coll, err) =>
        some ⟨{ s.db with coll := coll }, Function.update s.status c (.returned err)⟩
      | _ => none
    | _ => none

def start (db : Db F P G S) : Clients ι F P G S := ⟨db, fun _ => .ready⟩

def logOrder (as : List (Action ι)) : List ι :=
  as.filterMap fun | .log c => some c | .lock _ => none

def lockOrder (as : List (Action ι)) : List ι :=
  as.filterMap fun | .log _ => none | .lock c => some c

section Orders

variable {as : List (Action ι)} {c : ι}

omit [DecidableEq ι]

@[simp] theorem logOrder_log : logOrder (as ++ [.log c]) = logOrder as ++ [c] := by
  simp [logOrder]

@[simp] theorem logOrder_lock : logOrder (as ++ [.lock c]) = logOrder as := by
  simp [logOrder]

@[simp] theorem lockOrder_log : lockOrder (as ++ [.log c]) = lockOrder as := by
  simp [lockOrder]

@[simp] theorem lockOrder_lock : lockOrder (as ++ [.lock c]) = lockOrder as ++ [c] := by
  simp [lockOrder]

theorem sublist_eq_of_perm {L l l' : List ι} (hL : L.Nodup) (h : l.Sublist L) (h' : l'.Sublist L)
    (hp : l.Perm l') : l = l' := by
  induction L generalizing l l' with
  | nil => rw [sublist_nil.mp h, sublist_nil.mp h']
  | cons a L ih =>
    obtain ⟨ha, hL⟩ := nodup_cons.mp hL
    cases h with
    | cons _ h =>
      cases h' with
      | cons _ h' => exact ih hL h h' hp
      | cons_cons _ h' => exact absurd (h.subset (hp.mem_iff.mpr mem_cons_self)) ha
    | cons_cons _ h =>
      cases h' with
      | cons _ h' => exact absurd (h'.subset (hp.mem_iff.mp mem_cons_self)) ha
      | cons_cons _ h' => rw [ih hL h h' hp.cons_inv]

end Orders

section Trace

variable {E : Env F P G S} [Steady E] {K : Codec F P} {ops : ι → Op F P} {db : Db F P G S} {w : Log}

/-- **What any interleaving leaves.** The clients `l` have their records in the log, in this order. -/
structure Trace (E : Env F P G S) [Steady E] (K : Codec F P) (ops : ι → Op F P) (db : Db F P G S) (w : Log)
    (as : List (Action ι)) (l : List ι) (s : Clients ι F P G S) : Prop where
  through : Through E db.coll ((lockOrder as).flatMap fun c => (ops c).cmds db.coll.config)
    s.db.coll
  log : ∃ w' rs, s.db.wal = some w' ∧ w'.records = w.records ++ rs ∧
    rs.flatMap (recordCmds K db.coll.config) = l.flatMap (fun c => (ops c).cmds db.coll.config) ∧
    ∀ r ∈ rs, r.collection = db.coll.config.name
  admitted : ∀ c ∈ l, (ops c).Admitted db.coll.config
  sublist : l.Sublist (logOrder as)
  locked : ∀ c ∈ lockOrder as, c ∈ l
  ready : ∀ c, s.status c = .ready ↔ c ∉ logOrder as
  logged : ∀ c, s.status c = .logged ↔ c ∈ l ∧ c ∉ lockOrder as
  logOnce : (logOrder as).Nodup
  lockOnce : (lockOrder as).Nodup

omit [DecidableEq ι] in
theorem trace_start (hinv : Inv E db.coll) (hw : db.wal = some w) :
    Trace E K ops db w [] [] (start db) where
  through := .refl hinv
  log := ⟨w, [], hw, (append_nil _).symm, rfl, nofun⟩
  admitted := nofun
  sublist := Sublist.refl _
  locked := nofun
  ready c := by simp [start, logOrder]
  logged c := by simp [start]
  logOnce := nodup_nil
  lockOnce := nodup_nil

variable {as : List (Action ι)} {l : List ι} {s : Clients ι F P G S} {c : ι} {w' : Log}

variable (h : Trace E K ops db w as l s)
include h

/-- A client that is not refused leaves its record and waits for the lock. -/
theorem Trace.log_step {st : Status F} {w₀ : Log} {rs : List Wal.Record} {k : List ι} (hready : s.status c = .ready)
    (hw₀ : s.db.wal = some w₀) (hrec : w'.records = w₀.records ++ rs)
    (hcmds : rs.flatMap (recordCmds K db.coll.config) = k.flatMap fun c => (ops c).cmds db.coll.config)
    (howned : ∀ r ∈ rs, r.collection = db.coll.config.name)
    (hadm : ∀ c ∈ k, (ops c).Admitted db.coll.config)
    (hk : k = [c] ∧ st = .logged ∨ k = [] ∧ ∃ e, st = .returned e) :
    Trace E K ops db w (as ++ [.log c]) (l ++ k)
      ⟨{ s.db with wal := some w' }, Function.update s.status c st⟩ := by
  have hnew : c ∉ logOrder as := (h.ready c).mp hready
  have hout : c ∉ l := fun hc => hnew (h.sublist.subset hc)
  have hfree : c ∉ lockOrder as := fun hc => hout (h.locked c hc)
  refine ⟨?_, ?_, ?_, ?_, ?_, ?_, ?_, ?_, ?_⟩
  · rw [lockOrder_log]
    exact h.through
  · obtain ⟨w₁, rs₁, hw₁, hrs, hflat, hown⟩ := h.log
    rw [hw₀] at hw₁
    cases hw₁
    refine ⟨w', rs₁ ++ rs, rfl, by rw [hrec, hrs, append_assoc], ?_, ?_⟩
    · rw [flatMap_append, flatMap_append, hflat, hcmds]
    · exact fun r hr => (mem_append.mp hr).elim (hown r) (howned r)
  · exact fun c' hc' => (mem_append.mp hc').elim (h.admitted c') (hadm c')
  · rw [logOrder_log]
    refine h.sublist.append ?_
    rcases hk with ⟨rfl, -⟩ | ⟨rfl, -⟩ <;> simp
  · rw [lockOrder_log]
    exact fun c' hc' => mem_append_left _ (h.locked c' hc')
  · intro c'
    by_cases hc : c' = c
    · subst hc
      rcases hk with ⟨-, rfl⟩ | ⟨-, e, rfl⟩ <;> simp
    · simp [h.ready, hc]
  · intro c'
    by_cases hc : c' = c
    · subst hc
      rcases hk with ⟨rfl, rfl⟩ | ⟨rfl, e, rfl⟩ <;> simp [hfree, hout]
    · rcases hk with ⟨rfl, -⟩ | ⟨rfl, -⟩ <;> simp [h.logged, hc]
  · rw [logOrder_log]
    exact h.logOnce.append (nodup_singleton c) (by simpa using hnew)
  · rw [lockOrder_log]
    exact h.lockOnce

theorem Trace.lock {coll : Collection F P G S} {err : Option (Error F)}
    (hlogged : s.status c = .logged)
    (hcoll : Through E s.db.coll ((ops c).cmds s.db.coll.config) coll) :
    Trace E K ops db w (as ++ [.lock c]) l
      ⟨{ s.db with coll := coll }, Function.update s.status c (.returned err)⟩ := by
  obtain ⟨hin, hfree⟩ := (h.logged c).mp hlogged
  have hseen : c ∈ logOrder as := h.sublist.subset hin
  refine ⟨?_, h.log, h.admitted, ?_, ?_, ?_, ?_, ?_, ?_⟩
  · rw [lockOrder_lock, flatMap_append, flatMap_singleton]
    exact h.through.trans (h.through.config ▸ hcoll)
  · rw [logOrder_lock]
    exact h.sublist
  · rw [lockOrder_lock]
    intro c' hc'
    rcases mem_append.mp hc' with hc' | hc'
    · exact h.locked c' hc'
    · rw [mem_singleton.mp hc']
      exact hin
  · intro c'
    by_cases hc : c' = c
    · subst hc
      simp [hseen]
    · simp [h.ready, hc]
  · intro c'
    by_cases hc : c' = c
    · subst hc
      simp
    · simp [h.logged, hc]
  · rw [logOrder_lock]
    exact h.logOnce
  · rw [lockOrder_lock]
    exact h.lockOnce.append (nodup_singleton c) (by simpa using hfree)

section

variable (hops : ∀ c, ∀ p ∈ (ops c).call.points, K.Faithful p)
include hops

omit h in
theorem Trace.step {s' : Clients ι F P G S} {a : Action ι} (h : Trace E K ops db w as l s)
    (hstep : step E K ops s a = some s') : ∃ l', Trace E K ops db w (as ++ [a]) l' s' := by
  have hconfig := h.through.config
  cases a with
  | log c =>
    unfold Collection.step at hstep
    cases hstatus : s.status c with
    | ready =>
      simp only [hstatus] at hstep
      obtain ⟨w₀, -, hw₀, -⟩ := h.log
      have hfirst := Op.log_spec hw₀ (hops c)
      generalize (ops c).log K s.db = first at hfirst hstep
      cases hfirst with
      | record hrec hcmds howned hadm =>
        cases hstep
        rw [hconfig] at hcmds howned hadm
        exact ⟨_, h.log_step (k := [c]) hstatus hw₀ hrec (by simpa using hcmds) (by simpa using howned)
          (by simpa using hadm) (.inl ⟨rfl, rfl⟩)⟩
      | refused hrec =>
        cases hstep
        exact ⟨_, h.log_step (k := []) hstatus hw₀ (hrec.trans (append_nil _).symm) rfl nofun nofun
          (.inr ⟨rfl, _, rfl⟩)⟩
    | logged =>
      simp only [hstatus] at hstep
      cases hstep
    | returned err =>
      simp only [hstatus] at hstep
      cases hstep
  | lock c =>
    unfold Collection.step at hstep
    cases hstatus : s.status c with
    | logged =>
      obtain ⟨coll, err, hlock, hcoll⟩ := Op.lock_spec h.through.inv (ops c)
      simp only [hstatus, hlock] at hstep
      cases hstep
      exact ⟨_, h.lock hstatus hcoll⟩
    | ready =>
      simp only [hstatus] at hstep
      cases hstep
    | returned err =>
      simp only [hstatus] at hstep
      cases hstep

omit h in
theorem run_trace (hinv : Inv E db.coll)
    (hw : db.wal = some w) (hrun : Lib.Runs.run (step E K ops) (start db) as = some s) :
    ∃ l, Trace E K ops db w as l s := by
  induction as using reverseRecOn generalizing s with
  | nil =>
    cases hrun
    exact ⟨[], trace_start hinv hw⟩
  | append_singleton as a ih =>
    obtain ⟨s₁, hrun₁, hlast⟩ := Lib.Runs.run_append.mp hrun
    obtain ⟨s₂, hstep, hend⟩ := Lib.Runs.run_cons.mp hlast
    cases hend
    obtain ⟨l, htrace⟩ := ih hrun₁
    exact htrace.step hops hstep

end

theorem Trace.perm (hdone : ∀ c, ∃ err, s.status c = .returned err) : (lockOrder as).Perm l := by
  refine (perm_ext_iff_of_nodup h.lockOnce (h.logOnce.sublist h.sublist)).mpr fun c =>
    ⟨h.locked c, fun hc => ?_⟩
  by_contra hfree
  obtain ⟨err, herr⟩ := hdone c
  rw [(h.logged c).mpr ⟨hc, hfree⟩] at herr
  cases herr

omit [DecidableEq ι] in
/-- The replay of the new records takes the collection through the operations in the order of the log. -/
theorem Trace.replay (hinv : Inv E db.coll) (hw' : s.db.wal = some w') :
    ∃ m count c, replayWAL E K (.single db.coll) (w'.records.drop w.records.length) =
        .value (m, count) ∧ m.collections db.coll.config.name = some c ∧
      Through E db.coll (l.flatMap fun c => (ops c).cmds db.coll.config) c := by
  obtain ⟨w₁, rs, hw₁, hrs, hflat, howned⟩ := h.log
  rw [hw'] at hw₁
  cases hw₁
  obtain ⟨m, count, c, hreplay, hc, hthrough⟩ := replayWAL_single hinv howned
  refine ⟨m, count, c, ?_, hc, hflat ▸ hthrough⟩
  rw [hrs, drop_left]
  exact hreplay

end Trace

/-! ## Two clients on one id -/

def otherPoint : Point ℕ Unit := { smallPoint with vector := [2] }

def pairCodec : Codec ℕ Unit where
  serializePoint p := .ok (if p.vector = [97] then [0] else [1])
  deserializePoint data := .ok (if data = [0] then smallPoint else otherPoint)

def twoInserts : Fin 2 → Op ℕ Unit
  | 0 => .insert smallPoint
  | 1 => .insert otherPoint

def smallDb : Db ℕ Unit (GraphState Unit Unit) Unit := ⟨smallCollection, some ⟨[], Stream'.const false⟩⟩

theorem smallDb_reachable : Reachable smallEnv smallConfig smallDb.coll :=
  .new smallCollection_new (by simp) (working_new (Graph.encodes_none _) smallCollection_new)

end LimyeDB.Collection
