/-
  FROM THE CALLS TO THE BYTES: the records of a collection in segment files that are rotated, closed and opened
  again, and what their replay brings back.
-/
import LimyeDB.Collection.Clients
import LimyeDB.Wal.Delivery

namespace LimyeDB.Collection

open Go List Wal
open Hnsw (Env)
open LimyeDB.Graph (GraphState Tools VisitedList)

variable {F P G S N : Type} [Scalar F] [LinearOrder N]

/-- The calls `ops` write the records `rs`, in any portions and within the limits of the files. -/
structure Written (ops : List Wal.Op) (rs : List Record) : Prop where
  records : ops.flatMap Op.records = rs
  orderly : ∀ op ∈ ops, op.Orderly ∧ op.records.length < 2 ^ 32
  limits : ∀ r ∈ rs, Accepted r ∧ (frame r).length < 2 ^ 32 ∧ Plain r
  room : (ops.map Op.draws).sum < 2 ^ 64

/-- What `ops` leave on the disk, replayed into `c`, answers every Get as `live` does. -/
def Restores (E : Env F P G S) (K : Codec F P) (C : Clock N) (cfg : Config) (ops : List Wal.Op)
    (c live : Collection F P G S) : Prop :=
  ∃ sys es rs m count c', history C cfg ops = .value (sys, es) ∧ delivered sys = .value rs ∧
    replayWAL E K (.single c) rs = .value (m, count) ∧ m.collections c.config.name = some c' ∧
    ∀ id, c'.get E id = live.get E id

/-- The files give back the records but for number and time, which the replay does not read. -/
theorem Written.replays {ops : List Wal.Op} {rs : List Record} (h : Written ops rs) (C : Clock N)
    (cfg : Config) (E : Env F P G S) (K : Codec F P) (m : Manager F P G S) : ∃ sys es out,
      history C cfg ops = .value (sys, es) ∧ delivered sys = .value out ∧
      replayWAL E K m out = replayWAL E K m rs := by
  obtain ⟨rfl, ho, hlimits, hroom⟩ := h
  have hrec := fun op hop r hr => hlimits r (mem_flatMap.mpr ⟨op, hop, hr⟩)
  have hacc := fun op hop r hr => (hrec op hop r hr).1
  obtain ⟨sys, es, hrun, hans, -, hdel, -⟩ := accepted_history C cfg hrec hroom
  have hwhole : ∀ ev ∈ es, ev.Whole :=
    forall_events hans fun op hop ev h => (h.whole (ho op hop).1 (hacc op hop)).1
  have hfold := congrArg (foldlM (fun m x => replayRecord E K m (record x.1 x.2.1 x.2.2)) (m, 0))
    (forall₂_content hans (fun op hop => (ho op hop).1) hacc)
  rw [foldlM_map, foldlM_map] at hfold
  refine ⟨sys, es, es.flatMap Event.records, hrun, (hdel _).mpr (Eq.symm ?_), hfold⟩
  rw [deliveredBy_whole_iff hwhole, forall₂_batches hans hacc]
  exact fun b hb => (ho _ hb).2

/-- **Clients side by side on a collection in memory that take the lock in the order of the log**: when all have
    returned, the bytes of the log give every id the result that Get has in the live collection. -/
theorem clients_durable {ι D Q C : Type} [DecidableEq ι] [Graph.Distance D] {T : Tools F D Q C S}
    {pool : Graph.Index F P Q C S → ℕ → VisitedList} {K : Codec F P} {cfg : CollectionConfig}
    (db : Db F P (GraphState Q C) S) (hdb : Reachable (T.env pool) cfg db.coll) {w w' : Log}
    (hw : db.wal = some w) (ops : ι → Op F P)
    (hops : ∀ c, ∀ p ∈ (ops c).call.points, K.Faithful p) (as : List (Action ι))
    {s : Clients ι F P (GraphState Q C) S}
    (hrun : Lib.Runs.run (step (T.env pool) K ops) (start db) as = some s)
    (hdone : ∀ c, ∃ err, s.status c = .returned err) (horder : (lockOrder as).Sublist (logOrder as))
    (hw' : s.db.wal = some w') {walOps : List Wal.Op}
    (hwal : Written walOps (w'.records.drop w.records.length)) (B : Clock N) (walCfg : Config) :
    Restores (T.env pool) K B walCfg walOps db.coll s.db.coll := by
  obtain ⟨hinv, -, -⟩ := hdb.inv
  obtain ⟨l, htrace⟩ := run_trace hops hinv hw hrun
  obtain ⟨sys, es, rs, hfiles, hdel, hsame⟩ := hwal.replays B walCfg (T.env pool) K (.single db.coll)
  obtain ⟨m, count, c, hreplay, hc, hthrough⟩ := htrace.replay hinv hw'
  refine ⟨sys, es, rs, m, count, c, hfiles, hdel, hsame.trans hreplay, hc, fun id => ?_⟩
  rw [hthrough.inv.get_eq_iff htrace.through.inv, hthrough.table, htrace.through.table,
    sublist_eq_of_perm htrace.logOnce horder htrace.sublist (htrace.perm hdone)]

theorem clients_durable_small : ∃ s, Lib.Runs.run (step smallEnv pairCodec twoInserts) (start smallDb)
      [.log 0, .log 1, .lock 0, .lock 1] = some s ∧
    Restores smallEnv pairCodec tickClock ⟨64, false⟩ [.writeBatch [record RecordType.insert [99] [0],
      record RecordType.insert [99] [1]]] smallCollection s.db.coll := by
  refine ⟨_, rfl, clients_durable smallDb smallDb_reachable rfl twoInserts ?_
    [.log 0, .log 1, .lock 0, .lock 1] rfl (fun c => by fin_cases c <;> exact ⟨_, rfl⟩) (by decide) rfl
    ⟨rfl, by simp [Op.Orderly, Op.records], by decide +kernel, by simp [Op.draws]⟩ _ _⟩
  intro c p hp
  fin_cases c <;> rw [mem_singleton.mp hp] <;> intro data hdata <;> cases hdata <;> rfl

end LimyeDB.Collection
