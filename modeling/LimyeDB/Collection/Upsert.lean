/-
  WHAT AN UPSERT DOES TO WHAT GET SAYS. It deletes the old point and inserts the new one, over an index that
  never gives an id a second node.
-/
import LimyeDB.Collection.Clients

namespace LimyeDB.Collection

open Go Hnsw Lib.WriteOnce

variable {F P G S : Type} [Scalar F]

section Upsert

variable {E : Env F P G S} [Steady E] {K : Codec F P} {c : Collection F P G S} {p : Point F P}

omit [Scalar F] in
theorem idToIndex_delete {h h' : HNSW F P G S} {id : Bytes} (hdel : Hnsw.delete h id = .value h') :
    h'.idToIndex = h.idToIndex := by
  unfold Hnsw.delete at hdel
  split at hdel
  · cases hdel
  · split at hdel
    · split at hdel <;> cases Outcome.value.inj hdel <;> rfl
    · cases hdel

omit [Scalar F] in
theorem logPoint_coll (db : Db F P G S) (type : Wal.RecordType) (p : Point F P) :
    (logPoint K db type p).1.coll = db.coll := by
  unfold logPoint
  split
  · rfl
  · split
    · rfl
    · unfold logRecord
      split <;> rfl

omit [Steady E] in
theorem upsert_cases (db : Db F P G S) (hp : p.validate = .ok ()) :
    (∃ (db' : Db F P G S) (e : Error F), db'.coll = db.coll ∧
        upsert E K db p = .value (db', some e)) ∨
      (p.vector.length = db.coll.config.dimension ∧ ∃ db' : Db F P G S, db'.coll = db.coll ∧
        upsert E K db p = Exec.lift (fun coll => { db' with coll := coll }) (upsertInternal E db.coll p)) := by
  unfold upsert
  simp only [hp]
  by_cases hdim : p.vector.length = db.coll.config.dimension
  · simp only [hdim, ne_eq, not_true_eq_false, if_false]
    have hcoll := logPoint_coll (K := K) db Wal.RecordType.update p
    rcases hlog : logPoint K db Wal.RecordType.update p with ⟨db', _ | e⟩
    · rw [hlog] at hcoll
      exact .inr ⟨trivial, db', hcoll, by rw [← hcoll]⟩
    · rw [hlog] at hcoll
      exact .inl ⟨db', e, hcoll, rfl⟩
  · simp only [hdim, ne_eq, not_false_eq_true, if_true]
    exact .inl ⟨db, _, rfl, rfl⟩

end Upsert

end LimyeDB.Collection
