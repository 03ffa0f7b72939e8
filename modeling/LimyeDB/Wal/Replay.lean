/-
  WHAT REPLAY DELIVERS after any history of the log.
-/
import LimyeDB.Wal.Run

namespace LimyeDB.Wal

open Go List

variable {N : Type} [LinearOrder N]

/-! ## The batch machine -/

/-- The records the loop of Replay hands on. -/
def deliver : BatchState → List Record → List Record
  | _, [] => []
  | st, r :: rs =>
    if r.type = RecordType.batchBegin then
      deliver ⟨[], true, decodeBatchSize r.data⟩ rs
    else if r.type = RecordType.batchEnd then
      (if st.inBatch ∧ st.batchBuf.length = st.expectedBatchSize then st.batchBuf else []) ++
        deliver ⟨[], false, st.expectedBatchSize⟩ rs
    else if st.inBatch then
      deliver { st with batchBuf := st.batchBuf ++ [r] } rs
    else
      r :: deliver st rs

section Apply

variable {σ ε : Type} (fn : σ → Record → σ × Option ε)

theorem callAll_append (acc : σ) (as bs : List Record) : callAll fn acc (as ++ bs) =
      match callAll fn acc as with
      | (acc, some e) => (acc, some e)
      | (acc, none) => callAll fn acc bs := by
  induction as generalizing acc with
  | nil => rfl
  | cons a as ih =>
    rw [cons_append, callAll, callAll]
    rcases fn acc a with ⟨acc', _ | e⟩
    · exact ih acc'
    · rfl

theorem applyRecords_eq (st : BatchState) (acc : σ) (rs : List Record) :
    applyRecords fn st acc rs = callAll fn acc (deliver st rs) := by
  induction rs generalizing st acc with
  | nil => rfl
  | cons r rs ih =>
    unfold applyRecords deliver
    by_cases hb : r.type = RecordType.batchBegin
    · rw [if_pos hb, if_pos hb]
      exact ih _ _
    rw [if_neg hb, if_neg hb]
    by_cases he : r.type = RecordType.batchEnd
    · rw [if_pos he, if_pos he]
      by_cases hc : st.inBatch ∧ st.batchBuf.length = st.expectedBatchSize
      · rw [if_pos hc, if_pos hc, callAll_append]
        rcases callAll fn acc st.batchBuf with ⟨acc', _ | e⟩
        · exact ih _ _
        · rfl
      · rw [if_neg hc, if_neg hc]
        exact ih _ _
    rw [if_neg he, if_neg he]
    by_cases hin : st.inBatch
    · rw [if_pos hin, if_pos hin]
      exact ih _ _
    · rw [if_neg hin, if_neg hin, callAll]
      rcases fn acc r with ⟨acc', _ | e⟩
      · exact ih _ _
      · rfl

end Apply

/-- The records a call of Replay hands to a function that never fails. -/
def delivered (s : Sys N) : Outcome (WalError N) (List Record) := do
  let out ← replay (fun rs r => (rs ++ [r], (none : Option Empty))) [] s
  return out.1

theorem callAll_snoc (acc rs : List Record) :
    callAll (fun rs r => (rs ++ [r], (none : Option Empty))) acc rs = (acc ++ rs, none) := by
  induction rs generalizing acc with
  | nil => simp [callAll]
  | cons r rs ih => simp [callAll, ih]

theorem delivered_eq (s : Sys N) :
    delivered s = collect s >>= fun all => .value (deliver BatchState.start all) := by
  unfold delivered replay
  cases collect s with
  | value all => simp [applyRecords_eq, callAll_snoc]
  | error e => rfl
  | panic => rfl

/-! ## Delivery by events -/

/-- Neither of the two batch markers. -/
def Plain (r : Record) : Prop :=
  r.type ≠ RecordType.batchBegin ∧ r.type ≠ RecordType.batchEnd

instance (r : Record) : Decidable (Plain r) := by unfold Plain; infer_instance

theorem deliver_plain {st : BatchState} {r : Record} (h : Plain r) (rest : List Record) :
    deliver st (r :: rest) =
      if st.inBatch then deliver { st with batchBuf := st.batchBuf ++ [r] } rest
      else r :: deliver st rest := by
  rw [deliver, if_neg h.1, if_neg h.2]

theorem deliver_inBatch {buf : List Record} {n : Nat} {rs rest : List Record}
    (h : ∀ r ∈ rs, Plain r) :
    deliver ⟨buf, true, n⟩ (rs ++ rest) = deliver ⟨buf ++ rs, true, n⟩ rest := by
  induction rs generalizing buf with
  | nil => simp
  | cons r rs ih =>
    rw [cons_append, deliver_plain (h r mem_cons_self), if_pos rfl,
      ih (forall_mem_cons.mp h).2]
    simp

/-- What the log holds for an event, as Replay's loop sees it. -/
def Event.Formed : Event → Prop
  | .wrote r => Plain r
  | .batch b rs e => b.type = RecordType.batchBegin ∧
      decodeBatchSize b.data = rs.length % 2 ^ 32 ∧ (∀ r ∈ rs, Plain r) ∧
      e.type = RecordType.batchEnd
  | .cut [] => True
  | .cut (b :: rs) => b.type = RecordType.batchBegin ∧ ∀ r ∈ rs, Plain r
  | .rejected => True
  | .quiet => True

theorem decodeBatchSize_encodeBatchSize (n : Nat) :
    decodeBatchSize (encodeBatchSize n) = n % 2 ^ 32 := by
  unfold decodeBatchSize encodeBatchSize
  rw [if_neg (by simp), take_of_length_le (by simp), leNat_leBytes_mod]
  norm_num

theorem plain_of_content {r r' : Record} (hc : content r' = content r) (h : Plain r) :
    Plain r' := by
  have ht : r'.type = r.type := congrArg Prod.fst hc
  unfold Plain
  rw [ht]
  exact h

theorem plain_of_prefix {l rs : List Record} (hl : l.map content <+: rs.map content)
    (h : ∀ r ∈ rs, Plain r) : ∀ r ∈ l, Plain r := by
  intro r hr
  obtain ⟨a, ha, e⟩ := mem_map.mp (hl.subset (mem_map_of_mem hr))
  exact plain_of_content e.symm (h a ha)

theorem Answers.formed {op : Op} {ev : Event} (h : Answers op ev)
    (hp : ∀ r ∈ op.records, Plain r) : ev.Formed := by
  cases h with
  | wrote _ hc => exact plain_of_content hc (hp _ (mem_singleton_self _))
  | rejected _ => trivial
  | @batch rs rs' b e _ hb hrs he =>
    have hlen : rs'.length = rs.length := by simpa using congrArg length hrs
    refine ⟨congrArg Prod.fst hb, ?_, plain_of_prefix (hrs ▸ prefix_rfl) hp, congrArg Prod.fst he⟩
    have hdata : b.data = encodeBatchSize rs.length := congrArg (fun c => c.2.2) hb
    rw [hdata, decodeBatchSize_encodeBatchSize, hlen]
  | @stopped rs rs' b _ hl =>
    obtain ⟨hb, hrs⟩ := cons_prefix_cons.mp hl
    exact ⟨congrArg Prod.fst hb, plain_of_prefix hrs hp⟩
  | @crashed rs l kept cfg hl _ =>
    cases l with
    | nil => trivial
    | cons b rs' =>
      obtain ⟨hb, hrs⟩ := cons_prefix_cons.mp hl
      exact ⟨congrArg Prod.fst hb, plain_of_prefix hrs hp⟩
  | sync => trivial
  | reopen => trivial

/-- Whether a batch is open after the event. -/
def Event.opens : Event → Bool → Bool
  | .wrote _, inBatch => inBatch
  | .rejected, inBatch => inBatch
  | .batch _ _ _, _ => false
  | .cut [], inBatch => inBatch
  | .cut (_ :: _), _ => true
  | .quiet, inBatch => inBatch

/-- What Replay delivers of an event, if a batch is open before it or not. -/
def Event.delivers : Event → Bool → List Record
  | .wrote r, inBatch => if inBatch then [] else [r]
  | .batch _ rs _, _ => if rs.length < 2 ^ 32 then rs else []
  | _, _ => []

def openAfter : Bool → List Event → Bool
  | inBatch, [] => inBatch
  | inBatch, ev :: es => openAfter (ev.opens inBatch) es

/-- **What Replay delivers of a history**, read off its events. -/
def deliveredBy : Bool → List Event → List Record
  | _, [] => []
  | inBatch, ev :: es => ev.delivers inBatch ++ deliveredBy (ev.opens inBatch) es

theorem deliver_event {ev : Event} (h : ev.Formed) (st : BatchState) :
    ∃ st' : BatchState, st'.inBatch = ev.opens st.inBatch ∧ ∀ rest,
      deliver st (ev.log ++ rest) = ev.delivers st.inBatch ++ deliver st' rest := by
  match ev, h with
  | .wrote r, h =>
    obtain ⟨buf, inBatch, n⟩ := st
    cases inBatch with
    | false => exact ⟨⟨buf, false, n⟩, rfl, fun rest => deliver_plain h rest⟩
    | true => exact ⟨⟨buf ++ [r], true, n⟩, rfl, fun rest => deliver_plain h rest⟩
  | .rejected, _ => exact ⟨st, rfl, fun _ => rfl⟩
  | .quiet, _ => exact ⟨st, rfl, fun _ => rfl⟩
  | .cut [], _ => exact ⟨st, rfl, fun _ => rfl⟩
  | .cut (b :: rs), h =>
    refine ⟨⟨rs, true, decodeBatchSize b.data⟩, rfl, fun rest => ?_⟩
    show deliver st (b :: (rs ++ rest)) = _
    rw [deliver, if_pos h.1, deliver_inBatch h.2]
    rfl
  | .batch b rs e, ⟨hb, hsize, hrs, he⟩ =>
    refine ⟨⟨[], false, decodeBatchSize b.data⟩, rfl, fun rest => ?_⟩
    have hne : e.type ≠ RecordType.batchBegin := by rw [he]; decide
    have hlog : (Event.batch b rs e).log ++ rest = b :: (rs ++ e :: rest) := by simp [Event.log]
    -- the size in the marker is the size of the batch only below 2 ^ 32
    have hiff : rs.length = decodeBatchSize b.data ↔ rs.length < 2 ^ 32 := by
      omega
    rw [hlog, deliver, if_pos hb, deliver_inBatch hrs, nil_append, deliver, if_neg hne,
      if_pos he]
    simp only [true_and, hiff]
    rfl

theorem deliver_events : ∀ {es : List Event} (st : BatchState), (∀ ev ∈ es, ev.Formed) →
    deliver st (es.flatMap Event.log) = deliveredBy st.inBatch es
  | [], _, _ => rfl
  | ev :: es, st, h => by
      obtain ⟨st', hin, hdel⟩ := deliver_event (h ev mem_cons_self) st
      rw [flatMap_cons, hdel, deliver_events st' fun a ha => h a (mem_cons_of_mem _ ha),
        hin]
      rfl

/-! ## Delivery after a history -/

section History

variable {C : Clock N} {cfg : Config} {ops : List Op} {es : List Event} {s : Sys N}

/-- **Replay after a history delivers what its events say**, if every record in the log fits;
    and if one does not, Replay fails. -/
theorem delivered_history (hroom : (ops.map Op.draws).sum < 2 ^ 64)
    (hp : ∀ op ∈ ops, ∀ r ∈ op.records, Plain r) (h : history C cfg ops = .value (s, es))
    (rs : List Record) :
    delivered s = .value rs ↔
      (∀ r ∈ es.flatMap Event.log, Fits r) ∧ rs = deliveredBy false es := by
  obtain ⟨hinv, hans⟩ := history_inv hroom h
  have hformed := forall_events hans fun op hop ev h => h.formed (hp op hop)
  obtain ⟨closed, cur, hl, hlog⟩ := hinv.holds
  rw [delivered_eq]
  constructor
  · intro hd
    obtain ⟨all, hall, hd⟩ := Outcome.bind_eq_value.mp hd
    have hfits := hl.fits_of_collect (by rw [hlog]; exact hinv.logged) hall
    rw [hl.collect_eq hfits, hlog] at hall
    cases hall
    cases hd
    exact ⟨by rw [← hlog]; exact hfits, deliver_events BatchState.start hformed⟩
  · rintro ⟨hfits, rfl⟩
    rw [← hlog] at hfits
    rw [hl.collect_eq hfits, hlog, Outcome.value_bind, deliver_events BatchState.start hformed]
    rfl

end History

end LimyeDB.Wal
