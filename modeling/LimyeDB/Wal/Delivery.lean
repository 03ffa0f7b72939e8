/-
  WHEN REPLAY DELIVERS WHAT WAS WRITTEN.
-/
import LimyeDB.Wal.Replay

namespace LimyeDB.Wal

open Go List

variable {N : Type} [LinearOrder N]

/-! ## Delivered and written records -/

/-- The records of a call that returned without an error. -/
def Event.records : Event → List Record
  | .wrote r => [r]
  | .batch _ rs _ => rs
  | _ => []

theorem Event.records_sublist (ev : Event) : ev.records.Sublist ev.log := by
  cases ev with
  | wrote r => exact Sublist.refl _
  | batch b rs e => exact ((sublist_append_left rs [e]).cons b)
  | rejected => exact nil_sublist _
  | cut l => exact nil_sublist _
  | quiet => exact nil_sublist _

theorem Event.delivers_sublist (ev : Event) (inBatch : Bool) :
    (ev.delivers inBatch).Sublist ev.records := by
  cases ev with
  | wrote r =>
    cases inBatch with
    | true => exact nil_sublist _
    | false => exact Sublist.refl _
  | batch b rs e =>
    show (if rs.length < 2 ^ 32 then rs else []).Sublist rs
    split
    · exact Sublist.refl _
    · exact nil_sublist _
  | rejected => exact nil_sublist _
  | cut l => exact nil_sublist _
  | quiet => exact nil_sublist _

theorem records_sublist_log (es : List Event) :
    (es.flatMap Event.records).Sublist (es.flatMap Event.log) := by
  induction es with
  | nil => exact Sublist.refl _
  | cons ev es ih => exact ev.records_sublist.append ih

theorem deliveredBy_sublist (inBatch : Bool) (es : List Event) :
    (deliveredBy inBatch es).Sublist (es.flatMap Event.records) := by
  induction es generalizing inBatch with
  | nil => exact Sublist.refl _
  | cons ev es ih => exact (ev.delivers_sublist inBatch).append (ih _)

/-! ## Orderly histories -/

/-- A call that no crash interrupts. -/
def Op.Orderly : Op → Prop
  | .crashBatch _ _ _ => False
  | _ => True

/-- An event of a call that succeeded. -/
def Event.Whole : Event → Prop
  | .cut _ => False
  | .rejected => False
  | _ => True

theorem deliveredBy_whole_iff : ∀ {es : List Event}, (∀ ev ∈ es, ev.Whole) →
    (deliveredBy false es = es.flatMap Event.records ↔
      ∀ b rs e, Event.batch b rs e ∈ es → rs.length < 2 ^ 32)
  | [], _ => by simp [deliveredBy]
  | ev :: es, h => by
      have ih := deliveredBy_whole_iff fun a ha => h a (mem_cons_of_mem _ ha)
      have hev := h ev mem_cons_self
      rw [deliveredBy, flatMap_cons]
      cases ev with
      | wrote r =>
        simp only [Event.delivers, Event.opens, Event.records, mem_cons, reduceCtorEq,
          false_or, Bool.false_eq_true, if_false, append_right_inj] at ih ⊢
        exact ih
      | quiet =>
        simp only [Event.delivers, Event.opens, Event.records, mem_cons, reduceCtorEq,
          false_or, nil_append] at ih ⊢
        exact ih
      | batch b rs e =>
        have hle := (deliveredBy_sublist false es).length_le
        constructor
        · intro heq
          by_cases hlt : rs.length < 2 ^ 32
          · simp only [Event.delivers, Event.opens, Event.records, if_pos hlt,
              append_right_inj] at heq
            intro b' rs' e' hmem
            rcases mem_cons.mp hmem with hmem | hmem
            · cases hmem
              exact hlt
            · exact ih.mp heq b' rs' e' hmem
          · -- a batch that is dropped cannot be made up for by the rest
            have hlen := congrArg length heq
            simp only [Event.delivers, Event.opens, Event.records, if_neg hlt, nil_append,
              length_append] at hlen
            omega
        · intro hall
          simp only [Event.delivers, Event.opens, Event.records,
            if_pos (hall b rs e mem_cons_self), append_right_inj]
          exact ih.mpr fun b' rs' e' hmem => hall b' rs' e' (mem_cons_of_mem _ hmem)
      | cut l => exact absurd hev not_false
      | rejected => exact absurd hev not_false

theorem Answers.write_accepted {r : Record} {ev : Event} (h : Answers (.write r) ev)
    (hacc : Accepted r) : ∃ r', ev = .wrote r' := by
  cases h with
  | wrote _ _ => exact ⟨_, rfl⟩
  | rejected hno => exact absurd hacc hno

theorem Answers.batch_accepted {rs : List Record} {ev : Event} (h : Answers (.writeBatch rs) ev)
    (hacc : ∀ r ∈ rs, Accepted r) : ∃ b rs' e, ev = .batch b rs' e ∧ rs'.length = rs.length := by
  cases h with
  | batch _ _ hrs _ => exact ⟨_, _, _, rfl, by simpa using congrArg length hrs⟩
  | stopped hno _ => exact absurd hacc hno

theorem Answers.crash_accepted {rs : List Record} {kept : Nat} {cfg : Config} {ev : Event}
    (h : Answers (.crashBatch rs kept cfg) ev) (hacc : ∀ r ∈ rs, Accepted r) :
    ∃ l, ev = .cut l ∧ l.length = min kept (rs.length + 1) := by
  cases h with
  | crashed _ hall => exact ⟨_, rfl, by simpa using congrArg length (hall hacc)⟩

section Orderly

variable {ops : List Op} {es : List Event}

theorem Answers.whole {op : Op} {ev : Event} (h : Answers op ev) (ho : op.Orderly)
    (hacc : ∀ r ∈ op.records, Accepted r) :
    ev.Whole ∧ ev.records.map content = op.records.map content := by
  cases h with
  | wrote _ hc => exact ⟨trivial, congrArg (fun c => [c]) hc⟩
  | rejected hno => exact absurd (hacc _ (mem_singleton_self _)) hno
  | batch _ _ hrs _ => exact ⟨trivial, hrs⟩
  | stopped hno _ => exact absurd hacc hno
  | crashed _ _ => exact absurd ho not_false
  | sync => exact ⟨trivial, rfl⟩
  | reopen => exact ⟨trivial, rfl⟩

variable (h : List.Forall₂ Answers ops es)
include h

theorem forall₂_content (ho : ∀ op ∈ ops, op.Orderly)
    (hacc : ∀ op ∈ ops, ∀ r ∈ op.records, Accepted r) :
    (es.flatMap Event.records).map content = (ops.flatMap Op.records).map content := by
  induction h with
  | nil => rfl
  | cons hans _ ih =>
    have hc := (hans.whole (ho _ mem_cons_self) (hacc _ mem_cons_self)).2
    rw [flatMap_cons, flatMap_cons, map_append, map_append, hc,
      ih (fun op hop => ho op (mem_cons_of_mem _ hop))
        (fun op hop => hacc op (mem_cons_of_mem _ hop))]

theorem forall₂_batches (ho : ∀ op ∈ ops, ∀ r ∈ op.records, Accepted r) :
    (∀ b rs e, Event.batch b rs e ∈ es → rs.length < 2 ^ 32) ↔
      ∀ rs, Op.writeBatch rs ∈ ops → rs.length < 2 ^ 32 := by
  induction h with
  | nil => simp
  | @cons op ev ops es hans _ ih =>
    have ih := ih fun o hop => ho o (mem_cons_of_mem _ hop)
    have hop := ho op mem_cons_self
    cases hans with
    | @batch rs rs' b e _ _ hrs _ =>
      have hlen : rs'.length = rs.length := by simpa using congrArg length hrs
      constructor
      · intro hall rs₁ hmem
        rcases mem_cons.mp hmem with hmem | hmem
        · cases hmem
          rw [← hlen]
          exact hall _ _ _ mem_cons_self
        · exact ih.mp (fun b rs e h => hall b rs e (mem_cons_of_mem _ h)) rs₁ hmem
      · intro hall b₁ rs₁ e₁ hmem
        rcases mem_cons.mp hmem with hmem | hmem
        · cases hmem
          rw [hlen]
          exact hall _ mem_cons_self
        · exact ih.mpr (fun rs h => hall rs (mem_cons_of_mem _ h)) b₁ rs₁ e₁ hmem
    | stopped hno _ => exact absurd hop hno
    | wrote _ _ => simpa using ih
    | rejected _ => simpa using ih
    | crashed _ _ => simpa using ih
    | sync => simpa using ih
    | reopen => simpa using ih

end Orderly

/-- A history of records below the limit runs through, Replay delivers what its events say, and the numbers
    increase. -/
theorem accepted_history (C : Clock N) (cfg : Config) {ops : List Op}
    (hrec : ∀ op ∈ ops, ∀ r ∈ op.records, Accepted r ∧ (frame r).length < 2 ^ 32 ∧ Plain r)
    (hroom : (ops.map Op.draws).sum < 2 ^ 64) :
    ∃ s es, history C cfg ops = .value (s, es) ∧ List.Forall₂ Answers ops es ∧
      (∀ r ∈ es.flatMap Event.log, Fits r) ∧
      (∀ rs, delivered s = .value rs ↔ rs = deliveredBy false es) ∧
      (es.flatMap Event.records).Pairwise (fun a b => a.seqNum < b.seqNum) := by
  have hsize : ∀ op ∈ ops, ∀ r ∈ op.records, totalLen r + 4 < 2 ^ 32 := by
    intro op hop r hr
    have hlen := (hrec op hop r hr).2.1
    rw [frame_length] at hlen
    omega
  obtain ⟨s, es, h⟩ := history_value C cfg hroom hsize
  obtain ⟨hinv, hans⟩ := history_inv hroom h
  have hfits : ∀ r ∈ es.flatMap Event.log, Fits r := by
    intro r hr
    obtain ⟨ev, hev, hr'⟩ := mem_flatMap.mp hr
    have hlog := forall_events hans fun op hop ev h => h.sizes (hsize op hop)
    exact (hinv.logged r hr).fits (hlog ev hev r hr')
  refine ⟨s, es, h, hans, hfits, fun rs => ?_, ?_⟩
  · rw [delivered_history hroom (fun op hop r hr => (hrec op hop r hr).2.2) h]
    exact and_iff_right hfits
  · exact hinv.increasing.sublist (records_sublist_log es)

/-- **Replay after an orderly history delivers exactly what was written, in order and under
    increasing numbers, if and only if no batch has `2 ^ 32` records or more.** -/
theorem replay_exact_iff (C : Clock N) (cfg : Config) (ops : List Op) (ho : ∀ op ∈ ops, op.Orderly)
    (hrec : ∀ op ∈ ops, ∀ r ∈ op.records, Accepted r ∧ (frame r).length < 2 ^ 32 ∧ Plain r)
    (hroom : (ops.map Op.draws).sum < 2 ^ 64) :
    ∃ s es, history C cfg ops = .value (s, es) ∧
      (es.flatMap Event.records).map content = (ops.flatMap Op.records).map content ∧
      ((delivered s = .value (es.flatMap Event.records) ∧
          (es.flatMap Event.records).Pairwise (fun a b => a.seqNum < b.seqNum)) ↔
        ∀ rs, Op.writeBatch rs ∈ ops → rs.length < 2 ^ 32) := by
  have hacc : ∀ op ∈ ops, ∀ r ∈ op.records, Accepted r := fun op hop r hr => (hrec op hop r hr).1
  obtain ⟨s, es, h, hans, -, hdel, hinc⟩ := accepted_history C cfg hrec hroom
  have hwhole : ∀ ev ∈ es, ev.Whole :=
    forall_events hans fun op hop ev h => (h.whole (ho op hop) (hacc op hop)).1
  refine ⟨s, es, h, forall₂_content hans ho hacc, ?_⟩
  rw [and_iff_left hinc, hdel, eq_comm, deliveredBy_whole_iff hwhole, forall₂_batches hans hacc]

/-- A clock that stands still for the records and counts up for the files. -/
def tickClock : Clock ℕ := ⟨fun _ => 0, id, fun _ => by decide, strictMono_id⟩

def smallRecord : Record := ⟨0, RecordType.insert, [99], [7, 8], 0⟩

theorem smallRecord_ok :
    Accepted smallRecord ∧ (frame smallRecord).length < 2 ^ 32 ∧ Plain smallRecord := by
  refine ⟨by decide, ?_, by decide⟩
  decide

theorem smallRecord_ops (ops : List Op) (h : ∀ op ∈ ops, ∀ r ∈ op.records, r = smallRecord) :
    ∀ op ∈ ops, ∀ r ∈ op.records, Accepted r ∧ (frame r).length < 2 ^ 32 ∧ Plain r := by
  intro op hop r hr
  rw [h op hop r hr]
  exact smallRecord_ok

theorem replay_exact_small : ∃ s es,
    history tickClock ⟨64, false⟩ [.write smallRecord, .writeBatch [smallRecord, smallRecord],
      .reopen ⟨1024, true⟩, .write smallRecord] = .value (s, es) ∧
    delivered s = .value (es.flatMap Event.records) ∧ (es.flatMap Event.records).length = 4 := by
  obtain ⟨s, es, h, hc, hiff⟩ := replay_exact_iff tickClock ⟨64, false⟩
    [.write smallRecord, .writeBatch [smallRecord, smallRecord], .reopen ⟨1024, true⟩,
      .write smallRecord] (by simp [Op.Orderly])
    (smallRecord_ops _ (by simp [Op.records])) (by simp [Op.draws])
  refine ⟨s, es, h, (hiff.mpr (by simp)).1, ?_⟩
  have hlen := congrArg length hc
  rw [length_map, length_map] at hlen
  exact hlen

theorem batch_lost {n : Nat} (hn : 2 ^ 32 ≤ n) (hroom : n + 2 < 2 ^ 64) : ∃ s b rs e,
    history tickClock ⟨1024, true⟩ [.writeBatch (replicate n smallRecord)] =
        .value (s, [.batch b rs e]) ∧ rs.length = n ∧ delivered s = .value [] := by
  have hsmall : ∀ r ∈ replicate n smallRecord, r = smallRecord :=
    fun r hr => eq_of_mem_replicate hr
  have hroom' : ([Op.writeBatch (replicate n smallRecord)].map Op.draws).sum < 2 ^ 64 := by
    simpa [Op.draws] using hroom
  obtain ⟨s, es, h, hans, hfits, hdel, -⟩ := accepted_history tickClock ⟨1024, true⟩
    (smallRecord_ops _ (by simp [Op.records])) hroom'
  cases hans with
  | cons hans hnil =>
  cases hnil
  obtain ⟨b, rs, e, rfl, hlen⟩ := hans.batch_accepted fun r hr => by
    rw [hsmall r hr]
    exact smallRecord_ok.1
  rw [length_replicate] at hlen
  refine ⟨s, b, rs, e, h, hlen, (hdel []).mpr ?_⟩
  show [] = (if rs.length < 2 ^ 32 then rs else []) ++ []
  rw [if_neg (by omega)]
  rfl

/-- **Four billion records written in one batch, none of them delivered.** -/
theorem batch_of_4294967296_lost : ∃ s b rs e,
    history tickClock ⟨1024, true⟩ [.writeBatch (replicate 4294967296 smallRecord)] =
        .value (s, [.batch b rs e]) ∧ rs.length = 4294967296 ∧ delivered s = .value [] :=
  batch_lost (by decide) (by decide)

/-! ## Histories with a batch cut short -/

theorem deliveredBy_append (inBatch : Bool) (es fs : List Event) : deliveredBy inBatch (es ++ fs) =
      deliveredBy inBatch es ++ deliveredBy (openAfter inBatch es) fs := by
  induction es generalizing inBatch with
  | nil => rfl
  | cons ev es ih =>
    rw [cons_append, deliveredBy, deliveredBy, ih, append_assoc]
    rfl

theorem openAfter_append (inBatch : Bool) (es fs : List Event) :
    openAfter inBatch (es ++ fs) = openAfter (openAfter inBatch es) fs := by
  induction es generalizing inBatch with
  | nil => rfl
  | cons ev es ih => exact ih _

theorem batch_of_closed : ∀ {es : List Event}, openAfter true es = false →
    ∃ b rs e, Event.batch b rs e ∈ es
  | [], h => by cases h
  | .batch b rs e :: es, _ => ⟨b, rs, e, mem_cons_self⟩
  | .wrote r :: es, h | .rejected :: es, h | .quiet :: es, h | .cut [] :: es, h
  | .cut (_ :: _) :: es, h => by
      obtain ⟨b, rs, e, hmem⟩ := batch_of_closed (show openAfter true es = false from h)
      exact ⟨b, rs, e, mem_cons_of_mem _ hmem⟩

theorem cut_of_open : ∀ {es : List Event} {inBatch : Bool}, openAfter inBatch es = true →
    (inBatch = true ∧ ∀ b rs e, Event.batch b rs e ∉ es) ∨
      ∃ pre l mid, es = pre ++ .cut l :: mid ∧ l ≠ [] ∧ ∀ b rs e, Event.batch b rs e ∉ mid
  | [], inBatch, h => .inl ⟨h, by simp⟩
  | ev :: es, inBatch, h => by
      rcases cut_of_open (show openAfter (ev.opens inBatch) es = true from h) with ⟨hopen, hno⟩ | ⟨pre, l, mid, rfl, hl, hno⟩
      · match ev, hopen with
        | .cut (b :: rs), _ => exact .inr ⟨[], b :: rs, es, rfl, by simp, hno⟩
        | .wrote r, hopen | .rejected, hopen | .quiet, hopen | .cut [], hopen =>
          exact .inl ⟨hopen, by simpa using hno⟩
      · exact .inr ⟨ev :: pre, l, mid, rfl, hl, hno⟩

section Cut

variable {pre post : List Event} {ev : Event}

variable (h : ((pre ++ ev :: post).flatMap Event.log).Pairwise (fun a b => a.seqNum < b.seqNum))
include h

theorem log_once {x : Record} (hx : x ∈ ev.log) :
    x ∉ pre.flatMap Event.log ∧ x ∉ post.flatMap Event.log := by
  rw [flatMap_append, flatMap_cons, pairwise_append, pairwise_append] at h
  obtain ⟨-, ⟨-, -, hpost⟩, hpre⟩ := h
  constructor
  · intro hmem
    exact UInt64.lt_irrefl _ (hpre x hmem x (mem_append_left _ hx))
  · intro hmem
    exact UInt64.lt_irrefl _ (hpost x hx x hmem)

omit h in
theorem deliveredBy_subset (inBatch : Bool) (es : List Event) {x : Record}
    (hx : x ∈ deliveredBy inBatch es) : x ∈ es.flatMap Event.log :=
  ((deliveredBy_sublist inBatch es).trans (records_sublist_log es)).subset hx

theorem mem_deliveredBy_iff {x : Record} (hx : x ∈ ev.log) :
    x ∈ deliveredBy false (pre ++ ev :: post) ↔ x ∈ ev.delivers (openAfter false pre) := by
  obtain ⟨hpre, hpost⟩ := log_once h hx
  rw [deliveredBy_append, deliveredBy, mem_append, mem_append]
  constructor
  · rintro (hmem | hmem | hmem)
    · exact absurd (deliveredBy_subset _ _ hmem) hpre
    · exact hmem
    · exact absurd (deliveredBy_subset _ _ hmem) hpost
  · exact fun hmem => .inr (.inl hmem)

end Cut

/-- **A history with a batch cut short.** Every later Write that succeeded is delivered, and no record of the
    cut batch, if and only if whenever a Write follows a cut batch, every record is below the reader's limit
    and, if the batch left anything, a complete one lies between the two. -/
theorem later_write_delivered_iff (C : Clock N) (cfg : Config) (ops : List Op) (s : Sys N)
    (es : List Event) (hp : ∀ op ∈ ops, ∀ r ∈ op.records, Plain r)
    (hroom : (ops.map Op.draws).sum < 2 ^ 64) (h : history C cfg ops = .value (s, es)) :
    (∀ pre l rest, es = pre ++ .cut l :: rest →
        (∀ r, Event.wrote r ∈ rest → ∃ rs, delivered s = .value rs ∧ r ∈ rs) ∧
          ∀ rs, delivered s = .value rs → ∀ x ∈ l, x ∉ rs) ↔
      ∀ pre l mid r post, es = pre ++ .cut l :: (mid ++ .wrote r :: post) →
        (∀ x ∈ es.flatMap Event.log, totalLen x + 4 < 2 ^ 32) ∧
          (l ≠ [] → ∃ b rs e, Event.batch b rs e ∈ mid) := by
  obtain ⟨hinv, -⟩ := history_inv hroom h
  have hdel := delivered_history hroom hp h
  have hinc := hinv.increasing
  -- a record that was written is delivered if no batch is open at its place
  have hwrote : ∀ (pre : List Event) {r : Record} {post : List Event},
      es = pre ++ .wrote r :: post →
      (r ∈ deliveredBy false es ↔ openAfter false pre = false) := by
    rintro pre r post rfl
    rw [mem_deliveredBy_iff hinc (mem_singleton_self _)]
    cases openAfter false pre with
    | true => simp [Event.delivers]
    | false => simp [Event.delivers]
  constructor
  · rintro hall pre l mid r post hes
    obtain ⟨rs, hrs, hmem⟩ := (hall pre l _ hes).1 r (by simp)
    obtain ⟨hfits, rfl⟩ := (hdel rs).mp hrs
    refine ⟨fun x hx => (hfits x hx).size, fun hl => ?_⟩
    have hclosed := (hwrote (pre ++ .cut l :: mid) (by simpa using hes)).mp hmem
    rw [openAfter_append] at hclosed
    cases l with
    | nil => exact absurd rfl hl
    | cons b rs => exact batch_of_closed hclosed
  · intro hall pre l rest hes
    refine ⟨fun r hr => ?_, fun rs hrs x hx hmem => ?_⟩
    · obtain ⟨mid, post, rfl⟩ := append_of_mem hr
      have hsize := (hall pre l mid r post hes).1
      refine ⟨deliveredBy false es,
        (hdel _).mpr ⟨fun x hx => (hinv.logged x hx).fits (hsize x hx), rfl⟩, ?_⟩
      rw [hwrote (pre ++ .cut l :: mid) (by simpa using hes)]
      by_contra hopen
      rw [Bool.not_eq_false] at hopen
      rcases cut_of_open hopen with ⟨hfalse, -⟩ | ⟨pre', l', mid', he, hl', hno⟩
      · cases hfalse
      · have hes' : es = pre' ++ .cut l' :: (mid' ++ .wrote r :: post) := by
          have : es = (pre ++ .cut l :: mid) ++ .wrote r :: post := by simpa using hes
          rw [this, he]
          simp
        obtain ⟨b, rs, e, hb⟩ := (hall pre' l' mid' r post hes').2 hl'
        exact hno b rs e hb
    · obtain ⟨-, rfl⟩ := (hdel rs).mp hrs
      subst hes
      exact absurd ((mem_deliveredBy_iff hinc hx).mp hmem) not_mem_nil

theorem smallRecord_accepted : ∀ r ∈ [smallRecord], Accepted r := by
  intro r hr
  rw [mem_singleton.mp hr]
  exact smallRecord_ok.1

/-- A batch cut short behind its first marker, a complete one, and a Write. -/
theorem cut_then_batch_delivered : ∃ s l b rs e r,
    history tickClock ⟨1024, true⟩ [.crashBatch [smallRecord] 1 ⟨1024, true⟩,
      .writeBatch [smallRecord], .write smallRecord] =
        .value (s, [.cut l, .batch b rs e, .wrote r]) ∧
      ∃ out, delivered s = .value out ∧ r ∈ out := by
  have hrec := smallRecord_ops [.crashBatch [smallRecord] 1 ⟨1024, true⟩,
    .writeBatch [smallRecord], .write smallRecord] (by simp [Op.records])
  obtain ⟨s, es, h, hans, hfits, hdel, -⟩ := accepted_history tickClock ⟨1024, true⟩ hrec
    (by simp [Op.draws])
  cases hans with
  | cons hcut hans =>
  cases hans with
  | cons hbatch hans =>
  cases hans with
  | cons hwrite hans =>
  cases hans
  obtain ⟨l, rfl, -⟩ := hcut.crash_accepted smallRecord_accepted
  obtain ⟨b, rs, e, rfl, -⟩ := hbatch.batch_accepted smallRecord_accepted
  obtain ⟨r, rfl⟩ := hwrite.write_accepted smallRecord_ok.1
  refine ⟨s, l, b, rs, e, r, h, ?_⟩
  have hiff := later_write_delivered_iff tickClock ⟨1024, true⟩ _ s _
    (fun op hop r hr => (hrec op hop r hr).2.2) (by simp [Op.draws]) h
  refine ((hiff.mpr ?_) [] l [.batch b rs e, .wrote r] rfl).1 r (by simp)
  intro pre l' mid r' post he
  refine ⟨fun x hx => ?_, fun _ => ?_⟩
  · exact (hfits x hx).size
  · -- the only cut batch is the first event, and the complete one follows it
    rcases pre with _ | ⟨p, _ | ⟨q, _ | ⟨t, pre⟩⟩⟩
    · rcases mid with _ | ⟨m, mid⟩
      · simp at he
      · simp only [nil_append, cons_append, cons.injEq] at he
        exact ⟨b, rs, e, by rw [he.2.1]; exact mem_cons_self⟩
    · simp at he
    · simp at he
    · simp at he

/-- **A Write that returned without an error is lost**: the process died right after the first marker of a
    batch, and the log was opened again. -/
theorem cut_then_write_lost : ∃ s b r,
    history tickClock ⟨1024, true⟩ [.crashBatch [smallRecord] 1 ⟨1024, true⟩,
      .write smallRecord] = .value (s, [.cut [b], .wrote r]) ∧ delivered s = .value [] := by
  have hrec := smallRecord_ops [.crashBatch [smallRecord] 1 ⟨1024, true⟩,
    .write smallRecord] (by simp [Op.records])
  obtain ⟨s, es, h, hans, hfits, hdel, -⟩ := accepted_history tickClock ⟨1024, true⟩ hrec
    (by simp [Op.draws])
  cases hans with
  | cons hcut hans =>
  cases hans with
  | cons hwrite hans =>
  cases hans
  obtain ⟨l, rfl, hlen⟩ := hcut.crash_accepted smallRecord_accepted
  obtain ⟨b, rfl⟩ := length_eq_one_iff.mp hlen
  obtain ⟨r, rfl⟩ := hwrite.write_accepted smallRecord_ok.1
  exact ⟨s, b, r, h, (hdel []).mpr rfl⟩

end LimyeDB.Wal
