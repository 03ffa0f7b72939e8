/-
  HISTORIES OF A LOG: any calls, with reopening and with crashes in the middle of a batch, and the log they
  leave.
-/
import LimyeDB.Wal.Log

namespace LimyeDB.Wal

open Go List Outcome

variable {N : Type} [LinearOrder N]

/-! ## Calls and their events -/

/-- `crashBatch rs kept cfg` is a WriteBatch of `rs` in which the process dies when `kept` frames are on the
    disk, and the Open after it. -/
inductive Op where
  | write (r : Record)
  | writeBatch (rs : List Record)
  | sync
  | reopen (cfg : Config)
  | crashBatch (rs : List Record) (kept : Nat) (cfg : Config)
  deriving DecidableEq, Repr

/-- What a call returned or left in the log: the records as they were numbered and stamped. -/
inductive Event where
  | wrote (r : Record)
  | rejected
  | batch (beginRec : Record) (rs : List Record) (endRec : Record)
  | cut (log : List Record)
  | quiet
  deriving DecidableEq, Repr

def Event.log : Event → List Record
  | .wrote r => [r]
  | .rejected => []
  | .batch b rs e => b :: rs ++ [e]
  | .cut l => l
  | .quiet => []

def Op.records : Op → List Record
  | .write r => [r]
  | .writeBatch rs => rs
  | .sync => []
  | .reopen _ => []
  | .crashBatch rs _ _ => rs

/-- The sequence numbers a call can use up. -/
def Op.draws : Op → Nat
  | .write _ => 1
  | .writeBatch rs => rs.length + 2
  | .sync => 0
  | .reopen _ => 0
  | .crashBatch rs _ _ => rs.length + 1

def writeEvent (C : Clock N) (s : Sys N) (r : Record) : Sys N × Event :=
  match write C s r with
  | (s, .ok r) => (s, .wrote r)
  | (s, .error _) => (s, .rejected)

def batchEvent (C : Clock N) (s : Sys N) (rs : List Record) : Sys N × Event :=
  match writeBatch C s rs with
  | (s, .written b rs e) => (s, .batch b rs e)
  | (s, .stopped l _) => (s, .cut l)

theorem writeEvent_fst (C : Clock N) (s : Sys N) (r : Record) :
    (writeEvent C s r).1 = (write C s r).1 := by
  unfold writeEvent
  split <;> simp_all

theorem batchEvent_fst (C : Clock N) (s : Sys N) (rs : List Record) :
    (batchEvent C s rs).1 = (writeBatch C s rs).1 := by
  unfold batchEvent
  split <;> simp_all

def step (C : Clock N) (s : Sys N) : Op → Outcome (WalError N) (Sys N × Event)
  | .write r => .value (writeEvent C s r)
  | .writeBatch rs => .value (batchEvent C s rs)
  | .sync => .value (flush s, .quiet)
  | .reopen cfg => do
    let s ← reopen C cfg s
    return (s, .quiet)
  | .crashBatch rs kept cfg => do
    let left := writeRecords C s ((marker RecordType.batchBegin rs.length :: rs).take kept)
    let s ← reopen C cfg left.1
    return (s, .cut left.2.1)

def run (C : Clock N) : Sys N → List Op → Outcome (WalError N) (Sys N × List Event)
  | s, [] => .value (s, [])
  | s, op :: ops => do
    let (s, ev) ← step C s op
    let (s, evs) ← run C s ops
    return (s, ev :: evs)

/-- A history: Open in an empty directory, and the calls after it. -/
def history (C : Clock N) (cfg : Config) (ops : List Op) :
    Outcome (WalError N) (Sys N × List Event) := do
  let s ← openWAL C cfg [] 0
  run C s ops

/-! ## What a writing call can do -/

/-- The part of a record that the log leaves as it was given. -/
def content (r : Record) : RecordType × Bytes × Bytes := (r.type, r.collection, r.data)

/-- A call succeeds exactly if its records are accepted, and logs what it was given, up to where the batch was
    cut. -/
inductive Answers : Op → Event → Prop where
  | wrote {r r' : Record} (h : Accepted r) (hr : content r' = content r) :
      Answers (.write r) (.wrote r')
  | rejected {r : Record} (h : ¬ Accepted r) : Answers (.write r) .rejected
  | batch {rs rs' : List Record} {b e : Record} (h : ∀ r ∈ rs, Accepted r)
      (hb : content b = content (marker RecordType.batchBegin rs.length))
      (hrs : rs'.map content = rs.map content)
      (he : content e = content (marker RecordType.batchEnd rs.length)) :
      Answers (.writeBatch rs) (.batch b rs' e)
  | stopped {rs rs' : List Record} {b : Record} (h : ¬ ∀ r ∈ rs, Accepted r)
      (hl : (b :: rs').map content <+:
        (marker RecordType.batchBegin rs.length :: rs).map content) :
      Answers (.writeBatch rs) (.cut (b :: rs'))
  | crashed {rs l : List Record} {kept : Nat} {cfg : Config}
      (hl : l.map content <+: (marker RecordType.batchBegin rs.length :: rs).map content)
      (hall : (∀ r ∈ rs, Accepted r) →
        l.map content = ((marker RecordType.batchBegin rs.length :: rs).take kept).map content) :
      Answers (.crashBatch rs kept cfg) (.cut l)
  | sync : Answers .sync .quiet
  | reopen {cfg : Config} : Answers (.reopen cfg) .quiet

/-- A number is drawn and its record not accepted, a record is logged, the buffer is flushed. -/
inductive Logs (C : Clock N) (s : Sys N) : List Record → Nat → Sys N → Prop where
  | start : Logs C s [] 0 s
  | reject {l : List Record} {k : Nat} {s' : Sys N} (h : Logs C s l k s') :
      Logs C s l (k + 1) (draw s')
  | record {l : List Record} {k : Nat} {s' : Sys N} (h : Logs C s l k s') (r : Record)
      (hacc : Accepted r) :
      Logs C s (l ++ [stamped C s' r]) (k + 1) (put C (draw s') (frame (stamped C s' r)))
  | flush {l : List Record} {k : Nat} {s' : Sys N} (h : Logs C s l k s') :
      Logs C s l k (flush s')

section Logs

variable {C : Clock N}

theorem Logs.trans {s s₁ s₂ : Sys N} {l l' : List Record} {k k' : Nat} (h : Logs C s l k s₁)
    (h' : Logs C s₁ l' k' s₂) : Logs C s (l ++ l') (k + k') s₂ := by
  induction h' with
  | start => simpa using h
  | reject _ ih => exact .reject ih
  | record _ r hacc ih =>
    rw [← append_assoc]
    exact .record ih r hacc
  | flush _ ih => exact .flush ih

theorem logRecord_logs (C : Clock N) (s : Sys N) (r : Record) :
    (Accepted r ∧ ∃ s', logRecord C s r = (s', .ok (stamped C s r)) ∧
        Logs C s [stamped C s r] 1 s') ∨
      (¬ Accepted r ∧ ∃ s' e, logRecord C s r = (s', .error e) ∧ Logs C s [] 1 s') := by
  unfold logRecord
  cases henc : encodeRecord (stamped C s r) with
  | error e =>
    refine .inr ⟨fun hacc => ?_, draw s, e, rfl, .reject .start⟩
    have hok := (encodeRecord_eq (stamped C s r) _).mpr ⟨hacc, rfl⟩
    rw [henc] at hok
    cases hok
  | ok data =>
    obtain ⟨hacc, rfl⟩ := (encodeRecord_eq _ _).mp henc
    exact .inl ⟨hacc, _, rfl, .record .start r hacc⟩

theorem writeRecords_logs (C : Clock N) (rs : List Record) (s : Sys N) :
    ∃ s' out e k, writeRecords C s rs = (s', out, e) ∧ Logs C s out k s' ∧ k ≤ rs.length ∧
      out.map content <+: rs.map content ∧ (e = none ↔ ∀ r ∈ rs, Accepted r) ∧
      (e = none → out.map content = rs.map content) := by
  induction rs generalizing s with
  | nil => exact ⟨s, [], none, 0, rfl, .start, le_rfl, by simp, by simp, by simp⟩
  | cons r rs ih =>
    unfold writeRecords
    rcases logRecord_logs C s r with ⟨hacc, s₁, hlog, h₁⟩ | ⟨hacc, s₁, e, hlog, h₁⟩
    · obtain ⟨s', out, e, k, hout, h', hle, hpre, hnone, heq⟩ := ih s₁
      rw [hlog]
      simp only [hout]
      refine ⟨s', stamped C s r :: out, e, 1 + k, rfl, h₁.trans h', ?_, ?_, ?_, ?_⟩
      · rw [length_cons]
        omega
      · exact prefix_cons_iff.mpr (.inr ⟨_, rfl, hpre⟩)
      · rw [hnone, forall_mem_cons, and_iff_right hacc]
      · intro he
        exact congrArg (content r :: ·) (heq he)
    · rw [hlog]
      refine ⟨s₁, [], some e, 1, rfl, h₁, by simp, by simp, ?_, by simp⟩
      exact iff_of_false (by simp) fun hall => hacc (hall r mem_cons_self)

theorem accepted_marker (type : RecordType) (n : Nat) : Accepted (marker type n) := by
  simp [Accepted, marker, totalLen, encodeBatchSize, maxUint16, maxUint32]

theorem logRecord_marker (C : Clock N) (s : Sys N) (type : RecordType) (n : Nat) :
    ∃ s', logRecord C s (marker type n) = (s', .ok (stamped C s (marker type n))) ∧
      Logs C s [stamped C s (marker type n)] 1 s' := by
  rcases logRecord_logs C s (marker type n) with ⟨-, h⟩ | ⟨hno, -⟩
  · exact h
  · exact absurd (accepted_marker type n) hno

/-- **A WriteBatch logs both markers and every record**, or the first marker and the records before one not
    accepted. -/
theorem batchEvent_logs (C : Clock N) (s : Sys N) (rs : List Record) :
    ∃ k ≤ rs.length + 2, Logs C s (batchEvent C s rs).2.log k (batchEvent C s rs).1 ∧
      Answers (.writeBatch rs) (batchEvent C s rs).2 := by
  obtain ⟨s₁, hbegin, h₁⟩ := logRecord_marker C s RecordType.batchBegin rs.length
  obtain ⟨s₂, out, err, k, hout, h₂, hle, hpre, hnone, heq⟩ := writeRecords_logs C rs s₁
  obtain ⟨s₃, hend, h₃⟩ := logRecord_marker C s₂ RecordType.batchEnd rs.length
  unfold batchEvent writeBatch
  cases err with
  | some e =>
    simp only [hbegin, hout]
    refine ⟨1 + k, by omega, h₁.trans h₂, .stopped ?_ ?_⟩
    · rw [← hnone]
      simp
    · exact prefix_cons_iff.mpr (.inr ⟨_, rfl, hpre⟩)
  | none =>
    simp only [hbegin, hout, hend]
    exact ⟨1 + k + 1, by omega, .flush ((h₁.trans h₂).trans h₃),
      .batch (hnone.mp rfl) rfl (heq rfl) rfl⟩

theorem writeEvent_logs (C : Clock N) (s : Sys N) (r : Record) :
    Logs C s (writeEvent C s r).2.log 1 (writeEvent C s r).1 ∧
      Answers (.write r) (writeEvent C s r).2 := by
  unfold writeEvent write
  rcases logRecord_logs C s r with ⟨hacc, s₁, hlog, h₁⟩ | ⟨hacc, s₁, e, hlog, h₁⟩
  · simp only [hlog]
    refine ⟨?_, .wrote hacc rfl⟩
    split
    · exact .flush h₁
    · exact h₁
  · simp only [hlog]
    exact ⟨h₁, .rejected hacc⟩

theorem crashed_logs (C : Clock N) (s : Sys N) (rs : List Record) (kept : Nat) (cfg : Config) :
    ∃ s' out e k, writeRecords C s
        ((marker RecordType.batchBegin rs.length :: rs).take kept) = (s', out, e) ∧
      Logs C s out k s' ∧ k ≤ rs.length + 1 ∧ Answers (.crashBatch rs kept cfg) (.cut out) := by
  obtain ⟨s', out, e, k, hout, h', hle, hpre, hnone, heq⟩ := writeRecords_logs C
    ((marker RecordType.batchBegin rs.length :: rs).take kept) s
  refine ⟨s', out, e, k, hout, h', ?_, .crashed ?_ fun hacc => heq (hnone.mpr ?_)⟩
  · rw [length_take, length_cons] at hle
    omega
  · exact hpre.trans (IsPrefix.map content ⟨_, take_append_drop _ _⟩)
  · intro r hr
    rcases mem_cons.mp (mem_of_mem_take hr) with rfl | hr
    · exact accepted_marker _ _
    · exact hacc r hr

end Logs

/-! ## The invariant -/

/-- The files hold `log`. -/
def Holds (C : Clock N) (s : Sys N) (log : List Record) : Prop :=
  ∃ closed cur, Layout C s closed cur ∧ closed.flatMap (·.2) ++ cur = log

/-- The files hold `log`, which only grew by accepted records under increasing numbers. -/
structure Inv (C : Clock N) (s : Sys N) (log : List Record) : Prop where
  holds : Holds C s log
  logged : ∀ r ∈ log, Logged r
  increasing : log.Pairwise (fun a b => a.seqNum < b.seqNum)
  bounded : ∀ r ∈ log, r.seqNum ≤ s.wal.lastSeqNum

section Steps

variable {C : Clock N} {s : Sys N} {log : List Record}

theorem Holds.logs (h : Holds C s log) {l : List Record} {k : Nat} {s' : Sys N}
    (hl : Logs C s l k s') : Holds C s' (log ++ l) := by
  induction hl with
  | start => simpa using h
  | reject _ ih =>
    obtain ⟨closed, cur, hlay, hlog⟩ := ih
    exact ⟨closed, cur, hlay.draw, hlog⟩
  | record _ r _ ih =>
    obtain ⟨closed, cur, hlay, hlog⟩ := ih
    rw [← append_assoc, ← hlog]
    exact hlay.draw.put _
  | flush _ ih =>
    obtain ⟨closed, cur, hlay, hlog⟩ := ih
    exact ⟨closed, cur, hlay.flush, hlog⟩

@[simp] theorem put_lastSeqNum (C : Clock N) (s : Sys N) (data : Bytes) :
    (put C s data).wal.lastSeqNum = s.wal.lastSeqNum := by
  unfold put
  simp only
  split <;> rfl

omit [LinearOrder N] in
theorem lastSeqNum_draw {s : Sys N} (hroom : s.wal.lastSeqNum.toNat + 1 < 2 ^ 64) :
    (draw s).wal.lastSeqNum.toNat = s.wal.lastSeqNum.toNat + 1 := by
  show (s.wal.lastSeqNum + 1).toNat = _
  rw [UInt64.toNat_add]
  exact Nat.mod_eq_of_lt hroom

theorem Inv.draw (h : Inv C s log) (hroom : s.wal.lastSeqNum.toNat + 1 < 2 ^ 64) :
    Inv C (draw s) log where
  holds := by simpa using h.holds.logs (.reject .start)
  logged := h.logged
  increasing := h.increasing
  bounded := by
    intro r hr
    have hle := UInt64.le_iff_toNat_le.mp (h.bounded r hr)
    rw [UInt64.le_iff_toNat_le, lastSeqNum_draw hroom]
    omega

theorem Inv.record (h : Inv C s log) (hroom : s.wal.lastSeqNum.toNat + 1 < 2 ^ 64) {r : Record}
    (hacc : Accepted r) :
    Inv C (put C (Wal.draw s) (frame (stamped C s r))) (log ++ [stamped C s r]) := by
  have hnum := lastSeqNum_draw hroom
  have hlast : (stamped C s r).seqNum = (Wal.draw s).wal.lastSeqNum := rfl
  exact
    { holds := h.holds.logs (.record .start r hacc)
      logged := forall_mem_append.mpr ⟨h.logged, forall_mem_singleton.mpr ⟨hacc, C.stamp_nonneg _⟩⟩
      increasing := by
        refine pairwise_append.mpr ⟨h.increasing, pairwise_singleton _ _, ?_⟩
        intro a ha b hb
        have hle := UInt64.le_iff_toNat_le.mp (h.bounded a ha)
        rw [mem_singleton.mp hb, UInt64.lt_iff_toNat_lt, hlast, hnum]
        omega
      bounded := by
        intro a ha
        rw [put_lastSeqNum]
        rcases mem_append.mp ha with ha | ha
        · exact (h.draw hroom).bounded a ha
        · rw [mem_singleton.mp ha, hlast]
          exact UInt64.le_refl _ }

theorem Inv.logs (h : Inv C s log) {l : List Record} {k : Nat} {s' : Sys N}
    (hl : Logs C s l k s') (hroom : s.wal.lastSeqNum.toNat + k < 2 ^ 64) :
    Inv C s' (log ++ l) ∧ s'.wal.lastSeqNum.toNat = s.wal.lastSeqNum.toNat + k := by
  induction hl with
  | start => exact ⟨by simpa using h, rfl⟩
  | reject _ ih =>
    obtain ⟨h', hnum⟩ := ih (by omega)
    exact ⟨h'.draw (by omega), by rw [lastSeqNum_draw (by omega)]; omega⟩
  | record _ r hacc ih =>
    obtain ⟨h', hnum⟩ := ih (by omega)
    refine ⟨?_, by rw [put_lastSeqNum, lastSeqNum_draw (by omega)]; omega⟩
    rw [← append_assoc]
    exact h'.record (by omega) hacc
  | flush hlog ih =>
    obtain ⟨h', hnum⟩ := ih hroom
    exact ⟨⟨h.holds.logs (.flush hlog), h'.logged, h'.increasing, h'.bounded⟩, hnum⟩

/-! ## Reopening -/

variable (h : Inv C s log)
include h

theorem Inv.files : ∃ xs : List (N × List Record),
    (Wal.flush s).disk = xs.map segFile ∧ (xs.map (·.1)).Pairwise (· < ·) ∧
    (∀ n ∈ xs.map (·.1), n < C.fileName s.ticks) ∧ xs.flatMap (·.2) = log := by
  obtain ⟨closed, cur, hl, hlog⟩ := h.holds
  refine ⟨closed ++ [(s.wal.currentSegment.path, cur)], hl.flush_disk, ?_, ?_, ?_⟩
  · rw [map_append]
    exact hl.names
  · rw [map_append]
    exact hl.fresh
  · simpa using hlog

theorem Inv.reopen {cfg : Config} {s' : Sys N} (hs : reopen C cfg s = .value s') :
    Inv C s' log ∧ s'.wal.lastSeqNum.toNat ≤ s.wal.lastSeqNum.toNat ∧ ∀ r ∈ log, Fits r := by
  obtain ⟨xs, hdisk, hnames, hfresh, rfl⟩ := h.files
  have hlogged : ∀ x ∈ xs, ∀ r ∈ x.2, Logged r := fun x hx r hr =>
    h.logged r (mem_flatMap.mpr ⟨x, hx, hr⟩)
  unfold Wal.reopen at hs
  rw [hdisk] at hs
  have hfits := fits_of_openWAL hnames hlogged hs
  obtain ⟨s₁, hopen, hl, hmax⟩ := openWAL_eq C cfg hnames hfresh hfits
  rw [hs] at hopen
  cases hopen
  refine ⟨⟨⟨xs, [], hl, by simp⟩, h.logged, h.increasing, ?_⟩, ?_, ?_⟩
  · exact (hmax _).mp (UInt64.le_refl _)
  · exact UInt64.le_iff_toNat_le.mp ((hmax _).mpr h.bounded)
  · intro r hr
    obtain ⟨x, hx, hr⟩ := mem_flatMap.mp hr
    exact hfits x hx r hr

theorem Inv.reopen_value (cfg : Config) (hfits : ∀ r ∈ log, Fits r) :
    ∃ s', Wal.reopen C cfg s = .value s' := by
  obtain ⟨xs, hdisk, hnames, hfresh, rfl⟩ := h.files
  obtain ⟨s₁, hopen, -⟩ := openWAL_eq C cfg hnames hfresh
    (fun x hx r hr => hfits r (mem_flatMap.mpr ⟨x, hx, hr⟩))
  unfold Wal.reopen
  rw [hdisk]
  exact ⟨s₁, hopen⟩

end Steps

/-! ## Whole histories -/

theorem forall_events {ops : List Op} {es : List Event} {P : Event → Prop}
    (h : List.Forall₂ Answers ops es) (hP : ∀ op ∈ ops, ∀ ev, Answers op ev → P ev) :
    ∀ ev ∈ es, P ev := by
  induction h with
  | nil => simp
  | cons hans _ ih =>
    exact forall_mem_cons.mpr ⟨hP _ mem_cons_self _ hans,
      ih (forall_mem_cons.mp hP).2⟩

section Histories

variable {C : Clock N} {s s' : Sys N} {log : List Record} {op : Op} {ev : Event}

/-- **One call**: the log grows by what the event wrote, and the event answers the call. -/
theorem Inv.step (h : Inv C s log) (hroom : s.wal.lastSeqNum.toNat + op.draws < 2 ^ 64)
    (hs : step C s op = .value (s', ev)) :
    Inv C s' (log ++ ev.log) ∧ Answers op ev ∧
      s'.wal.lastSeqNum.toNat ≤ s.wal.lastSeqNum.toNat + op.draws := by
  cases op with
  | write r =>
    obtain ⟨hl, hans⟩ := writeEvent_logs C s r
    rw [Outcome.value.inj hs] at hl hans
    obtain ⟨h₁, hnum⟩ := h.logs hl hroom
    exact ⟨h₁, hans, hnum.le⟩
  | writeBatch rs =>
    obtain ⟨k, hk, hl, hans⟩ := batchEvent_logs C s rs
    rw [Outcome.value.inj hs] at hl hans
    have hroom' : s.wal.lastSeqNum.toNat + (rs.length + 2) < 2 ^ 64 := hroom
    obtain ⟨h₁, hnum⟩ := h.logs hl (by omega)
    exact ⟨h₁, hans, by rw [hnum]; exact Nat.add_le_add_left hk _⟩
  | sync =>
    cases hs
    obtain ⟨h₁, hnum⟩ := h.logs (.flush .start) hroom
    exact ⟨h₁, .sync, hnum.le⟩
  | reopen cfg =>
    obtain ⟨s₁, hopen, hs⟩ := bind_eq_value.mp hs
    cases hs
    obtain ⟨h₁, hnum, -⟩ := h.reopen hopen
    exact ⟨by simpa [Event.log] using h₁, .reopen, hnum⟩
  | crashBatch rs kept cfg =>
    have hroom' : s.wal.lastSeqNum.toNat + (rs.length + 1) < 2 ^ 64 := hroom
    obtain ⟨s₁, out, e, k, hout, hl, hk, hans⟩ := crashed_logs C s rs kept cfg
    obtain ⟨h₁, hnum₁⟩ := h.logs hl (by omega)
    unfold Wal.step at hs
    simp only [hout] at hs
    obtain ⟨s₂, hopen, hs⟩ := bind_eq_value.mp hs
    cases hs
    obtain ⟨h₂, hnum, -⟩ := h₁.reopen hopen
    refine ⟨h₂, hans, ?_⟩
    show s'.wal.lastSeqNum.toNat ≤ s.wal.lastSeqNum.toNat + (rs.length + 1)
    omega

/-- **A whole run**: the log grows by what its events wrote, one event for each call. -/
theorem Inv.run : ∀ (ops : List Op) {s s' : Sys N} {log : List Record} {es : List Event},
    Inv C s log → s.wal.lastSeqNum.toNat + (ops.map Op.draws).sum < 2 ^ 64 →
    run C s ops = .value (s', es) →
    Inv C s' (log ++ es.flatMap Event.log) ∧ List.Forall₂ Answers ops es
  | [], s, s', log, es, h, _, hs => by
      cases hs
      exact ⟨by simpa using h, .nil⟩
  | op :: ops, s, s', log, es, h, hroom, hs => by
      rw [map_cons, sum_cons] at hroom
      obtain ⟨⟨s₁, ev⟩, hstep, hs⟩ := Outcome.bind_eq_value.mp hs
      obtain ⟨⟨s₂, evs⟩, hrun, hs⟩ := bind_eq_value.mp hs
      cases hs
      obtain ⟨h₁, hans, hnum⟩ := h.step (by omega) hstep
      obtain ⟨h₂, hall⟩ := Inv.run ops h₁ (by omega) hrun
      exact ⟨by simpa using h₂, .cons hans hall⟩

theorem open_inv (C : Clock N) (cfg : Config) :
    ∃ s, openWAL C cfg [] 0 = .value s ∧ Inv C s [] ∧ s.wal.lastSeqNum.toNat = 0 := by
  have hfresh : ∀ n ∈ ([] : List (N × List Record)).map (·.1), n < C.fileName 0 := by simp
  obtain ⟨s, hs, hl, hmax⟩ := openWAL_eq C cfg Pairwise.nil hfresh (by simp)
  refine ⟨s, hs, ⟨⟨[], [], hl, rfl⟩, by simp, by simp, by simp⟩, ?_⟩
  have h0 := UInt64.le_iff_toNat_le.mp ((hmax 0).mpr (by simp))
  simpa using h0

/-- **The log of a history is what its events wrote**, and each event answers its call. -/
theorem history_inv {cfg : Config} {ops : List Op} {es : List Event}
    (hroom : (ops.map Op.draws).sum < 2 ^ 64) (h : history C cfg ops = .value (s, es)) :
    Inv C s (es.flatMap Event.log) ∧ List.Forall₂ Answers ops es := by
  obtain ⟨s₀, hopen, h₀, hnum⟩ := open_inv C cfg
  unfold history at h
  rw [hopen, value_bind] at h
  exact Inv.run ops h₀ (by omega) h

/-! ## Histories that cannot fail -/

theorem totalLen_content {r r' : Record} (h : content r' = content r) : totalLen r' = totalLen r := by
  simp only [content, Prod.mk.injEq] at h
  unfold totalLen
  rw [h.2.1, h.2.2]

/-- What is decided by content holds of every record logged, if it holds of the markers and of those given. -/
theorem Answers.forall_log {P : Record → Prop} (h : Answers op ev)
    (hP : ∀ r r', content r' = content r → P r → P r') (hm : ∀ type n, P (marker type n))
    (hr : ∀ r ∈ op.records, P r) : ∀ r ∈ ev.log, P r := by
  have hmap : ∀ {l rs : List Record}, l.map content <+: rs.map content →
      (∀ r ∈ rs, P r) → ∀ r ∈ l, P r := by
    intro l rs hpre hrs r hr
    obtain ⟨a, ha, e⟩ := mem_map.mp (hpre.subset (mem_map_of_mem hr))
    exact hP a r e.symm (hrs a ha)
  have hbegin : ∀ n, ∀ r ∈ marker RecordType.batchBegin n :: op.records, P r :=
    fun n => forall_mem_cons.mpr ⟨hm _ n, hr⟩
  cases h with
  | wrote h hc =>
    intro a ha
    rw [mem_singleton.mp ha]
    exact hP _ _ hc (hr _ (mem_singleton_self _))
  | rejected h => exact nofun
  | batch h hb hrs he =>
    intro a ha
    rcases mem_append.mp ha with ha | ha
    · rcases mem_cons.mp ha with rfl | ha
      · exact hP _ _ hb (hm _ _)
      · exact hmap (hrs ▸ prefix_rfl) hr a ha
    · rw [mem_singleton.mp ha]
      exact hP _ _ he (hm _ _)
  | stopped h hl => exact hmap hl (hbegin _)
  | crashed hl _ => exact hmap hl (hbegin _)
  | sync => exact nofun
  | reopen => exact nofun

theorem Answers.sizes (h : Answers op ev) (hsize : ∀ r ∈ op.records, totalLen r + 4 < 2 ^ 32) :
    ∀ r ∈ ev.log, totalLen r + 4 < 2 ^ 32 := by
  refine h.forall_log (fun r r' hc hr => ?_) (fun type n => ?_) hsize
  · rw [totalLen_content hc]
    exact hr
  · simp [totalLen, marker, encodeBatchSize]

theorem Inv.step_value (h : Inv C s log) (hroom : s.wal.lastSeqNum.toNat + op.draws < 2 ^ 64)
    (hfits : ∀ r ∈ log, Fits r) (hsize : ∀ r ∈ op.records, totalLen r + 4 < 2 ^ 32) :
    ∃ s' ev, Wal.step C s op = .value (s', ev) := by
  cases op with
  | write r => exact ⟨_, _, rfl⟩
  | writeBatch rs => exact ⟨_, _, rfl⟩
  | sync => exact ⟨_, _, rfl⟩
  | reopen cfg =>
    obtain ⟨s₁, hopen⟩ := h.reopen_value cfg hfits
    unfold Wal.step
    simp only [hopen]
    exact ⟨_, _, rfl⟩
  | crashBatch rs kept cfg =>
    have hroom' : s.wal.lastSeqNum.toNat + (rs.length + 1) < 2 ^ 64 := hroom
    obtain ⟨s₁, out, e, k, hout, hl, hk, hans⟩ := crashed_logs C s rs kept cfg
    obtain ⟨h₁, -⟩ := h.logs hl (by omega)
    have hfits₁ : ∀ r ∈ log ++ out, Fits r := forall_mem_append.mpr ⟨hfits, fun r hr =>
      (h₁.logged r (mem_append_right _ hr)).fits (hans.sizes hsize r hr)⟩
    obtain ⟨s₂, hopen⟩ := h₁.reopen_value cfg hfits₁
    unfold Wal.step
    simp only [hout, hopen]
    exact ⟨_, _, rfl⟩

theorem Inv.run_value : ∀ (ops : List Op) {s : Sys N} {log : List Record}, Inv C s log →
    s.wal.lastSeqNum.toNat + (ops.map Op.draws).sum < 2 ^ 64 → (∀ r ∈ log, Fits r) →
    (∀ op ∈ ops, ∀ r ∈ op.records, totalLen r + 4 < 2 ^ 32) →
    ∃ s' es, Wal.run C s ops = .value (s', es)
  | [], s, log, _, _, _, _ => ⟨s, [], rfl⟩
  | op :: ops, s, log, h, hroom, hfits, hsize => by
      rw [map_cons, sum_cons] at hroom
      have hop := hsize op mem_cons_self
      obtain ⟨s₁, ev, hstep⟩ := h.step_value (by omega) hfits hop
      obtain ⟨h₁, hans, hnum⟩ := h.step (by omega) hstep
      have hfits₁ : ∀ r ∈ log ++ ev.log, Fits r := forall_mem_append.mpr ⟨hfits, fun r hr =>
        (h₁.logged r (mem_append_right _ hr)).fits (hans.sizes hop r hr)⟩
      obtain ⟨s₂, es, hrun⟩ := Inv.run_value ops h₁ (by omega) hfits₁
        (forall_mem_cons.mp hsize).2
      refine ⟨s₂, ev :: es, ?_⟩
      unfold Wal.run
      rw [hstep, value_bind]
      simp only [hrun, value_bind, pure_eq]

theorem history_value (C : Clock N) (cfg : Config) {ops : List Op}
    (hroom : (ops.map Op.draws).sum < 2 ^ 64)
    (hsize : ∀ op ∈ ops, ∀ r ∈ op.records, totalLen r + 4 < 2 ^ 32) :
    ∃ s es, history C cfg ops = .value (s, es) := by
  obtain ⟨s₀, hopen, h₀, hnum⟩ := open_inv C cfg
  unfold history
  rw [hopen, value_bind]
  exact h₀.run_value ops (by omega) (by simp) hsize

end Histories

end LimyeDB.Wal
