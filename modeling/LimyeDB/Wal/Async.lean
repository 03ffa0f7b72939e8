/-
  THE BACKGROUND WRITER: callers that put records into a queue, the goroutine that takes them out in batches,
  and Close, under every schedule.

  An action is one atomic step. `accepted` and `entries` only record what happened.
-/
import LimyeDB.Lib.Runs
import LimyeDB.Wal.Truncate

namespace LimyeDB.Wal.Async

open Go Lib.Runs List Option

variable {N : Type} [LinearOrder N]

/-! ## The parties -/

def maxAsyncBatchSize : Nat := 1000000

def maxAsyncQueueCap : Nat := maxAsyncBatchSize * 10

/-- The batch size Open takes for the configured one. -/
def asyncBatchSize (configured : Int) : Nat :=
  let size := if configured ≤ 0 then 100 else configured
  let size := if size > maxAsyncBatchSize then (maxAsyncBatchSize : Int) else size
  size.toNat

def queueCap (size : Nat) : Nat :=
  if 0 < size ∧ size ≤ maxAsyncBatchSize then size * 10 else maxAsyncQueueCap

theorem asyncBatchSize_bounds (configured : Int) :
    0 < asyncBatchSize configured ∧ asyncBatchSize configured ≤ maxAsyncBatchSize := by
  unfold asyncBatchSize maxAsyncBatchSize
  simp only
  split <;> split <;> omega

/-- Where the writer's goroutine stands: at its select, in a flush, in the drain loop, in the flush
    behind the drain loop, returned. -/
inductive Phase where
  | selecting
  | flushing
  | draining
  | lastFlush
  | exited
  deriving DecidableEq, Repr

/-- The writer does not look at the queue again. -/
def Phase.stopped : Phase → Bool
  | .lastFlush => true
  | .exited => true
  | _ => false

/-- Close has not been called, has closed the done channel and waits, has returned. -/
inductive Closing where
  | open
  | waiting
  | returned
  deriving DecidableEq, Repr

/-- Who wrote to the log: the writer in its loop, the writer at its end, a caller's own Write. -/
inductive Source where
  | loop
  | drain
  | caller
  deriving DecidableEq, Repr

structure Entry where
  source : Source
  given : List Record
  event : Event
  deriving DecidableEq, Repr

structure State (N : Type) where
  sys : Sys N
  calls : List Record        -- WriteAsync calls that have not come to their select
  queue : List Record
  batch : List Record
  phase : Phase
  closing : Closing
  accepted : List Record
  entries : List Entry
  deriving DecidableEq, Repr

def start (sys : Sys N) : State N := ⟨sys, [], [], [], .selecting, .open, [], []⟩

inductive Action where
  | call (r : Record)
  | enqueue (i : Nat)
  | fallBack (i : Nat)
  | write (r : Record)
  | receive
  | tick
  | flush
  | done
  | drain
  | drained
  | lastFlush
  | close
  | closeReturns
  deriving DecidableEq, Repr

def writeNow (C : Clock N) (s : State N) (r : Record) : State N :=
  let out := writeEvent C s.sys r
  { s with sys := out.1, entries := s.entries ++ [⟨.caller, [r], out.2⟩] }

/-- The writer's flush; an error of WriteBatch is ignored. -/
def flushBatch (C : Clock N) (s : State N) (source : Source) : State N :=
  if s.batch = [] then s
  else
    let out := batchEvent C s.sys s.batch
    { s with sys := out.1, batch := [], entries := s.entries ++ [⟨source, s.batch, out.2⟩] }

/-- A caller at its select takes the default branch only if the queue is full. No WriteAsync begins behind
    Close, and a closed file is not written. -/
def step (C : Clock N) (size : Nat) (s : State N) : Action → Option (State N)
  | .call r => if s.closing = .open then some { s with calls := s.calls ++ [r] } else none
  | .enqueue i =>
    match s.calls[i]? with
    | some r =>
      if s.queue.length < queueCap size then
        some { s with
          calls := s.calls.eraseIdx i, queue := s.queue ++ [r], accepted := s.accepted ++ [r] }
      else none
    | none => none
  | .fallBack i =>
    match s.calls[i]? with
    | some r =>
      if queueCap size ≤ s.queue.length ∧ s.closing ≠ .returned then
        some { writeNow C s r with calls := s.calls.eraseIdx i }
      else none
    | none => none
  | .write r => if s.closing ≠ .returned then some (writeNow C s r) else none
  | .receive =>
    match s.phase, s.queue with
    | .selecting, r :: queue =>
      some { s with
        queue := queue, batch := s.batch ++ [r]
        phase := if size ≤ (s.batch ++ [r]).length then .flushing else .selecting }
    | _, _ => none
  | .tick => if s.phase = .selecting then some { s with phase := .flushing } else none
  | .flush =>
    if s.phase = .flushing then some { flushBatch C s .loop with phase := .selecting } else none
  | .done =>
    if s.phase = .selecting ∧ s.closing = .waiting then some { s with phase := .draining }
    else none
  | .drain =>
    match s.phase, s.queue with
    | .draining, r :: queue => some { s with queue := queue, batch := s.batch ++ [r] }
    | _, _ => none
  | .drained =>
    if s.phase = .draining ∧ s.queue = [] then some { s with phase := .lastFlush } else none
  | .lastFlush =>
    if s.phase = .lastFlush then some { flushBatch C s .drain with phase := .exited } else none
  | .close => if s.closing = .open then some { s with closing := .waiting } else none
  | .closeReturns =>
    if s.closing = .waiting ∧ s.phase = .exited then
      some { s with sys := Wal.flush s.sys, closing := .returned }
    else none

/-! ## What every schedule keeps -/

/-- The entry is a WriteBatch of the background writer. -/
def Entry.queued (e : Entry) : Bool := e.source != .caller

/-- The records handed to WriteBatch by the background writer, batch after batch. -/
def handed (es : List Entry) : List Record := (es.filter Entry.queued).flatMap (·.given)

def logOf (es : List Entry) : List Record := es.flatMap (·.event.log)

theorem handed_snoc (es : List Entry) (e : Entry) :
    handed (es ++ [e]) = handed es ++ if e.queued then e.given else [] := by
  unfold handed
  rw [filter_append, flatMap_append, filter_singleton]
  cases e.queued <;> simp

theorem logOf_snoc (es : List Entry) (e : Entry) :
    logOf (es ++ [e]) = logOf es ++ e.event.log := by
  simp [logOf]

structure Inv (C : Clock N) (size : Nat) (log : List Record) (s : State N) : Prop where
  order : s.accepted = handed s.entries ++ s.batch ++ s.queue
  short : s.phase = .selecting → s.batch.length < size
  limit : s.phase = .flushing → s.batch.length ≤ size
  emptied : s.phase = .exited → s.batch = []
  bounded : ∀ e ∈ s.entries, e.source = .loop → e.given.length ≤ size
  answered : ∀ e ∈ s.entries, e.queued → Answers (.writeBatch e.given) e.event
  holds : Holds C s.sys (log ++ logOf s.entries)

section Steps

variable {C : Clock N} {size : Nat} {log : List Record} {s : State N}

theorem inv_start (hsize : 0 < size) {sys : Sys N} (h : Holds C sys log) :
    Inv C size log (start sys) where
  order := rfl
  short _ := hsize
  limit _ := Nat.zero_le _
  emptied _ := rfl
  bounded := nofun
  answered := nofun
  holds := by simpa [start, logOf] using h

theorem Inv.writeNow (h : Inv C size log s) (r : Record) : Inv C size log (writeNow C s r) :=
  { h with
    order := by
      show s.accepted = handed (s.entries ++ [_]) ++ s.batch ++ s.queue
      rw [handed_snoc]
      simpa [Entry.queued] using h.order
    bounded := forall_mem_append.mpr ⟨h.bounded, forall_mem_singleton.mpr nofun⟩
    answered := forall_mem_append.mpr ⟨h.answered, forall_mem_singleton.mpr nofun⟩
    holds := by
      show Holds C (writeEvent C s.sys r).1 (log ++ logOf (s.entries ++ [_]))
      rw [logOf_snoc, ← append_assoc]
      exact h.holds.logs (writeEvent_logs C s.sys r).1 }

theorem Inv.flushBatch (h : Inv C size log s) (hsize : 0 < size) {source : Source}
    (hsource : source ≠ .caller) (hlimit : source = .loop → s.batch.length ≤ size) (phase : Phase) :
    Inv C size log { flushBatch C s source with phase := phase } := by
  unfold Async.flushBatch
  by_cases hnil : s.batch = []
  · rw [if_pos hnil]
    exact { h with
      short := fun _ => by rw [hnil]; exact hsize
      limit := fun _ => by rw [hnil]; exact Nat.zero_le _
      emptied := fun _ => hnil }
  · rw [if_neg hnil]
    obtain ⟨k, -, hl, hans⟩ := batchEvent_logs C s.sys s.batch
    have hq : Entry.queued ⟨source, s.batch, (batchEvent C s.sys s.batch).2⟩ := by
      simpa [Entry.queued] using hsource
    exact
      { order := by
          rw [handed_snoc, if_pos hq, append_nil]
          exact h.order
        short := fun _ => hsize
        limit := fun _ => Nat.zero_le _
        emptied := fun _ => rfl
        bounded := forall_mem_append.mpr ⟨h.bounded, forall_mem_singleton.mpr hlimit⟩
        answered := forall_mem_append.mpr ⟨h.answered, forall_mem_singleton.mpr fun _ => hans⟩
        holds := by
          rw [logOf_snoc, ← append_assoc]
          exact h.holds.logs hl }

theorem Inv.step (hsize : 0 < size) (h : Inv C size log s) {a : Action} {s' : State N}
    (hs : step C size s a = some s') : Inv C size log s' := by
  cases a with
  | call r =>
    obtain ⟨-, rfl⟩ := ite_some_none_eq_some.mp hs
    exact { h with }
  | enqueue i =>
    simp only [Async.step] at hs
    split at hs
    · obtain ⟨-, rfl⟩ := ite_some_none_eq_some.mp hs
      exact { h with order := by rw [h.order]; simp }
    · cases hs
  | fallBack i =>
    simp only [Async.step] at hs
    split at hs
    · obtain ⟨-, rfl⟩ := ite_some_none_eq_some.mp hs
      exact { h.writeNow _ with }
    · cases hs
  | write r =>
    obtain ⟨-, rfl⟩ := ite_some_none_eq_some.mp hs
    exact h.writeNow r
  | receive =>
    simp only [Async.step] at hs
    split at hs
    case h_1 r queue hphase hqueue =>
      cases hs
      have hshort := h.short hphase
      have hlen : (s.batch ++ [r]).length = s.batch.length + 1 := by simp
      refine { h with
        order := by simp [h.order, hqueue]
        short := ?_, limit := ?_, emptied := ?_ }
      all_goals simp only
      all_goals split <;> simp <;> omega
    case h_2 => cases hs
  | tick =>
    obtain ⟨hphase, rfl⟩ := ite_some_none_eq_some.mp hs
    exact { h with short := nofun, limit := fun _ => (h.short hphase).le, emptied := nofun }
  | flush =>
    obtain ⟨hphase, rfl⟩ := ite_some_none_eq_some.mp hs
    exact h.flushBatch hsize (by simp) (fun _ => h.limit hphase) _
  | done =>
    obtain ⟨-, rfl⟩ := ite_some_none_eq_some.mp hs
    exact { h with short := nofun, limit := nofun, emptied := nofun }
  | drain =>
    simp only [Async.step] at hs
    split at hs
    case h_1 r queue hphase hqueue =>
      cases hs
      exact { h with
        order := by simp [h.order, hqueue]
        short := by simp [hphase], limit := by simp [hphase], emptied := by simp [hphase] }
    case h_2 => cases hs
  | drained =>
    obtain ⟨-, rfl⟩ := ite_some_none_eq_some.mp hs
    exact { h with short := nofun, limit := nofun, emptied := nofun }
  | lastFlush =>
    obtain ⟨-, rfl⟩ := ite_some_none_eq_some.mp hs
    exact h.flushBatch hsize (by simp) (by simp) _
  | close =>
    obtain ⟨-, rfl⟩ := ite_some_none_eq_some.mp hs
    exact { h with }
  | closeReturns =>
    obtain ⟨-, rfl⟩ := ite_some_none_eq_some.mp hs
    exact { h with holds := by simpa using h.holds.logs (.flush .start) }

end Steps

/-! ## Close -/

/-- No record comes into the queue once the writer has stopped to look. -/
def OnTime (s : State N) : Action → Prop
  | .enqueue _ => s.phase.stopped = false
  | _ => True

instance (s : State N) (a : Action) : Decidable (OnTime s a) := by
  cases a <;> simp only [OnTime] <;> infer_instance

/-- The writer has written, once each and in this order, the records that the queue took. -/
def AllLogged (s : State N) : Prop :=
  ((s.entries.filter Entry.queued).flatMap (·.event.records)).map content = s.accepted.map content

section Close

variable {C : Clock N} {size : Nat} {log : List Record} {s s' : State N}

@[simp] theorem flushBatch_queue (C : Clock N) (s : State N) (source : Source) :
    (flushBatch C s source).queue = s.queue := by
  unfold flushBatch
  split <;> rfl

theorem step_stopped {a : Action} (hs : step C size s a = some s') (hstop : s.phase.stopped) :
    s'.phase.stopped ∧ ∃ late, s'.queue = s.queue ++ late ∧ (OnTime s a → late = []) := by
  cases a with
  | enqueue i =>
    simp only [step] at hs
    split at hs
    · obtain ⟨-, rfl⟩ := ite_some_none_eq_some.mp hs
      refine ⟨hstop, _, rfl, fun h : s.phase.stopped = false => ?_⟩
      rw [h] at hstop
      cases hstop
    · cases hs
  | fallBack i =>
    simp only [step] at hs
    split at hs
    · obtain ⟨-, rfl⟩ := ite_some_none_eq_some.mp hs
      exact ⟨hstop, [], (append_nil _).symm, fun _ => rfl⟩
    · cases hs
  | lastFlush =>
    obtain ⟨-, rfl⟩ := ite_some_none_eq_some.mp hs
    refine ⟨rfl, [], ?_, fun _ => rfl⟩
    rw [append_nil]
    exact flushBatch_queue C s .drain
  | receive | drain =>
    simp only [step] at hs
    split at hs
    case h_1 hphase _ => rw [hphase] at hstop; cases hstop
    case h_2 => cases hs
  | tick | flush =>
    obtain ⟨hphase, -⟩ := ite_some_none_eq_some.mp hs
    rw [hphase] at hstop
    cases hstop
  | done | drained =>
    obtain ⟨⟨hphase, -⟩, -⟩ := ite_some_none_eq_some.mp hs
    rw [hphase] at hstop
    cases hstop
  | call | write | close | closeReturns =>
    obtain ⟨-, rfl⟩ := ite_some_none_eq_some.mp hs
    exact ⟨hstop, [], (append_nil _).symm, fun _ => rfl⟩

theorem step_stops {a : Action} (hs : step C size s a = some s') (hrun : s.phase.stopped = false)
    (hstop : s'.phase.stopped) : s'.queue = [] := by
  cases a with
  | drained =>
    obtain ⟨⟨-, hqueue⟩, rfl⟩ := ite_some_none_eq_some.mp hs
    exact hqueue
  | lastFlush =>
    obtain ⟨hphase, -⟩ := ite_some_none_eq_some.mp hs
    rw [hphase] at hrun
    cases hrun
  | enqueue i | fallBack i =>
    simp only [step] at hs
    split at hs
    · obtain ⟨-, rfl⟩ := ite_some_none_eq_some.mp hs
      exact absurd (hrun.symm.trans hstop) Bool.false_ne_true
    · cases hs
  | receive =>
    simp only [step] at hs
    split at hs
    · cases hs
      split at hstop <;> cases hstop
    · cases hs
  | drain =>
    simp only [step] at hs
    split at hs
    · cases hs
      exact absurd (hrun.symm.trans hstop) Bool.false_ne_true
    · cases hs
  | tick | flush | done =>
    obtain ⟨-, rfl⟩ := ite_some_none_eq_some.mp hs
    cases hstop
  | call | write | close | closeReturns =>
    obtain ⟨-, rfl⟩ := ite_some_none_eq_some.mp hs
    exact absurd (hrun.symm.trans hstop) Bool.false_ne_true

theorem onTime_of_queue_nil {acts : List Action} {s s' : State N}
    (hrun : Lib.Runs.run (step C size) s acts = some s') (hnil : s'.queue = []) :
    Along (step C size) OnTime s acts := by
  induction acts generalizing s with
  | nil => trivial
  | cons a acts ih =>
    obtain ⟨s₁, hs₁, hrun₁⟩ := run_cons.mp hrun
    refine ⟨?_, fun s₂ hs₂ => ?_⟩
    · by_contra hlate
      obtain ⟨i, rfl⟩ : ∃ i, a = .enqueue i := by
        cases a with
        | enqueue i => exact ⟨i, rfl⟩
        | _ => exact absurd trivial hlate
      replace hlate : s.phase.stopped = true := Bool.not_eq_false _ ▸ hlate
      have hkept : s'.phase.stopped ∧ s'.queue ≠ [] := by
        refine run_induct (I := fun t : State N => t.phase.stopped ∧ t.queue ≠ []) ?_
          ⟨(step_stopped hs₁ hlate).1, ?_⟩ hrun₁
        · rintro t a t' ⟨ht, hq⟩ hstep
          obtain ⟨ht', late, hq', -⟩ := step_stopped hstep ht
          exact ⟨ht', by rw [hq']; simp [hq]⟩
        · simp only [step] at hs₁
          split at hs₁
          · obtain ⟨-, rfl⟩ := ite_some_none_eq_some.mp hs₁
            simp
          · cases hs₁
      exact hkept.2 hnil
    · rw [hs₁] at hs₂
      cases hs₂
      exact ih hrun₁

theorem queue_nil_of_onTime {acts : List Action} {s s' : State N}
    (hrun : Lib.Runs.run (step C size) s acts = some s') (hs : s.phase.stopped → s.queue = [])
    (honTime : Along (step C size) OnTime s acts) (hstop : s'.phase.stopped) : s'.queue = [] := by
  refine run_along (I := fun t : State N => t.phase.stopped → t.queue = []) ?_ hs honTime hrun hstop
  intro t a t' ht hP hstep hstop'
  cases hphase : t.phase.stopped with
  | false => exact step_stops hstep hphase hstop'
  | true =>
    obtain ⟨-, late, hq, hlate⟩ := step_stopped hstep hphase
    rw [hq, hlate hP, ht hphase]
    rfl

theorem map_content_records {es : List Entry}
    (hans : ∀ e ∈ es, e.queued → Answers (.writeBatch e.given) e.event)
    (hok : ∀ e ∈ es, e.queued → ∃ b rs m, e.event = .batch b rs m) :
    ((es.filter Entry.queued).flatMap (·.event.records)).map content = (handed es).map content := by
  unfold handed
  rw [map_flatMap, map_flatMap]
  refine flatMap_congr fun e he => ?_
  obtain ⟨he, hq⟩ := mem_filter.mp he
  obtain ⟨b, rs, m, hev⟩ := hok e he hq
  have h := hans e he hq
  rw [hev] at h ⊢
  cases h with
  | batch _ _ hrs _ => exact hrs

theorem Inv.allLogged_iff (h : Inv C size log s) (hexit : s.phase = .exited)
    (hok : ∀ e ∈ s.entries, e.queued → ∃ b rs m, e.event = .batch b rs m) :
    AllLogged s ↔ s.queue = [] := by
  unfold AllLogged
  rw [map_content_records h.answered hok, h.order, h.emptied hexit, append_nil,
    map_append, self_eq_append_right, map_eq_nil_iff]

/-- **When Close returns, the records that the queue took are in the log, once each and in order, exactly if
    none came in behind the writer's last look.** In any case the files hold all that was written, and no
    batch is above the limit. -/
theorem close_logs_iff (C : Clock N) (configured : Int) (sys : Sys N) (log : List Record)
    (hsys : Holds C sys log) (acts : List Action) (s : State N)
    (hrun : Lib.Runs.run (step C (asyncBatchSize configured)) (start sys)
      (acts ++ [.closeReturns]) = some s)
    (hok : ∀ e ∈ s.entries, e.queued → ∃ b rs m, e.event = .batch b rs m) :
    Holds C s.sys (log ++ logOf s.entries) ∧ s.sys.wal.currentSegment.buffered = [] ∧
      (∀ e ∈ s.entries, e.source = .loop → e.given.length ≤ asyncBatchSize configured) ∧
      (AllLogged s ↔ Along (step C (asyncBatchSize configured)) OnTime (start sys) acts) := by
  have hsize := (asyncBatchSize_bounds configured).1
  have hinv : Inv C (asyncBatchSize configured) log s :=
    run_induct (fun _ _ _ h hs => h.step hsize hs) (inv_start hsize hsys) hrun
  obtain ⟨t, ht, hlast⟩ := run_append.mp hrun
  obtain ⟨s₁, hclose, hend⟩ := run_cons.mp hlast
  cases hend
  obtain ⟨⟨-, hexit⟩, rfl⟩ := ite_some_none_eq_some.mp hclose
  refine ⟨hinv.holds, rfl, hinv.bounded, ?_⟩
  rw [hinv.allLogged_iff hexit hok]
  show t.queue = [] ↔ _
  constructor
  · exact onTime_of_queue_nil ht
  · intro honTime
    exact queue_nil_of_onTime ht nofun honTime (by rw [hexit]; rfl)

end Close

theorem smallLog_holds : Holds tickClock smallLog [] :=
  ⟨[], [], ⟨⟨[], rfl, rfl⟩, rfl, pairwise_singleton _ _, by simp [smallLog, tickClock]⟩, rfl⟩

/-- A record that the writer takes out in its loop and writes in its last flush. -/
theorem close_logs_small : ∃ s, Lib.Runs.run (step tickClock (asyncBatchSize 0)) (start smallLog)
      ([.call smallRecord, .enqueue 0, .receive, .close, .done, .drained, .lastFlush] ++
        [.closeReturns]) = some s ∧ s.accepted = [smallRecord] ∧ AllLogged s := by
  refine ⟨_, rfl, rfl, ?_⟩
  refine (close_logs_iff tickClock 0 smallLog [] smallLog_holds
    [.call smallRecord, .enqueue 0, .receive, .close, .done, .drained, .lastFlush] _ rfl
    ?_).2.2.2.mpr (by decide +kernel)
  intro e he _
  rw [mem_singleton.mp he]
  exact ⟨_, _, _, rfl⟩

/-- **A WriteAsync that comes to its select behind the drain loop** returns nil, Close returns, and the record
    is in no file. -/
theorem late_record_lost : ∃ s, Lib.Runs.run (step tickClock (asyncBatchSize 0)) (start smallLog)
      ([.call smallRecord, .close, .done, .drained, .lastFlush, .enqueue 0] ++
        [.closeReturns]) = some s ∧
      (∀ e ∈ s.entries, e.queued → ∃ b rs m, e.event = .batch b rs m) ∧
      s.accepted = [smallRecord] ∧ s.sys.disk = [⟨0, []⟩] ∧ ¬ AllLogged s := by
  refine ⟨_, rfl, nofun, rfl, rfl, ?_⟩
  intro h
  cases h

end LimyeDB.Wal.Async
