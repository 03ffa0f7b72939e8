/-
  THE INGESTION ENGINE (pkg/ingestion/ingestion.go): `Ingest`, the flush timer, the workers and one `Stop`, in
  every order of their steps.

  What is between two accesses to shared state is one step. A context is never cancelled, and the memory
  monitor touches no point.
-/
import LimyeDB.Lib.Runs

namespace LimyeDB.Ingestion

open LimyeDB.Lib.Runs List

/-- `threshold` is the share of the queue's capacity at which `checkBackpressure` delays. -/
structure Config (P : Type) where
  maxMemoryBytes : ℤ
  batchSize : ℤ
  maxPendingBatches : ℕ
  threshold : ℤ
  estimatePointMemory : P → ℤ

/-- `processed` is what `onBatch` got, `returned` are the points whose `Ingest` returned success. -/
structure Engine (P : Type) where
  running : Bool
  stopped : Bool
  closed : Bool
  panicked : Bool
  currentBatch : List P
  currentMemory : ℤ
  batchQueue : List (List P)
  processed : List P
  returned : List P

variable {P : Type}

inductive Role (P : Type) where
  | ingest (p : P)
  | timer
  | worker
  | stop
deriving DecidableEq

def Role.point : Role P → List P
  | .ingest p => [p]
  | _ => []

/-- `flush`, `send` and `process` are in the calls that several make, `back` is behind them. -/
inductive Thread (P : Type) where
  | checked (p : P)
  | paced (p : P)
  | admitted (p : P)
  | flush (r : Role P)
  | send (r : Role P) (batch : List P)
  | process (r : Role P) (batch : List P)
  | back (r : Role P)
  | ready
  | swapped
  | waiting
  | ended (r : Role P)
deriving DecidableEq

/-- `alt` takes the case of `stopCh` in a select, and at a send says that a worker waits; `joined`: the wait
    group is done. -/
def Engine.next (cfg : Config P) (e : Engine P) (joined alt : Bool) : Thread P → Option (Engine P × Thread P)
  | .checked p =>
    if alt then if e.stopped ∧ cfg.threshold ≤ e.batchQueue.length then some (e, .ended (.ingest p)) else none
    else some (e, .paced p)
  | .paced p =>
    if e.currentMemory + cfg.estimatePointMemory p > cfg.maxMemoryBytes then
      if alt ∧ e.stopped then some (e, .ended (.ingest p)) else none
    else some (e, .admitted p)
  | .admitted p =>
    let batch := e.currentBatch ++ [p]
    some ({ e with
        currentBatch := batch
        currentMemory := e.currentMemory + cfg.estimatePointMemory p },
      if cfg.batchSize ≤ batch.length then .flush (.ingest p) else .back (.ingest p))
  | .flush r =>
    if e.currentBatch = [] then some (e, .back r)
    else some ({ e with currentBatch := [] }, .send r e.currentBatch)
  | .send r batch =>
    if e.closed then some ({ e with panicked := true }, .send r batch)
    else if e.batchQueue.length < cfg.maxPendingBatches ∨ alt then
      some ({ e with batchQueue := e.batchQueue ++ [batch] }, .back r)
    else some (e, .process r batch)
  | .process r batch => some ({ e with
      processed := e.processed ++ batch
      currentMemory := e.currentMemory - (batch.map cfg.estimatePointMemory).sum }, .back r)
  | .back (.ingest p) => some ({ e with returned := e.returned ++ [p] }, .ended (.ingest p))
  | .back .timer =>
    if alt then if e.stopped then some (e, .ended .timer) else none else some (e, .flush .timer)
  | .back .worker => match e.batchQueue with
    | [] => if e.closed then some (e, .ended .worker) else none
    | batch :: queue => some ({ e with batchQueue := queue }, .process .worker batch)
  | .back .stop => some ({ e with closed := true }, .waiting)
  | .ready => if e.running then some ({ e with running := false }, .swapped) else none
  | .swapped => some ({ e with stopped := true }, .flush .stop)
  | .waiting => if joined then some (e, .ended .stop) else none
  | .ended _ => none

structure State (P : Type) where
  engine : Engine P
  stop : Thread P
  threads : List (Thread P)

/-- `NewEngine` and `Start`. -/
def start (numWorkers : ℕ) : State P where
  engine := ⟨true, false, false, false, [], 0, [], [], []⟩
  stop := .ready
  threads := .back .timer :: replicate numWorkers (.back .worker)

/-- A call of `Ingest`, a step of `Stop`, a step of another goroutine. -/
inductive Act (P : Type) where
  | call (p : P)
  | stop (alt : Bool)
  | go (i : ℕ) (alt : Bool)

namespace Thread

def role : Thread P → Role P
  | .checked p | .paced p | .admitted p => .ingest p
  | .flush r | .send r _ | .process r _ | .back r | .ended r => r
  | .ready | .swapped | .waiting => .stop

def isEnded : Thread P → Bool
  | .ended _ => true
  | _ => false

/-- An `Ingest` that has seen the flag and has not returned. -/
def isOpen (t : Thread P) : Bool :=
  match t.role with
  | .ingest _ => !t.isEnded
  | _ => false

/-- The wait group counts the workers and the timer. -/
def joined (t : Thread P) : Bool :=
  match t.role with
  | .worker | .timer => t.isEnded
  | _ => true

def sends : Thread P → Bool
  | .send .. => true
  | _ => false

def emptied : Thread P → Bool
  | .ready | .swapped | .flush _ => false
  | _ => true

def past : Thread P → Bool
  | .waiting | .ended _ => true
  | _ => false

def held : Thread P → List P
  | .send _ batch | .process _ batch => batch
  | _ => []

/-- The point is taken in and its `Ingest` has not returned. -/
def pending : Thread P → List P
  | .flush r | .send r _ | .process r _ | .back r => r.point
  | _ => []

end Thread

def step (cfg : Config P) (s : State P) (a : Act P) : Option (State P) :=
  if s.engine.panicked then none else
  match a with
  | .call p => some (if s.engine.running then { s with threads := s.threads ++ [.checked p] } else s)
  | .stop alt => (s.engine.next cfg (s.threads.all Thread.joined) alt s.stop).map fun r =>
      { s with engine := r.1, stop := r.2 }
  | .go i alt => s.threads[i]?.bind fun t =>
      (s.engine.next cfg (s.threads.all Thread.joined) alt t).map fun r =>
        { s with engine := r.1, threads := s.threads.set i r.2 }

/-- `Stop` swaps the flag when no `Ingest` is under way, and closes the queue when no batch is about to
    be sent. -/
def Orderly (s : State P) : Act P → Prop
  | .stop _ => (s.stop = .ready → ∀ t ∈ s.threads, t.isOpen = false) ∧
      (s.stop = .back .stop → ∀ t ∈ s.threads, t.sends = false)
  | _ => True

instance [DecidableEq P] (s : State P) (a : Act P) : Decidable (Orderly s a) := by
  unfold Orderly
  split <;> infer_instance

/-! ## One step of a goroutine -/

section

variable {cfg : Config P} {e e' : Engine P} {j alt : Bool} {t t' : Thread P}

def Engine.inside (e : Engine P) : List P := e.processed ++ e.batchQueue.flatten ++ e.currentBatch

/-- A step moves points and loses none. -/
theorem next_count [DecidableEq P] (h : e.next cfg j alt t = some (e', t')) (p : P) :
    e'.inside.count p + t'.held.count p + e.returned.count p + t.pending.count p =
      e.inside.count p + t.held.count p + e'.returned.count p + t'.pending.count p := by
  revert h
  fun_cases Engine.next cfg e j alt t <;> intro h <;> cases h <;>
    grind [Engine.inside, Thread.held, Thread.pending, Role.point]

/-- What one step of a goroutine can do besides. -/
structure Moves (e e' : Engine P) (t t' : Thread P) : Prop where
  role : t'.role = t.role
  live : t.isEnded = false
  flags : t.role ≠ .stop → e'.running = e.running ∧ e'.closed = e.closed
  calm : (e.closed = true → t.sends = false) → e'.panicked = e.panicked
  emptied : t.isOpen = false → e.currentBatch = [] → e'.currentBatch = []
  opened : t.isOpen = false → t'.isOpen = false
  sends : t.sends = false → e.currentBatch = [] → t'.sends = false
  queue : t.sends = false → e.batchQueue = [] → e'.batchQueue = []
  left : t' = .ended .worker → e.closed = true ∧ e'.batchQueue = []

theorem next_moves (h : e.next cfg j alt t = some (e', t')) : Moves e e' t t' := by
  revert h
  fun_cases Engine.next cfg e j alt t <;> intro h <;> cases h <;> constructor <;>
    grind -ring -linarith [Thread.role, Thread.sends, Thread.isOpen, Thread.isEnded]

/-- What a step of `Stop` can do besides. -/
structure Stops (j : Bool) (e e' : Engine P) (t t' : Thread P) : Prop where
  begun : (t ≠ .ready → e.running = false) → t' ≠ .ready ∧ e'.running = false
  emptied : (t.emptied = true → e.currentBatch = []) → t'.emptied = true → e'.currentBatch = []
  closes : e'.closed = true → (e.closed = true → t.past = true) → t'.past = true ∧
    (e.closed = true ∨ t = .back .stop)
  waits : t.past = true → e' = e
  joined : t' = .ended .stop → j = true
  pending : t.pending = [] ∧ t'.pending = []

theorem next_stops (h : e.next cfg j alt t = some (e', t')) (ht : t.role = .stop) : Stops j e e' t t' := by
  revert h ht
  fun_cases Engine.next cfg e j alt t <;> intro h ht <;> cases h <;> constructor <;>
    grind -ring -linarith [Thread.role, Thread.emptied, Thread.past, Thread.pending, Role.point]

theorem emptied_of_past (h : t.past = true) : t.emptied = true := by
  cases t <;> cases h <;> rfl

theorem ne_ready (h : t.emptied = true) : t ≠ .ready := by
  rintro rfl
  cases h

theorem sends_of_past (h : t.past = true) : t.sends = false := by
  cases t <;> cases h <;> rfl

theorem ended_of_joined (h : t.joined = true) (hopen : t.isOpen = false) (hstop : t.role ≠ .stop) :
    t.isEnded = true := by
  unfold Thread.joined at h
  unfold Thread.isOpen at hopen
  cases hr : t.role <;> simp_all

theorem sum_set {ts : List (Thread P)} {i : ℕ} (f : Thread P → ℕ) (t' : Thread P)
    (hi : ts[i]? = some t) :
    ((ts.set i t').map f).sum + f t = (ts.map f).sum + f t' := by
  induction ts generalizing i with
  | nil => cases hi
  | cons u ts ih =>
    cases i with
    | zero =>
      cases hi
      simp only [set_cons_zero, map_cons, sum_cons]
      omega
    | succ i =>
      have hrest := ih hi
      simp only [set_cons_succ, map_cons, sum_cons]
      omega

/-- What is inside or in the hands of the goroutines is what was taken in. -/
def Kept [DecidableEq P] (p : P) (e : Engine P) (ts : List (Thread P)) : Prop :=
  e.inside.count p + (ts.map (·.held.count p)).sum = e.returned.count p + (ts.map (·.pending.count p)).sum

theorem Kept.next [DecidableEq P] {p : P} {ts : List (Thread P)} {i : ℕ} (hk : Kept p e ts)
    (hi : ts[i]? = some t) (h : e.next cfg j alt t = some (e', t')) : Kept p e' (ts.set i t') := by
  have hcount := next_count h p
  have hheld := sum_set (·.held.count p) t' hi
  have hpending := sum_set (·.pending.count p) t' hi
  unfold Kept at *
  omega

end

/-! ## Every order of the steps -/

/-- The invariant: where each point is, and how far `Stop` has come. -/
structure Tidy [DecidableEq P] (s : State P) : Prop where
  calm : s.engine.panicked = false
  counts : ∀ p, s.engine.inside.count p + s.stop.held.count p + (s.threads.map (·.held.count p)).sum =
    s.engine.returned.count p + (s.threads.map (·.pending.count p)).sum
  own : s.stop.role = .stop
  others : .stop ∉ s.threads.map Thread.role
  worker : .worker ∈ s.threads.map Thread.role
  running : s.stop ≠ .ready → s.engine.running = false ∧ ∀ t ∈ s.threads, t.isOpen = false
  emptied : s.stop.emptied = true → s.engine.currentBatch = []
  closed : s.engine.closed = true → s.stop.past = true ∧ ∀ t ∈ s.threads, t.sends = false
  left : .ended .worker ∈ s.threads → s.engine.closed = true ∧ s.engine.batchQueue = []
  joined : s.stop = .ended .stop → ∀ t ∈ s.threads, t.isEnded = true

section

variable [DecidableEq P] {cfg : Config P} {s s' : State P} {e : Engine P} {j alt : Bool} {t t' : Thread P}

theorem Tidy.go {i : ℕ} (hs : Tidy s) (hi : s.threads[i]? = some t)
    (h : s.engine.next cfg j alt t = some (e, t')) :
    Tidy { s with engine := e, threads := s.threads.set i t' } := by
  have hm := next_moves h
  have ht : t ∈ s.threads := mem_of_getElem? hi
  have hstop : t.role ≠ .stop := fun heq => hs.others (heq ▸ mem_map_of_mem ht)
  obtain ⟨hrunning, hclosed⟩ := hm.flags hstop
  have hroles : (s.threads.set i t').map Thread.role = s.threads.map Thread.role := by
    rw [map_set, hm.role]
    obtain ⟨hlt, rfl⟩ := List.getElem?_eq_some_iff.mp hi
    simp [← map_set]
  have hsent : e.closed = true → t.sends = false := fun hc => (hs.closed (hclosed ▸ hc)).2 t ht
  have hall {Q : Thread P → Prop} (hold : ∀ u ∈ s.threads, Q u) (hnew : Q t') :
      ∀ u ∈ s.threads.set i t', Q u := fun u hu =>
    (mem_or_eq_of_mem_set hu).elim (hold u) fun heq => heq ▸ hnew
  refine ⟨?_, fun p => ?_, hs.own, hroles ▸ hs.others, hroles ▸ hs.worker, fun hne => ?_, fun he => ?_,
    fun hc => ?_, fun hl => ?_, fun hover => ?_⟩
  · exact (hm.calm fun hc => (hs.closed hc).2 t ht).trans hs.calm
  · have hcount := next_count h p
    have hheld := sum_set (·.held.count p) t' hi
    have hpending := sum_set (·.pending.count p) t' hi
    have hbefore := hs.counts p
    dsimp only at *
    omega
  · obtain ⟨hr, hopen⟩ := hs.running hne
    exact ⟨hrunning.trans hr, hall hopen (hm.opened (hopen t ht))⟩
  · exact hm.emptied ((hs.running (ne_ready he)).2 t ht) (hs.emptied he)
  · obtain ⟨hpast, hsends⟩ := hs.closed (hclosed ▸ hc)
    exact ⟨hpast, hall hsends (hm.sends (hsent hc) (hs.emptied (emptied_of_past hpast)))⟩
  · rcases mem_or_eq_of_mem_set hl with hold | hnew
    · obtain ⟨hc, hq⟩ := hs.left hold
      exact ⟨hclosed.trans hc, hm.queue ((hs.closed hc).2 t ht) hq⟩
    · obtain ⟨hc, hq⟩ := hm.left hnew.symm
      exact ⟨hclosed.trans hc, hq⟩
  · exact absurd (hs.joined hover t ht) (by simp [hm.live])

theorem Tidy.stop (hs : Tidy s) (hl : Orderly s (.stop alt))
    (h : s.engine.next cfg (s.threads.all Thread.joined) alt s.stop = some (e, t')) :
    Tidy { s with engine := e, stop := t' } := by
  have hm := next_moves h
  have hst := next_stops h hs.own
  obtain ⟨hne, hrunning⟩ := hst.begun fun hne => (hs.running hne).1
  have hopen : ∀ t ∈ s.threads, t.isOpen = false := by
    by_cases hready : s.stop = .ready
    · exact hl.1 hready
    · exact (hs.running hready).2
  refine ⟨?_, fun p => ?_, hm.role.trans hs.own, hs.others, hs.worker, fun _ => ⟨hrunning, hopen⟩,
    hst.emptied hs.emptied, fun hc => ?_, fun hleft => ?_, fun hover t ht => ?_⟩
  · exact (hm.calm fun hc => sends_of_past (hs.closed hc).1).trans hs.calm
  · have hcount := next_count h p
    have hbefore := hs.counts p
    rw [hst.pending.1, hst.pending.2] at hcount
    dsimp only at *
    omega
  · obtain ⟨hpast, hold | hback⟩ := hst.closes hc fun hc => (hs.closed hc).1
    · exact ⟨hpast, (hs.closed hold).2⟩
    · exact ⟨hpast, hl.2 hback⟩
  · obtain ⟨hc, hq⟩ := hs.left hleft
    cases hst.waits (hs.closed hc).1
    exact ⟨hc, hq⟩
  · have hjoined := all_eq_true.mp (hst.joined hover) t ht
    exact ended_of_joined hjoined (hopen t ht) fun heq => hs.others (heq ▸ mem_map_of_mem ht)

theorem Tidy.call (hs : Tidy s) (hr : s.engine.running = true) (p : P) :
    Tidy { s with threads := s.threads ++ [.checked p] } := by
  have hready : s.stop = .ready := by
    by_contra hne
    cases hr.symm.trans (hs.running hne).1
  refine ⟨hs.calm, fun q => ?_, hs.own, ?_, ?_, fun hne => absurd hready hne, hs.emptied, fun hc => ?_,
    fun hl => ?_, fun hover => ?_⟩
  · simpa [Thread.held, Thread.pending] using hs.counts q
  · simpa [Thread.role] using hs.others
  · simpa [Thread.role] using hs.worker
  · have hpast := (hs.closed hc).1
    rw [hready] at hpast
    cases hpast
  · exact hs.left (by simpa using hl)
  · cases hready.symm.trans hover

theorem Tidy.step {a : Act P} (hs : Tidy s) (hl : Orderly s a) (h : step cfg s a = some s') : Tidy s' := by
  simp only [Ingestion.step, hs.calm, Bool.false_eq_true, if_false] at h
  cases a with
  | call p =>
    cases hr : s.engine.running with
    | true =>
      simp only [hr, if_true, Option.some.injEq] at h
      exact h ▸ hs.call hr p
    | false =>
      simp only [hr, Bool.false_eq_true, if_false, Option.some.injEq] at h
      exact h ▸ hs
  | stop alt =>
    obtain ⟨⟨e, t'⟩, hnext, rfl⟩ := Option.map_eq_some_iff.mp h
    exact hs.stop hl hnext
  | go i alt =>
    obtain ⟨t, hi, h⟩ := Option.bind_eq_some_iff.mp h
    obtain ⟨⟨e, t'⟩, hnext, rfl⟩ := Option.map_eq_some_iff.mp h
    exact hs.go hi hnext

theorem tidy_start {numWorkers : ℕ} (hworkers : 0 < numWorkers) : Tidy (start numWorkers : State P) := by
  refine ⟨rfl, fun p => ?_, rfl, ?_, ?_, fun h => absurd rfl h, nofun, nofun, ?_, nofun⟩
  · simp [start, Engine.inside, Thread.held, Thread.pending, Role.point]
  · simp [start, Thread.role]
  · simp [start, Thread.role, hworkers.ne']
  · simp [start]

theorem Tidy.over (hs : Tidy s) (hover : s.stop = .ended .stop) (p : P) :
    s.engine.processed.count p = s.engine.returned.count p := by
  have hended := hs.joined hover
  have hnone {f : Thread P → List P} (hf : ∀ r, f (.ended r) = []) :
      (s.threads.map fun t => (f t).count p).sum = 0 := by
    refine sum_eq_zero fun n hn => ?_
    obtain ⟨t, ht, rfl⟩ := mem_map.mp hn
    cases t <;> cases hended _ ht
    rw [hf, count_nil]
  obtain ⟨t, ht, hworker⟩ := mem_map.mp hs.worker
  have hq : s.engine.batchQueue = [] := by
    cases t <;> cases hended _ ht
    cases hworker
    exact (hs.left ht).2
  have hb : s.engine.currentBatch = [] := hs.emptied (by rw [hover]; rfl)
  have hcount := hs.counts p
  rw [hnone fun _ => rfl, hnone fun _ => rfl, hover] at hcount
  simpa [Engine.inside, hq, hb, Thread.held] using hcount

theorem kept_step {p : P} (s : State P) (a : Act P) (s' : State P)
    (hs : Kept p s.engine (s.stop :: s.threads)) (h : step cfg s a = some s') :
    Kept p s'.engine (s'.stop :: s'.threads) := by
  unfold step at h
  split at h
  · cases h
  cases a with
  | call q =>
    cases h
    split
    · simpa [Kept, Thread.held, Thread.pending] using hs
    · exact hs
  | stop alt =>
    obtain ⟨r, hnext, rfl⟩ := Option.map_eq_some_iff.mp h
    exact hs.next (i := 0) rfl hnext
  | go i alt =>
    obtain ⟨t, hi, h⟩ := Option.bind_eq_some_iff.mp h
    obtain ⟨r, hnext, rfl⟩ := Option.map_eq_some_iff.mp h
    exact hs.next (i := i + 1) hi hnext

end

/-- **No step sends on the closed queue, and when `Stop` has returned each point has been passed to `onBatch`
    as often as its `Ingest` returned success**, in every orderly run. -/
theorem ingested_processed {cfg : Config P} {numWorkers : ℕ} (hworkers : 0 < numWorkers)
    {acts : List (Act P)} {s : State P} (hl : Along (step cfg) Orderly (start numWorkers) acts)
    (hrun : run (step cfg) (start numWorkers) acts = some s) :
    s.engine.panicked = false ∧ (s.stop = .ended .stop → s.engine.processed ~ s.engine.returned) := by
  classical
  have hs := run_along (fun _ _ _ hs hl h => Tidy.step hs hl h) (tidy_start hworkers) hl hrun
  exact ⟨hs.calm, fun hover => perm_iff_count.mpr (hs.over hover)⟩

def sample (batchSize : ℤ) : Config ℕ := ⟨100, batchSize, 1, 1, fun _ => 1⟩

def sampleActs : List (Act ℕ) :=
  [.call 7, .go 2 false, .go 2 false, .go 2 false, .go 2 false, .stop false, .stop false, .stop false,
    .stop false, .stop false, .go 1 false, .go 1 false, .go 1 false, .go 0 true, .stop false]

theorem ingested_processed_one : ∃ s, run (step (sample 2)) (start 1) sampleActs = some s ∧
    s.stop = .ended .stop ∧ s.engine.processed ~ s.engine.returned := by
  have hl : Along (step (sample 2)) Orderly (start 1) sampleActs := by decide +kernel
  have hstop : (run (step (sample 2)) (start 1) sampleActs).map State.stop = some (.ended .stop) := by
    decide +kernel
  obtain ⟨s, hrun, hstop⟩ := Option.map_eq_some_iff.mp hstop
  exact ⟨s, hrun, hstop, (ingested_processed Nat.one_pos hl hrun).2 hstop⟩

/-- A point that is taken in behind the last flush is lost, and one that fills a batch there is sent on
    the closed queue. -/
theorem ingested_lost : (run (step (sample 2)) (start 1)
      [.call 7, .go 2 false, .go 2 false, .stop false, .stop false, .stop false, .go 2 false, .go 2 false,
        .stop false, .go 1 false, .go 0 true, .stop false]).map
        (fun s => (s.stop, s.engine.returned, s.engine.processed)) = some (.ended .stop, [7], []) ∧
    (run (step (sample 1)) (start 1)
      [.call 7, .go 2 false, .go 2 false, .stop false, .stop false, .stop false, .go 2 false, .go 2 false,
        .stop false, .go 2 false]).map (·.engine.panicked) = some true := by
  decide +kernel

/-- **No point is doubled and none disappears, in whichever order the steps come**: what `onBatch` got, what
    waits and what goroutines have in their hands is what `Ingest` has taken in. -/
theorem points_conserved (cfg : Config P) (numWorkers : ℕ) (acts : List (Act P)) {s : State P}
    (hrun : run (step cfg) (start numWorkers) acts = some s) :
    s.engine.inside ++ (s.stop :: s.threads).flatMap Thread.held ~
      s.engine.returned ++ (s.stop :: s.threads).flatMap Thread.pending := by
  classical
  refine perm_iff_count.mpr fun p => ?_
  rw [count_append, count_append, count_flatMap, count_flatMap]
  refine run_induct (I := fun s => Kept p s.engine (s.stop :: s.threads)) kept_step ?_ hrun
  simp [Kept, start, Engine.inside, Thread.held, Thread.pending, Role.point]

theorem points_conserved_one : ∃ s, run (step (sample 2)) (start 1) sampleActs = some s ∧
    s.engine.inside ++ (s.stop :: s.threads).flatMap Thread.held ~
      s.engine.returned ++ (s.stop :: s.threads).flatMap Thread.pending :=
  ⟨_, rfl, points_conserved (sample 2) 1 sampleActs rfl⟩

end LimyeDB.Ingestion
