/-
  THE RECOVERY MANAGER (pkg/cluster/recovery.go): a queue of shards, a table of jobs, and a goroutine for
  every job.

  The jobs are all those that were started, and `listed` says that the table has it.

  Main results:
    * `recoveries_bounded_iff`: the calls after which, whatever is done then, no two recoveries of one shard and
      no more than the maximum run
    * `served_iff`: which runs serve every request
-/
import LimyeDB.Cluster.Shards

namespace LimyeDB.Recovery

open Go LimyeDB.Cluster LimyeDB.Lib.Runs List Function

/-! ## The source -/

inductive RecoveryStatus where
  | pending | streaming | applying | complete | failed
  deriving DecidableEq

structure RecoveryJob where
  shardID : UInt32
  number : ℕ
  status : RecoveryStatus
  listed : Bool

structure RecoveryManager where
  maxConcurrentRecov : ℤ
  recovering : List RecoveryJob
  recoveryQueue : List UInt32

def newRecoveryManager (maxConcurrentRecov : ℤ) : RecoveryManager := ⟨maxConcurrentRecov, [], []⟩

def findSourceNode (nodes : List Node) (shard : Shard) : Option Node :=
  let healthy id := nodes.find? fun n => n.id = id ∧ n.isHealthy
  (if shard.primary = [] then none else healthy shard.primary) <|> shard.replicas.findSome? healthy

/-- The end of `executeRecovery` for the job with the number, if it runs. -/
def RecoveryJob.ended (n : ℕ) (failed : Bool) (job : RecoveryJob) : RecoveryJob :=
  if job.number = n ∧ job.status = .streaming then
    { job with status := if failed then .failed else .complete }
  else job

namespace RecoveryManager

variable (rm : RecoveryManager)

def recoverShard (id : UInt32) : Except String RecoveryManager :=
  if rm.recovering.any fun job => job.listed && job.shardID == id then .error "shard already recovering"
  else .ok { rm with recoveryQueue := rm.recoveryQueue ++ [id] }

def activeCount : ℕ :=
  rm.recovering.countP fun job => job.listed ∧ (job.status = .streaming ∨ job.status = .applying)

def start (id : UInt32) (queue : List UInt32) : RecoveryManager :=
  { rm with
    recoveryQueue := queue
    recovering := ⟨id, rm.recovering.length, .streaming, true⟩ ::
      rm.recovering.map fun job => { job with listed := job.listed && job.shardID != id } }

/-- What `GetShard` and `GetAllNodes` give is an input. -/
def processRecoveryQueue (shard : Option Shard) (nodes : List Node) : RecoveryManager :=
  if rm.maxConcurrentRecov ≤ rm.activeCount then rm
  else match rm.recoveryQueue with
    | [] => rm
    | id :: queue => match shard.bind (findSourceNode nodes) with
      | none => { rm with recoveryQueue := queue }
      | some _ => rm.start id queue

end RecoveryManager

/-- The critical sections; `ended` is the last of a goroutine. -/
inductive Step where
  | recoverShard (id : UInt32)
  | processRecoveryQueue (shard : Option Shard) (nodes : List Node)
  | ended (n : ℕ) (failed : Bool)

def step (rm : RecoveryManager) : Step → RecoveryManager
  | .recoverShard id => (rm.recoverShard id).toOption.getD rm
  | .processRecoveryQueue shard nodes => rm.processRecoveryQueue shard nodes
  | .ended n failed => { rm with recovering := rm.recovering.map (·.ended n failed) }

/-! ## How many recoveries run -/

def RecoveryManager.running (rm : RecoveryManager) (p : RecoveryJob → Bool) : ℕ :=
  rm.recovering.countP fun job => job.status = .streaming ∧ p job

def Bounded (rm : RecoveryManager) : Prop :=
  (∀ id, rm.running (·.shardID = id) ≤ 1) ∧ rm.running (fun _ => true) ≤ rm.maxConcurrentRecov.toNat

/-- What runs is in the table, where no job is `applying`. -/
def Sound (rm : RecoveryManager) : Prop :=
  Bounded rm ∧ ∀ job ∈ rm.recovering, job.status ≠ .applying ∧ (job.status = .streaming → job.listed)

/-- A shard is asked for only while it is not in the queue, or one recovery at a time is all there can be. -/
def Fresh (rm : RecoveryManager) : Step → Prop
  | .recoverShard id => rm.maxConcurrentRecov ≤ 1 ∨ id ∉ rm.recoveryQueue
  | _ => True

/-- No shard is in the queue twice, or in the queue and in the table. -/
def Queued (rm : RecoveryManager) : Prop :=
  rm.recoveryQueue.Nodup ∧ ∀ job ∈ rm.recovering, job.listed → job.shardID ∉ rm.recoveryQueue

structure Tidy (rm : RecoveryManager) : Prop where
  sound : Sound rm
  queue : rm.maxConcurrentRecov ≤ 1 ∨ Queued rm

variable {id : UInt32}

section Bounds

variable {rm : RecoveryManager}

theorem running_start (id : UInt32) (queue : List UInt32) (i : UInt32) :
    (rm.start id queue).running (·.shardID = i) =
      rm.running (·.shardID = i) + if id = i then 1 else 0 := by
  simp [RecoveryManager.running, RecoveryManager.start, countP_cons, countP_map, comp_def]

theorem Sound.running_le (h : Sound rm) : rm.running (fun _ => true) ≤ rm.activeCount :=
  countP_mono_left fun job hjob hs => by simp_all [h.2 job hjob]

theorem Sound.start (h : Sound rm) (queue : List UInt32)
    (hmax : rm.activeCount < rm.maxConcurrentRecov) (hnone : rm.running (·.shardID = id) = 0) :
    Sound (rm.start id queue) := by
  have hactive := h.running_le
  obtain ⟨⟨hone, hall⟩, hjobs⟩ := h
  refine ⟨⟨fun i => ?_, ?_⟩, fun job hjob => ?_⟩
  · rw [running_start]
    split_ifs with hi
    · rw [← hi, hnone]
    · exact hone i
  · have hcount : (rm.start id queue).running (fun _ => true) = rm.running (fun _ => true) + 1 := by
      simp [RecoveryManager.running, RecoveryManager.start, countP_map, comp_def]
    change _ ≤ rm.maxConcurrentRecov.toNat
    omega
  · rcases mem_cons.mp hjob with rfl | hjob
    · exact ⟨nofun, fun _ => rfl⟩
    · obtain ⟨old, hold, rfl⟩ := mem_map.mp hjob
      refine ⟨(hjobs old hold).1, fun hs => ?_⟩
      have hother : old.shardID ≠ id := fun heq => countP_eq_zero.mp hnone old hold (by simpa [heq] using hs)
      simpa [hother] using (hjobs old hold).2 hs

/-- Of a shard in the queue no recovery runs when the next one can be started. -/
theorem Tidy.none_runs (h : Tidy rm) (hid : id ∈ rm.recoveryQueue)
    (hmax : rm.activeCount < rm.maxConcurrentRecov) : rm.running (·.shardID = id) = 0 := by
  rcases h.queue with hone | ⟨-, hqueue⟩
  · have hall : rm.running (fun _ => true) = 0 := by have := h.sound.running_le; omega
    refine Nat.eq_zero_of_le_zero (le_of_le_of_eq (countP_mono_left fun job _ hs => ?_) hall)
    simp_all
  · refine countP_eq_zero.mpr fun job hjob hs => ?_
    obtain ⟨hs, hsame⟩ := of_decide_eq_true hs
    exact hqueue job hjob ((h.sound.2 job hjob).2 hs) (of_decide_eq_true hsame ▸ hid)

theorem Queued.start {queue : List UInt32} (h : Queued rm)
    (hq : rm.recoveryQueue = id :: queue) : Queued (rm.start id queue) := by
  obtain ⟨hnodup, hjobs⟩ := h
  rw [hq, nodup_cons] at hnodup
  refine ⟨hnodup.2, fun job hjob hlisted => ?_⟩
  rcases mem_cons.mp hjob with rfl | hjob
  · exact hnodup.1
  · obtain ⟨old, hold, rfl⟩ := mem_map.mp hjob
    have hout := hjobs old hold (Bool.and_eq_true_iff.mp hlisted).1
    rw [hq] at hout
    exact fun hmem => hout (mem_cons_of_mem id hmem)

theorem ended_eq {n : ℕ} {failed : Bool} {job : RecoveryJob} :
    (job.ended n failed).listed = job.listed ∧ (job.ended n failed).shardID = job.shardID ∧
      ((job.ended n failed).status = .streaming → job.ended n failed = job) ∧
      (job.status ≠ .applying → (job.ended n failed).status ≠ .applying) := by
  rw [RecoveryJob.ended]
  split_ifs
  all_goals simp

theorem Tidy.ended (h : Tidy rm) (n : ℕ) (failed : Bool) : Tidy (step rm (.ended n failed)) := by
  obtain ⟨⟨⟨hone, hall⟩, hjobs⟩, hqueue⟩ := h
  have hless : ∀ p, (step rm (.ended n failed)).running p ≤ rm.running p := by
    intro p
    rw [RecoveryManager.running, step, countP_map]
    refine countP_mono_left fun job _ hjob => ?_
    rwa [comp_apply, ended_eq.2.2.1 (of_decide_eq_true hjob).1] at hjob
  refine ⟨⟨⟨fun id => (hless _).trans (hone id), (hless _).trans hall⟩, fun job hjob => ?_⟩,
    hqueue.imp_right fun ⟨hnodup, hout⟩ => ⟨hnodup, fun job hjob => ?_⟩⟩
  · obtain ⟨old, hold, rfl⟩ := mem_map.mp hjob
    refine ⟨ended_eq.2.2.2 (hjobs old hold).1, fun hs => ?_⟩
    have hsame := ended_eq.2.2.1 hs
    rw [hsame] at hs ⊢
    exact (hjobs old hold).2 hs
  · obtain ⟨old, hold, rfl⟩ := mem_map.mp hjob
    rw [ended_eq.1, ended_eq.2.1]
    exact hout old hold

theorem Tidy.step {l : Step} (h : Tidy rm) (hl : Fresh rm l) : Tidy (step rm l) := by
  cases l with
  | recoverShard id =>
    rw [Recovery.step, RecoveryManager.recoverShard]
    split_ifs with hlisted
    · exact h
    · refine ⟨h.sound, ?_⟩
      rcases h.queue with hone | ⟨hnodup, hout⟩
      · exact .inl hone
      · refine hl.imp_right fun hnew => ⟨nodup_append_comm.mpr (nodup_cons.mpr ⟨hnew, hnodup⟩), ?_⟩
        intro job hjob hon hmem
        rcases mem_append.mp hmem with hmem | hmem
        · exact hout job hjob hon hmem
        · exact hlisted (any_eq_true.mpr ⟨job, hjob, by simpa [hon] using mem_singleton.mp hmem⟩)
  | processRecoveryQueue shard nodes =>
    rw [Recovery.step, RecoveryManager.processRecoveryQueue]
    split_ifs with hmax
    · exact h
    · cases hq : rm.recoveryQueue with
      | nil => exact h
      | cons id queue =>
        cases shard.bind (findSourceNode nodes) with
        | none =>
          refine ⟨h.sound, h.queue.imp_right fun ⟨hnodup, hout⟩ => ?_⟩
          rw [hq] at hnodup
          refine ⟨(nodup_cons.mp hnodup).2, fun job hjob hon hmem => hout job hjob hon ?_⟩
          rw [hq]
          exact mem_cons_of_mem id hmem
        | some node =>
          have hnone := h.none_runs (hq ▸ mem_cons_self) (not_le.mp hmax)
          exact ⟨h.sound.start queue (not_le.mp hmax) hnone, h.queue.imp_right fun hd => hd.start hq⟩
  | ended n failed => exact h.ended n failed

/-! ## A shard that is in the queue twice -/

def Step.isRequest : Step → Bool
  | .recoverShard _ => true
  | _ => false

theorem ended_all {ns : List ℕ} {job : RecoveryJob} (happ : job.status ≠ .applying)
    (hend : job.status = .streaming → job.number ∈ ns) :
    (ns.foldl (fun job n => job.ended n true) job).status ≠ .streaming ∧
      (ns.foldl (fun job n => job.ended n true) job).status ≠ .applying := by
  induction ns generalizing job with
  | nil => exact ⟨fun hs => not_mem_nil (hend hs), happ⟩
  | cons n ns ih =>
    refine ih (ended_eq.2.2.2 happ) fun hs => ?_
    have hsame : job.ended n true = job := ended_eq.2.2.1 hs
    dsimp only at hs ⊢
    rw [hsame] at hs ⊢
    refine (mem_cons.mp (hend hs)).resolve_left fun hn => ?_
    rw [RecoveryJob.ended, if_pos ⟨hn, hs⟩] at hsame
    rw [← hsame] at hs
    cases hs

theorem foldl_ended (ns : List ℕ) : (ns.map fun n => Step.ended n true).foldl step rm =
    { rm with recovering := rm.recovering.map (ns.foldl fun job n => job.ended n true) } := by
  induction ns generalizing rm with
  | nil => simp
  | cons n ns ih => simp [ih, step, comp_def]

/-- Whatever runs may come to its end before the queue is processed again. -/
theorem exists_idle (hjobs : ∀ job ∈ rm.recovering, job.status ≠ .applying) :
    ∃ (ends : List Step) (idle : RecoveryManager), (∀ l ∈ ends, l.isRequest = false) ∧ ends.foldl step rm = idle ∧ idle.activeCount = 0 ∧
      idle.recoveryQueue = rm.recoveryQueue ∧ idle.maxConcurrentRecov = rm.maxConcurrentRecov := by
  refine ⟨_, _, ?_, foldl_ended (rm.recovering.map RecoveryJob.number), ?_, rfl, rfl⟩
  · rintro l hl
    obtain ⟨n, -, rfl⟩ := mem_map.mp hl
    rfl
  · rw [RecoveryManager.activeCount, countP_map]
    refine countP_eq_zero.mpr fun job hjob => ?_
    have hend := ended_all (hjobs job hjob) fun _ => mem_map_of_mem hjob
    simp [hend]

theorem activeCount_start (hidle : rm.activeCount = 0) (id : UInt32) (queue : List UInt32) :
    (rm.start id queue).activeCount = 1 := by
  refine countP_cons.trans ?_
  rw [countP_map, countP_eq_zero.mpr fun job hjob hs => ?_]
  · rfl
  · have hnot := countP_eq_zero.mp hidle job hjob
    simp_all

/-- The queue is processed while the primary of the next shard is healthy. -/
def found : Step := .processRecoveryQueue (some ⟨0, [1], []⟩) [⟨[1], .active⟩]

/-- The shards before `id` find no source, and `id` finds one. -/
def upTo (before : List UInt32) : List Step :=
  replicate before.length (.processRecoveryQueue none []) ++ [found]

theorem isRequest_upTo {before : List UInt32} : ∀ l ∈ upTo before, l.isRequest = false := by
  intro l hl
  rcases mem_append.mp hl with hl | hl
  · rw [eq_of_mem_replicate hl]
    rfl
  · rw [mem_singleton.mp hl]
    rfl

theorem foldl_upTo {before queue : List UInt32} (hq : rm.recoveryQueue = before ++ id :: queue)
    (hmax : rm.activeCount < rm.maxConcurrentRecov) : (upTo before).foldl step rm = rm.start id queue := by
  induction before generalizing rm with
  | nil =>
    simp only [upTo, length_nil, replicate_zero, nil_append, foldl_cons, foldl_nil, step, found,
      RecoveryManager.processRecoveryQueue, not_le.mpr hmax, if_false, hq]
    rfl
  | cons i before ih =>
    have hdrop : step rm (.processRecoveryQueue none []) =
        { rm with recoveryQueue := before ++ id :: queue } := by
      simp [step, RecoveryManager.processRecoveryQueue, not_le.mpr hmax, hq]
    change (upTo before).foldl step (step rm (.processRecoveryQueue none [])) = _
    rw [hdrop]
    have hrest : RecoveryManager.recoveryQueue { rm with recoveryQueue := before ++ id :: queue } =
        before ++ id :: queue := rfl
    exact ih hrest hmax

/-- What runs comes to its end, and both entries of the queue find their source. -/
theorem exists_both {q₁ q₂ q₃ : List UInt32}
    (hq : rm.recoveryQueue = q₁ ++ id :: (q₂ ++ id :: q₃))
    (hjobs : ∀ job ∈ rm.recovering, job.status ≠ .applying) (hmax : 1 < rm.maxConcurrentRecov) :
    ∃ rest : List Step, (∀ l ∈ rest, l.isRequest = false) ∧ ¬ Bounded (rest.foldl step rm) := by
  obtain ⟨ends, idle, hends, hidle, hnone, hqueue, hsame⟩ := exists_idle hjobs
  refine ⟨ends ++ upTo q₁ ++ upTo q₂, ?_, fun hbounded => ?_⟩
  · intro l hl
    rcases mem_append.mp hl with hl | hl
    · exact (mem_append.mp hl).elim (hends l) (isRequest_upTo l)
    · exact isRequest_upTo l hl
  · have hfirst : (idle.start id (q₂ ++ id :: q₃)).activeCount = 1 := activeCount_start hnone ..
    rw [foldl_append, foldl_append, hidle, foldl_upTo (hqueue.trans hq) (by omega),
      foldl_upTo rfl (by rw [hfirst]; exact hsame ▸ hmax)] at hbounded
    have hone := hbounded.1 id
    rw [running_start, running_start, if_pos rfl] at hone
    omega

/-- **However the queue is processed and the recoveries end from then on, at most one recovery runs for each
    shard, and at most as many as configured, in just the runs that ask for no shard that is still in the
    queue**, or where no two recoveries may run at all. -/
theorem recoveries_bounded_iff (max : ℤ) (ls : List Step) :
    (∀ before, before <+: ls → ∀ rm, run (fun rm l => some (step rm l)) (newRecoveryManager max) before = some rm →
      ∀ rest : List Step, (∀ l ∈ rest, l.isRequest = false) → Bounded (rest.foldl step rm)) ↔
      Along (fun rm l => some (step rm l)) Fresh (newRecoveryManager max) ls := by
  refine run_exact (Q := fun _ => True) (I := fun _ => Tidy)
    (F := fun _ rm => ∀ rest : List Step, (∀ l ∈ rest, l.isRequest = false) → Bounded (rest.foldl step rm))
    (fun _ _ => ⟨_, rfl⟩) ?_ (fun _ rm l _ h _ hl hs => Option.some.inj hs ▸ h.step hl) ?_ [] (fun _ _ => trivial)
    ⟨⟨⟨fun _ => Nat.zero_le _, Nat.zero_le _⟩, nofun⟩, .inr ⟨nodup_nil, nofun⟩⟩
  · intro _ rm h rest hrest
    induction rest generalizing rm with
    | nil => exact h.sound.1
    | cons l rest ih =>
      have hl : Fresh rm l := by
        cases l with
        | recoverShard id => exact absurd (hrest _ mem_cons_self) (by simp [Step.isRequest])
        | _ => trivial
      exact ih (step rm l) (h.step hl) fun l' hl' => hrest l' (mem_cons_of_mem l hl')
  · rintro - rm l rm' h - hl hs hbounded
    cases hs
    cases l with
    | recoverShard id =>
      obtain ⟨hmax, hid⟩ := not_or.mp hl
      rw [not_not] at hid
      have hout := (h.queue.resolve_left hmax).2
      have hnone : ¬ rm.recovering.any (fun job => job.listed && job.shardID == id) := by
        rw [any_eq_true]
        rintro ⟨job, hjob, hlisted⟩
        rw [Bool.and_eq_true, beq_iff_eq] at hlisted
        exact hout job hjob hlisted.1 (hlisted.2 ▸ hid)
      obtain ⟨q₁, q₂, hq⟩ := append_of_mem hid
      rw [step, RecoveryManager.recoverShard, if_neg hnone] at hbounded
      have hboth : RecoveryManager.recoveryQueue { rm with recoveryQueue := rm.recoveryQueue ++ [id] } =
          q₁ ++ id :: (q₂ ++ id :: []) := by
        rw [hq, append_assoc, cons_append]
      obtain ⟨rest, hrest, hnot⟩ := exists_both hboth (fun job hjob => (h.sound.2 job hjob).1) (not_le.mp hmax)
      exact hnot (hbounded rest hrest)
    | _ => exact hl trivial

end Bounds

/-- A shard that is asked for twice is recovered by two goroutines. -/
theorem shard_recovered_twice :
    ∃ shard nodes, (run (fun rm l => some (step rm l)) (newRecoveryManager 2) [.recoverShard 0, .recoverShard 0,
      .processRecoveryQueue (some shard) nodes, .processRecoveryQueue (some shard) nodes]).any
        (fun rm => rm.running (·.shardID = 0) = 2) = true :=
  ⟨⟨0, [1], []⟩, [⟨[1], .active⟩], by decide⟩

/-! ## What becomes of a request -/

def trace (max : ℤ) (ls : ℕ → Step) : ℕ → RecoveryManager
  | 0 => newRecoveryManager max
  | n + 1 => step (trace max ls n) (ls n)

def Accepts (rm : RecoveryManager) (id : UInt32) : Prop := (rm.recoverShard id).isOk

def Done (rm : RecoveryManager) (id : UInt32) : Prop :=
  ∃ job ∈ rm.recovering, job.listed ∧ job.shardID = id ∧ (job.status = .complete ∨ job.status = .failed)

/-- A shard that was accepted is done at some later time, and is accepted again when it is done. -/
def Served (max : ℤ) (ls : ℕ → Step) : Prop :=
  (∀ n id, ls n = .recoverShard id → Accepts (trace max ls n) id → ∃ m, n < m ∧ Done (trace max ls m) id) ∧
    ∀ n id, Done (trace max ls n) id → Accepts (trace max ls n) id

theorem Done.not_accepts {rm : RecoveryManager} : Done rm id → ¬ Accepts rm id := by
  rintro ⟨job, hjob, hlisted, hid, -⟩
  have hany : rm.recovering.any (fun job => job.listed && job.shardID == id) :=
    any_eq_true.mpr ⟨job, hjob, by simp [hlisted, hid]⟩
  simp [Accepts, RecoveryManager.recoverShard, hany, Except.isOk, Except.toBool]

/-- **Requests are served in just the runs that have none**: the first one is accepted, and the table
    keeps its job for ever. -/
theorem served_iff (max : ℤ) (ls : ℕ → Step) : Served max ls ↔ ∀ n id, ls n ≠ .recoverShard id := by
  have hnew : (∀ n id, ls n = .recoverShard id → ¬ Accepts (trace max ls n) id) →
      ∀ n, trace max ls n = newRecoveryManager max := by
    intro hno n
    induction n with
    | zero => rfl
    | succ n ih =>
      rw [trace]
      cases hl : ls n with
      | recoverShard id => exact absurd (ih ▸ rfl) (hno n id hl)
      | processRecoveryQueue shard nodes =>
        rw [ih, step, RecoveryManager.processRecoveryQueue]
        split_ifs <;> rfl
      | ended k failed => rw [ih]; rfl
  constructor
  · rintro ⟨hdone, hagain⟩ n id hl
    have hno : ∀ n id, ls n = .recoverShard id → ¬ Accepts (trace max ls n) id := by
      intro n id hl hacc
      obtain ⟨m, -, hm⟩ := hdone n id hl hacc
      exact hm.not_accepts (hagain m id hm)
    exact hno n id hl (hnew hno n ▸ rfl)
  · intro hno
    refine ⟨fun n id hl => absurd hl (hno n id), fun n id hdone => ?_⟩
    rw [hnew fun n id hl => absurd hl (hno n id)]
    rfl

/-- The queue is processed again and again, and every recovery ends. -/
def Fair (max : ℤ) (ls : ℕ → Step) : Prop :=
  (∀ n, ∃ m, n ≤ m ∧ ∃ shard nodes, ls m = .processRecoveryQueue shard nodes) ∧
    ∀ n, ∀ job ∈ (trace max ls n).recovering, job.status = .streaming →
      ∃ m, ∃ job' ∈ (trace max ls m).recovering, job'.number = job.number ∧ job'.status ≠ .streaming

/-- A request that finds no source is forgotten. -/
theorem request_forgotten : ∃ ls, Fair 1 ls ∧ ¬ Served 1 ls := by
  refine ⟨fun n => if n = 0 then .recoverShard 0 else .processRecoveryQueue none [], ?_⟩
  set ls : ℕ → Step := fun n => if n = 0 then .recoverShard 0 else .processRecoveryQueue none []
  have hnone : ∀ n, (trace 1 ls n).recovering = [] := by
    intro n
    induction n with
    | zero => rfl
    | succ n ih =>
      cases n with
      | zero => rfl
      | succ n =>
        change ((trace 1 ls (n + 1)).processRecoveryQueue none []).recovering = []
        rw [RecoveryManager.processRecoveryQueue]
        split_ifs
        · exact ih
        · split <;> exact ih
  refine ⟨⟨fun n => ⟨n + 1, n.le_succ, none, [], rfl⟩, fun n job hjob => ?_⟩, fun hserved => ?_⟩
  · rw [hnone] at hjob
    cases hjob
  · obtain ⟨m, -, job, hjob, -⟩ := hserved.1 0 0 rfl rfl
    rw [hnone] at hjob
    cases hjob

end LimyeDB.Recovery
