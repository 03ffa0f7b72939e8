/-
  LOCKS TAKEN AGAIN. A call is the list of its operations on the RWMutex of its object, beside at most one
  writer call. A call that asks again for a lock it holds never returns once a writer waits.

  Main result: `returns_iff`, which calls return beside which writer.
-/
import LimyeDB.Lib.Runs

namespace LimyeDB.Relock

open List Lib.Runs

/-- `Lock` first closes the door to readers and other writers, then waits for the readers inside. -/
inductive Op where
  | rLock
  | rUnlock
  | announce
  | acquire
  | unlock
  deriving DecidableEq, Repr

structure State where
  readers : ℕ
  writer : Bool
  call : List Op
  other : List Op

/-- `none`: it has to wait. -/
def State.op (s : State) : Op → Option State
  | .rLock => if s.writer then none else some { s with readers := s.readers + 1 }
  | .rUnlock => some { s with readers := s.readers - 1 }
  | .announce => if s.writer then none else some { s with writer := true }
  | .acquire => if s.readers = 0 then some s else none
  | .unlock => some { s with writer := false }

/-- A step of the call, or of the other one. -/
def step (s : State) : Bool → Option State
  | true => s.call.head?.bind fun op => ({ s with call := s.call.tail }).op op
  | false => s.other.head?.bind fun op => ({ s with other := s.other.tail }).op op

/-- Whatever the interleaving, someone can go on until both calls have returned. -/
def Returns (call other : List Op) : Prop :=
  ∀ acts s, run step ⟨0, false, call, other⟩ acts = some s →
    (s.call = [] ∧ s.other = []) ∨ ∃ who, step s who ≠ none

/-! ## The calls -/

def read (body : List Op) : List Op := .rLock :: (body ++ [.rUnlock])

def write (body : List Op) : List Op := .announce :: .acquire :: (body ++ [.unlock])

/-- Reads (`false`) and writes (`true`) one after another. -/
def sections : List Bool → List Op
  | [] => []
  | w :: ws => (if w then write [] else read []) ++ sections ws

def searchBoundingBox : List Op := read []

def searchPolygon : List Op := read searchBoundingBox

def search : List Op := read []

/-- The searches made, up to the first that fails. -/
def hybridSearch (searches : ℕ) : List Op := read (replicate searches search).flatten

def computeMedoid : List Op := read []

/-- For each vector: reading it, BeamSearch, one of the prunings, and the reverse edges. -/
def pass (vectors : ℕ) : List Op :=
  sections (replicate vectors [false, false, true, true]).flatten ++ write computeMedoid

def buildIndex (vectors ids : ℕ) (dimensions : Bool) (passes : ℕ) : List Op :=
  if vectors ≠ ids ∨ vectors = 0 then []
  else if !dimensions then write []
  else write [] ++ (replicate passes (pass vectors)).flatten

/-- No call; Add, Remove and Insert under one lock; Insert and IncrementalInsert, which may also end early. -/
def writers : List (List Bool) :=
  [[], [true], [true, true], [true, false, true, true], [true, true, false, true, true]]

/-! ## Which return -/

/-- All interleavings of the next `n` operations. -/
def clear : ℕ → State → Bool
  | 0, s => s.call.isEmpty && s.other.isEmpty
  | n + 1, s => ((step s true).isSome || (step s false).isSome) && (step s true).all (clear n) &&
      (step s false).all (clear n)

theorem returns_of_clear {n : ℕ} {s t : State} (h : clear n s = true) {acts : List Bool}
    (ht : run step s acts = some t) : (t.call = [] ∧ t.other = []) ∨ ∃ who, step t who ≠ none := by
  induction n generalizing s acts with
  | zero =>
    simp only [clear, Bool.and_eq_true, List.isEmpty_iff] at h
    cases acts with
    | nil =>
      cases ht
      exact .inl h
    | cons who acts => cases who <;> simp [run, step, h] at ht
  | succ n ih =>
    simp only [clear, Bool.and_eq_true, Bool.or_eq_true, Option.all_eq_true] at h
    cases acts with
    | nil =>
      cases ht
      exact .inr (h.1.1.elim (fun h => ⟨true, Option.isSome_iff_ne_none.mp h⟩)
        fun h => ⟨false, Option.isSome_iff_ne_none.mp h⟩)
    | cons who acts =>
      obtain ⟨u, hu, hrun⟩ := run_cons.mp ht
      cases who
      · exact ih (h.2 u hu) hrun
      · exact ih (h.1.2 u hu) hrun

/-- A writer comes between the two locks. -/
theorem reread_stuck (ops : List Op) (ws : List Bool) :
    ¬ Returns (.rLock :: .rLock :: ops) (sections (true :: ws)) := by
  intro h
  have hrun : run step ⟨0, false, .rLock :: .rLock :: ops, sections (true :: ws)⟩ [true, false] =
    some ⟨1, true, .rLock :: ops, .acquire :: .unlock :: sections ws⟩ := rfl
  have hstuck := h _ _ hrun
  simp [step, State.op] at hstuck

/-- Readers alone never wait. -/
theorem readers_return {call : List Op} (hcall : ∀ op ∈ call, op = .rLock ∨ op = .rUnlock) : Returns call [] := by
  intro acts s hrun
  have hinv : s.writer = false ∧ s.other = [] ∧ ∀ op ∈ s.call, op = .rLock ∨ op = .rUnlock := by
    refine run_induct (I := fun s : State => s.writer = false ∧ s.other = [] ∧
      ∀ op ∈ s.call, op = .rLock ∨ op = .rUnlock) ?_ ⟨rfl, rfl, hcall⟩ hrun
    rintro ⟨readers, writer, call, other⟩ who s' ⟨rfl, rfl, hops⟩ hs
    cases who with
    | false => cases hs
    | true =>
      cases call with
      | nil => cases hs
      | cons op call =>
        have hrest : ∀ op ∈ call, op = .rLock ∨ op = .rUnlock := fun o ho => hops o (mem_cons_of_mem op ho)
        rcases hops op mem_cons_self with rfl | rfl <;> cases hs <;> exact ⟨rfl, rfl, hrest⟩
  obtain ⟨readers, writer, call, other⟩ := s
  obtain ⟨rfl, rfl, hops⟩ := hinv
  cases call with
  | nil => exact .inl ⟨rfl, rfl⟩
  | cons op call =>
    refine .inr ⟨true, ?_⟩
    rcases hops op mem_cons_self with rfl | rfl <;> exact nofun

theorem run_sections (ws : List Bool) (call other : List Op) :
    run step ⟨0, false, sections ws ++ call, other⟩ (replicate (sections ws).length true) =
      some ⟨0, false, call, other⟩ := by
  induction ws with
  | nil => rfl
  | cons w ws ih =>
    cases w
    · exact ih
    · exact ih

/-- No other call is needed: the writer asks to read. -/
theorem medoid_stuck (ws : List Bool) (hws : ws ∈ writers) (before : List Bool) (ops : List Op) :
    ¬ Returns (sections before ++ (write computeMedoid ++ ops)) (sections ws) := by
  intro h
  have hrun : run step ⟨0, false, write computeMedoid ++ ops, sections ws⟩ [true, true] =
    some ⟨0, true, .rLock :: .rUnlock :: .unlock :: ops, sections ws⟩ := rfl
  have hstuck := h _ _ (run_append.mpr ⟨_, run_sections before _ _, hrun⟩)
  simp only [writers, mem_cons, not_mem_nil, or_false] at hws
  rcases hws with rfl | rfl | rfl | rfl | rfl <;> simp [step, State.op, sections, write] at hstuck

theorem begins_writing {ws : List Bool} (hws : ws ∈ writers) (hne : ws ≠ []) : ∃ rest, ws = true :: rest := by
  simp only [writers, mem_cons, not_mem_nil, or_false] at hws
  rcases hws with rfl | rfl | rfl | rfl | rfl
  · exact absurd rfl hne
  all_goals exact ⟨_, rfl⟩

theorem reads_return_iff {ws : List Bool} (hws : ws ∈ writers) (searches : ℕ) :
    Returns (hybridSearch searches) (sections ws) ↔ ws = [] ∨ searches = 0 := by
  constructor
  · intro h
    by_contra! hnot
    obtain ⟨rest, rfl⟩ := begins_writing hws hnot.1
    obtain ⟨n, rfl⟩ := Nat.exists_eq_succ_of_ne_zero hnot.2
    exact reread_stuck _ rest h
  · rintro (rfl | rfl)
    · refine readers_return fun op hop => ?_
      simp only [hybridSearch, read, search, mem_cons, mem_append, mem_flatten, mem_replicate] at hop
      grind
    · have hclear : ∀ ws ∈ writers, clear (2 + (sections ws).length) ⟨0, false, read [], sections ws⟩ = true := by
        decide +kernel
      exact fun acts s hs => returns_of_clear (hclear ws hws) hs

/-- **Which calls return beside which writer**: SearchPolygon beside none, HybridSearch beside none or with
    nothing to search for, and BuildIndex, beside any or none, where it makes no pass. -/
theorem returns_iff (ws : List Bool) (hws : ws ∈ writers) (searches vectors ids : ℕ) (dimensions : Bool)
    (passes : ℕ) :
    (Returns searchPolygon (sections ws) ↔ ws = []) ∧
    (Returns (hybridSearch searches) (sections ws) ↔ ws = [] ∨ searches = 0) ∧
    (Returns (buildIndex vectors ids dimensions passes) (sections ws) ↔
      vectors ≠ ids ∨ vectors = 0 ∨ dimensions = false ∨ passes = 0) := by
  have hflat : ∀ call ∈ [[], write []], Returns call (sections ws) := by
    have hclear : ∀ call ∈ [[], write []], ∀ ws ∈ writers,
        clear (call.length + (sections ws).length) ⟨0, false, call, sections ws⟩ = true := by
      decide +kernel
    exact fun call hcall acts s hs => returns_of_clear (hclear call hcall ws hws) hs
  refine ⟨(reads_return_iff hws 1).trans (or_iff_left one_ne_zero), reads_return_iff hws searches, ?_⟩
  unfold buildIndex
  split_ifs with hempty hdim
  · exact iff_of_true (hflat _ (by decide)) (hempty.imp_right .inl)
  · exact iff_of_true (hflat _ (by decide)) (by simp_all)
  · cases passes with
    | zero => exact iff_of_true (hflat (write []) (by decide)) (by simp)
    | succ n =>
      refine iff_of_false (fun h => ?_) (by simp_all; omega)
      rw [replicate_succ, flatten_cons, pass, append_assoc] at h
      exact medoid_stuck ws hws (true :: (replicate vectors [false, false, true, true]).flatten) _ h

theorem returns_iff_insert : ¬ Returns (hybridSearch 2) (sections [true, true]) ∧ Returns (hybridSearch 2) [] :=
  ⟨fun h => by simpa using (returns_iff [true, true] (by decide) 2 1 1 true 0).2.1.mp h,
    (returns_iff [] (by decide) 2 1 1 true 0).2.1.mpr (.inl rfl)⟩

/-- A writer between the two locks, and no writer at all. -/
theorem relock_stuck : ¬ Returns searchPolygon (sections [true]) ∧ ¬ Returns (buildIndex 1 1 true 2) [] :=
  ⟨reread_stuck _ [], medoid_stuck [] (by decide) [true, false, false, true, true] _⟩

end LimyeDB.Relock
