/-
  THE VISITED LIST of a search: a stamp for each node, and a generation that says which stamps count. A list
  comes from a pool with the stamps of earlier searches in it.
-/
import LimyeDB.Lib.Explore

namespace LimyeDB.Graph

open Lib.Explore List
open Function (update update_self update_of_ne)

/-- The stamps (`matches`) and the current generation (`match`), a uint32. -/
structure VisitedList where
  stamps : List ℕ
  generation : ℕ
  bounded : ∀ s ∈ stamps, s ≤ generation
  fits : generation < 4294967296

namespace VisitedList

def new (size : ℕ) : VisitedList where
  stamps := replicate size 0
  generation := 0
  bounded := by
    intro s hs
    rw [eq_of_mem_replicate hs]
  fits := by decide

/-- The next generation. When the counter wraps around, the stamps are cleared. -/
def reset (v : VisitedList) : VisitedList :=
  if h : v.generation + 1 < 4294967296 then
    { stamps := v.stamps, generation := v.generation + 1,
      bounded := fun s hs => Nat.le_succ_of_le (v.bounded s hs), fits := h }
  else
    { stamps := v.stamps.map fun _ => 0, generation := 1, fits := by decide
      bounded := by
        intro s hs
        obtain ⟨-, -, rfl⟩ := mem_map.mp hs
        exact Nat.zero_le 1 }

/-- The stamps, with zeros up to twice the id if it is beyond them. -/
def grown (v : VisitedList) (id : ℕ) : List ℕ :=
  if id < v.stamps.length then v.stamps
  else v.stamps ++ replicate (id * 2 + 100 - v.stamps.length) 0

theorem grown_bounded (v : VisitedList) (id : ℕ) : ∀ s ∈ v.grown id, s ≤ v.generation := by
  intro s hs
  unfold grown at hs
  split at hs
  · exact v.bounded s hs
  · rcases mem_append.mp hs with hs | hs
    · exact v.bounded s hs
    · rw [eq_of_mem_replicate hs]
      exact Nat.zero_le _

/-- Marks the node; true if it was marked in this generation. -/
def add (v : VisitedList) (id : ℕ) : VisitedList × Bool :=
  if (v.grown id)[id]? = some v.generation then
    ({ stamps := v.grown id, generation := v.generation, bounded := v.grown_bounded id,
       fits := v.fits }, true)
  else
    ({ stamps := (v.grown id).set id v.generation, generation := v.generation, fits := v.fits
       bounded := by
        intro s hs
        rcases mem_or_eq_of_mem_set hs with hs | rfl
        · exact v.grown_bounded id s hs
        · exact le_rfl }, false)

def Represents (v : VisitedList) (set : Finset ℕ) : Prop :=
  v.generation ≠ 0 ∧ ∀ i, i ∈ set ↔ v.stamps[i]? = some v.generation

theorem reset_represents (v : VisitedList) : v.reset.Represents ∅ := by
  unfold reset
  split
  · refine ⟨Nat.succ_ne_zero _, fun i => iff_of_false (Finset.notMem_empty i) fun hi => ?_⟩
    have hle : v.generation + 1 ≤ v.generation := v.bounded _ (mem_of_getElem? hi)
    exact absurd hle (Nat.not_succ_le_self _)
  · refine ⟨Nat.one_ne_zero, fun i => iff_of_false (Finset.notMem_empty i) fun hi => ?_⟩
    rw [getElem?_map, Option.map_eq_some_iff] at hi
    obtain ⟨-, -, hzero⟩ := hi
    exact absurd hzero Nat.zero_ne_one

theorem grown_getElem? {v : VisitedList} (hgen : v.generation ≠ 0) (id i : ℕ) :
    (v.grown id)[i]? = some v.generation ↔ v.stamps[i]? = some v.generation := by
  unfold grown
  split
  · rfl
  · by_cases hi : i < v.stamps.length
    · rw [getElem?_append_left hi]
    · have hold : v.stamps[i]? = none := getElem?_eq_none (Nat.le_of_not_lt hi)
      rw [getElem?_append_right (Nat.le_of_not_lt hi), hold]
      refine iff_of_false (fun hz => hgen ?_) (by simp)
      exact eq_of_mem_replicate (mem_of_getElem? hz)

theorem length_grown (v : VisitedList) (id : ℕ) : id < (v.grown id).length := by
  unfold grown
  split
  case isTrue h => exact h
  case isFalse h =>
    rw [length_append, length_replicate]
    omega

theorem agree_mark : Agree add mark Represents := by
  intro v set id ⟨hgen, hset⟩
  have hgrown := fun i => grown_getElem? hgen id i
  unfold add mark
  by_cases hin : id ∈ set
  · have hmark := (hgrown id).mpr ((hset id).mp hin)
    rw [if_pos hmark, Finset.insert_eq_of_mem hin]
    exact ⟨(decide_eq_true hin).symm, hgen, fun i => (hset i).trans (hgrown i).symm⟩
  · have hmark : (v.grown id)[id]? ≠ some v.generation := fun h =>
      hin ((hset id).mpr ((hgrown id).mp h))
    rw [if_neg hmark]
    refine ⟨(decide_eq_false hin).symm, hgen, fun i => ?_⟩
    simp only [Finset.mem_insert, getElem?_set]
    by_cases hi : id = i
    · subst hi
      simp [length_grown v id]
    · rw [if_neg hi, hgrown i, ← hset i]
      exact ⟨fun h => h.resolve_left (Ne.symm hi), .inr⟩

theorem start_represents (v : VisitedList) (entry : ℕ) : (v.reset.add entry).1.Represents {entry} :=
  (agree_mark _ _ entry v.reset_represents).2

def contains (v : VisitedList) (id : ℕ) : Bool := decide (v.stamps[id]? = some v.generation)

/-! ## The pool -/

/-- The lists given back, and those in use with what was added since their Get. -/
structure Pool (ι : Type) where
  idle : List VisitedList
  busy : ι → Option (VisitedList × List ℕ)

/-- A Get is given the idle list at a place, or a new one; an idle list may be dropped. -/
inductive PoolAct (ι : Type) where
  | get (user : ι) (k : ℕ)
  | add (user : ι) (id : ℕ)
  | put (user : ι)
  | drop (k : ℕ)
  deriving Repr

variable {ι : Type} [DecidableEq ι]

def Pool.step (initialSize : ℕ) (s : Pool ι) : PoolAct ι → Pool ι
  | .get user k =>
    ⟨s.idle.eraseIdx k, update s.busy user (some ((s.idle.getD k (new initialSize)).reset, []))⟩
  | .add user id => (s.busy user).elim s fun (v, added) =>
    { s with busy := update s.busy user (some ((v.add id).1, id :: added)) }
  | .put user => (s.busy user).elim s fun (v, _) => ⟨v :: s.idle, update s.busy user none⟩
  | .drop k => { s with idle := s.idle.eraseIdx k }

/-- Every list in use stands for what was added in this use. -/
def Pool.Current (s : Pool ι) : Prop :=
  ∀ user, ∀ use ∈ s.busy user, use.1.Represents use.2.toFinset

theorem Pool.Current.update {s : Pool ι} (h : s.Current) {use : Option (VisitedList × List ℕ)}
    (huse : ∀ u ∈ use, u.1.Represents u.2.toFinset) (idle : List VisitedList) (user : ι) :
    Pool.Current ⟨idle, update s.busy user use⟩ := by
  intro other
  by_cases hother : other = user
  · simpa only [hother, update_self] using huse
  · simpa only [update_of_ne hother] using h other

theorem Pool.Current.step {s : Pool ι} (h : s.Current) (initialSize : ℕ) (a : PoolAct ι) :
    (s.step initialSize a).Current := by
  cases a with
  | get user k =>
    refine h.update ?_ _ user
    rintro u ⟨⟩
    exact reset_represents _
  | add user id =>
    cases huse : s.busy user with
    | none => simpa only [Pool.step, huse, Option.elim_none] using h
    | some use =>
      simp only [Pool.step, huse, Option.elim_some]
      refine h.update ?_ _ user
      rintro u ⟨⟩
      rw [toFinset_cons]
      exact (agree_mark _ _ id (h user use huse)).2
  | put user =>
    cases huse : s.busy user with
    | none => simpa only [Pool.step, huse, Option.elim_none] using h
    | some use =>
      simp only [Pool.step, huse, Option.elim_some]
      refine h.update ?_ _ user
      rintro u ⟨⟩
  | drop k => exact h

/-- **Within one use**, Add and Contains answer by what was added in this use, after any earlier ones. -/
theorem use_exact (initialSize : ℕ) (acts : List (PoolAct ι)) (user : ι) (id : ℕ) :
    let s := acts.foldl (Pool.step initialSize) ⟨[], fun _ => none⟩
    (s.busy user).map (fun use => ((use.1.add id).2, use.1.contains id)) =
      (s.busy user).map fun use => (decide (id ∈ use.2), decide (id ∈ use.2)) := by
  have hrun : ∀ {s : Pool ι}, s.Current → (acts.foldl (Pool.step initialSize) s).Current := by
    induction acts with
    | nil => exact fun h => h
    | cons a acts ih => exact fun h => ih (h.step initialSize a)
  intro s
  have hs : s.Current := hrun fun _ _ => nofun
  refine Option.map_congr fun use huse => ?_
  have hrep := hs user use huse
  have hadd := (agree_mark _ _ id hrep).1
  have hin : id ∈ use.2 ↔ use.1.stamps[id]? = some use.1.generation :=
    mem_toFinset.symm.trans (hrep.2 id)
  simp only [hadd, mark, mem_toFinset, contains, hin]

end VisitedList

end LimyeDB.Graph
