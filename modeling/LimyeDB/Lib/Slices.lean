/-
  SLICES THAT SHARE ARRAYS, over any type of elements.

  A heap is a list of arrays, each as long as it was made; a pointer is a place in one of them and a slice the
  first elements of one.
-/
import Mathlib

namespace LimyeDB.Lib.Slices

open List

variable {α : Type}

/-! ## Heap, pointers, slices -/

abbrev Heap (α : Type) := List (List α)

structure Slot where
  array : Nat
  index : Nat
  deriving DecidableEq, Repr

structure Slice where
  array : Nat
  len   : Nat
  deriving DecidableEq, Repr

variable {h : Heap α}

namespace Heap

def array (h : Heap α) (n : Nat) : List α := h[n]?.getD []

def read (h : Heap α) (p : Slot) : Option α := (h.array p.array)[p.index]?

def write (h : Heap α) (p : Slot) (a : α) : Heap α := h.set p.array ((h.array p.array).set p.index a)

def alloc (h : Heap α) (as : List α) : Heap α × Slot := (h ++ [as], ⟨h.length, 0⟩)

theorem array_set {n : Nat} (hn : n < h.length) (as : List α) (m : Nat) :
    array (h.set n as) m = if m = n then as else h.array m := by
  unfold array
  by_cases hmn : m = n
  · simp [hmn, hn]
  · simp [hmn, Ne.symm hmn]

theorem array_concat (h : Heap α) (as : List α) (m : Nat) :
    array (h ++ [as]) m = if m = h.length then as else h.array m := by
  unfold array
  by_cases hm : m = h.length
  · simp [hm]
  · rw [if_neg hm]
    rcases Nat.lt_or_gt_of_ne hm with hlt | hgt
    · rw [getElem?_append_left hlt]
    · rw [getElem?_eq_none (by simp; omega), getElem?_eq_none (by omega)]

theorem read_alloc (h : Heap α) (as : List α) (p : Slot) :
    read (h ++ [as]) p = if p.array = h.length then as[p.index]? else h.read p := by
  unfold read
  rw [array_concat]
  split <;> rfl

theorem lt_length_of_read {p : Slot} {a : α} (hp : h.read p = some a) :
    p.array < h.length := by
  by_contra hge
  have hnone : h[p.array]? = none := getElem?_eq_none (Nat.le_of_not_lt hge)
  simp [read, array, hnone] at hp

end Heap

namespace Slice

def elems (h : Heap α) (s : Slice) : List α := (h.array s.array).take s.len

def cap (h : Heap α) (s : Slice) : Nat := (h.array s.array).length

structure Fits (h : Heap α) (s : Slice) : Prop where
  array : s.array < h.length
  len   : s.len ≤ s.cap h

variable {s : Slice}

theorem Fits.length_elems (hs : s.Fits h) : (s.elems h).length = s.len := by
  rw [elems, length_take]
  exact Nat.min_eq_left hs.len

theorem elems_getElem? {i : Nat} (hi : i < s.len) :
    (s.elems h)[i]? = h.read ⟨s.array, i⟩ := by
  rw [elems, getElem?_take_of_lt hi, Heap.read]

theorem Fits.concat (hs : s.Fits h) (as : List α) : s.Fits (h ++ [as]) := by
  refine ⟨by simpa using Nat.lt_succ_of_lt hs.array, ?_⟩
  rw [cap, Heap.array_concat, if_neg (Nat.ne_of_lt hs.array)]
  exact hs.len

theorem cap_concat (hs : s.array < h.length) (as : List α) :
    s.cap (h ++ [as]) = s.cap h := by
  rw [cap, Heap.array_concat, if_neg (Nat.ne_of_lt hs), cap]

theorem elems_concat (hs : s.array < h.length) (as : List α) :
    s.elems (h ++ [as]) = s.elems h := by
  rw [elems, Heap.array_concat, if_neg (Nat.ne_of_lt hs), elems]

end Slice

/-! ## Append -/

/-- Where the array has room, in place; otherwise in a new array with `spare` places more. -/
def append (zero : α) (spare : Nat → Nat) (h : Heap α) (s : Slice) (a : α) : Heap α × Slice :=
  if s.len < s.cap h then (h.write ⟨s.array, s.len⟩ a, ⟨s.array, s.len + 1⟩)
  else (h ++ [s.elems h ++ a :: replicate (spare s.len) zero], ⟨h.length, s.len + 1⟩)

variable {zero : α} {spare : Nat → Nat} {h : Heap α} {s : Slice}

theorem append_fits (hs : s.Fits h) (a : α) :
    (append zero spare h s a).2.Fits (append zero spare h s a).1 := by
  unfold append
  split
  case isTrue hroom =>
    refine ⟨by simpa [Heap.write] using hs.array, ?_⟩
    show s.len + 1 ≤ (Heap.array (h.set _ _) _).length
    rw [Heap.array_set hs.array, if_pos rfl, length_set]
    exact hroom
  case isFalse hroom =>
    refine ⟨by simp, ?_⟩
    show s.len + 1 ≤ (Heap.array (h ++ [_]) _).length
    rw [Heap.array_concat, if_pos rfl]
    simp [hs.length_elems]

theorem append_elems (hs : s.Fits h) (a : α) :
    (append zero spare h s a).2.elems (append zero spare h s a).1 = s.elems h ++ [a] := by
  unfold append
  split
  case isTrue hroom =>
    have hlen : s.len < (h.array s.array).length := hroom
    show (Heap.array (h.set _ _) _).take (s.len + 1) = _
    rw [Heap.array_set hs.array, if_pos rfl, take_add_one, take_set_of_le (Nat.le_refl _)]
    simp [Slice.elems, hlen]
  case isFalse hroom =>
    show (Heap.array (h ++ [_]) _).take (s.len + 1) = _
    rw [Heap.array_concat, if_pos rfl, ← hs.length_elems]
    simp [take_append]

/-- **What a pointer reads after an append**: the new element at the end of a slice with room, what it read
    before otherwise. -/
theorem read_append (hs : s.Fits h) (a : α) {p : Slot} (hp : p.array < h.length) :
    (append zero spare h s a).1.read p =
      if s.len < s.cap h ∧ p = ⟨s.array, s.len⟩ then some a else h.read p := by
  unfold append
  split
  case isTrue hroom =>
    have hlen : s.len < (h.array s.array).length := hroom
    show Heap.read (h.set _ _) p = _
    unfold Heap.read
    rw [Heap.array_set hs.array]
    by_cases harray : p.array = s.array
    · rw [if_pos harray, getElem?_set]
      by_cases hindex : p.index = s.len
      · have heq : p = ⟨s.array, s.len⟩ := by
          cases p
          simp_all
        rw [if_pos hindex.symm, if_pos hlen, if_pos ⟨hroom, heq⟩]
      · rw [if_neg (Ne.symm hindex), if_neg (fun hand => hindex (congrArg Slot.index hand.2)), harray]
    · rw [if_neg harray, if_neg (fun hand => harray (congrArg Slot.array hand.2))]
  case isFalse hroom =>
    rw [if_neg (fun hand => hroom hand.1)]
    exact (Heap.read_alloc ..).trans (if_neg (Nat.ne_of_lt hp))

/-! ## Keeping some of the elements, in place -/

/-- The elements to keep are appended one after the other to an empty slice of the same array. -/
def filterInPlace (zero : α) (spare : Nat → Nat) (keep : α → Bool) (h : Heap α) (s : Slice) :
    Heap α × Slice :=
  (range s.len).foldl
    (fun st i =>
      match st.1.read ⟨s.array, i⟩ with
      | some a => if keep a then append zero spare st.1 st.2 a else st
      | none => st)
    (h, ⟨s.array, 0⟩)

def overwrite (kept as : List α) : List α := kept ++ as.drop kept.length

theorem overwrite_getElem? (kept as : List α) (i : Nat) :
    (overwrite kept as)[i]? = if i < kept.length then kept[i]? else as[i]? := by
  unfold overwrite
  split
  case isTrue hi => exact getElem?_append_left hi
  case isFalse hi =>
    rw [getElem?_append_right (Nat.le_of_not_lt hi), getElem?_drop]
    congr 1
    omega

theorem overwrite_set {kept as : List α} (hlen : kept.length < as.length) (a : α) :
    (overwrite kept as).set kept.length a = overwrite (kept ++ [a]) as := by
  have hdrop : as.drop kept.length = as[kept.length] :: as.drop (kept.length + 1) :=
    drop_eq_getElem_cons hlen
  rw [overwrite, set_append_right _ _ (Nat.le_refl _), Nat.sub_self, hdrop, set_cons_zero]
  simp [overwrite]

/-- **The loop**: after `i` of the elements, those to keep are at the start of the array. -/
theorem filterInPlace_loop (keep : α → Bool) (hs : s.Fits h) {i : Nat} (hi : i ≤ s.len) :
    (range i).foldl
        (fun st i =>
          match st.1.read ⟨s.array, i⟩ with
          | some a => if keep a then append zero spare st.1 st.2 a else st
          | none => st)
        (h, ⟨s.array, 0⟩) =
      (h.set s.array (overwrite (((h.array s.array).take i).filter keep) (h.array s.array)),
        ⟨s.array, (((h.array s.array).take i).filter keep).length⟩) := by
  induction i with
  | zero =>
    have hset : h.set s.array (h.array s.array) = h := by
      simp [Heap.array, hs.array]
    simp [overwrite, hset]
  | succ i ih =>
    rw [range_succ, foldl_append, ih (Nat.le_of_succ_le hi)]
    have hlen : i < (h.array s.array).length := Nat.lt_of_lt_of_le hi hs.len
    have hkept : (((h.array s.array).take i).filter keep).length ≤ i :=
      le_trans (length_filter_le ..) (by simp)
    generalize hk : ((h.array s.array).take i).filter keep = kept at hkept
    have hread : Heap.read (h.set s.array (overwrite kept (h.array s.array))) ⟨s.array, i⟩ =
        some (h.array s.array)[i] := by
      unfold Heap.read
      rw [Heap.array_set hs.array, if_pos rfl, overwrite_getElem?, if_neg (Nat.not_lt.mpr hkept)]
      exact getElem?_eq_getElem hlen
    have htake : ((h.array s.array).take (i + 1)).filter keep =
        if keep (h.array s.array)[i] then kept ++ [(h.array s.array)[i]] else kept := by
      rw [take_add_one, getElem?_eq_getElem hlen, filter_append, hk]
      by_cases hkeep : keep (h.array s.array)[i] <;> simp [hkeep]
    simp only [foldl_cons, foldl_nil, hread, htake]
    by_cases hkeep : keep (h.array s.array)[i] = true
    · have hroom : kept.length < (overwrite kept (h.array s.array)).length := by
        simp [overwrite]
        omega
      simp only [hkeep, if_true]
      unfold append
      rw [if_pos (by rw [Slice.cap, Heap.array_set hs.array, if_pos rfl]; exact hroom)]
      simp only [Heap.write, Heap.array_set hs.array, if_true, set_set, length_append,
        length_singleton, Prod.mk.injEq, and_true]
      rw [overwrite_set (Nat.lt_of_le_of_lt hkept hlen)]
    · simp [hkeep]

/-- **What is left in the heap**: the kept elements at the start of the array, and behind them what
    stood there before. -/
theorem filterInPlace_eq (keep : α → Bool) (hs : s.Fits h) : filterInPlace zero spare keep h s =
      (h.set s.array (overwrite ((s.elems h).filter keep) (h.array s.array)),
        ⟨s.array, ((s.elems h).filter keep).length⟩) :=
  filterInPlace_loop keep hs (Nat.le_refl _)

theorem filterInPlace_elems (keep : α → Bool) (hs : s.Fits h) :
    (filterInPlace zero spare keep h s).2.elems (filterInPlace zero spare keep h s).1 =
      (s.elems h).filter keep := by
  rw [filterInPlace_eq keep hs, Slice.elems, Heap.array_set hs.array, if_pos rfl]
  simp [overwrite]

theorem filterInPlace_fits (keep : α → Bool) (hs : s.Fits h) :
    (filterInPlace zero spare keep h s).2.Fits (filterInPlace zero spare keep h s).1 := by
  rw [filterInPlace_eq keep hs]
  refine ⟨by simpa using hs.array, ?_⟩
  rw [Slice.cap, Heap.array_set hs.array, if_pos rfl]
  simp [overwrite]

/-- Where at most one element is not to keep, the others close the gap it leaves. -/
theorem filter_eq_eraseIdx {keep : α → Bool} {l : List α}
    (hone : l.Pairwise fun a b => keep a = false → keep b = true) :
    l.filter keep = l.eraseIdx (l.findIdx fun a => !keep a) := by
  induction l with
  | nil => rfl
  | cons a l ih =>
    rw [pairwise_cons] at hone
    cases hkeep : keep a with
    | true => simp [findIdx_cons, hkeep, ih hone.2]
    | false =>
      have hrest : l.filter keep = l := filter_eq_self.mpr fun b hb => hone.1 b hb hkeep
      simp [findIdx_cons, hkeep, hrest]

/-- What a pointer reads afterwards: in the slice's array the kept element of its index, if there
    are so many. -/
theorem read_filterInPlace (keep : α → Bool) (hs : s.Fits h) (p : Slot) :
    (filterInPlace zero spare keep h s).1.read p =
      if p.array = s.array ∧ p.index < ((s.elems h).filter keep).length
      then ((s.elems h).filter keep)[p.index]? else h.read p := by
  rw [filterInPlace_eq keep hs]
  unfold Heap.read
  rw [Heap.array_set hs.array]
  by_cases harray : p.array = s.array
  · simp only [harray, if_true, true_and, overwrite_getElem?]
  · simp [harray]

end LimyeDB.Lib.Slices
