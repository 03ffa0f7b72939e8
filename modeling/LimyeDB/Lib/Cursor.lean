/-
  PAGES OF A LIST BY A CURSOR, over any elements: each page begins behind the element that the one before
  ended with, which is looked up again in a list that may have lost elements meanwhile.

  A cursor that is gone begins at the front.
-/
import Mathlib

namespace LimyeDB.Lib.Cursor

open List

variable {α : Type} [DecidableEq α]

/-! ## Pages -/

def start (o : Option α) (l : List α) : ℕ :=
  match o with
  | none => 0
  | some x => if x ∈ l then l.idxOf x + 1 else 0

def page (limit : ℕ) (o : Option α) (l : List α) : List α := (l.drop (start o l)).take limit

def next (limit : ℕ) (o : Option α) (l : List α) : Option α :=
  if start o l + limit < l.length then (page limit o l).getLast? else none

theorem start_some (x : α) (l : List α) :
    start (some x) l = match l.findIdx? fun y => decide (y = x) with
      | some i => i + 1
      | none => 0 := by
  by_cases hx : x ∈ l
  · have hidx : l.findIdx? (fun y => decide (y = x)) = some (l.idxOf x) := by
      rw [findIdx?_eq_some_iff_findIdx_eq]
      refine ⟨idxOf_lt_length_iff.mpr hx, ?_⟩
      congr 1
    rw [hidx]
    exact if_pos hx
  · have hidx : l.findIdx? (fun y => decide (y = x)) = none := by
      rw [findIdx?_eq_none_iff]
      exact fun y hy => decide_eq_false fun h => hx (h ▸ hy)
    rw [hidx]
    exact if_neg hx

/-- The cursor stands behind the first part of the list. -/
structure Stands (o : Option α) (l front rest : List α) : Prop where
  parts : l = front ++ rest
  place : start o l = front.length

section Stands

variable {limit : ℕ} {o : Option α} {l front rest : List α} {x : α}

theorem stands_none (l : List α) : Stands none l [] l := ⟨rfl, rfl⟩

theorem stands_behind (hnodup : (front ++ x :: rest).Nodup) :
    Stands (some x) (front ++ x :: rest) (front ++ [x]) rest := by
  refine ⟨append_cons .., ?_⟩
  have hx : x ∉ front := fun h => disjoint_of_nodup_append hnodup h mem_cons_self
  simp [start, idxOf_append_of_notMem hx]

section

variable (h : Stands o l front rest)
include h

theorem Stands.page : page limit o l = rest.take limit := by
  unfold Cursor.page
  rw [h.place, h.parts, drop_left]

theorem Stands.next :
    next limit o l = if limit < rest.length then (rest.take limit).getLast? else none := by
  unfold Cursor.next
  rw [h.place, h.page, h.parts, length_append]
  simp only [Nat.add_lt_add_iff_left]

/-- **Behind a page**: its last element is the cursor, and something is left. -/
theorem Stands.more (hnext : Cursor.next limit o l = some x) :
    limit < rest.length ∧ ∃ init, rest.take limit = init ++ [x] ∧
      l = front ++ init ++ x :: rest.drop limit := by
  rw [h.next] at hnext
  split at hnext
  · rename_i hlt
    obtain ⟨init, hinit⟩ := getLast?_eq_some_iff.mp hnext
    refine ⟨hlt, init, hinit, ?_⟩
    calc l = front ++ (rest.take limit ++ rest.drop limit) := by
          rw [take_append_drop, h.parts]
      _ = front ++ init ++ x :: rest.drop limit := by simp [hinit]
  · cases hnext

theorem Stands.done (hlimit : 0 < limit)
    (hnext : Cursor.next limit o l = none) : rest.length ≤ limit := by
  rw [h.next] at hnext
  split at hnext
  · rename_i hlt
    rw [getLast?_eq_none_iff, take_eq_nil_iff] at hnext
    rcases hnext with h0 | hnil
    · omega
    · rw [hnil] at hlt
      cases hlt
  · rename_i hle
    exact Nat.le_of_not_lt hle

end

theorem last_of_next (hnext : Cursor.next limit o l = some x) :
    (Cursor.page limit o l).getLast? = some x := by
  unfold Cursor.next at hnext
  split at hnext
  · exact hnext
  · cases hnext

end Stands

/-! ## Page after page -/

/-- The pages to the end, each with the list it was cut from. Between two pages the list may become
    another one. -/
inductive Browse (limit : ℕ) (R : List α → List α → Prop) :
    List α → Option α → List (List α × List α) → Prop where
  | last {l o} (hnext : next limit o l = none) : Browse limit R l o [(l, page limit o l)]
  | more {l l' o x pages} (hnext : next limit o l = some x) (hR : R l l')
      (hrest : Browse limit R l' (some x) pages) :
      Browse limit R l o ((l, page limit o l) :: pages)

def shown (pages : List (List α × List α)) : List α := pages.flatMap Prod.snd

section Browse

variable {limit : ℕ} {R : List α → List α → Prop} {o : Option α} {l front rest : List α}

/-- **A list that stays is browsed to its end**, and every element is shown in its place. -/
theorem browse_all (hlimit : 0 < limit) (hnodup : l.Nodup) (h : Stands o l front rest) :
    ∃ pages, Browse limit Eq l o pages ∧ shown pages = rest := by
  induction hn : rest.length using Nat.strong_induction_on generalizing o front rest with
  | _ n ih =>
    cases hnext : next limit o l with
    | none =>
      refine ⟨_, .last hnext, ?_⟩
      rw [shown, flatMap_singleton, h.page]
      exact take_of_length_le (h.done hlimit hnext)
    | some x =>
      obtain ⟨hlt, init, hinit, hl⟩ := h.more hnext
      have hstands : Stands (some x) l (front ++ init ++ [x]) (rest.drop limit) := by
        rw [hl] at hnodup ⊢
        exact stands_behind hnodup
      obtain ⟨pages, hpages, hshown⟩ := ih (rest.drop limit).length
        (by rw [length_drop]; omega) hstands rfl
      refine ⟨_, .more hnext rfl hpages, ?_⟩
      rw [shown, flatMap_cons, h.page]
      show rest.take limit ++ shown pages = rest
      rw [hshown, take_append_drop]

end Browse

/-! ## A list that shrinks -/

def Shrinks (l l' : List α) : Prop := ∃ keep : α → Bool, l' = l.filter keep

omit [DecidableEq α] in
theorem Shrinks.refl (l : List α) : Shrinks l l :=
  ⟨fun _ => true, (filter_true l).symm⟩

omit [DecidableEq α] in
theorem Shrinks.trans {l l' l'' : List α} (h : Shrinks l l') (h' : Shrinks l' l'') :
    Shrinks l l'' := by
  obtain ⟨keep, rfl⟩ := h
  obtain ⟨keep', rfl⟩ := h'
  exact ⟨fun x => keep' x && keep x, filter_filter⟩

/-- At every page but the first, the one that the page before ended with is in the list, or none
    that was seen is. -/
def Steady : List α → List (List α × List α) → Prop
  | _, [] => True
  | _, [_] => True
  | seen, (_, shown) :: (l', shown') :: pages =>
    ((∃ x ∈ shown.getLast?, x ∈ l') ∨ ∀ x ∈ seen ++ shown, x ∉ l') ∧
      Steady (seen ++ shown) ((l', shown') :: pages)

/-- Nothing twice, nothing of what was seen, and all the rest that was there all the time. -/
structure Once (seen rest : List α) (pages : List (List α × List α)) : Prop where
  nodup : (shown pages).Nodup
  fresh : ∀ x ∈ seen, x ∉ shown pages
  whole : ∀ x ∈ rest, (∀ e ∈ pages, x ∈ e.1) → x ∈ shown pages

section Shrink

variable {limit : ℕ} {o : Option α} {l front rest seen : List α} {x : α}

variable {pages : List (List α × List α)}

theorem Browse.head {R : List α → List α → Prop} (hb : Browse limit R l o pages) :
    ∃ pages', pages = (l, page limit o l) :: pages' := by
  cases hb with
  | last => exact ⟨[], rfl⟩
  | more => exact ⟨_, rfl⟩

/-- The cursor behind a page stands behind what is left of the part before, or it is gone and the list begins
    anew. -/
theorem stands_kept (keep : α → Bool) {init : List α}
    (hnodup : (front ++ init ++ x :: rest).Nodup) :
    x ∈ (front ++ init ++ x :: rest).filter keep ∧
      Stands (some x) ((front ++ init ++ x :: rest).filter keep)
        ((front ++ (init ++ [x])).filter keep) (rest.filter keep) ∨
    x ∉ (front ++ init ++ x :: rest).filter keep ∧
      Stands (some x) ((front ++ init ++ x :: rest).filter keep) []
        ((front ++ (init ++ [x])).filter keep ++ rest.filter keep) := by
  have hparts : (front ++ init ++ x :: rest).filter keep =
      (front ++ (init ++ [x])).filter keep ++ rest.filter keep := by
    rw [← filter_append]
    simp
  by_cases hx : x ∈ (front ++ init ++ x :: rest).filter keep
  · refine .inl ⟨hx, hparts, ?_⟩
    have hkeep : keep x = true := (mem_filter.mp hx).2
    have hsplit : (front ++ init ++ x :: rest).filter keep =
        (front ++ init).filter keep ++ x :: rest.filter keep := by
      rw [filter_append, filter_cons_of_pos hkeep]
    rw [hsplit, (stands_behind (hsplit ▸ hnodup.filter keep)).place]
    simp [hkeep]
  · exact .inr ⟨hx, hparts, if_neg hx⟩

/-- A page more in front: what it shows counts as seen behind it. -/
theorem once_cons {l' shownNow : List α} (hnow : rest.take limit = shownNow)
    (hl : ∀ x ∈ rest, x ∈ l) (hnodup : rest.Nodup) (hseen : ∀ x ∈ seen, x ∉ rest)
    (hrest : ∀ x ∈ rest.drop limit, (∀ e ∈ pages, x ∈ e.1) → x ∈ l') :
    Once seen rest ((l, shownNow) :: pages) ↔
      Once (seen ++ shownNow) ((rest.drop limit).filter (· ∈ l')) pages := by
  subst hnow
  have hshown : shown ((l, rest.take limit) :: pages) = rest.take limit ++ shown pages := rfl
  have hdisj : ∀ x ∈ rest.drop limit, x ∉ rest.take limit := fun x hx hx' =>
    disjoint_take_drop hnodup le_rfl hx' hx
  constructor
  · intro h
    have happ := h.nodup
    rw [hshown, nodup_append] at happ
    refine ⟨happ.2.1, fun x hx hmem => ?_, fun x hx hall => ?_⟩
    · rcases mem_append.mp hx with hx | hx
      · exact h.fresh x hx (hshown ▸ mem_append_right _ hmem)
      · exact happ.2.2 x hx x hmem rfl
    · have hx' := mem_of_mem_filter hx
      have hmem := h.whole x (mem_of_mem_drop hx')
        (forall_mem_cons.mpr ⟨hl x (mem_of_mem_drop hx'), hall⟩)
      rw [hshown, mem_append] at hmem
      exact hmem.resolve_left (hdisj x hx')
  · intro h
    refine ⟨?_, fun x hx hmem => ?_, fun x hx hall => ?_⟩
    · rw [hshown, nodup_append]
      refine ⟨hnodup.sublist (take_sublist ..), h.nodup, fun x hx y hy hxy => ?_⟩
      subst hxy
      exact h.fresh x (mem_append_right _ hx) hy
    · rw [hshown, mem_append] at hmem
      rcases hmem with hmem | hmem
      · exact hseen x hx (mem_of_mem_take hmem)
      · exact h.fresh x (mem_append_left _ hx) hmem
    · rw [hshown, mem_append]
      by_cases htake : x ∈ rest.take limit
      · exact .inl htake
      · have hdrop : x ∈ rest.drop limit := by
          rw [← take_append_drop limit rest, mem_append] at hx
          exact hx.resolve_left htake
        have hall' := (forall_mem_cons.mp hall).2
        exact .inr (h.whole x (mem_filter.mpr ⟨hdrop, decide_eq_true (hrest x hdrop hall')⟩) hall')

variable (hlimit : 0 < limit)
include hlimit

/-- A cursor that is gone while something seen is left: the page begins with it. -/
theorem not_once_of_left {left : List α} (hb : Browse limit Shrinks l o pages)
    (h : Stands o l [] (left ++ rest)) (hne : left ≠ []) (hleft : ∀ x ∈ left, x ∈ seen) :
    ¬ Once seen rest pages := by
  intro honce
  obtain ⟨y, left, rfl⟩ := exists_cons_of_ne_nil hne
  obtain ⟨pages, rfl⟩ := hb.head
  refine honce.fresh y (hleft y mem_cons_self) ?_
  rw [shown, flatMap_cons, h.page]
  obtain ⟨n, rfl⟩ := Nat.exists_eq_succ_of_ne_zero hlimit.ne'
  exact mem_append_left _ mem_cons_self

theorem Browse.once_iff_steady (hb : Browse limit Shrinks l o pages)
    (hnodup : l.Nodup) (h : Stands o l front rest) (hfront : ∀ x ∈ front, x ∈ seen)
    (hseen : ∀ x ∈ seen, x ∉ rest) : Once seen rest pages ↔ Steady seen pages := by
  induction hb generalizing front rest seen with
  | @last l o hnext =>
    refine iff_of_true ?_ trivial
    have hshown : shown [(l, page limit o l)] = rest := by
      rw [shown, flatMap_singleton, h.page]
      exact take_of_length_le (h.done hlimit hnext)
    rw [h.parts] at hnodup
    exact ⟨hshown ▸ (nodup_append.mp hnodup).2.1, hshown ▸ hseen, fun x hx _ => hshown ▸ hx⟩
  | @more l l' o x pages hnext hR hrest ih =>
    obtain ⟨keep, rfl⟩ := hR
    obtain ⟨-, init, hinit, hl⟩ := h.more hnext
    obtain ⟨pages, rfl⟩ := hrest.head
    have hrestl : ∀ y ∈ rest, y ∈ l := fun y hy => h.parts ▸ mem_append_right _ hy
    have hrestNodup : rest.Nodup := (nodup_append.mp (h.parts ▸ hnodup)).2.1
    have hpage : page limit o l = rest.take limit := h.page
    have hlast : (page limit o l).getLast? = some x := by
      rw [hpage, hinit, getLast?_concat]
    have hbehind : (rest.drop limit).filter (· ∈ l.filter keep) = (rest.drop limit).filter keep := by
      refine filter_congr fun y hy => ?_
      simp [hrestl y (mem_of_mem_drop hy)]
    have hseen' : ∀ y ∈ seen ++ page limit o l, y ∉ (rest.drop limit).filter keep := by
      intro y hy hmem
      have hdrop := mem_of_mem_filter hmem
      rcases mem_append.mp hy with hy | hy
      · exact hseen y hy (mem_of_mem_drop hdrop)
      · exact disjoint_take_drop hrestNodup le_rfl (hpage ▸ hy) hdrop
    have hfront' : ∀ y ∈ (front ++ (init ++ [x])).filter keep, y ∈ seen ++ page limit o l := by
      intro y hy
      rw [hpage, hinit, mem_append]
      exact (mem_append.mp (mem_of_mem_filter hy)).imp_left (hfront y)
    rw [once_cons hpage.symm hrestl hrestNodup hseen
      fun y _ hall => hall _ mem_cons_self, hbehind]
    have hkept := stands_kept keep (hl ▸ hnodup)
    rw [← hl] at hkept
    rcases hkept with ⟨hx, hst⟩ | ⟨hx, hst⟩
    · -- the cursor is still there
      rw [ih (hnodup.filter keep) hst hfront' hseen']
      exact (and_iff_right (.inl ⟨x, hlast, hx⟩)).symm
    · by_cases hleft : (front ++ (init ++ [x])).filter keep = []
      · -- nothing that was seen is left
        rw [hleft, nil_append] at hst
        rw [ih (hnodup.filter keep) hst nofun hseen']
        refine (and_iff_right (.inr fun y hy hmem => ?_)).symm
        rw [hst.parts, nil_append] at hmem
        exact hseen' y hy hmem
      · -- the first element is one that was seen
        refine iff_of_false (not_once_of_left hlimit hrest hst hleft hfront') fun hsteady => ?_
        obtain ⟨y, hy⟩ := exists_mem_of_ne_nil _ hleft
        rcases hsteady.1 with ⟨z, hz, hzmem⟩ | hnone
        · rw [hlast] at hz
          cases hz
          exact hx hzmem
        · refine hnone y (hfront' y hy) ?_
          rw [hst.parts, nil_append]
          exact mem_append_left _ hy

/-- **A list that shrinks**: no repetition and no gap, exactly if at every page the cursor is still
    there or nothing that was seen is. -/
theorem Browse.once_iff (hb : Browse limit Shrinks l none pages)
    (hnodup : l.Nodup) : Once [] l pages ↔ Steady [] pages :=
  hb.once_iff_steady hlimit hnodup (stands_none l) nofun
    nofun

end Shrink

end LimyeDB.Lib.Cursor
