/-
  BINARY HEAPS IN A SLICE, as Go's container/heap keeps them, over any elements and any comparison.
-/
import Mathlib

namespace LimyeDB.Lib.Heap

open List

variable {α : Type}

/-! ## The operations -/

def swap (l : List α) (i j : ℕ) : List α :=
  match l[i]?, l[j]? with
  | some a, some b => (l.set i b).set j a
  | _, _ => l

def lessAt (less : α → α → Bool) (l : List α) (i j : ℕ) : Bool :=
  match l[i]?, l[j]? with
  | some a, some b => less a b
  | _, _ => false

def parent (j : ℕ) : ℕ := (j - 1) / 2

/-- `up`, which has at most `j` swaps to make. -/
def up (less : α → α → Bool) : ℕ → List α → ℕ → List α
  | 0, l, _ => l
  | fuel + 1, l, j =>
    let i := parent j
    if i = j ∨ lessAt less l j i = false then l else up less fuel (swap l i j) i

/-- The smaller child of `i` below `n`, the left one of equal ones. -/
def smallerChild (less : α → α → Bool) (l : List α) (i n : ℕ) : ℕ :=
  if 2 * i + 2 < n ∧ lessAt less l (2 * i + 2) (2 * i + 1) = true then 2 * i + 2 else 2 * i + 1

def down (less : α → α → Bool) : ℕ → List α → (i n : ℕ) → List α
  | 0, l, _, _ => l
  | fuel + 1, l, i, n =>
    if n ≤ 2 * i + 1 then l
    else
      let j := smallerChild less l i n
      if lessAt less l j i = false then l else down less fuel (swap l i j) j n

def push (less : α → α → Bool) (l : List α) (x : α) : List α :=
  up less l.length (l ++ [x]) l.length

/-- The root goes to the end, the last element sinks from the root, and the end is cut off. -/
def pop (less : α → α → Bool) (l : List α) : Option (α × List α) :=
  let n := l.length - 1
  let l := down less n (swap l 0 n) 0 n
  l.getLast?.map fun x => (x, l.dropLast)

def drainLoop (less : α → α → Bool) : ℕ → List α → List α
  | 0, _ => []
  | fuel + 1, l =>
    match pop less l with
    | none => []
    | some (x, l) => x :: drainLoop less fuel l

def drain (less : α → α → Bool) (l : List α) : List α :=
  drainLoop less l.length l

/-! ## The elements -/

section Elements

variable {less : α → α → Bool} {l : List α}

theorem swap_of_lt {i j : ℕ} (hi : i < l.length) (hj : j < l.length) :
    swap l i j = (l.set i l[j]).set j l[i] := by
  simp only [swap, getElem?_eq_getElem hi, getElem?_eq_getElem hj]

theorem swap_perm (l : List α) (i j : ℕ) : (swap l i j).Perm l := by
  by_cases hi : i < l.length
  · by_cases hj : j < l.length
    · rw [swap_of_lt hi hj]
      exact set_set_perm hi hj
    · simp [swap, getElem?_eq_none (Nat.le_of_not_lt hj)]
  · simp [swap, getElem?_eq_none (Nat.le_of_not_lt hi)]

@[simp] theorem length_swap (l : List α) (i j : ℕ) : (swap l i j).length = l.length :=
  (swap_perm l i j).length_eq

theorem up_perm (fuel : ℕ) (l : List α) (j : ℕ) : (up less fuel l j).Perm l := by
  induction fuel generalizing l j with
  | zero => exact .refl _
  | succ fuel ih =>
    unfold up
    simp only
    split
    · exact .refl _
    · exact (ih _ _).trans (swap_perm ..)

theorem down_perm (less : α → α → Bool) (fuel : ℕ) (l : List α) (i n : ℕ) :
    (down less fuel l i n).Perm l := by
  induction fuel generalizing l i with
  | zero => exact .refl _
  | succ fuel ih =>
    unfold down
    simp only
    split
    · exact .refl _
    · split
      · exact .refl _
      · exact (ih _ _).trans (swap_perm ..)

theorem push_perm (l : List α) (x : α) : (push less l x).Perm (x :: l) :=
  (up_perm ..).trans (perm_append_singleton x l)

@[simp] theorem length_push (l : List α) (x : α) : (push less l x).length = l.length + 1 :=
  (push_perm l x).length_eq

theorem pop_perm {x : α} {l' : List α} (h : pop less l = some (x, l')) : l.Perm (x :: l') := by
  obtain ⟨y, hy, hpair⟩ := Option.map_eq_some_iff.mp h
  cases hpair
  have hlast := dropLast_append_getLast? x hy
  have hperm := (down_perm less (l.length - 1) (swap l 0 (l.length - 1)) 0
    (l.length - 1)).trans (swap_perm ..)
  rw [← hlast] at hperm
  exact hperm.symm.trans (perm_append_singleton ..)

theorem pop_eq_none : pop less l = none ↔ l = [] := by
  unfold pop
  rw [Option.map_eq_none_iff, getLast?_eq_none_iff]
  refine ⟨fun h => ?_, fun h => by subst h; rfl⟩
  have hperm := (down_perm less (l.length - 1) (swap l 0 (l.length - 1)) 0
    (l.length - 1)).trans (swap_perm ..)
  rw [h] at hperm
  exact hperm.symm.eq_nil

theorem drainLoop_perm (fuel : ℕ) (l : List α) (h : l.length ≤ fuel) :
    (drainLoop less fuel l).Perm l := by
  induction fuel generalizing l with
  | zero =>
    rw [length_eq_zero_iff.mp (Nat.le_zero.mp h)]
    exact .refl _
  | succ fuel ih =>
    unfold drainLoop
    cases hpop : pop less l with
    | none =>
      rw [pop_eq_none.mp hpop]
    | some xl =>
      obtain ⟨x, l'⟩ := xl
      have hperm := pop_perm hpop
      have hlen := hperm.length_eq
      rw [length_cons] at hlen
      exact (Perm.cons x (ih l' (by omega))).trans hperm.symm

theorem drain_perm (l : List α) : (drain less l).Perm l :=
  drainLoop_perm _ l le_rfl

end Elements

/-! ## The order -/

/-- A strict weak order on the elements with `P`. -/
structure WeakOn (less : α → α → Bool) (P : α → Prop) : Prop where
  asymm : ∀ {a b}, P a → P b → less a b = true → less b a = false
  cotrans : ∀ {a b c}, P a → P b → P c → less a b = true → less a c = true ∨ less c b = true

/-- No element before its parent, among the first `n`. -/
def Ordered (less : α → α → Bool) (l : List α) (n : ℕ) : Prop :=
  ∀ c, 0 < c → c < n → lessAt less l c (parent c) = false

/-- Ordered but for the edge above `j`, whose children are not before its parent either. -/
structure UpOrder (less : α → α → Bool) (l : List α) (n j : ℕ) : Prop where
  edges : ∀ c, 0 < c → c < n → c ≠ j → lessAt less l c (parent c) = false
  grand : 0 < j → ∀ c, 0 < c → c < n → parent c = j → lessAt less l c (parent j) = false

/-- Ordered but for the edges below `i`, whose children are not before its parent. -/
structure DownOrder (less : α → α → Bool) (l : List α) (n i : ℕ) : Prop where
  edges : ∀ c, 0 < c → c < n → parent c ≠ i → lessAt less l c (parent c) = false
  grand : 0 < i → ∀ c, 0 < c → c < n → parent c = i → lessAt less l c (parent i) = false

theorem parent_lt {j : ℕ} (h : 0 < j) : parent j < j := by
  unfold parent
  omega

section Order

variable {less : α → α → Bool} {P : α → Prop} {l : List α} {n i j : ℕ}

theorem getElem?_swap (hi : i < l.length) (hj : j < l.length) (p : ℕ) :
    (swap l i j)[p]? = l[Equiv.swap i j p]? := by
  rw [swap_of_lt hi hj, getElem?_set, getElem?_set, Equiv.swap_apply_def]
  by_cases hpj : j = p
  · subst hpj
    by_cases hji : j = i
    · subst hji
      simp [hj]
    · simp [hji, hi, hj]
  · by_cases hpi : i = p
    · subst hpi
      simp [hpj, hi, hj]
    · simp [hpi, hpj, Ne.symm hpi, Ne.symm hpj]

/-- **Comparisons after a swap** are those of the swapped places before. -/
theorem lessAt_swap (less : α → α → Bool) (hi : i < l.length) (hj : j < l.length) (p q : ℕ) :
    lessAt less (swap l i j) p q = lessAt less l (Equiv.swap i j p) (Equiv.swap i j q) := by
  unfold lessAt
  rw [getElem?_swap hi hj, getElem?_swap hi hj]

variable (hw : WeakOn less P) (hl : ∀ x ∈ l, P x)
include hw hl

theorem WeakOn.asymmAt {p q : ℕ} (h : lessAt less l p q = true) : lessAt less l q p = false := by
  unfold lessAt at h ⊢
  cases hp : l[p]? with
  | none => simp [hp] at h
  | some a =>
    cases hq : l[q]? with
    | none => simp [hp, hq] at h
    | some b =>
      simp only [hp, hq] at h
      exact hw.asymm (hl a (mem_of_getElem? hp)) (hl b (mem_of_getElem? hq)) h

theorem WeakOn.notLess_trans {p q r : ℕ}
    (hq : q < l.length) (hpq : lessAt less l p q = false) (hqr : lessAt less l q r = false) :
    lessAt less l p r = false := by
  unfold lessAt at hpq hqr ⊢
  cases hp : l[p]? with
  | none => rfl
  | some a =>
    cases hr : l[r]? with
    | none => rfl
    | some c =>
      rw [hp, getElem?_eq_getElem hq] at hpq
      rw [hr, getElem?_eq_getElem hq] at hqr
      simp only at hpq hqr ⊢
      by_contra hac
      rcases hw.cotrans (hl a (mem_of_getElem? hp)) (hl c (mem_of_getElem? hr))
        (hl _ (getElem_mem hq)) (Bool.eq_true_of_not_eq_false hac) with h | h
      · rw [h] at hpq
        cases hpq
      · rw [h] at hqr
        cases hqr

omit hw hl in
theorem UpOrder.finish (h : UpOrder less l n j)
    (hstop : parent j = j ∨ lessAt less l j (parent j) = false) : Ordered less l n := by
  intro c hpos hc
  by_cases hcj : c = j
  · subst hcj
    exact hstop.resolve_left (parent_lt hpos).ne
  · exact h.edges c hpos hc hcj

theorem UpOrder.move (h : UpOrder less l n j)
    (hjn : j < n) (hn : n ≤ l.length) (hpos : 0 < j) (hless : lessAt less l j (parent j) = true) :
    UpOrder less (swap l (parent j) j) n (parent j) := by
  have hi : parent j < j := parent_lt hpos
  have hback : lessAt less l (parent j) j = false := hw.asymmAt hl hless
  have hswap := fun p q => lessAt_swap less (l := l) (i := parent j) (j := j) (by omega)
    (by omega) p q
  constructor
  · intro c hcpos hc hci
    rw [hswap]
    by_cases hcj : c = j
    · subst hcj
      rw [Equiv.swap_apply_right, Equiv.swap_apply_left]
      exact hback
    · rw [Equiv.swap_apply_of_ne_of_ne hci hcj]
      by_cases hpj : parent c = j
      · rw [hpj, Equiv.swap_apply_right]
        exact h.grand hpos c hcpos hc hpj
      · by_cases hpi : parent c = parent j
        · rw [hpi, Equiv.swap_apply_left]
          exact hw.notLess_trans hl (by omega) (hpi ▸ h.edges c hcpos hc hcj) hback
        · rw [Equiv.swap_apply_of_ne_of_ne hpi hpj]
          exact h.edges c hcpos hc hcj
  · intro hipos c hcpos hc hpc
    have hgi : parent (parent j) < parent j := parent_lt hipos
    have hedge : lessAt less l (parent j) (parent (parent j)) = false :=
      h.edges (parent j) hipos (by omega) hi.ne
    rw [hswap, Equiv.swap_apply_of_ne_of_ne hgi.ne (by omega)]
    by_cases hcj : c = j
    · subst hcj
      rw [Equiv.swap_apply_right]
      exact hedge
    · have hci : c ≠ parent j := fun hci => by
        have := parent_lt hcpos
        omega
      rw [Equiv.swap_apply_of_ne_of_ne hci hcj]
      exact hw.notLess_trans hl (by omega) (hpc ▸ h.edges c hcpos hc hcj) hedge

omit hl in
theorem up_ordered (fuel : ℕ) (hl : ∀ x ∈ l, P x) (h : UpOrder less l n j)
    (hjn : j < n) (hn : n ≤ l.length) (hfuel : j ≤ fuel) : Ordered less (up less fuel l j) n := by
  induction fuel generalizing l j with
  | zero =>
    refine h.finish (.inl ?_)
    rw [Nat.le_zero.mp hfuel]
    rfl
  | succ fuel ih =>
    unfold up
    simp only
    split
    case isTrue hstop => exact h.finish hstop
    case isFalse hgo =>
      obtain ⟨hne, hless⟩ := not_or.mp hgo
      have hpos : 0 < j := by
        by_contra hzero
        rw [Nat.le_zero.mp (Nat.le_of_not_lt hzero)] at hne
        exact hne rfl
      have hi := parent_lt hpos
      refine ih (fun x hx => hl x ((swap_perm ..).mem_iff.mp hx))
        (h.move hw hl hjn hn hpos (Bool.eq_true_of_not_eq_false hless)) (by omega) ?_ (by omega)
      rw [length_swap]
      exact hn

omit hw hl in
theorem smallerChild_spec (less : α → α → Bool) (l : List α) (hin : 2 * i + 1 < n) :
    parent (smallerChild less l i n) = i ∧ smallerChild less l i n < n ∧
      i < smallerChild less l i n := by
  unfold smallerChild parent
  split <;> omega

theorem smallerChild_min {c : ℕ} (hpos : 0 < c)
    (hc : c < n) (hpar : parent c = i) : lessAt less l c (smallerChild less l i n) = false := by
  have hirrefl : ∀ p, lessAt less l p p = false := by
    intro p
    by_contra h
    exact h (hw.asymmAt hl (Bool.eq_true_of_not_eq_false h))
  have hcases : c = 2 * i + 1 ∨ c = 2 * i + 2 := by
    unfold parent at hpar
    omega
  unfold smallerChild
  split
  case isTrue h =>
    rcases hcases with rfl | rfl
    · exact hw.asymmAt hl h.2
    · exact hirrefl _
  case isFalse h =>
    rcases hcases with rfl | rfl
    · exact hirrefl _
    · by_contra hless
      exact h ⟨hc, Bool.eq_true_of_not_eq_false hless⟩

omit hw hl in
theorem DownOrder.finish (h : DownOrder less l n i)
    (hstop : ∀ c, 0 < c → c < n → parent c = i → lessAt less l c i = false) :
    Ordered less l n := by
  intro c hpos hc
  by_cases hpc : parent c = i
  · rw [hpc]
    exact hstop c hpos hc hpc
  · exact h.edges c hpos hc hpc

theorem DownOrder.move (h : DownOrder less l n i) (hn : n ≤ l.length) (hin : 2 * i + 1 < n)
    (hless : lessAt less l (smallerChild less l i n) i = true) :
    DownOrder less (swap l i (smallerChild less l i n)) n (smallerChild less l i n) := by
  obtain ⟨hpar, hjn, hij⟩ := smallerChild_spec less l hin
  have hmin := fun c hpos hc hpc =>
    smallerChild_min (i := i) (c := c) (n := n) hw hl hpos hc hpc
  generalize smallerChild less l i n = j at *
  have hback : lessAt less l i j = false := hw.asymmAt hl hless
  have hswap := fun p q => lessAt_swap less (l := l) (i := i) (j := j) (by omega)
    (by omega) p q
  constructor
  · intro c hpos hc hpc
    have hup := parent_lt hpos
    rw [hswap]
    by_cases hci : c = i
    · subst hci
      rw [Equiv.swap_apply_left, Equiv.swap_apply_of_ne_of_ne hup.ne hpc]
      exact h.grand hpos j (by omega) hjn hpar
    · by_cases hpi : parent c = i
      · rw [hpi, Equiv.swap_apply_left]
        by_cases hcj : c = j
        · subst hcj
          rw [Equiv.swap_apply_right]
          exact hback
        · rw [Equiv.swap_apply_of_ne_of_ne hci hcj]
          exact hmin c hpos hc hpi
      · have hcj : c ≠ j := fun hcj => hpi (hcj ▸ hpar)
        rw [Equiv.swap_apply_of_ne_of_ne hci hcj, Equiv.swap_apply_of_ne_of_ne hpi hpc]
        exact h.edges c hpos hc hpi
  · intro hjpos c hpos hc hpc
    have hup := parent_lt hpos
    rw [hswap, hpar, Equiv.swap_apply_left, Equiv.swap_apply_of_ne_of_ne (by omega) (by omega)]
    exact hpc ▸ h.edges c hpos hc (by omega)

omit hl in
theorem down_ordered (fuel : ℕ) (hl : ∀ x ∈ l, P x) (h : DownOrder less l n i)
    (hn : n ≤ l.length) (hfuel : n ≤ fuel + i) : Ordered less (down less fuel l i n) n := by
  induction fuel generalizing l i with
  | zero =>
    refine h.finish fun c hpos hc hpc => ?_
    have := parent_lt hpos
    omega
  | succ fuel ih =>
    unfold down
    simp only
    split
    case isTrue hleaf =>
      refine h.finish fun c hpos hc hpc => ?_
      unfold parent at hpc
      omega
    case isFalse hin =>
      have hin := Nat.lt_of_not_le hin
      split
      case isTrue hstop =>
        refine h.finish fun c hpos hc hpc => ?_
        have hj := (smallerChild_spec less l hin).2.1
        exact hw.notLess_trans hl (by omega) (smallerChild_min hw hl hpos hc hpc) hstop
      case isFalse hless =>
        have hj := (smallerChild_spec less l hin).2.2
        refine ih (fun x hx => hl x ((swap_perm ..).mem_iff.mp hx))
          (h.move hw hl hn hin (Bool.eq_true_of_not_eq_false hless)) ?_ (by omega)
        rw [length_swap]
        exact hn

omit hw hl in
theorem down_getElem? (fuel : ℕ) (hn : n ≤ l.length) {p : ℕ} (hp : n ≤ p) :
    (down less fuel l i n)[p]? = l[p]? := by
  induction fuel generalizing l i with
  | zero => rfl
  | succ fuel ih =>
    unfold down
    simp only
    split
    · rfl
    case isFalse hin =>
      split
      · rfl
      · obtain ⟨-, hj, hij⟩ := smallerChild_spec less l (Nat.lt_of_not_le hin)
        rw [ih (by rw [length_swap]; exact hn), getElem?_swap (by omega) (by omega),
          Equiv.swap_apply_of_ne_of_ne (by omega) (by omega)]

omit hw hl in
theorem lessAt_append_left {l' : List α} {p q : ℕ} (hp : p < l.length) (hq : q < l.length) :
    lessAt less (l ++ l') p q = lessAt less l p q := by
  unfold lessAt
  rw [getElem?_append_left hp, getElem?_append_left hq]

theorem push_ordered {x : α} (hx : P x)
    (h : Ordered less l l.length) : Ordered less (push less l x) (push less l x).length := by
  rw [length_push]
  refine up_ordered hw _ ?_ ⟨?_, ?_⟩ (Nat.lt_succ_self _) (by simp) le_rfl
  · exact forall_mem_append.mpr ⟨hl, forall_mem_singleton.mpr hx⟩
  · intro c hpos hc hne
    have hup := parent_lt hpos
    rw [lessAt_append_left (by omega) (by omega)]
    exact h c hpos (by omega)
  · intro hpos c hcpos hc hpc
    have hup := parent_lt hcpos
    omega

variable (h : Ordered less l l.length)
include h

theorem Ordered.root {c : ℕ} (hc : c < l.length) : lessAt less l c 0 = false := by
  induction c using Nat.strong_induction_on with
  | _ c ih =>
    rcases Nat.eq_zero_or_pos c with rfl | hpos
    · by_contra hless
      exact hless (hw.asymmAt hl (Bool.eq_true_of_not_eq_false hless))
    · have hup := parent_lt hpos
      exact hw.notLess_trans hl (by omega) (h c hpos hc) (ih _ hup (by omega))

theorem pop_ordered {x : α} {l' : List α} (hpop : pop less l = some (x, l')) :
    Ordered less l' l'.length ∧ ∀ y ∈ l, less y x = false := by
  have hpos : 0 < l.length := by
    by_contra hzero
    rw [length_eq_zero_iff.mp (Nat.le_zero.mp (Nat.le_of_not_lt hzero))] at hpop
    cases hpop
  have hlen : l.length = l'.length + 1 := (pop_perm hpop).length_eq
  obtain ⟨y, hy, hpair⟩ := Option.map_eq_some_iff.mp hpop
  cases hpair
  generalize hd : down less (l.length - 1) (swap l 0 (l.length - 1)) 0 (l.length - 1) = d at *
  have hdlen : d.length = l.length := by
    rw [← hd, (down_perm ..).length_eq, length_swap]
  have hdown : DownOrder less (swap l 0 (l.length - 1)) (l.length - 1) 0 := by
    refine ⟨fun c hcpos hc hpc => ?_, fun hpos => absurd hpos (lt_irrefl 0)⟩
    have hup := parent_lt hcpos
    rw [lessAt_swap _ (by omega) (by omega), Equiv.swap_apply_of_ne_of_ne (by omega) (by omega),
      Equiv.swap_apply_of_ne_of_ne hpc (by omega)]
    exact h c hcpos (by omega)
  have hord := down_ordered hw (l.length - 1) (fun x hx => hl x ((swap_perm ..).mem_iff.mp hx))
    hdown (by rw [length_swap]; omega) (by omega)
  rw [hd] at hord
  constructor
  · intro c hcpos hc
    have hup := parent_lt hcpos
    rw [length_dropLast, hdlen] at hc
    have hsame := hord c hcpos hc
    rw [← dropLast_append_getLast? x hy, lessAt_append_left] at hsame
    · exact hsame
    · rw [length_dropLast]
      omega
    · rw [length_dropLast]
      omega
  · -- what comes out is the old root
    have hroot : l[0]? = some x := by
      rw [← hy, getLast?_eq_getElem?, hdlen, ← hd, down_getElem? _ (by simp) le_rfl,
        getElem?_swap (by omega) (by omega), Equiv.swap_apply_right]
    intro y hy
    obtain ⟨c, hc, rfl⟩ := mem_iff_getElem.mp hy
    have hmin := h.root hw hl hc
    unfold lessAt at hmin
    rw [getElem?_eq_getElem hc, hroot] at hmin
    exact hmin

theorem drain_sorted :
    (drain less l).Pairwise fun a b => less b a = false := by
  suffices hloop : ∀ fuel, ∀ l : List α, (∀ x ∈ l, P x) → Ordered less l l.length →
      l.length ≤ fuel → (drainLoop less fuel l).Pairwise fun a b => less b a = false by
    exact hloop _ l hl h le_rfl
  intro fuel
  induction fuel with
  | zero => exact fun l _ _ _ => Pairwise.nil
  | succ fuel ih =>
    intro l hl h hfuel
    unfold drainLoop
    cases hpop : pop less l with
    | none => exact Pairwise.nil
    | some xl =>
      obtain ⟨x, l'⟩ := xl
      have hperm := pop_perm hpop
      obtain ⟨hord, hmin⟩ := pop_ordered hw hl h hpop
      have hlen := hperm.length_eq
      rw [length_cons] at hlen
      have hsub : ∀ y ∈ l', y ∈ l := fun y hy => hperm.mem_iff.mpr (mem_cons_of_mem _ hy)
      refine pairwise_cons.mpr ⟨fun y hy => ?_, ?_⟩
      · exact hmin y (hsub y ((drainLoop_perm fuel l' (by omega)).mem_iff.mp hy))
      · exact ih l' (fun y hy => hl y (hsub y hy)) hord (by omega)

end Order

end LimyeDB.Lib.Heap
