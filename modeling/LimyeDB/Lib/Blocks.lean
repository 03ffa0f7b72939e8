/-
  BLOCKS OF A LINE OF CELLS: how often each cell is covered, and what follows if every cell of a stretch is
  covered once.
-/
import Mathlib.Algebra.BigOperators.Group.Finset.Basic
import Mathlib.Algebra.BigOperators.Intervals
import Mathlib.Tactic

namespace LimyeDB.Lib.Blocks

open List

/-- A place and a length, in the numbers of `I`. -/
structure Block (I : Type) where
  offset : I
  size : I
  deriving DecidableEq, Repr

def Block.over (b : Block ℕ) (c : ℕ) : Bool := b.offset ≤ c && c < b.offset + b.size

def Block.Apart (a b : Block ℕ) : Prop :=
  a.offset + a.size ≤ b.offset ∨ b.offset + b.size ≤ a.offset

def cover (bs : List (Block ℕ)) (c : ℕ) : ℕ := bs.countP (·.over c)

def total (bs : List (Block ℕ)) : ℕ := (bs.map Block.size).sum

variable {a b : Block ℕ} {bs bs' : List (Block ℕ)} {c n : ℕ}

theorem over_iff : b.over c = true ↔ b.offset ≤ c ∧ c < b.offset + b.size := by
  simp [Block.over]

theorem cover_cons (b : Block ℕ) (bs : List (Block ℕ)) (c : ℕ) :
    cover (b :: bs) c = cover bs c + if b.over c then 1 else 0 := by
  rw [cover, countP_cons]
  rfl

theorem cover_append (bs bs' : List (Block ℕ)) (c : ℕ) :
    cover (bs ++ bs') c = cover bs c + cover bs' c := countP_append

theorem cover_perm (h : bs.Perm bs') (c : ℕ) : cover bs c = cover bs' c := h.countP_eq _

theorem cover_split (offset n k : ℕ) (bs : List (Block ℕ)) (c : ℕ) :
    cover (⟨offset, n⟩ :: ⟨offset + n, k⟩ :: bs) c = cover (⟨offset, n + k⟩ :: bs) c := by
  simp only [cover_cons, over_iff]
  split_ifs <;> omega

theorem cover_pos_iff : 0 < cover bs c ↔ ∃ b ∈ bs, b.over c = true := countP_pos_iff

theorem apart_of_cover (h : ∀ c, cover bs c ≤ 1) (hpos : ∀ b ∈ bs, 0 < b.size) :
    bs.Pairwise Block.Apart := by
  induction bs with
  | nil => exact Pairwise.nil
  | cons b bs ih =>
    have hrest : ∀ c, cover bs c ≤ 1 := fun c => by
      have := h c
      rw [cover_cons] at this
      omega
    refine pairwise_cons.mpr ⟨fun a ha => ?_, ih hrest (forall_mem_cons.mp hpos).2⟩
    -- two blocks that are not apart share the later one of their first cells
    by_contra hover
    unfold Block.Apart at hover
    have hb := hpos b mem_cons_self
    have ha' := hpos a (mem_cons_of_mem b ha)
    have hcell := h (max b.offset a.offset)
    have hin : 0 < cover bs (max b.offset a.offset) :=
      cover_pos_iff.mpr ⟨a, ha, over_iff.mpr (by omega)⟩
    rw [cover_cons, if_pos (over_iff.mpr (by omega))] at hcell
    omega

theorem sum_over (hin : b.offset + b.size ≤ n) :
    ∑ c ∈ Finset.range n, (if b.over c then 1 else 0) = b.size := by
  have hcells : (Finset.range n).filter (fun c => b.over c = true) =
      Finset.Ico b.offset (b.offset + b.size) := by
    ext c
    simp only [Finset.mem_filter, Finset.mem_range, over_iff, Finset.mem_Ico]
    omega
  rw [Finset.sum_boole, hcells, Nat.card_Ico, Nat.cast_id]
  omega

theorem sum_cover (h : ∀ b ∈ bs, b.offset + b.size ≤ n) :
    ∑ c ∈ Finset.range n, cover bs c = total bs := by
  induction bs with
  | nil => simp [cover, total]
  | cons b bs ih =>
    obtain ⟨hb, hbs⟩ := forall_mem_cons.mp h
    simp only [cover_cons, Finset.sum_add_distrib, ih hbs, sum_over hb, total, map_cons, sum_cons]
    omega

/-- The cells before `n` are covered once, and no others. -/
def Tiles (bs : List (Block ℕ)) (n : ℕ) : Prop := ∀ c, cover bs c = if c < n then 1 else 0

variable (h : Tiles bs n)
include h

theorem Tiles.le (hb : b ∈ bs) (hpos : 0 < b.size) : b.offset + b.size ≤ n := by
  have hlast : 0 < cover bs (b.offset + b.size - 1) :=
    cover_pos_iff.mpr ⟨b, hb, over_iff.mpr (by omega)⟩
  rw [h] at hlast
  split_ifs at hlast
  · omega
  · exact absurd hlast (lt_irrefl 0)

theorem Tiles.total (hpos : ∀ b ∈ bs, 0 < b.size) : total bs = n := by
  rw [← sum_cover fun b hb => h.le hb (hpos b hb),
    Finset.sum_congr rfl fun c hc => (h c).trans (if_pos (Finset.mem_range.mp hc))]
  simp

theorem Tiles.apart (hpos : ∀ b ∈ bs, 0 < b.size) : bs.Pairwise Block.Apart := by
  refine apart_of_cover (fun c => ?_) hpos
  rw [h]
  split_ifs <;> omega

theorem Tiles.iff : (∃ b ∈ bs, b.over c = true) ↔ c < n := by
  rw [← cover_pos_iff, h]
  split_ifs with hc <;> simp [hc]

end LimyeDB.Lib.Blocks
