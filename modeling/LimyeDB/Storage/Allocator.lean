/-
  THE ALLOCATOR OF THE VECTOR FILE: first fit from a list of free blocks, free blocks that touch are merged,
  and the rest of the file behind `nextOffset`.

  Offsets and sizes are numbers of a type `I`: int64 in the source, and natural numbers where a file bounds
  them. While no sum reaches 2^63 the two do the same.

  Main result: `allocator_sound`, that allocated and free blocks tile the file after every run.
-/
import Mathlib.Data.List.Sort
import LimyeDB.Lib.Blocks

namespace LimyeDB.Storage

open Lib.Blocks List

/-! ## The source -/

structure Allocator (I : Type) where
  freeList : List (Block I)
  nextOffset : I
  maxSize : I
  deriving DecidableEq, Repr

structure AllocatorState (I : Type) where
  nextOffset : I
  freeList : List (Block I)

section Source

variable {I : Type} [OfNat I 0] [Add I] [Sub I] [LE I] [LT I] [DecidableEq I] [DecidableLE I] [DecidableLT I]

def newAllocator (maxSize : I) : Allocator I := ⟨[], 0, maxSize⟩

/-- The first block of the size is taken off the list, or shrunk from its start. -/
def firstFit (size : I) : List (Block I) → Option (I × List (Block I))
  | [] => none
  | b :: bs =>
    if size ≤ b.size then
      some (b.offset, if b.size = size then bs else ⟨b.offset + size, b.size - size⟩ :: bs)
    else (firstFit size bs).map fun (offset, bs) => (offset, b :: bs)

def mergeFrom (current : Block I) : List (Block I) → List (Block I)
  | [] => [current]
  | next :: bs =>
    if current.offset + current.size = next.offset then
      mergeFrom ⟨current.offset, current.size + next.size⟩ bs
    else current :: mergeFrom next bs

/-- `sort.Slice` by offset; free blocks have different offsets, so there is one order. -/
def sortByOffset (bs : List (Block I)) : List (Block I) := bs.mergeSort fun a b => a.offset ≤ b.offset

def coalesce (bs : List (Block I)) : List (Block I) :=
  if bs.length < 2 then bs
  else match sortByOffset bs with
    | [] => []
    | b :: bs => mergeFrom b bs

namespace Allocator

def allocate (a : Allocator I) (size : I) : Option (Allocator I × I) :=
  match firstFit size a.freeList with
  | some (offset, bs) => some ({ a with freeList := bs }, offset)
  | none =>
    if a.maxSize < a.nextOffset + size then none
    else some ({ a with nextOffset := a.nextOffset + size }, a.nextOffset)

def free (a : Allocator I) (offset size : I) : Allocator I :=
  { a with freeList := coalesce (a.freeList ++ [⟨offset, size⟩]) }

def extend (a : Allocator I) (newSize : I) : Allocator I := { a with maxSize := newSize }

def used (a : Allocator I) : I := a.nextOffset - (a.freeList.map Block.size).foldl (· + ·) 0

def saveState (a : Allocator I) : AllocatorState I := ⟨a.nextOffset, a.freeList⟩

/-- `NewAllocator` for the size of the file, and the saved state. -/
def loadState (maxSize : I) (state : AllocatorState I) : Allocator I :=
  { newAllocator maxSize with nextOffset := state.nextOffset, freeList := state.freeList }

end Allocator

def blocksAt (size : I) (offsets : List I) : List (Block I) := offsets.map fun o => ⟨o, size⟩

/-- The allocator and the blocks handed out. The file is never shorter than the limit, so this holds of a
    loaded one, too. -/
inductive Run (size : I) : Allocator I → List I → Prop where
  | new (maxSize : I) (hmax : 0 ≤ maxSize) : Run size (newAllocator maxSize) []
  | allocate {a a' allocated offset} (h : Run size a allocated)
    (halloc : a.allocate size = some (a', offset)) : Run size a' (offset :: allocated)
  | full {a allocated} (h : Run size a allocated) (hfull : a.allocate size = none) : Run size a allocated
  | free {a allocated offset} (h : Run size a allocated) (hmem : offset ∈ allocated) :
    Run size (a.free offset size) (allocated.erase offset)
  | extend {a allocated newSize} (h : Run size a allocated) (hle : a.maxSize ≤ newSize) :
    Run size (a.extend newSize) allocated
  | reload {a allocated fileSize} (h : Run size a allocated) (hle : a.maxSize ≤ fileSize) :
    Run size (Allocator.loadState fileSize a.saveState) allocated

omit [OfNat I 0] in
theorem allocate_maxSize {a a' : Allocator I} {size offset : I} (halloc : a.allocate size = some (a', offset)) :
    a'.maxSize = a.maxSize := by
  unfold Allocator.allocate at halloc
  split at halloc
  · cases halloc
    rfl
  · split_ifs at halloc
    cases halloc
    rfl

end Source

/-! ## The free list -/

section FreeList

variable {size offset c : ℕ} {bs bs' : List (Block ℕ)} {b : Block ℕ}

theorem firstFit_spec (h : firstFit size bs = some (offset, bs')) :
    (∀ c, cover (⟨offset, size⟩ :: bs') c = cover bs c) ∧
      ((∀ b ∈ bs, 0 < b.size) → ∀ b ∈ bs', 0 < b.size) := by
  induction bs generalizing bs' with
  | nil => cases h
  | cons b bs ih =>
    rw [firstFit] at h
    simp only [forall_mem_cons]
    split_ifs at h with hle hsize
    · cases h
      subst hsize
      exact ⟨fun _ => rfl, And.right⟩
    · cases h
      have hsum : size + (b.size - size) = b.size := by omega
      have hleft : 0 < b.size - size := by omega
      exact ⟨fun c => by rw [cover_split, hsum], fun hpos => forall_mem_cons.mpr ⟨hleft, hpos.2⟩⟩
    · obtain ⟨⟨o, rest⟩, hrest, heq⟩ := Option.map_eq_some_iff.mp h
      cases heq
      obtain ⟨hcover, hkept⟩ := ih hrest
      refine ⟨fun c => ?_, fun hpos => forall_mem_cons.mpr ⟨hpos.1, hkept hpos.2⟩⟩
      rw [cover_perm (Perm.swap b _ _), cover_cons, hcover, ← cover_cons]

theorem mergeFrom_cover (b : Block ℕ) (bs : List (Block ℕ)) (c : ℕ) :
    cover (mergeFrom b bs) c = cover (b :: bs) c := by
  induction bs generalizing b with
  | nil => rfl
  | cons next bs ih =>
    rw [mergeFrom]
    split_ifs with htouch
    · obtain ⟨offset, size⟩ := next
      subst htouch
      rw [ih, ← cover_split]
    · rw [cover_cons, ih, ← cover_cons]

theorem mergeFrom_pos (hb : 0 < b.size) (hpos : ∀ b ∈ bs, 0 < b.size) :
    ∀ x ∈ mergeFrom b bs, 0 < x.size := by
  induction bs generalizing b with
  | nil =>
    intro x hx
    rwa [mem_singleton.mp hx]
  | cons next bs ih =>
    obtain ⟨hnext, hbs⟩ := forall_mem_cons.mp hpos
    rw [mergeFrom]
    split_ifs
    · exact ih (Nat.add_pos_left hb _) hbs
    · exact forall_mem_cons.mpr ⟨hb, ih hnext hbs⟩

theorem coalesce_spec (hpos : ∀ b ∈ bs, 0 < b.size) :
    (∀ c, cover (coalesce bs) c = cover bs c) ∧ ∀ b ∈ coalesce bs, 0 < b.size := by
  unfold coalesce
  split_ifs
  · exact ⟨fun _ => rfl, hpos⟩
  · have hperm : (sortByOffset bs).Perm bs := mergeSort_perm _ _
    have hsorted : ∀ b ∈ sortByOffset bs, 0 < b.size := fun b hb => hpos b (hperm.subset hb)
    cases hsort : sortByOffset bs with
    | nil =>
      rw [hsort] at hperm
      rw [← hperm.nil_eq]
      exact ⟨fun _ => rfl, by simp⟩
    | cons b rest =>
      rw [hsort] at hperm hsorted
      obtain ⟨hb, hrest⟩ := forall_mem_cons.mp hsorted
      exact ⟨fun c => (mergeFrom_cover b rest c).trans (cover_perm hperm c), mergeFrom_pos hb hrest⟩

end FreeList

/-! ## One call -/

/-- `allocated` and the free blocks tile the file up to `nextOffset`. -/
structure Allotted (a : Allocator ℕ) (size : ℕ) (allocated : List ℕ) : Prop where
  tiles : Tiles (blocksAt size allocated ++ a.freeList) a.nextOffset
  pos : ∀ b ∈ a.freeList, 0 < b.size
  bound : a.nextOffset ≤ a.maxSize

section Calls

variable {a a' : Allocator ℕ} {size offset : ℕ} {allocated : List ℕ}

theorem allotted_new (size maxSize : ℕ) : Allotted (newAllocator maxSize) size [] :=
  ⟨fun _ => rfl, by simp [newAllocator], Nat.zero_le _⟩

variable (h : Allotted a size allocated)
include h

theorem Allotted.allocate
    (halloc : a.allocate size = some (a', offset)) : Allotted a' size (offset :: allocated) := by
  have hcons : ∀ free : List (Block ℕ), ∀ c,
      cover (blocksAt size (offset :: allocated) ++ free) c =
        cover (blocksAt size allocated) c + cover (⟨offset, size⟩ :: free) c := by
    intro free c
    rw [blocksAt, map_cons, cons_append, cover_cons, cover_append, cover_cons, blocksAt]
    omega
  unfold Allocator.allocate at halloc
  cases hfit : firstFit size a.freeList with
  | some x =>
    obtain ⟨o, bs⟩ := x
    rw [hfit] at halloc
    cases halloc
    refine ⟨fun c => ?_, (firstFit_spec hfit).2 h.pos, h.bound⟩
    rw [hcons, (firstFit_spec hfit).1, ← cover_append]
    exact h.tiles c
  | none =>
    rw [hfit] at halloc
    split_ifs at halloc with hfull
    cases halloc
    refine ⟨fun c => ?_, h.pos, Nat.not_lt.mp hfull⟩
    have hold := h.tiles c
    rw [cover_append] at hold
    rw [hcons, cover_cons, ← Nat.add_assoc, hold]
    simp only [over_iff]
    split_ifs <;> omega

theorem Allotted.free (hsize : 0 < size) (hmem : offset ∈ allocated) :
    Allotted (a.free offset size) size (allocated.erase offset) := by
  have hpos : ∀ b ∈ a.freeList ++ [⟨offset, size⟩], 0 < b.size := by
    simpa [or_imp, forall_and] using ⟨h.pos, hsize⟩
  obtain ⟨hcover, hpos'⟩ := coalesce_spec hpos
  refine ⟨fun c => ?_, hpos', h.bound⟩
  have hold := h.tiles c
  have hperm := cover_perm ((perm_cons_erase hmem).map fun o => (⟨o, size⟩ : Block ℕ)) c
  rw [cover_append, blocksAt, hperm, map_cons, cover_cons] at hold
  change cover (_ ++ coalesce _) c = _
  rw [cover_append, hcover, cover_append, cover_cons, blocksAt]
  change _ = if c < a.nextOffset then 1 else 0
  rw [← hold]
  simp only [cover, countP_nil]
  omega

theorem Allotted.size_pos (hsize : 0 < size) :
    ∀ b ∈ blocksAt size allocated ++ a.freeList, 0 < b.size := by
  exact forall_mem_append.mpr ⟨forall_mem_map.mpr fun _ _ => hsize, h.pos⟩

theorem Allotted.extend {newSize : ℕ} (hle : a.maxSize ≤ newSize) :
    Allotted (a.extend newSize) size allocated := ⟨h.tiles, h.pos, h.bound.trans hle⟩

theorem Allotted.reload {fileSize : ℕ} (hle : a.maxSize ≤ fileSize) :
    Allotted (Allocator.loadState fileSize a.saveState) size allocated :=
  ⟨h.tiles, h.pos, h.bound.trans hle⟩

theorem Allotted.nodup (hsize : 0 < size) : allocated.Nodup := by
  -- blocks of the same place are not apart
  have hapart := (pairwise_append.mp (h.tiles.apart (h.size_pos hsize))).1
  refine (pairwise_map.mp hapart).imp fun {x y} hxy heq => ?_
  subst heq
  unfold Block.Apart at hxy
  simp only at hxy
  omega

theorem Allotted.total (hsize : 0 < size) :
    allocated.length * size + (a.freeList.map Block.size).sum = a.nextOffset := by
  have htotal := h.tiles.total (h.size_pos hsize)
  rwa [Lib.Blocks.total, map_append, sum_append, blocksAt, map_map, Function.comp_def, map_const', sum_replicate,
    smul_eq_mul] at htotal

end Calls

theorem Run.allotted {size : ℕ} (hsize : 0 < size) {a : Allocator ℕ} {allocated : List ℕ}
    (h : Run size a allocated) : Allotted a size allocated := by
  induction h with
  | new maxSize => exact allotted_new size maxSize
  | allocate _ halloc ih => exact ih.allocate halloc
  | full _ _ ih => exact ih
  | free _ hmem ih => exact ih.free hsize hmem
  | extend _ hle ih => exact ih.extend hle
  | reload _ hle ih => exact ih.reload hle

/-! ## The same in 64 bits -/

def in64 (b : Block ℕ) : Block Int64 := ⟨.ofNat b.offset, .ofNat b.size⟩

def Allocator.to64 (a : Allocator ℕ) : Allocator Int64 :=
  ⟨a.freeList.map in64, .ofNat a.nextOffset, .ofNat a.maxSize⟩

section To64

variable {size offset : ℕ} {b : Block ℕ} {bs : List (Block ℕ)}

theorem ofNat_inj {m n : ℕ} (hm : m < 2 ^ 63) (hn : n < 2 ^ 63) : Int64.ofNat m = Int64.ofNat n ↔ m = n := by
  rw [← Int64.toInt_inj, Int64.toInt_ofNat_of_lt hm, Int64.toInt_ofNat_of_lt hn, Nat.cast_inj]

theorem firstFit_to64 (hsize : size < 2 ^ 63) (hbs : ∀ b ∈ bs, b.offset + b.size < 2 ^ 63) :
    firstFit (Int64.ofNat size) (bs.map in64) =
      (firstFit size bs).map fun (offset, bs) => (.ofNat offset, bs.map in64) := by
  induction bs with
  | nil => rfl
  | cons b bs ih =>
    obtain ⟨hb, hbs⟩ := forall_mem_cons.mp hbs
    have hle : (Int64.ofNat size ≤ Int64.ofNat b.size) ↔ size ≤ b.size :=
      Int64.ofNat_le_iff_le hsize (by omega)
    have heq : (Int64.ofNat b.size = Int64.ofNat size) ↔ b.size = size := ofNat_inj (by omega) hsize
    simp only [map_cons, firstFit, in64, hle, heq]
    split_ifs with hfits hsame
    · rfl
    · rw [← Int64.ofNat_add, ← Int64.ofNat_sub _ _ hfits]
      rfl
    · rw [ih hbs, Option.map_map, Option.map_map]
      rfl

theorem mergeFrom_to64 (hb : b.offset + b.size < 2 ^ 63) (hbs : ∀ b ∈ bs, b.offset + b.size < 2 ^ 63) :
    mergeFrom (in64 b) (bs.map in64) = (mergeFrom b bs).map in64 := by
  induction bs generalizing b with
  | nil => rfl
  | cons next bs ih =>
    obtain ⟨hnext, hbs⟩ := forall_mem_cons.mp hbs
    have htouch : ((in64 b).offset + (in64 b).size = (in64 next).offset) ↔ b.offset + b.size = next.offset := by
      change Int64.ofNat b.offset + Int64.ofNat b.size = Int64.ofNat next.offset ↔ _
      rw [← Int64.ofNat_add]
      exact ofNat_inj hb (by omega)
    simp only [map_cons, mergeFrom, htouch]
    split_ifs with hif
    · rw [← ih (by dsimp only; omega) hbs]
      simp only [in64, Int64.ofNat_add]
    · rw [ih hnext hbs, map_cons]

theorem coalesce_to64 (hbs : ∀ b ∈ bs, b.offset + b.size < 2 ^ 63) :
    coalesce (bs.map in64) = (coalesce bs).map in64 := by
  have hsort : sortByOffset (bs.map in64) = (sortByOffset bs).map in64 := by
    refine (map_mergeSort fun x hx y hy => ?_).symm
    have hx' := hbs x hx
    have hy' := hbs y hy
    exact decide_eq_decide.mpr (Int64.ofNat_le_iff_le (by omega) (by omega)).symm
  unfold coalesce
  rw [length_map, hsort]
  split_ifs
  · rfl
  · have hmem : ∀ b ∈ sortByOffset bs, b.offset + b.size < 2 ^ 63 :=
      fun b hb => hbs b ((mergeSort_perm bs _).subset hb)
    cases hcase : sortByOffset bs with
    | nil => rfl
    | cons b rest =>
      rw [hcase] at hmem
      obtain ⟨hb, hrest⟩ := forall_mem_cons.mp hmem
      exact mergeFrom_to64 hb hrest

variable {a : Allocator ℕ} {allocated : List ℕ} (h : Allotted a size allocated) (hsize : 0 < size)
  (hroom : a.maxSize + size < 2 ^ 63)
include h hsize hroom

theorem Allotted.small : ∀ b ∈ blocksAt size allocated ++ a.freeList, b.offset + b.size < 2 ^ 63 := by
  intro b hb
  have hend := h.tiles.le hb (h.size_pos hsize b hb)
  have hbound := h.bound
  omega

theorem Allotted.nodup64 : (allocated.map Int64.ofNat).Nodup := by
  have hlt : ∀ o ∈ allocated, o < 2 ^ 63 := fun o ho => (Nat.le_add_right o size).trans_lt
    (h.small hsize hroom ⟨o, size⟩ (mem_append_left _ (mem_map_of_mem ho)))
  exact (h.nodup hsize).map_on fun x hx y hy heq => (ofNat_inj (hlt x hx) (hlt y hy)).mp heq

theorem allocate_to64 : a.to64.allocate (.ofNat size) =
    (a.allocate size).map fun (a, offset) => (a.to64, .ofNat offset) := by
  have hbound := h.bound
  have hlt : size < 2 ^ 63 := by omega
  have hfit := firstFit_to64 hlt fun b (hb : b ∈ a.freeList) => h.small hsize hroom b (mem_append_right _ hb)
  have hfull : (Int64.ofNat a.maxSize < Int64.ofNat a.nextOffset + Int64.ofNat size) ↔
      a.maxSize < a.nextOffset + size := by
    rw [← Int64.ofNat_add]
    exact Int64.ofNat_lt_iff_lt (by omega) (by omega)
  unfold Allocator.allocate
  rw [show a.to64.freeList = a.freeList.map in64 from rfl, hfit]
  cases firstFit size a.freeList with
  | some x => rfl
  | none =>
    simp only [Option.map_none, Allocator.to64, hfull]
    split_ifs
    · rfl
    · rw [← Int64.ofNat_add]
      rfl

theorem free_to64 (hmem : offset ∈ allocated) :
    a.to64.free (.ofNat offset) (.ofNat size) = (a.free offset size).to64 := by
  have hsmall := h.small hsize hroom
  have hbs : ∀ b ∈ a.freeList ++ [⟨offset, size⟩], b.offset + b.size < 2 ^ 63 := by
    intro b hb
    rcases mem_append.mp hb with hb | hb
    · exact hsmall b (mem_append_right _ hb)
    · exact hsmall b (mem_append_left _ (mem_map.mpr ⟨offset, hmem, (mem_singleton.mp hb).symm⟩))
  have hcoalesce := coalesce_to64 hbs
  rw [map_append] at hcoalesce
  simp only [Allocator.free, Allocator.to64, ← hcoalesce]
  rfl

theorem used_to64 : a.to64.used.toInt = allocated.length * size := by
  have hsum : ∀ (bs : List (Block ℕ)) (n : ℕ),
      ((bs.map in64).map Block.size).foldl (· + ·) (Int64.ofNat n) =
        .ofNat (n + (bs.map Block.size).sum) := by
    intro bs
    induction bs with
    | nil => exact fun n => rfl
    | cons b bs ih =>
      intro n
      rw [map_cons, map_cons, foldl_cons, in64, ← Int64.ofNat_add, ih, map_cons, sum_cons, Nat.add_assoc]
  have htotal := h.total hsize
  have hbound := h.bound
  have hused : a.to64.used = .ofNat (allocated.length * size) := by
    refine (congrArg (Int64.ofNat a.nextOffset - ·) (hsum a.freeList 0)).trans ?_
    rw [Nat.zero_add, ← Int64.ofNat_sub _ _ (by omega), ← htotal, Nat.add_sub_cancel]
  rw [hused, Int64.toInt_ofNat_of_lt (by omega), Nat.cast_mul]

end To64

/-! ## Runs -/

def exact (b : Block Int64) : Block ℕ := ⟨b.offset.toInt.toNat, b.size.toInt.toNat⟩

theorem toNat_ofNat {n : ℕ} (hn : n < 2 ^ 63) : (Int64.ofNat n).toInt.toNat = n := by
  rw [Int64.toInt_ofNat_of_lt hn, Int.toNat_natCast]

theorem exists_ofNat {x : Int64} (hx : 0 ≤ x) : ∃ n : ℕ, x = .ofNat n ∧ x.toInt = n ∧ n < 2 ^ 63 := by
  have hpos : 0 ≤ x.toInt := Int64.le_iff_toInt_le.mp hx
  have hlt := x.toInt_lt
  have hn : x.toInt.toNat < 2 ^ 63 := by omega
  refine ⟨x.toInt.toNat, Int64.toInt_inj.mp ?_, (Int.toNat_of_nonneg hpos).symm, hn⟩
  rw [Int64.toInt_ofNat_of_lt hn, Int.toNat_of_nonneg hpos]

theorem exists_widened {a : Allocator ℕ} {size : ℕ} {newSize : Int64} (hsmall : a.maxSize + size < 2 ^ 63)
    (hle : a.to64.maxSize ≤ newSize) :
    ∃ n : ℕ, newSize = .ofNat n ∧ newSize.toInt = n ∧ a.maxSize ≤ n := by
  have hmax : a.to64.maxSize.toInt = a.maxSize := Int64.toInt_ofNat_of_lt (by omega)
  have hle' := Int64.le_iff_toInt_le.mp hle
  obtain ⟨n, hnew, hn, -⟩ := exists_ofNat (x := newSize) (Int64.le_iff_toInt_le.mpr (show 0 ≤ newSize.toInt by omega))
  exact ⟨n, hnew, hn, by omega⟩

theorem map_erase_ofNat {l : List ℕ} {o : ℕ} (hl : ∀ x ∈ l, x < 2 ^ 63) (ho : o < 2 ^ 63) :
    (l.erase o).map Int64.ofNat = (l.map Int64.ofNat).erase (.ofNat o) := by
  induction l with
  | nil => rfl
  | cons x l ih =>
    obtain ⟨hx, hl⟩ := forall_mem_cons.mp hl
    have heq : (Int64.ofNat x = Int64.ofNat o) ↔ x = o := ofNat_inj hx ho
    by_cases hxo : x = o
    · simp [hxo]
    · rw [erase_cons_tail (by simpa using hxo), map_cons, map_cons, erase_cons_tail (by simpa [heq] using hxo),
        ih hl]

/-- **A run that stays below 2^63 is one of exact numbers.** -/
theorem Run.exact {size : ℕ} (hsize : 0 < size) {a : Allocator Int64} {allocated : List Int64}
    (h : Run (Int64.ofNat size) a allocated) (hroom : a.maxSize.toInt + size < 2 ^ 63) :
    ∃ a₀ allocated₀, a = Allocator.to64 a₀ ∧ allocated = allocated₀.map Int64.ofNat ∧
      Allotted a₀ size allocated₀ ∧ a₀.maxSize + size < 2 ^ 63 := by
  have hwiden : ∀ {a : Allocator Int64} {newSize : Int64}, a.maxSize ≤ newSize →
      newSize.toInt + size < 2 ^ 63 → a.maxSize.toInt + size < 2 ^ 63 := by
    intro a newSize hle hroom
    have := Int64.le_iff_toInt_le.mp hle
    omega
  induction h with
  | new maxSize hmax =>
    obtain ⟨n, rfl, hn, -⟩ := exists_ofNat hmax
    have hroom' : (Int64.ofNat n).toInt + size < 2 ^ 63 := hroom
    exact ⟨newAllocator n, [], rfl, rfl, allotted_new size n, show n + size < 2 ^ 63 by omega⟩
  | allocate _ halloc ih =>
    rw [allocate_maxSize halloc] at hroom
    obtain ⟨a₀, allocated₀, rfl, rfl, hallot, hsmall⟩ := ih hroom
    rw [allocate_to64 hallot hsize hsmall] at halloc
    obtain ⟨⟨a₁, offset⟩, halloc₀, heq⟩ := Option.map_eq_some_iff.mp halloc
    cases heq
    exact ⟨a₁, offset :: allocated₀, rfl, rfl, hallot.allocate halloc₀, allocate_maxSize halloc₀ ▸ hsmall⟩
  | full _ _ ih => exact ih hroom
  | free _ hmem ih =>
    obtain ⟨a₀, allocated₀, rfl, rfl, hallot, hsmall⟩ := ih hroom
    obtain ⟨offset, hoff, rfl⟩ := mem_map.mp hmem
    refine ⟨a₀.free offset size, allocated₀.erase offset, free_to64 hallot hsize hsmall hoff, ?_,
      hallot.free hsize hoff, hsmall⟩
    have hlt : ∀ o ∈ allocated₀, o < 2 ^ 63 := fun o ho => (Nat.le_add_right o size).trans_lt
      (hallot.small hsize hsmall ⟨o, size⟩ (mem_append_left _ (mem_map_of_mem ho)))
    exact (map_erase_ofNat hlt (hlt offset hoff)).symm
  | extend _ hle ih =>
    obtain ⟨a₀, allocated₀, rfl, rfl, hallot, hsmall⟩ := ih (hwiden hle hroom)
    obtain ⟨n, rfl, hn, hle₀⟩ := exists_widened hsmall hle
    have hroom' : (Int64.ofNat n).toInt + size < 2 ^ 63 := hroom
    exact ⟨a₀.extend n, allocated₀, rfl, rfl, hallot.extend hle₀, show n + size < 2 ^ 63 by omega⟩
  | reload _ hle ih =>
    obtain ⟨a₀, allocated₀, rfl, rfl, hallot, hsmall⟩ := ih (hwiden hle hroom)
    obtain ⟨n, rfl, hn, hle₀⟩ := exists_widened hsmall hle
    have hroom' : (Int64.ofNat n).toInt + size < 2 ^ 63 := hroom
    exact ⟨.loadState n a₀.saveState, allocated₀, rfl, rfl, hallot.reload hle₀, show n + size < 2 ^ 63 by omega⟩

/-- **The allocated and the free blocks are apart and cover the file up to `nextOffset`, no block is handed
    out twice, the limit holds, and `Used` is the size of the allocated blocks**, while the limit and one block
    more are below 2^63. -/
theorem allocator_sound {size : Int64} (hsize : 0 < size) {a : Allocator Int64} {allocated : List Int64}
    (h : Run size a allocated) (hroom : a.maxSize.toInt + size.toInt < 2 ^ 63) :
    (∀ b ∈ blocksAt size allocated ++ a.freeList, 0 ≤ b.offset ∧ 0 < b.size) ∧
      ((blocksAt size allocated ++ a.freeList).map exact).Pairwise Block.Apart ∧
      (∀ c : ℕ, (∃ b ∈ (blocksAt size allocated ++ a.freeList).map exact, b.over c = true) ↔
        c < a.nextOffset.toInt) ∧
      allocated.Nodup ∧
      (∀ a' offset, a.allocate size = some (a', offset) → offset ∉ allocated) ∧
      a.nextOffset ≤ a.maxSize ∧ a.used.toInt = allocated.length * size.toInt := by
  obtain ⟨n, rfl, hn, -⟩ := exists_ofNat (Int64.le_of_lt hsize)
  have hpos : 0 < n := by
    have hlt : (0 : ℤ) < (Int64.ofNat n).toInt := Int64.lt_iff_toInt_lt.mp hsize
    omega
  rw [hn] at hroom
  obtain ⟨a₀, allocated₀, rfl, rfl, hallot, hsmall⟩ := h.exact hpos hroom
  have hbound := hallot.bound
  have hblocks : blocksAt (Int64.ofNat n) (allocated₀.map Int64.ofNat) ++ a₀.to64.freeList =
      (blocksAt n allocated₀ ++ a₀.freeList).map in64 := by
    rw [map_append, blocksAt, blocksAt, map_map, map_map]
    rfl
  have hlt := hallot.small hpos hsmall
  have hexact : ((blocksAt n allocated₀ ++ a₀.freeList).map in64).map exact = blocksAt n allocated₀ ++ a₀.freeList := by
    rw [map_map]
    refine map_congr_left (fun b hb => ?_) |>.trans (map_id _)
    have hb := hlt b hb
    simp only [Function.comp_apply, exact, in64, toNat_ofNat (show b.offset < 2 ^ 63 by omega),
      toNat_ofNat (show b.size < 2 ^ 63 by omega), id]
  rw [hblocks, hexact]
  refine ⟨?_, hallot.tiles.apart (hallot.size_pos hpos), fun c => ?_, ?_, ?_, ?_, ?_⟩
  · intro b hb
    obtain ⟨b₀, hb₀, rfl⟩ := mem_map.mp hb
    have hend := hlt b₀ hb₀
    exact ⟨(Int64.ofNat_le_iff_le (a := 0) (by decide) (by omega)).mpr (Nat.zero_le _),
      (Int64.ofNat_lt_iff_lt (a := 0) (by decide) (by omega)).mpr (hallot.size_pos hpos b₀ hb₀)⟩
  · rw [hallot.tiles.iff, Allocator.to64, Int64.toInt_ofNat_of_lt (by omega), Nat.cast_lt]
  · exact hallot.nodup64 hpos hsmall
  · intro a' offset halloc
    rw [allocate_to64 hallot hpos hsmall] at halloc
    obtain ⟨⟨a₁, o⟩, halloc₀, heq⟩ := Option.map_eq_some_iff.mp halloc
    cases heq
    have hnext := (hallot.allocate halloc₀).nodup64 hpos (allocate_maxSize halloc₀ ▸ hsmall)
    exact (nodup_cons.mp hnext).1
  · exact (Int64.ofNat_le_iff_le (by omega) (by omega)).mpr hbound
  · rw [used_to64 hallot hpos hsmall, length_map, hn]

/-- Two blocks are allocated, the first one is freed, the file grows, and its state is saved and loaded. -/
theorem allocator_sound_reloaded : ∃ (a : Allocator Int64),
    a = .loadState 32 (Allocator.saveState ⟨[⟨0, 4⟩], 8, 24⟩) ∧ a.used.toInt = 4 := by
  have htwo : Run (4 : Int64) ⟨[], 8, 16⟩ [4, 0] := .allocate (.allocate (.new 16 (by decide)) rfl) rfl
  have hfree : Run (4 : Int64) ⟨[⟨0, 4⟩], 8, 16⟩ [4] := htwo.free (show 0 ∈ [4, 0] by decide)
  have hrun := (hfree.extend (show 16 ≤ 24 by decide)).reload (show (24 : Int64) ≤ 32 by decide)
  exact ⟨_, rfl, (allocator_sound (by decide) hrun (by decide)).2.2.2.2.2.2⟩

/-- The second block ends at 2^63, which is a negative int64 and below the limit. -/
theorem allocator_wraps : ∃ a : Allocator Int64, Run (4611686018427387904 : Int64) a [4611686018427387904, 0] ∧
    a.nextOffset.toInt = -2 ^ 63 ∧ a.used.toInt ≠ 2 * 4611686018427387904 := by
  have hone : Run (4611686018427387904 : Int64) ⟨[], 4611686018427387904, 9223372036854775807⟩ [0] :=
    .allocate (.new 9223372036854775807 (by decide)) (by decide)
  have htwo : Allocator.allocate ⟨[], 4611686018427387904, 9223372036854775807⟩ (4611686018427387904 : Int64) =
      some (⟨[], -9223372036854775808, 9223372036854775807⟩, 4611686018427387904) := by decide
  exact ⟨_, hone.allocate htwo, by decide, by decide⟩

end LimyeDB.Storage
