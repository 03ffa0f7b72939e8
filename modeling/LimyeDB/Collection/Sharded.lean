/-
  SEARCH OVER THE SHARDS OF A COLLECTION (pkg/collection/shard.go): the answers of the shards as they arrive,
  sorted together and cut off.

  Distances are of a linear order, so none is NaN. A candidate has the number of a node of its shard.
-/
import LimyeDB.Graph.Index

namespace LimyeDB.Sharded

open List
open LimyeDB.Graph (Candidate)

variable {Q P D : Type} [LinearOrder D]

/-! ## The search -/

inductive ShardState where
  | active
  | recovering
  | dead
  | initializing
deriving DecidableEq

/-- `nodes` are the live points with the numbers of their nodes. -/
structure Shard (Q P D : Type) where
  id : ℕ
  state : ShardState
  nodes : List (ℕ × P)
  searchWithEf : Q → ℕ → Except String (List (Candidate D))

inductive ShardError where
  | notSearchable (id : ℕ) (state : ShardState)
  | index (message : String)

def Shard.Searchable (s : Shard Q P D) : Prop := s.state = .active ∨ s.state = .recovering

instance (s : Shard Q P D) : Decidable s.Searchable := inferInstanceAs (Decidable (_ ∨ _))

def Shard.search (s : Shard Q P D) (query : Q) (k : ℕ) : Except ShardError (List (Candidate D)) :=
  if s.Searchable then (s.searchWithEf query k).mapError .index else .error (.notSearchable s.id s.state)

/-- The inner loop, with what stands at `i` and what is behind it. -/
def settle (c : Candidate D) : List (Candidate D) → Candidate D × List (Candidate D)
  | [] => (c, [])
  | d :: rest =>
    if d.distance < c.distance then ((settle d rest).1, c :: (settle d rest).2)
    else ((settle c rest).1, d :: (settle c rest).2)

def sortPlaces : ℕ → List (Candidate D) → List (Candidate D)
  | n + 1, c :: rest => (settle c rest).1 :: sortPlaces n (settle c rest).2
  | _, l => l

def sortCandidates (candidates : List (Candidate D)) : List (Candidate D) :=
  sortPlaces (candidates.length - 1) candidates

/-- `results` are the answers in the order of the channel. -/
def search (results : List (Except ShardError (List (Candidate D)))) (k : ℕ) :
    Except ShardError (List (Candidate D)) :=
  .ok ((sortCandidates (results.flatMap fun r => r.toOption.getD [])).take k)

/-! ## The sort -/

theorem settle_perm (c : Candidate D) (l : List (Candidate D)) : (settle c l).1 :: (settle c l).2 ~ c :: l := by
  induction l generalizing c with
  | nil => exact Perm.refl _
  | cons d l ih =>
    unfold settle
    split
    · exact (Perm.swap _ _ _).trans ((ih d).cons c)
    · exact (Perm.swap _ _ _).trans (((ih c).cons d).trans (Perm.swap _ _ _))

theorem settle_le (c : Candidate D) (l : List (Candidate D)) : (settle c l).1.distance ≤ c.distance ∧
    ∀ d ∈ (settle c l).2, (settle c l).1.distance ≤ d.distance := by
  induction l generalizing c with
  | nil => exact ⟨le_rfl, nofun⟩
  | cons d l ih =>
    unfold settle
    split
    · rename_i hlt
      obtain ⟨hle, hall⟩ := ih d
      exact ⟨hle.trans hlt.le, forall_mem_cons.mpr ⟨hle.trans hlt.le, hall⟩⟩
    · rename_i hge
      obtain ⟨hle, hall⟩ := ih c
      exact ⟨hle, forall_mem_cons.mpr ⟨hle.trans (not_lt.mp hge), hall⟩⟩

theorem sortPlaces_spec (n : ℕ) (l : List (Candidate D)) (hn : l.length ≤ n + 1) :
    sortPlaces n l ~ l ∧ (sortPlaces n l).Pairwise (·.distance ≤ ·.distance) := by
  induction n generalizing l with
  | zero =>
    match l, hn with
    | [], _ => exact ⟨Perm.refl _, .nil⟩
    | [c], _ => exact ⟨Perm.refl _, pairwise_singleton _ _⟩
  | succ n ih =>
    cases l with
    | nil => exact ⟨Perm.refl _, .nil⟩
    | cons c l =>
      have hperm := settle_perm c l
      have hlen := hperm.length_eq
      simp only [length_cons] at hlen hn
      obtain ⟨hrest, hsorted⟩ := ih (settle c l).2 (by omega)
      refine ⟨(hrest.cons _).trans hperm, pairwise_cons.mpr ⟨fun d hd => ?_, hsorted⟩⟩
      exact (settle_le c l).2 d (hrest.mem_iff.mp hd)

theorem sortCandidates_spec (l : List (Candidate D)) :
    sortCandidates l ~ l ∧ (sortCandidates l).Pairwise (·.distance ≤ ·.distance) :=
  sortPlaces_spec _ l (by omega)

/-! ## The closest of all -/

/-- `r` are the `k` closest of `l`, or all if there are fewer, in the order of their distances. -/
structure Closest (k : ℕ) (l r : List (Candidate D)) : Prop where
  count : r.length = min k l.length
  sorted : r.Pairwise (·.distance ≤ ·.distance)
  best : ∃ rest, r ++ rest ~ l ∧ ∀ c ∈ r, ∀ d ∈ rest, c.distance ≤ d.distance

/-- What the shards leave out has `k` candidates before it. -/
theorem left_out {ι : Type} {k : ℕ} {l r : ι → List (Candidate D)} (is : List ι)
    (h : ∀ i ∈ is, Closest k (l i) (r i)) : ∃ rest, is.flatMap r ++ rest ~ is.flatMap l ∧
      ∀ d ∈ rest, ∃ i ∈ is, k ≤ (r i).length ∧ ∀ c ∈ r i, c.distance ≤ d.distance := by
  classical
  induction is with
  | nil => exact ⟨[], Perm.refl _, nofun⟩
  | cons i is ih =>
    obtain ⟨rest, hperm, hrest⟩ := ih (forall_mem_cons.mp h).2
    obtain ⟨hcount, -, own, hown, hbest⟩ := h i mem_cons_self
    refine ⟨own ++ rest, ?_, fun d hd => ?_⟩
    · rw [perm_iff_count] at hperm hown ⊢
      intro c
      have hc := hperm c
      have hd := hown c
      simp only [flatMap_cons, count_append] at hc hd ⊢
      omega
    · rcases mem_append.mp hd with hd | hd
      · refine ⟨i, mem_cons_self, ?_, fun c hc => hbest c hc d hd⟩
        have hlen := hown.length_eq
        have hpos := length_pos_of_mem hd
        rw [length_append] at hlen
        omega
      · obtain ⟨j, hj, hjs⟩ := hrest d hd
        exact ⟨j, mem_cons_of_mem _ hj, hjs⟩

/-- The first `k` of a sorted list have fewer than `k` before each of them. -/
theorem countP_lt {k : ℕ} {l : List (Candidate D)} (hsorted : l.Pairwise (·.distance ≤ ·.distance))
    {c : Candidate D} (hc : c ∈ l.take k) : l.countP (·.distance < c.distance) < k := by
  rw [← take_append_drop k l] at hsorted
  obtain ⟨-, -, hle⟩ := pairwise_append.mp hsorted
  have hrest : (l.drop k).countP (·.distance < c.distance) = 0 :=
    countP_eq_zero.mpr fun d hd => by simpa using hle c hc d hd
  have hfirst : (l.take k).countP (·.distance < c.distance) < (l.take k).length :=
    lt_of_le_of_ne countP_le_length fun heq => by simpa using countP_eq_length.mp heq c hc
  rw [← take_append_drop k l, countP_append, hrest]
  exact hfirst.trans_le (length_take_le k l)

/-- **The closest of the closest are the closest of all.** -/
theorem closest_merged {ι : Type} {k : ℕ} {l r : ι → List (Candidate D)} {is : List ι}
    {all : List (Candidate D)} (h : ∀ i ∈ is, Closest k (l i) (r i)) (hall : all ~ is.flatMap r)
    (hsorted : all.Pairwise (·.distance ≤ ·.distance)) : Closest k (is.flatMap l) (all.take k) := by
  obtain ⟨rest, hperm, hrest⟩ := left_out is h
  have hin {i : ι} (hi : i ∈ is) : r i <+~ all :=
    (sublist_flatten_of_mem (mem_map_of_mem hi)).subperm.trans hall.symm.subperm
  refine ⟨?_, hsorted.sublist (take_sublist ..), all.drop k ++ rest, ?_, fun c hc d hd => ?_⟩
  · have hlen := hperm.length_eq
    rw [length_append, ← hall.length_eq] at hlen
    rw [length_take, ← hlen]
    cases rest with
    | nil => rfl
    | cons d rest =>
      obtain ⟨i, hi, hk, -⟩ := hrest d mem_cons_self
      have := (hin hi).length_le
      omega
  · rw [← append_assoc, take_append_drop]
    exact (hall.append_right rest).trans hperm
  · rcases mem_append.mp hd with hd | hd
    · rw [← take_append_drop k all] at hsorted
      exact (pairwise_append.mp hsorted).2.2 c hc d hd
    · obtain ⟨i, hi, hk, hle⟩ := hrest d hd
      by_contra hlt
      have hnone : (r i).countP (·.distance < c.distance) = (r i).length :=
        countP_eq_length.mpr fun b hb => by simpa using (hle b hb).trans_lt (not_le.mp hlt)
      have hcount := (hin hi).countP_le (·.distance < c.distance)
      have := countP_lt hsorted hc
      omega

/-! ## What the search is to tell -/

section

variable (dist : Q → P → D)

def Shard.live (s : Shard Q P D) (query : Q) : List (Candidate D) := s.nodes.map fun n => ⟨n.1, dist query n.2⟩

def Shard.Exact (s : Shard Q P D) (query : Q) : Prop :=
  ∀ k, ∃ r, s.searchWithEf query k = .ok r ∧ Closest k (s.live dist query) r

/-- **What the search is to tell**, whatever `k` and the order of the answers: an error if a shard cannot be
    searched, and else the closest points of all, with a candidate of its own for each. -/
def Tells (shards : List (Shard Q P D)) (query : Q) : Prop :=
  ∀ k results, results ~ shards.map (·.search query k) → match search results k with
    | .error _ => ∃ s ∈ shards, ¬ s.Searchable
    | .ok r => (∀ s ∈ shards, s.Searchable) ∧ Closest k (shards.flatMap (·.live dist query)) r ∧
        ∀ c ∈ r, (shards.flatMap (·.live dist query)).count c = 1

/-- **The search tells what it is to tell just if every shard can be searched and no two live points have
    the same number of a node and the same distance.** -/
theorem sharded_iff (shards : List (Shard Q P D)) (query : Q) (hexact : ∀ s ∈ shards, s.Exact dist query) :
    Tells dist shards query ↔
      (∀ s ∈ shards, s.Searchable) ∧ (shards.flatMap (·.live dist query)).Nodup := by
  constructor
  · intro h
    -- so many that no point is left out
    obtain ⟨hs, ⟨hcount, -, rest, hperm, -⟩, hone⟩ := h (shards.flatMap (·.live dist query)).length _ (Perm.refl _)
    refine ⟨hs, nodup_iff_count_eq_one.mpr fun c hc => hone c ?_⟩
    have hlen := hperm.length_eq
    rw [length_append, hcount, min_self, Nat.add_eq_left, length_eq_zero_iff] at hlen
    rw [hlen, append_nil] at hperm
    exact hperm.mem_iff.mpr hc
  · rintro ⟨hs, hnodup⟩ k results hresults
    have hclosest : ∀ s ∈ shards,
        Closest k (s.live dist query) ((s.search query k).toOption.getD []) := by
      intro s hin
      obtain ⟨r, hr, hclosest⟩ := hexact s hin k
      simpa [Shard.search, hs s hin, hr, Except.mapError, Except.toOption] using hclosest
    obtain ⟨hperm, hsorted⟩ := sortCandidates_spec (results.flatMap fun r => r.toOption.getD [])
    have hall := hperm.trans (hresults.flatMap_right fun r => r.toOption.getD [])
    rw [flatMap_map] at hall
    have hmerged := closest_merged hclosest hall hsorted
    refine ⟨hs, hmerged, fun c hc => nodup_iff_count_eq_one.mp hnodup c ?_⟩
    obtain ⟨rest, hrest, -⟩ := hmerged.best
    exact hrest.mem_iff.mp (mem_append_left _ hc)

end

def sample (state : ShardState) (a b : ℕ) : List (Shard Unit ℕ ℕ) :=
  [⟨0, .active, [(0, a)], fun _ k => .ok ([⟨0, a⟩].take k)⟩, ⟨1, state, [(0, b)], fun _ k => .ok ([⟨0, b⟩].take k)⟩]

theorem sample_exact (state : ShardState) (a b : ℕ) : ∀ s ∈ sample state a b, s.Exact (fun _ p => p) () := by
  have hone : ∀ k, ∀ c : Candidate ℕ, Closest k [c] ([c].take k) := fun k c =>
    ⟨by simp, (pairwise_singleton _ _).sublist (take_sublist ..), [c].drop k, by simp, by cases k <;> simp⟩
  refine forall_mem_cons.mpr ⟨fun k => ⟨_, rfl, hone k _⟩, forall_mem_singleton.mpr fun k => ⟨_, rfl, hone k _⟩⟩

theorem sharded_two : Tells (fun _ p => p) (sample .active 3 5) () :=
  (sharded_iff _ _ _ (sample_exact _ 3 5)).mpr (by decide)

/-- Two points that cannot be told apart, and a shard that is passed over. -/
theorem sharded_alike : search ((sample .active 3 3).map (·.search () 2)) 2 = .ok [⟨0, 3⟩, ⟨0, 3⟩] ∧
    search ((sample .dead 3 5).map (·.search () 2)) 2 = .ok [⟨0, 3⟩] ∧
    ¬ Tells (fun _ p => p) (sample .active 3 3) () ∧ ¬ Tells (fun _ p => p) (sample .dead 3 5) () := by
  refine ⟨rfl, rfl, fun h => ?_, fun h => ?_⟩
  · have h := (h 2 _ (Perm.refl _)).2.2 ⟨0, 3⟩ (by decide)
    cases h
  · have h := (h 2 _ (Perm.refl _)).1
    revert h
    decide

end LimyeDB.Sharded
