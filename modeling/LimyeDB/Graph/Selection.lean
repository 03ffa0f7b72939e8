/-
  WHICH NEIGHBOURS ARE SELECTED, and why the others are not.
-/
import LimyeDB.Graph.Build
import LimyeDB.Graph.Walk

namespace LimyeDB.Graph

open Go Hnsw List Outcome

variable {F P D Q C S : Type} [Distance D]

/-! ## The loop -/

section Select

omit [Distance D] in
def Exists (h : Index F P Q C S) (i : ℕ) : Prop := ∃ node, h.nodes[i]? = some (some node)

def vectorOf (T : Tools F D Q C S) (h : Index F P Q C S) (i : ℕ) : List F :=
  match vectorAt T h i with
  | .value v => v
  | _ => []

/-- `c` is closer to `s`, which comes before it, than to the node. -/
def Shadows (T : Tools F D Q C S) (h : Index F P Q C S) (sorted : List (Candidate D))
    (s c : Candidate D) : Prop :=
  [s, c] <+ sorted ∧ Distance.lt (T.distance (vectorOf T h c.id) (vectorOf T h s.id)) c.distance = true

/-- **Where the loop stands**, with `working` ahead. -/
structure Sifting (T : Tools F D Q C S) (h : Index F P Q C S) (maxConn : ℕ)
    (sorted working selected discarded : List (Candidate D)) : Prop where
  split : ∃ done, sorted = done ++ working ∧ selected <+ done ∧ discarded <+ done ∧
    (selected ++ discarded).Perm done
  atMost : selected.length ≤ maxConn
  readable : ∀ c ∈ selected, vectorOf T h c.id ≠ []
  rejected : ∀ c ∈ discarded, vectorOf T h c.id = [] ∨ ∃ s ∈ selected, Shadows T h sorted s c

variable {T : Tools F D Q C S} {h : Index F P Q C S} {maxConn : ℕ} {c : Candidate D}
  {candidates sorted working selected discarded : List (Candidate D)}

theorem vectorAt_eq (T : Tools F D Q C S) {i : ℕ} (hi : Exists h i) :
    vectorAt T h i = .value (vectorOf T h i) := by
  obtain ⟨node, hnode⟩ := hi
  unfold vectorOf vectorAt
  rw [nodeAt_eq hnode]
  rfl

theorem accepts_spec (T : Tools F D Q C S) (cVec : List F) (c : Candidate D)
    (hsel : ∀ s ∈ selected, Exists h s.id) : ∃ b, accepts T h cVec c selected = .value b ∧
      (b = false → ∃ s ∈ selected, Distance.lt (T.distance cVec (vectorOf T h s.id)) c.distance = true) := by
  induction selected with
  | nil => exact ⟨true, rfl, nofun⟩
  | cons s selected ih =>
    unfold accepts
    simp only [vectorAt_eq T (hsel s mem_cons_self), value_bind]
    split
    · rename_i hlt
      exact ⟨false, rfl, fun _ => ⟨s, mem_cons_self, hlt.2⟩⟩
    · obtain ⟨b, hb, hfalse⟩ := ih fun s' hs' => hsel s' (mem_cons_of_mem s hs')
      refine ⟨b, hb, fun h => ?_⟩
      obtain ⟨s', hs', hlt⟩ := hfalse h
      exact ⟨s', mem_cons_of_mem s hs', hlt⟩

namespace Sifting

theorem perm (hs : Sifting T h maxConn sorted working selected discarded) :
    (selected ++ (discarded ++ working)).Perm sorted := by
  obtain ⟨done, rfl, -, -, hperm⟩ := hs.split
  rw [← append_assoc]
  exact hperm.append_right working

theorem discard (hs : Sifting T h maxConn sorted (c :: working) selected discarded)
    (hc : vectorOf T h c.id = [] ∨ ∃ s ∈ selected,
      Distance.lt (T.distance (vectorOf T h c.id) (vectorOf T h s.id)) c.distance = true) :
    Sifting T h maxConn sorted working selected (discarded ++ [c]) := by
  obtain ⟨done, rfl, hsel, hdis, hperm⟩ := hs.split
  refine ⟨⟨done ++ [c], by simp, hsel.trans (sublist_append_left ..), hdis.append (.refl _), ?_⟩,
    hs.atMost, hs.readable, fun c' hc' => ?_⟩
  · rw [← append_assoc]
    exact hperm.append_right [c]
  · rcases mem_append.mp hc' with hc' | hc'
    · exact hs.rejected c' hc'
    · cases mem_singleton.mp hc'
      refine hc.imp_right fun ⟨s, hs, hlt⟩ => ⟨s, hs, ?_, hlt⟩
      exact (singleton_sublist.mpr (hsel.subset hs)).append (singleton_sublist.mpr mem_cons_self)

theorem accept (hs : Sifting T h maxConn sorted (c :: working) selected discarded)
    (hroom : selected.length < maxConn) (hc : vectorOf T h c.id ≠ []) :
    Sifting T h maxConn sorted working (selected ++ [c]) discarded := by
  obtain ⟨done, rfl, hsel, hdis, hperm⟩ := hs.split
  refine ⟨⟨done ++ [c], by simp, hsel.append (.refl _), hdis.trans (sublist_append_left ..), ?_⟩, ?_,
    fun c' hc' => ?_, fun c' hc' => ?_⟩
  · rw [append_assoc]
    refine (perm_append_comm.append_left selected).trans ?_
    rw [← append_assoc]
    exact hperm.append_right [c]
  · simpa using hroom
  · rcases mem_append.mp hc' with hc' | hc'
    · exact hs.readable c' hc'
    · rwa [mem_singleton.mp hc']
  · exact (hs.rejected c' hc').imp_right fun ⟨s, hs, hshadow⟩ => ⟨s, mem_append_left _ hs, hshadow⟩

end Sifting

theorem selectLoop_spec (hs : Sifting T h maxConn sorted working selected discarded)
    (hcand : ∀ c ∈ sorted, Exists h c.id) :
    ∃ sel dis rest, selectLoop T h maxConn working (selected, discarded) = .value (sel, dis) ∧
      Sifting T h maxConn sorted rest sel dis ∧ (rest = [] ∨ maxConn ≤ sel.length) := by
  induction working generalizing selected discarded with
  | nil => exact ⟨selected, discarded, [], rfl, hs, .inl rfl⟩
  | cons c working ih =>
    unfold selectLoop
    by_cases hfull : maxConn ≤ selected.length
    · rw [if_pos hfull]
      exact ⟨selected, discarded, c :: working, rfl, hs, .inr hfull⟩
    · obtain ⟨done, hsplit, hsub, -⟩ := hs.split
      have hmem : ∀ s ∈ selected, Exists h s.id := fun s hs =>
        hcand s (hsplit ▸ mem_append_left _ (hsub.subset hs))
      have hc := vectorAt_eq T (hcand c (hsplit ▸ mem_append_right _ mem_cons_self))
      obtain ⟨b, hb, hreject⟩ := accepts_spec T (vectorOf T h c.id) c hmem
      rw [if_neg hfull]
      simp only [hc, value_bind, hb]
      split
      · rename_i hnil
        exact ih (hs.discard (.inl hnil))
      · rename_i hvec
        cases b with
        | false => exact ih (hs.discard (.inr (hreject rfl)))
        | true => exact ih (hs.accept (not_le.mp hfull) hvec)

/-! ## The selection -/

theorem selectNeighborsHeuristic_cases (T : Tools F D Q C S) (maxConn : ℕ)
    (hcand : ∀ c ∈ candidates, Exists h c.id) :
    (candidates.length ≤ maxConn ∧ selectNeighborsHeuristic T h candidates maxConn = .value candidates) ∨
    maxConn < candidates.length ∧ ∃ sel dis rest,
      selectNeighborsHeuristic T h candidates maxConn =
        .value (sel ++ dis.take (maxConn - sel.length)) ∧
      Sifting T h maxConn (T.sort candidates) rest sel dis ∧ (rest = [] ∨ maxConn ≤ sel.length) := by
  unfold selectNeighborsHeuristic
  by_cases hfew : candidates.length ≤ maxConn
  · exact .inl ⟨hfew, if_pos hfew⟩
  · have hstart : Sifting T h maxConn (T.sort candidates) (T.sort candidates) [] [] :=
      ⟨⟨[], rfl, .refl _, .refl _, .refl _⟩, Nat.zero_le _, nofun, nofun⟩
    obtain ⟨sel, dis, rest, hrun, hs, hrest⟩ := selectLoop_spec hstart fun c hc =>
      hcand c ((T.sort_perm candidates).mem_iff.mp hc)
    rw [if_neg hfew]
    simp only [hrun, value_bind]
    exact .inr ⟨not_le.mp hfew, sel, dis, rest, rfl, hs, hrest⟩

theorem selectNeighborsHeuristic_spec (T : Tools F D Q C S) (candidates : List (Candidate D))
    (maxConn : ℕ) (hcand : ∀ c ∈ candidates, Exists h c.id) :
    ∃ sel rest, selectNeighborsHeuristic T h candidates maxConn = .value sel ∧
      (sel ++ rest).Perm candidates ∧ sel.length = min maxConn candidates.length := by
  rcases selectNeighborsHeuristic_cases T maxConn hcand with ⟨hfew, hsel⟩ | ⟨hmany, sel, dis, rest, hsel, hs, hrest⟩
  · exact ⟨candidates, [], hsel, by rw [append_nil], (min_eq_right hfew).symm⟩
  · have hperm := hs.perm.trans (T.sort_perm candidates)
    refine ⟨_, dis.drop (maxConn - sel.length) ++ rest, hsel, ?_, ?_⟩
    · rwa [append_assoc, ← append_assoc (dis.take _), take_append_drop]
    · have hlen := hperm.length_eq
      have := hs.atMost
      simp only [length_append, length_take] at hlen ⊢
      rcases hrest with rfl | hfull
      · simp only [length_nil] at hlen
        omega
      · omega

/-- **The selection**, of candidates whose distances are numbers. Those whose vector cannot be read count
    as discarded. -/
theorem selectNeighborsHeuristic_diverse (T : Tools F D Q C S) (h : Index F P Q C S)
    (candidates : List (Candidate D)) (maxConn : ℕ) (hpos : 0 < maxConn)
    (hids : (candidates.map Candidate.id).Nodup) (hcand : ∀ c ∈ candidates, Exists h c.id)
    (hnan : ∀ c ∈ candidates, Distance.nan c.distance = false) :
    ∃ sel, selectNeighborsHeuristic T h candidates maxConn = .value sel ∧
      (sel.map Candidate.id).Nodup ∧ (∀ c ∈ sel, c ∈ candidates) ∧ sel.length = min maxConn candidates.length ∧
      (maxConn < candidates.length → ∃ acc rej : List (Candidate D), sel = acc ++ rej.take (maxConn - acc.length) ∧
        (∀ c ∈ candidates, vectorOf T h c.id ≠ [] → ∃ s ∈ acc, ∀ c' ∈ candidates,
          vectorOf T h c'.id ≠ [] → Distance.lt c'.distance s.distance = false) ∧
        (∀ c ∈ rej, vectorOf T h c.id = [] ∨ ∃ s ∈ acc, Shadows T h (T.sort candidates) s c) ∧
        (∀ c ∈ candidates, c ∈ acc ∨ c ∈ rej ∨ acc.length = maxConn) ∧
        rej.Pairwise fun a b => Distance.lt b.distance a.distance = false) := by
  obtain ⟨sel, rest, hsel, hperm, hlen⟩ := selectNeighborsHeuristic_spec T candidates maxConn hcand
  have hall := (hperm.map Candidate.id).nodup_iff.mpr hids
  rw [map_append] at hall
  refine ⟨sel, hsel, (nodup_append.mp hall).1, fun c hc => hperm.mem_iff.mp (mem_append_left _ hc), hlen,
    fun hmany => ?_⟩
  rcases selectNeighborsHeuristic_cases T maxConn hcand with ⟨hfew, -⟩ | ⟨-, acc, rej, rest, hsel', hs, hrest⟩
  · exact absurd hmany (not_lt.mpr hfew)
  cases hsel.symm.trans hsel'
  have hsorted := T.sort_sorted candidates hnan
  have hmem : ∀ c, c ∈ candidates ↔ c ∈ acc ∨ c ∈ rej ∨ c ∈ rest := fun c => by
    rw [← (hs.perm.trans (T.sort_perm candidates)).mem_iff]
    simp
  obtain ⟨done, hdone, hacc, hrej, -⟩ := hs.split
  rw [hdone, pairwise_append] at hsorted
  refine ⟨acc, rej, rfl, fun c hc hvec => ?_, hs.rejected, fun c hc => ?_, hsorted.1.sublist hrej⟩
  · cases acc with
    | nil =>
      rcases (hmem c).mp hc with hc | hc | hc
      · cases hc
      · rcases hs.rejected c hc with hnil | ⟨s, hs, -⟩
        · exact absurd hnil hvec
        · cases hs
      · exact absurd (hrest.resolve_left (ne_nil_of_mem hc)) (not_le.mpr hpos)
    | cons s acc =>
      have hfirst : ∀ s' ∈ s :: acc, Distance.lt s'.distance s.distance = false := by
        intro s' hs'
        rcases mem_cons.mp hs' with heq | hs'
        · rw [heq]
          exact Distance.irrefl _
        · exact (pairwise_cons.mp (hsorted.1.sublist hacc)).1 s' hs'
      refine ⟨s, mem_cons_self, fun c' hc' hvec' => ?_⟩
      rcases (hmem c').mp hc' with hin | hin | hin
      · exact hfirst c' hin
      · obtain ⟨s', hs', hsub, -⟩ := (hs.rejected c' hin).resolve_left hvec'
        have hbehind : Distance.lt c'.distance s'.distance = false :=
          rel_of_pairwise_cons ((T.sort_sorted candidates hnan).sublist hsub) (mem_singleton_self c')
        refine Bool.eq_false_iff.mpr fun hlt => ?_
        rcases Distance.cotrans hlt (hnan s' ((hmem s').mpr (.inl hs'))) with hlt | hlt
        · rw [hbehind] at hlt
          cases hlt
        · rw [hfirst s' hs'] at hlt
          cases hlt
      · exact hsorted.2.2 s (hacc.subset mem_cons_self) c' hin
  · rcases (hmem c).mp hc with hc | hc | hc
    · exact .inl hc
    · exact .inr (.inl hc)
    · exact .inr (.inr (le_antisymm hs.atMost (hrest.resolve_left (ne_nil_of_mem hc))))

end Select

/-! ## A vector that cannot be read -/

def unread : Index ℕ ℕ Unit Unit Unit where
  M := 2
  Mmax := 2
  efSearch := 1
  maxLevel := 0
  nodes := [some ⟨[1], [], 0, 0, false, none⟩, some ⟨[2], [3], 0, 0, false, none⟩]
  entryPoint := 0
  nodeCount := 2
  dimension := 1
  idToIndex _ := none
  deletedCount := 0
  rng := .const 0
  graph := ⟨4, 1, none, fun _ => none, .empty⟩
  vectorMmap := some ()

theorem selectNeighborsHeuristic_unread : ∃ sel : List (Candidate ℕ),
    selectNeighborsHeuristic line unread [⟨0, 1⟩, ⟨1, 2⟩] 1 = .value sel ∧
      ¬ ∃ s ∈ sel, ∀ c ∈ [(⟨0, 1⟩ : Candidate ℕ), ⟨1, 2⟩], Distance.lt c.distance s.distance = false :=
  ⟨[⟨1, 2⟩], by decide, by decide⟩

theorem selectNeighborsHeuristic_diverse_unread : ∃ sel : List (Candidate ℕ),
    selectNeighborsHeuristic line unread [⟨0, 1⟩, ⟨1, 2⟩] 1 = .value sel ∧ sel.length = 1 := by
  obtain ⟨sel, hsel, -, -, hlen, -⟩ := selectNeighborsHeuristic_diverse line unread [⟨0, 1⟩, ⟨1, 2⟩] 1
    (by decide) (by decide)
    (fun c hc => by
      simp only [mem_cons, not_mem_nil, or_false] at hc
      rcases hc with rfl | rfl <;> exact ⟨_, rfl⟩)
    fun _ _ => rfl
  exact ⟨sel, hsel, hlen⟩

end LimyeDB.Graph
