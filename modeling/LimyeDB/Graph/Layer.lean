/-
  WHAT THE SEARCH OF A LAYER FINDS, with and without a filter.
-/
import LimyeDB.Graph.Walk

namespace LimyeDB.Graph

open Go Hnsw Lib List Outcome Heap

variable {F P D Q C S : Type} [Distance D]

/-! ## Results -/

/-- From node to node over live ones; the first one need not be live. -/
def Reach (h : Index F P Q C S) (layer : ℕ) : ℕ → ℕ → Prop :=
  Relation.ReflTransGen fun a b => b ∈ conn h layer a ∧ Live h b

theorem Reach.live {h : Index F P Q C S} {layer a b : ℕ} (hab : Reach h layer a b) :
    b = a ∨ Live h b := by
  rcases Relation.ReflTransGen.cases_tail hab with rfl | ⟨c, -, -, hlive⟩
  · exact .inl rfl
  · exact .inr hlive

theorem Area.reach {h : Index F P Q C S} {layer : ℕ} {N : Finset ℕ} (hA : Area h layer N)
    {i j : ℕ} (hi : i ∈ N) (hij : Reach h layer i j) : j ∈ N := by
  induction hij with
  | refl => exact hi
  | tail _ hstep ih => exact hA.closed _ ih _ hstep.1

/-- Results of a search that began at `entry` and wants `W`. -/
structure Found (T : Tools F D Q C S) (h : Index F P Q C S) (query : List F) (layer entry : ℕ)
    (W : ℕ → Prop) (cs : List (Candidate D)) : Prop where
  once : (cs.map Candidate.id).Nodup
  distance : ∀ c ∈ cs, c.distance = dist T h query c.id
  reach : ∀ c ∈ cs, Reach h layer entry c.id
  wanted : ∀ c ∈ cs, W c.id
  sorted : (∀ i, Reach h layer entry i → W i → Distance.nan (dist T h query i) = false) →
    cs.Pairwise fun a b => Distance.lt b.distance a.distance = false

def Whole (h : Index F P Q C S) (layer entry : ℕ) (wanted : ℕ → Prop)
    (cs : List (Candidate D)) : Prop :=
  ∀ i, Reach h layer entry i → wanted i → ∃ c ∈ cs, c.id = i

def space (T : Tools F D Q C S) (h : Index F P Q C S) (query : List F) (layer : ℕ) (N : Finset ℕ)
    (wanted : ℕ → Prop) (ok : List (Candidate D) → Prop) : Explore.Space ℕ (Candidate D) where
  nodes := N
  conn := conn h layer
  live := Live h
  wanted := wanted
  id := Candidate.id
  look i := ⟨i, dist T h query i⟩
  ok := ok

/-! ## The heap of results -/

def Heaped (clean : Prop) (l : List (Candidate D)) : Prop :=
  clean → (∀ c ∈ l, Distance.nan c.distance = false) ∧ Heap.Ordered farther l l.length

section Heaped

variable {clean : Prop} {l : List (Candidate D)}

theorem heaped_nil : Heaped clean ([] : List (Candidate D)) :=
  fun _ => ⟨nofun, fun _ _ hlt => absurd hlt (Nat.not_lt_zero _)⟩

variable {c : Candidate D}

theorem Heaped.push (hl : Heaped clean l)
    (hc : clean → Distance.nan c.distance = false) : Heaped clean (Heap.push farther l c) := by
  intro hclean
  obtain ⟨hall, hord⟩ := hl hclean
  refine ⟨fun x hx => ?_, push_ordered weakOn_farther hall (hc hclean) hord⟩
  rcases mem_cons.mp ((push_perm l c).mem_iff.mp hx) with rfl | hx
  · exact hc hclean
  · exact hall x hx

theorem Heaped.pop (hl : Heaped clean l) {l' : List (Candidate D)}
    (hpop : Heap.pop farther l = some (c, l')) : Heaped clean l' := by
  intro hclean
  obtain ⟨hall, hord⟩ := hl hclean
  refine ⟨fun x hx => ?_, (pop_ordered weakOn_farther hall hord hpop).1⟩
  exact hall x ((pop_perm hpop).mem_iff.mpr (mem_cons_of_mem c hx))

theorem sortedResults_perm (l : List (Candidate D)) : (sortedResults l).Perm l :=
  (reverse_perm _).trans (drain_perm l)

theorem Heaped.sorted (hl : Heaped clean l) (hclean : clean) :
    (sortedResults l).Pairwise fun a b => Distance.lt b.distance a.distance = false := by
  obtain ⟨hall, hord⟩ := hl hclean
  exact pairwise_reverse.mpr (drain_sorted weakOn_farther hall hord)

theorem dropWorst_eq (hl : l ≠ []) :
    ∃ c l', dropWorst l = .value l' ∧ l.Perm (c :: l') ∧ (Heaped clean l → Heaped clean l') := by
  unfold dropWorst
  cases hpop : Heap.pop farther l with
  | none => exact absurd (pop_eq_none.mp hpop) hl
  | some cl =>
    obtain ⟨c, l'⟩ := cl
    exact ⟨c, l', rfl, pop_perm hpop, fun h => h.pop hpop⟩

theorem tooFar_cases (ef : Int) (c : Candidate D) (l : List (Candidate D)) :
    (∃ b, tooFar ef c l = .value b ∧ (b = true → ef ≤ l.length)) ∨
      (l = [] ∧ ef ≤ 0) ∧ tooFar ef c l = .panic := by
  unfold tooFar
  split
  case isTrue hlt => exact .inl ⟨false, rfl, fun h => Bool.noConfusion h⟩
  case isFalse hlt =>
    cases l with
    | nil => exact .inr ⟨⟨rfl, Int.not_lt.mp hlt⟩, rfl⟩
    | cons x l => exact .inl ⟨_, rfl, fun _ => Int.not_lt.mp hlt⟩

theorem le_of_tooFar {ef : Int} (h : tooFar ef c l = .value true) : ef ≤ l.length := by
  rcases tooFar_cases ef c l with ⟨b, hb, hlong⟩ | ⟨-, hpanic⟩
  · cases hb.symm.trans h
    exact hlong rfl
  · cases hpanic.symm.trans h

theorem improves_cases (ef : Int) (d : D) (l : List (Candidate D)) :
    (∃ b, improves ef d l = .value b ∧ ((l.length : Int) < ef → b = true)) ∨
      (l = [] ∧ ef ≤ 0) ∧ improves ef d l = .panic := by
  unfold improves
  split
  case isTrue hlt => exact .inl ⟨true, rfl, fun _ => rfl⟩
  case isFalse hlt =>
    cases l with
    | nil => exact .inr ⟨⟨rfl, Int.not_lt.mp hlt⟩, rfl⟩
    | cons x l => exact .inl ⟨_, rfl, fun h => absurd h hlt⟩

end Heaped

/-! ## The search without a filter -/

section Plain

variable (T : Tools F D Q C S) (h : Index F P Q C S) (query : List F)

/-- No distance to what the search can have among its results is NaN. -/
def Clean (layer entry : ℕ) (wanted : ℕ → Prop) : Prop :=
  ∀ i, Reach h layer entry i → wanted i → Distance.nan (dist T h query i) = false

structure PlainOk (layer entry : ℕ) (ef : Int) (l : List (Candidate D)) : Prop where
  nonempty : l ≠ []
  length : (l.length : Int) ≤ max ef 1
  heap : Heaped (Clean T h query layer entry fun _ => True) l

variable {T h query} {layer entry : ℕ} {ef : Int} {N : Finset ℕ} {l : List (Candidate D)}

theorem PlainOk.take (hl : PlainOk T h query layer entry ef l) {c : Candidate D}
    (hc : (Clean T h query layer entry fun _ => True) → Distance.nan c.distance = false) :
    ∃ l' dropped, (if ef < ((Heap.push farther l c).length : Int) then
        dropWorst (Heap.push farther l c) else .value (Heap.push farther l c)) = .value l' ∧
      PlainOk T h query layer entry ef l' ∧ (l' ++ dropped).Perm (c :: l) ∧
      ((l.length : Int) < ef → dropped = []) := by
  have hperm : (Heap.push farther l c).Perm (c :: l) := push_perm l c
  have hlen : (Heap.push farther l c).length = l.length + 1 := length_push l c
  have hheap := hl.heap.push hc
  have hbound := hl.length
  by_cases hef : ef < ((Heap.push farther l c).length : Int)
  · have hne : Heap.push farther l c ≠ [] := ne_nil_of_length_pos (by omega)
    obtain ⟨x, l', hdrop, hperm', hheap'⟩ := dropWorst_eq hne
    have hlen' := hperm'.length_eq
    rw [length_cons] at hlen'
    have hpos : 0 < l.length := length_pos_iff.mpr hl.nonempty
    refine ⟨l', [x], by rw [if_pos hef, hdrop], ⟨?_, by omega, hheap' hheap⟩, ?_, fun hlt => ?_⟩
    · exact ne_nil_of_length_pos (by omega)
    · exact (perm_append_singleton x l').trans (hperm'.symm.trans hperm)
    · omega
  · refine ⟨_, [], if_neg hef, ⟨?_, by omega, hheap⟩, ?_, fun _ => rfl⟩
    · exact ne_nil_of_length_pos (by omega)
    · rwa [append_nil]

theorem searchRules_consider (hl : PlainOk T h query layer entry ef l) {i : ℕ} {node : Node F P}
    (hnode : h.nodes[i]? = some (some node)) (hreach : Live h i → Reach h layer entry i)
    (frontier : List (Candidate D)) :
    ∃ frontier' l', (searchRules T h query ef layer).consider i (frontier, l) =
        .value (frontier', l') ∧ PlainOk T h query layer entry ef l' ∧
      ((frontier' = frontier ∧ l' = l ∧ (Live h i → ef ≤ l.length)) ∨
        Live h i ∧ frontier'.Perm (⟨i, dist T h query i⟩ :: frontier) ∧
          ∃ dropped, (l' ++ dropped).Perm (⟨i, dist T h query i⟩ :: l) ∧
            ((l.length : Int) < ef → dropped = [])) := by
  unfold searchRules
  simp only [isDeleted_eq hnode, distanceTo_eq hnode, value_bind]
  cases hdel : node.deleted with
  | true =>
    refine ⟨frontier, l, rfl, hl, .inl ⟨rfl, rfl, fun hlive => ?_⟩⟩
    rw [(live_iff hnode).mp hlive] at hdel
    cases hdel
  | false =>
    have hlive := (live_iff hnode).mpr hdel
    rcases improves_cases ef (dist T h query i) l with
      ⟨better, hbetter, hroom⟩ | ⟨⟨hnil, -⟩, -⟩
    case inr => exact absurd hnil hl.nonempty
    simp only [hbetter, value_bind]
    cases better with
    | false =>
      refine ⟨frontier, l, rfl, hl, .inl ⟨rfl, rfl, fun _ => ?_⟩⟩
      by_contra hlt
      exact Bool.noConfusion (hroom (Int.not_le.mp hlt))
    | true =>
      obtain ⟨l', dropped, htake, hl', hperm, hkept⟩ :=
        hl.take (c := ⟨i, dist T h query i⟩) fun hclean => hclean i (hreach hlive) trivial
      refine ⟨Heap.push closer frontier ⟨i, dist T h query i⟩, l', ?_, hl',
        .inr ⟨hlive, push_perm .., dropped, hperm, hkept⟩⟩
      split at htake
      case isTrue hlong => rw [if_pos hlong, htake]; rfl
      case isFalse hlong =>
        cases Outcome.value.inj htake
        rw [if_neg hlong]
        rfl

/-- The search as an exploration in which everything is wanted. -/
def plainSpace (T : Tools F D Q C S) (h : Index F P Q C S) (query : List F) (layer entry : ℕ)
    (ef : Int) (N : Finset ℕ) : Explore.Space ℕ (Candidate D) :=
  space T h query layer N (fun _ => True) (PlainOk T h query layer entry ef)

theorem searchRules_lawful (hA : Area h layer N) :
    Explore.Lawful (searchRules T h query ef layer) (plainSpace T h query layer entry ef N) entry
      True where
  id_look _ := rfl
  pop_some := pop_perm
  pop_none := pop_eq_none.mp
  closed := hA.closed
  neighbors := hA.links
  stop c l hl := by
    rcases tooFar_cases ef c l with ⟨b, hb, -⟩ | ⟨⟨hnil, -⟩, -⟩
    · exact .inl ⟨b, hb⟩
    · exact absurd hnil hl.nonempty
  consider i hi _ hreach frontier l hl := by
    obtain ⟨node, hnode⟩ := hA.node i hi
    obtain ⟨fr, l', hrun, hl', hcase⟩ := searchRules_consider hl hnode hreach frontier
    refine .inl ⟨fr, l', hrun, hl', ?_⟩
    rcases hcase with ⟨rfl, rfl, -⟩ | ⟨hlive, hfr, dropped, hperm, -⟩
    · exact ⟨.inl (.refl _), [], .inl (by rw [append_nil])⟩
    · exact ⟨.inr ⟨hlive, hfr⟩, dropped, .inr ⟨hlive, trivial, hperm⟩⟩

theorem searchRules_exhaustive (hA : Area h layer N) (hef : (N.card : Int) ≤ ef) :
    Explore.Exhaustive (searchRules T h query ef layer) (plainSpace T h query layer entry ef N)
      entry where
  stop _ hstop := Int.ofNat_le.mp (hef.trans (le_of_tooFar hstop))
  consider {i frontier l frontier' l'} hi _ hreach hl hroom hrun := by
    have hlt : (l.length : Int) < ef := lt_of_lt_of_le (Int.ofNat_lt.mpr hroom) hef
    obtain ⟨node, hnode⟩ := hA.node i hi
    obtain ⟨fr, l₁, hrun', -, hcase⟩ := searchRules_consider hl hnode hreach frontier
    rw [hrun] at hrun'
    cases hrun'
    rcases hcase with ⟨rfl, rfl, hfull⟩ | ⟨hlive, hfr, dropped, hperm, hkept⟩
    · have hdead : ¬ Live h i := fun hlive => absurd (hfull hlive) (Int.not_le.mpr hlt)
      exact ⟨fun hlive => absurd hlive hdead, fun hlive => absurd hlive hdead,
        fun _ => .refl _⟩
    · rw [hkept hlt, append_nil] at hperm
      exact ⟨fun _ => hfr, fun _ _ => hperm, fun hnot => absurd ⟨hlive, trivial⟩ hnot⟩

theorem found_sortedResults {W : ℕ → Prop} (hheap : Heaped (Clean T h query layer entry W) l)
    (honce : (l.map Candidate.id).Nodup) (hlook : ∀ c ∈ l, c = ⟨c.id, dist T h query c.id⟩)
    (hreach : ∀ c ∈ l, Reach h layer entry c.id ∧ W c.id) :
    Found T h query layer entry W (sortedResults l) := by
  have hmem : ∀ c ∈ sortedResults l, c ∈ l := fun c => (sortedResults_perm l).mem_iff.mp
  exact ⟨((sortedResults_perm l).map _).nodup_iff.mpr honce,
    fun c hc => congrArg Candidate.distance (hlook c (hmem c hc)),
    fun c hc => (hreach c (hmem c hc)).1, fun c hc => (hreach c (hmem c hc)).2, hheap.sorted⟩

/-- **The search of a layer ends, and finds what it should.** The entry is among the results
    whether it is live or not. -/
theorem searchLayer_spec (T : Tools F D Q C S) (query : List F) (visited : VisitedList) (ef : Int)
    (hA : Area h layer N) (hentry : entry ∈ N) :
    ∃ cs, searchLayer T h query visited entry ef layer = .value cs ∧ cs ≠ [] ∧
      (cs.length : Int) ≤ max ef 1 ∧ Found T h query layer entry (fun _ => True) cs ∧
      ((N.card : Int) ≤ ef → Whole h layer entry (fun _ => True) cs) := by
  obtain ⟨node, hnode⟩ := hA.node entry hentry
  have hR : Explore.Lawful (searchRules T h query ef layer)
    (plainSpace T h query layer entry ef N) entry True := searchRules_lawful hA
  have hfirst : PlainOk T h query layer entry ef [⟨entry, dist T h query entry⟩] := by
    refine ⟨cons_ne_nil _ _, le_max_right _ _, ?_⟩
    exact heaped_nil.push fun hclean => hclean entry .refl trivial
  rcases Explore.explore_spec hR hentry hfirst (.inr rfl)
    (Nat.lt_succ_of_le hA.length_le) with ⟨found, hrun, hok, honce, hfound, hwhole⟩ | ⟨hno, -⟩
  case inr => exact absurd trivial hno
  have hperm := sortedResults_perm found
  refine ⟨sortedResults found, ?_, ?_, ?_,
    found_sortedResults hok.heap honce (fun c hc => (hfound c hc).1) fun c hc => ⟨?_, trivial⟩, ?_⟩
  · unfold searchLayer
    simp only [distanceTo_eq hnode, value_bind]
    rw [Explore.explore_congr VisitedList.agree_mark _ _ (visited.start_represents entry)]
    have hrun' : Explore.explore (searchRules T h query ef layer) Explore.mark
      (h.nodes.length + 1) ({entry}, Heap.push closer [] ⟨entry, dist T h query entry⟩,
        Heap.push farther [] ⟨entry, dist T h query entry⟩) = .value found := hrun
    rw [hrun']
    rfl
  · exact fun hnil => hok.nonempty (hperm.symm.trans (.of_eq hnil)).eq_nil
  · rw [hperm.length_eq]
    exact hok.length
  · rcases (hfound c hc).2 with hin | ⟨-, -, -, hreach⟩
    · rw [mem_singleton.mp hin]
      exact .refl
    · exact hreach
  · intro hef i hi _
    obtain ⟨hkept, hall⟩ := hwhole (searchRules_exhaustive hA hef)
    by_cases heq : i = entry
    · subst heq
      exact ⟨_, hperm.mem_iff.mpr (hkept _ mem_cons_self), rfl⟩
    · exact ⟨_, hperm.mem_iff.mpr (hall i hi heq trivial), rfl⟩

end Plain

/-! ## The search with a filter -/

def Passes (h : Index F P Q C S) (params : SearchParams P D) (i : ℕ) : Prop :=
  ∃ node, h.nodes[i]? = some (some node) ∧ passesFilter params node = .value true

/-- The filter does not panic on a node that a search from `entry` comes to. -/
def Evaluates (h : Index F P Q C S) (params : SearchParams P D) (layer entry : ℕ) : Prop :=
  ∀ (i : ℕ) (node : Node F P), Reach h layer entry i → h.nodes[i]? = some (some node) →
    ∃ b, passesFilter params node = .value b

/-- A search from `entry` comes to no other node. -/
def Alone (h : Index F P Q C S) (layer entry : ℕ) : Prop :=
  ∀ i, Reach h layer entry i → i = entry

/-- What a filtered search from `entry` needs in order not to panic. -/
def Careful (h : Index F P Q C S) (params : SearchParams P D) (ef searchEf : Int) (layer entry : ℕ) : Prop :=
  0 < ef ∧ (Alone h layer entry ∨ 0 < searchEf) ∧ Evaluates h params layer entry

/-- Outside the radius, if there is one. -/
def Beyond (params : SearchParams P D) (d : D) : Prop :=
  Distance.lt Distance.zero params.Radius = true ∧ Distance.lt params.Radius d = true

def Wanted (T : Tools F D Q C S) (h : Index F P Q C S) (query : List F) (params : SearchParams P D)
    (i : ℕ) : Prop :=
  Passes h params i ∧ ¬ Beyond params (dist T h query i)

/-- What is among the results of a search that began at `entry`: the entry itself is not measured
    against the radius. -/
def Shown (T : Tools F D Q C S) (h : Index F P Q C S) (query : List F) (params : SearchParams P D)
    (entry i : ℕ) : Prop :=
  Live h i ∧ Passes h params i ∧ (i = entry ∨ ¬ Beyond params (dist T h query i))

section Filtered

variable {T : Tools F D Q C S} {h : Index F P Q C S} {query : List F} {params : SearchParams P D}
  {layer entry : ℕ} {ef searchEf : Int} {N : Finset ℕ} {l : List (Candidate D)} {clean : Prop}

variable {i : ℕ} {node : Node F P}

omit [Distance D] in
theorem passes_iff (hnode : h.nodes[i]? = some (some node)) :
    Passes h params i ↔ passesFilter params node = .value true := by
  unfold Passes
  simp [hnode]

theorem dropWhileLonger_cases (fuel : ℕ) (hl : Heaped clean l) :
    (∃ l' dropped, dropWhileLonger ef fuel l = .value l' ∧ Heaped clean l' ∧
      (l' ++ dropped).Perm l ∧ ((l.length : Int) ≤ ef → dropped = [])) ∨
    ef < 0 ∧ dropWhileLonger ef fuel l = .panic := by
  induction fuel generalizing l with
  | zero => exact .inl ⟨l, [], rfl, hl, by rw [append_nil], fun _ => rfl⟩
  | succ fuel ih =>
    unfold dropWhileLonger
    by_cases hlong : ef < (l.length : Int)
    · rw [if_pos hlong]
      by_cases hnil : l = []
      · subst hnil
        exact .inr ⟨hlong, rfl⟩
      · obtain ⟨c, l', hdrop, hperm, hheap⟩ := dropWorst_eq hnil
        simp only [hdrop, value_bind]
        refine (ih (hheap hl)).imp_left ?_
        rintro ⟨l'', dropped, hrun, hl'', hperm', -⟩
        refine ⟨l'', c :: dropped, hrun, hl'', ?_, fun hle => absurd hlong (Int.not_lt.mpr hle)⟩
        exact perm_middle.trans ((hperm'.cons c).trans hperm.symm)
    · rw [if_neg hlong]
      exact .inl ⟨l, [], rfl, hl, by rw [append_nil], fun _ => rfl⟩

theorem filterResults_cases (params : SearchParams P D) (ef : Int) (hl : Heaped clean l)
    (hnode : h.nodes[i]? = some (some node))
    (hnan : clean → Wanted T h query params i → Distance.nan (dist T h query i) = false) :
    (∃ l', filterResults params ef node ⟨i, dist T h query i⟩ l = .value l' ∧ Heaped clean l' ∧
      ((l' = l ∧ (Wanted T h query params i → ef ≤ l.length)) ∨
        Wanted T h query params i ∧ ∃ dropped, (l' ++ dropped).Perm (⟨i, dist T h query i⟩ :: l) ∧
          ((l.length : Int) < ef → dropped = []))) ∨
    ¬ (0 < ef ∧ ∃ b, passesFilter params node = .value b) ∧
      filterResults params ef node ⟨i, dist T h query i⟩ l = .panic := by
  unfold filterResults
  cases hpass : passesFilter params node with
  | error e => exact e.elim
  | panic =>
    refine .inr ⟨fun htotal => ?_, rfl⟩
    obtain ⟨b, hb⟩ := htotal.2
    cases hb
  | value passes =>
  simp only [value_bind]
  cases passes with
  | false =>
    refine .inl ⟨l, rfl, hl, .inl ⟨rfl, fun hwanted => ?_⟩⟩
    rw [(passes_iff hnode).mp hwanted.1] at hpass
    cases hpass
  | true =>
    have hpasses : Passes h params i := (passes_iff hnode).mpr hpass
    simp only [Bool.not_true, Bool.false_eq_true, if_false, Bool.and_eq_true]
    split
    case isTrue hbeyond =>
      exact .inl ⟨l, rfl, hl, .inl ⟨rfl, fun hwanted => absurd hbeyond hwanted.2⟩⟩
    case isFalse hbeyond =>
      rcases improves_cases ef (dist T h query i) l with
        ⟨better, hbetter, hroom⟩ | ⟨⟨-, hef⟩, hpanic⟩
      case inr =>
        rw [hpanic]
        exact .inr ⟨fun htotal => absurd htotal.1 (Int.not_lt.mpr hef), rfl⟩
      simp only [hbetter, value_bind]
      cases better with
      | false =>
        refine .inl ⟨l, rfl, hl, .inl ⟨rfl, fun _ => Int.not_lt.mp fun hlt => ?_⟩⟩
        exact Bool.noConfusion (hroom hlt)
      | true =>
        have hpush := hl.push (c := ⟨i, dist T h query i⟩) fun hclean => hnan hclean ⟨hpasses, hbeyond⟩
        refine (dropWhileLonger_cases _ hpush).imp ?_ fun ⟨hneg, hpanic⟩ =>
          ⟨fun htotal => absurd htotal.1 (Int.not_lt.mpr hneg.le), hpanic⟩
        rintro ⟨l', dropped, hdrop, hl', hperm, hkept⟩
        refine ⟨l', hdrop, hl', .inr ⟨⟨hpasses, hbeyond⟩, dropped,
          hperm.trans (push_perm ..), fun hlt => hkept ?_⟩⟩
        rw [length_push]
        omega

theorem filterRules_consider (params : SearchParams P D) (ef searchEf : Int)
    (hl : Heaped (Clean T h query layer entry (Shown T h query params entry)) l)
    (hnode : h.nodes[i]? = some (some node)) (hother : i ≠ entry)
    (hreach : Live h i → Reach h layer entry i) (frontier : List (Candidate D)) :
    (∃ frontier' l', (filterRules T h query params ef searchEf layer).consider i (frontier, l) =
        .value (frontier', l') ∧
      Heaped (Clean T h query layer entry (Shown T h query params entry)) l' ∧
      ((frontier' = frontier ∧ (Live h i → searchEf ≤ l.length)) ∨
        Live h i ∧ frontier'.Perm (⟨i, dist T h query i⟩ :: frontier)) ∧
      ((l' = l ∧ (Live h i → Wanted T h query params i → ef ≤ l.length)) ∨
        Live h i ∧ Wanted T h query params i ∧ ∃ dropped,
          (l' ++ dropped).Perm (⟨i, dist T h query i⟩ :: l) ∧
          ((l.length : Int) < ef → dropped = []))) ∨
    ¬ Careful h params ef searchEf layer entry ∧
      (filterRules T h query params ef searchEf layer).consider i (frontier, l) = .panic := by
  unfold filterRules
  simp only [nodeAt_eq hnode, distanceTo_eq hnode, value_bind]
  cases hdel : node.deleted with
  | true =>
    have hdead : ¬ Live h i := by rw [live_iff hnode, hdel]; simp
    exact .inl ⟨frontier, l, rfl, hl, .inl ⟨rfl, fun hlive => absurd hlive hdead⟩,
      .inl ⟨rfl, fun hlive => absurd hlive hdead⟩⟩
  | false =>
    have hlive := (live_iff hnode).mpr hdel
    simp only [Bool.false_eq_true, if_false]
    rcases improves_cases searchEf (dist T h query i) l with
      ⟨near, hnear, hroom⟩ | ⟨⟨-, hef⟩, hpanic⟩
    case inr =>
      simp only [hpanic, panic_bind]
      refine .inr ⟨fun htotal => ?_, trivial⟩
      rcases htotal.2.1 with halone | hpos
      · exact hother (halone i (hreach hlive))
      · exact absurd hpos (Int.not_lt.mpr hef)
    simp only [hnear, value_bind]
    rcases filterResults_cases params ef hl hnode
      (fun hclean hw => hclean i (hreach hlive) ⟨hlive, hw.1, .inr hw.2⟩) with ⟨l', hres, hl', hcase⟩ | ⟨hnot, hpanic⟩
    case inr =>
      simp only [hpanic, panic_bind]
      exact .inr ⟨fun htotal => hnot ⟨htotal.1, htotal.2.2 i node (hreach hlive) hnode⟩, trivial⟩
    simp only [hres, value_bind]
    refine .inl ⟨_, l', rfl, hl', ?_, ?_⟩
    · cases near with
      | true => exact .inr ⟨hlive, push_perm ..⟩
      | false =>
        refine .inl ⟨rfl, fun _ => Int.not_lt.mp fun hlt => ?_⟩
        exact Bool.noConfusion (hroom hlt)
    · rcases hcase with ⟨rfl, hfull⟩ | hkept
      · exact .inl ⟨rfl, fun _ => hfull⟩
      · exact .inr ⟨hlive, hkept⟩

def filterSpace (T : Tools F D Q C S) (h : Index F P Q C S) (query : List F)
    (params : SearchParams P D) (layer entry : ℕ) (N : Finset ℕ) : Explore.Space ℕ (Candidate D) :=
  space T h query layer N (Wanted T h query params)
    (Heaped (Clean T h query layer entry (Shown T h query params entry)))

theorem filterRules_lawful (hA : Area h layer N) :
    Explore.Lawful (filterRules T h query params ef searchEf layer)
      (filterSpace T h query params layer entry N) entry (Careful h params ef searchEf layer entry) where
  id_look _ := rfl
  pop_some := pop_perm
  pop_none := pop_eq_none.mp
  closed := hA.closed
  neighbors := hA.links
  stop c l _ := by
    rcases tooFar_cases ef c l with ⟨b, hb, -⟩ | ⟨⟨-, hef⟩, hpanic⟩
    · exact .inl ⟨b, hb⟩
    · exact .inr ⟨fun htotal => absurd htotal.1 (Int.not_lt.mpr hef), hpanic⟩
  consider i hi hother hreach frontier l hl := by
    obtain ⟨node, hnode⟩ := hA.node i hi
    refine (filterRules_consider params ef searchEf hl hnode hother hreach frontier).imp_left ?_
    rintro ⟨fr, l', hrun, hl', hfr, hres⟩
    refine ⟨fr, l', hrun, hl', ?_, ?_⟩
    · rcases hfr with ⟨rfl, -⟩ | hfr
      · exact .inl (.refl _)
      · exact .inr hfr
    · rcases hres with ⟨rfl, -⟩ | ⟨hlive, hwanted, dropped, hperm, -⟩
      · exact ⟨[], .inl (by rw [append_nil])⟩
      · exact ⟨dropped, .inr ⟨hlive, hwanted, hperm⟩⟩

theorem filterRules_exhaustive (hA : Area h layer N) (hef : (N.card : Int) ≤ ef)
    (hsearch : Alone h layer entry ∨ (N.card : Int) ≤ searchEf) :
    Explore.Exhaustive (filterRules T h query params ef searchEf layer)
      (filterSpace T h query params layer entry N) entry where
  stop _ hstop := Int.ofNat_le.mp (hef.trans (le_of_tooFar hstop))
  consider {i frontier l frontier' l'} hi hother hreach hl hroom hrun := by
    have hlt : (l.length : Int) < N.card := Int.ofNat_lt.mpr hroom
    obtain ⟨node, hnode⟩ := hA.node i hi
    rcases filterRules_consider params ef searchEf hl hnode hother hreach frontier with
      ⟨fr, l₁, hrun', -, hfr, hres⟩ | ⟨-, hpanic⟩
    case inr =>
      rw [hrun] at hpanic
      cases hpanic
    rw [hrun] at hrun'
    cases hrun'
    refine ⟨fun hlive => ?_, fun hlive hwanted => ?_, fun hnot => ?_⟩
    · rcases hfr with ⟨-, hfull⟩ | ⟨-, hfr⟩
      · rcases hsearch with halone | hsearch
        · exact absurd (halone i (hreach hlive)) hother
        · exact absurd (hfull hlive) (Int.not_le.mpr (hlt.trans_le hsearch))
      · exact hfr
    · rcases hres with ⟨-, hfull⟩ | ⟨-, -, dropped, hperm, hkept⟩
      · exact absurd (hfull hlive hwanted) (Int.not_le.mpr (hlt.trans_le hef))
      · rwa [hkept (hlt.trans_le hef), append_nil] at hperm
    · rcases hres with ⟨rfl, -⟩ | ⟨hlive, hwanted, -⟩
      · exact .refl _
      · exact absurd ⟨hlive, hwanted⟩ hnot

/-- **The search with a filter finds what it should**, and panics only if a width is not positive or the filter
    panics. The width for the filter does not matter where the search comes to its start only. -/
theorem searchLayerWithFilter_spec (T : Tools F D Q C S) (query : List F) (visited : VisitedList)
    (ef : Int) (params : SearchParams P D) {searchEf : Int}
    (hsearch : calculateAdaptiveEf T ef (selectivity params.EstimatedSelectivity) = searchEf)
    (hA : Area h layer N) (hentry : entry ∈ N) :
    (∃ cs, searchLayerWithFilter T h query visited entry ef layer params = .value cs ∧
      Found T h query layer entry (Shown T h query params entry) cs ∧
      ((N.card : Int) ≤ ef → (Alone h layer entry ∨ (N.card : Int) ≤ searchEf) →
        Whole h layer entry (Shown T h query params entry) cs)) ∨
    ¬ Careful h params ef searchEf layer entry ∧
      searchLayerWithFilter T h query visited entry ef layer params = .panic := by
  obtain ⟨node, hnode⟩ := hA.node entry hentry
  have hR : Explore.Lawful (filterRules T h query params ef searchEf layer)
    (filterSpace T h query params layer entry N) entry (Careful h params ef searchEf layer entry) :=
    filterRules_lawful hA
  cases hpass : passesFilter params node with
  | error e => exact e.elim
  | panic =>
    refine .inr ⟨fun htotal => ?_, ?_⟩
    · obtain ⟨b, hb⟩ := htotal.2.2 entry node .refl hnode
      rw [hb] at hpass
      cases hpass
    · unfold searchLayerWithFilter
      simp only [distanceTo_eq hnode, nodeAt_eq hnode, value_bind, hpass, panic_bind]
  | value passes =>
  obtain ⟨found₀, hfound₀⟩ : ∃ l : List (Candidate D),
      (if passes && !node.deleted then
        Heap.push farther [] ⟨entry, dist T h query entry⟩ else []) = l := ⟨_, rfl⟩
  have hfirst : (found₀ = [] ∧ ¬ (Live h entry ∧ Passes h params entry)) ∨
      found₀ = [⟨entry, dist T h query entry⟩] ∧ Live h entry ∧ Passes h params entry := by
    rw [live_iff hnode, passes_iff hnode, hpass, ← hfound₀]
    cases passes <;> cases node.deleted <;> simp [Heap.push, Heap.up]
  have hheap : Heaped (Clean T h query layer entry (Shown T h query params entry)) found₀ := by
    rcases hfirst with ⟨rfl, -⟩ | ⟨rfl, hlive, hpasses⟩
    · exact heaped_nil
    · exact heaped_nil.push fun hclean => hclean entry .refl ⟨hlive, hpasses, .inl rfl⟩
  have hcode : searchLayerWithFilter T h query visited entry ef layer params =
      (Explore.explore (filterRules T h query params ef searchEf layer) Explore.mark
        (h.nodes.length + 1) ({entry}, [⟨entry, dist T h query entry⟩], found₀) >>=
        fun results => .value (sortedResults results)) := by
    unfold searchLayerWithFilter
    simp only [distanceTo_eq hnode, nodeAt_eq hnode, value_bind, hpass, hsearch, hfound₀]
    rw [Explore.explore_congr VisitedList.agree_mark _ _ (visited.start_represents entry)]
    rfl
  rw [hcode]
  refine (Explore.explore_spec hR hentry hheap (hfirst.imp And.left And.left)
    (Nat.lt_succ_of_le hA.length_le)).imp ?_ fun ⟨htotal, hpanic⟩ => ⟨htotal, ?_⟩
  · rintro ⟨found, hrun, hok, honce, hfound, hwhole⟩
    have hperm := sortedResults_perm found
    refine ⟨sortedResults found, ?_,
      found_sortedResults hok honce (fun c hc => (hfound c hc).1) fun c hc => ?_, ?_⟩
    · exact congrArg (· >>= fun results => Outcome.value (sortedResults results)) hrun
    · rcases (hfound c hc).2 with hin | ⟨-, hlive, hwanted, hreach⟩
      · rcases hfirst with ⟨rfl, -⟩ | ⟨rfl, hlive, hpasses⟩
        · exact absurd hin not_mem_nil
        · rw [mem_singleton.mp hin]
          exact ⟨.refl, hlive, hpasses, .inl rfl⟩
      · exact ⟨hreach, hlive, hwanted.1, .inr hwanted.2⟩
    · intro hef hsearch i hi ⟨hlive, hpasses, hnear⟩
      obtain ⟨hkept, hall⟩ := hwhole (filterRules_exhaustive hA hef hsearch)
      by_cases heq : i = entry
      · subst heq
        rcases hfirst with ⟨-, hnot⟩ | ⟨rfl, -⟩
        · exact absurd ⟨hlive, hpasses⟩ hnot
        · exact ⟨_, hperm.mem_iff.mpr (hkept _ mem_cons_self), rfl⟩
      · exact ⟨_, hperm.mem_iff.mpr (hall i hi heq ⟨hpasses, hnear.resolve_left heq⟩), rfl⟩
  · exact congrArg (· >>= fun results => Outcome.value (sortedResults results)) hpanic

end Filtered

end LimyeDB.Graph
