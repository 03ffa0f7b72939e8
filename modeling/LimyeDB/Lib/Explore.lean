/-
  EXPLORING A GRAPH WITH A FRONTIER AND A LIST OF FINDINGS, over any nodes, any frontier and any rule for what
  is kept. Reading the graph may panic, and so may the rules.
-/
import LimyeDB.Go.Outcome

namespace LimyeDB.Lib.Explore

open Go List Outcome

variable {V W ι γ σ : Type}

/-! ## The loops -/

/-- The body for each node of the list that is not visited yet; `visit` marks it. -/
def visitEach (visit : V → ι → V × Bool) (body : ι → σ → Outcome Empty σ) :
    List ι → V × σ → Outcome Empty (V × σ)
  | [], s => .value s
  | i :: is, (v, s) =>
    match visit v i with
    | (v, true) => visitEach visit body is (v, s)
    | (v, false) => do
      let s ← body i s
      visitEach visit body is (v, s)

structure Rules (ι γ : Type) where
  pop : List γ → Option (γ × List γ)
  stop : γ → List γ → Outcome Empty Bool
  neighbors : γ → Outcome Empty (List ι)
  consider : ι → List γ × List γ → Outcome Empty (List γ × List γ)

/-- The findings when the frontier is empty or the rules say stop. The fuel is the number of candidates that
    may be taken. -/
def explore (R : Rules ι γ) (visit : V → ι → V × Bool) :
    ℕ → V × List γ × List γ → Outcome Empty (List γ)
  | 0, _ => .panic
  | fuel + 1, (v, frontier, found) =>
    match R.pop frontier with
    | none => .value found
    | some (c, frontier) => do
      let stop ← R.stop c found
      if stop then return found
      let is ← R.neighbors c
      let s ← visitEach visit R.consider is (v, frontier, found)
      explore R visit fuel s

theorem visitEach_keeps {visit : V → ι → V × Bool} {body : ι → σ → Outcome Empty σ} {I : σ → Prop}
    (hbody : ∀ i s s', I s → body i s = .value s' → I s') {is : List ι} {v v' : V} {s s' : σ}
    (hs : I s) (hrun : visitEach visit body is (v, s) = .value (v', s')) : I s' := by
  induction is generalizing v s with
  | nil =>
    cases hrun
    exact hs
  | cons i is ih =>
    unfold visitEach at hrun
    split at hrun
    · exact ih hs hrun
    · obtain ⟨s₁, hone, hrest⟩ := bind_eq_value.mp hrun
      exact ih (hbody i s s₁ hs hone) hrest

/-- **What the rules keep of the findings, an exploration that ends keeps**, whatever the graph. -/
theorem explore_keeps {R : Rules ι γ} {visit : V → ι → V × Bool} {I : List γ → Prop}
    (hconsider : ∀ i fr found fr' found', I found →
      R.consider i (fr, found) = .value (fr', found') → I found')
    {fuel : ℕ} {v : V} {fr found found' : List γ} (hfound : I found)
    (hrun : explore R visit fuel (v, fr, found) = .value found') : I found' := by
  induction fuel generalizing v fr found with
  | zero => cases hrun
  | succ fuel ih =>
    unfold explore at hrun
    split at hrun
    · cases hrun
      exact hfound
    · obtain ⟨stop, -, hrun⟩ := bind_eq_value.mp hrun
      split at hrun
      · cases hrun
        exact hfound
      · obtain ⟨is, -, hrun⟩ := bind_eq_value.mp hrun
        obtain ⟨⟨v₁, fr₁, found₁⟩, hvisit, hrun⟩ := bind_eq_value.mp hrun
        refine ih (visitEach_keeps (I := fun s => I s.2) (fun i s s' => ?_) hfound hvisit) hrun
        exact hconsider i s.1 s.2 s'.1 s'.2

/-! ## The visited nodes -/

section Visited

variable {visit : V → ι → V × Bool} {visit' : W → ι → W × Bool} {Same : V → W → Prop}

/-- Two records of the visited nodes that always give the same answers. -/
def Agree (visit : V → ι → V × Bool) (visit' : W → ι → W × Bool) (Same : V → W → Prop) : Prop :=
  ∀ v w i, Same v w → (visit v i).2 = (visit' w i).2 ∧ Same (visit v i).1 (visit' w i).1

theorem visitEach_congr (h : Agree visit visit' Same) (body : ι → σ → Outcome Empty σ)
    (is : List ι) {v : V} {w : W} (hvw : Same v w) (s : σ) :
    (visitEach visit body is (v, s) = .panic ∧ visitEach visit' body is (w, s) = .panic) ∨
      ∃ v' w' s', visitEach visit body is (v, s) = .value (v', s') ∧
        visitEach visit' body is (w, s) = .value (w', s') ∧ Same v' w' := by
  induction is generalizing v w s with
  | nil => exact .inr ⟨v, w, s, rfl, rfl, hvw⟩
  | cons i is ih =>
    obtain ⟨hseen, hsame⟩ := h v w i hvw
    unfold visitEach
    rcases hv : visit v i with ⟨v₁, seen⟩
    rcases hw : visit' w i with ⟨w₁, seen'⟩
    rw [hv, hw] at hseen hsame
    subst hseen
    cases seen with
    | true => exact ih hsame s
    | false =>
      cases body i s with
      | value s => exact ih hsame s
      | error e => exact e.elim
      | panic => exact .inl ⟨rfl, rfl⟩

theorem explore_congr (h : Agree visit visit' Same) (R : Rules ι γ) (fuel : ℕ) {v : V} {w : W}
    (hvw : Same v w) (s : List γ × List γ) :
    explore R visit fuel (v, s) = explore R visit' fuel (w, s) := by
  induction fuel generalizing v w s with
  | zero => rfl
  | succ fuel ih =>
    obtain ⟨frontier, found⟩ := s
    unfold explore
    cases R.pop frontier with
    | none => rfl
    | some cf =>
      obtain ⟨c, frontier⟩ := cf
      simp only
      cases R.stop c found with
      | error e => exact e.elim
      | panic => rfl
      | value b =>
        cases b with
        | true => rfl
        | false =>
          cases R.neighbors c with
          | error e => exact e.elim
          | panic => rfl
          | value is =>
            simp only [value_bind]
            rcases visitEach_congr h R.consider is hvw (frontier, found) with
              ⟨hv, hw⟩ | ⟨v', w', s', hv, hw, hsame⟩
            · rw [hv, hw]
              rfl
            · rw [hv, hw]
              exact ih hsame s'

end Visited

def mark [DecidableEq ι] (v : Finset ι) (i : ι) : Finset ι × Bool :=
  (insert i v, i ∈ v)

theorem visitEach_queue [DecidableEq ι] (is : List ι) (v : Finset ι) (queue : List ι) :
    ∃ fresh, visitEach mark (fun i queue => .value (queue ++ [i])) is (v, queue) =
        .value (v ∪ is.toFinset, queue ++ fresh) ∧
      fresh.Nodup ∧ ∀ i, i ∈ fresh ↔ i ∈ is ∧ i ∉ v := by
  induction is generalizing v queue with
  | nil => exact ⟨[], by simp [visitEach], nodup_nil, by simp⟩
  | cons i is ih =>
    have hunion : v ∪ (i :: is).toFinset = insert i v ∪ is.toFinset := by
      rw [toFinset_cons, Finset.union_insert, Finset.insert_union]
    unfold visitEach mark
    by_cases hi : i ∈ v
    · simp only [decide_eq_true hi]
      obtain ⟨fresh, hrun, hnodup, hmem⟩ := ih (insert i v) queue
      refine ⟨fresh, by rw [hunion]; exact hrun, hnodup, fun j => ?_⟩
      rw [hmem, Finset.insert_eq_of_mem hi, mem_cons]
      exact ⟨fun ⟨hj, hnew⟩ => ⟨.inr hj, hnew⟩,
        fun ⟨hj, hnew⟩ => ⟨hj.resolve_left fun heq => hnew (heq ▸ hi), hnew⟩⟩
    · simp only [decide_eq_false hi, value_bind]
      obtain ⟨fresh, hrun, hnodup, hmem⟩ := ih (insert i v) (queue ++ [i])
      refine ⟨i :: fresh, ?_, nodup_cons.mpr ⟨fun hin => ?_, hnodup⟩, fun j => ?_⟩
      · rw [hunion, append_cons queue i fresh]
        exact hrun
      · exact ((hmem i).mp hin).2 (Finset.mem_insert_self i v)
      · rw [mem_cons, hmem, mem_cons, Finset.mem_insert, not_or]
        constructor
        · rintro (rfl | ⟨hj, -, hnew⟩)
          · exact ⟨.inl rfl, hi⟩
          · exact ⟨.inr hj, hnew⟩
        · rintro ⟨hj, hnew⟩
          by_cases hji : j = i
          · exact .inl hji
          · exact .inr ⟨hj.resolve_left hji, hji, hnew⟩

/-! ## What an exploration finds -/

/-- `live` nodes may enter the frontier, `wanted` ones may be found; `look` is a node's candidate; the rules
    keep `ok`. -/
structure Space (ι γ : Type) where
  nodes : Finset ι
  conn : ι → List ι
  live : ι → Prop
  wanted : ι → Prop
  id : γ → ι
  look : ι → γ
  ok : List γ → Prop

def Space.Reach (T : Space ι γ) : ι → ι → Prop :=
  Relation.ReflTransGen fun a b => b ∈ T.conn a ∧ T.live b

/-- What the rules may do with what is reachable. They may panic, unless they are `total`. -/
structure Lawful (R : Rules ι γ) (T : Space ι γ) (entry : ι) (total : Prop) : Prop where
  id_look : ∀ i, T.id (T.look i) = i
  pop_some : ∀ {l c l'}, R.pop l = some (c, l') → l.Perm (c :: l')
  pop_none : ∀ {l}, R.pop l = none → l = []
  closed : ∀ i ∈ T.nodes, ∀ j ∈ T.conn i, j ∈ T.nodes
  neighbors : ∀ i ∈ T.nodes, R.neighbors (T.look i) = .value (T.conn i)
  stop : ∀ c found, T.ok found →
    (∃ b, R.stop c found = .value b) ∨ ¬ total ∧ R.stop c found = .panic
  consider : ∀ i ∈ T.nodes, i ≠ entry → (T.live i → T.Reach entry i) → ∀ frontier found, T.ok found →
    (∃ frontier' found',
    R.consider i (frontier, found) = .value (frontier', found') ∧ T.ok found' ∧
    (frontier'.Perm frontier ∨ T.live i ∧ frontier'.Perm (T.look i :: frontier)) ∧
    ∃ dropped, (found' ++ dropped).Perm found ∨
      T.live i ∧ T.wanted i ∧ (found' ++ dropped).Perm (T.look i :: found)) ∨
    ¬ total ∧ R.consider i (frontier, found) = .panic

/-- The rules drop nothing, as long as not every node is found. -/
structure Exhaustive (R : Rules ι γ) (T : Space ι γ) (entry : ι) : Prop where
  stop : ∀ {c found}, T.ok found → R.stop c found = .value true → T.nodes.card ≤ found.length
  consider : ∀ {i frontier found frontier' found'}, i ∈ T.nodes → i ≠ entry →
    (T.live i → T.Reach entry i) → T.ok found → found.length < T.nodes.card → R.consider i (frontier, found) = .value (frontier', found') →
    (T.live i → frontier'.Perm (T.look i :: frontier)) ∧
    (T.live i → T.wanted i → found'.Perm (T.look i :: found)) ∧
    (¬ (T.live i ∧ T.wanted i) → found'.Perm found)

section Spec

variable [DecidableEq ι] {R : Rules ι γ} {T : Space ι γ} {total : Prop} {entry : ι}
  {found₀ : List γ}

/-- The state of an exploration that began at `entry` with the findings `found₀`. -/
structure State (T : Space ι γ) (entry : ι) (found₀ : List γ) (v : Finset ι)
    (frontier found : List γ) : Prop where
  visited : v ⊆ T.nodes
  begun : entry ∈ v
  queued : ∀ c ∈ frontier, c = T.look (T.id c) ∧ T.id c ∈ v ∧ T.Reach entry (T.id c)
  findings : ∀ c ∈ found, c = T.look (T.id c) ∧ T.id c ∈ v ∧ (c ∈ found₀ ∨
    T.id c ≠ entry ∧ T.live (T.id c) ∧ T.wanted (T.id c) ∧ T.Reach entry (T.id c))
  once : (found.map T.id).Nodup
  ok : T.ok found

/-- Nothing was dropped: a live node that was visited is explored (`done`) or in the frontier, and
    is among the findings if it may be. -/
structure Kept (T : Space ι γ) (entry : ι) (found₀ : List γ) (done v : Finset ι)
    (frontier found : List γ) : Prop where
  pending : ∀ i ∈ v, i = entry ∨ T.live i → i ∈ done ∨ ∃ c ∈ frontier, T.id c = i
  findings : ∀ i ∈ v, i ≠ entry → T.live i → T.wanted i → T.look i ∈ found
  first : ∀ c ∈ found₀, c ∈ found

variable {v done : Finset ι} {frontier found frontier' found' : List γ} {i : ι}

theorem State.length_le (hs : State T entry found₀ v frontier found) : found.length ≤ v.card := by
  rw [← length_map, ← toFinset_card_of_nodup hs.once]
  refine Finset.card_le_card fun i hi => ?_
  obtain ⟨c, hc, rfl⟩ := mem_map.mp (mem_toFinset.mp hi)
  exact (hs.findings c hc).2.1

section

variable (hR : Lawful R T entry total)
include hR

section

variable (hnode : i ∈ T.nodes) (hne : i ≠ entry) (hreach : T.live i → T.Reach entry i)
  (hc : R.consider i (frontier, found) = .value (frontier', found'))
include hnode hne hreach hc

omit [DecidableEq ι] in
theorem Lawful.considered (hok : T.ok found) :
    T.ok found' ∧ (frontier'.Perm frontier ∨ T.live i ∧ frontier'.Perm (T.look i :: frontier)) ∧
      ∃ dropped, (found' ++ dropped).Perm found ∨
        T.live i ∧ T.wanted i ∧ (found' ++ dropped).Perm (T.look i :: found) := by
  rcases hR.consider i hnode hne hreach frontier found hok with ⟨fr, fo, hcons, hrest⟩ | ⟨-, hpanic⟩
  · rw [hc] at hcons
    cases hcons
    exact hrest
  · rw [hc] at hpanic
    cases hpanic

theorem State.consider (hs : State T entry found₀ v frontier found) (hnew : i ∉ v) :
    State T entry found₀ (insert i v) frontier' found' ∧
      frontier'.length ≤ frontier.length + 1 := by
  obtain ⟨hok, hfr, dropped, hfo⟩ := hR.considered hnode hne hreach hc hs.ok
  have hsub : ∀ c ∈ found', c ∈ found ∨ c = T.look i ∧ T.live i ∧ T.wanted i := by
    intro c hc
    rcases hfo with hfo | ⟨hlive, hadm, hfo⟩
    · exact .inl (hfo.mem_iff.mp (mem_append_left _ hc))
    · rcases mem_cons.mp (hfo.mem_iff.mp (mem_append_left _ hc)) with hc | hc
      · exact .inr ⟨hc, hlive, hadm⟩
      · exact .inl hc
  refine ⟨⟨?_, ?_, ?_, ?_, ?_, hok⟩, ?_⟩
  · exact Finset.insert_subset hnode hs.visited
  · exact Finset.mem_insert_of_mem hs.begun
  · intro c hc
    have hold : c ∈ frontier → c = T.look (T.id c) ∧ T.id c ∈ insert i v ∧
        T.Reach entry (T.id c) := by
      intro hc
      obtain ⟨h₁, h₂, h₃⟩ := hs.queued c hc
      exact ⟨h₁, Finset.mem_insert_of_mem h₂, h₃⟩
    rcases hfr with hfr | ⟨hlive, hfr⟩
    · exact hold (hfr.mem_iff.mp hc)
    · rcases mem_cons.mp (hfr.mem_iff.mp hc) with rfl | hc
      · rw [hR.id_look]
        exact ⟨rfl, Finset.mem_insert_self .., hreach hlive⟩
      · exact hold hc
  · intro c hc
    rcases hsub c hc with hc | ⟨rfl, hlive, hadm⟩
    · obtain ⟨h₁, h₂, h₃⟩ := hs.findings c hc
      exact ⟨h₁, Finset.mem_insert_of_mem h₂, h₃⟩
    · rw [hR.id_look]
      exact ⟨rfl, Finset.mem_insert_self .., .inr ⟨hne, hlive, hadm, hreach hlive⟩⟩
  · -- the node is new, so its candidate is not among the findings yet
    have hall : ((found' ++ dropped).map T.id).Nodup := by
      rcases hfo with hfo | ⟨-, -, hfo⟩
      · exact (hfo.map T.id).nodup_iff.mpr hs.once
      · refine (hfo.map T.id).nodup_iff.mpr ?_
        rw [map_cons, hR.id_look]
        refine nodup_cons.mpr ⟨fun hmem => ?_, hs.once⟩
        obtain ⟨c, hc, hid⟩ := mem_map.mp hmem
        exact hnew (hid ▸ (hs.findings c hc).2.1)
    rw [map_append] at hall
    exact (nodup_append.mp hall).1
  · rcases hfr with hfr | ⟨-, hfr⟩
    · rw [hfr.length_eq]
      exact Nat.le_succ _
    · rw [hfr.length_eq, length_cons]

theorem Kept.consider (hE : Exhaustive R T entry)
    (hs : State T entry found₀ v frontier found) (hk : Kept T entry found₀ done v frontier found)
    (hnew : i ∉ v) :
    Kept T entry found₀ done (insert i v) frontier' found' := by
  -- a node is missing from the findings, so the rules have no reason to drop one
  have hroom : found.length < T.nodes.card := by
    refine lt_of_le_of_lt hs.length_le (Finset.card_lt_card ?_)
    exact ⟨hs.visited, fun hall => hnew (hall hnode)⟩
  obtain ⟨hfr, hin, hout⟩ := hE.consider hnode hne hreach hs.ok hroom hc
  obtain ⟨-, hfr', -⟩ := hR.considered hnode hne hreach hc hs.ok
  have hmore : ∀ c ∈ frontier, c ∈ frontier' := by
    intro c hc
    rcases hfr' with hfr' | ⟨-, hfr'⟩
    · exact hfr'.mem_iff.mpr hc
    · exact hfr'.mem_iff.mpr (mem_cons_of_mem _ hc)
  have hkeep : ∀ c ∈ found, c ∈ found' := by
    intro c hc
    by_cases hlive : T.live i ∧ T.wanted i
    · exact (hin hlive.1 hlive.2).mem_iff.mpr (mem_cons_of_mem _ hc)
    · exact (hout hlive).mem_iff.mpr hc
  refine ⟨fun j hj hlive => ?_, fun j hj hne hlive hadm => ?_, fun c hc => ?_⟩
  · rcases Finset.mem_insert.mp hj with rfl | hj
    · have hjlive : T.live j := hlive.resolve_left hne
      refine .inr ⟨T.look j, ?_, hR.id_look j⟩
      exact (hfr hjlive).mem_iff.mpr mem_cons_self
    · rcases hk.pending j hj hlive with hdone | ⟨c, hc, hid⟩
      · exact .inl hdone
      · exact .inr ⟨c, hmore c hc, hid⟩
  · rcases Finset.mem_insert.mp hj with rfl | hj
    · exact (hin hlive hadm).mem_iff.mpr mem_cons_self
    · exact hkeep _ (hk.findings j hj hne hlive hadm)
  · exact hkeep c (hk.first c hc)

end

/-- **The neighbours of one node**, all visited in the end. A new node costs one place in the frontier at
    most. -/
theorem State.visitEach {a : ι} (ha : T.Reach entry a) {is : List ι}
    (his : ∀ i ∈ is, i ∈ T.conn a) (hnodes : ∀ i ∈ is, i ∈ T.nodes)
    (hs : State T entry found₀ v frontier found) :
    (∃ v' frontier' found', visitEach mark R.consider is (v, frontier, found) =
        .value (v', frontier', found') ∧
      State T entry found₀ v' frontier' found' ∧ v ⊆ v' ∧ (∀ i ∈ is, i ∈ v') ∧
      frontier'.length + v.card ≤ frontier.length + v'.card ∧
      (Exhaustive R T entry → ∀ done, Kept T entry found₀ done v frontier found →
        Kept T entry found₀ done v' frontier' found')) ∨
    ¬ total ∧ visitEach mark R.consider is (v, frontier, found) = .panic := by
  induction is generalizing v frontier found with
  | nil =>
    exact .inl
      ⟨v, frontier, found, rfl, hs, Finset.Subset.refl v, by simp, le_rfl, fun _ _ hk => hk⟩
  | cons i is ih =>
    have his' := fun j hj => his j (mem_cons_of_mem i hj)
    have hnodes' := fun j hj => hnodes j (mem_cons_of_mem i hj)
    unfold Explore.visitEach mark
    by_cases hseen : i ∈ v
    · simp only [hseen, decide_true, Finset.insert_eq_of_mem]
      refine (ih his' hnodes' hs).imp_left ?_
      rintro ⟨v', fr', fo', hrun, hs', hsub, hall, hlen, hkept⟩
      exact ⟨v', fr', fo', hrun, hs', hsub, forall_mem_cons.mpr ⟨hsub hseen, hall⟩, hlen, hkept⟩
    · have hreach : T.live i → T.Reach entry i := fun hlive =>
        ha.tail ⟨his i mem_cons_self, hlive⟩
      have hnode := hnodes i mem_cons_self
      have hne : i ≠ entry := fun heq => hseen (heq ▸ hs.begun)
      rcases hR.consider i hnode hne hreach frontier found hs.ok with
        ⟨fr₁, fo₁, hc, -⟩ | ⟨htotal, hpanic⟩
      · obtain ⟨hs₁, hlen₁⟩ := hs.consider hR hnode hne hreach hc hseen
        simp only [hseen, decide_false, hc, value_bind]
        refine (ih his' hnodes' hs₁).imp_left ?_
        rintro ⟨v', fr', fo', hrun, hs', hsub, hall, hlen, hkept⟩
        refine ⟨v', fr', fo', hrun, hs', (Finset.subset_insert ..).trans hsub,
          forall_mem_cons.mpr ⟨hsub (Finset.mem_insert_self ..), hall⟩, ?_,
          fun hE done hk => hkept hE done (hk.consider hR hnode hne hreach hc hE hs hseen)⟩
        rw [Finset.card_insert_of_notMem hseen] at hlen
        omega
      · simp only [hseen, decide_false, hpanic, panic_bind]
        exact .inr ⟨htotal, trivial⟩

end

/-- All that is reachable, and may be, is found. -/
def Complete (T : Space ι γ) (entry : ι) (found₀ found : List γ) : Prop :=
  (∀ c ∈ found₀, c ∈ found) ∧
    ∀ i, T.Reach entry i → i ≠ entry → T.wanted i → T.look i ∈ found

variable (hR : Lawful R T entry total)
include hR

omit [DecidableEq ι] in
theorem Lawful.reach (hentry : entry ∈ T.nodes) (h : T.Reach entry i) :
    i ∈ T.nodes ∧ (i = entry ∨ T.live i) := by
  induction h with
  | refl => exact ⟨hentry, .inl rfl⟩
  | tail _ hstep ih => exact ⟨hR.closed _ ih.1 _ hstep.1, .inr hstep.2⟩

omit [DecidableEq ι] hR in
theorem Kept.complete_of_empty (hbegun : entry ∈ v) (hk : Kept T entry found₀ done v [] found)
    (hdone : ∀ a ∈ done, ∀ j ∈ T.conn a, j ∈ v) : Complete T entry found₀ found := by
  have hvisited : ∀ i, T.Reach entry i → i ∈ v ∧ (i = entry ∨ T.live i) := by
    intro i hreach
    induction hreach with
    | refl => exact ⟨hbegun, .inl rfl⟩
    | @tail a b _ hstep ih =>
      rcases hk.pending a ih.1 ih.2 with ha | ⟨c, hc, -⟩
      · exact ⟨hdone a ha b hstep.1, .inr hstep.2⟩
      · exact absurd hc not_mem_nil
  refine ⟨hk.first, fun i hreach hne hadm => ?_⟩
  obtain ⟨hv, hlive⟩ := hvisited i hreach
  exact hk.findings i hv hne (hlive.resolve_left hne) hadm

theorem State.complete_of_full
    (hs : State T entry found₀ v frontier found) (hk : Kept T entry found₀ done v frontier found)
    (hfull : T.nodes.card ≤ found.length) : Complete T entry found₀ found := by
  have hall : (found.map T.id).toFinset = T.nodes := by
    refine Finset.eq_of_subset_of_card_le (fun i hi => ?_) ?_
    · obtain ⟨c, hc, rfl⟩ := mem_map.mp (mem_toFinset.mp hi)
      exact hs.visited (hs.findings c hc).2.1
    · rw [toFinset_card_of_nodup hs.once, length_map]
      exact hfull
  refine ⟨hk.first, fun i hreach _ _ => ?_⟩
  have hi := (hR.reach (hs.visited hs.begun) hreach).1
  rw [← hall, mem_toFinset] at hi
  obtain ⟨c, hc, rfl⟩ := mem_map.mp hi
  rw [← (hs.findings c hc).1]
  exact hc

theorem State.explore (fuel : ℕ) (hs : State T entry found₀ v frontier found)
    (hfuel : frontier.length + T.nodes.card < fuel + v.card) :
    (∃ v' frontier' found', explore R mark fuel (v, frontier, found) = .value found' ∧
      State T entry found₀ v' frontier' found' ∧
      (Exhaustive R T entry → ∀ done, Kept T entry found₀ done v frontier found →
        (∀ a ∈ done, ∀ j ∈ T.conn a, j ∈ v) → Complete T entry found₀ found')) ∨
    ¬ total ∧ explore R mark fuel (v, frontier, found) = .panic := by
  induction fuel generalizing v frontier found with
  | zero =>
    have := Finset.card_le_card hs.visited
    omega
  | succ fuel ih =>
    unfold Explore.explore
    cases hpop : R.pop frontier with
    | none =>
      refine .inl ⟨v, frontier, found, rfl, hs, fun _ done hk hdone => ?_⟩
      rw [hR.pop_none hpop] at hk
      exact hk.complete_of_empty hs.begun hdone
    | some cf =>
      obtain ⟨c, fr⟩ := cf
      have hperm := hR.pop_some hpop
      have hcin : c ∈ frontier := hperm.mem_iff.mpr mem_cons_self
      obtain ⟨hlook, hcv, hreach⟩ := hs.queued c hcin
      have hs₁ : State T entry found₀ v fr found :=
        { hs with queued := fun d hd => hs.queued d (hperm.mem_iff.mpr (mem_cons_of_mem c hd)) }
      have hlen := hperm.length_eq
      rw [length_cons] at hlen
      rcases hR.stop c found hs.ok with ⟨b, hstop⟩ | ⟨htotal, hpanic⟩
      case inr =>
        simp only [hpanic, panic_bind]
        exact .inr ⟨htotal, trivial⟩
      simp only [hstop, value_bind]
      cases b with
      | true =>
        refine .inl ⟨v, fr, found, rfl, hs₁, fun hE done hk _ => ?_⟩
        exact hs.complete_of_full hR hk (hE.stop hs.ok hstop)
      | false =>
        have hnode := hs.visited hcv
        have hneigh := hR.neighbors (T.id c) hnode
        rw [← hlook] at hneigh
        simp only [Bool.false_eq_true, if_false, hneigh, value_bind]
        rcases hs₁.visitEach hR hreach (fun i hi => hi) (hR.closed _ hnode) with
          ⟨v', fr', fo', hrun, hs', hsub, hall, hlen', hkept⟩ | ⟨htotal, hpanic⟩
        case inr =>
          simp only [hpanic, panic_bind]
          exact .inr ⟨htotal, trivial⟩
        simp only [hrun, value_bind]
        refine (ih hs' (by omega)).imp_left ?_
        rintro ⟨v'', fr'', fo'', hrest, hs'', hcomplete⟩
        refine ⟨v'', fr'', fo'', hrest, hs'', fun hE done hk hdone => ?_⟩
        -- the candidate has gone from the frontier to the explored nodes
        have hk₁ : Kept T entry found₀ (insert (T.id c) done) v fr found :=
          { hk with
            pending := fun i hi hlive => by
              rcases hk.pending i hi hlive with hin | ⟨d, hd, hid⟩
              · exact .inl (Finset.mem_insert_of_mem hin)
              · rcases mem_cons.mp (hperm.mem_iff.mp hd) with rfl | hd
                · exact .inl (hid ▸ Finset.mem_insert_self ..)
                · exact .inr ⟨d, hd, hid⟩ }
        refine hcomplete hE (insert (T.id c) done) (hkept hE _ hk₁) fun a ha j hj => ?_
        rcases Finset.mem_insert.mp ha with rfl | ha
        · exact hall j hj
        · exact hsub (hdone a ha j hj)

omit [DecidableEq ι] in
theorem state_start (hentry : entry ∈ T.nodes) (hok : T.ok found₀)
    (hfirst : found₀ = [] ∨ found₀ = [T.look entry]) :
    State T entry found₀ {entry} [T.look entry] found₀ where
  visited := Finset.singleton_subset_iff.mpr hentry
  begun := Finset.mem_singleton_self entry
  queued := by
    intro c hc
    rw [mem_singleton.mp hc, hR.id_look]
    exact ⟨rfl, Finset.mem_singleton_self entry, Relation.ReflTransGen.refl⟩
  findings := by
    intro c hc
    rcases hfirst with rfl | rfl
    · exact absurd hc not_mem_nil
    · rw [mem_singleton.mp hc, hR.id_look]
      exact ⟨rfl, Finset.mem_singleton_self entry, .inl mem_cons_self⟩
  once := by rcases hfirst with rfl | rfl <;> simp
  ok := hok

omit [DecidableEq ι] in
theorem kept_start : Kept T entry found₀ ∅ {entry} [T.look entry] found₀ where
  pending := by
    intro i hi _
    exact .inr ⟨T.look entry, mem_cons_self, (Finset.mem_singleton.mp hi) ▸ hR.id_look _⟩
  findings := fun i hi hne => absurd (Finset.mem_singleton.mp hi) hne
  first := fun c hc => hc

/-- **An exploration ends, and finds what was allowed in and is reachable**, each node once, all of it if the
    rules drop nothing. -/
theorem explore_spec (hentry : entry ∈ T.nodes) (hok : T.ok found₀)
    (hfirst : found₀ = [] ∨ found₀ = [T.look entry]) {fuel : ℕ} (hfuel : T.nodes.card < fuel) :
    (∃ found, explore R mark fuel ({entry}, [T.look entry], found₀) = .value found ∧ T.ok found ∧
      (found.map T.id).Nodup ∧ (∀ c ∈ found, c = T.look (T.id c) ∧ (c ∈ found₀ ∨
        T.id c ≠ entry ∧ T.live (T.id c) ∧ T.wanted (T.id c) ∧ T.Reach entry (T.id c))) ∧
      (Exhaustive R T entry → Complete T entry found₀ found)) ∨
    ¬ total ∧ explore R mark fuel ({entry}, [T.look entry], found₀) = .panic := by
  refine ((state_start hR hentry hok hfirst).explore hR fuel (by simp; omega)).imp_left ?_
  rintro ⟨v, fr, found, hrun, hs, hcomplete⟩
  refine ⟨found, hrun, hs.ok, hs.once, fun c hc => ?_, fun hE => ?_⟩
  · obtain ⟨hlook, -, hc⟩ := hs.findings c hc
    exact ⟨hlook, hc⟩
  · exact hcomplete hE ∅ (kept_start hR) fun a ha => absurd ha (Finset.notMem_empty a)

end Spec

end LimyeDB.Lib.Explore
