/-
  WHEN SEARCH RESULTS ARE VALID: distinct, at most k, in order, live, and as the filter and the radius ask
  for.
-/
import LimyeDB.Graph.Reached

namespace LimyeDB.Graph

open Go Hnsw Lib.Runs List

variable {F P D Q C S : Type} [Distance D]

/-! ## Widths -/

theorem wrapInt_eq {x : Int} (hlow : -9223372036854775808 ≤ x) (hhigh : x < 9223372036854775808) :
    wrapInt x = x :=
  Int.bmod_eq_of_le (by omega) (by omega)

theorem efMultiplier_range (sel : Option ℚ) : 3 / 2 ≤ efMultiplier sel ∧ efMultiplier sel ≤ 10 := by
  cases sel with
  | none => norm_num [efMultiplier]
  | some s =>
    unfold efMultiplier
    simp only
    generalize (if s ≤ 0 ∨ 1 < s then (1 / 2 : ℚ) else s) = t
    split_ifs <;> norm_num

/-- The width for a filter is still an int that is no smaller than `n`. -/
def Widens (T : Tools F D Q C S) (n ef : Int) (sel : Option ℚ) : Prop :=
  n ≤ T.scaleEf (efMultiplier sel) ef ∧ n ≤ wrapInt (ef * 15)

variable {T : Tools F D Q C S}

theorem Widens.le {n ef : Int} {sel : Option ℚ} (hw : Widens T n ef sel) :
    n ≤ calculateAdaptiveEf T ef sel := by
  unfold calculateAdaptiveEf
  simp only
  split
  · exact hw.2
  · exact hw.1

theorem widens_of_small (T : Tools F D Q C S) {n ef : Int} (hef : 0 ≤ ef) (hn : n ≤ ef)
    (hsmall : 15 * ef < 9223372036854775808) (sel : Option ℚ) : Widens T n ef sel := by
  obtain ⟨hlow, hhigh⟩ := efMultiplier_range sel
  refine ⟨hn.trans (T.le_scaleEf _ ef hlow hhigh hef hsmall), ?_⟩
  rw [wrapInt_eq (by omega) (by omega)]
  omega

section Width

variable {h : Index F P Q C S}

omit [Distance D] in
theorem le_overFetch (h : Index F P Q C S) {ef : Int} (hef : 0 ≤ ef)
    (hsmall : 2 * ef < 9223372036854775808) : ef ≤ overFetch h ef ∧ overFetch h ef ≤ 2 * ef := by
  unfold overFetch
  split
  · omega
  · rw [wrapInt_eq (by omega) (by omega)]
    omega

theorem Ranked.length_le {query : List F} {s : ℕ} {wanted : ℕ → Prop}
    {cs : List (Candidate D)} (hr : Ranked T h query s wanted cs) (hs : Sound h)
    (hstart : s < h.nodes.length) : cs.length ≤ h.nodes.length := by
  have hsub : (cs.map Candidate.id).toFinset ⊆ Finset.range h.nodes.length := by
    intro i hi
    obtain ⟨c, hc, rfl⟩ := mem_map.mp (mem_toFinset.mp hi)
    exact (hs.area 0).reach (Finset.mem_range.mpr hstart) (hr.reach c hc)
  have hcard := Finset.card_le_card hsub
  rwa [toFinset_card_of_nodup hr.once, length_map, Finset.card_range] at hcard

end Width

/-! ## Valid results -/

structure Valid (h : Index F P Q C S) (k : Int) (cs : List (Candidate D)) : Prop where
  once : (cs.map Candidate.id).Nodup
  atMost : cs.length ≤ k.toNat
  sorted : cs.Pairwise fun a b => Distance.le a.distance b.distance = true
  live : ∀ c ∈ cs, Live h c.id

/-- With a filter, and a radius if it is positive. -/
structure ValidFor (h : Index F P Q C S) (params : SearchParams P D) (cs : List (Candidate D)) :
    Prop extends Valid h params.K cs where
  passes : ∀ c ∈ cs, Passes h params c.id
  within : Distance.lt Distance.zero params.Radius = true →
    ∀ c ∈ cs, Distance.le c.distance params.Radius = true

/-- What the results of a search that begins at `s` are valid by; `i` passes the filter if
    `passes i`. -/
structure Fine (T : Tools F D Q C S) (h : Index F P Q C S) (query : List F) (radius : D)
    (passes : ℕ → Prop) (s : ℕ) : Prop where
  live : Live h s
  ordered : Alone h 0 s ∨
    ∀ i, Reach h 0 s i → Distance.nan (exactDist T h query i) = false
  within : Distance.lt Distance.zero radius = true → ∀ i, Reach h 0 s i → passes i →
    (i = s ∨ Distance.lt radius (dist T h query i) = false) →
    Distance.le (exactDist T h query i) radius = true

section Valid

variable {T : Tools F D Q C S} {h : Index F P Q C S} {query : List F} {radius : D}
  {passes wanted : ℕ → Prop} {s : ℕ} {cs : List (Candidate D)} {params : SearchParams P D}

theorem valid_nil (k : Int) : Valid h k ([] : List (Candidate D)) :=
  ⟨nodup_nil, Nat.zero_le _, Pairwise.nil, nofun⟩

theorem Ranked.pairwise_le (hr : Ranked T h query s wanted cs)
    (hclean : ∀ i, Reach h 0 s i → wanted i → Distance.nan (exactDist T h query i) = false) :
    cs.Pairwise fun a b => Distance.le a.distance b.distance = true := by
  have hnan : ∀ c ∈ cs, Distance.nan c.distance = false := by
    intro c hc
    rw [hr.distance c hc]
    exact hclean c.id (hr.reach c hc) (hr.wanted c hc)
  refine Pairwise.imp_of_mem ?_ (hr.sorted hnan fun _ => hclean)
  intro a b ha hb hlt
  unfold Distance.le
  rw [hnan a ha, hnan b hb, hlt]
  rfl

theorem Ranked.length_le_one (hr : Ranked T h query s wanted cs) (halone : Alone h 0 s) : cs.length ≤ 1 := by
  have hids : (cs.map Candidate.id).toFinset ⊆ {s} := by
    intro i hi
    obtain ⟨c, hc, rfl⟩ := mem_map.mp (mem_toFinset.mp hi)
    exact Finset.mem_singleton.mpr (halone c.id (hr.reach c hc))
  have hcard := Finset.card_le_card hids
  rwa [toFinset_card_of_nodup hr.once, length_map, Finset.card_singleton] at hcard

theorem Ranked.pairwise (hr : Ranked T h query s wanted cs)
    (hordered : Alone h 0 s ∨
      ∀ i, Reach h 0 s i → wanted i → Distance.nan (exactDist T h query i) = false) :
    cs.Pairwise fun a b => Distance.le a.distance b.distance = true := by
  rcases hordered with halone | hclean
  · match cs, hr.length_le_one halone with
    | [], _ => exact Pairwise.nil
    | [c], _ => exact pairwise_singleton ..
  · exact hr.pairwise_le hclean

theorem Ranked.valid (hr : Ranked T h query s wanted cs) (hlive : Live h s)
    (hordered : Alone h 0 s ∨ ∀ i, Reach h 0 s i → Distance.nan (exactDist T h query i) = false)
    (k : Int) : Valid h k (cs.take k.toNat) := by
  have hsub : (cs.take k.toNat).Sublist cs := take_sublist ..
  refine ⟨hr.once.sublist (hsub.map _), ?_, Pairwise.sublist hsub ?_, fun c hc => ?_⟩
  · rw [length_take]
    exact Nat.min_le_left ..
  · exact hr.pairwise (hordered.imp_right fun hclean i hi _ => hclean i hi)
  · rcases (hr.reach c (hsub.subset hc)).live with hc | hc
    · rw [hc]
      exact hlive
    · exact hc

theorem Ranked.ordered (hr : Ranked T h query s (fun _ => True) cs)
    (hw : Whole h 0 s (fun _ => True) cs) {k : Int} (hvalid : Valid h k cs) :
    Live h s ∧ (Alone h 0 s ∨
      ∀ i, Reach h 0 s i → Distance.nan (exactDist T h query i) = false) := by
  obtain ⟨cs₀, hcs₀, hid₀⟩ := hw s .refl trivial
  refine ⟨hid₀ ▸ hvalid.live cs₀ hcs₀, ?_⟩
  by_contra hnot
  simp only [Alone, not_or, not_forall] at hnot
  obtain ⟨⟨i, hi, hne⟩, j, hj, hnan⟩ := hnot
  -- a node with NaN and another node stand one before the other, and are not in order
  obtain ⟨c, hc, rfl⟩ := hw j hj trivial
  obtain ⟨d, hd, hdc⟩ : ∃ d ∈ cs, d.id ≠ c.id := by
    by_cases hcs : c.id = s
    · obtain ⟨d, hd, rfl⟩ := hw i hi trivial
      exact ⟨d, hd, by rwa [hcs]⟩
    · exact ⟨cs₀, hcs₀, by rw [hid₀]; exact fun heq => hcs heq.symm⟩
  have hcnan : Distance.nan c.distance = true := by
    rw [hr.distance c hc]
    exact Bool.eq_true_of_not_eq_false hnan
  have hsymm : Std.Symm fun a b : Candidate D => Distance.le a.distance b.distance = true ∨
    Distance.le b.distance a.distance = true := ⟨fun _ _ => Or.symm⟩
  have hpair : cs.Pairwise fun a b => Distance.le a.distance b.distance = true ∨
    Distance.le b.distance a.distance = true := hvalid.sorted.imp fun hle => .inl hle
  rcases hpair.forall hd hc fun heq => hdc (congrArg Candidate.id heq) with hle | hle
  · simp [Distance.le, hcnan] at hle
  · simp [Distance.le, hcnan] at hle

theorem Ranked.validFor (hr : Ranked T h query s (Shown T h query params s) cs)
    (hf : Fine T h query params.Radius (Passes h params) s) :
    ValidFor h params (cs.take params.K.toNat) := by
  have hsub : (cs.take params.K.toNat).Sublist cs := take_sublist ..
  refine ⟨hr.valid hf.live hf.ordered _, fun c hc => (hr.wanted c (hsub.subset hc)).2.1,
    fun hradius c hc => ?_⟩
  have hc' := hsub.subset hc
  obtain ⟨-, hpasses, hnear⟩ := hr.wanted c hc'
  rw [hr.distance c hc']
  refine hf.within hradius c.id (hr.reach c hc') hpasses (hnear.imp_right fun hnot => ?_)
  exact Bool.eq_false_iff.mpr fun hbeyond => hnot ⟨hradius, hbeyond⟩

theorem Good.enough (hg : Good h) : (h.nodes.length : Int) ≤ overFetch h h.nodes.length ∧
      15 * overFetch h h.nodes.length < 9223372036854775808 := by
  have hlimit := hg.limit
  unfold maxNodes at hlimit
  have hn : (0 : Int) ≤ h.nodes.length := Int.natCast_nonneg _
  obtain ⟨hle, htwice⟩ := le_overFetch h hn (by omega)
  exact ⟨hle, by omega⟩

end Valid

/-! ## When they are valid -/

theorem searchWithEf_value {h : Index F P Q C S} {query : List F}
    {visited : VisitedList} {k ef : Int} {cs : List (Candidate D)}
    (hcall : searchWithEf T h query visited k ef = .value cs) :
    (query.length = h.dimension ∧ h.maxLevel ≠ -1) ∨ cs = [] := by
  unfold searchWithEf at hcall
  split at hcall
  · cases hcall
  · rename_i hdim
    split at hcall
    · cases hcall
      exact .inr rfl
    · rename_i hne
      exact .inl ⟨not_not.mp hdim, hne⟩

theorem searchWithFilter_value {h : Index F P Q C S} {query : List F}
    {visited : VisitedList} {params : SearchParams P D} {cs : List (Candidate D)}
    (hcall : searchWithFilter T h query visited params = .value cs) :
    (query.length = h.dimension ∧ h.maxLevel ≠ -1) ∨ cs = [] := by
  unfold searchWithFilter at hcall
  split at hcall
  · cases hcall
  · rename_i hdim
    split at hcall
    · cases hcall
      exact .inr rfl
    · rename_i hne
      exact .inl ⟨not_not.mp hdim, hne⟩

/-- **All results are valid exactly if** the start of the search is live, it is alone or no distance to what
    it reaches is NaN, and, with a positive radius, what passes the filter and is the start or inside the
    radius for the search is within it by the exact distance. The filter is one that returns on the nodes that
    the search comes to. -/
theorem results_valid_iff {T : Tools F D Q C S} {h : Index F P Q C S} (hr : Reached T h)
    (query : List F) (filter : Option (Bytes → Option P → Outcome Empty Bool)) (radius : D)
    (heval : ∀ s, Start T h query s →
      Evaluates h (⟨0, 0, radius, filter, none⟩ : SearchParams P D) 0 s) :
    ((∀ visited k ef cs, searchWithEf T h query visited k ef = .value cs → Valid h k cs) ∧
      ∀ visited k ef sel cs,
        searchWithFilter T h query visited ⟨k, ef, radius, filter, sel⟩ = .value cs →
          ValidFor h ⟨k, ef, radius, filter, sel⟩ cs) ↔
    (query.length = h.dimension → h.maxLevel ≠ -1 → ∀ s, Start T h query s →
      Fine T h query radius (Passes h (⟨0, 0, radius, filter, none⟩ : SearchParams P D)) s) := by
  have hg := hr.good
  have hs := hg.base.sound
  constructor
  · rintro ⟨hplain, hfilter⟩ hdim hne s hstart
    obtain ⟨hlt, -⟩ := layer0Start_eq hs hne hstart
    obtain ⟨henough, hsmall⟩ := hg.enough
    have hn : (0 : Int) ≤ h.nodes.length := Int.natCast_nonneg _
    -- ask for everything, without and with the filter
    obtain ⟨cs, hcall, hranked, hwhole⟩ := searchWithEf_spec hs hdim hne hstart (.new 0)
      h.nodes.length h.nodes.length
    rw [if_neg (lt_irrefl _)] at hwhole
    rw [topK_value hn, take_of_length_le (by simpa using hranked.length_le hs hlt)] at hcall
    obtain ⟨hlive, hordered⟩ := hranked.ordered (hwhole henough) (hplain _ _ _ _ hcall)
    refine ⟨hlive, hordered, fun hradius i hi hpasses hnear => ?_⟩
    have hwide := (widens_of_small T (hn.trans henough) henough hsmall (selectivity (some 1))).le
    rcases searchWithFilter_spec hs hdim hne hstart (.new 0)
      ⟨h.nodes.length, h.nodes.length, radius, filter, some 1⟩ rfl rfl with
      ⟨cs', hcall', hranked', hwhole'⟩ | ⟨hwidth, -⟩
    · rw [topK_value hn, take_of_length_le (by simpa using hranked'.length_le hs hlt)]
        at hcall'
      have hshown : Shown T h query
          (⟨h.nodes.length, h.nodes.length, radius, filter, some 1⟩ : SearchParams P D) s i := by
        refine ⟨?_, hpasses, hnear.imp_right fun hin hbeyond => ?_⟩
        · rcases hi.live with rfl | hi
          · exact hlive
          · exact hi
        · rw [hbeyond.2] at hin
          cases hin
      simp only [lt_irrefl, if_false] at hwhole'
      obtain ⟨c, hc, rfl⟩ := hwhole' henough (.inr hwide) i hi hshown
      rw [← hranked'.distance c hc]
      exact (hfilter _ _ _ _ _ hcall').within hradius c hc
    · simp only [lt_irrefl, if_false] at hwidth
      exact absurd ⟨by omega, .inr (by omega), heval s hstart⟩ hwidth
  · intro hfine
    constructor
    · intro visited k ef cs hcall
      rcases searchWithEf_value hcall with ⟨hdim, hne⟩ | rfl
      · obtain ⟨s, -, -, hstart⟩ := layer0Start_spec T query hs hne
        have hf := hfine hdim hne s hstart
        obtain ⟨cs', hcall', hranked, -⟩ := searchWithEf_spec hs hdim hne hstart visited k ef
        rw [hcall'] at hcall
        obtain ⟨-, rfl⟩ := lift_topK_eq hcall
        exact hranked.valid hf.live hf.ordered k
      · exact valid_nil k
    · intro visited k ef sel cs hcall
      rcases searchWithFilter_value hcall with ⟨hdim, hne⟩ | rfl
      · obtain ⟨s, -, -, hstart⟩ := layer0Start_spec T query hs hne
        rcases searchWithFilter_spec hs hdim hne hstart visited
          ⟨k, ef, radius, filter, sel⟩ rfl rfl with ⟨cs', hcall', hranked, -⟩ | ⟨-, hpanic⟩
        · rw [hcall'] at hcall
          obtain ⟨-, rfl⟩ := lift_topK_eq hcall
          exact hranked.validFor (hfine hdim hne s hstart)
        · rw [hpanic] at hcall
          cases hcall
      · exact ⟨valid_nil k, nofun,
          nofun⟩

/-- One point that has been deleted, and a search that returns it. -/
theorem deleted_returned : ∃ h₀ h : Index ℕ ℕ Unit Unit Unit,
    new ⟨2, 10, 10, 1⟩ (Stream'.const 0) none Links.empty none = .ok h₀ ∧ run (step line) h₀
        [.put 1 5, .delete [1]] = some h ∧
      searchWithEf line h [5] (.new 4) 1 10 = .value [⟨0, 0⟩] ∧
      ¬ Valid h 1 [(⟨0, 0⟩ : Candidate ℕ)] := by
  refine ⟨_, _, rfl, rfl, by decide, fun hvalid => ?_⟩
  obtain ⟨node, hnode, hlive⟩ := hvalid.live ⟨0, 0⟩ (mem_singleton.mpr rfl)
  cases hnode
  cases hlive

/-- Two points that are linked, a query from any place, and any filter that returns. -/
theorem results_valid_line : ∃ h₀ h : Index ℕ ℕ Unit Unit Unit,
    new ⟨2, 10, 10, 1⟩ (Stream'.const 0) none Links.empty none = .ok h₀ ∧
      run (step line) h₀ [.put 1 5, .put 2 7] = some h ∧
      conn h 0 0 = [1] ∧
      ∀ x (filter : Bytes → Option ℕ → Bool),
        (∀ visited k ef cs, searchWithEf line h [x] visited k ef = .value cs → Valid h k cs) ∧
        ∀ visited k ef sel cs, searchWithFilter line h [x] visited
            ⟨k, ef, 0, some fun id payload => .value (filter id payload), sel⟩ = .value cs →
          ValidFor h (⟨k, ef, 0, some fun id payload => .value (filter id payload), sel⟩ :
            SearchParams ℕ ℕ) cs := by
  refine exists_view (fun _ h => conn h 0 0 = [1] ∧ h.maxLevel = 0 ∧ h.entryPoint = 0 ∧
    h.nodes[0]? = some (some ⟨[1], [5], 0, 0, false, none⟩)) (by decide +kernel)
    fun h₀ h hnew hrun ⟨hconn, hlevel, hentry, hnode⟩ => ?_
  refine ⟨hconn, fun x filter => ?_⟩
  refine (results_valid_iff (reached_of_run hnew hrun).1 [x] _ 0 fun _ _ _ _ _ _ => ⟨_, rfl⟩).mpr
    fun _ _ s hstart => ?_
  rw [Start, hlevel, hentry] at hstart
  cases hstart
  refine ⟨⟨_, hnode, rfl⟩, .inr fun _ _ => rfl, fun hzero => ?_⟩
  cases hzero

end LimyeDB.Graph
