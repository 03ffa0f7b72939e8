/-
  EVERY STATE OF AN INDEX, also of one whose graph is in a file that was there before.
-/
import LimyeDB.Graph.Wiring
import LimyeDB.Graph.Results

namespace LimyeDB.Graph

open Go Hnsw GraphMmap Lib.Runs

variable {F P D Q C S : Type} [Distance D]

/-! ## Inserts over an old file -/

/-- There is a place for the level of the next node, and what was left for it leads to nodes. -/
def Roomy (h : Index F P Q C S) : Prop :=
  h.graph.links.Holds h.rng.head ∧
    ∀ k ≤ h.rng.head, linkedLayers h ≤ k →
      (h.graph.links.leftover h.nodes.length k).length ≤ room h.M k ∧
      ∀ j ∈ h.graph.links.leftover h.nodes.length k, j ≤ h.nodes.length

instance decidableHolds : ∀ (links : Links) (k : ℕ), Decidable (links.Holds k)
  | .memory _, _ => .isTrue trivial
  | .file _, k => inferInstanceAs (Decidable (k ≤ defaultMaxLevel))

instance decidableRoomy (h : Index F P Q C S) : Decidable (Roomy h) :=
  inferInstanceAs (Decidable (_ ∧ ∀ k ≤ h.rng.head, linkedLayers h ≤ k → _ ∧ _))

/-- A call that adds a node has a place for it. -/
def Fits (h : Index F P Q C S) (a : Action F P) : Prop := Adds h a → Roomy h

/-- An index that can be searched, with its counters and within the node limit. -/
structure Good (h : Index F P Q C S) : Prop where
  base : Base h
  counted : Counted h
  limit : h.nodes.length ≤ maxNodes

section Good

variable {T : Tools F D Q C S} {h h' : Index F P Q C S} {a : Action F P} {cfg : Config}
  {rng : Stream' ℕ} {quantizer : Option Q} {vectorMmap : Option S}

omit [Distance D] in
theorem fits_memory (hmem : ∀ k, h.graph.links.Holds k) (a : Action F P) : Fits h a := by
  refine fun _ => ⟨hmem _, fun k _ _ => ?_⟩
  rw [leftover_memory hmem]
  exact ⟨Nat.zero_le _, nofun⟩

omit [Distance D] in
theorem holds_le {links : Links} {k l : ℕ} (hkl : k ≤ l) (hl : links.Holds l) : links.Holds k := by
  cases links with
  | memory rows => trivial
  | file g => exact hkl.trans hl

omit [Distance D] in
theorem Base.ready (hb : Base h) (ha : Adds h a) (hf : Fits h a) :
    Ready h fun _ => Finset.range h.nodes.length where
  node := hb.node
  stored := hb.stored
  Mmax := hb.Mmax
  Mmax0 := hb.Mmax0
  holds _ hk := holds_le hk (hf ha).1
  left k hk htop := ((hf ha).2 k hk htop).1
  bottom := hb.bottom
  old _ _ hi := Finset.mem_range.mp hi
  closed k i hi j hj := Finset.mem_range.mpr (hb.closed k i (Finset.mem_range.mp hi) j hj)
  mono _ := Finset.Subset.refl _
  entry hne := Finset.mem_range.mpr (hb.entry hne)

theorem Good.acted {e : Option IndexError} (hg : Good h) (hf : Fits h a)
    (hact : Graph.act T h a = .value (h', e)) : Good h' := by
  have hch := act_change hg.counted.indexed (fun ha => hg.base.ready ha hf) hact
  refine ⟨?_, hch.counted hg.counted, ?_⟩
  · cases hch with
    | idle hidle => exact hg.base.congr hidle.sameGraph
    | mark _ hnode => exact hg.base.congr (sameGraph_marked hnode)
    | grow hdim hid hroom hready hgrown =>
      exact hg.base.grown T _ hready hgrown fun k hk htop =>
        ((hf ⟨_, _, rfl, hdim, hid, hroom⟩).2 k hk htop).2
  · cases hch with
    | idle hidle =>
      rw [hidle.nodes]
      exact hg.limit
    | mark => exact List.length_set.trans_le hg.limit
    | grow _ _ hroom =>
      show (h.nodes ++ [_]).length ≤ maxNodes
      rw [List.length_append]
      exact hroom

theorem Good.act (hg : Good h) (hf : Fits h a) (ht : Takes T h a) :
    ∃ h' e, act T h a = .value (h', e) ∧ Good h' := by
  obtain ⟨h', e, hact, -⟩ := act_cases hg.counted.indexed a (fun ha => hg.base.ready ha hf) ht
  exact ⟨h', e, hact, hg.acted hf hact⟩

omit [Distance D] in
theorem good_new {links : Links} (hlinks : ∀ g, links = .file g → g.Laid cfg.M)
    (hempty : ∀ rows, links = .memory rows → ∀ i, rows i = [])
    (hnew : new cfg rng quantizer links vectorMmap = .ok h) : Good h := by
  rw [new_eq hnew]
  refine ⟨⟨by simp, ?_, rfl, rfl, le_rfl, by simp, by simp, by simp⟩, ⟨?_, rfl, rfl⟩, Nat.zero_le _⟩
  · unfold Stored
    cases hl : links with
    | memory rows => exact ⟨by simp [levelAt], fun i _ => hempty rows hl i⟩
    | file g => exact ⟨hlinks g hl, by simp [levelAt]⟩
  · intro id i
    simp

end Good

/-! ## States that calls reach -/

/-- A state of an index: new, in memory or over a graph file with any contents, or behind a call
    that fits. -/
inductive Reached (T : Tools F D Q C S) : Index F P Q C S → Prop where
  | memory {cfg rng quantizer vectorMmap h}
      (hnew : new cfg rng quantizer Links.empty vectorMmap = .ok h) : Reached T h
  | file {cfg rng quantizer g vectorMmap h} (hlaid : g.Laid cfg.M)
      (hnew : new cfg rng quantizer (.file g) vectorMmap = .ok h) : Reached T h
  | call {h a h' e} (hreached : Reached T h) (hfits : Fits h a)
      (hact : act T h a = .value (h', e)) : Reached T h'

theorem Reached.good {T : Tools F D Q C S} {h : Index F P Q C S} (hr : Reached T h) : Good h := by
  induction hr with
  | memory hnew =>
    refine good_new (fun g hl => ?_) (fun rows hl i => ?_) hnew
    · cases hl
    · cases hl
      rfl
  | file hlaid hnew =>
    refine good_new (fun g hl => ?_) (fun rows hl => ?_) hnew
    · cases hl
      exact hlaid
    · cases hl
  | call _ hfits hact ih => exact ih.acted hfits hact

theorem reached_of_run {T : Tools F D Q C S} {cfg : Config} {rng : Stream' ℕ}
    {quantizer : Option Q} {vectorMmap : Option S} {h₀ h : Index F P Q C S}
    (hnew : new cfg rng quantizer Links.empty vectorMmap = .ok h₀)
    {actions : List (Action F P)} (hrun : run (step T) h₀ actions = some h) :
    Reached T h ∧ InMemory cfg h := by
  refine run_induct (I := fun h => Reached T h ∧ InMemory cfg h) ?_
    ⟨.memory hnew, inMemory_new hnew⟩ hrun
  intro s a s' ⟨hs, hm⟩ hstep
  obtain ⟨e, hact⟩ := act_of_step hstep
  exact ⟨.call hs (fits_memory hm.wired.memory a) hact, (hm.acted hact).2⟩

/-- What can be read from the file is a node's number, and no search panics. -/
structure InRange (T : Tools F D Q C S) (h : Index F P Q C S) : Prop where
  read : ∀ i < h.nodes.length, ∀ layer, ∃ ids, getConnections h i layer = .value ids ∧
    ∀ j ∈ ids, j < h.nodes.length
  search : ∀ query visited k ef, 0 ≤ k → searchWithEf T h query visited k ef ≠ .panic

theorem Good.inRange {h : Index F P Q C S} (hg : Good h) (T : Tools F D Q C S) : InRange T h where
  read i hi layer := ⟨_, hg.base.get hi layer, hg.base.closed layer i hi⟩
  search query visited _ ef hk := searchWithEf_ne_panic T hg.base.sound query visited hk ef

/-- **Over a graph file with any contents**, every run of calls whose inserts fit and whose vectors the quantizer
    encodes goes to its end, and every neighbour id read then is a node's. -/
theorem old_file_in_range (T : Tools F D Q C S) {cfg : Config} {rng : Stream' ℕ}
    {quantizer : Option Q} {vectorMmap : Option S} {words : ℕ → ℕ} {size : ℕ}
    {h₀ : Index F P Q C S}
    (hnew : new cfg rng quantizer (.file (opened cfg.M words size)) vectorMmap = .ok h₀)
    (actions : List (Action F P))
    (hfits : Along (step T) (fun h a => Fits h a ∧ Takes T h a) h₀ actions) :
    ∃ h, run (step T) h₀ actions = some h ∧ InRange T h := by
  have hgood : Good h₀ := by
    refine good_new (fun g hl => ?_) (fun rows hl => ?_) hnew
    · cases hl
      exact ⟨rfl, rfl, rfl⟩
    · cases hl
  have hstep : ∀ (s : Index F P Q C S) a, Good s → Fits s a ∧ Takes T s a →
      ∃ s', step T s a = some s' ∧ Good s' := by
    intro s a hs hboth
    obtain ⟨s', e, hact, hs'⟩ := hs.act hboth.1 hboth.2
    exact ⟨s', step_of_act hact, hs'⟩
  obtain ⟨h, hrun, hg⟩ := run_total hstep hgood hfits
  exact ⟨h, hrun, hg.inRange T⟩

def oldFile : GraphMmap := opened 2 (fun i => if i = 17 then 1 else if i = 34 then 7 else 0) 70

/-- One point is inserted over it: its links are what was left there, and the next search indexes
    the nodes out of range. -/
theorem old_file_panics : ∃ h₀ h : Index ℕ ℕ Unit Unit Unit,
    new ⟨2, 10, 10, 1⟩ (Stream'.const 0) none (.file oldFile) none = .ok h₀ ∧
      run (step line) h₀ [.put 1 5] = some h ∧
      h.nodes.length = 1 ∧ getConnections h 0 0 = .value [7] ∧
      searchWithEf line h [5] (.new 4) 1 10 = .panic :=
  ⟨_, _, rfl, rfl, rfl, by decide, by decide⟩

/-- The blocks of nodes 0 and 1 were used before: a link to node 0 at layer 0 of the first and at layer 1 of the
    second. -/
def usedFile : GraphMmap := opened 2 (fun i => if i = 17 ∨ i = 72 then 1 else 0) 200

/-- Two points over it, at the levels 0 and 1: what was left is in range. -/
theorem old_file_in_range_line : ∃ h₀ h : Index ℕ ℕ Unit Unit Unit,
    new ⟨2, 10, 10, 1⟩ id none (.file usedFile) none = .ok h₀ ∧
      run (step line) h₀ [.put 1 5, .put 2 7] = some h ∧
      getConnections h 1 1 = .value [0] ∧ InRange line h := by
  refine exists_view (fun h₀ h => Along (step line) (fun s _ => Roomy s ∧ s.graph.quantizer = none) h₀
      [.put 1 5, .put 2 7] ∧
    getConnections h 1 1 = .value [0]) (by decide +kernel) fun h₀ h hnew hrun ⟨halong, hread⟩ => ?_
  have hfits := along_along (Q := fun s a => Fits s a ∧ Takes line s a) (I := fun _ => True)
    (fun s a s' _ hs _ => ⟨⟨fun _ => hs.1, fun p visited _ _ _ =>
      ⟨(s.graph, none), by simp only [encode, hs.2]⟩⟩, trivial⟩) trivial halong hrun
  obtain ⟨h', hrun', hrange⟩ := old_file_in_range line hnew _ hfits
  rw [hrun] at hrun'
  cases hrun'
  exact ⟨hread, hrange⟩

end LimyeDB.Graph
