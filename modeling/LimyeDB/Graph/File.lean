/-
  THE GRAPH FILE AS A SHELF OF LISTS: which levels let a new file give back every list as it was last set. The
  blocks have room for the layers up to 16, and a node may be added with any level.
-/
import LimyeDB.Graph.Mmap

namespace LimyeDB.Graph

open Go GraphMmap List

/-! ## Files and shelves -/

/-- `AddNode` for the next id, and `SetConnections`. -/
inductive FileOp where
  | add (level : ℕ)
  | set (nodeID layer : ℕ) (ids : List ℕ)

def GraphMmap.apply (g : GraphMmap) : FileOp → Outcome Empty GraphMmap
  | .add level => .value (g.addNode g.numNodes level)
  | .set nodeID layer ids => g.setConnections nodeID layer ids

structure Shelf where
  levels : List ℕ
  lists : ℕ → ℕ → List ℕ

def Shelf.put (s : Shelf) (n layer : ℕ) (ids : List ℕ) : Shelf :=
  { s with lists := Function.update s.lists n (Function.update (s.lists n) layer ids) }

theorem Shelf.put_self (s : Shelf) (n layer : ℕ) (ids : List ℕ) :
    (s.put n layer ids).lists n layer = ids := by
  simp [Shelf.put]

theorem Shelf.put_other (s : Shelf) {n layer j k : ℕ} (ids : List ℕ) (h : ¬ (j = n ∧ k = layer)) :
    (s.put n layer ids).lists j k = s.lists j k := by
  by_cases hj : j = n
  · subst hj
    simp [Shelf.put, show k ≠ layer from fun hk => h ⟨rfl, hk⟩]
  · simp [Shelf.put, hj]

/-- Nodes are added with any level, and lists set at the layers of a node, within their room. -/
inductive Written (m : ℕ) : List FileOp → Shelf → Prop where
  | new : Written m [] ⟨[], fun _ _ => []⟩
  | add {ops s level} (h : Written m ops s) :
    Written m (ops ++ [.add level]) { s with levels := s.levels ++ [level] }
  | set {ops s n layer level ids} (h : Written m ops s) (hn : s.levels[n]? = some level)
    (hlayer : layer ≤ level) (hids : ids.length ≤ room m layer) :
    Written m (ops ++ [.set n layer ids]) (s.put n layer ids)

structure Keeps (m : ℕ) (g : GraphMmap) (s : Shelf) : Prop where
  laid : g.Laid m
  count : g.numNodes = s.levels.length
  node : ∀ n level, s.levels[n]? = some level →
    g.Has m n ∧ level ≤ defaultMaxLevel ∧ g.words (g.blockOffset n) = level
  list : ∀ n < s.levels.length, ∀ layer ≤ defaultMaxLevel,
    g.words (g.countOffset n layer) ≤ room m layer ∧ g.listAt n layer = s.lists n layer
  empty : ∀ n layer, (∀ level, s.levels[n]? = some level → level < layer) → s.lists n layer = []
  rest : ∀ w, graphHeaderSize + s.levels.length * stride m ≤ w → g.words w = 0

section Steps

variable {m : ℕ} {g g' : GraphMmap} {s : Shelf}

theorem snoc_cases {l : List ℕ} {n x y : ℕ} (h : (l ++ [x])[n]? = some y) :
    n < l.length ∧ l[n]? = some y ∨ n = l.length ∧ y = x := by
  rcases Nat.lt_trichotomy n l.length with hlt | rfl | hlt
  · exact .inl ⟨hlt, by rwa [getElem?_append_left hlt] at h⟩
  · exact .inr ⟨rfl, by simpa using h.symm⟩
  · rw [getElem?_eq_none (by simpa using hlt)] at h
    cases h

theorem addNode_count {level : ℕ} : (g.addNode g.numNodes level).numNodes = g.numNodes + 1 := by
  have hsame : (g.ensureCapacity g.numNodes).numNodes = g.numNodes := by
    unfold ensureCapacity
    simp only
    split <;> rfl
  unfold addNode
  simp only [hsame, le_refl, if_true]

theorem ensureCapacity_zero {n w : ℕ} (h : g.words w = 0) : (g.ensureCapacity n).words w = 0 := by
  unfold ensureCapacity
  simp only
  split
  · exact h
  · simp only
    split
    · exact h
    · rfl

theorem Keeps.leftover_nil (h : Keeps m g s) (layer : ℕ) : g.leftover g.numNodes layer = [] := by
  have hEblock := (h.laid.same (@Laid.ensureCapacity g m g.numNodes h.laid)).1
  have hword : (g.ensureCapacity g.numNodes).words
      ((g.ensureCapacity g.numNodes).countOffset g.numNodes layer) = 0 := by
    refine ensureCapacity_zero (h.rest _ ?_)
    unfold countOffset
    rw [hEblock, h.laid.blockOffset, h.count]
    omega
  rw [leftover, listAt, hword]
  rfl

theorem Keeps.add (h : Keeps m g s) {level : ℕ} (hlevel : level ≤ defaultMaxLevel) :
    Keeps m (g.addNode g.numNodes level) { s with levels := s.levels ++ [level] } := by
  have hA : NodeAdded m g (g.addNode g.numNodes level) g.numNodes level := h.laid.added ..
  refine ⟨hA.laid, ?_, fun n l hn => ?_, fun n hn layer hlayer => ?_, fun n layer hn => ?_,
    fun w hw => ?_⟩
  · rw [addNode_count, length_append, ← h.count]
    rfl
  · rcases snoc_cases hn with ⟨hlt, hn⟩ | ⟨rfl, rfl⟩
    · obtain ⟨hhas, htop, hword⟩ := h.node n l hn
      exact ⟨hhas.trans hA.grown, htop, (hA.levels n hhas (h.count ▸ hlt.ne)).trans hword⟩
    · rw [← h.count]
      exact ⟨hA.has, hlevel, hA.level⟩
  · rcases Nat.lt_succ_iff_lt_or_eq.mp (by simpa using hn) with hlt | rfl
    · obtain ⟨hle, heq⟩ := h.list n hlt layer hlayer
      have hhas := (h.node n _ (getElem?_eq_getElem hlt)).1
      obtain ⟨hcount, hlist⟩ := hA.lists n hhas (h.count ▸ hlt.ne) layer hlayer hle
      exact ⟨hcount.trans_le hle, hlist.trans heq⟩
    · obtain ⟨hlength, hat⟩ := hA.own layer
      rw [h.leftover_nil] at hlength hat
      rw [← h.count, hlength, hat, h.count]
      exact ⟨Nat.zero_le _, (h.empty _ _ fun l hl => by simp at hl).symm⟩
  · refine h.empty n layer fun l hl => hn l ?_
    rw [List.getElem?_append_left (List.getElem?_eq_some_iff.mp hl).1, hl]
  · rw [length_append, length_singleton, Nat.add_mul, Nat.one_mul, stride_eq] at hw
    have hEblock := (h.laid.same (@Laid.ensureCapacity g m g.numNodes h.laid)).1
    have hstart := h.laid.blockOffset g.numNodes
    rw [h.count] at hstart
    rw [addNode_word (by omega) (by rw [hEblock, h.count]; rw [stride_eq] at hstart; omega)]
    refine ensureCapacity_zero (h.rest w ?_)
    unfold graphHeaderSize
    rw [stride_eq]
    omega

theorem Keeps.set (h : Keeps m g s) {n layer level : ℕ} {ids : List ℕ}
    (hn : s.levels[n]? = some level) (hlayer : layer ≤ level) (hids : ids.length ≤ room m layer) :
    g.setConnections n layer ids = .value (g.withList n layer ids) ∧
      Keeps m (g.withList n layer ids) (s.put n layer ids) := by
  obtain ⟨hhas, htop, -⟩ := h.node n level hn
  have hlayer' := hlayer.trans htop
  have hlt := (List.getElem?_eq_some_iff.mp hn).1
  have hL' : (g.withList n layer ids).Laid m := h.laid.withList
  obtain ⟨hblock, hcount, -⟩ := h.laid.same hL'
  refine ⟨setConnections_eq h.laid hhas hlayer' hids, hL', h.count, fun j l hj => ?_,
    fun j hj k hk => ?_, fun j k hj => ?_, fun w hw => ?_⟩
  · obtain ⟨hhas', htop', hword⟩ := h.node j l hj
    refine ⟨hhas', htop', ?_⟩
    rw [hblock, withList_level h.laid hlayer' hids, hword]
  · by_cases hsame : j = n ∧ k = layer
    · obtain ⟨rfl, rfl⟩ := hsame
      rw [hcount, withList_count_self h.laid hlayer', withList_listAt_self h.laid hlayer', s.put_self]
      exact ⟨hids, rfl⟩
    · obtain ⟨hle, hlist⟩ := h.list j hj k hk
      rw [hcount, (withList_other h.laid hlayer' hids hk hsame).1,
        withList_listAt_other h.laid hlayer' hids hk hsame hle, s.put_other ids hsame]
      exact ⟨hle, hlist⟩
  · have hother : ¬ (j = n ∧ k = layer) := by
      intro ⟨hjn, hk⟩
      have := hj level (hjn ▸ hn)
      omega
    rw [s.put_other ids hother]
    exact h.empty j k hj
  · have hrest := h.rest w hw
    have hdata := h.laid.dataOffset n layer
    have hroom := ahead_room_le (m := m) hlayer'
    have hstart := h.laid.blockOffset n
    have hblocks : n * stride m + stride m ≤ s.levels.length * stride m := by
      rw [← Nat.succ_mul]
      exact Nat.mul_le_mul_right _ hlt
    have hsize := stride_eq m
    change graphHeaderSize + s.levels.length * stride m ≤ w at hw
    unfold defaultMaxLevel at hlayer'
    rw [withList_word (by unfold countOffset; omega) (by omega), hrest]

end Steps

/-! ## Every run -/

end LimyeDB.Graph
