/-
  THE POINTS OF AN INDEX IN MEMORY: what Get, Size, GetAllPoints and Insert say of them in every state that
  calls can reach.
-/
import LimyeDB.Graph.Wiring
import LimyeDB.Quantization

namespace LimyeDB.Graph

open Go Hnsw Lib.Runs List Function

variable {F P D Q C S : Type} [Distance D]

/-! ## The live points -/

def livePoint (T : Tools F D Q C S) (h : Index F P Q C S) (n : Option (Node F P)) :
    Option (Point F P) :=
  n.bind fun node =>
    if node.deleted then none
    else some ⟨node.id, getVector T.mmap h node, node.payload, [], none⟩

def livePoints (T : Tools F D Q C S) (h : Index F P Q C S) : List (Point F P) :=
  h.nodes.filterMap (livePoint T h)

section Live

variable {T : Tools F D Q C S} {h : Index F P Q C S}

theorem livePoint_eq_some {n : Option (Node F P)} {pt : Point F P} :
    livePoint T h n = some pt ↔ ∃ node, n = some node ∧ node.deleted = false ∧
      pt = ⟨node.id, getVector T.mmap h node, node.payload, [], none⟩ := by
  cases n with
  | none => simp [livePoint]
  | some node =>
    cases hdel : node.deleted with
    | true => simp [livePoint, hdel]
    | false =>
      simp only [livePoint, hdel, Option.bind_some, Bool.false_eq_true, if_false,
        Option.some.injEq, exists_eq_left', true_and]
      exact eq_comm

theorem getAllPoints_eq (hall : ∀ i < h.nodes.length, Exists h i) :
    getAllPoints T h = .value (livePoints T h) := by
  unfold getAllPoints livePoints
  rw [Outcome.mapM_value fun n hn => ?_]
  · simp only [Outcome.value_bind, Outcome.pure_eq, reduceOption, filterMap_map]
    rfl
  · obtain ⟨i, hi⟩ := mem_iff_getElem?.mp hn
    obtain ⟨node, hnode⟩ := hall i (List.getElem?_eq_some_iff.mp hi).1
    rw [hi] at hnode
    cases hnode
    rfl

theorem mem_livePoints {pt : Point F P} : pt ∈ livePoints T h ↔
    ∃ (i : ℕ) (node : Node F P), h.nodes[i]? = some (some node) ∧ node.deleted = false ∧
      pt = ⟨node.id, getVector T.mmap h node, node.payload, [], none⟩ := by
  unfold livePoints
  simp only [mem_filterMap, livePoint_eq_some]
  constructor
  · rintro ⟨n, hn, node, rfl, hrest⟩
    obtain ⟨i, hi⟩ := mem_iff_getElem?.mp hn
    exact ⟨i, node, hi, hrest⟩
  · rintro ⟨i, node, hi, hrest⟩
    exact ⟨some node, mem_of_getElem? hi, node, rfl, hrest⟩

theorem get_eq_iff (hx : Indexed h) (id : Bytes) (pt : Point F P) :
    Hnsw.get T.mmap h id = .value pt ↔ pt ∈ livePoints T h ∧ pt.id = id := by
  rw [mem_livePoints]
  unfold Hnsw.get
  cases hid : h.idToIndex id with
  | none =>
    refine iff_of_false (by simp) ?_
    rintro ⟨⟨i, node, hnode, -, rfl⟩, rfl⟩
    rw [(hx node.id i).mpr ⟨node, hnode, rfl⟩] at hid
    cases hid
  | some i =>
    obtain ⟨node, hnode, rfl⟩ := (hx id i).mp hid
    -- the node is the only one with this id
    have honly : ∀ (j : ℕ) node', h.nodes[j]? = some (some node') → node'.id = node.id → node' = node := by
      intro j node' hnode' hsame
      have hj := (hx node.id j).mpr ⟨node', hnode', hsame⟩
      rw [hid] at hj
      cases hj
      rw [hnode] at hnode'
      cases hnode'
      rfl
    simp only [hnode]
    cases hdel : node.deleted with
    | true =>
      refine iff_of_false (by simp) ?_
      rintro ⟨⟨j, node', hnode', hlive, rfl⟩, hsame⟩
      rw [honly j node' hnode' hsame, hdel] at hlive
      cases hlive
    | false =>
      simp only [Bool.false_eq_true, if_false, Outcome.value.injEq]
      constructor
      · rintro rfl
        exact ⟨⟨i, node, hnode, hdel, rfl⟩, rfl⟩
      · rintro ⟨⟨j, node', hnode', -, rfl⟩, hsame⟩
        rw [honly j node' hnode' hsame]

theorem livePoints_nodup (hx : Indexed h) : ((livePoints T h).map Point.id).Nodup := by
  unfold livePoints List.Nodup
  rw [pairwise_map, pairwise_filterMap, pairwise_iff_getElem]
  intro i j hi hj hij pt hpt pt' hpt' hsame
  obtain ⟨node, hnode, -, rfl⟩ := livePoint_eq_some.mp hpt
  obtain ⟨node', hnode', -, rfl⟩ := livePoint_eq_some.mp hpt'
  have hi' := (hx node.id i).mpr ⟨node, by rw [getElem?_eq_getElem hi, hnode], rfl⟩
  have hj' := (hx node.id j).mpr ⟨node', by rw [getElem?_eq_getElem hj, hnode'], hsame.symm⟩
  rw [hi'] at hj'
  exact hij.ne (Option.some.inj hj')

end Live

/-! ## What the calls say -/

section Consistent

variable {T : Tools F D Q C S} {h h' : Index F P Q C S} {cfg : Config}

/-- The run has an Insert of the id that passes the dimension check. -/
def Brought (dimension : ℕ) (actions : List (Action F P)) (id : Bytes) : Prop :=
  ∃ p visited, Action.insert p visited ∈ actions ∧ p.vector.length = dimension ∧ p.id = id

variable {a : Action F P} {actions : List (Action F P)}

theorem Change.length_le {N : ℕ → Finset ℕ} {e : Option IndexError}
    (hch : Change T h N a h' e) : h.nodes.length ≤ h'.nodes.length := by
  cases hch with
  | idle hidle => rw [hidle.nodes]
  | mark => exact (length_set).ge
  | grow =>
    show h.nodes.length ≤ (h.nodes ++ [_]).length
    rw [length_append]
    exact Nat.le_add_right ..

theorem Change.history {N : ℕ → Finset ℕ} {e : Option IndexError}
    (hch : Change T h N a h' e) (hroom : h.nodes.length < maxNodes) (id : Bytes) :
    (∃ i, h'.idToIndex id = some i) ↔
      (∃ i, h.idToIndex id = some i) ∨ Brought h.dimension [a] id := by
  cases hch with
  | idle hidle herr =>
    rw [hidle.idToIndex]
    refine ⟨.inl, fun hor => hor.elim (fun hi => hi) ?_⟩
    rintro ⟨p, visited, hmem, hdim, rfl⟩
    exact (herr p visited (mem_singleton.mp hmem).symm hdim hroom).1
  | mark hid =>
    refine ⟨.inl, fun hor => hor.elim (fun hi => hi) ?_⟩
    rintro ⟨p, visited, hmem, -⟩
    cases mem_singleton.mp hmem
  | @grow p visited links hdim =>
    show (∃ i, Function.update h.idToIndex p.id (some h.nodes.length) id = some i) ↔ _
    by_cases hid : id = p.id
    · subst hid
      rw [update_self]
      exact iff_of_true ⟨_, rfl⟩ (.inr ⟨p, visited, mem_singleton_self _, hdim, rfl⟩)
    · rw [update_of_ne hid]
      refine ⟨.inl, fun hor => hor.elim (fun hi => hi) ?_⟩
      rintro ⟨p', visited', hmem, -, hid'⟩
      cases mem_singleton.mp hmem
      exact absurd hid'.symm hid

theorem brought_cons {dimension : ℕ} {id : Bytes} :
    Brought dimension (a :: actions) id ↔
      Brought dimension [a] id ∨ Brought dimension actions id := by
  simp only [Brought, mem_cons, not_mem_nil, or_false]
  constructor
  · rintro ⟨p, visited, ha | hmem, hrest⟩
    · exact .inl ⟨p, visited, ha, hrest⟩
    · exact .inr ⟨p, visited, hmem, hrest⟩
  · rintro (⟨p, visited, ha, hrest⟩ | ⟨p, visited, hmem, hrest⟩)
    · exact ⟨p, visited, .inl ha, hrest⟩
    · exact ⟨p, visited, .inr hmem, hrest⟩

theorem InMemory.length_le (hm : InMemory cfg h)
    (hrun : run (step T) h actions = some h') : h.nodes.length ≤ h'.nodes.length := by
  refine (run_induct (I := fun s => InMemory cfg s ∧ h.nodes.length ≤ s.nodes.length)
    (fun s a s' ⟨hs, hle⟩ hstep => ?_) ⟨hm, le_rfl⟩ hrun).2
  obtain ⟨e, hact⟩ := act_of_step hstep
  obtain ⟨hch, hs'⟩ := hs.acted hact
  exact ⟨hs', hle.trans hch.length_le⟩

theorem history (hm : InMemory cfg h)
    (hrun : run (step T) h actions = some h') (hroom : h'.nodes.length < maxNodes) (id : Bytes) :
    (∃ i, h'.idToIndex id = some i) ↔
      (∃ i, h.idToIndex id = some i) ∨ Brought cfg.dimension actions id := by
  induction actions generalizing h with
  | nil =>
    cases hrun
    simp [Brought]
  | cons a actions ih =>
    obtain ⟨s, hstep, hrest⟩ := run_cons.mp hrun
    obtain ⟨e, hact⟩ := act_of_step hstep
    obtain ⟨hch, hm'⟩ := hm.acted hact
    have hlt : h.nodes.length < maxNodes :=
      lt_of_le_of_lt (hch.length_le.trans (hm'.length_le hrest)) hroom
    rw [ih hm' hrest, hch.history hlt, hm.dimension, or_assoc]
    exact or_congr Iff.rfl brought_cons.symm

end Consistent

/-! ## With the scalar quantizer -/

section Scalar

open Quantization

/-- Points on a line with a scalar quantizer. -/
def scalarLine : Tools ℕ ℕ (ScalarQuantizer 1) (Fin 1 → ℕ) Unit where
  distance := line.distance
  encode q v :=
    match q.encode fun _ => v.headD 0 with
    | .value (q, code) => .value (q, some code)
    | .error _ => .value (q, none)
    | .panic => .panic
  codeDistance _ _ _ := 0
  sort := line.sort
  mmap := line.mmap
  scaleEf := line.scaleEf
  sort_perm := line.sort_perm
  sort_sorted := line.sort_sorted
  le_scaleEf := line.le_scaleEf

end Scalar

end LimyeDB.Graph
