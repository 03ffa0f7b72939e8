/-
  THE POSTINGS OF THE SPARSE INDEX AND THE POINTS THEY BELONG TO, in every history of a single-vector
  collection.

  A posting carries the number of a node, looked up by id after the dense insert; an id without a node has
  number 0.
-/
import LimyeDB.Hybrid.Effects

namespace LimyeDB.Hybrid

open Go Hnsw Lib.Runs List Outcome Function
open LimyeDB.Graph (Index Tools Distance Inserted Idle Live marked)
open LimyeDB.Collection (Error)

variable {F P D Q C S : Type}

/-! ## Values -/

def sparseAt (p : Point F P) (dimIdx : UInt32) : List F :=
  match p.sparse with
  | none => []
  | some vec => valuesAt vec dimIdx

section Values

variable {s s' : InvertedIndex F} {dimIdx : UInt32}

theorem addSparse_lists {j : ℕ} {p : Point F P} (hadd : addSparse s j p.sparse = .value s')
    (dimIdx : UInt32) :
    s'.postingLists dimIdx = s.postingLists dimIdx ++ (sparseAt p dimIdx).map (Posting.mk j) := by
  unfold sparseAt
  cases hvec : p.sparse with
  | none =>
    rw [hvec] at hadd
    cases hadd
    simp
  | some vec =>
    rw [hvec, addSparse, add_eq] at hadd
    split at hadd
    · cases hadd
      rfl
    · cases hadd

end Values

/-! ## The invariant -/

def expected (stored : List (Point F P)) (h : Index F P Q C S) (dimIdx : UInt32) (i : ℕ) :
    List F :=
  match h.nodes[i]? with
  | some (some node) =>
    if node.deleted then []
    else (stored.filter fun p => decide (p.id = node.id)).flatMap (sparseAt · dimIdx)
  | _ => []

structure Posted (stored : List (Point F P)) (h : Index F P Q C S) (s : InvertedIndex F) : Prop where
  values : ∀ dimIdx i, valuesOf s dimIdx i = expected stored h dimIdx i
  unknown : ∀ p ∈ stored, h.idToIndex p.id = none → ∀ dimIdx, sparseAt p dimIdx = []

section Invariant

variable {stored : List (Point F P)} {h h' : Index F P Q C S} {s s' : InvertedIndex F}
  {p : Point F P}

variable (hp : Posted stored h s)
include hp

theorem Posted.idle (hidle : Idle h h') : Posted stored h' s := by
  refine ⟨fun dimIdx i => ?_, fun q hq hid => hp.unknown q hq (hidle.idToIndex ▸ hid)⟩
  rw [hp.values, expected, expected, hidle.nodes]

omit hp in
theorem expected_snoc (dimIdx : UInt32) (i : ℕ) : expected (stored ++ [p]) h dimIdx i =
    expected stored h dimIdx i ++ match h.nodes[i]? with
      | some (some node) =>
        if node.deleted = false ∧ p.id = node.id then sparseAt p dimIdx else []
      | _ => [] := by
  unfold expected
  split
  · rename_i node hnode
    by_cases hdel : node.deleted = true
    · simp [hdel]
    · by_cases hid : p.id = node.id
      · simp [hdel, hid, filter_append]
      · simp [hdel, hid, filter_append]
  · rfl

theorem Posted.plain (hplain : ∀ dimIdx, sparseAt p dimIdx = [])
    (hs' : ∀ dimIdx, s'.postingLists dimIdx = s.postingLists dimIdx) :
    Posted (stored ++ [p]) h s' := by
  refine ⟨fun dimIdx i => ?_, fun q hq hid dimIdx => ?_⟩
  · have hnone : ∀ {b : Prop} [Decidable b], (if b then sparseAt p dimIdx else []) = [] := by
      intro b _
      rw [hplain, ite_self]
    rw [expected_snoc, ← hp.values, valuesOf, hs', ← valuesOf]
    split
    · rw [hnone, append_nil]
    · rw [append_nil]
  · rcases mem_append.mp hq with hq | hq
    · exact hp.unknown q hq hid dimIdx
    · cases mem_singleton.mp hq
      exact hplain dimIdx

theorem Posted.attach (hx : Indexed h) {i : ℕ} (hid : h.idToIndex p.id = some i) (hlive : Live h i)
    (hs' : ∀ dimIdx, s'.postingLists dimIdx =
      s.postingLists dimIdx ++ (sparseAt p dimIdx).map (Posting.mk i)) :
    Posted (stored ++ [p]) h s' := by
  obtain ⟨node, hnode, hdel⟩ := hlive
  have hnodeId : node.id = p.id := by
    obtain ⟨node', hnode', hid'⟩ := (hx p.id i).mp hid
    cases hnode.symm.trans hnode'
    exact hid'
  refine ⟨fun dimIdx j => ?_, fun q hq hnone dimIdx => ?_⟩
  · rw [expected_snoc, valuesOf_append (hs' dimIdx), hp.values]
    congr 1
    by_cases hij : i = j
    · subst hij
      simp [hnode, hdel, hnodeId]
    · simp only [hij, if_false]
      split
      · rename_i node' hnode'
        rw [if_neg fun hboth => ?_]
        have hj : h.idToIndex p.id = some j := (hx p.id j).mpr ⟨node', hnode', hboth.2.symm⟩
        exact hij (Option.some.inj (hid.symm.trans hj))
      · rfl
  · rcases mem_append.mp hq with hq | hq
    · exact hp.unknown q hq hnone dimIdx
    · cases mem_singleton.mp hq
      cases hid.symm.trans hnone

theorem Posted.store [Distance D] {T : Tools F D Q C S} (hx : Indexed h)
    {p' : Point F P} (hins : Inserted T h p' h' none) (hid : p'.id = p.id)
    (hs' : ∀ dimIdx, s'.postingLists dimIdx =
      s.postingLists dimIdx ++ (sparseAt p dimIdx).map (Posting.mk h.nodes.length)) :
    Posted (stored ++ [p]) h' s' := by
  obtain ⟨-, hnew, -, hnodes, hids, -, -⟩ := hins.store
  rw [hid] at hnew hids
  refine ⟨fun dimIdx i => ?_, fun q hq hnone dimIdx => ?_⟩
  · rw [valuesOf_append (hs' dimIdx), hp.values]
    rcases Nat.lt_trichotomy i h.nodes.length with hlt | rfl | hgt
    · have hkeep : h'.nodes[i]? = h.nodes[i]? := by rw [hnodes, getElem?_append_left hlt]
      have hold : expected stored h' dimIdx i = expected stored h dimIdx i := by
        rw [expected, expected, hkeep]
      rw [expected_snoc, hold, if_neg (Nat.ne_of_gt hlt), hkeep]
      congr 1
      split
      · rename_i node hnode
        rw [if_neg fun hboth => ?_]
        cases hnew.symm.trans ((hx p.id i).mpr ⟨node, hnode, hboth.2.symm⟩)
      · rfl
    · -- Behind the last node nothing was expected; the new one has what `p` brings.
      have hnone : expected stored h dimIdx h.nodes.length = [] := by
        rw [expected, getElem?_eq_none (Nat.le_refl _)]
      have hlast : h'.nodes[h.nodes.length]? = some (some (newNode T.mmap h p')) := by
        rw [hnodes, getElem?_concat_length]
      have hbefore : (stored.filter fun q => decide (q.id = p.id)).flatMap
          (sparseAt · dimIdx) = [] := by
        refine flatMap_eq_nil_iff.mpr fun q hq => ?_
        obtain ⟨hq, hsame⟩ := mem_filter.mp hq
        exact hp.unknown q hq (of_decide_eq_true hsame ▸ hnew) dimIdx
      rw [hnone, if_pos rfl, expected, hlast]
      simp only [newNode_id, newNode_deleted, hid, Bool.false_eq_true, if_false,
        filter_append, flatMap_append, hbefore]
      simp
    · have hnone : h.nodes[i]? = none := getElem?_eq_none (Nat.le_of_lt hgt)
      have hnone' : h'.nodes[i]? = none := by
        refine getElem?_eq_none ?_
        rw [hnodes, length_append, length_singleton]
        exact hgt
      rw [if_neg (Nat.ne_of_lt hgt), expected, expected, hnone, hnone']
      rfl
  · rw [hids] at hnone
    rcases mem_append.mp hq with hq | hq
    · by_cases hsame : q.id = p.id
      · rw [hsame, update_self] at hnone
        cases hnone
      · rw [update_of_ne hsame] at hnone
        exact hp.unknown q hq hnone dimIdx
    · cases mem_singleton.mp hq
      rw [update_self] at hnone
      cases hnone

theorem Posted.delete {id : Bytes} {i : ℕ}
    (hid : h.idToIndex id = some i) (hdel : Hnsw.delete h id = .value h') :
    Posted stored h' (s.remove i) := by
  obtain ⟨j, node, hid', hnode, hcases⟩ := Graph.marked_of_delete hdel
  cases hid.symm.trans hid'
  have hids := idToIndex_delete hdel
  refine ⟨fun dimIdx k => ?_, fun q hq hnone => hp.unknown q hq (hids ▸ hnone)⟩
  rw [valuesOf_remove, hp.values]
  rcases hcases with ⟨hmark, rfl⟩ | ⟨-, rfl⟩
  · split
    · rename_i hk
      subst hk
      rw [expected, hnode]
      simp [hmark]
    · rfl
  · split
    · rename_i hk
      subst hk
      have hmarked : (marked h k node).nodes[k]? = some (some { node with deleted := true }) := by
        obtain ⟨hlt, -⟩ := List.getElem?_eq_some_iff.mp hnode
        exact getElem?_set_self hlt
      rw [expected, hmarked]
      simp
    · rename_i hk
      have hother : (marked h i node).nodes[k]? = h.nodes[k]? :=
        getElem?_set_ne (Ne.symm hk)
      rw [expected, expected, hother]

end Invariant

/-! ## Every history -/

def Plain (p : Point F P) : Prop := ∀ vec ∈ p.sparse, vec.indices = []

instance (p : Point F P) : Decidable (Plain p) :=
  inferInstanceAs (Decidable (∀ vec ∈ p.sparse, vec.indices = []))

theorem Plain.sparseAt {p : Point F P} (hplain : Plain p) (dimIdx : UInt32) :
    sparseAt p dimIdx = [] := by
  unfold Hybrid.sparseAt
  split
  · rfl
  · rename_i vec hvec
    rw [valuesAt, hplain vec hvec]
    rfl

/-- A point without a dense vector brings sparse values only to an id that is live, and an upsert of a new id
    brings none. -/
def PostsWell (c : Collection F P D Q C S) : Call F P → Prop
  | .insert p => p.vector ≠ [] ∨ Plain p ∨ presence c p.id = .live
  | .upsert p => Plain p ∨ presence c p.id ≠ .absent
  | .insertV2 _ _ => False
  | _ => True

instance (c : Collection F P D Q C S) (x : Call F P) : Decidable (PostsWell c x) := by
  match x with
  | .insert _ | .insertBatch _ | .insertV2 .. | .upsert _ | .delete _ | .search .. | .setWAL _ | .setEfSearch _ =>
    unfold PostsWell
    infer_instance

structure Posts (cfg : Config) (c : Collection F P D Q C S) (stored : List (Point F P)) : Prop where
  config : c.config = cfg
  index : ∃ h, c.index = some h ∧ Indexed h ∧ Posted stored h c.sparseIdx

section Run

variable [Distance D] {K : Kit F P D Q C S} {cfg : Config}
  {c c' : Collection F P D Q C S} {stored : List (Point F P)} {p : Point F P}

omit [Distance D] in
theorem Posts.frame (hI : Posts cfg c stored) (hconfig : c'.config = c.config)
    (hindex : c'.index = c.index) (hsparse : c'.sparseIdx = c.sparseIdx) :
    Posts cfg c' stored := by
  refine ⟨hconfig.trans hI.config, ?_⟩
  rw [hindex, hsparse]
  exact hI.index

variable {e : Option (Error F)}

omit [Distance D] in
theorem Posts.delete {id : Bytes} (hI : Posts cfg c stored)
    (hcall : deleteInternal c id = .value (c', e)) : Posts cfg c' stored := by
  obtain ⟨h, hindex, hx, hp⟩ := hI.index
  cases deleteInternal_effect hindex hcall with
  | unknown => exact hI
  | known hid hdel =>
    exact ⟨hI.config, _, rfl, Graph.indexed_delete hx hdel, hp.delete hid hdel⟩

variable [Scalar F]

variable (hI : Posts cfg c stored)
include hI

theorem Posts.insert (hsingle : cfg.hasNamedVectors = false)
    (hcond : p.vector ≠ [] ∨ Plain p ∨ presence c p.id = .live)
    (hins : insertInternal K c p = .value (c', e)) :
    Posts cfg c' (if e = none then stored ++ [p] else stored) := by
  obtain ⟨h, hindex, hx, hp⟩ := hI.index
  cases insertInternal_effect (hI.config ▸ hsingle) hindex hins with
  | failed hvec hidle =>
    exact ⟨hI.config, _, rfl, hidle.indexed hx, hp.idle hidle⟩
  | stored hvec hlen hnew hadd =>
    exact ⟨hI.config, _, rfl, hnew.indexed hx, hp.store hx hnew rfl (addSparse_lists hadd)⟩
  | sparseOnly hvec hadd =>
    refine ⟨hI.config, h, hindex, hx, ?_⟩
    rcases hcond with hne | hplain | hlive
    · exact absurd hvec hne
    · refine hp.plain hplain.sparseAt fun dimIdx => ?_
      rw [addSparse_lists hadd, hplain.sparseAt, map_nil, append_nil]
    · rw [presence_eq hindex] at hlive
      obtain ⟨i, hid, hlive⟩ := presenceIn_live hlive
      rw [hid] at hadd
      exact hp.attach hx hid hlive (addSparse_lists hadd)

theorem Posts.upsert (hcond : Plain p ∨ presence c p.id ≠ .absent)
    (hups : upsertInternal K c p = .value (c', e)) :
    Posts cfg c' (if e = none then stored ++ [p] else stored) := by
  obtain ⟨h, hindex, hx, hp⟩ := hI.index
  cases upsertInternal_effect hindex hups with
  | failed hid hidle =>
    exact ⟨hI.config, _, rfl, hidle.indexed hx, hp.idle hidle⟩
  | known hid hdel =>
    exact ⟨hI.config, _, rfl, Graph.indexed_delete hx hdel, hp.delete hid hdel⟩
  | stored hnew =>
    have hplain : Plain p := by
      refine hcond.resolve_right fun hknown => hknown ?_
      rw [presence_eq hindex]
      exact (presenceIn_absent hx).mpr hnew.store.2.1
    refine ⟨hI.config, _, rfl, hnew.indexed hx, hp.store hx hnew rfl fun dimIdx => ?_⟩
    rw [hplain.sparseAt, map_nil, append_nil]

theorem Posts.call {x : Call F P} {reply : Reply F P D}
    (hsingle : cfg.hasNamedVectors = false) (hdim : cfg.dimension ≠ 0) (hcond : PostsWell c x)
    (hcall : call K c x = .value (c', reply)) : Posts cfg c' (stored ++ stores K c x) := by
  cases called hcall with
  | @insert _ _ e hins =>
    rw [stores_insert hins]
    rcases insert_cases hins with ⟨w, err, rfl, rfl⟩ | ⟨-, w, c₂, hint, rfl⟩
    · rw [if_neg (Option.some_ne_none _), append_nil]
      exact hI.frame rfl rfl rfl
    · have hbase : Posts cfg { c with wal := w } stored := hI.frame rfl rfl rfl
      have hdone := hbase.insert hsingle hcond hint
      cases e with
      | none => exact hdone.frame rfl rfl rfl
      | some err => exact (append_nil stored).symm ▸ hdone
  | insertBatch hins =>
    rcases insertBatch_cases hins with ⟨⟨w, rfl⟩, hnone⟩ | ⟨w, c₂, r₀, happ, rfl, hstores⟩
    · rw [hnone, append_nil]
      exact hI.frame rfl rfl rfl
    · rw [hstores]
      have hbase : Posts cfg { c with wal := w } stored := hI.frame rfl rfl rfl
      refine Posts.frame (c := c₂) ?_ rfl rfl rfl
      refine applyBatch_induct (fun c₃ c₄ p e stored hp hI' hint => ?_) stored hbase happ
      -- A point of the right length has a dense vector.
      have hlen := (accepted_iff.mp (mem_filter.mp hp).2).2
      refine hI'.insert hsingle (.inl fun hnil => hdim ?_) hint
      rw [← hI.config, ← hlen, hnil]
      rfl
  | insertV2 => exact hcond.elim
  | @upsert _ _ e hups =>
    rw [stores_upsert hups]
    rcases upsert_cases hups with ⟨w, err, rfl, rfl⟩ | ⟨-, -, w, hint⟩
    · rw [if_neg (Option.some_ne_none _), append_nil]
      exact hI.frame rfl rfl rfl
    · have hbase : Posts cfg { c with wal := w } stored := hI.frame rfl rfl rfl
      have hdone := hbase.upsert hcond hint
      cases e with
      | none => exact hdone
      | some err => exact (append_nil stored).symm ▸ hdone
  | delete hdel =>
    rw [stores, append_nil]
    rcases delete_cases hdel with ⟨w, err, rfl, -⟩ | ⟨w, c₂, hint, rfl⟩
    · exact hI.frame rfl rfl rfl
    · have hbase : Posts cfg { c with wal := w } stored := hI.frame rfl rfl rfl
      refine (hbase.delete hint).frame ?_ ?_ ?_ <;> split <;> rfl
  | search hfind =>
    rw [stores, append_nil, searchWithParams_frame hfind]
    exact hI.frame rfl rfl rfl
  | setWAL =>
    rw [stores, append_nil]
    exact hI.frame rfl rfl rfl
  | setEfSearch hindex =>
    obtain ⟨h, hindex', hx, hp⟩ := hI.index
    cases hindex.symm.trans hindex'
    rw [stores, append_nil]
    exact ⟨hI.config, _, rfl, hx, hp.values, hp.unknown⟩

end Run

/-! ## Every posting has its point -/

/-- **Each posting belongs to a live point**, stored with the value at the index. The values of a live point
    are all there, in order. -/
structure Filed (stored : List (Point F P)) (h : Index F P Q C S) (s : InvertedIndex F) : Prop where
  owner : ∀ dimIdx, ∀ q ∈ s.postingLists dimIdx, ∃ node, h.nodes[q.docID]? = some (some node) ∧
    node.deleted = false ∧ ∃ p ∈ stored, p.id = node.id ∧
      ∃ vec, p.sparse = some vec ∧ (dimIdx, q.value) ∈ vec.indices.zip vec.values
  whole : ∀ i node, h.nodes[i]? = some (some node) → node.deleted = false → ∀ dimIdx,
    valuesOf s dimIdx i =
      (stored.filter fun p => decide (p.id = node.id)).flatMap (sparseAt · dimIdx)

theorem mem_sparseAt {p : Point F P} {dimIdx : UInt32} {x : F} (hx : x ∈ sparseAt p dimIdx) :
    ∃ vec, p.sparse = some vec ∧ (dimIdx, x) ∈ vec.indices.zip vec.values := by
  unfold sparseAt at hx
  split at hx
  · cases hx
  · rename_i vec hvec
    obtain ⟨e, he, rfl⟩ := mem_map.mp hx
    obtain ⟨hmem, hdim⟩ := mem_filter.mp he
    cases of_decide_eq_true hdim
    exact ⟨vec, hvec, hmem⟩

theorem Posted.filed {stored : List (Point F P)} {h : Index F P Q C S} {s : InvertedIndex F}
    (hp : Posted stored h s) : Filed stored h s := by
  refine ⟨fun dimIdx q hq => ?_, fun i node hnode hdel dimIdx => ?_⟩
  · have hvalue : q.value ∈ expected stored h dimIdx q.docID := by
      rw [← hp.values]
      exact mem_map_of_mem (mem_filter.mpr ⟨hq, decide_eq_true rfl⟩)
    unfold expected at hvalue
    split at hvalue
    · rename_i node hnode
      split at hvalue
      · cases hvalue
      · rename_i hdel
        obtain ⟨p, hp, hvalue⟩ := mem_flatMap.mp hvalue
        obtain ⟨hp, hid⟩ := mem_filter.mp hp
        exact ⟨node, hnode, Bool.eq_false_iff.mpr hdel, p, hp, of_decide_eq_true hid,
          mem_sparseAt hvalue⟩
    · cases hvalue
  · rw [hp.values, expected, hnode]
    simp only [hdel, Bool.false_eq_true, if_false]

/-- **In every history of a single-vector collection** in which no call loses or misplaces sparse values, the
    postings are those of the live points. -/
theorem postings_filed [Scalar F] [Distance D] {K : Kit F P D Q C S} {cfg : Config}
    {parts : Bytes → Parts Q S} {payloads : ℕ → Option P} {dispatcher : Dispatcher}
    {c₀ c : Collection F P D Q C S} {xs : List (Call F P)} {stored : List (Point F P)}
    (hnew : new cfg parts payloads dispatcher = .ok c₀) (hsingle : cfg.hasNamedVectors = false)
    (hcond : Along (stepStored K) (fun s x => PostsWell s.1 x) (c₀, []) xs)
    (hrun : run (stepStored K) (c₀, []) xs = some (c, stored)) :
    ∃ h, c.index = some h ∧ Indexed h ∧ Filed stored h c.sparseIdx := by
  obtain ⟨hval, h₀, hindex, rfl⟩ := new_single hnew hsingle
  have hdim : cfg.dimension ≠ 0 := dimension_ne_zero hval hsingle
  have hbase : Posts cfg { config := cfg, index := some h₀, indices := fun _ => none
                           payloads := payloads, sparseIdx := .new
                           searchCache := Cache.new 10000 300, wal := none
                           dispatcher := dispatcher : Collection F P D Q C S } [] := by
    refine ⟨rfl, h₀, rfl, (listed_new hindex).indexed, fun dimIdx i => ?_, fun p hp => by cases hp⟩
    rw [Graph.new_eq hindex]
    rfl
  have hposts := run_along (I := fun s => Posts cfg s.1 s.2) (fun s x s' hI hwell hstep => ?_)
    hbase hcond hrun
  · obtain ⟨h, hh, hx, hp⟩ := hposts.index
    exact ⟨h, hh, hx, hp.filed⟩
  · obtain ⟨c₁, hone, rfl⟩ := Option.map_eq_some_iff.mp hstep
    obtain ⟨reply, hcall⟩ := call_of_step hone
    exact hI.call hsingle hdim hwell hcall

def sparsePoint (id : UInt8) (vec : SparseVector ℕ) : Point ℕ ℕ := ⟨[id], [], none, [], some vec⟩

/-- The first point is live, and has other values at index 7 than were stored for it. -/
def misfiled (s : Collection ℕ ℕ ℕ Unit Unit Unit × List (Point ℕ ℕ)) : Bool :=
  s.1.index.any fun h =>
    match h.nodes[0]? with
    | some (some node) => !node.deleted && decide (valuesOf s.1.sparseIdx 7 0 ≠
        (s.2.filter fun p => decide (p.id = node.id)).flatMap (sparseAt · 7))
    | _ => false

theorem not_filed_of_misfiled {s : Collection ℕ ℕ ℕ Unit Unit Unit × List (Point ℕ ℕ)}
    (hs : misfiled s = true) : ∃ h, s.1.index = some h ∧ ¬ Filed s.2 h s.1.sparseIdx := by
  obtain ⟨h, hindex, hs⟩ := (Option.any_eq_true ..).mp hs
  refine ⟨h, hindex, fun hf => ?_⟩
  split at hs
  · rename_i node hnode
    obtain ⟨hlive, hne⟩ := Bool.and_eq_true_iff.mp hs
    exact of_decide_eq_true hne (hf.whole 0 node hnode (Bool.not_eq_true' _ ▸ hlive) 7)
  · cases hs

/-- **A point without a dense vector**: its values go to the first point. **An upsert of a new
    point**: its values go nowhere. -/
theorem postings_misfiled : (∃ c stored h, run (stepStored lineKit) (lineCollection, [])
        [.insert (linePoint 1 5 none none), .insert (sparsePoint 2 ⟨[7], [3]⟩)] =
          some (c, stored) ∧ c.index = some h ∧ ¬ Filed stored h c.sparseIdx) ∧
    ∃ c stored h, run (stepStored lineKit) (lineCollection, [])
        [.upsert (linePoint 1 5 none (some ⟨[7], [3]⟩))] = some (c, stored) ∧
      c.index = some h ∧ ¬ Filed stored h c.sparseIdx := by
  have hfirst : (run (stepStored lineKit) (lineCollection, [])
      [.insert (linePoint 1 5 none none), .insert (sparsePoint 2 ⟨[7], [3]⟩)]).any misfiled =
      true := by decide +kernel
  have hsecond : (run (stepStored lineKit) (lineCollection, [])
      [.upsert (linePoint 1 5 none (some ⟨[7], [3]⟩))]).any misfiled = true := by decide +kernel
  obtain ⟨⟨c, stored⟩, hrun, hmis⟩ := (Option.any_eq_true ..).mp hfirst
  obtain ⟨⟨c', stored'⟩, hrun', hmis'⟩ := (Option.any_eq_true ..).mp hsecond
  obtain ⟨h, hh⟩ := not_filed_of_misfiled hmis
  obtain ⟨h', hh'⟩ := not_filed_of_misfiled hmis'
  exact ⟨⟨c, stored, h, hrun, hh⟩, c', stored', h', hrun', hh'⟩

/-- Points with sparse vectors come and go, and one without a dense vector adds to a live one. -/
def sparseHistory : List (Call ℕ ℕ) :=
  [.insert (linePoint 1 5 none (some ⟨[7, 8], [3, 4]⟩)),
    .insertBatch [linePoint 2 6 none (some ⟨[7], [9]⟩), linePoint 1 8 none (some ⟨[7], [1]⟩)],
    .insert (sparsePoint 2 ⟨[8], [2]⟩), .delete [1], .upsert (linePoint 3 4 none none)]

theorem postings_filed_line : ∃ c stored h,
    run (stepStored lineKit) (lineCollection, []) sparseHistory = some (c, stored) ∧
      c.index = some h ∧ Indexed h ∧ Filed stored h c.sparseIdx ∧
      c.sparseIdx.postingLists 7 = [⟨1, 9⟩] ∧ c.sparseIdx.postingLists 8 = [⟨1, 2⟩] := by
  have hview : (run (stepStored lineKit) (lineCollection, []) sparseHistory).any (fun s =>
      s.1.sparseIdx.postingLists 7 = [⟨1, 9⟩] ∧ s.1.sparseIdx.postingLists 8 = [⟨1, 2⟩]) =
      true := by decide +kernel
  have hcond : Along (stepStored lineKit) (fun s x => PostsWell s.1 x) (lineCollection, [])
      sparseHistory := by decide +kernel
  obtain ⟨⟨c, stored⟩, hrun, hview⟩ := (Option.any_eq_true ..).mp hview
  obtain ⟨h, hindex, hx, hfiled⟩ := postings_filed lineCollection_new rfl hcond hrun
  exact ⟨c, stored, h, hrun, hindex, hx, hfiled, of_decide_eq_true hview⟩

end LimyeDB.Hybrid
