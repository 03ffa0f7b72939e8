/-
  SCROLLING THROUGH A COLLECTION: page after page by the offset that the last one returned, in a collection
  that stays, and in one from which points are deleted.
-/
import LimyeDB.Hybrid.Calls
import LimyeDB.Lib.Cursor
import LimyeDB.Payload.Filter

namespace LimyeDB.Hybrid

open Go Hnsw Lib Lib.Runs List
open LimyeDB.Graph (Index Tools Distance livePoints)

variable {F P D Q C S : Type} [Distance D]

/-! ## A page -/

def scrolledPoint (params : ScrollParams P) (p : Point F P) : ScoredPoint F P D where
  id := p.id
  score := Distance.zero
  vector := if params.WithVector then p.vector else []
  payload := if params.WithPayload then p.payload else none

def cursorOf (offset : Bytes) : Option Bytes := if offset = [] then none else some offset

omit [Distance D] in
theorem limit_pos (params : ScrollParams P) : 0 < params.limit := by
  unfold ScrollParams.limit
  split
  · omega
  · split <;> omega

section Page

variable (params : ScrollParams P) (points : List (Point F P))

omit [Distance D] in
theorem startIdx_eq (offset : Bytes) :
    startIdx offset points = Cursor.start (cursorOf offset) (points.map Point.id) := by
  unfold startIdx cursorOf
  by_cases hnil : offset = []
  · simp [hnil, Cursor.start]
  · simp only [hnil, if_false]
    rw [Cursor.start_some, findIdx?_map]
    rfl

omit [Distance D] in
theorem slice_eq (start limit : ℕ) : (points.take (min (start + limit) points.length)).drop start =
      (points.drop start).take limit := by
  rw [drop_take]
  rcases Nat.le_total (start + limit) points.length with hle | hle
  · rw [Nat.min_eq_left hle, Nat.add_sub_cancel_left]
  · rw [Nat.min_eq_right hle, take_of_length_le (by rw [length_drop]),
      take_of_length_le (by rw [length_drop]; omega)]

theorem pageOf_points : (pageOf params points : ScrollResult F P D).points =
    ((points.drop (startIdx params.Offset points)).take params.limit).map
      (scrolledPoint params) := by
  unfold pageOf
  simp only [slice_eq]
  rfl

theorem pageOf_ids : (pageOf params points : ScrollResult F P D).points.map ScoredPoint.id =
    Cursor.page params.limit (cursorOf params.Offset) (points.map Point.id) := by
  rw [pageOf_points, startIdx_eq, Cursor.page, map_map, map_take, map_drop]
  rfl

theorem pageOf_next (hids : ∀ p ∈ points, p.id ≠ []) :
    cursorOf (pageOf params points : ScrollResult F P D).nextOffset =
      Cursor.next params.limit (cursorOf params.Offset) (points.map Point.id) := by
  unfold pageOf Cursor.next Cursor.page
  simp only [slice_eq, ← startIdx_eq, ← map_drop, ← map_take, getLast?_map, length_map]
  cases hlast : ((points.drop (startIdx params.Offset points)).take params.limit).getLast? with
  | none => simp [cursorOf]
  | some p =>
    have hp : p ∈ points :=
      mem_of_mem_drop (mem_of_mem_take (mem_of_getLast? hlast))
    by_cases hlt : startIdx params.Offset points + params.limit < points.length
    · have hmin : min (startIdx params.Offset points + params.limit) points.length <
        points.length := by omega
      simp [hmin, hlt, cursorOf, hids p hp]
    · have hmin : ¬ min (startIdx params.Offset points + params.limit) points.length <
        points.length := by omega
      simp [hmin, hlt, cursorOf]

end Page

/-! ## The points that pass -/

section Passing

variable (filter : Option (Option P → Outcome Empty Bool)) (points : List (Point F P))

/-- The filter can be evaluated on every point. -/
def Settles : Prop := ∀ p ∈ points, ∃ b, evaluate filter p.payload = .value b

def passing : List (Point F P) := points.filter fun p => evaluate filter p.payload = .value true

omit [Distance D] in
theorem filteredPoints_cases :
    (Settles filter points ∧ filteredPoints filter points = .value (passing filter points)) ∨
      ¬ Settles filter points ∧ filteredPoints filter points = .panic := by
  induction points with
  | nil => exact .inl ⟨nofun, rfl⟩
  | cons p points ih =>
    unfold Settles at ih ⊢
    rw [forall_mem_cons]
    unfold filteredPoints
    cases heval : evaluate filter p.payload with
    | error e => exact e.elim
    | panic => exact .inr ⟨fun hall => (by simpa using hall.1), rfl⟩
    | value b =>
      rcases ih with ⟨hall, hrest⟩ | ⟨hnot, hrest⟩
      · refine .inl ⟨⟨⟨b, rfl⟩, hall⟩, ?_⟩
        simp only [hrest, Outcome.value_bind, Outcome.pure_eq]
        cases b <;> simp [passing, heval]
      · exact .inr ⟨fun hall => hnot hall.2, by simp only [hrest, Outcome.value_bind]; rfl⟩

end Passing

/-! ## A collection that stays -/

def matching (K : Kit F P D Q C S) (h : Index F P Q C S)
    (filter : Option (Option P → Outcome Empty Bool)) : List (Point F P) :=
  passing filter (livePoints (K.tools []) h)

def matchingIds (K : Kit F P D Q C S) (h : Index F P Q C S)
    (filter : Option (Option P → Outcome Empty Bool)) : List Bytes :=
  (matching K h filter).map Point.id

def Matching (K : Kit F P D Q C S) (c : Collection F P D Q C S)
    (filter : Option (Option P → Outcome Empty Bool)) (pt : Point F P) : Prop :=
  get K c pt.id = .value pt ∧ evaluate filter pt.payload = .value true

section Single

variable {K : Kit F P D Q C S} {c : Collection F P D Q C S} {h : Index F P Q C S}
  {filter : Option (Option P → Outcome Empty Bool)}

variable {pt : Point F P}

theorem get_iff_live (hindex : c.index = some h) (hl : Listed h) :
    get K c pt.id = .value pt ↔ pt ∈ livePoints (K.tools []) h := by
  unfold get
  rw [hindex, Graph.get_eq_iff hl.indexed, and_iff_left rfl]

theorem mem_matching (hindex : c.index = some h) (hl : Listed h) :
    pt ∈ matching K h filter ↔ Matching K c filter pt := by
  unfold matching passing Matching
  rw [mem_filter, decide_eq_true_iff, get_iff_live hindex hl]

theorem nodup_matching (K : Kit F P D Q C S) (filter : Option (Option P → Outcome Empty Bool))
    (hl : Listed h) : (matchingIds K h filter).Nodup :=
  (Graph.livePoints_nodup hl.indexed).sublist (filter_sublist.map Point.id)

theorem id_ne_nil_of_matching (hl : Listed h) (hpt : pt ∈ matching K h filter) :
    pt.id ≠ [] := by
  obtain ⟨i, node, hnode, -, rfl⟩ := Graph.mem_livePoints.mp (mem_filter.mp hpt).1
  exact hl.named node (mem_of_getElem? hnode)

def pageAt (K : Kit F P D Q C S) (h : Index F P Q C S) (params : ScrollParams P)
    (offset : Bytes) : ScrollResult F P D :=
  pageOf { params with Offset := offset } (matching K h params.Filter)

theorem scroll_cases (K : Kit F P D Q C S) (hsingle : c.config.hasNamedVectors = false)
    (hindex : c.index = some h) (hl : Listed h) (names : List Bytes) (params : ScrollParams P)
    (offset : Bytes) :
    (Settles params.Filter (livePoints (K.tools []) h) ∧
      scroll K c names { params with Offset := offset } = .value (pageAt K h params offset)) ∨
    ¬ Settles params.Filter (livePoints (K.tools []) h) ∧
      scroll K c names { params with Offset := offset } = .panic := by
  unfold scroll
  simp only [hsingle, Bool.false_eq_true, if_false, hindex]
  rw [Graph.getAllPoints_eq hl.node, Outcome.value_bind]
  refine (filteredPoints_cases params.Filter (livePoints (K.tools []) h)).imp ?_ ?_
  · exact fun ⟨hall, heq⟩ => ⟨hall, by simp only [heq]; rfl⟩
  · exact fun ⟨hnot, heq⟩ => ⟨hnot, by simp only [heq]; rfl⟩

theorem scroll_value (hsingle : c.config.hasNamedVectors = false) (hindex : c.index = some h)
    (hl : Listed h) {names : List Bytes} {params : ScrollParams P} {offset : Bytes}
    {r : ScrollResult F P D}
    (hpage : scroll K c names { params with Offset := offset } = .value r) :
    Settles params.Filter (livePoints (K.tools []) h) ∧ r = pageAt K h params offset := by
  rcases scroll_cases K hsingle hindex hl names params offset with ⟨hall, heq⟩ | ⟨-, heq⟩
  · cases heq.symm.trans hpage
    exact ⟨hall, rfl⟩
  · cases heq.symm.trans hpage

theorem pageAt_ids (K : Kit F P D Q C S) (h : Index F P Q C S) (params : ScrollParams P)
    (offset : Bytes) : (pageAt K h params offset).points.map ScoredPoint.id =
      Cursor.page params.limit (cursorOf offset) (matchingIds K h params.Filter) :=
  pageOf_ids ..

theorem pageAt_next (K : Kit F P D Q C S) (hl : Listed h) (params : ScrollParams P)
    (offset : Bytes) : cursorOf (pageAt K h params offset).nextOffset =
      Cursor.next params.limit (cursorOf offset) (matchingIds K h params.Filter) :=
  pageOf_next _ _ fun _ => id_ne_nil_of_matching hl

end Single

/-- Scroll with an offset, and again with the offset it returned, until that is empty. -/
inductive Scrolled (K : Kit F P D Q C S) (c : Collection F P D Q C S) (names : List Bytes)
    (params : ScrollParams P) : Bytes → List (ScrollResult F P D) → Prop where
  | last {offset r} (hpage : scroll K c names { params with Offset := offset } = .value r)
      (hend : r.nextOffset = []) : Scrolled K c names params offset [r]
  | next {offset r pages} (hpage : scroll K c names { params with Offset := offset } = .value r)
      (hmore : r.nextOffset ≠ []) (hrest : Scrolled K c names params r.nextOffset pages) :
      Scrolled K c names params offset (r :: pages)

def returned (pages : List (ScrollResult F P D)) : List (ScoredPoint F P D) :=
  pages.flatMap ScrollResult.points

section Stays

variable {K : Kit F P D Q C S} {c : Collection F P D Q C S} {h : Index F P Q C S}
  {names : List Bytes} {params : ScrollParams P}

variable {offset : Bytes}

omit [Distance D] in
theorem cursorOf_eq_none : cursorOf offset = none ↔ offset = [] := by
  unfold cursorOf
  split <;> simp_all

theorem mem_pageAt {sp : ScoredPoint F P D}
    (hsp : sp ∈ (pageAt K h params offset).points) :
    ∃ pt ∈ matching K h params.Filter, sp = scrolledPoint params pt := by
  unfold pageAt at hsp
  rw [pageOf_points] at hsp
  obtain ⟨pt, hpt, rfl⟩ := mem_map.mp hsp
  exact ⟨pt, mem_of_mem_drop (mem_of_mem_take hpt), rfl⟩

theorem scrolled_of_browse (names : List Bytes) (hsingle : c.config.hasNamedVectors = false)
    (hindex : c.index = some h) (hl : Listed h)
    (hall : Settles params.Filter (livePoints (K.tools []) h)) {l : List Bytes} {o : Option Bytes}
    {rs : List (List Bytes × List Bytes)} (hb : Cursor.Browse params.limit Eq l o rs)
    (hids : l = matchingIds K h params.Filter)
    (ho : cursorOf offset = o) : ∃ pages, Scrolled K c names params offset pages ∧
      (returned pages).map ScoredPoint.id = Cursor.shown rs ∧
      ∀ sp ∈ returned pages, ∃ pt ∈ matching K h params.Filter, sp = scrolledPoint params pt := by
  have hpage := fun offset => ((scroll_cases K hsingle hindex hl names params offset).resolve_right
    fun hnot => hnot.1 hall).2
  induction hb generalizing offset with
  | last hend =>
    subst hids ho
    have hdone := pageAt_next K hl params offset
    rw [hend, cursorOf_eq_none] at hdone
    refine ⟨[_], .last (hpage offset) hdone, ?_, fun sp hsp => ?_⟩
    · rw [returned, flatMap_singleton, pageAt_ids]
      exact (flatMap_singleton ..).symm
    · rw [returned, flatMap_singleton] at hsp
      exact mem_pageAt hsp
  | @more l l' o x rs hmore hR hrest ih =>
    subst hR hids ho
    have hcur := pageAt_next K hl params offset
    rw [hmore] at hcur
    obtain ⟨pages, hpages, hshown, hfrom⟩ := ih rfl hcur
    refine ⟨_ :: pages, .next (hpage offset) (fun hnil => ?_) hpages, ?_, fun sp hsp => ?_⟩
    · rw [cursorOf_eq_none.mpr hnil] at hcur
      cases hcur
    · rw [returned, flatMap_cons, map_append, pageAt_ids]
      exact congrArg _ hshown
    · rw [returned, flatMap_cons, mem_append] at hsp
      exact hsp.elim mem_pageAt (hfrom sp)

/-- **In every state of a single-vector collection** scrolling from the empty offset comes to an end and
    returns the live points that pass the filter, each once, exactly if the filter can be evaluated on every
    live point. -/
theorem scroll_complete_iff [Scalar F] {cfg : Config} {parts : Bytes → Parts Q S}
    {payloads : ℕ → Option P} {dispatcher : Dispatcher} {c₀ : Collection F P D Q C S}
    (hnew : new cfg parts payloads dispatcher = .ok c₀) (hsingle : cfg.hasNamedVectors = false)
    {xs : List (Call F P)} (hrun : run (step K) c₀ xs = some c) (names : List Bytes)
    (params : ScrollParams P) : (∃ pages, Scrolled K c names params [] pages ∧
      ((returned pages).map ScoredPoint.id).Nodup ∧
      ∀ sp, sp ∈ returned pages ↔
        ∃ pt, Matching K c params.Filter pt ∧ sp = scrolledPoint params pt) ↔
      ∀ pt, get K c pt.id = .value pt → ∃ b, evaluate params.Filter pt.payload = .value b := by
  obtain ⟨rfl, h, hindex, hl⟩ := listed_of_run hnew hsingle hrun
  simp only [get_iff_live hindex hl]
  refine ⟨fun ⟨pages, hpages, _⟩ => ?_, fun hall => ?_⟩
  · -- the first page was returned
    cases hpages with
    | last hpage => exact (scroll_value hsingle hindex hl hpage).1
    | next hpage => exact (scroll_value hsingle hindex hl hpage).1
  have hnodup := nodup_matching K params.Filter hl
  obtain ⟨rs, hrs, hshown⟩ := Cursor.browse_all (limit_pos params) hnodup (Cursor.stands_none _)
  obtain ⟨pages, hpages, hids, hfrom⟩ :=
    scrolled_of_browse names hsingle hindex hl hall hrs rfl (cursorOf_eq_none.mpr rfl)
  rw [hshown] at hids
  refine ⟨pages, hpages, hids ▸ hnodup, fun sp => ⟨fun hsp => ?_, ?_⟩⟩
  · obtain ⟨pt, hpt, rfl⟩ := hfrom sp hsp
    exact ⟨pt, (mem_matching hindex hl).mp hpt, rfl⟩
  · intro ⟨pt, hpt, hsp⟩
    rw [← mem_matching hindex hl] at hpt
    have hid : pt.id ∈ (returned pages).map ScoredPoint.id := hids ▸ mem_map_of_mem hpt
    obtain ⟨sp', hsp', hsame⟩ := mem_map.mp hid
    obtain ⟨pt', hpt', rfl⟩ := hfrom sp' hsp'
    have hpts : pt' = pt := inj_on_of_nodup_map hnodup hpt' hpt hsame
    rw [hsp, ← hpts]
    exact hsp'

end Stays

def fourPoints : List (Call ℕ ℕ) :=
  [.insert (linePoint 1 5 (some 1) none), .insert (linePoint 2 7 (some 2) none),
    .insert (linePoint 3 9 (some 1) none), .insert (linePoint 4 11 (some 1) none), .delete [3]]

def twoAPage : ScrollParams ℕ := ⟨[], 2, some fun pl => .value (pl == some 1), false, true⟩

/-- A limit of two, and a filter that one of the points does not pass. -/
theorem scroll_complete_line : ∃ c pages, run (step lineKit) lineCollection fourPoints = some c ∧
    Scrolled lineKit c [] twoAPage [] pages ∧ ((returned pages).map ScoredPoint.id).Nodup ∧
    ∀ sp, sp ∈ returned pages ↔
      ∃ pt, Matching lineKit c twoAPage.Filter pt ∧ sp = scrolledPoint twoAPage pt := by
  have hsome : (run (step lineKit) lineCollection fourPoints).isSome = true := by decide +kernel
  obtain ⟨c, hrun⟩ := Option.isSome_iff_exists.mp hsome
  obtain ⟨pages, hpages⟩ := (scroll_complete_iff lineCollection_new rfl hrun [] twoAPage).mpr
    fun _ _ => ⟨_, rfl⟩
  exact ⟨c, pages, hrun, hpages⟩

/-! ## A filter that panics -/

def objectKit : Kit ℕ Payload.Object ℕ Unit Unit Unit :=
  { toScores := lineKit.toScores, tools := lineKit.tools, pool := lineKit.pool
    codec := ⟨fun p => .ok p.id, fun _ => .error "not used"⟩, blank := List.isEmpty
    searchKey := lineKit.searchKey }

def tagsPoint : Point ℕ Payload.Object := ⟨[1], [5], some [("tags", .arr [.str "a"])], [], none⟩

def tagsPage : ScrollParams Payload.Object where
  Offset := []
  Limit := 10
  Filter := some fun payload => Payload.evaluate Payload.asciiFolding (payload.getD [])
    (.ofField "tags" (.eq (.arr [.str "a"])))
  WithVector := true
  WithPayload := true

/-- **A point whose field is a list, and a filter that compares it with a list**: no page is returned. -/
theorem scroll_panics : ∃ c₀ c : Collection ℕ Payload.Object ℕ Unit Unit Unit,
    new lineConfig lineParts (fun _ => none) freeDispatcher = .ok c₀ ∧
      run (step objectKit) c₀ [.insert tagsPoint] = some c ∧
      scroll objectKit c [] tagsPage = .panic ∧ ∀ pages, ¬ Scrolled objectKit c [] tagsPage [] pages := by
  obtain ⟨c₀, c, hnew, hrun, hpanic⟩ : ∃ c₀ c : Collection ℕ Payload.Object ℕ Unit Unit Unit,
    new lineConfig lineParts (fun _ => none) freeDispatcher = .ok c₀ ∧
      run (step objectKit) c₀ [.insert tagsPoint] = some c ∧
      scroll objectKit c [] tagsPage = .panic := ⟨_, _, rfl, rfl, rfl⟩
  refine ⟨c₀, c, hnew, hrun, hpanic, fun pages hpages => ?_⟩
  cases hpages with
  | last hpage => cases hpanic.symm.trans hpage
  | next hpage => cases hpanic.symm.trans hpage

/-! ## A collection from which points are deleted -/

section Delete

variable {T : Tools F D Q C S} {h h' : Index F P Q C S} {i : ℕ} {node : Node F P}

theorem livePoints_marked (hx : Indexed h) (hnode : h.nodes[i]? = some (some node)) :
    livePoints T (Graph.marked h i node) =
      (livePoints T h).filter fun p => decide (p.id ≠ node.id) := by
  have hlt := (List.getElem?_eq_some_iff.mp hnode).1
  have hsplit : h.nodes = h.nodes.take i ++ some node :: h.nodes.drop (i + 1) := by
    rw [← (List.getElem?_eq_some_iff.mp hnode).2, cons_getElem_drop_succ, take_append_drop]
  have hvec : Graph.livePoint T (Graph.marked h i node) = Graph.livePoint T h := rfl
  -- the other nodes have other ids
  have hother : ∀ j ≠ i, ∀ n, h.nodes[j]? = some n → ∀ pt, Graph.livePoint T h n = some pt →
      pt.id ≠ node.id := by
    intro j hj n hn pt hpt hsame
    obtain ⟨node', rfl, -, rfl⟩ := Graph.livePoint_eq_some.mp hpt
    have hi := (hx node.id i).mpr ⟨node, hnode, rfl⟩
    have hj' := (hx node.id j).mpr ⟨node', hn, hsame⟩
    rw [hi] at hj'
    exact hj (Option.some.inj hj').symm
  have hkeep : ∀ l : List (Option (Node F P)), (∀ n ∈ l, ∃ j ≠ i, h.nodes[j]? = some n) →
      (l.filterMap (Graph.livePoint T h)).filter (fun p => decide (p.id ≠ node.id)) =
        l.filterMap (Graph.livePoint T h) := by
    intro l hl
    refine filter_eq_self.mpr fun pt hpt => ?_
    obtain ⟨n, hn, hpt⟩ := mem_filterMap.mp hpt
    obtain ⟨j, hj, hjn⟩ := hl n hn
    exact decide_eq_true (hother j hj n hjn pt hpt)
  have htake := hkeep (h.nodes.take i) fun n hn => by
    obtain ⟨j, hj⟩ := mem_iff_getElem?.mp hn
    have hlen := (List.getElem?_eq_some_iff.mp hj).1
    rw [length_take] at hlen
    exact ⟨j, by omega, by rwa [List.getElem?_take_of_lt (by omega)] at hj⟩
  have hdrop := hkeep (h.nodes.drop (i + 1)) fun n hn => by
    obtain ⟨j, hj⟩ := mem_iff_getElem?.mp hn
    rw [getElem?_drop] at hj
    exact ⟨i + 1 + j, by omega, hj⟩
  unfold livePoints
  rw [hvec]
  conv_rhs => rw [hsplit]
  rw [filterMap_append, filter_append, htake]
  show (h.nodes.set i _).filterMap _ = _
  rw [set_eq_take_append_cons_drop, if_pos hlt, filterMap_append]
  congr 1
  rw [filterMap_cons_none (by rfl), filterMap_cons]
  split
  · exact hdrop.symm
  · rename_i pt hpt
    obtain ⟨node', hnode', -, rfl⟩ := Graph.livePoint_eq_some.mp hpt
    cases hnode'
    rw [filter_cons_of_neg (by simp), hdrop]

end Delete

section Shrink

variable {K : Kit F P D Q C S} {c c' : Collection F P D Q C S} {h h' : Index F P Q C S}

theorem shrinks_of_delete (filter : Option (Option P → Outcome Empty Bool)) (hl : Listed h) {id : Bytes}
    (hdel : Hnsw.delete h id = .value h') :
    Cursor.Shrinks (matchingIds K h filter) (matchingIds K h' filter) := by
  obtain ⟨i, node, -, hnode, ⟨-, rfl⟩ | ⟨-, rfl⟩⟩ := Graph.marked_of_delete hdel
  · exact .refl _
  · refine ⟨fun id => decide (id ≠ node.id), ?_⟩
    unfold matchingIds matching passing
    rw [livePoints_marked hl.indexed hnode, filter_map, filter_filter, filter_filter]
    congr 1
    exact filter_congr fun p _ => Bool.and_comm ..

theorem delete_shrinks [Scalar F] (filter : Option (Option P → Outcome Empty Bool)) {id : Bytes}
    (hstep : step K c (.delete id) = some c') (hindex : c.index = some h) (hl : Listed h) :
    c'.config = c.config ∧ ∃ h', c'.index = some h' ∧ Listed h' ∧
      Cursor.Shrinks (matchingIds K h filter) (matchingIds K h' filter) := by
  obtain ⟨reply, hcall⟩ := call_of_step hstep
  cases called hcall with
  | delete hdel =>
    rcases delete_cases hdel with ⟨w, err, rfl, -⟩ | ⟨w, c₂, hint, rfl⟩
    · exact ⟨rfl, h, hindex, hl, .refl _⟩
    · obtain ⟨h₀, hindex₀, hcases⟩ := deleteInternal_cases hint
      cases hindex.symm.trans hindex₀
      rcases hcases with ⟨err, -, rfl, rfl⟩ | ⟨h₁, hdel₁, rfl, rfl⟩
      · exact ⟨rfl, h, hindex, hl, .refl _⟩
      · exact ⟨rfl, h₁, rfl, hl.deleted hdel₁, shrinks_of_delete filter hl hdel₁⟩

theorem deletes_shrink [Scalar F] (filter : Option (Option P → Outcome Empty Bool)) {ids : List Bytes}
    (hrun : run (step K) c (ids.map .delete) = some c') (hindex : c.index = some h)
    (hl : Listed h) : c'.config = c.config ∧ ∃ h', c'.index = some h' ∧ Listed h' ∧
      Cursor.Shrinks (matchingIds K h filter) (matchingIds K h' filter) := by
  induction ids generalizing c h with
  | nil =>
    cases hrun
    exact ⟨rfl, h, hindex, hl, .refl _⟩
  | cons id ids ih =>
    obtain ⟨c₁, hstep, hrun⟩ := run_cons.mp hrun
    obtain ⟨hcfg, h₁, hindex₁, hl₁, hshrink⟩ := delete_shrinks filter hstep hindex hl
    obtain ⟨hcfg', h', hindex', hl', hshrink'⟩ := ih hrun hindex₁ hl₁
    exact ⟨hcfg'.trans hcfg, h', hindex', hl', hshrink.trans hshrink'⟩

end Shrink

section While

variable [Scalar F]

/-- Scroll from page to page, with any deletes between two of them; each page with the collection
    it was taken from. -/
inductive ScrolledWhile (K : Kit F P D Q C S) (names : List Bytes) (params : ScrollParams P) :
    Collection F P D Q C S → Bytes →
      List (Collection F P D Q C S × ScrollResult F P D) → Prop where
  | last {c offset r} (hpage : scroll K c names { params with Offset := offset } = .value r)
      (hend : r.nextOffset = []) : ScrolledWhile K names params c offset [(c, r)]
  | next {c c' offset r pages} (ids : List Bytes)
      (hpage : scroll K c names { params with Offset := offset } = .value r)
      (hmore : r.nextOffset ≠ []) (hdel : run (step K) c (ids.map .delete) = some c')
      (hrest : ScrolledWhile K names params c' r.nextOffset pages) :
      ScrolledWhile K names params c offset ((c, r) :: pages)

def Shows (K : Kit F P D Q C S) (filter : Option (Option P → Outcome Empty Bool))
    (c : Collection F P D Q C S) (id : Bytes) : Prop :=
  ∃ pt, pt.id = id ∧ Matching K c filter pt

def pageIds (r : ScrollResult F P D) : List Bytes := r.points.map ScoredPoint.id

/-- At every page but the first, the offset is still there, or nothing that was returned is. -/
def OffsetKept (K : Kit F P D Q C S) (filter : Option (Option P → Outcome Empty Bool)) :
    List Bytes → List (Collection F P D Q C S × ScrollResult F P D) → Prop
  | _, [] => True
  | _, [_] => True
  | seen, (_, r) :: (c', r') :: pages =>
    (Shows K filter c' r.nextOffset ∨ ∀ id ∈ seen ++ pageIds r, ¬ Shows K filter c' id) ∧
      OffsetKept K filter (seen ++ pageIds r) ((c', r') :: pages)

/-- No id comes twice, and none is left out that was there at every page. -/
structure ScrolledOnce (K : Kit F P D Q C S) (filter : Option (Option P → Outcome Empty Bool))
    (pages : List (Collection F P D Q C S × ScrollResult F P D)) : Prop where
  once : (pages.flatMap fun e => pageIds e.2).Nodup
  whole : ∀ id, (∀ e ∈ pages, Shows K filter e.1 id) → id ∈ pages.flatMap fun e => pageIds e.2

def listed (K : Kit F P D Q C S) (filter : Option (Option P → Outcome Empty Bool))
    (e : Collection F P D Q C S × ScrollResult F P D) : List Bytes × List Bytes :=
  (match e.1.index with
    | some h => matchingIds K h filter
    | none => [], pageIds e.2)

variable {K : Kit F P D Q C S} {c c' : Collection F P D Q C S} {h h' : Index F P Q C S}
  {filter : Option (Option P → Outcome Empty Bool)} {names : List Bytes} {params : ScrollParams P}

omit [Scalar F] in
theorem mem_matchingIds (hindex : c.index = some h) (hl : Listed h) {id : Bytes} :
    id ∈ matchingIds K h filter ↔ Shows K filter c id := by
  unfold matchingIds Shows
  rw [mem_map]
  refine exists_congr fun pt => ?_
  rw [mem_matching hindex hl, and_comm]

theorem browse_of_scrolled {offset : Bytes}
    {pages : List (Collection F P D Q C S × ScrollResult F P D)}
    (hpages : ScrolledWhile K names params c offset pages)
    (hsingle : c.config.hasNamedVectors = false) (hindex : c.index = some h) (hl : Listed h) :
    Cursor.Browse params.limit Cursor.Shrinks (matchingIds K h params.Filter) (cursorOf offset)
        (pages.map (listed K params.Filter)) ∧
      (∀ e ∈ pages, ∀ id, id ∈ (listed K params.Filter e).1 ↔ Shows K params.Filter e.1 id) ∧
      ∀ seen, OffsetKept K params.Filter seen pages ↔
        Cursor.Steady seen (pages.map (listed K params.Filter)) := by
  have hlist : ∀ {c : Collection F P D Q C S} {h : Index F P Q C S} (r : ScrollResult F P D),
      c.index = some h → listed K params.Filter (c, r) = (matchingIds K h params.Filter, pageIds r) := by
    intro c h r hindex
    unfold listed
    rw [hindex]
  induction hpages generalizing h with
  | @last c offset r hpage hend =>
    obtain ⟨-, rfl⟩ := scroll_value hsingle hindex hl hpage
    refine ⟨?_, fun e he id => ?_, fun seen => Iff.rfl⟩
    · have hnext := pageAt_next K hl params offset
      rw [cursorOf_eq_none.mpr hend] at hnext
      rw [map_singleton, hlist _ hindex, pageIds, pageAt_ids]
      exact .last hnext.symm
    · cases mem_singleton.mp he
      rw [hlist _ hindex]
      exact mem_matchingIds hindex hl
  | @next c c' offset r pages ids hpage hmore hdel hrest ih =>
    obtain ⟨-, rfl⟩ := scroll_value hsingle hindex hl hpage
    obtain ⟨hcfg, h', hindex', hl', hshrink⟩ := deletes_shrink params.Filter hdel hindex hl
    obtain ⟨hbrowse, hshows, hkept⟩ := ih (hcfg ▸ hsingle) hindex' hl'
    have hcursor : cursorOf (pageAt K h params offset).nextOffset =
        some (pageAt K h params offset).nextOffset := if_neg hmore
    have hnext := pageAt_next K hl params offset
    rw [hcursor] at hnext
    have hids : pageIds (pageAt K h params offset) = Cursor.page params.limit (cursorOf offset)
      (matchingIds K h params.Filter) := pageAt_ids K h params offset
    refine ⟨?_, forall_mem_cons.mpr ⟨fun id => ?_, hshows⟩, fun seen => ?_⟩
    · rw [map_cons, hlist _ hindex, hids]
      rw [hcursor] at hbrowse
      exact .more hnext.symm hshrink hbrowse
    · rw [hlist _ hindex]
      exact mem_matchingIds hindex hl
    · obtain ⟨r', pages', rfl⟩ : ∃ r' pages', pages = (c', r') :: pages' := by
        cases hrest with
        | last => exact ⟨_, _, rfl⟩
        | next => exact ⟨_, _, rfl⟩
      rw [map_cons, map_cons, hlist _ hindex, hlist _ hindex']
      refine and_congr (or_congr ?_ ?_) ?_
      · rw [hids, Cursor.last_of_next hnext.symm, ← mem_matchingIds hindex' hl']
        simp
      · exact forall₂_congr fun id _ => not_congr (mem_matchingIds hindex' hl').symm
      · rw [hkept, map_cons, hlist _ hindex']

/-- **With deletes between the pages** no point is returned twice and none that stays is left out, exactly if at
    every page the offset's point is still there or no point returned before is. -/
theorem scroll_deletions_iff {cfg : Config} {parts : Bytes → Parts Q S} {payloads : ℕ → Option P}
    {dispatcher : Dispatcher} {c₀ : Collection F P D Q C S}
    (hnew : new cfg parts payloads dispatcher = .ok c₀) (hsingle : cfg.hasNamedVectors = false)
    {xs : List (Call F P)} (hrun : run (step K) c₀ xs = some c)
    {pages : List (Collection F P D Q C S × ScrollResult F P D)}
    (hpages : ScrolledWhile K names params c [] pages) :
    ScrolledOnce K params.Filter pages ↔ OffsetKept K params.Filter [] pages := by
  obtain ⟨rfl, h, hindex, hl⟩ := listed_of_run hnew hsingle hrun
  obtain ⟨hbrowse, hshows, hkept⟩ := browse_of_scrolled hpages hsingle hindex hl
  have hshown : Cursor.shown (pages.map (listed K params.Filter)) =
      pages.flatMap fun e => pageIds e.2 := flatMap_map ..
  rw [hkept, ← hbrowse.once_iff (limit_pos params) (nodup_matching K params.Filter hl)]
  have hall : ∀ id, (∀ e ∈ pages.map (listed K params.Filter), id ∈ e.1) ↔
      ∀ e ∈ pages, Shows K params.Filter e.1 id := by
    intro id
    rw [forall_mem_map]
    exact forall₂_congr fun e he => hshows e he id
  obtain ⟨rs, hhead⟩ := hbrowse.head
  constructor
  · intro ⟨honce, hwhole⟩
    refine ⟨hshown ▸ honce, nofun, fun id _ hid => ?_⟩
    rw [hshown]
    exact hwhole id ((hall id).mp hid)
  · intro hlib
    refine ⟨hshown ▸ hlib.nodup, fun id hid => ?_⟩
    rw [← hall] at hid
    rw [← hshown]
    exact hlib.whole id (hid _ (hhead ▸ mem_cons_self)) hid

end While

def threePoints : List (Call ℕ ℕ) :=
  [.insert (linePoint 1 5 none none), .insert (linePoint 2 7 none none),
    .insert (linePoint 3 9 none none)]

def allPairs : ScrollParams ℕ := ⟨[], 2, none, false, false⟩

def pageWith (ids : List Bytes) (nextOffset : Bytes) : ScrollResult ℕ ℕ ℕ :=
  ⟨ids.map fun id => ⟨id, 0, [], none⟩, nextOffset⟩

def pagesAround (id : Bytes) (second : List Bytes) (c : Collection ℕ ℕ ℕ Unit Unit Unit) : Bool :=
  scroll lineKit c [] { allPairs with Offset := [] } = .value (pageWith [[1], [2]] [2]) &&
    (run (step lineKit) c [.delete id]).any fun c' =>
      scroll lineKit c' [] { allPairs with Offset := [2] } = .value (pageWith second [])

theorem scrolledWhile_around {id : Bytes} {second : List Bytes}
    {c : Collection ℕ ℕ ℕ Unit Unit Unit} (h : pagesAround id second c = true) :
    ∃ c', run (step lineKit) c [.delete id] = some c' ∧ ScrolledWhile lineKit [] allPairs c []
        [(c, pageWith [[1], [2]] [2]), (c', pageWith second [])] := by
  obtain ⟨hfirst, hrest⟩ := Bool.and_eq_true_iff.mp h
  obtain ⟨c', hdel, hsecond⟩ := (Option.any_eq_true ..).mp hrest
  refine ⟨c', hdel, .next [id] (of_decide_eq_true hfirst) (by decide) hdel ?_⟩
  exact .last (of_decide_eq_true hsecond) rfl

/-- **The point of the offset is deleted**: the next page begins with the first point again. -/
theorem scroll_repeats : ∃ c pages, run (step lineKit) lineCollection threePoints = some c ∧
    ScrolledWhile lineKit [] allPairs c [] pages ∧ ¬ ScrolledOnce lineKit allPairs.Filter pages := by
  have hview : (run (step lineKit) lineCollection threePoints).any
    (pagesAround [2] [[1], [3]]) = true := by decide +kernel
  obtain ⟨c, hrun, hview⟩ := (Option.any_eq_true ..).mp hview
  obtain ⟨c', -, hpages⟩ := scrolledWhile_around hview
  refine ⟨c, _, hrun, hpages, fun honce => ?_⟩
  have hnodup : ([[1], [2], [1], [3]] : List Bytes).Nodup := honce.once
  exact absurd hnodup (by decide)

/-- Another point is deleted: the offset is still there, and nothing is returned twice. -/
theorem scroll_deletions_line : ∃ c pages, run (step lineKit) lineCollection threePoints = some c ∧
    ScrolledWhile lineKit [] allPairs c [] pages ∧ ScrolledOnce lineKit allPairs.Filter pages := by
  have hview : (run (step lineKit) lineCollection threePoints).any (fun c =>
      pagesAround [1] [[3]] c && (run (step lineKit) c [.delete [1]]).any fun c' =>
        get lineKit c' [2] = .value ⟨[2], [7], none, [], none⟩) = true := by decide +kernel
  obtain ⟨c, hrun, hview⟩ := (Option.any_eq_true ..).mp hview
  obtain ⟨hview, hkept⟩ := Bool.and_eq_true_iff.mp hview
  obtain ⟨c', hdel, hpages⟩ := scrolledWhile_around hview
  rw [hdel] at hkept
  refine ⟨c, _, hrun, hpages, (scroll_deletions_iff lineCollection_new rfl hrun hpages).mpr ?_⟩
  exact ⟨.inl ⟨⟨[2], [7], none, [], none⟩, rfl, of_decide_eq_true hkept, rfl⟩, trivial⟩

end LimyeDB.Hybrid
