/-
  SEARCHES THROUGH THE CACHE, against the same collection with an empty one. Cached answers go by the name,
  the query and `k`; Upsert and InsertV2 do not clear them.
-/
import LimyeDB.Hybrid.Filtering

namespace LimyeDB.Hybrid

open Go Hnsw Lib.Runs Outcome Option
open LimyeDB.Graph (Index Tools Distance VisitedList)
open LimyeDB.Collection (Error BatchResult)

variable {F P D Q C S : Type} [Distance D]

/-! ## The answer of the index -/

/-- Two searches that ask for the same. An `Ef` of 0 stands for the default. -/
structure SameSearch (query query' : List F) (params params' : SearchParams F P) : Prop where
  query : query' = query
  K : params'.K = params.K
  ef : params'.ef = params.ef
  vector : params'.WithVector = params.WithVector
  payload : params'.WithPayload = params.WithPayload

section Uncached

variable {K : Kit F P D Q C S} {T : Tools F D Q C S} {h : Index F P Q C S}
  {sparseIdx sparseIdx' : InvertedIndex F} {query query' : List F} {params params' : SearchParams F P}

theorem useCache_iff : params.useCache = true ↔ params.Filter = none ∧ params.SparseQuery = none := by
  unfold SearchParams.useCache
  rw [Bool.and_eq_true, isNone_iff_eq_none, isNone_iff_eq_none]

theorem searchIndex_visited (v v' : VisitedList) :
    searchIndex K T h sparseIdx v query params = searchIndex K T h sparseIdx v' query params := by
  have hdense : denseCandidates T h v query params = denseCandidates T h v' query params := by
    unfold denseCandidates
    split
    · exact Graph.searchWithFilter_visited ..
    · exact Graph.searchWithEf_visited ..
  unfold searchIndex
  rw [hdense]

theorem pointsAt_congr (hvector : params'.WithVector = params.WithVector)
    (hpayload : params'.WithPayload = params.WithPayload) (name : Bytes → Point F P → Bytes)
    (docs : List (ℕ × D)) : pointsAt T h params' name docs = pointsAt T h params name docs := by
  induction docs with
  | nil => rfl
  | cons doc docs ih =>
    unfold pointsAt
    simp only [ih, ScoredPoint.of, hvector, hpayload]

theorem searchIndex_same (sparseIdx sparseIdx' : InvertedIndex F)
    (hsame : SameSearch query query' params params')
    (huse : params.useCache = true) (huse' : params'.useCache = true) (v : VisitedList) :
    searchIndex K T h sparseIdx' v query' params' = searchIndex K T h sparseIdx v query params := by
  obtain ⟨hfilter, hsparse⟩ := useCache_iff.mp huse
  obtain ⟨hfilter', hsparse'⟩ := useCache_iff.mp huse'
  unfold searchIndex denseCandidates densePoints fusePoints
  rw [hfilter, hfilter', hsparse, hsparse', hsame.query, hsame.K, hsame.ef]
  simp only [pointsAt_congr hsame.vector hsame.payload]

variable [Scalar F] {c c' : Collection F P D Q C S}

theorem searchUncached_visited (v v' : VisitedList) :
    searchUncached K c v query params = searchUncached K c v' query params := by
  unfold searchUncached
  split
  · rfl
  · split
    · rfl
    · rw [searchIndex_visited v v']

/-- **Without filter and sparse query the answer depends on configuration and index**, and on what
    is asked. -/
theorem searchUncached_same (hconfig : c'.config = c.config) (hindex : c'.index = c.index)
    (hsame : SameSearch query query' params params') (huse : params.useCache = true)
    (huse' : params'.useCache = true) (v : VisitedList) :
    searchUncached K c' v query' params' = searchUncached K c v query params := by
  unfold searchUncached
  rw [hconfig, hindex, hsame.query]
  simp only [← searchIndex_same c.sparseIdx c'.sparseIdx
    (⟨rfl, hsame.K, hsame.ef, hsame.vector, hsame.payload⟩ :
      SameSearch (asStored c.config.metric query) _ params params') huse huse' v]

end Uncached

/-! ## The searches since the cache was empty -/

section Asked

variable [Scalar F]

abbrev Ask (F P : Type) := List F × SearchParams F P

omit [Distance D] [Scalar F] in
/-- The searches with this call, if it is one that may be cached. -/
def noted (asked : List (Ask F P)) : Call F P → List (Ask F P)
  | .search _ _ _ query params => if params.useCache then asked ++ [(query, params)] else asked
  | _ => asked

/-- The collection, with the searches that may be cached since its cache was last empty. -/
def stepAsked (K : Kit F P D Q C S) (s : Collection F P D Q C S × List (Ask F P)) (x : Call F P) :
    Option (Collection F P D Q C S × List (Ask F P)) :=
  (step K s.1 x).map fun c => (c, if c.searchCache.order.isEmpty then [] else noted s.2 x)

/-- The search asks for the same as every earlier one with its key. -/
def LikeEarlier (K : Kit F P D Q C S) (s : Collection F P D Q C S × List (Ask F P)) (ask : Ask F P) :
    Prop :=
  ask.2.useCache = true → ∀ earlier ∈ s.2,
    K.searchKey s.1.config.name earlier.1 earlier.2.K = K.searchKey s.1.config.name ask.1 ask.2.K →
    SameSearch earlier.1 ask.1 earlier.2 ask.2

/-- The calls that leave the cached answers true: what does not clear the cache finds it empty, or leaves the
    index alone. -/
def Lasting (K : Kit F P D Q C S) (s : Collection F P D Q C S × List (Ask F P)) : Call F P → Prop
  | .insert _ => s.1.searchCache.order = [] ∨
      ∀ h, s.1.index = some h → h.nodes.length < maxNodes
  | .insertBatch _ => True
  | .insertV2 _ p => s.1.searchCache.order = [] ∨ s.1.config.hasNamedVectors = true ∨
      p.validateV2 ≠ .ok () ∨ ∀ vec, p.defaultVector = some vec →
        vec.length ≠ s.1.config.dimension ∨ presence s.1 p.id ≠ .absent
  | .upsert p => s.1.searchCache.order = [] ∨ p.validate ≠ .ok () ∨
      p.vector.length ≠ s.1.config.dimension ∨ presence s.1 p.id = .deleted
  | .delete _ => True
  | .search _ _ _ query params => LikeEarlier K s (query, params)
  | .setWAL _ => True
  | .setEfSearch _ => s.1.searchCache.order = []

section Decidable

variable [DecidableEq F]

omit [Distance D] [Scalar F] in
instance (query query' : List F) (params params' : SearchParams F P) :
    Decidable (SameSearch query query' params params') :=
  decidable_of_iff (query' = query ∧ params'.K = params.K ∧ params'.ef = params.ef ∧
      params'.WithVector = params.WithVector ∧ params'.WithPayload = params.WithPayload)
    ⟨fun ⟨h₁, h₂, h₃, h₄, h₅⟩ => ⟨h₁, h₂, h₃, h₄, h₅⟩,
      fun h => ⟨h.query, h.K, h.ef, h.vector, h.payload⟩⟩

instance (K : Kit F P D Q C S) (s : Collection F P D Q C S × List (Ask F P)) (ask : Ask F P) :
    Decidable (LikeEarlier K s ask) :=
  inferInstanceAs (Decidable (_ → ∀ earlier ∈ s.2, _ → _))

instance (K : Kit F P D Q C S) (s : Collection F P D Q C S × List (Ask F P)) (x : Call F P) :
    Decidable (Lasting K s x) :=
  match x with
  | .insert _ => inferInstanceAs (Decidable (_ ∨ ∀ h ∈ s.1.index, h.nodes.length < maxNodes))
  | .insertBatch _ => isTrue trivial
  | .insertV2 _ p => inferInstanceAs (Decidable (_ ∨ _ ∨ ¬ _ ∨ ∀ vec ∈ p.defaultVector,
      vec.length ≠ s.1.config.dimension ∨ presence s.1 p.id ≠ .absent))
  | .upsert p => inferInstanceAs (Decidable (_ ∨ ¬ p.validate = .ok () ∨ _ ∨ _))
  | .delete _ => isTrue trivial
  | .search _ _ _ query params => inferInstanceAs (Decidable (LikeEarlier K s (query, params)))
  | .setWAL _ => isTrue trivial
  | .setEfSearch _ => inferInstanceAs (Decidable (s.1.searchCache.order = []))

end Decidable

end Asked

/-! ## What failed calls leave alone -/

section Failed

variable [Scalar F] {K : Kit F P D Q C S} {c c' : Collection F P D Q C S} {h : Index F P Q C S}
  {p : Point F P}

omit [Distance D] [Scalar F] in
theorem known_of_presence (hindex : c.index = some h) {id : Bytes}
    (hpresence : presence c id ≠ .absent) : ∃ i node, h.idToIndex id = some i ∧
      h.nodes[i]? = some (some node) ∧ (presence c id = .deleted → node.deleted = true) := by
  rw [presence_eq hindex] at hpresence ⊢
  unfold presenceIn at hpresence ⊢
  split at hpresence
  · rename_i node hnode
    obtain ⟨i, hid, hnode'⟩ := bind_eq_some_iff.mp hnode
    refine ⟨i, node, hid, hnode', fun hdel => ?_⟩
    by_contra hlive
    rw [if_neg hlive] at hdel
    cases hdel
  · exact absurd rfl hpresence

omit [Scalar F] in
theorem insertInto_known {name : Bytes} {h' : Index F P Q C S} {e : Option IndexError} {i : ℕ}
    (hinto : insertInto K name h p = .value (h', e)) (hid : h.idToIndex p.id = some i) :
    h' = h := by
  cases Graph.insert_cases hinto with
  | mismatch => rfl
  | known => rfl
  | full _ hnew => cases hid.symm.trans hnew
  | fresh _ hnew => cases hid.symm.trans hnew

theorem insertDefault_config {e : Option (Error F)} (hdef : insertDefault K c p = .value (c', e)) :
    c'.config = c.config := by
  rcases insertDefault_cases hdef with ⟨rfl, -⟩ | ⟨h₀, h₁, ierr, -, -, -, -, rfl, -⟩
  · rfl
  · rfl

theorem insertInternal_failed {err : Error F} (hsingle : c.config.hasNamedVectors = false)
    (hindex : c.index = some h) (hroom : h.nodes.length < maxNodes)
    (hins : insertInternal K c p = .value (c', some err)) : c' = c := by
  rcases andThen_value hins with ⟨err', hdef, -⟩ | ⟨c₁, hdef, hthen⟩
  · rcases insertDefault_cases hdef with ⟨rfl, -⟩ | ⟨h₀, h₁, ierr, hindex₀, -, -, hinto, rfl, herr⟩
    · rfl
    · cases hindex.symm.trans hindex₀
      cases Graph.insert_cases hinto with
      | mismatch => rw [← hindex]
      | known => rw [← hindex]
      | full _ _ hfull => exact absurd hroom (Nat.not_lt.mpr hfull)
      | fresh => cases herr
  · -- in the single-vector layout there is nothing after the default vector that fails
    rcases andThen_value hthen with ⟨err', hnamed, -⟩ | ⟨c₂, -, hrest⟩
    · have hlayout : c₁.config.hasNamedVectors = false := by
        rw [insertDefault_config hdef, hsingle]
      rw [hlayout] at hnamed
      cases hnamed
    · cases (insertRest_cases hrest).1

theorem upsertInternal_deleted {e : Option (Error F)} (hdeleted : presence c p.id = .deleted)
    (hups : upsertInternal K c p = .value (c', e)) : c'.index = c.index := by
  obtain ⟨h₀, h₁, h₂, err, hindex, hdel, hinto, -, rfl⟩ := upsertInternal_cases hups
  obtain ⟨i, node, hid, hnode, hmark⟩ := known_of_presence hindex
    (show presence c p.id ≠ .absent by rw [hdeleted]; exact Presence.noConfusion)
  have hsame : h₁ = h₀ := by
    unfold deleteQuietly at hdel
    split at hdel
    · rename_i h₁' hdelete
      cases hdel
      obtain ⟨j, node', hj, hnode', ⟨-, rfl⟩ | ⟨hlive, -⟩⟩ := Graph.marked_of_delete hdelete
      · rfl
      · cases hid.symm.trans hj
        cases hnode.symm.trans hnode'
        rw [hmark hdeleted] at hlive
        cases hlive
    · cases hdel
      rfl
    · cases hdel
  subst hsame
  have hknown := insertInto_known hinto hid
  rw [hindex, hknown]

theorem insertLegacy_refused {p : PointV2 F P} {e : Option (VectorError F)}
    (hrefused : ∀ vec, p.defaultVector = some vec →
      vec.length ≠ c.config.dimension ∨ presence c p.id ≠ .absent)
    (hins : insertLegacy K c p = .value (c', e)) : c'.index = c.index := by
  rcases insertLegacy_cases hins with rfl | ⟨vec, h₀, h₁, err, payloads, hvec, hdim, hindex, hinto, rfl⟩
  · rfl
  · obtain ⟨i, -, hid, -⟩ :=
      known_of_presence hindex ((hrefused vec hvec).resolve_left (not_not.mpr hdim))
    rw [hindex, insertInto_known hinto hid]

end Failed

/-! ## The cached answers -/

section Answers

variable [Scalar F]

/-- The points are the answer of the index to a search with the key. -/
def Answers (K : Kit F P D Q C S) (c : Collection F P D Q C S) (asked : List (Ask F P)) (key : Bytes)
    (points : List (ScoredPoint F P D)) : Prop :=
  ∃ ask ∈ asked, ask.2.useCache = true ∧ key = K.searchKey c.config.name ask.1 ask.2.K ∧
    ∀ visited, searchUncached K c visited ask.1 ask.2 = .value points

/-- **What the cache says is what the index says.** There is no default index beside named ones. -/
structure Truthful (K : Kit F P D Q C S) (s : Collection F P D Q C S × List (Ask F P)) : Prop where
  entries : s.1.searchCache.Holds (Answers K s.1 s.2)
  layout : s.1.config.hasNamedVectors = true → s.1.index = none

variable {K : Kit F P D Q C S} {c c' : Collection F P D Q C S} {asked asked' : List (Ask F P)}
  {p : Point F P}

theorem Answers.mono {key : Bytes} {points : List (ScoredPoint F P D)}
    (ha : Answers K c asked key points) (hconfig : c'.config = c.config)
    (hindex : c'.index = c.index) (hsub : asked ⊆ asked') : Answers K c' asked' key points := by
  obtain ⟨ask, hask, huse, hkey, hpoints⟩ := ha
  refine ⟨ask, hsub hask, huse, by rw [hconfig]; exact hkey, fun visited => ?_⟩
  rw [searchUncached_same hconfig hindex ⟨rfl, rfl, rfl, rfl, rfl⟩ huse huse]
  exact hpoints visited

omit [Distance D] [Scalar F] in
theorem noted_subset (asked : List (Ask F P)) (x : Call F P) : asked ⊆ noted asked x := by
  cases x with
  | search now later visited query params =>
    simp only [noted]
    split
    · exact List.subset_append_left ..
    · exact List.Subset.refl _
  | _ => exact List.Subset.refl _

section

variable (ht : Truthful K (c, asked))
include ht

theorem Truthful.stays (x : Call F P) (hconfig : c'.config = c.config)
    (hindex : c'.index = c.index) (hcache : c'.searchCache = c.searchCache) :
    c'.searchCache.Holds (Answers K c' (noted asked x)) := by
  rw [hcache]
  exact ht.entries.imp fun key points ha => ha.mono hconfig hindex (noted_subset asked x)

variable {e : Option (Error F)}

omit ht in
theorem insertInternal_cache (hins : insertInternal K c p = .value (c', e)) :
    c'.searchCache = c.searchCache := by
  refine insertInternal_keeps (I := fun s => s.searchCache = c.searchCache) (fun c₁ _ hdef => ?_)
    (fun c₁ c₂ _ hI hn => ?_) (fun c₁ c₂ _ hI hrest => ?_) (fun _ hI => hI) hins
  · rcases insertDefault_cases hdef with ⟨rfl, -⟩ | ⟨h₀, h₁, ierr, -, -, -, -, rfl, -⟩
    · rfl
    · rfl
  · rw [insertNamed_frame hn]
    exact hI
  · obtain ⟨-, h₀, -, sparseIdx, -, rfl⟩ := insertRest_cases hrest
    exact hI

theorem Truthful.insertInternal {err : Error F} {x : Call F P}
    (hid : p.id ≠ []) (hlasting : c.searchCache.order = [] ∨
      ∀ h, c.index = some h → h.nodes.length < maxNodes)
    (hins : insertInternal K c p = .value (c', some err)) :
    c'.searchCache.Holds (Answers K c' (noted asked x)) := by
  have hcache := insertInternal_cache hins
  have hev := insertInternal_evolves hid hins
  rcases hlasting with hempty | hroom
  · exact Cache.holds_of_empty _ (hcache ▸ hempty)
  · cases hindex : c.index with
    | none => exact ht.stays x hev.config ((hev.none hindex).trans hindex.symm) hcache
    | some h =>
      have hsingle : c.config.hasNamedVectors = false := by
        by_contra hnamed
        cases (ht.layout (Bool.not_eq_false _ ▸ hnamed)).symm.trans hindex
      rw [insertInternal_failed hsingle hindex (hroom h hindex) hins]
      exact ht.stays x rfl rfl rfl

theorem Truthful.insert
    (hlasting : Lasting K (c, asked) (.insert p)) (hins : insert K c p = .value (c', e)) :
    c'.searchCache.Holds (Answers K c' (noted asked (.insert p))) := by
  rcases insert_cases hins with ⟨w, err, rfl, -⟩ | ⟨hval, w, c₁, hint, rfl⟩
  · exact ht.stays _ rfl rfl rfl
  · cases e with
    | none => exact Cache.holds_clear _ _
    | some err =>
      rw [if_neg (some_ne_none err)]
      have hw : Truthful K ({ c with wal := w }, asked) := by
        refine ⟨?_, ht.layout⟩
        exact ht.stays (.delete []) rfl rfl rfl
      exact hw.insertInternal (id_ne_nil_of_validate hval) hlasting hint

theorem Truthful.upsert
    (hlasting : Lasting K (c, asked) (.upsert p)) (hups : upsert K c p = .value (c', e)) :
    c'.searchCache.Holds (Answers K c' (noted asked (.upsert p))) := by
  rcases upsert_cases hups with ⟨w, err, rfl, -⟩ | ⟨hval, hdim, w, hint⟩
  · exact ht.stays _ rfl rfl rfl
  · have hframe : c'.searchCache = c.searchCache ∧ c'.config = c.config := by
      obtain ⟨h₀, h₁, h₂, err, -, -, -, -, rfl⟩ := upsertInternal_cases hint
      exact ⟨rfl, rfl⟩
    rcases hlasting with hempty | hinvalid | hlength | hdeleted
    · exact Cache.holds_of_empty _ (hframe.1 ▸ hempty)
    · exact absurd hval hinvalid
    · exact absurd hdim hlength
    · exact ht.stays _ hframe.2 (upsertInternal_deleted (c := { c with wal := w }) hdeleted hint)
        hframe.1

theorem Truthful.insertV2 {names : List Bytes} {p : PointV2 F P}
    {e : Option (VectorError F)} (hlasting : Lasting K (c, asked) (.insertV2 names p))
    (hins : insertV2 K c names p = .value (c', e)) :
    c'.searchCache.Holds (Answers K c' (noted asked (.insertV2 names p))) := by
  have hframe := insertV2_frame hins
  have hcache : c'.searchCache = c.searchCache := by rw [hframe]
  have hconfig : c'.config = c.config := by rw [hframe]
  have hnamed : c.config.hasNamedVectors = true → c'.index = c.index := by
    intro hnamed
    have hnone := ht.layout hnamed
    exact ((insertV2_evolves hins).none hnone).trans hnone.symm
  rcases hlasting with hempty | hlayout | hrest
  · exact Cache.holds_of_empty _ (hcache ▸ hempty)
  · exact ht.stays _ hconfig (hnamed hlayout) hcache
  · refine ht.stays _ hconfig ?_ hcache
    by_cases hlayout : c.config.hasNamedVectors = true
    · exact hnamed hlayout
    · unfold Hybrid.insertV2 at hins
      split at hins
      · cases hins
        rfl
      · rename_i hval
        rw [if_neg hlayout] at hins
        exact insertLegacy_refused (hrest.resolve_left fun hne => hne hval) hins

theorem Truthful.search {now later : ℕ} {visited : VisitedList}
    {query : List F} {params : SearchParams F P} {r : Except SearchError (List (ScoredPoint F P D))}
    (hsearch : searchWithParams K c now later visited query params = .value (c', r)) :
    c'.searchCache.Holds (Answers K c' (noted asked (.search now later visited query params))) := by
  have hkept : ∀ cache, c.searchCache.Holds (Answers K c asked) →
      Cache.Holds (Answers K { c with searchCache := cache }
        (noted asked (.search now later visited query params))) c.searchCache := by
    intro cache hentries
    exact hentries.imp fun key points ha => ha.mono rfl rfl (noted_subset _ _)
  rcases searchWithParams_cases K c now later visited query params with
    ⟨huse, points, hhit, heq⟩ | ⟨hmiss, heq⟩
  · rw [heq] at hsearch
    cases hsearch
    exact (hkept _ ht.entries).get now _
  · rw [heq] at hsearch
    cases hun : searchUncached K c visited query params with
    | panic =>
      rw [hun] at hsearch
      cases hsearch
    | error e =>
      rw [hun] at hsearch
      cases hsearch
      split
      · exact (hkept _ ht.entries).get now _
      · exact hkept _ ht.entries
    | value points =>
      rw [hun] at hsearch
      cases hsearch
      split
      · rename_i huse
        refine ((hkept _ ht.entries).get now _).set later ⟨(query, params), ?_, huse, rfl, ?_⟩
        · simp only [noted, huse, if_true]
          exact List.mem_append_right _ List.mem_cons_self
        · intro v
          rw [← hun, searchUncached_visited visited v]
          exact searchUncached_same rfl rfl ⟨rfl, rfl, rfl, rfl, rfl⟩ huse huse v
      · exact hkept _ ht.entries

theorem Truthful.call {x : Call F P} {reply : Reply F P D}
    (hlasting : Lasting K (c, asked) x) (hcall : call K c x = .value (c', reply)) :
    c'.searchCache.Holds (Answers K c' (noted asked x)) := by
  cases called hcall with
  | insert hins =>
    exact ht.insert hlasting hins
  | insertBatch hins =>
    rcases insertBatch_cases hins with ⟨⟨w, rfl⟩, -⟩ | ⟨w, c₂, r₀, -, rfl, -⟩
    · exact ht.stays _ rfl rfl rfl
    · exact Cache.holds_clear _ _
  | insertV2 hins =>
    exact ht.insertV2 hlasting hins
  | upsert hups =>
    exact ht.upsert hlasting hups
  | delete hdel =>
    rcases delete_cases hdel with ⟨w, err, rfl, -⟩ | ⟨w, c₂, hint, rfl⟩
    · exact ht.stays _ rfl rfl rfl
    · obtain ⟨h₀, -, ⟨err, -, rfl, rfl⟩ | ⟨h₁, -, rfl, rfl⟩⟩ := deleteInternal_cases hint
      · exact ht.stays _ rfl rfl rfl
      · exact Cache.holds_clear _ _
  | search hsearch =>
    exact ht.search hsearch
  | setWAL => exact ht.stays _ rfl rfl rfl
  | setEfSearch => exact Cache.holds_of_empty _ hlasting

end

theorem Truthful.step {s s' : Collection F P D Q C S × List (Ask F P)} {x : Call F P}
    (ht : Truthful K s) (hlasting : Lasting K s x) (hstep : stepAsked K s x = some s') :
    Truthful K s' := by
  obtain ⟨c', hone, rfl⟩ := map_eq_some_iff.mp hstep
  obtain ⟨reply, hcall⟩ := call_of_step hone
  have hev := call_evolves hcall
  refine ⟨?_, fun hnamed => hev.none (ht.layout (hev.config ▸ hnamed))⟩
  simp only
  split
  · rename_i hempty
    exact Cache.holds_of_empty _ (List.isEmpty_iff.mp hempty)
  · exact ht.call hlasting hcall

end Answers

/-! ## With and without the cache -/

section Transparent

variable [Scalar F] {K : Kit F P D Q C S} {cfg : Config} {parts : Bytes → Parts Q S}
  {payloads : ℕ → Option P} {dispatcher : Dispatcher} {c₀ c : Collection F P D Q C S}
  {asked : List (Ask F P)}

omit [Distance D] [Scalar F] in
def replyOf (x : Outcome Empty (Collection F P D Q C S ×
    Except SearchError (List (ScoredPoint F P D)))) :
    Outcome Empty (Except SearchError (List (ScoredPoint F P D))) := do
  let (_, r) ← x
  return r

theorem replyOf_miss (K : Kit F P D Q C S) (c : Collection F P D Q C S) (now later : ℕ)
    (visited : VisitedList) (query : List F) (params : SearchParams F P)
    (hmiss : params.useCache = true →
      (c.searchCache.get now (K.searchKey c.config.name query params.K)).2 = none) :
    replyOf (searchWithParams K c now later visited query params) =
      match searchUncached K c visited query params with
      | .panic => .panic
      | .error e => .value (.error e)
      | .value points => .value (.ok points) := by
  rcases searchWithParams_cases K c now later visited query params with
    ⟨huse, points, hhit, -⟩ | ⟨-, heq⟩
  · cases (hmiss huse).symm.trans hhit
  · rw [heq]
    cases searchUncached K c visited query params with
    | panic => rfl
    | error e => rfl
    | value points => rfl

theorem Truthful.reply (ht : Truthful K (c, asked)) {query : List F} {params : SearchParams F P}
    (hlike : LikeEarlier K (c, asked) (query, params)) (now later : ℕ) (visited : VisitedList) :
    replyOf (searchWithParams K c now later visited query params) =
      match searchUncached K c visited query params with
      | .panic => .panic
      | .error e => .value (.error e)
      | .value points => .value (.ok points) := by
  rcases searchWithParams_cases K c now later visited query params with
    ⟨huse, points, hhit, heq⟩ | ⟨hmiss, -⟩
  · obtain ⟨earlier, hmem, huse', hkey, hpoints⟩ := ht.entries.hit hhit
    rw [heq, searchUncached_same rfl rfl (hlike huse earlier hmem hkey.symm) huse' huse,
      hpoints visited]
    rfl
  · exact replyOf_miss K c now later visited query params hmiss

/-- **With the cache as without it**: after every history of calls that leave the cached answers true, a search
    that asks for the same as the earlier ones with its key returns what it does with an empty cache. -/
theorem cached_as_uncached (hnew : new cfg parts payloads dispatcher = .ok c₀)
    {xs : List (Call F P)} (hlasting : Along (stepAsked K) (Lasting K) (c₀, []) xs)
    (hrun : run (stepAsked K) (c₀, []) xs = some (c, asked)) {query : List F}
    {params : SearchParams F P} (hlike : LikeEarlier K (c, asked) (query, params))
    {cache : Cache (List (ScoredPoint F P D))} (hempty : cache.order = []) (now later now' later' : ℕ)
    (visited visited' : VisitedList) :
    replyOf (searchWithParams K c now later visited query params) =
      replyOf (searchWithParams K { c with searchCache := cache } now' later' visited' query
        params) := by
  have hstart : Truthful K (c₀, ([] : List (Ask F P))) := by
    refine ⟨?_, fun hnamed => ?_⟩
    · rw [new_eq hnew]
      exact Cache.holds_of_empty _ rfl
    · rw [new_config hnew] at hnamed
      obtain ⟨-, indices, -, rfl⟩ := new_named hnew hnamed
      rfl
  have ht := run_along (fun s x s' hs hx hstep => hs.step hx hstep) hstart hlasting hrun
  have hnone : (cache.get now' (K.searchKey c.config.name query params.K)).2 = none := by
    simp [Cache.get, Cache.find, hempty]
  rw [ht.reply hlike, replyOf_miss K { c with searchCache := cache } now' later' visited' query params
    fun _ => hnone]
  rw [searchUncached_visited visited visited']
  rfl

end Transparent

/-! ## Points on a line -/

def askTwo (withPayload : Bool) : SearchParams ℕ ℕ := ⟨2, 0, none, false, withPayload, none⟩

def searchTwo (withPayload : Bool) : Call ℕ ℕ := .search 0 0 (.new 8) [6] (askTwo withPayload)

def foundTwo (withPayload : Bool) (c : Collection ℕ ℕ ℕ Unit Unit Unit) :
    Option (List (ScoredPoint ℕ ℕ ℕ)) :=
  match replyOf (searchWithParams lineKit c 0 0 (.new 8) [6] (askTwo withPayload)) with
  | .value (.ok points) => some points
  | _ => none

def foundBoth (withPayload : Bool) (c : Collection ℕ ℕ ℕ Unit Unit Unit) :
    Option (List (ScoredPoint ℕ ℕ ℕ)) × Option (List (ScoredPoint ℕ ℕ ℕ)) :=
  (foundTwo withPayload c, foundTwo withPayload { c with searchCache := Cache.new 10000 300 })

/-- **Old answers**: a point that was upserted after the search is not found, and a search with payloads gets
    the answer to one without them. -/
theorem cached_stale :
    (∃ c, run (step lineKit) lineCollection [.insert (linePoint 1 5 none none), searchTwo false,
        .upsert (linePoint 2 9 none none)] = some c ∧
      foundBoth false c = (some [⟨[1], 99, [], none⟩],
        some [⟨[1], 99, [], none⟩, ⟨[2], 97, [], none⟩])) ∧
    ∃ c, run (step lineKit) lineCollection [.insert (linePoint 1 5 (some 3) none), searchTwo false] =
        some c ∧
      foundBoth true c = (some [⟨[1], 99, [], none⟩], some [⟨[1], 99, [], some 3⟩]) := by
  refine ⟨?_, ?_⟩
  · refine map_eq_some_iff.mp ?_
    decide +kernel
  · refine map_eq_some_iff.mp ?_
    decide +kernel

/-- A search, an upsert that fails at its checks, an insert, and the search once more. -/
def lastingHistory : List (Call ℕ ℕ) :=
  [.insert (linePoint 1 5 none none), searchTwo false, .upsert ⟨[2], [7, 7], none, [], none⟩,
    .insert (linePoint 2 9 none none), searchTwo false]

theorem cached_as_uncached_line : ∃ c asked,
    run (stepAsked lineKit) (lineCollection, []) lastingHistory = some (c, asked) ∧
      asked.length = 1 ∧ (foundBoth false c).1 = (foundBoth false c).2 := by
  have hview : (run (stepAsked lineKit) (lineCollection, []) lastingHistory).any (fun s =>
      decide (s.2.length = 1 ∧ LikeEarlier lineKit s ([6], askTwo false))) = true := by
    decide +kernel
  obtain ⟨⟨c, asked⟩, hrun, hview⟩ := (any_eq_true ..).mp hview
  obtain ⟨hlength, hlike⟩ := of_decide_eq_true hview
  refine ⟨c, asked, hrun, hlength, ?_⟩
  unfold foundBoth foundTwo
  rw [cached_as_uncached lineCollection_new (by decide +kernel) hrun hlike
    (show (Cache.new 10000 300 : Cache (List (ScoredPoint ℕ ℕ ℕ))).order = [] from rfl) 0 0 0 0 _
    (.new 8)]

end LimyeDB.Hybrid
