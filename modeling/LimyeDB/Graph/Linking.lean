/-
  WHAT INSERT DOES TO THE LINKS, layer by layer, in memory and on disk.
-/
import LimyeDB.Graph.Layer
import LimyeDB.Graph.Links
import LimyeDB.Graph.Selection

namespace LimyeDB.Graph

open Go Hnsw GraphMmap List Outcome

variable {F P D Q C S : Type} [Distance D]

/-! ## Links while an insert is going on -/

/-- What an insert of node `n` may make of a list of another node. -/
def Relinked (n cap : ℕ) (old new : List ℕ) : Prop :=
  new = old ∨ new.length ≤ cap ∧ (∀ j ∈ new, j ∈ old ∨ j = n) ∧ (old.Nodup → new.Nodup)

/-- Node `n` is new, and `N k` are nodes that the links of layer `k` do not lead out of. -/
structure Ground (h₁ : Index F P Q C S) (n level top : ℕ) (N : ℕ → Finset ℕ) : Prop where
  node : ∀ i ≤ n, Exists h₁ i
  levelled : levelAt h₁ n = some level
  upto : top ≤ level + 1
  holds : ∀ k < top, h₁.graph.links.Holds k
  Mmax : h₁.Mmax = h₁.M
  Mmax0 : h₁.graph.Mmax0 = 2 * h₁.M
  old : ∀ k, ∀ i ∈ N k, i < n
  closed : ∀ k < top, ∀ i ∈ N k, ∀ j ∈ conn h₁ k i, j ∈ N k
  mono : ∀ k, N (k + 1) ⊆ N k

/-- **Layers from `l` to below `top` are done**, the others are as they were in `h₁`. -/
structure Linking (h₁ h : Index F P Q C S) (n l top : ℕ) (N : ℕ → Finset ℕ) : Prop where
  same : ∃ links, h = Index.withLinks h₁ links
  holds : ∀ k, h.graph.links.Holds k ↔ h₁.graph.links.Holds k
  stored : Stored h fun i k => i < n ∨ i = n ∧ l ≤ k
  away : ∀ i < n, ∀ k, k < l ∨ top ≤ k → conn h k i = conn h₁ k i
  above : ∀ k, top ≤ k → conn h k n = conn h₁ k n
  own : ∀ k, l ≤ k → k < top → (conn h k n).Nodup ∧ (∀ j ∈ conn h k n, j ∈ N k) ∧
    (conn h k n).length ≤ room h₁.M k
  others : ∀ k, l ≤ k → k < top → ∀ i < n, Relinked n (room h₁.M k) (conn h₁ k i) (conn h k i)

section Relinked

variable {n cap : ℕ} {old new new' : List ℕ}

variable (hr : Relinked n cap old new)
include hr

theorem Relinked.mem {j : ℕ} (hj : j ∈ new) : j ∈ old ∨ j = n := by
  rcases hr with rfl | ⟨-, hsub, -⟩
  · exact .inl hj
  · exact hsub j hj

theorem Relinked.nodup (hold : old.Nodup) : new.Nodup := by
  rcases hr with rfl | ⟨-, -, hnodup⟩
  · exact hold
  · exact hnodup hold

theorem Relinked.length (hold : old.length ≤ cap) : new.length ≤ cap := by
  rcases hr with rfl | ⟨hlen, -⟩
  · exact hold
  · exact hlen

theorem Relinked.then (hlen : new'.length ≤ cap)
    (hsub : ∀ j ∈ new', j ∈ new ∨ j = n) (hnodup : new.Nodup → new'.Nodup) :
    Relinked n cap old new' := by
  refine .inr ⟨hlen, fun j hj => ?_, fun hold => hnodup (hr.nodup hold)⟩
  rcases hsub j hj with hj | rfl
  · exact hr.mem hj
  · exact .inr rfl

end Relinked

variable {i : ℕ}

section Linking

variable {h₁ h : Index F P Q C S} {n level l top : ℕ} {N : ℕ → Finset ℕ}

section

variable (hk : Linking h₁ h n l top N)
include hk

theorem Linking.levelAt (i : ℕ) : levelAt h i = levelAt h₁ i := by
  obtain ⟨links, rfl⟩ := hk.same
  rfl

theorem Linking.exists_iff (i : ℕ) : Exists h i ↔ Exists h₁ i := by
  obtain ⟨links, rfl⟩ := hk.same
  rfl

theorem Linking.M : h.M = h₁.M := by
  obtain ⟨links, rfl⟩ := hk.same
  rfl

end

theorem level_of_exists (hi : Exists h i) : ∃ level, Graph.levelAt h i = some level := by
  obtain ⟨node, hnode⟩ := hi
  exact ⟨node.level, levelAt_eq hnode⟩

theorem linking_start (hstored : Stored h₁ fun i k => i < n ∨ i = n ∧ top ≤ k) :
    Linking h₁ h₁ n top top N where
  same := ⟨h₁.graph.links, rfl⟩
  holds _ := Iff.rfl
  stored := hstored
  away _ _ _ _ := rfl
  above _ _ := rfl
  own _ hl ht := absurd ht (Nat.not_lt.mpr hl)
  others _ hl ht := absurd ht (Nat.not_lt.mpr hl)

variable (hG : Ground h₁ n level top N)
include hG

theorem Linking.get (hk : Linking h₁ h n l top N)
    (hi : i < n) (k : ℕ) : getConnections h i k = .value (conn h k i) := by
  obtain ⟨leveli, hleveli⟩ := level_of_exists ((hk.exists_iff i).mpr (hG.node i hi.le))
  exact hk.stored.get hleveli (.inl hi)

variable (hl : l < top)
include hl

theorem Linking.setOwn (hk : Linking h₁ h n (l + 1) top N) {ids : List ℕ} (hnodup : ids.Nodup) (hsub : ∀ j ∈ ids, j ∈ N l)
    (hlen : ids.length ≤ room h₁.M l) :
    ∃ h', setConnections h n l ids = .value h' ∧ Linking h₁ h' n l top N := by
  have hlevel : Graph.levelAt h n = some level := (hk.levelAt n).trans hG.levelled
  have hnode : ∀ i ≤ n, ∃ level, Graph.levelAt h i = some level := fun i hi =>
    level_of_exists ((hk.exists_iff i).mpr (hG.node i hi))
  obtain ⟨links, hset, hholds, hrep⟩ := hk.stored.set hlevel ((hk.holds l).mpr (hG.holds l hl))
    (hk.M.symm ▸ hlen)
  have hself : conn (Index.withLinks h links) l n = ids := by
    have htop := hG.upto
    rw [hrep.self, if_pos (by omega)]
  have hother : ∀ i ≤ n, ∀ k, i < n ∨ l + 1 ≤ k →
      conn (Index.withLinks h links) k i = conn h k i := by
    intro i hi k hused
    obtain ⟨leveli, hleveli⟩ := hnode i hi
    exact hrep.others i k leveli hleveli (by omega) (by omega)
  refine ⟨_, hset, ⟨?_, fun k => (hholds k).trans (hk.holds k), ?_, ?_, ?_, ?_, ?_⟩⟩
  · obtain ⟨links₀, rfl⟩ := hk.same
    exact ⟨links, rfl⟩
  · exact hrep.stored.mono fun i k _ _ hused => by omega
  · intro i hi k haway
    rw [hother i hi.le k (.inl hi)]
    exact hk.away i hi k (by omega)
  · intro k hle
    rw [hother n le_rfl k (.inr (by omega))]
    exact hk.above k hle
  · intro k hle hlt
    rcases Nat.eq_or_lt_of_le hle with rfl | hgt
    · rw [hself]
      exact ⟨hnodup, hsub, hlen⟩
    · rw [hother n le_rfl k (.inr hgt)]
      exact hk.own k hgt hlt
  · intro k hle hlt i hi
    rw [hother i hi.le k (.inl hi)]
    rcases Nat.eq_or_lt_of_le hle with rfl | hgt
    · exact .inl (hk.away i hi l (.inl (Nat.lt_succ_self l)))
    · exact hk.others k hgt hlt i hi

theorem Linking.relink (hk : Linking h₁ h n l top N) (hi : i < n) {ids : List ℕ} (hlen : ids.length ≤ room h₁.M l)
    (hsub : ∀ j ∈ ids, j ∈ conn h l i ∨ j = n) (hnodup : (conn h l i).Nodup → ids.Nodup) :
    ∃ h', setConnections h i l ids = .value h' ∧ Linking h₁ h' n l top N := by
  have hnode : ∀ i ≤ n, ∃ level, Graph.levelAt h i = some level := fun i hi =>
    level_of_exists ((hk.exists_iff i).mpr (hG.node i hi))
  obtain ⟨leveli, hleveli⟩ := hnode i hi.le
  obtain ⟨links, hset, hholds, hrep⟩ := hk.stored.set hleveli ((hk.holds l).mpr (hG.holds l hl))
    (hk.M.symm ▸ hlen)
  have hother : ∀ j ≤ n, ∀ k, j < n ∨ l ≤ k → ¬ (j = i ∧ k = l) →
      conn (Index.withLinks h links) k j = conn h k j := by
    intro j hj k hused hne
    obtain ⟨levelj, hlevelj⟩ := hnode j hj
    exact hrep.others j k levelj hlevelj (by omega) hne
  refine ⟨_, hset, ⟨?_, fun k => (hholds k).trans (hk.holds k), ?_, ?_, ?_, ?_, ?_⟩⟩
  · obtain ⟨links₀, rfl⟩ := hk.same
    exact ⟨links, rfl⟩
  · exact hrep.stored.mono fun j k _ _ hused => .inl hused
  · intro j hj k haway
    rw [hother j hj.le k (.inl hj) (by omega)]
    exact hk.away j hj k haway
  · intro k hle
    rw [hother n le_rfl k (.inr (by omega)) (by omega)]
    exact hk.above k hle
  · intro k hle hlt
    rw [hother n le_rfl k (.inr hle) (by omega)]
    exact hk.own k hle hlt
  · intro k hle hlt j hj
    by_cases hself : j = i ∧ k = l
    · obtain ⟨rfl, rfl⟩ := hself
      have hold := hk.others k le_rfl hlt j hj
      rw [hrep.self]
      split
      · exact hold.then hlen hsub hnodup
      · exact hold.then (Nat.zero_le _) (by simp) fun _ => nodup_nil
    · rw [hother j hj.le k (.inl hj) hself]
      exact hk.others k hle hlt j hj

theorem addConnection_spec (T : Tools F D Q C S)
    (hk : Linking h₁ h n l top N) (hi : i ∈ N l) :
    ∃ h', addConnection T h i n l (room h₁.M l) = .value h' ∧ Linking h₁ h' n l top N := by
  have hin := hG.old l i hi
  unfold addConnection
  simp only [hk.get hG hin, value_bind]
  by_cases hthere : n ∈ conn h l i
  · rw [if_pos hthere]
    exact ⟨h, rfl, hk⟩
  · rw [if_neg hthere]
    have hnodup : (conn h l i).Nodup → (conn h l i ++ [n]).Nodup := fun hold =>
      nodup_append.mpr ⟨hold, nodup_singleton n, fun a ha b hb => by
        rw [mem_singleton.mp hb]
        exact fun heq => hthere (heq ▸ ha)⟩
    by_cases hroom : (conn h l i).length < room h₁.M l
    · rw [if_pos hroom]
      refine hk.relink hG hl hin ?_ (fun j hj => ?_) hnodup
      · rw [length_append, length_singleton]
        exact hroom
      · simpa using hj
    · rw [if_neg hroom]
      -- the links of `i` lead to nodes, so the code can read their vectors
      have hexists : ∀ j ∈ conn h l i ++ [n], Exists h j := by
        intro j hj
        rw [hk.exists_iff]
        rcases mem_append.mp hj with hj | hj
        · rcases (hk.others l le_rfl hl i hin).mem hj with hj | rfl
          · exact hG.node j (hG.old l j (hG.closed l hl i hi j hj)).le
          · exact hG.node j le_rfl
        · rw [mem_singleton.mp hj]
          exact hG.node n le_rfl
      have hfrom := vectorAt_eq T ((hk.exists_iff i).mpr (hG.node i hin.le))
      have hcands : (conn h l i ++ [n]).mapM (fun connID => do
          let v ← vectorAt T h connID
          return (⟨connID, T.distance (vectorOf T h i) v⟩ : Candidate D)) =
          .value ((conn h l i ++ [n]).map fun j => ⟨j, T.distance (vectorOf T h i) (vectorOf T h j)⟩) :=
        mapM_value fun j hj => by rw [vectorAt_eq T (hexists j hj)]; rfl
      have hids : ((conn h l i ++ [n]).map fun j =>
          (⟨j, T.distance (vectorOf T h i) (vectorOf T h j)⟩ : Candidate D)).map Candidate.id =
          conn h l i ++ [n] := by
        rw [map_map]
        exact map_id _
      obtain ⟨sel, rest, hsel, hperm, hlen⟩ := selectNeighborsHeuristic_spec T
        ((conn h l i ++ [n]).map fun j => ⟨j, T.distance (vectorOf T h i) (vectorOf T h j)⟩)
        (room h₁.M l) fun c hc => by
          obtain ⟨j, hj, rfl⟩ := mem_map.mp hc
          exact hexists j hj
      have hperm' := hperm.map Candidate.id
      rw [hids, map_append] at hperm'
      simp only [hfrom, value_bind, hcands, hsel]
      refine hk.relink hG hl hin ?_ (fun j hj => ?_) fun hold => ?_
      · rw [length_map, hlen]
        exact min_le_left ..
      · have hmem := hperm'.mem_iff.mp (mem_append_left _ hj)
        simpa using hmem
      · exact (nodup_append.mp (hperm'.nodup_iff.mpr (hnodup hold))).1

theorem addConnections_spec (T : Tools F D Q C S)
    (hk : Linking h₁ h n l top N) (selected : List (Candidate D))
    (hsel : ∀ c ∈ selected, c.id ∈ N l) :
    ∃ h', addConnections T n l (room h₁.M l) h selected = .value h' ∧
      Linking h₁ h' n l top N := by
  induction selected generalizing h with
  | nil => exact ⟨h, rfl, hk⟩
  | cons c selected ih =>
    obtain ⟨h', hadd, hk'⟩ := addConnection_spec hG hl T hk (hsel c mem_cons_self)
    obtain ⟨h'', hrest, hk''⟩ := ih hk' fun c' hc' => hsel c' (mem_cons_of_mem c hc')
    unfold addConnections
    simp only [hadd, value_bind]
    exact ⟨h'', hrest, hk''⟩

theorem selectNeighbors_spec (T : Tools F D Q C S)
    (hk : Linking h₁ h n (l + 1) top N) (candidates : List (Candidate D))
    (hcand : ∀ c ∈ candidates, c.id ∈ N l) (honce : (candidates.map Candidate.id).Nodup) :
    ∃ h', selectNeighbors T h n candidates l = .value h' ∧ Linking h₁ h' n l top N := by
  have hexists : ∀ i ≤ n, Exists h i := fun i hi => (hk.exists_iff i).mpr (hG.node i hi)
  have hown : (if l = 0 then h.graph.Mmax0 else h.M) = room h₁.M l := by
    obtain ⟨links, rfl⟩ := hk.same
    exact congrArg (fun x => if l = 0 then x else h₁.M) hG.Mmax0
  have hneighbor : (if l = 0 then h.graph.Mmax0 else h.Mmax) = room h₁.M l := by
    rw [← hown]
    obtain ⟨links, rfl⟩ := hk.same
    exact congrArg (fun x => if l = 0 then _ else x) hG.Mmax
  have hv := vectorAt_eq T (hexists n le_rfl)
  obtain ⟨sel, rest, hsel, hperm, hlen⟩ := selectNeighborsHeuristic_spec T candidates
    (room h₁.M l) fun c hc => hexists c.id (hG.old l c.id (hcand c hc)).le
  have hin : ∀ c ∈ sel, c.id ∈ N l := fun c hc =>
    hcand c (hperm.mem_iff.mp (mem_append_left _ hc))
  have hnodup : (sel.map Candidate.id).Nodup := by
    have hall := (hperm.map Candidate.id).nodup_iff.mpr honce
    rw [map_append] at hall
    exact (nodup_append.mp hall).1
  obtain ⟨h', hset, hk'⟩ := hk.setOwn hG hl hnodup
    (fun j hj => by
      obtain ⟨c, hc, rfl⟩ := mem_map.mp hj
      exact hin c hc)
    (by rw [length_map, hlen]; exact min_le_left ..)
  obtain ⟨h'', hadd, hk''⟩ := addConnections_spec hG hl T hk' sel hin
  refine ⟨h'', ?_, hk''⟩
  unfold selectNeighbors
  simp only [hown, hneighbor, hv, value_bind, hsel, hset, hadd]

theorem Linking.area (hk : Linking h₁ h n (l + 1) top N) : Area h l (N l) where
  node i hi := (hk.exists_iff i).mpr (hG.node i (hG.old l i hi).le)
  links i hi := hk.get hG (hG.old l i hi) l
  closed i hi j hj := by
    rw [hk.away i (hG.old l i hi) l (.inl (Nat.lt_succ_self l))] at hj
    exact hG.closed l hl i hi j hj

theorem connectLayer_spec (T : Tools F D Q C S) (visited : VisitedList) (query : List F)
    (hk : Linking h₁ h n (l + 1) top N) (hi : i ∈ N l) :
    ∃ c cs h', searchLayer T h query visited i h.graph.efConstruction l = .value (c :: cs) ∧
      selectNeighbors T h n (c :: cs) l = .value h' ∧ c.id ∈ N l ∧ Linking h₁ h' n l top N := by
  have hA := hk.area hG hl
  obtain ⟨cs, hsearch, hne, -, hfound, -⟩ := searchLayer_spec T query visited h.graph.efConstruction hA hi
  have hin := fun c hc => hA.reach hi (hfound.reach c hc)
  obtain ⟨h', hselect, hk'⟩ := selectNeighbors_spec hG hl T hk cs hin hfound.once
  cases cs with
  | nil => exact absurd rfl hne
  | cons c cs => exact ⟨c, cs, h', hsearch, hselect, hin c mem_cons_self, hk'⟩

theorem connectLayers_spec (T : Tools F D Q C S) (visited : ℕ → VisitedList) (query : List F)
    (hk : Linking h₁ h n (l + 1) top N) (hi : i ∈ N l) :
    ∃ h', connectLayers T visited query n l i h = .value h' ∧ Linking h₁ h' n 0 top N := by
  induction l generalizing h i with
  | zero =>
    obtain ⟨c, cs, h', hsearch, hselect, -, hk'⟩ := connectLayer_spec hG hl T (visited 0) query hk hi
    refine ⟨h', ?_, hk'⟩
    unfold connectLayers
    simp only [hsearch, value_bind, hselect]
  | succ l ih =>
    obtain ⟨c, cs, h', hsearch, hselect, hc, hk'⟩ := connectLayer_spec hG hl T (visited (l + 1)) query hk hi
    unfold connectLayers
    simp only [hsearch, value_bind, hselect]
    exact ih (by omega) hk' (hG.mono l hc)

end Linking

/-! ## A whole insert -/

def encoded (T : Tools F D Q C S) (h : Index F P Q C S) (v : List F) : Option Q × Option C :=
  match encode T h.graph v with
  | .value (g, code) => (g.quantizer, code)
  | _ => (none, none)

def added (T : Tools F D Q C S) (h : Index F P Q C S) (p : Point F P) : Index F P Q C S :=
  appended T.mmap h p { h.graph with
    links := h.graph.links.addNode h.nodes.length h.rng.head
    quantizer := (encoded T h p.vector).1
    quantized := Function.update h.graph.quantized h.nodes.length (encoded T h p.vector).2 }

def refused (T : Tools F D Q C S) (h : Index F P Q C S) (p : Point F P) : Index F P Q C S :=
  Hnsw.refused T.mmap h p { h.graph with quantizer := (encoded T h p.vector).1 }

section Insert

variable {T : Tools F D Q C S} {h : Index F P Q C S} {p : Point F P} {visited : ℕ → VisitedList}

/-- The quantizer encodes the vector: it does not panic. -/
def Encodable (T : Tools F D Q C S) (h : Index F P Q C S) (v : List F) : Prop :=
  ∃ r, encode T h.graph v = .value r

theorem Encodable.eq {v : List F} (he : Encodable T h v) : encode T h.graph v =
    .value ({ h.graph with quantizer := (encoded T h v).1 }, (encoded T h v).2) := by
  obtain ⟨⟨g, code⟩, hg⟩ := he
  unfold encoded
  rw [hg]
  unfold encode at hg
  split at hg
  · cases hg
    rfl
  · obtain ⟨⟨q, code⟩, -, hret⟩ := bind_eq_value.mp hg
    cases hret
    rfl

section Env

variable (pool : Index F P Q C S → ℕ → VisitedList) (hdim : p.vector.length = h.dimension)
  (hid : h.idToIndex p.id = none)
include hdim hid

theorem env_panics (he : ¬ Encodable T h p.vector) : Hnsw.insert (T.env pool) h p = .panic := by
  rw [insert_new hdim hid]
  show encode T h.graph p.vector >>= _ = _
  cases hg : encode T h.graph p.vector with
  | value r => exact absurd ⟨r, hg⟩ he
  | error e => exact e.elim
  | panic => rfl

theorem env_full_eq (he : Encodable T h p.vector) (hfull : maxNodes ≤ h.nodes.length) :
    Hnsw.insert (T.env pool) h p = .value (refused T h p, some .tooManyNodes) := by
  rw [insert_new hdim hid]
  exact (congrArg (· >>= _) he.eq).trans (if_pos hfull)

theorem env_fresh_eq (he : Encodable T h p.vector) (hroom : h.nodes.length < maxNodes) :
    Hnsw.insert (T.env pool) h p =
      if h.maxLevel = -1 then .value (added T h p, none)
      else do
        let graph ← connect T (pool (added T h p)) (added T h p) p.vector h.nodes.length h.entryPoint
          h.maxLevel h.rng.head
        return ({ added T h p with graph := graph }, none) := by
  rw [insert_new hdim hid]
  exact (congrArg (· >>= _) he.eq).trans (if_neg (Nat.not_le.mpr hroom))

end Env

theorem insert_panics (hdim : p.vector.length = h.dimension) (hid : h.idToIndex p.id = none)
    (he : ¬ Encodable T h p.vector) : insert T visited h p = .panic :=
  env_panics _ hdim hid he

theorem insert_full_eq (hdim : p.vector.length = h.dimension) (hid : h.idToIndex p.id = none)
    (he : Encodable T h p.vector) (hfull : maxNodes ≤ h.nodes.length) :
    insert T visited h p = .value (refused T h p, some .tooManyNodes) :=
  env_full_eq _ hdim hid he hfull

theorem insert_fresh_eq (hdim : p.vector.length = h.dimension) (hid : h.idToIndex p.id = none)
    (he : Encodable T h p.vector) (hroom : h.nodes.length < maxNodes) :
    insert T visited h p =
      if h.maxLevel = -1 then .value (added T h p, none)
      else do
        let graph ← connect T visited (added T h p) p.vector h.nodes.length h.entryPoint h.maxLevel h.rng.head
        return ({ added T h p with graph := graph }, none) :=
  env_fresh_eq _ hdim hid he hroom

/-- The list from the pool is the one for the index with the new node. -/
theorem insert_env (pool : Index F P Q C S → ℕ → VisitedList) :
    Hnsw.insert (T.env pool) h p = insert T (pool (added T h p)) h p := by
  by_cases hdim : p.vector.length = h.dimension
  case neg => exact (insert_mismatch hdim).trans (insert_mismatch hdim).symm
  cases hid : h.idToIndex p.id with
  | some i => exact (insert_exists hdim hid).trans (insert_exists hdim hid).symm
  | none =>
    by_cases he : Encodable T h p.vector
    · rcases Nat.lt_or_ge h.nodes.length maxNodes with hroom | hfull
      · rw [env_fresh_eq pool hdim hid he hroom, insert_fresh_eq hdim hid he hroom]
      · rw [env_full_eq pool hdim hid he hfull, insert_full_eq hdim hid he hfull]
    · rw [env_panics pool hdim hid he, insert_panics hdim hid he]

/-- AddNode on this graph has no error to report. -/
theorem insert_error {h' : Index F P Q C S} {e : Option IndexError} (hins : insert T visited h p = .value (h', e)) (text : String) :
    e ≠ some (.graph text) := by
  rintro rfl
  by_cases hdim : p.vector.length = h.dimension
  case neg => cases (insert_mismatch hdim).symm.trans hins
  cases hid : h.idToIndex p.id with
  | some i => cases (insert_exists hdim hid).symm.trans hins
  | none =>
    by_cases he : Encodable T h p.vector
    case neg => cases (insert_panics hdim hid he).symm.trans hins
    rcases Nat.lt_or_ge h.nodes.length maxNodes with hroom | hfull
    case inr => cases (insert_full_eq hdim hid he hfull).symm.trans hins
    rw [insert_fresh_eq hdim hid he hroom] at hins
    split at hins
    · cases hins
    · obtain ⟨graph, -, hret⟩ := bind_eq_value.mp hins
      cases hret

def linkedLayers (h : Index F P Q C S) : ℕ :=
  if h.maxLevel = -1 then 0 else min h.rng.head h.maxLevel.toNat + 1

/-- The search for a new node's neighbours stays in `N`, and what is left at the layers not linked fits. -/
structure Ready (h : Index F P Q C S) (N : ℕ → Finset ℕ) : Prop where
  node : ∀ i < h.nodes.length, Exists h i
  stored : Stored h fun _ _ => True
  Mmax : h.Mmax = h.M
  Mmax0 : h.graph.Mmax0 = 2 * h.M
  holds : ∀ k ≤ h.rng.head, h.graph.links.Holds k
  left : ∀ k ≤ h.rng.head, linkedLayers h ≤ k →
    (h.graph.links.leftover h.nodes.length k).length ≤ room h.M k
  bottom : -1 ≤ h.maxLevel
  old : ∀ k, ∀ i ∈ N k, i < h.nodes.length
  closed : ∀ k, ∀ i ∈ N k, ∀ j ∈ conn h k i, j ∈ N k
  mono : ∀ k, N (k + 1) ⊆ N k
  entry : h.maxLevel ≠ -1 → h.entryPoint ∈ N h.maxLevel.toNat

/-- **What an insert makes of the links.** -/
structure Grown (h h' : Index F P Q C S) (N : ℕ → Finset ℕ) : Prop where
  holds : ∀ k, h'.graph.links.Holds k ↔ h.graph.links.Holds k
  stored : Stored h' fun _ _ => True
  others : ∀ k, ∀ i < h.nodes.length,
    Relinked h.nodes.length (room h.M k) (conn h k i) (conn h' k i)
  away : ∀ k, linkedLayers h ≤ k → ∀ i < h.nodes.length, conn h' k i = conn h k i
  own : ∀ k < linkedLayers h, (conn h' k h.nodes.length).Nodup ∧
    (∀ j ∈ conn h' k h.nodes.length, j ∈ N k) ∧
    (conn h' k h.nodes.length).length ≤ room h.M k
  left : ∀ k ≤ h.rng.head, linkedLayers h ≤ k →
    conn h' k h.nodes.length = h.graph.links.leftover h.nodes.length k

variable {N : ℕ → Finset ℕ}

theorem Ready.added (hr : Ready h N) (T : Tools F D Q C S) (p : Point F P) :
    Added h (added T h p) (newNode T.mmap h p) fun k => linkedLayers h ≤ k := by
  have hlevel := newNode_level T.mmap h p
  refine hr.stored.add rfl ?_ (fun i hi => level_of_exists (hr.node i hi)) rfl ?_ ?_
  · rw [hlevel]
    rfl
  · rw [hlevel]
    exact hr.holds _ le_rfl
  · rw [hlevel]
    exact hr.left

theorem added_node (hr : Ready h N) (T : Tools F D Q C S) (p : Point F P)
    (hi : i ≤ h.nodes.length) : Exists (Graph.added T h p) i := by
  have hnodes : (Graph.added T h p).nodes = h.nodes ++ [some (newNode T.mmap h p)] := rfl
  rcases Nat.lt_or_eq_of_le hi with hlt | rfl
  · obtain ⟨node, hnode⟩ := hr.node i hlt
    exact ⟨node, by rw [hnodes, getElem?_append_left hlt]; exact hnode⟩
  · exact ⟨newNode T.mmap h p, by rw [hnodes, getElem?_append_right le_rfl, Nat.sub_self]; rfl⟩

theorem holds_addNode (links : Links) (n level k : ℕ) :
    (links.addNode n level).Holds k ↔ links.Holds k := by
  cases links <;> rfl

theorem Ready.ground (hr : Ready h N) (T : Tools F D Q C S) (p : Point F P) :
    Ground (Graph.added T h p) h.nodes.length h.rng.head (linkedLayers h) N where
  node i hi := added_node hr T p hi
  levelled := by
    rw [← newNode_level T.mmap h p]
    exact levelAt_append_new rfl
  upto := by
    unfold linkedLayers
    split <;> omega
  holds k hk := by
    refine (holds_addNode ..).mpr (hr.holds k ?_)
    unfold linkedLayers at hk
    split at hk <;> omega
  Mmax := hr.Mmax
  Mmax0 := hr.Mmax0
  old := hr.old
  closed k _ i hi j hj := by
    rw [(hr.added T p).old i (hr.old k i hi) k] at hj
    exact hr.closed k i hi j hj
  mono := hr.mono

theorem Linking.grown (hr : Ready h N) {h' : Index F P Q C S}
    (hk : Linking (Graph.added T h p) h' h.nodes.length 0 (linkedLayers h) N) : Grown h h' N := by
  have hadd := hr.added T p
  refine ⟨fun k => (hk.holds k).trans (holds_addNode ..), ?_, fun k i hi => ?_,
    fun k hle i hi => ?_, fun k hlt => ?_, fun k hle htop => ?_⟩
  · refine hk.stored.mono fun i k level hlevel _ => ?_
    rw [hk.levelAt] at hlevel
    rcases levelAt_append rfl hlevel with ⟨hlt, -⟩ | ⟨rfl, -⟩
    · exact .inl hlt
    · exact .inr ⟨rfl, Nat.zero_le _⟩
  · rcases Nat.lt_or_ge k (linkedLayers h) with hlt | hge
    · rw [← hadd.old i hi k]
      exact hk.others k (Nat.zero_le _) hlt i hi
    · exact .inl ((hk.away i hi k (.inr hge)).trans (hadd.old i hi k))
  · exact (hk.away i hi k (.inr hle)).trans (hadd.old i hi k)
  · exact hk.own k (Nat.zero_le _) hlt
  · rw [hk.above k htop]
    exact hadd.own k (by rwa [newNode_level]) htop

theorem insert_spec (T : Tools F D Q C S) (visited : ℕ → VisitedList) (hr : Ready h N)
    (hdim : p.vector.length = h.dimension) (hid : h.idToIndex p.id = none) (he : Encodable T h p.vector)
    (hroom : h.nodes.length < maxNodes) : ∃ links, insert T visited h p = .value (Index.withLinks (Graph.added T h p) links, none) ∧
      Grown h (Index.withLinks (Graph.added T h p) links) N := by
  have hG := hr.ground T p
  have hstart : Linking (Graph.added T h p) (Graph.added T h p) h.nodes.length (linkedLayers h)
      (linkedLayers h) N := by
    refine linking_start ((hr.added T p).stored.mono fun i k _ _ hused => ?_)
    rcases hused with hlt | ⟨-, hle⟩
    · exact .inl hlt
    · exact .inr hle
  rw [insert_fresh_eq hdim hid he hroom]
  by_cases hfirst : h.maxLevel = -1
  · rw [if_pos hfirst]
    have hnone : linkedLayers h = 0 := if_pos hfirst
    rw [hnone] at hstart
    exact ⟨_, rfl, Linking.grown hr (by rw [hnone]; exact hstart)⟩
  · rw [if_neg hfirst]
    have hlayers : linkedLayers h = min h.rng.head h.maxLevel.toNat + 1 := if_neg hfirst
    -- the old nodes have their old links still
    have harea : ∀ k, Area (Graph.added T h p) k (N k) := by
      refine fun k => ⟨fun i hi => hG.node i (hr.old k i hi).le, fun i hi => ?_, fun i hi j hj => ?_⟩
      · obtain ⟨level, hlevel⟩ := level_of_exists (hG.node i (hr.old k i hi).le)
        exact (hr.added T p).stored.get hlevel (.inl (hr.old k i hi))
      · rw [(hr.added T p).old i (hr.old k i hi) k] at hj
        exact hr.closed k i hi j hj
    obtain ⟨s, hs, hdescend, -⟩ := descend_spec T p.vector h.rng.head h.maxLevel.toNat
      (fun k _ _ => harea k) (fun k _ => hr.mono k) (hr.entry hfirst)
    rw [hlayers] at hstart
    obtain ⟨h', hconnect, hk⟩ := connectLayers_spec (hlayers ▸ hG) (Nat.lt_add_one _) T visited
      p.vector hstart hs
    rw [← hlayers] at hk
    obtain ⟨links, rfl⟩ := hk.same
    unfold connect
    simp only [hdescend, value_bind, hconnect, pure_eq]
    exact ⟨links, rfl, hk.grown hr⟩

end Insert

end LimyeDB.Graph
