/-
  THE SHARD MANAGER: a round-robin of the shards over the members, in the order in which Go goes through the
  map of the nodes, which is any.
-/
import LimyeDB.Cluster.HashRing

namespace LimyeDB.Cluster

open Go List Function

/-! ## The source -/

structure Shard where
  id : ℕ
  primary : Bytes
  replicas : List Bytes
  deriving DecidableEq, Repr

structure ShardManager where
  shards : List Shard
  shardCount : ℕ
  replication : ℤ
  hashRing : HashRing
  deriving DecidableEq, Repr

/-- A negative number is 16, and the rest is a uint32. -/
def shardCountOf (shardCount : ℤ) : ℕ := if shardCount < 0 then 16 else shardCount.toNat % 2 ^ 32

def emptyShards (shardCount : ℕ) : List Shard := (range shardCount).map fun i => ⟨i, [], []⟩

def newShardManager (shardCount replicationFactor : ℤ) : ShardManager :=
  ⟨emptyShards (shardCountOf shardCount), shardCountOf shardCount, replicationFactor, newHashRing 150⟩

/-- `make([]string, 0, replication-1)` returns: a string takes 16 bytes. -/
def Makes (replication : ℤ) : Prop := 1 ≤ replication ∧ 16 * (replication - 1) ≤ Snapshot.maxAlloc

instance (replication : ℤ) : Decidable (Makes replication) :=
  inferInstanceAs (Decidable (1 ≤ replication ∧ 16 * (replication - 1) ≤ Snapshot.maxAlloc))

def nodeAt (ids : List Bytes) (k : ℕ) : Bytes := ids.getD (k % ids.length) []

/-- The loop runs while `r < replication` and `r < len(nodes)`. -/
def assignShard (replication : ℤ) (ids : List Bytes) (shardID : ℕ) : Shard where
  id := shardID
  primary := nodeAt ids shardID
  replicas := (range ((min replication ids.length).toNat - 1)).map fun r =>
    nodeAt ids (shardID % ids.length + (r + 1))

def assignAll (shardCount : ℕ) (replication : ℤ) (ids : List Bytes) : List Shard :=
  (range shardCount).map (assignShard replication ids)

namespace ShardManager

/-- `nodes` are the nodes of the ring, in the order of the map. -/
def rebalanceShards (sm : ShardManager) (nodes : List Node) : Outcome Empty ShardManager :=
  if nodes = [] then .value sm
  else if 0 < sm.shardCount ∧ ¬ Makes sm.replication then .panic
  else .value { sm with shards := assignAll sm.shardCount sm.replication (nodes.map Node.id) }

variable (K : Hashing)

def addNode (sm : ShardManager) (node : Node) (nodes : List Node) : Outcome Empty ShardManager :=
  { sm with hashRing := sm.hashRing.addNode K node }.rebalanceShards nodes

def removeNode (sm : ShardManager) (id : Bytes) (nodes : List Node) : Outcome Empty ShardManager :=
  { sm with hashRing := sm.hashRing.removeNode id }.rebalanceShards nodes

def members (sm : ShardManager) : List Bytes := sm.hashRing.nodes.map Node.id

/-- Modulo zero panics. -/
def getShardForKey (sm : ShardManager) (key : Bytes) : Outcome Empty ℕ :=
  if sm.shardCount = 0 then .panic else .value (K.hashKey key % sm.shardCount)

def getNodesForKey (sm : ShardManager) (key : Bytes) : Outcome Empty (List Node) :=
  sm.hashRing.getNodes K key sm.replication

def getPrimaryNode (sm : ShardManager) (shardID : ℕ) : Option Node :=
  sm.shards[shardID]?.bind fun shard => sm.hashRing.lookup shard.primary

end ShardManager

/-- The managers after calls that returned, whatever the orders of the map were. -/
inductive Managed (K : Hashing) (shardCount replication : ℤ) : ShardManager → Prop where
  | new : Managed K shardCount replication (newShardManager shardCount replication)
  | add {sm sm' node nodes} (h : Managed K shardCount replication sm)
    (horder : nodes.Perm (sm.hashRing.addNode K node).nodes)
    (hadd : sm.addNode K node nodes = .value sm') : Managed K shardCount replication sm'
  | remove {sm sm' id nodes} (h : Managed K shardCount replication sm)
    (horder : nodes.Perm (sm.hashRing.removeNode id).nodes)
    (hremove : sm.removeNode id nodes = .value sm') : Managed K shardCount replication sm'

/-! ## One assignment -/

section Assign

variable {replication : ℤ} {ids : List Bytes} {shardID n : ℕ}

theorem nodeAt_mem (hne : ids ≠ []) (k : ℕ) : nodeAt ids k ∈ ids := by
  have hlt := Nat.mod_lt k (length_pos_iff.mpr hne)
  rw [nodeAt, getD_eq_getElem _ _ hlt]
  exact getElem_mem hlt

theorem nodeAt_inj (hnodup : ids.Nodup) (hne : ids ≠ []) {i j : ℕ} (h : nodeAt ids i = nodeAt ids j) :
    i % ids.length = j % ids.length := by
  have hpos := length_pos_iff.mpr hne
  rw [nodeAt, nodeAt, getD_eq_getElem _ _ (Nat.mod_lt i hpos),
    getD_eq_getElem _ _ (Nat.mod_lt j hpos)] at h
  exact (hnodup.getElem_inj_iff).mp h

theorem placement_eq (hrep : 1 ≤ replication) (hne : ids ≠ []) :
    (assignShard replication ids shardID).primary :: (assignShard replication ids shardID).replicas =
      (range (min replication ids.length).toNat).map fun r =>
        nodeAt ids (shardID % ids.length + r) := by
  have hpos := length_pos_iff.mpr hne
  obtain ⟨k, hk⟩ : ∃ k, (min replication ids.length).toNat = k + 1 :=
    ⟨(min replication ids.length).toNat - 1, by omega⟩
  simp only [assignShard, hk, Nat.add_sub_cancel, range_succ_eq_map, map_cons, map_map]
  refine congrArg₂ _ ?_ rfl
  rw [nodeAt, nodeAt, Nat.add_zero, Nat.mod_mod]

theorem assignShard_spec (hrep : 1 ≤ replication) (hnodup : ids.Nodup) (hne : ids ≠ []) (shardID : ℕ) :
    let nodes := (assignShard replication ids shardID).primary ::
      (assignShard replication ids shardID).replicas
    nodes.Nodup ∧ (∀ id ∈ nodes, id ∈ ids) ∧ nodes.length = min replication.toNat ids.length := by
  simp only [placement_eq hrep hne]
  refine ⟨?_, fun id hid => ?_, ?_⟩
  · refine Nodup.map_on (fun i hi j hj hij => ?_) nodup_range
    rw [mem_range] at hi hj
    have hmod := Nat.ModEq.add_left_cancel' _ (nodeAt_inj hnodup hne hij)
    exact Nat.ModEq.eq_of_lt_of_lt hmod (by omega) (by omega)
  · obtain ⟨r, -, rfl⟩ := mem_map.mp hid
    exact nodeAt_mem hne _
  · simp only [length_map, length_range]
    omega

theorem countP_primary (hnodup : ids.Nodup) (hne : ids ≠ []) {a : Bytes} (ha : a ∈ ids) :
    ∃ k, (assignAll n replication ids).countP (fun s => s.primary = a) =
      n / ids.length + if k % ids.length < n % ids.length then 1 else 0 := by
  obtain ⟨k, hk, rfl⟩ := getElem_of_mem ha
  have hpos := length_pos_iff.mpr hne
  have hself : nodeAt ids k = ids[k] := by
    rw [nodeAt, Nat.mod_eq_of_lt hk, getD_eq_getElem _ _ hk]
  refine ⟨k, ?_⟩
  rw [assignAll, countP_map, ← Nat.count_modEq_card n hpos k, Nat.count]
  refine countP_congr fun i _ => ?_
  simp only [comp_apply, assignShard, ← hself]
  constructor
  · intro h
    exact decide_eq_true (nodeAt_inj hnodup hne (of_decide_eq_true h))
  · intro h
    have hmod : i % ids.length = k % ids.length := of_decide_eq_true h
    exact decide_eq_true (by rw [nodeAt, nodeAt, hmod])

end Assign

/-! ## Runs -/

section Runs

variable {K : Hashing} {c r : ℤ} {sm sm' : ShardManager}

structure Arranged (c r : ℤ) (sm : ShardManager) : Prop where
  placed : Placed sm.hashRing
  count : sm.shardCount = shardCountOf c
  replication : sm.replication = r
  shards : sm.members ≠ [] → ∃ ids, ids.Perm sm.members ∧ sm.shards = assignAll (shardCountOf c) r ids
  stuck : 0 < shardCountOf c → ¬ Makes r → sm.shards = emptyShards (shardCountOf c)
  length : sm.shards.length = shardCountOf c

theorem Arranged.rebalance (h : Arranged c r sm) {hr : HashRing} (hp : Placed hr) {nodes : List Node}
    (horder : nodes.Perm hr.nodes)
    (hreb : { sm with hashRing := hr }.rebalanceShards nodes = .value sm') :
    Arranged c r sm' ∧ (0 < shardCountOf c → sm'.members ≠ [] → Makes r) := by
  unfold ShardManager.rebalanceShards at hreb
  simp only [h.count, h.replication] at hreb
  split_ifs at hreb with hempty hpanic
  · cases hreb
    have hnil : hr.nodes.map Node.id = [] := by simp [(hempty ▸ horder).nil_eq.symm]
    exact ⟨⟨hp, rfl, rfl, fun hne => absurd hnil hne, h.stuck, h.length⟩, fun _ hne => absurd hnil hne⟩
  · cases hreb
    have hmakes : 0 < shardCountOf c → Makes r := fun hpos => by_contra fun hnot => hpanic ⟨hpos, hnot⟩
    refine ⟨⟨hp, rfl, rfl, fun _ => ⟨_, horder.map Node.id, rfl⟩, fun hpos hnot => ?_, ?_⟩,
      fun hpos _ => hmakes hpos⟩
    · exact absurd (hmakes hpos) hnot
    · simp [assignAll]

theorem Managed.arranged (h : Managed K c r sm) : Arranged c r sm := by
  induction h with
  | new =>
    refine ⟨(Built.new (K := K) 150).placed, rfl, rfl, fun hne => absurd rfl hne, fun _ _ => rfl, ?_⟩
    simp [newShardManager, emptyShards]
  | add _ horder hadd ih => exact (ih.rebalance (ih.placed.add _) horder hadd).1
  | remove _ horder hremove ih => exact (ih.rebalance (ih.placed.remove _) horder hremove).1

/-- **With a member left every shard has distinct members, as many as the replication factor and the members
    allow, and any two members are the primaries of equally many shards up to one.** -/
theorem shards_placed (h : Managed K c r sm) (hne : sm.members ≠ []) (hrep : 1 ≤ r) :
    sm.shards.length = shardCountOf c ∧ (∀ s ∈ sm.shards, (s.primary :: s.replicas).Nodup ∧
        (∀ id ∈ s.primary :: s.replicas, id ∈ sm.members) ∧
        (s.primary :: s.replicas).length = min r.toNat sm.members.length) ∧
      ∀ a ∈ sm.members, ∀ b ∈ sm.members, sm.shards.countP (fun s => s.primary = a) ≤
        sm.shards.countP (fun s => s.primary = b) + 1 := by
  have harr := h.arranged
  obtain ⟨ids, hperm, hshards⟩ := harr.shards hne
  have hnodup : ids.Nodup := hperm.nodup_iff.mpr harr.placed.nodup
  have hids : ids ≠ [] := fun hnil => hne (hnil ▸ hperm).nil_eq.symm
  refine ⟨harr.length, fun s hs => ?_, fun a ha b hb => ?_⟩
  · rw [hshards] at hs
    obtain ⟨i, -, rfl⟩ := mem_map.mp hs
    obtain ⟨hdistinct, hmem, hlen⟩ := assignShard_spec hrep hnodup hids i
    exact ⟨hdistinct, fun id hid => hperm.mem_iff.mp (hmem id hid), hperm.length_eq ▸ hlen⟩
  · have hcount : ∀ x ∈ sm.members, ∃ k, sm.shards.countP (fun s => s.primary = x) =
        shardCountOf c / ids.length + if k % ids.length < shardCountOf c % ids.length then 1 else 0 := by
      intro x hx
      rw [hshards]
      exact countP_primary hnodup hids (hperm.mem_iff.mpr hx)
    obtain ⟨i, hi⟩ := hcount a ha
    obtain ⟨j, hj⟩ := hcount b hb
    rw [hi, hj]
    split_ifs <;> omega

end Runs

/-! ## Two managers -/

/-- All managers with the members place the shards alike. -/
def Agree (K : Hashing) (c r : ℤ) (M : Finset Bytes) : Prop :=
  ∀ sm sm', Managed K c r sm → Managed K c r sm' → (∀ id, id ∈ sm.members ↔ id ∈ M) →
    (∀ id, id ∈ sm'.members ↔ id ∈ M) → sm.shards = sm'.shards

def activeNode (id : Bytes) : Node := ⟨id, .active⟩

section Agree

variable {K : Hashing} {c r : ℤ} {n : ℕ} {l order : List Bytes}

theorem map_id_activeNode (l : List Bytes) : (l.map activeNode).map Node.id = l := by
  simp [activeNode, comp_def]

theorem Managed.addNode_eq {sm : ShardManager} (h : Managed K c r sm) (hmakes : 0 < shardCountOf c → Makes r)
    (node : Node) {nodes : List Node} (hne : nodes ≠ []) : sm.addNode K node nodes = .value
      { sm with
        hashRing := sm.hashRing.addNode K node
        shards := assignAll (shardCountOf c) r (nodes.map Node.id) } := by
  rw [ShardManager.addNode, ShardManager.rebalanceShards, if_neg hne, h.arranged.count,
    h.arranged.replication, if_neg fun h => h.2 (hmakes h.1)]

theorem exists_managed (hmakes : 0 < shardCountOf c → Makes r) (hnodup : l.Nodup) (horder : order.Perm l) :
    ∃ sm, Managed K c r sm ∧ sm.hashRing.nodes = l.map activeNode ∧
      (l ≠ [] → sm.shards = assignAll (shardCountOf c) r order) := by
  induction l using reverseRecOn generalizing order with
  | nil => exact ⟨_, .new, rfl, fun hne => absurd rfl hne⟩
  | append_singleton l x ih =>
    obtain ⟨hl, -, hx⟩ := nodup_append.mp hnodup
    obtain ⟨sm, hm, hold, -⟩ := ih hl (Perm.refl l)
    have hnodes : (sm.hashRing.addNode K (activeNode x)).nodes = (l ++ [x]).map activeNode := by
      rw [HashRing.addNode, hold, map_append, filter_eq_self.mpr]
      · rfl
      · intro n hn
        obtain ⟨id, hid, rfl⟩ := mem_map.mp hn
        exact decide_eq_true (hx id hid x (mem_singleton_self x))
    have hne : order.map activeNode ≠ [] := fun hnil => by
      simpa [map_eq_nil_iff.mp hnil] using horder.length_eq
    have hcall := hm.addNode_eq hmakes (activeNode x) hne
    rw [map_id_activeNode] at hcall
    exact ⟨_, hm.add (hnodes ▸ horder.map activeNode) hcall, hnodes, fun _ => rfl⟩

theorem assignAll_primary {ids : List Bytes} (hn : 0 < n) (h : assignAll n r l = assignAll n r ids) :
    nodeAt l 0 = nodeAt ids 0 := by
  obtain ⟨k, rfl⟩ := Nat.exists_eq_add_one.mpr hn
  rw [assignAll, assignAll, range_succ_eq_map, map_cons, map_cons] at h
  exact congrArg Shard.primary (cons.inj h).1

theorem shards_placed_two : ∃ sm, Managed twoHashing 2 2 sm ∧ sm.members = [[1], [2]] ∧
    sm.shards.length = 2 := by
  obtain ⟨sm, hm, hnodes, -⟩ := exists_managed (K := twoHashing) (c := 2) (r := 2) (fun _ => by decide)
    (l := [[1], [2]]) (by decide) (Perm.refl _)
  have hmembers : sm.members = [[1], [2]] := by rw [ShardManager.members, hnodes, map_id_activeNode]
  exact ⟨sm, hm, hmembers, (shards_placed hm (hmembers ▸ cons_ne_nil _ _) (by decide)).1⟩

theorem exists_managed_stale (hmakes : Makes r) : ∃ sm, Managed K c r sm ∧ sm.members = [] ∧
    sm.shards = assignAll (shardCountOf c) r [[0]] := by
  obtain ⟨sm, hm, hnodes, hshards⟩ := exists_managed (fun _ => hmakes)
    (nodup_singleton [0]) (Perm.refl [[(0 : UInt8)]])
  have hgone : (sm.hashRing.removeNode [0]).nodes = [] := by
    rw [HashRing.removeNode, hnodes]
    rfl
  refine ⟨{ sm with hashRing := sm.hashRing.removeNode [0] }, ?_, ?_, hshards (cons_ne_nil _ _)⟩
  · have horder : List.Perm [] (sm.hashRing.removeNode [0]).nodes := hgone ▸ Perm.refl []
    exact hm.remove horder rfl
  · rw [ShardManager.members, hgone]
    rfl

theorem Arranged.shards_one {sm : ShardManager} {x : Bytes} (h : Arranged c r sm)
    (hset : ∀ id, id ∈ sm.members ↔ id ∈ ({x} : Finset Bytes)) :
    sm.shards = assignAll (shardCountOf c) r [x] := by
  have hperm : sm.members.Perm [x] := (perm_ext_iff_of_nodup h.placed.nodup
    (nodup_singleton x)).mpr fun id => (hset id).trans (by simp)
  obtain ⟨ids, hids, hshards⟩ := h.shards fun hnil => by simpa [hnil] using hperm.length_eq
  rw [hshards, perm_singleton.mp (hids.trans hperm)]

end Agree

/-- **All managers with the members agree just if there are no shards, there is one member, or no node
    can be added at all.** -/
theorem placement_agrees_iff (K : Hashing) (c r : ℤ) (M : Finset Bytes) :
    Agree K c r M ↔ shardCountOf c = 0 ∨ M.card = 1 ∨ ¬ Makes r := by
  constructor
  · intro hagree
    by_contra hnot
    obtain ⟨hcount, hcard, hmakes⟩ : shardCountOf c ≠ 0 ∧ M.card ≠ 1 ∧ Makes r := by tauto
    have hpos := Nat.pos_of_ne_zero hcount
    have hset : ∀ id, id ∈ M.toList ↔ id ∈ M := fun id => Finset.mem_toList
    rcases hlist : M.toList with _ | ⟨x, _ | ⟨y, rest⟩⟩
    · -- one manager never had a member
      obtain ⟨sm, hm, hmembers, hshards⟩ := exists_managed_stale hmakes
      have hempty : ∀ id, id ∈ ([] : List Bytes) ↔ id ∈ M := fun id => hlist ▸ hset id
      have hsame := hagree sm _ hm .new (fun id => hmembers ▸ hempty id) hempty
      obtain ⟨k, hk⟩ := Nat.exists_eq_add_one.mpr hpos
      rw [hshards, assignAll, newShardManager, emptyShards, hk, range_succ_eq_map, map_cons,
        map_cons] at hsame
      exact cons_ne_nil 0 [] (congrArg Shard.primary (cons.inj hsame).1)
    · exact hcard (by rw [← Finset.length_toList, hlist]; rfl)
    · -- the first two members change places
      have hnodup : (x :: y :: rest).Nodup := hlist ▸ M.nodup_toList
      obtain ⟨sm, hm, hnodes, hshards⟩ := exists_managed (fun _ => hmakes) hnodup (Perm.refl _)
      obtain ⟨sm', hm', hnodes', hshards'⟩ := exists_managed (fun _ => hmakes) hnodup (Perm.swap x y rest)
      have hmembers : ∀ t : ShardManager, t.hashRing.nodes = (x :: y :: rest).map activeNode →
          ∀ id, id ∈ t.members ↔ id ∈ M := fun t ht id => by
        rw [ShardManager.members, ht, map_id_activeNode, ← hlist, hset]
      have hsame := hagree sm sm' hm hm' (hmembers sm hnodes) (hmembers sm' hnodes')
      rw [hshards (cons_ne_nil _ _), hshards' (cons_ne_nil _ _)] at hsame
      have hxy : x = y := by simpa [nodeAt] using assignAll_primary hpos hsame
      exact (nodup_cons.mp hnodup).1 (hxy ▸ mem_cons_self)
  · intro h sm sm' hm hm' hset hset'
    have harr := hm.arranged
    have harr' := hm'.arranged
    by_cases hzero : shardCountOf c = 0
    · rw [length_eq_zero_iff.mp (harr.length.trans hzero),
        length_eq_zero_iff.mp (harr'.length.trans hzero)]
    · rcases h with hzero' | hcard | hmakes
      · exact absurd hzero' hzero
      · -- one member in any order
        obtain ⟨x, rfl⟩ := Finset.card_eq_one.mp hcard
        rw [harr.shards_one hset, harr'.shards_one hset']
      · rw [harr.stuck (Nat.pos_of_ne_zero hzero) hmakes, harr'.stuck (Nat.pos_of_ne_zero hzero) hmakes]

/-- Two members, two shards, and two orders of the map. -/
theorem placement_differs : ∃ sm sm', Managed twoHashing 2 2 sm ∧ Managed twoHashing 2 2 sm' ∧
    sm.members = [[1], [2]] ∧ sm'.members = [[1], [2]] ∧
    sm.shards = [⟨0, [1], [[2]]⟩, ⟨1, [2], [[1]]⟩] ∧ sm'.shards = [⟨0, [2], [[1]]⟩, ⟨1, [1], [[2]]⟩] := by
  obtain ⟨sm, hm, hnodes, hshards⟩ := exists_managed (K := twoHashing) (c := 2) (r := 2) (fun _ => by decide)
    (l := [[1], [2]]) (by decide) (Perm.refl _)
  obtain ⟨sm', hm', hnodes', hshards'⟩ := exists_managed (K := twoHashing) (c := 2) (r := 2) (fun _ => by decide)
    (l := [[1], [2]]) (by decide) (Perm.swap [1] [2] [])
  refine ⟨sm, sm', hm, hm', ?_, ?_, (hshards (by decide)).trans (by decide),
    (hshards' (by decide)).trans (by decide)⟩
  · rw [ShardManager.members, hnodes, map_id_activeNode]
  · rw [ShardManager.members, hnodes', map_id_activeNode]

/-! ## Reads and writes of a key -/

/-- The key has a shard, and its primary is among the nodes that writes go to. -/
def Routed (K : Hashing) (sm : ShardManager) (key : Bytes) : Prop :=
  ∃ s, sm.getShardForKey K key = .value s ∧ ∀ node, sm.getPrimaryNode s = some node →
    ∃ nodes, sm.getNodesForKey K key = .value nodes ∧ node ∈ nodes

section Routes

variable {K : Hashing} {c r : ℤ} {sm sm' : ShardManager} {l : List Bytes}

theorem Managed.makes (h : Managed K c r sm) (hpos : 0 < shardCountOf c) (hne : sm.members ≠ []) : Makes r := by
  cases h with
  | new => exact absurd rfl hne
  | add h horder hadd => exact (h.arranged.rebalance (h.arranged.placed.add _) horder hadd).2 hpos hne
  | remove h horder hremove =>
    exact (h.arranged.rebalance (h.arranged.placed.remove _) horder hremove).2 hpos hne

theorem Makes.fits {hr : HashRing} (h : Makes r) : hr.ring = [] ∨ 8 * r ≤ Snapshot.maxAlloc := by
  obtain ⟨hpos, hle⟩ := h
  unfold Snapshot.maxAlloc at hle ⊢
  omega

theorem routed_of_le (h : Managed K c r sm) (hpos : 0 < shardCountOf c)
    (hhealthy : ∀ n ∈ sm.hashRing.nodes, n.isHealthy) (hle : sm.members ≠ [] → sm.members.length ≤ r) (key : Bytes) : Routed K sm key := by
  have harr := h.arranged
  refine ⟨_, if_neg (harr.count ▸ hpos.ne'), fun node hnode => ?_⟩
  obtain ⟨shard, -, hlook⟩ := Option.bind_eq_some_iff.mp hnode
  have hmem := ((lookup_eq_some harr.placed).mp hlook).1
  have hne : sm.members ≠ [] := ne_nil_of_mem (mem_map_of_mem hmem)
  have hr := hle hne
  rw [ShardManager.members, length_map] at hr
  obtain ⟨hsound, hids, hlength⟩ := picked_found (K := K) harr.placed key r
  have hperm := (subperm_of_subset (hids.of_map _) fun a ha => (hsound a ha).1).perm_of_length_le
    (by rw [hlength, filter_eq_self.mpr hhealthy]; omega)
  refine ⟨sm.hashRing.picked K key r, ?_, hperm.mem_iff.mpr hmem⟩
  rw [ShardManager.getNodesForKey, harr.replication]
  exact getNodes_eq (h.makes hpos hne).fits key

theorem exists_nodeAt_rotate {x : Bytes} (hx : x ∈ l) (s : ℕ) : ∃ j, nodeAt (l.rotate j) s = x := by
  obtain ⟨k, hk, rfl⟩ := getElem_of_mem hx
  have hs := Nat.mod_lt s (Nat.zero_lt_of_lt hk)
  have hsum : s % l.length + (k + (l.length - s % l.length)) = k + l.length := by omega
  refine ⟨k + (l.length - s % l.length), ?_⟩
  rw [nodeAt, length_rotate, getD_eq_getElem _ _ (by rwa [length_rotate]), getElem_rotate]
  simp only [hsum, Nat.add_mod_right, Nat.mod_eq_of_lt hk]

theorem exists_unrouted (hpos : 0 < shardCountOf c) (hmakes : Makes r) (hnodup : l.Nodup) (hlt : r < l.length)
    (key : Bytes) : ∃ sm, Managed K c r sm ∧ (∀ id, id ∈ sm.members ↔ id ∈ l) ∧
      (∀ n ∈ sm.hashRing.nodes, n.isHealthy) ∧ ¬ Routed K sm key := by
  obtain ⟨y, l', rfl⟩ : ∃ y l', l = y :: l' := exists_cons_of_length_pos (by have := hmakes.1; omega)
  obtain ⟨sm, hm, hnodes, -⟩ := exists_managed (K := K) (c := c) (fun _ => hmakes) hnodup (Perm.refl _)
  -- the ring does not depend on the order of the map, so a member is added once more to choose it
  obtain ⟨hr, hhr⟩ : ∃ hr, sm.hashRing.addNode K (activeNode y) = hr := ⟨_, rfl⟩
  have hp : Placed hr := hhr ▸ hm.arranged.placed.add _
  have hmem : ∀ id, id ∈ hr.nodes.map Node.id ↔ id ∈ y :: l' := by
    intro id
    rw [← hhr, HashRing.addNode, map_append, mem_append, mem_ids_filter, hnodes, map_id_activeNode]
    by_cases hid : id = y <;> simp [activeNode, hid]
  have hhealthy : ∀ n ∈ hr.nodes, n.isHealthy := by
    intro n hn
    rw [← hhr, HashRing.addNode, hnodes] at hn
    rcases mem_append.mp hn with hn | hn
    · obtain ⟨id, -, rfl⟩ := mem_map.mp (mem_filter.mp hn).1
      rfl
    · rw [mem_singleton.mp hn]
      rfl
  obtain ⟨x, hx, hout⟩ : ∃ x ∈ y :: l', x ∉ (hr.picked K key r).map Node.id := by
    by_contra! hall
    have hlen := hnodup.length_le_of_subset fun x hx => hall x hx
    rw [length_map, (picked_found hp key r).2.2] at hlen
    have := hmakes.1
    omega
  obtain ⟨node, hnode, rfl⟩ := mem_map.mp ((hmem x).mpr hx)
  obtain ⟨j, hj⟩ := exists_nodeAt_rotate (mem_map_of_mem (f := Node.id) hnode) (K.hashKey key % shardCountOf c)
  have hcall := hm.addNode_eq (fun _ => hmakes) (activeNode y)
    (rotate_eq_nil_iff.not.mpr (ne_nil_of_mem hnode) : hr.nodes.rotate j ≠ [])
  rw [hhr, map_rotate] at hcall
  refine ⟨_, hm.add (hhr ▸ rotate_perm _ _) hcall, hmem, hhealthy, ?_⟩
  rintro ⟨s, hs, hprimary⟩
  rw [ShardManager.getShardForKey, hm.arranged.count, if_neg hpos.ne'] at hs
  cases hs
  obtain ⟨nodes, hget, hmember⟩ := hprimary node (by
    rw [ShardManager.getPrimaryNode, assignAll, getElem?_map, getElem?_range (Nat.mod_lt _ hpos)]
    exact (lookup_eq_some hp).mpr ⟨hnode, hj.symm⟩)
  have hpicked : hr.getNodes K key r = .value nodes := hm.arranged.replication ▸ hget
  rw [getNodes_eq hmakes.fits key] at hpicked
  cases hpicked
  exact hout (mem_map_of_mem hmember)

end Routes

/-- **Every key is read from a node that its writes go to just if there are shards and every member gets every
    write.** -/
theorem routed_iff (K : Hashing) (c r : ℤ) (M : Finset Bytes) :
    (∀ sm, Managed K c r sm → (∀ id, id ∈ sm.members ↔ id ∈ M) → (∀ n ∈ sm.hashRing.nodes, n.isHealthy) →
      ∀ key, Routed K sm key) ↔ 0 < shardCountOf c ∧ (Makes r → M.card ≤ r) := by
  constructor
  · intro h
    have hpos : 0 < shardCountOf c := by
      by_contra hzero
      obtain ⟨sm, hm, hnodes, -⟩ := exists_managed (K := K) (r := r) (fun hpos => absurd hpos hzero)
        M.nodup_toList (Perm.refl _)
      obtain ⟨s, hs, -⟩ := h sm hm (by simp [ShardManager.members, hnodes, activeNode])
        (by simp [hnodes, activeNode, Node.isHealthy]) []
      rw [ShardManager.getShardForKey, if_pos (hm.arranged.count.trans (by omega))] at hs
      cases hs
    refine ⟨hpos, fun hmakes => ?_⟩
    by_contra! hlt
    obtain ⟨sm, hm, hset, hhealthy, hnot⟩ := exists_unrouted hpos hmakes M.nodup_toList
      (by rwa [Finset.length_toList]) []
    exact hnot (h sm hm (fun id => (hset id).trans Finset.mem_toList) hhealthy [])
  · rintro ⟨hpos, hle⟩ sm hm hset hhealthy key
    refine routed_of_le hm hpos hhealthy (fun hne => ?_) key
    have hperm : sm.members.Perm M.toList := (perm_ext_iff_of_nodup hm.arranged.placed.nodup
      M.nodup_toList).mpr fun id => (hset id).trans Finset.mem_toList.symm
    rw [hperm.length_eq, Finset.length_toList]
    exact hle (hm.makes hpos hne)

/-- Two members and one copy of each key. -/
theorem read_elsewhere : ∃ sm, Managed twoHashing 1 1 sm ∧ (∀ id, id ∈ sm.members ↔ id ∈ [[1], [2]]) ∧
    (∀ n ∈ sm.hashRing.nodes, n.isHealthy) ∧ ¬ Routed twoHashing sm [7] :=
  exists_unrouted (by decide) (by decide) (by decide) (by decide) [7]

end LimyeDB.Cluster
