/-
  THE MEMBERS OF THE CLUSTER (`Coordinator.AddMember`, `RemoveMember`): a table and a ring under one mutex,
  then the shard manager with its own ring under another.

  Main result: `members_agree`, that the table and the two rings hold the same nodes when all calls have
  returned.
-/
import LimyeDB.Lib.Runs
import LimyeDB.Cluster.Shards

namespace LimyeDB.Cluster.Members

open Go LimyeDB.Lib.Runs List

/-- `pending` are the calls between their two parts, with `true` for `AddMember`. -/
structure Coordinator where
  members : Finset Bytes
  hashRing : HashRing
  shardManager : ShardManager
  pending : List (Bytes × Bool)

inductive Step where
  | addMember (id : Bytes)
  | removeMember (id : Bytes)
  | shards (id : Bytes) (add : Bool) (nodes : List Node)

variable (K : Hashing)

/-- With the local node; a panic is `none`. -/
def newCoordinator (shardCount replicationFactor : ℤ) (id : Bytes) : Option Coordinator :=
  match (newShardManager shardCount replicationFactor).addNode K (activeNode id) [activeNode id] with
  | .value sm => some ⟨{id}, (newHashRing 150).addNode K (activeNode id), sm, []⟩
  | _ => none

def step (c : Coordinator) : Step → Option Coordinator
  | .addMember id => some { c with
      members := insert id c.members
      hashRing := c.hashRing.addNode K (activeNode id)
      pending := (id, true) :: c.pending }
  | .removeMember id => some (if id ∈ c.members then { c with
      members := c.members.erase id
      hashRing := c.hashRing.removeNode id
      pending := (id, false) :: c.pending } else c)
  | .shards id add nodes =>
    if (id, add) ∈ c.pending then
      match if add then c.shardManager.addNode K (activeNode id) nodes else c.shardManager.removeNode id nodes with
      | .value sm => some { c with shardManager := sm, pending := c.pending.erase (id, add) }
      | _ => none
    else none

/-- No member is added, and nobody of whom a call is pending is added or removed. -/
def Apart (c : Coordinator) : Step → Prop
  | .addMember id => id ∉ c.members ∧ id ∉ c.pending.map Prod.fst
  | .removeMember id => id ∈ c.members → id ∉ c.pending.map Prod.fst
  | .shards _ _ _ => True

instance (c : Coordinator) : ∀ l, Decidable (Apart c l)
  | .addMember id => inferInstanceAs (Decidable (id ∉ c.members ∧ id ∉ c.pending.map Prod.fst))
  | .removeMember id => inferInstanceAs (Decidable (id ∈ c.members → id ∉ c.pending.map Prod.fst))
  | .shards _ _ _ => isTrue trivial

structure Holds (hr : HashRing) (S : Bytes → Prop) : Prop where
  virtualNodes : hr.virtualNodes = 150
  nodes : ∀ id, id ∈ hr.nodes.map Node.id ↔ S id
  entries : ∀ id, S id → hr.ring.countP (·.nodeID = id) = 150
  others : ∀ id, ¬ S id → hr.ring.countP (·.nodeID = id) = 0

section Rings

variable {K} {hr : HashRing} {S T : Bytes → Prop} {id : Bytes}

theorem countP_addNode (x : Bytes) : (hr.addNode K (activeNode id)).ring.countP (·.nodeID = x) =
    hr.ring.countP (·.nodeID = x) + if id = x then hr.virtualNodes else 0 := by
  rw [HashRing.addNode, (K.perm _).countP_eq, countP_append, HashRing.entriesOf, countP_map]
  by_cases hx : id = x <;> simp [Function.comp_def, activeNode, hx]

theorem Holds.add (h : Holds hr S) (hid : ¬ S id) (hT : ∀ x, T x ↔ S x ∨ x = id) :
    Holds (hr.addNode K (activeNode id)) T := by
  refine ⟨h.virtualNodes, fun x => ?_, fun x hx => ?_, fun x hx => ?_⟩
  · rw [HashRing.addNode, map_append, mem_append, mem_ids_filter, h.nodes, hT]
    by_cases hx : x = id <;> simp [activeNode, hx]
  · rw [countP_addNode]
    rcases (hT x).mp hx with hS | rfl
    · rw [h.entries x hS, if_neg fun heq : id = x => hid (heq ▸ hS)]
    · rw [h.others x hid, if_pos rfl, h.virtualNodes]
  · obtain ⟨hS, hne⟩ := not_or.mp (mt (hT x).mpr hx)
    rw [countP_addNode, h.others x hS, if_neg (Ne.symm hne)]

theorem Holds.remove (h : Holds hr S) (hT : ∀ x, T x ↔ S x ∧ x ≠ id) : Holds (hr.removeNode id) T := by
  have hcount : ∀ x, (hr.removeNode id).ring.countP (·.nodeID = x) =
      if x = id then 0 else hr.ring.countP (·.nodeID = x) := by
    intro x
    rw [HashRing.removeNode, countP_filter]
    split_ifs with hx
    · simp [hx]
    · refine countP_congr fun e _ => ?_
      simp only [Bool.and_eq_true, decide_eq_true_eq, and_iff_left_iff_imp]
      exact fun he => he ▸ hx
  refine ⟨h.virtualNodes, fun x => mem_ids_filter.trans (by rw [h.nodes, hT]), fun x hx => ?_, fun x hx => ?_⟩
  · obtain ⟨hS, hne⟩ := (hT x).mp hx
    rw [hcount, if_neg hne, h.entries x hS]
  · rw [hcount]
    split_ifs with hne
    · rfl
    · exact h.others x fun hS => hx ((hT x).mpr ⟨hS, hne⟩)

theorem Holds.congr (h : Holds hr S) (hT : ∀ x, T x ↔ S x) : Holds hr T := by
  rwa [show T = S from funext fun x => propext (hT x)]

theorem rebalance_hashRing {sm sm' : ShardManager} {nodes : List Node} (h : sm.rebalanceShards nodes = .value sm') :
    sm'.hashRing = sm.hashRing := by
  unfold ShardManager.rebalanceShards at h
  split_ifs at h <;> cases h <;> rfl

end Rings

/-- The nodes of the shard manager, from those of the table and the calls that are pending. -/
def Coordinator.late (c : Coordinator) (id : Bytes) : Prop :=
  (id, false) ∈ c.pending ∨ id ∈ c.members ∧ (id, true) ∉ c.pending

/-- The shard manager lags behind by the calls that are pending, which are about different nodes. -/
structure Tracks (c : Coordinator) : Prop where
  nodup : (c.pending.map Prod.fst).Nodup
  side : ∀ p ∈ c.pending, p.2 = true ↔ p.1 ∈ c.members
  ring : Holds c.hashRing (· ∈ c.members)
  shards : Holds c.shardManager.hashRing c.late

variable {K} {c c' : Coordinator}

theorem Tracks.step {l : Step} (h : Tracks c) (hl : Apart c l) (hstep : step K c l = some c') : Tracks c' := by
  obtain ⟨hnodup, hside, hring, hshards⟩ := h
  cases l with
  | addMember id =>
    cases hstep
    obtain ⟨hnew, hfree⟩ := hl
    have hnone : ∀ b, (id, b) ∉ c.pending := fun b hb => hfree (mem_map_of_mem hb)
    refine ⟨nodup_cons.mpr ⟨hfree, hnodup⟩, ?_, hring.add hnew (by simp [or_comm]), hshards.congr fun x => ?_⟩
    · refine forall_mem_cons.mpr ⟨by simp, fun p hp => (hside p hp).trans ?_⟩
      have hne : p.1 ≠ id := fun heq => hfree (heq ▸ mem_map_of_mem hp)
      simp [hne]
    · by_cases hx : x = id <;> simp [Coordinator.late, hx, hnew, hnone]
  | removeMember id =>
    rw [Members.step] at hstep
    split_ifs at hstep with hold <;> cases hstep
    · have hfree := hl hold
      have hnone : ∀ b, (id, b) ∉ c.pending := fun b hb => hfree (mem_map_of_mem hb)
      refine ⟨nodup_cons.mpr ⟨hfree, hnodup⟩, ?_, hring.remove (by simp [and_comm]), hshards.congr fun x => ?_⟩
      · refine forall_mem_cons.mpr ⟨by simp, fun p hp => (hside p hp).trans ?_⟩
        have hne : p.1 ≠ id := fun heq => hfree (heq ▸ mem_map_of_mem hp)
        simp [hne]
      · by_cases hx : x = id <;> simp [Coordinator.late, hx, hold, hnone]
    · exact ⟨hnodup, hside, hring, hshards⟩
  | shards id add nodes =>
    obtain ⟨hpend, hstep⟩ := Option.ite_none_right_eq_some.mp hstep
    have hmem : ∀ p, p ∈ c.pending.erase (id, add) ↔ p ≠ (id, add) ∧ p ∈ c.pending :=
      fun p => (hnodup.of_map _).mem_erase_iff
    have honly : ∀ b, (id, b) ∈ c.pending → b = add := fun b hb =>
      congrArg Prod.snd (inj_on_of_nodup_map hnodup hb hpend rfl)
    have hmember := hside _ hpend
    split at hstep
    case h_2 => cases hstep
    case h_1 sm hsm =>
      cases hstep
      refine ⟨(erase_sublist.map _).nodup hnodup, fun p hp => hside p (mem_of_mem_erase hp), hring, ?_⟩
      cases add with
      | true =>
        rw [show sm.hashRing = c.shardManager.hashRing.addNode K (activeNode id) from rebalance_hashRing hsm]
        refine hshards.add ?_ fun x => ?_
        · rintro (hid | hid)
          · exact absurd (honly _ hid) (by decide)
          · exact hid.2 hpend
        · by_cases hx : x = id <;> simp [Coordinator.late, hmem, hx, hmember.mp rfl]
      | false =>
        rw [show sm.hashRing = c.shardManager.hashRing.removeNode id from rebalance_hashRing hsm]
        have hout : id ∉ c.members := fun hid => Bool.false_ne_true (hmember.mpr hid)
        refine hshards.remove fun x => ?_
        by_cases hx : x = id <;> simp [Coordinator.late, hmem, hx, hout]

/-- **When all calls have returned, the table and the two rings hold the same nodes, with 150 virtual nodes
    each**, if no member is added again and no two calls at a time are about one node. -/
theorem members_agree {shardCount replicationFactor : ℤ} {id : Bytes} {l : List Step}
    (hnew : newCoordinator K shardCount replicationFactor id = some c) (hl : Along (step K) Apart c l)
    (hrun : run (step K) c l = some c') (hdone : c'.pending = []) :
    Holds c'.hashRing (· ∈ c'.members) ∧ Holds c'.shardManager.hashRing (· ∈ c'.members) := by
  have hempty : Holds (newHashRing 150) fun _ => False := ⟨rfl, by simp [newHashRing], by simp, by simp [newHashRing]⟩
  have hc : Tracks c := by
    rw [newCoordinator] at hnew
    split at hnew <;> cases hnew
    case h_1 sm hsm =>
      refine ⟨nodup_nil, by simp, hempty.add not_false (by simp), ?_⟩
      rw [show sm.hashRing = (newHashRing 150).addNode K (activeNode id) from rebalance_hashRing hsm]
      exact hempty.add not_false (by simp [Coordinator.late])
  obtain ⟨-, -, hring, hshards⟩ := run_along (fun _ _ _ h hl hstep => h.step hl hstep) hc hl hrun
  exact ⟨hring, hshards.congr (by simp [Coordinator.late, hdone])⟩

/-- Node 2 joins; while it leaves again, node 3 joins, and the second parts come in the other order. -/
def overlapping : List Step :=
  [.addMember [2], .shards [2] true [activeNode [1], activeNode [2]], .removeMember [2], .addMember [3],
    .shards [3] true [activeNode [1], activeNode [2], activeNode [3]],
    .shards [2] false [activeNode [1], activeNode [3]]]

theorem members_agree_overlapping : ∃ c c', newCoordinator twoHashing 1 1 [1] = some c ∧
    run (step twoHashing) c overlapping = some c' ∧ c'.members = {[1], [3]} ∧
    Holds c'.hashRing (· ∈ c'.members) ∧ Holds c'.shardManager.hashRing (· ∈ c'.members) := by
  have hnew : newCoordinator twoHashing 1 1 [1] = some _ := rfl
  exact ⟨_, _, hnew, rfl, by decide, members_agree (K := twoHashing) hnew (l := overlapping) (by decide) rfl rfl⟩

/-- The local node is added once more. -/
theorem member_added_again : ∃ c c', newCoordinator twoHashing 1 1 [1] = some c ∧
    run (step twoHashing) c [.addMember [1], .shards [1] true [activeNode [1]]] = some c' ∧ c'.pending = [] ∧
    ¬ Holds c'.hashRing (· ∈ c'.members) := by
  refine ⟨_, _, rfl, rfl, rfl, fun h => ?_⟩
  have htwice := h.entries [1] (by decide)
  rw [countP_addNode, countP_addNode] at htwice
  cases htwice

end LimyeDB.Cluster.Members
