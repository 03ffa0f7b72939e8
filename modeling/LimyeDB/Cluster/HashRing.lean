/-
  THE HASH RING (pkg/cluster/cluster.go): virtual nodes sorted by their hashes, and the walk from the hash of
  a key once around.

  The hash is any function, and the sort any by hash: `sort.Slice` is not stable.

  Main results:
    * `getNode_stable`: a member that joins or leaves moves only its own keys
    * `getNodes_spec`: the nodes of a key, in the order of the ring
-/
import LimyeDB.Server.Manager

namespace LimyeDB.Cluster

open Go List

/-! ## The source -/

inductive NodeState where
  | active | inactive | suspect | leaving
  deriving DecidableEq, Repr

structure Node where
  id : Bytes
  state : NodeState
  deriving DecidableEq, Repr

def Node.isHealthy (n : Node) : Bool := n.state == .active

structure HashEntry where
  hash : ℕ
  nodeID : Bytes
  deriving DecidableEq, Repr

/-- The first four bytes of SHA-256, and `sort.Slice` by hash. -/
structure Hashing where
  hashKey : Bytes → ℕ
  sort : List HashEntry → List HashEntry
  perm : ∀ l, (sort l).Perm l
  sorted : ∀ l, (sort l).Pairwise fun a b => a.hash ≤ b.hash

structure HashRing where
  nodes : List Node
  ring : List HashEntry
  virtualNodes : ℕ
  deriving DecidableEq, Repr

def searchFrom (f : ℕ → Bool) (i j : ℕ) : ℕ :=
  if i < j then
    if f ((i + j) / 2) then searchFrom f i ((i + j) / 2) else searchFrom f ((i + j) / 2 + 1) j
  else i
termination_by j - i

def search (n : ℕ) (f : ℕ → Bool) : ℕ := searchFrom f 0 n

def newHashRing (virtualNodes : ℤ) : HashRing :=
  ⟨[], [], if virtualNodes < 1 then 150 else virtualNodes.toNat⟩

def virtualKey (id : Bytes) (i : ℕ) : Bytes := id ++ 45 :: Server.decimal i

namespace HashRing

variable (K : Hashing)

def lookup (hr : HashRing) (id : Bytes) : Option Node := hr.nodes.find? fun n => n.id == id

def entriesOf (hr : HashRing) (id : Bytes) : List HashEntry :=
  (range hr.virtualNodes).map fun i => ⟨K.hashKey (virtualKey id i), id⟩

def addNode (hr : HashRing) (node : Node) : HashRing :=
  { hr with
    nodes := hr.nodes.filter (fun n => n.id ≠ node.id) ++ [node]
    ring := K.sort (hr.ring ++ hr.entriesOf K node.id) }

def removeNode (hr : HashRing) (id : Bytes) : HashRing :=
  { hr with
    nodes := hr.nodes.filter fun n => n.id ≠ id
    ring := hr.ring.filter fun e => e.nodeID ≠ id }

/-- The first entry at or after the hash, or the first of all. -/
def startIndex (hr : HashRing) (hash : ℕ) : ℕ :=
  let idx := search hr.ring.length fun i => match hr.ring[i]? with
    | some e => hash ≤ e.hash
    | none => false
  if hr.ring.length ≤ idx then 0 else idx

def getNode (hr : HashRing) (key : Bytes) : Option Node :=
  match hr.ring[hr.startIndex (K.hashKey key)]? with
  | none => none
  | some e => hr.lookup e.nodeID

def walk (hr : HashRing) (hash : ℕ) : List HashEntry := hr.ring.rotate (hr.startIndex hash)

def collect (hr : HashRing) (n : ℤ) : List HashEntry → List Bytes → List Node → List Node
  | [], _, taken => taken
  | e :: es, seen, taken =>
    if (taken.length : ℤ) < n then
      if e.nodeID ∈ seen then collect hr n es seen taken
      else match (hr.lookup e.nodeID).filter Node.isHealthy with
        | some node => collect hr n es (e.nodeID :: seen) (taken ++ [node])
        | none => collect hr n es (e.nodeID :: seen) taken
    else taken

/-- `make([]*Node, 0, n)` takes eight bytes for each node that there could be. -/
def getNodes (hr : HashRing) (key : Bytes) (n : ℤ) : Outcome Empty (List Node) :=
  if hr.ring = [] ∨ n ≤ 0 then .value []
  else if Snapshot.maxAlloc < 8 * n then .panic
  else .value (collect hr n (hr.walk (K.hashKey key)) [] [])

/-- What `GetNodes` returns if its slice can be made. -/
def picked (hr : HashRing) (key : Bytes) (n : ℤ) : List Node :=
  hr.collect (max n 0) (hr.walk (K.hashKey key)) [] []

end HashRing

/-! ## The start of the walk -/

theorem searchFrom_eq {f : ℕ → Bool} {i j k : ℕ} (hi : i ≤ k) (hj : k ≤ j)
    (hlow : ∀ x < k, f x = false) (hhigh : ∀ x, k ≤ x → x < j → f x = true) :
    searchFrom f i j = k := by
  fun_induction searchFrom f i j with
  | case1 i j hlt hmid ih =>
    have hk : k ≤ (i + j) / 2 := by
      by_contra hk
      rw [hlow _ (by omega)] at hmid
      cases hmid
    exact ih hi hk fun x hx hxj => hhigh x hx (by omega)
  | case2 i j hlt hmid ih =>
    have hk : (i + j) / 2 < k := by
      by_contra hk
      exact hmid (hhigh _ (by omega) (by omega))
    exact ih hk hj hhigh
  | case3 i j hge => omega

def around (hash : ℕ) (ring : List HashEntry) : List HashEntry :=
  (ring.filter fun e => hash ≤ e.hash) ++ ring.filter fun e => e.hash < hash

theorem sorted_split {hash : ℕ} {ring : List HashEntry} (h : ring.Pairwise fun a b => a.hash ≤ b.hash) :
    ring = (ring.filter fun e => e.hash < hash) ++ ring.filter fun e => hash ≤ e.hash := by
  induction ring with
  | nil => rfl
  | cons e ring ih =>
    obtain ⟨hfirst, hrest⟩ := pairwise_cons.mp h
    by_cases he : e.hash < hash
    · simp only [filter_cons, he, Nat.not_le.mpr he, decide_true, decide_false, if_true,
        Bool.false_eq_true, if_false, cons_append]
      rw [← ih hrest]
    · have hall : ∀ x ∈ e :: ring, hash ≤ x.hash :=
        forall_mem_cons.mpr ⟨Nat.not_lt.mp he, fun x hx => (Nat.not_lt.mp he).trans (hfirst x hx)⟩
      rw [filter_eq_nil_iff.mpr fun x hx => by simpa using hall x hx,
        filter_eq_self.mpr fun x hx => by simpa using hall x hx, nil_append]

namespace HashRing

theorem walk_eq {hr : HashRing} (h : hr.ring.Pairwise fun a b => a.hash ≤ b.hash) (hash : ℕ) :
    hr.walk hash = around hash hr.ring := by
  obtain ⟨A, B, hA, hB, hring⟩ : ∃ A B, A = hr.ring.filter (fun e => e.hash < hash) ∧
      B = hr.ring.filter (fun e => hash ≤ e.hash) ∧ hr.ring = A ++ B := ⟨_, _, rfl, rfl, sorted_split h⟩
  have hidx : search hr.ring.length (fun i => match hr.ring[i]? with
      | some e => decide (hash ≤ e.hash)
      | none => false) = A.length := by
    refine searchFrom_eq (Nat.zero_le _) (by rw [hring]; simp) (fun x hx => ?_) (fun x hx hlt => ?_)
    · have hmem : A[x] ∈ hr.ring.filter (fun e => e.hash < hash) := hA ▸ getElem_mem hx
      rw [hring, getElem?_append_left hx, getElem?_eq_getElem hx]
      simpa using (mem_filter.mp hmem).2
    · rw [hring, length_append] at hlt
      have hx' : x - A.length < B.length := by omega
      have hmem : B[x - A.length] ∈ hr.ring.filter (fun e => hash ≤ e.hash) := hB ▸ getElem_mem hx'
      rw [hring, getElem?_append_right hx, getElem?_eq_getElem hx']
      simpa using (mem_filter.mp hmem).2
  rw [walk, startIndex, hidx, around, ← hA, ← hB]
  split_ifs with hend
  · have hBnil : B = [] := by
      rw [hring, length_append] at hend
      exact length_eq_zero_iff.mp (by omega)
    rw [rotate_zero, hring, hBnil, append_nil, nil_append]
  · rw [hring, rotate_append_length_eq]

theorem getNode_eq (K : Hashing) (hr : HashRing) (key : Bytes) :
    hr.getNode K key = (hr.walk (K.hashKey key)).head?.bind fun e => hr.lookup e.nodeID := by
  have hhead : (hr.walk (K.hashKey key)).head? = hr.ring[hr.startIndex (K.hashKey key)]? := by
    by_cases hring : hr.ring = []
    · simp [walk, hring]
    · refine head?_rotate ?_
      have := length_pos_iff.mpr hring
      unfold startIndex
      simp only
      split_ifs <;> omega
  rw [getNode, hhead]
  cases hr.ring[hr.startIndex (K.hashKey key)]? <;> rfl

end HashRing

/-! ## Rings -/

/-- The rings that calls make. The nodes are pointers, so their states change between the calls. -/
inductive Built (K : Hashing) : HashRing → Prop where
  | new (virtualNodes : ℤ) : Built K (newHashRing virtualNodes)
  | add {hr} (h : Built K hr) (node : Node) : Built K (hr.addNode K node)
  | remove {hr} (h : Built K hr) (id : Bytes) : Built K (hr.removeNode id)
  | change {hr} (h : Built K hr) (state : Node → NodeState) :
    Built K { hr with nodes := hr.nodes.map fun n => { n with state := state n } }

/-- A sorted ring with the virtual nodes of just the members. -/
structure Placed (hr : HashRing) : Prop where
  sorted : hr.ring.Pairwise fun a b => a.hash ≤ b.hash
  nodup : (hr.nodes.map Node.id).Nodup
  members : ∀ id, id ∈ hr.ring.map HashEntry.nodeID ↔ id ∈ hr.nodes.map Node.id
  pos : 0 < hr.virtualNodes

section Rings

variable {K : Hashing} {hr : HashRing} {node : Node} {id : Bytes}

theorem mem_entriesOf {e : HashEntry} (h : e ∈ hr.entriesOf K id) : e.nodeID = id := by
  obtain ⟨i, -, rfl⟩ := mem_map.mp h
  rfl

theorem mem_ids_filter {x : Bytes} :
    x ∈ (hr.nodes.filter fun n => n.id ≠ id).map Node.id ↔ x ∈ hr.nodes.map Node.id ∧ x ≠ id := by
  simp only [mem_map, mem_filter, decide_eq_true_eq]
  constructor
  · intro ⟨n, ⟨hn, hne⟩, hx⟩
    exact ⟨⟨n, hn, hx⟩, hx ▸ hne⟩
  · intro ⟨⟨n, hn, hx⟩, hne⟩
    exact ⟨n, ⟨hn, hx ▸ hne⟩, hx⟩

variable (h : Placed hr)
include h

theorem Placed.add (node : Node) : Placed (hr.addNode K node) := by
  refine ⟨K.sorted _, ?_, fun id => ?_, h.pos⟩
  · rw [HashRing.addNode, map_append, map_singleton]
    refine Nodup.append ((filter_sublist.map Node.id).nodup h.nodup)
      (nodup_singleton _) ?_
    intro x hx hnode
    exact (mem_ids_filter.mp hx).2 (mem_singleton.mp hnode)
  · rw [HashRing.addNode, ((K.perm _).map HashEntry.nodeID).mem_iff, map_append, mem_append,
      h.members, map_append, mem_append, map_singleton, mem_singleton, mem_ids_filter]
    have hnew : id ∈ (hr.entriesOf K node.id).map HashEntry.nodeID ↔ id = node.id := by
      constructor
      · intro hid
        obtain ⟨e, he, rfl⟩ := mem_map.mp hid
        exact mem_entriesOf he
      · intro hid
        subst hid
        exact mem_map.mpr ⟨_, mem_map.mpr ⟨0, mem_range.mpr h.pos, rfl⟩, rfl⟩
    tauto

theorem Placed.remove (id : Bytes) : Placed (hr.removeNode id) := by
  refine ⟨h.sorted.filter _, (filter_sublist.map Node.id).nodup h.nodup, fun x => ?_, h.pos⟩
  rw [HashRing.removeNode, mem_ids_filter, ← h.members]
  simp only [mem_map, mem_filter, decide_eq_true_eq]
  constructor
  · intro ⟨e, ⟨he, hne⟩, hx⟩
    exact ⟨⟨e, he, hx⟩, hx ▸ hne⟩
  · intro ⟨⟨e, he, hx⟩, hne⟩
    exact ⟨e, ⟨he, hx ▸ hne⟩, hx⟩

omit h in
theorem Built.placed (h : Built K hr) : Placed hr := by
  induction h with
  | new virtualNodes =>
    refine ⟨Pairwise.nil, nodup_nil, by simp [newHashRing], ?_⟩
    unfold newHashRing
    simp only
    split_ifs <;> omega
  | add _ node ih => exact ih.add node
  | remove _ id ih => exact ih.remove id
  | change _ state ih => exact ⟨ih.sorted, by simpa [Function.comp_def] using ih.nodup, by simpa using ih.members, ih.pos⟩

theorem lookup_eq_some : hr.lookup id = some node ↔ node ∈ hr.nodes ∧ node.id = id := by
  unfold HashRing.lookup
  constructor
  · intro hfind
    exact ⟨mem_of_find?_eq_some hfind, by simpa using find?_some hfind⟩
  · intro ⟨hmem, hid⟩
    obtain ⟨other, hfind⟩ : ∃ other, hr.nodes.find? (fun n => n.id == id) = some other :=
      Option.isSome_iff_exists.mp (find?_isSome.mpr ⟨node, hmem, by simpa using hid⟩)
    have hother : other.id = id := by simpa using find?_some hfind
    rw [hfind, inj_on_of_nodup_map h.nodup (mem_of_find?_eq_some hfind) hmem
      (hother.trans hid.symm)]

theorem lookup_add_self : (hr.addNode K node).lookup node.id = some node :=
  (lookup_eq_some (h.add node)).mpr ⟨by simp [HashRing.addNode], rfl⟩

theorem lookup_add_other (hne : id ≠ node.id) : (hr.addNode K node).lookup id = hr.lookup id := by
  refine Option.ext fun n => ?_
  rw [lookup_eq_some (h.add node), lookup_eq_some h]
  simp only [HashRing.addNode, mem_append, mem_filter, decide_eq_true_eq, mem_singleton]
  constructor
  · intro ⟨hn, hid⟩
    rcases hn with ⟨hn, -⟩ | rfl
    · exact ⟨hn, hid⟩
    · exact absurd hid.symm hne
  · intro ⟨hn, hid⟩
    exact ⟨.inl ⟨hn, hid ▸ hne⟩, hid⟩

theorem lookup_remove {x : Bytes} (hne : id ≠ x) : (hr.removeNode x).lookup id = hr.lookup id := by
  refine Option.ext fun n => ?_
  rw [lookup_eq_some (h.remove x), lookup_eq_some h]
  simp only [HashRing.removeNode, mem_filter, decide_eq_true_eq]
  constructor
  · intro ⟨⟨hn, _⟩, hid⟩
    exact ⟨hn, hid⟩
  · intro ⟨hn, hid⟩
    exact ⟨⟨hn, hid ▸ hne⟩, hid⟩

end Rings

/-! ## The node of a key -/

def Before (h a b : ℕ) : Prop := (h ≤ a ∧ b < h) ∨ ((h ≤ a ↔ h ≤ b) ∧ a ≤ b)

structure IsFirst (h : ℕ) (ring : List HashEntry) (e : HashEntry) : Prop where
  mem : e ∈ ring
  before : ∀ e' ∈ ring, Before h e.hash e'.hash

section First

variable {K : Hashing} {hr hr' : HashRing} {h : ℕ} {ring ring' : List HashEntry} {e e' : HashEntry}

theorem IsFirst.mono (hfirst : IsFirst h ring e) (hsub : ring' ⊆ ring) (hmem : e ∈ ring') :
    IsFirst h ring' e := ⟨hmem, fun e' he' => hfirst.before e' (hsub he')⟩

theorem IsFirst.unique (hdistinct : (ring.map HashEntry.hash).Nodup) (hfirst : IsFirst h ring e)
    (hfirst' : IsFirst h ring e') : e = e' := by
  have hone := hfirst.before e' hfirst'.mem
  have htwo := hfirst'.before e hfirst.mem
  unfold Before at hone htwo
  exact inj_on_of_nodup_map hdistinct hfirst.mem hfirst'.mem (by omega)

theorem head_around (hsorted : ring.Pairwise fun a b => a.hash ≤ b.hash)
    (hhead : (around h ring).head? = some e) : IsFirst h ring e := by
  have hmem : ∀ x, x ∈ around h ring ↔ x ∈ ring := fun x => by
    simp only [around, mem_append, mem_filter, decide_eq_true_eq, ← and_or_left]
    exact and_iff_left (Nat.lt_or_ge x.hash h).symm
  have hpair : (around h ring).Pairwise fun a b => Before h a.hash b.hash := by
    refine pairwise_append.mpr ⟨?_, ?_, fun a ha b hb => .inl ?_⟩
    · refine (hsorted.filter _).imp_of_mem fun ha hb hab => .inr ⟨?_, hab⟩
      exact iff_of_true (by simpa using (mem_filter.mp ha).2) (by simpa using (mem_filter.mp hb).2)
    · refine (hsorted.filter _).imp_of_mem fun ha hb hab => .inr ⟨?_, hab⟩
      exact iff_of_false (by simpa using (mem_filter.mp ha).2) (by simpa using (mem_filter.mp hb).2)
    · exact ⟨by simpa using (mem_filter.mp ha).2, by simpa using (mem_filter.mp hb).2⟩
  obtain ⟨rest, hcons⟩ : ∃ rest, around h ring = e :: rest := by
    cases haround : around h ring with
    | nil => rw [haround] at hhead; cases hhead
    | cons x rest =>
      rw [haround] at hhead
      cases hhead
      exact ⟨rest, rfl⟩
  rw [hcons] at hpair
  refine ⟨(hmem e).mp (hcons ▸ mem_cons_self), fun e' he' => ?_⟩
  rcases mem_cons.mp (hcons ▸ (hmem e').mpr he') with rfl | hrest
  · exact .inr ⟨Iff.rfl, le_refl _⟩
  · exact (pairwise_cons.mp hpair).1 e' hrest

variable (hp : Placed hr)
include hp

theorem getNode_of_mem (hmem : e ∈ hr.ring) (key : Bytes) :
    ∃ first, IsFirst (K.hashKey key) hr.ring first ∧ hr.getNode K key = hr.lookup first.nodeID := by
  have hne : hr.walk (K.hashKey key) ≠ [] := fun hnil =>
    ne_nil_of_mem hmem (rotate_eq_nil_iff.mp hnil)
  obtain ⟨first, hhead⟩ := Option.isSome_iff_exists.mp (isSome_head?.mpr hne)
  refine ⟨first, head_around hp.sorted (by rw [← HashRing.walk_eq hp.sorted, hhead]), ?_⟩
  rw [HashRing.getNode_eq, hhead]
  rfl

omit hp in
theorem getNode_empty (hring : hr.ring = []) (key : Bytes) : hr.getNode K key = none := by
  simp [HashRing.getNode_eq, HashRing.walk, hring]

variable (hdistinct : (hr.ring.map HashEntry.hash).Nodup)
include hdistinct

theorem getNode_of_first {key : Bytes}
    (hfirst : IsFirst (K.hashKey key) hr.ring e) : hr.getNode K key = hr.lookup e.nodeID := by
  obtain ⟨first, hfirst', hget⟩ := getNode_of_mem hp hfirst.mem key
  rw [hget, hfirst'.unique hdistinct hfirst]

omit hp hdistinct in
theorem mem_ring_add {node : Node} {x : HashEntry} :
    x ∈ (hr.addNode K node).ring ↔ x ∈ hr.ring ∨ x ∈ hr.entriesOf K node.id :=
  ((K.perm _).mem_iff).trans mem_append

theorem getNode_add (node : Node)
    {key : Bytes} (hmoved : (hr.addNode K node).getNode K key ≠ hr.getNode K key) :
    (hr.addNode K node).getNode K key = some node := by
  have hvirtual : (⟨K.hashKey (virtualKey node.id 0), node.id⟩ : HashEntry) ∈ (hr.addNode K node).ring :=
    mem_ring_add.mpr (.inr (mem_map.mpr ⟨0, mem_range.mpr hp.pos, rfl⟩))
  obtain ⟨e, hfirst, hget⟩ := getNode_of_mem (hp.add node) hvirtual key
  rw [hget] at hmoved ⊢
  by_cases hid : e.nodeID = node.id
  · rw [hid, lookup_add_self hp]
  · have hold : e ∈ hr.ring :=
      (mem_ring_add.mp hfirst.mem).resolve_right fun he => hid (mem_entriesOf he)
    have hfirst' := hfirst.mono (fun x hx => mem_ring_add.mpr (.inl hx)) hold
    rw [lookup_add_other hp hid, getNode_of_first hp hdistinct hfirst'] at hmoved
    exact absurd rfl hmoved

theorem getNode_remove {id key : Bytes}
    (hmoved : (hr.removeNode id).getNode K key ≠ hr.getNode K key) :
    ∃ node, hr.getNode K key = some node ∧ node.id = id := by
  by_cases hring : hr.ring = []
  · rw [getNode_empty hring, getNode_empty (by simp [HashRing.removeNode, hring])] at hmoved
    exact absurd rfl hmoved
  · obtain ⟨x, hx⟩ := exists_mem_of_ne_nil _ hring
    obtain ⟨e, hfirst, hget⟩ := getNode_of_mem hp hx key
    by_cases hid : e.nodeID = id
    · obtain ⟨node, hnode, heq⟩ := mem_map.mp ((hp.members _).mp (mem_map_of_mem hfirst.mem))
      exact ⟨node, hget.trans ((lookup_eq_some hp).mpr ⟨hnode, heq⟩), heq.trans hid⟩
    · have hsub : (hr.removeNode id).ring.Sublist hr.ring := filter_sublist
      have hfirst' := hfirst.mono hsub.subset (mem_filter.mpr ⟨hfirst.mem, by simpa using hid⟩)
      rw [getNode_of_first (hp.remove id) ((hsub.map _).nodup hdistinct) hfirst', lookup_remove hp hid,
        hget] at hmoved
      exact absurd rfl hmoved

theorem getNode_add_remove {node : Node} (hnew : node.id ∉ hr.nodes.map Node.id) (key : Bytes) :
    ((hr.addNode K node).removeNode node.id).getNode K key = hr.getNode K key := by
  have hold : ∀ x ∈ hr.ring, x.nodeID ≠ node.id := fun x hx hid =>
    hnew ((hp.members _).mp (hid ▸ mem_map_of_mem hx))
  have hsame : ∀ x, x ∈ ((hr.addNode K node).removeNode node.id).ring ↔ x ∈ hr.ring := fun x => by
    rw [HashRing.removeNode, mem_filter, mem_ring_add, decide_eq_true_eq]
    constructor
    · intro ⟨hx, hne⟩
      exact hx.resolve_right fun hx => hne (mem_entriesOf hx)
    · intro hx
      exact ⟨.inl hx, hold x hx⟩
  by_cases hring : hr.ring = []
  · have hring' : ((hr.addNode K node).removeNode node.id).ring = [] :=
      eq_nil_iff_forall_not_mem.mpr fun x hx => by simpa [hring] using (hsame x).mp hx
    rw [getNode_empty hring, getNode_empty hring']
  · obtain ⟨x, hx⟩ := exists_mem_of_ne_nil _ hring
    obtain ⟨e, hfirst, hget⟩ :=
      getNode_of_mem ((hp.add node).remove node.id) ((hsame x).mpr hx) key
    have hfirst' := hfirst.mono (fun x hx => (hsame x).mpr hx) ((hsame e).mp hfirst.mem)
    have hid := hold e hfirst'.mem
    rw [hget, getNode_of_first hp hdistinct hfirst', lookup_remove (hp.add node) hid,
      lookup_add_other hp hid]

end First

/-- **A node that is added takes keys for itself only, one that is removed gives up only its own, and one that
    comes and goes leaves every key where it was.** -/
theorem getNode_stable (K : Hashing) {hr : HashRing} (h : Built K hr)
    (hdistinct : (hr.ring.map HashEntry.hash).Nodup) (key : Bytes) :
    (∀ node, node.id ∉ hr.nodes.map Node.id → (hr.addNode K node).getNode K key ≠ hr.getNode K key →
        (hr.addNode K node).getNode K key = some node) ∧
      (∀ id, (hr.removeNode id).getNode K key ≠ hr.getNode K key →
        ∃ node, hr.getNode K key = some node ∧ node.id = id) ∧
      ∀ node, node.id ∉ hr.nodes.map Node.id →
        ((hr.addNode K node).removeNode node.id).getNode K key = hr.getNode K key :=
  ⟨fun node _ => getNode_add h.placed hdistinct node, fun _ => getNode_remove h.placed hdistinct,
    fun _ hnew => getNode_add_remove h.placed hdistinct hnew key⟩

def twoHashing : Hashing where
  hashKey b := b.length
  sort l := l.mergeSort fun a b => a.hash ≤ b.hash
  perm l := mergeSort_perm l _
  sorted l := by
    have hsorted : (l.mergeSort fun a b => a.hash ≤ b.hash).Pairwise
        fun a b => decide (a.hash ≤ b.hash) = true := pairwise_mergeSort
      (fun a b c hab hbc => by simp only [decide_eq_true_eq] at *; omega)
      (fun a b => by simp only [Bool.or_eq_true, decide_eq_true_eq]; omega) l
    exact hsorted.imp fun hab => by simpa using hab

/-- Two members, each with one virtual node. -/
def twoNodes : HashRing :=
  ((newHashRing 1).addNode twoHashing ⟨[1], .active⟩).addNode twoHashing ⟨[2, 2], .active⟩

/-- A third member takes the key for itself, if it takes it, and gives it back when it leaves. -/
theorem getNode_stable_two : Built twoHashing twoNodes ∧
    ((twoNodes.addNode twoHashing ⟨[3, 3, 3], .active⟩).getNode twoHashing [7, 7, 7, 7, 7] ≠
        twoNodes.getNode twoHashing [7, 7, 7, 7, 7] →
      (twoNodes.addNode twoHashing ⟨[3, 3, 3], .active⟩).getNode twoHashing [7, 7, 7, 7, 7] =
        some ⟨[3, 3, 3], .active⟩) ∧
    ((twoNodes.addNode twoHashing ⟨[3, 3, 3], .active⟩).removeNode [3, 3, 3]).getNode twoHashing [7, 7, 7, 7, 7] =
      twoNodes.getNode twoHashing [7, 7, 7, 7, 7] := by
  have hbuilt : Built twoHashing twoNodes := ((Built.new 1).add _).add _
  have hperm : twoNodes.ring.Perm [⟨3, [1]⟩, ⟨4, [2, 2]⟩] :=
    (twoHashing.perm _).trans ((twoHashing.perm _).append_right _)
  have hdistinct : (twoNodes.ring.map HashEntry.hash).Nodup :=
    ((hperm.map HashEntry.hash).nodup_iff).mpr (by decide)
  have hstable := getNode_stable twoHashing hbuilt hdistinct [7, 7, 7, 7, 7]
  exact ⟨hbuilt, hstable.1 _ (by decide), hstable.2.2 ⟨[3, 3, 3], .active⟩ (by decide)⟩

/-! ## The nodes of a key -/

section Collect

variable {hr : HashRing} {walk before after : List HashEntry} {seen : List Bytes} {taken : List Node} {n : ℤ}

def place (walk : List HashEntry) (id : Bytes) : ℕ := (walk.map HashEntry.nodeID).idxOf id

/-- What the loop has after the entries `before` of the walk. -/
structure Collected (hr : HashRing) (walk before : List HashEntry) (seen : List Bytes)
    (taken : List Node) : Prop where
  seen : ∀ id, id ∈ seen ↔ id ∈ before.map HashEntry.nodeID
  sound : ∀ node ∈ taken, node ∈ hr.nodes ∧ node.isHealthy = true ∧
    node.id ∈ before.map HashEntry.nodeID
  ordered : taken.Pairwise fun a b => place walk a.id < place walk b.id
  complete : ∀ node ∈ hr.nodes, node.isHealthy = true → node.id ∈ before.map HashEntry.nodeID →
    node ∈ taken

theorem place_lt {id : Bytes} (hid : id ∈ before.map HashEntry.nodeID) :
    place (before ++ after) id < before.length := by
  rw [place, map_append, idxOf_append_of_mem hid]
  simpa using idxOf_lt_length_iff.mpr hid

theorem le_place {id : Bytes} (hid : id ∉ before.map HashEntry.nodeID) :
    before.length ≤ place (before ++ after) id := by
  rw [place, map_append, idxOf_append_of_notMem hid, length_map]
  exact Nat.le_add_right _ _

section Step

variable {e : HashEntry} {node : Node}

theorem ids_snoc {id : Bytes} : id ∈ (before ++ [e]).map HashEntry.nodeID ↔
    id ∈ before.map HashEntry.nodeID ∨ id = e.nodeID := by simp

section

variable (hc : Collected hr walk before seen taken)
include hc

theorem Collected.again (hseen : e.nodeID ∈ seen) :
    Collected hr walk (before ++ [e]) seen taken := by
  have hsame : ∀ id, id ∈ (before ++ [e]).map HashEntry.nodeID ↔ id ∈ before.map HashEntry.nodeID :=
    fun id => ids_snoc.trans (or_iff_left_of_imp fun h => h ▸ (hc.seen _).mp hseen)
  refine ⟨fun id => (hc.seen id).trans (hsame id).symm, fun node hnode => ?_, hc.ordered,
    fun node hnode hok hid => hc.complete node hnode hok ((hsame _).mp hid)⟩
  obtain ⟨hmem, hok, hid⟩ := hc.sound node hnode
  exact ⟨hmem, hok, (hsame _).mpr hid⟩

theorem Collected.seen_snoc (id : Bytes) :
    id ∈ e.nodeID :: seen ↔ id ∈ (before ++ [e]).map HashEntry.nodeID := by
  rw [mem_cons, ids_snoc, hc.seen, or_comm]

theorem Collected.sound_snoc {a : Node} (ha : a ∈ taken) :
    a ∈ hr.nodes ∧ a.isHealthy = true ∧ a.id ∈ (before ++ [e]).map HashEntry.nodeID :=
  (hc.sound a ha).imp_right (And.imp_right fun hid => ids_snoc.mpr (.inl hid))

end

theorem Collected.skip (hp : Placed hr) (hc : Collected hr walk before seen taken)
    (hnone : (hr.lookup e.nodeID).filter Node.isHealthy = none) :
    Collected hr walk (before ++ [e]) (e.nodeID :: seen) taken := by
  refine ⟨hc.seen_snoc, fun a ha => hc.sound_snoc ha, hc.ordered, fun a ha hok hid => ?_⟩
  rcases ids_snoc.mp hid with hid | hid
  · exact hc.complete a ha hok hid
  · rw [(lookup_eq_some hp).mpr ⟨ha, hid⟩] at hnone
    simp [Option.filter, hok] at hnone

theorem Collected.take (hp : Placed hr) (hc : Collected hr (before ++ e :: after) before seen taken)
    (hseen : e.nodeID ∉ seen) (hfound : (hr.lookup e.nodeID).filter Node.isHealthy = some node) :
    Collected hr (before ++ e :: after) (before ++ [e]) (e.nodeID :: seen) (taken ++ [node]) := by
  obtain ⟨hlook, hok⟩ := Option.filter_eq_some_iff.mp hfound
  obtain ⟨hmem, hid⟩ := (lookup_eq_some hp).mp hlook
  have hnew : node.id ∉ before.map HashEntry.nodeID := fun hin => hseen ((hc.seen _).mpr (hid ▸ hin))
  refine ⟨hc.seen_snoc, forall_mem_append.mpr ⟨fun a ha => hc.sound_snoc ha, forall_mem_singleton.mpr ?_⟩, ?_,
    fun a ha hoka hida => ?_⟩
  · exact ⟨hmem, hok, ids_snoc.mpr (.inr hid)⟩
  · refine pairwise_append.mpr ⟨hc.ordered, pairwise_singleton _ _, fun a ha b hb => ?_⟩
    rw [mem_singleton.mp hb]
    exact (place_lt (hc.sound a ha).2.2).trans_le (le_place hnew)
  · rcases ids_snoc.mp hida with hida | hida
    · exact mem_append_left _ (hc.complete a ha hoka hida)
    · cases hlook.symm.trans ((lookup_eq_some hp).mpr ⟨ha, hida⟩)
      exact mem_append_right _ (mem_singleton_self _)

end Step

theorem collect_cons (e : HashEntry) (es : List HashEntry) : hr.collect n (e :: es) seen taken =
    if (taken.length : ℤ) < n then
      if e.nodeID ∈ seen then hr.collect n es seen taken
      else match (hr.lookup e.nodeID).filter Node.isHealthy with
        | some node => hr.collect n es (e.nodeID :: seen) (taken ++ [node])
        | none => hr.collect n es (e.nodeID :: seen) taken
    else taken := rfl

theorem collect_spec (hp : Placed hr) (hc : Collected hr (before ++ after) before seen taken)
    (hle : (taken.length : ℤ) ≤ n) : ∃ before' after' seen', before ++ after = before' ++ after' ∧
      Collected hr (before ++ after) before' seen' (hr.collect n after seen taken) ∧
      ((hr.collect n after seen taken).length : ℤ) ≤ n ∧
      (after' = [] ∨ ((hr.collect n after seen taken).length : ℤ) = n) := by
  induction after generalizing before seen taken with
  | nil => exact ⟨before, [], seen, rfl, hc, hle, .inl rfl⟩
  | cons e es ih =>
    have hsplit : before ++ e :: es = (before ++ [e]) ++ es := by simp
    rw [collect_cons]
    split_ifs with hmore hseen
    · have hc' := hc.again hseen
      rw [hsplit] at hc' ⊢
      exact ih hc' hle
    · cases hfound : (hr.lookup e.nodeID).filter Node.isHealthy with
      | some node =>
        have hc' := hc.take hp hseen hfound
        rw [hsplit] at hc' ⊢
        refine ih hc' ?_
        rw [length_append, length_singleton]
        push_cast
        omega
      | none =>
        have hc' := hc.skip hp hfound
        rw [hsplit] at hc' ⊢
        exact ih hc' hle
    · exact ⟨before, e :: es, seen, rfl, hc, hle, .inr (by omega)⟩

variable {K : Hashing}

theorem getNodes_eq (hfits : hr.ring = [] ∨ 8 * n ≤ Snapshot.maxAlloc) (key : Bytes) :
    hr.getNodes K key n = .value (hr.picked K key n) := by
  rw [HashRing.getNodes, HashRing.picked]
  split_ifs with hnone hmake
  · rcases hnone with hring | hn
    · rw [HashRing.walk, hring]
      rfl
    · cases hr.walk (K.hashKey key) with
      | nil => rfl
      | cons e es => simp [collect_cons, hn]
  · exact absurd (hfits.resolve_left fun hring => hnone (.inl hring)) (not_le.mpr hmake)
  · rw [max_eq_left (by omega)]

theorem picked_collected (hp : Placed hr) (key : Bytes) (n : ℤ) : ∃ before after seen,
    hr.walk (K.hashKey key) = before ++ after ∧
    Collected hr (hr.walk (K.hashKey key)) before seen (hr.picked K key n) ∧
    ((hr.picked K key n).length : ℤ) ≤ max n 0 ∧
    (after = [] ∨ ((hr.picked K key n).length : ℤ) = max n 0) := by
  have hstart : Collected hr ([] ++ hr.walk (K.hashKey key)) [] [] [] :=
    ⟨by simp, by simp, Pairwise.nil, by simp⟩
  exact collect_spec hp hstart (by simp)

theorem picked_found (hp : Placed hr) (key : Bytes) (n : ℤ) :
    (∀ node ∈ hr.picked K key n, node ∈ hr.nodes ∧ node.isHealthy = true) ∧
      ((hr.picked K key n).map Node.id).Nodup ∧
      (hr.picked K key n).length = min n.toNat (hr.nodes.filter Node.isHealthy).length := by
  obtain ⟨before, after, seen, hsplit, hc, hle, hstop⟩ := picked_collected hp key n
  have hsound : ∀ node ∈ hr.picked K key n, node ∈ hr.nodes ∧ node.isHealthy = true :=
    fun a ha => ⟨(hc.sound a ha).1, (hc.sound a ha).2.1⟩
  have hids : ((hr.picked K key n).map Node.id).Nodup :=
    pairwise_map.mpr (hc.ordered.imp fun hlt heq => by rw [heq] at hlt; exact lt_irrefl _ hlt)
  have hbound := (hids.of_map _).length_le_of_subset fun a ha => mem_filter.mpr (hsound a ha)
  refine ⟨hsound, hids, ?_⟩
  rcases hstop with hend | hfull
  · -- every member has an entry in the walk
    have hall : (hr.nodes.filter Node.isHealthy).length ≤ (hr.picked K key n).length := by
      refine (Nodup.filter _ (hp.nodup.of_map _)).length_le_of_subset fun a ha => ?_
      obtain ⟨hmem, hok⟩ := mem_filter.mp ha
      refine hc.complete a hmem hok ?_
      rw [hend, append_nil] at hsplit
      obtain ⟨e, he, heq⟩ := mem_map.mp ((hp.members a.id).mpr (mem_map_of_mem hmem))
      exact mem_map.mpr ⟨e, hsplit ▸ mem_rotate.mpr he, heq⟩
    omega
  · omega

end Collect

/-- **`GetNodes` returns the healthy members in the order of their first virtual nodes from the hash on**, as
    many as there are up to `n`, if the slice for `n` nodes can be made. -/
theorem getNodes_spec (K : Hashing) {hr : HashRing} (h : Built K hr) (key : Bytes) {n : ℤ}
    (hfits : hr.ring = [] ∨ 8 * n ≤ Snapshot.maxAlloc) : ∃ nodes, hr.getNodes K key n = .value nodes ∧
      (∀ node ∈ nodes, node ∈ hr.nodes ∧ node.isHealthy = true) ∧ (nodes.map Node.id).Nodup ∧
      nodes.length = min n.toNat (hr.nodes.filter Node.isHealthy).length ∧
      (nodes.Pairwise fun a b => place (around (K.hashKey key) hr.ring) a.id <
        place (around (K.hashKey key) hr.ring) b.id) ∧
      ∀ a ∈ hr.nodes, a.isHealthy = true → a ∉ nodes →
        ∀ b ∈ nodes, place (around (K.hashKey key) hr.ring) b.id <
          place (around (K.hashKey key) hr.ring) a.id := by
  refine ⟨hr.picked K key n, getNodes_eq hfits key, ?_⟩
  obtain ⟨hsound, hids, hlength⟩ := picked_found h.placed key n
  obtain ⟨before, after, seen, hsplit, hc, -, -⟩ := picked_collected h.placed key n
  rw [← HashRing.walk_eq h.placed.sorted]
  refine ⟨hsound, hids, hlength, hc.ordered, fun a ha hok hout b hb => ?_⟩
  have hlate : a.id ∉ before.map HashEntry.nodeID := fun hid => hout (hc.complete a ha hok hid)
  rw [hsplit]
  exact (place_lt (hc.sound b hb).2.2).trans_le (le_place hlate)

/-- Three members, of which one is leaving. -/
def threeNodes : HashRing :=
  (((newHashRing 2).addNode twoHashing ⟨[1], .active⟩).addNode twoHashing ⟨[2], .leaving⟩).addNode twoHashing
    ⟨[3], .active⟩

theorem getNodes_spec_three : ∃ nodes, threeNodes.getNodes twoHashing [7] 5 = .value nodes ∧ nodes.length = 2 := by
  have hbuilt : Built twoHashing threeNodes := (((Built.new 2).add _).add _).add _
  obtain ⟨nodes, hget, -, -, hlength, -⟩ := getNodes_spec twoHashing hbuilt [7] (n := 5) (.inr (by decide))
  exact ⟨nodes, hget, hlength⟩

/-- No slice of 2^46 pointers can be made. -/
theorem getNodes_panics : threeNodes.getNodes twoHashing [7] (2 ^ 46) = .panic := by
  have hring : threeNodes.ring ≠ [] := by
    intro hnil
    have hlength : threeNodes.ring.length = _ := (twoHashing.perm _).length_eq
    rw [hnil, length_append, HashRing.entriesOf, length_map, length_range] at hlength
    cases Nat.eq_zero_of_add_eq_zero_left hlength.symm
  rw [HashRing.getNodes, if_neg (not_or.mpr ⟨hring, by decide⟩), if_pos (by decide)]

end LimyeDB.Cluster
