/-
  THE GOSSIPER (pkg/cluster/gossip.go): the records of the nodes, the suspicions, and the mutex that every
  method takes.

  A call that asks for the mutex while it has it waits for ever; here it is `stuck` and goes on.

  Main results:
    * `merged_greatest`, `tables_agree`: a record has the greatest incarnation and priority that was told
    * `calls_return_iff`: which calls wait for themselves
    * `own_record_kept`: the own record, if nobody tells a greater one
    * `suspicions_matched`: a suspect node has a suspicion, and only a suspect node is declared dead
    * `failures_announced_iff`: the runs that tell each failure of a peer once
-/
import LimyeDB.Lib.Runs
import LimyeDB.Cluster.HashRing

namespace LimyeDB.Gossip

open Go LimyeDB.Cluster LimyeDB.Lib.Runs List Function

/-! ## The source -/

/-- A state that is none of the four texts is `none`, and a nil map is. -/
structure GossipState where
  nodeID : Bytes
  state : Option NodeState
  incarnation : ℕ
  metadata : Option (List (Bytes × Bytes))

def GossipState.mark (r : GossipState) (s : NodeState) : GossipState := { r with state := some s }

structure SuspicionTimer where
  nodeID : Bytes
  startTime : ℤ
  timeout : ℤ

/-- No two suspicions are of one node. `failed` counts the calls of `onFail`. -/
structure Gossiper where
  localID : Bytes
  states : Bytes → Option GossipState
  incarnation : ℕ
  suspicions : List SuspicionTimer
  failed : Bytes → ℕ
  held : Bool
  stuck : Bool

def newGossiper (id : Bytes) : Gossiper :=
  ⟨id, update (fun _ => none) id (some ⟨id, some .active, 1, some []⟩), 1, [], fun _ => 0, false, false⟩

def statePriority : Option NodeState → ℤ
  | some .active => 0
  | some .suspect => 1
  | some .leaving => 2
  | some .inactive => 3
  | none => -1

namespace Gossiper

variable (g : Gossiper)

@[simp] def lock : Gossiper := { g with held := true, stuck := g.stuck || g.held }

@[simp] def unlock : Gossiper := { g with held := false }

@[simp] def nextSeqNo : Gossiper := g.lock.unlock

@[simp] def put (id : Bytes) (r : GossipState) : Gossiper :=
  { g with states := update g.states id (some r) }

def status (id : Bytes) : Option NodeState := (g.states id).bind GossipState.state

def suspected (id : Bytes) : Bool := g.suspicions.any (·.nodeID == id)

def mergeOne (incoming : GossipState) : Gossiper :=
  match g.states incoming.nodeID with
  | none => g.put incoming.nodeID incoming
  | some existing =>
    if incoming.incarnation < existing.incarnation then g
    else if incoming.incarnation = existing.incarnation ∧
      statePriority incoming.state ≤ statePriority existing.state then g
    else { g.put incoming.nodeID incoming with
      failed := fun id => g.failed id + if id = incoming.nodeID ∧ existing.state = some .active ∧
        incoming.state = some .inactive then 1 else 0 }

def mergeStates (states : List GossipState) : Gossiper := (states.foldl mergeOne g.lock).unlock

@[simp] def announce (f : GossipState → GossipState) : Gossiper :=
  let n := (g.incarnation + 1) % 2 ^ 64
  { g with
    incarnation := n
    states := update g.states g.localID
      ((g.states g.localID).map fun r => { f r with incarnation := n }) }

@[simp] def broadcastState : Gossiper := g.lock.nextSeqNo.unlock

def leave : Gossiper := (g.lock.announce (·.mark .leaving)).unlock.broadcastState

def setMetadata (key value : Bytes) : Option Gossiper :=
  ((g.states g.localID).bind GossipState.metadata).map fun metadata =>
    (g.lock.announce fun r => { r with metadata := some ((key, value) :: metadata) }).unlock

/-- The timeout is the product of the configuration and the number of nodes; here it is any. -/
def startSuspicion (t : SuspicionTimer) : Gossiper :=
  match g.states t.nodeID with
  | none => g.lock.unlock
  | some r =>
    if g.suspected t.nodeID ∨ r.state ≠ some .active then g.lock.unlock
    else ({ g.lock.put t.nodeID (r.mark .suspect) with
      suspicions := t :: g.suspicions } : Gossiper).nextSeqNo.unlock

def clearSuspicion (id : Bytes) : Gossiper :=
  { g.lock with
    suspicions := g.suspicions.filter (·.nodeID ≠ id)
    states := update g.states id
      ((g.states id).map fun r => if r.state = some .suspect then r.mark .active else r)
    held := false }

def due (now : ℤ) (id : Bytes) : Bool :=
  g.suspicions.any fun t => t.nodeID == id && t.timeout < now - t.startTime

/-- The turns of the loop are about different nodes, so they are taken at once. -/
def checkSuspicions (now : ℤ) : Gossiper :=
  { g.lock with
    suspicions := g.suspicions.filter fun t => !g.due now t.nodeID
    states := fun id => if g.due now id then (g.states id).map (·.mark .inactive) else g.states id
    failed := fun id => g.failed id + if g.due now id && (g.states id).isSome then 1 else 0
    held := false
    stuck := g.lock.stuck || g.suspicions.any fun t => g.due now t.nodeID && (g.states t.nodeID).isSome }

end Gossiper

inductive GossipMessageType where
  | push | pull | pushPull | probe | alive | suspect | dead | other

/-- The calls; `get` is any of those that read or set one field, `nextSeqNo` among them. `doGossip` asks the
    peers that it has chosen (`targets` says whether there is one), and `answered` is a goroutine of it that has
    got its answer. What the calls themselves send is left out. -/
inductive Call where
  | leave
  | broadcastState
  | setMetadata (key value : Bytes)
  | startSuspicion (t : SuspicionTimer)
  | clearSuspicion (id : Bytes)
  | checkSuspicions (now : ℤ)
  | handleMessage (type : GossipMessageType) (states : List GossipState)
  | join (states : List GossipState)
  | doGossip (targets : Bool)
  | answered (states : List GossipState)
  | doProbe (t : SuspicionTimer) (failed : Bool)
  | get

def call (g : Gossiper) : Call → Option Gossiper
  | .leave => some g.leave
  | .broadcastState => some g.broadcastState
  | .setMetadata key value => g.setMetadata key value
  | .startSuspicion t => some (g.startSuspicion t)
  | .clearSuspicion id => some (g.clearSuspicion id)
  | .checkSuspicions now => some (g.checkSuspicions now)
  | .handleMessage type states => some (match type with
    | .push | .alive | .suspect | .dead => g.mergeStates states
    | .pull => g.lock.unlock.nextSeqNo
    | .pushPull => (g.mergeStates states).lock.unlock.nextSeqNo
    | .probe | .other => g)
  | .join states => some (g.lock.unlock.nextSeqNo.mergeStates states)
  | .doGossip targets => some (if targets then g.lock.unlock.lock.unlock.nextSeqNo else g.lock.unlock)
  | .answered states => some (g.mergeStates states)
  | .doProbe t failed => some (let g := g.lock.unlock.nextSeqNo
    if failed then g.startSuspicion t else g.clearSuspicion t.nodeID)
  | .get => some g.lock.unlock

/-- The call that does to the tables what this one does. -/
def Call.basic : Call → Call
  | .handleMessage .pull _ | .handleMessage .probe _ | .handleMessage .other _ => .get
  | .handleMessage _ states | .join states | .answered states => .handleMessage .push states
  | .doProbe t true => .startSuspicion t
  | .doProbe t false => .clearSuspicion t.nodeID
  | .broadcastState | .doGossip _ => .get
  | c => c

/-! ## Merges -/

def GossipState.rank (s : GossipState) : ℕ ×ₗ ℤ := toLex (s.incarnation, statePriority s.state)

/-- Incarnation and priority of the record, if there is one. -/
def Gossiper.rank (g : Gossiper) (id : Bytes) : WithBot (ℕ ×ₗ ℤ) := (g.states id).elim ⊥ fun r => r.rank

section Merges

variable {g : Gossiper} {s : GossipState} {id : Bytes} {l : List GossipState}

theorem mergeOne_eq : g.mergeOne s = if ↑s.rank ≤ g.rank s.nodeID then g else
    { g.put s.nodeID s with
      failed := fun id => g.failed id + if id = s.nodeID ∧ g.status s.nodeID = some .active ∧
        s.state = some .inactive then 1 else 0 } := by
  rw [Gossiper.mergeOne, Gossiper.status, Gossiper.rank]
  cases hs : g.states s.nodeID with
  | none => simp
  | some e =>
    simp only [Option.elim_some, WithBot.coe_le_coe, GossipState.rank, Prod.Lex.toLex_le_toLex,
      Option.bind_some]
    split_ifs <;> first | rfl | omega

theorem rank_mergeOne : (g.mergeOne s).rank id =
    if s.nodeID = id then max (g.rank id) s.rank else g.rank id := by
  rw [mergeOne_eq]
  by_cases hid : s.nodeID = id
  · subst hid
    by_cases hle : ↑s.rank ≤ g.rank s.nodeID
    · rw [if_pos hle, if_pos rfl, max_eq_left hle]
    · rw [if_neg hle, if_pos rfl, max_eq_right (not_le.mp hle).le]
      simp [Gossiper.rank]
  · rw [if_neg hid]
    split_ifs <;> simp [Gossiper.rank, update_of_ne (Ne.symm hid)]

theorem greatest_foldl {α β γ : Type} [LinearOrder γ] {rank : α → γ} {f : α → β → α} {R : β → Set γ}
    (h : ∀ a b, IsGreatest (insert (rank a) (R b)) (rank (f a b))) (l : List β) (a : α) :
    IsGreatest (insert (rank a) {r | ∃ b ∈ l, r ∈ R b}) (rank (l.foldl f a)) := by
  induction l generalizing a with
  | nil => simp [IsGreatest, upperBounds]
  | cons b l ih =>
    obtain ⟨hmem, hmax⟩ := ih (f a b)
    obtain ⟨hone, hle⟩ := h a b
    have hfirst : rank (f a b) ≤ rank (l.foldl f (f a b)) := hmax (Set.mem_insert _ _)
    constructor
    · rcases hmem with heq | ⟨b', hb', hr⟩
      · rw [foldl_cons, heq]
        exact hone.imp id fun hr => ⟨b, mem_cons_self, hr⟩
      · exact .inr ⟨b', mem_cons_of_mem b hb', hr⟩
    · rintro r (rfl | ⟨b', hb', hr⟩)
      · exact (hle (Set.mem_insert _ _)).trans hfirst
      · rcases mem_cons.mp hb' with rfl | hb'
        · exact (hle (Set.mem_insert_of_mem _ hr)).trans hfirst
        · exact hmax (Set.mem_insert_of_mem _ ⟨b', hb', hr⟩)

theorem greatest_mergeOne (g : Gossiper) (s : GossipState) (id : Bytes) :
    IsGreatest (insert (g.rank id) {r | s.nodeID = id ∧ r = ↑s.rank}) ((g.mergeOne s).rank id) := by
  rw [rank_mergeOne]
  split_ifs with hid
  · refine ⟨(max_choice (g.rank id) ↑s.rank).imp_right fun h => ⟨hid, h⟩, ?_⟩
    rintro r (rfl | ⟨-, rfl⟩)
    · exact le_max_left _ _
    · exact le_max_right _ _
  · simp [hid, IsGreatest, upperBounds]

theorem greatest_mergeStates (g : Gossiper) (l : List GossipState) (id : Bytes) :
    IsGreatest (insert (g.rank id) {r | ∃ s ∈ l, s.nodeID = id ∧ r = ↑s.rank}) ((g.mergeStates l).rank id) :=
  greatest_foldl (fun g s => greatest_mergeOne g s id) l g.lock

theorem mergeStates_frame : ∃ states failed, g.mergeStates l = { g with
    states := states, failed := failed, held := false, stuck := g.stuck || g.held } := by
  have hfold : ∀ g : Gossiper, ∃ states failed,
      l.foldl Gossiper.mergeOne g = { g with states := states, failed := failed } := by
    induction l with
    | nil => exact fun g => ⟨_, _, rfl⟩
    | cons s l ih =>
      intro g
      obtain ⟨states, failed, hl⟩ := ih (g.mergeOne s)
      refine ⟨states, failed, hl.trans ?_⟩
      rw [mergeOne_eq]
      split_ifs <;> rfl
  obtain ⟨states, failed, hl⟩ := hfold g.lock
  exact ⟨states, failed, by rw [Gossiper.mergeStates, hl]; rfl⟩

theorem mergeStates_record (g : Gossiper) (l : List GossipState) (id : Bytes) :
    (g.mergeStates l).states id = g.states id ∨
    ∃ s ∈ l, s.nodeID = id ∧ g.rank id < s.rank ∧ (g.mergeStates l).states id = some s := by
  have hone : ∀ (g : Gossiper) s, (g.mergeOne s).states id = g.states id ∨
      s.nodeID = id ∧ g.rank id < s.rank ∧ (g.mergeOne s).states id = some s := by
    intro g s
    rw [mergeOne_eq]
    by_cases hle : ↑s.rank ≤ g.rank s.nodeID
    · exact .inl (by rw [if_pos hle])
    · by_cases hid : s.nodeID = id
      · exact .inr ⟨hid, hid ▸ not_le.mp hle, by subst hid; simp [hle]⟩
      · exact .inl (by simp [hle, update_of_ne (Ne.symm hid)])
  suffices h : ∀ g : Gossiper, (l.foldl Gossiper.mergeOne g).states id = g.states id ∨
      ∃ s ∈ l, s.nodeID = id ∧ g.rank id < s.rank ∧ (l.foldl Gossiper.mergeOne g).states id = some s from h g.lock
  induction l with
  | nil => exact fun g => .inl rfl
  | cons s l ih =>
    intro g
    rcases ih (g.mergeOne s) with hsame | ⟨t, ht, hid, hlt, htaken⟩
    · exact (hone g s).imp hsame.trans fun ⟨hid, hlt, h⟩ => ⟨s, mem_cons_self, hid, hlt, hsame.trans h⟩
    · exact .inr ⟨t, mem_cons_of_mem s ht, hid,
        ((greatest_mergeOne g s id).2 (Set.mem_insert _ _)).trans_lt hlt, htaken⟩

end Merges

/-! ## The tables alone -/

/-- The gossiper without its mutex. -/
def Gossiper.tables (g : Gossiper) : Gossiper := { g with held := false, stuck := false }

section Tables

variable {g g' : Gossiper}

theorem mergeOne_tables (h : g.tables = g'.tables) (s : GossipState) :
    (g.mergeOne s).tables = (g'.mergeOne s).tables := by
  cases g
  cases g'
  simp only [Gossiper.tables, Gossiper.mk.injEq, and_true] at h
  obtain ⟨rfl, rfl, rfl, rfl, rfl⟩ := h
  unfold Gossiper.mergeOne
  dsimp only
  split
  · rfl
  · split_ifs <;> rfl

theorem startSuspicion_tables (h : g.tables = g'.tables) (t : SuspicionTimer) :
    (g.startSuspicion t).tables = (g'.startSuspicion t).tables := by
  cases g
  cases g'
  simp only [Gossiper.tables, Gossiper.mk.injEq, and_true] at h
  obtain ⟨rfl, rfl, rfl, rfl, rfl⟩ := h
  unfold Gossiper.startSuspicion Gossiper.suspected
  dsimp only
  split
  · rfl
  · split_ifs <;> rfl

theorem mergeStates_tables (h : g.tables = g'.tables) (l : List GossipState) :
    (g.mergeStates l).tables = (g'.mergeStates l).tables := by
  have hfold : ∀ {g g' : Gossiper}, g.tables = g'.tables →
      (l.foldl Gossiper.mergeOne g).tables = (l.foldl Gossiper.mergeOne g').tables := by
    induction l with
    | nil => exact id
    | cons s l ih => exact fun h => ih (mergeOne_tables h s)
  have hlock : g.lock.tables = g'.lock.tables := h
  exact hfold hlock

theorem call_basic (g : Gossiper) (c : Call) :
    (call g c).map Gossiper.tables = (call g c.basic).map Gossiper.tables := by
  cases c with
  | handleMessage type states => cases type <;> rfl
  | join states =>
    have hread : g.lock.unlock.nextSeqNo.tables = g.tables := rfl
    exact congrArg some (mergeStates_tables hread states)
  | doGossip targets => cases targets <;> rfl
  | doProbe t failed =>
    cases failed with
    | false => rfl
    | true =>
      have hread : g.lock.unlock.nextSeqNo.tables = g.tables := rfl
      exact congrArg some (startSuspicion_tables hread t)
  | _ => rfl

/-- What a call leaves in the tables is what its basic call leaves there. -/
theorem exists_basic {c : Call} (hcall : call g c = some g') :
    ∃ g'', call g c.basic = some g'' ∧ g''.tables = g'.tables := by
  have h := call_basic g c
  rw [hcall, Option.map_some, eq_comm, Option.map_eq_some_iff] at h
  exact h

end Tables

def told (msgs : List (List GossipState)) (id : Bytes) : Set (WithBot (ℕ ×ₗ ℤ)) :=
  {r | ∃ s, (∃ l ∈ msgs, s ∈ l) ∧ s.nodeID = id ∧ r = s.rank}

/-- **Whatever the order, the grouping and the repetitions, the record of a node has the greatest pair of
    incarnation and priority received.** -/
theorem merged_greatest (g : Gossiper) (msgs : List (List GossipState)) (id : Bytes) :
    IsGreatest (insert (g.rank id) (told msgs id)) ((msgs.foldl Gossiper.mergeStates g).rank id) ∧
    ∀ (g' : Gossiper) (msgs' : List (List GossipState)), g'.rank id = g.rank id →
      (∀ s, (∃ l ∈ msgs', s ∈ l) ↔ ∃ l ∈ msgs, s ∈ l) →
      (msgs'.foldl Gossiper.mergeStates g').rank id = (msgs.foldl Gossiper.mergeStates g).rank id := by
  have hall : ∀ (g : Gossiper) (msgs : List (List GossipState)),
      IsGreatest (insert (g.rank id) (told msgs id)) ((msgs.foldl Gossiper.mergeStates g).rank id) := by
    intro g msgs
    have hset : told msgs id = {r | ∃ l ∈ msgs, ∃ s ∈ l, s.nodeID = id ∧ r = ↑s.rank} :=
      Set.ext fun r => ⟨fun ⟨s, ⟨l, hl, hs⟩, h⟩ => ⟨l, hl, s, hs, h⟩,
        fun ⟨l, hl, s, hs, h⟩ => ⟨s, ⟨l, hl, hs⟩, h⟩⟩
    exact hset ▸ greatest_foldl (fun g l => greatest_mergeStates g l id) msgs g
  refine ⟨hall g msgs, fun g' msgs' hrank hsame => ?_⟩
  have h' := hall g' msgs'
  rw [hrank, show told msgs' id = told msgs id by simp only [told, hsame]] at h'
  exact h'.unique (hall g msgs)

/-! ## Tables sent round -/

/-- `getAllStates`: the records, in the order of the map, where each stands under the id of its node. -/
def Gossiper.AllStates (g : Gossiper) (l : List GossipState) : Prop :=
  ∀ id s, s ∈ l ∧ s.nodeID = id ↔ g.states id = some s

/-- The gossipers of a network where tables come late, in another order, again or never, each with those whose
    tables have reached it, directly or through others. -/
inductive Heard {ι : Type} (g₀ : ι → Gossiper) : Gossiper → Set ι → Prop where
  | start (i : ι) : Heard g₀ (g₀ i) {i}
  | merge {g g' : Gossiper} {H H' : Set ι} {l : List GossipState} (h : Heard g₀ g H) (h' : Heard g₀ g' H')
    (hl : g'.AllStates l) : Heard g₀ (g.mergeStates l) (H ∪ H')

theorem rank_mergeStates {g g' : Gossiper} {l : List GossipState} (hl : g'.AllStates l) (id : Bytes) :
    (g.mergeStates l).rank id = max (g.rank id) (g'.rank id) := by
  refine (greatest_mergeStates g l id).unique ?_
  simp only [← and_assoc, hl id]
  unfold Gossiper.rank
  cases g'.states id <;> simp [IsGreatest, upperBounds, le_total]

theorem Heard.greatest {ι : Type} {g₀ : ι → Gossiper} {g : Gossiper} {H : Set ι} (h : Heard g₀ g H)
    (id : Bytes) : IsGreatest ((fun i => (g₀ i).rank id) '' H) (g.rank id) := by
  induction h with
  | start i => simp
  | merge _ _ hl ih ih' =>
    rw [rank_mergeStates hl, Set.image_union]
    exact ih.union ih'

/-- **The tables converge, whatever the network does**: of each node a gossiper has the greatest pair of the
    tables that have reached it, so that two reached by the same tables agree. -/
theorem tables_agree {ι : Type} {g₀ : ι → Gossiper} {g : Gossiper} {H : Set ι} (h : Heard g₀ g H)
    (id : Bytes) : IsGreatest ((fun i => (g₀ i).rank id) '' H) (g.rank id) ∧
      ∀ g', Heard g₀ g' H → g'.rank id = g.rank id :=
  ⟨h.greatest id, fun _ h' => (h'.greatest id).unique (h.greatest id)⟩

theorem tables_agree_pair : IsGreatest ((fun i => (newGossiper i).rank [2]) '' ({[1]} ∪ {[2]}))
    (((newGossiper [1]).mergeStates [⟨[2], some .active, 1, some []⟩]).rank [2]) := by
  refine (tables_agree (.merge (.start [1]) (.start [2]) fun id s => ?_) [2]).1
  by_cases hid : id = [2] <;> simp [newGossiper, hid, eq_comm] <;> rintro rfl
  · rfl
  · exact hid

/-! ## The mutex -/

/-- The call asks for the mutex only while it does not have it. -/
def Single (g : Gossiper) : Call → Prop
  | .leave | .broadcastState => False
  | .startSuspicion t | .doProbe t true => g.suspected t.nodeID ∨ g.status t.nodeID ≠ some .active
  | .checkSuspicions now => ∀ t ∈ g.suspicions, g.due now t.nodeID → g.states t.nodeID = none
  | _ => True

theorem startSuspicion_stuck {g : Gossiper} {t : SuspicionTimer} (hheld : g.held = false)
    (hstuck : g.stuck = false) : (g.startSuspicion t).stuck = false ↔
      g.suspected t.nodeID ∨ g.status t.nodeID ≠ some .active := by
  rw [Gossiper.startSuspicion, Gossiper.status]
  split
  · simp [*]
  · split_ifs <;> simp_all

/-- **A call that gets the mutex free waits for itself just if it broadcasts the own state, as `Leave` does,
    begins a suspicion, or finds one that has expired for a known node.** -/
theorem calls_return_iff {g g' : Gossiper} {c : Call} (hheld : g.held = false) (hstuck : g.stuck = false)
    (hcall : call g c = some g') : g'.stuck = false ↔ Single g c := by
  have hmerge : ∀ {g : Gossiper} {l}, g.held = false → g.stuck = false → (g.mergeStates l).stuck = false := by
    intro g l hheld hstuck
    obtain ⟨states, failed, hframe⟩ := mergeStates_frame
    rw [hframe, hheld, hstuck]
    rfl
  cases c with
  | setMetadata key value =>
    obtain ⟨metadata, -, rfl⟩ := Option.map_eq_some_iff.mp hcall
    simp [Single, hheld, hstuck]
  | startSuspicion t =>
    cases hcall
    exact startSuspicion_stuck hheld hstuck
  | handleMessage type states =>
    cases hcall
    cases type <;> simp [Single, hmerge, hheld, hstuck]
    rfl
  | doGossip targets =>
    cases targets <;> cases hcall <;> simp [Single, hheld, hstuck]
  | doProbe t failed =>
    cases failed <;> cases hcall
    · simp [Single, Gossiper.clearSuspicion, hheld, hstuck]
    · exact startSuspicion_stuck rfl (by simp [hheld, hstuck])
  | _ =>
    cases hcall
    simp [Single, Gossiper.leave, Gossiper.clearSuspicion, Gossiper.checkSuspicions, hmerge, hheld, hstuck]

/-- Node 2 is told to be leaving and node 3 to be active: only the suspicion of 3 waits. -/
theorem calls_return_iff_told :
    let g := (newGossiper [1]).mergeStates [⟨[2], some .leaving, 1, none⟩, ⟨[3], some .active, 1, none⟩]
    (g.startSuspicion ⟨[2], 0, 5⟩).stuck = false ∧ (g.startSuspicion ⟨[3], 0, 5⟩).stuck ≠ false := by
  intro g
  have hleaving := calls_return_iff (g := g) (c := .startSuspicion ⟨[2], 0, 5⟩) rfl rfl rfl
  have hactive := calls_return_iff (g := g) (c := .startSuspicion ⟨[3], 0, 5⟩) rfl rfl rfl
  refine ⟨hleaving.mpr (.inr (by decide)), fun h => ?_⟩
  rcases hactive.mp h with hsus | hne
  · cases hsus
  · exact hne rfl

/-- A first call of `Leave`. -/
theorem leave_waits : (call (newGossiper [1]) .leave).any (·.stuck) = true := rfl

/-! ## The own record -/

/-- Nobody tells of the node what is greater than its own record, and the counter does not overflow. -/
def Honest (g : Gossiper) : Call → Prop
  | .get => True
  | .handleMessage .push states => ∀ s ∈ states, s.nodeID = g.localID → ↑s.rank ≤ g.rank g.localID
  | .leave | .setMetadata _ _ => g.incarnation + 1 < 2 ^ 64
  | _ => False

/-- The record of the node has the counter, which is at least `least`. -/
structure Own (id : Bytes) (least : ℕ) (g : Gossiper) : Prop where
  localID : g.localID = id
  least : least ≤ g.incarnation
  record : ∃ r, g.states id = some r ∧ (r.state = some .active ∨ r.state = some .leaving) ∧
    r.incarnation = g.incarnation

theorem Own.tables {id : Bytes} {least : ℕ} {g g' : Gossiper} (h : Own id least g)
    (heq : g.tables = g'.tables) : Own id least g' := by
  have hfields := heq
  simp only [Gossiper.tables, Gossiper.mk.injEq, and_true] at hfields
  obtain ⟨hid, hstates, hinc, -, -⟩ := hfields
  exact ⟨hid ▸ h.localID, hinc ▸ h.least, hstates ▸ hinc ▸ h.record⟩

theorem Own.call {id : Bytes} {least : ℕ} {g g' : Gossiper} {c : Call} (h : Own id least g)
    (hc : Honest g c.basic) (hcall : call g c = some g') : Own id least g' := by
  obtain ⟨g₁, hbasic, htables⟩ := exists_basic hcall
  refine Own.tables ?_ htables
  generalize c.basic = c at hc hbasic
  obtain ⟨rfl, hleast, r, hr, hstate, hinc⟩ := h
  have hann : ∀ f : GossipState → GossipState, g.incarnation + 1 < 2 ^ 64 →
      ((f r).state = some .active ∨ (f r).state = some .leaving) → Own g.localID least (g.announce f) := by
    refine fun f hlt hf => ⟨rfl, ?_, { f r with incarnation := (g.announce f).incarnation }, ?_, hf, rfl⟩
    · exact (Nat.le_succ_of_le hleast).trans_eq (Nat.mod_eq_of_lt hlt).symm
    · simp [hr]
  cases c with
  | leave =>
    cases hbasic
    exact (hann (·.mark .leaving) hc (.inr rfl)).tables rfl
  | setMetadata key value =>
    obtain ⟨metadata, -, rfl⟩ := Option.map_eq_some_iff.mp hbasic
    exact (hann (fun r => { r with metadata := some ((key, value) :: metadata) }) hc hstate).tables rfl
  | handleMessage type states =>
    cases type <;> first | exact hc.elim | cases hbasic
    have hsame : (g.mergeStates states).states g.localID = some r := by
      rcases mergeStates_record g states g.localID with h | ⟨s, hs, hid, hlt, -⟩
      · exact h.trans hr
      · exact absurd (hc s hs hid) (not_le.mpr hlt)
    obtain ⟨table, failed, hframe⟩ := mergeStates_frame
    rw [hframe] at hsame ⊢
    exact ⟨rfl, hleast, r, hsame, hstate, hinc⟩
  | get =>
    cases hbasic
    exact ⟨rfl, hleast, r, hr, hstate, hinc⟩
  | _ => exact hc.elim

/-- **The own record stays active or leaving, and its incarnation never goes down, if nobody tells of the node
    what is greater than its own record.** -/
theorem own_record_kept (id : Bytes) {l : List Call} {g : Gossiper}
    (hc : Along call (fun g c => Honest g c.basic) (newGossiper id) l)
    (hrun : run call (newGossiper id) l = some g) :
    ∃ r, g.states id = some r ∧ (r.state = some .active ∨ r.state = some .leaving) ∧
      ∀ cs' g', Along call (fun g c => Honest g c.basic) g cs' → run call g cs' = some g' →
        ∃ r', g'.states id = some r' ∧ r.incarnation ≤ r'.incarnation := by
  have hown : ∀ {g g' : Gossiper} {cs : List Call} {k : ℕ}, Own id k g →
      Along call (fun g c => Honest g c.basic) g cs → run call g cs = some g' → Own id k g' := fun h =>
    run_along (fun _ _ _ h hc hcall => h.call hc hcall) h
  have hnew : Own id 0 (newGossiper id) := ⟨rfl, Nat.zero_le _, ⟨id, some .active, 1, some []⟩,
    update_self id _ fun _ => none, .inl rfl, rfl⟩
  obtain ⟨hid, -, r, hr, hstate, hinc⟩ := hown hnew hc hrun
  refine ⟨r, hr, hstate, fun cs' g' hc' hrun' => ?_⟩
  obtain ⟨-, hle, r', hr', -, hinc'⟩ := hown ⟨hid, le_rfl, r, hr, hstate, hinc⟩ hc' hrun'
  exact ⟨r', hr', hinc ▸ hinc' ▸ hle⟩

/-- A peer tells the own record as it is, and later that it is suspect, with the old incarnation. -/
theorem own_record_kept_told :
    ∃ r, (run call (newGossiper [1]) [.handleMessage .push [⟨[1], some .active, 1, none⟩],
        .setMetadata [2] [3], .handleMessage .suspect [⟨[1], some .suspect, 1, none⟩]]).bind
          (·.states [1]) = some r ∧
      (r.state = some .active ∨ r.state = some .leaving) := by
  obtain ⟨g, hg⟩ : ∃ g, run call (newGossiper [1]) [.handleMessage .push [⟨[1], some .active, 1, none⟩],
      .setMetadata [2] [3], .handleMessage .suspect [⟨[1], some .suspect, 1, none⟩]] = some g := ⟨_, rfl⟩
  have htold : ∀ {h : Gossiper} {s : GossipState} {r : GossipState}, h.states h.localID = some r →
      s.rank ≤ r.rank → ∀ t ∈ [s], t.nodeID = h.localID → ↑t.rank ≤ h.rank h.localID := by
    intro h s r hr hle t ht _
    rw [mem_singleton.mp ht, Gossiper.rank, hr]
    exact WithBot.coe_le_coe.mpr hle
  obtain ⟨r, hr, hstate, -⟩ := own_record_kept [1] (by
    refine ⟨htold rfl le_rfl, ?_⟩
    rintro _ ⟨⟩
    refine ⟨show 1 + 1 < 2 ^ 64 by decide, ?_⟩
    rintro _ ⟨⟩
    exact ⟨htold rfl (by decide), fun _ _ => trivial⟩) hg
  exact ⟨r, by rw [hg]; exact hr, hstate⟩

/-- A peer tells the own record with incarnation 5, and `SetMetadata` makes it 2. -/
theorem own_record_falls : (run call (newGossiper [1])
    [.handleMessage .push [⟨[1], some .active, 5, some []⟩], .setMetadata [2] [3]]).bind
      (fun g => (g.states [1]).map (·.incarnation)) = some 2 := by decide

/-! ## Suspicions -/

section Suspicions

variable {g g' : Gossiper} {c : Call} {id : Bytes}

/-- Just the nodes whose record is suspect have a suspicion. -/
def Matched (g : Gossiper) : Prop := ∀ id, g.status id = some .suspect ↔ g.suspected id

/-- A merge makes no node suspect, and no suspect node something else. `Leave` and `SetMetadata`, which write
    the own record, are no steps of these runs. -/
def Follows (g : Gossiper) : Call → Prop
  | .handleMessage .push states => ∀ s ∈ states, g.rank s.nodeID < s.rank →
      (s.state = some .suspect ↔ g.status s.nodeID = some .suspect)
  | .startSuspicion _ | .clearSuspicion _ | .checkSuspicions _ | .get => True
  | _ => False

theorem startSuspicion_cases {t : SuspicionTimer} :
    (∃ stuck, g.startSuspicion t = { g with held := false, stuck := stuck }) ∨
    ∃ r stuck, g.states t.nodeID = some r ∧ r.state = some .active ∧ g.startSuspicion t = { g with
      states := update g.states t.nodeID (some (r.mark .suspect))
      suspicions := t :: g.suspicions, held := false, stuck := stuck } := by
  rw [Gossiper.startSuspicion]
  cases hr : g.states t.nodeID with
  | none => exact .inl ⟨_, rfl⟩
  | some r =>
    by_cases hif : g.suspected t.nodeID ∨ r.state ≠ some .active
    · exact .inl ⟨_, if_pos hif⟩
    · exact .inr ⟨r, _, rfl, not_not.mp (not_or.mp hif).2, if_neg hif⟩

theorem status_clearSuspicion {i : Bytes} : (g.clearSuspicion i).status id =
    if id = i ∧ g.status id = some .suspect then some .active else g.status id := by
  by_cases hid : id = i
  · subst hid
    cases hr : g.states id with
    | none => simp [Gossiper.clearSuspicion, Gossiper.status, hr]
    | some r =>
      by_cases hs : r.state = some .suspect <;>
        simp [Gossiper.clearSuspicion, Gossiper.status, hr, hs, GossipState.mark]
  · simp [Gossiper.clearSuspicion, Gossiper.status, hid]

theorem suspected_clearSuspicion {i : Bytes} :
    (g.clearSuspicion i).suspected id = (g.suspected id && id != i) := by
  simp [Gossiper.clearSuspicion, Gossiper.suspected]
  grind

theorem status_checkSuspicions {now : ℤ} : (g.checkSuspicions now).status id =
    if g.due now id then (g.states id).map fun _ => .inactive else g.status id := by
  by_cases hdue : g.due now id
  · cases hr : g.states id <;> simp [Gossiper.status, Gossiper.checkSuspicions, hdue, hr, GossipState.mark]
  · simp [Gossiper.status, Gossiper.checkSuspicions, hdue]

theorem suspected_checkSuspicions {now : ℤ} :
    (g.checkSuspicions now).suspected id = (g.suspected id && !g.due now id) := by
  simp [Gossiper.checkSuspicions, Gossiper.suspected]
  grind

theorem Matched.tables (h : Matched g) (heq : g.tables = g'.tables) : Matched g' := by
  have hfields := heq
  simp only [Gossiper.tables, Gossiper.mk.injEq, and_true] at hfields
  obtain ⟨-, hstates, -, hsuspicions, -⟩ := hfields
  intro i
  have hi := h i
  rw [Gossiper.status, Gossiper.suspected, hstates, hsuspicions] at hi
  exact hi

theorem Matched.call (h : Matched g) (hc : Follows g c.basic) (hcall : call g c = some g') :
    Matched g' := by
  obtain ⟨g₁, hbasic, htables⟩ := exists_basic hcall
  refine Matched.tables ?_ htables
  generalize c.basic = c at hc hbasic
  intro i
  have hi := h i
  cases c with
  | startSuspicion t =>
    cases hbasic
    rcases startSuspicion_cases with ⟨stuck, heq⟩ | ⟨r, stuck, -, -, heq⟩
    · rw [heq]
      exact hi
    · rw [heq]
      by_cases hid : t.nodeID = i
      · subst hid
        simp [Gossiper.status, Gossiper.suspected, GossipState.mark]
      · simpa [Gossiper.status, Gossiper.suspected, hid, Ne.symm hid] using hi
  | clearSuspicion id =>
    cases hbasic
    rw [status_clearSuspicion, suspected_clearSuspicion]
    by_cases hid : i = id
    · subst hid
      by_cases hs : g.status i = some .suspect <;> simp [hs]
    · simp [hid, hi]
  | checkSuspicions now =>
    cases hbasic
    rw [status_checkSuspicions, suspected_checkSuspicions]
    by_cases hdue : g.due now i <;> simp [hdue, hi]
  | handleMessage type states =>
    cases type <;> first | exact hc.elim | cases hbasic
    have hsus : (g.mergeStates states).suspected i = g.suspected i := by
      obtain ⟨table, failed, hframe⟩ := mergeStates_frame
      rw [hframe]
      rfl
    rw [hsus, ← hi, Gossiper.status]
    rcases mergeStates_record g states i with hsame | ⟨s, hs, rfl, hlt, htaken⟩
    · rw [hsame, Gossiper.status]
    · rw [htaken]
      exact hc s hs hlt
  | get =>
    cases hbasic
    exact hi
  | _ => exact hc.elim

/-- **In every run whose merges keep who is suspect, a suspect node has a suspicion, and only a suspect
    node is declared dead.** -/
theorem suspicions_matched (own : Bytes) {l : List Call}
    (hc : Along call (fun g c => Follows g c.basic) (newGossiper own) l)
    (hrun : run call (newGossiper own) l = some g) :
    (g.status id = some .suspect → g.suspected id) ∧ ∀ now, g.status id ≠ some .inactive →
      (g.checkSuspicions now).status id = some .inactive → g.status id = some .suspect := by
  have hnew : Matched (newGossiper own) := by
    intro id
    by_cases hid : id = own <;> simp [newGossiper, Gossiper.status, Gossiper.suspected, hid]
  have hg : Matched g := run_along (fun _ _ _ h hc hcall => h.call hc hcall) hnew hc hrun
  refine ⟨(hg id).mp, fun now halive hdead => ?_⟩
  rw [status_checkSuspicions] at hdead
  split_ifs at hdead with hdue
  · obtain ⟨t, ht, htid⟩ := any_eq_true.mp hdue
    exact (hg id).mpr (any_eq_true.mpr ⟨t, ht, (Bool.and_eq_true_iff.mp htid).1⟩)
  · exact absurd hdead halive

/-- Two peers are told, one is suspected, the other tells a newer record, and the suspicion expires after the
    other is suspected too. -/
theorem suspicions_matched_run : ∃ g, run call (newGossiper [1])
    [.handleMessage .push [⟨[2], some .active, 1, none⟩, ⟨[3], some .active, 1, none⟩],
      .startSuspicion ⟨[2], 0, 5⟩, .handleMessage .alive [⟨[3], some .active, 2, none⟩],
      .startSuspicion ⟨[3], 4, 5⟩, .checkSuspicions 6] = some g ∧
      g.status [2] = some .inactive ∧ g.suspected [3] := by
  refine ⟨_, rfl, rfl, (suspicions_matched [1] (l := [.handleMessage .push [⟨[2], some .active, 1, none⟩,
    ⟨[3], some .active, 1, none⟩], .startSuspicion ⟨[2], 0, 5⟩,
    .handleMessage .alive [⟨[3], some .active, 2, none⟩], .startSuspicion ⟨[3], 4, 5⟩, .checkSuspicions 6])
    ?_ rfl).1 rfl⟩
  refine ⟨?_, ?_⟩
  · intro s hs _
    simp only [mem_cons, not_mem_nil, or_false] at hs
    rcases hs with rfl | rfl <;> decide
  rintro _ ⟨⟩
  refine ⟨trivial, ?_⟩
  rintro _ ⟨⟩
  refine ⟨?_, fun _ _ => ⟨trivial, fun _ _ => ⟨trivial, fun _ _ => trivial⟩⟩⟩
  intro s hs _
  rw [mem_singleton.mp hs]
  decide

/-- A peer that is suspected tells a newer active record, and is declared dead. -/
theorem refuted_declared_dead : (run call (newGossiper [1]) [.handleMessage .push [⟨[2], some .active, 1, none⟩],
    .startSuspicion ⟨[2], 0, 5⟩, .handleMessage .push [⟨[2], some .active, 2, none⟩]]).any (fun g =>
      g.status [2] = some .active ∧ (g.checkSuspicions 6).status [2] = some .inactive) = true := by decide

/-! ## Failures -/

def Gossiper.fell (g g' : Gossiper) (id : Bytes) : Bool :=
  (g.states id).isSome ∧ g.status id ≠ some .inactive ∧ g'.status id = some .inactive

/-- `onFail` was called once for each peer that fell, and for no other. -/
def Tells (g g' : Gossiper) : Prop := ∀ id, id ≠ g.localID → g'.failed id = g.failed id + (g.fell g' id).toNat

/-- Each turn of a merge and each step of the suspicions tells. -/
def Exact (g : Gossiper) : Call → Prop
  | .handleMessage .push states =>
    Along (fun g s => some (g.mergeOne s)) (fun g s => Tells g (g.mergeOne s)) g.lock states
  | .startSuspicion t => Tells g (g.startSuspicion t)
  | .clearSuspicion id => Tells g (g.clearSuspicion id)
  | .checkSuspicions now => Tells g (g.checkSuspicions now)
  | _ => True

/-- The inactive record that the merge takes for a known peer finds it active, or inactive already. -/
def Found (g : Gossiper) (s : GossipState) : Prop := ∀ r, g.states s.nodeID = some r → s.nodeID ≠ g.localID →
  s.state = some .inactive → r.rank < s.rank → r.state = some .active ∨ r.state = some .inactive

/-- ... and no suspicion expires of a peer that is inactive already. -/
def Announced (g : Gossiper) : Call → Prop
  | .handleMessage .push states => Along (fun g s => some (g.mergeOne s)) Found g.lock states
  | .checkSuspicions now => ∀ id, id ≠ g.localID → g.due now id → g.status id ≠ some .inactive
  | _ => True

theorem tells_mergeOne (s : GossipState) : Tells g (g.mergeOne s) ↔ Found g s := by
  rw [mergeOne_eq, Gossiper.rank]
  by_cases hle : ↑s.rank ≤ (g.states s.nodeID).elim ⊥ fun r => (r.rank : WithBot (ℕ ×ₗ ℤ))
  · rw [if_pos hle]
    refine ⟨fun _ r hr _ _ hlt => ?_, fun _ id _ => by simp [Gossiper.fell]⟩
    rw [hr] at hle
    exact absurd (WithBot.coe_le_coe.mp hle) (not_le.mpr hlt)
  · rw [if_neg hle]
    constructor
    · intro h r hr hid hs _
      have hone := h s.nodeID hid
      by_contra! hnot
      simp [Gossiper.fell, Gossiper.status, hr, hs, hnot] at hone
    · intro h id hid
      by_cases heq : id = s.nodeID
      · subst heq
        cases hr : g.states s.nodeID with
        | none => simp [Gossiper.fell, Gossiper.status, hr]
        | some r =>
          rw [hr] at hle
          have hfound := fun hs => h r hr hid hs (WithBot.coe_lt_coe.mp (not_le.mp hle))
          by_cases hs : s.state = some .inactive
          · rcases hfound hs with hr' | hr' <;> simp [Gossiper.fell, Gossiper.status, hr, hr', hs]
          · simp [Gossiper.fell, Gossiper.status, hs]
      · simp [Gossiper.fell, Gossiper.status, heq]

theorem exact_iff : Exact g c ↔ Announced g c := by
  cases c with
  | startSuspicion t =>
    refine iff_of_true (fun id _ => ?_) trivial
    rcases startSuspicion_cases (g := g) (t := t) with ⟨stuck, heq⟩ | ⟨r, stuck, -, -, heq⟩
    · simp [heq, Gossiper.fell, Gossiper.status]
    · by_cases hid : id = t.nodeID <;> simp [heq, Gossiper.fell, Gossiper.status, GossipState.mark, hid]
  | clearSuspicion i =>
    refine iff_of_true (fun id _ => ?_) trivial
    rw [Gossiper.fell, status_clearSuspicion]
    split_ifs <;> simp [Gossiper.clearSuspicion]
  | checkSuspicions now =>
    refine forall₂_congr fun id _ => ?_
    rw [Gossiper.fell, status_checkSuspicions]
    by_cases hdue : g.due now id
    · cases hr : g.states id with
      | none => simp [Gossiper.checkSuspicions, Gossiper.status, hdue, hr]
      | some r =>
        by_cases hs : r.state = some .inactive <;>
          simp [Gossiper.checkSuspicions, Gossiper.status, hdue, hr, hs]
    · simp [Gossiper.checkSuspicions, hdue]
  | handleMessage type states =>
    cases type <;> simp only [Exact, Announced, tells_mergeOne]
  | _ => rfl

/-- **Every failure of a known peer is told once, in just the runs whose merges take a failure only of
    an active peer.** -/
theorem failures_announced_iff (g : Gossiper) (cs : List Call) :
    Along call (fun g c => Exact g c.basic) g cs ↔ Along call (fun g c => Announced g c.basic) g cs := by
  rw [show Exact = Announced from funext₂ fun _ _ => propext exact_iff]

/-- The failure of a suspect peer is not told. -/
theorem suspect_failure_untold : (run call (newGossiper [1]) [.handleMessage .push [⟨[2], some .active, 1, none⟩],
    .startSuspicion ⟨[2], 0, 5⟩, .handleMessage .push [⟨[2], some .inactive, 1, none⟩]]).any (fun g =>
      g.status [2] = some .inactive ∧ g.failed [2] = 0) = true := by decide

end Suspicions

end LimyeDB.Gossip
