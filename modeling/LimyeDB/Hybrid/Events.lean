/-
  CHANGE EVENTS: what is given to the dispatcher, beside what has changed, over every history of a
  single-vector collection and over every replay of the log.
-/
import LimyeDB.Hybrid.Postings

namespace LimyeDB.Hybrid

open Go Hnsw Lib.Runs List Outcome Option
open LimyeDB.Graph (Index Tools Distance)
open LimyeDB.Collection (Error record)

variable {F P D Q C S : Type} [Distance D]

/-! ## Changes -/

def sparseOf (c : Collection F P D Q C S) (id : Bytes) (dimIdx : UInt32) : List F :=
  match c.index.bind fun h => h.idToIndex id with
  | none => []
  | some i => valuesOf c.sparseIdx dimIdx i

/-- Get returns the same for the id, and the sparse values are the same. -/
def SamePoint (K : Kit F P D Q C S) (c c' : Collection F P D Q C S) (id : Bytes) : Prop :=
  get K c' id = get K c id ∧ ∀ dimIdx, sparseOf c' id dimIdx = sparseOf c id dimIdx

open Classical in
noncomputable def changeOf (K : Kit F P D Q C S) (c c' : Collection F P D Q C S) (id : Bytes) :
    Option EventType :=
  match presence c id, presence c' id with
  | .live, .live => if SamePoint K c c' id then none else some .update
  | .live, _ => some .delete
  | _, .live => some .insert
  | _, _ => none

def subjects : Call F P → List Bytes
  | .insert p => [p.id]
  | .insertBatch ps => (ps.map Point.id).dedup
  | .insertV2 _ p => [p.id]
  | .upsert p => [p.id]
  | .delete id => [id]
  | .search .. => []
  | .setWAL _ => []
  | .setEfSearch _ => []

/-- **The events that the call should publish**: one for each point that it changes. -/
noncomputable def changes (K : Kit F P D Q C S) (c c' : Collection F P D Q C S) (x : Call F P) :
    List Event :=
  (subjects x).filterMap fun id =>
    (changeOf K c c' id).map fun type => ⟨c.config.name, type, id⟩

section Changes

variable {K : Kit F P D Q C S} {c c' : Collection F P D Q C S} {id : Bytes}

theorem changeOf_self (hindex : c'.index = c.index) (hsparse : c'.sparseIdx = c.sparseIdx)
    (id : Bytes) : changeOf K c c' id = none := by
  have hsame : SamePoint K c c' id := by
    refine ⟨?_, fun dimIdx => ?_⟩
    · rw [get, get, hindex]
    · rw [sparseOf, sparseOf, hindex, hsparse]
  have hpresence : presence c' id = presence c id := by rw [presence, presence, hindex]
  unfold changeOf
  rw [hpresence]
  cases presence c id with
  | absent => rfl
  | deleted => rfl
  | live => exact if_pos hsame

theorem changeOf_none (hbefore : presence c id ≠ .live) (hafter : presence c' id ≠ .live) :
    changeOf K c c' id = none := by
  unfold changeOf
  split
  · contradiction
  · contradiction
  · contradiction
  · rfl

theorem changeOf_insert (hbefore : presence c id ≠ .live) (hafter : presence c' id = .live) :
    changeOf K c c' id = some .insert := by
  unfold changeOf
  split
  · contradiction
  · contradiction
  · rfl
  · contradiction

theorem changeOf_delete (hbefore : presence c id = .live) (hafter : presence c' id ≠ .live) :
    changeOf K c c' id = some .delete := by
  unfold changeOf
  split
  · contradiction
  · rfl
  · contradiction
  · contradiction

theorem changes_self (hindex : c'.index = c.index) (hsparse : c'.sparseIdx = c.sparseIdx)
    (x : Call F P) : changes K c c' x = [] := by
  refine filterMap_eq_nil_iff.mpr fun id _ => ?_
  rw [changeOf_self hindex hsparse, map_none]

end Changes

/-! ## The dispatcher -/

/-- The buffer is not full at any of the calls to come. -/
def Free (d : Dispatcher) : Prop := ∀ n, d.full.get n = false

theorem Free.publish {d : Dispatcher} (hfree : Free d) (e : Event) :
    (d.publish e).events = d.events ++ [e] ∧ Free (d.publish e) := by
  refine ⟨?_, fun n => hfree (n + 1)⟩
  unfold Dispatcher.publish
  rw [show d.full.head = false from hfree 0]
  rfl

structure Announced (K : Kit F P D Q C S) (c c' : Collection F P D Q C S) (x : Call F P) :
    Prop where
  events : c'.dispatcher.events = c.dispatcher.events ++ changes K c c' x
  free : Free c'.dispatcher

theorem announced_self {K : Kit F P D Q C S} {c c' : Collection F P D Q C S} (x : Call F P)
    (hfree : Free c.dispatcher) (hindex : c'.index = c.index)
    (hsparse : c'.sparseIdx = c.sparseIdx) (hdispatcher : c'.dispatcher = c.dispatcher) :
    Announced K c c' x := by
  refine ⟨?_, hdispatcher ▸ hfree⟩
  rw [changes_self hindex hsparse, append_nil, hdispatcher]

theorem announced_none {K : Kit F P D Q C S} {c c' : Collection F P D Q C S} {x : Call F P}
    {id : Bytes} (hsubject : subjects x = [id]) (hfree : Free c.dispatcher)
    (hbefore : presence c id ≠ .live) (hafter : presence c' id ≠ .live)
    (hdispatcher : c'.dispatcher = c.dispatcher) : Announced K c c' x := by
  refine ⟨?_, hdispatcher ▸ hfree⟩
  rw [changes, hsubject, filterMap_cons, changeOf_none hbefore hafter, hdispatcher]
  exact (append_nil _).symm

theorem announced_one {K : Kit F P D Q C S} {c c' : Collection F P D Q C S} {x : Call F P}
    {id : Bytes} {type : EventType} (hsubject : subjects x = [id]) (hfree : Free c.dispatcher)
    (hchange : changeOf K c c' id = some type)
    (hdispatcher : c'.dispatcher = c.dispatcher.publish ⟨c.config.name, type, id⟩) :
    Announced K c c' x := by
  obtain ⟨hevents, hfree'⟩ := hfree.publish ⟨c.config.name, type, id⟩
  refine ⟨?_, hdispatcher ▸ hfree'⟩
  rw [hdispatcher, hevents, changes, hsubject, filterMap_cons, hchange]
  rfl

/-! ## The calls -/

section Calls

variable [Scalar F]

/-- The point fails the checks, or has a dense vector of the wrong dimension or for an id that is known. -/
def Refused (c : Collection F P D Q C S) (p : Point F P) : Prop :=
  p.validate.toBool = false ∨
    p.vector ≠ [] ∧ (p.vector.length ≠ c.config.dimension ∨ presence c p.id ≠ .absent)

/-- The condition on a call: inserts store nothing, an upsert does not find a live point, and a
    delete does not find a deleted one. -/
def Announces (c : Collection F P D Q C S) : Call F P → Prop
  | .insert p => Refused c p
  | .insertBatch ps => ∀ p ∈ ps, accepted c.config p = true → presence c p.id ≠ .absent
  | .insertV2 _ _ => False
  | .upsert p => accepted c.config p = false ∨ presence c p.id ≠ .live
  | .delete id => presence c id ≠ .deleted
  | .search .. => True
  | .setWAL _ => True
  | .setEfSearch _ => True

variable {K : Kit F P D Q C S} {c c' : Collection F P D Q C S} {h : Index F P Q C S}
  {p : Point F P} {e : Option (Error F)}

variable (hsingle : c.config.hasNamedVectors = false)
include hsingle

section

variable (hindex : c.index = some h)
include hindex

theorem insertInternal_known (hvec : p.vector ≠ []) (hknown : h.idToIndex p.id ≠ none)
    (hins : insertInternal K c p = .value (c', e)) : c' = c ∧ e ≠ none := by
  cases insertInternal_effect hsingle hindex hins with
  | sparseOnly hnil => exact absurd hnil hvec
  | failed _ _ hsame =>
    rw [hsame hknown, ← hindex]
    exact ⟨rfl, some_ne_none _⟩
  | stored _ _ hnew => exact absurd hnew.store.2.1 hknown

theorem announced_insert (hx : Indexed h) (hfree : Free c.dispatcher) (hval : p.validate = .ok ())
    (hcond : Refused c p) (hins : insertInternal K c p = .value (c', e)) :
    Announced K c c' (.insert p) := by
  have hpresence := presence_eq hindex p.id
  rcases hcond with hbad | ⟨hvec, hcond⟩
  · rw [hval] at hbad
    cases hbad
  · cases insertInternal_effect hsingle hindex hins with
    | sparseOnly hnil => exact absurd hnil hvec
    | failed _ hidle hsame =>
      by_cases hid : h.idToIndex p.id = none
      · have habsent := (presenceIn_absent hx).mpr hid
        refine announced_none rfl hfree ?_ ?_ rfl
        · rw [hpresence, habsent]
          decide
        · rw [presence_eq rfl, presenceIn_idle hidle, habsent]
          decide
      · rw [hsame hid, ← hindex]
        exact announced_self _ hfree rfl rfl rfl
    | stored _ hlen hnew =>
      rcases hcond with hne | hknown
      · exact absurd hlen hne
      · rw [hpresence, Ne, presenceIn_absent hx] at hknown
        exact absurd hnew.store.2.1 hknown

omit hsingle in
theorem announced_upsert (hfree : Free c.dispatcher)
    (hcond : presence c p.id ≠ .live) (hups : upsertInternal K c p = .value (c', e)) :
    Announced K c c' (.upsert p) := by
  have hpresence := presence_eq hindex p.id
  cases upsertInternal_effect hindex hups with
  | known hid hdel =>
    refine announced_none rfl hfree hcond ?_ rfl
    rw [presence_eq rfl, presenceIn_deleted hdel]
    decide
  | failed hid hidle =>
    refine announced_none rfl hfree hcond ?_ rfl
    rwa [presence_eq rfl, presenceIn_idle hidle, ← hpresence]
  | stored hnew =>
    refine announced_one rfl hfree (changeOf_insert hcond ?_) rfl
    exact presenceIn_inserted (p := storedPoint c p) hnew

omit [Scalar F] hsingle in
theorem announced_delete {id : Bytes} (hx : Indexed h)
    (hfree : Free c.dispatcher) (hcond : presence c id ≠ .deleted)
    (hcall : deleteInternal c id = .value (c', e)) : Announced K c c' (.delete id) := by
  cases deleteInternal_effect hindex hcall with
  | unknown => exact announced_self _ hfree rfl rfl rfl
  | known hid hdel =>
    have hlive : presence c id = .live := by
      have hknown : presence c id ≠ .absent := by
        rw [presence_eq hindex, Ne, presenceIn_absent hx, hid]
        exact some_ne_none _
      cases hp : presence c id with
      | absent => exact absurd hp hknown
      | deleted => exact absurd hp hcond
      | live => rfl
    refine announced_one rfl hfree (changeOf_delete hlive ?_) rfl
    rw [presence_eq rfl, presenceIn_deleted hdel]
    decide

end

theorem announced_call {x : Call F P} {reply : Reply F P D} (hdim : c.config.dimension ≠ 0)
    (hindex : c.index = some h) (hx : Indexed h) (hfree : Free c.dispatcher)
    (hcond : Announces c x) (hcall : call K c x = .value (c', reply)) : Announced K c c' x := by
  cases called hcall with
  | insert hins =>
    rcases insert_cases hins with ⟨w, err, rfl, -⟩ | ⟨hval, w, c₂, hint, rfl⟩
    · exact announced_self _ hfree rfl rfl rfl
    · have hdone := announced_insert (c := { c with wal := w }) hsingle hindex hx hfree hval hcond
        hint
      split
      · exact ⟨hdone.events, hdone.free⟩
      · exact ⟨hdone.events, hdone.free⟩
  | insertBatch hins =>
    rcases insertBatch_cases hins with ⟨⟨w, rfl⟩, -⟩ | ⟨w, c₂, r₀, happ, rfl, -⟩
    · exact announced_self _ hfree rfl rfl rfl
    · -- Every point that is tried has a known id, so no insert changes anything.
      have hsame : c₂ = { c with wal := w } := by
        refine applyBatch_induct (I := fun s _ => s = { c with wal := w })
          (fun s s' p e stored hp hs hint => ?_) [] rfl happ
        subst hs
        obtain ⟨hp, hacc⟩ := mem_filter.mp hp
        have hknown := hcond p hp hacc
        rw [presence_eq hindex, Ne, presenceIn_absent hx] at hknown
        have hvec : p.vector ≠ [] := by
          intro hnil
          exact hdim (by rw [← (accepted_iff.mp hacc).2, hnil]; rfl)
        exact (insertInternal_known (c := { c with wal := w }) hsingle hindex hvec hknown hint).1
      subst hsame
      exact announced_self _ hfree rfl rfl rfl
  | insertV2 => exact hcond.elim
  | @upsert p _ _ hups =>
    rcases upsert_cases hups with ⟨w, err, rfl, -⟩ | ⟨hval, hlen, w, hint⟩
    · exact announced_self _ hfree rfl rfl rfl
    · have hacc : accepted c.config p = true := accepted_iff.mpr ⟨hval, hlen⟩
      have hlive : presence c p.id ≠ .live := hcond.resolve_left (by rw [hacc]; decide)
      have hdone := announced_upsert (c := { c with wal := w }) hindex hfree hlive hint
      exact ⟨hdone.events, hdone.free⟩
  | delete hdel =>
    rcases delete_cases hdel with ⟨w, err, rfl, -⟩ | ⟨w, c₂, hint, rfl⟩
    · exact announced_self _ hfree rfl rfl rfl
    · have hdone := announced_delete (K := K) (c := { c with wal := w }) hindex hx hfree hcond hint
      split
      · exact ⟨hdone.events, hdone.free⟩
      · exact ⟨hdone.events, hdone.free⟩
  | search hfind =>
    rw [searchWithParams_frame hfind]
    exact announced_self _ hfree rfl rfl rfl
  | setWAL => exact announced_self _ hfree rfl rfl rfl
  | setEfSearch => exact ⟨(append_nil _).symm, hfree⟩

end Calls

/-! ## The replay -/

section Replay

variable [Scalar F]

/-- The callback of the replay, with the count of records. An insert of a known id is not counted. -/
def replayRecord (K : Kit F P D Q C S) (s : Collection F P D Q C S × ℕ) (r : Wal.Record) :
    Outcome Empty (Collection F P D Q C S × ℕ) :=
  let (c, count) := s
  if r.collection ≠ c.config.name then .value (c, count)
  else if r.type = Wal.RecordType.insert then
    match K.codec.deserializePoint r.data with
    | .error _ => .value (c, count)
    | .ok p => do
      let (c, err) ← insertInternal K c p
      match err with
      | some (.index e) =>
        if e.message = "point with this ID already exists" then return (c, count)
        else return (c, count + 1)
      | _ => return (c, count + 1)
  else if r.type = Wal.RecordType.update then
    match K.codec.deserializePoint r.data with
    | .error _ => .value (c, count)
    | .ok p => do
      let (c, _) ← upsertInternal K c p
      return (c, count + 1)
  else if r.type = Wal.RecordType.delete then do
    let (c, _) ← deleteInternal c r.data
    return (c, count + 1)
  else
    -- checkpoints, and types the replay does not know
    .value (c, count + 1)

def replayStep (K : Kit F P D Q C S) (s : Collection F P D Q C S × ℕ) (r : Wal.Record) :
    Option (Collection F P D Q C S × ℕ) :=
  match replayRecord K s r with
  | .value s => some s
  | _ => none

/-- The condition on a record: an Update brings no new id, and a Delete does not find its id. -/
def Quiet (K : Kit F P D Q C S) (c : Collection F P D Q C S) (r : Wal.Record) : Prop :=
  r.collection = c.config.name →
    (r.type = Wal.RecordType.update → ∀ p, K.codec.deserializePoint r.data = .ok p →
      presence c p.id ≠ .absent) ∧
    (r.type = Wal.RecordType.delete → presence c r.data = .absent)

/-- The collection as a replay finds it, with nothing published since `d`. -/
structure Silent (d : Dispatcher) (c : Collection F P D Q C S) : Prop where
  single : c.config.hasNamedVectors = false
  index : ∃ h, c.index = some h ∧ Indexed h
  dispatcher : c.dispatcher = d

variable {K : Kit F P D Q C S} {d : Dispatcher} {c c' : Collection F P D Q C S}
  {h : Index F P Q C S} {p : Point F P} {e : Option (Error F)}

variable (hs : Silent d c)
include hs

theorem Silent.insert (hins : insertInternal K c p = .value (c', e)) : Silent d c' := by
  obtain ⟨h, hindex, hx⟩ := hs.index
  cases insertInternal_effect hs.single hindex hins with
  | sparseOnly => exact ⟨hs.single, ⟨h, hindex, hx⟩, hs.dispatcher⟩
  | failed _ hidle => exact ⟨hs.single, ⟨_, rfl, hidle.indexed hx⟩, hs.dispatcher⟩
  | stored _ _ hnew => exact ⟨hs.single, ⟨_, rfl, hnew.indexed hx⟩, hs.dispatcher⟩

theorem Silent.upsert (hknown : presence c p.id ≠ .absent)
    (hups : upsertInternal K c p = .value (c', e)) : Silent d c' := by
  obtain ⟨h, hindex, hx⟩ := hs.index
  rw [presence_eq hindex, Ne, presenceIn_absent hx] at hknown
  cases upsertInternal_effect hindex hups with
  | known hid hdel => exact ⟨hs.single, ⟨_, rfl, Graph.indexed_delete hx hdel⟩, hs.dispatcher⟩
  | failed hid hidle => exact ⟨hs.single, ⟨_, rfl, hidle.indexed hx⟩, hs.dispatcher⟩
  | stored hnew => exact absurd hnew.store.2.1 hknown

omit [Distance D] [Scalar F] in
theorem Silent.delete {id : Bytes} (hunknown : presence c id = .absent)
    (hdel : deleteInternal c id = .value (c', e)) : Silent d c' := by
  obtain ⟨h, hindex, hx⟩ := hs.index
  rw [presence_eq hindex, presenceIn_absent hx] at hunknown
  cases deleteInternal_effect hindex hdel with
  | unknown => exact hs
  | known hid => cases hid.symm.trans hunknown

theorem Silent.record {n n' : ℕ} {r : Wal.Record} (hq : Quiet K c r)
    (hrec : replayRecord K (c, n) r = .value (c', n')) : Silent d c' := by
  unfold replayRecord at hrec
  simp only at hrec
  split at hrec
  · cases hrec
    exact hs
  · rename_i hname
    obtain ⟨hupdate, hdelete⟩ := hq (not_not.mp hname)
    split at hrec
    · split at hrec
      · cases hrec
        exact hs
      · obtain ⟨⟨c₁, err⟩, hins, hret⟩ := bind_eq_value.mp hrec
        have hdone := hs.insert hins
        split at hret
        · split at hret <;>
          · cases hret
            exact hdone
        · cases hret
          exact hdone
    · split at hrec
      · rename_i htype
        split at hrec
        · cases hrec
          exact hs
        · rename_i p hp
          obtain ⟨⟨c₁, err⟩, hups, hret⟩ := bind_eq_value.mp hrec
          cases hret
          exact hs.upsert (hupdate htype p hp) hups
      · split at hrec
        · rename_i htype
          obtain ⟨⟨c₁, err⟩, hdel, hret⟩ := bind_eq_value.mp hrec
          cases hret
          exact hs.delete (hdelete htype) hdel
        · cases hrec
          exact hs

theorem Silent.replay {records : List Wal.Record} {n n' : ℕ}
    (hq : Along (replayStep K) (fun s r => Quiet K s.1 r) (c, n) records)
    (hrun : run (replayStep K) (c, n) records = some (c', n')) : Silent d c' := by
  refine run_along (I := fun s => Silent d s.1) (fun s r s' hI hq hstep => ?_) hs hq hrun
  unfold replayStep at hstep
  split at hstep
  · rename_i s₁ hrec
    cases hstep
    exact hI.record hq hrec
  · cases hstep

end Replay

/-! ## Every history -/

/-- The collection, and the events that should have been published so far. -/
noncomputable def stepEvents [Scalar F] (K : Kit F P D Q C S)
    (s : Collection F P D Q C S × List Event) (x : Call F P) :
    Option (Collection F P D Q C S × List Event) :=
  (step K s.1 x).map fun c => (c, s.2 ++ changes K s.1 c x)

/-- **The events of a history are its changes, and a replay has none**, for a single-vector collection with a
    dispatcher that is never full, if every call and every record meets its condition. -/
theorem events_exact [Scalar F] {K : Kit F P D Q C S} {cfg : Config} {parts : Bytes → Parts Q S}
    {payloads : ℕ → Option P} {dispatcher : Dispatcher} {c₀ : Collection F P D Q C S}
    (hnew : new cfg parts payloads dispatcher = .ok c₀) (hsingle : cfg.hasNamedVectors = false)
    (hfree : Free dispatcher) :
    (∀ xs c expected, Along (stepEvents K) (fun s x => Announces s.1 x) (c₀, []) xs →
      run (stepEvents K) (c₀, []) xs = some (c, expected) →
      c.dispatcher.events = dispatcher.events ++ expected) ∧
    ∀ (c : Collection F P D Q C S) h records c' n, c.config.hasNamedVectors = false →
      c.index = some h → Indexed h →
      Along (replayStep K) (fun s r => Quiet K s.1 r) (c, 0) records →
      run (replayStep K) (c, 0) records = some (c', n) → c'.dispatcher = c.dispatcher := by
  refine ⟨fun xs c expected hcond hrun => ?_, fun c h records c' n hlayout hindex hx hq hrun => ?_⟩
  · obtain ⟨hval, h₀, hindex, rfl⟩ := new_single hnew hsingle
    have hdim := dimension_ne_zero hval hsingle
    -- The index stays in order, and the events are the expected ones so far.
    have hend := run_along (I := fun s : Collection F P D Q C S × List Event =>
      s.1.config = cfg ∧ (∃ h, s.1.index = some h ∧ Listed h) ∧ Free s.1.dispatcher ∧
        s.1.dispatcher.events = dispatcher.events ++ s.2) (fun s x s' hI hc hstep => ?_)
      ⟨rfl, ⟨h₀, rfl, listed_new hindex⟩, hfree, (append_nil _).symm⟩ hcond hrun
    · exact hend.2.2.2
    · obtain ⟨c₁, hone, rfl⟩ := map_eq_some_iff.mp hstep
      obtain ⟨reply, hcall⟩ := call_of_step hone
      obtain ⟨hconfig, ⟨h, hh, hl⟩, hfree', hevents⟩ := hI
      have hdone := announced_call (hconfig ▸ hsingle) (hconfig ▸ hdim) hh hl.indexed hfree' hc
        hcall
      have hev := call_evolves hcall
      refine ⟨hev.config.trans hconfig, listed_of_evolves hev hh hl, hdone.free, ?_⟩
      rw [hdone.events, hevents, append_assoc]
  · exact (Silent.replay ⟨hlayout, ⟨h, hindex, hx⟩, rfl⟩ hq hrun).dispatcher

def codecKit : Kit ℕ ℕ ℕ Unit Unit Unit :=
  { lineKit with codec := ⟨lineKit.codec.serializePoint, fun data =>
      match data with
      | [id, x] => .ok (linePoint id x.toNat none none)
      | _ => .error "too short"⟩ }

theorem stepEvents_eq {K : Kit ℕ ℕ ℕ Unit Unit Unit} {c c' : Collection ℕ ℕ ℕ Unit Unit Unit}
    {x : Call ℕ ℕ} (hstep : step K c x = some c') (expected : List Event) :
    stepEvents K (c, expected) x = some (c', expected ++ changes K c c' x) := by
  unfold stepEvents
  rw [hstep]
  rfl

/-- **An insert publishes no event, a second delete publishes one** though nothing changes, **and a replay
    publishes** those of its Update and Delete records again. -/
theorem events_inexact : (∃ c expected, run (stepEvents codecKit) (lineCollection, [])
        [.insert (linePoint 1 5 none none)] = some (c, expected) ∧
      c.dispatcher.events = [] ∧ expected = [⟨[99], .insert, [1]⟩]) ∧
    (∃ c expected, run (stepEvents codecKit) (lineCollection, [])
        [.upsert (linePoint 1 5 none none), .delete [1], .delete [1]] = some (c, expected) ∧
      c.dispatcher.events.length = 3 ∧ expected.length = 2) ∧
    ∃ c n, run (replayStep codecKit) (lineCollection, 0)
        [record Wal.RecordType.update [99] [1, 5], record Wal.RecordType.delete [99] [1]] =
          some (c, n) ∧
      c.dispatcher.events = [⟨[99], .insert, [1]⟩, ⟨[99], .delete, [1]⟩] := by
  refine ⟨?_, ?_, ?_⟩
  · have hview : (step codecKit lineCollection (.insert (linePoint 1 5 none none))).any (fun c =>
        c.dispatcher.events = [] ∧ presence c [1] = .live) = true := by decide +kernel
    obtain ⟨c, hstep, hview⟩ := (Option.any_eq_true ..).mp hview
    obtain ⟨hevents, hlive⟩ := of_decide_eq_true hview
    refine ⟨c, _, run_cons.mpr ⟨_, stepEvents_eq hstep [], rfl⟩, hevents, ?_⟩
    have hchange : changeOf codecKit lineCollection c [1] = some .insert :=
      changeOf_insert (by decide) hlive
    simp only [changes, subjects, linePoint, filterMap_cons, hchange, map_some]
    rfl
  · have hview : (step codecKit lineCollection (.upsert (linePoint 1 5 none none))).any (fun c₁ =>
        presence c₁ [1] = .live && (step codecKit c₁ (.delete [1])).any fun c₂ =>
          presence c₂ [1] = .deleted && (step codecKit c₂ (.delete [1])).any fun c₃ =>
            presence c₃ [1] = .deleted && c₃.dispatcher.events.length = 3) = true := by
      decide +kernel
    obtain ⟨c₁, hstep₁, hview⟩ := (Option.any_eq_true ..).mp hview
    obtain ⟨hlive, hview⟩ := Bool.and_eq_true_iff.mp hview
    obtain ⟨c₂, hstep₂, hview⟩ := (Option.any_eq_true ..).mp hview
    obtain ⟨hdel₂, hview⟩ := Bool.and_eq_true_iff.mp hview
    obtain ⟨c₃, hstep₃, hview⟩ := (Option.any_eq_true ..).mp hview
    obtain ⟨hdel₃, hevents⟩ := Bool.and_eq_true_iff.mp hview
    refine ⟨c₃, _, run_cons.mpr ⟨_, stepEvents_eq hstep₁ [], run_cons.mpr ⟨_,
      stepEvents_eq hstep₂ _, run_cons.mpr ⟨_, stepEvents_eq hstep₃ _, rfl⟩⟩⟩,
      of_decide_eq_true hevents, ?_⟩
    have hlive := of_decide_eq_true hlive
    have hdel₂ := of_decide_eq_true hdel₂
    have hdel₃ := of_decide_eq_true hdel₃
    have hchange₁ : changeOf codecKit lineCollection c₁ [1] = some .insert :=
      changeOf_insert (by decide) hlive
    have hchange₂ : changeOf codecKit c₁ c₂ [1] = some .delete :=
      changeOf_delete hlive (by rw [hdel₂]; decide)
    have hchange₃ : changeOf codecKit c₂ c₃ [1] = none :=
      changeOf_none (by rw [hdel₂]; decide) (by rw [hdel₃]; decide)
    simp only [changes, subjects, linePoint, filterMap_cons, hchange₁, hchange₂, hchange₃,
      map_some, map_none, filterMap_nil, length_append, length_cons,
      length_nil]
  · have hview : (run (replayStep codecKit) (lineCollection, 0)
        [record Wal.RecordType.update [99] [1, 5], record Wal.RecordType.delete [99] [1]]).any
        (fun s => s.1.dispatcher.events = [⟨[99], .insert, [1]⟩, ⟨[99], .delete, [1]⟩]) = true := by
      decide +kernel
    obtain ⟨⟨c, n⟩, hrun, hview⟩ := (Option.any_eq_true ..).mp hview
    exact ⟨c, n, hrun, of_decide_eq_true hview⟩

theorem run_stepEvents {K : Kit ℕ ℕ ℕ Unit Unit Unit} {xs : List (Call ℕ ℕ)}
    {c c' : Collection ℕ ℕ ℕ Unit Unit Unit} (expected : List Event)
    (hcond : Along (step K) Announces c xs) (hrun : run (step K) c xs = some c') :
    Along (stepEvents K) (fun s x => Announces s.1 x) (c, expected) xs ∧
      ∃ expected', run (stepEvents K) (c, expected) xs = some (c', expected') := by
  induction xs generalizing c expected with
  | nil =>
    cases hrun
    exact ⟨trivial, expected, rfl⟩
  | cons x xs ih =>
    obtain ⟨c₁, hstep, hrun⟩ := run_cons.mp hrun
    obtain ⟨halong, expected', hrest⟩ :=
      ih (expected ++ changes K c c₁ x) (hcond.2 c₁ hstep) hrun
    have hone := stepEvents_eq hstep expected
    refine ⟨⟨hcond.1, fun s hs => ?_⟩, expected', run_cons.mpr ⟨_, hone, hrest⟩⟩
    cases hone.symm.trans hs
    exact halong

instance [Scalar F] (c : Collection F P D Q C S) (x : Call F P) : Decidable (Announces c x) := by
  match x with
  | .insert p => exact inferInstanceAs (Decidable (_ ∨ _ ∧ (_ ∨ _)))
  | .insertBatch _ | .insertV2 .. | .upsert _ | .delete _ | .search .. | .setWAL _ | .setEfSearch _ =>
    unfold Announces
    infer_instance

/-- A point comes and goes, and comes back in vain; a replay of its insert is silent. -/
theorem events_exact_line : (∃ c expected, run (stepEvents codecKit) (lineCollection, [])
        [.upsert (linePoint 1 5 none none), .delete [1], .insert (linePoint 1 6 none none)] =
          some (c, expected) ∧
      c.dispatcher.events = expected ∧
      expected = [⟨[99], .insert, [1]⟩, ⟨[99], .delete, [1]⟩]) ∧
    ∃ c n, run (replayStep codecKit) (lineCollection, 0)
        [record Wal.RecordType.insert [99] [1, 5], record Wal.RecordType.delete [99] [2]] =
          some (c, n) ∧ c.dispatcher = freeDispatcher := by
  obtain ⟨hevents, hreplay⟩ := events_exact lineCollection_new rfl fun _ => rfl
  constructor
  · have hview : (run (step codecKit) lineCollection
        [.upsert (linePoint 1 5 none none), .delete [1], .insert (linePoint 1 6 none none)]).any
        (fun c => c.dispatcher.events = [⟨[99], .insert, [1]⟩, ⟨[99], .delete, [1]⟩]) = true := by
      decide +kernel
    obtain ⟨c, hrun, hview⟩ := (Option.any_eq_true ..).mp hview
    obtain ⟨halong, expected, hrun'⟩ := run_stepEvents [] (by decide +kernel) hrun
    have hexact : c.dispatcher.events = expected := hevents _ c expected halong hrun'
    exact ⟨c, expected, hrun', hexact, hexact.symm.trans (of_decide_eq_true hview)⟩
  · have hrun : (run (replayStep codecKit) (lineCollection, 0) [record Wal.RecordType.insert [99]
        [1, 5], record Wal.RecordType.delete [99] [2]]).isSome = true := by decide +kernel
    obtain ⟨⟨c, n⟩, hrun⟩ := isSome_iff_exists.mp hrun
    have hquiet : (replayStep codecKit (lineCollection, 0)
        (record Wal.RecordType.insert [99] [1, 5])).all (fun s => presence s.1 [2] = .absent) =
        true := by decide +kernel
    have halong : Along (replayStep codecKit) (fun s r => Quiet codecKit s.1 r) (lineCollection, 0)
        [record Wal.RecordType.insert [99] [1, 5], record Wal.RecordType.delete [99] [2]] := by
      refine ⟨fun _ => ⟨?_, ?_⟩, fun s hs => ⟨fun _ => ⟨?_, fun _ => ?_⟩, fun _ _ => trivial⟩⟩
      · exact fun htype => absurd htype (by decide)
      · exact fun htype => absurd htype (by decide)
      · exact fun htype => absurd htype (by decide)
      · rw [hs] at hquiet
        exact of_decide_eq_true hquiet
    exact ⟨c, n, hrun, hreplay _ _ _ c n rfl rfl (fun id i => by simp) halong hrun⟩

end LimyeDB.Hybrid
