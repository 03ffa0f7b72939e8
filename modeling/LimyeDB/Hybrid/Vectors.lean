/-
  A POINT WITH SEVERAL VECTORS: what InsertV2 leaves in the indices of a collection with named vectors, in
  every order of the loop and at every place where it fails.

  An id that an index knows already is no error.
-/
import LimyeDB.Hybrid.Calls

namespace LimyeDB.Hybrid

open Go Hnsw Lib.Runs List Function
open LimyeDB.Graph (Index Tools Distance Inserted Idle Working)
open LimyeDB.Collection (Error BatchResult)

variable {F P D Q C S : Type}

/-! ## What every named index keeps -/

def NamedAll (I : Bytes → Index F P Q C S → Prop) (indices : Bytes → Option (Index F P Q C S)) :
    Prop :=
  ∀ name h, indices name = some h → I name h

section Rule

variable [Distance D] {K : Kit F P D Q C S} {I : Bytes → Index F P Q C S → Prop}
  (hkeep : ∀ name h h' p e, I name h → insertInto K name h p = .value (h', e) → I name h')
  {c c' : Collection F P D Q C S}

theorem namedAll_update {indices : Bytes → Option (Index F P Q C S)} {name : Bytes}
    {h : Index F P Q C S} (hall : NamedAll I indices) (hI : I name h) :
    NamedAll I (update indices name (some h)) := by
  intro name' h' hh'
  by_cases hname : name' = name
  · subst hname
    rw [update_self] at hh'
    cases hh'
    exact hI
  · rw [update_of_ne hname] at hh'
    exact hall name' h' hh'

include hkeep

variable {e : Option (VectorError F)}

theorem insertVector_named {name : Bytes} {h : Index F P Q C S} {p : Point F P}
    (hindex : c.indices name = some h) (hall : NamedAll I c.indices)
    (hins : insertVector K c name h p = .value (c', e)) : NamedAll I c'.indices := by
  obtain ⟨h₁, err, hinto, rfl, -⟩ := insertVector_cases hins
  exact namedAll_update hall (hkeep name h h₁ p err (hall name h hindex) hinto)

variable [Scalar F]

variable (hall : NamedAll I c.indices)
include hall

theorem insertNamed_named {id : Bytes} {payload : Option P} {named : List (Bytes × List F)}
    {e : Option (Error F)}
    (hins : insertNamed K id payload named c = .value (c', e)) : NamedAll I c'.indices := by
  induction named generalizing c with
  | nil =>
    cases hins
    exact hall
  | cons nv named ih =>
    obtain ⟨name, vec⟩ := nv
    unfold insertNamed at hins
    split at hins
    · rename_i h vc hindex hvc
      split at hins
      · cases hins
        exact hall
      · obtain ⟨⟨h₁, err⟩, hinto, hrest⟩ := Outcome.bind_eq_value.mp hins
        have hall' := namedAll_update hall (hkeep name h h₁ _ err (hall name h hindex) hinto)
        cases err with
        | some err =>
          cases hrest
          exact hall'
        | none =>
          exact ih (c := { c with indices := update c.indices name (some h₁) }) hall' hrest
    · exact ih hall hins

theorem insertInternal_named {p : Point F P} {e : Option (Error F)}
    (hins : insertInternal K c p = .value (c', e)) : NamedAll I c'.indices := by
  refine insertInternal_keeps (fun c₁ _ hdef => ?_)
    (fun c₁ c₂ _ hI hn => insertNamed_named hkeep hI hn) (fun c₁ c₂ _ hI hrest => ?_)
    (fun _ hI => hI) hins
  · rcases insertDefault_cases hdef with ⟨rfl, -⟩ | ⟨h₀, h₁, err, -, -, -, -, rfl, -⟩
    · exact hall
    · exact hall
  · obtain ⟨-, h₀, -, sparseIdx, -, rfl⟩ := insertRest_cases hrest
    exact hI

theorem insertVectors_named {p : PointV2 F P} {vectors : List (Bytes × List F)}
    (hins : insertVectors K p vectors c = .value (c', e)) : NamedAll I c'.indices := by
  induction vectors generalizing c with
  | nil =>
    cases hins
    exact hall
  | cons nv vectors ih =>
    obtain ⟨name, vec⟩ := nv
    unfold insertVectors at hins
    split at hins
    · cases hins
      exact hall
    · rename_i h hindex
      split at hins
      · cases hins
        exact hall
      · split at hins
        · cases hins
          exact hall
        · rcases andThen_value hins with ⟨err, hone, -⟩ | ⟨c₁, hone, hrest⟩
          · exact insertVector_named hkeep hindex hall hone
          · exact ih (insertVector_named hkeep hindex hall hone) hrest

theorem insertV2_named {names : List Bytes} {p : PointV2 F P}
    (hins : insertV2 K c names p = .value (c', e)) : NamedAll I c'.indices := by
  refine insertV2_keeps hall
    (fun c₁ _ hvec => insertVectors_named hkeep hall hvec) (fun c₁ c₂ _ hI hdef => ?_) (fun _ _ hI => hI)
    (fun _ hleg => ?_) hins
  · unfold insertDefaultVector at hdef
    split at hdef
    · cases hdef
      exact hI
    · split at hdef
      · cases hdef
        exact hI
      · rename_i h hindex
        exact insertVector_named hkeep hindex hI hdef
  · rcases insertLegacy_cases hleg with rfl | ⟨vec, h₀, h₁, err, payloads, -, -, -, -, rfl⟩
    · exact hall
    · exact hall

theorem run_named {xs : List (Call F P)}
    (hrun : run (step K) c xs = some c') : NamedAll I c'.indices := by
  refine Kept.run (I := fun s => NamedAll I s.indices) ⟨fun _ _ _ hI => hI, ?_, ?_, ?_, ?_, ?_⟩
    hall hrun
  · exact fun s p s' e hI _ hins => insertInternal_named hkeep hI hins
  · exact fun s names p s' e hI hins => insertV2_named hkeep hI hins
  · intro s p s' e hI _ hups
    obtain ⟨h₀, h₁, h₂, err, -, -, -, -, rfl⟩ := upsertInternal_cases hups
    exact hI
  · intro s id s' e hI hdel
    obtain ⟨h₀, -, ⟨err, -, -, rfl⟩ | ⟨h₁, -, -, rfl⟩⟩ := deleteInternal_cases hdel
    · exact hI
    · exact hI
  · exact fun s h ef hI _ => hI

end Rule

/-! ## Writes -/

/-- The write of a vector fails: there is no index, the dimension is another one, or the id is new
    and the index is full. -/
def fails (indices : Bytes → Option (Index F P Q C S)) (id : Bytes) (w : Bytes × List F) : Bool :=
  match indices w.1 with
  | none => true
  | some h => decide (w.2.length ≠ h.dimension) ||
      (h.idToIndex id).isNone && decide (maxNodes ≤ h.nodes.length)

def knows (indices : Bytes → Option (Index F P Q C S)) (id name : Bytes) : Bool :=
  (indices name).any fun h => (h.idToIndex id).isSome

/-- The vector that is found for the id in the index of that name. -/
def vectorIn [Distance D] (K : Kit F P D Q C S) (indices : Bytes → Option (Index F P Q C S))
    (id name : Bytes) : Option (List F) :=
  match indices name with
  | none => none
  | some h =>
    match Hnsw.get (K.tools name).mmap h id with
    | .value pt => some pt.vector
    | _ => none

def Same [Distance D] (K : Kit F P D Q C S) (indices indices' : Bytes → Option (Index F P Q C S)) :
    Prop :=
  ∀ name, match indices name, indices' name with
    | none, none => True
    | some h, some h' => Idle h h' ∧
        ∀ id, Hnsw.get (K.tools name).mmap h' id = Hnsw.get (K.tools name).mmap h id
    | _, _ => False

/-- **Writes that go through**: where the index knows the id nothing happens, otherwise the vector
    is stored. -/
inductive Wrote [Distance D] (K : Kit F P D Q C S) (id : Bytes) :
    (Bytes → Option (Index F P Q C S)) → List (Bytes × List F) →
      (Bytes → Option (Index F P Q C S)) → Prop where
  | nil {indices} : Wrote K id indices [] indices
  | known {indices indices' name v ws} (hfails : fails indices id (name, v) = false)
      (hknows : knows indices id name = true) (hrest : Wrote K id indices ws indices') :
      Wrote K id indices ((name, v) :: ws) indices'
  | stored {indices indices' name ws h h'} {p : Point F P} (hindex : indices name = some h)
      (hid : p.id = id) (hins : Inserted (K.tools name) h p h' none)
      (hrest : Wrote K id (update indices name (some h')) ws indices') :
      Wrote K id indices ((name, p.vector) :: ws) indices'

section Wrote

variable [Distance D] {K : Kit F P D Q C S} {id : Bytes}
  {indices indices' indices'' : Bytes → Option (Index F P Q C S)} {ws ws' : List (Bytes × List F)}

theorem Same.refl (indices : Bytes → Option (Index F P Q C S)) : Same K indices indices := by
  intro name
  cases indices name with
  | none => trivial
  | some h => exact ⟨.refl h, fun _ => rfl⟩

theorem Wrote.append (h₁ : Wrote K id indices ws indices') (h₂ : Wrote K id indices' ws' indices'') :
    Wrote K id indices (ws ++ ws') indices'' := by
  induction h₁ with
  | nil => exact h₂
  | known hfails hknows _ ih => exact .known hfails hknows (ih h₂)
  | stored hindex hid hins _ ih => exact .stored hindex hid hins (ih h₂)

variable {name : Bytes} {h h' : Index F P Q C S} {p : Point F P}

theorem fails_stored (hindex : indices name = some h) (hins : Inserted (K.tools name) h p h' none)
    (w : Bytes × List F) :
    fails (update indices name (some h')) p.id w = fails indices p.id w := by
  unfold fails
  by_cases hname : w.1 = name
  · obtain ⟨-, hnew, hroom, -, hids, -, hdim⟩ := hins.store
    rw [hname, update_self, hindex]
    simp only [hdim, hids, update_self, hnew, Option.isNone_some, Option.isNone_none,
      Bool.false_and, Bool.true_and, decide_eq_false (Nat.not_le.mpr hroom)]
  · rw [update_of_ne hname]

section

variable (hw : Wrote K id indices ws indices')
include hw

theorem Wrote.fails_eq (w : Bytes × List F) : fails indices' id w = fails indices id w := by
  induction hw with
  | nil => rfl
  | known _ _ _ ih => exact ih
  | stored hindex hid hins _ ih =>
    subst hid
    exact ih.trans (fails_stored hindex hins w)

theorem Wrote.isSome (name : Bytes) : (indices' name).isSome = (indices name).isSome := by
  induction hw with
  | nil => rfl
  | known _ _ _ ih => exact ih
  | @stored indices indices' name' ws h h' p hindex _ _ _ ih =>
    rw [ih]
    by_cases hname : name = name'
    · rw [hname, update_self, hindex]
      rfl
    · rw [update_of_ne hname]

theorem Wrote.passes : ∀ w ∈ ws, fails indices id w = false := by
  induction hw with
  | nil => exact nofun
  | known hfails _ _ ih => exact forall_mem_cons.mpr ⟨hfails, ih⟩
  | stored hindex hid hins _ ih =>
    subst hid
    refine forall_mem_cons.mpr ⟨?_, fun w hw => (fails_stored hindex hins w) ▸ ih w hw⟩
    obtain ⟨hdim, hnew, hroom, -, -, -, -⟩ := hins.store
    unfold fails
    simp only [hindex, hdim, hnew, ne_eq, not_true, decide_false, Option.isNone_none, Bool.true_and,
      Bool.false_or, decide_eq_false (Nat.not_le.mpr hroom)]

omit hw in
theorem knows_update (name' : Bytes) : knows (update indices name (some h)) id name' =
      if name' = name then (h.idToIndex id).isSome else knows indices id name' := by
  unfold knows
  split
  · rename_i hname
    subst hname
    rw [update_self]
    rfl
  · rename_i hname
    rw [update_of_ne hname]

theorem Wrote.knows_eq (name : Bytes) :
    knows indices' id name = (knows indices id name || ws.any fun w => w.1 = name) := by
  induction hw with
  | nil => simp
  | @known indices indices' name' v ws _ hknows _ ih =>
    rw [ih, any_cons]
    by_cases hname : name' = name
    · subst hname
      simp [hknows]
    · simp [hname]
  | @stored indices indices' name' ws h h' p hindex hid hins _ ih =>
    subst hid
    obtain ⟨-, -, -, -, hids, -, -⟩ := hins.store
    rw [ih, knows_update, any_cons, hids]
    by_cases hname : name' = name
    · subst hname
      simp
    · simp [hname, Ne.symm hname]

theorem Wrote.idle (hknown : ∀ w ∈ ws, knows indices id w.1 = true) : indices' = indices := by
  induction hw with
  | nil => rfl
  | known _ _ _ ih => exact ih (forall_mem_cons.mp hknown).2
  | stored hindex hid hins _ _ =>
    have hknow := hknown _ mem_cons_self
    obtain ⟨-, hnew, -, -, -, -, -⟩ := hins.store
    rw [hid] at hnew
    unfold knows at hknow
    rw [hindex, Option.any_some, hnew] at hknow
    cases hknow

end

/-- The vector that is found behind the writes: what a known id has, or the first one of the name. -/
def held (K : Kit F P D Q C S) (indices : Bytes → Option (Index F P Q C S)) (id : Bytes)
    (ws : List (Bytes × List F)) (name : Bytes) : Option (List F) :=
  if knows indices id name then vectorIn K indices id name else ws.lookup name

def InOrder (K : Kit F P D Q C S) (name : Bytes) (h : Index F P Q C S) : Prop :=
  Inv (K.tools name).mmap h

theorem get_inserted {T : Tools F D Q C S} (hinv : Inv T.mmap h) (hins : Inserted T h p h' none) :
    Hnsw.get T.mmap h' p.id = .value ⟨p.id, p.vector, p.payload, [], none⟩ := by
  obtain ⟨hdim, hnew, hroom, -, -, -, -⟩ := hins.store
  obtain ⟨hinv', hview⟩ := hins.table hinv hdim
  have hslot : (view T.mmap h').slot p.id = .live (p.vector, p.payload) := by
    rw [hview, Lib.WriteOnce.slot_insert, if_pos rfl, view_absent hnew]
    exact if_neg (Nat.not_le.mpr hroom)
  rw [hinv'.get_eq, Lib.WriteOnce.Table.find, hslot]
  rfl

theorem inv_of_inserted {T : Tools F D Q C S} {e : Option IndexError} (hi : Inserted T h p h' e)
    (hinv : Inv T.mmap h) : Inv T.mmap h' := by
  by_cases hdim : p.vector.length = h.dimension
  · exact (hi.table hinv hdim).1
  · cases hi with
    | mismatch => exact hinv
    | known hdim' => exact absurd hdim' hdim
    | full hdim' => exact absurd hdim' hdim
    | fresh hdim' => exact absurd hdim' hdim

theorem vectorIn_unknown (hnot : knows indices id name = false) :
    vectorIn K indices id name = none := by
  unfold vectorIn
  cases hindex : indices name with
  | none => rfl
  | some h =>
    have hnew : h.idToIndex id = none := by
      unfold knows at hnot
      rw [hindex, Option.any_some] at hnot
      exact Option.not_isSome_iff_eq_none.mp (by rw [hnot]; decide)
    simp only [Hnsw.get, hnew]

theorem vectorIn_update {name' : Bytes} (hname : name' ≠ name) :
    vectorIn K (update indices name (some h)) id name' = vectorIn K indices id name' := by
  rw [vectorIn, vectorIn, update_of_ne hname]

theorem Wrote.vectorIn_eq (hw : Wrote K id indices ws indices')
    (hinv : NamedAll (InOrder K) indices) (name : Bytes) :
    vectorIn K indices' id name = held K indices id ws name := by
  induction hw with
  | nil =>
    unfold held
    split
    · rfl
    · rename_i hnot
      exact vectorIn_unknown (Bool.eq_false_iff.mpr hnot)
  | @known indices indices' name' v ws _ hknows _ ih =>
    rw [ih hinv]
    unfold held
    split
    · rfl
    · rename_i hnot
      have hname : (name == name') = false := by
        refine beq_eq_false_iff_ne.mpr fun heq => hnot ?_
        rw [heq, hknows]
      rw [lookup_cons, hname]
  | @stored indices indices' name' ws h h' p hindex hid hins _ ih =>
    subst hid
    have hinv' : NamedAll (InOrder K) (update indices name' (some h')) :=
      namedAll_update hinv (inv_of_inserted hins (hinv name' h hindex))
    obtain ⟨-, hnew, -, -, hids, -, -⟩ := hins.store
    rw [ih hinv']
    unfold held
    rw [knows_update, hids, update_self]
    by_cases hname : name = name'
    · subst hname
      have hunknown : knows indices p.id name = false := by
        unfold knows
        rw [hindex, Option.any_some, hnew]
        rfl
      rw [if_pos rfl, hunknown, lookup_cons, beq_self_eq_true]
      simp only [Option.isSome_some, if_true, Bool.false_eq_true, if_false]
      unfold vectorIn
      simp only [update_self, get_inserted (hinv name h hindex) hins]
    · have hbeq : (name == name') = false := beq_eq_false_iff_ne.mpr hname
      rw [if_neg hname, vectorIn_update hname, lookup_cons, hbeq]

end Wrote

/-! ## The writes of a point -/

def written [Scalar F] (cfg : Config) (nv : Bytes × List F) : Bytes × List F :=
  match cfg.getVectorConfig nv.1 with
  | some vc => (nv.1, asStored vc.metric nv.2)
  | none => nv

/-- The vectors of a point that belong to the collection, in the order of the loop; the default
    vector is not normalised. -/
def writes [Scalar F] (c : Collection F P D Q C S) (p : PointV2 F P) : List (Bytes × List F) :=
  p.namedVectors.map (written c.config) ++
  if p.vector ≠ [] ∧ (c.indices defaultName).isSome then [(defaultName, p.vector)] else []

def Stopped [Distance D] (K : Kit F P D Q C S) (id : Bytes)
    (indices : Bytes → Option (Index F P Q C S)) (ws : List (Bytes × List F))
    (indices' : Bytes → Option (Index F P Q C S)) : Prop :=
  ∃ done w rest mid, ws = done ++ w :: rest ∧ Wrote K id indices done mid ∧
    fails mid id w = true ∧ Same K mid indices'

section Loop

variable [Distance D] {K : Kit F P D Q C S} {c c' : Collection F P D Q C S} {p : PointV2 F P}
  {e : Option (VectorError F)}

theorem Stopped.append {id : Bytes} {indices indices' : Bytes → Option (Index F P Q C S)}
    {ws : List (Bytes × List F)} (hstop : Stopped K id indices ws indices')
    (ws' : List (Bytes × List F)) : Stopped K id indices (ws ++ ws') indices' := by
  obtain ⟨done, w, rest, mid, rfl, hstop⟩ := hstop
  exact ⟨done, w, rest ++ ws', mid, by simp, hstop⟩

variable {h h' : Index F P Q C S} {q : Point F P} {name : Bytes}

theorem get_refused {T : Tools F D Q C S} (hinv : Inv T.mmap h)
    (hins : Inserted T h q h' (some .tooManyNodes)) (id : Bytes) :
    Hnsw.get T.mmap h' id = Hnsw.get T.mmap h id := by
  cases hins with
  | full hdim hnew hfull =>
    obtain ⟨hinv', hview⟩ := (Inserted.full hdim hnew hfull).table hinv hdim
    have hsame : (view T.mmap h).insert maxNodes q.id (q.vector, q.payload) = view T.mmap h := by
      unfold Lib.WriteOnce.Table.insert
      rw [view_absent hnew]
      exact if_neg (Nat.not_lt.mpr hfull)
    rw [hinv'.get_eq, hinv.get_eq, hview, hsame]

theorem same_update {indices : Bytes → Option (Index F P Q C S)} (hindex : indices name = some h)
    (hidle : Idle h h')
    (hget : ∀ id, Hnsw.get (K.tools name).mmap h' id = Hnsw.get (K.tools name).mmap h id) :
    Same K indices (update indices name (some h')) := by
  intro name'
  by_cases hname : name' = name
  · subst hname
    rw [update_self, hindex]
    exact ⟨hidle, hget⟩
  · rw [update_of_ne hname]
    exact Same.refl indices name'

theorem insertVector_effect (hindex : c.indices name = some h)
    (hinv : NamedAll (InOrder K) c.indices) (hins : insertVector K c name h p = .value (c', e)) :
    e = none ∧ Wrote K p.id c.indices [(name, p.vector)] c'.indices ∨
    e ≠ none ∧ fails c.indices p.id (name, p.vector) = true ∧ Same K c.indices c'.indices := by
  obtain ⟨h', err, hinto, rfl, rfl⟩ := insertVector_cases hins
  have hself : update c.indices name (some h) = c.indices := by
    rw [← hindex, update_eq_self]
  have hcases := Graph.insert_cases hinto
  cases err with
  | none => exact .inl ⟨rfl, .stored hindex rfl hcases .nil⟩
  | some err =>
    cases hcases with
    | mismatch hdim =>
      refine .inr ⟨Option.some_ne_none _, ?_, ?_⟩
      · simp [fails, hindex, hdim]
      · rw [hself]
        exact .refl c.indices
    | known hdim hid =>
      refine .inl ⟨rfl, ?_⟩
      rw [hself]
      refine .known ?_ ?_ .nil
      · simp [fails, hindex, hdim, hid]
      · simp [knows, hindex, hid]
    | full hdim hid hfull =>
      refine .inr ⟨Option.some_ne_none _, ?_, same_update hindex ?_ ?_⟩
      · simp [fails, hindex, hid, hfull]
      · exact (Inserted.full hdim hid hfull).idle
      · exact get_refused (hinv name h hindex) (.full hdim hid hfull)

theorem named_inOrder {err : Option IndexError} (hinv : InOrder K name h)
    (hins : insertInto K name h q = .value (h', err)) : InOrder K name h' :=
  inv_of_inserted (Graph.insert_cases hins) hinv

/-- The dimension of each index is the one of its configuration. -/
def Configured (cfg : Config) (name : Bytes) (h : Index F P Q C S) : Prop :=
  ∃ vc, cfg.getVectorConfig name = some vc ∧ vc.dimension = h.dimension

theorem configured_insert {cfg : Config} {err : Option IndexError} (hconf : Configured cfg name h)
    (hins : insertInto K name h q = .value (h', err)) : Configured cfg name h' := by
  obtain ⟨vc, hvc, hdim⟩ := hconf
  exact ⟨vc, hvc, hdim.trans (Graph.insert_cases hins).dimension.symm⟩

variable [Scalar F]

theorem insertVectors_effect {vectors : List (Bytes × List F)}
    (hinv : NamedAll (InOrder K) c.indices) (hconf : NamedAll (Configured c.config) c.indices)
    (hins : insertVectors K p vectors c = .value (c', e)) :
    let ws := vectors.map (written c.config)
    e = none ∧ Wrote K p.id c.indices ws c'.indices ∨
      e ≠ none ∧ Stopped K p.id c.indices ws c'.indices := by
  induction vectors generalizing c with
  | nil =>
    cases hins
    exact .inl ⟨rfl, .nil⟩
  | cons nv vectors ih =>
    obtain ⟨name, vec⟩ := nv
    have hstop : ∀ {w err}, fails c.indices p.id w = true → e = some err → c' = c →
        e ≠ none ∧ Stopped K p.id c.indices (w :: vectors.map (written c.config)) c'.indices := by
      intro w err hfails he hc'
      subst he hc'
      exact ⟨Option.some_ne_none _, [], _, _, _, rfl, .nil, hfails, .refl _⟩
    simp only [map_cons]
    unfold insertVectors at hins
    split at hins
    · rename_i hnone
      cases hins
      have hname : (written c'.config (name, vec)).1 = name := by
        unfold written
        split <;> rfl
      exact .inr (hstop (by simp [fails, hname, hnone]) rfl rfl)
    · rename_i h hindex
      obtain ⟨vc, hvc, hdim⟩ := hconf name h hindex
      have hwritten : written c.config (name, vec) = (name, asStored vc.metric vec) := by
        rw [written, hvc]
      rw [hvc] at hins
      rw [hwritten]
      simp only at hins
      split at hins
      · rename_i hlen
        cases hins
        refine .inr (hstop ?_ rfl rfl)
        simp [fails, hindex, length_asStored, ← hdim, hlen]
      · rcases andThen_value hins with ⟨err, hone, rfl⟩ | ⟨c₁, hone, hrest⟩
        · rcases insertVector_effect hindex hinv hone with ⟨hnone, -⟩ | ⟨-, hfails, hsame⟩
          · cases hnone
          · exact .inr ⟨Option.some_ne_none _, [], _, _, _, rfl, .nil, hfails, hsame⟩
        · rcases insertVector_effect hindex hinv hone with ⟨-, hwrote⟩ | ⟨hne, -, -⟩
          · obtain ⟨h₁, err₁, -, hc₁, -⟩ := insertVector_cases hone
            have hconfig : c₁.config = c.config := by rw [hc₁]
            have hinv₁ := insertVector_named (fun _ _ _ _ _ => named_inOrder) hindex hinv hone
            have hconf₁ := insertVector_named (fun _ _ _ _ _ => configured_insert) hindex hconf hone
            rw [← hconfig] at hconf₁
            have hloop := ih hinv₁ hconf₁ hrest
            rw [hconfig] at hloop
            rcases hloop with ⟨rfl, hws⟩ | ⟨hne, done, w, rest, mid, hsplit, hdone, hfails, hsame⟩
            · exact .inl ⟨rfl, hwrote.append hws⟩
            · refine .inr ⟨hne, (name, _) :: done, w, rest, mid, ?_, hwrote.append hdone, hfails,
                hsame⟩
              rw [hsplit]
              rfl
          · exact absurd rfl hne

theorem insertV2_effect {names : List Bytes} (hnamed : c.config.hasNamedVectors = true)
    (hinv : NamedAll (InOrder K) c.indices) (hconf : NamedAll (Configured c.config) c.indices)
    (hval : p.validateV2 = .ok ()) (hins : insertV2 K c names p = .value (c', e)) :
    e = none ∧ Wrote K p.id c.indices (writes c p) c'.indices ∨
      e ≠ none ∧ Stopped K p.id c.indices (writes c p) c'.indices ∧
        c' = { c with indices := c'.indices } := by
  unfold insertV2 at hins
  rw [hval, if_pos hnamed] at hins
  rcases andThen_value hins with ⟨err, hvec, rfl⟩ | ⟨c₁, hvec, hins⟩
  · rcases insertVectors_effect hinv hconf hvec with ⟨hnone, -⟩ | ⟨hne, hstop⟩
    · cases hnone
    · exact .inr ⟨hne, hstop.append _, insertVectors_frame hvec⟩
  · rcases insertVectors_effect hinv hconf hvec with ⟨-, hwrote⟩ | ⟨hne, -⟩
    · have hinv₁ := insertVectors_named (fun _ _ _ _ _ => named_inOrder) hinv hvec
      have hpresent : (c₁.indices defaultName).isSome = (c.indices defaultName).isSome :=
        hwrote.isSome defaultName
      have hframe := insertVectors_frame hvec
      have hdefault : ∀ {c₂ e₂}, insertDefaultVector K p c₁ = .value (c₂, e₂) →
          e₂ = none ∧ Wrote K p.id c.indices (writes c p) c₂.indices ∨
            e₂ ≠ none ∧ Stopped K p.id c.indices (writes c p) c₂.indices := by
        intro c₂ e₂ hdef
        unfold insertDefaultVector at hdef
        unfold writes
        split at hdef
        · rename_i hempty
          cases hdef
          rw [if_neg (fun hboth => hboth.1 hempty), append_nil]
          exact .inl ⟨rfl, hwrote⟩
        · rename_i hvector
          split at hdef
          · rename_i hnone
            cases hdef
            rw [hnone] at hpresent
            rw [← hpresent, if_neg (fun hboth => by cases hboth.2), append_nil]
            exact .inl ⟨rfl, hwrote⟩
          · rename_i h hindex
            rw [hindex] at hpresent
            rw [if_pos ⟨hvector, hpresent.symm⟩]
            rcases insertVector_effect hindex hinv₁ hdef with ⟨rfl, hlast⟩ | ⟨hne, hfails, hsame⟩
            · exact .inl ⟨rfl, hwrote.append hlast⟩
            · exact .inr ⟨hne, _, _, [], _, rfl, hwrote, hfails, hsame⟩
      rcases andThen_value hins with ⟨err, hdef, rfl⟩ | ⟨c₂, hdef, hret⟩
      · rcases hdefault hdef with ⟨hnone, -⟩ | ⟨hne, hstop⟩
        · cases hnone
        · refine .inr ⟨hne, hstop, ?_⟩
          have hframe' := insertDefaultVector_frame hdef
          rw [hframe] at hframe'
          exact hframe'
      · cases hret
        rcases hdefault hdef with ⟨-, hws⟩ | ⟨hne, -⟩
        · rw [indexPayloadV2_frame]
          exact .inl ⟨rfl, hws⟩
        · exact absurd rfl hne
    · exact absurd rfl hne

end Loop

/-! ## All vectors or nothing -/

section Atomic

variable [Distance D] [Scalar F]

/-- **What the call should leave**: with an error, all as it was; otherwise every vector under its name. -/
structure AllOrNothing (K : Kit F P D Q C S) (c c' : Collection F P D Q C S) (names : List Bytes)
    (p : PointV2 F P) (e : Option (VectorError F)) : Prop where
  nothing : e ≠ none →
    Same K c.indices c'.indices ∧ c'.payloads = c.payloads ∧ size c' names = size c names
  all : e = none → ∀ w ∈ writes c p, vectorIn K c'.indices p.id w.1 = some w.2

/-- **The condition**: if a write fails, those in front of it are of a known id; if none does, each one is
    what will be found. -/
def Clean (K : Kit F P D Q C S) (c : Collection F P D Q C S) (p : PointV2 F P) : Prop :=
  p.validateV2.toBool = true →
    if (writes c p).any (fails c.indices p.id) then
      ∀ w ∈ (writes c p).takeWhile fun w => !fails c.indices p.id w,
        knows c.indices p.id w.1 = true
    else ∀ w ∈ writes c p, held K c.indices p.id (writes c p) w.1 = some w.2

variable {K : Kit F P D Q C S} {c c' : Collection F P D Q C S} {names : List Bytes}
  {p : PointV2 F P} {e : Option (VectorError F)}

omit [Scalar F] in
theorem Same.knows_eq {indices indices' : Bytes → Option (Index F P Q C S)}
    (hsame : Same K indices indices') (id name : Bytes) :
    knows indices' id name = knows indices id name := by
  have hname := hsame name
  unfold knows
  split at hname
  · rename_i h₁ h₂
    rw [h₁, h₂]
  · rename_i h₁ h₂
    rw [h₁, h₂, Option.any_some, Option.any_some, hname.1.idToIndex]
  · exact hname.elim

omit [Scalar F] in
theorem Same.size_eq (hnamed : c.config.hasNamedVectors = true)
    (hc' : c' = { c with indices := c'.indices }) (hsame : Same K c.indices c'.indices) :
    size c' names = size c names := by
  have hconfig : c'.config = c.config := by rw [hc']
  unfold size
  rw [hconfig, if_pos hnamed, if_pos hnamed]
  cases names with
  | nil => rfl
  | cons name names =>
    have hname := hsame name
    simp only [head?_cons, Option.bind_some]
    split at hname
    · rename_i h₁ h₂
      rw [h₁, h₂]
    · rename_i h₁ h₂
      rw [h₁, h₂]
      simp only [Graph.size, hname.1.nodeCount, hname.1.deletedCount]
    · exact hname.elim

omit [Distance D] [Scalar F] in
theorem takeWhile_stop {q : Bytes × List F → Bool} {done : List (Bytes × List F)}
    (rest : List (Bytes × List F)) {w : Bytes × List F} (hdone : ∀ x ∈ done, q x = false) (hw : q w = true) :
    (done ++ w :: rest).any q = true ∧
      (done ++ w :: rest).takeWhile (fun x => !q x) = done := by
  constructor
  · simp [hw]
  · rw [takeWhile_append_of_pos fun x hx => by simp [hdone x hx],
      takeWhile_cons_of_neg (by simp [hw]), append_nil]

theorem allOrNothing_iff (hnamed : c.config.hasNamedVectors = true)
    (hinv : NamedAll (InOrder K) c.indices) (hconf : NamedAll (Configured c.config) c.indices)
    (hins : insertV2 K c names p = .value (c', e)) :
    AllOrNothing K c c' names p e ↔ Clean K c p := by
  cases hval : p.validateV2 with
  | error err =>
    unfold insertV2 at hins
    rw [hval] at hins
    cases hins
    refine iff_of_true ⟨fun _ => ⟨.refl _, rfl, rfl⟩, nofun⟩ fun htrue => ?_
    rw [hval] at htrue
    cases htrue
  | ok u =>
    have hclean : Clean K c p ↔ if (writes c p).any (fails c.indices p.id) then
        ∀ w ∈ (writes c p).takeWhile fun w => !fails c.indices p.id w,
          knows c.indices p.id w.1 = true
        else ∀ w ∈ writes c p, held K c.indices p.id (writes c p) w.1 = some w.2 := by
      unfold Clean
      rw [hval]
      exact ⟨fun h => h rfl, fun h _ => h⟩
    rw [hclean]
    rcases insertV2_effect hnamed hinv hconf hval hins with ⟨rfl, hwrote⟩ |
      ⟨hne, ⟨done, w, rest, mid, hsplit, hdone, hfails, hsame⟩, hframe⟩
    · -- Every write went through, so none fails in the state before.
      have hnone : (writes c p).any (fails c.indices p.id) = false := by
        rw [any_eq_false]
        intro w hw
        rw [hwrote.passes w hw]
        decide
      rw [hnone, if_neg Bool.false_ne_true]
      have hfound := hwrote.vectorIn_eq hinv
      constructor
      · intro hall w hw
        rw [← hfound]
        exact hall.all rfl w hw
      · intro hheld
        refine ⟨fun hne => absurd rfl hne, fun _ w hw => ?_⟩
        rw [hfound]
        exact hheld w hw
    · rw [hdone.fails_eq] at hfails
      obtain ⟨hany, htake⟩ := takeWhile_stop rest hdone.passes hfails
      rw [hsplit, hany, htake, if_pos rfl]
      constructor
      · intro hall x hx
        have hafter := hdone.knows_eq x.1
        rw [any_eq_true.mpr ⟨x, hx, decide_eq_true rfl⟩, Bool.or_true] at hafter
        rw [← (hall.nothing hne).1.knows_eq, hsame.knows_eq, hafter]
      · intro hknown
        have hmid := hdone.idle hknown
        rw [hmid] at hsame
        refine ⟨fun _ => ⟨hsame, ?_, hsame.size_eq hnamed hframe⟩, fun hnone => absurd hnone hne⟩
        rw [hframe]

end Atomic

/-! ## From New on -/

section Returns

variable [Distance D] {K : Kit F P D Q C S} {c : Collection F P D Q C S} {p : PointV2 F P}

theorem working_insert {name : Bytes} {h h' : Index F P Q C S} {q : Point F P}
    {err : Option IndexError} (hwork : Working (K.tools name) h)
    (hins : insertInto K name h q = .value (h', err)) : Working (K.tools name) h' := by
  obtain ⟨⟨gcfg, hm⟩, he⟩ := hwork
  obtain ⟨h₁, e₁, hact, -, hm₁, he₁⟩ :=
    hm.act (K.tools name) he (.insert q (K.pool name h.nodes.length))
  cases hact.symm.trans hins
  exact ⟨⟨gcfg, hm₁⟩, he₁⟩

theorem insertVector_returns {name : Bytes} {h : Index F P Q C S}
    (hwork : Working (K.tools name) h) : ∃ c' e, insertVector K c name h p = .value (c', e) := by
  obtain ⟨⟨gcfg, hm⟩, he⟩ := hwork
  obtain ⟨h₁, e₁, hact, -⟩ :=
    hm.act (K.tools name) he (.insert p (K.pool name h.nodes.length))
  have hinto : insertInto K name h p = .value (h₁, e₁) := hact
  unfold insertVector
  rw [hinto]
  exact ⟨_, _, rfl⟩

variable [Scalar F]

theorem insertVectors_returns {vectors : List (Bytes × List F)}
    (hall : NamedAll (fun name => Working (K.tools name)) c.indices) :
    ∃ c' e, insertVectors K p vectors c = .value (c', e) := by
  induction vectors generalizing c with
  | nil => exact ⟨_, _, rfl⟩
  | cons nv vectors ih =>
    obtain ⟨name, vec⟩ := nv
    unfold insertVectors
    split
    · exact ⟨_, _, rfl⟩
    · rename_i h hindex
      split
      · exact ⟨_, _, rfl⟩
      · rename_i vc hvc
        split
        · exact ⟨_, _, rfl⟩
        · obtain ⟨c₁, e₁, hone⟩ := insertVector_returns (K := K) (c := c)
            (p := { p with vector := asStored vc.metric vec }) (hall name h hindex)
          rw [hone]
          cases e₁ with
          | some err => exact ⟨_, _, rfl⟩
          | none =>
            exact ih (insertVector_named (fun _ _ _ _ _ => working_insert) hindex hall hone)

theorem insertV2_returns (names : List Bytes) (hnamed : c.config.hasNamedVectors = true)
    (hall : NamedAll (fun name => Working (K.tools name)) c.indices) :
    ∃ c' e, insertV2 K c names p = .value (c', e) := by
  unfold insertV2
  split
  · exact ⟨_, _, rfl⟩
  · rw [if_pos hnamed]
    obtain ⟨c₁, e₁, hvec⟩ : ∃ c₁ e₁, insertVectors K p p.namedVectors c = .value (c₁, e₁) :=
      insertVectors_returns hall
    rw [hvec]
    cases e₁ with
    | some err => exact ⟨_, _, rfl⟩
    | none =>
      have hall₁ := insertVectors_named (fun _ _ _ _ _ => working_insert) hall hvec
      have hdef : ∃ c₂ e₂, insertDefaultVector K p c₁ = .value (c₂, e₂) := by
        unfold insertDefaultVector
        split
        · exact ⟨_, _, rfl⟩
        · split
          · exact ⟨_, _, rfl⟩
          · rename_i h hindex
            exact insertVector_returns (hall₁ defaultName h hindex)
      obtain ⟨c₂, e₂, hdef⟩ := hdef
      show ∃ c' e, andThen (insertDefaultVector K p c₁) _ = .value (c', e)
      rw [hdef]
      cases e₂ with
      | some err => exact ⟨_, _, rfl⟩
      | none => exact ⟨_, _, rfl⟩

end Returns

section New

variable {cfg : Config} {parts : Bytes → Parts Q S} {payloads : ℕ → Option P}
  {dispatcher : Dispatcher} {c₀ c : Collection F P D Q C S}

theorem newIndices_all {vectors : List (Bytes × VectorConfig)}
    {indices : Bytes → Option (Index F P Q C S)} (hnew : newIndices parts vectors = .ok indices) :
    NamedAll (fun name h => ∃ vc, vectors.lookup name = some vc ∧
      Graph.new vc.indexConfig (parts name).rng (parts name).quantizer (parts name).links
        (parts name).vectorMmap = .ok h) indices := by
  induction vectors generalizing indices with
  | nil =>
    cases hnew
    intro name h hh
    cases hh
  | cons entry vectors ih =>
    obtain ⟨name', vc⟩ := entry
    unfold newIndices at hnew
    cases hone : (newIndex vc.indexConfig (parts name') : Except NewError (Index F P Q C S)) with
    | error err =>
      rw [hone] at hnew
      cases hnew
    | ok h' =>
      rw [hone] at hnew
      cases hrest : (newIndices parts vectors :
          Except NewError (Bytes → Option (Index F P Q C S))) with
      | error err =>
        rw [hrest] at hnew
        cases hnew
      | ok indices' =>
        rw [hrest] at hnew
        cases hnew
        intro name h hh
        rw [lookup_cons]
        by_cases hname : name = name'
        · subst hname
          rw [update_self] at hh
          cases hh
          rw [beq_self_eq_true]
          refine ⟨vc, rfl, ?_⟩
          unfold newIndex at hone
          split at hone
          · cases hone
          · cases hone
            assumption
        · rw [update_of_ne hname] at hh
          rw [beq_eq_false_iff_ne.mpr hname]
          exact ih hrest name h hh

theorem new_named_all (hnew : new cfg parts payloads dispatcher = .ok c₀)
    (hnamed : cfg.hasNamedVectors = true) : NamedAll (fun name h => ∃ vc,
      cfg.getVectorConfig name = some vc ∧ Graph.new vc.indexConfig (parts name).rng
        (parts name).quantizer (parts name).links (parts name).vectorMmap = .ok h)
      c₀.indices := by
  obtain ⟨-, indices, hind, rfl⟩ := new_named hnew hnamed
  intro name h hh
  unfold Config.getVectorConfig
  rw [if_pos hnamed]
  exact newIndices_all hind name h hh

variable [Distance D] [Scalar F] {K : Kit F P D Q C S}

/-- **InsertV2 in any state of a collection with named vectors** whose vector files keep what they are given
    is all or nothing exactly if the condition holds. In memory it returns, if the quantizers encode what they
    are given. -/
theorem insertV2_atomic_iff (hnew : new cfg parts payloads dispatcher = .ok c₀)
    (hnamed : cfg.hasNamedVectors = true)
    (hfiles : ∀ name s, (parts name).vectorMmap = some s → (K.tools name).mmap.Reliable s)
    {xs : List (Call F P)} (hrun : run (step K) c₀ xs = some c) (names : List Bytes)
    (p : PointV2 F P) :
    (∀ c' e, insertV2 K c names p = .value (c', e) →
      (AllOrNothing K c c' names p e ↔ Clean K c p)) ∧
    ((∀ name, (parts name).links = .empty ∧ (K.tools name).Encodes (parts name).quantizer) →
      ∃ c' e, insertV2 K c names p = .value (c', e)) := by
  have hconfig : c.config = cfg := (run_evolves hrun).config.trans (new_config hnew)
  have hall := new_named_all hnew hnamed
  have hlayout : c.config.hasNamedVectors = true := by rw [hconfig, hnamed]
  refine ⟨fun c' e hins => allOrNothing_iff hlayout ?_ ?_ hins, fun hmemory =>
    insertV2_returns names hlayout ?_⟩
  · refine run_named (fun _ _ _ _ _ => named_inOrder) (fun name h hh => ?_) hrun
    obtain ⟨vc, -, hone⟩ := hall name h hh
    exact (inv_new hone (hfiles name)).1
  · rw [hconfig]
    refine run_named (fun _ _ _ _ _ => configured_insert) (fun name h hh => ?_) hrun
    obtain ⟨vc, hvc, hone⟩ := hall name h hh
    rw [Graph.new_eq hone]
    exact ⟨vc, hvc, rfl⟩
  · refine run_named (fun _ _ _ _ _ => working_insert) (fun name h hh => ?_) hrun
    obtain ⟨vc, -, hone⟩ := hall name h hh
    obtain ⟨hlinks, he⟩ := hmemory name
    rw [hlinks] at hone
    exact ⟨⟨_, Graph.inMemory_new hone⟩, by rwa [Graph.new_eq hone]⟩

end New

def pairConfig : Config :=
  ⟨[99], 0, .unset, 0, 0, 0,
    [([1], ⟨1, .known .euclidean, 2, 10, 10⟩), ([2], ⟨1, .known .euclidean, 2, 10, 10⟩)]⟩

def lineIndex : Index ℕ ℕ Unit Unit Unit :=
  { M := 2, Mmax := 2, efSearch := 10, maxLevel := -1, nodes := [], entryPoint := 0, nodeCount := 0
    dimension := 1, idToIndex := fun _ => none, deletedCount := 0, rng := Stream'.const 0
    graph := ⟨4, 10, none, fun _ => none, .empty⟩, vectorMmap := none }

def pairCollection : Collection ℕ ℕ ℕ Unit Unit Unit :=
  { lineCollection with
    config := pairConfig
    index := none
    indices := update (update (fun _ => none) [2] (some lineIndex)) [1]
      (some lineIndex) }

theorem pairCollection_new :
    new pairConfig lineParts (fun _ => none) freeDispatcher = .ok pairCollection := rfl

def pairPoint (id : UInt8) (v w : List ℕ) : PointV2 ℕ ℕ := ⟨[id], [], none, [([1], v), ([2], w)], none⟩

/-- Whether the call returns an error, and what the first index has for the id then. -/
def vectorsView (c : Collection ℕ ℕ ℕ Unit Unit Unit) (p : PointV2 ℕ ℕ) (err : Bool)
    (v : Option (List ℕ)) : Bool :=
  match insertV2 lineKit c [[1], [2]] p with
  | .value (c', e) => e.isSome == err && vectorIn lineKit c'.indices p.id [1] = v
  | _ => false

theorem of_vectorsView {c : Collection ℕ ℕ ℕ Unit Unit Unit} {p : PointV2 ℕ ℕ} {err : Bool}
    {v : Option (List ℕ)} (h : vectorsView c p err v = true) :
    ∃ c' e, insertV2 lineKit c [[1], [2]] p = .value (c', e) ∧ e.isSome = err ∧
      vectorIn lineKit c'.indices p.id [1] = v := by
  unfold vectorsView at h
  split at h
  · rename_i c' e hins
    obtain ⟨herr, hv⟩ := Bool.and_eq_true_iff.mp h
    exact ⟨c', e, hins, beq_iff_eq.mp herr, of_decide_eq_true hv⟩
  · cases h

/-- **The second vector has a wrong dimension**: the first one is stored. **The id is known**: the call
    succeeds, and the old vectors stay. -/
theorem insertV2_not_atomic :
    (∃ c' e, insertV2 lineKit pairCollection [[1], [2]] (pairPoint 7 [5] [1, 2]) = .value (c', e) ∧
      e.isSome = true ∧ vectorIn lineKit c'.indices [7] [1] = some [5] ∧
      ¬ AllOrNothing lineKit pairCollection c' [[1], [2]] (pairPoint 7 [5] [1, 2]) e) ∧
    ∃ c c' e, run (step lineKit) pairCollection [.insertV2 [[1], [2]] (pairPoint 7 [5] [6])] =
        some c ∧
      insertV2 lineKit c [[1], [2]] (pairPoint 7 [8] [9]) = .value (c', e) ∧ e.isSome = false ∧
      vectorIn lineKit c'.indices [7] [1] = some [5] ∧
      ¬ AllOrNothing lineKit c c' [[1], [2]] (pairPoint 7 [8] [9]) e := by
  constructor
  · have hview : vectorsView pairCollection (pairPoint 7 [5] [1, 2]) true (some [5]) = true := by
      decide +kernel
    obtain ⟨c', e, hins, herr, hv⟩ := of_vectorsView hview
    refine ⟨c', e, hins, herr, hv, fun hall => ?_⟩
    have hsame := (hall.nothing (Option.isSome_iff_ne_none.mp herr)).1.knows_eq [7] [1]
    have hnot : knows pairCollection.indices [7] [1] = false := by decide
    exact absurd ((vectorIn_unknown hsame).symm.trans hv) (by decide)
  · have hview : (run (step lineKit) pairCollection
        [.insertV2 [[1], [2]] (pairPoint 7 [5] [6])]).any (fun c =>
          vectorsView c (pairPoint 7 [8] [9]) false (some [5]) &&
            decide (([1], [8]) ∈ writes c (pairPoint 7 [8] [9]))) = true := by decide +kernel
    obtain ⟨c, hrun, hview⟩ := (Option.any_eq_true ..).mp hview
    obtain ⟨hview, hmem⟩ := Bool.and_eq_true_iff.mp hview
    obtain ⟨c', e, hins, herr, hv⟩ := of_vectorsView hview
    refine ⟨c, c', e, hrun, hins, herr, hv, fun hall => ?_⟩
    have hnone : e = none := Option.not_isSome_iff_eq_none.mp (by rw [herr]; decide)
    have hfound := hall.all hnone _ (of_decide_eq_true hmem)
    exact absurd (hv.symm.trans hfound) (by decide)

/-- A new point is stored with both vectors; the same values again are found as they are. -/
theorem insertV2_atomic_line : ∃ c c' e,
    run (step lineKit) pairCollection [.insertV2 [[1], [2]] (pairPoint 7 [5] [6])] = some c ∧
      insertV2 lineKit c [[1], [2]] (pairPoint 7 [5] [6]) = .value (c', e) ∧ e.isSome = false ∧
      AllOrNothing lineKit c c' [[1], [2]] (pairPoint 7 [5] [6]) e := by
  have hview : (run (step lineKit) pairCollection
      [.insertV2 [[1], [2]] (pairPoint 7 [5] [6])]).any (fun c =>
        vectorsView c (pairPoint 7 [5] [6]) false (some [5]) &&
          (!(writes c (pairPoint 7 [5] [6])).any (fails c.indices [7]) &&
            decide (∀ w ∈ writes c (pairPoint 7 [5] [6]), held lineKit c.indices [7]
              (writes c (pairPoint 7 [5] [6])) w.1 = some w.2))) = true := by decide +kernel
  obtain ⟨c, hrun, hview⟩ := (Option.any_eq_true ..).mp hview
  obtain ⟨hview, hclean⟩ := Bool.and_eq_true_iff.mp hview
  obtain ⟨hpass, hheld⟩ := Bool.and_eq_true_iff.mp hclean
  obtain ⟨c', e, hins, herr, -⟩ := of_vectorsView hview
  have hatomic := insertV2_atomic_iff pairCollection_new rfl (fun _ s hs => by cases hs) hrun
    [[1], [2]] (pairPoint 7 [5] [6])
  refine ⟨c, c', e, hrun, hins, herr, (hatomic.1 c' e hins).mpr fun _ => ?_⟩
  have hnone : (writes c (pairPoint 7 [5] [6])).any (fails c.indices [7]) = false :=
    Bool.not_eq_true' _ ▸ hpass
  rw [show (pairPoint 7 [5] [6]).id = [7] from rfl, hnone, if_neg Bool.false_ne_true]
  exact of_decide_eq_true hheld

end LimyeDB.Hybrid
