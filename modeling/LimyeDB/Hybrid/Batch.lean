/-
  WHAT A BATCH REPORTS AND WHAT IT DOES: three passes over the points that share one result, and the records
  of the middle one.
-/
import LimyeDB.Hybrid.Effects

namespace LimyeDB.Hybrid

open Go Hnsw Lib.Runs List
open LimyeDB.Graph (Index Tools Distance InMemory)
open LimyeDB.Collection (Error BatchResult Log Codec record serializeBatch)

variable {F P D Q C S : Type}

/-! ## Counting -/

/-- The ids `ok` are counted as succeeded, and `bad` as failed, with an error each. -/
structure Tally (r : BatchResult F) (ok bad : List Bytes) (r' : BatchResult F) : Prop where
  total : r'.total = r.total
  succeeded : r'.succeeded = r.succeeded + ok.length
  failed : r'.failed = r.failed + bad.length
  errors : r'.errors.map Prod.fst = r.errors.map Prod.fst ++ bad

section Counting

variable {r r' r'' : BatchResult F} {ok bad ok' bad' : List Bytes}

theorem Tally.refl (r : BatchResult F) : Tally r [] [] r :=
  ⟨rfl, rfl, rfl, (append_nil _).symm⟩

theorem Tally.trans (h₁ : Tally r ok bad r') (h₂ : Tally r' ok' bad' r'') :
    Tally r (ok ++ ok') (bad ++ bad') r'' where
  total := h₂.total.trans h₁.total
  succeeded := by rw [h₂.succeeded, h₁.succeeded, length_append, Nat.add_assoc]
  failed := by rw [h₂.failed, h₁.failed, length_append, Nat.add_assoc]
  errors := by rw [h₂.errors, h₁.errors, append_assoc]

theorem tally_fail (r : BatchResult F) (id : Bytes) (e : Error F) : Tally r [] [id] (r.fail id e) :=
  ⟨rfl, rfl, rfl, map_append⟩

theorem tally_succeed (r : BatchResult F) (id : Bytes) :
    Tally r [id] [] { r with succeeded := r.succeeded + 1 } :=
  ⟨rfl, rfl, rfl, (append_nil _).symm⟩

variable [Scalar F]

theorem checkBatch_tally (cfg : Config) (ps : List (Point F P)) (r : BatchResult F) :
    Tally r [] ((ps.filter fun p => !accepted cfg p).map Point.id) (checkBatch cfg ps r).2 := by
  induction ps generalizing r with
  | nil => exact .refl r
  | cons p ps ih =>
    rcases checkBatch_cons cfg p ps r with ⟨hacc, heq⟩ | ⟨hnot, e, heq⟩
    · rw [heq, filter_cons_of_neg (by simp [hacc])]
      exact ih r
    · rw [heq, filter_cons_of_pos (by simp [hnot]), map_cons]
      exact (tally_fail r p.id e).trans (ih _)

def serialises (K : Codec F P) (p : Point F P) : Bool := (K.serializePoint p).toBool

omit [Scalar F] in
theorem serializeBatch_tally (K : Codec F P) (name : Bytes) (ps : List (Point F P))
    (r : BatchResult F) :
    Tally r [] ((ps.filter fun p => !serialises K p).map Point.id) (serializeBatch K name ps r).2 ∧
    ∀ p ∈ ps, ∀ data, K.serializePoint p = .ok data →
      record Wal.RecordType.insert name data ∈ (serializeBatch K name ps r).1 := by
  induction ps generalizing r with
  | nil => exact ⟨.refl r, nofun⟩
  | cons p ps ih =>
    unfold serializeBatch
    cases hser : K.serializePoint p with
    | error e =>
      have hnot : serialises K p = false := by simp [serialises, hser, Except.toBool]
      obtain ⟨htally, hrecords⟩ := ih (r.fail p.id (.serialize e))
      rw [filter_cons_of_pos (by simp [hnot]), map_cons]
      refine ⟨(tally_fail r p.id _).trans htally, fun q hq data hdata => ?_⟩
      rcases mem_cons.mp hq with rfl | hq
      · cases hser.symm.trans hdata
      · exact hrecords q hq data hdata
    | ok data =>
      have hyes : serialises K p = true := by simp [serialises, hser, Except.toBool]
      obtain ⟨htally, hrecords⟩ := ih r
      rw [filter_cons_of_neg (by simp [hyes])]
      refine ⟨htally, fun q hq data' hdata => ?_⟩
      rcases mem_cons.mp hq with rfl | hq
      · cases hser.symm.trans hdata
        exact mem_cons_self
      · exact mem_cons_of_mem _ (hrecords q hq data' hdata)

end Counting

/-! ## The last pass -/

def NodesOf (ps : List (Point F P)) (nodes : List (Option (Node F P))) : Prop :=
  nodes.map (Option.map fun node => (node.id, node.payload, node.deleted)) =
    ps.map fun p => some (p.id, p.payload, false)

section Apply

variable [Scalar F] [Distance D] {K : Kit F P D Q C S} {c c' : Collection F P D Q C S}
  {h : Index F P Q C S} {ps : List (Point F P)} {r r' : BatchResult F}

theorem applyBatch_tally (happ : applyBatch K ps c r = .value (c', r')) :
    (kept K ps c).Sublist ps ∧ ∃ bad, Tally r ((kept K ps c).map Point.id) bad r' ∧
      ((kept K ps c).map Point.id ++ bad).Perm (ps.map Point.id) := by
  induction ps generalizing c r with
  | nil =>
    cases happ
    exact ⟨Sublist.refl _, [], .refl _, Perm.refl _⟩
  | cons p ps ih =>
    obtain ⟨⟨c₁, err⟩, hins, hrest⟩ := Outcome.bind_eq_value.mp happ
    unfold kept
    rw [hins]
    cases err with
    | some e =>
      obtain ⟨hsub, bad, htally, hperm⟩ := ih hrest
      refine ⟨hsub.cons p, p.id :: bad, (tally_fail r p.id e).trans htally, ?_⟩
      exact perm_middle.trans (hperm.cons p.id)
    | none =>
      obtain ⟨hsub, bad, htally, hperm⟩ := ih hrest
      exact ⟨hsub.cons_cons p, bad, (tally_succeed r p.id).trans htally, hperm.cons p.id⟩

theorem applyBatch_nodes (hsingle : c.config.hasNamedVectors = false) (hindex : c.index = some h)
    (hvec : ∀ p ∈ ps, p.vector ≠ []) (happ : applyBatch K ps c r = .value (c', r')) :
    c'.wal = c.wal ∧ ∃ h' tail, c'.index = some h' ∧ h'.nodes = h.nodes ++ tail ∧
      NodesOf (kept K ps c) tail := by
  have hstart : c.config = c.config ∧ c.wal = c.wal ∧ ∃ h' tail, c.index = some h' ∧
      h'.nodes = h.nodes ++ tail ∧ NodesOf ([] : List (Point F P)) tail :=
    ⟨rfl, rfl, h, [], hindex, (append_nil _).symm, rfl⟩
  have hend := applyBatch_induct (I := fun s stored => s.config = c.config ∧ s.wal = c.wal ∧
    ∃ h' tail, s.index = some h' ∧ h'.nodes = h.nodes ++ tail ∧ NodesOf stored tail)
    (fun s s' p e stored hp hI hins => ?_) [] hstart happ
  · exact hend.2
  · obtain ⟨hconfig, hwal, h', tail, hindex', hnodes, htail⟩ := hI
    cases insertInternal_effect (hconfig ▸ hsingle) hindex' hins with
    | sparseOnly hnil => exact absurd hnil (hvec p hp)
    | failed _ hidle => exact ⟨hconfig, hwal, _, tail, rfl, hidle.nodes.trans hnodes, htail⟩
    | stored _ _ hnew =>
      obtain ⟨-, -, -, happend, -, -, -⟩ := hnew.store
      refine ⟨hconfig, hwal, _, tail ++ [some (newNode (K.tools []).mmap h' (storedPoint s p))],
        rfl, ?_, ?_⟩
      · rw [happend, hnodes, append_assoc]
      · rw [if_pos rfl, NodesOf, map_append, htail, map_append]
        simp [storedPoint]

omit [Scalar F] in
theorem inMemory_of_evolves {gcfg : Graph.Config} (hev : Evolves K c c') (hindex : c.index = some h)
    (hm : InMemory gcfg h) (he : (K.tools []).Encodes h.graph.quantizer) :
    ∃ h', c'.index = some h' ∧ InMemory gcfg h' ∧ (K.tools []).Encodes h'.graph.quantizer := by
  obtain ⟨h', actions, hindex', hrun, -⟩ := hev.some h hindex
  obtain ⟨h'', hrun', hm', he'⟩ := hm.runs (K.tools []) he actions
  cases hrun.symm.trans hrun'
  exact ⟨h', hindex', hm', he'⟩

theorem applyBatch_returns {gcfg : Graph.Config} (hsingle : c.config.hasNamedVectors = false)
    (hindex : c.index = some h) (hm : InMemory gcfg h)
    (he : (K.tools []).Encodes h.graph.quantizer)
    (hps : ∀ p ∈ ps, p.id ≠ [] ∧ Readable p) (r : BatchResult F) :
    ∃ c' r', applyBatch K ps c r = .value (c', r') := by
  induction ps generalizing c h r with
  | nil => exact ⟨c, r, rfl⟩
  | cons p ps ih =>
    obtain ⟨hid, hread⟩ := hps p mem_cons_self
    obtain ⟨h₁, e₁, hact, -⟩ := hm.act (K.tools []) he
      (.insert (storedPoint c p) (K.pool [] h.nodes.length))
    obtain ⟨c₁, e, hins⟩ := insertInternal_returns hsingle hindex hread ⟨h₁, e₁, hact⟩
    have hev := insertInternal_evolves hid hins
    obtain ⟨h₂, hindex₂, hm₂, he₂⟩ := inMemory_of_evolves hev hindex hm he
    have hrest := fun r => ih (hev.config ▸ hsingle) hindex₂ hm₂ he₂
      (forall_mem_cons.mp hps).2 r
    unfold applyBatch
    rw [hins]
    cases e with
    | none => exact hrest _
    | some err => exact hrest _

end Apply

/-! ## The whole batch -/

def nodesIn (c : Collection F P D Q C S) : List (Option (Node F P)) :=
  match c.index with
  | none => []
  | some h => h.nodes

/-- **What the result should say**: each point is counted once; the new points are those that succeeded, and
    have their records in the log. -/
structure BatchExact [Distance D] (K : Kit F P D Q C S) (c c' : Collection F P D Q C S)
    (ps : List (Point F P)) (r : BatchResult F) : Prop where
  sum : r.succeeded + r.failed = r.total
  total : r.total = ps.length
  failed : r.errors.length = r.failed
  points : ∃ stored : List (Point F P), stored.Sublist ps ∧ stored.length = r.succeeded ∧
    (stored.map Point.id ++ r.errors.map Prod.fst).Perm (ps.map Point.id) ∧
    (∃ tail, nodesIn c' = nodesIn c ++ tail ∧ NodesOf stored tail) ∧
    ∃ w, c'.wal = some w ∧ ∀ p ∈ stored, ∃ data, K.codec.serializePoint p = .ok data ∧
      record Wal.RecordType.insert c.config.name data ∈ w.records

section Whole

variable [Distance D] {K : Kit F P D Q C S} {c c' : Collection F P D Q C S} {w : Log}

theorem batchLog_written (hwal : c.wal = some w) (hwrite : w.faults.head = false)
    (valid : List (Point F P)) (r : BatchResult F) :
    ∃ w', batchLog K c valid r = (some w', (serializeBatch K.codec c.config.name valid r).2, none) ∧
      ∀ rec ∈ (serializeBatch K.codec c.config.name valid r).1, rec ∈ w'.records := by
  unfold batchLog
  rw [hwal]
  cases valid with
  | nil => exact ⟨w, rfl, nofun⟩
  | cons p valid =>
    simp only [Log.write, hwrite, Bool.false_eq_true, if_false, if_true]
    exact ⟨_, rfl, fun rec hrec => mem_append_right _ hrec⟩

variable [Scalar F] {ps : List (Point F P)} {r : BatchResult F} {e : Option (Error F)}

/-- A single-vector collection, or nothing to insert. -/
def Takes (c : Collection F P D Q C S) (ps : List (Point F P)) : Prop :=
  (c.config.hasNamedVectors = false ∧ c.config.dimension ≠ 0 ∧ ∃ h, c.index = some h) ∨
    ps.filter (accepted c.config) = []

theorem insertBatch_counts (htakes : Takes c ps) (hwal : c.wal = some w)
    (hwrite : w.faults.head = false) (hret : insertBatch K c ps = .value (c', r, e)) :
    e = none ∧ ∃ stored bad, stored.Sublist (ps.filter (accepted c.config)) ∧
      Tally ⟨ps.length, 0, 0, []⟩ (stored.map Point.id)
        ((ps.filter fun p => !accepted c.config p).map Point.id ++
          ((ps.filter (accepted c.config)).filter fun p => !serialises K.codec p).map Point.id ++
          bad) r ∧
      (stored.map Point.id ++ bad).Perm ((ps.filter (accepted c.config)).map Point.id) ∧
      (∃ tail, nodesIn c' = nodesIn c ++ tail ∧ NodesOf stored tail) ∧
      ∃ w', c'.wal = some w' ∧ ∀ p ∈ stored, ∀ data, K.codec.serializePoint p = .ok data →
        record Wal.RecordType.insert c.config.name data ∈ w'.records := by
  by_cases hne : ps = []
  · subst hne
    cases hret
    exact ⟨rfl, [], [], Sublist.refl _, .refl _, Perm.refl _,
      ⟨[], (append_nil _).symm, rfl⟩, w, hwal, nofun⟩
  · rw [insertBatch_eq ps hne] at hret
    simp only [checkBatch_fst] at hret
    have hcheck := checkBatch_tally c.config ps ⟨ps.length, 0, 0, []⟩
    obtain ⟨hser, hrecords⟩ := serializeBatch_tally K.codec c.config.name
      (ps.filter (accepted c.config)) (checkBatch c.config ps ⟨ps.length, 0, 0, []⟩).2
    obtain ⟨w', hlog, hwritten⟩ := batchLog_written (K := K) hwal hwrite
      (ps.filter (accepted c.config)) (checkBatch c.config ps ⟨ps.length, 0, 0, []⟩).2
    simp only [hlog] at hret
    obtain ⟨⟨c₁, r₁⟩, happ, hret⟩ := Outcome.bind_eq_value.mp hret
    cases hret
    obtain ⟨hsub, bad, hlast, hperm⟩ := applyBatch_tally happ
    have hnodes : c₁.wal = some w' ∧ ∃ tail, nodesIn c₁ = nodesIn c ++ tail ∧
        NodesOf (kept K (ps.filter (accepted c.config)) { c with wal := some w' }) tail := by
      rcases htakes with ⟨hsingle, hdim, h, hindex⟩ | hnone
      · have hvec : ∀ p ∈ ps.filter (accepted c.config), p.vector ≠ [] := by
          intro p hp hnil
          have hlen := (accepted_iff.mp (mem_filter.mp hp).2).2
          exact hdim (by rw [← hlen, hnil]; rfl)
        obtain ⟨hwal', h', tail, hindex', hnodes, htail⟩ :=
          applyBatch_nodes (c := { c with wal := some w' }) hsingle hindex hvec happ
        refine ⟨hwal', tail, ?_, htail⟩
        rw [nodesIn, nodesIn, hindex', hindex]
        exact hnodes
      · rw [hnone] at happ ⊢
        cases happ
        exact ⟨rfl, [], (append_nil _).symm, rfl⟩
    refine ⟨rfl, _, bad, hsub, ?_, hperm, hnodes.2, w', hnodes.1, fun p hp data hdata => ?_⟩
    · exact (hcheck.trans hser).trans hlast
    · exact hwritten _ (hrecords p (hsub.subset hp) data hdata)

theorem exact_iff_serialises (htakes : Takes c ps) (hwal : c.wal = some w)
    (hwrite : w.faults.head = false) (hret : insertBatch K c ps = .value (c', r, e)) :
    BatchExact K c c' ps r ↔
      ∀ p ∈ ps, accepted c.config p = true → serialises K.codec p = true := by
  obtain ⟨-, stored, bad, hsub, htally, hperm, hnodes, w', hwal', hrecords⟩ :=
    insertBatch_counts htakes hwal hwrite hret
  have hsplit := (filter_append_perm (accepted c.config) ps).map Point.id
  rw [map_append] at hsplit
  have hsucceeded : r.succeeded = stored.length := by simpa using htally.succeeded
  have hvalid := hperm.length_eq
  have hwhole := hsplit.length_eq
  simp only [length_append, length_map] at hvalid hwhole
  constructor
  · intro hexact p hp hacc
    by_contra hnot
    have hbad : p ∈ (ps.filter (accepted c.config)).filter fun p => !serialises K.codec p :=
      mem_filter.mpr ⟨mem_filter.mpr ⟨hp, hacc⟩, by simp [hnot]⟩
    have hpos := length_pos_of_mem hbad
    have hfailed := htally.failed
    have hsum := hexact.sum
    rw [hexact.total] at hsum
    simp only [length_append, length_map] at hfailed
    omega
  · intro hser
    have hnone : (ps.filter (accepted c.config)).filter (fun p => !serialises K.codec p) = [] := by
      refine filter_eq_nil_iff.mpr fun p hp => ?_
      obtain ⟨hp, hacc⟩ := mem_filter.mp hp
      simp [hser p hp hacc]
    rw [hnone, map_nil, append_nil] at htally
    have hfailed := htally.failed
    have herrors := htally.errors
    simp only [length_append, length_map] at hfailed
    rw [map_nil, nil_append] at herrors
    refine ⟨?_, htally.total, ?_, stored, hsub.trans filter_sublist, hsucceeded.symm, ?_,
      hnodes, w', hwal', fun p hp => ?_⟩
    · have htotal : r.total = ps.length := htally.total
      omega
    · have hlength := congrArg length herrors
      simp only [length_append, length_map] at hlength
      omega
    · rw [herrors]
      refine Perm.trans ?_ hsplit
      refine Perm.trans ?_ (hperm.append_right _)
      rw [append_assoc]
      exact perm_append_comm.append_left _
    · obtain ⟨hp', hacc⟩ := mem_filter.mp (hsub.subset hp)
      have hyes := hser p hp' hacc
      unfold serialises at hyes
      cases hdata : K.codec.serializePoint p with
      | error msg =>
        rw [hdata] at hyes
        cases hyes
      | ok data => exact ⟨data, rfl, hrecords p hp data hdata⟩

theorem insertBatch_returns (hwal : c.wal = some w) (hwrite : w.faults.head = false)
    (happ : ∀ w' r, ∃ c' r', applyBatch K (ps.filter (accepted c.config)) { c with wal := w' } r =
      .value (c', r')) : ∃ c' r, insertBatch K c ps = .value (c', r, none) := by
  by_cases hne : ps = []
  · exact ⟨c, _, by rw [insertBatch, if_pos hne]⟩
  · rw [insertBatch_eq ps hne]
    simp only [checkBatch_fst]
    obtain ⟨w', hlog, -⟩ := batchLog_written (K := K) hwal hwrite
      (ps.filter (accepted c.config)) (checkBatch c.config ps ⟨ps.length, 0, 0, []⟩).2
    obtain ⟨c', r', happ⟩ := happ (some w') (serializeBatch K.codec c.config.name
      (ps.filter (accepted c.config)) (checkBatch c.config ps ⟨ps.length, 0, 0, []⟩).2).2
    simp only [hlog, happ]
    exact ⟨_, _, rfl⟩

end Whole

/-! ## From any state -/

/-- **InsertBatch with a log whose write succeeds**, in a single-vector collection (or in any, if no point
    passes the checks), has counted and stored the points exactly if all that pass can be serialised. In memory
    it returns if their sparse vectors can be read and the quantizer encodes what it is given. -/
theorem batch_exact_iff [Scalar F] [Distance D] {K : Kit F P D Q C S} {cfg : Config}
    {parts : Bytes → Parts Q S} {payloads : ℕ → Option P} {dispatcher : Dispatcher}
    {c₀ c : Collection F P D Q C S} {xs : List (Call F P)} {w : Log}
    (hnew : new cfg parts payloads dispatcher = .ok c₀) (hrun : run (step K) c₀ xs = some c)
    (ps : List (Point F P))
    (hlayout : cfg.hasNamedVectors = false ∨ ∀ p ∈ ps, accepted cfg p = false)
    (hwal : c.wal = some w) (hwrite : w.faults.head = false) :
    (∀ c' r e, insertBatch K c ps = .value (c', r, e) → e = none ∧ (BatchExact K c c' ps r ↔
        ∀ p ∈ ps, accepted cfg p = true → serialises K.codec p = true)) ∧
    ((parts []).links = .empty → (K.tools []).Encodes (parts []).quantizer →
      (∀ p ∈ ps, accepted cfg p = true → Readable p) →
      ∃ c' r, insertBatch K c ps = .value (c', r, none)) := by
  have hev := run_evolves hrun
  have hconfig : c.config = cfg := hev.config.trans (new_config hnew)
  have hnone : (∀ p ∈ ps, accepted cfg p = false) → ps.filter (accepted c.config) = [] := by
    intro hall
    rw [hconfig]
    exact filter_eq_nil_iff.mpr fun p hp => by simp [hall p hp]
  have htakes : Takes c ps := by
    refine hlayout.imp (fun hsingle => ?_) hnone
    obtain ⟨-, h, hindex, -⟩ := listed_of_run hnew hsingle hrun
    rw [hconfig]
    exact ⟨hsingle, dimension_ne_zero (new_single hnew hsingle).1 hsingle, h, hindex⟩
  refine ⟨fun c' r e hret => ⟨?_, ?_⟩, fun hlinks he hread => insertBatch_returns hwal hwrite ?_⟩
  · exact (insertBatch_counts htakes hwal hwrite hret).1
  · rw [exact_iff_serialises htakes hwal hwrite hret, hconfig]
  · intro w' r
    rcases hlayout with hsingle | hall
    · obtain ⟨-, h₀, hindex, rfl⟩ := new_single hnew hsingle
      rw [hlinks] at hindex
      obtain ⟨h, hindex', hm, he'⟩ := inMemory_of_evolves hev rfl (Graph.inMemory_new hindex)
        (by rwa [Graph.new_eq hindex])
      refine applyBatch_returns (c := { c with wal := w' }) (by rwa [hconfig]) hindex' hm he'
        (fun p hp => ?_) r
      rw [hconfig] at hp
      obtain ⟨hp, hacc⟩ := mem_filter.mp hp
      exact ⟨id_ne_nil_of_validate (accepted_iff.mp hacc).1, hread p hp hacc⟩
    · rw [hnone hall]
      exact ⟨_, _, rfl⟩

def freeLog : Log := ⟨[], Stream'.const false⟩

def pickyKit : Kit ℕ ℕ ℕ Unit Unit Unit :=
  { lineKit with codec := ⟨fun p => if p.payload = some 9 then .error "unsupported value: NaN"
      else .ok (p.id ++ p.vector.map UInt8.ofNat), fun _ => .error "not used"⟩ }

def batchView (K : Kit ℕ ℕ ℕ Unit Unit Unit) (ps : List (Point ℕ ℕ)) (succeeded failed records : ℕ)
    (id : Bytes) (c : Collection ℕ ℕ ℕ Unit Unit Unit) : Bool :=
  match insertBatch K c ps with
  | .value (c', r, none) => r.succeeded = succeeded && r.failed = failed &&
      presence c' id = .live && c'.wal.any fun w => w.records.length = records
  | _ => false

theorem of_batchView {K : Kit ℕ ℕ ℕ Unit Unit Unit} {ps : List (Point ℕ ℕ)}
    {succeeded failed records : ℕ} {id : Bytes} {c : Collection ℕ ℕ ℕ Unit Unit Unit}
    (h : batchView K ps succeeded failed records id c = true) :
    ∃ c' r, insertBatch K c ps = .value (c', r, none) ∧ r.succeeded = succeeded ∧
      r.failed = failed ∧ presence c' id = .live ∧
      ∃ w, c'.wal = some w ∧ w.records.length = records := by
  unfold batchView at h
  split at h
  · rename_i c' r hret
    simp only [Bool.and_eq_true, decide_eq_true_eq, Option.any_eq_true] at h
    obtain ⟨⟨⟨hs, hf⟩, hlive⟩, w, hwal, hw⟩ := h
    exact ⟨c', r, hret, hs, hf, hlive, w, hwal, hw⟩
  · cases h

def namedLine : Config := { lineConfig with vectors := [([118], ⟨1, .known .euclidean, 2, 10, 10⟩)] }

/-- **A point that cannot be serialised** is counted as failed and as succeeded, and it is in the
    collection without a record. With named vectors a point that passes the checks makes the call panic. -/
theorem batch_counts_twice : ∃ c c' r,
    run (step pickyKit) lineCollection [.setWAL freeLog] = some c ∧
    insertBatch pickyKit c [linePoint 1 5 (some 9) none] = .value (c', r, none) ∧
    r.succeeded = 1 ∧ r.failed = 1 ∧ presence c' [1] = .live ∧
    (∃ w, c'.wal = some w ∧ w.records.length = 0) ∧
    ¬ BatchExact pickyKit c c' [linePoint 1 5 (some 9) none] r ∧
    ∃ c₁ c₂ : Collection ℕ ℕ ℕ Unit Unit Unit,
      new namedLine lineParts (fun _ => none) freeDispatcher = .ok c₁ ∧
      run (step lineKit) c₁ [.setWAL freeLog] = some c₂ ∧
      insertBatch lineKit c₂ [linePoint 1 5 none none] = .panic := by
  have hview : (run (step pickyKit) lineCollection [.setWAL freeLog]).any
      (batchView pickyKit [linePoint 1 5 (some 9) none] 1 1 0 [1]) = true := by decide +kernel
  obtain ⟨c, hrun, hview⟩ := (Option.any_eq_true ..).mp hview
  obtain ⟨c', r, hret, hs, hf, hlive, hw⟩ := of_batchView hview
  refine ⟨c, c', r, hrun, hret, hs, hf, hlive, hw, fun hexact => ?_, _, _, rfl, rfl, rfl⟩
  have hsum := hexact.sum
  rw [hexact.total, hs, hf] at hsum
  exact absurd hsum (by decide)

def mixedBatch : List (Point ℕ ℕ) :=
  [linePoint 1 6 none none, linePoint 2 7 none none, ⟨[], [3], none, [], none⟩]

theorem batch_exact_line : ∃ c c' r, run (step lineKit) lineCollection
      [.setWAL freeLog, .insert (linePoint 1 5 none none)] = some c ∧
    insertBatch lineKit c mixedBatch = .value (c', r, none) ∧ r.succeeded = 1 ∧ r.failed = 2 ∧
    BatchExact lineKit c c' mixedBatch r := by
  have hview : (run (step lineKit) lineCollection
      [.setWAL freeLog, .insert (linePoint 1 5 none none)]).any (fun c =>
        batchView lineKit mixedBatch 1 2 3 [2] c &&
          c.wal.any fun w => !w.faults.head) = true := by decide +kernel
  obtain ⟨c, hrun, hview⟩ := (Option.any_eq_true ..).mp hview
  obtain ⟨hview, hwal⟩ := Bool.and_eq_true_iff.mp hview
  obtain ⟨w, hwal, hwrite⟩ := (Option.any_eq_true ..).mp hwal
  obtain ⟨c', r, hret, hs, hf, -, -⟩ := of_batchView hview
  obtain ⟨hexact, -⟩ := batch_exact_iff lineCollection_new hrun mixedBatch (.inl rfl) hwal
    (Bool.not_eq_true' _ ▸ hwrite)
  exact ⟨c, c', r, hrun, hret, hs, hf, (hexact c' r none hret).2.mpr (by decide)⟩

end LimyeDB.Hybrid
