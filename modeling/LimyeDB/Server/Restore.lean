/-
  A RESTORE THAT FAILS AND A RESTORE THAT SUCCEEDS: what `RestoreSnapshot` leaves of the manager's collections
  and saved configurations, and where the restored collections write their records.
-/
import LimyeDB.Server.Manager

namespace LimyeDB.Server

open Go Hybrid Snapshot AList
open LimyeDB.Graph (Distance)
open LimyeDB.Collection (Log record validateName)

variable {F P D Q C S J : Type} [Scalar F] [Distance D]

/-! ## Objects and logs -/

namespace Manager

/-- Every collection object in the table was made before now. -/
def Numbered (m : Manager F P D Q C S) : Prop :=
  ∀ name e, m.collections.lookup name = some e → e.ref < m.made

/-- **The records of the collection's calls go to the manager's log.** -/
def Records (m : Manager F P D Q C S) (e : Entry F P D Q C S) : Prop :=
  ∀ r, (logRecord (m.lend e) r).1.wal = m.wal.map fun w => (w.write [r]).1

omit [Scalar F] [Distance D] in
theorem records_iff {m : Manager F P D Q C S} {e : Entry F P D Q C S} (hwal : m.wal.isSome) :
    m.Records e ↔ e.logged = true := by
  obtain ⟨w, hw⟩ := Option.isSome_iff_exists.mp hwal
  constructor
  · intro hrec
    by_contra hlogged
    have hnone := hrec (record Wal.RecordType.delete [] [])
    simp [logRecord, lend, hlogged, hw] at hnone
  · intro hlogged r
    simp [logRecord, lend, hlogged, hw]

end Manager

/-- A collection object of the name that was made after `m`, without a log. -/
def Fresh (m m' : Manager F P D Q C S) (name : Bytes) : Prop :=
  ∃ e, m'.collections.lookup name = some e ∧ m.made ≤ e.ref ∧ e.ref < m'.made ∧ e.logged = false

/-- What a stretch of the loop does to the table. -/
structure Grown (m m' : Manager F P D Q C S) : Prop where
  made : m.made ≤ m'.made
  wal : m'.wal = m.wal
  entry : ∀ name, m'.collections.lookup name = m.collections.lookup name ∨ Fresh m m' name

namespace Grown

variable {m m₁ m' : Manager F P D Q C S}

omit [Scalar F] [Distance D]

theorem fresh (h₁ : m.made ≤ m₁.made) (h : Grown m₁ m') {name : Bytes} (hf : Fresh m m₁ name) :
    Fresh m m' name := by
  rcases h.entry name with hsame | ⟨e, he, hle, hrest⟩
  · obtain ⟨e, he, hle, hlt, hlogged⟩ := hf
    exact ⟨e, hsame.trans he, hle, hlt.trans_le h.made, hlogged⟩
  · exact ⟨e, he, h₁.trans hle, hrest⟩

theorem trans (h₁ : Grown m m₁) (h : Grown m₁ m') : Grown m m' where
  made := h₁.made.trans h.made
  wal := h.wal.trans h₁.wal
  entry := by
    intro name
    rcases h.entry name with hsame | ⟨e, he, hle, hrest⟩
    · rcases h₁.entry name with hold | hf
      · exact .inl (hsame.trans hold)
      · exact .inr (h.fresh h₁.made hf)
    · exact .inr ⟨e, he, h₁.made.trans hle, hrest⟩

theorem numbered (h : Grown m m') (hnum : m.Numbered) : m'.Numbered := by
  intro name e he
  rcases h.entry name with hsame | ⟨e', he', -, hlt, -⟩
  · exact (hnum name e (hsame.symm.trans he)).trans_le h.made
  · rw [he'] at he
    cases he
    exact hlt

end Grown

/-- The table and the saved configurations are as before. -/
structure Unchanged (m m' : Manager F P D Q C S) : Prop where
  collections : ∀ name, m'.collections.lookup name = m.collections.lookup name
  metadata : ∀ name, m'.metadata name = m.metadata name

structure Replaced (m m' : Manager F P D Q C S) : Prop extends Grown m m' where
  some_fresh : ∃ name, Fresh m m' name

/-! ## What a stream amounts to -/

inductive Verdict where
  | complete
  | fails (placed : ℕ)
  | panics
  deriving DecidableEq, Repr

def Verdict.next : Verdict → Verdict
  | .fails k => .fails (k + 1)
  | v => v

/-- The next `n` collections of a stream: each is to be read and made, under a valid name with a directory. -/
def examine (W : Site F P D Q C S J) : ℕ → ℕ → (AList fun _ : Bytes => Option Config) → Bytes →
    Verdict
  | 0, _, _, _ => .complete
  | n + 1, made, disk, r =>
    match readCollection W.coding r with
    | .panic => .panics
    | .error _ => .fails 0
    | .value ((_, data), r) =>
      match W.ofJSON data.config with
      | none => .fails 0
      | some cfg =>
        match Hybrid.new cfg (W.parts made) (W.rows made)
            (W.dispatcher made) with
        | .error _ => .fails 0
        | .ok c =>
          match insertAll (W.kit cfg) data.points c with
          | .error e => e.elim
          | .panic => .panics
          | .value _ =>
            let disk := newDisk W.shared disk cfg
            if validateName cfg.name ∧ (disk.lookup cfg.name).isSome then
              (examine W n (made + 1) (disk.insert cfg.name (some cfg)) r).next
            else .fails 1

/-- The loop over `n` collections ends as the verdict says. -/
inductive Ended (m : Manager F P D Q C S) :
    ℕ → Verdict → Outcome Empty (Manager F P D Q C S × Option RestoreError) → Prop where
  | nothing : Ended m 0 .complete (.value (m, none))
  | complete {n : ℕ} {m' : Manager F P D Q C S} (h : Replaced m m') :
    Ended m (n + 1) .complete (.value (m', none))
  | early {n : ℕ} {m' : Manager F P D Q C S} {e : RestoreError} (hg : Grown m m')
    (h : Unchanged m m') : Ended m n (.fails 0) (.value (m', some e))
  | late {n k : ℕ} {m' : Manager F P D Q C S} {e : RestoreError} (h : Replaced m m') :
    Ended m n (.fails (k + 1)) (.value (m', some e))
  | panics {n : ℕ} : Ended m n .panics .panic

/-! ## The loop -/

section Loop

variable {m m₁ m' : Manager F P D Q C S}

omit [Scalar F] [Distance D] in
theorem Replaced.trans (h₁ : Replaced m m₁) (h : Grown m₁ m') : Replaced m m' where
  toGrown := h₁.toGrown.trans h
  some_fresh := by
    obtain ⟨name, hf⟩ := h₁.some_fresh
    exact ⟨name, h.fresh h₁.made hf⟩

omit [Scalar F] [Distance D] in
theorem Ended.after {n : ℕ} {v : Verdict}
    {o : Outcome Empty (Manager F P D Q C S × Option RestoreError)} (h : Ended m₁ n v o)
    (h₁ : Replaced m m₁) : Ended m (n + 1) v.next o := by
  cases h with
  | nothing => exact .complete h₁
  | complete h => exact .complete (h₁.trans h.toGrown)
  | early hg => exact .late (h₁.trans hg)
  | late h => exact .late (h₁.trans h.toGrown)
  | panics => exact .panics

theorem lookup_mkdir (disk : AList fun _ : Bytes => Option Config) (name n : Bytes) :
    ((mkdir disk name).lookup n).join = (disk.lookup n).join := by
  unfold mkdir
  split
  · rfl
  · rename_i hnone
    by_cases hn : n = name
    · subst hn
      rw [lookup_insert, Option.not_isSome_iff_eq_none.mp hnone]
      rfl
    · rw [lookup_insert_ne hn]

theorem lookup_newDisk (shared : Bool) (disk : AList fun _ : Bytes => Option Config) (cfg : Config)
    (n : Bytes) : ((newDisk shared disk cfg).lookup n).join = (disk.lookup n).join := by
  unfold newDisk
  split
  · exact lookup_mkdir disk cfg.name n
  · rfl

omit [Scalar F] in
theorem newCollection_unchanged (W : Site F P D Q C S J) (m : Manager F P D Q C S) (cfg : Config) :
    Grown m (m.newCollection W cfg).1 ∧ Unchanged m (m.newCollection W cfg).1 :=
  ⟨⟨Nat.le_succ _, rfl, fun _ => .inl rfl⟩,
    ⟨fun _ => rfl, fun name => lookup_newDisk W.shared m.disk cfg name⟩⟩

omit [Scalar F] [Distance D] in
theorem replaced_insert {name : Bytes} {c : Hybrid.Collection F P D Q C S}
    (hcollections : m'.collections = m.collections.insert name ⟨m.made, false, c⟩)
    (hmade : m'.made = m.made + 1) (hwal : m'.wal = m.wal) : Replaced m m' := by
  have hfresh : Fresh m m' name := by
    refine ⟨⟨m.made, false, c⟩, ?_, le_rfl, by rw [hmade]; exact Nat.lt_succ_self _, rfl⟩
    rw [hcollections, lookup_insert]
  refine ⟨⟨by omega, hwal, ?_⟩, name, hfresh⟩
  intro n
  by_cases hn : n = name
  · subst hn
    exact .inr hfresh
  · left
    rw [hcollections, lookup_insert_ne hn]

omit [Scalar F] [Distance D] in
theorem saveMetadata_eq (m : Manager F P D Q C S) (cfg : Config) : m.saveMetadata cfg =
      if validateName cfg.name ∧ (m.disk.lookup cfg.name).isSome then
        ({ m with disk := m.disk.insert cfg.name (some cfg) }, none)
      else (m, some (if validateName cfg.name then .noDirectory else .invalidName)) := by
  unfold Manager.saveMetadata
  cases validateName cfg.name <;> cases m.disk.lookup cfg.name <;> rfl

theorem restoreLoop_ended (W : Site F P D Q C S J) (n : ℕ) (r : Bytes)
    (m : Manager F P D Q C S) : Ended m n (examine W n m.made m.disk r) (restoreLoop W n r m) := by
  induction n generalizing r m with
  | zero => exact .nothing
  | succ n ih =>
    simp only [restoreLoop, restoreOne, examine]
    cases hread : readCollection W.coding r with
    | panic => exact .panics
    | error e => exact .early ⟨le_rfl, rfl, fun _ => .inl rfl⟩ ⟨fun _ => rfl, fun _ => rfl⟩
    | value x =>
      obtain ⟨⟨name, data⟩, r⟩ := x
      cases hcfg : W.ofJSON data.config with
      | none =>
        simp only [hcfg]
        exact .early ⟨le_rfl, rfl, fun _ => .inl rfl⟩ ⟨fun _ => rfl, fun _ => rfl⟩
      | some cfg =>
        simp only [hcfg, Manager.newCollection]
        have hnew := newCollection_unchanged W m cfg
        cases hmade : Hybrid.new cfg (W.parts m.made) (W.rows m.made)
            (W.dispatcher m.made) with
        | error e => exact .early hnew.1 hnew.2
        | ok c =>
          cases hins : insertAll (W.kit cfg) data.points c with
          | error e => exact e.elim
          | panic =>
            simp only [hins, Outcome.panic_bind]
            exact .panics
          | value c =>
            simp only [hins, Outcome.value_bind, Outcome.pure_eq, saveMetadata_eq]
            split
            · have hrest := ih r { m with
                collections := m.collections.insert name ⟨m.made, false, c⟩
                disk := (newDisk W.shared m.disk cfg).insert cfg.name (some cfg)
                made := m.made + 1 }
              exact hrest.after (replaced_insert rfl rfl rfl)
            · exact .late (replaced_insert rfl rfl rfl)

end Loop

/-! ## The managers of a process -/

/-- What a process does with its manager: it creates and deletes collections, restores snapshots,
    and has collections run calls. -/
inductive Step (W : Site F P D Q C S J) : Manager F P D Q C S → Manager F P D Q C S → Prop where
  | create (m) (cfg : Config) : Step W m (m.create W cfg).1
  | delete (m) (name : Bytes) : Step W m (m.delete name).1
  | call {m m'} {α : Type} {name : Bytes} {a : Option α}
    {f : Hybrid.Collection F P D Q C S → Outcome Empty (Hybrid.Collection F P D Q C S × α)}
    (h : m.on name f = .value (m', a)) : Step W m m'
  | restore {m m'} {dir : SnapshotDir} {id : Bytes} {e : Option RestoreError}
    (h : restoreSnapshot W m dir id = .value (m', e)) : Step W m m'

section Steps

variable {W : Site F P D Q C S J} {m m' : Manager F P D Q C S}

omit [Scalar F] [Distance D] in
theorem Manager.Numbered.insert (hnum : m.Numbered) {name : Bytes} {e : Entry F P D Q C S}
    (hcollections : m'.collections = m.collections.insert name e) (hmade : m.made ≤ m'.made)
    (hlt : e.ref < m'.made) : m'.Numbered := by
  intro n e' he'
  rw [hcollections] at he'
  by_cases hn : n = name
  · subst hn
    rw [lookup_insert] at he'
    cases he'
    exact hlt
  · rw [lookup_insert_ne hn] at he'
    exact (hnum n e' he').trans_le hmade

theorem Step.numbered (h : Step W m m') (hnum : m.Numbered) : m'.Numbered := by
  cases h with
  | create cfg =>
    rcases m.create_cases W cfg with ⟨disk, made, e, -, hle, heq⟩ | ⟨c, -, heq⟩
    · rw [heq]
      exact fun n e he => (hnum n e he).trans_le hle
    · rw [heq]
      exact hnum.insert rfl (Nat.le_succ _) (Nat.lt_succ_self _)
  | delete name =>
    rcases m.delete_cases name with ⟨e, -, heq⟩ | ⟨-, heq⟩
    · rw [heq]
      exact hnum
    · rw [heq]
      intro n e he
      by_cases hn : n = name
      · subst hn
        rw [lookup_erase] at he
        cases he
      · rw [lookup_erase_ne hn] at he
        exact hnum n e he
  | call h =>
    rcases Manager.on_cases h with ⟨-, rfl, -⟩ | ⟨e, c, b, he, -, rfl, -⟩
    · exact hnum
    · exact hnum.insert rfl le_rfl (hnum _ e he)
  | restore h =>
    unfold restoreSnapshot at h
    split at h
    · cases h
    · cases h
      exact hnum
    · rename_i n r hopen
      have hended := restoreLoop_ended W n r m
      rw [h] at hended
      generalize examine W n m.made m.disk r = v at hended
      cases hended with
      | nothing => exact hnum
      | early hg => exact hg.numbered hnum
      | complete hr => exact hr.numbered hnum
      | late hr => exact hr.numbered hnum

theorem numbered_run {limit : ℕ} {disk : AList fun _ : Bytes => Option Config} {wal : Option Log}
    (h : Relation.ReflTransGen (Step W) (Manager.start limit disk wal) m) : m.Numbered := by
  induction h with
  | refl =>
    intro name e he
    cases he
  | tail _ hstep ih => exact hstep.numbered ih

end Steps

/-! ## The restore -/

/-- **An error has changed nothing; after success the restored collections write to the manager's
    log, if there is one.** -/
def RestoreSafe (m : Manager F P D Q C S) :
    Outcome Empty (Manager F P D Q C S × Option RestoreError) → Prop
  | .value (m', some _) => Unchanged m m'
  | .value (m', none) => m.wal.isSome → ∀ name e, m'.collections.lookup name = some e →
      m.made ≤ e.ref → m'.Records e
  | _ => True

/-- The stream fails before its first collection is placed, or panics, or has no collections, or is complete
    and there is no log. -/
def Harmless (W : Site F P D Q C S J) (m : Manager F P D Q C S) (n : ℕ) (r : Bytes) : Prop :=
  match examine W n m.made m.disk r with
  | .complete => n = 0 ∨ m.wal = none
  | .fails placed => placed = 0
  | .panics => True

section Safe

variable {m m' : Manager F P D Q C S}

omit [Scalar F] [Distance D] in
theorem Replaced.not_unchanged (hnum : m.Numbered) (h : Replaced m m') : ¬ Unchanged m m' := by
  intro hsame
  obtain ⟨name, e, he, hle, -⟩ := h.some_fresh
  have hlt := hnum name e ((hsame.collections name).symm.trans he)
  omega

omit [Scalar F] [Distance D] in
theorem Replaced.not_records (h : Replaced m m') (hwal : m.wal.isSome) :
    ¬ ∀ name e, m'.collections.lookup name = some e → m.made ≤ e.ref → m'.Records e := by
  intro hall
  obtain ⟨name, e, he, hle, -, hlogged⟩ := h.some_fresh
  have hwal' : m'.wal.isSome := by rw [h.wal]; exact hwal
  have htrue := (Manager.records_iff hwal').mp (hall name e he hle)
  rw [hlogged] at htrue
  cases htrue

theorem restoreLoop_safe_iff (W : Site F P D Q C S J) (hnum : m.Numbered) (n : ℕ) (r : Bytes) :
    RestoreSafe m (restoreLoop W n r m) ↔ Harmless W m n r := by
  have hended := restoreLoop_ended W n r m
  unfold Harmless
  cases hv : examine W n m.made m.disk r with
  | complete =>
    rw [hv] at hended
    generalize restoreLoop W n r m = o at hended
    cases hended with
    | nothing =>
      refine ⟨fun _ => .inl rfl, fun _ _ name e he hle => ?_⟩
      exact absurd (hnum name e he) (Nat.not_lt.mpr hle)
    | complete h =>
      constructor
      · intro hsafe
        by_contra hnot
        push Not at hnot
        have hwal : m.wal.isSome := Option.isSome_iff_ne_none.mpr hnot.2
        exact h.not_records hwal (hsafe hwal)
      · intro hcond hwal
        rcases hcond with hzero | hnone
        · omega
        · rw [hnone] at hwal
          cases hwal
  | fails placed =>
    rw [hv] at hended
    generalize restoreLoop W n r m = o at hended
    cases hended with
    | early _ h => exact ⟨fun _ => rfl, fun _ => h⟩
    | late h => exact ⟨fun hsafe => absurd hsafe (h.not_unchanged hnum), fun hzero => by omega⟩
  | panics =>
    rw [hv] at hended
    generalize restoreLoop W n r m = o at hended
    cases hended
    exact ⟨fun _ => trivial, fun _ => trivial⟩

/-- **In every manager of a process, a restore is safe exactly if the snapshot cannot be opened or its stream is
    harmless.** -/
theorem restoreSnapshot_safe_iff {W : Site F P D Q C S J} {limit : ℕ}
    {disk : AList fun _ : Bytes => Option Config} {wal : Option Log}
    (h : Relation.ReflTransGen (Step W) (Manager.start limit disk wal) m) (dir : SnapshotDir) (id : Bytes) :
    RestoreSafe m (restoreSnapshot W m dir id) ↔
      ∀ n r, openSnapshot dir id = .value (n, r) → Harmless W m n r := by
  unfold restoreSnapshot
  cases hopen : openSnapshot dir id with
  | panic => exact ⟨fun _ n r h => (by cases h), fun _ => trivial⟩
  | error e => exact ⟨fun _ n r h => (by cases h), fun _ => ⟨fun _ => rfl, fun _ => rfl⟩⟩
  | value x =>
    obtain ⟨n, r⟩ := x
    rw [restoreLoop_safe_iff W (numbered_run h)]
    exact ⟨fun h n' r' heq => by cases heq; exact h, fun h => h n r rfl⟩

end Safe

/-- The directory of the one collection of `lineStream`, with its snapshot. -/
def lineDir (count : ℕ) : SnapshotDir :=
  AList.singleton lineSnapshotID (lineStream count [([99], ⟨lineConfig, []⟩)])

/-- A manager with a log that has created the collection of `lineStream`. -/
def createdLine : Manager ℕ ℕ ℕ Unit Unit Unit × Option ManagerError :=
  Manager.create lineSite (.start 10 ∅ (some soundLog)) lineConfig

/-- To restore the collection over itself is not safe. -/
theorem restoreSnapshot_safe_iff_line : createdLine.2 = none ∧
    ¬ RestoreSafe createdLine.1 (restoreSnapshot lineSite createdLine.1 (lineDir 1) lineSnapshotID) := by
  refine ⟨by decide +kernel, ?_⟩
  have hreached : Relation.ReflTransGen (Step lineSite) (.start 10 ∅ (some soundLog)) createdLine.1 :=
    .single (.create _ lineConfig)
  rw [restoreSnapshot_safe_iff hreached]
  intro hall
  have hopen : ∃ r, openSnapshot (lineDir 1) lineSnapshotID = .value (1, r) ∧
      examine lineSite 1 createdLine.1.made createdLine.1.disk r = .complete := by
    refine ⟨_, rfl, ?_⟩
    decide +kernel
  obtain ⟨r, hr, hv⟩ := hopen
  have hharm := hall 1 r hr
  have hwal : createdLine.1.wal = some soundLog := rfl
  simp [Harmless, hv, hwal] at hharm

/-- **A restore that fails has replaced a collection, and one that succeeds leaves a collection whose inserts
    are not in the log.** -/
theorem restore_unsafe :
    (∃ m₀ m m' e, Manager.create lineSite (.start 10 ∅ none) lineConfig = (m₀, none) ∧
      m₀.on [99] (fun c => Hybrid.insert lineKit c (linePoint 1 5 none none)) =
        .value (m, some none) ∧
      m.getPoint lineSite [99] [1] = some (.value (linePoint 1 5 none none)) ∧
      restoreSnapshot lineSite m (lineDir 2) lineSnapshotID = .value (m', some e) ∧
      m'.getPoint lineSite [99] [1] = some (.error .pointNotFound)) ∧
    ∃ m₀ m, restoreSnapshot lineSite (.start 10 (AList.singleton [99] none) (some soundLog))
        (lineDir 1) lineSnapshotID = .value (m₀, none) ∧
      m₀.on [99] (fun c => Hybrid.insert lineKit c (linePoint 1 5 none none)) =
        .value (m, some none) ∧
      m.getPoint lineSite [99] [1] = some (.value (linePoint 1 5 none none)) ∧
      m.wal.map (·.records) = some [] := by
  constructor
  · refine ⟨_, _, _, _, rfl, rfl, ?_, rfl, ?_⟩ <;> decide +kernel
  · refine ⟨_, _, rfl, rfl, ?_, ?_⟩ <;> decide +kernel

end LimyeDB.Server
