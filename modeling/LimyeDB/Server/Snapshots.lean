/-
  THE SNAPSHOT DIRECTORY OVER RUNS WITH CRASHES (pkg/storage/snapshot/snapshot.go), which may come between any
  two file-system steps.

  A snapshot is the body `<id>.snap` and `<id>.snap.meta`, which `List` goes by; both are renamed into place.
-/
import LimyeDB.Snapshot.Stream
import LimyeDB.Server.Manager

namespace LimyeDB.Server

open Go Snapshot Lib.Runs List AList

/-! ## What the writer has written -/

section Emit

variable {F P Cfg : Type} (J : Coding F P Cfg)

/-- The bytes up to the check that fails. -/
def emitHeader (version timestamp totalCollections : ℕ) : Bytes × Option WriteError :=
  let b := leBytes 4 magic ++ leBytes 8 version ++ leBytes 8 timestamp
  match putLength 4 .collectionCount totalCollections with
  | .error e => (b, some e)
  | .ok count => (b ++ count, none)

def emitPoint (p : PointData F P) : Bytes × Option WriteError :=
  match putLength 2 .idTooLong p.id.length with
  | .error e => ([], some e)
  | .ok idLen =>
    match putLength 4 .vectorTooLarge p.vector.length with
    | .error e => (idLen ++ p.id, some e)
    | .ok vecLen =>
      let b := idLen ++ p.id ++ vecLen ++ p.vector.flatMap J.putFloat
      match marshalled .payloadMarshal (J.marshalPayload p.payload) with
      | .error e => (b, some e)
      | .ok payload =>
        match putLength 4 .payloadTooLarge payload.length with
        | .error e => (b, some e)
        | .ok payloadLen => (b ++ payloadLen ++ payload, none)

def emitPoints : List (PointData F P) → Bytes × Option WriteError
  | [] => ([], none)
  | p :: ps =>
    match emitPoint J p with
    | (b, some e) => (b, some e)
    | (b, none) => (b ++ (emitPoints ps).1, (emitPoints ps).2)

def emitCollection (name : Bytes) (data : CollectionData F P Cfg) : Bytes × Option WriteError :=
  match putLength 2 .nameTooLong name.length with
  | .error e => ([], some e)
  | .ok nameLen =>
    match marshalled .configMarshal (J.marshalConfig data.config) with
    | .error e => (nameLen ++ name, some e)
    | .ok config =>
      match putLength 4 .configTooLarge config.length with
      | .error e => (nameLen ++ name, some e)
      | .ok configLen =>
        let b := nameLen ++ name ++ configLen ++ config ++ leBytes 8 data.points.length
        (b ++ (emitPoints J data.points).1, (emitPoints J data.points).2)

end Emit

/-! ## The machine -/

section Machine

variable {F P Cfg : Type}

/-- The metadata of a snapshot; the size and the path are left out. -/
structure Snapshot where
  id : Bytes
  timestamp : ℕ
  version : ℕ
  collections : List Bytes
  deriving DecidableEq, Repr

inductive Phase where
  | writing
  | closed
  | renamed
  | metaOpened
  | metaWritten
  deriving DecidableEq, Repr

structure SnapshotWriter where
  info : Snapshot
  stream : Bytes
  headerWritten : Bool
  phase : Phase
  deriving DecidableEq, Repr

/-- The files by their ending. A body is the stream that gzip gives back, a metadata file without its text is
    `none`. -/
structure Directory where
  snapTmp : SnapshotDir
  snap : SnapshotDir
  metaTmp : AList fun _ : Bytes => Option Snapshot
  metas : AList fun _ : Bytes => Option Snapshot

/-- The directory and the calls under way: the writers, the `Delete` that has removed the body, what each
    `Prune` has still to delete, and the time of the last snapshot. -/
structure World where
  last : ℕ
  dir : Directory
  writers : AList fun _ : Bytes => SnapshotWriter
  deleting : Option Bytes
  prunes : List (List Bytes)

def World.empty : World := ⟨0, ⟨∅, ∅, ∅, ∅⟩, ∅, none, []⟩

/-- `List`: the metadata files that can be parsed, newest first. -/
def Directory.list (d : Directory) : List Snapshot :=
  (d.metas.entries.filterMap fun e => e.2).mergeSort fun a b => decide (b.timestamp ≤ a.timestamp)

inductive Act (F P Cfg : Type) where
  | create (now timestamp : ℕ) (collections : List Bytes)
  | writeHeader (id : Bytes) (version totalCollections : ℕ)
  | writeCollection (id name : Bytes) (data : CollectionData F P Cfg)
  /-- The next file-system step of `Finish`. -/
  | finish (id : Bytes)
  | cancel (id : Bytes)
  /-- `Delete` up to its first remove. -/
  | delete (id : Bytes)
  /-- Its second remove. -/
  | deleteMeta
  /-- `Prune` up to its first `Delete`. -/
  | prune
  | pruneNext (i : ℕ)
  | crash

/-- The first remove of `Delete`, which holds the lock from then on; a bad id changes nothing. -/
def World.removeSnap (s : World) (id : Bytes) : World :=
  match validateSnapshotID id with
  | .error _ => s
  | .ok () => { s with dir := { s.dir with snap := s.dir.snap.erase id }, deleting := some id }

def World.finishStep (s : World) (id : Bytes) (w : SnapshotWriter) : World :=
  match w.phase with
  | .writing =>
    { s with dir := { s.dir with snapTmp := s.dir.snapTmp.insert id w.stream },
             writers := s.writers.insert id { w with phase := .closed } }
  | .closed =>
    match s.dir.snapTmp.lookup id with
    | none => { s with writers := s.writers.erase id }
    | some b =>
      { s with dir := { s.dir with snapTmp := s.dir.snapTmp.erase id, snap := s.dir.snap.insert id b },
               writers := s.writers.insert id { w with phase := .renamed } }
  | .renamed =>
    { s with dir := { s.dir with metaTmp := s.dir.metaTmp.insert id none },
             writers := s.writers.insert id { w with phase := .metaOpened } }
  | .metaOpened =>
    { s with dir := { s.dir with metaTmp := s.dir.metaTmp.insert id (some w.info) },
             writers := s.writers.insert id { w with phase := .metaWritten } }
  | .metaWritten =>
    match s.dir.metaTmp.lookup id with
    | none => { s with writers := s.writers.erase id }
    | some m =>
      { s with dir := { s.dir with metaTmp := s.dir.metaTmp.erase id, metas := s.dir.metas.insert id m },
               writers := s.writers.erase id }

def step (J : Coding F P Cfg) (retainCount : ℕ) (s : World) : Act F P Cfg → Option World
  | .create now timestamp collections =>
    -- the clock does not show a time twice, and a time is an int64; `Delete` may hold the lock
    if s.last < now ∧ now < 2 ^ 63 ∧ s.deleting = none then
      some { s with
        last := now
        dir := { s.dir with snapTmp := s.dir.snapTmp.insert (snapID now) [] }
        writers := s.writers.insert (snapID now)
          ⟨⟨snapID now, timestamp, 0, collections⟩, [], false, .writing⟩ }
    else none
  | .writeHeader id version totalCollections =>
    match s.writers.lookup id with
    | some ⟨info, stream, headerWritten, .writing⟩ =>
      let (b, e) := emitHeader version info.timestamp totalCollections
      let w := ⟨{ info with version := version }, stream ++ b, headerWritten || e.isNone, .writing⟩
      some { s with writers := s.writers.insert id w }
    | _ => none
  | .writeCollection id name data =>
    match s.writers.lookup id with
    | some ⟨info, stream, true, .writing⟩ =>
      let w := ⟨info, stream ++ (emitCollection J name data).1, true, .writing⟩
      some { s with writers := s.writers.insert id w }
    | some ⟨_, _, false, .writing⟩ => some s
    | _ => none
  | .finish id =>
    match s.writers.lookup id with
    | some w => some (s.finishStep id w)
    | none => none
  | .cancel id =>
    match s.writers.lookup id with
    | some ⟨_, _, _, .writing⟩ =>
      some { s with dir := { s.dir with snapTmp := s.dir.snapTmp.erase id },
                    writers := s.writers.erase id }
    | _ => none
  | .delete id => if s.deleting = none then some (s.removeSnap id) else none
  | .deleteMeta =>
    match s.deleting with
    | some id =>
      some { s with dir := { s.dir with metas := s.dir.metas.erase id }, deleting := none }
    | none => none
  | .prune =>
    let snapshots := s.dir.list
    some (if snapshots.length ≤ retainCount then s
      else { s with prunes := s.prunes ++ [(snapshots.drop retainCount).map Snapshot.id] })
  | .pruneNext i =>
    match s.prunes[i]? with
    | some (id :: ids) =>
      if s.deleting = none then
        match validateSnapshotID id with
        | .error _ => some { s with prunes := s.prunes.set i [] }
        | .ok () => some ({ s with prunes := s.prunes.set i ids }.removeSnap id)
      else none
    | _ => none
  | .crash => some { s with writers := ∅, deleting := none, prunes := [] }

/-! ## What is asked of a step -/

/-- The stream has a header and as many collections as it says, each written without an error. -/
def Complete (J : Coding F P Cfg) (stream : Bytes) : Prop :=
  ∃ version timestamp cs, version < 256 ^ 8 ∧ timestamp < 256 ^ 8 ∧
    (∀ c ∈ cs, pointDataSize * c.2.points.length ≤ maxAlloc) ∧
      writeSnapshot J version timestamp cs = .ok stream

/-- No writer has published the body of this snapshot and not yet its metadata. -/
def NotPublishing (s : World) (id : Bytes) : Prop :=
  ∀ w, s.writers.lookup id = some w → w.phase = .writing ∨ w.phase = .closed

def Careful (J : Coding F P Cfg) (s : World) : Act F P Cfg → Prop
  | .finish id => ∀ w, s.writers.lookup id = some w → w.phase = .writing → Complete J w.stream
  | .delete id => NotPublishing s id
  | .pruneNext i => ∀ id ids, s.prunes[i]? = some (id :: ids) → NotPublishing s id
  | .crash => ∀ id, s.deleting = some id →
      s.dir.metas.lookup id = none ∨ (s.dir.snap.lookup id).isSome
  | _ => True

/-! ## What each step keeps -/

/-- The stream is read from the header to the last collection. -/
def Readable (J : Coding F P Cfg) (b : Bytes) : Prop :=
  ∃ version timestamp count r cs rest, readHeader b = .value ((version, timestamp, count), r) ∧
    readAll J count r = .value (cs, rest)

variable {b id : Bytes} {w : SnapshotWriter}

theorem complete_readable {J : Coding F P Cfg} (hJ : J.Lossless) (h : Complete J b) :
    Readable J b := by
  obtain ⟨version, timestamp, cs, hversion, htimestamp, hslices, hwrite⟩ := h
  obtain ⟨b₁, hheader, hwrite⟩ := except_bind_ok hwrite
  obtain ⟨b₂, hall, hret⟩ := except_bind_ok hwrite
  cases hret
  have hread := readAll_write hJ hslices hall []
  rw [append_nil] at hread
  exact ⟨_, _, _, _, _, _, readHeader_write hversion htimestamp hheader b₂, hread⟩

/-- What there is of one snapshot: its four files, its writer, and whether its `Delete` stands
    between the two removes. -/
structure View where
  snapTmp : Option Bytes
  snap : Option Bytes
  metaTmp : Option (Option Snapshot)
  metas : Option (Option Snapshot)
  writer : Option SnapshotWriter
  deleting : Bool

def World.view (s : World) (id : Bytes) : View :=
  ⟨s.dir.snapTmp.lookup id, s.dir.snap.lookup id, s.dir.metaTmp.lookup id, s.dir.metas.lookup id,
    s.writers.lookup id, decide (s.deleting = some id)⟩

def Stage (J : Coding F P Cfg) (v : View) (w : SnapshotWriter) : Prop :=
  match w.phase with
  | .writing => True
  | .closed => ∀ b, v.snapTmp = some b → Readable J b
  | .renamed => v.snap.isSome
  | .metaOpened => v.snap.isSome
  | .metaWritten => v.snap.isSome ∧ ∀ m, v.metaTmp = some m → m = some w.info

/-- **What holds of every snapshot**: its body is readable, and beside its metadata unless it is just being
    deleted. -/
structure SoundAt (J : Coding F P Cfg) (id : Bytes) (v : View) : Prop where
  snap : ∀ b, v.snap = some b → Readable J b
  metas : ∀ m, v.metas = some m → (∃ info, m = some info ∧ info.id = id) ∧
    validateSnapshotID id = .ok () ∧ (v.deleting = true ∨ v.snap.isSome)
  writer : ∀ w, v.writer = some w →
    w.info.id = id ∧ validateSnapshotID id = .ok () ∧ Stage J v w

def Sound (J : Coding F P Cfg) (s : World) : Prop := ∀ id, SoundAt J id (s.view id)

variable {J : Coding F P Cfg} {s : World}

theorem sound_empty : Sound J World.empty := by
  intro id
  refine ⟨fun b h => ?_, fun m h => ?_, fun w h => ?_⟩
  · cases h
  · cases h
  · cases h

theorem Sound.change {s' : World} (h : Sound J s) (id : Bytes)
    (hother : ∀ i, i ≠ id → s'.view i = s.view i) (hid : SoundAt J id (s'.view id)) :
    Sound J s' := by
  intro i
  by_cases hi : i = id
  · subst hi
    exact hid
  · rw [hother i hi]
    exact h i

/-! ### The id of a new snapshot -/

theorem isDigit_iff {b : UInt8} : isDigit b = true ↔ 48 ≤ b.toNat ∧ b.toNat ≤ 57 := by
  simp [isDigit, UInt8.le_iff_toNat_le]

theorem decimal_isDigit (n : ℕ) : ∀ b ∈ decimal n, isDigit b = true := by
  intro b hb
  obtain ⟨c, hc, rfl⟩ := mem_map.mp hb
  have hdigit := Nat.isDigit_of_mem_toDigits (by decide) (by decide) hc
  simp only [Char.isDigit, ge_iff_le, Bool.and_eq_true, decide_eq_true_eq] at hdigit
  have hlow : 48 ≤ c.toNat := hdigit.1
  have hhigh : c.toNat ≤ 57 := hdigit.2
  have htoNat : (UInt8.ofNat c.toNat).toNat = c.toNat := UInt8.toNat_ofNat_of_lt' (by
    show c.toNat < 256
    omega)
  rw [isDigit_iff, htoNat]
  exact ⟨hlow, hhigh⟩

theorem hasPathCharacters_of_ne {bs : Bytes} (h : ∀ b ∈ bs, b ≠ 46 ∧ b ≠ 47 ∧ b ≠ 92) :
    hasPathCharacters bs = false := by
  induction bs with
  | nil => rfl
  | cons b bs ih =>
    obtain ⟨hdot, hslash, hback⟩ := h b mem_cons_self
    rw [hasPathCharacters, ih fun x hx => h x (mem_cons_of_mem b hx)]
    simp [hdot, hslash, hback]

theorem validate_snapID {now : ℕ} (h : now < 2 ^ 63) : validateSnapshotID (snapID now) = .ok () := by
  have hdigits := decimal_isDigit now
  have hne : decimal now ≠ [] := by
    simp [decimal, Nat.toDigits_ne_nil]
  have hlength : (decimal now).length ≤ 19 := by
    rw [decimal, length_map]
    exact Nat.toDigits_length 10 now 19 (by decide) (by omega)
  have hmatches : matchesSnapshotID (snapID now) = true := by
    have hstem : (snapID now).take 5 = snapshotStem := take_left' rfl
    have hrest : (snapID now).drop 5 = decimal now := drop_left' rfl
    rw [matchesSnapshotID, hstem, hrest]
    simpa [hne] using hdigits
  have hstem : ∀ b ∈ snapshotStem, b ≠ 46 ∧ b ≠ 47 ∧ b ≠ 92 := by decide +kernel
  have hpath : hasPathCharacters (snapID now) = false := by
    refine hasPathCharacters_of_ne fun b hb => ?_
    rcases mem_append.mp hb with hb | hb
    · exact hstem b hb
    · have hdigit := isDigit_iff.mp (hdigits b hb)
      refine ⟨?_, ?_, ?_⟩
      all_goals
        rintro rfl
        exact absurd hdigit (by decide)
  have hlong : ¬ 64 < (snapID now).length := by
    rw [snapID, length_append]
    have hstem : snapshotStem.length = 5 := rfl
    omega
  have hnil : snapID now ≠ [] := by simp [snapID, snapshotStem]
  simp [validateSnapshotID, hnil, hlong, hmatches, hpath]

/-! ### The steps -/

section

variable (h : Sound J s)
include h

theorem sound_advance {d : Directory} (hsnap : d.snap = s.dir.snap) (hmetas : d.metas = s.dir.metas)
    (hother : ∀ i, i ≠ id → d.snapTmp.lookup i = s.dir.snapTmp.lookup i ∧ d.metaTmp.lookup i = s.dir.metaTmp.lookup i)
    (hid : w.info.id = id) (hvalid : validateSnapshotID id = .ok ())
    (hstage : ∀ v : View, v.snap = s.dir.snap.lookup id → v.snapTmp = d.snapTmp.lookup id → v.metaTmp = d.metaTmp.lookup id → Stage J v w) :
    Sound J { s with dir := d, writers := s.writers.insert id w } := by
  refine h.change id (fun i hi => ?_) ⟨fun b hb => ?_, fun m hm => ?_, fun w' hw' => ?_⟩
  · obtain ⟨htmp, hmeta⟩ := hother i hi
    simp [World.view, lookup_insert_ne hi, hsnap, hmetas, htmp, hmeta]
  · simp only [World.view, hsnap] at hb
    exact (h id).snap b hb
  · simp only [World.view, hsnap, hmetas] at hm ⊢
    exact (h id).metas m hm
  · have hw : w = w' := by simpa [World.view, lookup_insert] using hw'
    subst hw
    exact ⟨hid, hvalid, hstage _ (by simp [World.view, hsnap]) rfl rfl⟩

theorem sound_drop {d : SnapshotDir} (hd : ∀ i, i ≠ id → d.lookup i = s.dir.snapTmp.lookup i) :
    Sound J { s with dir := { s.dir with snapTmp := d }, writers := s.writers.erase id } := by
  refine h.change id (fun i hi => ?_) ⟨(h id).snap, (h id).metas, fun w hw => ?_⟩
  · simp [World.view, lookup_erase_ne hi, hd i hi]
  · simp [World.view, lookup_erase] at hw

theorem sound_removeSnap (hfree : s.deleting = none) (hnot : NotPublishing s id) :
    Sound J (s.removeSnap id) := by
  unfold World.removeSnap
  split
  · exact h
  · rename_i hvalid
    refine h.change id (fun i hi => ?_) ⟨fun b hb => ?_, fun m hm => ?_, fun w hw => ?_⟩
    · simp [World.view, lookup_erase_ne hi, hfree, hi.symm]
    · simp [World.view, lookup_erase] at hb
    · exact ⟨((h id).metas m hm).1, hvalid, .inl (by simp [World.view])⟩
    · obtain ⟨hid, _, hstage⟩ := (h id).writer w hw
      refine ⟨hid, hvalid, ?_⟩
      rcases hnot w hw with hphase | hphase
      · simp [Stage, hphase]
      · simp only [Stage, hphase] at hstage ⊢
        exact hstage

theorem sound_removeMeta (hdel : s.deleting = some id) :
    Sound J { s with dir := { s.dir with metas := s.dir.metas.erase id }, deleting := none } := by
  refine h.change id (fun i hi => ?_) ⟨(h id).snap, fun m hm => ?_, fun w hw => ?_⟩
  · simp [World.view, lookup_erase_ne hi, hdel, hi.symm]
  · simp [World.view, lookup_erase] at hm
  · exact (h id).writer w hw

theorem sound_crash (hcareful : ∀ id, s.deleting = some id →
    s.dir.metas.lookup id = none ∨ (s.dir.snap.lookup id).isSome) :
    Sound J { s with writers := ∅, deleting := none, prunes := [] } := by
  intro id
  refine ⟨(h id).snap, fun m hm => ?_, fun w hw => ?_⟩
  · obtain ⟨hinfo, hvalid, hbody⟩ := (h id).metas m hm
    refine ⟨hinfo, hvalid, .inr ?_⟩
    rcases hbody with hdel | hbody
    · have hm' : s.dir.metas.lookup id = some m := hm
      rcases hcareful id (of_decide_eq_true hdel) with hnone | hsome
      · rw [hnone] at hm'
        cases hm'
      · exact hsome
    · exact hbody
  · cases hw

variable (hw : s.writers.lookup id = some w)
include hw

theorem sound_renameSnap (hread : Readable J b) :
    Sound J { s with
      dir := { s.dir with snapTmp := s.dir.snapTmp.erase id, snap := s.dir.snap.insert id b }
      writers := s.writers.insert id { w with phase := .renamed } } := by
  obtain ⟨hid, hvalid, _⟩ := (h id).writer w hw
  refine h.change id (fun i hi => ?_) ⟨fun b' hb' => ?_, fun m hm => ?_, fun w' hw' => ?_⟩
  · simp [World.view, lookup_insert_ne hi, lookup_erase_ne hi]
  · have hb : b = b' := by simpa [World.view, lookup_insert] using hb'
    rw [← hb]
    exact hread
  · obtain ⟨hinfo, hvalid, _⟩ := (h id).metas m hm
    exact ⟨hinfo, hvalid, .inr (by simp [World.view, lookup_insert])⟩
  · have hw : { w with phase := .renamed } = w' := by
      simpa [World.view, lookup_insert] using hw'
    subst hw
    exact ⟨hid, hvalid, by simp [Stage, World.view, lookup_insert]⟩

theorem sound_renameMeta {m : Option Snapshot}
    (hsnap : (s.dir.snap.lookup id).isSome) (hm : m = some w.info) : Sound J { s with
      dir := { s.dir with metaTmp := s.dir.metaTmp.erase id, metas := s.dir.metas.insert id m }
      writers := s.writers.erase id } := by
  obtain ⟨hid, hvalid, _⟩ := (h id).writer w hw
  refine h.change id (fun i hi => ?_) ⟨(h id).snap, fun m' hm' => ?_, fun w' hw' => ?_⟩
  · simp [World.view, lookup_insert_ne hi, lookup_erase_ne hi]
  · have heq : m = m' := by simpa [World.view, lookup_insert] using hm'
    rw [← heq, hm]
    exact ⟨⟨_, rfl, hid⟩, hvalid, .inr hsnap⟩
  · simp [World.view, lookup_erase] at hw'

end

theorem sound_finishStep (hJ : J.Lossless) (h : Sound J s) (hw : s.writers.lookup id = some w)
    (hcomplete : w.phase = .writing → Complete J w.stream) : Sound J (s.finishStep id w) := by
  obtain ⟨hid, hvalid, hstage⟩ := (h id).writer w hw
  unfold World.finishStep
  cases hphase : w.phase with
  | writing =>
    refine sound_advance h rfl rfl (fun i hi => ⟨lookup_insert_ne hi, rfl⟩) hid hvalid
      fun v _ htmp _ b hb => ?_
    have hstream : w.stream = b := by simpa [htmp, lookup_insert] using hb
    rw [← hstream]
    exact complete_readable hJ (hcomplete hphase)
  | closed =>
    simp only [Stage, hphase] at hstage
    cases htmp : s.dir.snapTmp.lookup id with
    | none => exact sound_drop h fun _ _ => rfl
    | some b => exact sound_renameSnap h hw (hstage b htmp)
  | renamed =>
    simp only [Stage, hphase] at hstage
    refine sound_advance h rfl rfl (fun i hi => ⟨rfl, lookup_insert_ne hi⟩) hid hvalid
      fun v hsnap _ _ => ?_
    simp only [Stage, hsnap]
    exact hstage
  | metaOpened =>
    simp only [Stage, hphase] at hstage
    refine sound_advance h rfl rfl (fun i hi => ⟨rfl, lookup_insert_ne hi⟩) hid hvalid
      fun v hsnap _ hmeta => ?_
    simp only [Stage, hsnap, hmeta, lookup_insert, Option.some.injEq]
    exact ⟨hstage, fun m hm => hm.symm⟩
  | metaWritten =>
    simp only [Stage, hphase] at hstage
    cases hmeta : s.dir.metaTmp.lookup id with
    | none => exact sound_drop h fun _ _ => rfl
    | some m => exact sound_renameMeta h hw hstage.1 (hstage.2 m hmeta)

theorem sound_step (hJ : J.Lossless) {retainCount : ℕ} (s : World) (l : Act F P Cfg) (s' : World)
    (h : Sound J s) (hcareful : Careful J s l) (hstep : step J retainCount s l = some s') :
    Sound J s' := by
  cases l with
  | create now timestamp collections =>
    simp only [step] at hstep
    split_ifs at hstep with henabled
    cases hstep
    refine sound_advance (d := { s.dir with snapTmp := s.dir.snapTmp.insert (snapID now) [] }) h
      rfl rfl (fun i hi => ⟨lookup_insert_ne hi, rfl⟩) rfl (validate_snapID henabled.2.1)
      fun v _ _ _ => trivial
  | writeHeader id version totalCollections =>
    simp only [step] at hstep
    split at hstep
    · rename_i info stream headerWritten hw
      cases hstep
      obtain ⟨hid, hvalid, _⟩ := (h id).writer _ hw
      exact sound_advance h rfl rfl (fun _ _ => ⟨rfl, rfl⟩) hid hvalid fun _ _ _ _ => trivial
    · cases hstep
  | writeCollection id name data =>
    simp only [step] at hstep
    split at hstep
    · rename_i info stream hw
      cases hstep
      obtain ⟨hid, hvalid, _⟩ := (h id).writer _ hw
      exact sound_advance h rfl rfl (fun _ _ => ⟨rfl, rfl⟩) hid hvalid fun _ _ _ _ => trivial
    · cases hstep
      exact h
    · cases hstep
  | finish id =>
    simp only [step] at hstep
    split at hstep
    · rename_i w hw
      cases hstep
      exact sound_finishStep hJ h hw (hcareful w hw)
    · cases hstep
  | cancel id =>
    simp only [step] at hstep
    split at hstep
    · cases hstep
      exact sound_drop h fun i hi => lookup_erase_ne hi
    · cases hstep
  | delete id =>
    simp only [step] at hstep
    split_ifs at hstep with hfree
    cases hstep
    exact sound_removeSnap h hfree hcareful
  | deleteMeta =>
    simp only [step] at hstep
    split at hstep
    · rename_i id hdel
      cases hstep
      exact sound_removeMeta h hdel
    · cases hstep
  | prune =>
    simp only [step, Option.some.injEq] at hstep
    split_ifs at hstep
    · cases hstep
      exact h
    · cases hstep
      exact h
  | pruneNext i =>
    simp only [step] at hstep
    split at hstep
    · rename_i id ids hqueue
      split_ifs at hstep with hfree
      split at hstep
      · cases hstep
        exact h
      · cases hstep
        have h' : Sound J { s with prunes := s.prunes.set i ids } := h
        exact sound_removeSnap h' hfree (hcareful id ids hqueue)
    · cases hstep
  | crash =>
    cases hstep
    exact sound_crash h hcareful

/-! ## Every snapshot that is listed -/

theorem mem_list {d : Directory} {snap : Snapshot} (h : snap ∈ d.list) :
    ∃ id, d.metas.lookup id = some (some snap) := by
  rw [Directory.list, mem_mergeSort, mem_filterMap] at h
  obtain ⟨⟨id, m⟩, hmem, hm⟩ := h
  have hm' : m = some snap := hm
  subst hm'
  exact ⟨id, mem_lookup_iff.mpr hmem⟩

theorem openSnapshot_readable {d : SnapshotDir} (hvalid : validateSnapshotID id = .ok ())
    (hb : d.lookup id = some b) (h : Readable J b) :
    ∃ count r cs rest, openSnapshot d id = .value (count, r) ∧
      readAll J count r = .value (cs, rest) := by
  obtain ⟨version, timestamp, count, r, cs, rest, hheader, hall⟩ := h
  refine ⟨count, r, cs, rest, ?_, hall⟩
  simp only [openSnapshot, hvalid, hb, hheader, Outcome.mapError_value, Outcome.value_bind,
    Outcome.pure_eq]

/-- **A snapshot that is listed is there.** If each writer is finished with all that it has announced, nobody
    deletes a snapshot just being published, and no crash comes between the two removes of `Delete`, each
    snapshot of `List` that is not just being deleted is opened and read to its end. -/
theorem listed_opens (hJ : J.Lossless) (retainCount : ℕ) {ls : List (Act F P Cfg)}
    (hcareful : Along (step J retainCount) (Careful J) World.empty ls)
    (hrun : run (step J retainCount) World.empty ls = some s) :
    ∀ snap ∈ s.dir.list, s.deleting ≠ some snap.id →
      ∃ count r cs rest, openSnapshot s.dir.snap snap.id = .value (count, r) ∧
        readAll J count r = .value (cs, rest) := by
  have hsound : Sound J s := run_along (sound_step hJ) sound_empty hcareful hrun
  intro snap hsnap hnot
  obtain ⟨id, hmeta⟩ := mem_list hsnap
  obtain ⟨⟨info, hinfo, hid⟩, hvalid, hbody⟩ := (hsound id).metas _ hmeta
  cases hinfo
  subst hid
  rcases hbody with hdel | hbody
  · exact absurd (of_decide_eq_true hdel) hnot
  · obtain ⟨b, hb⟩ := Option.isSome_iff_exists.mp hbody
    exact openSnapshot_readable hvalid hb ((hsound _).snap b hb)

end Machine

/-! ### Snapshots that are published -/

/-- A snapshot at time 1, of these collections, is written and published. -/
def publishActs (cs : List (Bytes × CollectionData UInt32 Bytes Bytes)) : List (Act UInt32 Bytes Bytes) :=
  [.create 1 1 (cs.map Prod.fst), .writeHeader (snapID 1) 1 cs.length] ++
    cs.map (fun c => .writeCollection (snapID 1) c.1 c.2) ++ replicate 5 (.finish (snapID 1))

/-- **A crash between the two removes**: the snapshot is listed and cannot be opened. -/
theorem crashed_delete_lists : ∃ s : World,
    run (step plainCoding 5) World.empty (publishActs [] ++ [.delete (snapID 1), .crash]) = some s ∧
      s.deleting = none ∧ s.dir.list = [⟨snapID 1, 1, 1, []⟩] ∧
        openSnapshot s.dir.snap (snapID 1) = .error .notExist :=
  ⟨_, rfl, rfl, by decide +kernel, by decide +kernel⟩

/-- Nothing is deleted, and what is finished is the stream `b`. -/
def finishesOnly (b : Bytes) (s : World) : Act UInt32 Bytes Bytes → Bool
  | .finish id => (s.writers.lookup id).all fun w => w.phase != .writing || w.stream == b
  | .delete _ => false
  | .pruneNext _ => false
  | .crash => s.deleting == none
  | _ => true

theorem careful_of_finishesOnly {b : Bytes} (hb : Complete plainCoding b) {s : World}
    {l : Act UInt32 Bytes Bytes} (h : finishesOnly b s l = true) : Careful plainCoding s l := by
  cases l with
  | finish id =>
    intro w hw hphase
    have hstream : w.stream = b := by simpa [finishesOnly, hw, hphase] using h
    rw [hstream]
    exact hb
  | delete id => cases h
  | pruneNext i => cases h
  | crash =>
    intro id hid
    simp [finishesOnly, hid] at h
  | create now timestamp collections => trivial
  | writeHeader id version totalCollections => trivial
  | writeCollection id name data => trivial
  | cancel id => trivial
  | deleteMeta => trivial
  | prune => trivial

/-- A snapshot of two collections is published; the process crashes while it writes the next one. -/
def crashActs : List (Act UInt32 Bytes Bytes) := publishActs plainCollections ++ [.create 2 2 [], .crash]

theorem listed_opens_published : ∃ s : World, run (step plainCoding 5) World.empty crashActs = some s ∧
    s.dir.list = [⟨snapID 1, 1, 1, plainCollections.map Prod.fst⟩] ∧
      ∀ snap ∈ s.dir.list, s.deleting ≠ some snap.id →
        ∃ count r cs rest, openSnapshot s.dir.snap snap.id = .value (count, r) ∧
          readAll plainCoding count r = .value (cs, rest) := by
  obtain ⟨b, hb⟩ : ∃ b, writeSnapshot plainCoding 1 1 plainCollections = .ok b := ⟨_, rfl⟩
  obtain ⟨s, hrun, hlist⟩ : ∃ s : World, run (step plainCoding 5) World.empty crashActs = some s ∧
      s.dir.list = [⟨snapID 1, 1, 1, plainCollections.map Prod.fst⟩] := ⟨_, rfl, by decide +kernel⟩
  have honly : Along (step plainCoding 5) (fun s l => finishesOnly b s l = true) World.empty crashActs := by
    cases hb
    decide +kernel
  have hcomplete : Complete plainCoding b := ⟨1, 1, plainCollections, by decide, by decide, by decide, hb⟩
  have hcareful := along_along (fun _ _ _ _ h _ =>
    ⟨careful_of_finishesOnly hcomplete h, trivial⟩) trivial honly hrun
  exact ⟨s, hrun, hlist, listed_opens plainCoding_lossless 5 hcareful hrun⟩

end LimyeDB.Server
