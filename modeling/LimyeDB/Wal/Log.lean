/-
  WHERE THE RECORDS ARE: the files of a log hold frames, cut into segments, with the tail of the current one
  still in its buffer.
-/
import LimyeDB.Wal.State

namespace LimyeDB.Wal

open Go List Outcome

variable {N : Type} [LinearOrder N]

/-! ## Files -/

theorem readFile_of_mem : ∀ {disk : List (File N)} {f : File N},
    (disk.map (·.name)).Nodup → f ∈ disk → readFile disk f.name = some f.bytes
  | [], _, _, hf => absurd hf not_mem_nil
  | g :: disk, f, hn, hf => by
      rw [map_cons, nodup_cons] at hn
      unfold readFile
      rcases mem_cons.mp hf with rfl | hf
      · rw [find?_cons_of_pos (by simp)]
        rfl
      · have hne : g.name ≠ f.name := fun e => hn.1 (e ▸ mem_map_of_mem hf)
        rw [find?_cons_of_neg (by simpa using hne)]
        exact readFile_of_mem hn.2 hf

theorem appendFile_last {disk : List (File N)} {n : N} {b x : Bytes} (h : ∀ f ∈ disk, f.name ≠ n) :
    appendFile (disk ++ [⟨n, b⟩]) n x = disk ++ [⟨n, b ++ x⟩] := by
  have hid : disk.map (fun f => if f.name = n then { f with bytes := f.bytes ++ x } else f) =
      disk := by
    conv_rhs => rw [← map_id disk]
    exact map_congr_left fun f hf => if_neg (h f hf)
  unfold appendFile
  rw [map_append, hid]
  simp

theorem createFile_new {disk : List (File N)} {n : N} (h : ∀ f ∈ disk, f.name ≠ n) :
    createFile disk n = disk ++ [⟨n, []⟩] := by
  unfold createFile
  rw [if_neg]
  simpa using h

/-! ## The layout of a log -/

def segFile (x : N × List Record) : File N := ⟨x.1, x.2.flatMap frame⟩

omit [LinearOrder N] in
theorem map_segFile_name (xs : List (N × List Record)) :
    (xs.map segFile).map (·.name) = xs.map (·.1) := by
  rw [map_map]
  rfl

/-- The finished segments, and the records `cur` of the current one, partly in the buffer. Names increase, and
    the clock is past them. -/
structure Layout (C : Clock N) (s : Sys N) (closed : List (N × List Record))
    (cur : List Record) : Prop where
  disk : ∃ b, s.disk = closed.map segFile ++ [⟨s.wal.currentSegment.path, b⟩] ∧
    b ++ s.wal.currentSegment.buffered = cur.flatMap frame
  listed : s.wal.segments.map (·.path) = closed.map (·.1)
  names : (closed.map (·.1) ++ [s.wal.currentSegment.path]).Pairwise (· < ·)
  fresh : ∀ n ∈ closed.map (·.1) ++ [s.wal.currentSegment.path], n < C.fileName s.ticks

section Steps

variable {C : Clock N} {s : Sys N} {closed : List (N × List Record)} {cur : List Record}

variable (h : Layout C s closed cur)
include h

theorem Layout.path_ne : ∀ f ∈ closed.map segFile, f.name ≠ s.wal.currentSegment.path := by
  intro f hf
  have hlt := (pairwise_append.mp h.names).2.2 f.name
    (by rw [← map_segFile_name]; exact mem_map_of_mem hf) _ (mem_singleton_self _)
  exact hlt.ne

theorem Layout.flush_disk :
    (flush s).disk = (closed ++ [(s.wal.currentSegment.path, cur)]).map segFile := by
  obtain ⟨b, hdisk, hb⟩ := h.disk
  unfold Wal.flush
  simp only
  rw [hdisk, appendFile_last h.path_ne, hb, map_append]
  rfl

theorem Layout.flush : Layout C (flush s) closed cur where
  disk := ⟨cur.flatMap frame, by rw [h.flush_disk, map_append]; rfl, by simp [Wal.flush]⟩
  listed := h.listed
  names := h.names
  fresh := h.fresh

theorem Layout.writeCurrent (r : Record) :
    Layout C (writeCurrent s (frame r)) closed (cur ++ [r]) where
  disk := by
    obtain ⟨b, hdisk, hb⟩ := h.disk
    refine ⟨b ++ (bufWrite s.wal.currentSegment.buffered (frame r)).1, ?_, ?_⟩
    · unfold Wal.writeCurrent
      simp only
      rw [hdisk, appendFile_last h.path_ne]
    · unfold Wal.writeCurrent
      rw [append_assoc, bufWrite_append, ← append_assoc, hb]
      simp
  listed := h.listed
  names := h.names
  fresh := h.fresh

theorem Layout.draw : Layout C (draw s) closed cur where
  disk := h.disk
  listed := h.listed
  names := h.names
  fresh := fun n hn => (h.fresh n hn).trans (C.fileName_strictMono (Nat.lt_succ_self _))

omit h in
theorem layout_open {xs : List (N × List Record)} {ticks : Nat} {w : WAL N}
    (hnames : (xs.map (·.1)).Pairwise (· < ·)) (hfresh : ∀ n ∈ xs.map (·.1), n < C.fileName ticks)
    (hlisted : w.segments.map (·.path) = xs.map (·.1))
    (hcur : w.currentSegment = (openSegment C (xs.map segFile) ticks).1) :
    Layout C ⟨(openSegment C (xs.map segFile) ticks).2, ticks + 1, w⟩ xs [] where
  disk := by
    refine ⟨[], ?_, by simp [hcur, openSegment]⟩
    rw [hcur]
    unfold openSegment
    refine createFile_new fun f hf => ?_
    exact (hfresh f.name (by rw [← map_segFile_name]; exact mem_map_of_mem hf)).ne
  listed := hlisted
  names := by
    refine pairwise_append.mpr ⟨hnames, pairwise_singleton _ _, ?_⟩
    intro a ha b hb
    rw [mem_singleton.mp hb, hcur]
    exact hfresh a ha
  fresh := by
    intro n hn
    have hnext := C.fileName_strictMono (Nat.lt_succ_self ticks)
    rcases mem_append.mp hn with hn | hn
    · exact (hfresh n hn).trans hnext
    · rw [mem_singleton.mp hn, hcur]
      exact hnext

theorem Layout.rotate :
    Layout C (rotate C s) (closed ++ [(s.wal.currentSegment.path, cur)]) [] := by
  have hd := h.flush_disk
  have hnames : ((closed ++ [(s.wal.currentSegment.path, cur)]).map (·.1)) =
      closed.map (·.1) ++ [s.wal.currentSegment.path] := by simp
  unfold Wal.rotate
  simp only
  rw [hd]
  refine layout_open (by rw [hnames]; exact h.names) (by rw [hnames]; exact h.fresh) ?_ rfl
  rw [hnames, map_append]
  show s.wal.segments.map (·.path) ++ _ = _
  rw [h.listed]
  rfl

theorem Layout.put (r : Record) : ∃ closed' cur', Layout C (put C s (frame r)) closed' cur' ∧
      closed'.flatMap (·.2) ++ cur' = closed.flatMap (·.2) ++ cur ++ [r] := by
  unfold Wal.put
  simp only
  split
  · refine ⟨_, _, h.rotate.writeCurrent r, ?_⟩
    simp
  · refine ⟨_, _, h.writeCurrent r, ?_⟩
    simp

end Steps

/-! ## Reading the log back -/

/-- What the writer lets into the log: accepted, and stamped by the clock. -/
structure Logged (r : Record) : Prop where
  accepted : Accepted r
  time : 0 ≤ r.timestamp

theorem Logged.fits {r : Record} (h : Logged r) (hsize : totalLen r + 4 < 2 ^ 32) : Fits r :=
  ⟨h.accepted.1, hsize, h.time⟩

variable {rs : List Record}

section Read

variable {σ : Type} {isEnd : DecodeError → Bool}

theorem readAll_flatMap_frame (f : σ → Record → σ) (hend : isEnd (.io .eof) = true)
    (hfits : ∀ r ∈ rs, Fits r) (acc : σ) :
    Frames.readAll decodeRecord isEnd (fun a r => .value (f a r)) acc (rs.flatMap frame) =
      .value (rs.foldl f acc) := by
  have h := Frames.readAll_frames isEnd
    (fun a r => (Outcome.value (f a r) : Outcome DecodeError σ)) decodeRecord_progress decodeRecord_reads rs acc [] hfits
  rw [append_nil, Frames.foldlM_value, value_bind] at h
  rw [h, Frames.readAll_end _ decodeRecord_nil hend]

theorem fits_of_readAll {step : σ → Record → Outcome DecodeError σ} {acc x : σ}
    (hlog : ∀ r ∈ rs, Logged r)
    (h : Frames.readAll decodeRecord isEnd step acc (rs.flatMap frame) = .value x) :
    ∀ r ∈ rs, Fits r := by
  induction rs generalizing acc with
  | nil => exact nofun
  | cons r rs ih =>
    have hr := hlog r mem_cons_self
    rw [flatMap_cons] at h
    by_cases hsize : totalLen r + 4 < 2 ^ 32
    · have hfits := hr.fits hsize
      rw [Frames.readAll_value decodeRecord_progress acc (decodeRecord_frame hfits _)] at h
      obtain ⟨acc', -, h⟩ := bind_eq_value.mp h
      exact forall_mem_cons.mpr
        ⟨hfits, ih (forall_mem_cons.mp hlog).2 h⟩
    · have hmax := hr.accepted.2
      unfold maxUint32 at hmax
      rw [Frames.readAll_panic acc (decodeRecord_frame_panic (by omega) (by omega) _)] at h
      cases h

end Read

theorem foldl_snoc {α : Type} (rs acc : List α) :
    rs.foldl (fun all r => all ++ [r]) acc = acc ++ rs := by
  induction rs generalizing acc with
  | nil => simp
  | cons r rs ih => simp [ih]

theorem forall_of_foldlM {ε σ α β : Type} {f : σ → β → Outcome ε σ} {g : α → β} {P : α → Prop}
    {xs : List α} {a b : σ} (h : ∀ x ∈ xs, ∀ a b, f a (g x) = .value b → P x)
    (hout : (xs.map g).foldlM f a = .value b) : ∀ x ∈ xs, P x := by
  induction xs generalizing a with
  | nil => exact nofun
  | cons x xs ih =>
    rw [map_cons, foldlM_cons] at hout
    obtain ⟨a', hx, hout⟩ := bind_eq_value.mp hout
    intro y hy
    rcases mem_cons.mp hy with rfl | hy
    · exact h y mem_cons_self a a' hx
    · exact ih (forall_mem_cons.mp h).2 hout y hy

variable {x : N × List Record}

section Replay

variable {disk : List (File N)}

theorem replaySegment_eq (hread : readFile disk x.1 = some (segFile x).bytes)
    (hfits : ∀ r ∈ x.2, Fits r) (all : List Record) :
    replaySegment disk all x.1 = .value (all ++ x.2) := by
  unfold replaySegment
  rw [hread]
  show (Frames.readAll decodeRecord replayEnd _ all (x.2.flatMap frame)).mapError _ = _
  rw [readAll_flatMap_frame (fun all r => all ++ [r]) rfl hfits, foldl_snoc]
  rfl

theorem fits_of_replaySegment {all out : List Record}
    (hread : readFile disk x.1 = some (segFile x).bytes) (hlog : ∀ r ∈ x.2, Logged r)
    (h : replaySegment disk all x.1 = .value out) : ∀ r ∈ x.2, Fits r := by
  unfold replaySegment at h
  rw [hread] at h
  cases hread' : Frames.readAll decodeRecord replayEnd (fun all r => .value (all ++ [r])) all
      (x.2.flatMap frame) with
  | value y => exact fits_of_readAll hlog hread'
  | error e =>
    change (Frames.readAll _ _ _ all (x.2.flatMap frame)).mapError _ = _ at h
    rw [hread'] at h
    cases h
  | panic =>
    change (Frames.readAll _ _ _ all (x.2.flatMap frame)).mapError _ = _ at h
    rw [hread'] at h
    cases h

theorem replaySegments_eq : ∀ (xs : List (N × List Record)) (all : List Record),
    (∀ x ∈ xs, readFile disk x.1 = some (segFile x).bytes) → (∀ x ∈ xs, ∀ r ∈ x.2, Fits r) →
    (xs.map (·.1)).foldlM (replaySegment disk) all = .value (all ++ xs.flatMap (·.2))
  | [], all, _, _ => by simp
  | x :: xs, all, hread, hfits => by
      rw [map_cons, foldlM_cons, replaySegment_eq (hread x mem_cons_self) (hfits x mem_cons_self),
        value_bind, replaySegments_eq xs _ (forall_mem_cons.mp hread).2
        (forall_mem_cons.mp hfits).2]
      simp

end Replay

section Collect

variable {C : Clock N} {s : Sys N} {closed : List (N × List Record)} {cur : List Record}

variable (h : Layout C s closed cur)
include h

theorem Layout.read_closed : ∀ x ∈ closed, readFile s.disk x.1 = some (segFile x).bytes := by
  intro x hx
  obtain ⟨b, hdisk, -⟩ := h.disk
  have hnames : (s.disk.map (·.name)).Pairwise (· < ·) := by
    rw [hdisk, map_append, map_segFile_name]
    exact h.names
  have hmem : segFile x ∈ s.disk := by
    rw [hdisk]
    exact mem_append_left _ (mem_map_of_mem hx)
  exact readFile_of_mem hnames.nodup hmem

theorem Layout.read_current :
    readFile (Wal.flush s).disk s.wal.currentSegment.path = some (cur.flatMap frame) := by
  have hd := h.flush_disk
  have hnames : ((Wal.flush s).disk.map (·.name)).Pairwise (· < ·) := by
    rw [hd, map_segFile_name, map_append]
    exact h.names
  have hmem : segFile (s.wal.currentSegment.path, cur) ∈ (Wal.flush s).disk := by
    rw [hd]
    exact mem_map_of_mem (by simp)
  exact readFile_of_mem hnames.nodup hmem

theorem Layout.collect_eq (hfits : ∀ r ∈ closed.flatMap (·.2) ++ cur, Fits r) :
    collect s = .value (closed.flatMap (·.2) ++ cur) := by
  have hclosed : ∀ x ∈ closed, ∀ r ∈ x.2, Fits r := fun x hx r hr =>
    hfits r (mem_append_left _ (mem_flatMap.mpr ⟨x, hx, hr⟩))
  have hcur : ∀ r ∈ cur, Fits r := (forall_mem_append.mp hfits).2
  unfold collect
  rw [h.listed, replaySegments_eq closed [] h.read_closed hclosed, value_bind, nil_append]
  exact replaySegment_eq (x := (s.wal.currentSegment.path, cur)) h.read_current hcur _

theorem Layout.fits_of_collect {out : List Record}
    (hlog : ∀ r ∈ closed.flatMap (·.2) ++ cur, Logged r) (hout : collect s = .value out) :
    ∀ r ∈ closed.flatMap (·.2) ++ cur, Fits r := by
  have hclosed : ∀ x ∈ closed, ∀ r ∈ x.2, Logged r := fun x hx r hr =>
    hlog r (mem_append_left _ (mem_flatMap.mpr ⟨x, hx, hr⟩))
  have hcur : ∀ r ∈ cur, Logged r := (forall_mem_append.mp hlog).2
  unfold collect at hout
  rw [h.listed] at hout
  obtain ⟨old, hold, hout⟩ := bind_eq_value.mp hout
  intro r hr
  rcases mem_append.mp hr with hr | hr
  · obtain ⟨x, hx, hr⟩ := mem_flatMap.mp hr
    exact forall_of_foldlM (fun x hx _ _ => fits_of_replaySegment (h.read_closed x hx) (hclosed x hx))
      hold x hx r hr
  · exact fits_of_replaySegment (x := (s.wal.currentSegment.path, cur)) h.read_current hcur
      hout r hr

end Collect

/-! ## Opening the log again -/

theorem maxSeqNum_le {m B : UInt64} {r : Record} :
    maxSeqNum m r ≤ B ↔ m ≤ B ∧ r.seqNum ≤ B := by
  unfold maxSeqNum
  simp only [gt_iff_lt, UInt64.lt_iff_toNat_lt, UInt64.le_iff_toNat_le]
  split <;> omega

theorem foldl_maxSeqNum_le {m B : UInt64} :
    rs.foldl maxSeqNum m ≤ B ↔ m ≤ B ∧ ∀ r ∈ rs, r.seqNum ≤ B := by
  induction rs generalizing m with
  | nil => simp
  | cons r rs ih =>
    rw [foldl_cons, ih, maxSeqNum_le, forall_mem_cons, and_assoc]

theorem scan_eq (hfits : ∀ r ∈ rs, Fits r) :
    scanSegmentLastSeqNum (rs.flatMap frame) = .value (rs.foldl maxSeqNum 0) :=
  readAll_flatMap_frame maxSeqNum rfl hfits 0

section Load

variable {disk : List (File N)}

theorem loadSegment_eq (hread : readFile disk x.1 = some (segFile x).bytes)
    (hfits : ∀ r ∈ x.2, Fits r) (acc : List (SegmentInfo N) × UInt64) :
    ∃ size last, loadSegment disk acc x.1 =
        .value (acc.1 ++ [⟨x.1, x.2.foldl maxSeqNum 0, size⟩], last) ∧
      ∀ B, last ≤ B ↔ acc.2 ≤ B ∧ ∀ r ∈ x.2, r.seqNum ≤ B := by
  refine ⟨Int64.ofNat (segFile x).bytes.length,
    if x.2.foldl maxSeqNum 0 > acc.2 then x.2.foldl maxSeqNum 0 else acc.2, ?_, ?_⟩
  · unfold loadSegment
    rw [hread]
    show ((scanSegmentLastSeqNum (x.2.flatMap frame)).mapError _ >>= _) = _
    rw [scan_eq hfits, mapError_value, value_bind]
    rfl
  · intro B
    have hzero : x.2.foldl maxSeqNum 0 ≤ B ↔ _ := foldl_maxSeqNum_le
    rw [and_iff_right (UInt64.zero_le)] at hzero
    rw [← hzero]
    simp only [gt_iff_lt, UInt64.lt_iff_toNat_lt, UInt64.le_iff_toNat_le]
    split <;> omega

theorem fits_of_loadSegment {acc out : List (SegmentInfo N) × UInt64}
    (hread : readFile disk x.1 = some (segFile x).bytes) (hlog : ∀ r ∈ x.2, Logged r)
    (h : loadSegment disk acc x.1 = .value out) : ∀ r ∈ x.2, Fits r := by
  unfold loadSegment at h
  rw [hread] at h
  obtain ⟨m, hm, -⟩ := bind_eq_value.mp h
  cases hscan : scanSegmentLastSeqNum (segFile x).bytes with
  | value y => exact fits_of_readAll hlog hscan
  | error e => rw [hscan] at hm; cases hm
  | panic => rw [hscan] at hm; cases hm

theorem loadAll_eq : ∀ (xs : List (N × List Record)) (acc : List (SegmentInfo N) × UInt64),
    (∀ x ∈ xs, readFile disk x.1 = some (segFile x).bytes) → (∀ x ∈ xs, ∀ r ∈ x.2, Fits r) →
    ∃ out, (xs.map (·.1)).foldlM (loadSegment disk) acc = .value out ∧
      out.1.map (·.path) = acc.1.map (·.path) ++ xs.map (·.1) ∧
      ∀ B, out.2 ≤ B ↔ acc.2 ≤ B ∧ ∀ r ∈ xs.flatMap (·.2), r.seqNum ≤ B
  | [], acc, _, _ => ⟨acc, by simp, by simp, by simp⟩
  | x :: xs, acc, hread, hfits => by
      obtain ⟨size, last, hload, hlast⟩ :=
        loadSegment_eq (hread x mem_cons_self) (hfits x mem_cons_self) acc
      obtain ⟨out, hout, hpath, hmax⟩ := loadAll_eq xs
        (acc.1 ++ [⟨x.1, x.2.foldl maxSeqNum 0, size⟩], last)
        (forall_mem_cons.mp hread).2
        (forall_mem_cons.mp hfits).2
      refine ⟨out, ?_, ?_, fun B => ?_⟩
      · rw [map_cons, foldlM_cons, hload, value_bind, hout]
      · rw [hpath]
        simp
      · rw [hmax, hlast, and_assoc]
        simp only [flatMap_cons, mem_append, or_imp, forall_and]

end Load

section Reopen

variable (C : Clock N) (cfg : Config) {xs : List (N × List Record)} {ticks : Nat}

variable (hnames : (xs.map (·.1)).Pairwise (· < ·))
include hnames

theorem read_segFiles : ∀ x ∈ xs, readFile (xs.map segFile) x.1 = some (segFile x).bytes := by
  intro x hx
  exact readFile_of_mem (by rw [map_segFile_name]; exact hnames.nodup)
    (mem_map_of_mem hx)

theorem loadSegments_segFiles : loadSegments (xs.map segFile) =
      (xs.map (·.1)).foldlM (loadSegment (xs.map segFile)) ([], 0) := by
  unfold loadSegments
  rw [map_segFile_name, mergeSort_of_pairwise]
  exact hnames.imp fun h => by simpa using h.le

/-- **Open over finished segments**: all of them are listed, a new one is begun, and the next
    number comes after every number in them. -/
theorem openWAL_eq (hfresh : ∀ n ∈ xs.map (·.1), n < C.fileName ticks)
    (hfits : ∀ x ∈ xs, ∀ r ∈ x.2, Fits r) :
    ∃ s, openWAL C cfg (xs.map segFile) ticks = .value s ∧ Layout C s xs [] ∧
      ∀ B, s.wal.lastSeqNum ≤ B ↔ ∀ r ∈ xs.flatMap (·.2), r.seqNum ≤ B := by
  obtain ⟨out, hout, hpath, hmax⟩ := loadAll_eq xs ([], 0) (read_segFiles hnames) hfits
  refine ⟨_, ?_, layout_open hnames hfresh (w := ⟨cfg.segmentSize, cfg.syncOnWrite,
    (openSegment C (xs.map segFile) ticks).1, out.1, out.2⟩) (by simpa using hpath) rfl, ?_⟩
  · unfold openWAL
    rw [loadSegments_segFiles hnames, hout, value_bind]
    rfl
  · intro B
    rw [hmax, and_iff_right (UInt64.zero_le)]

variable {C cfg} in
theorem fits_of_openWAL {s : Sys N} (hlog : ∀ x ∈ xs, ∀ r ∈ x.2, Logged r)
    (h : openWAL C cfg (xs.map segFile) ticks = .value s) : ∀ x ∈ xs, ∀ r ∈ x.2, Fits r := by
  unfold openWAL at h
  rw [loadSegments_segFiles hnames] at h
  obtain ⟨out, hout, -⟩ := bind_eq_value.mp h
  exact forall_of_foldlM (fun x hx _ _ => fits_of_loadSegment (read_segFiles hnames x hx) (hlog x hx))
    hout

end Reopen

end LimyeDB.Wal
