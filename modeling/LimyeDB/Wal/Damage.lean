/-
  OPENING A DIRECTORY AFTER A CRASH: segment files that hold any bytes at all, and a last segment cut off at
  any byte.
-/
import LimyeDB.Wal.Delivery

namespace LimyeDB.Wal

open Go List Outcome

variable {N : Type} [LinearOrder N]

/-! ## Files that hold any bytes -/

/-- The file, and what follows each complete frame whose checksum and fields are right. -/
inductive FrameStart : Bytes → Bytes → Prop where
  | here (s : Bytes) : FrameStart s s
  | next {s t : Bytes} (h : GoodHead s) (ht : FrameStart (s.drop (lengthWord s + 8)) t) :
      FrameStart s t

theorem reached_iff {s t : Bytes} : Frames.Reached decodeRecord s t ↔ FrameStart s t := by
  constructor
  · intro h
    induction h with
    | here s => exact .here s
    | next hd _ ih =>
      obtain ⟨hgood, -, rfl⟩ := decodeRecord_eq_value_iff.mp hd
      exact .next hgood ih
  · intro h
    induction h with
    | here s => exact .here s
    | next hgood _ ih => exact .next (decodeRecord_eq_value_iff.mpr ⟨hgood, rfl, rfl⟩) ih

/-- No place of the file makes the reader panic. -/
def SafeFile (b : Bytes) : Prop := ∀ t, FrameStart b t → SafeFrame t

/-- The file is a sequence of good frames and then ends, if need be in the middle of one. -/
def IntactFile (b : Bytes) : Prop := ∀ t, FrameStart b t → GoodHead t ∨ CutShort t

theorem scan_ne_panic_iff (b : Bytes) : scanSegmentLastSeqNum b ≠ .panic ↔ SafeFile b := by
  unfold scanSegmentLastSeqNum SafeFile
  rw [Frames.readAll_ne_panic decodeRecord_progress fun acc a => ⟨_, rfl⟩]
  simp only [reached_iff, decodeRecord_ne_panic_iff]

theorem decodeRecord_io_iff {t : Bytes} :
    (∃ e, decodeRecord t = .error e ∧ scanEnd e = true) ↔ CutShort t := by
  constructor
  · rintro ⟨e, hd, he⟩
    by_contra h
    by_cases hw : lengthWord t + 4 < 2 ^ 32
    · rw [decodeRecord_complete h hw] at hd
      split at hd
      · split at hd
        · cases hd
        · cases hd
      · cases hd
        cases he
    · rw [decodeRecord_wraps h hw] at hd
      cases hd
  · intro h
    obtain ⟨e, he⟩ := decodeRecord_cutShort h
    refine ⟨_, he, ?_⟩
    cases e with
    | eof => rfl
    | unexpectedEOF => rfl

theorem scan_returns_iff (b : Bytes) :
    (∃ m, scanSegmentLastSeqNum b = .value m) ↔ IntactFile b := by
  unfold scanSegmentLastSeqNum IntactFile
  rw [Frames.readAll_returns decodeRecord_progress fun acc a => ⟨_, rfl⟩]
  refine forall_congr' fun t => ?_
  rw [reached_iff, decodeRecord_io_iff]
  refine imp_congr_right fun _ => or_congr_left ?_
  constructor
  · rintro ⟨⟨r, rest⟩, hd⟩
    exact (decodeRecord_eq_value_iff.mp hd).1
  · intro hgood
    exact ⟨_, decodeRecord_eq_value_iff.mpr ⟨hgood, rfl, rfl⟩⟩

section Load

variable {disk : List (File N)}

theorem loadSegment_cases {n : N} {b : Bytes} (h : readFile disk n = some b)
    (acc : List (SegmentInfo N) × UInt64) :
    (IntactFile b ∧ SafeFile b ∧ ∃ acc', loadSegment disk acc n = .value acc') ∨
      (¬ IntactFile b ∧ SafeFile b ∧ ∃ e, loadSegment disk acc n = .error e) ∨
      (¬ SafeFile b ∧ loadSegment disk acc n = .panic) := by
  have hsafe := scan_ne_panic_iff b
  have hintact := scan_returns_iff b
  unfold loadSegment
  rw [h]
  cases hscan : scanSegmentLastSeqNum b with
  | value m =>
    simp only [hscan]
    exact .inl ⟨hintact.mp ⟨m, hscan⟩, hsafe.mp (by rw [hscan]; simp), _, rfl⟩
  | error e =>
    simp only [hscan]
    refine .inr (.inl ⟨fun hi => ?_, hsafe.mp (by rw [hscan]; simp), _, rfl⟩)
    obtain ⟨m, hm⟩ := hintact.mpr hi
    rw [hscan] at hm
    cases hm
  | panic =>
    simp only [hscan]
    exact .inr (.inr ⟨fun hs => hsafe.mpr hs hscan, rfl⟩)

theorem loadAll_ne_panic : ∀ {names : List N} (acc : List (SegmentInfo N) × UInt64),
    names.Pairwise (· < ·) → (∀ n ∈ names, ∃ b, readFile disk n = some b) →
    (names.foldlM (loadSegment disk) acc ≠ .panic ↔
      ∀ n ∈ names, (∀ m ∈ names, m < n → ∀ b, readFile disk m = some b → IntactFile b) →
        ∀ b, readFile disk n = some b → SafeFile b)
  | [], acc, _, _ => by simp
  | n :: names, acc, hsort, hread => by
      obtain ⟨hlt, hsort'⟩ := pairwise_cons.mp hsort
      obtain ⟨b, hb⟩ := hread n mem_cons_self
      have hread' : ∀ m ∈ names, ∃ b, readFile disk m = some b :=
        (forall_mem_cons.mp hread).2
      rw [foldlM_cons]
      -- the first file is the one with the least name, so nothing comes before it
      have hfirst : (∀ m ∈ n :: names, m < n → ∀ b, readFile disk m = some b → IntactFile b) := by
        exact forall_mem_cons.mpr ⟨fun hn => absurd hn (lt_irrefl _), fun m hm hmn => absurd hmn (hlt m hm).not_gt⟩
      rcases loadSegment_cases hb acc with ⟨hi, hs, acc', hload⟩ | ⟨hi, hs, e, hload⟩ | ⟨hs, hload⟩
      · rw [hload, value_bind, loadAll_ne_panic acc' hsort' hread']
        constructor
        · intro hall m hm hbefore b' hb'
          rcases mem_cons.mp hm with rfl | hm
          · rw [hb] at hb'
            cases hb'
            exact hs
          · exact hall m hm (forall_mem_cons.mp hbefore).2 b' hb'
        · intro hall m hm hbefore b' hb'
          refine hall m (mem_cons_of_mem _ hm) (fun k hk hkm c hc => ?_) b' hb'
          rcases mem_cons.mp hk with rfl | hk
          · rw [hb] at hc
            cases hc
            exact hi
          · exact hbefore k hk hkm c hc
      · rw [hload]
        refine iff_of_true (by simp) fun m hm hbefore b' hb' => ?_
        rcases mem_cons.mp hm with rfl | hm
        · rw [hb] at hb'
          cases hb'
          exact hs
        · exact absurd (hbefore n mem_cons_self (hlt m hm) b hb) hi
      · rw [hload]
        exact iff_of_false (by simp) fun hall => hs (hall n mem_cons_self hfirst b hb)

end Load

theorem sorted_names {names : List N} (hn : names.Nodup) :
    (names.mergeSort (fun a b => a ≤ b)).Pairwise (· < ·) := by
  have hle := pairwise_mergeSort' (· ≤ ·) names
  have hnodup := (mergeSort_perm names (fun a b => a ≤ b)).nodup_iff.mpr hn
  exact (hle.and hnodup).imp fun h => lt_of_le_of_ne h.1 h.2

/-- **Open does not panic exactly if no file is reached that is not safe**, over files that can be read to
    their ends. -/
theorem openWAL_ne_panic_iff (C : Clock N) (cfg : Config) {disk : List (File N)}
    (hn : (disk.map (·.name)).Nodup) (ticks : Nat) :
    openWAL C cfg disk ticks ≠ .panic ↔ ∀ f ∈ disk,
      (∀ g ∈ disk, g.name < f.name → IntactFile g.bytes) → SafeFile f.bytes := by
  have hopen : openWAL C cfg disk ticks ≠ .panic ↔ loadSegments disk ≠ .panic := by
    unfold openWAL
    rw [bind_ne_panic]
    exact and_iff_left fun _ _ => by simp
  have hread : ∀ f ∈ disk, readFile disk f.name = some f.bytes := fun f => readFile_of_mem hn
  have hmem : ∀ n, n ∈ (disk.map (·.name)).mergeSort (fun a b => a ≤ b) ↔
      ∃ f ∈ disk, f.name = n := by
    intro n
    rw [mem_mergeSort, mem_map]
  rw [hopen, loadSegments, loadAll_ne_panic _ (sorted_names hn)]
  · constructor
    · intro hall f hf hbefore
      refine hall f.name ((hmem _).mpr ⟨f, hf, rfl⟩) (fun m hm hlt b hb => ?_) _ (hread f hf)
      obtain ⟨g, hg, rfl⟩ := (hmem m).mp hm
      rw [hread g hg] at hb
      cases hb
      exact hbefore g hg hlt
    · intro hall n hn' hbefore b hb
      obtain ⟨f, hf, rfl⟩ := (hmem n).mp hn'
      rw [hread f hf] at hb
      cases hb
      exact hall f hf fun g hg hlt => hbefore g.name ((hmem _).mpr ⟨g, hg, rfl⟩) hlt _ (hread g hg)
  · intro n hn'
    obtain ⟨f, hf, rfl⟩ := (hmem n).mp hn'
    exact ⟨_, hread f hf⟩

/-- **The reader and Open on arbitrary bytes.** -/
theorem open_ne_panic_iff (C : Clock N) (cfg : Config) (disk : List (File N)) (ticks : Nat)
    (hn : (disk.map (·.name)).Nodup) :
    (∀ s, decodeRecord s ≠ .panic ↔ SafeFrame s) ∧ (openWAL C cfg disk ticks ≠ .panic ↔ ∀ f ∈ disk,
        (∀ g ∈ disk, g.name < f.name → IntactFile g.bytes) → SafeFile f.bytes) :=
  ⟨fun _ => decodeRecord_ne_panic_iff, openWAL_ne_panic_iff C cfg hn ticks⟩

/-- A segment with a record and half of a length word, and one with a record of which a byte has changed. -/
def damagedDisk : List (File ℕ) :=
  [⟨0, frame smallRecord ++ [0, 1]⟩, ⟨1, frame smallRecord ++ (frame smallRecord).set 9 7⟩]

theorem open_damaged_disk : openWAL tickClock ⟨1024, true⟩ damagedDisk 1 ≠ .panic := by
  refine (open_ne_panic_iff tickClock ⟨1024, true⟩ damagedDisk 1 (by decide)).2.mpr fun f hf _ => ?_
  have hscan : ∀ f ∈ damagedDisk, scanSegmentLastSeqNum f.bytes ≠ .panic := by decide +kernel
  exact (scan_ne_panic_iff _).mp (hscan f hf)

/-- **Eight zero bytes make the reader panic, and Open**: a length of zero, the checksum of nothing, and no
    room for the fields. -/
theorem zero_filled_panics : decodeRecord [0, 0, 0, 0, 0, 0, 0, 0] = .panic ∧
    openWAL tickClock ⟨1024, true⟩ [⟨0, [0, 0, 0, 0, 0, 0, 0, 0]⟩] 1 = .panic := by
  have hunsafe : ¬ SafeFrame [0, 0, 0, 0, 0, 0, 0, 0] := by decide
  constructor
  · by_contra h
    exact hunsafe (decodeRecord_ne_panic_iff.mp h)
  · by_contra h
    refine hunsafe ((openWAL_ne_panic_iff tickClock ⟨1024, true⟩ (by simp) 1).mp h _
      mem_cons_self (fun g hg hlt => ?_) _ (.here _))
    rw [mem_singleton.mp hg] at hlt
    exact absurd hlt (lt_irrefl _)

/-! ## What lies before a cut -/

/-- The records of the first `k` frames of a log; those of a batch only if its end marker is among
    the frames too. -/
def completeBefore : List Event → Nat → List Record
  | [], _ => []
  | ev :: es, k =>
    if ev.log.length ≤ k then ev.records ++ completeBefore es (k - ev.log.length) else []

/-- A log as successful calls leave it: singles, and batches between their markers. -/
structure ValidLog (es : List Event) : Prop where
  formed : ∀ ev ∈ es, ev.Formed
  whole : ∀ ev ∈ es, ev.Whole
  sized : ∀ b rs e, Event.batch b rs e ∈ es → rs.length < 2 ^ 32

theorem ValidLog.tail {ev : Event} {es : List Event} (h : ValidLog (ev :: es)) : ValidLog es :=
  ⟨fun a ha => h.formed a (mem_cons_of_mem _ ha),
    fun a ha => h.whole a (mem_cons_of_mem _ ha),
    fun b rs e hmem => h.sized b rs e (mem_cons_of_mem _ hmem)⟩

theorem ValidLog.head_delivers {ev : Event} {es : List Event} (h : ValidLog (ev :: es)) :
    ev.delivers false = ev.records ∧ ev.opens false = false := by
  have hw := h.whole ev mem_cons_self
  cases ev with
  | wrote r => exact ⟨rfl, rfl⟩
  | quiet => exact ⟨rfl, rfl⟩
  | batch b rs e => exact ⟨if_pos (h.sized b rs e mem_cons_self), rfl⟩
  | rejected => exact absurd hw not_false
  | cut l => exact absurd hw not_false

theorem deliver_partial {ev : Event} (hf : ev.Formed) (hw : ev.Whole) {k : Nat}
    (hk : k < ev.log.length) (st : BatchState) : deliver st (ev.log.take k) = [] := by
  cases ev with
  | wrote r =>
    have hk0 : k = 0 := Nat.lt_one_iff.mp hk
    subst hk0
    rfl
  | quiet => exact absurd hk (Nat.not_lt_zero k)
  | rejected => exact absurd hw not_false
  | cut l => exact absurd hw not_false
  | batch b rs e =>
    obtain ⟨hb, -, hrs, -⟩ := hf
    cases k with
    | zero => rfl
    | succ k =>
      have hk' : k ≤ rs.length := by
        simp only [Event.log, cons_append, length_cons, length_append, length_nil] at hk
        omega
      show deliver st (b :: (rs ++ [e]).take k) = []
      rw [take_append_of_le_length hk', deliver, if_pos hb, ← append_nil (rs.take k),
        deliver_inBatch fun r hr => hrs r (mem_of_mem_take hr)]
      rfl

theorem deliver_take : ∀ {es : List Event} (k : Nat) {st : BatchState}, ValidLog es →
    st.inBatch = false → deliver st ((es.flatMap Event.log).take k) = completeBefore es k
  | [], k, st, _, _ => by simp [deliver, completeBefore]
  | ev :: es, k, st, h, hst => by
      have hf := h.formed ev mem_cons_self
      rw [flatMap_cons, completeBefore]
      by_cases hk : ev.log.length ≤ k
      · obtain ⟨st', hin, hdel⟩ := deliver_event hf st
        obtain ⟨hrec, hopen⟩ := h.head_delivers
        rw [hst] at hdel hin
        rw [if_pos hk, take_append, take_of_length_le hk, hdel, hrec,
          deliver_take (k - ev.log.length) h.tail (hin.trans hopen)]
      · rw [if_neg hk, take_append_of_le_length (by omega)]
        exact deliver_partial hf (h.whole ev mem_cons_self) (by omega) st

/-! ## A last segment cut off at any byte -/

/-- The strict prefix of a record that a cut leaves behind the first `j`. -/
def Torn (recs : List Record) (j : Nat) (p : Bytes) : Prop :=
  p = [] ∨ ∃ a, recs[j]? = some a ∧ p <+: frame a ∧ p.length < (frame a).length

section Torn

variable {recs : List Record} {p : Bytes} {j : Nat}

theorem decodeRecord_torn (hfits : ∀ r ∈ recs, Fits r) (hp : Torn recs j p) : decodeRecord p =
      .error (.io (if p.length = 0 ∨ p.length = 4 then .eof else .unexpectedEOF)) := by
  rcases hp with rfl | ⟨a, ha, hpre, hlt⟩
  · rfl
  · exact decodeRecord_prefix (hfits a (mem_of_getElem? ha)) hpre hlt

variable {σ : Type} (f : σ → Record → σ) (acc : σ)

variable (hfits : ∀ r ∈ recs, Fits r) (hp : Torn recs j p)
include hfits hp

theorem readAll_torn {isEnd : DecodeError → Bool} :
    Frames.readAll decodeRecord isEnd (fun a r => .value (f a r)) acc
        ((recs.take j).flatMap frame ++ p) =
      if isEnd (.io (if p.length = 0 ∨ p.length = 4 then .eof else .unexpectedEOF)) then
        .value ((recs.take j).foldl f acc)
      else .error (.io (if p.length = 0 ∨ p.length = 4 then .eof else .unexpectedEOF)) := by
  have hd := decodeRecord_torn hfits hp
  rw [Frames.readAll_frames _ _ decodeRecord_progress decodeRecord_reads _ _ _
    (fun r hr => hfits r (mem_of_mem_take hr)), Frames.foldlM_value, value_bind]
  by_cases he : isEnd (.io (if p.length = 0 ∨ p.length = 4 then .eof else .unexpectedEOF)) = true
  · rw [if_pos he]
    exact Frames.readAll_end _ hd he
  · rw [if_neg he]
    exact Frames.readAll_error _ hd (by simpa using he)

theorem scan_torn : scanSegmentLastSeqNum ((recs.take j).flatMap frame ++ p) =
      .value ((recs.take j).foldl maxSeqNum 0) := by
  unfold scanSegmentLastSeqNum
  rw [readAll_torn maxSeqNum 0 hfits hp, if_pos]
  split <;> rfl

theorem replaySegment_torn {disk : List (File N)} {n : N}
    (hread : readFile disk n = some ((recs.take j).flatMap frame ++ p)) (all : List Record) :
    replaySegment disk all n = if p.length = 0 ∨ p.length = 4 then .value (all ++ recs.take j)
      else .error (.decode (.io .unexpectedEOF)) := by
  unfold replaySegment
  rw [hread]
  simp only
  rw [readAll_torn (fun all r => all ++ [r]) all hfits hp, foldl_snoc]
  by_cases h : p.length = 0 ∨ p.length = 4
  · simp only [if_pos h]
    rfl
  · simp only [if_neg h]
    rfl

end Torn

section Directory

variable {closed : List (N × List Record)} {n : N} {recs : List Record} {p : Bytes} {j ticks : Nat}

/-- The files of a log whose last segment ends with a strict prefix of a record. -/
def tornDisk (closed : List (N × List Record)) (n : N) (recs : List Record) (j : Nat)
    (p : Bytes) : List (File N) :=
  closed.map segFile ++ [⟨n, (recs.take j).flatMap frame ++ p⟩]

omit [LinearOrder N] in
theorem tornDisk_names (closed : List (N × List Record)) (n : N) (recs : List Record) (j : Nat)
    (p : Bytes) :
    (tornDisk closed n recs j p).map (·.name) = closed.map (·.1) ++ [n] := by
  unfold tornDisk
  rw [map_append, map_segFile_name]
  rfl

theorem read_tornDisk {disk : List (File N)} (hnodup : (disk.map (·.name)).Nodup)
    (hsub : tornDisk closed n recs j p ⊆ disk) :
    (∀ x ∈ closed, readFile disk x.1 = some (segFile x).bytes) ∧
      readFile disk n = some ((recs.take j).flatMap frame ++ p) := by
  refine ⟨fun x hx => ?_, ?_⟩
  · exact readFile_of_mem hnodup (hsub (mem_append_left _ (mem_map_of_mem hx)))
  · exact readFile_of_mem hnodup (hsub (mem_append_right _ (mem_singleton_self _)))

variable (C : Clock N) (cfg : Config) (hnames : (closed.map (·.1) ++ [n]).Pairwise (· < ·))
  (hfresh : ∀ m ∈ closed.map (·.1) ++ [n], m < C.fileName ticks)
  (hclosed : ∀ x ∈ closed, ∀ r ∈ x.2, Fits r) (hfits : ∀ r ∈ recs, Fits r) (hp : Torn recs j p)
include hnames hfresh hclosed hfits hp

theorem openWAL_torn : ∃ s, openWAL C cfg (tornDisk closed n recs j p) ticks = .value s ∧
      s.disk = tornDisk closed n recs j p ++ [⟨C.fileName ticks, []⟩] ∧
      s.wal.segments.map (·.path) = closed.map (·.1) ++ [n] ∧
      s.wal.currentSegment = ⟨C.fileName ticks, [], 0⟩ := by
  have hnodup : ((tornDisk closed n recs j p).map (·.name)).Nodup := by
    rw [tornDisk_names closed n recs j p]
    exact hnames.nodup
  obtain ⟨hread, hlast⟩ := read_tornDisk hnodup (Subset.refl _)
  obtain ⟨out, hout, hpath, -⟩ := loadAll_eq closed ([], 0) hread hclosed
  have hload : loadSegments (tornDisk closed n recs j p) =
      loadSegment (tornDisk closed n recs j p) out n := by
    unfold loadSegments
    rw [tornDisk_names, mergeSort_of_pairwise (hnames.imp fun h => by simpa using h.le),
      foldlM_append, hout, value_bind, foldlM_cons]
    exact bind_pure _
  have hnew : createFile (tornDisk closed n recs j p) (C.fileName ticks) =
      tornDisk closed n recs j p ++ [⟨C.fileName ticks, []⟩] := by
    refine createFile_new fun f hf => (hfresh f.name ?_).ne
    rw [← tornDisk_names closed n recs j p]
    exact mem_map_of_mem hf
  unfold openWAL
  rw [hload]
  unfold loadSegment
  rw [hlast]
  simp only [scan_torn hfits hp, mapError_value, value_bind, pure_eq, openSegment, hnew]
  refine ⟨_, rfl, rfl, ?_, rfl⟩
  rw [map_append, hpath]
  rfl

theorem delivered_torn : ∃ s, openWAL C cfg (tornDisk closed n recs j p) ticks = .value s ∧
      delivered s = if p.length = 0 ∨ p.length = 4 then
          .value (deliver BatchState.start (closed.flatMap (·.2) ++ recs.take j))
        else .error (.decode (.io .unexpectedEOF)) := by
  obtain ⟨s, hopen, hdisk, hpath, hcur⟩ :=
    openWAL_torn C cfg hnames hfresh hclosed hfits hp
  refine ⟨s, hopen, ?_⟩
  have hnodup : (s.disk.map (·.name)).Nodup := by
    rw [hdisk, map_append, tornDisk_names]
    refine Nodup.append hnames.nodup (by simp) ?_
    intro m hm hm'
    have hlt := hfresh m hm
    rw [mem_singleton.mp hm'] at hlt
    exact lt_irrefl _ hlt
  obtain ⟨hread, hlast⟩ := read_tornDisk hnodup (hdisk ▸ subset_append_left _ _)
  have hflush : (flush s).disk = s.disk := by
    unfold flush
    simp only [hcur]
    rw [hdisk, appendFile_last]
    · rfl
    · intro f hf
      refine (hfresh f.name ?_).ne
      rw [← tornDisk_names closed n recs j p]
      exact mem_map_of_mem hf
  have hnew : readFile s.disk (C.fileName ticks) = some (segFile (C.fileName ticks, [])).bytes := by
    refine readFile_of_mem (f := ⟨C.fileName ticks, []⟩) hnodup ?_
    rw [hdisk]
    exact mem_append_right _ (mem_singleton_self _)
  rw [delivered_eq]
  unfold collect
  rw [hpath, foldlM_append, replaySegments_eq closed [] hread hclosed, value_bind,
    nil_append, foldlM_cons, replaySegment_torn hfits hp hlast, hflush, hcur]
  by_cases h4 : p.length = 0 ∨ p.length = 4
  · rw [if_pos h4, if_pos h4]
    simp only [value_bind, foldlM_nil, pure_eq]
    rw [replaySegment_eq (x := (C.fileName ticks, [])) hnew (by simp)]
    simp
  · rw [if_neg h4, if_neg h4]
    rfl

end Directory

def bytesBefore (recs : List Record) (k : Nat) : Nat := ((recs.take k).flatMap frame).length

theorem bytesBefore_mono (recs : List Record) {i k : Nat} (h : i ≤ k) :
    bytesBefore recs i ≤ bytesBefore recs k := by
  obtain ⟨t, ht⟩ : recs.take i <+: recs.take k :=
    prefix_of_prefix_length_le ⟨_, take_append_drop _ _⟩ ⟨_, take_append_drop _ _⟩
      (by rw [length_take, length_take]; omega)
  unfold bytesBefore
  rw [← ht, flatMap_append, length_append]
  omega

theorem bytesBefore_succ {recs : List Record} {k : Nat} {a : Record} (h : recs[k]? = some a) :
    bytesBefore recs (k + 1) = bytesBefore recs k + (frame a).length := by
  unfold bytesBefore
  rw [take_add_one, h, flatMap_append, length_append]
  simp

theorem torn_length_iff {recs : List Record} {p : Bytes} {c j : Nat}
    (hc : c = bytesBefore recs j + p.length) (hp : Torn recs j p) :
    (p.length = 0 ∨ p.length = 4) ↔
      ∃ k, c = bytesBefore recs k ∨ c = bytesBefore recs k + 4 := by
  constructor
  · rintro (h | h)
    · exact ⟨j, Or.inl (by omega)⟩
    · exact ⟨j, Or.inr (by omega)⟩
  · rintro ⟨k, hk⟩
    rcases hp with rfl | ⟨a, ha, -, hlt⟩
    · exact Or.inl rfl
    rcases Nat.lt_trichotomy k j with hkj | rfl | hkj
    · -- a whole frame, longer than four bytes, lies between
      obtain ⟨b, hb⟩ : ∃ b, recs[k]? = some b := by
        have hj := (List.getElem?_eq_some_iff.mp ha).1
        exact ⟨_, List.getElem?_eq_getElem (by omega)⟩
      have hsucc := bytesBefore_succ hb
      have hmono := bytesBefore_mono recs (show k + 1 ≤ j from hkj)
      rw [frame_length] at hsucc
      omega
    · omega
    · have hsucc := bytesBefore_succ ha
      have hmono := bytesBefore_mono recs (show j + 1 ≤ k from hkj)
      omega

/-- **A segment cut off at any byte.** Open and Replay deliver exactly what lies completely before the cut, if
    and only if the cut is at the end of a record or four bytes behind one. -/
theorem torn_segment_iff (C : Clock N) (cfg : Config) (closed : List (N × List Record)) (n : N)
    (recs : List Record) (es : List Event) (c ticks : Nat)
    (hnames : (closed.map (·.1) ++ [n]).Pairwise (· < ·))
    (hfresh : ∀ m ∈ closed.map (·.1) ++ [n], m < C.fileName ticks)
    (hlog : closed.flatMap (·.2) ++ recs = es.flatMap Event.log) (hvalid : ValidLog es)
    (hfits : ∀ r ∈ es.flatMap Event.log, Fits r) (hc : c ≤ (recs.flatMap frame).length) :
    (∃ s, openWAL C cfg (closed.map segFile ++ [⟨n, (recs.flatMap frame).take c⟩]) ticks =
          .value s ∧
        delivered s = .value (completeBefore es
          ((closed.flatMap (·.2)).length + Frames.framesBefore frame recs c))) ↔
      ∃ k, c = bytesBefore recs k ∨ c = bytesBefore recs k + 4 := by
  rw [← hlog] at hfits
  have hclosed : ∀ x ∈ closed, ∀ r ∈ x.2, Fits r := fun x hx r hr =>
    hfits r (mem_append_left _ (mem_flatMap.mpr ⟨x, hx, hr⟩))
  have hrecs : ∀ r ∈ recs, Fits r := (forall_mem_append.mp hfits).2
  obtain ⟨p, hcut, hp⟩ := Frames.flatMap_take_cut frame recs c hc
  generalize Frames.framesBefore frame recs c = j at hcut hp ⊢
  have hlen : c = bytesBefore recs j + p.length := by
    have h := congrArg length hcut
    rw [length_take, Nat.min_eq_left hc, length_append] at h
    exact h
  have hdel : deliver BatchState.start (closed.flatMap (·.2) ++ recs.take j) =
      completeBefore es ((closed.flatMap (·.2)).length + j) := by
    rw [← deliver_take _ hvalid (rfl : BatchState.start.inBatch = false), ← hlog,
      take_length_add_append]
  obtain ⟨s, hopen, hd⟩ := delivered_torn C cfg hnames hfresh hclosed hrecs hp
  rw [← torn_length_iff hlen hp, hcut]
  constructor
  · rintro ⟨s', hopen', hd'⟩
    unfold tornDisk at hopen
    rw [hopen] at hopen'
    cases hopen'
    by_contra h
    rw [hd, if_neg h] at hd'
    cases hd'
  · intro h
    exact ⟨s, hopen, by rw [hd, if_pos h, hdel]⟩

theorem smallRecord_fits : Fits smallRecord := by decide

/-- A segment of two records cut four bytes behind the first one. -/
theorem torn_segment_behind_length : ∃ s, openWAL tickClock ⟨1024, true⟩
        [⟨0, ([smallRecord, smallRecord].flatMap frame).take
          (bytesBefore [smallRecord, smallRecord] 1 + 4)⟩] 1 = .value s ∧
      delivered s = .value (completeBefore [.wrote smallRecord, .wrote smallRecord]
        (0 + Frames.framesBefore frame [smallRecord, smallRecord]
          (bytesBefore [smallRecord, smallRecord] 1 + 4))) := by
  refine (torn_segment_iff tickClock ⟨1024, true⟩ [] 0 [smallRecord, smallRecord]
    [.wrote smallRecord, .wrote smallRecord] _ 1 (by simp) (by simp [tickClock]) (by simp [Event.log])
    ⟨?_, ?_, by simp⟩ ?_ ?_).mpr ⟨1, .inr rfl⟩
  · simp [Event.Formed, smallRecord_ok.2.2]
  · simp [Event.Whole]
  · simp [Event.log, smallRecord_fits]
  · simp [bytesBefore, totalLen]

/-- **A segment cut behind its first byte**: Open takes it, and Replay fails on it. -/
theorem torn_first_byte_fails : ∃ s,
    openWAL tickClock ⟨1024, true⟩ [⟨0, (frame smallRecord).take 1⟩] 1 = .value s ∧
      delivered s = .error (.decode (.io .unexpectedEOF)) := by
  have hlen : ((frame smallRecord).take 1).length = 1 := by
    rw [length_take, frame_length]
    omega
  have hp : ((frame smallRecord).take 1 : Bytes) = [] ∨ ∃ a, [smallRecord][0]? = some a ∧
      (frame smallRecord).take 1 <+: frame a ∧
      ((frame smallRecord).take 1).length < (frame a).length :=
    .inr ⟨smallRecord, rfl, take_prefix _ _, by rw [hlen, frame_length]; omega⟩
  have hfresh : ∀ m ∈ ([] : List (ℕ × List Record)).map (·.1) ++ [0], m < tickClock.fileName 1 := by
    simp [tickClock]
  obtain ⟨s, hopen, hd⟩ := delivered_torn tickClock ⟨1024, true⟩ (by simp) hfresh (by simp)
    (by simpa using smallRecord_fits) hp
  refine ⟨s, hopen, ?_⟩
  rw [hd, hlen]
  rfl

end LimyeDB.Wal
