/-
  WHICH FILES TRUNCATE REMOVES, in every state the log can reach.

  A segment listed by Open carries the largest number in its file; one listed by a rotation carries 0.
-/
import LimyeDB.Wal.Damage

namespace LimyeDB.Wal

open Go List

variable {N : Type} [LinearOrder N]

/-! ## The states a log can reach -/

def HoldsRecord (b : Bytes) (r : Record) : Prop :=
  ∃ t rest, FrameStart b t ∧ decodeRecord t = .value (r, rest)

/-- A directory with files of any content, and any calls. `loaded` are the names the last Open listed. -/
inductive Reachable (C : Clock N) : Sys N → List N → Prop where
  | opened {cfg : Config} {disk : List (File N)} {ticks : Nat} {s : Sys N}
      (hnames : (disk.map (·.name)).Nodup) (hfresh : ∀ f ∈ disk, f.name < C.fileName ticks)
      (h : openWAL C cfg disk ticks = .value s) : Reachable C s (s.wal.segments.map (·.path))
  | write {s : Sys N} {loaded : List N} (r : Record) (h : Reachable C s loaded) :
      Reachable C (write C s r).1 loaded
  | writeBatch {s : Sys N} {loaded : List N} (rs : List Record) (h : Reachable C s loaded) :
      Reachable C (writeBatch C s rs).1 loaded
  | sync {s : Sys N} {loaded : List N} (h : Reachable C s loaded) : Reachable C (flush s) loaded
  | truncate {s : Sys N} {loaded : List N} (n : UInt64) (h : Reachable C s loaded) :
      Reachable C (truncate n s).1 loaded

/-! ## What Open finds -/

theorem scan_bounds {b : Bytes} {m : UInt64} (h : scanSegmentLastSeqNum b = .value m) {r : Record}
    (hr : HoldsRecord b r) : r.seqNum ≤ m := by
  obtain ⟨t, rest, ht, hd⟩ := hr
  obtain ⟨as, rfl, hmem⟩ := Frames.readAll_fold decodeRecord_progress maxSeqNum h
  exact (foldl_maxSeqNum_le.mp (UInt64.le_refl _)).2 r (hmem t r rest (reached_iff.mpr ht) hd)

variable {disk : List (File N)}

theorem loadAll_listed : ∀ {names : List N}
    {acc out : List (SegmentInfo N) × UInt64}, (∀ n ∈ names, ∃ b, readFile disk n = some b) →
    names.foldlM (loadSegment disk) acc = .value out →
    out.1.map (·.path) = acc.1.map (·.path) ++ names ∧ ∀ seg ∈ out.1, seg ∈ acc.1 ∨
        ∃ b, readFile disk seg.path = some b ∧ scanSegmentLastSeqNum b = .value seg.lastSeqNum
  | [], acc, out, _, h => by
      cases h
      exact ⟨by simp, fun seg hseg => .inl hseg⟩
  | n :: names, acc, out, hread, h => by
      obtain ⟨b, hb⟩ := hread n mem_cons_self
      obtain ⟨acc₁, hload, h⟩ := Outcome.bind_eq_value.mp h
      obtain ⟨hpath, hsegs⟩ := loadAll_listed (forall_mem_cons.mp hread).2 h
      unfold loadSegment at hload
      rw [hb] at hload
      cases hscan : scanSegmentLastSeqNum b with
      | value m =>
        simp only [hscan] at hload
        cases hload
        refine ⟨by rw [hpath]; simp, fun seg hseg => ?_⟩
        rcases hsegs seg hseg with hseg | hseg
        · rcases mem_append.mp hseg with hseg | hseg
          · exact .inl hseg
          · rw [mem_singleton.mp hseg]
            exact .inr ⟨b, hb, hscan⟩
        · exact .inr hseg
      | error e => simp only [hscan] at hload; cases hload
      | panic => simp only [hscan] at hload; cases hload

/-! ## The invariant -/

structure SegInv (C : Clock N) (s : Sys N) (loaded : List N) : Prop where
  names : (s.disk.map (·.name)).Nodup
  fresh : ∀ n ∈ s.disk.map (·.name), n < C.fileName s.ticks
  past : ∀ n ∈ loaded, n < C.fileName s.ticks
  distinct : (s.wal.segments.map (·.path)).Nodup
  listed : ∀ seg ∈ s.wal.segments, seg.path ∈ s.disk.map (·.name)
  current : s.wal.currentSegment.path ∈ s.disk.map (·.name)
  apart : s.wal.currentSegment.path ∉ s.wal.segments.map (·.path)
  begun : s.wal.currentSegment.path ∉ loaded
  scanned : ∀ seg ∈ s.wal.segments, seg.path ∈ loaded → ∀ f ∈ s.disk, f.name = seg.path →
    ∀ r, HoldsRecord f.bytes r → r.seqNum ≤ seg.lastSeqNum
  rotated : ∀ seg ∈ s.wal.segments, seg.path ∉ loaded → seg.lastSeqNum = 0

theorem appendFile_names (disk : List (File N)) (n : N) (b : Bytes) :
    (appendFile disk n b).map (·.name) = disk.map (·.name) := by
  unfold appendFile
  rw [map_map]
  refine map_congr_left fun f _ => ?_
  simp only [Function.comp]
  split <;> rfl

theorem mem_appendFile {n : N} {b : Bytes} {f : File N}
    (h : f ∈ appendFile disk n b) (hne : f.name ≠ n) : f ∈ disk := by
  obtain ⟨g, hg, he⟩ := mem_map.mp h
  by_cases hgn : g.name = n
  · rw [if_pos hgn] at he
    subst he
    exact absurd hgn hne
  · rw [if_neg hgn] at he
    exact he ▸ hg

section Invariant

variable {C : Clock N} {s : Sys N} {loaded : List N}

/-- A new file becomes the current segment. -/
theorem segInv_created {ticks : Nat} (hdisk : s.disk = createFile disk (C.fileName ticks))
    (hticks : s.ticks = ticks + 1) (hcurrent : s.wal.currentSegment.path = C.fileName ticks)
    (hnames : (disk.map (·.name)).Nodup) (hfresh : ∀ n ∈ disk.map (·.name), n < C.fileName ticks)
    (hpast : ∀ n ∈ loaded, n < C.fileName ticks) (hdistinct : (s.wal.segments.map (·.path)).Nodup)
    (hlisted : ∀ seg ∈ s.wal.segments, seg.path ∈ disk.map (·.name))
    (hscanned : ∀ seg ∈ s.wal.segments, seg.path ∈ loaded → ∀ f ∈ disk, f.name = seg.path →
      ∀ r, HoldsRecord f.bytes r → r.seqNum ≤ seg.lastSeqNum)
    (hrotated : ∀ seg ∈ s.wal.segments, seg.path ∉ loaded → seg.lastSeqNum = 0) : SegInv C s loaded := by
  rw [createFile_new fun f hf => (hfresh _ (mem_map_of_mem hf)).ne] at hdisk
  have hall : s.disk.map (·.name) = disk.map (·.name) ++ [C.fileName ticks] := by
    rw [hdisk, map_append]
    rfl
  have hnext := C.fileName_strictMono (Nat.lt_succ_self ticks)
  refine ⟨?_, ?_, ?_, hdistinct, ?_, ?_, ?_, ?_, ?_, hrotated⟩
  · rw [hall]
    refine hnames.append (nodup_singleton _) fun n hn hn' => ?_
    exact (hfresh n hn).ne (mem_singleton.mp hn')
  · rw [hall, hticks]
    exact forall_mem_append.mpr ⟨fun n hn => (hfresh n hn).trans hnext, forall_mem_singleton.mpr hnext⟩
  · rw [hticks]
    exact fun n hn => (hpast n hn).trans hnext
  · rw [hall]
    exact fun seg hseg => mem_append_left _ (hlisted seg hseg)
  · rw [hall, hcurrent]
    exact mem_append_right _ (mem_singleton_self _)
  · rw [hcurrent]
    intro hmem
    obtain ⟨seg, hseg, e⟩ := mem_map.mp hmem
    exact (hfresh _ (hlisted seg hseg)).ne e
  · rw [hcurrent]
    exact fun hmem => lt_irrefl _ (hpast _ hmem)
  · rw [hdisk]
    intro seg hseg hl f hf hname
    rcases mem_append.mp hf with hf | hf
    · exact hscanned seg hseg hl f hf hname
    · rw [mem_singleton.mp hf] at hname
      exact absurd hname.symm (hfresh _ (hlisted seg hseg)).ne

section

variable (h : SegInv C s loaded)
include h

theorem SegInv.append {s' : Sys N} {b : Bytes}
    (hdisk : s'.disk = appendFile s.disk s.wal.currentSegment.path b) (hticks : s'.ticks = s.ticks)
    (hsegs : s'.wal.segments = s.wal.segments)
    (hpath : s'.wal.currentSegment.path = s.wal.currentSegment.path) : SegInv C s' loaded where
  names := by rw [hdisk, appendFile_names]; exact h.names
  fresh := by rw [hdisk, appendFile_names, hticks]; exact h.fresh
  past := by rw [hticks]; exact h.past
  distinct := by rw [hsegs]; exact h.distinct
  listed := by rw [hsegs, hdisk, appendFile_names]; exact h.listed
  current := by rw [hpath, hdisk, appendFile_names]; exact h.current
  apart := by rw [hpath, hsegs]; exact h.apart
  begun := by rw [hpath]; exact h.begun
  scanned := by
    rw [hsegs, hdisk]
    intro seg hseg hl f hf hname
    refine h.scanned seg hseg hl f (mem_appendFile hf fun e => ?_) hname
    exact h.apart (e ▸ hname ▸ mem_map_of_mem hseg)
  rotated := by rw [hsegs]; exact h.rotated

theorem SegInv.flush : SegInv C (flush s) loaded :=
  h.append rfl rfl rfl rfl

theorem SegInv.writeCurrent (data : Bytes) : SegInv C (writeCurrent s data) loaded :=
  h.append rfl rfl rfl rfl

theorem SegInv.draw : SegInv C (draw s) loaded :=
  { h with
    fresh := fun n hn => (h.fresh n hn).trans (C.fileName_strictMono (Nat.lt_succ_self _))
    past := fun n hn => (h.past n hn).trans (C.fileName_strictMono (Nat.lt_succ_self _)) }

theorem SegInv.rotate : SegInv C (rotate C s) loaded := by
  have hf := h.flush
  refine segInv_created rfl rfl rfl hf.names hf.fresh h.past ?_ ?_ ?_ ?_
  · show (map SegmentInfo.path (s.wal.segments ++ [_])).Nodup
    rw [map_append]
    refine hf.distinct.append (nodup_singleton _) fun n hn hn' => ?_
    rw [mem_singleton.mp hn'] at hn
    exact hf.apart hn
  · exact forall_mem_append.mpr ⟨hf.listed, forall_mem_singleton.mpr hf.current⟩
  · exact forall_mem_append.mpr ⟨hf.scanned, forall_mem_singleton.mpr fun hl => absurd hl h.begun⟩
  · exact forall_mem_append.mpr ⟨h.rotated, forall_mem_singleton.mpr fun _ => rfl⟩

theorem SegInv.put (data : Bytes) : SegInv C (put C s data) loaded := by
  unfold Wal.put
  split
  · exact h.rotate.writeCurrent data
  · exact h.writeCurrent data

theorem SegInv.logs {l : List Record} {k : Nat} {s' : Sys N}
    (hl : Logs C s l k s') : SegInv C s' loaded := by
  induction hl with
  | start => exact h
  | reject _ ih => exact ih.draw
  | record _ r _ ih => exact ih.draw.put _
  | flush _ ih => exact ih.flush

omit h in
/-- **Truncate removes** the files of the listed segments that carry a smaller number, and these are no longer
    listed. -/
theorem truncateSegments_eq (n : UInt64) : ∀ (segs : List (SegmentInfo N)) (disk : List (File N))
    (remaining : List (SegmentInfo N)), (segs.map (·.path)).Nodup →
    (∀ seg ∈ segs, seg.path ∈ disk.map (·.name)) →
    truncateSegments n segs disk remaining =
      (disk.filter fun f => ¬ ∃ seg ∈ segs, seg.path = f.name ∧ seg.lastSeqNum < n,
        .ok (remaining ++ segs.filter fun seg => ¬ seg.lastSeqNum < n))
  | [], disk, remaining, _, _ => by simp [truncateSegments]
  | seg :: segs, disk, remaining, hnodup, hlisted => by
      obtain ⟨hnot, hnodup'⟩ := nodup_cons.mp hnodup
      unfold truncateSegments
      by_cases hlt : seg.lastSeqNum < n
      · obtain ⟨f, hf, hname⟩ := mem_map.mp (hlisted seg mem_cons_self)
        have hsome : (readFile disk seg.path).isSome := by
          unfold readFile
          rw [Option.isSome_map, find?_isSome]
          exact ⟨f, hf, by simpa using hname⟩
        obtain ⟨b, hb⟩ := Option.isSome_iff_exists.mp hsome
        rw [if_pos hlt, hb]
        simp only
        rw [truncateSegments_eq n segs _ remaining hnodup']
        · unfold removeFile
          rw [filter_filter, filter_cons_of_neg (by simpa using hlt)]
          congr 1
          refine filter_congr fun g _ => ?_
          rw [← Bool.decide_and, decide_eq_decide, exists_mem_cons_iff, not_or,
            and_iff_left hlt, and_comm]
          exact and_congr_left fun _ => ne_comm
        · intro seg' hseg'
          obtain ⟨g, hg, hgname⟩ := mem_map.mp (hlisted seg' (mem_cons_of_mem _ hseg'))
          refine mem_map.mpr ⟨g, mem_filter.mpr ⟨hg, ?_⟩, hgname⟩
          have hne : g.name ≠ seg.path := by
            rw [hgname]
            exact fun e => hnot (mem_map.mpr ⟨seg', hseg', e⟩)
          simpa using hne
      · rw [if_neg hlt, truncateSegments_eq n segs disk _ hnodup'
          (fun seg' hseg' => hlisted seg' (mem_cons_of_mem _ hseg')),
          filter_cons_of_pos (by simpa using hlt)]
        simp [hlt]

theorem SegInv.truncate_eq (n : UInt64) : truncate n s =
      ({ s with
          disk := s.disk.filter fun f =>
            ¬ ∃ seg ∈ s.wal.segments, seg.path = f.name ∧ seg.lastSeqNum < n
          wal := { s.wal with
            segments := s.wal.segments.filter fun seg => ¬ seg.lastSeqNum < n } }, none) := by
  unfold Wal.truncate
  rw [truncateSegments_eq n _ _ _ h.distinct h.listed]
  rfl

theorem SegInv.truncate (n : UInt64) : SegInv C (truncate n s).1 loaded := by
  rw [h.truncate_eq n]
  have hnames : ((s.disk.filter fun f =>
      ¬ ∃ seg ∈ s.wal.segments, seg.path = f.name ∧ seg.lastSeqNum < n).map (·.name)).Sublist
        (s.disk.map (·.name)) := filter_sublist.map _
  have hpaths : ((s.wal.segments.filter fun seg => ¬ seg.lastSeqNum < n).map (·.path)).Sublist
      (s.wal.segments.map (·.path)) := filter_sublist.map _
  -- a file stays if no segment that goes has its name
  have hstays : ∀ m ∈ s.disk.map (·.name),
      (∀ seg ∈ s.wal.segments, seg.path = m → ¬ seg.lastSeqNum < n) →
      m ∈ (s.disk.filter fun f =>
        ¬ ∃ seg ∈ s.wal.segments, seg.path = f.name ∧ seg.lastSeqNum < n).map (·.name) := by
    intro m hm hkeep
    obtain ⟨f, hf, rfl⟩ := mem_map.mp hm
    refine mem_map.mpr ⟨f, mem_filter.mpr ⟨hf, ?_⟩, rfl⟩
    rw [decide_eq_true_iff]
    rintro ⟨seg, hseg, hpath, hlt⟩
    exact hkeep seg hseg hpath hlt
  have hinj : ∀ a ∈ s.wal.segments, ∀ b ∈ s.wal.segments, a.path = b.path → a = b :=
    fun a ha b hb => inj_on_of_nodup_map h.distinct ha hb
  exact
    { names := h.names.sublist hnames
      fresh := fun m hm => h.fresh m (hnames.subset hm)
      past := h.past
      distinct := h.distinct.sublist hpaths
      listed := by
        intro seg hseg
        obtain ⟨hseg, hkeep⟩ := mem_filter.mp hseg
        refine hstays _ (h.listed seg hseg) fun seg' hseg' e => ?_
        rw [hinj seg' hseg' seg hseg e]
        simpa using hkeep
      current := by
        refine hstays _ h.current fun seg hseg e => ?_
        exact absurd (e ▸ mem_map_of_mem hseg) h.apart
      apart := fun hmem => h.apart (hpaths.subset hmem)
      begun := h.begun
      scanned := fun seg hseg hl f hf =>
        h.scanned seg (mem_of_mem_filter hseg) hl f (mem_of_mem_filter hf)
      rotated := fun seg hseg => h.rotated seg (mem_of_mem_filter hseg) }

end

theorem segInv_opened {cfg : Config} {ticks : Nat}
    (hnames : (disk.map (·.name)).Nodup) (hfresh : ∀ f ∈ disk, f.name < C.fileName ticks)
    (h : openWAL C cfg disk ticks = .value s) :
    SegInv C s (s.wal.segments.map (·.path)) := by
  obtain ⟨out, hload, h⟩ := Outcome.bind_eq_value.mp h
  cases h
  have hmem : ∀ n, n ∈ (disk.map (·.name)).mergeSort (fun a b => a ≤ b) ↔
      n ∈ disk.map (·.name) := fun n => mem_mergeSort
  have hfiles : ∀ n ∈ (disk.map (·.name)).mergeSort (fun a b => a ≤ b),
      ∃ b, readFile disk n = some b := by
    intro n hn
    obtain ⟨f, hf, rfl⟩ := mem_map.mp ((hmem n).mp hn)
    exact ⟨_, readFile_of_mem hnames hf⟩
  obtain ⟨hpath, hsegs⟩ := loadAll_listed hfiles hload
  rw [map_nil, nil_append] at hpath
  have hold : ∀ n ∈ out.1.map (·.path), n ∈ disk.map (·.name) := fun n hn => (hmem n).mp (hpath ▸ hn)
  have hbefore : ∀ n ∈ disk.map (·.name), n < C.fileName ticks := by
    intro n hn
    obtain ⟨f, hf, rfl⟩ := mem_map.mp hn
    exact hfresh f hf
  refine segInv_created rfl rfl rfl hnames hbefore (fun n hn => hbefore n (hold n hn)) ?_
    (fun seg hseg => hold _ (mem_map_of_mem hseg)) (fun seg hseg _ f hf hname r hr => ?_)
    fun seg hseg hl => absurd (mem_map_of_mem hseg) hl
  · rw [hpath]
    exact (mergeSort_perm _ _).nodup_iff.mpr hnames
  · rcases hsegs seg hseg with hseg' | ⟨b, hb, hscan⟩
    · exact absurd hseg' not_mem_nil
    · rw [← hname, readFile_of_mem hnames hf] at hb
      cases hb
      exact scan_bounds hscan hr

theorem Reachable.segInv (h : Reachable C s loaded) : SegInv C s loaded := by
  induction h with
  | opened hnames hfresh h => exact segInv_opened hnames hfresh h
  | write r _ ih =>
    rw [← writeEvent_fst]
    exact ih.logs (writeEvent_logs C _ r).1
  | writeBatch rs _ ih =>
    obtain ⟨k, -, hl, -⟩ := batchEvent_logs C _ rs
    rw [← batchEvent_fst]
    exact ih.logs hl
  | sync _ ih => exact ih.flush
  | truncate n _ ih => exact ih.truncate n

end Invariant

/-! ## What Truncate keeps -/

/-- **Truncate(n) removes no file that holds a number from n on, exactly if n is 0 or every segment
    rotated out since the last Open holds smaller numbers only.** -/
theorem truncate_keeps_iff (C : Clock N) (s : Sys N) (loaded : List N) (n : UInt64)
    (h : Reachable C s loaded) :
    (∀ f ∈ s.disk, f ∉ (truncate n s).1.disk → ∀ r, HoldsRecord f.bytes r → r.seqNum < n) ↔
      (n = 0 ∨ ∀ seg ∈ s.wal.segments, seg.path ∉ loaded → ∀ f ∈ s.disk, f.name = seg.path →
        ∀ r, HoldsRecord f.bytes r → r.seqNum < n) := by
  have hinv := h.segInv
  have hremoved : ∀ f ∈ s.disk, f ∉ (truncate n s).1.disk ↔
      ∃ seg ∈ s.wal.segments, seg.path = f.name ∧ seg.lastSeqNum < n := by
    intro f hf
    rw [hinv.truncate_eq n]
    simp [hf]
  constructor
  · intro hkeep
    by_cases hn : n = 0
    · exact .inl hn
    · refine .inr fun seg hseg hl f hf hname r hr => hkeep f hf ?_ r hr
      refine (hremoved f hf).mpr ⟨seg, hseg, hname.symm, ?_⟩
      rw [hinv.rotated seg hseg hl]
      exact UInt64.pos_iff_ne_zero.mpr hn
  · rintro (rfl | hall) f hf hgone r hr
    · obtain ⟨seg, -, -, hlt⟩ := (hremoved f hf).mp hgone
      exact absurd hlt UInt64.not_lt_zero
    · obtain ⟨seg, hseg, hname, hlt⟩ := (hremoved f hf).mp hgone
      by_cases hl : seg.path ∈ loaded
      · exact UInt64.lt_of_le_of_lt (hinv.scanned seg hseg hl f hf hname.symm r hr) hlt
      · exact hall seg hseg hl f hf hname.symm r hr

/-- A log opened in an empty directory with segments so small that every Write begins a new one. -/
def smallLog : Sys ℕ := ⟨[⟨0, []⟩], 1, ⟨0, true, ⟨0, [], 0⟩, [], 0⟩⟩

theorem smallLog_opened : openWAL tickClock ⟨0, true⟩ [] 0 = .value smallLog := by
  simp [openWAL, loadSegments, openSegment, createFile, smallLog, tickClock]

theorem smallLog_reachable : Reachable tickClock smallLog [] :=
  .opened (by simp) (by simp) smallLog_opened

/-- After two Writes. -/
def writtenLog : Sys ℕ := (write tickClock (write tickClock smallLog smallRecord).1 smallRecord).1

theorem writtenLog_reachable : Reachable tickClock writtenLog [] :=
  .write _ (.write _ smallLog_reachable)

/-- Truncate(2) after two Writes: the segment that goes holds record 1 only. -/
theorem truncate_first_segment :
    ⟨2, frame { smallRecord with seqNum := 1 }⟩ ∈ writtenLog.disk ∧
      ⟨2, frame { smallRecord with seqNum := 1 }⟩ ∉ (truncate 2 writtenLog).1.disk ∧
      ∀ f ∈ writtenLog.disk, f ∉ (truncate 2 writtenLog).1.disk → ∀ r, HoldsRecord f.bytes r → r.seqNum < 2 := by
  refine ⟨by decide +kernel, by decide +kernel,
    (truncate_keeps_iff tickClock writtenLog [] 2 writtenLog_reachable).mpr (.inr ?_)⟩
  have hscan : ∀ seg ∈ writtenLog.wal.segments, ∀ f ∈ writtenLog.disk, f.name = seg.path →
      (scanSegmentLastSeqNum f.bytes = .value 0 ∨ scanSegmentLastSeqNum f.bytes = .value 1) := by
    decide +kernel
  intro seg hseg _ f hf hname r hr
  rcases hscan seg hseg f hf hname with hlast | hlast
  · exact UInt64.lt_of_le_of_lt (scan_bounds hlast hr) (by decide)
  · exact UInt64.lt_of_le_of_lt (scan_bounds hlast hr) (by decide)

/-- **Truncate(1) removes a segment that holds record 1**: it was rotated out since Open. -/
theorem truncate_loses_record : ∃ s loaded f r, Reachable tickClock s loaded ∧ f ∈ s.disk ∧
    f ∉ (truncate 1 s).1.disk ∧ HoldsRecord f.bytes r ∧ 1 ≤ r.seqNum := by
  refine ⟨writtenLog, [], ⟨2, frame { smallRecord with seqNum := 1 }⟩, { smallRecord with seqNum := 1 },
    writtenLog_reachable, ?_, ?_, ⟨_, [], .here _, ?_⟩, by decide⟩
  · decide +kernel
  · decide +kernel
  · have hread := decodeRecord_frame (r := { smallRecord with seqNum := 1 }) (by decide) []
    rwa [append_nil] at hread

end LimyeDB.Wal
