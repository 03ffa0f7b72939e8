/-
  THE LOG AND ITS DISK (pkg/storage/wal/wal.go): its calls as functions of the whole state.

  System calls succeed, except that opening or removing a file that is not there fails.
-/
import LimyeDB.Wal.Codec

namespace LimyeDB.Wal

open Go

/-! ## The clock and the disk -/

/-- The readings of `time.Now().UnixNano()`, as a time and as the file name made of it. -/
structure Clock (N : Type) [LinearOrder N] where
  stamp : Nat → Int64
  fileName : Nat → N
  stamp_nonneg : ∀ k, 0 ≤ stamp k
  fileName_strictMono : StrictMono fileName

/-- A segment file; `N` are the file names in the order `sort.Strings` sorts them. -/
structure File (N : Type) where
  name : N
  bytes : Bytes
  deriving DecidableEq, Repr

variable {N : Type} [LinearOrder N]

/-- `os.Open` and all that can be read then. -/
def readFile (disk : List (File N)) (name : N) : Option Bytes :=
  (disk.find? (fun f => f.name = name)).map (·.bytes)

def appendFile (disk : List (File N)) (name : N) (b : Bytes) : List (File N) :=
  disk.map fun f => if f.name = name then { f with bytes := f.bytes ++ b } else f

/-- `os.OpenFile` with `O_CREATE` and `O_APPEND`: a file that is there keeps its bytes. -/
def createFile (disk : List (File N)) (name : N) : List (File N) :=
  if disk.any (fun f => f.name = name) then disk else disk ++ [⟨name, []⟩]

/-- `os.Remove` of a file that is there. -/
def removeFile (disk : List (File N)) (name : N) : List (File N) :=
  disk.filter fun f => f.name ≠ name

/-! ## The log value -/

structure Config where
  segmentSize : Int64
  syncOnWrite : Bool
  deriving DecidableEq, Repr

/-- The segment being written: what `bufio.Writer` holds back, and the bytes written so far. -/
structure Segment (N : Type) where
  path : N
  buffered : Bytes
  size : Int64
  deriving DecidableEq, Repr

structure SegmentInfo (N : Type) where
  path : N
  lastSeqNum : UInt64
  size : Int64
  deriving DecidableEq, Repr

structure WAL (N : Type) where
  segmentSize : Int64
  syncOnWrite : Bool
  currentSegment : Segment N
  segments : List (SegmentInfo N)
  lastSeqNum : UInt64
  deriving DecidableEq, Repr

structure Sys (N : Type) where
  disk : List (File N)
  ticks : Nat
  wal : WAL N
  deriving DecidableEq, Repr

inductive WalError (N : Type) where
  | scan (path : N) (e : DecodeError)
  | decode (e : DecodeError)
  | notExist (path : N)
  deriving DecidableEq, Repr

/-! ## Open -/

/-- The errors at which the scan of a segment ends quietly. -/
def scanEnd (e : DecodeError) : Bool := e = .io .eof || e = .io .unexpectedEOF

def maxSeqNum (maxSeq : UInt64) (r : Record) : UInt64 :=
  if r.seqNum > maxSeq then r.seqNum else maxSeq

def scanSegmentLastSeqNum (b : Bytes) : Outcome DecodeError UInt64 :=
  Frames.readAll decodeRecord scanEnd (fun maxSeq r => .value (maxSeqNum maxSeq r)) 0 b

/-- One turn of `loadSegments`; a file that cannot be examined is passed over. -/
def loadSegment (disk : List (File N)) (acc : List (SegmentInfo N) × UInt64) (path : N) :
    Outcome (WalError N) (List (SegmentInfo N) × UInt64) :=
  match readFile disk path with
  | none => .value acc
  | some b => do
    let lastSeq ← (scanSegmentLastSeqNum b).mapError (.scan path)
    return (acc.1 ++ [⟨path, lastSeq, Int64.ofNat b.length⟩],
      if lastSeq > acc.2 then lastSeq else acc.2)

def loadSegments (disk : List (File N)) :
    Outcome (WalError N) (List (SegmentInfo N) × UInt64) :=
  ((disk.map (·.name)).mergeSort (fun a b => a ≤ b)).foldlM (loadSegment disk) ([], 0)

/-- `openCurrentSegment`: a new file named by the clock. -/
def openSegment (C : Clock N) (disk : List (File N)) (ticks : Nat) :
    Segment N × List (File N) :=
  (⟨C.fileName ticks, [], 0⟩, createFile disk (C.fileName ticks))

def openWAL (C : Clock N) (cfg : Config) (disk : List (File N)) (ticks : Nat) :
    Outcome (WalError N) (Sys N) := do
  -- Find existing segments
  let (segments, lastSeqNum) ← loadSegments disk
  -- Open or create current segment
  let (currentSegment, disk) := openSegment C disk ticks
  return ⟨disk, ticks + 1, ⟨cfg.segmentSize, cfg.syncOnWrite, currentSegment, segments, lastSeqNum⟩⟩

/-! ## Writing -/

def flush (s : Sys N) : Sys N :=
  let seg := s.wal.currentSegment
  { s with
    disk := appendFile s.disk seg.path seg.buffered
    wal := { s.wal with currentSegment := { seg with buffered := [] } } }

/-- `writer.Write(data)` into the current segment, and its size. -/
def writeCurrent (s : Sys N) (data : Bytes) : Sys N :=
  let seg := s.wal.currentSegment
  { s with
    disk := appendFile s.disk seg.path (bufWrite seg.buffered data).1
    wal := { s.wal with currentSegment :=
      { seg with
        buffered := (bufWrite seg.buffered data).2
        size := seg.size + Int64.ofNat data.length } } }

/-- The full segment is flushed and listed, with Go's zero for the last number in it. -/
def rotate (C : Clock N) (s : Sys N) : Sys N :=
  let s := flush s
  let seg := s.wal.currentSegment
  let next := openSegment C s.disk s.ticks
  ⟨next.2, s.ticks + 1,
    { s.wal with
      segments := s.wal.segments ++ [⟨seg.path, 0, seg.size⟩]
      currentSegment := next.1 }⟩

/-- Rotate if the data does not fit in the segment any more, then write. -/
def put (C : Clock N) (s : Sys N) (data : Bytes) : Sys N :=
  let s := if s.wal.currentSegment.size + Int64.ofNat data.length > s.wal.segmentSize
    then rotate C s else s
  writeCurrent s data

/-- The next sequence number and the next reading of the clock are taken. -/
def draw (s : Sys N) : Sys N :=
  { s with ticks := s.ticks + 1, wal := { s.wal with lastSeqNum := s.wal.lastSeqNum + 1 } }

/-- The record as the log numbers and stamps it. -/
def stamped (C : Clock N) (s : Sys N) (r : Record) : Record :=
  { r with seqNum := s.wal.lastSeqNum + 1, timestamp := C.stamp s.ticks }

/-- What Write and WriteBatch do with each record, and the record as it was written. -/
def logRecord (C : Clock N) (s : Sys N) (r : Record) : Sys N × Except EncodeError Record :=
  match encodeRecord (stamped C s r) with
  | .error e => (draw s, .error e)
  | .ok data => (put C (draw s) data, .ok (stamped C s r))

def write (C : Clock N) (s : Sys N) (r : Record) : Sys N × Except EncodeError Record :=
  match logRecord C s r with
  | (s, .error e) => (s, .error e)
  | (s, .ok r) => (if s.wal.syncOnWrite then flush s else s, .ok r)

/-- The batch size, cut down to 32 bits. -/
def encodeBatchSize (n : Nat) : Bytes := leBytes 4 n

def decodeBatchSize (data : Bytes) : Nat := if data.length < 4 then 0 else leNat (data.take 4)

def marker (type : RecordType) (n : Nat) : Record := ⟨0, type, [], encodeBatchSize n, 0⟩

/-- The loop of WriteBatch over its records: the records written, and the error it stopped at. -/
def writeRecords (C : Clock N) : Sys N → List Record → Sys N × List Record × Option EncodeError
  | s, [] => (s, [], none)
  | s, r :: rs =>
    match logRecord C s r with
    | (s, .error e) => (s, [], some e)
    | (s, .ok r) =>
      let rest := writeRecords C s rs
      (rest.1, r :: rest.2.1, rest.2.2)

/-- How a call of WriteBatch ended: the markers and records that went into the log. -/
inductive BatchResult where
  | written (beginRec : Record) (records : List Record) (endRec : Record)
  | stopped (log : List Record) (e : EncodeError)
  deriving DecidableEq, Repr

def writeBatch (C : Clock N) (s : Sys N) (records : List Record) : Sys N × BatchResult :=
  -- Write BatchBegin marker
  match logRecord C s (marker RecordType.batchBegin records.length) with
  | (s, .error e) => (s, .stopped [] e)
  | (s, .ok beginRec) =>
    -- Write all records
    match writeRecords C s records with
    | (s, rs, some e) => (s, .stopped (beginRec :: rs) e)
    | (s, rs, none) =>
      -- Write BatchEnd marker, and sync after the batch
      match logRecord C s (marker RecordType.batchEnd records.length) with
      | (s, .error e) => (s, .stopped (beginRec :: rs) e)
      | (s, .ok endRec) => (flush s, .written beginRec rs endRec)

/-- Close flushes; what is opened next is what is on the disk then. -/
def reopen (C : Clock N) (cfg : Config) (s : Sys N) : Outcome (WalError N) (Sys N) :=
  openWAL C cfg (flush s).disk s.ticks

/-! ## Replay -/

/-- The error at which the replay of a segment ends quietly. -/
def replayEnd (e : DecodeError) : Bool := e = .io .eof

/-- `replaySegment` with the function that collects the records. -/
def replaySegment (disk : List (File N)) (all : List Record) (path : N) :
    Outcome (WalError N) (List Record) :=
  match readFile disk path with
  | none => .error (.notExist path)
  | some b =>
    (Frames.readAll decodeRecord replayEnd (fun all r => .value (all ++ [r])) all b).mapError
      .decode

section Apply

variable {σ ε : Type}

/-- The caller's function on record after record, up to its first error. -/
def callAll (fn : σ → Record → σ × Option ε) : σ → List Record → σ × Option ε
  | acc, [] => (acc, none)
  | acc, r :: rs =>
    match fn acc r with
    | (acc, some e) => (acc, some e)
    | (acc, none) => callAll fn acc rs

structure BatchState where
  batchBuf : List Record
  inBatch : Bool
  expectedBatchSize : Nat
  deriving DecidableEq, Repr

def BatchState.start : BatchState := ⟨[], false, 0⟩

/-- The loop of Replay over all the records it collected. -/
def applyRecords (fn : σ → Record → σ × Option ε) : BatchState → σ → List Record → σ × Option ε
  | _, acc, [] => (acc, none)
  | st, acc, r :: rs =>
    if r.type = RecordType.batchBegin then
      applyRecords fn ⟨[], true, decodeBatchSize r.data⟩ acc rs
    else if r.type = RecordType.batchEnd then
      if st.inBatch ∧ st.batchBuf.length = st.expectedBatchSize then
        -- Complete batch, apply all records
        match callAll fn acc st.batchBuf with
        | (acc, some e) => (acc, some e)
        | (acc, none) => applyRecords fn ⟨[], false, st.expectedBatchSize⟩ acc rs
      else
        -- Incomplete batch is silently skipped
        applyRecords fn ⟨[], false, st.expectedBatchSize⟩ acc rs
    else if st.inBatch then
      applyRecords fn { st with batchBuf := st.batchBuf ++ [r] } acc rs
    else
      -- Non-batch record, apply immediately
      match fn acc r with
      | (acc, some e) => (acc, some e)
      | (acc, none) => applyRecords fn st acc rs

/-- The records of every segment, the current one flushed first. -/
def collect (s : Sys N) : Outcome (WalError N) (List Record) := do
  let old ← (s.wal.segments.map (·.path)).foldlM (replaySegment s.disk) []
  replaySegment (flush s).disk old s.wal.currentSegment.path

/-- What the calls of `fn` made of `acc`, and the error of the last one if it had one. -/
def replay (fn : σ → Record → σ × Option ε) (acc : σ) (s : Sys N) :
    Outcome (WalError N) (σ × Option ε) := do
  let allRecords ← collect s
  return applyRecords fn BatchState.start acc allRecords

end Apply

/-! ## Truncate -/

/-- The loop of Truncate: the disk, and the segments that stay or the file it could not remove. -/
def truncateSegments (beforeSeqNum : UInt64) :
    List (SegmentInfo N) → List (File N) → List (SegmentInfo N) →
      List (File N) × Except (WalError N) (List (SegmentInfo N))
  | [], disk, remaining => (disk, .ok remaining)
  | seg :: segs, disk, remaining =>
    if seg.lastSeqNum < beforeSeqNum then
      match readFile disk seg.path with
      | none => (disk, .error (.notExist seg.path))
      | some _ => truncateSegments beforeSeqNum segs (removeFile disk seg.path) remaining
    else
      truncateSegments beforeSeqNum segs disk (remaining ++ [seg])

def truncate (beforeSeqNum : UInt64) (s : Sys N) : Sys N × Option (WalError N) :=
  match truncateSegments beforeSeqNum s.wal.segments s.disk [] with
  | (disk, .ok remaining) => ({ s with disk, wal := { s.wal with segments := remaining } }, none)
  | (disk, .error e) => ({ s with disk }, some e)

end LimyeDB.Wal
