/-
  THE LOG RECORD AND ITS FRAME (pkg/storage/wal/wal.go, `encodeRecord`, `decodeRecord`).

  Frame: [length:4][type:1][seqnum:8][timestamp:8][collection_len:2][collection][data_len:4][data][crc:4];
  `length` counts what lies between the length word and the checksum.
-/
import LimyeDB.Lib.Frames

namespace LimyeDB.Wal

open Go

/-! ## Records -/

/-- `type RecordType uint8`: a byte, of which seven values have a name. -/
abbrev RecordType := UInt8

namespace RecordType

def insert : RecordType := 1
def update : RecordType := 2
def delete : RecordType := 3
def checkpoint : RecordType := 4
def batch : RecordType := 5
def batchBegin : RecordType := 6
def batchEnd : RecordType := 7

end RecordType

/-- A log record. A Go string is a byte sequence, so the collection name is one. -/
structure Record where
  seqNum : UInt64
  type : RecordType
  collection : Bytes
  data : Bytes
  timestamp : Int64
  deriving DecidableEq, Repr

/-! ## Range checks -/

inductive RangeError where
  | uint16
  | uint32
  | recordBuffer
  deriving DecidableEq, Repr

inductive EncodeError where
  | collectionNameTooLong (e : RangeError)
  | dataTooLarge (e : RangeError)
  | recordTooLarge (e : RangeError)
  deriving DecidableEq, Repr

def maxUint16 : Nat := 65535
def maxUint32 : Nat := 4294967295
def maxInt : Nat := 9223372036854775807

/-- The value of a Go `int` if it lies in `0 .. hi`, the family of `safeIntTo…` conversions. -/
def safeIntTo (hi : Nat) (e : RangeError) (v : Int) : Except RangeError Nat :=
  if v < 0 ∨ v > hi then .error e else .ok v.toNat

def safeIntToUint32 (v : Int) : Except RangeError Nat := safeIntTo maxUint32 .uint32 v

def safeIntToUint16 (v : Int) : Except RangeError Nat := safeIntTo maxUint16 .uint16 v

/-- Negative times become 0. -/
def safeInt64ToUint64 (v : Int64) : UInt64 := if v < 0 then 0 else v.toUInt64

/-- Times past the largest `int64` become it. -/
def safeUint64ToInt64 (v : UInt64) : Int64 :=
  if v > 9223372036854775807 then 9223372036854775807 else v.toInt64

/-- Size of the record buffer: the length word, `totalLen` bytes and the checksum. -/
def safeRecordBufferSize (totalLen : Nat) : Except RangeError Nat :=
  if totalLen > maxInt - 8 then .error .recordBuffer else .ok (8 + totalLen)

theorem safeIntTo_nat {hi : Nat} {e : RangeError} (n : Nat) :
    safeIntTo hi e (n : Int) = if n ≤ hi then .ok n else .error e := by
  unfold safeIntTo
  by_cases h : n ≤ hi
  · rw [if_neg (by omega), if_pos h]
    simp
  · rw [if_pos (by omega), if_neg h]

/-! ## The frame -/

def body (r : Record) : Bytes :=
  [r.type] ++ leBytes 8 r.seqNum.toNat ++ leBytes 8 (safeInt64ToUint64 r.timestamp).toNat ++
    leBytes 2 r.collection.length ++ r.collection ++ leBytes 4 r.data.length ++ r.data

/-- The value of the length word: everything between it and the checksum. -/
def totalLen (r : Record) : Nat := 1 + 8 + 8 + 2 + r.collection.length + 4 + r.data.length

def frame (r : Record) : Bytes :=
  leBytes 4 (totalLen r) ++ body r ++ leBytes 4 (checksumIEEE (body r)).toNat

def encodeRecord (r : Record) : Except EncodeError Bytes := do
  -- Validate lengths with bounds checking
  let _ ← (safeIntToUint16 r.collection.length).mapError .collectionNameTooLong
  let _ ← (safeIntToUint32 r.data.length).mapError .dataTooLarge
  let total ← (safeIntToUint32 (totalLen r)).mapError .recordTooLarge
  -- Calculate buffer size with overflow protection
  let _ ← (safeRecordBufferSize total).mapError .recordTooLarge
  return frame r

@[simp] theorem body_length (r : Record) : (body r).length = totalLen r := by
  simp [body, totalLen]
  omega

@[simp] theorem frame_length (r : Record) : (frame r).length = totalLen r + 8 := by
  simp [frame]
  omega

/-- The records the writer accepts: a collection name of at most 65535 bytes, and a length that
    fits in 32 bits. -/
def Accepted (r : Record) : Prop := r.collection.length ≤ maxUint16 ∧ totalLen r ≤ maxUint32

instance (r : Record) : Decidable (Accepted r) := by unfold Accepted; infer_instance

/-- **The writer accepts exactly the `Accepted` records and writes their frame.** The buffer check never fails
    on a 64-bit machine. -/
theorem encodeRecord_eq (r : Record) (b : Bytes) :
    encodeRecord r = .ok b ↔ Accepted r ∧ b = frame r := by
  unfold encodeRecord Accepted safeIntToUint16 safeIntToUint32
  have hd : r.data.length ≤ totalLen r := by unfold totalLen; omega
  rw [safeIntTo_nat, safeIntTo_nat, safeIntTo_nat]
  by_cases hc : r.collection.length ≤ maxUint16
  · by_cases ht : totalLen r ≤ maxUint32
    · have hd' : r.data.length ≤ maxUint32 := by omega
      have hb : safeRecordBufferSize (totalLen r) = .ok (8 + totalLen r) := by
        unfold safeRecordBufferSize
        rw [if_neg (by unfold maxUint32 at ht; unfold maxInt; omega)]
      simp [hc, ht, hd', hb, Except.mapError, bind, Except.bind, pure, Except.pure, eq_comm]
    · by_cases hd' : r.data.length ≤ maxUint32
      · simp [hc, ht, hd', Except.mapError, bind, Except.bind]
      · simp [hc, ht, hd', Except.mapError, bind, Except.bind]
  · simp [hc, Except.mapError, bind, Except.bind]

/-! ## The reader -/

inductive DecodeError where
  | io (e : IoError)
  | crcMismatch
  deriving DecidableEq, Repr

/-- `buf` still ends with the checksum, and the slice bounds are checked against all of it. -/
def decodeFields (buf : Bytes) : Outcome DecodeError Record := do
  let type ← byteAt buf 0
  let seqNum ← leWord 8 (← slice buf 1 9)
  let timestamp ← leWord 8 (← slice buf 9 17)
  let collLen ← leWord 2 (← slice buf 17 19)
  let collection ← slice buf 19 (19 + collLen)
  let dataLen ← leWord 4 (← slice buf (19 + collLen) (19 + collLen + 4))
  let data ← slice buf (23 + collLen) (23 + collLen + dataLen)
  return { seqNum := UInt64.ofNat seqNum, type, collection, data,
           timestamp := safeUint64ToInt64 (UInt64.ofNat timestamp) }

/-- The checksum, then the fields. -/
def decodePayload (length : Nat) (buf : Bytes) : Outcome DecodeError Record := do
  let expectedCRC ← leWord 4 (← slice buf length buf.length)
  let actualCRC := (checksumIEEE (← slice buf 0 length)).toNat
  if expectedCRC ≠ actualCRC then
    .error .crcMismatch
  else
    decodeFields buf

def decodeRecord (r : Bytes) : Outcome DecodeError (Record × Bytes) := do
  -- Read length
  let (lenBuf, r) ← (readFull r 4).mapError .io
  let length ← leWord 4 lenBuf
  -- Read payload + CRC; `length + 4` is a sum of uint32
  let (buf, r) ← (readFull r ((length + 4) % 2 ^ 32)).mapError .io
  let record ← decodePayload length buf
  return (record, r)

end LimyeDB.Wal
