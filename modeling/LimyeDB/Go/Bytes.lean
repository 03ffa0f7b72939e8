/-
  BYTE SLICES AS GO INDEXES THEM: slicing with its bounds check, little-endian words, `io.ReadFull` on a byte
  stream, and a buffered writer.
-/
import LimyeDB.Go.Outcome

namespace Go

abbrev Bytes := List UInt8

variable {ε : Type}

/-! ## Slices -/

def byteAt (b : Bytes) (i : Nat) : Outcome ε UInt8 :=
  match b[i]? with
  | some x => .value x
  | none => .panic

def slice (b : Bytes) (lo hi : Nat) : Outcome ε Bytes :=
  if lo ≤ hi ∧ hi ≤ b.length then .value ((b.drop lo).take (hi - lo)) else .panic

theorem slice_of_le {b : Bytes} {lo hi : Nat} (h1 : lo ≤ hi) (h2 : hi ≤ b.length) :
    (slice b lo hi : Outcome ε Bytes) = .value ((b.drop lo).take (hi - lo)) :=
  if_pos ⟨h1, h2⟩

theorem slice_add (b : Bytes) (lo n : Nat) : (slice b lo (lo + n) : Outcome ε Bytes) =
      if lo + n ≤ b.length then .value ((b.drop lo).take n) else .panic := by
  by_cases h : lo + n ≤ b.length
  · rw [slice_of_le (by omega) h, if_pos h, Nat.add_sub_cancel_left]
  · rw [slice, if_neg (by omega), if_neg h]

/-! ## Searching -/

/-- `strings.Index`: the first place at which `sub` stands. -/
def index (sub : Bytes) : Bytes → Option Nat
  | [] => if sub = [] then some 0 else none
  | b :: s => if sub <+: b :: s then some 0 else (index sub s).map (· + 1)

def contains (s sub : Bytes) : Bool := (index sub s).isSome

/-! ## Little-endian words -/

/-- The `w` low bytes of `n`, least significant first. -/
def leBytes : Nat → Nat → Bytes
  | 0, _ => []
  | w + 1, n => UInt8.ofNat n :: leBytes w (n / 256)

def leNat : Bytes → Nat
  | [] => 0
  | b :: bs => b.toNat + 256 * leNat bs

@[simp] theorem leBytes_length (w n : Nat) : (leBytes w n).length = w := by
  induction w generalizing n with
  | zero => rfl
  | succ w ih => simp [leBytes, ih]

theorem leNat_leBytes_mod (w n : Nat) : leNat (leBytes w n) = n % 256 ^ w := by
  induction w generalizing n with
  | zero => simp [leBytes, leNat, Nat.mod_one]
  | succ w ih =>
    have hb : (UInt8.ofNat n).toNat = n % 256 := by simp
    rw [leBytes, leNat, ih, hb, pow_succ', Nat.mod_mul]

theorem leNat_leBytes {w n : Nat} (h : n < 256 ^ w) : leNat (leBytes w n) = n := by
  rw [leNat_leBytes_mod, Nat.mod_eq_of_lt h]

theorem leNat_lt (b : Bytes) : leNat b < 256 ^ b.length := by
  induction b with
  | nil => simp [leNat]
  | cons x b ih =>
    have hx : x.toNat < 256 := x.toNat_lt
    simp only [leNat, List.length_cons, pow_succ]
    omega

/-- `binary.LittleEndian.UintN(b)`: the first `w` bytes of `b`, which must be there. -/
def leWord (w : Nat) (b : Bytes) : Outcome ε Nat :=
  if w ≤ b.length then .value (leNat (b.take w)) else .panic

theorem leWord_of_length {w : Nat} {b : Bytes} (h : b.length = w) :
    (leWord w b : Outcome ε Nat) = .value (leNat b) := by
  rw [leWord, if_pos (by omega), List.take_of_length_le (by omega)]

theorem slice_leWord {α : Type} (b : Bytes) (lo w : Nat) (f : Nat → Outcome ε α) :
    (slice b lo (lo + w) >>= fun x => leWord w x >>= f) =
      if lo + w ≤ b.length then f (leNat ((b.drop lo).take w)) else .panic := by
  by_cases h : lo + w ≤ b.length
  · have hlen : ((b.drop lo).take w).length = w := by
      rw [List.length_take, List.length_drop]
      omega
    rw [slice_add, if_pos h, Outcome.value_bind, leWord_of_length hlen, Outcome.value_bind,
      if_pos h]
  · rw [slice_add, if_neg h, Outcome.panic_bind, if_neg h]

/-! ## Reading a stream -/

inductive IoError where
  | eof
  | unexpectedEOF
  deriving DecidableEq, Repr

/-- `io.ReadFull(r, make([]byte, n))`: the bytes read and the rest of the stream. -/
def readFull (r : Bytes) (n : Nat) : Outcome IoError (Bytes × Bytes) :=
  if n ≤ r.length then .value (r.take n, r.drop n)
  else if r = [] then .error .eof
  else .error .unexpectedEOF

theorem readFull_of_le {r : Bytes} {n : Nat} (h : n ≤ r.length) :
    readFull r n = .value (r.take n, r.drop n) := if_pos h

theorem readFull_append {a b : Bytes} {n : Nat} (h : a.length = n) :
    readFull (a ++ b) n = .value (a, b) := by
  subst h
  rw [readFull_of_le (by simp)]
  simp

theorem readFull_nil {n : Nat} (h : 0 < n) : readFull [] n = .error .eof := by
  rw [readFull, if_neg (by simp; omega), if_pos rfl]

theorem readFull_short {r : Bytes} {n : Nat} (h : r.length < n) (hr : r ≠ []) :
    readFull r n = .error .unexpectedEOF := by
  rw [readFull, if_neg (by omega), if_neg hr]

/-! ## The buffered writer -/

def bufSize : Nat := 4096

/-- `Writer.Write(p)` with `buffered` waiting: what goes to the file and what waits. -/
def bufWrite (buffered p : Bytes) : Bytes × Bytes :=
  let room := bufSize - buffered.length
  if p.length ≤ room then ([], buffered ++ p)
  else if buffered = [] then (p, [])
  else if (p.drop room).length ≤ bufSize then (buffered ++ p.take room, p.drop room)
  else (buffered ++ p, [])

theorem bufWrite_append (buffered p : Bytes) :
    (bufWrite buffered p).1 ++ (bufWrite buffered p).2 = buffered ++ p := by
  unfold bufWrite
  simp only
  split
  · simp
  · split
    · rename_i hb
      simp [hb]
    · split <;> simp

/-! ## The IEEE checksum -/

def crcBit (crc : UInt32) : UInt32 :=
  if crc &&& 1 = 1 then (crc >>> 1) ^^^ 0xEDB88320 else crc >>> 1

def crcByte (crc : UInt32) (b : UInt8) : UInt32 :=
  crcBit (crcBit (crcBit (crcBit (crcBit (crcBit (crcBit (crcBit (crc ^^^ b.toUInt32))))))))

def checksumIEEE (b : Bytes) : UInt32 := (b.foldl crcByte 0xFFFFFFFF) ^^^ 0xFFFFFFFF

-- the checksum of no bytes is zero, and "123456789" is the standard check value
example : checksumIEEE [] = 0 := by decide
example : checksumIEEE [49, 50, 51, 52, 53, 54, 55, 56, 57] = 0xCBF43926 := by decide +kernel

end Go
