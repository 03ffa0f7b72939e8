/-
  A WHOLE SNAPSHOT, written and read: the header and every collection (pkg/storage/snapshot/snapshot.go).
-/
import LimyeDB.Go.Traced
import LimyeDB.Snapshot.Format

namespace LimyeDB.Snapshot

open Go List
open Outcome (bind_eq_value bind_ne_panic pure_eq value_bind)

variable {F P Cfg : Type}

/-! ## All collections -/

def writeAll (J : Coding F P Cfg) : List (Bytes × CollectionData F P Cfg) → Except WriteError Bytes
  | [] => .ok []
  | (name, data) :: cs => do
    let b ← writeCollection J name data
    let bs ← writeAll J cs
    return b ++ bs

/-- `WriteHeader` with the number of collections, then `WriteCollection` for each. -/
def writeSnapshot (J : Coding F P Cfg) (version timestamp : ℕ)
    (cs : List (Bytes × CollectionData F P Cfg)) : Except WriteError Bytes := do
  let b ← writeHeader version timestamp cs.length
  let bs ← writeAll J cs
  return b ++ bs

def readAll (J : Coding F P Cfg) :
    ℕ → Bytes → Outcome ReadError (List (Bytes × CollectionData F P Cfg) × Bytes)
  | 0, r => .value ([], r)
  | n + 1, r => do
    let (c, r) ← readCollection J r
    let (cs, r) ← readAll J n r
    return (c :: cs, r)

/-- `OpenSnapshotFile`, then `ReadCollection` as often as the header says, and what is left of the stream. -/
def readSnapshot (J : Coding F P Cfg) (r : Bytes) :
    Outcome ReadError ((ℕ × ℕ × List (Bytes × CollectionData F P Cfg)) × Bytes) := do
  let ((version, timestamp, count), r) ← readHeader r
  let (cs, r) ← readAll J count r
  return ((version, timestamp, cs), r)

/-! ## What was written reads back -/

/-- The lengths of a point pass the checks of the writer. -/
def PointData.Fits (J : Coding F P Cfg) (p : PointData F P) : Prop :=
  p.id.length < 256 ^ 2 ∧ p.vector.length < 256 ^ 4 ∧
    ∃ b, J.marshalPayload p.payload = some b ∧ b.length < 256 ^ 4

/-- The lengths pass the checks of the writer, and no slice is longer than `maxAlloc` bytes. -/
def CollectionData.Fits (J : Coding F P Cfg) (name : Bytes) (data : CollectionData F P Cfg) : Prop :=
  name.length < 256 ^ 2 ∧ (∃ b, J.marshalConfig data.config = some b ∧ b.length < 256 ^ 4) ∧
    pointDataSize * data.points.length ≤ maxAlloc ∧ ∀ p ∈ data.points, p.Fits J

variable {w size : ℕ} {J : Coding F P Cfg} {r : Bytes}

theorem putLength_of_lt {n : ℕ} {e : WriteError} (h : n < 256 ^ w) :
    putLength w e n = .ok (leBytes w n) := if_pos h

theorem writePoint_fits {p : PointData F P} (h : p.Fits J) : ∃ b, writePoint J p = .ok b := by
  obtain ⟨hid, hvec, text, hm, htext⟩ := h
  unfold writePoint
  rw [putLength_of_lt hid, putLength_of_lt hvec, hm]
  simp only [marshalled, bind, Except.bind, putLength_of_lt htext]
  exact ⟨_, rfl⟩

theorem writePoints_fits {ps : List (PointData F P)} (h : ∀ p ∈ ps, p.Fits J) :
    ∃ b, writePoints J ps = .ok b := by
  induction ps with
  | nil => exact ⟨_, rfl⟩
  | cons p ps ih =>
    obtain ⟨b, hb⟩ := writePoint_fits (h p mem_cons_self)
    obtain ⟨bs, hbs⟩ := ih fun q hq => h q (mem_cons_of_mem p hq)
    rw [writePoints, hb, hbs]
    exact ⟨_, rfl⟩

theorem writeCollection_fits {name : Bytes} {data : CollectionData F P Cfg} (h : data.Fits J name) :
    ∃ b, writeCollection J name data = .ok b := by
  obtain ⟨hname, ⟨text, hm, htext⟩, _, hps⟩ := h
  obtain ⟨bs, hbs⟩ := writePoints_fits hps
  unfold writeCollection
  rw [putLength_of_lt hname, hm]
  simp only [marshalled, bind, Except.bind, putLength_of_lt htext, hbs]
  exact ⟨_, rfl⟩

theorem writeAll_fits {cs : List (Bytes × CollectionData F P Cfg)} (h : ∀ c ∈ cs, c.2.Fits J c.1) :
    ∃ b, writeAll J cs = .ok b := by
  induction cs with
  | nil => exact ⟨_, rfl⟩
  | cons c cs ih =>
    obtain ⟨b, hb⟩ := writeCollection_fits (h c mem_cons_self)
    obtain ⟨bs, hbs⟩ := ih fun d hd => h d (mem_cons_of_mem c hd)
    rw [writeAll, hb, hbs]
    exact ⟨_, rfl⟩

theorem readAll_write (hJ : J.Lossless) {cs : List (Bytes × CollectionData F P Cfg)}
    (h : ∀ c ∈ cs, pointDataSize * c.2.points.length ≤ maxAlloc) {b : Bytes}
    (hb : writeAll J cs = .ok b) (rest : Bytes) :
    readAll J cs.length (b ++ rest) = .value (cs, rest) := by
  induction cs generalizing b with
  | nil =>
    cases hb
    rfl
  | cons c cs ih =>
    obtain ⟨b₁, hc, hb⟩ := except_bind_ok hb
    obtain ⟨b₂, hcs, hret⟩ := except_bind_ok hb
    cases hret
    have hslice := h c mem_cons_self
    have htail := ih (fun d hd => h d (mem_cons_of_mem c hd)) hcs
    simp only [length_cons, readAll, append_assoc, readCollection_write hJ hslice hc,
      value_bind, htail, pure_eq]

/-- **A snapshot reads back as it was written.** Every list of collections that passes the checks of the lengths
    is written without an error, and the reader gives it back and has read no more than that. -/
theorem readSnapshot_write {J : Coding F P Cfg} (hJ : J.Lossless) {version timestamp : ℕ}
    (hversion : version < 256 ^ 8) (htimestamp : timestamp < 256 ^ 8)
    {cs : List (Bytes × CollectionData F P Cfg)} (hcount : cs.length < 256 ^ 4)
    (hfits : ∀ c ∈ cs, c.2.Fits J c.1) :
    ∃ b, writeSnapshot J version timestamp cs = .ok b ∧
      ∀ rest, readSnapshot J (b ++ rest) = .value ((version, timestamp, cs), rest) := by
  obtain ⟨bs, hbs⟩ := writeAll_fits hfits
  obtain ⟨b, hb⟩ : ∃ b, writeHeader version timestamp cs.length = .ok b := by
    unfold writeHeader
    rw [putLength_of_lt hcount]
    exact ⟨_, rfl⟩
  refine ⟨b ++ bs, ?_, ?_⟩
  · rw [writeSnapshot, hb, hbs]
    rfl
  · intro rest
    simp only [readSnapshot, append_assoc, readHeader_write hversion htimestamp hb,
      value_bind, readAll_write hJ (fun c hc => (hfits c hc).2.2.1) hbs, pure_eq]

/-- Words as floats, and texts that stand for themselves: 0 for a nil payload, 1 before another. -/
def plainCoding : Coding UInt32 Bytes Bytes where
  putFloat x := leBytes 4 x.toNat
  getFloat b := UInt32.ofNat (leNat b)
  marshalPayload
    | none => some [0]
    | some b => some (1 :: b)
  unmarshalPayload
    | [] => none
    | x :: b => some (if x = 0 then none else some b)
  marshalConfig := some
  unmarshalConfig := some

theorem plainCoding_lossless : plainCoding.Lossless where
  floatLength x := leBytes_length 4 x.toNat
  float x := by
    have hlt : x.toNat < 256 ^ 4 := x.toNat_lt
    show UInt32.ofNat (leNat (leBytes 4 x.toNat)) = x
    rw [leNat_leBytes hlt, UInt32.ofNat_toNat]
  payload p b h := by
    cases p with
    | none =>
      cases h
      exact ⟨cons_ne_nil _ _, rfl⟩
    | some text =>
      cases h
      exact ⟨cons_ne_nil _ _, rfl⟩
  config c b h := by
    cases h
    rfl

/-- A collection of two points, one of them without a payload, and an empty one. -/
def plainCollections : List (Bytes × CollectionData UInt32 Bytes Bytes) :=
  [([97], ⟨[123, 125], [⟨[49], [1, 2], some [120]⟩, ⟨[50], [], none⟩]⟩), ([98], ⟨[], []⟩)]

theorem readSnapshot_write_plain : plainCollections.length = 2 ∧
    ∃ b, writeSnapshot plainCoding 7 1000 plainCollections = .ok b ∧
      ∀ rest, readSnapshot plainCoding (b ++ rest) = .value ((7, 1000, plainCollections), rest) := by
  refine ⟨rfl, readSnapshot_write plainCoding_lossless (by decide) (by decide) (by decide) ?_⟩
  intro c hc
  simp only [plainCollections, mem_cons, not_mem_nil, or_false] at hc
  rcases hc with rfl | rfl
  · refine ⟨by decide, ⟨_, rfl, by decide⟩, by decide, ?_⟩
    intro p hp
    simp only [mem_cons, not_mem_nil, or_false] at hp
    rcases hp with rfl | rfl
    · exact ⟨by decide, by decide, _, rfl, by decide⟩
    · exact ⟨by decide, by decide, _, rfl, by decide⟩
  · exact ⟨by decide, ⟨_, rfl, by decide⟩, by decide, fun p hp => nomatch hp⟩

/-! ## The slices that are made -/

/-- A slice: how many elements it has, and how many bytes of the stream were left when it was made. -/
structure Slice where
  length : ℕ
  left : ℕ
  deriving DecidableEq, Repr

abbrev Noted := Traced Slice ReadError

/-- `make([]PointData, n)`. -/
def makePoints (n : ℕ) (r : Bytes) : Noted Unit :=
  if maxAlloc < pointDataSize * n then .lift .panic else .note ⟨n, r.length⟩

namespace Noted

/-- A length of `w` bytes, a slice of that many bytes, and `io.ReadFull` into it. -/
def readPart (w : ℕ) (r : Bytes) : Noted (Bytes × Bytes) := do
  let (n, r) ← .lift (readWord r w)
  .note ⟨n, r.length⟩
  .lift (readBytes r n)

variable (J : Coding F P Cfg)

def readVector (r : Bytes) : Noted (List F × Bytes) := do
  let (vecLen, r) ← .lift (readWord r 4)
  .note ⟨vecLen, r.length⟩
  .lift (readFloats J vecLen r)

def readPayload (r : Bytes) : Noted (Option P × Bytes) := do
  let (n, r) ← .lift (readWord r 4)
  if n = 0 then return (none, r)
  else do
    .note ⟨n, r.length⟩
    let (b, r) ← .lift (readBytes r n)
    match J.unmarshalPayload b with
    | none => .lift (.error .payload)
    | some payload => return (payload, r)

def readPoint (r : Bytes) : Noted (PointData F P × Bytes) := do
  let (id, r) ← readPart 2 r
  let (vector, r) ← readVector J r
  let (payload, r) ← readPayload J r
  return (⟨id, vector, payload⟩, r)

def readPoints : ℕ → Bytes → Noted (List (PointData F P) × Bytes)
  | 0, r => return ([], r)
  | n + 1, r => do
    let (p, r) ← readPoint J r
    let (ps, r) ← readPoints n r
    return (p :: ps, r)

def readConfig (r : Bytes) : Noted (Cfg × Bytes) := do
  let (b, r) ← readPart 4 r
  match J.unmarshalConfig b with
  | none => .lift (.error .config)
  | some config => return (config, r)

def readCollection (r : Bytes) : Noted ((Bytes × CollectionData F P Cfg) × Bytes) := do
  let (name, r) ← readPart 2 r
  let (config, r) ← readConfig J r
  let (numPoints, r) ← .lift (readWord r 8)
  makePoints numPoints r
  let (points, r) ← readPoints J numPoints r
  return ((name, ⟨config, points⟩), r)

def readAll : ℕ → Bytes → Noted (List (Bytes × CollectionData F P Cfg) × Bytes)
  | 0, r => return ([], r)
  | n + 1, r => do
    let (c, r) ← readCollection J r
    let (cs, r) ← readAll n r
    return (c :: cs, r)

def readSnapshot (r : Bytes) :
    Noted ((ℕ × ℕ × List (Bytes × CollectionData F P Cfg)) × Bytes) := do
  let ((version, timestamp, count), r) ← .lift (readHeader r)
  let (cs, r) ← readAll J count r
  return ((version, timestamp, cs), r)

/-! Without the notes this is the reader of the format. -/

variable {J}

theorem readPart_result (w : ℕ) (r : Bytes) :
    (readPart w r).result = readWord r w >>= fun x => readBytes x.2 x.1 := by
  simp only [readPart, Traced.result_bind, Traced.result_lift, Traced.result_note,
    value_bind]

theorem readPayload_result (r : Bytes) :
    (readPayload J r).result = Snapshot.readPayload J r := by
  simp only [readPayload, Snapshot.readPayload, Traced.result_bind, Traced.result_lift]
  congr 1
  funext x
  split_ifs
  · rfl
  · simp only [Traced.result_bind, Traced.result_lift, Traced.result_note, value_bind]
    congr 1
    funext y
    cases J.unmarshalPayload y.1 with
    | none => rfl
    | some payload => rfl

theorem readPoint_result (r : Bytes) : (readPoint J r).result = Snapshot.readPoint J r := by
  simp only [readPoint, readVector, Snapshot.readPoint, Traced.result_bind, readPart_result,
    readPayload_result, Traced.result_lift, Traced.result_note, Traced.result_pure, bind_assoc,
    value_bind, pure_eq]

theorem readPoints_result (n : ℕ) (r : Bytes) :
    (readPoints J n r).result = Snapshot.readPoints J n r := by
  induction n generalizing r with
  | zero => rfl
  | succ n ih =>
    simp only [readPoints, Snapshot.readPoints, Traced.result_bind, readPoint_result, ih,
      Traced.result_pure, pure_eq]

theorem makePoints_result (n : ℕ) (r : Bytes) : (makePoints n r).result =
    if maxAlloc < pointDataSize * n then .panic else .value () := by
  unfold makePoints
  split_ifs <;> rfl

theorem readCollection_result (r : Bytes) :
    (readCollection J r).result = Snapshot.readCollection J r := by
  simp only [readCollection, readConfig, Snapshot.readCollection, Traced.result_bind,
    readPart_result, bind_assoc]
  congr 1
  funext x
  congr 1
  funext y
  congr 1
  funext z
  congr 1
  funext t
  cases J.unmarshalConfig t.1 with
  | none => rfl
  | some config =>
    simp only [Traced.result_pure, value_bind, Traced.result_lift]
    congr 1
    funext u
    rw [makePoints_result]
    split_ifs
    · rfl
    · simp only [value_bind, readPoints_result, pure_eq]

theorem readAll_result (n : ℕ) (r : Bytes) :
    (readAll J n r).result = Snapshot.readAll J n r := by
  induction n generalizing r with
  | zero => rfl
  | succ n ih =>
    simp only [readAll, Snapshot.readAll, Traced.result_bind, readCollection_result, ih,
      Traced.result_pure, pure_eq]

theorem readSnapshot_result (r : Bytes) :
    (readSnapshot J r).result = Snapshot.readSnapshot J r := by
  simp only [readSnapshot, Snapshot.readSnapshot, Traced.result_bind, readAll_result,
    Traced.result_pure, Traced.result_lift, pure_eq]

end Noted

/-! ## The lengths of a stream -/

/-- The slice has at most `k` elements for each byte that was left. -/
def Within (k : ℕ) (s : Slice) : Prop := s.length ≤ k * s.left

/-- If a length of `w` bytes is there, it is at most `k` for each byte behind it. -/
def Announces (k w : ℕ) (r : Bytes) : Prop :=
  w ≤ r.length → leNat (r.take w) ≤ k * (r.length - w)

/-- The part behind a length of `w` bytes is there, with `size` bytes for each element. -/
def Whole (w size : ℕ) (r : Bytes) : Prop := w + size * leNat (r.take w) ≤ r.length

def behind (w size : ℕ) (r : Bytes) : Bytes := r.drop (w + size * leNat (r.take w))

/-- The part itself, if it is made of bytes. -/
def part (w : ℕ) (r : Bytes) : Bytes := (r.drop w).take (leNat (r.take w))

section Honest

variable (J : Coding F P Cfg) (k : ℕ)

def payloadAt (r : Bytes) : Bytes := behind 4 4 (behind 2 1 r)

def HonestPoint (r : Bytes) : Prop :=
  Announces k 2 r ∧ Announces k 4 (behind 2 1 r) ∧ Announces k 4 (payloadAt r)

def PayloadReads (r : Bytes) : Prop :=
  leNat (r.take 4) = 0 ∨ (J.unmarshalPayload (part 4 r)).isSome

def PointEnds (r : Bytes) : Prop := Whole 4 1 (payloadAt r) ∧ PayloadReads J (payloadAt r)

/-- Each point up to the first that is not there. -/
def HonestPoints : ℕ → Bytes → Prop
  | 0, _ => True
  | n + 1, r => HonestPoint k r ∧ (PointEnds J r → HonestPoints n (behind 4 1 (payloadAt r)))

/-- What is behind `n` points, if they are there. -/
def pointsEnd : ℕ → Bytes → Bytes
  | 0, r => r
  | n + 1, r => pointsEnd n (behind 4 1 (payloadAt r))

def PointsEnd : ℕ → Bytes → Prop
  | 0, _ => True
  | n + 1, r => PointEnds J r ∧ PointsEnd n (behind 4 1 (payloadAt r))

def ConfigReads (r : Bytes) : Prop := (J.unmarshalConfig (part 4 r)).isSome

def countAt (r : Bytes) : Bytes := behind 4 1 (behind 2 1 r)

/-- The lengths of the name and the configuration and, if that is read, the number of points and the points.
    -/
def HonestCollection (r : Bytes) : Prop :=
  Announces k 2 r ∧ Announces k 4 (behind 2 1 r) ∧
    (ConfigReads J (behind 2 1 r) → 8 ≤ (countAt r).length →
      pointDataSize * leNat ((countAt r).take 8) ≤ maxAlloc ∧ Announces k 8 (countAt r) ∧
        HonestPoints J k (leNat ((countAt r).take 8)) ((countAt r).drop 8))

def CollectionEnds (r : Bytes) : Prop :=
  ConfigReads J (behind 2 1 r) ∧ 8 ≤ (countAt r).length ∧
    pointDataSize * leNat ((countAt r).take 8) ≤ maxAlloc ∧
      PointsEnd J (leNat ((countAt r).take 8)) ((countAt r).drop 8)

def HonestAll : ℕ → Bytes → Prop
  | 0, _ => True
  | n + 1, r => HonestCollection J k r ∧ (CollectionEnds J r →
      HonestAll n (pointsEnd (leNat ((countAt r).take 8)) ((countAt r).drop 8)))

/-- **The lengths of a stream**: as many collections as the header says, behind its 24 bytes. -/
def Honest (b : Bytes) : Prop := HonestAll J k (leNat ((b.drop 20).take 4)) (b.drop 24)

end Honest

/-! ## Nothing panics and no slice is too long -/

theorem readBytes_eq_value {n : ℕ} {x : Bytes × Bytes} :
    readBytes r n = .value x ↔ n ≤ r.length ∧ x = (r.take n, r.drop n) := by
  unfold readBytes readFull
  split_ifs with hle hnil
  · simp [hle, eq_comm]
  · simp [hle]
  · simp [hle]

theorem readBytes_ne_panic (r : Bytes) (n : ℕ) : readBytes r n ≠ .panic := by
  unfold readBytes readFull
  split_ifs <;> simp

theorem readWord_eq_value {x : ℕ × Bytes} :
    readWord r w = .value x ↔ w ≤ r.length ∧ x = (leNat (r.take w), r.drop w) := by
  unfold readWord
  rw [bind_eq_value]
  constructor
  · rintro ⟨y, hy, hret⟩
    obtain ⟨hle, rfl⟩ := readBytes_eq_value.mp hy
    cases hret
    exact ⟨hle, rfl⟩
  · rintro ⟨hle, rfl⟩
    exact ⟨_, readBytes_eq_value.mpr ⟨hle, rfl⟩, rfl⟩

theorem readWord_ne_panic (r : Bytes) (w : ℕ) : readWord r w ≠ .panic :=
  bind_ne_panic.mpr ⟨readBytes_ne_panic r w, fun _ _ => by simp⟩

theorem whole_nil (hw : 0 < w) : ¬ Whole w size [] := by
  intro h
  have hle : w + size * leNat (take w []) ≤ 0 := h
  omega

theorem announces_nil {k : ℕ} (hw : 0 < w) : Announces k w [] := by
  intro h
  have hle : w ≤ 0 := h
  omega

theorem behind_of_not_whole (h : ¬ Whole w size r) : behind w size r = [] :=
  drop_eq_nil_of_le (Nat.le_of_not_le h)

theorem behind_nil (w size : ℕ) : behind w size [] = [] := drop_nil

theorem whole_ne_nil (hw : 0 < w) (h : Whole w size r) : r ≠ [] := by
  rintro rfl
  exact whole_nil hw h

section Reads

variable {α β : Type} {k : ℕ}

/-- **What there is to say of a reader**: when it is safe, when it reads to the end of its part, and where
    that is. -/
structure Reads (k : ℕ) (x : Noted (α × Bytes)) (safe ends : Prop) (rest : Bytes) : Prop where
  safe : x.Safe (Within k) ↔ safe
  ends : ∀ t, (∃ a, x.result = .value (a, t)) ↔ ends ∧ t = rest

variable {x : Noted (α × Bytes)} {S E : Prop} {r : Bytes}

theorem Reads.bind {f : α × Bytes → Noted (β × Bytes)} {T G : Prop} {t : Bytes}
    (hx : Reads k x S E r) (hf : ∀ a, x.result = .value (a, r) → Reads k (f (a, r)) T G t) :
    Reads k (x >>= f) (S ∧ (E → T)) (E ∧ G) t where
  safe := by
    rw [Traced.safe_bind, hx.safe]
    refine and_congr_right fun _ => ⟨?_, ?_⟩
    · intro h hE
      obtain ⟨a, ha⟩ := (hx.ends r).mpr ⟨hE, rfl⟩
      exact (hf a ha).safe.mp (h _ ha)
    · rintro h ⟨a, r'⟩ ha
      obtain ⟨hE, rfl⟩ := (hx.ends r').mp ⟨a, ha⟩
      exact (hf a ha).safe.mpr (h hE)
  ends t' := by
    simp only [Traced.result_bind, bind_eq_value]
    constructor
    · rintro ⟨b, ⟨a, r'⟩, ha, hb⟩
      obtain ⟨hE, rfl⟩ := (hx.ends r').mp ⟨a, ha⟩
      obtain ⟨hG, rfl⟩ := ((hf a ha).ends t').mp ⟨b, hb⟩
      exact ⟨⟨hE, hG⟩, rfl⟩
    · rintro ⟨⟨hE, hG⟩, rfl⟩
      obtain ⟨a, ha⟩ := (hx.ends r).mpr ⟨hE, rfl⟩
      obtain ⟨b, hb⟩ := ((hf a ha).ends t').mpr ⟨hG, rfl⟩
      exact ⟨b, _, ha, hb⟩

theorem Reads.pure (a : α) (r : Bytes) : Reads k (pure (a, r)) True True r where
  safe := iff_true_intro (Traced.safe_pure _)
  ends t := by simp [eq_comm]

theorem Reads.congr {S' E' : Prop} {r' : Bytes} (h : Reads k x S E r) (hS : S ↔ S') (hE : E ↔ E')
    (hr : r = r') : Reads k x S' E' r' := by
  subst hr
  exact ⟨h.safe.trans hS, fun t => (h.ends t).trans (and_congr_left' hE)⟩

theorem Reads.next {f : α × Bytes → Noted (β × Bytes)} {T G : Prop} {w m : ℕ} {t : Bytes}
    (hx : Reads k x S (Whole w m r) (behind w m r))
    (hf : ∀ a, x.result = .value (a, behind w m r) → Reads k (f (a, behind w m r)) T G t)
    (hT : behind w m r = [] → T) (hG : G → behind w m r ≠ []) : Reads k (x >>= f) (S ∧ T) G t := by
  refine (hx.bind hf).congr (and_congr_right fun _ => ⟨fun h => ?_, fun h _ => h⟩)
    ⟨fun h => h.2, fun h => ⟨?_, h⟩⟩ rfl
  · by_cases hwhole : Whole w m r
    · exact h hwhole
    · exact hT (behind_of_not_whole hwhole)
  · by_contra hwhole
    exact hG h (behind_of_not_whole hwhole)

theorem Reads.map (g : α → β) (hx : Reads k x S E r) :
    Reads k (x >>= fun y => Pure.pure (g y.1, y.2)) S E r :=
  (hx.bind fun a _ => Reads.pure (g a) r).congr (by simp) (by simp) rfl

theorem reads_readWord (w : ℕ) (r : Bytes) :
    Reads k (.lift (readWord r w)) True (w ≤ r.length) (r.drop w) where
  safe := iff_true_intro ((Traced.safe_lift _).mpr (readWord_ne_panic r w))
  ends t := by
    simp only [Traced.result_lift, readWord_eq_value, Prod.mk.injEq]
    constructor
    · rintro ⟨n, hle, _, ht⟩
      exact ⟨hle, ht⟩
    · rintro ⟨hle, ht⟩
      exact ⟨_, hle, rfl, ht⟩

theorem Reads.note (s : Slice) (h : Reads k x S E r) :
    Reads k (.note s >>= fun _ => x) (Within k s ∧ S) E r where
  safe := by
    rw [Traced.safe_bind, Traced.safe_note, h.safe]
    simp
  ends t := by
    exact h.ends t

theorem reads_readBytes (r : Bytes) (n : ℕ) :
    Reads k (.lift (readBytes r n)) True (n ≤ r.length) (r.drop n) where
  safe := iff_true_intro ((Traced.safe_lift _).mpr (readBytes_ne_panic r n))
  ends t := by
    simp only [Traced.result_lift, readBytes_eq_value, Prod.mk.injEq]
    constructor
    · rintro ⟨b, hle, _, ht⟩
      exact ⟨hle, ht⟩
    · rintro ⟨hle, ht⟩
      exact ⟨_, hle, rfl, ht⟩

theorem Reads.part {f : ℕ → Bytes → Noted (α × Bytes)} {w m : ℕ}
    (hf : Reads k (f (leNat (r.take w)) (r.drop w)) (Within k ⟨leNat (r.take w), r.length - w⟩) (m * leNat (r.take w) ≤ r.length - w ∧ E) ((r.drop w).drop (m * leNat (r.take w)))) :
    Reads k (Traced.lift (readWord r w) >>= fun x => f x.1 x.2) (Announces k w r)
      (Whole w m r ∧ E) (behind w m r) := by
  have hword := (reads_readWord (k := k) w r).bind (f := fun x => f x.1 x.2) fun n hn => by
    obtain ⟨_, hn⟩ := readWord_eq_value.mp hn
    cases hn
    exact hf
  refine hword.congr ?_ ?_ ?_
  · simp only [true_and]
    rfl
  · unfold Whole
    constructor
    · rintro ⟨hle, hpart, hE⟩
      exact ⟨by omega, hE⟩
    · rintro ⟨hwhole, hE⟩
      exact ⟨by omega, by omega, hE⟩
  · rw [drop_drop, behind]

end Reads

section Fields

variable {J : Coding F P Cfg} {k : ℕ}

theorem reads_error {α : Type} (e : ReadError) (r : Bytes) :
    Reads (α := α) k (.lift (.error e)) True False r where
  safe := iff_true_intro ((Traced.safe_lift _).mpr (by simp))
  ends t := by simp

theorem reads_readPart (w : ℕ) (r : Bytes) :
    Reads k (Noted.readPart w r) (Announces k w r) (Whole w 1 r) (behind w 1 r) := by
  have hpart := Reads.part (k := k) (w := w) (m := 1) (E := True) (r := r)
    (f := fun n r => Traced.note ⟨n, r.length⟩ >>= fun _ => .lift (readBytes r n)) ?_
  · exact hpart.congr Iff.rfl (by rw [and_true]) rfl
  · refine (Reads.note _ (reads_readBytes _ _)).congr ?_ ?_ ?_
    · rw [length_drop, and_true]
    · rw [length_drop, Nat.one_mul, and_true]
    · rw [Nat.one_mul]

theorem readPart_value {w : ℕ} {r : Bytes} {x : Bytes × Bytes}
    (h : (Noted.readPart w r).result = .value x) : x.1 = part w r := by
  rw [Noted.readPart_result, bind_eq_value] at h
  obtain ⟨y, hy, h⟩ := h
  obtain ⟨_, rfl⟩ := readWord_eq_value.mp hy
  obtain ⟨_, rfl⟩ := readBytes_eq_value.mp h
  rfl

theorem readFloats_ends (n : ℕ) (r t : Bytes) : (∃ vs, readFloats J n r = .value (vs, t)) ↔
    4 * n ≤ r.length ∧ t = r.drop (4 * n) := by
  induction n generalizing r with
  | zero => simp [readFloats, eq_comm]
  | succ n ih =>
    simp only [readFloats, bind_eq_value]
    constructor
    · rintro ⟨vs, ⟨b, r'⟩, hb, ⟨vs', t'⟩, hvs, hret⟩
      obtain ⟨hle, hb⟩ := readBytes_eq_value.mp hb
      cases hb
      cases hret
      obtain ⟨hle', ht⟩ := (ih _).mp ⟨vs', hvs⟩
      rw [length_drop] at hle'
      refine ⟨by omega, ?_⟩
      rw [ht, drop_drop]
      congr 1
      omega
    · rintro ⟨hle, ht⟩
      obtain ⟨vs, hvs⟩ := (ih (r.drop 4)).mpr ⟨by rw [length_drop]; omega, by
        rw [ht, drop_drop]
        congr 1
        omega⟩
      exact ⟨_, _, readBytes_eq_value.mpr ⟨by omega, rfl⟩, _, hvs, rfl⟩

theorem readFloats_ne_panic (n : ℕ) (r : Bytes) : readFloats J n r ≠ .panic := by
  induction n generalizing r with
  | zero => simp [readFloats]
  | succ n ih =>
    refine bind_ne_panic.mpr ⟨readBytes_ne_panic r 4, fun x _ => ?_⟩
    exact bind_ne_panic.mpr ⟨ih x.2, fun _ _ => by simp⟩

theorem reads_readVector (r : Bytes) :
    Reads k (Noted.readVector J r) (Announces k 4 r) (Whole 4 4 r) (behind 4 4 r) := by
  have hfloats : ∀ n r, Reads k (.lift (readFloats J n r)) True (4 * n ≤ r.length)
      (r.drop (4 * n)) := fun n r =>
    ⟨iff_true_intro ((Traced.safe_lift _).mpr (readFloats_ne_panic n r)), readFloats_ends n r⟩
  have hpart := Reads.part (k := k) (w := 4) (m := 4) (E := True) (r := r)
    (f := fun n r => Traced.note ⟨n, r.length⟩ >>= fun _ => .lift (readFloats J n r)) ?_
  · exact hpart.congr Iff.rfl (by rw [and_true]) rfl
  · refine (Reads.note _ (hfloats _ _)).congr ?_ ?_ rfl
    · rw [length_drop, and_true]
    · rw [length_drop, and_true]

theorem reads_readPayload (r : Bytes) : Reads k (Noted.readPayload J r) (Announces k 4 r)
    (Whole 4 1 r ∧ PayloadReads J r) (behind 4 1 r) := by
  refine Reads.part (f := fun n r => if n = 0 then pure (none, r) else
    Traced.note ⟨n, r.length⟩ >>= fun _ => Traced.lift (readBytes r n) >>= fun x =>
      match J.unmarshalPayload x.1 with
      | none => .lift (.error .payload)
      | some payload => pure (payload, x.2)) ?_
  by_cases hzero : leNat (r.take 4) = 0
  · simp only [hzero, if_true]
    refine (Reads.pure _ _).congr ?_ ?_ ?_
    · simp [Within]
    · simp [PayloadReads, hzero]
    · rw [Nat.mul_zero, drop_zero]
  · simp only [hzero, if_false]
    have hbytes := (reads_readBytes (k := k) (r.drop 4) (leNat (r.take 4))).bind
      (T := True) (G := PayloadReads J r) (t := (r.drop 4).drop (leNat (r.take 4)))
      (f := fun x => match J.unmarshalPayload x.1 with
        | none => .lift (.error .payload)
        | some payload => pure (payload, x.2)) ?_
    · refine (Reads.note _ hbytes).congr ?_ ?_ ?_
      · simp [Within]
      · rw [length_drop, Nat.one_mul]
      · rw [Nat.one_mul]
    · intro b hb
      obtain ⟨_, hb⟩ := readBytes_eq_value.mp hb
      cases hb
      have hreads : PayloadReads J r ↔ (J.unmarshalPayload (part 4 r)).isSome := by
        simp [PayloadReads, hzero]
      show Reads k (match J.unmarshalPayload (part 4 r) with
        | none => .lift (.error .payload)
        | some payload => pure (payload, _)) _ _ _
      cases hun : J.unmarshalPayload (part 4 r) with
      | none => exact (reads_error _ _).congr Iff.rfl (by simp [hreads, hun]) rfl
      | some payload => exact (Reads.pure _ _).congr Iff.rfl (by simp [hreads, hun]) rfl

theorem reads_readConfig (r : Bytes) : Reads k (Noted.readConfig J r) (Announces k 4 r)
    (Whole 4 1 r ∧ ConfigReads J r) (behind 4 1 r) := by
  refine ((reads_readPart 4 r).bind (T := True) (G := ConfigReads J r) ?_).congr ?_ Iff.rfl rfl
  · intro b hb
    have hpart : b = part 4 r := readPart_value hb
    subst hpart
    show Reads k (match J.unmarshalConfig (part 4 r) with
      | none => .lift (.error .config)
      | some config => pure (config, _)) _ _ _
    cases hun : J.unmarshalConfig (part 4 r) with
    | none => exact (reads_error _ _).congr Iff.rfl (by simp [ConfigReads, hun]) rfl
    | some config => exact (Reads.pure _ _).congr Iff.rfl (by simp [ConfigReads, hun]) rfl
  · simp

theorem reads_readPoint (r : Bytes) : Reads k (Noted.readPoint J r) (HonestPoint k r)
    (PointEnds J r) (behind 4 1 (payloadAt r)) := by
  refine (reads_readPart 2 r).next (fun id _ => (reads_readVector _).next (fun vector _ =>
    (reads_readPayload (payloadAt r)).map fun payload => (⟨id, vector, payload⟩ : PointData F P))
      ?_ ?_) ?_ ?_
  · intro hnil
    rw [payloadAt, hnil]
    exact announces_nil (by decide)
  · intro hends
    exact whole_ne_nil (by decide) hends.1
  · intro hnil
    rw [payloadAt, hnil, behind_nil]
    exact ⟨announces_nil (by decide), announces_nil (by decide)⟩
  · intro hends hnil
    refine whole_ne_nil (by decide) hends.1 ?_
    rw [payloadAt, hnil, behind_nil]

theorem reads_readPoints (n : ℕ) (r : Bytes) : Reads k (Noted.readPoints J n r)
    (HonestPoints J k n r) (PointsEnd J n r) (pointsEnd n r) := by
  induction n generalizing r with
  | zero => exact Reads.pure _ _
  | succ n ih =>
    exact (reads_readPoint r).bind fun p _ => (ih _).map fun ps => p :: ps

theorem reads_makePoints {α : Type} {x : Noted (α × Bytes)} {S E : Prop} {r t : Bytes} (n : ℕ)
    (h : Reads k x S E t) : Reads k (makePoints n r >>= fun _ => x)
      (pointDataSize * n ≤ maxAlloc ∧ Within k ⟨n, r.length⟩ ∧ S)
      (pointDataSize * n ≤ maxAlloc ∧ E) t := by
  unfold makePoints
  split_ifs with hlarge
  · have hnot := Nat.not_le.mpr hlarge
    refine ⟨?_, fun t' => ?_⟩
    · rw [Traced.safe_bind, Traced.safe_lift]
      simp [hnot]
    · simp [hnot]
  · have hle := Nat.not_lt.mp hlarge
    exact (h.note _).congr (by simp [hle]) (by simp [hle]) rfl

theorem reads_counted {β : Type} (g : List (PointData F P) → β) (r : Bytes) : Reads k
    (Traced.lift (readWord r 8) >>= fun x => makePoints x.1 x.2 >>= fun _ =>
      Noted.readPoints J x.1 x.2 >>= fun y => pure (g y.1, y.2))
    (8 ≤ r.length → pointDataSize * leNat (r.take 8) ≤ maxAlloc ∧ Announces k 8 r ∧
      HonestPoints J k (leNat (r.take 8)) (r.drop 8))
    (8 ≤ r.length ∧ pointDataSize * leNat (r.take 8) ≤ maxAlloc ∧
      PointsEnd J (leNat (r.take 8)) (r.drop 8))
    (pointsEnd (leNat (r.take 8)) (r.drop 8)) := by
  have hmade : Reads k (Traced.lift (readWord r 8) >>= fun x => makePoints x.1 x.2 >>= fun _ =>
      Noted.readPoints J x.1 x.2 >>= fun y => pure (g y.1, y.2))
      (True ∧ (8 ≤ r.length → pointDataSize * leNat (r.take 8) ≤ maxAlloc ∧
        Within k ⟨leNat (r.take 8), (r.drop 8).length⟩ ∧
          HonestPoints J k (leNat (r.take 8)) (r.drop 8))) _ _ :=
    (reads_readWord 8 r).bind fun n hn => by
      obtain ⟨_, hn⟩ := readWord_eq_value.mp hn
      cases hn
      exact reads_makePoints _ ((reads_readPoints _ _).map g)
  refine hmade.congr ?_ Iff.rfl rfl
  rw [true_and]
  refine imp_congr_right fun hle => and_congr_right fun _ => and_congr_left' ?_
  rw [Within, length_drop]
  exact ⟨fun h _ => h, fun h => h hle⟩

theorem reads_configured {β : Type} (g : Cfg → List (PointData F P) → β) (r : Bytes) : Reads k
    (Noted.readConfig J r >>= fun x => Traced.lift (readWord x.2 8) >>= fun y =>
      makePoints y.1 y.2 >>= fun _ => Noted.readPoints J y.1 y.2 >>= fun z =>
        pure (g x.1 z.1, z.2))
    (Announces k 4 r ∧ (ConfigReads J r → 8 ≤ (behind 4 1 r).length →
      pointDataSize * leNat ((behind 4 1 r).take 8) ≤ maxAlloc ∧ Announces k 8 (behind 4 1 r) ∧
        HonestPoints J k (leNat ((behind 4 1 r).take 8)) ((behind 4 1 r).drop 8)))
    (ConfigReads J r ∧ 8 ≤ (behind 4 1 r).length ∧
      pointDataSize * leNat ((behind 4 1 r).take 8) ≤ maxAlloc ∧
        PointsEnd J (leNat ((behind 4 1 r).take 8)) ((behind 4 1 r).drop 8))
    (pointsEnd (leNat ((behind 4 1 r).take 8)) ((behind 4 1 r).drop 8)) := by
  have hwhole : 8 ≤ (behind 4 1 r).length → Whole 4 1 r := by
    intro hle
    by_contra hnot
    rw [behind_of_not_whole hnot] at hle
    exact absurd hle (by decide)
  refine ((reads_readConfig r).bind fun config _ =>
    reads_counted (g config) (behind 4 1 r)).congr ?_ ?_ rfl
  · exact and_congr_right fun _ => ⟨fun h hreads hle => h ⟨hwhole hle, hreads⟩ hle,
      fun h hreads hle => h hreads.2 hle⟩
  · exact ⟨fun h => ⟨h.1.2, h.2⟩, fun h => ⟨⟨hwhole h.2.1, h.1⟩, h.2⟩⟩

theorem reads_readCollection (r : Bytes) : Reads k (Noted.readCollection J r)
    (HonestCollection J k r) (CollectionEnds J r)
    (pointsEnd (leNat ((countAt r).take 8)) ((countAt r).drop 8)) := by
  refine (reads_readPart 2 r).next (fun name _ => reads_configured
    (fun config points => (name, (⟨config, points⟩ : CollectionData F P Cfg))) _) ?_ ?_
  · intro hnil
    rw [countAt, hnil, behind_nil]
    exact ⟨announces_nil (by decide), fun _ hle => absurd hle (by decide)⟩
  · intro hends hnil
    have hle := hends.2.1
    rw [countAt, hnil, behind_nil] at hle
    exact absurd hle (by decide)

theorem honestAll_nil (n : ℕ) : HonestAll J k n [] := by
  have hshort : ¬ 8 ≤ (countAt []).length := by
    decide
  cases n with
  | zero => trivial
  | succ n =>
    refine ⟨⟨announces_nil (by decide), ?_, fun _ hle => absurd hle hshort⟩,
      fun hends => absurd hends.2.1 hshort⟩
    exact announces_nil (by decide)

theorem readAll_safe_iff (n : ℕ) (r : Bytes) :
    (Noted.readAll J n r).Safe (Within k) ↔ HonestAll J k n r := by
  induction n generalizing r with
  | zero => exact iff_true_intro (Traced.safe_pure _)
  | succ n ih =>
    have hcollection := reads_readCollection (J := J) (k := k) r
    rw [Noted.readAll, Traced.safe_bind, hcollection.safe, HonestAll]
    refine and_congr_right fun _ => ⟨?_, ?_⟩
    · intro h hends
      obtain ⟨c, hc⟩ := (hcollection.ends _).mpr ⟨hends, rfl⟩
      exact (ih _).mp (Traced.safe_bind.mp (h _ hc)).1
    · rintro h ⟨c, t⟩ hc
      obtain ⟨hends, rfl⟩ := (hcollection.ends t).mp ⟨c, hc⟩
      exact Traced.safe_bind.mpr ⟨(ih _).mpr (h hends), fun _ _ => Traced.safe_pure _⟩

end Fields

/-! ## The stream -/

theorem readHeader_eq_value {b : Bytes} (hmagic : leNat (b.take 4) = magic)
    {x : (ℕ × ℕ × ℕ) × Bytes} : readHeader b = .value x ↔ 24 ≤ b.length ∧
      x = ((leNat ((b.drop 4).take 8), leNat ((b.drop 12).take 8), leNat ((b.drop 20).take 4)),
        b.drop 24) := by
  simp only [readHeader, bind_eq_value]
  constructor
  · rintro ⟨m, hm, h⟩
    obtain ⟨_, rfl⟩ := readWord_eq_value.mp hm
    rw [if_neg (not_not.mpr hmagic), bind_eq_value] at h
    obtain ⟨version, hversion, h⟩ := h
    obtain ⟨_, rfl⟩ := readWord_eq_value.mp hversion
    obtain ⟨timestamp, htimestamp, h⟩ := bind_eq_value.mp h
    obtain ⟨_, rfl⟩ := readWord_eq_value.mp htimestamp
    obtain ⟨count, hcount, h⟩ := bind_eq_value.mp h
    obtain ⟨hle, rfl⟩ := readWord_eq_value.mp hcount
    cases h
    simp only [drop_drop, length_drop] at hle ⊢
    exact ⟨by omega, trivial⟩
  · rintro ⟨hle, rfl⟩
    refine ⟨_, readWord_eq_value.mpr ⟨by omega, rfl⟩, ?_⟩
    rw [if_neg (not_not.mpr hmagic), bind_eq_value]
    refine ⟨_, readWord_eq_value.mpr ⟨by rw [length_drop]; omega, rfl⟩, ?_⟩
    refine bind_eq_value.mpr
      ⟨_, readWord_eq_value.mpr ⟨by simp only [length_drop]; omega, rfl⟩, ?_⟩
    refine bind_eq_value.mpr
      ⟨_, readWord_eq_value.mpr ⟨by simp only [length_drop]; omega, rfl⟩, ?_⟩
    simp only [drop_drop]
    rfl

theorem readHeader_ne_panic (b : Bytes) : readHeader b ≠ .panic := by
  refine bind_ne_panic.mpr ⟨readWord_ne_panic b 4, fun m _ => ?_⟩
  show (if m.1 ≠ magic then _ else _) ≠ _
  split_ifs
  · simp
  · refine bind_ne_panic.mpr ⟨readWord_ne_panic _ 8, fun version _ => ?_⟩
    refine bind_ne_panic.mpr ⟨readWord_ne_panic _ 8, fun timestamp _ => ?_⟩
    exact bind_ne_panic.mpr ⟨readWord_ne_panic _ 4, fun count _ => by simp⟩

/-- **The reader is safe exactly on honest streams**: it returns without a panic and every slice has at most `k`
    elements for each byte left, if and only if every length it gets to announces at most `k` for each byte
    behind it and no number of points is too large for a slice. -/
theorem reading_safe_iff (J : Coding F P Cfg) (k : ℕ) {b : Bytes}
    (hmagic : leNat (b.take 4) = magic) :
    (readSnapshot J b ≠ .panic ∧
      ∀ s ∈ (Noted.readSnapshot J b).trace, s.length ≤ k * s.left) ↔ Honest J k b := by
  rw [← Noted.readSnapshot_result]
  show (Noted.readSnapshot J b).Safe (Within k) ↔ Honest J k b
  rw [Noted.readSnapshot, Traced.safe_bind, Traced.safe_lift, Traced.result_lift]
  simp only [readHeader_ne_panic, ne_eq, not_false_eq_true, true_and, readHeader_eq_value hmagic]
  constructor
  · intro h
    by_cases hle : 24 ≤ b.length
    · exact readAll_safe_iff _ _ |>.mp (Traced.safe_bind.mp (h _ ⟨hle, rfl⟩)).1
    · rw [Honest, drop_eq_nil_of_le (by omega : b.length ≤ 24)]
      exact honestAll_nil _
  · rintro h x ⟨_, rfl⟩
    exact Traced.safe_bind.mpr ⟨(readAll_safe_iff _ _).mpr h, fun _ _ => Traced.safe_pure _⟩

def oneCollection : Bytes := leBytes 4 magic ++ leBytes 8 1 ++ leBytes 8 0 ++ leBytes 4 1

/-- An empty name, and a configuration of 4294967295 bytes of which none is there. -/
def longConfig : Bytes := oneCollection ++ [0, 0] ++ [255, 255, 255, 255]

/-- An empty name, the configuration "null", and 2^63 points. -/
def manyPoints : Bytes :=
  oneCollection ++ [0, 0] ++ [4, 0, 0, 0, 110, 117, 108, 108] ++ [0, 0, 0, 0, 0, 0, 0, 128]

/-- **Lengths are believed**: a slice of 4 GiB is made when nothing is left, and a number of points makes the
    reader panic. -/
theorem reading_unsafe : leNat (longConfig.take 4) = magic ∧ leNat (manyPoints.take 4) = magic ∧
    (∀ k, ¬ ∀ s ∈ (Noted.readSnapshot plainCoding longConfig).trace, s.length ≤ k * s.left) ∧
    readSnapshot plainCoding manyPoints = .panic := by
  refine ⟨by decide, by decide, ?_, rfl⟩
  intro k h
  have hmade : (⟨4294967295, 0⟩ : Slice) ∈
      (Noted.readSnapshot plainCoding longConfig).trace := by decide +kernel
  exact absurd (h _ hmade) (by rw [Nat.mul_zero]; decide)

def plainStream : Bytes := (writeSnapshot plainCoding 7 1000 plainCollections).toOption.getD []

theorem reading_safe_plain : leNat (plainStream.take 4) = magic ∧ plainStream.length = 89 ∧
    Honest plainCoding 1 plainStream := by
  have hread : ∃ x, readSnapshot plainCoding plainStream = .value x := ⟨_, rfl⟩
  refine ⟨by decide +kernel, by decide +kernel,
    (reading_safe_iff plainCoding 1 (by decide +kernel)).mp ⟨?_, by decide +kernel⟩⟩
  obtain ⟨x, hx⟩ := hread
  simp [hx]

end LimyeDB.Snapshot
