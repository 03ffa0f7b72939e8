/-
  THE BINARY FORM OF A POINT (`Encode` and `Decode` of pkg/point/point.go): which points come back.
  Multi-vectors have no part in it, and the number of sparse values is not written.
-/
import LimyeDB.Point
import LimyeDB.Snapshot.Stream

namespace LimyeDB.PointCodec

open Go List
open LimyeDB.Snapshot (Coding ReadError readBytes readWord readFloats readPayload readBytes_append
  readWord_append readFloats_write readPayload_write except_bind_ok)

/-! ## The source -/

/-- A point with the fields that only its binary form has to do with. -/
structure FullPoint (F P : Type) extends Point F P where
  multiVectors : List (Bytes × List (List F))
  version : UInt64

inductive EncodeError where
  | idTooLong
  | vectorTooLarge
  | payloadMarshal
  | payloadTooLarge
  | tooManyNamed
  | nameTooLong
  | namedTooLarge
  | sparseTooLarge
  deriving DecidableEq, Repr

/-- `safeIntToUint16` and `safeIntToUint32` of a length, and its bytes. -/
def putLen (w : ℕ) (e : EncodeError) (n : ℕ) : Except EncodeError Bytes :=
  if n < 256 ^ w then .ok (leBytes w n) else .error e

section Source

variable {F P Cfg : Type} (J : Coding F P Cfg)

def putFloats (v : List F) : Bytes := v.flatMap J.putFloat

def putNamed : List (Bytes × List F) → Except EncodeError Bytes
  | [] => .ok []
  | (name, vec) :: rest => do
    let nameLen ← putLen 2 .nameTooLong name.length
    let vLen ← putLen 4 .namedTooLarge vec.length
    let more ← putNamed rest
    return nameLen ++ (name ++ (vLen ++ (putFloats J vec ++ more)))

def putSparse : Option (SparseVector F) → Except EncodeError Bytes
  | none => .ok [0]
  | some s => do
    let sparseLen ← putLen 4 .sparseTooLarge s.indices.length
    return 1 :: (sparseLen ++ (s.indices.flatMap (fun i => leBytes 4 i.toNat) ++ putFloats J s.values))

def putPayload (payload : Option P) : Except EncodeError Bytes :=
  match J.marshalPayload payload with
  | some b => .ok b
  | none => .error .payloadMarshal

/-- `named` are the named vectors in the order of the map. -/
def encode (p : FullPoint F P) (named : List (Bytes × List F)) : Except EncodeError Bytes := do
  let idLen ← putLen 2 .idTooLong p.id.length
  let vecLen ← putLen 4 .vectorTooLarge p.vector.length
  let payload ← putPayload J p.payload
  let payloadLen ← putLen 4 .payloadTooLarge payload.length
  let numNamed ← putLen 2 .tooManyNamed named.length
  let namedBytes ← putNamed J named
  let sparse ← putSparse J p.sparse
  return idLen ++ (p.id ++ (vecLen ++ (putFloats J p.vector ++ (payloadLen ++ (payload ++
    (numNamed ++ (namedBytes ++ (leBytes 8 p.version.toNat ++ sparse))))))))

/-- A part that an older point does not have: `old` is the answer at the end of the stream. -/
def orOld {α β : Type} (x : Outcome ReadError α) (old : β) (f : α → Outcome ReadError β) :
    Outcome ReadError β :=
  match x with
  | .value a => f a
  | .error e => if e = .io .eof then .value old else .error e
  | .panic => .panic

/-- `NamedVectors[name] = vec` for each entry. -/
def readNamed : ℕ → List (Bytes × List F) → Bytes →
    Outcome ReadError (List (Bytes × List F) × Bytes)
  | 0, named, r => .value (named, r)
  | n + 1, named, r => do
    let (nLen, r) ← readWord r 2
    let (name, r) ← readBytes r nLen
    let (vLen, r) ← readWord r 4
    let (vec, r) ← readFloats J vLen r
    readNamed n (named.filter (fun x => x.1 ≠ name) ++ [(name, vec)]) r

def readIndices : ℕ → Bytes → Outcome ReadError (List UInt32 × Bytes)
  | 0, r => .value ([], r)
  | n + 1, r => do
    let (i, r) ← readWord r 4
    let (is, r) ← readIndices n r
    return (UInt32.ofNat i :: is, r)

def readSparse (p : FullPoint F P) (r : Bytes) : Outcome ReadError (FullPoint F P) :=
  orOld (readWord r 1) p fun (hasSparse, r) =>
    if hasSparse = 0 then .value p
    else do
      let (sparseLen, r) ← readWord r 4
      let (indices, r) ← readIndices sparseLen r
      let (values, _) ← readFloats J sparseLen r
      return { p with sparse := some ⟨indices, values⟩ }

def decode (r : Bytes) : Outcome ReadError (FullPoint F P) := do
  let (idLen, r) ← readWord r 2
  let (id, r) ← readBytes r idLen
  let (dim, r) ← readWord r 4
  let (vector, r) ← readFloats J dim r
  let (payload, r) ← readPayload J r
  let p : FullPoint F P := ⟨⟨id, vector, payload, [], none⟩, [], 1⟩
  orOld (readWord r 2) p fun (numNamed, r) => do
    let (named, r) ← readNamed J numNamed [] r
    let p := { p with namedVectors := named }
    orOld (readWord r 8) p fun (version, r) =>
      readSparse J { p with version := UInt64.ofNat version } r

end Source

/-! ## Parts that read back -/

section Parts

variable {F P Cfg : Type} {J : Coding F P Cfg}

theorem putLen_ok {w n : ℕ} {e : EncodeError} {b : Bytes} (h : putLen w e n = .ok b) :
    n < 256 ^ w ∧ b = leBytes w n := by
  unfold putLen at h
  split_ifs at h with hlt
  cases h
  exact ⟨hlt, rfl⟩

theorem putLen_of_lt {w n : ℕ} (h : n < 256 ^ w) (e : EncodeError) : putLen w e n = .ok (leBytes w n) :=
  if_pos h

theorem readIndices_append (is : List UInt32) (rest : Bytes) :
    readIndices is.length (is.flatMap (fun i => leBytes 4 i.toNat) ++ rest) = .value (is, rest) := by
  induction is with
  | nil => rfl
  | cons i is ih =>
    have hlt : i.toNat < 256 ^ 4 := i.toNat_lt
    simp only [length_cons, readIndices, flatMap_cons, append_assoc, readWord_append hlt,
      Outcome.value_bind, ih, Outcome.pure_eq, UInt32.ofNat_toNat]

theorem readFloats_length {n : ℕ} {r r' : Bytes} {vs : List F} (h : readFloats J n r = .value (vs, r')) :
    vs.length = n := by
  induction n generalizing r vs r' with
  | zero =>
    cases h
    rfl
  | succ n ih =>
    obtain ⟨⟨b, r₁⟩, -, h⟩ := Outcome.bind_eq_value.mp h
    obtain ⟨⟨vs', r₂⟩, hrest, h⟩ := Outcome.bind_eq_value.mp h
    cases h
    rw [length_cons, ih hrest]

def NamedFits (x : Bytes × List F) : Prop := x.1.length < 256 ^ 2 ∧ x.2.length < 256 ^ 4

theorem putNamed_of_fits {named : List (Bytes × List F)} (h : ∀ x ∈ named, NamedFits x) :
    ∃ b, putNamed J named = .ok b := by
  induction named with
  | nil => exact ⟨[], rfl⟩
  | cons x named ih =>
    obtain ⟨hx, hrest⟩ := forall_mem_cons.mp h
    obtain ⟨b, hb⟩ := ih hrest
    exact ⟨_, by rw [putNamed, putLen_of_lt hx.1, putLen_of_lt hx.2, hb]; rfl⟩

theorem readNamed_append (hJ : J.Lossless) {named old : List (Bytes × List F)} {b : Bytes}
    (h : putNamed J named = .ok b) (hkeys : ((old ++ named).map Prod.fst).Nodup) (rest : Bytes) :
    (∀ x ∈ named, NamedFits x) ∧
      readNamed J named.length old (b ++ rest) = .value (old ++ named, rest) := by
  induction named generalizing old b with
  | nil =>
    cases h
    exact ⟨by simp, by rw [append_nil]; rfl⟩
  | cons x named ih =>
    obtain ⟨name, vec⟩ := x
    obtain ⟨nameLen, hname, h⟩ := except_bind_ok h
    obtain ⟨vLen, hvec, h⟩ := except_bind_ok h
    obtain ⟨more, hmore, h⟩ := except_bind_ok h
    cases h
    obtain ⟨hnameLt, rfl⟩ := putLen_ok hname
    obtain ⟨hvecLt, rfl⟩ := putLen_ok hvec
    have hsplit : old ++ (name, vec) :: named = (old ++ [(name, vec)]) ++ named := by simp
    rw [hsplit] at hkeys
    obtain ⟨hfits, hread⟩ := ih hmore hkeys
    -- the name is new, so nothing is replaced
    have hnew : old.filter (fun x => x.1 ≠ name) = old := by
      refine filter_eq_self.mpr fun x hx => decide_eq_true fun heq => ?_
      rw [map_append, map_append] at hkeys
      have hdisjoint := (nodup_append.mp (nodup_append.mp hkeys).1).2.2
      exact hdisjoint x.1 (mem_map_of_mem hx) name (by simp) heq
    refine ⟨forall_mem_cons.mpr ⟨⟨hnameLt, hvecLt⟩, hfits⟩, ?_⟩
    simp only [length_cons, readNamed, append_assoc, readWord_append hnameLt,
      readBytes_append rfl, readWord_append hvecLt, putFloats, readFloats_write hJ, Outcome.value_bind, hnew]
    rw [hsplit]
    exact hread

end Parts

/-! ## Points that come back -/

section RoundTrip

variable {F P Cfg : Type} (J : Coding F P Cfg)

structure PointFits (p : FullPoint F P) : Prop where
  id : p.id.length < 256 ^ 2
  vector : p.vector.length < 256 ^ 4
  payload : ∃ b, J.marshalPayload p.payload = some b ∧ b.length < 256 ^ 4
  count : p.namedVectors.length < 256 ^ 2
  named : ∀ x ∈ p.namedVectors, NamedFits x
  sparse : ∀ s, p.sparse = some s → s.indices.length < 256 ^ 4 ∧ s.values.length = s.indices.length
  multi : p.multiVectors = []

/-- Two points are the same: their named vectors and multi-vectors are maps. -/
structure FullPoint.Same (q p : FullPoint F P) : Prop where
  id : q.id = p.id
  vector : q.vector = p.vector
  payload : q.payload = p.payload
  named : q.namedVectors.Perm p.namedVectors
  sparse : q.sparse = p.sparse
  multi : q.multiVectors.Perm p.multiVectors
  version : q.version = p.version

variable {J} {p : FullPoint F P} {named : List (Bytes × List F)} {b : Bytes}

theorem putPayload_ok (h : putPayload J p.payload = .ok b) : J.marshalPayload p.payload = some b := by
  unfold putPayload at h
  split at h
  · cases h
    assumption
  · cases h

theorem readSparse_putSparse (hJ : J.Lossless) (h : putSparse J p.sparse = .ok b) {q : FullPoint F P}
    (hq : q.sparse = none) :
    (∀ q', readSparse J q b = .value q' → q'.multiVectors = q.multiVectors ∧
      (q'.sparse = p.sparse → ∀ s, p.sparse = some s →
        s.indices.length < 256 ^ 4 ∧ s.values.length = s.indices.length)) ∧
      ((∀ s, p.sparse = some s → s.values.length = s.indices.length) →
        readSparse J q b = .value { q with sparse := p.sparse }) := by
  cases hs : p.sparse with
  | none =>
    rw [hs] at h
    cases h
    obtain ⟨⟨id, vector, payload, nv, sparse⟩, mv, version⟩ := q
    cases hq
    refine ⟨fun q' hq' => ?_, fun _ => rfl⟩
    cases hq'
    exact ⟨rfl, by simp⟩
  | some s =>
    rw [hs] at h
    obtain ⟨sparseLen, hlen, h⟩ := except_bind_ok h
    cases h
    obtain ⟨hlt, rfl⟩ := putLen_ok hlen
    have hone : ∀ rest : Bytes, readWord (1 :: rest) 1 = .value (1, rest) :=
      readWord_append (by decide)
    have hread : readSparse J q (1 :: (leBytes 4 s.indices.length ++
        (s.indices.flatMap (fun i => leBytes 4 i.toNat) ++ putFloats J s.values))) =
          (readFloats J s.indices.length (putFloats J s.values) >>= fun x =>
            .value { q with sparse := some ⟨s.indices, x.1⟩ }) := by
      simp only [readSparse, orOld, hone, Nat.one_ne_zero, if_false, readWord_append hlt,
        Outcome.value_bind, readIndices_append, Outcome.pure_eq]
    rw [hread]
    constructor
    · intro q' hq'
      obtain ⟨⟨values, rest⟩, hvalues, hsame⟩ := Outcome.bind_eq_value.mp hq'
      cases hsame
      refine ⟨rfl, fun hsparse s' hs' => ?_⟩
      cases hs'
      have hvals : values = s.values := congrArg SparseVector.values (Option.some.inj hsparse)
      exact ⟨hlt, by rw [← hvals, readFloats_length hvalues]⟩
    · intro h
      have hwrite := readFloats_write hJ s.values []
      rw [append_nil, h s rfl] at hwrite
      rw [putFloats, hwrite]
      rfl

theorem decode_encode (hJ : J.Lossless) (hkeys : (named.map Prod.fst).Nodup)
    (h : encode J p named = .ok b) :
    (p.id.length < 256 ^ 2 ∧ p.vector.length < 256 ^ 4 ∧
      (∃ b, J.marshalPayload p.payload = some b ∧ b.length < 256 ^ 4) ∧ named.length < 256 ^ 2 ∧
      ∀ x ∈ named, NamedFits x) ∧ ∃ sparse, putSparse J p.sparse = .ok sparse ∧
        decode J b = readSparse J ⟨⟨p.id, p.vector, p.payload, named, none⟩, [], p.version⟩ sparse := by
  obtain ⟨idLen, hid, h⟩ := except_bind_ok h
  obtain ⟨vecLen, hvec, h⟩ := except_bind_ok h
  obtain ⟨payload, hpayload, h⟩ := except_bind_ok h
  obtain ⟨payloadLen, hlen, h⟩ := except_bind_ok h
  obtain ⟨numNamed, hnum, h⟩ := except_bind_ok h
  obtain ⟨namedBytes, hnamed, h⟩ := except_bind_ok h
  obtain ⟨sparse, hsparse, h⟩ := except_bind_ok h
  cases h
  obtain ⟨hidLt, rfl⟩ := putLen_ok hid
  obtain ⟨hvecLt, rfl⟩ := putLen_ok hvec
  obtain ⟨hlenLt, rfl⟩ := putLen_ok hlen
  obtain ⟨hnumLt, rfl⟩ := putLen_ok hnum
  have hmarshal := putPayload_ok hpayload
  have hversion : p.version.toNat < 256 ^ 8 := p.version.toNat_lt
  have hread : ∀ rest, (∀ x ∈ named, NamedFits x) ∧
      readNamed J named.length [] (namedBytes ++ rest) = .value (named, rest) :=
    fun rest => readNamed_append hJ hnamed (by simpa using hkeys) rest
  refine ⟨⟨hidLt, hvecLt, ⟨payload, hmarshal, hlenLt⟩, hnumLt, (hread []).1⟩, sparse, hsparse, ?_⟩
  simp only [decode, readWord_append hidLt, readBytes_append rfl, readWord_append hvecLt, putFloats,
    readFloats_write hJ, readPayload_write hJ hmarshal hlenLt, readWord_append hnumLt, Outcome.value_bind,
    orOld, (hread _).2, readWord_append hversion, UInt64.ofNat_toNat]

/-- **A point comes back just if its parts fit:** there is room for the lengths, as many sparse values as
    indices, and no multi-vectors. -/
theorem point_comes_back_iff (hJ : J.Lossless)
    (hkeys : (p.namedVectors.map Prod.fst).Nodup) (horder : named.Perm p.namedVectors) :
    (∃ b q, encode J p named = .ok b ∧ decode J b = .value q ∧ q.Same p) ↔ PointFits J p := by
  have hkeys' : (named.map Prod.fst).Nodup := (horder.map Prod.fst).nodup_iff.mpr hkeys
  constructor
  · intro ⟨b, q, henc, hdec, hsame⟩
    obtain ⟨⟨hid, hvec, hpay, hnum, hnamed⟩, sparse, hput, hread⟩ := decode_encode hJ hkeys' henc
    rw [hread] at hdec
    obtain ⟨hmulti, hsparse⟩ := (readSparse_putSparse hJ hput rfl).1 q hdec
    refine ⟨hid, hvec, hpay, horder.length_eq ▸ hnum, fun x hx => hnamed x (horder.mem_iff.mpr hx),
      hsparse hsame.sparse, ?_⟩
    have hnone := hsame.multi
    rw [hmulti] at hnone
    exact hnone.nil_eq.symm
  · intro h
    obtain ⟨payload, hmarshal, hlen⟩ := h.payload
    obtain ⟨namedBytes, hnamed⟩ := putNamed_of_fits (J := J) fun x hx => h.named x (horder.mem_iff.mp hx)
    obtain ⟨sparse, hsparse⟩ : ∃ sparse, putSparse J p.sparse = .ok sparse := by
      cases hs : p.sparse with
      | none => exact ⟨_, rfl⟩
      | some s => exact ⟨_, by rw [putSparse, putLen_of_lt (h.sparse s hs).1]; rfl⟩
    have hcount : named.length < 256 ^ 2 := horder.length_eq ▸ h.count
    obtain ⟨b, henc⟩ : ∃ b, encode J p named = .ok b := by
      simp only [encode, putLen_of_lt h.id, putLen_of_lt h.vector, putPayload, hmarshal, putLen_of_lt hlen,
        putLen_of_lt hcount, hnamed, hsparse, bind, Except.bind]
      exact ⟨_, rfl⟩
    obtain ⟨-, sparse', hput, hread⟩ := decode_encode hJ hkeys' henc
    refine ⟨b, _, henc, hread.trans ((readSparse_putSparse hJ hput rfl).2 fun s hs => (h.sparse s hs).2), ?_⟩
    exact ⟨rfl, rfl, rfl, horder, rfl, h.multi ▸ Perm.refl _, rfl⟩

end RoundTrip

def plainPoint : FullPoint UInt32 Bytes :=
  ⟨⟨[49], [1, 2], some [120], [([97], [3])], some ⟨[7], [4]⟩⟩, [], 3⟩

theorem point_comes_back_iff_plain : ∃ b q,
    encode Snapshot.plainCoding plainPoint [([97], [3])] = .ok b ∧
      decode Snapshot.plainCoding b = .value q ∧ q.Same plainPoint := by
  refine (point_comes_back_iff Snapshot.plainCoding_lossless (by decide) (Perm.refl _)).mpr ?_
  exact ⟨by decide, by decide, ⟨_, rfl, by decide⟩, by decide, by simp [plainPoint, NamedFits],
    by rintro s ⟨⟩; decide, rfl⟩

@[reducible] def wordScalar : Scalar UInt32 where
  zero := 0
  isZero x := x == 0
  sqrt x := x
  finite _ := true

def longPoint : FullPoint UInt32 Bytes := ⟨⟨replicate 65536 49, [1], none, [], none⟩, [], 1⟩

def multiPoint : FullPoint UInt32 Bytes := ⟨⟨[49], [1], none, [], none⟩, [([99], [[5]])], 3⟩

/-- The first is refused, and the second comes back without its multi-vector. -/
theorem point_comes_back_fails : (@Point.validate _ _ wordScalar longPoint.toPoint = .ok () ∧
      encode Snapshot.plainCoding longPoint [] = .error .idTooLong) ∧
    @Point.validate _ _ wordScalar multiPoint.toPoint = .ok () ∧
    ∃ b, encode Snapshot.plainCoding multiPoint [] = .ok b ∧
      decode Snapshot.plainCoding b = .value { multiPoint with multiVectors := [] } := by
  have hlen : longPoint.id.length = 65536 := length_replicate
  refine ⟨⟨rfl, ?_⟩, rfl, _, rfl, rfl⟩
  rw [encode, putLen, hlen]
  rfl

end LimyeDB.PointCodec
