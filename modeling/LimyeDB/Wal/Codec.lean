/-
  WHAT THE FRAME READER DOES ON ANY STREAM, and on the writer's frames.
-/
import LimyeDB.Wal.Record

namespace LimyeDB.Wal

open Go List Outcome

/-! ## The reader on any stream -/

def lengthWord (s : Bytes) : Nat := leNat (s.take 4)

variable {s buf : Bytes} {r : Record}

theorem lengthWord_lt (h : 4 ≤ s.length) : lengthWord s < 2 ^ 32 := by
  have hlt := leNat_lt (s.take 4)
  rw [length_take, Nat.min_eq_left h] at hlt
  exact hlt

theorem decodeRecord_nil : decodeRecord [] = .error (.io .eof) := rfl

theorem decodeRecord_cut_length (h : s.length < 4) (hne : s ≠ []) :
    decodeRecord s = .error (.io .unexpectedEOF) := by
  unfold decodeRecord
  rw [readFull_short h hne]
  rfl

theorem decodeRecord_of_length (h : 4 ≤ s.length) :
    decodeRecord s = ((readFull (s.drop 4) ((lengthWord s + 4) % 2 ^ 32)).mapError .io >>=
      fun br => decodePayload (lengthWord s) br.1 >>= fun r => .value (r, br.2)) := by
  have hw : (leWord 4 (s.take 4) : Outcome DecodeError Nat) = .value (lengthWord s) :=
    leWord_of_length (by rw [length_take]; omega)
  unfold decodeRecord
  rw [readFull_of_le h, mapError_value, value_bind]
  simp only [hw, value_bind]
  rfl

theorem decodeRecord_cut_payload (h : 4 ≤ s.length)
    (hb : s.length - 4 < (lengthWord s + 4) % 2 ^ 32) :
    decodeRecord s = .error (.io (if s.length = 4 then .eof else .unexpectedEOF)) := by
  rw [decodeRecord_of_length h]
  by_cases h4 : s.length = 4
  · have hnil : s.drop 4 = [] := drop_eq_nil_of_le (by omega)
    rw [hnil, readFull_nil (by omega), if_pos h4]
    rfl
  · have hne : s.drop 4 ≠ [] := by
      intro e
      have := congrArg length e
      rw [length_drop, length_nil] at this
      omega
    rw [readFull_short (by rw [length_drop]; exact hb) hne, if_neg h4]
    rfl

theorem decodeRecord_of_payload (h : 4 ≤ s.length) (hb : (lengthWord s + 4) % 2 ^ 32 ≤ s.length - 4) :
    decodeRecord s = (decodePayload (lengthWord s)
      ((s.drop 4).take ((lengthWord s + 4) % 2 ^ 32)) >>=
        fun r => .value (r, (s.drop 4).drop ((lengthWord s + 4) % 2 ^ 32))) := by
  rw [decodeRecord_of_length h, readFull_of_le (by rw [length_drop]; exact hb)]
  rfl

theorem decodePayload_wrapped {length : Nat} (h : buf.length < length) :
    decodePayload length buf = .panic := by
  unfold decodePayload
  rw [slice, if_neg (by omega)]
  rfl

/-- The checksum the frame carries and the checksum of its payload. -/
def ChecksumOk (length : Nat) (buf : Bytes) : Prop :=
  leNat (buf.drop length) = (checksumIEEE (buf.take length)).toNat

instance (length : Nat) (buf : Bytes) : Decidable (ChecksumOk length buf) := by
  unfold ChecksumOk; infer_instance

theorem decodePayload_eq {length : Nat} (h : buf.length = length + 4) : decodePayload length buf =
      if ChecksumOk length buf then decodeFields buf else .error .crcMismatch := by
  have hdrop : (buf.drop length).length = 4 := by rw [length_drop]; omega
  have hcrc : (slice buf length buf.length : Outcome DecodeError Bytes) =
      .value (buf.drop length) := by
    rw [slice_of_le (by omega) (by omega), take_of_length_le (by omega)]
  have hpay : (slice buf 0 length : Outcome DecodeError Bytes) = .value (buf.take length) := by
    rw [slice_of_le (by omega) (by omega)]
    simp
  unfold decodePayload
  simp only [hcrc, hpay, leWord_of_length hdrop, value_bind, ne_eq, ite_not]
  rfl

/-- The two length words inside the payload, and the fields they announce, lie in the buffer. -/
def FieldsFit (buf : Bytes) : Prop :=
  19 ≤ buf.length ∧ 23 + leNat ((buf.drop 17).take 2) ≤ buf.length ∧
    23 + leNat ((buf.drop 17).take 2) +
      leNat ((buf.drop (19 + leNat ((buf.drop 17).take 2))).take 4) ≤ buf.length

instance (buf : Bytes) : Decidable (FieldsFit buf) := by unfold FieldsFit; infer_instance

def fieldsOf (buf : Bytes) : Record :=
  let collLen := leNat ((buf.drop 17).take 2)
  let dataLen := leNat ((buf.drop (19 + collLen)).take 4)
  { seqNum := UInt64.ofNat (leNat ((buf.drop 1).take 8))
    type := buf.headD 0
    collection := (buf.drop 19).take collLen
    data := (buf.drop (23 + collLen)).take dataLen
    timestamp := safeUint64ToInt64 (UInt64.ofNat (leNat ((buf.drop 9).take 8))) }

theorem decodeFields_eq (buf : Bytes) :
    decodeFields buf = if FieldsFit buf then .value (fieldsOf buf) else .panic := by
  unfold decodeFields
  cases buf with
  | nil => rw [if_neg (by simp [FieldsFit])]; rfl
  | cons t buf' =>
    have ht : (byteAt (t :: buf') 0 : Outcome DecodeError UInt8) = .value t := rfl
    rw [ht, value_bind]
    generalize hb : t :: buf' = buf
    have hhead : buf.headD 0 = t := by rw [← hb]; rfl
    rw [slice_leWord buf 1 8, slice_leWord buf 9 8, slice_leWord buf 17 2]
    -- the reader meets the bounds in this order, so the cases follow it
    by_cases h19 : 19 ≤ buf.length
    · rw [if_pos (by omega), if_pos (by omega), if_pos h19, slice_add]
      set collLen := leNat ((buf.drop 17).take 2) with hcl
      by_cases hc : 23 + collLen ≤ buf.length
      · rw [if_pos (by omega), value_bind, slice_leWord, if_pos (by omega), slice_add]
        by_cases hd : 23 + collLen + leNat ((buf.drop (19 + collLen)).take 4) ≤ buf.length
        · rw [if_pos hd, if_pos (show FieldsFit buf from ⟨h19, hc, hd⟩), value_bind, fieldsOf,
            hhead]
          rfl
        · rw [if_neg hd, if_neg (fun h : FieldsFit buf => hd h.2.2)]
          rfl
      · rw [if_neg (fun h : FieldsFit buf => hc h.2.1)]
        by_cases hc' : 19 + collLen ≤ buf.length
        · rw [if_pos hc', value_bind, slice_leWord, if_neg (by omega)]
        · rw [if_neg hc']
          rfl
    · rw [if_neg (fun h : FieldsFit buf => h19 h.1)]
      by_cases h9 : 1 + 8 ≤ buf.length
      · rw [if_pos h9]
        by_cases h17 : 9 + 8 ≤ buf.length
        · rw [if_pos h17, if_neg (by omega)]
        · rw [if_neg h17]
      · rw [if_neg h9]

/-! ## When the reader panics -/

/-- The stream ends before the frame at its head does. -/
def CutShort (s : Bytes) : Prop :=
  s.length < 4 ∨ s.length - 4 < (lengthWord s + 4) % 2 ^ 32

/-- What follows the length word of a complete frame: the payload and its checksum. -/
def payload (s : Bytes) : Bytes := (s.drop 4).take (lengthWord s + 4)

/-- A complete frame at the head of the stream whose checksum matches and whose fields fit. -/
structure GoodHead (s : Bytes) : Prop where
  complete : ¬ CutShort s
  noWrap : lengthWord s + 4 < 2 ^ 32
  checksum : ChecksumOk (lengthWord s) (payload s)
  fields : FieldsFit (payload s)

/-- The frame is cut short, or its length word leaves room for the checksum and either the checksum is wrong
    or the fields fit. -/
def SafeFrame (s : Bytes) : Prop :=
  CutShort s ∨ (lengthWord s + 4 < 2 ^ 32 ∧
    (ChecksumOk (lengthWord s) (payload s) → FieldsFit (payload s)))

instance (s : Bytes) : Decidable (CutShort s) := by unfold CutShort; infer_instance

instance (s : Bytes) : Decidable (SafeFrame s) := by unfold SafeFrame; infer_instance

section Head

variable {s : Bytes}

theorem decodeRecord_cutShort (h : CutShort s) : ∃ e, decodeRecord s = .error (.io e) := by
  by_cases h4 : s.length < 4
  · by_cases hne : s = []
    · subst hne
      exact ⟨_, decodeRecord_nil⟩
    · exact ⟨_, decodeRecord_cut_length h4 hne⟩
  · exact ⟨_, decodeRecord_cut_payload (by omega) (h.resolve_left h4)⟩

theorem decodeRecord_wraps (h : ¬ CutShort s) (hw : ¬ lengthWord s + 4 < 2 ^ 32) :
    decodeRecord s = .panic := by
  have hlt := lengthWord_lt (s := s) (by unfold CutShort at h; omega)
  have hshort : ((s.drop 4).take ((lengthWord s + 4) % 2 ^ 32)).length < lengthWord s := by
    rw [length_take]
    omega
  unfold CutShort at h
  rw [decodeRecord_of_payload (by omega) (by omega), decodePayload_wrapped hshort]
  rfl

theorem decodeRecord_complete (h : ¬ CutShort s) (hw : lengthWord s + 4 < 2 ^ 32) :
    decodeRecord s = if ChecksumOk (lengthWord s) (payload s) then
        if FieldsFit (payload s) then .value (fieldsOf (payload s), s.drop (lengthWord s + 8))
        else .panic
      else .error .crcMismatch := by
  unfold CutShort at h
  have hlen : (payload s).length = lengthWord s + 4 := by
    rw [payload, length_take, length_drop]
    omega
  have hpay := decodePayload_eq hlen
  unfold payload at hpay ⊢
  rw [decodeRecord_of_payload (by omega) (by omega), Nat.mod_eq_of_lt hw, hpay, decodeFields_eq,
    drop_drop, show 4 + (lengthWord s + 4) = lengthWord s + 8 by omega]
  split
  · split <;> rfl
  · rfl

theorem decodeRecord_ne_panic_iff : decodeRecord s ≠ .panic ↔ SafeFrame s := by
  unfold SafeFrame
  by_cases h : CutShort s
  · obtain ⟨e, he⟩ := decodeRecord_cutShort h
    rw [he]
    exact iff_of_true (by simp) (.inl h)
  rw [or_iff_right h]
  by_cases hw : lengthWord s + 4 < 2 ^ 32
  · rw [decodeRecord_complete h hw, and_iff_right hw]
    by_cases hc : ChecksumOk (lengthWord s) (payload s)
    · by_cases hf : FieldsFit (payload s)
      · rw [if_pos hc, if_pos hf]
        exact iff_of_true (by simp) fun _ => hf
      · rw [if_pos hc, if_neg hf]
        exact iff_of_false (by simp) fun himp => hf (himp hc)
    · rw [if_neg hc]
      exact iff_of_true (by simp) fun hc' => absurd hc' hc
  · rw [decodeRecord_wraps h hw]
    exact iff_of_false (by simp) fun himp => hw himp.1

theorem decodeRecord_eq_value_iff {r : Record} {rest : Bytes} : decodeRecord s = .value (r, rest) ↔
      GoodHead s ∧ r = fieldsOf (payload s) ∧ rest = s.drop (lengthWord s + 8) := by
  constructor
  · intro hd
    by_cases h : CutShort s
    · obtain ⟨e, he⟩ := decodeRecord_cutShort h
      rw [he] at hd
      cases hd
    by_cases hw : lengthWord s + 4 < 2 ^ 32
    · rw [decodeRecord_complete h hw] at hd
      by_cases hc : ChecksumOk (lengthWord s) (payload s)
      · by_cases hf : FieldsFit (payload s)
        · rw [if_pos hc, if_pos hf] at hd
          cases hd
          exact ⟨⟨h, hw, hc, hf⟩, rfl, rfl⟩
        · rw [if_pos hc, if_neg hf] at hd
          cases hd
      · rw [if_neg hc] at hd
        cases hd
    · rw [decodeRecord_wraps h hw] at hd
      cases hd
  · rintro ⟨⟨h, hw, hc, hf⟩, rfl, rfl⟩
    rw [decodeRecord_complete h hw, if_pos hc, if_pos hf]

end Head

/-! ## The round trip -/

/-- Accepted by the writer, with four bytes to spare below `2 ^ 32` for the checksum, and with a time that is
    not negative. -/
structure Fits (r : Record) : Prop where
  name : r.collection.length ≤ maxUint16
  size : totalLen r + 4 < 2 ^ 32
  time : 0 ≤ r.timestamp

instance (r : Record) : Decidable (Fits r) :=
  decidable_of_iff (r.collection.length ≤ maxUint16 ∧ totalLen r + 4 < 2 ^ 32 ∧ 0 ≤ r.timestamp)
    ⟨fun h => ⟨h.1, h.2.1, h.2.2⟩, fun h => ⟨h.name, h.size, h.time⟩⟩

theorem safeUint64ToInt64_safeInt64ToUint64 {t : Int64} (h : 0 ≤ t) :
    safeUint64ToInt64 (safeInt64ToUint64 t) = t := by
  have hmax : t ≤ (9223372036854775807 : Int64) := by
    have hlt := t.toInt_lt
    rw [Int64.le_iff_toInt_le]
    show t.toInt ≤ 9223372036854775807
    omega
  have hle : t.toUInt64 ≤ 9223372036854775807 := Int64.toUInt64_le h hmax
  unfold safeInt64ToUint64 safeUint64ToInt64
  rw [if_neg (Int64.not_lt.mpr h), if_neg (UInt64.not_lt.mpr hle), Int64.toInt64_toUInt64]

theorem field_append {a m c : Bytes} {lo n : Nat} (hb : buf = a ++ (m ++ c)) (hlo : a.length = lo)
    (hn : m.length = n) : (buf.drop lo).take n = m := by
  subst hb hlo hn
  simp

section Body

variable {r : Record} (c : Bytes)

theorem body_collLen (h : r.collection.length ≤ maxUint16) :
    leNat (((body r ++ c).drop 17).take 2) = r.collection.length := by
  rw [field_append (a := [r.type] ++ leBytes 8 r.seqNum.toNat ++
    leBytes 8 (safeInt64ToUint64 r.timestamp).toNat) (m := leBytes 2 r.collection.length)
    (c := r.collection ++ (leBytes 4 r.data.length ++ (r.data ++ c))) (by simp [body]) (by simp)
    (by simp)]
  exact leNat_leBytes (by unfold maxUint16 at h; omega)

theorem body_dataLen (h : r.data.length < 2 ^ 32) :
    leNat (((body r ++ c).drop (19 + r.collection.length)).take 4) = r.data.length := by
  rw [field_append (a := [r.type] ++ leBytes 8 r.seqNum.toNat ++
    leBytes 8 (safeInt64ToUint64 r.timestamp).toNat ++ leBytes 2 r.collection.length ++
    r.collection) (m := leBytes 4 r.data.length) (c := r.data ++ c) (by simp [body])
    (by simp; omega) (by simp)]
  exact leNat_leBytes (by omega)

end Body

theorem Fits.data (h : Fits r) : r.data.length < 2 ^ 32 := by
  have := h.size
  unfold totalLen at this
  omega

theorem fieldsFit_body (h : Fits r) (c : Bytes) : FieldsFit (body r ++ c) := by
  unfold FieldsFit
  rw [body_collLen c h.name, body_dataLen c h.data, length_append, body_length]
  unfold totalLen
  omega

theorem fieldsOf_body (h : Fits r) (c : Bytes) : fieldsOf (body r ++ c) = r := by
  have hseq : ((body r ++ c).drop 1).take 8 = leBytes 8 r.seqNum.toNat :=
    field_append (a := [r.type]) (m := leBytes 8 r.seqNum.toNat)
      (by simp only [body, append_assoc]; rfl) rfl (by simp)
  have htime : ((body r ++ c).drop 9).take 8 =
      leBytes 8 (safeInt64ToUint64 r.timestamp).toNat :=
    field_append (a := [r.type] ++ leBytes 8 r.seqNum.toNat)
      (by simp only [body, append_assoc]; rfl) (by simp) (by simp)
  have hcoll : ((body r ++ c).drop 19).take r.collection.length = r.collection :=
    field_append (a := [r.type] ++ leBytes 8 r.seqNum.toNat ++
      leBytes 8 (safeInt64ToUint64 r.timestamp).toNat ++ leBytes 2 r.collection.length)
      (by simp only [body, append_assoc]; rfl) (by simp) rfl
  have hdata : ((body r ++ c).drop (23 + r.collection.length)).take r.data.length = r.data :=
    field_append (a := [r.type] ++ leBytes 8 r.seqNum.toNat ++
      leBytes 8 (safeInt64ToUint64 r.timestamp).toNat ++ leBytes 2 r.collection.length ++
      r.collection ++ leBytes 4 r.data.length)
      (by simp only [body, append_assoc]; rfl) (by simp; omega) rfl
  have hs : leNat (leBytes 8 r.seqNum.toNat) = r.seqNum.toNat :=
    leNat_leBytes (by have := r.seqNum.toNat_lt; omega)
  have ht : leNat (leBytes 8 (safeInt64ToUint64 r.timestamp).toNat) =
      (safeInt64ToUint64 r.timestamp).toNat :=
    leNat_leBytes (by have := (safeInt64ToUint64 r.timestamp).toNat_lt; omega)
  unfold fieldsOf
  simp only [body_collLen c h.name, body_dataLen c h.data, hseq, htime, hcoll, hdata, hs, ht,
    UInt64.ofNat_toNat, safeUint64ToInt64_safeInt64ToUint64 h.time]
  rfl

/-! ## The reader on the writer's frames -/

theorem lengthWord_frame (r : Record) (rest : Bytes) (h : totalLen r < 2 ^ 32) :
    lengthWord (frame r ++ rest) = totalLen r := by
  unfold lengthWord
  have htake : (frame r ++ rest).take 4 = leBytes 4 (totalLen r) := by
    rw [frame, append_assoc, append_assoc, take_append_of_le_length (by simp),
      take_of_length_le (by simp)]
  rw [htake]
  exact leNat_leBytes (by omega)

theorem frame_payload (r : Record) (rest : Bytes) : (frame r ++ rest).drop 4 =
      (body r ++ leBytes 4 (checksumIEEE (body r)).toNat) ++ rest := by
  rw [frame, append_assoc, append_assoc, drop_append_of_le_length (by simp),
    drop_of_length_le (by simp), nil_append, append_assoc]

theorem checksumOk_body (r : Record) :
    ChecksumOk (totalLen r) (body r ++ leBytes 4 (checksumIEEE (body r)).toNat) := by
  have hlt : (checksumIEEE (body r)).toNat < 256 ^ 4 := (checksumIEEE (body r)).toNat_lt
  unfold ChecksumOk
  rw [← body_length r, drop_left, take_left, leNat_leBytes hlt]

theorem decodeRecord_frame (h : Fits r) (rest : Bytes) :
    decodeRecord (frame r ++ rest) = .value (r, rest) := by
  have hword := lengthWord_frame r rest (by have := h.size; omega)
  have hlen : (body r ++ leBytes 4 (checksumIEEE (body r)).toNat).length = totalLen r + 4 := by
    simp
  rw [decodeRecord_of_payload (by simp; omega)
    (by rw [hword, Nat.mod_eq_of_lt h.size]; simp; omega), hword, Nat.mod_eq_of_lt h.size,
    frame_payload, ← hlen, take_left, drop_left, decodePayload_eq hlen,
    if_pos (checksumOk_body r), decodeFields_eq, if_pos (fieldsFit_body h _), fieldsOf_body h]
  rfl

/-- Adding the checksum's four bytes to the length wraps, and the reader panics, whatever follows the frame.
    -/
theorem decodeRecord_frame_panic (h : totalLen r < 2 ^ 32) (hbig : 2 ^ 32 ≤ totalLen r + 4)
    (rest : Bytes) : decodeRecord (frame r ++ rest) = .panic := by
  have hword := lengthWord_frame r rest h
  have hmod : (totalLen r + 4) % 2 ^ 32 ≤ 3 := by omega
  rw [decodeRecord_of_payload (by simp; omega) (by rw [hword]; simp; omega), hword,
    decodePayload_wrapped (by rw [length_take]; omega)]
  rfl

theorem lengthWord_prefix {p : Bytes} (hp : p <+: frame r) (h4 : 4 ≤ p.length)
    (h : totalLen r < 2 ^ 32) : lengthWord p = totalLen r := by
  obtain ⟨t, ht⟩ := hp
  have hword := lengthWord_frame r [] h
  rw [append_nil, ← ht] at hword
  unfold lengthWord at hword ⊢
  rwa [take_append_of_le_length h4] at hword

/-- **Every strict prefix of a frame is an end of input**, a clean one only at the first byte or right behind
    the length word. -/
theorem decodeRecord_prefix (h : Fits r) {p : Bytes} (hp : p <+: frame r)
    (hlt : p.length < (frame r).length) : decodeRecord p =
      .error (.io (if p.length = 0 ∨ p.length = 4 then .eof else .unexpectedEOF)) := by
  by_cases h4 : 4 ≤ p.length
  · have hword := lengthWord_prefix hp h4 (by have := h.size; omega)
    have hcut : p.length - 4 < (lengthWord p + 4) % 2 ^ 32 := by
      rw [hword, Nat.mod_eq_of_lt h.size]
      rw [frame_length] at hlt
      omega
    rw [decodeRecord_cut_payload h4 hcut]
    by_cases he : p.length = 4
    · rw [if_pos he, if_pos (.inr he)]
    · rw [if_neg he, if_neg (by omega)]
  · by_cases hne : p = []
    · subst hne
      rfl
    · have hpos : p.length ≠ 0 := by simpa using hne
      rw [decodeRecord_cut_length (by omega) hne, if_neg (by omega)]

/-- **Reading back what the writer accepted.** The frame gives the record back, and every strict prefix is an
    end of input, exactly if name and data together are shorter than 4294967269 bytes. -/
theorem decode_encode_iff (r : Record) (b : Bytes) (ht : 0 ≤ r.timestamp)
    (hb : encodeRecord r = .ok b) :
    ((∀ rest, decodeRecord (b ++ rest) = .value (r, rest)) ∧
      ∀ p, p <+: b → p ≠ b → ∃ e, decodeRecord p = .error (.io e)) ↔
    r.collection.length + r.data.length < 4294967269 := by
  obtain ⟨hacc, rfl⟩ := (encodeRecord_eq r b).mp hb
  have hlt : totalLen r < 2 ^ 32 := by
    have := hacc.2
    unfold maxUint32 at this
    omega
  constructor
  · rintro ⟨hread, -⟩
    by_contra hbig
    have hpanic := decodeRecord_frame_panic hlt (by unfold totalLen; omega) []
    rw [hread []] at hpanic
    cases hpanic
  · intro hsmall
    have hfits : Fits r := ⟨hacc.1, by unfold totalLen; omega, ht⟩
    refine ⟨decodeRecord_frame hfits, fun p hp hne => ⟨_, decodeRecord_prefix hfits hp ?_⟩⟩
    exact lt_of_le_of_ne hp.length_le fun e => hne (hp.eq_of_length e)

theorem decode_encode_small :
    (∀ rest, decodeRecord (frame ⟨1, RecordType.insert, [99], [7, 8], 5⟩ ++ rest) =
        .value (⟨1, RecordType.insert, [99], [7, 8], 5⟩, rest)) ∧
      ∀ p, p <+: frame ⟨1, RecordType.insert, [99], [7, 8], 5⟩ →
        p ≠ frame ⟨1, RecordType.insert, [99], [7, 8], 5⟩ → ∃ e, decodeRecord p = .error (.io e) :=
  (decode_encode_iff ⟨1, RecordType.insert, [99], [7, 8], 5⟩ _ (by decide)
    ((encodeRecord_eq _ _).mpr ⟨by decide, rfl⟩)).mpr (by decide)

/-- A record without a collection name that holds `n` zero bytes. -/
def zeroRecord (n : Nat) : Record := ⟨1, RecordType.insert, [], replicate n 0, 0⟩

theorem totalLen_zeroRecord (n : Nat) : totalLen (zeroRecord n) = 23 + n := by
  simp [totalLen, zeroRecord]

/-- **The writer accepts a record on whose frame the reader panics.** -/
theorem decode_encode_wraps : 0 ≤ (zeroRecord 4294967269).timestamp ∧
    ∃ b, encodeRecord (zeroRecord 4294967269) = .ok b ∧ decodeRecord b = .panic := by
  have htotal := totalLen_zeroRecord 4294967269
  refine ⟨show (0 : Int64) ≤ 0 by decide, frame (zeroRecord 4294967269),
    (encodeRecord_eq _ _).mpr ⟨⟨Nat.zero_le _, ?_⟩, rfl⟩, ?_⟩
  · rw [htotal]
    decide
  · have hpanic := decodeRecord_frame_panic
      (by rw [htotal]; decide) (by rw [htotal]; decide) []
    rwa [append_nil] at hpanic

theorem decodeRecord_progress : Frames.Progress decodeRecord := by
  intro s r rest h
  obtain ⟨hgood, -, rfl⟩ := decodeRecord_eq_value_iff.mp h
  have hc := hgood.complete
  unfold CutShort at hc
  rw [length_drop]
  omega

theorem decodeRecord_reads : Frames.Reads decodeRecord frame Fits :=
  fun _ h rest => decodeRecord_frame h rest

end LimyeDB.Wal
