/-
  API KEYS (pkg/security/security.go): the manager's table of pointers over the slice of keys in its
  configuration.

  `RevokeKey` closes the gap in the slice by moving the later records down, in the same array.
-/
import LimyeDB.Lib.Runs
import LimyeDB.Lib.Slices

namespace LimyeDB.Security

open LimyeDB.Lib.Runs List Function AList
open LimyeDB.Lib.Slices

/-! ## The manager -/

structure APIKey where
  key         : String
  name        : String
  permissions : List String
  createdAt   : Int
  /-- `none` is the zero time. -/
  expiresAt   : Option Int
  rateLimit   : Int
  deriving DecidableEq, Repr

def APIKey.zero : APIKey :=
  { key := "", name := "", permissions := [], createdAt := 0, expiresAt := none, rateLimit := 0 }

structure RateLimitEntry where
  count     : Int
  resetTime : Int
  deriving DecidableEq, Repr

inductive Error where
  | authDisabled
  | keyRequired
  | invalidKey
  | keyExpired
  | rateLimitExceeded (limit : Int)
  | rateLimitUnavailable
  | keyExists
  | keyNotFound
  deriving DecidableEq, Repr

/-- The hash values `H` stand for the hexadecimal SHA-256 sums. Times are in nanoseconds. -/
structure APIKeyManager (H : Type) [DecidableEq H] where
  enabled    : Bool
  headerName : String
  queryParam : String
  heap       : Heap APIKey
  configKeys : Slice
  keys       : AList fun _ : H => Slot
  rateLimits : AList fun _ : H => RateLimitEntry

def maxRateLimitEntries : Nat := 100000

def rateWindow : Int := 60000000000

section Manager

variable {H : Type} [DecidableEq H] (hash : String → H) (spare : Nat → Nat)

/-- `keys` is `config.Keys` and `free` what its array has behind them. -/
def newAPIKeyManager (enabled : Bool) (headerName queryParam : String) (keys free : List APIKey) :
    APIKeyManager H where
  enabled := enabled
  headerName := headerName
  queryParam := queryParam
  heap := [keys ++ free]
  configKeys := ⟨0, keys.length⟩
  keys := keys.zipIdx.foldl (fun table r => table.insert (hash r.1.key) ⟨0, r.2⟩) ∅
  rateLimits := ∅

/-- Expired entries are deleted until there is room, in the order in which the map is gone through. -/
def evictExpired (now : Int) : List (Sigma fun _ : H => RateLimitEntry) →
    (AList fun _ : H => RateLimitEntry) → AList fun _ : H => RateLimitEntry
  | [], limits => limits
  | ⟨key, entry⟩ :: rest, limits =>
    let limits := if entry.resetTime < now then limits.erase key else limits
    if limits.entries.length < maxRateLimitEntries then limits else evictExpired now rest limits

namespace APIKeyManager

def openWindow (m : APIKeyManager H) (hashedKey : H) (now : Int) : Option Error × APIKeyManager H :=
  let limits :=
    if maxRateLimitEntries ≤ m.rateLimits.entries.length then
      evictExpired now m.rateLimits.entries m.rateLimits
    else m.rateLimits
  if maxRateLimitEntries ≤ limits.entries.length then
    (some .rateLimitUnavailable, { m with rateLimits := limits })
  else (none, { m with rateLimits := limits.insert hashedKey ⟨1, now + rateWindow⟩ })

def checkRateLimit (m : APIKeyManager H) (hashedKey : H) (limit now : Int) :
    Option Error × APIKeyManager H :=
  match m.rateLimits.lookup hashedKey with
  | none => m.openWindow hashedKey now
  | some entry =>
    if entry.resetTime < now then m.openWindow hashedKey now
    else if limit ≤ entry.count then (some (.rateLimitExceeded limit), m)
    else
      let limits := m.rateLimits.insert hashedKey { entry with count := entry.count + 1 }
      (none, { m with rateLimits := limits })

def cleanupExpiredRateLimits (m : APIKeyManager H) (now : Int) : APIKeyManager H :=
  let limits := m.rateLimits.entries.foldl
    (fun limits e => if e.2.resetTime < now then limits.erase e.1 else limits) m.rateLimits
  { m with rateLimits := limits }

def authenticate (m : APIKeyManager H) (key : String) (now : Int) :
    Except Error APIKey × APIKeyManager H :=
  if !m.enabled then (.error .authDisabled, m)
  else if key = "" then (.error .keyRequired, m)
  else
    -- The table gives a pointer; the record is read through it.
    match (m.keys.lookup (hash key)).bind m.heap.read with
    | none => (.error .invalidKey, m)
    | some apiKey =>
      if apiKey.expiresAt.any (· < now) then (.error .keyExpired, m)
      else if 0 < apiKey.rateLimit then
        match m.checkRateLimit (hash key) apiKey.rateLimit now with
        | (some e, m) => (.error e, m)
        | (none, m) => (.ok apiKey, m)
      else (.ok apiKey, m)

def hasPermission (m : APIKeyManager H) (apiKey : Option APIKey) (permission : String) : Bool :=
  match apiKey with
  | none => !m.enabled
  | some apiKey => apiKey.permissions.any fun p => p == permission || p == "admin"

def addKey (m : APIKeyManager H) (key : APIKey) (now : Int) : Option Error × APIKeyManager H :=
  if (m.keys.lookup (hash key.key)).isSome then (some .keyExists, m)
  else
    let key := { key with createdAt := now }
    let (heap, p) := m.heap.alloc [key]
    let (heap, configKeys) := append APIKey.zero spare heap m.configKeys key
    (none, { m with heap, configKeys, keys := m.keys.insert (hash key.key) p })

def revokeKey (m : APIKeyManager H) (key : String) : Option Error × APIKeyManager H :=
  if (m.keys.lookup (hash key)).isNone then (some .keyNotFound, m)
  else
    let (heap, configKeys) := filterInPlace APIKey.zero spare
      (fun k => decide (hash k.key ≠ hash key)) m.heap m.configKeys
    (none, { m with heap, configKeys, keys := m.keys.erase (hash key) })

end APIKeyManager

/-! ## Runs, and what is registered -/

inductive Op where
  | addKey (key : APIKey) (now : Int)
  | revokeKey (key : String)
  | authenticate (key : String) (now : Int)
  | cleanup (now : Int)

def step (m : APIKeyManager H) : Op → Option (APIKeyManager H)
  | .addKey key now => some (m.addKey hash spare key now).2
  | .revokeKey key => some (m.revokeKey hash spare key).2
  | .authenticate key now => some (m.authenticate hash key now).2
  | .cleanup now => some (m.cleanupExpiredRateLimits now)

end Manager

abbrev Registry := String → Option APIKey

def Registry.step (reg : Registry) : Op → Registry
  | .addKey key now =>
    if (reg key.key).isSome then reg
    else update reg key.key (some { key with createdAt := now })
  | .revokeKey key => update reg key none
  | .authenticate _ _ => reg
  | .cleanup _ => reg

def registry (keys : List APIKey) (ops : List Op) : Registry :=
  ops.foldl Registry.step fun k => keys.find? fun r => r.key = k

theorem registry_concat (keys : List APIKey) (ops : List Op) (op : Op) :
    registry keys (ops ++ [op]) = (registry keys ops).step op := by
  simp [registry, foldl_append]

/-! ## The invariant -/

def APIKey.Unlimited (r : APIKey) : Prop := r.expiresAt = none ∧ r.rateLimit ≤ 0

instance (r : APIKey) : Decidable r.Unlimited := inferInstanceAs (Decidable (_ ∧ _))

def Op.Within (K : Set String) : Op → Prop
  | .addKey key _ => key.key ∈ K ∧ key.Unlimited
  | .revokeKey key => key ∈ K
  | .authenticate _ _ => True
  | .cleanup _ => True

section Invariant

variable {H : Type} [DecidableEq H] (hash : String → H) {spare : Nat → Nat} {K : Set String}

/-- **Table, slice and registry agree**: the slice lists the registered records, and the table points to just
    those. -/
structure Linked (K : Set String) (m : APIKeyManager H) (reg : Registry) : Prop where
  enabled    : m.enabled = true
  fits       : m.configKeys.Fits m.heap
  listed     : ∀ k, reg k = (m.configKeys.elems m.heap).find? fun r => r.key = k
  distinct   : ((m.configKeys.elems m.heap).map (·.key)).Nodup
  admissible : ∀ r ∈ m.configKeys.elems m.heap, r.key ∈ K ∧ r.key ≠ "" ∧ r.Unlimited
  points     : ∀ h p, m.keys.lookup h = some p →
    ∃ k ∈ K, hash k = h ∧ ∃ r, reg k = some r ∧ m.heap.read p = some r
  found      : ∀ k r, reg k = some r → ∃ p, m.keys.lookup (hash k) = some p

/-- `Authenticate` gives the record, or an error if there is none. -/
def Answers (m : APIKeyManager H) (k : String) (now : Int) : Option APIKey → Prop
  | some r => (m.authenticate hash k now).1 = .ok r
  | none => ∃ e, (m.authenticate hash k now).1 = .error e

variable {hash} {m : APIKeyManager H} {reg : Registry}

variable {k key : String} {r : APIKey} {p : Slot} {now : Int}

section

variable (hl : Linked hash K m reg)
include hl

theorem Linked.of_reg (hr : reg k = some r) : r ∈ m.configKeys.elems m.heap ∧ r.key = k := by
  rw [hl.listed] at hr
  exact ⟨mem_of_find?_eq_some hr, by simpa using find?_some hr⟩

variable (hinj : Set.InjOn hash K)
include hinj

theorem Linked.read (hk : k ∈ K) : (m.keys.lookup (hash k)).bind m.heap.read = reg k := by
  cases hlookup : m.keys.lookup (hash k) with
  | none =>
    cases hreg : reg k with
    | none => rfl
    | some r =>
      obtain ⟨p, hp⟩ := hl.found k r hreg
      rw [hlookup] at hp
      cases hp
  | some p =>
    obtain ⟨k', hk', heq, r, hr, hread⟩ := hl.points _ p hlookup
    rw [← hinj hk' hk heq, hr]
    exact hread

omit hl hinj in
theorem authenticate_unlimited (henabled : m.enabled = true) (hk : k ≠ "")
    (hread : (m.keys.lookup (hash k)).bind m.heap.read = some r) (hr : r.Unlimited) (now : Int) :
    m.authenticate hash k now = (.ok r, m) := by
  have hnot : ¬ 0 < r.rateLimit := Int.not_lt.mpr hr.2
  simp [APIKeyManager.authenticate, henabled, hk, hread, hr.1, hnot]

theorem Linked.answers (hk : k ∈ K) (now : Int) : Answers hash m k now (reg k) := by
  have hread := hl.read hinj hk
  cases hreg : reg k with
  | some r =>
    obtain ⟨hmem, hkey⟩ := hl.of_reg hreg
    obtain ⟨-, hne, hunlimited⟩ := hl.admissible r hmem
    rw [hreg] at hread
    rw [hkey] at hne
    exact congrArg Prod.fst (authenticate_unlimited hl.enabled hne hread hunlimited now)
  | none =>
    rw [hreg] at hread
    unfold Answers APIKeyManager.authenticate
    by_cases hempty : k = ""
    · exact ⟨.keyRequired, by simp [hl.enabled, hempty]⟩
    · exact ⟨.invalidKey, by simp [hl.enabled, hempty, hread]⟩

end

theorem not_answers {r' : APIKey} (henabled : m.enabled = true) (hk : k ≠ "")
    (hread : (m.keys.lookup (hash k)).bind m.heap.read = some r') (hr' : r'.Unlimited)
    (hne : r' ≠ r) (now : Int) : ¬ Answers hash m k now (some r) := by
  intro hanswers
  have hok : (Except.ok r' : Except Error APIKey) = .ok r := by
    rw [← hanswers, authenticate_unlimited henabled hk hread hr' now]
  exact hne (Except.ok.inj hok)

/-! ## One call -/

variable (hash) in
/-- **A call that overwrites no record the table points to**: behind the slice, as an `AddKey` in place does,
    or in it, as a `RevokeKey`. The empty key must not be registered. -/
def Harmless (m : APIKeyManager H) : Op → Prop
  | .addKey key _ => (m.keys.lookup (hash key.key)).isSome = true ∨ key.key ≠ "" ∧
    (m.configKeys.len < m.configKeys.cap m.heap →
      ∀ e ∈ m.keys.entries, e.2 ≠ ⟨m.configKeys.array, m.configKeys.len⟩)
  | .revokeKey key => (m.keys.lookup (hash key)).isNone = true ∨
    ∀ e ∈ m.keys.entries, e.1 ≠ hash key → e.2.array = m.configKeys.array →
      e.2.index < (m.configKeys.elems m.heap).findIdx (fun r => decide (hash r.key = hash key)) ∨
        m.configKeys.len ≤ e.2.index + 1
  | .authenticate _ _ => True
  | .cleanup _ => True

instance (op : Op) : Decidable (Harmless hash m op) := by
  cases op <;> unfold Harmless <;> infer_instance

variable (hash spare) in
/-- What `RevokeKey` makes of the slice. -/
def APIKeyManager.without (m : APIKeyManager H) (key : String) : Heap APIKey × Slice :=
  filterInPlace APIKey.zero spare (fun k => decide (hash k.key ≠ hash key)) m.heap m.configKeys

variable (spare) in
/-- What `AddKey` makes of the slice, behind the new key's own place. -/
def APIKeyManager.extended (m : APIKeyManager H) (r : APIKey) : Heap APIKey × Slice :=
  append APIKey.zero spare (m.heap ++ [[r]]) m.configKeys r

theorem Linked.limits (hl : Linked hash K m reg) (limits : AList fun _ : H => RateLimitEntry) :
    Linked hash K { m with rateLimits := limits } reg :=
  ⟨hl.enabled, hl.fits, hl.listed, hl.distinct, hl.admissible, hl.points, hl.found⟩

theorem openWindow_frame (h : H) (now : Int) :
    ∃ limits, (m.openWindow h now).2 = { m with rateLimits := limits } := by
  unfold APIKeyManager.openWindow
  dsimp only
  split
  · split <;> exact ⟨_, rfl⟩
  · exact ⟨_, rfl⟩

theorem checkRateLimit_frame (h : H) (limit now : Int) :
    ∃ limits, (m.checkRateLimit h limit now).2 = { m with rateLimits := limits } := by
  unfold APIKeyManager.checkRateLimit
  split
  · exact openWindow_frame h now
  · split
    · exact openWindow_frame h now
    · split
      · exact ⟨m.rateLimits, rfl⟩
      · exact ⟨_, rfl⟩

theorem authenticate_frame (k : String) (now : Int) :
    ∃ limits, (m.authenticate hash k now).2 = { m with rateLimits := limits } := by
  unfold APIKeyManager.authenticate
  split
  · exact ⟨m.rateLimits, rfl⟩
  split
  · exact ⟨m.rateLimits, rfl⟩
  split
  · exact ⟨m.rateLimits, rfl⟩
  split
  · exact ⟨m.rateLimits, rfl⟩
  split
  · rename_i apiKey _ _ _
    have hframe := checkRateLimit_frame (m := m) (hash k) apiKey.rateLimit now
    split <;> (rename_i heq; rw [heq] at hframe; exact hframe)
  · exact ⟨m.rateLimits, rfl⟩

section

variable (hl : Linked hash K m reg)
include hl

theorem Linked.reg_none (hk : m.keys.lookup (hash k) = none) : reg k = none := by
  cases hreg : reg k with
  | none => rfl
  | some r =>
    obtain ⟨p, hp⟩ := hl.found k r hreg
    rw [hk] at hp
    cases hp

theorem Linked.read_added (r : APIKey) (hp : p.array < m.heap.length) :
    (m.extended spare r).1.read p =
      if m.configKeys.len < m.configKeys.cap m.heap ∧ p = ⟨m.configKeys.array, m.configKeys.len⟩
      then some r else m.heap.read p := by
  rw [APIKeyManager.extended, read_append (hl.fits.concat [r]) r (by simpa using Nat.lt_succ_of_lt hp),
    Slice.cap_concat hl.fits.array, Heap.read_alloc, if_neg (Nat.ne_of_lt hp)]

theorem Linked.read_place (r : APIKey) :
    (m.extended spare r).1.read ⟨m.heap.length, 0⟩ = some r := by
  have hne : m.heap.length ≠ m.configKeys.array := Nat.ne_of_gt hl.fits.array
  rw [APIKeyManager.extended, read_append (hl.fits.concat [r]) r (by simp), if_neg, Heap.read_alloc, if_pos rfl]
  · rfl
  · intro hand
    exact hne (congrArg Slot.array hand.2)

omit hl in
theorem addKey_new {key : APIKey} (hnew : m.keys.lookup (hash key.key) = none) :
    (m.addKey hash spare key now).2 =
      { m with
        heap := (m.extended spare { key with createdAt := now }).1
        configKeys := (m.extended spare { key with createdAt := now }).2
        keys := m.keys.insert (hash key.key) ⟨m.heap.length, 0⟩ } := by
  simp [APIKeyManager.addKey, APIKeyManager.extended, hnew, Heap.alloc]

theorem step_registered {key : APIKey} (hnew : m.keys.lookup (hash key.key) = none) :
    reg.step (.addKey key now) = update reg key.key (some { key with createdAt := now }) := by
  simp [Registry.step, hl.reg_none hnew]

theorem Linked.addKey {key : APIKey}
    (hwithin : Op.Within K (.addKey key now)) (hnew : m.keys.lookup (hash key.key) = none)
    (hharmless : Harmless hash m (.addKey key now)) :
    Linked hash K (m.addKey hash spare key now).2 (reg.step (.addKey key now)) := by
  obtain ⟨hne, hfree⟩ := hharmless.resolve_left (by simp [hnew])
  rw [addKey_new hnew, step_registered hl hnew]
  generalize hr : ({ key with createdAt := now } : APIKey) = r
  have hkey : r.key = key.key := by rw [← hr]
  have hnone : ∀ r' ∈ m.configKeys.elems m.heap, r'.key ≠ key.key := by
    have hfind := hl.reg_none hnew
    rw [hl.listed, find?_eq_none] at hfind
    intro r' hr'
    simpa using hfind r' hr'
  have helems : (m.extended spare r).2.elems (m.extended spare r).1 =
      m.configKeys.elems m.heap ++ [r] := by
    rw [APIKeyManager.extended, append_elems (hl.fits.concat [r]), Slice.elems_concat hl.fits.array]
  have hread : ∀ h p r', m.keys.lookup h = some p → m.heap.read p = some r' →
      (m.extended spare r).1.read p = some r' := by
    intro h p r' hp hread
    rw [hl.read_added r (Heap.lt_length_of_read hread), if_neg, hread]
    rintro ⟨hroom, heq⟩
    exact hfree hroom ⟨h, p⟩ (mem_lookup_iff.mp hp) heq
  refine ⟨hl.enabled, append_fits (hl.fits.concat [r]) r, fun k => ?_, ?_, fun r' hr' => ?_,
    fun h p hp => ?_, fun k r' hr' => ?_⟩
  · show _ = find? _ (Slice.elems _ _)
    rw [helems, find?_append, ← hl.listed]
    by_cases hk : k = key.key
    · simp [hk, hl.reg_none hnew, hkey]
    · simp [update_of_ne hk, hkey, Ne.symm hk]
  · show ((Slice.elems _ _).map _).Nodup
    rw [helems, map_append, nodup_append]
    refine ⟨hl.distinct, nodup_singleton _, ?_⟩
    simp only [mem_map, map_singleton, mem_singleton]
    rintro _ ⟨r', hr', rfl⟩ _ rfl
    rw [hkey]
    exact hnone r' hr'
  · change r' ∈ Slice.elems _ _ at hr'
    rw [helems, mem_append, mem_singleton] at hr'
    rcases hr' with hr' | rfl
    · exact hl.admissible r' hr'
    · subst hr
      exact ⟨hwithin.1, hne, hwithin.2⟩
  · change (m.keys.insert _ _).lookup h = some p at hp
    by_cases hh : h = hash key.key
    · subst hh
      rw [lookup_insert] at hp
      cases hp
      exact ⟨key.key, hwithin.1, rfl, r, by simp, hl.read_place r⟩
    · rw [lookup_insert_ne hh] at hp
      obtain ⟨k, hk, rfl, r', hr', hp'⟩ := hl.points h p hp
      refine ⟨k, hk, rfl, r', ?_, hread _ p r' hp hp'⟩
      rw [update_of_ne fun heq => hh (by rw [heq])]
      exact hr'
  · show ∃ p, (m.keys.insert _ _).lookup (hash k) = some p
    by_cases hh : hash k = hash key.key
    · exact ⟨_, by rw [hh, lookup_insert]⟩
    · rw [update_of_ne fun heq => hh (by rw [heq])] at hr'
      rw [lookup_insert_ne hh]
      exact hl.found k r' hr'

/-- **`AddKey` against the condition shows**: the empty key is refused, or another key is given the new
    record. -/
theorem Linked.addKey_shows (hinj : Set.InjOn hash K) {key : APIKey}
    (hwithin : Op.Within K (.addKey key now)) (hharm : ¬ Harmless hash m (.addKey key now)) :
    ∃ k ∈ K, ¬ Answers hash (m.addKey hash spare key now).2 k now (reg.step (.addKey key now) k) := by
  unfold Harmless at hharm
  rw [not_or, Bool.not_eq_true, Option.isSome_eq_false_iff, Option.isNone_iff_eq_none] at hharm
  obtain ⟨hnew, hharm⟩ := hharm
  rw [step_registered hl hnew]
  by_cases hempty : key.key = ""
  · refine ⟨key.key, hwithin.1, ?_⟩
    simp [Answers, APIKeyManager.authenticate, hempty, addKey_new hnew, hl.enabled]
  · obtain ⟨hroom, e, he, heq⟩ : m.configKeys.len < m.configKeys.cap m.heap ∧
        ∃ e ∈ m.keys.entries, e.2 = ⟨m.configKeys.array, m.configKeys.len⟩ := by
      by_contra hnot
      refine hharm ⟨hempty, fun hroom e he heq => hnot ⟨hroom, e, he, heq⟩⟩
    have hlookup : m.keys.lookup e.1 = some e.2 := mem_lookup_iff.mpr he
    obtain ⟨k, hk, hhash, r, hr, hread⟩ := hl.points e.1 e.2 hlookup
    obtain ⟨hmem, hkey⟩ := hl.of_reg hr
    have hne : k ≠ key.key := by
      rintro rfl
      rw [hhash, hlookup] at hnew
      cases hnew
    have hhne : hash k ≠ hash key.key := fun h => hne (hinj hk hwithin.1 h)
    refine ⟨k, hk, ?_⟩
    rw [update_of_ne hne, hr, addKey_new hnew]
    have hmoved : ((m.keys.insert (hash key.key) ⟨m.heap.length, 0⟩).lookup (hash k)).bind
        (m.extended spare { key with createdAt := now }).1.read = some { key with createdAt := now } := by
      rw [lookup_insert_ne hhne, hhash, hlookup]
      show Heap.read _ e.2 = _
      rw [hl.read_added _ (Heap.lt_length_of_read hread), if_pos ⟨hroom, heq⟩]
    have hunlimited : ({ key with createdAt := now } : APIKey).Unlimited := hwithin.2
    refine not_answers ?_ (hkey ▸ (hl.admissible r hmem).2.1) hmoved hunlimited ?_ now
    · exact hl.enabled
    · intro h
      rw [← h] at hkey
      exact hne hkey.symm

end

/-! ### Revoking -/

theorem revokeKey_found (hfound : m.keys.lookup (hash key) = some p) :
    (m.revokeKey hash spare key).2 =
      { m with
        heap := (m.without hash spare key).1
        configKeys := (m.without hash spare key).2
        keys := m.keys.erase (hash key) } := by
  simp [APIKeyManager.revokeKey, APIKeyManager.without, hfound]

section

variable (hl : Linked hash K m reg) (hinj : Set.InjOn hash K)
include hl hinj

theorem Linked.hash_ne (hkey : key ∈ K)
    (hr : r ∈ m.configKeys.elems m.heap) : hash r.key ≠ hash key ↔ r.key ≠ key := by
  refine not_congr ⟨fun h => hinj (hl.admissible r hr).1 hkey h, fun h => by rw [h]⟩

theorem Linked.kept_eq (key : String) :
    (m.configKeys.elems m.heap).filter (fun k => decide (hash k.key ≠ hash key)) =
      (m.configKeys.elems m.heap).eraseIdx
        ((m.configKeys.elems m.heap).findIdx fun r => decide (hash r.key = hash key)) := by
  have hpair : (m.configKeys.elems m.heap).Pairwise fun a b => a.key ≠ b.key :=
    pairwise_map.mp hl.distinct
  rw [filter_eq_eraseIdx]
  · congr 2
    funext r
    simp
  · refine Pairwise.imp_of_mem ?_ hpair
    intro a b ha hb hne hnot
    simp only [decide_eq_false_iff_not, not_not, decide_eq_true_eq] at hnot ⊢
    intro heq
    exact hne (hinj (hl.admissible a ha).1 (hl.admissible b hb).1 (hnot.trans heq.symm))

theorem Linked.read_revoked {p₀ : Slot} (hfound : m.keys.lookup (hash key) = some p₀) (p : Slot) :
    (m.without hash spare key).1.read p = if p.array = m.configKeys.array ∧ p.index + 1 < m.configKeys.len ∧
          (m.configKeys.elems m.heap).findIdx (fun r => decide (hash r.key = hash key)) ≤ p.index
      then m.heap.read ⟨p.array, p.index + 1⟩ else m.heap.read p := by
  -- The revoked record is listed, so exactly one is left out.
  obtain ⟨k, hk, hhash, r, hr, -⟩ := hl.points _ p₀ hfound
  obtain ⟨hmem, hrkey⟩ := hl.of_reg hr
  have hlt : (m.configKeys.elems m.heap).findIdx (fun r => decide (hash r.key = hash key)) <
      (m.configKeys.elems m.heap).length :=
    findIdx_lt_length.mpr ⟨r, hmem, by simp [hrkey, hhash]⟩
  rw [APIKeyManager.without, read_filterInPlace _ hl.fits, hl.kept_eq hinj, length_eraseIdx_of_lt hlt,
    hl.fits.length_elems, getElem?_eraseIdx]
  by_cases harray : p.array = m.configKeys.array
  · by_cases hindex : p.index + 1 < m.configKeys.len
    · rw [if_pos ⟨harray, by omega⟩]
      split
      case isTrue hbefore =>
        rw [if_neg fun h => absurd h.2.2 (Nat.not_le.mpr hbefore), Slice.elems_getElem? (by omega),
          ← harray]
      case isFalse hbefore =>
        rw [if_pos ⟨harray, hindex, Nat.le_of_not_lt hbefore⟩, Slice.elems_getElem? hindex, harray]
    · rw [if_neg fun h => hindex (by omega), if_neg fun h => hindex h.2.1]
  · rw [if_neg fun h => harray h.1, if_neg fun h => harray h.1]

theorem Linked.revokeKey {p₀ : Slot} (hkey : key ∈ K) (hfound : m.keys.lookup (hash key) = some p₀)
    (hharmless : Harmless hash m (.revokeKey key)) :
    Linked hash K (m.revokeKey hash spare key).2 (reg.step (.revokeKey key)) := by
  have hstay := hharmless.resolve_left (by simp [hfound])
  rw [revokeKey_found hfound]
  have helems : (m.without hash spare key).2.elems (m.without hash spare key).1 =
      (m.configKeys.elems m.heap).filter fun k => decide (hash k.key ≠ hash key) :=
    filterInPlace_elems _ hl.fits
  refine ⟨hl.enabled, filterInPlace_fits _ hl.fits, fun k => ?_, ?_, fun r hr => ?_,
    fun h p hp => ?_, fun k r hr => ?_⟩
  · show update reg key none k = find? _ (Slice.elems _ _)
    rw [helems, find?_filter]
    by_cases hk : k = key
    · rw [hk, update_self, eq_comm, find?_eq_none]
      intro r hr hand
      simp only [decide_eq_true_eq] at hand
      exact hand.1 (by rw [hand.2])
    · rw [update_of_ne hk, hl.listed]
      refine find?_congr fun r hr => ?_
      by_cases hrk : r.key = k
      · subst hrk
        simp [(hl.hash_ne hinj hkey hr).mpr hk]
      · simp [hrk]
  · show ((Slice.elems _ _).map _).Nodup
    rw [helems]
    exact hl.distinct.sublist (filter_sublist.map _)
  · change r ∈ Slice.elems _ _ at hr
    rw [helems] at hr
    exact hl.admissible r (mem_of_mem_filter hr)
  · change (m.keys.erase (hash key)).lookup h = some p at hp
    have hh : h ≠ hash key := by
      rintro rfl
      rw [lookup_erase] at hp
      cases hp
    rw [lookup_erase_ne hh] at hp
    obtain ⟨k, hk, rfl, r, hr, hread⟩ := hl.points h p hp
    refine ⟨k, hk, rfl, r, ?_, ?_⟩
    · show update reg key none k = some r
      rw [update_of_ne fun heq => hh (by rw [heq]), hr]
    · show Heap.read _ p = some r
      rw [hl.read_revoked hinj hfound, if_neg, hread]
      rintro ⟨harray, hindex, hle⟩
      rcases hstay ⟨_, p⟩ (mem_lookup_iff.mp hp) hh harray with hlt | hlen
      · exact Nat.not_lt.mpr hle hlt
      · exact Nat.not_lt.mpr hlen hindex
  · have hk : k ≠ key := by
      rintro rfl
      change update reg k none k = some r at hr
      rw [update_self] at hr
      cases hr
    change update reg key none k = some r at hr
    rw [update_of_ne hk] at hr
    obtain ⟨hmem, hrkey⟩ := hl.of_reg hr
    have hh : hash k ≠ hash key := hrkey ▸ (hl.hash_ne hinj hkey hmem).mpr (hrkey ▸ hk)
    rw [lookup_erase_ne hh]
    exact hl.found k r hr

theorem Linked.revokeKey_shows (hkey : key ∈ K)
    (hharm : ¬ Harmless hash m (.revokeKey key)) (now : Int) :
    ∃ k ∈ K, ¬ Answers hash (m.revokeKey hash spare key).2 k now (reg.step (.revokeKey key) k) := by
  unfold Harmless at hharm
  rw [not_or, Option.isNone_iff_eq_none] at hharm
  obtain ⟨hfound, hharm⟩ := hharm
  obtain ⟨p₀, hfound⟩ := Option.ne_none_iff_exists'.mp hfound
  obtain ⟨e, he, hne, harray, hmoved⟩ : ∃ e ∈ m.keys.entries, e.1 ≠ hash key ∧
      e.2.array = m.configKeys.array ∧
      ¬ (e.2.index < (m.configKeys.elems m.heap).findIdx (fun r => decide (hash r.key = hash key)) ∨
        m.configKeys.len ≤ e.2.index + 1) := by
    by_contra hnot
    refine hharm fun e he hne harray => ?_
    by_contra hmoved
    exact hnot ⟨e, he, hne, harray, hmoved⟩
  obtain ⟨hbehind, hlast⟩ := not_or.mp hmoved
  have hlookup : m.keys.lookup e.1 = some e.2 := mem_lookup_iff.mpr he
  obtain ⟨k, hk, hhash, r, hr, hread⟩ := hl.points e.1 e.2 hlookup
  obtain ⟨hmem, hrkey⟩ := hl.of_reg hr
  have hindex : e.2.index + 1 < m.configKeys.len := Nat.lt_of_not_le hlast
  -- `r` is listed at the pointer's index and `r'` right behind it.
  have hhere : (m.configKeys.elems m.heap)[e.2.index]? = some r := by
    rw [Slice.elems_getElem? (Nat.lt_of_succ_lt hindex), ← harray]
    exact hread
  obtain ⟨r', hnext⟩ : ∃ r', (m.configKeys.elems m.heap)[e.2.index + 1]? = some r' :=
    ⟨_, getElem?_eq_getElem (by rw [hl.fits.length_elems]; exact hindex)⟩
  have hdiffer : r' ≠ r := by
    rintro rfl
    have hnodup := Nodup.of_map _ hl.distinct
    have heq := (getElem?_inj (Nat.lt_of_succ_lt (by rw [hl.fits.length_elems]; exact hindex))
      hnodup).mp (hhere.trans hnext.symm)
    omega
  refine ⟨k, hk, ?_⟩
  have hkne : k ≠ key := by
    rintro rfl
    exact hne hhash.symm
  show ¬ Answers hash _ k now (update reg key none k)
  rw [update_of_ne hkne, hr, revokeKey_found hfound]
  have hgiven : ((m.keys.erase (hash key)).lookup (hash k)).bind
      (m.without hash spare key).1.read = some r' := by
    rw [hhash, lookup_erase_ne hne, hlookup]
    show Heap.read _ e.2 = some r'
    rw [hl.read_revoked hinj hfound, if_pos ⟨harray, hindex, Nat.le_of_not_lt hbehind⟩, harray,
      ← Slice.elems_getElem? hindex]
    exact hnext
  have hunlimited := (hl.admissible r' (mem_of_getElem? hnext)).2.2
  refine not_answers ?_ (hrkey ▸ (hl.admissible r hmem).2.1) hgiven hunlimited hdiffer now
  exact hl.enabled

end

/-! ## The new manager -/

theorem table_points {l : List (APIKey × Nat)} {table : AList fun _ : H => Slot} {h : H}
    (hp : (l.foldl (fun table r => table.insert (hash r.1.key) ⟨0, r.2⟩) table).lookup h = some p) :
    table.lookup h = some p ∨ ∃ e ∈ l, hash e.1.key = h ∧ p = ⟨0, e.2⟩ := by
  induction l generalizing table with
  | nil => exact .inl hp
  | cons e l ih =>
    rcases ih hp with hp | ⟨e', he', heq⟩
    · by_cases hh : h = hash e.1.key
      · rw [hh, lookup_insert] at hp
        exact .inr ⟨e, mem_cons_self, hh.symm, (Option.some.inj hp).symm⟩
      · rw [lookup_insert_ne hh] at hp
        exact .inl hp
    · exact .inr ⟨e', mem_cons_of_mem _ he', heq⟩

theorem table_found {l : List (APIKey × Nat)} {table : AList fun _ : H => Slot} {h : H}
    (hh : (∃ p, table.lookup h = some p) ∨ ∃ e ∈ l, hash e.1.key = h) :
    ∃ p, (l.foldl (fun table r => table.insert (hash r.1.key) ⟨0, r.2⟩) table).lookup h = some p := by
  induction l generalizing table with
  | nil =>
    rcases hh with hh | ⟨e, he, -⟩
    · exact hh
    · cases he
  | cons e l ih =>
    refine ih ?_
    by_cases hhead : h = hash e.1.key
    · exact .inl ⟨_, by rw [hhead, lookup_insert]⟩
    · rcases hh with hh | ⟨e', he', heq⟩
      · exact .inl (by rw [lookup_insert_ne hhead]; exact hh)
      · rcases mem_cons.mp he' with rfl | he'
        · exact absurd heq.symm hhead
        · exact .inr ⟨e', he', heq⟩

theorem find?_of_mem {keys : List APIKey} (hdistinct : (keys.map (·.key)).Nodup) (hr : r ∈ keys) :
    keys.find? (fun r' => r'.key = r.key) = some r := by
  cases hfind : keys.find? (fun r' => r'.key = r.key) with
  | none => simpa using find?_eq_none.mp hfind r hr
  | some r' =>
    have hkey : r'.key = r.key := by simpa using find?_some hfind
    rw [inj_on_of_nodup_map hdistinct (mem_of_find?_eq_some hfind) hr hkey]

theorem linked_new (headerName queryParam : String) {keys : List APIKey} (free : List APIKey)
    (hdistinct : (keys.map (·.key)).Nodup)
    (hkeys : ∀ r ∈ keys, r.key ∈ K ∧ r.key ≠ "" ∧ r.Unlimited) :
    Linked hash K (newAPIKeyManager hash true headerName queryParam keys free) (registry keys []) := by
  have helems : (newAPIKeyManager hash true headerName queryParam keys free).configKeys.elems
      (newAPIKeyManager hash true headerName queryParam keys free).heap = keys := by
    simp [newAPIKeyManager, Slice.elems, Heap.array]
  refine ⟨rfl, ⟨by simp [newAPIKeyManager], by simp [newAPIKeyManager, Slice.cap, Heap.array]⟩,
    fun k => ?_, ?_, fun r hr => ?_, fun h p hp => ?_, fun k r hr => ?_⟩
  · rw [helems]
    rfl
  · rwa [helems]
  · rw [helems] at hr
    exact hkeys r hr
  · rcases table_points hp with hp | ⟨⟨r, i⟩, hmem, hhash, rfl⟩
    · cases hp
    · have hi : keys[i]? = some r := mem_zipIdx_iff_getElem?.mp hmem
      have hr : r ∈ keys := mem_of_getElem? hi
      refine ⟨r.key, (hkeys r hr).1, hhash, r, find?_of_mem hdistinct hr, ?_⟩
      show (keys ++ free)[i]? = some r
      rw [List.getElem?_append_left (List.getElem?_eq_some_iff.mp hi).1]
      exact hi
  · have hmem : r ∈ keys := mem_of_find?_eq_some hr
    have hkey : r.key = k := by simpa using find?_some hr
    obtain ⟨i, hi⟩ := mem_iff_getElem?.mp hmem
    exact table_found (.inr ⟨(r, i), mem_zipIdx_iff_getElem?.mpr hi, by rw [← hkey]⟩)

/-! ## Every run -/

theorem Linked.step (hl : Linked hash K m reg) (hinj : Set.InjOn hash K) {op : Op}
    (hwithin : op.Within K) (hharmless : Harmless hash m op) {m' : APIKeyManager H}
    (hstep : step hash spare m op = some m') : Linked hash K m' (reg.step op) := by
  cases op with
  | addKey key now =>
    cases hstep
    cases hlookup : m.keys.lookup (hash key.key) with
    | none => exact hl.addKey hwithin hlookup hharmless
    | some p =>
      obtain ⟨k, hk, hhash, r, hr, -⟩ := hl.points _ p hlookup
      rw [hinj hk hwithin.1 hhash] at hr
      simpa [APIKeyManager.addKey, hlookup, Registry.step, hr] using hl
  | revokeKey key =>
    cases hstep
    cases hlookup : m.keys.lookup (hash key) with
    | none =>
      have hsame : update reg key none = reg := by
        rw [← hl.reg_none hlookup, update_eq_self]
      simpa [APIKeyManager.revokeKey, hlookup, Registry.step, hsame] using hl
    | some p => exact hl.revokeKey hinj hwithin hlookup hharmless
  | authenticate key now =>
    cases hstep
    obtain ⟨limits, hlimits⟩ : ∃ limits, (m.authenticate hash key now).2 =
        { m with rateLimits := limits } := authenticate_frame key now
    rw [hlimits]
    exact hl.limits limits
  | cleanup now =>
    cases hstep
    exact hl.limits _

theorem Linked.step_shows (hl : Linked hash K m reg) (hinj : Set.InjOn hash K) {op : Op}
    (hwithin : op.Within K) (hharm : ¬ Harmless hash m op) {m' : APIKeyManager H}
    (hstep : LimyeDB.Security.step hash spare m op = some m') :
    ¬ ∀ k ∈ K, ∀ now, Answers hash m' k now (reg.step op k) := by
  intro hanswers
  cases op with
  | addKey key now =>
    cases hstep
    obtain ⟨k, hk, hnot⟩ := hl.addKey_shows hinj hwithin hharm
    exact hnot (hanswers k hk now)
  | revokeKey key =>
    cases hstep
    obtain ⟨k, hk, hnot⟩ := hl.revokeKey_shows hinj hwithin hharm 0
    exact hnot (hanswers k hk 0)
  | authenticate key now => exact hharm trivial
  | cleanup now => exact hharm trivial

theorem Linked.answers_iff {keys : List APIKey} (hl : Linked hash K m (registry keys []))
    (hinj : Set.InjOn hash K) {ops : List Op} (hops : ∀ op ∈ ops, op.Within K) :
    (∀ before, before <+: ops → ∀ m', run (LimyeDB.Security.step hash spare) m before = some m' →
        ∀ k ∈ K, ∀ now, Answers hash m' k now (registry keys before k)) ↔
      Along (LimyeDB.Security.step hash spare) (Harmless hash) m ops :=
  run_exact (I := fun past m => Linked hash K m (registry keys past))
    (F := fun past m => ∀ k ∈ K, ∀ now, Answers hash m k now (registry keys past k))
    (fun m op => by cases op <;> exact ⟨_, rfl⟩)
    (fun past m hl k hk now => hl.answers hinj hk now)
    (fun past m op m' hl hwithin hharmless hstep =>
      registry_concat keys past op ▸ hl.step hinj hwithin hharmless hstep)
    (fun past m op m' hl hwithin hharm hstep =>
      registry_concat keys past op ▸ hl.step_shows hinj hwithin hharm hstep) [] hops hl

end Invariant

/-- **At every point of a run `Authenticate` answers with the registered record, or an error if there is none,
    exactly if no key given is empty and no call overwrites a record that the table points to.** On `K` the
    hash has no collision; `spare` is what a grown array has in reserve. -/
theorem authenticate_registered_iff {H : Type} [DecidableEq H] (hash : String → H)
    (spare : Nat → Nat) {K : Set String} (hinj : Set.InjOn hash K) (headerName queryParam : String)
    (keys free : List APIKey) (hdistinct : (keys.map (·.key)).Nodup)
    (hkeys : ∀ r ∈ keys, r.key ∈ K ∧ r.Unlimited) (ops : List Op) (hops : ∀ op ∈ ops, op.Within K) :
    (∀ before, before <+: ops → ∀ m,
        run (step hash spare) (newAPIKeyManager hash true headerName queryParam keys free) before =
          some m →
        ∀ k ∈ K, ∀ now, Answers hash m k now (registry keys before k)) ↔
      (∀ r ∈ keys, r.key ≠ "") ∧
        Along (step hash spare) (Harmless hash)
          (newAPIKeyManager hash true headerName queryParam keys free) ops := by
  have hnew : (∀ r ∈ keys, r.key ≠ "") →
      Linked hash K (newAPIKeyManager hash true headerName queryParam keys free) (registry keys []) :=
    fun hne => linked_new headerName queryParam free hdistinct fun r hr =>
      ⟨(hkeys r hr).1, hne r hr, (hkeys r hr).2⟩
  constructor
  · intro hanswers
    have hne : ∀ r ∈ keys, r.key ≠ "" := by
      intro r hr hempty
      have hat := hanswers [] nil_prefix _ rfl r.key (hkeys r hr).1 0
      have hreg : registry keys [] r.key = some r := find?_of_mem hdistinct hr
      rw [hreg] at hat
      simp [Answers, APIKeyManager.authenticate, newAPIKeyManager, hempty] at hat
    exact ⟨hne, ((hnew hne).answers_iff hinj hops).mp hanswers⟩
  · intro hboth
    exact ((hnew hboth.1).answers_iff hinj hops).mpr hboth.2

/-! ### Three keys, and the first of them revoked -/

def keyOf (key name : String) (permissions : List String) : APIKey :=
  { key, name, permissions, createdAt := 0, expiresAt := none, rateLimit := 0 }

/-- **The reader's key is given the administrator's record** once the key listed before it has been
    revoked. -/
theorem revoked_exposes_other :
    ∃ m, run (step id fun _ => 0) (newAPIKeyManager id true "X-API-Key" "api_key"
        [keyOf "k1" "old" ["read"], keyOf "k2" "reader" ["read"], keyOf "k3" "admin" ["admin"]] [])
        [.revokeKey "k1"] = some m ∧
      registry
        [keyOf "k1" "old" ["read"], keyOf "k2" "reader" ["read"], keyOf "k3" "admin" ["admin"]]
        [.revokeKey "k1"] "k2" = some (keyOf "k2" "reader" ["read"]) ∧
      (m.authenticate id "k2" 0).1 = .ok (keyOf "k3" "admin" ["admin"]) ∧
      m.hasPermission (some (keyOf "k3" "admin" ["admin"])) "write" = true ∧
      m.hasPermission (some (keyOf "k2" "reader" ["read"])) "write" = false := by
  refine ⟨_, rfl, ?_, ?_, ?_, ?_⟩ <;> decide

/-- The keys revoked from the last on, and a key added in between. -/
theorem authenticate_registered_line : Set.InjOn (id : String → String) Set.univ ∧
    ∀ before, before <+: [.revokeKey "k2", .addKey (keyOf "k3" "new" ["write"]) 5, .revokeKey "k1"] →
      ∀ m, run (step id fun _ => 0) (newAPIKeyManager id true "X-API-Key" "api_key"
          [keyOf "k1" "old" ["read"], keyOf "k2" "reader" ["read"]] []) before = some m →
        ∀ k ∈ Set.univ, ∀ now, Answers id m k now
          (registry [keyOf "k1" "old" ["read"], keyOf "k2" "reader" ["read"]] before k) := by
  refine ⟨injective_id.injOn, ?_⟩
  refine (authenticate_registered_iff id (fun _ => 0) injective_id.injOn "X-API-Key"
    "api_key" _ [] ?_ ?_ _ ?_).mpr ⟨?_, ?_⟩
  · decide
  · intro r hr
    refine ⟨Set.mem_univ _, ?_⟩
    revert r
    decide
  · intro op hop
    fin_cases hop
    · exact Set.mem_univ _
    · exact ⟨Set.mem_univ _, by decide⟩
    · exact Set.mem_univ _
  · decide
  · decide

end LimyeDB.Security
