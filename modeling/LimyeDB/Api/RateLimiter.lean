/-
  THE RATE LIMITER OF THE REST SERVER (api/rest/middleware.go): a token bucket for each client, and the
  cleanup that drops buckets. Times are in seconds, numbers exact.
-/
import LimyeDB.Lib.Budget

namespace LimyeDB.Rest

open LimyeDB.Lib.Budget List AList

/-! ## The limiter -/

structure RateLimiter (Key : Type) [DecidableEq Key] where
  tokens     : AList fun _ : Key => ℚ
  lastAccess : AList fun _ : Key => ℚ
  /-- Tokens per second. -/
  rate       : ℚ
  /-- The most tokens of a client. -/
  capacity   : ℚ

def rateLimiterMaxEntries : Nat := 100000

def rateLimiterEntryTTL : ℚ := 3600

section Limiter

variable {Key : Type} [DecidableEq Key]

def newRateLimiter (rate capacity : ℚ) : RateLimiter Key :=
  { tokens := ∅, lastAccess := ∅, rate, capacity }

namespace RateLimiter

def available (rl : RateLimiter Key) (key : Key) (now : ℚ) : ℚ :=
  let tokens := (rl.tokens.lookup key).getD rl.capacity
  match rl.lastAccess.lookup key with
  | some lastAccess => min (tokens + (now - lastAccess) * rl.rate) rl.capacity
  | none => tokens

def allow (rl : RateLimiter Key) (key : Key) (now : ℚ) : Bool × RateLimiter Key :=
  let tokens := rl.available key now
  if tokens < 1 then (false, rl)
  else
    (true, { rl with
      tokens := rl.tokens.insert key (tokens - 1), lastAccess := rl.lastAccess.insert key now })

def forget (rl : RateLimiter Key) (key : Key) : RateLimiter Key :=
  { rl with tokens := rl.tokens.erase key, lastAccess := rl.lastAccess.erase key }

def removeExpired (rl : RateLimiter Key) (now : ℚ) : RateLimiter Key :=
  rl.lastAccess.entries.foldl
    (fun rl e => if rateLimiterEntryTTL < now - e.2 then rl.forget e.1 else rl) rl

end RateLimiter

abbrev Entry (Key : Type) := Sigma fun _ : Key => ℚ

/-- The inner loop of the sort: the entry at the place to settle, against all behind it. -/
def settle (first : Entry Key) : List (Entry Key) → Entry Key × List (Entry Key)
  | [] => (first, [])
  | e :: rest =>
    if e.2 < first.2 then ((settle e rest).1, first :: (settle e rest).2)
    else ((settle first rest).1, e :: (settle first rest).2)

def sortByTime : Nat → List (Entry Key) → List (Entry Key)
  | 0, l => l
  | _ + 1, [] => []
  | n + 1, e :: rest => (settle e rest).1 :: sortByTime n (settle e rest).2

/-- The order in which `range` happens to go through the entries of a map. -/
structure Visit (Key : Type) where
  order : List (Entry Key) → List (Entry Key)
  perm  : ∀ l, (order l).Perm l

namespace RateLimiter

def removeOldestEntries (rl : RateLimiter Key) (keepCount : Nat) (visit : Visit Key) :
    RateLimiter Key :=
  if rl.lastAccess.entries.length ≤ keepCount then rl
  else
    let entries := visit.order rl.lastAccess.entries
    let sorted := sortByTime entries.length entries
    (sorted.take (entries.length - keepCount)).foldl (fun rl e => rl.forget e.1) rl

def cleanupExpiredEntries (rl : RateLimiter Key) (now : ℚ) (visit : Visit Key) : RateLimiter Key :=
  let rl := rl.removeExpired now
  if rateLimiterMaxEntries < rl.lastAccess.entries.length then
    rl.removeOldestEntries (rateLimiterMaxEntries / 2) visit
  else rl

end RateLimiter

/-! ## Events -/

inductive Event (Key : Type) where
  | allow (key : Key) (now : ℚ)
  | cleanup (now : ℚ) (visit : Visit Key)

def Event.time : Event Key → ℚ
  | .allow _ now => now
  | .cleanup now _ => now

def step (rl : RateLimiter Key) : Event Key → RateLimiter Key
  | .allow key now => (rl.allow key now).2
  | .cleanup now visit => rl.cleanupExpiredEntries now visit

def allows (key : Key) (rl : RateLimiter Key) : Event Key → Bool
  | .allow key' now => decide (key' = key) && (rl.allow key' now).1
  | .cleanup _ _ => false

/-- The event is a cleanup that drops the client's bucket before it has refilled. -/
def dropsEarly (key : Key) (rl : RateLimiter Key) : Event Key → Bool
  | .allow _ _ => false
  | .cleanup now visit =>
    (rl.lastAccess.lookup key).isSome &&
      ((rl.cleanupExpiredEntries now visit).lastAccess.lookup key).isNone &&
      decide (rl.available key now < rl.capacity)

/-- The event is a cleanup that finds too many clients of the last hour. -/
def crowded (rl : RateLimiter Key) : Event Key → Prop
  | .allow _ _ => False
  | .cleanup now _ => rateLimiterMaxEntries < (rl.removeExpired now).lastAccess.entries.length

/-! ## What the cleanup drops -/

structure Drops (rl rl' : RateLimiter Key) : Prop where
  rate     : rl'.rate = rl.rate
  capacity : rl'.capacity = rl.capacity
  entries  : ∀ key,
    (rl'.tokens.lookup key = rl.tokens.lookup key ∧
      rl'.lastAccess.lookup key = rl.lastAccess.lookup key) ∨
    (rl'.tokens.lookup key = none ∧ rl'.lastAccess.lookup key = none)

theorem Drops.refl (rl : RateLimiter Key) : Drops rl rl := ⟨rfl, rfl, fun _ => .inl ⟨rfl, rfl⟩⟩

theorem Drops.trans {rl rl' rl'' : RateLimiter Key} (h : Drops rl rl') (h' : Drops rl' rl'') :
    Drops rl rl'' := by
  refine ⟨h'.rate.trans h.rate, h'.capacity.trans h.capacity, fun key => ?_⟩
  rcases h'.entries key with ⟨htokens, hlast⟩ | hnone
  · rw [htokens, hlast]
    exact h.entries key
  · exact .inr hnone

theorem drops_forget (rl : RateLimiter Key) (key : Key) : Drops rl (rl.forget key) := by
  refine ⟨rfl, rfl, fun key' => ?_⟩
  by_cases hkey : key' = key
  · subst hkey
    exact .inr ⟨lookup_erase .., lookup_erase ..⟩
  · exact .inl ⟨lookup_erase_ne hkey, lookup_erase_ne hkey⟩

theorem drops_foldl {f : RateLimiter Key → Entry Key → RateLimiter Key}
    (hf : ∀ rl e, Drops rl (f rl e)) (l : List (Entry Key)) (rl : RateLimiter Key) :
    Drops rl (l.foldl f rl) := by
  induction l generalizing rl with
  | nil => exact Drops.refl rl
  | cons e l ih => exact (hf rl e).trans (ih (f rl e))

theorem drops_removeExpired (rl : RateLimiter Key) (now : ℚ) : Drops rl (rl.removeExpired now) := by
  refine drops_foldl (fun rl e => ?_) _ rl
  split
  · exact drops_forget rl e.1
  · exact Drops.refl rl

theorem drops_removeOldestEntries (rl : RateLimiter Key) (keepCount : Nat) (visit : Visit Key) :
    Drops rl (rl.removeOldestEntries keepCount visit) := by
  unfold RateLimiter.removeOldestEntries
  split
  · exact Drops.refl rl
  · exact drops_foldl (fun rl e => drops_forget rl e.1) _ rl

theorem drops_cleanup (rl : RateLimiter Key) (now : ℚ) (visit : Visit Key) :
    Drops rl (rl.cleanupExpiredEntries now visit) := by
  unfold RateLimiter.cleanupExpiredEntries
  dsimp only
  split
  · exact (drops_removeExpired rl now).trans (drops_removeOldestEntries _ _ visit)
  · exact drops_removeExpired rl now

theorem idle_of_removeExpired {rl : RateLimiter Key} {now last : ℚ} {key : Key}
    (hlast : rl.lastAccess.lookup key = some last)
    (hnone : (rl.removeExpired now).lastAccess.lookup key = none) :
    rateLimiterEntryTTL < now - last := by
  have hpass : ∀ (l : List (Entry Key)) (rl : RateLimiter Key), rl.lastAccess.lookup key = some last →
      (l.foldl (fun rl e => if rateLimiterEntryTTL < now - e.2 then rl.forget e.1 else rl)
        rl).lastAccess.lookup key = none → ∃ e ∈ l, e.1 = key ∧ rateLimiterEntryTTL < now - e.2 := by
    intro l
    induction l with
    | nil =>
      intro rl hsome hnone
      rw [foldl_nil, hsome] at hnone
      cases hnone
    | cons e l ih =>
      intro rl hsome hnone
      by_cases hhead : e.1 = key ∧ rateLimiterEntryTTL < now - e.2
      · exact ⟨e, mem_cons_self, hhead⟩
      · have hstill : (if rateLimiterEntryTTL < now - e.2 then rl.forget e.1
            else rl).lastAccess.lookup key = some last := by
          split
          case isTrue hidle =>
            exact (lookup_erase_ne fun heq => hhead ⟨heq.symm, hidle⟩).trans hsome
          case isFalse => exact hsome
        obtain ⟨e', he', hfound⟩ := ih _ hstill hnone
        exact ⟨e', mem_cons_of_mem _ he', hfound⟩
  obtain ⟨⟨key', last'⟩, hmem, hkey, hidle⟩ := hpass _ rl hlast hnone
  subst hkey
  have hlast' : rl.lastAccess.lookup key' = some last' := mem_lookup_iff.mpr hmem
  rw [hlast] at hlast'
  cases hlast'
  exact hidle

/-! ## The bucket as a budget -/

/-- **The two maps have the same clients**, none with a negative bucket or an access to come. -/
structure Paired (rate capacity : ℚ) (rl : RateLimiter Key) (now : ℚ) : Prop where
  rate     : rl.rate = rate
  capacity : rl.capacity = capacity
  entries  : ∀ key,
    (rl.tokens.lookup key = none ∧ rl.lastAccess.lookup key = none) ∨
    ∃ tokens last, rl.tokens.lookup key = some tokens ∧ rl.lastAccess.lookup key = some last ∧
      0 ≤ tokens ∧ last ≤ now

section Bucket

variable {rate capacity now : ℚ} {rl : RateLimiter Key}

theorem available_none {key : Key} (htokens : rl.tokens.lookup key = none)
    (hlast : rl.lastAccess.lookup key = none) : rl.available key now = rl.capacity := by
  simp [RateLimiter.available, htokens, hlast]

theorem available_some {key : Key} {tokens last : ℚ} (htokens : rl.tokens.lookup key = some tokens)
    (hlast : rl.lastAccess.lookup key = some last) :
    rl.available key now = min (tokens + (now - last) * rl.rate) rl.capacity := by
  simp [RateLimiter.available, htokens, hlast]

theorem available_congr {rl' : RateLimiter Key} {key : Key} (hrate : rl'.rate = rl.rate)
    (hcapacity : rl'.capacity = rl.capacity)
    (htokens : rl'.tokens.lookup key = rl.tokens.lookup key)
    (hlast : rl'.lastAccess.lookup key = rl.lastAccess.lookup key) :
    rl'.available key now = rl.available key now := by
  simp only [RateLimiter.available, hrate, hcapacity, htokens, hlast]

variable (hp : Paired rate capacity rl now)
include hp

theorem Paired.available_le (key : Key) : rl.available key now ≤ capacity := by
  rcases hp.entries key with ⟨htokens, hlast⟩ | ⟨tokens, last, htokens, hlast, -, -⟩
  · rw [available_none htokens hlast, hp.capacity]
  · rw [available_some htokens hlast, ← hp.capacity]
    exact min_le_right _ _

theorem Paired.available_nonneg (hrate : 0 ≤ rate)
    (hcapacity : 0 ≤ capacity) (key : Key) : 0 ≤ rl.available key now := by
  rcases hp.entries key with ⟨htokens, hlast⟩ | ⟨tokens, last, htokens, hlast, hnonneg, hle⟩
  · rw [available_none htokens hlast, hp.capacity]
    exact hcapacity
  · rw [available_some htokens hlast, hp.capacity, hp.rate]
    exact le_min (add_nonneg hnonneg (mul_nonneg (sub_nonneg.mpr hle) hrate)) hcapacity

omit hp in
theorem available_fills (hrate : 0 ≤ rl.rate) (key : Key) {t t' : ℚ} (hle : t ≤ t') :
    rl.available key t' ≤ rl.available key t + rl.rate * (t' - t) := by
  have hflow : 0 ≤ rl.rate * (t' - t) := mul_nonneg hrate (sub_nonneg.mpr hle)
  unfold RateLimiter.available
  split
  case h_1 last _ =>
    rw [← min_add_add_right]
    refine le_min ?_ ?_
    · refine (min_le_left _ _).trans (le_of_eq ?_)
      ring
    · exact (min_le_right _ _).trans (le_add_of_nonneg_right hflow)
  case h_2 => exact le_add_of_nonneg_right hflow

theorem Paired.allow (key : Key) : Paired rate capacity (rl.allow key now).2 now := by
  unfold RateLimiter.allow
  dsimp only
  split
  · exact hp
  · rename_i hone
    refine ⟨hp.rate, hp.capacity, fun key' => ?_⟩
    by_cases hkey : key' = key
    · subst hkey
      exact .inr ⟨_, now, lookup_insert _, lookup_insert _,
        sub_nonneg.mpr (not_lt.mp hone), le_refl now⟩
    · show ((rl.tokens.insert _ _).lookup key' = none ∧ (rl.lastAccess.insert _ _).lookup key' = none) ∨
        ∃ tokens last, (rl.tokens.insert _ _).lookup key' = some tokens ∧
          (rl.lastAccess.insert _ _).lookup key' = some last ∧ _
      rw [lookup_insert_ne hkey, lookup_insert_ne hkey]
      exact hp.entries key'

theorem Paired.drops {rl' : RateLimiter Key} (hd : Drops rl rl') :
    Paired rate capacity rl' now := by
  refine ⟨hd.rate.trans hp.rate, hd.capacity.trans hp.capacity, fun key => ?_⟩
  rcases hd.entries key with ⟨htokens, hlast⟩ | hnone
  · rw [htokens, hlast]
    exact hp.entries key
  · exact .inl hnone

theorem Paired.later {t : ℚ} (hle : now ≤ t) : Paired rate capacity rl t := by
  refine ⟨hp.rate, hp.capacity, fun key => ?_⟩
  rcases hp.entries key with hnone | ⟨tokens, last, htokens, hlast, hnonneg, hbefore⟩
  · exact .inl hnone
  · exact .inr ⟨tokens, last, htokens, hlast, hnonneg, hbefore.trans hle⟩

theorem Paired.allow_pays (key key' : Key) : (rl.allow key' now).2.available key now +
        (if decide (key' = key) && (rl.allow key' now).1 then 1 else 0) ≤ rl.available key now := by
  have hbound := hp.available_le key
  unfold RateLimiter.allow
  dsimp only
  split
  · simp
  · by_cases hkey : key' = key
    · subst hkey
      have htaken : RateLimiter.available
          { rl with
            tokens := rl.tokens.insert key' (rl.available key' now - 1)
            lastAccess := rl.lastAccess.insert key' now } key' now ≤ rl.available key' now - 1 := by
        rw [available_some (lookup_insert _) (lookup_insert _), sub_self, zero_mul, add_zero]
        exact min_le_left _ _
      simp only [decide_true, Bool.and_self, if_true]
      linarith
    · have hsame : RateLimiter.available
          { rl with
            tokens := rl.tokens.insert key' (rl.available key' now - 1)
            lastAccess := rl.lastAccess.insert key' now } key now = rl.available key now :=
        available_congr rfl rfl (lookup_insert_ne (Ne.symm hkey))
          (lookup_insert_ne (Ne.symm hkey))
      simp [hkey, hsame]

theorem Paired.cleanup_pays (hrate : 0 ≤ rate)
    (hcapacity : 0 ≤ capacity) (key : Key) (visit : Visit Key) :
    (rl.cleanupExpiredEntries now visit).available key now ≤
      rl.available key now + if dropsEarly key rl (.cleanup now visit) then capacity else 0 := by
  have hnonneg := hp.available_nonneg hrate hcapacity key
  have hgrant : 0 ≤ if dropsEarly key rl (.cleanup now visit) then capacity else 0 := by
    split <;> simp [hcapacity]
  have hd := drops_cleanup rl now visit
  rcases hd.entries key with ⟨htokens, hlast⟩ | ⟨htokens, hlast⟩
  · rw [available_congr hd.rate hd.capacity htokens hlast]
    exact le_add_of_nonneg_right hgrant
  · rw [available_none htokens hlast, hd.capacity, hp.capacity]
    rcases hp.entries key with ⟨htokens', hlast'⟩ | ⟨tokens, last, htokens', hlast', -, -⟩
    · rw [available_none htokens' hlast', hp.capacity]
      exact le_add_of_nonneg_right hgrant
    · by_cases hfull : rl.available key now < rl.capacity
      · have hearly : dropsEarly key rl (.cleanup now visit) = true := by
          simp [dropsEarly, hlast, hlast', hfull]
        rw [hearly, if_pos rfl]
        exact le_add_of_nonneg_left hnonneg
      · rw [not_lt, hp.capacity] at hfull
        exact hfull.trans (le_add_of_nonneg_right hgrant)

end Bucket

theorem refills {rate capacity : ℚ} (hrate : 0 ≤ rate) (hcapacity : 0 ≤ capacity) (key : Key) :
    Refills step Event.time rate capacity (Paired rate capacity)
      (fun rl now => rl.available key now) (allows key) (dropsEarly key) where
  later rl t t' hp hle := hp.later hle
  kept rl e hp := by
    cases e with
    | allow key' now => exact hp.allow key'
    | cleanup now visit => exact hp.drops (drops_cleanup rl now visit)
  nonneg rl t hp := hp.available_nonneg hrate hcapacity key
  bounded rl t hp := hp.available_le key
  fills rl t t' hp hle := by
    have hfills := available_fills (by rw [hp.rate]; exact hrate) key hle
    rwa [hp.rate] at hfills
  pays rl e hp := by
    cases e with
    | allow key' now =>
      have hpays := hp.allow_pays key key'
      simpa [dropsEarly, allows, step, Event.time] using hpays
    | cleanup now visit =>
      change Paired rate capacity rl now at hp
      have hpays := hp.cleanup_pays hrate hcapacity key visit
      simpa [allows, step, Event.time] using hpays

theorem paired_new (rate capacity now : ℚ) :
    Paired rate capacity (newRateLimiter rate capacity : RateLimiter Key) now :=
  ⟨rfl, rfl, fun _ => .inl ⟨rfl, rfl⟩⟩

theorem not_dropsEarly {rate capacity : ℚ} {rl : RateLimiter Key} {e : Event Key}
    (hp : Paired rate capacity rl e.time) (hrate : 0 ≤ rate)
    (hhour : capacity ≤ rate * rateLimiterEntryTTL) (hfew : ¬ crowded rl e) (key : Key) :
    dropsEarly key rl e = false := by
  cases e with
  | allow key' now => rfl
  | cleanup now visit =>
    have hfirst : rl.cleanupExpiredEntries now visit = rl.removeExpired now := by
      exact if_neg hfew
    simp only [dropsEarly, hfirst]
    by_contra hearly
    simp only [Bool.not_eq_false, Bool.and_eq_true, Option.isNone_iff_eq_none,
      decide_eq_true_eq] at hearly
    obtain ⟨⟨hsome, hnone⟩, hless⟩ := hearly
    rcases hp.entries key with ⟨-, hlast⟩ | ⟨tokens, last, htokens, hlast, hnonneg, -⟩
    · simp [hlast] at hsome
    · have hidle := idle_of_removeExpired hlast hnone
      have hfull : capacity ≤ tokens + (now - last) * rate := by
        have hflow : rate * rateLimiterEntryTTL ≤ rate * (now - last) :=
          mul_le_mul_of_nonneg_left (le_of_lt hidle) hrate
        linarith
      rw [available_some htokens hlast, hp.rate, hp.capacity, min_eq_right hfull] at hless
      exact lt_irrefl _ hless

end Limiter

/-! ## Every run -/

/-- The events of a run of a new limiter, each with the state it finds. -/
def history {Key : Type} [DecidableEq Key] (rate capacity : ℚ) (events : List (Event Key)) :
    List (RateLimiter Key × Event Key) :=
  trace step (newRateLimiter rate capacity) events

/-- **The allowed requests of a client in a window** are at most a full bucket, what flows in, and a full bucket
    for each cleanup that drops the client's bucket before it has refilled; there is none where an hour fills a
    bucket and no cleanup finds more than 100000 clients of the last hour. -/
theorem allowed_le {Key : Type} [DecidableEq Key] {rate capacity : ℚ} (hrate : 0 ≤ rate)
    (hcapacity : 0 ≤ capacity) (events : List (Event Key))
    (htimes : (events.map Event.time).Pairwise (· ≤ ·)) (key : Key) {a b : ℚ} (hab : a ≤ b) :
    (countIn Event.time a b (allows key) (history rate capacity events) : ℚ) ≤
        capacity + rate * (b - a) +
          capacity * countIn Event.time a b (dropsEarly key) (history rate capacity events) ∧
      (capacity ≤ rate * rateLimiterEntryTTL →
        (∀ x ∈ history rate capacity events, ¬ crowded x.1 x.2) →
        countIn Event.time a b (dropsEarly key) (history rate capacity events) = 0) := by
  -- The limiter is new at the time of the first event.
  obtain ⟨t, htimed⟩ : ∃ t, Timed Event.time t events := by
    cases events with
    | nil => exact ⟨0, pairwise_singleton _ _⟩
    | cons e events =>
      refine ⟨e.time, pairwise_cons.mpr ⟨fun t ht => ?_, htimes⟩⟩
      rcases mem_cons.mp ht with rfl | ht
      · exact le_refl _
      · exact rel_of_pairwise_cons htimes ht
  have hB := refills hrate hcapacity key
  have hnew : Paired rate capacity (newRateLimiter rate capacity : RateLimiter Key) t :=
    paired_new rate capacity t
  refine ⟨hB.window hrate hcapacity htimed hnew hab, fun hhour hfew => ?_⟩
  refine countP_eq_zero.mpr fun x hx => ?_
  have hpaired := timed_induct hB.later hB.kept htimed hnew x hx
  simp [not_dropsEarly hpaired hrate hhour (hfew x hx) key]

/-- **An hour's pause is worth a full bucket**: the cleanup between two requests drops the client's entry. -/
theorem allowed_after_drop :
    ¬ (countIn Event.time 0 3601 (allows "client") (history (1 / 7200) 1
        [.allow "client" 0, .cleanup 3601 ⟨id, fun _ => .refl _⟩, .allow "client" 3601]) : ℚ) ≤
      1 + 1 / 7200 * (3601 - 0) := by
  have hcount : countIn Event.time 0 3601 (allows "client") (history (1 / 7200) 1
      [.allow "client" 0, .cleanup 3601 ⟨id, fun _ => .refl _⟩, .allow "client" 3601]) = 2 := by
    decide +kernel
  rw [hcount]
  norm_num

/-- Two clients within a minute: one of them refused at its third request. -/
theorem allowed_le_line :
    (countIn Event.time 0 60 (allows "x") (history 1 2
        [.allow "x" 0, .allow "x" 0, .allow "y" 0, .allow "x" 0, .cleanup 60 ⟨id, fun _ => .refl _⟩]) :
          ℚ) ≤ 2 + 1 * (60 - 0) + 2 * countIn Event.time 0 60 (dropsEarly "x") (history 1 2
        [.allow "x" 0, .allow "x" 0, .allow "y" 0, .allow "x" 0,
          .cleanup 60 ⟨id, fun _ => .refl _⟩]) := by
  refine (allowed_le (by norm_num) (by norm_num) _ ?_ "x" (by norm_num)).1
  simp [Event.time]

end LimyeDB.Rest
