/-
  TABLES WHOSE KEYS ARE WRITTEN ONCE: a deleted key leaves a tombstone, and no later insert can use it again.
  Over any keys and values, with a bound on their number.
-/
import Mathlib

namespace LimyeDB.Lib.WriteOnce

open List

variable {K V : Type} [DecidableEq K]

/-! ## Tables and commands -/

inductive Slot (V : Type) where
  | absent
  | live (v : V)
  | dead
  deriving DecidableEq, Repr

def Slot.value : Slot V → Option V
  | .live v => some v
  | _ => none

@[ext] structure Table (K V : Type) where
  slot : K → Slot V
  used : ℕ

def Table.empty : Table K V := ⟨fun _ => .absent, 0⟩

def Table.find (t : Table K V) (k : K) : Option V := (t.slot k).value

inductive Cmd (K V : Type) where
  | insert (k : K) (v : V)
  | upsert (k : K) (v : V)
  | delete (k : K)
  deriving DecidableEq, Repr

def Cmd.key : Cmd K V → K
  | .insert k _ => k
  | .upsert k _ => k
  | .delete k => k

/-- The command takes a value away where it finds one. -/
def Cmd.kills : Cmd K V → Bool
  | .insert _ _ => false
  | _ => true

/-- A fresh key is written as long as fewer than `cap` keys are used. -/
def Table.insert (cap : ℕ) (t : Table K V) (k : K) (v : V) : Table K V :=
  match t.slot k with
  | .absent => if t.used < cap then ⟨Function.update t.slot k (.live v), t.used + 1⟩ else t
  | _ => t

def Table.delete (t : Table K V) (k : K) : Table K V :=
  match t.slot k with
  | .live _ => { t with slot := Function.update t.slot k .dead }
  | _ => t

def Table.upsert (cap : ℕ) (t : Table K V) (k : K) (v : V) : Table K V :=
  (t.delete k).insert cap k v

def Table.apply (cap : ℕ) (t : Table K V) : Cmd K V → Table K V
  | .insert k v => t.insert cap k v
  | .upsert k v => t.upsert cap k v
  | .delete k => t.delete k

def Table.replay (cap : ℕ) (t : Table K V) (log : List (Cmd K V)) : Table K V :=
  log.foldl (Table.apply cap) t

/-! ## What a command does to its slot -/

/-- A command on the slot of its key, in a table that is full or not. -/
def Slot.apply (full : Prop) [Decidable full] : Slot V → Cmd K V → Slot V
  | .absent, .insert _ v => if full then .absent else .live v
  | .absent, .upsert _ v => if full then .absent else .live v
  | .live _, .upsert _ _ => .dead
  | .live _, .delete _ => .dead
  | s, _ => s

section Steps

variable {cap : ℕ} {t : Table K V}

theorem slot_insert (k k' : K) (v : V) : (t.insert cap k v).slot k' =
    if k = k' then (t.slot k').apply (cap ≤ t.used) (.insert k v) else t.slot k' := by
  unfold Table.insert
  by_cases hk : k = k'
  · subst hk
    cases hs : t.slot k with
    | absent =>
      by_cases hroom : t.used < cap
      · simp [Slot.apply, hroom, Nat.not_le.mpr hroom]
      · simp [Slot.apply, hroom, hs, Nat.le_of_not_lt hroom]
    | live v => simpa [Slot.apply] using hs
    | dead => simpa [Slot.apply] using hs
  · rw [if_neg hk]
    split
    · split
      · exact Function.update_of_ne (Ne.symm hk) _ _
      · rfl
    · rfl

theorem slot_delete (full : Prop) [Decidable full] (k k' : K) : (t.delete k).slot k' =
    if k = k' then (t.slot k').apply full (.delete k) else t.slot k' := by
  unfold Table.delete
  by_cases hk : k = k'
  · subst hk
    cases hs : t.slot k with
    | absent => simpa [Slot.apply] using hs
    | live v => simp [Slot.apply]
    | dead => simpa [Slot.apply] using hs
  · rw [if_neg hk]
    split
    · exact Function.update_of_ne (Ne.symm hk) _ _
    · rfl

@[simp] theorem used_delete (k : K) : (t.delete k).used = t.used := by
  unfold Table.delete
  split <;> rfl

/-- **A command acts on its own key's slot**, and there as the three-state machine. -/
theorem slot_apply (c : Cmd K V) (k : K) : (t.apply cap c).slot k =
    if c.key = k then (t.slot k).apply (cap ≤ t.used) c else t.slot k := by
  cases c with
  | insert k' v => exact slot_insert k' k v
  | delete k' => exact slot_delete _ k' k
  | upsert k' v =>
    show ((t.delete k').insert cap k' v).slot k = _
    rw [slot_insert, slot_delete (cap ≤ t.used), used_delete]
    by_cases hk : k' = k
    · subst hk
      simp only [if_true, Cmd.key]
      cases t.slot k' <;> simp [Slot.apply]
    · simp [Cmd.key, hk]

theorem used_le_insert (k : K) (v : V) : t.used ≤ (t.insert cap k v).used := by
  unfold Table.insert
  split
  · split
    · exact Nat.le_succ _
    · exact le_rfl
  · exact le_rfl

theorem used_le_apply (c : Cmd K V) : t.used ≤ (t.apply cap c).used := by
  cases c with
  | insert k v => exact used_le_insert k v
  | delete k => exact (used_delete k).ge
  | upsert k v => exact (used_delete k).ge.trans (used_le_insert k v)

end Steps

theorem slot_replay_absent {cap : ℕ} {k : K} {log : List (Cmd K V)} {t : Table K V}
    (hlog : ∀ c ∈ log, c.key = k → c = .delete k) (h : t.slot k = .absent) :
    (t.replay cap log).slot k = .absent := by
  induction log generalizing t with
  | nil => exact h
  | cons c log ih =>
    refine ih (fun c' hc' => hlog c' (mem_cons_of_mem _ hc')) ?_
    rw [slot_apply, h]
    split
    case isTrue hkey =>
      rw [hlog c mem_cons_self hkey]
      rfl
    case isFalse => rfl

/-! ## A log over its own outcome -/

/-- The command has had its chance: its key is written, or no key can be any more. -/
def Settled (cap : ℕ) (t : Table K V) : Cmd K V → Prop
  | .delete _ => True
  | c => t.slot c.key ≠ .absent ∨ cap ≤ t.used

section Settled

variable {cap : ℕ} {t : Table K V}

omit [DecidableEq K] in
theorem Settled.of_written {c : Cmd K V} (h : t.slot c.key ≠ .absent ∨ cap ≤ t.used) :
    Settled cap t c := by
  cases c with
  | delete k => trivial
  | _ => exact h

theorem slot_apply_ne_absent {k : K} (h : t.slot k ≠ .absent) (c : Cmd K V) :
    (t.apply cap c).slot k ≠ .absent := by
  rw [slot_apply]
  split
  · cases hs : t.slot k with
    | absent => exact absurd hs h
    | live v => cases c <;> simp [Slot.apply]
    | dead => cases c <;> simp [Slot.apply]
  · exact h

theorem Settled.apply {c : Cmd K V} (h : Settled cap t c) (c' : Cmd K V) :
    Settled cap (t.apply cap c') c := by
  have hmono : t.slot c.key ≠ .absent ∨ cap ≤ t.used →
      (t.apply cap c').slot c.key ≠ .absent ∨ cap ≤ (t.apply cap c').used :=
    Or.imp (fun hs => slot_apply_ne_absent hs c') fun hfull => hfull.trans (used_le_apply c')
  cases c with
  | delete k => trivial
  | _ => exact hmono h

theorem settled_self (c : Cmd K V) : Settled cap (t.apply cap c) c := by
  cases c with
  | delete k => trivial
  | insert k v | upsert k v =>
    refine Settled.of_written ?_
    by_cases hfull : cap ≤ t.used
    · exact .inr (hfull.trans (used_le_apply _))
    · left
      rw [slot_apply, if_pos rfl]
      cases t.slot (Cmd.key _) <;> simp [Slot.apply, hfull]

theorem Settled.replay {c : Cmd K V} (h : Settled cap t c) (log : List (Cmd K V)) :
    Settled cap (t.replay cap log) c := by
  induction log generalizing t with
  | nil => exact h
  | cons c' log ih => exact ih (h.apply c')

theorem settled_replay (log : List (Cmd K V)) : ∀ c ∈ log, Settled cap (t.replay cap log) c := by
  induction log generalizing t with
  | nil => exact forall_mem_nil _
  | cons c log ih => exact forall_mem_cons.mpr ⟨(settled_self c).replay log, ih⟩

/-- A settled command has one effect left: an upsert or a delete makes a live key dead. -/
theorem slot_apply_settled {c : Cmd K V} (h : Settled cap t c) (k : K) : (t.apply cap c).slot k =
      if c.key = k ∧ c.kills ∧ (t.slot k).value.isSome then .dead else t.slot k := by
  rw [slot_apply]
  by_cases hk : c.key = k
  · subst hk
    cases hs : t.slot c.key with
    | live v => cases c <;> simp [Slot.apply, Slot.value, Cmd.kills]
    | dead => cases c <;> simp [Slot.apply, Slot.value]
    | absent =>
      cases c with
      | delete k => simp [Slot.apply, Slot.value]
      | insert k v | upsert k v =>
        have hfull : cap ≤ t.used := h.resolve_left fun hne => hne hs
        simp [Slot.apply, Slot.value, hfull]
  · simp [hk]

/-- **A log of settled commands** leaves each slot, or makes a live one dead. -/
theorem slot_replay_settled {log : List (Cmd K V)} (h : ∀ c ∈ log, Settled cap t c) (k : K) :
    (t.replay cap log).slot k =
      if (∃ c ∈ log, c.key = k ∧ c.kills) ∧ (t.slot k).value.isSome then .dead else t.slot k := by
  induction log generalizing t with
  | nil => simp [Table.replay]
  | cons c log ih =>
    have hc := h c mem_cons_self
    show ((t.apply cap c).replay cap log).slot k = _
    rw [ih fun c' hc' => (h c' (mem_cons_of_mem _ hc')).apply c, slot_apply_settled hc]
    by_cases hkill : c.key = k ∧ c.kills = true
    · by_cases hlive : (t.slot k).value.isSome = true
      · have hdead : (if c.key = k ∧ c.kills = true ∧ (t.slot k).value.isSome = true then .dead
            else t.slot k) = .dead := if_pos ⟨hkill.1, hkill.2, hlive⟩
        rw [hdead, ite_self, if_pos ⟨⟨c, mem_cons_self, hkill⟩, hlive⟩]
      · simp [hlive]
    · have hskip : ¬ (c.key = k ∧ c.kills = true ∧ (t.slot k).value.isSome = true) :=
        fun hall => hkill ⟨hall.1, hall.2.1⟩
      rw [if_neg hskip]
      simp only [exists_mem_cons_iff, hkill, false_or]

/-- **A log replayed over a state that its commands have led to changes nothing, exactly if no key found there
    has an upsert or a delete in the log.** -/
theorem replay_over_iff (cap : ℕ) (t₀ : Table K V) {applied log : List (Cmd K V)}
    (hlog : ∀ c ∈ log, c ∈ applied) :
    (∀ k, ((t₀.replay cap applied).replay cap log).find k = (t₀.replay cap applied).find k) ↔
      ∀ c ∈ log, c.kills → (t₀.replay cap applied).find c.key = none := by
  have hset : ∀ c ∈ log, Settled cap (t₀.replay cap applied) c := fun c hc =>
    settled_replay applied c (hlog c hc)
  unfold Table.find
  constructor
  · intro hsame c hc hkill
    by_contra hfound
    have hlive := Option.isSome_iff_ne_none.mpr hfound
    have hk := hsame c.key
    rw [slot_replay_settled hset, if_pos ⟨⟨c, hc, rfl, hkill⟩, hlive⟩] at hk
    exact hfound hk.symm
  · intro hnone k
    rw [slot_replay_settled hset]
    split
    case isTrue h =>
      obtain ⟨⟨c, hc, rfl, hkill⟩, hlive⟩ := h
      rw [hnone c hc hkill] at hlive
      cases hlive
    case isFalse => rfl

end Settled

/-! ## Two commands in either order -/

end LimyeDB.Lib.WriteOnce
