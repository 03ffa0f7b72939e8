/-
  THE SEARCH CACHE: least recently used entries go first, old entries are not returned, and a write to the
  collection clears it all.
-/
import LimyeDB.Go.Bytes

namespace LimyeDB.Hybrid

open Go List

structure CacheEntry (V : Type) where
  key : Bytes
  value : V
  expiresAt : ℕ
  deriving DecidableEq, Repr

/-- `items` is the map from the keys of `order` to its elements. -/
structure Cache (V : Type) where
  capacity : ℕ
  ttl : ℕ
  order : List (CacheEntry V)
  deriving DecidableEq, Repr

namespace Cache

variable {V : Type}

def new (capacity ttl : ℕ) : Cache V := ⟨capacity, ttl, []⟩

def find (c : Cache V) (key : Bytes) : Option (CacheEntry V) :=
  c.order.find? fun e => decide (e.key = key)

def others (c : Cache V) (key : Bytes) : List (CacheEntry V) :=
  c.order.filter fun e => decide (e.key ≠ key)

/-- An entry that has expired is removed. -/
def get (c : Cache V) (now : ℕ) (key : Bytes) : Cache V × Option V :=
  match c.find key with
  | none => (c, none)
  | some e =>
    if now < e.expiresAt then ({ c with order := e :: c.others key }, some e.value)
    else ({ c with order := c.others key }, none)

/-- A new key takes the place of the oldest ones, if there are too many. -/
def set (c : Cache V) (now : ℕ) (key : Bytes) (value : V) : Cache V :=
  let e : CacheEntry V := ⟨key, value, now + c.ttl⟩
  match c.find key with
  | some _ => { c with order := e :: c.others key }
  | none => { c with order := e :: c.order.take (c.capacity - 1) }

def clear (c : Cache V) : Cache V := { c with order := [] }

/-! ## What the entries say -/

def Holds (R : Bytes → V → Prop) (c : Cache V) : Prop := ∀ e ∈ c.order, R e.key e.value

variable {R : Bytes → V → Prop} {c : Cache V}

theorem holds_clear (R : Bytes → V → Prop) (c : Cache V) : Holds R c.clear :=
  nofun

theorem holds_of_empty (R : Bytes → V → Prop) (hempty : c.order = []) : Holds R c := by
  intro e he
  rw [hempty] at he
  cases he

variable (h : Holds R c)
include h

theorem Holds.imp {R' : Bytes → V → Prop} (himp : ∀ key v, R key v → R' key v) : Holds R' c :=
  fun e he => himp _ _ (h e he)

theorem Holds.others (key : Bytes) : ∀ e ∈ c.others key, R e.key e.value :=
  fun e he => h e (mem_of_mem_filter he)

omit h in
theorem find_spec {key : Bytes} {e : CacheEntry V} (hfind : c.find key = some e) :
    e ∈ c.order ∧ e.key = key := by
  have hkey := find?_some hfind
  exact ⟨mem_of_find?_eq_some hfind, of_decide_eq_true hkey⟩

theorem Holds.hit {now : ℕ} {key : Bytes} {v : V}
    (hget : (c.get now key).2 = some v) : R key v := by
  unfold get at hget
  split at hget
  · cases hget
  · rename_i e hfind
    obtain ⟨hmem, rfl⟩ := find_spec hfind
    split at hget
    · cases hget
      exact h e hmem
    · cases hget

theorem Holds.get (now : ℕ) (key : Bytes) : Holds R (c.get now key).1 := by
  unfold Cache.get
  split
  · exact h
  · rename_i e hfind
    split
    · exact forall_mem_cons.mpr ⟨h e (find_spec hfind).1, h.others key⟩
    · exact h.others key

theorem Holds.set (now : ℕ) {key : Bytes} {v : V} (hv : R key v) : Holds R (c.set now key v) := by
  unfold Cache.set
  split
  · exact forall_mem_cons.mpr ⟨hv, h.others key⟩
  · exact forall_mem_cons.mpr ⟨hv, fun e he => h e (mem_of_mem_take he)⟩

end Cache

end LimyeDB.Hybrid
