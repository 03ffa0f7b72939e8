/-
  THE NAMES IN THE TABLE OF THE MANAGER (pkg/collection/manager.go), with an error at any step of the file
  system. A collection is its configured name and the rest.
-/
import Mathlib.Data.List.AList
import LimyeDB.Collection.Manager

namespace LimyeDB.Server

open Go
open LimyeDB.Collection (validateName)

/-! ## The source -/

structure Held (X : Type) where
  name : Bytes
  rest : X
  deriving DecidableEq, Repr

structure Names (X : Type) where
  collections : AList fun _ : Bytes => Held X
  maxCollections : ℕ

inductive NamesError where
  | invalidName
  | collectionExists
  | maxCollections
  | collectionNotFound
  | new
  | fileSystem
  | stream
  deriving DecidableEq, Repr

/-- The name in the stream, the name in its configuration, what `New` makes of it, and whether the metadata is
    saved. -/
structure Restored (X : Type) where
  name : Bytes
  configName : Bytes
  made : Option X
  saved : Bool

variable {X : Type}

namespace Names

/-- `loadCollections`: the configurations that are read, in the order of the directories. -/
def load (maxCollections : ℕ) (configs : List (Bytes × X)) : Names X :=
  ⟨configs.foldl (fun t c => t.insert c.1 ⟨c.1, c.2⟩) ∅, maxCollections⟩

def create (m : Names X) (name : Bytes) (made : Option X) (mkdir saved : Bool) :
    Names X × Option NamesError :=
  if !validateName name then (m, some .invalidName)
  else if (m.collections.lookup name).isSome then (m, some .collectionExists)
  else if m.maxCollections ≤ m.collections.entries.length then (m, some .maxCollections)
  else match made with
    | none => (m, some .new)
    | some x =>
      if mkdir && saved then ({ m with collections := m.collections.insert name ⟨name, x⟩ }, none)
      else (m, some .fileSystem)

def delete (m : Names X) (name : Bytes) (removed : Bool) : Names X × Option NamesError :=
  if !validateName name then (m, some .invalidName)
  else if (m.collections.lookup name).isNone then (m, some .collectionNotFound)
  else ({ m with collections := m.collections.erase name }, if removed then none else some .fileSystem)

def rename (m : Names X) (oldName newName : Bytes) (moved saved : Bool) : Names X × Option NamesError :=
  if !validateName newName then (m, some .invalidName)
  else match m.collections.lookup oldName with
    | none => (m, some .collectionNotFound)
    | some coll =>
      if (m.collections.lookup newName).isSome then (m, some .collectionExists)
      else
        let coll := { coll with name := newName }
        if moved then
          ({ m with collections := (m.collections.erase oldName).insert newName coll },
            if saved then none else some .fileSystem)
        else ({ m with collections := m.collections.insert oldName coll }, some .fileSystem)

/-- The loop of `RestoreSnapshot` over what the reader returns; `none` is an error of it. -/
def restoreSnapshot (m : Names X) : List (Option (Restored X)) → Names X × Option NamesError
  | [] => (m, none)
  | none :: _ => (m, some .stream)
  | some r :: rs =>
    match r.made with
    | none => (m, some .new)
    | some x =>
      let m := { m with collections := m.collections.insert r.name ⟨r.configName, x⟩ }
      if r.saved then restoreSnapshot m rs else (m, some .fileSystem)

def get (m : Names X) (name : Bytes) : Except NamesError (Held X) :=
  match m.collections.lookup name with
  | none => .error .collectionNotFound
  | some coll => .ok coll

def list (m : Names X) : List Bytes := m.collections.keys

end Names

inductive NamesCall (X : Type) where
  | create (name : Bytes) (made : Option X) (mkdir saved : Bool)
  | delete (name : Bytes) (removed : Bool)
  | rename (oldName newName : Bytes) (moved saved : Bool)
  | restoreSnapshot (stream : List (Option (Restored X)))

def Names.apply (m : Names X) : NamesCall X → Names X × Option NamesError
  | .create name made mkdir saved => m.create name made mkdir saved
  | .delete name removed => m.delete name removed
  | .rename oldName newName moved saved => m.rename oldName newName moved saved
  | .restoreSnapshot stream => m.restoreSnapshot stream

/-! ## Calls and runs -/

/-- Every collection is under its own name. -/
def Agrees (m : Names X) : Prop := ∀ key coll, m.collections.lookup key = some coll → coll.name = key

/-- A rename that gets to the directory moves it, and a stream has each collection under the name of
    its configuration. -/
def NamesCall.Orderly (m : Names X) : NamesCall X → Prop
  | .rename oldName newName moved _ => validateName newName = true →
      (m.collections.lookup oldName).isSome = true → m.collections.lookup newName = none → moved = true
  | .restoreSnapshot stream => ∀ r, some r ∈ stream → r.name = r.configName
  | _ => True

section Runs

variable {m : Names X} {name : Bytes} {coll : Held X}

theorem Agrees.insert (h : Agrees m) (hname : coll.name = name) :
    Agrees { m with collections := m.collections.insert name coll } := by
  intro key other hlook
  by_cases hkey : key = name
  · subst hkey
    rw [AList.lookup_insert] at hlook
    cases hlook
    exact hname
  · exact h key other (by rwa [AList.lookup_insert_ne hkey] at hlook)

theorem Agrees.erase (h : Agrees m) (name : Bytes) :
    Agrees { m with collections := m.collections.erase name } := by
  intro key other hlook
  by_cases hkey : key = name
  · subst hkey
    simp at hlook
  · exact h key other (by rwa [AList.lookup_erase_ne hkey] at hlook)

theorem Agrees.restoreSnapshot (h : Agrees m) {stream : List (Option (Restored X))}
    (hstream : ∀ r, some r ∈ stream → r.name = r.configName) : Agrees (m.restoreSnapshot stream).1 := by
  induction stream generalizing m with
  | nil => exact h
  | cons r rs ih =>
    cases r with
    | none => exact h
    | some r =>
      rw [Names.restoreSnapshot]
      split
      · exact h
      · rename_i x _
        have hins : Agrees { m with collections := m.collections.insert r.name ⟨r.configName, x⟩ } :=
          h.insert (hstream r List.mem_cons_self).symm
        split_ifs
        · exact ih hins fun r' hr' => hstream r' (List.mem_cons_of_mem _ hr')
        · exact hins

theorem agrees_step (h : Agrees m) {call : NamesCall X} (hcall : call.Orderly m) :
    Agrees (m.apply call).1 := by
  cases call with
  | create name made mkdir saved =>
    change Agrees (m.create name made mkdir saved).1
    unfold Names.create
    cases made with
    | none => split_ifs <;> exact h
    | some x =>
      split_ifs
      · exact h
      · exact h
      · exact h
      · exact h.insert rfl
      · exact h
  | delete name removed =>
    change Agrees (m.delete name removed).1
    unfold Names.delete
    split
    · exact h
    · split
      · exact h
      · exact h.erase name
  | rename oldName newName moved saved =>
    change Agrees (m.rename oldName newName moved saved).1
    unfold Names.rename
    cases hold : m.collections.lookup oldName with
    | none => split_ifs <;> exact h
    | some coll =>
      split_ifs with hvalid hnew hmoved
      · exact h
      · exact h
      · exact (h.erase oldName).insert rfl
      · exact (h.erase oldName).insert rfl
      · refine absurd (hcall (by simpa using hvalid) (by rw [hold]; rfl) ?_) hmoved
        simpa using hnew
  | restoreSnapshot stream => exact h.restoreSnapshot hcall

theorem agrees_load (maxCollections : ℕ) (configs : List (Bytes × X)) :
    Agrees (Names.load maxCollections configs) := by
  have hfold : ∀ t : AList fun _ : Bytes => Held X, Agrees ⟨t, maxCollections⟩ →
      Agrees ⟨configs.foldl (fun t c => t.insert c.1 ⟨c.1, c.2⟩) t, maxCollections⟩ := by
    induction configs with
    | nil => exact fun _ h => h
    | cons c configs ih => exact fun t h => ih _ (h.insert rfl)
  exact hfold ∅ fun key coll hlook => by simp at hlook

end Runs

/-- The tables after orderly calls, whether they fail or not. -/
inductive Tended (X : Type) : Names X → Prop where
  | load (maxCollections : ℕ) (configs : List (Bytes × X)) : Tended X (Names.load maxCollections configs)
  | call {m : Names X} (h : Tended X m) (c : NamesCall X) (hcall : c.Orderly m) : Tended X (m.apply c).1

/-- **In a run of orderly calls, with errors at any step, every collection is registered under its configured
    name, and `List` and `Get` agree with that.** -/
theorem names_agree {m : Names X} (h : Tended X m) :
    Agrees m ∧ (m.list.Nodup ∧ ∀ key, key ∈ m.list ↔ ∃ coll, m.collections.lookup key = some coll) ∧
      ∀ key coll, m.collections.lookup key = some coll → m.get key = .ok coll := by
  have hagrees : Agrees m := by
    induction h with
    | load maxCollections configs => exact agrees_load maxCollections configs
    | call _ c hcall ih => exact agrees_step ih hcall
  refine ⟨hagrees, ⟨m.collections.nodupKeys, fun key => ?_⟩, fun key coll hlook => ?_⟩
  · rw [← Option.isSome_iff_exists, AList.lookup_isSome]
    rfl
  · rw [Names.get, hlook]

theorem names_agree_moved :
    Tended Unit ((Names.load 10 [([97], ())]).apply (.rename [97] [98] true false)).1 ∧
      ((Names.load 10 [([97], ())]).apply (.rename [97] [98] true false)).1.get [98] =
        .ok ⟨[98], ()⟩ := by
  have hrun := (Tended.load 10 [([97], ())]).call (.rename [97] [98] true false) fun _ _ _ => rfl
  exact ⟨hrun, (names_agree hrun).2.2 [98] ⟨[98], ()⟩ rfl⟩

/-- The directory is not renamed: the collection keeps its key and has the new name. -/
theorem rename_disagrees :
    ((Names.load 10 [([97], ())]).rename [97] [98] false true).2 = some .fileSystem ∧
      ((Names.load 10 [([97], ())]).rename [97] [98] false true).1.get [97] = .ok ⟨[98], ()⟩ :=
  ⟨rfl, rfl⟩

end LimyeDB.Server
