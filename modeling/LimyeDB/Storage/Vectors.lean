/-
  MAPPED FILES THAT GROW: the vector file and the graph file with a failure at any of the three system calls
  of a remap, and the inserts that ignore it.

  A float32 is its 32 bits. Reading a mapping that is gone stops the process, which is a panic here.
-/
import LimyeDB.Go.Bytes
import LimyeDB.Storage.Allocator
import LimyeDB.Graph.Mmap

namespace LimyeDB.Storage

open Go Lib.Blocks List

/-! ## Mappings -/

inductive SysCall where
  | munmap | truncate | mmap
  deriving DecidableEq, Repr

/-- A file, and whether the slice of its bytes still denotes a mapping. -/
structure Mapped (α : Type) where
  file : α
  live : Bool

/-- The mapping is given up before the file is made longer. -/
def Mapped.remap {α : Type} (m : Mapped α) (fault : Option SysCall) (grown : α) :
    Mapped α × Option SysCall :=
  if m.live = false ∨ fault = some .munmap then (m, some .munmap)
  else match fault with
    | none => (⟨grown, true⟩, none)
    | some c => (⟨m.file, false⟩, some c)

section Remap

variable {α ι ε β : Type} {m : Mapped α} {c : SysCall} {read : Mapped α → ι → Outcome ε β}

def Survive (read : Mapped α → ι → Outcome ε β) (m m' : Mapped α) : Prop :=
  ∀ i v, read m i = .value v → read m' i = .value v

theorem remap_error (m : Mapped α) (c : SysCall) (grown : α) :
    ∃ m' c', m.remap (some c) grown = (m', some c') := by
  unfold Mapped.remap
  split
  · exact ⟨_, _, rfl⟩
  · exact ⟨_, _, rfl⟩

theorem remap_ok {m' : Mapped α} {fault : Option SysCall} {grown : α}
    (h : m.remap fault grown = (m', none)) : m' = ⟨grown, true⟩ := by
  unfold Mapped.remap at h
  split_ifs at h
  · cases h
  · split at h <;> cases h
    rfl

/-- **After a failed remap the old values are there just if `munmap` failed**, or if there were none. -/
theorem survive_remap_iff (hdead : ∀ i v, read ⟨m.file, false⟩ i ≠ .value v) (grown : α) :
    Survive read m (m.remap (some c) grown).1 ↔ c = .munmap ∨ ∀ i v, read m i ≠ .value v := by
  unfold Mapped.remap
  split_ifs with hsame
  · refine iff_of_true (fun _ _ hread => hread) ?_
    rcases hsame with hlive | hc
    · obtain ⟨file, live⟩ := m
      cases hlive
      exact .inr hdead
    · exact .inl (Option.some.inj hc)
  · constructor
    · intro hsurvive
      exact .inr fun i v hread => hdead i v (hsurvive i v hread)
    · intro h i v hread
      rcases h with rfl | hnone
      · exact absurd (.inr rfl) hsame
      · exact absurd hread (hnone i v)

end Remap

/-! ## The words of a file -/

def putUint32 (data : ℕ → UInt8) (pos : ℕ) (x : UInt32) (c : ℕ) : UInt8 :=
  if pos ≤ c ∧ c < pos + 4 then UInt8.ofNat (x.toNat / 256 ^ (c - pos)) else data c

def getUint32 (data : ℕ → UInt8) (pos : ℕ) : UInt32 :=
  UInt32.ofNat (leNat [data pos, data (pos + 1), data (pos + 2), data (pos + 3)])

def putAll (data : ℕ → UInt8) (pos : ℕ) : List UInt32 → ℕ → UInt8
  | [] => data
  | x :: xs => putAll (putUint32 data pos x) (pos + 4) xs

def getAll (data : ℕ → UInt8) (pos : ℕ) : ℕ → List UInt32
  | 0 => []
  | n + 1 => getUint32 data pos :: getAll data (pos + 4) n

theorem getUint32_put (data : ℕ → UInt8) (pos : ℕ) (x : UInt32) :
    getUint32 (putUint32 data pos x) pos = x := by
  have hbytes : [putUint32 data pos x pos, putUint32 data pos x (pos + 1),
      putUint32 data pos x (pos + 2), putUint32 data pos x (pos + 3)] = leBytes 4 x.toNat := by
    simp [putUint32, leBytes, Nat.div_div_eq_div_mul]
  rw [getUint32, hbytes, leNat_leBytes x.toNat_lt, UInt32.ofNat_toNat]

theorem getUint32_congr {data data' : ℕ → UInt8} {pos : ℕ}
    (h : ∀ c, pos ≤ c → c < pos + 4 → data' c = data c) :
    getUint32 data' pos = getUint32 data pos := by
  unfold getUint32
  rw [h pos (by omega) (by omega), h (pos + 1) (by omega) (by omega), h (pos + 2) (by omega) (by omega),
    h (pos + 3) (by omega) (by omega)]

theorem getAll_congr {data data' : ℕ → UInt8} {n pos : ℕ}
    (h : ∀ c, pos ≤ c → c < pos + 4 * n → data' c = data c) :
    getAll data' pos n = getAll data pos n := by
  induction n generalizing pos with
  | zero => rfl
  | succ n ih =>
    rw [getAll, getAll, getUint32_congr fun c hlo hhi => h c hlo (by omega),
      ih fun c hlo hhi => h c (by omega) (by omega)]

theorem putAll_outside {xs : List UInt32} {data : ℕ → UInt8} {pos c : ℕ}
    (h : c < pos ∨ pos + 4 * xs.length ≤ c) : putAll data pos xs c = data c := by
  induction xs generalizing data pos with
  | nil => rfl
  | cons x xs ih =>
    rw [length_cons] at h
    rw [putAll, ih (by omega), putUint32, if_neg (by omega)]

theorem getAll_putAll (data : ℕ → UInt8) (pos : ℕ) (xs : List UInt32) :
    getAll (putAll data pos xs) pos xs.length = xs := by
  induction xs generalizing data pos with
  | nil => rfl
  | cons x xs ih =>
    rw [length_cons, getAll, putAll, ih]
    congr 1
    rw [getUint32_congr fun c hlo hhi => putAll_outside (.inl hhi), getUint32_put]

/-! ## The vector file -/

/-- `Storage`, without its path and handle. Its numbers are places in a file, far below 2^63. -/
structure VectorFile where
  data : ℕ → UInt8
  capacity : ℕ
  dimension : ℕ
  allocator : Allocator ℕ

inductive StorageError where
  | dimensionMismatch
  | outOfBounds
  | full
  | sys (c : SysCall)
  deriving DecidableEq, Repr

def VectorFile.vectorSize (s : VectorFile) : ℕ := 4 * s.dimension

/-- Twice the capacity, or what is asked for; the new part is zeros. -/
def VectorFile.grown (s : VectorFile) (minSize : ℕ) : VectorFile :=
  { s with
    capacity := if s.capacity * 2 < minSize then minSize else s.capacity * 2
    data := fun c => if c < s.capacity then s.data c else 0 }

namespace Mapped

def grow (m : Mapped VectorFile) (fault : Option SysCall) (minSize : ℕ) : Mapped VectorFile × Option SysCall :=
  m.remap fault (m.file.grown minSize)

def writeVector (m : Mapped VectorFile) (fault : Option SysCall) (offset : ℕ) (vector : List UInt32) :
    Outcome Empty (Mapped VectorFile × Option StorageError) :=
  if vector.length ≠ m.file.dimension then .value (m, some .dimensionMismatch)
  else
    let stop := offset + 4 * vector.length
    match if m.file.capacity < stop then m.grow fault stop else (m, none) with
    | (m, some c) => .value (m, some (.sys c))
    | (m, none) =>
      if m.live = false ∧ vector ≠ [] then .panic
      else .value ({ m with file := { m.file with data := putAll m.file.data offset vector } }, none)

def readVector (m : Mapped VectorFile) (offset : ℕ) : Outcome StorageError (List UInt32) :=
  if m.file.capacity < offset + 4 * m.file.dimension then .error .outOfBounds
  else if m.live = false ∧ m.file.dimension ≠ 0 then .panic
  else .value (getAll m.file.data offset m.file.dimension)

def withAllocator (m : Mapped VectorFile) (a : Allocator ℕ) : Mapped VectorFile :=
  { m with file := { m.file with allocator := a } }

def allocate (m : Mapped VectorFile) (fault : Option SysCall) : Mapped VectorFile × Except StorageError ℕ :=
  match m.file.allocator.allocate m.file.vectorSize with
  | some (a, offset) => (m.withAllocator a, .ok offset)
  | none =>
    let newSize := m.file.capacity * 2
    match m.grow fault newSize with
    | (m, some c) => (m, .error (.sys c))
    | (m, none) =>
      let a := m.file.allocator.extend newSize
      match a.allocate m.file.vectorSize with
      | some (a, offset) => (m.withAllocator a, .ok offset)
      | none => (m.withAllocator a, .error .full)

end Mapped

/-! ## The graph file -/

def addNode (m : Mapped Graph.GraphMmap) (fault : Option SysCall) (nodeID level : ℕ) :
    Outcome Empty (Mapped Graph.GraphMmap × Option SysCall) :=
  let required := Graph.graphHeaderSize + (nodeID + 1) * m.file.nodeStride
  match if required ≤ m.file.size then (m, none)
    else m.remap fault (m.file.ensureCapacity nodeID) with
  | (m, some c) => .value (m, some c)
  | (m, none) =>
    if m.live then .value ({ m with file := m.file.addNode nodeID level }, none) else .panic

/-- The lists of a node, by node and layer. -/
def getConnections (m : Mapped Graph.GraphMmap) (at' : ℕ × ℕ) : Outcome Empty (List ℕ) :=
  if m.live then m.file.getConnections at'.1 at'.2 else .panic

/-! ## A growth that fails -/

/-- Nothing was there to lose: vectors without components, or no vector within the file. -/
def Unread (m : Mapped VectorFile) : Prop :=
  m.file.dimension = 0 ∨ ∀ offset v, m.readVector offset ≠ .value v

theorem survive_grow_iff (m : Mapped VectorFile) (c : SysCall) (minSize : ℕ) :
    Survive Mapped.readVector m (m.grow (some c) minSize).1 ↔ c = .munmap ∨ Unread m := by
  by_cases hdim : m.file.dimension = 0
  · -- the bytes are not touched, and the file is the old one
    refine iff_of_true (fun offset v hread => ?_) (.inr (.inl hdim))
    unfold Mapped.grow Mapped.remap
    split
    · exact hread
    · simpa [Mapped.readVector, hdim] using hread
  · rw [Mapped.grow, survive_remap_iff, Unread, or_iff_right hdim]
    intro offset v hread
    unfold Mapped.readVector at hread
    simp only [hdim, ne_eq, not_false_eq_true, and_self, if_true] at hread
    split_ifs at hread

/-- **A growth that fails leaves every value readable just if it is `munmap` that fails**, or if there was
    none; the call returns an error. -/
theorem growth_failure_iff (c : SysCall) :
    (∀ (m : Mapped VectorFile) (offset : ℕ) (vector : List UInt32),
      vector.length = m.file.dimension → m.file.capacity < offset + 4 * vector.length →
        ((∃ m' e, m.writeVector (some c) offset vector = .value (m', some e) ∧
          Survive Mapped.readVector m m') ↔ c = .munmap ∨ Unread m)) ∧
      (∀ m : Mapped VectorFile, m.file.allocator.allocate m.file.vectorSize = none →
        ((∃ m' e, m.allocate (some c) = (m', .error e) ∧ Survive Mapped.readVector m m') ↔
          c = .munmap ∨ Unread m)) ∧
      ∀ (m : Mapped Graph.GraphMmap) (nodeID level : ℕ),
        m.file.size < Graph.graphHeaderSize + (nodeID + 1) * m.file.nodeStride →
          ((∃ m' e, addNode m (some c) nodeID level = .value (m', some e) ∧
            Survive getConnections m m') ↔
            c = .munmap ∨ ∀ at' ids, getConnections m at' ≠ .value ids) := by
  refine ⟨fun m offset vector hlen hfull => ?_, fun m hfull => ?_, fun m nodeID level hfull => ?_⟩
  · obtain ⟨m', c', hgrow⟩ := remap_error m c (m.file.grown (offset + 4 * vector.length))
    have hcall : m.writeVector (some c) offset vector = .value (m', some (.sys c')) := by
      unfold Mapped.writeVector
      simp only [if_neg (not_not.mpr hlen), if_pos hfull, Mapped.grow, hgrow]
    rw [← survive_grow_iff m c (offset + 4 * vector.length), Mapped.grow, hgrow, hcall]
    simp
  · obtain ⟨m', c', hgrow⟩ := remap_error m c (m.file.grown (m.file.capacity * 2))
    have hcall : m.allocate (some c) = (m', .error (.sys c')) := by
      simp only [Mapped.allocate, hfull, Mapped.grow, hgrow]
    rw [← survive_grow_iff m c (m.file.capacity * 2), Mapped.grow, hgrow, hcall]
    simp
  · obtain ⟨m', c', hgrow⟩ := remap_error m c (m.file.ensureCapacity nodeID)
    have hcall : addNode m (some c) nodeID level = .value (m', some c') := by
      unfold addNode
      simp only [if_neg (Nat.not_le.mpr hfull), hgrow]
    have hdead : ∀ at' ids, getConnections ⟨m.file, false⟩ at' ≠ .value ids := by
      simp [getConnections]
    rw [← survive_remap_iff hdead (m.file.ensureCapacity nodeID), hgrow, hcall]
    simp

def oneVector : Mapped VectorFile := ⟨⟨fun _ => 1, 8, 2, ⟨[], 8, 8⟩⟩, true⟩

theorem growth_failure_iff_munmap : oneVector.file.allocator.allocate oneVector.file.vectorSize = none ∧
    ∃ m' e, oneVector.allocate (some .munmap) = (m', .error e) ∧
      Survive Mapped.readVector oneVector m' :=
  ⟨rfl, ((growth_failure_iff .munmap).2.1 oneVector rfl).mpr (.inl rfl)⟩

/-- The file cannot be made longer, and the vector that is in it is not read any more. -/
theorem growth_failure_loses : oneVector.readVector 0 = .value [16843009, 16843009] ∧
    ∃ m', oneVector.allocate (some .truncate) = (m', .error (.sys .truncate)) ∧
      m'.readVector 0 = .panic :=
  ⟨rfl, _, rfl, rfl⟩

/-! ## Inserts -/

/-- The nodes of an index whose vectors are on disk: ids and offsets. -/
structure DiskIndex where
  storage : Mapped VectorFile
  dimension : ℕ
  nodes : List (Bytes × ℕ)

/-- What fails in a call: the growth of an allocation, that of a write, and `insertNode`. -/
structure InsertCall where
  id : Bytes
  vector : List UInt32
  allocateFault : Option SysCall
  writeFault : Option SysCall
  refused : Bool

inductive InsertError where
  | dimensionMismatch
  | pointExists
  | notAdded
  deriving DecidableEq, Repr

namespace DiskIndex

/-- `Insert` up to the links of the new node. The errors of the storage are dropped, and the offset
    that goes with one is 0. -/
def insert (ix : DiskIndex) (p : InsertCall) : Outcome Empty (DiskIndex × Option InsertError) :=
  if p.vector.length ≠ ix.dimension then .value (ix, some .dimensionMismatch)
  else if p.id ∈ ix.nodes.map Prod.fst then .value (ix, some .pointExists)
  else
    let (storage, allocated) := ix.storage.allocate p.allocateFault
    let offset := match allocated with
      | .ok offset => offset
      | .error _ => 0
    do
      let (storage, _) ← storage.writeVector p.writeFault offset p.vector
      if p.refused then return ({ ix with storage := storage }, some .notAdded)
      else return ({ ix with storage := storage, nodes := ix.nodes ++ [(p.id, offset)] }, none)

/-- `getVector`; a vector that is not read is nil. -/
def getVector (ix : DiskIndex) (offset : ℕ) : Outcome Empty (List UInt32) :=
  match ix.storage.readVector offset with
  | .value v => .value v
  | .error _ => .value []
  | .panic => .panic

end DiskIndex

def Served (m : Mapped VectorFile) (fault : Option SysCall) : Prop :=
  ∃ m' offset, m.allocate fault = (m', .ok offset)

/-- An index that was made over a storage in use, and the vectors that were inserted since: no
    allocation failed. -/
inductive Filled : DiskIndex → List (Bytes × List UInt32) → Prop where
  | new {m : Mapped VectorFile} {allocated : List ℕ} (hlive : m.live = true)
    (hdim : 0 < m.file.dimension) (hrun : Run m.file.vectorSize m.file.allocator allocated)
    (hmax : m.file.allocator.maxSize ≤ m.file.capacity) : Filled ⟨m, m.file.dimension, []⟩ []
  | done {ix ix' stored p} (h : Filled ix stored) (hserved : Served ix.storage p.allocateFault)
    (hins : ix.insert p = .value (ix', none)) : Filled ix' (stored ++ [(p.id, p.vector)])
  | failed {ix ix' stored p e} (h : Filled ix stored) (hserved : Served ix.storage p.allocateFault)
    (hins : ix.insert p = .value (ix', some e)) : Filled ix' stored

/-- The storage of an index: blocks that do not meet, within the file. -/
structure Sound (m : Mapped VectorFile) (allocated : List ℕ) : Prop where
  live : m.live = true
  dim : 0 < m.file.dimension
  allotted : Allotted m.file.allocator m.file.vectorSize allocated
  max : m.file.allocator.maxSize ≤ m.file.capacity

section Inserts

variable {m m' : Mapped VectorFile} {allocated : List ℕ} {offset : ℕ} {vector : List UInt32}

section

variable (h : Sound m allocated)
include h

theorem Sound.size_pos : 0 < m.file.vectorSize :=
  Nat.mul_pos (by decide) h.dim

theorem Sound.within (hmem : offset ∈ allocated) :
    offset + m.file.vectorSize ≤ m.file.capacity := by
  have hblock : ⟨offset, m.file.vectorSize⟩ ∈ blocksAt m.file.vectorSize allocated ++
      m.file.allocator.freeList :=
    mem_append_left _ (mem_map.mpr ⟨offset, hmem, rfl⟩)
  exact (h.allotted.tiles.le hblock h.size_pos).trans (h.allotted.bound.trans h.max)

omit h in
theorem Sound.apart (h : Sound m (offset :: allocated)) {o : ℕ} (hmem : o ∈ allocated) :
    Block.Apart ⟨offset, m.file.vectorSize⟩ ⟨o, m.file.vectorSize⟩ := by
  have hpair := h.allotted.tiles.apart (h.allotted.size_pos h.size_pos)
  rw [blocksAt, map_cons, cons_append, pairwise_cons] at hpair
  exact hpair.1 _ (mem_append_left _ (mem_map.mpr ⟨o, hmem, rfl⟩))

theorem Sound.grown :
    Sound ⟨{ m.file.grown (m.file.capacity * 2) with
      allocator := m.file.allocator.extend (m.file.capacity * 2) }, true⟩ allocated := by
  refine ⟨rfl, h.dim, h.allotted.extend (h.max.trans (by omega)), ?_⟩
  simp [VectorFile.grown, Allocator.extend]

theorem Sound.allocate {fault : Option SysCall}
    (halloc : m.allocate fault = (m', .ok offset)) : Sound m' (offset :: allocated) ∧
      m'.file.dimension = m.file.dimension ∧
      ∀ o ∈ allocated, getAll m'.file.data o m.file.dimension = getAll m.file.data o m.file.dimension := by
  unfold Mapped.allocate at halloc
  cases hfit : m.file.allocator.allocate m.file.vectorSize with
  | some x =>
    obtain ⟨a, o⟩ := x
    rw [hfit] at halloc
    cases halloc
    refine ⟨⟨h.live, h.dim, h.allotted.allocate hfit, ?_⟩, rfl, fun _ _ => rfl⟩
    exact (allocate_maxSize hfit).trans_le h.max
  | none =>
    rw [hfit] at halloc
    simp only at halloc
    split at halloc
    · cases halloc
    · rename_i m₁ hgrow
      obtain rfl := remap_ok hgrow
      split at halloc
      · rename_i a o hfit'
        cases halloc
        refine ⟨⟨rfl, h.dim, h.grown.allotted.allocate hfit', ?_⟩, rfl, fun o ho => ?_⟩
        · exact (allocate_maxSize hfit').trans_le h.grown.max
        · refine getAll_congr fun c _ hc => if_pos (hc.trans_le (h.within ho))
      · cases halloc

end

theorem Sound.write (h : Sound m (offset :: allocated)) (hlen : vector.length = m.file.dimension)
    (fault : Option SysCall) : ∃ m', m.writeVector fault offset vector = .value (m', none) ∧
      Sound m' (offset :: allocated) ∧ m'.file.dimension = m.file.dimension ∧
      getAll m'.file.data offset m.file.dimension = vector ∧
      ∀ o ∈ allocated, getAll m'.file.data o m.file.dimension = getAll m.file.data o m.file.dimension := by
  have hroom : ¬ m.file.capacity < offset + 4 * vector.length := by
    rw [hlen]
    exact Nat.not_lt.mpr (h.within mem_cons_self)
  refine ⟨⟨{ m.file with data := putAll m.file.data offset vector }, m.live⟩, ?_,
    ⟨h.live, h.dim, h.allotted, h.max⟩, rfl, ?_, fun o ho => ?_⟩
  · unfold Mapped.writeVector
    simp only [if_neg (not_not.mpr hlen), if_neg hroom, h.live, Bool.true_eq_false, false_and, if_false]
  · rw [← hlen]
    exact getAll_putAll m.file.data offset vector
  · refine getAll_congr fun c hlo hhi => putAll_outside ?_
    have hapart := h.apart ho
    unfold Block.Apart VectorFile.vectorSize at hapart
    simp only at hapart
    omega

structure Kept (ix : DiskIndex) (stored : List (Bytes × List UInt32)) (allocated : List ℕ) : Prop where
  sound : Sound ix.storage allocated
  dim : ix.storage.file.dimension = ix.dimension
  nodes : List.Forall₂ (fun node (s : Bytes × List UInt32) => node.1 = s.1 ∧ node.2 ∈ allocated ∧
    getAll ix.storage.file.data node.2 ix.dimension = s.2) ix.nodes stored

variable {ix ix' : DiskIndex} {stored : List (Bytes × List UInt32)} {p : InsertCall}

theorem Kept.insert (h : Kept ix stored allocated) (hserved : Served ix.storage p.allocateFault) :
    ∃ ix' e allocated', ix.insert p = .value (ix', e) ∧
      Kept ix' (if e = none then stored ++ [(p.id, p.vector)] else stored) allocated' := by
  unfold DiskIndex.insert
  by_cases hlen : p.vector.length ≠ ix.dimension
  · exact ⟨ix, some .dimensionMismatch, allocated, if_pos hlen, h⟩
  rw [if_neg hlen]
  by_cases hmem : p.id ∈ ix.nodes.map Prod.fst
  · exact ⟨ix, some .pointExists, allocated, if_pos hmem, h⟩
  · rw [if_neg hmem]
    obtain ⟨m₁, offset, halloc⟩ := hserved
    obtain ⟨hsound, hdim, hkeep⟩ := h.sound.allocate halloc
    have hlen' : p.vector.length = m₁.file.dimension := by
      rw [hdim, h.dim]
      exact not_not.mp hlen
    obtain ⟨m₂, hwrite, hsound', hdim', hnew, hkeep'⟩ := hsound.write hlen' p.writeFault
    rw [hdim, h.dim] at hnew hkeep' hdim'
    rw [h.dim] at hkeep
    -- the other vectors are not touched by either call
    have hold := h.nodes.imp fun node s ⟨hid, hin, hget⟩ =>
      (⟨hid, mem_cons_of_mem offset hin, by rw [hkeep' _ hin, hkeep _ hin, hget]⟩ :
        node.1 = s.1 ∧ node.2 ∈ offset :: allocated ∧ getAll m₂.file.data node.2 ix.dimension = s.2)
    simp only [halloc, hwrite, Outcome.value_bind, Outcome.pure_eq]
    cases p.refused with
    | true => exact ⟨_, _, _, rfl, hsound', hdim', hold⟩
    | false =>
      refine ⟨_, _, _, rfl, hsound', hdim', ?_⟩
      have hlast : List.Forall₂ (fun node (s : Bytes × List UInt32) => node.1 = s.1 ∧
          node.2 ∈ offset :: allocated ∧ getAll m₂.file.data node.2 ix.dimension = s.2)
          [(p.id, offset)] [(p.id, p.vector)] := .cons ⟨rfl, mem_cons_self, hnew⟩ .nil
      exact rel_append hold hlast

theorem Filled.kept (h : Filled ix stored) : ∃ allocated, Kept ix stored allocated := by
  induction h with
  | new hlive hdim hrun hmax =>
    exact ⟨_, ⟨hlive, hdim, hrun.allotted (Nat.mul_pos (by decide) hdim), hmax⟩, rfl, .nil⟩
  | done h hserved hins ih =>
    obtain ⟨allocated, hkept⟩ := ih
    obtain ⟨ix', e, allocated', hins', hkept'⟩ := hkept.insert hserved
    cases hins.symm.trans hins'
    exact ⟨allocated', hkept'⟩
  | failed h hserved hins ih =>
    obtain ⟨allocated, hkept⟩ := ih
    obtain ⟨ix', e, allocated', hins', hkept'⟩ := hkept.insert hserved
    cases hins.symm.trans hins'
    exact ⟨allocated', hkept'⟩

end Inserts

/-- **If no allocation fails, every vector that was inserted is read back**, and the next insert
    returns. -/
theorem inserts_read_back {ix : DiskIndex} {stored : List (Bytes × List UInt32)}
    (h : Filled ix stored) :
    List.Forall₂ (fun node s => node.1 = s.1 ∧ ix.getVector node.2 = .value s.2) ix.nodes stored ∧
      ∀ p, Served ix.storage p.allocateFault → ∃ r, ix.insert p = .value r := by
  obtain ⟨allocated, hkept⟩ := h.kept
  have hread : ∀ offset ∈ allocated,
      ix.getVector offset = .value (getAll ix.storage.file.data offset ix.dimension) := by
    intro offset hin
    have hread : ix.storage.readVector offset =
        .value (getAll ix.storage.file.data offset ix.dimension) := by
      have hwithin : ¬ ix.storage.file.capacity < offset + 4 * ix.storage.file.dimension :=
        Nat.not_lt.mpr (hkept.sound.within hin)
      rw [Mapped.readVector, if_neg hwithin, if_neg (by simp [hkept.sound.live]), hkept.dim]
    rw [DiskIndex.getVector, hread]
  constructor
  · refine hkept.nodes.imp ?_
    intro node s ⟨hid, hin, hget⟩
    exact ⟨hid, by rw [hread _ hin, hget]⟩
  · intro p hserved
    obtain ⟨ix', e, allocated', hins, -⟩ := hkept.insert hserved
    exact ⟨_, hins⟩

def emptyIndex (capacity dimension : ℕ) : DiskIndex :=
  ⟨⟨⟨fun _ => 0, capacity, dimension, newAllocator capacity⟩, true⟩, dimension, []⟩

/-- Two inserts into a file with room for two vectors. -/
theorem inserts_read_back_two : ∃ ix, Filled ix [([1], [7]), ([2], [9])] ∧
    List.Forall₂ (fun node s => node.1 = s.1 ∧ ix.getVector node.2 = .value s.2) ix.nodes
      [([1], [7]), ([2], [9])] := by
  have hnew : Filled (emptyIndex 8 1) [] := .new rfl (by decide) (.new 8 (Nat.zero_le 8)) (le_refl 8)
  have hone := hnew.done (p := ⟨[1], [7], none, none, false⟩) ⟨_, _, rfl⟩ rfl
  have htwo := hone.done (p := ⟨[2], [9], none, none, false⟩) ⟨_, _, rfl⟩ rfl
  exact ⟨_, htwo, (inserts_read_back htwo).1⟩

/-- The file cannot grow for a second vector: the insert returns no error, and the first vector is
    gone. -/
theorem inserts_overwrite : ∃ ix ix', (emptyIndex 4 1).insert ⟨[1], [7], none, none, false⟩ = .value (ix, none) ∧
    ix.insert ⟨[2], [9], some .munmap, none, false⟩ = .value (ix', none) ∧
    ix.nodes = [([1], 0)] ∧ ix.getVector 0 = .value [7] ∧
    ix'.nodes = [([1], 0), ([2], 0)] ∧ ix'.getVector 0 = .value [9] :=
  ⟨_, _, rfl, rfl, rfl, by decide +kernel, rfl, by decide +kernel⟩

end LimyeDB.Storage
