/-
  THE GRAPH ON DISK: one block of fixed size a node, with its level, the number of its links at each layer,
  and room for the links.

  All offsets are multiples of four, so the file is its 32-bit words. What a file gains are zeros; one that
  was there before holds whatever was left in it.
-/
import LimyeDB.Go.Outcome

namespace LimyeDB.Graph

open Go List Outcome Function

/-- `GraphHeaderSize` and `DefaultMaxLevel`; the header's size in words. -/
def graphHeaderSize : ℕ := 16

def defaultMaxLevel : ℕ := 16

structure GraphMmap where
  words : ℕ → ℕ
  size : ℕ
  M : ℕ
  maxLevel : ℕ
  nodeStride : ℕ
  numNodes : ℕ

namespace GraphMmap

/-! ## The file -/

/-- Level, counts, layer 0 and the upper layers. -/
def stride (m : ℕ) : ℕ := 1 + (defaultMaxLevel + 1) + 2 * m + defaultMaxLevel * m

/-- A file that was just created: the header, and room for 10000 nodes. -/
def fresh (m : ℕ) : GraphMmap where
  words i := if i = 1 then m else if i = 2 then defaultMaxLevel else if i = 3 then stride m else 0
  size := graphHeaderSize + stride m * 10000
  M := m
  maxLevel := defaultMaxLevel
  nodeStride := stride m
  numNodes := 0

/-- A file that was there: only the number of nodes is read from it. -/
def opened (m : ℕ) (words : ℕ → ℕ) (size : ℕ) : GraphMmap where
  words := words
  size := size
  M := m
  maxLevel := defaultMaxLevel
  nodeStride := stride m
  numNodes := words 0

def read (g : GraphMmap) (i : ℕ) : Outcome Empty ℕ :=
  if i < g.size then .value (g.words i) else .panic

def write (g : GraphMmap) (i x : ℕ) : Outcome Empty GraphMmap :=
  if i < g.size then .value { g with words := update g.words i x } else .panic

/-- Twice the size, or what is required; the new part is zeros. -/
def ensureCapacity (g : GraphMmap) (nodeID : ℕ) : GraphMmap :=
  let required := graphHeaderSize + (nodeID + 1) * g.nodeStride
  if required ≤ g.size then g
  else { g with
    words := fun i => if i < g.size then g.words i else 0
    size := if g.size * 2 < required then required else g.size * 2 }

def blockOffset (g : GraphMmap) (nodeID : ℕ) : ℕ := graphHeaderSize + nodeID * g.nodeStride

/-- The level is written, and nothing else of the block. The mapping has the block, so this does
    not panic. -/
def addNode (g : GraphMmap) (nodeID level : ℕ) : GraphMmap :=
  let g := g.ensureCapacity nodeID
  let g := { g with words := update g.words (g.blockOffset nodeID) level }
  if g.numNodes ≤ nodeID then
    { g with numNodes := nodeID + 1, words := update g.words 0 (nodeID + 1) }
  else g

def countOffset (g : GraphMmap) (nodeID layer : ℕ) : ℕ := g.blockOffset nodeID + 1 + layer

def dataOffset (g : GraphMmap) (nodeID layer : ℕ) : ℕ :=
  g.blockOffset nodeID + 1 + (g.maxLevel + 1) +
    if 0 < layer then 2 * g.M + (layer - 1) * g.M else 0

def readWords (g : GraphMmap) (offset : ℕ) : ℕ → Outcome Empty (List ℕ)
  | 0 => .value []
  | count + 1 => do
    let x ← g.read offset
    let xs ← readWords g (offset + 1) count
    return x :: xs

def writeWords (g : GraphMmap) (offset : ℕ) : List ℕ → Outcome Empty GraphMmap
  | [] => .value g
  | x :: xs => do
    let g ← g.write offset x
    writeWords g (offset + 1) xs

/-- The list has as many entries as the count says, whatever room there is for it. -/
def getConnections (g : GraphMmap) (nodeID layer : ℕ) : Outcome Empty (List ℕ) := do
  let level ← g.read (g.blockOffset nodeID)
  if level < layer then return []
  let count ← g.read (g.countOffset nodeID layer)
  g.readWords (g.dataOffset nodeID layer) count

def setConnections (g : GraphMmap) (nodeID layer : ℕ) (connections : List ℕ) :
    Outcome Empty GraphMmap := do
  let g ← g.write (g.countOffset nodeID layer) connections.length
  g.writeWords (g.dataOffset nodeID layer) connections

/-! ## The layout -/

def room (m layer : ℕ) : ℕ := if layer = 0 then 2 * m else m

def ahead (m layer : ℕ) : ℕ := if 0 < layer then 2 * m + (layer - 1) * m else 0

/-- The file is laid out for `m` links. -/
structure Laid (g : GraphMmap) (m : ℕ) : Prop where
  M : g.M = m
  maxLevel : g.maxLevel = defaultMaxLevel
  nodeStride : g.nodeStride = stride m

def Has (g : GraphMmap) (m nodeID : ℕ) : Prop := graphHeaderSize + (nodeID + 1) * stride m ≤ g.size

/-- The list that stands at a layer of a block, as long as the count says. -/
def listAt (g : GraphMmap) (nodeID layer : ℕ) : List ℕ :=
  (range (g.words (g.countOffset nodeID layer))).map fun k =>
    g.words (g.dataOffset nodeID layer + k)

section Layout

variable {g : GraphMmap} {m nodeID layer : ℕ}

theorem stride_eq (m : ℕ) : stride m = 18 + 18 * m := by
  unfold stride defaultMaxLevel
  ring

theorem ahead_mono {layer' : ℕ} (hlt : layer < layer') :
    ahead m layer + room m layer ≤ ahead m layer' := by
  obtain ⟨d, rfl⟩ := Nat.exists_eq_add_of_lt hlt
  cases layer with
  | zero => simp [ahead, room]
  | succ layer =>
    simp only [ahead, room, Nat.succ_pos, if_true, Nat.add_one_ne_zero, if_false]
    have hprod : (layer + 1 + d + 1 - 1) * m = (layer + 1 - 1) * m + m + d * m := by
      rw [Nat.add_sub_cancel, Nat.add_sub_cancel]
      ring
    omega

theorem ahead_room_le (hlayer : layer ≤ defaultMaxLevel) :
    ahead m layer + room m layer ≤ 18 * m := by
  have htop : ahead m (defaultMaxLevel + 1) = 18 * m := by
    simp only [ahead, defaultMaxLevel, Nat.succ_pos, if_true]
    omega
  rw [← htop]
  exact ahead_mono (Nat.lt_succ_of_le hlayer)

variable (hL : g.Laid m)
include hL

theorem Laid.blockOffset (nodeID : ℕ) :
    g.blockOffset nodeID = graphHeaderSize + nodeID * stride m := by
  unfold GraphMmap.blockOffset
  rw [hL.nodeStride]

theorem Laid.dataOffset (nodeID layer : ℕ) :
    g.dataOffset nodeID layer = g.blockOffset nodeID + 18 + ahead m layer := by
  unfold GraphMmap.dataOffset ahead
  rw [hL.maxLevel, hL.M]
  rfl

theorem Laid.same {g' : GraphMmap} (hL' : g'.Laid m) :
    g'.blockOffset = g.blockOffset ∧ g'.countOffset = g.countOffset ∧
      g'.dataOffset = g.dataOffset := by
  have hblock : g'.blockOffset = g.blockOffset := by
    funext i
    rw [hL.blockOffset, hL'.blockOffset]
  refine ⟨hblock, ?_, ?_⟩
  · unfold countOffset
    rw [hblock]
  · funext i layer
    rw [hL.dataOffset, hL'.dataOffset, hblock]

theorem Laid.has_iff : g.Has m nodeID ↔ g.blockOffset nodeID + 18 + 18 * m ≤ g.size := by
  unfold Has
  rw [hL.blockOffset, Nat.add_mul, Nat.one_mul, stride_eq, Nat.add_assoc, Nat.add_assoc]

theorem Laid.blocks {i j : ℕ} (hij : i ≠ j) : g.blockOffset i + 18 + 18 * m ≤ g.blockOffset j ∨
      g.blockOffset j + 18 + 18 * m ≤ g.blockOffset i := by
  have hstep : ∀ a b : ℕ, a < b → a * stride m + stride m ≤ b * stride m := by
    intro a b hab
    rw [← Nat.succ_mul]
    exact Nat.mul_le_mul_right _ hab
  rw [hL.blockOffset, hL.blockOffset]
  have hsize := stride_eq m
  rcases Nat.lt_or_gt_of_ne hij with hlt | hlt
  · have := hstep i j hlt
    omega
  · have := hstep j i hlt
    omega

end Layout

/-! ## Reading and writing lists -/

def overwrite (words : ℕ → ℕ) (offset : ℕ) (xs : List ℕ) (w : ℕ) : ℕ :=
  if offset ≤ w then (xs[w - offset]?).getD (words w) else words w

def withList (g : GraphMmap) (nodeID layer : ℕ) (ids : List ℕ) : GraphMmap :=
  let words := update g.words (g.countOffset nodeID layer) ids.length
  { g with words := overwrite words (g.dataOffset nodeID layer) ids }

section Lists

variable {g : GraphMmap} {m nodeID layer : ℕ} {ids : List ℕ}

theorem readWords_eq (offset count : ℕ) (hin : offset + count ≤ g.size) : g.readWords offset count =
      .value ((range count).map fun k => g.words (offset + k)) := by
  induction count generalizing offset with
  | zero => rfl
  | succ count ih =>
    unfold readWords read
    rw [if_pos (by omega), ih (offset + 1) (by omega), range_succ_eq_map]
    simp only [value_bind, pure_eq, map_cons, map_map, Nat.add_zero]
    congr 2
    refine map_congr_left fun k _ => ?_
    congr 1
    omega

theorem writeWords_eq (g : GraphMmap) (offset : ℕ) (xs : List ℕ)
    (hin : offset + xs.length ≤ g.size) :
    g.writeWords offset xs = .value { g with words := overwrite g.words offset xs } := by
  induction xs generalizing g offset with
  | nil =>
    have hsame : overwrite g.words offset [] = g.words := by
      funext w
      simp [overwrite]
    rw [hsame]
    rfl
  | cons x xs ih =>
    rw [length_cons] at hin
    unfold writeWords write
    rw [if_pos (by omega)]
    simp only [value_bind]
    rw [ih _ _ (by simpa using by omega)]
    congr 2
    funext w
    unfold overwrite
    rcases Nat.lt_trichotomy w offset with hlt | rfl | hlt
    · simp [Nat.not_le.mpr hlt, Nat.not_le.mpr (Nat.lt_succ_of_lt hlt), hlt.ne]
    · simp
    · obtain ⟨d, rfl⟩ := Nat.exists_eq_add_of_lt hlt
      have hback : offset + (d + 1) - (offset + 1) = d := by omega
      simp [Nat.add_assoc, hback]

theorem overwrite_of_lt {words : ℕ → ℕ} {offset w : ℕ} (hlt : w < offset) :
    overwrite words offset ids w = words w :=
  if_neg (Nat.not_le.mpr hlt)

theorem overwrite_of_ge {words : ℕ → ℕ} {offset w : ℕ} (hge : offset + ids.length ≤ w) :
    overwrite words offset ids w = words w := by
  unfold overwrite
  rw [if_pos (by omega), getElem?_eq_none (by omega)]
  rfl

theorem setConnections_eq (hL : g.Laid m) (hhas : g.Has m nodeID) (hlayer : layer ≤ defaultMaxLevel)
    (hids : ids.length ≤ room m layer) :
    g.setConnections nodeID layer ids = .value (g.withList nodeID layer ids) := by
  have hend := hL.has_iff.mp hhas
  have hdata := hL.dataOffset nodeID layer
  have hroom := ahead_room_le (m := m) hlayer
  have hcount : g.countOffset nodeID layer < g.size := by
    unfold countOffset
    unfold defaultMaxLevel at hlayer
    omega
  unfold setConnections write
  rw [if_pos hcount]
  exact writeWords_eq _ _ _ (show g.dataOffset nodeID layer + ids.length ≤ g.size by omega)

theorem getConnections_above (hL : g.Laid m) (hhas : g.Has m nodeID)
    (hlevel : g.words (g.blockOffset nodeID) < layer) : g.getConnections nodeID layer = .value [] := by
  have hend := hL.has_iff.mp hhas
  unfold getConnections read
  rw [if_pos (by omega)]
  simp only [value_bind, hlevel, if_true]
  rfl

theorem getConnections_eq (hL : g.Laid m) (hhas : g.Has m nodeID)
    (hlayer : layer ≤ defaultMaxLevel) (hlevel : layer ≤ g.words (g.blockOffset nodeID))
    (hcount : g.words (g.countOffset nodeID layer) ≤ room m layer) :
    g.getConnections nodeID layer = .value (g.listAt nodeID layer) := by
  have hend := hL.has_iff.mp hhas
  have hdata := hL.dataOffset nodeID layer
  have hroom := ahead_room_le (m := m) hlayer
  have hin : g.countOffset nodeID layer < g.size := by
    unfold countOffset
    unfold defaultMaxLevel at hlayer
    omega
  unfold getConnections read
  rw [if_pos (by omega), if_pos hin]
  simp only [value_bind, Nat.not_lt.mpr hlevel, if_false]
  exact readWords_eq _ _ (by omega)

end Lists

/-! ## What a write leaves alone -/

section Frame

variable {g : GraphMmap} {m nodeID layer j k : ℕ} {ids : List ℕ}

theorem withList_word {w : ℕ} (hcount : w ≠ g.countOffset nodeID layer)
    (hdata : w < g.dataOffset nodeID layer ∨ g.dataOffset nodeID layer + ids.length ≤ w) :
    (g.withList nodeID layer ids).words w = g.words w := by
  have hupdate : update g.words (g.countOffset nodeID layer) ids.length w = g.words w :=
    update_of_ne hcount _ _
  rcases hdata with hlt | hge
  · exact (overwrite_of_lt hlt).trans hupdate
  · exact (overwrite_of_ge hge).trans hupdate

variable (hL : g.Laid m)
include hL

theorem Laid.withList : (g.withList nodeID layer ids).Laid m :=
  ⟨hL.M, hL.maxLevel, hL.nodeStride⟩

variable (hlayer : layer ≤ defaultMaxLevel) (hids : ids.length ≤ room m layer)
include hlayer hids

theorem withList_level (j : ℕ) :
    (g.withList nodeID layer ids).words (g.blockOffset j) = g.words (g.blockOffset j) := by
  have hdata := hL.dataOffset nodeID layer
  have hroom := ahead_room_le (m := m) hlayer
  unfold defaultMaxLevel at hlayer
  by_cases hj : j = nodeID
  · subst hj
    exact withList_word (by unfold countOffset; omega) (.inl (by omega))
  · have hblocks := hL.blocks hj
    exact withList_word (by unfold countOffset; omega) (by omega)

omit hids in
theorem withList_count_self :
    (g.withList nodeID layer ids).words (g.countOffset nodeID layer) = ids.length := by
  have hdata := hL.dataOffset nodeID layer
  unfold defaultMaxLevel at hlayer
  have hlt : g.countOffset nodeID layer < g.dataOffset nodeID layer := by
    unfold countOffset
    omega
  exact (overwrite_of_lt hlt).trans (update_self ..)

omit hids in
theorem withList_listAt_self : (g.withList nodeID layer ids).listAt nodeID layer = ids := by
  have hcount : (g.withList nodeID layer ids).words (g.countOffset nodeID layer) = ids.length :=
    withList_count_self hL hlayer
  have hdef : (g.withList nodeID layer ids).listAt nodeID layer =
    (range ((g.withList nodeID layer ids).words (g.countOffset nodeID layer))).map fun t =>
      (g.withList nodeID layer ids).words (g.dataOffset nodeID layer + t) := rfl
  rw [hdef, hcount]
  refine ext_getElem (by simp) fun t _ ht => ?_
  simp [withList, overwrite, ht]

theorem withList_other (hk : k ≤ defaultMaxLevel) (hother : ¬ (j = nodeID ∧ k = layer)) :
    (g.withList nodeID layer ids).words (g.countOffset j k) = g.words (g.countOffset j k) ∧
      ∀ t < room m k, (g.withList nodeID layer ids).words (g.dataOffset j k + t) =
        g.words (g.dataOffset j k + t) := by
  have hdata := hL.dataOffset nodeID layer
  have hdata' := hL.dataOffset j k
  have hroom := ahead_room_le (m := m) hlayer
  have hroom' := ahead_room_le (m := m) hk
  unfold defaultMaxLevel at hlayer hk
  by_cases hj : j = nodeID
  · subst hj
    have hne : k ≠ layer := fun heq => hother ⟨rfl, heq⟩
    refine ⟨withList_word (by unfold countOffset; omega) ?_, fun t ht => ?_⟩
    · unfold countOffset
      omega
    · refine withList_word (by unfold countOffset; omega) ?_
      rcases Nat.lt_or_gt_of_ne hne with hlt | hlt
      · have hbefore := ahead_mono (m := m) hlt
        omega
      · have hbefore := ahead_mono (m := m) hlt
        omega
  · have hblocks := hL.blocks hj
    refine ⟨withList_word (by unfold countOffset; omega) ?_, fun t ht => ?_⟩
    · unfold countOffset
      omega
    · exact withList_word (by unfold countOffset; omega) (by omega)

theorem withList_listAt_other (hk : k ≤ defaultMaxLevel)
    (hother : ¬ (j = nodeID ∧ k = layer)) (hcount : g.words (g.countOffset j k) ≤ room m k) :
    (g.withList nodeID layer ids).listAt j k = g.listAt j k := by
  obtain ⟨hsame, hwords⟩ := withList_other hL hlayer hids hk hother
  have hdef : (g.withList nodeID layer ids).listAt j k =
    (range ((g.withList nodeID layer ids).words (g.countOffset j k))).map fun t =>
      (g.withList nodeID layer ids).words (g.dataOffset j k + t) := rfl
  rw [hdef, hsame]
  refine map_congr_left fun t ht => hwords t ?_
  exact lt_of_lt_of_le (mem_range.mp ht) hcount

end Frame

/-! ## A new block -/

/-- What stands at a layer of a block before its node is added. -/
def leftover (g : GraphMmap) (nodeID layer : ℕ) : List ℕ :=
  (g.ensureCapacity nodeID).listAt nodeID layer

section Block

variable {g : GraphMmap} {m nodeID layer level : ℕ}

theorem Laid.ensureCapacity (hL : g.Laid m) : (g.ensureCapacity nodeID).Laid m := by
  unfold GraphMmap.ensureCapacity
  simp only
  split
  · exact hL
  · exact ⟨hL.M, hL.maxLevel, hL.nodeStride⟩

theorem ensureCapacity_has (hL : g.Laid m) : (g.ensureCapacity nodeID).Has m nodeID := by
  unfold GraphMmap.ensureCapacity Has
  simp only [hL.nodeStride]
  split
  case isTrue hle => exact hle
  case isFalse hle =>
    simp only
    split <;> omega

theorem size_le_ensureCapacity : g.size ≤ (g.ensureCapacity nodeID).size := by
  unfold GraphMmap.ensureCapacity
  simp only
  split
  · exact le_rfl
  · simp only
    split <;> omega

theorem ensureCapacity_word {w : ℕ} (hw : w < g.size) :
    (g.ensureCapacity nodeID).words w = g.words w := by
  unfold GraphMmap.ensureCapacity
  simp only
  split
  · rfl
  · exact if_pos hw

theorem addNode_word {w : ℕ} (hzero : w ≠ 0)
    (hblock : w ≠ (g.ensureCapacity nodeID).blockOffset nodeID) :
    (g.addNode nodeID level).words w = (g.ensureCapacity nodeID).words w := by
  unfold addNode
  simp only
  split
  · exact (update_of_ne hzero ..).trans (update_of_ne hblock ..)
  · exact update_of_ne hblock ..

variable (hL : g.Laid m)
include hL

theorem addNode_level :
    (g.addNode nodeID level).words ((g.ensureCapacity nodeID).blockOffset nodeID) = level := by
  have hne : (g.ensureCapacity nodeID).blockOffset nodeID ≠ 0 := by
    rw [hL.ensureCapacity.blockOffset]
    unfold graphHeaderSize
    omega
  unfold addNode
  simp only
  split
  · exact (update_of_ne hne ..).trans (update_self ..)
  · exact update_self ..

theorem Laid.addNode : (g.addNode nodeID level).Laid m := by
  obtain ⟨hM, hmax, hstride⟩ : (g.ensureCapacity nodeID).Laid m := hL.ensureCapacity
  unfold GraphMmap.addNode
  simp only
  split
  · exact ⟨hM, hmax, hstride⟩
  · exact ⟨hM, hmax, hstride⟩

omit hL in
theorem addNode_size : (g.addNode nodeID level).size = (g.ensureCapacity nodeID).size := by
  unfold addNode
  simp only
  split <;> rfl

theorem addNode_other {j : ℕ} (hhas : g.Has m j) (hj : j ≠ nodeID) {w : ℕ}
    (hfrom : g.blockOffset j ≤ w) (hto : w < g.blockOffset j + 18 + 18 * m) :
    (g.addNode nodeID level).words w = g.words w := by
  have hend := hL.has_iff.mp hhas
  have hblocks := hL.blocks hj
  have hpos : graphHeaderSize ≤ g.blockOffset j := Nat.le_add_right ..
  unfold graphHeaderSize at hpos
  rw [addNode_word (by omega), ensureCapacity_word (by omega)]
  rw [(hL.same hL.ensureCapacity).1]
  omega

theorem addNode_leftover : (g.addNode nodeID level).words (g.countOffset nodeID layer) =
        (g.leftover nodeID layer).length ∧
      (g.addNode nodeID level).listAt nodeID layer = g.leftover nodeID layer := by
  have hE : (g.ensureCapacity nodeID).Laid m := hL.ensureCapacity
  obtain ⟨hblock, hcount, hdata⟩ := hL.same hE
  have hA : (g.addNode nodeID level).Laid m := hL.addNode
  obtain ⟨-, hcount', hdata'⟩ := hL.same hA
  have hpos : graphHeaderSize ≤ g.blockOffset nodeID := Nat.le_add_right ..
  have hfirst : (g.addNode nodeID level).words (g.countOffset nodeID layer) =
      (g.ensureCapacity nodeID).words (g.countOffset nodeID layer) := by
    refine addNode_word ?_ ?_
    · unfold countOffset
      omega
    · rw [hblock]
      unfold countOffset
      omega
  unfold leftover listAt
  rw [hcount, hdata, hcount', hdata', length_map, length_range, hfirst]
  refine ⟨rfl, map_congr_left fun t _ => ?_⟩
  have hoffset := hL.dataOffset nodeID layer
  exact addNode_word (by omega) (by rw [hblock]; omega)

theorem listAt_congr {g' : GraphMmap} {j : ℕ} (hL' : g'.Laid m) (hlayer : layer ≤ defaultMaxLevel)
    (hcount : g.words (g.countOffset j layer) ≤ room m layer)
    (hwords : ∀ w, g.blockOffset j ≤ w → w < g.blockOffset j + 18 + 18 * m → g'.words w = g.words w) :
    g'.words (g'.countOffset j layer) = g.words (g.countOffset j layer) ∧
      g'.listAt j layer = g.listAt j layer := by
  obtain ⟨-, hcount', hdata'⟩ := hL.same hL'
  have hdata := hL.dataOffset j layer
  have hroom := ahead_room_le (m := m) hlayer
  unfold defaultMaxLevel at hlayer
  have hsame : g'.words (g.countOffset j layer) = g.words (g.countOffset j layer) :=
    hwords _ (by unfold countOffset; omega) (by unfold countOffset; omega)
  unfold listAt
  rw [hcount', hdata', hsame]
  refine ⟨rfl, map_congr_left fun t ht => ?_⟩
  have := mem_range.mp ht
  exact hwords _ (by omega) (by omega)

omit hL in
/-- The old blocks are as they were, and the node has one with what stood there. -/
structure NodeAdded (m : ℕ) (g g' : GraphMmap) (nodeID level : ℕ) : Prop where
  laid : g'.Laid m
  grown : g.size ≤ g'.size
  has : g'.Has m nodeID
  level : g'.words (g'.blockOffset nodeID) = level
  own : ∀ layer, g'.words (g'.countOffset nodeID layer) = (g.leftover nodeID layer).length ∧
    g'.listAt nodeID layer = g.leftover nodeID layer
  levels : ∀ j, g.Has m j → j ≠ nodeID → g'.words (g'.blockOffset j) = g.words (g.blockOffset j)
  lists : ∀ j, g.Has m j → j ≠ nodeID → ∀ layer ≤ defaultMaxLevel,
    g.words (g.countOffset j layer) ≤ room m layer →
    g'.words (g'.countOffset j layer) = g.words (g.countOffset j layer) ∧
      g'.listAt j layer = g.listAt j layer

theorem Laid.added (nodeID level : ℕ) : NodeAdded m g (g.addNode nodeID level) nodeID level := by
  have hA : (g.addNode nodeID level).Laid m := hL.addNode
  obtain ⟨hblock, hcount, -⟩ := hL.same hA
  obtain ⟨hEblock, -, -⟩ := hL.same (hL.ensureCapacity : (g.ensureCapacity nodeID).Laid m)
  refine ⟨hA, ?_, ?_, ?_, fun layer => ?_, fun j hhas hj => ?_, fun j hhas hj layer hlayer hroom => ?_⟩
  · rw [addNode_size]
    exact size_le_ensureCapacity
  · unfold Has
    rw [addNode_size]
    exact ensureCapacity_has hL
  · rw [hblock, ← hEblock]
    exact addNode_level hL
  · rw [hcount]
    exact addNode_leftover hL
  · rw [hblock]
    exact addNode_other hL hhas hj le_rfl (by omega)
  · exact listAt_congr hL hA hlayer hroom fun _ hfrom hto => addNode_other hL hhas hj hfrom hto

end Block

end GraphMmap

end LimyeDB.Graph
