/-
  POLYGONS ON THE MAP (pkg/index/geo/geo.go), with rationals for floats: the ray from a point, and the box
  around the exterior, which is searched first.
-/
import LimyeDB.Quantization

namespace LimyeDB.Geo

open List

structure Point where
  lat : ℚ
  lon : ℚ
  deriving DecidableEq

structure BoundingBox where
  topLeft : Point
  bottomRight : Point

/-- A box whose left edge is not left of the right one crosses the antimeridian. -/
def BoundingBox.contains (bb : BoundingBox) (p : Point) : Bool :=
  if bb.topLeft.lon ≤ bb.bottomRight.lon then
    p.lat ≤ bb.topLeft.lat ∧ bb.bottomRight.lat ≤ p.lat ∧ bb.topLeft.lon ≤ p.lon ∧ p.lon ≤ bb.bottomRight.lon
  else
    p.lat ≤ bb.topLeft.lat ∧ bb.bottomRight.lat ≤ p.lat ∧ (bb.topLeft.lon ≤ p.lon ∨ p.lon ≤ bb.bottomRight.lon)

structure Polygon where
  exterior : List Point
  interior : List (List Point)

/-- The longitude at which the edge has the latitude of the point. -/
def meets (p i j : Point) : ℚ := (j.lon - i.lon) * (p.lat - i.lat) / (j.lat - i.lat) + i.lon

def above (p q : Point) : Bool := p.lat < q.lat

def crosses (p i j : Point) : Bool := above p i ≠ above p j ∧ p.lon < meets p i j

/-- The loop, with the point before the next one. -/
def castRay (p : Point) : Point → List Point → Bool → Bool
  | _, [], inside => inside
  | j, i :: ring, inside => castRay p i ring (if crosses p i j then !inside else inside)

def pointInRing (p : Point) (ring : List Point) : Bool :=
  if ring.length < 3 then false else castRay p (ring.getLastD p) ring false

def Polygon.contains (poly : Polygon) (p : Point) : Bool :=
  pointInRing p poly.exterior && !poly.interior.any (pointInRing p)

def BoundingBox.extend (bb : BoundingBox) (p : Point) : BoundingBox :=
  ⟨⟨max bb.topLeft.lat p.lat, min bb.topLeft.lon p.lon⟩, ⟨min bb.bottomRight.lat p.lat, max bb.bottomRight.lon p.lon⟩⟩

def polygonBoundingBox : List Point → BoundingBox
  | [] => ⟨⟨0, 0⟩, ⟨0, 0⟩⟩
  | p :: points => points.foldl .extend ⟨p, p⟩

structure GeoEntry where
  docID : UInt32
  point : Point
  deriving DecidableEq

/-- `Add` puts an entry into the cell of its point; the map of the points is read by no search. -/
structure Index where
  cells : UInt64 → List GeoEntry
  cellSize : ℚ

namespace Index

def cellOf (idx : Index) (x : ℚ) : ℤ := Quantization.toInt (x / idx.cellSize)

def cellAt (cellLat cellLon : ℤ) : UInt64 := .ofInt (cellLat + 900) * 3600 + .ofInt (cellLon + 1800)

def cellID (idx : Index) (p : Point) : UInt64 := cellAt (idx.cellOf p.lat) (idx.cellOf p.lon)

def limited (limit : ℤ) (results : List GeoEntry) : List GeoEntry :=
  if 0 < limit ∧ limit < results.length then results.take limit.toNat else results

def searchBoundingBox (idx : Index) (bb : BoundingBox) (limit : ℤ) : List GeoEntry :=
  limited limit <|
    (Int.range (idx.cellOf bb.bottomRight.lat) (idx.cellOf bb.topLeft.lat + 1)).flatMap fun cellLat =>
      (Int.range (idx.cellOf bb.topLeft.lon) (idx.cellOf bb.bottomRight.lon + 1)).flatMap fun cellLon =>
        (idx.cells (cellAt cellLat cellLon)).filter (bb.contains ·.point)

def searchPolygon (idx : Index) (poly : Polygon) (limit : ℤ) : List GeoEntry :=
  limited limit ((idx.searchBoundingBox (polygonBoundingBox poly.exterior) 0).filter (poly.contains ·.point))

end Index

/-! ## The box -/

structure Around (bb : BoundingBox) (p : Point) : Prop where
  top : p.lat ≤ bb.topLeft.lat
  bottom : bb.bottomRight.lat ≤ p.lat
  left : bb.topLeft.lon ≤ p.lon
  right : p.lon ≤ bb.bottomRight.lon

variable {bb : BoundingBox} {p : Point}

theorem Around.contains (h : Around bb p) : bb.contains p := by
  simp [BoundingBox.contains, h.left.trans h.right, h.top, h.bottom, h.left, h.right]

theorem around_foldl {q : Point} (points : List Point) (h : Around bb q ∨ q ∈ points) :
    Around (points.foldl .extend bb) q := by
  induction points generalizing bb with
  | nil => simpa using h
  | cons p points ih =>
    refine ih ?_
    rcases h with h | h
    · exact .inl ⟨le_max_of_le_left h.top, min_le_of_left_le h.bottom, min_le_of_left_le h.left, le_max_of_le_left h.right⟩
    · rcases mem_cons.mp h with rfl | h
      · exact .inl ⟨le_max_right _ _, min_le_right _ _, min_le_right _ _, le_max_right _ _⟩
      · exact .inr h

theorem around_box {q : Point} {points : List Point} (hq : q ∈ points) : Around (polygonBoundingBox points) q := by
  cases points with
  | nil => cases hq
  | cons p points =>
    refine around_foldl points ((mem_cons.mp hq).imp_left ?_)
    rintro rfl
    exact ⟨le_rfl, le_rfl, le_rfl, le_rfl⟩

/-! ## The ray -/

theorem Around.edge {i j : Point} (hi : Around bb i) (hj : Around bb j)
    (h : above p i ≠ above p j) : Around bb ⟨p.lat, meets p i j⟩ := by
  have hlat : j.lat ≤ p.lat ∧ p.lat < i.lat ∨ i.lat ≤ p.lat ∧ p.lat < j.lat := by
    by_cases hi : p.lat < i.lat <;> simp_all [above]
  obtain ⟨t, ht, ht', heq⟩ : ∃ t, 0 ≤ t ∧ t ≤ 1 ∧ meets p i j = (1 - t) * i.lon + t * j.lon := by
    refine ⟨(p.lat - i.lat) / (j.lat - i.lat), ?_, ?_, by rw [meets]; ring⟩
    · rcases hlat with hlat | hlat
      · exact div_nonneg_of_nonpos (by linarith) (by linarith)
      · exact div_nonneg (by linarith) (by linarith)
    · rcases hlat with hlat | hlat
      · exact (div_le_one_of_neg (by linarith)).mpr (by linarith)
      · exact (div_le_one (by linarith)).mpr (by linarith)
  have hlon : bb.topLeft.lon ≤ meets p i j ∧ meets p i j ≤ bb.bottomRight.lon := by
    constructor <;> nlinarith [hi.left, hj.left, hi.right, hj.right]
  rcases hlat with hlat | hlat
  · exact ⟨hlat.2.le.trans hi.top, hj.bottom.trans hlat.1, hlon.1, hlon.2⟩
  · exact ⟨hlat.2.le.trans hj.top, hi.bottom.trans hlat.1, hlon.1, hlon.2⟩

/-- Where the edges crossed are those between two sides, the ray of a point crosses an even number of them. -/
theorem castRay_eq (side : Point → Bool) {ring : List Point} {j : Point} {inside : Bool}
    (h : ∀ a ∈ ring, ∀ b ∈ j :: ring, crosses p a b = (side a != side b)) :
    castRay p j ring inside = (inside ^^ (side j ^^ side (ring.getLastD j))) := by
  induction ring generalizing j inside with
  | nil => simp [castRay]
  | cons i ring ih =>
    have hi := h i mem_cons_self j mem_cons_self
    rw [castRay, ih fun a ha b hb => h a (mem_cons_of_mem _ ha) b (mem_cons_of_mem _ hb), hi, getLastD_cons]
    cases side i <;> cases side j <;> cases inside <;> simp

theorem not_inside (side : Point → Bool) {ring : List Point}
    (h : ∀ a ∈ ring, ∀ b ∈ ring, crosses p a b = (side a != side b)) : pointInRing p ring = false := by
  unfold pointInRing
  split_ifs with hlen
  · rfl
  · cases ring with
    | nil => simp at hlen
    | cons i ring =>
      rw [getLastD_cons, castRay_eq side fun a ha b hb => h a ha b ?_, getLastD_cons]
      · simp
      · rcases mem_cons.mp hb with rfl | hb
        · exact getLastD_mem_cons
        · exact hb

theorem around_of_inside {ring : List Point} (h : pointInRing p ring) :
    Around (polygonBoundingBox ring) p := by
  by_contra hout
  suffices hfalse : pointInRing p ring = false from Bool.false_ne_true (hfalse.symm.trans h)
  by_cases hleft : p.lon < (polygonBoundingBox ring).topLeft.lon
  · -- every edge between below and above is crossed
    refine not_inside (above p) fun a ha b hb => ?_
    by_cases hab : above p a = above p b
    · simp [crosses, hab]
    · have hedge := (around_box ha).edge (around_box hb) hab
      simp [crosses, hab, hleft.trans_le hedge.left]
  · -- none is
    refine not_inside (fun _ => false) fun a ha b hb => ?_
    rw [bne_self_eq_false, crosses, decide_eq_false_iff_not]
    rintro ⟨hab, hlt⟩
    have hedge := (around_box ha).edge (around_box hb) hab
    exact hout ⟨hedge.top, hedge.bottom, not_lt.mp hleft, hlt.le.trans hedge.right⟩

/-! ## The cells -/

theorem toInt_mono {x y : ℚ} (h : x ≤ y) : Quantization.toInt x ≤ Quantization.toInt y := by
  unfold Quantization.toInt
  split_ifs with hx hy
  · exact Int.floor_le_floor h
  · exact absurd (hx.trans h) hy
  · exact (Int.ceil_le.mpr (by simpa using (not_le.mp hx).le)).trans (Int.floor_nonneg.mpr ‹_›)
  · exact Int.ceil_le_ceil h

theorem mem_searchBoundingBox {idx : Index} (hsize : 0 < idx.cellSize) {e : GeoEntry}
    (he : e ∈ idx.cells (idx.cellID e.point)) (h : Around bb e.point) : e ∈ idx.searchBoundingBox bb 0 := by
  have hcell : ∀ {x y : ℚ}, x ≤ y → idx.cellOf x ≤ idx.cellOf y := fun hle =>
    toInt_mono (div_le_div_of_nonneg_right hle hsize.le)
  simp only [Index.searchBoundingBox, Index.limited, lt_irrefl, false_and, if_false, mem_flatMap, Int.mem_range_iff,
    Int.lt_add_one_iff]
  exact ⟨_, ⟨hcell h.bottom, hcell h.top⟩, _, ⟨hcell h.left, hcell h.right⟩, mem_filter.mpr ⟨he, h.contains⟩⟩

/-- **What a polygon contains lies in the box around its exterior, and the search of the box first leaves out
    no entry of the polygon.** -/
theorem polygon_in_box (poly : Polygon) : (∀ p, poly.contains p → (polygonBoundingBox poly.exterior).contains p) ∧
    ∀ idx : Index, 0 < idx.cellSize → ∀ e ∈ idx.cells (idx.cellID e.point),
      e ∈ idx.searchPolygon poly 0 ↔ poly.contains e.point := by
  have hbox : ∀ p, poly.contains p → Around (polygonBoundingBox poly.exterior) p := fun p hp =>
    around_of_inside (Bool.and_eq_true_iff.mp hp).1
  refine ⟨fun p hp => (hbox p hp).contains, fun idx hsize e he => ?_⟩
  simp only [Index.searchPolygon, Index.limited, lt_irrefl, false_and, if_false, mem_filter]
  exact and_iff_right_of_imp fun hp => mem_searchBoundingBox hsize he (hbox _ hp)

/-- A triangle with a hole. -/
def triangle : Polygon := ⟨[⟨0, 0⟩, ⟨0, 8⟩, ⟨8, 0⟩], [[⟨2, 2⟩, ⟨2, 4⟩, ⟨4, 2⟩]]⟩

/-- One entry in the triangle, one in its hole and one beyond it, all in one cell. -/
def threeEntries : Index :=
  ⟨fun c => if c = Index.cellAt 0 0 then [⟨1, ⟨1, 1⟩⟩, ⟨2, ⟨5 / 2, 5 / 2⟩⟩, ⟨3, ⟨7, 7⟩⟩] else [], 10⟩

theorem polygon_in_box_triangle : (polygonBoundingBox triangle.exterior).contains ⟨1, 1⟩ ∧
    ⟨1, ⟨1, 1⟩⟩ ∈ threeEntries.searchPolygon triangle 0 ∧
    ⟨2, ⟨5 / 2, 5 / 2⟩⟩ ∉ threeEntries.searchPolygon triangle 0 ∧
    ⟨3, ⟨7, 7⟩⟩ ∉ threeEntries.searchPolygon triangle 0 := by
  obtain ⟨hbox, hsearch⟩ := polygon_in_box triangle
  have hfound := hsearch threeEntries (by decide)
  refine ⟨hbox _ (by decide +kernel), (hfound _ (by decide +kernel)).mpr (by decide +kernel), ?_, ?_⟩
  · exact mt (hfound _ (by decide +kernel)).mp (by decide +kernel)
  · exact mt (hfound _ (by decide +kernel)).mp (by decide +kernel)

end LimyeDB.Geo
