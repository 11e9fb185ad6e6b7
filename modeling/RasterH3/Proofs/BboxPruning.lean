import RasterH3.Agg.Coordinates

/-!
# What pruning drops

A scan asks three questions about the box of a query. Does the chunk meet it, which columns
of a row can lie in it, and does this sample lie in it? Only the last answer is exact. The
first two are there to save work, and should never lose a sample that the last one keeps.

On a north-up WGS84 grid they do not, with one exception: the meridian where longitude 180
meets -180. The exact test wraps a longitude and takes the two names for one; the bounds of
a chunk and the window of columns are intervals, compared as they are written. Away from
that meridian nothing is lost; on it, `SeamCovered` says exactly when nothing is.

The proof follows the three tests. On a north-up grid the bounds of a chunk are its edges
(`NorthUp.bounds`), unless it reaches around too much of the globe and is given all
longitudes (`Wide`). `rect_iff` compares that rectangle with the box for a longitude which
the exact test keeps, and `window_iff` does the same for the columns: the window is computed
by division and rounding, and widened by a column on either side, so that it has a slack of
a known size in which the sample has to be found. Both come out as an equivalence, with a
condition that speaks of the box on the antimeridian only.

`RowPruner.columns_iff` asks nothing of the grid but its longitudes along a row and the
latitudes of the row, and serves the other grids that have a pruner as well. For WGS84 the
pieces are put together in `kept_sample_reached_iff`.
-/

namespace RasterH3.Agg

open Raster

variable {F : Type} [Field F] [LinearOrder F] [IsStrictOrderedRing F] [FloorRing F]

/-! ## Wrapping -/

theorem wrapLon_spec (x : F) : ∃ k : Int, wrapLon x = x - 360 * k ∧
    -180 ≤ wrapLon x ∧ wrapLon x < 180 := by
  have hle := Int.floor_le ((x + 180) / 360)
  have hlt := Int.lt_floor_add_one ((x + 180) / 360)
  rw [le_div_iff₀ (by norm_num)] at hle
  rw [div_lt_iff₀ (by norm_num)] at hlt
  unfold wrapLon remEuclid
  exact ⟨⌊(x + 180) / 360⌋, by ring, by linarith, by linarith⟩

theorem wrapLon_of_mem {x : F} (h₁ : -180 ≤ x) (h₂ : x < 180) : wrapLon x = x := by
  obtain ⟨k, hk, hlo, hhi⟩ := wrapLon_spec x
  have hlt : (k : F) < (1 : Int) := by push_cast; linarith
  have hgt : ((-1 : Int) : F) < k := by push_cast; linarith
  have h₀ : k = 0 := by
    have := Int.cast_lt.mp hlt
    have := Int.cast_lt.mp hgt
    omega
  simp [hk, h₀]

theorem wrapLon_seam : wrapLon (180 : F) = -180 := by
  obtain ⟨k, hk, hlo, hhi⟩ := wrapLon_spec (180 : F)
  have hlt : (k : F) < (2 : Int) := by push_cast; linarith
  have hgt : ((0 : Int) : F) < k := by push_cast; linarith
  have h₁ : k = 1 := by
    have := Int.cast_lt.mp hlt
    have := Int.cast_lt.mp hgt
    omega
  rw [hk, h₁]
  norm_num

/-! ## Bounds of a chunk -/

/-- The interval would wrap or reach around more than half of the globe. -/
def Wide (lo hi : F) : Prop := lo < -180 ∨ 180 < hi ∨ 180 < hi - lo

instance (lo hi : F) : Decidable (Wide lo hi) :=
  inferInstanceAs (Decidable (lo < -180 ∨ 180 < hi ∨ 180 < hi - lo))

omit [IsStrictOrderedRing F] in
theorem lonRange_of_wide {lo hi : F} (h : Wide lo hi) :
    CrsTransformer.lonRange lo hi = (-180, 180) := by
  have hrange : CrsTransformer.cornerRange lo hi = (-180, 180) := by
    unfold CrsTransformer.cornerRange
    simp only
    split
    next => rfl
    next hin =>
      rcases h with h | h | h
      · exact absurd (Or.inl h) hin
      · exact absurd (Or.inr h) hin
      · exact if_pos (Or.inr h)
  rw [CrsTransformer.lonRange, hrange, ite_self]

theorem lonRange_of_narrow {lo hi : F} (hlt : lo < hi) (h : ¬ Wide lo hi) :
    CrsTransformer.lonRange lo hi = (lo, hi) := by
  simp only [Wide, not_or, not_lt] at h
  obtain ⟨hlo, hhi, hwidth⟩ := h
  have hwest : wrapLon lo = lo := wrapLon_of_mem hlo (hlt.trans_le hhi)
  have heast : (if hi = 180 then hi else wrapLon hi) = hi := by
    split
    next => rfl
    next hne => exact wrapLon_of_mem (hlo.trans hlt.le) (lt_of_le_of_ne hhi hne)
  have hrange : CrsTransformer.cornerRange lo hi = (lo, hi) := by
    unfold CrsTransformer.cornerRange
    simp only [hwest, heast]
    rw [if_neg (by simp [hlo, hhi]), if_neg (by simp [hlt.le, hwidth])]
  rw [CrsTransformer.lonRange, hrange, if_neg (not_lt.mpr hwidth)]

structure NorthUp (gt : GeoTransform F) : Prop where
  b : gt.b = 0
  d : gt.d = 0
  a : 0 < gt.a
  e : gt.e < 0

/-- The western edge of column `col`. -/
def lonAt (gt : GeoTransform F) (col : F) : F := gt.c0 + col * gt.a

omit [IsStrictOrderedRing F] [FloorRing F] in
theorem NorthUp.pixelToCoord {gt : GeoTransform F} (h : NorthUp gt) (col row : F) :
    gt.pixelToCoord col row = (lonAt gt col, gt.f0 + row * gt.e) := by
  simp [GeoTransform.pixelToCoord, lonAt, h.b, h.d]

omit [IsStrictOrderedRing F] [FloorRing F] in
theorem NorthUp.corners {gt : GeoTransform F} (h : NorthUp gt) (col row width height : F) :
    CrsTransformer.corners gt col row width height =
      [(lonAt gt col, gt.f0 + row * gt.e), (lonAt gt (col + width), gt.f0 + row * gt.e),
        (lonAt gt (col + width), gt.f0 + (row + height) * gt.e),
        (lonAt gt col, gt.f0 + (row + height) * gt.e)] := by
  simp [CrsTransformer.corners, h.pixelToCoord]

omit [IsStrictOrderedRing F] [FloorRing F] in
theorem NorthUp.probes {gt : GeoTransform F} (h : NorthUp gt) (col row width height : F) :
    CrsTransformer.probes gt col row width height =
      CrsTransformer.corners gt col row width height := by
  simp [CrsTransformer.probes, CrsTransformer.corners, h.b, h.d]

/-- The bounds of a north-up chunk: its western and eastern edge as an interval
that does not wrap, its southern and northern edge. -/
theorem NorthUp.bounds {gt : GeoTransform F} (h : NorthUp gt) (col row : F) {width height : F}
    (hw : 0 ≤ width) (hh : 0 ≤ height) :
    CrsTransformer.wgs84Identity.transformRectBounds gt col row width height =
      { minLon := (CrsTransformer.lonRange (lonAt gt col) (lonAt gt (col + width))).1
        minLat := gt.f0 + (row + height) * gt.e
        maxLon := (CrsTransformer.lonRange (lonAt gt col) (lonAt gt (col + width))).2
        maxLat := gt.f0 + row * gt.e } := by
  have hlon : lonAt gt col ≤ lonAt gt (col + width) := by
    have := mul_nonneg hw h.a.le
    unfold lonAt
    linarith [add_mul col width gt.a]
  have hlat : gt.f0 + (row + height) * gt.e ≤ gt.f0 + row * gt.e := by
    have := mul_nonpos_of_nonneg_of_nonpos hh h.e.le
    linarith [add_mul row height gt.e]
  unfold CrsTransformer.transformRectBounds CrsTransformer.separableBounds
  simp only [h.probes, h.corners, List.map_cons, List.map_nil, id]
  simp [List.min, List.max, hlon, hlat]

/-! ## The chunk test -/

/-- On the antimeridian a chunk is found by the box read as plain intervals. -/
def SeamInChunk (lo hi : F) (bbox : Bbox F) : Prop :=
  if Wide lo hi then bbox.minLon ≤ bbox.maxLon → bbox.minLon ≤ 180
  else if bbox.minLon ≤ bbox.maxLon then lo ≤ bbox.maxLon ∧ bbox.minLon ≤ hi
  else lo ≤ bbox.maxLon ∨ bbox.minLon ≤ hi

omit [IsStrictOrderedRing F] in
/-- The exact test, as a proposition about the wrapped longitude. -/
theorem isPointInBbox_iff {lon lat : F} {bbox : Bbox F} :
    isPointInBbox lon lat (some bbox) = true ↔
      (bbox.minLat ≤ lat ∧ lat ≤ bbox.maxLat) ∧
      if bbox.minLon ≤ bbox.maxLon then
        (bbox.minLon ≤ wrapLon lon ∧ wrapLon lon ≤ bbox.maxLon) ∨
          (wrapLon lon = -180 ∧ 180 ≤ bbox.maxLon)
      else bbox.minLon ≤ wrapLon lon ∨ wrapLon lon ≤ bbox.maxLon := by
  unfold isPointInBbox
  simp only
  split
  next hlat =>
    simp only [Bool.false_eq_true, false_iff, not_and]
    exact fun h => absurd hlat (by simp [h])
  next hlat =>
    simp only [not_or, not_lt] at hlat
    simp only [hlat, true_and]
    split <;> simp

omit [Field F] [IsStrictOrderedRing F] [FloorRing F] in
theorem rectIntersectsBbox_iff {rect : Bounds F} {bbox : Bbox F}
    (hlat : rect.minLat ≤ bbox.maxLat ∧ bbox.minLat ≤ rect.maxLat) :
    rectIntersectsBbox rect bbox = true ↔
      if bbox.minLon ≤ bbox.maxLon then
        rect.minLon ≤ bbox.maxLon ∧ bbox.minLon ≤ rect.maxLon
      else bbox.minLon ≤ rect.maxLon ∨ rect.minLon ≤ bbox.maxLon := by
  unfold rectIntersectsBbox
  rw [if_neg (by simp [hlat])]
  split <;> simp

/-- A chunk that holds a kept longitude passes the test, on the antimeridian under
the condition above. -/
theorem rect_iff {lo hi x : F} {bbox : Bbox F} (hlo : lo ≤ x) (hhi : x ≤ hi) (hlt : lo < hi)
    {rect : Bounds F} (hmin : rect.minLon = (CrsTransformer.lonRange lo hi).1)
    (hmax : rect.maxLon = (CrsTransformer.lonRange lo hi).2)
    (hlat : rect.minLat ≤ bbox.maxLat ∧ bbox.minLat ≤ rect.maxLat)
    (hkept : if bbox.minLon ≤ bbox.maxLon then
        (bbox.minLon ≤ wrapLon x ∧ wrapLon x ≤ bbox.maxLon) ∨
          (wrapLon x = -180 ∧ 180 ≤ bbox.maxLon)
      else bbox.minLon ≤ wrapLon x ∨ wrapLon x ≤ bbox.maxLon) :
    rectIntersectsBbox rect bbox = true ↔ (wrapLon x = -180 → SeamInChunk lo hi bbox) := by
  obtain ⟨k, hk, hwlo, hwhi⟩ := wrapLon_spec x
  rw [rectIntersectsBbox_iff hlat, hmin, hmax]
  unfold SeamInChunk
  by_cases hwide : Wide lo hi
  · rw [lonRange_of_wide hwide, if_pos hwide]
    by_cases hcross : bbox.minLon ≤ bbox.maxLon
    · simp only [hcross, if_true, true_imp_iff] at hkept ⊢
      constructor
      · exact fun h _ => h.2
      · intro h
        rcases hkept with hk | hk
        · exact ⟨hwlo.trans hk.2, hk.1.trans hwhi.le⟩
        · exact ⟨by linarith [hk.2], h hk.1⟩
    · simp only [hcross, if_false, false_imp_iff, implies_true, iff_true] at hkept ⊢
      rcases hkept with hk | hk
      · exact Or.inl (hk.trans hwhi.le)
      · exact Or.inr (hwlo.trans hk)
  · rw [lonRange_of_narrow hlt hwide, if_neg hwide]
    have hin : -180 ≤ x ∧ x ≤ 180 := by
      simp only [Wide, not_or, not_lt] at hwide
      exact ⟨hwide.1.trans hlo, hhi.trans hwide.2.1⟩
    have hplain : wrapLon x ≠ -180 → wrapLon x = x := by
      intro hne
      refine wrapLon_of_mem hin.1 (lt_of_le_of_ne hin.2 ?_)
      rintro rfl
      exact hne wrapLon_seam
    by_cases hcross : bbox.minLon ≤ bbox.maxLon
    · simp only [hcross, if_true] at hkept ⊢
      refine ⟨fun h _ => h, fun h => ?_⟩
      by_cases hseam : wrapLon x = -180
      · exact h hseam
      · rw [hplain hseam] at hkept hseam
        rcases hkept with hk | hk
        · exact ⟨hlo.trans hk.2, hk.1.trans hhi⟩
        · exact absurd hk.1 hseam
    · simp only [hcross, if_false] at hkept ⊢
      refine ⟨fun h _ => h.symm, fun h => ?_⟩
      by_cases hseam : wrapLon x = -180
      · exact (h hseam).symm
      · rw [hplain hseam] at hkept
        rcases hkept with hk | hk
        · exact Or.inl (hk.trans hhi)
        · exact Or.inr (hlo.trans hk)

/-! ## The column window -/

theorem mem_columnRange {rowPx c : Nat} {first last : Int} (hc : c < rowPx) :
    (∃ cols, RowPruner.columnRange rowPx first last = some cols ∧ cols.1 ≤ c ∧ c < cols.2) ↔
      first ≤ c ∧ (c : Int) < last := by
  unfold RowPruner.columnRange RowPruner.clampColumn
  split
  next h =>
    simp only [Option.some.injEq, exists_eq_left']
    omega
  next h =>
    simp only [reduceCtorEq, false_and, exists_false, false_iff]
    omega

/-- On the antimeridian a column is in the window when the box, read as a plain
interval, reaches to within two columns of the sample. -/
def SeamInWindow (west east a dx dxMin dxMax x : F) (bbox : Bbox F) : Prop :=
  bbox.minLon ≤ bbox.maxLon → -180 ≤ west → east ≤ 180 →
    bbox.minLon < x + (2 + dxMax - dx) * a ∧ x - (1 + dx - dxMin) * a ≤ bbox.maxLon

omit [IsStrictOrderedRing F] [FloorRing F] in
theorem SamplingPattern.between {sampling : SamplingPattern F} {sp : SamplePoint F}
    (h : sp ∈ sampling.points) : sampling.dxMin ≤ sp.dx ∧ sp.dx ≤ sampling.dxMax :=
  ⟨List.min_le_of_mem (List.mem_map_of_mem h), List.le_max_of_mem (List.mem_map_of_mem h)⟩

/-- Kept columns are in the window, on the antimeridian under the condition above. -/
theorem window_iff {west east a x : F} {bbox : Bbox F} {lon0 : F} {col0 rowPx c : Nat}
    {sampling : SamplingPattern F} {sp : SamplePoint F} (ha : 0 < a) (hc : c < rowPx)
    (hsp : sp ∈ sampling.points) (hwest : west = lon0 + col0 * a)
    (heast : east = lon0 + (col0 + rowPx) * a) (hx : x = lon0 + (col0 + c + sp.dx) * a)
    (hplain : bbox.minLon ≤ bbox.maxLon) (hin : -180 ≤ west ∧ east ≤ 180)
    (hkept : (bbox.minLon ≤ wrapLon x ∧ wrapLon x ≤ bbox.maxLon) ∨
      (wrapLon x = -180 ∧ 180 ≤ bbox.maxLon)) :
    (⌊(bbox.minLon - lon0) / a - sampling.dxMax - col0⌋ - 1 ≤ (c : Int) ∧
      (c : Int) < ⌊(bbox.maxLon - lon0) / a - sampling.dxMin - col0⌋ + 2) ↔
    (wrapLon x = -180 →
      SeamInWindow west east a sp.dx sampling.dxMin sampling.dxMax x bbox) := by
  obtain ⟨hmin, hmax⟩ := SamplingPattern.between hsp
  have hoff := sampling.offsets sp hsp
  have hfirst : ⌊(bbox.minLon - lon0) / a - sampling.dxMax - col0⌋ - 1 ≤ (c : Int) ↔
      bbox.minLon < x + (2 + sampling.dxMax - sp.dx) * a := by
    rw [show ⌊(bbox.minLon - lon0) / a - sampling.dxMax - col0⌋ - 1 ≤ (c : Int) ↔
      ⌊(bbox.minLon - lon0) / a - sampling.dxMax - col0⌋ < (c : Int) + 2 by omega,
      Int.floor_lt, sub_lt_iff_lt_add, sub_lt_iff_lt_add, div_lt_iff₀ ha, hx]
    push_cast
    constructor <;> intro h <;> linarith
  have hlast : (c : Int) < ⌊(bbox.maxLon - lon0) / a - sampling.dxMin - col0⌋ + 2 ↔
      x - (1 + sp.dx - sampling.dxMin) * a ≤ bbox.maxLon := by
    rw [show (c : Int) < ⌊(bbox.maxLon - lon0) / a - sampling.dxMin - col0⌋ + 2 ↔
      (c : Int) - 1 ≤ ⌊(bbox.maxLon - lon0) / a - sampling.dxMin - col0⌋ by omega,
      Int.le_floor, le_sub_iff_add_le, le_sub_iff_add_le, le_div_iff₀ ha, hx]
    push_cast
    constructor <;> intro h <;> linarith
  have hxwest : west ≤ x := by
    have := mul_nonneg (add_nonneg (Nat.cast_nonneg (α := F) c) hoff.1) ha.le
    rw [hwest, hx]
    linarith
  have hxeast : x ≤ east := by
    have hcx : (c : F) + 1 ≤ rowPx := by exact_mod_cast hc
    have := mul_nonneg (sub_nonneg.mpr (by linarith [hoff.2.1] : (c : F) + sp.dx ≤ rowPx)) ha.le
    rw [heast, hx]
    linarith
  rw [hfirst, hlast]
  unfold SeamInWindow
  constructor
  · exact fun h _ _ _ _ => h
  · intro h
    by_cases hseam : wrapLon x = -180
    · exact h hseam hplain hin.1 hin.2
    · have hne : x ≠ 180 := by
        rintro rfl
        exact hseam wrapLon_seam
      have hwrap : wrapLon x = x :=
        wrapLon_of_mem (hin.1.trans hxwest) (lt_of_le_of_ne (hxeast.trans hin.2) hne)
      rw [hwrap] at hkept hseam
      have hkept := hkept.resolve_right fun h => hseam h.1
      have h₁ := mul_nonneg (by linarith : 0 ≤ 1 + sampling.dxMax - sp.dx) ha.le
      have h₂ := mul_nonneg (by linarith : 0 ≤ 1 + sp.dx - sampling.dxMin) ha.le
      exact ⟨by linarith [hkept.1], by linarith [hkept.2]⟩

/-- Nothing on the antimeridian is lost. -/
structure SeamCovered (gt : GeoTransform F) (chunk : RasterChunk) (sampling : SamplingPattern F)
    (bbox : Bbox F) (rowPx : Nat) (dx x : F) : Prop where
  inChunk : SeamInChunk (lonAt gt chunk.colOffset) (lonAt gt (chunk.colOffset + chunk.width)) bbox
  inWindow : SeamInWindow (lonAt gt chunk.colOffset) (lonAt gt (chunk.colOffset + rowPx)) gt.a dx
    sampling.dxMin sampling.dxMax x bbox

def samplePoint (gt : GeoTransform F) (chunk : RasterChunk) (r c : Nat) (sp : SamplePoint F) :
    F × F :=
  gt.pixelToCoord ((chunk.colOffset + c : Nat) + sp.dx) ((chunk.rowOffset + r : Nat) + sp.dy)

/-- The chunk of a sample is scanned and its column is visited. -/
def Reached (gt : GeoTransform F) (crs : CrsTransformer F) (chunk : RasterChunk)
    (sampling : SamplingPattern F) (bbox : Bbox F) (rowPx r c : Nat) : Prop :=
  chunkIntersectsBbox chunk gt crs bbox = true ∧
    ∃ cols, visitedColumns (some bbox) gt crs sampling chunk.colOffset (chunk.rowOffset + r)
      rowPx = some cols ∧ cols.1 ≤ c ∧ c < cols.2

omit [IsStrictOrderedRing F] [FloorRing F] in
theorem rowLats_wgs84 (gt : GeoTransform F) (sampling : SamplingPattern F) (rowIdx : Nat) :
    RowPruner.rowLats gt .wgs84Identity sampling rowIdx =
      some (sampling.points.map fun sp => (gt.pixelToCoord 0 (rowIdx + sp.dy)).2) :=
  List.mapM_pure

omit [IsStrictOrderedRing F] [FloorRing F] in
theorem NorthUp.samplePoint {gt : GeoTransform F} (hgt : NorthUp gt) (chunk : RasterChunk)
    (r c : Nat) (sp : SamplePoint F) :
    samplePoint gt chunk r c sp = (gt.c0 + (chunk.colOffset + c + sp.dx) * gt.a,
      gt.f0 + (chunk.rowOffset + r + sp.dy) * gt.e) := by
  rw [Agg.samplePoint, hgt.pixelToCoord, lonAt]
  push_cast
  rfl

/-- The chunk test, for a kept sample of the chunk. -/
theorem chunk_iff {gt : GeoTransform F} (hgt : NorthUp gt) (chunk : RasterChunk)
    (sampling : SamplingPattern F) (bbox : Bbox F) {r c : Nat} (hr : r < chunk.height)
    (hc : c < chunk.width) {sp : SamplePoint F} (hsp : sp ∈ sampling.points)
    (hkept : isPointInBbox (samplePoint gt chunk r c sp).1 (samplePoint gt chunk r c sp).2
      (some bbox) = true) :
    chunkIntersectsBbox chunk gt .wgs84Identity bbox = true ↔
      (wrapLon (samplePoint gt chunk r c sp).1 = -180 →
        SeamInChunk (lonAt gt chunk.colOffset) (lonAt gt (chunk.colOffset + chunk.width)) bbox) := by
  obtain ⟨⟨hlat₁, hlat₂⟩, hlon⟩ := isPointInBbox_iff.mp hkept
  have hoff := sampling.offsets sp hsp
  have hcw : (c : F) + 1 ≤ chunk.width := by exact_mod_cast hc
  have hrh : (r : F) + 1 ≤ chunk.height := by exact_mod_cast hr
  have hc₀ : (0 : F) ≤ c := Nat.cast_nonneg c
  have hr₀ : (0 : F) ≤ r := Nat.cast_nonneg r
  rw [hgt.samplePoint] at hlat₁ hlat₂ hlon ⊢
  simp only at hlat₁ hlat₂ hlon ⊢
  unfold chunkIntersectsBbox
  simp only [CrsTransformer.boundsCertified, CrsTransformer.rejectionBounds, Bool.not_true,
    Bool.false_eq_true, if_false, if_true]
  have hbounds := hgt.bounds chunk.colOffset chunk.rowOffset
    (Nat.cast_nonneg (α := F) chunk.width) (Nat.cast_nonneg (α := F) chunk.height)
  rw [hbounds]
  refine rect_iff ?_ ?_ ?_ rfl rfl ⟨?_, ?_⟩ hlon
  all_goals simp only [lonAt]
  · nlinarith [hgt.a]
  · nlinarith [hgt.a]
  · nlinarith [hgt.a]
  · nlinarith [hgt.e]
  · nlinarith [hgt.e]

/-- The column window of a pruner, for a kept sample whose latitude is one of the row's. -/
theorem RowPruner.columns_iff {p : RowPruner F} {gt : GeoTransform F} {crs : CrsTransformer F}
    {sampling : SamplingPattern F} (hstep : 0 < p.lonStep)
    (hoffsets : p.dxMin = sampling.dxMin ∧ p.dxMax = sampling.dxMax) {rowIdx : Nat} {lats : List F}
    (hlats : RowPruner.rowLats gt crs sampling rowIdx = some lats) {lat : F} (hlat : lat ∈ lats)
    {sp : SamplePoint F} (hsp : sp ∈ sampling.points) {colOffset rowPx c : Nat} (hc : c < rowPx)
    {x : F} (hx : x = p.lon0 + (colOffset + c + sp.dx) * p.lonStep)
    (hkept : isPointInBbox x lat (some p.bbox) = true) :
    (∃ cols, p.columns gt crs sampling colOffset rowIdx rowPx = some cols ∧
      cols.1 ≤ c ∧ c < cols.2) ↔ (wrapLon x = -180 →
        SeamInWindow (p.lon0 + colOffset * p.lonStep) (p.lon0 + (colOffset + rowPx) * p.lonStep)
          p.lonStep sp.dx sampling.dxMin sampling.dxMax x p.bbox) := by
  obtain ⟨⟨hlat₁, hlat₂⟩, hlon⟩ := isPointInBbox_iff.mp hkept
  have hnotAll : ∀ {q : F → Bool}, q lat = false → ¬ lats.all q = true := by
    intro q hq hall
    rw [List.all_eq_true.mp hall _ hlat] at hq
    cases hq
  rw [RowPruner.columns, hlats]
  dsimp only
  rw [if_neg (not_or.mpr ⟨hnotAll (by simpa using hlat₁), hnotAll (by simpa using hlat₂)⟩)]
  split
  next hall =>
    simp only [Option.some.injEq, exists_eq_left', Nat.zero_le, true_and, hc, true_iff]
    intro _ hplain hwest heast
    rcases hall with h | h | h
    · exact absurd hplain (not_le.mpr h)
    · exact absurd hwest (not_le.mpr h)
    · exact absurd heast (not_le.mpr h)
  next hlinear =>
    simp only [not_or, not_lt] at hlinear
    obtain ⟨hplain, hwest, heast⟩ := hlinear
    rw [if_pos hplain] at hlon
    rw [mem_columnRange hc, hoffsets.1, hoffsets.2]
    exact window_iff hstep hc hsp rfl rfl hx hplain ⟨hwest, heast⟩ hlon

/-- The column test, for a kept sample of the row. -/
theorem columns_iff {gt : GeoTransform F} (hgt : NorthUp gt) (chunk : RasterChunk)
    (sampling : SamplingPattern F) (bbox : Bbox F) {rowPx r c : Nat} (hc : c < rowPx)
    {sp : SamplePoint F} (hsp : sp ∈ sampling.points)
    (hkept : isPointInBbox (samplePoint gt chunk r c sp).1 (samplePoint gt chunk r c sp).2
      (some bbox) = true) :
    (∃ cols, visitedColumns (some bbox) gt .wgs84Identity sampling chunk.colOffset
      (chunk.rowOffset + r) rowPx = some cols ∧ cols.1 ≤ c ∧ c < cols.2) ↔
      (wrapLon (samplePoint gt chunk r c sp).1 = -180 →
        SeamInWindow (lonAt gt chunk.colOffset) (lonAt gt (chunk.colOffset + rowPx)) gt.a sp.dx
          sampling.dxMin sampling.dxMax (samplePoint gt chunk r c sp).1 bbox) := by
  have hnew : RowPruner.new (some bbox) gt .wgs84Identity sampling =
      some ⟨bbox, gt.c0, gt.a, sampling.dxMin, sampling.dxMax⟩ :=
    if_pos ⟨hgt.b, hgt.d, hgt.a, hgt.e⟩
  have hlat : (samplePoint gt chunk r c sp).2 ∈ sampling.points.map fun sp =>
      (gt.pixelToCoord 0 ((chunk.rowOffset + r : Nat) + sp.dy)).2 := by
    refine List.mem_map.mpr ⟨sp, hsp, ?_⟩
    rw [hgt.samplePoint, hgt.pixelToCoord]
    push_cast
    rfl
  have hx : (samplePoint gt chunk r c sp).1 =
      gt.c0 + (chunk.colOffset + c + sp.dx) * gt.a := by
    rw [hgt.samplePoint]
  simp only [visitedColumns, hnew]
  exact RowPruner.columns_iff (p := ⟨bbox, gt.c0, gt.a, sampling.dxMin, sampling.dxMax⟩) hgt.a
    ⟨rfl, rfl⟩ (rowLats_wgs84 gt sampling _) hlat hsp hc hx hkept

/-- Pruning loses a kept sample on the antimeridian only, and there exactly when
the box does not cover the seam. -/
theorem kept_sample_reached_iff {gt : GeoTransform F} (hgt : NorthUp gt) (chunk : RasterChunk)
    (sampling : SamplingPattern F) (bbox : Bbox F) {rowPx r c : Nat} (hr : r < chunk.height)
    (hc : c < rowPx) (hpx : rowPx ≤ chunk.width) {sp : SamplePoint F}
    (hsp : sp ∈ sampling.points)
    (hkept : isPointInBbox (samplePoint gt chunk r c sp).1 (samplePoint gt chunk r c sp).2
      (some bbox) = true) :
    Reached gt .wgs84Identity chunk sampling bbox rowPx r c ↔
      (wrapLon (samplePoint gt chunk r c sp).1 = -180 →
        SeamCovered gt chunk sampling bbox rowPx sp.dx (samplePoint gt chunk r c sp).1) := by
  rw [Reached, chunk_iff hgt chunk sampling bbox hr (hc.trans_le hpx) hsp hkept,
    columns_iff hgt chunk sampling bbox hc hsp hkept]
  exact ⟨fun h hseam => ⟨h.1 hseam, h.2 hseam⟩,
    fun h => ⟨fun hseam => (h hseam).inChunk, fun hseam => (h hseam).inWindow⟩⟩

/-! ## One-degree pixels from the antimeridian eastwards -/

def seamGrid : GeoTransform ℚ := ⟨-180, 1, 0, 10, 0, -1⟩

theorem seamGrid_northUp : NorthUp seamGrid := ⟨rfl, rfl, by decide +kernel, by decide +kernel⟩

/-- One sample on the western edge of each pixel. -/
def westEdge : SamplingPattern ℚ where
  points := [⟨0, 1 / 2, 1⟩]
  nonempty := by simp
  offsets := by decide +kernel
  weights := by decide +kernel

/-- A box that ends at longitude 180 keeps the samples at -180. A chunk that
starts there is skipped, and in a chunk that goes around the globe their column
is. -/
theorem kept_sample_on_seam_lost :
    let bbox : Bbox ℚ := ⟨170, -10, 180, 10⟩
    let kept := fun chunk => isPointInBbox (samplePoint seamGrid chunk 0 0 ⟨0, 1 / 2, 1⟩).1
      (samplePoint seamGrid chunk 0 0 ⟨0, 1 / 2, 1⟩).2 (some bbox)
    NorthUp seamGrid ∧ (kept ⟨0, 0, 10, 10⟩ = true ∧
      chunkIntersectsBbox ⟨0, 0, 10, 10⟩ seamGrid .wgs84Identity bbox = false) ∧
    kept ⟨0, 0, 360, 10⟩ = true ∧
      visitedColumns (some bbox) seamGrid .wgs84Identity westEdge 0 0 360 = some (349, 360) := by
  exact ⟨seamGrid_northUp, by decide +kernel⟩

/-- Away from the antimeridian the same grid loses nothing. -/
theorem kept_sample_reached_at_ten_east :
    Reached seamGrid .wgs84Identity ⟨0, 0, 360, 10⟩ westEdge ⟨5, -10, 20, 10⟩ 360 3 190 :=
  (kept_sample_reached_iff seamGrid_northUp ⟨0, 0, 360, 10⟩ westEdge ⟨5, -10, 20, 10⟩ (by decide)
    (by decide) (by decide) (List.mem_singleton_self _) (by decide +kernel)).mpr fun h =>
      absurd h (by decide +kernel)

end RasterH3.Agg
