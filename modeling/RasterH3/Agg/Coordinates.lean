import RasterH3.Raster.Transformer

/-!
# Query boxes, sample patterns and row pruning

Three filters stand between a sample and its cell. A chunk is skipped if its
bounds miss the query box, a row is cut to the columns that may hold a sample
inside the box, and the sample itself is tested last. The first two are meant to
be conservative: what they drop, the last one would have dropped as well.

They do not agree on the antimeridian. The sample's longitude is wrapped, so that
it comes out as -180 there, and a box that ends at 180 keeps it; the bounds of a
chunk and the columns of a row are compared with the box as they are written.
What is lost is said with the filters' own proofs, not here.

Arithmetic is exact, over an ordered field with a floor. In the code `wrap_lon`
may move a longitude that is in range already by a unit in the last place.
-/

namespace RasterH3.Agg

open Raster

variable {F : Type} [Field F] [LinearOrder F]

/-- A sub-pixel offset and its weight. -/
structure SamplePoint (F : Type) where
  dx : F
  dy : F
  weight : F

/-- The patterns that pass validation. -/
structure SamplingPattern (F : Type) [Field F] [LinearOrder F] where
  points : List (SamplePoint F)
  nonempty : points ≠ []
  offsets : ∀ p ∈ points, 0 ≤ p.dx ∧ p.dx ≤ 1 ∧ 0 ≤ p.dy ∧ p.dy ≤ 1
  weights : ∀ p ∈ points, 0 < p.weight

namespace SamplingPattern

theorem map_ne_nil {β : Type} (s : SamplingPattern F) (f : SamplePoint F → β) :
    s.points.map f ≠ [] := by
  simp [s.nonempty]

def dxMin (s : SamplingPattern F) : F := (s.points.map SamplePoint.dx).min (s.map_ne_nil _)

def dxMax (s : SamplingPattern F) : F := (s.points.map SamplePoint.dx).max (s.map_ne_nil _)

end SamplingPattern

def rectIntersectsBbox (rect : Bounds F) (bbox : Bbox F) : Bool :=
  if bbox.maxLat < rect.minLat ∨ rect.maxLat < bbox.minLat then false
  else if bbox.minLon ≤ bbox.maxLon then
    rect.minLon ≤ bbox.maxLon ∧ bbox.minLon ≤ rect.maxLon
  else bbox.minLon ≤ rect.maxLon ∨ rect.minLon ≤ bbox.maxLon

variable [FloorRing F]

/-- Longitudes are wrapped, and 180 and -180 are one meridian. -/
def isPointInBbox (lon lat : F) (bbox : Option (Bbox F)) : Bool :=
  match bbox with
  | none => true
  | some bbox =>
      if lat < bbox.minLat ∨ bbox.maxLat < lat then false
      else
        let lon := wrapLon lon
        if bbox.minLon ≤ bbox.maxLon then
          (bbox.minLon ≤ lon ∧ lon ≤ bbox.maxLon) ∨ (lon = -180 ∧ 180 ≤ bbox.maxLon)
        else bbox.minLon ≤ lon ∨ lon ≤ bbox.maxLon

def chunkIntersectsBbox (chunk : RasterChunk) (gt : GeoTransform F) (crs : CrsTransformer F)
    (bbox : Bbox F) : Bool :=
  if !crs.boundsCertified then rectIntersectsBbox CrsTransformer.globe bbox
  else
    let bounds := crs.transformRectBounds gt chunk.colOffset chunk.rowOffset chunk.width
      chunk.height
    rectIntersectsBbox (crs.rejectionBounds bounds) bbox

/-- Row and column limits for box queries on grids where latitude depends only on
the row and longitude is affine in the column. -/
structure RowPruner (F : Type) where
  bbox : Bbox F
  lon0 : F
  lonStep : F
  dxMin : F
  dxMax : F

namespace RowPruner

def new (bbox : Option (Bbox F)) (gt : GeoTransform F) (crs : CrsTransformer F)
    (sampling : SamplingPattern F) : Option (RowPruner F) :=
  match bbox with
  | none => none
  | some bbox =>
      if gt.b = 0 ∧ gt.d = 0 ∧ 0 < gt.a ∧ gt.e < 0 then
        match crs with
        | .wgs84Identity => some ⟨bbox, gt.c0, gt.a, sampling.dxMin, sampling.dxMax⟩
        | .webMercatorFast radToDeg _ =>
            some ⟨bbox, gt.c0 / wgs84A * radToDeg, gt.a / wgs84A * radToDeg, sampling.dxMin,
              sampling.dxMax⟩
        | .projected .. => none
      else none

/-- The latitudes of the sample points of a row, unless one fails to project. -/
def rowLats (gt : GeoTransform F) (crs : CrsTransformer F) (sampling : SamplingPattern F)
    (rowIdx : Nat) : Option (List F) :=
  sampling.points.mapM fun sp =>
    let p := gt.pixelToCoord 0 (rowIdx + sp.dy)
    (crs.transformPoint p.1 p.2).map Prod.snd

/-- `v.clamp(0.0, row_px as f64) as usize`. -/
def clampColumn (rowPx : Nat) (v : Int) : Nat := (max 0 (min v rowPx)).toNat

/-- The columns from `first` until before `last`, unless there is none. -/
def columnRange (rowPx : Nat) (first last : Int) : Option (Nat × Nat) :=
  if clampColumn rowPx first < clampColumn rowPx last then
    some (clampColumn rowPx first, clampColumn rowPx last)
  else none

/-- Columns of a row that may hold a sample inside the box, or none when no sample
of the row can be inside it. -/
def columns (p : RowPruner F) (gt : GeoTransform F) (crs : CrsTransformer F)
    (sampling : SamplingPattern F) (colOffset rowIdx rowPx : Nat) : Option (Nat × Nat) :=
  match rowLats gt crs sampling rowIdx with
  | none => some (0, rowPx)
  | some lats =>
      if lats.all (· < p.bbox.minLat) ∨ lats.all (p.bbox.maxLat < ·) then none
      else
        let col0 : F := colOffset
        let rowWest := p.lon0 + col0 * p.lonStep
        let rowEast := p.lon0 + (col0 + rowPx) * p.lonStep
        if p.bbox.maxLon < p.bbox.minLon ∨ rowWest < -180 ∨ 180 < rowEast then some (0, rowPx)
        else
          -- one column of padding on each side
          let first := ⌊(p.bbox.minLon - p.lon0) / p.lonStep - p.dxMax - col0⌋ - 1
          let last := ⌊(p.bbox.maxLon - p.lon0) / p.lonStep - p.dxMin - col0⌋ + 2
          columnRange rowPx first last

end RowPruner

/-- The columns a walk visits in a row of `rowPx` pixels. -/
def visitedColumns (bbox : Option (Bbox F)) (gt : GeoTransform F) (crs : CrsTransformer F)
    (sampling : SamplingPattern F) (colOffset rowIdx rowPx : Nat) : Option (Nat × Nat) :=
  match RowPruner.new bbox gt crs sampling with
  | some p => p.columns gt crs sampling colOffset rowIdx rowPx
  | none => some (0, rowPx)

end RasterH3.Agg
