import RasterH3.Lib.Numerals
import Mathlib.Algebra.Order.Floor.Ring
import Mathlib.Algebra.Order.Field.Basic
import Mathlib.Tactic

/-!
# Pixel grids and their geographic bounds

A geotransform maps pixels to coordinates, a transformer maps coordinates to longitude and
latitude. Two transformers matter by name, because their longitude is affine in the column
of a north-up grid and the row pruning relies on it: WGS84 itself and spherical Web
Mercator. Every other projection is a function, with the bounds its own certificate gives.

Arithmetic is exact: `F` is an ordered field with a floor function. What the code does about
infinities and rounding has no counterpart here.

Where longitude and latitude are functions of one coordinate each, the bounds of a rectangle
come from its corners, with probes along the edges of a rotated grid; elsewhere they come
from the projection. A rejection test may only use bounds that are certified, and takes the
globe for those that are not. Longitudes are wrapped by a floor, which sends 180 to -180;
much of what is proved about boxes turns on that.
-/

namespace RasterH3.Raster

/-- `x = c0 + col * a + row * b`, `y = f0 + col * d + row * e`. -/
structure GeoTransform (F : Type) where
  c0 : F
  a : F
  b : F
  f0 : F
  d : F
  e : F

/-- A pixel rectangle. -/
structure RasterChunk where
  colOffset : Nat
  rowOffset : Nat
  width : Nat
  height : Nat

/-- `[min_lon, min_lat, max_lon, max_lat]`. -/
structure Bounds (F : Type) where
  minLon : F
  minLat : F
  maxLon : F
  maxLat : F
  deriving DecidableEq, Repr

/-- A query box; it crosses the antimeridian when `maxLon < minLon`. -/
abbrev Bbox (F : Type) := Bounds F

variable {F : Type} [Field F] [LinearOrder F] [FloorRing F]

def GeoTransform.pixelToCoord (gt : GeoTransform F) (col row : F) : F × F :=
  (gt.c0 + col * gt.a + row * gt.b, gt.f0 + col * gt.d + row * gt.e)

def remEuclid (x m : F) : F := x - m * ⌊x / m⌋

/-- Normalizes a longitude to `[-180, 180)`. -/
def wrapLon (lon : F) : F := remEuclid (lon + 180) 360 - 180

def wgs84A : F := 6378137

inductive CrsTransformer (F : Type) where
  | wgs84Identity
  /-- With `RAD_TO_DEG` and the latitude of a northing. -/
  | webMercatorFast (radToDeg : F) (lat : F → F)
  /-- Albers and PROJ: the inverse projection, whether its bounds are certified,
  and the bounds of the pixel rectangle at column, row, width and height. -/
  | projected (point : F → F → Option (F × F)) (certified : Bool)
      (rectBounds : GeoTransform F → F → F → F → F → Bounds F)

namespace CrsTransformer

def transformPoint (crs : CrsTransformer F) (x y : F) : Option (F × F) :=
  match crs with
  | wgs84Identity => some (x, y)
  | webMercatorFast radToDeg lat => some (x / wgs84A * radToDeg, lat y)
  | projected point _ _ => point x y

/-- The corners of a pixel rectangle, in the order of its edges. -/
def corners (gt : GeoTransform F) (col row width height : F) : List (F × F) :=
  [gt.pixelToCoord col row, gt.pixelToCoord (col + width) row,
    gt.pixelToCoord (col + width) (row + height), gt.pixelToCoord col (row + height)]

/-- Fifteen points inside the edge from `p` to `q`. -/
def edgeProbes (p q : F × F) : List (F × F) :=
  (List.range' 1 15).map fun step =>
    let t : F := (step : F) / 16
    (p.1 + t * (q.1 - p.1), p.2 + t * (q.2 - p.2))

/-- A rotated grid is also probed along its edges. -/
def probes (gt : GeoTransform F) (col row width height : F) : List (F × F) :=
  match corners gt col row width height with
  | [p0, p1, p2, p3] =>
      [p0, p1, p2, p3] ++
        if gt.b ≠ 0 ∨ gt.d ≠ 0 then
          edgeProbes p0 p1 ++ edgeProbes p1 p2 ++ edgeProbes p2 p3 ++ edgeProbes p3 p0
        else []
  | ps => ps

omit [FloorRing F] in
theorem probes_ne_nil (gt : GeoTransform F) (col row width height : F) :
    probes gt col row width height ≠ [] := by
  simp [probes, corners]

omit [LinearOrder F] [FloorRing F] in
theorem corners_ne_nil (gt : GeoTransform F) (col row width height : F) :
    corners gt col row width height ≠ [] := by
  simp [corners]

/-- The longitudes between the unwrapped corners `lo` and `hi`. -/
def cornerRange (lo hi : F) : F × F :=
  if lo < -180 ∨ 180 < hi then (-180, 180)
  else
    let west := wrapLon lo
    let east := if hi = 180 then hi else wrapLon hi
    if east < west ∨ 180 < hi - lo then (-180, 180) else (west, east)

/-- A range of more than half the globe is taken to span the antimeridian. -/
def lonRange (lo hi : F) : F × F :=
  let range := cornerRange lo hi
  if 180 < range.2 - range.1 then (-180, 180) else range

/-- Bounds of a rectangle whose longitude and latitude are functions of one
coordinate each. The wrapped longitudes the code collects first are replaced by
`lonRange` on every path, since no corner fails to project. -/
def separableBounds (lon lat : F → F) (gt : GeoTransform F) (col row width height : F) :
    Bounds F :=
  let lats := (probes gt col row width height).map fun p => lat p.2
  let lons := (corners gt col row width height).map fun p => lon p.1
  let range := lonRange
    (lons.min (by simp [lons, corners_ne_nil])) (lons.max (by simp [lons, corners_ne_nil]))
  { minLon := range.1
    minLat := lats.min (by simp [lats, probes_ne_nil])
    maxLon := range.2
    maxLat := lats.max (by simp [lats, probes_ne_nil]) }

def transformRectBounds (crs : CrsTransformer F) (gt : GeoTransform F)
    (col row width height : F) : Bounds F :=
  match crs with
  | wgs84Identity => separableBounds id id gt col row width height
  | webMercatorFast radToDeg lat =>
      separableBounds (fun x => x / wgs84A * radToDeg) lat gt col row width height
  | projected _ _ rectBounds => rectBounds gt col row width height

def boundsCertified : CrsTransformer F → Bool
  | projected _ certified _ => certified
  | _ => true

def globe : Bounds F := ⟨-180, -90, 180, 90⟩

/-- Uncertified bounds must not reject data. -/
def rejectionBounds (crs : CrsTransformer F) (b : Bounds F) : Bounds F :=
  if crs.boundsCertified then b else globe

end CrsTransformer

end RasterH3.Raster
