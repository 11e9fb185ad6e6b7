import RasterH3.Raster.Transformer
import Mathlib.Data.List.ProdSigma

/-!
# Certified bounds of a transverse Mercator source

The rectangle is sampled on a grid, and the samples' bounds are widened by what the
projection can do between them: a straight segment of the source is no longer on the ground
than its length times `groundPerUnit`, and latitude and longitude change along it no faster
than the smallest radius allows. The sampled longitudes are lifted to one branch first, each
from a neighbour.

The inverse projection and the functions of a real variable are parameters.

A certificate holds the numbers of the projection and what its constructor has checked of
them. The grid has a fixed number of samples, whatever the size of the rectangle. A
rectangle too far from the central meridian, or with a sample that has no point, is given
the globe; near a pole, or where neighbours lie too far apart to be lifted, it is given all
longitudes. What the bounds rest on is not assumed here but where they are proved.
-/

namespace RasterH3.Raster

/-- `RAD_TO_DEG`, `hypot` and the cosine of an angle in degrees. -/
structure RealFunctions (F : Type) where
  radToDeg : F
  hypot : F → F → F
  cosDeg : F → F

variable {F : Type} [Field F] [LinearOrder F]

/-- Constants for certified bounds. The last three are what `new` has checked. -/
structure TmCertificate (F : Type) [Field F] [LinearOrder F] where
  groundPerUnit : F
  toMeter : F
  x0 : F
  k0 : F
  k0_pos : 0 < k0
  toMeter_pos : 0 < toMeter
  groundPerUnit_eq : groundPerUnit = toMeter / (999 / 1000 * k0)

def tmMinRadiusM : F := 6300000

def tmMaxEastingM : F := 2500000

def tmGrid : Nat := 10

def epsDeg : F := 1 / 10 ^ 9

namespace TmCertificate

/-- The distance of an easting from the central meridian. -/
def off (tm : TmCertificate F) (x : F) : F := |x * tm.toMeter - tm.x0| / tm.k0

end TmCertificate

/-- The indices `(j, i)` of the grid, row by row. -/
def gridCells : List (Nat × Nat) := List.product (List.range (tmGrid + 1)) (List.range (tmGrid + 1))

theorem gridCells_ne_nil : gridCells ≠ [] := by decide

def gridMin (f : Nat → Nat → F) : F :=
  (gridCells.map fun c => f c.1 c.2).min (by simp [gridCells_ne_nil])

def gridMax (f : Nat → Nat → F) : F :=
  (gridCells.map fun c => f c.1 c.2).max (by simp [gridCells_ne_nil])

/-- The source coordinates of the sample in row `j` and column `i`. -/
def gridPoint (gt : GeoTransform F) (col row width height : F) (j i : Nat) : F × F :=
  gt.pixelToCoord (col + width * i / tmGrid) (row + height * j / tmGrid)

/-- The lengths `u` and `v` of the edges of a grid cell. -/
def cellEdges (fn : RealFunctions F) (gt : GeoTransform F) (width height : F) : F × F :=
  (fn.hypot (gt.a * width / tmGrid) (gt.d * width / tmGrid),
    fn.hypot (gt.b * height / tmGrid) (gt.e * height / tmGrid))

/-- Every point of a cell is within this distance of one of its corners. -/
def reachM (fn : RealFunctions F) (tm : TmCertificate F) (gt : GeoTransform F)
    (width height : F) : F :=
  let (u, v) := cellEdges fn gt width height
  1 / 2 * (u + v) * tm.groundPerUnit

/-- Adjacent samples are at most this far apart. -/
def edgeM (fn : RealFunctions F) (tm : TmCertificate F) (gt : GeoTransform F)
    (width height : F) : F :=
  let (u, v) := cellEdges fn gt width height
  max u v * tm.groundPerUnit

/-- Degrees of longitude for a metre at the latitude `absLat`. -/
def lonScale (fn : RealFunctions F) (absLat : F) : F :=
  fn.radToDeg / (tmMinRadiusM * fn.cosDeg absLat)

section Lift

variable [FloorRing F]

/-- `f64::round`: halves away from zero. -/
def roundAway (x : F) : Int := if 0 ≤ x then ⌊x + 1 / 2⌋ else ⌈x - 1 / 2⌉

/-- The turn from one longitude to another, at most half a circle. -/
def unwrap (d : F) : F := d - 360 * (roundAway (d / 360) : F)

/-- The lift goes down the first column, from its sample in the corner. -/
def liftedColumn (lons : Nat → Nat → F) : Nat → F
  | 0 => wrapLon (lons 0 0)
  | j + 1 => liftedColumn lons j + unwrap (lons (j + 1) 0 - lons j 0)

/-- Each row of the lift goes on from the first column. -/
def lifted (lons : Nat → Nat → F) (j : Nat) : Nat → F
  | 0 => liftedColumn lons j
  | i + 1 => lifted lons j i + unwrap (lons j (i + 1) - lons j i)

/-- The lift is checked against the bound for neighbours before it is used. -/
def liftedBounds (lons : Nat → Nat → F) (south north dlon dlonEdge : F) : Bounds F :=
  let l := lifted lons
  let far (a b : F) : Bool := decide (dlonEdge < |a - b|)
  if gridCells.any fun c =>
      (decide (c.2 < tmGrid) && far (l c.1 c.2) (l c.1 (c.2 + 1))) ||
        (decide (c.1 < tmGrid) && far (l c.1 c.2) (l (c.1 + 1) c.2)) then
    ⟨-180, south, 180, north⟩
  else
    let west := gridMin l - dlon
    let east := gridMax l + dlon
    -- Rectangles stay non-crossing.
    if west < -180 ∨ 180 < east ∨ 180 < east - west then ⟨-180, south, 180, north⟩
    else ⟨west, south, east, north⟩

def sampledBounds (fn : RealFunctions F) (tm : TmCertificate F) (gt : GeoTransform F)
    (width height : F) (lons lats : Nat → Nat → F) : Bounds F :=
  let reach := reachM fn tm gt width height
  let edge := edgeM fn tm gt width height
  let dlat := reach / tmMinRadiusM * fn.radToDeg + epsDeg
  let south := max (gridMin lats - dlat) (-90)
  let north := min (gridMax lats + dlat) 90
  let absLat := max north (-south)
  if 899 / 10 ≤ absLat then ⟨-180, south, 180, north⟩
  else
    let dlon := reach * lonScale fn absLat + epsDeg
    let dlonEdge := edge * lonScale fn absLat + epsDeg
    if 90 ≤ dlonEdge then ⟨-180, south, 180, north⟩
    else liftedBounds lons south north dlon dlonEdge

def tmRectBounds (fn : RealFunctions F) (point : F → F → Option (F × F)) (tm : TmCertificate F)
    (gt : GeoTransform F) (col row width height : F) : Bounds F :=
  -- Easting is affine in pixel space, so the corners bound it.
  if [((0 : F), (0 : F)), (width, 0), (0, height), (width, height)].any fun c =>
      decide (tmMaxEastingM < tm.off (gt.pixelToCoord (col + c.1) (row + c.2)).1) then
    CrsTransformer.globe
  else
    let sample (j i : Nat) : Option (F × F) :=
      let p := gridPoint gt col row width height j i
      point p.1 p.2
    if gridCells.any fun c => (sample c.1 c.2).isNone then CrsTransformer.globe
    else
      sampledBounds fn tm gt width height
        (fun j i => ((sample j i).map Prod.fst).getD 0)
        (fun j i => ((sample j i).map Prod.snd).getD 0)

end Lift

end RasterH3.Raster
