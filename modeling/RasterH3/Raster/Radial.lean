import RasterH3.Raster.Transformer

/-!
# Bounds of radial projections

Parallels of an Albers projection are arcs around the apex of the cone, and those of a polar
stereographic projection are circles around the pole: latitude is a function of the distance
from one point, and longitude is a multiple of the angle there. The bounds of a pixel
rectangle are taken at its corners and at the points of its edges that are nearest to the
apex, or at the corners of its box and the nearest point in it.

Arithmetic is exact, so every point projects to finite numbers, and `next_up` has no
counterpart. The functions of a real variable are parameters.
-/

namespace RasterH3.Raster

/-- `PI`, `RAD_TO_DEG`, and functions of `f64`. -/
structure PolarFunctions (F : Type) where
  pi : F
  radToDeg : F
  sin : F → F
  cos : F → F
  ln : F → F
  sqrt : F → F
  asin : F → F
  atan2 : F → F → F

/-- Constants for analytical, closed-form inverse Albers Equal Area Conic projection. -/
structure AlbersConicFast (F : Type) where
  lonOriginRad : F
  x0 : F
  y0 : F
  a : F
  e2 : F
  n : F
  c : F
  rho0 : F
  qp : F

variable {F : Type} [Field F] [LinearOrder F]

/-! ## The projection -/

namespace AlbersConicFast

variable (albers : AlbersConicFast F) (fn : PolarFunctions F)

/-- GRS80 flattening. -/
def grs80F : F := 1 / (298257222101 / 10 ^ 9)

def grs80E2 : F := 2 * grs80F - grs80F * grs80F

def coneM (e2 phi : F) : F :=
  let sinPhi := fn.sin phi
  fn.cos phi / fn.sqrt (1 - e2 * sinPhi * sinPhi)

def coneQ (e2 e phi : F) : F :=
  let sinPhi := fn.sin phi
  let eSin := e * sinPhi
  let ratio := (1 - eSin) / (1 + eSin)
  (1 - e2) * (sinPhi / (1 - eSin * eSin) - 1 / (2 * e) * fn.ln ratio)

def withOffsets (lat1Deg lat2Deg lat0Deg lon0Deg x0 y0 : F) : AlbersConicFast F :=
  let a : F := 6378137
  let e2 : F := grs80E2
  let e := fn.sqrt e2
  let degToRad := fn.pi / 180
  let phi1 := lat1Deg * degToRad
  let phi2 := lat2Deg * degToRad
  let phi0 := lat0Deg * degToRad
  let m1 := coneM fn e2 phi1
  let m2 := coneM fn e2 phi2
  let q1 := coneQ fn e2 e phi1
  let q2 := coneQ fn e2 e phi2
  let q0 := coneQ fn e2 e phi0
  let n := if |phi1 - phi2| < 1 / 10 ^ 10 then fn.sin phi1 else (m1 * m1 - m2 * m2) / (q2 - q1)
  let c := m1 * m1 + n * q1
  { lonOriginRad := lon0Deg * degToRad
    x0 := x0
    y0 := y0
    a := a
    e2 := e2
    n := n
    c := c
    rho0 := a * fn.sqrt (max (c - n * q0) 0) / n
    qp := coneQ fn e2 e (fn.pi / 2) }

/-- The latitude of an authalic one, by its sine: `apa` are the coefficients of a series. -/
def phi (sinBeta : F) : F :=
  let e2 := albers.e2
  let e4 := e2 * e2
  let e6 := e4 * e2
  let e8 := e4 * e4
  let p1 := 1 / 3 * e2 + 31 / 180 * e4 + 517 / 5040 * e6 + 120389 / 1814400 * e8
  let p2 := 23 / 360 * e4 + 251 / 3780 * e6 + 102283 / 1814400 * e8
  let p3 := 761 / 45360 * e6 + 47561 / 1814400 * e8
  let p4 := 6059 / 1209600 * e8
  let sin2Beta := sinBeta * sinBeta
  let cosBeta := fn.sqrt (1 - sin2Beta)
  let s2 := 2 * sinBeta * cosBeta
  let c2 := 1 - 2 * sin2Beta
  let poly := ((8 * p4 * c2 + 4 * p3) * c2 + (2 * p2 - 4 * p4)) * c2 + (p1 - p3)
  s2 * poly + fn.asin sinBeta

/-- The sine of the authalic latitude at a squared distance from the apex. -/
def sinBeta (rhoSq : F) : F :=
  let nOverA := albers.n / albers.a
  let q := (albers.c - rhoSq * (nOverA * nOverA)) * (1 / albers.n)
  max (-1) (min 1 (q * (1 / albers.qp)))

def latDeg (rhoSq : F) : F := albers.phi fn (albers.sinBeta rhoSq) * fn.radToDeg

def rowYp (y : F) : F := albers.rho0 - (y - albers.y0)

def transformPoint (x y : F) : F × F :=
  let yP := albers.rowYp y
  let xP := x - albers.x0
  let theta := if 0 ≤ albers.n then fn.atan2 xP yP else fn.atan2 (-xP) (-yP)
  ((albers.lonOriginRad + theta * (1 / albers.n)) * fn.radToDeg,
    albers.latDeg fn (xP * xP + yP * yP))

/-- Parallels are arcs around it. -/
def apex : F × F := (albers.x0, albers.y0 + albers.rho0)

end AlbersConicFast

/-! ## Rectangles -/

namespace GeoTransform

variable (gt : GeoTransform F) (col row width height : F)

/-- The edges of a pixel rectangle. -/
def edges : List ((F × F) × (F × F)) :=
  let p0 := gt.pixelToCoord col row
  let p1 := gt.pixelToCoord (col + width) row
  let p2 := gt.pixelToCoord (col + width) (row + height)
  let p3 := gt.pixelToCoord col (row + height)
  [(p0, p1), (p1, p2), (p2, p3), (p3, p0)]

def minX : F := ((CrsTransformer.corners gt col row width height).map Prod.fst).min
  (by simp [CrsTransformer.corners])

def maxX : F := ((CrsTransformer.corners gt col row width height).map Prod.fst).max
  (by simp [CrsTransformer.corners])

def minY : F := ((CrsTransformer.corners gt col row width height).map Prod.snd).min
  (by simp [CrsTransformer.corners])

def maxY : F := ((CrsTransformer.corners gt col row width height).map Prod.snd).max
  (by simp [CrsTransformer.corners])

/-- A point is in the box around the rectangle. -/
def boxHas (p : F × F) : Bool :=
  gt.minX col row width height ≤ p.1 ∧ p.1 ≤ gt.maxX col row width height ∧
    gt.minY col row width height ≤ p.2 ∧ p.2 ≤ gt.maxY col row width height

end GeoTransform

/-- An edge has a squared length above this. -/
def edgeCutOff : F := 1 / 10 ^ 12

/-- The point of an edge that is nearest to the apex, unless it is an end. -/
def foot (apex : F × F) (edge : (F × F) × (F × F)) : Option (F × F) :=
  let ((x1, y1), (x2, y2)) := edge
  let dx := x2 - x1
  let dy := y2 - y1
  let denom := dx * dx + dy * dy
  if edgeCutOff < denom then
    let t := -(dx * (x1 - apex.1) + dy * (y1 - apex.2)) / denom
    if 0 < t ∧ t < 1 then some (x1 + t * dx, y1 + t * dy) else none
  else none

def feet (apex : F × F) (gt : GeoTransform F) (col row width height : F) : List (F × F) :=
  (gt.edges col row width height).filterMap (foot apex)

section Wrapped

variable [FloorRing F]

/-- The bounds with one more point, a longitude and latitude. -/
def Bounds.grow (b : Bounds F) (p : F × F) : Bounds F where
  minLon := min b.minLon (wrapLon p.1)
  minLat := min b.minLat p.2
  maxLon := max b.maxLon (wrapLon p.1)
  maxLat := max b.maxLat p.2

def Bounds.at (p : F × F) : Bounds F := ⟨wrapLon p.1, p.2, wrapLon p.1, p.2⟩

/-- All longitudes. -/
def Bounds.allLons (b : Bounds F) : Bounds F := { b with minLon := -180, maxLon := 180 }

/-! ## Albers -/

namespace AlbersConicFast

variable (albers : AlbersConicFast F) (fn : PolarFunctions F) (gt : GeoTransform F)

def lonLat (p : F × F) : F × F := albers.transformPoint fn p.1 p.2

def cornerBounds (col row width height : F) : Bounds F :=
  let p0 := gt.pixelToCoord col row
  let p1 := gt.pixelToCoord (col + width) row
  let p2 := gt.pixelToCoord (col + width) (row + height)
  let p3 := gt.pixelToCoord col (row + height)
  [p1, p2, p3].foldl (fun b p => b.grow (albers.lonLat fn p)) (Bounds.at (albers.lonLat fn p0))

/-- A rectangle whose box has the apex is taken to contain the pole. -/
def poleBounds (col row width height : F) (b : Bounds F) : Bounds F :=
  if gt.boxHas col row width height albers.apex then
    if 0 ≤ albers.n then { b with maxLat := 90 }.allLons else { b with minLat := -90 }.allLons
  else b

/-- A corner beyond the antimeridian, before its longitude is wrapped. -/
def cornersLeave (col row width height : F) : Bool :=
  (CrsTransformer.corners gt col row width height).any fun p =>
    decide ((albers.lonLat fn p).1 < -180 ∨ 180 < (albers.lonLat fn p).1)

def rectBounds (col row width height : F) : Bounds F :=
  let b := albers.poleBounds gt col row width height
    (albers.cornerBounds fn gt col row width height)
  let b := (feet albers.apex gt col row width height).foldl
    (fun b p => b.grow (albers.lonLat fn p)) b
  let b := if albers.cornersLeave fn gt col row width height then b.allLons else b
  if 180 < b.maxLon - b.minLon then b.allLons else b

/-- `CrsTransformer::AlbersConic`. -/
def transformer : CrsTransformer F :=
  .projected (fun x y => some (albers.transformPoint fn x y)) true
    fun gt => albers.rectBounds fn gt

end AlbersConicFast

end Wrapped

namespace AlbersConicFast

variable (albers : AlbersConicFast F) (fn : PolarFunctions F)

/-- Where the maximum of the latitude can be. -/
def probes (gt : GeoTransform F) (col row width height : F) : List (F × F) :=
  CrsTransformer.corners gt col row width height ++ feet albers.apex gt col row width height

/-- `eviction_north_bound`; the infinite one is `⊤`. -/
def evictionNorthBound (chunk : RasterChunk) (gt : GeoTransform F) : WithTop F :=
  let col : F := chunk.colOffset
  let row : F := chunk.rowOffset
  let width : F := chunk.width
  let height : F := chunk.height
  if gt.boxHas col row width height albers.apex then ⊤
  else
    (((albers.probes gt col row width height).map fun p =>
      (albers.transformPoint fn p.1 p.2).2).max (by simp [probes, CrsTransformer.corners]) : F)

end AlbersConicFast

/-! ## Polar stereographic -/

section Polar

variable [FloorRing F]

/-- `SLACK`. -/
def polarSlack : F := 1 / 10 ^ 7

/-- The point of the box that is nearest to the origin. -/
def closest (gt : GeoTransform F) (col row width height : F) : F × F :=
  (max (gt.minX col row width height) (min 0 (gt.maxX col row width height)),
    max (gt.minY col row width height) (min 0 (gt.maxY col row width height)))

/-- The corners of the box, and its nearest point. -/
def polarProbes (gt : GeoTransform F) (col row width height : F) : List (F × F) :=
  let xmin := gt.minX col row width height
  let xmax := gt.maxX col row width height
  let ymin := gt.minY col row width height
  let ymax := gt.maxY col row width height
  [(xmin, ymin), (xmin, ymax), (xmax, ymin), (xmax, ymax), closest gt col row width height]

/-- The bounds from those of the probes. -/
def slackened (near : F × F) (b : Bounds F) : Bounds F :=
  let south := max (b.minLat - polarSlack) (-90)
  let north := min (b.maxLat + polarSlack) 90
  if near = (0, 0) ∨ 180 ≤ b.maxLon - b.minLon ∨ b.minLon - polarSlack ≤ -180 ∨
      180 ≤ b.maxLon + polarSlack then
    ⟨-180, south, 180, north⟩
  else ⟨b.minLon - polarSlack, south, b.maxLon + polarSlack, north⟩

def polarRectBounds (point : F → F → Option (F × F)) (gt : GeoTransform F)
    (col row width height : F) : Bounds F :=
  match (polarProbes gt col row width height).mapM fun p => point p.1 p.2 with
  | some (q :: qs) => slackened (closest gt col row width height) (qs.foldl Bounds.grow (Bounds.at q))
  | _ => CrsTransformer.globe

end Polar

end RasterH3.Raster
