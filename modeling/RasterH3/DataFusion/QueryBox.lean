import RasterH3.Agg.Coordinates

/-!
# Query boxes of a table scan

A box that the planner pushes down is widened first, by more than a cell, so that a cell
that touches the query keeps all its samples, and then intersected with the box that the
table has. A geometry that a predicate measures a distance from is pushed down as its
envelope, grown by the distance.

A box crosses the antimeridian when its western bound is the larger one. Arithmetic is
exact; the cosine of an angle in degrees is a parameter.
-/

namespace RasterH3.DataFusion

open Agg Raster

variable {F : Type} [Field F] [LinearOrder F]

/-- `KM_PER_DEG_LAT`, rounded down so that margins come out larger. -/
def kmPerDegLat : F := 110

def kmPerDegLonEquator : F := 111

/-- `POLAR_LAT`: beyond it the widened box spans every longitude. -/
def polarLat : F := 89

/-- The coordinates lie on the globe. -/
def inRange (lon lat : F) : Prop := (-180 ≤ lon ∧ lon ≤ 180) ∧ -90 ≤ lat ∧ lat ≤ 90

instance (lon lat : F) : Decidable (inRange lon lat) :=
  inferInstanceAs (Decidable ((_ ∧ _) ∧ _ ∧ _))

def latMargin (marginKm : F) : F := marginKm / kmPerDegLat

/-- The southern and the northern bound of a widened box. -/
def widenedLats (bbox : Bbox F) (marginKm : F) : F × F :=
  (max (bbox.minLat - latMargin marginKm) (-90), min (bbox.maxLat + latMargin marginKm) 90)

/-- The latitude of a widened box with the shortest degree of longitude. -/
def widest (bbox : Bbox F) (marginKm : F) : F :=
  let lats := widenedLats bbox marginKm
  max |lats.1| |lats.2|

def lonMargin (cosDeg : F → F) (bbox : Bbox F) (marginKm : F) : F :=
  marginKm / (kmPerDegLonEquator * cosDeg (widest bbox marginKm))

/-- The degrees of longitude from the western to the eastern bound. -/
def span (bbox : Bbox F) : F :=
  if bbox.maxLon < bbox.minLon then bbox.maxLon + 360 - bbox.minLon
  else bbox.maxLon - bbox.minLon

/-- Widens a box on every side; `none` if its coordinates are out of range. -/
def expandBbox (cosDeg : F → F) (bbox : Bbox F) (marginKm : F) : Option (Bbox F) :=
  if ¬ (inRange bbox.minLon bbox.minLat ∧ inRange bbox.maxLon bbox.maxLat) ∨
      bbox.maxLat < bbox.minLat then none
  else
    let (loLat, hiLat) := widenedLats bbox marginKm
    if polarLat ≤ widest bbox marginKm then some ⟨-180, loLat, 180, hiLat⟩
    else
      let margin := lonMargin cosDeg bbox marginKm
      if 360 ≤ span bbox + 2 * margin then some ⟨-180, loLat, 180, hiLat⟩
      else
        let loLon := bbox.minLon - margin
        let hiLon := bbox.maxLon + margin
        some
          { minLon := if loLon < -180 then loLon + 360 else loLon
            minLat := loLat
            maxLon := if 180 < hiLon then hiLon - 360 else hiLon
            maxLat := hiLat }

/-- `none` when the boxes are disjoint. Where one of them crosses the antimeridian, the
first is kept. -/
def intersectBbox (current other : Bbox F) : Option (Bbox F) :=
  if current.maxLon < current.minLon ∨ other.maxLon < other.minLon then some current
  else
    let out : Bbox F :=
      { minLon := max current.minLon other.minLon
        minLat := max current.minLat other.minLat
        maxLon := min current.maxLon other.maxLon
        maxLat := min current.maxLat other.maxLat }
    if out.minLon ≤ out.maxLon ∧ out.minLat ≤ out.maxLat then some out else none

/-- Grows an envelope by a planar distance, which does not wrap. -/
def grow (envelope : Bbox F) (distance : F) : Option (Bbox F) :=
  if ¬ (inRange envelope.minLon envelope.minLat ∧ inRange envelope.maxLon envelope.maxLat) then none
  else
    some
      { minLon := max (envelope.minLon - distance) (-180)
        minLat := max (envelope.minLat - distance) (-90)
        maxLon := min (envelope.maxLon + distance) 180
        maxLat := min (envelope.maxLat + distance) 90 }

end RasterH3.DataFusion
