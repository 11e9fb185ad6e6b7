import RasterH3.Pmtiles.TilePyramid
import Mathlib.Algebra.Order.Ring.Rat
import Mathlib.Order.WithBot
import Mathlib.Data.List.Basic

/-!
# Bounds of cells

An accumulator keeps the extent of the points of cells, and beside it the least of the
longitudes that are not negative, the greatest of the negative ones, and whether a cell is at a
pole or spans more than half of the parallel. From these it chooses between a box, a box over
the antimeridian and the whole parallel.

A coordinate is a number or one of the two infinities an accumulator starts with. The grid is
an argument, and so is the rounding of differences.
-/

namespace RasterH3.Pmtiles

/-- A double that is a number or infinite. -/
abbrev Degrees := WithBot (WithTop ℚ)

def Degrees.of (q : ℚ) : Degrees := ((q : WithTop ℚ) : WithBot (WithTop ℚ))

/-- What is asked of the grid library. -/
structure Grid (C : Type) where
  resolution : C → Nat
  toCell : LatLng ℚ → Nat → C
  center : C → LatLng ℚ
  boundary : C → List (LatLng ℚ)

namespace Degrees

variable (round : ℚ → ℚ)

/-- A sum; no infinities of different signs are added. -/
def add : Degrees → Degrees → Degrees
  | some (some a), some (some b) => of (round (a + b))
  | a, b => if a = ⊤ ∨ b = ⊤ then ⊤ else ⊥

/-- A difference; no infinity is subtracted from itself. -/
def sub : Degrees → Degrees → Degrees
  | some (some a), some (some b) => of (round (a - b))
  | a, b => if a = ⊤ ∨ b = ⊥ then ⊤ else ⊥

def isFinite (d : Degrees) : Prop := d ≠ ⊥ ∧ d ≠ ⊤

instance (d : Degrees) : Decidable d.isFinite := inferInstanceAs (Decidable (_ ∧ _))

end Degrees

/-- `[min_lon, min_lat, max_lon, max_lat]` -/
structure Wgs84Box where
  minLon : Degrees
  minLat : Degrees
  maxLon : Degrees
  maxLat : Degrees
  deriving DecidableEq

structure Wgs84BoundsAccumulator where
  minLon : Degrees
  minLat : Degrees
  maxLon : Degrees
  maxLat : Degrees
  minPosLon : Degrees
  maxNegLon : Degrees
  crossesAntimeridian : Bool
  fullLon : Bool
  count : Nat
  deriving DecidableEq

namespace Wgs84BoundsAccumulator

open Degrees

def new : Wgs84BoundsAccumulator where
  minLon := ⊤
  minLat := ⊤
  maxLon := ⊥
  maxLat := ⊥
  minPosLon := ⊤
  maxNegLon := ⊥
  crossesAntimeridian := false
  fullLon := false
  count := 0

def observePoint (acc : Wgs84BoundsAccumulator) (p : LatLng ℚ) : Wgs84BoundsAccumulator :=
  let acc := { acc with
    minLat := min acc.minLat (of p.lat)
    maxLat := max acc.maxLat (of p.lat)
    minLon := min acc.minLon (of p.lng)
    maxLon := max acc.maxLon (of p.lng) }
  if 0 ≤ p.lng then { acc with minPosLon := min acc.minPosLon (of p.lng) }
  else { acc with maxNegLon := max acc.maxNegLon (of p.lng) }

def markNorthPole (acc : Wgs84BoundsAccumulator) (isNorthPole : Bool) : Wgs84BoundsAccumulator :=
  if isNorthPole then { acc with maxLat := of 90, fullLon := true } else acc

def markSouthPole (acc : Wgs84BoundsAccumulator) (isSouthPole : Bool) : Wgs84BoundsAccumulator :=
  if isSouthPole then { acc with minLat := of (-90), fullLon := true } else acc

def markCrossing (acc : Wgs84BoundsAccumulator) (crosses : Bool) : Wgs84BoundsAccumulator :=
  if crosses then { acc with crossesAntimeridian := true } else acc

section Record

variable {C : Type} [DecidableEq C] (grid : Grid C) (round : ℚ → ℚ)

/-- The cell at a pole of its resolution. -/
def isPole (cell : C) (lat : ℚ) : Bool := cell = grid.toCell ⟨lat, 0⟩ (grid.resolution cell)

/-- What the vertices of a cell span. -/
def cellSpan (cell : C) : Degrees :=
  let lngs := (grid.boundary cell).map fun v => of v.lng
  sub round (lngs.foldl max ⊥) (lngs.foldl min ⊤)

def recordCell (acc : Wgs84BoundsAccumulator) (cell : C) : Wgs84BoundsAccumulator :=
  let acc := { acc with count := acc.count + 1 }
  let isNorthPole := isPole grid cell 90
  let isSouthPole := isPole grid cell (-90)
  let acc := acc.markNorthPole isNorthPole
  let acc := acc.markSouthPole isSouthPole
  let acc := acc.observePoint (grid.center cell)
  let acc := (grid.boundary cell).foldl observePoint acc
  acc.markCrossing (!isNorthPole && !isSouthPole && of 180 < cellSpan grid round cell)

end Record

def merge (acc other : Wgs84BoundsAccumulator) : Wgs84BoundsAccumulator :=
  if other.count = 0 then acc
  else
    { count := acc.count + other.count
      minLon := min acc.minLon other.minLon
      minLat := min acc.minLat other.minLat
      maxLon := max acc.maxLon other.maxLon
      maxLat := max acc.maxLat other.maxLat
      minPosLon := min acc.minPosLon other.minPosLon
      maxNegLon := max acc.maxNegLon other.maxNegLon
      crossesAntimeridian := acc.crossesAntimeridian || other.crossesAntimeridian
      fullLon := acc.fullLon || other.fullLon }

/-- The box from `minPosLon` over the antimeridian to `maxNegLon` is the smaller one. -/
def prefersWrapped (round : ℚ → ℚ) (acc : Wgs84BoundsAccumulator) : Prop :=
  let directSpan := sub round acc.maxLon acc.minLon
  let wrappedSpan := add round (sub round (of 180) acc.minPosLon) (add round acc.maxNegLon (of 180))
  (acc.crossesAntimeridian ∨ of 180 < directSpan) ∧ wrappedSpan < directSpan ∧
    wrappedSpan < of 180

instance (round : ℚ → ℚ) (acc : Wgs84BoundsAccumulator) : Decidable (acc.prefersWrapped round) :=
  inferInstanceAs (Decidable (_ ∧ _ ∧ _))

def finish (round : ℚ → ℚ) (acc : Wgs84BoundsAccumulator) (emptyDefault : Wgs84Box) : Wgs84Box :=
  if acc.count = 0 then emptyDefault
  else if acc.fullLon then ⟨of (-180), acc.minLat, of 180, acc.maxLat⟩
  else if acc.minPosLon.isFinite ∧ acc.maxNegLon.isFinite ∧ acc.prefersWrapped round then
    ⟨acc.minPosLon, acc.minLat, acc.maxNegLon, acc.maxLat⟩
  else if acc.crossesAntimeridian ∧ of 180 < sub round acc.maxLon acc.minLon then
    ⟨of (-180), acc.minLat, of 180, acc.maxLat⟩
  else ⟨acc.minLon, acc.minLat, acc.maxLon, acc.maxLat⟩

end Wgs84BoundsAccumulator

end RasterH3.Pmtiles
