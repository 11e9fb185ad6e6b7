import RasterH3.Lib.Endian
import RasterH3.Raster.Transformer

/-!
# Writing cells in well-known binary

A cell is written as its ring, except where the ring does not fit on the map. A cell across the
antimeridian is cut in two there, and a cell with a pole in it becomes a cap that runs from
one end of the map to the other and up to the edge.

A ring is the list of its points without the closing one. It has room for a fixed number of
points and the buffer for a fixed number of bytes; what would go beyond them is `none`, where
the source stops. Coordinates are exact, and the bits of a float are a parameter. The loops
that bring a longitude next to the one before it are replaced by how often they run.
-/

namespace RasterH3.Encoding

open Bytes

/-- Most boundary vertices of any H3 cell. -/
def maxCellVertices : Nat := 10

/-- Most points in one written ring, closing point included. -/
def maxRingPoints : Nat := 2 * maxCellVertices + 3

def polygonBytes (points : Nat) : Nat := 1 + 4 + 4 + 4 + 16 * points

def wkbBufLen : Nat := 1 + 4 + 4 + 2 * polygonBytes maxRingPoints

/-! ## Rings -/

section Rings

variable {F : Type} [Field F] [LinearOrder F]

abbrev PointRing (F : Type) := List (F × F)

/-- Append a point, skipping an exact repeat of the previous one. -/
def PointRing.push (ring : PointRing F) (p : F × F) : Option (PointRing F) :=
  if ring.getLast? = some p then some ring
  else if ring.length < maxRingPoints then some (ring ++ [p])
  else none

def PointRing.pushAll (ring : PointRing F) (ps : List (F × F)) : Option (PointRing F) :=
  ps.foldlM PointRing.push ring

/-- Without a trailing copy of the first point. -/
def PointRing.points (ring : PointRing F) : List (F × F) :=
  if 1 < ring.length ∧ ring.head? = ring.getLast? then ring.dropLast else ring

/-- Whether the ring encloses area, which is taken to be so from three points on. -/
def PointRing.isArea (ring : PointRing F) : Bool := 3 ≤ (PointRing.points ring).length

/-! ## The antimeridian -/

/-- One side of the meridian at 180 degrees, which is on both. -/
def inside (keepEast : Bool) (p : F × F) : Bool := if keepEast then 180 ≤ p.1 else p.1 ≤ 180

/-- Where an edge crosses the meridian. -/
def crossing (a b : F × F) : F × F :=
  let t := (180 - a.1) / (b.1 - a.1)
  (180, a.2 + t * (b.2 - a.2))

/-- What is kept of the edge from `prev` to `cur`, but for its beginning. -/
def keptOf (keepEast : Bool) (prev cur : F × F) : List (F × F) :=
  match inside keepEast prev, inside keepEast cur with
  | true, true => [cur]
  | true, false => [crossing prev cur]
  | false, true => [crossing prev cur, cur]
  | false, false => []

/-- What is kept of the edges from `prev` on. -/
def keptFrom (keepEast : Bool) (prev : F × F) : List (F × F) → List (F × F)
  | [] => []
  | cur :: ring => keptOf keepEast prev cur ++ keptFrom keepEast cur ring

/-- Keep the part of a ring on one side (Sutherland–Hodgman against a single half-plane). -/
def clipAt180 (ring : List (F × F)) (keepEast : Bool) : Option (PointRing F) :=
  match ring.getLast? with
  | none => some []
  | some last => PointRing.pushAll [] (keptFrom keepEast last ring)

/-! ## Caps -/

def wrapTurn (d : F) : F := if 180 < d then d - 360 else if d ≤ -180 then d + 360 else d

def ringEdges (ring : List (F × F)) : List ((F × F) × (F × F)) := ring.zip (ring.rotate 1)

/-- The turn of the edges, -360, 0 or 360 degrees. -/
def totalTurn (ring : List (F × F)) : F :=
  ((ringEdges ring).map fun e => wrapTurn (e.2.1 - e.1.1)).sum

/-- Visit vertices eastward. -/
def eastward (ring : List (F × F)) : List (F × F) := if 0 ≤ totalTurn ring then ring else ring.reverse

/-- The eastward edge that crosses the antimeridian. -/
def crossingEdge (ring : List (F × F)) : Nat :=
  ((ringEdges ring).findIdx? fun e => decide (180 < e.1.1 + wrapTurn (e.2.1 - e.1.1))).getD
    (ring.length - 1)

/-- Vertices exactly on the antimeridian sit on the cap's meridian edges. -/
def onMeridians (ring : List (F × F)) : List (F × F) :=
  ring.mapIdx fun i p =>
    (if i = 0 ∧ p.1 = 180 then -180
      else if i + 1 = ring.length ∧ p.1 = -180 then 180 else p.1, p.2)

/-- Where the edge from `a` to `b` crosses the antimeridian. -/
def crossLat (a b : F × F) : F :=
  let bLng := a.1 + wrapTurn (b.1 - a.1)
  let t := (180 - a.1) / (bLng - a.1)
  a.2 + t * (b.2 - a.2)

/-- The points of a cap, where `ring` begins after the crossing edge. -/
def capPoints (ring : List (F × F)) (lat pole : F) : List (F × F) :=
  (-180, lat) :: onMeridians ring ++ [(180, lat), (180, pole), (-180, pole)]

def polarCap (ring : List (F × F)) (north : Bool) : Option (PointRing F) :=
  let unrolled := (eastward ring).rotate (crossingEdge (eastward ring) + 1)
  match unrolled.head?, unrolled.getLast? with
  | some b, some a => do
      let cap ← PointRing.pushAll [] (capPoints unrolled (crossLat a b) (if north then 90 else -90))
      return if north then cap else cap.reverse
  | _, _ => none

end Rings

/-! ## Bytes -/

section Writer

variable {F : Type}

/-- The bytes that are written. -/
def put (written bytes : List UInt8) : Option (List UInt8) :=
  if written.length + bytes.length ≤ wkbBufLen then some (written ++ bytes) else none

def putHeader (written : List UInt8) (geometryType count : Nat) : Option (List UInt8) := do
  let written ← put written [1]
  let written ← put written (writeLe 4 geometryType)
  put written (writeLe 4 count)

def putPoint (bits : F → Nat) (written : List UInt8) (p : F × F) : Option (List UInt8) := do
  let written ← put written (writeLe 8 (bits p.1))
  put written (writeLe 8 (bits p.2))

/-- A polygon of one ring, which is closed. -/
def putPolygon (bits : F → Nat) (written : List UInt8) (pts : List (F × F)) : Option (List UInt8) := do
  let written ← putHeader written 3 1
  let written ← put written (writeLe 4 (pts.length + 1))
  (pts ++ pts.take 1).foldlM (putPoint bits) written

end Writer

/-! ## Cells -/

section Cells

variable {F : Type} [Field F] [LinearOrder F] [FloorRing F]

/-- A longitude next to the one before it, by whole turns. -/
def nextTo (prev lng : F) : F :=
  let lowered := lng - 360 * ⌈(lng - prev - 180) / 360⌉₊
  lowered + 360 * ⌈(prev - lowered - 180) / 360⌉₊

def unwrapFrom (prev : F) : List (F × F) → List (F × F)
  | [] => []
  | p :: ring => (nextTo prev p.1, p.2) :: unwrapFrom (nextTo prev p.1) ring

/-- Unwrapped so that successive longitudes differ by no more than half a turn. -/
def unwrapped : List (F × F) → List (F × F)
  | [] => []
  | p :: ring => p :: unwrapFrom p.1 ring

/-- Shifted to straddle 180 degrees from below. -/
def straddling (ring : List (F × F)) : List (F × F) :=
  let shift : F := if ring.any fun p => decide (p.1 < -180) then 360 else 0
  ring.map fun p => (p.1 + shift, p.2)

/-- The polygons of a cell across the antimeridian. -/
def splitCell (boundary : List (F × F)) : Option (List (PointRing F)) := do
  let ring ← PointRing.pushAll [] (straddling (unwrapped boundary))
  let west ← clipAt180 (PointRing.points ring) false
  let east ← clipAt180 (PointRing.points ring) true
  let east := east.map fun p => (p.1 - 360, p.2)
  match PointRing.isArea west, PointRing.isArea east with
  | true, true => return [west, east]
  | true, false => return [west]
  | false, true => return [east]
  | false, false => return [ring]

/-- The polygons of a cell, without their closing points. `pole` says which one is in it. -/
def cellPolygons (boundary : List (F × F)) (pole : Option Bool) : Option (List (List (F × F))) :=
  let lngs := boundary.map Prod.fst
  match lngs.max?, lngs.min? with
  | some maxLng, some minLng =>
      if maxCellVertices < boundary.length then none
      else if maxLng - minLng ≤ 180 then some [boundary]
      else
        match pole with
        | some north => (polarCap boundary north).map fun cap => [PointRing.points cap]
        | none => (splitCell boundary).map fun rings => rings.map PointRing.points
  | _, _ => none

/-- One polygon is written as it is, and two with a header. -/
def putPolygons (bits : F → Nat) : List (List (F × F)) → Option (List UInt8)
  | [pts] => putPolygon bits [] pts
  | polygons => do
      let written ← putHeader [] 6 polygons.length
      polygons.foldlM (putPolygon bits) written

def cellToWkb (bits : F → Nat) (boundary : List (F × F)) (pole : Option Bool) :
    Option (List UInt8) :=
  cellPolygons boundary pole >>= putPolygons bits

end Cells

/-! ## Bounds -/

section Extend

variable {F : Type} [LinearOrder F]

open Raster

def extendPoint (b : Bounds F) (x y : F) : Bounds F where
  minLon := min b.minLon x
  minLat := min b.minLat y
  maxLon := max b.maxLon x
  maxLat := max b.maxLat y

/-- `u32_at` and `f64_at`, at the first of the bytes that are left. -/
def numAt (w : Nat) (input : List UInt8) : Option Nat := (readLe w input).map Prod.fst

/-- Visit points; the bytes that are left, unless they end before. -/
def extendPoints (value : Nat → F) : Nat → List UInt8 → Bounds F → Bounds F × Option (List UInt8)
  | 0, input, b => (b, some input)
  | n + 1, input, b =>
      match numAt 8 input, numAt 8 (input.drop 8) with
      | some x, some y =>
          extendPoints value n (input.drop 16) (extendPoint b (value x) (value y))
      | _, _ => (b, none)

def extendRings (value : Nat → F) : Nat → List UInt8 → Bounds F → Bounds F × Option (List UInt8)
  | 0, input, b => (b, some input)
  | n + 1, input, b =>
      match numAt 4 input with
      | none => (b, none)
      | some points =>
          match extendPoints value points (input.drop 4) b with
          | (b, some input) => extendRings value n input b
          | (b, none) => (b, none)

def extendPolygon (value : Nat → F) (input : List UInt8) (b : Bounds F) :
    Bounds F × Option (List UInt8) :=
  if input.head? ≠ some 1 ∨ numAt 4 (input.drop 1) ≠ some 3 then (b, none)
  else
    match numAt 4 (input.drop 5) with
    | none => (b, none)
    | some rings => extendRings value rings (input.drop 9) b

def extendPolygons (value : Nat → F) : Nat → List UInt8 → Bounds F → Bounds F
  | 0, _, b => b
  | n + 1, input, b =>
      match extendPolygon value input b with
      | (b, some input) => extendPolygons value n input b
      | (b, none) => b

def extendWkbBounds (value : Nat → F) (wkb : List UInt8) (b : Bounds F) : Bounds F :=
  if wkb.head? = some 1 ∧ numAt 4 (wkb.drop 1) = some 3 then (extendPolygon value wkb b).1
  else if wkb.head? = some 1 ∧ numAt 4 (wkb.drop 1) = some 6 then
    match numAt 4 (wkb.drop 5) with
    | none => b
    | some parts => extendPolygons value parts (wkb.drop 9) b
  else b

end Extend

end RasterH3.Encoding
