import RasterH3.Lib.Binary64
import RasterH3.Lib.Endian

/-!
# Reading polygons in well-known binary

A geometry begins with its byte order and a code: a type, the dimensions as thousands of the
type (ISO) or as flag bits (EWKB), and a flag for a reference system that follows. A polygon
is a list of rings, a multipolygon a list of polygons with headers of their own.

A coordinate is kept as the bits of its two floats. The cursor is the list of the bytes that
are left, and what is allocated ahead of the items has no counterpart.

Reading is strict: the bytes have to end where the geometry does, a header has to name a
type that is expected, and counts are checked against what is left. Empty rings are dropped
when a polygon is built, unless it is the exterior that is empty, and the others are closed,
as the geometry library closes them.
-/

namespace RasterH3.Encoding

open Bytes

abbrev WkbReader := Reader String

/-- The bits of `x` and `y`. -/
abbrev Coord := Nat × Nat

/-- `==` of coordinates. -/
def Coord.same (a b : Coord) : Bool := Binary64.same a.1 b.1 && Binary64.same a.2 b.2

/-- The ring with its first point at the end, unless it is there. -/
def closed (ring : List Coord) : List Coord :=
  match ring.head?, ring.getLast? with
  | some first, some last => if Coord.same first last then ring else ring ++ [first]
  | _, _ => ring

structure Polygon where
  exterior : List Coord
  interiors : List (List Coord)
  deriving DecidableEq, Repr

/-- `Polygon::new` closes any unclosed ring. -/
def Polygon.new (exterior : List Coord) (interiors : List (List Coord)) : Polygon :=
  ⟨closed exterior, interiors.map closed⟩

def wkbPolygon : Nat := 3

def wkbMultipolygon : Nat := 6

def truncated : String := "truncated WKB"

def bit (b : Bool) : Nat := if b then 1 else 0

def zFlag (raw : Nat) : Bool := raw.testBit 31

def mFlag (raw : Nat) : Bool := raw.testBit 30

def sridFlag (raw : Nat) : Bool := raw.testBit 29

/-- The code without its flags. -/
def isoCode (raw : Nat) : Nat := raw % 2 ^ 28

structure Header where
  little : Bool
  baseType : Nat
  dims : Nat
  deriving DecidableEq, Repr

/-- The ordinates of a point under an ISO code, beyond those of the flags. -/
def isoOrdinates (iso : Nat) : Option Nat :=
  match iso / 1000 with
  | 0 => some 0
  | 1 | 2 => some 1
  | 3 => some 2
  | _ => none

def readByteOrder : WkbReader Bool := do
  let byte ← Reader.num truncated true 1
  if byte = 0 then return false
  else if byte = 1 then return true
  else throw "invalid WKB byte order marker"

def headerOf (little : Bool) (raw : Nat) : WkbReader Header :=
  match isoOrdinates (isoCode raw) with
  | none => throw "unsupported WKB geometry type"
  | some more =>
      return { little
               baseType := isoCode raw % 1000
               dims := 2 + bit (zFlag raw) + bit (mFlag raw) + more }

def readHeader : WkbReader Header := do
  let little ← readByteOrder
  let raw ← Reader.num truncated little 4
  let _ ← Reader.exact truncated (if sridFlag raw then 4 else 0)
  headerOf little raw

def readPoint (h : Header) : WkbReader Coord := do
  let x ← Reader.num truncated h.little 8
  let y ← Reader.num truncated h.little 8
  let _ ← Reader.repeated (Reader.num truncated h.little 8) (h.dims - 2)
  return (x, y)

def readRing (h : Header) : WkbReader (List Coord) := do
  let n ← Reader.num truncated h.little 4
  Reader.guarded truncated n (8 * h.dims)
  Reader.repeated (readPoint h) n

def readRings (h : Header) : WkbReader (List (List Coord)) := do
  let nRings ← Reader.num truncated h.little 4
  Reader.guarded truncated nRings 4
  Reader.repeated (readRing h) nRings

/-- What is made of the rings; `none` for an empty polygon. -/
def polygonOf (rings : List (List Coord)) : Except String (Option Polygon) :=
  match rings with
  | [] => .ok none
  | exterior :: interiors =>
      if exterior = [] then
        if interiors.any fun r => r ≠ [] then
          .error "polygon has interior rings but an empty exterior ring"
        else .ok none
      else .ok (some (Polygon.new exterior (interiors.filter fun r => r ≠ [])))

def polygonFrom (rings : List (List Coord)) : WkbReader (Option Polygon) :=
  match polygonOf rings with
  | .ok polygon => return polygon
  | .error e => throw e

def readPolygonBody (h : Header) : WkbReader (Option Polygon) := readRings h >>= polygonFrom

def readMember : WkbReader (Option Polygon) := do
  let inner ← readHeader
  if inner.baseType = wkbPolygon then readPolygonBody inner
  else throw "MULTIPOLYGON member is not a POLYGON"

def readPolygons (h : Header) : WkbReader (List (Option Polygon)) :=
  if h.baseType = wkbPolygon then do
    let polygon ← readPolygonBody h
    return [polygon]
  else if h.baseType = wkbMultipolygon then do
    let n ← Reader.num truncated h.little 4
    Reader.guarded truncated n 9
    Reader.repeated readMember n
  else throw "expected a WKB POLYGON or MULTIPOLYGON"

def wkbToMultipolygon (bytes : List UInt8) : Except String (List Polygon) :=
  match (readHeader >>= readPolygons) bytes with
  | .error e => .error e
  | .ok (polygons, rest) =>
      if rest ≠ [] then .error "trailing bytes after WKB geometry"
      else .ok (polygons.filterMap id)

end RasterH3.Encoding
