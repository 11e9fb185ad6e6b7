import RasterH3.Lib.Binary64
import RasterH3.Lib.Endian

/-!
# The envelope of a geometry

A second reader of well-known binary, for the box around a geometry of any type. It folds
the coordinates it meets into the box and keeps nothing else. Its error is always the same,
so a read that fails says nothing.

`f64` values are compared by value, and a coordinate with a NaN is passed over: that is how
an empty point is encoded.

Geometries may be nested, to a depth that the source bounds, and every level reads a header
of its own. A count is compared with the bytes that are left before anything is read, so
that a header cannot ask for more items than there can be. Whether a point has a Z and an M
is read off the flags and the thousands of the code, and what both of them say counts once.
-/

namespace RasterH3.Sedona

open Bytes Binary64

abbrev EnvelopeReader := Reader Unit

structure Envelope where
  minX : Extended
  minY : Extended
  maxX : Extended
  maxY : Extended
  deriving DecidableEq

namespace Envelope

/-- Infinities the wrong way round. -/
def start : Envelope := ⟨⊤, ⊤, ⊥, ⊥⟩

/-- The box with one more point. -/
def add (env : Envelope) (x y : Extended) : Envelope :=
  ⟨min env.minX x, min env.minY y, max env.maxX x, max env.maxY y⟩

/-- The box with a coordinate that may have a NaN. -/
def addBits (env : Envelope) (p : Nat × Nat) : Envelope :=
  match value p.1, value p.2 with
  | some x, some y => env.add x y
  | _, _ => env

end Envelope

/-- A count that cannot exceed the bytes left. -/
def count (little : Bool) (minSize : Nat) : EnvelopeReader Nat := do
  let n ← Reader.num () little 4
  Reader.guarded () n minSize
  return n

def point (dims : Nat) (little : Bool) (env : Envelope) : EnvelopeReader Envelope := do
  let x ← Reader.num () little 8
  let y ← Reader.num () little 8
  let _ ← Reader.repeated (Reader.num () little 8) (dims - 2)
  return env.addBits (x, y)

def points (n dims : Nat) (little : Bool) (env : Envelope) : EnvelopeReader Envelope :=
  Reader.iterated (point dims little) n env

/-- A line, or a ring of a polygon. -/
def ring (dims : Nat) (little : Bool) (env : Envelope) : EnvelopeReader Envelope := do
  let n ← count little (8 * dims)
  points n dims little env

def maxDepth : Nat := 32

/-- Which of Z and M an ISO code has. -/
def isoDims (iso : Nat) : Option (Bool × Bool) :=
  match iso / 1000 with
  | 0 => some (false, false)
  | 1 => some (true, false)
  | 2 => some (false, true)
  | 3 => some (true, true)
  | _ => none

def envelopeByteOrder : EnvelopeReader Bool := do
  let byte ← Reader.num () true 1
  if byte = 0 then return false
  else if byte = 1 then return true
  else throw ()

/-- Byte order, base type and ordinates of a point, behind the code. -/
def envelopeDims (little : Bool) (code : Nat) : EnvelopeReader (Bool × Nat × Nat) :=
  match isoDims (code % 2 ^ 28) with
  | none => throw ()
  | some (isoZ, isoM) => do
      let _ ← Reader.exact () (if code.testBit 29 then 4 else 0)
      let z := if code.testBit 31 || isoZ then 1 else 0
      let m := if code.testBit 30 || isoM then 1 else 0
      return (little, code % 2 ^ 28 % 1000, 2 + z + m)

def envelopeHeader : EnvelopeReader (Bool × Nat × Nat) := do
  let little ← envelopeByteOrder
  let code ← Reader.num () little 4
  envelopeDims little code

/-- A geometry, with as many levels as may be nested from here on. -/
def geometry : Nat → Envelope → EnvelopeReader Envelope
  | 0, _ => throw ()
  | levels + 1, env => do
      let (little, base, dims) ← envelopeHeader
      if base = 1 then points 1 dims little env
      else if base = 2 then ring dims little env
      else if base = 3 then do
        let n ← count little 4
        Reader.iterated (ring dims little) n env
      else if 4 ≤ base ∧ base ≤ 7 then do
        let n ← count little 5
        Reader.iterated (geometry levels) n env
      else throw ()

def wkbEnvelope (bytes : List UInt8) : Option Envelope :=
  match geometry (maxDepth + 1) Envelope.start bytes with
  | .ok (env, []) => if env.minX ≤ env.maxX ∧ env.minY ≤ env.maxY then some env else none
  | _ => none

end RasterH3.Sedona
