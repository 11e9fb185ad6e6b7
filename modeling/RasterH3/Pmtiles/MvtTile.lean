import RasterH3.Pmtiles.Mvt

/-!
# What a vector tile says

The reading side of version 2 of the Mapbox Vector Tile specification, stated on its own: a
tile is a message of layers, a layer has a name, an extent, tables of keys and values, and
features; a feature has an id, pairs of indices into the tables, and rings drawn by a cursor
that starts at the origin. A value holds exactly one of its variants, and everything that is
not so makes the tile unreadable.

The encoder has been written for speed and this reader for the comparison. It reads a
message into its fields before it looks at any of them, takes the last of a number or a name
that should be there once, and keeps nothing but what a tile says. Numbers of geometry are
integers without a width, so that a cursor which leaves 32 bits is seen as such.
-/

namespace RasterH3.Pmtiles.Mvt

open Bytes Protobuf

/-- A property value as a reader of tiles sees it. -/
inductive TileValue where
  | string (s : String)
  | float (bits : UInt32)
  | double (bits : UInt64)
  | int (v : Int64)
  | uint (v : UInt64)
  | bool (v : Bool)
  deriving DecidableEq

structure TileFeature where
  id : Nat
  properties : List (String × TileValue)
  rings : List (List Pixel)
  deriving DecidableEq

structure TileLayer where
  name : String
  extent : Nat
  features : List TileFeature
  deriving DecidableEq

/-- `(n >> 1) ^ -(n & 1)` -/
def zigzagDecode (n : Nat) : Int := if n % 2 = 0 then (n / 2 : Nat) else -(n / 2 : Nat) - 1

def decodeValue (bytes : List UInt8) : Option TileValue := do
  match ← readMessage bytes with
  | [⟨1, .bytes b⟩] => (fromUtf8 b).map .string
  | [⟨2, .fixed32 n⟩] => some (.float (UInt32.ofNat n))
  | [⟨3, .fixed64 n⟩] => some (.double (UInt64.ofNat n))
  | [⟨4, .varint n⟩] => some (.int (Int64.ofBitVec (BitVec.ofNat 64 n)))
  | [⟨5, .varint n⟩] => some (.uint (UInt64.ofNat n))
  | [⟨6, .varint n⟩] => some (.int (Int64.ofInt (zigzagDecode n)))
  | [⟨7, .varint n⟩] => some (.bool (n ≠ 0))
  | _ => none

/-- Everything, or nothing. -/
def mapAll {α β : Type} (f : α → Option β) : List α → Option (List β)
  | [] => some []
  | x :: xs => do
      let y ← f x
      let ys ← mapAll f xs
      return y :: ys

def decodeTags (keys : List String) (values : List TileValue) :
    List Nat → Option (List (String × TileValue))
  | [] => some []
  | k :: v :: tags => do
      let key ← keys[k]?
      let value ← values[v]?
      let rest ← decodeTags keys values tags
      return (key, value) :: rest
  | [_] => none

def readPoints : Nat → Pixel → List Nat → Option (List Pixel × List Nat)
  | 0, _, ns => some ([], ns)
  | n + 1, cursor, dx :: dy :: ns => do
      let p : Pixel := (cursor.1 + zigzagDecode dx, cursor.2 + zigzagDecode dy)
      let (ps, ns) ← readPoints n p ns
      return (p :: ps, ns)
  | _ + 1, _, _ => none

/-- A command with this id and any count. -/
def readCommand (id : Nat) : List Nat → Option (Nat × List Nat)
  | [] => none
  | n :: ns => if n % 8 = id then some (n / 8, ns) else none

/-- MoveTo one point, LineTo at least two, ClosePath. -/
def readRing (cursor : Pixel) (ns : List Nat) : Option (List Pixel × List Nat) := do
  let (count, ns) ← readCommand 1 ns
  if count ≠ 1 then none
  let (first, ns) ← readPoints 1 cursor ns
  let (count, ns) ← readCommand 2 ns
  if count < 2 then none
  let (rest, ns) ← readPoints count (first.getLastD cursor) ns
  let (count, ns) ← readCommand 7 ns
  if count ≠ 1 then none
  return (first ++ rest, ns)

def readRings : Nat → Pixel → List Nat → Option (List (List Pixel))
  | _, _, [] => some []
  | 0, _, _ :: _ => none
  | rounds + 1, cursor, n :: ns => do
      let (ring, ns) ← readRing cursor (n :: ns)
      let rings ← readRings rounds (ring.getLastD cursor) ns
      return ring :: rings

/-- All packed numbers under a field number. -/
def packedAt (number : Nat) (fields : List Protobuf.Field) : Option (List Nat) := do
  let parts ← mapAll readPacked (bytesAt number fields)
  return parts.flatten

def decodeFeature (keys : List String) (values : List TileValue) (bytes : List UInt8) :
    Option TileFeature := do
  let fields ← readMessage bytes
  let tags ← packedAt 2 fields
  let properties ← decodeTags keys values tags
  if varintAt 3 fields ≠ some 3 then none
  let geometry ← packedAt 4 fields
  let rings ← readRings geometry.length (0, 0) geometry
  return ⟨(varintAt 1 fields).getD 0, properties, rings⟩

def decodeLayer (bytes : List UInt8) : Option TileLayer := do
  let fields ← readMessage bytes
  if varintAt 15 fields ≠ some 2 then none
  let nameBytes ← (bytesAt 1 fields).getLast?
  let name ← fromUtf8 nameBytes
  let keys ← mapAll fromUtf8 (bytesAt 3 fields)
  let values ← mapAll decodeValue (bytesAt 4 fields)
  let features ← mapAll (decodeFeature keys values) (bytesAt 2 fields)
  return ⟨name, (varintAt 5 fields).getD 4096, features⟩

def decodeTile (bytes : List UInt8) : Option (List TileLayer) := do
  let fields ← readMessage bytes
  mapAll decodeLayer (bytesAt 3 fields)

end RasterH3.Pmtiles.Mvt
