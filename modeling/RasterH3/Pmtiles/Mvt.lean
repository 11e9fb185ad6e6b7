import RasterH3.Lib.Protobuf
import RasterH3.Pmtiles.SortRun
import RasterH3.Pmtiles.TilePyramid
import Mathlib

/-!
# Vector tiles

A cell becomes a feature of a tile: its outline in the integer coordinates of the tile,
its id and its properties. A layer writes its features as a protobuf message in which the
names and values of all properties stand in two tables, and every outline is a sequence of
moves of a cursor.

Coordinates are `i32` and areas `i64`. They are integers here, and an operation that would
leave its type stops, as it does where overflow is checked. Only indices into the tables are
cut to 32 bits, by a cast. Mercator coordinates are exact.
-/

namespace RasterH3.Pmtiles.Mvt

open Bytes Protobuf

/-! ## Machine integers -/

def FitsI32 (v : Int) : Prop := -2 ^ 31 ≤ v ∧ v < 2 ^ 31

def FitsI64 (v : Int) : Prop := -2 ^ 63 ≤ v ∧ v < 2 ^ 63

instance (v : Int) : Decidable (FitsI32 v) := inferInstanceAs (Decidable (_ ∧ _))

instance (v : Int) : Decidable (FitsI64 v) := inferInstanceAs (Decidable (_ ∧ _))

/-- The result of an operation on `i32`. -/
def i32 (v : Int) : Option Int := if FitsI32 v then some v else none

/-- The result of an operation on `i64`. -/
def i64 (v : Int) : Option Int := if FitsI64 v then some v else none

/-- `((val << 1) ^ (val >> 31)) as u32` -/
def zigzagEncode (val : BitVec 32) : BitVec 32 := (val <<< 1) ^^^ val.sshiftRight 31

/-! ## Values -/

/-- `PartialEq` of values: a `HexStr` is the string it spells, floats are their bits. A
`HexStr` longer than its array is never compared, its hash stops before. -/
def valueEq : MvtValue → MvtValue → Bool
  | .string a, .string b => utf8 a == utf8 b
  | .hexStr a lenA, .hexStr b lenB => lenA == lenB && hexBytes a lenA == hexBytes b lenB
  | .string a, .hexStr b lenB => decide (lenB.toNat ≤ 16) && utf8 a == hexBytes b lenB
  | .hexStr a lenA, .string b => decide (lenA.toNat ≤ 16) && hexBytes a lenA == utf8 b
  | .float a, .float b => a == b
  | .double a, .double b => a == b
  | .int a, .int b => a == b
  | .uint a, .uint b => a == b
  | .bool a, .bool b => a == b
  | _, _ => false

def writeTag (fieldNumber wireType : Nat) : List UInt8 := writeVarint (tag fieldNumber wireType)

def writeBytesField (fieldNumber : Nat) (bytes : List UInt8) : List UInt8 :=
  writeTag fieldNumber 2 ++ writeVarint bytes.length ++ bytes

def writeStringField (fieldNumber : Nat) (s : String) : List UInt8 :=
  writeBytesField fieldNumber (utf8 s)

/-- `write_to`. A `HexStr` that claims more than its array stops the program, one that is
not UTF-8 writes nothing. -/
def writeTo : MvtValue → Option (List UInt8)
  | .string s => some (writeStringField 1 s)
  | .hexStr bytes len =>
      if 16 < len.toNat then none
      else
        match fromUtf8 (hexBytes bytes len) with
        | some s => some (writeStringField 1 s)
        | none => some []
  | .float bits => some (writeTag 2 5 ++ writeLe 4 bits.toNat)
  | .double bits => some (writeTag 3 1 ++ writeLe 8 bits.toNat)
  | .int v => some (writeTag 4 0 ++ writeVarint v.toBitVec.toNat)
  | .uint v => some (writeTag 5 0 ++ writeVarint v.toNat)
  | .bool v => some (writeTag 7 0 ++ writeVarint (if v then 1 else 0))

/-! ## Properties -/

/-- Which properties are encoded. -/
structure PropertyFilter where
  continuousMask : UInt16
  categoricalMask : UInt16
  genericWhitelist : Option (List String)

namespace PropertyFilter

def all : PropertyFilter := ⟨2 ^ 9 - 1, 2 ^ 8 - 1, none⟩

/-- `has_continuous` and `has_categorical` look at the bit of a property. -/
def hasContinuous (filter : PropertyFilter) (bit : UInt16) : Bool :=
  filter.continuousMask &&& ((1 : UInt16) <<< bit) != 0

def hasCategorical (filter : PropertyFilter) (bit : UInt16) : Bool :=
  filter.categoricalMask &&& ((1 : UInt16) <<< bit) != 0

def allowsGeneric (filter : PropertyFilter) (name : String) : Bool :=
  match filter.genericWhitelist with
  | some set => set.contains name.toLower
  | none => true

end PropertyFilter

inductive FeatureProperties where
  | continuous (h3Index : UInt64) (resolution : UInt8) (mean sum stddev count min max : UInt64)
  | categorical (h3Index : UInt64) (resolution : UInt8) (majority : Int64)
      (majorityFraction : UInt64) (distinctClasses : UInt32) (entropy count : UInt64)
  | generic (props : List (String × MvtValue))

/-- The properties `for_each_filtered` visits, in its order. -/
def forEachFiltered (filter : PropertyFilter) : FeatureProperties → List (String × MvtValue)
  | .continuous h3Index resolution mean sum stddev count min max =>
      let props : List (UInt16 × String × MvtValue) :=
        [(0, "h3_index", .uint h3Index), (1, "h3_hex", .fromHexU64 h3Index.toNat),
          (2, "resolution", .uint resolution.toUInt64), (3, "mean", .double mean),
          (4, "sum", .double sum), (5, "stddev", .double stddev), (6, "count", .double count),
          (7, "min", .double min), (8, "max", .double max)]
      (props.filter fun p => filter.hasContinuous p.1).map (·.2)
  | .categorical h3Index resolution majority majorityFraction distinctClasses entropy count =>
      let props : List (UInt16 × String × MvtValue) :=
        [(0, "h3_index", .uint h3Index), (1, "h3_hex", .fromHexU64 h3Index.toNat),
          (2, "resolution", .uint resolution.toUInt64), (3, "majority", .int majority),
          (4, "majority_fraction", .double majorityFraction),
          (5, "distinct_classes", .uint distinctClasses.toUInt64), (6, "entropy", .double entropy),
          (7, "count", .double count)]
      (props.filter fun p => filter.hasCategorical p.1).map (·.2)
  | .generic props => props.filter fun p => filter.allowsGeneric p.1

/-! ## Outlines -/

/-- A corner in tile coordinates. -/
abbrev Pixel := Int × Int

section Outline

variable {F : Type} [Field F] [LinearOrder F]

/-- A difference of longitudes, the short way around. -/
def wrapTurn (period d : F) : F :=
  if period / 2 < d then d - period else if d ≤ -(period / 2) then d + period else d

/-- A point that repeats the one before it is left out. -/
def pushPoint (pts : List (F × F)) (p : F × F) : List (F × F) :=
  if pts.getLast? = some p then pts else pts ++ [p]

/-- The ring of a cell that encircles a pole, unrolled eastward and closed along the seam and
the edge of the map. -/
def polarCap (xs ys : List F) (x0 period edgeY : F) : List (F × F) :=
  let n := xs.length
  let x := fun i => xs.getD i 0
  let y := fun i => ys.getD i 0
  let turn := ((List.range n).map fun i => wrapTurn period (x ((i + 1) % n) - x i)).sum
  let order := fun i => if 0 ≤ turn then i else n - 1 - i
  let x1 := x0 + period
  -- the eastward edge that crosses the seam starts at `k`
  let k := ((List.range n).find? fun i =>
    decide (x1 < x (order i) + wrapTurn period (x (order ((i + 1) % n)) - x (order i)))).getD (n - 1)
  let a := order k
  let b := order ((k + 1) % n)
  let bX := x a + wrapTurn period (x b - x a)
  let t := (x1 - x a) / (bX - x a)
  let crossY := y a + t * (y b - y a)
  let vertices := (List.range' 1 n).map fun step =>
    let i := order ((k + step) % n)
    -- vertices exactly on the seam sit on the cap's seam edges
    let v :=
      if step = 1 ∧ x i = x1 then x0 else if step = n ∧ x i = x0 then x1 else x i
    (v, y i)
  ([(x0, crossY)] ++ vertices ++ [(x1, crossY), (x1, edgeY), (x0, edgeY)]).foldl pushPoint []

/-- The names of the `x` with the steps between them at most half a turn. -/
def unwrapFrom [FloorRing F] (u : F) : List F → List F
  | [] => []
  | x :: xs => unwrapNear u x :: unwrapFrom (unwrapNear u x) xs

variable [FloorRing F]

/-- `f64::round`: halves away from zero. -/
def roundAway (v : F) : Int := if 0 ≤ v then ⌊v + 1 / 2⌋ else -⌊-v + 1 / 2⌋

/-- `as i32`. -/
def saturate (v : Int) : Int := max (-2 ^ 31) (min (2 ^ 31 - 1) v)

/-- Both constructors of a layer set it. -/
def extent : Nat := 4096

structure TileXy where
  z : Nat
  tx : Nat
  ty : Nat

/-- `((x - tile_x_min) / tile_span * extent).round() as i32`, on each axis. -/
def toTile (t : TileXy) (p : F × F) : Pixel :=
  (saturate (roundAway ((p.1 - (t.tx : F) / 2 ^ t.z) / (1 / 2 ^ t.z) * (extent : F))),
    saturate (roundAway ((p.2 - (t.ty : F) / 2 ^ t.z) / (1 / 2 ^ t.z) * (extent : F))))

/-- A feature's outline before it is oriented, and the translation of its second copy. -/
structure Outline where
  points : List Pixel
  wrappedXOffset : Int

def least (xs : List F) : F := xs.tail.foldl min (xs.headD 0)

def greatest (xs : List F) : F := xs.tail.foldl max (xs.headD 0)

/-- The ring unwrapped and moved to the tile's side of the antimeridian. -/
def alignedTo (t : TileXy) (ux : List F) : List F :=
  let midUx := (least ux + greatest ux) / 2
  let tileCenterX := (t.tx : F) / 2 ^ t.z + 1 / 2 * (1 / 2 ^ t.z)
  let shift : F :=
    if 1 / 2 < midUx - tileCenterX then -1 else if midUx - tileCenterX < -(1 / 2) then 1 else 0
  ux.map (· + shift)

/-- The corners `from_mercator` hands to `orient_exterior`. -/
def outline (vertices : List (MercatorPoint F)) (t : TileXy) : Outline :=
  let vertices := vertices.take 10
  let xs := vertices.map MercatorPoint.x
  let ys := vertices.map MercatorPoint.y
  let jumps := decide (1 / 2 < greatest xs - least xs)
  let ux := if jumps then xs.headD 0 :: unwrapFrom (xs.headD 0) xs.tail else xs
  if jumps && !decide (greatest ux - least ux < 1 / 2) then
    let edgeY : F := if ys.sum < 1 / 2 * (ys.length : F) then 0 else 1
    ⟨(polarCap xs ys 0 1 edgeY).map (toTile t), 0⟩
  else
    let ux := if jumps then alignedTo t ux else ux
    let offset : Int :=
      if t.z = 0 ∧ jumps then
        if greatest ux - least ux < 1 / 2 ∧ least ux < 0 then extent
        else if greatest ux - least ux < 1 / 2 ∧ 1 < greatest ux then -extent
        else 0
      else 0
    ⟨(ux.zip ys).map (toTile t), offset⟩

end Outline

/-- The terms of the surveyor's formula. -/
def areaTerms (ps : List Pixel) : List Int :=
  List.zipWith (fun p q => p.1 * q.2 - q.1 * p.2) ps (ps.tail ++ ps.take 1)

def sumI64 (total : Int) : List Int → Option Int
  | [] => some total
  | v :: vs => do
      let v ← i64 v
      let total ← i64 (total + v)
      sumI64 total vs

def orientExterior (ps : List Pixel) : Option (List Pixel) := do
  let area ← sumI64 0 (areaTerms ps)
  return if area < 0 then ps.reverse else ps

structure MvtFeature where
  id : UInt64
  properties : FeatureProperties
  /-- `polygon_x` and `polygon_y`, up to `num_points`. -/
  points : List Pixel
  wrappedXOffset : Int

/-- What a feature is made of. A polygon has three corners, and they are normalized Web
Mercator points with coordinates in `[0.0, 1.0]`. -/
structure Source (F : Type) [Field F] [LinearOrder F] where
  id : UInt64
  vertices : List (MercatorPoint F)
  tile : TileXy
  properties : FeatureProperties
  three : 3 ≤ vertices.length
  normalized : ∀ v ∈ vertices, (0 ≤ v.x ∧ v.x ≤ 1) ∧ 0 ≤ v.y ∧ v.y ≤ 1
  inPyramid : tile.tx < 2 ^ tile.z ∧ tile.ty < 2 ^ tile.z

def fromMercator {F : Type} [Field F] [LinearOrder F] [FloorRing F] (s : Source F) :
    Option MvtFeature := do
  let o := outline s.vertices s.tile
  let points ← orientExterior o.points
  return ⟨s.id, s.properties, points, o.wrappedXOffset⟩

/-! ## Encoding -/

structure MvtLayer where
  name : String
  features : List MvtFeature
  propertyFilter : PropertyFilter

/-- Keys and values of a layer, and the maps that find them again. -/
structure Tables where
  keyMap : List (String × Nat)
  valMap : List (MvtValue × Nat)
  keys : List String
  values : List MvtValue

namespace Tables

def empty : Tables := ⟨[], [], [], []⟩

def asU32 (n : Nat) : Nat := n % 2 ^ 32

def keyIndex (t : Tables) (k : String) : Tables × Nat :=
  match t.keyMap.lookup k with
  | some idx => (t, idx)
  | none =>
      let idx := asU32 t.keys.length
      ({ t with keys := t.keys ++ [k], keyMap := (k, idx) :: t.keyMap }, idx)

/-- Identifiers of cells are not looked for: they do not come twice. -/
def valueIndex (t : Tables) (k : String) (v : MvtValue) : Tables × Nat :=
  let idx := asU32 t.values.length
  if k = "h3_index" ∨ k = "h3_hex" then ({ t with values := t.values ++ [v] }, idx)
  else
    match t.valMap.find? fun e => valueEq e.1 v with
    | some e => (t, e.2)
    | none => ({ t with values := t.values ++ [v], valMap := (v, idx) :: t.valMap }, idx)

def tags (t : Tables) : List (String × MvtValue) → Tables × List Nat
  | [] => (t, [])
  | (k, v) :: props =>
      let (t, keyIdx) := t.keyIndex k
      let (t, valIdx) := t.valueIndex k v
      let (t, rest) := t.tags props
      (t, keyIdx :: valIdx :: rest)

end Tables

def cmdMoveTo : Nat := 1
def cmdLineTo : Nat := 2
def cmdClosePath : Nat := 7

def command (cmd count : Nat) : List UInt8 := writeVarint (tag count (cmd &&& 7))

/-- One coordinate, as the way the cursor has to go. -/
def writeDelta (prev v : Int) : Option (List UInt8) := do
  let d ← i32 (v - prev)
  return writeVarint (zigzagEncode (.ofInt 32 d)).toNat

def writePoints (prev : Pixel) : List Pixel → Option (List UInt8)
  | [] => some []
  | p :: ps => do
      let x ← writeDelta prev.1 p.1
      let y ← writeDelta prev.2 p.2
      let rest ← writePoints p ps
      return x ++ y ++ rest

/-- A ring, from where the cursor is. -/
def writeRing (prev : Pixel) : List Pixel → Option (List UInt8)
  | [] => some []
  | p :: ps => do
      let first ← writePoints prev [p]
      let rest ← writePoints p ps
      return command cmdMoveTo 1 ++ first ++ command cmdLineTo ps.length ++ rest ++
        command cmdClosePath 1

/-- `polygon_x[i] + offset` -/
def shifted (offset : Int) : List Pixel → Option (List Pixel)
  | [] => some []
  | p :: ps => do
      let x ← i32 (p.1 + offset)
      let rest ← shifted offset ps
      return (x, p.2) :: rest

/-- The cursor persists across rings. -/
def writeRings (points : List Pixel) (prev : Pixel) : List Int → Option (List UInt8)
  | [] => some []
  | offset :: offsets => do
      let ring ← shifted offset points
      let bytes ← writeRing prev ring
      let rest ← writeRings points (ring.getLastD prev) offsets
      return bytes ++ rest

def offsets (wrappedXOffset : Int) : List Int :=
  if wrappedXOffset = 0 then [0] else [0, wrappedXOffset]

def writeGeometry (f : MvtFeature) : Option (List UInt8) :=
  if 3 ≤ f.points.length then writeRings f.points (0, 0) (offsets f.wrappedXOffset)
  else some []

def writeFeature (id : UInt64) (tags : List Nat) (geometry : List UInt8) : List UInt8 :=
  let tagBytes := writePacked tags
  (if id ≠ 0 then writeTag 1 0 ++ writeVarint id.toNat else []) ++
  (if tagBytes = [] then [] else writeBytesField 2 tagBytes) ++
  (writeTag 3 0 ++ writeVarint 3) ++
  (if geometry = [] then [] else writeBytesField 4 geometry)

def writeFeatures (filter : PropertyFilter) (t : Tables) :
    List MvtFeature → Option (Tables × List UInt8)
  | [] => some (t, [])
  | f :: fs => do
      let (t, tags) := t.tags (forEachFiltered filter f.properties)
      let geometry ← writeGeometry f
      let (t, rest) ← writeFeatures filter t fs
      return (t, writeBytesField 2 (writeFeature f.id tags geometry) ++ rest)

def writeValues : List MvtValue → Option (List UInt8)
  | [] => some []
  | v :: vs => do
      let bytes ← writeTo v
      let rest ← writeValues vs
      return writeBytesField 4 bytes ++ rest

def encode (layer : MvtLayer) : Option (List UInt8) := do
  let (t, features) ← writeFeatures layer.propertyFilter .empty layer.features
  let values ← writeValues t.values
  let layerBuf := writeTag 15 0 ++ writeVarint 2 ++ writeStringField 1 layer.name ++ features ++
    t.keys.flatMap (writeStringField 3) ++ values ++ (writeTag 5 0 ++ writeVarint extent)
  return writeBytesField 3 layerBuf

end RasterH3.Pmtiles.Mvt
