import RasterH3.Lib.Keyed
import RasterH3.Lib.MaxHeap
import RasterH3.Pmtiles.Writer
import Mathlib.Data.Prod.Lex
import Mathlib.Algebra.Order.Floor.Ring

/-!
# Tiles that are written as soon as nothing more can come

Features arrive from north to south and go into every tile they touch. A tile leaves memory
once its south edge lies more than a safety margin north of the latitude that has been
reached.

Rows are found through the Mercator projection, whose two functions, from latitude to row
and back, are given as an axis with what they are known for. Longitudes only choose columns;
they are wrapped where a cell crosses the antimeridian.

Buckets are keyed by zoom, column and row, and beside them is a queue of tiles by the
latitude of their south edge. The accumulator is used by a loop that adds features and
evicts in turn. A run of this loop is a list of operations (`TileOp`), and its outcome is
the tiles handed to the writer, in their order; what the writer makes of them is elsewhere.
-/

namespace RasterH3.Pmtiles

variable {F : Type} [Field F] [LinearOrder F]

/-- Where Web Mercator is cut, in degrees. -/
def latLimit : F := 8505112878 / 100000000

/-- The latitude and the `y` of Web Mercator: `y = (1 - ln(tan lat + 1 / cos lat) / π) / 2`
and `lat = atan(sinh(π (1 - 2 y)))`. The limit is the latitude of the edges, rounded up. -/
structure MercatorAxis (F : Type) [Field F] [LinearOrder F] where
  toY : F → F
  toLat : F → F
  antitone : ∀ lat lat', -latLimit ≤ lat → lat ≤ lat' → lat' ≤ latLimit → toY lat' ≤ toY lat
  toY_toLat : ∀ y, 0 ≤ y → y ≤ 1 → toY (toLat y) = y
  toLat_mem : ∀ y, 0 ≤ y → y ≤ 1 → -latLimit ≤ toLat y ∧ toLat y ≤ latLimit

structure LatLng (F : Type) where
  lat : F
  lng : F

structure MercatorPoint (F : Type) where
  x : F
  y : F

def clamp (lo hi v : F) : F := max lo (min hi v)

def MercatorPoint.fromLatLng (axis : MercatorAxis F) (p : LatLng F) : MercatorPoint F where
  x := clamp 0 1 ((p.lng + 180) / 360)
  y := clamp 0 1 (axis.toY (clamp (-latLimit) latLimit p.lat))

/-- Zoom, column, row. -/
abbrev TileKey := Nat × Nat × Nat

/-- The latitude of the southern edge, `tile_xy_to_bbox(..)[1]`. -/
def tileSouth (axis : MercatorAxis F) (key : TileKey) : F :=
  axis.toLat ((key.2.2 + 1) / 2 ^ key.1)

section Coverage

variable [FloorRing F]

/-- `v.floor().max(0.0).min(n - 1.0) as u32`, with `n` columns or rows. -/
def tileCoord (v : F) (z : Nat) : Nat := (min (max ⌊v * 2 ^ z⌋ 0) (2 ^ z - 1)).toNat

def mercatorToTileXy (pt : MercatorPoint F) (z : Nat) : Nat × Nat :=
  (tileCoord pt.x z, tileCoord pt.y z)

structure TileRange where
  minTx : Nat
  maxTx : Nat
  minTy : Nat
  maxTy : Nat

def cellTileRangeMercator (center : MercatorPoint F) (vertices : List (MercatorPoint F))
    (z : Nat) : TileRange :=
  let c := mercatorToTileXy center z
  vertices.foldl
    (fun r v =>
      let t := mercatorToTileXy v z
      ⟨min r.minTx t.1, max r.maxTx t.1, min r.minTy t.2, max r.maxTy t.2⟩)
    ⟨c.1, c.1, c.2, c.2⟩

/-- `while x - u > 0.5 { x -= 1.0 }` -/
def lower (u : F) : Nat → F → F
  | 0, x => x
  | n + 1, x => if 1 / 2 < x - u then lower u n (x - 1) else x

/-- `while x - u < -0.5 { x += 1.0 }` -/
def raise (u : F) : Nat → F → F
  | 0, x => x
  | n + 1, x => if x - u < -(1 / 2) then raise u n (x + 1) else x

/-- The name of `x` within half a turn of `u`. -/
def unwrapNear (u x : F) : F :=
  let rounds := ⌊|x - u|⌋.toNat + 1
  raise u rounds (lower u rounds x)

/-- The last longitude of the walk around the vertices, the least and the greatest. -/
structure Unwrapped (F : Type) where
  last : F
  min : F
  max : F

def Unwrapped.next (s : Unwrapped F) (x : F) : Unwrapped F :=
  let x := unwrapNear s.last x
  ⟨x, Min.min s.min x, Max.max s.max x⟩

/-- The columns of a cell that crosses the antimeridian, if it is one. -/
def wrappedColumns (center : MercatorPoint F) (vertices : List (MercatorPoint F)) (z : Nat) :
    Option (List Nat) :=
  match vertices with
  | [] => none
  | first :: rest =>
      let minRawX := (vertices.map MercatorPoint.x).foldl min center.x
      let maxRawX := (vertices.map MercatorPoint.x).foldl max center.x
      if 1 / 2 < maxRawX - minRawX then
        let walk : Unwrapped F :=
          (rest.take 9).foldl (fun s v => s.next v.x) ⟨first.x, first.x, first.x⟩
        let s := walk.next center.x
        if s.max - s.min < 1 / 2 then
          let tMin := ⌊s.min * 2 ^ z⌋
          let tMax := ⌊s.max * 2 ^ z⌋
          if tMax - tMin < 2 ^ z then
            some ((List.range (tMax + 1 - tMin).toNat).map fun i => ((tMin + i) % 2 ^ z).toNat)
          else none
        else none
      else none

/-- The numbers from `lo` to `hi`. -/
def inclusive (lo hi : Nat) : List Nat := List.range' lo (hi + 1 - lo)

def forEachCellTileMercator (center : MercatorPoint F) (vertices : List (MercatorPoint F))
    (z : Nat) : List (Nat × Nat) :=
  let r := cellTileRangeMercator center vertices z
  let columns :=
    if r.minTx = r.maxTx then [r.minTx]
    else (wrappedColumns center vertices z).getD (inclusive r.minTx r.maxTx)
  columns.flatMap fun tx => (inclusive r.minTy r.maxTy).map fun ty => (tx, ty)

end Coverage

/-! ## The accumulator -/

/-- A cell with its outline, for one zoom. -/
structure Feature (F P : Type) where
  center : LatLng F
  vertices : List (LatLng F)
  zoom : Nat
  properties : P
  /-- A polygon. -/
  three : 3 ≤ vertices.length

structure TileEvictionEntry (F : Type) where
  safeEvictLat : F
  tileKey : TileKey

/-- By latitude; the source leaves the order of equal latitudes open. -/
instance : LinearOrder (TileEvictionEntry F) :=
  LinearOrder.lift'
    (fun e => (toLex (e.safeEvictLat, toLex (e.tileKey.1, toLex (e.tileKey.2.1, e.tileKey.2.2))) :
      F ×ₗ Nat ×ₗ Nat ×ₗ Nat))
    (fun a b h => by
      obtain ⟨lat, z, x, y⟩ := a
      obtain ⟨lat', z', x', y'⟩ := b
      simpa using h)

/-- The features of a tile, in the order of their arrival. -/
abbrev MvtLayer (F P : Type) := List (Feature F P)

structure TilePyramidAccumulator (F P : Type) [Field F] [LinearOrder F] where
  tileBuckets : List (TileKey × MvtLayer F P)
  tileEvictionQueue : MaxHeap (TileEvictionEntry F)
  safetyMargin : F

namespace TilePyramidAccumulator

variable {P : Type}

def new (safetyMargin : F) : TilePyramidAccumulator F P where
  tileBuckets := []
  tileEvictionQueue := .empty
  safetyMargin

/-- The accumulator with a layer for the tile. -/
def getOrCreateLayer (axis : MercatorAxis F) (acc : TilePyramidAccumulator F P)
    (tileKey : TileKey) : TilePyramidAccumulator F P :=
  if tileKey ∈ Keyed.keys acc.tileBuckets then acc
  else
    let safeEvictLat := tileSouth axis tileKey - acc.safetyMargin
    { acc with
      tileEvictionQueue := acc.tileEvictionQueue.push ⟨safeEvictLat, tileKey⟩
      tileBuckets := acc.tileBuckets ++ [(tileKey, [])] }

/-- `MvtLayer::add_hexagon_mercator`: what is not a polygon is left out. -/
def addToLayer (layer : MvtLayer F P) (f : Feature F P) : MvtLayer F P :=
  if f.vertices.length < 3 then layer else layer ++ [f]

/-- `get_or_create_layer(..).add_hexagon_mercator(..)` -/
def addToTile (axis : MercatorAxis F) (f : Feature F P) (acc : TilePyramidAccumulator F P)
    (tileKey : TileKey) : TilePyramidAccumulator F P :=
  let acc := acc.getOrCreateLayer axis tileKey
  { acc with
    tileBuckets := acc.tileBuckets.map fun b =>
      if b.1 = tileKey then (b.1, addToLayer b.2 f) else b }

variable [FloorRing F]

/-- The tiles a feature goes to. -/
def coverage (axis : MercatorAxis F) (f : Feature F P) : List TileKey :=
  (forEachCellTileMercator (.fromLatLng axis f.center)
    (f.vertices.map (.fromLatLng axis)) f.zoom).map fun t => (f.zoom, t.1, t.2)

def addHexagonMercator (axis : MercatorAxis F) (acc : TilePyramidAccumulator F P)
    (f : Feature F P) : TilePyramidAccumulator F P :=
  (coverage axis f).foldl (addToTile axis f) acc

/-- The layers of the popped entries, and the buckets that are left. -/
def takeTiles : List (TileEvictionEntry F) → List (TileKey × MvtLayer F P) →
    List (TileKey × MvtLayer F P) × List (TileKey × MvtLayer F P)
  | [], buckets => ([], buckets)
  | entry :: entries, buckets =>
      match buckets.lookup entry.tileKey with
      | some layer =>
          let (ready, left) := takeTiles entries (buckets.filter fun b => b.1 ≠ entry.tileKey)
          ((entry.tileKey, layer) :: ready, left)
      | none => takeTiles entries buckets

/-- The tiles that are ready at the horizon leave the accumulator. -/
def evict (acc : TilePyramidAccumulator F P) (latHorizon : F) :
    TilePyramidAccumulator F P × List (TileKey × MvtLayer F P) :=
  let due := fun entry : TileEvictionEntry F => decide (latHorizon < entry.safeEvictLat)
  let (ready, left) := takeTiles (acc.tileEvictionQueue.toList.takeWhile due) acc.tileBuckets
  ({ acc with tileBuckets := left, tileEvictionQueue := acc.tileEvictionQueue.skim due }, ready)

end TilePyramidAccumulator

/-! ## A run -/

inductive TileOp (F P : Type) where
  | add (f : Feature F P)
  | evict (latHorizon : F)

/-- The accumulator and the tiles handed to the writer. -/
structure Tiling (F P : Type) [Field F] [LinearOrder F] where
  accumulator : TilePyramidAccumulator F P
  written : List (TileKey × MvtLayer F P)

namespace Tiling

variable {P : Type} [FloorRing F]

def step (axis : MercatorAxis F) (st : Tiling F P) : TileOp F P → Tiling F P
  | .add f => { st with accumulator := st.accumulator.addHexagonMercator axis f }
  | .evict latHorizon =>
      let (accumulator, ready) := st.accumulator.evict latHorizon
      ⟨accumulator, st.written ++ ready⟩

def run (axis : MercatorAxis F) (safetyMargin : F) (ops : List (TileOp F P)) : Tiling F P :=
  ops.foldl (step axis) ⟨.new safetyMargin, []⟩

def flushAll (st : Tiling F P) : List (TileKey × MvtLayer F P) :=
  st.written ++ st.accumulator.tileBuckets

/-- The tiles go to the archive, encoded and compressed. -/
def writeTo {G : Type} (gz : Gzip) (encode : MvtLayer F P → List UInt8) (w : PmtilesWriter G)
    (tiles : List (TileKey × MvtLayer F P)) : PmtilesWriter G :=
  tiles.foldl (fun w t => w.addTile gz t.1.1 t.1.2.1 t.1.2.2 (encode t.2)) w

end Tiling

end RasterH3.Pmtiles
