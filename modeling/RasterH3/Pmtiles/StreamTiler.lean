import RasterH3.Agg.Reads
import RasterH3.Pmtiles.Overview

/-!
# The tiles of a stream

One thread drains the stream and sends every page with the horizon that was published after
it. The tiling loop puts the cells of a page into their tiles, and then writes the tiles that
the horizon has passed. Cells of the coarsest resolution also go into the overviews, which are
written at the end, before the tiles that are still open.

The writer gets a tile with the cells in it. How these become a layer and the layer becomes
bytes is a parameter; what becomes of the bytes is the archive's.
-/

namespace RasterH3.Pmtiles

open Agg
open Raster (Bounds)

/-! ## Zooms -/

def standardZooms : Nat → List Nat
  | 0 => [0, 1]
  | 1 => [2, 3]
  | 2 => [4]
  | 3 => [5]
  | 4 => [6, 7]
  | 5 => [8, 9]
  | 6 => [10]
  | 7 => [11, 12]
  | 8 => [13]
  | 9 => [14]
  | 10 => [15, 16]
  | 11 => [17]
  | 12 => [18, 19]
  | 13 => [20]
  | 14 => [21, 22]
  | _ => [23, 24]

/-- The coarsest resolution also stands for the zooms above its own. -/
def zoomsForH3Res (res minRes : Nat) : List Nat :=
  if res = minRes then List.range ((standardZooms res).foldl max 0 + 1) else standardZooms res

def maxHexRadiusDeg : Nat → ℚ
  | 0 => 27 / 2
  | 1 => 26 / 5
  | 2 => 39 / 20
  | 3 => 37 / 50
  | 4 => 7 / 25
  | 5 => 53 / 500
  | 6 => 1 / 25
  | 7 => 3 / 200
  | 8 => 3 / 500
  | 9 => 1 / 400
  | 10 => 1 / 1000
  | 11 => 1 / 2500
  | 12 => 3 / 20000
  | 13 => 3 / 50000
  | 14 => 1 / 40000
  | _ => 1 / 100000

/-! ## The cells of a page -/

variable {A L C F P : Type} {n : Nat} [SpillAccumulator A] [LinearOrder L] [Field F]
  [LinearOrder F]

/-- The scan, and what its cells look like on the map. -/
structure Tiler (A L C F P : Type) (n : Nat) [LinearOrder L] [Field F] [LinearOrder F] where
  setup : Setup A L C n
  axis : MercatorAxis F
  grid : CellGrid F
  /-- An outline is a polygon. -/
  three : ∀ cell, 3 ≤ (grid.boundary cell).length
  /-- `FeatureProperties` of a record. -/
  properties : Record A → P
  /-- A latitude of the scan as a number. -/
  degrees : L → F
  monotone : Monotone degrees
  structureBytes : Nat → Nat
  /-- `BUFFER_BYTES` -/
  overviewBudget : Nat

namespace Tiler

variable (t : Tiler A L C F P n)

def minRes : Nat := (List.ofFn t.setup.resolutions).min?.getD 0

def safetyMargin : F :=
  ((5 / 2 * ((List.ofFn t.setup.resolutions).map maxHexRadiusDeg).foldl max 0 : ℚ) : F)

def minResZooms : List Nat := zoomsForH3Res t.minRes t.minRes

def coarseResList : List Nat :=
  (((t.minResZooms.map h3ResForZoom).filter (· < t.minRes)).insertionSort (· ≤ ·)).dedup

/-- The zooms at which a record is shown as it is. -/
def detailZooms (r : Record A) : List Nat :=
  (zoomsForH3Res r.resolution t.minRes).filter fun zoom => r.resolution ≤ h3ResForZoom zoom

def features (r : Record A) : List (Feature F P) :=
  (t.detailZooms r).map fun zoom =>
    ⟨t.grid.center r.h3Index, t.grid.boundary r.h3Index, zoom, t.properties r, t.three _⟩

/-- What is no cell is left out. -/
def prepare (records : List (Record A)) : List (Record A) :=
  records.filter fun r => t.setup.h3.isCell r.h3Index

end Tiler

/-- Records with the horizon that was published after them. -/
structure StreamBatch (A L : Type) where
  records : List (Record A)
  latHorizon : L

/-- What the loop has built. -/
structure TilingWork (A F P : Type) [Field F] [LinearOrder F] where
  tiling : Tiling F P
  coarseParents : Overview A
  totalHexagons : Nat

/-- The tiles in the order in which the writer got them. -/
structure TiledArchive (A F P : Type) where
  evicted : List (TileKey × MvtLayer F P)
  overviews : List (TileKey × List (CellIndex × A))
  flushed : List (TileKey × MvtLayer F P)
  totalHexagons : Nat

def TiledArchive.keys (archive : TiledArchive A F P) : List TileKey :=
  Keyed.keys archive.evicted ++ Keyed.keys archive.overviews ++ Keyed.keys archive.flushed

namespace TilingWork

variable [FloorRing F] (t : Tiler A L C F P n)

def new : TilingWork A F P where
  tiling := ⟨.new t.safetyMargin, []⟩
  coarseParents := .new A t.structureBytes t.overviewBudget t.coarseResList
  totalHexagons := 0

/-- Only the coarsest resolution goes into the overviews. -/
def pushCoarse (coarseParents : Overview A) (r : Record A) : Except SpillError (Overview A) :=
  if r.resolution = t.minRes then coarseParents.push t.grid r.h3Index r.accumulator
  else .ok coarseParents

def addHex (work : TilingWork A F P) (r : Record A) : Except SpillError (TilingWork A F P) := do
  let coarseParents ← pushCoarse t work.coarseParents r
  return {
    tiling := (t.features r).foldl (fun tiling f => tiling.step t.axis (.add f)) work.tiling
    coarseParents
    totalHexagons := work.totalHexagons + 1 }

/-- The cells of a page, and then the tiles that are due. -/
def addBatch (work : TilingWork A F P) (batch : StreamBatch A L) :
    Except SpillError (TilingWork A F P) := do
  let work ← (t.prepare batch.records).foldlM (addHex t) work
  return { work with tiling := work.tiling.step t.axis (.evict (t.degrees batch.latHorizon)) }

/-- `coarse_parents.write(..)`, and then `flush_all`. -/
def finish (work : TilingWork A F P) : Except SpillError (TiledArchive A F P) := do
  let parents ← work.coarseParents.parents.finish
  let tiles ← Overview.tiles t.axis t.grid t.structureBytes t.overviewBudget t.minResZooms parents
  return {
    evicted := work.tiling.written
    overviews := tiles.map fun tile => (tileIdToZxy tile.1.val, tile.2.cells)
    flushed := work.tiling.accumulator.tileBuckets
    totalHexagons := work.totalHexagons }

end TilingWork

/-! ## The file -/

/-- The bytes of a tile: the cells as a layer, in the coordinates of the tile. -/
structure TileEncoder (A F P : Type) where
  layer : TileKey → MvtLayer F P → List UInt8
  overview : TileKey → List (CellIndex × A) → List UInt8

namespace TiledArchive

variable (gz : Gzip) (encode : TileEncoder A F P) (archive : TiledArchive A F P)

def addTo (w : PmtilesWriter F) : PmtilesWriter F :=
  let w := archive.evicted.foldl (fun w tile =>
    w.addTile gz tile.1.1 tile.1.2.1 tile.1.2.2 (encode.layer tile.1 tile.2)) w
  let w := archive.overviews.foldl (fun w tile =>
    w.addTile gz tile.1.1 tile.1.2.1 tile.1.2.2 (encode.overview tile.1 tile.2)) w
  archive.flushed.foldl (fun w tile =>
    w.addTile gz tile.1.1 tile.1.2.1 tile.1.2.2 (encode.layer tile.1 tile.2)) w

/-- The bounds of the cells and the metadata are known at the end. -/
def file [FloorRing F] (minZoom maxZoom : Nat) (bbox : Bounds F) (metadataJson : List UInt8) :
    Except FinishError (List UInt8) :=
  let world : Bounds F := ⟨((-180 : ℚ) : F), ((-90 : ℚ) : F), ((180 : ℚ) : F), ((90 : ℚ) : F)⟩
  let w := archive.addTo gz encode (.new minZoom maxZoom world [])
  (w.setMetadata bbox metadataJson).finishInto gz

end TiledArchive

/-! ## The threads -/

inductive Producer (A L : Type) where
  | draining
  | sending (batch : StreamBatch A L)
  | returned (error : Option StreamError)

inductive TilingLoop (A F P : Type) where
  | receiving
  /-- An error is returned, and the receiver is gone. -/
  | failed
  | returned (archive : TiledArchive A F P)

structure StreamTiler (A L C F P : Type) (n : Nat) [LinearOrder L] [Field F] [LinearOrder F] where
  stream : MultiHorizonStreamer A L C n
  producer : Producer A L
  channel : List (StreamBatch A L)
  work : TilingWork A F P
  loop : TilingLoop A F P

namespace StreamTiler

variable [BoundedOrder L] [FloorRing F] (t : Tiler A L C F P n)

def initial (stream : MultiHorizonStreamer A L C n) : StreamTiler A L C F P n where
  stream := stream
  producer := .draining
  channel := []
  work := .new t
  loop := .receiving

inductive Step (x : StreamTiler A L C F P n) : StreamTiler A L C F P n → Prop
  | drain {page : List (Record A) × List (PartialCell A)} {count : Nat}
      {s : MultiHorizonStreamer A L C n} (hproducer : x.producer = .draining)
      (hdrains : Drains t.setup .drainCompletedInto x.stream 8192 page (.ok count) s) :
      Step x { x with
        stream := s
        producer := if page.1 = [] then .returned none else .sending ⟨page.1, s.publishedHorizon⟩ }
  | drainFails {page : List (Record A) × List (PartialCell A)} {e : StreamError}
      {s : MultiHorizonStreamer A L C n} (hproducer : x.producer = .draining)
      (hdrains : Drains t.setup .drainCompletedInto x.stream 8192 page (.error e) s) :
      Step x { x with stream := s, producer := .returned (some e) }
  | send {batch : StreamBatch A L} (hproducer : x.producer = .sending batch)
      (hloop : x.loop = .receiving) (hroom : x.channel.length < 4) :
      Step x { x with producer := .draining, channel := x.channel ++ [batch] }
  /-- The receiver is gone. -/
  | sendFails {batch : StreamBatch A L} (hproducer : x.producer = .sending batch)
      (hloop : x.loop = .failed) : Step x { x with producer := .returned none }
  | receive {batch : StreamBatch A L} {channel : List (StreamBatch A L)}
      {work : TilingWork A F P} (hloop : x.loop = .receiving)
      (hchannel : x.channel = batch :: channel) (hwork : x.work.addBatch t batch = .ok work) :
      Step x { x with channel := channel, work := work }
  | finish {archive : TiledArchive A F P} (hloop : x.loop = .receiving) (hchannel : x.channel = [])
      (hproducer : x.producer = .returned none) (harchive : x.work.finish t = .ok archive) :
      Step x { x with loop := .returned archive }
  /-- A spill, the archive or the producer. -/
  | fails (hloop : x.loop = .receiving) : Step x { x with loop := .failed }

def Reachable (stream : MultiHorizonStreamer A L C n) (x : StreamTiler A L C F P n) : Prop :=
  Relation.ReflTransGen (Step t) (initial t stream) x

end StreamTiler

end RasterH3.Pmtiles
