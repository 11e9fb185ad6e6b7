import RasterH3.Agg.Coordinates

/-!
# Mosaics

A mosaic is a list of tiles, each with its own grid and projection. Where tiles
overlap a rule says which of them a point belongs to: the first in the list that
contains it, or the one whose centre is nearest. That test is made for every
sample, unless the plan of the mosaic has already found that nothing else comes
near the chunk of the sample.

The inverse projection and the source offset of a full turn of longitude are
computed when a tile is opened and are given with the tile; so is the unit vector
of its centre.
-/

namespace RasterH3.Raster

open Agg

inductive OverlapRule where
  | cutline
  | first
  | average
  deriving DecidableEq, Repr

/-- A point of the unit sphere. -/
abbrev UnitVector (F : Type) := F × F × F

structure TileDescriptor (F : Type) where
  geotransform : GeoTransform F
  width : Nat
  height : Nat
  crsTransformer : CrsTransformer F
  /-- `crs_transformer.wgs84_to_source`. -/
  wgs84ToSource : F → F → Option (F × F)
  lonPeriod : Option (F × F)
  centroidUnit : UnitVector F
  /-- The chunks of the reader's layout. -/
  chunkLayout : List RasterChunk

variable {F : Type} [Field F] [LinearOrder F] [FloorRing F]

/-- The determinant test is relative to the products that form it. -/
def GeoTransform.isInvertible (gt : GeoTransform F) : Bool :=
  let det := gt.a * gt.e - gt.b * gt.d
  let scale := |gt.a * gt.e| + |gt.b * gt.d|
  scale * (1 / 10 ^ 12) < |det|

def GeoTransform.coordToPixel (gt : GeoTransform F) (x y : F) : Option (F × F) :=
  if gt.isInvertible then
    let det := gt.a * gt.e - gt.b * gt.d
    let dx := x - gt.c0
    let dy := y - gt.f0
    some ((dx * gt.e - dy * gt.b) / det, (dy * gt.a - dx * gt.d) / det)
  else none

/-- Squared chord length between two unit vectors. -/
def chordSq (p q : UnitVector F) : F :=
  (p.1 - q.1) ^ 2 + (p.2.1 - q.2.1) ^ 2 + (p.2.2 - q.2.2) ^ 2

namespace TileDescriptor

def boundsWgs84 (t : TileDescriptor F) : Bounds F :=
  t.crsTransformer.transformRectBounds t.geotransform 0 0 t.width t.height

/-- Bounds that may be used to rule the tile out. -/
def rejectionBounds (t : TileDescriptor F) : Bounds F :=
  t.crsTransformer.rejectionBounds t.boundsWgs84

/-- The source coordinates lie in the pixel grid, edges included. -/
def inside (t : TileDescriptor F) (x y : F) : Bool :=
  match t.geotransform.coordToPixel x y with
  | none => false
  | some (c, r) => 0 ≤ c ∧ c ≤ t.width ∧ 0 ≤ r ∧ r ≤ t.height

/-- The inverse gives one branch of the longitude; a raster stored on the next
branch is the same place one period away. -/
def contains (t : TileDescriptor F) (lon lat : F) : Bool :=
  if !isPointInBbox lon lat (some t.rejectionBounds) then false
  else
    match t.wgs84ToSource lon lat with
    | none => false
    | some (x, y) =>
        t.inside x y ||
          match t.lonPeriod with
          | none => false
          | some (px, py) => t.inside (x + px) (y + py) || t.inside (x - px) (y - py)

/-- The bounds of a chunk, in the form that may rule it out. -/
def chunkBounds (t : TileDescriptor F) (chunk : RasterChunk) : Bounds F :=
  t.crsTransformer.transformRectBounds t.geotransform chunk.colOffset chunk.rowOffset chunk.width
    chunk.height

end TileDescriptor

structure MosaicReader (F : Type) where
  tiles : List (TileDescriptor F)
  overlapRule : OverlapRule
  bbox : Option (Bbox F)

inductive MosaicError where
  | noPaths
  | noTilesInBbox
  deriving DecidableEq, Repr

def MosaicError.message : MosaicError → String
  | noPaths => "Mosaic paths list cannot be empty"
  | noTilesInBbox => "No mosaic tiles intersect the requested bounding box"

structure MosaicChunkRef (F : Type) where
  tileIdx : Nat
  chunkIdx : Nat
  chunk : RasterChunk
  northLat : F
  southLat : F
  hasOverlap : Bool

namespace MosaicReader

/-- Tiles that miss the query box are skipped. -/
def openTiles (tiles : List (TileDescriptor F)) (bbox : Option (Bbox F)) (overlapRule : OverlapRule) :
    Except MosaicError (MosaicReader F) :=
  if tiles.isEmpty then .error .noPaths
  else
    let kept := tiles.filter fun t => bbox.all fun b => rectIntersectsBbox t.rejectionBounds b
    if kept.isEmpty then .error .noTilesInBbox
    else .ok { tiles := kept, overlapRule, bbox }

/-- Whether the bounds of some other tile meet those of the chunk. -/
def hasOverlap (m : MosaicReader F) (tileIdx : Nat) (tile : TileDescriptor F)
    (chunk : RasterChunk) : Bool :=
  if 1 < m.tiles.length ∧ m.overlapRule ≠ .average then
    let cb := tile.crsTransformer.rejectionBounds (tile.chunkBounds chunk)
    m.tiles.zipIdx.any fun p => p.2 ≠ tileIdx && rectIntersectsBbox cb p.1.rejectionBounds
  else false

/-- The chunks of one tile that the query box does not rule out. -/
def tileChunks (m : MosaicReader F) (tileIdx : Nat) (tile : TileDescriptor F) :
    List (MosaicChunkRef F) :=
  tile.chunkLayout.zipIdx.filterMap fun p =>
    let bounds := tile.chunkBounds p.1
    if m.bbox.all fun b => rectIntersectsBbox (tile.crsTransformer.rejectionBounds bounds) b then
      some
        { tileIdx
          chunkIdx := p.2
          chunk := p.1
          northLat := bounds.maxLat
          southLat := bounds.minLat
          hasOverlap := m.hasOverlap tileIdx tile p.1 }
    else none

/-- North first, then by tile and chunk. -/
def chunkRefs (m : MosaicReader F) : List (MosaicChunkRef F) :=
  (m.tiles.zipIdx.flatMap fun p => m.tileChunks p.2 p.1).mergeSort fun a b =>
    b.northLat < a.northLat ∨ b.northLat = a.northLat ∧
      (a.tileIdx < b.tileIdx ∨ a.tileIdx = b.tileIdx ∧ a.chunkIdx ≤ b.chunkIdx)

/-- Whether the point belongs to the tile under the overlap rule. -/
def isPointOwnedBy (unitVector : F × F → UnitVector F) (m : MosaicReader F)
    (tileIdx : Fin m.tiles.length) (lon lat : F) : Bool :=
  if m.tiles.length ≤ 1 ∨ m.overlapRule = .average then true
  else
    match m.overlapRule with
    | .average => true
    | .first => !(m.tiles.take tileIdx).any fun t => t.contains lon lat
    | .cutline =>
        let p := unitVector (lon, lat)
        let own := chordSq p (m.tiles.get tileIdx).centroidUnit
        -- ties go to the lower index
        !m.tiles.zipIdx.any fun (t, idx) =>
          if idx = tileIdx then false
          else
            let d := chordSq p t.centroidUnit
            (d < own ∨ d = own ∧ idx < tileIdx) && t.contains lon lat

end MosaicReader

end RasterH3.Raster
