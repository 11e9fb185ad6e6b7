import RasterH3.Raster.Mosaic
import Mathlib.Tactic

/-!
# Partitioned scans

A plan cuts the chunk grid of each tile into rectangles, drops those without a chunk that
is streamed, and packs consecutive rectangles into partitions as long as they fit the
target. A worker opens the same mosaic and streams the chunks of its partition.

Only the layout of a mosaic matters. The width of a rectangle is rounded from a square
root in floating point, and is a parameter; whatever it is, it is clamped to the grid.
Chunk positions are at most the dimensions of the grid, so their 32 bits never wrap. The
tile of a block and the indices of a plan are cast.
-/

namespace RasterH3.Agg.Partition

open Raster

structure ChunkBlock where
  tileIdx : Nat
  colStart : Nat
  /-- exclusive -/
  colEnd : Nat
  rowStart : Nat
  /-- exclusive -/
  rowEnd : Nat
  deriving DecidableEq, Repr

def ChunkBlock.contains (b : ChunkBlock) (tileIdx col row : Nat) : Bool :=
  b.tileIdx = tileIdx ∧ (b.colStart ≤ col ∧ col < b.colEnd) ∧ b.rowStart ≤ row ∧ row < b.rowEnd

/-! ## What a plan reads of a mosaic -/

structure TileLayout where
  width : Nat
  height : Nat
  chunkWidth : Nat
  chunkHeight : Nat
  chunksAcross : Nat
  chunksDown : Nat
  /-- The bits of the six coefficients. -/
  geotransform : List UInt64
  crsIdentity : List UInt8

structure ChunkRef where
  tileIdx : Nat
  chunkIdx : Nat
  deriving DecidableEq, Repr

/-- The chunks are in the order in which they are streamed, each of them once, and each is
one of its tile's. -/
structure MosaicLayout where
  tiles : List TileLayout
  overlapRule : OverlapRule
  /-- The bits of the four edges. -/
  bbox : Option (List UInt64)
  chunkRefs : List ChunkRef
  nodup : chunkRefs.Nodup
  inTile : ∀ c ∈ chunkRefs, ∃ tile, tiles[c.tileIdx]? = some tile ∧
    c.chunkIdx < tile.chunksAcross * tile.chunksDown

def chunkColRow (m : MosaicLayout) (c : ChunkRef) : Nat × Nat :=
  let across := max ((m.tiles[c.tileIdx]?.map TileLayout.chunksAcross).getD 0) 1
  (c.chunkIdx % across, c.chunkIdx / across)

/-! ## The fingerprint -/

def littleEndian (v : UInt64) : List UInt64 :=
  (List.range 8).map fun i => (v >>> (8 * i.toUInt64)) &&& 0xff

/-- One word into the hash. -/
def feed (h v : UInt64) : UInt64 :=
  (littleEndian v).foldl (fun h byte => (h ^^^ byte) * 0x100000001b3) h

/-- Up to eight bytes, padded with zeros. -/
def word (bytes : List UInt8) : UInt64 :=
  bytes.foldr (fun byte v => (v <<< 8) ||| byte.toUInt64) 0

def overlapCode : OverlapRule → UInt64
  | .cutline => 0
  | .first => 1
  | .average => 2

def mosaicFingerprint (m : MosaicLayout) : UInt64 :=
  let tileWords := fun t : TileLayout =>
    [t.width, t.height, t.chunkWidth, t.chunkHeight, t.chunksAcross, t.chunksDown].map
        Nat.toUInt64 ++ t.geotransform ++ [t.crsIdentity.length.toUInt64] ++
      (t.crsIdentity.toChunks 8).map word
  let bboxWords :=
    match m.bbox with
    | none => [0]
    | some edges => 1 :: edges
  let words := [m.tiles.length.toUInt64, overlapCode m.overlapRule] ++ bboxWords ++
    m.tiles.flatMap tileWords ++ [m.chunkRefs.length.toUInt64] ++
    m.chunkRefs.flatMap fun c => [c.tileIdx.toUInt64, c.chunkIdx.toUInt64]
  words.foldl feed 0xcbf29ce484222325

/-! ## Planning -/

structure ScanPartition where
  index : Nat
  count : Nat
  mosaicFingerprint : UInt64
  blocks : List ChunkBlock
  deriving DecidableEq

inductive PartitionError where
  | zeroTarget
  | indexOutOfRange (index count : Nat)
  | differentMosaic (planned actual : UInt64)
  | noSuchTile (tileIdx tiles : Nat)
  | doesNotFit (block : ChunkBlock) (chunksAcross chunksDown : Nat)
  deriving DecidableEq, Repr

/-- `(0..n).step_by(k)`. -/
def stepBy (n k : Nat) : List Nat := (List.range ((n + k - 1) / k)).map (· * k)

def clamp (x lo hi : Nat) : Nat := max lo (min x hi)

/-- `target_chunks.div_ceil(bw)`. -/
def divCeil (x y : Nat) : Nat := (x + y - 1) / y

/-- The rectangle of a tile's grid that has all of its streamed chunks. -/
structure Grid where
  c0 : Nat
  c1 : Nat
  r0 : Nat
  r1 : Nat

def Grid.of (chunks : List (Nat × Nat)) : Grid where
  c0 := (chunks.map Prod.fst).min?.getD 0
  c1 := (chunks.map Prod.fst).max?.getD 0 + 1
  r0 := (chunks.map Prod.snd).min?.getD 0
  r1 := (chunks.map Prod.snd).max?.getD 0 + 1

namespace Grid

def cols (g : Grid) : Nat := g.c1 - g.c0

def rows (g : Grid) : Nat := g.r1 - g.r0

/-- The index of a position in the vector of flags. -/
def index (g : Grid) (p : Nat × Nat) : Nat := (p.2 - g.r0) * g.cols + (p.1 - g.c0)

/-- The indices of a rectangle, counted from the grid's corner. -/
def cells (g : Grid) (br re bc ce : Nat) : List Nat :=
  (List.range' br (re - br)).flatMap fun r =>
    (List.range' bc (ce - bc)).map fun c => r * g.cols + c

end Grid

/-- The rectangle that starts at row `br` and column `bc`, with its number of chunks. -/
def blockAt (tileIdx : Nat) (g : Grid) (chunks : List (Nat × Nat)) (bw bh br bc : Nat) :
    ChunkBlock × Nat :=
  let re := min (br + bh) g.rows
  let ce := min (bc + bw) g.cols
  ({ tileIdx := tileIdx % 2 ^ 32
     colStart := g.c0 + bc
     colEnd := g.c0 + ce
     rowStart := g.r0 + br
     rowEnd := g.r0 + re },
    (g.cells br re bc ce).countP fun i => chunks.any fun p => g.index p == i)

section Plan

variable (squareWidth : (targetChunks chunkHeight chunkWidth : Nat) → Nat)

def tileBlocks (targetChunks tileIdx : Nat) (tile : TileLayout) (chunks : List (Nat × Nat)) :
    List (ChunkBlock × Nat) :=
  if chunks.isEmpty then []
  else
    let g := Grid.of chunks
    let bw := clamp (squareWidth targetChunks tile.chunkHeight tile.chunkWidth) 1 g.cols
    let bh := clamp (divCeil targetChunks bw) 1 g.rows
    (stepBy g.rows bh).flatMap fun br =>
      ((stepBy g.cols bw).map (blockAt tileIdx g chunks bw bh br)).filter fun b => 0 < b.2

/-- The streamed chunks of a tile, by position. -/
def present (m : MosaicLayout) (tileIdx : Nat) : List (Nat × Nat) :=
  (m.chunkRefs.filter fun c => c.tileIdx = tileIdx).map (chunkColRow m)

def blocks (m : MosaicLayout) (targetChunks : Nat) : List (ChunkBlock × Nat) :=
  m.tiles.zipIdx.flatMap fun t => tileBlocks squareWidth targetChunks t.2 t.1 (present m t.2)

/-- The loop over the blocks, with what is not pushed yet. -/
def pack (targetChunks : Nat) :
    List (ChunkBlock × Nat) → (current : List ChunkBlock) → (currentChunks : Nat) →
      List (List ChunkBlock)
  | [], current, _ => if current.isEmpty then [] else [current]
  | (block, n) :: rest, current, currentChunks =>
      if current.isEmpty = false ∧ targetChunks < currentChunks + n then
        current :: pack targetChunks rest [block] n
      else pack targetChunks rest (current ++ [block]) (currentChunks + n)

def planPartitions (m : MosaicLayout) (targetChunks : Nat) :
    Except PartitionError (List ScanPartition) :=
  if targetChunks = 0 then .error .zeroTarget
  else
    let groups := pack targetChunks (blocks squareWidth m targetChunks) [] 0
    .ok (groups.zipIdx.map fun g =>
      { index := g.2 % 2 ^ 32
        count := groups.length % 2 ^ 32
        mosaicFingerprint := mosaicFingerprint m
        blocks := g.1 })

end Plan

/-! ## Scanning a partition -/

namespace ScanPartition

def containsChunk (p : ScanPartition) (m : MosaicLayout) (c : ChunkRef) : Bool :=
  p.blocks.any fun b => b.contains c.tileIdx (chunkColRow m c).1 (chunkColRow m c).2

def chunkCount (p : ScanPartition) (m : MosaicLayout) : Nat :=
  (m.chunkRefs.filter (p.containsChunk m)).length

def validateBlock (m : MosaicLayout) (b : ChunkBlock) : Except PartitionError Unit :=
  match m.tiles[b.tileIdx]? with
  | none => .error (.noSuchTile b.tileIdx m.tiles.length)
  | some tile =>
      if b.colEnd ≤ b.colStart ∨ b.rowEnd ≤ b.rowStart ∨ tile.chunksAcross < b.colEnd ∨
          tile.chunksDown < b.rowEnd then
        .error (.doesNotFit b tile.chunksAcross tile.chunksDown)
      else .ok ()

def validateFor (p : ScanPartition) (m : MosaicLayout) : Except PartitionError Unit :=
  if p.count = 0 ∨ p.count ≤ p.index then .error (.indexOutOfRange p.index p.count)
  else if Partition.mosaicFingerprint m ≠ p.mosaicFingerprint then
    .error (.differentMosaic p.mosaicFingerprint (Partition.mosaicFingerprint m))
  else p.blocks.forM (validateBlock m)

/-- The chunks that a worker streams. -/
def restrictMosaic (p : ScanPartition) (m : MosaicLayout) :
    Except PartitionError (List ChunkRef) := do
  p.validateFor m
  return m.chunkRefs.filter (p.containsChunk m)

end ScanPartition

end RasterH3.Agg.Partition
