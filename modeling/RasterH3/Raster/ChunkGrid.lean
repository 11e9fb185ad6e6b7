import RasterH3.Raster.Transformer
import RasterH3.Lib.Checked
import RasterH3.Lib.Cuts

/-!
# Chunk grids

Two places cut an image into rectangles. A `ChunkLayout` holds the size of a strip or tile
of the file and the counts across and down, and `getChunkBounds` computes the rectangle of a
chunk from its number. `partitionGrid` walks over the image with two loops and lists the
squares.

All numbers are `u32`. A result that does not fit is `none` here: a build with overflow
checks stops there, and one without goes on from the wrapped offset.

The arithmetic that may fail is written in the option monad, operation by operation, so that
a reader can hold each line against the source. The loops have their own recursion, on what
is left of the image, and stop where an addition does not fit. Layouts are built by the
checks of the source, for tiles, for strips and from what a decoder says.
-/

namespace RasterH3.Raster

open Cuts (divCeil pieceLen)

structure ChunkLayout where
  chunkWidth : Nat
  chunkHeight : Nat
  chunksAcross : Nat
  chunksDown : Nat
  totalChunks : Nat
  deriving DecidableEq, Repr

namespace ChunkLayout

/-- `none`: a zero tile side, or more than `u32::MAX` chunks. -/
def newTiled (imageWidth imageHeight tileWidth tileHeight : Nat) : Option ChunkLayout :=
  if 0 < tileWidth ∧ 0 < tileHeight then do
    let chunksAcross := divCeil imageWidth tileWidth
    let chunksDown := divCeil imageHeight tileHeight
    let totalChunks ← Checked.mul 32 chunksAcross chunksDown
    pure
      { chunkWidth := tileWidth
        chunkHeight := tileHeight
        chunksAcross
        chunksDown
        totalChunks }
  else none

/-- `none`: no row in a strip. -/
def newStriped (imageWidth imageHeight rowsPerStrip : Nat) : Option ChunkLayout :=
  if 0 < rowsPerStrip then
    let chunksDown := divCeil imageHeight rowsPerStrip
    some
      { chunkWidth := imageWidth
        chunkHeight := rowsPerStrip
        chunksAcross := 1
        chunksDown
        totalChunks := chunksDown }
  else none

/-- The rectangle of a chunk. A layout without columns has no chunks to ask for. -/
def getChunkBounds (layout : ChunkLayout) (chunkIndex imageWidth imageHeight : Nat) :
    Option RasterChunk :=
  if layout.chunksAcross = 0 then none
  else do
    let chunkCol := chunkIndex % layout.chunksAcross
    let chunkRow := chunkIndex / layout.chunksAcross
    let colOffset ← Checked.mul 32 chunkCol layout.chunkWidth
    let rowOffset ← Checked.mul 32 chunkRow layout.chunkHeight
    pure
      { colOffset
        rowOffset
        width := min (imageWidth - colOffset) layout.chunkWidth
        height := min (imageHeight - rowOffset) layout.chunkHeight }

/-- The rectangles of all chunks, in the order of their numbers. -/
def chunkBounds (layout : ChunkLayout) (imageWidth imageHeight : Nat) :
    Option (List RasterChunk) :=
  (List.range layout.totalChunks).mapM fun k => layout.getChunkBounds k imageWidth imageHeight

end ChunkLayout

/-- The layout of a file whose decoder gives the size of the image and of its chunks. -/
def parseLayout (width height chunkW chunkH : Nat) : Except String ChunkLayout :=
  if chunkW = 0 ∨ chunkH = 0 then
    .error s!"TIFF declares a zero-sized chunk ({chunkW}x{chunkH})"
  else
    let chunksAcross := divCeil width chunkW
    let chunksDown := divCeil height chunkH
    match Checked.mul 32 chunksAcross chunksDown with
    | none =>
        .error s!"TIFF chunk grid {chunksAcross}x{chunksDown} exceeds u32 chunk count"
    | some totalChunks =>
        .ok
          { chunkWidth := chunkW
            chunkHeight := chunkH
            chunksAcross
            chunksDown
            totalChunks }

/-- The loop over the columns of a row, from `col` on. -/
def partitionRow (width : Nat) {chunkSize : Nat} (hsize : 0 < chunkSize) (row chunkH col : Nat)
    (chunks : List RasterChunk) : Option (List RasterChunk) :=
  if col < width then
    match hnext : Checked.add 32 col chunkSize with
    | none => none
    | some next =>
        have : col < next := by
          have := (Checked.add_eq_some.mp hnext).2
          omega
        partitionRow width hsize row chunkH next
          (chunks ++ [⟨col, row, pieceLen width chunkSize col, chunkH⟩])
  else some chunks
termination_by width - col

/-- The loop over the rows, from `row` on. -/
def partitionRows (width height : Nat) {chunkSize : Nat} (hsize : 0 < chunkSize) (row : Nat)
    (chunks : List RasterChunk) : Option (List RasterChunk) :=
  if row < height then
    let chunkH := pieceLen height chunkSize row
    match partitionRow width hsize row chunkH 0 chunks with
    | none => none
    | some chunks =>
        match hnext : Checked.add 32 row chunkSize with
        | none => none
        | some next =>
            have : row < next := by
              have := (Checked.add_eq_some.mp hnext).2
              omega
            partitionRows width height hsize next chunks
  else some chunks
termination_by height - row

/-- The squares of a grid. `none`: a zero size, or an offset that wraps. With a size, each
turn of a loop that does not wrap moves the offset on, so the loops end. -/
def partitionGrid (width height chunkSize : Nat) : Option (List RasterChunk) :=
  if hsize : 0 < chunkSize then partitionRows width height hsize 0 []
  else none

end RasterH3.Raster
