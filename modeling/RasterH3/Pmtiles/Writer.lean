import RasterH3.Lib.Bytes
import RasterH3.Pmtiles.TileId
import RasterH3.Raster.Transformer

/-!
# The archive writer

Tiles arrive in any order and go to a spill file, with an entry each. At the end the
entries are sorted by tile id, the directory is written in columns (id differences, run
lengths, lengths, offsets, where an offset of 0 says "right after the one before"), and
the contents follow in the order of the ids. A directory that would not fit beside the
header is split: the leaves come after the metadata and the root points at them.

The compressor is a parameter with what is relied on of it. Counters are naturals; the
lengths of entries are cut to 32 bits where the code casts them. Errors of the file
system are left out.
-/

namespace RasterH3.Pmtiles

open Raster (Bounds wrapLon)

/-- `libdeflater`'s gzip: lossless, and never far above the size of its input. -/
structure Gzip where
  compress : List UInt8 → List UInt8
  decompress : List UInt8 → Option (List UInt8)
  lossless : ∀ b, decompress (compress b) = some b
  bound : ∀ b, (compress b).length ≤ 2 * b.length + 64

def headerSize : Nat := 127
def compressionGzip : UInt8 := 2
def tileTypeMvt : UInt8 := 1

structure Entry where
  tileId : Nat
  offset : Nat
  length : Nat
  runLength : Nat
  deriving DecidableEq, Repr

/-- The differences of the tile ids. -/
def idDeltas : Nat → List Entry → List Nat
  | _, [] => []
  | last, e :: es => (e.tileId - last) :: idDeltas e.tileId es

/-- An offset, or 0 for an entry that begins where the one before it ends. -/
def offsetCode (prev : Option Entry) (e : Entry) : Nat :=
  match prev with
  | some p => if e.offset = p.offset + p.length then 0 else e.offset + 1
  | none => e.offset + 1

def offsetCodes : Option Entry → List Entry → List Nat
  | _, [] => []
  | prev, e :: es => offsetCode prev e :: offsetCodes (some e) es

/-- The directory before compression. -/
def directoryBytes (entries : List Entry) : List UInt8 :=
  Bytes.writeVarint entries.length ++
    ((idDeltas 0 entries).flatMap Bytes.writeVarint ++
      ((entries.map Entry.runLength).flatMap Bytes.writeVarint ++
        ((entries.map Entry.length).flatMap Bytes.writeVarint ++
          (offsetCodes none entries).flatMap Bytes.writeVarint)))

def encodeDirectory (gz : Gzip) (entries : List Entry) : List UInt8 :=
  gz.compress (directoryBytes entries)

/-- `entries.chunks(n)`. -/
def chunks {α : Type} (n : Nat) : List α → List (List α)
  | [] => []
  | x :: xs => (x :: xs.take (n - 1)) :: chunks n (xs.drop (n - 1))
termination_by xs => xs.length
decreasing_by
  simp only [List.length_drop, List.length_cons]
  omega

/-- The pointers to the leaves from `offset` on, and the bytes of the leaves. -/
def leafDirectories (gz : Gzip) : Nat → List (List Entry) → List Entry × List UInt8
  | _, [] => ([], [])
  | offset, chunk :: rest =>
      let leafBytes := encodeDirectory gz chunk
      let leafLen := leafBytes.length % 2 ^ 32
      -- a chunk is never empty
      let firstTileId := (chunk.map Entry.tileId).headD 0
      let (pointers, bytes) := leafDirectories gz (offset + leafLen) rest
      (⟨firstTileId, offset, leafLen, 0⟩ :: pointers, leafBytes ++ bytes)

/-- The root directory and the leaves. -/
def buildLeafDirectories (gz : Gzip) (entries : List Entry) (leafSize : Nat) :
    List UInt8 × List UInt8 :=
  let (pointers, leaves) := leafDirectories gz 0 (chunks leafSize entries)
  (encodeDirectory gz pointers, leaves)

structure SpillTileEntry where
  tileId : Nat
  spillOffset : Nat
  length : Nat

structure PmtilesWriter (F : Type) where
  spillFile : List UInt8
  entries : List SpillTileEntry
  currentSpillOffset : Nat
  minZoom : Nat
  maxZoom : Nat
  bbox : Bounds F
  metadataJson : List UInt8

inductive FinishError where
  | spillTruncated (start length size : Nat)
  deriving DecidableEq, Repr

def FinishError.message : FinishError → String
  | spillTruncated start length size =>
      "Spill file truncated: tile offset " ++ toString start ++ "+" ++ toString length ++
        " exceeds spill file size " ++ toString size

def maxEntriesPerLeaf : Nat := 4096

/-- What is left of the first 16 KiB after the header. -/
def maxRootBytes : Nat := 16257

namespace PmtilesWriter

variable {F : Type}

def new (minZoom maxZoom : Nat) (bbox : Bounds F) (metadataJson : List UInt8) :
    PmtilesWriter F where
  spillFile := []
  entries := []
  currentSpillOffset := 0
  minZoom
  maxZoom
  bbox
  metadataJson

def setMetadata (w : PmtilesWriter F) (bbox : Bounds F) (metadataJson : List UInt8) :
    PmtilesWriter F :=
  { w with bbox, metadataJson }

def addCompressedTile (w : PmtilesWriter F) (z x y : Nat) (compressedData : List UInt8) :
    PmtilesWriter F :=
  let len := compressedData.length % 2 ^ 32
  { w with
    spillFile := w.spillFile ++ compressedData
    entries := w.entries ++ [⟨zxyToTileId z x y, w.currentSpillOffset, len⟩]
    currentSpillOffset := w.currentSpillOffset + len }

def addTile (gz : Gzip) (w : PmtilesWriter F) (z x y : Nat) (uncompressedMvt : List UInt8) :
    PmtilesWriter F :=
  w.addCompressedTile z x y (gz.compress uncompressedMvt)

def tileCount (w : PmtilesWriter F) : Nat := w.entries.length

end PmtilesWriter

/-- The entries of the directory, the contents one after the other from `offset` on. -/
def layOut : Nat → List SpillTileEntry → List Entry
  | _, [] => []
  | offset, e :: es => ⟨e.tileId, offset, e.length, 1⟩ :: layOut (offset + e.length) es

/-- The root directory and the leaves, split if the root would be too large. -/
def buildDirectories (gz : Gzip) (entries : List Entry) : List UInt8 × List UInt8 :=
  if entries.length ≤ maxEntriesPerLeaf then
    let rootBytes := encodeDirectory gz entries
    if rootBytes.length ≤ maxRootBytes then (rootBytes, [])
    else buildLeafDirectories gz entries maxEntriesPerLeaf
  else buildLeafDirectories gz entries maxEntriesPerLeaf

/-- The contents of the entries, taken from the spill file. -/
def copyTiles (spillFile : List UInt8) :
    List SpillTileEntry → Except FinishError (List UInt8)
  | [] => .ok []
  | e :: es =>
      let stop := e.spillOffset + e.length
      if spillFile.length < stop then
        .error (.spillTruncated e.spillOffset e.length spillFile.length)
      else do
        let rest ← copyTiles spillFile es
        return (spillFile.drop e.spillOffset).take e.length ++ rest

variable {F : Type} [Field F] [LinearOrder F] [FloorRing F]

/-- `(x * 1e7) as i32`: cut towards zero, saturating. -/
def degreesE7 (x : F) : Int32 :=
  let v := x * 10 ^ 7
  let i := if 0 ≤ v then ⌊v⌋ else -⌊-v⌋
  Int32.ofInt (max (-2 ^ 31) (min i (2 ^ 31 - 1)))

def centerLon (bbox : Bounds F) : F :=
  if bbox.minLon ≤ bbox.maxLon then (bbox.minLon + bbox.maxLon) / 2
  else wrapLon (bbox.minLon + ((180 - bbox.minLon) + (bbox.maxLon + 180)) * (1 / 2))

/-- The lengths the header records. -/
structure Layout where
  rootDirLength : Nat
  jsonMetadataLength : Nat
  leafDirsLength : Nat
  tileDataLength : Nat
  tileCount : Nat

namespace Layout

def jsonMetadataOffset (l : Layout) : Nat := headerSize + l.rootDirLength

def leafDirsOffset (l : Layout) : Nat := l.jsonMetadataOffset + l.jsonMetadataLength

def tileDataOffset (l : Layout) : Nat := l.leafDirsOffset + l.leafDirsLength

/-- The positions and sizes, eight bytes each. -/
def fields (l : Layout) : List Nat :=
  [headerSize, l.rootDirLength, l.jsonMetadataOffset, l.jsonMetadataLength, l.leafDirsOffset,
    l.leafDirsLength, l.tileDataOffset, l.tileDataLength, l.tileCount, l.tileCount, l.tileCount]

end Layout

namespace PmtilesWriter

/-- The last part of the header: flags, zooms, bounds and centre. -/
def headerTail (w : PmtilesWriter F) : List UInt8 :=
  -- readers expect west before east
  let lons := if w.bbox.minLon ≤ w.bbox.maxLon then (w.bbox.minLon, w.bbox.maxLon) else (-180, 180)
  [1, compressionGzip, compressionGzip, tileTypeMvt, UInt8.ofNat w.minZoom,
      UInt8.ofNat w.maxZoom] ++
    Bytes.writeI32 (degreesE7 lons.1) ++ Bytes.writeI32 (degreesE7 w.bbox.minLat) ++
    Bytes.writeI32 (degreesE7 lons.2) ++ Bytes.writeI32 (degreesE7 w.bbox.maxLat) ++
    [UInt8.ofNat ((w.minZoom + w.maxZoom) / 2)] ++
    Bytes.writeI32 (degreesE7 (centerLon w.bbox)) ++
    Bytes.writeI32 (degreesE7 ((w.bbox.minLat + w.bbox.maxLat) / 2))

/-- `b"PMTiles"`. -/
def magic : List UInt8 := [80, 77, 84, 105, 108, 101, 115]

def header (w : PmtilesWriter F) (l : Layout) : List UInt8 :=
  magic ++ [3] ++ l.fields.flatMap (Bytes.writeLe 8) ++ w.headerTail

def sortedEntries (w : PmtilesWriter F) : List SpillTileEntry :=
  w.entries.mergeSort fun a b => a.tileId ≤ b.tileId

def finishInto (gz : Gzip) (w : PmtilesWriter F) : Except FinishError (List UInt8) := do
  let entries := w.sortedEntries
  let directoryEntries := layOut 0 entries
  let (rootDirBytes, leafDirsBytes) := buildDirectories gz directoryEntries
  let metadataBytes := gz.compress w.metadataJson
  let layout : Layout :=
    { rootDirLength := rootDirBytes.length
      jsonMetadataLength := metadataBytes.length
      leafDirsLength := leafDirsBytes.length
      tileDataLength := (entries.map SpillTileEntry.length).sum
      tileCount := entries.length }
  let tileData ← if 0 < w.currentSpillOffset then copyTiles w.spillFile entries else .ok []
  return w.header layout ++ (rootDirBytes ++ (metadataBytes ++ (leafDirsBytes ++ tileData)))

end PmtilesWriter

end RasterH3.Pmtiles
