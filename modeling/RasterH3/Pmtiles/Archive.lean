import RasterH3.Pmtiles.Writer

/-!
# Looking a tile up in an archive

This is the reader the format asks for, stated on its own: it takes positions and sizes from
the header, reads a directory, goes to the last entry that does not come after the tile, and
either follows it to a leaf or takes the contents it points at.

The writer is not consulted. Whether an archive gives its tiles back is a question about two
programs, and one of them is the reader that anybody may write from the specification; where
that leaves a choice, as for the search in a directory, this one takes the plainest. The
header is read at fixed positions, and a directory in the columns it is stored in.
-/

namespace RasterH3.Pmtiles

/-- The bytes of a range, if the archive has them all. -/
def slice (bytes : List UInt8) (offset length : Nat) : Option (List UInt8) :=
  if offset + length ≤ bytes.length then some ((bytes.drop offset).take length) else none

def readVarints : Nat → List UInt8 → Option (List Nat × List UInt8)
  | 0, bytes => some ([], bytes)
  | n + 1, bytes => do
      let (v, bytes) ← Bytes.readVarint bytes
      let (vs, bytes) ← readVarints n bytes
      return (v :: vs, bytes)

/-- An offset of 0 continues the entry before, which began at `p.1` and has length `p.2`. -/
def offsetFrom (prev : Option (Nat × Nat)) (code : Nat) : Option Nat :=
  if code = 0 then prev.map fun p => p.1 + p.2 else some (code - 1)

/-- Entries from the columns of a directory. -/
def assemble : Nat → Option (Nat × Nat) → List Nat → List Nat → List Nat → List Nat →
    Option (List Entry)
  | last, prev, d :: ds, r :: rs, l :: ls, o :: os => do
      let offset ← offsetFrom prev o
      let entries ← assemble (last + d) (some (offset, l)) ds rs ls os
      return ⟨last + d, offset, l, r⟩ :: entries
  | _, _, _, _, _, _ => some []

def decodeDirectory (gz : Gzip) (bytes : List UInt8) : Option (List Entry) := do
  let bytes ← gz.decompress bytes
  let (n, bytes) ← Bytes.readVarint bytes
  let (deltas, bytes) ← readVarints n bytes
  let (runLengths, bytes) ← readVarints n bytes
  let (lengths, bytes) ← readVarints n bytes
  let (offsets, _) ← readVarints n bytes
  assemble 0 none deltas runLengths lengths offsets

/-- The last entry that does not come after the tile. -/
def lastNotAfter (tileId : Nat) : List Entry → Option Entry
  | [] => none
  | e :: es =>
      match lastNotAfter tileId es with
      | some e' => some e'
      | none => if e.tileId ≤ tileId then some e else none

/-- A pointer to a leaf, or the entry whose run holds the tile. -/
def findTile (entries : List Entry) (tileId : Nat) : Option Entry := do
  let e ← lastNotAfter tileId entries
  if e.runLength = 0 ∨ tileId - e.tileId < e.runLength then some e else none

structure Header where
  rootOffset : Nat
  rootLength : Nat
  leafOffset : Nat
  dataOffset : Nat

/-- The little-endian integer in the eight bytes from `pos` on. -/
def fieldAt (bytes : List UInt8) (pos : Nat) : Option Nat :=
  (Bytes.readLe 8 (bytes.drop pos)).map Prod.fst

def readHeader (bytes : List UInt8) : Option Header :=
  if headerSize ≤ bytes.length ∧ bytes.take 7 = PmtilesWriter.magic ∧ bytes[7]? = some 3 ∧
      bytes[97]? = some compressionGzip then do
    return { rootOffset := ← fieldAt bytes 8, rootLength := ← fieldAt bytes 16,
             leafOffset := ← fieldAt bytes 40, dataOffset := ← fieldAt bytes 56 }
  else none

/-- The walk from a directory, at most `depth` directories deep. -/
def lookup (gz : Gzip) (bytes : List UInt8) (h : Header) (tileId : Nat) :
    Nat → Nat → Nat → Option (List UInt8)
  | 0, _, _ => none
  | depth + 1, offset, length => do
      let raw ← slice bytes offset length
      let entries ← decodeDirectory gz raw
      let e ← findTile entries tileId
      if e.runLength = 0 then lookup gz bytes h tileId depth (h.leafOffset + e.offset) e.length
      else slice bytes (h.dataOffset + e.offset) e.length

/-- Directories are at most four deep. -/
def getTile (gz : Gzip) (bytes : List UInt8) (z x y : Nat) : Option (List UInt8) := do
  let h ← readHeader bytes
  lookup gz bytes h (zxyToTileId z x y) 4 h.rootOffset h.rootLength

end RasterH3.Pmtiles
