import RasterH3.Agg.Spill
import RasterH3.Lib.Text
import RasterH3.Pmtiles.SortRun
import RasterH3.Pmtiles.TilePyramid

/-!
# From a Parquet file to tiles

The file is read twice. The first reading looks at the column of cells alone, row
group by row group, and asks of each how far north it reaches and what zooms it
needs; a group in which it finds no cell gets no extent. The second reading takes
the groups that have one from north to south, turns their rows into features and
evicts tiles as it goes.

The first reading goes through the column reader, which counts leaf columns, the
second through the row reader, which counts fields. A file is what the two readers
return of it: for each row its fields, and for each field the values of its leaves.
-/

namespace RasterH3.Pmtiles

open Agg

/-! ## Cells as text -/

def nibble (c : Char) : Option Nat :=
  if '0' ≤ c ∧ c ≤ '9' then some (c.toNat - '0'.toNat)
  else if 'a' ≤ c ∧ c ≤ 'f' then some (c.toNat - 'a'.toNat + 10)
  else if 'A' ≤ c ∧ c ≤ 'F' then some (c.toNat - 'A'.toNat + 10)
  else none

/-- A character that takes more than a byte is no digit, so that counting
characters for bytes refuses the same texts. -/
def parseHexU64 (s : String) : Option CellIndex :=
  let digits := Text.trim s.toList
  if digits = [] ∨ 16 < digits.length then none
  else (digits.foldlM (fun val c => (nibble c).map (16 * val + ·)) 0).map (Fin.ofNat _)

/-! ## The file as its readers return it -/

/-- A value of a leaf column that is not null. -/
inductive LeafValue where
  | int64 (v : CellIndex)
  | int32 (v : Int32)
  /-- A byte array, of fixed length or not. -/
  | bytes (b : List UInt8)
  | other
  deriving DecidableEq

inductive RowField where
  /-- A flat column. `annotated` when its logical type is neither an integer nor a text,
  as for a timestamp or a decimal number; the row reader then shows another kind of field. -/
  | flat (annotated : Bool) (v : Option LeafValue)
  /-- A structure, list or map, with the values of each of its leaves. -/
  | nested (leaves : List (List LeafValue))
  deriving DecidableEq

abbrev ParquetRow := List RowField

def RowField.leaves : RowField → List (List LeafValue)
  | flat _ v => [v.toList]
  | nested leaves => leaves

/-- What the column reader of leaf `idx` returns for a row. -/
def leafValues (idx : Nat) (row : ParquetRow) : List LeafValue :=
  ((row.flatMap RowField.leaves)[idx]?).getD []

structure ParquetFile where
  /-- The names of the leaf columns, `schema.columns()`. -/
  columns : List String
  rowGroups : List (List ParquetRow)

def ParquetFile.rows (file : ParquetFile) : List ParquetRow := file.rowGroups.flatten

/-! ## The column of cells -/

def eqIgnoreAsciiCase (a b : String) : Bool := a.toLower == b.toLower

def h3Column (columns : List String) (h3ColumnName : Option String) : Except String Nat :=
  match h3ColumnName with
  | some target =>
      match columns.findIdx? fun name => eqIgnoreAsciiCase name target with
      | some idx => .ok idx
      | none => .error ("H3 column '" ++ target ++
          "' not found in Parquet file; available columns: " ++ ", ".intercalate columns)
  | none => .ok ((columns.findIdx? fun name =>
      name.toLower ∈ ["h3_index", "h3_hex", "h3", "cell", "hex"]).getD 0)

/-- What the scan makes of a value. A narrow integer is sign extended. -/
def LeafValue.h3 : LeafValue → Option CellIndex
  | int64 v => some v
  | int32 v => some (Fin.ofNat _ (v.toInt % 2 ^ 64).toNat)
  | bytes b => (fromUtf8 b).bind parseHexU64
  | other => none

/-- What the row loop makes of a field. -/
def RowField.h3 : RowField → Option CellIndex
  | flat false (some (.int64 v)) => some v
  | flat false (some (.bytes b)) => (fromUtf8 b).bind parseHexU64
  | _ => none

/-- The cell that leaf `idx` of a row holds, as the scan reads it. -/
def leafCell (isCell : CellIndex → Bool) (idx : Nat) (row : ParquetRow) : Option CellIndex :=
  (leafValues idx row).findSome? fun v => v.h3.filter isCell

/-- The cell that field `idx` of a row holds, as the row loop reads it. -/
def fieldCell (isCell : CellIndex → Bool) (idx : Nat) (row : ParquetRow) : Option CellIndex :=
  (row[idx]?).bind fun field => field.h3.filter isCell

/-! ## The scan -/

def h3ResToZoom : Nat → Nat
  | 0 => 0
  | 1 => 2
  | 2 => 4
  | 3 => 5
  | 4 => 7
  | 5 => 8
  | 6 => 10
  | 7 => 11
  | 8 => 13
  | 9 => 14
  | 10 => 16
  | 11 => 17
  | 12 => 19
  | 13 => 20
  | 14 => 21
  | 15 => 23
  | _ => 24

variable {F : Type} [Field F] [LinearOrder F]

/-- What the tiler asks of the grid of cells. -/
structure Outlines (F : Type) where
  isCell : CellIndex → Bool
  resolution : CellIndex → Nat
  center : CellIndex → LatLng F
  boundary : CellIndex → List (LatLng F)
  three : ∀ c, 3 ≤ (boundary c).length
  /-- `cell_boundary_mercator` fills an array of ten. -/
  ten : ∀ c, (boundary c).length ≤ 10
  /-- The northern bound of these cells together, `bounds.finish(..)[3]`. -/
  maxLat : List CellIndex → F
  maxHexRadiusDeg : Nat → F

structure RowGroupExtent (F : Type) where
  rgIdx : Nat
  maxLat : F
  minZoom : Nat
  maxZoom : Nat
  minRes : Nat

def scanRowGroupH3Extent (grid : Outlines F) (h3Idx rgIdx : Nat) (rg : List ParquetRow) :
    Option (RowGroupExtent F) :=
  let cells := rg.flatMap fun row => (leafValues h3Idx row).filterMap fun v =>
    v.h3.filter grid.isCell
  let resolutions := cells.map grid.resolution
  let zooms := resolutions.map h3ResToZoom
  if cells = [] then none
  else some {
    rgIdx
    maxLat := grid.maxLat cells
    minZoom := zooms.foldl min 255
    maxZoom := zooms.foldl max 0
    minRes := resolutions.foldl min 255 }

/-- The extents of the groups that have one. -/
def scan (grid : Outlines F) (h3Idx : Nat) (rowGroups : List (List ParquetRow)) :
    List (RowGroupExtent F) :=
  rowGroups.zipIdx.filterMap fun rg => scanRowGroupH3Extent grid h3Idx rg.2 rg.1

/-- The latitude that the groups after each one reach. -/
def futureHorizons (extents : List (RowGroupExtent F)) : List F :=
  (extents.foldr (fun ext s => (s.2 :: s.1, max s.2 ext.maxLat)) ([], -90)).1

/-! ## The rows -/

structure PmtilesExportSummary where
  totalFeatures : Nat
  validFeatures : Nat
  invalidFeaturesDropped : Nat
  totalTiles : Nat
  minZoom : Nat
  maxZoom : Nat
  deriving DecidableEq

/-- The feature of a row. The row stands for the properties made of its other fields. -/
def rowFeature (grid : Outlines F) (row : ParquetRow) (cell : CellIndex) :
    Feature F ParquetRow where
  center := grid.center cell
  vertices := grid.boundary cell
  zoom := h3ResToZoom (grid.resolution cell)
  properties := row
  three := grid.three cell

structure Transcoding (F : Type) [Field F] [LinearOrder F] where
  totalFeatures : Nat
  validFeatures : Nat
  invalidDropped : Nat
  tiling : Tiling F ParquetRow

variable [FloorRing F]

def Transcoding.row (axis : MercatorAxis F) (grid : Outlines F) (h3Idx : Nat) (s : Transcoding F)
    (row : ParquetRow) : Transcoding F :=
  match fieldCell grid.isCell h3Idx row with
  | none =>
      { s with totalFeatures := s.totalFeatures + 1, invalidDropped := s.invalidDropped + 1 }
  | some cell =>
      { s with
        totalFeatures := s.totalFeatures + 1
        validFeatures := s.validFeatures + 1
        tiling := s.tiling.step axis (.add (rowFeature grid row cell)) }

def Transcoding.rowGroup (axis : MercatorAxis F) (grid : Outlines F) (h3Idx : Nat)
    (rowGroups : List (List ParquetRow)) (s : Transcoding F) (rg : RowGroupExtent F × F) :
    Transcoding F :=
  let s := ((rowGroups[rg.1.rgIdx]?).getD []).foldl (Transcoding.row axis grid h3Idx) s
  { s with tiling := s.tiling.step axis (.evict rg.2) }

/-- The summary and the tiles of the archive. -/
def processParquetToPmtiles (axis : MercatorAxis F) (grid : Outlines F) (file : ParquetFile)
    (h3ColumnName : Option String) :
    Except String (PmtilesExportSummary × List (TileKey × MvtLayer F ParquetRow)) := do
  let h3Idx ← h3Column file.columns h3ColumnName
  let rgExtents := scan grid h3Idx file.rowGroups
  if rgExtents = [] then return (⟨0, 0, 0, 0, 0, 0⟩, [])
  let minZoom := (rgExtents.map RowGroupExtent.minZoom).foldl min 255
  let maxZoom := (rgExtents.map RowGroupExtent.maxZoom).foldl max 0
  let minRes := (rgExtents.map RowGroupExtent.minRes).foldl min 255
  let safetyMargin := 5 / 2 * grid.maxHexRadiusDeg minRes
  let scheduledRgs := rgExtents.mergeSort fun a b => b.maxLat ≤ a.maxLat
  let s := (scheduledRgs.zip (futureHorizons scheduledRgs)).foldl
    (Transcoding.rowGroup axis grid h3Idx file.rowGroups) ⟨0, 0, 0, ⟨.new safetyMargin, []⟩⟩
  let tiles := s.tiling.flushAll
  return (⟨s.totalFeatures, s.validFeatures, s.invalidDropped, tiles.length, minZoom, maxZoom⟩,
    tiles)

end RasterH3.Pmtiles
