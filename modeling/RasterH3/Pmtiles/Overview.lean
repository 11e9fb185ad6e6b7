import RasterH3.Agg.ShardedMap
import RasterH3.Pmtiles.TileId
import RasterH3.Pmtiles.TilePyramid

/-!
# Overviews are merged outside of memory

Zooms that show a coarser resolution than the data has get their own cells: every
detail cell is merged into its ancestor at each of the coarser resolutions, and the
ancestors are then sorted into the tiles they cover. Both steps use the same thing,
a live map that is written out as a run whenever it has grown to its budget; the
second merges lists of cells where the first merges states.

A list is charged for its length. What a vector has beyond it is the allocator's,
like the tables and heaps of the map, and is part of what the readings of the
map's budget find.
-/

namespace RasterH3.Pmtiles

open Agg AccumulatorMerge SpillAccumulator

variable {A : Type} [SpillAccumulator A]

/-! ## A map that spills -/

/-- `usize::MAX` -/
def noLimit : Usize := Fin.last _

/-- Eviction is off, and with it the latitudes the map would order cells by. -/
structure BufferedMerge (A : Type) where
  map : ShardedResolutionMap A Unit
  runs : SpillRuns
  budget : Nat

namespace BufferedMerge

def new (A : Type) (structureBytes : Nat → Nat) (budget : Nat) : BufferedMerge A where
  map := (ShardedResolutionMap.new structureBytes).setEvictionEnabled false
  runs := .new noLimit
  budget := budget

def push (b : BufferedMerge A) (key : CellIndex) (value : A) :
    Except SpillError (BufferedMerge A) :=
  let map := (b.map.mergeOwnedWith key value ()).2
  if b.budget ≤ map.estimatedBytes then do
    let runs ← b.runs.pushSorted map.takeSorted.1
    return { b with map := map.takeSorted.2, runs }
  else return { b with map }

/-- The records in the order in which `consume` gets them. -/
def finish (b : BufferedMerge A) : Except SpillError (List (CellIndex × A)) :=
  if b.runs.hasSpilled then do
    let runs ← b.runs.pushSorted b.map.takeSorted.1
    runs.readBack A
  else return b.map.takeSorted.1

def pushAll (b : BufferedMerge A) (pushes : List (CellIndex × A)) :
    Except SpillError (BufferedMerge A) :=
  pushes.foldlM (fun b p => b.push p.1 p.2) b

/-- A whole use: every push in turn, then `finish`. -/
def mergeAll (structureBytes : Nat → Nat) (budget : Nat) (pushes : List (CellIndex × A)) :
    Except SpillError (List (CellIndex × A)) := do
  (← (new A structureBytes budget).pushAll pushes).finish

end BufferedMerge

/-! ## The cells of a tile as a state -/

/-- The cells of one tile with their states. -/
structure TileCells (A : Type) where
  cells : List (CellIndex × A)

namespace TileCells

def sizeOfCell (A : Type) [SpillAccumulator A] : Nat := 8 + sizeOfSelf A

def merge (t other : TileCells A) : TileCells A := ⟨t.cells ++ other.cells⟩

def heapBytes (t : TileCells A) : Nat :=
  t.cells.length * sizeOfCell A + (t.cells.map fun c => AccumulatorMerge.heapBytes c.2).sum

def writeCells (cells : List (CellIndex × A)) : List UInt8 :=
  cells.flatMap fun c => Bytes.writeFin64 c.1 ++ SpillAccumulator.writeState c.2

def writeState (t : TileCells A) : List UInt8 :=
  Bytes.writeLe 8 t.cells.length ++ writeCells t.cells

def readCells (limit : Usize) : Nat → List UInt8 →
    Except SpillError (List (CellIndex × A) × List UInt8)
  | 0, input => .ok ([], input)
  | n + 1, input => do
      let (id, input) ← Agg.readExact Bytes.readFin64 input
      let (acc, input) ← SpillAccumulator.readState limit input
      let (cells, input) ← readCells limit n input
      return ((id, acc) :: cells, input)

def readState (limit : Usize) (input : List UInt8) :
    Except SpillError (TileCells A × List UInt8) := do
  let (count, input) ← Agg.readExact (Bytes.readLe 8) input
  if limit.val / sizeOfCell A < count then throw .tileExceeds
  let (cells, input) ← readCells limit count input
  return (⟨cells⟩, input)

instance : SpillAccumulator (TileCells A) where
  merge := merge
  heapBytes := heapBytes
  -- A vector is three words.
  sizeOfSelf := 24
  writeState := writeState
  readState := readState

end TileCells

/-! ## Overviews -/

structure CellGrid (F : Type) where
  resolution : CellIndex → Nat
  /-- `cell.parent(res)`: none below the resolution of the cell, the cell itself at it. -/
  ancestor : CellIndex → Nat → Option CellIndex
  center : CellIndex → LatLng F
  boundary : CellIndex → List (LatLng F)

structure CellGrid.Lawful {F : Type} (grid : CellGrid F) : Prop where
  resolution_ancestor : ∀ {c p res}, grid.ancestor c res = some p → grid.resolution p = res
  boundary_le : ∀ c, (grid.boundary c).length ≤ 10

/-- The resolution that is shown at a zoom. -/
def h3ResForZoom : Nat → Nat
  | 0 | 1 => 0
  | 2 | 3 => 1
  | 4 => 2
  | 5 => 3
  | 6 | 7 => 4
  | 8 | 9 => 5
  | 10 => 6
  | 11 | 12 => 7
  | 13 => 8
  | 14 => 9
  | 15 | 16 => 10
  | 17 => 11
  | 18 | 19 => 12
  | 20 => 13
  | 21 | 22 => 14
  | _ => 15

structure Overview (A : Type) where
  parents : BufferedMerge A
  resolutions : List Nat

namespace Overview

variable {F : Type} [Field F] [LinearOrder F] [FloorRing F]

/-- `BUFFER_BYTES` is the budget, here and in `write`. -/
def new (A : Type) (structureBytes : Nat → Nat) (budget : Nat) (resolutions : List Nat) :
    Overview A where
  parents := .new A structureBytes budget
  resolutions := resolutions

def push (grid : CellGrid F) (o : Overview A) (cell : CellIndex) (value : A) :
    Except SpillError (Overview A) := do
  let parents ← o.resolutions.foldlM (fun parents res =>
    match grid.ancestor cell res with
    | some parent => parents.push parent value
    | none => .ok parents) o.parents
  return { o with parents }

def pushAll (grid : CellGrid F) (o : Overview A) (details : List (CellIndex × A)) :
    Except SpillError (Overview A) :=
  details.foldlM (fun o d => o.push grid d.1 d.2) o

def cellTiles (axis : MercatorAxis F) (grid : CellGrid F) (cell : CellIndex) (z : Nat) :
    List (Nat × Nat) :=
  forEachCellTileMercator (.fromLatLng axis (grid.center cell))
    ((grid.boundary cell).map (.fromLatLng axis)) z

def tileKey (z : Nat) (t : Nat × Nat) : CellIndex := Fin.ofNat _ (zxyToTileId z t.1 t.2)

/-- Where a parent goes: the zooms that show its resolution. -/
def tilePushes (axis : MercatorAxis F) (grid : CellGrid F) (zooms : List Nat)
    (parent : CellIndex × A) : List (CellIndex × TileCells A) :=
  zooms.flatMap fun z =>
    if h3ResForZoom z = grid.resolution parent.1 then
      (cellTiles axis grid parent.1 z).map fun t => (tileKey z t, ⟨[parent]⟩)
    else []

/-- The tiles of an overview in the order in which they are written. -/
def tiles (axis : MercatorAxis F) (grid : CellGrid F) (structureBytes : Nat → Nat) (budget : Nat)
    (zooms : List Nat) (parents : List (CellIndex × A)) :
    Except SpillError (List (CellIndex × TileCells A)) := do
  let tiles ← parents.foldlM (fun tiles p => tiles.pushAll (tilePushes axis grid zooms p))
    (BufferedMerge.new (TileCells A) structureBytes budget)
  tiles.finish

/-- The bounds grow by every parent that some zoom shows. -/
def recordBounds {B : Type} (record : B → CellIndex → B) (grid : CellGrid F) (zooms : List Nat)
    (bounds : B) (parents : List (CellIndex × A)) : B :=
  parents.foldl (fun bounds p =>
    if zooms.any fun z => h3ResForZoom z = grid.resolution p.1 then record bounds p.1
    else bounds) bounds

/-- `encode` builds the layer of a tile from its cells and encodes it. -/
def write {B G : Type} (gz : Gzip) (axis : MercatorAxis F) (grid : CellGrid F)
    (record : B → CellIndex → B) (encode : TileKey → List (CellIndex × A) → List UInt8)
    (structureBytes : Nat → Nat) (budget : Nat) (o : Overview A) (zooms : List Nat)
    (writer : PmtilesWriter G) (bounds : B) : Except SpillError (PmtilesWriter G × B) := do
  let parents ← o.parents.finish
  let tiles ← tiles axis grid structureBytes budget zooms parents
  let writer := tiles.foldl (fun w t =>
    let key := tileIdToZxy t.1.val
    w.addTile gz key.1 key.2.1 key.2.2 (encode key t.2.cells)) writer
  return (writer, recordBounds record grid zooms bounds parents)

/-- Every detail cell, then the overview. -/
def overview {B G : Type} (gz : Gzip) (axis : MercatorAxis F) (grid : CellGrid F)
    (record : B → CellIndex → B) (encode : TileKey → List (CellIndex × A) → List UInt8)
    (structureBytes : Nat → Nat) (budget : Nat) (resolutions zooms : List Nat)
    (details : List (CellIndex × A)) (writer : PmtilesWriter G) (bounds : B) :
    Except SpillError (PmtilesWriter G × B) := do
  let o ← (new A structureBytes budget resolutions).pushAll grid details
  o.write gz axis grid record encode structureBytes budget zooms writer bounds

end Overview

end RasterH3.Pmtiles
