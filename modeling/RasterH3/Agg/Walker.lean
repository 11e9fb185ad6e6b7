import RasterH3.Agg.Coordinates
import RasterH3.Agg.H3
import RasterH3.Lib.Upserts

/-!
# The pixel walker

Every valid pixel projects each sample position once, filters it by the query box and the
owner of its tile, and indexes it at every resolution. Consecutive contributions to one
cell accumulate in a run of its resolution, which is merged into the map of the window when
the cell changes. Center sampling of one band also batches contiguous pixels and hands them
to the engine as one span.

Coordinates and weights are exact, so that no coordinate and no sum of weights is infinite.
What H3 does is a parameter: which points it accepts, and the cells of those. The row terms
of the Albers projection are not kept here; the point is projected whole.
-/

namespace RasterH3.Agg

open Raster Keyed

/-- What the walker asks of an accumulator engine. -/
structure ScanlineEngine (F T S A : Type) where
  combineSampleWeights : Bool
  newAcc : A
  clearAcc : A → A
  hasSamples : A → Bool
  mergeAcc : A → A → A
  accumulateSpan : A → List T → A
  accumulateSpanMulti : {n : Nat} → (Fin n → A) → List T → Fin n → A
  getSample : T → Option S
  updateSample : A → S → F → A

/-- Points that are indexed, by longitude and latitude, and their cells. -/
structure PointIndex (F : Type) (n : Nat) where
  accepts : F → F → Bool
  cells : F → F → Fin n → CellIndex

/-- Linear calibration from a stored sample to its physical value. -/
structure BandScaling (F : Type) where
  scale : F
  offset : F
  deriving DecidableEq

namespace BandScaling

variable {F : Type} [Field F]

def identity : BandScaling F := ⟨1, 0⟩

def isIdentity [DecidableEq F] (s : BandScaling F) : Bool := s = identity

def apply (s : BandScaling F) (stored : F) : F := stored * s.scale + s.offset

end BandScaling

variable {F : Type} [Field F] [LinearOrder F] {n : Nat}

/-- What every row of one window shares. -/
structure WalkContext (F : Type) [Field F] [LinearOrder F] (n : Nat) where
  chunk : RasterChunk
  index : PointIndex F n
  crs : CrsTransformer F
  gt : GeoTransform F
  sampling : SamplingPattern F
  bbox : Option (Bbox F)
  /-- Of a row, in pixels; 0 means the width of the chunk. -/
  stride : Nat
  samplesPerPixel : Nat
  /-- Whether the tile owns a point, in a mosaic with overlaps. -/
  owner : Option (F → F → Bool)
  bandScaling : List (BandScaling F)
  alphaSample : Option Nat

namespace WalkContext

/-- The calibration of a band, counted from one. -/
def scaling (ctx : WalkContext F n) (band : Nat) : BandScaling F :=
  ctx.bandScaling.getD (band - 1) .identity

/-- Whether the alpha sample of a pixel marks it fully transparent. -/
def isTransparent {T : Type} [DecidableEq T] (zero : T) (ctx : WalkContext F n) (px : List T) :
    Bool :=
  (ctx.alphaSample.bind fun a => px[a]?).any (· = zero)

end WalkContext

def SamplingPattern.isSinglePoint (s : SamplingPattern F) : Bool :=
  match s.points with
  | [p] => p.dx = 1 / 2 ∧ p.dy = 1 / 2 ∧ p.weight = 1
  | _ => false

/-- Merge the weights of samples that share a cell, keeping each cell at the position of its
first sample. -/
def combineByCell (assignments : List (CellIndex × F)) : List (CellIndex × F) :=
  assignments.foldl (fun combined a => upsert (· + a.2) a.2 a.1 combined) []

/-! ## Projecting samples -/

/-- Latitudes that are the same for the whole row. -/
inductive RowCache (F : Type) where
  | none
  | wgs84 (lats : List F)
  | mercator (lats : List F)

structure SampleProjector (F : Type) where
  crs : CrsTransformer F
  gt : GeoTransform F
  cache : RowCache F

namespace SampleProjector

def new (ctx : WalkContext F n) : SampleProjector F where
  crs := ctx.crs
  gt := ctx.gt
  cache :=
    match ctx.crs with
    | .wgs84Identity => if ctx.gt.d = 0 then .wgs84 [] else .none
    | .webMercatorFast _ _ => if ctx.gt.d = 0 then .mercator [] else .none
    | .projected _ _ _ => .none

def startRow (p : SampleProjector F) (sampling : SamplingPattern F) (rowIdx : Nat) :
    SampleProjector F :=
  let rowY := fun sp : SamplePoint F => (p.gt.pixelToCoord 0 (rowIdx + sp.dy)).2
  match p.cache, p.crs with
  | .wgs84 _, _ => { p with cache := .wgs84 (sampling.points.map rowY) }
  | .mercator _, .webMercatorFast _ lat =>
      { p with cache := .mercator (sampling.points.map fun sp => lat (rowY sp)) }
  | _, _ => p

def project (p : SampleProjector F) (col rowIdx k : Nat) (sp : SamplePoint F) : Option (F × F) :=
  let (x, y) := p.gt.pixelToCoord (col + sp.dx) (rowIdx + sp.dy)
  match p.cache, p.crs with
  | .wgs84 lats, _ => (lats[k]?).map fun lat => (x, lat)
  | .mercator lats, .webMercatorFast radToDeg _ =>
      (lats[k]?).map fun lat => (x / wgs84A * radToDeg, lat)
  | _, _ => p.crs.transformPoint x y

end SampleProjector

/-! ## Runs -/

abbrev CellMap (A : Type) := List (CellIndex × A)

/-- The current cell of every resolution, if there is one, and its state. -/
structure Runs (A : Type) (n : Nat) where
  cells : Fin n → Option CellIndex
  accs : Fin n → A

/-- The runs and maps, and where a span of pixels of the row starts that are all in the
current cells. Samples that were dropped by a failed transform are counted. -/
structure WalkState (A : Type) (n : Nat) where
  runs : Runs A n
  maps : Fin n → CellMap A
  spanStart : Option Nat
  failures : Nat

section Engine

variable {T S A : Type} (engine : ScanlineEngine F T S A)

def Runs.new : Runs A n := ⟨fun _ => none, fun _ => engine.newAcc⟩

/-- Merge a finished run into the map, moving rather than cloning new entries. -/
def flushRun (map : CellMap A) (cell : Option CellIndex) (acc : A) : CellMap A × A :=
  match cell.filter fun _ => engine.hasSamples acc with
  | none => (map, acc)
  | some cell =>
      (upsert (fun held => engine.mergeAcc held acc) acc cell map,
        if (keys map).contains cell then engine.clearAcc acc else engine.newAcc)

def Runs.addSpan (runs : Runs A n) (values : List T) : Runs A n :=
  if n = 1 then { runs with accs := fun i => engine.accumulateSpan (runs.accs i) values }
  else { runs with accs := engine.accumulateSpanMulti runs.accs values }

namespace WalkState

variable (st : WalkState A n)

/-- The run of a resolution is finished, and another cell begun. -/
def restart (i : Fin n) (cell : CellIndex) : WalkState A n :=
  let (map, acc) := flushRun engine (st.maps i) (st.runs.cells i) (st.runs.accs i)
  { st with
    maps := Function.update st.maps i map
    runs :=
      { cells := Function.update st.runs.cells i (some cell)
        accs := Function.update st.runs.accs i acc } }

/-- `if let Some(s) = span_start.take()`. -/
def closeSpan (preceding : List T) : WalkState A n :=
  match st.spanStart with
  | none => st
  | some s => { st with runs := st.runs.addSpan engine (preceding.drop s), spanStart := none }

/-- Flush the preceding span before restarting any run. -/
def advanceCells (nextCells : Fin n → CellIndex) (preceding : List T) : WalkState A n :=
  let st :=
    if ∃ i, some (nextCells i) ≠ st.runs.cells i then
      (List.finRange n).foldl (fun st i =>
        if some (nextCells i) ≠ st.runs.cells i then st.restart engine i (nextCells i) else st)
        (st.closeSpan engine preceding)
    else st
  { st with spanStart := some (st.spanStart.getD preceding.length) }

def setAcc (i : Fin n) (acc : A) : WalkState A n :=
  { st with runs := { st.runs with accs := Function.update st.runs.accs i acc } }

def update (i : Fin n) (cell : CellIndex) (sample : S) (weight : F) : WalkState A n :=
  let st := if some cell ≠ st.runs.cells i then st.restart engine i cell else st
  st.setAcc i (engine.updateSample (st.runs.accs i) sample weight)

def transformFailed (failures : Nat) : WalkState A n :=
  { st with failures := st.failures + failures }

def finish : Fin n → CellMap A :=
  fun i => (flushRun engine (st.maps i) (st.runs.cells i) (st.runs.accs i)).1

end WalkState

end Engine

/-! ## The walk -/

section Walk

variable [FloorRing F] {T S A : Type}

/-- The point of a sample, unless its transform fails. -/
def located (projector : SampleProjector F) (col rowIdx k : Nat) (sp : SamplePoint F) :
    Option (F × F) :=
  (projector.project col rowIdx k sp).filter fun p => -90 ≤ p.2 ∧ p.2 ≤ 90

/-- Sample point `p.2` of a pixel is retained, dropped, or counted as failed. -/
def gatherSample (ctx : WalkContext F n) (projector : SampleProjector F) (col rowIdx : Nat)
    (gathered : List ((F × F) × F) × Nat) (p : SamplePoint F × Nat) : List ((F × F) × F) × Nat :=
  match located projector col rowIdx p.2 p.1 with
  | none => (gathered.1, gathered.2 + 1)
  | some point =>
      if !isPointInBbox point.1 point.2 ctx.bbox then gathered
      else if !(ctx.owner.all fun owned => owned point.1 point.2) then gathered
      else if ctx.index.accepts point.1 point.2 then
        (gathered.1 ++ [(point, p.1.weight)], gathered.2)
      else (gathered.1, gathered.2 + 1)

/-- The retained sample positions of a pixel with their weights, and how many of its samples
failed to transform. -/
def samplePositions (ctx : WalkContext F n) (projector : SampleProjector F) (col rowIdx : Nat) :
    List ((F × F) × F) × Nat :=
  ctx.sampling.points.zipIdx.foldl (gatherSample ctx projector col rowIdx) ([], 0)

/-- What a pixel contributes to the cells of a resolution, in the order in which it does. -/
def cellAssignments (ctx : WalkContext F n) (combine : Bool) (positions : List ((F × F) × F))
    (i : Fin n) : List (CellIndex × F) :=
  let assignments := positions.map fun p => (ctx.index.cells p.1.1 p.1.2 i, p.2)
  if combine ∧ 1 < assignments.length then combineByCell assignments else assignments

variable (ctx : WalkContext F n) (spp : Nat) (read : List T → Option S) (batch : Bool)
  (engine : ScanlineEngine F T S A)

/-- The interleaved values of a pixel. -/
def pixelOf (row : List T) (c : Nat) : List T := (row.drop (c * spp)).take spp

/-- Pixel `c` of a row without a box and without an owner, in batches. -/
def WalkState.batchPixel (projector : SampleProjector F) (rowIdx : Nat) (row : List T)
    (st : WalkState A n) (c : Nat) : WalkState A n :=
  if (read (pixelOf spp row c)).isNone then st
  else
    match ctx.sampling.points with
    | [] => st
    | sp :: _ =>
        match (located projector (ctx.chunk.colOffset + c) rowIdx 0 sp).filter fun p =>
          ctx.index.accepts p.1 p.2 with
        | none => (st.transformFailed 1).closeSpan engine (row.take c)
        | some (lon, lat) => st.advanceCells engine (ctx.index.cells lon lat) (row.take c)

/-- Pixel `c` of any other row. -/
def WalkState.samplePixel (projector : SampleProjector F) (rowIdx : Nat) (row : List T)
    (st : WalkState A n) (c : Nat) : WalkState A n :=
  match read (pixelOf spp row c) with
  | none => st
  | some sample =>
      let (positions, failures) := samplePositions ctx projector (ctx.chunk.colOffset + c) rowIdx
      let st := st.transformFailed failures
      match positions with
      -- A valid pixel outside the walk must not enter a span.
      | [] => st.closeSpan engine (row.take c)
      | first :: _ =>
          if batch then
            st.advanceCells engine (ctx.index.cells first.1.1 first.1.2) (row.take c)
          else
            (List.finRange n).foldl (fun st i =>
              (cellAssignments ctx engine.combineSampleWeights positions i).foldl
                (fun st a => st.update engine i a.1 sample a.2) st) st

/-- The columns from `cols.1` until before `cols.2`. -/
def WalkState.walkRow (projector : SampleProjector F) (rowIdx : Nat) (row : List T)
    (cols : Nat × Nat) (st : WalkState A n) : WalkState A n :=
  let step :=
    if batch ∧ ctx.owner.isNone ∧ ctx.bbox.isNone then
      WalkState.batchPixel ctx spp read engine projector rowIdx row
    else WalkState.samplePixel ctx spp read batch engine projector rowIdx row
  ((List.range' cols.1 (cols.2 - cols.1)).foldl step { st with spanStart := none }).closeSpan
    engine (row.take cols.2)

def rowPixels (slice : List T) (stride r : Nat) : Nat :=
  min ((slice.length - r * stride) / spp) ctx.chunk.width

def rowValues (slice : List T) (stride r : Nat) : List T :=
  (slice.drop (r * stride)).take (rowPixels ctx spp slice stride r * spp)

/-- The rows that have values. -/
def walkRows (slice : List T) (stride : Nat) (isRowAllNodata : List T → Bool) :
    List Nat → WalkState A n → WalkState A n
  | [], st => st
  | r :: rows, st =>
      if slice.length ≤ r * stride then st
      else
        let row := rowValues ctx spp slice stride r
        let rowIdx := ctx.chunk.rowOffset + r
        if isRowAllNodata row then walkRows slice stride isRowAllNodata rows st
        else
          match visitedColumns ctx.bbox ctx.gt ctx.crs ctx.sampling ctx.chunk.colOffset rowIdx
            (rowPixels ctx spp slice stride r) with
          | none => walkRows slice stride isRowAllNodata rows st
          | some cols =>
              walkRows slice stride isRowAllNodata rows (WalkState.walkRow ctx spp read batch engine
                ((SampleProjector.new ctx).startRow ctx.sampling rowIdx) rowIdx row cols st)

/-- The values between the starts of two rows. -/
def rowStride (slice : List T) : Nat :=
  if 0 < ctx.stride * spp ∧ ctx.stride * spp ≤ slice.length then ctx.stride * spp
  else ctx.chunk.width * spp

/-- The maps after a walk of a window, and the samples that failed. -/
def walk (slice : List T) (isRowAllNodata : List T → Bool) (maps : Fin n → CellMap A) :
    (Fin n → CellMap A) × Nat :=
  let spp := max spp 1
  if ctx.chunk.width = 0 ∨ slice = [] then (maps, 0)
  else
    let st := walkRows ctx spp read batch engine slice (rowStride ctx spp slice) isRowAllNodata
      (List.range ctx.chunk.height) ⟨.new engine, maps, none, 0⟩
    (st.finish engine, st.failures)

end Walk

section Entry

variable [FloorRing F] {T S A : Type} (ctx : WalkContext F n) (engine : ScanlineEngine F T S A)

/-- Walk a single-band window. -/
def walkDirect (slice : List T) (isRowAllNodata : List T → Bool) (maps : Fin n → CellMap A) :
    (Fin n → CellMap A) × Nat :=
  walk ctx 1 (fun px => px.head?.bind engine.getSample) ctx.sampling.isSinglePoint engine slice
    isRowAllNodata maps

/-- Walk a window of interleaved values; `read` reduces the values of a pixel to a sample. -/
def walkInterleaved (slice : List T) (read : List T → Option S) (maps : Fin n → CellMap A) :
    (Fin n → CellMap A) × Nat :=
  walk ctx ctx.samplesPerPixel read false engine slice (fun _ => false) maps

end Entry

end RasterH3.Agg
