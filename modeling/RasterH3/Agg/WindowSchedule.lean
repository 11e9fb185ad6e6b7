import RasterH3.Agg.Controller
import RasterH3.Lib.Checked
import RasterH3.Raster.Transformer

/-!
# Window scheduling

`process_batch` at the level of indices. A batch is a list of decoded chunks. The
inner loop cuts the chunk at hand into rectangles until it has a job for every
worker or the batch is used up, and remembers the row and the column at which it
stopped. A wave of jobs then goes to the kernel and the merge, which are the
parameter `run` here, and the outer loop starts the next wave.

A job borrows a part of the decoded samples, from its first pixel to its last, and
keeps the row stride of the chunk. Offsets are `usize` and `u32` computations; where
one does not fit, the answer is `overflow`. Both loops take a number of rounds, and
`outOfRounds` is the answer of a loop that has used them up.
-/

namespace RasterH3.Agg

open Raster (RasterChunk)

/-! ## The allowance of the workers -/

/-- How many maps a wave owns, and how many pixels a window may have. -/
structure WorkerAllowance where
  tasks : Nat
  pixels : Nat
  tasks_pos : 0 < tasks
  pixels_pos : 0 < pixels
  pixels_le : pixels ≤ 16384

/-- `None` is a sampling pattern that exceeds the allowance. A pattern has a point
and a scan has a resolution, so a pixel costs something. -/
def workerAllowance (aggregationBudgetBytes perPixel numThreads : Nat)
    (aggregationWorkers : Option Nat) : Option WorkerAllowance :=
  let workerBudget := aggregationBudgetBytes / 4
  if h : 0 < perPixel ∧ perPixel ≤ workerBudget then
    let wanted := match aggregationWorkers with
      | some n => max 1 (min n 64)
      | none => max 1 (min numThreads 8)
    let tasks := min wanted (workerBudget / perPixel)
    let pixels := max 1 (min (workerBudget / tasks / perPixel) 16384)
    some
      { tasks := tasks
        pixels := pixels
        tasks_pos := by
          have hshare : 0 < workerBudget / perPixel := Nat.div_pos h.2 h.1
          have hwanted : 0 < wanted := by
            cases aggregationWorkers with
            | none => exact Nat.lt_of_lt_of_le Nat.one_pos (Nat.le_max_left ..)
            | some n => exact Nat.lt_of_lt_of_le Nat.one_pos (Nat.le_max_left ..)
          exact Nat.lt_min.mpr ⟨hwanted, hshare⟩
        pixels_pos := Nat.lt_of_lt_of_le Nat.one_pos (Nat.le_max_left ..)
        pixels_le := Nat.max_le.mpr ⟨by decide, Nat.min_le_right ..⟩ }
  else none

/-! ## Decoded chunks -/

/-- What the reader of a tile says about its chunks: offsets and byte counts, when
the file has been parsed that far. -/
structure TileReader where
  samplesPerPixel : Nat
  chunkInfo : Option (List Nat × List Nat)
  spp_lt : samplesPerPixel < 2 ^ 16

/-- Unallocated chunks contain no observations. -/
def TileReader.isSparseChunk (tile : TileReader) (chunkIndex : Nat) : Bool :=
  match tile.chunkInfo with
  | none => false
  | some (chunkOffsets, chunkBytes) =>
      chunkOffsets[chunkIndex]? == some 0 || chunkBytes[chunkIndex]? == some 0

/-- An item of a batch. The chunk is part of an image whose sides are `u32`, and no
slice is longer than `isize::MAX`. -/
structure DecodedChunk (T : Type) where
  tileIdx : Nat
  chunkIdx : Nat
  chunk : RasterChunk
  data : List T
  overlap : Bool
  cols_lt : chunk.colOffset + chunk.width < 2 ^ 32
  rows_lt : chunk.rowOffset + chunk.height < 2 ^ 32
  data_lt : data.length < 2 ^ 63

/-- What a worker gets. -/
structure WindowJob (T : Type) where
  tileIdx : Nat
  bounds : RasterChunk
  samples : List T
  stride : Nat
  overlap : Bool

/-- Why a batch ends early. `E` is what the kernel and the merge report. -/
inductive BatchError (E : Type) where
  | streamFailed (reason : String)
  | invalidMetadata (what : String)
  | wave (error : E)
  | overflow
  | outOfRounds
  deriving DecidableEq, Repr

def orOverflow {E α : Type} : Option α → Except (BatchError E) α
  | none => .error .overflow
  | some a => .ok a

def borrowWindow {E T : Type} (samples : List T) (start len : Nat) :
    Except (BatchError E) (List T) :=
  match Checked.add 64 start len with
  | none => .error (.invalidMetadata "sample window overflow")
  | some stop =>
      if stop ≤ samples.length then .ok ((samples.drop start).take len)
      else .error (.invalidMetadata "decoded chunk shorter than its declared dimensions")

/-! ## One window -/

/-- The window at a row and a column. -/
def nextWindow (workerPixels width height row col : Nat) : Window :=
  if width ≤ workerPixels then ⟨row, col, width, min (workerPixels / width) (height - row)⟩
  else ⟨row, col, min workerPixels (width - col), 1⟩

/-- The row and the column after a window. -/
def Window.next (width : Nat) (win : Window) : Nat × Nat :=
  if win.width = width then (win.row + win.height, win.col)
  else if win.col + win.width = width then (win.row + 1, 0)
  else (win.row, win.col + win.width)

/-- `(row * width + col) * spp`. -/
def sampleStart (width spp : Nat) (win : Window) : Option Nat := do
  let above ← Checked.mul 64 win.row width
  let pixel ← Checked.add 64 above win.col
  Checked.mul 64 pixel spp

/-- `((h - 1) * width + w) * spp`. -/
def sampleLen (width spp : Nat) (win : Window) : Option Nat := do
  let full ← Checked.mul 64 (win.height - 1) width
  let pixels ← Checked.add 64 full win.width
  Checked.mul 64 pixels spp

def windowBounds (chunk : RasterChunk) (win : Window) : Option RasterChunk := do
  let colOffset ← Checked.add 32 chunk.colOffset win.col
  let rowOffset ← Checked.add 32 chunk.rowOffset win.row
  return ⟨colOffset, rowOffset, win.width, win.height⟩

variable {E M T : Type}

def cutJob (spp : Nat) (item : DecodedChunk T) (win : Window) :
    Except (BatchError E) (WindowJob T) := do
  let start ← orOverflow (sampleStart item.chunk.width spp win)
  let len ← orOverflow (sampleLen item.chunk.width spp win)
  let samples ← borrowWindow item.data start len
  let bounds ← orOverflow (windowBounds item.chunk win)
  return ⟨item.tileIdx, bounds, samples, item.chunk.width, item.overlap⟩

/-! ## The loops -/

/-- The items from `index` on, and the place in the first of them. -/
structure Schedule (T : Type) where
  items : List (Except String (DecodedChunk T))
  row : Nat
  col : Nat

namespace Schedule

variable (allowance : WorkerAllowance) (tiles : Nat → TileReader)

def samplesPerPixel (item : DecodedChunk T) : Nat := max (tiles item.tileIdx).samplesPerPixel 1

def isSparse (item : DecodedChunk T) : Bool := (tiles item.tileIdx).isSparseChunk item.chunkIdx

/-- One turn of the inner loop: the next item, or a job. -/
def nextJob (s : Schedule T) : Except (BatchError E) (Option (WindowJob T) × Schedule T) :=
  match s.items with
  | [] => .ok (none, s)
  | .error e :: _ => .error (.streamFailed e)
  | .ok item :: rest =>
      if item.chunk.height ≤ s.row ∨ item.chunk.width = 0 ∨ isSparse tiles item then
        .ok (none, ⟨rest, 0, 0⟩)
      else do
        let win := nextWindow allowance.pixels item.chunk.width item.chunk.height s.row s.col
        let job ← cutJob (samplesPerPixel tiles item) item win
        let (row, col) := win.next item.chunk.width
        return (some job, ⟨s.items, row, col⟩)

/-- The inner loop. -/
def fillWave (rounds : Nat) (jobs : List (WindowJob T)) (s : Schedule T) :
    Except (BatchError E) (List (WindowJob T) × Schedule T) :=
  match rounds with
  | 0 => .error .outOfRounds
  | rounds + 1 =>
      if jobs.length < allowance.tasks ∧ 0 < s.items.length then do
        let (job, s) ← nextJob allowance tiles s
        fillWave rounds (jobs ++ job.toList) s
      else .ok (jobs, s)

/-- The outer loop. -/
def processWaves (run : M → List (WindowJob T) → Except E M) (rounds : Nat) (s : Schedule T)
    (m : M) : Except (BatchError E) M :=
  match rounds with
  | 0 => .error .outOfRounds
  | rounds + 1 =>
      if 0 < s.items.length then do
        let (jobs, s) ← fillWave allowance tiles rounds [] s
        if jobs.isEmpty then processWaves run rounds s m
        else do
          let m ← (run m jobs).mapError .wave
          processWaves run rounds s m
      else .ok m

def processBatch (run : M → List (WindowJob T) → Except E M) (rounds : Nat)
    (items : List (Except String (DecodedChunk T))) (m : M) : Except (BatchError E) M :=
  processWaves allowance tiles run rounds ⟨items, 0, 0⟩ m

end Schedule

end RasterH3.Agg
