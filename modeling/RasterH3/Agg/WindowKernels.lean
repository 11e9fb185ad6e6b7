import RasterH3.Agg.Engines
import RasterH3.Agg.WindowSchedule

/-!
# The kernels of a window

A worker walks its window with the engine of the scan: directly if a value is a pixel, else
with what the kernel reads of the values of a pixel. A window without data is left out if it
would be walked directly.

What the chunks of all tiles are walked with is in `ScanView`. Which points a tile owns is a
parameter, and nodata markers are those of the pixel type already.

What a kernel reads of the values of a pixel depends on how many there are. A single band is
handed to the engine as it is, and the engine calibrates; interleaved bands are calibrated
one by one and reduced, to a band or to a spectral index, before the engine sees a number. A
class is that of one band and is not calibrated. Workers are pure functions here: a map for
every resolution and the number of samples that had no point.
-/

namespace RasterH3.Agg

open Raster

variable {F : Type} [Field F] [LinearOrder F] {n : Nat} {T S A : Type} {t : PixelType}

structure WindowKernel (F T S A : Type) [Field F] [LinearOrder F] (n : Nat) where
  engine : WalkContext F n → ScanlineEngine F T S A
  /-- Whether a value is a pixel. -/
  isDirect : WalkContext F n → Bool
  read : WalkContext F n → List T → Option S
  allNodata : List T → Bool
  direct_le : ∀ ctx, isDirect ctx = true → ctx.samplesPerPixel ≤ 1

section Process

variable [FloorRing F] (kernel : WindowKernel F T S A n)

def processSliceIntoMaps (ctx : WalkContext F n) (slice : List T) (maps : Fin n → CellMap A) :
    (Fin n → CellMap A) × Nat :=
  if kernel.isDirect ctx then walkDirect ctx (kernel.engine ctx) slice kernel.allNodata maps
  else walkInterleaved ctx (kernel.engine ctx) slice (kernel.read ctx) maps

/-- The maps of a window, and the samples that failed. -/
def processBorrowedInto (ctx : WalkContext F n) (samples : List T) (maps : Fin n → CellMap A) :
    (Fin n → CellMap A) × Nat :=
  if kernel.isDirect ctx && kernel.allNodata samples then (maps, 0)
  else processSliceIntoMaps kernel ctx samples maps

end Process

/-! ## The two kernels -/

structure ContinuousOptions where
  /-- Counted from one, and read if there is no formula. -/
  band : Nat
  spectralFormula : Option SpectralFormula
  trackQuantiles : Bool

theorem direct_of_formula {samplesPerPixel : Nat} {formula : Option SpectralFormula}
    (h : decide (samplesPerPixel ≤ 1 ∧ formula.isNone = true) = true) : samplesPerPixel ≤ 1 :=
  (of_decide_eq_true h).1

/-- Interleaved pixels are calibrated band by band, those of a single band by the engine. -/
def continuousKernel [Sample F] (special : ExactFloat F → F) [DecidableEq (Pixel F t)]
    (options : ContinuousOptions) (nativeNodata : Option (Pixel F t)) :
    WindowKernel F (Pixel F t) F (H3Accumulator F (Extended F)) n where
  engine ctx :=
    ContinuousEngine.engine special ⟨nativeNodata, options.trackQuantiles, ctx.scaling 1⟩
  isDirect ctx := ctx.samplesPerPixel ≤ 1 ∧ options.spectralFormula.isNone = true
  read ctx px := pixelValue special ctx px nativeNodata options.band options.spectralFormula
  allNodata slice := isSliceAllNodata slice nativeNodata
  direct_le := fun _ => direct_of_formula

/-- The class of a pixel is that of the selected band. -/
def categoricalKernel [IsStrictOrderedRing F] [FloorRing F] [DecidableEq (Pixel F t)] (band : Nat)
    (remapper : Option CategoryRemapper) (nativeNodata : Option (Pixel F t)) :
    WindowKernel F (Pixel F t) Int64 (CategoricalAccumulator F) n where
  engine _ := CategoricalEngine.engine ⟨nativeNodata, remapper⟩
  isDirect ctx := ctx.samplesPerPixel ≤ 1
  read ctx px :=
    if ctx.isTransparent pixelZero px then none
    else
      (px[min (band - 1) (ctx.samplesPerPixel - 1)]?).bind
        (CategoricalEngine.resolveCategory ⟨nativeNodata, remapper⟩)
  allNodata slice := isSliceAllNodata slice nativeNodata
  direct_le := fun _ => of_decide_eq_true

/-! ## The windows of a scan -/

/-- What the kernel is told of a tile. -/
structure ScanTile (F T : Type) extends TileReader where
  crs : CrsTransformer F
  gt : GeoTransform F
  nodata : Option T
  bandScaling : List (BandScaling F)
  alphaSample : Option Nat

/-- What does not change from window to window. -/
structure ScanView (F T : Type) [Field F] [LinearOrder F] (n : Nat) where
  tiles : Nat → ScanTile F T
  index : PointIndex F n
  sampling : SamplingPattern F
  bbox : Option (Bbox F)
  /-- Takes the place of the markers of the tiles. -/
  nodata : Option T
  applyScaleOffset : Bool
  owns : Nat → F → F → Bool

namespace ScanView

variable (v : ScanView F T n)

def context (job : WindowJob T) : WalkContext F n where
  chunk := job.bounds
  index := v.index
  crs := (v.tiles job.tileIdx).crs
  gt := (v.tiles job.tileIdx).gt
  sampling := v.sampling
  bbox := v.bbox
  stride := job.stride
  samplesPerPixel := (v.tiles job.tileIdx).samplesPerPixel
  owner := if job.overlap then some (v.owns job.tileIdx) else none
  bandScaling := if v.applyScaleOffset then (v.tiles job.tileIdx).bandScaling else []
  alphaSample := (v.tiles job.tileIdx).alphaSample

/-- What a worker makes of its window. -/
def process [FloorRing F] (kernel : Option T → WindowKernel F T S A n) (job : WindowJob T) :
    (Fin n → CellMap A) × Nat :=
  processBorrowedInto (kernel (v.nodata.or (v.tiles job.tileIdx).nodata)) (v.context job)
    job.samples fun _ => []

end ScanView

end RasterH3.Agg
