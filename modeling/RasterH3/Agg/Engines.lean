import RasterH3.Agg.Majority
import RasterH3.Agg.Remap
import RasterH3.Agg.Simd
import RasterH3.Agg.Walker

/-!
# The two accumulator engines

The continuous engine sums the calibrated values of a span with the kernel of its pixel
type, the categorical one adds a span class by class, in one step if all of its pixels are
the same. Interleaved pixels are reduced to a band or a spectral index first.

Values that are not finite are those of the pixel types; arithmetic on finite values is
exact. So are the pixels of a slice told apart by their values, and NaN has one pattern.

An engine is a record of functions, one for each method of the trait, and the walk is
written over such a record. The two engines are its two values. They keep the distinction
that the source makes between a sample, a span and a span for several resolutions at once,
although all three come to the same; that they do is a theorem and not a definition.
-/

namespace RasterH3.Agg

open Raster

variable {F : Type} [Field F] [LinearOrder F] {n : Nat} {t : PixelType}

/-! ## Continuous values -/

theorem fits_nil {K V : Type} (capacity : Nat) : ([] : List (K × V)).length ≤ capacity :=
  Nat.zero_le _

/-- No entries, and the capacity that there was. -/
def clearTable {K V : Type} (table : HashTable.Table K V) : HashTable.Table K V :=
  ⟨[], table.capacity, List.nodup_nil, fits_nil _, table.isCapacity⟩

/-- Reset the state while keeping the capacity of the tables. -/
def QuantileSketch.clear (q : QuantileSketch F) : QuantileSketch F :=
  { zeroCount := 0, posBins := clearTable q.posBins, negBins := clearTable q.negBins,
    totalCount := 0 }

/-- Reset the statistics and the sketch. -/
def H3Accumulator.clear (acc : H3Accumulator F (Extended F)) : H3Accumulator F (Extended F) :=
  { sum := 0
    count := 0
    min := Extremes.infinity
    max := Extremes.negInfinity
    m2 := 0
    sumW2 := 0
    quantiles := acc.quantiles.map QuantileSketch.clear }

def Extended.isFinite (v : Extended F) : Bool :=
  match v with
  | some (some _) => true
  | _ => false

structure ContinuousEngine (F : Type) (t : PixelType) where
  nativeNodata : Option (Pixel F t)
  trackQuantiles : Bool
  /-- Of the pixels of a single band. -/
  scaling : BandScaling F

namespace ContinuousEngine

variable [Sample F] (special : ExactFloat F → F) (e : ContinuousEngine F t)

def getSample (pixel : Pixel F t) : Option F :=
  if isValidPixel pixel e.nativeNodata then
    let value := e.scaling.apply (toF64Val special pixel)
    if Sample.isFinite value then some value else none
  else none

/-- The kernel sums stored values, and its affine image is used if that is finite. -/
def spanAccumulator (slice : List (Pixel F t)) : H3Accumulator F (Extended F) :=
  let spanAcc := accumulateSpan special slice e.nativeNodata
  if e.scaling.isIdentity then spanAcc
  else
    let spanAcc := spanAcc.applyAffine e.scaling.scale e.scaling.offset
    if 0 < spanAcc.count ∧ !(Sample.isFinite spanAcc.sum && spanAcc.min.isFinite &&
        spanAcc.max.isFinite && Sample.isFinite spanAcc.m2) then
      slice.foldl (fun acc v => ((e.getSample special v).map acc.update).getD acc) .empty
    else spanAcc

def sketchValue (value : F) (acc : H3Accumulator F (Extended F)) : H3Accumulator F (Extended F) :=
  { acc with quantiles := acc.quantiles.map fun q => q.update value 1 }

/-- The sketch sees the readable pixels of a span. -/
def updateSketch (slice : List (Pixel F t)) (acc : H3Accumulator F (Extended F)) :
    H3Accumulator F (Extended F) :=
  { acc with
    quantiles := acc.quantiles.map fun q => slice.foldl (fun q v =>
      ((e.getSample special v).map fun value => q.update value 1).getD q) q }

def addSpan (acc : H3Accumulator F (Extended F)) (slice : List (Pixel F t)) :
    H3Accumulator F (Extended F) :=
  let spanAcc := e.spanAccumulator special slice
  if 0 < spanAcc.count then
    let acc := acc.merge spanAcc
    if e.trackQuantiles then e.updateSketch special slice acc else acc
  else acc

/-- The span is accumulated once for all resolutions. -/
def addSpanMulti {n : Nat} (accs : Fin n → H3Accumulator F (Extended F))
    (slice : List (Pixel F t)) : Fin n → H3Accumulator F (Extended F) :=
  let spanAcc := e.spanAccumulator special slice
  if 0 < spanAcc.count then
    let accs := fun i => (accs i).merge spanAcc
    if e.trackQuantiles then
      slice.foldl (fun accs v => ((e.getSample special v).map fun value i =>
        sketchValue value (accs i)).getD accs) accs
    else accs
  else accs

/-- The engine of single-band pixels. -/
def engine : ScanlineEngine F (Pixel F t) F (H3Accumulator F (Extended F)) where
  combineSampleWeights := true
  newAcc := if e.trackQuantiles then .withQuantiles else .empty
  clearAcc := H3Accumulator.clear
  hasSamples acc := 0 < acc.count
  mergeAcc := H3Accumulator.merge
  accumulateSpan := e.addSpan special
  accumulateSpanMulti := e.addSpanMulti special
  getSample := e.getSample special
  updateSample acc sample weight :=
    if weight = 1 then acc.update sample else acc.updateWeighted sample weight

end ContinuousEngine

/-! ## Interleaved pixels -/

inductive SpectralFormula where
  | ndvi (nirBand redBand : Nat)
  | ndwi (greenBand nirBand : Nat)
  | nbr (nirBand swirBand : Nat)
  | evi (nirBand redBand blueBand : Nat)
  deriving DecidableEq, Repr

theorem IntType.zero_mem (t : IntType) : t.min ≤ 0 ∧ 0 ≤ t.max := by
  cases t <;> decide

/-- The zero of a pixel type, `T::default`. -/
def pixelZero : {t : PixelType} → Pixel F t
  | .f32 | .f64 => ExactFloat.finite (0 : F)
  | .int t => ⟨0, t.zero_mem⟩

section PixelValue

variable [Sample F] (special : ExactFloat F → F) [DecidableEq (Pixel F t)]

/-- The calibrated value of a band, if it has one. -/
def bandValue (ctx : WalkContext F n) (px : List (Pixel F t)) (nodata : Option (Pixel F t))
    (band : Nat) : Option F :=
  let b := min (band - 1) (px.length - 1)
  (px[b]?).bind fun v =>
    if isValidPixel v nodata then
      some ((ctx.scaling (b + 1)).apply (toF64Val special v)) |>.filter Sample.isFinite
    else none

/-- A quotient, unless its denominator is about zero. -/
def ratio (num den : F) : Option F :=
  if Sample.isFinite num ∧ Sample.isFinite den ∧ 1 / 10 ^ 12 < |den| then
    some (num / den) |>.filter Sample.isFinite
  else none

/-- Reduce the values of a pixel to the selected band or spectral index. -/
def pixelValue (ctx : WalkContext F n) (px : List (Pixel F t)) (nodata : Option (Pixel F t))
    (band : Nat) (formula : Option SpectralFormula) : Option F :=
  if ctx.isTransparent pixelZero px then none
  else
    let get := bandValue special ctx px nodata
    match formula with
    | some (.ndvi nirBand redBand) => do
        let nir ← get nirBand
        let red ← get redBand
        ratio (nir - red) (nir + red)
    | some (.ndwi greenBand nirBand) => do
        let green ← get greenBand
        let nir ← get nirBand
        ratio (green - nir) (green + nir)
    | some (.nbr nirBand swirBand) => do
        let nir ← get nirBand
        let swir ← get swirBand
        ratio (nir - swir) (nir + swir)
    | some (.evi nirBand redBand blueBand) => do
        let nir ← get nirBand
        let red ← get redBand
        let blue ← get blueBand
        ratio (2.5 * (nir - red)) (nir + 6 * red - 7.5 * blue + 1)
    | none => get band

end PixelValue

/-! ## Classes -/

/-- Half away from zero, and saturating at the ends of `i64`. -/
def roundToCategory [FloorRing F] (v : F) : Int64 :=
  let rounded := if 0 ≤ v then ⌊v + 1 / 2⌋ else ⌈v - 1 / 2⌉
  Int64.ofInt (max (-2 ^ 63) (min rounded (2 ^ 63 - 1)))

/-- The class of a native value, if it is in range. -/
def toCategory [FloorRing F] : {t : PixelType} → Pixel F t → Option Int64
  | .f32, v | .f64, v =>
      match (v : ExactFloat F) with
      | .finite v => some (roundToCategory v)
      | _ => none
  | .int .u64, v => if v.val ≤ 2 ^ 63 - 1 then some (Int64.ofInt v.val) else none
  | .int _, v => some (Int64.ofInt v.val)

def sameFloatBits : ExactFloat F → ExactFloat F → Bool
  | .nan, .nan => true
  | v, w => ExactFloat.beq v w

/-- Whether two values have the same bits. -/
def sameBits : {t : PixelType} → Pixel F t → Pixel F t → Bool
  | .f32, v, w | .f64, v, w => sameFloatBits (F := F) v w
  | .int _, v, w => v.val = w.val

def sameValue : {t : PixelType} → Pixel F t → Pixel F t → Bool
  | .f32, v, w | .f64, v, w => ExactFloat.beq (F := F) v w
  | .int _, v, w => v.val = w.val

/-- The values after the first that `is_uniform` compares in one step. -/
def uniformChunk : PixelType → Nat
  | .int .u8 | .int .i8 => 32
  | .int .u16 | .int .i16 => 16
  | _ => 8

/-- All values of a slice are its first. The bits of a chunk are compared first, and only
if they differ its values. -/
def isUniform (slice : List (Pixel F t)) : Bool :=
  match slice with
  | [] => true
  | first :: rest =>
      let chunks := Lanes.asChunks (uniformChunk t) rest
      (chunks.1.all fun chunk =>
        (List.ofFn chunk).all (sameBits · first) || (List.ofFn chunk).all (sameValue · first)) &&
      chunks.2.all (sameValue · first)

structure CategoricalEngine (F : Type) (t : PixelType) where
  nativeNodata : Option (Pixel F t)
  remapper : Option CategoryRemapper

namespace CategoricalEngine

variable [IsStrictOrderedRing F] [FloorRing F] (e : CategoricalEngine F t)

def resolveCategory (val : Pixel F t) : Option Int64 :=
  if isValidPixel val e.nativeNodata then
    (toCategory val).bind fun rawCat =>
      match e.remapper with
      | some remapper => remapper.remap rawCat
      | none => some rawCat
  else none

/-- The classes of a span that are in the same run, with the length of the run. -/
def runLengths (slice : List (Pixel F t)) (currCat : Option Int64) (currCatCount : F) :
    List (Int64 × F) :=
  match slice with
  | [] => (currCat.map fun lastCat => (lastCat, currCatCount)).toList.filter fun p => 0 < p.2
  | valRaw :: slice =>
      match e.resolveCategory valRaw with
      | none => runLengths slice currCat currCatCount
      | some cat =>
          if some cat = currCat then runLengths slice currCat (currCatCount + 1)
          else
            (currCat.map fun prev => (prev, currCatCount)).toList ++ runLengths slice (some cat) 1

/-- What a span is added as, in order. -/
def spanUpdates (slice : List (Pixel F t)) : List (Int64 × F) :=
  match slice with
  | [] => []
  | first :: _ =>
      if isUniform slice then
        ((e.resolveCategory first).map fun cat => (cat, (slice.length : F))).toList
      else e.runLengths slice none 0

/-- The engine of single-band pixels. -/
def engine : ScanlineEngine F (Pixel F t) Int64 (CategoricalAccumulator F) where
  combineSampleWeights := true
  newAcc := .new
  clearAcc _ := .new
  hasSamples acc := 0 < acc.totalCount
  mergeAcc := CategoricalAccumulator.merge
  accumulateSpan acc slice := acc.updateAll (e.spanUpdates slice)
  accumulateSpanMulti accs slice i := (accs i).updateAll (e.spanUpdates slice)
  getSample := e.resolveCategory
  updateSample acc sample weight := acc.updateWeighted sample weight

end CategoricalEngine

end RasterH3.Agg
