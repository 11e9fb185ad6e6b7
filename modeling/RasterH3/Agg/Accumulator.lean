import RasterH3.Agg.Spill
import RasterH3.Lib.HashTable

/-!
# The continuous accumulator and its quantile sketch

`H3Accumulator` keeps Welford's running moments of a cell and, when asked, a
log-binned sketch of the distribution. The arithmetic is that of a number type
`F`, with the extremes `min` and `max` in a type `M` that has the infinities
they start from: for the program both are `f64`, for a result in exact
arithmetic `F` is an ordered field and `M` adds its two ends. The operators are
written out as the source has them, so nothing here depends on which.
-/

namespace RasterH3.Agg

open HashTable

/-- `f64` as the accumulators see it, beyond its operators. The bucket of a
positive value is computed from its bits, so it is a parameter. -/
class Sample (F : Type) where
  isFinite : F → Bool
  abs : F → F
  zeroThreshold : F
  keyForPositive : F → Int32

/-- The extremes of a cell, from empty. -/
class Extremes (F : outParam Type) (M : Type) where
  ofValue : F → M
  infinity : M
  negInfinity : M
  min : M → M → M
  max : M → M → M

/-- `(i32, f64)` and `(i64, f64)` both take sixteen bytes. -/
def entryBytes : Nat := 16

/-- `table_bytes`: the charge for a table of the given capacity. -/
def tableBytes (capacity : Nat) : Nat :=
  if capacity = 0 then 0 else (capacity + 1) * (2 * (entryBytes + 1)) + 64

structure QuantileSketch (F : Type) where
  zeroCount : F
  posBins : Table Int32 F
  negBins : Table Int32 F
  totalCount : F

structure H3Accumulator (F M : Type) where
  sum : F
  count : F
  min : M
  max : M
  m2 : F
  sumW2 : F
  quantiles : Option (QuantileSketch F)

section Arithmetic

variable {F M : Type} [Zero F] [One F] [Add F] [Sub F] [Mul F] [Div F] [BEq F]
  [LE F] [DecidableLE F] [LT F] [DecidableLT F] [Sample F] [Extremes F M]

namespace QuantileSketch

def new : QuantileSketch F :=
  { zeroCount := 0, posBins := .empty, negBins := .empty, totalCount := 0 }

def update (q : QuantileSketch F) (val weight : F) : QuantileSketch F :=
  if weight ≤ 0 ∨ Sample.isFinite val = false then q
  else
    let q := { q with totalCount := q.totalCount + weight }
    if Sample.abs val ≤ Sample.zeroThreshold then
      { q with zeroCount := q.zeroCount + weight }
    else if 0 < val then
      { q with
        posBins := q.posBins.upsert (Sample.keyForPositive val) 0 (· + weight) }
    else
      { q with
        negBins := q.negBins.upsert (Sample.keyForPositive (0 - val)) 0 (· + weight) }

/-- `*bins.entry(k).or_insert(0.0) += w` for every bin of `other`. -/
def addBins (bins other : Table Int32 F) : Table Int32 F :=
  bins.upsertAll (fun _ => 0) (fun w x => x + w) other.entries

def merge (q other : QuantileSketch F) : QuantileSketch F :=
  if other.totalCount == 0 then q
  else if q.totalCount == 0 then
    -- A cloned table keeps its capacity.
    { zeroCount := other.zeroCount
      posBins := other.posBins
      negBins := other.negBins
      totalCount := other.totalCount }
  else
    { zeroCount := q.zeroCount + other.zeroCount
      totalCount := q.totalCount + other.totalCount
      posBins := addBins q.posBins other.posBins
      negBins := addBins q.negBins other.negBins }

end QuantileSketch

namespace H3Accumulator

/-- `H3Accumulator::default`. -/
def empty : H3Accumulator F M :=
  { sum := 0
    count := 0
    min := Extremes.infinity
    max := Extremes.negInfinity
    m2 := 0
    sumW2 := 0
    quantiles := none }

def withQuantiles : H3Accumulator F M :=
  { (empty : H3Accumulator F M) with quantiles := some .new }

def fromWeightedStats (sum count sumW2 : F) (min max : M) (m2 : F) : H3Accumulator F M :=
  { sum, count, min, max, m2, sumW2, quantiles := none }

/-- `from_stats`: unit weights, so `sum_w2` is the count. -/
def fromStats (sum count : F) (min max : M) (m2 : F) : H3Accumulator F M :=
  fromWeightedStats sum count count min max m2

def update (acc : H3Accumulator F M) (val : F) : H3Accumulator F M :=
  if Sample.isFinite val = false then acc
  else
    let acc : H3Accumulator F M :=
      { acc with quantiles := acc.quantiles.map fun q => q.update val 1 }
    if acc.count == 0 then
      { acc with
        sum := val
        count := 1
        min := Extremes.ofValue val
        max := Extremes.ofValue val
        m2 := 0
        sumW2 := 1 }
    else
      let delta := val - acc.sum / acc.count
      let sum := acc.sum + val
      let count := acc.count + 1
      let delta2 := val - sum / count
      { acc with
        sum, count
        sumW2 := acc.sumW2 + 1
        m2 := acc.m2 + delta * delta2
        min := Extremes.min acc.min (Extremes.ofValue val)
        max := Extremes.max acc.max (Extremes.ofValue val) }

def updateWeighted (acc : H3Accumulator F M) (val weight : F) : H3Accumulator F M :=
  if ¬(Sample.isFinite weight ∧ 0 < weight) ∨ Sample.isFinite val = false then acc
  else
    let acc : H3Accumulator F M :=
      { acc with quantiles := acc.quantiles.map fun q => q.update val weight }
    if acc.count == 0 then
      { acc with
        sum := val * weight
        count := weight
        min := Extremes.ofValue val
        max := Extremes.ofValue val
        m2 := 0
        sumW2 := weight * weight }
    else
      let oldMean := acc.sum / acc.count
      let sum := acc.sum + val * weight
      let count := acc.count + weight
      let newMean := sum / count
      { acc with
        sum, count
        sumW2 := acc.sumW2 + weight * weight
        m2 := acc.m2 + weight * (val - oldMean) * (val - newMean)
        min := Extremes.min acc.min (Extremes.ofValue val)
        max := Extremes.max acc.max (Extremes.ofValue val) }

/-- What `merge` does to the sketch. An accumulator that has counted without a
sketch does not adopt one; an empty one does. -/
def mergeQuantiles (acc other : H3Accumulator F M) : Option (QuantileSketch F) :=
  match acc.quantiles, other.quantiles with
  | some q, some q' => some (q.merge q')
  | none, some q' => if acc.count == 0 then some q' else none
  | q, none => q

def merge (acc other : H3Accumulator F M) : H3Accumulator F M :=
  if other.count == 0 then acc
  else if acc.count == 0 then
    { other with quantiles := acc.mergeQuantiles other }
  else
    let n1 := acc.count
    let n2 := other.count
    let delta := other.sum / n2 - acc.sum / n1
    { sum := acc.sum + other.sum
      count := acc.count + other.count
      sumW2 := acc.sumW2 + other.sumW2
      m2 := acc.m2 + (other.m2 + delta * delta * (n1 * n2 / (n1 + n2)))
      min := Extremes.min acc.min other.min
      max := Extremes.max acc.max other.max
      quantiles := acc.mergeQuantiles other }

/-- The moments of `update_slice`: one pass for the sums and extremes, one for
the squared deviations from the mean. -/
def sliceStats (vals : List F) : H3Accumulator F M :=
  let vals := vals.filter Sample.isFinite
  let sum := vals.foldl (· + ·) 0
  let count := vals.foldl (fun n _ => n + 1) 0
  let mean := sum / count
  fromStats sum count
    (vals.foldl (fun m v => Extremes.min m (Extremes.ofValue v)) Extremes.infinity)
    (vals.foldl (fun m v => Extremes.max m (Extremes.ofValue v)) Extremes.negInfinity)
    (vals.foldl (fun m2 v => m2 + (v - mean) * (v - mean)) 0)

def updateSlice (acc : H3Accumulator F M) (vals : List F) : H3Accumulator F M :=
  if vals.isEmpty then acc
  else
    let acc : H3Accumulator F M :=
      { acc with
        quantiles := acc.quantiles.map fun q =>
          (vals.filter Sample.isFinite).foldl (fun q v => q.update v 1) q }
    let stats : H3Accumulator F M := sliceStats vals
    if stats.count == 0 then acc else acc.merge stats

end H3Accumulator

end Arithmetic

/-! ## Memory -/

namespace H3Accumulator

variable {F M : Type}

/-- `size_of::<H3Accumulator>()`: six numbers and a pointer. -/
def sizeOfSelf : Nat := 56

/-- `size_of::<QuantileSketch>()`: two numbers and two table headers. -/
def sizeOfSketch : Nat := 80

def heapBytes (acc : H3Accumulator F M) : Nat :=
  match acc.quantiles with
  | none => 0
  | some q => sizeOfSketch + tableBytes q.posBins.capacity + tableBytes q.negBins.capacity

def memoryBytes (acc : H3Accumulator F M) : Nat := sizeOfSelf + acc.heapBytes

end H3Accumulator

/-! ## Codec -/

section Codec

variable {F M : Type} [Zero F] [Bytes.Codec F] [Bytes.Codec M]

open Bytes.Codec in
/-- One table of a sketch: its length, then key and count of each bin. -/
def writeBins (bins : Table Int32 F) : List UInt8 :=
  Bytes.writeLe 8 bins.len ++
    bins.entries.flatMap fun p => Bytes.writeI32 p.1 ++ encode p.2

/-- The entry loop of `read_state`, into the list of what it inserts. -/
def readEntries {K V : Type} (readKey : List UInt8 → Option (K × List UInt8))
    (readValue : List UInt8 → Option (V × List UInt8)) :
    Nat → List UInt8 → Except SpillError (List (K × V) × List UInt8)
  | 0, input => .ok ([], input)
  | n + 1, input => do
      let (key, input) ← readExact readKey input
      let (value, input) ← readExact readValue input
      let (rest, input) ← readEntries readKey readValue n input
      return ((key, value) :: rest, input)

def readBins (limit : Usize) (input : List UInt8) :
    Except SpillError (Table Int32 F × List UInt8) := do
  let (n, input) ← count limit input
  let (entries, input) ← readEntries Bytes.readI32 Bytes.Codec.decode n input
  return (Table.empty.insertAll entries, input)

namespace H3Accumulator

open Bytes.Codec

def writeState (acc : H3Accumulator F M) : List UInt8 :=
  encode acc.sum ++ encode acc.count ++ encode acc.sumW2 ++ encode acc.min ++
    encode acc.max ++ encode acc.m2 ++
    match acc.quantiles with
    | none => Bytes.writeLe 8 0
    | some q =>
        Bytes.writeLe 8 1 ++ encode q.zeroCount ++ encode q.totalCount ++
          writeBins q.posBins ++ writeBins q.negBins

def readSketch (limit : Usize) (input : List UInt8) :
    Except SpillError (QuantileSketch F × List UInt8) := do
  let (zeroCount, input) ← readExact decode input
  let (totalCount, input) ← readExact decode input
  let (posBins, input) ← readBins limit input
  let (negBins, input) ← readBins limit input
  return ({ zeroCount, posBins, negBins, totalCount }, input)

def readState (limit : Usize) (input : List UInt8) :
    Except SpillError (H3Accumulator F M × List UInt8) := do
  let (sum, input) ← readExact decode input
  let (count, input) ← readExact decode input
  let (sumW2, input) ← readExact decode input
  let (min, input) ← readExact decode input
  let (max, input) ← readExact decode input
  let (m2, input) ← readExact decode input
  let acc := fromWeightedStats sum count sumW2 min max m2
  let (marker, input) ← readExact (Bytes.readLe 8) input
  let (acc, input) ← match marker with
    | 0 => pure (acc, input)
    | 1 => do
        let (q, input) ← readSketch limit input
        pure ({ acc with quantiles := some q }, input)
    | _ => throw .invalidMarker
  if limit.val < acc.memoryBytes then throw (.accumulatorExceeds "quantile")
  return (acc, input)

end H3Accumulator

end Codec

instance {F M : Type} [Zero F] [Add F] [Sub F] [Mul F] [Div F] [BEq F] [Extremes F M]
    [Bytes.Codec F] [Bytes.Codec M] : SpillAccumulator (H3Accumulator F M) where
  merge := H3Accumulator.merge
  heapBytes := H3Accumulator.heapBytes
  sizeOfSelf := H3Accumulator.sizeOfSelf
  writeState := H3Accumulator.writeState
  readState := H3Accumulator.readState

end RasterH3.Agg
