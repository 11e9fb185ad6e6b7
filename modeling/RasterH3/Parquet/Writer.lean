import Mathlib.Order.BoundedOrder.Basic
import Mathlib.Order.Lattice
import Mathlib.Data.List.Basic

/-!
# Row group buffers

A buffer collects the columns of a row group, one vector for each, and is used again after
it was written. Which vectors there are depends on two options. Sorting computes one
permutation from the cells and applies it to every vector on its own.

A geometry stands for its WKB bytes and is the points that they spell, in their order; what
cells look like is a parameter, and so are the statistics of an accumulator.

There is one buffer for the continuous rows and one for the categorical ones, with the same
operations. The pipeline takes a record of these operations, so that it is written once.
Sorting by taking values out of a vector and sorting by copying them are kept apart as in
the source, although they give the same for a permutation.
-/

namespace RasterH3.Parquet

/-- What the cell library says of a cell index. -/
structure Cells (F : Type) where
  Cell : Type
  tryFrom : UInt64 → Option Cell
  toWkb : Cell → List (F × F)
  latLng : Cell → F × F
  hex : UInt64 → List UInt8

inductive ParquetColumn (F : Type) where
  | int64 (values : List Int64)
  | double (values : List F)
  | byteArray (values : List (List UInt8))
  | geometry (values : List (List (F × F)))

/-- `should_omit_redundant_columns` and `geoparquet`. -/
structure BufferOptions where
  compact : Bool
  geoparquet : Bool

/-- `[min_x, min_y, max_x, max_y]`. -/
structure Bounds (F : Type) where
  minX : F
  minY : F
  maxX : F
  maxY : F

namespace Bounds

variable {F : Type} [LinearOrder F]

/-- `EMPTY_BOUNDS`: any point extends them. -/
def empty [OrderTop F] [OrderBot F] : Bounds F := ⟨⊤, ⊤, ⊥, ⊥⟩

/-- One point of the loop of `extend_wkb_bounds`. -/
def extend (b : Bounds F) (p : F × F) : Bounds F :=
  ⟨min b.minX p.1, min b.minY p.2, max b.maxX p.1, max b.maxY p.2⟩

def extendWkb (b : Bounds F) (wkb : List (F × F)) : Bounds F := wkb.foldl extend b

/-- The closure that the writer thread maps over its bounding box. -/
def union (a b : Bounds F) : Bounds F :=
  ⟨min a.minX b.minX, min a.minY b.minY, max a.maxX b.maxX, max a.maxY b.maxY⟩

/-- `(b[0] <= b[2]).then_some(b)`. -/
def nonEmpty (b : Bounds F) : Option (Bounds F) := if b.minX ≤ b.maxX then some b else none

end Bounds

/-! ## Sorting -/

/-- `sort_unstable_by_key` on the indices: any permutation that sorts them. -/
def UnstableSort : Type :=
  { perm : List Int64 → List Nat // ∀ keys, (perm keys).Perm (List.range keys.length) ∧
      (perm keys).Pairwise fun i j => keys.getD i 0 ≤ keys.getD j 0 }

def computeSortPermutation (sort : UnstableSort) (h3Indices : List Int64) : Option (List Nat) :=
  if h3Indices.length ≤ 1 then none
  else if h3Indices.Pairwise (· ≤ ·) then none
  else some (sort.1 h3Indices)

def reorderByPerm {T : Type} [Inhabited T] (vec : List T) (perm : List Nat) : List T :=
  perm.map fun i => vec.getD i default

/-- What is taken leaves a default behind. -/
def reorderByPermTake {T : Type} [Inhabited T] : List T → List Nat → List T
  | _, [] => []
  | vec, i :: perm => vec.getD i default :: reorderByPermTake (vec.set i default) perm

/-! ## The continuous buffer -/

structure MultiRecord (A : Type) where
  h3Index : UInt64
  accumulator : A

structure ContinuousStats (A F : Type) where
  min : A → F
  max : A → F
  sum : A → F
  mean : A → F
  count : A → F

structure ContinuousRowGroupBuffer (F : Type) where
  options : BufferOptions
  h3Indices : List Int64
  geometries : List (List (F × F))
  geometryBounds : Bounds F
  minValues : List F
  maxValues : List F
  sumValues : List F
  avgValues : List F
  pixelCounts : List F
  h3Hexes : List (List UInt8)
  lats : List F
  lngs : List F

namespace ContinuousRowGroupBuffer

variable {A F : Type} [LinearOrder F] [OrderTop F] [OrderBot F] [Inhabited F]

def withCapacityAndOptions (options : BufferOptions) : ContinuousRowGroupBuffer F where
  options := options
  h3Indices := []
  geometries := []
  geometryBounds := .empty
  minValues := []
  maxValues := []
  sumValues := []
  avgValues := []
  pixelCounts := []
  h3Hexes := []
  lats := []
  lngs := []

/-- A cell that the library rejects has an empty geometry and stands at zero. -/
def pushRecord [Zero F] (cells : Cells F) (stats : ContinuousStats A F)
    (b : ContinuousRowGroupBuffer F) (record : MultiRecord A) : ContinuousRowGroupBuffer F :=
  let acc := record.accumulator
  let b := { b with h3Indices := b.h3Indices ++ [record.h3Index.toInt64] }
  let b :=
    if b.options.geoparquet then
      match cells.tryFrom record.h3Index with
      | some cell =>
          let wkb := cells.toWkb cell
          { b with
            geometryBounds := b.geometryBounds.extendWkb wkb
            geometries := b.geometries ++ [wkb] }
      | none => { b with geometries := b.geometries ++ [[]] }
    else b
  let b := { b with
    minValues := b.minValues ++ [stats.min acc]
    maxValues := b.maxValues ++ [stats.max acc]
    sumValues := b.sumValues ++ [stats.sum acc]
    avgValues := b.avgValues ++ [stats.mean acc]
    pixelCounts := b.pixelCounts ++ [stats.count acc] }
  if b.options.compact = false then
    let b := { b with h3Hexes := b.h3Hexes ++ [cells.hex record.h3Index] }
    match cells.tryFrom record.h3Index with
    | some cell =>
        let ll := cells.latLng cell
        { b with lats := b.lats ++ [ll.1], lngs := b.lngs ++ [ll.2] }
    | none => { b with lats := b.lats ++ [0], lngs := b.lngs ++ [0] }
  else b

def len (b : ContinuousRowGroupBuffer F) : Nat := b.h3Indices.length

def bounds (b : ContinuousRowGroupBuffer F) : Option (Bounds F) := b.geometryBounds.nonEmpty

def clear (b : ContinuousRowGroupBuffer F) : ContinuousRowGroupBuffer F :=
  let b := { b with h3Indices := [] }
  let b := if b.options.geoparquet then { b with geometries := [], geometryBounds := .empty } else b
  let b := { b with
    minValues := []
    maxValues := []
    sumValues := []
    avgValues := []
    pixelCounts := [] }
  if b.options.compact = false then { b with h3Hexes := [], lats := [], lngs := [] } else b

def sortByH3Index (sort : UnstableSort) (b : ContinuousRowGroupBuffer F) :
    ContinuousRowGroupBuffer F :=
  match computeSortPermutation sort b.h3Indices with
  | none => b
  | some perm =>
      let b := { b with h3Indices := reorderByPerm b.h3Indices perm }
      let b :=
        if b.options.geoparquet then { b with geometries := reorderByPermTake b.geometries perm }
        else b
      let b :=
        if b.options.compact = false then { b with h3Hexes := reorderByPermTake b.h3Hexes perm }
        else b
      let b := { b with
        minValues := reorderByPerm b.minValues perm
        maxValues := reorderByPerm b.maxValues perm
        sumValues := reorderByPerm b.sumValues perm
        avgValues := reorderByPerm b.avgValues perm
        pixelCounts := reorderByPerm b.pixelCounts perm }
      if b.options.compact = false then
        { b with lats := reorderByPerm b.lats perm, lngs := reorderByPerm b.lngs perm }
      else b

/-- The columns in the order of the schema. -/
def flushToRowGroup (b : ContinuousRowGroupBuffer F) : List (ParquetColumn F) :=
  [.int64 b.h3Indices] ++
    (if b.options.compact = false then [.byteArray b.h3Hexes] else []) ++
    (if b.options.geoparquet then [.geometry b.geometries] else []) ++
    [.double b.minValues, .double b.maxValues, .double b.sumValues, .double b.avgValues,
      .double b.pixelCounts] ++
    (if b.options.compact = false then [.double b.lats, .double b.lngs] else [])

end ContinuousRowGroupBuffer

/-! ## The categorical buffer -/

structure CategoricalStats (A F : Type) where
  majority : A → Int64 × F × F
  totalCount : A → F
  uniqueClasses : A → Nat
  shannonEntropy : A → F

structure CategoricalRowGroupBuffer (F : Type) where
  options : BufferOptions
  h3Indices : List Int64
  geometries : List (List (F × F))
  geometryBounds : Bounds F
  majorities : List Int64
  fractions : List F
  pixelCounts : List F
  distinctClasses : List Int64
  entropies : List F
  h3Hexes : List (List UInt8)
  lats : List F
  lngs : List F

namespace CategoricalRowGroupBuffer

variable {A F : Type} [LinearOrder F] [OrderTop F] [OrderBot F] [Inhabited F]

def withCapacityAndOptions (options : BufferOptions) : CategoricalRowGroupBuffer F where
  options := options
  h3Indices := []
  geometries := []
  geometryBounds := .empty
  majorities := []
  fractions := []
  pixelCounts := []
  distinctClasses := []
  entropies := []
  h3Hexes := []
  lats := []
  lngs := []

def pushRecord [Zero F] (cells : Cells F) (stats : CategoricalStats A F)
    (b : CategoricalRowGroupBuffer F) (record : MultiRecord A) : CategoricalRowGroupBuffer F :=
  let acc := record.accumulator
  let majority := stats.majority acc
  let b := { b with h3Indices := b.h3Indices ++ [record.h3Index.toInt64] }
  let b :=
    if b.options.geoparquet then
      match cells.tryFrom record.h3Index with
      | some cell =>
          let wkb := cells.toWkb cell
          { b with
            geometryBounds := b.geometryBounds.extendWkb wkb
            geometries := b.geometries ++ [wkb] }
      | none => { b with geometries := b.geometries ++ [[]] }
    else b
  let b := { b with
    majorities := b.majorities ++ [majority.1]
    fractions := b.fractions ++ [majority.2.2]
    pixelCounts := b.pixelCounts ++ [stats.totalCount acc]
    distinctClasses := b.distinctClasses ++ [Int64.ofNat (stats.uniqueClasses acc)]
    entropies := b.entropies ++ [stats.shannonEntropy acc] }
  if b.options.compact = false then
    let b := { b with h3Hexes := b.h3Hexes ++ [cells.hex record.h3Index] }
    match cells.tryFrom record.h3Index with
    | some cell =>
        let ll := cells.latLng cell
        { b with lats := b.lats ++ [ll.1], lngs := b.lngs ++ [ll.2] }
    | none => { b with lats := b.lats ++ [0], lngs := b.lngs ++ [0] }
  else b

def len (b : CategoricalRowGroupBuffer F) : Nat := b.h3Indices.length

def bounds (b : CategoricalRowGroupBuffer F) : Option (Bounds F) := b.geometryBounds.nonEmpty

def clear (b : CategoricalRowGroupBuffer F) : CategoricalRowGroupBuffer F :=
  let b := { b with h3Indices := [] }
  let b := if b.options.geoparquet then { b with geometries := [], geometryBounds := .empty } else b
  let b := { b with
    majorities := []
    fractions := []
    pixelCounts := []
    distinctClasses := []
    entropies := [] }
  if b.options.compact = false then { b with h3Hexes := [], lats := [], lngs := [] } else b

def sortByH3Index (sort : UnstableSort) (b : CategoricalRowGroupBuffer F) :
    CategoricalRowGroupBuffer F :=
  match computeSortPermutation sort b.h3Indices with
  | none => b
  | some perm =>
      let b := { b with h3Indices := reorderByPerm b.h3Indices perm }
      let b :=
        if b.options.geoparquet then { b with geometries := reorderByPermTake b.geometries perm }
        else b
      let b :=
        if b.options.compact = false then { b with h3Hexes := reorderByPermTake b.h3Hexes perm }
        else b
      let b := { b with
        majorities := reorderByPerm b.majorities perm
        fractions := reorderByPerm b.fractions perm
        pixelCounts := reorderByPerm b.pixelCounts perm
        distinctClasses := reorderByPerm b.distinctClasses perm
        entropies := reorderByPerm b.entropies perm }
      if b.options.compact = false then
        { b with lats := reorderByPerm b.lats perm, lngs := reorderByPerm b.lngs perm }
      else b

def flushToRowGroup (b : CategoricalRowGroupBuffer F) : List (ParquetColumn F) :=
  [.int64 b.h3Indices] ++
    (if b.options.compact = false then [.byteArray b.h3Hexes] else []) ++
    (if b.options.geoparquet then [.geometry b.geometries] else []) ++
    [.int64 b.majorities, .double b.fractions, .double b.pixelCounts, .int64 b.distinctClasses,
      .double b.entropies] ++
    (if b.options.compact = false then [.double b.lats, .double b.lngs] else [])

end CategoricalRowGroupBuffer

end RasterH3.Parquet
