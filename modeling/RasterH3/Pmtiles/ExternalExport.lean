import RasterH3.Pmtiles.SortRun
import Mathlib.Data.List.Sort

/-!
# Exporting features in any order

Features come in any order and are handed to the tile builder north first. They
are buffered up to a budget; a full buffer is sorted and written out as a run,
and at the end the runs are merged through a heap that holds the first record of
each. If nothing was ever spilled, the buffer is sorted and handed on.

Which keys are cells, the latitude of a cell's centre and its resolution are the
grid library's business and are parameters. So is the sort: the library promises
a sorted permutation and leaves the order of equal elements open, and nothing
else may be assumed of it.
-/

namespace RasterH3.Pmtiles

open Agg (CellIndex)

structure Cells where
  /-- `CellIndex::try_from` accepts the key. -/
  isCell : CellIndex → Bool
  /-- The bits of the latitude of the centre. -/
  lat : CellIndex → UInt64
  resolution : CellIndex → UInt8

structure H3Feature where
  h3Index : CellIndex
  properties : List (String × MvtValue)
  /-- What the allocations of its strings take together. -/
  stringCapacity : Nat

/-! ## The order of records -/

/-- Where a float stands in the order of `total_cmp`. -/
def totalCmpKey (bits : UInt64) : Int :=
  if bits.toNat < 2 ^ 63 then bits.toNat else 2 ^ 63 - 1 - bits.toNat

def totalCmp (a b : UInt64) : Ordering := compare (totalCmpKey a) (totalCmpKey b)

/-- Latitude descending, then the cell ascending. -/
def SortRecord.order (r r' : SortRecord) : Ordering :=
  (totalCmp r'.lat r.lat).then (compare r.h3Index r'.h3Index)

/-- What `sort_unstable_by(SortRecord::order)` promises. -/
structure SortsUnstable (sort : List SortRecord → List SortRecord) : Prop where
  perm : ∀ records, (sort records).Perm records
  sorted : ∀ records, (sort records).Pairwise fun r r' => r.order r' ≠ .gt

structure MergeHead where
  record : SortRecord
  run : Nat

/-- Reversed, so that the record that sorts first is the maximum of the heap. -/
def MergeHead.cmp (h h' : MergeHead) : Ordering :=
  (h'.record.order h.record).then (compare h'.run h.run)

/-- The heap keeps its entries greatest first. -/
def heapPush (h : MergeHead) (heap : List MergeHead) : List MergeHead :=
  heap.orderedInsert (fun a b => a.cmp b ≠ .lt) h

/-! ## Buffering -/

structure ExternalFeatureExport where
  budgetBytes : Nat
  buffer : List SortRecord
  bufferBytes : Nat
  runs : List (List UInt8)
  keys : List String
  totalFeatures : Nat
  validFeatures : Nat

/-- Rough heap footprint: a record, its properties, the strings in them. -/
def SortRecord.estimatedBytes (r : SortRecord) (stringCapacity : Nat) : Nat :=
  40 + 40 * r.properties.length + stringCapacity

/-- The id of a name; the map from names to ids is the inverse of `keys`. -/
def intern (keys : List String) (key : String) : Except RunError (UInt16 × List String) :=
  match keys.idxOf? key with
  | some id => .ok (UInt16.ofNat id, keys)
  | none =>
      if keys.length < 2 ^ 16 then .ok (UInt16.ofNat keys.length, keys ++ [key])
      else .error .tooManyNames

def internProperties (keys : List String) :
    List (String × MvtValue) → Except RunError (List (UInt16 × MvtValue) × List String)
  | [] => .ok ([], keys)
  | (key, value) :: rest => do
      let (id, keys) ← intern keys key
      let (rest, keys) ← internProperties keys rest
      return ((id, value) :: rest, keys)

namespace ExternalFeatureExport

def new (budgetBytes : Nat) : ExternalFeatureExport where
  budgetBytes := max budgetBytes 1
  buffer := []
  bufferBytes := 0
  runs := []
  keys := []
  totalFeatures := 0
  validFeatures := 0

section

variable (cells : Cells) (sort : List SortRecord → List SortRecord)

/-- Sort the buffer and write it out as one run. -/
def spill (st : ExternalFeatureExport) : Except RunError ExternalFeatureExport :=
  match st.buffer with
  | [] => .ok st
  | buffer => do
      let file ← writeRun (sort buffer)
      return { st with runs := st.runs ++ [file], buffer := [], bufferBytes := 0 }

def push (st : ExternalFeatureExport) (f : H3Feature) : Except RunError ExternalFeatureExport :=
  let st := { st with totalFeatures := st.totalFeatures + 1 }
  if cells.isCell f.h3Index then do
    let (properties, keys) ← internProperties st.keys f.properties
    let record : SortRecord := ⟨cells.lat f.h3Index, f.h3Index, properties⟩
    let st :=
      { st with
        validFeatures := st.validFeatures + 1
        keys := keys
        buffer := st.buffer ++ [record]
        bufferBytes := st.bufferBytes + record.estimatedBytes f.stringCapacity }
    if st.budgetBytes ≤ st.bufferBytes then st.spill sort else return st
  else .ok st

def pushAll (st : ExternalFeatureExport) :
    List H3Feature → Except RunError ExternalFeatureExport
  | [] => .ok st
  | f :: features => do pushAll (← st.push cells sort f) features

end

end ExternalFeatureExport

/-! ## Merging -/

/-- A record that was read takes its place on the heap; an ended run has none. -/
def pushNext (next : Option SortRecord) (run : Nat) (heap : List MergeHead) : List MergeHead :=
  match next with
  | some record => heapPush ⟨record, run⟩ heap
  | none => heap

/-- The first record of every run goes on the heap. -/
def openRuns : Nat → List (List UInt8) → List MergeHead →
    Except RunError (List MergeHead × List (List UInt8))
  | _, [], heap => .ok (heap, [])
  | run, file :: files, heap => do
      let (first, rest) ← readFrom file
      let (heap, readers) ← openRuns (run + 1) files (pushNext first run heap)
      return (heap, rest :: readers)

/-- Takes the greatest head and puts the next record of its run in its place. -/
def mergeRuns : Nat → List MergeHead → List (List UInt8) → Except RunError (List SortRecord)
  | 0, _, _ => .ok []
  | _ + 1, [], _ => .ok []
  | rounds + 1, head :: heap, readers => do
      let (next, rest) ← readFrom (readers.getD head.run [])
      let records ← mergeRuns rounds (pushNext next head.run heap) (readers.set head.run rest)
      return head.record :: records

/-! ## What the tile builder is handed -/

/-- The arguments of `add_hexagon_mercator` that are no function of the cell. -/
structure Hexagon where
  h3Index : CellIndex
  properties : List (String × MvtValue)
  deriving DecidableEq

/-- A property that the caller did not give. -/
def addDefault (name : String) (value : MvtValue) (properties : List (String × MvtValue)) :
    List (String × MvtValue) :=
  if properties.any (fun p => p.1 == name) then properties else properties ++ [(name, value)]

def withDefaults (cells : Cells) (cell : CellIndex) (properties : List (String × MvtValue)) :
    List (String × MvtValue) :=
  addDefault "resolution" (.uint (cells.resolution cell).toUInt64) <|
    addDefault "h3_hex" (.fromHexU64 cell.val) <|
      addDefault "h3_index" (.uint (UInt64.ofNat cell.val)) properties

def addRecord (cells : Cells) (keys : List String) (record : SortRecord) : Option Hexagon :=
  if cells.isCell record.h3Index then
    some ⟨record.h3Index, withDefaults cells record.h3Index
      (record.properties.map fun p => (keys.getD p.1.toNat "", p.2))⟩
  else none

namespace ExternalFeatureExport

variable (cells : Cells) (sort : List SortRecord → List SortRecord)

/-- What `build` feeds to the accumulator, in order. -/
def build (st : ExternalFeatureExport) : Except RunError (List Hexagon) :=
  match st.runs with
  | [] => .ok ((sort st.buffer).filterMap (addRecord cells st.keys))
  | _ => do
      let st ← st.spill sort
      let (heap, readers) ← openRuns 0 st.runs []
      let records ← mergeRuns ((st.runs.map List.length).sum + 1) heap readers
      return records.filterMap (addRecord cells st.keys)

/-- A whole export: every feature pushed, then built. -/
def exported (budgetBytes : Nat) (features : List H3Feature) : Except RunError (List Hexagon) := do
  (← (new budgetBytes).pushAll cells sort features).build cells sort

end ExternalFeatureExport

end RasterH3.Pmtiles
