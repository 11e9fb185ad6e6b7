import RasterH3.Agg.Partial
import RasterH3.Agg.Reads

/-!
# The rows of a raster scan in a query

The scan functions drain the streamer into the record queue that the threads of the query
share. A scan of a partition has a column more: its share of a cell that other partitions
reach as well is a row with the encoded state, behind the records of the same call.
-/

namespace RasterH3.DuckDb

open Agg

variable {A L C : Type} {n : Nat} [PartialState A] [LinearOrder L] [BoundedOrder L]

structure ScanRow (A : Type) where
  record : Record A
  partialState : Option (List UInt8)

namespace ScanRow

omit [PartialState A] in
def ofRecord (r : Record A) : ScanRow A := ⟨r, none⟩

def ofPartial (cell : PartialCell A) : ScanRow A :=
  ⟨cell, some (encodePartialState cell.accumulator)⟩

/-- The rows that a page of the stream becomes. -/
def ofPage (page : List (Record A) × List (PartialCell A)) : List (ScanRow A) :=
  page.1.map ofRecord ++ page.2.map ofPartial

end ScanRow

/-- Which drain function a scan calls. -/
def readOf (partitioned : Bool) : Read :=
  if partitioned then .drainPartitionedInto else .drainCompletedInto

/-- `drain_continuous` and `drain_categorical`. -/
inductive DrainRows (cfg : Setup A L C n) (partitioned : Bool) (s : MultiHorizonStreamer A L C n)
    (maxRows : Nat) :
    List (ScanRow A) → Except StreamError Nat → MultiHorizonStreamer A L C n → Prop
  | rows {page : List (Record A) × List (PartialCell A)} {result : Except StreamError Nat}
      {s' : MultiHorizonStreamer A L C n}
      (hdrains : Drains cfg (readOf partitioned) s maxRows page result s') :
      DrainRows cfg partitioned s maxRows (ScanRow.ofPage page) result s'

end RasterH3.DuckDb
