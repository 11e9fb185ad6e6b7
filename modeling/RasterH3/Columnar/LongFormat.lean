import RasterH3.Agg.Histogram
import RasterH3.Agg.Lifecycle
import RasterH3.Columnar.RecordBatch
import RasterH3.Pmtiles.Mvt
import RasterH3.Sedona.Merge

/-!
# The long categorical format

A record of the long format is spread over as many rows as its cell has classes. The reader
keeps one cell at a time in a cursor, whose rows go into the batch that is being filled and,
if that is full, into the next one. A batch ends at its size, at the limit, or with the
stream; a cell without counted pixels has no rows.

The stream is the list of the records it still has and how it ends. What the reader takes
from elsewhere is in `Rendering`: the order in which the classes of a cell are visited, the
logarithm, the bits of a float and the outline of a cell.
-/

namespace RasterH3.LongFormat

open Agg Columnar

variable {F E : Type} [Field F] [LinearOrder F]

abbrev MultiCategoricalRecord (F : Type) [Zero F] [LE F] := Agg.Record (CategoricalAccumulator F)

structure Rendering (F : Type) [Zero F] [LE F] where
  visit : CategoricalAccumulator F → List (Int64 × F)
  ln : F → F
  bits : F → UInt64
  nanBits : UInt64
  /-- `h3_index_to_wkb`. -/
  wkb : CellIndex → Option (List UInt8)

structure CategoricalLongRow (F : Type) where
  cellU64 : CellIndex
  resolution : Nat
  category : Int64
  count : F
  fraction : F
  totalCount : F
  /-- `none` is the NaN of a cursor without entropy. -/
  entropy : Option F
  distinctClasses : Int64
  deriving DecidableEq

/-! ## The cursor -/

/-- The entries are those of the current cell; the first `next` of them are emitted. -/
structure CategoricalLongCursor (F : Type) where
  withEntropy : Bool
  cellU64 : CellIndex
  resolution : Nat
  totalCount : F
  entropy : Option F
  distinctClasses : Int64
  entries : List (Int64 × F)
  next : Nat

namespace CategoricalLongCursor

def new (withEntropy : Bool) : CategoricalLongCursor F where
  withEntropy
  cellU64 := 0
  resolution := 0
  totalCount := 0
  entropy := some 0
  distinctClasses := 0
  entries := []
  next := 0

def load (env : Rendering F) (rec : MultiCategoricalRecord F) (cursor : CategoricalLongCursor F) :
    CategoricalLongCursor F :=
  let acc := rec.accumulator
  { cursor with
    cellU64 := rec.h3Index
    resolution := rec.resolution
    totalCount := acc.totalCount
    distinctClasses := Int64.ofNat acc.uniqueClasses
    entropy :=
      if cursor.withEntropy then some (Sedona.shannonEntropy env.ln acc (env.visit acc)) else none
    entries := (env.visit acc).insertionSort fun p q => p.1 ≤ q.1
    next := 0 }

def remaining (cursor : CategoricalLongCursor F) : Nat := cursor.entries.length - cursor.next

def row (cursor : CategoricalLongCursor F) (entry : Int64 × F) : CategoricalLongRow F where
  cellU64 := cursor.cellU64
  resolution := cursor.resolution
  category := entry.1
  count := entry.2
  fraction := if 0 < cursor.totalCount then entry.2 / cursor.totalCount else 0
  totalCount := cursor.totalCount
  entropy := cursor.entropy
  distinctClasses := cursor.distinctClasses

/-- The rows emitted and the cursor behind them. -/
def emitInto (maxRows : Nat) (cursor : CategoricalLongCursor F) :
    List (CategoricalLongRow F) × CategoricalLongCursor F :=
  let take := min maxRows cursor.remaining
  (((cursor.entries.drop cursor.next).take take).map cursor.row,
    { cursor with next := cursor.next + take })

theorem remaining_emitInto (maxRows : Nat) (cursor : CategoricalLongCursor F) :
    (cursor.emitInto maxRows).2.remaining = cursor.remaining - min maxRows cursor.remaining := by
  simp only [emitInto, remaining]
  omega

end CategoricalLongCursor

/-! ## The stream -/

/-- The records that are left, and the error that the stream then fails with. -/
structure RecordStream (F E : Type) [Zero F] [LE F] where
  records : List (MultiCategoricalRecord F)
  failure : Option E

/-- `drain_completed_into(1, …)`: `none` is the zero at the end of the stream. -/
def RecordStream.drainOne (stream : RecordStream F E) :
    Except E (Option (MultiCategoricalRecord F)) × RecordStream F E :=
  match stream.records with
  | rec :: records => (.ok (some rec), { stream with records })
  | [] =>
      match stream.failure with
      | some e => (.error e, stream)
      | none => (.ok none, stream)

namespace RecordStream

variable {stream stream' : RecordStream F E}

theorem drainOne_rec {rec : MultiCategoricalRecord F}
    (h : stream.drainOne = (.ok (some rec), stream')) :
    ∃ records, stream.records = rec :: records ∧ stream' = { stream with records } := by
  unfold drainOne at h
  split at h
  next records hrecords =>
    cases h
    exact ⟨records, hrecords, rfl⟩
  next =>
    split at h
    next => cases h
    next => cases h

theorem drainOne_end (h : stream.drainOne = (.ok none, stream')) :
    stream.records = [] ∧ stream.failure = none ∧ stream' = stream := by
  unfold drainOne at h
  split at h
  next => cases h
  next hrecords =>
    split at h
    next => cases h
    next hfailure =>
      cases h
      exact ⟨hrecords, hfailure, rfl⟩

theorem drainOne_error {e : E} (h : stream.drainOne = (.error e, stream')) :
    stream.records = [] ∧ stream.failure = some e := by
  unfold drainOne at h
  split at h
  next => cases h
  next hrecords =>
    split at h
    next hfailure =>
      cases h
      exact ⟨hrecords, hfailure⟩
    next => cases h

end RecordStream

/-! ## The reader -/

def categoricalLongFields : List ColumnField :=
  [⟨"h3_index", .uint64, false⟩, ⟨"h3_hex", .utf8, false⟩, ⟨"category", .int64, false⟩,
    ⟨"count", .float64, false⟩, ⟨"fraction", .float64, false⟩, ⟨"total_count", .float64, false⟩,
    ⟨"resolution", .uint8, false⟩, ⟨"shannon_entropy", .float64, false⟩,
    ⟨"entropy", .float64, false⟩, ⟨"distinct_classes", .int64, false⟩,
    ⟨"unique_classes", .int64, false⟩, ⟨"wkb", .binary, false⟩]

def categoricalLong : ColumnSchema := ⟨categoricalLongFields⟩

/-- A projection that has passed the check of the schema. -/
abbrev LongProjection := Option (List (Fin 12))

def checkProjection (indices : List Nat) : Except BatchError (List (Fin 12)) :=
  indices.mapM fun idx =>
    if h : idx < 12 then .ok ⟨idx, h⟩
    else .error (.projectedColumn idx categoricalLongFields.length)

structure CategoricalBatchReader (F E : Type) [Zero F] [LE F] where
  streamer : RecordStream F E
  projection : LongProjection
  schema : ColumnSchema
  batchSize : Nat
  remainingLimit : Option Nat
  longCursor : CategoricalLongCursor F
  finished : Bool
  batch_pos : 0 < batchSize

namespace CategoricalBatchReader

def openWith (streamer : RecordStream F E) (projection : LongProjection) (schema : ColumnSchema)
    (withEntropy : Bool) (batchSize : Nat) (limit : Option Nat) : CategoricalBatchReader F E where
  streamer
  projection
  schema
  batchSize := max batchSize 1
  remainingLimit := limit
  longCursor := CategoricalLongCursor.new withEntropy
  finished := false
  batch_pos := Nat.le_max_right batchSize 1

/-- `from_streamer` for the long format. Columns 7 and 8 are the entropy. -/
def fromStreamer (streamer : RecordStream F E) (projection : Option (List Nat)) (batchSize : Nat)
    (limit : Option Nat) : Except BatchError (CategoricalBatchReader F E) :=
  match projection with
  | none => .ok (openWith streamer none categoricalLong true batchSize limit)
  | some indices =>
      match checkProjection indices, categoricalLong.project indices with
      | .ok checked, .ok schema =>
          let withEntropy := indices.any fun c => c == 7 || c == 8
          .ok (openWith streamer (some checked) schema withEntropy batchSize limit)
      | .error e, _ => .error e
      | _, .error e => .error e

def longColumn (env : Rendering F) (rows : List (CategoricalLongRow F)) (colIdx : Fin 12) :
    ColumnArray :=
  let entropyBits (r : CategoricalLongRow F) : UInt64 := (r.entropy.map env.bits).getD env.nanBits
  match colIdx with
  | 0 => ⟨.uint64 (rows.map fun r => UInt64.ofNat r.cellU64), none⟩
  | 1 =>
      ⟨.utf8 (rows.map fun r =>
        String.ofList ((Pmtiles.MvtValue.fastHexU64 r.cellU64).map fun b =>
          Char.ofNat b.toNat)), none⟩
  | 2 => ⟨.int64 (rows.map fun r => r.category), none⟩
  | 3 => ⟨.float64 (rows.map fun r => env.bits r.count), none⟩
  | 4 => ⟨.float64 (rows.map fun r => env.bits r.fraction), none⟩
  | 5 => ⟨.float64 (rows.map fun r => env.bits r.totalCount), none⟩
  | 6 => ⟨.uint8 (rows.map fun r => UInt8.ofNat r.resolution), none⟩
  | 7 | 8 => ⟨.float64 (rows.map entropyBits), none⟩
  | 9 | 10 => ⟨.int64 (rows.map fun r => r.distinctClasses), none⟩
  | 11 => ⟨.binary (rows.map fun r => (env.wkb r.cellU64).getD []), none⟩

/-- The batch of some rows. -/
def longBatch (env : Rendering F) (schema : ColumnSchema) (projection : LongProjection)
    (rows : List (CategoricalLongRow F)) : RecordBatch :=
  let activeIndices := projection.getD (List.finRange 12)
  { schema
    columns := activeIndices.map (longColumn env rows)
    numRows := rows.length }

/-- The loop that fills a batch: the error it stops at, the rows, and the reader. -/
def fillRows (env : Rendering F) (target : Nat) (rows : List (CategoricalLongRow F))
    (s : CategoricalBatchReader F E) :
    Except E (List (CategoricalLongRow F)) × CategoricalBatchReader F E :=
  if rows.length < target then
    if 0 < s.longCursor.remaining then
      let emitted := s.longCursor.emitInto (target - rows.length)
      fillRows env target (rows ++ emitted.1) { s with longCursor := emitted.2 }
    else if s.finished then (.ok rows, s)
    else
      match _hdrain : s.streamer.drainOne with
      | (.ok none, streamer) =>
          fillRows env target rows { s with streamer, finished := true }
      | (.ok (some rec), streamer) =>
          -- cells without counted pixels produce no long rows
          let longCursor :=
            if 0 < rec.accumulator.totalCount then s.longCursor.load env rec else s.longCursor
          fillRows env target rows { s with streamer, longCursor }
      | (.error e, streamer) => (.error e, { s with streamer, finished := true })
  else (.ok rows, s)
termination_by
  (s.streamer.records.length, if s.finished then 0 else 1, s.longCursor.remaining)
decreasing_by
  · have := CategoricalLongCursor.remaining_emitInto (target - rows.length) s.longCursor
    exact Prod.Lex.right _ (Prod.Lex.right _ (by omega))
  · next hfinished =>
      rw [(RecordStream.drainOne_end _hdrain).2.2]
      exact Prod.Lex.right _ (Prod.Lex.left _ _ (by simp [hfinished]))
  · obtain ⟨records, hrecords, rfl⟩ := RecordStream.drainOne_rec _hdrain
    exact Prod.Lex.left _ _ (by simp [hrecords])

def nextLongBatch (env : Rendering F) (target : Nat) (s : CategoricalBatchReader F E) :
    Option (Except E RecordBatch) × CategoricalBatchReader F E :=
  match fillRows env target [] s with
  | (.error e, s) => (some (.error e), s)
  | (.ok [], s) => (none, { s with finished := true })
  | (.ok rows, s) =>
      (some (.ok (longBatch env s.schema s.projection rows)),
        { s with remainingLimit := s.remainingLimit.map fun rem => rem - rows.length })

/-- `Iterator::next` of a reader of the long format. -/
def next (env : Rendering F) (s : CategoricalBatchReader F E) :
    Option (Except E RecordBatch) × CategoricalBatchReader F E :=
  match s.remainingLimit with
  | some 0 => (none, { s with finished := true })
  | some rem => nextLongBatch env (min s.batchSize rem) s
  | none => nextLongBatch env s.batchSize s

/-- What the first `n` calls of `next` return. -/
def outputs (env : Rendering F) : Nat → CategoricalBatchReader F E →
    List (Option (Except E RecordBatch))
  | 0, _ => []
  | n + 1, s => (s.next env).1 :: outputs env n (s.next env).2

end CategoricalBatchReader

end RasterH3.LongFormat
