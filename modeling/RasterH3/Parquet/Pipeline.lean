import RasterH3.Parquet.Writer
import Mathlib.Data.List.Basic

/-!
# The two threads of a Parquet export

The draining thread fills a buffer and sends it to the writer thread, which sorts it, writes
a row group and sends the cleared buffer back. Both channels hold two buffers. A thread that
ends drops its ends of the channels: a send then fails, and a receive fails once the queue is
empty.

An action is one channel operation, one call of the streamer, or one buffer written. What a
call of the streamer or of the file returns is chosen with the action. The file is written
beside the target path and renamed over it at the end.
-/

namespace RasterH3.Parquet

/-- `ParquetRowGroupBuffer`, its options and its capacity given. -/
structure RowGroupBuffer (R F : Type) where
  Buffer : Type
  withCapacityAndOptions : Buffer
  pushRecord : Buffer → R → Buffer
  len : Buffer → Nat
  geometryBounds : Buffer → Option (Bounds F)
  clear : Buffer → Buffer
  sortByH3Index : Buffer → Buffer
  flushToRowGroup : Buffer → List (ParquetColumn F)

section Buffers

variable {A F : Type} [LinearOrder F] [OrderTop F] [OrderBot F] [Inhabited F] [Zero F]

def continuousBuffer (cells : Cells F) (stats : ContinuousStats A F) (sort : UnstableSort)
    (options : BufferOptions) : RowGroupBuffer (MultiRecord A) F where
  Buffer := ContinuousRowGroupBuffer F
  withCapacityAndOptions := .withCapacityAndOptions options
  pushRecord := ContinuousRowGroupBuffer.pushRecord cells stats
  len := ContinuousRowGroupBuffer.len
  geometryBounds := ContinuousRowGroupBuffer.bounds
  clear := ContinuousRowGroupBuffer.clear
  sortByH3Index := ContinuousRowGroupBuffer.sortByH3Index sort
  flushToRowGroup := ContinuousRowGroupBuffer.flushToRowGroup

def categoricalBuffer (cells : Cells F) (stats : CategoricalStats A F) (sort : UnstableSort)
    (options : BufferOptions) : RowGroupBuffer (MultiRecord A) F where
  Buffer := CategoricalRowGroupBuffer F
  withCapacityAndOptions := .withCapacityAndOptions options
  pushRecord := CategoricalRowGroupBuffer.pushRecord cells stats
  len := CategoricalRowGroupBuffer.len
  geometryBounds := CategoricalRowGroupBuffer.bounds
  clear := CategoricalRowGroupBuffer.clear
  sortByH3Index := CategoricalRowGroupBuffer.sortByH3Index sort
  flushToRowGroup := CategoricalRowGroupBuffer.flushToRowGroup

end Buffers

/-- What the export reads of its configuration and of the streamer. -/
structure ExportConfig (F : Type) where
  rowGroupSize : Nat
  options : BufferOptions
  fallbackBbox : Bounds F

/-- The row groups and the `bbox` of the `geo` metadata. -/
structure ParquetFile (F : Type) where
  rowGroups : List (List (ParquetColumn F))
  geo : Option (Bounds F)

/-- `sync_channel::<B>(2)`. -/
def channelBound : Nat := 2

/-! ## Threads -/

/-- The draining thread; its sender lives until it stops draining. -/
inductive Main (B : Type) where
  | draining (current : B)
  /-- in `writer_tx.send`, after a call that drained this many rows -/
  | sending (current : B) (drained : Nat)
  /-- in `recycle_rx.recv` -/
  | recycling (drained : Nat)
  | sendingLast (current : B)
  /-- the stream failed, the sender is dropped -/
  | streamFailed
  | joiningFailed
  | joining
  | returned (totalRows : Option Nat)

inductive Writer (B : Type) where
  | receiving
  | writing (buf : B)
  /-- in `recycle_tx.send` -/
  | recycling (buf : B)
  /-- the channel is closed -/
  | closing
  /-- drops its receiver and its sender, the ones that are left -/
  | returning (totalRows : Option Nat) (writerRx recycleTx : Bool)
  | finished (totalRows : Option Nat)

def Main.writerTx {B : Type} : Main B → Bool
  | .draining _ | .sending _ _ | .recycling _ | .sendingLast _ => true
  | _ => false

def Main.recycleRx {B : Type} : Main B → Bool
  | .joiningFailed | .returned _ => false
  | _ => true

def Writer.writerRx {B : Type} : Writer B → Bool
  | .returning _ writerRx _ => writerRx
  | .finished _ => false
  | _ => true

def Writer.recycleTx {B : Type} : Writer B → Bool
  | .returning _ _ recycleTx => recycleTx
  | .finished _ => false
  | _ => true

/-- Both threads, their channels, the unpublished file and the target path. The last two
fields record what happened: the rows drained, and whether a call failed. -/
structure Pipeline (R F B : Type) where
  main : Main B
  writer : Writer B
  writerQueue : List B
  recycleQueue : List B
  rowGroups : List (List (ParquetColumn F))
  totalRows : Nat
  bbox : Option (Bounds F)
  geo : Option (Bounds F)
  target : Option (ParquetFile F)
  drained : List R
  failed : Bool

/-- What a thread does next, with the result of the call it makes. -/
inductive Action (R : Type) where
  | drain (rows : List R)
  | drainFails (rows : List R)
  | main
  | persistFails
  | writer
  | writerFails
  | dropWriterRx
  | dropRecycleTx

namespace Pipeline

variable {R F : Type} (ops : RowGroupBuffer R F) (config : ExportConfig F)

/-- `row_group_size.max(1)`. -/
def rowGroupSize : Nat := max config.rowGroupSize 1

/-- The second buffer waits to be recycled already. -/
def initial (before : Option (ParquetFile F)) : Pipeline R F ops.Buffer where
  main := .draining ops.withCapacityAndOptions
  writer := .receiving
  writerQueue := []
  recycleQueue := [ops.withCapacityAndOptions]
  rowGroups := []
  totalRows := 0
  bbox := none
  geo := none
  target := before
  drained := []
  failed := false

/-- The end of an iteration: `if drained == 0`. -/
def endIteration (current : ops.Buffer) (drained : Nat) : Main ops.Buffer :=
  if drained = 0 then
    if ops.len current = 0 then .joining else .sendingLast current
  else .draining current

/-- A call of `drain_completed_into` that returns: the rows are at most the space left. -/
def drain (s : Pipeline R F ops.Buffer) (rows : List R) : Option (Pipeline R F ops.Buffer) :=
  match s.main with
  | .draining current =>
      if rows.length ≤ max (rowGroupSize config - ops.len current) 1 then
        let current := rows.foldl ops.pushRecord current
        let main :=
          if rowGroupSize config ≤ ops.len current then .sending current rows.length
          else endIteration ops current rows.length
        some { s with main := main, drained := s.drained ++ rows }
      else none
  | _ => none

/-- The rows it had pushed are lost with their buffer. -/
def drainFails (s : Pipeline R F ops.Buffer) (rows : List R) :
    Option (Pipeline R F ops.Buffer) :=
  match s.main with
  | .draining _ =>
      some { s with main := .streamFailed, drained := s.drained ++ rows, failed := true }
  | _ => none

def stepMain (s : Pipeline R F ops.Buffer) : Option (Pipeline R F ops.Buffer) :=
  match s.main with
  | .draining _ => none
  | .sending current drained =>
      if s.writer.writerRx = false then some { s with main := .joining }
      else if s.writerQueue.length < channelBound then
        some { s with main := .recycling drained, writerQueue := s.writerQueue ++ [current] }
      else none
  | .recycling drained =>
      match s.recycleQueue with
      | buf :: rest => some { s with main := endIteration ops buf drained, recycleQueue := rest }
      | [] =>
          if s.writer.recycleTx then none
          else some { s with main := endIteration ops ops.withCapacityAndOptions drained }
  | .sendingLast current =>
      if s.writer.writerRx = false then some { s with main := .joining }
      else if s.writerQueue.length < channelBound then
        some { s with main := .joining, writerQueue := s.writerQueue ++ [current] }
      else none
  | .streamFailed => some { s with main := .joiningFailed, recycleQueue := [] }
  | .joiningFailed =>
      match s.writer with
      | .finished _ => some { s with main := .returned none }
      | _ => none
  | .joining =>
      match s.writer with
      | .finished none => some { s with main := .returned none }
      | .finished (some totalRows) =>
          some { s with main := .returned (some totalRows), target := some ⟨s.rowGroups, s.geo⟩ }
      | _ => none
  | .returned _ => none

/-- `output_file.persist(&parquet_path)?` fails. -/
def persistFails (s : Pipeline R F ops.Buffer) : Option (Pipeline R F ops.Buffer) :=
  match s.main, s.writer with
  | .joining, .finished (some _) => some { s with main := .returned none, failed := true }
  | _, _ => none

/-- `bbox = Some(bbox.map_or(b, …))`, if the buffer has geometries. -/
def mergeBbox [LinearOrder F] (bbox bounds : Option (Bounds F)) : Option (Bounds F) :=
  match bounds with
  | some b => some (bbox.elim b fun a => a.union b)
  | none => bbox

def stepWriter [LinearOrder F] (s : Pipeline R F ops.Buffer) : Option (Pipeline R F ops.Buffer) :=
  match s.writer with
  | .receiving =>
      match s.writerQueue with
      | buf :: rest =>
          some { s with
            writer := if ops.len buf = 0 then .receiving else .writing buf
            writerQueue := rest }
      | [] => if s.main.writerTx then none else some { s with writer := .closing }
  | .writing buf =>
      let buf := ops.sortByH3Index buf
      some { s with
        writer := .recycling (ops.clear buf)
        rowGroups := s.rowGroups ++ [ops.flushToRowGroup buf]
        totalRows := s.totalRows + ops.len buf
        bbox := mergeBbox s.bbox (ops.geometryBounds buf) }
  | .recycling buf =>
      if s.main.recycleRx = false then some { s with writer := .receiving }
      else if s.recycleQueue.length < channelBound then
        some { s with writer := .receiving, recycleQueue := s.recycleQueue ++ [buf] }
      else none
  | .closing =>
      let geo := if config.options.geoparquet then some (s.bbox.getD config.fallbackBbox) else none
      some { s with writer := .returning (some s.totalRows) true true, geo := geo }
  | .returning totalRows false false => some { s with writer := .finished totalRows }
  | .returning _ _ _ => none
  | .finished _ => none

/-- `flush_to_row_group` or what follows the last row group fails. -/
def writerFails (s : Pipeline R F ops.Buffer) : Option (Pipeline R F ops.Buffer) :=
  match s.writer with
  | .writing _ | .closing =>
      some { s with writer := .returning none true true, failed := true }
  | _ => none

/-- What is still queued is dropped with the receiver. -/
def dropWriterRx (s : Pipeline R F ops.Buffer) : Option (Pipeline R F ops.Buffer) :=
  match s.writer with
  | .returning totalRows true recycleTx =>
      some { s with writer := .returning totalRows false recycleTx, writerQueue := [] }
  | _ => none

def dropRecycleTx (s : Pipeline R F ops.Buffer) : Option (Pipeline R F ops.Buffer) :=
  match s.writer with
  | .returning totalRows writerRx true =>
      some { s with writer := .returning totalRows writerRx false }
  | _ => none

variable [LinearOrder F]

def step (s : Pipeline R F ops.Buffer) : Action R → Option (Pipeline R F ops.Buffer)
  | .drain rows => drain ops config s rows
  | .drainFails rows => drainFails ops s rows
  | .main => stepMain ops s
  | .persistFails => persistFails ops s
  | .writer => stepWriter ops config s
  | .writerFails => writerFails ops s
  | .dropWriterRx => dropWriterRx ops s
  | .dropRecycleTx => dropRecycleTx ops s

def run (s : Pipeline R F ops.Buffer) : List (Action R) → Option (Pipeline R F ops.Buffer)
  | [] => some s
  | action :: rest => (step ops config s action).bind fun s' => s'.run rest

end Pipeline

end RasterH3.Parquet
