import RasterH3.Agg.Reads
import RasterH3.Parquet.Pipeline

/-!
# The export of a stream

The draining thread of the pipeline fills its buffer from the streamer: a call asks for as many
records as the row group has room for. The pipeline leaves open what a call returns. Here
it is what the streamer returns.
-/

namespace RasterH3.Parquet

open Agg Pipeline

variable {A L C F : Type} {n : Nat} [SpillAccumulator A] [LinearOrder L] [BoundedOrder L]
  [LinearOrder F]

/-- What the buffers take of a record: the resolution is in its cell. -/
def MultiRecord.ofRecord (r : Record A) : MultiRecord A := ⟨.ofBitVec ⟨r.h3Index⟩, r.accumulator⟩

def Action.drains {R : Type} : Action R → Bool
  | .drain _ | .drainFails _ => true
  | _ => false

/-- The threads and the stream that the first of them drains. -/
structure Export (A L C F B : Type) (n : Nat) [LinearOrder L] where
  pipeline : Pipeline (MultiRecord A) F B
  stream : MultiHorizonStreamer A L C n

namespace Export

variable (ops : RowGroupBuffer (MultiRecord A) F) (config : ExportConfig F) (cfg : Setup A L C n)

def spaceLeft (current : ops.Buffer) : Nat := max (rowGroupSize config - ops.len current) 1

inductive Step (x : Export A L C F ops.Buffer n) : Export A L C F ops.Buffer n → Prop
  | drain {current : ops.Buffer} {page : List (Record A) × List (PartialCell A)} {count : Nat}
      {s : MultiHorizonStreamer A L C n} {p : Pipeline (MultiRecord A) F ops.Buffer}
      (hmain : x.pipeline.main = .draining current)
      (hdrains : Drains cfg .drainCompletedInto x.stream (spaceLeft ops config current) page
        (.ok count) s)
      (hstep : step ops config x.pipeline (.drain (page.1.map .ofRecord)) = some p) :
      Step x ⟨p, s⟩
  | drainFails {current : ops.Buffer} {page : List (Record A) × List (PartialCell A)}
      {e : StreamError} {s : MultiHorizonStreamer A L C n}
      {p : Pipeline (MultiRecord A) F ops.Buffer}
      (hmain : x.pipeline.main = .draining current)
      (hdrains : Drains cfg .drainCompletedInto x.stream (spaceLeft ops config current) page
        (.error e) s)
      (hstep : step ops config x.pipeline (.drainFails (page.1.map .ofRecord)) = some p) :
      Step x ⟨p, s⟩
  | thread {action : Action (MultiRecord A)} {p : Pipeline (MultiRecord A) F ops.Buffer}
      (haction : action.drains = false) (hstep : step ops config x.pipeline action = some p) :
      Step x ⟨p, x.stream⟩

def Reachable (before : Option (ParquetFile F)) (stream : MultiHorizonStreamer A L C n)
    (x : Export A L C F ops.Buffer n) : Prop :=
  Relation.ReflTransGen (Step ops config cfg) ⟨initial ops before, stream⟩ x

end Export

end RasterH3.Parquet
