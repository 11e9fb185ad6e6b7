import RasterH3.Agg.Compaction
import RasterH3.Agg.Config
import RasterH3.Agg.ShardedMap

/-!
# The streaming controller

Decoded chunks arrive in order and in batches. A batch is cut into windows, each
window is aggregated by a worker into one map per resolution, and the workers'
maps are merged into the live maps. What the horizon has passed is emitted, what
outgrows its budget is spilled as a sorted run, and at the end of the input every
resolution is emitted in order, from memory or from its merged runs. Emitted
cells go through compaction into the output buffer, from where the consumer
drains them page by page.

Which samples a window has and where they fall is the walker's business. Here a
chunk comes with the worker maps of its windows. The prefetcher hands over
between one and `batchLen` chunks at a time, as many as are `ready`. Both loops
over an unknown number of rounds, `advanceInner` and the waves, take the number
of rounds as an argument.
-/

namespace RasterH3.Agg

open AccumulatorMerge SpillAccumulator

/-! ## Chunks and windows -/

/-- A rectangle of pixels, relative to its chunk. -/
structure Window where
  row : Nat
  col : Nat
  width : Nat
  height : Nat
  deriving DecidableEq, Repr

/-- A decoded chunk, and what the kernel makes of each of its windows: a map for
every resolution, in table order, and how many transforms failed. -/
structure Chunk (A : Type) (n : Nat) where
  width : Nat
  height : Nat
  sparse : Bool
  process : Window → Fin n → List (CellIndex × A)
  failures : Window → Nat

/-- The windows from `(row, col)` on. Full rows are combined as long as they fit
into `workerPixels`, longer rows are cut into segments. -/
def cutWindows (workerPixels width height : Nat) (rounds row col : Nat) : List Window :=
  match rounds with
  | 0 => []
  | rounds + 1 =>
      if height ≤ row ∨ width = 0 then []
      else
        let w := if width ≤ workerPixels then width else min workerPixels (width - col)
        let h := if width ≤ workerPixels then min (workerPixels / width) (height - row) else 1
        ⟨row, col, w, h⟩ ::
          if w = width then cutWindows workerPixels width height rounds (row + h) col
          else if col + w = width then cutWindows workerPixels width height rounds (row + 1) 0
          else cutWindows workerPixels width height rounds row (col + w)

variable {A L C : Type} {n : Nat}

/-- A decoder's sparse fill is not observed data. Every window has a pixel, which
bounds the rounds. -/
def Chunk.windows (workerPixels : Nat) (c : Chunk A n) : List Window :=
  if c.sparse then [] else cutWindows workerPixels c.width c.height (c.width * c.height) 0 0

/-- What a worker hands back. -/
structure Job (A : Type) (n : Nat) where
  maps : Fin n → List (CellIndex × A)
  failures : Nat

def Chunk.jobs (workerPixels : Nat) (c : Chunk A n) : List (Job A n) :=
  (c.windows workerPixels).map fun w => ⟨c.process w, c.failures w⟩

/-! ## The state -/

/-- What does not change while a scan runs. -/
structure Setup (A L C : Type) (n : Nat) where
  h3 : H3 L
  kernel : Kernel A
  resolutions : Fin n → Nat
  strictTransforms : Bool
  mapBudget : Nat
  accumulatorLimit : Usize
  outputByteLimit : Nat
  workerTasks : Nat
  workerPixels : Nat
  batchSize : Nat
  batchPixels : Nat
  /-- `eviction_north_bound` of every chunk. -/
  norths : List L
  /-- `chunk_width * chunk_height` of every chunk. -/
  chunkPixels : List Nat
  /-- How many chunks are decoded by the time of each batch. -/
  ready : Nat → Nat
  /-- `BoundaryClassifier::is_interior`. -/
  isInterior : C → CellIndex → Bool × C
  sizeOfChild : Nat
  sizeOfPartial : Nat

abbrev PartialCell (A : Type) := Record A

structure PartitionOutput (A C : Type) where
  classifier : C
  partials : OutputBuffer (PartialCell A)

inductive FinalCells (A : Type) where
  | memory (records : List (CellIndex × A))
  | disk (reader : RunReader A)

def FinalCells.nextRecord [SpillAccumulator A] :
    FinalCells A → Except SpillError (Option (CellIndex × A) × FinalCells A)
  | .memory [] => .ok (none, .memory [])
  | .memory (record :: records) => .ok (some record, .memory records)
  | .disk reader => do
      let (record, reader) ← reader.nextRecord
      return (record, .disk reader)

/-- `finalReader` comes with the resolution it reads, `final_resolution - 1`. -/
structure MultiHorizonStreamer (A L C : Type) (n : Nat) [LinearOrder L] where
  prefetcher : Option (List (Except String (Chunk A n)))
  batches : Nat
  resolutionShards : Fin n → ShardedResolutionMap A L
  compactor : Compactor A L
  outputBuffer : OutputBuffer (Record A)
  lifecycle : StreamState
  currentLatHorizon : L
  processedChunkCount : Nat
  spillRuns : Fin n → SpillRuns
  finalReader : Option (Fin n × FinalCells A)
  evictionHorizon : L
  finalResolution : Nat
  finishing : Bool
  compactionParent : Option CellIndex
  partition : Option (PartitionOutput A C)
  transformFailures : Nat

namespace Setup

variable [LinearOrder L] [BoundedOrder L]

/-- `suffix_max_north_lat`: the northernmost bound of any chunk from the `k`-th on. -/
def suffixMaxNorthLat (cfg : Setup A L C n) (k : Nat) : L := (cfg.norths.drop k).foldr max ⊥

def isFinite (lat : L) : Bool := lat ≠ ⊤ ∧ lat ≠ ⊥

def canEvictEarly (cfg : Setup A L C n) : Bool :=
  (List.range (cfg.norths.length + 1)).any fun k => isFinite (cfg.suffixMaxNorthLat k)

def batchChunks (batchPixels pixels : Nat) : List Nat → Nat
  | [] => 0
  | p :: rest =>
      if batchPixels ≤ pixels + p then 1 else batchChunks batchPixels (pixels + p) rest + 1

/-- A batch stops at `batchPixels` or at `batchSize` chunks. -/
def nextBatchLen (cfg : Setup A L C n) (processed : Nat) : Nat :=
  max (batchChunks cfg.batchPixels 0 ((cfg.chunkPixels.drop processed).take cfg.batchSize)) 1

end Setup

namespace MultiHorizonStreamer

section Accessors

variable [LinearOrder L]

def isFinished (s : MultiHorizonStreamer A L C n) : Bool :=
  s.lifecycle = .finished ∧ s.outputBuffer.len = 0 ∧ (s.partition.map (·.partials.len)).getD 0 = 0

/-- Records and partial cells that await the consumer. -/
def bufferedLen (s : MultiHorizonStreamer A L C n) : Nat :=
  s.outputBuffer.len + (s.partition.map (·.partials.len)).getD 0

def bufferedBytes (s : MultiHorizonStreamer A L C n) : Nat :=
  s.outputBuffer.estimatedBytes + (s.partition.map (·.partials.estimatedBytes)).getD 0

def anySpilled (s : MultiHorizonStreamer A L C n) : Bool :=
  (List.finRange n).any fun i => (s.spillRuns i).hasSpilled

/-- `current_lat_horizon()`, as the consumer reads it. -/
def publishedHorizon [BoundedOrder L] (s : MultiHorizonStreamer A L C n) : L :=
  if s.isFinished then ⊥ else s.currentLatHorizon

end Accessors

variable [SpillAccumulator A] [LinearOrder L] [BoundedOrder L]

def new (cfg : Setup A L C n) (compacts : Bool) (compactionBudgetBytes : Option Nat)
    (structureBytes : Fin n → Nat → Nat) (indexBytes : Nat → Nat) (classifier : Option C)
    (chunks : List (Except String (Chunk A n))) : MultiHorizonStreamer A L C n where
  prefetcher := some chunks
  batches := 0
  resolutionShards := fun i =>
    (ShardedResolutionMap.new (structureBytes i)).setEvictionEnabled cfg.canEvictEarly
  compactor := .withByteLimit compacts compactionBudgetBytes indexBytes
  outputBuffer := .empty
  lifecycle := .running
  currentLatHorizon := ⊤
  processedChunkCount := 0
  spillRuns := fun _ => .new cfg.accumulatorLimit
  finalReader := none
  evictionHorizon := ⊤
  finalResolution := 0
  finishing := false
  compactionParent := none
  partition := classifier.map fun c => ⟨c, .empty⟩
  transformFailures := 0

variable (cfg : Setup A L C n)

/-! ## Emitting -/

/-- At the end of the input siblings are contiguous, so that a parent's group is
decomposed as soon as the stream moves past it. -/
def moveTo (parent : Option CellIndex) (s : MultiHorizonStreamer A L C n) :
    MultiHorizonStreamer A L C n :=
  if parent = s.compactionParent then s
  else
    let t :=
      match s.compactionParent with
      | some previous => s.compactor.flushParent previous cfg.kernel s.outputBuffer
      | none => (s.compactor, s.outputBuffer)
    { s with compactor := t.1, outputBuffer := t.2, compactionParent := parent }

def pushFinal (i : Fin n) (key : CellIndex) (acc : A) (s : MultiHorizonStreamer A L C n) :
    MultiHorizonStreamer A L C n :=
  let s :=
    if s.compactor.enabled ∧ s.finishing then s.moveTo cfg (cfg.h3.parentOf key) else s
  let t := s.compactor.pushCell cfg.h3 cfg.kernel cfg.sizeOfChild (cfg.resolutions i) key acc
    s.outputBuffer
  { s with compactor := t.1, outputBuffer := t.2 }

/-- One final cell. A cell of which other partitions may hold samples is handed on
unfiltered, since only its merged state can be filtered. -/
def emitFinal (i : Fin n) (key : CellIndex) (acc : A) (s : MultiHorizonStreamer A L C n) :
    MultiHorizonStreamer A L C n :=
  match s.partition with
  | none => s.pushFinal cfg i key acc
  | some p =>
      let verdict := cfg.isInterior p.classifier key
      if verdict.1 then
        { s with partition := some { p with classifier := verdict.2 } }.pushFinal cfg i key acc
      else
        { s with partition := some ⟨verdict.2, p.partials.pushSized ⟨cfg.resolutions i, key, acc⟩
            (cfg.sizeOfPartial + heapBytes acc)⟩ }

/-! ## Merging -/

def spillResolution (i : Fin n) (s : MultiHorizonStreamer A L C n) :
    Except StreamError (MultiHorizonStreamer A L C n) :=
  let t := (s.resolutionShards i).takeSorted
  if t.1.isEmpty then .ok { s with resolutionShards := Function.update s.resolutionShards i t.2 }
  else
    match (s.spillRuns i).pushSorted t.1 with
    | .error e => .error (.io e)
    | .ok runs => .ok
        { s with
          resolutionShards :=
            Function.update s.resolutionShards i (t.2.setEvictionEnabled false)
          spillRuns := Function.update s.spillRuns i runs }

/-- The eviction key of the next cell: the one the worker computed, if it is next
in the worker's list, else computed here. -/
def southKey (h3 : H3 L) (precomputed : List (CellIndex × L)) (key : CellIndex) :
    L × List (CellIndex × L) :=
  match precomputed with
  | (k, south) :: rest => if k = key then (south, rest) else (h3.southLat key, precomputed)
  | [] => (h3.southLat key, [])

def mergeCell (i : Fin n) (key : CellIndex) (acc : A) (south : L)
    (s : MultiHorizonStreamer A L C n) : Except StreamError (MultiHorizonStreamer A L C n) :=
  if cfg.accumulatorLimit.val < memoryBytes acc then
    .error (.invalidParameter
      "single accumulator exceeds aggregation budget; increase aggregation_budget_bytes")
  else
    let t := (s.resolutionShards i).mergeOwnedWith key acc south
    let s := { s with resolutionShards := Function.update s.resolutionShards i t.2 }
    if cfg.accumulatorLimit.val < t.1 then
      .error (.invalidParameter
        "merged accumulator exceeds aggregation budget; increase aggregation_budget_bytes")
    else if cfg.mapBudget ≤ t.2.estimatedBytes then s.spillResolution i
    else .ok s

def mergeMap (i : Fin n) (cells : List (CellIndex × A)) (precomputed : List (CellIndex × L))
    (s : MultiHorizonStreamer A L C n) : Except StreamError (MultiHorizonStreamer A L C n) :=
  match cells with
  | [] => .ok s
  | (key, acc) :: cells => do
      let south := southKey cfg.h3 precomputed key
      let s ← s.mergeCell cfg i key acc south.1
      s.mergeMap i cells south.2

def mergeWindow (maps : Fin n → List (CellIndex × A)) (southKeys : Fin n → List (CellIndex × L))
    (s : MultiHorizonStreamer A L C n) : Except StreamError (MultiHorizonStreamer A L C n) :=
  (List.finRange n).foldlM (fun s i => s.mergeMap cfg i (maps i) (southKeys i)) s

/-- Eviction keys cost a boundary each, so that a worker computes those of the
cells that the merge will insert. -/
def workerSouthKeys (maps : Fin n → List (CellIndex × A)) (s : MultiHorizonStreamer A L C n)
    (i : Fin n) : List (CellIndex × L) :=
  let shard := s.resolutionShards i
  if shard.trackEviction then
    ((Keyed.keys (maps i)).filter fun key => !shard.contains key).map fun key =>
      (key, cfg.h3.southLat key)
  else []

/-- All workers of a wave are done before the first of their maps is merged. -/
def processWave (jobs : List (Job A n)) (s : MultiHorizonStreamer A L C n) :
    Except StreamError (MultiHorizonStreamer A L C n) :=
  let keyed := jobs.map fun job => (job, s.workerSouthKeys cfg job.maps)
  let failures := s.transformFailures + (jobs.map Job.failures).sum
  if cfg.strictTransforms ∧ 0 < failures then .error (.transformFailures failures)
  else keyed.foldlM (fun s k => s.mergeWindow cfg k.1.maps k.2)
    { s with transformFailures := failures }

/-- A wave takes the next `workerTasks` jobs; a chunk that could not be decoded
ends it with an error. -/
def processWaves (rounds : Nat) (jobs : List (Except StreamError (Job A n)))
    (s : MultiHorizonStreamer A L C n) : Except StreamError (MultiHorizonStreamer A L C n) :=
  match rounds, jobs with
  | 0, _ => .ok s
  | _ + 1, [] => .ok s
  | rounds + 1, jobs => do
      let wave ← (jobs.take cfg.workerTasks).mapM id
      let s ← s.processWave cfg wave
      s.processWaves rounds (jobs.drop cfg.workerTasks)

def itemJobs : Except String (Chunk A n) → List (Except StreamError (Job A n))
  | .error e => [.error (.streamFailed e)]
  | .ok chunk => (chunk.jobs cfg.workerPixels).map .ok

def processBatch (items : List (Except String (Chunk A n))) (s : MultiHorizonStreamer A L C n) :
    Except StreamError (MultiHorizonStreamer A L C n) :=
  let jobs := items.flatMap (itemJobs cfg)
  s.processWaves cfg jobs.length jobs

/-! ## One round of `advance_inner` -/

/-- The first finalizable cell of the first resolution that has one. A cell that
may have an earlier partial state on disk is never finalized here. -/
def evictNext (indices : List (Fin n)) (s : MultiHorizonStreamer A L C n) :
    Bool × MultiHorizonStreamer A L C n :=
  match indices with
  | [] => (false, s)
  | i :: rest =>
      if (s.spillRuns i).hasSpilled then s.evictNext rest
      else
        let t := (s.resolutionShards i).popCompleted s.evictionHorizon
        let s := { s with resolutionShards := Function.update s.resolutionShards i t.2 }
        match t.1 with
        | some (key, acc) => (true, s.emitFinal cfg i key acc)
        | none => s.evictNext rest

/-- Whether the groups of a child resolution complete while the scan runs. -/
def streaming (s : MultiHorizonStreamer A L C n) (res : Nat) : Bool :=
  ((List.finRange n).find? fun i => cfg.resolutions i = res).any fun i =>
    !(s.spillRuns i).hasSpilled

def flushCompleted (s : MultiHorizonStreamer A L C n) : MultiHorizonStreamer A L C n :=
  let t := s.compactor.flushCompleted s.evictionHorizon (s.streaming cfg) cfg.kernel
    s.outputBuffer cfg.outputByteLimit
  { s with compactor := t.1, outputBuffer := t.2 }

/-- Held sibling groups may still emit records north of the horizon. -/
def publish (s : MultiHorizonStreamer A L C n) : MultiHorizonStreamer A L C n :=
  if s.bufferedLen = 0 ∧ s.anySpilled = false then
    let t := s.compactor.pendingEmitSouth
    { s with compactor := t.2, currentLatHorizon := max s.evictionHorizon t.1 }
  else s

/-- Every sample of the batch has been merged or persisted. -/
def advanceHorizon (s : MultiHorizonStreamer A L C n) : MultiHorizonStreamer A L C n :=
  if s.anySpilled then s
  else { s with evictionHorizon := cfg.suffixMaxNorthLat s.processedChunkCount }

abbrev Failure (A L C : Type) (n : Nat) [LinearOrder L] := MultiHorizonStreamer A L C n × StreamError

def nextItems (s : MultiHorizonStreamer A L C n) : List (Except String (Chunk A n)) :=
  (s.prefetcher.getD []).take
    (max 1 (min (cfg.ready s.batches) (cfg.nextBatchLen s.processedChunkCount)))

def readBatch (s : MultiHorizonStreamer A L C n) :
    Except (Failure A L C n) (MultiHorizonStreamer A L C n) :=
  let items := s.nextItems cfg
  if items.isEmpty then
    if s.processedChunkCount ≠ cfg.norths.length then
      .error (s, .streamFailed ("Prefetch ended after " ++ toString s.processedChunkCount ++
        " of " ++ toString cfg.norths.length ++ " chunks"))
    else .ok { s with prefetcher := none, finishing := true }
  else
    match s.processBatch cfg items with
    | .error e => .error (s, e)
    | .ok t => .ok (advanceHorizon cfg
        { t with
          prefetcher := s.prefetcher.map (·.drop items.length)
          batches := s.batches + 1
          processedChunkCount := s.processedChunkCount + items.length })

def readStep (s : MultiHorizonStreamer A L C n) :
    Except (Failure A L C n) (MultiHorizonStreamer A L C n) :=
  if cfg.canEvictEarly then
    let e := s.evictNext cfg (List.finRange n)
    if e.1 then .ok e.2
    else
      let f := e.2.flushCompleted cfg
      if e.2.outputBuffer.len < f.outputBuffer.len then .ok f else f.publish.readBatch cfg
  else s.publish.readBatch cfg

def openReader (i : Fin n) (s : MultiHorizonStreamer A L C n) :
    Except (Failure A L C n) (MultiHorizonStreamer A L C n) :=
  if (s.spillRuns i).hasSpilled then
    match s.spillResolution i with
    | .error e => .error (s, e)
    | .ok s =>
        match (s.spillRuns i).finish A with
        | .error e => .error (s, .io e)
        | .ok (reader, runs) => .ok
            { s with
              spillRuns := Function.update s.spillRuns i runs
              finalReader := reader.map fun r => (i, .disk r)
              finalResolution := s.finalResolution + 1 }
  else
    let t := (s.resolutionShards i).takeSorted
    .ok
      { s with
        resolutionShards := Function.update s.resolutionShards i t.2
        finalReader := some (i, .memory t.1)
        finalResolution := s.finalResolution + 1 }

def finishStep (s : MultiHorizonStreamer A L C n) :
    Except (Failure A L C n) (MultiHorizonStreamer A L C n) :=
  match s.finalReader with
  | some (i, reader) =>
      match reader.nextRecord with
      | .error e => .error (s, .io e)
      | .ok (some (key, acc), reader) =>
          .ok ({ s with finalReader := some (i, reader) }.emitFinal cfg i key acc)
      | .ok (none, _) =>
          let t := s.compactor.flushResolution (cfg.resolutions i) cfg.kernel s.outputBuffer
          .ok
            { s with
              finalReader := none
              compactor := t.1
              outputBuffer := t.2
              compactionParent := none }
  | none =>
      if h : s.finalResolution < n then s.openReader ⟨s.finalResolution, h⟩
      else
        let t := s.compactor.flushAll cfg.kernel s.outputBuffer
        .ok
          { s with
            compactor := t.1
            outputBuffer := t.2
            lifecycle := s.lifecycle.markFinished }

def step (s : MultiHorizonStreamer A L C n) :
    Except (Failure A L C n) (MultiHorizonStreamer A L C n) :=
  if s.finishing then s.finishStep cfg else s.readStep cfg

/-! ## Pages -/

/-- The loop condition of `advance_inner`. -/
def wantsMore (minRows : Nat) (s : MultiHorizonStreamer A L C n) : Bool :=
  s.bufferedLen < minRows ∧ s.lifecycle ≠ .finished ∧
    (s.bufferedLen = 0 ∨ s.bufferedBytes < cfg.outputByteLimit)

def advanceInner (minRows rounds : Nat) (s : MultiHorizonStreamer A L C n) :
    Except (Failure A L C n) (MultiHorizonStreamer A L C n) :=
  match rounds with
  | 0 => .ok s
  | rounds + 1 =>
      if s.wantsMore cfg minRows then do advanceInner minRows rounds (← s.step cfg)
      else .ok s

/-- Everything that could still be read is dropped, and the reason is latched. -/
def fail (reason : String) (s : MultiHorizonStreamer A L C n) : MultiHorizonStreamer A L C n :=
  { s with
    prefetcher := none
    outputBuffer := .empty
    partition := s.partition.map fun p => { p with partials := .empty }
    compactor := s.compactor.clear
    resolutionShards := fun i => (s.resolutionShards i).takeSorted.2
    spillRuns := fun _ => .new cfg.accumulatorLimit
    finalReader := none
    lifecycle := s.lifecycle.latchFailure reason }

/-- The new state, and the error the call ends with, if any. -/
def advanceUntilCompleted (minRows rounds : Nat) (s : MultiHorizonStreamer A L C n) :
    Option StreamError × MultiHorizonStreamer A L C n :=
  match s.lifecycle with
  | .failed reason => (some (.streamFailed reason), s)
  | _ =>
      match s.advanceInner cfg (min minRows 2048) rounds with
      | .ok s => (none, s)
      | .error (s, .transformFailures count) =>
          (some (.transformFailures count), s.fail cfg (StreamError.transformFailures count).message)
      | .error (s, e) => (some (.streamFailed e.message), s.fail cfg e.message)

/-- A page of a partitioned scan: records first, then partial cells. -/
def drainPartitionedInto (maxRows : Nat) (s : MultiHorizonStreamer A L C n) :
    (List (Record A) × List (PartialCell A)) × MultiHorizonStreamer A L C n :=
  let t := s.outputBuffer.drainInto maxRows
  match s.partition with
  | none => ((t.1, []), { s with outputBuffer := t.2 })
  | some p =>
      let u := p.partials.drainInto (maxRows - t.1.length)
      ((t.1, u.1), { s with outputBuffer := t.2, partition := some { p with partials := u.2 } })

/-- Record-only reads would lose the partial cells of a partitioned scan. -/
def rejectPartitioned (s : MultiHorizonStreamer A L C n) : Option StreamError :=
  s.partition.map fun _ => .invalidParameter
    "partitioned scans emit partial cells; drain them with drain_partitioned_into"

end MultiHorizonStreamer

/-! ## The consumer -/

inductive Read where
  | drainCompletedInto
  | drainPartitionedInto
  deriving DecidableEq, Repr

/-- One call of the consumer. `rounds` is what the loop of `advance_inner` may use. -/
structure Page where
  read : Read
  maxRows : Nat
  rounds : Nat
  deriving DecidableEq, Repr

/-- A stream and what its consumer has drained. -/
structure Session (A L C : Type) (n : Nat) [LinearOrder L] where
  stream : MultiHorizonStreamer A L C n
  records : List (Record A)
  partials : List (PartialCell A)
  errors : List StreamError

namespace Session

variable [SpillAccumulator A] [LinearOrder L] [BoundedOrder L] (cfg : Setup A L C n)

def page (s : Session A L C n) (p : Page) : Session A L C n :=
  match if p.read = .drainCompletedInto then s.stream.rejectPartitioned else none with
  | some e => { s with errors := s.errors ++ [e] }
  | none =>
      match s.stream.advanceUntilCompleted cfg p.maxRows p.rounds with
      | (some e, stream) => { s with stream := stream, errors := s.errors ++ [e] }
      | (none, stream) =>
          let t := stream.drainPartitionedInto p.maxRows
          { s with
            stream := t.2
            records := s.records ++ t.1.1
            partials := s.partials ++ t.1.2 }

def run (s : Session A L C n) (pages : List Page) : Session A L C n := pages.foldl (page cfg) s

end Session

end RasterH3.Agg
