import Mathlib

/-!
# The record queue of a table function

The scan threads of a query share a streamer and a queue of finished batches. A thread
looks at the queue first. If it is empty the thread takes the lock of the streamer, looks
again, and refills: the first batch it cuts is its own, the others are queued.

A step is what one thread does between two lock operations, or the operation itself. The
locks are part of the state, so that a thread can be overtaken wherever the code can be.
Nobody sees the queue while a refill runs, which holds both locks: it is one step.
-/

namespace RasterH3.DuckDb

/-! ## Refilling -/

/-- What the callback of `drain_into` captures. -/
structure Refill (R : Type) where
  currentChunk : List R
  myBatch : Option (List R)
  readyQ : List (List R)

namespace Refill

variable {R : Type}

/-- The callback. -/
def emit (batchSize : Nat) (r : Refill R) (rec : R) : Refill R :=
  let chunk := r.currentChunk ++ [rec]
  if chunk.length = batchSize then
    match r.myBatch with
    | none => { r with currentChunk := [], myBatch := some chunk }
    | some _ => { r with currentChunk := [], readyQ := r.readyQ ++ [chunk] }
  else { r with currentChunk := chunk }

/-- The last, short batch. -/
def finish (r : Refill R) : Refill R :=
  if r.currentChunk.isEmpty then r
  else
    match r.myBatch with
    | none => { r with myBatch := some r.currentChunk }
    | some _ => { r with readyQ := r.readyQ ++ [r.currentChunk] }

end Refill

/-- `batch_size * 4`, on 64 bits. -/
def refillSize (batchSize : Nat) : Nat := batchSize * 4 % 2 ^ 64

/-! ## The streamer -/

/-- A streamer behind its drain callback: asked for at most `limit` rows it emits some and
returns. Once it has failed it always fails. -/
structure Drain (S R E : Type) where
  drainInto : S → (limit : Nat) → List R → Except E Nat → S → Prop
  failed : S → Prop
  bounded : ∀ {s limit rows result s'}, drainInto s limit rows result s' → rows.length ≤ limit
  latch : ∀ {s limit rows error s'}, drainInto s limit rows (.error error) s' → failed s'
  latched : ∀ {s limit rows result s'}, failed s → drainInto s limit rows result s' →
    failed s' ∧ ∃ error, result = .error error

/-! ## The threads -/

inductive Pc where
  /-- outside `pop_or_refill` -/
  | idle
  | lockingQueue
  /-- the fast path, with the queue's lock -/
  | fastPath
  | lockingStreamer
  /-- with the streamer's lock -/
  | relockingQueue
  /-- with both locks -/
  | checking
  /-- with both locks -/
  | refilling
  deriving DecidableEq

/-- What a call of `pop_or_refill` returns. -/
inductive Outcome (R E : Type) where
  | batch (rows : List R)
  | finished
  | failed (error : E)

/-- The queue, the streamer, their locks and the threads `T`. The last two fields record
what happened: the outcomes in the order they were decided under the queue's lock, and the
drain calls with the rows they emitted. -/
structure RecordQueue (T S R E : Type) where
  readyBatches : List (List R)
  isFinished : Bool
  streamer : S
  queueLock : Option T
  streamerLock : Option T
  threads : T → Pc
  outcomes : List (T × Outcome R E)
  calls : List (List R × Except E Nat)

namespace RecordQueue

variable {T S R E : Type} [DecidableEq T]

def initial (streamer : S) : RecordQueue T S R E where
  readyBatches := []
  isFinished := false
  streamer := streamer
  queueLock := none
  streamerLock := none
  threads _ := .idle
  outcomes := []
  calls := []

def move (q : RecordQueue T S R E) (t : T) (pc : Pc) : RecordQueue T S R E :=
  { q with threads := Function.update q.threads t pc }

/-- The thread returns, and its guards are dropped. -/
def give (q : RecordQueue T S R E) (t : T) (outcome : Outcome R E) : RecordQueue T S R E :=
  { q with
    threads := Function.update q.threads t .idle
    queueLock := none
    streamerLock := if q.streamerLock = some t then none else q.streamerLock
    outcomes := q.outcomes ++ [(t, outcome)] }

/-- What a drain call that returned leaves of the queue, and what it gives the caller. -/
def refilled (batchSize : Nat) (q : RecordQueue T S R E) (t : T) (rows : List R) :
    RecordQueue T S R E :=
  let r := (rows.foldl (Refill.emit batchSize) ⟨[], none, q.readyBatches⟩).finish
  match r.myBatch with
  | some batch => { q with readyBatches := r.readyQ }.give t (.batch batch)
  | none => { q with readyBatches := r.readyQ, isFinished := true }.give t .finished

inductive Step (drain : Drain S R E) (batchSize : Nat) :
    RecordQueue T S R E → RecordQueue T S R E → Prop
  | call {q : RecordQueue T S R E} {t : T} (hpc : q.threads t = .idle) :
      Step drain batchSize q (q.move t .lockingQueue)
  | lockQueue {q : RecordQueue T S R E} {t : T} (hpc : q.threads t = .lockingQueue)
      (hfree : q.queueLock = none) :
      Step drain batchSize q { q.move t .fastPath with queueLock := some t }
  | fastPop {q : RecordQueue T S R E} {t : T} {batch : List R} {rest : List (List R)}
      (hpc : q.threads t = .fastPath) (hready : q.readyBatches = batch :: rest) :
      Step drain batchSize q ({ q with readyBatches := rest }.give t (.batch batch))
  | fastFinished {q : RecordQueue T S R E} {t : T} (hpc : q.threads t = .fastPath)
      (hready : q.readyBatches = []) (hfinished : q.isFinished = true) :
      Step drain batchSize q (q.give t .finished)
  | unlockQueue {q : RecordQueue T S R E} {t : T} (hpc : q.threads t = .fastPath)
      (hready : q.readyBatches = []) (hfinished : q.isFinished = false) :
      Step drain batchSize q { q.move t .lockingStreamer with queueLock := none }
  | lockStreamer {q : RecordQueue T S R E} {t : T} (hpc : q.threads t = .lockingStreamer)
      (hfree : q.streamerLock = none) :
      Step drain batchSize q { q.move t .relockingQueue with streamerLock := some t }
  | relockQueue {q : RecordQueue T S R E} {t : T} (hpc : q.threads t = .relockingQueue)
      (hfree : q.queueLock = none) :
      Step drain batchSize q { q.move t .checking with queueLock := some t }
  | slowPop {q : RecordQueue T S R E} {t : T} {batch : List R} {rest : List (List R)}
      (hpc : q.threads t = .checking) (hready : q.readyBatches = batch :: rest) :
      Step drain batchSize q ({ q with readyBatches := rest }.give t (.batch batch))
  | slowFinished {q : RecordQueue T S R E} {t : T} (hpc : q.threads t = .checking)
      (hready : q.readyBatches = []) (hfinished : q.isFinished = true) :
      Step drain batchSize q (q.give t .finished)
  | startRefill {q : RecordQueue T S R E} {t : T} (hpc : q.threads t = .checking)
      (hready : q.readyBatches = []) (hfinished : q.isFinished = false) :
      Step drain batchSize q (q.move t .refilling)
  | refill {q : RecordQueue T S R E} {t : T} {rows : List R} {count : Nat} {streamer : S}
      (hpc : q.threads t = .refilling)
      (hdrain : drain.drainInto q.streamer (refillSize batchSize) rows (.ok count) streamer) :
      Step drain batchSize q
        { q.refilled batchSize t rows with
          streamer := streamer
          calls := q.calls ++ [(rows, .ok count)] }
  | refillFailed {q : RecordQueue T S R E} {t : T} {rows : List R} {error : E} {streamer : S}
      (hpc : q.threads t = .refilling)
      (hdrain : drain.drainInto q.streamer (refillSize batchSize) rows (.error error) streamer) :
      -- the batches cut so far go with the callback's captures
      Step drain batchSize q
        { q.give t (.failed error) with
          readyBatches := []
          streamer := streamer
          calls := q.calls ++ [(rows, .error error)] }

/-- `with_batch_size(batch_size)` and any interleaving of calls on it. -/
def Reachable (drain : Drain S R E) (batchSize : Nat) (streamer : S)
    (q : RecordQueue T S R E) : Prop :=
  Relation.ReflTransGen (Step drain (max batchSize 1)) (initial streamer) q

/-- The batches given out, in order. -/
def batches (q : RecordQueue T S R E) : List (List R) :=
  q.outcomes.filterMap fun o =>
    match o.2 with
    | .batch rows => some rows
    | _ => none

end RecordQueue

end RasterH3.DuckDb
