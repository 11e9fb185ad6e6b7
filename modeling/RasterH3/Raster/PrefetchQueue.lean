import Mathlib.Data.List.Basic
import Mathlib.Logic.Relation

/-!
# The ordered prefetch queue

`OrderedPrefetchQueue` is a bounded ring. Decode workers deposit the result
of job `id` in slot `id % capacity`, and one consumer takes the slots in job
order. Every method runs under one mutex and gives it up only inside a
condition-variable wait, so the atomic steps of the queue are the stretches
between taking the lock (or waking) and returning (or waiting again). The
functions below are those stretches, one for each place where a thread can
pick the lock up: a `push`, a `close`, a `fail`, a `drain_into` waiting for
its first item, and a `drain_into` waiting for more.

A wait releases the lock and changes nothing, and every wait sits in a loop
that re-tests its condition. Waking is therefore modelled as running the
same stretch again at any later moment, which covers every order of
notifications, spurious ones included.
-/

namespace RasterH3.Raster

/-- The fields of `OrderedQueueState` the methods read and write. -/
structure OrderedQueueState (T : Type) where
  slots : List (Option T)
  nextRead : Nat
  closed : Bool
  terminalItem : Option T

/-- `OrderedPrefetchQueue`: the two constants, fixed when it is built. -/
structure OrderedPrefetchQueue where
  capacity : Nat
  totalJobs : Nat

namespace OrderedPrefetchQueue

variable {T : Type}

/-- `OrderedPrefetchQueue::new` raises the capacity to sixteen. -/
def new (capacity totalJobs : Nat) : OrderedPrefetchQueue :=
  { capacity := max capacity 16, totalJobs }

def initial (T : Type) (q : OrderedPrefetchQueue) : OrderedQueueState T :=
  { slots := List.replicate q.capacity none
    nextRead := 0
    closed := false
    terminalItem := none }

/-- The slot job `id` uses, read as the ring reads it. -/
def slot (q : OrderedPrefetchQueue) (st : OrderedQueueState T) (id : Nat) :
    Option T :=
  (st.slots[id % q.capacity]?).join

/-- `slots[id % capacity].take()` of a full slot, and the step forward that
always goes with it. -/
def takeSlot (q : OrderedPrefetchQueue) (st : OrderedQueueState T) :
    OrderedQueueState T :=
  { st with
    slots := st.slots.set (st.nextRead % q.capacity) none
    nextRead := st.nextRead + 1 }

/-- `push`, from the moment it holds the lock. `none` is the wait on
`not_full`; otherwise the answer `push` returns and the state it leaves. -/
def push (q : OrderedPrefetchQueue) (jobId : Nat) (item : T)
    (st : OrderedQueueState T) : Option (Bool × OrderedQueueState T) :=
  if st.nextRead + q.capacity ≤ jobId ∧ st.closed = false then none
  else if st.closed then some (false, st)
  else some (true,
    { st with slots := st.slots.set (jobId % q.capacity) (some item) })

def close (st : OrderedQueueState T) : OrderedQueueState T :=
  { st with closed := true }

/-- `fail` keeps the first error reported while the queue is open. -/
def fail (item : T) (st : OrderedQueueState T) : OrderedQueueState T :=
  if st.closed then st
  else { st with terminalItem := some item, closed := true }

/-- The locals of one `drain_into` call. `batch` holds what this call has
appended to the caller's vector, so the two targets are relative to the
length the vector came in with. -/
structure DrainCall (T : Type) where
  batch : List T
  targetMin : Nat
  targetMax : Nat

def DrainCall.start (T : Type) (minBatch maxBatch : Nat) : DrainCall T :=
  { batch := []
    targetMin := max minBatch 1
    targetMax := max maxBatch minBatch }

/-- Where a `drain_into` call sleeps on `not_empty`: before its first item
(step 1 of the source) or short of its minimum batch (step 3). -/
inductive DrainPc where
  | first
  | more
  deriving DecidableEq

/-- A stretch of `drain_into` ends asleep or with a return. The source
appends a terminal item to the batch like any other; the return keeps it
apart, so that it can be told from a job's result. -/
inductive DrainOutcome (T : Type) where
  | waiting (pc : DrainPc) (call : DrainCall T) (st : OrderedQueueState T)
  | returned (batch : List T) (terminal : Option T) (st : OrderedQueueState T)

/-- Neither wait has anything to wait for once this is false. -/
def mustWait (q : OrderedPrefetchQueue) (st : OrderedQueueState T) : Bool :=
  st.nextRead < q.totalJobs && (q.slot st st.nextRead).isNone && !st.closed

/-- Step 2: take contiguous ready items up to `target_max`. The fuel is the
room left in the batch, one unit for each item taken. -/
def takeReady (q : OrderedPrefetchQueue) :
    Nat → DrainCall T → OrderedQueueState T →
      DrainCall T × OrderedQueueState T
  | 0, call, st => (call, st)
  | room + 1, call, st =>
      if st.nextRead < q.totalJobs then
        match q.slot st st.nextRead with
        | some item =>
            takeReady q room { call with batch := call.batch ++ [item] }
              (q.takeSlot st)
        | none => (call, st)
      else (call, st)

/-- The end of `drain_into`: a terminal item goes out behind the batch. -/
def finishDrain (q : OrderedPrefetchQueue) (call : DrainCall T)
    (st : OrderedQueueState T) : DrainOutcome T :=
  match st.terminalItem with
  | some item =>
      .returned call.batch (some item)
        { st with terminalItem := none, nextRead := q.totalJobs }
  | none => .returned call.batch none st

/-- Step 3, from the test of its outer loop. Every round takes an item, so
the room below `target_min` bounds the rounds. -/
def gather (q : OrderedPrefetchQueue) :
    Nat → DrainCall T → OrderedQueueState T → DrainOutcome T
  | 0, call, st => q.finishDrain call st
  | room + 1, call, st =>
      if st.nextRead < q.totalJobs ∧ st.closed = false then
        match q.slot st st.nextRead with
        | some item =>
            gather q room { call with batch := call.batch ++ [item] }
              (q.takeSlot st)
        | none => .waiting .more call st
      else q.finishDrain call st

/-- Step 3, from a wake-up of its inner wait. The queue may have been closed
meanwhile: the item waited for is then still taken if it is there. -/
def resumeMore (q : OrderedPrefetchQueue) (call : DrainCall T)
    (st : OrderedQueueState T) : DrainOutcome T :=
  if q.mustWait st then .waiting .more call st
  else if st.nextRead < q.totalJobs then
    match q.slot st st.nextRead with
    | some item =>
        let call := { call with batch := call.batch ++ [item] }
        q.gather (call.targetMin - call.batch.length) call (q.takeSlot st)
    | none => q.finishDrain call st
  else q.finishDrain call st

/-- Steps 1 and 2, from the test of the first wait. -/
def resumeFirst (q : OrderedPrefetchQueue) (call : DrainCall T)
    (st : OrderedQueueState T) : DrainOutcome T :=
  if q.mustWait st then .waiting .first call st
  else match st.terminalItem with
    | some item =>
        .returned call.batch (some item)
          { st with terminalItem := none, nextRead := q.totalJobs }
    | none =>
        if q.totalJobs ≤ st.nextRead ∨
            (st.closed = true ∧ (q.slot st st.nextRead).isNone) then
          .returned [] none st
        else
          let (call, st) := q.takeReady (call.targetMax - call.batch.length) call st
          q.gather (call.targetMin - call.batch.length) call st

def resume (q : OrderedPrefetchQueue) :
    DrainPc → DrainCall T → OrderedQueueState T → DrainOutcome T
  | .first => q.resumeFirst
  | .more => q.resumeMore

end OrderedPrefetchQueue

/-! ## The queue with its callers

The workers are kept as general as the claim of the source allows: any job
whose `push` has not returned yet may run its stretch at any moment, which
covers every number of threads and every assignment of jobs to them. The
consumer is one thread, inside at most one `drain_into` at a time. -/

open OrderedPrefetchQueue

/-- What the consumer sees: the result of a job, the terminal error, or a
`drain_into` that was asked for at least one item and returned none. -/
inductive Delivery (T : Type) where
  | item (value : T)
  | error (value : T)
  | endOfStream

def Delivery.item? {T : Type} : Delivery T → Option T
  | .item value => some value
  | _ => none

def Delivery.error? {T : Type} : Delivery T → Option T
  | .error value => some value
  | _ => none

/-- The queue, its workers and its consumer. -/
structure QueueSystem (T : Type) where
  queue : OrderedQueueState T
  /-- Jobs whose `push` returned, with its answer. -/
  answered : List (Nat × Bool)
  /-- The `drain_into` call the consumer is asleep in. -/
  consumer : Option (DrainPc × DrainCall T)
  /-- Everything delivered so far, oldest first. -/
  delivered : List (Delivery T)
  /-- The first error a worker reported while the queue was open. -/
  failure : Option T

namespace QueueSystem

variable {T : Type}

def initial (T : Type) (q : OrderedPrefetchQueue) : QueueSystem T :=
  { queue := q.initial T
    answered := []
    consumer := none
    delivered := []
    failure := none }

/-- The jobs whose result the queue accepted. -/
def pushed (s : QueueSystem T) : List Nat :=
  (s.answered.filter Prod.snd).map Prod.fst

/-- The results among the deliveries, in order. -/
def items (s : QueueSystem T) : List T :=
  s.delivered.filterMap Delivery.item?

/-- The errors among the deliveries. -/
def errors (s : QueueSystem T) : List T :=
  s.delivered.filterMap Delivery.error?

/-- What a returned batch looks like to the consumer. A call that left no
room for an item says nothing about the stream by returning none. -/
def deliveries (call : DrainCall T) (batch : List T) (terminal : Option T) :
    List (Delivery T) :=
  match batch, terminal with
  | [], none => if 0 < call.targetMax then [.endOfStream] else []
  | batch, terminal => batch.map .item ++ terminal.toList.map .error

/-- The consumer goes back to sleep, or gets its batch. -/
def afterDrain (s : QueueSystem T) (call : DrainCall T) :
    DrainOutcome T → QueueSystem T
  | .waiting pc call st => { s with queue := st, consumer := some (pc, call) }
  | .returned batch terminal st =>
      { s with
        queue := st
        consumer := none
        delivered := s.delivered ++ deliveries call batch terminal }

/-- One atomic step of the consumer, inside the call `call`: it enters
`drain_into`, or wakes in the call it is asleep in. -/
inductive ConsumerStep (q : OrderedPrefetchQueue) :
    DrainCall T → QueueSystem T → QueueSystem T → Prop where
  | drain {s : QueueSystem T} (minBatch maxBatch : Nat)
      (hidle : s.consumer = none) :
      ConsumerStep q (DrainCall.start T minBatch maxBatch) s
        (s.afterDrain (DrainCall.start T minBatch maxBatch)
          (q.resumeFirst (DrainCall.start T minBatch maxBatch) s.queue))
  | wake {s : QueueSystem T} {pc : DrainPc} {call : DrainCall T}
      (hasleep : s.consumer = some (pc, call)) :
      ConsumerStep q call s (s.afterDrain call (q.resume pc call s.queue))

/-- One atomic step of some thread. -/
inductive Step (q : OrderedPrefetchQueue) (result : Nat → T) :
    QueueSystem T → QueueSystem T → Prop where
  | push {s : QueueSystem T} {id : Nat} {ok : Bool} {st : OrderedQueueState T}
      (hid : id < q.totalJobs) (hnew : id ∉ s.answered.map Prod.fst)
      (hpush : q.push id (result id) s.queue = some (ok, st)) :
      Step q result s
        { s with queue := st, answered := s.answered ++ [(id, ok)] }
  | close {s : QueueSystem T} :
      Step q result s { s with queue := OrderedPrefetchQueue.close s.queue }
  | fail {s : QueueSystem T} (error : T) :
      Step q result s
        { s with
          queue := OrderedPrefetchQueue.fail error s.queue
          failure := if s.queue.closed then s.failure else some error }
  | consume {s s' : QueueSystem T} {call : DrainCall T}
      (hstep : ConsumerStep q call s s') :
      Step q result s s'

/-- The states some interleaving reaches. -/
def Reachable (q : OrderedPrefetchQueue) (result : Nat → T)
    (s : QueueSystem T) : Prop :=
  Relation.ReflTransGen (Step q result) (initial T q) s

end QueueSystem

end RasterH3.Raster
