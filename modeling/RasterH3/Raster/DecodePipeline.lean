import RasterH3.Lib.Charges
import RasterH3.Raster.PrefetchQueue
import Mathlib

/-!
# Decoding a mosaic within a budget

Workers take the chunks of a mosaic in order. For each they reserve the expected bytes of
the decoded chunk, decode it, settle for what the decoder allocated, and push the result
into the ordered queue. The consumer drains the queue, and returns every buffer when it is
done with it. The budget keeps returned buffers for reuse, still charged, and evicts them
when a reservation needs room.

As in the queue, a step is a stretch between taking a lock and giving it up, or falling
asleep on a condition variable. Every wait of the source sits in a loop that tests its
condition again, so a thread that is awake again runs the same stretch from the top. Who is
asleep is kept apart, in the threads at the end: a thread that sleeps takes no step until
another one notifies the condition variable it sleeps on, or until it wakes for no reason,
as the standard library allows. Each stretch says which condition variables it notifies
under the lock, and whether it notifies `changed` once more after giving the lock up, as
`DecodeBudget::close` does: that is then a step of its own, before which others may run.

A buffer is modelled by its bytes. Its charge remembers, for the results only, the bytes
its job was granted. What the decoder makes of a job is a parameter.
-/

namespace RasterH3.Raster

open OrderedPrefetchQueue Charges

/-! ## The budget -/

/-- A decoded buffer by its bytes. Nothing reads the bytes granted to its job. -/
abbrev Buffer := Charge

def decodedBufferBytes (buffer : Option Buffer) : Nat := (buffer.getD 0).bytes

structure DecodeBudget where
  limit : Nat
  idleCapacity : Nat

structure BudgetState where
  used : Nat
  nextJob : Nat
  closed : Bool
  /-- The bytes of the idle buffers, the one recycled last first. -/
  idle : List Buffer

/-- How a stretch of `acquire` ends, behind the turn of the job: asleep with the idle buffer
it took, refused, or granted a charge. -/
inductive Acquire where
  | waiting (buffer : Option Buffer) (st : BudgetState)
  | refused (st : BudgetState)
  | granted (charged : Nat) (st : BudgetState)

namespace DecodeBudget

/-- The loop of `acquire`: whether the reservation fits, after evicting idle buffers. -/
def reserveLoop (b : DecodeBudget) (extra credit : Nat) :
    Nat → List Buffer → Bool × Nat × List Buffer
  | used, [] => (decide (used + extra ≤ b.limit ∨ used - credit = 0), used, [])
  | used, evicted :: idle =>
      if used + extra ≤ b.limit ∨ used - credit = 0 then (true, used, evicted :: idle)
      else reserveLoop b extra credit (used - evicted.bytes) idle

/-- `acquire`, from the top of its loop. -/
def reserve (b : DecodeBudget) (need : Nat) (buffer : Option Buffer) (st : BudgetState) :
    Acquire :=
  let credit := decodedBufferBytes buffer
  if st.closed then .refused { st with used := st.used - credit }
  else
    let extra := need - credit
    let (fits, used, idle) := b.reserveLoop extra credit st.used st.idle
    if fits then
      .granted (credit + extra) { st with used := used + extra, nextJob := st.nextJob + 1, idle }
    else .waiting buffer { st with used, idle }

/-- `acquire`, from the wait for the turn of the job: `none` if it waits on. -/
def turn (b : DecodeBudget) (need jobId : Nat) (st : BudgetState) : Option Acquire :=
  if st.nextJob ≠ jobId ∧ st.closed = false then none
  else
    match st.idle with
    | [] => some (b.reserve need none st)
    | buffer :: idle => some (b.reserve need (some buffer) { st with idle })

def settle (charged actual : Nat) (st : BudgetState) : BudgetState :=
  { st with used := st.used - charged + actual }

/-- Whether `recycle` frees the buffer, rather than keeping it for reuse. -/
def frees (b : DecodeBudget) (st : BudgetState) : Bool :=
  st.closed || decide (b.idleCapacity ≤ st.idle.length)

def recycle (b : DecodeBudget) (buffer : Buffer) (st : BudgetState) : BudgetState :=
  if b.frees st then { st with used := st.used - buffer.bytes }
  else { st with idle := buffer :: st.idle }

def close (st : BudgetState) : BudgetState :=
  { st with closed := true, used := st.used - (st.idle.map Charge.bytes).sum, idle := [] }

end DecodeBudget

/-! ## Workers and consumer -/

/-- What the queue carries: a decoded buffer, or `none` for an error. -/
abbrev Item := Option Buffer

inductive DecodeWorker where
  /-- Before the test whether the queue is closed. -/
  | top
  /-- Before the next job is counted. -/
  | counting
  | awaiting (job : Nat)
  | reserving (job : Nat) (buffer : Option Buffer)
  | decoding (job charged : Nat)
  | pushing (job charged : Nat)
  /-- The push was refused, and the bytes are to be given back. -/
  | returning (job charged : Nat)
  /-- The decoder did not open or panicked: the budget is to be closed. -/
  | closing
  /-- The queue is to be told of the failure. -/
  | failing
  | exited
  deriving DecidableEq

/-- The consumer drains until the stream ends, and may drop the reader. -/
inductive Reader where
  | draining
  | stopped
  /-- The queue is closed, and the budget is to be closed. -/
  | closing
  | dropped
  deriving DecidableEq

/-- What is fixed when the reader is spawned, and what the decoder makes of each job: the
bytes of a buffer, or an error. -/
structure DecodePlan where
  limit : Nat
  bufferCapacity : Nat
  totalJobs : Nat
  numWorkers : Nat
  need : Nat → Nat
  result : Nat → Option Nat

namespace DecodePlan

/-- What a job that was charged `charged` bytes hands to the queue. -/
def item (p : DecodePlan) (job charged : Nat) : Item :=
  (p.result job).map fun bytes => ⟨bytes, charged⟩

def queue (p : DecodePlan) : OrderedPrefetchQueue :=
  OrderedPrefetchQueue.new (max p.bufferCapacity 16) p.totalJobs

def budget (p : DecodePlan) : DecodeBudget := ⟨p.limit, max p.bufferCapacity 16⟩

end DecodePlan

structure Pipeline where
  budget : BudgetState
  queue : QueueSystem Item
  nextJobIdx : Nat
  workers : List DecodeWorker
  reader : Reader
  /-- The buffers the consumer has not recycled yet. -/
  held : List Buffer
  /-- The jobs granted so far, oldest first. -/
  grants : List Nat
  /-- The charges of decodes that panicked. -/
  panicked : List Nat

namespace Pipeline

variable (p : DecodePlan)

def initial : Pipeline :=
  { budget := { used := 0, nextJob := 0, closed := false, idle := [] }
    queue := QueueSystem.initial Item p.queue
    nextJobIdx := 0
    workers := List.replicate (min (max p.numWorkers 1) p.totalJobs) .top
    reader := .draining
    held := []
    grants := []
    panicked := [] }

def setWorker (s : Pipeline) (w : Nat) (pc : DecodeWorker) : Pipeline :=
  { s with workers := s.workers.set w pc }

def afterAcquire (s : Pipeline) (w job : Nat) : Acquire → Pipeline
  | .waiting buffer st => { s.setWorker w (.reserving job buffer) with budget := st }
  | .refused st => { s.setWorker w .exited with budget := st }
  | .granted charged st =>
      { s.setWorker w (.decoding job charged) with budget := st, grants := s.grants ++ [job] }

/-- The buffers in a drained batch. -/
def drained : DrainOutcome Item → List Buffer
  | .returned batch _ _ => batch.filterMap id
  | .waiting .. => []

/-- Whether a drained batch tells the consumer that the stream has ended. -/
def ends : DrainOutcome Item → Bool
  | .returned [] none _ => true
  | _ => false

/-- The consumer asks for at least one item. -/
def afterDrain (s : Pipeline) (call : DrainCall Item) (o : DrainOutcome Item) : Pipeline :=
  { s with
    queue := s.queue.afterDrain call o
    held := s.held ++ drained o
    reader := if ends o then .stopped else s.reader }

end Pipeline

/-! ## What a stretch notifies -/

/-- The threads that share the pipeline. -/
inductive Actor where
  | worker (w : Nat)
  | reader
  deriving DecidableEq

/-- `changed` of the budget, and the two of the queue. -/
inductive Condvar where
  | changed
  | notFull
  | notEmpty
  deriving DecidableEq

structure Stretch where
  actor : Actor
  /-- What it notifies under the lock. -/
  notified : List Condvar := []
  /-- Whether it notifies `changed` after it has given the lock up. -/
  later : Bool := false
  /-- What it falls asleep on at its end. -/
  sleeps : Option Condvar := none

def Acquire.stretch (a : Acquire) (actor : Actor) : Stretch :=
  match a with
  | .waiting _ _ => { actor, sleeps := some .changed }
  | .refused _ => { actor }
  | .granted _ _ => { actor, notified := [.changed] }

/-- `settle` notifies only if there is more room than before. -/
def settleStretch (actor : Actor) (charged actual : Nat) : Stretch :=
  { actor, notified := if actual < charged then [.changed] else [] }

/-- `push` wakes the consumer only for the job it waits for. -/
def pushStretch (actor : Actor) (ok : Bool) (job : Nat) (st : OrderedQueueState Item) : Stretch :=
  { actor, notified := if ok = true ∧ job = st.nextRead then [.notEmpty] else [] }

/-- `drain_into` publishes the room it made when it returns, and before each wait for more
items. -/
def drainStretch : DrainOutcome Item → Stretch
  | .waiting .first _ _ => { actor := .reader, sleeps := some .notEmpty }
  | .waiting .more _ _ => { actor := .reader, notified := [.notFull], sleeps := some .notEmpty }
  | .returned [] _ _ => { actor := .reader }
  | .returned _ _ _ => { actor := .reader, notified := [.notFull] }

def recycleStretch (frees : Bool) : Stretch :=
  if frees then { actor := .reader, later := true }
  else { actor := .reader, notified := [.changed] }

namespace Pipeline

variable (p : DecodePlan)

/-- One stretch of a worker, or of a consumer that goes on. -/
inductive Advance : Stretch → Pipeline → Pipeline → Prop where
  | check {s : Pipeline} {w : Nat} (hpc : s.workers[w]? = some .top) :
      Advance { actor := .worker w } s
        (s.setWorker w (if s.queue.queue.closed then .exited else .counting))
  | count {s : Pipeline} {w : Nat} (hpc : s.workers[w]? = some .counting) :
      Advance { actor := .worker w } s
        { s.setWorker w (if s.nextJobIdx < p.totalJobs then .awaiting s.nextJobIdx else .exited) with
          nextJobIdx := s.nextJobIdx + 1 }
  | awaitTurn {s : Pipeline} {w job : Nat} (hpc : s.workers[w]? = some (.awaiting job))
      (hturn : p.budget.turn (p.need job) job s.budget = none) :
      Advance { actor := .worker w, sleeps := some .changed } s s
  | turn {s : Pipeline} {w job : Nat} {a : Acquire} (hpc : s.workers[w]? = some (.awaiting job))
      (hturn : p.budget.turn (p.need job) job s.budget = some a) :
      Advance (a.stretch (.worker w)) s (s.afterAcquire w job a)
  | retry {s : Pipeline} {w job : Nat} {buffer : Option Buffer}
      (hpc : s.workers[w]? = some (.reserving job buffer)) :
      Advance ((p.budget.reserve (p.need job) buffer s.budget).stretch (.worker w)) s
        (s.afterAcquire w job (p.budget.reserve (p.need job) buffer s.budget))
  | decoded {s : Pipeline} {w job charged : Nat}
      (hpc : s.workers[w]? = some (.decoding job charged)) :
      Advance (settleStretch (.worker w) charged (decodedBufferBytes (p.item job charged))) s
        { s.setWorker w (.pushing job charged) with
          budget :=
            DecodeBudget.settle charged (decodedBufferBytes (p.item job charged)) s.budget }
  | openFailed {s : Pipeline} {w job charged : Nat}
      (hpc : s.workers[w]? = some (.decoding job charged)) :
      Advance (settleStretch (.worker w) charged 0) s
        { s.setWorker w .closing with budget := DecodeBudget.settle charged 0 s.budget }
  | panicked {s : Pipeline} {w job charged : Nat}
      (hpc : s.workers[w]? = some (.decoding job charged)) :
      Advance { actor := .worker w } s
        { s.setWorker w .closing with panicked := charged :: s.panicked }
  | closeBudget {s : Pipeline} {w : Nat} (hpc : s.workers[w]? = some .closing) :
      Advance { actor := .worker w, later := true } s
        { s.setWorker w .failing with budget := DecodeBudget.close s.budget }
  | fail {s : Pipeline} {w : Nat} (hpc : s.workers[w]? = some .failing) :
      Advance { actor := .worker w, notified := [.notEmpty, .notFull] } s
        { s.setWorker w .exited with
          queue :=
            { s.queue with
              queue := OrderedPrefetchQueue.fail none s.queue.queue
              failure := if s.queue.queue.closed then s.queue.failure else some none } }
  | awaitRoom {s : Pipeline} {w job charged : Nat}
      (hpc : s.workers[w]? = some (.pushing job charged))
      (hpush : p.queue.push job (p.item job charged) s.queue.queue = none) :
      Advance { actor := .worker w, sleeps := some .notFull } s s
  | push {s : Pipeline} {w job charged : Nat} {ok : Bool} {st : OrderedQueueState Item}
      (hpc : s.workers[w]? = some (.pushing job charged))
      (hpush : p.queue.push job (p.item job charged) s.queue.queue = some (ok, st)) :
      Advance (pushStretch (.worker w) ok job st) s
        { s.setWorker w (if ok then .top else .returning job charged) with
          queue := { s.queue with queue := st, answered := s.queue.answered ++ [(job, ok)] } }
  | giveBack {s : Pipeline} {w job charged : Nat}
      (hpc : s.workers[w]? = some (.returning job charged)) :
      Advance (settleStretch (.worker w) (decodedBufferBytes (p.item job charged)) 0) s
        { s.setWorker w .exited with
          budget :=
            DecodeBudget.settle (decodedBufferBytes (p.item job charged)) 0 s.budget }
  | drain {s : Pipeline} (maxBatch : Nat) (hreader : s.reader = .draining)
      (hidle : s.queue.consumer = none) (hrecycled : s.held = []) :
      Advance
        (drainStretch (p.queue.resumeFirst (DrainCall.start Item 1 maxBatch) s.queue.queue)) s
        (s.afterDrain (DrainCall.start Item 1 maxBatch)
          (p.queue.resumeFirst (DrainCall.start Item 1 maxBatch) s.queue.queue))
  | wake {s : Pipeline} {pc : DrainPc} {call : DrainCall Item}
      (hasleep : s.queue.consumer = some (pc, call)) :
      Advance (drainStretch (p.queue.resume pc call s.queue.queue)) s
        (s.afterDrain call (p.queue.resume pc call s.queue.queue))
  | recycle {s : Pipeline} {i : Nat} {buffer : Buffer} (hheld : s.held[i]? = some buffer)
      (hreader : s.reader = .draining ∨ s.reader = .stopped) :
      Advance (recycleStretch (p.budget.frees s.budget)) s
        { s with
          budget := p.budget.recycle buffer s.budget
          held := s.held.eraseIdx i }
  | finishDrop {s : Pipeline} (hreader : s.reader = .closing) :
      Advance { actor := .reader, later := true } s
        { s with budget := DecodeBudget.close s.budget, reader := .dropped }

/-- One stretch of anybody: the consumer may drop the reader between two calls. -/
inductive Step : Stretch → Pipeline → Pipeline → Prop where
  | advance {σ : Stretch} {s s' : Pipeline} (h : Advance p σ s s') : Step σ s s'
  | drop {s : Pipeline} (hidle : s.queue.consumer = none)
      (hreader : s.reader = .draining ∨ s.reader = .stopped) :
      Step { actor := .reader, notified := [.notEmpty, .notFull] } s
        { s with
          queue := { s.queue with queue := OrderedPrefetchQueue.close s.queue.queue }
          reader := .closing }

end Pipeline

/-! ## Threads that sleep -/

structure Threads where
  pipe : Pipeline
  /-- What a thread sleeps on. -/
  asleep : Actor → Option Condvar
  /-- Whether a thread has given the lock up and has yet to notify `changed`. -/
  notifying : Actor → Bool

namespace Threads

variable (p : DecodePlan)

def initial : Threads :=
  { pipe := Pipeline.initial p, asleep := fun _ => none, notifying := fun _ => false }

/-- `notify_all` wakes whoever sleeps on the condition variable. -/
def notifyAll (notified : List Condvar) (asleep : Actor → Option Condvar) :
    Actor → Option Condvar :=
  fun a => (asleep a).filter fun c => !notified.contains c

/-- A thread that can take its next step. -/
def Running (t : Threads) (a : Actor) : Prop := t.asleep a = none ∧ t.notifying a = false

def afterStretch (t : Threads) (σ : Stretch) (s : Pipeline) : Threads :=
  { pipe := s
    asleep := Function.update (notifyAll σ.notified t.asleep) σ.actor σ.sleeps
    notifying := Function.update t.notifying σ.actor σ.later }

inductive Step : Threads → Threads → Prop where
  | run {t : Threads} {σ : Stretch} {s : Pipeline} (hrunning : t.Running σ.actor)
      (h : Pipeline.Step p σ t.pipe s) : Step t (t.afterStretch σ s)
  | notify {t : Threads} {a : Actor} (hnotifying : t.notifying a = true) :
      Step t
        { t with
          asleep := notifyAll [.changed] t.asleep
          notifying := Function.update t.notifying a false }
  /-- A wait may end without a notification. -/
  | spurious {t : Threads} (a : Actor) :
      Step t { t with asleep := Function.update t.asleep a none }

def Reachable (t : Threads) : Prop := Relation.ReflTransGen (Step p) (initial p) t

end Threads

end RasterH3.Raster
