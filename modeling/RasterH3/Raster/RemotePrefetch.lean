import Mathlib.Data.Finset.Basic
import Mathlib.Data.List.Basic
import Mathlib.Logic.Relation

/-!
# Prefetching remote chunks

Workers fetch coalesced ranges ahead of the consumers. The bytes of a range are charged
when a worker claims it and stay charged until the last slice of its response is dropped.
A consumer may ask for a chunk in any order: its range is then demanded, and chunks that
nobody has asked for may be evicted to make room.

The state is what the mutex of the queue guards, with the program counters of the workers.
A step is a stretch between taking the lock and giving it up. Waking from a wait is to run
the same stretch again, at any later moment. The release of a response, which takes the
lock after its last slice is gone, is a step of its own.
-/

namespace RasterH3.Raster.RemotePrefetch

/-! ## Coalesced ranges -/

structure ChunkLocation where
  tileIdx : Nat
  chunkIdx : Nat
  offset : Nat
  length : Nat

/-- The slices are the chunk, the start in the response and the length. -/
structure CoalescedRange where
  tileIdx : Nat
  startOffset : Nat
  /-- inclusive -/
  endOffset : Nat
  chunkSlices : List (Nat × Nat × Nat)
  deriving Inhabited

def rangeBytes (range : CoalescedRange) : Nat := range.endOffset - range.startOffset + 1

/-- A range of one chunk. -/
def CoalescedRange.single (chunk : ChunkLocation) : CoalescedRange :=
  { tileIdx := chunk.tileIdx
    startOffset := chunk.offset
    endOffset := chunk.offset + chunk.length - 1
    chunkSlices := [(chunk.chunkIdx, 0, chunk.length)] }

def CoalescedRange.joins (curr : CoalescedRange) (chunk : ChunkLocation)
    (maxGapBytes maxRangeBytes : Nat) : Prop :=
  curr.tileIdx = chunk.tileIdx ∧ curr.endOffset < chunk.offset ∧
    chunk.offset - (curr.endOffset + 1) ≤ maxGapBytes ∧
      chunk.offset + chunk.length - 1 + 1 - curr.startOffset ≤ maxRangeBytes

instance (curr : CoalescedRange) (chunk : ChunkLocation) (gap bytes : Nat) :
    Decidable (curr.joins chunk gap bytes) :=
  inferInstanceAs (Decidable (_ ∧ _ ∧ _ ∧ _))

def CoalescedRange.append (curr : CoalescedRange) (chunk : ChunkLocation) : CoalescedRange :=
  { curr with
    endOffset := chunk.offset + chunk.length - 1
    chunkSlices :=
      curr.chunkSlices ++ [(chunk.chunkIdx, chunk.offset - curr.startOffset, chunk.length)] }

/-- The loop of `coalesce_chunk_ranges`, with its current range. -/
def coalesceLoop (maxGapBytes maxRangeBytes : Nat) :
    Option CoalescedRange → List ChunkLocation → List CoalescedRange
  | current, [] => current.toList
  | current, chunk :: chunks =>
      if chunk.length = 0 then coalesceLoop maxGapBytes maxRangeBytes current chunks
      else
        match current with
        | none => coalesceLoop maxGapBytes maxRangeBytes (some (.single chunk)) chunks
        | some curr =>
            if curr.joins chunk maxGapBytes maxRangeBytes then
              coalesceLoop maxGapBytes maxRangeBytes (some (curr.append chunk)) chunks
            else
              curr :: coalesceLoop maxGapBytes maxRangeBytes (some (.single chunk)) chunks

def coalesceChunkRanges (chunks : List ChunkLocation) (maxGapBytes maxRangeBytes : Nat) :
    List CoalescedRange :=
  coalesceLoop maxGapBytes maxRangeBytes none chunks

/-- A chunk of a tile. -/
abbrev Key := Nat × Nat

/-- The locations of the chunks to read, those that the tables of their file have. -/
def locations (table : Key → Option (Nat × Nat)) (keys : List Key) : List ChunkLocation :=
  keys.filterMap fun key => (table key).map fun at_ => ⟨key.1, key.2, at_.1, at_.2⟩

/-! ## The queue -/

/-- What is fixed when the queue is spawned. -/
structure Plan where
  ranges : List CoalescedRange
  /-- Whether the tile has a remote source. -/
  hasSource : Nat → Bool
  maxBufferedBytes : Nat
  queueCapacity : Nat
  numWorkers : Nat

namespace Plan

def range (p : Plan) (job : Nat) : CoalescedRange := p.ranges[job]?.getD default

def totalJobs (p : Plan) : Nat := p.ranges.length

/-- The chunks of a range. -/
def keys (range : CoalescedRange) : List Key :=
  range.chunkSlices.map fun slice => (range.tileIdx, slice.1)

/-- `scheduled_chunks`: the last range that has the chunk. -/
def scheduled (p : Plan) (key : Key) : Option Nat :=
  (List.range p.totalJobs).reverse.find? fun job => key ∈ keys (p.range job)

def scheduledChunks (p : Plan) : Finset Key := (p.ranges.flatMap keys).toFinset

end Plan

/-- A fetched response, by the number of its charge. -/
structure ResponseBuffer where
  id : Nat
  bytes : List UInt8

structure PrefetchedChunk where
  buffer : ResponseBuffer
  start : Nat
  len : Nat

def PrefetchedChunk.bytes (c : PrefetchedChunk) : List UInt8 := (c.buffer.bytes.drop c.start).take c.len

inductive JobState where
  | pending
  | inFlight
  | finished
  | evicted
  deriving DecidableEq

structure BudgetCharge where
  id : Nat
  bytes : Nat

/-- Where a worker is, with the chunks it has in hand. -/
inductive Worker where
  /-- In `claim`, or about to call it. -/
  | claiming
  | dropping (chunks : List PrefetchedChunk)
  | fetching (job id : Nat)
  /-- There was nothing to fetch. -/
  | finishing (job : Nat)
  | storing (job : Nat) (chunks : List (Key × PrefetchedChunk))
  /-- The fetch failed or panicked, and its charge is dropped. -/
  | failing (message : String)
  | exited

structure Queue where
  heldBytes : Nat
  ready : List (Key × PrefetchedChunk)
  remaining : Finset Key
  jobs : Nat → JobState
  requested : Nat → Nat
  demanded : List Nat
  nextJob : Nat
  error : Option String
  shutdown : Bool
  workers : List Worker
  /-- Consumers asleep in `get_chunk_payload`. -/
  waiting : List Key
  /-- Chunks that consumers have taken and not dropped yet. -/
  taken : List PrefetchedChunk
  /-- The charges not released yet. -/
  charges : List BudgetCharge
  nextId : Nat
  /-- The chunks answered so far, with their bytes. -/
  answers : List (Key × List UInt8)

namespace Queue

def initial (p : Plan) : Queue :=
  { heldBytes := 0
    ready := []
    remaining := p.scheduledChunks
    jobs := fun _ => .pending
    requested := fun _ => 0
    demanded := []
    nextJob := 0
    error := none
    shutdown := false
    workers := List.replicate (min (max 1 (min p.numWorkers 32)) p.totalJobs) .claiming
    waiting := []
    taken := []
    charges := []
    nextId := 0
    answers := [] }

def setWorker (s : Queue) (w : Nat) (pc : Worker) : Queue := { s with workers := s.workers.set w pc }

def setJob (s : Queue) (job : Nat) (state : JobState) : Queue :=
  { s with jobs := Function.update s.jobs job state }

/-! ### Workers -/

/-- The ranges that are no longer pending are skipped. -/
def skipClaimed (p : Plan) (s : Queue) : Nat :=
  ((List.range' s.nextJob (p.totalJobs - s.nextJob)).find? fun job =>
    s.jobs job = .pending).getD (max s.nextJob p.totalJobs)

/-- The chunk is evicted when a demanded range needs room: no consumer waits for its range. -/
def evictable (p : Plan) (s : Queue) (entry : Key × PrefetchedChunk) : Bool :=
  (p.scheduled entry.1).any fun job => s.requested job = 0

/-- The charge of a claimed range. -/
def grant (p : Plan) (s : Queue) (w job : Nat) : Queue :=
  { s.setJob job .inFlight with
    demanded := s.demanded.tail
    heldBytes := s.heldBytes + rangeBytes (p.range job)
    charges := ⟨s.nextId, rangeBytes (p.range job)⟩ :: s.charges
    nextId := s.nextId + 1
    workers := s.workers.set w (.fetching job s.nextId) }

def evict (p : Plan) (s : Queue) (w : Nat) : Queue :=
  let evicted := s.ready.filter (s.evictable p)
  { s with
    ready := s.ready.filter fun entry => !s.evictable p entry
    jobs := fun job =>
      if evicted.any fun entry => p.scheduled entry.1 = some job then .evicted else s.jobs job
    workers := s.workers.set w (.dropping (evicted.map Prod.snd)) }

/-- A turn of the loop of `claim`, with the lock held. -/
def claim (p : Plan) (s : Queue) (w : Nat) : Queue :=
  if s.shutdown ∨ s.remaining = ∅ then s.setWorker w .exited
  else
    let s := { s with nextJob := s.skipClaimed p }
    match s.demanded.head?.or (if s.nextJob < p.totalJobs then some s.nextJob else none) with
    | none => s
    | some job =>
        if s.heldBytes = 0 ∨ (rangeBytes (p.range job) ≤ p.maxBufferedBytes - s.heldBytes ∧
            s.ready.length < max p.queueCapacity 16) then
          s.grant p w job
        else if s.demanded ≠ [] ∧ s.ready.any (s.evictable p) then s.evict p w
        else s

/-- The slices of the response that it is long enough for. -/
def slices (range : CoalescedRange) (buffer : ResponseBuffer) : List (Key × PrefetchedChunk) :=
  (range.chunkSlices.filter fun slice => slice.2.1 + slice.2.2 ≤ buffer.bytes.length).map
    fun slice => ((range.tileIdx, slice.1), ⟨buffer, slice.2.1, slice.2.2⟩)

/-- Whether a chunk is kept when its range arrives. -/
def wanted (p : Plan) (s : Queue) (job : Nat) (ready : List (Key × PrefetchedChunk)) (key : Key) :
    Bool :=
  p.scheduled key = some job && key ∈ s.remaining && key ∉ ready.map Prod.fst

/-- The loop over the chunks of a response: what is ready after it, and what is unused. -/
def storeLoop (p : Plan) (s : Queue) (job : Nat) :
    List (Key × PrefetchedChunk) → List (Key × PrefetchedChunk) → List PrefetchedChunk →
      List (Key × PrefetchedChunk) × List PrefetchedChunk
  | [], ready, unused => (ready, unused)
  | entry :: chunks, ready, unused =>
      if s.wanted p job ready entry.1 then storeLoop p s job chunks (entry :: ready) unused
      else storeLoop p s job chunks ready (entry.2 :: unused)

def store (p : Plan) (s : Queue) (w job : Nat) (chunks : List (Key × PrefetchedChunk)) : Queue :=
  let (ready, unused) := s.storeLoop p job chunks s.ready []
  { s.setJob job .finished with ready, workers := s.workers.set w (.dropping unused) }

/-- The first error is kept. -/
def publishError (s : Queue) (message : String) : Queue :=
  { s with error := s.error.or (some message) }

/-! ### Consumers -/

def take (s : Queue) (key : Key) (chunk : PrefetchedChunk) : Queue :=
  { s with
    ready := s.ready.filter fun entry => entry.1 ≠ key
    remaining := s.remaining.erase key
    taken := chunk :: s.taken
    answers := (key, chunk.bytes) :: s.answers }

/-- The loop of `get_chunk_payload`, up to its wait: `none` if it waits. -/
def poll (s : Queue) (key : Key) (job : Nat) : Option Queue :=
  match s.ready.lookup key with
  | some chunk => some (s.take key chunk)
  | none =>
      if key ∉ s.remaining ∨ s.error.isSome ∨ s.shutdown ∨ s.jobs job = .finished then some s
      else none

/-- The consumer leaves `get_chunk_payload`. -/
def leave (s : Queue) (job : Nat) : Queue :=
  { s with requested := Function.update s.requested job (s.requested job - 1) }

/-- The consumer enters `get_chunk_payload`. -/
def enter (s : Queue) (key : Key) (job : Nat) : Queue :=
  { s with
    requested := Function.update s.requested job (s.requested job + 1)
    demanded :=
      if key ∈ s.remaining ∧ s.jobs job ∈ [.pending, .evicted] ∧ job ∉ s.demanded then
        s.demanded ++ [job]
      else s.demanded }

/-- `get_chunk_payload`, up to its return or its first wait. -/
def getChunkPayload (p : Plan) (s : Queue) (key : Key) : Queue :=
  match p.scheduled key with
  | none => s
  | some job =>
      match (s.enter key job).poll key job with
      | some s => s.leave job
      | none => { s.enter key job with waiting := key :: s.waiting }

/-- A consumer wakes in `get_chunk_payload`. -/
def wake (p : Plan) (s : Queue) (key : Key) : Queue :=
  match p.scheduled key with
  | none => s
  | some job =>
      match s.poll key job with
      | some s => { s.leave job with waiting := s.waiting.erase key }
      | none => s

def tryGetChunkPayload (s : Queue) (key : Key) : Queue :=
  match s.ready.lookup key with
  | some chunk => s.take key chunk
  | none => s

def cancel (s : Queue) : Queue := { s with shutdown := true }

/-! ### Responses -/

/-- The responses a worker has charged or has slices of. -/
def workerRefs : Worker → List Nat
  | .fetching _ id => [id]
  | .storing _ chunks => chunks.map (·.2.buffer.id)
  | .dropping chunks => chunks.map (·.buffer.id)
  | _ => []

/-- The responses in flight and those that somebody has a slice of. -/
def refs (s : Queue) : List Nat :=
  s.ready.map (·.2.buffer.id) ++ s.taken.map (·.buffer.id) ++ s.workers.flatMap workerRefs

def release (s : Queue) (c : BudgetCharge) : Queue :=
  { s with
    heldBytes := s.heldBytes - c.bytes
    charges := s.charges.filter fun other => other.id ≠ c.id }

/-- One step of a worker or a consumer. The transport delivers what it likes of the
bytes of the file from the start of the range on, or fails. -/
inductive Step (p : Plan) (file : Nat → List UInt8) : Queue → Queue → Prop where
  | claim {s : Queue} {w : Nat} (hpc : s.workers[w]? = some .claiming) :
      Step p file s (s.claim p w)
  | dropped {s : Queue} {w : Nat} {chunk : PrefetchedChunk} {chunks : List PrefetchedChunk}
      (hpc : s.workers[w]? = some (.dropping (chunk :: chunks))) :
      Step p file s (s.setWorker w (.dropping chunks))
  | doneDropping {s : Queue} {w : Nat} (hpc : s.workers[w]? = some (.dropping [])) :
      Step p file s (s.setWorker w .claiming)
  | noSource {s : Queue} {w job id : Nat} (hpc : s.workers[w]? = some (.fetching job id))
      (hsource : p.hasSource (p.range job).tileIdx = false) :
      Step p file s (s.setWorker w (.finishing job))
  | finish {s : Queue} {w job : Nat} (hpc : s.workers[w]? = some (.finishing job)) :
      Step p file s ((s.setJob job .finished).setWorker w .claiming)
  | fetched {s : Queue} {w job id : Nat} {bytes : List UInt8}
      (hpc : s.workers[w]? = some (.fetching job id))
      (hsource : p.hasSource (p.range job).tileIdx = true)
      (hbytes : bytes <+: (file (p.range job).tileIdx).drop (p.range job).startOffset) :
      Step p file s (s.setWorker w (.storing job (slices (p.range job) ⟨id, bytes⟩)))
  | fetchFailed {s : Queue} {w job id : Nat} (message : String)
      (hpc : s.workers[w]? = some (.fetching job id)) :
      Step p file s (s.setWorker w (.failing message))
  | store {s : Queue} {w job : Nat} {chunks : List (Key × PrefetchedChunk)}
      (hpc : s.workers[w]? = some (.storing job chunks)) :
      Step p file s (s.store p w job chunks)
  | publish {s : Queue} {w : Nat} {message : String}
      (hpc : s.workers[w]? = some (.failing message)) :
      Step p file s ((s.publishError message).setWorker w .exited)
  | get {s : Queue} (key : Key) : Step p file s (s.getChunkPayload p key)
  | wake {s : Queue} {key : Key} (hwait : key ∈ s.waiting) : Step p file s (s.wake p key)
  | tryGet {s : Queue} (key : Key) : Step p file s (s.tryGetChunkPayload key)
  | dropTaken {s : Queue} (i : Nat) : Step p file s { s with taken := s.taken.eraseIdx i }
  | cloneTaken {s : Queue} {chunk : PrefetchedChunk} (htaken : chunk ∈ s.taken) :
      Step p file s { s with taken := chunk :: s.taken }
  | release {s : Queue} {c : BudgetCharge} (hc : c ∈ s.charges) (hgone : c.id ∉ s.refs) :
      Step p file s (s.release c)
  | cancel {s : Queue} : Step p file s s.cancel

def Reachable (p : Plan) (file : Nat → List UInt8) (s : Queue) : Prop :=
  Relation.ReflTransGen (Step p file) (initial p) s

end Queue

end RasterH3.Raster.RemotePrefetch
