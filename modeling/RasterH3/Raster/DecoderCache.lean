import Mathlib

/-!
# The decoders a worker keeps open

A decode worker of a mosaic keeps the decoders of some tiles, and gives up the one whose tile
is needed furthest in the future. When a tile is needed next is computed ahead for every job,
as the position of the next job with the same tile; the place after the last job is the top
element. An entry's next use is that of the job it served last and goes stale when another
worker takes that job, so it is advanced before it is compared.

What opening a decoder yields is an argument. A position outside the list is a fault, and so
are more rounds of the loop than allowed.
-/

namespace RasterH3.Raster

/-- A job, or `usize::MAX`. -/
abbrev NextUse := WithTop Nat

/-- The jobs from `jobId` on, in reverse: their next uses, and that of each tile. -/
def nextTileUsesFrom (tileCount : Nat) : List Nat → Nat → List NextUse × List NextUse
  | [], _ => ([], List.replicate tileCount ⊤)
  | tile :: tiles, jobId =>
      let later := nextTileUsesFrom tileCount tiles (jobId + 1)
      (later.2.getD tile ⊤ :: later.1, later.2.set tile jobId)

/-- Next job referencing the same tile, for the tiles of all jobs. -/
def nextTileUses (tiles : List Nat) (tileCount : Nat) : List NextUse :=
  (nextTileUsesFrom tileCount tiles 0).1

structure CacheEntry (T : Type) where
  tile : Nat
  nextUse : NextUse
  value : T

structure DecoderCache (T : Type) where
  capacity : Nat
  nextUses : List NextUse
  entries : List (CacheEntry T)

inductive CacheFault
  | outOfRange
  | outOfRounds
  deriving DecidableEq, Repr

namespace DecoderCache

variable {T E : Type}

def new (T : Type) (capacity : Nat) (nextUses : List NextUse) : DecoderCache T where
  capacity := max capacity 1
  nextUses
  entries := []

/-- Other workers may have processed some of the predicted uses. -/
def catchUp (nextUses : List NextUse) (jobId : Nat) : Nat → NextUse → Except CacheFault NextUse
  | 0, nextUse => if nextUse ≤ jobId then .error .outOfRounds else .ok nextUse
  | rounds + 1, nextUse =>
      match nextUse with
      | ⊤ => .ok ⊤
      | some job =>
          if job ≤ jobId then
            match nextUses[job]? with
            | none => .error .outOfRange
            | some nextUse => catchUp nextUses jobId rounds nextUse
          else .ok nextUse

/-- The entries with their next uses after a job. -/
def caughtUp (cache : DecoderCache T) (rounds jobId : Nat) :
    Except CacheFault (List (CacheEntry T)) :=
  cache.entries.mapM fun e =>
    (catchUp cache.nextUses jobId rounds e.nextUse).map fun u => { e with nextUse := u }

/-- `max_by_key`: the last of the positions with the greatest key, where `best` is that of the
positions before. -/
def furthestFrom : List (CacheEntry T) → Nat → Nat → NextUse → Nat
  | [], _, best, _ => best
  | e :: entries, pos, best, use =>
      if use ≤ e.nextUse then furthestFrom entries (pos + 1) pos e.nextUse
      else furthestFrom entries (pos + 1) best use

def furthest : List (CacheEntry T) → Option Nat
  | [] => none
  | e :: entries => some (furthestFrom entries 1 0 e.nextUse)

def swapRemove {A : Type} (l : List A) (i : Nat) : List A :=
  match l.getLast? with
  | none => []
  | some last => (l.set i last).dropLast

/-- What is kept to make room. -/
def evicted (cache : DecoderCache T) (rounds jobId : Nat) :
    Except CacheFault (List (CacheEntry T)) := do
  let entries ← cache.caughtUp rounds jobId
  match furthest entries with
  | none => throw .outOfRange
  | some pos => return swapRemove entries pos

/-- Where another decoder has room. -/
def makeRoom (cache : DecoderCache T) (rounds jobId : Nat) :
    Except CacheFault (List (CacheEntry T)) :=
  if cache.entries.length = cache.capacity then cache.evicted rounds jobId
  else .ok cache.entries

/-- The entry at a position with the next use of the job, and its value. -/
def touch (cache : DecoderCache T) (pos jobId : Nat) : Except CacheFault (DecoderCache T × T) :=
  match cache.entries[pos]? with
  | none => throw .outOfRange
  | some e =>
      let e' := { e with nextUse := cache.nextUses.getD jobId ⊤ }
      return ({ cache with entries := cache.entries.set pos e' }, e.value)

def getOrTryOpen (cache : DecoderCache T) (rounds key jobId : Nat) (opened : Except E T) :
    Except CacheFault (DecoderCache T × Except E T) :=
  match cache.entries.findIdx? fun e => e.tile == key with
  | some pos => do
      let (cache, value) ← cache.touch pos jobId
      return (cache, .ok value)
  | none => do
      let kept ← cache.makeRoom rounds jobId
      match opened with
      | .error e => return ({ cache with entries := kept }, .error e)
      | .ok value =>
          let (cache, value) ←
            ({ cache with entries := kept ++ [⟨key, some 0, value⟩] } : DecoderCache T).touch
              kept.length jobId
          return (cache, .ok value)

end DecoderCache

end RasterH3.Raster
