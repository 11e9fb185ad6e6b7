import Mathlib.Algebra.BigOperators.Fin
import RasterH3.Agg.ShardedMap

/-!
# The bytes of a live map

The map keeps the bytes of its tables and heaps in a figure of its own: each operation takes
off what the shard it touches had before and adds what it has afterwards. Capacities are the
allocator's choice. An operation is given those that it leaves, and only an empty table and a
new heap are known to have none.
-/

namespace RasterH3.Agg

open SpillAccumulator

structure SizedMap (A L : Type) [LinearOrder L] where
  map : ShardedResolutionMap A L
  /-- The capacities of the table and of the heap of a shard. -/
  capacity : Shard → Nat × Nat
  structureBytes : Nat

namespace SizedMap

variable {A L : Type} [LinearOrder L] [SpillAccumulator A]

/-- `table_bytes` for entries of a given size. -/
def tableBytesOf (entryBytes capacity : Nat) : Nat :=
  if capacity = 0 then 0 else min ((capacity + 1) * (2 * (entryBytes + 1))) (2 ^ 64 - 1) + 64

/-- An entry of the table is a cell and its state, one of the heap is a cell and its bound. -/
def bytesOf (A : Type) [SpillAccumulator A] (capacity : Nat × Nat) : Nat :=
  tableBytesOf (8 + sizeOfSelf A) capacity.1 + capacity.2 * 16

def shardBytes (m : SizedMap A L) (s : Shard) : Nat := bytesOf A (m.capacity s)

def new : SizedMap A L where
  map := .new fun _ => 0
  capacity := fun _ => (0, 0)
  structureBytes := 0

def estimatedBytes (m : SizedMap A L) : Nat := m.map.dynamicBytes + m.structureBytes

def recountStructure (m : SizedMap A L) : SizedMap A L :=
  { m with structureBytes := ∑ s, m.shardBytes s }

/-- `structure_bytes - before + shard_bytes(s)`. -/
def resize (m : SizedMap A L) (s : Shard) (map : ShardedResolutionMap A L)
    (capacity : Nat × Nat) : SizedMap A L where
  map := map
  capacity := Function.update m.capacity s capacity
  structureBytes := m.structureBytes - m.shardBytes s + bytesOf A capacity

def setEvictionEnabled (m : SizedMap A L) (enabled : Bool) : SizedMap A L :=
  let map := m.map.setEvictionEnabled enabled
  if enabled then { m with map := map }
  else recountStructure { m with map := map, capacity := fun s => ((m.capacity s).1, 0) }

def mergeOwnedWith (m : SizedMap A L) (key : CellIndex) (acc : A) (southLat : L)
    (capacity : Nat × Nat) : Nat × SizedMap A L :=
  let merged := m.map.mergeOwnedWith key acc southLat
  (merged.1, m.resize (getShard key) merged.2 capacity)

/-- The loop over one shard, round by round. A shard that a removal empties is replaced. -/
def popShard (horizon : L) (s : Shard) :
    (rounds : Nat) → (Nat → Nat × Nat) → SizedMap A L → Option (CellIndex × A) × SizedMap A L
  | 0, _, m => (none, m)
  | rounds + 1, capacities, m =>
      if ∃ top ∈ (m.map.eviction s).peek, horizon < top.southLat then
        let (removed, map) := m.map.popShard horizon s 1
        let emptied := removed.isSome ∧ (map.shards s).entries = []
        let m := m.resize s map (if emptied then (0, 0) else capacities 0)
        match removed with
        | some record => (some record, m)
        | none => popShard horizon s rounds (fun n => capacities (n + 1)) m
      else (none, m)

def popFrom (horizon : L) (capacities : Shard → Nat → Nat × Nat) :
    List Shard → SizedMap A L → Option (CellIndex × A) × SizedMap A L
  | [], m => (none, m)
  | s :: rest, m =>
      match popShard horizon s (m.map.eviction s).size (capacities s) m with
      | (some record, m) => (some record, m)
      | (none, m) => popFrom horizon capacities rest m

def popCompleted (m : SizedMap A L) (horizon : L) (capacities : Shard → Nat → Nat × Nat) :
    Option (CellIndex × A) × SizedMap A L :=
  popFrom horizon capacities (List.finRange 32) m

def takeSorted (m : SizedMap A L) : List (CellIndex × A) × SizedMap A L :=
  (m.map.takeSorted.1,
    { map := m.map.takeSorted.2, capacity := fun _ => (0, 0), structureBytes := 0 })

/-- Completed cells are popped until there is none. Each call is given the capacities it leaves. -/
def popAll (horizon : L) :
    (calls : Nat) → (Nat → Shard → Nat → Nat × Nat) → SizedMap A L →
      Option (List (CellIndex × A) × SizedMap A L)
  | 0, _, _ => none
  | calls + 1, capacities, m =>
      match m.popCompleted horizon (capacities 0) with
      | (none, m) => some ([], m)
      | (some record, m) =>
          (popAll horizon calls (fun n => capacities (n + 1)) m).map fun (popped, m) =>
            (record :: popped, m)

end SizedMap

end RasterH3.Agg
