import Mathlib.Data.List.AList
import RasterH3.Agg.H3
import RasterH3.Lib.Keyed
import RasterH3.Lib.MaxHeap

/-!
# The live map of a resolution

Cells that may still receive samples live in 32 hash tables, one for each shard
of the key space, each with a heap of eviction keys. A cell is pushed onto the
heap once, when it first appears, and leaves the tables when the horizon has
passed its southern bound. That a key only ever sits in its own shard is a field
of the map.

`structureBytes` is what the successive readings of the budget find allocated
for tables and heaps. Growth is the allocator's business and a removal may leave
a tombstone, so it is any sequence of numbers.
-/

namespace RasterH3.Agg

open AccumulatorMerge SpillAccumulator

/-- The finalizer of SplitMix64. -/
def mixH3 (cell : CellIndex) : UInt64 :=
  let h := UInt64.ofNat cell.val
  let h := (h ^^^ (h >>> 30)) * 0xbf58476d1ce4e5b9
  let h := (h ^^^ (h >>> 27)) * 0x94d049bb133111eb
  h ^^^ (h >>> 31)

abbrev Shard := Fin 32

/-- Bits 32 and up of the mixed index. -/
def getShard (cell : CellIndex) : Shard := Fin.ofNat 32 (mixH3 cell >>> 32).toNat

/-- The source orders entries by latitude alone. Ties, which its heap leaves
open, go by the cell. -/
abbrev HexEvictionEntry (L : Type) := L ×ₗ CellIndex

namespace HexEvictionEntry

variable {L : Type}

def of (southLat : L) (cell : CellIndex) : HexEvictionEntry L := toLex (southLat, cell)

def southLat (e : HexEvictionEntry L) : L := (ofLex e).1

def cell (e : HexEvictionEntry L) : CellIndex := (ofLex e).2

@[simp] theorem southLat_of (lat : L) (cell : CellIndex) : (of lat cell).southLat = lat := rfl

@[simp] theorem cell_of (lat : L) (cell : CellIndex) : (of lat cell).cell = cell := rfl

theorem southLat_mono [LinearOrder L] {e f : HexEvictionEntry L} (h : e ≤ f) :
    e.southLat ≤ f.southLat := by
  rcases Prod.Lex.le_iff.mp h with h | h
  · exact h.le
  · exact h.1.le

end HexEvictionEntry

abbrev ShardMap (A : Type) := AList fun _ : CellIndex => A

structure ShardedResolutionMap (A L : Type) [LinearOrder L] where
  shards : Shard → ShardMap A
  eviction : Shard → MaxHeap (HexEvictionEntry L)
  dynamicBytes : Nat
  trackEviction : Bool
  structureBytes : Nat → Nat
  readings : Nat
  placed : ∀ s key, key ∈ shards s → getShard key = s

namespace ShardedResolutionMap

variable {A L : Type} [LinearOrder L]

def new (structureBytes : Nat → Nat) : ShardedResolutionMap A L where
  shards := fun _ => ∅
  eviction := fun _ => .empty
  dynamicBytes := 0
  trackEviction := true
  structureBytes := structureBytes
  readings := 0
  placed := by simp

/-- The active accumulator for `cell`, if any. -/
def get (m : ShardedResolutionMap A L) (cell : CellIndex) : Option A :=
  (m.shards (getShard cell)).lookup cell

def contains (m : ShardedResolutionMap A L) (cell : CellIndex) : Bool := (m.get cell).isSome

def estimatedBytes (m : ShardedResolutionMap A L) : Nat :=
  m.dynamicBytes + m.structureBytes m.readings

def setEvictionEnabled (m : ShardedResolutionMap A L) (enabled : Bool) :
    ShardedResolutionMap A L :=
  if enabled then { m with trackEviction := true }
  else { m with trackEviction := false, eviction := fun _ => .empty, readings := m.readings + 1 }

theorem placed_insert (m : ShardedResolutionMap A L) (key : CellIndex) (acc : A) (s : Shard)
    (k : CellIndex) (h : k ∈ Function.update m.shards (getShard key)
      ((m.shards (getShard key)).insert key acc) s) : getShard k = s := by
  by_cases hs : s = getShard key
  · subst hs
    rw [Function.update_self, AList.mem_insert] at h
    rcases h with rfl | h
    · rfl
    · exact m.placed _ _ h
  · rw [Function.update_of_ne hs] at h
    exact m.placed _ _ h

theorem placed_erase (m : ShardedResolutionMap A L) (r : Shard) (key : CellIndex) (s : Shard)
    (k : CellIndex) (h : k ∈ Function.update m.shards r ((m.shards r).erase key) s) :
    getShard k = s := by
  by_cases hs : s = r
  · subst hs
    rw [Function.update_self, AList.mem_erase] at h
    exact m.placed _ _ h.2
  · rw [Function.update_of_ne hs] at h
    exact m.placed _ _ h

section Merge

variable [SpillAccumulator A]

/-- Merges a worker's state into the map and answers with the memory of the
result. A new cell gets its eviction key if keys are tracked. -/
def mergeOwnedWith (m : ShardedResolutionMap A L) (key : CellIndex) (acc : A) (southLat : L) :
    Nat × ShardedResolutionMap A L :=
  let s := getShard key
  match (m.shards s).lookup key with
  | some existing =>
      let merged := merge existing acc
      (memoryBytes merged,
        { m with
          shards := Function.update m.shards s ((m.shards s).insert key merged)
          dynamicBytes := m.dynamicBytes - heapBytes existing + heapBytes merged
          readings := m.readings + 1
          placed := m.placed_insert key merged })
  | none =>
      (memoryBytes acc,
        { m with
          shards := Function.update m.shards s ((m.shards s).insert key acc)
          dynamicBytes := m.dynamicBytes + heapBytes acc
          eviction :=
            if m.trackEviction then
              Function.update m.eviction s
                ((m.eviction s).push (HexEvictionEntry.of southLat key))
            else m.eviction
          readings := m.readings + 1
          placed := m.placed_insert key acc })

/-- The loop over the heap of one shard; every round takes one entry. -/
def popShard (horizon : L) (s : Shard) (rounds : Nat) (m : ShardedResolutionMap A L) :
    Option (CellIndex × A) × ShardedResolutionMap A L :=
  match rounds with
  | 0 => (none, m)
  | rounds + 1 =>
      match (m.eviction s).peek with
      | none => (none, m)
      | some top =>
          if horizon < top.southLat then
            let heap := (m.eviction s).pop
            match (m.shards s).lookup top.cell with
            | none =>
                popShard horizon s rounds
                  { m with
                    eviction := Function.update m.eviction s heap
                    readings := m.readings + 1 }
            | some acc =>
                let shard := (m.shards s).erase top.cell
                (some (top.cell, acc),
                  { m with
                    shards := Function.update m.shards s shard
                    -- An emptied shard gives its buckets back.
                    eviction := Function.update m.eviction s
                      (if shard.entries = [] then .empty else heap)
                    dynamicBytes := m.dynamicBytes - heapBytes acc
                    readings := m.readings + 1
                    placed := m.placed_erase s top.cell })
          else (none, m)

def popFrom (horizon : L) (shards : List Shard) (m : ShardedResolutionMap A L) :
    Option (CellIndex × A) × ShardedResolutionMap A L :=
  match shards with
  | [] => (none, m)
  | s :: rest =>
      match popShard horizon s (m.eviction s).size m with
      | (some record, m) => (some record, m)
      | (none, m) => popFrom horizon rest m

/-- Removes at most one completed cell. -/
def popCompleted (m : ShardedResolutionMap A L) (horizon : L) :
    Option (CellIndex × A) × ShardedResolutionMap A L :=
  popFrom horizon (List.finRange 32) m

end Merge

/-- The active cells, shard by shard. -/
def cells (m : ShardedResolutionMap A L) : List (CellIndex × A) :=
  (List.finRange 32).flatMap fun s => (m.shards s).entries.map fun e => (e.1, e.2)

def takeSorted (m : ShardedResolutionMap A L) :
    List (CellIndex × A) × ShardedResolutionMap A L :=
  (m.cells.insertionSort (fun p q => p.1 ≤ q.1),
    { m with
      shards := fun _ => ∅
      eviction := fun _ => .empty
      dynamicBytes := 0
      readings := m.readings + 1
      placed := by simp })

end ShardedResolutionMap

end RasterH3.Agg
