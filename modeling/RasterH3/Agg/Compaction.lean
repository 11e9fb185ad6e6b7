import Mathlib.Algebra.BigOperators.Fin
import Mathlib.Data.List.AList
import RasterH3.Agg.H3
import RasterH3.Agg.Lifecycle
import RasterH3.Lib.MaxHeap

/-!
# One-level child-to-parent compaction

Final cells are grouped by their logical parent. A group that has gathered all
of its children is emitted as one parent record. One that can no longer do so
is decomposed into its children: when the horizon has passed all of them, when
the sorted stream has moved past the parent, when its resolution is finished,
or, before its time, when the pending groups exceed their byte limit.

The groups are a finite map, whose iteration order stands for the arbitrary
order of the hash table. Two kinds of heap index it and are invalidated lazily:
per child resolution the groups by the southern bound of all their children, and
all groups by the northernmost bound they may still emit. The bytes of the table
and of the heaps depend on capacities that the allocator decides; `indexBytes`
gives what the successive readings find there, whatever that is.
-/

namespace RasterH3.Agg

open AccumulatorMerge

/-- Children of one logical parent awaiting completion. -/
structure Group (A L : Type) where
  parentAcc : A
  children : List (CellIndex × A)
  childRes : Nat
  siblingsSouth : L
  emitSouth : L
  bytes : Nat

/-- A latitude and the parent it belongs to. An entry is live only while its
parent is pending with the same key. -/
abbrev HeapEntry (L : Type) := L ×ₗ CellIndex

namespace HeapEntry

variable {L : Type}

def of (lat : L) (parent : CellIndex) : HeapEntry L := toLex (lat, parent)

def lat (e : HeapEntry L) : L := (ofLex e).1

def parent (e : HeapEntry L) : CellIndex := (ofLex e).2

@[simp] theorem lat_of (lat : L) (parent : CellIndex) : (of lat parent).lat = lat := rfl

@[simp] theorem parent_of (lat : L) (parent : CellIndex) : (of lat parent).parent = parent := rfl

end HeapEntry

/-- The pending groups by parent. -/
abbrev Groups (A L : Type) := AList fun _ : CellIndex => Group A L

/-- The completion heap of a child resolution. -/
def slot (res : Nat) : Fin 16 := Fin.ofNat 16 res

structure Compactor (A L : Type) [LinearOrder L] where
  enabled : Bool
  pending : Groups A L
  completion : Fin 16 → MaxHeap (HeapEntry L)
  emit : MaxHeap (HeapEntry L)
  groupBytes : Nat
  /-- No limit is `usize::MAX`, which no estimate exceeds. -/
  byteLimit : Option Nat
  forcedFlushes : Nat
  peakBytes : Nat
  indexBytes : Nat → Nat
  readings : Nat

namespace Group

variable {A L : Type} [AccumulatorMerge A]

/-- `Vec::with_capacity(7)` never grows; an element is charged `sizeOfChild`. -/
def ownedBytes (sizeOfChild : Nat) (g : Group A L) : Nat :=
  7 * sizeOfChild + heapBytes g.parentAcc + (g.children.map fun c => heapBytes c.2).sum

def new [LinearOrder L] [BoundedOrder L] (h3 : H3 L) (kernel : Kernel A) (childRes : Nat)
    (parent : CellIndex) : Group A L where
  parentAcc := kernel.newParentAccumulator
  children := []
  childRes := childRes
  siblingsSouth := h3.siblingsSouth parent
  emitSouth := h3.southLat parent
  bytes := 0

def add [LinearOrder L] (h3 : H3 L) (g : Group A L) (cell : CellIndex) (acc : A) : Group A L :=
  { g with
    parentAcc := merge g.parentAcc acc
    children := g.children ++ [(cell, acc)]
    emitSouth := if g.emitSouth < h3.southLat cell then h3.southLat cell else g.emitSouth }

theorem emitSouth_add [LinearOrder L] (h3 : H3 L) (g : Group A L) (cell : CellIndex) (acc : A) :
    (g.add h3 cell acc).emitSouth = max g.emitSouth (h3.southLat cell) := by
  unfold add
  simp only
  split
  next h => exact (max_eq_right h.le).symm
  next h => exact (max_eq_left (not_lt.mp h)).symm

def decompose (kernel : Kernel A) (g : Group A L) (output : OutputBuffer (Record A)) :
    OutputBuffer (Record A) :=
  g.children.foldl (fun output c => kernel.bufferRecord g.childRes c.1 c.2 output) output

end Group

namespace Compactor

variable {A L : Type} [LinearOrder L]

def withByteLimit (enabled : Bool) (byteLimit : Option Nat) (indexBytes : Nat → Nat) :
    Compactor A L where
  enabled := enabled
  pending := ∅
  completion := fun _ => .empty
  emit := .empty
  groupBytes := 0
  byteLimit := byteLimit
  forcedFlushes := 0
  peakBytes := 0
  indexBytes := indexBytes
  readings := 0

def estimatedBytes (c : Compactor A L) : Nat := c.indexBytes c.readings + c.groupBytes

/-- Every reading finds the allocator in a new state. -/
def measured (c : Compactor A L) : Compactor A L := { c with readings := c.readings + 1 }

def clear (c : Compactor A L) : Compactor A L :=
  { c with
    pending := ∅
    completion := fun _ => .empty
    emit := .empty
    groupBytes := 0 }

def remove (c : Compactor A L) (parent : CellIndex) : Option (Group A L × Compactor A L) :=
  (c.pending.lookup parent).map fun group =>
    (group, { c with
      pending := c.pending.erase parent
      groupBytes := c.groupBytes - group.bytes })

def isLiveCompletion (c : Compactor A L) (res : Fin 16) (entry : HeapEntry L) : Bool :=
  (c.pending.lookup entry.parent).any fun g =>
    slot g.childRes = res ∧ g.siblingsSouth = entry.lat

def popCompletion (c : Compactor A L) (res : Fin 16) : Compactor A L :=
  { c with completion := Function.update c.completion res (c.completion res).pop }

/-- The groups with their parents, in table order. -/
def entries (c : Compactor A L) : List (CellIndex × Group A L) :=
  c.pending.entries.map fun e => (e.1, e.2)

/-- Rebuilds the heaps once stale entries dominate. -/
@[irreducible] def compactIndexes (c : Compactor A L) : Compactor A L :=
  let live := c.entries.length
  let completion := ∑ res, (c.completion res).size
  let c :=
    if 2 * live + 64 < completion then
      { c with
        completion := fun res =>
          .ofList ((c.entries.filter fun e => slot e.2.childRes = res).map fun e =>
            HeapEntry.of e.2.siblingsSouth e.1) }
    else c
  if 4 * live + 64 < c.emit.size then
    { c with emit := .ofList (c.entries.map fun e => HeapEntry.of e.2.emitSouth e.1) }
  else c

/-- Releases capacity, which `indexBytes` stands for, and stale entries. -/
def reclaim (c : Compactor A L) : Compactor A L := c.compactIndexes

/-- The live group with the northernmost `siblingsSouth` over all resolutions.
Stale entries at the top of a heap are dropped on the way. -/
def nextToComplete (c : Compactor A L) : Option (Fin 16 × HeapEntry L) × Compactor A L :=
  let completion := fun res => (c.completion res).skim fun e => !c.isLiveCompletion res e
  let best := (List.finRange 16).foldl (fun best res =>
    match (completion res).peek with
    | none => best
    | some top =>
        match best with
        | some (_, b) => if b < top then some (res, top) else best
        | none => some (res, top)) none
  (best, { c with completion := completion })

def forced (c : Compactor A L) : Compactor A L := { c with forcedFlushes := c.forcedFlushes + 1 }

def exceeds (c : Compactor A L) (bytes : Nat) : Bool := c.byteLimit.any (· < bytes)

section Flush

variable [AccumulatorMerge A]

def flushParent (c : Compactor A L) (parent : CellIndex) (kernel : Kernel A)
    (output : OutputBuffer (Record A)) : Compactor A L × OutputBuffer (Record A) :=
  match c.remove parent with
  | some (group, c) => (c, group.decompose kernel output)
  | none => (c, output)

/-- Decomposes the groups nearest completion until the estimate fits. Every
round takes one group, so that the groups that were pending bound the rounds. -/
def enforceLoop (kernel : Kernel A) (rounds : Nat) (c : Compactor A L)
    (output : OutputBuffer (Record A)) (bytes : Nat) :
    Compactor A L × OutputBuffer (Record A) × Nat :=
  match rounds with
  | 0 => (c, output, bytes)
  | rounds + 1 =>
      if c.exceeds bytes ∧ c.entries ≠ [] then
        match c.nextToComplete with
        | (none, c) => (c, output, bytes)
        | (some (res, entry), c) =>
            let s := (c.popCompletion res).flushParent entry.parent kernel output
            enforceLoop kernel rounds s.1.forced.measured s.2 s.1.forced.estimatedBytes
      else (c, output, bytes)

/-- Reclaims, decomposes, and reclaims again where that did not suffice. -/
def relieve (c : Compactor A L) (kernel : Kernel A) (output : OutputBuffer (Record A)) :
    Compactor A L × OutputBuffer (Record A) :=
  let c := c.reclaim
  let s := enforceLoop kernel c.entries.length c.measured output c.estimatedBytes
  if s.1.exceeds s.2.2 then (s.1.reclaim, s.2.1) else (s.1, s.2.1)

def enforceLimit (c : Compactor A L) (kernel : Kernel A) (output : OutputBuffer (Record A)) :
    Compactor A L × OutputBuffer (Record A) :=
  let bytes := c.estimatedBytes
  let c := { c.measured with peakBytes := max c.peakBytes bytes }
  if c.exceeds bytes then c.relieve kernel output else (c, output)

/-- The groups of one heap whose children the horizon has passed, as long as the
output stays under `maxOutputBytes`. Every round takes one entry. -/
def flushHeap (horizon : L) (kernel : Kernel A) (maxOutputBytes : Nat) (res : Fin 16)
    (rounds : Nat) (c : Compactor A L) (output : OutputBuffer (Record A)) :
    Compactor A L × OutputBuffer (Record A) :=
  match rounds with
  | 0 => (c, output)
  | rounds + 1 =>
      match (c.completion res).peek with
      | none => (c, output)
      | some top =>
          if top.lat ≤ horizon ∨ maxOutputBytes ≤ output.estimatedBytes then (c, output)
          else
            let c := c.popCompletion res
            let s :=
              if c.isLiveCompletion res top then c.flushParent top.parent kernel output
              else (c, output)
            flushHeap horizon kernel maxOutputBytes res rounds s.1 s.2

/-- Decomposes groups that can no longer gain a sibling because the horizon has
passed all of their logical children. -/
def flushCompleted (c : Compactor A L) (horizon : L) (streaming : Nat → Bool) (kernel : Kernel A)
    (output : OutputBuffer (Record A)) (maxOutputBytes : Nat) :
    Compactor A L × OutputBuffer (Record A) :=
  (List.finRange 16).foldl (fun s (res : Fin 16) =>
    if streaming res then
      flushHeap horizon kernel maxOutputBytes res (s.1.completion res).size s.1 s.2
    else s) (c, output)

/-- Decomposes every group whose children are at `childRes`. -/
def flushResolution (c : Compactor A L) (childRes : Nat) (kernel : Kernel A)
    (output : OutputBuffer (Record A)) : Compactor A L × OutputBuffer (Record A) :=
  let res := slot childRes
  let taken := (c.completion res).toList
  let c := { c with completion := Function.update c.completion res .empty }
  taken.foldl (fun s entry =>
    if s.1.isLiveCompletion res entry then s.1.flushParent entry.parent kernel s.2 else s)
    (c, output)

def flushAll (c : Compactor A L) (kernel : Kernel A) (output : OutputBuffer (Record A)) :
    Compactor A L × OutputBuffer (Record A) :=
  (c.clear, c.entries.foldl (fun output e => e.2.decompose kernel output) output)

end Flush

variable [BoundedOrder L]

/-- Northernmost southern bound of any record still pending. -/
def pendingEmitSouth (c : Compactor A L) : L × Compactor A L :=
  let emit := c.emit.skim fun top =>
    !(c.pending.lookup top.parent).any fun g => g.emitSouth = top.lat
  ((emit.peek.map HeapEntry.lat).getD ⊥, { c with emit := emit })

variable [AccumulatorMerge A]

/-- `pending.entry(parent)`: the group for `parent`, opened if there is none. -/
def entry (c : Compactor A L) (h3 : H3 L) (kernel : Kernel A) (res : Nat) (parent : CellIndex) :
    Group A L × Compactor A L :=
  match c.pending.lookup parent with
  | some group => (group, c)
  | none =>
      let group := Group.new h3 kernel res parent
      (group, { c with
        pending := c.pending.insert parent group
        completion := Function.update c.completion (slot res)
          ((c.completion (slot res)).push (HeapEntry.of group.siblingsSouth parent)) })

/-- A group that has all of its children is emitted as its parent, any other is
charged for what it now owns. -/
def settle (c : Compactor A L) (h3 : H3 L) (kernel : Kernel A) (sizeOfChild : Nat)
    (parent : CellIndex) (group : Group A L) (output : OutputBuffer (Record A)) :
    Compactor A L × OutputBuffer (Record A) :=
  if group.children.length = h3.siblings parent then
    ({ c with
        pending := c.pending.erase parent
        groupBytes := c.groupBytes - group.bytes },
      kernel.bufferRecord (h3.resolution parent) parent group.parentAcc output)
  else
    let bytes := group.ownedBytes sizeOfChild
    ({ c with
        pending := c.pending.insert parent { group with bytes := bytes }
        groupBytes := c.groupBytes - group.bytes + bytes },
      output)

/-- A final cell joins its parent's group, or goes straight to `output` when
compaction is disabled or the cell has no parent. -/
def pushCell (c : Compactor A L) (h3 : H3 L) (kernel : Kernel A) (sizeOfChild : Nat) (res : Nat)
    (cell : CellIndex) (acc : A) (output : OutputBuffer (Record A)) :
    Compactor A L × OutputBuffer (Record A) :=
  if !kernel.passesFilter acc then (c, output) else
  match if c.enabled then h3.parentOf cell else none with
  | none => (c, kernel.bufferRecord res cell acc output)
  | some parent =>
      let e := c.entry h3 kernel res parent
      let group := e.1.add h3 cell acc
      let c := { e.2 with emit := e.2.emit.push (HeapEntry.of group.emitSouth parent) }
      let s := c.settle h3 kernel sizeOfChild parent group output
      s.1.compactIndexes.enforceLimit kernel s.2

end Compactor

end RasterH3.Agg
