import RasterH3.Agg.Spill

/-!
# The H3 grid

What the aggregation asks of the grid library and of the latitude bound that is
computed from it. The grid itself is not part of this repository, so it is a
parameter: which keys are cells, the resolution of a cell, its parent, its
children, whether it is a pentagon, and the southern bound of its boundary. The
eviction code compares latitudes and takes minima and maxima of them, nothing
else, so a latitude is an element of any linear order with two ends.

`H3.Lawful` is what the library documents about the hierarchy: children are the
cells whose parent is the given cell, seven of them, six under a pentagon, and a
parent keeps the leading digits of its child's index, so that cells of one
resolution come in the order of their parents.
-/

namespace RasterH3.Agg

structure H3 (L : Type) where
  /-- `CellIndex::try_from` accepts the key. -/
  isCell : CellIndex → Bool
  resolution : CellIndex → Nat
  parent : CellIndex → CellIndex
  children : CellIndex → List CellIndex
  isPentagon : CellIndex → Bool
  /-- `compute_cell_south_lat`. -/
  southLat : CellIndex → L

namespace H3

variable {L : Type} (h3 : H3 L)

/-- The logical parent of a key: none for a key that is no cell and for a cell
of resolution 0. -/
def parentOf (key : CellIndex) : Option CellIndex :=
  if h3.isCell key = true ∧ 0 < h3.resolution key then some (h3.parent key) else none

/-- A pentagon has six children at the next resolution. -/
def siblings (parent : CellIndex) : Nat := if h3.isPentagon parent then 6 else 7

structure Lawful : Prop where
  isCell_parent : ∀ {c p}, h3.parentOf c = some p → h3.isCell p = true
  resolution_parent : ∀ {c p}, h3.parentOf c = some p → h3.resolution p + 1 = h3.resolution c
  mem_children : ∀ {c p}, c ∈ h3.children p ↔ h3.parentOf c = some p
  nodup_children : ∀ p, (h3.children p).Nodup
  length_children : ∀ {c p}, h3.parentOf c = some p → (h3.children p).length = h3.siblings p
  parent_mono : ∀ {c d p q}, h3.parentOf c = some p → h3.parentOf d = some q →
    h3.resolution c = h3.resolution d → c ≤ d → p ≤ q

variable {h3}

theorem isCell_of_parentOf {c p : CellIndex} (h : h3.parentOf c = some p) :
    h3.isCell c = true := by
  unfold parentOf at h
  split at h
  next hc => exact hc.1
  next => cases h

section Bounds

variable [LinearOrder L] [BoundedOrder L] (h3)

/-- The southern bound of every logical child. -/
def siblingsSouth (parent : CellIndex) : L :=
  ((h3.children parent).map h3.southLat).foldl min ⊤

variable {h3}

end Bounds

end H3

end RasterH3.Agg
