import RasterH3.Agg.ForeignChunks
import RasterH3.Agg.Partition
import RasterH3.Agg.Spill

/-!
# The cells of a partition

A partitioned stream finalizes a cell on its own if no chunk outside the partition can hold a
sample inside it. The cell is boxed by its vertices, padded for the bulge of its edges, and the
box is looked for among the bounds of the foreign chunks. Most cells are answered by an
ancestor: its box is grown until it encloses all descendants, and whether it is clear is
remembered, until there are too many answers and they are forgotten.

What is remembered is what would be computed, so an answer never depends on the questions
before it. A classifier that remembers anything else is none: the answers carry the proof.

The grid library is not part of this repository. A cell has vertices and ancestors, and both
are parameters. The arithmetic of boxes is exact. A query that leaves the buckets of the grid
stops the program.
-/

namespace RasterH3.Agg

open RasterH3.Agg.Partition

/-- What the classifier asks of the grid library. -/
structure CellShapes (F : Type) where
  /-- `CellIndex::try_from` accepts the key. -/
  isCell : CellIndex → Bool
  resolution : CellIndex → Nat
  /-- `cell.parent(res)` -/
  parent : CellIndex → Nat → Option CellIndex
  /-- Longitudes and latitudes of the vertices. -/
  boundary : CellIndex → List (F × F)

section Boxes

variable {F : Type} [Field F] [LinearOrder F]

/-- Half the extent of the longest edge. -/
def bulge (boundary : List (F × F)) : F :=
  (List.zipWith (fun p q => 1 / 2 * (|p.2 - q.2| + |p.1 - q.1|)) boundary
    (boundary.tail ++ boundary.take 1)).foldl max 0

/-- `None` for a cell that is near a pole or crosses the antimeridian. -/
def cellBox (shapes : CellShapes F) (cell : CellIndex) (descendants : Bool) : Option (Rect F) :=
  match shapes.boundary cell with
  | [] => none
  | p :: ps =>
      let w := ps.foldl (fun w q => min w q.1) p.1
      let e := ps.foldl (fun e q => max e q.1) p.1
      let s := ps.foldl (fun s q => min s q.2) p.2
      let n := ps.foldl (fun n q => max n q.2) p.2
      if 180 < e - w then none
      else
        let span := max (e - w) (n - s)
        let grow := if descendants then bulge (p :: ps) + span else bulge (p :: ps)
        -- relative slack for rounding in the boundary computation
        let eps := 1 / 10 ^ 9 + 1 / 10 ^ 6 * span
        let rect : Rect F := ⟨w - grow - eps, s - grow - eps, e + grow + eps, n + grow + eps⟩
        if rect.west < -180 ∨ 180 < rect.east ∨ rect.south < -89 ∨ 89 < rect.north then none
        else some rect

end Boxes

/-- `rejection_bounds(transform_rect_bounds(..))` of a chunk. -/
structure ChunkBounds (F : Type) where
  west : ExactFloat F
  south : ExactFloat F
  east : ExactFloat F
  north : ExactFloat F

section Classifier

variable {F : Type} [Field F] [LinearOrder F]

/-- The rectangles of the chunks outside a partition. -/
def foreignRects (m : MosaicLayout) (bounds : ChunkRef → ChunkBounds F) (p : ScanPartition) :
    List (Rect F) :=
  (m.chunkRefs.filter fun c => !p.containsChunk m c).map fun c =>
    normalizedForeignBounds (bounds c).west (bounds c).south (bounds c).east (bounds c).north

/-- How many resolutions up the remembered ancestors are. -/
def ancestorLevels : List (Fin 2 × Nat) := [(0, 3), (1, 1)]

def ancestorCacheLimit : Nat := 2 ^ 18

variable [FloorRing F]

/-- `is_some_and(|r| !foreign.intersects(&r))` -/
def clears (round : F → F) (foreign : ForeignChunks F) : Option (Rect F) → Option Bool
  | none => some false
  | some r => (foreign.intersects round r).map not

structure BoundaryClassifier (shapes : CellShapes F) (round : F → F) (foreign : ForeignChunks F)
    where
  caches : Fin 2 → List (CellIndex × Bool)
  interior : Nat
  boundary : Nat
  computed : ∀ level, ∀ e ∈ caches level,
    clears round foreign (cellBox shapes e.1 true) = some e.2

namespace BoundaryClassifier

variable {shapes : CellShapes F} {round : F → F} {foreign : ForeignChunks F}

def new : BoundaryClassifier shapes round foreign := ⟨fun _ => [], 0, 0, fun _ => nofun⟩

def room (level : Fin 2) (c : BoundaryClassifier shapes round foreign) :
    BoundaryClassifier shapes round foreign :=
  if ancestorCacheLimit ≤ (c.caches level).length then
    { c with
      caches := Function.update c.caches level []
      computed := by
        intro l e he
        by_cases hl : l = level
        · subst hl
          rw [Function.update_self] at he
          cases he
        · rw [Function.update_of_ne hl] at he
          exact c.computed l e he }
  else c

/-- Whether every descendant of an ancestor is interior. -/
def entry (level : Fin 2) (ancestor : CellIndex) (c : BoundaryClassifier shapes round foreign) :
    Option (Bool × BoundaryClassifier shapes round foreign) :=
  let c := c.room level
  match (c.caches level).lookup ancestor with
  | some clear => some (clear, c)
  | none =>
      match h : clears round foreign (cellBox shapes ancestor true) with
      | none => none
      | some clear => some (clear,
          { c with
            caches := Function.update c.caches level ((ancestor, clear) :: c.caches level)
            computed := by
              intro l e he
              by_cases hl : l = level
              · subst hl
                rw [Function.update_self] at he
                rcases List.mem_cons.mp he with rfl | he
                · exact h
                · exact c.computed l e he
              · rw [Function.update_of_ne hl] at he
                exact c.computed l e he })

/-- `cell.resolution().checked_sub(up)` and the ancestor there. -/
def ancestor (shapes : CellShapes F) (cell : CellIndex) (up : Nat) : Option CellIndex :=
  if up ≤ shapes.resolution cell then shapes.parent cell (shapes.resolution cell - up) else none

/-- The first level whose ancestor is clear. -/
def anyClear (cell : CellIndex) :
    List (Fin 2 × Nat) → BoundaryClassifier shapes round foreign →
      Option (Bool × BoundaryClassifier shapes round foreign)
  | [], c => some (false, c)
  | (level, up) :: levels, c =>
      match ancestor shapes cell up with
      | none => anyClear cell levels c
      | some a => do
          let (clear, c) ← c.entry level a
          if clear then return (true, c) else anyClear cell levels c

def classify (cell : CellIndex) (c : BoundaryClassifier shapes round foreign) :
    Option (Bool × BoundaryClassifier shapes round foreign) :=
  -- a single partition covers the whole mosaic
  if foreign.rects.isEmpty then some (true, c)
  else if !shapes.isCell cell then some (false, c)
  else do
    let (clear, c) ← anyClear cell ancestorLevels c
    if clear then return (true, c)
    else
      let clear ← clears round foreign (cellBox shapes cell false)
      return (clear, c)

def isInterior (c : BoundaryClassifier shapes round foreign) (cell : CellIndex) :
    Option (Bool × BoundaryClassifier shapes round foreign) := do
  let (interior, c) ← c.classify cell
  return (interior,
    if interior then { c with interior := c.interior + 1 } else { c with boundary := c.boundary + 1 })

end BoundaryClassifier

end Classifier

end RasterH3.Agg
