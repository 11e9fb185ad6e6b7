import RasterH3.Parquet.Pipeline
import Mathlib.Data.List.Perm.Basic
import Mathlib.Tactic

/-!
# A buffer is the rows pushed since it was cleared

A buffer of a row group holds columns and not rows: vectors of cells, of geometries, of
values and of bounds that grow together when a record is pushed. What the pipeline needs of
it, however, is said in terms of rows. A push adds one, `clear` forgets all, the sort puts
them in the order of their cells, and what is written has their columns and their bounds.

`Buffers` states this for any type of buffer: there is a function from rows to buffers, and
every operation is that function after an operation on rows. It is shown for the continuous
and for the categorical buffer. Every vector of these is the image of its rows under one
function, or empty where an option leaves it out, and the bounds are those of the points of
its rows, extended one by one; the union of boxes does not depend on the order.

Sorting is the operation in which the columns come apart. The code computes a permutation
from the cells, or finds that they are sorted, and applies it to every vector, by taking
values out of the vectors where they are large. A permutation takes every place once
(`reorderByPermTake_eq`), so that taking and copying are the same; and it picks the rows
themselves. Hence the sort of the vectors is that of the rows, with rows of equal cells in
the order the library's sort leaves them in (`computeSortPermutation_map`).

The proofs about the pipeline name neither kind of buffer. They are about `Buffers`.
-/

namespace RasterH3.Parquet

/-! ## Bounds -/

namespace Bounds

variable {F : Type} [LinearOrder F]

structure Covers (b : Bounds F) (p : F × F) : Prop where
  minX : b.minX ≤ p.1
  minY : b.minY ≤ p.2
  maxX : p.1 ≤ b.maxX
  maxY : p.2 ≤ b.maxY

instance : RightCommutative (Bounds.extend : Bounds F → F × F → Bounds F) where
  right_comm b p q := by
    simp only [extend, min_right_comm, max_right_comm]

theorem extendWkb_append (b : Bounds F) (l m : List (F × F)) :
    b.extendWkb (l ++ m) = (b.extendWkb l).extendWkb m := List.foldl_append

theorem extendWkb_perm (b : Bounds F) {l m : List (F × F)} (h : l.Perm m) :
    b.extendWkb l = b.extendWkb m := h.foldl_eq b

theorem Covers.extend {b : Bounds F} {p : F × F} (h : b.Covers p) (q : F × F) :
    (b.extend q).Covers p :=
  ⟨min_le_of_left_le h.minX, min_le_of_left_le h.minY, le_max_of_le_left h.maxX,
    le_max_of_le_left h.maxY⟩

theorem covers_extend (b : Bounds F) (p : F × F) : (b.extend p).Covers p :=
  ⟨min_le_right .., min_le_right .., le_max_right .., le_max_right ..⟩

theorem Covers.extendWkb {b : Bounds F} {p : F × F} (h : b.Covers p) (l : List (F × F)) :
    (b.extendWkb l).Covers p := by
  induction l generalizing b with
  | nil => exact h
  | cons q l ih => exact ih (h.extend q)

theorem covers_extendWkb (b : Bounds F) {l : List (F × F)} {p : F × F} (h : p ∈ l) :
    (b.extendWkb l).Covers p := by
  obtain ⟨before, after, rfl⟩ := List.append_of_mem h
  rw [extendWkb_append]
  exact (covers_extend _ p).extendWkb after

theorem Covers.nonEmpty {b : Bounds F} {p : F × F} (h : b.Covers p) : b.nonEmpty = some b :=
  if_pos (h.minX.trans h.maxX)

theorem Covers.union_left {a : Bounds F} {p : F × F} (h : a.Covers p) (b : Bounds F) :
    (a.union b).Covers p :=
  ⟨min_le_of_left_le h.minX, min_le_of_left_le h.minY, le_max_of_le_left h.maxX,
    le_max_of_le_left h.maxY⟩

theorem Covers.union_right {b : Bounds F} {p : F × F} (h : b.Covers p) (a : Bounds F) :
    (a.union b).Covers p :=
  ⟨min_le_of_right_le h.minX, min_le_of_right_le h.minY, le_max_of_le_right h.maxX,
    le_max_of_le_right h.maxY⟩

/-- The bounds of points, those that `clear` resets to extended by each of them. -/
def ofPoints [OrderTop F] [OrderBot F] (points : List (F × F)) : Bounds F :=
  (empty : Bounds F).extendWkb points

end Bounds

/-! ## What a row group is -/

structure RowGroup (R F : Type) where
  cell : R → Int64
  /-- the points of its geometry, none where geometries are not written -/
  points : R → List (F × F)
  columns : List R → List (ParquetColumn F)

/-- The buffers that hold rows, and what the operations do to them. -/
structure Buffers [LinearOrder F] [OrderTop F] [OrderBot F] (ops : RowGroupBuffer R F)
    (group : RowGroup R F) where
  ofRows : List R → ops.Buffer
  withCapacityAndOptions : ops.withCapacityAndOptions = ofRows []
  pushRecord : ∀ rows r, ops.pushRecord (ofRows rows) r = ofRows (rows ++ [r])
  len : ∀ rows, ops.len (ofRows rows) = rows.length
  geometryBounds : ∀ rows, ops.geometryBounds (ofRows rows) =
    (Bounds.ofPoints (rows.flatMap group.points)).nonEmpty
  clear : ∀ rows, ops.clear (ofRows rows) = ofRows []
  sortByH3Index : ∀ rows, ∃ sorted, sorted.Perm rows ∧
    (sorted.Pairwise fun a b => group.cell a ≤ group.cell b) ∧
    ops.sortByH3Index (ofRows rows) = ofRows sorted
  flushToRowGroup : ∀ rows, ops.flushToRowGroup (ofRows rows) = group.columns rows

/-! ## Sorting -/

section Sorting

variable {R T : Type}

/-- The rows that a permutation picks. -/
def pick (rows : List R) (perm : List Nat) : List R := perm.filterMap fun i => rows[i]?

theorem pick_range (rows : List R) : pick rows (List.range rows.length) = rows := by
  induction rows using List.reverseRecOn with
  | nil => rfl
  | append_singleton rows r ih =>
    have hsame : pick (rows ++ [r]) (List.range rows.length) = pick rows (List.range rows.length) :=
      List.filterMap_congr fun i hi => List.getElem?_append_left (List.mem_range.mp hi)
    rw [List.length_append, List.length_singleton, List.range_succ, pick, List.filterMap_append]
    show pick (rows ++ [r]) _ ++ _ = _
    rw [hsame, ih]
    simp

theorem pick_perm {rows : List R} {perm : List Nat} (h : perm.Perm (List.range rows.length)) :
    (pick rows perm).Perm rows := by
  have hpicked : (pick rows perm).Perm (pick rows (List.range rows.length)) := h.filterMap _
  rwa [pick_range] at hpicked

theorem lt_of_perm_range {n : Nat} {perm : List Nat} (h : perm.Perm (List.range n)) :
    ∀ i ∈ perm, i < n := fun _ hi => List.mem_range.mp (h.subset hi)

theorem reorderByPerm_map [Inhabited T] (f : R → T) {rows : List R} {perm : List Nat}
    (h : ∀ i ∈ perm, i < rows.length) :
    reorderByPerm (rows.map f) perm = (pick rows perm).map f := by
  induction perm with
  | nil => rfl
  | cons i perm ih =>
    have hi := h i List.mem_cons_self
    have hrest := ih fun j hj => h j (List.mem_cons_of_mem _ hj)
    have hpick : pick rows (i :: perm) = rows[i] :: pick rows perm := by simp [pick, hi]
    rw [hpick, List.map_cons, ← hrest, reorderByPerm, List.map_cons, reorderByPerm]
    simp [List.getD_eq_getElem?_getD, hi]

/-- A place that was taken is not visited again. -/
theorem reorderByPermTake_eq [Inhabited T] {perm : List Nat} (h : perm.Nodup) (vec : List T) :
    reorderByPermTake vec perm = reorderByPerm vec perm := by
  induction perm generalizing vec with
  | nil => rfl
  | cons i perm ih =>
    obtain ⟨hi, hperm⟩ := List.nodup_cons.mp h
    rw [reorderByPermTake, ih hperm, reorderByPerm, reorderByPerm, List.map_cons]
    congr 1
    refine List.map_congr_left fun j hj => ?_
    have hne : i ≠ j := fun heq => hi (heq ▸ hj)
    simp [List.getD_eq_getElem?_getD, List.getElem?_set_ne hne]

theorem nodup_of_perm_range {n : Nat} {perm : List Nat} (h : perm.Perm (List.range n)) :
    perm.Nodup := h.nodup_iff.mpr List.nodup_range

theorem reorderByPermTake_map [Inhabited T] (f : R → T) {rows : List R} {perm : List Nat}
    (h : perm.Perm (List.range rows.length)) :
    reorderByPermTake (rows.map f) perm = (pick rows perm).map f := by
  rw [reorderByPermTake_eq (nodup_of_perm_range h), reorderByPerm_map f (lt_of_perm_range h)]

theorem pairwise_pick {rows : List R} (cell : R → Int64) {perm : List Nat}
    (hsorted : perm.Pairwise fun i j => (rows.map cell).getD i 0 ≤ (rows.map cell).getD j 0) :
    (pick rows perm).Pairwise fun a b => cell a ≤ cell b := by
  refine List.pairwise_filterMap.mpr (hsorted.imp fun {i j} hle a ha b hb => ?_)
  simpa [List.getD_eq_getElem?_getD, ha, hb] using hle

/-- Sorting a buffer either finds it sorted or picks its rows in the order of their cells. -/
theorem computeSortPermutation_map (sort : UnstableSort) (cell : R → Int64) (rows : List R) :
    (computeSortPermutation sort (rows.map cell) = none ∧
        rows.Pairwise fun a b => cell a ≤ cell b) ∨
      ∃ perm, computeSortPermutation sort (rows.map cell) = some perm ∧
        perm.Perm (List.range rows.length) ∧
        (pick rows perm).Pairwise fun a b => cell a ≤ cell b := by
  rw [computeSortPermutation, List.length_map]
  split
  next hshort =>
    refine Or.inl ⟨rfl, ?_⟩
    match rows with
    | [] => exact .nil
    | [r] => exact List.pairwise_singleton ..
    | _ :: _ :: _ => simp at hshort
  next =>
    split
    next hsorted => exact Or.inl ⟨rfl, List.pairwise_map.mp hsorted⟩
    next =>
      obtain ⟨hperm, hsorted⟩ := sort.2 (rows.map cell)
      rw [List.length_map] at hperm
      exact Or.inr ⟨_, rfl, hperm, pairwise_pick cell hsorted⟩

/-- A buffer that keeps its rows without a permutation and picks the rows of one otherwise
sorts them. -/
theorem exists_sorted {B : Type} {sort : UnstableSort} {cell : R → Int64} {rows : List R}
    {ofRows : List R → B} {result : B}
    (hnone : computeSortPermutation sort (rows.map cell) = none → result = ofRows rows)
    (hsome : ∀ perm, computeSortPermutation sort (rows.map cell) = some perm →
      perm.Perm (List.range rows.length) → result = ofRows (pick rows perm)) :
    ∃ sorted, sorted.Perm rows ∧ (sorted.Pairwise fun a b => cell a ≤ cell b) ∧
      result = ofRows sorted := by
  rcases computeSortPermutation_map sort cell rows with
    ⟨heq, hsorted⟩ | ⟨perm, heq, hperm, hsorted⟩
  · exact ⟨rows, .refl rows, hsorted, hnone heq⟩
  · exact ⟨pick rows perm, pick_perm hperm, hsorted, hsome perm heq hperm⟩

theorem ofPoints_pick {F : Type} [LinearOrder F] [OrderTop F] [OrderBot F]
    (points : R → List (F × F)) {rows : List R} {perm : List Nat}
    (h : perm.Perm (List.range rows.length)) :
    Bounds.ofPoints ((pick rows perm).flatMap points) = Bounds.ofPoints (rows.flatMap points) :=
  Bounds.extendWkb_perm _ ((pick_perm h).flatMap_right _)

end Sorting

/-! ## The two buffers -/

section Columns

variable {A F : Type} (cells : Cells F)

def geometryOf (r : MultiRecord A) : List (F × F) :=
  match cells.tryFrom r.h3Index with
  | some cell => cells.toWkb cell
  | none => []

def latLngOf [Zero F] (r : MultiRecord A) : F × F :=
  match cells.tryFrom r.h3Index with
  | some cell => cells.latLng cell
  | none => (0, 0)

variable [Zero F] (options : BufferOptions)

def continuousRowGroup (stats : ContinuousStats A F) : RowGroup (MultiRecord A) F where
  cell r := r.h3Index.toInt64
  points r := if options.geoparquet then geometryOf cells r else []
  columns rows :=
    [.int64 (rows.map fun r => r.h3Index.toInt64)] ++
      (if options.compact = false then [.byteArray (rows.map fun r => cells.hex r.h3Index)]
        else []) ++
      (if options.geoparquet then [.geometry (rows.map (geometryOf cells))] else []) ++
      [.double (rows.map fun r => stats.min r.accumulator),
        .double (rows.map fun r => stats.max r.accumulator),
        .double (rows.map fun r => stats.sum r.accumulator),
        .double (rows.map fun r => stats.mean r.accumulator),
        .double (rows.map fun r => stats.count r.accumulator)] ++
      (if options.compact = false then
        [.double (rows.map fun r => (latLngOf cells r).1),
          .double (rows.map fun r => (latLngOf cells r).2)]
        else [])

def categoricalRowGroup (stats : CategoricalStats A F) : RowGroup (MultiRecord A) F where
  cell r := r.h3Index.toInt64
  points r := if options.geoparquet then geometryOf cells r else []
  columns rows :=
    [.int64 (rows.map fun r => r.h3Index.toInt64)] ++
      (if options.compact = false then [.byteArray (rows.map fun r => cells.hex r.h3Index)]
        else []) ++
      (if options.geoparquet then [.geometry (rows.map (geometryOf cells))] else []) ++
      [.int64 (rows.map fun r => (stats.majority r.accumulator).1),
        .double (rows.map fun r => (stats.majority r.accumulator).2.2),
        .double (rows.map fun r => stats.totalCount r.accumulator),
        .int64 (rows.map fun r => Int64.ofNat (stats.uniqueClasses r.accumulator)),
        .double (rows.map fun r => stats.shannonEntropy r.accumulator)] ++
      (if options.compact = false then
        [.double (rows.map fun r => (latLngOf cells r).1),
          .double (rows.map fun r => (latLngOf cells r).2)]
        else [])

end Columns

section Laws

theorem flatMap_none {R T : Type} (rows : List R) : rows.flatMap (fun _ => ([] : List T)) = [] :=
  List.flatMap_eq_nil_iff.mpr fun _ _ => rfl

variable {A F : Type} [LinearOrder F] [OrderTop F] [OrderBot F] [Zero F]
  (cells : Cells F) (sort : UnstableSort) (options : BufferOptions)

namespace ContinuousRowGroupBuffer

variable (stats : ContinuousStats A F)

def ofRows (rows : List (MultiRecord A)) : ContinuousRowGroupBuffer F where
  options := options
  h3Indices := rows.map fun r => r.h3Index.toInt64
  geometries := if options.geoparquet then rows.map (geometryOf cells) else []
  geometryBounds :=
    .ofPoints (rows.flatMap (continuousRowGroup cells options stats).points)
  minValues := rows.map fun r => stats.min r.accumulator
  maxValues := rows.map fun r => stats.max r.accumulator
  sumValues := rows.map fun r => stats.sum r.accumulator
  avgValues := rows.map fun r => stats.mean r.accumulator
  pixelCounts := rows.map fun r => stats.count r.accumulator
  h3Hexes := if options.compact = false then rows.map fun r => cells.hex r.h3Index else []
  lats := if options.compact = false then rows.map fun r => (latLngOf cells r).1 else []
  lngs := if options.compact = false then rows.map fun r => (latLngOf cells r).2 else []

theorem ofRows_h3Indices (rows : List (MultiRecord A)) :
    (ofRows cells options stats rows).h3Indices = rows.map fun r => r.h3Index.toInt64 := rfl

theorem pushRecord_ofRows (rows : List (MultiRecord A)) (r : MultiRecord A) :
    pushRecord cells stats (ofRows cells options stats rows) r =
      ofRows cells options stats (rows ++ [r]) := by
  obtain ⟨compact, geoparquet⟩ := options
  cases hcell : cells.tryFrom r.h3Index <;> cases compact <;> cases geoparquet <;>
    simp [pushRecord, ofRows, continuousRowGroup, geometryOf, latLngOf, hcell, Bounds.ofPoints,
      Bounds.extendWkb]

theorem sortByH3Index_ofRows [Inhabited F] (rows : List (MultiRecord A)) :
    ∃ sorted, sorted.Perm rows ∧
      (sorted.Pairwise fun a b => a.h3Index.toInt64 ≤ b.h3Index.toInt64) ∧
      sortByH3Index sort (ofRows cells options stats rows) =
        ofRows cells options stats sorted := by
  rw [sortByH3Index, ofRows_h3Indices]
  refine exists_sorted (fun hnone => by rw [hnone]) fun perm hsome hperm => ?_
  have hbounds := ofPoints_pick (continuousRowGroup cells options stats).points hperm
  rw [hsome]
  obtain ⟨compact, geoparquet⟩ := options
  cases compact <;> cases geoparquet <;>
    simp [ofRows, hbounds, reorderByPermTake_map _ hperm,
      reorderByPerm_map _ (lt_of_perm_range hperm)]

/-- The continuous buffer is what the pipeline takes it for. -/
def buffers [Inhabited F] : Buffers (continuousBuffer cells stats sort options)
    (continuousRowGroup cells options stats) where
  ofRows := ofRows cells options stats
  withCapacityAndOptions := by
    simp [continuousBuffer, withCapacityAndOptions, ofRows, Bounds.ofPoints, Bounds.extendWkb]
  pushRecord := pushRecord_ofRows cells options stats
  len rows := List.length_map ..
  geometryBounds _ := rfl
  clear rows := by
    obtain ⟨compact, geoparquet⟩ := options
    cases compact <;> cases geoparquet <;>
      simp [continuousBuffer, clear, ofRows, continuousRowGroup, Bounds.ofPoints,
        Bounds.extendWkb, flatMap_none]
  sortByH3Index := sortByH3Index_ofRows cells sort options stats
  flushToRowGroup rows := by
    obtain ⟨compact, geoparquet⟩ := options
    cases compact <;> cases geoparquet <;> rfl

end ContinuousRowGroupBuffer

namespace CategoricalRowGroupBuffer

variable (stats : CategoricalStats A F)

def ofRows (rows : List (MultiRecord A)) : CategoricalRowGroupBuffer F where
  options := options
  h3Indices := rows.map fun r => r.h3Index.toInt64
  geometries := if options.geoparquet then rows.map (geometryOf cells) else []
  geometryBounds :=
    .ofPoints (rows.flatMap (categoricalRowGroup cells options stats).points)
  majorities := rows.map fun r => (stats.majority r.accumulator).1
  fractions := rows.map fun r => (stats.majority r.accumulator).2.2
  pixelCounts := rows.map fun r => stats.totalCount r.accumulator
  distinctClasses := rows.map fun r => Int64.ofNat (stats.uniqueClasses r.accumulator)
  entropies := rows.map fun r => stats.shannonEntropy r.accumulator
  h3Hexes := if options.compact = false then rows.map fun r => cells.hex r.h3Index else []
  lats := if options.compact = false then rows.map fun r => (latLngOf cells r).1 else []
  lngs := if options.compact = false then rows.map fun r => (latLngOf cells r).2 else []

theorem ofRows_h3Indices (rows : List (MultiRecord A)) :
    (ofRows cells options stats rows).h3Indices = rows.map fun r => r.h3Index.toInt64 := rfl

theorem pushRecord_ofRows (rows : List (MultiRecord A)) (r : MultiRecord A) :
    pushRecord cells stats (ofRows cells options stats rows) r =
      ofRows cells options stats (rows ++ [r]) := by
  obtain ⟨compact, geoparquet⟩ := options
  cases hcell : cells.tryFrom r.h3Index <;> cases compact <;> cases geoparquet <;>
    simp [pushRecord, ofRows, categoricalRowGroup, geometryOf, latLngOf, hcell, Bounds.ofPoints,
      Bounds.extendWkb]

theorem sortByH3Index_ofRows [Inhabited F] (rows : List (MultiRecord A)) :
    ∃ sorted, sorted.Perm rows ∧
      (sorted.Pairwise fun a b => a.h3Index.toInt64 ≤ b.h3Index.toInt64) ∧
      sortByH3Index sort (ofRows cells options stats rows) =
        ofRows cells options stats sorted := by
  rw [sortByH3Index, ofRows_h3Indices]
  refine exists_sorted (fun hnone => by rw [hnone]) fun perm hsome hperm => ?_
  have hbounds := ofPoints_pick (categoricalRowGroup cells options stats).points hperm
  rw [hsome]
  obtain ⟨compact, geoparquet⟩ := options
  cases compact <;> cases geoparquet <;>
    simp [ofRows, hbounds, reorderByPermTake_map _ hperm,
      reorderByPerm_map _ (lt_of_perm_range hperm)]

/-- The categorical buffer is what the pipeline takes it for. -/
def buffers [Inhabited F] : Buffers (categoricalBuffer cells stats sort options)
    (categoricalRowGroup cells options stats) where
  ofRows := ofRows cells options stats
  withCapacityAndOptions := by
    simp [categoricalBuffer, withCapacityAndOptions, ofRows, Bounds.ofPoints, Bounds.extendWkb]
  pushRecord := pushRecord_ofRows cells options stats
  len rows := List.length_map ..
  geometryBounds _ := rfl
  clear rows := by
    obtain ⟨compact, geoparquet⟩ := options
    cases compact <;> cases geoparquet <;>
      simp [categoricalBuffer, clear, ofRows, categoricalRowGroup, Bounds.ofPoints,
        Bounds.extendWkb, flatMap_none]
  sortByH3Index := sortByH3Index_ofRows cells sort options stats
  flushToRowGroup rows := by
    obtain ⟨compact, geoparquet⟩ := options
    cases compact <;> cases geoparquet <;> rfl

end CategoricalRowGroupBuffer

end Laws

end RasterH3.Parquet
