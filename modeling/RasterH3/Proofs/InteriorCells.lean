import RasterH3.Agg.BoundaryClassifier
import RasterH3.Proofs.ForeignGrid

/-!
# An interior cell is nowhere else

Whatever a classifier remembers, it answers a cell by the boxes of the cell and of its
ancestors: interior means that one of them meets no foreign rectangle (`isInterior_eq`). The
grid that is asked is the one of the foreign chunks, so a query never leaves it, and what is
remembered is what the grid answers.

The boxes enclose the cell. That is what the padding is for, and what is said about the grid
library. A sample in the cell is then a point of the box, and if it is in a foreign chunk, it
is a point of the chunk's rectangle as well, so the two meet. With that an interior cell has no
sample in a foreign chunk (`no_foreign_sample`), as long as no more than `2 ^ 32` chunks are
foreign, because the grid knows them by words of 32 bits.
-/

namespace RasterH3.Agg

open RasterH3.Agg.Partition

section Boxes

variable {F : Type} [LinearOrder F]

def Rect.Contains (r : Rect F) (p : F × F) : Prop :=
  (r.west ≤ p.1 ∧ p.1 ≤ r.east) ∧ r.south ≤ p.2 ∧ p.2 ≤ r.north

instance Rect.decidableContains (r : Rect F) (p : F × F) : Decidable (r.Contains p) :=
  inferInstanceAs (Decidable ((_ ∧ _) ∧ _ ∧ _))

theorem foldl_min_le {A : Type} (f : A → F) (x : A) (xs : List A) :
    ∀ q ∈ x :: xs, xs.foldl (fun w q => min w (f q)) (f x) ≤ f q := by
  have hspec : ∀ w : F, xs.foldl (fun w q => min w (f q)) w ≤ w ∧
      ∀ q ∈ xs, xs.foldl (fun w q => min w (f q)) w ≤ f q := by
    induction xs with
    | nil => exact fun w => ⟨le_rfl, nofun⟩
    | cons y xs ih =>
        intro w
        obtain ⟨hle, hall⟩ := ih (min w (f y))
        exact ⟨hle.trans (min_le_left _ _),
          List.forall_mem_cons.mpr ⟨hle.trans (min_le_right _ _), hall⟩⟩
  exact List.forall_mem_cons.mpr (hspec (f x))

theorem le_foldl_max {A : Type} (f : A → F) (x : A) (xs : List A) :
    ∀ q ∈ x :: xs, f q ≤ xs.foldl (fun e q => max e (f q)) (f x) := by
  have hspec : ∀ e : F, e ≤ xs.foldl (fun e q => max e (f q)) e ∧
      ∀ q ∈ xs, f q ≤ xs.foldl (fun e q => max e (f q)) e := by
    induction xs with
    | nil => exact fun e => ⟨le_rfl, nofun⟩
    | cons y xs ih =>
        intro e
        obtain ⟨hle, hall⟩ := ih (max e (f y))
        exact ⟨(le_max_left _ _).trans hle,
          List.forall_mem_cons.mpr ⟨(le_max_right _ _).trans hle, hall⟩⟩
  exact List.forall_mem_cons.mpr (hspec (f x))

variable [Field F]

theorem bulge_nonneg (boundary : List (F × F)) : 0 ≤ bulge boundary :=
  le_foldl_max id 0 _ 0 List.mem_cons_self

variable [IsStrictOrderedRing F]

/-- A box contains what lies between the vertices in both coordinates. -/
theorem cellBox_contains {shapes : CellShapes F} {cell : CellIndex} {descendants : Bool}
    {r : Rect F} (h : cellBox shapes cell descendants = some r) {p : F × F}
    (hlng : ∃ v ∈ shapes.boundary cell, ∃ v' ∈ shapes.boundary cell, v.1 ≤ p.1 ∧ p.1 ≤ v'.1)
    (hlat : ∃ v ∈ shapes.boundary cell, ∃ v' ∈ shapes.boundary cell, v.2 ≤ p.2 ∧ p.2 ≤ v'.2) :
    r.Contains p := by
  unfold cellBox at h
  obtain ⟨vw, hvw, ve, hve, hw, he⟩ := hlng
  obtain ⟨vs, hvs, vn, hvn, hs, hn⟩ := hlat
  cases hcell : shapes.boundary cell with
  | nil =>
      rw [hcell] at hvw
      cases hvw
  | cons q qs =>
      simp only [hcell] at h hvw hve hvs hvn
      have hwest := (foldl_min_le Prod.fst q qs vw hvw).trans hw
      have heast := he.trans (le_foldl_max Prod.fst q qs ve hve)
      have hsouth := (foldl_min_le Prod.snd q qs vs hvs).trans hs
      have hnorth := hn.trans (le_foldl_max Prod.snd q qs vn hvn)
      have hbulge := bulge_nonneg (q :: qs)
      generalize qs.foldl (fun w q => min w q.1) q.1 = w at h hwest
      generalize qs.foldl (fun e q => max e q.1) q.1 = e at h heast
      generalize qs.foldl (fun s q => min s q.2) q.2 = s at h hsouth
      generalize qs.foldl (fun n q => max n q.2) q.2 = n at h hnorth
      have hspan : 0 ≤ max (e - w) (n - s) :=
        le_max_of_le_left (sub_nonneg.mpr (hwest.trans heast))
      have hgrow : 0 ≤ if descendants = true then bulge (q :: qs) + max (e - w) (n - s)
          else bulge (q :: qs) := by
        split <;> linarith
      generalize max (e - w) (n - s) = span at h hspan hgrow
      generalize (if descendants = true then bulge (q :: qs) + span else bulge (q :: qs)) = grow
        at h hgrow
      split at h
      next => cases h
      next =>
        split at h
        next => cases h
        next =>
          obtain rfl := Option.some.inj h
          refine ⟨⟨?_, ?_⟩, ?_, ?_⟩ <;> dsimp only <;> linarith

theorem cellBox_sides {shapes : CellShapes F} {cell : CellIndex} {descendants : Bool} {r : Rect F}
    (h : cellBox shapes cell descendants = some r) : r.west ≤ r.east ∧ r.south ≤ r.north := by
  cases hcell : shapes.boundary cell with
  | nil =>
      rw [cellBox, hcell] at h
      cases h
  | cons p ps =>
      have hp : p ∈ shapes.boundary cell := by
        rw [hcell]
        exact List.mem_cons_self
      obtain ⟨hlng, hlat⟩ := cellBox_contains h ⟨p, hp, p, hp, le_rfl, le_rfl⟩
        ⟨p, hp, p, hp, le_rfl, le_rfl⟩
      exact ⟨hlng.1.trans hlng.2, hlat.1.trans hlat.2⟩

end Boxes

/-! ## The answers -/

section Answers

variable {F : Type} [Field F] [LinearOrder F]

/-- Whether a box meets none of the first `2 ^ 32` rectangles. -/
def clear (rects : List (Rect F)) : Option (Rect F) → Bool
  | none => false
  | some r => !(rects.take (2 ^ 32)).any (rectsIntersect r)

/-- The boxes a cell is looked for with. -/
def boxesOf (shapes : CellShapes F) (cell : CellIndex) : List (Option (Rect F)) :=
  ((ancestorLevels.filterMap fun l => BoundaryClassifier.ancestor shapes cell l.2).map fun a =>
    cellBox shapes a true) ++ [cellBox shapes cell false]

/-- What a classifier answers. -/
def interiorCell (shapes : CellShapes F) (rects : List (Rect F)) (cell : CellIndex) : Bool :=
  rects.isEmpty || (shapes.isCell cell && (boxesOf shapes cell).any (clear rects))

variable [IsStrictOrderedRing F] [FloorRing F]

/-- The grid of the rectangles, with what is assumed of rounding and of them. -/
structure GridOf (round : F → F) (double : F → Prop) (rects : List (Rect F))
    (foreign : ForeignChunks F) : Prop where
  rounds : ForeignChunks.Rounds round double
  normal : ForeignChunks.Rects double rects
  new : ForeignChunks.new round rects = some foreign

variable {round : F → F} {double : F → Prop} {rects : List (Rect F)} {foreign : ForeignChunks F}
  {shapes : CellShapes F}

omit [IsStrictOrderedRing F] in
theorem GridOf.rects_eq (h : GridOf round double rects foreign) : foreign.rects = rects := by
  have hnew := h.new
  by_cases hne : rects = []
  · subst hne
    rw [← Option.some.inj hnew]
  · obtain ⟨extent, hextent, -⟩ := ForeignChunks.extentOf_spec hne
    obtain ⟨index, hindex, hfiled⟩ := @ForeignChunks.new_spec F _ _ _ round _ _ hextent
    obtain rfl := Option.some.inj (hnew.symm.trans hindex)
    exact hfiled.rects_eq

omit [IsStrictOrderedRing F] in
theorem exists_grid (round : F → F) (rects : List (Rect F)) :
    ∃ foreign, ForeignChunks.new round rects = some foreign := by
  by_cases hne : rects = []
  · subst hne
    exact ⟨_, rfl⟩
  · obtain ⟨extent, hextent, -⟩ := ForeignChunks.extentOf_spec hne
    obtain ⟨index, hindex, -⟩ := @ForeignChunks.new_spec F _ _ _ round _ _ hextent
    exact ⟨index, hindex⟩

theorem GridOf.clears_eq (h : GridOf round double rects foreign) (cell : CellIndex)
    (descendants : Bool) : clears round foreign (cellBox shapes cell descendants) =
      some (clear rects (cellBox shapes cell descendants)) := by
  cases hbox : cellBox shapes cell descendants with
  | none => rfl
  | some r =>
      obtain ⟨index, hindex, hquery⟩ :=
        ForeignChunks.query_eq h.rounds h.normal (cellBox_sides hbox)
      obtain rfl := Option.some.inj (h.new.symm.trans hindex)
      rw [clears, hquery]
      rfl

namespace BoundaryClassifier

theorem entry_eq (h : GridOf round double rects foreign) (level : Fin 2) (a : CellIndex)
    (c : BoundaryClassifier shapes round foreign) :
    ∃ c', c.entry level a = some (clear rects (cellBox shapes a true), c') := by
  unfold entry
  dsimp only
  split
  next answer hanswer =>
    obtain ⟨before, after, hcache, -⟩ := List.lookup_eq_some_iff.mp hanswer
    have hcomputed := (c.room level).computed level (a, answer) (by simp [hcache])
    rw [h.clears_eq] at hcomputed
    dsimp only at hcomputed
    obtain rfl := Option.some.inj hcomputed
    exact ⟨_, rfl⟩
  next =>
    split
    next hnone =>
      rw [h.clears_eq] at hnone
      cases hnone
    next answer hanswer =>
      obtain rfl := Option.some.inj ((h.clears_eq a true).symm.trans hanswer)
      exact ⟨_, rfl⟩

theorem anyClear_eq (h : GridOf round double rects foreign) (cell : CellIndex)
    (levels : List (Fin 2 × Nat)) (c : BoundaryClassifier shapes round foreign) :
    ∃ c', anyClear cell levels c = some (((levels.filterMap fun l => ancestor shapes cell l.2).map
      fun a => cellBox shapes a true).any (clear rects), c') := by
  induction levels generalizing c with
  | nil => exact ⟨c, rfl⟩
  | cons l levels ih =>
      obtain ⟨level, up⟩ := l
      rw [anyClear, List.filterMap_cons]
      cases hancestor : ancestor shapes cell up with
      | none => exact ih c
      | some a =>
          obtain ⟨c₁, hentry⟩ := entry_eq h level a c
          simp only [hentry, Option.bind_eq_bind, Option.bind_some, List.map_cons, List.any_cons]
          cases clear rects (cellBox shapes a true) with
          | true => exact ⟨c₁, rfl⟩
          | false => exact ih c₁

/-- A classifier answers by the boxes, whatever it was asked before. -/
theorem isInterior_eq (h : GridOf round double rects foreign) (cell : CellIndex)
    (c : BoundaryClassifier shapes round foreign) :
    ∃ c', c.isInterior cell = some (interiorCell shapes rects cell, c') := by
  have hclassify : ∃ c', c.classify cell = some (interiorCell shapes rects cell, c') := by
    unfold classify interiorCell
    rw [h.rects_eq]
    cases rects.isEmpty with
    | true => exact ⟨c, rfl⟩
    | false =>
        cases shapes.isCell cell with
        | false => exact ⟨c, rfl⟩
        | true =>
            obtain ⟨c₁, hany⟩ := anyClear_eq h cell ancestorLevels c
            simp only [hany, h.clears_eq, Option.bind_eq_bind, Option.bind_some, boxesOf,
              List.any_append, List.any_cons, List.any_nil, Bool.or_false, Bool.false_or,
              Bool.true_and, Bool.not_true, Bool.false_eq_true, if_false]
            split
            next hclear => exact ⟨c₁, by rw [hclear]; rfl⟩
            next hnone => exact ⟨c₁, by rw [Bool.eq_false_of_not_eq_true hnone]; rfl⟩
  obtain ⟨c', hc'⟩ := hclassify
  rw [isInterior, hc']
  exact ⟨_, rfl⟩

end BoundaryClassifier

end Answers

/-! ## Samples -/

section Samples

variable {F : Type} [Field F] [LinearOrder F]

omit [Field F] in
theorem rectsIntersect_of_common {r q : Rect F} {p : F × F} (hr : r.Contains p)
    (hq : q.Contains p) : rectsIntersect r q = true :=
  decide_eq_true ⟨hr.1.1.trans hq.1.2, hq.1.1.trans hr.1.2, hr.2.1.trans hq.2.2,
    hq.2.1.trans hr.2.2⟩

/-- What the padding of a box is for: the box of a cell encloses the cell, and the grown box of
an ancestor every descendant. -/
structure CellShapes.Encloses (shapes : CellShapes F) (inCell : CellIndex → F × F → Prop) :
    Prop where
  cell : ∀ {k p r}, inCell k p → cellBox shapes k false = some r → r.Contains p
  descendant : ∀ {k p up a r}, inCell k p → BoundaryClassifier.ancestor shapes k up = some a →
    cellBox shapes a true = some r → r.Contains p

/-- No foreign rectangle has a sample of an interior cell. -/
theorem no_foreign_sample {shapes : CellShapes F} {inCell : CellIndex → F × F → Prop}
    (henclose : shapes.Encloses inCell) {rects : List (Rect F)} (hfew : rects.length ≤ 2 ^ 32)
    {k : CellIndex} (hinterior : interiorCell shapes rects k = true) {p : F × F}
    (hp : inCell k p) : ∀ q ∈ rects, ¬ q.Contains p := by
  intro q hq hcontains
  have hbox : ∀ box : Option (Rect F), (∀ r, box = some r → r.Contains p) →
      clear rects box = false := by
    intro box henclosed
    cases box with
    | none => rfl
    | some r =>
        rw [clear, List.take_of_length_le hfew, Bool.not_eq_false', List.any_eq_true]
        exact ⟨q, hq, rectsIntersect_of_common (henclosed r rfl) hcontains⟩
  have hnone : (boxesOf shapes k).any (clear rects) = false := by
    rw [List.any_eq_false]
    intro box hmem
    rw [Bool.not_eq_true]
    rcases List.mem_append.mp hmem with hmem | hmem
    · obtain ⟨a, ha, rfl⟩ := List.mem_map.mp hmem
      obtain ⟨l, -, hl⟩ := List.mem_filterMap.mp ha
      exact hbox _ fun r => henclose.descendant hp hl
    · obtain rfl := List.mem_singleton.mp hmem
      exact hbox _ fun r => henclose.cell hp
  rw [interiorCell, hnone, Bool.and_false, Bool.or_false, List.isEmpty_iff] at hinterior
  rw [hinterior] at hq
  cases hq

end Samples

/-! ## The partitions of a mosaic -/

/-- A mosaic that is scanned in `N` partitions. -/
structure Territory (F : Type) (N : Nat) where
  layout : MosaicLayout
  bounds : ChunkRef → ChunkBounds F
  plan : Fin N → ScanPartition
  shapes : CellShapes F
  round : F → F

section Territory

variable {F : Type} [Field F] [LinearOrder F] {N : Nat}

namespace Territory

/-- The rectangle that stands for a chunk. -/
def rect (t : Territory F N) (c : ChunkRef) : Rect F :=
  normalizedForeignBounds (t.bounds c).west (t.bounds c).south (t.bounds c).east (t.bounds c).north

def rects (t : Territory F N) (p : Fin N) : List (Rect F) :=
  foreignRects t.layout t.bounds (t.plan p)

/-- The chunks that a partition streams. -/
def chunks (t : Territory F N) (p : Fin N) : List ChunkRef :=
  t.layout.chunkRefs.filter ((t.plan p).containsChunk t.layout)

/-- The cells that a partition finalizes. -/
def own (t : Territory F N) (p : Fin N) : CellIndex → Bool := interiorCell t.shapes (t.rects p)

variable [FloorRing F]

/-- The grid that the classifier of a partition asks. To build it never leaves it. -/
def foreign (t : Territory F N) (p : Fin N) : ForeignChunks F :=
  (ForeignChunks.new t.round (t.rects p)).getD ⟨[], none, 1, 1, [[]]⟩

abbrev Classifier (t : Territory F N) (p : Fin N) : Type :=
  BoundaryClassifier t.shapes t.round (t.foreign p)

variable [IsStrictOrderedRing F]

/-- What is assumed of it: no chunk is in two partitions, there are at most `2 ^ 32` chunks,
and the boxes enclose their cells. -/
structure Surveyed (t : Territory F N) (double : F → Prop) (inCell : CellIndex → F × F → Prop) :
    Prop where
  disjoint : ∀ c ∈ t.layout.chunkRefs, ∀ p q, (t.plan p).containsChunk t.layout c = true →
    (t.plan q).containsChunk t.layout c = true → p = q
  few : t.layout.chunkRefs.length ≤ 2 ^ 32
  rounds : ForeignChunks.Rounds t.round double
  doubles : ∀ c ∈ t.layout.chunkRefs, double (t.rect c).west ∧ double (t.rect c).south ∧
    double (t.rect c).east ∧ double (t.rect c).north
  encloses : t.shapes.Encloses inCell

variable {t : Territory F N} {double : F → Prop} {inCell : CellIndex → F × F → Prop}

omit [IsStrictOrderedRing F] in
theorem Surveyed.grid (h : t.Surveyed double inCell) (p : Fin N) :
    GridOf t.round double (t.rects p) (t.foreign p) where
  rounds := h.rounds
  normal := by
    constructor
    · intro r hr
      obtain ⟨c, -, rfl⟩ := List.mem_map.mp hr
      exact ⟨_, _, _, _, rfl⟩
    · intro r hr
      obtain ⟨c, hc, rfl⟩ := List.mem_map.mp hr
      exact h.doubles c (List.mem_of_mem_filter hc)
  new := by
    obtain ⟨index, hindex⟩ := exists_grid t.round (t.rects p)
    rw [foreign, hindex]
    rfl

/-- The classifiers answer whatever they are asked, and always the same. -/
theorem Surveyed.isInterior_eq (h : t.Surveyed double inCell) (p : Fin N) (k : CellIndex)
    (c : t.Classifier p) : ∃ c', c.isInterior k = some (t.own p k, c') :=
  BoundaryClassifier.isInterior_eq (h.grid p) k c

omit [IsStrictOrderedRing F] [FloorRing F] in
/-- No chunk of another partition has a sample of an interior cell. -/
theorem Surveyed.no_sample (h : t.Surveyed double inCell) {p q : Fin N} (hne : q ≠ p)
    {k : CellIndex} (hown : t.own p k = true) {c : ChunkRef} (hc : c ∈ t.chunks q) {pos : F × F}
    (hpos : inCell k pos) : ¬ (t.rect c).Contains pos := by
  obtain ⟨hmem, hq⟩ := List.mem_filter.mp hc
  refine no_foreign_sample h.encloses ?_ hown hpos _ (List.mem_map.mpr ⟨c, ?_, rfl⟩)
  · rw [rects, foreignRects, List.length_map]
    exact (List.length_filter_le _ _).trans h.few
  · refine List.mem_filter.mpr ⟨hmem, ?_⟩
    rw [Bool.not_eq_true']
    by_contra hp
    exact hne (h.disjoint c hmem q p hq (Bool.eq_true_of_not_eq_false hp))

end Territory

end Territory

end RasterH3.Agg
