import RasterH3.Pmtiles.Wgs84Bounds
import Mathlib.Tactic

/-!
# Bounds do not depend on the order, and enclose

The bounds of an archive are collected from its cells, in several accumulators that are
merged, and in whatever order the cells come. An accumulator has extremes of the latitudes,
extremes of the longitudes east and west of Greenwich apart, and flags for what a box of
extremes cannot say, that a pole was seen or that a cell crosses the antimeridian. From
these `finish` chooses a box.

Accumulators are joined field by field (`join`), which is associative and commutative, and a
merge is a join unless the other one is empty, when it adds nothing. A recorded cell is a
join too (`recordCell_eq`): the latitude of a pole may be assigned, since no latitude is
beyond it. So an accumulator that is built in any way from a list of cells is the join of
one for each of them (`built_total`), and joins in another order are the same.

That the box encloses is monotone in the same way. What is below each of the joined
accumulators is below the join, and the choice that `finish` makes is between boxes that all
contain what is inside the extremes (`contains_finish`): over the antimeridian if that is
shorter, and a full turn if a pole was seen or a cell spans more than half of its parallel.

The code compares sums and differences of doubles. They are any rounding that is monotone,
with infinities for the extremes of nothing, so that nothing here rests on exact arithmetic.
-/

namespace RasterH3.Pmtiles

namespace Wgs84BoundsAccumulator

open Degrees

theorem of_le_of {a b : ℚ} : of a ≤ of b ↔ a ≤ b := by
  rw [of, of, WithBot.coe_le_coe, WithTop.coe_le_coe]

theorem of_lt_of {a b : ℚ} : of a < of b ↔ a < b := by
  rw [of, of, WithBot.coe_lt_coe, WithTop.coe_lt_coe]

theorem cases_degrees (d : Degrees) : d = ⊥ ∨ d = ⊤ ∨ ∃ q, d = of q := by
  rcases d with _ | _ | q
  · exact .inl rfl
  · exact .inr (.inl rfl)
  · exact .inr (.inr ⟨q, rfl⟩)

theorem sub_infinite {round : ℚ → ℚ} {a b : Degrees} (h : ∀ q r, ¬(a = of q ∧ b = of r)) :
    sub round a b = if a = ⊤ ∨ b = ⊥ then ⊤ else ⊥ := by
  rcases a with _ | _ | q
  · rfl
  · rfl
  · rcases b with _ | _ | r
    · rfl
    · rfl
    · exact absurd ⟨rfl, rfl⟩ (h q r)

theorem of_ne_top (q : ℚ) : of q ≠ ⊤ := fun h => WithTop.coe_ne_top (WithBot.coe_injective h)

theorem of_ne_bot (q : ℚ) : of q ≠ ⊥ := WithBot.coe_ne_bot

theorem sub_eq_top {round : ℚ → ℚ} {a b : Degrees} (h : a = ⊤ ∨ b = ⊥) : sub round a b = ⊤ := by
  rw [sub_infinite, if_pos h]
  rintro q r ⟨rfl, rfl⟩
  exact h.elim (of_ne_top q) (of_ne_bot r)

theorem sub_eq_bot {round : ℚ → ℚ} {a b : Degrees} (h : a = ⊥ ∨ b = ⊤)
    (hfinite : ¬(a = ⊤ ∨ b = ⊥)) : sub round a b = ⊥ := by
  rw [sub_infinite, if_neg hfinite]
  rintro q r ⟨rfl, rfl⟩
  exact h.elim (of_ne_bot q) (of_ne_top r)

/-- A difference of two doubles grows with the first and falls with the second. -/
theorem sub_mono {round : ℚ → ℚ} (hround : Monotone round) {a a' b b' : Degrees} (ha : a ≤ a')
    (hb : b' ≤ b) : sub round a b ≤ sub round a' b' := by
  by_cases hinfinite : a' = ⊤ ∨ b' = ⊥
  · rw [sub_eq_top hinfinite]
    exact le_top
  have hfinite : ¬(a = ⊤ ∨ b = ⊥) := by
    rintro (rfl | rfl)
    · exact hinfinite (.inl (top_le_iff.mp ha))
    · exact hinfinite (.inr (le_bot_iff.mp hb))
  by_cases hend : a = ⊥ ∨ b = ⊤
  · rw [sub_eq_bot hend hfinite]
    exact bot_le
  rw [not_or] at hinfinite hfinite hend
  rcases cases_degrees a with h | h | ⟨q, rfl⟩
  · exact absurd h hend.1
  · exact absurd h hfinite.1
  rcases cases_degrees b with h | h | ⟨r, rfl⟩
  · exact absurd h hfinite.2
  · exact absurd h hend.2
  rcases cases_degrees a' with rfl | h | ⟨q', rfl⟩
  · exact absurd (le_bot_iff.mp ha) (of_ne_bot q)
  · exact absurd h hinfinite.1
  rcases cases_degrees b' with h | rfl | ⟨r', rfl⟩
  · exact absurd h hinfinite.2
  · exact absurd (top_le_iff.mp hb) (of_ne_top r)
  exact of_le_of.mpr (hround (sub_le_sub (of_le_of.mp ha) (of_le_of.mp hb)))

theorem foldl_max_le {ds : List Degrees} {d bound : Degrees} (hd : d ≤ bound)
    (h : ∀ x ∈ ds, x ≤ bound) : ds.foldl max d ≤ bound := by
  induction ds generalizing d with
  | nil => exact hd
  | cons x ds ih =>
      exact ih (max_le hd (h x List.mem_cons_self)) fun y hy => h y (List.mem_cons_of_mem x hy)

theorem le_foldl_min {ds : List Degrees} {d bound : Degrees} (hd : bound ≤ d)
    (h : ∀ x ∈ ds, bound ≤ x) : bound ≤ ds.foldl min d := by
  induction ds generalizing d with
  | nil => exact hd
  | cons x ds ih =>
      exact ih (le_min hd (h x List.mem_cons_self)) fun y hy => h y (List.mem_cons_of_mem x hy)

/-! ## Joins -/

/-- Field by field. -/
def join (a b : Wgs84BoundsAccumulator) : Wgs84BoundsAccumulator where
  count := a.count + b.count
  minLon := min a.minLon b.minLon
  minLat := min a.minLat b.minLat
  maxLon := max a.maxLon b.maxLon
  maxLat := max a.maxLat b.maxLat
  minPosLon := min a.minPosLon b.minPosLon
  maxNegLon := max a.maxNegLon b.maxNegLon
  crossesAntimeridian := a.crossesAntimeridian || b.crossesAntimeridian
  fullLon := a.fullLon || b.fullLon

theorem join_comm (a b : Wgs84BoundsAccumulator) : a.join b = b.join a := by
  simp only [join, min_comm, max_comm, Bool.or_comm, Nat.add_comm]

theorem join_assoc (a b c : Wgs84BoundsAccumulator) : (a.join b).join c = a.join (b.join c) := by
  simp only [join, min_assoc, max_assoc, Bool.or_assoc, Nat.add_assoc]

theorem join_new (a : Wgs84BoundsAccumulator) : a.join new = a := by
  simp [join, new]

theorem new_join (a : Wgs84BoundsAccumulator) : new.join a = a := by
  rw [join_comm, join_new]

theorem observePoint_eq (acc : Wgs84BoundsAccumulator) (p : LatLng ℚ) :
    acc.observePoint p = acc.join (new.observePoint p) := by
  unfold observePoint join new
  split <;> simp

theorem foldl_observePoint (acc : Wgs84BoundsAccumulator) (ps : List (LatLng ℚ)) :
    ps.foldl observePoint acc = acc.join (ps.foldl observePoint new) := by
  induction ps generalizing acc with
  | nil => exact (join_new acc).symm
  | cons p ps ih =>
      rw [List.foldl_cons, ih, observePoint_eq, join_assoc, ← ih]
      rfl

/-! ## A recorded cell -/

section Record

variable {C : Type} [DecidableEq C] (grid : Grid C) (round : ℚ → ℚ)

def points (cell : C) : List (LatLng ℚ) := grid.center cell :: grid.boundary cell

/-- A cell spans more than half of the parallel without being at a pole. -/
def crosses (cell : C) : Bool :=
  !isPole grid cell 90 && !isPole grid cell (-90) && of 180 < cellSpan grid round cell

/-- What a cell adds. -/
def single (cell : C) : Wgs84BoundsAccumulator :=
  ((({ new with count := 1 }.join (new.markNorthPole (isPole grid cell 90))).join
    (new.markSouthPole (isPole grid cell (-90)))).join
      ((points grid cell).foldl observePoint new)).join (new.markCrossing (crosses grid round cell))

/-- No latitude is beyond a pole, and the two longitudes are on their sides. -/
structure OnSphere (acc : Wgs84BoundsAccumulator) : Prop where
  north : acc.maxLat ≤ of 90
  south : of (-90) ≤ acc.minLat
  east : of 0 ≤ acc.minPosLon
  west : acc.maxNegLon < of 0

variable {grid round}

theorem markNorthPole_eq {acc : Wgs84BoundsAccumulator} (h : acc.maxLat ≤ of 90) (b : Bool) :
    acc.markNorthPole b = acc.join (new.markNorthPole b) := by
  cases b with
  | false => exact (join_new acc).symm
  | true => simp [markNorthPole, join, new, h]

theorem markSouthPole_eq {acc : Wgs84BoundsAccumulator} (h : of (-90) ≤ acc.minLat) (b : Bool) :
    acc.markSouthPole b = acc.join (new.markSouthPole b) := by
  cases b with
  | false => exact (join_new acc).symm
  | true => simp [markSouthPole, join, new, h]

theorem markCrossing_eq (acc : Wgs84BoundsAccumulator) (b : Bool) :
    acc.markCrossing b = acc.join (new.markCrossing b) := by
  cases b with
  | false => exact (join_new acc).symm
  | true => simp [markCrossing, join, new]

theorem recordCell_eq {acc : Wgs84BoundsAccumulator} (h : OnSphere acc) (cell : C) :
    acc.recordCell grid round cell = acc.join (single grid round cell) := by
  have hcount : { acc with count := acc.count + 1 } = acc.join { new with count := 1 } := by
    simp [join, new]
  have hsouth : of (-90) ≤
      (({ acc with count := acc.count + 1 } : Wgs84BoundsAccumulator).markNorthPole
        (isPole grid cell 90)).minLat := by
    unfold markNorthPole
    split
    next => exact h.south
    next => exact h.south
  show ((points grid cell).foldl observePoint
    ((({ acc with count := acc.count + 1 } : Wgs84BoundsAccumulator).markNorthPole
      (isPole grid cell 90)).markSouthPole (isPole grid cell (-90)))).markCrossing
        (crosses grid round cell) = _
  have hnorth := @markNorthPole_eq { acc with count := acc.count + 1 } h.north
  rw [markCrossing_eq, foldl_observePoint, markSouthPole_eq hsouth, hnorth, hcount, single]
  simp only [join_assoc]

/-! ## Any way to build an accumulator -/

variable (grid round)

/-- Accumulators that are built from cells by recording and merging. -/
inductive Built : List C → Wgs84BoundsAccumulator → Prop
  | new : Built [] new
  | record {cells : List C} {acc : Wgs84BoundsAccumulator} (built : Built cells acc) (cell : C) :
      Built (cells ++ [cell]) (acc.recordCell grid round cell)
  | merge {cells cells' : List C} {acc acc' : Wgs84BoundsAccumulator} (built : Built cells acc)
      (built' : Built cells' acc') : Built (cells ++ cells') (acc.merge acc')

/-- Where the points of cells are. -/
structure InRange (cells : List C) : Prop where
  lat : ∀ cell ∈ cells, ∀ p ∈ points grid cell, -90 ≤ p.lat ∧ p.lat ≤ 90
  lng : ∀ cell ∈ cells, ∀ p ∈ points grid cell, -180 ≤ p.lng ∧ p.lng ≤ 180

/-- The join of what the cells add. -/
def total (cells : List C) : Wgs84BoundsAccumulator :=
  (cells.map (single grid round)).foldr join new

variable {grid round}

theorem total_append (cells cells' : List C) :
    total grid round (cells ++ cells') =
      (total grid round cells).join (total grid round cells') := by
  induction cells with
  | nil => exact (new_join _).symm
  | cons cell cells ih =>
      show (single grid round cell).join (total grid round (cells ++ cells')) = _
      rw [ih, ← join_assoc]
      rfl

theorem total_perm {cells cells' : List C} (h : cells.Perm cells') :
    total grid round cells = total grid round cells' := by
  have hcomm : LeftCommutative join :=
    ⟨fun a b c => by rw [← join_assoc, join_comm a b, join_assoc]⟩
  exact (h.map _).foldr_eq new

theorem count_observePoint (acc : Wgs84BoundsAccumulator) (p : LatLng ℚ) :
    (acc.observePoint p).count = acc.count := by
  unfold observePoint
  split
  next => rfl
  next => rfl

theorem count_foldl_observePoint (acc : Wgs84BoundsAccumulator) (ps : List (LatLng ℚ)) :
    (ps.foldl observePoint acc).count = acc.count := by
  induction ps generalizing acc with
  | nil => rfl
  | cons p ps ih => exact (ih _).trans (count_observePoint acc p)

theorem count_single (cell : C) : (single grid round cell).count = 1 := by
  have hnorth : ∀ b, (new.markNorthPole b).count = 0 := by decide
  have hsouth : ∀ b, (new.markSouthPole b).count = 0 := by decide
  have hcrossing : ∀ b, (new.markCrossing b).count = 0 := by decide
  simp only [single, join, hnorth, hsouth, hcrossing, count_foldl_observePoint]
  rfl

theorem count_total (cells : List C) : (total grid round cells).count = cells.length := by
  induction cells with
  | nil => rfl
  | cons cell cells ih =>
      show (single grid round cell).count + (total grid round cells).count = cells.length + 1
      rw [count_single, ih, Nat.add_comm]

theorem OnSphere.join {a b : Wgs84BoundsAccumulator} (ha : OnSphere a) (hb : OnSphere b) :
    OnSphere (a.join b) :=
  ⟨max_le ha.north hb.north, le_min ha.south hb.south, le_min ha.east hb.east,
    max_lt ha.west hb.west⟩

theorem onSphere_new : OnSphere new := ⟨bot_le, le_top, le_top, WithBot.bot_lt_coe _⟩

theorem onSphere_point {p : LatLng ℚ} (h : -90 ≤ p.lat ∧ p.lat ≤ 90) :
    OnSphere (new.observePoint p) := by
  have hnorth : max ⊥ (of p.lat) ≤ of 90 := max_le bot_le (of_le_of.mpr h.2)
  have hsouth : of (-90) ≤ min ⊤ (of p.lat) := le_min le_top (of_le_of.mpr h.1)
  unfold observePoint
  split
  next hpos => exact ⟨hnorth, hsouth, le_min le_top (of_le_of.mpr hpos), onSphere_new.west⟩
  next hneg =>
      exact ⟨hnorth, hsouth, onSphere_new.east,
        max_lt onSphere_new.west (of_lt_of.mpr (not_le.mp hneg))⟩

theorem onSphere_points {ps : List (LatLng ℚ)} (h : ∀ p ∈ ps, -90 ≤ p.lat ∧ p.lat ≤ 90) :
    OnSphere (ps.foldl observePoint new) := by
  induction ps with
  | nil => exact onSphere_new
  | cons p ps ih =>
      rw [List.foldl_cons, foldl_observePoint]
      exact (onSphere_point (h p List.mem_cons_self)).join
        (ih fun q hq => h q (List.mem_cons_of_mem p hq))

theorem onSphere_single {cell : C} (h : ∀ p ∈ points grid cell, -90 ≤ p.lat ∧ p.lat ≤ 90) :
    OnSphere (single grid round cell) := by
  have hnorth : ∀ b, OnSphere (new.markNorthPole b) := by
    intro b
    cases b with
    | false => exact onSphere_new
    | true => exact ⟨le_rfl, le_top, le_top, onSphere_new.west⟩
  have hsouth : ∀ b, OnSphere (new.markSouthPole b) := by
    intro b
    cases b with
    | false => exact onSphere_new
    | true => exact ⟨bot_le, le_rfl, le_top, onSphere_new.west⟩
  have hcrossing : ∀ b, OnSphere (new.markCrossing b) := by
    intro b
    cases b with
    | false => exact onSphere_new
    | true => exact ⟨bot_le, le_top, le_top, onSphere_new.west⟩
  have hcount : OnSphere { new with count := 1 } :=
    ⟨bot_le, le_top, le_top, onSphere_new.west⟩
  exact (((hcount.join (hnorth _)).join (hsouth _)).join (onSphere_points h)).join (hcrossing _)

theorem onSphere_total {cells : List C} (h : InRange grid cells) :
    OnSphere (total grid round cells) := by
  have hall := h.lat
  clear h
  induction cells with
  | nil => exact onSphere_new
  | cons cell cells ih =>
      exact (onSphere_single (hall cell List.mem_cons_self)).join
        (ih fun c hc => hall c (List.mem_cons_of_mem cell hc))

omit [DecidableEq C] in
theorem InRange.subset {cells cells' : List C} (h : InRange grid cells) (hsub : cells' ⊆ cells) :
    InRange grid cells' :=
  ⟨fun c hc => h.lat c (hsub hc), fun c hc => h.lng c (hsub hc)⟩

/-- However an accumulator was built, it is the join of what its cells add. -/
theorem built_total {cells : List C} {acc : Wgs84BoundsAccumulator}
    (hbuilt : Built grid round cells acc) (h : InRange grid cells) :
    acc = total grid round cells := by
  induction hbuilt with
  | new => rfl
  | record built cell ih =>
      have hcells := h.subset (List.subset_append_left _ [cell])
      rw [ih hcells, recordCell_eq (onSphere_total hcells), total_append]
      exact congrArg _ (join_new _).symm
  | @merge cells cells' _ _ built built' ih ih' =>
      rw [ih (h.subset (List.subset_append_left _ _)),
        ih' (h.subset (List.subset_append_right _ _)), total_append, merge]
      split
      next hempty =>
        rw [count_total, List.length_eq_zero_iff] at hempty
        rw [hempty]
        exact (join_new _).symm
      next => rfl

theorem built_foldl (cells : List C) :
    Built grid round cells (cells.foldl (recordCell grid round) new) := by
  induction cells using List.reverseRecOn with
  | nil => exact .new
  | append_singleton cells cell ih =>
      rw [List.foldl_append]
      exact ih.record cell

/-! ## What is in the box -/

/-- A point is in a box, over the antimeridian if its west is greater than its east. -/
def Contains (box : Wgs84Box) (lng lat : ℚ) : Prop :=
  box.minLat ≤ of lat ∧ of lat ≤ box.maxLat ∧
    if box.minLon ≤ box.maxLon then box.minLon ≤ of lng ∧ of lng ≤ box.maxLon
    else box.minLon ≤ of lng ∨ of lng ≤ box.maxLon

/-- Whatever box is chosen holds what is in each of them. -/
theorem contains_finish {acc : Wgs84BoundsAccumulator} (hsphere : OnSphere acc)
    (hcount : acc.count ≠ 0) {lng lat : ℚ} (hlat : acc.minLat ≤ of lat ∧ of lat ≤ acc.maxLat)
    (hlng : -180 ≤ lng ∧ lng ≤ 180)
    (hdirect : acc.fullLon = true ∨
      (acc.crossesAntimeridian = true ∧ of 180 < sub round acc.maxLon acc.minLon) ∨
      (acc.minLon ≤ of lng ∧ of lng ≤ acc.maxLon))
    (hwrapped : acc.fullLon = true ∨ acc.minPosLon ≤ of lng ∨ of lng ≤ acc.maxNegLon)
    (d : Wgs84Box) : Contains (acc.finish round d) lng lat := by
  have hwhole : Contains ⟨of (-180), acc.minLat, of 180, acc.maxLat⟩ lng lat := by
    refine ⟨hlat.1, hlat.2, ?_⟩
    rw [if_pos (of_le_of.mpr (by norm_num))]
    exact ⟨of_le_of.mpr hlng.1, of_le_of.mpr hlng.2⟩
  unfold finish
  rw [if_neg hcount]
  split
  next => exact hwhole
  next hfull =>
    split
    next =>
      refine ⟨hlat.1, hlat.2, ?_⟩
      rw [if_neg (not_le.mpr (hsphere.west.trans_le hsphere.east))]
      exact hwrapped.resolve_left hfull
    next =>
      split
      next => exact hwhole
      next hshort =>
        have hinside := (hdirect.resolve_left hfull).resolve_left hshort
        refine ⟨hlat.1, hlat.2, ?_⟩
        rw [if_pos (hinside.1.trans hinside.2)]
        exact hinside

theorem exists_single {cells : List C} {cell : C} (h : cell ∈ cells) :
    ∃ rest, total grid round cells = (single grid round cell).join rest :=
  ⟨total grid round (cells.erase cell), total_perm (List.perm_cons_erase h)⟩

theorem exists_point {ps : List (LatLng ℚ)} {p : LatLng ℚ} (h : p ∈ ps) :
    ∃ rest, ps.foldl observePoint new = (new.observePoint p).join rest := by
  rcases List.mem_iff_append.mp h with ⟨before, after, rfl⟩
  refine ⟨(before.foldl observePoint new).join (after.foldl observePoint new), ?_⟩
  rw [List.foldl_append, List.foldl_cons, foldl_observePoint, observePoint_eq, ← join_assoc,
    join_comm (new.observePoint p)]

/-- The extent of what is joined is inside. -/
structure Within (a b : Wgs84BoundsAccumulator) : Prop where
  minLon : b.minLon ≤ a.minLon
  maxLon : a.maxLon ≤ b.maxLon
  minLat : b.minLat ≤ a.minLat
  maxLat : a.maxLat ≤ b.maxLat
  minPosLon : b.minPosLon ≤ a.minPosLon
  maxNegLon : a.maxNegLon ≤ b.maxNegLon
  crosses : a.crossesAntimeridian = true → b.crossesAntimeridian = true
  full : a.fullLon = true → b.fullLon = true

theorem within_join (a b : Wgs84BoundsAccumulator) : Within a (a.join b) where
  minLon := min_le_left _ _
  maxLon := le_max_left _ _
  minLat := min_le_left _ _
  maxLat := le_max_left _ _
  minPosLon := min_le_left _ _
  maxNegLon := le_max_left _ _
  crosses h := by rw [join, h, Bool.true_or]
  full h := by rw [join, h, Bool.true_or]

theorem Within.trans {a b c : Wgs84BoundsAccumulator} (h : Within a b) (h' : Within b c) :
    Within a c where
  minLon := h'.minLon.trans h.minLon
  maxLon := h.maxLon.trans h'.maxLon
  minLat := h'.minLat.trans h.minLat
  maxLat := h.maxLat.trans h'.maxLat
  minPosLon := h'.minPosLon.trans h.minPosLon
  maxNegLon := h.maxNegLon.trans h'.maxNegLon
  crosses hcrosses := h'.crosses (h.crosses hcrosses)
  full hfull := h'.full (h.full hfull)

theorem within_total {cells : List C} {cell : C} (h : cell ∈ cells) :
    Within (single grid round cell) (total grid round cells) := by
  rcases exists_single h with ⟨rest, hrest⟩
  rw [hrest]
  exact within_join _ rest

/-- The parts of what a cell adds are inside of it. -/
theorem within_single (cell : C) :
    Within (new.markNorthPole (isPole grid cell 90)) (single grid round cell) ∧
      Within (new.markSouthPole (isPole grid cell (-90))) (single grid round cell) ∧
      Within ((points grid cell).foldl observePoint new) (single grid round cell) ∧
      Within (new.markCrossing (crosses grid round cell)) (single grid round cell) := by
  have hright : ∀ a b : Wgs84BoundsAccumulator, Within b (a.join b) := by
    intro a b
    rw [join_comm]
    exact within_join b a
  exact ⟨(hright _ _).trans ((within_join _ _).trans ((within_join _ _).trans (within_join _ _))),
    (hright _ _).trans ((within_join _ _).trans (within_join _ _)),
    (hright _ _).trans (within_join _ _), hright _ _⟩

theorem within_point {cell : C} {p : LatLng ℚ} (h : p ∈ points grid cell) :
    Within (new.observePoint p) (single grid round cell) := by
  rcases exists_point h with ⟨rest, hrest⟩
  have hpoints := (@within_single C _ grid round cell).2.2.1
  rw [hrest] at hpoints
  exact (within_join _ rest).trans hpoints

/-- A point of a recorded cell lies between the bounds. -/
structure Inside (acc : Wgs84BoundsAccumulator) (p : LatLng ℚ) : Prop where
  lat : acc.minLat ≤ of p.lat ∧ of p.lat ≤ acc.maxLat
  lng : acc.minLon ≤ of p.lng ∧ of p.lng ≤ acc.maxLon
  east : 0 ≤ p.lng → acc.minPosLon ≤ of p.lng
  west : p.lng < 0 → of p.lng ≤ acc.maxNegLon

theorem inside_observed (p : LatLng ℚ) : Inside (new.observePoint p) p := by
  unfold observePoint
  split
  next hpos =>
      exact ⟨⟨min_le_right _ _, le_max_right _ _⟩, ⟨min_le_right _ _, le_max_right _ _⟩,
        fun _ => min_le_right _ _, fun hneg => absurd hpos (not_le.mpr hneg)⟩
  next hneg =>
      exact ⟨⟨min_le_right _ _, le_max_right _ _⟩, ⟨min_le_right _ _, le_max_right _ _⟩,
        fun hpos => absurd hpos hneg, fun _ => le_max_right _ _⟩

theorem Inside.within {a b : Wgs84BoundsAccumulator} {p : LatLng ℚ} (h : Inside a p)
    (hab : Within a b) : Inside b p :=
  ⟨⟨hab.minLat.trans h.lat.1, h.lat.2.trans hab.maxLat⟩,
    ⟨hab.minLon.trans h.lng.1, h.lng.2.trans hab.maxLon⟩,
    fun hpos => hab.minPosLon.trans (h.east hpos), fun hneg => (h.west hneg).trans hab.maxNegLon⟩

theorem inside_total {cells : List C} {cell : C} {p : LatLng ℚ} (hcell : cell ∈ cells)
    (hp : p ∈ points grid cell) : Inside (total grid round cells) p :=
  (inside_observed p).within ((within_point hp).trans (within_total hcell))

theorem full_of_pole {cells : List C} {cell : C} (hcell : cell ∈ cells)
    (hpole : isPole grid cell 90 = true ∨ isPole grid cell (-90) = true) :
    (total grid round cells).fullLon = true := by
  rcases hpole with hpole | hpole
  · have hwithin := (@within_single C _ grid round cell).1
    rw [hpole] at hwithin
    exact (hwithin.trans (within_total hcell)).full rfl
  · have hwithin := (@within_single C _ grid round cell).2.1
    rw [hpole] at hwithin
    exact (hwithin.trans (within_total hcell)).full rfl

/-- A cell that spans more than half of the parallel. -/
theorem crosses_total (hround : Monotone round) {cells : List C} {cell : C} (hcell : cell ∈ cells)
    (hspan : of 180 < cellSpan grid round cell) : (total grid round cells).fullLon = true ∨
      ((total grid round cells).crossesAntimeridian = true ∧
        of 180 < sub round (total grid round cells).maxLon (total grid round cells).minLon) := by
  by_cases hpole : isPole grid cell 90 = true ∨ isPole grid cell (-90) = true
  · exact .inl (full_of_pole hcell hpole)
  · right
    have hcrosses : crosses grid round cell = true := by
      simp only [not_or, Bool.not_eq_true] at hpole
      simp [crosses, hpole.1, hpole.2, hspan]
    have hwithin := (@within_single C _ grid round cell).2.2.2
    rw [hcrosses] at hwithin
    refine ⟨(hwithin.trans (within_total hcell)).crosses rfl, hspan.trans_le ?_⟩
    have hvertex : ∀ x ∈ (grid.boundary cell).map fun v => of v.lng,
        (total grid round cells).minLon ≤ x ∧ x ≤ (total grid round cells).maxLon := by
      intro x hx
      rcases List.mem_map.mp hx with ⟨v, hv, rfl⟩
      exact (inside_total hcell (List.mem_cons_of_mem _ hv)).lng
    exact sub_mono hround (foldl_max_le bot_le fun x hx => (hvertex x hx).2)
      (le_foldl_min le_top fun x hx => (hvertex x hx).1)

/-- However the cells were split and merged, the box is that of recording one after another, and
it encloses them. -/
theorem bounds_order_free_and_enclose (hround : Monotone round) {cells : List C}
    (hrange : InRange grid cells) {acc : Wgs84BoundsAccumulator}
    (hbuilt : Built grid round cells acc) (d : Wgs84Box) :
    (∀ cells' : List C, cells'.Perm cells →
      acc.finish round d = (cells'.foldl (recordCell grid round) new).finish round d) ∧
    ∀ cell ∈ cells, ∀ p ∈ points grid cell,
      Contains (acc.finish round d) p.lng p.lat ∧
      (isPole grid cell 90 = true → ∀ lng lat, -180 ≤ lng → lng ≤ 180 → p.lat ≤ lat → lat ≤ 90 →
        Contains (acc.finish round d) lng lat) ∧
      (isPole grid cell (-90) = true → ∀ lng lat, -180 ≤ lng → lng ≤ 180 → -90 ≤ lat →
        lat ≤ p.lat → Contains (acc.finish round d) lng lat) ∧
      (of 180 < cellSpan grid round cell → ∀ lng, -180 ≤ lng → lng ≤ 180 →
        (0 ≤ p.lng ∧ p.lng ≤ lng ∨ p.lng < 0 ∧ lng ≤ p.lng) →
          Contains (acc.finish round d) lng p.lat) := by
  obtain rfl := built_total hbuilt hrange
  have hsphere := @onSphere_total C _ grid round cells hrange
  refine ⟨fun cells' hperm => ?_, fun cell hcell p hp => ?_⟩
  · rw [built_total (built_foldl cells') (hrange.subset hperm.subset), total_perm hperm]
  have hcount : (total grid round cells).count ≠ 0 := by
    rw [count_total]
    exact (List.length_pos_of_mem hcell).ne'
  have hinside := @inside_total C _ grid round cells cell p hcell hp
  have hlng := hrange.lng cell hcell p hp
  have hside : (total grid round cells).minPosLon ≤ of p.lng ∨
      of p.lng ≤ (total grid round cells).maxNegLon := by
    rcases le_or_gt 0 p.lng with hpos | hneg
    · exact .inl (hinside.east hpos)
    · exact .inr (hinside.west hneg)
  refine ⟨?_, ?_, ?_, ?_⟩
  · exact contains_finish hsphere hcount hinside.lat hlng (.inr (.inr hinside.lng)) (.inr hside) d
  · intro hpole lng lat hwest heast hlow hhigh
    have hfull := @full_of_pole C _ grid round cells cell hcell (.inl hpole)
    have hcap := (@within_single C _ grid round cell).1.trans (within_total hcell)
    rw [hpole] at hcap
    exact contains_finish hsphere hcount ⟨hinside.lat.1.trans (of_le_of.mpr hlow),
      (of_le_of.mpr hhigh).trans hcap.maxLat⟩ ⟨hwest, heast⟩ (.inl hfull) (.inl hfull) d
  · intro hpole lng lat hwest heast hlow hhigh
    have hfull := @full_of_pole C _ grid round cells cell hcell (.inr hpole)
    have hcap := (@within_single C _ grid round cell).2.1.trans (within_total hcell)
    rw [hpole] at hcap
    exact contains_finish hsphere hcount ⟨hcap.minLat.trans (of_le_of.mpr hlow),
      (of_le_of.mpr hhigh).trans hinside.lat.2⟩ ⟨hwest, heast⟩ (.inl hfull) (.inl hfull) d
  · intro hspan lng hwest heast hbeyond
    have hcrosses := crosses_total hround hcell hspan
    refine contains_finish hsphere hcount hinside.lat ⟨hwest, heast⟩ ?_ ?_ d
    · exact hcrosses.imp id .inl
    · rcases hbeyond with ⟨hpos, hle⟩ | ⟨hneg, hle⟩
      · exact .inr (.inl ((hinside.east hpos).trans (of_le_of.mpr hle)))
      · exact .inr (.inr ((of_le_of.mpr hle).trans (hinside.west hneg)))

end Record

/-- A cell across the antimeridian and one on either side of it; the cells of the poles are
others. -/
def antimeridianGrid : Grid Nat where
  resolution _ := 0
  toCell _ _ := 9
  center
    | 0 => ⟨0, 179⟩
    | 1 => ⟨5, 170⟩
    | _ => ⟨-5, -170⟩
  boundary
    | 0 => [⟨1, 178⟩, ⟨-1, -178⟩]
    | 1 => [⟨6, 169⟩, ⟨4, 171⟩]
    | _ => [⟨-6, -171⟩, ⟨-4, -169⟩]

/-- Two cells are recorded in one accumulator and the third in another. Any other order gives
the same box, and it has the first cell up to the antimeridian. -/
theorem bounds_order_free_and_enclose_antimeridian :
    let acc := ((new.recordCell antimeridianGrid id 0).recordCell antimeridianGrid id 1).merge
      (new.recordCell antimeridianGrid id 2)
    let box := acc.finish id ⟨⊤, ⊤, ⊥, ⊥⟩
    box = ([2, 0, 1].foldl (recordCell antimeridianGrid id) new).finish id ⟨⊤, ⊤, ⊥, ⊥⟩ ∧
      Contains box 179 0 ∧ Contains box (359 / 2) 0 ∧ Contains box (-169) (-4) := by
  intro acc box
  have hrange : InRange antimeridianGrid [0, 1, 2] := by
    constructor <;> decide +kernel
  have hbuilt : Built antimeridianGrid id ((([] ++ [0]) ++ [1]) ++ ([] ++ [2])) acc :=
    .merge (.record (.record .new 0) 1) (.record .new 2)
  obtain ⟨hfree, hencloses⟩ := bounds_order_free_and_enclose monotone_id hrange hbuilt ⟨⊤, ⊤, ⊥, ⊥⟩
  obtain ⟨hcenter, -, -, hspan⟩ := hencloses 0 (by decide) ⟨0, 179⟩ (.head _)
  obtain ⟨hvertex, -⟩ := hencloses 2 (by decide) ⟨-4, -169⟩ (.tail _ (.tail _ (.head _)))
  refine ⟨hfree [2, 0, 1] (by decide), hcenter, ?_, hvertex⟩
  exact hspan (by decide +kernel) (359 / 2) (by norm_num) (by norm_num)
    (.inl ⟨by norm_num, by norm_num⟩)

end Wgs84BoundsAccumulator

end RasterH3.Pmtiles
