import RasterH3.Lib.Loops
import RasterH3.Lib.Plane
import RasterH3.Proofs.AlbersCone
import RasterH3.Proofs.QueryBoxes
import Mathlib

/-!
# Bounds of radial projections are sound

A rectangle of pixels is projected to longitudes and latitudes by a cone or, around a pole,
by a plane. Its image is bounded by a few probes: the corners, the feet of the
perpendiculars from the apex on the edges, and the apex itself if the rectangle has it. The
bounds should hold the image of every point.

Which points of a rectangle are extreme is a matter of the plane alone: the farthest from
the apex is a corner, the nearest is one of the probed points (`exists_probe_nearer`), and
the angles of two corners enclose all others unless the rectangle lies across the cut behind
the apex (`Beside.sector`).

Across the cut of an Albers projection two corners are more than half a turn apart, so the
bounds cover all longitudes. In every other case the longitudes of the rectangle are between
those of two corners. They are compared after they have been wrapped, and a corner at 180
degrees wraps to the other end: the bounds can then lose the rest.

For the polar projections a quarter of a turn more or less makes no difference, since the
angle is taken over a whole box: it spans less than 180 degrees, and if it passes the
antimeridian then the wrapped longitudes of its corners are more than 180 degrees apart.
-/

namespace RasterH3.Raster

open Plane Agg DataFusion

/-! ## Bounds that grow -/

section Grow

/-- A point, as longitude and latitude, is in the bounds. -/
def Bounds.Has (b : Bounds ℝ) (q : ℝ × ℝ) : Prop :=
  (b.minLat ≤ q.2 ∧ q.2 ≤ b.maxLat) ∧ b.minLon ≤ wrapLon q.1 ∧ wrapLon q.1 ≤ b.maxLon

def Bounds.Full (b : Bounds ℝ) : Prop := b.minLon ≤ -180 ∧ 180 ≤ b.maxLon

variable {b : Bounds ℝ} {q q' : ℝ × ℝ}

theorem Bounds.Full.has (h : b.Full) (hlat : b.minLat ≤ q.2 ∧ q.2 ≤ b.maxLat) : b.Has q := by
  obtain ⟨k, -, hlo, hhi⟩ := wrapLon_spec q.1
  exact ⟨hlat, h.1.trans hlo, hhi.le.trans h.2⟩

theorem Bounds.has_at : (Bounds.at q).Has q := ⟨⟨le_rfl, le_rfl⟩, le_rfl, le_rfl⟩

theorem Bounds.has_grow_self : (b.grow q).Has q :=
  ⟨⟨min_le_right _ _, le_max_right _ _⟩, min_le_right _ _, le_max_right _ _⟩

theorem Bounds.Has.grow (h : b.Has q) : (b.grow q').Has q :=
  ⟨⟨min_le_of_left_le h.1.1, le_max_of_le_left h.1.2⟩, min_le_of_left_le h.2.1,
    le_max_of_le_left h.2.2⟩

theorem Bounds.Full.grow (h : b.Full) : (b.grow q').Full :=
  ⟨min_le_of_left_le h.1, le_max_of_le_left h.2⟩

theorem Bounds.full_allLons (b : Bounds ℝ) : b.allLons.Full := ⟨le_rfl, le_rfl⟩

theorem Bounds.Has.allLons (h : b.Has q) : b.allLons.Has q := b.full_allLons.has h.1

theorem Bounds.Has.widen (c : Prop) [Decidable c] (h : b.Has q) :
    (if c then b.allLons else b).Has q := by
  split
  next => exact h.allLons
  next => exact h

theorem Bounds.Full.widen (c : Prop) [Decidable c] (h : b.Full) :
    (if c then b.allLons else b).Full := by
  split
  next => exact b.full_allLons
  next => exact h

theorem Bounds.widen_span (b : Bounds ℝ) :
    (if 180 < b.maxLon - b.minLon then b.allLons else b).Full ∨
      (if 180 < b.maxLon - b.minLon then b.allLons else b).maxLon -
        (if 180 < b.maxLon - b.minLon then b.allLons else b).minLon ≤ 180 := by
  split
  next => exact Or.inl b.full_allLons
  next hspan => exact Or.inr (not_lt.mp hspan)

section Fold

variable {α : Type} {f : α → ℝ × ℝ}

theorem Bounds.Has.foldl (ps : List α) {b : Bounds ℝ} (h : b.Has q) :
    (ps.foldl (fun b p => b.grow (f p)) b).Has q := by
  induction ps generalizing b with
  | nil => exact h
  | cons p ps ih => exact ih h.grow

theorem Bounds.Full.foldl (ps : List α) {b : Bounds ℝ} (h : b.Full) :
    (ps.foldl (fun b p => b.grow (f p)) b).Full := by
  induction ps generalizing b with
  | nil => exact h
  | cons p ps ih => exact ih h.grow

theorem Bounds.has_foldl {ps : List α} {b : Bounds ℝ} {p : α} (h : p ∈ ps) :
    (ps.foldl (fun b p => b.grow (f p)) b).Has (f p) := by
  induction ps generalizing b with
  | nil => cases h
  | cons p' ps ih =>
      rcases List.mem_cons.mp h with rfl | h
      · exact Bounds.has_grow_self.foldl ps
      · exact ih h

end Fold

end Grow

/-! ## The rectangle -/

section Rectangle

variable {gt : GeoTransform ℝ} {col row width height : ℝ} {apex : ℝ × ℝ}

/-- The points of the closed rectangle, for `s` and `t` from 0 to 1. -/
noncomputable def pixelPoint (gt : GeoTransform ℝ) (col row width height s t : ℝ) : ℝ × ℝ :=
  gt.pixelToCoord (col + s * width) (row + t * height)

theorem pixelPoint_eq (s t : ℝ) :
    pixelPoint gt col row width height s t =
      gt.pixelToCoord col row + s • (width * gt.a, width * gt.d) +
        t • (height * gt.b, height * gt.e) := by
  ext
  · simp only [pixelPoint, GeoTransform.pixelToCoord, Prod.fst_add, Prod.smul_fst, smul_eq_mul]
    ring
  · simp only [pixelPoint, GeoTransform.pixelToCoord, Prod.snd_add, Prod.smul_snd, smul_eq_mul]
    ring

theorem corners_eq : CrsTransformer.corners gt col row width height =
    [pixelPoint gt col row width height 0 0, pixelPoint gt col row width height 1 0,
      pixelPoint gt col row width height 1 1, pixelPoint gt col row width height 0 1] := by
  simp only [CrsTransformer.corners, pixelPoint, zero_mul, one_mul, add_zero]

theorem edges_eq : gt.edges col row width height =
    [(pixelPoint gt col row width height 0 0, pixelPoint gt col row width height 1 0),
      (pixelPoint gt col row width height 1 0, pixelPoint gt col row width height 1 1),
      (pixelPoint gt col row width height 1 1, pixelPoint gt col row width height 0 1),
      (pixelPoint gt col row width height 0 1, pixelPoint gt col row width height 0 0)] := by
  simp only [GeoTransform.edges, pixelPoint, zero_mul, one_mul, add_zero]

/-- No edge is cut off. -/
def LongEdges (gt : GeoTransform ℝ) (col row width height : ℝ) : Prop :=
  ∀ e ∈ gt.edges col row width height,
    edgeCutOff < (e.2.1 - e.1.1) * (e.2.1 - e.1.1) + (e.2.2 - e.1.2) * (e.2.2 - e.1.2)

/-- A point as the angle sees it: the cut is behind the apex. -/
noncomputable def offset (east north : ℝ) (apex p : ℝ × ℝ) : ℂ :=
  ⟨north * (p.2 - apex.2), east * (p.1 - apex.1)⟩

variable {east north : ℝ}

theorem norm_offset (he : east * east = 1) (hn : north * north = 1) (p : ℝ × ℝ) :
    ‖offset east north apex p‖ ^ 2 = distSq apex p := by
  rw [offset, Complex.sq_norm, Complex.normSq_mk, distSq]
  linear_combination (p.2 - apex.2) ^ 2 * hn + (p.1 - apex.1) ^ 2 * he

theorem offset_apex : offset east north apex apex = 0 := by
  simp only [offset, sub_self, mul_zero]
  rfl

/-- The corners, as the angle sees them. -/
def offsets (east north : ℝ) (apex : ℝ × ℝ) (gt : GeoTransform ℝ) (col row width height : ℝ) :
    Set ℂ := {z | ∃ p ∈ CrsTransformer.corners gt col row width height, z = offset east north apex p}

theorem offset_mem_hull {s t : ℝ} (hs : 0 ≤ s ∧ s ≤ 1) (ht : 0 ≤ t ∧ t ≤ 1) :
    offset east north apex (pixelPoint gt col row width height s t) ∈
      convexHull ℝ (offsets east north apex gt col row width height) := by
  let u : ℂ := ⟨north * (width * gt.d), east * (width * gt.a)⟩
  let v : ℂ := ⟨north * (height * gt.e), east * (height * gt.b)⟩
  have haffine : ∀ s t : ℝ, offset east north apex (pixelPoint gt col row width height s t) =
      offset east north apex (pixelPoint gt col row width height 0 0) + s • u + t • v := by
    intro s t
    simp only [pixelPoint_eq]
    apply Complex.ext
    · simp [offset, u, v]
      ring
    · simp [offset, u, v]
      ring
  have hmem := mem_hull_corners (offset east north apex (pixelPoint gt col row width height 0 0))
    u v hs ht
  rw [← haffine s t] at hmem
  refine convexHull_mono ?_ hmem
  have h₁ := haffine 1 0
  have h₂ := haffine 1 1
  have h₃ := haffine 0 1
  rw [one_smul, zero_smul, add_zero] at h₁
  rw [one_smul, one_smul] at h₂
  rw [zero_smul, one_smul, add_zero] at h₃
  intro z hz
  simp only [Set.mem_insert_iff, Set.mem_singleton_iff] at hz
  simp only [offsets, corners_eq, Set.mem_ofPred_eq, List.mem_cons, List.not_mem_nil, or_false]
  rcases hz with rfl | rfl | rfl | rfl
  · exact ⟨_, Or.inl rfl, rfl⟩
  · exact ⟨_, Or.inr (Or.inl rfl), h₁.symm⟩
  · exact ⟨_, Or.inr (Or.inr (Or.inl rfl)), h₂.symm⟩
  · exact ⟨_, Or.inr (Or.inr (Or.inr rfl)), h₃.symm⟩

theorem exists_corner_farther (apex : ℝ × ℝ) {s t : ℝ} (hs : 0 ≤ s ∧ s ≤ 1) (ht : 0 ≤ t ∧ t ≤ 1) :
    ∃ p ∈ CrsTransformer.corners gt col row width height,
      distSq apex (pixelPoint gt col row width height s t) ≤ distSq apex p := by
  by_contra hnone
  push Not at hnone
  have hz := @offset_mem_hull gt col row width height apex 1 1 s t hs ht
  set z := offset 1 1 apex (pixelPoint gt col row width height s t) with hzdef
  have hone : (1 : ℝ) * 1 = 1 := one_mul 1
  have hlt : ∀ p ∈ CrsTransformer.corners gt col row width height,
      ‖offset 1 1 apex p‖ < ‖z‖ := by
    intro p hp
    refine lt_of_pow_lt_pow_left₀ 2 (norm_nonneg _) ?_
    rw [norm_offset hone hone, hzdef, norm_offset hone hone]
    exact hnone p hp
  have hball : convexHull ℝ (offsets 1 1 apex gt col row width height) ⊆ Metric.ball 0 ‖z‖ := by
    refine convexHull_min ?_ (convex_ball 0 ‖z‖)
    intro w hw
    rcases hw with ⟨p, hp, rfl⟩
    exact mem_ball_zero_iff.mpr (hlt p hp)
  exact (mem_ball_zero_iff.mp (hball hz)).false

theorem minX_le {p : ℝ × ℝ} (hp : p ∈ CrsTransformer.corners gt col row width height) :
    gt.minX col row width height ≤ p.1 :=
  List.min_le_of_mem (List.mem_map_of_mem hp)

theorem le_maxX {p : ℝ × ℝ} (hp : p ∈ CrsTransformer.corners gt col row width height) :
    p.1 ≤ gt.maxX col row width height :=
  List.le_max_of_mem (List.mem_map_of_mem hp)

theorem minY_le {p : ℝ × ℝ} (hp : p ∈ CrsTransformer.corners gt col row width height) :
    gt.minY col row width height ≤ p.2 :=
  List.min_le_of_mem (List.mem_map_of_mem hp)

theorem le_maxY {p : ℝ × ℝ} (hp : p ∈ CrsTransformer.corners gt col row width height) :
    p.2 ≤ gt.maxY col row width height :=
  List.le_max_of_mem (List.mem_map_of_mem hp)

/-- What is positive by sign is positive or negative. -/
theorem sign_cases {r : ℝ} (h : r * r = 1) : r = 1 ∨ r = -1 := mul_self_eq_one_iff.mp h

theorem beside_of_sides (he : east * east = 1) (hn : north * north = 1) {S : Set (ℝ × ℝ)}
    (h : (∀ p ∈ S, apex.1 < p.1) ∨ (∀ p ∈ S, p.1 < apex.1) ∨ (∀ p ∈ S, apex.2 < p.2) ∨
      ∀ p ∈ S, p.2 < apex.2) :
    Beside {z | ∃ p ∈ S, z = offset east north apex p} := by
  have him : ∀ p, (offset east north apex p).im = east * (p.1 - apex.1) := fun p => rfl
  have hre : ∀ p, (offset east north apex p).re = north * (p.2 - apex.2) := fun p => rfl
  rcases h with h | h | h | h
  · rcases sign_cases he with rfl | rfl
    · refine Or.inr (Or.inr (Or.inl ?_))
      intro w hw
      rcases hw with ⟨p, hp, rfl⟩
      linarith [him p, h p hp]
    · refine Or.inr (Or.inr (Or.inr ?_))
      intro w hw
      rcases hw with ⟨p, hp, rfl⟩
      linarith [him p, h p hp]
  · rcases sign_cases he with rfl | rfl
    · refine Or.inr (Or.inr (Or.inr ?_))
      intro w hw
      rcases hw with ⟨p, hp, rfl⟩
      linarith [him p, h p hp]
    · refine Or.inr (Or.inr (Or.inl ?_))
      intro w hw
      rcases hw with ⟨p, hp, rfl⟩
      linarith [him p, h p hp]
  · rcases sign_cases hn with rfl | rfl
    · refine Or.inl ?_
      intro w hw
      rcases hw with ⟨p, hp, rfl⟩
      linarith [hre p, h p hp]
    · refine Or.inr (Or.inl ?_)
      intro w hw
      rcases hw with ⟨p, hp, rfl⟩
      linarith [hre p, h p hp]
  · rcases sign_cases hn with rfl | rfl
    · refine Or.inr (Or.inl ?_)
      intro w hw
      rcases hw with ⟨p, hp, rfl⟩
      linarith [hre p, h p hp]
    · refine Or.inl ?_
      intro w hw
      rcases hw with ⟨p, hp, rfl⟩
      linarith [hre p, h p hp]

/-- An apex that is not in the box is beyond one of its sides. -/
theorem beside_of_boxHas (he : east * east = 1) (hn : north * north = 1)
    (h : gt.boxHas col row width height apex = false) :
    Beside (offsets east north apex gt col row width height) := by
  have hside : ¬ (gt.minX col row width height ≤ apex.1 ∧ apex.1 ≤ gt.maxX col row width height ∧
      gt.minY col row width height ≤ apex.2 ∧ apex.2 ≤ gt.maxY col row width height) := by
    intro hin
    rw [GeoTransform.boxHas, decide_eq_true hin] at h
    cases h
  refine beside_of_sides (S := {p | p ∈ CrsTransformer.corners gt col row width height}) he hn ?_
  by_contra hnone
  push Not at hnone
  rcases hnone with ⟨⟨p₁, hp₁, h₁⟩, ⟨p₂, hp₂, h₂⟩, ⟨p₃, hp₃, h₃⟩, ⟨p₄, hp₄, h₄⟩⟩
  exact hside ⟨(minX_le hp₁).trans h₁, h₂.trans (le_maxX hp₂), (minY_le hp₃).trans h₃,
    h₄.trans (le_maxY hp₄)⟩

theorem pixelPoint_ne_apex (h : gt.boxHas col row width height apex = false) {s t : ℝ}
    (hs : 0 ≤ s ∧ s ≤ 1) (ht : 0 ≤ t ∧ t ≤ 1) : pixelPoint gt col row width height s t ≠ apex := by
  intro heq
  have hone : (1 : ℝ) * 1 = 1 := one_mul 1
  refine (beside_of_boxHas hone hone h).ne_zero (offset_mem_hull hs ht) ?_
  rw [heq, offset_apex]

/-- Nearest on an edge is the foot of the perpendicular, or an end. -/
theorem exists_nearer_of_edge {e : (ℝ × ℝ) × (ℝ × ℝ)}
    (hlong : edgeCutOff < (e.2.1 - e.1.1) * (e.2.1 - e.1.1) + (e.2.2 - e.1.2) * (e.2.2 - e.1.2))
    {t : ℝ} (ht : 0 ≤ t ∧ t ≤ 1) :
    ∃ q, (q = e.1 ∨ q = e.2 ∨ foot apex e = some q) ∧
      distSq apex q ≤ distSq apex (e.1 + t • (e.2 - e.1)) := by
  have hcut : (0 : ℝ) < edgeCutOff := by norm_num [edgeCutOff]
  have hd : 0 < (e.2 - e.1).1 * (e.2 - e.1).1 + (e.2 - e.1).2 * (e.2 - e.1).2 := hcut.trans hlong
  obtain ⟨t₀, ht₀⟩ : ∃ t₀, t₀ = -((e.2 - e.1).1 * (e.1.1 - apex.1) +
      (e.2 - e.1).2 * (e.1.2 - apex.2)) /
        ((e.2 - e.1).1 * (e.2 - e.1).1 + (e.2 - e.1).2 * (e.2 - e.1).2) := ⟨_, rfl⟩
  have hline := distSq_foot hd.ne' ht₀
  have hpoint := hline t
  by_cases hlow : t₀ ≤ 0
  · refine ⟨e.1, Or.inl rfl, ?_⟩
    have hend := hline 0
    rw [zero_smul, add_zero] at hend
    rw [hend, hpoint]
    refine add_le_add_right (mul_le_mul_of_nonneg_right ?_ hd.le) _
    exact pow_le_pow_left₀ (by linarith) (by linarith [ht.1]) 2
  · by_cases hhigh : 1 ≤ t₀
    · refine ⟨e.2, Or.inr (Or.inl rfl), ?_⟩
      have hend := hline 1
      rw [one_smul, add_sub_cancel] at hend
      rw [hend, hpoint]
      refine add_le_add_right (mul_le_mul_of_nonneg_right ?_ hd.le) _
      rw [sub_sq_comm 1 t₀, sub_sq_comm t t₀]
      exact pow_le_pow_left₀ (sub_nonneg.mpr hhigh) (by linarith [ht.2]) 2
    · push Not at hlow hhigh
      refine ⟨e.1 + t₀ • (e.2 - e.1), Or.inr (Or.inr ?_), ?_⟩
      · unfold foot
        have hlong' : edgeCutOff < (e.2.1 - e.1.1) * (e.2.1 - e.1.1) +
          (e.2.2 - e.1.2) * (e.2.2 - e.1.2) := hlong
        have ht₀' : t₀ = -((e.2.1 - e.1.1) * (e.1.1 - apex.1) +
            (e.2.2 - e.1.2) * (e.1.2 - apex.2)) /
              ((e.2.1 - e.1.1) * (e.2.1 - e.1.1) + (e.2.2 - e.1.2) * (e.2.2 - e.1.2)) := ht₀
        simp only [if_pos hlong', ← ht₀', if_pos (And.intro hlow hhigh)]
        rfl
      · rw [hpoint]
        exact le_add_of_nonneg_right (mul_nonneg (sq_nonneg _) hd.le)

/-- The nearest point is a corner, or the foot of an edge. -/
theorem exists_nearer (hlong : LongEdges gt col row width height)
    (h : gt.boxHas col row width height apex = false) {s t : ℝ}
    (hs : 0 ≤ s ∧ s ≤ 1) (ht : 0 ≤ t ∧ t ≤ 1) :
    ∃ q ∈ CrsTransformer.corners gt col row width height ++ feet apex gt col row width height,
      distSq apex q ≤ distSq apex (pixelPoint gt col row width height s t) := by
  -- a point of an edge is no nearer than some probe
  have hedge : ∀ e ∈ gt.edges col row width height, ∀ r : ℝ, 0 ≤ r ∧ r ≤ 1 →
      ∃ q ∈ CrsTransformer.corners gt col row width height ++ feet apex gt col row width height,
        distSq apex q ≤ distSq apex (e.1 + r • (e.2 - e.1)) := by
    intro e he r hr
    rcases exists_nearer_of_edge (hlong e he) hr with ⟨q, hq, hle⟩
    refine ⟨q, ?_, hle⟩
    rw [List.mem_append]
    have hends : e.1 ∈ CrsTransformer.corners gt col row width height ∧
        e.2 ∈ CrsTransformer.corners gt col row width height := by
      rw [edges_eq] at he
      rw [corners_eq]
      simp only [List.mem_cons, List.not_mem_nil, or_false] at he
      rcases he with rfl | rfl | rfl | rfl
      · simp
      · simp
      · simp
      · simp
    rcases hq with rfl | rfl | hq
    · exact Or.inl hends.1
    · exact Or.inl hends.2
    · exact Or.inr (List.mem_filterMap.mpr ⟨e, he, hq⟩)
  set u : ℝ × ℝ := (width * gt.a, width * gt.d) with hu
  set v : ℝ × ℝ := (height * gt.b, height * gt.e) with hv
  set p := gt.pixelToCoord col row with hp
  have hpoint : ∀ x y : ℝ, pixelPoint gt col row width height x y = p + x • u + y • v :=
    pixelPoint_eq
  have hu_pos : 0 < u.1 * u.1 + u.2 * u.2 := by
    have hcut : (0 : ℝ) < edgeCutOff := by norm_num [edgeCutOff]
    have hfirst := hlong (pixelPoint gt col row width height 0 0,
      pixelPoint gt col row width height 1 0) (by simp [edges_eq])
    have hd : pixelPoint gt col row width height 1 0 - pixelPoint gt col row width height 0 0 = u := by
      rw [hpoint, hpoint]
      module
    have hd₁ := congrArg Prod.fst hd
    have hd₂ := congrArg Prod.snd hd
    rw [Prod.fst_sub] at hd₁
    rw [Prod.snd_sub] at hd₂
    simp only [hd₁, hd₂] at hfirst
    exact hcut.trans hfirst
  have hout : ∀ x y : ℝ, 0 ≤ x ∧ x ≤ 1 → 0 ≤ y ∧ y ≤ 1 → p + x • u + y • v ≠ apex := by
    intro x y hx hy
    rw [← hpoint]
    exact pixelPoint_ne_apex h hx hy
  rcases exists_nearer_on_edge hu_pos hout hs ht with ⟨x, y, hx, hy, hboundary, hle⟩
  rw [hpoint]
  rw [← hpoint x y] at hle
  have hback : ∀ r : ℝ, 0 ≤ r ∧ r ≤ 1 → 0 ≤ 1 - r ∧ 1 - r ≤ 1 := by
    intro r hr
    exact ⟨sub_nonneg.mpr hr.2, by linarith [hr.1]⟩
  rcases hboundary with rfl | rfl | rfl | rfl
  · rcases hedge (pixelPoint gt col row width height 0 1, pixelPoint gt col row width height 0 0)
      (by simp [edges_eq]) (1 - y) (hback y hy) with ⟨q, hq, hqle⟩
    refine ⟨q, hq, hqle.trans (le_trans (le_of_eq ?_) hle)⟩
    congr 1
    simp only [hpoint]
    module
  · rcases hedge (pixelPoint gt col row width height 1 0, pixelPoint gt col row width height 1 1)
      (by simp [edges_eq]) y hy with ⟨q, hq, hqle⟩
    refine ⟨q, hq, hqle.trans (le_trans (le_of_eq ?_) hle)⟩
    congr 1
    simp only [hpoint]
    module
  · rcases hedge (pixelPoint gt col row width height 0 0, pixelPoint gt col row width height 1 0)
      (by simp [edges_eq]) x hx with ⟨q, hq, hqle⟩
    refine ⟨q, hq, hqle.trans (le_trans (le_of_eq ?_) hle)⟩
    congr 1
    simp only [hpoint]
    module
  · rcases hedge (pixelPoint gt col row width height 1 1, pixelPoint gt col row width height 0 1)
      (by simp [edges_eq]) (1 - x) (hback x hx) with ⟨q, hq, hqle⟩
    refine ⟨q, hq, hqle.trans (le_trans (le_of_eq ?_) hle)⟩
    congr 1
    simp only [hpoint]
    module

end Rectangle

/-! ## Albers -/

namespace AlbersConicFast

variable {albers : AlbersConicFast ℝ} {gt : GeoTransform ℝ} {col row width height : ℝ}

theorem phi_neg_one : albers.phi polarFunctions (-1) = -(Real.pi / 2) := by
  simp [phi, polarFunctions]

theorem phi_one : albers.phi polarFunctions 1 = Real.pi / 2 := by
  simp [phi, polarFunctions]

theorem sinBeta_mem (r : ℝ) : albers.sinBeta r ∈ Set.Icc (-1 : ℝ) 1 :=
  ⟨le_max_left _ _, max_le (by norm_num) (min_le_left _ _)⟩

theorem radToDeg_pos' : 0 < polarFunctions.radToDeg := div_pos (by norm_num) Real.pi_pos

theorem latDeg_mem (h : albers.Regular) (r : ℝ) :
    -90 ≤ albers.latDeg polarFunctions r ∧ albers.latDeg polarFunctions r ≤ 90 := by
  have hmem := @sinBeta_mem albers r
  have hlow := h.phi_mono ⟨le_rfl, by norm_num⟩ hmem hmem.1
  have hhigh := h.phi_mono hmem ⟨by norm_num, le_rfl⟩ hmem.2
  rw [phi_neg_one] at hlow
  rw [phi_one] at hhigh
  have hquarter : Real.pi / 2 * polarFunctions.radToDeg = 90 := by
    show Real.pi / 2 * (180 / Real.pi) = 90
    field_simp
    norm_num
  refine ⟨?_, ?_⟩
  · calc
      (-90 : ℝ) = -(Real.pi / 2) * polarFunctions.radToDeg := by rw [neg_mul, hquarter]
      _ ≤ _ := mul_le_mul_of_nonneg_right hlow radToDeg_pos'.le
  · calc
      _ ≤ Real.pi / 2 * polarFunctions.radToDeg :=
        mul_le_mul_of_nonneg_right hhigh radToDeg_pos'.le
      _ = 90 := hquarter

/-- Northward is towards the apex of a northern cone, -/
theorem latDeg_antitone (h : albers.Regular) (hn : 0 ≤ albers.n) {r r' : ℝ} (hr : r ≤ r') :
    albers.latDeg polarFunctions r' ≤ albers.latDeg polarFunctions r := by
  refine mul_le_mul_of_nonneg_right (h.phi_mono (sinBeta_mem _) (sinBeta_mem _) ?_) radToDeg_pos'.le
  unfold sinBeta
  have hinv : 0 ≤ 1 / albers.n := one_div_nonneg.mpr hn
  have hqp : 0 ≤ 1 / albers.qp := one_div_nonneg.mpr h.qp_pos.le
  have hmul := mul_le_mul_of_nonneg_right hr (mul_self_nonneg (albers.n / albers.a))
  have hq : (albers.c - r' * (albers.n / albers.a * (albers.n / albers.a))) * (1 / albers.n) ≤
      (albers.c - r * (albers.n / albers.a * (albers.n / albers.a))) * (1 / albers.n) :=
    mul_le_mul_of_nonneg_right (by linarith) hinv
  exact max_le_max le_rfl (min_le_min le_rfl (mul_le_mul_of_nonneg_right hq hqp))

/-- and away from that of a southern one. -/
theorem latDeg_monotone (h : albers.Regular) (hn : albers.n < 0) {r r' : ℝ} (hr : r ≤ r') :
    albers.latDeg polarFunctions r ≤ albers.latDeg polarFunctions r' := by
  refine mul_le_mul_of_nonneg_right (h.phi_mono (sinBeta_mem _) (sinBeta_mem _) ?_) radToDeg_pos'.le
  unfold sinBeta
  have hinv : 1 / albers.n ≤ 0 := one_div_nonpos.mpr hn.le
  have hqp : 0 ≤ 1 / albers.qp := one_div_nonneg.mpr h.qp_pos.le
  have hmul := mul_le_mul_of_nonneg_right hr (mul_self_nonneg (albers.n / albers.a))
  have hq : (albers.c - r * (albers.n / albers.a * (albers.n / albers.a))) * (1 / albers.n) ≤
      (albers.c - r' * (albers.n / albers.a * (albers.n / albers.a))) * (1 / albers.n) :=
    mul_le_mul_of_nonpos_right (by linarith) hinv
  exact max_le_max le_rfl (min_le_min le_rfl (mul_le_mul_of_nonneg_right hq hqp))

/-- The direction of the angle. -/
noncomputable def side (albers : AlbersConicFast ℝ) : ℝ := if 0 ≤ albers.n then 1 else -1

theorem side_mul_self : albers.side * albers.side = 1 := by
  unfold side
  split
  next => norm_num
  next => norm_num

theorem lonLat_snd (p : ℝ × ℝ) :
    (albers.lonLat polarFunctions p).2 = albers.latDeg polarFunctions (distSq albers.apex p) := by
  refine congrArg (albers.latDeg polarFunctions) ?_
  simp only [rowYp, apex, distSq]
  ring

theorem lonLat_fst (p : ℝ × ℝ) :
    (albers.lonLat polarFunctions p).1 = (albers.lonOriginRad +
      Complex.arg (offset albers.side (-albers.side) albers.apex p) * (1 / albers.n)) *
        polarFunctions.radToDeg := by
  have htheta : (if 0 ≤ albers.n then polarFunctions.atan2 (p.1 - albers.x0) (albers.rowYp p.2)
      else polarFunctions.atan2 (-(p.1 - albers.x0)) (-albers.rowYp p.2)) =
      Complex.arg (offset albers.side (-albers.side) albers.apex p) := by
    unfold side
    split
    next =>
      refine congrArg Complex.arg (Complex.ext ?_ ?_)
      · simp only [rowYp, offset, apex]
        ring
      · simp only [offset, apex]
        ring
    next =>
      refine congrArg Complex.arg (Complex.ext ?_ ?_)
      · simp only [rowYp, offset, apex]
        ring
      · simp only [offset, apex]
        ring
  simp only [lonLat, transformPoint, htheta]

theorem cornerBounds_has {p : ℝ × ℝ} (hp : p ∈ CrsTransformer.corners gt col row width height) :
    (albers.cornerBounds polarFunctions gt col row width height).Has
      (albers.lonLat polarFunctions p) := by
  rcases List.mem_cons.mp hp with rfl | hp
  · exact Bounds.has_at.foldl _
  · exact Bounds.has_foldl hp

theorem poleBounds_has (h : albers.Regular) {p : ℝ × ℝ}
    (hp : p ∈ CrsTransformer.corners gt col row width height) :
    (albers.poleBounds gt col row width height
      (albers.cornerBounds polarFunctions gt col row width height)).Has
        (albers.lonLat polarFunctions p) := by
  have hcorner := @cornerBounds_has albers gt col row width height p hp
  have hlat := latDeg_mem h (distSq albers.apex p)
  rw [← lonLat_snd] at hlat
  unfold poleBounds
  split
  next =>
    split
    next => exact (Bounds.full_allLons _).has ⟨hcorner.1.1, hlat.2⟩
    next => exact (Bounds.full_allLons _).has ⟨hlat.1, hcorner.1.2⟩
  next => exact hcorner

theorem cornerBounds_maxLon_lt {m : ℝ} (h : ∀ p ∈ CrsTransformer.corners gt col row width height,
    wrapLon (albers.lonLat polarFunctions p).1 < m) :
    (albers.cornerBounds polarFunctions gt col row width height).maxLon < m :=
  max_lt (max_lt (max_lt (h _ (by simp [CrsTransformer.corners]))
    (h _ (by simp [CrsTransformer.corners]))) (h _ (by simp [CrsTransformer.corners])))
      (h _ (by simp [CrsTransformer.corners]))

theorem le_cornerBounds_minLon :
    -180 ≤ (albers.cornerBounds polarFunctions gt col row width height).minLon := by
  have hwrap : ∀ x : ℝ, -180 ≤ wrapLon x := fun x => by
    obtain ⟨k, -, hlo, -⟩ := wrapLon_spec x
    exact hlo
  exact le_min (le_min (le_min (hwrap _) (hwrap _)) (hwrap _)) (hwrap _)

section RectBounds

variable {q : ℝ × ℝ}

theorem rectBounds_of_checks (hbox : gt.boxHas col row width height albers.apex = false)
    (hleave : albers.cornersLeave polarFunctions gt col row width height = false)
    (hfeet : feet albers.apex gt col row width height = [])
    (hspan : (albers.cornerBounds polarFunctions gt col row width height).maxLon -
      (albers.cornerBounds polarFunctions gt col row width height).minLon ≤ 180) :
    albers.rectBounds polarFunctions gt col row width height =
      albers.cornerBounds polarFunctions gt col row width height := by
  unfold rectBounds poleBounds
  simp only [hbox, hleave, hfeet, List.foldl_nil, Bool.false_eq_true, if_false]
  exact if_neg (not_lt.mpr hspan)

theorem rectBounds_has (h : (albers.poleBounds gt col row width height
    (albers.cornerBounds polarFunctions gt col row width height)).Has q) :
    (albers.rectBounds polarFunctions gt col row width height).Has q :=
  ((h.foldl _).widen _).widen _

theorem rectBounds_full (h : (albers.poleBounds gt col row width height
    (albers.cornerBounds polarFunctions gt col row width height)).Full) :
    (albers.rectBounds polarFunctions gt col row width height).Full :=
  ((h.foldl _).widen _).widen _

theorem rectBounds_has_probe (h : albers.Regular)
    (hq : q ∈ albers.probes gt col row width height) :
    (albers.rectBounds polarFunctions gt col row width height).Has
      (albers.lonLat polarFunctions q) := by
  rcases List.mem_append.mp hq with hq | hq
  · exact rectBounds_has (poleBounds_has h hq)
  · exact ((Bounds.has_foldl hq).widen _).widen _

/-- If the bounds do not cover all longitudes then all checks have passed. -/
theorem rectBounds_cases :
    (albers.rectBounds polarFunctions gt col row width height).Full ∨
      gt.boxHas col row width height albers.apex = false ∧
      albers.cornersLeave polarFunctions gt col row width height = false ∧
      (albers.rectBounds polarFunctions gt col row width height).maxLon -
        (albers.rectBounds polarFunctions gt col row width height).minLon ≤ 180 := by
  cases hbox : gt.boxHas col row width height albers.apex with
  | true =>
      refine Or.inl (rectBounds_full ?_)
      unfold poleBounds
      rw [if_pos hbox]
      split
      next => exact Bounds.full_allLons _
      next => exact Bounds.full_allLons _
  | false =>
      cases hleave : albers.cornersLeave polarFunctions gt col row width height with
      | true =>
          refine Or.inl (Bounds.Full.widen _ ?_)
          rw [if_pos hleave]
          exact Bounds.full_allLons _
      | false =>
          refine (Bounds.widen_span _).imp_right fun hspan => ⟨rfl, rfl, ?_⟩
          exact hspan

/-- The latitude of a rectangle that is not above the apex is at most that of some probe. -/
theorem exists_probe_north (h : albers.Regular) (hlong : LongEdges gt col row width height)
    (hbox : gt.boxHas col row width height albers.apex = false) {s t : ℝ}
    (hs : 0 ≤ s ∧ s ≤ 1) (ht : 0 ≤ t ∧ t ≤ 1) :
    ∃ p ∈ albers.probes gt col row width height,
      (albers.lonLat polarFunctions (pixelPoint gt col row width height s t)).2 ≤
        (albers.lonLat polarFunctions p).2 := by
  simp only [lonLat_snd]
  by_cases hn : 0 ≤ albers.n
  · rcases exists_nearer hlong hbox hs ht with ⟨p, hp, hle⟩
    exact ⟨p, hp, latDeg_antitone h hn hle⟩
  · rcases exists_corner_farther albers.apex hs ht with ⟨p, hp, hle⟩
    exact ⟨p, List.mem_append_left _ hp, latDeg_monotone h (not_le.mp hn) hle⟩

theorem exists_probe_south (h : albers.Regular) (hlong : LongEdges gt col row width height)
    (hbox : gt.boxHas col row width height albers.apex = false) {s t : ℝ}
    (hs : 0 ≤ s ∧ s ≤ 1) (ht : 0 ≤ t ∧ t ≤ 1) :
    ∃ p ∈ albers.probes gt col row width height,
      (albers.lonLat polarFunctions p).2 ≤
        (albers.lonLat polarFunctions (pixelPoint gt col row width height s t)).2 := by
  simp only [lonLat_snd]
  by_cases hn : 0 ≤ albers.n
  · rcases exists_corner_farther albers.apex hs ht with ⟨p, hp, hle⟩
    exact ⟨p, List.mem_append_left _ hp, latDeg_antitone h hn hle⟩
  · rcases exists_nearer hlong hbox hs ht with ⟨p, hp, hle⟩
    exact ⟨p, hp, latDeg_monotone h (not_le.mp hn) hle⟩

theorem rectBounds_lat (h : albers.Regular) (hlong : LongEdges gt col row width height) {s t : ℝ}
    (hs : 0 ≤ s ∧ s ≤ 1) (ht : 0 ≤ t ∧ t ≤ 1) :
    (albers.rectBounds polarFunctions gt col row width height).minLat ≤
        (albers.lonLat polarFunctions (pixelPoint gt col row width height s t)).2 ∧
      (albers.lonLat polarFunctions (pixelPoint gt col row width height s t)).2 ≤
        (albers.rectBounds polarFunctions gt col row width height).maxLat := by
  cases hbox : gt.boxHas col row width height albers.apex with
  | false =>
      rcases exists_probe_south h hlong hbox hs ht with ⟨p, hp, hsouth⟩
      rcases exists_probe_north h hlong hbox hs ht with ⟨p', hp', hnorth⟩
      exact ⟨(rectBounds_has_probe h hp).1.1.trans hsouth,
        hnorth.trans (rectBounds_has_probe h hp').1.2⟩
  | true =>
      rcases exists_corner_farther albers.apex hs ht with ⟨p, hp, hle⟩
      have hmem := latDeg_mem h (distSq albers.apex (pixelPoint gt col row width height s t))
      have hcorner := (rectBounds_has_probe h (List.mem_append_left
        (feet albers.apex gt col row width height) hp)).1
      have hinside := (@cornerBounds_has albers gt col row width height p hp).1
      have hrange := latDeg_mem h (distSq albers.apex p)
      rw [lonLat_snd] at hcorner hinside ⊢
      by_cases hn : 0 ≤ albers.n
      · have hpole : (albers.rectBounds polarFunctions gt col row width height).Has (0, 90) := by
          refine rectBounds_has ?_
          unfold poleBounds
          rw [if_pos hbox, if_pos hn]
          exact (Bounds.full_allLons _).has ⟨hinside.1.trans hrange.2, le_rfl⟩
        exact ⟨hcorner.1.trans (latDeg_antitone h hn hle), hmem.2.trans hpole.1.2⟩
      · have hpole : (albers.rectBounds polarFunctions gt col row width height).Has (0, -90) := by
          refine rectBounds_has ?_
          unfold poleBounds
          rw [if_pos hbox, if_neg hn]
          exact (Bounds.full_allLons _).has ⟨le_rfl, hrange.1.trans hinside.2⟩
        exact ⟨hpole.1.1.trans hmem.1,
          (latDeg_monotone h (not_le.mp hn) hle).trans hcorner.2⟩

/-- Longitudes are in the order of the angles, or in the opposite one. -/
theorem lonLat_between {p p₁ p₂ : ℝ × ℝ}
    (h₁ : Complex.arg (offset albers.side (-albers.side) albers.apex p₁) ≤
      Complex.arg (offset albers.side (-albers.side) albers.apex p))
    (h₂ : Complex.arg (offset albers.side (-albers.side) albers.apex p) ≤
      Complex.arg (offset albers.side (-albers.side) albers.apex p₂)) :
    ((albers.lonLat polarFunctions p₁).1 ≤ (albers.lonLat polarFunctions p).1 ∧
        (albers.lonLat polarFunctions p).1 ≤ (albers.lonLat polarFunctions p₂).1) ∨
      (albers.lonLat polarFunctions p₂).1 ≤ (albers.lonLat polarFunctions p).1 ∧
        (albers.lonLat polarFunctions p).1 ≤ (albers.lonLat polarFunctions p₁).1 := by
  simp only [lonLat_fst]
  have hdeg := radToDeg_pos'.le
  rcases le_total 0 (1 / albers.n) with hn | hn
  · have hmul₁ := mul_le_mul_of_nonneg_right h₁ hn
    have hmul₂ := mul_le_mul_of_nonneg_right h₂ hn
    exact Or.inl ⟨mul_le_mul_of_nonneg_right (by linarith) hdeg,
      mul_le_mul_of_nonneg_right (by linarith) hdeg⟩
  · have hmul₁ := mul_le_mul_of_nonpos_right h₁ hn
    have hmul₂ := mul_le_mul_of_nonpos_right h₂ hn
    exact Or.inr ⟨mul_le_mul_of_nonneg_right (by linarith) hdeg,
      mul_le_mul_of_nonneg_right (by linarith) hdeg⟩

/-- Half a turn around the apex is at least half the globe. -/
theorem lonLat_apart (h : albers.Regular) {p p' : ℝ × ℝ}
    (hfar : Real.pi < Complex.arg (offset albers.side (-albers.side) albers.apex p') -
      Complex.arg (offset albers.side (-albers.side) albers.apex p)) :
    180 < |(albers.lonLat polarFunctions p').1 - (albers.lonLat polarFunctions p).1| := by
  simp only [lonLat_fst]
  set θ := Complex.arg (offset albers.side (-albers.side) albers.apex p)
  set θ' := Complex.arg (offset albers.side (-albers.side) albers.apex p')
  have hinv : 1 ≤ |1 / albers.n| := by
    rw [abs_div, abs_one]
    exact (one_le_div (abs_pos.mpr h.n_ne)).mpr h.n_le
  have hdiff : (albers.lonOriginRad + θ' * (1 / albers.n)) * polarFunctions.radToDeg -
      (albers.lonOriginRad + θ * (1 / albers.n)) * polarFunctions.radToDeg =
        (θ' - θ) * polarFunctions.radToDeg * (1 / albers.n) := by ring
  have hhalf : Real.pi * polarFunctions.radToDeg = 180 := by
    show Real.pi * (180 / Real.pi) = 180
    field_simp
  have hturn : 180 < (θ' - θ) * polarFunctions.radToDeg := by
    rw [← hhalf]
    exact mul_lt_mul_of_pos_right hfar radToDeg_pos'
  rw [hdiff, abs_mul]
  calc
    (180 : ℝ) < (θ' - θ) * polarFunctions.radToDeg := hturn
    _ ≤ |(θ' - θ) * polarFunctions.radToDeg| := le_abs_self _
    _ = |(θ' - θ) * polarFunctions.radToDeg| * 1 := (mul_one _).symm
    _ ≤ |(θ' - θ) * polarFunctions.radToDeg| * |1 / albers.n| :=
      mul_le_mul_of_nonneg_left hinv (abs_nonneg _)

/-- No corner is at 180 degrees, where wrapping takes it to the other end. -/
def OffSeam (albers : AlbersConicFast ℝ) (gt : GeoTransform ℝ) (col row width height : ℝ) : Prop :=
  ∀ p ∈ CrsTransformer.corners gt col row width height,
    (albers.lonLat polarFunctions p).1 ≠ 180

/-- A corner at 180 degrees does no harm where the bounds are widened for another reason: the box
of the rectangle has the apex, a corner is beyond the antimeridian, or a corner or the foot of an
edge is in the eastern half of the globe, more than half a turn from -180. -/
def SeamSafe (albers : AlbersConicFast ℝ) (gt : GeoTransform ℝ) (col row width height : ℝ) :
    Prop :=
  albers.OffSeam gt col row width height ∨
    gt.boxHas col row width height albers.apex = true ∨
    albers.cornersLeave polarFunctions gt col row width height = true ∨
    ∃ p ∈ albers.probes gt col row width height,
      0 < (albers.lonLat polarFunctions p).1 ∧ (albers.lonLat polarFunctions p).1 < 180

/-- Where nothing has widened the bounds, no corner is on the seam. -/
theorem SeamSafe.offSeam (h : albers.Regular) (hsafe : albers.SeamSafe gt col row width height)
    (hbox : gt.boxHas col row width height albers.apex = false)
    (hleave : albers.cornersLeave polarFunctions gt col row width height = false)
    (hspan : (albers.rectBounds polarFunctions gt col row width height).maxLon -
      (albers.rectBounds polarFunctions gt col row width height).minLon ≤ 180) :
    albers.OffSeam gt col row width height := by
  rcases hsafe with hoff | hin | hout | ⟨p, hp, heast, hlt⟩
  · exact hoff
  · rw [hbox] at hin
    cases hin
  · rw [hleave] at hout
    cases hout
  · intro p' hp' hseam
    have hhas := (rectBounds_has_probe h hp).2
    have hhas' := (rectBounds_has_probe h (List.mem_append_left
      (feet albers.apex gt col row width height) hp')).2
    rw [wrapLon_of_mem (by linarith) hlt] at hhas
    rw [hseam, wrapLon_seam] at hhas'
    linarith [hhas.2, hhas'.1]

theorem rectBounds_lon (h : albers.Regular) (hlong : LongEdges gt col row width height)
    (hsafe : albers.SeamSafe gt col row width height) {s t : ℝ}
    (hs : 0 ≤ s ∧ s ≤ 1) (ht : 0 ≤ t ∧ t ≤ 1) :
    (albers.rectBounds polarFunctions gt col row width height).Has
      (albers.lonLat polarFunctions (pixelPoint gt col row width height s t)) := by
  have hlat := rectBounds_lat h hlong hs ht
  rcases @rectBounds_cases albers gt col row width height with hfull | ⟨hbox, hleave, hspan⟩
  · exact hfull.has hlat
  · refine ⟨hlat, ?_⟩
    have hseam := hsafe.offSeam h hbox hleave hspan
    -- the corners are wrapped to themselves
    have hcorner : ∀ p ∈ CrsTransformer.corners gt col row width height,
        -180 ≤ (albers.lonLat polarFunctions p).1 ∧ (albers.lonLat polarFunctions p).1 < 180 ∧
        (albers.rectBounds polarFunctions gt col row width height).minLon ≤
          (albers.lonLat polarFunctions p).1 ∧
        (albers.lonLat polarFunctions p).1 ≤
          (albers.rectBounds polarFunctions gt col row width height).maxLon := by
      intro p hp
      have hin := of_decide_eq_false (List.any_eq_false.mp hleave p hp |> Bool.eq_false_iff.mpr)
      push Not at hin
      have hlt := lt_of_le_of_ne hin.2 (hseam p hp)
      have hhas := (rectBounds_has_probe h (List.mem_append_left
        (feet albers.apex gt col row width height) hp)).2
      rw [wrapLon_of_mem hin.1 hlt] at hhas
      exact ⟨hin.1, hlt, hhas⟩
    have hnorth : -albers.side * -albers.side = 1 := by rw [neg_mul_neg, side_mul_self]
    have hbeside := beside_of_boxHas (@side_mul_self albers) hnorth hbox
    have hhull := @offset_mem_hull gt col row width height albers.apex albers.side (-albers.side)
      s t hs ht
    rcases hbeside.sector hhull with hcut | ⟨β, hS, hβ⟩
    · exfalso
      rcases hcut with ⟨hleft, ⟨w, ⟨p, hp, rfl⟩, him⟩, w', ⟨p', hp', rfl⟩, him'⟩
      have hlow := arg_lt_of_left (hleft _ ⟨p, hp, rfl⟩) him
      have hhigh := (inSector_left (hleft _ ⟨p', hp', rfl⟩) him').2.1
      have hapart := lonLat_apart h (by linarith :
        Real.pi < Complex.arg (offset albers.side (-albers.side) albers.apex p') -
          Complex.arg (offset albers.side (-albers.side) albers.apex p))
      have hwide : |(albers.lonLat polarFunctions p').1 - (albers.lonLat polarFunctions p).1| ≤
          180 := by
        have h₁ := hcorner p hp
        have h₂ := hcorner p' hp'
        rw [abs_le]
        refine ⟨?_, ?_⟩
        · linarith [h₁.2.2.2, h₂.2.2.1]
        · linarith [h₁.2.2.1, h₂.2.2.2]
      linarith
    · rcases exists_arg_le hhull hS hβ with ⟨w₁, ⟨p₁, hp₁, rfl⟩, hle₁⟩
      rcases exists_le_arg hhull hS hβ with ⟨w₂, ⟨p₂, hp₂, rfl⟩, hle₂⟩
      have h₁ := hcorner p₁ hp₁
      have h₂ := hcorner p₂ hp₂
      rcases lonLat_between hle₁ hle₂ with hlon | hlon
      · rw [wrapLon_of_mem (h₁.1.trans hlon.1) (hlon.2.trans_lt h₂.2.1)]
        exact ⟨h₁.2.2.1.trans hlon.1, hlon.2.trans h₂.2.2.2⟩
      · rw [wrapLon_of_mem (h₂.1.trans hlon.1) (hlon.2.trans_lt h₁.2.1)]
        exact ⟨h₂.2.2.1.trans hlon.1, hlon.2.trans h₁.2.2.2⟩

end RectBounds

theorem le_evictionNorthBound (h : albers.Regular) {chunk : RasterChunk}
    (hlong : LongEdges gt chunk.colOffset chunk.rowOffset chunk.width chunk.height) {s t : ℝ}
    (hs : 0 ≤ s ∧ s ≤ 1) (ht : 0 ≤ t ∧ t ≤ 1) :
    ((albers.lonLat polarFunctions
        (pixelPoint gt chunk.colOffset chunk.rowOffset chunk.width chunk.height s t)).2 : WithTop ℝ) ≤
      albers.evictionNorthBound polarFunctions chunk gt := by
  unfold evictionNorthBound
  simp only
  split
  next => exact le_top
  next hbox =>
    rcases exists_probe_north h hlong (Bool.eq_false_iff.mpr hbox) hs ht with ⟨p, hp, hle⟩
    refine WithTop.coe_le_coe.mpr (hle.trans (List.le_max_of_mem ?_))
    exact List.mem_map.mpr ⟨p, hp, rfl⟩

end AlbersConicFast

/-! ## Polar stereographic -/

section Polar

/-- The pole is the origin, and 180 degrees of longitude are a ray from it. `north` is -1 for the
north pole and 1 for the south pole. -/
structure PolarStereographic where
  north : ℝ
  north_mul_self : north * north = 1
  lon0 : ℝ
  lat : ℝ → ℝ
  lat_mono : MonotoneOn lat (Set.Ici 0) ∨ AntitoneOn lat (Set.Ici 0)
  lat_mem : ∀ r, 0 ≤ r → -90 ≤ lat r ∧ lat r ≤ 90

/-- The longitude of a point other than the pole, up to whole turns. -/
noncomputable def PolarStereographic.lon (proj : PolarStereographic) (p : ℝ × ℝ) : ℝ :=
  proj.lon0 + Complex.arg (offset 1 proj.north (0, 0) p) * (180 / Real.pi)

/-- The inverse of the projection, where it is defined. -/
def PolarStereographic.InvertedBy (proj : PolarStereographic) (point : ℝ → ℝ → Option (ℝ × ℝ)) :
    Prop :=
  ∀ p q, point p.1 p.2 = some q → q.2 = proj.lat (distSq (0, 0) p) ∧
    (p ≠ (0, 0) → wrapLon q.1 = wrapLon (proj.lon p))

theorem wrapLon_of_angle {a b : ℝ} (h : (a : Real.Angle) = b) (lon : ℝ) :
    wrapLon (lon + a * (180 / Real.pi)) = wrapLon (lon + b * (180 / Real.pi)) := by
  rcases Real.Angle.angle_eq_iff_two_pi_dvd_sub.mp h with ⟨k, hk⟩
  have hturns : lon + a * (180 / Real.pi) = lon + b * (180 / Real.pi) + 360 * k := by
    rw [sub_eq_iff_eq_add.mp hk]
    field_simp
    ring
  rw [hturns, wrapLon_add_turns]

/-- Less than half the globe, with ends that are no further apart after wrapping, does not pass
the antimeridian. -/
theorem wrapLon_between {x x₁ x₂ : ℝ} (h₁ : x₁ ≤ x) (h₂ : x ≤ x₂) (hnarrow : x₂ - x₁ < 180)
    (hends : wrapLon x₁ - wrapLon x₂ < 180) : wrapLon x₁ ≤ wrapLon x ∧ wrapLon x ≤ wrapLon x₂ := by
  obtain ⟨k, hk, hlo, hhi⟩ := wrapLon_spec x₁
  obtain ⟨m, hm, hlo', hhi'⟩ := wrapLon_spec x₂
  have hsame : m = k := by
    have hupper : (m : ℝ) < (k + 1 : Int) := by
      push_cast
      linarith
    have hlower : ((k - 1 : Int) : ℝ) < m := by
      push_cast
      linarith
    have hupper' := Int.cast_lt.mp hupper
    have hlower' := Int.cast_lt.mp hlower
    omega
  subst hsame
  have hx := wrapLon_add_turns (x - 360 * m) m
  have hself : wrapLon (x - 360 * m) = x - 360 * m := wrapLon_of_mem (by linarith) (by linarith)
  rw [sub_add_cancel, hself] at hx
  rw [hx]
  exact ⟨by linarith, by linarith⟩

variable {gt : GeoTransform ℝ} {col row width height : ℝ} {proj : PolarStereographic}
  {point : ℝ → ℝ → Option (ℝ × ℝ)}

/-- The box as a raster of one pixel. -/
noncomputable def boxGrid (gt : GeoTransform ℝ) (col row width height : ℝ) : GeoTransform ℝ where
  c0 := gt.minX col row width height
  a := gt.maxX col row width height - gt.minX col row width height
  b := 0
  f0 := gt.minY col row width height
  d := 0
  e := gt.maxY col row width height - gt.minY col row width height

theorem boxCorners_mem {p : ℝ × ℝ}
    (hp : p ∈ CrsTransformer.corners (boxGrid gt col row width height) 0 0 1 1) :
    p ∈ polarProbes gt col row width height := by
  have hcorners : CrsTransformer.corners (boxGrid gt col row width height) 0 0 1 1 =
      [(gt.minX col row width height, gt.minY col row width height),
        (gt.maxX col row width height, gt.minY col row width height),
        (gt.maxX col row width height, gt.maxY col row width height),
        (gt.minX col row width height, gt.maxY col row width height)] := by
    simp [CrsTransformer.corners, GeoTransform.pixelToCoord, boxGrid]
  rw [hcorners] at hp
  unfold polarProbes
  simp only [List.mem_cons, List.not_mem_nil, or_false] at hp ⊢
  rcases hp with hp | hp | hp | hp
  · exact Or.inl hp
  · exact Or.inr (Or.inr (Or.inl hp))
  · exact Or.inr (Or.inr (Or.inr (Or.inl hp)))
  · exact Or.inr (Or.inl hp)

/-- A number between two others is a point of the way from one to the other. -/
theorem exists_ratio {x lo hi : ℝ} (h₁ : lo ≤ x) (h₂ : x ≤ hi) :
    ∃ s, (0 ≤ s ∧ s ≤ 1) ∧ x = lo + s * (hi - lo) := by
  rcases eq_or_lt_of_le (h₁.trans h₂) with heq | hlt
  · exact ⟨0, ⟨le_rfl, zero_le_one⟩, by linarith⟩
  · have hpos := sub_pos.mpr hlt
    refine ⟨(x - lo) / (hi - lo), ⟨div_nonneg (sub_nonneg.mpr h₁) hpos.le, ?_⟩, ?_⟩
    · exact (div_le_one hpos).mpr (by linarith)
    · rw [div_mul_cancel₀ _ hpos.ne', add_sub_cancel]

theorem pixelPoint_mem_box {s t : ℝ} (hs : 0 ≤ s ∧ s ≤ 1) (ht : 0 ≤ t ∧ t ≤ 1) :
    (gt.minX col row width height ≤ (pixelPoint gt col row width height s t).1 ∧
      (pixelPoint gt col row width height s t).1 ≤ gt.maxX col row width height) ∧
    gt.minY col row width height ≤ (pixelPoint gt col row width height s t).2 ∧
      (pixelPoint gt col row width height s t).2 ≤ gt.maxY col row width height := by
  have hhull := @offset_mem_hull gt col row width height (0, 0) 1 1 s t hs ht
  have hbound : ∀ a b m : ℝ, (∀ p ∈ CrsTransformer.corners gt col row width height,
      m ≤ a * p.2 + b * p.1) → m ≤ a * (pixelPoint gt col row width height s t).2 +
        b * (pixelPoint gt col row width height s t).1 := by
    intro a b m h
    have hmem := convexHull_min (fun w hw => by
      rcases hw with ⟨p, hp, rfl⟩
      have hle := h p hp
      show m ≤ a * (offset 1 1 (0, 0) p).re + b * (offset 1 1 (0, 0) p).im
      simpa [offset] using hle) (convex_halfSpace_ge (isLinearMap_combination a b) m) hhull
    simpa [offset] using hmem
  have h₁ := hbound 0 1 (gt.minX col row width height) fun p hp => by linarith [minX_le hp]
  have h₂ := hbound 0 (-1) (-gt.maxX col row width height) fun p hp => by linarith [le_maxX hp]
  have h₃ := hbound 1 0 (gt.minY col row width height) fun p hp => by linarith [minY_le hp]
  have h₄ := hbound (-1) 0 (-gt.maxY col row width height) fun p hp => by linarith [le_maxY hp]
  refine ⟨⟨?_, ?_⟩, ?_, ?_⟩
  · linarith
  · linarith
  · linarith
  · linarith

theorem exists_boxPoint {s t : ℝ} (hs : 0 ≤ s ∧ s ≤ 1) (ht : 0 ≤ t ∧ t ≤ 1) :
    ∃ x y : ℝ, (0 ≤ x ∧ x ≤ 1) ∧ (0 ≤ y ∧ y ≤ 1) ∧
      pixelPoint gt col row width height s t =
        pixelPoint (boxGrid gt col row width height) 0 0 1 1 x y := by
  have hbox := @pixelPoint_mem_box gt col row width height s t hs ht
  rcases exists_ratio hbox.1.1 hbox.1.2 with ⟨x, hx, hx'⟩
  rcases exists_ratio hbox.2.1 hbox.2.2 with ⟨y, hy, hy'⟩
  refine ⟨x, y, hx, hy, Prod.ext ?_ ?_⟩
  · rw [hx']
    simp [pixelPoint, GeoTransform.pixelToCoord, boxGrid]
  · rw [hy']
    simp [pixelPoint, GeoTransform.pixelToCoord, boxGrid]

theorem clamp_sq_le {x lo hi : ℝ} (h₁ : lo ≤ x) (h₂ : x ≤ hi) :
    (max lo (min 0 hi)) ^ 2 ≤ x ^ 2 := by
  rcases le_total lo 0 with hlo | hlo
  · rcases le_total 0 hi with hhi | hhi
    · rw [min_eq_left hhi, max_eq_right hlo, zero_pow two_ne_zero]
      exact sq_nonneg x
    · rw [min_eq_right hhi, max_eq_right (h₁.trans h₂)]
      rw [← neg_sq hi, ← neg_sq x]
      exact pow_le_pow_left₀ (by linarith) (by linarith) 2
  · rw [min_eq_left (hlo.trans (h₁.trans h₂)), max_eq_left hlo]
    exact pow_le_pow_left₀ hlo h₁ 2

theorem slackened_has {near : ℝ × ℝ} {b : Bounds ℝ} {q : ℝ × ℝ}
    (hlat : b.minLat ≤ q.2 ∧ q.2 ≤ b.maxLat) (hrange : -90 ≤ q.2 ∧ q.2 ≤ 90)
    (hlon : near ≠ (0, 0) → b.maxLon - b.minLon < 180 →
      b.minLon ≤ wrapLon q.1 ∧ wrapLon q.1 ≤ b.maxLon) : (slackened near b).Has q := by
  have hslack : (0 : ℝ) < polarSlack := by norm_num [polarSlack]
  have hlat' : max (b.minLat - polarSlack) (-90) ≤ q.2 ∧ q.2 ≤ min (b.maxLat + polarSlack) 90 :=
    ⟨max_le (by linarith [hlat.1]) hrange.1, le_min (by linarith [hlat.2]) hrange.2⟩
  unfold slackened
  simp only
  split
  next => exact Bounds.Full.has ⟨le_rfl, le_rfl⟩ hlat'
  next hchecks =>
    push Not at hchecks
    have hinside := hlon hchecks.1 hchecks.2.1
    exact ⟨hlat', by linarith [hinside.1], by linarith [hinside.2]⟩

/-- A pole that is not the nearest point of the box is beyond one of its sides. -/
theorem beside_of_closest (hnear : closest gt col row width height ≠ (0, 0)) :
    Beside (offsets 1 proj.north (0, 0) (boxGrid gt col row width height) 0 0 1 1) := by
  refine beside_of_sides (S := {p | p ∈ CrsTransformer.corners (boxGrid gt col row width height)
    0 0 1 1}) (one_mul 1) proj.north_mul_self ?_
  by_contra hnone
  push Not at hnone
  rcases hnone with ⟨⟨p₁, hp₁, h₁⟩, ⟨p₂, hp₂, h₂⟩, ⟨p₃, hp₃, h₃⟩, ⟨p₄, hp₄, h₄⟩⟩
  have hcorner := @pixelPoint_mem_box gt col row width height 0 0 ⟨le_rfl, zero_le_one⟩
    ⟨le_rfl, zero_le_one⟩
  have hwide := hcorner.1.1.trans hcorner.1.2
  have hhigh := hcorner.2.1.trans hcorner.2.2
  have hends : ∀ p ∈ CrsTransformer.corners (boxGrid gt col row width height) 0 0 1 1,
      (gt.minX col row width height ≤ p.1 ∧ p.1 ≤ gt.maxX col row width height) ∧
        gt.minY col row width height ≤ p.2 ∧ p.2 ≤ gt.maxY col row width height := by
    intro p hp
    simp only [CrsTransformer.corners, GeoTransform.pixelToCoord, boxGrid, List.mem_cons,
      List.not_mem_nil, or_false] at hp
    rcases hp with rfl | rfl | rfl | rfl
    · simp [hwide, hhigh]
    · simp [hwide, hhigh]
    · simp [hwide, hhigh]
    · simp [hwide, hhigh]
  refine hnear (Prod.ext ?_ ?_)
  · show max _ (min 0 _) = (0 : ℝ)
    rw [min_eq_left (h₂.trans (hends p₂ hp₂).1.2), max_eq_right ((hends p₁ hp₁).1.1.trans h₁)]
  · show max _ (min 0 _) = (0 : ℝ)
    rw [min_eq_left (h₄.trans (hends p₄ hp₄).2.2), max_eq_right ((hends p₃ hp₃).2.1.trans h₃)]

/-- The bounds have the images of all probes. -/
def Probed (point : ℝ → ℝ → Option (ℝ × ℝ)) (gt : GeoTransform ℝ) (col row width height : ℝ)
    (b : Bounds ℝ) : Prop :=
  ∀ c ∈ polarProbes gt col row width height, ∃ r, point c.1 c.2 = some r ∧ b.Has r

section Probed

variable {b : Bounds ℝ} {s t : ℝ} {q : ℝ × ℝ}

theorem probed_lat (hinv : proj.InvertedBy point) (hb : Probed point gt col row width height b)
    (hs : 0 ≤ s ∧ s ≤ 1) (ht : 0 ≤ t ∧ t ≤ 1)
    (himage : point (pixelPoint gt col row width height s t).1
      (pixelPoint gt col row width height s t).2 = some q) :
    b.minLat ≤ q.2 ∧ q.2 ≤ b.maxLat := by
  have hbox := @pixelPoint_mem_box gt col row width height s t hs ht
  rcases @exists_boxPoint gt col row width height s t hs ht with ⟨x, y, hx, hy, hxy⟩
  rw [(hinv _ _ himage).1]
  set p := pixelPoint gt col row width height s t
  have hnear : distSq (0, 0) (closest gt col row width height) ≤ distSq (0, 0) p := by
    simp only [distSq, sub_zero, closest]
    exact add_le_add (clamp_sq_le hbox.1.1 hbox.1.2) (clamp_sq_le hbox.2.1 hbox.2.2)
  rcases @exists_corner_farther (boxGrid gt col row width height) 0 0 1 1 (0, 0) x y hx hy with
    ⟨far, hfar, hfar_le⟩
  rw [← hxy] at hfar_le
  have hclosest : closest gt col row width height ∈ polarProbes gt col row width height := by
    simp [polarProbes]
  rcases hb _ hclosest with ⟨rn, hrn, ⟨hn, -⟩⟩
  rcases hb _ (boxCorners_mem hfar) with ⟨rf, hrf, ⟨hf, -⟩⟩
  rw [(hinv _ _ hrn).1] at hn
  rw [(hinv _ _ hrf).1] at hf
  have hd := distSq_nonneg (0, 0) p
  have hdn := distSq_nonneg (0, 0) (closest gt col row width height)
  have hdf := distSq_nonneg (0, 0) far
  rcases proj.lat_mono with hmono | hmono
  · exact ⟨hn.1.trans (hmono hdn hd hnear), (hmono hd hdf hfar_le).trans hf.2⟩
  · exact ⟨hf.1.trans (hmono hd hdf hfar_le), (hmono hdn hd hnear).trans hn.2⟩

theorem probed_lon (hinv : proj.InvertedBy point) (hb : Probed point gt col row width height b)
    (hclosest : closest gt col row width height ≠ (0, 0)) (hspan : b.maxLon - b.minLon < 180)
    (hs : 0 ≤ s ∧ s ≤ 1) (ht : 0 ≤ t ∧ t ≤ 1)
    (himage : point (pixelPoint gt col row width height s t).1
      (pixelPoint gt col row width height s t).2 = some q) :
    b.minLon ≤ wrapLon q.1 ∧ wrapLon q.1 ≤ b.maxLon := by
  rcases @exists_boxPoint gt col row width height s t hs ht with ⟨x, y, hx, hy, hxy⟩
  have hq := (hinv _ _ himage).2
  set p := pixelPoint gt col row width height s t
  have hbeside := @beside_of_closest gt col row width height proj hclosest
  have hhull := @offset_mem_hull (boxGrid gt col row width height) 0 0 1 1 (0, 0) 1 proj.north
    x y hx hy
  rw [← hxy] at hhull
  have hne : ∀ c, offset 1 proj.north (0, 0) c ∈ convexHull ℝ
      (offsets 1 proj.north (0, 0) (boxGrid gt col row width height) 0 0 1 1) → c ≠ (0, 0) := by
    intro c hc h0
    refine hbeside.ne_zero hc ?_
    rw [h0, offset_apex]
  rcases hbeside.exists_between hhull with
    ⟨w₁, ⟨c₁, hc₁, rfl⟩, w₂, ⟨c₂, hc₂, rfl⟩, a₁, a, a₂, ⟨hle₁, hle₂, hnarrow⟩, ha₁, ha, ha₂⟩
  rcases hb _ (boxCorners_mem hc₁) with ⟨r₁, hr₁, -, hr₁b⟩
  rcases hb _ (boxCorners_mem hc₂) with ⟨r₂, hr₂, -, hr₂b⟩
  have hlon₁ := (hinv _ _ hr₁).2 (hne c₁ (subset_convexHull ℝ _ ⟨c₁, hc₁, rfl⟩))
  have hlon₂ := (hinv _ _ hr₂).2 (hne c₂ (subset_convexHull ℝ _ ⟨c₂, hc₂, rfl⟩))
  have hlon := hq (hne p hhull)
  rw [PolarStereographic.lon, ← wrapLon_of_angle ha₁] at hlon₁
  rw [PolarStereographic.lon, ← wrapLon_of_angle ha₂] at hlon₂
  rw [PolarStereographic.lon, ← wrapLon_of_angle ha] at hlon
  have hdeg : 0 < 180 / Real.pi := div_pos (by norm_num) Real.pi_pos
  have hturn : (a₂ - a₁) * (180 / Real.pi) < 180 := by
    have hlt := mul_lt_mul_of_pos_right hnarrow hdeg
    rwa [mul_div_cancel₀ _ Real.pi_ne_zero] at hlt
  have h₁ := mul_le_mul_of_nonneg_right hle₁ hdeg.le
  have h₂ := mul_le_mul_of_nonneg_right hle₂ hdeg.le
  have hbetween := @wrapLon_between (proj.lon0 + a * (180 / Real.pi))
    (proj.lon0 + a₁ * (180 / Real.pi)) (proj.lon0 + a₂ * (180 / Real.pi))
    (by linarith) (by linarith) (by linarith) (by
      rw [← hlon₁, ← hlon₂]
      linarith [hr₁b.2, hr₂b.1])
  rw [← hlon, ← hlon₁, ← hlon₂] at hbetween
  exact ⟨hr₁b.1.trans hbetween.1, hbetween.2.trans hr₂b.2⟩

theorem polarRectBounds_has (hinv : proj.InvertedBy point) (hs : 0 ≤ s ∧ s ≤ 1)
    (ht : 0 ≤ t ∧ t ≤ 1)
    (himage : point (pixelPoint gt col row width height s t).1
      (pixelPoint gt col row width height s t).2 = some q) :
    (polarRectBounds point gt col row width height).Has q := by
  have hrange := proj.lat_mem _ (distSq_nonneg (0, 0) (pixelPoint gt col row width height s t))
  rw [← (hinv _ _ himage).1] at hrange
  unfold polarRectBounds
  split
  next q₀ qs hprobes =>
    have hb : Probed point gt col row width height (qs.foldl Bounds.grow (Bounds.at q₀)) := by
      intro c hc
      rcases Loops.exists_of_mapM_some hprobes hc with ⟨r, hr, hcr⟩
      refine ⟨r, hcr, ?_⟩
      rcases List.mem_cons.mp hr with rfl | hr
      · exact Bounds.Has.foldl (f := id) qs Bounds.has_at
      · exact Bounds.has_foldl (f := id) hr
    exact slackened_has (probed_lat hinv hb hs ht himage) hrange fun hclosest hspan =>
      probed_lon hinv hb hclosest hspan hs ht himage
  next => exact Bounds.Full.has ⟨le_rfl, le_rfl⟩ hrange

end Probed

end Polar

/-! ## Every rectangle -/

section Sound

open AlbersConicFast

/-- The bounds of a rectangle, for every cone that the constructor builds and for the polar
projections. A corner of an Albers rectangle is at 180 degrees only where all longitudes are
taken anyway. -/
theorem radial_bounds_sound (gt : GeoTransform ℝ) :
    (∀ lat1Deg lat2Deg lat0Deg lon0Deg x0 y0 : ℝ,
      (withOffsets polarFunctions lat1Deg lat2Deg lat0Deg lon0Deg x0 y0).n ≠ 0 →
      (withOffsets polarFunctions lat1Deg lat2Deg lat0Deg lon0Deg x0 y0).Regular) ∧
    (∀ albers : AlbersConicFast ℝ, albers.Regular →
      (∀ chunk : RasterChunk,
        LongEdges gt chunk.colOffset chunk.rowOffset chunk.width chunk.height →
        ∀ s t, 0 ≤ s ∧ s ≤ 1 → 0 ≤ t ∧ t ≤ 1 →
          ((albers.lonLat polarFunctions (pixelPoint gt chunk.colOffset chunk.rowOffset chunk.width
            chunk.height s t)).2 : WithTop ℝ) ≤
              albers.evictionNorthBound polarFunctions chunk gt) ∧
      ∀ col row width height, LongEdges gt col row width height →
        albers.SeamSafe gt col row width height →
        ∀ s t, 0 ≤ s ∧ s ≤ 1 → 0 ≤ t ∧ t ≤ 1 →
          ((albers.transformer polarFunctions).transformRectBounds gt col row width height).Has
            (albers.lonLat polarFunctions (pixelPoint gt col row width height s t))) ∧
    ∀ (proj : PolarStereographic) (point : ℝ → ℝ → Option (ℝ × ℝ)), proj.InvertedBy point →
      ∀ (col row width height s t : ℝ) (q : ℝ × ℝ),
        0 ≤ s ∧ s ≤ 1 → 0 ≤ t ∧ t ≤ 1 →
        point (pixelPoint gt col row width height s t).1
          (pixelPoint gt col row width height s t).2 = some q →
        (polarRectBounds point gt col row width height).Has q := by
  refine ⟨?_, ?_, ?_⟩
  · intro lat1Deg lat2Deg lat0Deg lon0Deg x0 y0 hn
    exact regular_withOffsets hn
  · intro albers halbers
    refine ⟨?_, ?_⟩
    · intro chunk hlong s t hs ht
      exact le_evictionNorthBound halbers hlong hs ht
    · intro col row width height hlong hsafe s t hs ht
      exact rectBounds_lon halbers hlong hsafe hs ht
  · intro proj point hinv col row width height s t q hs ht himage
    exact polarRectBounds_has hinv hs ht himage

end Sound

/-! ## A corner at 180 degrees -/

section Seam

open AlbersConicFast

/-- A cone with `n = 9 / 10` on the meridian of 20 degrees west. Its cut is at 180 degrees on one
side. -/
noncomputable def seamCone : AlbersConicFast ℝ :=
  withOffsets polarFunctions (Real.arcsin (9 / 10) * (180 / Real.pi))
    (Real.arcsin (9 / 10) * (180 / Real.pi)) 0 (-20) 0 0

theorem seamCone_n : seamCone.n = 9 / 10 := by
  have hangle : Real.arcsin (9 / 10) * (180 / Real.pi) * (Real.pi / 180) = Real.arcsin (9 / 10) := by
    have := Real.pi_ne_zero
    field_simp
  rw [seamCone, withOffsets_n, sub_self, abs_zero, if_pos (by norm_num), hangle]
  exact Real.sin_arcsin (by norm_num) (by norm_num)

theorem seamCone_lonLat {p : ℝ × ℝ} :
    (seamCone.lonLat polarFunctions p).1 =
      -20 + Complex.arg ⟨-(p.2 - seamCone.rho0), p.1⟩ * (200 / Real.pi) := by
  have hside : seamCone.side = 1 := by
    rw [side, seamCone_n]
    exact if_pos (by norm_num)
  have hapex : seamCone.apex = (0, seamCone.rho0) := Prod.ext rfl (zero_add _)
  have horigin : seamCone.lonOriginRad = -20 * (Real.pi / 180) := rfl
  rw [lonLat_fst, hside, hapex, horigin, seamCone_n]
  show (-20 * (Real.pi / 180) + Complex.arg (offset 1 (-1) (0, seamCone.rho0) p) *
    (1 / (9 / 10))) * (180 / Real.pi) = _
  have hoffset : offset 1 (-1) (0, seamCone.rho0) p = ⟨-(p.2 - seamCone.rho0), p.1⟩ := by
    simp [offset]
  have := Real.pi_ne_zero
  rw [hoffset]
  field_simp
  ring

/-- Behind the apex, with one edge on the cut. -/
noncomputable def cutGrid : GeoTransform ℝ := ⟨-2, 2, 0, seamCone.rho0 + 2, 0, -1⟩

/-- Not more than 135 degrees to the west. -/
theorem arg_west {z : ℂ} (hre : z.re < 0) (him : z.im < 0) (h : z.im ≤ z.re) :
    -(3 * Real.pi / 4) ≤ Complex.arg z ∧ Complex.arg z < -(Real.pi / 2) := by
  have hlow := Complex.neg_pi_lt_arg z
  have hhigh := arg_lt_of_left hre him
  refine ⟨?_, hhigh⟩
  by_contra hlt
  push Not at hlt
  have hside := side_eq z (-(3 * Real.pi / 4))
  have hangle : 3 * Real.pi / 4 = Real.pi - Real.pi / 4 := by ring
  have hneg : Real.sin (Complex.arg z - -(3 * Real.pi / 4)) < 0 :=
    Real.sin_neg_of_neg_of_neg_pi_lt (by linarith) (by linarith [Real.pi_pos])
  have hz : z ≠ 0 := (inSector_down him).1
  have hprod := mul_neg_of_pos_of_neg (norm_pos_iff.mpr hz) hneg
  rw [← hside, Real.sin_neg, Real.cos_neg, hangle, Real.sin_pi_sub, Real.cos_pi_sub,
    Real.sin_pi_div_four, Real.cos_pi_div_four, neg_neg] at hprod
  have hroot : 0 < Real.sqrt 2 / 2 := by positivity
  have hnonneg := mul_nonneg hroot.le (sub_nonneg.mpr h)
  linarith

/-- A point that is more than 150 degrees to the west. -/
theorem arg_far_west : Complex.arg ⟨-2, -1⟩ < -(5 * Real.pi / 6) := by
  by_contra hle
  push Not at hle
  have hhigh := @arg_lt_of_left ⟨-2, -1⟩ (by norm_num) (by norm_num)
  have hside := side_eq ⟨-2, -1⟩ (-(5 * Real.pi / 6))
  have hangle : 5 * Real.pi / 6 = Real.pi - Real.pi / 6 := by ring
  have hpos : 0 ≤ Real.sin (Complex.arg ⟨-2, -1⟩ - -(5 * Real.pi / 6)) :=
    Real.sin_nonneg_of_nonneg_of_le_pi (by linarith) (by linarith [Real.pi_pos])
  have hprod := mul_nonneg (norm_nonneg (⟨-2, -1⟩ : ℂ)) hpos
  rw [← hside, Real.sin_neg, Real.cos_neg, hangle, Real.sin_pi_sub, Real.cos_pi_sub,
    Real.sin_pi_div_six, Real.cos_pi_div_six] at hprod
  have hroot : Real.sqrt 3 < 2 := (Real.sqrt_lt' two_pos).mpr (by norm_num)
  simp only at hprod
  linarith

theorem seamCone_cut {y : ℝ} (hy : seamCone.rho0 < y) :
    (seamCone.lonLat polarFunctions (0, y)).1 = 180 := by
  have harg : Complex.arg ⟨-(y - seamCone.rho0), 0⟩ = Real.pi :=
    Complex.arg_ofReal_of_neg (by linarith : -(y - seamCone.rho0) < 0)
  have := Real.pi_ne_zero
  rw [seamCone_lonLat, harg]
  field_simp
  norm_num

/-- The other corners are west of the meridian, in the western half of the globe. -/
theorem seamCone_west {y : ℝ} (h₁ : seamCone.rho0 < y) (h₂ : y ≤ seamCone.rho0 + 2) :
    -180 ≤ (seamCone.lonLat polarFunctions (-2, y)).1 ∧
      (seamCone.lonLat polarFunctions (-2, y)).1 < 0 := by
  have harg := @arg_west ⟨-(y - seamCone.rho0), -2⟩ (by simpa using h₁) (by norm_num)
    (by simp only; linarith)
  have hdeg : 0 < 200 / Real.pi := div_pos (by norm_num) Real.pi_pos
  have hlow := mul_le_mul_of_nonneg_right harg.1 hdeg.le
  have hhigh := mul_lt_mul_of_pos_right harg.2 hdeg
  have hpi := Real.pi_ne_zero
  have hlow' : -(3 * Real.pi / 4) * (200 / Real.pi) = -150 := by
    field_simp
    norm_num
  have hhigh' : -(Real.pi / 2) * (200 / Real.pi) = -100 := by
    field_simp
    norm_num
  rw [hlow'] at hlow
  rw [hhigh'] at hhigh
  rw [seamCone_lonLat]
  refine ⟨?_, ?_⟩
  · linarith
  · linarith

theorem cutGrid_corners : CrsTransformer.corners cutGrid 0 0 1 1 =
    [(-2, seamCone.rho0 + 2), (0, seamCone.rho0 + 2), (0, seamCone.rho0 + 1),
      (-2, seamCone.rho0 + 1)] := by
  have hone : seamCone.rho0 + 2 + -1 = seamCone.rho0 + 1 := by ring
  simp [CrsTransformer.corners, GeoTransform.pixelToCoord, cutGrid, hone]

theorem cutGrid_edges : cutGrid.edges 0 0 1 1 =
    [((-2, seamCone.rho0 + 2), (0, seamCone.rho0 + 2)),
      ((0, seamCone.rho0 + 2), (0, seamCone.rho0 + 1)),
      ((0, seamCone.rho0 + 1), (-2, seamCone.rho0 + 1)),
      ((-2, seamCone.rho0 + 1), (-2, seamCone.rho0 + 2))] := by
  have hone : seamCone.rho0 + 2 + -1 = seamCone.rho0 + 1 := by ring
  simp [GeoTransform.edges, GeoTransform.pixelToCoord, cutGrid, hone]

theorem cutGrid_longEdges : LongEdges cutGrid 0 0 1 1 := by
  intro e he
  rw [cutGrid_edges] at he
  simp only [List.mem_cons, List.not_mem_nil, or_false] at he
  rcases he with rfl | rfl | rfl | rfl
  · norm_num [edgeCutOff]
  · norm_num [edgeCutOff]
  · norm_num [edgeCutOff]
  · norm_num [edgeCutOff]

/-- No foot is inside an edge. -/
theorem cutGrid_feet : feet seamCone.apex cutGrid 0 0 1 1 = [] := by
  have hapex : seamCone.apex = (0, seamCone.rho0) := Prod.ext rfl (zero_add _)
  rw [feet, cutGrid_edges, hapex, List.filterMap_eq_nil_iff]
  intro e he
  simp only [List.mem_cons, List.not_mem_nil, or_false] at he
  rcases he with rfl | rfl | rfl | rfl
  · norm_num [foot]
  · norm_num [foot]
  · norm_num [foot]
  · norm_num [foot]

/-- In front of the apex. -/
noncomputable def frontGrid : GeoTransform ℝ := ⟨0, 1, 0, seamCone.rho0 - 1, 0, -1⟩

theorem frontGrid_longEdges : LongEdges frontGrid 0 0 1 1 := by
  intro e he
  simp only [GeoTransform.edges, GeoTransform.pixelToCoord, frontGrid, List.mem_cons,
    List.not_mem_nil, or_false] at he
  rcases he with rfl | rfl | rfl | rfl
  · norm_num [edgeCutOff]
  · norm_num [edgeCutOff]
  · norm_num [edgeCutOff]
  · norm_num [edgeCutOff]

theorem frontGrid_offSeam : seamCone.OffSeam frontGrid 0 0 1 1 := by
  intro p hp
  have hfront : p.2 < seamCone.rho0 := by
    simp only [CrsTransformer.corners, GeoTransform.pixelToCoord, frontGrid, List.mem_cons,
      List.not_mem_nil, or_false] at hp
    rcases hp with rfl | rfl | rfl | rfl
    · simp only
      linarith
    · simp only
      linarith
    · simp only
      linarith
    · simp only
      linarith
  have harg := (@inSector_right ⟨-(p.2 - seamCone.rho0), p.1⟩ (by simpa using hfront)).2.2
  have hdeg : 0 < 200 / Real.pi := div_pos (by norm_num) Real.pi_pos
  have hlt := mul_lt_mul_of_pos_right harg hdeg
  have hhalf : (-(Real.pi / 2) + Real.pi) * (200 / Real.pi) = 100 := by
    have := Real.pi_ne_zero
    field_simp
    norm_num
  rw [hhalf] at hlt
  rw [seamCone_lonLat]
  exact (by linarith : -20 + Complex.arg ⟨-(p.2 - seamCone.rho0), p.1⟩ * (200 / Real.pi) < 180).ne

/-- The north pole on a plane, with a latitude that falls with the distance. -/
noncomputable def northPole : PolarStereographic where
  north := -1
  north_mul_self := by norm_num
  lon0 := 0
  lat r := 90 / (1 + r)
  lat_mono := Or.inr fun r hr r' _ hle => by
    have hr' : (0 : ℝ) ≤ r := hr
    exact div_le_div_of_nonneg_left (by norm_num) (by linarith) (by linarith)
  lat_mem r hr := by
    refine ⟨le_trans (by norm_num) (div_nonneg (by norm_num) (by linarith)), ?_⟩
    exact div_le_self (by norm_num) (by linarith)

noncomputable def northPoint (x y : ℝ) : Option (ℝ × ℝ) :=
  some (northPole.lon (x, y), northPole.lat (distSq (0, 0) (x, y)))

theorem northPole_invertedBy : northPole.InvertedBy northPoint := by
  intro p q h
  cases h
  exact ⟨rfl, fun _ => rfl⟩

theorem seamCone_n_ne : seamCone.n ≠ 0 := by
  rw [seamCone_n]
  norm_num

theorem radial_bounds_sound_front :
    ((seamCone.lonLat polarFunctions (pixelPoint frontGrid (0 : ℕ) (0 : ℕ) (1 : ℕ) (1 : ℕ) 0 0)).2 :
        WithTop ℝ) ≤ seamCone.evictionNorthBound polarFunctions ⟨0, 0, 1, 1⟩ frontGrid ∧
      ((seamCone.transformer polarFunctions).transformRectBounds frontGrid 0 0 1 1).Has
        (seamCone.lonLat polarFunctions (pixelPoint frontGrid 0 0 1 1 0 0)) ∧
      (polarRectBounds northPoint frontGrid 0 0 1 1).Has
        (northPole.lon (pixelPoint frontGrid 0 0 1 1 0 0),
          northPole.lat (distSq (0, 0) (pixelPoint frontGrid 0 0 1 1 0 0))) := by
  have hregular : seamCone.Regular := (radial_bounds_sound frontGrid).1 _ _ _ _ _ _ seamCone_n_ne
  have halbers := (radial_bounds_sound frontGrid).2.1 seamCone hregular
  have hzero : (0 : ℝ) ≤ 0 ∧ (0 : ℝ) ≤ 1 := ⟨le_rfl, zero_le_one⟩
  refine ⟨halbers.1 ⟨0, 0, 1, 1⟩ ?_ 0 0 hzero hzero,
    halbers.2 0 0 1 1 frontGrid_longEdges (Or.inl frontGrid_offSeam) 0 0 hzero hzero,
    (radial_bounds_sound frontGrid).2.2 northPole northPoint northPole_invertedBy 0 0 1 1 0 0 _ hzero
      hzero rfl⟩
  simp only [Nat.cast_zero, Nat.cast_one]
  exact frontGrid_longEdges

theorem cutGrid_boxHas : cutGrid.boxHas 0 0 1 1 seamCone.apex = false := by
  refine decide_eq_false fun hin => ?_
  have hmem : cutGrid.minY 0 0 1 1 ∈ (CrsTransformer.corners cutGrid 0 0 1 1).map Prod.snd :=
    List.min_mem _
  have hapex : seamCone.apex.2 = seamCone.rho0 := zero_add _
  have hle := hin.2.2.1
  rw [hapex] at hle
  rw [cutGrid_corners] at hmem
  simp only [List.map_cons, List.map_nil, List.mem_cons, List.not_mem_nil, or_false] at hmem
  rcases hmem with h | h | h | h
  · linarith
  · linarith
  · linarith
  · linarith

/-- Every corner wraps to the western half. -/
theorem cutGrid_corner {p : ℝ × ℝ} (hp : p ∈ CrsTransformer.corners cutGrid 0 0 1 1) :
    (-180 ≤ (seamCone.lonLat polarFunctions p).1 ∧ (seamCone.lonLat polarFunctions p).1 ≤ 180) ∧
      wrapLon (seamCone.lonLat polarFunctions p).1 < 0 := by
  have hcut : ∀ y, seamCone.rho0 < y →
      (-180 ≤ (seamCone.lonLat polarFunctions (0, y)).1 ∧
        (seamCone.lonLat polarFunctions (0, y)).1 ≤ 180) ∧
        wrapLon (seamCone.lonLat polarFunctions (0, y)).1 < 0 := by
    intro y hy
    rw [seamCone_cut hy, wrapLon_seam]
    norm_num
  have hwest : ∀ y, seamCone.rho0 < y → y ≤ seamCone.rho0 + 2 →
      (-180 ≤ (seamCone.lonLat polarFunctions (-2, y)).1 ∧
        (seamCone.lonLat polarFunctions (-2, y)).1 ≤ 180) ∧
        wrapLon (seamCone.lonLat polarFunctions (-2, y)).1 < 0 := by
    intro y h₁ h₂
    have h := seamCone_west h₁ h₂
    rw [wrapLon_of_mem h.1 (by linarith)]
    exact ⟨⟨h.1, by linarith⟩, h.2⟩
  rw [cutGrid_corners] at hp
  simp only [List.mem_cons, List.not_mem_nil, or_false] at hp
  rcases hp with rfl | rfl | rfl | rfl
  · exact hwest _ (by linarith) le_rfl
  · exact hcut _ (by linarith)
  · exact hcut _ (by linarith)
  · exact hwest _ (by linarith) (by linarith)

/-- So all bounds are in the western half. -/
theorem cutGrid_maxLon : (seamCone.rectBounds polarFunctions cutGrid 0 0 1 1).maxLon < 0 := by
  have hpoints : ∀ p ∈ CrsTransformer.corners cutGrid 0 0 1 1,
      wrapLon (seamCone.lonLat polarFunctions p).1 < 0 := fun p hp => (cutGrid_corner hp).2
  have hmax := cornerBounds_maxLon_lt hpoints
  have hmin := @le_cornerBounds_minLon seamCone cutGrid 0 0 1 1
  have hleave : seamCone.cornersLeave polarFunctions cutGrid 0 0 1 1 = false := by
    refine List.any_eq_false.mpr fun p hp => ?_
    rw [decide_eq_true_iff, not_or, not_lt, not_lt]
    exact (cutGrid_corner hp).1
  rw [rectBounds_of_checks cutGrid_boxHas hleave cutGrid_feet (by linarith)]
  exact hmax

/-- A rectangle with a corner at 180 degrees and a point that is not in its bounds. -/
theorem albers_bounds_lose_east :
    ¬ ∀ lat1Deg lat2Deg lat0Deg lon0Deg x0 y0 : ℝ,
      (withOffsets polarFunctions lat1Deg lat2Deg lat0Deg lon0Deg x0 y0).n ≠ 0 →
      ∀ (gt : GeoTransform ℝ) (col row width height : ℝ), LongEdges gt col row width height →
      ∀ s t, 0 ≤ s ∧ s ≤ 1 → 0 ≤ t ∧ t ≤ 1 →
        (((withOffsets polarFunctions lat1Deg lat2Deg lat0Deg lon0Deg x0 y0).transformer
          polarFunctions).transformRectBounds gt col row width height).Has
            ((withOffsets polarFunctions lat1Deg lat2Deg lat0Deg lon0Deg x0 y0).lonLat
              polarFunctions (pixelPoint gt col row width height s t)) := by
  intro hclaim
  have hhas := (hclaim _ _ _ _ _ _ seamCone_n_ne cutGrid 0 0 1 1 cutGrid_longEdges (1 / 2) 0
    ⟨by norm_num, by norm_num⟩ ⟨le_rfl, zero_le_one⟩).2.2
  have hpoint : pixelPoint cutGrid 0 0 1 1 (1 / 2) 0 = (-1, seamCone.rho0 + 2) := by
    norm_num [pixelPoint, GeoTransform.pixelToCoord, cutGrid]
  have harg : (⟨-(seamCone.rho0 + 2 - seamCone.rho0), -1⟩ : ℂ) = ⟨-2, -1⟩ := by
    rw [add_sub_cancel_left]
  have hlon : (seamCone.lonLat polarFunctions (-1, seamCone.rho0 + 2)).1 =
      -20 + Complex.arg ⟨-2, -1⟩ * (200 / Real.pi) := by rw [seamCone_lonLat, harg]
  have hdeg : 0 < 200 / Real.pi := div_pos (by norm_num) Real.pi_pos
  have hlow := mul_lt_mul_of_pos_right (Complex.neg_pi_lt_arg ⟨-2, -1⟩) hdeg
  have hhigh := mul_lt_mul_of_pos_right arg_far_west hdeg
  have hpi := Real.pi_ne_zero
  have hlow' : -Real.pi * (200 / Real.pi) = -200 := by field_simp
  have hhigh' : -(5 * Real.pi / 6) * (200 / Real.pi) = -500 / 3 := by
    field_simp
    norm_num
  rw [hlow'] at hlow
  rw [hhigh'] at hhigh
  have hturn := wrapLon_add_turns (-20 + Complex.arg ⟨-2, -1⟩ * (200 / Real.pi)) 1
  rw [Int.cast_one, wrapLon_of_mem (by linarith) (by linarith)] at hturn
  have hle : wrapLon (seamCone.lonLat polarFunctions (-1, seamCone.rho0 + 2)).1 ≤
      (seamCone.rectBounds polarFunctions cutGrid 0 0 1 1).maxLon := hpoint ▸ hhas
  rw [hlon, ← hturn] at hle
  linarith [cutGrid_maxLon]

end Seam

end RasterH3.Raster
