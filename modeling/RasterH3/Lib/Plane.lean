import RasterH3.Lib.Numerals
import Mathlib

/-!
# Distance and angle over a parallelogram

The origin is outside of a convex set. If the corners of the set are in a sector of less
than half a turn then so is every point, and its angle is between those of two corners: at
the angle of a point the plane is cut in halves, and the point is on the line. For the
distance the farthest point of a parallelogram is a corner, and the nearest one is on an
edge: on the way to the origin one leaves the parallelogram through an edge. On the edge it
is the foot of the perpendicular, or an end.
-/

namespace Plane

open Complex Real

/-! ## Angles -/

section Angles

variable {S : Set ℂ} {z : ℂ}

/-- The angle is in the open half turn from `β` on. -/
def InSector (β : ℝ) (z : ℂ) : Prop := z ≠ 0 ∧ β < arg z ∧ arg z < β + π

theorem isLinearMap_combination (a b : ℝ) : IsLinearMap ℝ fun w : ℂ => a * w.re + b * w.im where
  map_add v w := by
    rw [Complex.add_re, Complex.add_im]
    ring
  map_smul r w := by
    rw [Complex.real_smul, Complex.re_ofReal_mul, Complex.im_ofReal_mul, smul_eq_mul]
    ring

theorem combination_pos (hz : z ∈ convexHull ℝ S) {a b : ℝ}
    (h : ∀ w ∈ S, 0 < a * w.re + b * w.im) : 0 < a * z.re + b * z.im :=
  convexHull_min h (convex_halfSpace_gt (isLinearMap_combination a b) 0) hz

theorem combination_nonneg (hz : z ∈ convexHull ℝ S) {a b : ℝ}
    (h : ∀ w ∈ S, 0 ≤ a * w.re + b * w.im) : 0 ≤ a * z.re + b * z.im :=
  convexHull_min h (convex_halfSpace_ge (isLinearMap_combination a b) 0) hz

/-- The distance from the line at the angle `α`. -/
theorem side_eq (w : ℂ) (α : ℝ) :
    -Real.sin α * w.re + Real.cos α * w.im = ‖w‖ * Real.sin (arg w - α) := by
  rw [Real.sin_sub, mul_sub]
  have hre := Complex.norm_mul_cos_arg w
  have him := Complex.norm_mul_sin_arg w
  calc
    -Real.sin α * w.re + Real.cos α * w.im =
        -Real.sin α * (‖w‖ * Real.cos (arg w)) + Real.cos α * (‖w‖ * Real.sin (arg w)) := by
      rw [hre, him]
    _ = _ := by ring

theorem exists_arg_le (hz : z ∈ convexHull ℝ S) {β : ℝ} (hS : ∀ w ∈ S, InSector β w)
    (hβ : InSector β z) : ∃ w ∈ S, arg w ≤ arg z := by
  by_contra hnone
  push Not at hnone
  have hpos := combination_pos hz (a := -Real.sin (arg z)) (b := Real.cos (arg z)) fun w hw => by
    rw [side_eq]
    refine mul_pos (norm_pos_iff.mpr (hS w hw).1) (Real.sin_pos_of_pos_of_lt_pi ?_ ?_)
    · linarith [hnone w hw]
    · linarith [(hS w hw).2.2, hβ.2.1]
  rw [side_eq, sub_self, Real.sin_zero, mul_zero] at hpos
  exact hpos.false

theorem exists_le_arg (hz : z ∈ convexHull ℝ S) {β : ℝ} (hS : ∀ w ∈ S, InSector β w)
    (hβ : InSector β z) : ∃ w ∈ S, arg z ≤ arg w := by
  by_contra hnone
  push Not at hnone
  have hpos := combination_pos hz (a := Real.sin (arg z)) (b := -Real.cos (arg z)) fun w hw => by
    have hside := side_eq w (arg z)
    have hneg : Real.sin (arg w - arg z) < 0 := Real.sin_neg_of_neg_of_neg_pi_lt
      (by linarith [hnone w hw]) (by linarith [(hS w hw).2.1, hβ.2.2])
    have hlt := mul_neg_of_pos_of_neg (norm_pos_iff.mpr (hS w hw).1) hneg
    linarith
  have hside := side_eq z (arg z)
  rw [sub_self, Real.sin_zero, mul_zero] at hside
  linarith

theorem inSector_right (h : 0 < z.re) : InSector (-(π / 2)) z := by
  have harg := abs_lt.mp (Complex.abs_arg_lt_pi_div_two_iff.mpr (Or.inl h))
  refine ⟨fun h0 => ?_, harg.1, ?_⟩
  · rw [h0] at h
    exact h.false
  · linarith [harg.2]

theorem inSector_up (h : 0 < z.im) : InSector 0 z := by
  refine ⟨fun h0 => ?_, ?_, ?_⟩
  · rw [h0] at h
    exact h.false
  · refine lt_of_le_of_ne (Complex.arg_nonneg_iff.mpr h.le) fun h0 => ?_
    exact h.ne' (Complex.arg_eq_zero_iff.mp h0.symm).2
  · rw [zero_add]
    exact Complex.arg_lt_pi_iff.mpr (Or.inr h.ne')

theorem inSector_down (h : z.im < 0) : InSector (-π) z := by
  refine ⟨fun h0 => ?_, Complex.neg_pi_lt_arg z, ?_⟩
  · rw [h0] at h
    exact h.false
  · rw [neg_add_cancel]
    exact Complex.arg_neg_iff.mpr h

theorem inSector_left (hre : z.re < 0) (him : 0 ≤ z.im) : InSector (π / 2) z := by
  refine ⟨fun h0 => ?_, ?_, ?_⟩
  · rw [h0] at hre
    exact hre.false
  · by_contra hle
    rcases Complex.arg_le_pi_div_two_iff.mp (not_lt.mp hle) with h | h
    · linarith
    · linarith
  · linarith [Complex.arg_le_pi z, Real.pi_pos]

/-- A set whose box does not have the origin is beside one of the axes. -/
def Beside (S : Set ℂ) : Prop :=
  (∀ w ∈ S, 0 < w.re) ∨ (∀ w ∈ S, w.re < 0) ∨ (∀ w ∈ S, 0 < w.im) ∨ ∀ w ∈ S, w.im < 0

/-- The set lies across the cut of the angle. -/
def AcrossCut (S : Set ℂ) : Prop :=
  (∀ w ∈ S, w.re < 0) ∧ (∃ w ∈ S, w.im < 0) ∧ ∃ w ∈ S, 0 ≤ w.im

/-- The set is in a sector, and the point with it. -/
theorem Beside.sector (h : Beside S) (hz : z ∈ convexHull ℝ S) :
    AcrossCut S ∨ ∃ β, (∀ w ∈ S, InSector β w) ∧ InSector β z := by
  have hre : ∀ w : ℂ, 1 * w.re + 0 * w.im = w.re := fun w => by ring
  have hre' : ∀ w : ℂ, -1 * w.re + 0 * w.im = -w.re := fun w => by ring
  have him : ∀ w : ℂ, 0 * w.re + 1 * w.im = w.im := fun w => by ring
  have him' : ∀ w : ℂ, 0 * w.re + -1 * w.im = -w.im := fun w => by ring
  have hdown : (∀ w ∈ S, w.im < 0) → ∃ β, (∀ w ∈ S, InSector β w) ∧ InSector β z := by
    intro h
    have hpos := combination_pos hz (a := 0) (b := -1) fun w hw => by
      rw [him']
      exact neg_pos.mpr (h w hw)
    rw [him'] at hpos
    exact ⟨-π, fun w hw => inSector_down (h w hw), inSector_down (neg_pos.mp hpos)⟩
  rcases h with h | h | h | h
  · have hpos := combination_pos hz (a := 1) (b := 0) fun w hw => by
      rw [hre]
      exact h w hw
    rw [hre] at hpos
    exact Or.inr ⟨-(π / 2), fun w hw => inSector_right (h w hw), inSector_right hpos⟩
  · rcases em (∀ w ∈ S, 0 ≤ w.im) with hup | hup
    · have hpos := combination_pos hz (a := -1) (b := 0) fun w hw => by
        rw [hre']
        exact neg_pos.mpr (h w hw)
      have hnonneg := combination_nonneg hz (a := 0) (b := 1) fun w hw => by
        rw [him]
        exact hup w hw
      rw [hre'] at hpos
      rw [him] at hnonneg
      exact Or.inr ⟨π / 2, fun w hw => inSector_left (h w hw) (hup w hw),
        inSector_left (neg_pos.mp hpos) hnonneg⟩
    · rcases em (∀ w ∈ S, w.im < 0) with hlow | hlow
      · exact Or.inr (hdown hlow)
      · push Not at hup hlow
        exact Or.inl ⟨h, hup, hlow⟩
  · have hpos := combination_pos hz (a := 0) (b := 1) fun w hw => by
      rw [him]
      exact h w hw
    rw [him] at hpos
    exact Or.inr ⟨0, fun w hw => inSector_up (h w hw), inSector_up hpos⟩
  · exact Or.inr (hdown h)

theorem Beside.ne_zero (h : Beside S) (hz : z ∈ convexHull ℝ S) : z ≠ 0 := by
  rcases h.sector hz with hcut | ⟨β, -, hβ⟩
  · have hpos := combination_pos hz (a := -1) (b := 0) fun w hw => by
      linarith [hcut.1 w hw]
    intro h0
    rw [h0, Complex.zero_re, Complex.zero_im] at hpos
    linarith
  · exact hβ.1

theorem arg_lt_of_left (hre : z.re < 0) (him : z.im < 0) : arg z < -(π / 2) := by
  by_contra hle
  rcases Complex.neg_pi_div_two_le_arg_iff.mp (not_lt.mp hle) with h | h
  · linarith
  · linarith

/-- Some copies of the angles of two corners enclose one of the point's, also across the cut. -/
theorem Beside.exists_between (h : Beside S) (hz : z ∈ convexHull ℝ S) :
    ∃ w₁ ∈ S, ∃ w₂ ∈ S, ∃ a₁ a a₂ : ℝ, (a₁ ≤ a ∧ a ≤ a₂ ∧ a₂ - a₁ < π) ∧
      (a₁ : Real.Angle) = arg w₁ ∧ (a : Real.Angle) = arg z ∧ (a₂ : Real.Angle) = arg w₂ := by
  rcases h.sector hz with hcut | ⟨β, hS, hβ⟩
  · -- seen from behind, the set is to the right
    have hneg : -z ∈ convexHull ℝ (-S) := by
      rw [convexHull_neg]
      exact Set.neg_mem_neg.mpr hz
    have hright : ∀ w ∈ -S, InSector (-(π / 2)) w := fun w hw => inSector_right <| by
      have := hcut.1 (-w) hw
      rw [Complex.neg_re] at this
      linarith
    have hz_right : InSector (-(π / 2)) (-z) := by
      have hpos := combination_pos hz (a := -1) (b := 0) fun w hw => by linarith [hcut.1 w hw]
      refine inSector_right ?_
      rw [Complex.neg_re]
      linarith
    rcases exists_arg_le hneg hright hz_right with ⟨w₁, hw₁, hle₁⟩
    rcases exists_le_arg hneg hright hz_right with ⟨w₂, hw₂, hle₂⟩
    have hbehind : ∀ w : ℂ, w ≠ 0 → ((arg w + π : ℝ) : Real.Angle) = arg (-w) := fun w hw => by
      rw [Complex.arg_neg_coe_angle hw, Real.Angle.coe_add]
    refine ⟨-w₁, hw₁, -w₂, hw₂, arg w₁ + π, arg (-z) + π, arg w₂ + π, ⟨?_, ?_, ?_⟩,
      hbehind w₁ (hright w₁ hw₁).1, ?_, hbehind w₂ (hright w₂ hw₂).1⟩
    · linarith
    · linarith
    · linarith [(hright w₁ hw₁).2.1, (hright w₂ hw₂).2.2]
    · rw [hbehind _ hz_right.1, neg_neg]
  · rcases exists_arg_le hz hS hβ with ⟨w₁, hw₁, hle₁⟩
    rcases exists_le_arg hz hS hβ with ⟨w₂, hw₂, hle₂⟩
    refine ⟨w₁, hw₁, w₂, hw₂, arg w₁, arg z, arg w₂, ⟨hle₁, hle₂, ?_⟩, rfl, rfl, rfl⟩
    linarith [(hS w₁ hw₁).2.1, (hS w₂ hw₂).2.2]

end Angles

/-! ## Distances -/

section Distances

variable {E : Type*} [AddCommGroup E] [Module ℝ E]

/-- The points of a parallelogram are in the hull of its corners. -/
theorem mem_hull_corners (p u v : E) {s t : ℝ} (hs : 0 ≤ s ∧ s ≤ 1) (ht : 0 ≤ t ∧ t ≤ 1) :
    p + s • u + t • v ∈ convexHull ℝ ({p, p + u, p + u + v, p + v} : Set E) := by
  have hconvex := convex_convexHull ℝ ({p, p + u, p + u + v, p + v} : Set E)
  have hmem : ∀ q ∈ ({p, p + u, p + u + v, p + v} : Set E),
      q ∈ convexHull ℝ ({p, p + u, p + u + v, p + v} : Set E) := subset_convexHull ℝ _
  have hlow : (1 - s) • p + s • (p + u) ∈ convexHull ℝ ({p, p + u, p + u + v, p + v} : Set E) :=
    hconvex (hmem _ (by simp)) (hmem _ (by simp)) (by linarith) hs.1 (by ring)
  have hhigh : (1 - s) • (p + v) + s • (p + u + v) ∈
      convexHull ℝ ({p, p + u, p + u + v, p + v} : Set E) :=
    hconvex (hmem _ (by simp)) (hmem _ (by simp)) (by linarith) hs.1 (by ring)
  have hall := hconvex hlow hhigh (sub_nonneg.mpr ht.2) ht.1 (sub_add_cancel 1 t)
  refine Set.mem_of_eq_of_mem ?_ hall
  module

/-- On the way out of the unit square there is a point on its boundary. -/
theorem exists_boundary {s t s' t' : ℝ} (hs : 0 ≤ s ∧ s ≤ 1) (ht : 0 ≤ t ∧ t ≤ 1)
    (hout : ¬ ((0 ≤ s' ∧ s' ≤ 1) ∧ 0 ≤ t' ∧ t' ≤ 1)) :
    ∃ r, (0 ≤ r ∧ r ≤ 1) ∧ ∃ x y, x = s + r * (s' - s) ∧ y = t + r * (t' - t) ∧
      (0 ≤ x ∧ x ≤ 1) ∧ (0 ≤ y ∧ y ≤ 1) ∧ (x = 0 ∨ x = 1 ∨ y = 0 ∨ y = 1) := by
  let x : ℝ → ℝ := fun r => s + r * (s' - s)
  let y : ℝ → ℝ := fun r => t + r * (t' - t)
  let depth : ℝ → ℝ := fun r => min (min (x r) (1 - x r)) (min (y r) (1 - y r))
  have hx : Continuous x := by fun_prop
  have hy : Continuous y := by fun_prop
  have hcont : Continuous depth := by fun_prop
  have hstart : 0 ≤ depth 0 := by
    have hx0 : x 0 = s := by simp only [x, zero_mul, add_zero]
    have hy0 : y 0 = t := by simp only [y, zero_mul, add_zero]
    simp only [depth, hx0, hy0]
    exact le_min (le_min hs.1 (sub_nonneg.mpr hs.2)) (le_min ht.1 (sub_nonneg.mpr ht.2))
  have hend : depth 1 ≤ 0 := by
    have hx1 : x 1 = s' := by simp only [x, one_mul, add_sub_cancel]
    have hy1 : y 1 = t' := by simp only [y, one_mul, add_sub_cancel]
    simp only [depth, hx1, hy1]
    by_contra hpos
    rw [not_le, lt_min_iff, lt_min_iff, lt_min_iff] at hpos
    exact hout ⟨⟨hpos.1.1.le, (sub_pos.mp hpos.1.2).le⟩, hpos.2.1.le, (sub_pos.mp hpos.2.2).le⟩
  rcases intermediate_value_Icc' zero_le_one hcont.continuousOn ⟨hend, hstart⟩ with ⟨r, hr, hzero⟩
  have hle : 0 ≤ depth r := hzero.ge
  simp only [depth, le_min_iff, sub_nonneg] at hle
  refine ⟨r, hr, x r, y r, rfl, rfl, hle.1, hle.2, ?_⟩
  by_contra hinside
  push Not at hinside
  have hpos : 0 < depth r := by
    simp only [depth, lt_min_iff, sub_pos]
    exact ⟨⟨lt_of_le_of_ne hle.1.1 (Ne.symm hinside.1), lt_of_le_of_ne hle.1.2 hinside.2.1⟩,
      lt_of_le_of_ne hle.2.1 (Ne.symm hinside.2.2.1), lt_of_le_of_ne hle.2.2 hinside.2.2.2⟩
  exact hpos.ne' hzero

def distSq (p q : ℝ × ℝ) : ℝ := (q.1 - p.1) ^ 2 + (q.2 - p.2) ^ 2

theorem distSq_nonneg (p q : ℝ × ℝ) : 0 ≤ distSq p q := add_nonneg (sq_nonneg _) (sq_nonneg _)

theorem exists_multiple {u v : ℝ × ℝ} (hu : u.1 * u.1 + u.2 * u.2 ≠ 0)
    (hdet : u.1 * v.2 - u.2 * v.1 = 0) : ∃ k : ℝ, k • u = v := by
  refine ⟨(u.1 * v.1 + u.2 * v.2) / (u.1 * u.1 + u.2 * u.2), ?_⟩
  ext
  · rw [Prod.smul_fst, smul_eq_mul, div_mul_eq_mul_div, div_eq_iff hu]
    linear_combination u.2 * hdet
  · rw [Prod.smul_snd, smul_eq_mul, div_mul_eq_mul_div, div_eq_iff hu]
    linear_combination -u.1 * hdet

theorem exists_coordinates {u v : ℝ × ℝ} (hdet : u.1 * v.2 - u.2 * v.1 ≠ 0) (b : ℝ × ℝ) :
    ∃ x y : ℝ, x • u + y • v = b := by
  refine ⟨(b.1 * v.2 - b.2 * v.1) / (u.1 * v.2 - u.2 * v.1),
    (u.1 * b.2 - u.2 * b.1) / (u.1 * v.2 - u.2 * v.1), ?_⟩
  ext
  · simp only [Prod.fst_add, Prod.smul_fst, smul_eq_mul, div_mul_eq_mul_div]
    rw [← add_div, div_eq_iff hdet]
    ring
  · simp only [Prod.snd_add, Prod.smul_snd, smul_eq_mul, div_mul_eq_mul_div]
    rw [← add_div, div_eq_iff hdet]
    ring

/-- Nearest to a point that is not in a parallelogram are points of its edges. -/
theorem exists_nearer_on_edge {a p u v : ℝ × ℝ} (hu : 0 < u.1 * u.1 + u.2 * u.2)
    (hout : ∀ s t : ℝ, 0 ≤ s ∧ s ≤ 1 → 0 ≤ t ∧ t ≤ 1 → p + s • u + t • v ≠ a) {s t : ℝ}
    (hs : 0 ≤ s ∧ s ≤ 1) (ht : 0 ≤ t ∧ t ≤ 1) :
    ∃ x y : ℝ, (0 ≤ x ∧ x ≤ 1) ∧ (0 ≤ y ∧ y ≤ 1) ∧ (x = 0 ∨ x = 1 ∨ y = 0 ∨ y = 1) ∧
      distSq a (p + x • u + y • v) ≤ distSq a (p + s • u + t • v) := by
  -- from the point to one outside of the square that goes to `a`, or to the same point
  have htarget : ∃ s' t' k : ℝ, ¬ ((0 ≤ s' ∧ s' ≤ 1) ∧ 0 ≤ t' ∧ t' ≤ 1) ∧ (0 ≤ k ∧ k ≤ 1) ∧
      (p + s' • u + t' • v) - a = k • ((p + s • u + t • v) - a) := by
    by_cases hdet : u.1 * v.2 - u.2 * v.1 = 0
    · rcases exists_multiple hu.ne' hdet with ⟨k, hk⟩
      refine ⟨s + 2 * k, t - 2, 1, ?_, ⟨zero_le_one, le_rfl⟩, ?_⟩
      · intro h
        linarith [h.2.1, ht.2]
      · rw [← hk]
        module
    · rcases exists_coordinates hdet (a - p) with ⟨x, y, hxy⟩
      have hreach : p + x • u + y • v = a := by rw [add_assoc, hxy, add_sub_cancel]
      refine ⟨x, y, 0, fun h => hout x y h.1 h.2 hreach, ⟨le_rfl, zero_le_one⟩, ?_⟩
      rw [hreach, sub_self, zero_smul]
  rcases htarget with ⟨s', t', k, hsquare, hk, htarget⟩
  rcases exists_boundary hs ht hsquare with ⟨r, hr, x, y, hx, hy, hx01, hy01, hboundary⟩
  refine ⟨x, y, hx01, hy01, hboundary, ?_⟩
  have hway : (p + x • u + y • v) - a = (1 - r + r * k) • ((p + s • u + t • v) - a) := by
    calc
      (p + x • u + y • v) - a =
          (1 - r) • ((p + s • u + t • v) - a) + r • ((p + s' • u + t' • v) - a) := by
        rw [hx, hy]
        module
      _ = _ := by
        rw [htarget]
        module
  have hfactor : 0 ≤ 1 - r + r * k ∧ 1 - r + r * k ≤ 1 := by
    refine ⟨?_, ?_⟩
    · linarith [hr.2, mul_nonneg hr.1 hk.1]
    · linarith [mul_le_mul_of_nonneg_left hk.2 hr.1]
  have h₁ := congrArg Prod.fst hway
  have h₂ := congrArg Prod.snd hway
  simp only [Prod.fst_sub, Prod.smul_fst, smul_eq_mul] at h₁
  simp only [Prod.snd_sub, Prod.smul_snd, smul_eq_mul] at h₂
  have hsq : (1 - r + r * k) ^ 2 ≤ 1 := pow_le_one₀ hfactor.1 hfactor.2
  calc
    distSq a (p + x • u + y • v) = (1 - r + r * k) ^ 2 * distSq a (p + s • u + t • v) := by
      unfold distSq
      rw [h₁, h₂]
      ring
    _ ≤ 1 * distSq a (p + s • u + t • v) :=
      mul_le_mul_of_nonneg_right hsq (distSq_nonneg _ _)
    _ = _ := one_mul _

/-- The distance of a point of a line from that of the foot of the perpendicular. -/
theorem distSq_foot {a p d : ℝ × ℝ} (hd : d.1 * d.1 + d.2 * d.2 ≠ 0) {t₀ : ℝ}
    (ht₀ : t₀ = -(d.1 * (p.1 - a.1) + d.2 * (p.2 - a.2)) / (d.1 * d.1 + d.2 * d.2)) (t : ℝ) :
    distSq a (p + t • d) =
      distSq a (p + t₀ • d) + (t - t₀) ^ 2 * (d.1 * d.1 + d.2 * d.2) := by
  have hfoot : t₀ * (d.1 * d.1 + d.2 * d.2) =
      -(d.1 * (p.1 - a.1) + d.2 * (p.2 - a.2)) := by
    rw [ht₀, div_mul_cancel₀ _ hd]
  simp only [distSq, Prod.fst_add, Prod.smul_fst, smul_eq_mul, Prod.snd_add, Prod.smul_snd]
  linear_combination 2 * (t - t₀) * hfoot

end Distances

end Plane
