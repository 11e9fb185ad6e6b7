import RasterH3.Raster.Radial
import Mathlib

/-!
# The cone of an Albers projection

The bounds of an Albers rectangle are computed from radii and angles around the apex of the
cone. They are right if a turn around the apex is no less than a turn of longitude, so that
no longitude comes twice on the sheet, and if the latitude does not turn back along a radius
(`Regular`). Both are facts about the constructor, which computes the constants of the cone
from two parallels and an ellipsoid, and they are facts of analysis.

The size of the cone is `n`, a quotient of differences of two functions of the latitude
between the parallels, and `n` should be at most 1 in size. As functions of the sine of the
latitude the derivative of `m²` is that of `q` times the negative sine, and `q` grows. So `q
+ m²` and `q - m²` grow as well (`sineQ_add_monotoneOn`), and the quotient of the
differences is at most 1. One of the code's branches has parallels that coincide, and `n` is
a sine there.

The latitude is computed from `q` by a series. It adds terms to the authalic latitude that
change by less than it does, since the flattening is small: a sum of sines with small
coefficients has a slope above -1 (`series_monotone`), and the coefficients are those of
GRS80.

The elementary functions are those of the reals here, where in the model they are
parameters.
-/

namespace RasterH3.Raster

noncomputable def polarFunctions : PolarFunctions ℝ where
  pi := Real.pi
  radToDeg := 180 / Real.pi
  sin := Real.sin
  cos := Real.cos
  ln := Real.log
  sqrt := Real.sqrt
  asin := Real.arcsin
  atan2 y x := Complex.arg ⟨x, y⟩

namespace AlbersConicFast

/-- A turn around the apex is at least one of longitude, and the series for the latitude does
not turn back. -/
structure Regular (albers : AlbersConicFast ℝ) : Prop where
  n_ne : albers.n ≠ 0
  n_le : |albers.n| ≤ 1
  qp_pos : 0 < albers.qp
  phi_mono : MonotoneOn (albers.phi polarFunctions) (Set.Icc (-1) 1)

/-! ## The slope of the cone -/

section Cone

variable {e s : ℝ}

/-- `q` as a function of the sine. -/
noncomputable def sineQ (e s : ℝ) : ℝ :=
  (1 - e ^ 2) * (s / (1 - e * s * (e * s)) - 1 / (2 * e) * Real.log ((1 - e * s) / (1 + e * s)))

/-- The square of `m` as a function of the sine. -/
noncomputable def sineM (e s : ℝ) : ℝ := (1 - s ^ 2) / (1 - e ^ 2 * s ^ 2)

/-- The eccentricity of an ellipsoid. -/
def Eccentricity (e : ℝ) : Prop := 0 < e ∧ e < 1

theorem mul_mem (he : Eccentricity e) (hs : -1 ≤ s ∧ s ≤ 1) : -1 < e * s ∧ e * s < 1 := by
  have h₁ := mul_le_mul_of_nonneg_left hs.1 he.1.le
  have h₂ := mul_le_mul_of_nonneg_left hs.2 he.1.le
  refine ⟨?_, ?_⟩
  · linarith [he.2]
  · linarith [he.2]

theorem one_sub_sq_pos (he : Eccentricity e) (hs : -1 ≤ s ∧ s ≤ 1) : 0 < 1 - e ^ 2 * s ^ 2 := by
  have h := mul_mem he hs
  have hprod := mul_pos (sub_pos.mpr h.2) (by linarith : 0 < 1 + e * s)
  linarith

theorem hasDerivAt_sineQ (he : Eccentricity e) (hs : -1 ≤ s ∧ s ≤ 1) :
    HasDerivAt (sineQ e) (2 * (1 - e ^ 2) / (1 - e ^ 2 * s ^ 2) ^ 2) s := by
  have h := mul_mem he hs
  have hminus : 1 - e * s ≠ 0 := (sub_pos.mpr h.2).ne'
  have hplus : 1 + e * s ≠ 0 := by linarith
  have hprod : 1 - e * s * (e * s) ≠ 0 := by
    have := (one_sub_sq_pos he hs).ne'
    intro h0
    exact this (by linarith)
  have hes : HasDerivAt (fun s : ℝ => e * s) e s := by
    simpa using (hasDerivAt_id s).const_mul e
  have hfirst : HasDerivAt (fun s => s / (1 - e * s * (e * s)))
      ((1 * (1 - e * s * (e * s)) - s * -(e * (e * s) + e * s * e)) / (1 - e * s * (e * s)) ^ 2) s :=
    (hasDerivAt_id s).div ((hes.mul hes).const_sub 1) hprod
  have hlog : HasDerivAt (fun s => Real.log ((1 - e * s) / (1 + e * s)))
      ((-e * (1 + e * s) - (1 - e * s) * e) / (1 + e * s) ^ 2 / ((1 - e * s) / (1 + e * s))) s :=
    ((hes.const_sub 1).div (hes.const_add 1) hplus).log (div_ne_zero hminus hplus)
  have hall : HasDerivAt (sineQ e)
      ((1 - e ^ 2) * ((1 * (1 - e * s * (e * s)) - s * -(e * (e * s) + e * s * e)) /
        (1 - e * s * (e * s)) ^ 2 - 1 / (2 * e) *
          ((-e * (1 + e * s) - (1 - e * s) * e) / (1 + e * s) ^ 2 / ((1 - e * s) / (1 + e * s))))) s :=
    (hfirst.sub (hlog.const_mul (1 / (2 * e)))).const_mul (1 - e ^ 2)
  refine hall.congr_deriv ?_
  have he0 := he.1.ne'
  have hfactor : 1 - e ^ 2 * s ^ 2 = (1 - e * s) * (1 + e * s) := by ring
  have hfactor' : 1 - e * s * (e * s) = (1 - e * s) * (1 + e * s) := by ring
  rw [hfactor, hfactor']
  field_simp
  ring

theorem hasDerivAt_sineM (he : Eccentricity e) (hs : -1 ≤ s ∧ s ≤ 1) :
    HasDerivAt (sineM e) (-(2 * s * (1 - e ^ 2)) / (1 - e ^ 2 * s ^ 2) ^ 2) s := by
  have hpos := (one_sub_sq_pos he hs).ne'
  have hsq : HasDerivAt (fun s : ℝ => s ^ 2) (2 * s) s := by simpa using hasDerivAt_pow 2 s
  have hall := (hsq.const_sub 1).div ((hsq.const_mul (e ^ 2)).const_sub 1) hpos
  refine hall.congr_deriv ?_
  ring

/-- `q`, with `m²` added or subtracted, grows with the sine. -/
theorem sineQ_add_monotoneOn (he : Eccentricity e) {k : ℝ} (hk : -1 ≤ k ∧ k ≤ 1) :
    MonotoneOn (fun s => sineQ e s + k * sineM e s) (Set.Icc (-1) 1) := by
  have hderiv : ∀ s ∈ Set.Icc (-1 : ℝ) 1, HasDerivAt (fun s => sineQ e s + k * sineM e s)
      (2 * (1 - e ^ 2) / (1 - e ^ 2 * s ^ 2) ^ 2 +
        k * (-(2 * s * (1 - e ^ 2)) / (1 - e ^ 2 * s ^ 2) ^ 2)) s := fun s hs =>
    (hasDerivAt_sineQ he hs).add ((hasDerivAt_sineM he hs).const_mul k)
  refine monotoneOn_of_deriv_nonneg (convex_Icc _ _)
    (fun s hs => (hderiv s hs).continuousAt.continuousWithinAt)
    (fun s hs => (hderiv s (interior_subset hs)).differentiableAt.differentiableWithinAt) ?_
  intro s hs
  have hs' := interior_subset hs
  rw [(hderiv s hs').deriv]
  have hratio : 2 * (1 - e ^ 2) / (1 - e ^ 2 * s ^ 2) ^ 2 +
      k * (-(2 * s * (1 - e ^ 2)) / (1 - e ^ 2 * s ^ 2) ^ 2) =
        2 * (1 - e ^ 2) * (1 - k * s) / (1 - e ^ 2 * s ^ 2) ^ 2 := by ring
  rw [hratio]
  have hks : |k * s| ≤ 1 := by
    rw [abs_mul]
    exact mul_le_one₀ (abs_le.mpr hk) (abs_nonneg s) (abs_le.mpr hs')
  have hsq : 0 ≤ 1 - e ^ 2 := sub_nonneg.mpr (pow_le_one₀ he.1.le he.2.le)
  refine div_nonneg (mul_nonneg (mul_nonneg zero_le_two hsq) ?_) (sq_nonneg _)
  linarith [(abs_le.mp hks).2]

theorem sineM_sub_le (he : Eccentricity e) {s₁ s₂ : ℝ} (h₁ : -1 ≤ s₁ ∧ s₁ ≤ 1)
    (h₂ : -1 ≤ s₂ ∧ s₂ ≤ 1) : |sineM e s₁ - sineM e s₂| ≤ |sineQ e s₂ - sineQ e s₁| := by
  have hordered : ∀ {s₁ s₂ : ℝ}, -1 ≤ s₁ ∧ s₁ ≤ 1 → -1 ≤ s₂ ∧ s₂ ≤ 1 → s₁ ≤ s₂ →
      |sineM e s₁ - sineM e s₂| ≤ |sineQ e s₂ - sineQ e s₁| := by
    intro s₁ s₂ h₁ h₂ hle
    have hplus := sineQ_add_monotoneOn he (k := 1) ⟨by norm_num, le_rfl⟩ h₁ h₂ hle
    have hminus := sineQ_add_monotoneOn he (k := -1) ⟨le_rfl, by norm_num⟩ h₁ h₂ hle
    simp only at hplus hminus
    refine le_trans ?_ (le_abs_self _)
    rw [abs_le]
    refine ⟨?_, ?_⟩
    · linarith
    · linarith
  rcases le_total s₁ s₂ with hle | hle
  · exact hordered h₁ h₂ hle
  · have hswap := hordered h₂ h₁ hle
    rwa [abs_sub_comm, abs_sub_comm (sineQ e s₁)] at hswap

theorem sineQ_one_pos (he : Eccentricity e) : 0 < sineQ e 1 := by
  have hsq : 0 < 1 - e ^ 2 := sub_pos.mpr (pow_lt_one₀ he.1.le he.2 two_ne_zero)
  have hlog : Real.log ((1 - e * 1) / (1 + e * 1)) ≤ 0 := by
    refine Real.log_nonpos (div_nonneg ?_ ?_) ((div_le_one ?_).mpr ?_)
    · linarith [he.2]
    · linarith [he.1]
    · linarith [he.1]
    · linarith [he.1]
  have hfirst : 0 < 1 / (1 - e * 1 * (e * 1)) := one_div_pos.mpr (by linarith)
  have hsecond : 1 / (2 * e) * Real.log ((1 - e * 1) / (1 + e * 1)) ≤ 0 :=
    mul_nonpos_of_nonneg_of_nonpos (one_div_pos.mpr (by linarith [he.1])).le hlog
  exact mul_pos hsq (by linarith)

end Cone

/-! ## The series for the latitude -/

section Series

variable {a0 a1 a2 a3 : ℝ}

/-- The series, of which `apa` are the coefficients. -/
noncomputable def series (a0 a1 a2 a3 β : ℝ) : ℝ :=
  β + Real.sin (2 * β) *
    (((a3 * Real.cos (2 * β) + a2) * Real.cos (2 * β) + a1) * Real.cos (2 * β) + a0)

theorem horner_le {x c a r : ℝ} (hx : |x| ≤ r) (hc : |c| ≤ 1) (ha : |a| ≤ 1 / 100) :
    |x * c + a| ≤ r + 1 / 100 := by
  refine (abs_add_le _ _).trans (add_le_add ?_ ha)
  rw [abs_mul]
  calc
    |x| * |c| ≤ |x| * 1 := mul_le_mul_of_nonneg_left hc (abs_nonneg x)
    _ = |x| := mul_one _
    _ ≤ r := hx

/-- A series with small coefficients grows. -/
theorem series_monotone (h0 : |a0| ≤ 1 / 100) (h1 : |a1| ≤ 1 / 100) (h2 : |a2| ≤ 1 / 100)
    (h3 : |a3| ≤ 1 / 100) : Monotone (series a0 a1 a2 a3) := by
  have hderiv : ∀ β, HasDerivAt (series a0 a1 a2 a3)
      (1 + (Real.cos (2 * β) * 2 *
          (((a3 * Real.cos (2 * β) + a2) * Real.cos (2 * β) + a1) * Real.cos (2 * β) + a0) +
        Real.sin (2 * β) * (((a3 * (-Real.sin (2 * β) * 2)) * Real.cos (2 * β) +
          (a3 * Real.cos (2 * β) + a2) * (-Real.sin (2 * β) * 2)) * Real.cos (2 * β) +
            ((a3 * Real.cos (2 * β) + a2) * Real.cos (2 * β) + a1) *
              (-Real.sin (2 * β) * 2)))) β := by
    intro β
    have htwice : HasDerivAt (fun β : ℝ => 2 * β) 2 β := by
      simpa using (hasDerivAt_id β).const_mul (2 : ℝ)
    have hsin := htwice.sin
    have hcos := htwice.cos
    exact (hasDerivAt_id β).add (hsin.mul ((((((hcos.const_mul a3).add_const a2).mul hcos).add_const
      a1).mul hcos).add_const a0))
  refine monotone_of_deriv_nonneg (fun β => (hderiv β).differentiableAt) fun β => ?_
  rw [(hderiv β).deriv]
  have hc := Real.abs_cos_le_one (2 * β)
  have hs := Real.abs_sin_le_one (2 * β)
  set c := Real.cos (2 * β)
  set s := Real.sin (2 * β)
  have hp₁ := horner_le h3 hc h2
  have hp₂ := horner_le hp₁ hc h1
  have hp₃ := horner_le hp₂ hc h0
  -- the derivative of the polynomial
  have hd₁ : |a3 * c + (a3 * c + a2)| ≤ 1 / 100 + (1 / 100 + 1 / 100) := by
    refine (abs_add_le _ _).trans (add_le_add ?_ hp₁)
    rw [abs_mul]
    exact (mul_le_of_le_one_right (abs_nonneg a3) hc).trans h3
  have hd₂ : |(a3 * c + (a3 * c + a2)) * c + ((a3 * c + a2) * c + a1)| ≤ 6 / 100 := by
    refine (abs_add_le _ _).trans ?_
    have hfirst := mul_le_of_le_one_right (abs_nonneg (a3 * c + (a3 * c + a2))) hc
    rw [← abs_mul] at hfirst
    linarith
  have hsum : 1 + (c * 2 * (((a3 * c + a2) * c + a1) * c + a0) +
      s * (((a3 * (-s * 2)) * c + (a3 * c + a2) * (-s * 2)) * c +
        ((a3 * c + a2) * c + a1) * (-s * 2))) =
      1 + 2 * (c * (((a3 * c + a2) * c + a1) * c + a0)) -
        2 * (s * s * ((a3 * c + (a3 * c + a2)) * c + ((a3 * c + a2) * c + a1))) := by ring
  rw [hsum]
  have hfirst : |c * (((a3 * c + a2) * c + a1) * c + a0)| ≤ 4 / 100 := by
    rw [abs_mul]
    have := mul_le_of_le_one_left (abs_nonneg (((a3 * c + a2) * c + a1) * c + a0)) hc
    linarith
  have hsecond : |s * s * ((a3 * c + (a3 * c + a2)) * c + ((a3 * c + a2) * c + a1))| ≤
      6 / 100 := by
    rw [abs_mul]
    have hss : |s * s| ≤ 1 := by
      rw [abs_mul]
      exact mul_le_one₀ hs (abs_nonneg s) hs
    exact (mul_le_of_le_one_left (abs_nonneg _) hss).trans hd₂
  linarith [(abs_le.mp hfirst).1, (abs_le.mp hsecond).2]

end Series

/-! ## The constructor -/

theorem grs80E2_mem : 0 < (grs80E2 : ℝ) ∧ (grs80E2 : ℝ) < 1 := by
  refine ⟨?_, ?_⟩
  · norm_num [grs80E2, grs80F]
  · norm_num [grs80E2, grs80F]

theorem eccentricity_grs80 : Eccentricity (Real.sqrt grs80E2) :=
  ⟨Real.sqrt_pos.mpr grs80E2_mem.1, (Real.sqrt_lt' one_pos).mpr (by
    rw [one_pow]
    exact grs80E2_mem.2)⟩

theorem coneQ_eq (phi : ℝ) :
    coneQ polarFunctions grs80E2 (Real.sqrt grs80E2) phi =
      sineQ (Real.sqrt grs80E2) (Real.sin phi) := by
  rw [sineQ, Real.sq_sqrt grs80E2_mem.1.le]
  rfl

theorem coneM_mul_self (phi : ℝ) :
    coneM polarFunctions grs80E2 phi * coneM polarFunctions grs80E2 phi =
      sineM (Real.sqrt grs80E2) (Real.sin phi) := by
  have hpos := one_sub_sq_pos eccentricity_grs80 ⟨Real.neg_one_le_sin phi, Real.sin_le_one phi⟩
  rw [Real.sq_sqrt grs80E2_mem.1.le] at hpos
  have hroot : 0 ≤ 1 - (grs80E2 : ℝ) * Real.sin phi * Real.sin phi := by linarith
  rw [sineM, Real.sq_sqrt grs80E2_mem.1.le, ← Real.cos_sq']
  show Real.cos phi / Real.sqrt (1 - grs80E2 * Real.sin phi * Real.sin phi) *
    (Real.cos phi / Real.sqrt (1 - grs80E2 * Real.sin phi * Real.sin phi)) = _
  rw [div_mul_div_comm, Real.mul_self_sqrt hroot]
  ring

/-- The series of GRS80. -/
theorem phi_monotoneOn {albers : AlbersConicFast ℝ} (he : albers.e2 = grs80E2) :
    MonotoneOn (albers.phi polarFunctions) (Set.Icc (-1) 1) := by
  obtain ⟨a0, a1, a2, a3, h0, h1, h2, h3, hphi⟩ : ∃ a0 a1 a2 a3 : ℝ, |a0| ≤ 1 / 100 ∧
      |a1| ≤ 1 / 100 ∧ |a2| ≤ 1 / 100 ∧ |a3| ≤ 1 / 100 ∧ ∀ s, albers.phi polarFunctions s =
        2 * s * Real.sqrt (1 - s * s) * (((a3 * (1 - 2 * (s * s)) + a2) * (1 - 2 * (s * s)) + a1) *
          (1 - 2 * (s * s)) + a0) + Real.arcsin s := by
    refine ⟨_, _, _, _, ?_, ?_, ?_, ?_, fun s => rfl⟩
    · rw [he, abs_le]
      norm_num [grs80E2, grs80F]
    · rw [he, abs_le]
      norm_num [grs80E2, grs80F]
    · rw [he, abs_le]
      norm_num [grs80E2, grs80F]
    · rw [he, abs_le]
      norm_num [grs80E2, grs80F]
  have hseries : ∀ s ∈ Set.Icc (-1 : ℝ) 1,
      albers.phi polarFunctions s = series a0 a1 a2 a3 (Real.arcsin s) := by
    intro s hs
    have hsin := Real.sin_arcsin hs.1 hs.2
    have hcos := Real.cos_arcsin s
    rw [hphi, series, Real.sin_two_mul, Real.cos_two_mul', hcos, hsin,
      Real.sq_sqrt (by nlinarith [hs.1, hs.2]), ← pow_two s]
    ring
  intro s hs s' hs' hle
  rw [hseries s hs, hseries s' hs']
  exact series_monotone h0 h1 h2 h3 (Real.monotone_arcsin hle)

variable {lat1Deg lat2Deg lat0Deg lon0Deg x0 y0 : ℝ}

theorem withOffsets_n : (withOffsets polarFunctions lat1Deg lat2Deg lat0Deg lon0Deg x0 y0).n =
    if |lat1Deg * (Real.pi / 180) - lat2Deg * (Real.pi / 180)| < 1 / 10 ^ 10 then
      Real.sin (lat1Deg * (Real.pi / 180))
    else (sineM (Real.sqrt grs80E2) (Real.sin (lat1Deg * (Real.pi / 180))) -
        sineM (Real.sqrt grs80E2) (Real.sin (lat2Deg * (Real.pi / 180)))) /
      (sineQ (Real.sqrt grs80E2) (Real.sin (lat2Deg * (Real.pi / 180))) -
        sineQ (Real.sqrt grs80E2) (Real.sin (lat1Deg * (Real.pi / 180)))) := by
  rw [← coneM_mul_self, ← coneM_mul_self, ← coneQ_eq, ← coneQ_eq]
  rfl

/-- What the constructor builds. It is not used when `n` is 0. -/
theorem regular_withOffsets
    (hn : (withOffsets polarFunctions lat1Deg lat2Deg lat0Deg lon0Deg x0 y0).n ≠ 0) :
    (withOffsets polarFunctions lat1Deg lat2Deg lat0Deg lon0Deg x0 y0).Regular where
  n_ne := hn
  n_le := by
    rw [withOffsets_n]
    split
    next => exact Real.abs_sin_le_one _
    next =>
      have hle := sineM_sub_le eccentricity_grs80
        ⟨Real.neg_one_le_sin (lat1Deg * (Real.pi / 180)), Real.sin_le_one _⟩
        ⟨Real.neg_one_le_sin (lat2Deg * (Real.pi / 180)), Real.sin_le_one _⟩
      rw [abs_div]
      exact div_le_one_of_le₀ hle (abs_nonneg _)
  qp_pos := by
    have hqp : (withOffsets polarFunctions lat1Deg lat2Deg lat0Deg lon0Deg x0 y0).qp =
        sineQ (Real.sqrt grs80E2) (Real.sin (Real.pi / 2)) := coneQ_eq _
    rw [hqp, Real.sin_pi_div_two]
    exact sineQ_one_pos eccentricity_grs80
  phi_mono := phi_monotoneOn rfl

end AlbersConicFast

end RasterH3.Raster
