import RasterH3.Raster.TransverseMercator
import Mathlib.Analysis.Complex.Norm
import Mathlib.Algebra.Group.ModEq
import Mathlib.Analysis.SpecialFunctions.Trigonometric.Basic

/-!
# Transverse Mercator bounds enclose the image

The bounds of a rectangle of pixels in a transverse Mercator projection are found by
sampling it on a grid and widening the range of the samples by a margin. The margin comes
from a bound on how fast latitude and longitude can change on the way between two points
(`Lipschitz`), which the certificate of the code relies on and which is an assumption about
the inverse projection here.

A point of the rectangle is no further than `reachM` from some sample
(`exists_near_sample`), so its latitude is in the widened range of the sampled ones. That
holds along the whole segment to the sample, which lies in the rectangle, and with it the
bound on the longitude applies there. The bound on the longitude has the cosine of the
largest latitude on the way in it, so that the latitudes have to be settled first.

A lifted longitude is a copy of the sampled one whatever the neighbours are
(`lifted_modEq`). So the longitude of the point has a copy in the widened range of the
lifted ones, and as this range lies inside `[-180, 180]` with room to spare, it is the
wrapped one. The check of the neighbours keeps the range narrow. It is not what makes it
sound.

A rectangle may reach beyond the band of the certificate. Easting is affine, so it is in the
band with its corners; if it is not, the code has no bounds for it.
-/

namespace RasterH3.Raster

open AddCommGroup

noncomputable def realFunctions : RealFunctions ℝ where
  radToDeg := 180 / Real.pi
  hypot x y := √(x ^ 2 + y ^ 2)
  cosDeg x := Real.cos (x * (Real.pi / 180))

/-! ## The projection -/

/-- The longitude and the latitude of a point, where it has an image. -/
noncomputable def lonOf (point : ℝ → ℝ → Option (ℝ × ℝ)) (p : ℝ × ℝ) : ℝ :=
  ((point p.1 p.2).map Prod.fst).getD 0

noncomputable def latOf (point : ℝ → ℝ → Option (ℝ × ℝ)) (p : ℝ × ℝ) : ℝ :=
  ((point p.1 p.2).map Prod.snd).getD 0

namespace TmCertificate

variable (tm : TmCertificate ℝ)

/-- The easting band that the certificate is for. -/
def InBand (p : ℝ × ℝ) : Prop := tm.off p.1 ≤ tmMaxEastingM

/-- The bound on the ground length of a segment. -/
noncomputable def ground (p q : ℝ × ℝ) : ℝ :=
  realFunctions.hypot (p.1 - q.1) (p.2 - q.2) * tm.groundPerUnit

/-- The bounds that the certificate relies on, for an inverse projection that has an image for
every point of the band. The longitude is bounded by the largest latitude on the way. -/
structure Lipschitz (point : ℝ → ℝ → Option (ℝ × ℝ)) : Prop where
  total : ∀ p, tm.InBand p → point p.1 p.2 = some (lonOf point p, latOf point p)
  latitude : ∀ x y lon lat, point x y = some (lon, lat) → -90 ≤ lat ∧ lat ≤ 90
  lat_le : ∀ p q, tm.InBand p → tm.InBand q →
    |latOf point p - latOf point q| ≤ tm.ground p q / tmMinRadiusM * realFunctions.radToDeg
  lon_le : ∀ p q maxLat, tm.InBand p → tm.InBand q → maxLat < 90 →
    (∀ τ : ℝ, 0 ≤ τ → τ ≤ 1 → |latOf point (p + τ • (q - p))| ≤ maxLat) →
    ∃ lon, lon ≡ lonOf point p - lonOf point q [PMOD (360 : ℝ)] ∧
      |lon| ≤ tm.ground p q * (realFunctions.radToDeg /
        (tmMinRadiusM * realFunctions.cosDeg maxLat))

theorem groundPerUnit_pos : 0 < tm.groundPerUnit := by
  have h₁ := tm.k0_pos
  have h₂ := tm.toMeter_pos
  rw [tm.groundPerUnit_eq]
  positivity

end TmCertificate

/-! ## The rectangle and its grid -/

section Rectangle

variable (gt : GeoTransform ℝ) (col row width height : ℝ)

/-- The point at the fractions `s` and `t` of the rectangle's sides. -/
noncomputable def rectPoint (s t : ℝ) : ℝ × ℝ := gt.pixelToCoord (col + width * s) (row + height * t)

theorem gridPoint_eq (j i : Nat) :
    gridPoint gt col row width height j i =
      rectPoint gt col row width height ((i : ℝ) / tmGrid) ((j : ℝ) / tmGrid) := by
  unfold gridPoint rectPoint
  rw [mul_div_assoc, mul_div_assoc]

theorem rectPoint_segment (s t s' t' τ : ℝ) :
    rectPoint gt col row width height s t +
        τ • (rectPoint gt col row width height s' t' - rectPoint gt col row width height s t) =
      rectPoint gt col row width height (s + τ * (s' - s)) (t + τ * (t' - t)) := by
  unfold rectPoint GeoTransform.pixelToCoord
  ext
  · simp only [Prod.fst_add, Prod.smul_fst, Prod.fst_sub, smul_eq_mul]
    ring
  · simp only [Prod.snd_add, Prod.smul_snd, Prod.snd_sub, smul_eq_mul]
    ring

theorem between_mem {s s' τ : ℝ} (hs : 0 ≤ s ∧ s ≤ 1) (hs' : 0 ≤ s' ∧ s' ≤ 1)
    (hτ : 0 ≤ τ ∧ τ ≤ 1) : 0 ≤ s + τ * (s' - s) ∧ s + τ * (s' - s) ≤ 1 := by
  have h₁ := mul_nonneg hτ.1 hs'.1
  have h₂ := mul_nonneg (sub_nonneg.mpr hτ.2) hs.1
  have h₃ := mul_nonneg hτ.1 (sub_nonneg.mpr hs'.2)
  have h₄ := mul_nonneg (sub_nonneg.mpr hτ.2) (sub_nonneg.mpr hs.2)
  refine ⟨?_, ?_⟩
  · linarith
  · linarith

/-- A value between two that are small is small. -/
theorem abs_between_le {x y m τ : ℝ} (hx : |x| ≤ m) (hy : |y| ≤ m) (hτ : 0 ≤ τ ∧ τ ≤ 1) :
    |(1 - τ) * x + τ * y| ≤ m := by
  have hconvex : |(1 - τ) * x + τ * y| ≤ (1 - τ) * |x| + τ * |y| := by
    refine (abs_add_le _ _).trans_eq ?_
    rw [abs_mul, abs_mul, abs_of_nonneg hτ.1, abs_of_nonneg (sub_nonneg.mpr hτ.2)]
  have h₁ := mul_le_mul_of_nonneg_left hx (sub_nonneg.mpr hτ.2)
  have h₂ := mul_le_mul_of_nonneg_left hy hτ.1
  linarith

variable {gt col row width height}

theorem inBand_iff (tm : TmCertificate ℝ) (p : ℝ × ℝ) :
    tm.InBand p ↔ |p.1 * tm.toMeter - tm.x0| ≤ tmMaxEastingM * tm.k0 :=
  div_le_iff₀ tm.k0_pos

/-- Easting is affine, so the rectangle is in the band with its corners. -/
theorem inBand_rectPoint (tm : TmCertificate ℝ)
    (hcorners : ∀ s ∈ ({0, 1} : Set ℝ), ∀ t ∈ ({0, 1} : Set ℝ),
      tm.InBand (rectPoint gt col row width height s t))
    {s t : ℝ} (hs : 0 ≤ s ∧ s ≤ 1) (ht : 0 ≤ t ∧ t ≤ 1) :
    tm.InBand (rectPoint gt col row width height s t) := by
  have hbound : ∀ a ∈ ({0, 1} : Set ℝ), ∀ b ∈ ({0, 1} : Set ℝ),
      |(rectPoint gt col row width height a b).1 * tm.toMeter - tm.x0| ≤
        tmMaxEastingM * tm.k0 := fun a ha b hb => (inBand_iff tm _).mp (hcorners a ha b hb)
  have h₀ := abs_between_le (hbound 0 (.inl rfl) 0 (.inl rfl)) (hbound 1 (.inr rfl) 0 (.inl rfl)) hs
  have h₁ := abs_between_le (hbound 0 (.inl rfl) 1 (.inr rfl)) (hbound 1 (.inr rfl) 1 (.inr rfl)) hs
  have h := abs_between_le h₀ h₁ ht
  rw [inBand_iff]
  refine le_of_eq_of_le (congrArg abs ?_) h
  unfold rectPoint GeoTransform.pixelToCoord
  ring

/-- Every fraction is within half a step of one of the grid. -/
theorem exists_near {s : ℝ} (hs : 0 ≤ s ∧ s ≤ 1) :
    ∃ i : Nat, i ≤ tmGrid ∧ |(s - i / tmGrid) * tmGrid| ≤ 1 / 2 := by
  have hgrid : ((tmGrid : Nat) : ℝ) = 10 := by norm_num [tmGrid]
  have hnonneg : (0 : ℝ) ≤ s * 10 + 1 / 2 := by linarith [hs.1]
  have hlo := Nat.floor_le hnonneg
  have hhi := Nat.lt_floor_add_one (s * 10 + 1 / 2)
  refine ⟨⌊s * 10 + 1 / 2⌋₊, ?_, ?_⟩
  · refine Nat.lt_succ_iff.mp ((Nat.floor_lt hnonneg).mpr ?_)
    have h := hs.2
    norm_num [tmGrid]
    linarith
  · rw [hgrid, sub_mul, div_mul_cancel₀ _ (by norm_num : (10 : ℝ) ≠ 0), abs_le]
    refine ⟨?_, ?_⟩
    · linarith
    · linarith

end Rectangle

/-! ## Lengths -/

theorem hypot_eq_norm (x y : ℝ) : realFunctions.hypot x y = ‖(⟨x, y⟩ : ℂ)‖ :=
  (Complex.norm_eq_sqrt_sq_add_sq (⟨x, y⟩ : ℂ)).symm

theorem hypot_combination_le {a b : ℝ} (ha : |a| ≤ 1 / 2) (hb : |b| ≤ 1 / 2) (u v : ℝ × ℝ) :
    realFunctions.hypot (a * u.1 + b * v.1) (a * u.2 + b * v.2) ≤
      1 / 2 * (realFunctions.hypot u.1 u.2 + realFunctions.hypot v.1 v.2) := by
  simp only [hypot_eq_norm]
  have hsplit : (⟨a * u.1 + b * v.1, a * u.2 + b * v.2⟩ : ℂ) = a • ⟨u.1, u.2⟩ + b • ⟨v.1, v.2⟩ := by
    apply Complex.ext <;> simp
  rw [hsplit]
  refine (norm_add_le _ _).trans ?_
  rw [norm_smul, norm_smul, Real.norm_eq_abs, Real.norm_eq_abs, mul_add]
  exact add_le_add (mul_le_mul_of_nonneg_right ha (norm_nonneg _))
    (mul_le_mul_of_nonneg_right hb (norm_nonneg _))

theorem hypot_nonneg (x y : ℝ) : 0 ≤ realFunctions.hypot x y := Real.sqrt_nonneg _

section Reach

variable {tm : TmCertificate ℝ} {gt : GeoTransform ℝ} {col row width height : ℝ}

theorem ground_sample_le {s t : ℝ} {j i : Nat} (hs : |(s - i / tmGrid) * tmGrid| ≤ 1 / 2)
    (ht : |(t - j / tmGrid) * tmGrid| ≤ 1 / 2) :
    tm.ground (rectPoint gt col row width height s t) (gridPoint gt col row width height j i) ≤
      reachM realFunctions tm gt width height := by
  have hgrid : ((tmGrid : Nat) : ℝ) ≠ 0 := by norm_num [tmGrid]
  refine mul_le_mul_of_nonneg_right ?_ tm.groundPerUnit_pos.le
  refine le_of_eq_of_le ?_ (hypot_combination_le hs ht
    (gt.a * width / tmGrid, gt.d * width / tmGrid) (gt.b * height / tmGrid, gt.e * height / tmGrid))
  rw [gridPoint_eq]
  unfold rectPoint GeoTransform.pixelToCoord
  congr 1
  · field_simp
    ring
  · field_simp
    ring

/-- Every point of the rectangle is within reach of a sample. -/
theorem exists_near_sample {s t : ℝ} (hs : 0 ≤ s ∧ s ≤ 1) (ht : 0 ≤ t ∧ t ≤ 1) :
    ∃ j i, j ≤ tmGrid ∧ i ≤ tmGrid ∧
      tm.ground (rectPoint gt col row width height s t)
        (gridPoint gt col row width height j i) ≤ reachM realFunctions tm gt width height := by
  rcases exists_near hs with ⟨i, hi, hnear⟩
  rcases exists_near ht with ⟨j, hj, hnear'⟩
  exact ⟨j, i, hj, hi, ground_sample_le hnear hnear'⟩

theorem grid_mem {i : Nat} (hi : i ≤ tmGrid) :
    0 ≤ (i : ℝ) / tmGrid ∧ (i : ℝ) / tmGrid ≤ 1 :=
  ⟨by positivity, div_le_one_of_le₀ (Nat.cast_le.mpr hi) (Nat.cast_nonneg _)⟩

end Reach

/-! ## The samples -/

theorem mem_gridCells {j i : Nat} (hj : j ≤ tmGrid) (hi : i ≤ tmGrid) : (j, i) ∈ gridCells :=
  List.mem_product.mpr ⟨List.mem_range.mpr (by omega), List.mem_range.mpr (by omega)⟩

theorem gridMin_le (f : Nat → Nat → ℝ) {j i : Nat} (hj : j ≤ tmGrid) (hi : i ≤ tmGrid) :
    gridMin f ≤ f j i :=
  List.min_le_of_mem (List.mem_map_of_mem (mem_gridCells hj hi))

theorem le_gridMax (f : Nat → Nat → ℝ) {j i : Nat} (hj : j ≤ tmGrid) (hi : i ≤ tmGrid) :
    f j i ≤ gridMax f :=
  List.le_max_of_mem (List.mem_map_of_mem (f := fun c => f c.1 c.2) (mem_gridCells hj hi))

/-! ## Longitudes -/

theorem unwrap_modEq (d : ℝ) : unwrap d ≡ d [PMOD (360 : ℝ)] := by
  refine modEq_iff_eq_add_zsmul.mpr ⟨roundAway (d / 360), ?_⟩
  rw [zsmul_eq_mul, unwrap]
  ring

theorem wrapLon_modEq (lon : ℝ) : wrapLon lon ≡ lon [PMOD (360 : ℝ)] := by
  refine modEq_iff_eq_add_zsmul.mpr ⟨⌊(lon + 180) / 360⌋, ?_⟩
  rw [zsmul_eq_mul, wrapLon, remEuclid]
  ring

/-- A lifted longitude stays a copy of the sampled one. -/
theorem lifted_modEq (lons : Nat → Nat → ℝ) (j i : Nat) :
    lifted lons j i ≡ lons j i [PMOD (360 : ℝ)] := by
  have hstep : ∀ a b c : ℝ, a ≡ b [PMOD (360 : ℝ)] → a + unwrap (c - b) ≡ c [PMOD (360 : ℝ)] :=
    fun a b c h => by simpa using h.add (unwrap_modEq (c - b))
  have hcolumn : liftedColumn lons j ≡ lons j 0 [PMOD (360 : ℝ)] := by
    induction j with
    | zero => exact wrapLon_modEq _
    | succ j ih => exact hstep _ _ _ ih
  induction i with
  | zero => exact hcolumn
  | succ i ih => exact hstep _ _ _ ih

/-- Two copies of a longitude that are less than a turn apart are one. -/
theorem eq_of_modEq {x y : ℝ} (h : x ≡ y [PMOD (360 : ℝ)]) (hlt : |x - y| < 360) : x = y := by
  rcases modEq_iff_eq_add_zsmul.mp h with ⟨k, hk⟩
  rw [zsmul_eq_mul] at hk
  have hzero : k = 0 := by
    rw [abs_lt] at hlt
    have h₁ : (-1 : ℝ) < k := by linarith
    have h₂ : (k : ℝ) < 1 := by linarith
    have h₃ : -1 < k := by exact_mod_cast h₁
    have h₄ : k < 1 := by exact_mod_cast h₂
    omega
  rw [hk, hzero, Int.cast_zero, zero_mul, add_zero]

/-- A longitude near a sample is in the bounds of the lift. -/
theorem liftedBounds_lon {lons : Nat → Nat → ℝ} {south north dlon dlonEdge lon d : ℝ} {j i : Nat}
    (hj : j ≤ tmGrid) (hi : i ≤ tmGrid) (hd : |d| < dlon) (hwrapped : -180 ≤ lon ∧ lon ≤ 180)
    (h : lon ≡ lons j i + d [PMOD (360 : ℝ)]) :
    (liftedBounds lons south north dlon dlonEdge).minLon ≤ lon ∧
      lon ≤ (liftedBounds lons south north dlon dlonEdge).maxLon := by
  unfold liftedBounds
  simp only
  split
  next => exact hwrapped
  next =>
    split
    next => exact hwrapped
    next hrange =>
      simp only [not_or, not_lt] at hrange
      have hlo := gridMin_le (lifted lons) hj hi
      have hhi := le_gridMax (lifted lons) hj hi
      have hcopy : lon ≡ lifted lons j i + d [PMOD (360 : ℝ)] :=
        h.trans ((lifted_modEq lons j i).symm.add_right d)
      rw [abs_lt] at hd
      -- The copy is strictly inside the circle cut at the antimeridian.
      have heq : lon = lifted lons j i + d := eq_of_modEq hcopy (abs_lt.mpr ⟨by linarith, by linarith⟩)
      refine ⟨?_, ?_⟩
      · simp only
        linarith
      · simp only
        linarith

theorem liftedBounds_lat (lons : Nat → Nat → ℝ) (south north dlon dlonEdge : ℝ) :
    (liftedBounds lons south north dlon dlonEdge).minLat = south ∧
      (liftedBounds lons south north dlon dlonEdge).maxLat = north := by
  unfold liftedBounds
  simp only
  split
  next => exact ⟨rfl, rfl⟩
  next =>
    split
    next => exact ⟨rfl, rfl⟩
    next => exact ⟨rfl, rfl⟩

/-! ## The enclosure -/

/-- The latitude and every wrapped copy of the longitude are within the bounds. -/
def Bounds.Encloses (b : Bounds ℝ) (lon lat : ℝ) : Prop :=
  (b.minLat ≤ lat ∧ lat ≤ b.maxLat) ∧
    ∀ wrapped, -180 ≤ wrapped → wrapped ≤ 180 → wrapped ≡ lon [PMOD (360 : ℝ)] →
      b.minLon ≤ wrapped ∧ wrapped ≤ b.maxLon

theorem encloses_of_lats {b : Bounds ℝ} {lon lat : ℝ} (hlat : b.minLat ≤ lat ∧ lat ≤ b.maxLat)
    (hmin : b.minLon = -180) (hmax : b.maxLon = 180) : b.Encloses lon lat :=
  ⟨hlat, fun _ h₁ h₂ _ => ⟨hmin ▸ h₁, hmax ▸ h₂⟩⟩

section Enclosure

variable {point : ℝ → ℝ → Option (ℝ × ℝ)} {tm : TmCertificate ℝ} {gt : GeoTransform ℝ}
  {col row width height : ℝ}

theorem cosDeg_pos {x : ℝ} (h₁ : 0 ≤ x) (h₂ : x < 90) : 0 < realFunctions.cosDeg x := by
  have hpi := Real.pi_pos
  refine Real.cos_pos_of_mem_Ioo ⟨?_, ?_⟩
  · have : 0 ≤ x * (Real.pi / 180) := by positivity
    linarith
  · calc
      x * (Real.pi / 180) < 90 * (Real.pi / 180) := mul_lt_mul_of_pos_right h₂ (by positivity)
      _ = Real.pi / 2 := by ring

theorem radToDeg_pos : 0 < realFunctions.radToDeg := div_pos (by norm_num) Real.pi_pos

/-- The samples of the rectangle, as the code keeps them. -/
noncomputable abbrev sampleLons (point : ℝ → ℝ → Option (ℝ × ℝ)) (gt : GeoTransform ℝ)
    (col row width height : ℝ) (j i : Nat) : ℝ :=
  lonOf point (gridPoint gt col row width height j i)

noncomputable abbrev sampleLats (point : ℝ → ℝ → Option (ℝ × ℝ)) (gt : GeoTransform ℝ)
    (col row width height : ℝ) (j i : Nat) : ℝ :=
  latOf point (gridPoint gt col row width height j i)

/-- The bounds on the latitude in the sampled path. -/
noncomputable def southBound (tm : TmCertificate ℝ) (gt : GeoTransform ℝ) (width height : ℝ)
    (lats : Nat → Nat → ℝ) : ℝ :=
  max (gridMin lats - (reachM realFunctions tm gt width height / tmMinRadiusM *
    realFunctions.radToDeg + epsDeg)) (-90)

noncomputable def northBound (tm : TmCertificate ℝ) (gt : GeoTransform ℝ) (width height : ℝ)
    (lats : Nat → Nat → ℝ) : ℝ :=
  min (gridMax lats + (reachM realFunctions tm gt width height / tmMinRadiusM *
    realFunctions.radToDeg + epsDeg)) 90

def RectInBand (tm : TmCertificate ℝ) (gt : GeoTransform ℝ) (col row width height : ℝ) : Prop :=
  ∀ s t : ℝ, 0 ≤ s ∧ s ≤ 1 → 0 ≤ t ∧ t ≤ 1 → tm.InBand (rectPoint gt col row width height s t)

theorem latOf_mem (h : tm.Lipschitz point) {p : ℝ × ℝ} (hp : tm.InBand p) :
    -90 ≤ latOf point p ∧ latOf point p ≤ 90 := h.latitude _ _ _ _ (h.total p hp)

theorem lat_between (h : tm.Lipschitz point) (hband : RectInBand tm gt col row width height)
    {s t : ℝ} (hs : 0 ≤ s ∧ s ≤ 1) (ht : 0 ≤ t ∧ t ≤ 1) :
    southBound tm gt width height (sampleLats point gt col row width height) ≤
        latOf point (rectPoint gt col row width height s t) ∧
      latOf point (rectPoint gt col row width height s t) ≤
        northBound tm gt width height (sampleLats point gt col row width height) := by
  rcases @exists_near_sample tm gt col row width height s t hs ht with ⟨j, i, hj, hi, hnear⟩
  have hsample : tm.InBand (gridPoint gt col row width height j i) := by
    rw [gridPoint_eq]
    exact hband _ _ (grid_mem hi) (grid_mem hj)
  have hlip := h.lat_le _ _ (hband s t hs ht) hsample
  have hreach : tm.ground (rectPoint gt col row width height s t)
        (gridPoint gt col row width height j i) / tmMinRadiusM * realFunctions.radToDeg ≤
      reachM realFunctions tm gt width height / tmMinRadiusM * realFunctions.radToDeg :=
    mul_le_mul_of_nonneg_right
      (div_le_div_of_nonneg_right hnear (by norm_num [tmMinRadiusM])) radToDeg_pos.le
  have heps : (0 : ℝ) < epsDeg := by norm_num [epsDeg]
  have hlo := gridMin_le (sampleLats point gt col row width height) hj hi
  have hhi := le_gridMax (sampleLats point gt col row width height) hj hi
  have hrange := latOf_mem h (hband s t hs ht)
  rw [abs_le] at hlip
  refine ⟨max_le ?_ hrange.1, le_min ?_ hrange.2⟩
  · linarith
  · linarith

theorem sampledBounds_encloses (h : tm.Lipschitz point)
    (hband : RectInBand tm gt col row width height) {s t : ℝ} (hs : 0 ≤ s ∧ s ≤ 1)
    (ht : 0 ≤ t ∧ t ≤ 1) :
    (sampledBounds realFunctions tm gt width height (sampleLons point gt col row width height)
        (sampleLats point gt col row width height)).Encloses
      (lonOf point (rectPoint gt col row width height s t))
      (latOf point (rectPoint gt col row width height s t)) := by
  have hlat := fun {s t : ℝ} (hs : 0 ≤ s ∧ s ≤ 1) (ht : 0 ≤ t ∧ t ≤ 1) =>
    lat_between h hband hs ht
  unfold sampledBounds
  simp only
  change Bounds.Encloses (if _ ≤ max (northBound tm gt width height _)
    (-southBound tm gt width height _) then _ else _) _ _
  split
  next => exact encloses_of_lats (hlat hs ht) rfl rfl
  next hpole =>
    split
    next => exact encloses_of_lats (hlat hs ht) rfl rfl
    next =>
      set lats := sampleLats point gt col row width height
      set absLat := max (northBound tm gt width height lats) (-southBound tm gt width height lats)
        with habs
      rcases @exists_near_sample tm gt col row width height s t hs ht with ⟨j, i, hj, hi, hnear⟩
      have hsample : tm.InBand (gridPoint gt col row width height j i) := by
        rw [gridPoint_eq]
        exact hband _ _ (grid_mem hi) (grid_mem hj)
      have hnorth : northBound tm gt width height lats ≤ absLat := le_max_left _ _
      have hsouth : -southBound tm gt width height lats ≤ absLat := le_max_right _ _
      have habs_lt : absLat < 90 := (not_le.mp hpole).trans (by norm_num)
      have habs_nonneg : 0 ≤ absLat := by
        have := hlat hs ht
        linarith
      have hway : ∀ τ : ℝ, 0 ≤ τ → τ ≤ 1 →
          |latOf point (rectPoint gt col row width height s t +
            τ • (gridPoint gt col row width height j i -
              rectPoint gt col row width height s t))| ≤ absLat := by
        intro τ h₀ h₁
        rw [gridPoint_eq, rectPoint_segment]
        have := hlat (between_mem hs (grid_mem hi) ⟨h₀, h₁⟩) (between_mem ht (grid_mem hj) ⟨h₀, h₁⟩)
        exact abs_le.mpr ⟨by linarith, by linarith⟩
      rcases h.lon_le _ _ _ (hband s t hs ht) hsample habs_lt hway with ⟨d, hd, hle⟩
      have hscale : 0 ≤ lonScale realFunctions absLat := by
        have hcos := cosDeg_pos habs_nonneg habs_lt
        have hradius : (0 : ℝ) < tmMinRadiusM := by norm_num [tmMinRadiusM]
        exact div_nonneg radToDeg_pos.le (mul_pos hradius hcos).le
      have heps : (0 : ℝ) < epsDeg := by norm_num [epsDeg]
      have hdlon : |d| < reachM realFunctions tm gt width height *
          lonScale realFunctions absLat + epsDeg :=
        (hle.trans (mul_le_mul_of_nonneg_right hnear hscale)).trans_lt (lt_add_of_pos_right _ heps)
      refine ⟨?_, fun wrapped h₁ h₂ hcopy => ?_⟩
      · rw [(liftedBounds_lat ..).1, (liftedBounds_lat ..).2]
        exact hlat hs ht
      · refine liftedBounds_lon hj hi hdlon ⟨h₁, h₂⟩ (hcopy.trans ?_)
        have hadd := hd.add_left (lonOf point (gridPoint gt col row width height j i))
        rw [add_sub_cancel] at hadd
        exact hadd.symm

theorem rectInBand_of_corners
    (h : ¬ ([((0 : ℝ), (0 : ℝ)), (width, 0), (0, height), (width, height)].any fun c =>
      decide (tmMaxEastingM < tm.off (gt.pixelToCoord (col + c.1) (row + c.2)).1)) = true) :
    RectInBand tm gt col row width height := by
  simp only [List.any_cons, List.any_nil, Bool.or_false, Bool.or_eq_true, decide_eq_true_eq,
    not_or, not_lt] at h
  rcases h with ⟨h₀₀, h₁₀, h₀₁, h₁₁⟩
  intro s t hs ht
  refine inBand_rectPoint tm (fun a ha b hb => ?_) hs ht
  rcases ha with rfl | rfl
  · rcases hb with rfl | rfl
    · simpa [TmCertificate.InBand, rectPoint] using h₀₀
    · simpa [TmCertificate.InBand, rectPoint] using h₀₁
  · rcases hb with rfl | rfl
    · simpa [TmCertificate.InBand, rectPoint] using h₁₀
    · simpa [TmCertificate.InBand, rectPoint] using h₁₁

/-- The bounds of a pixel rectangle enclose the image of each of its points. -/
theorem tmRectBounds_encloses (h : tm.Lipschitz point) {s t : ℝ} (hs : 0 ≤ s ∧ s ≤ 1)
    (ht : 0 ≤ t ∧ t ≤ 1) {lon lat : ℝ}
    (himage : point (gt.pixelToCoord (col + width * s) (row + height * t)).1
      (gt.pixelToCoord (col + width * s) (row + height * t)).2 = some (lon, lat)) :
    (tmRectBounds realFunctions point tm gt col row width height).Encloses lon lat := by
  have hglobe : (CrsTransformer.globe : Bounds ℝ).Encloses lon lat :=
    encloses_of_lats (h.latitude _ _ _ _ himage) rfl rfl
  unfold tmRectBounds
  split
  next => exact hglobe
  next hcorners =>
    simp only
    split
    next => exact hglobe
    next =>
      have hinside := sampledBounds_encloses h (rectInBand_of_corners hcorners) hs ht
      have hlon : lonOf point (rectPoint gt col row width height s t) = lon :=
        congrArg (fun o => (o.map Prod.fst).getD 0) himage
      have hlat : latOf point (rectPoint gt col row width height s t) = lat :=
        congrArg (fun o => (o.map Prod.snd).getD 0) himage
      rw [hlon, hlat] at hinside
      exact hinside

end Enclosure

/-! ## A square kilometre of zone 31 -/

noncomputable def utm : TmCertificate ℝ where
  groundPerUnit := 1 / (999 / 1000 * (9996 / 10000))
  toMeter := 1
  x0 := 500000
  k0 := 9996 / 10000
  k0_pos := by norm_num
  toMeter_pos := one_pos
  groundPerUnit_eq := rfl

/-- A projection of the zone that takes a degree for a thousand kilometres in both directions. -/
noncomputable def thousandKm : ℝ → ℝ → Option (ℝ × ℝ) := fun x y =>
  some (3 + (x - 500000) / 10 ^ 6, max (-90) (min 90 (y / 10 ^ 6)))

/-- A degree is allowed less than that of ground. -/
theorem div_million_le_ground {d : ℝ} {p q : ℝ × ℝ}
    (hd : d ≤ realFunctions.hypot (p.1 - q.1) (p.2 - q.2)) :
    d / 10 ^ 6 ≤ utm.ground p q / tmMinRadiusM * realFunctions.radToDeg := by
  have hnonneg := hypot_nonneg (p.1 - q.1) (p.2 - q.2)
  have hdeg : (45 : ℝ) ≤ realFunctions.radToDeg := by
    rw [realFunctions, le_div_iff₀ Real.pi_pos]
    linarith [Real.pi_le_four]
  have hunit : (1 : ℝ) ≤ utm.groundPerUnit := by norm_num [utm]
  have hground : d ≤ utm.ground p q :=
    hd.trans (le_mul_of_one_le_right hnonneg hunit)
  have hpos : 0 ≤ utm.ground p q := mul_nonneg hnonneg utm.groundPerUnit_pos.le
  calc d / 10 ^ 6 ≤ utm.ground p q / 10 ^ 6 := by gcongr
    _ ≤ utm.ground p q / 6300000 * 45 := by linarith
    _ ≤ utm.ground p q / tmMinRadiusM * realFunctions.radToDeg := by
      rw [tmMinRadiusM]
      exact mul_le_mul_of_nonneg_left hdeg (by positivity)

theorem utm_lipschitz : utm.Lipschitz thousandKm where
  total _ _ := rfl
  latitude := by
    intro x y lon lat h
    cases h
    exact ⟨le_max_left _ _, max_le (by norm_num) (min_le_left _ _)⟩
  lat_le := by
    intro p q _ _
    have hclamp : |latOf thousandKm p - latOf thousandKm q| ≤ |p.2 / 10 ^ 6 - q.2 / 10 ^ 6| :=
      calc |latOf thousandKm p - latOf thousandKm q|
          ≤ max |(-90) - (-90)| |min 90 (p.2 / 10 ^ 6) - min 90 (q.2 / 10 ^ 6)| :=
            abs_max_sub_max_le_max _ _ _ _
        _ = |min 90 (p.2 / 10 ^ 6) - min 90 (q.2 / 10 ^ 6)| := by simp
        _ ≤ max |90 - 90| |p.2 / 10 ^ 6 - q.2 / 10 ^ 6| := abs_min_sub_min_le_max _ _ _ _
        _ = |p.2 / 10 ^ 6 - q.2 / 10 ^ 6| := by simp
    refine hclamp.trans ?_
    rw [← sub_div, abs_div, abs_of_pos (by positivity : (0 : ℝ) < 10 ^ 6)]
    exact div_million_le_ground (Real.abs_le_sqrt (by nlinarith [sq_nonneg (p.1 - q.1)]))
  lon_le := by
    intro p q maxLat _ _ hlt hway
    have hnonneg : 0 ≤ maxLat := (abs_nonneg _).trans (hway 0 le_rfl zero_le_one)
    have hcos := cosDeg_pos hnonneg hlt
    have hradius : (0 : ℝ) < tmMinRadiusM := by norm_num [tmMinRadiusM]
    have hpos : 0 ≤ utm.ground p q :=
      mul_nonneg (hypot_nonneg _ _) utm.groundPerUnit_pos.le
    refine ⟨lonOf thousandKm p - lonOf thousandKm q, AddCommGroup.modEq_rfl, ?_⟩
    have hstep : lonOf thousandKm p - lonOf thousandKm q = (p.1 - q.1) / 10 ^ 6 := by
      simp only [lonOf, thousandKm, Option.map_some, Option.getD_some]
      ring
    rw [hstep, abs_div, abs_of_pos (by positivity : (0 : ℝ) < 10 ^ 6)]
    refine (div_million_le_ground
      (Real.abs_le_sqrt (by nlinarith [sq_nonneg (p.2 - q.2)]))).trans ?_
    -- The cosine only widens the bound.
    rw [div_mul_eq_mul_div, mul_div_assoc]
    refine mul_le_mul_of_nonneg_left ?_ hpos
    have hone : realFunctions.cosDeg maxLat ≤ 1 := Real.cos_le_one _
    exact div_le_div_of_nonneg_left radToDeg_pos.le (mul_pos hradius hcos)
      (mul_le_of_le_one_right hradius.le hone)

/-- A point between the samples of a hundred pixels by a hundred. -/
theorem tmRectBounds_encloses_between :
    (tmRectBounds realFunctions thousandKm utm ⟨500000, 10, 0, 0, 0, -10⟩ 0 0 100 100).Encloses
      (3 + 11 / 20000) (-(11 / 20000)) := by
  refine tmRectBounds_encloses utm_lipschitz (s := 11 / 20) (t := 11 / 20) (by norm_num)
    (by norm_num) ?_
  norm_num [thousandKm, GeoTransform.pixelToCoord]

end RasterH3.Raster
