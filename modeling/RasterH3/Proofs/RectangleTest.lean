import RasterH3.Proofs.BboxPruning

/-!
# When the rectangle test may say no

A chunk is skipped if its bounds do not meet the box of the query. Its points are tested one
by one otherwise. So the first test may only say no to a rectangle without a point that the
second keeps (`PruningSound`).

The two do not read a box in the same way. A rectangle and a box are compared as intervals,
as they are written; a point is compared after its longitude was wrapped, and a longitude of
180 is wrapped to -180. The box may cross the antimeridian, in which case its western edge
is written as the greater number, and both tests know that. What the first does not know is
that the meridian has two names. It rejects a rectangle with a kept point in one situation
only: the point lies on the antimeridian, the rectangle has it under one name, the box under
the other, and the two intervals lie apart (`SeamApart`).

One direction follows a kept point to where the rectangle test would see it: a point west of
180 is there under its own name (`meet_of_lt`), and a point at 180 is tested as -180
(`meet_of_seam`). For the other, a rectangle and a box that lie apart in this way are shown
to have such a point, with a latitude that they share (`LatsMeet.exists`).
-/

namespace RasterH3.Agg

open Raster

variable {F : Type} [Field F] [LinearOrder F]

/-- Rectangle and box have a latitude in common. -/
structure LatsMeet (rect : Bounds F) (bbox : Bbox F) : Prop where
  rectHeight : rect.minLat ≤ rect.maxLat
  boxHeight : bbox.minLat ≤ bbox.maxLat
  south : rect.minLat ≤ bbox.maxLat
  north : bbox.minLat ≤ rect.maxLat

/-- The rectangle has the antimeridian and the box keeps it, but not under that name. -/
def SeamApart (rect : Bounds F) (bbox : Bbox F) : Prop :=
  if bbox.minLon ≤ bbox.maxLon then
    (rect.minLon = -180 ∨ rect.maxLon = 180) ∧ 180 ≤ bbox.maxLon ∧ rect.maxLon < bbox.minLon ∨
      rect.maxLon = 180 ∧ bbox.minLon ≤ -180 ∧ -180 ≤ bbox.maxLon ∧ bbox.maxLon < rect.minLon
  else rect.maxLon = 180 ∧ 180 < bbox.minLon ∧ -180 ≤ bbox.maxLon ∧ bbox.maxLon < rect.minLon

instance (rect : Bounds F) (bbox : Bbox F) : Decidable (SeamApart rect bbox) := by
  unfold SeamApart
  infer_instance

structure Contains (rect : Bounds F) (lon lat : F) : Prop where
  west : rect.minLon ≤ lon
  east : lon ≤ rect.maxLon
  south : rect.minLat ≤ lat
  north : lat ≤ rect.maxLat

variable [FloorRing F]

/-- The rectangle test does not reject a rectangle with a point that the box keeps. -/
def PruningSound (rect : Bounds F) (bbox : Bbox F) : Prop :=
  ∀ lon lat, Contains rect lon lat → isPointInBbox lon lat (some bbox) = true →
    rectIntersectsBbox rect bbox = true

variable [IsStrictOrderedRing F]

omit [Field F] [FloorRing F] [IsStrictOrderedRing F] in
theorem LatsMeet.exists {rect : Bounds F} {bbox : Bbox F} (h : LatsMeet rect bbox) :
    ∃ lat, (rect.minLat ≤ lat ∧ lat ≤ rect.maxLat) ∧ bbox.minLat ≤ lat ∧ lat ≤ bbox.maxLat :=
  ⟨max rect.minLat bbox.minLat, ⟨le_max_left _ _, max_le h.rectHeight h.north⟩, le_max_right _ _,
    max_le h.south h.boxHeight⟩

/-- A kept point west of 180 is under the name the rectangle test knows, or at -180. -/
theorem meet_of_lt {rect : Bounds F} {bbox : Bbox F} {lon : F} (hlo : -180 ≤ rect.minLon)
    (hwest : rect.minLon ≤ lon) (heast : lon ≤ rect.maxLon) (hlt : lon < 180)
    (hapart : ¬ SeamApart rect bbox)
    (hkept : if bbox.minLon ≤ bbox.maxLon then
        (bbox.minLon ≤ wrapLon lon ∧ wrapLon lon ≤ bbox.maxLon) ∨
          (wrapLon lon = -180 ∧ 180 ≤ bbox.maxLon)
      else bbox.minLon ≤ wrapLon lon ∨ wrapLon lon ≤ bbox.maxLon) :
    if bbox.minLon ≤ bbox.maxLon then
      rect.minLon ≤ bbox.maxLon ∧ bbox.minLon ≤ rect.maxLon
    else bbox.minLon ≤ rect.maxLon ∨ rect.minLon ≤ bbox.maxLon := by
  rw [wrapLon_of_mem (hlo.trans hwest) hlt] at hkept
  unfold SeamApart at hapart
  split at hkept
  next hplain =>
    rw [if_pos hplain] at hapart ⊢
    rcases hkept with ⟨hmin, hmax⟩ | ⟨rfl, hseam⟩
    · exact ⟨hwest.trans hmax, hmin.trans heast⟩
    · have hmin : rect.minLon = -180 := le_antisymm hwest hlo
      refine ⟨by linarith, not_lt.mp fun hlt => hapart (.inl ⟨.inl hmin, hseam, hlt⟩)⟩
  next hcross =>
    rw [if_neg hcross]
    exact hkept.imp (fun h => h.trans heast) fun h => hwest.trans h

/-- A kept point at 180 is tested as -180. -/
theorem meet_of_seam {rect : Bounds F} {bbox : Bbox F} (hhi : rect.maxLon = 180)
    (hne : rect.minLon ≤ 180) (hapart : ¬ SeamApart rect bbox)
    (hkept : if bbox.minLon ≤ bbox.maxLon then
        (bbox.minLon ≤ -180 ∧ -180 ≤ bbox.maxLon) ∨ ((-180 : F) = -180 ∧ 180 ≤ bbox.maxLon)
      else bbox.minLon ≤ -180 ∨ -180 ≤ bbox.maxLon) :
    if bbox.minLon ≤ bbox.maxLon then
      rect.minLon ≤ bbox.maxLon ∧ bbox.minLon ≤ rect.maxLon
    else bbox.minLon ≤ rect.maxLon ∨ rect.minLon ≤ bbox.maxLon := by
  unfold SeamApart at hapart
  split at hkept
  next hplain =>
    rw [if_pos hplain] at hapart ⊢
    rcases hkept with ⟨hmin, hmax⟩ | ⟨-, hseam⟩
    · exact ⟨not_lt.mp fun hlt => hapart (.inr ⟨hhi, hmin, hmax, hlt⟩), by linarith⟩
    · exact ⟨hne.trans hseam, not_lt.mp fun hlt => hapart (.inl ⟨.inr hhi, hseam, hlt⟩)⟩
  next hcross =>
    rw [if_neg hcross] at hapart ⊢
    rcases hkept with hmin | hmax
    · exact .inl (by linarith)
    · by_cases hwest : bbox.minLon ≤ 180
      · exact .inl (hhi ▸ hwest)
      · exact .inr (not_lt.mp fun hlt => hapart ⟨hhi, not_le.mp hwest, hmax, hlt⟩)

theorem pruningSound_of_not_apart {rect : Bounds F} {bbox : Bbox F} (hlo : -180 ≤ rect.minLon)
    (hhi : rect.maxLon ≤ 180) (hapart : ¬ SeamApart rect bbox) : PruningSound rect bbox := by
  intro lon lat hin hkept
  obtain ⟨⟨hlat₁, hlat₂⟩, hlon⟩ := isPointInBbox_iff.mp hkept
  rw [rectIntersectsBbox_iff ⟨hin.south.trans hlat₂, hlat₁.trans hin.north⟩]
  rcases lt_or_eq_of_le (hin.east.trans hhi) with hlt | rfl
  · exact meet_of_lt hlo hin.west hin.east hlt hapart hlon
  · rw [wrapLon_seam] at hlon
    exact meet_of_seam (le_antisymm hhi hin.east) hin.west hapart hlon

omit [FloorRing F] [IsStrictOrderedRing F] in
/-- The intervals lie apart, so the rectangle is rejected. -/
theorem rejected_of_apart {rect : Bounds F} {bbox : Bbox F} (hlat : LatsMeet rect bbox)
    (hapart : SeamApart rect bbox) : rectIntersectsBbox rect bbox = false := by
  rw [← Bool.not_eq_true, rectIntersectsBbox_iff ⟨hlat.south, hlat.north⟩]
  unfold SeamApart at hapart
  split
  next hplain =>
    rw [if_pos hplain] at hapart
    rcases hapart with ⟨-, -, hlt⟩ | ⟨-, -, -, hlt⟩
    · exact fun h => absurd h.2 (not_le.mpr hlt)
    · exact fun h => absurd h.1 (not_le.mpr hlt)
  next hcross =>
    rw [if_neg hcross] at hapart
    obtain ⟨hhi, hmin, -, hlt⟩ := hapart
    rintro (h | h)
    · exact absurd h (not_le.mpr (hhi ▸ hmin))
    · exact absurd h (not_le.mpr hlt)

theorem kept_of_apart {rect : Bounds F} {bbox : Bbox F} (hne : rect.minLon ≤ rect.maxLon)
    (hlat : LatsMeet rect bbox) (hapart : SeamApart rect bbox) :
    ∃ lon lat, Contains rect lon lat ∧ isPointInBbox lon lat (some bbox) = true := by
  obtain ⟨lat, hin, hbox⟩ := hlat.exists
  have hwest : wrapLon (-180 : F) = -180 := wrapLon_of_mem le_rfl (by norm_num)
  unfold SeamApart at hapart
  split at hapart
  next hplain =>
    rcases hapart with ⟨hmin | hmax, hseam, -⟩ | ⟨hmax, hfrom, hto, -⟩
    · refine ⟨-180, lat, ⟨hmin.le, hmin ▸ hne, hin.1, hin.2⟩, isPointInBbox_iff.mpr ⟨hbox, ?_⟩⟩
      rw [if_pos hplain, hwest]
      exact .inr ⟨rfl, hseam⟩
    · refine ⟨180, lat, ⟨hmax ▸ hne, hmax.ge, hin.1, hin.2⟩, isPointInBbox_iff.mpr ⟨hbox, ?_⟩⟩
      rw [if_pos hplain, wrapLon_seam]
      exact .inr ⟨rfl, hseam⟩
    · refine ⟨180, lat, ⟨hmax ▸ hne, hmax.ge, hin.1, hin.2⟩, isPointInBbox_iff.mpr ⟨hbox, ?_⟩⟩
      rw [if_pos hplain, wrapLon_seam]
      exact .inl ⟨hfrom, hto⟩
  next hcross =>
    obtain ⟨hmax, -, hto, -⟩ := hapart
    refine ⟨180, lat, ⟨hmax ▸ hne, hmax.ge, hin.1, hin.2⟩, isPointInBbox_iff.mpr ⟨hbox, ?_⟩⟩
    rw [if_neg hcross, wrapLon_seam]
    exact .inr hto

theorem pruningSound_iff {rect : Bounds F} {bbox : Bbox F} (hlo : -180 ≤ rect.minLon)
    (hhi : rect.maxLon ≤ 180) :
    PruningSound rect bbox ↔
      ¬ (rect.minLon ≤ rect.maxLon ∧ LatsMeet rect bbox ∧ SeamApart rect bbox) := by
  constructor
  · rintro hsound ⟨hne, hlat, hapart⟩
    obtain ⟨lon, lat, hin, hkept⟩ := kept_of_apart hne hlat hapart
    have hmeet := hsound lon lat hin hkept
    rw [rejected_of_apart hlat hapart] at hmeet
    cases hmeet
  · intro hcover lon lat hin hkept
    obtain ⟨⟨hlat₁, hlat₂⟩, -⟩ := isPointInBbox_iff.mp hkept
    have hlat : LatsMeet rect bbox := ⟨hin.south.trans hin.north, hlat₁.trans hlat₂,
      hin.south.trans hlat₂, hlat₁.trans hin.north⟩
    exact pruningSound_of_not_apart hlo hhi
      (fun hapart => hcover ⟨hin.west.trans hin.east, hlat, hapart⟩) lon lat hin hkept

/-- A box over the last ten degrees east, and a rectangle that begins where they end. -/
theorem rectangle_at_seam_rejected : ¬ PruningSound (⟨-180, 0, -170, 10⟩ : Bounds ℚ)
    ⟨170, 0, 180, 10⟩ := by
  intro h
  have hmeet := h (-180) 5 ⟨by decide +kernel, by decide +kernel, by decide +kernel,
    by decide +kernel⟩ (by decide +kernel)
  revert hmeet
  decide +kernel

theorem pruningSound_fiji : PruningSound (⟨-180, -20, -170, -10⟩ : Bounds ℚ) ⟨178, -20, -178, -15⟩ :=
  (pruningSound_iff (by decide +kernel) (by decide +kernel)).mpr fun h =>
    absurd h.2.2 (by decide +kernel)

end RasterH3.Agg
