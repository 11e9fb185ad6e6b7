import RasterH3.DataFusion.QueryBox
import RasterH3.Proofs.BboxPruning
import Mathlib.Analysis.SpecialFunctions.Trigonometric.Basic

/-!
# What query boxes keep

A query comes with a box. Before the scan it is widened by a margin in kilometres,
intersected with another box or grown by a distance in degrees, and none of that may drop a
point that the query is entitled to.

On the circle of longitudes a box is one arc, from its western bound eastwards to its
eastern bound, and the point test asks whether some turn of a longitude lies on it
(`isPointInBbox_iff_arc`). A box whose western bound is the greater number crosses the
antimeridian. Widening adds the margin to both ends of the arc, whatever names the new ends
get, so no point within the margin is lost (`expandBbox_keeps`); the margin in longitude is
that of the latitude of the box where a kilometre is most degrees, which asks of the cosine
that it is positive there.

Intersecting compares the ends as numbers. Away from the antimeridian this is the
intersection of the arcs. On the antimeridian it is not when one box has the meridian as 180
and the other as -180: then the meridian is on both arcs and on no interval. `SplitSeam`
says when two boxes split it, `intersection_loses` has the point that is lost, and
`common_lon` shows that nothing else can be: a common longitude is on both intervals, or it
is the meridian and both reach 180.

Growing by a distance in the plane keeps what is within the distance. The three are put
together in `never_drops_iff`, in exact arithmetic.
-/

namespace RasterH3.DataFusion

open Agg Raster

variable {F : Type} [Field F] [LinearOrder F] [IsStrictOrderedRing F] [FloorRing F]
  {bbox : Bbox F} {cosDeg : F → F} {marginKm lon lat : F}

/-! ## Boxes as arcs -/

/-- A turn around the globe changes nothing. -/
theorem wrapLon_add_turns (x : F) (k : Int) : wrapLon (x + 360 * k) = wrapLon x := by
  have hdiv : (x + 360 * k + 180) / 360 = (x + 180) / 360 + k := by
    field_simp
    ring
  unfold wrapLon remEuclid
  rw [hdiv, Int.floor_add_intCast]
  push_cast
  ring

theorem wrapLon_of_turn {x : F} (h₁ : 180 ≤ x) (h₂ : x < 540) : wrapLon x = x - 360 := by
  have hturn := wrapLon_add_turns x (-1)
  rw [← hturn, wrapLon_of_mem] <;> push_cast <;> linarith

def arcEnd (bbox : Bbox F) : F :=
  if bbox.minLon ≤ bbox.maxLon then bbox.maxLon else bbox.maxLon + 360

/-- Some turn of the longitude lies on the arc from `west` to `east`. -/
def OnArc (west east lon : F) : Prop := ∃ k : Int, west ≤ lon + 360 * k ∧ lon + 360 * k ≤ east

structure LonsInRange (bbox : Bbox F) : Prop where
  west : -180 ≤ bbox.minLon ∧ bbox.minLon ≤ 180
  east : -180 ≤ bbox.maxLon ∧ bbox.maxLon ≤ 180

/-- The point test asks whether the longitude is on the arc of the box. -/
theorem isPointInBbox_iff_arc (hrange : LonsInRange bbox) :
    isPointInBbox lon lat (some bbox) = true ↔
      (bbox.minLat ≤ lat ∧ lat ≤ bbox.maxLat) ∧ OnArc bbox.minLon (arcEnd bbox) lon := by
  have hwest := hrange.west
  have heast := hrange.east
  rw [isPointInBbox_iff]
  refine and_congr_right fun _ => ?_
  obtain ⟨k, hk, hlo, hhi⟩ := wrapLon_spec lon
  unfold arcEnd OnArc
  split
  next hplain =>
    refine ⟨fun h => ?_, fun h => ?_⟩
    · rcases h with h | h
      · exact ⟨-k, by push_cast; linarith, by push_cast; linarith⟩
      · -- the meridian under its other name
        exact ⟨1 - k, by push_cast; linarith, by push_cast; linarith⟩
    · rcases h with ⟨n, hn₁, hn₂⟩
      rw [← wrapLon_add_turns lon n]
      rcases lt_or_ge (lon + 360 * n) 180 with hlt | hge
      · rw [wrapLon_of_mem (by linarith) hlt]
        exact .inl ⟨hn₁, hn₂⟩
      · rw [wrapLon_of_turn hge (by linarith)]
        exact .inr ⟨by linarith, by linarith⟩
  next hcross =>
    have hcross := lt_of_not_ge hcross
    refine ⟨fun h => ?_, fun h => ?_⟩
    · rcases h with h | h
      · exact ⟨-k, by push_cast; linarith, by push_cast; linarith⟩
      · exact ⟨1 - k, by push_cast; linarith, by push_cast; linarith⟩
    · rcases h with ⟨n, hn₁, hn₂⟩
      rw [← wrapLon_add_turns lon n]
      rcases lt_or_ge (lon + 360 * n) 180 with hlt | hge
      · rw [wrapLon_of_mem (by linarith) hlt]
        exact .inl hn₁
      · rw [wrapLon_of_turn hge (by linarith)]
        exact .inr (by linarith)

/-- A box from -180 to 180 has every longitude. -/
theorem globe_keeps {lo hi : F} (hlat : lo ≤ lat ∧ lat ≤ hi) :
    isPointInBbox lon lat (some ⟨-180, lo, 180, hi⟩) = true := by
  obtain ⟨k, -, hlo, hhi⟩ := wrapLon_spec lon
  rw [isPointInBbox_iff]
  refine ⟨hlat, ?_⟩
  rw [if_pos (by norm_num)]
  exact .inl ⟨hlo, hhi.le⟩

/-! ## Widening -/

/-- A box whose corners are on the globe, the southern ones below. -/
structure InRange (bbox : Bbox F) : Prop where
  corners : inRange bbox.minLon bbox.minLat ∧ inRange bbox.maxLon bbox.maxLat
  lats : bbox.minLat ≤ bbox.maxLat

omit [IsStrictOrderedRing F] [FloorRing F] in
theorem InRange.lons (h : InRange bbox) : LonsInRange bbox :=
  ⟨h.corners.1.1, h.corners.2.1⟩

/-- The longitudes differ by at most the margin, up to turns. -/
def LonWithin (margin lon lon' : F) : Prop := ∃ k : Int, |lon + 360 * k - lon'| ≤ margin

/-- The point is within the margins of a point that the box keeps. -/
def WithinMargins (cosDeg : F → F) (bbox : Bbox F) (marginKm lon lat : F) : Prop :=
  ∃ lon' lat', isPointInBbox lon' lat' (some bbox) = true ∧ |lat - lat'| ≤ latMargin marginKm ∧
    LonWithin (lonMargin cosDeg bbox marginKm) lon lon'

omit [FloorRing F] in
theorem widenedLats_keep {lat' : F} (hlat : -90 ≤ lat ∧ lat ≤ 90)
    (hbox : bbox.minLat ≤ lat' ∧ lat' ≤ bbox.maxLat) (hwithin : |lat - lat'| ≤ latMargin marginKm) :
    (widenedLats bbox marginKm).1 ≤ lat ∧ lat ≤ (widenedLats bbox marginKm).2 := by
  have habs := abs_le.mp hwithin
  exact ⟨max_le (by linarith) hlat.1, le_min (by linarith) hlat.2⟩

omit [FloorRing F] in
theorem onArc_widen {west east margin lon' : F} (h : OnArc west east lon')
    (hwithin : LonWithin margin lon lon') : OnArc (west - margin) (east + margin) lon := by
  rcases h with ⟨k, hwest, heast⟩
  rcases hwithin with ⟨n, hn⟩
  have habs := abs_le.mp hn
  exact ⟨n + k, by push_cast; linarith, by push_cast; linarith⟩

omit [FloorRing F] in
theorem OnArc.turn {west east west' east' : F} (k : Int) (h : OnArc west east lon)
    (hwest : west' = west + 360 * k) (heast : east' = east + 360 * k) : OnArc west' east' lon := by
  rcases h with ⟨n, h₁, h₂⟩
  exact ⟨n + k, by push_cast; linarith, by push_cast; linarith⟩

omit [IsStrictOrderedRing F] [FloorRing F] in
theorem span_eq (bbox : Bbox F) : span bbox = arcEnd bbox - bbox.minLon := by
  unfold span arcEnd
  rcases lt_or_ge bbox.maxLon bbox.minLon with h | h
  · rw [if_pos h, if_neg (not_le.mpr h)]
  · rw [if_neg (not_lt.mpr h), if_pos h]

/-- The ends of a widened arc, under the names that they get. -/
theorem widened_keeps {margin lo hi : F} (hrange : LonsInRange bbox) (hmargin : 0 ≤ margin)
    (hspan : span bbox + 2 * margin < 360) (hlat : lo ≤ lat ∧ lat ≤ hi)
    (harc : OnArc (bbox.minLon - margin) (arcEnd bbox + margin) lon) :
    isPointInBbox lon lat (some
      { minLon := if bbox.minLon - margin < -180 then bbox.minLon - margin + 360
          else bbox.minLon - margin
        minLat := lo
        maxLon := if 180 < bbox.maxLon + margin then bbox.maxLon + margin - 360
          else bbox.maxLon + margin
        maxLat := hi }) = true := by
  have hwest := hrange.west
  have heast := hrange.east
  rw [span_eq] at hspan
  unfold arcEnd at hspan harc
  by_cases hplain : bbox.minLon ≤ bbox.maxLon
  · rw [if_pos hplain] at hspan harc
    by_cases hlo : bbox.minLon - margin < -180
    · have hhi : ¬ 180 < bbox.maxLon + margin := by linarith
      rw [if_pos hlo, if_neg hhi, isPointInBbox_iff_arc ⟨⟨by linarith, by linarith⟩, by linarith, by linarith⟩]
      refine ⟨hlat, harc.turn 1 (by push_cast; ring) ?_⟩
      rw [arcEnd, if_neg (by simp only [not_le]; linarith)]
      push_cast
      ring
    · by_cases hhi : 180 < bbox.maxLon + margin
      · rw [if_neg hlo, if_pos hhi, isPointInBbox_iff_arc ⟨⟨by linarith, by linarith⟩, by linarith, by linarith⟩]
        refine ⟨hlat, harc.turn 0 (by push_cast; ring) ?_⟩
        rw [arcEnd, if_neg (by simp only [not_le]; linarith)]
        push_cast
        ring
      · rw [if_neg hlo, if_neg hhi, isPointInBbox_iff_arc ⟨⟨by linarith, by linarith⟩, by linarith, by linarith⟩]
        refine ⟨hlat, harc.turn 0 (by push_cast; ring) ?_⟩
        rw [arcEnd, if_pos (by simp only; linarith)]
        push_cast
        ring
  · rw [if_neg hplain] at hspan harc
    have hcross := lt_of_not_ge hplain
    have hlo : ¬ bbox.minLon - margin < -180 := by linarith
    have hhi : ¬ 180 < bbox.maxLon + margin := by linarith
    rw [if_neg hlo, if_neg hhi, isPointInBbox_iff_arc ⟨⟨by linarith, by linarith⟩, by linarith, by linarith⟩]
    refine ⟨hlat, harc.turn 0 (by push_cast; ring) ?_⟩
    rw [arcEnd, if_neg (by simp only [not_le]; linarith)]
    push_cast
    ring

/-- A widened box keeps every point of the globe within the margins. -/
theorem expandBbox_keeps (hcos : ∀ x : F, 0 ≤ x → x < polarLat → 0 < cosDeg x)
    (hrange : InRange bbox) (hmargin : 0 < marginKm) :
    ∃ out, expandBbox cosDeg bbox marginKm = some out ∧
      ∀ lon lat, -90 ≤ lat ∧ lat ≤ 90 → WithinMargins cosDeg bbox marginKm lon lat →
        isPointInBbox lon lat (some out) = true := by
  unfold expandBbox
  rw [if_neg (by simp [hrange.corners, hrange.lats])]
  simp only []
  split
  next =>
    refine ⟨_, rfl, fun lon lat hlat h => ?_⟩
    rcases h with ⟨lon', lat', hkept, hnear, -⟩
    exact globe_keeps (widenedLats_keep hlat (isPointInBbox_iff.mp hkept).1 hnear)
  next hpolar =>
    have hpos : 0 < lonMargin cosDeg bbox marginKm := by
      refine div_pos hmargin (mul_pos (by norm_num [kmPerDegLonEquator]) (hcos _ ?_ ?_))
      · exact le_max_of_le_left (abs_nonneg _)
      · exact lt_of_not_ge hpolar
    split
    next =>
      refine ⟨_, rfl, fun lon lat hlat h => ?_⟩
      rcases h with ⟨lon', lat', hkept, hnear, -⟩
      exact globe_keeps (widenedLats_keep hlat (isPointInBbox_iff.mp hkept).1 hnear)
    next hspan =>
      refine ⟨_, rfl, fun lon lat hlat h => ?_⟩
      rcases h with ⟨lon', lat', hkept, hnear, hlon⟩
      have harc := (isPointInBbox_iff_arc hrange.lons).mp hkept
      exact widened_keeps hrange.lons hpos.le (lt_of_not_ge hspan)
        (widenedLats_keep hlat harc.1 hnear) (onArc_widen harc.2 hlon)

/-! ## Intersecting -/

/-- The box has the antimeridian as its eastern bound only. -/
def EasternSeam (bbox : Bbox F) : Prop := -180 < bbox.minLon ∧ 180 ≤ bbox.maxLon

/-- The box has the antimeridian as its western bound only. -/
def WesternSeam (bbox : Bbox F) : Prop :=
  bbox.minLon ≤ -180 ∧ -180 ≤ bbox.maxLon ∧ bbox.maxLon < 180

/-- Both boxes reach the antimeridian from the west, and lie apart beyond it. -/
def BeyondSeam (a b : Bbox F) : Prop :=
  180 ≤ min a.maxLon b.maxLon ∧ min a.maxLon b.maxLon < max a.minLon b.minLon

/-- Two plain boxes with a latitude in common have the antimeridian on opposite sides, or
are out of the range of longitudes and lie apart there. -/
structure SplitSeam (a b : Bbox F) : Prop where
  plain : a.minLon ≤ a.maxLon ∧ b.minLon ≤ b.maxLon
  lats : max a.minLat b.minLat ≤ min a.maxLat b.maxLat
  sides : EasternSeam a ∧ WesternSeam b ∨ WesternSeam a ∧ EasternSeam b ∨ BeyondSeam a b

/-- What both boxes keep is kept by their intersection; without one, they keep nothing
in common. -/
def IntersectionKeeps (a b : Bbox F) : Prop :=
  ∀ lon lat, isPointInBbox lon lat (some a) = true → isPointInBbox lon lat (some b) = true →
    ∃ out, intersectBbox a b = some out ∧ isPointInBbox lon lat (some out) = true

omit [IsStrictOrderedRing F] [FloorRing F] in
/-- A meridian on both boxes, but not on the interval of either name, is on their sides. -/
theorem sides_of_lost {a b : Bbox F} (hwest : a.minLon ≤ -180 ∧ -180 ≤ a.maxLon)
    (heast : 180 ≤ b.maxLon) (hb : -180 ≤ b.maxLon)
    (hminus : ¬ (max a.minLon b.minLon ≤ -180 ∧ -180 ≤ min a.maxLon b.maxLon))
    (hplus : ¬ 180 ≤ min a.maxLon b.maxLon) : WesternSeam a ∧ EasternSeam b := by
  refine ⟨⟨hwest.1, hwest.2, ?_⟩, ?_, heast⟩
  · exact lt_of_not_ge fun h => hplus (le_min h heast)
  · exact lt_of_not_ge fun h => hminus ⟨max_le hwest.1 h, le_min hwest.2 hb⟩

/-- The common longitude is on both intervals, or it is the meridian and both reach 180. -/
theorem common_lon {a b : Bbox F} {w : F} (hsides : ¬ (EasternSeam a ∧ WesternSeam b ∨
      WesternSeam a ∧ EasternSeam b ∨ BeyondSeam a b))
    (hina : (a.minLon ≤ w ∧ w ≤ a.maxLon) ∨ (w = -180 ∧ 180 ≤ a.maxLon))
    (hinb : (b.minLon ≤ w ∧ w ≤ b.maxLon) ∨ (w = -180 ∧ 180 ≤ b.maxLon)) :
    (max a.minLon b.minLon ≤ w ∧ w ≤ min a.maxLon b.maxLon) ∨
      (w = -180 ∧ 180 ≤ min a.maxLon b.maxLon) := by
  by_contra hnot
  rcases not_or.mp hnot with ⟨hminus, hplus⟩
  rcases hina with hina | ⟨rfl, hina⟩
  · rcases hinb with hinb | ⟨rfl, hinb⟩
    · exact hminus ⟨max_le hina.1 hinb.1, le_min hina.2 hinb.2⟩
    · exact hsides (.inr (.inl (sides_of_lost hina hinb (by linarith) hminus
        fun h => hplus ⟨rfl, h⟩)))
  · rcases hinb with hinb | hinb
    · rw [max_comm, min_comm] at hminus
      have hlost := sides_of_lost hinb hina (by linarith) hminus
        fun h => hplus ⟨rfl, min_comm a.maxLon b.maxLon ▸ h⟩
      exact hsides (.inl ⟨hlost.2, hlost.1⟩)
    · exact hplus ⟨rfl, le_min hina hinb.2⟩

theorem intersection_keeps {a b : Bbox F} (hsplit : ¬ SplitSeam a b) : IntersectionKeeps a b := by
  intro lon lat hina hinb
  unfold intersectBbox
  split
  next => exact ⟨a, rfl, hina⟩
  next hplain =>
    rw [not_or, not_lt, not_lt] at hplain
    rw [isPointInBbox_iff, if_pos hplain.1] at hina
    rw [isPointInBbox_iff, if_pos hplain.2] at hinb
    have hlat : max a.minLat b.minLat ≤ lat ∧ lat ≤ min a.maxLat b.maxLat :=
      ⟨max_le hina.1.1 hinb.1.1, le_min hina.1.2 hinb.1.2⟩
    have hsides : ¬ (EasternSeam a ∧ WesternSeam b ∨ WesternSeam a ∧ EasternSeam b ∨
        BeyondSeam a b) := fun h => hsplit ⟨hplain, hlat.1.trans hlat.2, h⟩
    have hlon := common_lon hsides hina.2 hinb.2
    have horder : max a.minLon b.minLon ≤ min a.maxLon b.maxLon := by
      rcases hlon with h | h
      · exact h.1.trans h.2
      · exact le_of_not_gt fun hlt => hsides (.inr (.inr ⟨h.2, hlt⟩))
    rw [if_pos ⟨horder, hlat.1.trans hlat.2⟩]
    refine ⟨_, rfl, isPointInBbox_iff.mpr ⟨hlat, ?_⟩⟩
    rw [if_pos horder]
    exact hlon

/-- The meridian itself is lost where two boxes split it. -/
theorem intersection_loses {a b : Bbox F} (hsplit : SplitSeam a b) : ¬ IntersectionKeeps a b := by
  intro hkeeps
  rcases hsplit with ⟨hplain, hlats, hsides⟩
  have hseam : wrapLon (-180 : F) = -180 := wrapLon_of_mem le_rfl (by norm_num)
  have hlata : a.minLat ≤ max a.minLat b.minLat ∧ max a.minLat b.minLat ≤ a.maxLat :=
    ⟨le_max_left _ _, hlats.trans (min_le_left _ _)⟩
  have hlatb : b.minLat ≤ max a.minLat b.minLat ∧ max a.minLat b.minLat ≤ b.maxLat :=
    ⟨le_max_right _ _, hlats.trans (min_le_right _ _)⟩
  have hkept : ∀ c : Bbox F, c.minLon ≤ c.maxLon → c.minLat ≤ max a.minLat b.minLat ∧
      max a.minLat b.minLat ≤ c.maxLat → EasternSeam c ∨ WesternSeam c ∨ 180 ≤ c.maxLon →
        isPointInBbox (-180) (max a.minLat b.minLat) (some c) = true := by
    intro c hc hlat hside
    rw [isPointInBbox_iff, if_pos hc, hseam]
    rcases hside with h | h | h
    · exact ⟨hlat, .inr ⟨rfl, h.2⟩⟩
    · exact ⟨hlat, .inl ⟨h.1, h.2.1⟩⟩
    · exact ⟨hlat, .inr ⟨rfl, h⟩⟩
  have hboth : (EasternSeam a ∨ WesternSeam a ∨ 180 ≤ a.maxLon) ∧
      (EasternSeam b ∨ WesternSeam b ∨ 180 ≤ b.maxLon) := by
    rcases hsides with h | h | h
    · exact ⟨.inl h.1, .inr (.inl h.2)⟩
    · exact ⟨.inr (.inl h.1), .inl h.2⟩
    · exact ⟨.inr (.inr (h.1.trans (min_le_left _ _))), .inr (.inr (h.1.trans (min_le_right _ _)))⟩
  rcases hkeeps _ _ (hkept a hplain.1 hlata hboth.1) (hkept b hplain.2 hlatb hboth.2) with
    ⟨out, hout, hin⟩
  unfold intersectBbox at hout
  rw [if_neg (by simp [hplain])] at hout
  simp only [] at hout
  split at hout
  next horder =>
    cases hout
    rw [isPointInBbox_iff, if_pos horder.1, hseam] at hin
    rcases hsides with h | h | h
    · rcases hin.2 with hin | hin
      · exact absurd ((le_max_left _ _).trans hin.1) (not_le.mpr h.1.1)
      · exact absurd (hin.2.trans (min_le_right _ _)) (not_le.mpr h.2.2.2)
    · rcases hin.2 with hin | hin
      · exact absurd ((le_max_right _ _).trans hin.1) (not_le.mpr h.2.1)
      · exact absurd (hin.2.trans (min_le_left _ _)) (not_le.mpr h.1.2.2)
    · exact absurd horder.1 (not_le.mpr h.2)
  next => cases hout

/-! ## Growing -/

/-- The point is within a planar distance of a point of the envelope. -/
def WithinDistance (envelope : Bbox F) (distance lon lat : F) : Prop :=
  ∃ lon' lat', (envelope.minLon ≤ lon' ∧ lon' ≤ envelope.maxLon) ∧
    (envelope.minLat ≤ lat' ∧ lat' ≤ envelope.maxLat) ∧
      (lon - lon') ^ 2 + (lat - lat') ^ 2 ≤ distance ^ 2

omit [FloorRing F] in
theorem grow_keeps {envelope out : Bbox F} {distance : F} (hdistance : 0 ≤ distance)
    (hgrow : grow envelope distance = some out) (hglobe : inRange lon lat)
    (hwithin : WithinDistance envelope distance lon lat) :
    (out.minLon ≤ lon ∧ lon ≤ out.maxLon) ∧ out.minLat ≤ lat ∧ lat ≤ out.maxLat := by
  unfold grow at hgrow
  split at hgrow
  next => cases hgrow
  next =>
    cases hgrow
    rcases hwithin with ⟨lon', lat', hlon, hlat, hdist⟩
    have hx : |lon - lon'| ≤ distance :=
      abs_le_of_sq_le_sq (by linarith [sq_nonneg (lat - lat')]) hdistance
    have hy : |lat - lat'| ≤ distance :=
      abs_le_of_sq_le_sq (by linarith [sq_nonneg (lon - lon')]) hdistance
    rw [abs_le] at hx hy
    exact ⟨⟨max_le (by linarith) hglobe.1.1, le_min (by linarith) hglobe.1.2⟩,
      max_le (by linarith) hglobe.2.1, le_min (by linarith) hglobe.2.2⟩

/-- On the globe the point test keeps what lies in a plain box. -/
theorem isPointInBbox_of_mem (hglobe : inRange lon lat)
    (hlon : bbox.minLon ≤ lon ∧ lon ≤ bbox.maxLon) (hlat : bbox.minLat ≤ lat ∧ lat ≤ bbox.maxLat) :
    isPointInBbox lon lat (some bbox) = true := by
  rw [isPointInBbox_iff, if_pos (hlon.1.trans hlon.2)]
  refine ⟨hlat, ?_⟩
  rcases lt_or_eq_of_le hglobe.1.2 with hlt | rfl
  · rw [wrapLon_of_mem hglobe.1.1 hlt]
    exact .inl hlon
  · exact .inr ⟨wrapLon_seam, hlon.2⟩

/-! ## All three -/

/-- No point is dropped by widening a box, by intersecting two boxes, or by growing an
envelope. -/
structure NeverDrops (cosDeg : F → F) (bbox : Bbox F) (marginKm : F) (a b envelope : Bbox F)
    (distance : F) : Prop where
  expand : ∃ out, expandBbox cosDeg bbox marginKm = some out ∧
    ∀ lon lat, -90 ≤ lat ∧ lat ≤ 90 → WithinMargins cosDeg bbox marginKm lon lat →
      isPointInBbox lon lat (some out) = true
  intersect : IntersectionKeeps a b
  grow : ∀ out, grow envelope distance = some out →
    ∀ lon lat, inRange lon lat → WithinDistance envelope distance lon lat →
      ((out.minLon ≤ lon ∧ lon ≤ out.maxLon) ∧ out.minLat ≤ lat ∧ lat ≤ out.maxLat) ∧
        isPointInBbox lon lat (some out) = true

/-- Points are dropped exactly where an intersection splits the antimeridian. -/
theorem never_drops_iff (hcos : ∀ x : F, 0 ≤ x → x < polarLat → 0 < cosDeg x)
    (hrange : InRange bbox) (hmargin : 0 < marginKm) (a b envelope : Bbox F) {distance : F}
    (hdistance : 0 ≤ distance) :
    NeverDrops cosDeg bbox marginKm a b envelope distance ↔ ¬ SplitSeam a b := by
  refine ⟨fun h hsplit => intersection_loses hsplit h.intersect, fun hsplit => ?_⟩
  refine { expand := expandBbox_keeps hcos hrange hmargin, intersect := intersection_keeps hsplit,
           grow := ?_ }
  intro out hgrow lon lat hglobe hwithin
  have hmem := grow_keeps hdistance hgrow hglobe hwithin
  exact ⟨hmem, isPointInBbox_of_mem hglobe hmem.1 hmem.2⟩

/-- With the cosine itself: a box of middle latitudes that is widened by a hundred kilometres,
two boxes in Europe, and an envelope that grows by a degree. -/
theorem never_drops_away_from_seam :
    NeverDrops (fun x => Real.cos (x * (Real.pi / 180))) (⟨-30, 40, -20, 50⟩ : Bbox ℝ) 100
      ⟨10, 40, 20, 50⟩ ⟨15, 45, 30, 48⟩ ⟨5, 45, 6, 46⟩ 1 := by
  have hcos : ∀ x : ℝ, 0 ≤ x → x < polarLat → 0 < Real.cos (x * (Real.pi / 180)) := by
    intro x hx hpolar
    have hpi := Real.pi_pos
    refine Real.cos_pos_of_mem_Ioo ⟨?_, ?_⟩
    · have : 0 ≤ x * (Real.pi / 180) := by positivity
      linarith
    · have : x * (Real.pi / 180) < 89 * (Real.pi / 180) :=
        mul_lt_mul_of_pos_right hpolar (by positivity)
      linarith
  have hrange : InRange (⟨-30, 40, -20, 50⟩ : Bbox ℝ) := by
    constructor <;> norm_num [inRange]
  refine (never_drops_iff hcos hrange (by norm_num) _ _ _ zero_le_one).mpr fun hsplit => ?_
  have hsides := hsplit.sides
  norm_num [EasternSeam, WesternSeam, BeyondSeam] at hsides

/-- The boxes from 170 to 180 and from -180 to -170 have a meridian in common, and the
scan of both is empty. -/
theorem intersection_at_seam_is_none :
    isPointInBbox (180 : ℚ) 5 (some ⟨170, 0, 180, 10⟩) = true ∧
      isPointInBbox (180 : ℚ) 5 (some ⟨-180, 0, -170, 10⟩) = true ∧
        intersectBbox (⟨170, 0, 180, 10⟩ : Bbox ℚ) ⟨-180, 0, -170, 10⟩ = none := by
  decide +kernel

end RasterH3.DataFusion
