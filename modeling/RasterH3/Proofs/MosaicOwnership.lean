import RasterH3.Raster.Mosaic
import RasterH3.Proofs.BboxPruning
import Mathlib.Data.Prod.Lex

/-!
# Who owns a point of a mosaic

Tiles of a mosaic may overlap, and a sample in several of them must be counted by one. A
scan asks for the owner of each sample, which is slow, and asks beforehand whether a chunk
is near another tile at all.

Both overlap rules order the tiles that contain a point, by distance and index or by index
alone, and the owner is the least of them: there is exactly one. The plan of a mosaic lets
the chunks that no other tile comes near skip the test. It compares bounds as plain
intervals, while `contains` takes the longitudes 180 and -180 for one meridian, so a tile
that ends at 180 and one that starts at -180 share points and are reported apart.

The report rests on the bounds of the chunk as well. Whatever tile contains a sample has it
in its own bounds, so the two bounds meet there if those of the chunk hold the sample too. A
sample that they lose can be shared and not reported. `Encloses` is what rules that out, and
says it of each kind of projection: WGS84 and Web Mercator satisfy it, and so does
everything whose bounds are not certified, but certified bounds have to be asked for it.
-/

namespace RasterH3.Raster

open Agg

variable {F : Type} [Field F] [LinearOrder F] [FloorRing F]

/-! ## The order of the tiles at a point -/

namespace MosaicReader

/-- The place of a tile among those that contain the point. -/
def rank (unitVector : F × F → UnitVector F) (m : MosaicReader F) (lon lat : F)
    (i : Fin m.tiles.length) : F ×ₗ Nat :=
  match m.overlapRule with
  | .cutline => toLex (chordSq (unitVector (lon, lat)) m.tiles[i].centroidUnit, i.val)
  | _ => toLex (0, i.val)

omit [LinearOrder F] [FloorRing F] in
theorem rank_injective (unitVector : F × F → UnitVector F) (m : MosaicReader F) (lon lat : F) :
    Function.Injective (m.rank unitVector lon lat) := by
  intro i j h
  unfold rank at h
  split at h <;> simpa [Fin.ext_iff] using congrArg (fun r => (ofLex r).2) h

omit [FloorRing F] in
theorem rank_le_first (unitVector : F × F → UnitVector F) {m : MosaicReader F}
    (h : m.overlapRule = .first) (lon lat : F) (i j : Fin m.tiles.length) :
    m.rank unitVector lon lat i ≤ m.rank unitVector lon lat j ↔ i.val ≤ j.val := by
  simp [rank, h, Prod.Lex.toLex_le_toLex]

omit [FloorRing F] in
theorem rank_le_cutline (unitVector : F × F → UnitVector F) {m : MosaicReader F}
    (h : m.overlapRule = .cutline) (lon lat : F) (i j : Fin m.tiles.length) :
    m.rank unitVector lon lat i ≤ m.rank unitVector lon lat j ↔
      chordSq (unitVector (lon, lat)) m.tiles[i].centroidUnit <
          chordSq (unitVector (lon, lat)) m.tiles[j].centroidUnit ∨
        chordSq (unitVector (lon, lat)) m.tiles[i].centroidUnit =
            chordSq (unitVector (lon, lat)) m.tiles[j].centroidUnit ∧ i.val ≤ j.val := by
  simp [rank, h, Prod.Lex.toLex_le_toLex]

/-- An owner that contains the point is the first of the tiles that do. -/
theorem isPointOwnedBy_iff (unitVector : F × F → UnitVector F) {m : MosaicReader F}
    (hrule : m.overlapRule ≠ .average) (i : Fin m.tiles.length) (lon lat : F) :
    m.isPointOwnedBy unitVector i lon lat = true ↔
      ∀ j : Fin m.tiles.length, m.tiles[j].contains lon lat = true →
        m.rank unitVector lon lat i ≤ m.rank unitVector lon lat j := by
  unfold isPointOwnedBy
  split
  next hone =>
    have hone := hone.resolve_right hrule
    refine ⟨fun _ j _ => ?_, fun _ => rfl⟩
    have : i = j := Fin.ext (by omega)
    exact this ▸ le_rfl
  next =>
    split
    next h => exact absurd h hrule
    next hfirst =>
      simp only [Bool.not_eq_true', List.any_eq_false, rank_le_first unitVector hfirst]
      constructor
      · intro h j hj
        by_contra hlt
        refine h m.tiles[j] ?_ hj
        rw [List.mem_take_iff_getElem]
        exact ⟨j, by omega, rfl⟩
      · intro h t ht hc
        obtain ⟨j, hj, rfl⟩ := List.mem_take_iff_getElem.mp ht
        have hle : i.val ≤ j := h ⟨j, by omega⟩ hc
        omega
    next hcutline =>
      simp only [Bool.not_eq_true', List.any_eq_false, rank_le_cutline unitVector hcutline]
      constructor
      · intro h j hj
        by_cases hij : j = i
        · exact hij ▸ Or.inr ⟨rfl, le_rfl⟩
        · have hne : (j : Nat) ≠ i := fun hv => hij (Fin.ext hv)
          have := h (m.tiles[j], j) (List.mem_zipIdx_iff_getElem?.mpr (by simp))
          simp only [hne, if_false, hj, Bool.and_true, decide_eq_true_eq, not_or, not_lt,
            not_and] at this
          rcases lt_or_eq_of_le this.1 with hlt | heq
          · exact Or.inl hlt
          · exact Or.inr ⟨heq, this.2 heq.symm⟩
      · rintro h ⟨t, idx⟩ ht
        have hget : m.tiles[idx]? = some t := List.mem_zipIdx_iff_getElem?.mp ht
        obtain ⟨hidx, rfl⟩ := List.getElem?_eq_some_iff.mp hget
        simp only
        split
        next => exact Bool.false_ne_true
        next hne =>
          simp only [Bool.and_eq_true, decide_eq_true_eq, not_and]
          intro hcloser hc
          rcases h ⟨idx, hidx⟩ hc with hlt | ⟨heq, hle⟩
          · rcases hcloser with hd | ⟨hd, -⟩
            · exact lt_asymm hlt hd
            · exact hlt.ne hd.symm
          · rcases hcloser with hd | ⟨-, hi⟩
            · exact hd.ne heq.symm
            · exact not_lt.mpr hle hi

/-- Every point in some tile has exactly one owner among the tiles it lies in. -/
theorem existsUnique_owner (unitVector : F × F → UnitVector F) {m : MosaicReader F}
    (hrule : m.overlapRule ≠ .average) {lon lat : F}
    (h : ∃ i : Fin m.tiles.length, m.tiles[i].contains lon lat = true) :
    ∃! i : Fin m.tiles.length,
      m.tiles[i].contains lon lat = true ∧ m.isPointOwnedBy unitVector i lon lat = true := by
  simp only [isPointOwnedBy_iff unitVector hrule]
  obtain ⟨i, hi, hleast⟩ := Set.exists_min_image
    {i : Fin m.tiles.length | m.tiles[i].contains lon lat = true} (m.rank unitVector lon lat)
    (Set.toFinite _) h
  refine ⟨i, ⟨hi, hleast⟩, ?_⟩
  rintro j ⟨hj, hjleast⟩
  exact m.rank_injective unitVector lon lat (le_antisymm (hjleast i hi) (hleast j hj))

/-- A tile owns the points that no other tile contains. -/
theorem isPointOwnedBy_of_alone (unitVector : F × F → UnitVector F) {m : MosaicReader F}
    (hrule : m.overlapRule ≠ .average) {i : Fin m.tiles.length} {lon lat : F}
    (h : ∀ j : Fin m.tiles.length, j ≠ i → m.tiles[j].contains lon lat = false) :
    m.isPointOwnedBy unitVector i lon lat = true := by
  rw [isPointOwnedBy_iff unitVector hrule]
  intro j hj
  by_cases hij : j = i
  · exact hij ▸ le_rfl
  · exact absurd hj (ne_true_of_eq_false (h j hij))

end MosaicReader

/-! ## What bounds enclose -/

variable [IsStrictOrderedRing F]

/-- The point lies in the bounds, or on the antimeridian. -/
def Enclosed (b : Bounds F) (lon lat : F) : Prop :=
  (b.minLat ≤ lat ∧ lat ≤ b.maxLat) ∧
    (wrapLon lon ≠ -180 → b.minLon ≤ wrapLon lon ∧ wrapLon lon ≤ b.maxLon)

/-- Two bounds meet as intervals, the second of which may wrap around. -/
def Meet (a b : Bounds F) : Prop :=
  (a.minLat ≤ b.maxLat ∧ b.minLat ≤ a.maxLat) ∧
    if b.minLon ≤ b.maxLon then a.minLon ≤ b.maxLon ∧ b.minLon ≤ a.maxLon
    else b.minLon ≤ a.maxLon ∨ a.minLon ≤ b.maxLon

instance (a b : Bounds F) : Decidable (Meet a b) :=
  inferInstanceAs (Decidable ((_ ∧ _) ∧ _))

omit [IsStrictOrderedRing F] in
theorem enclosed_of_isPointInBbox {b : Bounds F} {lon lat : F} (hb : b.minLon ≤ b.maxLon)
    (h : isPointInBbox lon lat (some b) = true) : Enclosed b lon lat := by
  obtain ⟨hlat, hlon⟩ := isPointInBbox_iff.mp h
  rw [if_pos hb] at hlon
  exact ⟨hlat, fun hne => hlon.resolve_right fun h => hne h.1⟩

omit [IsStrictOrderedRing F] in
/-- A point in both bounds that is not on the antimeridian makes them meet. -/
theorem Enclosed.meet {a b : Bounds F} {lon lat : F} (ha : Enclosed a lon lat)
    (hb : isPointInBbox lon lat (some b) = true) (hne : wrapLon lon ≠ -180) : Meet a b := by
  obtain ⟨hlat, hlon⟩ := isPointInBbox_iff.mp hb
  obtain ⟨hwest, heast⟩ := ha.2 hne
  refine ⟨⟨ha.1.1.trans hlat.2, hlat.1.trans ha.1.2⟩, ?_⟩
  split
  next hplain =>
    rw [if_pos hplain] at hlon
    have hin := hlon.resolve_right fun h => hne h.1
    exact ⟨hwest.trans hin.2, hin.1.trans heast⟩
  next hwraps =>
    rw [if_neg hwraps] at hlon
    exact hlon.imp (fun h => h.trans heast) (fun h => hwest.trans h)

omit [Field F] [FloorRing F] [IsStrictOrderedRing F] in
theorem rectIntersectsBbox_iff_meet {a b : Bounds F} :
    rectIntersectsBbox a b = true ↔ Meet a b := by
  by_cases hlat : a.minLat ≤ b.maxLat ∧ b.minLat ≤ a.maxLat
  · rw [rectIntersectsBbox_iff hlat]
    exact ⟨fun h => ⟨hlat, h⟩, fun h => h.2⟩
  · have hout : b.maxLat < a.minLat ∨ a.maxLat < b.minLat := by
      rcases not_and_or.mp hlat with h | h
      · exact Or.inl (not_le.mp h)
      · exact Or.inr (not_le.mp h)
    rw [rectIntersectsBbox, if_pos hout]
    simp [Meet, hlat]

/-- The interval of one longitude. -/
theorem lonRange_self {x : F} (h : ¬ Wide x x) :
    CrsTransformer.lonRange x x = if x = 180 then (-180, 180) else (x, x) := by
  simp only [Wide, not_or, not_lt] at h
  have hrange : CrsTransformer.cornerRange x x = if x = 180 then (-180, 180) else (x, x) := by
    unfold CrsTransformer.cornerRange
    simp only
    rw [if_neg (by simp [h.1, h.2.1])]
    by_cases hx : x = 180
    · subst hx
      rw [if_pos rfl, if_pos rfl, wrapLon_seam]
      norm_num
    · rw [if_neg hx, if_neg hx, wrapLon_of_mem h.1 (lt_of_le_of_ne h.2.1 hx)]
      norm_num
  rw [CrsTransformer.lonRange, hrange]
  split
  next => norm_num
  next => norm_num

/-- The interval from `lo` to `hi` does not wrap, and holds every longitude between
them but the antimeridian's. -/
theorem lonRange_spec {lo hi x : F} (hlo : lo ≤ x) (hhi : x ≤ hi) :
    (CrsTransformer.lonRange lo hi).1 ≤ (CrsTransformer.lonRange lo hi).2 ∧
      (wrapLon x ≠ -180 → (CrsTransformer.lonRange lo hi).1 ≤ wrapLon x ∧
        wrapLon x ≤ (CrsTransformer.lonRange lo hi).2) := by
  obtain ⟨k, hk, hwlo, hwhi⟩ := wrapLon_spec x
  by_cases hwide : Wide lo hi
  · rw [lonRange_of_wide hwide]
    exact ⟨by norm_num, fun _ => ⟨hwlo, hwhi.le⟩⟩
  · have hplain : wrapLon x ≠ -180 → wrapLon x = x := by
      intro hne
      simp only [Wide, not_or, not_lt] at hwide
      refine wrapLon_of_mem (hwide.1.trans hlo) (lt_of_le_of_ne (hhi.trans hwide.2.1) ?_)
      rintro rfl
      exact hne wrapLon_seam
    rcases lt_or_eq_of_le (hlo.trans hhi) with hlt | rfl
    · rw [lonRange_of_narrow hlt hwide]
      exact ⟨hlt.le, fun hne => by rw [hplain hne]; exact ⟨hlo, hhi⟩⟩
    · obtain rfl : lo = x := le_antisymm hlo hhi
      rw [lonRange_self hwide]
      split
      next => exact ⟨by norm_num, fun _ => ⟨hwlo, hwhi.le⟩⟩
      next => exact ⟨le_rfl, fun hne => by rw [hplain hne]; exact ⟨le_rfl, le_rfl⟩⟩

omit [FloorRing F] in
/-- A linear function on an interval is at most its value at one of the ends. -/
theorem exists_end_ge {lo hi x : F} (hlo : lo ≤ x) (hhi : x ≤ hi) (s : F) :
    ∃ e, (e = lo ∨ e = hi) ∧ x * s ≤ e * s := by
  rcases le_total 0 s with hs | hs
  · exact ⟨hi, Or.inr rfl, mul_le_mul_of_nonneg_right hhi hs⟩
  · exact ⟨lo, Or.inl rfl, mul_le_mul_of_nonpos_right hlo hs⟩

structure InRect (col row width height X Y : F) : Prop where
  west : col ≤ X
  east : X ≤ col + width
  north : row ≤ Y
  south : Y ≤ row + height

omit [FloorRing F] [LinearOrder F] [IsStrictOrderedRing F] in
theorem mem_corners (gt : GeoTransform F) {col row width height X Y : F}
    (hX : X = col ∨ X = col + width) (hY : Y = row ∨ Y = row + height) :
    gt.pixelToCoord X Y ∈ CrsTransformer.corners gt col row width height := by
  rcases hX with rfl | rfl <;> rcases hY with rfl | rfl <;> simp [CrsTransformer.corners]

omit [FloorRing F] in
/-- Linear functions of the position are largest at a corner. -/
theorem InRect.exists_corner_ge {col row width height X Y : F} (h : InRect col row width height X Y)
    (gt : GeoTransform F) (s t : F) :
    ∃ p ∈ CrsTransformer.corners gt col row width height,
      (gt.pixelToCoord X Y).1 * s + (gt.pixelToCoord X Y).2 * t ≤ p.1 * s + p.2 * t := by
  obtain ⟨X', hX', hXle⟩ := exists_end_ge h.west h.east (gt.a * s + gt.d * t)
  obtain ⟨Y', hY', hYle⟩ := exists_end_ge h.north h.south (gt.b * s + gt.e * t)
  refine ⟨gt.pixelToCoord X' Y', mem_corners gt hX' hY', ?_⟩
  simp only [GeoTransform.pixelToCoord]
  linarith

/-- What is relied on of a transformer: latitudes grow with the northing, certified
bounds do not wrap and enclose the image of the rectangle, and a projection yields
latitudes. -/
def Encloses : CrsTransformer F → Prop
  | .wgs84Identity => True
  | .webMercatorFast _ lat => Monotone lat
  | .projected point certified rectBounds =>
      (certified = true → ∀ gt col row width height X Y, InRect col row width height X Y →
        (rectBounds gt col row width height).minLon ≤ (rectBounds gt col row width height).maxLon ∧
          ∀ q, point (gt.pixelToCoord X Y).1 (gt.pixelToCoord X Y).2 = some q →
            isPointInBbox q.1 q.2 (some (rectBounds gt col row width height)) = true) ∧
        ∀ x y q, point x y = some q → -90 ≤ q.2 ∧ q.2 ≤ 90

/-- Bounds from the corners of a rectangle enclose its points. -/
theorem separableBounds_spec (lon lat : F → F) {k : F} (hlon : ∀ x, lon x = x * k)
    (hlat : Monotone lat) (gt : GeoTransform F) {col row width height X Y : F}
    (h : InRect col row width height X Y) :
    (CrsTransformer.separableBounds lon lat gt col row width height).minLon ≤
        (CrsTransformer.separableBounds lon lat gt col row width height).maxLon ∧
      Enclosed (CrsTransformer.separableBounds lon lat gt col row width height)
        (lon (gt.pixelToCoord X Y).1) (lat (gt.pixelToCoord X Y).2) := by
  obtain ⟨w, hw, hwle⟩ := h.exists_corner_ge gt (-k) 0
  obtain ⟨e, he, hele⟩ := h.exists_corner_ge gt k 0
  obtain ⟨s, hs, hsle⟩ := h.exists_corner_ge gt 0 (-1)
  obtain ⟨n, hn, hnle⟩ := h.exists_corner_ge gt 0 1
  have hprobe : ∀ p ∈ CrsTransformer.corners gt col row width height,
      p ∈ CrsTransformer.probes gt col row width height := by
    intro p hp
    exact List.mem_append_left _ hp
  have hwest := List.min_le_of_mem (List.mem_map_of_mem (f := fun p => lon p.1) hw)
  have heast := List.le_max_of_mem (List.mem_map_of_mem (f := fun p => lon p.1) he)
  have hsouth := List.min_le_of_mem (List.mem_map_of_mem (f := fun p => lat p.2) (hprobe s hs))
  have hnorth := List.le_max_of_mem (List.mem_map_of_mem (f := fun p => lat p.2) (hprobe n hn))
  have hspec := lonRange_spec (x := lon (gt.pixelToCoord X Y).1)
    (hwest.trans (by rw [hlon, hlon]; linarith)) (le_trans (by rw [hlon, hlon]; linarith) heast)
  exact ⟨hspec.1, ⟨hsouth.trans (hlat (by linarith)), (hlat (by linarith)).trans hnorth⟩, hspec.2⟩

/-- A point of a pixel rectangle is enclosed by the bounds that may reject it. -/
theorem rejectionBounds_spec {crs : CrsTransformer F} (hcrs : Encloses crs) (gt : GeoTransform F)
    {col row width height X Y : F} (h : InRect col row width height X Y) :
    (crs.rejectionBounds (crs.transformRectBounds gt col row width height)).minLon ≤
        (crs.rejectionBounds (crs.transformRectBounds gt col row width height)).maxLon ∧
      ∀ q, crs.transformPoint (gt.pixelToCoord X Y).1 (gt.pixelToCoord X Y).2 = some q →
        Enclosed (crs.rejectionBounds (crs.transformRectBounds gt col row width height)) q.1 q.2 := by
  cases crs with
  | wgs84Identity =>
      have hspec := separableBounds_spec id id (k := 1) (fun x => by simp) monotone_id gt h
      refine ⟨hspec.1, ?_⟩
      rintro q ⟨⟩
      exact hspec.2
  | webMercatorFast radToDeg lat =>
      have hspec := separableBounds_spec (fun x => x / wgs84A * radToDeg) lat
        (k := radToDeg / wgs84A) (fun x => by ring) hcrs gt h
      refine ⟨hspec.1, ?_⟩
      rintro q ⟨⟩
      exact hspec.2
  | projected point certified rectBounds =>
      cases certified with
      | true =>
          obtain ⟨hle, hin⟩ := hcrs.1 rfl gt col row width height X Y h
          exact ⟨hle, fun q hq => enclosed_of_isPointInBbox hle (hin q hq)⟩
      | false =>
          refine ⟨by norm_num [CrsTransformer.rejectionBounds, CrsTransformer.boundsCertified,
            CrsTransformer.globe], fun q hq => ⟨hcrs.2 _ _ q hq, fun _ => ?_⟩⟩
          obtain ⟨k, hk, hlo, hhi⟩ := wrapLon_spec q.1
          exact ⟨hlo, hhi.le⟩

/-! ## Chunks that skip the test -/

/-- A point that is sampled in a chunk of the tile. -/
def Samples (t : TileDescriptor F) (chunk : RasterChunk) (sampling : SamplingPattern F)
    (lon lat : F) : Prop :=
  ∃ r < chunk.height, ∃ c < chunk.width, ∃ sp ∈ sampling.points,
    t.crsTransformer.transformPoint (samplePoint t.geotransform chunk r c sp).1
      (samplePoint t.geotransform chunk r c sp).2 = some (lon, lat)

namespace TileDescriptor

/-- The bounds of a chunk that are compared with other tiles. -/
def chunkRejectionBounds (t : TileDescriptor F) (chunk : RasterChunk) : Bounds F :=
  t.crsTransformer.rejectionBounds (t.chunkBounds chunk)

theorem enclosed_of_samples {t : TileDescriptor F} (ht : Encloses t.crsTransformer)
    {chunk : RasterChunk} {sampling : SamplingPattern F} {lon lat : F}
    (h : Samples t chunk sampling lon lat) : Enclosed (t.chunkRejectionBounds chunk) lon lat := by
  obtain ⟨r, hr, c, hc, sp, hsp, hp⟩ := h
  obtain ⟨hx₀, hx₁, hy₀, hy₁⟩ := sampling.offsets sp hsp
  have hcw : (c : F) + 1 ≤ chunk.width := by exact_mod_cast hc
  have hrh : (r : F) + 1 ≤ chunk.height := by exact_mod_cast hr
  have hc₀ : (0 : F) ≤ c := Nat.cast_nonneg c
  have hr₀ : (0 : F) ≤ r := Nat.cast_nonneg r
  have hin : InRect (chunk.colOffset : F) chunk.rowOffset chunk.width chunk.height
      ((chunk.colOffset + c : Nat) + sp.dx) ((chunk.rowOffset + r : Nat) + sp.dy) := by
    constructor <;> push_cast <;> linarith
  exact (rejectionBounds_spec ht t.geotransform hin).2 _ hp

omit [IsStrictOrderedRing F] in
theorem inBbox_of_contains {t : TileDescriptor F} {lon lat : F} (h : t.contains lon lat = true) :
    isPointInBbox lon lat (some t.rejectionBounds) = true := by
  unfold contains at h
  split at h
  next => exact absurd h Bool.false_ne_true
  next hin => simpa using hin

end TileDescriptor

namespace MosaicReader

omit [IsStrictOrderedRing F] in
/-- An opened mosaic keeps some of the tiles, in their order, and the rule. -/
theorem openTiles_ok {tiles : List (TileDescriptor F)} {bbox : Option (Bbox F)}
    {overlapRule : OverlapRule} {m : MosaicReader F}
    (h : openTiles tiles bbox overlapRule = .ok m) :
    m.tiles.Sublist tiles ∧ m.tiles ≠ [] ∧ m.overlapRule = overlapRule ∧ m.bbox = bbox := by
  unfold openTiles at h
  split at h
  next => cases h
  next =>
    simp only at h
    split at h
    next => cases h
    next hkept =>
      cases h
      exact ⟨List.filter_sublist, by simpa using hkept, rfl, rfl⟩

omit [IsStrictOrderedRing F] in
theorem hasOverlap_iff {m : MosaicReader F} (hrule : m.overlapRule ≠ .average)
    (i : Fin m.tiles.length) (chunk : RasterChunk) :
    m.hasOverlap i m.tiles[i] chunk = true ↔ ∃ j : Fin m.tiles.length, j ≠ i ∧
      Meet (m.tiles[i].chunkRejectionBounds chunk) m.tiles[j].rejectionBounds := by
  unfold hasOverlap
  split
  next =>
    simp only [List.any_eq_true, Bool.and_eq_true, decide_eq_true_eq]
    constructor
    · rintro ⟨⟨t, idx⟩, ht, hne, hmeet⟩
      have hget : m.tiles[idx]? = some t := List.mem_zipIdx_iff_getElem?.mp ht
      obtain ⟨hidx, rfl⟩ := List.getElem?_eq_some_iff.mp hget
      exact ⟨⟨idx, hidx⟩, fun h => hne (congrArg Fin.val h), rectIntersectsBbox_iff_meet.mp hmeet⟩
    · rintro ⟨j, hne, hmeet⟩
      exact ⟨(m.tiles[j], j), List.mem_zipIdx_iff_getElem?.mpr (by simp),
        fun h => hne (Fin.ext h), rectIntersectsBbox_iff_meet.mpr hmeet⟩
  next hone =>
    simp only [Bool.false_eq_true, false_iff, not_exists]
    rintro j ⟨hne, -⟩
    have : 1 < m.tiles.length := by
      have := Fin.val_ne_of_ne hne
      omega
    exact hone ⟨this, hrule⟩

omit [IsStrictOrderedRing F] in
theorem mem_chunkRefs {m : MosaicReader F} {ref : MosaicChunkRef F} (h : ref ∈ m.chunkRefs)
    {i : Fin m.tiles.length} (hi : ref.tileIdx = i) :
    ref.chunk ∈ m.tiles[i].chunkLayout ∧
      ref.hasOverlap = m.hasOverlap i m.tiles[i] ref.chunk := by
  rw [chunkRefs, List.mem_mergeSort, List.mem_flatMap] at h
  obtain ⟨⟨t, idx⟩, ht, h⟩ := h
  have hget : m.tiles[idx]? = some t := List.mem_zipIdx_iff_getElem?.mp ht
  rw [tileChunks, List.mem_filterMap] at h
  obtain ⟨⟨chunk, k⟩, hchunk, hp⟩ := h
  simp only at hp hchunk
  split at hp
  next =>
    obtain rfl := Option.some.inj hp
    obtain rfl : idx = i := hi
    obtain rfl : m.tiles[i] = t := by simpa using hget
    exact ⟨List.fst_mem_of_mem_zipIdx hchunk, rfl⟩
  next => exact absurd hp (by simp)

omit [IsStrictOrderedRing F] in
/-- Without a query box every chunk is planned. -/
theorem exists_mem_chunkRefs {m : MosaicReader F} (hbbox : m.bbox = none) (i : Fin m.tiles.length)
    {chunk : RasterChunk} (h : chunk ∈ m.tiles[i].chunkLayout) :
    ∃ ref ∈ m.chunkRefs, ref.tileIdx = i ∧ ref.chunk = chunk := by
  obtain ⟨k, hk, rfl⟩ := List.mem_iff_getElem.mp h
  simp only [chunkRefs, List.mem_mergeSort, List.mem_flatMap, tileChunks, List.mem_filterMap]
  refine ⟨_, ⟨(m.tiles[i], i), List.mem_zipIdx_iff_getElem?.mpr (by simp),
    (m.tiles[i].chunkLayout[k], k), List.mem_zipIdx_iff_getElem?.mpr (by simp),
    if_pos (by simp [hbbox])⟩, rfl, rfl⟩

/-- A chunk that is reported without overlap shares no sample with another tile, and
owns all of them. -/
def OverlapReported (unitVector : F × F → UnitVector F) (m : MosaicReader F)
    (sampling : SamplingPattern F) (i : Fin m.tiles.length) (ref : MosaicChunkRef F) : Prop :=
  ref.hasOverlap = false → ∀ lon lat, Samples m.tiles[i] ref.chunk sampling lon lat →
    (∀ j : Fin m.tiles.length, j ≠ i → m.tiles[j].contains lon lat = false) ∧
      m.isPointOwnedBy unitVector i lon lat = true

/-- A sample that the bounds of its chunk do not answer for: it is on the antimeridian, where two
intervals can share a point and not meet, or the bounds do not hold it. -/
def Strays (b : Bounds F) (lon lat : F) : Prop :=
  wrapLon lon = -180 ∨ ¬ Enclosed b lon lat

/-- Where the chunk shares such a sample with another tile, its bounds meet those of some other
tile. -/
def StraysReported (m : MosaicReader F) (sampling : SamplingPattern F) (i : Fin m.tiles.length)
    (ref : MosaicChunkRef F) : Prop :=
  ∀ lon lat, Samples m.tiles[i] ref.chunk sampling lon lat →
    Strays (m.tiles[i].chunkRejectionBounds ref.chunk) lon lat →
    (∃ j : Fin m.tiles.length, j ≠ i ∧ m.tiles[j].contains lon lat = true) →
      ∃ j : Fin m.tiles.length, j ≠ i ∧
        Meet (m.tiles[i].chunkRejectionBounds ref.chunk) m.tiles[j].rejectionBounds

omit [IsStrictOrderedRing F] in
theorem overlapReported_iff (unitVector : F × F → UnitVector F) {m : MosaicReader F}
    (hrule : m.overlapRule ≠ .average) (sampling : SamplingPattern F) {ref : MosaicChunkRef F}
    (href : ref ∈ m.chunkRefs) {i : Fin m.tiles.length} (hi : ref.tileIdx = i) :
    m.OverlapReported unitVector sampling i ref ↔ m.StraysReported sampling i ref := by
  have hover := (mem_chunkRefs href hi).2
  have hiff := hasOverlap_iff hrule i ref.chunk
  rw [← hover] at hiff
  constructor
  · rintro h lon lat hs - ⟨j, hne, hj⟩
    rw [← hiff]
    by_contra hno
    exact absurd hj (ne_true_of_eq_false ((h (by simpa using hno) lon lat hs).1 j hne))
  · intro h hno lon lat hs
    have hnone : ¬ ∃ j : Fin m.tiles.length, j ≠ i ∧
        Meet (m.tiles[i].chunkRejectionBounds ref.chunk) m.tiles[j].rejectionBounds := by
      rw [← hiff, hno]
      exact Bool.false_ne_true
    have halone : ∀ j : Fin m.tiles.length, j ≠ i → m.tiles[j].contains lon lat = false := by
      intro j hne
      by_contra hj
      rw [Bool.not_eq_false] at hj
      by_cases hstray : Strays (m.tiles[i].chunkRejectionBounds ref.chunk) lon lat
      · exact hnone (h lon lat hs hstray ⟨j, hne, hj⟩)
      · obtain ⟨hseam, hown⟩ := not_or.mp hstray
        exact hnone ⟨j, hne, (not_not.mp hown).meet (TileDescriptor.inBbox_of_contains hj) hseam⟩
    exact ⟨halone, isPointOwnedBy_of_alone unitVector hrule halone⟩

/-- Under a projection that encloses its rectangles, only samples on the antimeridian stray. -/
theorem strays_iff_seam {t : TileDescriptor F} (ht : Encloses t.crsTransformer)
    {chunk : RasterChunk} {sampling : SamplingPattern F} {lon lat : F}
    (h : Samples t chunk sampling lon lat) :
    Strays (t.chunkRejectionBounds chunk) lon lat ↔ wrapLon lon = -180 :=
  ⟨fun hstray => hstray.resolve_right (not_not.mpr (TileDescriptor.enclosed_of_samples ht h)),
    Or.inl⟩

/-- Every point of a mosaic has one owner, and the chunks that skip the test of ownership share
no sample, exactly when the shared samples that stray are reported. With projections that enclose
their rectangles these are the samples on the antimeridian. -/
theorem assigns_every_point_iff (unitVector : F × F → UnitVector F) {m : MosaicReader F}
    (hrule : m.overlapRule ≠ .average) (sampling : SamplingPattern F) :
    (((∀ lon lat, (∃ i : Fin m.tiles.length, m.tiles[i].contains lon lat = true) →
        ∃! i : Fin m.tiles.length, m.tiles[i].contains lon lat = true ∧
          m.isPointOwnedBy unitVector i lon lat = true) ∧
      ∀ ref ∈ m.chunkRefs, ∀ i : Fin m.tiles.length, ref.tileIdx = i →
        m.OverlapReported unitVector sampling i ref) ↔
    ∀ ref ∈ m.chunkRefs, ∀ i : Fin m.tiles.length, ref.tileIdx = i →
      m.StraysReported sampling i ref) ∧
    ∀ t ∈ m.tiles, Encloses t.crsTransformer → ∀ chunk lon lat,
      Samples t chunk sampling lon lat →
        (Strays (t.chunkRejectionBounds chunk) lon lat ↔ wrapLon lon = -180) := by
  refine ⟨⟨?_, ?_⟩, ?_⟩
  · intro h ref href i hi
    exact (overlapReported_iff unitVector hrule sampling href hi).mp (h.2 ref href i hi)
  · intro h
    refine ⟨fun lon lat hin => existsUnique_owner unitVector hrule hin, ?_⟩
    intro ref href i hi
    exact (overlapReported_iff unitVector hrule sampling href hi).mpr (h ref href i hi)
  · intro t _ ht chunk lon lat hs
    exact strays_iff_seam ht hs

/-! ## Two tiles on either side of the antimeridian -/

/-- A north-up tile of one-degree pixels whose north-west corner is at `west`, 0. -/
def degreeTile (west : ℚ) (centroidUnit : UnitVector ℚ) : TileDescriptor ℚ where
  geotransform := ⟨west, 1, 0, 0, 0, -1⟩
  width := 10
  height := 10
  crsTransformer := .wgs84Identity
  wgs84ToSource := fun lon lat => some (wrapLon lon, lat)
  lonPeriod := some (360, 0)
  centroidUnit
  chunkLayout := [⟨0, 0, 10, 10⟩]

def pair (west west' : ℚ) : MosaicReader ℚ where
  tiles := [degreeTile west (1, 0, 0), degreeTile west' (0, 1, 0)]
  overlapRule := .first
  bbox := none

/-- One sample on the eastern edge of each pixel. -/
def eastEdge : SamplingPattern ℚ where
  points := [⟨1, 1 / 2, 1⟩]
  nonempty := by simp
  offsets := by decide +kernel
  weights := by decide +kernel

theorem pair_hasOverlap :
    (pair 170 (-180)).hasOverlap 0 (degreeTile 170 (1, 0, 0)) ⟨0, 0, 10, 10⟩ = false := by
  decide +kernel

theorem pair_samples :
    Samples (degreeTile 170 (1, 0, 0)) ⟨0, 0, 10, 10⟩ eastEdge 180 (-1 / 2) :=
  ⟨0, by decide, 9, by decide, ⟨1, 1 / 2, 1⟩, List.mem_singleton_self _, by decide +kernel⟩

theorem pair_contains : (degreeTile (-180) (0, 1, 0)).contains 180 (-1 / 2) = true := by
  decide +kernel

/-- The last samples of the western tile are at longitude 180, where the eastern tile
begins: both contain them, and no overlap is reported. -/
theorem seam_overlap_unreported :
    ¬ ∀ ref ∈ (pair 170 (-180)).chunkRefs, ∀ i : Fin (pair 170 (-180)).tiles.length,
      ref.tileIdx = i → (pair 170 (-180)).OverlapReported (fun p => (p.1, p.2, 0)) eastEdge i
        ref := by
  intro h
  obtain ⟨ref, href, hidx, hchunk⟩ := exists_mem_chunkRefs (m := pair 170 (-180)) rfl (0 : Fin 2)
    (List.mem_singleton_self (⟨0, 0, 10, 10⟩ : RasterChunk))
  have hno : ref.hasOverlap = false := by
    rw [(mem_chunkRefs href hidx).2, hchunk]
    exact pair_hasOverlap
  have hs : Samples (pair 170 (-180)).tiles[0] ref.chunk eastEdge 180 (-1 / 2) := by
    rw [hchunk]
    exact pair_samples
  have hout := (h ref href _ hidx hno 180 (-1 / 2) hs).1 (1 : Fin 2)
    (show (1 : Fin 2) ≠ 0 by decide)
  exact absurd pair_contains (ne_true_of_eq_false hout)

theorem pair_meet : ∀ i : Fin (pair 0 10).tiles.length, ∃ j : Fin (pair 0 10).tiles.length,
    j ≠ i ∧ Meet ((pair 0 10).tiles[i].chunkRejectionBounds ⟨0, 0, 10, 10⟩)
      (pair 0 10).tiles[j].rejectionBounds := by
  decide +kernel

/-- Tiles that meet elsewhere are reported. -/
theorem assigns_every_point_at_ten_east :
    (∀ lon lat, (∃ i : Fin (pair 0 10).tiles.length, (pair 0 10).tiles[i].contains lon lat = true) →
      ∃! i : Fin (pair 0 10).tiles.length, (pair 0 10).tiles[i].contains lon lat = true ∧
        (pair 0 10).isPointOwnedBy (fun p => (p.1, p.2, 0)) i lon lat = true) ∧
    ∀ ref ∈ (pair 0 10).chunkRefs, ∀ i : Fin (pair 0 10).tiles.length, ref.tileIdx = i →
      (pair 0 10).OverlapReported (fun p => (p.1, p.2, 0)) eastEdge i ref := by
  refine (assigns_every_point_iff (fun p => (p.1, p.2, 0)) (m := pair 0 10) (by decide)
    eastEdge).1.mpr ?_
  intro ref href i hi lon lat _ _ _
  have hlayout : (pair 0 10).tiles[i].chunkLayout = [⟨0, 0, 10, 10⟩] := by
    have htwo : i.val < 2 := i.isLt
    obtain ⟨i, hlt⟩ := i
    interval_cases i <;> rfl
  have hchunk : ref.chunk = ⟨0, 0, 10, 10⟩ :=
    List.mem_singleton.mp (hlayout ▸ (mem_chunkRefs href hi).1)
  rw [hchunk]
  exact pair_meet i

end MosaicReader

end RasterH3.Raster
