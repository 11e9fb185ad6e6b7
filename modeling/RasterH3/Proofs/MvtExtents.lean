import RasterH3.Proofs.MvtGeometry

/-!
# Rings that fit

The corners of an outline are `i32`, and what is done with them has to fit too: the steps of
the cursor into `i32`, the sums of the surveyor's formula into `i64`. Both follow when the
corners lie close enough together. The steps are then short. The sums are taken from the
corner of the tile, which may lie far from the cell, so that one term of the formula is of
the order of the distance times the length of an edge. Seen from the middle of the cell,
though, a term is at most half the square of the cell's extent, and moving the origin there
changes a sum only by what belongs to its two ends.

A ring of ten corners that spans at most `2 ^ 30` pixels fits wherever it lies, and so do
the fourteen corners of a polar cap when the corner of the tile lies on the same map of at
most `2 ^ 30` pixels. A pixel is the 4096th of a tile, so that this is `2 ^ 18` tiles.
-/

namespace RasterH3.Pmtiles.Mvt

/-! ## Sums seen from the middle of a box -/

/-- Twice the corners lie within `d` of `(a, b)`. -/
def Boxed (d a b : Int) (ps : List Pixel) : Prop :=
  ∀ p ∈ ps, |2 * p.1 - a| ≤ d ∧ |2 * p.2 - b| ≤ d

theorem abs_mul_le {d u v : Int} (hu : |u| ≤ d) (hv : |v| ≤ d) : |u * v| ≤ d ^ 2 := by
  rw [abs_mul, sq]
  exact mul_le_mul hu hv (abs_nonneg v) ((abs_nonneg u).trans hu)

/-- Moving the origin to the middle of the box changes a sum by what belongs to its ends. -/
theorem abs_sweep_sub_le {d a b : Int} (p : Pixel) (ps : List Pixel) (h : Boxed d a b (p :: ps)) :
    |4 * sweep (p :: ps) - (2 * b * (p.1 - (ps.getLastD p).1) + 2 * a * ((ps.getLastD p).2 - p.2))|
      ≤ 2 * ps.length * d ^ 2 := by
  induction ps generalizing p with
  | nil => simp [sweep]
  | cons q ps ih =>
      obtain ⟨hp, hrest⟩ := List.forall_mem_cons.mp h
      have hq := hrest q List.mem_cons_self
      have hstep : |(2 * p.1 - a) * (2 * q.2 - b) - (2 * q.1 - a) * (2 * p.2 - b)| ≤ 2 * d ^ 2 := by
        refine (abs_sub _ _).trans ?_
        have h₁ := abs_mul_le hp.1 hq.2
        have h₂ := abs_mul_le hq.1 hp.2
        omega
      have hsum := ih q hrest
      rw [List.getLastD_cons]
      generalize ps.getLastD q = last at hsum ⊢
      have hsplit : 4 * sweep (p :: q :: ps) -
          (2 * b * (p.1 - last.1) + 2 * a * (last.2 - p.2)) =
            ((2 * p.1 - a) * (2 * q.2 - b) - (2 * q.1 - a) * (2 * p.2 - b)) +
              (4 * sweep (q :: ps) - (2 * b * (q.1 - last.1) + 2 * a * (last.2 - q.2))) := by
        rw [sweep, cross]
        ring
      rw [hsplit]
      refine (abs_add_le _ _).trans ((add_le_add hstep hsum).trans_eq ?_)
      rw [List.length_cons]
      push_cast
      ring

/-- A path in the box, of which the ends may lie anywhere. -/
theorem abs_sweep_le {d a b : Int} {p : Pixel} {ps : List Pixel} (h : Boxed d a b (p :: ps)) :
    |4 * sweep (p :: ps)| ≤ 2 * ps.length * d ^ 2 + 2 * d * (|a| + |b|) := by
  have hsum := abs_sweep_sub_le p ps h
  have hlast : ps.getLastD p ∈ p :: ps := by
    rw [← List.getLast_eq_getLastD (List.cons_ne_nil p ps)]
    exact List.getLast_mem _
  have hp := h p List.mem_cons_self
  have hq := h _ hlast
  generalize ps.getLastD p = q at hsum hq
  have hd : 0 ≤ d := (abs_nonneg _).trans hp.1
  have hx : |2 * (p.1 - q.1)| ≤ 2 * d := by
    have hsplit : 2 * (p.1 - q.1) = (2 * p.1 - a) - (2 * q.1 - a) := by ring
    rw [hsplit]
    exact (abs_sub _ _).trans (by linarith [hp.1, hq.1])
  have hy : |2 * (q.2 - p.2)| ≤ 2 * d := by
    have hsplit : 2 * (q.2 - p.2) = (2 * q.2 - b) - (2 * p.2 - b) := by ring
    rw [hsplit]
    exact (abs_sub _ _).trans (by linarith [hp.2, hq.2])
  have hends : |2 * b * (p.1 - q.1) + 2 * a * (q.2 - p.2)| ≤ 2 * d * (|a| + |b|) := by
    refine (abs_add_le _ _).trans ?_
    have h₁ : |2 * b * (p.1 - q.1)| ≤ |b| * (2 * d) := by
      rw [show 2 * b * (p.1 - q.1) = b * (2 * (p.1 - q.1)) by ring, abs_mul]
      exact mul_le_mul_of_nonneg_left hx (abs_nonneg b)
    have h₂ : |2 * a * (q.2 - p.2)| ≤ |a| * (2 * d) := by
      rw [show 2 * a * (q.2 - p.2) = a * (2 * (q.2 - p.2)) by ring, abs_mul]
      exact mul_le_mul_of_nonneg_left hy (abs_nonneg a)
    linarith
  have hsplit : 4 * sweep (p :: ps) = (4 * sweep (p :: ps) -
      (2 * b * (p.1 - q.1) + 2 * a * (q.2 - p.2))) +
        (2 * b * (p.1 - q.1) + 2 * a * (q.2 - p.2)) := by ring
  rw [hsplit]
  exact (abs_add_le _ _).trans (add_le_add hsum hends)

/-- The first terms of the formula are a path along the ring. -/
theorem sum_take_areaTerms (p : Pixel) (ps : List Pixel) (k : Nat) :
    ((areaTerms (p :: ps)).take k).sum = sweep ((p :: ps ++ [p]).take (k + 1)) := by
  have hpath : ∀ (q : Pixel) (ps : List Pixel) (k : Nat),
      ((List.zipWith (fun p q => p.1 * q.2 - q.1 * p.2) (q :: ps) (ps ++ [p])).take k).sum =
        sweep ((q :: ps ++ [p]).take (k + 1)) := by
    intro q ps
    induction ps generalizing q with
    | nil => rintro (_ | _ | k) <;> simp [sweep, cross]
    | cons r ps ih =>
        rintro (_ | k)
        · simp [sweep]
        · have hih := ih r k
          simp only [List.cons_append] at hih
          simp only [List.cons_append, List.zipWith_cons_cons, List.take_succ_cons, List.sum_cons,
            hih, sweep, cross]
  have hterms : areaTerms (p :: ps) =
      List.zipWith (fun p q => p.1 * q.2 - q.1 * p.2) (p :: ps) (ps ++ [p]) := by
    simp [areaTerms]
  rw [hterms, hpath]

theorem fits_of_abs_lt {v : Int} (h : |4 * v| < 2 ^ 65) : FitsI64 v := by
  rw [abs_lt] at h
  unfold FitsI64
  omega

/-- A ring fits if a path of one corner less does, wherever it ends, and the closed ring. -/
theorem areaFits_of_boxed {d a b : Int} {ps : List Pixel} {n : Nat} (h : Boxed d a b ps)
    (hlength : ps.length ≤ n + 1) (hn : 1 ≤ n)
    (hopen : 2 * n * d ^ 2 + 2 * d * (|a| + |b|) < 2 ^ 65)
    (hclosed : 2 * (n + 1) * d ^ 2 < 2 ^ 65) : AreaFits ps := by
  cases ps with
  | nil => exact ⟨nofun, fun k => by simp [areaTerms, FitsI64]⟩
  | cons p ps =>
      have hlen : ps.length ≤ n := by simpa using hlength
      have hpath : ∀ (q : Pixel) (qs : List Pixel), q :: qs ⊆ p :: ps → qs.length ≤ n →
          FitsI64 (sweep (q :: qs)) := by
        intro q qs hsub hle
        refine fits_of_abs_lt ((abs_sweep_le fun r hr => h r (hsub hr)).trans_lt ?_)
        have hmul : (qs.length : Int) * d ^ 2 ≤ n * d ^ 2 :=
          mul_le_mul_of_nonneg_right (by exact_mod_cast hle) (sq_nonneg d)
        linarith
      refine ⟨fun v hv => ?_, fun k => ?_⟩
      · obtain ⟨q, hq, r, hr, rfl⟩ : ∃ q ∈ p :: ps, ∃ r ∈ p :: ps, cross q r = v := by
          obtain ⟨i, hi, rfl⟩ := List.mem_iff_getElem.mp hv
          simp only [areaTerms, List.getElem_zipWith]
          have hsub : (p :: ps).tail ++ (p :: ps).take 1 ⊆ p :: ps := by simp
          exact ⟨_, List.getElem_mem _, _, hsub (List.getElem_mem _), rfl⟩
        have hfits := hpath q [r] (by simp [hq, hr]) hn
        simpa [sweep] using hfits
      · rw [sum_take_areaTerms]
        by_cases hk : k ≤ ps.length
        · rw [List.take_append_of_le_length (by simpa using hk), List.take_succ_cons]
          refine hpath p (ps.take k) ?_ ((List.length_take_le k ps).trans (by omega))
          exact List.cons_subset_cons p (List.take_subset k ps)
        · -- the closed ring, whose ends are the same
          rw [List.take_of_length_le (by simp; omega)]
          refine fits_of_abs_lt ?_
          have hsum := abs_sweep_sub_le p (ps ++ [p]) (List.forall_mem_cons.mpr
            ⟨h p List.mem_cons_self, fun r hr => h r (by simpa [or_comm] using hr)⟩)
          simp only [List.getLastD_concat, sub_self, mul_zero, add_zero, sub_zero,
            List.length_append, List.length_singleton] at hsum
          refine hsum.trans_lt ?_
          have hmul : ((ps.length + 1 : Nat) : Int) * d ^ 2 ≤ (n + 1) * d ^ 2 :=
            mul_le_mul_of_nonneg_right (by exact_mod_cast Nat.succ_le_succ hlen) (sq_nonneg d)
          linarith

/-! ## Rings whose corners lie close together -/

/-- Numbers of a window that lie within `d` of each other lie in an interval of length `d` in
the window. -/
theorem exists_interval {d lo hi : Int} (hd : lo + d ≤ hi) {vs : List Int}
    (hwindow : ∀ v ∈ vs, lo ≤ v ∧ v ≤ hi) (hnear : ∀ v ∈ vs, ∀ w ∈ vs, |v - w| ≤ d) :
    ∃ m, lo ≤ m ∧ m + d ≤ hi ∧ ∀ v ∈ vs, m ≤ v ∧ v ≤ m + d := by
  by_cases hempty : vs.toFinset.Nonempty
  · obtain ⟨least, hmem, hleast⟩ := vs.toFinset.exists_min_image id hempty
    simp only [List.mem_toFinset, id_eq] at hmem hleast
    have hbelow := hwindow least hmem
    refine ⟨min least (hi - d), by omega, by omega, fun v hv => ?_⟩
    have h₁ := hleast v hv
    have h₂ := abs_le.mp (hnear v hv least hmem)
    have h₃ := hwindow v hv
    omega
  · rw [Finset.not_nonempty_iff_eq_empty, List.toFinset_eq_empty_iff] at hempty
    subst hempty
    exact ⟨lo, le_rfl, hd, nofun⟩

/-- What a ring of corners that fit `i32` needs. -/
structure Close (d : Int) (ps : List Pixel) : Prop where
  fits : ∀ p ∈ ps, FitsI32 p.1 ∧ FitsI32 p.2
  near : ∀ p ∈ ps, ∀ q ∈ ps, |p.1 - q.1| ≤ d ∧ |p.2 - q.2| ≤ d

/-- How far apart the corners of a cell may lie: `2 ^ 30` pixels, and one for rounding. -/
def reach : Int := 2 ^ 30 + 1

/-- Ten corners within reach of each other fit, wherever they lie. -/
theorem areaFits_of_close {ps : List Pixel} (h : Close reach ps) (hlength : ps.length ≤ 10) :
    AreaFits ps := by
  have hbox : ∀ f : Pixel → Int, (∀ p ∈ ps, FitsI32 (f p)) →
      (∀ p ∈ ps, ∀ q ∈ ps, |f p - f q| ≤ reach) →
        ∃ a, |a| ≤ 2 ^ 32 - reach ∧ ∀ p ∈ ps, |2 * f p - a| ≤ reach := by
    intro f hfits hnear
    obtain ⟨m, hlo, hhi, hm⟩ := @exists_interval reach (-2 ^ 31) (2 ^ 31) (by decide) (ps.map f)
      (by
        intro v hv
        obtain ⟨p, hp, rfl⟩ := List.mem_map.mp hv
        exact ⟨(hfits p hp).1, (hfits p hp).2.le⟩)
      (by
        intro v hv w hw
        obtain ⟨p, hp, rfl⟩ := List.mem_map.mp hv
        obtain ⟨q, hq, rfl⟩ := List.mem_map.mp hw
        exact hnear p hp q hq)
    refine ⟨2 * m + reach, ?_, fun p hp => ?_⟩
    · rw [abs_le]
      constructor <;> linarith
    · have := hm (f p) (List.mem_map_of_mem hp)
      rw [abs_le]
      constructor <;> linarith
  obtain ⟨a, ha, hx⟩ := hbox Prod.fst (fun p hp => (h.fits p hp).1) fun p hp q hq => (h.near p hp q hq).1
  obtain ⟨b, hb, hy⟩ := hbox Prod.snd (fun p hp => (h.fits p hp).2) fun p hp q hq => (h.near p hp q hq).2
  refine areaFits_of_boxed (d := reach) (n := 9) (fun p hp => ⟨hx p hp, hy p hp⟩) hlength
    (by decide) ?_ (by decide)
  have hends : 2 * reach * (|a| + |b|) ≤ 2 * reach * (2 * (2 ^ 32 - reach)) :=
    mul_le_mul_of_nonneg_left (by linarith) (by decide)
  have htotal : 2 * (9 : Int) * reach ^ 2 + 2 * reach * (2 * (2 ^ 32 - reach)) < 2 ^ 65 := by decide
  exact_mod_cast (add_le_add_right hends _).trans_lt htotal

/-- Fourteen corners of a map of at most `2 ^ 30` pixels fit, if the tile is on it. -/
theorem areaFits_of_map {side a b : Int} {ps : List Pixel} (h : Boxed side a b ps)
    (hside : side ≤ 2 ^ 30) (ha : |a| ≤ side) (hb : |b| ≤ side) (hlength : ps.length ≤ 14) :
    AreaFits ps := by
  have hnonneg : 0 ≤ side := (abs_nonneg a).trans ha
  have hsq : side ^ 2 ≤ (2 ^ 30) ^ 2 := pow_le_pow_left₀ hnonneg hside 2
  have hends : side * (|a| + |b|) ≤ 2 * side ^ 2 := by
    have := mul_le_mul_of_nonneg_left (add_le_add ha hb) hnonneg
    linarith
  refine areaFits_of_boxed (n := 13) h hlength (by decide) ?_ ?_
  · push_cast
    linarith
  · push_cast
    linarith

theorem mem_offsets {w d : Int} : d ∈ offsets w ↔ d = 0 ∨ d = w := by
  unfold offsets
  split
  next h => simp [h]
  next => simp

/-- The way of the cursor over a ring whose corners lie close together. -/
theorem isChain_near {d : Int} {ps : List Pixel} {w : Int} (h : Close d ps)
    (hd : d + |w| < 2 ^ 31) : ((0, 0) :: path (exterior ps) (offsets w)).IsChain Near := by
  have hpath : ∀ r ∈ path (exterior ps) (offsets w), ∃ p ∈ ps, ∃ e, (e = 0 ∨ e = w) ∧
      r = (p.1 + e, p.2) := by
    intro r hr
    obtain ⟨e, he, hr⟩ := List.mem_flatMap.mp hr
    obtain ⟨p, hp, rfl⟩ := List.mem_map.mp hr
    exact ⟨p, mem_exterior.mp hp, e, mem_offsets.mp he, rfl⟩
  refine List.isChain_cons.mpr ⟨fun r hr => ?_, ?_⟩
  · -- the first corner of the ring itself
    have hfirst : r ∈ ps := by
      cases hexterior : exterior ps with
      | nil => simp [hexterior, path, offsets, translated] at hr; split at hr <;> simp at hr
      | cons p rest =>
          have hhead : (path (p :: rest) (offsets w)).head? = some p := by
            unfold offsets
            split <;> simp [path, translated]
          rw [hexterior, hhead] at hr
          have hmem : p ∈ exterior ps := hexterior ▸ List.mem_cons_self
          exact (Option.some.inj hr) ▸ mem_exterior.mp hmem
    obtain ⟨hx, hy⟩ := h.fits r hfirst
    exact ⟨by simpa using hx, by simpa using hy⟩
  · refine (List.pairwise_of_forall_mem_list fun r hr r' hr' => ?_).isChain
    obtain ⟨p, hp, e, he, rfl⟩ := hpath r hr
    obtain ⟨q, hq, e', he', rfl⟩ := hpath r' hr'
    obtain ⟨hx, hy⟩ := h.near q hq p hp
    have hshift : |e' - e| ≤ |w| := by
      rcases he with rfl | rfl <;> rcases he' with rfl | rfl <;> simp
    rw [abs_le] at hx hy hshift
    constructor
    · show -2 ^ 31 ≤ q.1 + e' - (p.1 + e) ∧ q.1 + e' - (p.1 + e) < 2 ^ 31
      omega
    · show -2 ^ 31 ≤ q.2 - p.2 ∧ q.2 - p.2 < 2 ^ 31
      have := abs_nonneg w
      omega

/-! ## Pixels -/

section Pixels

variable {F : Type} [Field F] [LinearOrder F] [IsStrictOrderedRing F] [FloorRing F]

theorem abs_roundAway_sub_le (v : F) : |(roundAway v : F) - v| ≤ 1 / 2 := by
  unfold roundAway
  rw [abs_le]
  split
  next =>
    have h₁ := Int.floor_le (v + 1 / 2)
    have h₂ := Int.lt_floor_add_one (v + 1 / 2)
    constructor <;> linarith
  next =>
    have h₁ := Int.floor_le (-v + 1 / 2)
    have h₂ := Int.lt_floor_add_one (-v + 1 / 2)
    push_cast
    constructor <;> linarith

/-- Rounding keeps a number in an interval with integer ends. -/
theorem roundAway_mem {v : F} {lo hi : Int} (hlo : (lo : F) ≤ v) (hhi : v ≤ hi) :
    lo ≤ roundAway v ∧ roundAway v ≤ hi := by
  have hround := abs_le.mp (abs_roundAway_sub_le v)
  constructor
  · have : (lo : F) - 1 < roundAway v := by linarith
    exact Int.sub_one_lt_iff.mp (by exact_mod_cast this)
  · have : (roundAway v : F) < hi + 1 := by linarith
    exact Int.lt_add_one_iff.mp (by exact_mod_cast this)

theorem abs_roundAway_sub_roundAway_le {v w : F} {d : Int} (h : |v - w| ≤ d) :
    |roundAway v - roundAway w| ≤ d + 1 := by
  have hv := abs_le.mp (abs_roundAway_sub_le v)
  have hw := abs_le.mp (abs_roundAway_sub_le w)
  have hd := abs_le.mp h
  have hcast : |((roundAway v - roundAway w : Int) : F)| ≤ ((d + 1 : Int) : F) := by
    push_cast
    rw [abs_le]
    constructor <;> linarith
  exact_mod_cast hcast

theorem abs_saturate_sub_le (v w : Int) : |saturate v - saturate w| ≤ |v - w| := by
  have hle := le_abs_self (v - w)
  have hge := neg_abs_le (v - w)
  unfold saturate
  rw [abs_le]
  omega

/-- How many pixels a coordinate is from the corner of its tile. -/
def offset (z t : Nat) (v : F) : F := (v - (t : F) / 2 ^ z) / (1 / 2 ^ z) * (extent : F)

omit [FloorRing F] in
theorem offset_eq (z t : Nat) (v : F) : offset z t v = (v * 2 ^ z - t) * 4096 := by
  have hpow : (2 : F) ^ z ≠ 0 := by positivity
  rw [offset, extent]
  field_simp
  push_cast
  ring

omit [IsStrictOrderedRing F] in
theorem toTile_eq (t : TileXy) (p : F × F) :
    toTile t p =
      (saturate (roundAway (offset t.z t.tx p.1)), saturate (roundAway (offset t.z t.ty p.2))) := rfl

/-- Coordinates fewer than `2 ^ 18` tiles apart become pixels within reach. -/
theorem abs_pixel_sub_le {z t : Nat} {v w : F} (h : |v - w| * 2 ^ z ≤ 2 ^ 18) :
    |saturate (roundAway (offset z t v)) - saturate (roundAway (offset z t w))| ≤ reach := by
  refine (abs_saturate_sub_le _ _).trans (abs_roundAway_sub_roundAway_le ?_)
  rw [offset_eq, offset_eq]
  have hpow : (0 : F) < 2 ^ z := by positivity
  have hsplit : (v * 2 ^ z - t) * 4096 - (w * 2 ^ z - t) * 4096 = (v - w) * 2 ^ z * 4096 := by ring
  rw [hsplit, abs_mul, abs_mul, abs_of_pos hpow, abs_of_pos (by norm_num : (0 : F) < 4096)]
  push_cast
  linarith

/-- Corners fewer than `2 ^ 18` tiles apart on both axes. -/
theorem close_toTile {t : TileXy} {corners : List (F × F)}
    (hx : ∀ p ∈ corners, ∀ q ∈ corners, |p.1 - q.1| * 2 ^ t.z ≤ 2 ^ 18)
    (hy : ∀ p ∈ corners, ∀ q ∈ corners, |p.2 - q.2| * 2 ^ t.z ≤ 2 ^ 18) :
    Close reach (corners.map (toTile t)) where
  fits := by
    intro r hr
    obtain ⟨p, -, rfl⟩ := List.mem_map.mp hr
    exact ⟨saturate_fits _, saturate_fits _⟩
  near := by
    intro r hr r' hr'
    obtain ⟨p, hp, rfl⟩ := List.mem_map.mp hr
    obtain ⟨q, hq, rfl⟩ := List.mem_map.mp hr'
    exact ⟨abs_pixel_sub_le (hx p hp q hq), abs_pixel_sub_le (hy p hp q hq)⟩

/-- A point of the map, in a tile of a map of at most `2 ^ 30` pixels. -/
theorem boxed_pixel {z t : Nat} {v : F} (hz : z ≤ 18) (ht : t < 2 ^ z) (hlo : 0 ≤ v) (hhi : v ≤ 1) :
    |2 * saturate (roundAway (offset z t v)) - (2 ^ z - 2 * t) * 4096| ≤ 2 ^ z * 4096 := by
  have hpow : (0 : F) < 2 ^ z := by positivity
  have hside : (2 : Int) ^ z ≤ 2 ^ 18 := pow_le_pow_right₀ (by norm_num) hz
  have htile : (t : Int) < 2 ^ z := by exact_mod_cast ht
  obtain ⟨h₁, h₂⟩ := @roundAway_mem F _ _ _ _ (offset z t v) (-t * 4096) ((2 ^ z - t) * 4096)
    (by
      rw [offset_eq]
      push_cast
      have := mul_nonneg hlo hpow.le
      linarith)
    (by
      rw [offset_eq]
      push_cast
      have := mul_le_mul_of_nonneg_right hhi hpow.le
      linarith)
  have hfits : saturate (roundAway (offset z t v)) = roundAway (offset z t v) := by
    unfold saturate
    omega
  rw [hfits, abs_le]
  constructor <;> linarith

end Pixels

end RasterH3.Pmtiles.Mvt
