import RasterH3.Proofs.MvtArcs
import RasterH3.Proofs.MvtExtents

/-!
# How far a cell may reach

Tile coordinates saturate at the limits of `i32`, and a step of the cursor is a difference
of two of them that has to fit as well. So what a tile asks of a cell is that its corners
lie within half of that range of each other, `2 ^ 18` tiles. Up to zoom 18 the whole map is
no wider, and every cell that is not around a pole may be drawn there. Above it a cell has to
be narrow, and then it is, wherever the map is cut and wherever the tile lies: an arc of
longitudes is drawn as wide as it is.

A cell around a pole has no short way around. Its cap runs along the edge of the map, which
from zoom 20 on is too long for a step of the cursor in every column but the first, whatever
the cell looks like.
-/

namespace RasterH3.Pmtiles.Mvt

/-! ## Outlines -/

section Outlines

variable {F : Type} [Field F] [LinearOrder F] [IsStrictOrderedRing F] [FloorRing F]

/-- The corners `from_mercator` reads. -/
def lngs (s : Source F) : List F := (s.vertices.take 10).map MercatorPoint.x

def lats (s : Source F) : List F := (s.vertices.take 10).map MercatorPoint.y

/-- The cell spans fewer than `2 ^ 18` tiles on both axes. -/
structure Narrow (s : Source F) : Prop where
  lng : InArc (2 ^ 18 / 2 ^ s.tile.z) (lngs s)
  lat : ∀ y ∈ lats s, ∀ y' ∈ lats s, (y - y') * 2 ^ s.tile.z ≤ 2 ^ 18

/-- At zooms up to 18 every cell may be drawn, around a pole if it crosses the seam between
two corners, and above the narrow ones. -/
def InReach (s : Source F) : Prop :=
  if s.tile.z ≤ 18 then AroundPole (lngs s) → CrossesSeam (lngs s) else Narrow s

/-- How `from_mercator` draws a cell: as the cap of a pole, as it is, or unwrapped and moved
to the tile's side of the antimeridian, on a world tile twice. -/
inductive Drawn (s : Source F) : Outline → Prop where
  | cap {edgeY : F} (hpole : AroundPole (lngs s)) (hedge : 0 ≤ edgeY ∧ edgeY ≤ 1) :
      Drawn s ⟨(polarCap (lngs s) (lats s) 0 1 edgeY).map (toTile s.tile), 0⟩
  | plain (hnear : ∀ x ∈ lngs s, ∀ y ∈ lngs s, |x - y| ≤ 1 / 2) :
      Drawn s ⟨((lngs s).zip (lats s)).map (toTile s.tile), 0⟩
  | aligned {w : Int} (hnear : ∀ x ∈ unwrapped (lngs s), ∀ y ∈ unwrapped (lngs s), x - y < 1 / 2)
      (hw : w = 0 ∨ s.tile.z = 0 ∧ |w| ≤ 4096) :
      Drawn s ⟨((alignedTo s.tile (unwrapped (lngs s))).zip (lats s)).map (toTile s.tile), w⟩

omit [IsStrictOrderedRing F] [FloorRing F] in
theorem lngs_ne_nil (s : Source F) : lngs s ≠ [] := by
  have hthree := s.three
  intro hnil
  have hlen := congrArg List.length hnil
  simp only [lngs, List.length_map, List.length_take, List.length_nil] at hlen
  omega

theorem drawn_outline (s : Source F) : Drawn s (outline s.vertices s.tile) := by
  have hne := lngs_ne_nil s
  by_cases hjumps : 1 / 2 < greatest (lngs s) - least (lngs s)
  · by_cases hspan : greatest (unwrapped (lngs s)) - least (unwrapped (lngs s)) < 1 / 2
    · have hnear : ∀ x ∈ unwrapped (lngs s), ∀ y ∈ unwrapped (lngs s), x - y < 1 / 2 :=
        fun x hx y hy => (le_abs_self _).trans_lt ((abs_sub_le_span hx hy).trans_lt hspan)
      have houtline : ∃ w, (w = 0 ∨ s.tile.z = 0 ∧ |w| ≤ 4096) ∧ outline s.vertices s.tile =
          ⟨((alignedTo s.tile (unwrapped (lngs s))).zip (lats s)).map (toTile s.tile), w⟩ := by
        unfold lngs at hjumps hspan
        unfold unwrapped at hspan
        simp only [outline, decide_eq_true hjumps, hspan, decide_true, Bool.not_true,
          Bool.and_false, Bool.false_eq_true, if_false, if_true]
        refine ⟨_, ?_, rfl⟩
        split
        next hz =>
          refine .inr ⟨hz.1, ?_⟩
          split
          · simp [extent]
          · split <;> simp [extent]
        next => exact .inl rfl
      obtain ⟨w, hw, heq⟩ := houtline
      rw [heq]
      exact .aligned hnear hw
    · have hpole : AroundPole (lngs s) := by
        refine ⟨⟨_, (greatest_spec hne).1, _, (least_spec hne).1, hjumps⟩, fun harc => hspan ?_⟩
        exact span_lt (List.cons_ne_nil _ _) (unwrapped_near hne le_rfl harc)
      have houtline : ∃ edgeY : F, (0 ≤ edgeY ∧ edgeY ≤ 1) ∧ outline s.vertices s.tile =
          ⟨(polarCap (lngs s) (lats s) 0 1 edgeY).map (toTile s.tile), 0⟩ := by
        unfold lngs at hjumps hspan
        unfold unwrapped at hspan
        simp only [outline, decide_eq_true hjumps, hspan, decide_false, Bool.not_false,
          Bool.and_true, if_true]
        refine ⟨_, ?_, rfl⟩
        split <;> simp
      obtain ⟨edgeY, hedge, heq⟩ := houtline
      rw [heq]
      exact .cap hpole hedge
  · have houtline : outline s.vertices s.tile =
        ⟨((lngs s).zip (lats s)).map (toTile s.tile), 0⟩ := by
      unfold lngs at hjumps
      simp only [outline, decide_eq_false hjumps, Bool.false_and, Bool.false_eq_true, if_false,
        and_false]
      rfl
    rw [houtline]
    exact .plain fun x hx y hy => (abs_sub_le_span hx hy).trans (not_lt.mp hjumps)

theorem outline_of_aroundPole {s : Source F} (hpole : AroundPole (lngs s)) :
    ∃ edgeY : F, outline s.vertices s.tile =
      ⟨(polarCap (lngs s) (lats s) 0 1 edgeY).map (toTile s.tile), 0⟩ := by
  have hdrawn := drawn_outline s
  generalize outline s.vertices s.tile = o at hdrawn ⊢
  cases hdrawn with
  | cap => exact ⟨_, rfl⟩
  | plain hnear =>
      obtain ⟨x, hx, y, hy, hfar⟩ := hpole.apart
      exact absurd ((le_abs_self _).trans (hnear x hx y hy)) (not_le.mpr hfar)
  | aligned hnear =>
      exact absurd (inArc_of_unwrapped (span_lt (List.cons_ne_nil _ _) hnear)) hpole.everyWay

omit [IsStrictOrderedRing F] [FloorRing F] in
theorem lngs_mem_unit (s : Source F) : ∀ x ∈ lngs s, 0 ≤ x ∧ x ≤ 1 :=
  List.forall_mem_map.mpr fun v hv => (s.normalized v (List.mem_of_mem_take hv)).1

omit [IsStrictOrderedRing F] [FloorRing F] in
theorem lats_mem_unit (s : Source F) : ∀ y ∈ lats s, 0 ≤ y ∧ y ≤ 1 :=
  List.forall_mem_map.mpr fun v hv => (s.normalized v (List.mem_of_mem_take hv)).2

omit [IsStrictOrderedRing F] [FloorRing F] in
theorem length_lngs_le (s : Source F) : (lngs s).length ≤ 10 := by
  rw [lngs, List.length_map]
  exact List.length_take_le 10 _

omit [IsStrictOrderedRing F] [FloorRing F] in
theorem length_lats_le (s : Source F) : (lats s).length ≤ 10 := by
  rw [lats, List.length_map]
  exact List.length_take_le 10 _

/-- What is drawn fits the integers it is drawn with. -/
structure OutlineFits (o : Outline) : Prop where
  area : AreaFits o.points
  copy : ∀ p ∈ o.points, FitsI32 (p.1 + o.wrappedXOffset)
  steps : ((0, 0) :: path (exterior o.points) (offsets o.wrappedXOffset)).IsChain Near

omit [FloorRing F] in
theorem pow_le_of_le {z : Nat} (hz : z ≤ 18) : (2 : F) ^ z ≤ 2 ^ 18 :=
  pow_le_pow_right₀ one_le_two hz

omit [FloorRing F] in
/-- Above zoom 18 a narrow cell spans less than half the map. -/
theorem narrow_le_half {z : Nat} (hz : ¬ z ≤ 18) : (2 : F) ^ 18 / 2 ^ z ≤ 1 / 2 := by
  have hpow : (2 : F) ^ 19 ≤ 2 ^ z := pow_le_pow_right₀ one_le_two (by omega)
  rw [div_le_div_iff₀ (by positivity) two_pos]
  linarith

omit [FloorRing F] in
/-- Longitudes within half the map at low zooms, and of narrow cells, are few tiles apart. -/
theorem tiles_le {s : Source F} (h : InReach s) {xs : List F}
    (hhalf : ∀ x ∈ xs, ∀ y ∈ xs, |x - y| ≤ 1 / 2)
    (hnarrow : ∀ w ≤ 1 / 2, InArc w (lngs s) → ∀ x ∈ xs, ∀ y ∈ xs, x - y < w) :
    ∀ x ∈ xs, ∀ y ∈ xs, |x - y| * 2 ^ s.tile.z ≤ 2 ^ 18 := by
  have hpos : (0 : F) < 2 ^ s.tile.z := by positivity
  intro x hx y hy
  unfold InReach at h
  split at h
  next hz =>
    have hmul := mul_le_mul (hhalf x hx y hy) (pow_le_of_le (F := F) hz) hpos.le (by norm_num)
    linarith
  next hz =>
    have hwide := hnarrow _ (narrow_le_half hz) h.lng
    have habs : |x - y| < 2 ^ 18 / 2 ^ s.tile.z :=
      abs_lt.mpr ⟨by linarith [hwide y hy x hx], hwide x hx y hy⟩
    exact ((lt_div_iff₀ hpos).mp habs).le

omit [FloorRing F] in
theorem lat_tiles_le {s : Source F} (h : InReach s) :
    ∀ y ∈ lats s, ∀ y' ∈ lats s, |y - y'| * 2 ^ s.tile.z ≤ 2 ^ 18 := by
  have hpos : (0 : F) < 2 ^ s.tile.z := by positivity
  intro y hy y' hy'
  unfold InReach at h
  split at h
  next hz =>
    have h₁ := lats_mem_unit s y hy
    have h₂ := lats_mem_unit s y' hy'
    have habs : |y - y'| ≤ 1 := abs_le.mpr ⟨by linarith, by linarith⟩
    have hmul := mul_le_mul habs (pow_le_of_le (F := F) hz) hpos.le zero_le_one
    linarith
  next hz =>
    rcases abs_choice (y - y') with heq | heq
    · rw [heq]
      exact h.lat y hy y' hy'
    · rw [heq, neg_sub]
      exact h.lat y' hy' y hy

/-- An ordinary ring of close corners. -/
theorem outlineFits_of_close {ps : List Pixel} {w : Int} (h : Close reach ps)
    (hlength : ps.length ≤ 10) (hw : |w| ≤ 4096) (hcopy : ∀ p ∈ ps, FitsI32 (p.1 + w)) :
    OutlineFits ⟨ps, w⟩ where
  area := areaFits_of_close h hlength
  copy := hcopy
  steps := by
    have hroom : reach + |w| < 2 ^ 31 := by
      unfold reach
      omega
    exact isChain_near h hroom

/-- On a world tile no corner of a cell is far from the tile. -/
theorem world_copy_fits {s : Source F} {w : Int} (hz : s.tile.z = 0) (hw : |w| ≤ 4096) {x : F}
    (hx : -2 ≤ x ∧ x ≤ 3) :
    FitsI32 (saturate (roundAway (offset s.tile.z s.tile.tx x)) + w) := by
  have htx : s.tile.tx = 0 := by
    have := s.inPyramid.1
    rw [hz] at this
    omega
  rw [hz, htx, offset_eq]
  obtain ⟨hlo, hhi⟩ := @roundAway_mem F _ _ _ _ ((x * 2 ^ 0 - (0 : Nat)) * 4096) (-8192) 12288
    (by push_cast; linarith [hx.1]) (by push_cast; linarith [hx.2])
  rw [abs_le] at hw
  unfold saturate FitsI32
  omega

/-- A cell in reach is drawn in integers that fit. -/
theorem InReach.fits {s : Source F} (h : InReach s) : OutlineFits (outline s.vertices s.tile) := by
  have hdrawn := drawn_outline s
  have hlat := lat_tiles_le h
  generalize outline s.vertices s.tile = o at hdrawn
  cases hdrawn with
  | @cap edgeY hpole hedge =>
      unfold InReach at h
      split at h
      next hz =>
        have hmap := mem_polarCap (lngs_mem_unit s) (lats_mem_unit s) hedge (h hpole)
        have hside : (2 : Int) ^ s.tile.z * 4096 ≤ 2 ^ 30 := by
          have : (2 : Int) ^ s.tile.z ≤ 2 ^ 18 := pow_le_pow_right₀ (by norm_num) hz
          omega
        have hboxed : Boxed (2 ^ s.tile.z * 4096) ((2 ^ s.tile.z - 2 * s.tile.tx) * 4096)
            ((2 ^ s.tile.z - 2 * s.tile.ty) * 4096)
            ((polarCap (lngs s) (lats s) 0 1 edgeY).map (toTile s.tile)) := by
          refine List.forall_mem_map.mpr fun p hp => ?_
          obtain ⟨hx, hy⟩ := hmap p hp
          exact ⟨boxed_pixel hz s.inPyramid.1 hx.1 hx.2, boxed_pixel hz s.inPyramid.2 hy.1 hy.2⟩
        have hmiddle : ∀ t : Nat, t < 2 ^ s.tile.z →
            |((2 : Int) ^ s.tile.z - 2 * t) * 4096| ≤ 2 ^ s.tile.z * 4096 := by
          intro t ht
          have : (t : Int) < 2 ^ s.tile.z := by exact_mod_cast ht
          rw [abs_le]
          constructor <;> omega
        have hfits : ∀ p ∈ (polarCap (lngs s) (lats s) 0 1 edgeY).map (toTile s.tile),
            FitsI32 p.1 ∧ FitsI32 p.2 :=
          List.forall_mem_map.mpr fun p _ => ⟨saturate_fits _, saturate_fits _⟩
        have hclose : Close (2 ^ s.tile.z * 4096)
            ((polarCap (lngs s) (lats s) 0 1 edgeY).map (toTile s.tile)) := by
          refine ⟨hfits, fun p hp q hq => ?_⟩
          have hp := hboxed p hp
          have hq := hboxed q hq
          simp only [abs_le] at hp hq ⊢
          refine ⟨⟨?_, ?_⟩, ?_, ?_⟩ <;> omega
        refine ⟨areaFits_of_map hboxed hside (hmiddle _ s.inPyramid.1) (hmiddle _ s.inPyramid.2) ?_,
          fun p hp => ?_, isChain_near hclose ?_⟩
        · rw [List.length_map]
          exact (length_polarCap_le _ _ _ _ _).trans (by have := length_lngs_le s; omega)
        · rw [add_zero]
          exact (hfits p hp).1
        · rw [abs_zero]
          omega
      next hz =>
        -- a narrow cell is not around a pole
        obtain ⟨west, harc⟩ := h.lng
        refine absurd ⟨west, fun x hx => ?_⟩ hpole.everyWay
        obtain ⟨k, hlo, hhi⟩ := harc x hx
        exact ⟨k, hlo, hhi.trans_le (by linarith [narrow_le_half (F := F) hz])⟩
  | plain hnear =>
      have hlng := tiles_le h hnear fun w hw harc => raw_near hw harc hnear
      refine outlineFits_of_close (close_toTile (fun p hp q hq => ?_) fun p hp q hq => ?_) ?_ (by simp)
        (List.forall_mem_map.mpr fun p _ => ?_)
      · exact hlng _ (List.of_mem_zip hp).1 _ (List.of_mem_zip hq).1
      · exact hlat _ (List.of_mem_zip hp).2 _ (List.of_mem_zip hq).2
      · rw [List.length_map, List.length_zip]
        exact (Nat.min_le_left _ _).trans (length_lngs_le s)
      · rw [add_zero]
        exact saturate_fits _
  | @aligned w hnear hw =>
      have hne : unwrapped (lngs s) ≠ [] := List.cons_ne_nil _ _
      have hhalf : ∀ x ∈ unwrapped (lngs s), ∀ y ∈ unwrapped (lngs s), |x - y| ≤ 1 / 2 :=
        fun x hx y hy => abs_le.mpr ⟨by linarith [hnear y hy x hx], (hnear x hx y hy).le⟩
      have hlng := tiles_le h hhalf
        fun w hw harc => unwrapped_near (lngs_ne_nil s) hw harc
      have hshift : ∃ shift : F, (-1 ≤ shift ∧ shift ≤ 1) ∧
          alignedTo s.tile (unwrapped (lngs s)) = (unwrapped (lngs s)).map (· + shift) := by
        refine ⟨_, ?_, rfl⟩
        split
        · constructor <;> norm_num
        · split <;> constructor <;> norm_num
      obtain ⟨shift, hrange, halign⟩ := hshift
      rw [halign]
      have hmem : ∀ {p : F × F}, p ∈ ((unwrapped (lngs s)).map (· + shift)).zip (lats s) →
          (∃ u ∈ unwrapped (lngs s), u + shift = p.1) ∧ p.2 ∈ lats s := fun hp =>
        ⟨List.mem_map.mp (List.of_mem_zip hp).1, (List.of_mem_zip hp).2⟩
      refine outlineFits_of_close (close_toTile (fun p hp q hq => ?_) fun p hp q hq => ?_) ?_ ?_
        (List.forall_mem_map.mpr fun p hp => ?_)
      · obtain ⟨⟨u, hu, hup⟩, -⟩ := hmem hp
        obtain ⟨⟨v, hv, hvq⟩, -⟩ := hmem hq
        rw [← hup, ← hvq, add_sub_add_right_eq_sub]
        exact hlng u hu v hv
      · exact hlat _ (hmem hp).2 _ (hmem hq).2
      · rw [List.length_map, List.length_zip]
        exact (Nat.min_le_right _ _).trans (length_lats_le s)
      · rcases hw with rfl | ⟨-, hw⟩
        · simp
        · exact hw
      · rcases hw with rfl | ⟨hz, hw⟩
        · rw [add_zero]
          exact saturate_fits _
        · obtain ⟨⟨u, hu, hup⟩, -⟩ := hmem hp
          refine world_copy_fits hz hw ?_
          -- the walk starts on the map and stays within half a turn
          have hstart : (lngs s).headD 0 ∈ unwrapped (lngs s) := List.mem_cons_self
          have hhead : 0 ≤ (lngs s).headD 0 ∧ (lngs s).headD 0 ≤ 1 := by
            cases hl : lngs s with
            | nil => exact absurd hl (lngs_ne_nil s)
            | cons x xs => exact lngs_mem_unit s x (hl ▸ List.mem_cons_self)
          have h₁ := hnear u hu _ hstart
          have h₂ := hnear _ hstart u hu
          rw [← hup]
          constructor <;> linarith

/-! ## The caps that do not fit -/

omit [IsStrictOrderedRing F] [FloorRing F] in
/-- A cap ends along the edge of the map. -/
theorem polarCap_eq_concat (xs ys : List F) (edgeY : F) :
    ∃ ps, polarCap xs ys 0 1 edgeY = ps ++ [(1, edgeY), (0, edgeY)] := by
  have hends : ∀ pts : List (F × F), ∃ ps,
      pushPoint (pushPoint pts (0 + 1, edgeY)) (0, edgeY) = ps ++ [(1, edgeY), (0, edgeY)] := by
    intro pts
    obtain ⟨ps, hps⟩ := List.getLast?_eq_some_iff.mp (getLast?_pushPoint pts (0 + 1, edgeY))
    refine ⟨ps, ?_⟩
    rw [hps, pushPoint, if_neg (by simp), List.append_assoc, zero_add]
    rfl
  unfold polarCap
  simp only [List.foldl_append, List.foldl_cons, List.foldl_nil]
  exact hends _

/-- The two ends of the edge of the map, as pixels of a tile that is not in the first column. -/
theorem edge_too_long {z t : Nat} (hz : 20 ≤ z) (ht : t < 2 ^ z) (hne : t ≠ 0) :
    2 ^ 31 < saturate (roundAway (offset z t (1 : F))) - saturate (roundAway (offset z t (0 : F))) := by
  have hside : (2 : Int) ^ 20 ≤ 2 ^ z := pow_le_pow_right₀ (by norm_num) hz
  have htile : (t : Int) < 2 ^ z := by exact_mod_cast ht
  obtain ⟨h₁, -⟩ := @roundAway_mem F _ _ _ _ (offset z t 1) ((2 ^ z - t) * 4096)
    ((2 ^ z - t) * 4096) (by rw [offset_eq]; push_cast; linarith)
    (by rw [offset_eq]; push_cast; linarith)
  obtain ⟨-, h₂⟩ := @roundAway_mem F _ _ _ _ (offset z t 0) (-t * 4096) (-t * 4096)
    (by rw [offset_eq]; push_cast; linarith) (by rw [offset_eq]; push_cast; linarith)
  unfold saturate
  omega

/-- From zoom 20 on the edge of the map is too long for a step of the cursor, in every column
but the first. -/
theorem not_fits_of_aroundPole {s : Source F} (hpole : AroundPole (lngs s)) (hz : 20 ≤ s.tile.z)
    (htx : s.tile.tx ≠ 0) : ¬ OutlineFits (outline s.vertices s.tile) := by
  intro hfits
  obtain ⟨edgeY, houtline⟩ := outline_of_aroundPole hpole
  obtain ⟨ps, hcap⟩ := polarCap_eq_concat (lngs s) (lats s) edgeY
  have hlong := edge_too_long (F := F) hz s.inPyramid.1 htx
  have hsteps := hfits.steps
  rw [houtline, hcap, List.map_append] at hsteps
  have hchain := (List.isChain_cons.mp hsteps).2
  simp only [offsets, if_true, path, List.flatMap_cons, List.flatMap_nil, List.append_nil,
    List.map_cons, List.map_nil, toTile_eq] at hchain
  have htranslated : ∀ qs : List Pixel, translated 0 qs = qs := by
    intro qs
    simp [translated]
  rw [htranslated] at hchain
  generalize saturate (roundAway (offset s.tile.z s.tile.tx (1 : F))) = east at hlong hchain
  generalize saturate (roundAway (offset s.tile.z s.tile.tx (0 : F))) = west at hlong hchain
  generalize ps.map (toTile s.tile) = qs at hchain
  -- the edge is walked one way or the other
  rcases exterior_cases (qs ++ [(east, _), (west, _)]) with heq | heq
  · rw [heq] at hchain
    have hnear : Near (east, _) (west, _) := (List.isChain_append.mp hchain).2.1.rel
    obtain ⟨hlo, -⟩ := hnear.1
    omega
  · rw [heq, List.reverse_append] at hchain
    have hnear : Near (west, _) (east, _) := (List.isChain_append.mp hchain).1.rel
    obtain ⟨-, hhi⟩ := hnear.1
    omega

end Outlines

end RasterH3.Pmtiles.Mvt
