import RasterH3.Proofs.SplitCells

/-!
# The pieces of a cell

The boundary of a cell is given by longitudes between -180 and 180. A cell across the
antimeridian has neighbours among its vertices that are nearly a full turn apart; taken as
it stands, its ring goes around the whole map. What is written for it are two polygons, one
on each side, and what has to be shown is that they are the cell.

A cell across the antimeridian is unwrapped, moved by no turn or by one, and clipped on both
sides of 180 degrees; the eastern part is moved back. Moving a ring changes neither its area
nor how it winds, if the point moves as well. On the globe a point of the map is three
places of the plane near an unwrapped ring. The ring spans less than half a turn, so it
winds around no more than one of them, and the piece on that side winds as it does.

A piece that is not written has fewer than three points, and no area. One of the two is
always written, since out of five vertices three are on one side.
-/

namespace RasterH3.Encoding

open ClosedPath

variable {F : Type} [Field F] [LinearOrder F]

/-! ## Moved rings -/

section Shifted

variable [IsStrictOrderedRing F]

/-- A ring moved by some degrees of longitude. -/
def shifted (c : F) (ring : List (F × F)) : List (F × F) := ring.map fun p => (p.1 + c, p.2)

theorem signedArea_shifted (c : F) (ring : List (F × F)) :
    signedArea (shifted c ring) = signedArea ring := by
  rw [signedArea_eq, signedArea_eq, shifted, closedSum_map]
  refine closedSum_congr fun a _ b _ => ?_
  unfold trapezoid
  ring

theorem winding_shifted (c : F) (q : F × F) (ring : List (F × F)) :
    winding q (shifted c ring) = winding (q.1 - c, q.2) ring := by
  unfold winding shifted
  rw [closedSum_map]
  refine closedSum_congr fun a _ b _ => ?_
  have hlat : latAt (a.1 + c, a.2) (b.1 + c, b.2) q.1 = latAt a b (q.1 - c) := by
    unfold latAt
    rw [add_sub_add_right_eq_sub, sub_sub, add_comm c]
  unfold passes
  rw [hlat]
  simp only [le_sub_iff_add_le, sub_lt_iff_lt_add]

omit [IsStrictOrderedRing F] in
/-- A point that the ring has none of its longitudes below, or none above. -/
theorem winding_eq_zero {q : F × F} {ring : List (F × F)}
    (h : (∀ p ∈ ring, q.1 < p.1) ∨ ∀ p ∈ ring, p.1 ≤ q.1) : winding q ring = 0 := by
  refine closedSum_eq_zero fun a ha b hb => ?_
  rcases h with h | h
  · exact passes_eq_zero (Or.inl ⟨h a ha, h b hb⟩)
  · exact passes_eq_zero (Or.inr ⟨h a ha, h b hb⟩)

/-- How often a ring winds around a point of the globe, which is three places near it. -/
def globeWinding (q : F × F) (ring : List (F × F)) : ℤ :=
  winding (q.1 - 360, q.2) ring + winding q ring + winding (q.1 + 360, q.2) ring

end Shifted

/-! ## Unwrapped rings -/

section Unwrapped

variable [FloorRing F]

theorem unwrapFrom_length (prev : F) (ring : List (F × F)) :
    (unwrapFrom prev ring).length = ring.length := by
  induction ring generalizing prev with
  | nil => rfl
  | cons p ring ih => rw [unwrapFrom, List.length_cons, List.length_cons, ih]

theorem unwrapped_length (ring : List (F × F)) : (unwrapped ring).length = ring.length := by
  cases ring with
  | nil => rfl
  | cons p ring => rw [unwrapped, List.length_cons, List.length_cons, unwrapFrom_length]

/-- A boundary whose unwrapped longitudes span less than half a turn. -/
structure Narrow (boundary : List (F × F)) : Prop where
  onMap : ∀ p ∈ boundary, -180 ≤ p.1 ∧ p.1 ≤ 180
  span : ∀ p ∈ unwrapped boundary, ∀ q ∈ unwrapped boundary, p.1 - q.1 < 180

variable [IsStrictOrderedRing F] {boundary : List (F × F)}

omit [IsStrictOrderedRing F] in
/-- The vertex at which unwrapping begins. -/
theorem Narrow.anchor (h : Narrow boundary) {p : F × F} (hp : p ∈ unwrapped boundary) :
    ∃ first ∈ unwrapped boundary, -180 ≤ first.1 ∧ first.1 ≤ 180 := by
  cases boundary with
  | nil => cases hp
  | cons first boundary =>
      exact ⟨first, List.mem_cons_self, h.onMap first List.mem_cons_self⟩

omit [FloorRing F] [IsStrictOrderedRing F] in
/-- Moved by no turn if nothing is west of the map, and by one if something is. -/
theorem straddling_eq (ring : List (F × F)) :
    (straddling ring = shifted 0 ring ∧ ∀ p ∈ ring, -180 ≤ p.1) ∨
      (straddling ring = shifted 360 ring ∧ ∃ p ∈ ring, p.1 < -180) := by
  by_cases hany : ring.any fun p => decide (p.1 < -180)
  · right
    refine ⟨?_, by simpa using hany⟩
    rw [straddling, if_pos hany, shifted]
  · left
    refine ⟨?_, by simpa using hany⟩
    rw [straddling, if_neg hany, shifted]

theorem Narrow.straddling_range (h : Narrow boundary) {p : F × F}
    (hp : p ∈ straddling (unwrapped boundary)) : -180 ≤ p.1 ∧ p.1 ≤ 360 := by
  rcases straddling_eq (unwrapped boundary) with ⟨heq, hnone⟩ | ⟨heq, west, hwest, hlt⟩
  · rw [heq, shifted, List.mem_map] at hp
    rcases hp with ⟨r, hr, rfl⟩
    rcases h.anchor hr with ⟨first, hfirst, -, hle⟩
    have hge := hnone r hr
    have hspan := h.span r hr first hfirst
    exact ⟨by linarith, by linarith⟩
  · rw [heq, shifted, List.mem_map] at hp
    rcases hp with ⟨r, hr, rfl⟩
    rcases h.anchor hr with ⟨first, hfirst, hge, -⟩
    have hspan := h.span first hfirst r hr
    have hspan' := h.span r hr west hwest
    exact ⟨by linarith, by linarith⟩

omit [IsStrictOrderedRing F] in
theorem Narrow.straddling_span (h : Narrow boundary) {p q : F × F}
    (hp : p ∈ straddling (unwrapped boundary)) (hq : q ∈ straddling (unwrapped boundary)) :
    p.1 - q.1 < 180 := by
  unfold straddling at hp hq
  rcases List.mem_map.mp hp with ⟨r, hr, rfl⟩
  rcases List.mem_map.mp hq with ⟨s, hs, rfl⟩
  have hspan := h.span r hr s hs
  simp only [add_sub_add_right_eq_sub]
  exact hspan

omit [FloorRing F] in
theorem signedArea_straddling (ring : List (F × F)) : signedArea (straddling ring) = signedArea ring := by
  rcases straddling_eq ring with ⟨heq, -⟩ | ⟨heq, -⟩
  · rw [heq, signedArea_shifted]
  · rw [heq, signedArea_shifted]

/-- A point of the map is two places near the straddling ring. -/
theorem Narrow.globeWinding_eq (h : Narrow boundary) {q : F × F} (hge : -180 ≤ q.1) (hlt : q.1 < 180) :
    globeWinding q (unwrapped boundary) = winding q (straddling (unwrapped boundary)) +
      winding (q.1 + 360, q.2) (straddling (unwrapped boundary)) := by
  unfold globeWinding
  rcases straddling_eq (unwrapped boundary) with ⟨heq, hnone⟩ | ⟨heq, west, hwest, hbelow⟩
  · have hzero : winding (q.1 - 360, q.2) (unwrapped boundary) = 0 := by
      refine winding_eq_zero (Or.inl fun p hp => ?_)
      have := hnone p hp
      simp only
      linarith
    rw [heq, winding_shifted, winding_shifted, hzero, zero_add]
    simp only [sub_zero]
  · have hzero : winding (q.1 + 360, q.2) (unwrapped boundary) = 0 := by
      refine winding_eq_zero (Or.inr fun p hp => ?_)
      have := h.span p hp west hwest
      simp only
      linarith
    rw [heq, winding_shifted, winding_shifted, hzero, add_zero]
    simp only [add_sub_cancel_right]

/-- No ring so narrow winds around both. -/
theorem Narrow.winding_once (h : Narrow boundary) (q : F × F) :
    winding q (straddling (unwrapped boundary)) = 0 ∨
      winding (q.1 + 360, q.2) (straddling (unwrapped boundary)) = 0 := by
  by_cases hwest : ∀ p ∈ straddling (unwrapped boundary), q.1 < p.1
  · exact Or.inl (winding_eq_zero (Or.inl hwest))
  · right
    push Not at hwest
    rcases hwest with ⟨r, hr, hle⟩
    refine winding_eq_zero (Or.inr fun p hp => ?_)
    have := h.straddling_span hp hr
    simp only
    linarith

end Unwrapped

/-! ## Written pieces -/

section Pieces

variable [IsStrictOrderedRing F]

omit [Field F] [IsStrictOrderedRing F] in
/-- A ring that is not written counts for nothing. -/
theorem closedSum_of_not_isArea {M : Type} [AddCommMonoid M] {τ : F × F → F × F → M}
    (hself : ∀ p, τ p p = 0) (hback : ∀ p q, τ p q + τ q p = 0) {ring : PointRing F}
    (h : ring.isArea = false) : closedSum τ ring = 0 := by
  rw [← points_closedSum hself]
  exact closedSum_of_short hself hback (not_le.mp (of_decide_eq_false h))

theorem signedArea_of_not_isArea {ring : PointRing F} (h : ring.isArea = false) :
    signedArea ring = 0 := by
  refine closedSum_of_not_isArea (fun p => ?_) (fun p q => ?_) h
  · rw [sub_self, zero_div]
  · ring

omit [IsStrictOrderedRing F] in
theorem winding_of_not_isArea {ring : PointRing F} (q : F × F) (h : ring.isArea = false) :
    winding q ring = 0 :=
  closedSum_of_not_isArea (passes_self q) (passes_back q) h

omit [IsStrictOrderedRing F] in
theorem signedArea_points (ring : PointRing F) : signedArea ring.points = signedArea ring :=
  points_closedSum (fun p => by rw [sub_self, zero_div]) ring

omit [IsStrictOrderedRing F] in
theorem winding_points (q : F × F) (ring : PointRing F) : winding q ring.points = winding q ring :=
  points_closedSum (passes_self q) ring

/-- The pieces are on the map, their areas add up, and each winds as the ring does. -/
structure SplitPieces (ring : List (F × F)) (pieces : List (List (F × F))) : Prop where
  onMap : ∀ piece ∈ pieces, ∀ p ∈ piece, -180 ≤ p.1 ∧ p.1 ≤ 180
  area : (pieces.map signedArea).sum = signedArea ring
  turns : ∀ q : F × F, -180 ≤ q.1 → q.1 < 180 → (pieces.map (winding q)).sum = globeWinding q ring
  oriented : ∀ piece ∈ pieces, ∀ q : F × F, -180 ≤ q.1 → q.1 < 180 →
    winding q piece = 0 ∨ winding q piece = globeWinding q ring

/-- The two rings that are written, or one if the other has no area. -/
inductive Written (west east : PointRing F) : List (PointRing F) → Prop
  | both : Written west east [west, east]
  | west (h : east.isArea = false) : Written west east [west]
  | east (h : west.isArea = false) : Written west east [east]

omit [Field F] [IsStrictOrderedRing F] in
theorem Written.mem {west east : PointRing F} {rings : List (PointRing F)}
    (h : Written west east rings) {ring : PointRing F} (hring : ring ∈ rings) :
    ring = west ∨ ring = east := by
  cases h with
  | both => simpa using hring
  | west => exact Or.inl (by simpa using hring)
  | east => exact Or.inr (by simpa using hring)

omit [Field F] [IsStrictOrderedRing F] in
/-- What is not written adds nothing. -/
theorem Written.sum {M : Type} [AddCommMonoid M] {west east : PointRing F}
    {rings : List (PointRing F)} (h : Written west east rings) {f : List (F × F) → M}
    (hpoints : ∀ ring : PointRing F, f ring.points = f ring)
    (hnone : ∀ ring : PointRing F, ring.isArea = false → f ring = 0) :
    ((rings.map PointRing.points).map f).sum = f west + f east := by
  cases h with
  | both => simp [hpoints]
  | west h => simp [hpoints, hnone east h]
  | east h => simp [hpoints, hnone west h]

theorem splitPieces_of_written {unrolled : List (F × F)} {west east : PointRing F}
    {rings : List (PointRing F)} (h : Written west east rings)
    (hwest : ∀ p ∈ west, -180 ≤ p.1 ∧ p.1 ≤ 180) (heast : ∀ p ∈ east, -180 ≤ p.1 ∧ p.1 ≤ 180)
    (harea : signedArea west + signedArea east = signedArea unrolled)
    (hturns : ∀ q : F × F, -180 ≤ q.1 → q.1 < 180 →
      winding q west + winding q east = globeWinding q unrolled ∧
        (winding q west = 0 ∨ winding q east = 0)) :
    SplitPieces unrolled (rings.map PointRing.points) where
  onMap piece hpiece p hp := by
    rcases List.mem_map.mp hpiece with ⟨ring, hring, rfl⟩
    rw [points_mem] at hp
    rcases h.mem hring with rfl | rfl
    · exact hwest p hp
    · exact heast p hp
  area := by rw [h.sum signedArea_points fun ring => signedArea_of_not_isArea, harea]
  turns q hge hlt := by
    rw [h.sum (winding_points q) fun ring => winding_of_not_isArea q, (hturns q hge hlt).1]
  oriented piece hpiece q hge hlt := by
    rcases List.mem_map.mp hpiece with ⟨ring, hring, rfl⟩
    rw [winding_points]
    rcases hturns q hge hlt with ⟨hsum, hone⟩
    rcases h.mem hring with rfl | rfl <;> omega

omit [Field F] [IsStrictOrderedRing F] in
/-- Three different points make a ring that is written. -/
theorem isArea_of_mem {ring : PointRing F} {s : Finset (F × F)} (hcard : 3 ≤ s.card)
    (hmem : ∀ p ∈ s, p ∈ ring) : ring.isArea = true := by
  have hsub : s ⊆ ring.points.toFinset := fun p hp =>
    List.mem_toFinset.mpr ((points_mem ring p).mpr (hmem p hp))
  exact decide_eq_true ((hcard.trans (Finset.card_le_card hsub)).trans (List.toFinset_card_le _))

theorem shift_injective (c : F) : Function.Injective fun p : F × F => (p.1 + c, p.2) := by
  intro p q h
  have h₁ := congrArg Prod.fst h
  have h₂ := congrArg Prod.snd h
  exact Prod.ext (add_right_cancel h₁) h₂

/-- Out of five vertices three are on one side. -/
theorem isArea_west_or_east {ring west east : List (F × F)} (hfive : 5 ≤ ring.toFinset.card)
    (hwest : clipAt180 ring false = some west) (heast : clipAt180 ring true = some east) :
    PointRing.isArea west = true ∨ PointRing.isArea (shifted (-360) east) = true := by
  have hsplit := Finset.card_filter_add_card_filter_not (s := ring.toFinset) fun p : F × F => p.1 ≤ 180
  rcases le_or_gt 3 (ring.toFinset.filter fun p => p.1 ≤ 180).card with hcard | hcard
  · left
    refine isArea_of_mem hcard fun p hp => ?_
    rcases Finset.mem_filter.mp hp with ⟨hp, hle⟩
    exact mem_clipAt180 hwest (decide_eq_true hle) (List.mem_toFinset.mp hp)
  · right
    have hcard' : 3 ≤ (ring.toFinset.filter fun p => ¬ p.1 ≤ 180).card := by omega
    rw [← Finset.card_image_of_injective _ (shift_injective (-360 : F))] at hcard'
    refine isArea_of_mem hcard' fun p hp => ?_
    rcases Finset.mem_image.mp hp with ⟨r, hr, rfl⟩
    rcases Finset.mem_filter.mp hr with ⟨hr, hgt⟩
    exact List.mem_map_of_mem (mem_clipAt180 heast (decide_eq_true (not_le.mp hgt).le)
      (List.mem_toFinset.mp hr))

end Pieces

/-! ## Split cells -/

section Split

variable [IsStrictOrderedRing F] [FloorRing F] {boundary : List (F × F)}

omit [FloorRing F] in
theorem straddling_card (ring : List (F × F)) :
    (straddling ring).toFinset.card = ring.toFinset.card := by
  have himage : ∀ c : F, (shifted c ring).toFinset.card = ring.toFinset.card := by
    intro c
    have heq : (shifted c ring).toFinset = ring.toFinset.image fun p => (p.1 + c, p.2) := by
      ext p
      simp [shifted]
    rw [heq, Finset.card_image_of_injective _ (shift_injective c)]
  rcases straddling_eq ring with ⟨heq, -⟩ | ⟨heq, -⟩
  · rw [heq, himage]
  · rw [heq, himage]

/-- A narrow boundary of five vertices or more is split without an end of the room. -/
theorem splitCell_pieces (h : Narrow boundary) (hlen : boundary.length ≤ maxCellVertices)
    (hfive : 5 ≤ (unwrapped boundary).toFinset.card) :
    ∃ rings, splitCell boundary = some rings ∧ rings.length ∈ [1, 2] ∧
      (∀ ring ∈ rings, ring.isArea = true ∧ ring.points.length ≤ 2 * maxCellVertices) ∧
        SplitPieces (unwrapped boundary) (rings.map PointRing.points) := by
  have hlen' : (straddling (unwrapped boundary)).length ≤ maxCellVertices := by
    rw [straddling, List.length_map, unwrapped_length]
    exact hlen
  rcases @pushAll_fits F _ (straddling (unwrapped boundary)) [] (by
    rw [List.length_nil, maxRingPoints]
    omega) with ⟨ring, hring, hringlen⟩
  rw [List.length_nil, Nat.zero_add] at hringlen
  have hmem : ∀ p, p ∈ ring.points ↔ p ∈ straddling (unwrapped boundary) := fun p =>
    (points_mem ring p).trans (pushAll_mem hring p)
  have hfits := (points_length_le ring).trans (hringlen.trans hlen')
  rcases clipAt180_fits false hfits with ⟨west, hwest, hwestlen⟩
  rcases clipAt180_fits true hfits with ⟨east, heast, heastlen⟩
  have hwinding : ∀ q, winding q ring.points = winding q (straddling (unwrapped boundary)) :=
    fun q => (winding_points q ring).trans (pushAll_closedSum (passes_self q) hring)
  have harea : signedArea ring.points = signedArea (unwrapped boundary) := by
    rw [signedArea_points, ← signedArea_straddling (unwrapped boundary)]
    exact pushAll_closedSum (fun p => by rw [sub_self, zero_div]) hring
  -- the pieces
  have hpieces : ∀ {rings}, Written west (shifted (-360) east) rings →
      SplitPieces (unwrapped boundary) (rings.map PointRing.points) := by
    intro rings hwritten
    refine splitPieces_of_written hwritten (fun p hp => ?_) (fun p hp => ?_) ?_ fun q hge hlt => ?_
    · refine ⟨?_, of_decide_eq_true (clipAt180_inside hwest hp)⟩
      rcases clipAt180_source hwest hp with hp | hp
      · exact (h.straddling_range ((hmem p).mp hp)).1
      · rw [OnMeridian] at hp
        linarith
    · rcases List.mem_map.mp hp with ⟨r, hr, rfl⟩
      have hge : 180 ≤ r.1 := of_decide_eq_true (clipAt180_inside heast hr)
      have hle : r.1 ≤ 360 := by
        rcases clipAt180_source heast hr with hr | hr
        · exact (h.straddling_range ((hmem r).mp hr)).2
        · rw [OnMeridian] at hr
          linarith
      exact ⟨by linarith, by linarith⟩
    · rw [signedArea_shifted, signedArea_pieces hwest heast, harea]
    · have hw := winding_clip hwest (q := q) hlt
      have he := winding_clip heast (q := (q.1 + 360, q.2)) (show (180 : F) ≤ q.1 + 360 by linarith)
      rw [hwinding] at hw he
      rw [winding_shifted, sub_neg_eq_add, hw, he, h.globeWinding_eq hge hlt]
      exact ⟨rfl, h.winding_once q⟩
  have hfive' : 5 ≤ ring.points.toFinset.card := by
    have heq : ring.points.toFinset = (straddling (unwrapped boundary)).toFinset := by
      ext p
      rw [List.mem_toFinset, List.mem_toFinset, hmem]
    rw [heq, straddling_card]
    exact hfive
  have hrun : splitCell boundary = some (
      if west.isArea then
        if PointRing.isArea (shifted (-360) east) then [west, shifted (-360) east] else [west]
      else if PointRing.isArea (shifted (-360) east) then [shifted (-360) east] else [ring]) := by
    have hmoved : (east.map fun p => (p.1 - 360, p.2)) = shifted (-360) east :=
      List.map_congr_left fun p _ => by rw [sub_eq_add_neg]
    simp only [splitCell, hring, hwest, heast, Option.bind_eq_bind, Option.bind_some, hmoved]
    cases west.isArea <;> cases PointRing.isArea (shifted (-360) east) <;> rfl
  have hwestlen' := (points_length_le west).trans hwestlen
  have heastlen' : (PointRing.points (shifted (-360) east)).length ≤ 2 * maxCellVertices := by
    refine (points_length_le (shifted (-360) east)).trans ?_
    rw [shifted, List.length_map]
    exact heastlen
  rw [hrun]
  cases hw : west.isArea with
  | true =>
      cases he : PointRing.isArea (shifted (-360) east) with
      | true =>
          exact ⟨[west, shifted (-360) east], rfl, by simp, by simp [hw, he, hwestlen', heastlen'],
            hpieces .both⟩
      | false =>
          exact ⟨[west], rfl, by simp, List.forall_mem_singleton.mpr ⟨hw, hwestlen'⟩,
            hpieces (.west he)⟩
  | false =>
      cases he : PointRing.isArea (shifted (-360) east) with
      | true =>
          exact ⟨[shifted (-360) east], rfl, by simp, List.forall_mem_singleton.mpr ⟨he, heastlen'⟩,
            hpieces (.east hw)⟩
      | false =>
          rcases isArea_west_or_east hfive' hwest heast with h' | h'
          · rw [hw] at h'
            cases h'
          · rw [he] at h'
            cases h'

end Split

end RasterH3.Encoding
