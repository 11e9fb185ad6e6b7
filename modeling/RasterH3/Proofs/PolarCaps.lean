import RasterH3.Proofs.CellPieces

/-!
# Caps of the poles

A cell around a pole is no polygon on the map. What is written for it is a cap, a polygon
that follows the cell from one end of the map to the other, in the order of longitudes, and
closes along the upper or lower edge. The cap should lie on the map, have the vertices of
the ring, run counter-clockwise and cover what lies between the ring and the pole (`IsCap`).

The turns of a ring that goes once round a pole add up to a circle, while its longitudes
come back to where they began; so one edge leads back across the map, and only one
(`closedSum_drop`). Behind it the ring is sorted by longitude, from one end of the map to
the other (`sorted_of_drop`), and the cap is the region between this path and the edge of
the map.

The source finds the edge where the unwrapped end is beyond 180 degrees. An edge that ends
on the antimeridian, at a vertex said to be at -180 degrees, is not found; this does no harm
if that vertex is the first one, where the search ends anyway.

The area under a sorted path that stays on one side of a latitude is the area between the
two (`area_beside`), so the sign of the cap's area, and with it its direction, comes from
the order alone. The ring is visited eastward; one that goes westward is reversed first. The
latitude at which the crossing edge meets the meridian is interpolated between its ends
(`Unrolled.crossLat_side`), and no vertex has to be moved from one name of the meridian to
the other.
-/

namespace RasterH3.Encoding

open ClosedPath

variable {F : Type} [Field F] [LinearOrder F]

/-! ## Rings round a pole -/

/-- Once round a pole, eastward. -/
structure RoundsPole (ring : List (F × F)) : Prop where
  onMap : ∀ p ∈ ring, -180 ≤ p.1 ∧ p.1 ≤ 180
  belowPole : ∀ p ∈ ring, -90 < p.2 ∧ p.2 < 90
  eastward : ∀ e ∈ ringEdges ring, 0 ≤ wrapTurn (e.2.1 - e.1.1) ∧ wrapTurn (e.2.1 - e.1.1) < 180
  once : totalTurn ring = 360

/-- No vertex is said to be at -180 degrees, or such vertices come first and none is at 180. -/
def MeridianFirst (ring : List (F × F)) : Prop :=
  (∀ p ∈ ring, p.1 ≠ -180) ∨
    (∀ p ∈ ring, p.1 ≠ 180) ∧ ring.Pairwise fun a b => b.1 = -180 → a.1 = -180

/-- What a turn is more than the difference of the longitudes: a circle for an edge that leads
back across the map. -/
def dropOf (a b : F × F) : F := if b.1 < a.1 then 360 else 0

omit [Field F] [LinearOrder F] in
theorem ringEdges_mem {ring : List (F × F)} {e : (F × F) × (F × F)} (he : e ∈ ringEdges ring) :
    e.1 ∈ ring ∧ e.2 ∈ ring :=
  ⟨(List.of_mem_zip he).1, List.mem_rotate.mp (List.of_mem_zip he).2⟩

theorem totalTurn_eq (ring : List (F × F)) :
    totalTurn ring = closedSum (fun a b => wrapTurn (b.1 - a.1)) ring := by
  rw [closedSum_eq_edges]
  rfl

variable [IsStrictOrderedRing F]

theorem wrapTurn_neg {d : F} (hge : 0 ≤ wrapTurn d) (hlt : wrapTurn d < 180) :
    wrapTurn (-d) = -wrapTurn d := by
  unfold wrapTurn at *
  by_cases h₁ : 180 < d
  · rw [if_pos h₁] at hge hlt ⊢
    rw [if_neg (by linarith), if_pos (by linarith)]
    ring
  · rw [if_neg h₁] at hge hlt ⊢
    by_cases h₂ : d ≤ -180
    · rw [if_pos h₂] at hge hlt ⊢
      rw [if_pos (by linarith)]
      ring
    · rw [if_neg h₂] at hge hlt ⊢
      rw [if_neg (by linarith), if_neg (by linarith)]

omit [IsStrictOrderedRing F] in
theorem eastward_mem {ring : List (F × F)} (p : F × F) : p ∈ eastward ring ↔ p ∈ ring := by
  unfold eastward
  split
  next => exact Iff.rfl
  next => exact List.mem_reverse

/-- A ring that goes westward is visited in reverse. -/
theorem eastward_of_rounds {ring : List (F × F)} (h : RoundsPole ring ∨ RoundsPole ring.reverse) :
    RoundsPole (eastward ring) := by
  unfold eastward
  rcases h with h | h
  · rw [if_pos (by rw [h.once]; norm_num)]
    exact h
  · have hturn : totalTurn ring = -360 := by
      rw [← h.once, totalTurn_eq, totalTurn_eq, ← closedSum_neg]
      conv_lhs => rw [← List.reverse_reverse ring]
      rw [closedSum_reverse]
      refine closedSum_congr_edges fun e he => ?_
      rcases h.eastward e he with ⟨hge, hlt⟩
      rw [← wrapTurn_neg hge hlt, neg_sub]
    rw [hturn, if_neg (by norm_num)]
    exact h

section Rounds

variable {ring : List (F × F)}

/-- No edge leads from -180 to 180 degrees, which is the same meridian. -/
theorem RoundsPole.turn (h : RoundsPole ring) (hm : MeridianFirst ring) {e : (F × F) × (F × F)}
    (he : e ∈ ringEdges ring) : wrapTurn (e.2.1 - e.1.1) = e.2.1 - e.1.1 + dropOf e.1 e.2 := by
  rcases ringEdges_mem he with ⟨ha, hb⟩
  rcases h.onMap _ ha with ⟨hage, hale⟩
  rcases h.onMap _ hb with ⟨hbge, hble⟩
  rcases h.eastward e he with ⟨hge, hlt⟩
  have hne : e.1.1 ≠ -180 ∨ e.2.1 ≠ 180 := by
    rcases hm with hm | hm
    · exact Or.inl (hm _ ha)
    · exact Or.inr (hm.1 _ hb)
  unfold wrapTurn at *
  unfold dropOf
  by_cases h₁ : 180 < e.2.1 - e.1.1
  · -- such an edge would be one from -180 to 180
    rw [if_pos h₁] at hge
    rcases hne with hne | hne
    · exact absurd (by linarith) hne
    · exact absurd (by linarith) hne
  · rw [if_neg h₁] at hge hlt ⊢
    by_cases h₂ : e.2.1 - e.1.1 ≤ -180
    · rw [if_pos h₂, if_pos (by linarith)]
    · rw [if_neg h₂] at hge ⊢
      rw [if_neg (by linarith), add_zero]

theorem RoundsPole.turn_of_drop (h : RoundsPole ring) (hm : MeridianFirst ring)
    {e : (F × F) × (F × F)} (he : e ∈ ringEdges ring) (hdrop : e.2.1 < e.1.1) :
    wrapTurn (e.2.1 - e.1.1) = e.2.1 - e.1.1 + 360 ∧ 180 < e.1.1 - e.2.1 := by
  have hturn := h.turn hm he
  rw [dropOf, if_pos hdrop] at hturn
  have hlt := (h.eastward e he).2
  rw [hturn] at hlt
  exact ⟨hturn, by linarith⟩

/-- One edge leads back across the map. -/
theorem RoundsPole.closedSum_drop (h : RoundsPole ring) (hm : MeridianFirst ring) :
    closedSum dropOf ring = 360 := by
  have hturns : closedSum (fun a b => wrapTurn (b.1 - a.1)) ring =
      closedSum (fun a b => b.1 - a.1 + dropOf a b) ring :=
    closedSum_congr_edges fun e he => h.turn hm he
  rw [← h.once, totalTurn_eq, hturns, closedSum_add, closedSum_telescope (fun p : F × F => p.1),
    zero_add]

/-- A path without such an edge is sorted. -/
theorem sorted_of_pathSum {p : F × F} {l : List (F × F)} :
    0 ≤ pathSum dropOf p l ∧ (pathSum dropOf p l = 0 → (p :: l).Pairwise fun a b => a.1 ≤ b.1) := by
  induction l generalizing p with
  | nil => exact ⟨le_rfl, fun _ => List.pairwise_singleton _ _⟩
  | cons q l ih =>
      have hdrop : 0 ≤ dropOf p q := by
        unfold dropOf
        split
        next => norm_num
        next => exact le_rfl
      rcases ih (p := q) with ⟨hge, hsorted⟩
      rw [pathSum]
      refine ⟨add_nonneg hdrop hge, fun hzero => ?_⟩
      have hp : dropOf p q = 0 := by linarith
      have hle : p.1 ≤ q.1 := by
        unfold dropOf at hp
        split at hp
        next => norm_num at hp
        next hlt => exact not_lt.mp hlt
      have hrest := hsorted (by linarith)
      refine List.pairwise_cons.mpr ⟨fun r hr => ?_, hrest⟩
      rcases List.mem_cons.mp hr with rfl | hr
      · exact hle
      · exact hle.trans (List.rel_of_pairwise_cons hrest hr)

/-- If the closing edge is the one, the ring is sorted. -/
theorem sorted_of_drop (h : closedSum dropOf ring = 360) {first last : F × F}
    (hfirst : ring.head? = some first) (hlast : ring.getLast? = some last)
    (hdrop : first.1 < last.1) : ring.Pairwise fun a b => a.1 ≤ b.1 := by
  cases ring with
  | nil => cases hfirst
  | cons p l =>
      cases hfirst
      have hend : endOf first l = last := by
        rw [List.getLast?_cons] at hlast
        exact Option.some.inj hlast
      rw [closedSum_cons, hend, dropOf, if_pos hdrop] at h
      exact sorted_of_pathSum.2 (by linarith)

omit [Field F] [LinearOrder F] [IsStrictOrderedRing F] in
/-- The ring that begins behind an edge ends with it. -/
theorem rotate_ends {k : Nat} {a b : F × F} (h : (ringEdges ring)[k]? = some (a, b)) :
    (ring.rotate (k + 1)).head? = some b ∧ (ring.rotate (k + 1)).getLast? = some a := by
  rcases List.getElem?_zip_eq_some.mp h with ⟨ha, hb⟩
  have hk : k < ring.length := (List.getElem?_eq_some_iff.mp ha).1
  constructor
  · rw [Nat.add_comm k, ← List.rotate_rotate, List.head?_rotate (by rwa [List.length_rotate])]
    exact hb
  · rw [← List.rotate_rotate]
    have hhead := List.head?_rotate hk
    rw [ha] at hhead
    cases hrotated : ring.rotate k with
    | nil => simp [hrotated] at hhead
    | cons p l =>
        rw [hrotated] at hhead
        cases hhead
        rw [List.rotate_cons_succ, List.rotate_zero, List.getLast?_concat]

omit [Field F] [LinearOrder F] [IsStrictOrderedRing F] in
/-- The edge that closes the ring. -/
theorem closing_mem {first last : F × F} (hfirst : ring.head? = some first)
    (hlast : ring.getLast? = some last) : (last, first) ∈ ringEdges ring := by
  have hlen : 0 < ring.length := by
    cases ring with
    | nil => cases hfirst
    | cons p l => exact Nat.succ_pos _
  have hedge : (ringEdges ring)[ring.length - 1]? = some (last, first) := by
    refine List.getElem?_zip_eq_some.mpr ⟨by rwa [← List.getLast?_eq_getElem?], ?_⟩
    rw [← List.head?_rotate (by rw [List.length_rotate]; omega), List.rotate_rotate,
      Nat.add_sub_cancel' hlen, List.rotate_length]
    exact hfirst
  exact List.mem_of_getElem? hedge

/-- The ring behind the crossing edge, which is the edge back across the map. -/
structure Unrolled (ring : List (F × F)) (first last : F × F) : Prop where
  head_eq : ring.head? = some first
  last_eq : ring.getLast? = some last
  drop : first.1 < last.1
  wide : 180 < last.1 - first.1
  turn : wrapTurn (first.1 - last.1) = first.1 - last.1 + 360
  off : -180 < first.1 ∨ last.1 < 180
  sorted : ring.Pairwise fun a b => a.1 ≤ b.1

theorem RoundsPole.exists_drop (h : RoundsPole ring) (hm : MeridianFirst ring) :
    ∃ e ∈ ringEdges ring, e.2.1 < e.1.1 := by
  by_contra hnone
  push Not at hnone
  have hzero : closedSum dropOf ring = closedSum (fun _ _ => (0 : F)) ring :=
    closedSum_congr_edges fun e he => if_neg (not_lt.mpr (hnone e he))
  rw [h.closedSum_drop hm, closedSum_eq_zero fun _ _ _ _ => rfl] at hzero
  norm_num at hzero

/-- The edge that is found leads back across the map. -/
theorem RoundsPole.drop_of_found (h : RoundsPole ring) (hm : MeridianFirst ring)
    {e : (F × F) × (F × F)} (he : e ∈ ringEdges ring)
    (hfound : 180 < e.1.1 + wrapTurn (e.2.1 - e.1.1)) : e.2.1 < e.1.1 ∧ -180 < e.2.1 := by
  rw [h.turn hm he] at hfound
  have hle := (h.onMap _ (ringEdges_mem he).2).2
  unfold dropOf at hfound
  split at hfound
  next hlt => exact ⟨hlt, by linarith⟩
  next => linarith

theorem RoundsPole.unrolled_of_found (h : RoundsPole ring) (hm : MeridianFirst ring) {k : Nat}
    (hk : (ringEdges ring).findIdx?
      (fun e => decide (180 < e.1.1 + wrapTurn (e.2.1 - e.1.1))) = some k) :
    ∃ first last, Unrolled (ring.rotate (k + 1)) first last := by
  rcases List.findIdx?_eq_some_iff_getElem.mp hk with ⟨hlt, hfound, -⟩
  have hmem := List.getElem_mem hlt
  rcases h.drop_of_found hm hmem (of_decide_eq_true hfound) with ⟨hdrop, hwest⟩
  rcases rotate_ends (List.getElem?_eq_getElem hlt) with ⟨hhead, hlast⟩
  have hsum : closedSum dropOf (ring.rotate (k + 1)) = 360 := by
    rw [closedSum_rotate, h.closedSum_drop hm]
  rcases h.turn_of_drop hm hmem hdrop with ⟨hturn, hwide⟩
  exact ⟨_, _, hhead, hlast, hdrop, hwide, hturn, Or.inl hwest,
    sorted_of_drop hsum hhead hlast hdrop⟩

/-- If the first vertex is at -180 degrees, the ring is sorted as it is. -/
theorem RoundsPole.unrolled_of_first (h : RoundsPole ring) (hoff : ∀ p ∈ ring, p.1 ≠ 180)
    (hfirst : ring.Pairwise fun a b => b.1 = -180 → a.1 = -180) {first : F × F}
    (hhead : ring.head? = some first) (hwest : first.1 = -180) :
    ∃ last, Unrolled ring first last := by
  have hm : MeridianFirst ring := Or.inr ⟨hoff, hfirst⟩
  cases hlast : ring.getLast? with
  | none =>
      rw [List.getLast?_eq_none_iff.mp hlast] at hhead
      cases hhead
  | some last =>
      have hmem := List.mem_of_getLast? hlast
      have hdrop : first.1 < last.1 := by
        rw [hwest]
        refine lt_of_le_of_ne (h.onMap last hmem).1 fun heq => ?_
        -- the last vertex at -180 degrees, and so all of them
        have hall : ∀ p ∈ ring, p.1 = -180 := by
          intro p hp
          have hne : ring ≠ [] := List.ne_nil_of_mem hp
          have hsplit := List.dropLast_concat_getLast hne
          rw [List.getLast?_eq_some_getLast hne] at hlast
          rw [Option.some.inj hlast] at hsplit
          rw [← hsplit] at hfirst hp
          rcases List.mem_append.mp hp with hp | hp
          · exact (List.pairwise_append.mp hfirst).2.2 p hp last List.mem_cons_self heq.symm
          · rw [List.mem_singleton.mp hp]
            exact heq.symm
        rcases h.exists_drop hm with ⟨e, he, hlt⟩
        rcases ringEdges_mem he with ⟨ha, hb⟩
        rw [hall _ ha, hall _ hb] at hlt
        exact lt_irrefl _ hlt
      rcases h.turn_of_drop hm (closing_mem hhead hlast) hdrop with ⟨hturn, hwide⟩
      refine ⟨last, hhead, hlast, hdrop, hwide, hturn, Or.inr ?_, ?_⟩
      · exact lt_of_le_of_ne (h.onMap last hmem).2 (hoff last hmem)
      · exact sorted_of_drop (h.closedSum_drop hm) hhead hlast hdrop

theorem RoundsPole.unrolled (h : RoundsPole ring) (hm : MeridianFirst ring) :
    ∃ first last, Unrolled (ring.rotate (crossingEdge ring + 1)) first last := by
  unfold crossingEdge
  cases hfind : (ringEdges ring).findIdx?
      fun e => decide (180 < e.1.1 + wrapTurn (e.2.1 - e.1.1)) with
  | some k => exact h.unrolled_of_found hm hfind
  | none =>
      rcases h.exists_drop hm with ⟨e, he, hdrop⟩
      rcases ringEdges_mem he with ⟨-, hb⟩
      -- the edge back ends at -180 degrees
      have hnot := of_decide_eq_false (List.findIdx?_eq_none_iff.mp hfind e he)
      rw [h.turn hm he, dropOf, if_pos hdrop] at hnot
      have heq : e.2.1 = -180 := le_antisymm (by linarith) (h.onMap _ hb).1
      rcases hm with hnone | ⟨hoff, hfirst⟩
      · exact absurd heq (hnone _ hb)
      · cases hring : ring with
        | nil =>
            rw [hring] at hb
            cases hb
        | cons p l =>
            have hlen : (none : Option Nat).getD ((p :: l).length - 1) + 1 = (p :: l).length := rfl
            rw [hlen, List.rotate_length, ← hring]
            have hp : p.1 = -180 := by
              rw [hring] at hb hfirst
              rcases List.mem_cons.mp hb with hb | hb
              · rw [← hb]
                exact heq
              · exact List.rel_of_pairwise_cons hfirst hb heq
            rcases h.unrolled_of_first hoff hfirst (by rw [hring]; rfl) hp with ⟨last, hunrolled⟩
            exact ⟨p, last, hunrolled⟩

end Rounds

/-! ## The cap -/

section Cap

theorem signedArea_reverse (ring : List (F × F)) : signedArea ring.reverse = -signedArea ring := by
  rw [signedArea_eq, signedArea_eq, closedSum_reverse, ← closedSum_neg]
  refine closedSum_congr fun a _ b _ => ?_
  unfold trapezoid
  ring

/-- Along a sorted path that stays on one side of a latitude: the area between them. -/
theorem area_beside (s c : F) {p : F × F} {l : List (F × F)}
    (hsorted : (p :: l).Pairwise fun a b => a.1 ≤ b.1) (hside : ∀ q ∈ p :: l, 0 < s * (c - q.2)) :
    0 ≤ s * (pathSum trapezoid p l + c * ((endOf p l).1 - p.1)) ∧
      (p.1 < (endOf p l).1 → 0 < s * (pathSum trapezoid p l + c * ((endOf p l).1 - p.1))) := by
  induction l generalizing p with
  | nil =>
      refine ⟨?_, fun hlt => absurd hlt (lt_irrefl _)⟩
      rw [pathSum, endOf_nil, sub_self, mul_zero, add_zero, mul_zero]
  | cons q l ih =>
      rcases List.pairwise_cons.mp hsorted with ⟨hle, hrest⟩
      rcases ih hrest fun r hr => hside r (List.mem_cons_of_mem p hr) with ⟨hge, hgt⟩
      have hpq := hle q List.mem_cons_self
      have hp := hside p List.mem_cons_self
      have hq := hside q (List.mem_cons_of_mem p List.mem_cons_self)
      have hsplit : s * (pathSum trapezoid p (q :: l) + c * ((endOf p (q :: l)).1 - p.1)) =
          s * (pathSum trapezoid q l + c * ((endOf q l).1 - q.1)) +
            (q.1 - p.1) * ((s * (c - p.2) + s * (c - q.2)) / 2) := by
        rw [pathSum, endOf_cons, trapezoid]
        ring
      have hheight : 0 < (s * (c - p.2) + s * (c - q.2)) / 2 := by linarith
      rw [hsplit]
      refine ⟨add_nonneg hge (mul_nonneg (sub_nonneg.mpr hpq) hheight.le), fun hlt => ?_⟩
      rcases lt_or_eq_of_le hpq with hpq | hpq
      · exact add_pos_of_nonneg_of_pos hge (mul_pos (sub_pos.mpr hpq) hheight)
      · rw [hpq, sub_self, zero_mul, add_zero]
        rw [endOf_cons, hpq] at hlt
        exact hgt hlt

variable {ring : List (F × F)} {first last : F × F}

omit [IsStrictOrderedRing F] in
/-- No vertex has to be moved to the other meridian. -/
theorem Unrolled.onMeridians_eq (h : Unrolled ring first last)
    (honMap : ∀ p ∈ ring, -180 ≤ p.1 ∧ p.1 ≤ 180) : onMeridians ring = ring := by
  have hfirst := (honMap first (List.mem_of_head? h.head_eq)).1
  have hlast := (honMap last (List.mem_of_getLast? h.last_eq)).2
  refine List.ext_getElem? fun i => ?_
  rw [onMeridians, List.getElem?_mapIdx]
  cases hi : ring[i]? with
  | none => rfl
  | some p =>
      have hwest : ¬ (i = 0 ∧ p.1 = 180) := by
        rintro ⟨rfl, hp⟩
        rw [← List.head?_eq_getElem?, h.head_eq] at hi
        cases hi
        exact absurd h.drop (not_lt.mpr (hp ▸ hlast))
      have heast : ¬ (i + 1 = ring.length ∧ p.1 = -180) := by
        rintro ⟨hlen, hp⟩
        have hindex : i = ring.length - 1 := by omega
        rw [hindex, ← List.getLast?_eq_getElem?, h.last_eq] at hi
        cases hi
        exact absurd h.drop (not_lt.mpr (hp ▸ hfirst))
      rw [Option.map_some, if_neg hwest, if_neg heast]

/-- The crossing is between the vertices. -/
theorem Unrolled.crossLat_side (h : Unrolled ring first last)
    (honMap : ∀ p ∈ ring, -180 ≤ p.1 ∧ p.1 ≤ 180) {s c : F} (hside : ∀ p ∈ ring, 0 < s * (c - p.2)) :
    0 < s * (c - crossLat last first) := by
  have hmem := List.mem_of_head? h.head_eq
  have hmem' := List.mem_of_getLast? h.last_eq
  have hge := (honMap first hmem).1
  have hle := (honMap last hmem').2
  have hwidth : 0 < first.1 + 360 - last.1 := by
    rcases h.off with hoff | hoff
    · linarith
    · linarith
  have hlat : crossLat last first =
      last.2 + (180 - last.1) / (first.1 + 360 - last.1) * (first.2 - last.2) := by
    unfold crossLat
    rw [h.turn]
    ring_nf
  rw [hlat]
  have ht₀ : 0 ≤ (180 - last.1) / (first.1 + 360 - last.1) := div_nonneg (by linarith) hwidth.le
  have ht₁ : (180 - last.1) / (first.1 + 360 - last.1) ≤ 1 := by
    rw [div_le_one hwidth]
    linarith
  generalize (180 - last.1) / (first.1 + 360 - last.1) = t at ht₀ ht₁
  have hmix : s * (c - (last.2 + t * (first.2 - last.2))) =
      (1 - t) * (s * (c - last.2)) + t * (s * (c - first.2)) := by ring
  rw [hmix]
  have hfirst := hside first hmem
  have hlast := hside last hmem'
  rcases lt_or_eq_of_le ht₁ with hlt | rfl
  · exact add_pos_of_pos_of_nonneg (mul_pos (sub_pos.mpr hlt) hlast) (mul_nonneg ht₀ hfirst.le)
  · rw [sub_self, zero_mul, zero_add, one_mul]
    exact hfirst

/-- The cap is what is between the ring and the pole. -/
theorem Unrolled.area (h : Unrolled ring first last)
    (honMap : ∀ p ∈ ring, -180 ≤ p.1 ∧ p.1 ≤ 180) {s pole : F}
    (hside : ∀ p ∈ ring, 0 < s * (pole - p.2)) :
    0 < s * signedArea (capPoints ring (crossLat last first) pole) := by
  have hcross := h.crossLat_side honMap hside
  generalize crossLat last first = lat at hcross
  have hsorted : ((-180, lat) :: (ring ++ [(180, lat)])).Pairwise
      fun a b : F × F => a.1 ≤ b.1 := by
    refine List.pairwise_cons.mpr ⟨fun q hq => ?_, List.pairwise_append.mpr
      ⟨h.sorted, List.pairwise_singleton _ _, fun p hp q hq => ?_⟩⟩
    · rcases List.mem_append.mp hq with hq | hq
      · exact (honMap q hq).1
      · rw [List.mem_singleton.mp hq]
        norm_num
    · rw [List.mem_singleton.mp hq]
      exact (honMap p hp).2
  have hbeside : ∀ q ∈ (-180, lat) :: (ring ++ [(180, lat)]), 0 < s * (pole - q.2) := by
    intro q hq
    rcases List.mem_cons.mp hq with rfl | hq
    · exact hcross
    · rcases List.mem_append.mp hq with hq | hq
      · exact hside q hq
      · rw [List.mem_singleton.mp hq]
        exact hcross
  have hend : endOf (-180, lat) (ring ++ [(180, lat)]) = ((180, lat) : F × F) := by
    rw [endOf_append, endOf_cons, endOf_nil]
  have hpos := (area_beside s pole hsorted hbeside).2 (by rw [hend]; norm_num)
  have harea : signedArea (capPoints ring lat pole) =
      pathSum trapezoid (-180, lat) (ring ++ [(180, lat)]) + pole * (180 - -180) := by
    have hsplit : capPoints ring lat pole =
        (-180, lat) :: (ring ++ [(180, lat)] ++ [(180, pole), (-180, pole)]) := by
      rw [capPoints, h.onMeridians_eq honMap, List.cons_append, List.append_assoc]
      rfl
    rw [signedArea_eq, hsplit, closedSum_cons, pathSum_append, endOf_append, hend, endOf_cons,
      endOf_cons, endOf_nil, pathSum, pathSum, pathSum]
    unfold trapezoid
    ring
  rw [harea]
  rw [hend] at hpos
  exact hpos

/-- A closed cap is on the map, reaches the pole's edge from one end of the map to the other,
has the vertices of the ring and runs counter-clockwise. -/
structure IsCap (ring : List (F × F)) (pole : F) (cap : List (F × F)) : Prop where
  onMap : ∀ p ∈ cap, -180 ≤ p.1 ∧ p.1 ≤ 180
  vertices : ∀ p ∈ ring, p ∈ cap
  corners : (180, pole) ∈ cap ∧ (-180, pole) ∈ cap
  counterclockwise : 0 < signedArea cap

omit [IsStrictOrderedRing F] in
theorem Unrolled.capPoints_mem (h : Unrolled ring first last)
    (honMap : ∀ p ∈ ring, -180 ≤ p.1 ∧ p.1 ≤ 180) {lat pole : F} {p : F × F} :
    p ∈ capPoints ring lat pole ↔ p = (-180, lat) ∨ p ∈ ring ∨ p = (180, lat) ∨ p = (180, pole) ∨
      p = (-180, pole) := by
  rw [capPoints, h.onMeridians_eq honMap]
  simp

/-- The ring is wider than half the map. -/
theorem rounds_wide (h : RoundsPole ring ∨ RoundsPole ring.reverse)
    (hm : MeridianFirst (eastward ring)) : ∃ p ∈ ring, ∃ q ∈ ring, 180 < p.1 - q.1 := by
  rcases (eastward_of_rounds h).unrolled hm with ⟨first, last, hunrolled⟩
  have hfirst := List.mem_rotate.mp (List.mem_of_head? hunrolled.head_eq)
  have hlast := List.mem_rotate.mp (List.mem_of_getLast? hunrolled.last_eq)
  exact ⟨last, (eastward_mem last).mp hlast, first, (eastward_mem first).mp hfirst, hunrolled.wide⟩

theorem isCap_of_mem (honMap : ∀ p ∈ ring, -180 ≤ p.1 ∧ p.1 ≤ 180) {cap : PointRing F} {lat pole : F}
    (hmem : ∀ p, p ∈ cap ↔ p = (-180, lat) ∨ p ∈ ring ∨ p = (180, lat) ∨ p = (180, pole) ∨
      p = (-180, pole)) (hpos : 0 < signedArea cap) : IsCap ring pole cap.points := by
  have hiff := fun p => (points_mem cap p).trans (hmem p)
  refine ⟨fun p hp => ?_, fun p hp => (hiff p).mpr (Or.inr (Or.inl hp)), ⟨?_, ?_⟩, ?_⟩
  · rcases (hiff p).mp hp with rfl | hp | rfl | rfl | rfl
    · norm_num
    · exact honMap p hp
    · norm_num
    · norm_num
    · norm_num
  · exact (hiff _).mpr (Or.inr (Or.inr (Or.inr (Or.inl rfl))))
  · exact (hiff _).mpr (Or.inr (Or.inr (Or.inr (Or.inr rfl))))
  · rw [signedArea_points]
    exact hpos

theorem polarCap_isCap (h : RoundsPole ring ∨ RoundsPole ring.reverse)
    (hm : MeridianFirst (eastward ring)) (hlen : ring.length ≤ maxCellVertices) (north : Bool) :
    ∃ cap, polarCap ring north = some cap ∧ cap.points.length ≤ 2 * maxCellVertices ∧
      IsCap ring (if north then 90 else -90) cap.points := by
  have heast := eastward_of_rounds h
  have heastlen : (eastward ring).length = ring.length := by
    unfold eastward
    split
    next => rfl
    next => exact List.length_reverse
  rcases heast.unrolled hm with ⟨first, last, hunrolled⟩
  unfold polarCap
  simp only [hunrolled.head_eq, hunrolled.last_eq]
  have hmem' : ∀ p, p ∈ (eastward ring).rotate (crossingEdge (eastward ring) + 1) ↔ p ∈ ring :=
    fun p => List.mem_rotate.trans (eastward_mem p)
  have hrotlen : ((eastward ring).rotate (crossingEdge (eastward ring) + 1)).length = ring.length := by
    rw [List.length_rotate, heastlen]
  generalize (eastward ring).rotate (crossingEdge (eastward ring) + 1) = unrolled at *
  have honMap : ∀ p ∈ unrolled, -180 ≤ p.1 ∧ p.1 ≤ 180 := fun p hp =>
    heast.onMap p ((eastward_mem p).mpr ((hmem' p).mp hp))
  have hlat : ∀ p ∈ unrolled, -90 < p.2 ∧ p.2 < 90 := fun p hp =>
    heast.belowPole p ((eastward_mem p).mpr ((hmem' p).mp hp))
  generalize hpole : (if north then 90 else -90 : F) = pole
  have hcaplen : (capPoints unrolled (crossLat last first) pole).length = ring.length + 4 := by
    rw [capPoints, hunrolled.onMeridians_eq honMap]
    simp [hrotlen]
  rcases @pushAll_fits F _ (capPoints unrolled (crossLat last first) pole) [] (by
    rw [List.length_nil, hcaplen, maxRingPoints]
    have : maxCellVertices = 10 := rfl
    omega) with ⟨cap, hcap, hle⟩
  rw [List.length_nil, hcaplen] at hle
  have hcapmem : ∀ p, p ∈ cap ↔ _ := fun p =>
    (pushAll_mem hcap p).trans (hunrolled.capPoints_mem honMap)
  have harea : signedArea cap = signedArea (capPoints unrolled (crossLat last first) pole) :=
    pushAll_closedSum (fun p => by rw [sub_self, zero_div]) hcap
  rw [hcap]
  have hsmall : ∀ ring' : PointRing F, ring'.length = List.length cap →
      ring'.points.length ≤ 2 * maxCellVertices := by
    intro ring' heq
    refine (points_length_le ring').trans ?_
    rw [heq]
    have : maxCellVertices = 10 := rfl
    omega
  have hisCap : ∀ ring' : PointRing F, (∀ p, p ∈ ring' ↔ p ∈ cap) → 0 < signedArea ring' →
      IsCap ring pole ring'.points := fun ring' hsame =>
    isCap_of_mem (fun p hp => honMap p ((hmem' p).mpr hp)) fun p =>
      (hsame p).trans ((hcapmem p).trans (by rw [hmem' p]))
  cases north with
  | true =>
      refine ⟨cap, rfl, hsmall cap rfl, hisCap cap (fun p => Iff.rfl) ?_⟩
      have hside : ∀ p ∈ unrolled, 0 < 1 * (pole - p.2) := by
        intro p hp
        have := (hlat p hp).2
        rw [← hpole, if_pos rfl]
        linarith
      have hpos := hunrolled.area honMap hside
      rw [harea]
      linarith
  | false =>
      refine ⟨cap.reverse, rfl, hsmall _ List.length_reverse,
        hisCap _ (fun p => List.mem_reverse) ?_⟩
      have hside : ∀ p ∈ unrolled, 0 < -1 * (pole - p.2) := by
        intro p hp
        have := (hlat p hp).1
        rw [← hpole, if_neg (by simp)]
        linarith
      have hpos := hunrolled.area honMap hside
      rw [signedArea_reverse, harea]
      linarith

end Cap

end RasterH3.Encoding
