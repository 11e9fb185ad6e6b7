import RasterH3.Encoding.WkbWriter
import RasterH3.Lib.ClosedPaths

/-!
# Cells across the antimeridian

A ring across the antimeridian is clipped twice, once for each side. What a clipped ring
should be is said by two numbers that can be computed along its edges, its signed area and
how often it winds around a point. Both are sums over the edges of a closed path, of a term
that vanishes on an edge traversed back and is additive along a line.

Counted on one side of the meridian only, such a sum passes to the clipped ring
(`closedSum_clip`): an edge that crosses is cut at the meridian, and the edges that the
clipped ring has along the meridian itself are vertical and give nothing. So the areas of
the two pieces add up to the area of the ring (`signedArea_pieces`), and each piece winds
around a point of its side as often as the ring does (`winding_clip`), which is what is left
of its orientation. For the winding number an edge counts if it passes above the point,
westward or eastward; an edge has its western end and not its eastern one, so that a vertex
above the point is counted once.

Points are pushed one by one, and a repeated point is skipped. That makes no difference to a
sum whose term vanishes on an edge of length zero, nor to the set of points
(`pushAll_spec`). No ring has room for fewer points than are pushed: an edge leaves at most
two.
-/

namespace RasterH3.Encoding

open ClosedPath

variable {F : Type} [LinearOrder F]

/-! ## Pushed points -/

section Push

variable {M : Type} [AddCommMonoid M] {τ : F × F → F × F → M}

theorem push_cases {ring ring' : PointRing F} {p : F × F} (h : ring.push p = some ring') :
    (ring.getLast? = some p ∧ ring' = ring) ∨ ring' = ring ++ [p] := by
  unfold PointRing.push at h
  split at h
  next hlast =>
    cases h
    exact Or.inl ⟨hlast, rfl⟩
  next =>
    split at h
    next =>
      cases h
      exact Or.inr rfl
    next => cases h

/-- A ring with its points pushed is the list of points for every sum, and as a set. -/
theorem pushAll_spec (hself : ∀ p, τ p p = 0) {ps : List (F × F)} {ring ring' : PointRing F}
    (h : ring.pushAll ps = some ring') :
    ring'.getLast? = (ring ++ ps).getLast? ∧
      (∀ start, pathSum τ start ring' = pathSum τ start (ring ++ ps)) ∧
      ∀ p, p ∈ ring' ↔ p ∈ ring ++ ps := by
  induction ps generalizing ring with
  | nil =>
      cases h
      rw [List.append_nil]
      exact ⟨rfl, fun _ => rfl, fun _ => Iff.rfl⟩
  | cons p ps ih =>
      rcases Option.bind_eq_some_iff.mp h with ⟨next, hpush, hrest⟩
      rcases ih hrest with ⟨hlast, hsum, hmem⟩
      rcases push_cases hpush with ⟨hrepeat, rfl⟩ | rfl
      · have hp : p ∈ next := List.mem_of_getLast? hrepeat
        refine ⟨?_, fun start => ?_, fun q => ?_⟩
        · rw [hlast]
          cases ps with
          | nil => rw [List.append_nil, hrepeat, List.getLast?_append]; rfl
          | cons r ps => simp [List.getLast?_append, List.getLast?_cons]
        · rw [hsum, pathSum_repeat hself hrepeat]
        · rw [hmem, List.mem_append, List.mem_append, List.mem_cons]
          refine ⟨fun hq => hq.imp_right Or.inr, fun hq => ?_⟩
          rcases hq with hq | rfl | hq
          · exact Or.inl hq
          · exact Or.inl hp
          · exact Or.inr hq
      · rw [List.append_assoc] at hlast hmem
        simp only [List.append_assoc] at hsum
        exact ⟨hlast, hsum, hmem⟩

theorem pushAll_closedSum (hself : ∀ p, τ p p = 0) {ps : List (F × F)} {ring : PointRing F}
    (h : PointRing.pushAll [] ps = some ring) : closedSum τ ring = closedSum τ ps := by
  rcases pushAll_spec hself h with ⟨hlast, hsum, -⟩
  rw [List.nil_append] at hlast
  unfold closedSum
  rw [hlast]
  cases ps.getLast? with
  | none => rfl
  | some z => exact hsum z

theorem pushAll_mem {ps : List (F × F)} {ring : PointRing F}
    (h : PointRing.pushAll [] ps = some ring) (p : F × F) : p ∈ ring ↔ p ∈ ps :=
  (@pushAll_spec F _ Nat _ (fun _ _ => 0) (fun _ => rfl) ps [] ring h).2.2 p

/-- There is room for the points that there are. -/
theorem pushAll_fits {ps : List (F × F)} {ring : PointRing F}
    (h : ring.length + ps.length ≤ maxRingPoints) :
    ∃ ring', ring.pushAll ps = some ring' ∧ ring'.length ≤ ring.length + ps.length := by
  induction ps generalizing ring with
  | nil => exact ⟨ring, rfl, le_rfl⟩
  | cons p ps ih =>
      rw [List.length_cons] at h
      have hstep : ∃ next, ring.push p = some next ∧ next.length ≤ ring.length + 1 := by
        unfold PointRing.push
        split
        next => exact ⟨ring, rfl, Nat.le_succ _⟩
        next =>
          rw [if_pos (by omega)]
          exact ⟨_, rfl, by rw [List.length_append, List.length_singleton]⟩
      rcases hstep with ⟨next, hnext, hlen⟩
      rcases @ih next (by omega) with ⟨ring', hring', hlen'⟩
      refine ⟨ring', ?_, by rw [List.length_cons]; omega⟩
      show (ring.push p >>= fun next => PointRing.pushAll next ps) = some ring'
      rw [hnext]
      exact hring'

theorem points_closedSum (hself : ∀ p, τ p p = 0) (ring : PointRing F) :
    closedSum τ ring.points = closedSum τ ring := by
  unfold PointRing.points
  split
  next h => exact closedSum_dropLast hself h.1 h.2
  next => rfl

theorem points_mem (ring : PointRing F) (p : F × F) : p ∈ ring.points ↔ p ∈ ring := by
  unfold PointRing.points
  split
  next h =>
    refine ⟨List.mem_of_mem_dropLast, fun hp => ?_⟩
    have hne : ring ≠ [] := by
      intro h0
      rw [h0] at hp
      cases hp
    have hsplit := List.dropLast_concat_getLast hne
    rw [← hsplit, List.mem_append, List.mem_singleton] at hp
    rcases hp with hp | rfl
    · exact hp
    · -- the last point is the first one
      cases ring with
      | nil => exact absurd rfl hne
      | cons q ring =>
          cases ring with
          | nil => simp at h
          | cons r ring =>
              have hlast := h.2
              rw [List.head?_cons, List.getLast?_eq_some_getLast hne] at hlast
              rw [← Option.some.inj hlast]
              exact List.mem_cons_self
  next => rfl

theorem points_length_le (ring : PointRing F) : ring.points.length ≤ ring.length := by
  unfold PointRing.points
  split
  next => exact (List.dropLast_sublist _).length_le
  next => exact le_rfl

end Push

/-! ## Clipped sums -/

variable [Field F]

section Clip

variable {M : Type} [AddCommMonoid M] {τ : F × F → F × F → M} {keepEast : Bool}

def OnMeridian (p : F × F) : Prop := p.1 = 180

theorem keptFrom_eq (prev : F × F) (ring : List (F × F)) :
    keptFrom keepEast prev ring = ClosedPath.keptFrom (inside keepEast) crossing prev ring := by
  induction ring generalizing prev with
  | nil => rfl
  | cons cur ring ih =>
      rw [keptFrom, ClosedPath.keptFrom, ih]
      rfl

theorem closedSum_clip (h : Clips (inside keepEast) crossing OnMeridian τ)
    (hself : ∀ p, τ p p = 0) {ring piece : List (F × F)}
    (hclip : clipAt180 ring keepEast = some piece) : closedSum τ piece = closedSum τ ring := by
  unfold clipAt180 at hclip
  split at hclip
  next hnone =>
    cases hclip
    rw [List.getLast?_eq_none_iff.mp hnone]
  next last hlast =>
    rw [pushAll_closedSum hself hclip, keptFrom_eq]
    exact closedSum_kept h ⟨(180, 0), rfl⟩ hlast

theorem inside_of_line (keepEast : Bool) {p : F × F} (h : p.1 = 180) : inside keepEast p = true := by
  cases keepEast with
  | true => exact decide_eq_true h.ge
  | false => exact decide_eq_true h.le

/-- Beyond the line on the side that is not kept, or on it. -/
theorem line_of_inside {p : F × F} (h : inside keepEast p = false ∨ OnMeridian p)
    (hin : inside keepEast p = true) : p.1 = 180 := by
  rcases h with h | h
  · rw [hin] at h
    cases h
  · exact h

theorem keptOf_mem {prev cur p : F × F} (h : p ∈ keptOf keepEast prev cur) :
    inside keepEast p = true := by
  have hcross : inside keepEast (crossing prev cur) = true := inside_of_line keepEast rfl
  unfold keptOf at h
  split at h
  next hprev hcur =>
    rw [List.mem_singleton.mp h]
    exact hcur
  next =>
    rw [List.mem_singleton.mp h]
    exact hcross
  next hprev hcur =>
    rcases List.mem_cons.mp h with rfl | h
    · exact hcross
    · rw [List.mem_singleton.mp h]
      exact hcur
  next => cases h

theorem keptFrom_mem {p : F × F} {ring : List (F × F)} :
    ∀ {prev : F × F}, p ∈ keptFrom keepEast prev ring → inside keepEast p = true := by
  induction ring with
  | nil =>
      intro prev h
      cases h
  | cons cur ring ih =>
      intro prev h
      rcases List.mem_append.mp h with h | h
      · exact keptOf_mem h
      · exact ih h

/-- Every vertex of the side is kept. -/
theorem mem_keptFrom {p : F × F} {ring : List (F × F)} (hin : inside keepEast p = true) :
    ∀ {prev : F × F}, p ∈ ring → p ∈ keptFrom keepEast prev ring := by
  induction ring with
  | nil =>
      intro prev h
      cases h
  | cons cur ring ih =>
      intro prev h
      rw [keptFrom, List.mem_append]
      rcases List.mem_cons.mp h with rfl | h
      · refine Or.inl ?_
        unfold keptOf
        rw [hin]
        cases inside keepEast prev with
        | true => exact List.mem_cons_self
        | false => exact List.mem_cons_of_mem _ List.mem_cons_self
      · exact Or.inr (ih h)

theorem keptFrom_length (prev : F × F) (ring : List (F × F)) :
    (keptFrom keepEast prev ring).length ≤ 2 * ring.length := by
  induction ring generalizing prev with
  | nil => exact le_rfl
  | cons cur ring ih =>
      have hedge : (keptOf keepEast prev cur).length ≤ 2 := by
        unfold keptOf
        split
        next => exact Nat.le_succ 1
        next => exact Nat.le_succ 1
        next => exact le_rfl
        next => exact Nat.zero_le 2
      rw [keptFrom, List.length_append, List.length_cons]
      have := ih cur
      omega

theorem clipAt180_inside {ring piece : List (F × F)} (h : clipAt180 ring keepEast = some piece)
    {p : F × F} (hp : p ∈ piece) : inside keepEast p = true := by
  unfold clipAt180 at h
  split at h
  next =>
    cases h
    cases hp
  next => exact keptFrom_mem ((pushAll_mem h p).mp hp)

theorem mem_clipAt180 {ring piece : List (F × F)} (h : clipAt180 ring keepEast = some piece)
    {p : F × F} (hin : inside keepEast p = true) (hp : p ∈ ring) : p ∈ piece := by
  unfold clipAt180 at h
  split at h
  next hnone =>
    rw [List.getLast?_eq_none_iff.mp hnone] at hp
    cases hp
  next => exact (pushAll_mem h p).mpr (mem_keptFrom hin hp)

/-- A kept point is a vertex or on the meridian. -/
theorem keptFrom_source {p : F × F} {ring : List (F × F)} :
    ∀ {prev : F × F}, p ∈ keptFrom keepEast prev ring → p ∈ ring ∨ OnMeridian p := by
  induction ring with
  | nil =>
      intro prev h
      cases h
  | cons cur ring ih =>
      intro prev h
      rcases List.mem_append.mp h with h | h
      · have hof : p = cur ∨ OnMeridian p := by
          unfold keptOf at h
          split at h
          next => exact Or.inl (List.mem_singleton.mp h)
          next =>
            rw [List.mem_singleton.mp h]
            exact Or.inr rfl
          next =>
            rcases List.mem_cons.mp h with rfl | h
            · exact Or.inr rfl
            · exact Or.inl (List.mem_singleton.mp h)
          next => cases h
        exact hof.imp_left fun hp => List.mem_cons.mpr (Or.inl hp)
      · exact (ih h).imp_left (List.mem_cons_of_mem cur)

theorem clipAt180_source {ring piece : List (F × F)} (h : clipAt180 ring keepEast = some piece)
    {p : F × F} (hp : p ∈ piece) : p ∈ ring ∨ OnMeridian p := by
  unfold clipAt180 at h
  split at h
  next =>
    cases h
    cases hp
  next => exact keptFrom_source ((pushAll_mem h p).mp hp)

/-- A piece holds at most two points for each edge. -/
theorem clipAt180_fits {ring : List (F × F)} (keepEast : Bool) (h : ring.length ≤ maxCellVertices) :
    ∃ piece, clipAt180 ring keepEast = some piece ∧ piece.length ≤ 2 * maxCellVertices := by
  unfold clipAt180
  split
  next => exact ⟨[], rfl, Nat.zero_le _⟩
  next last _ =>
    have hlen := @keptFrom_length F _ _ keepEast last ring
    rcases @pushAll_fits F _ (keptFrom keepEast last ring) [] (by
      rw [List.length_nil, maxRingPoints]
      omega) with ⟨piece, hpiece, hle⟩
    refine ⟨piece, hpiece, ?_⟩
    rw [List.length_nil] at hle
    omega

end Clip

/-! ## Area and winding number -/

section Sums

variable [IsStrictOrderedRing F]

/-- The signed area of a polygon, counter-clockwise positive. -/
def signedArea (ring : List (F × F)) : F :=
  closedSum (fun a b => (a.1 * b.2 - b.1 * a.2) / 2) ring

/-- The area below an edge, westward positive. -/
def trapezoid (a b : F × F) : F := -((b.1 - a.1) * (a.2 + b.2)) / 2

theorem signedArea_eq (ring : List (F × F)) : signedArea ring = closedSum trapezoid ring := by
  have hsplit : ∀ a b : F × F, (a.1 * b.2 - b.1 * a.2) / 2 =
      trapezoid a b + (b.1 * b.2 / 2 - a.1 * a.2 / 2) := by
    intro a b
    unfold trapezoid
    ring
  unfold signedArea
  simp only [hsplit]
  rw [closedSum_add, closedSum_telescope (fun p : F × F => p.1 * p.2 / 2), add_zero]

/-- The latitude of the line through `a` and `b`. -/
def latAt (a b : F × F) (lng : F) : F := a.2 + (lng - a.1) / (b.1 - a.1) * (b.2 - a.2)

/-- One for an edge that passes above the point westward, less one for an eastward edge. An edge
has its western end. -/
def passes (q a b : F × F) : ℤ :=
  if b.1 ≤ q.1 ∧ q.1 < a.1 ∧ q.2 < latAt a b q.1 then 1
  else if a.1 ≤ q.1 ∧ q.1 < b.1 ∧ q.2 < latAt a b q.1 then -1
  else 0

/-- How often a polygon winds around a point, counter-clockwise. -/
def winding (q : F × F) (ring : List (F × F)) : ℤ := closedSum (passes q) ring

variable {keepEast : Bool}

omit [LinearOrder F] [IsStrictOrderedRing F] in
theorem latAt_comm {a b : F × F} (h : a.1 ≠ b.1) (lng : F) : latAt a b lng = latAt b a lng := by
  unfold latAt
  have h₁ : b.1 - a.1 ≠ 0 := sub_ne_zero.mpr h.symm
  have h₂ : a.1 - b.1 ≠ 0 := sub_ne_zero.mpr h
  field_simp
  ring

omit [LinearOrder F] [IsStrictOrderedRing F] in
theorem crossing_eq (a b : F × F) : crossing a b = (180, latAt a b 180) := rfl

omit [LinearOrder F] [IsStrictOrderedRing F] in
theorem crossing_comm {a b : F × F} (h : a.1 ≠ b.1) : crossing a b = crossing b a := by
  rw [crossing_eq, crossing_eq, latAt_comm h]

omit [LinearOrder F] [IsStrictOrderedRing F] in
/-- Up to the crossing the line is the same. -/
theorem latAt_crossing {a b : F × F} (hab : a.1 ≠ b.1) (ha : a.1 ≠ 180) (lng : F) :
    latAt a (crossing a b) lng = latAt a b lng := by
  have h₁ : b.1 - a.1 ≠ 0 := sub_ne_zero.mpr hab.symm
  have h₂ : (180 : F) - a.1 ≠ 0 := sub_ne_zero.mpr ha.symm
  simp only [latAt, crossing]
  field_simp
  ring

omit [IsStrictOrderedRing F] in
theorem passes_self (q p : F × F) : passes q p p = 0 := by
  unfold passes
  rw [if_neg fun h => absurd h.2.1 (not_lt.mpr h.1), if_neg fun h => absurd h.2.1 (not_lt.mpr h.1)]

omit [IsStrictOrderedRing F] in
theorem passes_back (q a b : F × F) : passes q a b + passes q b a = 0 := by
  rcases eq_or_ne a.1 b.1 with heq | hne
  · have hnone : ∀ c d : F × F, c.1 = d.1 → passes q c d = 0 := by
      intro c d h
      unfold passes
      rw [if_neg fun h' => absurd h'.2.1 (not_lt.mpr (h ▸ h'.1)),
        if_neg fun h' => absurd h'.2.1 (not_lt.mpr (h ▸ h'.1))]
    rw [hnone a b heq, hnone b a heq.symm, add_zero]
  · unfold passes
    rw [latAt_comm hne.symm]
    by_cases h₁ : b.1 ≤ q.1 ∧ q.1 < a.1 ∧ q.2 < latAt a b q.1
    · rw [if_pos h₁, if_neg fun h => absurd h.2.1 (not_lt.mpr h₁.1), if_pos h₁]
      rfl
    · rw [if_neg h₁]
      by_cases h₂ : a.1 ≤ q.1 ∧ q.1 < b.1 ∧ q.2 < latAt a b q.1
      · rw [if_pos h₂, if_pos h₂]
        rfl
      · rw [if_neg h₂, if_neg h₂, if_neg h₁]
        rfl

omit [IsStrictOrderedRing F] in
/-- An edge does not pass above a point that is not between its ends. -/
theorem passes_eq_zero {q a b : F × F} (h : (q.1 < a.1 ∧ q.1 < b.1) ∨ (a.1 ≤ q.1 ∧ b.1 ≤ q.1)) :
    passes q a b = 0 := by
  unfold passes
  rcases h with h | h
  · rw [if_neg fun h' => absurd h'.1 (not_le.mpr h.2), if_neg fun h' => absurd h'.1 (not_le.mpr h.1)]
  · rw [if_neg fun h' => absurd h'.2.1 (not_lt.mpr h.1),
      if_neg fun h' => absurd h'.2.1 (not_lt.mpr h.2)]

/-- The side of a point: the meridian is east. -/
def IsSide (keepEast : Bool) (q : F × F) : Prop := if keepEast then 180 ≤ q.1 else q.1 < 180

omit [IsStrictOrderedRing F] in
theorem passes_beyond {q p p' : F × F} (hq : IsSide keepEast q)
    (hp : inside keepEast p = false ∨ OnMeridian p)
    (hp' : inside keepEast p' = false ∨ OnMeridian p') : passes q p p' = 0 := by
  cases keepEast with
  | true =>
      have hle : ∀ r : F × F, inside true r = false ∨ OnMeridian r → r.1 ≤ q.1 := by
        intro r hr
        rcases hr with hr | hr
        · exact (not_le.mp (of_decide_eq_false hr)).le.trans hq
        · exact hr.le.trans hq
      exact passes_eq_zero (Or.inr ⟨hle p hp, hle p' hp'⟩)
  | false =>
      have hlt : ∀ r : F × F, inside false r = false ∨ OnMeridian r → q.1 < r.1 := by
        intro r hr
        rcases hr with hr | hr
        · exact lt_trans hq (not_le.mp (of_decide_eq_false hr))
        · exact lt_of_lt_of_eq hq hr.symm
      exact passes_eq_zero (Or.inl ⟨hlt p hp, hlt p' hp'⟩)

omit [IsStrictOrderedRing F] in
/-- The ends of an edge that crosses are on either side. -/
theorem ends_of_cross {p q : F × F} (h : inside keepEast p ≠ inside keepEast q) :
    (p.1 < 180 ∧ 180 ≤ q.1) ∨ (p.1 ≤ 180 ∧ 180 < q.1) ∨ (180 < p.1 ∧ q.1 ≤ 180) ∨
      180 ≤ p.1 ∧ q.1 < 180 := by
  cases keepEast with
  | true =>
      rcases le_or_gt 180 p.1 with hp | hp
      · rcases le_or_gt 180 q.1 with hq | hq
        · simp [inside, hp, hq] at h
        · exact Or.inr (Or.inr (Or.inr ⟨hp, hq⟩))
      · rcases le_or_gt 180 q.1 with hq | hq
        · exact Or.inl ⟨hp, hq⟩
        · simp [inside, not_le.mpr hp, not_le.mpr hq] at h
  | false =>
      rcases le_or_gt p.1 180 with hp | hp
      · rcases le_or_gt q.1 180 with hq | hq
        · simp [inside, hp, hq] at h
        · exact Or.inr (Or.inl ⟨hp, hq⟩)
      · rcases le_or_gt q.1 180 with hq | hq
        · exact Or.inr (Or.inr (Or.inl ⟨hp, hq⟩))
        · simp [inside, not_le.mpr hp, not_le.mpr hq] at h

omit [IsStrictOrderedRing F] in
/-- An edge that leaves the side is cut at the meridian. -/
theorem passes_cut {q p p' : F × F} (hq : IsSide keepEast q) (hp : inside keepEast p = true)
    (hp' : inside keepEast p' = false) : passes q p p' = passes q p (crossing p p') := by
  have hcross : (crossing p p').1 = 180 := rfl
  cases keepEast with
  | true =>
      have h₁ : 180 ≤ p.1 := of_decide_eq_true hp
      have h₂ : p'.1 < 180 := not_le.mp (of_decide_eq_false hp')
      have hq' : 180 ≤ q.1 := hq
      unfold passes
      rw [hcross]
      by_cases hlt : q.1 < p.1
      · rw [latAt_crossing (h₂.trans_le h₁).ne' (hq'.trans_lt hlt).ne']
        simp only [h₂.le.trans hq', hq', hlt, true_and, not_le.mpr hlt, false_and]
      · simp only [hlt, false_and, and_false, not_lt.mpr (h₂.le.trans hq'), not_lt.mpr hq', if_false]
  | false =>
      have h₁ : p.1 ≤ 180 := of_decide_eq_true hp
      have h₂ : 180 < p'.1 := not_le.mp (of_decide_eq_false hp')
      have hq' : q.1 < 180 := hq
      unfold passes
      rw [hcross]
      by_cases hle : p.1 ≤ q.1
      · rw [latAt_crossing (h₁.trans_lt h₂).ne (hle.trans_lt hq').ne]
        simp only [not_le.mpr (hq'.trans h₂), not_le.mpr hq', hle, hq', hq'.trans h₂, true_and,
          false_and]
      · simp only [not_le.mpr (hq'.trans h₂), not_le.mpr hq', hle, false_and, if_false]

omit [IsStrictOrderedRing F] in
theorem clips_passes {q : F × F} (hq : IsSide keepEast q) :
    Clips (inside keepEast) crossing OnMeridian (passes q) where
  cross_onLine _ _ _ := rfl
  beyond _ _ hp hp' := passes_beyond hq hp hp'
  cross p p' hne := by
    have hends : p.1 ≠ p'.1 := by
      rcases ends_of_cross hne with h | h | h | h
      · exact (h.1.trans_le h.2).ne
      · exact (h.1.trans_lt h.2).ne
      · exact (h.2.trans_lt h.1).ne'
      · exact (h.2.trans_le h.1).ne'
    have hline : OnMeridian (crossing p p') := rfl
    cases hp : inside keepEast p with
    | true =>
        have hp' : inside keepEast p' = false := by
          rw [hp] at hne
          exact Bool.eq_false_iff.mpr (Ne.symm hne)
        rw [passes_cut hq hp hp', passes_beyond hq (Or.inr hline) (Or.inl hp'), add_zero]
    | false =>
        have hp' : inside keepEast p' = true := by
          rw [hp] at hne
          exact Bool.of_not_eq_false (Ne.symm hne)
        have hcut := passes_cut hq hp' hp
        rw [← crossing_comm hends] at hcut
        rw [passes_beyond hq (Or.inl hp) (Or.inr hline), zero_add]
        have h₁ := passes_back q p p'
        have h₂ := passes_back q (crossing p p') p'
        omega

/-- The area below the part of an edge on one side. -/
def sideTrapezoid (keepEast : Bool) (a b : F × F) : F :=
  match inside keepEast a, inside keepEast b with
  | true, true => trapezoid a b
  | true, false => trapezoid a (crossing a b)
  | false, true => trapezoid (crossing a b) b
  | false, false => 0

omit [LinearOrder F] [IsStrictOrderedRing F] in
theorem trapezoid_of_vertical {a b : F × F} (h : a.1 = b.1) : trapezoid a b = 0 := by
  rw [trapezoid, h, sub_self, zero_mul, neg_zero, zero_div]

omit [IsStrictOrderedRing F] in
theorem sideTrapezoid_self (p : F × F) : sideTrapezoid keepEast p p = 0 := by
  unfold sideTrapezoid
  cases inside keepEast p with
  | true => exact trapezoid_of_vertical rfl
  | false => rfl

omit [IsStrictOrderedRing F] in
theorem clips_sideTrapezoid (keepEast : Bool) :
    Clips (inside keepEast) crossing OnMeridian (sideTrapezoid (F := F) keepEast) where
  cross_onLine _ _ _ := rfl
  beyond p p' hp hp' := by
    unfold sideTrapezoid
    split
    next h h' =>
      exact trapezoid_of_vertical ((line_of_inside hp h).trans (line_of_inside hp' h').symm)
    next h _ => exact trapezoid_of_vertical (line_of_inside hp h)
    next _ h' => exact trapezoid_of_vertical (line_of_inside hp' h').symm
    next => rfl
  cross p p' hne := by
    have hcross : inside keepEast (crossing p p') = true := inside_of_line keepEast rfl
    unfold sideTrapezoid
    rw [hcross]
    cases hp : inside keepEast p with
    | true =>
        have hp' : inside keepEast p' = false := by
          rw [hp] at hne
          exact Bool.eq_false_iff.mpr (Ne.symm hne)
        rw [hp']
        simp only
        rw [trapezoid_of_vertical (a := crossing p p') (b := crossing (crossing p p') p') rfl, add_zero]
    | false =>
        have hp' : inside keepEast p' = true := by
          rw [hp] at hne
          exact Bool.of_not_eq_false (Ne.symm hne)
        rw [hp']
        simp only
        rw [trapezoid_of_vertical (a := crossing p (crossing p p')) (b := crossing p p') rfl, zero_add]

theorem trapezoid_cut {a b : F × F} (h : a.1 ≠ b.1) :
    trapezoid a b = trapezoid a (crossing a b) + trapezoid (crossing a b) b := by
  have hne : b.1 - a.1 ≠ 0 := sub_ne_zero.mpr h.symm
  simp only [trapezoid, crossing]
  field_simp
  ring

/-- The two sides make up the edge. -/
theorem trapezoid_eq_sides (a b : F × F) :
    trapezoid a b = sideTrapezoid false a b + sideTrapezoid true a b := by
  unfold sideTrapezoid
  rcases lt_trichotomy a.1 180 with ha | ha | ha
  · rcases lt_trichotomy b.1 180 with hb | hb | hb
    · simp [inside, ha.le, hb.le, not_le.mpr ha, not_le.mpr hb]
    · simp only [inside, ha.le, hb.le, hb.ge, not_le.mpr ha, decide_true, decide_false, if_true,
        Bool.false_eq_true, if_false]
      rw [trapezoid_of_vertical (a := crossing a b) (b := b) hb.symm, add_zero]
    · simp only [inside, ha.le, hb.le, not_le.mpr ha, not_le.mpr hb, decide_true, decide_false,
        if_true, Bool.false_eq_true, if_false]
      exact trapezoid_cut (ha.trans hb).ne
  · rcases lt_trichotomy b.1 180 with hb | hb | hb
    · simp only [inside, ha.le, ha.ge, hb.le, not_le.mpr hb, decide_true, decide_false, if_true,
        Bool.false_eq_true, if_false]
      rw [trapezoid_of_vertical (a := a) (b := crossing a b) ha, add_zero]
    · simp only [inside, ha.le, ha.ge, hb.le, hb.ge, decide_true, if_true, Bool.false_eq_true,
        if_false]
      rw [trapezoid_of_vertical (ha.trans hb.symm), add_zero]
    · simp only [inside, ha.le, ha.ge, hb.le, not_le.mpr hb, decide_true, decide_false, if_true,
        Bool.false_eq_true, if_false]
      rw [trapezoid_of_vertical (a := a) (b := crossing a b) ha, zero_add]
  · rcases lt_trichotomy b.1 180 with hb | hb | hb
    · simp only [inside, ha.le, hb.le, not_le.mpr ha, not_le.mpr hb, decide_true, decide_false,
        if_true, Bool.false_eq_true, if_false]
      rw [add_comm]
      exact trapezoid_cut (hb.trans ha).ne'
    · simp only [inside, ha.le, hb.le, hb.ge, not_le.mpr ha, decide_true, decide_false, if_true,
        Bool.false_eq_true, if_false]
      rw [trapezoid_of_vertical (a := crossing a b) (b := b) hb.symm, zero_add]
    · simp [inside, ha.le, hb.le, not_le.mpr ha, not_le.mpr hb]

/-- A clipped ring has the area of its side. -/
theorem signedArea_clip {ring piece : List (F × F)} (h : clipAt180 ring keepEast = some piece) :
    signedArea piece = closedSum (sideTrapezoid keepEast) ring := by
  rw [signedArea_eq, ← closedSum_clip (clips_sideTrapezoid keepEast) sideTrapezoid_self h]
  refine closedSum_congr fun a ha b hb => ?_
  unfold sideTrapezoid
  rw [clipAt180_inside h ha, clipAt180_inside h hb]

/-- The areas of the pieces add up. -/
theorem signedArea_pieces {ring west east : List (F × F)}
    (hwest : clipAt180 ring false = some west) (heast : clipAt180 ring true = some east) :
    signedArea west + signedArea east = signedArea ring := by
  rw [signedArea_clip hwest, signedArea_clip heast, signedArea_eq, ← closedSum_add]
  exact closedSum_congr fun a _ b _ => (trapezoid_eq_sides a b).symm

omit [IsStrictOrderedRing F] in
/-- A piece winds around a point of its side as the ring does. -/
theorem winding_clip {ring piece : List (F × F)} (h : clipAt180 ring keepEast = some piece)
    {q : F × F} (hq : IsSide keepEast q) : winding q piece = winding q ring :=
  closedSum_clip (clips_passes hq) (passes_self q) h

end Sums

end RasterH3.Encoding
