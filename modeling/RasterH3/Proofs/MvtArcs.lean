import RasterH3.Proofs.MvtGeometry
import RasterH3.Proofs.TileCoverage

/-!
# Around the map

A cell is drawn by its longitudes, which come back to where they were after a turn.
Longitudes that lie in an arc of less than half a turn are unwrapped: the walk from corner
to corner takes the short way, so it never leaves the arc, and two of its numbers are as
close as the longitudes they name. An arc shorter than half a turn is found so if there is
one.

A ring around a pole lies in no arc. Its cap starts and ends where the ring meets the seam
of the map, and that point is taken from the edge that passes over the seam, or from the last
edge if none does. In a ring that crosses the seam, one edge jumps back by half a turn or
more when the ring is walked eastward, because the differences of the longitudes cancel as
they are and the wrapped ones do not. Unwrapped, this edge passes over the seam, unless it
ends on it. A corner that lies on the seam is therefore missed by the search, which does no
harm if it is the first: then the edge that leads to it is the last one. The meeting point is
then on the map like all other corners of the cap.
-/

namespace RasterH3.Pmtiles.Mvt

/-! ## Longitudes in an arc -/

section Folds

variable {F : Type} [LinearOrder F]

theorem foldl_min_spec (xs : List F) (x : F) :
    (xs.foldl min x = x ∨ xs.foldl min x ∈ xs) ∧ xs.foldl min x ≤ x ∧
      ∀ y ∈ xs, xs.foldl min x ≤ y := by
  induction xs generalizing x with
  | nil => exact ⟨.inl rfl, le_rfl, nofun⟩
  | cons y xs ih =>
      obtain ⟨hmem, hle, hall⟩ := ih (min x y)
      rw [List.foldl_cons]
      refine ⟨?_, hle.trans (min_le_left x y), List.forall_mem_cons.mpr
        ⟨hle.trans (min_le_right x y), hall⟩⟩
      rcases hmem with heq | hmem
      · rcases min_choice x y with hx | hy
        · exact .inl (heq.trans hx)
        · exact .inr (List.mem_cons.mpr (.inl (heq.trans hy)))
      · exact .inr (List.mem_cons_of_mem y hmem)

theorem foldl_max_spec (xs : List F) (x : F) :
    (xs.foldl max x = x ∨ xs.foldl max x ∈ xs) ∧ x ≤ xs.foldl max x ∧
      ∀ y ∈ xs, y ≤ xs.foldl max x := by
  induction xs generalizing x with
  | nil => exact ⟨.inl rfl, le_rfl, nofun⟩
  | cons y xs ih =>
      obtain ⟨hmem, hle, hall⟩ := ih (max x y)
      rw [List.foldl_cons]
      refine ⟨?_, (le_max_left x y).trans hle, List.forall_mem_cons.mpr
        ⟨(le_max_right x y).trans hle, hall⟩⟩
      rcases hmem with heq | hmem
      · rcases max_choice x y with hx | hy
        · exact .inl (heq.trans hx)
        · exact .inr (List.mem_cons.mpr (.inl (heq.trans hy)))
      · exact .inr (List.mem_cons_of_mem y hmem)

end Folds

section Arcs

variable {F : Type} [Field F] [LinearOrder F]

/-- The longitudes lie in an arc shorter than `w`, whichever turn they are counted in. -/
def InArc (w : F) (xs : List F) : Prop :=
  ∃ west : F, ∀ x ∈ xs, ∃ k : Int, west ≤ x + k ∧ x + k < west + w

/-- The longitudes spread over half the map, whichever way around. -/
structure AroundPole (xs : List F) : Prop where
  apart : ∃ x ∈ xs, ∃ y ∈ xs, 1 / 2 < x - y
  everyWay : ¬ InArc (1 / 2) xs

theorem least_spec {xs : List F} (h : xs ≠ []) : least xs ∈ xs ∧ ∀ x ∈ xs, least xs ≤ x := by
  cases xs with
  | nil => exact absurd rfl h
  | cons x xs =>
      obtain ⟨hmem, hle, hall⟩ := foldl_min_spec xs x
      exact ⟨List.mem_cons.mpr hmem, List.forall_mem_cons.mpr ⟨hle, hall⟩⟩

theorem greatest_spec {xs : List F} (h : xs ≠ []) :
    greatest xs ∈ xs ∧ ∀ x ∈ xs, x ≤ greatest xs := by
  cases xs with
  | nil => exact absurd rfl h
  | cons x xs =>
      obtain ⟨hmem, hle, hall⟩ := foldl_max_spec xs x
      exact ⟨List.mem_cons.mpr hmem, List.forall_mem_cons.mpr ⟨hle, hall⟩⟩

variable [IsStrictOrderedRing F]

theorem abs_sub_le_span {xs : List F} {x y : F} (hx : x ∈ xs) (hy : y ∈ xs) :
    |x - y| ≤ greatest xs - least xs := by
  have hne := List.ne_nil_of_mem hx
  have h₁ := (least_spec hne).2
  have h₂ := (greatest_spec hne).2
  rw [abs_le]
  constructor <;> linarith [h₁ x hx, h₁ y hy, h₂ x hx, h₂ y hy]

omit [IsStrictOrderedRing F] in
theorem span_lt {xs : List F} {w : F} (hne : xs ≠ []) (h : ∀ x ∈ xs, ∀ y ∈ xs, x - y < w) :
    greatest xs - least xs < w :=
  h _ (greatest_spec hne).1 _ (least_spec hne).1

variable [FloorRing F]

omit [FloorRing F] in
theorem lower_near (u : F) (n : Nat) (x : F) (h : x - u ≤ n + 1 / 2) :
    lower u n x - u ≤ 1 / 2 ∧ (lower u n x = x ∨ -(1 / 2) ≤ lower u n x - u) := by
  induction n generalizing x with
  | zero => exact ⟨by simpa [lower] using h, .inl rfl⟩
  | succ n ih =>
      push_cast at h
      rw [lower]
      split
      next hfar =>
        obtain ⟨hle, hend⟩ := ih (x - 1) (by linarith)
        refine ⟨hle, .inr ?_⟩
        rcases hend with heq | hge
        · rw [heq]
          linarith
        · exact hge
      next hnear => exact ⟨not_lt.mp hnear, .inl rfl⟩

omit [FloorRing F] in
theorem raise_near (u : F) (n : Nat) (x : F) (h : -(n + 1 / 2) ≤ x - u) :
    -(1 / 2) ≤ raise u n x - u ∧ (raise u n x = x ∨ raise u n x - u ≤ 1 / 2) := by
  induction n generalizing x with
  | zero => exact ⟨by simpa [raise] using h, .inl rfl⟩
  | succ n ih =>
      push_cast at h
      rw [raise]
      split
      next hfar =>
        obtain ⟨hge, hend⟩ := ih (x + 1) (by linarith)
        refine ⟨hge, .inr ?_⟩
        rcases hend with heq | hle
        · rw [heq]
          linarith
        · exact hle
      next hnear => exact ⟨not_lt.mp hnear, .inl rfl⟩

/-- The walk along the corners takes the short way. -/
theorem abs_unwrapNear_sub_le (u x : F) : |unwrapNear u x - u| ≤ 1 / 2 := by
  have hrounds : |x - u| ≤ ((⌊|x - u|⌋.toNat + 1 : Nat) : F) := by
    have hlt := Int.lt_floor_add_one |x - u|
    have hfloor : ((⌊|x - u|⌋.toNat : Int) : F) = ⌊|x - u|⌋ := by
      rw [Int.toNat_of_nonneg (Int.floor_nonneg.mpr (abs_nonneg _))]
    push_cast at hfloor ⊢
    linarith
  have hfar := abs_le.mp hrounds
  rw [unwrapNear]
  generalize ⌊|x - u|⌋.toNat + 1 = rounds at hfar ⊢
  obtain ⟨hle, hend⟩ := lower_near u rounds x (by linarith)
  have hfrom : -((rounds : F) + 1 / 2) ≤ lower u rounds x - u := by
    rcases hend with heq | hge
    · rw [heq]
      linarith
    · have : (0 : F) ≤ rounds := Nat.cast_nonneg rounds
      linarith
  obtain ⟨hge, hend'⟩ := raise_near u rounds (lower u rounds x) hfrom
  refine abs_le.mpr ⟨hge, ?_⟩
  rcases hend' with heq | hle'
  · rwa [heq]
  · exact hle'

/-- Two names of one longitude less than a turn apart are the same. -/
theorem eq_of_sameTurn {x u v : F} (hu : SameTurn x u) (hv : SameTurn x v) (h : |u - v| < 1) :
    u = v := by
  obtain ⟨k, rfl⟩ := hu
  obtain ⟨l, rfl⟩ := hv
  have hcast : |((k - l : Int) : F)| < 1 := by
    push_cast
    rwa [add_sub_add_left_eq_sub] at h
  have hlt : |k - l| < 1 := by exact_mod_cast hcast
  have : k = l := by
    rw [abs_lt] at hlt
    omega
  rw [this]

/-- The walk stays in the arc it started in. -/
theorem unwrapFrom_mem_arc {w west : F} {m : Int} (hw : w ≤ 1 / 2) (xs : List F)
    (h : ∀ x ∈ xs, ∃ k : Int, west ≤ x + k ∧ x + k < west + w) {u : F} (hlo : west + m ≤ u)
    (hhi : u < west + m + w) : ∀ y ∈ unwrapFrom u xs, west + m ≤ y ∧ y < west + m + w := by
  induction xs generalizing u with
  | nil => exact nofun
  | cons x xs ih =>
      obtain ⟨hx, hxs⟩ := List.forall_mem_cons.mp h
      obtain ⟨k, hklo, hkhi⟩ := hx
      have hclose := abs_le.mp (abs_unwrapNear_sub_le u x)
      have heq : unwrapNear u x = x + k + m := by
        refine eq_of_sameTurn (unwrapNear_sameTurn u x) ⟨k + m, by push_cast; ring⟩ ?_
        rw [abs_lt]
        constructor <;> linarith
      have hmem : west + m ≤ unwrapNear u x ∧ unwrapNear u x < west + m + w := by
        rw [heq]
        constructor <;> linarith
      exact List.forall_mem_cons.mpr ⟨hmem, ih hxs hmem.1 hmem.2⟩

omit [IsStrictOrderedRing F] in
theorem exists_unwrapFrom (u : F) (xs : List F) :
    ∀ x ∈ xs, ∃ y ∈ unwrapFrom u xs, SameTurn x y := by
  induction xs generalizing u with
  | nil => exact nofun
  | cons x xs ih =>
      refine List.forall_mem_cons.mpr
        ⟨⟨_, List.mem_cons_self, unwrapNear_sameTurn u x⟩, fun x' hx' => ?_⟩
      obtain ⟨y, hy, hturn⟩ := ih (unwrapNear u x) x' hx'
      exact ⟨y, List.mem_cons_of_mem _ hy, hturn⟩

def unwrapped (xs : List F) : List F := xs.headD 0 :: unwrapFrom (xs.headD 0) xs.tail

/-- Longitudes in an arc are unwrapped to numbers that lie as close. -/
theorem unwrapped_near {w : F} {xs : List F} (hne : xs ≠ []) (hw : w ≤ 1 / 2) (h : InArc w xs) :
    ∀ x ∈ unwrapped xs, ∀ y ∈ unwrapped xs, x - y < w := by
  obtain ⟨west, harc⟩ := h
  cases xs with
  | nil => exact absurd rfl hne
  | cons x xs =>
      obtain ⟨⟨k, hlo, hhi⟩, hxs⟩ := List.forall_mem_cons.mp harc
      have hhead : west + (-k : Int) ≤ x ∧ x < west + (-k : Int) + w := by
        push_cast
        constructor <;> linarith
      have hall : ∀ y ∈ unwrapped (x :: xs), west + (-k : Int) ≤ y ∧ y < west + (-k : Int) + w :=
        List.forall_mem_cons.mpr ⟨hhead, unwrapFrom_mem_arc hw xs hxs hhead.1 hhead.2⟩
      intro y hy z hz
      have h₁ := hall y hy
      have h₂ := hall z hz
      linarith

/-- Numbers less than half a turn apart are the names of longitudes in an arc. -/
theorem inArc_of_unwrapped {xs : List F}
    (h : greatest (unwrapped xs) - least (unwrapped xs) < 1 / 2) : InArc (1 / 2) xs := by
  have hne : unwrapped xs ≠ [] := List.cons_ne_nil _ _
  have hturns : ∀ x ∈ xs, ∃ y ∈ unwrapped xs, SameTurn x y := by
    cases xs with
    | nil => exact nofun
    | cons x xs =>
        refine List.forall_mem_cons.mpr ⟨⟨x, List.mem_cons_self, 0, by simp⟩, fun x' hx' => ?_⟩
        obtain ⟨y, hy, hturn⟩ := exists_unwrapFrom x xs x' hx'
        exact ⟨y, List.mem_cons_of_mem _ hy, hturn⟩
  refine ⟨least (unwrapped xs), fun x hx => ?_⟩
  obtain ⟨y, hy, k, rfl⟩ := hturns x hx
  have h₁ := (least_spec hne).2 _ hy
  have h₂ := (greatest_spec hne).2 _ hy
  exact ⟨k, h₁, by linarith⟩

/-- Longitudes in an arc that are at most half a turn apart as they are lie as close. -/
theorem raw_near {w : F} {xs : List F} (hw : w ≤ 1 / 2) (h : InArc w xs)
    (hraw : ∀ x ∈ xs, ∀ y ∈ xs, |x - y| ≤ 1 / 2) : ∀ x ∈ xs, ∀ y ∈ xs, x - y < w := by
  obtain ⟨west, harc⟩ := h
  intro x hx y hy
  obtain ⟨k, hklo, hkhi⟩ := harc x hx
  obtain ⟨l, hllo, hlhi⟩ := harc y hy
  have hclose := abs_le.mp (hraw x hx y hy)
  have heq : x - y = (x + k) - (y + l) := by
    refine eq_of_sameTurn (x := x - y) ⟨0, by simp⟩ ⟨k - l, by push_cast; ring⟩ ?_
    rw [abs_lt]
    constructor <;> linarith
  linarith

end Arcs

/-! ## The cap of a pole -/

/-- Around a ring the differences cancel. -/
theorem sum_differences {F : Type} [Field F] (x : Nat → F) (n : Nat) :
    ((List.range n).map fun i => x ((i + 1) % n) - x i).sum = 0 := by
  cases n with
  | zero => rfl
  | succ m =>
      have hopen : ∀ k ≤ m, ((List.range k).map fun i => x ((i + 1) % (m + 1)) - x i).sum =
          x k - x 0 := by
        intro k hk
        induction k with
        | zero => simp
        | succ k ih =>
            rw [List.range_succ, List.map_append, List.sum_append, ih (by omega)]
            simp [Nat.mod_eq_of_lt (show k + 1 < m + 1 by omega)]
      rw [List.range_succ, List.map_append, List.sum_append, hopen m le_rfl]
      simp

section Pushed

variable {F : Type} [LinearOrder F]

theorem mem_foldl_pushPoint {q : F × F} (ps : List (F × F)) {pts : List (F × F)}
    (h : q ∈ ps.foldl pushPoint pts) : q ∈ pts ∨ q ∈ ps := by
  induction ps generalizing pts with
  | nil => exact .inl h
  | cons p ps ih =>
      rcases ih h with hq | hq
      · rw [pushPoint] at hq
        split at hq
        next => exact .inl hq
        next =>
          rcases List.mem_append.mp hq with hq | hq
          · exact .inl hq
          · exact .inr (List.mem_cons.mpr (.inl (List.mem_singleton.mp hq)))
      · exact .inr (List.mem_cons_of_mem p hq)

theorem length_foldl_pushPoint_le (ps pts : List (F × F)) :
    (ps.foldl pushPoint pts).length ≤ pts.length + ps.length := by
  induction ps generalizing pts with
  | nil => exact le_rfl
  | cons p ps ih =>
      refine (ih (pushPoint pts p)).trans ?_
      have hpush : (pushPoint pts p).length ≤ pts.length + 1 := by
        unfold pushPoint
        split <;> simp
      rw [List.length_cons]
      omega

end Pushed

section Cap

variable {F : Type} [Field F] [LinearOrder F]

/-- The corners in the order in which they go east. -/
def eastward (xs : List F) (i : Nat) : Nat :=
  if 0 ≤ ((List.range xs.length).map fun i =>
    wrapTurn 1 (xs.getD ((i + 1) % xs.length) 0 - xs.getD i 0)).sum
  then i else xs.length - 1 - i

/-- Two neighbouring corners lie on different sides of the seam, and none but the first lies on
it. -/
structure CrossesSeam (xs : List F) : Prop where
  off : ∀ i < xs.length, i ≠ 0 → 0 < xs.getD (eastward xs i) 0
  crosses : ∃ i < xs.length, 1 / 2 < |xs.getD ((i + 1) % xs.length) 0 - xs.getD i 0|

theorem length_polarCap_le (xs ys : List F) (x0 period edgeY : F) :
    (polarCap xs ys x0 period edgeY).length ≤ xs.length + 4 := by
  unfold polarCap
  refine (length_foldl_pushPoint_le _ _).trans ?_
  simp

variable [IsStrictOrderedRing F]

theorem wrapTurn_le {d : F} (h : -(1 / 2) < d) : wrapTurn 1 d ≤ d := by
  unfold wrapTurn
  split
  · linarith
  · rw [if_neg (not_le.mpr h)]

theorem le_wrapTurn {d : F} (h : d ≤ 1 / 2) : d ≤ wrapTurn 1 d := by
  unfold wrapTurn
  rw [if_neg (not_lt.mpr h)]
  split
  · linarith
  · exact le_rfl

theorem le_of_wrapTurn_eq {d : F} (heq : wrapTurn 1 d = d) : d ≤ 1 / 2 := by
  by_contra hgt
  rw [wrapTurn, if_pos (not_le.mp hgt)] at heq
  linarith

/-- Walked eastward, a ring that crosses the seam has an edge that passes over it, or its last
edge ends on it. -/
theorem exists_crossing {x : Nat → F} {n : Nat} {turn : F}
    (hturn : turn = ((List.range n).map fun i => wrapTurn 1 (x ((i + 1) % n) - x i)).sum)
    (hcross : ∃ i < n, 1 / 2 < |x ((i + 1) % n) - x i|)
    (order : Nat → Nat) (horder : order = fun i => if 0 ≤ turn then i else n - 1 - i)
    (hnonneg : ∀ i, 0 ≤ x i) (hpos : ∀ i < n, i ≠ 0 → 0 < x (order i)) :
    (∃ i < n, 1 < x (order i) + wrapTurn 1 (x (order ((i + 1) % n)) - x (order i))) ∨
      x (order (n - 1)) + wrapTurn 1 (x (order ((n - 1 + 1) % n)) - x (order (n - 1))) = 1 := by
  refine or_iff_not_imp_right.mpr fun hlast => ?_
  by_contra hnone
  push Not at hnone
  -- an edge that jumps back by half a turn or more passes over the seam
  have hjump : ∀ i < n, -(1 / 2) < x (order ((i + 1) % n)) - x (order i) := by
    intro i hi
    by_contra hle
    have hmod := Nat.mod_lt (i + 1) (Nat.zero_lt_of_lt hi)
    have hwrap : x (order i) + wrapTurn 1 (x (order ((i + 1) % n)) - x (order i)) =
        x (order ((i + 1) % n)) + 1 := by
      rw [wrapTurn, if_neg (by linarith), if_pos (not_lt.mp hle)]
      ring
    have hstay := hnone i hi
    rw [hwrap] at hstay
    by_cases hfirst : (i + 1) % n = 0
    · have hend : i = n - 1 := by
        by_contra hne
        rw [Nat.mod_eq_of_lt (by omega)] at hfirst
        omega
      rw [← hend, hwrap] at hlast
      exact hlast (le_antisymm hstay (by linarith [hnonneg (order ((i + 1) % n))]))
    · linarith [hpos _ hmod hfirst]
  have hzero := sum_differences x n
  rcases le_or_gt 0 turn with hnonneg | hneg
  · have hd : ∀ i < n, -(1 / 2) < x ((i + 1) % n) - x i := by
      intro i hi
      simpa [horder, hnonneg] using hjump i hi
    obtain ⟨i, hi, hfar⟩ := hcross
    have hlt : turn < 0 := by
      rw [hturn, ← hzero]
      refine List.sum_lt_sum _ _ (fun j hj => wrapTurn_le (hd j (List.mem_range.mp hj)))
        ⟨i, List.mem_range.mpr hi, lt_of_le_of_ne (wrapTurn_le (hd i hi)) fun heq => ?_⟩
      have h₁ := hd i hi
      have h₂ := le_of_wrapTurn_eq heq
      rw [lt_abs] at hfar
      rcases hfar with hfar | hfar <;> linarith
    exact absurd hnonneg (not_le.mpr hlt)
  · have hd : ∀ i < n, x ((i + 1) % n) - x i ≤ 1 / 2 := by
      intro i hi
      -- the same edge, walked the other way
      have hmod := Nat.mod_lt (i + 1) (Nat.zero_lt_of_lt hi)
      have hback := hjump (n - 1 - (i + 1) % n) (by omega)
      have hlast : n - 1 - (n - 1 - (i + 1) % n + 1) % n = i := by
        by_cases hlt : i + 1 < n
        · rw [Nat.mod_eq_of_lt hlt, Nat.mod_eq_of_lt (by omega)]
          omega
        · have hi' : i + 1 = n := by omega
          rw [hi', Nat.mod_self, Nat.sub_zero, Nat.sub_add_cancel (by omega), Nat.mod_self]
          omega
      have hfirst : n - 1 - (n - 1 - (i + 1) % n) = (i + 1) % n := by omega
      simp only [horder, if_neg (not_le.mpr hneg), hlast, hfirst] at hback
      linarith
    have hge : 0 ≤ turn := by
      rw [hturn, ← hzero]
      exact List.sum_le_sum fun j hj => le_wrapTurn (hd j (List.mem_range.mp hj))
    exact absurd hge (not_le.mpr hneg)

/-- A point between two points of the map. -/
theorem between_mem {a b t : F} (ha : 0 ≤ a ∧ a ≤ 1) (hb : 0 ≤ b ∧ b ≤ 1) (ht : 0 ≤ t)
    (ht' : t ≤ 1) : 0 ≤ a + t * (b - a) ∧ a + t * (b - a) ≤ 1 := by
  have hsplit : a + t * (b - a) = (1 - t) * a + t * b := by ring
  have h₁ := mul_nonneg (sub_nonneg.mpr ht') ha.1
  have h₂ := mul_nonneg ht hb.1
  have h₃ := mul_le_mul_of_nonneg_left ha.2 (sub_nonneg.mpr ht')
  have h₄ := mul_le_mul_of_nonneg_left hb.2 ht
  rw [hsplit]
  constructor <;> linarith

theorem getD_mem_unit {xs : List F} (h : ∀ x ∈ xs, 0 ≤ x ∧ x ≤ 1) (i : Nat) :
    0 ≤ xs.getD i 0 ∧ xs.getD i 0 ≤ 1 := by
  rw [List.getD_eq_getElem?_getD]
  cases hi : xs[i]? with
  | none => exact ⟨le_rfl, zero_le_one⟩
  | some x => exact h x (List.mem_of_getElem? hi)

/-- The cap of a ring that crosses the seam is on the map. -/
theorem mem_polarCap {xs ys : List F} {edgeY : F} (hxs : ∀ x ∈ xs, 0 ≤ x ∧ x ≤ 1)
    (hys : ∀ y ∈ ys, 0 ≤ y ∧ y ≤ 1) (hedge : 0 ≤ edgeY ∧ edgeY ≤ 1) (hseam : CrossesSeam xs) :
    ∀ p ∈ polarCap xs ys 0 1 edgeY, (0 ≤ p.1 ∧ p.1 ≤ 1) ∧ 0 ≤ p.2 ∧ p.2 ≤ 1 := by
  have hx := getD_mem_unit hxs
  have hy := getD_mem_unit hys
  intro p hp
  unfold polarCap at hp
  extract_lets n x y turn order x1 k a b bX t crossY vertices at hp
  have hx1 : x1 = 1 := zero_add 1
  have hpast : 1 ≤ bX := by
    have hcrossing :=
      exists_crossing rfl hseam.crosses order rfl (fun i => (hx i).1) hseam.off
    have hk : k = ((List.range n).find? fun i => decide
        (x1 < x (order i) + wrapTurn 1 (x (order ((i + 1) % n)) - x (order i)))).getD (n - 1) := rfl
    cases hfind : (List.range n).find? fun i => decide
        (x1 < x (order i) + wrapTurn 1 (x (order ((i + 1) % n)) - x (order i))) with
    | some k' =>
        have hfound := List.find?_some hfind
        rw [hfind, Option.getD_some] at hk
        rw [decide_eq_true_eq, hx1, ← hk] at hfound
        exact hfound.le
    | none =>
        rw [hfind, Option.getD_none] at hk
        rcases hcrossing with ⟨i, hi, hover⟩ | hlast
        · have hmissed := List.find?_eq_none.mp hfind i (List.mem_range.mpr hi)
          rw [decide_eq_true_eq, hx1] at hmissed
          exact absurd hover hmissed
        · rw [← hlast]
          show _ ≤ x (order k) + wrapTurn 1 (x (order ((k + 1) % n)) - x (order k))
          rw [hk]
  have hcrossY : 0 ≤ crossY ∧ crossY ≤ 1 := by
    have ha : x a ≤ 1 := (hx a).2
    have hnum : 0 ≤ x1 - x a := by rw [hx1]; linarith
    have hle : x1 - x a ≤ bX - x a := by rw [hx1]; linarith
    have hden : 0 ≤ bX - x a := hnum.trans hle
    exact between_mem (hy a) (hy b) (div_nonneg hnum hden) (div_le_one_of_le₀ hle hden)
  have hunit : (0 : F) ≤ 0 ∧ (0 : F) ≤ 1 := ⟨le_rfl, zero_le_one⟩
  have hone : 0 ≤ x1 ∧ x1 ≤ 1 := by rw [hx1]; exact ⟨zero_le_one, le_rfl⟩
  rcases mem_foldl_pushPoint _ hp with hp | hp
  · cases hp
  simp only [List.mem_append, List.mem_cons, List.not_mem_nil, or_false] at hp
  rcases hp with (rfl | hp) | rfl | rfl | rfl
  · exact ⟨hunit, hcrossY⟩
  · obtain ⟨step, -, rfl⟩ := List.mem_map.mp hp
    refine ⟨?_, hy _⟩
    dsimp only
    split
    next => exact hunit
    next =>
      split
      next => exact hone
      next => exact hx _
  · exact ⟨hone, hcrossY⟩
  · exact ⟨hone, hedge⟩
  · exact ⟨hunit, hedge⟩

end Cap

end RasterH3.Pmtiles.Mvt
