import Mathlib.Data.Fintype.Card
import RasterH3.Pmtiles.TileIdWords

/-!
# The curve fills every zoom and never jumps

The number of a tile is its place on a Hilbert curve through its zoom, behind all places of
the zooms below. The code goes from a tile to a number by one loop over the binary digits
and back by another, and each of them turns and reflects the quadrant it has gone into.

An id that is read back is the position of the tile, so the tiles of a zoom have different
ids, and there are as many of them as places: each id of the range is the id of a tile
(`exists_hilbertIndex`). That makes both loops bijections with one computation instead of
two.

For neighbours the loop is taken from the other end. From the top the position is that of
the last digits, turned and put into the quadrant of the first (`position_first`). A curve
starts in one corner and ends in the next, whatever its side, which is why it goes on next
door when it leaves a quadrant (`adjacent_quadrants`); within a quadrant turning and moving
keep neighbours, and the induction is on the side.

The functions are written a second time with the arithmetic of the machine, where what does
not fit fails. Up to zoom 31 everything fits (`zxyToTileIdWord_eq`, `tileIdToZxyWord_eq`):
the loops on words carry a side and a position inside the square so far, and these are
bounded by the square of the last zoom.
-/

namespace RasterH3.Pmtiles

/-! ## Positions, from the first digit down -/

/-- The place of the curve of side `2 ^ k` after `t` steps. -/
def position (k t : Nat) : Nat × Nat := hilbertLoop k 1 t (0, 0)

theorem position_succ {k q t : Nat} (ht : t < 4 ^ k) :
    position (k + 1) (4 ^ k * q + t) =
      let rx := 1 &&& (q / 2)
      let ry := 1 &&& (q ^^^ rx)
      let p := rotate (2 ^ k) rx ry (position k t)
      (p.1 + 2 ^ k * rx, p.2 + 2 ^ k * ry) := by
  rw [position, hilbertLoop_succ, hilbertLoop_add, Nat.mul_one, Nat.mul_add_div (by positivity),
    Nat.div_eq_of_lt ht, Nat.add_zero]
  rfl

theorem position_first (k : Nat) : position k 0 = (0, 0) := by
  induction k with
  | zero => rfl
  | succ k ih =>
    have h := position_succ (q := 0) (t := 0) (Nat.pow_pos (by decide : 0 < 4) : 0 < 4 ^ k)
    rw [ih] at h
    exact h

theorem position_last (k : Nat) : position k (4 ^ k - 1) = (2 ^ k - 1, 0) := by
  induction k with
  | zero => rfl
  | succ k ih =>
    have hpos : 0 < 4 ^ k := Nat.pow_pos (by decide)
    have hside : 0 < 2 ^ k := Nat.two_pow_pos k
    have h := position_succ (q := 3) (Nat.sub_lt hpos Nat.one_pos)
    rw [ih, show 4 ^ k * 3 + (4 ^ k - 1) = 4 ^ (k + 1) - 1 by omega] at h
    rw [h]
    show (2 ^ k - 1 - 0 + 2 ^ k * 1, 2 ^ k - 1 - (2 ^ k - 1) + 2 ^ k * 0) = _
    refine Prod.ext ?_ ?_
    · show 2 ^ k - 1 - 0 + 2 ^ k * 1 = 2 ^ (k + 1) - 1
      omega
    · show 2 ^ k - 1 - (2 ^ k - 1) + 2 ^ k * 0 = 0
      omega

/-- Two tiles with a common edge. -/
def Adjacent (p q : Nat × Nat) : Prop :=
  (p.1 = q.1 ∧ (p.2 + 1 = q.2 ∨ q.2 + 1 = p.2)) ∨ (p.2 = q.2 ∧ (p.1 + 1 = q.1 ∨ q.1 + 1 = p.1))

/-- Turning and moving a quadrant keeps its neighbours. -/
theorem Adjacent.placed {p q : Nat × Nat} (h : Adjacent p q) {s rx ry : Nat}
    (hp : p.1 < s ∧ p.2 < s) (hq : q.1 < s ∧ q.2 < s) (a b : Nat) :
    Adjacent ((rotate s rx ry p).1 + a, (rotate s rx ry p).2 + b)
      ((rotate s rx ry q).1 + a, (rotate s rx ry q).2 + b) := by
  obtain ⟨p₁, p₂⟩ := p
  obtain ⟨q₁, q₂⟩ := q
  simp only [Adjacent, rotate] at h hp hq ⊢
  split
  next =>
    split
    next =>
      dsimp only
      omega
    next =>
      dsimp only
      omega
  next =>
    dsimp only
    omega

theorem position_lt {k t : Nat} (ht : t < 4 ^ k) :
    (position k t).1 < 2 ^ k ∧ (position k t).2 < 2 ^ k := by
  induction k generalizing t with
  | zero => exact ⟨Nat.one_pos, Nat.one_pos⟩
  | succ k ih =>
    have hpos : 0 < 4 ^ k := Nat.pow_pos (by decide)
    have hlow := ih (Nat.mod_lt t hpos)
    have hstep := position_succ (q := t / 4 ^ k) (Nat.mod_lt t hpos)
    rw [Nat.div_add_mod] at hstep
    have hrx : 1 &&& (t / 4 ^ k / 2) ≤ 1 := Nat.and_le_left
    have hry : 1 &&& ((t / 4 ^ k) ^^^ (1 &&& (t / 4 ^ k / 2))) ≤ 1 := Nat.and_le_left
    have hrot := @rotate_lt _ (1 &&& (t / 4 ^ k / 2))
      (1 &&& ((t / 4 ^ k) ^^^ (1 &&& (t / 4 ^ k / 2)))) _ hlow.1 hlow.2
    have hx := Nat.mul_le_mul_left (2 ^ k) hrx
    have hy := Nat.mul_le_mul_left (2 ^ k) hry
    rw [hstep, Nat.pow_succ]
    simp only
    omega

/-- Where a quadrant ends the next one begins. -/
theorem adjacent_quadrants {k q : Nat} (hq : q < 3) :
    Adjacent (position (k + 1) (4 ^ k * q + (4 ^ k - 1)))
      (position (k + 1) (4 ^ k * (q + 1) + 0)) := by
  have hpos : 0 < 4 ^ k := Nat.pow_pos (by decide)
  have hside : 0 < 2 ^ k := Nat.two_pow_pos k
  rw [position_succ (Nat.sub_lt hpos Nat.one_pos), position_succ hpos, position_last,
    position_first]
  generalize 2 ^ k = s at hside ⊢
  interval_cases q
  · refine Or.inl ⟨rfl, Or.inl ?_⟩
    show s - 1 + s * 0 + 1 = 0 + s * 1
    omega
  · refine Or.inr ⟨rfl, Or.inl ?_⟩
    show s - 1 + s * 0 + 1 = 0 + s * 1
    omega
  · refine Or.inl ⟨rfl, Or.inr ?_⟩
    show s - 1 - 0 + s * 0 + 1 = 0 + s * 1
    omega

theorem adjacent_position {k t : Nat} (ht : t + 1 < 4 ^ k) :
    Adjacent (position k t) (position k (t + 1)) := by
  induction k generalizing t with
  | zero => exact absurd ht (by omega)
  | succ k ih =>
    have hpos : 0 < 4 ^ k := Nat.pow_pos (by decide)
    have hmod := Nat.mod_lt t hpos
    have hdiv := Nat.div_add_mod t (4 ^ k)
    by_cases hlast : t % 4 ^ k = 4 ^ k - 1
    · have hq : t / 4 ^ k < 3 := by
        have hlt : t / 4 ^ k * 4 ^ k < 3 * 4 ^ k := by
          rw [Nat.pow_succ] at ht
          rw [Nat.mul_comm]
          omega
        exact Nat.lt_of_mul_lt_mul_right hlt
      have h := adjacent_quadrants (k := k) hq
      rw [← hlast, hdiv, Nat.mul_succ, Nat.add_zero] at h
      rwa [show 4 ^ k * (t / 4 ^ k) + 4 ^ k = t + 1 by omega] at h
    · have hnext : t % 4 ^ k + 1 < 4 ^ k := by omega
      have h := position_succ (q := t / 4 ^ k) hmod
      have h' := position_succ (q := t / 4 ^ k) hnext
      rw [hdiv] at h
      rw [show 4 ^ k * (t / 4 ^ k) + (t % 4 ^ k + 1) = t + 1 by omega] at h'
      rw [h, h']
      exact (ih hnext).placed (position_lt hmod) (position_lt hnext) _ _

/-! ## Every id is the id of a tile -/

theorem position_hilbertIndex {k x y : Nat} (hx : x < 2 ^ k) (hy : y < 2 ^ k) :
    position k (hilbertIndex k x y) = (x, y) := hilbertLoop_hilbertIndex hx hy

/-- Different tiles have different places, and there are as many places as tiles. -/
theorem exists_hilbertIndex {k t : Nat} (ht : t < 4 ^ k) :
    ∃ x y, x < 2 ^ k ∧ y < 2 ^ k ∧ hilbertIndex k x y = t := by
  let index : Fin (2 ^ k) × Fin (2 ^ k) → Fin (4 ^ k) := fun p =>
    ⟨hilbertIndex k p.1 p.2, hilbertIndex_lt p.1.isLt p.2.isLt⟩
  have hinj : Function.Injective index := by
    intro p q h
    have heq : hilbertIndex k p.1 p.2 = hilbertIndex k q.1 q.2 := congrArg Fin.val h
    have hp := position_hilbertIndex p.1.isLt p.2.isLt
    rw [heq, position_hilbertIndex q.1.isLt q.2.isLt] at hp
    obtain ⟨hx, hy⟩ := Prod.mk.inj hp
    exact Prod.ext (Fin.ext hx.symm) (Fin.ext hy.symm)
  have hcard : Fintype.card (Fin (2 ^ k) × Fin (2 ^ k)) = Fintype.card (Fin (4 ^ k)) := by
    rw [Fintype.card_prod, Fintype.card_fin, Fintype.card_fin, ← Nat.mul_pow]
  obtain ⟨p, hp⟩ := ((Fintype.bijective_iff_injective_and_card index).mpr ⟨hinj, hcard⟩).2 ⟨t, ht⟩
  exact ⟨p.1, p.2, p.1.isLt, p.2.isLt, congrArg Fin.val hp⟩

theorem tilesBelow_succ (z : Nat) : tilesBelow (z + 1) = tilesBelow z + 4 ^ z := by
  have h := three_mul_tilesBelow z
  have h' := three_mul_tilesBelow (z + 1)
  rw [Nat.pow_succ] at h'
  omega

/-- The ids of a zoom are a block behind those of the zooms below. -/
theorem mem_zoom_iff {z i : Nat} :
    (∃ x y, x < 2 ^ z ∧ y < 2 ^ z ∧ zxyToTileId z x y = i) ↔
      tilesBelow z ≤ i ∧ i < tilesBelow (z + 1) := by
  rw [tilesBelow_succ]
  constructor
  · intro ⟨x, y, hx, hy, hi⟩
    have hlt := hilbertIndex_lt hx hy
    rw [zxyToTileId_eq hx hy] at hi
    omega
  · intro ⟨hlow, hhigh⟩
    have hlt : i - tilesBelow z < 4 ^ z := by omega
    obtain ⟨x, y, hx, hy, hindex⟩ := exists_hilbertIndex hlt
    refine ⟨x, y, hx, hy, ?_⟩
    rw [zxyToTileId_eq hx hy, hindex]
    omega

theorem exists_zoom {n i : Nat} (h : i < tilesBelow n) :
    ∃ z < n, tilesBelow z ≤ i ∧ i < tilesBelow (z + 1) := by
  induction n with
  | zero => exact absurd h (Nat.not_lt_zero i)
  | succ n ih =>
    by_cases hlow : tilesBelow n ≤ i
    · exact ⟨n, Nat.lt_succ_self n, hlow, h⟩
    · obtain ⟨z, hz, hi⟩ := ih (Nat.not_le.mp hlow)
      exact ⟨z, Nat.lt_succ_of_lt hz, hi⟩

theorem zxyToTileId_tileIdToZxy {n i : Nat} (h : i < tilesBelow n) :
    ∃ z x y, z < n ∧ x < 2 ^ z ∧ y < 2 ^ z ∧ tileIdToZxy i = (z, x, y) ∧ zxyToTileId z x y = i := by
  obtain ⟨z, hz, hi⟩ := exists_zoom h
  obtain ⟨x, y, hx, hy, hid⟩ := mem_zoom_iff.mpr hi
  exact ⟨z, x, y, hz, hx, hy, hid ▸ tileIdToZxy_zxyToTileId hx hy, hid⟩

/-- The next id of a zoom is next door. -/
theorem adjacent_tiles {z x y x' y' : Nat} (hx : x < 2 ^ z) (hy : y < 2 ^ z) (hx' : x' < 2 ^ z)
    (hy' : y' < 2 ^ z) (hnext : zxyToTileId z x' y' = zxyToTileId z x y + 1) :
    Adjacent (x, y) (x', y') := by
  rw [zxyToTileId_eq hx hy, zxyToTileId_eq hx' hy', Nat.add_assoc] at hnext
  have hindex := Nat.add_left_cancel hnext
  have hlt := hilbertIndex_lt hx' hy'
  rw [hindex] at hlt
  have h := adjacent_position hlt
  rwa [← hindex, position_hilbertIndex hx hy, position_hilbertIndex hx' hy'] at h

/-! ## Nothing overflows -/

open Checked

theorem indexLoopWord_eq {k tx ty d : Nat} (hk : k ≤ 31) (hx : tx < 2 ^ k) (hy : ty < 2 ^ k)
    (hd : d + 4 ^ k ≤ 2 ^ 64) : indexLoopWord k tx ty d = some (d + hilbertIndex k tx ty) := by
  induction k generalizing tx ty d with
  | zero => rfl
  | succ k ih =>
    have hside : 1 ≤ 2 ^ k := Nat.two_pow_pos k
    have hpos : 0 < 4 ^ k := Nat.pow_pos (by decide)
    have hpow : 4 ^ k ≤ 4 ^ 30 := Nat.pow_le_pow_right (by decide) (by omega)
    have hsquare : 2 ^ k * 2 ^ k = 4 ^ k := (Nat.mul_pow 2 2 k).symm
    have hrx : (if 0 < tx &&& 2 ^ k then 1 else 0) < 2 := by split <;> decide
    have hry : (if 0 < ty &&& 2 ^ k then 1 else 0) < 2 := by split <;> decide
    have hlx : tx &&& (2 ^ k - 1) ≤ 2 ^ k - 1 := Nat.and_le_right
    have hly : ty &&& (2 ^ k - 1) ≤ 2 ^ k - 1 := Nat.and_le_right
    rw [indexLoopWord, hilbertIndex]
    simp only
    generalize (if 0 < tx &&& 2 ^ k then 1 else 0) = rx at hrx ⊢
    generalize (if 0 < ty &&& 2 ^ k then 1 else 0) = ry at hry ⊢
    have hdigit := (digit_spec hrx hry).1
    have hterm := Nat.mul_le_mul_left (4 ^ k) (Nat.le_of_lt_succ hdigit)
    rw [Nat.pow_succ] at hd
    have hsum : d + 4 ^ k * ((3 * rx) ^^^ ry) + 4 ^ k ≤ 2 ^ 64 := by omega
    rw [hsquare, mul_of_lt (by rw [hsquare]; omega), mul_of_lt (show 3 * rx < 2 ^ 64 by omega),
      hsquare]
    simp only [Option.bind_eq_bind, Option.bind_some]
    rw [mul_of_lt (by omega), Option.bind_some, add_of_lt (by omega), Option.bind_some,
      sub_of_le hside, Option.bind_some, ← Nat.add_assoc]
    generalize tx &&& (2 ^ k - 1) = lx at hlx ⊢
    generalize ty &&& (2 ^ k - 1) = ly at hly ⊢
    have hnext : ∀ a b, a ≤ 2 ^ k - 1 → b ≤ 2 ^ k - 1 →
        indexLoopWord k a b (d + 4 ^ k * ((3 * rx) ^^^ ry)) =
          some (d + 4 ^ k * ((3 * rx) ^^^ ry) + hilbertIndex k a b) := fun a b ha hb =>
      ih (by omega) (by omega) (by omega) hsum
    unfold rotate
    split
    next =>
      split
      next =>
        rw [sub_of_le hlx, Option.bind_some, sub_of_le hly, Option.bind_some]
        exact hnext _ _ (by omega) (by omega)
      next => exact hnext _ _ hly hlx
    next => exact hnext _ _ hlx hly

theorem tilesBelowWord_eq {z : Nat} (hz : z ≤ 31) : tilesBelowWord z = some (tilesBelow z) := by
  rw [tilesBelowWord, mul_of_lt (by omega)]
  simp only [Option.bind_eq_bind, Option.bind_some]
  rw [shl_one_of_lt (by omega), Option.bind_some, sub_of_le (Nat.two_pow_pos _)]
  rfl

/-- Every sum and product of `zxy_to_tile_id` fits. -/
theorem zxyToTileIdWord_eq {z x y : Nat} (h : ValidTile z x y) :
    zxyToTileIdWord z x y = some (zxyToTileId z x y) := by
  have hid := zxyToTileId_lt h
  have hz := h.zoom
  have hpow : 4 ^ z ≤ 4 ^ 31 := Nat.pow_le_pow_right (by decide) hz
  unfold zxyToTileIdWord zxyToTileId at *
  split
  next => rfl
  next hne =>
    rw [if_neg hne] at hid
    rw [tilesBelowWord_eq hz, sub_of_le (Nat.one_le_iff_ne_zero.mpr hne)]
    simp only [Option.bind_eq_bind, Option.bind_some]
    rw [shl_one_of_lt (by omega), Option.bind_some,
      indexLoopWord_eq hz h.x h.y (by rw [Nat.zero_add]; omega), Option.bind_some, Nat.zero_add,
      add_of_lt hid]

theorem tileIdToZWord_eq {i : Nat} (h : i < tilesBelow 32) :
    tileIdToZWord i = some (tileIdToZ i) := by
  have hbound := three_mul_tilesBelow 32
  have hlog : Nat.log2 (3 * i + 1) < 64 := by
    rw [Nat.log2_lt (by omega)]
    omega
  rw [tileIdToZWord, mul_of_lt (by omega)]
  simp only [Option.bind_eq_bind, Option.bind_some]
  rw [add_of_lt (by omega), Option.bind_some, sub_of_le (by omega), Option.bind_some,
    sub_of_le (by omega), Option.bind_some, tileIdToZ, Nat.sub_sub_self (by omega)]
  rfl

theorem rotateWord_eq {s rx ry : Nat} {p : Nat × Nat} (hx : p.1 < s) (hy : p.2 < s) :
    rotateWord s rx ry p = some (rotate s rx ry p) := by
  unfold rotateWord rotate
  split
  next =>
    split
    next =>
      rw [sub_of_le (by omega)]
      simp only [Option.bind_eq_bind, Option.bind_some]
      rw [sub_of_le (by omega), Option.bind_some, sub_of_le (by omega)]
      rfl
    next => rfl
  next => rfl

/-- From side `2 ^ m` on, with a position inside the square so far. -/
theorem hilbertLoopWord_eq {n m t : Nat} {p : Nat × Nat} (hm : m + n ≤ 31) (hx : p.1 < 2 ^ m)
    (hy : p.2 < 2 ^ m) : hilbertLoopWord n (2 ^ m) t p = some (hilbertLoop n (2 ^ m) t p) := by
  induction n generalizing m t p with
  | zero => rfl
  | succ n ih =>
    have hpow : 2 ^ (m + 1) ≤ 2 ^ 31 := Nat.pow_le_pow_right (by decide) (by omega)
    have hrx : 1 &&& (t / 2) ≤ 1 := Nat.and_le_left
    have hry : 1 &&& (t ^^^ (1 &&& (t / 2))) ≤ 1 := Nat.and_le_left
    have hrot := @rotate_lt _ (1 &&& (t / 2)) (1 &&& (t ^^^ (1 &&& (t / 2)))) p hx hy
    rw [hilbertLoopWord, hilbertLoop, rotateWord_eq hx hy]
    simp only [Option.bind_eq_bind, Option.bind_some]
    generalize 1 &&& (t ^^^ (1 &&& (t / 2))) = ry at hry hrot ⊢
    generalize 1 &&& (t / 2) = rx at hrx hrot ⊢
    have hdx := Nat.mul_le_mul_left (2 ^ m) hrx
    have hdy := Nat.mul_le_mul_left (2 ^ m) hry
    rw [Nat.pow_succ] at hpow
    rw [mul_of_lt (by omega), Option.bind_some, add_of_lt (by omega), Option.bind_some,
      mul_of_lt (by omega), Option.bind_some, add_of_lt (by omega), Option.bind_some,
      mul_of_lt (by omega), Option.bind_some, ← Nat.pow_succ']
    refine ih (by omega) ?_ ?_
    · show _ < 2 ^ (m + 1)
      rw [Nat.pow_succ]
      omega
    · show _ < 2 ^ (m + 1)
      rw [Nat.pow_succ]
      omega

theorem tileIdToZxyWord_eq {i : Nat} (h : i < tilesBelow 32) :
    tileIdToZxyWord i = some (tileIdToZxy i) := by
  obtain ⟨z, x, y, hz, hx, hy, heq, hid⟩ := zxyToTileId_tileIdToZxy h
  have hpow : 2 ^ z ≤ 2 ^ 31 := Nat.pow_le_pow_right (by decide) (by omega)
  have hlow := (mem_zoom_iff.mp ⟨x, y, hx, hy, hid⟩).1
  unfold tileIdToZxyWord tileIdToZxy at *
  split
  next => rfl
  next hne =>
    rw [if_neg hne] at heq
    obtain ⟨hzoom, hpos⟩ := Prod.mk.inj heq
    rw [hzoom] at hpos
    have hloop : hilbertLoopWord z 1 (i - tilesBelow z) (0, 0) =
        some (hilbertLoop z 1 (i - tilesBelow z) (0, 0)) :=
      hilbertLoopWord_eq (m := 0) (by omega) Nat.one_pos Nat.one_pos
    rw [tileIdToZWord_eq h]
    simp only [Option.bind_eq_bind, Option.bind_some]
    rw [hzoom, tilesBelowWord_eq (by omega), Option.bind_some, sub_of_le hlow, Option.bind_some,
      shl_one_of_lt (by omega), Option.bind_some,
      hloop, Option.bind_some, hpos, fit_eq_some.mpr ⟨by omega, rfl⟩, Option.bind_some, fit_eq_some.mpr ⟨by omega, rfl⟩]
    rfl

/-! ## The bijection -/

/-- Tiles and ids of all zooms up to 31 are the same thing in two ways of counting. -/
theorem tileIds_biject :
    (∀ z x y, ValidTile z x y → zxyToTileIdWord z x y = some (zxyToTileId z x y) ∧
      tileIdToZxyWord (zxyToTileId z x y) = some (z, x, y)) ∧
    (∀ i < tilesBelow 32, ∃ z x y, ValidTile z x y ∧ tileIdToZxyWord i = some (z, x, y) ∧
      zxyToTileIdWord z x y = some i) ∧
    (∀ z ≤ 31, ∀ i, (∃ x y, ValidTile z x y ∧ zxyToTileIdWord z x y = some i) ↔
      tilesBelow z ≤ i ∧ i < tilesBelow (z + 1)) ∧
    ∀ z x y x' y' i, ValidTile z x y → ValidTile z x' y' → zxyToTileIdWord z x y = some i →
      zxyToTileIdWord z x' y' = some (i + 1) → Adjacent (x, y) (x', y') := by
  refine ⟨fun z x y h => ⟨zxyToTileIdWord_eq h, ?_⟩, fun i hi => ?_, fun z hz i => ?_, ?_⟩
  · have hid := (mem_zoom_iff.mp ⟨x, y, h.x, h.y, rfl⟩).2
    have hmono : tilesBelow (z + 1) ≤ tilesBelow 32 := by
      have hz := three_mul_tilesBelow (z + 1)
      have htop := three_mul_tilesBelow 32
      have hpow : 4 ^ (z + 1) ≤ 4 ^ 32 := Nat.pow_le_pow_right (by decide) (by have := h.zoom; omega)
      omega
    rw [tileIdToZxyWord_eq (by omega), tileIdToZxy_zxyToTileId h.x h.y]
  · obtain ⟨z, x, y, hz, hx, hy, heq, hid⟩ := zxyToTileId_tileIdToZxy hi
    have hvalid : ValidTile z x y := ⟨by omega, hx, hy⟩
    exact ⟨z, x, y, hvalid, by rw [tileIdToZxyWord_eq hi, heq],
      by rw [zxyToTileIdWord_eq hvalid, hid]⟩
  · rw [← mem_zoom_iff]
    constructor
    · intro ⟨x, y, h, hi⟩
      rw [zxyToTileIdWord_eq h] at hi
      exact ⟨x, y, h.x, h.y, Option.some.inj hi⟩
    · intro ⟨x, y, hx, hy, hi⟩
      exact ⟨x, y, ⟨hz, hx, hy⟩, by rw [zxyToTileIdWord_eq ⟨hz, hx, hy⟩, hi]⟩
  · intro z x y x' y' i h h' hi hi'
    rw [zxyToTileIdWord_eq h] at hi
    rw [zxyToTileIdWord_eq h', ← Option.some.inj hi] at hi'
    exact adjacent_tiles h.x h.y h'.x h'.y (Option.some.inj hi')

end RasterH3.Pmtiles
