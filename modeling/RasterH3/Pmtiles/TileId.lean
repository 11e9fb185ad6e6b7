import Mathlib.Data.Nat.Bitwise
import Mathlib.Data.Nat.Log
import Mathlib.Tactic

/-!
# Tile ids along the Hilbert curve

The id of a tile counts the tiles of all lower zooms and then its place on the
Hilbert curve of its own. `zxyToTileId` reads the coordinates from the highest bit
down and turns the rest of the square at each step; `tileIdToZxy` reads the id from
the lowest digit up and turns what it has so far. The turn is the same and undoes
itself, which is why one function inverts the other.
-/

namespace RasterH3.Pmtiles

/-- The turn of a quadrant: `s` is the side of the square the position lies in. -/
def rotate (s rx ry : Nat) (p : Nat × Nat) : Nat × Nat :=
  if ry = 0 then if rx = 1 then (s - 1 - p.2, s - 1 - p.1) else (p.2, p.1) else p

/-- The place on the curve of a square of side `2 ^ k`. -/
def hilbertIndex : Nat → Nat → Nat → Nat
  | 0, _, _ => 0
  | k + 1, tx, ty =>
      let s := 2 ^ k
      let rx := if 0 < tx &&& s then 1 else 0
      let ry := if 0 < ty &&& s then 1 else 0
      let l := rotate s rx ry (tx &&& (s - 1), ty &&& (s - 1))
      s * s * ((3 * rx) ^^^ ry) + hilbertIndex k l.1 l.2

/-- The number of tiles of all zooms below `z`. -/
def tilesBelow (z : Nat) : Nat := (2 ^ (2 * z) - 1) / 3

def zxyToTileId (z x y : Nat) : Nat :=
  if z = 0 then 0 else tilesBelow z + hilbertIndex z x y

/-- `(63 - (3 * i + 1).leading_zeros()) / 2`. -/
def tileIdToZ (i : Nat) : Nat := Nat.log2 (3 * i + 1) / 2

/-- The loop over the digits of `t`, from side `s` on, with the position so far. -/
def hilbertLoop : Nat → Nat → Nat → Nat × Nat → Nat × Nat
  | 0, _, _, p => p
  | n + 1, s, t, p =>
      let rx := 1 &&& (t / 2)
      let ry := 1 &&& (t ^^^ rx)
      let q := rotate s rx ry p
      hilbertLoop n (2 * s) (t / 4) (q.1 + s * rx, q.2 + s * ry)

def tileIdToZxy (i : Nat) : Nat × Nat × Nat :=
  if i = 0 then (0, 0, 0)
  else
    let z := tileIdToZ i
    (z, hilbertLoop z 1 (i - tilesBelow z) (0, 0))

/-! ## One digit -/

theorem rotate_rotate {s rx ry : Nat} {p : Nat × Nat} (hx : p.1 < s) (hy : p.2 < s) :
    rotate s rx ry (rotate s rx ry p) = p := by
  unfold rotate
  split
  next =>
    split
    next =>
      refine Prod.ext ?_ ?_
      · show s - 1 - (s - 1 - p.1) = p.1
        omega
      · show s - 1 - (s - 1 - p.2) = p.2
        omega
    next => rfl
  next => rfl

theorem rotate_lt {s rx ry : Nat} {p : Nat × Nat} (hx : p.1 < s) (hy : p.2 < s) :
    (rotate s rx ry p).1 < s ∧ (rotate s rx ry p).2 < s := by
  unfold rotate
  split
  next =>
    split
    next =>
      constructor
      · show s - 1 - p.2 < s
        omega
      · show s - 1 - p.1 < s
        omega
    next => exact ⟨hy, hx⟩
  next => exact ⟨hx, hy⟩

theorem quadrant_cases {n k : Nat} (h : n < 2 ^ (k + 1)) : n / 2 ^ k = 0 ∨ n / 2 ^ k = 1 := by
  refine Nat.le_one_iff_eq_zero_or_eq_one.mp (Nat.le_of_lt_succ ?_)
  rw [Nat.div_lt_iff_lt_mul (Nat.two_pow_pos k)]
  rw [Nat.pow_succ] at h
  omega

theorem quadrant_lt {n k : Nat} (h : n < 2 ^ (k + 1)) : n / 2 ^ k < 2 := by
  rcases quadrant_cases h with h | h <;> rw [h] <;> decide

/-- The bit of a coordinate that the step at side `2 ^ k` reads. -/
theorem ite_and_two_pow {n k : Nat} (h : n < 2 ^ (k + 1)) :
    (if 0 < n &&& 2 ^ k then 1 else 0) = n / 2 ^ k := by
  have hbit : n &&& 2 ^ k = n / 2 ^ k * 2 ^ k := by
    rw [Nat.and_two_pow, Nat.testBit_eq_decide_div_mod_eq, Nat.mod_eq_of_lt (quadrant_lt h)]
    rcases quadrant_cases h with h | h <;> simp [h]
  rw [hbit]
  rcases quadrant_cases h with h | h <;> simp [h]

/-- The digit of the curve and the quadrant it stands for. -/
theorem digit_spec {rx ry : Nat} (hx : rx < 2) (hy : ry < 2) :
    (3 * rx) ^^^ ry < 4 ∧ 1 &&& (((3 * rx) ^^^ ry) / 2) = rx ∧
      1 &&& (((3 * rx) ^^^ ry) ^^^ rx) = ry := by
  interval_cases rx <;> interval_cases ry <;> decide

/-! ## The whole curve -/

/-- One step of `hilbertIndex`, in quotients and remainders. -/
theorem hilbertIndex_succ {k x y : Nat} (hx : x < 2 ^ (k + 1)) (hy : y < 2 ^ (k + 1)) :
    hilbertIndex (k + 1) x y =
      4 ^ k * ((3 * (x / 2 ^ k)) ^^^ (y / 2 ^ k)) +
        hilbertIndex k
          (rotate (2 ^ k) (x / 2 ^ k) (y / 2 ^ k) (x % 2 ^ k, y % 2 ^ k)).1
          (rotate (2 ^ k) (x / 2 ^ k) (y / 2 ^ k) (x % 2 ^ k, y % 2 ^ k)).2 := by
  rw [hilbertIndex]
  simp only [ite_and_two_pow hx, ite_and_two_pow hy, Nat.and_two_pow_sub_one_eq_mod]
  rw [show 2 ^ k * 2 ^ k = 4 ^ k by rw [← Nat.mul_pow]]

theorem hilbertIndex_lt {k x y : Nat} (hx : x < 2 ^ k) (hy : y < 2 ^ k) :
    hilbertIndex k x y < 4 ^ k := by
  induction k generalizing x y with
  | zero => exact Nat.one_pos
  | succ k ih =>
      have hmx : x % 2 ^ k < 2 ^ k := Nat.mod_lt x (Nat.two_pow_pos k)
      have hmy : y % 2 ^ k < 2 ^ k := Nat.mod_lt y (Nat.two_pow_pos k)
      have hrot := @rotate_lt _ (x / 2 ^ k) (y / 2 ^ k) (x % 2 ^ k, y % 2 ^ k) hmx hmy
      have hlow := ih hrot.1 hrot.2
      have hdigit := (digit_spec (quadrant_lt hx) (quadrant_lt hy)).1
      rw [hilbertIndex_succ hx hy, Nat.pow_succ]
      have := Nat.mul_le_mul_left (4 ^ k) (Nat.le_of_lt_succ hdigit)
      omega

/-- The last digit is read last. -/
theorem hilbertLoop_succ (n s t : Nat) (p : Nat × Nat) :
    hilbertLoop (n + 1) s t p =
      hilbertLoop 1 (2 ^ n * s) (t / 4 ^ n) (hilbertLoop n s t p) := by
  induction n generalizing s t p with
  | zero => simp [hilbertLoop]
  | succ n ih =>
      rw [hilbertLoop, ih]
      rw [show hilbertLoop (n + 1) s t p = hilbertLoop n (2 * s) (t / 4)
        ((rotate s (1 &&& (t / 2)) (1 &&& (t ^^^ (1 &&& (t / 2)))) p).1 + s * (1 &&& (t / 2)),
          (rotate s (1 &&& (t / 2)) (1 &&& (t ^^^ (1 &&& (t / 2)))) p).2 +
            s * (1 &&& (t ^^^ (1 &&& (t / 2))))) from rfl]
      rw [Nat.div_div_eq_div_mul, ← Nat.pow_succ', Nat.pow_succ' (m := 2), Nat.mul_comm 2 (2 ^ n),
        Nat.mul_assoc]

/-- Higher digits do not matter. -/
theorem hilbertLoop_add (n s t q : Nat) (p : Nat × Nat) :
    hilbertLoop n s (4 ^ n * q + t) p = hilbertLoop n s t p := by
  induction n generalizing s t p with
  | zero => rfl
  | succ n ih =>
      have hquarter : (4 ^ (n + 1) * q + t) / 4 = 4 ^ n * q + t / 4 := by
        rw [Nat.pow_succ, Nat.mul_comm (4 ^ n) 4, Nat.mul_assoc]
        omega
      have hrx : 1 &&& ((4 ^ (n + 1) * q + t) / 2) = 1 &&& (t / 2) := by
        rw [Nat.one_and_eq_mod_two, Nat.one_and_eq_mod_two, Nat.pow_succ, Nat.mul_comm (4 ^ n) 4,
          Nat.mul_assoc]
        omega
      have hry : ∀ r, 1 &&& ((4 ^ (n + 1) * q + t) ^^^ r) = 1 &&& (t ^^^ r) := by
        intro r
        rw [Nat.one_and_eq_mod_two, Nat.one_and_eq_mod_two, Nat.xor_mod_two_eq, Nat.xor_mod_two_eq,
          Nat.pow_succ, Nat.mul_comm (4 ^ n) 4, Nat.mul_assoc]
        omega
      rw [hilbertLoop, hilbertLoop]
      simp only [hrx, hry, hquarter, ih]

theorem hilbertLoop_hilbertIndex {k x y : Nat} (hx : x < 2 ^ k) (hy : y < 2 ^ k) :
    hilbertLoop k 1 (hilbertIndex k x y) (0, 0) = (x, y) := by
  induction k generalizing x y with
  | zero =>
      obtain rfl : x = 0 := by simpa using hx
      obtain rfl : y = 0 := by simpa using hy
      rfl
  | succ k ih =>
      have hmx : x % 2 ^ k < 2 ^ k := Nat.mod_lt x (Nat.two_pow_pos k)
      have hmy : y % 2 ^ k < 2 ^ k := Nat.mod_lt y (Nat.two_pow_pos k)
      have hrot := @rotate_lt _ (x / 2 ^ k) (y / 2 ^ k) (x % 2 ^ k, y % 2 ^ k) hmx hmy
      have hlow := hilbertIndex_lt hrot.1 hrot.2
      obtain ⟨-, hrx, hry⟩ := digit_spec (quadrant_lt hx) (quadrant_lt hy)
      rw [hilbertIndex_succ hx hy, hilbertLoop_succ, hilbertLoop_add, ih hrot.1 hrot.2,
        Nat.mul_add_div (by positivity), Nat.div_eq_of_lt hlow, Nat.add_zero, Nat.mul_one]
      have hback := @rotate_rotate _ (x / 2 ^ k) (y / 2 ^ k) (x % 2 ^ k, y % 2 ^ k) hmx hmy
      simp only [hilbertLoop, hrx, hry, hback]
      rw [Nat.mod_add_div, Nat.mod_add_div]

/-! ## All zooms -/

theorem three_mul_tilesBelow (z : Nat) : 3 * tilesBelow z + 1 = 4 ^ z := by
  rw [tilesBelow, Nat.pow_mul, show (2 : Nat) ^ 2 = 4 from rfl]
  have hmod : 4 ^ z % 3 = 1 := by
    rw [Nat.pow_mod, show 4 % 3 = 1 from rfl, Nat.one_pow]
  generalize 4 ^ z = n at hmod ⊢
  omega

structure ValidTile (z x y : Nat) : Prop where
  zoom : z ≤ 31
  x : x < 2 ^ z
  y : y < 2 ^ z

theorem zxyToTileId_eq {z x y : Nat} (hx : x < 2 ^ z) (hy : y < 2 ^ z) :
    zxyToTileId z x y = tilesBelow z + hilbertIndex z x y := by
  unfold zxyToTileId
  split
  next h => subst h; rfl
  next => rfl

theorem tileIdToZ_zxyToTileId {z x y : Nat} (hx : x < 2 ^ z) (hy : y < 2 ^ z) :
    tileIdToZ (zxyToTileId z x y) = z := by
  have hlt := hilbertIndex_lt hx hy
  have hbelow := three_mul_tilesBelow z
  rw [tileIdToZ, zxyToTileId_eq hx hy, Nat.log2_eq_log_two]
  have hlow : 2 ^ (2 * z) ≤ 3 * (tilesBelow z + hilbertIndex z x y) + 1 := by
    rw [Nat.pow_mul, show (2 : Nat) ^ 2 = 4 from rfl]
    omega
  have hhigh : 3 * (tilesBelow z + hilbertIndex z x y) + 1 < 2 ^ (2 * z + 2) := by
    rw [Nat.pow_add, Nat.pow_mul, show (2 : Nat) ^ 2 = 4 from rfl]
    omega
  have h₁ := (Nat.le_log_iff_pow_le (by decide) (by omega)).mpr hlow
  have h₂ := (Nat.log_lt_iff_lt_pow (by decide) (by omega)).mpr hhigh
  omega

/-- The id determines the tile. -/
theorem tileIdToZxy_zxyToTileId {z x y : Nat} (hx : x < 2 ^ z) (hy : y < 2 ^ z) :
    tileIdToZxy (zxyToTileId z x y) = (z, x, y) := by
  unfold tileIdToZxy
  split
  next h =>
    have hz := tileIdToZ_zxyToTileId hx hy
    rw [h] at hz
    obtain rfl : z = 0 := hz.symm
    obtain rfl : x = 0 := by simpa using hx
    obtain rfl : y = 0 := by simpa using hy
    rfl
  next =>
    simp only
    rw [tileIdToZ_zxyToTileId hx hy, zxyToTileId_eq hx hy, Nat.add_sub_cancel_left,
      hilbertLoop_hilbertIndex hx hy]

theorem zxyToTileId_injective {z x y z' x' y' : Nat} (h : ValidTile z x y) (h' : ValidTile z' x' y')
    (heq : zxyToTileId z x y = zxyToTileId z' x' y') : (z, x, y) = (z', x', y') := by
  rw [← tileIdToZxy_zxyToTileId h.x h.y, heq, tileIdToZxy_zxyToTileId h'.x h'.y]

/-- The zooms in use stay below 64 bits. -/
theorem zxyToTileId_lt {z x y : Nat} (h : ValidTile z x y) : zxyToTileId z x y < 2 ^ 64 := by
  have hlt := hilbertIndex_lt h.x h.y
  have hbelow := three_mul_tilesBelow z
  have hpow : 4 ^ z ≤ 4 ^ 31 := Nat.pow_le_pow_right (by decide) h.zoom
  rw [zxyToTileId_eq h.x h.y]
  have : (4 : Nat) ^ 31 < 2 ^ 63 := by decide
  omega

example : zxyToTileId 2 1 3 = 11 := by decide

end RasterH3.Pmtiles
