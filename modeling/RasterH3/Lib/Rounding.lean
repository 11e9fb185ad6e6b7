import Mathlib.Algebra.Order.Field.Basic
import Mathlib.Algebra.Order.Floor.Ring
import Mathlib.Data.Rat.Floor
import Mathlib.Tactic

/-!
# Arithmetic that rounds

The numbers of a floating-point format are some of those of an ordered field, and an operation on
them is the exact one with its result rounded back into the format. What the order of such
numbers, their sums and their differences have to do with the exact ones is then a matter of
three properties of the rounding: it is monotone, it leaves the numbers of the format alone, and
it treats both signs alike. Nothing else is assumed. In particular rounding need not go to the
nearest number, and the format can be the whole field (`Rounding.exact`), where everything below
is ordinary arithmetic.

The second half rounds to the nearest number of so many binary digits, ties to even, and down to
a least exponent, below which the numbers are equally spaced. That rounding is monotone has two
reasons. Within a binade it is rounding to integers. Between binades it is that a power of two
which separates two numbers is itself a number of the format, for the finer of the two spacings
and for the coarser.

Infinities and NaN have no counterpart, and zero has one sign.
-/

/-- A monotone and odd way to bring every number into a format. -/
structure Rounding (K : Type) [Field K] [LinearOrder K] where
  round : K → K
  mono : Monotone round
  idem : ∀ x, round (round x) = round x
  neg : ∀ x, round (-x) = -round x

/-- What differences, products and constants have to satisfy, in `f64` as in exact arithmetic. -/
class SignedArithmetic (F : Type) [Zero F] [Neg F] [Sub F] [Mul F] [RatCast F] [LinearOrder F] :
    Prop where
  neg_sub : ∀ x y : F, -(x - y) = y - x
  sub_self : ∀ x : F, x - x = 0
  neg_zero : -(0 : F) = 0
  neg_nonneg : ∀ x : F, x ≤ 0 → 0 ≤ -x
  mul_nonneg : ∀ x y : F, 0 ≤ x → 0 ≤ y → 0 ≤ x * y
  ratCast_nonneg : ∀ q : ℚ, 0 ≤ q → 0 ≤ (q : F)

/-- `abs`. -/
def magnitude {F : Type} [Neg F] [Max F] (x : F) : F := max x (-x)

namespace SignedArithmetic

variable {F : Type} [Zero F] [Neg F] [Sub F] [Mul F] [RatCast F] [LinearOrder F]
  [SignedArithmetic F]

theorem magnitude_sub_comm (x y : F) : magnitude (x - y) = magnitude (y - x) := by
  rw [magnitude, magnitude, neg_sub, neg_sub, max_comm]

theorem magnitude_sub_self (x : F) : magnitude (x - x) = 0 := by
  rw [magnitude, sub_self, neg_zero, max_self]

theorem magnitude_nonneg (x : F) : 0 ≤ magnitude x := by
  rcases le_total 0 x with hx | hx
  · exact hx.trans (le_max_left _ _)
  · exact (neg_nonneg x hx).trans (le_max_right _ _)

end SignedArithmetic

instance {F : Type} [Field F] [LinearOrder F] [IsStrictOrderedRing F] : SignedArithmetic F where
  neg_sub := neg_sub
  sub_self := sub_self
  neg_zero := neg_zero
  neg_nonneg _ := neg_nonneg_of_nonpos
  mul_nonneg _ _ := mul_nonneg
  ratCast_nonneg _ hq := Rat.cast_nonneg.mpr hq

namespace Rounding

variable {K : Type} [Field K] [LinearOrder K]

/-- Every number is in the format. -/
def exact (K : Type) [Field K] [LinearOrder K] : Rounding K :=
  ⟨id, monotone_id, fun _ => rfl, fun _ => rfl⟩

variable (r : Rounding K)

theorem zero [IsStrictOrderedRing K] : r.round 0 = 0 := by
  have hneg := r.neg 0
  rw [neg_zero] at hneg
  exact self_eq_neg.mp hneg

/-- The numbers of the format. -/
def Number : Type := {x : K // r.round x = x}

namespace Number

variable {r}

@[ext] theorem ext {x y : r.Number} (h : x.val = y.val) : x = y := Subtype.ext h

instance : LinearOrder r.Number := inferInstanceAs (LinearOrder {x : K // r.round x = x})

theorem le_iff {x y : r.Number} : x ≤ y ↔ x.val ≤ y.val := Iff.rfl

theorem lt_iff {x y : r.Number} : x < y ↔ x.val < y.val := Iff.rfl

/-- The nearest number of the format. -/
def of (r : Rounding K) (x : K) : r.Number := ⟨r.round x, r.idem x⟩

instance : Add r.Number := ⟨fun x y => of r (x.val + y.val)⟩

instance : Sub r.Number := ⟨fun x y => of r (x.val - y.val)⟩

instance : Mul r.Number := ⟨fun x y => of r (x.val * y.val)⟩

instance : Div r.Number := ⟨fun x y => of r (x.val / y.val)⟩

instance : Neg r.Number := ⟨fun x => ⟨-x.val, by rw [r.neg, x.property]⟩⟩

instance : RatCast r.Number := ⟨fun q => of r q⟩

theorem val_add (x y : r.Number) : (x + y).val = r.round (x.val + y.val) := rfl

/-- A sum that is not rounded. -/
def ExactAdd (x y : r.Number) : Prop := (x + y).val = x.val + y.val

instance (x y : r.Number) : Decidable (x.ExactAdd y) := inferInstanceAs (Decidable (_ = _))

variable [IsStrictOrderedRing K]

instance : Zero r.Number := ⟨⟨0, r.zero⟩⟩

@[simp] theorem val_zero : (0 : r.Number).val = 0 := rfl

instance : AddZeroClass r.Number where
  zero_add x := ext (by rw [val_add, val_zero, zero_add]; exact x.property)
  add_zero x := ext (by rw [val_add, val_zero, add_zero]; exact x.property)

/-- Adding what is positive does not lower a number. -/
theorem le_add {x w : r.Number} (hw : 0 ≤ w) : x ≤ x + w := by
  have hle : r.round x.val ≤ r.round (x.val + w.val) :=
    r.mono (le_add_of_nonneg_right (le_iff.mp hw))
  rwa [x.property] at hle

instance : SignedArithmetic r.Number where
  neg_sub x y := by
    refine ext ?_
    show -r.round (x.val - y.val) = r.round (y.val - x.val)
    rw [← r.neg, neg_sub]
  sub_self x := by
    refine ext ?_
    show r.round (x.val - x.val) = 0
    rw [sub_self, r.zero]
  neg_zero := ext (neg_zero : -(0 : K) = 0)
  neg_nonneg x hx := le_iff.mpr (neg_nonneg_of_nonpos (le_iff.mp hx))
  mul_nonneg x y hx hy := by
    have hle := r.mono (mul_nonneg (le_iff.mp hx) (le_iff.mp hy))
    rwa [r.zero] at hle
  ratCast_nonneg q hq := by
    have hle := r.mono (Rat.cast_nonneg.mpr hq : (0 : K) ≤ q)
    rwa [r.zero] at hle

end Number

/-! ## Rounding to the nearest -/

/-- The nearest integer, and of two the even one. -/
def toEven (q : ℚ) : ℤ :=
  if q - ⌊q⌋ < 1 / 2 then ⌊q⌋
  else if 1 / 2 < q - ⌊q⌋ then ⌊q⌋ + 1
  else if ⌊q⌋ % 2 = 0 then ⌊q⌋
  else ⌊q⌋ + 1

theorem toEven_mem (q : ℚ) : ⌊q⌋ ≤ toEven q ∧ toEven q ≤ ⌊q⌋ + 1 := by
  unfold toEven
  split
  next => omega
  next =>
    split
    next => omega
    next =>
      split
      next => omega
      next => omega

theorem toEven_int (n : ℤ) : toEven n = n := by
  rw [toEven, Int.floor_intCast, sub_self, if_pos (by norm_num)]

theorem toEven_mono : Monotone toEven := by
  intro q q' hle
  rcases lt_or_eq_of_le (Int.floor_mono hle) with hlt | heq
  · have hlow := (toEven_mem q).2
    have hhigh := (toEven_mem q').1
    omega
  · have hlow := (toEven_mem q').1
    unfold toEven at hlow ⊢
    rw [← heq] at hlow ⊢
    have hfrac : q - ⌊q⌋ ≤ q' - ⌊q⌋ := sub_le_sub_right hle _
    split
    next => exact hlow
    next hhalf =>
      rw [if_neg fun h => hhalf (hfrac.trans_lt h)]
      split
      next hmore => rw [if_pos (hmore.trans_le hfrac)]
      next =>
        split
        next => split <;> omega
        next => split <;> omega

/-- The exponent of the leading binary digit. -/
def binade (x : ℚ) : ℤ :=
  let e : ℤ := (Nat.log2 x.num.natAbs : ℤ) - Nat.log2 x.den
  if (2 : ℚ) ^ e ≤ x then e else e - 1

theorem binade_spec {x : ℚ} (hx : 0 < x) :
    (2 : ℚ) ^ binade x ≤ x ∧ x < (2 : ℚ) ^ (binade x + 1) := by
  have hnum : x.num.natAbs ≠ 0 := (Int.natAbs_pos.mpr (Rat.num_pos.mpr hx).ne').ne'
  have hx' : x = (x.num.natAbs : ℚ) / x.den := by
    conv_lhs => rw [← Rat.num_div_den x]
    rw [Nat.cast_natAbs, abs_of_pos (Rat.num_pos.mpr hx)]
  have hn : ((2 : ℚ) ^ x.num.natAbs.log2 ≤ x.num.natAbs ∧
      (x.num.natAbs : ℚ) < 2 ^ (x.num.natAbs.log2 + 1)) := by
    exact_mod_cast And.intro (Nat.log2_self_le hnum) Nat.lt_log2_self
  have hd : ((2 : ℚ) ^ x.den.log2 ≤ x.den ∧ (x.den : ℚ) < 2 ^ (x.den.log2 + 1)) := by
    exact_mod_cast And.intro (Nat.log2_self_le x.den_pos.ne') Nat.lt_log2_self
  set a := x.num.natAbs.log2
  set b := x.den.log2
  have hdpos : (0 : ℚ) < x.den := Nat.cast_pos.mpr x.den_pos
  have hhigh : x < (2 : ℚ) ^ ((a : ℤ) - b + 1) := by
    rw [show (a : ℤ) - b + 1 = ((a + 1 : ℕ) : ℤ) - (b : ℕ) by push_cast; ring,
      zpow_sub₀ two_ne_zero, zpow_natCast, zpow_natCast, hx']
    exact div_lt_div₀ hn.2 hd.1 (by positivity) (by positivity)
  have hlow : (2 : ℚ) ^ ((a : ℤ) - b - 1) ≤ x := by
    rw [show (a : ℤ) - b - 1 = (a : ℕ) - ((b + 1 : ℕ) : ℤ) by push_cast; ring,
      zpow_sub₀ two_ne_zero, zpow_natCast, zpow_natCast, hx']
    exact div_le_div₀ (Nat.cast_nonneg _) hn.1 hdpos hd.2.le
  show (2 : ℚ) ^ (if (2 : ℚ) ^ ((a : ℤ) - b) ≤ x then (a : ℤ) - b else (a : ℤ) - b - 1) ≤ x ∧
    x < (2 : ℚ) ^ ((if (2 : ℚ) ^ ((a : ℤ) - b) ≤ x then (a : ℤ) - b else (a : ℤ) - b - 1) + 1)
  split
  next hle => exact ⟨hle, hhigh⟩
  next hlt =>
    rw [sub_add_cancel]
    exact ⟨hlow, not_le.mp hlt⟩

theorem binade_mono {x y : ℚ} (hx : 0 < x) (hle : x ≤ y) : binade x ≤ binade y := by
  have hlt := (binade_spec hx).1.trans_lt (hle.trans_lt (binade_spec (hx.trans_le hle)).2)
  have := (zpow_lt_zpow_iff_right₀ (one_lt_two : (1 : ℚ) < 2)).mp hlt
  omega

section Nearest

variable (precision : ℕ) (least : ℤ)

/-- The exponent of the spacing around a number. -/
def spacing (x : ℚ) : ℤ := max (binade x - (precision - 1)) least

/-- The nearest number of the format, for one that is positive. -/
def roundPos (x : ℚ) : ℚ :=
  toEven (x / 2 ^ spacing precision least x) * 2 ^ spacing precision least x

def roundNearest (x : ℚ) : ℚ :=
  if 0 < x then roundPos precision least x
  else if x < 0 then -roundPos precision least (-x)
  else 0

variable {precision least}

theorem exists_multiple {j k : ℤ} (h : k ≤ j) (n : ℤ) :
    ∃ m : ℤ, (n : ℚ) * 2 ^ j = m * 2 ^ k := by
  refine ⟨n * 2 ^ (j - k).toNat, ?_⟩
  have hpow : ((2 : ℚ) ^ (j - k).toNat) = 2 ^ (j - k) := by
    rw [← zpow_natCast, Int.toNat_of_nonneg (by omega)]
  rw [Int.cast_mul, Int.cast_pow, Int.cast_ofNat, hpow, mul_assoc, ← zpow_add₀ two_ne_zero,
    sub_add_cancel]

theorem roundPos_of_multiple {x : ℚ} {m : ℤ} (h : x = m * 2 ^ spacing precision least x) :
    roundPos precision least x = x := by
  have hpos : (2 : ℚ) ^ spacing precision least x ≠ 0 := (zpow_pos two_pos _).ne'
  have hquot : x / 2 ^ spacing precision least x = m := by
    rw [div_eq_iff hpos]
    exact h
  rw [roundPos, hquot, toEven_int]
  exact h.symm

/-- Multiples of a spacing that is fine enough are in the format. -/
theorem roundPos_grid (hprecision : 0 < precision) {n k : ℤ} (hn : 0 < n) (hn' : n ≤ 2 ^ precision)
    (hk : least ≤ k) : roundPos precision least (n * 2 ^ k) = n * 2 ^ k := by
  have htwo : (0 : ℚ) < 2 ^ k := by positivity
  have hx : (0 : ℚ) < n * 2 ^ k := mul_pos (Int.cast_pos.mpr hn) htwo
  have hspec := binade_spec hx
  have hn'' : (n : ℚ) ≤ 2 ^ (precision : ℤ) := by
    rw [zpow_natCast]
    exact_mod_cast hn'
  have hmost : (n : ℚ) * 2 ^ k ≤ 2 ^ ((precision : ℤ) + k) := by
    rw [zpow_add₀ two_ne_zero]
    exact mul_le_mul_of_nonneg_right hn'' htwo.le
  have hle : binade ((n : ℚ) * 2 ^ k) ≤ precision + k :=
    (zpow_le_zpow_iff_right₀ one_lt_two).mp (hspec.1.trans hmost)
  by_cases htop : binade ((n : ℚ) * 2 ^ k) = precision + k
  · -- the largest such number is a power of two
    have heq : (n : ℚ) * 2 ^ k = 2 ^ ((precision : ℤ) + k) := le_antisymm hmost (htop ▸ hspec.1)
    have hspacing : spacing precision least (n * 2 ^ k) ≤ precision + k := by
      rw [spacing, htop]
      omega
    obtain ⟨m, hm⟩ := exists_multiple hspacing 1
    rw [Int.cast_one, one_mul, ← heq] at hm
    exact roundPos_of_multiple hm
  · have hspacing : spacing precision least (n * 2 ^ k) ≤ k := by
      rw [spacing]
      omega
    obtain ⟨m, hm⟩ := exists_multiple hspacing n
    exact roundPos_of_multiple hm

theorem roundPos_le_pow {x : ℚ} {j : ℤ} (hx : x ≤ 2 ^ j) (hj : spacing precision least x ≤ j) :
    roundPos precision least x ≤ 2 ^ j := by
  have hpos : (0 : ℚ) < 2 ^ spacing precision least x := by positivity
  obtain ⟨m, hm⟩ := exists_multiple hj 1
  rw [Int.cast_one, one_mul] at hm
  have hle : toEven (x / 2 ^ spacing precision least x) ≤ m := by
    rw [← toEven_int m]
    exact toEven_mono ((div_le_iff₀ hpos).mpr (hm ▸ hx))
  rw [hm]
  exact mul_le_mul_of_nonneg_right (Int.cast_le.mpr hle) hpos.le

theorem pow_le_roundPos {x : ℚ} {j : ℤ} (hx : 2 ^ j ≤ x) (hj : spacing precision least x ≤ j) :
    2 ^ j ≤ roundPos precision least x := by
  have hpos : (0 : ℚ) < 2 ^ spacing precision least x := by positivity
  obtain ⟨m, hm⟩ := exists_multiple hj 1
  rw [Int.cast_one, one_mul] at hm
  have hle : m ≤ toEven (x / 2 ^ spacing precision least x) := by
    rw [← toEven_int m]
    exact toEven_mono ((le_div_iff₀ hpos).mpr (hm ▸ hx))
  rw [hm]
  exact mul_le_mul_of_nonneg_right (Int.cast_le.mpr hle) hpos.le

theorem roundPos_mono_of_spacing {x y : ℚ} (hle : x ≤ y)
    (h : spacing precision least x = spacing precision least y) :
    roundPos precision least x ≤ roundPos precision least y := by
  have hpos : (0 : ℚ) ≤ 2 ^ spacing precision least y := by positivity
  rw [roundPos, roundPos, h]
  refine mul_le_mul_of_nonneg_right (Int.cast_le.mpr (toEven_mono ?_)) hpos
  exact div_le_div_of_nonneg_right hle hpos

theorem roundPos_mono (hprecision : 0 < precision) {x y : ℚ} (hx : 0 < x) (hle : x ≤ y) :
    roundPos precision least x ≤ roundPos precision least y := by
  have hbinade := binade_mono hx hle
  by_cases hsame : spacing precision least x = spacing precision least y
  · exact roundPos_mono_of_spacing hle hsame
  · -- the least number of the upper binade separates the two
    have hcoarse : least < binade y - (precision - 1) ∧ binade x < binade y := by
      simp only [spacing] at hsame
      omega
    have hpow : x ≤ 2 ^ binade y :=
      (binade_spec hx).2.le.trans (zpow_le_zpow_right₀ one_le_two (by omega))
    refine (roundPos_le_pow hpow ?_).trans (pow_le_roundPos (binade_spec (hx.trans_le hle)).1 ?_)
    · simp only [spacing]
      omega
    · simp only [spacing]
      omega

theorem toEven_quotient {x : ℚ} (hx : 0 < x) :
    0 ≤ toEven (x / 2 ^ spacing precision least x) ∧
      toEven (x / 2 ^ spacing precision least x) ≤ 2 ^ precision := by
  have hpos : (0 : ℚ) < 2 ^ spacing precision least x := by positivity
  refine ⟨?_, ?_⟩
  · have hle := toEven_mono (div_nonneg hx.le hpos.le)
    rwa [show (0 : ℚ) = ((0 : ℤ) : ℚ) from rfl, toEven_int] at hle
  · rw [← toEven_int (2 ^ precision)]
    refine toEven_mono ((div_le_iff₀ hpos).mpr ((binade_spec hx).2.le.trans ?_))
    rw [Int.cast_pow, Int.cast_ofNat, ← zpow_natCast, ← zpow_add₀ two_ne_zero]
    refine zpow_le_zpow_right₀ one_le_two ?_
    simp only [spacing]
    omega

theorem roundPos_nonneg {x : ℚ} (hx : 0 < x) : 0 ≤ roundPos precision least x :=
  mul_nonneg (Int.cast_nonneg (toEven_quotient hx).1) (zpow_nonneg two_pos.le _)

theorem roundNearest_of_pos {x : ℚ} (hx : 0 < x) :
    roundNearest precision least x = roundPos precision least x := if_pos hx

theorem roundNearest_neg (x : ℚ) :
    roundNearest precision least (-x) = -roundNearest precision least x := by
  unfold roundNearest
  rcases lt_trichotomy x 0 with hlt | rfl | hlt
  · rw [if_pos (by linarith), if_neg (by linarith), if_pos hlt, neg_neg]
  · simp
  · rw [if_neg (by linarith), if_pos (by linarith), if_pos hlt, neg_neg]

theorem roundNearest_nonneg {x : ℚ} (hx : 0 ≤ x) : 0 ≤ roundNearest precision least x := by
  rcases lt_or_eq_of_le hx with hx | rfl
  · rw [roundNearest_of_pos hx]
    exact roundPos_nonneg hx
  · simp [roundNearest]

theorem roundNearest_mono (hprecision : 0 < precision) :
    Monotone (roundNearest precision least) := by
  have hpos : ∀ {x y : ℚ}, 0 ≤ x → x ≤ y →
      roundNearest precision least x ≤ roundNearest precision least y := by
    intro x y hx hle
    rcases lt_or_eq_of_le hx with hx | rfl
    · rw [roundNearest_of_pos hx, roundNearest_of_pos (hx.trans_le hle)]
      exact roundPos_mono hprecision hx hle
    · rw [show roundNearest precision least 0 = 0 by simp [roundNearest]]
      exact roundNearest_nonneg hle
  intro x y hle
  rcases le_total 0 x with hx | hx
  · exact hpos hx hle
  · rcases le_total 0 y with hy | hy
    · have hneg := @roundNearest_nonneg precision least _ (neg_nonneg_of_nonpos hx)
      rw [roundNearest_neg] at hneg
      exact (neg_nonneg.mp hneg).trans (roundNearest_nonneg hy)
    · have hflip := hpos (neg_nonneg_of_nonpos hy) (neg_le_neg hle)
      rw [roundNearest_neg, roundNearest_neg] at hflip
      exact neg_le_neg_iff.mp hflip

theorem roundNearest_idem (hprecision : 0 < precision) (x : ℚ) :
    roundNearest precision least (roundNearest precision least x) =
      roundNearest precision least x := by
  have hpos : ∀ {x : ℚ}, 0 < x →
      roundNearest precision least (roundPos precision least x) = roundPos precision least x := by
    intro x hx
    obtain ⟨hlow, hhigh⟩ := @toEven_quotient precision least x hx
    rcases lt_or_eq_of_le hlow with hn | hn
    · have hgrid := roundPos_grid hprecision hn hhigh
        (le_max_right _ _ : least ≤ spacing precision least x)
      have hpos : 0 < roundPos precision least x :=
        mul_pos (Int.cast_pos.mpr hn) (zpow_pos two_pos _)
      rw [roundNearest_of_pos hpos]
      exact hgrid
    · rw [roundPos, ← hn]
      simp [roundNearest]
  rcases lt_trichotomy x 0 with hlt | rfl | hlt
  · have hfix := hpos (neg_pos.mpr hlt)
    rw [← roundNearest_of_pos (neg_pos.mpr hlt), roundNearest_neg, roundNearest_neg] at hfix
    exact neg_injective hfix
  · simp [roundNearest]
  · rw [roundNearest_of_pos hlt]
    exact hpos hlt

end Nearest

/-- So many binary digits, and no spacing below the least exponent. -/
def nearest (precision : ℕ) (hprecision : 0 < precision) (least : ℤ) : Rounding ℚ where
  round := roundNearest precision least
  mono := roundNearest_mono hprecision
  idem := roundNearest_idem hprecision
  neg := roundNearest_neg

/-- The rounding of `f64`, for results that do not overflow. -/
def binary64 : Rounding ℚ := nearest 53 (by decide) (-1074)

example : binary64.round (1 / 10) = 3602879701896397 / 2 ^ 55 := by decide +kernel

/-- The `f64` nearest to a number. -/
def double (q : ℚ) : binary64.Number := .of _ q

end Rounding
