import RasterH3.Lib.Numerals
import Mathlib.Algebra.Order.Field.Basic
import Mathlib.Order.WithBot

/-!
# Floats with an exact finite part

A floating-point value is a number, an infinity or NaN. Here the numbers are those of an
ordered field and their arithmetic is exact, while the others keep the rules of IEEE 754:
NaN compares with nothing, itself included, and the difference of two like infinities is
NaN. Zero has one sign.

This is enough where a program only compares, subtracts and tests for being finite, and asks
what happens at the special values. Where rounding matters it is not, and a rounding
function has to be an argument.
-/

inductive ExactFloat (F : Type) where
  | finite (v : F)
  | infinity
  | negInfinity
  | nan

namespace ExactFloat

variable {F : Type}

def isFinite : ExactFloat F → Bool
  | finite _ => true
  | _ => false

def sub [Sub F] : ExactFloat F → ExactFloat F → ExactFloat F
  | nan, _ | _, nan => nan
  | finite v, finite w => finite (v - w)
  | infinity, infinity | negInfinity, negInfinity => nan
  | infinity, _ | _, negInfinity => infinity
  | negInfinity, _ | _, infinity => negInfinity

def abs [Lattice F] [AddGroup F] : ExactFloat F → ExactFloat F
  | finite v => finite |v|
  | infinity | negInfinity => infinity
  | nan => nan

/-- Where a value stands in the order, if it does. -/
def rank : ExactFloat F → Option (WithBot (WithTop F))
  | finite v => some ((v : WithTop F) : WithBot (WithTop F))
  | infinity => some ⊤
  | negInfinity => some ⊥
  | nan => none

section Order

variable [LinearOrder F]

def beq (a b : ExactFloat F) : Bool :=
  match a.rank, b.rank with
  | some x, some y => decide (x = y)
  | _, _ => false

def lt (a b : ExactFloat F) : Bool :=
  match a.rank, b.rank with
  | some x, some y => decide (x < y)
  | _, _ => false

def ge (a b : ExactFloat F) : Bool :=
  match a.rank, b.rank with
  | some x, some y => decide (y ≤ x)
  | _, _ => false

variable {v w : F}

@[simp] theorem beq_finite : beq (finite v) (finite w) = decide (v = w) := by
  simp [beq, rank]

@[simp] theorem lt_finite : lt (finite v) (finite w) = decide (v < w) := by
  simp [lt, rank]

@[simp] theorem ge_finite : ge (finite v) (finite w) = decide (w ≤ v) := by
  simp [ge, rank]

end Order

section Arithmetic

variable [Field F] [LinearOrder F]

/-- The test of two values for being closer than `tolerance`. -/
def near (tolerance : F) (a b : ExactFloat F) : Bool := lt (abs (sub a b)) (finite tolerance)

@[simp] theorem near_finite {tolerance v w : F} :
    near tolerance (finite v) (finite w) = decide (|v - w| < tolerance) := lt_finite

/-- Nothing finite is equal or near to an infinity or NaN. -/
theorem beq_or_near_special {tolerance v : F} {nd : ExactFloat F} (h : nd.isFinite = false) :
    (beq (finite v) nd || near tolerance (finite v) nd) = false := by
  cases nd with
  | finite w => exact Bool.noConfusion h
  | infinity | negInfinity | nan => simp [beq, near, sub, abs, lt, rank]

end Arithmetic

end ExactFloat
