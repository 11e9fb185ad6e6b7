import RasterH3.Lib.Numerals
import Mathlib.Algebra.Order.Field.Rat
import Mathlib.Order.WithBot
import Mathlib.Tactic

/-!
# The values of 64-bit floats

A word of 64 bits is a sign, eleven bits of exponent and a fraction of 52 bits. It stands
for a rational number or an infinity, or for none if it is a NaN. Both zeros have the
same value, so comparing values is what comparing floats does.
-/

namespace Binary64

/-- The rationals with both infinities. -/
abbrev Extended := WithBot (WithTop ℚ)

def negative (bits : Nat) : Prop := bits / 2 ^ 63 % 2 = 1

instance (bits : Nat) : Decidable (negative bits) := inferInstanceAs (Decidable (_ = _))

/-- The value of a word, if it is not a NaN. -/
def value (bits : Nat) : Option Extended :=
  let fraction : Nat := bits % 2 ^ 52
  let exponent : Nat := bits / 2 ^ 52 % 2 ^ 11
  if exponent = 2047 then
    if fraction = 0 then some (if negative bits then ⊥ else ⊤) else none
  else
    let significand : Nat := if exponent = 0 then fraction else 2 ^ 52 + fraction
    let power : Int := (max exponent 1 : Nat) - 1075
    let magnitude : ℚ := (significand : ℚ) * 2 ^ power
    let finite : ℚ := if negative bits then -magnitude else magnitude
    some (finite : WithTop ℚ)

/-- `==` of two floats: a NaN is not even equal to itself. -/
def same (a b : Nat) : Bool :=
  match value a, value b with
  | some x, some y => x = y
  | _, _ => false

end Binary64
