import Mathlib.Algebra.Order.Ring.Nat
import Mathlib.Data.Nat.Cast.Defs

/-!
# Numerals with named instances

A numeral of a field rests on a proof that it is at least two, and a numeral below a
power of two on a proof that the power is not zero. Found anew for each definition,
such a proof is a term, and every definition keeps a copy of its own. Here the proofs
have names, so that definitions which speak of the same angle or the same word size
mention the same one.
-/

namespace Numerals

instance (priority := high) two : Nat.AtLeastTwo 2 := ⟨by decide⟩

instance (priority := high) three : Nat.AtLeastTwo 3 := ⟨by decide⟩

instance (priority := high) five : Nat.AtLeastTwo 5 := ⟨by decide⟩

/-! ## Powers of ten and hundredths -/

instance (priority := high) ten : Nat.AtLeastTwo 10 := ⟨by decide⟩

instance (priority := high) twentyFive : Nat.AtLeastTwo 25 := ⟨by decide⟩

instance (priority := high) seventyFive : Nat.AtLeastTwo 75 := ⟨by decide⟩

instance (priority := high) hundred : Nat.AtLeastTwo 100 := ⟨by decide⟩

instance (priority := high) tenThousand : Nat.AtLeastTwo 10000 := ⟨by decide⟩

/-! ## Degrees, and the equatorial radius in metres -/

instance (priority := high) polar : Nat.AtLeastTwo 89 := ⟨by decide⟩

instance (priority := high) quarterTurn : Nat.AtLeastTwo 90 := ⟨by decide⟩

instance (priority := high) halfTurn : Nat.AtLeastTwo 180 := ⟨by decide⟩

instance (priority := high) turn : Nat.AtLeastTwo 360 := ⟨by decide⟩

instance (priority := high) equatorialRadius : Nat.AtLeastTwo 6378137 := ⟨by decide⟩

/-! ## Words -/

instance (priority := high) word : @NeZero Nat Zero.ofOfNat0 (2 ^ 64) := ⟨by decide⟩

end Numerals
