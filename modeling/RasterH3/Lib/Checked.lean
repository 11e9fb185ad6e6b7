import Mathlib.Tactic

/-!
# Unsigned arithmetic that must not wrap

A result that does not fit into `w` bits, or that would be negative, is `none`. A
computation written in these operations answers exactly if no intermediate value
overflows, and then with what exact arithmetic gives.
-/

namespace Checked

variable {w a b c : Nat}

def fit (w n : Nat) : Option Nat := if n < 2 ^ w then some n else none

def add (w a b : Nat) : Option Nat := fit w (a + b)

def mul (w a b : Nat) : Option Nat := fit w (a * b)

def sub (a b : Nat) : Option Nat := if b ≤ a then some (a - b) else none

/-- The amount of a shift is below the width. The bits that leave are lost. -/
def shl (w a n : Nat) : Option Nat := if n < w then some (a * 2 ^ n % 2 ^ w) else none

@[simp] theorem fit_eq_some {n : Nat} : fit w n = some c ↔ n < 2 ^ w ∧ n = c := by
  unfold fit
  split
  next h => simp [h]
  next h => simp [h]

@[simp] theorem add_eq_some : add w a b = some c ↔ a + b < 2 ^ w ∧ a + b = c := fit_eq_some

@[simp] theorem mul_eq_some : mul w a b = some c ↔ a * b < 2 ^ w ∧ a * b = c := fit_eq_some

@[simp] theorem sub_eq_some : sub a b = some c ↔ b ≤ a ∧ a - b = c := by
  unfold sub
  split
  next h => simp [h]
  next h => simp [h]

theorem add_of_lt (h : a + b < 2 ^ w) : add w a b = some (a + b) := add_eq_some.mpr ⟨h, rfl⟩

theorem mul_of_lt (h : a * b < 2 ^ w) : mul w a b = some (a * b) := mul_eq_some.mpr ⟨h, rfl⟩

theorem sub_of_le (h : b ≤ a) : sub a b = some (a - b) := sub_eq_some.mpr ⟨h, rfl⟩

theorem shl_one_of_lt {n : Nat} (h : n < w) : shl w 1 n = some (2 ^ n) := by
  rw [shl, if_pos h, Nat.one_mul, Nat.mod_eq_of_lt (Nat.pow_lt_pow_right Nat.one_lt_two h)]

end Checked
