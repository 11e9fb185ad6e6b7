import Mathlib.Data.List.Count
import Mathlib.Tactic

/-!
# Cutting an interval and a rectangle into equal pieces

`n` positions are cut into pieces of `size`, the last one shorter. Piece `i` starts at `i *
size`, it exists if that is below `n`, and position `x` is in piece `x / size` and in no
other. A rectangle is cut along both axes, and its pieces are numbered row by row: number
`k` stands for column `k % across` and row `k / across`.

The numbers are naturals and exact. Code that computes with words compares with this once
its sums are known to fit. Two lemmas say what a counting argument needs, that a position is
in one piece and that a number row by row is one pair.
-/

namespace Cuts

variable {n size i x : Nat}

/-- Division rounding up. -/
def divCeil (n size : Nat) : Nat := if 0 < n % size then n / size + 1 else n / size

/-- The length of the piece that starts at `start`. -/
def pieceLen (n size start : Nat) : Nat := min (n - start) size

theorem lt_divCeil_iff (hsize : 0 < size) : i < divCeil n size ↔ i * size < n := by
  have hn := Nat.div_add_mod n size
  have hlt := Nat.mod_lt n hsize
  have hquot : i < n / size ↔ (i + 1) * size ≤ n := by
    rw [← Nat.le_div_iff_mul_le hsize]
    exact Iff.rfl
  have hle : i ≤ n / size ↔ i * size ≤ n := Nat.le_div_iff_mul_le hsize
  unfold divCeil
  split
  next h =>
    rw [Nat.lt_succ_iff, hle]
    refine ⟨fun hi => Nat.lt_of_le_of_ne hi ?_, Nat.le_of_lt⟩
    -- a multiple of `size` leaves no remainder
    intro heq
    rw [← heq, Nat.mul_mod_left] at h
    exact Nat.lt_irrefl 0 h
  next h =>
    have hexact : n = n / size * size := by
      rw [Nat.mul_comm]
      omega
    refine ⟨fun hi => ?_, fun hi => ?_⟩
    · calc i * size < n / size * size := (Nat.mul_lt_mul_right hsize).mpr hi
        _ = n := hexact.symm
    · rw [hexact] at hi
      exact Nat.lt_of_mul_lt_mul_right hi

theorem divCeil_self (hn : 0 < n) : divCeil n n = 1 := by
  rw [divCeil, Nat.mod_self, if_neg (Nat.lt_irrefl 0), Nat.div_self hn]

@[simp] theorem divCeil_zero : divCeil 0 size = 0 := by
  simp [divCeil]

theorem pieceLen_pos (hsize : 0 < size) (hi : i * size < n) : 0 < pieceLen n size (i * size) := by
  unfold pieceLen
  omega

theorem add_pieceLen_le (hi : i * size < n) : i * size + pieceLen n size (i * size) ≤ n := by
  unfold pieceLen
  omega

theorem mem_piece_iff (hsize : 0 < size) (hx : x < n) :
    i * size ≤ x ∧ x < i * size + pieceLen n size (i * size) ↔ x / size = i := by
  have hpiece : i * size ≤ x ∧ x < i * size + pieceLen n size (i * size) ↔
      i * size ≤ x ∧ x < (i + 1) * size := by
    rw [Nat.succ_mul i size]
    unfold pieceLen
    omega
  rw [hpiece, Nat.div_eq_iff hsize]
  rw [Nat.succ_mul i size]
  omega

/-! ## Numbers of the pieces of a rectangle -/

variable {across down : Nat}

theorem across_pos_of_lt {k : Nat} (hk : k < across * down) : 0 < across := by
  rcases Nat.eq_zero_or_pos across with h | h
  · rw [h, Nat.zero_mul] at hk
    omega
  · exact h

theorem row_lt {k : Nat} (hk : k < across * down) : k / across < down := by
  rw [Nat.div_lt_iff_lt_mul (across_pos_of_lt hk), Nat.mul_comm]
  exact hk

theorem number_eq_iff {k col row : Nat} (hcol : col < across) :
    k % across = col ∧ k / across = row ↔ k = row * across + col := by
  refine ⟨fun h => ?_, fun h => ?_⟩
  · rw [← h.1, ← h.2, Nat.mul_comm]
    exact (Nat.div_add_mod k across).symm
  · have hpos : 0 < across := by omega
    rw [h, Nat.mul_comm]
    exact ⟨by rw [Nat.mul_add_mod, Nat.mod_eq_of_lt hcol],
      by rw [Nat.mul_add_div hpos, Nat.div_eq_of_lt hcol, Nat.add_zero]⟩

theorem number_lt {col row : Nat} (hcol : col < across) (hrow : row < down) :
    row * across + col < across * down := by
  calc row * across + col < (row + 1) * across := by
        rw [Nat.succ_mul row across]
        omega
    _ ≤ down * across := Nat.mul_le_mul_right across hrow
    _ = across * down := Nat.mul_comm down across

/-- The numbers row by row are all numbers in order. -/
theorem range_mul (across down : Nat) :
    List.range (across * down) =
      (List.range down).flatMap fun row => (List.range across).map fun col => row * across + col := by
  induction down with
  | zero => simp
  | succ down ih =>
    rw [Nat.mul_succ, List.range_add, ih, List.range_succ, List.flatMap_append]
    simp [Nat.mul_comm]

/-- One number of a range has a property that exactly one number has. -/
theorem countP_range {p : Nat → Bool} {k : Nat} (hk : k < n) (hp : ∀ j, p j = true ↔ j = k) :
    (List.range n).countP p = 1 := by
  have hpeq : p = fun j => j == k := by
    funext j
    rw [Bool.eq_iff_iff, hp, beq_iff_eq]
  rw [hpeq]
  exact List.count_eq_one_of_mem List.nodup_range (List.mem_range.mpr hk)

end Cuts
