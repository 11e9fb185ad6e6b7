import Mathlib.Algebra.BigOperators.Group.List.Basic
import Mathlib.Data.List.ProdSigma

/-!
# Sums over rectangles

A sum over the places of a rectangle is one over its rows and columns, wherever in a larger
rectangle it lies (`sum_rectangle`), and a slice of a slice is a slice.

They are used where a loop over rows and columns is compared with a loop over pieces: both
are a sum over the same places, with what is filtered out adding nothing.
-/

namespace Rectangles

variable {α β M : Type} [AddCommMonoid M]

theorem filter_range {a k N : Nat} (h : a + k ≤ N) :
    ((List.range N).filter fun x => a ≤ x ∧ x < a + k) = List.range' a k := by
  obtain ⟨rest, rfl⟩ := Nat.exists_eq_add_of_le h
  have hsplit : List.range (a + k + rest) =
      List.range' 0 a ++ List.range' a k ++ List.range' (a + k) rest := by
    rw [List.range_eq_range', ← List.range'_append_1, ← List.range'_append_1, Nat.zero_add,
      Nat.zero_add]
  have hbefore : ((List.range' 0 a).filter fun x => a ≤ x ∧ x < a + k) = [] := by
    refine List.filter_eq_nil_iff.mpr fun x hx => ?_
    have := List.mem_range'_1.mp hx
    simp only [decide_eq_true_eq]
    omega
  have hinside : ((List.range' a k).filter fun x => a ≤ x ∧ x < a + k) = List.range' a k := by
    refine List.filter_eq_self.mpr fun x hx => ?_
    have := List.mem_range'_1.mp hx
    simp only [decide_eq_true_eq]
    omega
  have hafter : ((List.range' (a + k) rest).filter fun x => a ≤ x ∧ x < a + k) = [] := by
    refine List.filter_eq_nil_iff.mpr fun x hx => ?_
    have := List.mem_range'_1.mp hx
    simp only [decide_eq_true_eq]
    omega
  rw [hsplit, List.filter_append, List.filter_append, hbefore, hinside, hafter, List.nil_append,
    List.append_nil]

/-- What is filtered out does not count if it adds nothing. -/
theorem sum_filter {l : List α} {p : α → Bool} {g : α → M}
    (h : ∀ x ∈ l, p x = false → g x = 0) : ((l.filter p).map g).sum = (l.map g).sum := by
  induction l with
  | nil => rfl
  | cons x l ih =>
      have hrest := ih fun y hy => h y (List.mem_cons_of_mem x hy)
      rw [List.filter_cons, List.map_cons, List.sum_cons, ← hrest]
      split
      next => rw [List.map_cons, List.sum_cons]
      next hx => rw [h x List.mem_cons_self (Bool.eq_false_iff.mpr hx), zero_add]

theorem sum_product (l : List α) (m : List β) (g : α × β → M) :
    ((l.product m).map g).sum = (l.map fun a => (m.map fun b => g (a, b)).sum).sum := by
  induction l with
  | nil => rfl
  | cons a l ih =>
      have hcons : (a :: l).product m = m.map (fun b => (a, b)) ++ l.product m := rfl
      rw [hcons, List.map_append, List.sum_append, ih, List.map_map, List.map_cons, List.sum_cons]
      rfl

theorem filter_product (l : List α) (m : List β) (p : α → Bool) (q : β → Bool) :
    ((l.product m).filter fun x => p x.1 && q x.2) = (l.filter p).product (m.filter q) := by
  induction l with
  | nil => rfl
  | cons a l ih =>
      have hcons : ∀ m : List β, ∀ l : List α,
          (a :: l).product m = m.map (fun b => (a, b)) ++ l.product m := fun _ _ => rfl
      rw [hcons, List.filter_append, ih, List.filter_map, List.filter_cons]
      cases hp : p a with
      | true =>
          have hall : (m.filter ((fun x : α × β => p x.1 && q x.2) ∘ fun b => (a, b))) =
              m.filter q :=
            List.filter_congr fun b _ => by simp [hp]
          rw [if_pos rfl, hcons, hall]
      | false =>
          rw [if_neg Bool.false_ne_true]
          have hnone : (m.filter ((fun x : α × β => p x.1 && q x.2) ∘ fun b => (a, b))) = [] :=
            List.filter_eq_nil_iff.mpr fun b _ => by simp [hp]
          rw [hnone]
          rfl

theorem sum_range' (a k : Nat) (g : Nat → M) :
    ((List.range' a k).map g).sum = ((List.range k).map fun x => g (a + x)).sum := by
  rw [List.range'_eq_map_range, List.map_map]
  rfl

theorem sum_rectangle {height width row col h w : Nat} (hrow : row + h ≤ height)
    (hcol : col + w ≤ width) (g : Nat × Nat → M) :
    ((((List.range height).product (List.range width)).filter fun p =>
        decide (row ≤ p.1 ∧ p.1 < row + h) && decide (col ≤ p.2 ∧ p.2 < col + w)).map g).sum =
      ((List.range h).map fun r => ((List.range w).map fun c => g (row + r, col + c)).sum).sum := by
  rw [filter_product _ _ (fun r => decide (row ≤ r ∧ r < row + h))
    fun c => decide (col ≤ c ∧ c < col + w), filter_range hrow, filter_range hcol, sum_product,
    sum_range']
  exact congrArg List.sum (List.map_congr_left fun r _ => sum_range' ..)

/-- Within a slice another one. -/
theorem take_drop_take (l : List α) {a b k len : Nat} (h : b + k ≤ len) :
    (((l.drop a).take len).drop b).take k = (l.drop (a + b)).take k := by
  rw [List.drop_take, List.take_take, List.drop_drop,
    Nat.min_eq_left (by omega)]

end Rectangles
