import Mathlib.Data.List.OfFn
import Mathlib.Algebra.BigOperators.Fin
import Mathlib.Algebra.Order.Group.Multiset

/-!
# Accumulating in lanes

An unrolled loop takes a list in rows of `n` and keeps one accumulator for each column. What
does not fill a row goes to the first. Each lane is then a fold over a part of the list
(`accumulate_apply`), and the parts make up the whole in another order (`sum_lane`). At the
end the lanes are joined by a tree (`Width.tree`). For an operation that is a homomorphic
image of a sum the shape of the tree does not matter.

The reduction is therefore stated for a homomorphism from multisets: what is true of each
lane and its part is true of the joined lanes and the list. Unrolled loops of different
widths are the same loop with another number, and nothing in a proof about one of them
mentions that number.
-/

namespace Lanes

variable {α σ : Type*} {n : Nat}

/-- The rows of `n` and the rest. -/
def asChunks (n : Nat) (xs : List α) : List (Fin n → α) × List α :=
  (List.ofFn fun c : Fin (xs.length / n) => fun i : Fin n =>
      xs.get ⟨c * n + i, calc
        c * n + i < (c + 1) * n := by
          rw [Nat.add_mul, Nat.one_mul]
          exact Nat.add_lt_add_left i.isLt _
        _ ≤ xs.length / n * n := Nat.mul_le_mul_right n c.isLt
        _ ≤ xs.length := Nat.div_mul_le_self _ n⟩,
    xs.drop (xs.length / n * n))

def accumulate [NeZero n] (f : σ → α → σ) (start : σ) (xs : List α) : Fin n → σ :=
  let rows := asChunks n xs
  let lanes := rows.1.foldl (fun lanes chunk i => f (lanes i) (chunk i)) fun _ => start
  fun i => if i = 0 then rows.2.foldl f (lanes i) else lanes i

/-- The part of the list that lane `i` sees. -/
def lane (n : Nat) [NeZero n] (xs : List α) (i : Fin n) : List α :=
  (asChunks n xs).1.map (· i) ++ if i = 0 then (asChunks n xs).2 else []

theorem foldl_chunks (f : σ → α → σ) (chunks : List (Fin n → α)) (lanes : Fin n → σ)
    (i : Fin n) :
    chunks.foldl (fun lanes chunk i => f (lanes i) (chunk i)) lanes i =
      (chunks.map (· i)).foldl f (lanes i) := by
  induction chunks generalizing lanes with
  | nil => rfl
  | cons chunk chunks ih => exact ih _

theorem accumulate_apply [NeZero n] (f : σ → α → σ) (start : σ) (xs : List α) (i : Fin n) :
    accumulate f start xs i = (lane n xs i).foldl f start := by
  unfold accumulate lane
  simp only [foldl_chunks, List.foldl_append]
  split
  next => rfl
  next => rfl

theorem flatMap_asChunks (n : Nat) (xs : List α) :
    (asChunks n xs).1.flatMap List.ofFn = xs.take (xs.length / n * n) := by
  have hle := Nat.div_mul_le_self xs.length n
  have htake : xs.take (xs.length / n * n) =
      List.ofFn fun k : Fin (xs.length / n * n) => xs.get ⟨k, k.isLt.trans_le hle⟩ := by
    refine List.ext_getElem ?_ fun k h₁ h₂ => ?_
    · rw [List.length_take, List.length_ofFn, Nat.min_eq_left hle]
    · simp
  rw [htake, List.ofFn_mul, List.flatMap_def, asChunks, List.map_ofFn]
  rfl

theorem sum_chunk (chunk : Fin n → α) :
    ∑ i, ({chunk i} : Multiset α) = (List.ofFn chunk : Multiset α) := by
  induction n with
  | zero => rfl
  | succ n ih =>
      rw [Fin.sum_univ_succ, ih fun i => chunk i.succ, List.ofFn_succ]
      rfl

theorem sum_chunks (chunks : List (Fin n → α)) :
    ∑ i, (chunks.map (· i) : Multiset α) = (chunks.flatMap List.ofFn : Multiset α) := by
  induction chunks with
  | nil => exact Finset.sum_const_zero
  | cons chunk chunks ih =>
      have hsplit : ∀ i : Fin n, (((chunk :: chunks).map (· i) : List α) : Multiset α) =
          {chunk i} + (chunks.map (· i) : List α) := fun i => rfl
      rw [Finset.sum_congr rfl fun i _ => hsplit i, Finset.sum_add_distrib, ih, sum_chunk,
        List.flatMap_cons, Multiset.coe_add]

/-- The lanes together see every element once. -/
theorem sum_lane [NeZero n] (xs : List α) :
    ∑ i, (lane n xs i : Multiset α) = (xs : Multiset α) := by
  have hrest : ∀ i : Fin n, (((if i = 0 then (asChunks n xs).2 else []) : List α) : Multiset α) =
      if i = 0 then ((asChunks n xs).2 : Multiset α) else 0 := fun i => apply_ite _ _ _ _
  have hsplit : ∀ i : Fin n, (lane n xs i : Multiset α) =
      ((asChunks n xs).1.map (· i) : List α) +
        if i = 0 then ((asChunks n xs).2 : Multiset α) else 0 := fun i => by
    rw [← hrest, Multiset.coe_add]
    rfl
  rw [Finset.sum_congr rfl fun i _ => hsplit i, Finset.sum_add_distrib, sum_chunks,
    Finset.sum_ite_eq' Finset.univ, if_pos (Finset.mem_univ _), Multiset.coe_add,
    flatMap_asChunks]
  exact congrArg _ (List.take_append_drop _ xs)

/-! ## Joining the lanes -/

inductive Width where
  | four
  | eight

namespace Width

def size : Width → Nat
  | four => 4
  | eight => 8

instance (w : Width) : NeZero w.size := ⟨by cases w <;> decide⟩

def tree (w : Width) (op : σ → σ → σ) (lanes : Fin w.size → σ) : σ :=
  match w, lanes with
  | four, lanes => op (op (lanes 0) (lanes 1)) (op (lanes 2) (lanes 3))
  | eight, lanes =>
      op (op (op (lanes 0) (lanes 1)) (op (lanes 2) (lanes 3)))
        (op (op (lanes 4) (lanes 5)) (op (lanes 6) (lanes 7)))

variable {w : Width}

/-- An image of the joined lanes is the joined images. -/
theorem map_tree {τ : Type*} {op : σ → σ → σ} {op' : τ → τ → τ} (φ : σ → τ)
    (h : ∀ a b, φ (op a b) = op' (φ a) (φ b)) (lanes : Fin w.size → σ) :
    φ (w.tree op lanes) = w.tree op' fun i => φ (lanes i) := by
  cases w <;> simp only [tree, h]

theorem tree_add [AddCommMonoid σ] (lanes : Fin w.size → σ) :
    w.tree (· + ·) lanes = ∑ i, lanes i := by
  cases w with
  | four =>
      refine Eq.trans ?_ (Fin.sum_univ_four lanes).symm
      simp only [tree, add_assoc]
      rfl
  | eight =>
      refine Eq.trans ?_ (Fin.sum_univ_eight lanes).symm
      simp only [tree, add_assoc]
      rfl

end Width

end Lanes
