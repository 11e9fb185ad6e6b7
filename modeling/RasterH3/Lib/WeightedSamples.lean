import RasterH3.Lib.Numerals
import Mathlib.Algebra.BigOperators.Group.Multiset.Basic
import Mathlib.Algebra.Order.Field.Basic
import Mathlib.Tactic

/-!
# Weighted samples

The moments of a multiset of `(value, weight)` pairs, and how each of them changes when a
sample is added, when two multisets are joined and when every value goes through an affine
map. The scatter is the weighted sum of squared distances from the mean. Its update rules
all follow from one fact, that it is the second moment less what the mean accounts for.

The weights are any numbers whose sums are not zero where a mean is taken. Unit weights are
the case of whole observations (`unit`), for which the sums are counts. An accumulator that
follows a stream of samples is correct if its fields are these functions of the multiset,
and the lemmas have the shape of its updates: one more sample, another accumulator, a list
of samples in two passes.
-/

namespace WeightedSamples

variable {F : Type*} [Field F]

def weight (S : Multiset (F × F)) : F := (S.map Prod.snd).sum

def weightedSum (S : Multiset (F × F)) : F := (S.map fun p => p.1 * p.2).sum

def weightSq (S : Multiset (F × F)) : F := (S.map fun p => p.2 * p.2).sum

def mean (S : Multiset (F × F)) : F := weightedSum S / weight S

def secondMoment (S : Multiset (F × F)) : F := (S.map fun p => p.1 * p.1 * p.2).sum

def scatterAbout (c : F) (S : Multiset (F × F)) : F :=
  (S.map fun p => p.2 * ((p.1 - c) * (p.1 - c))).sum

def scatter (S : Multiset (F × F)) : F := scatterAbout (mean S) S

def affine (a b : F) (S : Multiset (F × F)) : Multiset (F × F) :=
  S.map fun p => (p.1 * a + b, p.2)

/-- Whole observations. -/
def unit (vals : List F) : Multiset (F × F) := ↑(vals.map fun v => (v, (1 : F)))

variable {S T : Multiset (F × F)} {a b c v w : F}

@[simp] theorem weight_zero : weight (0 : Multiset (F × F)) = 0 := rfl
@[simp] theorem weightedSum_zero : weightedSum (0 : Multiset (F × F)) = 0 := rfl
@[simp] theorem weightSq_zero : weightSq (0 : Multiset (F × F)) = 0 := rfl
@[simp] theorem scatter_zero : scatter (0 : Multiset (F × F)) = 0 := rfl

@[simp] theorem weight_cons : weight ((v, w) ::ₘ S) = weight S + w := by
  simp [weight, add_comm]

@[simp] theorem weightedSum_cons : weightedSum ((v, w) ::ₘ S) = weightedSum S + v * w := by
  simp [weightedSum, add_comm]

@[simp] theorem weightSq_cons : weightSq ((v, w) ::ₘ S) = weightSq S + w * w := by
  simp [weightSq, add_comm]

@[simp] theorem secondMoment_cons :
    secondMoment ((v, w) ::ₘ S) = secondMoment S + v * v * w := by
  simp [secondMoment, add_comm]

theorem scatterAbout_cons :
    scatterAbout c ((v, w) ::ₘ S) = scatterAbout c S + w * ((v - c) * (v - c)) := by
  simp [scatterAbout, add_comm]

theorem unit_cons (v : F) (vals : List F) : unit (v :: vals) = (v, 1) ::ₘ unit vals := rfl

@[simp] theorem weight_add : weight (S + T) = weight S + weight T := by simp [weight]

@[simp] theorem weightedSum_add : weightedSum (S + T) = weightedSum S + weightedSum T := by
  simp [weightedSum]

@[simp] theorem weightSq_add : weightSq (S + T) = weightSq S + weightSq T := by simp [weightSq]

@[simp] theorem secondMoment_add :
    secondMoment (S + T) = secondMoment S + secondMoment T := by simp [secondMoment]

@[simp] theorem weight_affine : weight (affine a b S) = weight S := by
  simp [weight, affine, Multiset.map_map]

@[simp] theorem weightSq_affine : weightSq (affine a b S) = weightSq S := by
  simp [weightSq, affine, Multiset.map_map]

theorem weightedSum_affine :
    weightedSum (affine a b S) = weightedSum S * a + b * weight S := by
  induction S using Multiset.induction with
  | empty => simp [affine]
  | cons p S ih =>
    obtain ⟨v, w⟩ := p
    rw [affine, Multiset.map_cons, ← affine, weightedSum_cons, ih, weightedSum_cons, weight_cons]
    ring

theorem secondMoment_affine : secondMoment (affine a b S) =
    secondMoment S * (a * a) + 2 * a * b * weightedSum S + b * b * weight S := by
  induction S using Multiset.induction with
  | empty => simp [affine, secondMoment]
  | cons p S ih =>
    obtain ⟨v, w⟩ := p
    rw [affine, Multiset.map_cons, ← affine, secondMoment_cons, ih, secondMoment_cons,
      weightedSum_cons, weight_cons]
    ring

theorem scatterAbout_eq (c : F) (S : Multiset (F × F)) :
    scatterAbout c S = secondMoment S - 2 * c * weightedSum S + c * c * weight S := by
  induction S using Multiset.induction with
  | empty => simp [scatterAbout, secondMoment]
  | cons p S ih =>
    obtain ⟨v, w⟩ := p
    rw [scatterAbout_cons, ih, secondMoment_cons, weightedSum_cons, weight_cons]
    ring

/-! ## Folds over whole observations -/

theorem foldl_add (vals : List F) (x : F) :
    vals.foldl (· + ·) x = x + weightedSum (unit vals) := by
  induction vals generalizing x with
  | nil => exact (add_zero x).symm
  | cons v vals ih =>
    rw [List.foldl_cons, ih, unit_cons, weightedSum_cons]
    ring

theorem foldl_count (vals : List F) (x : F) :
    vals.foldl (fun n _ => n + 1) x = x + weight (unit vals) := by
  induction vals generalizing x with
  | nil => exact (add_zero x).symm
  | cons v vals ih =>
    rw [List.foldl_cons, ih, unit_cons, weight_cons]
    ring

theorem weightSq_unit (vals : List F) : weightSq (unit vals) = weight (unit vals) := by
  induction vals with
  | nil => rfl
  | cons v vals ih => rw [unit_cons, weightSq_cons, weight_cons, ih, mul_one]

theorem foldl_scatter (c : F) (vals : List F) (x : F) :
    vals.foldl (fun m2 v => m2 + (v - c) * (v - c)) x = x + scatterAbout c (unit vals) := by
  induction vals generalizing x with
  | nil => exact (add_zero x).symm
  | cons v vals ih =>
    rw [List.foldl_cons, ih, unit_cons, scatterAbout_cons]
    ring

/-! ## The scatter -/

theorem scatter_eq (h : weight S ≠ 0) :
    scatter S = secondMoment S - weightedSum S * weightedSum S / weight S := by
  rw [scatter, scatterAbout_eq, mean]
  field_simp
  ring

theorem scatter_singleton (h : w ≠ 0) : scatter {(v, w)} = 0 := by
  simp [scatter, scatterAbout, mean, weightedSum, weight, h]

/-- One more sample: its weight times its distances from the old and from the new mean. -/
theorem scatter_cons (hS : weight S ≠ 0) (h : weight S + w ≠ 0) :
    scatter ((v, w) ::ₘ S) =
      scatter S + w * (v - weightedSum S / weight S) *
        (v - (weightedSum S + v * w) / (weight S + w)) := by
  rw [scatter_eq (by simpa using h), scatter_eq hS, secondMoment_cons, weightedSum_cons,
    weight_cons]
  field_simp
  ring

/-- Two multisets joined: the distance of their means comes in. -/
theorem scatter_add (hS : weight S ≠ 0) (hT : weight T ≠ 0) (h : weight S + weight T ≠ 0) :
    let delta := weightedSum T / weight T - weightedSum S / weight S
    scatter (S + T) = scatter S + (scatter T +
      delta * delta * (weight S * weight T / (weight S + weight T))) := by
  intro delta
  rw [scatter_eq (by simpa using h), scatter_eq hS, scatter_eq hT, secondMoment_add,
    weightedSum_add, weight_add]
  simp only [delta]
  field_simp
  ring

theorem scatter_affine (h : weight S ≠ 0) : scatter (affine a b S) = scatter S * (a * a) := by
  rw [scatter_eq (by simpa using h), scatter_eq h, secondMoment_affine, weightedSum_affine,
    weight_affine]
  field_simp
  ring

end WeightedSamples
