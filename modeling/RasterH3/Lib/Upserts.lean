import RasterH3.Lib.Keyed
import Mathlib.Algebra.Group.Pi.Basic
import Mathlib.Algebra.Notation.Pi.Basic

/-!
# Putting a contribution in under its key

The entry of a map is changed if there is one and made otherwise. The keys stay distinct,
and what is held under the key grows by the contribution.

A list of pairs stands for a hash map here whose order nobody looks at. The contribution is
made by a function of the state there was, and by a fresh state if there was none, as an
entry of a map is used.
-/

namespace Keyed

variable {κ A X : Type} [DecidableEq κ]

/-- The state under a key is changed, or put in at the end. -/
def upsert (f : A → A) (fresh : A) (k : κ) : List (κ × A) → List (κ × A)
  | [] => [(k, fresh)]
  | p :: l => if p.1 = k then (p.1, f p.2) :: l else p :: upsert f fresh k l

variable {f : A → A} {fresh : A} {k : κ}

theorem keys_upsert (l : List (κ × A)) :
    keys (upsert f fresh k l) = if k ∈ keys l then keys l else keys l ++ [k] := by
  induction l with
  | nil => rfl
  | cons p l ih =>
      rw [upsert]
      by_cases h : p.1 = k
      · rw [if_pos h, if_pos (by simp [h])]
        rfl
      · rw [if_neg h, keys_cons, ih]
        simp only [keys_cons, List.mem_cons, Ne.symm h, false_or]
        split
        next => rfl
        next => rfl

theorem nodup_upsert {l : List (κ × A)} (h : (keys l).Nodup) :
    (keys (upsert f fresh k l)).Nodup := by
  rw [keys_upsert]
  split
  next => exact h
  next hk => exact List.nodup_append.mpr ⟨h, List.nodup_singleton k, by
    intro x hx y hy
    rw [List.mem_singleton.mp hy]
    exact fun heq => hk (heq ▸ hx)⟩

theorem mem_upsert {l : List (κ × A)} (h : (keys l).Nodup) {x : κ} {b : A} :
    (x, b) ∈ upsert f fresh k l ↔ x ≠ k ∧ (x, b) ∈ l ∨
      x = k ∧ ((∃ a, (k, a) ∈ l ∧ f a = b) ∨ k ∉ keys l ∧ fresh = b) := by
  induction l with
  | nil => simp [upsert, eq_comm]
  | cons p l ih =>
      obtain ⟨key, a⟩ := p
      rw [keys_cons, List.nodup_cons] at h
      rw [upsert]
      dsimp only
      by_cases heq : key = k
      · subst heq
        rw [if_pos rfl]
        have hnot : ∀ c, (key, c) ∉ l := fun c hc => h.1 (mem_keys_of_mem hc)
        by_cases hx : x = key
        · subst hx
          simp [hnot, eq_comm]
        · simp [hx]
      · rw [if_neg heq, List.mem_cons, ih h.2]
        by_cases hx : x = k
        · subst hx
          simp [Ne.symm heq]
        · simp [hx]

/-- What is held under the key grows by a contribution. -/
theorem Holds.upsert {R : Multiset X → A → Prop} {l : List (κ × A)} {m : κ → Multiset X}
    {S : Multiset X} (hnodup : (keys l).Nodup) (h : Holds R l m)
    (hf : ∀ a, R (m k) a → R (m k + S) (f a)) (hfresh : R S fresh) :
    Holds R (upsert f fresh k l) (m + Pi.single k S) where
  present := by
    intro x b hmem
    rcases (mem_upsert hnodup).mp hmem with ⟨hne, hold⟩ | ⟨rfl, ⟨a, ha, rfl⟩ | ⟨hk, rfl⟩⟩
    · rw [Pi.add_apply, Pi.single_eq_of_ne hne, add_zero]
      exact h.present x b hold
    · rw [Pi.add_apply, Pi.single_eq_same]
      exact hf a (h.present x a ha)
    · rw [Pi.add_apply, Pi.single_eq_same, h.absent x hk, zero_add]
      exact hfresh
  absent := by
    intro x hx
    rw [keys_upsert] at hx
    have hne : x ≠ k := by
      rintro rfl
      split at hx
      next hk => exact hx hk
      next => exact hx (by simp)
    have hout : x ∉ keys l := by
      split at hx
      next => exact hx
      next => exact fun hmem => hx (List.mem_append_left _ hmem)
    rw [Pi.add_apply, Pi.single_eq_of_ne hne, add_zero]
    exact h.absent x hout

end Keyed
