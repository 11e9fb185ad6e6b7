import Mathlib.Data.Multiset.Filter
import Mathlib.Order.Basic
import Mathlib.Tactic

/-!
# Keyed lists, and merging two sorted ones

A list of `(key, state)` pairs stands for what some container holds. `Holds`
says what that is in terms of where the states came from: under each key, the
state represents a multiset of contributions, and a key that is absent has
none. The relation "represents" is a parameter: all the library asks is that
merging two states represents both their multisets.

`mergeSorted` is the two-way merge of strictly sorted lists, with equal keys
combined. It keeps the order, and it holds what its two inputs hold together.
-/

namespace Keyed

variable {κ A X : Type}

def keys (l : List (κ × A)) : List κ := l.map Prod.fst

@[simp] theorem keys_nil : keys ([] : List (κ × A)) = [] := rfl

@[simp] theorem keys_cons (p : κ × A) (l : List (κ × A)) :
    keys (p :: l) = p.1 :: keys l := rfl

@[simp] theorem keys_append (l r : List (κ × A)) :
    keys (l ++ r) = keys l ++ keys r := List.map_append

theorem mem_keys {k : κ} {l : List (κ × A)} : k ∈ keys l ↔ ∃ a, (k, a) ∈ l := by
  simp [keys]

theorem mem_keys_of_mem {k : κ} {a : A} {l : List (κ × A)} (h : (k, a) ∈ l) :
    k ∈ keys l :=
  mem_keys.mpr ⟨a, h⟩

/-- The states a list has under one key, in no order. -/
def statesFor [DecidableEq κ] (k : κ) (l : List (κ × A)) : Multiset A :=
  ↑((l.filter fun p => p.1 = k).map Prod.snd)

section StatesFor

variable [DecidableEq κ]

@[simp] theorem statesFor_nil (k : κ) : statesFor k ([] : List (κ × A)) = 0 := rfl

theorem statesFor_cons (k : κ) (p : κ × A) (l : List (κ × A)) :
    statesFor k (p :: l) = (if p.1 = k then {p.2} else 0) + statesFor k l := by
  by_cases h : p.1 = k <;> simp [statesFor, h]

theorem statesFor_append (k : κ) (l r : List (κ × A)) :
    statesFor k (l ++ r) = statesFor k l + statesFor k r := by
  simp [statesFor]

theorem mem_statesFor {k : κ} {a : A} {l : List (κ × A)} : a ∈ statesFor k l ↔ (k, a) ∈ l := by
  simp [statesFor]

theorem statesFor_eq_zero {k : κ} {l : List (κ × A)} :
    statesFor k l = 0 ↔ k ∉ keys l := by
  induction l with
  | nil => simp
  | cons p l ih =>
      rw [statesFor_cons, keys_cons, List.mem_cons]
      by_cases h : p.1 = k
      · simp [h]
      · simp [h, Ne.symm h, ih]

theorem statesFor_of_mem {k : κ} {a : A} {l : List (κ × A)} (hnodup : (keys l).Nodup)
    (h : (k, a) ∈ l) : statesFor k l = {a} := by
  induction l with
  | nil => cases h
  | cons p l ih =>
      rw [keys_cons, List.nodup_cons] at hnodup
      rw [statesFor_cons]
      rcases List.mem_cons.mp h with rfl | h
      · rw [statesFor_eq_zero.mpr hnodup.1]
        simp
      · have hne : p.1 ≠ k := fun heq => hnodup.1 (heq ▸ mem_keys_of_mem h)
        rw [if_neg hne, zero_add, ih hnodup.2 h]

end StatesFor

/-! ## What a container holds -/

/-- `R S a` reads "the state `a` represents the contributions `S`". -/
structure Holds (R : Multiset X → A → Prop) (l : List (κ × A))
    (m : κ → Multiset X) : Prop where
  present : ∀ k a, (k, a) ∈ l → R (m k) a
  absent : ∀ k, k ∉ keys l → m k = 0

theorem Holds.nil (R : Multiset X → A → Prop) :
    Holds R ([] : List (κ × A)) 0 where
  present := by simp
  absent := fun _ _ => rfl

/-- A list whose keys are distinct holds its own states. -/
theorem Holds.self [DecidableEq κ] {R : Multiset A → A → Prop} (hsingle : ∀ a, R {a} a)
    {l : List (κ × A)} (h : (keys l).Nodup) : Holds R l (fun k => statesFor k l) where
  present := by
    intro k a hmem
    rw [statesFor_of_mem h hmem]
    exact hsingle a
  absent := fun _ h => statesFor_eq_zero.mpr h

theorem Holds.imp {R R' : Multiset X → A → Prop} (himp : ∀ S a, R S a → R' S a)
    {l : List (κ × A)} {m : κ → Multiset X} (h : Holds R l m) : Holds R' l m where
  present := fun k a hk => himp _ _ (h.present k a hk)
  absent := h.absent

theorem Holds.map {R : Multiset X → A → Prop} {l : List (κ × A)} {m : κ → Multiset X}
    (f : A → A) (hf : ∀ S a, R S a → R S (f a)) (h : Holds R l m) :
    Holds R (l.map fun p => (p.1, f p.2)) m where
  present := by
    intro k a hmem
    obtain ⟨⟨k', a'⟩, hin, heq⟩ := List.mem_map.mp hmem
    cases heq
    exact hf _ _ (h.present _ _ hin)
  absent := by
    intro k hk
    refine h.absent k fun hmem => hk ?_
    obtain ⟨a, ha⟩ := mem_keys.mp hmem
    exact mem_keys.mpr ⟨f a, List.mem_map.mpr ⟨(k, a), ha, rfl⟩⟩

/-! ## The two-way merge -/

section Merge

variable [LinearOrder κ]

/-- Keys strictly increase. -/
def Sorted (l : List (κ × A)) : Prop := l.Pairwise fun p p' => p.1 < p'.1

theorem Sorted.nodup {l : List (κ × A)} (h : Sorted l) : (keys l).Nodup :=
  List.pairwise_map.mpr (h.imp fun hlt => ne_of_lt hlt)

theorem Sorted.map {l : List (κ × A)} (f : A → A) (h : Sorted l) :
    Sorted (l.map fun p => (p.1, f p.2)) :=
  List.pairwise_map.mpr (h.imp fun hlt => hlt)

theorem Sorted.lt_of_mem {k : κ} {a : A} {l : List (κ × A)} (h : Sorted ((k, a) :: l))
    {k' : κ} (hmem : k' ∈ keys l) : k < k' := by
  obtain ⟨a', ha'⟩ := mem_keys.mp hmem
  exact List.rel_of_pairwise_cons h ha'

/-- The head of a sorted list is taken, and with it its contributions. -/
theorem Holds.tail {R : Multiset X → A → Prop} {key : κ} {a : A} {l : List (κ × A)}
    {m : κ → Multiset X} (hsorted : Sorted ((key, a) :: l)) (h : Holds R ((key, a) :: l) m) :
    Holds R l (Function.update m key 0) where
  present := fun k b hk => by
    have hne : k ≠ key := (hsorted.lt_of_mem (mem_keys_of_mem hk)).ne'
    rw [Function.update_of_ne hne]
    exact h.present k b (List.mem_cons_of_mem _ hk)
  absent := fun k hk => by
    by_cases heq : k = key
    · rw [heq, Function.update_self]
    · rw [Function.update_of_ne heq]
      exact h.absent k (by simp [heq, hk])

def mergeSorted (f : A → A → A) : List (κ × A) → List (κ × A) → List (κ × A)
  | [], r => r
  | p :: l, [] => p :: l
  | (k, a) :: l, (k', b) :: r =>
      if k < k' then (k, a) :: mergeSorted f l ((k', b) :: r)
      else if k' < k then (k', b) :: mergeSorted f ((k, a) :: l) r
      else (k, f a b) :: mergeSorted f l r
termination_by l r => l.length + r.length

variable {f : A → A → A}

@[simp] theorem mergeSorted_nil_right (l : List (κ × A)) : mergeSorted f l [] = l := by
  cases l <;> simp [mergeSorted]

theorem mem_keys_mergeSorted {k : κ} (l r : List (κ × A)) :
    k ∈ keys (mergeSorted f l r) ↔ k ∈ keys l ∨ k ∈ keys r := by
  induction l, r using mergeSorted.induct with
  | case1 r => simp [mergeSorted]
  | case2 p l => simp
  | case3 k₁ a l k₂ b r hlt ih =>
      rw [mergeSorted, if_pos hlt, keys_cons, keys_cons, List.mem_cons, ih, List.mem_cons]
      tauto
  | case4 k₁ a l k₂ b r hge hlt ih =>
      rw [mergeSorted, if_neg hge, if_pos hlt, keys_cons, List.mem_cons, ih]
      simp only [keys_cons, List.mem_cons]
      tauto
  | case5 k₁ a l k₂ b r hge hle ih =>
      have heq : k₁ = k₂ := le_antisymm (not_lt.mp hle) (not_lt.mp hge)
      rw [mergeSorted, if_neg hge, if_neg hle, keys_cons, List.mem_cons, ih]
      simp only [keys_cons, List.mem_cons, heq]
      tauto

/-- Where each merged state came from. -/
theorem mem_mergeSorted {k : κ} {c : A} {l r : List (κ × A)} (hl : Sorted l)
    (hr : Sorted r) (h : (k, c) ∈ mergeSorted f l r) :
    ((k, c) ∈ l ∧ k ∉ keys r) ∨ ((k, c) ∈ r ∧ k ∉ keys l) ∨
      ∃ a b, (k, a) ∈ l ∧ (k, b) ∈ r ∧ c = f a b := by
  induction l, r using mergeSorted.induct with
  | case1 r =>
      rw [mergeSorted] at h
      exact .inr (.inl ⟨h, by simp⟩)
  | case2 p l =>
      rw [mergeSorted_nil_right] at h
      exact .inl ⟨h, by simp⟩
  | case3 k₁ a l k₂ b r hlt ih =>
      rw [mergeSorted, if_pos hlt] at h
      rcases List.mem_cons.mp h with heq | hrest
      · cases heq
        refine .inl ⟨List.mem_cons_self, fun hmem => ?_⟩
        rcases List.mem_cons.mp hmem with rfl | hmem
        · exact lt_irrefl _ hlt
        · exact lt_asymm hlt (hr.lt_of_mem hmem)
      · have hne : k ≠ k₁ := by
          rintro rfl
          rcases (mem_keys_mergeSorted l _).mp (mem_keys_of_mem hrest) with hm | hm
          · exact lt_irrefl _ (hl.lt_of_mem hm)
          · rcases List.mem_cons.mp hm with rfl | hm
            · exact lt_irrefl _ hlt
            · exact lt_asymm hlt (hr.lt_of_mem hm)
        rcases ih hl.of_cons hr hrest with ⟨hin, hout⟩ | ⟨hin, hout⟩ | ⟨x, y, hx, hy, hc⟩
        · exact .inl ⟨List.mem_cons_of_mem _ hin, hout⟩
        · refine .inr (.inl ⟨hin, ?_⟩)
          rw [keys_cons, List.mem_cons]
          exact fun hm => hm.elim hne hout
        · exact .inr (.inr ⟨x, y, List.mem_cons_of_mem _ hx, hy, hc⟩)
  | case4 k₁ a l k₂ b r hge hlt ih =>
      rw [mergeSorted, if_neg hge, if_pos hlt] at h
      rcases List.mem_cons.mp h with heq | hrest
      · cases heq
        refine .inr (.inl ⟨List.mem_cons_self, fun hmem => ?_⟩)
        rcases List.mem_cons.mp hmem with rfl | hmem
        · exact lt_irrefl _ hlt
        · exact lt_asymm hlt (hl.lt_of_mem hmem)
      · have hne : k ≠ k₂ := by
          rintro rfl
          rcases (mem_keys_mergeSorted _ r).mp (mem_keys_of_mem hrest) with hm | hm
          · rcases List.mem_cons.mp hm with rfl | hm
            · exact lt_irrefl _ hlt
            · exact lt_asymm hlt (hl.lt_of_mem hm)
          · exact lt_irrefl _ (hr.lt_of_mem hm)
        rcases ih hl hr.of_cons hrest with ⟨hin, hout⟩ | ⟨hin, hout⟩ | ⟨x, y, hx, hy, hc⟩
        · refine .inl ⟨hin, ?_⟩
          rw [keys_cons, List.mem_cons]
          exact fun hm => hm.elim hne hout
        · exact .inr (.inl ⟨List.mem_cons_of_mem _ hin, hout⟩)
        · exact .inr (.inr ⟨x, y, hx, List.mem_cons_of_mem _ hy, hc⟩)
  | case5 k₁ a l k₂ b r hge hle ih =>
      have heq : k₁ = k₂ := le_antisymm (not_lt.mp hle) (not_lt.mp hge)
      subst heq
      rw [mergeSorted, if_neg hge, if_neg hle] at h
      rcases List.mem_cons.mp h with heq | hrest
      · cases heq
        exact .inr (.inr ⟨a, b, List.mem_cons_self, List.mem_cons_self, rfl⟩)
      · have hne : k ≠ k₁ := by
          rintro rfl
          rcases (mem_keys_mergeSorted l r).mp (mem_keys_of_mem hrest) with hm | hm
          · exact lt_irrefl _ (hl.lt_of_mem hm)
          · exact lt_irrefl _ (hr.lt_of_mem hm)
        rcases ih hl.of_cons hr.of_cons hrest with ⟨hin, hout⟩ | ⟨hin, hout⟩ | ⟨x, y, hx, hy, hc⟩
        · refine .inl ⟨List.mem_cons_of_mem _ hin, ?_⟩
          rw [keys_cons, List.mem_cons]
          exact fun hm => hm.elim hne hout
        · refine .inr (.inl ⟨List.mem_cons_of_mem _ hin, ?_⟩)
          rw [keys_cons, List.mem_cons]
          exact fun hm => hm.elim hne hout
        · exact .inr (.inr ⟨x, y, List.mem_cons_of_mem _ hx, List.mem_cons_of_mem _ hy, hc⟩)

theorem Sorted.mergeSorted {l r : List (κ × A)} (hl : Sorted l) (hr : Sorted r) :
    Sorted (mergeSorted f l r) := by
  -- One cons at a time: its key is below every key that is still to come.
  have hcons : ∀ {k : κ} {a : A} {l r : List (κ × A)}, (∀ k' ∈ keys l, k < k') →
      (∀ k' ∈ keys r, k < k') → Sorted (Keyed.mergeSorted f l r) →
      Sorted ((k, a) :: Keyed.mergeSorted f l r) := by
    intro k a l r hkl hkr hs
    refine List.pairwise_cons.mpr ⟨fun ⟨k', a'⟩ hmem => ?_, hs⟩
    rcases (mem_keys_mergeSorted l r).mp (mem_keys_of_mem hmem) with hm | hm
    · exact hkl k' hm
    · exact hkr k' hm
  induction l, r using mergeSorted.induct with
  | case1 r => rwa [Keyed.mergeSorted]
  | case2 p l => rwa [mergeSorted_nil_right]
  | case3 k₁ a l k₂ b r hlt ih =>
      rw [Keyed.mergeSorted, if_pos hlt]
      refine hcons (fun _ hm => hl.lt_of_mem hm) (fun k' hm => ?_) (ih hl.of_cons hr)
      rcases List.mem_cons.mp hm with rfl | hm
      · exact hlt
      · exact lt_trans hlt (hr.lt_of_mem hm)
  | case4 k₁ a l k₂ b r hge hlt ih =>
      rw [Keyed.mergeSorted, if_neg hge, if_pos hlt]
      refine hcons (fun k' hm => ?_) (fun _ hm => hr.lt_of_mem hm) (ih hl hr.of_cons)
      rcases List.mem_cons.mp hm with rfl | hm
      · exact hlt
      · exact lt_trans hlt (hl.lt_of_mem hm)
  | case5 k₁ a l k₂ b r hge hle ih =>
      have heq : k₁ = k₂ := le_antisymm (not_lt.mp hle) (not_lt.mp hge)
      subst heq
      rw [Keyed.mergeSorted, if_neg hge, if_neg hle]
      exact hcons (fun _ hm => hl.lt_of_mem hm) (fun _ hm => hr.lt_of_mem hm)
        (ih hl.of_cons hr.of_cons)

theorem Holds.mergeSorted {R : Multiset X → A → Prop}
    (hmerge : ∀ S T a b, R S a → R T b → R (S + T) (f a b))
    {l r : List (κ × A)} {m m' : κ → Multiset X} (hl : Sorted l) (hr : Sorted r)
    (h : Holds R l m) (h' : Holds R r m') :
    Holds R (mergeSorted f l r) (m + m') where
  present := by
    intro k c hmem
    rw [Pi.add_apply]
    rcases mem_mergeSorted hl hr hmem with ⟨hin, hout⟩ | ⟨hin, hout⟩ | ⟨a, b, ha, hb, rfl⟩
    · rw [h'.absent k hout, add_zero]
      exact h.present k c hin
    · rw [h.absent k hout, zero_add]
      exact h'.present k c hin
    · exact hmerge _ _ _ _ (h.present k a ha) (h'.present k b hb)
  absent := by
    intro k hk
    rw [mem_keys_mergeSorted, not_or] at hk
    rw [Pi.add_apply, h.absent k hk.1, h'.absent k hk.2, add_zero]

end Merge

end Keyed
