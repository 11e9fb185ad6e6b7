import Mathlib.Data.List.Forall2

/-!
# Lists that agree place by place

Of two lists one may begin with the other, or the two may have the same length and
related elements at the same places. Either way a place of one tells about the same
place of the other.
-/

namespace Related

variable {α β γ : Type}

/-! ## A list and one it begins with -/

theorem getElem?_of_prefix {l l' : List α} (h : l <+: l') {i : Nat} {a : α}
    (ha : l[i]? = some a) : l'[i]? = some a := by
  obtain ⟨hi, rfl⟩ := List.getElem?_eq_some_iff.mp ha
  exact List.prefix_iff_getElem?.mp h i hi

theorem getD_of_prefix {l l' : List α} (h : l <+: l') {i : Nat} (hi : i < l.length) (d : α) :
    l'.getD i d = l.getD i d := by
  rw [List.getD_eq_getElem?_getD, List.getD_eq_getElem?_getD, List.getElem?_eq_getElem hi,
    getElem?_of_prefix h (List.getElem?_eq_getElem hi)]

/-! ## Two lists of related elements -/

variable {R : α → β → Prop} {l : List α} {l' : List β}

theorem getElem? (h : List.Forall₂ R l l') {i : Nat} {a : α} (hi : l[i]? = some a) :
    ∃ b, l'[i]? = some b ∧ R a b := by
  induction h generalizing i with
  | nil => cases hi
  | cons hr _ ih =>
      cases i with
      | zero =>
          obtain rfl := Option.some.inj hi
          exact ⟨_, rfl, hr⟩
      | succ i => exact ih hi

theorem exists_of_mem (h : List.Forall₂ R l l') {a : α} (ha : a ∈ l) : ∃ b ∈ l', R a b := by
  obtain ⟨i, hi⟩ := List.getElem?_of_mem ha
  obtain ⟨b, hb, hab⟩ := getElem? h hi
  exact ⟨b, List.mem_of_getElem? hb, hab⟩

theorem set (h : List.Forall₂ R l l') {a : α} {b : β} (hab : R a b) (i : Nat) :
    List.Forall₂ R (l.set i a) (l'.set i b) := by
  induction h generalizing i with
  | nil => exact .nil
  | cons hr hrest ih =>
      cases i with
      | zero => exact .cons hab hrest
      | succ i => exact .cons hr (ih i)

theorem map_eq_map (h : List.Forall₂ R l l') {f : α → γ} {g : β → γ}
    (hfg : ∀ a b, R a b → f a = g b) : l.map f = l'.map g := by
  induction h with
  | nil => rfl
  | cons hr _ ih => rw [List.map_cons, List.map_cons, hfg _ _ hr, ih]

theorem trans {S : β → γ → Prop} {T : α → γ → Prop} {l'' : List γ}
    (htrans : ∀ a b c, R a b → S b c → T a c) (h : List.Forall₂ R l l')
    (h' : List.Forall₂ S l' l'') : List.Forall₂ T l l'' := by
  induction h generalizing l'' with
  | nil =>
      cases h'
      exact .nil
  | cons hab _ ih =>
      cases h' with
      | cons hbc hrest => exact .cons (htrans _ _ _ hab hbc) (ih hrest)

end Related
