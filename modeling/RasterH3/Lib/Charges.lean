import Mathlib.Algebra.BigOperators.Group.Multiset.Basic
import Mathlib.Data.List.Perm.Basic
import Mathlib.Tactic

/-!
# Charges against a limit

A budget admits charges while they fit under its limit, and one larger than the limit when
nothing else is charged. A charge may change after it was admitted, and grow without being
asked, so that what is charged is not bounded by the limit. What was admitted is: of each
charge we keep the bytes it was granted, count as admitted the part of it that the grant
covers, and call the rest its excess. The excess is part of the charge and leaves the
budget with it, so that `Within` speaks about the charges there are and not about the
history that led to them.

The lemmas say how each change of one charge keeps `Within`: a charge may change within its
grant, be given back or be moved to another place, and a new one is admitted when all there
is fits, or when nothing else is there. `Account` adds that a counter is the sum of the
charges; its lemmas are the same, with what the counter does.
-/

namespace Charges

/-- The bytes charged now, and the bytes they were granted as. -/
structure Charge where
  bytes : Nat
  granted : Nat
  deriving DecidableEq

namespace Charge

instance : Zero Charge := ⟨⟨0, 0⟩⟩

@[simp] theorem zero_bytes : (0 : Charge).bytes = 0 := rfl

def admitted (c : Charge) : Nat := min c.bytes c.granted

def excess (c : Charge) : Nat := c.bytes - c.granted

@[simp] theorem zero_admitted : (0 : Charge).admitted = 0 := rfl

theorem admitted_add_excess (c : Charge) : c.admitted + c.excess = c.bytes := by
  rw [admitted, excess]
  omega

theorem admitted_le (c : Charge) : c.admitted ≤ c.bytes := Nat.min_le_left ..

end Charge

/-! ## Sums over the charges -/

def bytes (m : Multiset Charge) : Nat := (m.map Charge.bytes).sum

def admitted (m : Multiset Charge) : Nat := (m.map Charge.admitted).sum

def excess (m : Multiset Charge) : Nat := (m.map Charge.excess).sum

variable {limit used : Nat} {a b : Charge} {m m' : Multiset Charge}

@[simp] theorem bytes_zero : bytes 0 = 0 := rfl

@[simp] theorem bytes_cons : bytes (a ::ₘ m) = a.bytes + bytes m := by simp [bytes]

@[simp] theorem bytes_add : bytes (m + m') = bytes m + bytes m' := by simp [bytes]

@[simp] theorem bytes_coe (l : List Charge) : bytes ↑l = (l.map Charge.bytes).sum := rfl

@[simp] theorem admitted_cons : admitted (a ::ₘ m) = a.admitted + admitted m := by simp [admitted]

@[simp] theorem admitted_add : admitted (m + m') = admitted m + admitted m' := by simp [admitted]

theorem admitted_add_excess (m : Multiset Charge) : admitted m + excess m = bytes m := by
  rw [admitted, excess, bytes, ← Multiset.sum_map_add]
  exact congrArg Multiset.sum (Multiset.map_congr rfl fun c _ => c.admitted_add_excess)

theorem admitted_le_of_mem (h : a ∈ m) : a.admitted ≤ admitted m :=
  Multiset.single_le_sum (fun _ _ => Nat.zero_le _) _ (Multiset.mem_map_of_mem _ h)

theorem bytes_le_of_mem (h : a ∈ m) : a.bytes ≤ bytes m :=
  Multiset.single_le_sum (fun _ _ => Nat.zero_le _) _ (Multiset.mem_map_of_mem _ h)

/-! ## What is admitted is within the limit, or is one charge alone -/

def Within (limit : Nat) (m : Multiset Charge) : Prop :=
  admitted m ≤ limit ∨ ∃ c ∈ m, admitted m = c.admitted

theorem Within.replace (h : Within limit (a ::ₘ m)) (hle : b.admitted ≤ a.admitted) :
    Within limit (b ::ₘ m) := by
  simp only [Within, admitted_cons] at h ⊢
  rcases h with hsum | ⟨c, hc, hsum⟩
  · exact .inl (by omega)
  · rcases Multiset.mem_cons.mp hc with rfl | hc
    · exact .inr ⟨b, Multiset.mem_cons_self b m, by omega⟩
    · have := admitted_le_of_mem hc
      exact .inr ⟨c, Multiset.mem_cons_of_mem hc, by omega⟩

theorem Within.remove (h : Within limit (a ::ₘ m)) : Within limit m := by
  simp only [Within, admitted_cons] at h ⊢
  rcases h with hsum | ⟨c, hc, hsum⟩
  · exact .inl (by omega)
  · rcases Multiset.mem_cons.mp hc with rfl | hc
    · exact .inl (by omega)
    · have := admitted_le_of_mem hc
      exact .inr ⟨c, hc, by omega⟩

theorem Within.remove_add (h : Within limit (m + m')) : Within limit m := by
  induction m' using Multiset.induction with
  | empty => rwa [Multiset.add_zero] at h
  | cons c m' ih =>
      rw [Multiset.add_cons] at h
      exact ih h.remove

theorem within_admit (h : b.bytes + bytes m ≤ limit ∨ bytes m = 0) : Within limit (b ::ₘ m) := by
  have hsplit := admitted_add_excess m
  have hle := b.admitted_le
  simp only [Within, admitted_cons]
  rcases h with hfits | halone
  · exact .inl (by omega)
  · exact .inr ⟨b, Multiset.mem_cons_self b m, by omega⟩

/-- The same charges in other places: only charges of nothing come and go. -/
def Regroup (m m' : Multiset Charge) : Prop := m.filter (· ≠ 0) = m'.filter (· ≠ 0)

theorem Regroup.refl (m : Multiset Charge) : Regroup m m := rfl

theorem Regroup.trans {m₁ m₂ m₃ : Multiset Charge} (h : Regroup m₁ m₂) (h' : Regroup m₂ m₃) :
    Regroup m₁ m₃ := Eq.trans h h'

theorem Regroup.add_left (h : Regroup m m') (r : Multiset Charge) : Regroup (r + m) (r + m') := by
  rw [Regroup, Multiset.filter_add, Multiset.filter_add, h]

theorem Regroup.cons (h : Regroup m m') (a : Charge) : Regroup (a ::ₘ m) (a ::ₘ m') := by
  rw [← Multiset.singleton_add, ← Multiset.singleton_add]
  exact h.add_left {a}

theorem regroup_zero_cons (m : Multiset Charge) : Regroup m (0 ::ₘ m) :=
  (Multiset.filter_cons_of_neg m (by simp)).symm

theorem regroup_cons_zero (m : Multiset Charge) : Regroup (0 ::ₘ m) m := (regroup_zero_cons m).symm

/-- A sum of what charges of nothing do not have is kept. -/
theorem Regroup.sum_map {f : Charge → Nat} (hf : f 0 = 0) (h : Regroup m m') :
    (m'.map f).sum = (m.map f).sum := by
  have hfilter : ∀ m : Multiset Charge, ((m.filter (· ≠ 0)).map f).sum = (m.map f).sum := by
    intro m
    induction m using Multiset.induction with
    | empty => rfl
    | cons c m ih =>
        by_cases hc : c = 0
        · rw [Multiset.filter_cons_of_neg m (by simpa using hc), ih, Multiset.map_cons,
            Multiset.sum_cons, hc, hf, Nat.zero_add]
        · rw [Multiset.filter_cons_of_pos m hc, Multiset.map_cons, Multiset.map_cons,
            Multiset.sum_cons, Multiset.sum_cons, ih]
  rw [← hfilter m, ← hfilter m', h]

theorem Regroup.mem (h : Regroup m m') (ha : a ∈ m) : a = 0 ∨ a ∈ m' := by
  by_cases hzero : a = 0
  · exact .inl hzero
  · have hmem : a ∈ m'.filter (· ≠ 0) := h ▸ Multiset.mem_filter.mpr ⟨ha, hzero⟩
    exact .inr (Multiset.mem_filter.mp hmem).1

theorem Within.regroup (h : Within limit m) (hm : Regroup m m') : Within limit m' := by
  have hsum : admitted m' = admitted m := hm.sum_map Charge.zero_admitted
  rcases h with hle | ⟨c, hc, heq⟩
  · exact .inl (hsum.trans_le hle)
  · rcases hm.mem hc with rfl | hc'
    · refine .inl ?_
      rw [hsum, heq, Charge.zero_admitted]
      exact Nat.zero_le limit
    · exact .inr ⟨c, hc', hsum.trans heq⟩

/-! ## The counter -/

/-- The counter is the sum of the charges, and they are within the limit. -/
structure Account (limit used : Nat) (m : Multiset Charge) : Prop where
  used : used = bytes m
  within : Within limit m

namespace Account

theorem settle (h : Account limit used (a ::ₘ m)) (hle : b.admitted ≤ a.admitted) :
    Account limit (used - a.bytes + b.bytes) (b ::ₘ m) where
  used := by
    have := h.used
    rw [bytes_cons] at this ⊢
    omega
  within := h.within.replace hle

theorem remove (h : Account limit used (a ::ₘ m)) : Account limit (used - a.bytes) m where
  used := by
    have := h.used
    rw [bytes_cons] at this
    omega
  within := h.within.remove

theorem remove_add (h : Account limit used (m + m')) : Account limit (used - bytes m') m where
  used := by
    have := h.used
    rw [bytes_add] at this
    omega
  within := h.within.remove_add

theorem regroup (h : Account limit used m) (hm : Regroup m m') : Account limit used m' :=
  ⟨h.used.trans (hm.sum_map Charge.zero_bytes).symm, h.within.regroup hm⟩

/-- Beyond the limit there is one charge alone, but for what charges exceed their grants
by. -/
theorem alone (h : Account limit used m) (hover : limit + excess m < used) :
    ∃ c ∈ m, used = c.admitted + excess m := by
  have hused := h.used
  have hsplit := admitted_add_excess m
  obtain ⟨c, hc, heq⟩ := h.within.resolve_left (by omega)
  exact ⟨c, hc, by omega⟩

end Account

/-! ## Charges kept in lists -/

/-- Replacing an entry exchanges it for the new one. -/
theorem perm_set {α : Type} {l : List α} {i : Nat} {old : α} (h : l[i]? = some old) (new : α) :
    (old :: l.set i new).Perm (new :: l) := by
  obtain ⟨hi, rfl⟩ := List.getElem?_eq_some_iff.mp h
  have hset := (List.set_perm_cons_eraseIdx hi new).cons l[i]
  have hget := (List.getElem_cons_eraseIdx_perm hi).cons new
  exact hset.trans ((List.Perm.swap _ _ _).trans hget)

theorem sum_map_set {α : Type} {l : List α} {i : Nat} {old : α} (h : l[i]? = some old) (new : α)
    (f : α → Nat) : ((l.set i new).map f).sum + f old = (l.map f).sum + f new := by
  have := ((perm_set h new).map f).sum_eq
  simp only [List.map_cons, List.sum_cons] at this
  omega

end Charges
