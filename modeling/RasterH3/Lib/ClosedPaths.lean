import Mathlib.Algebra.BigOperators.Group.List.Basic
import Mathlib.Tactic

/-!
# Sums over closed paths

The signed area of a polygon and how often it winds around a point are sums of one term for
each edge. Such a sum does not notice a point that is repeated. If the term of an edge is
zero beyond a line, and adds up over the two parts of an edge that crosses the line, then
the sum is the same for the polygon and for what a clip at the line leaves of it: the edges
along the line that the clip adds are among those that count for nothing.
-/

namespace ClosedPath

variable {P M : Type} [AddCommMonoid M] {τ : P → P → M}

/-- The sum over the edges of the path from `p` along a list. -/
def pathSum (τ : P → P → M) (p : P) : List P → M
  | [] => 0
  | q :: l => τ p q + pathSum τ q l

/-- The sum over the edges of a closed path, beginning with the closing one. -/
def closedSum (τ : P → P → M) (l : List P) : M :=
  match l.getLast? with
  | none => 0
  | some z => pathSum τ z l

/-- Where the path from `p` along a list ends. -/
def endOf (p : P) (l : List P) : P := l.getLast?.getD p

@[simp] theorem endOf_nil (p : P) : endOf p [] = p := rfl

@[simp] theorem endOf_cons (p q : P) (l : List P) : endOf p (q :: l) = endOf q l := by
  rw [endOf, List.getLast?_cons]
  rfl

theorem endOf_append (p : P) (l m : List P) : endOf p (l ++ m) = endOf (endOf p l) m := by
  induction l generalizing p with
  | nil => rfl
  | cons q l ih => rw [List.cons_append, endOf_cons, endOf_cons, ih]

theorem pathSum_append (p : P) (l m : List P) :
    pathSum τ p (l ++ m) = pathSum τ p l + pathSum τ (endOf p l) m := by
  induction l generalizing p with
  | nil => rw [List.nil_append, pathSum, zero_add, endOf_nil]
  | cons q l ih => rw [List.cons_append, pathSum, ih, endOf_cons, pathSum, add_assoc]

theorem closedSum_cons (p : P) (l : List P) :
    closedSum τ (p :: l) = τ (endOf p l) p + pathSum τ p l := by
  have hlast : (p :: l).getLast? = some (endOf p l) := by
    rw [endOf, List.getLast?_cons]
  rw [closedSum, hlast]
  rfl

theorem closedSum_map {Q : Type} (f : Q → P) (l : List Q) :
    closedSum τ (l.map f) = closedSum (fun a b => τ (f a) (f b)) l := by
  have hpath : ∀ (q : Q) (l : List Q),
      pathSum τ (f q) (l.map f) = pathSum (fun a b => τ (f a) (f b)) q l := by
    intro q l
    induction l generalizing q with
    | nil => rfl
    | cons r l ih => rw [List.map_cons, pathSum, pathSum, ih]
  have hend : ∀ (q : Q) (l : List Q), endOf (f q) (l.map f) = f (endOf q l) := by
    intro q l
    induction l generalizing q with
    | nil => rfl
    | cons r l ih => rw [List.map_cons, endOf_cons, endOf_cons, ih]
  cases l with
  | nil => rfl
  | cons q l => rw [List.map_cons, closedSum_cons, closedSum_cons, hpath, hend]

theorem closedSum_add {σ : P → P → M} (l : List P) :
    closedSum (fun a b => τ a b + σ a b) l = closedSum τ l + closedSum σ l := by
  have hpath : ∀ (p : P) (l : List P),
      pathSum (fun a b => τ a b + σ a b) p l = pathSum τ p l + pathSum σ p l := by
    intro p l
    induction l generalizing p with
    | nil => rw [pathSum, pathSum, pathSum, add_zero]
    | cons q l ih =>
        rw [pathSum, pathSum, pathSum, ih]
        exact add_add_add_comm _ _ _ _
  cases l with
  | nil => exact (add_zero 0).symm
  | cons p l =>
      rw [closedSum_cons, closedSum_cons, closedSum_cons, hpath]
      exact add_add_add_comm _ _ _ _

/-- Two terms that agree on the edges of a path. -/
theorem closedSum_congr {σ : P → P → M} {l : List P}
    (h : ∀ a ∈ l, ∀ b ∈ l, τ a b = σ a b) : closedSum τ l = closedSum σ l := by
  have hpath : ∀ (p : P) (m : List P), p ∈ l → (∀ q ∈ m, q ∈ l) →
      pathSum τ p m = pathSum σ p m := by
    intro p m hp hm
    induction m generalizing p with
    | nil => rfl
    | cons q m ih =>
        have hq := hm q List.mem_cons_self
        rw [pathSum, pathSum, h p hp q hq, ih q hq fun r hr => hm r (List.mem_cons_of_mem q hr)]
  unfold closedSum
  cases hlast : l.getLast? with
  | none => rfl
  | some z => exact hpath z l (List.mem_of_getLast? hlast) fun q hq => hq

theorem closedSum_eq_zero {l : List P} (h : ∀ a ∈ l, ∀ b ∈ l, τ a b = 0) : closedSum τ l = 0 := by
  have hpath : ∀ (p : P) (m : List P), pathSum (fun _ _ => (0 : M)) p m = 0 := by
    intro p m
    induction m generalizing p with
    | nil => rfl
    | cons q m ih => rw [pathSum, ih, add_zero]
  rw [closedSum_congr h]
  unfold closedSum
  cases l.getLast? with
  | none => rfl
  | some z => exact hpath z l

theorem closedSum_telescope {G : Type} [AddCommGroup G] (g : P → G) (l : List P) :
    closedSum (fun a b => g b - g a) l = 0 := by
  have hpath : ∀ (p : P) (m : List P),
      pathSum (fun a b => g b - g a) p m = g (endOf p m) - g p := by
    intro p m
    induction m generalizing p with
    | nil => exact (sub_self _).symm
    | cons q m ih => rw [pathSum, ih, endOf_cons, add_comm, sub_add_sub_cancel]
  cases l with
  | nil => rfl
  | cons p l => rw [closedSum_cons, hpath, sub_add_sub_cancel, sub_self]

/-! ## Edges, rotation and reversal -/

/-- A closed path is the path back to its first point. -/
theorem closedSum_cons_back (p : P) (l : List P) :
    closedSum τ (p :: l) = pathSum τ p (l ++ [p]) := by
  rw [closedSum_cons, pathSum_append, pathSum, pathSum, add_zero, add_comm]

theorem closedSum_concat (p : P) (l : List P) :
    closedSum τ (l ++ [p]) = pathSum τ p (l ++ [p]) := by
  rw [closedSum, List.getLast?_concat]

/-- It does not matter where a closed path begins. -/
theorem closedSum_rotate (l : List P) (n : Nat) : closedSum τ (l.rotate n) = closedSum τ l := by
  induction n generalizing l with
  | zero => rw [List.rotate_zero]
  | succ n ih =>
      cases l with
      | nil => rw [List.rotate_nil]
      | cons p l => rw [List.rotate_cons_succ, ih, closedSum_concat, closedSum_cons_back]

theorem closedSum_reverse (l : List P) :
    closedSum τ l.reverse = closedSum (fun a b => τ b a) l := by
  have hpath : ∀ (p q : P) (l : List P),
      pathSum τ q (l.reverse ++ [p]) = pathSum (fun a b => τ b a) p (l ++ [q]) := by
    intro p q l
    induction l generalizing p with
    | nil => rfl
    | cons r l ih =>
        rw [List.reverse_cons, pathSum_append, ih, endOf_append, endOf_cons, endOf_nil, pathSum,
          pathSum, add_zero, List.cons_append, pathSum, add_comm]
  cases l with
  | nil => rfl
  | cons p l => rw [List.reverse_cons, closedSum_concat, hpath, closedSum_cons_back]

/-- The sum over the edges, each point with the one after it. -/
theorem closedSum_eq_edges (l : List P) :
    closedSum τ l = ((l.zip (l.rotate 1)).map fun e => τ e.1 e.2).sum := by
  have hpath : ∀ (p q : P) (l : List P),
      ((List.zip (p :: l) (l ++ [q])).map fun e => τ e.1 e.2).sum = pathSum τ p (l ++ [q]) := by
    intro p q l
    induction l generalizing p with
    | nil => rfl
    | cons r l ih =>
        rw [List.cons_append, List.zip_cons_cons, List.map_cons, List.sum_cons, ih, pathSum]
  cases l with
  | nil => rfl
  | cons p l => rw [List.rotate_cons_succ, List.rotate_zero, hpath, closedSum_cons_back]

/-- Two terms that agree on the edges. -/
theorem closedSum_congr_edges {σ : P → P → M} {l : List P}
    (h : ∀ e ∈ l.zip (l.rotate 1), τ e.1 e.2 = σ e.1 e.2) : closedSum τ l = closedSum σ l := by
  rw [closedSum_eq_edges, closedSum_eq_edges, List.map_congr_left h]

theorem closedSum_neg {G : Type} [AddCommGroup G] {τ : P → P → G} (l : List P) :
    closedSum (fun a b => -τ a b) l = -closedSum τ l := by
  rw [eq_neg_iff_add_eq_zero, ← closedSum_add]
  exact closedSum_eq_zero fun a _ b _ => neg_add_cancel (τ a b)

/-! ## Repeated points -/

section Repeats

variable (hself : ∀ p, τ p p = 0)

include hself

/-- A point that is the same as the one before it. -/
theorem pathSum_repeat {p q : P} {l : List P} (h : l.getLast? = some q) (m : List P) :
    pathSum τ p (l ++ q :: m) = pathSum τ p (l ++ m) := by
  have hend : endOf p l = q := by rw [endOf, h, Option.getD_some]
  rw [pathSum_append, pathSum_append, hend, pathSum, hself, zero_add]

/-- A closed path whose first point is repeated at its end. -/
theorem closedSum_dropLast {l : List P} (hlen : 1 < l.length) (h : l.head? = l.getLast?) :
    closedSum τ l.dropLast = closedSum τ l := by
  cases l with
  | nil => simp at hlen
  | cons p l =>
      cases hl : l with
      | nil => simp [hl] at hlen
      | cons q m =>
          have hne : l ≠ [] := by
            rw [hl]
            exact List.cons_ne_nil q m
          have hlast : l.getLast hne = p := by
            rw [List.head?_cons, List.getLast?_cons, List.getLast?_eq_some_getLast hne] at h
            exact (Option.some.inj h).symm
          have hsplit : l.dropLast ++ [p] = l := by
            rw [← hlast]
            exact List.dropLast_concat_getLast hne
          rw [← hl, List.dropLast_cons_of_ne_nil hne, closedSum_cons, closedSum_cons]
          have hend : endOf p l = p := by
            rw [endOf, List.getLast?_eq_some_getLast hne, hlast, Option.getD_some]
          rw [hend, hself, zero_add]
          conv_rhs => rw [← hsplit, pathSum_append]
          rw [pathSum, pathSum, add_zero]
          exact add_comm _ _

end Repeats

/-- An edge and back. -/
theorem closedSum_of_short {l : List P} (hself : ∀ p, τ p p = 0)
    (hback : ∀ p q, τ p q + τ q p = 0) (h : l.length < 3) : closedSum τ l = 0 := by
  rcases l with _ | ⟨p, _ | ⟨q, _ | ⟨r, l⟩⟩⟩
  · rfl
  · rw [closedSum_cons, endOf_nil, hself, pathSum, add_zero]
  · rw [closedSum_cons, endOf_cons, endOf_nil, pathSum, pathSum, add_zero, hback]
  · simp only [List.length_cons] at h
    omega

/-! ## Clipping -/

section Clip

variable (inside : P → Bool) (cross : P → P → P)

/-- What is kept of an edge, but for its beginning. -/
def keptOf (p q : P) : List P :=
  match inside p, inside q with
  | true, true => [q]
  | true, false => [cross p q]
  | false, true => [cross p q, q]
  | false, false => []

def keptFrom (p : P) : List P → List P
  | [] => []
  | q :: l => keptOf inside cross p q ++ keptFrom q l

/-- A term that counts nothing beyond the line, where `OnLine` points are on either side. -/
structure Clips (OnLine : P → Prop) (τ : P → P → M) : Prop where
  cross_onLine : ∀ p q, inside p ≠ inside q → OnLine (cross p q)
  beyond : ∀ p q, (inside p = false ∨ OnLine p) → (inside q = false ∨ OnLine q) → τ p q = 0
  cross : ∀ p q, inside p ≠ inside q → τ p q = τ p (cross p q) + τ (cross p q) q

variable {inside cross} {OnLine : P → Prop}

/-- The point where the kept path stands: at `p`, or on the line if `p` is beyond it. -/
def StandsFor (inside : P → Bool) (OnLine : P → Prop) (stand p : P) : Prop :=
  if inside p then stand = p else OnLine stand

theorem keptOf_sum (h : Clips inside cross OnLine τ) {stand p q : P}
    (hstand : StandsFor inside OnLine stand p) :
    pathSum τ stand (keptOf inside cross p q) = τ p q ∧
      StandsFor inside OnLine (endOf stand (keptOf inside cross p q)) q := by
  unfold StandsFor at hstand ⊢
  unfold keptOf
  cases hp : inside p with
  | true =>
      have hsp : stand = p := by simpa [hp] using hstand
      subst hsp
      cases hq : inside q with
      | true => simp [pathSum]
      | false =>
          have hne : inside stand ≠ inside q := by simp [hp, hq]
          have hline := h.cross_onLine stand q hne
          refine ⟨?_, by simpa using hline⟩
          rw [h.cross stand q hne, h.beyond (cross stand q) q (Or.inr hline) (Or.inl hq)]
          simp [pathSum]
  | false =>
      have hline : OnLine stand := by simpa [hp] using hstand
      cases hq : inside q with
      | true =>
          have hne : inside p ≠ inside q := by simp [hp, hq]
          have hcross := h.cross_onLine p q hne
          refine ⟨?_, by simp⟩
          rw [h.cross p q hne, h.beyond p (cross p q) (Or.inl hp) (Or.inr hcross)]
          simp only [pathSum]
          rw [h.beyond stand (cross p q) (Or.inr hline) (Or.inr hcross)]
          simp
      | false =>
          refine ⟨?_, by simpa using hline⟩
          rw [h.beyond p q (Or.inl hp) (Or.inl hq)]
          rfl

/-- The sum over the kept path, which stands for the path so far. -/
theorem keptFrom_sum (h : Clips inside cross OnLine τ) (l : List P) {stand p : P}
    (hstand : StandsFor inside OnLine stand p) :
    pathSum τ stand (keptFrom inside cross p l) = pathSum τ p l ∧
      StandsFor inside OnLine (endOf stand (keptFrom inside cross p l)) (endOf p l) := by
  induction l generalizing stand p with
  | nil => exact ⟨rfl, hstand⟩
  | cons q l ih =>
      rcases @keptOf_sum _ _ _ _ _ _ _ h stand p q hstand with ⟨hsum, hend⟩
      rcases ih hend with ⟨hrest, hend'⟩
      rw [keptFrom, pathSum_append, hsum, hrest, endOf_append, endOf_cons]
      exact ⟨rfl, hend'⟩

/-- If the path begins beyond the line then what is kept begins on it. -/
theorem keptFrom_head (h : Clips inside cross OnLine τ) {p : P} (hp : inside p = false) :
    ∀ (l : List P) (q : P), (keptFrom inside cross p l).head? = some q → OnLine q := by
  intro l
  induction l generalizing p with
  | nil =>
      intro q hq
      cases hq
  | cons r l ih =>
      intro q hq
      cases hr : inside r with
      | true =>
          have hne : inside p ≠ inside r := by simp [hp, hr]
          rw [keptFrom, keptOf, hp, hr] at hq
          cases hq
          exact h.cross_onLine p r hne
      | false =>
          rw [keptFrom, keptOf, hp, hr] at hq
          exact ih hr q hq

/-- Clipping a closed path does not change the sum. -/
theorem closedSum_kept (h : Clips inside cross OnLine τ) (hline : ∃ p, OnLine p) {l : List P} {z : P}
    (hz : l.getLast? = some z) : closedSum τ (keptFrom inside cross z l) = closedSum τ l := by
  have hend : endOf z l = z := by rw [endOf, hz, Option.getD_some]
  have hclosed : closedSum τ l = pathSum τ z l := by rw [closedSum, hz]
  rw [hclosed]
  cases hin : inside z with
  | true =>
      have hstand : StandsFor inside OnLine z z := by simp [StandsFor, hin]
      rcases keptFrom_sum h l hstand with ⟨hsum, hends⟩
      rw [← hsum]
      have hends' : endOf z (keptFrom inside cross z l) = z := by
        simpa [StandsFor, hend, hin] using hends
      cases hkept : keptFrom inside cross z l with
      | nil => rfl
      | cons q m =>
          rw [hkept, endOf_cons] at hends'
          rw [closedSum_cons, hends']
          rfl
  | false =>
      rcases hline with ⟨b, hb⟩
      have hstand : StandsFor inside OnLine b z := by simpa [StandsFor, hin] using hb
      rcases keptFrom_sum h l hstand with ⟨hsum, hends⟩
      rw [← hsum]
      have hends' : OnLine (endOf b (keptFrom inside cross z l)) := by
        simpa [StandsFor, hend, hin] using hends
      cases hkept : keptFrom inside cross z l with
      | nil => rfl
      | cons q m =>
          have hq : OnLine q := keptFrom_head h hin l q (by rw [hkept]; rfl)
          rw [hkept, endOf_cons] at hends'
          rw [closedSum_cons, pathSum, h.beyond _ q (Or.inr hends') (Or.inr hq),
            h.beyond b q (Or.inr hb) (Or.inr hq)]

end Clip

end ClosedPath
