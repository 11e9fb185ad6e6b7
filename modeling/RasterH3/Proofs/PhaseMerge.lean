import RasterH3.Sedona.Merge

/-!
# Following states through the phases

What an accumulator holds is followed as the list of the states it was given, through every
phase. A state that goes from one phase to the next is encoded, and the decoder refuses what
is too large; the encoder does not. As long as no state that comes up is too large, the
accumulator ends as if it had been given the states of the leaves one by one (`run_is`), and
what is left to say of phases is what the order of the states does.

Where a state is too large to begin with, nothing can be merged at all
(`mergeStates_refused`). And where all of them can be read but their merge is too large, a
phase can take them all and the next cannot read its result (`run_relay`).

What an accumulator is said to hold is a parameter (`Follows`), with the requirement that
merging keeps it, and so does a trip through bytes if the state fits (`Tracks`). The module
on bins and the one on classes instantiate it: moments and bins for the one, a history of
classes for the other. A plan of phases is a tree of merges with states at the leaves, and
`run_is` is the induction over it.
-/

namespace RasterH3.Sedona

open Agg Agg.AccumulatorMerge

/-! ## Following the states -/

section Tracking

variable {A : Type} [PartialState A]

/-- The state that a value decodes to. -/
def contribution (A : Type) [PartialState A] : Option (List UInt8) → List A
  | none => []
  | some bytes =>
      match (decodePartialState stateLimit bytes : Except PartialError A) with
      | .ok a => [a]
      | .error _ => []

def contributions (A : Type) [PartialState A] (values : List (Option (List UInt8))) : List A :=
  values.flatMap (contribution A)

/-- `R S a` reads "`a` is the merge of the states in `S`, in this order". -/
structure Follows (R : List A → A → Prop) (Fits : A → Prop) : Prop where
  single : ∀ a, Fits a → R [a] a
  merge : ∀ {S T a b}, R S a → R T b → R (S ++ T) (merge a b)

/-- A trip through bytes keeps it as well if the states fit. -/
structure Tracks (R : List A → A → Prop) (Fits : A → Prop) : Prop extends Follows R Fits where
  reread : ∀ {S a}, (∀ c ∈ S, Fits c) → R S a →
    ∃ b, decodePartialState stateLimit (encodePartialState a) = .ok b ∧ R S b

def StateIs (R : List A → A → Prop) (S : List A) : Option A → Prop
  | none => S = []
  | some a => S ≠ [] ∧ R S a

def ValueIs (R : List A → A → Prop) (S : List A) : Option (List UInt8) → Prop
  | none => S = []
  | some bytes => S ≠ [] ∧ ∃ a, decodePartialState stateLimit bytes = .ok a ∧ R S a

/-- A null or a state that fits. -/
def Good (Fits : A → Prop) (value : Option (List UInt8)) : Prop :=
  ∀ bytes, value = some bytes → ∃ a, decodePartialState stateLimit bytes = .ok a ∧ Fits a

variable {R : List A → A → Prop} {Fits : A → Prop}

theorem mergeStates_is (hR : Follows R Fits) {S : List A} {state : Option A}
    (hstate : StateIs R S state) {Ts : List (List A)} {values : List (Option (List UInt8))}
    (hvalues : List.Forall₂ (ValueIs R) Ts values) :
    ∃ state', mergeStates state values = .ok state' ∧ StateIs R (S ++ Ts.flatten) state' := by
  induction hvalues generalizing S state with
  | nil => exact ⟨state, rfl, by rwa [List.flatten_nil, List.append_nil]⟩
  | @cons T value Ts values hvalue _ ih =>
    rw [List.flatten_cons, ← List.append_assoc]
    cases value with
    | none =>
      obtain rfl : T = [] := hvalue
      rw [List.append_nil]
      exact ih hstate
    | some bytes =>
      obtain ⟨hT, b, hdecode, hb⟩ := hvalue
      have hne : S ++ T ≠ [] := List.append_ne_nil_of_right_ne_nil S hT
      cases state with
      | none =>
        obtain rfl : S = [] := hstate
        rw [List.nil_append] at hne ⊢
        simp only [mergeStates, hdecode]
        exact ih ⟨hne, hb⟩
      | some a =>
        simp only [mergeStates, hdecode]
        exact ih ⟨hne, hR.merge hstate.2 hb⟩

theorem valueIs_contribution (hR : Follows R Fits) {value : Option (List UInt8)}
    (h : Good Fits value) : ValueIs R (contribution A value) value := by
  cases value with
  | none => rfl
  | some bytes =>
    obtain ⟨a, hdecode, hfits⟩ := h bytes rfl
    simp only [contribution, hdecode]
    exact ⟨List.cons_ne_nil a [], a, hdecode, hR.single a hfits⟩

theorem forall₂_contribution (hR : Follows R Fits) {values : List (Option (List UInt8))}
    (h : ∀ value ∈ values, Good Fits value) :
    List.Forall₂ (ValueIs R) (values.map (contribution A)) values := by
  rw [List.forall₂_map_left_iff, List.forall₂_same]
  exact fun value hvalue => valueIs_contribution hR (h value hvalue)

theorem mergeAll_is (hR : Follows R Fits) {values : List (Option (List UInt8))}
    (h : ∀ value ∈ values, Good Fits value) :
    ∃ state, mergeStates none values = .ok state ∧ StateIs R (contributions A values) state := by
  have hempty : StateIs R [] none := rfl
  exact mergeStates_is hR hempty (forall₂_contribution hR h)

theorem fits_contributions {values : List (Option (List UInt8))}
    (h : ∀ value ∈ values, Good Fits value) : ∀ c ∈ contributions A values, Fits c := by
  intro c hc
  obtain ⟨value, hvalue, hc⟩ := List.mem_flatMap.mp hc
  cases value with
  | none => cases hc
  | some bytes =>
    obtain ⟨a, hdecode, hfits⟩ := h _ hvalue bytes rfl
    simp only [contribution, hdecode, List.mem_singleton] at hc
    exact hc ▸ hfits

theorem contributions_append (l m : List (Option (List UInt8))) :
    contributions A (l ++ m) = contributions A l ++ contributions A m := List.flatMap_append

theorem contributions_perm {l m : List (Option (List UInt8))} (h : l.Perm m) :
    (contributions A l).Perm (contributions A m) := h.flatMap_right _

/-- What an accumulator hands on can be read, and stands for the same states. -/
theorem valueIs_stateOf (hR : Tracks R Fits) {S : List A} {state : Option A}
    (hfits : ∀ c ∈ S, Fits c) (h : StateIs R S state) : ValueIs R S (stateOf state) := by
  cases state with
  | none => exact h
  | some a =>
    obtain ⟨b, hdecode, hb⟩ := hR.reread hfits h.2
    exact ⟨h.1, b, hdecode, hb⟩

/-- Whatever the phases, the accumulator ends with all the states, as they stand in the leaves. -/
theorem run_is (hR : Tracks R Fits) (p : Phases) (h : ∀ value ∈ p.leaves, Good Fits value) :
    ∃ state, p.run A = .ok state ∧ StateIs R (contributions A p.leaves) state := by
  induction p with
  | empty => exact ⟨none, rfl, rfl⟩
  | update before values ih =>
    obtain ⟨state, hrun, hstate⟩ := ih fun v hv => h v (List.mem_append_left _ hv)
    obtain ⟨state', hmerge, hstate'⟩ := mergeStates_is hR.toFollows hstate
      (forall₂_contribution hR.toFollows fun v hv => h v (List.mem_append_right _ hv))
    refine ⟨state', ?_, ?_⟩
    · rw [Phases.run, hrun]
      exact hmerge
    · rw [Phases.leaves, contributions_append]
      exact hstate'
  | merge before child ih ihChild =>
    have hchildLeaves : ∀ v ∈ child.leaves, Good Fits v :=
      fun v hv => h v (List.mem_append_right _ hv)
    obtain ⟨state, hrun, hstate⟩ := ih fun v hv => h v (List.mem_append_left _ hv)
    obtain ⟨other, hrunChild, hother⟩ := ihChild hchildLeaves
    have hvalue := valueIs_stateOf hR (fits_contributions hchildLeaves) hother
    obtain ⟨state', hmerge, hstate'⟩ :=
      mergeStates_is hR.toFollows hstate (.cons hvalue .nil)
    refine ⟨state', ?_, ?_⟩
    · rw [Phases.run, hrun, hrunChild]
      exact hmerge
    · rw [Phases.leaves, contributions_append]
      rwa [List.flatten_singleton] at hstate'

/-- The values of a query: states as they are encoded, and nulls. -/
def encodeAll (states : List (Option A)) : List (Option (List UInt8)) := states.map stateOf

/-- A phase that takes all the values hands its state to another one. -/
theorem run_relay {values : List (Option (List UInt8))} {acc : A}
    (hmerge : mergeStates none values = .ok (some acc))
    (hrefused : ∀ a : A, decodePartialState stateLimit (encodePartialState acc) ≠ .ok a)
    (state : Option A) : (Phases.merge .empty (.update .empty values)).run A ≠ .ok state := by
  intro hrun
  have hchild : Phases.run A (.update .empty values) = .ok (some acc) := hmerge
  rw [Phases.run, hchild, Phases.run] at hrun
  simp only [mergeBatch, updateBatch, stateOf, Option.map_some, mergeStates] at hrun
  split at hrun
  next => cases hrun
  next a hdecode => exact hrefused a hdecode

/-- A state that the decoder refuses cannot be merged at all. -/
theorem mergeStates_refused {states : List (Option A)} {state : Option A} {a : A}
    (ha : some a ∈ states)
    (h : ∀ b : A, decodePartialState stateLimit (encodePartialState a) ≠ .ok b)
    (state' : Option A) : mergeStates state (encodeAll states) ≠ .ok state' := by
  induction states generalizing state with
  | nil => cases ha
  | cons value states ih =>
    rw [encodeAll, List.map_cons]
    cases value with
    | none => exact ih ((List.mem_cons.mp ha).resolve_left nofun)
    | some b =>
      simp only [stateOf, Option.map_some, mergeStates]
      split
      next => nofun
      next c hdecode =>
        rcases List.mem_cons.mp ha with heq | hmem
        · obtain rfl := Option.some.inj heq
          exact absurd hdecode (h c)
        · cases state with
          | none => exact ih hmem
          | some acc => exact ih hmem

end Tracking

end RasterH3.Sedona
