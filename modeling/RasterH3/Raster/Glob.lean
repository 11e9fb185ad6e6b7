import Mathlib.Data.List.Forall2

/-!
# Wildcard matching

`glob_match` walks through the pattern and the name with one place to go back to: the last star
it has passed, and the character of the name from which the rest of the pattern was tried.
Positions are kept as what is left of the pattern and of the name from there on.

The literal test comes before the test for a star, so a star of the pattern that stands before
a star of the name consumes it like any other character, and nothing is noted to go back to.
-/

namespace RasterH3.Raster.Glob

/-- The pattern character takes exactly this character of the name. -/
def Consumes (c x : Char) : Prop := c = '?' ∨ c = x

instance (c x : Char) : Decidable (Consumes c x) := inferInstanceAs (Decidable (_ ∨ _))

/-- The loop of `glob_match`: `p` from `pi`, `s` from `si`, and the place to go back to with the
pattern behind the star and the name from `match_idx`. What lies between that place and the
present one has been consumed character by character. -/
structure GlobState where
  p : List Char
  s : List Char
  star : Option (List Char × List Char)
  reached : ∀ back ∈ star, ∃ q m, back = (q ++ p, m ++ s) ∧ List.Forall₂ Consumes q m

namespace GlobState

theorem reached_self {p s : List Char} :
    ∀ back ∈ some (p, s), ∃ q m, back = (q ++ p, m ++ s) ∧ List.Forall₂ Consumes q m := by
  intro back hback
  obtain rfl := Option.mem_some.mp hback
  exact ⟨[], [], rfl, .nil⟩

theorem reached_consume {c x : Char} {p s : List Char} {star : Option (List Char × List Char)}
    (h : ∀ back ∈ star, ∃ q m, back = (q ++ c :: p, m ++ x :: s) ∧ List.Forall₂ Consumes q m)
    (hc : Consumes c x) :
    ∀ back ∈ star, ∃ q m, back = (q ++ p, m ++ s) ∧ List.Forall₂ Consumes q m := by
  intro back hback
  obtain ⟨q, m, rfl, hqm⟩ := h back hback
  exact ⟨q ++ [c], m ++ [x], by simp, List.rel_append hqm (.cons hc .nil)⟩

/-- Go back to the last star and give it one more character. -/
def retry : Option (List Char × List Char) → GlobState ⊕ Bool
  | some (p, m) => .inl ⟨p, m.tail, some (p, m.tail), reached_self⟩
  | none => .inr false

/-- Before the loop there is no place to go back to. -/
def start (pattern s : List Char) : GlobState := ⟨pattern, s, none, nofun⟩

def step : GlobState → GlobState ⊕ Bool
  | ⟨p, [], _, _⟩ => .inr (p.dropWhile (· = '*')).isEmpty
  | ⟨c :: p, x :: s, star, h⟩ =>
      if hc : Consumes c x then .inl ⟨p, s, star, reached_consume h hc⟩
      else if c = '*' then .inl ⟨p, x :: s, some (p, x :: s), reached_self⟩
      else retry star
  | ⟨[], _ :: _, star, _⟩ => retry star

/-- What is left behind the last star, what of the name it has not been given, and what is left
of the name. -/
def measure (g : GlobState) : Nat × Nat × Nat :=
  ((g.star.map (·.1.length)).getD (g.p.length + 1), (g.star.map (·.2.length)).getD 0, g.s.length)

def Smaller : Nat × Nat × Nat → Nat × Nat × Nat → Prop :=
  Prod.Lex (· < ·) (Prod.Lex (· < ·) (· < ·))

theorem retry_smaller {p s : List Char} {star : Option (List Char × List Char)}
    (h : ∀ back ∈ star, ∃ q m, back = (q ++ p, m ++ s) ∧ List.Forall₂ Consumes q m)
    (hs : s ≠ []) {g : GlobState} (hretry : retry star = .inl g) :
    Smaller g.measure (measure ⟨p, s, star, h⟩) := by
  cases star with
  | none => cases hretry
  | some back =>
    obtain ⟨q, m, rfl, -⟩ := h back rfl
    cases hretry
    refine Prod.Lex.right _ (Prod.Lex.left _ _ ?_)
    have hpos := List.length_pos_iff.mpr hs
    show (m ++ s).tail.length < (m ++ s).length
    rw [List.length_tail, List.length_append]
    omega

theorem step_smaller {g g' : GlobState} (hstep : g.step = .inl g') :
    Smaller g'.measure g.measure := by
  rcases g with ⟨p, s, star, h⟩
  cases s with
  | nil => cases hstep
  | cons x s =>
    cases p with
    | nil => exact retry_smaller h (List.cons_ne_nil _ _) hstep
    | cons c p =>
      simp only [step] at hstep
      by_cases hc : Consumes c x
      · rw [dif_pos hc] at hstep
        cases hstep
        cases star with
        | none => exact Prod.Lex.left _ _ (Nat.lt_succ_self _)
        | some back => exact Prod.Lex.right _ (Prod.Lex.right _ (Nat.lt_succ_self _))
      · rw [dif_neg hc] at hstep
        by_cases hstar : c = '*'
        · rw [if_pos hstar] at hstep
          cases hstep
          refine Prod.Lex.left _ _ ?_
          cases star with
          | none =>
            show p.length < p.length + 1 + 1
            omega
          | some back =>
            obtain ⟨q, m, rfl, -⟩ := h back rfl
            show p.length < (q ++ c :: p).length
            rw [List.length_append, List.length_cons]
            omega
        · rw [if_neg hstar] at hstep
          exact retry_smaller h (List.cons_ne_nil _ _) hstep

def run (g : GlobState) : Bool :=
  match _hstep : g.step with
  | .inl g' => g'.run
  | .inr answer => answer
termination_by g.measure
decreasing_by exact step_smaller _hstep

end GlobState

def globMatch (pattern s : List Char) : Bool :=
  (GlobState.start pattern s).run

end RasterH3.Raster.Glob
