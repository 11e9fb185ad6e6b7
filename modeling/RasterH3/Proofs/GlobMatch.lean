import RasterH3.Raster.Glob

/-!
# What the matcher matches

The matcher is the loop with one place to go back to. At a star it notes where it is in
pattern and name; where a character does not fit it goes back to the last star and lets that
one have one character more; the stars before are never looked at again.

Going back to the last star is enough, because anything an earlier star could still do, the
last one can do as well: the pattern between the two has been consumed character by
character, so a later start of it reaches the last star no earlier in the name (`catchUp`).
The same argument says that a name which runs out has nothing to go back for.

As an invariant this is a statement about what a state still decides (`Accepts`): the
present attempt, or a later one behind the last star. Each step of the loop keeps what is
decided, or answers it (`decides_step`), and so the answer of a run is what its first state
decides (`run_iff`, by the recursion of the run).

What the loop decides is not quite the wildcard relation. A star of the pattern that stands
before a star of the name is taken for that character, and `LiteralFirst` says so; the two
relations differ on names that hold a star. When they differ is the matter of another
module, since that takes an argument about the order in which the loop goes through its
attempts.
-/

namespace RasterH3.Raster.Glob

/-- The name is the pattern with a string for each `*` and a character for each `?`. -/
inductive Matches : List Char → List Char → Prop
  | nil : Matches [] []
  | star {p s : List Char} (t : List Char) : Matches p s → Matches ('*' :: p) (t ++ s)
  | one {p s : List Char} (x : Char) : Matches p s → Matches ('?' :: p) (x :: s)
  | literal {c : Char} {p s : List Char} : c ≠ '*' → c ≠ '?' → Matches p s →
      Matches (c :: p) (c :: s)

/-- The same, but a `*` of the pattern that stands before a `*` of the name is that character. -/
inductive LiteralFirst : List Char → List Char → Prop
  | nil : LiteralFirst [] []
  | here {p s : List Char} : LiteralFirst p s → LiteralFirst ('*' :: p) ('*' :: s)
  | star {p s : List Char} (t : List Char) : (t ++ s).head? ≠ some '*' → LiteralFirst p s →
      LiteralFirst ('*' :: p) (t ++ s)
  | one {p s : List Char} (x : Char) : LiteralFirst p s → LiteralFirst ('?' :: p) (x :: s)
  | literal {c : Char} {p s : List Char} : c ≠ '*' → c ≠ '?' → LiteralFirst p s →
      LiteralFirst (c :: p) (c :: s)

theorem LiteralFirst.matches {p s : List Char} (h : LiteralFirst p s) : Matches p s := by
  induction h with
  | nil => exact .nil
  | here _ ih => exact .star ['*'] ih
  | star t _ _ ih => exact .star t ih
  | one x _ ih => exact .one x ih
  | literal hstar hone _ ih => exact .literal hstar hone ih

/-! ## One character of the pattern -/

theorem literalFirst_nil_left {s : List Char} : LiteralFirst [] s ↔ s = [] := by
  constructor
  · intro h
    cases h
    rfl
  · intro hs
    rw [hs]
    exact .nil

/-- Consuming loses nothing. -/
theorem literalFirst_consume {c x : Char} {p s : List Char} (hc : Consumes c x) :
    LiteralFirst (c :: p) (x :: s) ↔ LiteralFirst p s := by
  constructor
  · intro h
    generalize hname : x :: s = name at h
    cases h with
    | here h =>
      cases hname
      exact h
    | star t hhead h =>
      rcases hc with hone | hsame
      · cases hone
      · rw [← hname, ← hsame] at hhead
        exact absurd rfl hhead
    | one y h =>
      cases hname
      exact h
    | literal _ _ h =>
      cases hname
      exact h
  · intro h
    rcases hc with rfl | rfl
    · exact .one x h
    · by_cases hstar : c = '*'
      · rw [hstar]
        exact .here h
      · by_cases hone : c = '?'
        · rw [hone]
          exact .one '?' h
        · exact .literal hstar hone h

theorem literalFirst_behind_star {p s : List Char} (h : LiteralFirst ('*' :: p) s) :
    ∃ u, u <:+ s ∧ LiteralFirst p u := by
  generalize hpattern : '*' :: p = pattern at h
  cases h with
  | nil => cases hpattern
  | here h =>
    cases hpattern
    exact ⟨_, List.suffix_cons _ _, h⟩
  | star t _ h =>
    cases hpattern
    exact ⟨_, List.suffix_append _ _, h⟩
  | one x h => cases hpattern
  | literal hstar _ h =>
    cases hpattern
    exact absurd rfl hstar

/-- A star that is free to choose. -/
theorem literalFirst_star {p s : List Char} (hhead : s.head? ≠ some '*') :
    LiteralFirst ('*' :: p) s ↔ ∃ u, u <:+ s ∧ LiteralFirst p u := by
  constructor
  · exact literalFirst_behind_star
  · intro ⟨u, ⟨t, ht⟩, h⟩
    subst ht
    exact .star t hhead h

theorem literalFirst_clash {c x : Char} {p s : List Char} (hc : ¬Consumes c x) (hstar : c ≠ '*') :
    ¬LiteralFirst (c :: p) (x :: s) := by
  intro h
  generalize hname : x :: s = name at h
  cases h with
  | star => exact hstar rfl
  | here => exact hstar rfl
  | one => exact hc (Or.inl rfl)
  | literal =>
    cases hname
    exact hc (Or.inr rfl)

/-- Nothing is left for the name. -/
theorem literalFirst_nil_right {p : List Char} :
    LiteralFirst p [] ↔ p.dropWhile (· = '*') = [] := by
  induction p with
  | nil => simp [literalFirst_nil_left]
  | cons c p ih =>
    by_cases hstar : c = '*'
    · subst hstar
      rw [literalFirst_star (by simp), List.dropWhile_cons_of_pos (by simp), ← ih]
      constructor
      · intro ⟨u, hu, h⟩
        rwa [List.suffix_nil.mp hu] at h
      · exact fun h => ⟨[], List.suffix_refl _, h⟩
    · rw [List.dropWhile_cons_of_neg (by simpa using hstar)]
      constructor
      · intro h
        generalize hname : [] = name at h
        cases h with
        | star => exact absurd rfl hstar
        | here => cases hname
        | one => cases hname
        | literal => cases hname
      · exact fun h => absurd h (List.cons_ne_nil _ _)

/-! ## The last star is enough -/

/-- A pattern that has consumed `m` and is started anywhere from there on, reaches what follows
it in the pattern no earlier in the name. -/
theorem catchUp {q m p s u : List Char} (hqm : List.Forall₂ Consumes q m) (hu : u <:+ m ++ s)
    (h : LiteralFirst (q ++ p) u) : ∃ v, v <:+ s ∧ LiteralFirst p v := by
  induction hqm generalizing u with
  | nil => exact ⟨u, hu, h⟩
  | @cons c x q m hc hqm ih =>
    rcases List.suffix_cons_iff.mp hu with rfl | hlater
    · exact ih (List.suffix_refl _) ((literalFirst_consume hc).mp h)
    · generalize hpattern : c :: q ++ p = pattern at h
      cases h with
      | nil => cases hpattern
      | here h =>
        cases hpattern
        exact ih ((List.suffix_cons _ _).trans hlater) h
      | star t _ h =>
        cases hpattern
        exact ih ((List.suffix_append _ _).trans hlater) h
      | one y h =>
        cases hpattern
        exact ih ((List.suffix_cons _ _).trans hlater) h
      | literal _ _ h =>
        cases hpattern
        exact ih ((List.suffix_cons _ _).trans hlater) h

namespace GlobState

/-- What a state still decides: the present attempt, or a later one behind the last star. -/
def Accepts (g : GlobState) : Prop :=
  LiteralFirst g.p g.s ∨
    ∃ back ∈ g.star, ∃ u, u <:+ back.2.tail ∧ LiteralFirst back.1 u

/-- The answer of a step, or what the next state decides. -/
def Decides : GlobState ⊕ Bool → Prop
  | .inl g => g.Accepts
  | .inr answer => answer = true

theorem suffix_or_tail {u m : List Char} (h : u <:+ m) :
    u = m ∨ u <:+ m.tail := by
  cases m with
  | nil => exact Or.inl (List.suffix_nil.mp h)
  | cons x m => exact List.suffix_cons_iff.mp h

theorem accepts_self {p s : List Char} :
    Accepts ⟨p, s, some (p, s), reached_self⟩ ↔ ∃ u, u <:+ s ∧ LiteralFirst p u := by
  simp only [Accepts, Option.mem_some, exists_eq_left']
  constructor
  · intro h
    rcases h with h | ⟨u, hu, h⟩
    · exact ⟨_, List.suffix_refl _, h⟩
    · exact ⟨u, hu.trans (List.tail_suffix _), h⟩
  · intro ⟨u, hu, h⟩
    rcases suffix_or_tail hu with rfl | hlater
    · exact Or.inl h
    · exact Or.inr ⟨u, hlater, h⟩

theorem decides_retry {star : Option (List Char × List Char)} :
    Decides (retry star) ↔ ∃ back ∈ star, ∃ u, u <:+ back.2.tail ∧ LiteralFirst back.1 u := by
  cases star with
  | none => simp [retry, Decides]
  | some back =>
    simp only [retry, Decides, accepts_self, Option.mem_some, exists_eq_left']

/-- Each step of the loop keeps what is decided. -/
theorem decides_step (g : GlobState) : Decides g.step ↔ g.Accepts := by
  rcases g with ⟨p, s, star, hreached⟩
  cases s with
  | nil =>
    simp only [step, Decides, Accepts, List.isEmpty_iff, ← literalFirst_nil_right]
    constructor
    · exact Or.inl
    · intro h
      rcases h with h | ⟨back, hback, u, hu, h⟩
      · exact h
      · obtain ⟨q, m, rfl, hqm⟩ := hreached back hback
        obtain ⟨v, hv, h⟩ := catchUp hqm (hu.trans (List.tail_suffix _)) h
        rwa [List.suffix_nil.mp hv] at h
  | cons x s =>
    cases p with
    | nil =>
      simp only [step, decides_retry, Accepts, literalFirst_nil_left, List.cons_ne_nil, false_or]
    | cons c p =>
      simp only [step]
      by_cases hc : Consumes c x
      · rw [dif_pos hc]
        simp only [Decides, Accepts, literalFirst_consume hc]
      · rw [dif_neg hc]
        by_cases hstar : c = '*'
        · subst hstar
          have hhead : (x :: s).head? ≠ some '*' := by
            intro hx
            exact hc (Or.inr (Option.some.inj hx).symm)
          have hlast : (∃ back ∈ star, ∃ u, u <:+ back.2.tail ∧ LiteralFirst back.1 u) →
              ∃ u, u <:+ x :: s ∧ LiteralFirst p u := by
            intro hback
            obtain ⟨back, hback, u, hu, h⟩ := hback
            obtain ⟨q, m, rfl, hqm⟩ := hreached back hback
            obtain ⟨v, hv, h⟩ := catchUp hqm (hu.trans (List.tail_suffix _)) h
            obtain ⟨w, hw, h⟩ := literalFirst_behind_star h
            exact ⟨w, hw.trans hv, h⟩
          rw [if_pos rfl]
          simp only [Accepts, literalFirst_star hhead, or_iff_left_of_imp hlast]
          exact accepts_self
        · rw [if_neg hstar]
          simp only [decides_retry, Accepts, literalFirst_clash hc hstar, false_or]

theorem run_iff (g : GlobState) : g.run = true ↔ g.Accepts := by
  induction g using run.induct with
  | case1 g g' hstep ih =>
    rw [run, ← decides_step, hstep]
    exact ih
  | case2 g answer hstep =>
    rw [run, ← decides_step, hstep]
    rfl

end GlobState

theorem globMatch_iff (pattern s : List Char) :
    globMatch pattern s = true ↔ LiteralFirst pattern s := by
  rw [globMatch, GlobState.run_iff, GlobState.Accepts, GlobState.start]
  simp

end RasterH3.Raster.Glob
