import RasterH3.Proofs.GlobMatch

/-!
# When literal first is wildcard matching

The matcher reads a star of the pattern that stands before a star of the name as that character.
Whether it ever comes to that can be told from the pattern and the name alone. As long as it has
not happened the loop is the classical one, and the classical loop reaches a star of the pattern
behind the shortest piece of the name that the pattern up to there matches. So the question is
whether one of these shortest pieces is followed by a star, and `StarsApart` says that none is.

Two arguments meet here. The first is about the relations and does not look at the loop: where
the stars are apart, a match can be rearranged so that every star is free. Behind a star it is
the first place from which the rest matches that keeps the stars apart (`StarsApart.behind`),
because a match that begins at one place and one that lies inside it give one that begins with
the first and ends with the second (`matches_inner`). The second goes with the loop. A state
meets a clash if the shortest piece for some later star is followed by one; each step that takes
no star for a star keeps that (`meets_step`), going back included, since what failed at one place
of the name was no shortest piece there.

The two together make the condition exact for the loop: it is the stars being apart that keeps
it from the wrong branch. Once it has been in that branch the answer can still come out right by
luck of what follows, as it does for the pattern `*` and the name `*`. For a pattern with one
star, `globMatch_one_star_iff` says when.
-/

namespace RasterH3.Raster.Glob

/-! ## The wildcard relation -/

theorem matches_nil_left {s : List Char} : Matches [] s ↔ s = [] := by
  constructor
  · intro h
    cases h
    rfl
  · intro hs
    rw [hs]
    exact .nil

/-- A character of the pattern that is no star takes exactly one of the name. -/
theorem matches_cons {c : Char} {p s : List Char} (hstar : c ≠ '*') :
    Matches (c :: p) s ↔ ∃ x t, s = x :: t ∧ Consumes c x ∧ Matches p t := by
  constructor
  · intro h
    cases h with
    | star => exact absurd rfl hstar
    | one x h => exact ⟨x, _, rfl, Or.inl rfl, h⟩
    | literal _ _ h => exact ⟨_, _, rfl, Or.inr rfl, h⟩
  · intro ⟨x, t, hs, hc, h⟩
    subst hs
    rcases hc with rfl | rfl
    · exact .one x h
    · by_cases hone : c = '?'
      · subst hone
        exact .one '?' h
      · exact .literal hstar hone h

theorem matches_star {p s : List Char} :
    Matches ('*' :: p) s ↔ ∃ t u, s = t ++ u ∧ Matches p u := by
  constructor
  · intro h
    cases h with
    | star t h => exact ⟨t, _, rfl, h⟩
    | literal hstar => exact absurd rfl hstar
  · intro ⟨t, u, hs, h⟩
    subst hs
    exact .star t h

theorem matches_append {p q s : List Char} :
    Matches (p ++ q) s ↔ ∃ t u, s = t ++ u ∧ Matches p t ∧ Matches q u := by
  induction p generalizing s with
  | nil =>
    constructor
    · exact fun h => ⟨[], s, rfl, .nil, h⟩
    · intro ⟨t, u, hs, ht, hu⟩
      rw [hs, matches_nil_left.mp ht]
      exact hu
  | cons c p ih =>
    rw [List.cons_append]
    by_cases hstar : c = '*'
    · subst hstar
      simp only [matches_star, ih]
      constructor
      · intro h
        obtain ⟨a, _, hs, t, u, rfl, ht, hu⟩ := h
        exact ⟨a ++ t, u, by simp [hs], ⟨a, t, rfl, ht⟩, hu⟩
      · intro h
        obtain ⟨_, u, hs, ⟨a, t, rfl, ht⟩, hu⟩ := h
        exact ⟨a, t ++ u, by simp [hs], t, u, rfl, ht, hu⟩
    · simp only [matches_cons hstar, ih]
      constructor
      · intro h
        obtain ⟨x, _, hs, hc, t, u, rfl, ht, hu⟩ := h
        exact ⟨x :: t, u, by simp [hs], ⟨x, t, rfl, hc, ht⟩, hu⟩
      · intro h
        obtain ⟨_, u, hs, ⟨x, t, rfl, hc, ht⟩, hu⟩ := h
        exact ⟨x, t ++ u, by simp [hs], hc, t, u, rfl, ht, hu⟩

/-- A match from the beginning and one inside it: the first can end where the second does. -/
theorem matches_inner {r x inner y : List Char} (h : Matches r (x ++ inner ++ y))
    (hinner : Matches r inner) : Matches r (x ++ inner) := by
  induction r generalizing x inner with
  | nil =>
    have hnil := matches_nil_left.mp h
    simp only [List.append_eq_nil_iff] at hnil
    rw [hnil.1.1, hnil.1.2]
    exact .nil
  | cons c r ih =>
    by_cases hstar : c = '*'
    · subst hstar
      obtain ⟨t, u, rfl, hu⟩ := matches_star.mp hinner
      exact matches_star.mpr ⟨x ++ t, u, by simp, hu⟩
    · obtain ⟨a, t, hall, hca, ht⟩ := (matches_cons hstar).mp h
      obtain ⟨b, u, rfl, hcb, hu⟩ := (matches_cons hstar).mp hinner
      cases x with
      | nil => exact hinner
      | cons a' x =>
        simp only [List.cons_append, List.cons.injEq] at hall
        obtain ⟨rfl, rfl⟩ := hall
        have hlater : Matches r (x ++ [b] ++ u) := by
          refine ih ?_ hu
          simpa using ht
        exact (matches_cons hstar).mpr ⟨a', x ++ b :: u, rfl, hca, by simpa using hlater⟩

/-- No star of the pattern comes to stand before a star of the name: where the pattern up to one
of its stars matches the name up to one of its own, it already matches less of the name. -/
def StarsApart (pattern s : List Char) : Prop :=
  ∀ p₁ p₂ s₁ s₂, pattern = p₁ ++ '*' :: p₂ → s = s₁ ++ '*' :: s₂ → Matches p₁ s₁ →
    ∃ t, t <+: s₁ ∧ t ≠ s₁ ∧ Matches p₁ t

theorem StarsApart.tail {c x : Char} {p s : List Char} (h : StarsApart (c :: p) (x :: s))
    (hstar : c ≠ '*') (hc : Consumes c x) : StarsApart p s := by
  intro p₁ p₂ s₁ s₂ hp hs hmatch
  obtain ⟨t, hprefix, hne, ht⟩ := h (c :: p₁) p₂ (x :: s₁) s₂ (by rw [hp]; rfl) (by rw [hs]; rfl)
    ((matches_cons hstar).mpr ⟨x, s₁, rfl, hc, hmatch⟩)
  obtain ⟨y, t, rfl, -, ht⟩ := (matches_cons hstar).mp ht
  obtain ⟨rfl, hrest⟩ := List.cons_prefix_cons.mp hprefix
  exact ⟨t, hrest, fun hsame => hne (by rw [hsame]), ht⟩

theorem StarsApart.head {p s : List Char} (h : StarsApart ('*' :: p) s) : s.head? ≠ some '*' := by
  intro hhead
  cases s with
  | nil => cases hhead
  | cons x s =>
    obtain rfl := Option.some.inj hhead
    obtain ⟨t, hprefix, hne, -⟩ := h [] p [] s rfl rfl .nil
    exact hne (List.prefix_nil.mp hprefix)

/-- Behind a star, the first place from which the rest matches has its stars apart again. -/
theorem StarsApart.behind {p v u : List Char} (h : StarsApart ('*' :: p) (v ++ u))
    (hu : Matches p u)
    (hfirst : ∀ a b, v ++ u = a ++ b → a.length < v.length → ¬Matches p b) : StarsApart p u := by
  intro r₁ r₂ t w hp ht hmatch
  by_contra hshortest
  push Not at hshortest
  obtain ⟨t', ⟨y, hy⟩, hne, ht'⟩ := h ('*' :: r₁) r₂ (v ++ t) w (by rw [hp]; rfl)
    (by rw [ht, List.append_assoc]) (.star v hmatch)
  obtain ⟨a, b, rfl, hb⟩ := matches_star.mp ht'
  have hylen : 0 < y.length := by
    rw [List.length_pos_iff]
    intro hnil
    rw [hnil, List.append_nil] at hy
    exact hne hy
  rw [List.append_assoc] at hy
  rcases Nat.lt_or_ge a.length v.length with hearly | hlate
  · subst hp
    obtain ⟨a₁, b₁, hsplit, ha₁, hb₁⟩ := matches_append.mp hu
    have hlong : t.length ≤ a₁.length := by
      by_contra hshort
      have hprefix : a₁ <+: t :=
        List.prefix_of_prefix_length_le ⟨b₁, hsplit.symm⟩ ⟨_, ht.symm⟩ (by omega)
      refine hshortest a₁ hprefix ?_ ha₁
      intro hsame
      rw [hsame] at hshort
      omega
    have hwhole : v ++ u = a ++ (b ++ (y ++ '*' :: w)) := by
      rw [ht, ← List.append_assoc v, ← hy]
      simp only [List.append_assoc]
    refine hfirst a _ hwhole hearly (matches_append.mpr ⟨b, _, rfl, hb, ?_⟩)
    have hlen := congrArg List.length hy
    simp only [List.length_append] at hlen
    have hsuffix : b₁ <:+ y ++ '*' :: w := by
      have hfirst : b₁ <:+ v ++ u := ⟨v ++ a₁, by rw [hsplit, List.append_assoc]⟩
      have hsecond : y ++ '*' :: w <:+ v ++ u :=
        ⟨a ++ b, by rw [hwhole]; simp only [List.append_assoc]⟩
      refine List.suffix_of_suffix_length_le hfirst hsecond ?_
      · have htotal := congrArg List.length (hsplit.symm.trans ht)
        simp only [List.length_append, List.length_cons] at htotal ⊢
        omega
    obtain ⟨z, hz⟩ := hsuffix
    rw [← hz]
    obtain ⟨a₂, b₂, rfl, hb₂⟩ := matches_star.mp hb₁
    exact matches_star.mpr ⟨z ++ a₂, b₂, by simp, hb₂⟩
  · obtain ⟨x, rfl⟩ : v <+: a :=
      List.prefix_of_prefix_length_le ⟨t, rfl⟩ ⟨b ++ y, hy⟩ hlate
    rw [List.append_assoc, List.append_right_inj, ← List.append_assoc] at hy
    subst hy
    refine hshortest (x ++ b) (List.prefix_append _ _) ?_ (matches_inner hmatch hb)
    intro hsame
    have hlen := congrArg List.length hsame
    simp only [List.length_append] at hlen
    omega

theorem exists_first_suffix {P : List Char → Prop} {t u : List Char} (hu : P u) :
    ∃ v w, t ++ u = v ++ w ∧ P w ∧ ∀ a b, t ++ u = a ++ b → a.length < v.length → ¬P b := by
  induction t with
  | nil => exact ⟨[], u, rfl, hu, fun _ _ _ hshort => absurd hshort (Nat.not_lt_zero _)⟩
  | cons x t ih =>
    by_cases hwhole : P (x :: t ++ u)
    · exact ⟨[], _, rfl, hwhole, fun _ _ _ hshort => absurd hshort (Nat.not_lt_zero _)⟩
    · obtain ⟨v, w, hsplit, hw, hfirst⟩ := ih
      refine ⟨x :: v, w, by simp [hsplit], hw, ?_⟩
      intro a b hab hshort
      cases a with
      | nil =>
        rw [List.nil_append] at hab
        rwa [← hab]
      | cons y a =>
        exact hfirst a b (List.cons.inj hab).2 (Nat.lt_of_succ_lt_succ hshort)

theorem literalFirst_of_apart {p s : List Char} (hapart : StarsApart p s) (h : Matches p s) :
    LiteralFirst p s := by
  induction p generalizing s with
  | nil =>
    rw [matches_nil_left.mp h]
    exact .nil
  | cons c p ih =>
    by_cases hstar : c = '*'
    · subst hstar
      obtain ⟨t, u, rfl, hu⟩ := matches_star.mp h
      obtain ⟨v, w, hsplit, hw, hfirst⟩ := exists_first_suffix (t := t) hu
      rw [hsplit] at hapart hfirst ⊢
      exact (literalFirst_star hapart.head).mpr
        ⟨w, List.suffix_append _ _, ih (hapart.behind hw hfirst) hw⟩
    · obtain ⟨x, t, rfl, hc, ht⟩ := (matches_cons hstar).mp h
      exact (literalFirst_consume hc).mpr (ih (hapart.tail hstar hc) ht)

/-! ## The walk -/

/-- The pattern matches this much of a name, and no less of it. -/
def Shortest (r t : List Char) : Prop := Matches r t ∧ ∀ t', t' <+: t → Matches r t' → t' = t

/-- A star of the pattern comes to stand before a star of the name; `lead` is what the pattern has
before `p`. -/
def Clash (lead p s : List Char) : Prop :=
  ∃ r₁ r₂ t u, p = r₁ ++ '*' :: r₂ ∧ s = t ++ '*' :: u ∧ Shortest (lead ++ r₁) t

theorem clash_iff {p s : List Char} : Clash [] p s ↔ ¬StarsApart p s := by
  simp only [StarsApart, Clash, Shortest, List.nil_append]
  push Not
  constructor
  · intro ⟨r₁, r₂, t, u, hp, hs, hmatch, hshort⟩
    exact ⟨r₁, r₂, t, u, hp, hs, hmatch, fun t' hprefix hne h => hne (hshort t' hprefix h)⟩
  · intro ⟨r₁, r₂, t, u, hp, hs, hmatch, hshort⟩
    refine ⟨r₁, r₂, t, u, hp, hs, hmatch, fun t' hprefix h => ?_⟩
    by_contra hne
    exact hshort t' hprefix hne h

theorem matches_block {q r s : List Char} (hq : '*' ∉ q) :
    Matches (q ++ r) s ↔ ∃ m t, s = m ++ t ∧ List.Forall₂ Consumes q m ∧ Matches r t := by
  induction q generalizing s with
  | nil =>
    constructor
    · exact fun h => ⟨[], s, rfl, .nil, h⟩
    · intro ⟨m, t, hs, hm, ht⟩
      cases hm
      rwa [hs]
  | cons c q ih =>
    obtain ⟨hc, hq⟩ := not_or.mp (fun h => hq (List.mem_cons.mpr h))
    rw [List.cons_append]
    simp only [matches_cons (Ne.symm hc), ih hq]
    constructor
    · intro h
      obtain ⟨x, _, hs, hx, m, t, rfl, hm, ht⟩ := h
      exact ⟨x :: m, t, by simp [hs], .cons hx hm, ht⟩
    · intro h
      obtain ⟨_, t, hs, hm, ht⟩ := h
      cases hm with
      | cons hx hm => exact ⟨_, _, hs, hx, _, t, rfl, hm, ht⟩

theorem star_behind {q p r₁ r₂ : List Char} (hq : '*' ∉ q) (h : q ++ p = r₁ ++ '*' :: r₂) :
    ∃ r, r₁ = q ++ r ∧ p = r ++ '*' :: r₂ := by
  rcases List.append_eq_append_iff.mp h with ⟨r, hr, hp⟩ | ⟨r, hr, hp⟩
  · exact ⟨r, hr, hp⟩
  · cases r with
    | nil => exact ⟨[], by simpa using hr.symm, hp.symm⟩
    | cons c r =>
      obtain ⟨rfl, -⟩ := List.cons.inj hp
      exact absurd (by rw [hr]; simp) hq

/-- A block behind a star takes at least its own length. -/
theorem length_le_of_block {q r t : List Char} (hq : '*' ∉ q) (h : Matches ('*' :: q ++ r) t) :
    q.length ≤ t.length := by
  obtain ⟨a, b, rfl, hb⟩ := matches_star.mp h
  obtain ⟨m, t, rfl, hm, -⟩ := (matches_block hq).mp hb
  have hlen := hm.length_eq
  simp only [List.length_append]
  omega

theorem matches_behind_block {q r m t : List Char} (hq : '*' ∉ q)
    (hm : List.Forall₂ Consumes q m) :
    Matches ('*' :: q ++ '*' :: r) (m ++ t) ↔ Matches ('*' :: r) t := by
  constructor
  · intro h
    obtain ⟨a, b, hab, hb⟩ := matches_star.mp h
    obtain ⟨m', t', rfl, hm', ht'⟩ := (matches_block hq).mp hb
    obtain ⟨v, w, rfl, hw⟩ := matches_star.mp ht'
    have hlen := hm.length_eq.symm.trans hm'.length_eq
    have hwt : w <:+ t := by
      have hwhole : w <:+ m ++ t :=
        ⟨a ++ (m' ++ v), by rw [hab]; simp only [List.append_assoc]⟩
      refine List.suffix_of_suffix_length_le hwhole (List.suffix_append _ _) ?_
      · have htotal := congrArg List.length hab
        simp only [List.length_append] at htotal
        omega
    obtain ⟨z, rfl⟩ := hwt
    exact .star z hw
  · intro h
    exact .star [] ((matches_block hq).mpr ⟨m, t, rfl, hm, h⟩)

theorem shortest_behind_block {q r m t : List Char} (hq : '*' ∉ q)
    (hm : List.Forall₂ Consumes q m) :
    Shortest ('*' :: q ++ '*' :: r) (m ++ t) ↔ Shortest ('*' :: r) t := by
  simp only [Shortest, matches_behind_block hq hm]
  refine and_congr_right fun _ => ?_
  constructor
  · intro hshort t' hprefix h
    have hsame := hshort (m ++ t') ((List.prefix_append_right_inj m).mpr hprefix)
      ((matches_behind_block hq hm).mpr h)
    exact List.append_cancel_left hsame
  · intro hshort t' hprefix h
    have hlong := length_le_of_block hq h
    obtain ⟨t'', rfl⟩ : m <+: t' :=
      List.prefix_of_prefix_length_le (List.prefix_append _ _) hprefix
        (hm.length_eq ▸ hlong)
    rw [hshort t'' ((List.prefix_append_right_inj m).mp hprefix)
      ((matches_behind_block hq hm).mp h)]

theorem shortest_cons {c x : Char} {r t : List Char} (hstar : c ≠ '*') (hc : Consumes c x) :
    Shortest (c :: r) (x :: t) ↔ Shortest r t := by
  have hcons : ∀ t, Matches (c :: r) (x :: t) ↔ Matches r t := by
    intro t
    rw [matches_cons hstar]
    constructor
    · intro ⟨y, t', hsame, _, h⟩
      rwa [(List.cons.inj hsame).2]
    · exact fun h => ⟨x, t, rfl, hc, h⟩
  simp only [Shortest, hcons]
  refine and_congr_right fun _ => ?_
  constructor
  · intro hshort t' hprefix h
    exact (List.cons.inj (hshort (x :: t') (List.cons_prefix_cons.mpr ⟨rfl, hprefix⟩)
      ((hcons t').mpr h))).2
  · intro hshort t' hprefix h
    cases t' with
    | nil =>
      obtain ⟨_, _, hnil, -⟩ := (matches_cons hstar).mp h
      cases hnil
    | cons y t' =>
      obtain ⟨rfl, hrest⟩ := List.cons_prefix_cons.mp hprefix
      rw [hshort t' hrest ((hcons t').mp h)]

namespace GlobState

def Collides (g : GlobState) : Prop := g.p.head? = some '*' ∧ g.s.head? = some '*'

/-- From this state on the loop takes a star of the pattern for a star of the name. -/
inductive TakesStar : GlobState → Prop
  | here {g : GlobState} : g.Collides → TakesStar g
  | later {g g' : GlobState} : g.step = .inl g' → TakesStar g' → TakesStar g

/-- What the loop still meets: from the beginning, or behind the star it would go back to. -/
def Meets (g : GlobState) : Prop :=
  match g.star with
  | none => Clash [] g.p g.s
  | some back => Clash ['*'] back.1 back.2

/-- Behind the last star no star has been consumed. -/
def Clean (g : GlobState) : Prop :=
  ∀ back ∈ g.star, ∃ q m, back = (q ++ g.p, m ++ g.s) ∧ List.Forall₂ Consumes q m ∧ '*' ∉ q

theorem takesStar_iff {g g' : GlobState} (happart : ¬g.Collides) (hstep : g.step = .inl g') :
    g.TakesStar ↔ g'.TakesStar := by
  constructor
  · intro h
    cases h with
    | here h => exact absurd h happart
    | later h ht =>
      obtain rfl := Sum.inl.inj (h.symm.trans hstep)
      exact ht
  · exact .later hstep

theorem clash_consume {c x : Char} {p s : List Char} (hstar : c ≠ '*') (hc : Consumes c x) :
    Clash [] (c :: p) (x :: s) ↔ Clash [] p s := by
  constructor
  · intro ⟨r₁, r₂, t, u, hp, hs, hshort⟩
    cases r₁ with
    | nil => exact absurd (List.cons.inj hp).1 hstar
    | cons d r₁ =>
      obtain ⟨rfl, rfl⟩ := List.cons.inj hp
      obtain ⟨y, t, rfl, -, -⟩ := (matches_cons hstar).mp hshort.1
      obtain ⟨rfl, rfl⟩ := List.cons.inj hs
      exact ⟨r₁, r₂, t, u, rfl, rfl, (shortest_cons hstar hc).mp hshort⟩
  · intro ⟨r₁, r₂, t, u, hp, hs, hshort⟩
    exact ⟨c :: r₁, r₂, x :: t, u, by rw [hp]; rfl, by rw [hs]; rfl,
      (shortest_cons hstar hc).mpr hshort⟩

theorem clash_first_star {x : Char} {p s : List Char} (hx : x ≠ '*') :
    Clash [] ('*' :: p) (x :: s) ↔ Clash ['*'] p (x :: s) := by
  constructor
  · intro ⟨r₁, r₂, t, u, hp, hs, hshort⟩
    cases r₁ with
    | nil =>
      rw [matches_nil_left.mp hshort.1] at hs
      exact absurd (List.cons.inj hs).1 hx
    | cons d r₁ =>
      obtain ⟨rfl, rfl⟩ := List.cons.inj hp
      exact ⟨r₁, r₂, t, u, rfl, hs, hshort⟩
  · intro ⟨r₁, r₂, t, u, hp, hs, hshort⟩
    exact ⟨'*' :: r₁, r₂, t, u, by rw [hp]; rfl, hs, hshort⟩

theorem clash_next_star {x : Char} {q p m s : List Char} (hq : '*' ∉ q)
    (hm : List.Forall₂ Consumes q m) (hx : x ≠ '*') :
    Clash ['*'] (q ++ '*' :: p) (m ++ x :: s) ↔ Clash ['*'] p (x :: s) := by
  constructor
  · intro ⟨r₁, r₂, t, u, hp, hs, hshort⟩
    obtain ⟨r, rfl, hrest⟩ := star_behind hq hp
    have hlong : m.length ≤ t.length := hm.length_eq ▸ length_le_of_block hq hshort.1
    obtain ⟨t, rfl⟩ : m <+: t :=
      List.prefix_of_prefix_length_le ⟨x :: s, rfl⟩ ⟨'*' :: u, hs.symm⟩ hlong
    rw [List.append_assoc] at hs
    replace hs := List.append_cancel_left hs
    cases r with
    | nil =>
      have hall := hshort.2 m (List.prefix_append _ _) (.star [] (by
        rw [List.append_nil, ← List.append_nil q]
        exact (matches_block hq).mpr ⟨m, [], by simp, hm, .nil⟩))
      rw [List.self_eq_append_right.mp hall] at hs
      exact absurd (List.cons.inj hs).1 hx
    | cons d r =>
      obtain ⟨rfl, rfl⟩ := List.cons.inj hrest
      exact ⟨r, r₂, t, u, rfl, hs, (shortest_behind_block hq hm).mp hshort⟩
  · intro ⟨r₁, r₂, t, u, hp, hs, hshort⟩
    exact ⟨q ++ '*' :: r₁, r₂, m ++ t, u, by simp [hp], by simp [hs],
      (shortest_behind_block hq hm).mpr hshort⟩

/-- What stands before the next star of the pattern does not begin here. -/
def Fails (p m : List Char) : Prop :=
  ∀ r₁ r₂ b v, p = r₁ ++ '*' :: r₂ → m = b ++ v → ¬Matches r₁ b

theorem clash_retry {y : Char} {p m : List Char} (hfails : Fails p (y :: m)) :
    Clash ['*'] p (y :: m) ↔ Clash ['*'] p m := by
  have hcons : ∀ {r₁ r₂ t v}, p = r₁ ++ '*' :: r₂ → y :: m = t ++ v → Matches ('*' :: r₁) t →
      ∃ t', t = y :: t' ∧ Matches ('*' :: r₁) t' := by
    intro r₁ r₂ t v hp hm h
    obtain ⟨a, b, rfl, hb⟩ := matches_star.mp h
    cases a with
    | nil => exact absurd hb (hfails r₁ r₂ b v hp hm)
    | cons z a =>
      simp only [List.cons_append, List.cons.injEq] at hm
      exact ⟨a ++ b, by rw [hm.1]; rfl, .star a hb⟩
  constructor
  · intro ⟨r₁, r₂, t, u, hp, hm, hmatch, hshort⟩
    obtain ⟨t, rfl, h⟩ := hcons hp hm hmatch
    refine ⟨r₁, r₂, t, u, hp, (List.cons.inj hm).2, h, ?_⟩
    intro t' hprefix h'
    obtain ⟨a, b, rfl, hb⟩ := matches_star.mp h'
    exact (List.cons.inj (hshort (y :: (a ++ b)) (List.cons_prefix_cons.mpr ⟨rfl, hprefix⟩)
      (.star (y :: a) hb))).2
  · intro ⟨r₁, r₂, t, u, hp, hm, hmatch, hshort⟩
    obtain ⟨a, b, rfl, hb⟩ := matches_star.mp hmatch
    refine ⟨r₁, r₂, y :: (a ++ b), u, hp, by rw [hm]; rfl, .star (y :: a) hb, ?_⟩
    intro t' ⟨v, hv⟩ h'
    obtain ⟨t'', rfl, h''⟩ := hcons hp (v := v ++ '*' :: u)
      (by rw [hm, ← List.append_assoc, hv]; rfl) h'
    rw [hshort t'' ⟨v, (List.cons.inj hv).2⟩ h'']

theorem fails_of_clash {c x : Char} {q p m s : List Char} (hq : '*' ∉ q)
    (hm : List.Forall₂ Consumes q m) (hstar : c ≠ '*') (hc : ¬Consumes c x) :
    Fails (q ++ c :: p) (m ++ x :: s) := by
  intro r₁ r₂ b v hp hb hmatch
  obtain ⟨r, rfl, hrest⟩ := star_behind hq hp
  obtain ⟨m', t, rfl, hm', ht⟩ := (matches_block hq).mp hmatch
  rw [List.append_assoc] at hb
  obtain ⟨rfl, hrest'⟩ := List.append_inj hb (hm.length_eq.symm.trans hm'.length_eq)
  cases r with
  | nil => exact hstar (List.cons.inj hrest).1
  | cons d r =>
    obtain ⟨rfl, -⟩ := List.cons.inj hrest
    obtain ⟨y, t, rfl, hy, -⟩ := (matches_cons hstar).mp ht
    exact hc ((List.cons.inj hrest').1 ▸ hy)

theorem fails_of_no_star {q m : List Char} (hq : '*' ∉ q) : Fails q m :=
  fun r₁ r₂ _ _ hp _ _ => hq (by rw [hp]; simp)

theorem collides_meets {g : GlobState} (hclean : g.Clean) (hcollides : g.Collides) : g.Meets := by
  rcases g with ⟨p, s, star, hreached⟩
  obtain ⟨hp, hs⟩ := hcollides
  obtain ⟨p, rfl⟩ := List.head?_eq_some_iff.mp hp
  obtain ⟨s, rfl⟩ := List.head?_eq_some_iff.mp hs
  dsimp only [Clean] at hclean
  cases star with
  | none => exact ⟨[], p, [], s, rfl, rfl, .nil, fun t hprefix _ => List.prefix_nil.mp hprefix⟩
  | some back =>
    obtain ⟨q, m, rfl, hm, hq⟩ := hclean back rfl
    refine ⟨q, p, m, s, rfl, rfl, .star [] ?_, ?_⟩
    · rw [← List.append_nil q]
      exact (matches_block hq).mpr ⟨m, [], by simp, hm, .nil⟩
    · intro t hprefix h
      have hlong : q.length ≤ t.length :=
        length_le_of_block (r := []) hq (by rwa [List.append_nil])
      exact hprefix.eq_of_length_le (hm.length_eq ▸ hlong)

theorem clean_none {p s : List Char}
    {h : ∀ back ∈ (none : Option (List Char × List Char)),
      ∃ q m, back = (q ++ p, m ++ s) ∧ List.Forall₂ Consumes q m} :
    Clean ⟨p, s, none, h⟩ := by
  intro back hback
  cases hback

theorem clean_self {p s : List Char} : Clean ⟨p, s, some (p, s), reached_self⟩ := by
  intro back hback
  obtain rfl := Option.mem_some.mp hback
  exact ⟨[], [], rfl, .nil, by simp⟩

/-- A state whose retry is next meets what the retried state meets. -/
theorem meets_retry {p s : List Char} {star : Option (List Char × List Char)} {g : GlobState}
    (hs : ∀ back ∈ star, back.2 ≠ []) (hfails : ∀ back ∈ star, Fails back.1 back.2)
    (hretry : retry star = .inl g) :
    (∀ h, Meets ⟨p, s, star, h⟩ ↔ g.Meets) ∧ g.Clean := by
  cases star with
  | none => cases hretry
  | some back =>
    obtain ⟨p', m⟩ := back
    cases hretry
    cases m with
    | nil => exact absurd rfl (hs _ rfl)
    | cons y m => exact ⟨fun _ => clash_retry (hfails _ rfl), clean_self⟩

theorem meets_step {g g' : GlobState} (hclean : g.Clean) (happart : ¬g.Collides)
    (hstep : g.step = .inl g') : (g.Meets ↔ g'.Meets) ∧ g'.Clean := by
  rcases g with ⟨p, s, star, hreached⟩
  dsimp only [Clean] at hclean
  cases s with
  | nil => cases hstep
  | cons x s =>
    have hback : ∀ back ∈ star, back.2 ≠ [] := by
      intro back hback
      obtain ⟨q, m, rfl, -⟩ := hreached back hback
      simp
    cases p with
    | nil =>
      refine (meets_retry hback ?_ hstep).imp (fun h => h _) id
      intro back hback
      obtain ⟨q, m, rfl, -, hq⟩ := hclean back hback
      rw [List.append_nil]
      exact fails_of_no_star hq
    | cons c p =>
      simp only [step] at hstep
      by_cases hc : Consumes c x
      · rw [dif_pos hc] at hstep
        cases hstep
        have hstar : c ≠ '*' := by
          intro hsame
          subst hsame
          rcases hc with h | h
          · cases h
          · exact happart ⟨rfl, congrArg some h.symm⟩
        cases star with
        | none => exact ⟨clash_consume hstar hc, clean_none⟩
        | some back =>
          refine ⟨Iff.rfl, ?_⟩
          intro back hback
          obtain ⟨q, m, rfl, hm, hq⟩ := hclean back hback
          refine ⟨q ++ [c], m ++ [x], by simp, List.rel_append hm (.cons hc .nil), ?_⟩
          simp [hq, Ne.symm hstar]
      · rw [dif_neg hc] at hstep
        by_cases hstar : c = '*'
        · subst hstar
          rw [if_pos rfl] at hstep
          cases hstep
          have hx : x ≠ '*' := fun h => hc (Or.inr h.symm)
          refine ⟨?_, clean_self⟩
          cases star with
          | none => exact clash_first_star hx
          | some back =>
            obtain ⟨q, m, rfl, hm, hq⟩ := hclean back rfl
            exact clash_next_star hq hm hx
        · rw [if_neg hstar] at hstep
          refine (meets_retry hback ?_ hstep).imp (fun h => h _) id
          intro back hback
          obtain ⟨q, m, rfl, hm, hq⟩ := hclean back hback
          exact fails_of_clash hq hm hstar hc

theorem not_meets_of_answer {g : GlobState} {answer : Bool} (hclean : g.Clean)
    (hstep : g.step = .inr answer) : ¬g.Meets := by
  rcases g with ⟨p, s, star, hreached⟩
  dsimp only [Clean] at hclean
  cases s with
  | nil =>
    cases star with
    | none =>
      intro hmeets
      obtain ⟨r₁, r₂, t, u, -, hs, -⟩ := hmeets
      simp at hs
    | some back =>
      obtain ⟨q, m, rfl, hm, hq⟩ := hclean back rfl
      intro hmeets
      obtain ⟨r₁, r₂, t, u, hp, hs, hshort⟩ := hmeets
      obtain ⟨r, rfl, -⟩ := star_behind hq hp
      have hlong := length_le_of_block hq hshort.1
      have hlen := congrArg List.length hs
      simp only [List.append_nil, List.length_append, List.length_cons] at hlen
      have := hm.length_eq
      omega
  | cons x s =>
    have hnone : ∀ {a}, retry star = .inr a → star = none := by
      intro a h
      cases star with
      | none => rfl
      | some back => cases h
    cases p with
    | nil =>
      obtain rfl := hnone hstep
      intro hmeets
      obtain ⟨r₁, r₂, t, u, hp, -, -⟩ := hmeets
      simp at hp
    | cons c p =>
      simp only [step] at hstep
      by_cases hc : Consumes c x
      · rw [dif_pos hc] at hstep
        cases hstep
      · rw [dif_neg hc] at hstep
        by_cases hstar : c = '*'
        · rw [if_pos hstar] at hstep
          cases hstep
        · rw [if_neg hstar] at hstep
          obtain rfl := hnone hstep
          intro hmeets
          obtain ⟨r₁, r₂, t, u, hp, hs, hshort⟩ := hmeets
          exact fails_of_clash (q := []) (m := []) (by simp) .nil hstar hc r₁ r₂ t _ hp hs hshort.1

/-- The loop takes a star for a star just where one comes to stand before the other. -/
theorem takesStar_iff_meets (g : GlobState) (hclean : g.Clean) : g.TakesStar ↔ g.Meets := by
  induction g using run.induct with
  | case1 g g' hstep ih =>
    by_cases hcollides : g.Collides
    · exact iff_of_true (.here hcollides) (collides_meets hclean hcollides)
    · obtain ⟨hmeets, hclean'⟩ := meets_step hclean hcollides hstep
      rw [takesStar_iff hcollides hstep, ih hclean', hmeets]
  | case2 g answer hstep =>
    have hnot := not_meets_of_answer hclean hstep
    refine iff_of_false ?_ hnot
    intro h
    cases h with
    | here hcollides => exact hnot (collides_meets hclean hcollides)
    | later hnext => cases hnext.symm.trans hstep

end GlobState

/-- A star of the pattern is taken for a star of the name. -/
def TakesStar (pattern s : List Char) : Prop :=
  (GlobState.start pattern s).TakesStar

theorem takesStar_iff_not_apart (pattern s : List Char) :
    TakesStar pattern s ↔ ¬StarsApart pattern s := by
  rw [TakesStar, GlobState.start, GlobState.takesStar_iff_meets _ GlobState.clean_none, ← clash_iff]
  rfl

/-! ## The matcher -/

/-- The matcher answers right for every pattern and name whose stars are apart, and these are the
ones for which its loop never takes a star for a star. -/
theorem globMatch_matches_of_apart (pattern s : List Char) :
    (StarsApart pattern s ↔ ¬TakesStar pattern s) ∧
      (StarsApart pattern s → (globMatch pattern s = true ↔ Matches pattern s)) := by
  constructor
  · rw [takesStar_iff_not_apart, not_not]
  · intro hapart
    rw [globMatch_iff]
    exact ⟨LiteralFirst.matches, literalFirst_of_apart hapart⟩

theorem globMatch_matches_of_apart_question :
    globMatch ['a', '*', 'b', '?'] ['a', 'x', 'b', '*'] = true := by
  have hapart : StarsApart ['a', '*', 'b', '?'] ['a', 'x', 'b', '*'] := by
    intro p₁ p₂ s₁ s₂ hp hs hmatch
    obtain ⟨r, rfl, hrest⟩ := star_behind (q := ['a']) (p := ['*', 'b', '?']) (by decide) hp
    cases r with
    | nil =>
      have hlen := (matches_cons (p := []) (by decide)).mp hmatch
      obtain ⟨x, t, rfl, -, ht⟩ := hlen
      rw [matches_nil_left.mp ht] at hs
      cases hs
    | cons c r =>
      have hmem : '*' ∈ ['b', '?'] := by
        rw [(List.cons.inj hrest).2]
        simp
      exact absurd hmem (by decide)
  refine ((globMatch_matches_of_apart _ _).2 hapart).mpr ?_
  exact .literal (by decide) (by decide)
    (.star ['x'] (.literal (by decide) (by decide) (.one '*' .nil)))

/-- The pattern that matches everything does not match this. -/
theorem star_before_star_fails :
    ¬(globMatch ['*'] ['*', 'a'] = true ↔ Matches ['*'] ['*', 'a']) := by
  intro h
  have hmatches : Matches ['*'] ['*', 'a'] := .star ['*', 'a'] .nil
  have hrun := (globMatch_iff _ _).mp (h.mpr hmatches)
  cases (literalFirst_consume (Or.inr rfl)).mp hrun

theorem globMatch_of_no_star {pattern s : List Char} (hs : '*' ∉ s) :
    globMatch pattern s = true ↔ Matches pattern s := by
  have hapart : StarsApart pattern s :=
    fun _ _ _ _ _ hsplit => absurd (by rw [hsplit]; simp) hs
  rw [globMatch_iff]
  exact ⟨LiteralFirst.matches, literalFirst_of_apart hapart⟩

theorem literalFirst_block {q m p s : List Char} (hm : List.Forall₂ Consumes q m) :
    LiteralFirst (q ++ p) (m ++ s) ↔ LiteralFirst p s := by
  induction hm with
  | nil => exact Iff.rfl
  | cons hc _ ih => exact (literalFirst_consume hc).trans ih

/-- A pattern with one star goes wrong just on the names that have a star in its place and more
or less behind it than the pattern. -/
theorem globMatch_one_star_iff {q r s : List Char} (hq : '*' ∉ q) (hr : '*' ∉ r) :
    (globMatch (q ++ '*' :: r) s = true ↔ Matches (q ++ '*' :: r) s) ↔
      (Matches (q ++ '*' :: r) s → s[q.length]? = some '*' →
        s.length = q.length + 1 + r.length) := by
  have hblock : ∀ {t}, Matches r t → List.Forall₂ Consumes r t := by
    intro t ht
    obtain ⟨m, e, rfl, hm, he⟩ := (matches_block (r := []) hr).mp (by rwa [List.append_nil])
    rwa [matches_nil_left.mp he, List.append_nil]
  have hreads : ∀ {t}, List.Forall₂ Consumes r t → LiteralFirst r t := by
    intro t ht
    have h := (literalFirst_block (p := []) (s := []) ht).mpr .nil
    rwa [List.append_nil, List.append_nil] at h
  rw [globMatch_iff]
  constructor
  · intro hright h hstar
    obtain ⟨m, t, rfl, hm, _⟩ := (matches_block hq).mp h
    rw [hm.length_eq, List.getElem?_append_right (Nat.le_refl _), Nat.sub_self] at hstar
    obtain ⟨t, rfl⟩ := List.head?_eq_some_iff.mp (List.head?_eq_getElem?.trans hstar)
    have hrest := (literalFirst_consume (Or.inr rfl)).mp ((literalFirst_block hm).mp (hright.mpr h))
    have hlen := (hblock hrest.matches).length_eq
    have hlead := hm.length_eq
    simp only [List.length_append, List.length_cons]
    omega
  · intro hlength
    refine ⟨LiteralFirst.matches, fun h => ?_⟩
    obtain ⟨m, t, rfl, hm, ht⟩ := (matches_block hq).mp h
    refine (literalFirst_block hm).mpr ?_
    obtain ⟨a, b, rfl, hb⟩ := matches_star.mp ht
    by_cases hhead : (a ++ b).head? = some '*'
    · have hall := hlength h (by
        rw [hm.length_eq, List.getElem?_append_right (Nat.le_refl _), Nat.sub_self,
          ← List.head?_eq_getElem?, hhead])
      have hlen := (hblock hb).length_eq
      have hlead := hm.length_eq
      simp only [List.length_append] at hall
      cases a with
      | nil =>
        simp only [List.length_nil] at hall
        omega
      | cons x a =>
        obtain rfl : x = '*' := Option.some.inj hhead
        obtain rfl : a = [] := by
          rw [← List.length_eq_zero_iff]
          simp only [List.length_cons] at hall
          omega
        exact .here (hreads (hblock hb))
    · exact .star a hhead (hreads (hblock hb))

end RasterH3.Raster.Glob
