import RasterH3.Agg.Remap
import Mathlib.Data.List.Induction

/-!
# The table, the fallback and the rules

Read plainly, the last rule for a single category decides, else the first range that
contains it, else the default. A remapper does not read its rules: it gathers the single
ones into a map and the ranges into a list, tabulates the answers for small categories where
that pays, and falls back on the map and the list for all others.

The map keeps the last rule for a category because an insertion replaces what was there, and
the list of ranges keeps their order, with the ends of each put in order, so that it does
not matter which way a range runs. Both together are one invariant of the gathering, which
is an induction on the rules (`Gathered.Answers`). An entry of the table is computed as the
fallback would compute it, so how far the table reaches does not matter, nor whether there
is one.

`lookups_agree` has the three ways of looking a category up side by side, for any rules, in
any order, and any category.
-/

namespace RasterH3.Agg

namespace RemapRule

/-- The target that a rule for this single category gives. -/
def exactTarget (cat : Int64) : RemapRule → Option (Option Int64)
  | .exact src target => if src = cat then some target else none
  | .range _ _ _ => none

/-- The target that a rule for a range with this category gives, whichever way the range runs. -/
def rangeTarget (cat : Int64) : RemapRule → Option (Option Int64)
  | .exact _ _ => none
  | .range first last target =>
      if (first ≤ cat ∧ cat ≤ last) ∨ (last ≤ cat ∧ cat ≤ first) then some target else none

def plainReading (rules : List RemapRule) (unmappedAction : UnmappedAction) (cat : Int64) :
    Option Int64 :=
  match (rules.filterMap (exactTarget cat)).getLast? with
  | some target => target
  | none =>
      match (rules.filterMap (rangeTarget cat)).head? with
      | some target => target
      | none => unmappedAction.apply cat

end RemapRule

namespace CategoryRemapper

open RemapRule

/-- The map and the list answer for the rules read so far. -/
structure Gathered.Answers (g : Gathered) (rules : List RemapRule) : Prop where
  direct : ∀ cat, g.directMap.lookup cat = (rules.filterMap (exactTarget cat)).getLast?
  ranges : ∀ cat, (g.rangeRules.find? (RangeRule.contains · cat)).map (·.2.2) =
    (rules.filterMap (rangeTarget cat)).head?

/-- The ends are put in order. -/
theorem rangeRules_add (g : Gathered) (first last : Int64) (target : Option Int64) :
    ∃ rule : RangeRule, (g.add (.range first last target)).rangeRules = g.rangeRules ++ [rule] ∧
      rule.2.2 = target ∧ ∀ cat, rule.contains cat =
        decide ((first ≤ cat ∧ cat ≤ last) ∨ (last ≤ cat ∧ cat ≤ first)) := by
  by_cases hle : first ≤ last
  · refine ⟨(first, last, target), ?_, rfl, fun cat => ?_⟩
    · rw [Gathered.add, if_pos hle]
    · rw [Bool.eq_iff_iff]
      simp only [RangeRule.contains, Bool.and_eq_true, decide_eq_true_eq,
        Int64.le_iff_toInt_le] at hle ⊢
      omega
  · refine ⟨(last, first, target), ?_, rfl, fun cat => ?_⟩
    · rw [Gathered.add, if_neg hle]
    · rw [Bool.eq_iff_iff]
      simp only [RangeRule.contains, Bool.and_eq_true, decide_eq_true_eq,
        Int64.le_iff_toInt_le] at hle ⊢
      omega

theorem Gathered.Answers.add {g : Gathered} {rules : List RemapRule} (h : g.Answers rules)
    (rule : RemapRule) : (g.add rule).Answers (rules ++ [rule]) := by
  cases rule with
  | exact src target =>
    refine ⟨fun cat => ?_, fun cat => ?_⟩
    · rw [List.filterMap_append, Gathered.add]
      by_cases hcat : src = cat
      · subst hcat
        simp [AList.lookup_insert, exactTarget]
      · simp [AList.lookup_insert_ne (Ne.symm hcat), exactTarget, hcat, h.direct]
    · rw [List.filterMap_append]
      simpa [Gathered.add, rangeTarget] using h.ranges cat
  | range first last target =>
    obtain ⟨rule, hrules, rfl, hcontains⟩ := rangeRules_add g first last target
    refine ⟨fun cat => ?_, fun cat => ?_⟩
    · rw [List.filterMap_append]
      simpa [Gathered.add, exactTarget] using h.direct cat
    · rw [List.filterMap_append, List.head?_append, ← h.ranges cat, hrules, List.find?_append,
        Option.map_or, List.find?_singleton, hcontains]
      congr 1
      by_cases hin : (first ≤ cat ∧ cat ≤ last) ∨ (last ≤ cat ∧ cat ≤ first)
      · simp only [rangeTarget, List.filterMap_cons, List.filterMap_nil, if_pos hin,
          decide_eq_true hin]
        rfl
      · simp only [rangeTarget, List.filterMap_cons, List.filterMap_nil, if_neg hin,
          decide_eq_false hin]
        rfl

theorem answers_gather (rules : List RemapRule) : (gather rules).Answers rules := by
  induction rules using List.reverseRecOn with
  | nil => exact ⟨fun _ => AList.lookup_empty _, fun _ => rfl⟩
  | append_singleton rules rule ih =>
    rw [gather, List.foldl_append]
    exact ih.add rule

theorem lutEntry_eq (rules : List RemapRule) (unmappedAction : UnmappedAction) (cat : Int64) :
    lutEntry (gather rules) unmappedAction cat = plainReading rules unmappedAction cat := by
  have h := answers_gather rules
  rw [lutEntry, plainReading, ← h.direct cat, ← h.ranges cat]
  cases (gather rules).directMap.lookup cat with
  | some target => rfl
  | none => cases (gather rules).rangeRules.find? (RangeRule.contains · cat) <;> rfl

theorem remapRanges_eq (unmappedAction : UnmappedAction) (cat : Int64) (rules : List RangeRule) :
    remapRanges unmappedAction cat rules =
      match rules.find? (RangeRule.contains · cat) with
      | some rule => rule.2.2
      | none => unmappedAction.apply cat := by
  induction rules with
  | nil => rfl
  | cons rule rules ih =>
    rw [remapRanges, List.find?_cons]
    cases rule.contains cat with
    | true => rfl
    | false => exact ih

theorem remapFallback_eq (rules : List RemapRule) (unmappedAction : UnmappedAction)
    (cat : Int64) :
    (new rules unmappedAction).remapFallback cat = plainReading rules unmappedAction cat := by
  rw [← lutEntry_eq, remapFallback, lutEntry, remapRanges_eq]
  rfl

theorem mem_lut {rules : List RemapRule} {unmappedAction : UnmappedAction}
    {lut : List (Option Int64)} (h : (new rules unmappedAction).lut = some lut) (i : Nat)
    (hi : i < lut.length) : lut.get ⟨i, hi⟩ = plainReading rules unmappedAction (Int64.ofNat i) := by
  simp only [new] at h
  cases hbounds : (gather rules).bounds with
  | none =>
    rw [hbounds] at h
    cases h
  | some bounds =>
    rw [hbounds] at h
    simp only at h
    split at h
    next =>
      cases h
      rw [List.get_eq_getElem, List.getElem_map, List.getElem_range, lutEntry_eq]
    next => cases h

theorem remap_eq (rules : List RemapRule) (unmappedAction : UnmappedAction) (cat : Int64) :
    (new rules unmappedAction).remap cat = plainReading rules unmappedAction cat := by
  rw [remap]
  cases hlut : (new rules unmappedAction).lut with
  | none => exact remapFallback_eq rules unmappedAction cat
  | some lut =>
    simp only
    split
    next hin =>
      rw [mem_lut hlut]
      have hnonneg : 0 ≤ cat.toInt := Int64.le_iff_toInt_le.mp hin.1
      have hcat : Int64.ofNat cat.toInt.toNat = cat := by
        rw [← Int64.ofInt_eq_ofNat, Int.toNat_of_nonneg hnonneg, Int64.ofInt_toInt]
      rw [hcat]
    next => exact remapFallback_eq rules unmappedAction cat

/-- The table where it reaches, the fallback anywhere and the lookup give the target of the
rules. -/
theorem lookups_agree (rules : List RemapRule) (unmappedAction : UnmappedAction) (cat : Int64) :
    (new rules unmappedAction).remap cat = plainReading rules unmappedAction cat ∧
      (new rules unmappedAction).remapFallback cat = plainReading rules unmappedAction cat ∧
        ∀ lut ∈ (new rules unmappedAction).lut, ∀ i : Fin lut.length,
          lut.get i = plainReading rules unmappedAction (Int64.ofNat i) :=
  ⟨remap_eq rules unmappedAction cat, remapFallback_eq rules unmappedAction cat,
    fun _ hlut i => mem_lut hlut i i.2⟩

/-- A category and a range that runs backwards. -/
def fewRules : List RemapRule := [.exact 1 (some 5), .range 3 2 none]

theorem lookups_agree_few :
    ([some 0, some 5, none, none] : List (Option Int64)).get ⟨2, by decide⟩ =
      plainReading fewRules .passThrough (Int64.ofNat 2) :=
  (lookups_agree fewRules .passThrough 2).2.2 [some 0, some 5, none, none] (by decide +kernel)
    ⟨2, by decide⟩

end CategoryRemapper

end RasterH3.Agg
