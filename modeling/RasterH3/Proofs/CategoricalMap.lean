import RasterH3.Agg.Histogram
import RasterH3.Sedona.Merge
import RasterH3.Proofs.PartialCodec
import RasterH3.Proofs.MajorityOrder

/-!
# The categorical accumulator is a finite map

A history says how an accumulator came about: by updates and by merges with others that have
histories of their own. What each class holds is the sum of the positive weights in the
history; a weight that is not positive is passed over. Whether an operand had moved to its
table plays no part, and neither does the order in which a table is visited, because a class is
visited once.

The sum is formed in the order of the history, one addition for each weight and for each merge,
and an addition may round. Where none does it is the exact sum. Of the number type it is only
used that zero changes nothing and that positive weights stay positive, so what is said of the
sums holds of `f64` as it does of an ordered field.

The text shows shares, so it does not tell the weights apart from their multiples.
-/

namespace RasterH3.Agg.CategoricalAccumulator

open HashTable Sedona

variable {F : Type}

theorem lookup_eq_some {entries : List (Int64 × F)} (hnodup : (entries.map Prod.fst).Nodup)
    {k : Int64} {w : F} : entries.lookup k = some w ↔ (k, w) ∈ entries := by
  induction entries with
  | nil => simp
  | cons p entries ih =>
    rw [List.map_cons, List.nodup_cons] at hnodup
    rw [Table.lookup_cons, List.mem_cons]
    by_cases hk : p.1 = k
    · subst hk
      have hnot : (p.1, w) ∉ entries :=
        fun hmem => hnodup.1 (List.mem_map.mpr ⟨(p.1, w), hmem, rfl⟩)
      simp [hnot, Prod.ext_iff, eq_comm]
    · rw [if_neg hk, ih hnodup.2]
      constructor
      · exact Or.inr
      · rintro (rfl | hmem)
        · exact absurd rfl hk
        · exact hmem

theorem lookup_perm {l m : List (Int64 × F)} (hnodup : (l.map Prod.fst).Nodup) (h : l.Perm m)
    (k : Int64) : l.lookup k = m.lookup k := by
  have hnodup' : (m.map Prod.fst).Nodup := (h.map Prod.fst).nodup_iff.mp hnodup
  refine Option.ext fun w => ?_
  rw [lookup_eq_some hnodup, lookup_eq_some hnodup', h.mem_iff]

/-! ## What a class holds -/

section Content

variable [Zero F] [LinearOrder F]

/-- The weight of a class, zero if it has not been seen. -/
def weightOf (entries : List (Int64 × F)) (k : Int64) : F := (entries.lookup k).getD 0

def content (acc : CategoricalAccumulator F) (k : Int64) : F := weightOf acc.classes k

theorem classes_pos (acc : CategoricalAccumulator F) : ∀ p ∈ acc.classes, 0 < p.2 :=
  fun p hp => not_le.mp (acc.positive p hp)

theorem content_eq {acc : CategoricalAccumulator F} {p : Int64 × F} (hp : p ∈ acc.classes) :
    content acc p.1 = p.2 := by
  rw [content, weightOf, (lookup_eq_some acc.classes_nodup).mpr hp, Option.getD_some]

theorem weightOf_eq {entries : List (Int64 × F)} (hnodup : (entries.map Prod.fst).Nodup)
    {k : Int64} {w : F} (hw : 0 < w) : weightOf entries k = w ↔ (k, w) ∈ entries := by
  rw [← lookup_eq_some hnodup, weightOf]
  cases entries.lookup k with
  | none => simpa using hw.ne
  | some v => simp

/-- Positive weights say which classes there are. -/
theorem perm_of_weightOf {l m : List (Int64 × F)} (hl : (l.map Prod.fst).Nodup)
    (hm : (m.map Prod.fst).Nodup) (hlpos : ∀ p ∈ l, 0 < p.2) (hmpos : ∀ p ∈ m, 0 < p.2)
    (h : ∀ k, weightOf l k = weightOf m k) : l.Perm m := by
  refine (List.perm_ext_iff_of_nodup hl.of_map hm.of_map).mpr fun p => ?_
  constructor
  · intro hp
    have hw := hlpos p hp
    exact (weightOf_eq hm hw).mp ((h p.1).symm.trans ((weightOf_eq hl hw).mpr hp))
  · intro hp
    have hw := hmpos p hp
    exact (weightOf_eq hl hw).mp ((h p.1).trans ((weightOf_eq hm hw).mpr hp))

theorem content_pos {acc : CategoricalAccumulator F} {k : Int64}
    (h : k ∈ acc.classes.map Prod.fst) : 0 < content acc k := by
  obtain ⟨p, hp, rfl⟩ := List.mem_map.mp h
  exact content_eq hp ▸ classes_pos acc p hp

theorem content_of_not_mem {acc : CategoricalAccumulator F} {k : Int64}
    (h : k ∉ acc.classes.map Prod.fst) : content acc k = 0 := by
  rw [content, weightOf, Table.lookup_eq_none.mpr h]
  rfl

theorem content_pos_iff {acc : CategoricalAccumulator F} {k : Int64} :
    0 < content acc k ↔ k ∈ acc.classes.map Prod.fst := by
  refine ⟨fun hpos => ?_, content_pos⟩
  by_contra hnot
  rw [content_of_not_mem hnot] at hpos
  exact lt_irrefl _ hpos

end Content

section Sums

variable [AddZeroClass F] [LinearOrder F] [PositiveAdd F]

theorem content_updateWeighted (acc : CategoricalAccumulator F) (category : Int64) (weight : F)
    (k : Int64) : content (acc.updateWeighted category weight) k =
      content acc k + if category = k ∧ 0 < weight then weight else 0 := by
  rw [updateWeighted]
  split
  next hw => rw [if_neg fun h => absurd h.2 (not_lt.mpr hw), add_zero]
  next hw =>
    rw [content, weightOf, (acc.classes_add category hw).2.1 k, content, weightOf]
    by_cases hk : category = k
    · rw [if_pos hk, if_pos ⟨hk, not_le.mp hw⟩]
      cases acc.classes.lookup k <;> simp
    · rw [if_neg hk, if_neg fun h => hk h.1, add_zero]

theorem content_mergeIn {acc other : CategoricalAccumulator F} (hother : Built other)
    {order : List (Int64 × F)} (hvisits : other.Visits order) (k : Int64) :
    content (acc.mergeIn other order) k = content acc k + content other k := by
  have hperm := perm_of_visits hvisits
  have hnodup : (order.map Prod.fst).Nodup :=
    (hperm.map Prod.fst).nodup_iff.mpr other.classes_nodup
  rw [mergeIn]
  split
  next hzero =>
    have hnil := classes_eq_nil_of_total hother (beq_iff_eq.mp hzero)
    have hnone : content other k = 0 := content_of_not_mem (by rw [hnil]; exact List.not_mem_nil)
    rw [hnone, add_zero]
  next =>
    have hpos : ∀ p ∈ order, ¬ p.2 ≤ 0 := fun p hp => other.positive p (hperm.mem_iff.mp hp)
    have h := lookup_updateAll order acc k hpos hnodup
    rw [lookup_perm hnodup hperm k] at h
    simp only [content, weightOf, h]
    cases other.classes.lookup k with
    | none => exact (add_zero _).symm
    | some w => cases acc.classes.lookup k <;> simp

theorem content_merge {acc other : CategoricalAccumulator F} (hother : Built other)
    (k : Int64) : content (acc.merge other) k = content acc k + content other k :=
  content_mergeIn hother other.visits_classes k

end Sums

/-! ## Histories -/

/-- The operations that lead to an accumulator. -/
inductive History (F : Type) where
  | new
  | updateWeighted (history : History F) (category : Int64) (weight : F)
  | merge (history other : History F)

namespace History

section Given

variable [AddZeroClass F] [LinearOrder F] [PositiveAdd F]

/-- A merge visits the classes of a table in some order. -/
inductive LeadsTo : History F → CategoricalAccumulator F → Prop
  | new : LeadsTo .new .new
  | updateWeighted {history : History F} {acc : CategoricalAccumulator F} (category : Int64)
      (weight : F) : LeadsTo history acc →
      LeadsTo (.updateWeighted history category weight) (acc.updateWeighted category weight)
  | merge {history history' : History F} {acc other : CategoricalAccumulator F}
      {order : List (Int64 × F)} : LeadsTo history acc → LeadsTo history' other →
      other.Visits order → LeadsTo (.merge history history') (acc.mergeIn other order)

theorem LeadsTo.built {history : History F} {acc : CategoricalAccumulator F}
    (h : history.LeadsTo acc) : Built acc := by
  induction h with
  | new => exact .new
  | updateWeighted category weight _ ih => exact .updateWeighted category weight ih
  | merge _ _ hvisits ih ih' => exact .mergeIn ih ih' hvisits

/-- The weights given to a class, as far as they count, added up as they come. -/
def given (counts : F → Prop) [DecidablePred counts] (k : Int64) : History F → F
  | .new => 0
  | .updateWeighted history category weight =>
      history.given counts k + if category = k ∧ counts weight then weight else 0
  | .merge history other => history.given counts k + other.given counts k

/-- Every class holds the sum of the positive weights it was given. -/
theorem LeadsTo.content_eq {history : History F} {acc : CategoricalAccumulator F}
    (h : history.LeadsTo acc) (k : Int64) : content acc k = history.given (0 < ·) k := by
  induction h with
  | new => rfl
  | updateWeighted category weight _ ih => rw [content_updateWeighted, ih, given]
  | merge _ h' hvisits ih ih' => rw [content_mergeIn h'.built hvisits, ih, ih', given]

end Given

section Exact

variable {K : Type} [Field K] [LinearOrder K] [IsStrictOrderedRing K] {r : Rounding K}

/-- None of the additions that make up what the class was given rounds. -/
def AddsExactly (k : Int64) : History r.Number → Prop
  | .new => True
  | .updateWeighted history category weight =>
      history.AddsExactly k ∧
        (history.given (0 < ·) k).ExactAdd (if category = k ∧ 0 < weight then weight else 0)
  | .merge history other =>
      history.AddsExactly k ∧ other.AddsExactly k ∧
        (history.given (0 < ·) k).ExactAdd (other.given (0 < ·) k)

instance decidableAddsExactly (k : Int64) :
    ∀ history : History r.Number, Decidable (history.AddsExactly k)
  | .new => .isTrue trivial
  | .updateWeighted history _ _ =>
      @instDecidableAnd _ _ (decidableAddsExactly k history) inferInstance
  | .merge history other =>
      @instDecidableAnd _ _ (decidableAddsExactly k history)
        (@instDecidableAnd _ _ (decidableAddsExactly k other) inferInstance)

/-- The exact sum of the weights given to a class. -/
def sum (counts : r.Number → Prop) [DecidablePred counts] (k : Int64) : History r.Number → K
  | .new => 0
  | .updateWeighted history category weight =>
      history.sum counts k + if category = k ∧ counts weight then weight.val else 0
  | .merge history other => history.sum counts k + other.sum counts k

theorem AddsExactly.given_eq {history : History r.Number} {k : Int64}
    (h : history.AddsExactly k) : (history.given (0 < ·) k).val = history.sum (0 < ·) k := by
  induction history with
  | new => rfl
  | updateWeighted history category weight ih =>
    have hadd : (history.given (0 < ·) k +
        if category = k ∧ 0 < weight then weight else 0).val = _ := h.2
    rw [given, hadd, ih h.1, sum]
    split
    next => rfl
    next => rfl
  | merge history other ih ih' =>
    have hadd : (history.given (0 < ·) k + other.given (0 < ·) k).val = _ := h.2.2
    rw [given, hadd, ih h.1, ih' h.2.1, sum]

end Exact

end History

/-! ## The text -/

theorem pairwise_lt_of_sorted {entries : List (Int64 × F)}
    (hsorted : entries.Pairwise fun p q => p.1 ≤ q.1) (hnodup : (entries.map Prod.fst).Nodup) :
    (entries.map Prod.fst).Pairwise (· < ·) := by
  rw [List.pairwise_map]
  rw [List.nodup_iff_pairwise_ne, List.pairwise_map] at hnodup
  exact hsorted.imp₂ (fun _ _ hle hne => Int64.lt_of_le_of_ne hle hne) hnodup

section Text

variable {K : Type} [Field K] [LinearOrder K] [IsStrictOrderedRing K] [FloorRing K]
  {r : Rounding K}

/-- The text that lists the classes with the shares of these weights in the total. -/
def listing (total : r.Number) (keys : List Int64) (weight : Int64 → r.Number) : String :=
  "\x7b" ++ ", ".intercalate (keys.map fun k => histogramEntry k (fracI total (weight k))) ++
    "\x7d"

theorem histogramJson_eq {acc : CategoricalAccumulator r.Number}
    {order : List (Int64 × r.Number)} (hvisits : acc.Visits order) :
    ∃ keys : List Int64, keys.Pairwise (· < ·) ∧ (∀ k, k ∈ keys ↔ 0 < content acc k) ∧
      (SumsUp acc → acc.totalCount.val = (keys.map fun k => (content acc k).val).sum) ∧
        acc.histogramJson order = listing acc.totalCount keys (content acc) := by
  have hperm : (histogram order).Perm acc.classes :=
    (List.perm_insertionSort _ _).trans (perm_of_visits hvisits)
  have hnodup : ((histogram order).map Prod.fst).Nodup :=
    (hperm.map Prod.fst).nodup_iff.mpr acc.classes_nodup
  have hcontent : ∀ p ∈ histogram order, content acc p.1 = p.2 :=
    fun p hp => content_eq (hperm.mem_iff.mp hp)
  refine ⟨(histogram order).map Prod.fst,
    pairwise_lt_of_sorted (List.pairwise_insertionSort _ _) hnodup, fun k => ?_, fun hsums => ?_,
    ?_⟩
  · rw [(hperm.map Prod.fst).mem_iff, content_pos_iff]
  · rw [List.map_map, hsums, ← (hperm.map _).sum_eq]
    refine congrArg List.sum (List.map_congr_left fun p hp => ?_)
    rw [Function.comp_apply, hcontent p hp]
  · rw [listing, List.map_map, histogramJson]
    split
    next hnone =>
      have hnil : histogram order = [] :=
        List.eq_nil_of_length_eq_zero (hperm.length_eq.trans hnone)
      rw [hnil]
      rfl
    next =>
      have hentries : (histogram order).map
          (fun p => histogramEntry p.1 (fracI acc.totalCount p.2)) =
          (histogram order).map ((fun k => histogramEntry k
            (fracI acc.totalCount (content acc k))) ∘ Prod.fst) :=
        List.map_congr_left fun p hp => by rw [Function.comp_apply, hcontent p hp]
      rw [← hentries]
      rfl

/-- Whatever the history: each class once, with the sum of its positive weights, which is exact if
no addition rounds; and a text that lists the classes with the shares of these sums in the total,
which is the exact sum of them all if no addition rounds. -/
theorem classes_and_text (history : History r.Number) {acc : CategoricalAccumulator r.Number}
    (h : history.LeadsTo acc) :
    (acc.classes.map Prod.fst).Nodup ∧
      (∀ k, content acc k = history.given (0 < ·) k) ∧
      (∀ k, history.AddsExactly k → (content acc k).val = history.sum (0 < ·) k) ∧
        ∀ order, acc.Visits order →
          ∃ keys : List Int64, keys.Pairwise (· < ·) ∧
            (∀ k, k ∈ keys ↔ 0 < history.given (0 < ·) k) ∧
            (ExactlyBuilt acc → acc.totalCount.val =
              (keys.map fun k => (history.given (0 < ·) k).val).sum) ∧
              acc.histogramJson order =
                listing acc.totalCount keys fun k => history.given (0 < ·) k := by
  refine ⟨classes_nodup _, h.content_eq, fun k hexact => ?_, fun order hvisits => ?_⟩
  · rw [h.content_eq k]
    exact hexact.given_eq
  · simp only [← h.content_eq]
    obtain ⟨keys, hsorted, hkeys, htotal, htext⟩ := histogramJson_eq hvisits
    exact ⟨keys, hsorted, hkeys, fun hexact => htotal hexact.sumsUp, htext⟩

end Text

section Doubles

open Rounding

/-- One weight for class 7. -/
def sevenOnce (weight : ℚ) : History binary64.Number := .updateWeighted .new 7 (double weight)

/-- Two weights for class 7, one that is passed over, and a merge. -/
def sevenAndTwo : History binary64.Number :=
  .merge (.updateWeighted (.updateWeighted (sevenOnce 100) 7 (double 39)) 7 (double (-1)))
    (.updateWeighted .new 2 (double 661))

theorem classes_and_text_sevenAndTwo :
    ∃ acc : CategoricalAccumulator binary64.Number,
      acc.classes = [(7, double 139), (2, double 661)] ∧ (content acc 7).val = 139 ∧
        ∃ keys : List Int64, keys.Pairwise (· < ·) ∧
          (∀ k, k ∈ keys ↔ 0 < sevenAndTwo.given (0 < ·) k) ∧
            acc.histogramJson acc.classes =
              listing (double 800) keys fun k => sevenAndTwo.given (0 < ·) k := by
  let other : CategoricalAccumulator binary64.Number := new.updateWeighted 2 (double 661)
  let acc := (((new.updateWeighted 7 (double 100)).updateWeighted 7 (double 39)).updateWeighted 7
    (double (-1))).mergeIn other other.classes
  have hleads : sevenAndTwo.LeadsTo acc :=
    .merge (.updateWeighted _ _ (.updateWeighted _ _ (.updateWeighted _ _ .new)))
      (.updateWeighted _ _ .new) (visits_classes other)
  have htotal : acc.totalCount = double 800 := by decide +kernel
  obtain ⟨-, -, hexact, htext⟩ := classes_and_text sevenAndTwo hleads
  obtain ⟨keys, hsorted, hkeys, -, hlisting⟩ := htext acc.classes (visits_classes acc)
  rw [htotal] at hlisting
  refine ⟨acc, by decide +kernel, ?_, keys, hsorted, hkeys, hlisting⟩
  rw [hexact 7 (by decide +kernel)]
  decide +kernel

/-- A negative weight is passed over, one and two tenths do not make three, and the text of a
weight is that of its double. -/
theorem weights_are_not_summed_and_listed :
    content ((new : CategoricalAccumulator binary64.Number).updateWeighted 7 (double (-1))) 7 ≠
        (sevenOnce (-1)).given (fun _ => True) 7 ∧
      (content ((new.updateWeighted 7 (double (1 / 10))).updateWeighted 7 (double (2 / 10))) 7).val ≠
        (double (1 / 10)).val + (double (2 / 10)).val ∧
      (new.updateWeighted 7 (double 1)).histogramJson [(7, double 1)] =
        (new.updateWeighted 7 (double 2)).histogramJson [(7, double 2)] := by
  refine ⟨by decide +kernel, by decide +kernel, ?_⟩
  have hshare : fracI (double 1) (double 1) = fracI (double 2) (double 2) := by decide +kernel
  have hone : (new.updateWeighted 7 (double 1)).totalCount = double 1 := by decide +kernel
  have htwo : (new.updateWeighted 7 (double 2)).totalCount = double 2 := by decide +kernel
  unfold histogramJson
  rw [if_neg (by decide +kernel), if_neg (by decide +kernel), hone, htwo]
  show _ ++ ", ".intercalate [histogramEntry 7 (fracI _ _)] ++ _ =
    _ ++ ", ".intercalate [histogramEntry 7 (fracI _ _)] ++ _
  rw [hshare]

end Doubles

end RasterH3.Agg.CategoricalAccumulator
