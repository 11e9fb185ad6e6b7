import RasterH3.Agg.Majority
import RasterH3.Lib.Ladder

/-!
# When the majority does not depend on the order

Being tied is not transitive, so neither is beating a class: of three totals, each within
the tolerance of the next but not of the third, each can lose to another. What the walk of
`majority` then reports depends on where it starts. Among accumulators of one total it is a
function of the class weights exactly when one class beats every other one.

The total is summed up on its own, one weight after the other, and a rounding sum depends on the
order. So two histories can leave the same weights in every class and different totals, and then
the tolerance and the share differ as well. Both sums are what they should be if no addition
rounds (`ExactlyBuilt.total_val`), as with whole numbers of pixels. A single class needs no such
care, since its weight and the total go through the same additions.
-/

namespace RasterH3.Agg

open HashTable Rounding

namespace CategoricalAccumulator

variable {F : Type}

theorem perm_of_visits [Zero F] [LinearOrder F] {acc : CategoricalAccumulator F}
    {order : List (Int64 × F)} (h : acc.Visits order) : order.Perm acc.classes := by
  unfold Visits at h
  unfold classes classesOf
  cases hheap : acc.heapCounts with
  | some heap =>
      rw [hheap] at h
      exact h
  | none =>
      rw [hheap] at h
      exact h ▸ List.Perm.refl order

theorem visits_classes [Zero F] [LinearOrder F] (acc : CategoricalAccumulator F) :
    acc.Visits acc.classes := by
  rw [Visits.eq_def, classes, classesOf.eq_def]
  cases acc.heapCounts with
  | none => rfl
  | some heap => exact .refl _

/-! ## What updates and merges add up to -/

section Entries

variable [Zero F] [LE F] [Add F] [PositiveAdd F]

/-- Wherever the entries are kept, the weight is added to its class or the class is appended. -/
theorem classesOf_addEntry {inlineEntries : List (Int64 × F)}
    (hnodup : (inlineEntries.map Prod.fst).Nodup) (heapCounts : Option (Table Int64 F))
    (k : Int64) {w : F} (hw : ¬ w ≤ 0) :
    classesOf (addEntry inlineEntries heapCounts k w).1 (addEntry inlineEntries heapCounts k w).2 =
      if k ∈ (classesOf inlineEntries heapCounts).map Prod.fst then
        Table.mapAt k (· + w) (classesOf inlineEntries heapCounts)
      else classesOf inlineEntries heapCounts ++ [(k, w)] := by
  cases heapCounts with
  | some heap =>
    rw [addEntry, classesOf, Table.entries_upsert, PositiveAdd.zero_add w hw]
    rfl
  | none =>
    rw [addEntry, show classesOf inlineEntries none = inlineEntries from rfl]
    by_cases hmem : k ∈ inlineEntries.map Prod.fst
    · rw [if_pos hmem, if_pos hmem]
      rfl
    rw [if_neg hmem, if_neg hmem]
    split
    · rfl
    · exact spillTable_entries (Table.keys_append_nodup w hnodup hmem)

theorem classes_add_eq (acc : CategoricalAccumulator F) (k : Int64) {w : F} (hw : ¬ w ≤ 0) :
    (acc.add k w hw).classes =
      if k ∈ acc.classes.map Prod.fst then Table.mapAt k (· + w) acc.classes
      else acc.classes ++ [(k, w)] :=
  classesOf_addEntry acc.inline_nodup acc.heapCounts k hw

variable [DecidableLE F]

theorem classes_updateAll_of_fresh (entries : List (Int64 × F)) (acc : CategoricalAccumulator F)
    (hnodup : ((acc.classes ++ entries).map Prod.fst).Nodup) (hpos : ∀ p ∈ entries, ¬ p.2 ≤ 0) :
    (acc.updateAll entries).classes = acc.classes ++ entries := by
  induction entries generalizing acc with
  | nil => simp [updateAll]
  | cons p entries ih =>
    have hw := hpos p List.mem_cons_self
    have hfresh : p.1 ∉ acc.classes.map Prod.fst := by
      rw [List.map_append, List.map_cons, List.nodup_append] at hnodup
      exact fun hmem => hnodup.2.2 _ hmem _ List.mem_cons_self rfl
    have hstep : (acc.add p.1 p.2 hw).classes = acc.classes ++ [p] := by
      rw [classes_add_eq, if_neg hfresh]
    have hrest := ih (acc.add p.1 p.2 hw) (by rw [hstep]; simpa using hnodup)
      fun q hq => hpos q (List.mem_cons_of_mem _ hq)
    rw [updateAll, List.foldl_cons, ← updateAll, updateWeighted, dif_neg hw, hrest, hstep,
      List.append_assoc, List.singleton_append]

end Entries

/-! ## Histories -/

section Built

variable [Zero F] [LinearOrder F] [Add F] [PositiveAdd F]

/-- What samples and merges can build, whatever order the tables are visited in. -/
inductive Built : CategoricalAccumulator F → Prop
  | new : Built new
  | updateWeighted {acc : CategoricalAccumulator F} (category : Int64) (weight : F) :
      Built acc → Built (acc.updateWeighted category weight)
  | mergeIn {acc other : CategoricalAccumulator F} {order : List (Int64 × F)} :
      Built acc → Built other → other.Visits order → Built (acc.mergeIn other order)

theorem Built.merge {acc other : CategoricalAccumulator F} (h : Built acc) (h' : Built other) :
    Built (acc.merge other) := .mergeIn h h' other.visits_classes

theorem Built.updateAll {acc : CategoricalAccumulator F} (h : Built acc)
    (entries : List (Int64 × F)) : Built (acc.updateAll entries) := by
  induction entries generalizing acc with
  | nil => exact h
  | cons p entries ih => exact ih (h.updateWeighted p.1 p.2)

theorem keeps_updateWeighted {P : CategoricalAccumulator F → Prop}
    (hadd : ∀ acc k w, ∀ hw : ¬ w ≤ 0, P acc → P (acc.add k w hw))
    {acc : CategoricalAccumulator F} (h : P acc) (category : Int64) (weight : F) :
    P (acc.updateWeighted category weight) := by
  rw [CategoricalAccumulator.updateWeighted]
  split
  next => exact h
  next hw => exact hadd acc category weight hw h

theorem keeps_updateAll {P : CategoricalAccumulator F → Prop}
    (hadd : ∀ acc k w, ∀ hw : ¬ w ≤ 0, P acc → P (acc.add k w hw)) (entries : List (Int64 × F)) :
    ∀ {acc : CategoricalAccumulator F}, P acc → P (acc.updateAll entries) := by
  induction entries with
  | nil => exact fun h => h
  | cons p entries ih => exact fun h => ih (keeps_updateWeighted hadd h p.1 p.2)

/-- What every addition keeps, every history keeps. -/
theorem Built.keeps {P : CategoricalAccumulator F → Prop} (hnew : P CategoricalAccumulator.new)
    (hadd : ∀ acc k w, ∀ hw : ¬ w ≤ 0, P acc → P (acc.add k w hw))
    {acc : CategoricalAccumulator F} (h : Built acc) : P acc := by
  induction h with
  | new => exact hnew
  | updateWeighted category weight _ ih => exact keeps_updateWeighted hadd ih category weight
  | @mergeIn acc other order _ _ _ ih _ =>
    rw [CategoricalAccumulator.mergeIn]
    split
    next => exact ih
    next => exact keeps_updateAll hadd order ih

/-- There is a total as soon as there is a class. -/
theorem Built.total_spec {acc : CategoricalAccumulator F} (h : Built acc) :
    (acc.classes = [] ∧ acc.totalCount = 0) ∨ (acc.classes ≠ [] ∧ 0 < acc.totalCount) := by
  refine Built.keeps (P := fun acc => (acc.classes = [] ∧ acc.totalCount = 0) ∨
    (acc.classes ≠ [] ∧ 0 < acc.totalCount)) (.inl ⟨rfl, rfl⟩) ?_ h
  intro acc k w hw ih
  refine .inr ⟨?_, ?_⟩
  · rw [classes_add_eq]
    split
    next hmem =>
      intro hnil
      rw [Table.mapAt, List.map_eq_nil_iff] at hnil
      rw [hnil] at hmem
      cases hmem
    next => exact List.append_ne_nil_of_right_ne_nil _ (List.cons_ne_nil _ _)
  · show 0 < acc.totalCount + w
    rcases ih with ⟨-, hzero⟩ | ⟨-, hpos⟩
    · rw [hzero, PositiveAdd.zero_add w hw]
      exact not_le.mp hw
    · exact not_le.mp (PositiveAdd.add_pos _ _ (not_le.mpr hpos) hw)

theorem classes_eq_nil_of_total {acc : CategoricalAccumulator F} (h : Built acc)
    (hzero : acc.totalCount = 0) : acc.classes = [] := by
  rcases h.total_spec with ⟨hnil, -⟩ | ⟨-, hpos⟩
  · exact hnil
  · exact absurd hzero hpos.ne'

/-- A single class has had every addition that the total has had. -/
theorem Built.total_single {acc : CategoricalAccumulator F} (h : Built acc) {p : Int64 × F}
    (hp : acc.classes = [p]) : acc.totalCount = p.2 := by
  have hkeep : (acc.classes = [] → acc.totalCount = 0) ∧
      ∀ p, acc.classes = [p] → acc.totalCount = p.2 := by
    refine Built.keeps (P := fun acc => (acc.classes = [] → acc.totalCount = 0) ∧
      ∀ p, acc.classes = [p] → acc.totalCount = p.2) ⟨fun _ => rfl, fun p hp => by cases hp⟩ ?_ h
    intro acc k w hw ih
    have hclasses := classes_add_eq acc k hw
    cases hold : acc.classes with
    | nil =>
      rw [hold, List.map_nil, if_neg List.not_mem_nil] at hclasses
      refine ⟨fun hnil => ?_, fun p hp => ?_⟩
      · rw [hclasses] at hnil
        cases hnil
      · rw [hclasses] at hp
        obtain rfl := (List.cons.inj hp).1
        show acc.totalCount + w = w
        rw [ih.1 hold, PositiveAdd.zero_add w hw]
    | cons q rest =>
      rw [hold] at hclasses
      refine ⟨fun hnil => ?_, fun p hp => ?_⟩
      · rw [hclasses] at hnil
        split at hnil
        next => cases hnil
        next => cases hnil
      · rw [hclasses] at hp
        split at hp
        next hmem =>
          obtain ⟨heq, hrest⟩ := List.cons.inj hp
          obtain rfl := List.map_eq_nil_iff.mp hrest
          have hk : q.1 = k := (List.mem_singleton.mp hmem).symm
          have hp : (q.1, q.2 + w) = p := by
            rw [← heq]
            exact (if_pos hk).symm
          rw [← hp]
          show acc.totalCount + w = q.2 + w
          rw [ih.2 q hold]
        next =>
          have hlen := congrArg List.length hp
          simp at hlen
  exact hkeep.2 p hp

end Built

/-! ## Sums that are exact -/

section Sums

variable {K : Type} [Field K]

/-- The value of a class grows by the weight, if that is what adding does to values. -/
theorem sum_mapAt [Add F] (value : F → K) {k : Int64} {w : F} {entries : List (Int64 × F)}
    (hadd : ∀ v, (k, v) ∈ entries → value (v + w) = value v + value w)
    (hnodup : (entries.map Prod.fst).Nodup) (hmem : k ∈ entries.map Prod.fst) :
    ((Table.mapAt k (· + w) entries).map fun p => value p.2).sum =
      (entries.map fun p => value p.2).sum + value w := by
  induction entries with
  | nil => cases hmem
  | cons p entries ih =>
    rw [List.map_cons, List.nodup_cons] at hnodup
    have hcons : Table.mapAt k (· + w) (p :: entries) =
        (if p.1 = k then (p.1, p.2 + w) else p) :: Table.mapAt k (· + w) entries := rfl
    by_cases heq : p.1 = k
    · have hrest : Table.mapAt k (· + w) entries = entries := by
        rw [Table.mapAt, List.map_congr_left (g := id), List.map_id]
        intro q hq
        rw [if_neg]
        · rfl
        · rintro hqk
          exact hnodup.1 (heq.trans hqk.symm ▸ List.mem_map_of_mem hq)
      have hvalue := hadd p.2 (by rw [← heq]; exact List.mem_cons_self)
      rw [hcons, hrest]
      simp only [heq, if_true, List.map_cons, List.sum_cons, hvalue]
      ring
    · have hmem' : k ∈ entries.map Prod.fst := by
        rcases List.mem_cons.mp hmem with hk | hk
        · exact absurd hk.symm heq
        · exact hk
      have hrest := ih (fun v hv => hadd v (List.mem_cons_of_mem _ hv)) hnodup.2 hmem'
      rw [hcons]
      simp only [heq, if_false, List.map_cons, List.sum_cons, hrest]
      ring

/-- One addition, when the value of the total and of the class grow by the weight. -/
theorem sum_add [Zero F] [LinearOrder F] [Add F] [PositiveAdd F] (value : F → K)
    {acc : CategoricalAccumulator F} {k : Int64} {w : F} (hw : ¬ w ≤ 0)
    (htotal : value (acc.totalCount + w) = value acc.totalCount + value w)
    (hadd : ∀ v, (k, v) ∈ acc.classes → value (v + w) = value v + value w)
    (h : value acc.totalCount = (acc.classes.map fun p => value p.2).sum) :
    value (acc.add k w hw).totalCount =
      ((acc.add k w hw).classes.map fun p => value p.2).sum := by
  rw [classes_add_eq]
  show value (acc.totalCount + w) = _
  rw [htotal, h]
  split
  next hmem => rw [sum_mapAt value hadd acc.classes_nodup hmem]
  next => simp

end Sums

section Totalled

variable [Field F] [LinearOrder F] [IsStrictOrderedRing F]

/-- In exact arithmetic the total is that of the classes. -/
def Totalled (acc : CategoricalAccumulator F) : Prop :=
  acc.totalCount = (acc.classes.map Prod.snd).sum

theorem totalled_add (acc : CategoricalAccumulator F) (k : Int64) (w : F) (hw : ¬ w ≤ 0)
    (h : Totalled acc) : Totalled (acc.add k w hw) :=
  sum_add id hw rfl (fun _ _ => rfl) h

theorem Totalled.updateAll {acc : CategoricalAccumulator F} (h : Totalled acc)
    (entries : List (Int64 × F)) : Totalled (acc.updateAll entries) :=
  keeps_updateAll totalled_add entries h

theorem Built.totalled {acc : CategoricalAccumulator F} (h : Built acc) : Totalled acc :=
  Built.keeps (P := Totalled) rfl totalled_add h

end Totalled

section Exactly

variable {K : Type} [Field K] [LinearOrder K] [IsStrictOrderedRing K] {r : Rounding K}

/-- Neither the total nor the class rounds when the weight is added. -/
def AddsExactly (acc : CategoricalAccumulator r.Number) (k : Int64) (w : r.Number) : Prop :=
  ¬ w ≤ 0 → acc.totalCount.ExactAdd w ∧ ∀ v, (k, v) ∈ acc.classes → v.ExactAdd w

def AddsAllExactly (acc : CategoricalAccumulator r.Number) : List (Int64 × r.Number) → Prop
  | [] => True
  | p :: entries =>
      AddsExactly acc p.1 p.2 ∧ AddsAllExactly (acc.updateWeighted p.1 p.2) entries

/-- What samples and merges can build without rounding. -/
inductive ExactlyBuilt : CategoricalAccumulator r.Number → Prop
  | new : ExactlyBuilt new
  | updateWeighted {acc : CategoricalAccumulator r.Number} (category : Int64) (weight : r.Number) :
      ExactlyBuilt acc → AddsExactly acc category weight →
      ExactlyBuilt (acc.updateWeighted category weight)
  | mergeIn {acc other : CategoricalAccumulator r.Number} {order : List (Int64 × r.Number)} :
      ExactlyBuilt acc → ExactlyBuilt other → other.Visits order → AddsAllExactly acc order →
      ExactlyBuilt (acc.mergeIn other order)

theorem ExactlyBuilt.built {acc : CategoricalAccumulator r.Number} (h : ExactlyBuilt acc) :
    Built acc := by
  induction h with
  | new => exact .new
  | updateWeighted category weight _ _ ih => exact .updateWeighted category weight ih
  | mergeIn _ _ hvisits _ ih ih' => exact .mergeIn ih ih' hvisits

/-- The total is the exact sum of the class weights. -/
def SumsUp (acc : CategoricalAccumulator r.Number) : Prop :=
  acc.totalCount.val = (acc.classes.map fun p => p.2.val).sum

theorem SumsUp.updateWeighted {acc : CategoricalAccumulator r.Number} (h : SumsUp acc)
    {k : Int64} {w : r.Number} (hexact : AddsExactly acc k w) :
    SumsUp (acc.updateWeighted k w) := by
  rw [CategoricalAccumulator.updateWeighted]
  split
  next => exact h
  next hw => exact sum_add (fun x : r.Number => x.val) hw (hexact hw).1 (hexact hw).2 h

theorem SumsUp.updateAll {entries : List (Int64 × r.Number)}
    {acc : CategoricalAccumulator r.Number} (h : SumsUp acc)
    (hexact : AddsAllExactly acc entries) : SumsUp (acc.updateAll entries) := by
  induction entries generalizing acc with
  | nil => exact h
  | cons p entries ih => exact ih (h.updateWeighted hexact.1) hexact.2

theorem ExactlyBuilt.sumsUp {acc : CategoricalAccumulator r.Number} (h : ExactlyBuilt acc) :
    SumsUp acc := by
  induction h with
  | new => rfl
  | updateWeighted category weight _ hexact ih => exact ih.updateWeighted hexact
  | mergeIn _ _ _ hexact ih _ =>
    rw [CategoricalAccumulator.mergeIn]
    split
    next => exact ih
    next => exact ih.updateAll hexact

end Exactly

/-! ## The walk is a ladder -/

section Walk

variable [LinearOrder F] [Neg F] [Sub F]

/-- `x` takes the lead from `y`. -/
def Beats (tieEps : F) (x y : Int64 × F) : Prop :=
  (y.2 < x.2 ∧ ¬ magnitude (x.2 - y.2) ≤ tieEps) ∨
    (magnitude (x.2 - y.2) ≤ tieEps ∧ x.1 < y.1)

instance (tieEps : F) : DecidableRel (Beats tieEps) := fun _ _ => by
  unfold Beats
  infer_instance

theorem foldl_visit (tieEps : F) (holder : Int64 × F) (rest : List (Int64 × F)) :
    rest.foldl (Leader.visit tieEps) ⟨holder.1, holder.2, true⟩ =
      ⟨(Ladder.play (Beats tieEps) holder rest).1, (Ladder.play (Beats tieEps) holder rest).2,
        true⟩ := by
  induction rest generalizing holder with
  | nil => rfl
  | cons x rest ih =>
    rw [List.foldl_cons, Ladder.play_cons]
    have hstep : Leader.visit tieEps ⟨holder.1, holder.2, true⟩ x =
        if Beats tieEps x holder then ⟨x.1, x.2, true⟩ else ⟨holder.1, holder.2, true⟩ := by
      simp [Leader.visit, Beats]
    rw [hstep]
    split
    next => exact ih x
    next => exact ih holder

variable [Zero F] [Mul F] [Div F] [RatCast F]

def share (totalCount count : F) : F :=
  if 0 < totalCount ∧ 0 < count then count / totalCount else 0

/-- Whoever is visited first takes the lead, and from there the ladder is played. -/
theorem majority_cons {acc : CategoricalAccumulator F} (holder : Int64 × F)
    (rest : List (Int64 × F)) (htotal : acc.totalCount ≠ 0) :
    acc.majority (holder :: rest) =
      let best := Ladder.play (Beats (tieEps acc.totalCount)) holder rest
      (best.1, best.2, share acc.totalCount best.2) := by
  have hfirst : Leader.visit (tieEps acc.totalCount) ⟨0, ((-1 : ℚ) : F), false⟩ holder =
      ⟨holder.1, holder.2, true⟩ := by
    simp [Leader.visit]
  simp only [majority, if_neg htotal, List.foldl_cons, hfirst, foldl_visit, share]

variable [SignedArithmetic F]

omit [Div F] in
theorem tieEps_nonneg (x : F) : 0 ≤ tieEps x :=
  SignedArithmetic.mul_nonneg _ _ (SignedArithmetic.magnitude_nonneg x)
    (SignedArithmetic.ratCast_nonneg _ (by norm_num))

omit [Div F] in
theorem beats_asymm {tieEps : F} (x y : Int64 × F) (h : Beats tieEps x y) :
    ¬ Beats tieEps y x := by
  have hcomm := SignedArithmetic.magnitude_sub_comm x.2 y.2
  rintro (⟨hlt, htie⟩ | ⟨htie, hid⟩)
  · rcases h with ⟨hlt', -⟩ | ⟨htie', -⟩
    · exact lt_asymm hlt hlt'
    · exact htie (hcomm ▸ htie')
  · rcases h with ⟨-, htie'⟩ | ⟨-, hid'⟩
    · exact htie' (hcomm ▸ htie)
    · exact Int64.lt_asymm hid hid'

omit [Div F] in
theorem beats_total {tieEps : F} (heps : 0 ≤ tieEps) {x y : Int64 × F} (hne : x.1 ≠ y.1) :
    Beats tieEps x y ∨ Beats tieEps y x := by
  have hcomm := SignedArithmetic.magnitude_sub_comm x.2 y.2
  by_cases htie : magnitude (x.2 - y.2) ≤ tieEps
  · rcases Int64.lt_or_lt_of_ne hne with hid | hid
    · exact .inl (.inr ⟨htie, hid⟩)
    · exact .inr (.inr ⟨hcomm ▸ htie, hid⟩)
  · rcases lt_trichotomy x.2 y.2 with hlt | heq | hlt
    · exact .inr (.inl ⟨hlt, hcomm ▸ htie⟩)
    · rw [heq, SignedArithmetic.magnitude_sub_self] at htie
      exact absurd heps htie
    · exact .inl (.inl ⟨hlt, htie⟩)

end Walk

end CategoricalAccumulator

open CategoricalAccumulator

/-! ## The majority as a function of the totals -/

/-- A finite map from classes to weights. -/
structure ClassTotals (F : Type) [Zero F] [LT F] where
  entries : List (Int64 × F)
  nodup : (entries.map Prod.fst).Nodup
  positive : ∀ p ∈ entries, 0 < p.2

namespace ClassTotals

section Majority

variable {F : Type} [Zero F] [LinearOrder F] [Neg F] [Sub F] [Mul F] [Div F] [RatCast F]

/-- Whichever accumulator has these totals, and wherever the walk starts, the answer is the
same, and up to the tolerance no total is larger. -/
def HasMajority (reached : CategoricalAccumulator F → Prop) (totals : ClassTotals F) : Prop :=
  ∃ cat cnt share, ∀ acc order, reached acc → acc.classes.Perm totals.entries →
    acc.Visits order → acc.majority order = (cat, cnt, share) ∧
      ∀ p ∈ totals.entries, (cat, cnt) ∈ totals.entries ∧
        (p.2 ≤ cnt ∨ magnitude (p.2 - cnt) ≤ tieEps acc.totalCount)

/-- A class that each other one is below by more than the tolerance, or tied with and has
the higher id. -/
def BeatsAll (totals : ClassTotals F) (total : F) (p : Int64 × F) : Prop :=
  Ladder.Champion (Beats (tieEps total)) totals.entries p

variable {totals : ClassTotals F}

omit [Neg F] [Sub F] [Mul F] [Div F] [RatCast F] in
theorem entries_nodup (totals : ClassTotals F) : totals.entries.Nodup := totals.nodup.of_map _

section Laws

variable [SignedArithmetic F]

omit [Div F] in
/-- Classes have different ids, so of two exactly one beats the other. -/
theorem decisive (totals : ClassTotals F) (total : F) :
    Ladder.Decisive (Beats (tieEps total)) totals.entries where
  asymm := beats_asymm
  total x hx y hy hne := by
    refine beats_total (tieEps_nonneg _) fun hid => hne ?_
    exact List.inj_on_of_nodup_map totals.nodup hx hy hid

/-- The class that beats all is what every walk ends with. -/
theorem majority_of_beatsAll {total : F} {p : Int64 × F} (h : totals.BeatsAll total p)
    {acc : CategoricalAccumulator F} (htotal : acc.totalCount = total) (hne : total ≠ 0)
    {order : List (Int64 × F)} (horder : order.Perm totals.entries) :
    acc.majority order = (p.1, p.2, share total p.2) := by
  cases order with
  | nil => exact absurd (horder.mem_iff.mpr h.1) List.not_mem_nil
  | cons holder rest =>
    rw [majority_cons holder rest (htotal ▸ hne), htotal,
      Ladder.play_of_champion beats_asymm (h.perm horder.symm)]

omit [Div F] in
/-- Nothing beats the class, so nothing is larger by more than the tolerance. -/
theorem le_of_beatsAll {total : F} {p : Int64 × F} (h : totals.BeatsAll total p) {q : Int64 × F}
    (hq : q ∈ totals.entries) : q.2 ≤ p.2 ∨ magnitude (q.2 - p.2) ≤ tieEps total := by
  by_cases heq : q = p
  · exact .inl (heq ▸ le_rfl)
  · rcases h.2 q hq heq with ⟨hlt, -⟩ | ⟨htie, -⟩
    · exact .inl hlt.le
    · exact .inr (SignedArithmetic.magnitude_sub_comm p.2 q.2 ▸ htie)

variable [Add F] [PositiveAdd F]

/-- Where the totals are those of one sum, a class that beats all is the majority. -/
theorem hasMajority_of_beatsAll {reached : CategoricalAccumulator F → Prop} {total : F}
    (hreached : ∀ acc, reached acc → acc.classes.Perm totals.entries →
      Built acc ∧ acc.totalCount = total) {p : Int64 × F} (h : totals.BeatsAll total p) :
    totals.HasMajority reached := by
  refine ⟨p.1, p.2, share total p.2, fun acc order hacc hperm hvisits => ⟨?_, fun q hq => ⟨h.1, ?_⟩⟩⟩
  · obtain ⟨hbuilt, htotal⟩ := hreached acc hacc hperm
    refine majority_of_beatsAll h htotal ?_ ((perm_of_visits hvisits).trans hperm)
    rcases hbuilt.total_spec with ⟨hnil, -⟩ | ⟨-, hpos⟩
    · rw [hnil] at hperm
      exact absurd (hperm.mem_iff.mpr h.1) List.not_mem_nil
    · exact htotal ▸ hpos.ne'
  · rw [(hreached acc hacc hperm).2]
    exact le_of_beatsAll h hq

omit [SignedArithmetic F] in
theorem hasMajority_of_empty {reached : CategoricalAccumulator F → Prop}
    (hreached : ∀ acc, reached acc → Built acc) (hnil : totals.entries = []) :
    totals.HasMajority reached := by
  refine ⟨0, 0, 0, fun acc order hacc hperm _ => ⟨?_, by simp [hnil]⟩⟩
  rw [hnil] at hperm
  rcases (hreached acc hacc).total_spec with ⟨-, hzero⟩ | ⟨hne, -⟩
  · rw [majority, if_pos hzero]
  · exact absurd hperm.eq_nil hne

/-- One class at the most: any history, rounding or not. -/
theorem hasMajority_of_single (h : totals.entries.length ≤ 1) : totals.HasMajority Built := by
  cases hentries : totals.entries with
  | nil => exact hasMajority_of_empty (fun _ hacc => hacc) hentries
  | cons p rest =>
    have hrest : rest = [] := by
      rw [hentries, List.length_cons] at h
      exact List.eq_nil_of_length_eq_zero (by omega)
    have hone : totals.entries = [p] := by rw [hentries, hrest]
    have hbeats : totals.BeatsAll p.2 p := by
      rw [BeatsAll, hone]
      exact ⟨List.mem_singleton_self p, fun q hq hne => absurd (List.mem_singleton.mp hq) hne⟩
    refine hasMajority_of_beatsAll (fun acc hacc hperm => ⟨hacc, ?_⟩) hbeats
    rw [hone] at hperm
    exact hacc.total_single (List.perm_singleton.mp hperm)

end Laws

end Majority

/-! ## Histories that do not round -/

section Exactly

variable {K : Type} [Field K] [LinearOrder K] [IsStrictOrderedRing K] {r : Rounding K}
  {totals : ClassTotals r.Number}

/-- The sum of the weights, in the format. -/
def total (totals : ClassTotals r.Number) : r.Number :=
  .of r (totals.entries.map fun p => p.2.val).sum

theorem total_eq {acc : CategoricalAccumulator r.Number} (hacc : ExactlyBuilt acc)
    (hperm : acc.classes.Perm totals.entries) : acc.totalCount = totals.total := by
  refine Rounding.Number.ext ?_
  have hsum : acc.totalCount.val = (totals.entries.map fun p => p.2.val).sum := by
    rw [hacc.sumsUp, (hperm.map _).sum_eq]
  show acc.totalCount.val = r.round (totals.entries.map fun p => p.2.val).sum
  rw [← hsum]
  exact acc.totalCount.property.symm

/-- Every sum of some of the weights is in the format. -/
def SumsExact (totals : ClassTotals r.Number) : Prop :=
  ∀ l : List (Int64 × r.Number), l.Subperm totals.entries →
    r.round (l.map fun p => p.2.val).sum = (l.map fun p => p.2.val).sum

/-- Then the classes can have arrived in any order. -/
theorem exists_exactlyBuilt (hexact : totals.SumsExact) {order : List (Int64 × r.Number)}
    (hperm : order.Perm totals.entries) :
    ∃ acc : CategoricalAccumulator r.Number, ExactlyBuilt acc ∧ acc.classes = order := by
  have hnodup : (order.map Prod.fst).Nodup :=
    (hperm.map Prod.fst).nodup_iff.mpr totals.nodup
  have hpos : ∀ p ∈ order, ¬ p.2 ≤ 0 := fun p hp =>
    not_le.mpr (totals.positive p (hperm.mem_iff.mp hp))
  suffices h : ∀ (rest : List (Int64 × r.Number)) (acc : CategoricalAccumulator r.Number),
      ExactlyBuilt acc → acc.classes ++ rest = order →
      ∃ acc' : CategoricalAccumulator r.Number, ExactlyBuilt acc' ∧ acc'.classes = order from
    h order new .new rfl
  intro rest
  induction rest with
  | nil =>
    intro acc hacc heq
    exact ⟨acc, hacc, by rwa [List.append_nil] at heq⟩
  | cons p rest ih =>
    intro acc hacc heq
    have hw : ¬ p.2 ≤ 0 := hpos p (heq ▸ List.mem_append_right _ List.mem_cons_self)
    have hfresh : p.1 ∉ acc.classes.map Prod.fst := by
      rw [← heq, List.map_append, List.map_cons, List.nodup_append] at hnodup
      exact fun hmem => hnodup.2.2 _ hmem _ List.mem_cons_self rfl
    have hclasses : (acc.updateWeighted p.1 p.2).classes = acc.classes ++ [p] := by
      rw [CategoricalAccumulator.updateWeighted, dif_neg hw, classes_add_eq, if_neg hfresh]
    refine ih _ (.updateWeighted p.1 p.2 hacc fun _ => ⟨?_, ?_⟩) ?_
    · -- the sum of the classes so far and of the new one
      have hsub : (acc.classes ++ [p]).Subperm totals.entries := by
        refine List.Subperm.trans (List.Sublist.subperm ?_) hperm.subperm
        rw [← heq]
        exact List.sublist_append_left (acc.classes ++ [p]) rest |>.trans (by simp)
      have hround := hexact _ hsub
      rw [List.map_append, List.sum_append, ← hacc.sumsUp, List.map_singleton,
        List.sum_singleton] at hround
      exact hround
    · exact fun v hv => absurd (List.mem_map_of_mem hv) hfresh
    · rw [hclasses, List.append_assoc]
      exact heq

theorem exists_beatsAll (hexact : totals.SumsExact) (hne : totals.entries ≠ [])
    (h : totals.HasMajority ExactlyBuilt) : ∃ p, totals.BeatsAll totals.total p := by
  obtain ⟨cat, cnt, share, hsame⟩ := h
  refine ⟨(cat, cnt),
    (Ladder.play_same_iff hne totals.entries_nodup (totals.decisive _) _).mp ?_⟩
  intro holder rest hperm
  obtain ⟨acc, hacc, hclasses⟩ := exists_exactlyBuilt hexact hperm
  have hperm' : acc.classes.Perm totals.entries := hclasses ▸ hperm
  have hmajority := (hsame acc _ hacc hperm' (visits_classes acc)).1
  have htotal : acc.totalCount ≠ 0 := by
    rcases hacc.built.total_spec with ⟨hnil, -⟩ | ⟨-, hpos⟩
    · rw [hclasses] at hnil
      cases hnil
    · exact hpos.ne'
  rw [hclasses, majority_cons holder rest htotal, total_eq hacc hperm', Prod.mk.injEq,
    Prod.mk.injEq] at hmajority
  exact Prod.ext hmajority.1 hmajority.2.1

/-- A single class is the majority after any history. Of several, a class that beats all is the
majority after any history that does not round, and where no sum of the weights rounds there is
a majority for no other reason. -/
theorem hasMajority_iff (totals : ClassTotals r.Number) :
    (totals.entries.length ≤ 1 → totals.HasMajority Built) ∧
      ((∃ p, totals.BeatsAll totals.total p) → totals.HasMajority ExactlyBuilt) ∧
      (totals.SumsExact → totals.HasMajority ExactlyBuilt →
        totals.entries = [] ∨ ∃ p, totals.BeatsAll totals.total p) := by
  refine ⟨hasMajority_of_single, ?_, ?_⟩
  · rintro ⟨p, hp⟩
    exact hasMajority_of_beatsAll (fun acc hacc hperm => ⟨hacc.built, total_eq hacc hperm⟩) hp
  · intro hexact h
    by_cases hnil : totals.entries = []
    · exact .inl hnil
    · exact .inr (exists_beatsAll hexact hnil h)

end Exactly

/-! ## In `f64` -/

def clear : ClassTotals binary64.Number where
  entries := [(1, double 2), (2, double 5), (3, double 1)]
  nodup := by decide
  positive := by decide +kernel

theorem hasMajority_clear : clear.HasMajority ExactlyBuilt :=
  clear.hasMajority_iff.2.1 ⟨(2, double 5), by simp [clear], by decide +kernel⟩

/-- Class 2 is tied with its neighbours, which are not tied with each other. -/
def nearTies : ClassTotals binary64.Number where
  entries := [(3, double 1000000004), (2, double 1000000002), (1, double 1000000000)]
  nodup := by decide
  positive := by decide +kernel

/-- In this order the total is 6/10, and in the opposite one it is the next `f64`. -/
def tenths : ClassTotals binary64.Number where
  entries := [(3, double (3 / 10)), (2, double (2 / 10)), (1, double (1 / 10))]
  nodup := by decide
  positive := by decide +kernel

/-- Seen in one order the majority of the near ties is class 1, in the opposite one it is class 3.
The share of the tenths is another in each order. -/
theorem nearTies_depends_on_order : ¬ nearTies.HasMajority Built ∧ ¬ tenths.HasMajority Built := by
  refine ⟨?_, ?_⟩
  · rintro ⟨cat, cnt, share, hsame⟩
    have hdown := (hsame (new.updateAll nearTies.entries) _
      (Built.new.updateAll _) (by decide +kernel) (visits_classes _)).1
    have hup := (hsame (new.updateAll nearTies.entries.reverse) _
      (Built.new.updateAll _) (by decide +kernel) (visits_classes _)).1
    exact absurd (hdown.trans hup.symm) (by decide +kernel)
  · rintro ⟨cat, cnt, share, hsame⟩
    have hdown := (hsame (new.updateAll tenths.entries) _
      (Built.new.updateAll _) (by decide +kernel) (visits_classes _)).1
    have hup := (hsame (new.updateAll tenths.entries.reverse) _
      (Built.new.updateAll _) (by decide +kernel) (visits_classes _)).1
    exact absurd (hdown.trans hup.symm) (by decide +kernel)

end ClassTotals

end RasterH3.Agg
