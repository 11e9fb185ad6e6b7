import RasterH3.Agg.Moments
import Mathlib.Data.Rat.Encodable

/-!
# The accumulator computes the moments of its samples

An accumulator holds a count, a sum, two extremes, a sum of squared weights and the sum of
squared differences from the mean. The first four are sums and extremes over the samples,
and it is plain that they may be combined in any order. The last is not: it is updated with
a mean that moves, by four formulas for four situations, a whole sample, a weighted one, a
slice in two passes and another accumulator.

So the reference looks at the multiset of all samples at once (`Moments`). Each of the
formulas agrees with it, which is an identity between rational functions of the two halves
and is proved where `WeightedSamples` has the sums; the way the samples were split and
combined does not show. Weights are positive, as the callers see to. It follows that an
accumulator has a count of zero only if it has seen nothing, and the branches that ask for a
count decide whether there is a sample.

An affine map of the accumulator is one of the samples. The sums follow by algebra, and the
extremes change places when the factor is negative, which is the branch that the code has
for it. An empty accumulator keeps its infinite extremes.

`Computes` is any way of splitting and combining, and `computes_moments` the induction over
it. The arithmetic is exact.
-/

namespace RasterH3.Agg

open WeightedSamples H3Accumulator

variable {F : Type} [LinearOrder F]

/-! ## Extremes -/

def lowest (S : Multiset (F × F)) : Extended F := (S.map fun p => Extended.ofValue p.1).inf

def highest (S : Multiset (F × F)) : Extended F := (S.map fun p => Extended.ofValue p.1).sup

section Extremes

variable {S T : Multiset (F × F)} {v w : F}

@[simp] theorem lowest_zero : lowest (0 : Multiset (F × F)) = ⊤ := rfl

@[simp] theorem highest_zero : highest (0 : Multiset (F × F)) = ⊥ := rfl

@[simp] theorem lowest_cons : lowest ((v, w) ::ₘ S) = lowest S ⊓ Extended.ofValue v := by
  simp [lowest, inf_comm]

@[simp] theorem highest_cons : highest ((v, w) ::ₘ S) = highest S ⊔ Extended.ofValue v := by
  simp [highest, sup_comm]

@[simp] theorem lowest_add : lowest (S + T) = lowest S ⊓ lowest T := by simp [lowest]

@[simp] theorem highest_add : highest (S + T) = highest S ⊔ highest T := by simp [highest]

theorem ofValue_min (x y : F) :
    Extended.ofValue (min x y) = Extended.ofValue x ⊓ Extended.ofValue y := rfl

theorem ofValue_max (x y : F) :
    Extended.ofValue (max x y) = Extended.ofValue x ⊔ Extended.ofValue y := rfl

end Extremes

variable [Field F] [IsStrictOrderedRing F]

theorem antitone_affine {a : F} (b : F) (ha : a < 0) : Antitone fun v : F => v * a + b :=
  fun _ _ h => by simpa using mul_le_mul_of_nonpos_right h ha.le

theorem monotone_affine {a : F} (b : F) (ha : ¬ a < 0) : Monotone fun v : F => v * a + b :=
  fun _ _ h => by simpa using mul_le_mul_of_nonneg_right h (not_lt.mp ha)

/-- The extremes of one or more samples, before and after an affine map. -/
theorem extremes_affine (a b : F) {S : Multiset (F × F)} (hne : S ≠ 0) :
    ∃ lo hi, lowest S = Extended.ofValue lo ∧ highest S = Extended.ofValue hi ∧
      lowest (affine a b S) = Extended.ofValue ((if a < 0 then hi else lo) * a + b) ∧
      highest (affine a b S) = Extended.ofValue ((if a < 0 then lo else hi) * a + b) := by
  induction S using Multiset.induction with
  | empty => exact absurd rfl hne
  | cons p S ih =>
    obtain ⟨v, w⟩ := p
    have hcons : affine a b ((v, w) ::ₘ S) = (v * a + b, w) ::ₘ affine a b S :=
      Multiset.map_cons _ _ _
    simp only [hcons, lowest_cons, highest_cons]
    by_cases hS : S = 0
    · subst hS
      exact ⟨v, v, by simp [affine]⟩
    obtain ⟨lo, hi, hlo, hhi, hlo', hhi'⟩ := ih hS
    refine ⟨min lo v, max hi v, by rw [hlo, ofValue_min], by rw [hhi, ofValue_max], ?_, ?_⟩
    · rw [hlo', ← ofValue_min]
      split
      next ha => exact congrArg _ ((antitone_affine b ha).map_max).symm
      next ha => exact congrArg _ ((monotone_affine b ha).map_min).symm
    · rw [hhi', ← ofValue_max]
      split
      next ha => exact congrArg _ ((antitone_affine b ha).map_min).symm
      next ha => exact congrArg _ ((monotone_affine b ha).map_max).symm

/-! ## The reference -/

/-- The accumulator holds the moments of `S`. -/
structure Moments (S : Multiset (F × F)) (acc : H3Accumulator F (Extended F)) : Prop where
  count : acc.count = weight S
  sum : acc.sum = weightedSum S
  min : acc.min = lowest S
  max : acc.max = highest S
  sumW2 : acc.sumW2 = weightSq S
  m2 : acc.m2 = scatter S

def Positive (S : Multiset (F × F)) : Prop := ∀ p ∈ S, 0 < p.2

variable {S T : Multiset (F × F)} {acc other : H3Accumulator F (Extended F)} {v w a b : F}

omit [IsStrictOrderedRing F] in
theorem positive_cons (hw : 0 < w) (h : Positive S) : Positive ((v, w) ::ₘ S) := by
  intro p hp
  rcases Multiset.mem_cons.mp hp with rfl | hp
  · exact hw
  · exact h p hp

omit [IsStrictOrderedRing F] in
theorem positive_add (hS : Positive S) (hT : Positive T) : Positive (S + T) :=
  fun p hp => (Multiset.mem_add.mp hp).elim (hS p) (hT p)

theorem positive_unit (vals : List F) : Positive (unit vals) := by
  intro p hp
  obtain ⟨v, -, rfl⟩ := List.mem_map.mp hp
  exact zero_lt_one

omit [IsStrictOrderedRing F] in
theorem positive_affine (h : Positive S) : Positive (affine a b S) := by
  intro p hp
  obtain ⟨q, hq, rfl⟩ := Multiset.mem_map.mp hp
  exact h q hq

theorem weight_nonneg (h : Positive S) : 0 ≤ weight S :=
  Multiset.sum_nonneg fun x hx => by
    obtain ⟨p, hp, rfl⟩ := Multiset.mem_map.mp hx
    exact (h p hp).le

theorem weight_pos (h : Positive S) (hne : S ≠ 0) : 0 < weight S := by
  obtain ⟨p, hp⟩ := Multiset.exists_mem_of_ne_zero hne
  obtain ⟨S, rfl⟩ := Multiset.exists_cons_of_mem hp
  have hS : 0 ≤ weight S := weight_nonneg fun q hq => h q (Multiset.mem_cons_of_mem hq)
  obtain ⟨v, w⟩ := p
  rw [weight_cons]
  linarith [h (v, w) (Multiset.mem_cons_self _ _)]

/-- An accumulator that has counted nothing has seen no sample. -/
theorem Moments.count_beq (h : Moments S acc) (hS : Positive S) :
    (acc.count == 0) = decide (S = 0) := by
  rw [h.count, Bool.eq_iff_iff, beq_iff_eq, decide_eq_true_iff]
  constructor
  · intro hzero
    by_contra hne
    exact (weight_pos hS hne).ne' hzero
  · rintro rfl
    exact weight_zero

/-! ## The updates -/

omit [IsStrictOrderedRing F] in
/-- The sketch is not among the moments. -/
theorem Moments.setQuantiles (h : Moments S acc) (quantiles : Option (QuantileSketch F)) :
    Moments S { acc with quantiles } :=
  ⟨h.count, h.sum, h.min, h.max, h.sumW2, h.m2⟩

omit [IsStrictOrderedRing F] in
theorem moments_empty : Moments (0 : Multiset (F × F)) H3Accumulator.empty :=
  ⟨rfl, rfl, rfl, rfl, rfl, rfl⟩

omit [IsStrictOrderedRing F] in
theorem moments_singleton (hw : w ≠ 0) (hcount : acc.count = w) (hsum : acc.sum = v * w)
    (hmin : acc.min = Extended.ofValue v) (hmax : acc.max = Extended.ofValue v)
    (hsumW2 : acc.sumW2 = w * w) (hm2 : acc.m2 = 0) : Moments ((v, w) ::ₘ 0) acc where
  count := by rw [hcount, weight_cons, weight_zero, zero_add]
  sum := by rw [hsum, weightedSum_cons, weightedSum_zero, zero_add]
  min := by rw [hmin, lowest_cons, lowest_zero, top_inf_eq]
  max := by rw [hmax, highest_cons, highest_zero, bot_sup_eq]
  sumW2 := by rw [hsumW2, weightSq_cons, weightSq_zero, zero_add]
  m2 := by rw [hm2, Multiset.cons_zero, scatter_singleton hw]

omit [IsStrictOrderedRing F] in
theorem foldl_min (vals : List F) (x : Extended F) :
    vals.foldl (fun m v => Extremes.min m (Extremes.ofValue v)) x = x ⊓ lowest (unit vals) := by
  induction vals generalizing x with
  | nil => exact (inf_top_eq x).symm
  | cons v vals ih =>
    rw [List.foldl_cons, ih, unit_cons, lowest_cons, inf_comm (lowest _), ← inf_assoc]
    rfl

omit [IsStrictOrderedRing F] in
theorem foldl_max (vals : List F) (x : Extended F) :
    vals.foldl (fun m v => Extremes.max m (Extremes.ofValue v)) x = x ⊔ highest (unit vals) := by
  induction vals generalizing x with
  | nil => exact (sup_bot_eq x).symm
  | cons v vals ih =>
    rw [List.foldl_cons, ih, unit_cons, highest_cons, sup_comm (highest _), ← sup_assoc]
    rfl

variable [Sample F] [ExactSample F]

theorem Moments.updateWeighted (h : Moments S acc) (hS : Positive S) (hw : 0 < w) :
    Moments ((v, w) ::ₘ S) (acc.updateWeighted v w) := by
  have hfinite : ¬ (¬ (Sample.isFinite w ∧ 0 < w) ∨ Sample.isFinite v = false) := by
    simp [ExactSample.isFinite, hw]
  rw [H3Accumulator.updateWeighted, if_neg hfinite]
  simp only [h.count_beq hS, decide_eq_true_iff]
  split
  next hzero =>
    subst hzero
    exact moments_singleton hw.ne' rfl rfl rfl rfl rfl rfl
  next hne =>
    have hW := weight_pos hS hne
    constructor
    · simp [h.count]
    · simp [h.sum]
    · rw [lowest_cons, ← h.min]
      rfl
    · rw [highest_cons, ← h.max]
      rfl
    · simp [h.sumW2]
    · simp only [h.count, h.sum, h.m2]
      rw [scatter_cons hW.ne' (add_pos hW hw).ne']

/-- A whole sample is one of weight 1. -/
theorem Moments.update (h : Moments S acc) (hS : Positive S) :
    Moments ((v, 1) ::ₘ S) (acc.update v) := by
  rw [H3Accumulator.update, if_neg (by simp [ExactSample.isFinite])]
  simp only [h.count_beq hS, decide_eq_true_iff]
  split
  next hzero =>
    subst hzero
    exact moments_singleton one_ne_zero rfl (mul_one v).symm rfl rfl (mul_one 1).symm rfl
  next hne =>
    have hW := weight_pos hS hne
    constructor
    · simp [h.count]
    · simp [h.sum]
    · rw [lowest_cons, ← h.min]
      rfl
    · rw [highest_cons, ← h.max]
      rfl
    · simp [h.sumW2]
    · simp only [h.count, h.sum, h.m2]
      rw [scatter_cons hW.ne' (add_pos hW zero_lt_one).ne', one_mul, mul_one]

omit [Sample F] [ExactSample F] in
theorem Moments.merge (h : Moments S acc) (h' : Moments T other) (hS : Positive S)
    (hT : Positive T) : Moments (S + T) (acc.merge other) := by
  rw [H3Accumulator.merge, h'.count_beq hT, h.count_beq hS]
  by_cases hzero' : T = 0
  · subst hzero'
    simpa using h
  by_cases hzero : S = 0
  · subst hzero
    simp only [decide_eq_true_iff, if_neg hzero', if_true, zero_add]
    exact ⟨h'.count, h'.sum, h'.min, h'.max, h'.sumW2, h'.m2⟩
  simp only [decide_eq_true_iff, if_neg hzero', if_neg hzero]
  have hW := weight_pos hS hzero
  have hW' := weight_pos hT hzero'
  constructor
  · simp [h.count, h'.count]
  · simp [h.sum, h'.sum]
  · rw [lowest_add, ← h.min, ← h'.min]
    rfl
  · rw [highest_add, ← h.max, ← h'.max]
    rfl
  · simp [h.sumW2, h'.sumW2]
  · simp only [h.count, h'.count, h.sum, h'.sum, h.m2, h'.m2]
    rw [scatter_add hW.ne' hW'.ne' (add_pos hW hW').ne']

/-! ## Slices -/

omit [IsStrictOrderedRing F] in
theorem moments_sliceStats (vals : List F) :
    Moments (unit vals) (sliceStats vals : H3Accumulator F (Extended F)) := by
  have hall : vals.filter Sample.isFinite = vals :=
    List.filter_eq_self.mpr fun v _ => ExactSample.isFinite v
  have hsum := foldl_add vals 0
  have hcount := foldl_count vals 0
  rw [zero_add] at hsum hcount
  rw [sliceStats, hall, hsum, hcount]
  constructor
  · rfl
  · rfl
  · exact (foldl_min vals ⊤).trans (top_inf_eq _)
  · exact (foldl_max vals ⊥).trans (bot_sup_eq _)
  · exact (weightSq_unit vals).symm
  · exact (foldl_scatter _ vals 0).trans (zero_add _)

theorem Moments.updateSlice (h : Moments S acc) (hS : Positive S) (vals : List F) :
    Moments (S + unit vals) (acc.updateSlice vals) := by
  rw [H3Accumulator.updateSlice]
  split
  next hnil =>
    rw [List.isEmpty_iff.mp hnil]
    exact (add_zero S).symm ▸ h
  next hne =>
    have hslice := moments_sliceStats vals
    have hone : unit vals ≠ 0 := fun hzero => hne (by simpa [unit] using hzero)
    simp only [hslice.count_beq (positive_unit vals), hone, decide_false, Bool.false_eq_true,
      if_false]
    exact (h.setQuantiles _).merge hslice hS (positive_unit vals)

/-! ## Affine maps -/

omit [Sample F] [ExactSample F] in
theorem Moments.applyAffine (h : Moments S acc) (hS : Positive S) (a b : F) :
    Moments (affine a b S) (acc.applyAffine a b) := by
  rw [H3Accumulator.applyAffine, h.count_beq hS]
  by_cases hzero : S = 0
  · subst hzero
    simpa [affine] using h
  simp only [decide_eq_true_iff, if_neg hzero]
  obtain ⟨lo, hi, hlo, hhi, hlo', hhi'⟩ := extremes_affine a b hzero
  constructor
  · rw [weight_affine, h.count]
  · rw [weightedSum_affine, h.sum, h.count]
  · rw [hlo', h.min, h.max, hlo, hhi]
    split <;> rfl
  · rw [hhi', h.min, h.max, hlo, hhi]
    split <;> rfl
  · rw [weightSq_affine, h.sumW2]
  · rw [scatter_affine (weight_pos hS hzero).ne', h.m2]

/-! ## Any way of splitting and combining -/

/-- The accumulator was computed from the samples `S`, split and combined in some way. -/
inductive Computes : Multiset (F × F) → H3Accumulator F (Extended F) → Prop
  | empty : Computes 0 H3Accumulator.empty
  | withQuantiles : Computes 0 H3Accumulator.withQuantiles
  | update {S : Multiset (F × F)} {acc : H3Accumulator F (Extended F)} (v : F) :
      Computes S acc → Computes ((v, 1) ::ₘ S) (acc.update v)
  | updateWeighted {S : Multiset (F × F)} {acc : H3Accumulator F (Extended F)} (v : F) {w : F}
      (hw : 0 < w) : Computes S acc → Computes ((v, w) ::ₘ S) (acc.updateWeighted v w)
  | updateSlice {S : Multiset (F × F)} {acc : H3Accumulator F (Extended F)} (vals : List F) :
      Computes S acc → Computes (S + unit vals) (acc.updateSlice vals)
  | merge {S T : Multiset (F × F)} {acc other : H3Accumulator F (Extended F)} :
      Computes S acc → Computes T other → Computes (S + T) (acc.merge other)
  | applyAffine {S : Multiset (F × F)} {acc : H3Accumulator F (Extended F)} (a b : F) :
      Computes S acc → Computes (affine a b S) (acc.applyAffine a b)

omit [ExactSample F] in
theorem Computes.positive (h : Computes S acc) : Positive S := by
  induction h with
  | empty | withQuantiles => exact fun p hp => absurd hp (Multiset.notMem_zero p)
  | update v _ ih => exact positive_cons zero_lt_one ih
  | updateWeighted v hw _ ih => exact positive_cons hw ih
  | updateSlice vals _ ih => exact positive_add ih (positive_unit vals)
  | merge _ _ ih ih' => exact positive_add ih ih'
  | applyAffine a b _ ih => exact positive_affine ih

theorem computes_moments (h : Computes S acc) : Moments S acc := by
  induction h with
  | empty => exact moments_empty
  | withQuantiles => exact moments_empty.setQuantiles _
  | update v hacc ih => exact ih.update hacc.positive
  | updateWeighted v hw hacc ih => exact ih.updateWeighted hacc.positive hw
  | updateSlice vals hacc ih => exact ih.updateSlice hacc.positive vals
  | merge hacc hother ih ih' => exact ih.merge ih' hacc.positive hother.positive
  | applyAffine a b hacc ih => exact ih.applyAffine hacc.positive a b

/-- A weighted sample, then a slice merged in, then the sign turned. -/
theorem computes_moments_threeSamples :
    Moments (affine (-1) 0 (((3, 2) ::ₘ (0 : Multiset (ℚ × ℚ))) + (0 + unit [1, 5])))
      (((empty.updateWeighted 3 2).merge (empty.updateSlice [1, 5])).applyAffine (-1) 0) :=
  computes_moments (.applyAffine _ _ (.merge (.updateWeighted 3 (by decide +kernel) .empty)
    (.updateSlice _ .empty)))

/-! ## Encoded rationals -/

instance : Bytes.Codec ℚ := .ofEncodable

instance : Bytes.Codec (Extended ℚ) :=
  @Bytes.Codec.ofEncodable (Extended ℚ) (inferInstanceAs (Encodable (Option (Option ℚ))))

end RasterH3.Agg
