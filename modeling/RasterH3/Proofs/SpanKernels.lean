import RasterH3.Agg.Simd
import RasterH3.Proofs.AccumulatorMoments

/-!
# The span kernels agree with the scalar fold

A span of pixels is summed by kernels that go over it twice, several lanes at a time, with a
test for valid pixels that is a few comparisons. What they should compute is said by a
scalar fold: each valid pixel updates an accumulator. Floating-point sums in another order
differ in their last digits; the agreement here is the one in exact arithmetic, which is
what the kernels were designed from.

Both are compared with the moments of the valid pixels of the span. The scalar fold has them
by the updates of the accumulator. For a kernel, a lane has those of the pixels it has seen
(`Lane.Holds`), the lanes together have seen the whole span, and a join of the lanes is a
sum of their samples (`kernel_moments`); the rest that does not fill a row of lanes is
another lane. The second pass sums squared deviations from the mean of the first, which is
the scatter if it takes the pixels that the first has counted.

That leaves two things for each kernel: that its tests say what `PixelValidity` says, and
that its extremes are those of the numbers (`Reading.Lawful`), although an integer kernel
starts from the ends of the type and not from the infinities. The tests differ where a
marker for missing data is itself no number, or where a slice has no marker, and each case
has a lemma.

A slice in which nothing is valid is skipped after a look at all of it, three pixels first;
that look says yes just if the fold would find nothing.
-/

namespace RasterH3.Agg

open WeightedSamples Lanes H3Accumulator

variable {F : Type} [Field F]

/-! ## The samples of a span -/

section Samples

variable {P : Type} (valid : P → Bool) (toF64 : P → F)

/-- One whole sample for each valid pixel. -/
def samples : Multiset P →+ Multiset (F × F) where
  toFun m := (m.filter fun v => valid v).map fun v => (toF64 v, 1)
  map_zero' := rfl
  map_add' m m' := by rw [Multiset.filter_add, Multiset.map_add]

variable {valid toF64}

theorem samples_cons (v : P) (m : Multiset P) :
    samples valid toF64 (v ::ₘ m) =
      if valid v then (toF64 v, 1) ::ₘ samples valid toF64 m else samples valid toF64 m := by
  split
  next h =>
    exact (congrArg (Multiset.map _) (Multiset.filter_cons_of_pos m h)).trans
      (Multiset.map_cons _ _ _)
  next h => exact congrArg (Multiset.map _) (Multiset.filter_cons_of_neg m h)

theorem samples_congr {valid' : P → Bool} {m : Multiset P} (h : ∀ v ∈ m, valid v = valid' v) :
    samples valid toF64 m = samples valid' toF64 m :=
  congrArg _ (Multiset.filter_congr fun v hv => by rw [h v hv])

theorem weight_samples (m : Multiset P) :
    weight (samples valid toF64 m) = (samples valid toF64 m).card := by
  induction m using Multiset.induction with
  | empty => exact Nat.cast_zero.symm
  | cons v m ih =>
      rw [samples_cons]
      split
      next => rw [weight_cons, ih, Multiset.card_cons, Nat.cast_succ]
      next => exact ih

theorem weightSq_samples (m : Multiset P) :
    weightSq (samples valid toF64 m) = weight (samples valid toF64 m) := by
  refine congrArg Multiset.sum (Multiset.map_congr rfl fun p hp => ?_)
  rcases Multiset.mem_map.mp hp with ⟨v, -, rfl⟩
  exact mul_one 1

/-- A span with as many samples as pixels is valid throughout. -/
theorem valid_of_card {m : Multiset P} (h : (samples valid toF64 m).card = m.card) :
    ∀ v ∈ m, valid v := by
  have hcard : (m.filter fun v => valid v).card = m.card := (Multiset.card_map _ _).symm.trans h
  exact Multiset.filter_eq_self.mp
    (Multiset.eq_of_le_of_card_le (Multiset.filter_le _ m) hcard.ge)

theorem positive_samples [LinearOrder F] [IsStrictOrderedRing F] (m : Multiset P) :
    Positive (samples valid toF64 m) := by
  intro p hp
  rcases Multiset.mem_map.mp hp with ⟨v, -, rfl⟩
  exact zero_lt_one

end Samples

/-! ## A span of one value -/

theorem scatterAbout_add (c : F) (S T : Multiset (F × F)) :
    scatterAbout c (S + T) = scatterAbout c S + scatterAbout c T := by simp [scatterAbout]

theorem scatter_of_forall_eq {S : Multiset (F × F)} {c : F} (h : ∀ p ∈ S, p.1 = c)
    (hweight : weight S ≠ 0) : scatter S = 0 := by
  have hsum : weightedSum S = c * weight S := by
    rw [weightedSum, weight, ← Multiset.sum_map_mul_left]
    exact congrArg _ (Multiset.map_congr rfl fun p hp => by rw [h p hp])
  have hmean : mean S = c := by rw [mean, hsum, mul_div_cancel_right₀ _ hweight]
  rw [scatter, hmean]
  refine Multiset.sum_eq_zero fun x hx => ?_
  rcases Multiset.mem_map.mp hx with ⟨p, hp, rfl⟩
  rw [h p hp, sub_self, mul_zero, mul_zero]

variable [LinearOrder F]

omit [Field F] in
theorem lowest_le {S : Multiset (F × F)} {p : F × F} (h : p ∈ S) :
    lowest S ≤ Extended.ofValue p.1 :=
  Multiset.inf_le (Multiset.mem_map_of_mem _ h)

omit [Field F] in
theorem le_highest {S : Multiset (F × F)} {p : F × F} (h : p ∈ S) :
    Extended.ofValue p.1 ≤ highest S :=
  Multiset.le_sup (Multiset.mem_map_of_mem _ h)

omit [Field F] in
/-- Where the extremes meet there is one value. -/
theorem eq_of_lowest_eq_highest {S : Multiset (F × F)} (h : lowest S = highest S)
    {p q : F × F} (hp : p ∈ S) (hq : q ∈ S) : p.1 = q.1 := by
  have hle : ∀ {p q : F × F}, p ∈ S → q ∈ S → p.1 ≤ q.1 := fun hp hq =>
    WithTop.coe_le_coe.mp (WithBot.coe_le_coe.mp
      ((le_highest hp).trans (h.symm.le.trans (lowest_le hq))))
  exact le_antisymm (hle hp hq) (hle hq hp)

/-! ## One lane -/

section Lanes

variable {P N : Type}

/-- The extremes that a kernel keeps are those of the numbers. -/
structure Reading.Lawful (r : Reading F (Extended F) P N) : Prop where
  asF64_min : ∀ a b, r.asF64 (r.min a b) = r.asF64 a ⊓ r.asF64 b
  asF64_max : ∀ a b, r.asF64 (r.max a b) = r.asF64 a ⊔ r.asF64 b
  asF64_ofPixel : ∀ v, r.asF64 (r.ofPixel v) = Extended.ofValue (r.toF64 v)
  le_top : ∀ v, Extended.ofValue (r.toF64 v) ≤ r.asF64 r.top
  bot_le : ∀ v, r.asF64 r.bot ≤ Extended.ofValue (r.toF64 v)

variable {r : Reading F (Extended F) P N} {valid : P → Bool} {S T : Multiset (F × F)}
  {lane : Lane F N}

/-- The lane has seen the samples `S`. -/
structure Lane.Holds (r : Reading F (Extended F) P N) (S : Multiset (F × F)) (lane : Lane F N) :
    Prop where
  count : lane.count = S.card
  sum : lane.sum = weightedSum S
  min : r.asF64 lane.min = lowest S ⊓ r.asF64 r.top
  max : r.asF64 lane.max = highest S ⊔ r.asF64 r.bot

theorem Lane.holds_new : Lane.Holds r 0 (Lane.new r) :=
  ⟨rfl, rfl, (top_inf_eq _).symm, (bot_sup_eq _).symm⟩

theorem Lane.Holds.add (hr : r.Lawful) (h : lane.Holds r S) (v : P) :
    (lane.add r v).Holds r ((r.toF64 v, 1) ::ₘ S) where
  count := by rw [Multiset.card_cons, ← h.count]; rfl
  sum := by rw [weightedSum_cons, ← h.sum, mul_one]; rfl
  min := (hr.asF64_min _ _).trans <| by
    rw [hr.asF64_ofPixel, h.min, lowest_cons, inf_right_comm]
  max := (hr.asF64_max _ _).trans <| by
    rw [hr.asF64_ofPixel, h.max, highest_cons, sup_right_comm]

theorem Lane.Holds.foldl (hr : r.Lawful) (h : lane.Holds r S) (valid : P → Bool) (xs : List P) :
    (xs.foldl (fun lane v => if valid v then lane.add r v else lane) lane).Holds r
      (S + samples valid r.toF64 xs) := by
  induction xs generalizing S lane with
  | nil => exact (add_zero S).symm ▸ h
  | cons v xs ih =>
      rw [List.foldl_cons, ← Multiset.cons_coe, samples_cons]
      split
      next =>
        rw [Multiset.add_cons, ← Multiset.cons_add]
        exact ih (h.add hr v)
      next => exact ih h

omit [LinearOrder F] in
theorem foldl_deviations (c : F) (xs : List P) (m2 : F) :
    xs.foldl
        (fun m2 v =>
          if valid v then
            let d := r.toF64 v - c
            m2 + d * d
          else m2) m2 =
      m2 + scatterAbout c (samples valid r.toF64 xs) := by
  induction xs generalizing m2 with
  | nil => exact (add_zero m2).symm
  | cons v xs ih =>
      rw [List.foldl_cons, ih, ← Multiset.cons_coe, samples_cons]
      split
      next => rw [scatterAbout_cons, one_mul, add_assoc, add_comm (scatterAbout _ _)]
      next => rfl

end Lanes

/-! ## Joining the lanes -/

section Kernel

variable {P N : Type} {w : Width} {r : Reading F (Extended F) P N} {valid : P → Bool}

theorem totalCount_eq (count : Fin w.size → Nat) :
    totalCount w count = w.tree (· + ·) count := by
  cases w with
  | four => rfl
  | eight => simp only [totalCount, Width.tree, Nat.add_assoc]

omit [LinearOrder F] in
/-- The samples of the lanes are those of the span. -/
theorem tree_samples (valid : P → Bool) (toF64 : P → F) (slice : List P) :
    w.tree (· + ·) (fun i => samples valid toF64 (lane w.size slice i)) =
      samples valid toF64 slice := by
  rw [Width.tree_add, ← map_sum, sum_lane]

def Lane.join (w : Width) (r : Reading F (Extended F) P N) (lanes : Fin w.size → Lane F N) :
    Lane F N :=
  { sum := w.tree (· + ·) fun i => (lanes i).sum
    min := w.tree r.min fun i => (lanes i).min
    max := w.tree r.max fun i => (lanes i).max
    count := totalCount w fun i => (lanes i).count }

theorem Lane.Holds.join (hr : r.Lawful) {lanes : Fin w.size → Lane F N}
    {S : Fin w.size → Multiset (F × F)} (h : ∀ i, (lanes i).Holds r (S i)) :
    (Lane.join w r lanes).Holds r (w.tree (· + ·) S) where
  count := calc
    totalCount w (fun i => (lanes i).count)
      = w.tree (· + ·) fun i => (S i).card := by simp only [totalCount_eq, (h _).count]
    _ = _ := (Width.map_tree Multiset.card Multiset.card_add S).symm
  sum := calc
    w.tree (· + ·) (fun i => (lanes i).sum)
      = w.tree (· + ·) fun i => weightedSum (S i) := by simp only [(h _).sum]
    _ = _ := (Width.map_tree weightedSum (fun _ _ => weightedSum_add) S).symm
  min := calc
    r.asF64 (w.tree r.min fun i => (lanes i).min)
      = w.tree (· ⊓ ·) fun i => r.asF64 (lanes i).min := Width.map_tree _ hr.asF64_min _
    _ = w.tree (· ⊓ ·) fun i => lowest (S i) ⊓ r.asF64 r.top := by simp only [(h _).min]
    _ = _ := (Width.map_tree (fun S => lowest S ⊓ r.asF64 r.top)
        (fun S T => by rw [lowest_add, inf_inf_distrib_right]) S).symm
  max := calc
    r.asF64 (w.tree r.max fun i => (lanes i).max)
      = w.tree (· ⊔ ·) fun i => r.asF64 (lanes i).max := Width.map_tree _ hr.asF64_max _
    _ = w.tree (· ⊔ ·) fun i => highest (S i) ⊔ r.asF64 r.bot := by simp only [(h _).max]
    _ = _ := (Width.map_tree (fun S => highest S ⊔ r.asF64 r.bot)
        (fun S T => by rw [highest_add, sup_sup_distrib_right]) S).symm

/-- The first pass: the lanes joined have seen the span. -/
theorem holds_firstPass (hr : r.Lawful) (w : Width) (valid : P → Bool) (slice : List P) :
    (Lane.join w r (accumulate (fun lane v => if valid v then lane.add r v else lane)
      (Lane.new r) slice)).Holds r (samples valid r.toF64 slice) := by
  rw [← @tree_samples F _ P w]
  refine Lane.Holds.join hr fun i => ?_
  rw [accumulate_apply]
  have hlane := (@Lane.holds_new F _ _ P N r).foldl hr valid (lane w.size slice i)
  rwa [zero_add] at hlane

omit [LinearOrder F] in
/-- The second pass: the squared deviations of the span. -/
theorem secondPass_eq (w : Width) (r : Reading F (Extended F) P N) (valid : P → Bool) (c : F)
    (slice : List P) :
    w.tree (· + ·)
        (accumulate
          (fun m2 v =>
            if valid v then
              let d := r.toF64 v - c
              m2 + d * d
            else m2) 0 slice) =
      scatterAbout c (samples valid r.toF64 slice) := by
  rw [← @tree_samples F _ P w, Width.map_tree (scatterAbout c) (scatterAbout_add c)]
  refine congrArg _ (funext fun i => ?_)
  rw [accumulate_apply, foldl_deviations, zero_add]

/-- What a kernel makes of the joined lanes and the second pass. -/
def Lane.stats (r : Reading F (Extended F) P N) (lane : Lane F N) (m2 : F) :
    H3Accumulator F (Extended F) :=
  if (lane.count : F) = 0 then .empty
  else if r.asF64 lane.min = r.asF64 lane.max then
    .fromStats lane.sum lane.count (r.asF64 lane.min) (r.asF64 lane.max) 0
  else .fromStats lane.sum lane.count (r.asF64 lane.min) (r.asF64 lane.max) m2

/-- With a sample, the start of the lanes does not show in the extremes. -/
theorem Lane.Holds.extremes (hr : r.Lawful) {m : Multiset P} {lane : Lane F N}
    (h : lane.Holds r (samples valid r.toF64 m)) (hne : samples valid r.toF64 m ≠ 0) :
    r.asF64 lane.min = lowest (samples valid r.toF64 m) ∧
      r.asF64 lane.max = highest (samples valid r.toF64 m) := by
  rcases Multiset.exists_mem_of_ne_zero hne with ⟨p, hp⟩
  rcases Multiset.mem_map.mp hp with ⟨v, -, rfl⟩
  exact ⟨h.min.trans (inf_eq_left.mpr ((lowest_le hp).trans (hr.le_top v))),
    h.max.trans (sup_eq_left.mpr ((hr.bot_le v).trans (le_highest hp)))⟩

variable [IsStrictOrderedRing F]

theorem Lane.Holds.moments (hr : r.Lawful) {m : Multiset P} {lane : Lane F N} {m2 : F}
    (h : lane.Holds r (samples valid r.toF64 m))
    (hm2 : m2 = scatterAbout (lane.sum / lane.count) (samples valid r.toF64 m)) :
    Moments (samples valid r.toF64 m) (lane.stats r m2) := by
  have hcount : (lane.count : F) = weight (samples valid r.toF64 m) := by
    rw [h.count, weight_samples]
  have hsq := @weightSq_samples F _ P valid r.toF64 m
  have hpos := @positive_samples F _ P valid r.toF64 _ _ m
  unfold Lane.stats
  split
  next hzero =>
    have hnone : samples valid r.toF64 m = 0 := by
      by_contra hne
      exact (weight_pos hpos hne).ne' (hcount.symm.trans hzero)
    rw [hnone]
    exact moments_empty
  next hnonzero =>
    have hweight : weight (samples valid r.toF64 m) ≠ 0 := hcount ▸ hnonzero
    have hne : samples valid r.toF64 m ≠ 0 := fun hnone => hweight (by rw [hnone, weight_zero])
    rcases h.extremes hr hne with ⟨hmin, hmax⟩
    split
    next huniform =>
      rcases Multiset.exists_mem_of_ne_zero hne with ⟨p, hp⟩
      have hequal : ∀ q ∈ samples valid r.toF64 m, q.1 = p.1 := fun q hq =>
        eq_of_lowest_eq_highest ((hmin.symm.trans huniform).trans hmax) hq hp
      exact ⟨hcount, h.sum, hmin, hmax, hcount.trans hsq.symm,
        (scatter_of_forall_eq hequal hweight).symm⟩
    next =>
      exact ⟨hcount, h.sum, hmin, hmax, hcount.trans hsq.symm, by
        rw [hm2, h.sum, hcount]; rfl⟩

/-- A kernel has the moments of the valid pixels, if its second pass takes the pixels that its
first pass has counted. -/
theorem kernel_moments (hr : r.Lawful) (w : Width) {valid2 : Nat → P → Bool} {slice : List P}
    (hvalid2 : ∀ v ∈ slice, valid2 (samples valid r.toF64 slice).card v = valid v) :
    Moments (samples valid r.toF64 slice) (kernel w r valid valid2 slice) := by
  have hfirst := holds_firstPass hr w valid slice
  refine hfirst.moments hr ?_
  rw [← samples_congr hvalid2, ← hfirst.count]
  exact secondPass_eq w r _ _ slice

omit [IsStrictOrderedRing F] in
theorem kernel_quantiles (w : Width) (valid2 : Nat → P → Bool) (slice : List P) :
    (kernel w r valid valid2 slice).quantiles = none := by
  unfold kernel
  simp only
  split
  next => rfl
  next =>
    split
    next => rfl
    next => rfl

end Kernel

/-! ## The readings -/

section Kernels

theorem floatReading_lawful (special : ExactFloat F → F) : (floatReading special).Lawful where
  asF64_min _ _ := rfl
  asF64_max _ _ := rfl
  asF64_ofPixel _ := rfl
  le_top _ := le_top
  bot_le _ := bot_le

variable [IsStrictOrderedRing F]

theorem monotone_asF64 (t : IntType) : Monotone (integerReading (F := F) t).asF64 :=
  fun _ _ h => WithBot.coe_le_coe.mpr (WithTop.coe_le_coe.mpr (Int.cast_le.mpr h))

theorem integerReading_lawful (t : IntType) : (integerReading (F := F) t).Lawful where
  asF64_min _ _ := (monotone_asF64 t).map_min
  asF64_max _ _ := (monotone_asF64 t).map_max
  asF64_ofPixel _ := rfl
  le_top v := monotone_asF64 t v.le_MAX
  bot_le v := monotone_asF64 t v.MIN_le

/-! ## The scalar fold -/

variable [Sample F] [ExactSample F]

omit [IsStrictOrderedRing F] [ExactSample F] in
theorem update_quantiles {acc : H3Accumulator F (Extended F)} (h : acc.quantiles = none) (v : F) :
    (acc.update v).quantiles = none := by
  unfold H3Accumulator.update
  simp only [h, Option.map_none]
  split
  next => exact h
  next =>
    split
    next => rfl
    next => rfl

theorem foldl_update {P : Type} (valid : P → Bool) (toF64 : P → F) (slice : List P)
    {S : Multiset (F × F)} {acc : H3Accumulator F (Extended F)} (h : Moments S acc)
    (hpos : Positive S) (hq : acc.quantiles = none) :
    Moments (S + samples valid toF64 slice)
        (slice.foldl (fun acc v => if valid v then acc.update (toF64 v) else acc) acc) ∧
      (slice.foldl (fun acc v => if valid v then acc.update (toF64 v) else acc) acc).quantiles =
        none := by
  induction slice generalizing S acc with
  | nil => exact ⟨(add_zero S).symm ▸ h, hq⟩
  | cons v slice ih =>
      rw [List.foldl_cons, ← Multiset.cons_coe, samples_cons]
      split
      next =>
        rw [Multiset.add_cons, ← Multiset.cons_add]
        exact ih (h.update hpos) (positive_cons zero_lt_one hpos) (update_quantiles hq _)
      next => exact ih h hpos hq

omit [IsStrictOrderedRing F] [Sample F] [ExactSample F] in
/-- Without a sketch the moments are the accumulator. -/
theorem Moments.ext {S : Multiset (F × F)} {acc other : H3Accumulator F (Extended F)}
    (h : Moments S acc) (h' : Moments S other) (hq : acc.quantiles = none)
    (hq' : other.quantiles = none) : acc = other := by
  rcases acc with ⟨sum, count, min, max, m2, sumW2, quantiles⟩
  rcases other with ⟨sum', count', min', max', m2', sumW2', quantiles'⟩
  have hsum : sum = sum' := h.sum.trans h'.sum.symm
  have hcount : count = count' := h.count.trans h'.count.symm
  have hmin : min = min' := h.min.trans h'.min.symm
  have hmax : max = max' := h.max.trans h'.max.symm
  have hm2 : m2 = m2' := h.m2.trans h'.m2.symm
  have hsumW2 : sumW2 = sumW2' := h.sumW2.trans h'.sumW2.symm
  have hquantiles : quantiles = quantiles' := hq.trans hq'.symm
  rw [hsum, hcount, hmin, hmax, hm2, hsumW2, hquantiles]

variable {special : ExactFloat F → F}

/-- A kernel agrees with the scalar fold if its tests are those of `is_valid_pixel`. -/
theorem kernel_eq_scalarSpan (t : PixelType) {N : Type} {r : Reading F (Extended F) (Pixel F t) N}
    (hr : r.Lawful) (htoF64 : r.toF64 = toF64Val special) (w : Width)
    {slice : List (Pixel F t)} {nodata : Option (Pixel F t)} {valid : Pixel F t → Bool}
    {valid2 : Nat → Pixel F t → Bool} (hvalid : ∀ v, valid v = isValidPixel v nodata)
    (hvalid2 : ∀ v ∈ slice, valid2 (samples valid r.toF64 slice).card v = valid v) :
    kernel w r valid valid2 slice = scalarSpan special slice nodata := by
  have hkernel := kernel_moments hr w hvalid2
  have hscalar := foldl_update (fun v => isValidPixel v nodata) (toF64Val special) slice
    moments_empty (fun p hp => absurd hp (Multiset.notMem_zero p)) rfl
  rw [zero_add] at hscalar
  rw [samples_congr fun v _ => hvalid v, htoF64] at hkernel
  exact hkernel.ext hscalar.1 (kernel_quantiles w valid2 slice) hscalar.2

/-! ## Each kernel -/

omit [IsStrictOrderedRing F] [Sample F] [ExactSample F] in
theorem isValidFloat_none (v : ExactFloat F) : isValidFloat v none = v.isFinite := by
  cases v with
  | finite v => rfl
  | infinity | negInfinity | nan => rfl

omit [IsStrictOrderedRing F] [Sample F] [ExactSample F] in
/-- A marker that is not a number rejects nothing more. -/
theorem isValidFloat_special {nd : ExactFloat F} (h : nd.isFinite = false) (v : ExactFloat F) :
    isValidFloat v (some nd) = v.isFinite := by
  cases v with
  | finite v =>
      simp only [isValidFloat, ExactFloat.beq_or_near_special h]
      rfl
  | infinity | negInfinity | nan => rfl

omit [IsStrictOrderedRing F] [Sample F] [ExactSample F] in
open ExactFloat in
/-- The kernel's `>=` is the negation of the rule's `<`, the marker being a number. -/
theorem isValidFloat_finite {nd : ExactFloat F} (h : nd.isFinite = true) (v : ExactFloat F) :
    (v.isFinite && !beq v nd && ge (abs (sub v nd)) (finite (tolerance F))) =
      isValidFloat v (some nd) := by
  cases nd with
  | finite nd =>
      cases v with
      | finite v =>
          by_cases heq : v = nd
          · simp [isValidFloat, isFinite, heq]
          · by_cases hnear : |v - nd| < tolerance F
            · simp [isValidFloat, isFinite, heq, hnear, sub, ExactFloat.abs]
            · simp [isValidFloat, isFinite, heq, hnear, sub, ExactFloat.abs, not_lt.mp hnear]
      | infinity | negInfinity | nan => rfl
  | infinity | negInfinity | nan => exact Bool.noConfusion h

/-- The branchless pass is only taken where every pixel is valid. -/
theorem accumulateSpanF32NoNodata_eq {slice : List (Pixel F .f32)}
    {nodata : Option (Pixel F .f32)} (h : ∀ v, isValidFloat v nodata = v.isFinite) :
    accumulateSpanF32NoNodata special slice = scalarSpan special slice nodata := by
  refine kernel_eq_scalarSpan .f32 (floatReading_lawful special) rfl _ (fun v => (h v).symm)
    fun v hv => ?_
  split
  next hall => exact (valid_of_card hall v hv).symm
  next => rfl

theorem accumulateSpanF32_eq (slice : List (Pixel F .f32)) (nodata : Option (Pixel F .f32)) :
    accumulateSpanF32 special slice nodata = scalarSpan special slice nodata := by
  unfold accumulateSpanF32
  split
  next hempty => rw [List.isEmpty_iff.mp hempty]; rfl
  next =>
    cases nodata with
    | none => exact accumulateSpanF32NoNodata_eq isValidFloat_none
    | some nd =>
        simp only
        split
        next h =>
          exact accumulateSpanF32NoNodata_eq (isValidFloat_special (Bool.not_eq_true _ ▸ h))
        next h =>
          unfold accumulateSpanF32WithNodata
          refine kernel_eq_scalarSpan .f32 (floatReading_lawful special) rfl _ ?_ fun _ _ => rfl
          exact isValidFloat_finite (not_not.mp h)

theorem accumulateSpanF64_eq (slice : List (Pixel F .f64)) (nodata : Option (Pixel F .f64)) :
    accumulateSpanF64 special slice nodata = scalarSpan special slice nodata := by
  unfold accumulateSpanF64
  split
  next hempty => rw [List.isEmpty_iff.mp hempty]; rfl
  next =>
    refine kernel_eq_scalarSpan .f64 (floatReading_lawful special) rfl _ (fun v => ?_)
      fun _ _ => rfl
    rfl

theorem accumulateSpanInteger_eq {t : IntType} (slice : List (Pixel F (.int t)))
    (nodata : Option (Pixel F (.int t))) :
    accumulateSpanInteger slice nodata = scalarSpan special slice nodata := by
  unfold accumulateSpanInteger
  split
  next hempty => rw [List.isEmpty_iff.mp hempty]; rfl
  next =>
    cases nodata with
    | none =>
        refine kernel_eq_scalarSpan (.int t) (integerReading_lawful t) rfl _ (fun v => ?_)
          fun _ _ => rfl
        rfl
    | some nd =>
        refine kernel_eq_scalarSpan (.int t) (integerReading_lawful t) rfl _ (fun v => ?_)
          fun _ _ => rfl
        rfl

end Kernels

/-! ## The check of a slice -/

section Slices

theorem mem_of_mem_probes {P : Type} {slice : List P} {v : P} (h : v ∈ probes slice) :
    v ∈ slice := by
  unfold probes at h
  simp only [List.mem_append, Option.mem_toList] at h
  rcases h with (h | h) | h
  · exact List.mem_of_getElem? h
  · exact List.mem_of_getElem? h
  · exact List.mem_of_getElem? h

/-- Looking at three pixels first changes nothing. -/
theorem probed_all {P : Type} (reject : P → Bool) (slice : List P) :
    (if (probes slice).any fun v => !reject v then false else slice.all reject) =
      slice.all reject := by
  split
  next h =>
    rcases List.any_eq_true.mp h with ⟨v, hv, hnot⟩
    refine (Bool.eq_false_iff.mpr fun hall => ?_).symm
    rw [List.all_eq_true.mp hall v (mem_of_mem_probes hv)] at hnot
    exact Bool.noConfusion hnot
  next => rfl

theorem isNd_eq (nd v : ExactFloat F) : isNd nd v = !isValidFloat v (some nd) := by
  unfold isNd isValidFloat
  cases v.isFinite with
  | false => rfl
  | true =>
      rw [Bool.not_true, Bool.false_or, if_neg (not_not.mpr rfl)]
      simp only
      cases ExactFloat.beq v nd || ExactFloat.near (tolerance F) v nd with
      | false => rfl
      | true => rfl

theorem isSliceAllNodataFloat_iff {slice : List (ExactFloat F)} (hne : slice ≠ [])
    (marker : Option (ExactFloat F)) :
    isSliceAllNodataFloat slice marker = true ↔ ∀ v ∈ slice, isValidFloat v marker = false := by
  unfold isSliceAllNodataFloat
  rw [if_neg (mt List.isEmpty_iff.mp hne)]
  cases marker with
  | none => simp [isValidFloat_none]
  | some nd =>
      simp only [probed_all]
      simp only [List.all_eq_true, isNd_eq, Bool.not_eq_true']

theorem isSliceAllNodataInteger_iff {t : IntType} {slice : List t.Native} (hne : slice ≠ [])
    (marker : Option t.Native) :
    isSliceAllNodataInteger slice marker = true ↔
      ∀ v ∈ slice, isValidInteger v marker = false := by
  unfold isSliceAllNodataInteger
  cases marker with
  | none =>
      refine ⟨fun h => Bool.noConfusion h, fun h => ?_⟩
      exact Bool.noConfusion (h _ (List.head_mem hne))
  | some nd =>
      have hprobes := probed_all (fun v => v == nd) slice
      simp only [if_neg (mt List.isEmpty_iff.mp hne)]
      refine (congrArg (· = true) hprobes).to_iff.trans ?_
      simp only [List.all_eq_true, isValidInteger, beq_iff_eq, bne_eq_false_iff_eq]

end Slices

/-! ## Every pixel type -/

/-- Every kernel is the scalar fold over the pixels that are valid, and a slice is skipped
just if it has none. -/
theorem span_kernels_eq_scalar [IsStrictOrderedRing F] [Sample F] [ExactSample F]
    (special : ExactFloat F → F) :
    (∀ (t : PixelType) (slice : List (Pixel F t)) (nodata : Option (Pixel F t)),
      accumulateSpan special slice nodata = scalarSpan special slice nodata) ∧
    (∀ (t : PixelType) (slice : List (Pixel F t)) (nodata : Option (Pixel F t)), slice ≠ [] →
      (isSliceAllNodata slice nodata = true ↔ ∀ v ∈ slice, isValidPixel v nodata = false)) := by
  refine ⟨fun t slice nodata => ?_, fun t slice nodata hne => ?_⟩
  · cases t with
    | f32 => exact accumulateSpanF32_eq slice nodata
    | f64 => exact accumulateSpanF64_eq slice nodata
    | int t => exact accumulateSpanInteger_eq slice nodata
  · cases t with
    | f32 => exact isSliceAllNodataFloat_iff hne nodata
    | f64 => exact isSliceAllNodataFloat_iff hne nodata
    | int t => exact isSliceAllNodataInteger_iff hne nodata

/-- Forty pixels, so that rows of lanes are followed by a rest, with a NaN among them and a
marker that is a number; and rows of nothing but the marker. -/
theorem span_kernels_eq_scalar_rat :
    let slice : List (ExactFloat ℚ) := (List.range 39).map (fun k => .finite (k % 7 : Nat)) ++ [.nan]
    let unread : List (ExactFloat ℚ) := List.replicate 40 (.finite 3)
    (accumulateSpan (t := .f32) (fun _ => (0 : ℚ)) slice (some (.finite 3))).count = 33 ∧
      accumulateSpan (t := .f32) (fun _ => (0 : ℚ)) slice (some (.finite 3)) =
        scalarSpan (t := .f32) (fun _ => 0) slice (some (.finite 3)) ∧
      (isSliceAllNodata (F := ℚ) (t := .f64) unread (some (.finite 3)) = true ↔
        ∀ v ∈ unread, isValidPixel (F := ℚ) (t := .f64) v (some (.finite 3)) = false) :=
  ⟨by decide +kernel, (span_kernels_eq_scalar _).1 .f32 _ _,
    (span_kernels_eq_scalar fun _ => 0).2 .f64 _ _ (List.cons_ne_nil _ _)⟩

end RasterH3.Agg
