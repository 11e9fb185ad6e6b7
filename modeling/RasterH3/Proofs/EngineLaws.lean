import RasterH3.Agg.Engines
import RasterH3.Proofs.CategoricalMap
import RasterH3.Proofs.SpanKernels
import RasterH3.Proofs.WalkerRuns

/-!
# Both engines accumulate

A walk over a window knows nothing of states. It hands samples, one by one or a span at a
time, to an engine that has a state for every cell, and what is asked of the engine is a law
(`Lawful`): there is a relation between states and multisets of samples, empty states stand
for no sample, and an update adds what was handed over. What a state of the continuous
engine stands for are the moments of the calibrated samples, and what one of the categorical
engine stands for is the weight of every class (`ContinuousEngine.lawful`,
`CategoricalEngine.lawful`).

A span is one sample for each readable pixel, and neither engine adds it in this way. The
kernels of the continuous one sum the stored values of a slice by lanes and apply the
calibration to the result; since an affine map of the moments is one of the samples, and the
valid pixels calibrated are the readable ones (`spanSamples_eq_affine`), that makes no
difference in exact arithmetic. A sketch of quantiles is no function of the moments, and a
span is added to it pixel by pixel.

The categorical engine adds a span to the classes by the lengths of its runs, or at once if
it is uniform. `runLengths_spec` carries the open run through the loop: what has been added
and what the open run has to give are together the weights of the pixels so far. A slice is
uniform if it compares equal to itself shifted by one, in the bits of its values, and then
all of them are its first (`eq_of_isUniform`). A state is determined by its samples up to
the order of its classes, so that only the weight of each class matters (`ClassesOf.congr`).
-/

namespace RasterH3.Agg

open Raster WeightedSamples

variable {F : Type} [Field F] [LinearOrder F] [IsStrictOrderedRing F] {t : PixelType}

/-! ## Moments -/

section Continuous

variable [Sample F] [ExactSample F] {special : ExactFloat F → F} (e : ContinuousEngine F t)

/-- What the state of a cell says of its samples. -/
def MomentsOf (P : Multiset (F × F)) (acc : H3Accumulator F (Extended F)) : Prop :=
  Positive P ∧ Moments P acc

/-- The kernel of a pixel type has the moments of the valid pixels. -/
theorem moments_accumulateSpan (slice : List (Pixel F t)) (nodata : Option (Pixel F t)) :
    Moments (samples (fun v => isValidPixel v nodata) (toF64Val special) slice)
      (accumulateSpan special slice nodata) := by
  have hscalar : accumulateSpan special slice nodata = scalarSpan special slice nodata := by
    cases t with
    | f32 => exact accumulateSpanF32_eq slice nodata
    | f64 => exact accumulateSpanF64_eq slice nodata
    | int t => exact accumulateSpanInteger_eq slice nodata
  have hfold := foldl_update (fun v => isValidPixel v nodata) (toF64Val special) slice
    moments_empty (fun p hp => absurd hp (Multiset.notMem_zero p)) rfl
  rw [zero_add] at hfold
  exact hscalar ▸ hfold.1

omit [IsStrictOrderedRing F] in
theorem getSample_eq (v : Pixel F t) : e.getSample special v =
    if isValidPixel v e.nativeNodata then some (e.scaling.apply (toF64Val special v))
    else none := by
  rw [ContinuousEngine.getSample]
  dsimp only
  rw [ExactSample.isFinite, if_pos rfl]

omit [IsStrictOrderedRing F] in
/-- Calibrated one by one, the valid pixels are the readable ones. -/
theorem spanSamples_eq_affine (slice : List (Pixel F t)) :
    spanSamples (e.engine special) slice = affine e.scaling.scale e.scaling.offset
      (samples (fun v => isValidPixel v e.nativeNodata) (toF64Val special) slice) := by
  induction slice with
  | nil => rfl
  | cons v slice ih =>
      rw [spanSamples_cons, ih, ← Multiset.cons_coe, samples_cons,
        show (e.engine special).getSample v = e.getSample special v from rfl, getSample_eq]
      split
      next =>
        rw [affine, affine, Multiset.map_cons]
        rfl
      next => exact zero_add _

omit [ExactSample F] in
theorem positive_spanSamples (slice : List (Pixel F t)) :
    Positive (spanSamples (e.engine special) slice) :=
  positive_unit _

/-- One by one. -/
theorem moments_foldl_getSample (slice : List (Pixel F t)) :
    ∀ {P : Multiset (F × F)} {acc : H3Accumulator F (Extended F)}, Positive P → Moments P acc →
      Moments (P + spanSamples (e.engine special) slice)
        (slice.foldl (fun acc v => ((e.getSample special v).map acc.update).getD acc) acc) := by
  induction slice with
  | nil =>
      intro P acc _ h
      exact (add_zero P).symm ▸ h
  | cons v slice ih =>
      intro P acc hpos h
      rw [List.foldl_cons, spanSamples_cons, ← add_assoc,
        show (e.engine special).getSample v = e.getSample special v from rfl]
      cases e.getSample special v with
      | none =>
          rw [Option.map_none, Option.getD_none, add_zero]
          exact ih hpos h
      | some value =>
          rw [Option.map_some, Option.getD_some, add_comm P, Multiset.singleton_add]
          exact ih (positive_cons zero_lt_one hpos) (h.update hpos)

/-- A span is its readable pixels. -/
theorem moments_spanAccumulator (slice : List (Pixel F t)) :
    Moments (spanSamples (e.engine special) slice) (e.spanAccumulator special slice) := by
  have hvalid : Moments _ (accumulateSpan special slice e.nativeNodata) :=
    moments_accumulateSpan slice e.nativeNodata
  have hpos : Positive (samples (fun v => isValidPixel v e.nativeNodata) (toF64Val special)
      (slice : Multiset (Pixel F t))) := positive_samples _
  rw [ContinuousEngine.spanAccumulator]
  split
  next hid =>
    have hscaling := of_decide_eq_true hid
    have hsame : affine (BandScaling.identity : BandScaling F).scale BandScaling.identity.offset
        (samples (fun v => isValidPixel v e.nativeNodata) (toF64Val special) slice) =
          samples (fun v => isValidPixel v e.nativeNodata) (toF64Val special) slice := by
      simp [affine, BandScaling.identity]
    rw [spanSamples_eq_affine, hscaling, hsame]
    exact hvalid
  next =>
    dsimp only
    split
    next =>
      rw [← zero_add (spanSamples (e.engine special) slice)]
      exact moments_foldl_getSample e slice (fun p hp => absurd hp (Multiset.notMem_zero p))
        moments_empty
    next =>
      rw [spanSamples_eq_affine]
      exact hvalid.applyAffine hpos _ _

omit [IsStrictOrderedRing F] [Sample F] [ExactSample F] in
theorem momentsOf_empty : MomentsOf 0 (.empty : H3Accumulator F (Extended F)) :=
  ⟨fun p hp => absurd hp (Multiset.notMem_zero p), moments_empty⟩

omit [IsStrictOrderedRing F] [Sample F] [ExactSample F] in
theorem MomentsOf.setQuantiles {P : Multiset (F × F)} {acc : H3Accumulator F (Extended F)}
    (h : MomentsOf P acc) (quantiles : Option (QuantileSketch F)) :
    MomentsOf P { acc with quantiles } :=
  ⟨h.1, h.2.setQuantiles quantiles⟩

omit [Sample F] [ExactSample F] in
theorem MomentsOf.count_pos {P : Multiset (F × F)} {acc : H3Accumulator F (Extended F)}
    (h : MomentsOf P acc) : 0 < acc.count ↔ P ≠ 0 := by
  rw [h.2.count]
  constructor
  · rintro hpos rfl
    exact hpos.ne weight_zero.symm
  · exact weight_pos h.1

/-- A span and a state together. -/
theorem MomentsOf.mergeSpan {P : Multiset (F × F)} {acc : H3Accumulator F (Extended F)}
    (h : MomentsOf P acc) (slice : List (Pixel F t)) :
    MomentsOf (P + spanSamples (e.engine special) slice)
      (acc.merge (e.spanAccumulator special slice)) :=
  ⟨positive_add h.1 (positive_spanSamples e slice),
    h.2.merge (moments_spanAccumulator e slice) h.1 (positive_spanSamples e slice)⟩

/-- An empty span adds nothing. -/
theorem spanSamples_of_count {slice : List (Pixel F t)}
    (h : ¬ 0 < (e.spanAccumulator special slice).count) :
    spanSamples (e.engine special) slice = 0 := by
  have hspan : MomentsOf _ (e.spanAccumulator special slice) :=
    ⟨positive_spanSamples e slice, moments_spanAccumulator e slice⟩
  exact not_not.mp fun hne => h (hspan.count_pos.mpr hne)

omit [IsStrictOrderedRing F] [ExactSample F] in
theorem momentsOf_foldl_sketches {n : Nat} {P : Fin n → Multiset (F × F)}
    (slice : List (Pixel F t)) : ∀ {accs : Fin n → H3Accumulator F (Extended F)},
      (∀ i, MomentsOf (P i) (accs i)) → ∀ i, MomentsOf (P i) (slice.foldl (fun accs v =>
        ((e.getSample special v).map fun value i =>
          ContinuousEngine.sketchValue value (accs i)).getD accs) accs i) := by
  induction slice with
  | nil => exact fun h => h
  | cons v slice ih =>
      intro accs h
      rw [List.foldl_cons]
      refine ih fun i => ?_
      cases e.getSample special v with
      | none => exact h i
      | some value => exact (h i).setQuantiles _

theorem ContinuousEngine.lawful : (e.engine special).Lawful MomentsOf where
  newAcc := by
    show MomentsOf 0 (if e.trackQuantiles then _ else _)
    split
    next => exact momentsOf_empty.setQuantiles _
    next => exact momentsOf_empty
  clearAcc := fun _ => momentsOf_empty.setQuantiles _
  hasSamples := fun h => decide_eq_true_iff.trans h.count_pos
  mergeAcc := fun h h' => ⟨positive_add h.1 h'.1, h.2.merge h'.2 h.1 h'.1⟩
  accumulateSpan := by
    intro P acc slice h
    show MomentsOf _ (e.addSpan special acc slice)
    rw [ContinuousEngine.addSpan]
    dsimp only
    split
    next =>
      split
      next => exact (h.mergeSpan e slice).setQuantiles _
      next => exact h.mergeSpan e slice
    next hcount => rwa [spanSamples_of_count e hcount, add_zero]
  accumulateSpanMulti := by
    intro n P accs slice h
    show ∀ i, MomentsOf _ (e.addSpanMulti special accs slice i)
    rw [ContinuousEngine.addSpanMulti]
    dsimp only
    split
    next =>
      split
      next => exact momentsOf_foldl_sketches e slice fun i => (h i).mergeSpan e slice
      next => exact fun i => (h i).mergeSpan e slice
    next hcount =>
      rw [spanSamples_of_count e hcount]
      exact fun i => (add_zero (P i)).symm ▸ h i
  updateSample := by
    intro P acc s w h hw
    show MomentsOf _ (if w = 1 then acc.update s else acc.updateWeighted s w)
    rw [add_comm, Multiset.singleton_add]
    split
    next heq =>
      subst heq
      exact ⟨positive_cons hw h.1, h.2.update h.1⟩
    next => exact ⟨positive_cons hw h.1, h.2.updateWeighted h.1 hw⟩

end Continuous

/-! ## Classes -/

section Categorical

open CategoricalAccumulator Sedona

variable [FloorRing F] (e : CategoricalEngine F t)

/-- What the samples of a cell give to a class. -/
def classWeight (P : Multiset (Int64 × F)) (k : Int64) : F :=
  ((P.filter fun p => p.1 = k).map Prod.snd).sum

omit [LinearOrder F] [IsStrictOrderedRing F] [FloorRing F] in
theorem classWeight_add (P Q : Multiset (Int64 × F)) (k : Int64) :
    classWeight (P + Q) k = classWeight P k + classWeight Q k := by
  rw [classWeight, Multiset.filter_add, Multiset.map_add, Multiset.sum_add, classWeight,
    classWeight]

omit [LinearOrder F] [IsStrictOrderedRing F] [FloorRing F] in
theorem classWeight_singleton (p : Int64 × F) (k : Int64) :
    classWeight {p} k = if p.1 = k then p.2 else 0 := by
  rw [classWeight, Multiset.filter_singleton]
  split
  next => rw [Multiset.map_singleton, Multiset.sum_singleton]
  next => rfl

omit [FloorRing F] in
theorem classWeight_pos {P : Multiset (Int64 × F)} (h : ∀ p ∈ P, 0 < p.2) {p : Int64 × F}
    (hp : p ∈ P) : 0 < classWeight P p.1 := by
  refine sum_pos_of_forall (fun w hw => ?_) fun hempty => ?_
  · obtain ⟨q, hq, rfl⟩ := Multiset.mem_map.mp hw
    exact h q (Multiset.mem_filter.mp hq).1
  · have hmem : p.2 ∈ ((P.filter fun q => q.1 = p.1).map Prod.snd) :=
      Multiset.mem_map_of_mem _ (Multiset.mem_filter.mpr ⟨hp, rfl⟩)
    rw [hempty] at hmem
    exact Multiset.notMem_zero _ hmem

/-- What the state of a cell says of its samples. -/
structure ClassesOf (P : Multiset (Int64 × F)) (acc : CategoricalAccumulator F) : Prop where
  positive : ∀ p ∈ P, 0 < p.2
  built : Built acc
  weights : ∀ k, content acc k = classWeight P k

omit [FloorRing F] in
theorem ClassesOf.updateWeighted {P : Multiset (Int64 × F)} {acc : CategoricalAccumulator F}
    (h : ClassesOf P acc) (category : Int64) {weight : F} (hw : 0 < weight) :
    ClassesOf (P + {(category, weight)}) (acc.updateWeighted category weight) where
  positive := by
    intro p hp
    rcases Multiset.mem_add.mp hp with hp | hp
    · exact h.positive p hp
    · rw [Multiset.mem_singleton.mp hp]
      exact hw
  built := .updateWeighted category weight h.built
  weights := by
    intro k
    rw [content_updateWeighted, h.weights, classWeight_add, classWeight_singleton]
    simp only [hw, and_true]

omit [FloorRing F] in
/-- Only the weight of each class matters. -/
theorem ClassesOf.congr {P Q : Multiset (Int64 × F)} {acc : CategoricalAccumulator F}
    (h : ClassesOf P acc) (hpos : ∀ p ∈ Q, 0 < p.2)
    (hsame : ∀ k, classWeight P k = classWeight Q k) : ClassesOf Q acc :=
  ⟨hpos, h.built, fun k => (h.weights k).trans (hsame k)⟩

omit [FloorRing F] in
theorem ClassesOf.updateAll (entries : List (Int64 × F)) :
    ∀ {P : Multiset (Int64 × F)} {acc : CategoricalAccumulator F}, ClassesOf P acc →
      (∀ p ∈ entries, 0 < p.2) →
        ClassesOf (P + (entries : Multiset (Int64 × F))) (acc.updateAll entries) := by
  induction entries with
  | nil =>
      intro P acc h _
      exact (add_zero P).symm ▸ h
  | cons p entries ih =>
      intro P acc h hpos
      have hrest := ih (h.updateWeighted p.1 (hpos p List.mem_cons_self))
        fun q hq => hpos q (List.mem_cons_of_mem _ hq)
      rwa [add_assoc, Multiset.singleton_add, Multiset.cons_coe] at hrest

omit [FloorRing F] in
/-- No weight, no samples. -/
theorem ClassesOf.total_pos {P : Multiset (Int64 × F)} {acc : CategoricalAccumulator F}
    (h : ClassesOf P acc) : 0 < acc.totalCount ↔ P ≠ 0 := by
  constructor
  · rintro hpos rfl
    have hnone : acc.classes = [] := by
      rw [List.eq_nil_iff_forall_not_mem]
      intro p hp
      have := content_pos (List.mem_map_of_mem hp)
      rw [h.weights] at this
      exact lt_irrefl _ this
    rw [h.built.totalled, hnone] at hpos
    exact lt_irrefl _ hpos
  · intro hne
    by_contra htotal
    obtain ⟨p, hp⟩ := Multiset.exists_mem_of_ne_zero hne
    have hzero : acc.totalCount = 0 := by
      refine le_antisymm (not_lt.mp htotal) ?_
      rw [h.built.totalled]
      exact List.sum_nonneg fun x hx => by
        obtain ⟨q, hq, rfl⟩ := List.mem_map.mp hx
        exact (classes_pos acc q hq).le
    have hclass : classWeight P p.1 = 0 := by
      rw [← h.weights, content_of_not_mem]
      rw [classes_eq_nil_of_total h.built hzero]
      exact List.not_mem_nil
    exact (classWeight_pos h.positive hp).ne' hclass

/-! ## Spans of classes -/

omit [Field F] [IsStrictOrderedRing F] [FloorRing F] in
theorem eq_of_beq_float {v w : ExactFloat F} (h : ExactFloat.beq v w = true) : v = w := by
  cases v <;> cases w <;> simp_all [ExactFloat.beq, ExactFloat.rank]

omit [Field F] [IsStrictOrderedRing F] [FloorRing F] in
theorem eq_of_sameFloatBits {v w : ExactFloat F} (h : sameFloatBits v w = true) : v = w := by
  cases v with
  | nan =>
      cases w with
      | nan => rfl
      | finite w | infinity | negInfinity => exact eq_of_beq_float h
  | finite v | infinity | negInfinity => exact eq_of_beq_float h

omit [Field F] [IsStrictOrderedRing F] [FloorRing F] in
theorem eq_of_sameValue {v w : Pixel F t} (h : sameValue v w = true) : v = w := by
  cases t with
  | f32 | f64 => exact eq_of_beq_float h
  | int t => exact Subtype.ext (of_decide_eq_true h)

omit [Field F] [IsStrictOrderedRing F] [FloorRing F] in
theorem eq_of_sameBits {v w : Pixel F t} (h : sameBits v w = true) : v = w := by
  cases t with
  | f32 | f64 => exact eq_of_sameFloatBits h
  | int t => exact Subtype.ext (of_decide_eq_true h)

omit [Field F] [IsStrictOrderedRing F] [FloorRing F] in
/-- All values of a uniform slice are its first. -/
theorem eq_of_isUniform {first : Pixel F t} {rest : List (Pixel F t)}
    (h : isUniform (first :: rest) = true) : ∀ v ∈ rest, v = first := by
  have hpos : 0 < uniformChunk t := by
    cases t with
    | f32 | f64 => decide
    | int t => cases t <;> decide
  rw [isUniform, Bool.and_eq_true, List.all_eq_true, List.all_eq_true] at h
  intro v hv
  rw [← List.take_append_drop (rest.length / uniformChunk t * uniformChunk t) rest] at hv
  rcases List.mem_append.mp hv with hv | hv
  · rw [← Lanes.flatMap_asChunks] at hv
    obtain ⟨chunk, hchunk, hmem⟩ := List.mem_flatMap.mp hv
    rcases (Bool.or_eq_true _ _).mp (h.1 chunk hchunk) with hall | hall
    · exact eq_of_sameBits (List.all_eq_true.mp hall v hmem)
    · exact eq_of_sameValue (List.all_eq_true.mp hall v hmem)
  · exact eq_of_sameValue (h.2 v hv)

/-- What the samples of an open run give to a class. -/
def openRun (currCat : Option Int64) (currCatCount : F) : Multiset (Int64 × F) :=
  ↑(currCat.map fun cat => (cat, currCatCount)).toList

/-- The lengths of the runs are the weights of their classes. -/
theorem runLengths_spec (slice : List (Pixel F t)) :
    ∀ (currCat : Option Int64) (currCatCount : F), (currCat ≠ none → 0 < currCatCount) →
      (∀ p ∈ e.runLengths slice currCat currCatCount, 0 < p.2) ∧
      ∀ k, classWeight (↑(e.runLengths slice currCat currCatCount)) k =
        classWeight (openRun currCat currCatCount) k +
          classWeight (spanSamples e.engine slice) k := by
  induction slice with
  | nil =>
      intro currCat currCatCount hpos
      have hkeep : e.runLengths [] currCat currCatCount =
          (currCat.map fun cat => (cat, currCatCount)).toList := by
        rw [CategoricalEngine.runLengths, List.filter_eq_self]
        intro p hp
        cases currCat with
        | none => cases hp
        | some cat =>
            rw [List.mem_singleton.mp hp]
            exact decide_eq_true (hpos (Option.some_ne_none cat))
      rw [hkeep]
      refine ⟨fun p hp => ?_, fun k => (add_zero _).symm⟩
      cases currCat with
      | none => cases hp
      | some cat =>
          rw [List.mem_singleton.mp hp]
          exact hpos (Option.some_ne_none cat)
  | cons v slice ih =>
      intro currCat currCatCount hpos
      rw [CategoricalEngine.runLengths, spanSamples_cons,
        show e.engine.getSample v = e.resolveCategory v from rfl]
      cases e.resolveCategory v with
      | none =>
          obtain ⟨hall, hweights⟩ := ih currCat currCatCount hpos
          refine ⟨hall, fun k => ?_⟩
          rw [Option.map_none, Option.getD_none, zero_add]
          exact hweights k
      | some cat =>
          dsimp only
          rw [Option.map_some, Option.getD_some]
          split
          next heq =>
            subst heq
            have hcount : 0 < currCatCount := hpos (Option.some_ne_none cat)
            obtain ⟨hall, hweights⟩ := ih (some cat) (currCatCount + 1)
              fun _ => add_pos hcount one_pos
            refine ⟨hall, fun k => ?_⟩
            rw [hweights, classWeight_add, ← add_assoc]
            refine congrArg (· + _) ?_
            show classWeight {(cat, currCatCount + 1)} k = classWeight {(cat, currCatCount)} k + _
            rw [classWeight_singleton, classWeight_singleton, classWeight_singleton]
            split
            next => rfl
            next => exact (add_zero 0).symm
          next =>
            obtain ⟨hall, hweights⟩ := ih (some cat) 1 fun _ => one_pos
            constructor
            · intro p hp
              rcases List.mem_append.mp hp with hp | hp
              · cases currCat with
                | none => cases hp
                | some prev =>
                    rw [List.mem_singleton.mp hp]
                    exact hpos (Option.some_ne_none prev)
              · exact hall p hp
            · intro k
              rw [← Multiset.coe_add, classWeight_add, hweights, classWeight_add]
              rfl

/-- A span is added as what its readable pixels give to each class. -/
theorem spanUpdates_spec (slice : List (Pixel F t)) :
    (∀ p ∈ e.spanUpdates slice, 0 < p.2) ∧
      ∀ k, classWeight (↑(e.spanUpdates slice)) k = classWeight (spanSamples e.engine slice) k := by
  cases slice with
  | nil => exact ⟨fun p hp => absurd hp List.not_mem_nil, fun k => rfl⟩
  | cons first rest =>
      rw [CategoricalEngine.spanUpdates]
      split
      next huniform =>
        have hsame : ∀ v ∈ first :: rest, e.resolveCategory v = e.resolveCategory first := by
          intro v hv
          rcases List.mem_cons.mp hv with rfl | hv
          · rfl
          · rw [eq_of_isUniform huniform v hv]
        have hsamples : ∀ l : List (Pixel F t),
            (∀ v ∈ l, e.resolveCategory v = e.resolveCategory first) →
            ∀ k, classWeight (spanSamples e.engine l) k = classWeight
              (openRun (e.resolveCategory first) (l.length : F)) k := by
          intro l
          induction l with
          | nil =>
              intro _ k
              cases e.resolveCategory first with
              | none => rfl
              | some cat =>
                  show _ = classWeight {(cat, ((0 : Nat) : F))} k
                  rw [classWeight_singleton, Nat.cast_zero, ite_self]
                  rfl
          | cons v l ih =>
              intro hl k
              rw [spanSamples_cons, classWeight_add,
                ih fun w hw => hl w (List.mem_cons_of_mem _ hw),
                show e.engine.getSample v = e.resolveCategory v from rfl, hl v List.mem_cons_self]
              cases e.resolveCategory first with
              | none => exact add_zero _
              | some cat =>
                  show classWeight {(cat, 1)} k + classWeight {(cat, (l.length : F))} k =
                    classWeight {(cat, ((l.length + 1 : Nat) : F))} k
                  rw [classWeight_singleton, classWeight_singleton, classWeight_singleton,
                    Nat.cast_add, Nat.cast_one, add_comm (l.length : F)]
                  split
                  next => rfl
                  next => exact add_zero 0
        refine ⟨fun p hp => ?_, fun k => (hsamples _ hsame k).symm⟩
        cases hcat : e.resolveCategory first with
        | none =>
            rw [hcat] at hp
            cases hp
        | some cat =>
            rw [hcat] at hp
            rw [List.mem_singleton.mp hp]
            exact Nat.cast_pos.mpr (Nat.succ_pos _)
      next =>
        obtain ⟨hall, hweights⟩ := runLengths_spec e (first :: rest) none 0
          fun h => absurd rfl h
        refine ⟨hall, fun k => (hweights k).trans ?_⟩
        exact zero_add _

omit [IsStrictOrderedRing F] in
theorem spanSamples_pos [IsStrictOrderedRing F] (slice : List (Pixel F t)) :
    ∀ p ∈ spanSamples e.engine slice, 0 < p.2 := by
  intro p hp
  obtain ⟨s, -, rfl⟩ := List.mem_map.mp hp
  exact one_pos

theorem ClassesOf.addSpan {P : Multiset (Int64 × F)} {acc : CategoricalAccumulator F}
    (h : ClassesOf P acc) (slice : List (Pixel F t)) :
    ClassesOf (P + spanSamples e.engine slice) (acc.updateAll (e.spanUpdates slice)) := by
  obtain ⟨hpos, hweights⟩ := spanUpdates_spec e slice
  refine (h.updateAll _ hpos).congr (fun p hp => ?_) fun k => ?_
  · rcases Multiset.mem_add.mp hp with hp | hp
    · exact h.positive p hp
    · exact spanSamples_pos e slice p hp
  · rw [classWeight_add, classWeight_add, hweights]

omit [FloorRing F] in
theorem classesOf_new : ClassesOf 0 (.new : CategoricalAccumulator F) :=
  ⟨fun p hp => absurd hp (Multiset.notMem_zero p), .new, fun _ => rfl⟩

theorem CategoricalEngine.lawful : e.engine.Lawful ClassesOf where
  newAcc := classesOf_new
  clearAcc := fun _ => classesOf_new
  hasSamples := fun h => decide_eq_true_iff.trans h.total_pos
  mergeAcc := fun h h' => ⟨fun p hp => (Multiset.mem_add.mp hp).elim (h.positive p) (h'.positive p),
    .merge h.built h'.built, fun k => by
      rw [classWeight_add, ← h.weights, ← h'.weights]
      exact content_merge h'.built k⟩
  accumulateSpan := fun slice h => h.addSpan e slice
  accumulateSpanMulti := fun slice h i => (h i).addSpan e slice
  updateSample := fun s _ h hw => h.updateWeighted s hw

end Categorical

end RasterH3.Agg
