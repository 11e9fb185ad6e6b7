import RasterH3.Proofs.PhaseMerge
import RasterH3.Proofs.PartialCodec
import RasterH3.Proofs.AccumulatorMoments
import Mathlib.Tactic

/-!
# Moments and bins that go through phases

Continuous states are merged in phases, within a worker, between workers and at the end, and
are written and read back in between. The row that comes out should not depend on how they
were grouped.

Every statistic of the row is one of the moments, and these do not depend on the order in
which states are merged. What can go wrong is that a state is refused. Its size depends on
its bins, which are bins of the states it was merged from, so it is enough that all of them
together fit: `Gathers` is the invariant of the phases, moments of the samples of all the
states and bins of some of them.

It is also necessary, although a merge can drop bins: a state without a sketch takes over
the sketch of another only while it is empty. So the states are merged behind one that has a
sketch, and then every bin is kept (`mergeStates_keeps`). If all the bins together are too
many, some state has a sketch (`exists_sketch`), and one phase with that state first makes a
state that the next phase cannot read (`fits_of_agree`).

For this a sketch that has counted nothing must have no bins. That is not a matter of the
format, which accepts such a state; it holds of sketches that were computed
(`sound_of_computes`), and the equivalence is about the values that accumulators compute.
The size that is meant is the one after reading: tables are rebuilt, and their capacity is
counted (`SketchFits`).
-/

namespace RasterH3.Sedona

open Agg Agg.AccumulatorMerge

/-! ## Bins -/

section Continuous

open HashTable H3Accumulator

variable {F M : Type}

def posKeys (acc : H3Accumulator F M) : List Int32 :=
  acc.quantiles.elim [] fun q => q.posBins.entries.map Prod.fst

def negKeys (acc : H3Accumulator F M) : List Int32 :=
  acc.quantiles.elim [] fun q => q.negBins.entries.map Prod.fst

/-- What `read_state` accepts, for so many bins: both counts, and the tables that are rebuilt. -/
def SketchFits (pos neg : Nat) : Prop :=
  pos ≤ 2 ^ 20 ∧ neg ≤ 2 ^ 20 ∧
    sizeOfSelf + (sizeOfSketch + tableBytes (capacityFor pos) + tableBytes (capacityFor neg)) ≤
      stateLimit.val

theorem SketchFits.mono {pos neg pos' neg' : Nat} (h : SketchFits pos neg) (hpos : pos' ≤ pos)
    (hneg : neg' ≤ neg) : SketchFits pos' neg' := by
  obtain ⟨hp, hn, hmem⟩ := h
  have hpmem := tableBytes_mono (capacityFor_mono hpos)
  have hnmem := tableBytes_mono (capacityFor_mono hneg)
  exact ⟨hpos.trans hp, hneg.trans hn, by omega⟩

theorem posKeys_nodup (acc : H3Accumulator F M) : (posKeys acc).Nodup := by
  rw [posKeys]
  cases acc.quantiles with
  | none => exact List.nodup_nil
  | some q => exact q.posBins.nodup

theorem negKeys_nodup (acc : H3Accumulator F M) : (negKeys acc).Nodup := by
  rw [negKeys]
  cases acc.quantiles with
  | none => exact List.nodup_nil
  | some q => exact q.negBins.nodup

@[simp] theorem posKeys_rebuilt (acc : H3Accumulator F M) : posKeys acc.rebuilt = posKeys acc := by
  obtain ⟨sum, count, min, max, m2, sumW2, quantiles⟩ := acc
  cases quantiles <;> simp [posKeys, rebuilt, QuantileSketch.rebuilt]

@[simp] theorem negKeys_rebuilt (acc : H3Accumulator F M) : negKeys acc.rebuilt = negKeys acc := by
  obtain ⟨sum, count, min, max, m2, sumW2, quantiles⟩ := acc
  cases quantiles <;> simp [negKeys, rebuilt, QuantileSketch.rebuilt]

/-- There are only so many bins to begin with. -/
theorem length_lt_of_nodup {l : List Int32} (h : l.Nodup) : l.length < 2 ^ 64 := by
  have hbits : (l.map fun k => k.toBitVec.toNat).Nodup :=
    h.map fun a b hab => Int32.toBitVec_inj.mp (BitVec.eq_of_toNat_eq hab)
  have hsub : (l.map fun k => k.toBitVec.toNat) ⊆ List.range (2 ^ 32) := by
    intro n hn
    obtain ⟨k, -, rfl⟩ := List.mem_map.mp hn
    exact List.mem_range.mpr k.toBitVec.isLt
  have hlen := (List.subperm_of_subset hbits hsub).length_le
  rw [List.length_map, List.length_range] at hlen
  omega

section Codec

variable [Bytes.Codec F] [Bytes.Codec M]

theorem readState_writeState_bins (acc : H3Accumulator F M) (rest : List UInt8) :
    (SketchFits (posKeys acc).length (negKeys acc).length →
      readState stateLimit (acc.writeState ++ rest) = .ok (acc.rebuilt, rest)) ∧
    (¬ SketchFits (posKeys acc).length (negKeys acc).length →
      ∀ a, (readState stateLimit (acc.writeState ++ rest) :
        Except SpillError (H3Accumulator F M × List UInt8)) ≠ .ok a) := by
  have hpos := length_lt_of_nodup (posKeys_nodup acc)
  have hneg := length_lt_of_nodup (negKeys_nodup acc)
  obtain ⟨sum, count, min, max, m2, sumW2, quantiles⟩ := acc
  cases quantiles with
  | none =>
    have hmarker : Bytes.readLe 8 (Bytes.writeLe 8 0 ++ rest) = some (0, rest) :=
      Bytes.readLe_writeLe_of_lt (by decide) rest
    have hfits : SketchFits 0 0 := ⟨by decide, by decide, by decide⟩
    refine ⟨fun _ => ?_, fun hno => absurd hfits hno⟩
    simp only [readState, writeState, List.append_assoc, readExact,
      Bytes.Codec.decode_encode, hmarker, bind, Except.bind, pure, Except.pure,
      fromWeightedStats]
    rfl
  | some q =>
    have hmarker : ∀ tail, Bytes.readLe 8 (Bytes.writeLe 8 1 ++ tail) = some (1, tail) :=
      fun tail => Bytes.readLe_writeLe_of_lt (by decide) tail
    have hplen : (posKeys (⟨sum, count, min, max, m2, sumW2, some q⟩ : H3Accumulator F M)).length =
        q.posBins.len := List.length_map ..
    have hnlen : (negKeys (⟨sum, count, min, max, m2, sumW2, some q⟩ : H3Accumulator F M)).length =
        q.negBins.len := List.length_map ..
    rw [hplen] at hpos ⊢
    rw [hnlen] at hneg ⊢
    have hmem : (⟨sum, count, min, max, m2, sumW2, some q.rebuilt⟩ :
        H3Accumulator F M).memoryBytes = sizeOfSelf + (sizeOfSketch +
          tableBytes (capacityFor q.posBins.len) + tableBytes (capacityFor q.negBins.len)) := by
      rw [memoryBytes, H3Accumulator.heapBytes.eq_def]
      simp only [QuantileSketch.rebuilt, Table.rebuilt_capacity]
    have hdiv : stateLimit.val / 64 = 2 ^ 20 := rfl
    simp only [readState, writeState, List.append_assoc, readExact, readSketch,
      Bytes.Codec.decode_encode, hmarker, bind, Except.bind, pure, Except.pure,
      fromWeightedStats, readBins_write hpos]
    rw [SketchFits, ← hmem]
    by_cases hp : stateLimit.val / 64 < q.posBins.len
    · rw [if_pos hp]
      refine ⟨fun h => absurd h.1 (by omega), fun _ a h => ?_⟩
      cases h
    · rw [if_neg hp]
      simp only [readBins_write hneg]
      by_cases hn : stateLimit.val / 64 < q.negBins.len
      · rw [if_pos hn]
        refine ⟨fun h => absurd h.2.1 (by omega), fun _ a h => ?_⟩
        cases h
      · rw [if_neg hn]
        constructor
        · rintro ⟨-, -, hfits⟩
          exact if_neg (Nat.not_lt.mpr hfits)
        · intro hno a
          have hlarge : stateLimit.val < (⟨sum, count, min, max, m2, sumW2, some q.rebuilt⟩ :
              H3Accumulator F M).memoryBytes := by
            by_contra hsmall
            exact hno ⟨by omega, by omega, Nat.not_lt.mp hsmall⟩
          show (if stateLimit.val < (⟨sum, count, min, max, m2, sumW2, some q.rebuilt⟩ :
              H3Accumulator F M).memoryBytes then _ else _) ≠ _
          rw [if_pos hlarge]
          intro h
          cases h

variable [Zero F] [Add F] [Sub F] [Mul F] [Div F] [BEq F] [Extremes F M]

/-- An encoded state is decoded exactly if its bins are few enough. -/
theorem decode_encode_bins {acc : H3Accumulator F M}
    (h : SketchFits (posKeys acc).length (negKeys acc).length) :
    decodePartialState stateLimit (encodePartialState acc) = .ok acc.rebuilt := by
  have hread := (readState_writeState_bins acc []).1 h
  rw [List.append_nil] at hread
  exact decode_ok_iff.mpr ⟨acc.writeState, rfl, hread⟩

theorem decode_encode_bins_refused {acc : H3Accumulator F M}
    (h : ¬ SketchFits (posKeys acc).length (negKeys acc).length) (a : H3Accumulator F M) :
    decodePartialState stateLimit (encodePartialState acc) ≠ .ok a := by
  intro hdecode
  obtain ⟨body, hbody, hread⟩ := decode_ok_iff.mp hdecode
  obtain rfl : acc.writeState = body := List.append_cancel_left hbody
  have hrefused := (readState_writeState_bins acc []).2 h (a, [])
  rw [List.append_nil] at hrefused
  exact hrefused hread

end Codec

/-! ### Merging sketches -/

section Merge

variable [Zero F] [Add F] [BEq F]

theorem keys_mergeSketch (q q' : QuantileSketch F) :
    (∀ k ∈ (q.merge q').posBins.entries.map Prod.fst,
      k ∈ q.posBins.entries.map Prod.fst ∨ k ∈ q'.posBins.entries.map Prod.fst) ∧
    ∀ k ∈ (q.merge q').negBins.entries.map Prod.fst,
      k ∈ q.negBins.entries.map Prod.fst ∨ k ∈ q'.negBins.entries.map Prod.fst := by
  rw [QuantileSketch.merge]
  split
  · exact ⟨fun _ => Or.inl, fun _ => Or.inl⟩
  · split
    · exact ⟨fun _ => Or.inr, fun _ => Or.inr⟩
    · exact ⟨fun _ => Table.mem_keys_upsertAll.mp, fun _ => Table.mem_keys_upsertAll.mp⟩

theorem keys_mergeQuantiles (acc other : H3Accumulator F M) {q : QuantileSketch F}
    (hq : acc.mergeQuantiles other = some q) :
    (∀ k ∈ q.posBins.entries.map Prod.fst, k ∈ posKeys acc ∨ k ∈ posKeys other) ∧
    ∀ k ∈ q.negBins.entries.map Prod.fst, k ∈ negKeys acc ∨ k ∈ negKeys other := by
  rw [mergeQuantiles.eq_def] at hq
  rw [posKeys, posKeys, negKeys, negKeys]
  cases hacc : acc.quantiles with
  | none =>
    cases hother : other.quantiles with
    | none => rw [hacc, hother] at hq; cases hq
    | some q' =>
      rw [hacc, hother] at hq
      simp only [] at hq
      split at hq
      · cases hq
        exact ⟨fun _ => Or.inr, fun _ => Or.inr⟩
      · cases hq
  | some q₀ =>
    cases hother : other.quantiles with
    | none =>
      rw [hacc, hother] at hq
      cases hq
      exact ⟨fun _ => Or.inl, fun _ => Or.inl⟩
    | some q' =>
      rw [hacc, hother] at hq
      cases hq
      exact keys_mergeSketch q₀ q'

variable [Sub F] [Mul F] [Div F] [Extremes F M]

theorem quantiles_merge (acc other : H3Accumulator F M) :
    (acc.merge other).quantiles =
      if other.count == 0 then acc.quantiles else acc.mergeQuantiles other := by
  rw [H3Accumulator.merge]
  split
  · rfl
  · split <;> rfl

theorem keys_merge (acc other : H3Accumulator F M) :
    (∀ k ∈ posKeys (acc.merge other), k ∈ posKeys acc ∨ k ∈ posKeys other) ∧
    ∀ k ∈ negKeys (acc.merge other), k ∈ negKeys acc ∨ k ∈ negKeys other := by
  have hquantiles := quantiles_merge acc other
  split at hquantiles
  · rw [posKeys, negKeys, hquantiles]
    exact ⟨fun _ => Or.inl, fun _ => Or.inl⟩
  · rw [posKeys, negKeys, hquantiles]
    cases hq : acc.mergeQuantiles other with
    | none => exact ⟨nofun, nofun⟩
    | some q => exact keys_mergeQuantiles acc other hq

end Merge

end Continuous

/-! ## Phases of continuous states that agree -/

section Continuous

open HashTable H3Accumulator

variable {F : Type} [Field F] [LinearOrder F]

/-- If the values can be merged at once, they can be merged in any phases, and to the same
row. -/
def ContinuousAgree [Bytes.Codec F] [Bytes.Codec (Extended F)] (sqrt : F → F)
    (values : List (Option (List UInt8))) : Prop :=
  ∀ single : Option (H3Accumulator F (Extended F)), mergeStates none values = .ok single →
    ∀ p : Phases, p.leaves.Perm values →
      ∃ state, p.run (H3Accumulator F (Extended F)) = .ok state ∧
        continuousEvaluate sqrt state = continuousEvaluate sqrt single

/-- Every statistic of the row is one of the moments. -/
theorem continuousRow_eq (sqrt : F → F) {T : Multiset (F × F)}
    {acc acc' : H3Accumulator F (Extended F)} (h : Moments T acc) (h' : Moments T acc') :
    continuousRow sqrt acc = continuousRow sqrt acc' := by
  simp only [continuousRow, mean, stddev, variance, h.count, h.sum, h.min, h.max, h.sumW2, h.m2,
    h'.count, h'.sum, h'.min, h'.max, h'.sumW2, h'.m2]

/-- It holds the moments of some samples. -/
def Sampled (acc : H3Accumulator F (Extended F)) : Prop := ∃ T, Moments T acc ∧ Positive T

open Classical in
/-- Samples that the accumulator holds the moments of. -/
noncomputable def samplesOf (acc : H3Accumulator F (Extended F)) : Multiset (F × F) :=
  if h : Sampled acc then h.choose else 0

theorem Sampled.moments {acc : H3Accumulator F (Extended F)} (h : Sampled acc) :
    Moments (samplesOf acc) acc ∧ Positive (samplesOf acc) := by
  rw [samplesOf, dif_pos h]
  exact h.choose_spec

/-- A state of samples whose bins are among these. -/
structure BinsIn (P N : List Int32) (acc : H3Accumulator F (Extended F)) : Prop where
  sampled : Sampled acc
  pos : ∀ k ∈ posKeys acc, k ∈ P
  neg : ∀ k ∈ negKeys acc, k ∈ N

/-- The moments are those of the samples of all the states, the bins are bins of some of
them. -/
structure Gathers (S : List (H3Accumulator F (Extended F)))
    (acc : H3Accumulator F (Extended F)) : Prop where
  moments : Moments (S.map samplesOf).sum acc
  positive : Positive (S.map samplesOf).sum
  pos : ∀ k ∈ posKeys acc, ∃ c ∈ S, k ∈ posKeys c
  neg : ∀ k ∈ negKeys acc, ∃ c ∈ S, k ∈ negKeys c

variable [IsStrictOrderedRing F] [Bytes.Codec F] [Bytes.Codec (Extended F)]

theorem tracks_bins {P N : List Int32} (hfits : SketchFits P.length N.length) :
    Tracks (Gathers : List (H3Accumulator F (Extended F)) → _ → Prop) (BinsIn P N) where
  single a ha := by
    obtain ⟨hmoments, hpositive⟩ := ha.sampled.moments
    refine ⟨?_, ?_, fun k hk => ⟨a, List.mem_singleton_self a, hk⟩,
      fun k hk => ⟨a, List.mem_singleton_self a, hk⟩⟩
    · rwa [List.map_singleton, List.sum_singleton]
    · rwa [List.map_singleton, List.sum_singleton]
  merge {S T a b} ha hb := by
    refine ⟨?_, ?_, fun k hk => ?_, fun k hk => ?_⟩
    · rw [List.map_append, List.sum_append]
      exact ha.moments.merge hb.moments ha.positive hb.positive
    · rw [List.map_append, List.sum_append]
      exact positive_add ha.positive hb.positive
    · rcases (keys_merge a b).1 k hk with hk | hk
      · obtain ⟨c, hc, hkc⟩ := ha.pos k hk
        exact ⟨c, List.mem_append_left _ hc, hkc⟩
      · obtain ⟨c, hc, hkc⟩ := hb.pos k hk
        exact ⟨c, List.mem_append_right _ hc, hkc⟩
    · rcases (keys_merge a b).2 k hk with hk | hk
      · obtain ⟨c, hc, hkc⟩ := ha.neg k hk
        exact ⟨c, List.mem_append_left _ hc, hkc⟩
      · obtain ⟨c, hc, hkc⟩ := hb.neg k hk
        exact ⟨c, List.mem_append_right _ hc, hkc⟩
  reread {S a} hS ha := by
    have hpos : (posKeys a).length ≤ P.length :=
      (List.subperm_of_subset (posKeys_nodup a) fun k hk => by
        obtain ⟨c, hc, hkc⟩ := ha.pos k hk
        exact (hS c hc).pos k hkc).length_le
    have hneg : (negKeys a).length ≤ N.length :=
      (List.subperm_of_subset (negKeys_nodup a) fun k hk => by
        obtain ⟨c, hc, hkc⟩ := ha.neg k hk
        exact (hS c hc).neg k hkc).length_le
    refine ⟨_, decode_encode_bins (hfits.mono hpos hneg), ha.moments.setQuantiles _, ha.positive,
      fun k hk => ha.pos k ?_, fun k hk => ha.neg k ?_⟩
    · rwa [posKeys_rebuilt] at hk
    · rwa [negKeys_rebuilt] at hk

/-- The bins of all the states together. -/
def allPos (states : List (Option (H3Accumulator F (Extended F)))) : List Int32 :=
  ((states.filterMap id).flatMap posKeys).dedup

def allNeg (states : List (Option (H3Accumulator F (Extended F)))) : List Int32 :=
  ((states.filterMap id).flatMap negKeys).dedup

omit [Field F] [LinearOrder F] [IsStrictOrderedRing F] [Bytes.Codec F]
  [Bytes.Codec (Extended F)] in
theorem mem_allPos {states : List (Option (H3Accumulator F (Extended F)))} {k : Int32} :
    k ∈ allPos states ↔ ∃ a, some a ∈ states ∧ k ∈ posKeys a := by
  simp [allPos]

omit [Field F] [LinearOrder F] [IsStrictOrderedRing F] [Bytes.Codec F]
  [Bytes.Codec (Extended F)] in
theorem mem_allNeg {states : List (Option (H3Accumulator F (Extended F)))} {k : Int32} :
    k ∈ allNeg states ↔ ∃ a, some a ∈ states ∧ k ∈ negKeys a := by
  simp [allNeg]

theorem continuous_agree (sqrt : F → F) {states : List (Option (H3Accumulator F (Extended F)))}
    (hsampled : ∀ a, some a ∈ states → Sampled a)
    (hfits : SketchFits (allPos states).length (allNeg states).length) :
    ContinuousAgree sqrt (encodeAll states) := by
  have hR := tracks_bins (F := F) hfits
  have hgood : ∀ value ∈ encodeAll states,
      Good (BinsIn (allPos states) (allNeg states) : H3Accumulator F (Extended F) → Prop)
        value := by
    rintro value hvalue bytes rfl
    obtain ⟨state, hstate, hbytes⟩ := List.mem_map.mp hvalue
    obtain ⟨a, rfl, rfl⟩ := Option.map_eq_some_iff.mp hbytes
    have hpos : ∀ k ∈ posKeys a, k ∈ allPos states := fun k hk => mem_allPos.mpr ⟨a, hstate, hk⟩
    have hneg : ∀ k ∈ negKeys a, k ∈ allNeg states := fun k hk => mem_allNeg.mpr ⟨a, hstate, hk⟩
    obtain ⟨T, hmoments, hpositive⟩ := hsampled a hstate
    refine ⟨a.rebuilt, decode_encode_bins (hfits.mono
      (List.subperm_of_subset (posKeys_nodup a) hpos).length_le
      (List.subperm_of_subset (negKeys_nodup a) hneg).length_le),
      ⟨T, hmoments.setQuantiles _, hpositive⟩, fun k hk => hpos k ?_, fun k hk => hneg k ?_⟩
    · rwa [posKeys_rebuilt] at hk
    · rwa [negKeys_rebuilt] at hk
  intro single hsingle p hp
  obtain ⟨one, hone, hmerged⟩ := mergeAll_is hR.toFollows hgood
  obtain rfl : one = single := Except.ok.inj (hone.symm.trans hsingle)
  obtain ⟨state, hrun, hstate⟩ := run_is hR p fun v hv => hgood v (hp.mem_iff.mp hv)
  have hperm : (contributions (H3Accumulator F (Extended F)) p.leaves).Perm
      (contributions _ (encodeAll states)) := contributions_perm hp
  refine ⟨state, hrun, ?_⟩
  cases one with
  | none =>
    cases state with
    | none => rfl
    | some acc' => exact absurd (hmerged ▸ hperm).eq_nil hstate.1
  | some acc =>
    cases state with
    | none => exact absurd (hstate ▸ hperm).symm.eq_nil hmerged.1
    | some acc' =>
      have hmoments := hstate.2.moments
      rw [(hperm.map samplesOf).sum_eq] at hmoments
      exact congrArg some (continuousRow_eq sqrt hmoments hmerged.2.moments)

/-! ### Every bin is kept -/

/-- A sketch that has counted nothing has no bins. -/
structure SketchSound (q : QuantileSketch F) : Prop where
  nonneg : 0 ≤ q.totalCount
  empty : q.totalCount = 0 → q.posBins.entries = [] ∧ q.negBins.entries = []

structure Sound (acc : H3Accumulator F (Extended F)) : Prop where
  sketch : ∀ q, acc.quantiles = some q → SketchSound q
  empty : acc.count = 0 → posKeys acc = [] ∧ negKeys acc = []

omit [IsStrictOrderedRing F] [Bytes.Codec F] [Bytes.Codec (Extended F)] in
theorem Sound.rebuilt {acc : H3Accumulator F (Extended F)} (h : Sound acc) : Sound acc.rebuilt := by
  refine ⟨fun q hq => ?_, fun hzero => ?_⟩
  · obtain ⟨q', hq', rfl⟩ := Option.map_eq_some_iff.mp hq
    refine ⟨(h.sketch q' hq').nonneg, fun hzero => ?_⟩
    have hempty := (h.sketch q' hq').empty hzero
    simpa [QuantileSketch.rebuilt] using hempty
  · rw [posKeys_rebuilt, negKeys_rebuilt]
    exact h.empty hzero

omit [Bytes.Codec F] [Bytes.Codec (Extended F)] in
theorem SketchSound.merge {q q' : QuantileSketch F} (h : SketchSound q) (h' : SketchSound q') :
    SketchSound (q.merge q') ∧
      (∀ k, k ∈ (q.merge q').posBins.entries.map Prod.fst ↔
        k ∈ q.posBins.entries.map Prod.fst ∨ k ∈ q'.posBins.entries.map Prod.fst) ∧
      ∀ k, k ∈ (q.merge q').negBins.entries.map Prod.fst ↔
        k ∈ q.negBins.entries.map Prod.fst ∨ k ∈ q'.negBins.entries.map Prod.fst := by
  rw [QuantileSketch.merge]
  split
  next hzero' =>
    obtain ⟨hpos, hneg⟩ := h'.empty (beq_iff_eq.mp hzero')
    rw [hpos, hneg]
    exact ⟨h, by simp, by simp⟩
  next hsome' =>
    split
    next hzero =>
      obtain ⟨hpos, hneg⟩ := h.empty (beq_iff_eq.mp hzero)
      rw [hpos, hneg]
      exact ⟨⟨h'.nonneg, h'.empty⟩, by simp, by simp⟩
    next hsome =>
      have hpos : 0 < q.totalCount :=
        lt_of_le_of_ne h.nonneg fun heq => hsome (beq_iff_eq.mpr heq.symm)
      have htotal : 0 < q.totalCount + q'.totalCount := add_pos_of_pos_of_nonneg hpos h'.nonneg
      exact ⟨⟨htotal.le, fun hzero => absurd hzero htotal.ne'⟩,
        fun _ => Table.mem_keys_upsertAll, fun _ => Table.mem_keys_upsertAll⟩

omit [Bytes.Codec F] [Bytes.Codec (Extended F)] in
/-- An accumulator with a sketch keeps its bins and takes those of every other. -/
theorem Sound.merge_keeps {acc other : H3Accumulator F (Extended F)} {q : QuantileSketch F}
    (h : SketchSound q) (hacc : acc.quantiles = some q) (hother : Sound other) :
    ∃ q', (acc.merge other).quantiles = some q' ∧ SketchSound q' ∧
      (∀ k, k ∈ posKeys acc ∨ k ∈ posKeys other → k ∈ posKeys (acc.merge other)) ∧
      ∀ k, k ∈ negKeys acc ∨ k ∈ negKeys other → k ∈ negKeys (acc.merge other) := by
  have hquantiles := quantiles_merge acc other
  split at hquantiles
  next hzero =>
    obtain ⟨hpos, hneg⟩ := hother.empty (beq_iff_eq.mp hzero)
    refine ⟨q, hquantiles.trans hacc, h, ?_, ?_⟩
    · rw [hpos, posKeys, posKeys, hquantiles]
      simp
    · rw [hneg, negKeys, negKeys, hquantiles]
      simp
  next =>
    rw [mergeQuantiles.eq_def, hacc] at hquantiles
    cases hsketch : other.quantiles with
    | none =>
      rw [hsketch] at hquantiles
      refine ⟨q, hquantiles, h, ?_, ?_⟩
      · simp [posKeys, hquantiles, hacc, hsketch]
      · simp [negKeys, hquantiles, hacc, hsketch]
    | some q' =>
      rw [hsketch] at hquantiles
      obtain ⟨hsound, hpos, hneg⟩ := h.merge (hother.sketch q' hsketch)
      refine ⟨_, hquantiles, hsound, fun k hk => ?_, fun k hk => ?_⟩
      · rw [posKeys, hquantiles]
        refine (hpos k).mpr ?_
        rwa [posKeys, posKeys, hacc, hsketch] at hk
      · rw [negKeys, hquantiles]
        refine (hneg k).mpr ?_
        rwa [negKeys, negKeys, hacc, hsketch] at hk

/-- A state is read back exactly if its bins are few enough. -/
def BinsFit (acc : H3Accumulator F (Extended F)) : Prop :=
  SketchFits (posKeys acc).length (negKeys acc).length

omit [IsStrictOrderedRing F] in
theorem mergeStates_fits {states : List (Option (H3Accumulator F (Extended F)))}
    {state : Option (H3Accumulator F (Extended F))} (h : ∀ a, some a ∈ states → BinsFit a) :
    ∃ state', mergeStates state (encodeAll states) = .ok state' := by
  induction states generalizing state with
  | nil => exact ⟨state, rfl⟩
  | cons value states ih =>
    have hrest : ∀ a, some a ∈ states → BinsFit a := fun a ha => h a (List.mem_cons_of_mem _ ha)
    cases value with
    | none => exact ih hrest
    | some a =>
      have hdecode := decode_encode_bins (h a List.mem_cons_self)
      rw [encodeAll, List.map_cons]
      simp only [stateOf, Option.map_some, mergeStates, hdecode]
      cases state with
      | none => exact ih hrest
      | some acc => exact ih hrest

/-- Behind a state with a sketch nothing is lost. -/
theorem mergeStates_keeps {states : List (Option (H3Accumulator F (Extended F)))}
    (hsound : ∀ a, some a ∈ states → Sound a) (hread : ∀ a, some a ∈ states → BinsFit a)
    {acc : H3Accumulator F (Extended F)} {q : QuantileSketch F} (hq : acc.quantiles = some q)
    (h : SketchSound q) :
    ∃ acc', mergeStates (some acc) (encodeAll states) = .ok (some acc') ∧
      (∀ k, k ∈ posKeys acc ∨ k ∈ allPos states → k ∈ posKeys acc') ∧
      ∀ k, k ∈ negKeys acc ∨ k ∈ allNeg states → k ∈ negKeys acc' := by
  induction states generalizing acc q with
  | nil => exact ⟨acc, rfl, by simp [allPos], by simp [allNeg]⟩
  | cons value states ih =>
    have hsound' : ∀ a, some a ∈ states → Sound a := fun a ha => hsound a (List.mem_cons_of_mem _ ha)
    have hread' : ∀ a, some a ∈ states → BinsFit a :=
      fun a ha => hread a (List.mem_cons_of_mem _ ha)
    cases value with
    | none => exact ih hsound' hread' hq h
    | some a =>
      obtain ⟨q', hq', hsketch, hpos, hneg⟩ :=
        Sound.merge_keeps h hq (hsound a List.mem_cons_self).rebuilt
      obtain ⟨acc', hmerge, hpos', hneg'⟩ := ih hsound' hread' hq' hsketch
      have hdecode := decode_encode_bins (hread a List.mem_cons_self)
      refine ⟨acc', ?_, fun k hk => hpos' k ?_, fun k hk => hneg' k ?_⟩
      · rw [encodeAll, List.map_cons]
        simp only [stateOf, Option.map_some, mergeStates, hdecode]
        exact hmerge
      · rcases hk with hk | hk
        · exact Or.inl (hpos k (Or.inl hk))
        · obtain ⟨b, hb, hkb⟩ := mem_allPos.mp hk
          rcases List.mem_cons.mp hb with heq | hb
          · obtain rfl := Option.some.inj heq
            exact Or.inl (hpos k (Or.inr (by rwa [posKeys_rebuilt])))
          · exact Or.inr (mem_allPos.mpr ⟨b, hb, hkb⟩)
      · rcases hk with hk | hk
        · exact Or.inl (hneg k (Or.inl hk))
        · obtain ⟨b, hb, hkb⟩ := mem_allNeg.mp hk
          rcases List.mem_cons.mp hb with heq | hb
          · obtain rfl := Option.some.inj heq
            exact Or.inl (hneg k (Or.inr (by rwa [negKeys_rebuilt])))
          · exact Or.inr (mem_allNeg.mpr ⟨b, hb, hkb⟩)

omit [Field F] [LinearOrder F] [IsStrictOrderedRing F] [Bytes.Codec F]
  [Bytes.Codec (Extended F)] in
/-- Too many bins in all: some state has a sketch. -/
theorem exists_sketch {states : List (Option (H3Accumulator F (Extended F)))}
    (h : ¬ SketchFits (allPos states).length (allNeg states).length) :
    ∃ a q, some a ∈ states ∧ a.quantiles = some q := by
  by_contra hnone
  have hempty : ∀ a, some a ∈ states → a.quantiles = none := fun a ha => by
    cases hq : a.quantiles with
    | none => rfl
    | some q => exact absurd ⟨a, q, ha, hq⟩ hnone
  have hpos : allPos states = [] := List.eq_nil_iff_forall_not_mem.mpr fun k hk => by
    obtain ⟨a, ha, hka⟩ := mem_allPos.mp hk
    rw [posKeys, hempty a ha] at hka
    cases hka
  have hneg : allNeg states = [] := List.eq_nil_iff_forall_not_mem.mpr fun k hk => by
    obtain ⟨a, ha, hka⟩ := mem_allNeg.mp hk
    rw [negKeys, hempty a ha] at hka
    cases hka
  rw [hpos, hneg] at h
  exact h ⟨by decide, by decide, by decide⟩

/-- One phase takes all the states, one with a sketch first; the next cannot read its state. -/
theorem fits_of_agree {sqrt : F → F} {states : List (Option (H3Accumulator F (Extended F)))}
    (hsound : ∀ a, some a ∈ states → Sound a) (hread : ∀ a, some a ∈ states → BinsFit a)
    (h : ContinuousAgree sqrt (encodeAll states)) :
    SketchFits (allPos states).length (allNeg states).length := by
  by_contra hmany
  obtain ⟨a, q, ha, hq⟩ := exists_sketch hmany
  obtain ⟨front, back, rfl⟩ := List.append_of_mem ha
  have hperm : (some a :: (front ++ back)).Perm (front ++ some a :: back) :=
    List.perm_middle.symm
  have hq' : a.rebuilt.quantiles = some q.rebuilt := by rw [H3Accumulator.rebuilt, hq]; rfl
  have hrest : ∀ b, some b ∈ front ++ back → some b ∈ front ++ some a :: back :=
    fun b hb => hperm.mem_iff.mp (List.mem_cons_of_mem _ hb)
  obtain ⟨acc, hmerge, hpos, hneg⟩ := mergeStates_keeps (fun b hb => hsound b (hrest b hb))
    (fun b hb => hread b (hrest b hb)) hq' ((hsound a ha).rebuilt.sketch _ hq')
  have hall : mergeStates none (encodeAll (some a :: (front ++ back))) = .ok (some acc) := by
    rw [encodeAll, List.map_cons]
    simp only [stateOf, Option.map_some, mergeStates, decode_encode_bins (hread a ha)]
    exact hmerge
  have hlarge : ¬ BinsFit acc := fun hfits => hmany (hfits.mono
    (List.subperm_of_subset (List.nodup_dedup _) fun k hk => hpos k (by
      obtain ⟨b, hb, hkb⟩ := mem_allPos.mp hk
      rcases List.mem_cons.mp (hperm.mem_iff.mpr hb) with heq | hb
      · obtain rfl := Option.some.inj heq
        exact Or.inl (by rwa [posKeys_rebuilt])
      · exact Or.inr (mem_allPos.mpr ⟨b, hb, hkb⟩))).length_le
    (List.subperm_of_subset (List.nodup_dedup _) fun k hk => hneg k (by
      obtain ⟨b, hb, hkb⟩ := mem_allNeg.mp hk
      rcases List.mem_cons.mp (hperm.mem_iff.mpr hb) with heq | hb
      · obtain rfl := Option.some.inj heq
        exact Or.inl (by rwa [negKeys_rebuilt])
      · exact Or.inr (mem_allNeg.mpr ⟨b, hb, hkb⟩))).length_le)
  let values := encodeAll (some a :: (front ++ back))
  obtain ⟨single, hsingle⟩ := mergeStates_fits hread
  obtain ⟨state, hrun, -⟩ := h single hsingle (.merge .empty (.update .empty values))
    (hperm.map stateOf)
  exact run_relay hall (decode_encode_bins_refused hlarge) state hrun

/-! ### Computed accumulators -/

section Computed

variable [Sample F] [ExactSample F]

omit [Bytes.Codec F] [Bytes.Codec (Extended F)] [ExactSample F] in
theorem SketchSound.update {q : QuantileSketch F} (h : SketchSound q) (v w : F) :
    SketchSound (q.update v w) := by
  rw [QuantileSketch.update]
  split
  · exact h
  next hcounts =>
    have hw : 0 < w := not_le.mp fun hle => hcounts (Or.inl hle)
    have htotal : 0 < q.totalCount + w := add_pos_of_nonneg_of_pos h.nonneg hw
    simp only []
    split
    · exact ⟨htotal.le, fun hzero => absurd hzero htotal.ne'⟩
    · split <;> exact ⟨htotal.le, fun hzero => absurd hzero htotal.ne'⟩

omit [Bytes.Codec F] [Bytes.Codec (Extended F)] [ExactSample F] in
theorem SketchSound.foldl {q : QuantileSketch F} (h : SketchSound q) (vals : List F) :
    SketchSound (vals.foldl (fun q v => q.update v 1) q) := by
  induction vals generalizing q with
  | nil => exact h
  | cons v vals ih => exact ih (h.update v 1)

omit [Bytes.Codec F] [Bytes.Codec (Extended F)] [IsStrictOrderedRing F] in
theorem quantiles_update (acc : H3Accumulator F (Extended F)) (v : F) :
    (acc.update v).quantiles = acc.quantiles.map fun q => q.update v 1 := by
  rw [H3Accumulator.update, if_neg (by simp [ExactSample.isFinite])]
  simp only []
  split <;> rfl

omit [Bytes.Codec F] [Bytes.Codec (Extended F)] [IsStrictOrderedRing F] in
theorem quantiles_updateWeighted (acc : H3Accumulator F (Extended F)) (v : F) {w : F}
    (hw : 0 < w) :
    (acc.updateWeighted v w).quantiles = acc.quantiles.map fun q => q.update v w := by
  rw [H3Accumulator.updateWeighted, if_neg (by simp [ExactSample.isFinite, hw])]
  simp only []
  split <;> rfl

omit [Bytes.Codec F] [Bytes.Codec (Extended F)] [IsStrictOrderedRing F] [ExactSample F] in
theorem quantiles_updateSlice (acc : H3Accumulator F (Extended F)) (vals : List F) :
    (acc.updateSlice vals).quantiles = acc.quantiles ∨
      ∃ vals' : List F, (acc.updateSlice vals).quantiles =
        acc.quantiles.map fun q => vals'.foldl (fun q v => q.update v 1) q := by
  rw [H3Accumulator.updateSlice]
  split
  · exact Or.inl rfl
  · refine Or.inr ⟨vals.filter Sample.isFinite, ?_⟩
    simp only []
    split
    · rfl
    next hcount =>
      rw [quantiles_merge, if_neg hcount, mergeQuantiles.eq_def]
      cases acc.quantiles <;> rfl

omit [Bytes.Codec F] [Bytes.Codec (Extended F)] in
theorem sketchSound_of_computes {S : Multiset (F × F)} {acc : H3Accumulator F (Extended F)}
    (h : Computes S acc) : ∀ q, acc.quantiles = some q → SketchSound q := by
  induction h with
  | empty => nofun
  | withQuantiles =>
    rintro q hq
    cases hq
    exact ⟨le_rfl, fun _ => ⟨rfl, rfl⟩⟩
  | update v _ ih =>
    intro q hq
    rw [quantiles_update] at hq
    obtain ⟨q', hq', rfl⟩ := Option.map_eq_some_iff.mp hq
    exact (ih q' hq').update v 1
  | updateWeighted v hw _ ih =>
    intro q hq
    rw [quantiles_updateWeighted _ v hw] at hq
    obtain ⟨q', hq', rfl⟩ := Option.map_eq_some_iff.mp hq
    exact (ih q' hq').update v _
  | updateSlice vals _ ih =>
    intro q hq
    rcases quantiles_updateSlice _ vals with heq | ⟨vals', heq⟩
    · exact ih q (heq ▸ hq)
    · rw [heq] at hq
      obtain ⟨q', hq', rfl⟩ := Option.map_eq_some_iff.mp hq
      exact (ih q' hq').foldl vals'
  | @merge _ _ acc other _ _ ih ih' =>
    intro q hq
    rw [quantiles_merge] at hq
    split at hq
    · exact ih q hq
    · rw [mergeQuantiles.eq_def] at hq
      cases hacc : acc.quantiles with
      | none =>
        cases hother : other.quantiles with
        | none => rw [hacc, hother] at hq; cases hq
        | some q' =>
          rw [hacc, hother] at hq
          simp only [] at hq
          split at hq
          · cases hq
            exact ih' _ hother
          · cases hq
      | some q₀ =>
        cases hother : other.quantiles with
        | none =>
          rw [hacc, hother] at hq
          cases hq
          exact ih _ hacc
        | some q' =>
          rw [hacc, hother] at hq
          cases hq
          exact ((ih q₀ hacc).merge (ih' q' hother)).1
  | applyAffine a b _ ih =>
    intro q hq
    rw [H3Accumulator.applyAffine] at hq
    split at hq
    · exact ih q hq
    · exact ih q hq

omit [Bytes.Codec F] [Bytes.Codec (Extended F)] in
/-- Without a sample there are no bins. -/
theorem keys_of_computes_zero {S : Multiset (F × F)} {acc : H3Accumulator F (Extended F)}
    (h : Computes S acc) (hS : S = 0) : posKeys acc = [] ∧ negKeys acc = [] := by
  induction h with
  | empty => exact ⟨rfl, rfl⟩
  | withQuantiles => exact ⟨rfl, rfl⟩
  | update v _ _ => exact absurd hS (Multiset.cons_ne_zero)
  | updateWeighted v hw _ _ => exact absurd hS (Multiset.cons_ne_zero)
  | updateSlice vals _ ih =>
    obtain ⟨hzero, hunit⟩ := add_eq_zero.mp hS
    have hvals : vals = [] := by simpa [WeightedSamples.unit] using hunit
    subst hvals
    exact ih hzero
  | @merge _ _ acc other _ hother ih _ =>
    obtain ⟨hzero, rfl⟩ := add_eq_zero.mp hS
    have hcount : (other.count == 0) = true := by
      rw [(computes_moments hother).count_beq hother.positive]
      rfl
    rw [H3Accumulator.merge, if_pos hcount]
    exact ih hzero
  | applyAffine a b _ ih =>
    have hkeys := ih (by simpa [WeightedSamples.affine] using hS)
    rw [H3Accumulator.applyAffine]
    split
    · exact hkeys
    · exact hkeys

omit [Bytes.Codec F] [Bytes.Codec (Extended F)] in
theorem sound_of_computes {S : Multiset (F × F)} {acc : H3Accumulator F (Extended F)}
    (h : Computes S acc) : Sound acc := by
  refine ⟨sketchSound_of_computes h, fun hzero => keys_of_computes_zero h ?_⟩
  have hcount := (computes_moments h).count_beq h.positive
  rw [beq_iff_eq.mpr hzero] at hcount
  exact of_decide_eq_true hcount.symm

theorem continuous_agree_iff (sqrt : F → F)
    {states : List (Option (H3Accumulator F (Extended F)))}
    (hcomputed : ∀ a, some a ∈ states → ∃ S, Computes S a) :
    ContinuousAgree sqrt (encodeAll states) ↔
      (∃ a, some a ∈ states ∧ ¬ SketchFits (posKeys a).length (negKeys a).length) ∨
        SketchFits (allPos states).length (allNeg states).length := by
  have hsound : ∀ a, some a ∈ states → Sound a := fun a ha =>
    sound_of_computes (hcomputed a ha).choose_spec
  constructor
  · intro h
    by_cases hread : ∀ a, some a ∈ states → BinsFit a
    · exact Or.inr (fits_of_agree hsound hread h)
    · obtain ⟨a, hno⟩ := not_forall.mp hread
      obtain ⟨ha, hno⟩ := Classical.not_imp.mp hno
      exact Or.inl ⟨a, ha, hno⟩
  · rintro (⟨a, ha, hno⟩ | hfits)
    · intro single hsingle
      exact absurd hsingle (mergeStates_refused ha (decode_encode_bins_refused hno) single)
    · refine continuous_agree sqrt (fun a ha => ?_) hfits
      obtain ⟨S, hS⟩ := hcomputed a ha
      exact ⟨S, computes_moments hS, hS.positive⟩

end Computed

end Continuous

end RasterH3.Sedona
