import RasterH3.Agg.Quantiles
import RasterH3.Lib.Related
import Mathlib.Analysis.SpecialFunctions.Exp

/-!
# One sweep for all quantiles

A quantile is found by walking over the bins of a sketch until the weights passed reach its
rank, and then by going into that bin by what is missing. For several quantiles the code
sorts the requests by rank and sweeps over the bins once.

At each bin those that the total reaches are the first ones of the requests left, and they
are answered as the walk for each alone would answer them (`settle_spec`, `sweep_eq`).
Nothing is asked of the weights for this; a total that goes down again reaches no rank that
it had not reached before. Requests that need no walk, among them those for the extremes,
are answered before; the answers are written at the places of the requests, so that the
order of the sweep does not show (`quantilesBatch_eq`).

That quantiles are ordered needs positive weights, which every update has
(`Built.positive`): within a bin the value grows with the rank, and a bin ends where the
next one begins or before. The negative bins come first, in descending order of their keys,
then zero, then the positive ones. The bounds of a bin are an exponential of its key, a
parameter with the few properties that are used; at the end it is instantiated with the real
exponential and the constant of the source.

A plan asks for the probabilities of several targets, each probability once, and finds them
again by comparing. A target is therefore resolved by slots (`Resolves`), and what it
evaluates to is what it would alone.
-/

namespace RasterH3.Agg

open HashTable

variable {F : Type} [Field F] [LinearOrder F]

namespace QuantileSketch

/-! ## The sweep -/

/-- Answers are written at the places of the requests. -/
def answerAll (value : F → Option F) (pending : List (Pending F)) (results : List (Option F)) :
    List (Option F) :=
  pending.foldl (fun results p => results.set p.2 (value p.1)) results

omit [Field F] [LinearOrder F] in
theorem answerAll_append (value : F → Option F) (l m : List (Pending F))
    (results : List (Option F)) :
    answerAll value (l ++ m) results = answerAll value m (answerAll value l results) :=
  List.foldl_append

omit [Field F] [LinearOrder F] in
theorem answerAll_congr {value value' : F → Option F} {pending : List (Pending F)}
    (h : ∀ p ∈ pending, value p.1 = value' p.1) (results : List (Option F)) :
    answerAll value pending results = answerAll value' pending results := by
  induction pending generalizing results with
  | nil => rfl
  | cons p pending ih =>
    have hfirst := h p List.mem_cons_self
    show answerAll value pending (results.set p.2 (value p.1)) =
      answerAll value' pending (results.set p.2 (value' p.1))
    rw [hfirst, ih fun p' hp' => h p' (List.mem_cons_of_mem p hp')]

omit [Field F] in
/-- What is settled is what the total reaches, and it comes first. -/
theorem settle_spec (cum : F) (valueAt : F → F) {pending : List (Pending F)}
    (hsorted : pending.Pairwise fun a b => a.1 ≤ b.1) (results : List (Option F)) :
    ∃ settled rest, pending = settled ++ rest ∧ (∀ p ∈ settled, p.1 ≤ cum) ∧
      (∀ p ∈ rest, cum < p.1) ∧ settle cum valueAt pending results =
        (rest, answerAll (fun rank => some (valueAt rank)) settled results) := by
  induction pending generalizing results with
  | nil => exact ⟨[], [], rfl, nofun, nofun, rfl⟩
  | cons p pending ih =>
    obtain ⟨hfirst, hrest⟩ := List.pairwise_cons.mp hsorted
    rw [settle]
    by_cases hcum : cum < p.1
    · refine ⟨[], p :: pending, rfl, nofun, fun p' hp' => ?_, by rw [if_pos hcum]; rfl⟩
      rcases List.mem_cons.mp hp' with rfl | hp'
      · exact hcum
      · exact hcum.trans_le (hfirst p' hp')
    · obtain ⟨settled, rest, rfl, hreached, hbeyond, heq⟩ :=
        ih hrest (results.set p.2 (some (valueAt p.1)))
      refine ⟨p :: settled, rest, rfl, fun p' hp' => ?_, hbeyond, by rw [if_neg hcum, heq]; rfl⟩
      rcases List.mem_cons.mp hp' with rfl | hp'
      · exact not_lt.mp hcum
      · exact hreached p' hp'

theorem sweep_eq (min max : F) (stops : List (Stop F)) (prior : F) {pending : List (Pending F)}
    (hsorted : pending.Pairwise fun a b => a.1 ≤ b.1) (results : List (Option F)) :
    sweep min max prior stops pending results =
      answerAll (fun rank => some (walk min max rank prior stops)) pending results := by
  induction stops generalizing prior pending results with
  | nil => rfl
  | cons stop rest ih =>
    obtain ⟨settled, later, rfl, hreached, hbeyond, heq⟩ := settle_spec (prior + stop.count)
      (fun rank => clampTo min max (stop.valueAt (fraction rank prior stop.count))) hsorted results
    have hhere : answerAll (fun rank => some (walk min max rank prior (stop :: rest))) settled
        results = answerAll (fun rank => some (clampTo min max
          (stop.valueAt (fraction rank prior stop.count)))) settled results :=
      answerAll_congr (fun p hp => by rw [walk, if_pos (hreached p hp)]) results
    have hlater : ∀ results', answerAll (fun rank => some (walk min max rank prior (stop :: rest)))
        later results' =
          answerAll (fun rank => some (walk min max rank (prior + stop.count) rest)) later
            results' :=
      answerAll_congr fun p hp => by rw [walk, if_neg (not_le.mpr (hbeyond p hp))]
    rw [answerAll_append, hhere, hlater, sweep, heq]
    cases later with
    | nil => rfl
    | cons p later =>
      exact ih (prior + stop.count) (List.pairwise_append.mp hsorted).2.1 _

/-! ## Where the answers go -/

omit [Field F] [LinearOrder F] in
theorem getElem?_answerAll_of_notMem (value : F → Option F) {pending : List (Pending F)} {i : Nat}
    (hi : i ∉ pending.map Prod.snd) (results : List (Option F)) :
    (answerAll value pending results)[i]? = results[i]? := by
  induction pending generalizing results with
  | nil => rfl
  | cons p pending ih =>
    rw [List.map_cons, List.mem_cons, not_or] at hi
    show (answerAll value pending _)[i]? = _
    rw [ih hi.2, List.getElem?_set_ne (Ne.symm hi.1)]

omit [Field F] [LinearOrder F] in
theorem getElem?_answerAll (value : F → Option F) {pending : List (Pending F)} {rank : F} {i : Nat}
    (hnodup : (pending.map Prod.snd).Nodup) (hmem : (rank, i) ∈ pending)
    {results : List (Option F)} (hi : i < results.length) :
    (answerAll value pending results)[i]? = some (value rank) := by
  induction pending generalizing results with
  | nil => cases hmem
  | cons p pending ih =>
    rw [List.map_cons, List.nodup_cons] at hnodup
    show (answerAll value pending _)[i]? = _
    rcases List.mem_cons.mp hmem with rfl | hmem
    · rw [getElem?_answerAll_of_notMem value hnodup.1, List.getElem?_set_self hi]
    · exact ih hnodup.2 hmem (by rwa [List.length_set])

/-- The requests that need the walk, with their ranks and places. -/
def pendingOf (s : QuantileSketch F) (targets : List (Option F)) (min max : F) :
    List (Pending F) :=
  targets.zipIdx.filterMap fun (q, i) =>
    match fixedAnswer min max q with
    | some _ => none
    | none => q.map fun q => (q * s.totalCount, i)

theorem mem_pendingOf {s : QuantileSketch F} {targets : List (Option F)} {min max rank : F}
    {i : Nat} : (rank, i) ∈ pendingOf s targets min max ↔
      ∃ q, targets[i]? = some (some q) ∧ fixedAnswer min max (some q) = none ∧
        rank = q * s.totalCount := by
  rw [pendingOf, List.mem_filterMap]
  constructor
  · intro ⟨⟨q, j⟩, hmem, hq⟩
    rw [List.mk_mem_zipIdx_iff_getElem?] at hmem
    cases hfixed : fixedAnswer min max q with
    | some answer => simp [hfixed] at hq
    | none =>
      simp only [hfixed, Option.map_eq_some_iff] at hq
      obtain ⟨q, rfl, heq⟩ := hq
      cases heq
      exact ⟨q, hmem, hfixed, rfl⟩
  · intro ⟨q, hmem, hfixed, hrank⟩
    refine ⟨(some q, i), List.mk_mem_zipIdx_iff_getElem?.mpr hmem, ?_⟩
    simp [hfixed, hrank]

theorem pendingOf_places (s : QuantileSketch F) (targets : List (Option F)) (min max : F) :
    ((pendingOf s targets min max).map Prod.snd).Nodup := by
  have hplaces : (targets.zipIdx.map Prod.snd).Nodup := by
    rw [List.zipIdx_map_snd]
    exact List.nodup_range'
  rw [List.nodup_iff_pairwise_ne, List.pairwise_map] at hplaces ⊢
  rw [pendingOf, List.pairwise_filterMap]
  refine hplaces.imp fun {a b} hne p hp p' hp' => ?_
  have hplace : ∀ {a : Option F × Nat} {p : Pending F},
      (match fixedAnswer min max a.1 with
        | some _ => none
        | none => a.1.map fun q => (q * s.totalCount, a.2)) = some p → p.2 = a.2 := by
    intro a p hp
    cases hfixed : fixedAnswer min max a.1 with
    | some answer => simp [hfixed] at hp
    | none =>
      simp only [hfixed, Option.map_eq_some_iff] at hp
      obtain ⟨q, -, rfl⟩ := hp
      rfl
  rw [hplace hp, hplace hp']
  exact hne

/-- The answers are those of the walk, written over the fixed ones. -/
theorem quantilesBatch_walked (bins : LogBins F) {s : QuantileSketch F}
    (hcounted : ¬s.totalCount ≤ 0) (targets : List (Option F)) (min max : F) :
    s.quantilesBatch bins targets min max =
      answerAll (fun rank => some (walk min max rank 0 (stops bins s)))
        ((pendingOf s targets min max).insertionSort fun a b => a.1 ≤ b.1)
        (targets.map fun q => (fixedAnswer min max q).getD none) := by
  have hsorted := List.pairwise_insertionSort (fun a b : Pending F => a.1 ≤ b.1)
    (pendingOf s targets min max)
  rw [← sweep_eq min max (stops bins s) 0 hsorted, quantilesBatch, if_neg hcounted]
  show (if (pendingOf s targets min max).isEmpty then _ else _) = _
  split
  next hnone =>
    rw [List.isEmpty_iff.mp hnone]
    cases stops bins s <;> rfl
  next => rfl

theorem quantile_of_fixed (bins : LogBins F) {s : QuantileSketch F} (hcounted : ¬s.totalCount ≤ 0)
    {q answer : Option F} {min max : F} (h : fixedAnswer min max q = some answer) :
    s.quantile bins q min max = answer := by
  rw [quantile, if_neg hcounted, h]

theorem quantile_of_walk (bins : LogBins F) {s : QuantileSketch F} (hcounted : ¬s.totalCount ≤ 0)
    {q min max : F} (h : fixedAnswer min max (some q) = none) :
    s.quantile bins (some q) min max =
      some (walk min max (q * s.totalCount) 0 (stops bins s)) := by
  rw [quantile, if_neg hcounted, h]
  rfl

/-- The batch is the quantile of each request. -/
theorem quantilesBatch_eq (bins : LogBins F) (s : QuantileSketch F) (targets : List (Option F))
    (min max : F) :
    s.quantilesBatch bins targets min max = targets.map fun q => s.quantile bins q min max := by
  by_cases hcounted : s.totalCount ≤ 0
  · simp only [quantilesBatch, quantile, if_pos hcounted, List.map_const']
  · rw [quantilesBatch_walked bins hcounted]
    have hperm := List.perm_insertionSort (fun a b : Pending F => a.1 ≤ b.1)
      (pendingOf s targets min max)
    have hnodup := (hperm.map Prod.snd).nodup_iff.mpr (pendingOf_places s targets min max)
    have hunsent : ∀ i, (∀ q, targets[i]? = some q → fixedAnswer min max q ≠ none) →
        i ∉ ((pendingOf s targets min max).insertionSort fun a b => a.1 ≤ b.1).map Prod.snd := by
      intro i hi hmem
      obtain ⟨⟨rank, j⟩, hp, rfl⟩ := List.mem_map.mp hmem
      obtain ⟨q, hq, hfixed, -⟩ := mem_pendingOf.mp (hperm.mem_iff.mp hp)
      exact hi _ hq hfixed
    refine List.ext_getElem? fun i => ?_
    rw [List.getElem?_map]
    cases hq : targets[i]? with
    | none =>
      rw [getElem?_answerAll_of_notMem _ (hunsent i fun q h => by rw [hq] at h; cases h),
        List.getElem?_map, hq]
      rfl
    | some q =>
      cases hfixed : fixedAnswer min max q with
      | some answer =>
        have hplace : ∀ q', targets[i]? = some q' → fixedAnswer min max q' ≠ none := by
          intro q' h
          obtain rfl := Option.some.inj (hq.symm.trans h)
          rw [hfixed]
          exact Option.some_ne_none answer
        rw [getElem?_answerAll_of_notMem _ (hunsent i hplace), List.getElem?_map, hq,
          Option.map_some, Option.map_some, hfixed, quantile_of_fixed bins hcounted hfixed]
        rfl
      | none =>
        cases q with
        | none => cases hfixed
        | some q =>
          have hmem := hperm.mem_iff.mpr (mem_pendingOf.mpr ⟨q, hq, hfixed, rfl⟩)
          have hi : i < targets.length := (List.getElem?_eq_some_iff.mp hq).1
          rw [getElem?_answerAll _ hnodup hmem (by rwa [List.length_map]), Option.map_some,
            quantile_of_walk bins hcounted hfixed]

/-! ## The order of the bins -/

section Order

variable [IsStrictOrderedRing F]

/-- A bin with weight whose value grows with the fraction. -/
structure Stop.Grows (stop : Stop F) : Prop where
  count_pos : 0 < stop.count
  mono : ∀ f f', 0 ≤ f → f ≤ f' → f' ≤ 1 → stop.valueAt f ≤ stop.valueAt f'

/-- Each bin ends before those after it begin. -/
def InOrder (stops : List (Stop F)) : Prop :=
  (∀ stop ∈ stops, stop.Grows) ∧ stops.Pairwise fun a b => a.valueAt 1 ≤ b.valueAt 0

omit [Field F] [IsStrictOrderedRing F] in
theorem clampTo_mono (lo hi : F) {v v' : F} (h : v ≤ v') : clampTo lo hi v ≤ clampTo lo hi v' :=
  max_le_max le_rfl (min_le_min le_rfl h)

omit [Field F] [IsStrictOrderedRing F] in
theorem clampTo_mem {lo hi : F} (h : lo ≤ hi) (v : F) :
    lo ≤ clampTo lo hi v ∧ clampTo lo hi v ≤ hi :=
  ⟨le_max_left _ _, max_le h (min_le_left _ _)⟩

theorem fraction_mem (rank prior count : F) : 0 ≤ fraction rank prior count ∧
    fraction rank prior count ≤ 1 := by
  rw [fraction]
  split
  · exact clampTo_mem zero_le_one _
  · constructor <;> norm_num

theorem fraction_mono {rank rank' prior count : F} (hcount : 0 < count) (h : rank ≤ rank') :
    fraction rank prior count ≤ fraction rank' prior count := by
  rw [fraction, fraction, if_pos hcount, if_pos hcount]
  refine clampTo_mono 0 1 (div_le_div_of_nonneg_right ?_ hcount.le)
  linarith

omit [IsStrictOrderedRing F] in
theorem walk_mem {lo hi : F} (h : lo ≤ hi) (rank prior : F) (stops : List (Stop F)) :
    lo ≤ walk lo hi rank prior stops ∧ walk lo hi rank prior stops ≤ hi := by
  induction stops generalizing prior with
  | nil => exact ⟨h, le_rfl⟩
  | cons stop rest ih =>
    rw [walk]
    split
    · exact clampTo_mem h _
    · exact ih _

/-- What lies before all bins is no more than what the walk finds. -/
theorem clampTo_le_walk {lo hi v : F} (hle : lo ≤ hi) (rank prior : F) {stops : List (Stop F)}
    (hgrows : ∀ stop ∈ stops, stop.Grows) (hv : ∀ stop ∈ stops, v ≤ stop.valueAt 0) :
    clampTo lo hi v ≤ walk lo hi rank prior stops := by
  induction stops generalizing prior with
  | nil => exact (clampTo_mem hle v).2
  | cons stop rest ih =>
    rw [walk]
    split
    · have hfraction := fraction_mem rank prior stop.count
      refine clampTo_mono lo hi ((hv stop List.mem_cons_self).trans ?_)
      exact (hgrows stop List.mem_cons_self).mono _ _ le_rfl hfraction.1 hfraction.2
    · exact ih _ (fun s hs => hgrows s (List.mem_cons_of_mem _ hs))
        fun s hs => hv s (List.mem_cons_of_mem _ hs)

theorem walk_mono {lo hi : F} (hle : lo ≤ hi) {rank rank' : F} (h : rank ≤ rank') (prior : F)
    {stops : List (Stop F)} (horder : InOrder stops) :
    walk lo hi rank prior stops ≤ walk lo hi rank' prior stops := by
  induction stops generalizing prior with
  | nil => exact le_rfl
  | cons stop rest ih =>
    obtain ⟨hgrows, hends⟩ := horder
    obtain ⟨hnext, hrest⟩ := List.pairwise_cons.mp hends
    have hthis := hgrows stop List.mem_cons_self
    have hlater : ∀ s ∈ rest, s.Grows := fun s hs => hgrows s (List.mem_cons_of_mem _ hs)
    have hfraction := fraction_mem rank prior stop.count
    have hfraction' := fraction_mem rank' prior stop.count
    rw [walk, walk]
    by_cases hreached' : rank' ≤ prior + stop.count
    · rw [if_pos (h.trans hreached'), if_pos hreached']
      exact clampTo_mono lo hi (hthis.mono _ _ hfraction.1 (fraction_mono hthis.count_pos h)
        hfraction'.2)
    · rw [if_neg hreached']
      by_cases hreached : rank ≤ prior + stop.count
      · rw [if_pos hreached]
        have hend := hthis.mono _ 1 hfraction.1 hfraction.2 le_rfl
        exact (clampTo_mono lo hi hend).trans (clampTo_le_walk hle rank' _ hlater hnext)
      · rw [if_neg hreached]
        exact ih _ ⟨hlater, hrest⟩

/-! ## The bins of a sketch -/

/-- What updates and merges lead to. -/
inductive Built [Sample F] : QuantileSketch F → Prop
  | new : Built new
  | update {s : QuantileSketch F} (val weight : F) : Built s → Built (s.update val weight)
  | merge {s other : QuantileSketch F} : Built s → Built other → Built (s.merge other)

/-- Only positive weights have been added. -/
structure Positive (s : QuantileSketch F) : Prop where
  zero : 0 ≤ s.zeroCount
  pos : ∀ bin ∈ s.posBins.entries, 0 < bin.2
  neg : ∀ bin ∈ s.negBins.entries, 0 < bin.2

theorem addBins_pos {bins other : Table Int32 F} (h : ∀ bin ∈ bins.entries, 0 < bin.2)
    (h' : ∀ bin ∈ other.entries, 0 < bin.2) : ∀ bin ∈ (addBins bins other).entries, 0 < bin.2 :=
  Table.forall_upsertAll (P := (0 < ·)) h fun bin hbin =>
    ⟨by simpa using h' bin hbin, fun v hv => add_pos hv (h' bin hbin)⟩

theorem Positive.update [Sample F] {s : QuantileSketch F} (h : s.Positive) (val weight : F) :
    (s.update val weight).Positive := by
  rw [QuantileSketch.update]
  split
  · exact h
  next hcounts =>
    have hweight : 0 < weight := not_le.mp fun hle => hcounts (Or.inl hle)
    have hgrow : ∀ v : F, 0 < v → 0 < v + weight := fun v hv => add_pos hv hweight
    have hnew : 0 < 0 + weight := by rwa [zero_add]
    simp only
    split
    · exact ⟨add_nonneg h.zero hweight.le, h.pos, h.neg⟩
    · split
      · exact ⟨h.zero, Table.forall_upsert (P := (0 < ·)) h.pos hnew hgrow, h.neg⟩
      · exact ⟨h.zero, h.pos, Table.forall_upsert (P := (0 < ·)) h.neg hnew hgrow⟩

theorem Positive.merge {s other : QuantileSketch F} (h : s.Positive) (h' : other.Positive) :
    (s.merge other).Positive := by
  rw [QuantileSketch.merge]
  split
  · exact h
  · split
    · exact ⟨h'.zero, h'.pos, h'.neg⟩
    · exact ⟨add_nonneg h.zero h'.zero, addBins_pos h.pos h'.pos, addBins_pos h.neg h'.neg⟩

theorem Built.positive [Sample F] {s : QuantileSketch F} (h : Built s) : s.Positive := by
  induction h with
  | new => exact ⟨le_rfl, nofun, nofun⟩
  | update val weight _ ih => exact ih.update val weight
  | merge _ _ ih ih' => exact ih.merge ih'

theorem one_le_gamma : (1 : F) ≤ gamma := by
  rw [gamma, le_div_iff₀ (by norm_num)]
  norm_num

/-- What a bin gains between two fractions of its way. -/
theorem gain_nonneg (bins : LogBins F) (key : Int32) {f f' : F} (h : f ≤ f') :
    0 ≤ bins.lowerBound key * ((f' - f) * (gamma - 1)) :=
  mul_nonneg (bins.pos key).le (mul_nonneg (sub_nonneg.mpr h) (sub_nonneg.mpr one_le_gamma))

theorem neg_grows (bins : LogBins F) {bin : Int32 × F} (hpos : 0 < bin.2) :
    Stop.Grows ⟨bin.2, fun f => -bins.lowerBound bin.1 * (gamma - f * (gamma - 1))⟩ := by
  refine ⟨hpos, fun f f' _ hff' _ => ?_⟩
  have hgain := gain_nonneg bins bin.1 hff'
  show -bins.lowerBound bin.1 * (gamma - f * (gamma - 1)) ≤
    -bins.lowerBound bin.1 * (gamma - f' * (gamma - 1))
  linarith

theorem pos_grows (bins : LogBins F) {bin : Int32 × F} (hpos : 0 < bin.2) :
    Stop.Grows ⟨bin.2, fun f => bins.lowerBound bin.1 * (1 + f * (gamma - 1))⟩ := by
  refine ⟨hpos, fun f f' _ hff' _ => ?_⟩
  have hgain := gain_nonneg bins bin.1 hff'
  show bins.lowerBound bin.1 * (1 + f * (gamma - 1)) ≤
    bins.lowerBound bin.1 * (1 + f' * (gamma - 1))
  linarith

omit [Field F] [LinearOrder F] [IsStrictOrderedRing F] in
/-- Sorted by their keys, the bins of a table have different keys. -/
theorem sorted_keys_ne (r : Int32 × F → Int32 × F → Prop) [DecidableRel r]
    {entries : List (Int32 × F)} (hnodup : (entries.map Prod.fst).Nodup) :
    (entries.insertionSort r).Pairwise fun a b => a.1 ≠ b.1 := by
  have hkeys := ((List.perm_insertionSort r entries).map Prod.fst).nodup_iff.mpr hnodup
  rwa [List.nodup_iff_pairwise_ne, List.pairwise_map] at hkeys

omit [Field F] [LinearOrder F] [IsStrictOrderedRing F] in
theorem ascending_keys {entries : List (Int32 × F)} (hnodup : (entries.map Prod.fst).Nodup) :
    (entries.insertionSort fun a b => a.1 ≤ b.1).Pairwise fun a b => a.1 < b.1 :=
  (List.pairwise_insertionSort _ _).imp₂ (fun _ _ hle hne => Int32.lt_of_le_of_ne hle hne)
    (sorted_keys_ne _ hnodup)

omit [Field F] [LinearOrder F] [IsStrictOrderedRing F] in
theorem descending_keys {entries : List (Int32 × F)} (hnodup : (entries.map Prod.fst).Nodup) :
    (entries.insertionSort fun a b => b.1 ≤ a.1).Pairwise fun a b => b.1 < a.1 := by
  have htrans : IsTrans (Int32 × F) fun a b => b.1 ≤ a.1 := ⟨fun _ _ _ h h' => Int32.le_trans h' h⟩
  have htotal : Std.Total fun a b : Int32 × F => b.1 ≤ a.1 := ⟨fun a b => Int32.le_total b.1 a.1⟩
  exact (List.pairwise_insertionSort _ _).imp₂
    (fun _ _ hle hne => Int32.lt_of_le_of_ne hle (Ne.symm hne)) (sorted_keys_ne _ hnodup)

theorem stops_grow (bins : LogBins F) {s : QuantileSketch F} (h : s.Positive) :
    ∀ stop ∈ stops bins s, stop.Grows := by
  intro stop hstop
  rw [stops, List.mem_append, List.mem_append] at hstop
  rcases hstop with (hneg | hzero) | hpos
  · obtain ⟨bin, hbin, rfl⟩ := List.mem_map.mp hneg
    exact neg_grows bins (h.neg bin ((List.perm_insertionSort _ _).mem_iff.mp hbin))
  · split at hzero
    next hcount =>
      obtain rfl := List.mem_singleton.mp hzero
      exact ⟨hcount, fun _ _ _ _ _ => le_rfl⟩
    next => cases hzero
  · obtain ⟨bin, hbin, rfl⟩ := List.mem_map.mp hpos
    exact pos_grows bins (h.pos bin ((List.perm_insertionSort _ _).mem_iff.mp hbin))

theorem stops_inOrder (bins : LogBins F) {s : QuantileSketch F} (h : s.Positive) :
    InOrder (stops bins s) := by
  refine ⟨stops_grow bins h, ?_⟩
  have hneg : ∀ key, -bins.lowerBound key * (gamma - 1 * (gamma - 1)) = -bins.lowerBound key :=
    fun key => by ring
  have hbelow : ∀ key, -bins.lowerBound key ≤ 0 := fun key => neg_nonpos.mpr (bins.pos key).le
  have habove : ∀ key, 0 ≤ bins.lowerBound key * (1 + 0 * (gamma - 1)) := fun key => by
    rw [zero_mul, add_zero, mul_one]
    exact (bins.pos key).le
  rw [stops, List.pairwise_append, List.pairwise_append, List.pairwise_map, List.pairwise_map]
  refine ⟨⟨?_, ?_, fun a ha b hb => ?_⟩, ?_, fun a ha b hb => ?_⟩
  · refine (descending_keys s.negBins.nodup).imp fun {a b} hkeys => ?_
    have hends := bins.ends b.1 a.1 hkeys
    show -bins.lowerBound a.1 * (gamma - 1 * (gamma - 1)) ≤
      -bins.lowerBound b.1 * (gamma - 0 * (gamma - 1))
    linarith
  · split
    · exact List.pairwise_singleton _ _
    · exact List.Pairwise.nil
  · obtain ⟨bin, -, rfl⟩ := List.mem_map.mp ha
    split at hb
    next =>
      obtain rfl := List.mem_singleton.mp hb
      exact (hneg bin.1).trans_le (hbelow bin.1)
    next => cases hb
  · refine (ascending_keys s.posBins.nodup).imp fun {a b} hkeys => ?_
    have hends := bins.ends a.1 b.1 hkeys
    show bins.lowerBound a.1 * (1 + 1 * (gamma - 1)) ≤
      bins.lowerBound b.1 * (1 + 0 * (gamma - 1))
    linarith
  · obtain ⟨bin, -, rfl⟩ := List.mem_map.mp hb
    rcases List.mem_append.mp ha with hneg' | hzero
    · obtain ⟨bin', -, rfl⟩ := List.mem_map.mp hneg'
      exact ((hneg bin'.1).trans_le (hbelow bin'.1)).trans (habove bin.1)
    · split at hzero
      next =>
        obtain rfl := List.mem_singleton.mp hzero
        exact habove bin.1
      next => cases hzero

/-! ## Monotone and within the extremes -/

omit [IsStrictOrderedRing F] in
theorem quantile_mem (bins : LogBins F) (s : QuantileSketch F) {lo hi : F} (hle : lo ≤ hi)
    {q : Option F} {v : F} (h : s.quantile bins q lo hi = some v) : lo ≤ v ∧ v ≤ hi := by
  by_cases hcounted : s.totalCount ≤ 0
  · rw [quantile, if_pos hcounted] at h
    cases h
  · cases q with
    | none =>
      rw [quantile_of_fixed bins hcounted (q := none) rfl] at h
      cases h
    | some q =>
      cases hfixed : fixedAnswer lo hi (some q) with
      | none =>
        rw [quantile_of_walk bins hcounted hfixed] at h
        cases h
        exact walk_mem hle _ _ _
      | some answer =>
        rw [quantile_of_fixed bins hcounted hfixed] at h
        subst h
        rw [fixedAnswer] at hfixed
        split at hfixed
        · cases hfixed
          exact ⟨le_rfl, hle⟩
        · split at hfixed
          · cases hfixed
            exact ⟨hle, le_rfl⟩
          · split at hfixed
            · cases hfixed
              exact ⟨le_rfl, hle⟩
            · cases hfixed

theorem quantile_mono (bins : LogBins F) {s : QuantileSketch F} (hs : s.Positive) {lo hi : F}
    (hle : lo ≤ hi) {q q' v v' : F} (hq : q ≤ q') (h : s.quantile bins (some q) lo hi = some v)
    (h' : s.quantile bins (some q') lo hi = some v') : v ≤ v' := by
  have hmem := quantile_mem bins s hle h
  have hmem' := quantile_mem bins s hle h'
  by_cases hcounted : s.totalCount ≤ 0
  · rw [quantile, if_pos hcounted] at h
    cases h
  by_cases hlow : q ≤ 0 ∨ (q < 1 ∧ |lo - hi| < 1 / 10 ^ 12)
  · have hfixed : fixedAnswer lo hi (some q) = some (some lo) := by
      simp only [fixedAnswer]
      rcases hlow with hlow | ⟨hone, hclose⟩
      · rw [if_pos hlow]
      · by_cases hzero : q ≤ 0
        · rw [if_pos hzero]
        · rw [if_neg hzero, if_neg (not_le.mpr hone), if_pos hclose]
    rw [quantile_of_fixed bins hcounted hfixed] at h
    cases h
    exact hmem'.1
  · rw [not_or] at hlow
    obtain ⟨hzero, hspread⟩ := hlow
    by_cases hone : 1 ≤ q'
    · have hfixed : fixedAnswer lo hi (some q') = some (some hi) := by
        have hzero' : ¬q' ≤ 0 := fun hle' => hzero (hq.trans hle')
        simp only [fixedAnswer, if_neg hzero', if_pos hone]
      rw [quantile_of_fixed bins hcounted hfixed] at h'
      cases h'
      exact hmem.2
    · have hbelow : q < 1 := hq.trans_lt (not_le.mp hone)
      have hwide : ¬|lo - hi| < 1 / 10 ^ 12 := fun hclose => hspread ⟨hbelow, hclose⟩
      have hfixed : fixedAnswer lo hi (some q) = none := by
        simp only [fixedAnswer, if_neg hzero, if_neg (not_le.mpr hbelow), if_neg hwide]
      have hfixed' : fixedAnswer lo hi (some q') = none := by
        have hzero' : ¬q' ≤ 0 := fun hle' => hzero (hq.trans hle')
        simp only [fixedAnswer, if_neg hzero', if_neg hone, if_neg hwide]
      rw [quantile_of_walk bins hcounted hfixed] at h
      rw [quantile_of_walk bins hcounted hfixed'] at h'
      cases h
      cases h'
      exact walk_mono hle (mul_le_mul_of_nonneg_right hq (not_le.mp hcounted).le) 0
        (stops_inOrder bins hs)

end Order

end QuantileSketch

/-! ## Plans -/

open QuantileSketch

/-- The value of one target, asked for alone. -/
def H3Accumulator.valueOf (bins : LogBins F) (acc : H3Accumulator F F) :
    QuantileTarget F → Option F
  | .percentile q => acc.quantile bins q
  | .iqr => acc.iqr bins

theorem H3Accumulator.iqr_eq (bins : LogBins F) {acc : H3Accumulator F F}
    {sketch : QuantileSketch F} (h : acc.quantiles = some sketch) :
    acc.iqr bins = spread (acc.quantile bins (some (25 / 100)))
      (acc.quantile bins (some (75 / 100))) := by
  simp only [iqr, quantile, h, quantilesBatch_eq]
  rfl

namespace QuantilePlan

/-- The output finds the probabilities of the target. -/
def Resolves (probs : List (Option F)) : QuantileTarget F → PlanOutput → Prop
  | .percentile q, .prob i => probs[i]? = some q
  | .iqr, .iqr p25 p75 =>
      probs[p25]? = some (some (25 / 100)) ∧ probs[p75]? = some (some (75 / 100))
  | _, _ => False

omit [LinearOrder F] in
theorem Resolves.extend {probs : List (Option F)} {target : QuantileTarget F}
    {output : PlanOutput} (h : Resolves probs target output) (more : List (Option F)) :
    Resolves (probs ++ more) target output := by
  cases target with
  | percentile q =>
    cases output with
    | prob i => exact Related.getElem?_of_prefix (List.prefix_append _ more) h
    | iqr p25 p75 => exact h
  | iqr =>
    cases output with
    | prob i => exact h
    | iqr p25 p75 =>
        exact ⟨Related.getElem?_of_prefix (List.prefix_append _ more) h.1,
          Related.getElem?_of_prefix (List.prefix_append _ more) h.2⟩

omit [Field F] in
theorem slot_spec (plan : QuantilePlan F) (q : Option F) :
    (plan.slot q).2.outputs = plan.outputs ∧
      (∃ more, (plan.slot q).2.probs = plan.probs ++ more) ∧
        (plan.slot q).2.probs[(plan.slot q).1]? = some q := by
  rw [slot]
  cases hfind : plan.probs.findIdx? (· = q) with
  | some i =>
    obtain ⟨hi, heq, -⟩ := List.findIdx?_eq_some_iff_getElem.mp hfind
    refine ⟨rfl, ⟨[], (List.append_nil _).symm⟩, ?_⟩
    rw [List.getElem?_eq_getElem hi, of_decide_eq_true heq]
  | none => exact ⟨rfl, ⟨[q], rfl⟩, List.getElem?_concat_length⟩

theorem add_resolves {plan : QuantilePlan F} {targets : List (QuantileTarget F)}
    (h : List.Forall₂ (Resolves plan.probs) targets plan.outputs) (target : QuantileTarget F) :
    List.Forall₂ (Resolves (plan.add target).probs) (targets ++ [target])
      (plan.add target).outputs := by
  have hlast : ∀ (output : PlanOutput) {probs : List (Option F)} {more outputs},
      probs = plan.probs ++ more → outputs = plan.outputs ++ [output] →
      Resolves probs target output →
      List.Forall₂ (Resolves probs) (targets ++ [target]) outputs := by
    intro output probs more outputs hprobs houtputs hnew
    subst hprobs
    subst houtputs
    exact List.rel_append (h.imp fun _ _ hold => hold.extend more) (.cons hnew .nil)
  cases target with
  | percentile q =>
    obtain ⟨houtputs, ⟨more, hprobs⟩, hat⟩ := plan.slot_spec q
    refine hlast (.prob (plan.slot q).1) hprobs ?_ hat
    simp only [add, houtputs]
  | iqr =>
    obtain ⟨houtputs, ⟨more, hprobs⟩, hat⟩ := plan.slot_spec (some (25 / 100))
    obtain ⟨houtputs', ⟨more', hprobs'⟩, hat'⟩ :=
      (plan.slot (some (25 / 100))).2.slot_spec (some (75 / 100))
    have hboth : ((plan.slot (some (25 / 100))).2.slot (some (75 / 100))).2.probs =
        plan.probs ++ (more ++ more') := by rw [hprobs', hprobs, List.append_assoc]
    refine hlast (.iqr (plan.slot (some (25 / 100))).1
      ((plan.slot (some (25 / 100))).2.slot (some (75 / 100))).1) hboth ?_ ⟨?_, hat'⟩
    · simp only [add, houtputs', houtputs]
    · show ((plan.slot (some (25 / 100))).2.slot (some (75 / 100))).2.probs[_]? = _
      rw [hprobs']
      exact Related.getElem?_of_prefix (List.prefix_append _ more') hat

theorem new_resolves (targets : List (QuantileTarget F)) :
    List.Forall₂ (Resolves (new targets).probs) targets (new targets).outputs := by
  induction targets using List.reverseRecOn with
  | nil => exact .nil
  | append_singleton targets target ih =>
    rw [new, List.foldl_append]
    exact add_resolves ih target

theorem outputOf_eq [IsStrictOrderedRing F] (bins : LogBins F) {acc : H3Accumulator F F}
    {sketch : QuantileSketch F} (hsketch : acc.quantiles = some sketch)
    {probs : List (Option F)} {target : QuantileTarget F} {output : PlanOutput}
    (h : Resolves probs target output) :
    outputOf (probs.map fun q => sketch.quantile bins q acc.min acc.max) output =
      acc.valueOf bins target := by
  have hvalue : ∀ {i : Nat} {q : Option F}, probs[i]? = some q →
      (probs.map fun q => sketch.quantile bins q acc.min acc.max).getD i none =
        acc.quantile bins q := by
    intro i q hq
    rw [List.getD_eq_getElem?_getD, List.getElem?_map, hq]
    simp only [H3Accumulator.quantile, hsketch]
    rfl
  cases target with
  | percentile q =>
    cases output with
    | prob i => exact hvalue h
    | iqr p25 p75 => exact absurd h id
  | iqr =>
    cases output with
    | prob i => exact absurd h id
    | iqr p25 p75 =>
      rw [H3Accumulator.valueOf, H3Accumulator.iqr_eq bins hsketch, outputOf, hvalue h.1,
        hvalue h.2]

/-- One probability serves percentiles only. -/
theorem target_of_one_prob [IsStrictOrderedRing F] {q : Option F} {target : QuantileTarget F}
    {output : PlanOutput} (h : Resolves [q] target output) : target = .percentile q := by
  have hone : ∀ {i : Nat} {q' : Option F}, [q][i]? = some q' → q' = q := by
    intro i q' hi
    obtain ⟨hlt, heq⟩ := List.getElem?_eq_some_iff.mp hi
    obtain rfl : i = 0 := Nat.lt_one_iff.mp hlt
    exact heq.symm
  cases target with
  | percentile q' =>
    cases output with
    | prob i => rw [hone h]
    | iqr p25 p75 => exact absurd h id
  | iqr =>
    cases output with
    | prob i => exact absurd h id
    | iqr p25 p75 =>
      have hsame := Option.some.inj ((hone h.1).trans (hone h.2).symm)
      norm_num at hsame

theorem evaluateInto_eq [IsStrictOrderedRing F] (bins : LogBins F)
    (targets : List (QuantileTarget F)) (acc : H3Accumulator F F) :
    (new targets).evaluateInto bins acc = targets.map (acc.valueOf bins) := by
  have hresolves := new_resolves targets
  have hlength := hresolves.length_eq
  rw [evaluateInto]
  split
  next hnone =>
    rw [List.isEmpty_iff.mp hnone] at hresolves
    cases hresolves
    rfl
  next =>
    cases hsketch : acc.quantiles with
    | none =>
      have hvalue : ∀ target, acc.valueOf bins target = none := by
        intro target
        cases target <;> simp only [H3Accumulator.valueOf, H3Accumulator.quantile,
          H3Accumulator.iqr, hsketch]
      rw [List.map_congr_left fun target _ => hvalue target, List.map_const', hlength]
    | some sketch =>
      have hmany : (new targets).outputs.map
          (outputOf (sketch.quantilesBatch bins (new targets).probs acc.min acc.max)) =
            targets.map (acc.valueOf bins) := by
        rw [quantilesBatch_eq]
        exact Related.map_eq_map hresolves.flip fun _ _ h => outputOf_eq bins hsketch h
      rcases hprobs : (new targets).probs with _ | ⟨q, _ | ⟨q', probs⟩⟩
      · rw [hprobs] at hmany
        exact hmany
      · rw [hprobs] at hresolves
        have hsame : (new targets).outputs.map
            (fun _ => sketch.quantile bins q acc.min acc.max) = targets.map (acc.valueOf bins) :=
          Related.map_eq_map hresolves.flip fun output target h => by
            rw [target_of_one_prob h, H3Accumulator.valueOf, H3Accumulator.quantile, hsketch]
        rw [List.map_const'] at hsame
        exact hsame
      · rw [hprobs] at hmany
        exact hmany

end QuantilePlan

/-! ## The whole -/

/-- The batch is pointwise for any sketch, the quantiles of a sketch that was built are ordered
and within the extremes, and a plan gives the value of each target. -/
theorem quantiles_agree [IsStrictOrderedRing F] [Sample F] (bins : LogBins F) :
    (∀ (s : QuantileSketch F) targets lo hi,
      s.quantilesBatch bins targets lo hi = targets.map fun q => s.quantile bins q lo hi) ∧
    (∀ s : QuantileSketch F, Built s → ∀ lo hi, lo ≤ hi →
      (∀ q q' v v', q ≤ q' → s.quantile bins (some q) lo hi = some v →
        s.quantile bins (some q') lo hi = some v' → v ≤ v') ∧
      ∀ q v, s.quantile bins q lo hi = some v → lo ≤ v ∧ v ≤ hi) ∧
    ∀ (targets : List (QuantileTarget F)) (acc : H3Accumulator F F),
      (QuantilePlan.new targets).evaluateInto bins acc = targets.map (acc.valueOf bins) := by
  refine ⟨quantilesBatch_eq bins, fun s hs lo hi hle => ⟨?_, ?_⟩, QuantilePlan.evaluateInto_eq bins⟩
  · exact fun q q' v v' hq h h' => quantile_mono bins hs.positive hle hq h h'
  · exact fun q v h => quantile_mem bins s hle h

/-! ## The bounds as they are computed -/

/-- The constant is no less than ln gamma. -/
theorem gamma_le_exp : (gamma : ℝ) ≤ Real.exp 0.02000066671111664 := by
  refine le_trans ?_ (Real.sum_le_exp_of_nonneg (by norm_num) 6)
  norm_num [gamma, Finset.sum_range_succ, Nat.factorial]

/-- `lower_bound` with the constant of the source. -/
noncomputable def expBins : LogBins ℝ where
  lowerBound key := Real.exp (key.toInt * 0.02000066671111664)
  pos _ := Real.exp_pos _
  ends key key' h := by
    have hnext : (key.toInt : ℝ) + 1 ≤ key'.toInt := by
      exact_mod_cast Int32.lt_iff_toInt_lt.mp h
    calc Real.exp (key.toInt * 0.02000066671111664) * gamma
        ≤ Real.exp (key.toInt * 0.02000066671111664) * Real.exp 0.02000066671111664 :=
          mul_le_mul_of_nonneg_left gamma_le_exp (Real.exp_pos _).le
      _ = Real.exp ((key.toInt + 1) * 0.02000066671111664) := by
          rw [← Real.exp_add]
          congr 1
          ring
      _ ≤ Real.exp (key'.toInt * 0.02000066671111664) :=
          Real.exp_le_exp.mpr (mul_le_mul_of_nonneg_right hnext (by norm_num))

/-- Samples of real numbers, with the bucket that the bounds say. -/
noncomputable instance : Sample ℝ where
  isFinite _ := true
  abs x := |x|
  zeroThreshold := 1 / 10 ^ 7
  keyForPositive x := Int32.ofInt ⌊Real.log x / 0.02000066671111664⌋

/-- Samples in three bins and in the bucket of zero. -/
noncomputable def someSamples : QuantileSketch ℝ :=
  (((new.update (-5) 1).update 0 2).update 2 1).update 100 3

theorem totalCount_update (s : QuantileSketch ℝ) (val : ℝ) {weight : ℝ} (h : 0 < weight) :
    (s.update val weight).totalCount = s.totalCount + weight := by
  have hcount : ¬(weight ≤ 0 ∨ Sample.isFinite val = false) := by
    simp [Sample.isFinite, h]
  rw [update, if_neg hcount]
  split
  next => rfl
  next => split <;> rfl

theorem totalCount_someSamples : someSamples.totalCount = 7 := by
  rw [someSamples, totalCount_update _ _ (by norm_num), totalCount_update _ _ (by norm_num),
    totalCount_update _ _ (by norm_num), totalCount_update _ _ (by norm_num)]
  show (0 : ℝ) + 1 + 2 + 1 + 3 = 7
  norm_num

/-- Both quartiles, asked for one by one and in a batch. -/
theorem quantiles_agree_someSamples :
    ∃ v v', someSamples.quantilesBatch expBins [some (3 / 4), none, some (1 / 4)] (-5) 100 =
        [some v', none, some v] ∧ v ≤ v' ∧ (-5 ≤ v ∧ v ≤ 100) ∧ -5 ≤ v' ∧ v' ≤ 100 := by
  have hcounted : ¬someSamples.totalCount ≤ 0 := by
    rw [totalCount_someSamples]
    norm_num
  have hbuilt : Built someSamples :=
    .update 100 3 (.update 2 1 (.update 0 2 (.update (-5) 1 .new)))
  have hfirst := quantile_of_walk expBins hcounted
    (show fixedAnswer (-5 : ℝ) 100 (some (1 / 4)) = none by norm_num [fixedAnswer])
  have hthird := quantile_of_walk expBins hcounted
    (show fixedAnswer (-5 : ℝ) 100 (some (3 / 4)) = none by norm_num [fixedAnswer])
  obtain ⟨hbatch, hbounds, -⟩ := quantiles_agree expBins
  obtain ⟨hordered, hwithin⟩ := hbounds someSamples hbuilt (-5) 100 (by norm_num)
  refine ⟨_, _, ?_, hordered _ _ _ _ (by norm_num) hfirst hthird, hwithin _ _ hfirst,
    hwithin _ _ hthird⟩
  rw [hbatch, List.map_cons, List.map_cons, List.map_singleton, hfirst, hthird,
    quantile_of_fixed expBins hcounted (q := none) rfl]

end RasterH3.Agg
