import RasterH3.Proofs.PhaseMerge
import RasterH3.Proofs.PartialCodec
import RasterH3.Proofs.MajorityOrder
import RasterH3.Lib.Pools
import Mathlib.Tactic

/-!
# Classes that go through phases

Merging pours the classes of one state into those of another, so the classes of an accumulator
are those of the states it was given, pooled in their order: the totals are the same in every
order, and a class stands where it was first seen. As long as they are few enough no phase is
refused.

From this order `majority` picks one of the classes. More than sixteen are in a table, which has
an order of its own. So the phases agree if one class beats all the others, and with more than
sixteen classes they agree for no other reason. With fewer, the class that is picked can lose to
another one and be picked nevertheless, when that other one always comes first and always has
lost the lead again (`Prevails`). It does not if a class that beats it stands behind it in some
state, because that state can come first; and it does otherwise, because the first state that has
the class brings whatever stands in front of it.
-/

namespace RasterH3.Sedona

open Agg Agg.AccumulatorMerge

/-! ## Classes -/

section Categorical

open HashTable CategoricalAccumulator

variable {F : Type} [Field F] [LinearOrder F] [IsStrictOrderedRing F]

theorem rebuilt_classes (acc : CategoricalAccumulator F) : acc.rebuilt.classes = acc.classes :=
  classes_updateAll_of_fresh acc.classes new acc.classes_nodup acc.positive

theorem built_rebuilt {acc : CategoricalAccumulator F} (h : Built acc) : Built acc.rebuilt := by
  have hbuilt : Built ((new : CategoricalAccumulator F).updateAll acc.classes) :=
    Built.new.updateAll acc.classes
  have htotal : (new.updateAll acc.classes).totalCount = acc.totalCount := by
    rw [hbuilt.totalled, h.totalled]
    exact congrArg (fun classes => (classes.map Prod.snd).sum) (rebuilt_classes acc)
  rw [rebuilt, ← htotal]
  exact hbuilt

theorem classes_updateAll {entries : List (Int64 × F)} (hpos : ∀ p ∈ entries, ¬ p.2 ≤ 0)
    (acc : CategoricalAccumulator F) :
    (acc.updateAll entries).classes = Pools.pourAll acc.classes entries := by
  induction entries generalizing acc with
  | nil => rfl
  | cons p entries ih =>
    have hw := hpos p List.mem_cons_self
    rw [updateAll, List.foldl_cons, ← updateAll, ih fun q hq => hpos q (List.mem_cons_of_mem _ hq),
      updateWeighted, dif_neg hw, classes_add_eq]
    rfl

/-- Merging pours the one's classes into the other's. -/
theorem classes_merge {acc other : CategoricalAccumulator F} (hother : Built other) :
    (acc.merge other).classes = Pools.pourAll acc.classes other.classes := by
  rw [CategoricalAccumulator.merge]
  split
  next hzero =>
    rw [classes_eq_nil_of_total hother (beq_iff_eq.mp hzero)]
    rfl
  next => exact classes_updateAll other.positive acc

/-- The table is there as soon as the classes are too many for the inline entries. -/
theorem heapCounts_eq_none_iff {acc : CategoricalAccumulator F} (h : Built acc) :
    acc.heapCounts = none ↔ acc.classes.length ≤ inlineCapacity := by
  refine Built.keeps (P := fun acc => acc.heapCounts = none ↔ acc.classes.length ≤ inlineCapacity)
    (iff_of_true rfl (Nat.zero_le _)) ?_ h
  intro acc k w hw ih
  rw [classes_add_eq]
  have hclasses : acc.classes = classesOf acc.inlineEntries acc.heapCounts := rfl
  have hroom := acc.inline_le
  rw [show (acc.add k w hw).heapCounts = (addEntry acc.inlineEntries acc.heapCounts k w).2 from rfl,
    addEntry.eq_def]
  cases hheap : acc.heapCounts with
  | some heap =>
    have hmany : ¬ acc.classes.length ≤ inlineCapacity := fun hle => by
      rw [hheap] at ih
      exact nomatch ih.mpr hle
    refine iff_of_false nofun fun hle => hmany (le_trans ?_ hle)
    split
    next => rw [Table.mapAt, List.length_map]
    next => rw [List.length_append]; omega
  | none =>
    rw [hheap] at hclasses
    rw [show acc.classes = acc.inlineEntries from hclasses]
    simp only []
    split
    next => exact iff_of_true rfl (by rwa [Table.mapAt, List.length_map])
    next =>
      rw [List.length_append, List.length_singleton]
      split
      next => exact iff_of_true rfl (by omega)
      next => exact iff_of_false nofun (by omega)

variable [Bytes.Codec F]

omit [Bytes.Codec F] in
/-- So many classes at most, and the table of a rebuilt state stays below the limit. -/
theorem memory_rebuilt {acc : CategoricalAccumulator F} (h : acc.uniqueClasses ≤ 2 ^ 20) :
    acc.rebuilt.memoryBytes ≤ stateLimit.val := by
  have hcap := (updateAll_spec acc.classes new acc.positive).2.2
  have hlen : (new.updateAll acc.classes).uniqueClasses = acc.uniqueClasses :=
    uniqueClasses_eq_of_keys acc.keys_rebuilt
  have hstart : capacityFor 32 ≤ 7 * 2 ^ 18 := capacityFor_le (.inr (.inr ⟨18, rfl⟩)) (by decide)
  have hgrown : capacityFor acc.uniqueClasses ≤ 7 * 2 ^ 18 :=
    capacityFor_le (.inr (.inr ⟨18, rfl⟩)) (by omega)
  have hroom : acc.rebuilt.heapCapacity ≤ 7 * 2 ^ 18 := by
    rw [show acc.rebuilt.heapCapacity = (new.updateAll acc.classes).heapCapacity from rfl, hcap,
      hlen, capacityAfter]
    split
    · exact Nat.zero_le _
    · exact max_le (max_le (Nat.zero_le _) hstart) hgrown
  have htable : tableBytes acc.rebuilt.heapCapacity ≤ tableBytes (7 * 2 ^ 18) :=
    tableBytes_mono hroom
  have hmax : tableBytes (7 * 2 ^ 18) = 62390370 := rfl
  have hlimit : stateLimit.val = 67108864 := rfl
  rw [memoryBytes_eq, sizeOfSelf, sizeOfTable]
  split <;> omega

theorem readState_writeState (acc : CategoricalAccumulator F) (hlen : acc.uniqueClasses < 2 ^ 64)
    (rest : List UInt8) :
    readState stateLimit (acc.writeState ++ rest) =
      if stateLimit.val / 64 < acc.uniqueClasses then .error .countExceeds
      else if stateLimit.val < acc.rebuilt.memoryBytes then
        .error (.accumulatorExceeds "categorical")
      else .ok (acc.rebuilt, rest) := by
  simp only [readState, writeState, List.append_assoc, readExact, Bytes.Codec.decode_encode,
    bind, Except.bind, count_write hlen]
  by_cases hcount : stateLimit.val / 64 < acc.uniqueClasses
  · rw [if_pos hcount, if_pos hcount]
  · rw [if_neg hcount, if_neg hcount]
    simp only [uniqueClasses, readEntries_write Bytes.readI64_writeI64 rest acc.classes]
    by_cases hmem : stateLimit.val < acc.rebuilt.memoryBytes
    · rw [if_pos hmem]
      exact if_pos hmem
    · rw [if_neg hmem]
      exact if_neg hmem

/-- An encoded state is decoded, unless it has too many classes. -/
theorem decode_encode_classes {acc : CategoricalAccumulator F} (h : acc.uniqueClasses ≤ 2 ^ 20) :
    decodePartialState stateLimit (encodePartialState acc) = .ok acc.rebuilt := by
  have hread := readState_writeState acc (by omega) []
  have hcount : ¬ stateLimit.val / 64 < acc.uniqueClasses := by
    rw [show stateLimit.val / 64 = 2 ^ 20 from rfl]
    omega
  rw [if_neg hcount, if_neg (Nat.not_lt.mpr (memory_rebuilt h)), List.append_nil] at hread
  exact decode_ok_iff.mpr ⟨acc.writeState, rfl, hread⟩

omit [Field F] [LinearOrder F] [IsStrictOrderedRing F] in
theorem entries_ne_nil {entries : List (Int64 × F)} (h : entries ≠ []) :
    (entries.flatMap fun p => Bytes.writeI64 p.1 ++ Bytes.Codec.encode p.2) ≠ [] := by
  cases entries with
  | nil => exact absurd rfl h
  | cons p entries => simp [Bytes.writeI64, Bytes.writeLe]

/-- A state with more classes is refused: the count it announces is, or, if the count does not
fit its field, there are entries left over. -/
theorem decode_encode_refused {acc : CategoricalAccumulator F} (h : 2 ^ 20 < acc.uniqueClasses)
    (a : CategoricalAccumulator F) :
    decodePartialState stateLimit (encodePartialState acc) ≠ .ok a := by
  intro hdecode
  obtain ⟨body, hbody, hread⟩ := decode_ok_iff.mp hdecode
  obtain rfl : acc.writeState = body := List.append_cancel_left hbody
  obtain ⟨i₁, i₂, n, total, entries, htotal, hcount, hentries, -, -⟩ := readState_ok_iff.mp hread
  simp only [writeState, List.append_assoc, readExact, Bytes.Codec.decode_encode] at htotal
  obtain ⟨-, rfl⟩ := Prod.mk.inj (Except.ok.inj htotal)
  have hn : n ≤ 2 ^ 20 := count_ok hcount
  simp only [count, readExact, Bytes.readLe_writeLe, bind, Except.bind] at hcount
  obtain ⟨-, heq⟩ := guard_ok hcount
  obtain ⟨hn', rfl⟩ := Prod.mk.inj heq
  have hsplit : acc.classes = acc.classes.take n ++ acc.classes.drop n :=
    (List.take_append_drop n _).symm
  have hlen : (acc.classes.take n).length = n := by
    rw [List.length_take]
    exact min_eq_left (hn.trans h.le)
  rw [hsplit, List.flatMap_append] at hentries
  have hread := readEntries_write Bytes.readI64_writeI64
    ((acc.classes.drop n).flatMap fun p => Bytes.writeI64 p.1 ++ Bytes.Codec.encode p.2)
    (acc.classes.take n)
  rw [hlen, hentries] at hread
  refine entries_ne_nil ?_ (Prod.mk.inj (Except.ok.inj hread)).2.symm
  intro hnil
  have hle := List.drop_eq_nil_iff.mp hnil
  exact absurd (hle.trans hn) (not_le.mpr h)

/-! ### The classes of all the states -/

def entriesOf (state : Option (CategoricalAccumulator F)) : List (Int64 × F) :=
  state.elim [] classes

/-- Each class of the states with its total, in the order of its first appearance. -/
def pooled (states : List (Option (CategoricalAccumulator F))) : List (Int64 × F) :=
  Pools.pool (states.flatMap entriesOf)

/-- The classes are those of the states, merged in this order. -/
def Gathered (S : List (CategoricalAccumulator F)) (acc : CategoricalAccumulator F) : Prop :=
  Built acc ∧ acc.classes = Pools.pool (S.flatMap classes)

/-- A state whose classes are among these. -/
def ClassesIn (K : List Int64) (acc : CategoricalAccumulator F) : Prop :=
  Built acc ∧ ∀ k ∈ acc.classes.map Prod.fst, k ∈ K

theorem follows_classes :
    Follows (Gathered : List (CategoricalAccumulator F) → _ → Prop) Built where
  single a ha := ⟨ha, by
    rw [List.flatMap_singleton, Pools.pool_of_nodup a.classes_nodup]⟩
  merge ha hb := ⟨.merge ha.1 hb.1, by
    rw [List.flatMap_append, ← Pools.pool_append, ← ha.2, ← hb.2]
    exact classes_merge hb.1⟩

omit [Field F] [LinearOrder F] [IsStrictOrderedRing F] [Bytes.Codec F] in
theorem length_le_of_keys {K : List Int64} {entries : List (Int64 × F)}
    (hnodup : (entries.map Prod.fst).Nodup) (h : ∀ k ∈ entries.map Prod.fst, k ∈ K) :
    entries.length ≤ K.length := by
  have hsub := (List.subperm_of_subset hnodup h).length_le
  rwa [List.length_map] at hsub

theorem tracks_classes {K : List Int64} (hK : K.length ≤ 2 ^ 20) :
    Tracks (Gathered : List (CategoricalAccumulator F) → _ → Prop) (ClassesIn K) where
  single a ha := follows_classes.single a ha.1
  merge ha hb := follows_classes.merge ha hb
  reread {S a} hS ha := by
    have hkeys : ∀ k ∈ a.classes.map Prod.fst, k ∈ K := by
      intro k hk
      rw [ha.2, Pools.mem_keys_pool] at hk
      obtain ⟨p, hp, rfl⟩ := List.mem_map.mp hk
      obtain ⟨c, hc, hp⟩ := List.mem_flatMap.mp hp
      exact (hS c hc).2 _ (List.mem_map_of_mem hp)
    have hlen : a.uniqueClasses ≤ K.length := length_le_of_keys a.classes_nodup hkeys
    exact ⟨_, decode_encode_classes (hlen.trans hK), built_rebuilt ha.1,
      (rebuilt_classes a).trans ha.2⟩

omit [IsStrictOrderedRing F] [Bytes.Codec F] in
theorem mem_keys_pooled {states : List (Option (CategoricalAccumulator F))} {k : Int64} :
    k ∈ (pooled states).map Prod.fst ↔
      ∃ a, some a ∈ states ∧ k ∈ a.classes.map Prod.fst := by
  rw [pooled, Pools.mem_keys_pool]
  constructor
  · intro hk
    obtain ⟨p, hp, rfl⟩ := List.mem_map.mp hk
    obtain ⟨state, hstate, hp⟩ := List.mem_flatMap.mp hp
    cases state with
    | none => cases hp
    | some a => exact ⟨a, hstate, List.mem_map_of_mem hp⟩
  · rintro ⟨a, ha, hk⟩
    obtain ⟨p, hp, rfl⟩ := List.mem_map.mp hk
    exact List.mem_map_of_mem (List.mem_flatMap.mpr ⟨some a, ha, hp⟩)

omit [IsStrictOrderedRing F] [Bytes.Codec F] in
theorem pooled_perm {states order : List (Option (CategoricalAccumulator F))}
    (h : order.Perm states) : (pooled order).Perm (pooled states) :=
  Pools.pool_perm (h.flatMap_right _)

/-- States that the decoder takes. -/
def Readable (states : List (Option (CategoricalAccumulator F))) : Prop :=
  ∀ a, some a ∈ states → Built a ∧ a.uniqueClasses ≤ 2 ^ 20

theorem contributions_encodeAll
    {states : List (Option (CategoricalAccumulator F))} (h : Readable states) :
    (contributions (CategoricalAccumulator F) (encodeAll states)).flatMap classes =
      states.flatMap entriesOf := by
  induction states with
  | nil => rfl
  | cons state states ih =>
    have hrest := ih fun a ha => h a (List.mem_cons_of_mem _ ha)
    rw [encodeAll, List.map_cons, contributions, List.flatMap_cons, List.flatMap_append,
      List.flatMap_cons, ← hrest]
    refine congrArg (· ++ _) ?_
    cases state with
    | none => rfl
    | some a =>
      have hdecode := decode_encode_classes (h a List.mem_cons_self).2
      simp only [stateOf, Option.map_some, contribution, hdecode, List.flatMap_singleton]
      exact rebuilt_classes a

theorem good_encodeAll {states : List (Option (CategoricalAccumulator F))} {Fits : _ → Prop}
    (h : Readable states) (hfits : ∀ a, some a ∈ states → Fits a.rebuilt) :
    ∀ value ∈ encodeAll states, Good (Fits : CategoricalAccumulator F → Prop) value := by
  rintro value hvalue bytes rfl
  obtain ⟨state, hstate, hbytes⟩ := List.mem_map.mp hvalue
  obtain ⟨a, rfl, rfl⟩ := Option.map_eq_some_iff.mp hbytes
  exact ⟨a.rebuilt, decode_encode_classes (h a hstate).2, hfits a hstate⟩

/-- An accumulator that has been given all the states: none if there is nothing but nulls. -/
def HasMerged (states : List (Option (CategoricalAccumulator F))) :
    Option (CategoricalAccumulator F) → Prop
  | none => ∀ a, some a ∉ states
  | some acc => (∃ a, some a ∈ states) ∧ Built acc ∧ acc.classes = pooled states

theorem hasMerged_of_stateIs {states : List (Option (CategoricalAccumulator F))}
    (h : Readable states) {state : Option (CategoricalAccumulator F)}
    (hstate : StateIs Gathered (contributions (CategoricalAccumulator F) (encodeAll states)) state) :
    HasMerged states state := by
  have hsome : (∃ a, some a ∈ states) ↔
      contributions (CategoricalAccumulator F) (encodeAll states) ≠ [] := by
    constructor
    · rintro ⟨a, ha⟩ hnil
      have hmem : a.rebuilt ∈ contributions (CategoricalAccumulator F) (encodeAll states) := by
        refine List.mem_flatMap.mpr ⟨_, List.mem_map_of_mem ha, ?_⟩
        simp [stateOf, contribution, decode_encode_classes (h a ha).2]
      rw [hnil] at hmem
      cases hmem
    · intro hne
      obtain ⟨c, hc⟩ := List.exists_mem_of_ne_nil _ hne
      obtain ⟨value, hvalue, hc⟩ := List.mem_flatMap.mp hc
      obtain ⟨s, hs, rfl⟩ := List.mem_map.mp hvalue
      cases s with
      | none => cases hc
      | some a => exact ⟨a, hs⟩
  cases state with
  | none => exact fun a ha => hsome.mp ⟨a, ha⟩ hstate
  | some acc =>
    refine ⟨hsome.mpr hstate.1, hstate.2.1, ?_⟩
    rw [hstate.2.2, contributions_encodeAll h]
    rfl

/-- Merging at once is not limited. -/
theorem mergeStates_hasMerged {states : List (Option (CategoricalAccumulator F))}
    (h : Readable states) :
    ∃ state, mergeStates none (encodeAll states) = .ok state ∧ HasMerged states state := by
  obtain ⟨state, hmerge, hstate⟩ := mergeAll_is follows_classes
    (good_encodeAll h fun a ha => built_rebuilt (h a ha).1)
  exact ⟨state, hmerge, hasMerged_of_stateIs h hstate⟩

/-- The leaves of any phases are the encoded states in another order. -/
theorem leaves_of_perm {states : List (Option (CategoricalAccumulator F))}
    {values : List (Option (List UInt8))} (h : values.Perm (encodeAll states)) :
    ∃ order, order.Perm states ∧ values = encodeAll order := by
  have hall : List.Forall₂ (fun value state => value = stateOf state) (encodeAll states) states := by
    rw [encodeAll, List.forall₂_map_left_iff, List.forall₂_same]
    exact fun _ _ => rfl
  obtain ⟨order, hvalues, hperm⟩ := List.perm_comp_forall₂ h hall
  refine ⟨order, hperm, ?_⟩
  clear h hall hperm
  induction hvalues with
  | nil => rfl
  | cons heq _ ih => rw [heq, ih]; rfl

/-- Few enough classes in all, and no phase is refused. -/
theorem run_hasMerged {states : List (Option (CategoricalAccumulator F))} (h : Readable states)
    (hlen : (pooled states).length ≤ 2 ^ 20) {p : Phases} (hp : p.leaves.Perm (encodeAll states)) :
    ∃ order, order.Perm states ∧ ∃ state, p.run (CategoricalAccumulator F) = .ok state ∧
      HasMerged order state := by
  obtain ⟨order, hperm, hleaves⟩ := leaves_of_perm hp
  have horder : Readable order := fun a ha => h a (hperm.mem_iff.mp ha)
  have hK : ((pooled states).map Prod.fst).length ≤ 2 ^ 20 := by rwa [List.length_map]
  obtain ⟨state, hrun, hstate⟩ := run_is (tracks_classes hK) p (by
    rw [hleaves]
    refine good_encodeAll horder fun a ha => ⟨built_rebuilt (horder a ha).1, fun k hk => ?_⟩
    rw [rebuilt_classes] at hk
    exact mem_keys_pooled.mpr ⟨a, hperm.mem_iff.mp ha, hk⟩)
  rw [hleaves] at hstate
  exact ⟨order, hperm, state, hrun, hasMerged_of_stateIs horder hstate⟩

/-! ### The row of the classes -/

omit [Field F] [LinearOrder F] [IsStrictOrderedRing F] [Bytes.Codec F] in
theorem histogram_perm {order order' : List (Int64 × F)} (hnodup : (order.map Prod.fst).Nodup)
    (h : order.Perm order') : histogram order = histogram order' := by
  have hperm : (histogram order).Perm (histogram order') :=
    (List.perm_insertionSort _ _).trans (h.trans (List.perm_insertionSort _ _).symm)
  refine hperm.eq_of_pairwise (fun p q hp hq hpq hqp => ?_) (List.pairwise_insertionSort _ _)
    (List.pairwise_insertionSort _ _)
  have hmem : p ∈ order := (List.perm_insertionSort _ _).mem_iff.mp hp
  have hmem' : q ∈ order := h.mem_iff.mpr ((List.perm_insertionSort _ _).mem_iff.mp hq)
  exact List.inj_on_of_nodup_map hnodup hmem hmem' (Int64.le_antisymm hpq hqp)

omit [IsStrictOrderedRing F] [Bytes.Codec F] in
theorem shannonEntropy_perm (ln : F → F) {acc acc' : CategoricalAccumulator F}
    {order order' : List (Int64 × F)} (htotal : acc.totalCount = acc'.totalCount)
    (hunique : acc.uniqueClasses = acc'.uniqueClasses) (h : order.Perm order') :
    shannonEntropy ln acc order = shannonEntropy ln acc' order' := by
  rw [shannonEntropy, shannonEntropy, htotal, hunique]
  split
  · rfl
  · refine h.foldl_eq' (fun p _ q _ entropy => ?_) 0
    split <;> split <;> ring

omit [Bytes.Codec F] in
theorem totalCount_of_perm {acc acc' : CategoricalAccumulator F} (hbuilt : Built acc)
    (hbuilt' : Built acc') (h : acc.classes.Perm acc'.classes) :
    acc.totalCount = acc'.totalCount := by
  rw [hbuilt.totalled, hbuilt'.totalled, (h.map Prod.snd).sum_eq]

omit [Bytes.Codec F] in
/-- The row is a function of the totals once the majority is. -/
theorem categoricalRow_eq (ln : F → F) {acc acc' : CategoricalAccumulator F} (hbuilt : Built acc)
    (hbuilt' : Built acc') (hperm : acc.classes.Perm acc'.classes)
    {order order' : List (Int64 × F)} (hvisits : acc.Visits order) (hvisits' : acc'.Visits order')
    (hmajority : acc.majority order = acc'.majority order') :
    categoricalRow ln acc order = categoricalRow ln acc' order' := by
  have horder := perm_of_visits hvisits
  have horder' := perm_of_visits hvisits'
  have hboth : order.Perm order' := horder.trans (hperm.trans horder'.symm)
  have htotal := totalCount_of_perm hbuilt hbuilt' hperm
  have hunique : acc.uniqueClasses = acc'.uniqueClasses := hperm.length_eq
  have hnodup : (order.map Prod.fst).Nodup :=
    (horder.map Prod.fst).nodup_iff.mpr acc.classes_nodup
  simp only [categoricalRow, hmajority, htotal, hunique, histogram_perm hnodup hboth,
    shannonEntropy_perm ln htotal hunique hboth]

omit [Bytes.Codec F] in
/-- Whoever leads in the end is the majority. -/
theorem majority_eq_iff {acc : CategoricalAccumulator F} (hbuilt : Built acc)
    {order : List (Int64 × F)} (hvisits : acc.Visits order) (hne : acc.classes ≠ [])
    (w : Int64 × F) :
    Ladder.leader (Beats (tieEps acc.totalCount)) order = some w ↔
      ((acc.majority order).1, (acc.majority order).2.1) = w := by
  have horder := perm_of_visits hvisits
  have htotal : acc.totalCount ≠ 0 := by
    rcases hbuilt.total_spec with ⟨hnil, -⟩ | ⟨-, hpos⟩
    · exact absurd hnil hne
    · exact hpos.ne'
  cases order with
  | nil => exact absurd horder.symm.eq_nil hne
  | cons holder rest =>
    rw [majority_cons holder rest htotal, Ladder.leader, Option.some_inj]

omit [Bytes.Codec F] in
theorem majority_congr {acc acc' : CategoricalAccumulator F} (hbuilt : Built acc)
    (hbuilt' : Built acc') (hperm : acc.classes.Perm acc'.classes)
    {order order' : List (Int64 × F)} (hvisits : acc.Visits order) (hvisits' : acc'.Visits order')
    {w : Int64 × F} (h : Ladder.leader (Beats (tieEps acc.totalCount)) order = some w)
    (h' : Ladder.leader (Beats (tieEps acc.totalCount)) order' = some w) :
    acc.majority order = acc'.majority order' := by
  have htotal := totalCount_of_perm hbuilt hbuilt' hperm
  cases order with
  | nil => cases h
  | cons holder rest =>
    cases order' with
    | nil => cases h'
    | cons holder' rest' =>
      have hne : acc.totalCount ≠ 0 := by
        rcases hbuilt.total_spec with ⟨hnil, -⟩ | ⟨-, hpos⟩
        · have hmem := (perm_of_visits hvisits).mem_iff.mp (Ladder.leader_mem h)
          rw [hnil] at hmem
          cases hmem
        · exact hpos.ne'
      rw [majority_cons holder rest hne, majority_cons holder' rest' (htotal ▸ hne), ← htotal,
        Option.some.inj h, Option.some.inj h']

/-! ### Who leads whatever the order -/

/-- The tolerance of a tie between the totals of the states. -/
def tolerance (states : List (Option (CategoricalAccumulator F))) : F :=
  tieEps ((pooled states).map Prod.snd).sum

/-- What beats the class always comes before it: in every state that has the class it stands in
front of it. And whatever the order of the states, none of that leads at the turn of the class. -/
structure Prevails (states : List (Option (CategoricalAccumulator F))) (w : Int64 × F) : Prop where
  mem : w ∈ pooled states
  late : ∀ a, some a ∈ states → ∀ before after,
    a.classes.map Prod.fst = before ++ w.1 :: after →
      ∀ q ∈ pooled states, Beats (tolerance states) q w → q.1 ∈ before
  turn : ∀ order, order.Perm states → ∀ before after, pooled order = before ++ w :: after →
    ∀ holder, Ladder.leader (Beats (tolerance states)) before = some holder →
      Beats (tolerance states) w holder

/-- Of the classes in a table one has to beat all the others; the inline ones have an order. -/
def Decided (states : List (Option (CategoricalAccumulator F))) (w : Int64 × F) : Prop :=
  Ladder.Champion (Beats (tolerance states)) (pooled states) w ∨
    ((pooled states).length ≤ inlineCapacity ∧ Prevails states w)

section Order

variable {states order : List (Option (CategoricalAccumulator F))} {w : Int64 × F}

omit [IsStrictOrderedRing F] [Bytes.Codec F] in
theorem nodup_pooled (states : List (Option (CategoricalAccumulator F))) :
    ((pooled states).map Prod.fst).Nodup := Pools.nodup_pool _

omit [IsStrictOrderedRing F] [Bytes.Codec F] in
theorem tolerance_perm (h : order.Perm states) : tolerance order = tolerance states := by
  rw [tolerance, tolerance, ((pooled_perm h).map Prod.snd).sum_eq]

omit [Bytes.Codec F] in
theorem decisive_pooled (states : List (Option (CategoricalAccumulator F))) (total : F) :
    Ladder.Decisive (Beats (tieEps total)) (pooled states) where
  asymm := beats_asymm
  total _ hx _ hy hne := beats_total (tieEps_nonneg _) fun hid =>
    hne (List.inj_on_of_nodup_map (nodup_pooled states) hx hy hid)

omit [IsStrictOrderedRing F] [Bytes.Codec F] in
/-- The first state with the class brings what stands in front of it there. -/
theorem exists_first {k : Int64} {states : List (Option (CategoricalAccumulator F))}
    (h : ∃ a, some a ∈ states ∧ k ∈ a.classes.map Prod.fst) :
    ∃ a, some a ∈ states ∧ ∃ before after, a.classes.map Prod.fst = before ++ k :: after ∧
      ∃ l p m, states.flatMap entriesOf = l ++ p :: m ∧ p.1 = k ∧ k ∉ l.map Prod.fst ∧
        ∀ x ∈ before, x ∈ l.map Prod.fst := by
  induction states with
  | nil =>
    obtain ⟨a, ha, -⟩ := h
    cases ha
  | cons state states ih =>
    rw [List.flatMap_cons]
    by_cases hhead : k ∈ (entriesOf state).map Prod.fst
    · obtain ⟨a, rfl⟩ : ∃ a, state = some a := by
        cases state with
        | none => cases hhead
        | some a => exact ⟨a, rfl⟩
      obtain ⟨q, hq, rfl⟩ := List.mem_map.mp hhead
      obtain ⟨l, m, hsplit⟩ := List.append_of_mem hq
      have hclasses : a.classes = l ++ q :: m := hsplit
      have hnodup := a.classes_nodup
      rw [hclasses, List.map_append, List.map_cons] at hnodup
      refine ⟨a, List.mem_cons_self, l.map Prod.fst, m.map Prod.fst, by rw [hclasses]; simp,
        l, q, m ++ states.flatMap entriesOf, by rw [hsplit]; simp, rfl, fun hmem => ?_,
        fun x hx => hx⟩
      exact (List.nodup_append.mp hnodup).2.2 _ hmem _ List.mem_cons_self rfl
    · have hrest : ∃ a, some a ∈ states ∧ k ∈ a.classes.map Prod.fst := by
        obtain ⟨a, ha, hk⟩ := h
        rcases List.mem_cons.mp ha with rfl | ha
        · exact absurd hk hhead
        · exact ⟨a, ha, hk⟩
      obtain ⟨a, ha, before, after, hkeys, l, p, m, hsplit, hp, hfresh, hbefore⟩ := ih hrest
      refine ⟨a, List.mem_cons_of_mem _ ha, before, after, hkeys, entriesOf state ++ l, p, m,
        by rw [hsplit, List.append_assoc], hp, ?_, fun x hx => ?_⟩
      · rw [List.map_append, List.mem_append]
        exact not_or.mpr ⟨hhead, hfresh⟩
      · rw [List.map_append]
        exact List.mem_append_right _ (hbefore x hx)

omit [IsStrictOrderedRing F] [Bytes.Codec F] in
/-- A state that comes first keeps the order of its classes. -/
theorem keys_pooled_cons (a : CategoricalAccumulator F)
    (states : List (Option (CategoricalAccumulator F))) :
    ∃ more, (pooled (some a :: states)).map Prod.fst = a.classes.map Prod.fst ++ more := by
  obtain ⟨more, hmore⟩ := Pools.keys_pourAll (Pools.pool a.classes) (states.flatMap entriesOf)
  refine ⟨more, ?_⟩
  rw [Pools.pool_of_nodup a.classes_nodup] at hmore
  rw [← hmore, pooled, List.flatMap_cons, Pools.pool, Pools.pourAll_append]
  exact congrArg (fun C => (Pools.pourAll C _).map Prod.fst) (Pools.pool_of_nodup a.classes_nodup)

theorem append_cons_inj {α : Type} {a : α} {l m l' m' : List α} (hnodup : (l ++ a :: m).Nodup)
    (h : l ++ a :: m = l' ++ a :: m') : l = l' ∧ m = m' := by
  induction l generalizing l' with
  | nil =>
    cases l' with
    | nil => exact ⟨rfl, (List.cons.inj h).2⟩
    | cons x l' =>
      obtain ⟨rfl, hrest⟩ := List.cons.inj h
      refine absurd ?_ (List.nodup_cons.mp hnodup).1
      rw [hrest]
      simp
  | cons x l ih =>
    cases l' with
    | nil =>
      obtain ⟨rfl, -⟩ := List.cons.inj h
      refine absurd ?_ (List.nodup_cons.mp hnodup).1
      simp
    | cons y l' =>
      obtain ⟨rfl, hrest⟩ := List.cons.inj h
      obtain ⟨rfl, rfl⟩ := ih (List.nodup_cons.mp hnodup).2 hrest
      exact ⟨rfl, rfl⟩

omit [Bytes.Codec F] in
/-- What prevails leads in the end, whatever the order of the states, and what always leads in the
end prevails. -/
theorem prevails_iff (hw : w ∈ pooled states) :
    (∀ order, order.Perm states →
      Ladder.leader (Beats (tolerance states)) (pooled order) = some w) ↔ Prevails states w := by
  have hdecisive := decisive_pooled states ((pooled states).map Prod.snd).sum
  have hsplit : ∀ {order}, order.Perm states → ∃ before after,
      pooled order = before ++ w :: after ∧ (before ++ w :: after).Nodup := by
    intro order hperm
    obtain ⟨before, after, heq⟩ := List.append_of_mem ((pooled_perm hperm).mem_iff.mpr hw)
    exact ⟨before, after, heq, heq ▸ (nodup_pooled order).of_map _⟩
  constructor
  · intro hleads
    refine ⟨hw, fun a ha before after hkeys q hq hbeats => ?_,
      fun order hperm before after heq holder hholder => ?_⟩
    · -- the state comes first
      obtain ⟨front, back, rfl⟩ := List.append_of_mem ha
      have hperm : (some a :: (front ++ back)).Perm (front ++ some a :: back) :=
        List.perm_middle.symm
      obtain ⟨before', after', heq, hnodup⟩ := hsplit hperm
      have hlead := hleads _ hperm
      rw [heq, Ladder.leader_append_cons_eq_iff hnodup] at hlead
      obtain ⟨more, hmore⟩ := keys_pooled_cons a (front ++ back)
      have hkeys' := nodup_pooled (some a :: (front ++ back))
      rw [hmore, hkeys, List.append_assoc, List.cons_append] at hkeys'
      rw [heq, hkeys, List.append_assoc, List.cons_append, List.map_append, List.map_cons] at hmore
      obtain ⟨hbefore, -⟩ := append_cons_inj hkeys' hmore.symm
      have hq' := (pooled_perm hperm).mem_iff.mpr hq
      rw [heq, List.mem_append, List.mem_cons] at hq'
      rcases hq' with hq' | rfl | hq'
      · rw [hbefore]
        exact List.mem_map_of_mem hq'
      · exact absurd hbeats (hdecisive.asymm _ _ hbeats)
      · exact absurd hbeats (hlead.2 q hq')
    · have hnodup : (before ++ w :: after).Nodup := heq ▸ (nodup_pooled order).of_map _
      have hlead := hleads order hperm
      rw [heq, Ladder.leader_append_cons_eq_iff hnodup] at hlead
      exact hlead.1 holder hholder
  · intro h order hperm
    obtain ⟨before, after, heq, hnodup⟩ := hsplit hperm
    rw [heq, Ladder.leader_append_cons_eq_iff hnodup]
    refine ⟨h.turn order hperm before after heq, fun q hq hbeats => ?_⟩
    -- the first state with the class has brought `q` before
    have hmem : w.1 ∈ (pooled order).map Prod.fst :=
      List.mem_map_of_mem ((pooled_perm hperm).mem_iff.mpr hw)
    obtain ⟨a, ha, front, back, hkeys, l, p, m, hentries, hp, hfresh, hfront⟩ :=
      exists_first (mem_keys_pooled.mp hmem)
    have hq' : q ∈ pooled order := by
      rw [heq]
      exact List.mem_append_right _ (List.mem_cons_of_mem _ hq)
    have hearly := hfront _ (h.late a (hperm.mem_iff.mp ha) front back hkeys q
      ((pooled_perm hperm).mem_iff.mp hq') hbeats)
    obtain ⟨more, hmore⟩ := Pools.keys_pool_append_cons (hp ▸ hfresh) m
    have hnodup' := nodup_pooled order
    rw [← hentries, ← pooled, hp] at hmore
    rw [hmore] at hnodup'
    rw [heq, List.map_append, List.map_cons] at hmore
    obtain ⟨-, hafter⟩ := append_cons_inj hnodup' hmore.symm
    have hlate : q.1 ∈ more := hafter ▸ List.mem_map_of_mem hq
    exact (List.nodup_append.mp hnodup').2.2 _ (Pools.mem_keys_pool.mpr hearly) _
      (List.mem_cons_of_mem _ hlate) rfl

omit [Bytes.Codec F] in
theorem leader_pooled_of_decided (h : Decided states w) (hperm : order.Perm states) :
    Ladder.leader (Beats (tolerance states)) (pooled order) = some w := by
  rcases h with hchampion | ⟨-, hprevails⟩
  · exact Ladder.leader_of_champion beats_asymm (hchampion.perm (pooled_perm hperm).symm)
  · exact (prevails_iff hprevails.mem).mpr hprevails order hperm

omit [Bytes.Codec F] in
/-- A class that is decided on is the one every walk ends with. -/
theorem leader_of_decided (h : Decided states w) (hperm : order.Perm states)
    {acc : CategoricalAccumulator F} (hbuilt : Built acc) (hclasses : acc.classes = pooled order)
    {visited : List (Int64 × F)} (hvisits : acc.Visits visited) :
    Ladder.leader (Beats (tolerance states)) visited = some w := by
  have hwhole := leader_pooled_of_decided h hperm
  rcases h with hchampion | ⟨hfew, -⟩
  · have hboth : visited.Perm (pooled states) :=
      (perm_of_visits hvisits).trans (hclasses ▸ pooled_perm hperm)
    exact Ladder.leader_of_champion beats_asymm (hchampion.perm hboth.symm)
  · have hlen : acc.classes.length ≤ inlineCapacity := by
      rwa [hclasses, (pooled_perm hperm).length_eq]
    have hinline := (heapCounts_eq_none_iff hbuilt).mpr hlen
    have hvisited : visited = pooled order := by
      rw [← hclasses, classes, hinline]
      rw [Visits, hinline] at hvisits
      exact hvisits
    rw [hvisited]
    exact hwhole

end Order

/-! ### Phases that agree -/

/-- If the values can be merged at once, they can be merged in any phases, and to the same
row. -/
def CategoricalAgree (ln : F → F) (values : List (Option (List UInt8))) : Prop :=
  ∀ single : Option (CategoricalAccumulator F), mergeStates none values = .ok single →
    ∀ p : Phases, p.leaves.Perm values → ∃ state, p.run (CategoricalAccumulator F) = .ok state ∧
      ∀ row row', CategoricalEvaluates ln single row → CategoricalEvaluates ln state row' →
        row' = row

variable {ln : F → F} {states : List (Option (CategoricalAccumulator F))}

omit [Bytes.Codec F] in
theorem tolerance_eq {acc : CategoricalAccumulator F} (hbuilt : Built acc)
    {order : List (Option (CategoricalAccumulator F))} (hperm : order.Perm states)
    (hclasses : acc.classes = pooled order) : tieEps acc.totalCount = tolerance states := by
  rw [← tolerance_perm hperm, tolerance, hbuilt.totalled, hclasses]

omit [Bytes.Codec F] in
/-- Without a class there is nothing to decide. -/
theorem majority_of_empty {acc : CategoricalAccumulator F} (hbuilt : Built acc)
    (hnil : acc.classes = []) (order : List (Int64 × F)) : acc.majority order = (0, 0, 0) := by
  rcases hbuilt.total_spec with ⟨-, hzero⟩ | ⟨hne, -⟩
  · rw [majority, if_pos hzero]
  · exact absurd hnil hne

theorem agree_of_decided (hread : Readable states) (hlen : (pooled states).length ≤ 2 ^ 20)
    (hdecided : pooled states = [] ∨ ∃ w, Decided states w) :
    CategoricalAgree ln (encodeAll states) := by
  intro single hsingle p hp
  obtain ⟨one, hone, hmerged⟩ := mergeStates_hasMerged hread
  obtain rfl : one = single := Except.ok.inj (hone.symm.trans hsingle)
  obtain ⟨order, hperm, state, hrun, hstate⟩ := run_hasMerged hread hlen hp
  refine ⟨state, hrun, fun row row' hrow hrow' => ?_⟩
  cases one with
  | none =>
    cases state with
    | none => rw [show row = none from hrow, show row' = none from hrow']
    | some acc' =>
      obtain ⟨⟨a, ha⟩, -⟩ := hstate
      exact absurd (hperm.mem_iff.mp ha) (hmerged a)
  | some acc =>
    cases state with
    | none =>
      obtain ⟨⟨a, ha⟩, -⟩ := hmerged
      exact absurd (hperm.mem_iff.mpr ha) (hstate a)
    | some acc' =>
      obtain ⟨-, hbuilt, hclasses⟩ := hmerged
      obtain ⟨-, hbuilt', hclasses'⟩ := hstate
      obtain ⟨visited, hvisits, rfl⟩ := hrow
      obtain ⟨visited', hvisits', rfl⟩ := hrow'
      have hboth : acc'.classes.Perm acc.classes := by
        rw [hclasses, hclasses']
        exact pooled_perm hperm
      refine congrArg some (categoricalRow_eq ln hbuilt' hbuilt hboth hvisits' hvisits ?_)
      rcases hdecided with hnil | ⟨w, hw⟩
      · have hempty : acc.classes = [] := hclasses.trans hnil
        rw [majority_of_empty hbuilt hempty, majority_of_empty hbuilt' (hempty ▸ hboth).eq_nil]
      · refine majority_congr hbuilt' hbuilt hboth hvisits' hvisits (w := w) ?_ ?_
        · rw [tolerance_eq hbuilt' hperm hclasses']
          exact leader_of_decided hw hperm hbuilt' hclasses' hvisits'
        · rw [tolerance_eq hbuilt' hperm hclasses']
          exact leader_of_decided hw (.refl _) hbuilt hclasses hvisits

omit [Bytes.Codec F] in
theorem readable_perm {order : List (Option (CategoricalAccumulator F))} (hperm : order.Perm states)
    (h : Readable states) : Readable order := fun a ha => h a (hperm.mem_iff.mp ha)

/-- Too many classes: one phase takes all the states, and the next cannot read its state. -/
theorem few_of_agree (hread : Readable states) (h : CategoricalAgree ln (encodeAll states)) :
    (pooled states).length ≤ 2 ^ 20 := by
  by_contra hmany
  obtain ⟨single, hsingle, hmerged⟩ := mergeStates_hasMerged hread
  cases single with
  | none =>
    have hnil : pooled states = [] := List.eq_nil_iff_forall_not_mem.mpr fun q hq => by
      obtain ⟨a, ha, -⟩ := mem_keys_pooled.mp (List.mem_map_of_mem hq)
      exact hmerged a ha
    rw [hnil] at hmany
    exact hmany (Nat.zero_le _)
  | some acc =>
    obtain ⟨state, hrun, -⟩ := h (some acc) hsingle
      (.merge .empty (.update .empty (encodeAll states))) (.refl _)
    refine run_relay hsingle (decode_encode_refused ?_) state hrun
    rw [uniqueClasses, hmerged.2.2]
    exact not_le.mp hmany

/-- Merging all the states at once ends with the same leader in every order. -/
theorem leader_of_agree (h : CategoricalAgree ln (encodeAll states)) (hne : pooled states ≠ [])
    {order : List (Option (CategoricalAccumulator F))} (hperm : order.Perm states)
    {acc acc' : CategoricalAccumulator F}
    (hmerge : mergeStates none (encodeAll states) = .ok (some acc))
    (hmerged : HasMerged states (some acc))
    (hmerge' : mergeStates none (encodeAll order) = .ok (some acc'))
    (hmerged' : HasMerged order (some acc')) {visited visited' : List (Int64 × F)}
    (hvisits : acc.Visits visited) (hvisits' : acc'.Visits visited') {w : Int64 × F}
    (hw : Ladder.leader (Beats (tolerance states)) visited = some w) :
    Ladder.leader (Beats (tolerance states)) visited' = some w := by
  obtain ⟨-, hbuilt, hclasses⟩ := hmerged
  obtain ⟨-, hbuilt', hclasses'⟩ := hmerged'
  have hrun : Phases.run (CategoricalAccumulator F) (.update .empty (encodeAll order)) =
      .ok (some acc') := hmerge'
  obtain ⟨state, hstate, hrows⟩ := h (some acc) hmerge (.update .empty (encodeAll order))
    (hperm.map stateOf)
  obtain rfl : some acc' = state := Except.ok.inj (hrun.symm.trans hstate)
  have hrow := hrows _ _ ⟨visited, hvisits, rfl⟩ ⟨visited', hvisits', rfl⟩
  have hclass := congrArg CategoricalRow.majorityClass (Option.some.inj hrow)
  have hcount := congrArg CategoricalRow.majorityCount (Option.some.inj hrow)
  have hne' : acc'.classes ≠ [] := by
    rw [hclasses']
    exact fun hnil => hne (hnil ▸ pooled_perm hperm).symm.eq_nil
  rw [← tolerance_eq hbuilt (.refl _) hclasses, majority_eq_iff hbuilt hvisits
    (hclasses ▸ hne)] at hw
  rw [← tolerance_eq hbuilt' hperm hclasses', majority_eq_iff hbuilt' hvisits' hne', ← hw]
  exact Prod.ext hclass hcount

theorem decided_of_agree (hread : Readable states) (h : CategoricalAgree ln (encodeAll states)) :
    pooled states = [] ∨ ∃ w, Decided states w := by
  by_cases hne : pooled states = []
  · exact .inl hne
  obtain ⟨single, hsingle, hmerged⟩ := mergeStates_hasMerged hread
  cases single with
  | none =>
    obtain ⟨q, hq⟩ := List.exists_mem_of_ne_nil _ hne
    obtain ⟨a, ha, -⟩ := mem_keys_pooled.mp (List.mem_map_of_mem hq)
    exact absurd ha (hmerged a)
  | some acc =>
    obtain ⟨hsome, hbuilt, hclasses⟩ := hmerged
    have hmerged : HasMerged states (some acc) := ⟨hsome, hbuilt, hclasses⟩
    have hvisits := visits_classes acc
    obtain ⟨w, hw⟩ : ∃ w, Ladder.leader (Beats (tolerance states)) acc.classes = some w := by
      cases hlist : acc.classes with
      | nil => exact absurd (hclasses.symm.trans hlist) hne
      | cons holder rest => exact ⟨_, rfl⟩
    have hmem : w ∈ pooled states := hclasses ▸ Ladder.leader_mem hw
    refine .inr ⟨w, ?_⟩
    by_cases hfew : (pooled states).length ≤ inlineCapacity
    · refine .inr ⟨hfew, (prevails_iff hmem).mp fun order hperm => ?_⟩
      obtain ⟨other, hmerge', hmerged'⟩ := mergeStates_hasMerged (readable_perm hperm hread)
      cases other with
      | none =>
        obtain ⟨a, ha, -⟩ := mem_keys_pooled.mp (List.mem_map_of_mem hmem)
        exact absurd (hperm.mem_iff.mpr ha) (hmerged' a)
      | some acc' =>
        have hlead := leader_of_agree h hne hperm hsingle hmerged hmerge' hmerged' hvisits
          (visits_classes acc') hw
        rwa [hmerged'.2.2] at hlead
    · -- the table is visited in any order
      have hheap : acc.heapCounts ≠ none := fun hnone =>
        hfew (hclasses ▸ (heapCounts_eq_none_iff hbuilt).mp hnone)
      refine .inl ((Ladder.play_same_iff hne (nodup_pooled states).of_map
        (decisive_pooled states _) w).mp fun holder rest hperm => ?_)
      have hvisits' : acc.Visits (holder :: rest) := by
        rw [← hclasses, classes, classesOf.eq_def] at hperm
        rw [Visits]
        cases hcounts : acc.heapCounts with
        | none => exact absurd hcounts hheap
        | some heap =>
          rw [hcounts] at hperm
          exact hperm
      exact Option.some.inj
        (leader_of_agree h hne (.refl _) hsingle hmerged hsingle hmerged hvisits hvisits' hw)

theorem categorical_agree_iff (ln : F → F) (hbuilt : ∀ a, some a ∈ states → Built a) :
    CategoricalAgree ln (encodeAll states) ↔
      (∃ a, some a ∈ states ∧ 2 ^ 20 < a.uniqueClasses) ∨
        ((pooled states).length ≤ 2 ^ 20 ∧ (pooled states = [] ∨ ∃ w, Decided states w)) := by
  by_cases hlarge : ∃ a, some a ∈ states ∧ 2 ^ 20 < a.uniqueClasses
  · obtain ⟨a, ha, hmany⟩ := hlarge
    refine iff_of_true (fun single hsingle => ?_) (.inl ⟨a, ha, hmany⟩)
    exact absurd hsingle (mergeStates_refused ha (decode_encode_refused hmany) single)
  · have hread : Readable states := fun a ha =>
      ⟨hbuilt a ha, not_lt.mp fun hmany => hlarge ⟨a, ha, hmany⟩⟩
    rw [or_iff_right hlarge]
    exact ⟨fun h => ⟨few_of_agree hread h, decided_of_agree hread h⟩,
      fun h => agree_of_decided hread h.1 h.2⟩

omit [IsStrictOrderedRing F] [Bytes.Codec F] in
theorem flatMap_entriesOf (states : List (Option (CategoricalAccumulator F))) :
    states.flatMap entriesOf = (states.filterMap id).flatMap classes := by
  induction states with
  | nil => rfl
  | cons state states ih =>
    rw [List.flatMap_cons, ih]
    cases state with
    | none => rfl
    | some a => rfl

omit [Bytes.Codec F] in
/-- Nothing has to be beaten where a single state brings all the classes. -/
theorem decided_alone {a : CategoricalAccumulator F} (hone : states.filterMap id = [a])
    (hfew : a.classes.length ≤ inlineCapacity) (hne : a.classes ≠ []) :
    ∃ w, Decided states w := by
  have hsame : ∀ order : List (Option (CategoricalAccumulator F)), order.Perm states →
      pooled order = a.classes := by
    intro order hperm
    have hkeep : order.filterMap id = [a] :=
      List.perm_singleton.mp (hone ▸ hperm.filterMap id)
    rw [pooled, flatMap_entriesOf, hkeep, List.flatMap_singleton,
      Pools.pool_of_nodup a.classes_nodup]
  obtain ⟨w, hw⟩ : ∃ w, Ladder.leader (Beats (tolerance states)) a.classes = some w := by
    cases hlist : a.classes with
    | nil => exact absurd hlist hne
    | cons holder rest => exact ⟨_, rfl⟩
  have hall := hsame states (.refl _)
  refine ⟨w, .inr ⟨hall ▸ hfew, (prevails_iff (hall ▸ Ladder.leader_mem hw)).mp ?_⟩⟩
  intro order hperm
  rw [hsame order hperm]
  exact hw

/-! ### One state for each class -/

def singleClass (p : Int64 × F) : CategoricalAccumulator F := new.updateAll [p]

omit [Bytes.Codec F] in
theorem built_singleClass (p : Int64 × F) : Built (singleClass p) := Built.new.updateAll [p]

omit [Bytes.Codec F] in
theorem singleClass_classes {p : Int64 × F} (hp : 0 < p.2) : (singleClass p).classes = [p] :=
  classes_updateAll_of_fresh [p] new (List.nodup_singleton _) (by simpa using hp)

/-- The states of single classes. -/
def singles (totals : ClassTotals F) : List (Option (CategoricalAccumulator F)) :=
  totals.entries.map fun p => some (singleClass p)

omit [Bytes.Codec F] in
theorem pooled_singles (totals : ClassTotals F) : pooled (singles totals) = totals.entries := by
  have hentries : (singles totals).flatMap entriesOf = totals.entries := by
    rw [singles, List.flatMap_map]
    refine (List.flatMap_congr fun p hp => ?_).trans (List.flatMap_singleton' _)
    exact singleClass_classes (totals.positive p hp)
  rw [pooled, hentries, Pools.pool_of_nodup totals.nodup]

omit [Bytes.Codec F] in
theorem built_singles {totals : ClassTotals F} :
    ∀ a, some a ∈ singles totals → Built a := by
  intro a ha
  obtain ⟨p, -, heq⟩ := List.mem_map.mp ha
  exact Option.some.inj heq ▸ built_singleClass p

omit [Bytes.Codec F] in
theorem few_singles {totals : ClassTotals F} :
    ¬ ∃ a, some a ∈ singles totals ∧ 2 ^ 20 < a.uniqueClasses := by
  rintro ⟨a, ha, hmany⟩
  obtain ⟨p, hp, heq⟩ := List.mem_map.mp ha
  rw [← Option.some.inj heq, uniqueClasses, singleClass_classes (totals.positive p hp),
    List.length_singleton] at hmany
  omega

end Categorical

end RasterH3.Sedona
