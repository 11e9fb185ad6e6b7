import RasterH3.Proofs.ExportBudget

/-!
# When the budget of an export does not show

The order of records looks at the cell and at nothing else of a feature. Two features of one
cell that the tile builder can tell apart are therefore handed on in an order that nobody
fixes: the library's sort is not stable, and what it does with ties may depend on how many
records it sees, which the budget decides. And a feature that the run format has no room for
is exported only while it stays in memory. Without either, the sequence is that of the
sorted cells.

That these two are all there is to it, is an equivalence (`budgetIndependent_iff`). For one
direction the sequence is a sorted permutation of the records under any budget, and alike
features cannot be told apart in it (`handed_eq`). For the other the budget is moved to its
ends. Under a budget that is never reached the records are sorted once, all together; under
the smallest one every record is a run of its own and ties come out in the order of the
input, so that whatever the sort does with the whole shows as a difference
(`exported_alone`, `exported_in_memory`).

A sort that is only known to sort can be any. `sortLike` is a lawful one that puts one given
list of records in an order of its own, and so two features of one cell can be made to come
out either way (`alike_of_same`). The witness at the end does not need that freedom. Its
feature has one property more than a run can count, and is exported or refused as the budget
wants it, whatever the sort does.

Names are numbered with 16 bits; an input with too many fails under every budget, and is
independent of it in that way.
-/

namespace RasterH3.Pmtiles

open Agg (CellIndex)
open ExternalFeatureExport

variable {cells : Cells} {sort : List SortRecord → List SortRecord}

/-- The same sequence is handed on, or none. -/
def SameHandedOn (out out' : Except RunError (List Hexagon)) : Prop :=
  out.toOption.map (List.map Hexagon.normal) = out'.toOption.map (List.map Hexagon.normal)

structure BudgetIndependent (cells : Cells) (features : List H3Feature) : Prop where
  same : ∀ sort, SortsUnstable sort → ∀ budget budget',
    SameHandedOn (exported cells sort budget features) (exported cells sort budget' features)
  lossless : ∀ sort, SortsUnstable sort → ∀ budget hexagons,
    exported cells sort budget features = .ok hexagons →
      (hexagons.map Hexagon.normal).Perm
        ((validFeatures cells features).map fun f => (f.hexagon cells).normal)

/-- Features of one cell are one feature to the tile builder. -/
def Alike (cells : Cells) (features : List H3Feature) : Prop :=
  ∀ f ∈ validFeatures cells features, ∀ g ∈ validFeatures cells features,
    f.h3Index = g.h3Index → (f.hexagon cells).normal = (g.hexagon cells).normal

/-! ## The sequence of a successful export -/

def cellRank (cells : Cells) (cell : CellIndex) : ℤᵒᵈ ×ₗ CellIndex :=
  toLex (OrderDual.toDual (totalCmpKey (cells.lat cell)), cell)

theorem cellRank_injective {c c' : CellIndex} (h : cellRank cells c = cellRank cells c') : c = c' :=
  congrArg (fun p => (ofLex p).2) h

theorem buffered_new (budget : Nat) : (new budget).Buffered [] := ⟨[], .nil, .refl _⟩

theorem exported_ok (hsort : SortsUnstable sort) {budget : Nat} {features : List H3Feature}
    {hexagons : List Hexagon} (h : exported cells sort budget features = .ok hexagons) :
    ∃ keys records out, recordsOf cells [] features = .ok (keys, records) ∧
      hexagons = out.filterMap (addRecord cells keys) ∧ Ranked out ∧
      (out.map SortRecord.normal).Perm (records.map SortRecord.normal) := by
  rw [exported] at h
  cases hpush : (new budget).pushAll cells sort features with
  | error e => rw [hpush] at h; cases h
  | ok st =>
  rw [hpush] at h
  obtain ⟨records, hrec, hb⟩ := (buffered_new budget).pushAll hsort features hpush
  obtain ⟨out, hout, hranked, hperm⟩ := hb.build hsort h
  exact ⟨st.keys, records, out, hrec, hout, hranked, hperm⟩

theorem exported_total (hsort : SortsUnstable sort) {features : List H3Feature}
    {keys : List String} {records : List SortRecord}
    (hrec : recordsOf cells [] features = .ok (keys, records))
    (hfit : ∀ r ∈ records, ∃ bytes, r.write = .ok bytes) (budget : Nat) :
    ∃ hexagons, exported cells sort budget features = .ok hexagons := by
  obtain ⟨st, hpush⟩ := pushAll_total hsort features (buffered_new budget) hrec hfit
  obtain ⟨later, hrec', hb⟩ := (buffered_new budget).pushAll hsort features hpush
  obtain ⟨-, rfl⟩ := Prod.mk.inj (Except.ok.inj (hrec.symm.trans hrec'))
  obtain ⟨hexagons, hbuild⟩ := build_total cells hsort hb hfit
  exact ⟨hexagons, by rw [exported, hpush]; exact hbuild⟩

/-- Without names for all properties there is no export at any budget. -/
theorem toOption_of_error (hsort : SortsUnstable sort) {features : List H3Feature}
    (he : ∃ e, recordsOf cells [] features = .error e) (budget : Nat) :
    (exported cells sort budget features).toOption = none := by
  obtain ⟨e, he⟩ := he
  cases hout : exported cells sort budget features with
  | error e => rfl
  | ok hexagons =>
      obtain ⟨keys, records, out, hrec, -⟩ := exported_ok hsort hout
      rw [he] at hrec
      cases hrec

/-- The records that names could be found for. -/
theorem recorded_of_ok {features : List H3Feature} {keys : List String} {records : List SortRecord}
    (h : recordsOf cells [] features = .ok (keys, records)) :
    List.Forall₂ (Recorded cells keys) records (validFeatures cells features) := by
  rcases recordsOf_cases cells features .nil (Nat.zero_le _) with
    ⟨keys', records', hok, -, hall⟩ | ⟨⟨e, he⟩, -⟩
  · obtain ⟨rfl, rfl⟩ := Prod.mk.inj (Except.ok.inj (h.symm.trans hok))
    exact hall
  · rw [h] at he
    cases he

theorem recordsOf_error_iff {features : List H3Feature} :
    (∃ e, recordsOf cells [] features = .error e) ↔ TooMany (propertyNames cells features) := by
  rcases recordsOf_cases cells features .nil (Nat.zero_le _) with
    ⟨keys, records, hok, hint, -⟩ | ⟨he, hmany⟩
  · refine ⟨fun ⟨e, he⟩ => ?_, fun hmany => ?_⟩
    · rw [hok] at he
      cases he
    · have hsub : (propertyNames cells features).toFinset ⊆ keys.toFinset := fun key hkey => by
        rw [List.mem_toFinset] at hkey ⊢
        exact hint.mem.mpr (.inr hkey)
      have hcard := Finset.card_le_card hsub
      have hlen := List.toFinset_card_le keys
      have hle := hint.le
      unfold TooMany at hmany
      omega
  · exact ⟨fun _ => hmany, fun _ => he⟩

theorem addRecord_h3Index {keys : List String} {r : SortRecord} {h : Hexagon}
    (hadd : addRecord cells keys r = some h) : h.h3Index = r.h3Index := by
  rw [addRecord] at hadd
  split at hadd
  next => exact (Option.some.inj hadd) ▸ rfl
  next => cases hadd

/-- A sorted permutation of the records is handed on in the order of the cells. -/
theorem handed_sorted {features : List H3Feature} {keys : List String}
    {records out : List SortRecord}
    (hall : List.Forall₂ (Recorded cells keys) records (validFeatures cells features))
    (hranked : Ranked out) (hperm : (out.map SortRecord.normal).Perm (records.map SortRecord.normal)) :
    ((out.filterMap (addRecord cells keys)).map Hexagon.normal).Pairwise
      fun h h' => cellRank cells h.h3Index ≤ cellRank cells h'.h3Index := by
  have hrank : ∀ r ∈ out, r.rank = cellRank cells r.h3Index := by
    intro r hr
    obtain ⟨r', hr', hnormal⟩ := List.mem_map.mp (hperm.subset (List.mem_map_of_mem hr))
    obtain ⟨i, hi⟩ := List.getElem?_of_mem hr'
    obtain ⟨f, -, hf⟩ := Related.getElem? hall hi
    have hlat : r.lat = r'.lat := (congrArg SortRecord.lat hnormal).symm
    have hcell : r.h3Index = r'.h3Index := (congrArg SortRecord.h3Index hnormal).symm
    rw [SortRecord.rank, cellRank, hlat, hcell, hf.lat, hf.h3Index]
  rw [List.pairwise_map, List.pairwise_filterMap]
  refine hranked.imp_of_mem fun {r r'} hr hr' hle h hh h' hh' => ?_
  show cellRank cells h.h3Index ≤ cellRank cells h'.h3Index
  rw [addRecord_h3Index hh, addRecord_h3Index hh', ← hrank r hr, ← hrank r' hr']
  exact hle

theorem handed_perm {features : List H3Feature} {keys : List String}
    {records out : List SortRecord}
    (hall : List.Forall₂ (Recorded cells keys) records (validFeatures cells features))
    (hperm : (out.map SortRecord.normal).Perm (records.map SortRecord.normal)) :
    ((out.filterMap (addRecord cells keys)).map Hexagon.normal).Perm
      ((validFeatures cells features).map fun f => (f.hexagon cells).normal) := by
  have hrecords : (records.filterMap (addRecord cells keys)).map Hexagon.normal =
      (validFeatures cells features).map fun f => (f.hexagon cells).normal := by
    rw [filterMap_recorded hall, List.map_map]
    rfl
  rw [← hrecords, map_filterMap_addRecord, map_filterMap_addRecord]
  exact hperm.filterMap _

/-- Alike features come out in one order. -/
theorem handed_eq {features : List H3Feature} {keys : List String}
    {records out out' : List SortRecord}
    (hall : List.Forall₂ (Recorded cells keys) records (validFeatures cells features))
    (halike : Alike cells features) (hranked : Ranked out) (hranked' : Ranked out')
    (hperm : (out.map SortRecord.normal).Perm (records.map SortRecord.normal))
    (hperm' : (out'.map SortRecord.normal).Perm (records.map SortRecord.normal)) :
    (out.filterMap (addRecord cells keys)).map Hexagon.normal =
      (out'.filterMap (addRecord cells keys)).map Hexagon.normal := by
  refine List.Perm.eq_of_pairwise (fun h h' hmem hmem' hle hle' => ?_)
    (handed_sorted hall hranked hperm) (handed_sorted hall hranked' hperm')
    ((handed_perm hall hperm).trans (handed_perm hall hperm').symm)
  have hcell := cellRank_injective (le_antisymm hle hle')
  obtain ⟨f, hf, rfl⟩ := List.mem_map.mp ((handed_perm hall hperm).subset hmem)
  obtain ⟨g, hg, rfl⟩ := List.mem_map.mp ((handed_perm hall hperm').subset hmem')
  exact halike f hf g hg hcell

/-! ## A budget that is never reached, and one that always is -/

/-- What the features take in the buffer. -/
def footprint (features : List H3Feature) : Nat :=
  (features.map fun f => 40 + 40 * f.properties.length + f.stringCapacity).sum

theorem pushAll_in_memory (sort : List SortRecord → List SortRecord) (features : List H3Feature) {st : ExternalFeatureExport}
    {keys : List String} {records : List SortRecord} (hnodup : st.keys.Nodup)
    (hle : st.keys.length ≤ 2 ^ 16) (hrec : recordsOf cells st.keys features = .ok (keys, records))
    (hbudget : st.bufferBytes + footprint features < st.budgetBytes) :
    ∃ st', st.pushAll cells sort features = .ok st' ∧ st'.keys = keys ∧
      st'.buffer = st.buffer ++ records ∧ st'.runs = st.runs := by
  induction features generalizing st records with
  | nil =>
      obtain ⟨rfl, rfl⟩ := Prod.mk.inj (Except.ok.inj hrec)
      exact ⟨st, rfl, rfl, (List.append_nil _).symm, rfl⟩
  | cons f features ih =>
      have hfoot : footprint (f :: features) =
          40 + 40 * f.properties.length + f.stringCapacity + footprint features := by
        rw [footprint, List.map_cons, List.sum_cons, footprint]
      rw [ExternalFeatureExport.pushAll]
      by_cases hcell : cells.isCell f.h3Index = true
      · obtain ⟨ids, keys₁, later, hids, hlater, rfl⟩ := recordsOf_cons hcell hrec
        rcases internProperties_cases f.properties hnodup hle with
          ⟨ids', keys', hids', hint, hnamed⟩ | ⟨⟨e, he⟩, -⟩
        · obtain ⟨rfl, rfl⟩ := Prod.mk.inj (Except.ok.inj (hids.symm.trans hids'))
          have hlen : ids.length = f.properties.length := by
            rw [← hnamed.lookup, List.length_map]
          rw [push_eq hcell hids]
          have hbytes : (st.withRecord ⟨cells.lat f.h3Index, f.h3Index, ids⟩ keys₁
              f.stringCapacity).bufferBytes + footprint features < (st.withRecord
              ⟨cells.lat f.h3Index, f.h3Index, ids⟩ keys₁ f.stringCapacity).budgetBytes := by
            rw [withRecord_bufferBytes, withRecord_budgetBytes, SortRecord.estimatedBytes, hlen]
            omega
          dsimp only
          rw [if_neg (Nat.not_le.mpr (Nat.lt_of_le_of_lt (Nat.le_add_right _ _) hbytes))]
          obtain ⟨st', hpush, hkeys, hbuffer, hruns⟩ := ih hint.nodup hint.le hlater hbytes
          refine ⟨st', hpush, hkeys, ?_, hruns⟩
          rw [hbuffer]
          exact List.append_assoc _ _ _
        · rw [hids] at he
          cases he
      · rw [push, if_neg hcell]
        rw [recordsOf, if_neg hcell] at hrec
        have hbytes : st.bufferBytes + footprint features < st.budgetBytes := by omega
        let st₁ := { st with totalFeatures := st.totalFeatures + 1 }
        obtain ⟨st', hst'⟩ := @ih st₁ records hnodup hle hrec hbytes
        exact ⟨st', hst'⟩

theorem exported_in_memory {features : List H3Feature} {keys : List String}
    {records : List SortRecord} (hrec : recordsOf cells [] features = .ok (keys, records))
    {budget : Nat} (hlarge : footprint features < budget) :
    exported cells sort budget features =
      .ok ((sort records).filterMap (addRecord cells keys)) := by
  have hbudget : (new budget).bufferBytes + footprint features < (new budget).budgetBytes := by
    show 0 + footprint features < max budget 1
    omega
  have hnodup : (new budget).keys.Nodup := .nil
  have hle : (new budget).keys.length ≤ 2 ^ 16 := Nat.zero_le _
  obtain ⟨st, hpush, hkeys, hbuffer, hruns⟩ :=
    pushAll_in_memory sort features hnodup hle hrec hbudget
  rw [exported, hpush]
  show st.build cells sort = _
  rw [build_memory hruns, hkeys, hbuffer]
  rfl

theorem sort_singleton (hsort : SortsUnstable sort) (r : SortRecord) : sort [r] = [r] :=
  (hsort.perm [r]).eq_singleton

theorem sort_nil (hsort : SortsUnstable sort) : sort [] = [] := (hsort.perm []).eq_nil

/-- At the smallest budget every record is a run of its own. -/
theorem push_alone (cells : Cells) (hsort : SortsUnstable sort) {st : ExternalFeatureExport}
    (f : H3Feature)
    (hbudget : st.budgetBytes = 1) (hnil : st.buffer = []) :
    st.push cells sort f = st.push cells id f ∧
      ∀ st', st.push cells sort f = .ok st' → st'.budgetBytes = 1 ∧ st'.buffer = [] := by
  by_cases hcell : cells.isCell f.h3Index = true
  · cases hids : internProperties st.keys f.properties with
    | error e =>
        rw [push, push, if_pos hcell, if_pos hcell, hids]
        refine ⟨rfl, fun st' h => ?_⟩
        cases h
    | ok out =>
    obtain ⟨ids, keys⟩ := out
    rw [push_eq hcell hids, push_eq hcell hids]
    have hle : (st.withRecord ⟨cells.lat f.h3Index, f.h3Index, ids⟩ keys
        f.stringCapacity).budgetBytes ≤ (st.withRecord ⟨cells.lat f.h3Index, f.h3Index, ids⟩ keys
        f.stringCapacity).bufferBytes := by
      rw [withRecord_bufferBytes, withRecord_budgetBytes, SortRecord.estimatedBytes]
      omega
    have hbuffer : (st.withRecord ⟨cells.lat f.h3Index, f.h3Index, ids⟩ keys
        f.stringCapacity).buffer = [⟨cells.lat f.h3Index, f.h3Index, ids⟩] := by
      rw [withRecord_buffer, hnil]
      rfl
    have hne := ne_of_eq_of_ne hbuffer (List.cons_ne_nil _ _)
    dsimp only
    rw [if_pos hle, if_pos hle, spill_eq hne, spill_eq hne, hbuffer, sort_singleton hsort]
    refine ⟨rfl, fun st' h => ?_⟩
    cases hfile : writeRun [⟨cells.lat f.h3Index, f.h3Index, ids⟩] with
    | error e => rw [hfile] at h; cases h
    | ok file =>
        rw [hfile] at h
        obtain rfl := Except.ok.inj h
        exact ⟨hbudget, rfl⟩
  · rw [push, push, if_neg hcell, if_neg hcell]
    refine ⟨rfl, fun st' h => ?_⟩
    obtain rfl := Except.ok.inj h
    exact ⟨hbudget, hnil⟩

theorem pushAll_alone (cells : Cells) (hsort : SortsUnstable sort) (features : List H3Feature)
    {st : ExternalFeatureExport} (hbudget : st.budgetBytes = 1) (hnil : st.buffer = []) :
    st.pushAll cells sort features = st.pushAll cells id features ∧
      ∀ st', st.pushAll cells sort features = .ok st' → st'.buffer = [] := by
  induction features generalizing st with
  | nil =>
      refine ⟨rfl, fun st' h => ?_⟩
      obtain rfl := Except.ok.inj h
      exact hnil
  | cons f features ih =>
      obtain ⟨heq, hnext⟩ := push_alone cells hsort f hbudget hnil
      rw [ExternalFeatureExport.pushAll, ExternalFeatureExport.pushAll, ← heq]
      cases hpush : st.push cells sort f with
      | error e =>
          refine ⟨rfl, fun st' h => ?_⟩
          cases h
      | ok st₁ =>
          obtain ⟨hbudget₁, hnil₁⟩ := hnext st₁ hpush
          exact ih hbudget₁ hnil₁

theorem exported_alone (hsort : SortsUnstable sort) (features : List H3Feature) :
    exported cells sort 1 features = exported cells id 1 features := by
  have hnew : (new 1).budgetBytes = 1 := rfl
  have hempty : (new 1).buffer = [] := rfl
  obtain ⟨heq, hnil⟩ := pushAll_alone cells hsort features hnew hempty
  rw [exported, exported, ← heq]
  cases hpush : (new 1).pushAll cells sort features with
  | error e => rfl
  | ok st =>
      have hbuffer := hnil st hpush
      show st.build cells sort = st.build cells id
      unfold build
      split
      next => rw [hbuffer, sort_nil hsort]; rfl
      next => rw [spill_nil hbuffer, spill_nil hbuffer]

theorem record_of_feature {features : List H3Feature} {keys : List String}
    {records : List SortRecord}
    (hall : List.Forall₂ (Recorded cells keys) records (validFeatures cells features))
    {f : H3Feature} (hf : f ∈ validFeatures cells features) :
    ∃ r ∈ records, Recorded cells keys r f := by
  obtain ⟨i, hi⟩ := List.getElem?_of_mem hf
  obtain ⟨r, hr, hrecorded⟩ := Related.getElem? hall.flip hi
  exact ⟨r, List.mem_of_getElem? hr, hrecorded⟩

/-- Every record was written on its own, so every record fits. -/
theorem fits_of_exported_alone (hsort : SortsUnstable sort) {features : List H3Feature}
    {hexagons : List Hexagon} (h : exported cells sort 1 features = .ok hexagons) :
    ∀ f ∈ validFeatures cells features, f.Fits := by
  rw [exported] at h
  cases hpush : (new 1).pushAll cells sort features with
  | error e => rw [hpush] at h; cases h
  | ok st =>
  obtain ⟨records, hrec, hb⟩ := (buffered_new 1).pushAll hsort features hpush
  have hnew : (new 1).budgetBytes = 1 := rfl
  have hempty : (new 1).buffer = [] := rfl
  have hnil := (pushAll_alone cells hsort features hnew hempty).2 st hpush
  obtain ⟨rss, hfiles, hperm⟩ := hb.exists_runs
  rw [hnil, List.append_nil] at hperm
  intro f hf
  obtain ⟨r, hr, hf⟩ := record_of_feature (recorded_of_ok hrec) hf
  refine hf.write_ok_iff.mp ?_
  obtain ⟨rs, hrs, hr⟩ := List.mem_flatten.mp (hperm.symm.subset hr)
  obtain ⟨i, hi⟩ := List.getElem?_of_mem hrs
  obtain ⟨file, -, hfile⟩ := Related.getElem? hfiles hi
  exact writeRun_ok_iff.mp ⟨file, hfile.written⟩ r hr

/-! ## Ties -/

/-- The order of records as a relation. -/
def Before (r r' : SortRecord) : Prop := r.rank ≤ r'.rank

instance : DecidableRel Before := fun r r' => inferInstanceAs (Decidable (r.rank ≤ r'.rank))

instance : Std.Total Before := ⟨fun r r' => le_total r.rank r'.rank⟩

instance : IsTrans SortRecord Before := ⟨fun _ _ _ => le_trans⟩

/-- A lawful sort that puts one given list of records in an order of its own. -/
def sortLike (records records' input : List SortRecord) : List SortRecord :=
  if input = records then records'.insertionSort Before else input.insertionSort Before

theorem sortLike_lawful {records records' : List SortRecord} (h : records'.Perm records) :
    SortsUnstable (sortLike records records') where
  perm := fun input => by
    rw [sortLike]
    split
    next heq => exact heq ▸ (List.perm_insertionSort _ _).trans h
    next => exact List.perm_insertionSort _ _
  sorted := fun input => by
    have hsorted : ∀ l : List SortRecord,
        (l.insertionSort Before).Pairwise fun r r' => r.order r' ≠ .gt := fun l =>
      (List.pairwise_insertionSort Before l).imp SortRecord.order_ne_gt.mpr
    rw [sortLike]
    split <;> exact hsorted _

theorem sortLike_self (records records' : List SortRecord) :
    sortLike records records' records = records'.insertionSort Before := if_pos rfl

/-- The first of several records that compare equal comes out first. -/
theorem find?_insertionSort {r : SortRecord} {records : List SortRecord} {p : SortRecord → Bool}
    (hr : p r = true) (hp : ∀ r' ∈ records, p r' = true → Before r r') :
    ((r :: records).insertionSort Before).find? p = some r := by
  have hp' : ∀ r' ∈ records.insertionSort Before, p r' = true → Before r r' := fun r' hr' =>
    hp r' ((List.mem_insertionSort _).mp hr')
  rw [List.insertionSort_cons]
  generalize records.insertionSort Before = sorted at hp'
  induction sorted with
  | nil => rw [List.orderedInsert_nil, List.find?_cons_of_pos hr]
  | cons r' sorted ih =>
      by_cases hle : Before r r'
      · rw [List.orderedInsert_cons_of_le _ _ hle, List.find?_cons_of_pos hr]
      · have hskip : ¬p r' = true := fun h => hle (hp' r' List.mem_cons_self h)
        rw [List.orderedInsert_of_not_le _ _ hle, List.find?_cons_of_neg hskip]
        exact ih fun r'' hr'' => hp' r'' (List.mem_cons_of_mem _ hr'')

theorem first_handed {features : List H3Feature} {keys : List String}
    {records rest : List SortRecord} {r : SortRecord} {f : H3Feature}
    (hall : List.Forall₂ (Recorded cells keys) records (validFeatures cells features))
    (hf : f ∈ validFeatures cells features) (hr : Recorded cells keys r f)
    (hperm : (r :: rest).Perm records) :
    ((((r :: rest).insertionSort Before).filterMap (addRecord cells keys)).map
      Hexagon.normal).find? (fun h => h.h3Index == f.h3Index) = some (f.hexagon cells).normal := by
  have hadd := hr.addRecord (List.mem_filter.mp hf).2
  rw [List.find?_map, List.find?_filterMap, find?_insertionSort]
  · rw [Option.bind_some, hadd, Option.map_some]
  · rw [hadd, Option.any_some]
    exact beq_self_eq_true f.h3Index
  · intro r' hr' hp
    obtain ⟨i, hi⟩ := List.getElem?_of_mem (hperm.subset (List.mem_cons_of_mem _ hr'))
    obtain ⟨g, -, hg⟩ := Related.getElem? hall hi
    have hcell : r'.h3Index = f.h3Index := by
      cases hadd' : addRecord cells keys r' with
      | none => rw [hadd'] at hp; cases hp
      | some h =>
          rw [hadd', Option.any_some] at hp
          rw [← addRecord_h3Index hadd']
          exact eq_of_beq hp
    have hlat : r'.lat = r.lat := by
      rw [hg.lat, hr.lat, ← hg.h3Index, hcell]
    show r.rank ≤ r'.rank
    rw [SortRecord.rank, SortRecord.rank, hlat, hcell, hr.h3Index]

/-- Two records of one cell can be made to come out either way. -/
theorem alike_of_same {features : List H3Feature} {keys : List String} {records : List SortRecord}
    (hrec : recordsOf cells [] features = .ok (keys, records))
    (hsame : ∀ sort, SortsUnstable sort → ∀ budget budget',
      SameHandedOn (exported cells sort budget features) (exported cells sort budget' features)) :
    Alike cells features := by
  intro f hf g hg hcell
  by_contra hne
  have hall := recorded_of_ok hrec
  obtain ⟨rf, hrf, hf'⟩ := record_of_feature hall hf
  obtain ⟨rg, hrg, hg'⟩ := record_of_feature hall hg
  have hrfg : rg ≠ rf := by
    rintro rfl
    have hadd := (hf'.addRecord (List.mem_filter.mp hf).2).symm.trans
      (hg'.addRecord (List.mem_filter.mp hg).2)
    exact hne (congrArg Hexagon.normal (Option.some.inj hadd))
  obtain ⟨rest, hrest⟩ : ∃ rest, (rf :: rg :: rest).Perm records := by
    refine ⟨(records.erase rf).erase rg, ?_⟩
    have hmem : rg ∈ records.erase rf := (List.mem_erase_of_ne hrfg).mpr hrg
    exact ((List.perm_cons_erase hmem).symm.cons rf).trans (List.perm_cons_erase hrf).symm
  have hrest' : (rg :: rf :: rest).Perm records := (List.Perm.swap rf rg rest).trans hrest
  -- in memory, the sort decides; at the smallest budget there is nothing to sort
  have hmemory : ∀ {r rest'} {k : H3Feature}, (r :: rest').Perm records →
      Recorded cells keys r k → k ∈ validFeatures cells features →
      ∃ handed, (exported cells id 1 features).toOption.map (List.map Hexagon.normal) =
        some handed ∧ handed.find? (fun h => h.h3Index == k.h3Index) =
          some (k.hexagon cells).normal := by
    intro r rest' k hperm hr hk
    have hsort := sortLike_lawful hperm
    have hout := hsame _ hsort 1 (footprint features + 1)
    have hin : exported cells (sortLike records (r :: rest')) (footprint features + 1) features =
        .ok ((sortLike records (r :: rest') records).filterMap (addRecord cells keys)) :=
      exported_in_memory hrec (Nat.lt_succ_self _)
    rw [exported_alone hsort, hin, sortLike_self] at hout
    exact ⟨_, hout, first_handed hall hk hr hperm⟩
  obtain ⟨handed, hhanded, hfind⟩ := hmemory hrest hf' hf
  obtain ⟨handed', hhanded', hfind'⟩ := hmemory hrest' hg' hg
  obtain rfl : handed = handed' := Option.some.inj (hhanded.symm.trans hhanded')
  rw [hcell, hfind'] at hfind
  exact hne (Option.some.inj hfind).symm

/-- The budget does not show, and nothing is lost, exactly if the names run out
under every budget, or every feature fits the run format and features of one cell
are alike. -/
theorem budgetIndependent_iff (cells : Cells) (features : List H3Feature) :
    BudgetIndependent cells features ↔
      TooMany (propertyNames cells features) ∨
        (∀ f ∈ validFeatures cells features, f.Fits) ∧ Alike cells features := by
  constructor
  · intro h
    by_cases hmany : TooMany (propertyNames cells features)
    · exact .inl hmany
    · rcases recordsOf_cases cells features .nil (Nat.zero_le _) with
        ⟨keys, records, hrec, -, -⟩ | ⟨-, hmany'⟩
      · refine .inr ⟨?_, alike_of_same hrec h.same⟩
        have hsort := sortLike_lawful (.refl records)
        have hout := h.same _ hsort 1 (footprint features + 1)
        rw [exported_in_memory hrec (Nat.lt_succ_self (footprint features)), SameHandedOn] at hout
        cases hone : exported cells (sortLike records records) 1 features with
        | error e => rw [hone] at hout; cases hout
        | ok hexagons => exact fits_of_exported_alone hsort hone
      · exact absurd hmany' hmany
  · intro h
    refine ⟨fun sort hsort budget budget' => ?_, fun sort hsort budget hexagons hok => ?_⟩
    · rcases h with hmany | ⟨hfits, halike⟩
      · have he := recordsOf_error_iff.mpr hmany
        rw [SameHandedOn, toOption_of_error hsort he, toOption_of_error hsort he]
      · rcases recordsOf_cases cells features .nil (Nat.zero_le _) with
          ⟨keys, records, hrec, -, hall⟩ | ⟨he, hmany⟩
        · have hfit : ∀ r ∈ records, ∃ bytes, r.write = .ok bytes := by
            intro r hr
            obtain ⟨i, hi⟩ := List.getElem?_of_mem hr
            obtain ⟨f, hf, hrecorded⟩ := Related.getElem? hall hi
            exact hrecorded.write_ok_iff.mpr (hfits f (List.mem_of_getElem? hf))
          have hout : ∀ budget, ∃ out, Ranked out ∧
              (out.map SortRecord.normal).Perm (records.map SortRecord.normal) ∧
              exported cells sort budget features = .ok (out.filterMap (addRecord cells keys)) := by
            intro budget
            obtain ⟨hexagons, hok⟩ := exported_total hsort hrec hfit budget
            obtain ⟨keys', records', out, hrec', rfl, hranked, hperm⟩ := exported_ok hsort hok
            obtain ⟨rfl, rfl⟩ := Prod.mk.inj (Except.ok.inj (hrec.symm.trans hrec'))
            exact ⟨out, hranked, hperm, hok⟩
          obtain ⟨out, hranked, hperm, hok⟩ := hout budget
          obtain ⟨out', hranked', hperm', hok'⟩ := hout budget'
          rw [SameHandedOn, hok, hok']
          exact congrArg some (handed_eq hall halike hranked hranked' hperm hperm')
        · rw [SameHandedOn, toOption_of_error hsort he, toOption_of_error hsort he]
    · obtain ⟨keys, records, out, hrec, rfl, -, hperm⟩ := exported_ok hsort hok
      exact handed_perm (recorded_of_ok hrec) hperm

/-- One cell of resolution 5 and nothing else. -/
def oneCell : Cells where
  isCell := fun c => c == 0x85283473fffffff
  lat := fun _ => 0x4042ACC73ABC9470
  resolution := fun _ => 5

/-- One property more than a run can count. -/
def wideFeature : H3Feature :=
  ⟨0x85283473fffffff, (List.range (2 ^ 16)).map fun i => (toString i, .uint 1), 0⟩

theorem validFeatures_wide : validFeatures oneCell [wideFeature] = [wideFeature] :=
  List.filter_cons_of_pos (by decide)

theorem wide_not_fits : ¬wideFeature.Fits := by
  intro h
  have hlen : wideFeature.properties.length = 2 ^ 16 := by
    rw [wideFeature, List.length_map, List.length_range]
  have := h.1
  omega

/-- Kept in memory the feature is exported, and under a small budget it is refused, whatever the
sort does. -/
theorem wide_feature_refused_by_spill :
    (∀ sort, SortsUnstable sort →
      (∃ hexagons, exported oneCell sort 3000000 [wideFeature] = .ok hexagons) ∧
      ∃ e, exported oneCell sort 1 [wideFeature] = .error e) ∧
    ¬BudgetIndependent oneCell [wideFeature] := by
  have hnames : (propertyNames oneCell [wideFeature]).length = 2 ^ 16 := by
    rw [propertyNames, validFeatures_wide, List.flatMap_singleton, List.length_map, wideFeature,
      List.length_map, List.length_range]
  have hfoot : footprint [wideFeature] < 3000000 := by
    have hlen : wideFeature.properties.length = 2 ^ 16 := by
      rw [wideFeature, List.length_map, List.length_range]
    rw [footprint, List.map_cons, List.map_nil, List.sum_cons, List.sum_nil, hlen]
    decide
  have hexported : ∀ sort, SortsUnstable sort →
      (∃ hexagons, exported oneCell sort 3000000 [wideFeature] = .ok hexagons) ∧
      ∃ e, exported oneCell sort 1 [wideFeature] = .error e := by
    intro sort hsort
    constructor
    · rcases recordsOf_cases oneCell [wideFeature] .nil (Nat.zero_le _) with
        ⟨keys, records, hrec, -, -⟩ | ⟨-, hmany⟩
      · exact ⟨_, exported_in_memory hrec hfoot⟩
      · have hcard := List.toFinset_card_le (propertyNames oneCell [wideFeature])
        rw [TooMany, List.nil_append] at hmany
        omega
    · cases hone : exported oneCell sort 1 [wideFeature] with
      | error e => exact ⟨e, rfl⟩
      | ok hexagons =>
        refine absurd (fits_of_exported_alone hsort hone wideFeature ?_) wide_not_fits
        rw [validFeatures_wide]
        exact List.mem_singleton_self _
  refine ⟨hexported, fun h => ?_⟩
  have hsort := sortLike_lawful (.refl ([] : List SortRecord))
  obtain ⟨⟨hexagons, hok⟩, e, hfail⟩ := hexported _ hsort
  have hout := h.same _ hsort 3000000 1
  rw [SameHandedOn, hok, hfail] at hout
  cases hout

end RasterH3.Pmtiles
