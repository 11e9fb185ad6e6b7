import RasterH3.Proofs.ExportOrder

/-!
# Exports under two budgets

An export buffers records until they exceed a budget, sorts and spills them, and at the end
merges the runs, or sorts the buffer if nothing was spilled. The records and the names of an
export are functions of its features (`recordsOf`); the budget only decides which of the
records are on disk.

`Buffered` is what is kept between pushes: the records pushed so far, as a multiset, are
those of the runs and those of the buffer, and every run is sorted and was written without
an error. From it the sequence that is handed on is a sorted permutation of the valid
features, whatever the budget was (`Buffered.build`). A push fails for one of two reasons.
There are too many names, which does not depend on the budget, or a record does not fit the
run format and has to be written. If every record fits, no push fails that could be interned
(`pushAll_total`); what it is to fit is an equivalence for values, properties, records and
runs (`writeRun_ok_iff`).

Two budgets give the same sequence if features of the same cell are the same feature to the
tile builder. If not, the sort may order them either way when it sees them together, and the
merge keeps the order in which they arrived when it does not.
-/

namespace RasterH3.Pmtiles

open Agg (CellIndex)

section

variable (cells : Cells)

def validFeatures (features : List H3Feature) : List H3Feature :=
  features.filter fun f => cells.isCell f.h3Index

def propertyNames (features : List H3Feature) : List String :=
  (validFeatures cells features).flatMap fun f => f.properties.map Prod.fst

/-- A feature as `addRecord` hands it on. -/
def H3Feature.hexagon (f : H3Feature) : Hexagon :=
  ⟨f.h3Index, withDefaults cells f.h3Index f.properties⟩

/-- The names and records that the features leave. -/
def recordsOf : List String → List H3Feature → Except RunError (List String × List SortRecord)
  | keys, [] => .ok (keys, [])
  | keys, f :: features =>
      if cells.isCell f.h3Index then do
        let (ids, keys) ← internProperties keys f.properties
        let (keys, records) ← recordsOf keys features
        return (keys, ⟨cells.lat f.h3Index, f.h3Index, ids⟩ :: records)
      else recordsOf keys features

end

variable {cells : Cells} {sort : List SortRecord → List SortRecord}

structure Recorded (cells : Cells) (keys : List String) (r : SortRecord) (f : H3Feature) : Prop where
  lat : r.lat = cells.lat f.h3Index
  h3Index : r.h3Index = f.h3Index
  named : Named keys r.properties f.properties

theorem Recorded.mono {keys keys' : List String} {r : SortRecord} {f : H3Feature}
    (h : Recorded cells keys r f) (hkeep : keys <+: keys') : Recorded cells keys' r f :=
  ⟨h.lat, h.h3Index, h.named.mono hkeep⟩

theorem Recorded.addRecord {keys : List String} {r : SortRecord} {f : H3Feature}
    (h : Recorded cells keys r f) (hcell : cells.isCell f.h3Index = true) :
    addRecord cells keys r = some (f.hexagon cells) := by
  rw [Pmtiles.addRecord, h.h3Index, if_pos hcell, h.named.lookup, H3Feature.hexagon]

theorem validFeatures_cons {f : H3Feature} {features : List H3Feature}
    (h : cells.isCell f.h3Index = true) :
    validFeatures cells (f :: features) = f :: validFeatures cells features := by
  rw [validFeatures, validFeatures, List.filter_cons, if_pos h]

theorem validFeatures_skip {f : H3Feature} {features : List H3Feature}
    (h : ¬cells.isCell f.h3Index = true) :
    validFeatures cells (f :: features) = validFeatures cells features := by
  rw [validFeatures, validFeatures, List.filter_cons, if_neg h]

theorem recordsOf_cases (cells : Cells) (features : List H3Feature) {keys : List String} (hnodup : keys.Nodup)
    (hle : keys.length ≤ 2 ^ 16) :
    (∃ keys' records, recordsOf cells keys features = .ok (keys', records) ∧
      Interned keys keys' (propertyNames cells features) ∧
      List.Forall₂ (Recorded cells keys') records (validFeatures cells features)) ∨
    (∃ e, recordsOf cells keys features = .error e) ∧
      TooMany (keys ++ propertyNames cells features) := by
  induction features generalizing keys with
  | nil => exact .inl ⟨keys, [], rfl, .refl hnodup hle, .nil⟩
  | cons f features ih =>
      by_cases hcell : cells.isCell f.h3Index = true
      · have hnames : propertyNames cells (f :: features) =
            f.properties.map Prod.fst ++ propertyNames cells features := by
          rw [propertyNames, validFeatures_cons hcell, List.flatMap_cons]
          rfl
        rw [recordsOf, if_pos hcell, hnames, validFeatures_cons hcell]
        rcases internProperties_cases f.properties hnodup hle with
          ⟨ids, keys', hids, hint, hnamed⟩ | ⟨⟨e, he⟩, hmany⟩
        · rcases ih hint.nodup hint.le with
            ⟨keys'', records, hrecords, hint', hall⟩ | ⟨⟨e, he⟩, hmany⟩
          · refine .inl ⟨keys'', ⟨cells.lat f.h3Index, f.h3Index, ids⟩ :: records, ?_, hint.trans hint',
              .cons ⟨rfl, rfl, hnamed.mono hint'.keep⟩ hall⟩
            rw [hids]
            show (do
              let (keys, records) ← recordsOf cells keys' features
              return (keys, _ :: records)) = _
            rw [hrecords]
            rfl
          · refine .inr ⟨⟨e, ?_⟩, hmany.mono fun k hk => ?_⟩
            · rw [hids]
              show (do
                let (keys, records) ← recordsOf cells keys' features
                return (keys, _ :: records)) = _
              rw [he]
              rfl
            · have hmem : k ∈ keys' ↔ k ∈ keys ∨ k ∈ f.properties.map Prod.fst := hint.mem
              rw [List.mem_append, hmem] at hk
              rw [List.mem_append, List.mem_append]
              tauto
        · refine .inr ⟨⟨e, by rw [he]; rfl⟩, hmany.mono fun k hk => ?_⟩
          rw [List.mem_append] at hk
          rw [List.mem_append, List.mem_append]
          tauto
      · have hnames : propertyNames cells (f :: features) = propertyNames cells features := by
          rw [propertyNames, validFeatures_skip hcell]
          rfl
        rw [recordsOf, if_neg hcell, validFeatures_skip hcell, hnames]
        exact ih hnodup hle

/-! ## Runs that can be written -/

/-- The run format has room for the value. -/
def MvtValue.Fits : MvtValue → Prop
  | .string s => (utf8 s).length < 2 ^ 32
  | _ => True

structure H3Feature.Fits (f : H3Feature) : Prop where
  count : f.properties.length < 2 ^ 16
  values : ∀ p ∈ f.properties, p.2.Fits

theorem not_ok_error {E α : Type} (e : E) : ¬ ∃ a : α, (Except.error e : Except E α) = .ok a := by
  intro h
  obtain ⟨a, ha⟩ := h
  cases ha

theorem writeValue_ok_iff {v : MvtValue} : (∃ bytes, writeValue v = .ok bytes) ↔ v.Fits := by
  cases v with
  | string s =>
      rw [writeValue, MvtValue.Fits]
      split
      next h => exact ⟨fun _ => h, fun _ => ⟨_, rfl⟩⟩
      next h => exact iff_of_false (not_ok_error _) h
  | _ => exact ⟨fun _ => trivial, fun _ => ⟨_, rfl⟩⟩

theorem writeProperties_ok_iff {properties : List (UInt16 × MvtValue)} :
    (∃ bytes, writeProperties properties = .ok bytes) ↔ ∀ p ∈ properties, p.2.Fits := by
  induction properties with
  | nil => exact ⟨fun _ p hp => absurd hp List.not_mem_nil, fun _ => ⟨[], rfl⟩⟩
  | cons p properties ih =>
      obtain ⟨key, value⟩ := p
      rw [List.forall_mem_cons, ← ih, ← writeValue_ok_iff, writeProperties]
      cases hv : writeValue value with
      | error e => exact iff_of_false (not_ok_error e) fun h => not_ok_error e h.1
      | ok bytes =>
          cases hrest : writeProperties properties with
          | error e => exact iff_of_false (not_ok_error e) fun h => not_ok_error e h.2
          | ok rest => exact ⟨fun _ => ⟨⟨_, rfl⟩, _, rfl⟩, fun _ => ⟨_, rfl⟩⟩

theorem write_ok_iff {r : SortRecord} :
    (∃ bytes, r.write = .ok bytes) ↔ r.properties.length < 2 ^ 16 ∧ ∀ p ∈ r.properties, p.2.Fits := by
  rw [← writeProperties_ok_iff, SortRecord.write]
  split
  next h =>
    cases hp : writeProperties r.properties with
    | error e => exact iff_of_false (not_ok_error e) fun h => not_ok_error e h.2
    | ok tail => exact ⟨fun _ => ⟨h, _, rfl⟩, fun _ => ⟨_, rfl⟩⟩
  next h => exact iff_of_false (not_ok_error _) fun h' => h h'.1

theorem writeRun_ok_iff {records : List SortRecord} :
    (∃ file, writeRun records = .ok file) ↔ ∀ r ∈ records, ∃ bytes, r.write = .ok bytes := by
  induction records with
  | nil => exact ⟨fun _ r hr => absurd hr List.not_mem_nil, fun _ => ⟨[], rfl⟩⟩
  | cons r records ih =>
      rw [List.forall_mem_cons, ← ih, writeRun]
      cases hr : r.write with
      | error e => exact iff_of_false (not_ok_error e) fun h => not_ok_error e h.1
      | ok bytes =>
          cases hrest : writeRun records with
          | error e => exact iff_of_false (not_ok_error e) fun h => not_ok_error e h.2
          | ok rest => exact ⟨fun _ => ⟨⟨_, rfl⟩, _, rfl⟩, fun _ => ⟨_, rfl⟩⟩

theorem Recorded.write_ok_iff {keys : List String} {r : SortRecord} {f : H3Feature}
    (h : Recorded cells keys r f) : (∃ bytes, r.write = .ok bytes) ↔ f.Fits := by
  have hvalues : r.properties.map Prod.snd = f.properties.map Prod.snd := by
    rw [← h.named.lookup, List.map_map]
    rfl
  have hlen : r.properties.length = f.properties.length := by
    rw [← h.named.lookup, List.length_map]
  have hall : (∀ p ∈ r.properties, p.2.Fits) ↔ ∀ p ∈ f.properties, p.2.Fits := by
    rw [← List.forall_mem_map (f := Prod.snd) (P := MvtValue.Fits), hvalues, List.forall_mem_map]
  rw [Pmtiles.write_ok_iff, hlen, hall]
  exact ⟨fun ⟨h, h'⟩ => ⟨h, h'⟩, fun h => ⟨h.count, h.values⟩⟩

/-! ## Between pushes -/

namespace ExternalFeatureExport

/-- The records pushed so far are in sorted runs and in the buffer. -/
structure Buffered (st : ExternalFeatureExport) (records : List SortRecord) : Prop where
  exists_runs : ∃ rss, List.Forall₂ RunFile rss st.runs ∧
    (rss.flatten ++ st.buffer).Perm records

theorem ranked_sort (hsort : SortsUnstable sort) (records : List SortRecord) :
    Ranked (sort records) :=
  (hsort.sorted records).imp SortRecord.order_ne_gt.mp

theorem spill_nil {st : ExternalFeatureExport} (h : st.buffer = []) : st.spill sort = .ok st := by
  rw [spill, h]

theorem spill_eq {st : ExternalFeatureExport} (h : st.buffer ≠ []) :
    st.spill sort = (writeRun (sort st.buffer) >>= fun file =>
      .ok { st with runs := st.runs ++ [file], buffer := [], bufferBytes := 0 }) := by
  unfold spill
  split
  next hnil => exact absurd hnil h
  next => rfl

/-- The runs and an empty buffer. -/
theorem Buffered.spill (hsort : SortsUnstable sort) {st st' : ExternalFeatureExport}
    {records : List SortRecord} (hb : st.Buffered records) (h : st.spill sort = .ok st') :
    st'.Buffered records ∧ st'.keys = st.keys ∧ st'.buffer = [] ∧
      st'.budgetBytes = st.budgetBytes := by
  by_cases hnil : st.buffer = []
  · rw [spill_nil hnil] at h
    obtain rfl := Except.ok.inj h
    exact ⟨hb, rfl, hnil, rfl⟩
  · rw [spill_eq hnil] at h
    cases hfile : writeRun (sort st.buffer) with
    | error e => rw [hfile] at h; cases h
    | ok file =>
    rw [hfile] at h
    obtain rfl := Except.ok.inj h
    obtain ⟨rss, hruns, hperm⟩ := hb.exists_runs
    refine ⟨⟨rss ++ [sort st.buffer], List.rel_append hruns (.cons ⟨hfile, ranked_sort hsort _⟩ .nil),
      ?_⟩, rfl, rfl, rfl⟩
    rw [List.append_nil, List.flatten_append, List.flatten_singleton]
    exact ((hsort.perm st.buffer).append_left _).trans hperm

theorem spill_total (hsort : SortsUnstable sort) {st : ExternalFeatureExport}
    (h : ∀ r ∈ st.buffer, ∃ bytes, r.write = .ok bytes) : ∃ st', st.spill sort = .ok st' := by
  by_cases hnil : st.buffer = []
  · exact ⟨st, spill_nil hnil⟩
  · obtain ⟨file, hfile⟩ := writeRun_ok_iff.mpr fun r hr => h r ((hsort.perm _).subset hr)
    exact ⟨_, by rw [spill_eq hnil, hfile]; rfl⟩

/-- The state after a record has been buffered. -/
def withRecord (st : ExternalFeatureExport) (record : SortRecord) (keys : List String)
    (stringCapacity : Nat) : ExternalFeatureExport :=
  { st with
    totalFeatures := st.totalFeatures + 1
    validFeatures := st.validFeatures + 1
    keys := keys
    buffer := st.buffer ++ [record]
    bufferBytes := st.bufferBytes + record.estimatedBytes stringCapacity }

section

variable (st : ExternalFeatureExport) (record : SortRecord) (keys : List String) (capacity : Nat)

@[simp] theorem withRecord_budgetBytes :
    (st.withRecord record keys capacity).budgetBytes = st.budgetBytes := rfl

@[simp] theorem withRecord_bufferBytes :
    (st.withRecord record keys capacity).bufferBytes =
      st.bufferBytes + record.estimatedBytes capacity := rfl

@[simp] theorem withRecord_buffer :
    (st.withRecord record keys capacity).buffer = st.buffer ++ [record] := rfl

end

theorem push_eq {st : ExternalFeatureExport} {f : H3Feature}
    (hcell : cells.isCell f.h3Index = true) {ids : List (UInt16 × MvtValue)} {keys : List String}
    (hids : internProperties st.keys f.properties = .ok (ids, keys)) :
    st.push cells sort f =
      let st' := st.withRecord ⟨cells.lat f.h3Index, f.h3Index, ids⟩ keys f.stringCapacity
      if st'.budgetBytes ≤ st'.bufferBytes then st'.spill sort else .ok st' := by
  rw [push, if_pos hcell, hids]
  rfl

theorem Buffered.buffer {st : ExternalFeatureExport} {records : List SortRecord}
    (hb : st.Buffered records) (record : SortRecord) (keys : List String) (capacity : Nat) :
    (st.withRecord record keys capacity).Buffered (records ++ [record]) := by
  obtain ⟨rss, hruns, hperm⟩ := hb.exists_runs
  refine ⟨rss, hruns, ?_⟩
  show (rss.flatten ++ (st.buffer ++ [record])).Perm _
  rw [← List.append_assoc]
  exact hperm.append_right _

/-- What the pushes leave, if no write failed. -/
theorem Buffered.pushAll (hsort : SortsUnstable sort) (features : List H3Feature)
    {st st' : ExternalFeatureExport} {records : List SortRecord} (hb : st.Buffered records)
    (h : st.pushAll cells sort features = .ok st') :
    ∃ later, recordsOf cells st.keys features = .ok (st'.keys, later) ∧
      st'.Buffered (records ++ later) := by
  induction features generalizing st records with
  | nil =>
      obtain rfl := Except.ok.inj h
      exact ⟨[], rfl, by rwa [List.append_nil]⟩
  | cons f features ih =>
      rw [ExternalFeatureExport.pushAll] at h
      cases hpush : st.push cells sort f with
      | error e => rw [hpush] at h; cases h
      | ok st₁ =>
      rw [hpush] at h
      by_cases hcell : cells.isCell f.h3Index = true
      · cases hids : internProperties st.keys f.properties with
        | error e => rw [push, if_pos hcell, hids] at hpush; cases hpush
        | ok out =>
        obtain ⟨ids, keys⟩ := out
        rw [push_eq hcell hids] at hpush
        have hbuf := hb.buffer ⟨cells.lat f.h3Index, f.h3Index, ids⟩ keys f.stringCapacity
        obtain ⟨hb₁, hkeys⟩ : st₁.Buffered (records ++ [⟨cells.lat f.h3Index, f.h3Index, ids⟩]) ∧
            st₁.keys = keys := by
          dsimp only at hpush
          split at hpush
          next =>
            obtain ⟨hb₁, hkeys, -, -⟩ := hbuf.spill hsort hpush
            exact ⟨hb₁, hkeys⟩
          next =>
            obtain rfl := Except.ok.inj hpush
            exact ⟨hbuf, rfl⟩
        obtain ⟨later, hlater, hb'⟩ := ih hb₁ h
        refine ⟨_ :: later, ?_, by rwa [List.append_assoc] at hb'⟩
        rw [recordsOf, if_pos hcell, hids]
        show (do
          let (keys, records) ← recordsOf cells keys features
          return (keys, _ :: records)) = _
        rw [← hkeys, hlater]
        rfl
      · rw [push, if_neg hcell] at hpush
        obtain rfl := Except.ok.inj hpush
        rw [recordsOf, if_neg hcell]
        have hb₁ : Buffered { st with totalFeatures := st.totalFeatures + 1 } records :=
          ⟨hb.exists_runs⟩
        have hlater := ih hb₁ h
        exact hlater

theorem recordsOf_cons {keys keys' : List String} {f : H3Feature} {features : List H3Feature}
    {records : List SortRecord} (hcell : cells.isCell f.h3Index = true)
    (h : recordsOf cells keys (f :: features) = .ok (keys', records)) :
    ∃ ids keys₁ later, internProperties keys f.properties = .ok (ids, keys₁) ∧
      recordsOf cells keys₁ features = .ok (keys', later) ∧
      records = ⟨cells.lat f.h3Index, f.h3Index, ids⟩ :: later := by
  rw [recordsOf, if_pos hcell] at h
  cases hids : internProperties keys f.properties with
  | error e => rw [hids] at h; cases h
  | ok out =>
  obtain ⟨ids, keys₁⟩ := out
  rw [hids] at h
  replace h : (recordsOf cells keys₁ features >>= fun out =>
      Except.ok (out.1, SortRecord.mk (cells.lat f.h3Index) f.h3Index ids :: out.2)) = _ := h
  cases hlater : recordsOf cells keys₁ features with
  | error e => rw [hlater] at h; cases h
  | ok out =>
  rw [hlater] at h
  obtain ⟨rfl, rfl⟩ := Prod.mk.inj (Except.ok.inj h)
  exact ⟨ids, keys₁, out.2, rfl, hlater, rfl⟩

theorem Buffered.mem_buffer {st : ExternalFeatureExport} {records : List SortRecord}
    (hb : st.Buffered records) {r : SortRecord} (hr : r ∈ st.buffer) : r ∈ records := by
  obtain ⟨rss, -, hperm⟩ := hb.exists_runs
  exact hperm.subset (List.mem_append_right _ hr)

/-- If every record fits the run format, no push fails that could be interned. -/
theorem pushAll_total (hsort : SortsUnstable sort) (features : List H3Feature)
    {st : ExternalFeatureExport} {records later : List SortRecord} {keys : List String}
    (hb : st.Buffered records) (hrec : recordsOf cells st.keys features = .ok (keys, later))
    (hfit : ∀ r ∈ records ++ later, ∃ bytes, r.write = .ok bytes) :
    ∃ st', st.pushAll cells sort features = .ok st' := by
  induction features generalizing st records later with
  | nil => exact ⟨st, rfl⟩
  | cons f features ih =>
      rw [ExternalFeatureExport.pushAll]
      by_cases hcell : cells.isCell f.h3Index = true
      · obtain ⟨ids, keys₁, later, hids, hlater, rfl⟩ := recordsOf_cons hcell hrec
        rw [← List.singleton_append, ← List.append_assoc] at hfit
        have hbuf := hb.buffer ⟨cells.lat f.h3Index, f.h3Index, ids⟩ keys₁ f.stringCapacity
        rw [push_eq hcell hids]
        dsimp only
        split
        next =>
          obtain ⟨st₁, hst₁⟩ := spill_total hsort fun r hr =>
            hfit r (List.mem_append_left _ (hbuf.mem_buffer hr))
          obtain ⟨hb₁, hkeys, -, -⟩ := hbuf.spill hsort hst₁
          rw [hst₁]
          exact ih hb₁ (by rw [hkeys]; exact hlater) hfit
        next => exact ih hbuf hlater hfit
      · rw [push, if_neg hcell]
        rw [recordsOf, if_neg hcell] at hrec
        have hb₁ : Buffered { st with totalFeatures := st.totalFeatures + 1 } records :=
          ⟨hb.exists_runs⟩
        exact ih hb₁ hrec hfit

/-! ## Building -/

theorem length_le_of_writeRun {records : List SortRecord} {file : List UInt8}
    (h : writeRun records = .ok file) : records.length ≤ file.length := by
  induction records generalizing file with
  | nil => exact Nat.zero_le _
  | cons r records ih =>
      obtain ⟨bytes, rest, hr, hrest, rfl⟩ := writeRun_cons h
      have hpos := eight_le_length hr
      have hle := ih hrest
      rw [List.length_cons, List.length_append]
      omega

theorem length_le_of_runs {rss : List (List SortRecord)} {files : List (List UInt8)}
    (h : List.Forall₂ RunFile rss files) : rss.flatten.length ≤ (files.map List.length).sum := by
  induction h with
  | nil => exact Nat.le_refl _
  | cons hfile _ ih =>
      have hle := length_le_of_writeRun hfile.written
      rw [List.flatten_cons, List.length_append, List.map_cons, List.sum_cons]
      omega

theorem build_runs (hsort : SortsUnstable sort) {st st' : ExternalFeatureExport}
    {records : List SortRecord} (hb : st.Buffered records) (hruns : st.runs ≠ [])
    (hspill : st.spill sort = .ok st') :
    ∃ out, st.build cells sort = .ok (out.filterMap (addRecord cells st.keys)) ∧ Ranked out ∧
      (out.map SortRecord.normal).Perm (records.map SortRecord.normal) := by
  obtain ⟨hb', hkeys, hnil, -⟩ := hb.spill hsort hspill
  obtain ⟨rss, hfiles, hperm⟩ := hb'.exists_runs
  rw [hnil, List.append_nil] at hperm
  have hnone : ([] : List MergeHead).Pairwise fun h h' => h.cmp h' ≠ .lt := .nil
  obtain ⟨heap, readers, rems, hopen, ho⟩ := openRuns_opened hfiles 0 hnone
  have hm : Merging heap rems readers :=
    ⟨ho.sorted, ho.files, fun i rs hi r hr => by
      obtain ⟨h, hmem, hrun, hle⟩ := ho.front i rs hi r hr
      exact ⟨h, hmem, by omega, hle⟩, fun h hmem => by
      rcases ho.runs h hmem with hmem | hlt
      · cases hmem
      · omega⟩
  have hlen := ho.perm.length_eq
  rw [List.length_map, List.length_map, List.map_nil, List.nil_append] at hlen
  have hle := length_le_of_runs hfiles
  have hrounds : (pending heap rems).length < (st'.runs.map List.length).sum + 1 := by omega
  obtain ⟨out, hout, hranked, hpout⟩ := hm.mergeRuns hrounds
  refine ⟨out, ?_, hranked, (hpout.trans ho.perm).trans (hperm.map _)⟩
  unfold build
  split
  next h => exact absurd h hruns
  next =>
    rw [hspill]
    show (openRuns 0 st'.runs [] >>= fun opened =>
      mergeRuns ((st'.runs.map List.length).sum + 1) opened.1 opened.2 >>= fun records =>
        pure (records.filterMap (addRecord cells st'.keys))) = _
    rw [hopen]
    show (mergeRuns ((st'.runs.map List.length).sum + 1) heap readers >>= fun records =>
      pure (records.filterMap (addRecord cells st'.keys))) = _
    rw [hout, ← hkeys]
    rfl

theorem build_memory {st : ExternalFeatureExport} (hruns : st.runs = []) :
    st.build cells sort = .ok ((sort st.buffer).filterMap (addRecord cells st.keys)) := by
  rw [build, hruns]

/-- What is handed on is a sorted permutation of what was pushed. -/
theorem Buffered.build (hsort : SortsUnstable sort) {st : ExternalFeatureExport}
    {records : List SortRecord} {hexagons : List Hexagon} (hb : st.Buffered records)
    (h : st.build cells sort = .ok hexagons) :
    ∃ out, hexagons = out.filterMap (addRecord cells st.keys) ∧ Ranked out ∧
      (out.map SortRecord.normal).Perm (records.map SortRecord.normal) := by
  by_cases hruns : st.runs = []
  · rw [build_memory hruns] at h
    obtain rfl := Except.ok.inj h
    obtain ⟨rss, hfiles, hperm⟩ := hb.exists_runs
    rw [hruns] at hfiles
    obtain rfl := List.forall₂_nil_right_iff.mp hfiles
    exact ⟨sort st.buffer, rfl, ranked_sort hsort _, ((hsort.perm _).trans hperm).map _⟩
  · cases hspill : st.spill sort with
    | error e =>
        unfold ExternalFeatureExport.build at h
        split at h
        next hnil => exact absurd hnil hruns
        next => rw [hspill] at h; cases h
    | ok st' =>
        obtain ⟨out, hout, hranked, hperm⟩ := @build_runs cells sort hsort _ _ _ hb hruns hspill
        rw [hout] at h
        obtain rfl := Except.ok.inj h
        exact ⟨out, rfl, hranked, hperm⟩

theorem build_total (cells : Cells) (hsort : SortsUnstable sort) {st : ExternalFeatureExport}
    {records : List SortRecord} (hb : st.Buffered records)
    (hfit : ∀ r ∈ records, ∃ bytes, r.write = .ok bytes) :
    ∃ hexagons, st.build cells sort = .ok hexagons := by
  by_cases hruns : st.runs = []
  · exact ⟨_, build_memory hruns⟩
  · obtain ⟨st', hspill⟩ := spill_total hsort fun r hr => hfit r (hb.mem_buffer hr)
    obtain ⟨out, hout, -⟩ := @build_runs cells sort hsort _ _ _ hb hruns hspill
    exact ⟨_, hout⟩

end ExternalFeatureExport

/-! ## Hexagons -/

theorem SortRecord.same_normal (r : SortRecord) : r.Same r.normal where
  lat := rfl
  h3Index := rfl
  properties := by
    rw [SortRecord.normal, List.forall₂_map_right_iff]
    refine List.forall₂_same.mpr fun p _ => ⟨rfl, ?_⟩
    obtain ⟨id, v⟩ := p
    cases v with
    | hexStr bytes len => exact Same.hexStr bytes len
    | _ => rfl

/-- What is handed on, as far as its values count, is a function of the records up
to what counts of them. -/
theorem map_filterMap_addRecord (keys : List String) (records : List SortRecord) :
    (records.filterMap (addRecord cells keys)).map Hexagon.normal =
      (records.map SortRecord.normal).filterMap fun r =>
        (addRecord cells keys r).map Hexagon.normal := by
  rw [List.map_filterMap, List.filterMap_map]
  exact List.filterMap_congr fun r _ => addRecord_same r.same_normal

theorem filterMap_recorded {keys : List String} {records : List SortRecord}
    {features : List H3Feature}
    (h : List.Forall₂ (Recorded cells keys) records (validFeatures cells features)) :
    records.filterMap (addRecord cells keys) =
      (validFeatures cells features).map fun f => f.hexagon cells := by
  have hcells : ∀ f ∈ validFeatures cells features, cells.isCell f.h3Index = true := fun f hf =>
    (List.mem_filter.mp hf).2
  generalize validFeatures cells features = fs at h hcells
  induction h with
  | nil => rfl
  | cons hr _ ih =>
      rw [List.filterMap_cons_some (hr.addRecord (hcells _ List.mem_cons_self)), List.map_cons,
        ih fun f hf => hcells f (List.mem_cons_of_mem _ hf)]

end RasterH3.Pmtiles
