import RasterH3.Agg.Walker
import RasterH3.Proofs.BboxPruning
import RasterH3.Proofs.StreamBatches

/-!
# What a walk of a window leaves in the maps

A walk does not put a pixel's samples where they belong one by one. It keeps a run for every
resolution, it hands spans of pixels to the engine, it prunes the columns of a row and skips
rows without data, and it projects a row's latitudes once. None of that can be told from the
maps: under every cell they have what the retained samples of the visited pixels add to it,
with one weight for every pixel and cell if the engine combines them (`walk_holds`). Of an
engine this asks that it accumulates (`Lawful`): a span is its readable pixels with weight
one, and a state that says it has no samples has none.

`Held` is the invariant between two pixels, and `Spanning` the one inside a row, where the
pixels since the start of a span are not in the states yet.

The proof goes the way of the loops. A pixel has its samples, and they are added to the runs
of all resolutions, each alone or combined by cell (`Held.updateCells`). A row is an
induction on its columns (`Walking.fold`), with three kinds of pixels for a batch: one that
opens a span or stays in one, one that closes it, and one that only passes because it has no
value. A window is an induction on its rows, and a row that is skipped, or pruned, has
nothing readable to add (`sum_unreadable`). At the end of the window the last runs are
flushed.

The reference is written for one pixel at a time and projects every sample whole
(`pointOf`). That the code keeps the latitudes of a row, or projects its center alone, shows
nowhere, because the point is the same (`project_startRow`).
-/

namespace RasterH3.Agg

open Raster Keyed

variable {F : Type} [Field F] [LinearOrder F] {n : Nat} {T S A : Type}

/-! ## Engines -/

/-- The readable pixels of a span. -/
def spanSamples (engine : ScanlineEngine F T S A) (values : List T) : Multiset (S × F) :=
  ↑((values.filterMap engine.getSample).map fun s => (s, (1 : F)))

omit [LinearOrder F] in
theorem spanSamples_append (engine : ScanlineEngine F T S A) (values values' : List T) :
    spanSamples engine (values ++ values') = spanSamples engine values +
      spanSamples engine values' := by
  simp [spanSamples]

omit [LinearOrder F] in
theorem spanSamples_singleton (engine : ScanlineEngine F T S A) (v : T) :
    spanSamples engine [v] =
      ((engine.getSample v).map fun s => ({(s, 1)} : Multiset (S × F))).getD 0 := by
  rw [spanSamples, List.filterMap_cons]
  cases engine.getSample v with
  | none => rfl
  | some s => rfl

omit [LinearOrder F] in
theorem spanSamples_cons (engine : ScanlineEngine F T S A) (v : T) (values : List T) :
    spanSamples engine (v :: values) =
      ((engine.getSample v).map fun s => ({(s, 1)} : Multiset (S × F))).getD 0 +
        spanSamples engine values := by
  rw [← spanSamples_singleton]
  exact spanSamples_append engine [v] values

/-- `R P a`: the weighted samples `P` have been accumulated in `a`. -/
structure ScanlineEngine.Lawful (engine : ScanlineEngine F T S A)
    (R : Multiset (S × F) → A → Prop) : Prop where
  newAcc : R 0 engine.newAcc
  clearAcc : ∀ {P a}, R P a → R 0 (engine.clearAcc a)
  hasSamples : ∀ {P a}, R P a → (engine.hasSamples a = true ↔ P ≠ 0)
  mergeAcc : ∀ {P Q a b}, R P a → R Q b → R (P + Q) (engine.mergeAcc a b)
  accumulateSpan : ∀ {P a} (values : List T), R P a →
    R (P + spanSamples engine values) (engine.accumulateSpan a values)
  accumulateSpanMulti : ∀ {n} {P : Fin n → Multiset (S × F)} {accs : Fin n → A} (values : List T),
    (∀ i, R (P i) (accs i)) →
      ∀ i, R (P i + spanSamples engine values) (engine.accumulateSpanMulti accs values i)
  updateSample : ∀ {P a} (s : S) {w : F}, R P a → 0 < w →
    R (P + {(s, w)}) (engine.updateSample a s w)

/-- What a map says of a cell: it has samples. -/
def Observed (R : Multiset (S × F) → A → Prop) (P : Multiset (S × F)) (a : A) : Prop :=
  P ≠ 0 ∧ R P a

/-! ## Runs -/

/-- What a run has that is not in the map. -/
def runPart (cell : Option CellIndex) (P : Multiset (S × F)) : Contents (S × F) :=
  cell.elim 0 fun k => Pi.single k P

omit [Field F] [LinearOrder F] in
theorem runPart_add (cell : Option CellIndex) (P Q : Multiset (S × F)) :
    runPart cell (P + Q) = runPart cell P + runPart cell Q := by
  cases cell with
  | none => exact (add_zero (0 : Contents (S × F))).symm
  | some k => exact Pi.single_add (f := fun _ => Multiset (S × F)) k P Q

omit [Field F] [LinearOrder F] in
theorem runPart_zero (cell : Option CellIndex) : runPart cell (0 : Multiset (S × F)) = 0 := by
  cases cell with
  | none => rfl
  | some k => exact Pi.single_zero k

variable {engine : ScanlineEngine F T S A} {R : Multiset (S × F) → A → Prop}

/-- A finished run is in the map, and the next one begins without samples. -/
theorem holds_flushRun (h : engine.Lawful R) {map : CellMap A} {cell : Option CellIndex} {acc : A}
    {c : Contents (S × F)} {P : Multiset (S × F)} (hnodup : (keys map).Nodup)
    (hmap : Keyed.Holds (Observed R) map c) (hacc : R P acc) (hnone : cell = none → P = 0) :
    (keys (flushRun engine map cell acc).1).Nodup ∧
      Keyed.Holds (Observed R) (flushRun engine map cell acc).1 (c + runPart cell P) ∧
      R 0 (flushRun engine map cell acc).2 := by
  by_cases hP : P = 0
  · have hfilter : (cell.filter fun _ => engine.hasSamples acc) = none := by
      rw [Option.filter_eq_none_iff]
      exact fun _ _ hhas => (h.hasSamples hacc).mp hhas hP
    rw [flushRun, hfilter, hP, runPart_zero, add_zero]
    exact ⟨hnodup, hmap, hP ▸ hacc⟩
  · cases cell with
    | none => exact absurd (hnone rfl) hP
    | some k =>
        rw [flushRun, Option.filter_some, if_pos ((h.hasSamples hacc).mpr hP)]
        refine ⟨nodup_upsert hnodup, hmap.upsert hnodup ?_ ⟨hP, hacc⟩, ?_⟩
        · exact fun a ha => ⟨fun hsum => hP (add_eq_zero.mp hsum).2, h.mergeAcc ha.2 hacc⟩
        · dsimp only
          split
          next => exact h.clearAcc hacc
          next => exact h.newAcc

/-- Where the samples are between two pixels: in the maps and in the runs. -/
structure Held (R : Multiset (S × F) → A → Prop) (st : WalkState A n)
    (m : Fin n → Contents (S × F)) : Prop where
  nodup : ∀ i, (keys (st.maps i)).Nodup
  split : ∀ i, ∃ c P, Keyed.Holds (Observed R) (st.maps i) c ∧ R P (st.runs.accs i) ∧
    (st.runs.cells i = none → P = 0) ∧ m i = c + runPart (st.runs.cells i) P

omit [Field F] [LinearOrder F] in
/-- Spans do not matter here. -/
theorem Held.congr {st st' : WalkState A n} {m : Fin n → Contents (S × F)} (h : Held R st m)
    (hmaps : st'.maps = st.maps) (hruns : st'.runs = st.runs) : Held R st' m := by
  refine ⟨fun i => hmaps ▸ h.nodup i, fun i => ?_⟩
  rw [hmaps, hruns]
  exact h.split i

theorem Held.restart (heng : engine.Lawful R) {st : WalkState A n} {m : Fin n → Contents (S × F)}
    (h : Held R st m) (i : Fin n) (cell : CellIndex) : Held R (st.restart engine i cell) m := by
  obtain ⟨c, P, hc, hP, hnone, hm⟩ := h.split i
  obtain ⟨hnodup, hmap, hacc⟩ := holds_flushRun heng (h.nodup i) hc hP hnone
  constructor
  · intro j
    show (keys (Function.update st.maps i (flushRun engine (st.maps i) (st.runs.cells i)
      (st.runs.accs i)).1 j)).Nodup
    by_cases hj : j = i
    · subst hj
      rwa [Function.update_self]
    · rw [Function.update_of_ne hj]
      exact h.nodup j
  · intro j
    by_cases hj : j = i
    · subst hj
      refine ⟨m j, 0, ?_, ?_, fun _ => rfl, by rw [runPart_zero, add_zero]⟩
      · show Keyed.Holds _ (Function.update st.maps j _ j) _
        rw [Function.update_self, hm]
        exact hmap
      · show R 0 (Function.update st.runs.accs j _ j)
        rw [Function.update_self]
        exact hacc
    · obtain ⟨c, P, hc, hP, hnone, hm⟩ := h.split j
      have hcells : (st.restart engine i cell).runs.cells j = st.runs.cells j :=
        Function.update_of_ne hj _ _
      refine ⟨c, P, ?_, ?_, by rwa [hcells], by rwa [hcells]⟩
      · show Keyed.Holds _ (Function.update st.maps i _ j) _
        rwa [Function.update_of_ne hj]
      · show R P (Function.update st.runs.accs i _ j)
        rwa [Function.update_of_ne hj]

theorem Held.addSpan (heng : engine.Lawful R) {st : WalkState A n} {m : Fin n → Contents (S × F)}
    (h : Held R st m) {cells : Fin n → CellIndex} (hcells : ∀ i, st.runs.cells i = some (cells i))
    (values : List T) :
    Held R { st with runs := st.runs.addSpan engine values }
      (m + fun i => Pi.single (cells i) (spanSamples engine values)) := by
  have hsame : (st.runs.addSpan engine values).cells = st.runs.cells := by
    rw [Runs.addSpan]
    split
    next => rfl
    next => rfl
  choose c P hc hP hnone hm using h.split
  have haccs : ∀ i, R (P i + spanSamples engine values)
      ((st.runs.addSpan engine values).accs i) := by
    intro i
    rw [Runs.addSpan]
    split
    next => exact heng.accumulateSpan values (hP i)
    next => exact heng.accumulateSpanMulti values hP i
  refine ⟨h.nodup, fun i => ⟨c i, P i + spanSamples engine values, hc i, haccs i, ?_, ?_⟩⟩
  · show (st.runs.addSpan engine values).cells i = none → _
    rw [hsame, hcells i]
    exact fun heq => by cases heq
  · show m i + _ = c i + runPart ((st.runs.addSpan engine values).cells i) _
    rw [hsame, runPart_add, ← add_assoc, ← hm i, hcells i]
    rfl

theorem Held.update (heng : engine.Lawful R) {st : WalkState A n} {m : Fin n → Contents (S × F)}
    (h : Held R st m) (i : Fin n) (cell : CellIndex) (sample : S) {weight : F} (hw : 0 < weight) :
    Held R (st.update engine i cell sample weight)
      (m + Pi.single i (Pi.single cell {(sample, weight)})) := by
  obtain ⟨t, ht, hcell, hst⟩ : ∃ t : WalkState A n, Held R t m ∧ t.runs.cells i = some cell ∧
      st.update engine i cell sample weight =
        t.setAcc i (engine.updateSample (t.runs.accs i) sample weight) := by
    rw [WalkState.update]
    split
    next => exact ⟨_, h.restart heng i cell, Function.update_self .., rfl⟩
    next heq => exact ⟨st, h, (not_not.mp heq).symm, rfl⟩
  rw [hst]
  refine ⟨ht.nodup, fun j => ?_⟩
  obtain ⟨c, P, hc, hP, hnone, hm⟩ := ht.split j
  by_cases hj : j = i
  · subst hj
    refine ⟨c, P + {(sample, weight)}, hc, ?_, fun heq => ?_, ?_⟩
    · show R _ (Function.update t.runs.accs j _ j)
      rw [Function.update_self]
      exact heng.updateSample sample hP hw
    · cases hcell.symm.trans heq
    · rw [Pi.add_apply, Pi.single_eq_same, runPart_add, ← add_assoc]
      show _ = c + runPart (t.runs.cells j) P + runPart (t.runs.cells j) _
      rw [← hm, hcell]
      rfl
  · refine ⟨c, P, hc, ?_, hnone, ?_⟩
    · show R P (Function.update t.runs.accs i _ j)
      rwa [Function.update_of_ne hj]
    · rw [Pi.add_apply, Pi.single_eq_of_ne hj, add_zero]
      exact hm

/-! ## Spans -/

/-- Inside a row: the samples of an open span are not in the states yet. -/
def Spanning (engine : ScanlineEngine F T S A) (R : Multiset (S × F) → A → Prop)
    (st : WalkState A n) (m : Fin n → Contents (S × F)) (row : List T) (c : Nat) : Prop :=
  match st.spanStart with
  | none => Held R st m
  | some s => s ≤ c ∧ ∃ (cells : Fin n → CellIndex) (m' : Fin n → Contents (S × F)),
      (∀ i, st.runs.cells i = some (cells i)) ∧ Held R st m' ∧
      m = m' + fun i => Pi.single (cells i) (spanSamples engine ((row.take c).drop s))

theorem Spanning.closeSpan (heng : engine.Lawful R) {st : WalkState A n}
    {m : Fin n → Contents (S × F)} {row : List T} {c : Nat} (h : Spanning engine R st m row c) :
    Held R (st.closeSpan engine (row.take c)) m ∧
      (st.closeSpan engine (row.take c)).spanStart = none ∧
      (st.closeSpan engine (row.take c)).failures = st.failures := by
  cases hspan : st.spanStart with
  | none =>
      have hclose : st.closeSpan engine (row.take c) = st := by rw [WalkState.closeSpan, hspan]
      rw [Spanning, hspan] at h
      rw [hclose]
      exact ⟨h, hspan, rfl⟩
  | some s =>
      have hclose : st.closeSpan engine (row.take c) =
          { st with runs := st.runs.addSpan engine ((row.take c).drop s), spanStart := none } := by
        rw [WalkState.closeSpan, hspan]
      rw [Spanning, hspan] at h
      obtain ⟨-, cells, m', hcells, hheld, rfl⟩ := h
      rw [hclose]
      exact ⟨(hheld.addSpan heng hcells _).congr rfl rfl, rfl, rfl⟩

omit [LinearOrder F] in
theorem spanSamples_grow (engine : ScanlineEngine F T S A) (row : List T) {s c : Nat} (h : s ≤ c) :
    spanSamples engine ((row.take (c + 1)).drop s) =
      spanSamples engine ((row.take c).drop s) + spanSamples engine row[c]?.toList := by
  rw [List.take_add_one, ← spanSamples_append]
  cases hget : row[c]? with
  | none => rw [Option.toList_none, List.append_nil, List.append_nil]
  | some v =>
      have hlen : (row.take c).length = c :=
        List.length_take_of_le (List.getElem?_eq_some_iff.mp hget).1.le
      rw [List.drop_append_of_le_length (hlen.symm ▸ h)]

omit [LinearOrder F] in
theorem spanSamples_pixel (engine : ScanlineEngine F T S A) (row : List T) (c : Nat) :
    spanSamples engine row[c]?.toList =
      ((row[c]?.bind engine.getSample).map fun s => ({(s, 1)} : Multiset (S × F))).getD 0 := by
  cases row[c]? with
  | none => rfl
  | some v => rw [Option.toList_some, spanSamples_singleton, Option.bind_some]

omit [LinearOrder F] in
/-- A pixel that is not readable adds nothing, in a span or not. -/
theorem Spanning.skip {st : WalkState A n} {m : Fin n → Contents (S × F)} {row : List T} {c : Nat}
    (h : Spanning engine R st m row c) (hnone : (row[c]?.bind engine.getSample) = none) :
    Spanning engine R st m row (c + 1) := by
  rw [Spanning] at h ⊢
  split at h
  next => exact h
  next s heq =>
    obtain ⟨hle, cells, m', hcells, hheld, rfl⟩ := h
    refine ⟨by omega, cells, m', hcells, hheld, ?_⟩
    rw [spanSamples_grow engine row hle, spanSamples_pixel, hnone, Option.map_none,
      Option.getD_none, add_zero]

/-- The runs whose cells differ are restarted. -/
theorem Held.restartAll (heng : engine.Lawful R) (nextCells : Fin n → CellIndex)
    (is : List (Fin n)) :
    ∀ {st : WalkState A n} {m : Fin n → Contents (S × F)}, Held R st m →
      let st' := is.foldl (fun st i => if some (nextCells i) ≠ st.runs.cells i then
        st.restart engine i (nextCells i) else st) st
      Held R st' m ∧ (∀ i, i ∈ is ∨ st.runs.cells i = some (nextCells i) →
        st'.runs.cells i = some (nextCells i)) ∧ st'.spanStart = st.spanStart ∧
        st'.failures = st.failures := by
  induction is with
  | nil => exact fun h => ⟨h, fun i hi => hi.resolve_left List.not_mem_nil, rfl, rfl⟩
  | cons i is ih =>
      intro st m h
      rw [List.foldl_cons]
      obtain ⟨t, ht, hheld, hcell, hother, hspan, hfail⟩ : ∃ t : WalkState A n,
          (if some (nextCells i) ≠ st.runs.cells i then st.restart engine i (nextCells i) else st) =
            t ∧ Held R t m ∧ t.runs.cells i = some (nextCells i) ∧
          (∀ j, j ≠ i → t.runs.cells j = st.runs.cells j) ∧ t.spanStart = st.spanStart ∧
          t.failures = st.failures := by
        split
        next => exact ⟨_, rfl, h.restart heng i _, Function.update_self .., fun j hj =>
          Function.update_of_ne hj .., rfl, rfl⟩
        next heq => exact ⟨st, rfl, h, (not_not.mp heq).symm, fun _ _ => rfl, rfl, rfl⟩
      rw [ht]
      obtain ⟨hheld', hcells', hspan', hfail'⟩ := ih hheld
      refine ⟨hheld', fun j hj => hcells' j ?_, hspan'.trans hspan, hfail'.trans hfail⟩
      by_cases hji : j = i
      · exact .inr (hji ▸ hcell)
      · rw [hother j hji]
        exact hj.imp_left fun hmem => (List.mem_cons.mp hmem).resolve_left hji

/-- A readable pixel opens a span or stays in one. -/
theorem Spanning.advanceCells (heng : engine.Lawful R) {st : WalkState A n}
    {m : Fin n → Contents (S × F)} {row : List T} {c : Nat} (h : Spanning engine R st m row c)
    (nextCells : Fin n → CellIndex) {v : T} {s : S} (hget : row[c]? = some v)
    (hsample : engine.getSample v = some s) :
    Spanning engine R (st.advanceCells engine nextCells (row.take c))
        (m + fun i => Pi.single (nextCells i) {(s, 1)}) row (c + 1) ∧
      (st.advanceCells engine nextCells (row.take c)).failures = st.failures := by
  have hlen : (row.take c).length = c :=
    List.length_take_of_le (List.getElem?_eq_some_iff.mp hget).1.le
  have hpixel : spanSamples engine row[c]?.toList = {(s, (1 : F))} := by
    rw [spanSamples_pixel, hget, Option.bind_some, hsample]
    rfl
  -- a span that begins here
  have hfresh : ∀ {t : WalkState A n}, Held R t m → (∀ i, t.runs.cells i = some (nextCells i)) →
      t.spanStart = none → Spanning engine R { t with spanStart := some (t.spanStart.getD
        (row.take c).length) } (m + fun i => Pi.single (nextCells i) {(s, 1)}) row (c + 1) := by
    intro t ht hcells hnone
    rw [Spanning, hnone, Option.getD_none, hlen]
    refine ⟨by omega, nextCells, m, hcells, ht.congr rfl rfl, ?_⟩
    rw [spanSamples_grow engine row le_rfl, hpixel, List.drop_eq_nil_of_le hlen.le]
    rfl
  rw [WalkState.advanceCells]
  dsimp only
  split
  next hchanged =>
    obtain ⟨hheld, hnone, hfail⟩ := h.closeSpan heng
    obtain ⟨hheld', hcells, hspan, hfail'⟩ :=
      hheld.restartAll heng nextCells (List.finRange n)
    exact ⟨hfresh hheld' (fun i => hcells i (.inl (List.mem_finRange i))) (hspan.trans hnone),
      hfail'.trans hfail⟩
  next hsame =>
    have hcells : ∀ i, st.runs.cells i = some (nextCells i) := by
      intro i
      by_contra hne
      exact hsame ⟨i, fun heq => hne heq.symm⟩
    refine ⟨?_, rfl⟩
    cases hspan : st.spanStart with
    | none =>
        rw [Spanning, hspan] at h
        have := hfresh h hcells hspan
        rwa [hspan] at this
    | some start =>
        rw [Spanning, hspan] at h
        obtain ⟨hle, cells, m', hcells', hheld, rfl⟩ := h
        have hcellsEq : cells = nextCells :=
          funext fun i => Option.some.inj ((hcells' i).symm.trans (hcells i))
        subst hcellsEq
        refine ⟨Nat.le_succ_of_le hle, cells, m', hcells, hheld.congr rfl rfl, ?_⟩
        rw [add_assoc]
        refine congrArg (m' + ·) (funext fun i => ?_)
        rw [Pi.add_apply, Option.getD_some, spanSamples_grow engine row hle, hpixel]
        exact (Pi.single_add (f := fun _ => Multiset (S × F)) _ _ _).symm

omit [LinearOrder F] in
/-- A failed transform only counts. -/
theorem Spanning.transformFailed {st : WalkState A n} {m : Fin n → Contents (S × F)} {row : List T}
    {c : Nat} (h : Spanning engine R st m row c) (failures : Nat) :
    Spanning engine R (st.transformFailed failures) m row c := by
  rw [Spanning] at h ⊢
  rw [show (st.transformFailed failures).spanStart = st.spanStart from rfl]
  split at h
  next => exact h.congr rfl rfl
  next =>
    obtain ⟨hle, cells, m', hcells, hheld, hm⟩ := h
    exact ⟨hle, cells, m', hcells, hheld.congr rfl rfl, hm⟩

/-! ## The reference -/

section Reference

variable [FloorRing F] (ctx : WalkContext F n)

/-- The point of a sample, projected whole. -/
def pointOf (col rowIdx : Nat) (sp : SamplePoint F) : Option (F × F) :=
  (ctx.crs.transformPoint (ctx.gt.pixelToCoord (col + sp.dx) (rowIdx + sp.dy)).1
    (ctx.gt.pixelToCoord (col + sp.dx) (rowIdx + sp.dy)).2).filter fun p => -90 ≤ p.2 ∧ p.2 ≤ 90

/-- In the box, and owned by the tile. -/
def Retains (p : F × F) : Bool :=
  isPointInBbox p.1 p.2 ctx.bbox && ctx.owner.all fun owned => owned p.1 p.2

def positionOf (col rowIdx : Nat) (sp : SamplePoint F) : Option ((F × F) × F) :=
  ((pointOf ctx col rowIdx sp).filter fun p => Retains ctx p && ctx.index.accepts p.1 p.2).map
    fun p => (p, sp.weight)

/-- A sample is counted as failed if it has no point, or one that H3 rejects. -/
def failed (col rowIdx : Nat) (sp : SamplePoint F) : Bool :=
  (pointOf ctx col rowIdx sp).all fun p => Retains ctx p && !ctx.index.accepts p.1 p.2

/-- The retained samples of a pixel. -/
def positionsOf (col rowIdx : Nat) : List ((F × F) × F) :=
  ctx.sampling.points.filterMap (positionOf ctx col rowIdx)

def failuresOf (col rowIdx : Nat) : Nat := ctx.sampling.points.countP (failed ctx col rowIdx)

/-- The weights with which a pixel is observed in a cell: those of its samples there, or
their sum. -/
def observed (combine : Bool) (positions : List ((F × F) × F)) (i : Fin n) (k : CellIndex) :
    Multiset F :=
  let weights := statesFor k (positions.map fun p => (ctx.index.cells p.1.1 p.1.2 i, p.2))
  if combine then if weights = 0 then 0 else {weights.sum} else weights

end Reference

/-! ## Combining the samples of a pixel -/

omit [LinearOrder F] in
/-- Under every cell the sum of its weights, once. -/
theorem holds_combineByCell (l : List (CellIndex × F)) :
    (keys (combineByCell l)).Nodup ∧
      Keyed.Holds (fun weights w => weights ≠ 0 ∧ w = weights.sum) (combineByCell l)
        fun k => statesFor k l := by
  have hgen : ∀ (combined : List (CellIndex × F)) (m : Contents F), (keys combined).Nodup →
      Keyed.Holds (fun weights w => weights ≠ 0 ∧ w = weights.sum) combined m →
      (keys (l.foldl (fun combined a => upsert (· + a.2) a.2 a.1 combined) combined)).Nodup ∧
      Keyed.Holds (fun weights w => weights ≠ 0 ∧ w = weights.sum)
        (l.foldl (fun combined a => upsert (· + a.2) a.2 a.1 combined) combined)
        (m + fun k => statesFor k l) := by
    induction l with
    | nil =>
        intro combined m hnodup h
        refine ⟨hnodup, ?_⟩
        show Keyed.Holds _ combined (m + 0)
        rwa [add_zero]
    | cons a l ih =>
        intro combined m hnodup h
        have hcons : (m + fun k => statesFor k (a :: l)) =
            (m + Pi.single a.1 {a.2}) + fun k => statesFor k l := by
          funext k
          rw [Pi.add_apply, Pi.add_apply, Pi.add_apply, statesFor_cons, ← add_assoc,
            Pi.single_apply]
          simp only [eq_comm]
        rw [hcons]
        refine ih _ _ (nodup_upsert hnodup) (h.upsert hnodup ?_ ?_)
        · rintro w ⟨-, rfl⟩
          refine ⟨fun hzero => ?_, ?_⟩
          · exact Multiset.singleton_ne_zero a.2 (add_eq_zero.mp hzero).2
          · rw [Multiset.sum_add, Multiset.sum_singleton]
        · exact ⟨Multiset.singleton_ne_zero _, (Multiset.sum_singleton _).symm⟩
  have h := hgen [] 0 List.nodup_nil (.nil _)
  rwa [zero_add] at h

variable {ctx : WalkContext F n}

theorem statesFor_cellAssignments (combine : Bool) (positions : List ((F × F) × F)) (i : Fin n)
    (k : CellIndex) :
    statesFor k (cellAssignments ctx combine positions i) = observed ctx combine positions i k := by
  rw [cellAssignments, observed]
  generalize positions.map (fun p => (ctx.index.cells p.1.1 p.1.2 i, p.2)) = l
  cases combine with
  | false => rfl
  | true =>
      simp only [true_and, if_true]
      split
      next =>
        obtain ⟨hnodup, hholds⟩ := holds_combineByCell l
        by_cases hk : k ∈ keys (combineByCell l)
        · obtain ⟨w, hw⟩ := mem_keys.mp hk
          obtain ⟨hne, hsum⟩ := hholds.present k w hw
          rw [statesFor_of_mem hnodup hw, if_neg hne, hsum]
        · rw [statesFor_eq_zero.mpr hk, if_pos (hholds.absent k hk)]
      next hlen =>
        rcases l with _ | ⟨a, _ | ⟨b, l⟩⟩
        · rfl
        · rw [statesFor_cons, statesFor_nil, add_zero]
          by_cases hk : a.1 = k
          · rw [if_pos hk, if_neg (Multiset.singleton_ne_zero _), Multiset.sum_singleton]
          · rw [if_neg hk, if_pos rfl]
        · exact absurd (by simp) hlen

theorem sum_pos_of_forall [IsStrictOrderedRing F] {S : Multiset F} (h : ∀ w ∈ S, 0 < w)
    (hne : S ≠ 0) : 0 < S.sum := by
  obtain ⟨w, hw⟩ := Multiset.exists_mem_of_ne_zero hne
  obtain ⟨rest, rfl⟩ := Multiset.exists_cons_of_mem hw
  rw [Multiset.sum_cons]
  exact add_pos_of_pos_of_nonneg (h w hw)
    (Multiset.sum_nonneg fun v hv => (h v (Multiset.mem_cons_of_mem hv)).le)

theorem cellAssignments_pos {combine : Bool} {positions : List ((F × F) × F)}
    [IsStrictOrderedRing F] (h : ∀ p ∈ positions, 0 < p.2) {i : Fin n} {a : CellIndex × F}
    (ha : a ∈ cellAssignments ctx combine positions i) : 0 < a.2 := by
  have hplain : ∀ b ∈ positions.map fun p => (ctx.index.cells p.1.1 p.1.2 i, p.2), 0 < b.2 := by
    intro b hb
    obtain ⟨p, hp, rfl⟩ := List.mem_map.mp hb
    exact h p hp
  rw [cellAssignments] at ha
  split at ha
  next =>
    obtain ⟨-, hholds⟩ := holds_combineByCell
      (positions.map fun p => (ctx.index.cells p.1.1 p.1.2 i, p.2))
    obtain ⟨hne, hsum⟩ := hholds.present a.1 a.2 ha
    rw [hsum]
    exact sum_pos_of_forall (fun w hw => hplain _ (mem_statesFor.mp hw)) hne
  next => exact hplain a ha

/-! ## Projecting -/

omit [LinearOrder F] in
/-- Without shear the northing of a sample is that of its row. -/
theorem row_y {gt : GeoTransform F} (h : gt.d = 0) (x row : F) :
    (gt.pixelToCoord x row).2 = (gt.pixelToCoord 0 row).2 := by
  simp [GeoTransform.pixelToCoord, h]

/-- Latitudes kept for the row are those of the points. -/
theorem project_startRow (ctx : WalkContext F n) (col rowIdx : Nat) {k : Nat} {sp : SamplePoint F}
    (hsp : ctx.sampling.points[k]? = some sp) :
    ((SampleProjector.new ctx).startRow ctx.sampling rowIdx).project col rowIdx k sp =
      ctx.crs.transformPoint (ctx.gt.pixelToCoord (col + sp.dx) (rowIdx + sp.dy)).1
        (ctx.gt.pixelToCoord (col + sp.dx) (rowIdx + sp.dy)).2 := by
  rw [SampleProjector.new, SampleProjector.startRow, SampleProjector.project]
  cases hcrs : ctx.crs with
  | wgs84Identity =>
      dsimp only
      by_cases hd : ctx.gt.d = 0
      · rw [if_pos hd]
        dsimp only
        rw [List.getElem?_map, hsp, Option.map_some, Option.map_some, ← row_y hd]
        rfl
      · rw [if_neg hd]
  | webMercatorFast radToDeg lat =>
      dsimp only
      by_cases hd : ctx.gt.d = 0
      · rw [if_pos hd]
        dsimp only
        rw [List.getElem?_map, hsp, Option.map_some, Option.map_some, ← row_y hd]
        rfl
      · rw [if_neg hd]
  | projected point certified rectBounds => rfl

theorem located_startRow (ctx : WalkContext F n) (col rowIdx : Nat) {k : Nat} {sp : SamplePoint F}
    (hsp : ctx.sampling.points[k]? = some sp) :
    located ((SampleProjector.new ctx).startRow ctx.sampling rowIdx) col rowIdx k sp =
      pointOf ctx col rowIdx sp := by
  rw [located, project_startRow ctx col rowIdx hsp, pointOf]

variable [FloorRing F]

theorem gatherSample_eq (ctx : WalkContext F n) (col rowIdx : Nat)
    (gathered : List ((F × F) × F) × Nat) {p : SamplePoint F × Nat}
    (hp : ctx.sampling.points[p.2]? = some p.1) :
    gatherSample ctx ((SampleProjector.new ctx).startRow ctx.sampling rowIdx) col rowIdx gathered
        p =
      (gathered.1 ++ (positionOf ctx col rowIdx p.1).toList,
        gathered.2 + if failed ctx col rowIdx p.1 then 1 else 0) := by
  rw [gatherSample, located_startRow ctx col rowIdx hp, positionOf, failed]
  cases pointOf ctx col rowIdx p.1 with
  | none => simp
  | some point =>
      by_cases hbox : isPointInBbox point.1 point.2 ctx.bbox = true
      · by_cases howned : (ctx.owner.all fun owned => owned point.1 point.2) = true
        · by_cases haccepts : ctx.index.accepts point.1 point.2 = true
          · simp [Retains, hbox, howned, haccepts, Option.filter_some]
          · simp [Retains, hbox, howned, haccepts, Option.filter_some]
        · simp [Retains, hbox, howned, Option.filter_some]
      · simp [Retains, hbox, Option.filter_some]

theorem samplePositions_eq (ctx : WalkContext F n) (col rowIdx : Nat) :
    samplePositions ctx ((SampleProjector.new ctx).startRow ctx.sampling rowIdx) col rowIdx =
      (positionsOf ctx col rowIdx, failuresOf ctx col rowIdx) := by
  have hgen : ∀ (l : List (SamplePoint F × Nat)) (gathered : List ((F × F) × F) × Nat),
      (∀ p ∈ l, ctx.sampling.points[p.2]? = some p.1) →
      l.foldl (gatherSample ctx ((SampleProjector.new ctx).startRow ctx.sampling rowIdx) col rowIdx)
          gathered =
        (gathered.1 ++ (l.map Prod.fst).filterMap (positionOf ctx col rowIdx),
          gathered.2 + (l.map Prod.fst).countP (failed ctx col rowIdx)) := by
    intro l
    induction l with
    | nil => simp
    | cons p l ih =>
        intro gathered hl
        rw [List.foldl_cons, gatherSample_eq ctx col rowIdx _ (hl p List.mem_cons_self),
          ih _ fun q hq => hl q (List.mem_cons_of_mem _ hq), List.map_cons, List.filterMap_cons,
          List.countP_cons, List.append_assoc, add_assoc, Nat.add_comm (List.countP _ _)]
        cases positionOf ctx col rowIdx p.1 with
        | none => rfl
        | some position => rfl
  have hzip := hgen ctx.sampling.points.zipIdx ([], 0) fun p hp =>
    List.mem_zipIdx_iff_getElem?.mp hp
  rw [List.zipIdx_map_fst, List.nil_append, Nat.zero_add] at hzip
  exact hzip

/-! ## One pixel -/

section Pixel

variable (ctx : WalkContext F n) (spp : Nat) (read : List T → Option S)

/-- What a pixel of a row adds: its sample, with the weights of its retained positions. -/
def pixelSamples (combine : Bool) (rowIdx : Nat) (row : List T) (c : Nat) :
    Fin n → Contents (S × F) :=
  match read (pixelOf spp row c) with
  | none => 0
  | some s => fun i k =>
      (observed ctx combine (positionsOf ctx (ctx.chunk.colOffset + c) rowIdx) i k).map fun w =>
        (s, w)

def pixelFailures (rowIdx : Nat) (row : List T) (c : Nat) : Nat :=
  if (read (pixelOf spp row c)).isSome then failuresOf ctx (ctx.chunk.colOffset + c) rowIdx else 0

/-- When pixels are batched: a value is a pixel, and its center is its only sample. -/
structure Batches (engine : ScanlineEngine F T S A) : Prop where
  spp : spp = 1
  read : ∀ v, read [v] = engine.getSample v
  point : ctx.sampling.isSinglePoint = true

end Pixel

omit [FloorRing F] in
theorem exists_of_isSinglePoint {s : SamplingPattern F} (h : s.isSinglePoint = true) :
    ∃ sp, s.points = [sp] ∧ sp.weight = 1 := by
  rw [SamplingPattern.isSinglePoint] at h
  split at h
  next sp heq => exact ⟨sp, heq, (of_decide_eq_true h).2.2⟩
  next => cases h

variable {spp : Nat} {read : List T → Option S} {batch : Bool}

omit [Field F] [LinearOrder F] [FloorRing F] in
theorem update_keeps (engine : ScanlineEngine F T S A) (st : WalkState A n) (i : Fin n)
    (cell : CellIndex) (sample : S) (weight : F) :
    (st.update engine i cell sample weight).spanStart = st.spanStart ∧
      (st.update engine i cell sample weight).failures = st.failures := by
  rw [WalkState.update]
  split
  next => exact ⟨rfl, rfl⟩
  next => exact ⟨rfl, rfl⟩

omit [FloorRing F] in
/-- The samples of a pixel in the cells of one resolution. -/
theorem Held.updateAll (heng : engine.Lawful R) (i : Fin n) (sample : S)
    (l : List (CellIndex × F)) :
    ∀ {st : WalkState A n} {m : Fin n → Contents (S × F)}, Held R st m → (∀ a ∈ l, 0 < a.2) →
      let st' := l.foldl (fun st a => st.update engine i a.1 sample a.2) st
      Held R st' (m + Pi.single i fun k => (statesFor k l).map fun w => (sample, w)) ∧
        st'.spanStart = st.spanStart ∧ st'.failures = st.failures := by
  induction l with
  | nil =>
      intro st m h _
      have hzero : (Pi.single i fun k => (statesFor k ([] : List (CellIndex × F))).map fun w =>
          (sample, w) : Fin n → Contents (S × F)) = 0 := Pi.single_zero i
      rw [hzero, add_zero]
      exact ⟨h, rfl, rfl⟩
  | cons a l ih =>
      intro st m h hpos
      obtain ⟨hheld, hspan, hfail⟩ := ih (h.update heng i a.1 sample (hpos a List.mem_cons_self))
        fun b hb => hpos b (List.mem_cons_of_mem _ hb)
      obtain ⟨hspan', hfail'⟩ := update_keeps engine st i a.1 sample a.2
      refine ⟨?_, hspan.trans hspan', hfail.trans hfail'⟩
      have hcons : (fun k => (statesFor k (a :: l)).map fun w => (sample, w) : Contents (S × F)) =
          Pi.single a.1 {(sample, a.2)} + fun k => (statesFor k l).map fun w => (sample, w) := by
        funext k
        rw [statesFor_cons, Multiset.map_add, Pi.add_apply, Pi.single_apply]
        simp only [eq_comm]
        split
        next => rfl
        next => rfl
      rw [hcons, Pi.single_add, ← add_assoc]
      exact hheld

omit [FloorRing F] in
/-- The samples of a pixel in all its cells. -/
theorem Held.updateCells (heng : engine.Lawful R) (sample : S)
    (assignments : Fin n → List (CellIndex × F)) (hpos : ∀ i, ∀ a ∈ assignments i, 0 < a.2)
    {st : WalkState A n} {m : Fin n → Contents (S × F)} (h : Held R st m) :
    let st' := (List.finRange n).foldl (fun st i =>
      (assignments i).foldl (fun st a => st.update engine i a.1 sample a.2) st) st
    Held R st' (m + fun i k => (statesFor k (assignments i)).map fun w => (sample, w)) ∧
      st'.spanStart = st.spanStart ∧ st'.failures = st.failures := by
  have hgen : ∀ (is : List (Fin n)) {st : WalkState A n} {m : Fin n → Contents (S × F)},
      Held R st m →
      let st' := is.foldl (fun st i =>
        (assignments i).foldl (fun st a => st.update engine i a.1 sample a.2) st) st
      Held R st' (m + (is.map fun i => (Pi.single i fun k =>
          (statesFor k (assignments i)).map fun w => (sample, w) : Fin n → Contents (S × F))).sum) ∧
        st'.spanStart = st.spanStart ∧ st'.failures = st.failures := by
    intro is
    induction is with
    | nil =>
        intro st m h
        rw [List.map_nil, List.sum_nil, add_zero]
        exact ⟨h, rfl, rfl⟩
    | cons i is ih =>
        intro st m h
        obtain ⟨hheld, hspan, hfail⟩ := h.updateAll heng i sample _ (hpos i)
        obtain ⟨hheld', hspan', hfail'⟩ := ih hheld
        rw [List.map_cons, List.sum_cons, ← add_assoc]
        exact ⟨hheld', hspan'.trans hspan, hfail'.trans hfail⟩
  have hall := hgen (List.finRange n) h
  rwa [← Fin.sum_univ_def, Finset.univ_sum_single] at hall

/-- Inside a row, in which there are no spans without batches. -/
structure Walking (engine : ScanlineEngine F T S A) (R : Multiset (S × F) → A → Prop)
    (batch : Bool) (st : WalkState A n) (m : Fin n → Contents (S × F)) (failures : Nat)
    (row : List T) (c : Nat) : Prop where
  spanning : Spanning engine R st m row c
  plain : batch = false → st.spanStart = none
  failures : st.failures = failures

omit [LinearOrder F] [FloorRing F] in
/-- After a pixel without a span to keep. -/
theorem Walking.of_held {st : WalkState A n} {m : Fin n → Contents (S × F)} (h : Held R st m)
    (hspan : st.spanStart = none) {failures : Nat} (hfailures : st.failures = failures)
    (row : List T) (c : Nat) : Walking engine R batch st m failures row c where
  spanning := by
    rw [Spanning, hspan]
    exact h
  plain := fun _ => hspan
  failures := hfailures

omit [LinearOrder F] [FloorRing F] in
/-- Without a batch a pixel is only passed. -/
theorem Spanning.held {st : WalkState A n} {m : Fin n → Contents (S × F)} {row : List T} {c : Nat}
    (h : Spanning engine R st m row c) (hspan : st.spanStart = none) : Held R st m := by
  rwa [Spanning, hspan] at h

omit [Field F] [LinearOrder F] [FloorRing F] in
theorem pixelOf_one {row : List T} {c : Nat} (hc : c < row.length) :
    ∃ v, row[c]? = some v ∧ pixelOf 1 row c = [v] := by
  refine ⟨row.get ⟨c, hc⟩, List.getElem?_eq_getElem hc, ?_⟩
  rw [pixelOf, Nat.mul_one, List.drop_eq_getElem_cons hc]
  rfl

variable {m : Fin n → Contents (S × F)} {st : WalkState A n} {failures rowIdx : Nat} {row : List T}
  {c : Nat}

theorem Walking.unread (h : Walking engine R batch st m failures row c)
    (hbatch : batch = true → Batches ctx spp read engine) (hc : (c + 1) * spp ≤ row.length)
    (hnone : read (pixelOf spp row c) = none) :
    Walking engine R batch st
      (m + pixelSamples ctx spp read engine.combineSampleWeights rowIdx row c)
      (failures + pixelFailures ctx spp read rowIdx row c) row (c + 1) := by
  have hsamples : pixelSamples ctx spp read engine.combineSampleWeights rowIdx row c = 0 := by
    rw [pixelSamples, hnone]
  have hfailures : pixelFailures ctx spp read rowIdx row c = 0 := by
    rw [pixelFailures, hnone, if_neg (by simp)]
  rw [hsamples, hfailures, add_zero, Nat.add_zero]
  refine ⟨?_, h.plain, h.failures⟩
  cases batch with
  | false =>
      rw [Spanning, h.plain rfl]
      exact h.spanning.held (h.plain rfl)
  | true =>
      have hb := hbatch rfl
      refine h.spanning.skip ?_
      rw [hb.spp, Nat.mul_one] at hc
      rw [hb.spp] at hnone
      obtain ⟨v, hv, hpixel⟩ := pixelOf_one hc
      rw [hpixel, hb.read] at hnone
      rw [hv, Option.bind_some, hnone]

/-- A readable pixel of a batch, at its center. -/
theorem Walking.center (heng : engine.Lawful R) (h : Walking engine R true st m failures row c)
    (hb : Batches ctx spp read engine) (hc : (c + 1) * spp ≤ row.length) {s : S}
    (hread : read (pixelOf spp row c) = some s) {p : F × F}
    (hpositions : positionsOf ctx (ctx.chunk.colOffset + c) rowIdx = [(p, 1)])
    (hfailures : failuresOf ctx (ctx.chunk.colOffset + c) rowIdx = 0) :
    Walking engine R true (st.advanceCells engine (ctx.index.cells p.1 p.2) (row.take c))
      (m + pixelSamples ctx spp read engine.combineSampleWeights rowIdx row c)
      (failures + pixelFailures ctx spp read rowIdx row c) row (c + 1) := by
  rw [hb.spp] at hread hc ⊢
  rw [Nat.mul_one] at hc
  obtain ⟨v, hv, hpixel⟩ := pixelOf_one hc
  have hsample : engine.getSample v = some s := by rwa [hpixel, hb.read] at hread
  obtain ⟨hspanning, hkept⟩ := h.spanning.advanceCells heng (ctx.index.cells p.1 p.2) hv hsample
  have hsamples : pixelSamples ctx 1 read engine.combineSampleWeights rowIdx row c =
      fun i => Pi.single (ctx.index.cells p.1 p.2 i) {(s, 1)} := by
    funext i k
    rw [pixelSamples, hread]
    dsimp only
    rw [hpositions, observed, List.map_singleton, statesFor_cons, statesFor_nil, add_zero,
      Pi.single_apply]
    simp only [eq_comm (a := k)]
    by_cases hk : ctx.index.cells p.1 p.2 i = k
    · cases engine.combineSampleWeights <;> simp [hk]
    · cases engine.combineSampleWeights <;> simp [hk]
  have hcount : pixelFailures ctx 1 read rowIdx row c = 0 := by
    rw [pixelFailures, hread, hfailures, ite_self]
  rw [hsamples, hcount]
  exact ⟨hspanning, fun hfalse => (Bool.true_eq_false_eq_False hfalse).elim, hkept.trans h.failures⟩

/-- A readable pixel without positions closes the span. -/
theorem Walking.outside (heng : engine.Lawful R) (h : Walking engine R batch st m failures row c)
    {s : S} (hread : read (pixelOf spp row c) = some s)
    (hpositions : positionsOf ctx (ctx.chunk.colOffset + c) rowIdx = []) :
    Walking engine R batch ((st.transformFailed (failuresOf ctx (ctx.chunk.colOffset + c)
        rowIdx)).closeSpan engine (row.take c))
      (m + pixelSamples ctx spp read engine.combineSampleWeights rowIdx row c)
      (failures + pixelFailures ctx spp read rowIdx row c) row (c + 1) := by
  have hsamples : pixelSamples ctx spp read engine.combineSampleWeights rowIdx row c = 0 := by
    funext i k
    rw [pixelSamples, hread]
    dsimp only
    rw [hpositions, observed]
    cases engine.combineSampleWeights <;> rfl
  have hcount : pixelFailures ctx spp read rowIdx row c =
      failuresOf ctx (ctx.chunk.colOffset + c) rowIdx := by
    rw [pixelFailures, hread, if_pos Option.isSome_some]
  obtain ⟨hheld, hspan, hkept⟩ := (h.spanning.transformFailed _).closeSpan heng
  rw [hsamples, add_zero, hcount, ← h.failures]
  exact .of_held hheld hspan hkept row (c + 1)

/-- A readable pixel without a batch. -/
theorem Walking.sampled [IsStrictOrderedRing F] (heng : engine.Lawful R)
    (h : Walking engine R false st m failures row c) {s : S}
    (hread : read (pixelOf spp row c) = some s) :
    Walking engine R false
      ((List.finRange n).foldl (fun st i =>
        (cellAssignments ctx engine.combineSampleWeights
          (positionsOf ctx (ctx.chunk.colOffset + c) rowIdx) i).foldl
          (fun st a => st.update engine i a.1 s a.2) st)
        (st.transformFailed (failuresOf ctx (ctx.chunk.colOffset + c) rowIdx)))
      (m + pixelSamples ctx spp read engine.combineSampleWeights rowIdx row c)
      (failures + pixelFailures ctx spp read rowIdx row c) row (c + 1) := by
  have hpositions : ∀ p ∈ positionsOf ctx (ctx.chunk.colOffset + c) rowIdx, 0 < p.2 := by
    intro p hp
    obtain ⟨sp, hsp, hposition⟩ := List.mem_filterMap.mp hp
    obtain ⟨point, -, rfl⟩ := Option.map_eq_some_iff.mp hposition
    exact ctx.sampling.weights sp hsp
  have hheld : Held R (st.transformFailed (failuresOf ctx (ctx.chunk.colOffset + c) rowIdx)) m :=
    (h.spanning.held (h.plain rfl)).congr rfl rfl
  obtain ⟨hheld', hspan, hkept⟩ := hheld.updateCells heng s
    (fun i => cellAssignments ctx engine.combineSampleWeights
      (positionsOf ctx (ctx.chunk.colOffset + c) rowIdx) i)
    fun i a ha => cellAssignments_pos hpositions ha
  have hsamples : pixelSamples ctx spp read engine.combineSampleWeights rowIdx row c =
      fun i k => (statesFor k (cellAssignments ctx engine.combineSampleWeights
        (positionsOf ctx (ctx.chunk.colOffset + c) rowIdx) i)).map fun w => (s, w) := by
    funext i k
    rw [pixelSamples, hread, statesFor_cellAssignments]
  have hcount : pixelFailures ctx spp read rowIdx row c =
      failuresOf ctx (ctx.chunk.colOffset + c) rowIdx := by
    rw [pixelFailures, hread, if_pos Option.isSome_some]
  rw [hsamples, hcount, ← h.failures]
  exact .of_held hheld' (hspan.trans (h.plain rfl)) hkept row (c + 1)

/-- The center of a pixel is a position, or it failed, or it is dropped. -/
theorem Batches.positions (hb : Batches ctx spp read engine) (col rowIdx : Nat) :
    ∃ sp, ctx.sampling.points = [sp] ∧ positionsOf ctx col rowIdx =
        (((pointOf ctx col rowIdx sp).filter fun p =>
          Retains ctx p && ctx.index.accepts p.1 p.2).map fun p => (p, (1 : F))).toList ∧
      failuresOf ctx col rowIdx = if failed ctx col rowIdx sp then 1 else 0 := by
  obtain ⟨sp, hpoints, hweight⟩ := exists_of_isSinglePoint hb.point
  refine ⟨sp, hpoints, ?_, ?_⟩
  · rw [positionsOf, hpoints, List.filterMap_cons, positionOf, hweight]
    cases ((pointOf ctx col rowIdx sp).filter fun p => Retains ctx p && ctx.index.accepts p.1 p.2)
    · rfl
    · rfl
  · rw [failuresOf, hpoints, List.countP_singleton]

theorem Walking.batchPixel (heng : engine.Lawful R) (h : Walking engine R true st m failures row c)
    (hb : Batches ctx spp read engine) (howner : ctx.owner = none) (hbox : ctx.bbox = none)
    (hc : (c + 1) * spp ≤ row.length) :
    Walking engine R true (st.batchPixel ctx spp read engine
        ((SampleProjector.new ctx).startRow ctx.sampling rowIdx) rowIdx row c)
      (m + pixelSamples ctx spp read engine.combineSampleWeights rowIdx row c)
      (failures + pixelFailures ctx spp read rowIdx row c) row (c + 1) := by
  rw [WalkState.batchPixel]
  cases hread : read (pixelOf spp row c) with
  | none =>
      rw [if_pos Option.isNone_none]
      exact h.unread (fun _ => hb) hc hread
  | some s =>
      rw [if_neg (by simp)]
      obtain ⟨sp, hpoints, hpositions, hcount⟩ := hb.positions (ctx.chunk.colOffset + c) rowIdx
      have hretains : ∀ p, Retains ctx p = true := by
        intro p
        rw [Retains, hbox, howner]
        rfl
      simp only [hretains, Bool.true_and] at hpositions
      rw [hpoints]
      dsimp only
      rw [located_startRow ctx (ctx.chunk.colOffset + c) rowIdx (by rw [hpoints]; rfl)]
      cases hpoint : (pointOf ctx (ctx.chunk.colOffset + c) rowIdx sp).filter fun p =>
          ctx.index.accepts p.1 p.2 with
      | none =>
          rw [hpoint] at hpositions
          have hfailed : failed ctx (ctx.chunk.colOffset + c) rowIdx sp = true := by
            rw [failed]
            cases hp : pointOf ctx (ctx.chunk.colOffset + c) rowIdx sp with
            | none => rfl
            | some p =>
                rw [hp, Option.filter_eq_none_iff] at hpoint
                rw [Option.all_some, hretains, Bool.true_and]
                simpa using hpoint p rfl
          rw [hfailed, if_pos rfl] at hcount
          have hout := h.outside heng hread hpositions
          rwa [hcount] at hout
      | some p =>
          rw [hpoint] at hpositions
          have hfailed : failed ctx (ctx.chunk.colOffset + c) rowIdx sp = false := by
            obtain ⟨hp, haccepts⟩ := Option.filter_eq_some_iff.mp hpoint
            rw [failed, hp, Option.all_some, haccepts, Bool.not_true, Bool.and_false]
          rw [hfailed, if_neg (by simp)] at hcount
          exact h.center heng hb hc hread hpositions hcount

theorem Walking.samplePixel [IsStrictOrderedRing F] (heng : engine.Lawful R)
    (h : Walking engine R batch st m failures row c)
    (hbatch : batch = true → Batches ctx spp read engine) (hc : (c + 1) * spp ≤ row.length) :
    Walking engine R batch (st.samplePixel ctx spp read batch engine
        ((SampleProjector.new ctx).startRow ctx.sampling rowIdx) rowIdx row c)
      (m + pixelSamples ctx spp read engine.combineSampleWeights rowIdx row c)
      (failures + pixelFailures ctx spp read rowIdx row c) row (c + 1) := by
  rw [WalkState.samplePixel]
  cases hread : read (pixelOf spp row c) with
  | none => exact h.unread hbatch hc hread
  | some s =>
      dsimp only
      rw [samplePositions_eq]
      dsimp only
      cases hpositions : positionsOf ctx (ctx.chunk.colOffset + c) rowIdx with
      | nil => exact h.outside heng hread hpositions
      | cons first rest =>
          dsimp only
          cases batch with
          | false =>
              rw [if_neg Bool.false_ne_true, ← hpositions]
              exact h.sampled heng hread
          | true =>
              rw [if_pos rfl]
              have hb := hbatch rfl
              obtain ⟨sp, -, hsingle, hcount⟩ := hb.positions (ctx.chunk.colOffset + c) rowIdx
              rw [hpositions] at hsingle
              cases hpoint : (pointOf ctx (ctx.chunk.colOffset + c) rowIdx sp).filter fun p =>
                  Retains ctx p && ctx.index.accepts p.1 p.2 with
              | none =>
                  rw [hpoint] at hsingle
                  cases hsingle
              | some p =>
                  rw [hpoint] at hsingle
                  obtain ⟨rfl, rfl⟩ := List.cons.inj hsingle
                  obtain ⟨hp, haccepts⟩ := Option.filter_eq_some_iff.mp hpoint
                  have hfailed : failed ctx (ctx.chunk.colOffset + c) rowIdx sp = false := by
                    rw [failed, hp, Option.all_some, (Bool.and_eq_true_iff.mp haccepts).2,
                      Bool.not_true, Bool.and_false]
                  rw [hfailed, if_neg (by simp)] at hcount
                  have hkept : Walking engine R true (st.transformFailed 0) m failures row c :=
                    ⟨h.spanning.transformFailed 0, h.plain, h.failures⟩
                  rw [hcount]
                  exact hkept.center heng hb hc hread hpositions hcount

/-! ## One row -/

omit [LinearOrder F] [FloorRing F] in
/-- The pixels of a row from column `a` on. -/
theorem Walking.fold {step : WalkState A n → Nat → WalkState A n}
    {samples : Nat → Fin n → Contents (S × F)} {failed : Nat → Nat}
    (hstep : ∀ {st : WalkState A n} {m : Fin n → Contents (S × F)} {failures c : Nat},
      (c + 1) * spp ≤ row.length → Walking engine R batch st m failures row c →
        Walking engine R batch (step st c) (m + samples c) (failures + failed c) row (c + 1))
    (k : Nat) : ∀ {st : WalkState A n} {m : Fin n → Contents (S × F)} {failures a : Nat},
      (a + k) * spp ≤ row.length → Walking engine R batch st m failures row a →
        Walking engine R batch ((List.range' a k).foldl step st)
          (m + ((List.range' a k).map samples).sum)
          (failures + ((List.range' a k).map failed).sum) row (a + k) := by
  induction k with
  | zero =>
      intro st m failures a _ h
      simpa using h
  | succ k ih =>
      intro st m failures a hlen h
      rw [List.range'_succ, List.foldl_cons, List.map_cons, List.map_cons, List.sum_cons,
        List.sum_cons, ← add_assoc, ← Nat.add_assoc, show a + (k + 1) = a + 1 + k by omega]
      have hfirst : (a + 1) * spp ≤ row.length :=
        le_trans (Nat.mul_le_mul_right spp (by omega)) hlen
      exact ih (by rwa [show a + 1 + k = a + (k + 1) by omega]) (hstep hfirst h)

theorem Held.walkRow [IsStrictOrderedRing F] (heng : engine.Lawful R) (h : Held R st m)
    (hbatch : batch = true → Batches ctx spp read engine) (rowIdx : Nat) {cols : Nat × Nat}
    (hcols : cols.2 * spp ≤ row.length) :
    let st' := st.walkRow ctx spp read batch engine
      ((SampleProjector.new ctx).startRow ctx.sampling rowIdx) rowIdx row cols
    let columns := List.range' cols.1 (cols.2 - cols.1)
    Held R st' (m + (columns.map
        (pixelSamples ctx spp read engine.combineSampleWeights rowIdx row)).sum) ∧
      st'.failures = st.failures + (columns.map (pixelFailures ctx spp read rowIdx row)).sum := by
  intro st' columns
  have hreset : Held R { st with spanStart := none } m := h.congr rfl rfl
  have hstart : ∀ a, Walking engine R batch { st with spanStart := none } m st.failures row a :=
    fun a => .of_held hreset rfl rfl row a
  obtain ⟨step, hstep, hst'⟩ : ∃ step : WalkState A n → Nat → WalkState A n,
      (∀ {st : WalkState A n} {m : Fin n → Contents (S × F)} {failures c : Nat},
        (c + 1) * spp ≤ row.length → Walking engine R batch st m failures row c →
        Walking engine R batch (step st c)
          (m + pixelSamples ctx spp read engine.combineSampleWeights rowIdx row c)
          (failures + pixelFailures ctx spp read rowIdx row c) row (c + 1)) ∧
      st' = (columns.foldl step { st with spanStart := none }).closeSpan engine
        (row.take cols.2) := by
    by_cases hplain : batch = true ∧ ctx.owner.isNone = true ∧ ctx.bbox.isNone = true
    · obtain ⟨rfl, howner, hbox⟩ := hplain
      refine ⟨_, fun hc hw => hw.batchPixel heng (hbatch rfl) (Option.isNone_iff_eq_none.mp howner)
        (Option.isNone_iff_eq_none.mp hbox) hc, ?_⟩
      show WalkState.walkRow .. = _
      rw [WalkState.walkRow, if_pos ⟨rfl, howner, hbox⟩]
    · refine ⟨_, fun hc hw => hw.samplePixel heng hbatch hc, ?_⟩
      show WalkState.walkRow .. = _
      rw [WalkState.walkRow, if_neg hplain]
  rw [hst']
  rcases Nat.le_total cols.2 cols.1 with hle | hle
  · have hnil : columns = [] := by
      show List.range' cols.1 (cols.2 - cols.1) = []
      rw [Nat.sub_eq_zero_of_le hle]
      rfl
    obtain ⟨hheld, -, hkept⟩ := (hstart cols.2).spanning.closeSpan heng
    rw [hnil]
    simpa using ⟨hheld, hkept⟩
  · have hw := Walking.fold hstep (cols.2 - cols.1)
      (by rwa [Nat.add_sub_cancel' hle]) (hstart cols.1)
    rw [Nat.add_sub_cancel' hle] at hw
    obtain ⟨hheld, -, hkept⟩ := hw.spanning.closeSpan heng
    exact ⟨hheld, hkept.trans hw.failures⟩

/-! ## The rows of a window -/

/-- The visited pixels of the rows that have values, each with its row. -/
def visitedPixels (ctx : WalkContext F n) (spp : Nat) (slice : List T) (stride : Nat)
    (rows : List Nat) : List (Nat × List T × Nat) :=
  (rows.filter fun r => r * stride < slice.length).flatMap fun r =>
    match visitedColumns ctx.bbox ctx.gt ctx.crs ctx.sampling ctx.chunk.colOffset
      (ctx.chunk.rowOffset + r) (rowPixels ctx spp slice stride r) with
    | none => []
    | some cols => (List.range' cols.1 (cols.2 - cols.1)).map fun c =>
        (ctx.chunk.rowOffset + r, rowValues ctx spp slice stride r, c)

def walkedSamples (ctx : WalkContext F n) (spp : Nat) (read : List T → Option S) (combine : Bool)
    (pixels : List (Nat × List T × Nat)) : Fin n → Contents (S × F) :=
  (pixels.map fun p => pixelSamples ctx spp read combine p.1 p.2.1 p.2.2).sum

def walkedFailures (ctx : WalkContext F n) (spp : Nat) (read : List T → Option S)
    (pixels : List (Nat × List T × Nat)) : Nat :=
  (pixels.map fun p => pixelFailures ctx spp read p.1 p.2.1 p.2.2).sum

theorem clampColumn_le (rowPx : Nat) (v : Int) : RowPruner.clampColumn rowPx v ≤ rowPx := by
  rw [RowPruner.clampColumn]
  omega

theorem visitedColumns_le {bbox : Option (Bbox F)} {gt : GeoTransform F} {crs : CrsTransformer F}
    {sampling : SamplingPattern F} {colOffset rowIdx rowPx : Nat} {cols : Nat × Nat}
    (h : visitedColumns bbox gt crs sampling colOffset rowIdx rowPx = some cols) :
    cols.2 ≤ rowPx := by
  have hrange : ∀ first last, RowPruner.columnRange rowPx first last = some cols →
      cols.2 ≤ rowPx := by
    intro first last hr
    rw [RowPruner.columnRange] at hr
    split at hr
    next =>
      obtain rfl := Option.some.inj hr
      exact clampColumn_le rowPx last
    next => cases hr
  have hall : some (0, rowPx) = some cols → cols.2 ≤ rowPx := by
    intro heq
    obtain rfl := Option.some.inj heq
    exact le_rfl
  rw [visitedColumns] at h
  split at h
  next =>
    rw [RowPruner.columns] at h
    split at h
    next => exact hall h
    next =>
      split at h
      next => cases h
      next =>
        dsimp only at h
        split at h
        next => exact hall h
        next => exact hrange _ _ h
  next => exact hall h

omit [FloorRing F] in
theorem length_rowValues (ctx : WalkContext F n) (spp : Nat) (slice : List T) (stride r : Nat) :
    (rowValues ctx spp slice stride r).length = rowPixels ctx spp slice stride r * spp := by
  rw [rowValues, List.length_take, List.length_drop]
  refine min_eq_left ?_
  rw [rowPixels]
  exact (Nat.mul_le_mul_right spp (min_le_left _ _)).trans (Nat.div_mul_le_self _ _)

/-- A row without a readable pixel adds nothing. -/
theorem sum_unreadable (ctx : WalkContext F n) {pixels : List Nat}
    (h : ∀ c ∈ pixels, read (pixelOf spp row c) = none) (combine : Bool) (rowIdx : Nat) :
    (pixels.map (pixelSamples ctx spp read combine rowIdx row)).sum = 0 ∧
      (pixels.map (pixelFailures ctx spp read rowIdx row)).sum = 0 := by
  constructor
  · refine List.sum_eq_zero fun x hx => ?_
    obtain ⟨c, hc, rfl⟩ := List.mem_map.mp hx
    rw [pixelSamples, h c hc]
  · refine List.sum_eq_zero fun x hx => ?_
    obtain ⟨c, hc, rfl⟩ := List.mem_map.mp hx
    rw [pixelFailures, h c hc]
    rfl

omit [Field F] [LinearOrder F] [FloorRing F] in
theorem lt_of_mem_range' {a b c : Nat} (h : c ∈ List.range' a (b - a)) : c + 1 ≤ b := by
  have := List.mem_range'_1.mp h
  omega

theorem visitedPixels_row (ctx : WalkContext F n) (spp : Nat) {slice : List T} {stride r : Nat}
    (h : r * stride < slice.length) : visitedPixels ctx spp slice stride [r] =
      match visitedColumns ctx.bbox ctx.gt ctx.crs ctx.sampling ctx.chunk.colOffset
        (ctx.chunk.rowOffset + r) (rowPixels ctx spp slice stride r) with
      | none => []
      | some cols => (List.range' cols.1 (cols.2 - cols.1)).map fun c =>
          (ctx.chunk.rowOffset + r, rowValues ctx spp slice stride r, c) := by
  rw [visitedPixels, List.filter_cons, if_pos (decide_eq_true h), List.filter_nil,
    List.flatMap_singleton]

theorem walkedSamples_append (ctx : WalkContext F n) (spp : Nat) (read : List T → Option S)
    (combine : Bool) (l r : List (Nat × List T × Nat)) :
    walkedSamples ctx spp read combine (l ++ r) = walkedSamples ctx spp read combine l +
      walkedSamples ctx spp read combine r := by
  rw [walkedSamples, List.map_append, List.sum_append, walkedSamples, walkedSamples]

theorem walkedFailures_append (ctx : WalkContext F n) (spp : Nat) (read : List T → Option S)
    (l r : List (Nat × List T × Nat)) :
    walkedFailures ctx spp read (l ++ r) = walkedFailures ctx spp read l +
      walkedFailures ctx spp read r := by
  rw [walkedFailures, List.map_append, List.sum_append, walkedFailures, walkedFailures]

/-- A row that has values, and the rows after it. -/
theorem Held.oneRow [IsStrictOrderedRing F] (heng : engine.Lawful R) (h : Held R st m)
    (hbatch : batch = true → Batches ctx spp read engine) {slice : List T} {stride r : Nat}
    {isRowAllNodata : List T → Bool} (hnodata : ∀ row, isRowAllNodata row = true → ∀ c,
      (c + 1) * spp ≤ row.length → read (pixelOf spp row c) = none)
    (hstart : r * stride < slice.length) (rows : List Nat) :
    ∃ t, walkRows ctx spp read batch engine slice stride isRowAllNodata (r :: rows) st =
        walkRows ctx spp read batch engine slice stride isRowAllNodata rows t ∧
      Held R t (m + walkedSamples ctx spp read engine.combineSampleWeights
        (visitedPixels ctx spp slice stride [r])) ∧
      t.failures = st.failures + walkedFailures ctx spp read
        (visitedPixels ctx spp slice stride [r]) := by
  rw [RasterH3.Agg.walkRows, if_neg (not_le.mpr hstart), visitedPixels_row ctx spp hstart]
  dsimp only
  cases hcols : visitedColumns ctx.bbox ctx.gt ctx.crs ctx.sampling ctx.chunk.colOffset
      (ctx.chunk.rowOffset + r) (rowPixels ctx spp slice stride r) with
  | none =>
      refine ⟨st, ?_, (add_zero m).symm ▸ h, rfl⟩
      split
      next => rfl
      next => rfl
  | some cols =>
      dsimp only
      have hlen : cols.2 * spp ≤ (rowValues ctx spp slice stride r).length := by
        rw [length_rowValues]
        exact Nat.mul_le_mul_right spp (visitedColumns_le hcols)
      rw [walkedSamples, walkedFailures, List.map_map, List.map_map]
      split
      next hskip =>
        have hunread : ∀ c ∈ List.range' cols.1 (cols.2 - cols.1),
            read (pixelOf spp (rowValues ctx spp slice stride r) c) = none := fun c hc =>
          hnodata _ hskip c ((Nat.mul_le_mul_right spp (lt_of_mem_range' hc)).trans hlen)
        obtain ⟨hsamples, hcount⟩ := sum_unreadable ctx hunread engine.combineSampleWeights
          (ctx.chunk.rowOffset + r)
        refine ⟨st, rfl, ?_, ?_⟩
        · show Held R st (m + ((List.range' cols.1 (cols.2 - cols.1)).map (pixelSamples ctx spp read
            engine.combineSampleWeights (ctx.chunk.rowOffset + r)
              (rowValues ctx spp slice stride r))).sum)
          rwa [hsamples, add_zero]
        · exact (Nat.add_zero _).symm.trans (congrArg (st.failures + ·) hcount.symm)
      next =>
        obtain ⟨hheld, hfail⟩ := h.walkRow heng hbatch (ctx.chunk.rowOffset + r) hlen
        exact ⟨_, rfl, hheld, hfail⟩

/-- The rows from `r` on: those without data are skipped, and after the first without values
there are none. -/
theorem Held.walkRows [IsStrictOrderedRing F] (heng : engine.Lawful R)
    (hbatch : batch = true → Batches ctx spp read engine) (slice : List T) (stride : Nat)
    {isRowAllNodata : List T → Bool} (hnodata : ∀ row, isRowAllNodata row = true → ∀ c,
      (c + 1) * spp ≤ row.length → read (pixelOf spp row c) = none) (k : Nat) :
    ∀ {st : WalkState A n} {m : Fin n → Contents (S × F)} (r : Nat), Held R st m →
      let st' := walkRows ctx spp read batch engine slice stride isRowAllNodata
        (List.range' r k) st
      let pixels := visitedPixels ctx spp slice stride (List.range' r k)
      Held R st' (m + walkedSamples ctx spp read engine.combineSampleWeights pixels) ∧
        st'.failures = st.failures + walkedFailures ctx spp read pixels := by
  induction k with
  | zero =>
      intro st m r h
      exact ⟨(add_zero m).symm ▸ h, rfl⟩
  | succ k ih =>
      intro st m r h
      dsimp only
      rw [List.range'_succ]
      by_cases hstart : slice.length ≤ r * stride
      · rw [RasterH3.Agg.walkRows, if_pos hstart]
        have hnil : visitedPixels ctx spp slice stride (r :: List.range' (r + 1) k) = [] := by
          rw [visitedPixels, List.filter_eq_nil_iff.mpr]
          · rfl
          · intro r' hr'
            have hle : r ≤ r' := by
              rcases List.mem_cons.mp hr' with rfl | hmem
              · exact le_rfl
              · have := (List.mem_range'_1.mp hmem).1
                omega
            have := hstart.trans (Nat.mul_le_mul_right stride hle)
            simpa using this
        rw [hnil]
        exact ⟨(add_zero m).symm ▸ h, rfl⟩
      · have hcons : visitedPixels ctx spp slice stride (r :: List.range' (r + 1) k) =
            visitedPixels ctx spp slice stride [r] ++
              visitedPixels ctx spp slice stride (List.range' (r + 1) k) := by
          rw [visitedPixels, visitedPixels, visitedPixels, ← List.flatMap_append,
            ← List.filter_append]
          rfl
        rw [hcons, walkedSamples_append, walkedFailures_append, ← add_assoc, ← Nat.add_assoc]
        obtain ⟨t, ht, hheld, hfail⟩ := h.oneRow heng hbatch hnodata (not_le.mp hstart)
          (List.range' (r + 1) k)
        rw [ht]
        obtain ⟨hheld', hfail'⟩ := ih (r + 1) hheld
        exact ⟨hheld', by rw [hfail', hfail]⟩

/-! ## A window -/

omit [FloorRing F] in
/-- Nothing is left in the runs at the end. -/
theorem Held.finish (heng : engine.Lawful R) (h : Held R st m) (i : Fin n) :
    (keys (st.finish engine i)).Nodup ∧
      Keyed.Holds (Observed R) (st.finish engine i) (m i) := by
  obtain ⟨c, P, hc, hP, hnone, hm⟩ := h.split i
  obtain ⟨hnodup, hmap, -⟩ := holds_flushRun heng (h.nodup i) hc hP hnone
  exact ⟨hnodup, hm ▸ hmap⟩

omit [FloorRing F] in
theorem held_new (heng : engine.Lawful R) {maps : Fin n → CellMap A}
    (hnodup : ∀ i, (keys (maps i)).Nodup)
    (hmaps : ∀ i, Keyed.Holds (Observed R) (maps i) (m i)) :
    Held R ⟨.new engine, maps, none, 0⟩ m :=
  ⟨hnodup, fun i => ⟨m i, 0, hmaps i, heng.newAcc, fun _ => rfl, (add_zero (m i)).symm⟩⟩

theorem visitedPixels_eq_nil (ctx : WalkContext F n) {spp : Nat} {slice : List T} {stride : Nat}
    (rows : List Nat) (h : ∀ r, rowPixels ctx spp slice stride r = 0) :
    visitedPixels ctx spp slice stride rows = [] := by
  rw [visitedPixels, List.flatMap_eq_nil_iff]
  intro r _
  rw [h r]
  split
  next => rfl
  next cols hcols =>
    rw [Nat.sub_eq_zero_of_le ((visitedColumns_le hcols).trans (Nat.zero_le _))]
    rfl

/-- A walk adds to the maps what its visited pixels add one by one, and counts their failed
samples. -/
theorem walk_holds [IsStrictOrderedRing F] (heng : engine.Lawful R)
    (hbatch : batch = true → Batches ctx (max spp 1) read engine)
    {isRowAllNodata : List T → Bool} (hnodata : ∀ row, isRowAllNodata row = true → ∀ c,
      (c + 1) * max spp 1 ≤ row.length → read (pixelOf (max spp 1) row c) = none) (slice : List T)
    {maps : Fin n → CellMap A} (hnodup : ∀ i, (keys (maps i)).Nodup)
    (hmaps : ∀ i, Keyed.Holds (Observed R) (maps i) (m i)) :
    let result := walk ctx spp read batch engine slice isRowAllNodata maps
    let pixels := visitedPixels ctx (max spp 1) slice (rowStride ctx (max spp 1) slice)
      (List.range ctx.chunk.height)
    (∀ i, (keys (result.1 i)).Nodup ∧ Keyed.Holds (Observed R) (result.1 i) ((m +
      walkedSamples ctx (max spp 1) read engine.combineSampleWeights pixels) i)) ∧
      result.2 = walkedFailures ctx (max spp 1) read pixels := by
  intro result pixels
  by_cases hempty : ctx.chunk.width = 0 ∨ slice = []
  · have hpixels : pixels = [] := visitedPixels_eq_nil ctx _ fun r => by
      rcases hempty with hwidth | rfl
      · rw [rowPixels, hwidth, Nat.min_zero]
      · rw [rowPixels, List.length_nil, Nat.zero_sub, Nat.zero_div, Nat.zero_min]
    have hresult : result = (maps, 0) := by
      show walk .. = _
      rw [walk]
      dsimp only
      rw [if_pos hempty]
    rw [hresult, hpixels]
    exact ⟨fun i => ⟨hnodup i, (add_zero m).symm ▸ hmaps i⟩, rfl⟩
  · obtain ⟨hheld, hfail⟩ := (held_new heng hnodup hmaps).walkRows heng hbatch slice
      (rowStride ctx (max spp 1) slice) hnodata ctx.chunk.height 0
    rw [← List.range_eq_range'] at hheld hfail
    have hresult : result = ((walkRows ctx (max spp 1) read batch engine slice
        (rowStride ctx (max spp 1) slice) isRowAllNodata (List.range ctx.chunk.height)
        ⟨.new engine, maps, none, 0⟩).finish engine, (walkRows ctx (max spp 1) read batch engine
          slice (rowStride ctx (max spp 1) slice) isRowAllNodata (List.range ctx.chunk.height)
          ⟨.new engine, maps, none, 0⟩).failures) := by
      show walk .. = _
      rw [walk]
      dsimp only
      rw [if_neg hempty]
    rw [hresult]
    exact ⟨fun i => hheld.finish heng i, hfail.trans (Nat.zero_add _)⟩

end RasterH3.Agg
