import RasterH3.Proofs.KernelLaws

/-!
# What the records of a stream say of the raster

A streamed scan delivers for every cell what the windows had of it, and the windows of a
chunk have what its pixels add. Put together: the records of a finished stream have the
moments of all samples of their cells (`streamed_moments`), or the weight of every class
(`streamed_classes`), and no cell that has a sample is missing. It does not matter how the
chunks are cut into windows, which of them are merged when, what is spilled and read back,
and how much the consumer asks for at a time.

The two halves speak different languages. The windows are accounted for in terms of a law
between states and multisets of samples, which updates and merges of live states keep; the
stream is accounted for in terms of a reading that merges and trips through files keep. A
kernel whose states have a law gives a scan whose windows have a reading, and from there on
the results about streams apply as they are.

A state that has been written and read back is not one that updates have built. What is kept
of the classes of such a state is in `Weighs`.
-/

namespace RasterH3.Agg

open Raster Keyed AccumulatorMerge SpillAccumulator

variable {F : Type} [Field F] [LinearOrder F] [IsStrictOrderedRing F] [FloorRing F] {n : Nat}
  {t : PixelType}

/-! ## Moments through a stream -/

omit [FloorRing F] in
theorem represents_moments [Sample F] [ExactSample F] [Bytes.Codec F] [Bytes.Codec (Extended F)] :
    Represents (Observed (MomentsOf : Multiset (F × F) → H3Accumulator F (Extended F) → Prop)) where
  merge := by
    rintro P Q a b ⟨hP, hpos, hmoments⟩ ⟨-, hpos', hmoments'⟩
    exact ⟨fun hsum => hP (add_eq_zero.mp hsum).1, positive_add hpos hpos',
      hmoments.merge hmoments' hpos hpos'⟩
  same := by
    rintro P a b ⟨hP, hpos, h⟩ hsame
    exact ⟨hP, hpos, hsame.count_eq.trans h.count, hsame.sum_eq.trans h.sum,
      hsame.min_eq.trans h.min, hsame.max_eq.trans h.max, hsame.sumW2_eq.trans h.sumW2,
      hsame.m2_eq.trans h.m2⟩
  ne_zero := fun h => h.1

/-! ## Classes through a stream -/

open CategoricalAccumulator Sedona

/-- The weight of every class, and their sum. -/
structure Weighs (P : Multiset (Int64 × F)) (acc : CategoricalAccumulator F) : Prop where
  positive : ∀ p ∈ P, 0 < p.2
  totalled : Totalled acc
  weights : ∀ k, content acc k = classWeight P k

omit [FloorRing F] in
theorem ClassesOf.weighs {P : Multiset (Int64 × F)} {acc : CategoricalAccumulator F}
    (h : ClassesOf P acc) : Weighs P acc :=
  ⟨h.positive, h.built.totalled, h.weights⟩

omit [FloorRing F] in
theorem Weighs.total_ne_zero {P : Multiset (Int64 × F)} {acc : CategoricalAccumulator F}
    (h : Weighs P acc) (hP : P ≠ 0) : acc.totalCount ≠ 0 := by
  intro hzero
  obtain ⟨p, hp⟩ := Multiset.exists_mem_of_ne_zero hP
  have hnone : acc.classes = [] := by
    by_contra hne
    have hpos : 0 < (acc.classes.map Prod.snd).sum :=
      List.sum_pos _ (fun x hx => by
        obtain ⟨q, hq, rfl⟩ := List.mem_map.mp hx
        exact classes_pos acc q hq) (by simpa using hne)
    rw [← h.totalled, hzero] at hpos
    exact lt_irrefl _ hpos
  have hpos := classWeight_pos h.positive hp
  rw [← h.weights, content_of_not_mem (by rw [hnone]; exact List.not_mem_nil)] at hpos
  exact lt_irrefl _ hpos

omit [FloorRing F] in
theorem Weighs.merge {P Q : Multiset (Int64 × F)} {acc other : CategoricalAccumulator F}
    (h : Weighs P acc) (h' : Weighs Q other) (hQ : Q ≠ 0) : Weighs (P + Q) (acc.merge other) := by
  have hmerge : acc.merge other = acc.updateAll other.classes := by
    rw [CategoricalAccumulator.merge,
      if_neg fun hzero => h'.total_ne_zero hQ (beq_iff_eq.mp hzero)]
  rw [hmerge]
  refine ⟨fun p hp => (Multiset.mem_add.mp hp).elim (h.positive p) (h'.positive p),
    h.totalled.updateAll _, fun k => ?_⟩
  have hlookup := lookup_updateAll other.classes acc k other.positive other.classes_nodup
  rw [classWeight_add, ← h.weights, ← h'.weights]
  simp only [content, weightOf, hlookup]
  cases other.classes.lookup k with
  | none => exact (add_zero _).symm
  | some w => cases acc.classes.lookup k <;> simp

omit [FloorRing F] in
theorem represents_classes [Bytes.Codec F] : Represents (Observed (Weighs (F := F))) where
  merge := by
    rintro P Q a b ⟨hP, h⟩ ⟨hQ, h'⟩
    exact ⟨fun hsum => hP (add_eq_zero.mp hsum).1, h.merge h' hQ⟩
  same := by
    rintro P a b ⟨hP, h⟩ hsame
    have hcontent : ∀ k, weightOf b.classes k = weightOf a.classes k := fun k => by
      rw [weightOf, weightOf, hsame.classes_eq k]
    refine ⟨hP, h.positive, ?_, fun k => (hcontent k).trans (h.weights k)⟩
    have hperm := perm_of_weightOf b.classes_nodup a.classes_nodup (classes_pos b) (classes_pos a)
      hcontent
    rw [Totalled, hsame.total_eq, h.totalled]
    exact ((hperm.map Prod.snd).sum_eq).symm
  ne_zero := fun h => h.1

/-! ## Whole scans -/

section Scans

variable {T S A L C : Type} [LinearOrder L] [BoundedOrder L] [SpillAccumulator A] [LawfulSpill A]
  {v : ScanView F T n} {kernel : Option T → WindowKernel F T S A n}
  {R R' : Multiset (S × F) → A → Prop}

omit [FloorRing F] [IsStrictOrderedRing F] [Field F] [LinearOrder F] [SpillAccumulator A]
  [LawfulSpill A] in
theorem Scanned.Aggregates.mono {X : Type} {R R' : Multiset X → A → Prop} {c : Scanned A X n}
    {workerPixels : Nat} (h : c.Aggregates R workerPixels) (hR : ∀ {P a}, R P a → R' P a) :
    c.Aggregates R' workerPixels := by
  intro w hw i
  obtain ⟨hnodup, hholds⟩ := h w hw i
  exact ⟨hnodup, fun k a hmem => hR (hholds.present k a hmem), hholds.absent⟩

/-- What the scan reads, with what the pixels add. -/
def ScanView.items (v : ScanView F T n) (kernel : Option T → WindowKernel F T S A n)
    (chunks : List (Except String (DecodedChunk T))) : List (Item A (S × F) n) :=
  chunks.map (Except.map (v.scanned kernel))

/-- What is asked of a scan: whole chunks, of which none has a cell beyond its bound or a sample
that falls out of the walk on the antimeridian. -/
structure Scannable (v : ScanView F T n) (kernel : Option T → WindowKernel F T S A n)
    (cfg : Setup A L C n) (chunks : List (Except String (DecodedChunk T))) : Prop where
  norths : cfg.norths.length = chunks.length
  delivered : ∀ item, .ok item ∈ chunks → v.Delivered item
  bounded : ∀ k item, chunks[k]? = some (.ok item) → ∀ i key,
    (v.scanned kernel item).total i key ≠ 0 → cfg.h3.southLat key ≤ cfg.suffixMaxNorthLat k
  tasks : 0 < cfg.workerTasks
  pixels : 0 < cfg.workerPixels

omit [SpillAccumulator A] [LawfulSpill A] in
theorem Scannable.scan {cfg : Setup A L C n}
    {chunks : List (Except String (DecodedChunk T))} (h : Scannable v kernel cfg chunks)
    (hkernel : ∀ nodata, (kernel nodata).Lawful R)
    (hmono : ∀ {P a}, Observed R P a → R' P a) : Scan R' cfg (v.items kernel chunks) where
  chunks := by
    rw [ScanView.items, List.length_map]
    exact h.norths
  aggregates := by
    intro c hc
    obtain ⟨item, hitem, heq⟩ := List.mem_map.mp hc
    cases item with
    | error e => cases heq
    | ok item =>
        obtain rfl := Except.ok.inj heq
        exact (ScanView.aggregates hkernel (h.delivered item hitem) h.pixels).mono hmono
  bounded := by
    intro k item hk i key hne
    rw [ScanView.items, List.getElem?_map] at hk
    obtain ⟨chunk, hchunk, rfl⟩ := Option.map_eq_some_iff.mp hk
    cases chunk with
    | error e => exact absurd rfl hne
    | ok item => exact h.bounded k item hchunk i key hne
  tasks := h.tasks
  pixels := h.pixels

/-- The cells that a session delivers of, in order, with what their states say. -/
structure Supplies (R : Multiset (S × F) → A → Prop) (cfg : Setup A L C n)
    (own : CellIndex → Bool) (total : Fin n → Contents (S × F)) (session : Session A L C n)
    (cells : List (Emitted A n)) : Prop where
  aggregation : Aggregation R total cells
  records : session.records <+: finalsOf cfg own cells
  partials : session.partials <+: sharesOf cfg own cells
  finished : session.stream.isFinished = true → session.records = finalsOf cfg own cells ∧
    session.partials = sharesOf cfg own cells ∧ Complete total cells

/-- Whatever the kernel, as long as what its states say survives a spill. -/
theorem Scannable.supplies (hR : Represents R') {cfg : Setup A L C n}
    {chunks : List (Except String (DecodedChunk T))} (h : Scannable v kernel cfg chunks)
    (hkernel : ∀ nodata, (kernel nodata).Lawful R) (hmono : ∀ {P a}, Observed R P a → R' P a)
    {own : CellIndex → Bool} {classifier : Option C} (howns : Owns cfg own classifier.isSome)
    (compactionBudgetBytes : Option Nat) (structureBytes : Fin n → Nat → Nat)
    (indexBytes : Nat → Nat) (pages : List Page) :
    ∃ cells, Supplies R' cfg own
      (received (v.items kernel chunks) (v.items kernel chunks).length)
      ((Session.fresh cfg (v.items kernel chunks) classifier compactionBudgetBytes structureBytes
        indexBytes).run cfg pages) cells := by
  have hscan := h.scan hkernel hmono
  obtain ⟨cells, hcarries⟩ := run_streaming hR hscan howns compactionBudgetBytes structureBytes
    indexBytes pages
  obtain ⟨stream, hstream, hlost⟩ := id hcarries
  exact ⟨cells, hstream.aggregation hscan, hstream.finals ▸ List.prefix_append _ _,
    hstream.shares ▸ List.prefix_append _ _, fun hdone => hcarries.complete hdone⟩

end Scans

/-! ## The records -/

section Records

variable {L C : Type} [LinearOrder L] [BoundedOrder L] [Bytes.Codec F] [DecidableEq (Pixel F t)]
  {v : ScanView F (Pixel F t) n} {own : CellIndex → Bool} {classifier : Option C}
  {chunks : List (Except String (DecodedChunk (Pixel F t)))}

/-- The records of a continuous scan have the moments of all samples of their cells. -/
theorem streamed_moments [Bytes.Codec (Extended F)] [Sample F] [ExactSample F]
    (special : ExactFloat F → F) (options : ContinuousOptions)
    {cfg : Setup (H3Accumulator F (Extended F)) L C n}
    (h : Scannable v (continuousKernel special options) cfg chunks)
    (howns : Owns cfg own classifier.isSome) (compactionBudgetBytes : Option Nat)
    (structureBytes : Fin n → Nat → Nat) (indexBytes : Nat → Nat) (pages : List Page) :
    let items := v.items (continuousKernel special options) chunks
    ∃ cells, Supplies (Observed MomentsOf) cfg own (received items items.length)
      ((Session.fresh cfg items classifier compactionBudgetBytes structureBytes indexBytes).run
        cfg pages) cells :=
  h.supplies represents_moments (continuousKernel_lawful special options) id howns
    compactionBudgetBytes structureBytes indexBytes pages

/-- The records of a categorical scan have the weight of every class in their cells. -/
theorem streamed_classes (band : Nat) (remapper : Option CategoryRemapper)
    {cfg : Setup (CategoricalAccumulator F) L C n}
    (h : Scannable v (categoricalKernel band remapper) cfg chunks)
    (howns : Owns cfg own classifier.isSome) (compactionBudgetBytes : Option Nat)
    (structureBytes : Fin n → Nat → Nat) (indexBytes : Nat → Nat) (pages : List Page) :
    let items := v.items (categoricalKernel band remapper) chunks
    ∃ cells, Supplies (Observed Weighs) cfg own (received items items.length)
      ((Session.fresh cfg items classifier compactionBudgetBytes structureBytes indexBytes).run
        cfg pages) cells :=
  h.supplies represents_classes (categoricalKernel_lawful band remapper)
    (fun hobs => ⟨hobs.1, hobs.2.weighs⟩) howns compactionBudgetBytes structureBytes indexBytes
    pages

end Records

/-! ## A raster of two cells -/

omit [IsStrictOrderedRing F] in
/-- A pixel adds to the cells of its retained samples. -/
theorem cell_of_added {T S : Type} {ctx : WalkContext F n} {read : List T → Option S}
    {combine : Bool} {col rowIdx : Nat} {px : List T} {i : Fin n} {key : CellIndex}
    (h : addedBy ctx read combine col rowIdx px i key ≠ 0) :
    ∃ p ∈ positionsOf ctx col rowIdx, ctx.index.cells p.1.1 p.1.2 i = key := by
  by_contra hnone
  refine h ?_
  have hstates : statesFor key ((positionsOf ctx col rowIdx).map fun p =>
      (ctx.index.cells p.1.1 p.1.2 i, p.2)) = 0 := by
    refine statesFor_eq_zero.mpr fun hkey => hnone ?_
    obtain ⟨w, hw⟩ := mem_keys.mp hkey
    obtain ⟨p, hp, heq⟩ := List.mem_map.mp hw
    exact ⟨p, hp, congrArg Prod.fst heq⟩
  rw [addedBy]
  cases read px with
  | none => rfl
  | some s =>
      dsimp only
      rw [observed, hstates]
      cases combine with
      | false => rfl
      | true => rw [if_pos rfl, if_pos rfl]; rfl

theorem exists_pixel_of_total {A X : Type} {c : Scanned A X n} {i : Fin n} {key : CellIndex}
    (h : c.total i key ≠ 0) : ∃ p, c.samples p i key ≠ 0 := by
  by_contra hnone
  have hzero : ∀ p, c.samples p i key = 0 := fun p => not_not.mp fun hne => hnone ⟨p, hne⟩
  refine h ?_
  rw [Scanned.total]
  split
  next => rfl
  next =>
    generalize c.pixels = l
    induction l with
    | nil => rfl
    | cons p l ih =>
        rw [List.map_cons, List.sum_cons, Pi.add_apply, Pi.add_apply, hzero p, zero_add]
        exact ih

def byteSetup {A : Type} (empty : A) : Setup A (Fin 181) Unit 1 where
  h3 := baseGrid
  kernel := ⟨empty, fun _ => true, 512⟩
  resolutions := fun _ => 1
  strictTransforms := true
  mapBudget := 65536
  accumulatorLimit := 65536
  outputByteLimit := 65536
  workerTasks := 2
  workerPixels := 3
  batchSize := 1
  batchPixels := 1
  norths := [⟨130, north_lt⟩]
  chunkPixels := [8]
  ready := fun _ => 1
  isInterior := fun _ _ => (true, ())
  sizeOfChild := 488
  sizeOfPartial := 512

/-- None of the four columns has a sample on the antimeridian. -/
theorem seamSeen_byteChunk : SeamSeen (byteView.context (wholeJob byteChunk)) := by
  refine seamSeen_of_off fun bbox p hbbox hnew col _ hcol sp hsp => ?_
  obtain rfl := Option.some.inj hbbox
  have hp : (RowPruner.new (some ⟨10, 35, 13, 45⟩) (⟨10, 1, 0, 40, 0, -1⟩ : GeoTransform ℚ)
      .wgs84Identity centerPattern).map (fun p => (p.lon0, p.lonStep)) = some (10, 1) := by
    decide +kernel
  obtain ⟨hlon0, hstep⟩ := Prod.ext_iff.mp (Option.some.inj
    ((congrArg (Option.map fun p => (p.lon0, p.lonStep)) hnew).symm.trans hp))
  obtain rfl := List.mem_singleton.mp hsp
  have hoff : ∀ col : Fin 4, wrapLon ((10 : ℚ) + ((col : Nat) + 1 / 2) * 1) ≠ -180 := by
    decide +kernel
  dsimp only at hlon0 hstep ⊢
  rw [hlon0, hstep]
  exact hoff ⟨col, Nat.lt_of_lt_of_eq hcol (Nat.zero_add 4)⟩

theorem scannable_byteChunk {S A : Type}
    (kernel : Option (Pixel ℚ (.int .u8)) → WindowKernel ℚ (Pixel ℚ (.int .u8)) S A 1)
    (empty : A) : Scannable byteView kernel (byteSetup empty) [.ok byteChunk] where
  norths := rfl
  delivered := by
    intro item hitem
    cases List.mem_singleton.mp hitem
    exact ⟨by decide, nofun, seamSeen_byteChunk⟩
  bounded := by
    intro k item hk i key hne
    rcases k with _ | k
    · cases hk
      obtain ⟨p, hp⟩ := exists_pixel_of_total hne
      obtain ⟨q, -, rfl⟩ := cell_of_added hp
      have hsouth : baseGrid.southLat 0x8129bffffffffff ≤ ⟨130, north_lt⟩ ∧
          baseGrid.southLat 0x81297ffffffffff ≤ ⟨130, north_lt⟩ := by decide +kernel
      show baseGrid.southLat (if q.1.1 < 12 then 0x8129bffffffffff else 0x81297ffffffffff) ≤ _
      split
      · exact hsouth.1
      · exact hsouth.2
    · cases hk
  tasks := Nat.two_pos
  pixels := Nat.succ_pos 2

/-- The rows are cut into windows of three pixels and of one, and the records fetched one at a
time. -/
theorem streamed_moments_two_cells :
    let kernel := continuousKernel (fun _ => (0 : ℚ)) ⟨1, none, false⟩
    let cfg : Setup (H3Accumulator ℚ (Extended ℚ)) (Fin 181) Unit 1 := byteSetup .empty
    let items := byteView.items kernel [.ok byteChunk]
    let session := (Session.fresh cfg items none none (fun _ _ => 1024) fun _ => 1024).run cfg
      [⟨.drainCompletedInto, 1, 9⟩, ⟨.drainCompletedInto, 8, 9⟩]
    session.stream.isFinished = true ∧
      session.records.map (fun r => (r.accumulator.count, r.accumulator.sum)) =
        [(1, 7), (3, 258)] ∧
      ∃ cells, Supplies (Observed MomentsOf) cfg (fun _ => true) (received items items.length)
        session cells :=
  ⟨by decide +kernel, by decide +kernel,
    streamed_moments (fun _ => 0) ⟨1, none, false⟩ (scannable_byteChunk _ _)
      ⟨fun _ _ => rfl, fun h => by cases h⟩ none _ _ _⟩

theorem streamed_classes_two_cells :
    let kernel := categoricalKernel (F := ℚ) 1 none
    let cfg : Setup (CategoricalAccumulator ℚ) (Fin 181) Unit 1 := byteSetup .new
    let items := byteView.items kernel [.ok byteChunk]
    let session := (Session.fresh cfg items none none (fun _ _ => 1024) fun _ => 1024).run cfg
      [⟨.drainCompletedInto, 1, 9⟩, ⟨.drainCompletedInto, 8, 9⟩]
    session.stream.isFinished = true ∧
      session.records.map (·.accumulator.classes) = [[(7, 1)], [(255, 1), (1, 1), (2, 1)]] ∧
      ∃ cells, Supplies (Observed Weighs) cfg (fun _ => true) (received items items.length)
        session cells :=
  ⟨by decide +kernel, by decide +kernel,
    streamed_classes 1 none (scannable_byteChunk _ _) ⟨fun _ _ => rfl, fun h => by cases h⟩ none _
      _ _⟩

end RasterH3.Agg
