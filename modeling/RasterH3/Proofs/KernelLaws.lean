import RasterH3.Proofs.WalkedScan

/-!
# What the two kernels make of a window

The continuous and the categorical kernel walk with engines that accumulate, so that of both
it can be said what a window leaves in the maps, whichever way it is walked
(`windows_accounted`). A state says what it said before and what the visited pixels add to
its cell, and the samples whose coordinates could not be transformed are counted. The walk,
the runs and the weights belong to the module on runs, the states to the one on engines; a
kernel adds the rule for a chunk that is all nodata, which may be skipped because none of
its pixels is valid (`invalid_of_allNodata`).

In particular a span that is added at once leaves what its pixels leave one by one
(`spans_equal_pixels`): the kernel of the pixel type, the affine image of its result, runs
of one class and slices of one value are not seen in the states. For the continuous engine
this is equality of the moments, for the categorical one equality of the weight of every
class, since the classes may come in another order. All arithmetic is exact here. In
floating point the lanes add in another order than the pixels do.

The window of the witness is small but has everything a window can have: a box, an owner,
nodata, two cells, and a state from before.
-/

namespace RasterH3.Agg

open Raster Keyed

variable {F : Type} [Field F] [LinearOrder F] [IsStrictOrderedRing F] [FloorRing F] {n : Nat}
  {t : PixelType}

/-! ## The two kernels -/

omit [IsStrictOrderedRing F] [FloorRing F] in
/-- No pixel of a slice that is all nodata is valid. -/
theorem invalid_of_allNodata {slice : List (Pixel F t)} {nodata : Option (Pixel F t)}
    (h : isSliceAllNodata slice nodata = true) : ∀ v ∈ slice, isValidPixel v nodata = false := by
  rcases eq_or_ne slice [] with rfl | hne
  · exact fun v hv => absurd hv List.not_mem_nil
  · cases t with
    | f32 => exact (isSliceAllNodataFloat_iff hne nodata).mp h
    | f64 => exact (isSliceAllNodataFloat_iff hne nodata).mp h
    | int t => exact (isSliceAllNodataInteger_iff hne nodata).mp h

omit [FloorRing F] in
theorem continuousKernel_lawful [Sample F] [ExactSample F] (special : ExactFloat F → F)
    [DecidableEq (Pixel F t)] (options : ContinuousOptions) (nodata : Option (Pixel F t)) :
    (continuousKernel special options nodata : WindowKernel F (Pixel F t) F _ n).Lawful
      MomentsOf where
  engine _ := ContinuousEngine.lawful _
  nodata := by
    intro ctx slice hnodata v hv
    show ContinuousEngine.getSample special _ v = none
    rw [ContinuousEngine.getSample, invalid_of_allNodata hnodata v hv]
    rfl
  anywhere _ _ _ := ⟨rfl, rfl, rfl⟩

theorem categoricalKernel_lawful [DecidableEq (Pixel F t)] (band : Nat)
    (remapper : Option CategoryRemapper) (nodata : Option (Pixel F t)) :
    (categoricalKernel band remapper nodata : WindowKernel F (Pixel F t) Int64 _ n).Lawful
      ClassesOf where
  engine _ := CategoricalEngine.lawful _
  nodata := by
    intro ctx slice hnodata v hv
    show CategoricalEngine.resolveCategory _ v = none
    rw [CategoricalEngine.resolveCategory, invalid_of_allNodata hnodata v hv]
    rfl
  anywhere _ _ _ := ⟨rfl, rfl, rfl⟩

/-! ## Windows -/

/-- A window leaves in the maps what its visited pixels add, and counts the samples that
failed. -/
def Accounts {T S A : Type} (kernel : WindowKernel F T S A n) (R : Multiset (S × F) → A → Prop)
    (ctx : WalkContext F n) (slice : List T) : Prop :=
  ∀ (maps : Fin n → CellMap A) (m : Fin n → Contents (S × F)), (∀ i, (keys (maps i)).Nodup) →
    (∀ i, Keyed.Holds (Observed R) (maps i) (m i)) →
      let result := processBorrowedInto kernel ctx slice maps
      let spp := max ctx.samplesPerPixel 1
      let pixels := visitedPixels ctx spp slice (rowStride ctx spp slice)
        (List.range ctx.chunk.height)
      let added := walkedSamples ctx spp (kernel.sample ctx)
        (kernel.engine ctx).combineSampleWeights pixels
      (∀ i, (keys (result.1 i)).Nodup ∧
        Keyed.Holds (Observed R) (result.1 i) ((m + added) i)) ∧
        result.2 = walkedFailures ctx spp (kernel.sample ctx) pixels

/-- Whatever box, owner, stride, sampling and projection a window is walked with, and whatever
the maps have already. -/
theorem windows_accounted [Sample F] [ExactSample F] (special : ExactFloat F → F)
    [DecidableEq (Pixel F t)] (options : ContinuousOptions) (band : Nat)
    (remapper : Option CategoryRemapper) (nodata : Option (Pixel F t)) (ctx : WalkContext F n)
    (slice : List (Pixel F t)) :
    Accounts (continuousKernel special options nodata) MomentsOf ctx slice ∧
      Accounts (categoricalKernel band remapper nodata) ClassesOf ctx slice := by
  constructor
  · intro maps m hnodup hmaps
    exact processBorrowedInto_holds (continuousKernel_lawful special options nodata) ctx slice
      hnodup hmaps
  · intro maps m hnodup hmaps
    exact processBorrowedInto_holds (categoricalKernel_lawful band remapper nodata) ctx slice
      hnodup hmaps

def centerPattern : SamplingPattern ℚ where
  points := [⟨1 / 2, 1 / 2, 1⟩]
  nonempty := List.cons_ne_nil _ _
  offsets := by decide +kernel
  weights := by decide +kernel

theorem oneSample_lt : 1 < 2 ^ 16 := by decide

instance : DecidableEq (Pixel ℚ (.int .u8)) := inferInstanceAs (DecidableEq (IntType.Native .u8))

def byteOf (v : Fin 256) : Pixel ℚ (.int .u8) :=
  ⟨v, Int.natCast_nonneg _, Int.ofNat_le.mpr (Nat.le_of_lt_succ v.isLt)⟩

/-- A tile of bytes at the northern end of two cells. The box ends before the easternmost pixels,
and the tile does not own what lies south of 39 degrees in the eastern cell. -/
def byteView : ScanView ℚ (Pixel ℚ (.int .u8)) 1 where
  tiles _ :=
    { samplesPerPixel := 1
      chunkInfo := none
      spp_lt := oneSample_lt
      crs := .wgs84Identity
      gt := ⟨10, 1, 0, 40, 0, -1⟩
      nodata := some (byteOf 0)
      bandScaling := []
      alphaSample := none }
  index :=
    { accepts := fun _ _ => true
      cells := fun lon _ _ => if lon < 12 then 0x8129bffffffffff else 0x81297ffffffffff }
  sampling := centerPattern
  bbox := some ⟨10, 35, 13, 45⟩
  nodata := none
  applyScaleOffset := false
  owns _ lon lat := decide (lon < 12 ∨ 39 < lat)

def byteChunk : DecodedChunk (Pixel ℚ (.int .u8)) where
  tileIdx := 0
  chunkIdx := 0
  chunk := ⟨0, 0, 4, 2⟩
  data := [0, 255, 7, 9, 1, 2, 3, 4].map byteOf
  overlap := true
  cols_lt := by decide
  rows_lt := by decide
  data_lt := by decide

/-- The western cell has a state of the value 5 before. A pixel without data, two pixels outside
the box and one that another tile owns add nothing. -/
theorem windows_accounted_byteChunk :
    let kernel := continuousKernel (fun _ => (0 : ℚ)) ⟨1, none, false⟩ (some (byteOf 0))
    let ctx := byteView.context (wholeJob byteChunk)
    let engine := kernel.engine ctx
    let result := processBorrowedInto kernel ctx byteChunk.data fun _ =>
      [(0x8129bffffffffff, engine.updateSample .empty 5 1)]
    let pixels := visitedPixels ctx 1 byteChunk.data (rowStride ctx 1 byteChunk.data)
      (List.range 2)
    (result.1 0).map (fun p => (p.1, p.2.count, p.2.sum)) =
        [(0x8129bffffffffff, 4, 263), (0x81297ffffffffff, 1, 7)] ∧
      (keys (result.1 0)).Nodup ∧
      Keyed.Holds (Observed MomentsOf) (result.1 0) (Pi.single 0x8129bffffffffff {(5, 1)} +
        walkedSamples ctx 1 (kernel.sample ctx) engine.combineSampleWeights pixels 0) ∧
      result.2 = 0 := by
  intro kernel ctx engine result pixels
  have hstart : Keyed.Holds (Observed MomentsOf)
      [((0x8129bffffffffff : CellIndex), engine.updateSample .empty 5 1)]
      (Pi.single 0x8129bffffffffff {(5, 1)}) := by
    refine ⟨fun k a hmem => ?_, fun k hk => Pi.single_eq_of_ne (fun h => hk ?_) _⟩
    · cases List.mem_singleton.mp hmem
      rw [Pi.single_eq_same]
      exact ⟨Multiset.singleton_ne_zero _, (zero_add ({(5, 1)} : Multiset (ℚ × ℚ))) ▸
        ((continuousKernel_lawful (n := 1) _ _ _).engine ctx).updateSample 5 momentsOf_empty
          one_pos⟩
    · exact List.mem_singleton.mpr h
  have h := (windows_accounted (fun _ => (0 : ℚ)) ⟨1, none, false⟩ 1 none (some (byteOf 0)) ctx
    byteChunk.data).1 (fun _ => [(0x8129bffffffffff, engine.updateSample .empty 5 1)])
    (fun _ => Pi.single 0x8129bffffffffff {(5, 1)}) (fun _ => List.nodup_singleton _)
    fun _ => hstart
  exact ⟨by decide +kernel, (h.1 0).1, (h.1 0).2, by decide +kernel⟩

/-! ## Spans -/

section Spans

variable {T S A : Type} (engine : ScanlineEngine F T S A)

/-- The readable pixels of a span, one by one. -/
def updatePixels (values : List T) (acc : A) : A :=
  values.foldl (fun acc v =>
    ((engine.getSample v).map fun s => engine.updateSample acc s 1).getD acc) acc

variable {engine}

omit [FloorRing F] in
theorem ScanlineEngine.Lawful.updatePixels {R : Multiset (S × F) → A → Prop}
    (h : engine.Lawful R) (values : List T) : ∀ {P : Multiset (S × F)} {acc : A}, R P acc →
      R (P + spanSamples engine values) (updatePixels engine values acc) := by
  induction values with
  | nil =>
      intro P acc hacc
      exact (add_zero P).symm ▸ hacc
  | cons v values ih =>
      intro P acc hacc
      rw [spanSamples_cons, ← add_assoc]
      cases hsample : engine.getSample v with
      | none =>
          have hskip : Agg.updatePixels engine (v :: values) acc =
              Agg.updatePixels engine values acc := by
            rw [Agg.updatePixels, List.foldl_cons, hsample]
            rfl
          rw [hskip, Option.map_none, Option.getD_none, add_zero]
          exact ih hacc
      | some s =>
          have hstep : Agg.updatePixels engine (v :: values) acc =
              Agg.updatePixels engine values (engine.updateSample acc s 1) := by
            rw [Agg.updatePixels, List.foldl_cons, hsample]
            rfl
          rw [hstep, Option.map_some, Option.getD_some]
          exact ih (h.updateSample s hacc one_pos)

end Spans

/-- States of one cell that say the same of its samples. -/
structure SameMoments (acc other : H3Accumulator F (Extended F)) : Prop where
  count : acc.count = other.count
  sum : acc.sum = other.sum
  min : acc.min = other.min
  max : acc.max = other.max
  sumW2 : acc.sumW2 = other.sumW2
  m2 : acc.m2 = other.m2

omit [FloorRing F] [IsStrictOrderedRing F] in
theorem SameMoments.of_moments {P : Multiset (F × F)} {acc other : H3Accumulator F (Extended F)}
    (h : Moments P acc) (h' : Moments P other) : SameMoments acc other :=
  ⟨h.count.trans h'.count.symm, h.sum.trans h'.sum.symm, h.min.trans h'.min.symm,
    h.max.trans h'.max.symm, h.sumW2.trans h'.sumW2.symm, h.m2.trans h'.m2.symm⟩

/-- A span is added to the states of all resolutions as if its pixels were added one by one. -/
theorem spans_equal_pixels [Sample F] [ExactSample F] (special : ExactFloat F → F)
    (e : ContinuousEngine F t) (c : CategoricalEngine F t) (slice : List (Pixel F t)) :
    (∀ (P : Fin n → Multiset (F × F)) (accs : Fin n → H3Accumulator F (Extended F)),
      (∀ i, MomentsOf (P i) (accs i)) → ∀ i,
        SameMoments ((e.engine special).accumulateSpan (accs i) slice)
          (updatePixels (e.engine special) slice (accs i)) ∧
        SameMoments ((e.engine special).accumulateSpanMulti accs slice i)
          (updatePixels (e.engine special) slice (accs i))) ∧
    ∀ (P : Fin n → Multiset (Int64 × F)) (accs : Fin n → CategoricalAccumulator F),
      (∀ i, ClassesOf (P i) (accs i)) → ∀ i k,
        CategoricalAccumulator.content (c.engine.accumulateSpan (accs i) slice) k =
            CategoricalAccumulator.content (updatePixels c.engine slice (accs i)) k ∧
          CategoricalAccumulator.content (c.engine.accumulateSpanMulti accs slice i) k =
            CategoricalAccumulator.content (updatePixels c.engine slice (accs i)) k := by
  constructor
  · intro P accs haccs i
    have hlawful : (e.engine special).Lawful MomentsOf := e.lawful
    have hsingle := hlawful.updatePixels slice (haccs i)
    exact ⟨.of_moments (hlawful.accumulateSpan slice (haccs i)).2 hsingle.2,
      .of_moments (hlawful.accumulateSpanMulti slice haccs i).2 hsingle.2⟩
  · intro P accs haccs i k
    have hlawful := CategoricalEngine.lawful c
    have hsingle := hlawful.updatePixels slice (haccs i)
    exact ⟨((hlawful.accumulateSpan slice (haccs i)).weights k).trans (hsingle.weights k).symm,
      ((hlawful.accumulateSpanMulti slice haccs i).weights k).trans (hsingle.weights k).symm⟩

/-- Calibrated bytes on top of a sample of 5, and the classes 0 to 255 of the same bytes on top of
a pixel of class 7; both paths, the one for a state and the one for all resolutions. -/
theorem spans_equal_pixels_bytes :
    let e : ContinuousEngine ℚ (.int .u8) := ⟨some (byteOf 0), false, ⟨2, 3⟩⟩
    let c : CategoricalEngine ℚ (.int .u8) := ⟨some (byteOf 0), none⟩
    let engine := e.engine fun _ => (0 : ℚ)
    let acc := engine.updateSample .empty 5 1
    let classes := c.engine.updateSample .new 7 1
    (engine.accumulateSpan acc byteChunk.data).sum = 5 + (2 * 281 + 3 * 7) ∧
      SameMoments (engine.accumulateSpan acc byteChunk.data)
        (updatePixels engine byteChunk.data acc) ∧
      SameMoments (engine.accumulateSpanMulti (fun _ : Fin 2 => acc) byteChunk.data 1)
        (updatePixels engine byteChunk.data acc) ∧
      ∀ k, CategoricalAccumulator.content (c.engine.accumulateSpan classes byteChunk.data) k =
          CategoricalAccumulator.content (updatePixels c.engine byteChunk.data classes) k ∧
        CategoricalAccumulator.content
            (c.engine.accumulateSpanMulti (fun _ : Fin 2 => classes) byteChunk.data 1) k =
          CategoricalAccumulator.content (updatePixels c.engine byteChunk.data classes) k := by
  intro e c engine acc classes
  have hacc : MomentsOf {(5, 1)} acc := (zero_add ({(5, 1)} : Multiset (ℚ × ℚ))) ▸
    (ContinuousEngine.lawful e).updateSample 5 momentsOf_empty one_pos
  have hclasses : ClassesOf {(7, 1)} classes := (zero_add ({(7, 1)} : Multiset (Int64 × ℚ))) ▸
    (CategoricalEngine.lawful c).updateSample 7 classesOf_new one_pos
  have h := spans_equal_pixels (n := 2) (fun _ => (0 : ℚ)) e c byteChunk.data
  have hmoments := h.1 (fun _ => {(5, 1)}) (fun _ => acc) (fun _ => hacc) 1
  have hcontents := h.2 (fun _ => {(7, 1)}) (fun _ => classes) (fun _ => hclasses) 1
  exact ⟨by decide +kernel, hmoments.1, hmoments.2, hcontents⟩

end RasterH3.Agg
