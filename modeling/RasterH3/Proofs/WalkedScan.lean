import RasterH3.Agg.WindowKernels
import RasterH3.Lib.Rectangles
import RasterH3.Proofs.EngineLaws
import RasterH3.Proofs.RowPruning
import RasterH3.Proofs.StreamRuns

/-!
# From the pixels of a raster to the records of a stream

A streamed scan was said in terms of what the worker of a window hands back. Here the worker
is the walker: what the windows of a chunk have together is what its pixels add one by one,
however the chunk is cut (`ScanView.aggregates`). So the records of a finished stream have
the moments of all samples of their cells (`streamed_moments`), or the weights of their
classes (`streamed_classes`), each pixel with its own place, calibration, formula and
validity, and no cell with a sample is missing.

A chunk comes with all of its pixels, and no sample on the antimeridian falls out of the
column window of its row (`ScanView.Delivered`). That is all that is asked, and a scan without
a query box is not asked for the second: everything else that pruning leaves out is outside of
the box.
-/

namespace RasterH3.Agg

open Raster Keyed

variable {F : Type} [Field F] [LinearOrder F] [FloorRing F] {n : Nat} {T S A : Type}

/-! ## Kernels -/

namespace WindowKernel

/-- What a pixel is read as. -/
def sample (kernel : WindowKernel F T S A n) (ctx : WalkContext F n) (px : List T) : Option S :=
  if kernel.isDirect ctx then px.head?.bind (kernel.engine ctx).getSample else kernel.read ctx px

/-- What the walk relies on. Where a window lies does not matter to its pixels. -/
structure Lawful (kernel : WindowKernel F T S A n) (R : Multiset (S × F) → A → Prop) : Prop where
  engine : ∀ ctx, (kernel.engine ctx).Lawful R
  nodata : ∀ {ctx slice}, kernel.allNodata slice = true → ∀ v ∈ slice,
    (kernel.engine ctx).getSample v = none
  anywhere : ∀ (ctx : WalkContext F n) chunk stride,
    kernel.isDirect { ctx with chunk, stride } = kernel.isDirect ctx ∧
      kernel.engine { ctx with chunk, stride } = kernel.engine ctx ∧
      kernel.read { ctx with chunk, stride } = kernel.read ctx

end WindowKernel

variable {kernel : WindowKernel F T S A n} {R : Multiset (S × F) → A → Prop}
  {ctx : WalkContext F n}

omit [FloorRing F] in
theorem WindowKernel.Lawful.elsewhere (h : kernel.Lawful R) (ctx : WalkContext F n)
    (chunk : RasterChunk) (stride : Nat) :
    kernel.sample { ctx with chunk, stride } = kernel.sample ctx ∧
      kernel.engine { ctx with chunk, stride } = kernel.engine ctx := by
  obtain ⟨hdirect, hengine, hread⟩ := h.anywhere ctx chunk stride
  refine ⟨funext fun px => ?_, hengine⟩
  rw [WindowKernel.sample, WindowKernel.sample, hdirect, hengine, hread]

omit [FloorRing F] in
/-- In a slice that is all nodata there is no pixel to read. -/
theorem WindowKernel.Lawful.unread (h : kernel.Lawful R) (hdirect : kernel.isDirect ctx = true)
    {slice row : List T} (hnodata : kernel.allNodata slice = true) (hrow : ∀ v ∈ row, v ∈ slice)
    (c : Nat) : kernel.sample ctx (pixelOf 1 row c) = none := by
  rw [WindowKernel.sample, if_pos hdirect]
  rcases Nat.lt_or_ge c row.length with hc | hc
  · obtain ⟨v, hget, hpx⟩ := pixelOf_one hc
    rw [hpx]
    exact h.nodata hnodata v (hrow v (List.mem_of_getElem? hget))
  · have hnil : pixelOf 1 row c = [] := by
      rw [pixelOf, Nat.mul_one, List.drop_eq_nil_of_le hc]
      rfl
    rw [hnil]
    rfl

/-- The values of a visited pixel are values of the slice. -/
theorem mem_of_visited {spp stride : Nat} {slice : List T} {rows : List Nat}
    {p : Nat × List T × Nat} (hp : p ∈ visitedPixels ctx spp slice stride rows) :
    ∀ v ∈ p.2.1, v ∈ slice := by
  rw [visitedPixels] at hp
  obtain ⟨r, -, hp⟩ := List.mem_flatMap.mp hp
  split at hp
  next => exact absurd hp List.not_mem_nil
  next =>
    obtain ⟨c, -, rfl⟩ := List.mem_map.mp hp
    exact fun v hv => List.mem_of_mem_drop (List.mem_of_mem_take hv)

theorem walked_unread (ctx : WalkContext F n) {spp : Nat} {read : List T → Option S}
    {pixels : List (Nat × List T × Nat)}
    (h : ∀ p ∈ pixels, read (pixelOf spp p.2.1 p.2.2) = none) (combine : Bool) :
    walkedSamples ctx spp read combine pixels = 0 ∧ walkedFailures ctx spp read pixels = 0 := by
  constructor
  · refine List.sum_eq_zero fun x hx => ?_
    obtain ⟨p, hp, rfl⟩ := List.mem_map.mp hx
    rw [pixelSamples, h p hp]
  · refine List.sum_eq_zero fun x hx => ?_
    obtain ⟨p, hp, rfl⟩ := List.mem_map.mp hx
    rw [pixelFailures, h p hp]
    rfl

/-- The maps after a window, whichever way it is walked. -/
theorem processBorrowedInto_holds [IsStrictOrderedRing F] (h : kernel.Lawful R)
    (ctx : WalkContext F n) (slice : List T) {maps : Fin n → CellMap A}
    {m : Fin n → Contents (S × F)} (hnodup : ∀ i, (keys (maps i)).Nodup)
    (hmaps : ∀ i, Keyed.Holds (Observed R) (maps i) (m i)) :
    let result := processBorrowedInto kernel ctx slice maps
    let spp := max ctx.samplesPerPixel 1
    let pixels := visitedPixels ctx spp slice (rowStride ctx spp slice)
      (List.range ctx.chunk.height)
    (∀ i, (keys (result.1 i)).Nodup ∧ Keyed.Holds (Observed R) (result.1 i) ((m + walkedSamples ctx
      spp (kernel.sample ctx) (kernel.engine ctx).combineSampleWeights pixels) i)) ∧
      result.2 = walkedFailures ctx spp (kernel.sample ctx) pixels := by
  intro result spp pixels
  have heng := h.engine ctx
  by_cases hdirect : kernel.isDirect ctx = true
  · have hspp : spp = 1 := max_eq_right (kernel.direct_le ctx hdirect)
    by_cases hnodata : kernel.allNodata slice = true
    · have hresult : result = (maps, 0) := by
        show processBorrowedInto .. = _
        rw [processBorrowedInto, hdirect, hnodata]
        rfl
      have hunread : ∀ p ∈ pixels, kernel.sample ctx (pixelOf spp p.2.1 p.2.2) = none := by
        intro p hp
        rw [hspp]
        exact h.unread hdirect hnodata (mem_of_visited hp) p.2.2
      obtain ⟨hsamples, hfailures⟩ := walked_unread ctx hunread
        (kernel.engine ctx).combineSampleWeights
      rw [hresult, hsamples, hfailures, add_zero]
      exact ⟨fun i => ⟨hnodup i, hmaps i⟩, rfl⟩
    · have hresult : result = walkDirect ctx (kernel.engine ctx) slice kernel.allNodata maps := by
        show processBorrowedInto .. = _
        rw [processBorrowedInto, Bool.eq_false_iff.mpr hnodata, Bool.and_false,
          if_neg Bool.false_ne_true, processSliceIntoMaps, if_pos hdirect]
      have hsample : kernel.sample ctx = fun px => px.head?.bind (kernel.engine ctx).getSample := by
        funext px
        rw [WindowKernel.sample, if_pos hdirect]
      have hrows : ∀ row, kernel.allNodata row = true → ∀ c, (c + 1) * max 1 1 ≤ row.length →
          kernel.sample ctx (pixelOf (max 1 1) row c) = none :=
        fun row hrow c _ => h.unread hdirect hrow (fun _ hv => hv) c
      have hbatch : ctx.sampling.isSinglePoint = true →
          Batches ctx (max 1 1) (kernel.sample ctx) (kernel.engine ctx) :=
        fun hpoint => ⟨rfl, fun _ => by rw [hsample]; rfl, hpoint⟩
      rw [hresult, walkDirect, ← hsample]
      simp only [pixels, hspp]
      exact walk_holds heng hbatch hrows slice hnodup hmaps
  · have hsample : kernel.sample ctx = kernel.read ctx := by
      funext px
      rw [WindowKernel.sample, if_neg hdirect]
    have hresult : result =
        walkInterleaved ctx (kernel.engine ctx) slice (kernel.read ctx) maps := by
      show processBorrowedInto .. = _
      rw [processBorrowedInto, Bool.eq_false_iff.mpr hdirect, Bool.false_and,
        if_neg Bool.false_ne_true, processSliceIntoMaps, if_neg hdirect]
    rw [hresult, hsample]
    exact walk_holds heng (fun hfalse => Bool.noConfusion hfalse)
      (fun _ hrow => Bool.noConfusion hrow) slice hnodup hmaps

/-! ## One window -/

/-- What a pixel adds, given its values and its place in the raster. -/
def addedBy (ctx : WalkContext F n) (read : List T → Option S) (combine : Bool) (col rowIdx : Nat)
    (px : List T) : Fin n → Contents (S × F) :=
  match read px with
  | none => 0
  | some s => fun i k => (observed ctx combine (positionsOf ctx col rowIdx) i k).map fun w => (s, w)

theorem pixelSamples_eq (ctx : WalkContext F n) (spp : Nat) (read : List T → Option S)
    (combine : Bool) (rowIdx : Nat) (row : List T) (c : Nat) :
    pixelSamples ctx spp read combine rowIdx row c =
      addedBy ctx read combine (ctx.chunk.colOffset + c) rowIdx (pixelOf spp row c) := rfl

theorem addedBy_of_nil {read : List T → Option S} {combine : Bool} {col rowIdx : Nat} {px : List T}
    (h : positionsOf ctx col rowIdx = []) : addedBy ctx read combine col rowIdx px = 0 := by
  rw [addedBy]
  split
  next => rfl
  next =>
    funext i k
    rw [h, observed, List.map_nil, statesFor_nil]
    cases combine with
    | false => rfl
    | true => rw [if_pos rfl, if_pos rfl]; rfl

section Window

variable {spp : Nat} {read : List T → Option S} {combine : Bool}

/-- The visited pixels of a row add what all of its pixels add. -/
theorem sum_visited (hcons : Conservative ctx) {slice : List T} {stride r : Nat}
    (hstart : r * stride < slice.length) :
    walkedSamples ctx spp read combine (visitedPixels ctx spp slice stride [r]) =
      ((List.range (rowPixels ctx spp slice stride r)).map (pixelSamples ctx spp read combine
        (ctx.chunk.rowOffset + r) (rowValues ctx spp slice stride r))).sum := by
  rw [visitedPixels_row ctx spp hstart]
  have hwidth : rowPixels ctx spp slice stride r ≤ ctx.chunk.width := min_le_right _ _
  generalize rowPixels ctx spp slice stride r = rowPx at hwidth
  generalize rowValues ctx spp slice stride r = row
  generalize ctx.chunk.rowOffset + r = rowIdx
  have hpruned : ∀ c, c < rowPx → (∀ cols, visitedColumns ctx.bbox ctx.gt ctx.crs ctx.sampling
      ctx.chunk.colOffset rowIdx rowPx = some cols → ¬ (cols.1 ≤ c ∧ c < cols.2)) →
      pixelSamples ctx spp read combine rowIdx row c = 0 := by
    intro c hc hout
    rw [pixelSamples_eq]
    refine addedBy_of_nil ?_
    by_contra hne
    obtain ⟨cols, hcols, hin⟩ := hcons rowIdx rowPx c hwidth hc hne
    exact hout cols hcols hin
  cases hcols : visitedColumns ctx.bbox ctx.gt ctx.crs ctx.sampling ctx.chunk.colOffset rowIdx
      rowPx with
  | none =>
      symm
      refine List.sum_eq_zero fun x hx => ?_
      obtain ⟨c, hc, rfl⟩ := List.mem_map.mp hx
      exact hpruned c (List.mem_range.mp hc) fun cols heq => by cases hcols.symm.trans heq
  | some cols =>
      have hle := visitedColumns_le hcols
      dsimp only
      rw [walkedSamples, List.map_map]
      show ((List.range' cols.1 (cols.2 - cols.1)).map
        (pixelSamples ctx spp read combine rowIdx row)).sum = _
      rcases Nat.le_total cols.2 cols.1 with hempty | horder
      · rw [Nat.sub_eq_zero_of_le hempty]
        symm
        refine List.sum_eq_zero fun x hx => ?_
        obtain ⟨c, hc, rfl⟩ := List.mem_map.mp hx
        refine hpruned c (List.mem_range.mp hc) fun cols' heq hin => ?_
        obtain rfl := Option.some.inj (hcols.symm.trans heq)
        omega
      · have hfit : cols.1 + (cols.2 - cols.1) ≤ rowPx := by omega
        rw [← Rectangles.filter_range hfit]
        refine Rectangles.sum_filter fun c hc hout => hpruned c (List.mem_range.mp hc)
          fun cols' heq hin => ?_
        obtain rfl := Option.some.inj (hcols.symm.trans heq)
        have := of_decide_eq_false hout
        omega

theorem visitedPixels_cons (ctx : WalkContext F n) (spp : Nat) (slice : List T) (stride r : Nat)
    (rows : List Nat) : visitedPixels ctx spp slice stride (r :: rows) =
      visitedPixels ctx spp slice stride [r] ++ visitedPixels ctx spp slice stride rows := by
  rw [visitedPixels, visitedPixels, visitedPixels, ← List.flatMap_append, ← List.filter_append]
  rfl

/-- The slice of a window, with the row stride of its chunk. -/
structure IsWindow (ctx : WalkContext F n) (spp width : Nat) (slice : List T) : Prop where
  shape : ctx.chunk.height = 1 ∨ ctx.chunk.width = width
  stride : ctx.stride = width
  length : slice.length = ctx.chunk.width * ctx.chunk.height * spp
  spp_pos : 0 < spp
  width_pos : 0 < ctx.chunk.width

namespace IsWindow

variable {width : Nat} {slice : List T} {r : Nat}

omit [FloorRing F] in
theorem start (h : IsWindow ctx spp width slice) (hr : r < ctx.chunk.height) :
    r * rowStride ctx spp slice = r * (width * spp) := by
  rcases h.shape with hone | hwidth
  · obtain rfl : r = 0 := by omega
    rw [Nat.zero_mul, Nat.zero_mul]
  · rw [rowStride, h.stride, hwidth, ite_self]

omit [FloorRing F] in
theorem last (h : IsWindow ctx spp width slice) (hr : r < ctx.chunk.height) :
    r * (width * spp) + ctx.chunk.width * spp ≤ slice.length := by
  rw [h.length]
  rcases h.shape with hone | hwidth
  · obtain rfl : r = 0 := by omega
    rw [hone, Nat.zero_mul, Nat.zero_add, Nat.mul_one]
  · calc r * (width * spp) + ctx.chunk.width * spp = width * (r + 1) * spp := by
          rw [hwidth]
          ring
      _ ≤ ctx.chunk.width * ctx.chunk.height * spp := by
          rw [hwidth]
          exact Nat.mul_le_mul_right _ (Nat.mul_le_mul_left _ hr)

omit [FloorRing F] in
theorem rowPixels (h : IsWindow ctx spp width slice) (hr : r < ctx.chunk.height) :
    rowPixels ctx spp slice (rowStride ctx spp slice) r = ctx.chunk.width := by
  have hlast := h.last hr
  rw [Agg.rowPixels, h.start hr]
  refine min_eq_right ((Nat.le_div_iff_mul_le h.spp_pos).mpr ?_)
  omega

omit [FloorRing F] in
theorem pixel (h : IsWindow ctx spp width slice) (hr : r < ctx.chunk.height) {c : Nat}
    (hc : c < ctx.chunk.width) :
    pixelOf spp (rowValues ctx spp slice (rowStride ctx spp slice) r) c =
      (slice.drop (r * (width * spp) + c * spp)).take spp := by
  have hin : c * spp + spp ≤ ctx.chunk.width * spp := by
    rw [← Nat.succ_mul]
    exact Nat.mul_le_mul_right _ hc
  rw [pixelOf, rowValues, h.rowPixels hr, h.start hr, Rectangles.take_drop_take _ hin]

/-- The visited pixels of a window add what all of its pixels add. -/
theorem samples (h : IsWindow ctx spp width slice) (hcons : Conservative ctx) :
    walkedSamples ctx spp read combine (visitedPixels ctx spp slice (rowStride ctx spp slice)
        (List.range ctx.chunk.height)) =
      ((List.range ctx.chunk.height).map fun r => ((List.range ctx.chunk.width).map fun c =>
        addedBy ctx read combine (ctx.chunk.colOffset + c) (ctx.chunk.rowOffset + r)
          ((slice.drop (r * (width * spp) + c * spp)).take spp)).sum).sum := by
  have hrows : ∀ rows : List Nat, (∀ r ∈ rows, r < ctx.chunk.height) →
      walkedSamples ctx spp read combine
          (visitedPixels ctx spp slice (rowStride ctx spp slice) rows) =
        (rows.map fun r => ((List.range ctx.chunk.width).map fun c =>
          addedBy ctx read combine (ctx.chunk.colOffset + c) (ctx.chunk.rowOffset + r)
            ((slice.drop (r * (width * spp) + c * spp)).take spp)).sum).sum := by
    intro rows
    induction rows with
    | nil => exact fun _ => rfl
    | cons r rows ih =>
        intro hlt
        have hr := hlt r List.mem_cons_self
        have hstart : r * rowStride ctx spp slice < slice.length := by
          have hpos : 0 < ctx.chunk.width * spp := Nat.mul_pos h.width_pos h.spp_pos
          have hlast := h.last hr
          rw [h.start hr]
          omega
        rw [visitedPixels_cons, walkedSamples_append, List.map_cons, List.sum_cons,
          ih fun r' hr' => hlt r' (List.mem_cons_of_mem r hr'), sum_visited hcons hstart,
          h.rowPixels hr]
        refine congrArg (· + _) (congrArg List.sum (List.map_congr_left fun c hc => ?_))
        rw [pixelSamples_eq, h.pixel hr (List.mem_range.mp hc)]
  exact hrows _ fun r hr => List.mem_range.mp hr

end IsWindow

end Window

/-! ## The windows of a chunk -/

/-- The whole chunk as one job. -/
def wholeJob (item : DecodedChunk T) : WindowJob T :=
  ⟨item.tileIdx, item.chunk, item.data, item.chunk.width, item.overlap⟩

namespace ScanView

variable (v : ScanView F T n) (kernel : Option T → WindowKernel F T S A n)

/-- The kernel with the marker of a tile. -/
def kernelOf (tileIdx : Nat) : WindowKernel F T S A n :=
  kernel (v.nodata.or (v.tiles tileIdx).nodata)

def samplesPerPixel (item : DecodedChunk T) : Nat := max (v.tiles item.tileIdx).samplesPerPixel 1

/-- The values of the pixel in a row and a column of the chunk. -/
def pixelValues (item : DecodedChunk T) (p : Nat × Nat) : List T :=
  (item.data.drop ((p.1 * item.chunk.width + p.2) * v.samplesPerPixel item)).take
    (v.samplesPerPixel item)

/-- What a pixel of a chunk adds, and what workers make of the windows of the chunk. -/
def scanned (item : DecodedChunk T) : Scanned A (S × F) n where
  chunk :=
    { width := item.chunk.width
      height := item.chunk.height
      sparse := (v.tiles item.tileIdx).isSparseChunk item.chunkIdx
      process := fun w => (v.process kernel (windowJob (v.samplesPerPixel item) item w)).1
      failures := fun w => (v.process kernel (windowJob (v.samplesPerPixel item) item w)).2 }
  samples p :=
    let ctx := v.context (wholeJob item)
    addedBy ctx ((v.kernelOf kernel item.tileIdx).sample ctx)
      ((v.kernelOf kernel item.tileIdx).engine ctx).combineSampleWeights
      (item.chunk.colOffset + p.2) (item.chunk.rowOffset + p.1) (v.pixelValues item p)

/-- The reader has delivered every pixel, and the walk sees the antimeridian. -/
structure Delivered (item : DecodedChunk T) : Prop where
  complete : item.chunk.width * item.chunk.height * v.samplesPerPixel item ≤ item.data.length
  degrees : InDegrees (v.tiles item.tileIdx).crs
  seam : SeamSeen (v.context (wholeJob item))

variable {v kernel}

/-- A window of a chunk is a slice with the stride of the chunk. -/
theorem isWindow {item : DecodedChunk T} (h : v.Delivered item) {pixels row col : Nat}
    {w : Window} (hcut : Cut pixels item.chunk.width item.chunk.height row col w) :
    IsWindow (v.context (windowJob (v.samplesPerPixel item) item w)) (v.samplesPerPixel item)
      item.chunk.width (windowJob (v.samplesPerPixel item) item w).samples where
  shape := hcut.shape.imp_right And.left
  stride := rfl
  spp_pos := Nat.lt_of_lt_of_le Nat.one_pos (Nat.le_max_right ..)
  width_pos := hcut.width_pos
  length := by
    have hplace : row * item.chunk.width + col + w.width * w.height ≤
        item.chunk.width * item.chunk.height := by
      have hright := hcut.right
      have hbottom := hcut.bottom
      rcases hcut.shape with hone | hfull
      · have hrows := Nat.mul_le_mul_right item.chunk.width hbottom
        rw [hone, Nat.succ_mul] at hrows
        rw [hone, Nat.mul_one, Nat.mul_comm item.chunk.width item.chunk.height]
        omega
      · have hrows := Nat.mul_le_mul_right item.chunk.width hbottom
        rw [Nat.add_mul] at hrows
        rw [hfull.1, hfull.2, Nat.add_zero, Nat.mul_comm item.chunk.width,
          Nat.mul_comm item.chunk.width]
        exact hrows
    have hin := (Nat.mul_le_mul_right (v.samplesPerPixel item) hplace).trans h.complete
    rw [Nat.add_mul] at hin
    show (samplesOf item.chunk.width (v.samplesPerPixel item) item.data w).length =
      w.width * w.height * v.samplesPerPixel item
    rw [hcut.samplesOf_eq, List.length_take, List.length_drop]
    omega

theorem pixelValues_window {item : DecodedChunk T} (h : v.Delivered item) {pixels row col : Nat}
    {w : Window} (hcut : Cut pixels item.chunk.width item.chunk.height row col w) {r c : Nat}
    (hr : r < w.height) (hc : c < w.width) :
    ((windowJob (v.samplesPerPixel item) item w).samples.drop
        (r * (item.chunk.width * v.samplesPerPixel item) + c * v.samplesPerPixel item)).take
          (v.samplesPerPixel item) = v.pixelValues item (w.row + r, w.col + c) := by
  have hwindow := v.isWindow h hcut
  have hlast := hwindow.last hr
  have hlen := hwindow.length
  have hpx : c * v.samplesPerPixel item + v.samplesPerPixel item ≤
      w.width * v.samplesPerPixel item := by
    rw [← Nat.succ_mul]
    exact Nat.mul_le_mul_right _ hc
  have hin : r * (item.chunk.width * v.samplesPerPixel item) + c * v.samplesPerPixel item +
      v.samplesPerPixel item ≤ w.width * w.height * v.samplesPerPixel item := by
    rw [Nat.add_assoc]
    exact (Nat.add_le_add_left hpx _).trans (hlast.trans hlen.le)
  show ((samplesOf item.chunk.width (v.samplesPerPixel item) item.data w).drop _).take _ = _
  rw [hcut.samplesOf_eq, Rectangles.take_drop_take _ hin, pixelValues, hcut.row_eq, hcut.col_eq]
  congr 2
  ring

theorem part_scanned (item : DecodedChunk T) {pixels row col : Nat} {w : Window}
    (hcut : Cut pixels item.chunk.width item.chunk.height row col w) :
    (v.scanned kernel item).part w = ((List.range w.height).map fun r =>
      ((List.range w.width).map fun c =>
        (v.scanned kernel item).samples (w.row + r, w.col + c)).sum).sum := by
  rw [← Rectangles.sum_rectangle (hcut.row_eq ▸ hcut.bottom) (hcut.col_eq ▸ hcut.right),
    Scanned.part]
  refine congrArg (fun l => (l.map (v.scanned kernel item).samples).sum)
    (List.filter_congr fun p _ => ?_)
  rw [← Bool.decide_and]
  rfl

/-- However a chunk is cut, what the workers have is what its pixels add. -/
theorem aggregates [IsStrictOrderedRing F] (hkernel : ∀ nodata, (kernel nodata).Lawful R)
    {item : DecodedChunk T} (h : v.Delivered item) {workerPixels : Nat}
    (hpixels : 0 < workerPixels) :
    (v.scanned kernel item).Aggregates (Observed R) workerPixels := by
  intro w hw i
  obtain ⟨row, col, hcut⟩ : ∃ row col,
      Cut workerPixels item.chunk.width item.chunk.height row col w := by
    rw [Chunk.windows] at hw
    split at hw
    next => exact absurd hw List.not_mem_nil
    next => exact cutWindows_cut hpixels aligned_start (Nat.sub_le ..) hw
  obtain ⟨job, hjob⟩ : ∃ job, job = windowJob (v.samplesPerPixel item) item w := ⟨_, rfl⟩
  have hwindow : IsWindow (v.context job) (v.samplesPerPixel item) item.chunk.width job.samples :=
    hjob ▸ v.isWindow h hcut
  have hlawful : (v.kernelOf kernel item.tileIdx).Lawful R := hkernel _
  have hempty : ∀ i : Fin n, (keys ((fun _ => [] : Fin n → CellMap A) i)).Nodup :=
    fun _ => List.nodup_nil
  obtain ⟨hmaps, -⟩ := processBorrowedInto_holds hlawful (v.context job) job.samples hempty
    fun _ => Keyed.Holds.nil (Observed R)
  have hspp : max (v.context job).samplesPerPixel 1 = v.samplesPerPixel item := hjob ▸ rfl
  have hpart : (v.scanned kernel item).part w = walkedSamples (v.context job)
      (v.samplesPerPixel item) ((v.kernelOf kernel item.tileIdx).sample (v.context job))
      ((v.kernelOf kernel item.tileIdx).engine (v.context job)).combineSampleWeights
      (visitedPixels (v.context job) (v.samplesPerPixel item) job.samples
        (rowStride (v.context job) (v.samplesPerPixel item) job.samples)
        (List.range (v.context job).chunk.height)) := by
    have hcons : Conservative (v.context job) := by
      subst hjob
      refine conservative_of_seamSeen h.degrees (h.seam.window (Nat.le_add_right _ _) ?_)
      show item.chunk.colOffset + w.col + w.width ≤ item.chunk.colOffset + item.chunk.width
      have hright := hcut.right
      have hcol := hcut.col_eq
      omega
    rw [hwindow.samples hcons, part_scanned item hcut]
    subst hjob
    refine congrArg List.sum (List.map_congr_left fun r hr => congrArg List.sum
      (List.map_congr_left fun c hc => ?_))
    rw [pixelValues_window h hcut (List.mem_range.mp hr) (List.mem_range.mp hc)]
    obtain ⟨hsample, hengine⟩ := hlawful.elsewhere (v.context (wholeJob item))
      (windowJob (v.samplesPerPixel item) item w).bounds item.chunk.width
    have hsample' : (v.kernelOf kernel item.tileIdx).sample
        (v.context (windowJob (v.samplesPerPixel item) item w)) =
      (v.kernelOf kernel item.tileIdx).sample (v.context (wholeJob item)) := hsample
    have hengine' : (v.kernelOf kernel item.tileIdx).engine
        (v.context (windowJob (v.samplesPerPixel item) item w)) =
      (v.kernelOf kernel item.tileIdx).engine (v.context (wholeJob item)) := hengine
    rw [hsample', hengine']
    show addedBy (v.context (wholeJob item)) _ _ (item.chunk.colOffset + (w.col + c))
        (item.chunk.rowOffset + (w.row + r)) _ =
      addedBy (v.context (wholeJob item)) _ _ (item.chunk.colOffset + w.col + c)
        (item.chunk.rowOffset + w.row + r) _
    rw [Nat.add_assoc, Nat.add_assoc]
  obtain ⟨hnodup, hholds⟩ := hmaps i
  rw [hspp, ← hpart] at hholds
  subst hjob
  refine ⟨hnodup, ?_⟩
  have hzero : (0 + (v.scanned kernel item).part w : Fin n → Contents (S × F)) i =
      (v.scanned kernel item).part w i := congrFun (zero_add _) i
  exact hzero ▸ hholds

end ScanView

end RasterH3.Agg
