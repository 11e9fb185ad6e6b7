import RasterH3.Lib.Loops
import RasterH3.Proofs.WalkerRuns

/-!
# What a walk leaves out

A walk with a query box visits the columns of a row that may have a sample in the box. What
it leaves out must add nothing, or the records of a scan would miss samples that the box
keeps (`Conservative`). This is what the theorems about scans with a box need of the
pruning, and it is not true of every grid and every box; so it is derived here from what it
takes.

A row is pruned by its latitudes and the column window, which are those of the samples, on
WGS84 grids and on Mercator ones alike (`RowPruner.new_spec`). The pruner of a Mercator grid
multiplies by the factor from radians to degrees, of which nothing is needed but that it is
positive. Grids of other kinds have no pruner, and their rows are visited whole.

So nothing is lost but on the antimeridian, where the box takes 180 and -180 for one
meridian and the window does not. There the box has to reach the sample as a plain interval
(`SeamSeen`), a condition on the grid, the sampling pattern and the box that does not
mention the walk. A grid without a sample on the antimeridian has nothing to ask
(`seamSeen_of_off`).
-/

namespace RasterH3.Agg

open Raster

variable {F : Type} [Field F] [LinearOrder F] [FloorRing F] {n : Nat}

/-- Pixels that are pruned from a row have no sample in the box. -/
def Conservative (ctx : WalkContext F n) : Prop :=
  ∀ rowIdx rowPx c, rowPx ≤ ctx.chunk.width → c < rowPx →
    positionsOf ctx (ctx.chunk.colOffset + c) rowIdx ≠ [] →
      ∃ cols, visitedColumns ctx.bbox ctx.gt ctx.crs ctx.sampling ctx.chunk.colOffset rowIdx
        rowPx = some cols ∧ cols.1 ≤ c ∧ c < cols.2

/-- Without a box nothing is pruned. -/
theorem conservative_of_none {ctx : WalkContext F n} (h : ctx.bbox = none) : Conservative ctx := by
  intro rowIdx rowPx c _ hc _
  refine ⟨(0, rowPx), ?_, Nat.zero_le _, hc⟩
  rw [h]
  rfl

/-- Degrees are a positive multiple of radians. -/
def InDegrees (crs : CrsTransformer F) : Prop :=
  ∀ radToDeg lat, crs = .webMercatorFast radToDeg lat → 0 < radToDeg

/-- A sample on the antimeridian that the box keeps is in the column window of any part of a
row of the chunk. -/
def SeamSeen (ctx : WalkContext F n) : Prop :=
  ∀ bbox p, ctx.bbox = some bbox →
    RowPruner.new (some bbox) ctx.gt ctx.crs ctx.sampling = some p →
    ∀ colOffset rowPx c, ctx.chunk.colOffset ≤ colOffset →
      colOffset + rowPx ≤ ctx.chunk.colOffset + ctx.chunk.width → c < rowPx →
    ∀ sp ∈ ctx.sampling.points, ∀ x lat : F,
      x = p.lon0 + (colOffset + c + sp.dx) * p.lonStep → wrapLon x = -180 →
      isPointInBbox x lat (some bbox) = true →
      SeamInWindow (p.lon0 + colOffset * p.lonStep) (p.lon0 + (colOffset + rowPx) * p.lonStep)
        p.lonStep sp.dx ctx.sampling.dxMin ctx.sampling.dxMax x bbox

/-- A grid without a sample on the antimeridian. -/
theorem seamSeen_of_off {ctx : WalkContext F n}
    (h : ∀ bbox p, ctx.bbox = some bbox →
      RowPruner.new (some bbox) ctx.gt ctx.crs ctx.sampling = some p → ∀ col : Nat, ctx.chunk.colOffset ≤ col → col < ctx.chunk.colOffset + ctx.chunk.width →
        ∀ sp ∈ ctx.sampling.points, wrapLon (p.lon0 + (col + sp.dx) * p.lonStep) ≠ -180) :
    SeamSeen ctx := by
  intro bbox p hbbox hnew colOffset rowPx c hlo hhi hc sp hsp x lat hx hseam
  refine absurd hseam ?_
  have hoff := h bbox p hbbox hnew (colOffset + c) (by omega) (by omega) sp hsp
  rw [hx]
  push_cast at hoff
  exact hoff

/-- Within a window of the chunk as well. -/
theorem SeamSeen.window {ctx : WalkContext F n} (h : SeamSeen ctx) {chunk : RasterChunk}
    {stride : Nat} (hlo : ctx.chunk.colOffset ≤ chunk.colOffset)
    (hhi : chunk.colOffset + chunk.width ≤ ctx.chunk.colOffset + ctx.chunk.width) :
    SeamSeen { ctx with chunk, stride } :=
  fun bbox p hbbox hnew colOffset rowPx c hlo' hhi' hc =>
    h bbox p hbbox hnew colOffset rowPx c (hlo.trans hlo') (hhi'.trans hhi) hc

variable [IsStrictOrderedRing F]

omit [FloorRing F] in
/-- What a pruner knows of a grid: the longitudes of its columns and the latitudes of its
rows. -/
theorem RowPruner.new_spec {bbox : Bbox F} {gt : GeoTransform F} {crs : CrsTransformer F}
    {sampling : SamplingPattern F} {p : RowPruner F} (hdegrees : InDegrees crs)
    (h : RowPruner.new (some bbox) gt crs sampling = some p) :
    p.bbox = bbox ∧ 0 < p.lonStep ∧ (p.dxMin = sampling.dxMin ∧ p.dxMax = sampling.dxMax) ∧
      (∀ col row : F, ∃ lat, crs.transformPoint (gt.pixelToCoord col row).1
        (gt.pixelToCoord col row).2 = some (p.lon0 + col * p.lonStep, lat) ∧
          (crs.transformPoint (gt.pixelToCoord 0 row).1 (gt.pixelToCoord 0 row).2).map Prod.snd =
            some lat) := by
  unfold RowPruner.new at h
  dsimp only at h
  split at h
  next hgt =>
    obtain ⟨hb, hd, ha, -⟩ := hgt
    cases crs with
    | wgs84Identity =>
        obtain rfl := Option.some.inj h
        refine ⟨rfl, ha, ⟨rfl, rfl⟩, fun col row =>
          ⟨(gt.pixelToCoord 0 row).2, congrArg some ?_, rfl⟩⟩
        simp [GeoTransform.pixelToCoord, hb, hd]
    | webMercatorFast radToDeg lat =>
        obtain rfl := Option.some.inj h
        have hradius : (0 : F) < wgs84A := by
          unfold wgs84A
          norm_num
        refine ⟨rfl, mul_pos (div_pos ha hradius) (hdegrees _ _ rfl), ⟨rfl, rfl⟩, fun col row =>
          ⟨lat (gt.pixelToCoord 0 row).2, congrArg some (Prod.ext ?_ ?_), rfl⟩⟩
        · show (gt.pixelToCoord col row).1 / wgs84A * radToDeg = _
          rw [GeoTransform.pixelToCoord, hb]
          ring
        · simp [GeoTransform.pixelToCoord, hd]
    | projected => cases h
  next => cases h

/-- Where the antimeridian is seen, nothing is lost. -/
theorem conservative_of_seamSeen {ctx : WalkContext F n} (hdegrees : InDegrees ctx.crs)
    (h : SeamSeen ctx) : Conservative ctx := by
  cases hbbox : ctx.bbox with
  | none => exact conservative_of_none hbbox
  | some bbox =>
      intro rowIdx rowPx c hwidth hc hne
      rw [hbbox, visitedColumns]
      cases hnew : RowPruner.new (some bbox) ctx.gt ctx.crs ctx.sampling with
      | none => exact ⟨(0, rowPx), rfl, Nat.zero_le _, hc⟩
      | some p =>
          obtain ⟨hbox, hstep, hoffsets, hpoint⟩ := RowPruner.new_spec hdegrees hnew
          -- a retained sample of the pixel
          obtain ⟨position, hposition⟩ := List.exists_mem_of_ne_nil _ hne
          obtain ⟨sp, hsp, hsome⟩ := List.mem_filterMap.mp hposition
          obtain ⟨point, hretained, -⟩ := Option.map_eq_some_iff.mp hsome
          obtain ⟨hpointOf, hretains⟩ := Option.filter_eq_some_iff.mp hretained
          obtain ⟨htransform, -⟩ := Option.filter_eq_some_iff.mp hpointOf
          obtain ⟨lat, hlat, hrow⟩ :=
            hpoint ((ctx.chunk.colOffset + c : Nat) + sp.dx) (rowIdx + sp.dy)
          obtain rfl := Option.some.inj (htransform.symm.trans hlat)
          have hx : p.lon0 + ((ctx.chunk.colOffset + c : Nat) + sp.dx) * p.lonStep =
              p.lon0 + (ctx.chunk.colOffset + c + sp.dx) * p.lonStep := by
            push_cast
            rfl
          have hkept : isPointInBbox (p.lon0 + ((ctx.chunk.colOffset + c : Nat) + sp.dx) * p.lonStep)
              lat (some p.bbox) = true := by
            rw [hbox, ← hbbox]
            rw [Bool.and_eq_true, Retains, Bool.and_eq_true] at hretains
            exact hretains.1.1
          cases hlats : RowPruner.rowLats ctx.gt ctx.crs ctx.sampling rowIdx with
          | none =>
              refine ⟨(0, rowPx), ?_, Nat.zero_le _, hc⟩
              dsimp only
              rw [RowPruner.columns, hlats]
          | some lats =>
              obtain ⟨lat', hmem, hlat'⟩ := Loops.exists_of_mapM_some hlats hsp
              obtain rfl := Option.some.inj (hrow.symm.trans hlat')
              refine (RowPruner.columns_iff hstep hoffsets hlats hmem hsp hc hx hkept).mpr
                fun hseam => ?_
              rw [hbox]
              exact h bbox p hbbox hnew ctx.chunk.colOffset rowPx c le_rfl (by omega) hc sp hsp _
                lat hx hseam (hbox ▸ hkept)

end RasterH3.Agg
