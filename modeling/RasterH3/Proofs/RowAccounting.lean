import RasterH3.Pmtiles.ParquetTiler
import RasterH3.Proofs.TileCoverage
import RasterH3.Proofs.TileEviction

/-!
# Which rows the transcoding accounts for

A Parquet file is transcoded in two readings. The scan looks at the column of cells of every
row group, to learn how far north it reaches and which zooms it needs; the row loop then
takes the groups from north to south, makes features of their rows and counts what it could
not use. At the end the summary should account for every row of the file.

The counters are incremented in the row loop, so they count the rows of the groups that the
loop visits, and it visits those in which the scan found a cell (`groups_scan`). Rows of the
other groups are in no counter. Within a group the loop and the scan look for the cell in
different places: leaf `idx` and field `idx` are the same column of a flat file, and need
not be in a file with a nested column.

These two are the only ways to lose a row. What the loop did with the rows it visited, in
whatever order the groups came and whatever was evicted between them, is `Did`: each row is
in one counter, or its feature is in the tiles of its cell. An eviction moves tiles to the
writer and changes neither (`pairs_flushAll`), and the order of the rows does not matter.

So `accounts_iff` is an equivalence over files. In one direction a group without a cell that
has rows makes the counts too small; in the other a row whose field holds another cell than
its leaf is in other tiles than it should be, or in none.
-/

namespace RasterH3.Pmtiles

open Agg TilePyramidAccumulator

variable {F : Type}

/-! ## The groups that are visited -/

/-- The scan finds a cell in this group. -/
def hasCell (grid : Outlines F) (idx : Nat) (rg : List ParquetRow) : Bool :=
  rg.any fun row => (leafCell grid.isCell idx row).isSome

theorem leafCell_eq_none {isCell : CellIndex → Bool} {idx : Nat} {row : ParquetRow} :
    leafCell isCell idx row = none ↔
      (leafValues idx row).filterMap (fun v => v.h3.filter isCell) = [] := by
  rw [leafCell, List.findSome?_eq_none_iff, List.filterMap_eq_nil_iff]

theorem scanRowGroup_isSome (grid : Outlines F) (idx i : Nat) (rg : List ParquetRow) :
    (scanRowGroupH3Extent grid idx i rg).isSome = hasCell grid idx rg := by
  have hnone : rg.flatMap (fun row => (leafValues idx row).filterMap fun v =>
      v.h3.filter grid.isCell) = [] ↔ hasCell grid idx rg = false := by
    rw [List.flatMap_eq_nil_iff, hasCell, List.any_eq_false]
    refine forall₂_congr fun row _ => ?_
    rw [← leafCell_eq_none, Bool.not_eq_true, Option.isSome_eq_false_iff,
      Option.isNone_iff_eq_none]
  unfold scanRowGroupH3Extent
  simp only
  split
  next h => rw [hnone.mp h]; rfl
  next h =>
    rw [hnone, Bool.not_eq_false] at h
    rw [h]
    rfl

theorem rgIdx_of_scan {grid : Outlines F} {idx i : Nat} {rg : List ParquetRow}
    {ext : RowGroupExtent F} (h : scanRowGroupH3Extent grid idx i rg = some ext) :
    ext.rgIdx = i := by
  unfold scanRowGroupH3Extent at h
  simp only at h
  split at h
  next => cases h
  next => cases h; rfl

/-- The groups behind the extents are those that have a cell. -/
theorem groups_scan (grid : Outlines F) (idx : Nat) (rowGroups : List (List ParquetRow)) :
    (scan grid idx rowGroups).map (fun ext => (rowGroups[ext.rgIdx]?).getD []) =
      rowGroups.filter (hasCell grid idx) := by
  have hone : ∀ rg ∈ rowGroups.zipIdx,
      (scanRowGroupH3Extent grid idx rg.2 rg.1).map (fun ext => (rowGroups[ext.rgIdx]?).getD []) =
        Option.guard (hasCell grid idx) rg.1 := by
    intro rg hrg
    have hget : rowGroups[rg.2]? = some rg.1 := List.mem_zipIdx_iff_getElem?.mp hrg
    have hsome := scanRowGroup_isSome grid idx rg.2 rg.1
    cases hscan : scanRowGroupH3Extent grid idx rg.2 rg.1 with
    | none =>
        rw [hscan] at hsome
        rw [Option.guard, ← hsome]
        rfl
    | some ext =>
        rw [hscan] at hsome
        rw [Option.guard, ← hsome, Option.map_some, rgIdx_of_scan hscan, hget]
        rfl
  rw [scan, List.map_filterMap, List.filterMap_congr hone]
  have hfst : rowGroups.zipIdx.map Prod.fst = rowGroups := List.zipIdx_map_fst 0 rowGroups
  rw [← List.filterMap_eq_filter]
  conv_rhs => rw [← hfst, List.filterMap_map]
  rfl

variable [Field F] [LinearOrder F]

theorem length_futureHorizons (extents : List (RowGroupExtent F)) :
    (futureHorizons extents).length = extents.length := by
  unfold futureHorizons
  induction extents with
  | nil => rfl
  | cons ext extents ih =>
      rw [List.foldr_cons, List.length_cons, List.length_cons, ih]

variable [FloorRing F]

/-! ## What the loop did -/

/-- The tiles of a row whose cell is this one. -/
def rowTiles (axis : MercatorAxis F) (grid : Outlines F) (row : ParquetRow)
    (cell : Option CellIndex) : List (Feature F ParquetRow × TileKey) :=
  ((cell.map (rowFeature grid row)).elim [] fun f => (coverage axis f).map fun k => (f, k))

/-- The loop has gone through these rows. -/
structure Did (axis : MercatorAxis F) (grid : Outlines F) (idx : Nat) (safetyMargin : F)
    (rows : List ParquetRow) (s : Transcoding F) : Prop where
  total : s.totalFeatures = rows.length
  sum : s.validFeatures + s.invalidDropped = s.totalFeatures
  valid : s.validFeatures =
    (rows.filter fun row => (fieldCell grid.isCell idx row).isSome).length
  tiling : ∃ ops, s.tiling = Tiling.run axis safetyMargin ops ∧
    produced axis ops = rows.flatMap fun row =>
      rowTiles axis grid row (fieldCell grid.isCell idx row)

namespace Did

variable {axis : MercatorAxis F} {grid : Outlines F} {idx : Nat} {safetyMargin : F}
  {rows : List ParquetRow} {s : Transcoding F}

theorem initial (axis : MercatorAxis F) (grid : Outlines F) (idx : Nat) (safetyMargin : F) :
    Did axis grid idx safetyMargin [] ⟨0, 0, 0, ⟨.new safetyMargin, []⟩⟩ :=
  ⟨rfl, rfl, rfl, [], rfl, rfl⟩

theorem row (h : Did axis grid idx safetyMargin rows s) (row : ParquetRow) :
    Did axis grid idx safetyMargin (rows ++ [row]) (s.row axis grid idx row) := by
  obtain ⟨htotal, hsum, hvalid, ops, hops, hproduced⟩ := h
  unfold Transcoding.row
  cases hcell : fieldCell grid.isCell idx row with
  | none =>
      refine ⟨?_, ?_, ?_, ops, hops, ?_⟩
      · simp [htotal]
      · simp only
        omega
      · simp [hvalid, hcell]
      · simp [hproduced, hcell, rowTiles]
  | some cell =>
      refine ⟨?_, ?_, ?_, ops ++ [.add (rowFeature grid row cell)], ?_, ?_⟩
      · simp [htotal]
      · simp only
        omega
      · simp [hvalid, hcell]
      · rw [Tiling.run_snoc, hops]
      · rw [produced_add, hproduced]
        simp [hcell, rowTiles]

theorem foldl_row (h : Did axis grid idx safetyMargin rows s) (more : List ParquetRow) :
    Did axis grid idx safetyMargin (rows ++ more)
      (more.foldl (Transcoding.row axis grid idx) s) := by
  induction more generalizing rows s with
  | nil => rwa [List.append_nil]
  | cons row more ih =>
      rw [List.append_cons]
      exact ih (h.row row)

theorem evict (h : Did axis grid idx safetyMargin rows s) (latHorizon : F) :
    Did axis grid idx safetyMargin rows
      { s with tiling := s.tiling.step axis (.evict latHorizon) } := by
  obtain ⟨htotal, hsum, hvalid, ops, hops, hproduced⟩ := h
  refine ⟨htotal, hsum, hvalid, ops ++ [.evict latHorizon], ?_, ?_⟩
  · rw [Tiling.run_snoc, hops]
  · rw [produced_evict, hproduced]

theorem rowGroups (h : Did axis grid idx safetyMargin rows s) (groups : List (List ParquetRow))
    (visits : List (RowGroupExtent F × F)) :
    Did axis grid idx safetyMargin
      (rows ++ visits.flatMap fun rg => (groups[rg.1.rgIdx]?).getD [])
      (visits.foldl (Transcoding.rowGroup axis grid idx groups) s) := by
  induction visits generalizing rows s with
  | nil => simpa using h
  | cons rg visits ih =>
      rw [List.flatMap_cons, ← List.append_assoc]
      exact ih ((h.foldl_row _).evict rg.2)

/-- What is in the tiles does not depend on the evictions. -/
theorem pairs_flushAll (h : Did axis grid idx safetyMargin rows s) :
    (pairs s.tiling.flushAll).Perm (rows.flatMap fun row =>
      rowTiles axis grid row (fieldCell grid.isCell idx row)) := by
  obtain ⟨ops, hops, hproduced⟩ := h.tiling
  rw [hops, Tiling.flushAll, pairs_append, ← hproduced]
  exact (reached axis safetyMargin ops).pairs

/-- The order of the rows does not matter. -/
theorem congr (h : Did axis grid idx safetyMargin rows s) {rows' : List ParquetRow}
    (hperm : rows.Perm rows') :
    s.totalFeatures = rows'.length ∧
      s.validFeatures + s.invalidDropped = s.totalFeatures ∧
      s.validFeatures =
        (rows'.filter fun row => (fieldCell grid.isCell idx row).isSome).length ∧
      (pairs s.tiling.flushAll).Perm (rows'.flatMap fun row =>
        rowTiles axis grid row (fieldCell grid.isCell idx row)) :=
  ⟨h.total.trans hperm.length_eq, h.sum, h.valid.trans (hperm.filter _).length_eq,
    h.pairs_flushAll.trans (hperm.flatMap_right _)⟩

end Did

/-- The rows of the groups that have a cell. -/
def visited (grid : Outlines F) (idx : Nat) (file : ParquetFile) : List ParquetRow :=
  (file.rowGroups.filter (hasCell grid idx)).flatten

/-- What comes out of the transcoding is about the visited rows, and about the cells
that the fields hold. -/
theorem process_spec (axis : MercatorAxis F) (grid : Outlines F) (file : ParquetFile)
    {name : Option String} {idx : Nat} (h : h3Column file.columns name = .ok idx) :
    ∃ out, processParquetToPmtiles axis grid file name = .ok out ∧
      out.1.totalFeatures = (visited grid idx file).length ∧
      out.1.validFeatures + out.1.invalidFeaturesDropped = out.1.totalFeatures ∧
      out.1.validFeatures = ((visited grid idx file).filter fun row =>
        (fieldCell grid.isCell idx row).isSome).length ∧
      (pairs out.2).Perm ((visited grid idx file).flatMap fun row =>
        rowTiles axis grid row (fieldCell grid.isCell idx row)) := by
  have hgroups := groups_scan grid idx file.rowGroups
  unfold processParquetToPmtiles
  simp only [h, bind, Except.bind]
  split
  next hempty =>
    rw [hempty] at hgroups
    have hvisited : visited grid idx file = [] := by
      rw [visited, ← hgroups]
      rfl
    rw [hvisited]
    exact ⟨_, rfl, rfl, rfl, rfl, .refl _⟩
  next =>
    set scheduled := (scan grid idx file.rowGroups).mergeSort fun a b => b.maxLat ≤ a.maxLat
      with hscheduled
    have hdid := fun safetyMargin => (Did.initial axis grid idx safetyMargin).rowGroups
      file.rowGroups (scheduled.zip (futureHorizons scheduled))
    have hzip : (scheduled.zip (futureHorizons scheduled)).flatMap
        (fun rg => (file.rowGroups[rg.1.rgIdx]?).getD []) =
        scheduled.flatMap fun ext => (file.rowGroups[ext.rgIdx]?).getD [] := by
      conv_rhs => rw [← List.map_fst_zip (length_futureHorizons scheduled).ge, List.flatMap_map]
    have hperm : ([] ++ (scheduled.zip (futureHorizons scheduled)).flatMap
        fun rg : RowGroupExtent F × F =>
          (file.rowGroups[rg.1.rgIdx]?).getD []).Perm (visited grid idx file) := by
      rw [List.nil_append, hzip, visited, ← hgroups, ← List.flatMap_def]
      exact (List.mergeSort_perm _ _).flatMap_right _
    exact ⟨_, rfl, (hdid _).congr hperm⟩

/-! ## Every row -/

/-- The summary counts every row of the file, and the tiles hold every row whose cell
column holds a cell, once in each tile the cell covers. -/
structure Accounts (axis : MercatorAxis F) (grid : Outlines F) (idx : Nat) (file : ParquetFile)
    (out : PmtilesExportSummary × List (TileKey × MvtLayer F ParquetRow)) : Prop where
  total : out.1.totalFeatures = file.rows.length
  sum : out.1.validFeatures + out.1.invalidFeaturesDropped = out.1.totalFeatures
  valid : out.1.validFeatures =
    (file.rows.filter fun row => (leafCell grid.isCell idx row).isSome).length
  tiles : (pairs out.2).Perm (file.rows.flatMap fun row =>
    rowTiles axis grid row (leafCell grid.isCell idx row))

/-- No group with rows is without a cell, and the field of a row at the place of the
cell column holds the cell of the column. -/
structure Accountable (grid : Outlines F) (idx : Nat) (file : ParquetFile) : Prop where
  seen : ∀ rg ∈ file.rowGroups, rg ≠ [] → ∃ row ∈ rg, (leafCell grid.isCell idx row).isSome
  same : ∀ row ∈ file.rows, (fieldCell grid.isCell idx row).map (rowFeature grid row) =
    (leafCell grid.isCell idx row).map (rowFeature grid row)

variable {axis : MercatorAxis F} {grid : Outlines F} {idx : Nat} {file : ParquetFile}

omit [Field F] [LinearOrder F] [FloorRing F] in
/-- Only empty groups are left out if every group with rows has a cell. -/
theorem visited_eq_rows (h : ∀ rg ∈ file.rowGroups, rg ≠ [] →
    ∃ row ∈ rg, (leafCell grid.isCell idx row).isSome) : visited grid idx file = file.rows := by
  rw [visited, ParquetFile.rows]
  generalize file.rowGroups = groups at h
  induction groups with
  | nil => rfl
  | cons rg groups ih =>
      obtain ⟨hfirst, hrest⟩ := List.forall_mem_cons.mp h
      rw [List.filter_cons]
      split
      next => rw [List.flatten_cons, List.flatten_cons, ih hrest]
      next hno =>
        have hempty : rg = [] := by
          by_contra hne
          obtain ⟨row, hrow, hcell⟩ := hfirst hne
          exact hno (List.any_eq_true.mpr ⟨row, hrow, hcell⟩)
        rw [hempty, List.flatten_cons, List.nil_append, ih hrest]

omit [Field F] [LinearOrder F] [FloorRing F] in
/-- Rows of a group without a cell are missing from the visited ones. -/
theorem seen_of_length (h : (visited grid idx file).length = file.rows.length) :
    ∀ rg ∈ file.rowGroups, rg ≠ [] → ∃ row ∈ rg, (leafCell grid.isCell idx row).isSome := by
  have hle : ∀ groups : List (List ParquetRow),
      ((groups.filter (hasCell grid idx)).flatten).length ≤ groups.flatten.length := by
    intro groups
    exact (List.filter_sublist.flatten).length_le
  rw [visited, ParquetFile.rows] at h
  generalize file.rowGroups = groups at h
  induction groups with
  | nil => exact fun rg hrg => nomatch hrg
  | cons rg groups ih =>
      have hrest := hle groups
      rw [List.filter_cons, List.flatten_cons, List.length_append] at h
      split at h
      next hcell =>
        rw [List.flatten_cons, List.length_append] at h
        refine List.forall_mem_cons.mpr ⟨fun _ => List.any_eq_true.mp hcell, ih (by omega)⟩
      next =>
        have hempty : rg = [] := List.eq_nil_of_length_eq_zero (by omega)
        exact List.forall_mem_cons.mpr ⟨fun hne => absurd hempty hne, ih (by omega)⟩

variable [IsStrictOrderedRing F]

/-- A feature is in some tile. -/
theorem exists_mem_coverage (row : ParquetRow) (cell : CellIndex) :
    ∃ k, k ∈ coverage axis (rowFeature grid row cell) := by
  have hten : ((grid.boundary cell).map (MercatorPoint.fromLatLng axis)).length ≤ 10 := by
    rw [List.length_map]
    exact grid.ten cell
  rcases (forEachCellTile_spec (.fromLatLng axis (grid.center cell))
    (h3ResToZoom (grid.resolution cell)) hten).2 _ List.mem_cons_self with h | h
  · exact ⟨_, List.mem_map_of_mem h⟩
  · exact ⟨_, List.mem_map_of_mem h⟩

omit [IsStrictOrderedRing F] in
theorem mem_rowTiles {row : ParquetRow} {cell : Option CellIndex} {f : Feature F ParquetRow}
    {k : TileKey} : (f, k) ∈ rowTiles axis grid row cell ↔
      cell.map (rowFeature grid row) = some f ∧ k ∈ coverage axis f := by
  unfold rowTiles
  cases cell with
  | none => simp
  | some c =>
    simp only [Option.map_some, Option.elim_some, List.mem_map, Prod.mk.injEq, Option.some.injEq]
    constructor
    · rintro ⟨k', hk, rfl, rfl⟩
      exact ⟨rfl, hk⟩
    · rintro ⟨rfl, hk⟩
      exact ⟨k, hk, rfl, rfl⟩

/-- Rows that are in the same tiles hold the same cell in both places. -/
theorem same_of_perm {rows : List ParquetRow}
    (h : (rows.flatMap fun row => rowTiles axis grid row (fieldCell grid.isCell idx row)).Perm
      (rows.flatMap fun row => rowTiles axis grid row (leafCell grid.isCell idx row))) :
    ∀ row ∈ rows, (fieldCell grid.isCell idx row).map (rowFeature grid row) =
      (leafCell grid.isCell idx row).map (rowFeature grid row) := by
  intro row hrow
  have hone : ∀ (g g' : ParquetRow → Option CellIndex),
      (∀ x, x ∈ (rows.flatMap fun row => rowTiles axis grid row (g row)) →
        x ∈ rows.flatMap fun row => rowTiles axis grid row (g' row)) →
      ∀ c, g row = some c → (g' row).map (rowFeature grid row) = some (rowFeature grid row c) := by
    intro g g' hsub c hc
    have hcovered : ∃ k, k ∈ coverage axis (rowFeature grid row c) := exists_mem_coverage row c
    obtain ⟨k, hk⟩ := hcovered
    have hin := hsub (rowFeature grid row c, k)
      (List.mem_flatMap.mpr ⟨row, hrow, mem_rowTiles.mpr ⟨by rw [hc]; rfl, hk⟩⟩)
    obtain ⟨row', -, hin⟩ := List.mem_flatMap.mp hin
    obtain ⟨hf, -⟩ := mem_rowTiles.mp hin
    obtain ⟨c', hc', heq⟩ := Option.map_eq_some_iff.mp hf
    obtain rfl : row' = row := congrArg Feature.properties heq
    exact hf
  cases hleaf : leafCell grid.isCell idx row with
  | some c =>
      exact hone (leafCell grid.isCell idx) (fieldCell grid.isCell idx)
        (fun x => h.mem_iff.mpr) c hleaf
  | none =>
      cases hfield : fieldCell grid.isCell idx row with
      | none => rfl
      | some c =>
          have := hone (fieldCell grid.isCell idx) (leafCell grid.isCell idx)
            (fun x => h.mem_iff.mp) c hfield
          rw [hleaf] at this
          cases this

/-- The transcoding accounts for every row exactly if every group with rows has a cell
and field and leaf agree. -/
theorem accounts_iff (axis : MercatorAxis F) {name : Option String}
    (h : h3Column file.columns name = .ok idx) :
    (∃ out, processParquetToPmtiles axis grid file name = .ok out ∧
      Accounts axis grid idx file out) ↔ Accountable grid idx file := by
  obtain ⟨out, hout, htotal, hsum, hvalid, htiles⟩ := process_spec axis grid file h
  constructor
  · rintro ⟨out', hout', hacc⟩
    rw [hout] at hout'
    cases hout'
    have hseen := seen_of_length (htotal.symm.trans hacc.total)
    rw [visited_eq_rows hseen] at htiles
    exact ⟨hseen, same_of_perm (htiles.symm.trans hacc.tiles)⟩
  · intro hcan
    have hsame := hcan.same
    rw [visited_eq_rows hcan.seen] at htotal hvalid htiles
    refine ⟨out, hout, htotal, hsum, hvalid.trans ?_, htiles.trans (.of_eq ?_)⟩
    · refine congrArg List.length (List.filter_congr fun row hrow => ?_)
      have := congrArg Option.isSome (hsame row hrow)
      rwa [Option.isSome_map, Option.isSome_map] at this
    · refine List.flatMap_congr fun row hrow => ?_
      rw [rowTiles, rowTiles, hsame row hrow]

/-- The base cell 20 and nothing else. -/
def baseOutlines : Outlines ℚ where
  isCell := fun c => c = 0x8029fffffffffff
  resolution := fun _ => 0
  center := fun _ => ⟨37, -122⟩
  boundary := fun _ => [⟨48, -122⟩, ⟨43, -108⟩, ⟨31, -110⟩, ⟨26, -122⟩, ⟨31, -134⟩, ⟨43, -136⟩]
  three := fun _ => Nat.le_of_ble_eq_true rfl
  ten := fun _ => Nat.le_of_ble_eq_true rfl
  maxLat := fun _ => 48
  maxHexRadiusDeg := fun _ => 12

theorem accounts_cell_and_null :
    let file : ParquetFile :=
      ⟨["h3"], [[[.flat false (some (.int64 0x8029fffffffffff))], [.flat false none]]]⟩
    ∃ out, processParquetToPmtiles linearAxis baseOutlines file none = .ok out ∧
      Accounts linearAxis baseOutlines 0 file out := by
  intro file
  refine (accounts_iff linearAxis (by decide +kernel : h3Column file.columns none = .ok 0)).mpr
    ⟨?_, ?_⟩
  · intro rg hrg _
    obtain rfl := List.mem_singleton.mp hrg
    exact ⟨_, List.mem_cons_self, by decide +kernel⟩
  · intro row hrow
    rcases List.mem_cons.mp hrow with rfl | hrow
    · rfl
    · obtain rfl := List.mem_singleton.mp hrow
      rfl

/-- A null and a number that is no cell, in a group of their own; and a cell behind a
structure of two leaves, where the row loop finds no field. -/
theorem rows_lost_silently :
    let cellless : ParquetFile :=
      ⟨["h3"], [[[.flat false none], [.flat false (some (.int64 0))]]]⟩
    let shifted : ParquetFile := ⟨["lon", "lat", "h3"],
      [[[.nested [[.other], [.other]], .flat false (some (.int64 0x8029fffffffffff))]]]⟩
    (∃ out, processParquetToPmtiles linearAxis baseOutlines cellless none = .ok out ∧
      out.1.totalFeatures = 0 ∧ ¬ Accounts linearAxis baseOutlines 0 cellless out) ∧
    ∃ out, processParquetToPmtiles linearAxis baseOutlines shifted none = .ok out ∧
      out.1.validFeatures = 0 ∧ ¬ Accounts linearAxis baseOutlines 2 shifted out := by
  intro cellless shifted
  constructor
  · obtain ⟨out, hout, htotal, -⟩ := process_spec linearAxis baseOutlines cellless
      (by decide +kernel : h3Column cellless.columns none = .ok 0)
    have hvisited : (visited baseOutlines 0 cellless).length = 0 := by decide +kernel
    refine ⟨out, hout, htotal.trans hvisited, fun h => ?_⟩
    have hrows : cellless.rows.length = 2 := rfl
    have htwo := h.total
    omega
  · obtain ⟨out, hout, -, -, hvalid, -⟩ := process_spec linearAxis baseOutlines shifted
      (by decide +kernel : h3Column shifted.columns none = .ok 2)
    have hfield : ((visited baseOutlines 2 shifted).filter fun row =>
        (fieldCell baseOutlines.isCell 2 row).isSome).length = 0 := by decide +kernel
    have hleaf : (shifted.rows.filter fun row =>
        (leafCell baseOutlines.isCell 2 row).isSome).length = 1 := by decide +kernel
    refine ⟨out, hout, hvalid.trans hfield, fun h => ?_⟩
    have hone := h.valid
    omega

end RasterH3.Pmtiles
