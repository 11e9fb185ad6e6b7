import RasterH3.Agg.Categorical
import RasterH3.Lib.Loops
import RasterH3.Proofs.ArchiveRoundTrip
import RasterH3.Proofs.BufferedMerge
import RasterH3.Proofs.SpillCodec
import RasterH3.Proofs.TileCoverage
import RasterH3.Proofs.TileEviction

/-!
# Overviews are complete whatever the budget

Above the zooms of its cells an archive shows ancestors, with the merged states of their
descendants. They do not fit in memory, and two merges with runs on disk are chained. What
goes into the first is every detail cell under each of its ancestors, `parentPushes`, and
what goes into the second is every parent under each of its tiles, `placed`. Both lists are
known in full, so the tiles follow from them alone: a merge hands out what it was given, and
when it spilled does not show.

A detail cell has one ancestor at a resolution, so that a parent gathers the states of its
descendants, each once (`statesFor_parentPushes`). A parent comes once out of the first
merge, a cell covers a tile once, and an id belongs to one tile; that is why no parent is
twice in a tile (`placed_nodup`). And a parent is in a tile exactly if it is shown at the
zoom and covers the tile (`exists_placed_iff`).

Each of the merges can fail, on a state that is larger than the limit or when a count does
not fit. So the statement has a second half. If the states that the merges build keep within
the limits, in whatever order they are built, the run succeeds; what is asked is asked of
these states only, and the witness has a run that succeeds with a budget that makes every
push spill.
-/

namespace RasterH3.Pmtiles

open Agg AccumulatorMerge SpillAccumulator LawfulSpill Keyed

variable {A : Type}

/-! ## What is pushed into the first merge -/

section Ancestors

variable {F : Type} {grid : CellGrid F} {resolutions : List Nat}

/-- Every detail cell with its ancestors. -/
def parentPushes (grid : CellGrid F) (resolutions : List Nat) (details : List (CellIndex × A)) :
    List (CellIndex × A) :=
  details.flatMap fun d => resolutions.filterMap fun res =>
    (grid.ancestor d.1 res).map fun p => (p, d.2)

/-- The states of the detail cells below `p`. -/
def descendants (grid : CellGrid F) (details : List (CellIndex × A)) (res : Nat) (p : CellIndex) :
    Multiset A :=
  ↑((details.filter fun d => grid.ancestor d.1 res = some p).map Prod.snd)

/-- A detail cell has one ancestor at a resolution, and it is pushed once. -/
theorem statesFor_ancestors (law : grid.Lawful) (hnodup : resolutions.Nodup) (cell : CellIndex)
    (value : A) (p : CellIndex) :
    statesFor p (resolutions.filterMap fun res =>
        (grid.ancestor cell res).map fun q => (q, value)) =
      if grid.resolution p ∈ resolutions ∧ grid.ancestor cell (grid.resolution p) = some p then
        {value}
      else 0 := by
  induction resolutions with
  | nil => simp
  | cons res rs ih =>
      obtain ⟨hres, hnodup⟩ := List.nodup_cons.mp hnodup
      rw [List.filterMap_cons]
      cases hq : grid.ancestor cell res with
      | none =>
          simp only [Option.map_none]
          rw [ih hnodup]
          refine if_congr (and_congr_left fun hp => ?_) rfl rfl
          have hne : grid.resolution p ≠ res := by
            rintro rfl
            rw [hq] at hp
            cases hp
          simp [hne]
      | some q =>
          simp only [Option.map_some]
          rw [statesFor_cons, ih hnodup]
          by_cases hqp : q = p
          · subst hqp
            have hat := law.resolution_ancestor hq
            subst hat
            rw [if_pos rfl, if_neg (fun h => hres h.1), if_pos ⟨List.mem_cons_self, hq⟩, add_zero]
          · rw [if_neg hqp, zero_add]
            refine if_congr (and_congr_left fun hp => ?_) rfl rfl
            have hne : grid.resolution p ≠ res := by
              rintro rfl
              rw [hq] at hp
              exact hqp (Option.some.inj hp)
            simp [hne]

/-- A parent gathers the states of its descendants, each once. -/
theorem statesFor_parentPushes (law : grid.Lawful) (hnodup : resolutions.Nodup)
    (details : List (CellIndex × A)) {p : CellIndex} (hp : grid.resolution p ∈ resolutions) :
    statesFor p (parentPushes grid resolutions details) =
      descendants grid details (grid.resolution p) p := by
  induction details with
  | nil => rfl
  | cons d details ih =>
      rw [parentPushes, List.flatMap_cons, statesFor_append, statesFor_ancestors law hnodup]
      rw [parentPushes] at ih
      rw [ih, descendants, descendants, List.filter_cons]
      by_cases hanc : grid.ancestor d.1 (grid.resolution p) = some p
      · simp [hp, hanc]
      · simp [hanc]

theorem mem_keys_parentPushes {details : List (CellIndex × A)} {p : CellIndex} :
    p ∈ keys (parentPushes grid resolutions details) ↔
      ∃ d ∈ details, ∃ res ∈ resolutions, grid.ancestor d.1 res = some p := by
  constructor
  · intro h
    obtain ⟨a, h⟩ := mem_keys.mp h
    obtain ⟨d, hd, h⟩ := List.mem_flatMap.mp h
    obtain ⟨res, hres, h⟩ := List.mem_filterMap.mp h
    obtain ⟨q, hq, heq⟩ := Option.map_eq_some_iff.mp h
    cases heq
    exact ⟨d, hd, res, hres, hq⟩
  · rintro ⟨d, hd, res, hres, hp⟩
    refine mem_keys.mpr ⟨d.2, List.mem_flatMap.mpr ⟨d, hd, List.mem_filterMap.mpr ⟨res, hres, ?_⟩⟩⟩
    rw [hp]
    rfl

variable [SpillAccumulator A]

/-- Going through the resolutions is pushing the ancestors. -/
theorem foldlM_ancestors (grid : CellGrid F) (cell : CellIndex) (value : A) (rs : List Nat)
    (b : BufferedMerge A) :
    rs.foldlM (fun parents res =>
      match grid.ancestor cell res with
      | some parent => parents.push parent value
      | none => .ok parents) b =
    b.pushAll (rs.filterMap fun res => (grid.ancestor cell res).map fun p => (p, value)) := by
  induction rs generalizing b with
  | nil => rfl
  | cons res rs ih =>
      rw [List.foldlM_cons, List.filterMap_cons]
      cases grid.ancestor cell res with
      | none => exact ih b
      | some p => exact bind_congr fun b => ih b

theorem Overview.push_eq (grid : CellGrid F) (o : Overview A) (cell : CellIndex) (value : A) :
    o.push grid cell value =
      (o.parents.pushAll (o.resolutions.filterMap fun res =>
        (grid.ancestor cell res).map fun p => (p, value))).map fun parents =>
          { o with parents := parents } := by
  have hmap : ∀ x : Except SpillError (BufferedMerge A),
      (do let parents ← x; return { o with parents := parents }) =
        x.map fun parents => { o with parents := parents } := by
    intro x
    cases x <;> rfl
  rw [push, ← foldlM_ancestors]
  exact hmap _

theorem Overview.pushAll_eq (grid : CellGrid F) (details : List (CellIndex × A))
    (o : Overview A) :
    o.pushAll grid details = (o.parents.pushAll (parentPushes grid o.resolutions details)).map
      fun parents => { o with parents := parents } := by
  induction details generalizing o with
  | nil => rfl
  | cons d details ih =>
      rw [pushAll, List.foldlM_cons, push_eq, parentPushes, List.flatMap_cons,
        BufferedMerge.pushAll_append]
      cases o.parents.pushAll (o.resolutions.filterMap fun res =>
          (grid.ancestor d.1 res).map fun p => (p, d.2)) with
      | error e => rfl
      | ok parents => exact ih { o with parents := parents }

end Ancestors

/-! ## The tiles of a cell -/

section Tiles

variable {F : Type} [Field F] [LinearOrder F] [FloorRing F]

theorem cellTileRange_lt (center : MercatorPoint F) (vertices : List (MercatorPoint F)) (z : Nat) :
    let r := cellTileRangeMercator center vertices z
    r.minTx < 2 ^ z ∧ r.maxTx < 2 ^ z ∧ r.maxTy < 2 ^ z := by
  have hfold : ∀ (vs : List (MercatorPoint F)) (r : TileRange),
      r.minTx < 2 ^ z ∧ r.maxTx < 2 ^ z ∧ r.maxTy < 2 ^ z →
      let s := vs.foldl (fun r v =>
        let t := mercatorToTileXy v z
        (⟨min r.minTx t.1, max r.maxTx t.1, min r.minTy t.2, max r.maxTy t.2⟩ : TileRange)) r
      s.minTx < 2 ^ z ∧ s.maxTx < 2 ^ z ∧ s.maxTy < 2 ^ z := by
    intro vs
    induction vs with
    | nil => exact fun r h => h
    | cons v vs ih =>
        intro r h
        have hx := tileCoord_lt v.x z
        have hy := tileCoord_lt v.y z
        refine ih _ ⟨?_, ?_, ?_⟩
        · exact lt_of_le_of_lt (min_le_left _ _) h.1
        · exact max_lt h.2.1 hx
        · exact max_lt h.2.2 hy
  exact hfold vertices _ ⟨tileCoord_lt center.x z, tileCoord_lt center.x z, tileCoord_lt center.y z⟩

theorem wrappedColumns_lt {center : MercatorPoint F} {vertices : List (MercatorPoint F)}
    {z : Nat} {columns : List Nat} (h : wrappedColumns center vertices z = some columns) :
    ∀ x ∈ columns, x < 2 ^ z := by
  have hmod : ∀ i : Int, (i % 2 ^ z).toNat < 2 ^ z := by
    intro i
    have hpos : (0 : Int) < 2 ^ z := by positivity
    have hlt := Int.emod_lt_of_pos i hpos
    have hcast : ((2 ^ z : Nat) : Int) = 2 ^ z := by push_cast; rfl
    omega
  cases vertices with
  | nil => cases h
  | cons first rest =>
    unfold wrappedColumns at h
    simp only at h
    split at h
    · split at h
      · split at h
        next =>
          cases h
          intro x hx
          obtain ⟨i, -, rfl⟩ := List.mem_map.mp hx
          exact hmod _
        next => cases h
      · cases h
    · cases h

/-- The tiles of a cell are tiles of the zoom. -/
theorem forEachCellTile_lt {center : MercatorPoint F} {vertices : List (MercatorPoint F)} {z : Nat}
    {t : Nat × Nat} (h : t ∈ forEachCellTileMercator center vertices z) :
    t.1 < 2 ^ z ∧ t.2 < 2 ^ z := by
  obtain ⟨hmin, hmax, hrow⟩ := cellTileRange_lt center vertices z
  rw [forEachCellTileMercator, List.mem_flatMap] at h
  obtain ⟨x, hx, h⟩ := h
  obtain ⟨y, hy, rfl⟩ := List.mem_map.mp h
  rw [inclusive, List.mem_range'_1] at hy
  refine ⟨?_, by dsimp only; omega⟩
  split at hx
  next =>
    rw [List.mem_singleton.mp hx]
    exact hmin
  next =>
    cases hwrapped : wrappedColumns center vertices z with
    | some columns =>
        rw [hwrapped] at hx
        exact wrappedColumns_lt hwrapped x hx
    | none =>
        rw [hwrapped, Option.getD_none, inclusive, List.mem_range'_1] at hx
        dsimp only
        omega

theorem tileKey_val {z : Nat} {t : Nat × Nat} (h : ValidTile z t.1 t.2) :
    (Overview.tileKey z t).val = zxyToTileId z t.1 t.2 :=
  Nat.mod_eq_of_lt (zxyToTileId_lt h)

theorem tileIdToZxy_tileKey {z : Nat} {t : Nat × Nat} (h : ValidTile z t.1 t.2) :
    tileIdToZxy (Overview.tileKey z t).val = (z, t.1, t.2) := by
  rw [tileKey_val h, tileIdToZxy_zxyToTileId h.x h.y]

theorem tileKey_injective {z z' : Nat} {t t' : Nat × Nat} (h : ValidTile z t.1 t.2)
    (h' : ValidTile z' t'.1 t'.2) (heq : Overview.tileKey z t = Overview.tileKey z' t') :
    z = z' ∧ t = t' := by
  have hkeys := congrArg (fun k : CellIndex => tileIdToZxy k.val) heq
  simp only [tileIdToZxy_tileKey h, tileIdToZxy_tileKey h', Prod.mk.injEq] at hkeys
  exact ⟨hkeys.1, Prod.ext hkeys.2.1 hkeys.2.2⟩

theorem valid_of_mem_cellTiles {axis : MercatorAxis F} {grid : CellGrid F} {p : CellIndex}
    {z : Nat} {t : Nat × Nat} (hz : z ≤ 31) (h : t ∈ Overview.cellTiles axis grid p z) :
    ValidTile z t.1 t.2 :=
  ⟨hz, (forEachCellTile_lt h).1, (forEachCellTile_lt h).2⟩

/-- Every parent with its tiles. -/
def placed (axis : MercatorAxis F) (grid : CellGrid F) (zooms : List Nat)
    (parents : List (CellIndex × A)) : List (CellIndex × CellIndex × A) :=
  parents.flatMap fun p => zooms.flatMap fun z =>
    if h3ResForZoom z = grid.resolution p.1 then
      (Overview.cellTiles axis grid p.1 z).map fun t => (Overview.tileKey z t, p)
    else []

theorem tilePushes_eq (axis : MercatorAxis F) (grid : CellGrid F) (zooms : List Nat)
    (parents : List (CellIndex × A)) :
    parents.flatMap (Overview.tilePushes axis grid zooms) =
      (placed axis grid zooms parents).map fun x => (x.1, ⟨[x.2]⟩) := by
  rw [placed, List.map_flatMap]
  refine List.flatMap_congr fun p _ => ?_
  rw [Overview.tilePushes, List.map_flatMap]
  refine List.flatMap_congr fun z _ => ?_
  split
  next => rw [List.map_map]; rfl
  next => rfl

section Contents

variable {axis : MercatorAxis F} {grid : CellGrid F} {zooms : List Nat}

theorem mem_placed {parents : List (CellIndex × A)} {k : CellIndex} {p : CellIndex × A} :
    (k, p) ∈ placed axis grid zooms parents ↔ p ∈ parents ∧ ∃ z ∈ zooms,
      h3ResForZoom z = grid.resolution p.1 ∧
        ∃ t ∈ Overview.cellTiles axis grid p.1 z, k = Overview.tileKey z t := by
  constructor
  · intro h
    obtain ⟨q, hq, h⟩ := List.mem_flatMap.mp h
    obtain ⟨z, hz, h⟩ := List.mem_flatMap.mp h
    split at h
    next hres =>
      obtain ⟨t, ht, heq⟩ := List.mem_map.mp h
      cases heq
      exact ⟨hq, z, hz, hres, t, ht, rfl⟩
    next => cases h
  · rintro ⟨hp, z, hz, hres, t, ht, rfl⟩
    refine List.mem_flatMap.mpr ⟨p, hp, List.mem_flatMap.mpr ⟨z, hz, ?_⟩⟩
    rw [if_pos hres]
    exact List.mem_map_of_mem ht

/-- No parent is pushed twice into a tile. -/
theorem placed_nodup [IsStrictOrderedRing F] (law : grid.Lawful) (hzooms : zooms.Nodup)
    (hz : ∀ z ∈ zooms, z ≤ 31) {parents : List (CellIndex × A)} (hparents : (keys parents).Nodup) :
    ((placed axis grid zooms parents).map fun x => (x.1, x.2.1)).Nodup := by
  rw [placed, List.map_flatMap, List.nodup_flatMap]
  constructor
  · intro p _
    rw [List.map_flatMap, List.nodup_flatMap]
    constructor
    · intro z hzoom
      split
      next =>
        have hvalid : ∀ t ∈ Overview.cellTiles axis grid p.1 z, ValidTile z t.1 t.2 :=
          fun t ht => valid_of_mem_cellTiles (hz z hzoom) ht
        rw [List.map_map]
        refine List.Nodup.map_on (fun t ht t' ht' heq => ?_) (forEachCellTile_spec _ z ?_).1
        · exact (tileKey_injective (hvalid t ht) (hvalid t' ht') (Prod.ext_iff.mp heq).1).2
        · rw [List.length_map]
          exact law.boundary_le p.1
      next => exact List.nodup_nil
    · refine List.Pairwise.imp_of_mem (fun {z z'} hzoom hzoom' hne x hx hx' => hne ?_) hzooms
      obtain ⟨y, hy, rfl⟩ := List.mem_map.mp hx
      obtain ⟨y', hy', heq⟩ := List.mem_map.mp hx'
      split at hy
      next =>
        split at hy'
        next =>
          obtain ⟨t, ht, rfl⟩ := List.mem_map.mp hy
          obtain ⟨t', ht', rfl⟩ := List.mem_map.mp hy'
          exact (tileKey_injective (valid_of_mem_cellTiles (hz z hzoom) ht)
            (valid_of_mem_cellTiles (hz z' hzoom') ht') (Prod.ext_iff.mp heq).1.symm).1
        next => cases hy'
      next => cases hy
  · refine List.Pairwise.imp (fun {p p'} hne x hx hx' => hne ?_) (List.pairwise_map.mp hparents)
    obtain ⟨y, hy, rfl⟩ := List.mem_map.mp hx
    obtain ⟨y', hy', heq⟩ := List.mem_map.mp hx'
    have hof : ∀ (q : CellIndex × A) (x : CellIndex × CellIndex × A),
        x ∈ (zooms.flatMap fun z => if h3ResForZoom z = grid.resolution q.1 then
          (Overview.cellTiles axis grid q.1 z).map fun t => (Overview.tileKey z t, q)
        else []) → x.2 = q := by
      intro q x hx
      obtain ⟨z, -, hx⟩ := List.mem_flatMap.mp hx
      split at hx
      next =>
        obtain ⟨t, -, rfl⟩ := List.mem_map.mp hx
        rfl
      next => cases hx
    rw [← hof p y hy, ← hof p' y' hy']
    exact (Prod.ext_iff.mp heq).2.symm

/-- The entries pushed for a tile are the parents placed in it. -/
theorem bind_cells (l : List (CellIndex × CellIndex × A)) (k : CellIndex) :
    (statesFor k (l.map fun x => (x.1, (⟨[x.2]⟩ : TileCells A)))).bind
      (fun t => (t.cells : Multiset (CellIndex × A))) = statesFor k l := by
  induction l with
  | nil => rfl
  | cons x l ih =>
      rw [List.map_cons, statesFor_cons, statesFor_cons, Multiset.add_bind, ih]
      by_cases hk : x.1 = k
      · rw [if_pos hk, if_pos hk, Multiset.singleton_bind]
        rfl
      · rw [if_neg hk, if_neg hk, Multiset.zero_bind]

/-- What a tile holds: the parents placed in it, none twice, each with its state. -/
theorem tile_cells [IsStrictOrderedRing F] [SpillAccumulator A] [LawfulSpill A]
    (law : grid.Lawful) (hzooms : zooms.Nodup) (hz : ∀ z ∈ zooms, z ≤ 31)
    {parents : List (CellIndex × A)} (hparents : (keys parents).Nodup) {k : CellIndex}
    {t : TileCells A}
    (h : MergeOf (statesFor k ((placed axis grid zooms parents).map fun x => (x.1, ⟨[x.2]⟩))) t) :
    (keys t.cells).Nodup ∧
      (∀ p, p ∈ keys t.cells ↔ ∃ acc, (k, p, acc) ∈ placed axis grid zooms parents) ∧
      ∀ p acc, (p, acc) ∈ t.cells →
        ∃ acc₀, (k, p, acc₀) ∈ placed axis grid zooms parents ∧ MergeOf {acc₀} acc := by
  obtain ⟨l, hl, hall⟩ := MergeOf.lift TileCells.entries_merging h
    fun x _ => TileCells.entries_self x
  rw [bind_cells] at hl
  have hmem : ∀ c, c ∈ l ↔ (k, c) ∈ placed axis grid zooms parents := by
    intro c
    rw [← Multiset.mem_coe, hl, mem_statesFor]
  have hkeys : keys t.cells = keys l := by
    have hfst : List.Forall₂ (fun c c' => c.1 = c'.1) t.cells l := hall.imp fun _ _ hc => hc.1
    rw [← List.forall₂_eq_eq_eq]
    exact List.forall₂_map_left_iff.mpr (List.forall₂_map_right_iff.mpr hfst)
  refine ⟨?_, fun p => ?_, fun p acc hp => ?_⟩
  · have hperm : l.Perm (((placed axis grid zooms parents).filter fun x => x.1 = k).map Prod.snd) :=
      Multiset.coe_eq_coe.mp hl
    rw [hkeys, keys, (hperm.map Prod.fst).nodup_iff, List.map_map]
    have hnodup : (((placed axis grid zooms parents).filter fun x => x.1 = k).map
        fun x => (x.1, x.2.1)).Nodup :=
      (placed_nodup law hzooms hz hparents).sublist (List.filter_sublist.map _)
    have hsame : ((placed axis grid zooms parents).filter fun x => x.1 = k).map
        (fun x => (x.1, x.2.1)) = (((placed axis grid zooms parents).filter fun x => x.1 = k).map
          (Prod.fst ∘ Prod.snd)).map fun p => (k, p) := by
      rw [List.map_map]
      refine List.map_congr_left fun x hx => ?_
      rw [← of_decide_eq_true (List.mem_filter.mp hx).2]
      rfl
    rw [hsame] at hnodup
    exact hnodup.of_map _
  · rw [hkeys, mem_keys]
    exact exists_congr fun acc => hmem (p, acc)
  · obtain ⟨⟨p', acc₀⟩, hin, heq, hacc⟩ := Related.exists_of_mem hall hp
    obtain rfl : p = p' := heq
    exact ⟨acc₀, (hmem _).mp hin, hacc⟩

/-! ## The whole overview -/

variable {resolutions : List Nat} {details : List (CellIndex × A)}

/-- `p` is a parent of a detail cell at the resolution that zoom `z` shows. -/
def Shown (grid : CellGrid F) (resolutions : List Nat) (details : List (CellIndex × A)) (z : Nat)
    (p : CellIndex) : Prop :=
  h3ResForZoom z ∈ resolutions ∧ ∃ d ∈ details, grid.ancestor d.1 (h3ResForZoom z) = some p

omit [Field F] [LinearOrder F] [FloorRing F] in
theorem shown_iff (law : grid.Lawful) {z : Nat} {p : CellIndex} :
    Shown grid resolutions details z p ↔
      p ∈ keys (parentPushes grid resolutions details) ∧ h3ResForZoom z = grid.resolution p := by
  rw [mem_keys_parentPushes]
  constructor
  · rintro ⟨hres, d, hd, hp⟩
    exact ⟨⟨d, hd, _, hres, hp⟩, (law.resolution_ancestor hp).symm⟩
  · rintro ⟨⟨d, hd, res, hres, hp⟩, hz⟩
    obtain rfl : h3ResForZoom z = res := hz.trans (law.resolution_ancestor hp)
    exact ⟨hres, d, hd, hp⟩

/-- The tiles of an overview as they go to the writer. -/
structure WritesOverviews [SpillAccumulator A] [LawfulSpill A] (axis : MercatorAxis F)
    (grid : CellGrid F) (resolutions zooms : List Nat) (details : List (CellIndex × A))
    (written : List (TileKey × List (CellIndex × A))) : Prop where
  once : (keys written).Nodup
  tiles : ∀ z x y, (z, x, y) ∈ keys written ↔ z ∈ zooms ∧
    ∃ p, Shown grid resolutions details z p ∧ (x, y) ∈ Overview.cellTiles axis grid p z
  cells : ∀ z x y cells, ((z, x, y), cells) ∈ written → (keys cells).Nodup ∧
    ∀ p, p ∈ keys cells ↔
      Shown grid resolutions details z p ∧ (x, y) ∈ Overview.cellTiles axis grid p z
  states : ∀ z x y cells p acc, ((z, x, y), cells) ∈ written → (p, acc) ∈ cells →
    MergeOf (descendants grid details (h3ResForZoom z) p) acc

/-- A parent is in a tile exactly if it is shown at the zoom and covers the tile. -/
theorem exists_placed_iff (law : grid.Lawful) (hz : ∀ z ∈ zooms, z ≤ 31)
    {parents : List (CellIndex × A)}
    (hparents : ∀ p, p ∈ keys parents ↔ p ∈ keys (parentPushes grid resolutions details))
    {z : Nat} {t : Nat × Nat} (hzoom : z ∈ zooms) (hvalid : ValidTile z t.1 t.2) (p : CellIndex) :
    (∃ acc, (Overview.tileKey z t, p, acc) ∈ placed axis grid zooms parents) ↔
      Shown grid resolutions details z p ∧ t ∈ Overview.cellTiles axis grid p z := by
  rw [shown_iff law, ← hparents, mem_keys]
  constructor
  · rintro ⟨acc, h⟩
    obtain ⟨hp, z', hzoom', hres, t', ht', hkey⟩ := mem_placed.mp h
    obtain ⟨rfl, rfl⟩ := tileKey_injective hvalid (valid_of_mem_cellTiles (hz z' hzoom') ht') hkey
    exact ⟨⟨⟨acc, hp⟩, hres⟩, ht'⟩
  · rintro ⟨⟨⟨acc, hp⟩, hres⟩, ht⟩
    exact ⟨acc, mem_placed.mpr ⟨hp, z, hzoom, hres, t, ht, rfl⟩⟩

variable [IsStrictOrderedRing F] [SpillAccumulator A] [LawfulSpill A]

/-- What the second merge hands out, under the coordinates of the tiles. -/
theorem writesOverviews (law : grid.Lawful) (hresolutions : resolutions.Nodup)
    (hzooms : zooms.Nodup) (hz : ∀ z ∈ zooms, z ≤ 31) {parents : List (CellIndex × A)}
    (hsorted : Sorted parents)
    (hholds : Holds MergeOf parents fun p => statesFor p (parentPushes grid resolutions details))
    {tiles : List (CellIndex × TileCells A)} (htiles : Sorted tiles)
    (htilesHold : Holds MergeOf tiles fun k =>
      statesFor k ((placed axis grid zooms parents).map fun x => (x.1, ⟨[x.2]⟩))) :
    WritesOverviews axis grid resolutions zooms details
      (tiles.map fun t => (tileIdToZxy t.1.val, t.2.cells)) := by
  have hparents := BufferedMerge.holds_keys_iff hholds
  have hspec := fun {k t} h => tile_cells law hzooms hz hsorted.nodup
    (htilesHold.present k t h)
  have hkeys : ∀ k, k ∈ keys tiles ↔ ∃ p acc, (k, p, acc) ∈ placed axis grid zooms parents := by
    intro k
    rw [BufferedMerge.holds_keys_iff htilesHold, mem_keys]
    constructor
    · rintro ⟨t, h⟩
      obtain ⟨⟨k', p, acc⟩, hx, heq⟩ := List.mem_map.mp h
      obtain rfl : k' = k := (Prod.ext_iff.mp heq).1
      exact ⟨p, acc, hx⟩
    · rintro ⟨p, acc, hx⟩
      exact ⟨_, List.mem_map_of_mem hx⟩
  have hkey : ∀ k ∈ keys tiles, ∃ z ∈ zooms, ∃ t, ValidTile z t.1 t.2 ∧
      k = Overview.tileKey z t := by
    intro k hk
    obtain ⟨p, acc, h⟩ := (hkeys k).mp hk
    obtain ⟨-, z, hzoom, -, t, ht, rfl⟩ := mem_placed.mp h
    exact ⟨z, hzoom, t, valid_of_mem_cellTiles (hz z hzoom) ht, rfl⟩
  have hmem : ∀ {z x y cells}, ((z, x, y), cells) ∈
      tiles.map (fun t => (tileIdToZxy t.1.val, t.2.cells)) → z ∈ zooms ∧ ValidTile z x y ∧
        (Overview.tileKey z (x, y), ⟨cells⟩) ∈ tiles := by
    intro z x y cells h
    obtain ⟨⟨k, t⟩, ht, heq⟩ := List.mem_map.mp h
    obtain ⟨z', hzoom, t', hvalid, rfl⟩ := hkey k (mem_keys_of_mem ht)
    simp only [tileIdToZxy_tileKey hvalid, Prod.mk.injEq] at heq
    obtain ⟨⟨rfl, rfl, rfl⟩, rfl⟩ := heq
    exact ⟨hzoom, hvalid, ht⟩
  refine ⟨?_, fun z x y => ?_, fun z x y cells h => ?_, fun z x y cells p acc h hp => ?_⟩
  · have hwritten : keys (tiles.map fun t => (tileIdToZxy t.1.val, t.2.cells)) =
        (keys tiles).map fun k => tileIdToZxy k.val := by
      rw [keys, keys, List.map_map, List.map_map]
      rfl
    rw [hwritten]
    refine List.Nodup.map_on (fun k hk k' hk' heq => ?_) htiles.nodup
    obtain ⟨z, -, t, hvalid, rfl⟩ := hkey k hk
    obtain ⟨z', -, t', hvalid', rfl⟩ := hkey k' hk'
    rw [tileIdToZxy_tileKey hvalid, tileIdToZxy_tileKey hvalid', Prod.mk.injEq,
      Prod.mk.injEq] at heq
    obtain ⟨rfl, hx, hy⟩ := heq
    rw [Prod.ext hx hy]
  · constructor
    · intro h
      obtain ⟨cells, h⟩ := mem_keys.mp h
      obtain ⟨hzoom, hvalid, ht⟩ := hmem h
      obtain ⟨p, acc, hplaced⟩ := (hkeys _).mp (mem_keys_of_mem ht)
      exact ⟨hzoom, p, (exists_placed_iff law hz hparents hzoom hvalid p).mp ⟨acc, hplaced⟩⟩
    · rintro ⟨hzoom, p, hshown, ht⟩
      have hvalid := valid_of_mem_cellTiles (hz z hzoom) ht
      obtain ⟨acc, hplaced⟩ :=
        (exists_placed_iff law hz hparents hzoom hvalid p).mpr ⟨hshown, ht⟩
      obtain ⟨t, ht⟩ := mem_keys.mp ((hkeys _).mpr ⟨p, acc, hplaced⟩)
      refine mem_keys.mpr ⟨t.cells, List.mem_map.mpr ⟨_, ht, ?_⟩⟩
      rw [tileIdToZxy_tileKey hvalid]
  · obtain ⟨hzoom, hvalid, ht⟩ := hmem h
    obtain ⟨hnodup, hcells, -⟩ := hspec ht
    exact ⟨hnodup, fun p => (hcells p).trans
      (exists_placed_iff law hz hparents hzoom hvalid p)⟩
  · obtain ⟨hzoom, hvalid, ht⟩ := hmem h
    obtain ⟨-, -, hstates⟩ := hspec ht
    obtain ⟨acc₀, hplaced, hacc⟩ := hstates p acc hp
    obtain ⟨hin, -⟩ := mem_placed.mp hplaced
    have hshown : Shown grid resolutions details z p :=
      ((exists_placed_iff law hz hparents hzoom hvalid p).mp ⟨acc₀, hplaced⟩).1
    have hres := ((shown_iff law).mp hshown).2
    have hmerged := hholds.present p acc₀ hin
    rw [statesFor_parentPushes law hresolutions details (hres ▸ hshown.1), ← hres] at hmerged
    have hlift := MergeOf.lift MergeOf.merging hacc (f := fun _ =>
      descendants grid details (h3ResForZoom z) p) fun x hx => by
        rw [Multiset.mem_singleton.mp hx]
        exact hmerged
    rwa [Multiset.singleton_bind] at hlift

omit [IsStrictOrderedRing F] [LawfulSpill A] in
/-- An overview is one merge after the other. -/
theorem overview_eq {B G : Type} (gz : Gzip) (record : B → CellIndex → B)
    (encode : TileKey → List (CellIndex × A) → List UInt8) (structureBytes : Nat → Nat)
    (budget : Nat) (writer : PmtilesWriter G) (bounds : B) :
    Overview.overview gz axis grid record encode structureBytes budget resolutions zooms details
      writer bounds = (do
        let parents ← BufferedMerge.mergeAll structureBytes budget
          (parentPushes grid resolutions details)
        let tiles ← BufferedMerge.mergeAll structureBytes budget
          ((placed axis grid zooms parents).map fun x => (x.1, (⟨[x.2]⟩ : TileCells A)))
        return ((tiles.map fun t => (tileIdToZxy t.1.val, t.2.cells)).foldl
            (fun w t => w.addTile gz t.1.1 t.1.2.1 t.1.2.2 (encode t.1 t.2)) writer,
          Overview.recordBounds record grid zooms bounds parents)) := by
  have htiles : ∀ parents : List (CellIndex × A),
      Overview.tiles axis grid structureBytes budget zooms parents =
        BufferedMerge.mergeAll structureBytes budget
          ((placed axis grid zooms parents).map fun x => (x.1, ⟨[x.2]⟩)) := by
    intro parents
    rw [← tilePushes_eq, BufferedMerge.mergeAll, BufferedMerge.pushAll, Loops.foldlM_flatMap]
    rfl
  have hparents : (Overview.new A structureBytes budget resolutions).pushAll grid details =
      ((BufferedMerge.new A structureBytes budget).pushAll
        (parentPushes grid resolutions details)).map fun parents => ⟨parents, resolutions⟩ :=
    Overview.pushAll_eq grid details _
  rw [Overview.overview, hparents, BufferedMerge.mergeAll]
  cases (BufferedMerge.new A structureBytes budget).pushAll
      (parentPushes grid resolutions details) with
  | error e => rfl
  | ok merged =>
      simp only [Except.map, bind, Except.bind, Overview.write, htiles, List.foldl_map]

/-- Overviews are complete, whatever the budget and whenever the maps spill. -/
theorem overviews_complete {B G : Type} (gz : Gzip) (axis : MercatorAxis F) {grid : CellGrid F}
    (law : grid.Lawful) (record : B → CellIndex → B)
    (encode : TileKey → List (CellIndex × A) → List UInt8) (structureBytes : Nat → Nat)
    (budget : Nat) {resolutions zooms : List Nat} (hresolutions : resolutions.Nodup)
    (hzooms : zooms.Nodup) (hz : ∀ z ∈ zooms, z ≤ 31) (details : List (CellIndex × A))
    (writer : PmtilesWriter G) (bounds : B) :
    let out := Overview.overview gz axis grid record encode structureBytes budget resolutions zooms
      details writer bounds
    (∀ pushes : List (CellIndex × A),
      BufferedMerge.Complete pushes (BufferedMerge.mergeAll structureBytes budget pushes)) ∧
    (∀ pushes : List (CellIndex × TileCells A),
      BufferedMerge.Complete pushes (BufferedMerge.mergeAll structureBytes budget pushes) ∧
      ∀ records, BufferedMerge.mergeAll structureBytes budget pushes = .ok records →
        ∀ k t, (k, t) ∈ records → TileCells.Entries
          ((statesFor k pushes).bind fun t => (t.cells : Multiset (CellIndex × A))) t) ∧
    (∀ result, out = .ok result → ∃ written,
      WritesOverviews axis grid resolutions zooms details written ∧
      result.1 = written.foldl
        (fun w t => w.addTile gz t.1.1 t.1.2.1 t.1.2.2 (encode t.1 t.2)) writer) ∧
    (∀ e : SpillError, out = .error e → e.isLimit) ∧
    (Ample BuiltFrom noLimit (fun p => statesFor p (parentPushes grid resolutions details)) →
      (parentPushes grid resolutions details).length + 1 < 2 ^ 64 →
      (∀ parents, BufferedMerge.mergeAll structureBytes budget
          (parentPushes grid resolutions details) = .ok parents →
        Ample BuiltFrom noLimit (fun k => statesFor k ((placed axis grid zooms parents).map fun x =>
          (x.1, (⟨[x.2]⟩ : TileCells A)))) ∧
        (placed axis grid zooms parents).length + 1 < 2 ^ 64) →
      ∃ result, out = .ok result) := by
  intro out
  refine ⟨BufferedMerge.mergeAll_complete structureBytes budget, fun pushes => ⟨
    BufferedMerge.mergeAll_complete structureBytes budget pushes, fun records hok k t ht => ?_⟩, ?_⟩
  · have hmerged := ((BufferedMerge.mergeAll_complete structureBytes budget pushes).records
      records hok).2.2 k t ht
    exact MergeOf.lift TileCells.entries_merging hmerged fun x _ => TileCells.entries_self x
  rw [show out = _ from overview_eq gz record encode structureBytes budget writer bounds]
  rcases BufferedMerge.mergeAll_cases structureBytes budget
    (parentPushes grid resolutions details) with
    ⟨parents, hok, hsorted, hholds⟩ | ⟨e, he, hfail, hno⟩
  · rw [hok]
    simp only [bind, Except.bind]
    rcases BufferedMerge.mergeAll_cases structureBytes budget
      ((placed axis grid zooms parents).map fun x => (x.1, (⟨[x.2]⟩ : TileCells A))) with
      ⟨tiles, hok', hsorted', hholds'⟩ | ⟨e, he, hfail, hno⟩
    · rw [hok']
      refine ⟨fun result heq => ?_, fun e heq => (by cases heq), fun _ _ _ => ⟨_, rfl⟩⟩
      cases heq
      exact ⟨_, writesOverviews law hresolutions hzooms hz hsorted
        (hholds.imp fun _ _ => BuiltFrom.mergeOf) hsorted' (hholds'.imp fun _ _ => BuiltFrom.mergeOf), rfl⟩
    · rw [hfail]
      refine ⟨fun result heq => (by cases heq), fun e' heq => ?_, fun _ _ hroom => ?_⟩
      · cases heq
        exact he
      · have hroom := hroom parents rfl
        rw [List.length_map] at hno
        exact absurd hroom hno
  · rw [hfail]
    refine ⟨fun result heq => (by cases heq), fun e' heq => ?_, fun hample hcount _ => ?_⟩
    · cases heq
      exact he
    · exact absurd ⟨hample, hcount⟩ hno

end Contents

end Tiles

/-- Children of the base cell 20, with one outline for all. -/
def baseCellGrid : CellGrid ℚ where
  resolution := fun c => if c = 0x8029fffffffffff then 0 else 1
  ancestor := fun _ res => if res = 0 then some 0x8029fffffffffff else none
  center := fun _ => ⟨37, -122⟩
  boundary := fun _ => [⟨48, -122⟩, ⟨43, -108⟩, ⟨31, -110⟩, ⟨26, -122⟩, ⟨31, -134⟩, ⟨43, -136⟩]

theorem baseCellGrid_lawful : baseCellGrid.Lawful where
  resolution_ancestor := fun {c p res} h => by
    unfold baseCellGrid at h ⊢
    simp only at h
    split at h
    next hres =>
      cases h
      exact hres.symm
    next => cases h
  boundary_le := fun _ => Nat.le_of_ble_eq_true rfl

theorem placed_length_le (parents : List (CellIndex × A)) :
    (placed linearAxis baseCellGrid [0, 1] parents).length ≤ parents.length * 5 := by
  have hone : ∀ p : CellIndex × A, ([0, 1].flatMap fun z =>
      if h3ResForZoom z = baseCellGrid.resolution p.1 then
        (Overview.cellTiles linearAxis baseCellGrid p.1 z).map fun t => (Overview.tileKey z t, p)
      else []).length ≤ 5 := by
    intro p
    -- The outline is the same for every cell.
    have hzero : (Overview.cellTiles linearAxis baseCellGrid 0 0).length ≤ 1 := by decide +kernel
    have hfirst : (Overview.cellTiles linearAxis baseCellGrid 0 1).length ≤ 4 := by decide +kernel
    change (Overview.cellTiles linearAxis baseCellGrid p.1 0).length ≤ 1 at hzero
    change (Overview.cellTiles linearAxis baseCellGrid p.1 1).length ≤ 4 at hfirst
    simp only [List.flatMap_cons, List.flatMap_nil, List.append_nil, List.length_append]
    split <;> split <;> simp only [List.length_map, List.length_nil] <;> omega
  induction parents with
  | nil => exact Nat.le_refl _
  | cons p parents ih =>
      rw [placed] at ih ⊢
      rw [List.flatMap_cons, List.length_append, List.length_cons, Nat.add_mul]
      have := hone p
      omega

/-- Cells under one parent. -/
def siblings : List (CellIndex × CategoricalAccumulator Nat) :=
  [(0x81283ffffffffff, countedClasses 1), (0x81287ffffffffff, countedClasses 3)]

/-- The classes that the siblings and what is merged of them can have. -/
def siblingClasses : Finset Int64 := (Finset.range 4).image Int64.ofNat

theorem siblingClasses_card_le : siblingClasses.card ≤ 4 := Finset.card_image_le

theorem capacity_start_le : HashTable.capacityFor 32 ≤ 224 :=
  HashTable.capacityFor_le (.inr (.inr ⟨5, rfl⟩)) (by decide)

theorem capacity_siblings_le : HashTable.capacityFor siblingClasses.card ≤ 224 :=
  (HashTable.capacityFor_mono (siblingClasses_card_le.trans (by decide))).trans capacity_start_le

theorem siblings_bounded (p : CellIndex) :
    ∀ acc ∈ statesFor p (parentPushes baseCellGrid [0] siblings),
      acc.Bounded siblingClasses 224 := by
  intro acc hacc
  have hin : (p, acc) ∈ [((0x8029fffffffffff : CellIndex), countedClasses 1),
      (0x8029fffffffffff, countedClasses 3)] := mem_statesFor.mp hacc
  simp only [List.mem_cons, Prod.mk.injEq, List.not_mem_nil, or_false] at hin
  rcases hin with ⟨-, rfl⟩ | ⟨-, rfl⟩ <;> exact countedClasses_bounded (by decide)

theorem heapBytes_le_of_bounded {acc : CategoricalAccumulator Nat}
    (h : acc.Bounded siblingClasses 224) :
    heapBytes acc ≤ 10000 ∧ LawfulSpill.Readable noLimit acc := by
  have hmemory : acc.memoryBytes ≤ 8192 := memoryBytes_le_of_capacity h.capacity
  refine ⟨?_, h.uniqueClasses_le.trans (siblingClasses_card_le.trans (by decide))⟩
  rw [CategoricalAccumulator.memoryBytes] at hmemory
  exact (Nat.le_add_left _ _).trans (hmemory.trans (by decide))

/-- The siblings have one parent, and what is merged of them is as small as they are. -/
theorem parents_of_siblings {parents : List (CellIndex × CategoricalAccumulator Nat)}
    (h : BufferedMerge.mergeAll (fun _ => 0) 1 (parentPushes baseCellGrid [0] siblings) =
      .ok parents) :
    parents.length ≤ 1 ∧ ∀ p ∈ parents, p.2.Bounded siblingClasses 224 := by
  rcases BufferedMerge.mergeAll_cases (fun _ => 0) 1 (parentPushes baseCellGrid [0] siblings) with
    ⟨records, hrecords, hsorted, hholds⟩ | ⟨e, -, hfail, -⟩
  · obtain rfl : parents = records := Except.ok.inj (h.symm.trans hrecords)
    refine ⟨?_, fun p hp => (hholds.present p.1 p.2 hp).keeps
      (fun _ _ => CategoricalAccumulator.Bounded.merge capacity_start_le capacity_siblings_le)
      (fun _ => CategoricalAccumulator.Bounded.rebuilt) (siblings_bounded p.1)⟩
    have hkeys : ∀ k ∈ keys parents, k = 0x8029fffffffffff := by
      intro k hk
      have hmerged := hholds.imp fun _ _ => BuiltFrom.mergeOf
      have hin := (BufferedMerge.holds_keys_iff hmerged k).mp hk
      simpa [parentPushes, siblings, baseCellGrid] using hin
    -- The keys of sorted records are apart.
    rcases parents with _ | ⟨p, _ | ⟨q, parents⟩⟩
    · exact Nat.zero_le _
    · exact Nat.le_refl _
    · have hlt := hsorted.lt_of_mem (List.mem_cons_self : q.1 ∈ keys (q :: parents))
      rw [hkeys p.1 (by simp), hkeys q.1 (by simp)] at hlt
      exact absurd hlt (lt_irrefl _)
  · rw [h] at hfail
    cases hfail

/-- A tile is pushed no more cells than are placed at all. -/
theorem cells_pushed_le (k : Fin (2 ^ 64)) (cells : List (Fin (2 ^ 64) × CellIndex × A)) :
    ((statesFor k (cells.map fun x => (x.1, (⟨[x.2]⟩ : TileCells A)))).map
      fun t => t.cells.length).sum ≤ cells.length := by
  have hone : ∀ n ∈ (statesFor k (cells.map fun x => (x.1, (⟨[x.2]⟩ : TileCells A)))).map
      fun t => t.cells.length, n ≤ 1 := by
    intro n hn
    obtain ⟨t, ht, rfl⟩ := Multiset.mem_map.mp hn
    obtain ⟨x, -, heq⟩ := List.mem_map.mp (mem_statesFor.mp ht)
    cases heq
    exact Nat.le_refl _
  have hsum := Multiset.sum_le_card_nsmul _ 1 hone
  have hcount := List.length_filter_le (fun x => decide (x.1 = k))
    (cells.map fun x => (x.1, (⟨[x.2]⟩ : TileCells A)))
  rw [Multiset.card_map, statesFor, Multiset.coe_card, List.length_map, smul_eq_mul,
    Nat.mul_one] at hsum
  rw [List.length_map] at hcount
  exact hsum.trans hcount

/-- There is room for the tiles of the parent. -/
theorem tiles_of_siblings_ample {parents : List (CellIndex × CategoricalAccumulator Nat)}
    (hfew : parents.length ≤ 1) (hbounded : ∀ p ∈ parents, p.2.Bounded siblingClasses 224) :
    Ample BuiltFrom noLimit fun k => statesFor k
      ((placed linearAxis baseCellGrid [0, 1] parents).map fun x =>
        (x.1, (⟨[x.2]⟩ : TileCells (CategoricalAccumulator Nat)))) := by
  refine TileCells.ample_of_length (fun _ => CategoricalAccumulator.Bounded.rebuilt)
    (fun _ => heapBytes_le_of_bounded) ?_ ?_
  · intro k t ht c hc
    obtain ⟨x, hx, heq⟩ := List.mem_map.mp (mem_statesFor.mp ht)
    cases heq
    rw [List.mem_singleton.mp hc]
    exact hbounded _ (mem_placed.mp hx).1
  · intro k
    have hsize : TileCells.sizeOfCell (CategoricalAccumulator Nat) + 10000 ≤ 2 ^ 32 := by decide
    have hall := Nat.mul_le_mul ((cells_pushed_le k _).trans ((placed_length_le parents).trans
      (Nat.mul_le_mul_right 5 hfew))) hsize
    refine (Nat.add_le_add_left hall 24).trans ?_
    decide

/-- Two cells under one parent, with a budget that makes every push spill. -/
theorem overviews_complete_two :
    let details : List (CellIndex × CategoricalAccumulator Nat) :=
      [(0x81283ffffffffff, countedClasses 1), (0x81287ffffffffff, countedClasses 3)]
    let writer : PmtilesWriter Unit := .new 0 1 ⟨(), (), (), ()⟩ []
    let out := Overview.overview plainGzip linearAxis baseCellGrid
      (fun bounds cell => cell :: bounds) (fun _ _ => []) (fun _ => 0) 1 [0] [0, 1] details writer []
    ∃ result, out = .ok result ∧
      ∃ written, WritesOverviews linearAxis baseCellGrid [0] [0, 1] details written ∧
        result.1 =
          written.foldl (fun w t => w.addTile plainGzip t.1.1 t.1.2.1 t.1.2.2 []) writer := by
  intro details writer out
  obtain ⟨-, -, hok, -, hroom⟩ := overviews_complete plainGzip linearAxis baseCellGrid_lawful
    (fun bounds cell => cell :: bounds) (fun _ _ => []) (fun _ => 0) 1
    (by decide : ([0] : List Nat).Nodup) (by decide : ([0, 1] : List Nat).Nodup) (by decide) siblings
    writer []
  have hparents : Ample BuiltFrom noLimit fun p =>
      statesFor p (parentPushes baseCellGrid [0] siblings) :=
    CategoricalAccumulator.ample_of_bounded capacity_start_le (by decide)
      (fun _ => ⟨capacity_siblings_le, siblingClasses_card_le.trans (by decide)⟩) siblings_bounded
  have hrun : ∃ result, out = .ok result := by
    refine hroom hparents (by decide) fun parents hmerged => ?_
    obtain ⟨hfew, hbounded⟩ := parents_of_siblings hmerged
    have hplaced := placed_length_le parents
    exact ⟨tiles_of_siblings_ample hfew hbounded, by omega⟩
  obtain ⟨result, hresult⟩ := hrun
  exact ⟨result, hresult, hok result hresult⟩

end RasterH3.Pmtiles
