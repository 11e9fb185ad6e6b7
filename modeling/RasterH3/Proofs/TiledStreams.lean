import RasterH3.Pmtiles.StreamTiler
import RasterH3.Proofs.Draws
import RasterH3.Proofs.OverviewTiles
import RasterH3.Proofs.StreamHorizon
import RasterH3.Proofs.TileEviction

/-!
# A tiled stream is the tiles of the batch result

A tile may be written once no cell reaches it any more, and the tiling loop only knows the
horizon that came with a page. What comes after that page has its southern bound at the
horizon or south of it (`Bounds`), wherever the page waits in the meantime: in the hand of
the draining thread, in the channel, or in the loop. So the margin has to cover what a cell
reaches above its southern bound, and then no tile is opened again after it was written
(`TilerHolds.passed`).

The southern bound is not the southern end of a cell. It lets every edge bow out by half its
length, and counts degrees of longitude as if they were as long as those of latitude, so
that it falls behind the nearer the south pole is. Whether the margin covers that is a
condition (`Fits`), and so is that no cell lies in the last row from beyond the Mercator
limit.

The loop is followed with two lists beside it, every batch there has been and every cell the
stream has emitted. A batch adds its features to the tiles it covers and evicts up to its
horizon; what the stream may still emit, and what is on the way, covers none of the tiles
that have gone (`passed_batchOps`, `le_horizon_of_fits`). A step of a thread moves a batch
on or draws a page, and only the second changes the log. When the loop ends, the tiles that
are open are flushed, the overviews are built from the details that were collected, and the
archive has every cell of the batch result in every tile it covers
(`tiled_stream_is_batch_result`).
-/

namespace RasterH3.Pmtiles

open Agg AccumulatorMerge SpillAccumulator Keyed TilePyramidAccumulator

/-! ## Tiles that are passed -/

section Passed

variable {F P : Type} [Field F] [LinearOrder F] [IsStrictOrderedRing F] [FloorRing F]

/-- What is added later covers no tile that an eviction has written. -/
def Passed (axis : MercatorAxis F) (safetyMargin : F) : TileOp F P → TileOp F P → Prop
  | .evict latHorizon, .add f =>
      ∀ k ∈ coverage axis f, tileSouth axis k - safetyMargin ≤ latHorizon
  | _, _ => True

omit [IsStrictOrderedRing F] in
theorem once_of_passed {axis : MercatorAxis F} {safetyMargin : F} {ops : List (TileOp F P)}
    (h : ops.Pairwise (Passed axis safetyMargin)) :
    (Keyed.keys (writtenTiles axis safetyMargin ops)).Nodup := by
  induction ops using List.reverseRecOn with
  | nil => exact List.nodup_nil
  | append_singleton ops op ih =>
      obtain ⟨hops, -, hlast⟩ := List.pairwise_append.mp h
      have ih := ih hops
      have hreached := reached axis safetyMargin ops
      rw [writtenTiles] at ih ⊢
      rw [Tiling.run_snoc]
      cases op with
      | evict latHorizon =>
          exact ((flushAll_evict hreached.tidy latHorizon).map Prod.fst).nodup_iff.mpr ih
      | add f =>
          obtain ⟨htidy, -, -, -, hmem⟩ := foldl_addToTile f (coverage axis f) hreached.tidy
          rw [Tiling.flushAll, Keyed.keys_append, List.nodup_append'] at ih ⊢
          refine ⟨ih.1, htidy.nodup, fun k hw hb => ?_⟩
          rcases (hmem k).mp hb with hb | hk
          · exact ih.2.2 hw hb
          · -- The tile was written by an eviction, and that has passed.
            obtain ⟨pre, latHorizon, post, hsplit, -, hlt⟩ := hreached.closed k hw
            have hevict : TileOp.evict latHorizon ∈ ops := by
              rw [hsplit]
              exact List.mem_append_right _ List.mem_cons_self
            exact absurd hlt (not_lt.mpr (hlast _ hevict _ (List.mem_singleton_self _) k hk))

/-- A covered tile ends south of one of the feature's points, if these end at the Mercator
limit. -/
theorem tileSouth_le_of_mem_coverage {axis : MercatorAxis F} {f : Feature F P} {k : TileKey}
    (hk : k ∈ coverage axis f) (hlimit : ∀ p ∈ f.center :: f.vertices, axis.toLat 1 ≤ p.lat) :
    ∃ p ∈ f.center :: f.vertices, tileSouth axis k ≤ p.lat := by
  obtain ⟨-, hrows, p, hp, hrow⟩ := row_of_mem_coverage hk
  refine ⟨p, hp, ?_⟩
  by_cases hlast : k.2.2 + 1 = 2 ^ k.1
  · have hcast : (k.2.2 : F) + 1 = 2 ^ k.1 := by exact_mod_cast hlast
    rw [tileSouth, hcast, div_self (by positivity)]
    exact hlimit p hp
  · exact (tileSouth_lt hrow (by omega)).le

end Passed

/-! ## What a batch becomes -/

section Batches

variable {A L C F P : Type} {n : Nat} [LinearOrder L] [Field F] [LinearOrder F]

namespace Tiler

variable (t : Tiler A L C F P n)

def hexOps (r : Record A) : List (TileOp F P) := (t.features r).map .add

def batchOps (batch : StreamBatch A L) : List (TileOp F P) :=
  (t.prepare batch.records).flatMap t.hexOps ++ [.evict (t.degrees batch.latHorizon)]

/-- The features of some records with the tiles they cover. -/
def shown [FloorRing F] (records : List (Record A)) : List (Feature F P × TileKey) :=
  (t.prepare records).flatMap fun r =>
    (t.features r).flatMap fun f => (coverage t.axis f).map fun k => (f, k)

/-- What the overviews get of prepared records. -/
def coarse (records : List (Record A)) : List (CellIndex × A) :=
  (records.filter fun r => r.resolution = t.minRes).map fun r => (r.h3Index, r.accumulator)

def details (records : List (Record A)) : List (CellIndex × A) := t.coarse (t.prepare records)

end Tiler

def rowsOf (batches : List (StreamBatch A L)) : List (Record A) := batches.flatMap (·.records)

/-- The cell does not reach beyond the Mercator limit in the south, and no further above its
southern bound than the margin. -/
structure Fits (t : Tiler A L C F P n) (cell : CellIndex) : Prop where
  limit : ∀ p ∈ t.grid.center cell :: t.grid.boundary cell, t.axis.toLat 1 ≤ p.lat
  margin : ∀ p ∈ t.grid.center cell :: t.grid.boundary cell,
    p.lat ≤ t.degrees (t.setup.h3.southLat cell) + t.safetyMargin

/-- Every record is in every tile it covers at its own zooms, no tile is there twice, and none
without a record. -/
structure Tiled [FloorRing F] (t : Tiler A L C F P n) (records : List (Record A))
    (tiles : List (TileKey × MvtLayer F P)) : Prop where
  once : (Keyed.keys tiles).Nodup
  complete : (pairs tiles).Perm (t.shown records)
  shown : ∀ k ∈ Keyed.keys tiles, ∃ f, (f, k) ∈ t.shown records

variable {t : Tiler A L C F P n}

theorem minRes_le (t : Tiler A L C F P n) (i : Fin n) : t.minRes ≤ t.setup.resolutions i := by
  have hmem : t.setup.resolutions i ∈ List.ofFn t.setup.resolutions := List.mem_ofFn.mpr ⟨i, rfl⟩
  rw [Tiler.minRes]
  cases hmin : (List.ofFn t.setup.resolutions).min? with
  | none =>
      rw [List.min?_eq_none_iff.mp hmin] at hmem
      cases hmem
  | some m => exact (List.le_min?_iff hmin).mp le_rfl _ hmem

theorem mem_coarseResList {res : Nat} (h : res ∈ t.coarseResList) :
    res < t.minRes := by
  rw [Tiler.coarseResList, List.mem_dedup, List.mem_insertionSort] at h
  exact of_decide_eq_true (List.mem_filter.mp h).2

theorem foldl_standardZooms_le (res : Nat) : (standardZooms res).foldl max 0 ≤ 24 := by
  unfold standardZooms
  split <;> decide

theorem le_of_mem_zoomsForH3Res {res minRes zoom : Nat} (h : zoom ∈ zoomsForH3Res res minRes) :
    zoom ≤ 24 := by
  rw [zoomsForH3Res] at h
  split at h
  next =>
    have hle := foldl_standardZooms_le res
    rw [List.mem_range] at h
    omega
  next =>
    have hall : ∀ zoom ∈ standardZooms res, zoom ≤ 24 := by
      unfold standardZooms
      split <;> decide
    exact hall zoom h

theorem minResZooms_eq (t : Tiler A L C F P n) :
    t.minResZooms = List.range ((standardZooms t.minRes).foldl max 0 + 1) := by
  rw [Tiler.minResZooms, zoomsForH3Res, if_pos rfl]

theorem mem_batchOps_evict {batch : StreamBatch A L} {latHorizon : F}
    (h : TileOp.evict latHorizon ∈ t.batchOps batch) : latHorizon = t.degrees batch.latHorizon := by
  rcases List.mem_append.mp h with h | h
  · obtain ⟨r, -, h⟩ := List.mem_flatMap.mp h
    obtain ⟨f, -, heq⟩ := List.mem_map.mp h
    cases heq
  · cases List.mem_singleton.mp h
    rfl

theorem mem_batchOps_add {batch : StreamBatch A L} {f : Feature F P}
    (h : TileOp.add f ∈ t.batchOps batch) : ∃ r ∈ batch.records, f ∈ t.features r := by
  rcases List.mem_append.mp h with h | h
  · obtain ⟨r, hr, h⟩ := List.mem_flatMap.mp h
    obtain ⟨f', hf, heq⟩ := List.mem_map.mp h
    cases heq
    exact ⟨r, List.mem_of_mem_filter hr, hf⟩
  · cases List.mem_singleton.mp h

variable [FloorRing F]

/-- What a batch evicts is written after its own cells. -/
theorem passed_batchOps (t : Tiler A L C F P n) (batch : StreamBatch A L) :
    (t.batchOps batch).Pairwise (Passed t.axis t.safetyMargin) := by
  have hadds : ∀ op ∈ (t.prepare batch.records).flatMap t.hexOps, ∃ f, op = TileOp.add f := by
    intro op hop
    obtain ⟨r, -, hop⟩ := List.mem_flatMap.mp hop
    obtain ⟨f, -, rfl⟩ := List.mem_map.mp hop
    exact ⟨f, rfl⟩
  refine List.pairwise_append.mpr ⟨List.pairwise_of_forall_mem_list fun op hop op' _ => ?_,
    List.pairwise_singleton _ _, fun op hop op' _ => ?_⟩
  · obtain ⟨f, rfl⟩ := hadds op hop
    trivial
  · obtain ⟨f, rfl⟩ := hadds op hop
    trivial

theorem produced_batchOps (t : Tiler A L C F P n) (batches : List (StreamBatch A L)) :
    produced t.axis (batches.flatMap t.batchOps) = t.shown (rowsOf batches) := by
  have hhexes : ∀ records : List (Record A), produced t.axis (records.flatMap t.hexOps) =
      records.flatMap fun r =>
        (t.features r).flatMap fun f => (coverage t.axis f).map fun k => (f, k) := by
    intro records
    rw [produced, List.flatMap_assoc]
    refine List.flatMap_congr fun r _ => ?_
    rw [Tiler.hexOps, List.flatMap_map]
  induction batches with
  | nil => rfl
  | cons batch batches ih =>
      have hrows : t.prepare (rowsOf (batch :: batches)) =
          t.prepare batch.records ++ t.prepare (rowsOf batches) := by
        rw [rowsOf, List.flatMap_cons, Tiler.prepare, List.filter_append]
        rfl
      rw [Tiler.shown, hrows, List.flatMap_append, List.flatMap_cons, produced,
        List.flatMap_append, Tiler.batchOps, List.flatMap_append, List.flatMap_singleton,
        List.append_nil, ← hhexes]
      exact congrArg₂ _ rfl ih

theorem mem_shown {records : List (Record A)} {f : Feature F P} {k : TileKey} :
    (f, k) ∈ t.shown records ↔
      ∃ r ∈ t.prepare records, f ∈ t.features r ∧ k ∈ coverage t.axis f := by
  simp only [Tiler.shown, List.mem_flatMap, List.mem_map, Prod.mk.injEq]
  constructor
  · rintro ⟨r, hr, f, hf, k, hk, rfl, rfl⟩
    exact ⟨r, hr, hf, hk⟩
  · rintro ⟨r, hr, hf, hk⟩
    exact ⟨r, hr, f, hf, k, hk, rfl, rfl⟩

/-- A tile of the records' own zooms shows no coarser resolution than the scan has. -/
theorem Tiled.minRes_le_of_mem_keys {own : CellIndex → Bool} {cells : List (Emitted A n)}
    {tiles : List (TileKey × MvtLayer F P)} (h : Tiled t (finalsOf t.setup own cells) tiles)
    {k : TileKey} (hk : k ∈ Keyed.keys tiles) : t.minRes ≤ h3ResForZoom k.1 := by
  obtain ⟨f, hf⟩ := h.shown k hk
  obtain ⟨r, hr, hf, hcover⟩ := mem_shown.mp hf
  obtain ⟨e, -, rfl⟩ := List.mem_map.mp (List.mem_of_mem_filter hr)
  obtain ⟨zoom, hzoom, rfl⟩ := List.mem_map.mp hf
  rw [(row_of_mem_coverage hcover).1]
  exact (minRes_le t e.1).trans (of_decide_eq_true (List.mem_filter.mp hzoom).2)

/-- A cell that comes after the horizon was read covers no tile that the horizon has passed. -/
theorem le_horizon_of_fits [IsStrictOrderedRing F] {r : Record A} (hfits : Fits t r.h3Index)
    {latHorizon : L} (hsouth : t.setup.h3.southLat r.h3Index ≤ latHorizon) {f : Feature F P}
    (hf : f ∈ t.features r) {k : TileKey} (hk : k ∈ coverage t.axis f) :
    tileSouth t.axis k - t.safetyMargin ≤ t.degrees latHorizon := by
  obtain ⟨zoom, -, rfl⟩ := List.mem_map.mp hf
  obtain ⟨p, hp, hle⟩ := tileSouth_le_of_mem_coverage hk hfits.limit
  have hreach := hfits.margin p hp
  have hmono := t.monotone hsouth
  linarith

end Batches

/-! ## What the loop has done -/

variable {A L C F P : Type} {n : Nat} [SpillAccumulator A] [LinearOrder L] [Field F]
  [LinearOrder F] [FloorRing F] {t : Tiler A L C F P n}

omit [Field F] [LinearOrder F] [FloorRing F] in
theorem Overview.pushAll_append (grid : CellGrid F) (o : Overview A)
    (details details' : List (CellIndex × A)) :
    o.pushAll grid (details ++ details') =
      o.pushAll grid details >>= fun o => o.pushAll grid details' := by
  rw [Overview.pushAll, List.foldlM_append]
  rfl

namespace TilingWork

theorem addHexes_spec {records : List (Record A)} :
    ∀ {work work' : TilingWork A F P}, records.foldlM (addHex t) work = .ok work' →
      work'.tiling = (records.flatMap t.hexOps).foldl (Tiling.step t.axis) work.tiling ∧
        work.coarseParents.pushAll t.grid (t.coarse records) = .ok work'.coarseParents ∧
        work'.totalHexagons = work.totalHexagons + records.length := by
  induction records with
  | nil =>
      intro work work' h
      cases h
      exact ⟨rfl, rfl, rfl⟩
  | cons r records ih =>
      intro work work' h
      rw [List.foldlM_cons] at h
      obtain ⟨mid, hmid, hrest⟩ := Bytes.bind_eq_ok h
      obtain ⟨htiling, hcoarse, htotal⟩ := ih hrest
      obtain ⟨parents, hpush, hmid⟩ := Bytes.bind_eq_ok hmid
      cases hmid
      refine ⟨?_, ?_, ?_⟩
      · rw [htiling, List.flatMap_cons, List.foldl_append, Tiler.hexOps, List.foldl_map]
      · rw [pushCoarse] at hpush
        by_cases hres : r.resolution = t.minRes
        · rw [if_pos hres] at hpush
          rw [Tiler.coarse, List.filter_cons_of_pos (by simpa using hres), List.map_cons,
            Overview.pushAll, List.foldlM_cons, hpush]
          exact hcoarse
        · rw [if_neg hres] at hpush
          cases hpush
          rw [Tiler.coarse, List.filter_cons_of_neg (by simpa using hres)]
          exact hcoarse
      · rw [htotal, List.length_cons, Nat.add_right_comm, Nat.add_assoc]

theorem run_spec {batches : List (StreamBatch A L)} {work : TilingWork A F P}
    (h : batches.foldlM (addBatch t) (.new t) = .ok work) :
    work.tiling = Tiling.run t.axis t.safetyMargin (batches.flatMap t.batchOps) ∧
      (Overview.new A t.structureBytes t.overviewBudget t.coarseResList).pushAll t.grid
        (t.details (rowsOf batches)) = .ok work.coarseParents ∧
      work.totalHexagons = (t.prepare (rowsOf batches)).length := by
  induction batches using List.reverseRecOn generalizing work with
  | nil =>
      cases h
      exact ⟨rfl, rfl, rfl⟩
  | append_singleton batches batch ih =>
      rw [List.foldlM_append] at h
      obtain ⟨mid, hmid, hlast⟩ := Bytes.bind_eq_ok h
      obtain ⟨htiling, hcoarse, htotal⟩ := ih hmid
      rw [List.foldlM_cons] at hlast
      obtain ⟨last, hlast, hnil⟩ := Bytes.bind_eq_ok hlast
      cases hnil
      obtain ⟨hexes, hhexes, hlast⟩ := Bytes.bind_eq_ok hlast
      cases hlast
      obtain ⟨htiling', hcoarse', htotal'⟩ := addHexes_spec hhexes
      have hprepare : t.prepare (rowsOf (batches ++ [batch])) =
          t.prepare (rowsOf batches) ++ t.prepare batch.records := by
        simp only [Tiler.prepare, rowsOf, List.flatMap_append, List.flatMap_singleton,
          List.filter_append]
      refine ⟨?_, ?_, ?_⟩
      · change Tiling.step t.axis hexes.tiling (.evict (t.degrees batch.latHorizon)) = _
        rw [htiling', htiling, List.flatMap_append, List.flatMap_singleton, Tiler.batchOps,
          Tiling.run, Tiling.run, List.foldl_append, List.foldl_append]
        rfl
      · have hdetails : t.details (rowsOf (batches ++ [batch])) =
            t.details (rowsOf batches) ++ t.coarse (t.prepare batch.records) := by
          rw [Tiler.details, hprepare, Tiler.coarse, List.filter_append, List.map_append]
          rfl
        rw [hdetails, Overview.pushAll_append, hcoarse]
        exact hcoarse'
      · rw [hprepare, List.length_append, ← htotal]
        exact htotal'

end TilingWork

/-! ## The threads -/

/-- What the draining thread holds. -/
def Producer.hand : Producer A L → List (StreamBatch A L)
  | .draining | .returned _ => []
  | .sending batch => [batch]

theorem splits_concat {α : Type} {p : List α → α → Prop} {l : List α} {b : α}
    (h : ∀ pre c post, l = pre ++ c :: post → p pre c) (hb : p l b) :
    ∀ pre c post, l ++ [b] = pre ++ c :: post → p pre c := by
  intro pre c post heq
  rcases List.eq_nil_or_concat post with rfl | ⟨post, d, rfl⟩
  · obtain ⟨rfl, hlast⟩ := List.append_inj' heq rfl
    cases hlast
    exact hb
  · rw [List.concat_eq_append, ← List.cons_append, ← List.append_assoc] at heq
    obtain ⟨rfl, -⟩ := List.append_inj' heq rfl
    exact h pre c post rfl

theorem pairwise_of_splits {α : Type} {r : α → α → Prop} {l : List α}
    (h : ∀ pre b post, l = pre ++ b :: post → ∀ c ∈ post, r b c) : l.Pairwise r := by
  induction l with
  | nil => exact .nil
  | cons a l ih =>
      refine .cons (h [] a l rfl) (ih fun pre b post heq => h (a :: pre) b post ?_)
      rw [heq, List.cons_append]

namespace StreamTiler

variable {x : StreamTiler A L C F P n}

omit [SpillAccumulator A] [FloorRing F] in
theorem live_of_draining (h : x.producer = .draining) (error : Option StreamError) :
    x.producer ≠ .returned error := by
  rw [h]
  exact fun hno => by cases hno

omit [SpillAccumulator A] [FloorRing F] in
theorem live_of_sending {batch : StreamBatch A L} (h : x.producer = .sending batch)
    (error : Option StreamError) : x.producer ≠ .returned error := by
  rw [h]
  exact fun hno => by cases hno

omit [SpillAccumulator A] [FloorRing F] in
theorem running_of_receiving (h : x.loop = .receiving) : x.loop ≠ .failed := by
  rw [h]
  exact fun hno => by cases hno

end StreamTiler

open StreamTiler (live_of_draining live_of_sending running_of_receiving)

variable [BoundedOrder L] {X : Type} {R : Multiset X → A → Prop} {items : List (Item A X n)}
  {log : List (Emitted A n)} {done lost : List (StreamBatch A L)}
  {x y : StreamTiler A L C F P n}

/-- Every batch there has been, in order: those that the loop is done with, those on the way,
and one that could not be sent any more. -/
def allBatches (x : StreamTiler A L C F P n) (done lost : List (StreamBatch A L)) :
    List (StreamBatch A L) :=
  done ++ (x.channel ++ x.producer.hand) ++ lost

/-- `log` is what the stream has emitted. -/
structure TilerHolds (R : Multiset X → A → Prop) (t : Tiler A L C F P n)
    (items : List (Item A X n)) (x : StreamTiler A L C F P n) (log : List (Emitted A n))
    (done lost : List (StreamBatch A L)) : Prop where
  work : done.foldlM (TilingWork.addBatch t) (.new t) = .ok x.work
  gone : lost ≠ [] → x.loop = .failed ∧ x.producer = .returned none
  stream : ∃ s, (Streaming R t.setup (fun _ => true) items (rowsOf (allBatches x done lost)) [] s
      log ∧ Ahead t.setup items s log) ∧
    ((∀ error, x.producer ≠ .returned error) → x.stream = s) ∧
    (x.producer = .returned none → x.loop ≠ .failed → s.isFinished = true)
  bounds : ∀ pre batch post, allBatches x done lost = pre ++ batch :: post →
    Bounds R t.setup (fun _ => true) (received items items.length) log (rowsOf (pre ++ [batch])) []
      batch.latHorizon
  archive : ∀ archive, x.loop = .returned archive →
    x.channel = [] ∧ x.producer = .returned none ∧ x.work.finish t = .ok archive

namespace TilerHolds

theorem live (h : TilerHolds R t items x log done lost)
    (hproducer : x.producer ≠ .returned none) : lost = [] := by
  by_contra hlost
  exact hproducer (h.gone hlost).2

theorem sent (h : TilerHolds R t items x log done lost) (hloop : x.loop ≠ .failed) : lost = [] := by
  by_contra hlost
  exact hloop (h.gone hlost).1

theorem not_returned (h : TilerHolds R t items x log done lost)
    (hproducer : x.producer ≠ .returned none) (archive : TiledArchive A F P) :
    x.loop ≠ .returned archive :=
  fun hloop => hproducer (h.archive archive hloop).2.1

/-- A step that moves batches on, and draws none. -/
theorem moved (h : TilerHolds R t items x log done lost) {done' lost' : List (StreamBatch A L)}
    (hsame : allBatches y done' lost' = allBatches x done lost)
    (hwork : done'.foldlM (TilingWork.addBatch t) (.new t) = .ok y.work)
    (hlost : lost' ≠ [] → y.loop = .failed ∧ y.producer = .returned none)
    (hlive : (∀ error, y.producer ≠ .returned error) →
      (∀ error, x.producer ≠ .returned error) ∧ y.stream = x.stream)
    (hended : y.producer = .returned none → y.loop ≠ .failed →
      x.producer = .returned none ∧ x.loop ≠ .failed)
    (harchive : ∀ archive, y.loop = .returned archive →
      y.channel = [] ∧ y.producer = .returned none ∧ y.work.finish t = .ok archive) :
    TilerHolds R t items y log done' lost' := by
  obtain ⟨s, hinv, hstream, hfinished⟩ := h.stream
  refine ⟨hwork, hlost, ⟨s, hsame ▸ hinv, fun hl => ?_, fun hp hl => ?_⟩, hsame ▸ h.bounds,
    harchive⟩
  · obtain ⟨hlx, heq⟩ := hlive hl
    exact heq.trans (hstream hlx)
  · obtain ⟨hpx, hlx⟩ := hended hp hl
    exact hfinished hpx hlx

variable [LawfulSpill A]

theorem drain (hR : Represents R) (hscan : Scan R t.setup items)
    (hcan : t.setup.canEvictEarly = true) (h : TilerHolds R t items x log done lost)
    {page : List (Record A) × List (PartialCell A)} {count : Nat}
    {s : MultiHorizonStreamer A L C n} (hproducer : x.producer = .draining)
    (hdrains : Drains t.setup .drainCompletedInto x.stream 8192 page (.ok count) s) :
    ∃ log', TilerHolds R t items { x with
      stream := s
      producer := if page.1 = [] then .returned none else .sending ⟨page.1, s.publishedHorizon⟩ }
      log' done lost := by
  have hlive := live_of_draining hproducer
  obtain rfl := h.live (hlive none)
  have hidle := h.not_returned (hlive none)
  obtain ⟨s₀, hinv, hstream, -⟩ := h.stream
  obtain rfl := hstream hlive
  have hinvariant : Invariant t.setup fun finals shares s log =>
      Streaming R t.setup (fun _ => true) items finals shares s log ∧ Ahead t.setup items s log :=
    ahead_invariant hR hscan hcan
  obtain ⟨log', hlog, hs, ha⟩ := hinvariant.call hinv hdrains rfl
  -- A scan that is not partitioned has no shares.
  have hnil : page.2 = [] := by
    have hshares := hs.shares
    have hnone : sharesOf t.setup (fun _ => true) log' = [] := by simp [sharesOf]
    rw [hnone, List.nil_append] at hshares
    exact (List.append_eq_nil_iff.mp hshares).1
  rw [hnil, List.append_nil] at hs
  have hold : ∀ pre batch post, allBatches x done [] = pre ++ batch :: post →
      Bounds R t.setup (fun _ => true) (received items items.length) log'
        (rowsOf (pre ++ [batch])) [] batch.latHorizon :=
    fun pre batch post heq => (h.bounds pre batch post heq).mono hlog
  have hbatches : allBatches x done [] = done ++ x.channel := by
    rw [allBatches, hproducer, Producer.hand, List.append_nil, List.append_nil]
  refine ⟨log', ?_⟩
  by_cases hempty : page.1 = []
  · rw [if_pos hempty]
    rw [hempty, List.append_nil] at hs
    have hsame : allBatches ({ x with stream := s, producer := .returned none } :
        StreamTiler A L C F P n) done [] = allBatches x done [] := by
      rw [hbatches, allBatches, Producer.hand, List.append_nil, List.append_nil]
    refine ⟨h.work, fun hno => absurd rfl hno, ⟨s, hsame ▸ ⟨hs, ha⟩, fun hl => ?_, fun _ _ => ?_⟩,
      hsame ▸ hold, fun archive hloop => absurd hloop (hidle archive)⟩
    · exact absurd rfl (hl none)
    · exact hdrains.finished (by decide) rfl hempty hnil
  · rw [if_neg hempty]
    have hsame : allBatches ({ x with
        stream := s, producer := .sending ⟨page.1, s.publishedHorizon⟩ } :
        StreamTiler A L C F P n) done [] =
          allBatches x done [] ++ [⟨page.1, s.publishedHorizon⟩] := by
      rw [hbatches, allBatches, Producer.hand, List.append_nil, List.append_assoc]
    have hrows : rowsOf (allBatches x done [] ++ [⟨page.1, s.publishedHorizon⟩]) =
        rowsOf (allBatches x done []) ++ page.1 := by
      rw [rowsOf, List.flatMap_append, List.flatMap_singleton]
      rfl
    refine ⟨h.work, fun hno => absurd rfl hno, ⟨s, ?_, fun _ => rfl, fun hno => by cases hno⟩, ?_,
      fun archive hloop => absurd hloop (hidle archive)⟩
    · rw [hsame, hrows]
      exact ⟨hs, ha⟩
    · rw [hsame]
      refine splits_concat hold ?_
      rw [hrows]
      exact ha.bounds hR hscan hs

theorem step (hR : Represents R) (hscan : Scan R t.setup items)
    (hcan : t.setup.canEvictEarly = true) (h : TilerHolds R t items x log done lost)
    (hstep : StreamTiler.Step t x y) :
    ∃ log' done' lost', TilerHolds R t items y log' done' lost' := by
  cases hstep with
  | drain hproducer hdrains =>
      obtain ⟨log', h'⟩ := h.drain hR hscan hcan hproducer hdrains
      exact ⟨log', done, lost, h'⟩
  | drainFails hproducer hdrains =>
      have hlive := live_of_draining hproducer none
      refine ⟨log, done, lost, h.moved ?_ h.work (fun hl => absurd (h.live hlive) hl)
        (fun hl => absurd rfl (hl _)) (fun hno => by cases hno)
        fun archive hloop => absurd hloop (h.not_returned hlive archive)⟩
      rw [allBatches, allBatches, hproducer]
      rfl
  | @send batch hproducer hloop hroom =>
      have hlive := live_of_sending hproducer
      obtain rfl := h.live (hlive none)
      refine ⟨log, done, [], h.moved ?_ h.work (fun hno => absurd rfl hno) (fun _ => ⟨hlive, rfl⟩)
        (fun hno => by cases hno)
        fun archive hreturned => absurd hreturned (h.not_returned (hlive none) archive)⟩
      rw [allBatches, allBatches, hproducer]
      simp only [Producer.hand, List.append_nil]
  | @sendFails batch hproducer hloop =>
      have hlive := live_of_sending hproducer none
      obtain rfl := h.live hlive
      refine ⟨log, done, [batch], h.moved ?_ h.work (fun _ => ⟨hloop, rfl⟩)
        (fun hl => absurd rfl (hl _)) (fun _ hno => absurd hloop hno)
        fun archive hreturned => absurd hreturned (h.not_returned hlive archive)⟩
      rw [allBatches, allBatches, hproducer]
      simp only [Producer.hand, List.append_nil, List.append_assoc]
  | @receive batch channel work hloop hchannel hwork =>
      have hrunning := running_of_receiving hloop
      refine ⟨log, done ++ [batch], lost, h.moved ?_ ?_ (fun hl => absurd (h.sent hrunning) hl)
        (fun hl => ⟨hl, rfl⟩) (fun hp hl => ⟨hp, hl⟩) fun archive hreturned => ?_⟩
      · rw [allBatches, allBatches, hchannel]
        simp only [List.append_assoc, List.cons_append, List.nil_append]
      · rw [List.foldlM_append, h.work]
        change List.foldlM (TilingWork.addBatch t) x.work [batch] = .ok work
        rw [List.foldlM_cons, hwork]
        rfl
      · rw [hloop] at hreturned
        cases hreturned
  | finish hloop hchannel hproducer harchive =>
      have hrunning := running_of_receiving hloop
      refine ⟨log, done, lost, h.moved rfl h.work (fun hl => absurd (h.sent hrunning) hl)
        (fun hl => absurd hproducer (hl none)) (fun hp _ => ⟨hp, hrunning⟩)
        fun archive hreturned => ?_⟩
      cases hreturned
      exact ⟨hchannel, hproducer, harchive⟩
  | fails hloop =>
      have hrunning := running_of_receiving hloop
      exact ⟨log, done, lost, h.moved rfl h.work (fun hl => absurd (h.sent hrunning) hl)
        (fun hl => ⟨hl, rfl⟩) (fun _ hno => absurd rfl hno) fun archive hno => by cases hno⟩

end TilerHolds

/-- A page that has been drained, sent and received. -/
theorem StreamTiler.reachable_page {stream s : MultiHorizonStreamer A L C n}
    {page : List (Record A) × List (PartialCell A)} {count : Nat}
    (hpage : Drains t.setup .drainCompletedInto stream 8192 page (.ok count) s)
    (hne : page.1 ≠ []) {work : TilingWork A F P}
    (hwork : TilingWork.addBatch t (.new t) ⟨page.1, s.publishedHorizon⟩ = .ok work) :
    StreamTiler.Reachable t stream ⟨s, .draining, [], work, .receiving⟩ := by
  have hdrain := StreamTiler.Step.drain (x := .initial t stream) rfl hpage
  rw [if_neg hne] at hdrain
  exact .tail (.tail (.tail .refl hdrain) (.send rfl rfl (Nat.succ_pos 3))) (.receive rfl rfl hwork)

/-- A stream of one page. -/
theorem exists_returned {stream s s' : MultiHorizonStreamer A L C n}
    {page page' : List (Record A) × List (PartialCell A)} {count count' : Nat}
    (hpage : Drains t.setup .drainCompletedInto stream 8192 page (.ok count) s)
    (hne : page.1 ≠ [])
    (hlast : Drains t.setup .drainCompletedInto s 8192 page' (.ok count') s')
    (hempty : page'.1 = []) {work : TilingWork A F P}
    (hwork : TilingWork.addBatch t (.new t) ⟨page.1, s.publishedHorizon⟩ = .ok work)
    {archive : TiledArchive A F P} (hfinish : work.finish t = .ok archive) :
    ∃ x, StreamTiler.Reachable t stream x ∧ x.loop = .returned archive := by
  have hreceived := StreamTiler.reachable_page hpage hne hwork
  have hended := StreamTiler.Step.drain (t := t) (x := ⟨s, .draining, [], work, .receiving⟩) rfl
    hlast
  rw [if_pos hempty] at hended
  exact ⟨_, .tail (.tail hreceived hended) (.finish rfl rfl rfl hfinish), rfl⟩

/-! ## What is written -/

section Archive

variable [IsStrictOrderedRing F] [LawfulSpill A]

theorem TilerHolds.passed (hR : Represents R) (hscan : Scan R t.setup items)
    (hfits : ∀ i cell, received items items.length i cell ≠ 0 → Fits t cell)
    (h : TilerHolds R t items x log done lost) :
    (done.flatMap t.batchOps).Pairwise (Passed t.axis t.safetyMargin) := by
  obtain ⟨s, ⟨hs, -⟩, -⟩ := h.stream
  refine List.pairwise_flatMap.mpr ⟨fun batch _ => passed_batchOps t batch, ?_⟩
  refine pairwise_of_splits fun pre batch post hdone later hlater op hop op' hop' => ?_
  cases op with
  | add f => trivial
  | evict latHorizon =>
      cases op' with
      | evict latHorizon' => trivial
      | add f =>
          intro k hk
          obtain rfl := mem_batchOps_evict hop
          obtain ⟨r, hr, hf⟩ := mem_batchOps_add hop'
          have hsplit : allBatches x done lost =
              pre ++ batch :: (post ++ (x.channel ++ x.producer.hand) ++ lost) := by
            rw [allBatches, hdone]
            simp only [List.append_assoc, List.cons_append]
          have hagg : Aggregation R (received items items.length) (log ++ []) := by
            rw [List.append_nil]
            exact hs.aggregation hscan
          -- The record was drained after the horizon of the earlier batch was read.
          have hmem : r ∈ (finalsOf t.setup (fun _ => true) (log ++ [])).drop
              (rowsOf (pre ++ [batch])).length := by
            have hrows : rowsOf (allBatches x done lost) = rowsOf (pre ++ [batch]) ++
                rowsOf (post ++ (x.channel ++ x.producer.hand) ++ lost) := by
              rw [hsplit, List.append_cons, rowsOf, List.flatMap_append]
              rfl
            rw [List.append_nil, ← hs.finals, hrows, List.append_assoc, List.drop_left]
            refine List.mem_append_left _ (List.mem_flatMap.mpr ⟨later, ?_, hr⟩)
            exact List.mem_append_left _ (List.mem_append_left _ hlater)
          have hsouth := h.bounds _ _ _ hsplit [] hagg r (List.mem_append_left _ hmem)
          obtain ⟨e, he, rfl⟩ := List.mem_map.mp (List.mem_of_mem_drop hmem)
          have hne := hR.ne_zero (hagg.whole _ _ _ (List.mem_of_mem_filter he))
          exact le_horizon_of_fits (hfits _ _ hne) hsouth hf hk

/-- The tiles that are written and those that are open, at any time. -/
theorem TilerHolds.tiled (hR : Represents R) (hscan : Scan R t.setup items)
    (hfits : ∀ i cell, received items items.length i cell ≠ 0 → Fits t cell)
    (h : TilerHolds R t items x log done lost) : Tiled t (rowsOf done) x.work.tiling.flushAll := by
  have hwritten := WrittenOnce.of_once (once_of_passed (h.passed hR hscan hfits))
  rw [(TilingWork.run_spec h.work).1]
  refine ⟨hwritten.once, produced_batchOps t done ▸ hwritten.complete, fun k hk => ?_⟩
  rw [Tiling.flushAll, Keyed.keys_append, List.mem_append] at hk
  obtain ⟨f, hf, hcover⟩ := ((reached t.axis t.safetyMargin _).seen k).mp hk
  rw [← produced_batchOps, produced]
  exact ⟨f, List.mem_flatMap.mpr ⟨_, hf, List.mem_map.mpr ⟨k, hcover, rfl⟩⟩⟩

omit [BoundedOrder L] in
/-- What `finish` adds to the tiles of the loop. -/
theorem overviews_of_finish (law : t.grid.Lawful) {work : TilingWork A F P}
    {details : List (CellIndex × A)}
    (hpush : (Overview.new A t.structureBytes t.overviewBudget t.coarseResList).pushAll t.grid
      details = .ok work.coarseParents) {archive : TiledArchive A F P}
    (hfinish : work.finish t = .ok archive) :
    WritesOverviews t.axis t.grid t.coarseResList t.minResZooms details archive.overviews ∧
      archive.evicted = work.tiling.written ∧
      archive.flushed = work.tiling.accumulator.tileBuckets ∧
      archive.totalHexagons = work.totalHexagons := by
  obtain ⟨parents, hparents, hfinish⟩ := Bytes.bind_eq_ok hfinish
  obtain ⟨tiles, htiles, hfinish⟩ := Bytes.bind_eq_ok hfinish
  cases hfinish
  refine ⟨?_, rfl, rfl, rfl⟩
  have hmerged : BufferedMerge.mergeAll t.structureBytes t.overviewBudget
      (parentPushes t.grid t.coarseResList details) = .ok parents := by
    rw [Overview.pushAll_eq] at hpush
    rw [BufferedMerge.mergeAll]
    cases hall : (BufferedMerge.new A t.structureBytes t.overviewBudget).pushAll
        (parentPushes t.grid t.coarseResList details) with
    | error e =>
        rw [Overview.new, hall] at hpush
        cases hpush
    | ok merged =>
        rw [Overview.new, hall] at hpush
        have hsame : (⟨merged, t.coarseResList⟩ : Overview A) = work.coarseParents :=
          Except.ok.inj hpush
        rw [← hsame] at hparents
        exact hparents
  have hplaced : BufferedMerge.mergeAll t.structureBytes t.overviewBudget
      ((placed t.axis t.grid t.minResZooms parents).map fun x => (x.1, (⟨[x.2]⟩ : TileCells A))) =
        .ok tiles := by
    rw [← htiles, ← tilePushes_eq, BufferedMerge.mergeAll, BufferedMerge.pushAll,
      Loops.foldlM_flatMap]
    rfl
  have hzooms := minResZooms_eq t
  have hz : ∀ z ∈ t.minResZooms, z ≤ 31 :=
    fun z hz => (le_of_mem_zoomsForH3Res hz).trans (by decide)
  rcases BufferedMerge.mergeAll_cases t.structureBytes t.overviewBudget
    (parentPushes t.grid t.coarseResList details) with
    ⟨records, hok, hsorted, hholds⟩ | ⟨e, -, hfail, -⟩
  · obtain rfl : parents = records := Except.ok.inj (hmerged.symm.trans hok)
    rcases BufferedMerge.mergeAll_cases t.structureBytes t.overviewBudget
      ((placed t.axis t.grid t.minResZooms parents).map fun x =>
        (x.1, (⟨[x.2]⟩ : TileCells A))) with
      ⟨records, hok', hsorted', hholds'⟩ | ⟨e, -, hfail, -⟩
    · obtain rfl : tiles = records := Except.ok.inj (hplaced.symm.trans hok')
      exact writesOverviews law (List.nodup_dedup _) (hzooms ▸ List.nodup_range) hz hsorted
        (hholds.imp fun _ _ => BuiltFrom.mergeOf) hsorted' (hholds'.imp fun _ _ => BuiltFrom.mergeOf)
    · rw [hplaced] at hfail
      cases hfail
  · rw [hmerged] at hfail
    cases hfail

/-- The tiles that the writer got for some records: their own, and the overviews. -/
structure ArchiveOf (t : Tiler A L C F P n) (records : List (Record A))
    (archive : TiledArchive A F P) : Prop where
  once : archive.keys.Nodup
  details : Tiled t records (archive.evicted ++ archive.flushed)
  overviews : WritesOverviews t.axis t.grid t.coarseResList t.minResZooms (t.details records)
    archive.overviews
  totalHexagons : archive.totalHexagons = (t.prepare records).length

/-- Beside a batch result. -/
structure TilesOfBatch (R : Multiset X → A → Prop) (t : Tiler A L C F P n)
    (total : Fin n → Contents X) (x : StreamTiler A L C F P n) (cells : List (Emitted A n)) :
    Prop where
  aggregation : Aggregation R total cells
  tiled : ∃ records, records <+: finalsOf t.setup (fun _ => true) cells ∧
    Tiled t records x.work.tiling.flushAll
  returned : ∀ archive, x.loop = .returned archive → Complete total cells ∧
    ArchiveOf t (finalsOf t.setup (fun _ => true) cells) archive

theorem TilerHolds.archiveOf (hR : Represents R) (hscan : Scan R t.setup items)
    (law : t.grid.Lawful)
    (hfits : ∀ i cell, received items items.length i cell ≠ 0 → Fits t cell)
    (h : TilerHolds R t items x log done lost) {archive : TiledArchive A F P}
    (hloop : x.loop = .returned archive) : Complete (received items items.length) log ∧
      ArchiveOf t (finalsOf t.setup (fun _ => true) log) archive := by
  obtain ⟨hchannel, hproducer, hfinish⟩ := h.archive archive hloop
  obtain ⟨s, ⟨hs, -⟩, -, hfinished⟩ := h.stream
  have hrunning : x.loop ≠ .failed := by
    rw [hloop]
    exact fun hno => by cases hno
  have hlost := h.sent hrunning
  have hall : allBatches x done lost = done := by
    rw [allBatches, hchannel, hproducer, hlost, Producer.hand, List.append_nil, List.append_nil,
      List.append_nil]
  obtain ⟨hrows, -, hcomplete⟩ := hs.complete (hfinished hproducer hrunning)
  rw [hall] at hrows
  obtain ⟨-, hcoarse, htotal⟩ := TilingWork.run_spec h.work
  have htiled := h.tiled hR hscan hfits
  rw [hrows] at hcoarse htotal htiled
  obtain ⟨hoverviews, hevicted, hflushed, hhexagons⟩ := overviews_of_finish law hcoarse hfinish
  have hsame : archive.evicted ++ archive.flushed = x.work.tiling.flushAll := by
    rw [hevicted, hflushed, Tiling.flushAll]
  refine ⟨hcomplete, ?_, hsame ▸ htiled, hoverviews, hhexagons.trans htotal⟩
  -- The zooms of the overviews show coarser resolutions than all others.
  have hperm : archive.keys.Perm
      (Keyed.keys x.work.tiling.flushAll ++ Keyed.keys archive.overviews) := by
    rw [← hsame, Keyed.keys_append, TiledArchive.keys, List.append_assoc, List.append_assoc]
    exact List.perm_append_comm.append_left _
  refine hperm.nodup_iff.mpr (List.nodup_append'.mpr ⟨htiled.once, hoverviews.once, ?_⟩)
  intro k hdetail hoverview
  obtain ⟨-, p, hshown, -⟩ := (hoverviews.tiles k.1 k.2.1 k.2.2).mp hoverview
  exact absurd (htiled.minRes_le_of_mem_keys hdetail) (not_le.mpr (mem_coarseResList hshown.1))

omit [IsStrictOrderedRing F] [LawfulSpill A] in
theorem tiler_initial (hcan : t.setup.canEvictEarly = true) (compactionBudgetBytes : Option Nat)
    (structureBytes : Fin n → Nat → Nat) (indexBytes : Nat → Nat) :
    TilerHolds R t items (.initial t (.new t.setup false compactionBudgetBytes structureBytes
      indexBytes none (items.map Item.chunk))) [] [] [] where
  work := rfl
  gone := fun hno => absurd rfl hno
  stream := ⟨_, ⟨streaming_new R items ⟨fun _ _ => rfl, fun hsome => by cases hsome⟩
    compactionBudgetBytes structureBytes indexBytes, ahead_new hcan items none
    compactionBudgetBytes structureBytes indexBytes⟩, fun _ => rfl, fun hno => by cases hno⟩
  bounds := fun pre batch post heq => by
    have hnil : allBatches (.initial t (.new t.setup false compactionBudgetBytes structureBytes
      indexBytes none (items.map Item.chunk))) [] [] = [] := rfl
    rw [hnil] at heq
    exact absurd heq.symm (List.append_ne_nil_of_right_ne_nil _ (List.cons_ne_nil _ _))
  archive := fun archive hno => by cases hno

omit [IsStrictOrderedRing F] in
theorem TilerHolds.of_reachable (hR : Represents R) (hscan : Scan R t.setup items)
    (hcan : t.setup.canEvictEarly = true) (compactionBudgetBytes : Option Nat)
    (structureBytes : Fin n → Nat → Nat) (indexBytes : Nat → Nat)
    (hx : StreamTiler.Reachable t (.new t.setup false compactionBudgetBytes structureBytes
      indexBytes none (items.map Item.chunk)) x) :
    ∃ log done lost, TilerHolds R t items x log done lost := by
  induction hx with
  | refl => exact ⟨[], [], [], tiler_initial hcan compactionBudgetBytes structureBytes indexBytes⟩
  | tail _ hstep ih =>
      obtain ⟨log, done, lost, h⟩ := ih
      exact h.step hR hscan hcan hstep

/-- Whatever the threads do, no tile is opened again after it was written, and an archive that
is returned has every cell of the batch result in every tile it covers, and each tile once. -/
theorem tiled_stream_is_batch_result (hR : Represents R) (hscan : Scan R t.setup items)
    (hcan : t.setup.canEvictEarly = true) (law : t.grid.Lawful)
    (hfits : ∀ i cell, received items items.length i cell ≠ 0 → Fits t cell)
    (compactionBudgetBytes : Option Nat) (structureBytes : Fin n → Nat → Nat)
    (indexBytes : Nat → Nat)
    (hx : StreamTiler.Reachable t (.new t.setup false compactionBudgetBytes structureBytes
      indexBytes none (items.map Item.chunk)) x) :
    ∃ cells, TilesOfBatch R t (received items items.length) x cells := by
  obtain ⟨log, done, lost, h⟩ := TilerHolds.of_reachable hR hscan hcan compactionBudgetBytes
    structureBytes indexBytes hx
  obtain ⟨s, ⟨hs, -⟩, -⟩ := h.stream
  refine ⟨log, hs.aggregation hscan, ⟨rowsOf done, ?_, h.tiled hR hscan hfits⟩,
    fun archive hloop => h.archiveOf hR hscan law hfits hloop⟩
  rw [← hs.finals, allBatches, rowsOf, rowsOf, List.append_assoc, List.flatMap_append,
    List.append_assoc]
  exact List.prefix_append _ _

end Archive

/-! ## Two chunks -/

/-- All cells have one outline. -/
def twoChunkTiler : Tiler (CategoricalAccumulator Nat) (Fin 181) Unit ℚ Unit 1 where
  setup := twoChunkSetup
  axis := linearAxis
  grid := { baseCellGrid with
    center := fun _ => ⟨36, -122⟩
    boundary := fun _ => [⟨42, -122⟩, ⟨39, -118⟩, ⟨33, -118⟩, ⟨30, -122⟩, ⟨33, -126⟩,
      ⟨39, -126⟩] }
  three := fun _ => Nat.le_of_ble_eq_true rfl
  properties := fun _ => ()
  degrees := fun lat => (lat.val : ℚ) - 90
  monotone := fun lat lat' h => by
    have hval : (lat.val : ℚ) ≤ lat'.val := by exact_mod_cast h
    exact sub_le_sub_right hval 90
  structureBytes := fun _ => 0
  overviewBudget := 65536

theorem twoChunkTiler_lawful : twoChunkTiler.grid.Lawful where
  resolution_ancestor := fun {c p res} =>
    @CellGrid.Lawful.resolution_ancestor _ _ baseCellGrid_lawful c p res
  boundary_le := fun _ => Nat.le_of_ble_eq_true rfl

theorem southLat_baseGrid (cell : CellIndex) : 119 ≤ baseGrid.southLat cell := by
  unfold baseGrid baseChildren
  simp only [List.lookup_cons, List.lookup_nil]
  repeat' split
  all_goals decide

theorem fits_twoChunkTiler (cell : CellIndex) : Fits twoChunkTiler cell := by
  have hmargin : twoChunkTiler.safetyMargin = 13 := by decide +kernel
  have hsouth : (29 : ℚ) ≤ twoChunkTiler.degrees (twoChunkTiler.setup.h3.southLat cell) := by
    have hle : (119 : ℚ) ≤ ((baseGrid.southLat cell).val : ℚ) := by
      exact_mod_cast southLat_baseGrid cell
    show (29 : ℚ) ≤ ((baseGrid.southLat cell).val : ℚ) - 90
    linarith
  have hlat : ∀ p ∈ twoChunkTiler.grid.center cell :: twoChunkTiler.grid.boundary cell,
      30 ≤ p.lat ∧ p.lat ≤ 42 := by
    intro p hp
    simp only [twoChunkTiler, List.mem_cons, List.not_mem_nil, or_false] at hp
    rcases hp with rfl | rfl | rfl | rfl | rfl | rfl | rfl <;> norm_num
  constructor
  · intro p hp
    have hlimit : twoChunkTiler.axis.toLat 1 ≤ 0 := by decide +kernel
    linarith [(hlat p hp).1]
  · intro p hp
    rw [hmargin]
    linarith [(hlat p hp).2]

/-- Both cells in one page, and a page without cells after it. -/
theorem twoChunks_returned :
    ∃ x : StreamTiler (CategoricalAccumulator Nat) (Fin 181) Unit ℚ Unit 1, ∃ archive,
      StreamTiler.Reachable twoChunkTiler (.new twoChunkSetup false none (fun _ _ => 1024)
        (fun _ => 1024) none (twoChunks.map Item.chunk)) x ∧ x.loop = .returned archive ∧
          archive.totalHexagons = 2 ∧ archive.keys.length ≤ 200 := by
  let stream : MultiHorizonStreamer (CategoricalAccumulator Nat) (Fin 181) Unit 1 :=
    .new twoChunkSetup false none (fun _ _ => 1024) (fun _ => 1024) none (twoChunks.map Item.chunk)
  let first := (stream.advanceUntilCompleted twoChunkSetup 8192 16).2.drainPartitionedInto 8192
  let last := (first.2.advanceUntilCompleted twoChunkSetup 8192 16).2.drainPartitionedInto 8192
  have hfirst : Drains twoChunkSetup .drainCompletedInto stream 8192 first.1 _ _ :=
    .of_rounds 16 rfl (Option.isNone_iff_eq_none.mp (by decide +kernel)) (by decide +kernel)
  have hlast : Drains twoChunkSetup .drainCompletedInto first.2 8192 last.1 _ _ :=
    .of_rounds 16 (Option.isNone_iff_eq_none.mp (by decide +kernel))
      (Option.isNone_iff_eq_none.mp (by decide +kernel)) (by decide +kernel)
  have hbatch : first.1.1 ≠ [] := by decide +kernel
  have hempty : last.1.1 = [] := by decide +kernel
  have hfew : (TilingWork.addBatch twoChunkTiler (.new twoChunkTiler)
      ⟨first.1.1, first.2.publishedHorizon⟩ >>= fun work =>
        work.finish twoChunkTiler).toOption.any
          (fun archive => archive.totalHexagons = 2 ∧ archive.keys.length ≤ 200) = true := by
    decide +kernel
  cases hout : TilingWork.addBatch twoChunkTiler (.new twoChunkTiler)
      ⟨first.1.1, first.2.publishedHorizon⟩ >>= fun work => work.finish twoChunkTiler with
  | error e =>
      rw [hout] at hfew
      cases hfew
  | ok archive =>
      obtain ⟨work, hwork, hfinish⟩ := Bytes.bind_eq_ok hout
      rw [hout] at hfew
      obtain ⟨x, hx, hloop⟩ := exists_returned hfirst hbatch hlast hempty hwork hfinish
      exact ⟨x, archive, hx, hloop, of_decide_eq_true hfew⟩

/-- The archive of the two cells. -/
theorem tiled_stream_is_batch_result_two_chunks :
    ∃ (x : StreamTiler (CategoricalAccumulator Nat) (Fin 181) Unit ℚ Unit 1)
      (archive : TiledArchive (CategoricalAccumulator Nat) ℚ Unit)
      (cells : List (Emitted (CategoricalAccumulator Nat) 1)),
      x.loop = .returned archive ∧ archive.totalHexagons = 2 ∧
        TilesOfBatch MergeOf twoChunkTiler (received twoChunks 2) x cells ∧
        Complete (received twoChunks 2) cells ∧
        ArchiveOf twoChunkTiler (finalsOf twoChunkSetup (fun _ => true) cells) archive := by
  obtain ⟨x, archive, hrun, hloop, htwo, -⟩ := twoChunks_returned
  obtain ⟨cells, hbatch⟩ := tiled_stream_is_batch_result MergeOf.represents scan_twoChunks rfl
    twoChunkTiler_lawful (fun _ cell _ => fits_twoChunkTiler cell) none _ _ hrun
  exact ⟨x, archive, cells, hloop, htwo, hbatch, hbatch.returned archive hloop⟩

end RasterH3.Pmtiles
