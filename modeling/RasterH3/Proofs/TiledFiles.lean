import RasterH3.Proofs.ArchiveRoundTrip
import RasterH3.Proofs.TiledStreams

/-!
# The file of a tiled stream gives back every tile

Two things are known by now. An archive keeps whatever distinct tiles it is given, for a
reader who looks a tile up through the directories; and the tiling loop hands over the batch
result, tile by tile. Here they meet: the tiles the loop gives to the archive are distinct
(`distinct_tiles`), because a layer of a zoom is written once for each of its tiles, and the
overviews have the zooms above.

So what a reader gets for a tile is what the loop has put there, and that is read off the
batch result: the cells that cover the tile at the zooms of their resolutions, the ancestors
that cover it at the zooms above them, and nothing where there is neither (`Serves`). The
statement is about any tile and has these three cases; the third needs that no tile without
a feature was written, which is why a tile that is in the archive has a layer that is not
empty.

The bounds and the metadata of the file are known only when the stream has ended. They stand
in the header and in a section of their own, and do not touch the tiles (`file_eq`). The
bound of 2^64 bytes, and of 4 GiB for a tile, is that of the fields an archive writes its
positions and lengths in.
-/

namespace RasterH3.Pmtiles

open Agg AccumulatorMerge SpillAccumulator Keyed TilePyramidAccumulator
open Raster (Bounds)

variable {A L C F P : Type} {n : Nat} [LinearOrder L] [Field F] [LinearOrder F] [FloorRing F]
  {t : Tiler A L C F P n} {gz : Gzip} {encode : TileEncoder A F P}

/-! ## The tiles of an archive -/

namespace TiledArchive

def layerTile (encode : TileEncoder A F P) (tile : TileKey × MvtLayer F P) : Tile :=
  ⟨tile.1.1, tile.1.2.1, tile.1.2.2, .mvt (encode.layer tile.1 tile.2)⟩

def overviewTile (encode : TileEncoder A F P) (tile : TileKey × List (CellIndex × A)) : Tile :=
  ⟨tile.1.1, tile.1.2.1, tile.1.2.2, .mvt (encode.overview tile.1 tile.2)⟩

def tiles (encode : TileEncoder A F P) (archive : TiledArchive A F P) : List Tile :=
  archive.evicted.map (layerTile encode) ++ archive.overviews.map (overviewTile encode) ++
    archive.flushed.map (layerTile encode)

omit [Field F] [LinearOrder F] [FloorRing F] in
theorem addTo_eq (gz : Gzip) (encode : TileEncoder A F P) (archive : TiledArchive A F P)
    (w : PmtilesWriter F) : archive.addTo gz encode w = addAll gz w (archive.tiles encode) := by
  rw [addTo, addAll, tiles, List.foldl_append, List.foldl_append, List.foldl_map, List.foldl_map,
    List.foldl_map]
  rfl

/-- The bounds and the metadata may as well be known from the start. -/
theorem file_eq (gz : Gzip) (encode : TileEncoder A F P) (archive : TiledArchive A F P)
    (minZoom maxZoom : Nat) (bbox : Bounds F) (metadataJson : List UInt8) :
    archive.file gz encode minZoom maxZoom bbox metadataJson =
      (addAll gz (.new minZoom maxZoom bbox metadataJson) (archive.tiles encode)).finishInto gz := by
  rw [file, addTo_eq, addAll_eq, addAll_eq]
  rfl

omit [Field F] [LinearOrder F] [FloorRing F] in
theorem map_key_tiles (encode : TileEncoder A F P) (archive : TiledArchive A F P) :
    (archive.tiles encode).map Tile.key = archive.keys := by
  rw [tiles, List.map_append, List.map_append, List.map_map, List.map_map, List.map_map]
  rfl

omit [Field F] [LinearOrder F] [FloorRing F] in
theorem mem_keys (archive : TiledArchive A F P) {k : TileKey} : k ∈ archive.keys ↔
    k ∈ Keyed.keys (archive.evicted ++ archive.flushed) ∨ k ∈ Keyed.keys archive.overviews := by
  rw [keys, Keyed.keys_append, List.mem_append, List.mem_append, List.mem_append]
  tauto

omit [Field F] [LinearOrder F] [FloorRing F] in
theorem mem_tiles (archive : TiledArchive A F P) {tile : Tile} : tile ∈ archive.tiles encode ↔
    tile ∈ (archive.evicted ++ archive.flushed).map (layerTile encode) ∨
      tile ∈ archive.overviews.map (overviewTile encode) := by
  rw [tiles, List.map_append, List.mem_append, List.mem_append, List.mem_append]
  tauto

end TiledArchive

/-! ## The layer of a tile -/

section Layer

omit [Field F] [LinearOrder F] [FloorRing F]

theorem mem_pairs {tiles : List (TileKey × MvtLayer F P)} {f : Feature F P} {k : TileKey} :
    (f, k) ∈ pairs tiles ↔ ∃ layer, (k, layer) ∈ tiles ∧ f ∈ layer := by
  rw [pairs, List.mem_flatMap]
  constructor
  · rintro ⟨⟨key, layer⟩, htile, hf⟩
    obtain ⟨f', hf', heq⟩ := List.mem_map.mp hf
    obtain ⟨rfl, rfl⟩ := Prod.mk.inj heq
    exact ⟨layer, htile, hf'⟩
  · rintro ⟨layer, htile, hf⟩
    exact ⟨(k, layer), htile, List.mem_map.mpr ⟨f, hf, rfl⟩⟩

theorem filter_pairs_of_not_mem {tiles : List (TileKey × MvtLayer F P)} {k : TileKey}
    (hk : k ∉ Keyed.keys tiles) : ((pairs tiles).filter fun shown => shown.2 = k) = [] := by
  refine List.filter_eq_nil_iff.mpr fun shown hshown heq => hk ?_
  obtain ⟨layer, htile, -⟩ := mem_pairs.mp hshown
  rw [of_decide_eq_true heq] at htile
  exact mem_keys_of_mem htile

theorem filter_pairs {tiles : List (TileKey × MvtLayer F P)} (hnodup : (Keyed.keys tiles).Nodup)
    {k : TileKey} {layer : MvtLayer F P} (hk : (k, layer) ∈ tiles) :
    ((pairs tiles).filter fun shown => shown.2 = k).map Prod.fst = layer := by
  induction tiles with
  | nil => cases hk
  | cons tile tiles ih =>
      rw [Keyed.keys_cons, List.nodup_cons] at hnodup
      have hcons : pairs (tile :: tiles) = tile.2.map (fun f => (f, tile.1)) ++ pairs tiles :=
        List.flatMap_cons
      rw [hcons, List.filter_append, List.map_append, List.filter_map, List.map_map]
      rcases List.mem_cons.mp hk with rfl | hk
      · rw [filter_pairs_of_not_mem hnodup.1]
        simp [Function.comp_def]
      · have hne : tile.1 ≠ k := by
          rintro rfl
          exact hnodup.1 (mem_keys_of_mem hk)
        rw [ih hnodup.2 hk]
        simp [Function.comp_def, hne]

end Layer

/-- The features of the records that cover the tile. -/
def Tiler.layer (t : Tiler A L C F P n) (records : List (Record A)) (k : TileKey) : MvtLayer F P :=
  ((t.shown records).filter fun shown => shown.2 = k).map Prod.fst

theorem mem_layer {records : List (Record A)} {f : Feature F P} {k : TileKey} :
    f ∈ t.layer records k ↔ (f, k) ∈ t.shown records := by
  rw [Tiler.layer, List.mem_map]
  constructor
  · rintro ⟨⟨f, key⟩, hshown, rfl⟩
    obtain ⟨hshown, heq⟩ := List.mem_filter.mp hshown
    rwa [← of_decide_eq_true heq]
  · exact fun hshown => ⟨(f, k), List.mem_filter.mpr ⟨hshown, decide_eq_true rfl⟩, rfl⟩

theorem valid_of_mem_shown {records : List (Record A)} {f : Feature F P} {k : TileKey}
    (h : (f, k) ∈ t.shown records) : ValidTile k.1 k.2.1 k.2.2 := by
  obtain ⟨r, -, hf, hk⟩ := mem_shown.mp h
  obtain ⟨zoom, hzoom, rfl⟩ := List.mem_map.mp hf
  obtain ⟨⟨x, y⟩, ht, rfl⟩ := List.mem_map.mp hk
  have hle := le_of_mem_zoomsForH3Res (List.mem_of_mem_filter hzoom)
  exact ⟨hle.trans (by decide), (forEachCellTile_lt ht).1, (forEachCellTile_lt ht).2⟩

namespace Tiled

variable {records : List (Record A)} {tiles : List (TileKey × MvtLayer F P)} {k : TileKey}

theorem layer_perm (h : Tiled t records tiles) {layer : MvtLayer F P} (hk : (k, layer) ∈ tiles) :
    layer.Perm (t.layer records k) := by
  have hperm := (h.complete.filter fun shown => shown.2 = k).map Prod.fst
  rwa [filter_pairs h.once hk] at hperm

theorem exists_layer (h : Tiled t records tiles) (hk : t.layer records k ≠ []) :
    ∃ layer, (k, layer) ∈ tiles := by
  obtain ⟨f, hf⟩ := List.exists_mem_of_ne_nil _ hk
  obtain ⟨layer, htile, -⟩ := mem_pairs.mp (h.complete.mem_iff.mpr (mem_layer.mp hf))
  exact ⟨layer, htile⟩

theorem layer_ne_nil (h : Tiled t records tiles) (hk : k ∈ Keyed.keys tiles) :
    t.layer records k ≠ [] := by
  obtain ⟨f, hf⟩ := h.shown k hk
  exact List.ne_nil_of_mem (mem_layer.mpr hf)

end Tiled

/-! ## What a reader gets -/

/-- The ancestor is in the tile of the overviews. -/
structure Ancestor (t : Tiler A L C F P n) (records : List (Record A)) (k : TileKey)
    (p : CellIndex) : Prop where
  zoom : k.1 ∈ t.minResZooms
  shown : Shown t.grid t.coarseResList (t.details records) k.1 p
  covers : (k.2.1, k.2.2) ∈ Overview.cellTiles t.axis t.grid p k.1

variable [SpillAccumulator A] [LawfulSpill A]

/-- What the file has for one tile. -/
structure Serves (t : Tiler A L C F P n) (gz : Gzip) (encode : TileEncoder A F P)
    (records : List (Record A)) (bytes : List UInt8) (k : TileKey) : Prop where
  layer : t.layer records k ≠ [] → ∃ layer, layer.Perm (t.layer records k) ∧
    getTile gz bytes k.1 k.2.1 k.2.2 = some (gz.compress (encode.layer k layer))
  overview : (∃ p, Ancestor t records k p) → ∃ cells, (keys cells).Nodup ∧
    (∀ p, p ∈ keys cells ↔ Ancestor t records k p) ∧
    (∀ p acc, (p, acc) ∈ cells →
      MergeOf (descendants t.grid (t.details records) (h3ResForZoom k.1) p) acc) ∧
    getTile gz bytes k.1 k.2.1 k.2.2 = some (gz.compress (encode.overview k cells))
  empty : t.layer records k = [] → (∀ p, ¬ Ancestor t records k p) →
    getTile gz bytes k.1 k.2.1 k.2.2 = none

namespace ArchiveOf

variable {records : List (Record A)} {archive : TiledArchive A F P}

theorem mem_overviews (h : ArchiveOf t records archive) {k : TileKey} :
    k ∈ keys archive.overviews ↔ ∃ p, Ancestor t records k p := by
  rw [h.overviews.tiles k.1 k.2.1 k.2.2]
  constructor
  · rintro ⟨hzoom, p, hshown, hcovers⟩
    exact ⟨p, hzoom, hshown, hcovers⟩
  · rintro ⟨p, hzoom, hshown, hcovers⟩
    exact ⟨hzoom, p, hshown, hcovers⟩

theorem valid (h : ArchiveOf t records archive) {k : TileKey} (hk : k ∈ archive.keys) :
    ValidTile k.1 k.2.1 k.2.2 := by
  rcases archive.mem_keys.mp hk with hk | hk
  · obtain ⟨f, hf⟩ := h.details.shown k hk
    exact valid_of_mem_shown hf
  · obtain ⟨p, hzoom, -, hcovers⟩ := h.mem_overviews.mp hk
    exact valid_of_mem_cellTiles ((le_of_mem_zoomsForH3Res hzoom).trans (by decide)) hcovers

theorem valid_tiles (h : ArchiveOf t records archive) (encode : TileEncoder A F P) :
    ∀ tile ∈ archive.tiles encode, tile.Valid := by
  intro tile htile
  have hmem := List.mem_map_of_mem (f := Tile.key) htile
  rw [TiledArchive.map_key_tiles] at hmem
  exact h.valid hmem

theorem distinct_tiles (h : ArchiveOf t records archive) (encode : TileEncoder A F P) :
    (archive.tiles encode).Pairwise fun tile tile' => tile.key ≠ tile'.key := by
  have honce := h.once
  rw [← TiledArchive.map_key_tiles encode] at honce
  exact List.pairwise_map.mp honce

theorem serves (h : ArchiveOf t records archive) {minZoom maxZoom : Nat} {bbox : Bounds F}
    {metadataJson : List UInt8}
    (hsize : ∀ bytes, archive.file gz encode minZoom maxZoom bbox metadataJson = .ok bytes →
      bytes.length < 2 ^ 64)
    (hshort : ∀ tile ∈ archive.tiles encode, (tile.stored gz).length < 2 ^ 32) :
    ∃ bytes, archive.file gz encode minZoom maxZoom bbox metadataJson = .ok bytes ∧
      ∀ z x y, ValidTile z x y → Serves t gz encode records bytes (z, x, y) := by
  rw [TiledArchive.file_eq] at hsize ⊢
  obtain ⟨bytes, hok, hpresent, habsent⟩ := roundTrips_of_stored_lt gz minZoom maxZoom bbox
    metadataJson (h.valid_tiles encode) (h.distinct_tiles encode) hsize hshort
  refine ⟨bytes, hok, fun z x y hz => ⟨fun hlayer => ?_, fun hancestor => ?_, fun hnone hno => ?_⟩⟩
  · obtain ⟨layer, hlayer⟩ := h.details.exists_layer hlayer
    refine ⟨layer, h.details.layer_perm hlayer,
      hpresent (TiledArchive.layerTile encode ((z, x, y), layer)) ?_⟩
    exact archive.mem_tiles.mpr (.inl (List.mem_map_of_mem hlayer))
  · obtain ⟨cells, hcells⟩ := Keyed.mem_keys.mp (h.mem_overviews.mpr hancestor)
    obtain ⟨hnodup, hmem⟩ := h.overviews.cells z x y cells hcells
    obtain ⟨p, hzoom, -, -⟩ := hancestor
    refine ⟨cells, hnodup, fun q => (hmem q).trans ⟨fun hq => ⟨hzoom, hq.1, hq.2⟩,
      fun hq => ⟨hq.shown, hq.covers⟩⟩,
      fun q acc hq => h.overviews.states z x y cells q acc hcells hq,
      hpresent (TiledArchive.overviewTile encode ((z, x, y), cells)) ?_⟩
    exact archive.mem_tiles.mpr (.inr (List.mem_map_of_mem hcells))
  · refine habsent z x y hz fun tile htile heq => ?_
    have hkey := List.mem_map_of_mem (f := Tile.key) htile
    rw [TiledArchive.map_key_tiles, heq] at hkey
    rcases archive.mem_keys.mp hkey with hkey | hkey
    · exact h.details.layer_ne_nil hkey hnone
    · obtain ⟨p, hp⟩ := h.mem_overviews.mp hkey
      exact hno p hp

end ArchiveOf

variable [IsStrictOrderedRing F] [BoundedOrder L] {X : Type} {R : Multiset X → A → Prop}
  {items : List (Item A X n)} {x : StreamTiler A L C F P n} {archive : TiledArchive A F P}

/-- Whatever the threads have done, if the archive that was returned has less than 2^64 bytes and
no tile of 4 GiB, then a reader gets for every tile what the batch result has there. -/
theorem tiled_file_serves_batch_result (hR : Represents R) (hscan : Scan R t.setup items)
    (hcan : t.setup.canEvictEarly = true) (law : t.grid.Lawful)
    (hfits : ∀ i cell, received items items.length i cell ≠ 0 → Fits t cell)
    (compactionBudgetBytes : Option Nat) (structureBytes : Fin n → Nat → Nat)
    (indexBytes : Nat → Nat)
    (hx : StreamTiler.Reachable t (.new t.setup false compactionBudgetBytes structureBytes
      indexBytes none (items.map Item.chunk)) x) (hloop : x.loop = .returned archive)
    (gz : Gzip) (encode : TileEncoder A F P) (minZoom maxZoom : Nat) (bbox : Bounds F)
    (metadataJson : List UInt8)
    (hsize : ∀ bytes, archive.file gz encode minZoom maxZoom bbox metadataJson = .ok bytes →
      bytes.length < 2 ^ 64)
    (hshort : ∀ tile ∈ archive.tiles encode, (tile.stored gz).length < 2 ^ 32) :
    ∃ cells bytes, Aggregation R (received items items.length) cells ∧
      Complete (received items items.length) cells ∧
      archive.file gz encode minZoom maxZoom bbox metadataJson = .ok bytes ∧
      ∀ z x y, ValidTile z x y →
        Serves t gz encode (finalsOf t.setup (fun _ => true) cells) bytes (z, x, y) := by
  obtain ⟨log, done, lost, h⟩ := TilerHolds.of_reachable hR hscan hcan compactionBudgetBytes
    structureBytes indexBytes hx
  obtain ⟨s, ⟨hs, -⟩, -⟩ := h.stream
  obtain ⟨hcomplete, harchive⟩ := h.archiveOf hR hscan law hfits hloop
  obtain ⟨bytes, hok, hserves⟩ := harchive.serves hsize hshort
  exact ⟨log, bytes, hs.aggregation hscan, hcomplete, hok, hserves⟩

/-! ## Two chunks -/

/-- How many cells there are, as one byte. -/
def countEncoder : TileEncoder (CategoricalAccumulator Nat) ℚ Unit where
  layer := fun _ layer => [UInt8.ofNat layer.length]
  overview := fun _ cells => [UInt8.ofNat cells.length]

theorem length_stored_count (archive : TiledArchive (CategoricalAccumulator Nat) ℚ Unit) :
    ∀ tile ∈ archive.tiles countEncoder, (tile.stored plainGzip).length = 1 := by
  intro tile htile
  rcases archive.mem_tiles.mp htile with htile | htile
  · obtain ⟨tile, -, rfl⟩ := List.mem_map.mp htile
    rfl
  · obtain ⟨tile, -, rfl⟩ := List.mem_map.mp htile
    rfl

theorem tiled_file_serves_batch_result_two_chunks :
    ∃ (archive : TiledArchive (CategoricalAccumulator Nat) ℚ Unit)
      (cells : List (Emitted (CategoricalAccumulator Nat) 1)) (bytes : List UInt8),
      archive.totalHexagons = 2 ∧ Aggregation MergeOf (received twoChunks 2) cells ∧
        Complete (received twoChunks 2) cells ∧
        archive.file plainGzip countEncoder 0 3 ⟨-126, 30, -118, 42⟩ [] = .ok bytes ∧
        ∀ z x y, ValidTile z x y → Serves twoChunkTiler plainGzip countEncoder
          (finalsOf twoChunkSetup (fun _ => true) cells) bytes (z, x, y) := by
  obtain ⟨x, archive, hrun, hloop, htwo, hlength⟩ := twoChunks_returned
  have hfits : ∀ i cell, received twoChunks 2 i cell ≠ 0 → Fits twoChunkTiler cell :=
    fun _ cell _ => fits_twoChunkTiler cell
  have hstored := length_stored_count archive
  have hsize : ∀ bytes, archive.file plainGzip countEncoder 0 3 ⟨-126, 30, -118, 42⟩ [] =
      .ok bytes → bytes.length < 2 ^ 64 := by
    obtain ⟨log, done, lost, h⟩ := TilerHolds.of_reachable MergeOf.represents scan_twoChunks rfl
      none _ _ hrun
    obtain ⟨-, harchive⟩ := h.archiveOf MergeOf.represents scan_twoChunks twoChunkTiler_lawful
      hfits hloop
    rw [TiledArchive.file_eq]
    rw [← TiledArchive.map_key_tiles countEncoder, List.length_map] at hlength
    refine length_finishInto_lt plainGzip (harchive.valid_tiles _) (harchive.distinct_tiles _)
      hlength ?_
    have hsum : ((archive.tiles countEncoder).map (Tile.length32 plainGzip)).sum ≤
        ((archive.tiles countEncoder).map (Tile.length32 plainGzip)).length • 1 := by
      refine List.sum_le_card_nsmul _ _ fun len hlen => ?_
      obtain ⟨tile, htile, rfl⟩ := List.mem_map.mp hlen
      exact (length32_le plainGzip tile).trans (hstored tile htile).le
    rw [List.length_map, smul_eq_mul, Nat.mul_one] at hsum
    rw [List.length_nil]
    omega
  obtain ⟨cells, bytes, h⟩ := tiled_file_serves_batch_result MergeOf.represents scan_twoChunks rfl
    twoChunkTiler_lawful hfits none _ _ hrun hloop plainGzip countEncoder 0 3 _ [] hsize
    fun tile htile => by
      rw [hstored tile htile]
      decide
  exact ⟨archive, cells, bytes, htwo, h⟩

end RasterH3.Pmtiles
