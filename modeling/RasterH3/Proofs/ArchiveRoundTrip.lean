import RasterH3.Lib.Reader
import RasterH3.Proofs.DirectoryLookup

/-!
# An archive gives back what was added

The writer puts the contents of each tile into a spill file as it comes. At the end it sorts
the entries by the numbers of the tiles, and copies the contents in that order behind the
header and the directories.

Three lists describe an archive: the tiles as they were added, the entries of the spill
file, and the directory. Each is a map of the one before it up to order, ids and lengths
included, so the directory is in order because the ids of distinct tiles differ
(`ascending`), and an entry's range of the data is its range of the spill file
(`slice_layOut`). That is the tile's contents unless a length was cut to 32 bits on the way,
and then the archive returns something shorter.

The reader begins with the header, whose fields are found at fixed positions;
`readHeader_header` reads them back for any layout. A lookup through the directories is that
of the list of entries, as was shown with the directories, and so looking a tile up in the
archive is looking its id up in a list (`getTile_archiveOf`).

`RoundTrips` is what an archive should do: every tile that was added is returned, and
nothing else. It does so exactly when no tile reaches 4 GiB (`roundTrips_iff`), provided the
file has less than 2^64 bytes. A tile of 4 GiB comes back empty.
-/

namespace RasterH3.Pmtiles

open Bytes
open Raster (Bounds)

/-! ## Tiles and the spill file -/

inductive Payload where
  | compressed (data : List UInt8)
  | mvt (uncompressed : List UInt8)

structure Tile where
  z : Nat
  x : Nat
  y : Nat
  payload : Payload

namespace Tile

def key (t : Tile) : Nat × Nat × Nat := (t.z, t.x, t.y)

def tileId (t : Tile) : Nat := zxyToTileId t.z t.x t.y

def Valid (t : Tile) : Prop := ValidTile t.z t.x t.y

/-- The bytes of the tile in the archive. -/
def stored (gz : Gzip) (t : Tile) : List UInt8 :=
  match t.payload with
  | .compressed data => data
  | .mvt uncompressed => gz.compress uncompressed

def length32 (gz : Gzip) (t : Tile) : Nat := (t.stored gz).length % 2 ^ 32

variable {F : Type}

def addTo (gz : Gzip) (w : PmtilesWriter F) (t : Tile) : PmtilesWriter F :=
  match t.payload with
  | .compressed data => w.addCompressedTile t.z t.x t.y data
  | .mvt uncompressed => w.addTile gz t.z t.x t.y uncompressed

theorem addTo_eq (gz : Gzip) (w : PmtilesWriter F) (t : Tile) :
    t.addTo gz w = w.addCompressedTile t.z t.x t.y (t.stored gz) := by
  unfold addTo stored
  split <;> rfl

end Tile

/-- The entries of tiles whose contents start at `offset`. -/
def spillEntries (gz : Gzip) : Nat → List Tile → List SpillTileEntry
  | _, [] => []
  | offset, t :: ts =>
      ⟨t.tileId, offset, t.length32 gz⟩ :: spillEntries gz (offset + t.length32 gz) ts

variable {F : Type}

def addAll (gz : Gzip) (w : PmtilesWriter F) (tiles : List Tile) : PmtilesWriter F :=
  tiles.foldl (fun w t => t.addTo gz w) w

/-- The state of the writer after tiles are added. -/
theorem addAll_eq (gz : Gzip) (w : PmtilesWriter F) (tiles : List Tile) :
    addAll gz w tiles =
      { w with
        spillFile := w.spillFile ++ tiles.flatMap (Tile.stored gz)
        entries := w.entries ++ spillEntries gz w.currentSpillOffset tiles
        currentSpillOffset := w.currentSpillOffset + (tiles.map (Tile.length32 gz)).sum } := by
  induction tiles generalizing w with
  | nil => simp [addAll, spillEntries]
  | cons t ts ih =>
      rw [addAll, List.foldl_cons, ← addAll, ih, Tile.addTo_eq]
      simp [PmtilesWriter.addCompressedTile, spillEntries, Tile.length32, Tile.tileId, Nat.add_assoc]

theorem map_tileId_spillEntries (gz : Gzip) (offset : Nat) (tiles : List Tile) :
    (spillEntries gz offset tiles).map SpillTileEntry.tileId = tiles.map Tile.tileId := by
  induction tiles generalizing offset with
  | nil => rfl
  | cons t ts ih => simp [spillEntries, ih]

theorem map_length_spillEntries (gz : Gzip) (offset : Nat) (tiles : List Tile) :
    (spillEntries gz offset tiles).map SpillTileEntry.length = tiles.map (Tile.length32 gz) := by
  induction tiles generalizing offset with
  | nil => rfl
  | cons t ts ih => simp [spillEntries, ih]

theorem length32_le (gz : Gzip) (t : Tile) : t.length32 gz ≤ (t.stored gz).length :=
  Nat.mod_le _ _

theorem length32_lt (gz : Gzip) (t : Tile) : t.length32 gz < 2 ^ 32 :=
  Nat.mod_lt _ (by decide)

/-- No entry reaches past the end of the spill file. -/
theorem spillEntries_le (gz : Gzip) {offset : Nat} {tiles : List Tile} :
    ∀ e ∈ spillEntries gz offset tiles,
      e.spillOffset + e.length ≤ offset + (tiles.flatMap (Tile.stored gz)).length := by
  induction tiles generalizing offset with
  | nil => simp [spillEntries]
  | cons t ts ih =>
      have hle := length32_le gz t
      intro e he
      rw [List.flatMap_cons, List.length_append]
      rw [spillEntries] at he
      rcases List.mem_cons.mp he with rfl | he
      · simp only
        omega
      · have := ih e he
        omega

/-- The entry of a tile, and its contents if no length was cut. -/
theorem spillEntries_mem (gz : Gzip) {tiles : List Tile} (front : List UInt8) {t : Tile}
    (ht : t ∈ tiles) :
    ∃ e ∈ spillEntries gz front.length tiles, e.tileId = t.tileId ∧ e.length = t.length32 gz ∧
      ((∀ t ∈ tiles, (t.stored gz).length < 2 ^ 32) →
        ((front ++ tiles.flatMap (Tile.stored gz)).drop e.spillOffset).take e.length =
          t.stored gz) := by
  induction tiles generalizing front with
  | nil => cases ht
  | cons t' ts ih =>
      rcases List.mem_cons.mp ht with rfl | ht
      · refine ⟨_, List.mem_cons_self, rfl, rfl, fun hshort => ?_⟩
        have hlen : t.length32 gz = (t.stored gz).length :=
          Nat.mod_eq_of_lt (hshort t List.mem_cons_self)
        rw [List.flatMap_cons, List.drop_left' rfl, List.take_left' hlen.symm]
      · by_cases hshort : (t'.stored gz).length < 2 ^ 32
        · have hlen : t'.length32 gz = (t'.stored gz).length := Nat.mod_eq_of_lt hshort
          obtain ⟨e, he, hid, hle, hbytes⟩ := ih (front ++ t'.stored gz) ht
          rw [List.length_append, ← hlen] at he
          refine ⟨e, List.mem_cons_of_mem _ he, hid, hle, fun h => ?_⟩
          rw [List.flatMap_cons, ← List.append_assoc]
          exact hbytes fun t ht => h t (List.mem_cons_of_mem _ ht)
        · obtain ⟨e, he, hid, hle, -⟩ := ih (List.replicate (front.length + t'.length32 gz) 0) ht
          rw [List.length_replicate] at he
          exact ⟨e, List.mem_cons_of_mem _ he, hid, hle,
            fun h => absurd (h t' List.mem_cons_self) hshort⟩

/-! ## The directory -/

theorem map_tileId_layOut (offset : Nat) (es : List SpillTileEntry) :
    (layOut offset es).map Entry.tileId = es.map SpillTileEntry.tileId := by
  induction es generalizing offset with
  | nil => rfl
  | cons e es ih => simp [layOut, ih]

theorem layOut_spec {offset : Nat} {es : List SpillTileEntry} :
    ∀ d ∈ layOut offset es, d.runLength = 1 ∧
      d.offset + d.length ≤ offset + (es.map SpillTileEntry.length).sum ∧
      ∃ e ∈ es, d.tileId = e.tileId ∧ d.length = e.length := by
  induction es generalizing offset with
  | nil => simp [layOut]
  | cons e es ih =>
      rw [layOut, List.map_cons, List.sum_cons]
      intro d hd
      rcases List.mem_cons.mp hd with rfl | hd
      · exact ⟨rfl, by simp only; omega, e, List.mem_cons_self, rfl, rfl⟩
      · obtain ⟨hrun, hle, e', he', hid⟩ := ih d hd
        exact ⟨hrun, by omega, e', List.mem_cons_of_mem e he', hid⟩

def spillBytes (spillFile : List UInt8) (e : SpillTileEntry) : List UInt8 :=
  (spillFile.drop e.spillOffset).take e.length

theorem length_spillBytes {spillFile : List UInt8} {e : SpillTileEntry}
    (h : e.spillOffset + e.length ≤ spillFile.length) :
    (spillBytes spillFile e).length = e.length := by
  rw [spillBytes, List.length_take, List.length_drop]
  omega

theorem copyTiles_eq {spillFile : List UInt8} {es : List SpillTileEntry}
    (h : ∀ e ∈ es, e.spillOffset + e.length ≤ spillFile.length) :
    copyTiles spillFile es = .ok (es.flatMap (spillBytes spillFile)) := by
  induction es with
  | nil => rfl
  | cons e es ih =>
      rw [copyTiles, ih fun e' he' => h e' (List.mem_cons_of_mem e he')]
      rw [if_neg (not_lt.mpr (h e List.mem_cons_self))]
      rfl

/-- The directory points at the copied bytes. -/
theorem slice_layOut {spillFile : List UInt8} {es : List SpillTileEntry}
    (h : ∀ e ∈ es, e.spillOffset + e.length ≤ spillFile.length) {offset : Nat}
    {e : SpillTileEntry} (he : e ∈ es) :
    ∃ d ∈ layOut offset es, d.tileId = e.tileId ∧ offset ≤ d.offset ∧
      slice (es.flatMap (spillBytes spillFile)) (d.offset - offset) d.length =
        some (spillBytes spillFile e) := by
  induction es generalizing offset with
  | nil => cases he
  | cons e' es ih =>
      have hlen := length_spillBytes (h e' List.mem_cons_self)
      rw [layOut, List.flatMap_cons]
      rcases List.mem_cons.mp he with rfl | he
      · refine ⟨_, List.mem_cons_self, rfl, le_rfl, ?_⟩
        simp only [Nat.sub_self]
        rw [← hlen]
        exact slice_whole _ _
      · obtain ⟨d, hd, hid, hle, hslice⟩ :=
          @ih (fun e he => h e (List.mem_cons_of_mem e' he)) (offset + e'.length) he
        refine ⟨d, List.mem_cons_of_mem _ hd, hid, by omega, ?_⟩
        rw [show d.offset - offset = (spillBytes spillFile e').length +
          (d.offset - (offset + e'.length)) by omega, slice_append_right]
        exact hslice

theorem find?_of_mem {es : List Entry} (hsorted : Ascending es) {e : Entry} (he : e ∈ es) :
    (es.find? fun e' => e'.tileId = e.tileId) = some e := by
  induction es with
  | nil => cases he
  | cons e' es ih =>
      obtain ⟨hfirst, hrest⟩ := List.pairwise_cons.mp hsorted
      rcases List.mem_cons.mp he with rfl | he
      · simp
      · rw [List.find?_cons_of_neg (by simp [(hfirst e he).ne]), ih hrest he]

/-! ## The header -/

theorem length_flatMap_writeLe (w : Nat) (vs : List Nat) :
    (vs.flatMap (writeLe w)).length = w * vs.length := by
  induction vs with
  | nil => simp
  | cons v vs ih =>
      rw [List.flatMap_cons, List.length_append, ih, Bytes.length_writeLe, List.length_cons]
      ring

theorem fieldAt_flatMap (front rest : List UInt8) {vs : List Nat} {i v : Nat}
    (hi : vs[i]? = some v) (hv : v < 2 ^ 64) :
    fieldAt (front ++ (vs.flatMap (writeLe 8) ++ rest)) (front.length + 8 * i) = some v := by
  obtain ⟨hlt, hget⟩ := List.getElem?_eq_some_iff.mp hi
  have hsplit : vs = vs.take i ++ v :: vs.drop (i + 1) := by
    rw [← hget, List.getElem_cons_drop, List.take_append_drop]
  have htake : (vs.take i).length = i := by
    rw [List.length_take]
    omega
  have hpos : front.length + 8 * i = (front ++ (vs.take i).flatMap (writeLe 8)).length := by
    rw [List.length_append, length_flatMap_writeLe, htake]
  rw [hsplit, List.flatMap_append, List.flatMap_cons, hpos, fieldAt]
  rw [show front ++ ((vs.take i).flatMap (writeLe 8) ++ (writeLe 8 v ++
    (vs.drop (i + 1)).flatMap (writeLe 8)) ++ rest) = front ++ (vs.take i).flatMap (writeLe 8) ++
      (writeLe 8 v ++ ((vs.drop (i + 1)).flatMap (writeLe 8) ++ rest)) by
        simp only [List.append_assoc]]
  rw [List.drop_left' rfl, readLe_writeLe_of_lt hv]
  rfl

variable [Field F] [LinearOrder F] [FloorRing F]

theorem length_headerTail (w : PmtilesWriter F) : w.headerTail.length = 31 := by
  simp [PmtilesWriter.headerTail, writeI32, Bytes.length_writeLe]

theorem length_header (w : PmtilesWriter F) (l : Layout) : (w.header l).length = headerSize := by
  simp only [PmtilesWriter.header, List.length_append, length_flatMap_writeLe, length_headerTail]
  rfl

theorem readHeader_header (w : PmtilesWriter F) (l : Layout) (body : List UInt8)
    (hlt : l.tileDataOffset < 2 ^ 64) :
    readHeader (w.header l ++ body) =
      some ⟨headerSize, l.rootDirLength, l.leafDirsOffset, l.tileDataOffset⟩ := by
  have hlen := length_header w l
  have hfields : ∀ i v, l.fields[i]? = some v → v < 2 ^ 64 →
      fieldAt (w.header l ++ body) (8 + 8 * i) = some v := by
    intro i v hi hv
    have := fieldAt_flatMap (PmtilesWriter.magic ++ [3]) (w.headerTail ++ body) hi hv
    simpa [PmtilesWriter.header, PmtilesWriter.magic, List.append_assoc] using this
  have hmagic : (w.header l ++ body).take 7 = PmtilesWriter.magic := rfl
  have hversion : (w.header l ++ body)[7]? = some 3 := rfl
  have hgzip : (w.header l ++ body)[97]? = some compressionGzip := rfl
  rw [readHeader, if_pos ⟨by rw [List.length_append]; omega, hmagic, hversion, hgzip⟩]
  have hleaf : l.leafDirsOffset < 2 ^ 64 := (Nat.le_add_right _ _).trans_lt hlt
  have hroot : l.rootDirLength < 2 ^ 64 := by
    rw [Layout.leafDirsOffset, Layout.jsonMetadataOffset] at hleaf
    omega
  rw [hfields 0 headerSize rfl (by decide), hfields 1 l.rootDirLength rfl hroot,
    hfields 4 l.leafDirsOffset rfl hleaf, hfields 6 l.tileDataOffset rfl hlt]
  rfl

/-! ## The whole archive -/

/-- What is known of a writer when it finishes: its entries stay inside the spill file,
and distinct ids fit in 64 bits. -/
structure Spilled (w : PmtilesWriter F) : Prop where
  inside : ∀ e ∈ w.entries, e.spillOffset + e.length ≤ w.spillFile.length
  offset : w.currentSpillOffset = (w.entries.map SpillTileEntry.length).sum
  distinct : (w.entries.map SpillTileEntry.tileId).Nodup
  tileId : ∀ e ∈ w.entries, e.tileId < 2 ^ 64
  length : ∀ e ∈ w.entries, e.length < 2 ^ 32

def layoutOf (gz : Gzip) (w : PmtilesWriter F) : Layout where
  rootDirLength := (buildDirectories gz (layOut 0 w.sortedEntries)).1.length
  jsonMetadataLength := (gz.compress w.metadataJson).length
  leafDirsLength := (buildDirectories gz (layOut 0 w.sortedEntries)).2.length
  tileDataLength := (w.sortedEntries.map SpillTileEntry.length).sum
  tileCount := w.sortedEntries.length

def archiveOf (gz : Gzip) (w : PmtilesWriter F) : List UInt8 :=
  w.header (layoutOf gz w) ++
    ((buildDirectories gz (layOut 0 w.sortedEntries)).1 ++
      (gz.compress w.metadataJson ++ ((buildDirectories gz (layOut 0 w.sortedEntries)).2 ++
        w.sortedEntries.flatMap (spillBytes w.spillFile))))

namespace Spilled

variable {w : PmtilesWriter F}

omit [Field F] [LinearOrder F] [FloorRing F] in
theorem perm (w : PmtilesWriter F) : w.sortedEntries.Perm w.entries :=
  List.mergeSort_perm _ _

omit [Field F] [LinearOrder F] [FloorRing F] in
theorem inside_sorted (h : Spilled w) :
    ∀ e ∈ w.sortedEntries, e.spillOffset + e.length ≤ w.spillFile.length :=
  fun e he => h.inside e ((perm w).mem_iff.mp he)

theorem finishInto (h : Spilled w) (gz : Gzip) :
    w.finishInto gz = .ok (archiveOf gz w) := by
  have hcopy := copyTiles_eq h.inside_sorted
  by_cases hzero : 0 < w.currentSpillOffset
  · simp only [PmtilesWriter.finishInto, if_pos hzero, hcopy]
    rfl
  · have hnil : w.sortedEntries.flatMap (spillBytes w.spillFile) = [] := by
      refine List.flatMap_eq_nil_iff.mpr fun e he => ?_
      have hsum : (w.entries.map SpillTileEntry.length).sum = 0 := by
        have := h.offset
        omega
      have hlen := List.sum_eq_zero_iff_forall_eq_nat.mp hsum e.length
        (List.mem_map_of_mem ((perm w).mem_iff.mp he))
      rw [spillBytes, hlen, List.take_zero]
    simp only [PmtilesWriter.finishInto, if_neg hzero]
    rw [archiveOf, hnil]
    rfl

omit [Field F] [LinearOrder F] [FloorRing F] in
theorem ascending (h : Spilled w) : Ascending (layOut 0 w.sortedEntries) := by
  have hsorted : w.sortedEntries.Pairwise fun a b => a.tileId ≤ b.tileId := by
    refine (List.pairwise_mergeSort (fun a b c hab hbc => ?_) (fun a b => ?_) w.entries).imp ?_
    · simp only [decide_eq_true_eq] at hab hbc ⊢
      omega
    · simp only [Bool.or_eq_true, decide_eq_true_eq]
      omega
    · exact fun h => by simpa using h
  have hnodup : (w.sortedEntries.map SpillTileEntry.tileId).Nodup :=
    ((perm w).map _).nodup_iff.mpr h.distinct
  have hlt : (w.sortedEntries.map SpillTileEntry.tileId).Pairwise (· < ·) := by
    refine (List.pairwise_map.mpr hsorted).imp₂ (fun a b hle hne => ?_) hnodup
    exact lt_of_le_of_ne hle hne
  rw [← map_tileId_layOut 0] at hlt
  exact List.pairwise_map.mp hlt

theorem length_archiveOf (gz : Gzip) (w : PmtilesWriter F) :
    (archiveOf gz w).length = (layoutOf gz w).tileDataOffset +
      (w.sortedEntries.flatMap (spillBytes w.spillFile)).length := by
  simp only [archiveOf, List.length_append, length_header, Layout.tileDataOffset,
    Layout.leafDirsOffset, Layout.jsonMetadataOffset, layoutOf]
  omega

omit [Field F] [LinearOrder F] [FloorRing F] in
theorem length_data (h : Spilled w) : (w.sortedEntries.flatMap (spillBytes w.spillFile)).length =
    (w.sortedEntries.map SpillTileEntry.length).sum := by
  rw [List.length_flatMap]
  congr 1
  exact List.map_congr_left fun e he => length_spillBytes (h.inside_sorted e he)

def headerOf (gz : Gzip) (w : PmtilesWriter F) : Header :=
  ⟨headerSize, (layoutOf gz w).rootDirLength, (layoutOf gz w).leafDirsOffset,
    (layoutOf gz w).tileDataOffset⟩

theorem readHeader_archiveOf (gz : Gzip) (w : PmtilesWriter F)
    (hsize : (archiveOf gz w).length < 2 ^ 64) :
    readHeader (archiveOf gz w) = some (headerOf gz w) := by
  refine readHeader_header w (layoutOf gz w) _ ?_
  rw [length_archiveOf] at hsize
  omega

omit [Field F] [LinearOrder F] [FloorRing F] in
theorem fits (h : Spilled w) (hsize : (w.sortedEntries.map SpillTileEntry.length).sum <
    2 ^ 64) : ∀ d ∈ layOut 0 w.sortedEntries, d.Fits := by
  intro d hd
  obtain ⟨hrun, hle, e, he, hid, hlen⟩ := layOut_spec d hd
  have he := (perm w).mem_iff.mp he
  exact ⟨hid ▸ h.tileId e he, by omega, hlen ▸ h.length e he, hrun.le⟩

/-- Looking a tile up in the archive is looking its id up in the directory. -/
theorem getTile_archiveOf (h : Spilled w) (gz : Gzip) (hsize : (archiveOf gz w).length < 2 ^ 64)
    (z x y : Nat) :
    getTile gz (archiveOf gz w) z x y =
      contentsAt (archiveOf gz w) (headerOf gz w) (layOut 0 w.sortedEntries)
        (zxyToTileId z x y) := by
  have hroot : slice (archiveOf gz w) headerSize (layoutOf gz w).rootDirLength =
      some (buildDirectories gz (layOut 0 w.sortedEntries)).1 := by
    have := slice_append_right (w.header (layoutOf gz w))
      ((buildDirectories gz (layOut 0 w.sortedEntries)).1 ++
        (gz.compress w.metadataJson ++ ((buildDirectories gz (layOut 0 w.sortedEntries)).2 ++
          w.sortedEntries.flatMap (spillBytes w.spillFile)))) 0 (layoutOf gz w).rootDirLength
    rw [length_header, Nat.add_zero] at this
    rw [archiveOf, this]
    exact slice_whole _ _
  have hleaves : ∀ off len out,
      slice (buildDirectories gz (layOut 0 w.sortedEntries)).2 off len = some out →
        slice (archiveOf gz w) ((layoutOf gz w).leafDirsOffset + off) len = some out := by
    intro off len out hout
    have := slice_append_right (w.header (layoutOf gz w) ++
      ((buildDirectories gz (layOut 0 w.sortedEntries)).1 ++ gz.compress w.metadataJson))
      ((buildDirectories gz (layOut 0 w.sortedEntries)).2 ++
        w.sortedEntries.flatMap (spillBytes w.spillFile)) off len
    rw [slice_append_left _ (length_of_slice hout).2, hout] at this
    simp only [List.length_append, length_header, List.append_assoc] at this
    rw [archiveOf, Layout.leafDirsOffset, Layout.jsonMetadataOffset, Nat.add_assoc headerSize]
    exact this
  have hfits := h.fits (by
    have := length_archiveOf gz w
    have := h.length_data
    omega)
  rw [getTile, readHeader_archiveOf gz w hsize]
  exact lookup_buildDirectories h.ascending (fun d hd => (layOut_spec d hd).1) hfits hroot hleaves _

/-- The contents of an entry. -/
theorem getTile_of_mem (h : Spilled w) (gz : Gzip) (hsize : (archiveOf gz w).length < 2 ^ 64)
    {z x y : Nat} {e : SpillTileEntry} (he : e ∈ w.entries) (hid : e.tileId = zxyToTileId z x y) :
    getTile gz (archiveOf gz w) z x y = some (spillBytes w.spillFile e) := by
  obtain ⟨d, hd, hdid, -, hslice⟩ :=
    @slice_layOut _ _ h.inside_sorted 0 _ ((perm w).mem_iff.mpr he)
  rw [h.getTile_archiveOf gz hsize, ← hid, ← hdid, contentsAt, find?_of_mem h.ascending hd]
  have := slice_append_right (w.header (layoutOf gz w) ++
    ((buildDirectories gz (layOut 0 w.sortedEntries)).1 ++ (gz.compress w.metadataJson ++
      (buildDirectories gz (layOut 0 w.sortedEntries)).2)))
    (w.sortedEntries.flatMap (spillBytes w.spillFile)) d.offset d.length
  rw [Nat.sub_zero] at hslice
  rw [hslice] at this
  simp only [List.length_append, length_header, List.append_assoc] at this
  have hoffset : (headerOf gz w).dataOffset = headerSize +
      ((buildDirectories gz (layOut 0 w.sortedEntries)).1.length +
        ((gz.compress w.metadataJson).length +
          (buildDirectories gz (layOut 0 w.sortedEntries)).2.length)) := by
    simp only [headerOf, Layout.tileDataOffset, Layout.leafDirsOffset, Layout.jsonMetadataOffset,
      layoutOf]
    omega
  rw [Option.bind_some, hoffset, archiveOf]
  exact this

theorem getTile_of_absent (h : Spilled w) (gz : Gzip) (hsize : (archiveOf gz w).length < 2 ^ 64)
    {z x y : Nat} (habsent : ∀ e ∈ w.entries, e.tileId ≠ zxyToTileId z x y) :
    getTile gz (archiveOf gz w) z x y = none := by
  have hfind : (layOut 0 w.sortedEntries).find?
      (fun d => d.tileId = zxyToTileId z x y) = none := by
    refine List.find?_eq_none.mpr fun d hd => ?_
    obtain ⟨-, -, e, he, hid, -⟩ := layOut_spec d hd
    have := habsent e ((perm w).mem_iff.mp he)
    simpa [hid] using this
  rw [h.getTile_archiveOf gz hsize, contentsAt, hfind]
  rfl

end Spilled

omit [Field F] [LinearOrder F] [FloorRing F] in
theorem entries_addAll_new (gz : Gzip) (minZoom maxZoom : Nat) (bbox : Bounds F)
    (metadataJson : List UInt8) (tiles : List Tile) :
    (addAll gz (PmtilesWriter.new minZoom maxZoom bbox metadataJson) tiles).entries =
      spillEntries gz 0 tiles := by
  rw [addAll_eq]
  rfl

omit [Field F] [LinearOrder F] [FloorRing F] in
/-- Distinct tiles, added to a fresh writer. -/
theorem spilled_addAll (gz : Gzip) (minZoom maxZoom : Nat) (bbox : Bounds F)
    (metadataJson : List UInt8) {tiles : List Tile} (hvalid : ∀ t ∈ tiles, t.Valid)
    (hdistinct : tiles.Pairwise fun t t' => t.key ≠ t'.key) :
    Spilled (addAll gz (PmtilesWriter.new minZoom maxZoom bbox metadataJson) tiles) := by
  have hentries := entries_addAll_new gz minZoom maxZoom bbox metadataJson tiles
  have hids := map_tileId_spillEntries gz 0 tiles
  refine ⟨?_, ?_, ?_, ?_, ?_⟩
  · rw [hentries]
    intro e he
    have := spillEntries_le gz e he
    rw [addAll_eq]
    simpa [PmtilesWriter.new] using this
  · rw [hentries, map_length_spillEntries, addAll_eq]
    simp [PmtilesWriter.new]
  · rw [hentries, hids]
    refine List.pairwise_map.mpr (hdistinct.imp_of_mem fun {t t'} ht ht' hne heq => hne ?_)
    exact zxyToTileId_injective (hvalid t ht) (hvalid t' ht') heq
  · rw [hentries]
    intro e he
    have hmem := List.mem_map_of_mem (f := SpillTileEntry.tileId) he
    rw [hids] at hmem
    obtain ⟨t, ht, hid⟩ := List.mem_map.mp hmem
    rw [← hid]
    exact zxyToTileId_lt (hvalid t ht)
  · rw [hentries]
    intro e he
    have hmem := List.mem_map_of_mem (f := SpillTileEntry.length) he
    rw [map_length_spillEntries] at hmem
    obtain ⟨t, -, hlen⟩ := List.mem_map.mp hmem
    rw [← hlen]
    exact length32_lt gz t

/-- The archive of the writer returns every tile that was added, and nothing else. -/
def RoundTrips (gz : Gzip) (w : PmtilesWriter F) (tiles : List Tile) : Prop :=
  ∃ bytes, (addAll gz w tiles).finishInto gz = .ok bytes ∧
    (∀ t ∈ tiles, getTile gz bytes t.z t.x t.y = some (t.stored gz)) ∧
    ∀ z x y, ValidTile z x y → (∀ t ∈ tiles, t.key ≠ (z, x, y)) → getTile gz bytes z x y = none

omit [Field F] [LinearOrder F] [FloorRing F] in
@[simp] theorem length_layOut (offset : Nat) (es : List SpillTileEntry) :
    (layOut offset es).length = es.length := by
  induction es generalizing offset with
  | nil => rfl
  | cons e es ih => simp [layOut, ih]

/-- A tile that comes back whole is shorter than 4 GiB. -/
theorem stored_lt_of_roundTrips (gz : Gzip) {minZoom maxZoom : Nat} {bbox : Bounds F}
    {metadataJson : List UInt8} {tiles : List Tile} (hvalid : ∀ t ∈ tiles, t.Valid)
    (hdistinct : tiles.Pairwise fun t t' => t.key ≠ t'.key)
    (hsize : ∀ bytes, (addAll gz (PmtilesWriter.new minZoom maxZoom bbox metadataJson)
      tiles).finishInto gz = .ok bytes → bytes.length < 2 ^ 64)
    (hround : RoundTrips gz (PmtilesWriter.new minZoom maxZoom bbox metadataJson) tiles) :
    ∀ t ∈ tiles, (t.stored gz).length < 2 ^ 32 := by
  have h := spilled_addAll gz minZoom maxZoom bbox metadataJson hvalid hdistinct
  have hfinish := h.finishInto gz
  obtain ⟨bytes, hok, hpresent, -⟩ := hround
  obtain rfl := Except.ok.inj (hfinish.symm.trans hok)
  intro t ht
  obtain ⟨e, he, hid, hlen, -⟩ := spillEntries_mem gz [] ht
  have hmem := entries_addAll_new gz minZoom maxZoom bbox metadataJson tiles ▸ he
  have hget := hpresent t ht
  rw [h.getTile_of_mem gz (hsize _ hfinish) hmem hid] at hget
  have hcut := length_spillBytes (h.inside e hmem)
  rw [Option.some.inj hget, hlen] at hcut
  rw [hcut]
  exact length32_lt gz t

theorem roundTrips_of_stored_lt (gz : Gzip) (minZoom maxZoom : Nat) (bbox : Bounds F)
    (metadataJson : List UInt8) {tiles : List Tile} (hvalid : ∀ t ∈ tiles, t.Valid)
    (hdistinct : tiles.Pairwise fun t t' => t.key ≠ t'.key)
    (hsize : ∀ bytes, (addAll gz (PmtilesWriter.new minZoom maxZoom bbox metadataJson)
      tiles).finishInto gz = .ok bytes → bytes.length < 2 ^ 64)
    (hshort : ∀ t ∈ tiles, (t.stored gz).length < 2 ^ 32) :
    RoundTrips gz (PmtilesWriter.new minZoom maxZoom bbox metadataJson) tiles := by
  have h := spilled_addAll gz minZoom maxZoom bbox metadataJson hvalid hdistinct
  have hfinish := h.finishInto gz
  have hsize := hsize _ hfinish
  have hentries := entries_addAll_new gz minZoom maxZoom bbox metadataJson tiles
  have hfile : (addAll gz (PmtilesWriter.new minZoom maxZoom bbox metadataJson) tiles).spillFile =
      [] ++ tiles.flatMap (Tile.stored gz) := by
    rw [addAll_eq]
    rfl
  refine ⟨_, hfinish, fun t ht => ?_, fun z x y hv habsent => ?_⟩
  · obtain ⟨e, he, hid, -, hbytes⟩ := spillEntries_mem gz [] ht
    rw [h.getTile_of_mem gz hsize (hentries ▸ he) hid, spillBytes, hfile, hbytes hshort]
  · refine h.getTile_of_absent gz hsize fun e he hid => ?_
    rw [hentries] at he
    have hmem := List.mem_map_of_mem (f := SpillTileEntry.tileId) he
    rw [map_tileId_spillEntries] at hmem
    obtain ⟨t, ht, htid⟩ := List.mem_map.mp hmem
    exact habsent t ht (zxyToTileId_injective (hvalid t ht) hv (htid.trans hid))

/-- The archive of a few tiles is small. -/
theorem length_finishInto_lt (gz : Gzip) {minZoom maxZoom : Nat} {bbox : Bounds F}
    {metadataJson : List UInt8} {tiles : List Tile} (hvalid : ∀ t ∈ tiles, t.Valid)
    (hdistinct : tiles.Pairwise fun t t' => t.key ≠ t'.key) (hfew : tiles.length ≤ 200)
    (hdata : 20000 + 2 * metadataJson.length + (tiles.map (Tile.length32 gz)).sum < 2 ^ 64) :
    ∀ bytes, (addAll gz (PmtilesWriter.new minZoom maxZoom bbox metadataJson)
      tiles).finishInto gz = .ok bytes → bytes.length < 2 ^ 64 := by
  have h := spilled_addAll gz minZoom maxZoom bbox metadataJson hvalid hdistinct
  rw [h.finishInto gz]
  rintro bytes ⟨⟩
  have hperm := Spilled.perm
    (addAll gz (PmtilesWriter.new minZoom maxZoom bbox metadataJson) tiles)
  rw [entries_addAll_new] at hperm
  have hsum := (hperm.map SpillTileEntry.length).sum_eq
  rw [map_length_spillEntries] at hsum
  have hcount := hperm.length_eq
  rw [← List.length_map SpillTileEntry.tileId, ← List.length_map SpillTileEntry.tileId,
    map_tileId_spillEntries, List.length_map, List.length_map] at hcount
  have hfits := h.fits (by omega)
  have hlen : (layOut 0 (addAll gz (PmtilesWriter.new minZoom maxZoom bbox metadataJson)
      tiles).sortedEntries).length ≤ 200 := by
    rw [length_layOut]
    omega
  have hroot := length_encodeDirectory_le gz hfits (hlen.trans (by decide))
  have hmeta := gz.bound (addAll gz (PmtilesWriter.new minZoom maxZoom bbox metadataJson)
    tiles).metadataJson
  have hjson : (addAll gz (PmtilesWriter.new minZoom maxZoom bbox metadataJson)
      tiles).metadataJson = metadataJson := by
    rw [addAll_eq]
    rfl
  rw [Spilled.length_archiveOf, h.length_data, hsum]
  simp only [Layout.tileDataOffset, Layout.leafDirsOffset, Layout.jsonMetadataOffset, layoutOf,
    buildDirectories_of_few gz hfits hlen, List.length_nil, headerSize]
  rw [hjson] at hmeta ⊢
  omega

/-- An archive that 64 bits address round-trips exactly when no tile's bytes reach 4 GiB. -/
theorem roundTrips_iff (gz : Gzip) (minZoom maxZoom : Nat) (bbox : Bounds F)
    (metadataJson : List UInt8) {tiles : List Tile} (hvalid : ∀ t ∈ tiles, t.Valid)
    (hdistinct : tiles.Pairwise fun t t' => t.key ≠ t'.key)
    (hsize : ∀ bytes, (addAll gz (PmtilesWriter.new minZoom maxZoom bbox metadataJson)
      tiles).finishInto gz = .ok bytes → bytes.length < 2 ^ 64) :
    RoundTrips gz (PmtilesWriter.new minZoom maxZoom bbox metadataJson) tiles ↔
      ∀ t ∈ tiles, (t.stored gz).length < 2 ^ 32 :=
  ⟨stored_lt_of_roundTrips gz hvalid hdistinct hsize,
    roundTrips_of_stored_lt gz minZoom maxZoom bbox metadataJson hvalid hdistinct hsize⟩

/-! ## Two archives -/

/-- A compressor that leaves its input as it is. -/
def plainGzip : Gzip where
  compress := id
  decompress := some
  lossless := fun _ => rfl
  bound := fun b => by simp; omega

def emptyWriter : PmtilesWriter ℚ := PmtilesWriter.new 0 1 ⟨-180, -85, 180, 85⟩ [123, 125]

/-- A tile of 4 GiB. -/
def largeTile : Tile := ⟨0, 0, 0, .compressed (List.replicate (2 ^ 32) 0)⟩

theorem largeTile_valid : ∀ t ∈ [largeTile], t.Valid := by
  intro t ht
  rw [List.mem_singleton.mp ht]
  exact ⟨Nat.zero_le _, Nat.one_pos, Nat.one_pos⟩

theorem length_largeTile : (largeTile.stored plainGzip).length = 2 ^ 32 :=
  List.length_replicate

/-- The length of the tile is recorded as 0. -/
theorem large_tile_not_returned : ¬ RoundTrips plainGzip emptyWriter [largeTile] := by
  intro hround
  have hdistinct : [largeTile].Pairwise fun t t' => t.key ≠ t'.key := List.pairwise_singleton _ _
  have hlength : largeTile.length32 plainGzip = 0 := by
    rw [Tile.length32, length_largeTile, Nat.mod_self]
  have hsize : ∀ bytes, (addAll plainGzip emptyWriter [largeTile]).finishInto plainGzip = .ok bytes →
      bytes.length < 2 ^ 64 :=
    length_finishInto_lt plainGzip largeTile_valid hdistinct (by decide) (by simp [hlength])
  have hlt := stored_lt_of_roundTrips plainGzip largeTile_valid hdistinct hsize hround largeTile
    List.mem_cons_self
  rw [length_largeTile] at hlt
  exact lt_irrefl _ hlt

/-- Two tiles, one of them empty and the other encoded by the writer. -/
def smallTiles : List Tile := [⟨1, 1, 0, .compressed []⟩, ⟨0, 0, 0, .mvt [26, 0]⟩]

theorem smallTiles_valid : ∀ t ∈ smallTiles, t.Valid := by
  intro t ht
  rcases List.mem_cons.mp ht with rfl | ht
  · exact ⟨by decide, by decide, by decide⟩
  · rw [List.mem_singleton.mp ht]
    exact ⟨by decide, by decide, by decide⟩

theorem smallTiles_distinct : smallTiles.Pairwise fun t t' => t.key ≠ t'.key := by
  unfold smallTiles
  decide

theorem roundTrips_smallTiles : RoundTrips plainGzip emptyWriter smallTiles :=
  (roundTrips_iff plainGzip 0 1 ⟨-180, -85, 180, 85⟩ [123, 125] smallTiles_valid
    smallTiles_distinct (length_finishInto_lt plainGzip smallTiles_valid smallTiles_distinct
      (by decide) (by decide))).mpr (by unfold smallTiles; decide)

end RasterH3.Pmtiles
