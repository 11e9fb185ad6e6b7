import RasterH3.Proofs.MvtTables
import RasterH3.Proofs.MvtReach

/-!
# A vector tile says what its features are

Everything the encoder writes is a message of fields that the reader takes apart again, so a
tile that was written and can be read has each feature with its id, its properties and its
rings. The parts have modules of their own: rings and areas, the tables of keys and values,
the numbers of the wire. Here a feature is put together from them, then a layer, and then a
tile of cells.

A layer is written feature by feature with the tables growing along (`Written`), and read
with the tables as they are at the end. Writing stops where the surveyor's formula or a step
of the cursor leaves its type, and reading stops at a hex string that is none. What has to
be so for a feature is `Representable`; a layer round-trips if all its features are and its
tables are not full, and only if they are (`roundTrips_of_representable`,
`representable_of_roundTrips`).

These conditions are exact, but they are about what the encoder computes, the outline in
pixels and the terms of its area. What they ask of a cell and its tile is that the cell is
in reach of the tile, and a cap at a high zoom never is but in the first column. So
`cells_read_back` states the condition on cell, tile and zoom, and takes the way from there
to the pixels from the module on reach.
-/

namespace RasterH3.Pmtiles.Mvt

open Bytes Protobuf

theorem writePacked_eq_nil {ns : List Nat} : writePacked ns = [] ↔ ns = [] := by
  cases ns with
  | nil => simp [writePacked]
  | cons n ns => simp [writePacked, writeVarint_ne_nil]

@[simp] theorem writeMessage_append (fs gs : List Protobuf.Field) :
    writeMessage (fs ++ gs) = writeMessage fs ++ writeMessage gs :=
  List.flatMap_append

@[simp] theorem writeMessage_cons (f : Protobuf.Field) (fs : List Protobuf.Field) :
    writeMessage (f :: fs) = f.write ++ writeMessage fs := rfl

@[simp] theorem writeMessage_nil : writeMessage [] = [] := rfl

theorem writeTag_varint (number n : Nat) :
    writeTag number 0 ++ writeVarint n = Field.write ⟨number, .varint n⟩ := rfl

/-! ## One feature -/

def featureFields (id : UInt64) (tags : List Nat) (codes : List Nat) : List Protobuf.Field :=
  (if id ≠ 0 then [⟨1, .varint id.toNat⟩] else []) ++
    (if tags = [] then [] else [⟨2, .bytes (writePacked tags)⟩]) ++ [⟨3, .varint 3⟩] ++
    (if codes = [] then [] else [⟨4, .bytes (writePacked codes)⟩])

theorem writeFeature_eq (id : UInt64) (tags codes : List Nat) :
    writeFeature id tags (writePacked codes) = writeMessage (featureFields id tags codes) := by
  simp only [writeFeature, featureFields, writePacked_eq_nil, writeMessage_append,
    writeBytesField_eq, writeTag_varint]
  congr 1
  · congr 1
    · congr 1
      · split <;> simp
      · split <;> simp
    · simp
  · split <;> simp

/-- A packed field that is left out when it is empty. -/
theorem mapAll_readPacked (ns : List Nat) :
    (mapAll readPacked (if ns = [] then [] else [writePacked ns])).map List.flatten = some ns := by
  split
  next h => rw [h]; rfl
  next =>
    simp only [mapAll, readPacked_writePacked, Option.bind_eq_bind, Option.bind_some]
    simp

theorem bytesAt_featureFields (id : UInt64) (tags codes : List Nat) :
    bytesAt 2 (featureFields id tags codes) = (if tags = [] then [] else [writePacked tags]) ∧
      bytesAt 4 (featureFields id tags codes) = (if codes = [] then [] else [writePacked codes]) := by
  unfold featureFields
  constructor <;> split <;> split <;> split <;> simp

theorem varintAt_featureFields (id : UInt64) (tags codes : List Nat) :
    varintAt 3 (featureFields id tags codes) = some 3 ∧
      (varintAt 1 (featureFields id tags codes)).getD 0 = id.toNat := by
  unfold featureFields varintAt
  constructor
  · split <;> split <;> split <;> simp
  · split
    next => split <;> split <;> simp
    next h =>
      obtain rfl : id = 0 := not_not.mp h
      split <;> split <;> simp

theorem packedAt_eq (number : Nat) (fields : List Protobuf.Field) :
    packedAt number fields = (mapAll readPacked (bytesAt number fields)).map List.flatten := by
  unfold packedAt
  cases mapAll readPacked (bytesAt number fields) <;> rfl

theorem fits_featureFields (id : UInt64) (tags codes : List Nat) :
    ∀ f ∈ featureFields id tags codes, f.payload.Fits := by
  intro f hf
  have hkind : ∀ f ∈ featureFields id tags codes,
      (∃ n, f.payload = .varint n) ∨ ∃ b, f.payload = .bytes b := by
    unfold featureFields
    split <;> split <;> split <;> simp
  rcases hkind f hf with ⟨n, h⟩ | ⟨b, h⟩ <;> rw [h] <;> trivial

theorem decodeFeature_writeFeature {keys : List String} {values : List TileValue} {id : UInt64}
    {tags codes : List Nat} {properties : List (String × TileValue)} {rings : List (List Pixel)}
    (htags : decodeTags keys values tags = some properties)
    (hrings : readRings codes.length (0, 0) codes = some rings) :
    decodeFeature keys values (writeFeature id tags (writePacked codes)) =
      some ⟨id.toNat, properties, rings⟩ := by
  obtain ⟨htag, hgeometry⟩ := bytesAt_featureFields id tags codes
  obtain ⟨htype, hid⟩ := varintAt_featureFields id tags codes
  simp only [decodeFeature, writeFeature_eq, readMessage_writeMessage (fits_featureFields id tags codes),
    Option.bind_eq_bind, Option.bind_some, packedAt_eq, htag, hgeometry, mapAll_readPacked, htags,
    htype, ne_eq, not_true_eq_false, if_false, hrings, hid]
  rfl

/-! ## Features of a layer -/

/-- The cursor can draw the feature. -/
structure Drawable (f : MvtFeature) : Prop where
  copies : ∀ d ∈ offsets f.wrappedXOffset, ∀ p ∈ f.points, FitsI32 (p.1 + d)
  steps : ((0, 0) :: path f.points (offsets f.wrappedXOffset)).IsChain Near

theorem writeGeometry_eq_some {f : MvtFeature} (h : 3 ≤ f.points.length) {bytes : List UInt8} :
    writeGeometry f = some bytes ↔
      Drawable f ∧ bytes = writePacked (ringsCodes f.points (0, 0) (offsets f.wrappedXOffset)) := by
  rw [writeGeometry, if_pos h, writeRings_eq_some]
  constructor
  · rintro ⟨hcopies, hsteps, rfl⟩
    exact ⟨⟨hcopies, hsteps⟩, rfl⟩
  · rintro ⟨⟨hcopies, hsteps⟩, rfl⟩
    exact ⟨hcopies, hsteps, rfl⟩

/-- What a reader gets for a feature. -/
structure Decoded (filter : PropertyFilter) (f : MvtFeature) (tf : TileFeature) : Prop where
  id : tf.id = f.id.toNat
  properties : List.Forall₂ Tables.Reads (forEachFiltered filter f.properties) tf.properties
  rings : tf.rings = (offsets f.wrappedXOffset).map fun d => translated d f.points

/-- How many properties the encoder visits. -/
def visits (filter : PropertyFilter) (fs : List MvtFeature) : Nat :=
  (fs.map fun f => (forEachFiltered filter f.properties).length).sum

structure Written (filter : PropertyFilter) (t : Tables) (fs : List MvtFeature) (t' : Tables)
    (bytes : List UInt8) : Prop where
  drawable : ∀ f ∈ fs, Drawable f
  grows : t.Grows t'
  covers : ∀ f ∈ fs, ∀ p ∈ forEachFiltered filter f.properties,
    ∃ v ∈ t'.values, meaning v = meaning p.2
  visited : ∀ v ∈ t'.values,
    v ∈ t.values ∨ ∃ f ∈ fs, ∃ p ∈ forEachFiltered filter f.properties, v = p.2
  parts : ∃ parts : List (List UInt8),
    bytes = writeMessage (parts.map fun b => ⟨2, .bytes b⟩) ∧
    (t.Ok → t.Room (visits filter fs) → ∀ (t'' : Tables) (values : List TileValue),
      t'.Grows t'' → mapAll meaning t''.values = some values →
      ∃ tfs, mapAll (decodeFeature t''.keys values) parts = some tfs ∧
        List.Forall₂ (Decoded filter) fs tfs)

theorem writeFeatures_cons_eq_some {filter : PropertyFilter} {t t' : Tables} {f : MvtFeature}
    {fs : List MvtFeature} {bytes : List UInt8} :
    writeFeatures filter t (f :: fs) = some (t', bytes) ↔
      ∃ geometry rest, writeGeometry f = some geometry ∧
        writeFeatures filter (t.tags (forEachFiltered filter f.properties)).1 fs =
          some (t', rest) ∧
        bytes = writeBytesField 2 (writeFeature f.id
          (t.tags (forEachFiltered filter f.properties)).2 geometry) ++ rest := by
  simp only [writeFeatures, Option.bind_eq_bind, Option.bind_eq_some_iff]
  constructor
  · rintro ⟨geometry, hg, ⟨t'', rest⟩, hrest, heq⟩
    obtain ⟨rfl, rfl⟩ := Prod.mk.inj (Option.some.inj heq)
    exact ⟨geometry, rest, hg, hrest, rfl⟩
  · rintro ⟨geometry, rest, hg, hrest, rfl⟩
    exact ⟨geometry, hg, ⟨t', rest⟩, hrest, rfl⟩

theorem writeFeatures_written {filter : PropertyFilter} {t t' : Tables} {fs : List MvtFeature}
    {bytes : List UInt8} (hthree : ∀ f ∈ fs, 3 ≤ f.points.length) (hlisted : t.Listed)
    (h : writeFeatures filter t fs = some (t', bytes)) : Written filter t fs t' bytes := by
  induction fs generalizing t bytes with
  | nil =>
      obtain ⟨rfl, rfl⟩ := Prod.mk.inj (Option.some.inj h)
      exact {
        drawable := fun f hf => (by cases hf)
        grows := .refl _
        covers := fun f hf => (by cases hf)
        visited := fun v hv => .inl hv
        parts := ⟨[], rfl, fun _ _ _ _ _ _ => ⟨[], rfl, .nil⟩⟩ }
  | cons f fs ih =>
      obtain ⟨geometry, rest, hg, hrest, rfl⟩ := writeFeatures_cons_eq_some.mp h
      obtain ⟨hlisted', hcover, hfrom⟩ :=
        Tables.listed_tags hlisted (forEachFiltered filter f.properties)
      have hf := hthree f List.mem_cons_self
      obtain ⟨hdraw, rfl⟩ := (writeGeometry_eq_some hf).mp hg
      have hw := ih (fun g hg => hthree g (List.mem_cons_of_mem f hg)) hlisted' hrest
      have hgrows := t.tags_grows (forEachFiltered filter f.properties)
      refine ⟨?_, hgrows.trans hw.grows, ?_, ?_, ?_⟩
      · exact List.forall_mem_cons.mpr ⟨hdraw, hw.drawable⟩
      · refine List.forall_mem_cons.mpr ⟨fun p hp => ?_, hw.covers⟩
        obtain ⟨v, hv, hmeaning⟩ := hcover p hp
        exact ⟨v, hw.grows.values.subset hv, hmeaning⟩
      · intro v hv
        rcases hw.visited v hv with hv | ⟨g, hg, p, hp, rfl⟩
        · rcases hfrom v hv with hv | ⟨p, hp, rfl⟩
          · exact .inl hv
          · exact .inr ⟨f, List.mem_cons_self, p, hp, rfl⟩
        · exact .inr ⟨g, List.mem_cons_of_mem f hg, p, hp, rfl⟩
      · obtain ⟨parts, rfl, hparts⟩ := hw.parts
        refine ⟨_ :: parts, by rw [writeBytesField_eq]; rfl, fun ok room t'' values ht hvalues => ?_⟩
        have hroom : t.Room ((forEachFiltered filter f.properties).length + visits filter fs) := room
        obtain ⟨read, hread, hall⟩ := Tables.decodeTags_tags ok
          ⟨by have := hroom.keys; omega, by have := hroom.values; omega⟩ (hw.grows.trans ht) hvalues
        have ok' := Tables.ok_tags ok (forEachFiltered filter f.properties)
          ⟨by have := hroom.keys; omega, by have := hroom.values; omega⟩
        obtain ⟨tfs, htfs, hdecoded⟩ := hparts ok' (Tables.Room.tags _ hroom) t'' values ht hvalues
        have hrings := readRings_ringsCodes hf hdraw.steps
          (length_le_ringsCodes hf (0, 0) (offsets f.wrappedXOffset))
        exact ⟨_, mapAll_cons_eq_some.mpr
          ⟨_, _, decodeFeature_writeFeature hread hrings, htfs, rfl⟩, .cons ⟨rfl, hall, rfl⟩ hdecoded⟩

theorem exists_writeFeatures (filter : PropertyFilter) (t : Tables) {fs : List MvtFeature}
    (hthree : ∀ f ∈ fs, 3 ≤ f.points.length) (hdraw : ∀ f ∈ fs, Drawable f) :
    ∃ t' bytes, writeFeatures filter t fs = some (t', bytes) := by
  induction fs generalizing t with
  | nil => exact ⟨t, [], rfl⟩
  | cons f fs ih =>
      obtain ⟨hf, hfs⟩ := List.forall_mem_cons.mp hthree
      obtain ⟨hd, hds⟩ := List.forall_mem_cons.mp hdraw
      obtain ⟨t', rest, hrest⟩ := ih (t.tags (forEachFiltered filter f.properties)).1 hfs hds
      exact ⟨t', _, writeFeatures_cons_eq_some.mpr
        ⟨_, rest, (writeGeometry_eq_some hf).mpr ⟨hd, rfl⟩, hrest, rfl⟩⟩

/-! ## The layer -/

theorem writeValues_parts {vs : List MvtValue} {bytes : List UInt8}
    (h : writeValues vs = some bytes) :
    ∃ parts : List (List UInt8), bytes = writeMessage (parts.map fun b => ⟨4, .bytes b⟩) ∧
      mapAll decodeValue parts = mapAll meaning vs := by
  induction vs generalizing bytes with
  | nil =>
      obtain rfl := Option.some.inj h
      exact ⟨[], rfl, rfl⟩
  | cons v vs ih =>
      simp only [writeValues, Option.bind_eq_bind, Option.bind_eq_some_iff] at h
      obtain ⟨b, hb, rest, hrest, heq⟩ := h
      obtain rfl := Option.some.inj heq
      obtain ⟨parts, rfl, hparts⟩ := ih hrest
      refine ⟨b :: parts, by rw [writeBytesField_eq]; rfl, ?_⟩
      rw [mapAll, mapAll, decodeValue_writeTo hb, hparts]

theorem exists_writeValues {vs : List MvtValue} (h : ∀ v ∈ vs, Spelled v) :
    ∃ bytes, writeValues vs = some bytes := by
  induction vs with
  | nil => exact ⟨[], rfl⟩
  | cons v vs ih =>
      obtain ⟨hv, hvs⟩ := List.forall_mem_cons.mp h
      obtain ⟨b, hb⟩ := writeTo_of_spelled hv
      obtain ⟨rest, hrest⟩ := ih hvs
      exact ⟨writeBytesField 4 b ++ rest, by rw [writeValues, hb, hrest]; rfl⟩

def layerFields (name : String) (features : List (List UInt8)) (keys : List String)
    (values : List (List UInt8)) : List Protobuf.Field :=
  [⟨15, .varint 2⟩, ⟨1, .bytes (utf8 name)⟩] ++ features.map (fun b => ⟨2, .bytes b⟩) ++
    (keys.map utf8).map (fun b => ⟨3, .bytes b⟩) ++ values.map (fun b => ⟨4, .bytes b⟩) ++
    [⟨5, .varint extent⟩]

theorem encode_eq (layer : MvtLayer) {t : Tables} {features values : List (List UInt8)}
    (hfeatures : writeFeatures layer.propertyFilter .empty layer.features =
      some (t, writeMessage (features.map fun b => ⟨2, .bytes b⟩)))
    (hvalues : writeValues t.values =
      some (writeMessage (values.map fun b => ⟨4, .bytes b⟩))) :
    encode layer = some (writeMessage
      [⟨3, .bytes (writeMessage (layerFields layer.name features t.keys values))⟩]) := by
  have hkeys : t.keys.flatMap (writeStringField 3) =
      writeMessage ((t.keys.map utf8).map fun b => ⟨3, .bytes b⟩) := by
    simp only [writeMessage, List.flatMap_map, List.map_map]
    exact congrArg (t.keys.flatMap ·) (funext fun k => writeBytesField_eq 3 (utf8 k))
  simp only [encode, hfeatures, hvalues, Option.bind_eq_bind, Option.bind_some, hkeys,
    writeStringField, writeBytesField_eq, writeTag_varint, layerFields, writeMessage_append,
    writeMessage_cons, writeMessage_nil, List.append_nil, List.append_assoc]
  rfl

theorem fits_layerFields (name : String) (features : List (List UInt8)) (keys : List String)
    (values : List (List UInt8)) :
    ∀ f ∈ layerFields name features keys values, f.payload.Fits := by
  intro f hf
  simp only [layerFields, List.mem_append, List.mem_cons, List.mem_map, List.not_mem_nil,
    or_false] at hf
  rcases hf with ((((rfl | rfl) | ⟨b, -, rfl⟩) | ⟨b, -, rfl⟩) | ⟨b, -, rfl⟩) | rfl <;> trivial

theorem mapAll_fromUtf8 (keys : List String) : mapAll fromUtf8 (keys.map utf8) = some keys := by
  induction keys with
  | nil => rfl
  | cons k keys ih =>
      rw [List.map_cons, mapAll, fromUtf8_utf8, ih]
      rfl

theorem decodeTile_layer (name : String) (features : List (List UInt8)) (keys : List String)
    (values : List (List UInt8)) :
    decodeTile (writeMessage
      [⟨3, .bytes (writeMessage (layerFields name features keys values))⟩]) = do
        let values ← mapAll decodeValue values
        let features ← mapAll (decodeFeature keys values) features
        return [⟨name, extent, features⟩] := by
  have hbytes : ∀ n, bytesAt n (layerFields name features keys values) =
      (if 1 = n then [utf8 name] else []) ++ (if 2 = n then features else []) ++
      (if 3 = n then keys.map utf8 else []) ++ (if 4 = n then values else []) := by
    intro n
    simp only [layerFields, bytesAt_append, bytesAt_cons_varint, bytesAt_cons_bytes, bytesAt_nil,
      bytesAt_map_bytes, List.append_nil]
  have hvarint : ∀ n, varintAt n (layerFields name features keys values) =
      ((if 15 = n then [2] else []) ++ if 5 = n then [extent] else []).getLast? := by
    intro n
    simp only [varintAt, layerFields, varintsAt_append, varintsAt_cons_varint, varintsAt_cons_bytes,
      varintsAt_nil, varintsAt_map_bytes, List.append_nil]
  have hlayer : decodeLayer (writeMessage (layerFields name features keys values)) = do
      let values ← mapAll decodeValue values
      let features ← mapAll (decodeFeature keys values) features
      return ⟨name, extent, features⟩ := by
    simp [decodeLayer, readMessage_writeMessage (fits_layerFields name features keys values), hbytes, hvarint,
      fromUtf8_utf8, mapAll_fromUtf8]
  rw [decodeTile, readMessage_writeMessage (by simp [WireValue.Fits])]
  simp only [Option.bind_eq_bind, Option.bind_some, bytesAt_cons_bytes, if_true, bytesAt_nil, mapAll,
    hlayer]
  cases mapAll decodeValue values with
  | none => rfl
  | some values =>
      simp only [Option.bind_some]
      cases mapAll (decodeFeature keys values) features <;> rfl

/-! ## Tiles of cells -/

section Cells

variable {F : Type} [Field F] [LinearOrder F] [FloorRing F]

/-- What the source of a feature is read back as. -/
structure Restored (filter : PropertyFilter) (s : Source F) (tf : TileFeature) : Prop where
  id : tf.id = s.id.toNat
  properties : List.Forall₂ Tables.Reads (forEachFiltered filter s.properties) tf.properties
  /-- The outline in one direction or the other, twice where it crosses the seam of the world. -/
  rings : ∃ ring, (ring = (outline s.vertices s.tile).points ∨
      ring = (outline s.vertices s.tile).points.reverse) ∧
    tf.rings = (offsets (outline s.vertices s.tile).wrappedXOffset).map fun d => translated d ring
  /-- Exterior rings have positive area; an outline that rounding left without area has none. -/
  exterior : ∀ ring ∈ tf.rings, 0 < area ring ∨ area (outline s.vertices s.tile).points = 0

/-- The layer is built and encoded without an overflow, and read as what it was made of. -/
def RoundTrips (name : String) (filter : PropertyFilter) (sources : List (Source F)) : Prop :=
  ∃ features bytes tfs, mapAll fromMercator sources = some features ∧
    encode ⟨name, features, filter⟩ = some bytes ∧
    decodeTile bytes = some [⟨name, extent, tfs⟩] ∧ List.Forall₂ (Restored filter) sources tfs

/-- The numbers of a feature fit their types, and its strings are strings. -/
structure Representable (filter : PropertyFilter) (s : Source F) : Prop where
  drawn : OutlineFits (outline s.vertices s.tile)
  spelled : ∀ p ∈ forEachFiltered filter s.properties, Spelled p.2

def featureOf (s : Source F) : MvtFeature :=
  ⟨s.id, s.properties, exterior (outline s.vertices s.tile).points,
    (outline s.vertices s.tile).wrappedXOffset⟩

theorem fromMercator_eq_some {s : Source F} {f : MvtFeature} :
    fromMercator s = some f ↔ AreaFits (outline s.vertices s.tile).points ∧ f = featureOf s := by
  simp only [fromMercator, Option.bind_eq_bind, Option.bind_eq_some_iff, orientExterior_eq_some]
  constructor
  · rintro ⟨ring, ⟨harea, rfl⟩, hf⟩
    exact ⟨harea, (Option.some.inj hf).symm⟩
  · rintro ⟨harea, rfl⟩
    exact ⟨_, ⟨harea, rfl⟩, rfl⟩

theorem mapAll_fromMercator {sources : List (Source F)} {features : List MvtFeature} :
    mapAll fromMercator sources = some features ↔
      (∀ s ∈ sources, AreaFits (outline s.vertices s.tile).points) ∧
        features = sources.map featureOf := by
  induction sources generalizing features with
  | nil => simp [mapAll, eq_comm]
  | cons s sources ih =>
      rw [mapAll_cons_eq_some, List.forall_mem_cons]
      constructor
      · rintro ⟨f, fs, hf, hfs, rfl⟩
        obtain ⟨harea, rfl⟩ := fromMercator_eq_some.mp hf
        obtain ⟨hareas, rfl⟩ := ih.mp hfs
        exact ⟨⟨harea, hareas⟩, rfl⟩
      · rintro ⟨⟨harea, hareas⟩, rfl⟩
        exact ⟨_, _, fromMercator_eq_some.mpr ⟨harea, rfl⟩, ih.mpr ⟨hareas, rfl⟩, rfl⟩

variable [IsStrictOrderedRing F]

theorem three_le_featureOf (s : Source F) : 3 ≤ (featureOf s).points.length := by
  rw [featureOf, length_exterior]
  exact three_le_outline s.three s.tile

theorem drawable_featureOf {s : Source F} :
    Drawable (featureOf s) ↔
      (∀ p ∈ (outline s.vertices s.tile).points,
        FitsI32 (p.1 + (outline s.vertices s.tile).wrappedXOffset)) ∧
      ((0, 0) :: path (exterior (outline s.vertices s.tile).points)
        (offsets (outline s.vertices s.tile).wrappedXOffset)).IsChain Near := by
  constructor
  · rintro ⟨hcopies, hsteps⟩
    exact ⟨fun p hp => hcopies _ (mem_offsets.mpr (.inr rfl)) p (mem_exterior.mpr hp), hsteps⟩
  · rintro ⟨hcopy, hsteps⟩
    refine ⟨fun d hd p hp => ?_, hsteps⟩
    have hp := mem_exterior.mp hp
    rcases mem_offsets.mp hd with rfl | rfl
    · rw [add_zero]
      exact fits_of_mem_outline s.three s.tile hp
    · exact hcopy p hp

omit [IsStrictOrderedRing F] in
theorem restored_of_decoded {filter : PropertyFilter} {s : Source F} {tf : TileFeature}
    (h : Decoded filter (featureOf s) tf) : Restored filter s tf where
  id := h.id
  properties := h.properties
  rings := ⟨_, exterior_cases _, h.rings⟩
  exterior := by
    intro ring hring
    rw [h.rings] at hring
    obtain ⟨d, -, rfl⟩ := List.mem_map.mp hring
    have harea : area (translated d (featureOf s).points) =
        |area (outline s.vertices s.tile).points| := by
      rw [area_translated]
      exact area_exterior _
    rw [harea]
    by_cases hzero : area (outline s.vertices s.tile).points = 0
    · exact .inr hzero
    · exact .inl (abs_pos.mpr hzero)

omit [IsStrictOrderedRing F] in
theorem restored_of_all {filter : PropertyFilter} {sources : List (Source F)}
    {tfs : List TileFeature} (h : List.Forall₂ (Decoded filter) (sources.map featureOf) tfs) :
    List.Forall₂ (Restored filter) sources tfs := by
  rw [List.forall₂_map_left_iff] at h
  exact h.imp fun _ _ hd => restored_of_decoded hd

/-- A layer that round-trips was made of features that can be represented. -/
theorem representable_of_roundTrips {name : String} {filter : PropertyFilter}
    {sources : List (Source F)} (h : RoundTrips name filter sources) :
    ∀ s ∈ sources, Representable filter s := by
  obtain ⟨features, bytes, tfs, hfeatures, hencode, hdecode, -⟩ := h
  obtain ⟨hareas, rfl⟩ := mapAll_fromMercator.mp hfeatures
  have hthree : ∀ f ∈ sources.map featureOf, 3 ≤ f.points.length :=
    List.forall_mem_map.mpr fun s _ => three_le_featureOf s
  -- what was encoded
  have hparts := hencode
  simp only [encode, Option.bind_eq_bind, Option.bind_eq_some_iff] at hparts
  obtain ⟨⟨t, fbytes⟩, hf, vbytes, hv, -⟩ := hparts
  have hw := writeFeatures_written hthree Tables.listed_empty hf
  obtain ⟨fparts, rfl, -⟩ := hw.parts
  obtain ⟨vparts, rfl, hvalues⟩ := writeValues_parts hv
  have heq := Option.some.inj (hencode.symm.trans (encode_eq _ hf hv))
  rw [heq, decodeTile_layer, hvalues] at hdecode
  -- it can only be read if every value of the table can
  have hall : ∃ values, mapAll meaning t.values = some values := by
    cases hmap : mapAll meaning t.values with
    | none =>
        rw [hmap] at hdecode
        cases hdecode
    | some values => exact ⟨values, rfl⟩
  obtain ⟨values, hall⟩ := hall
  intro s hs
  have hmem : featureOf s ∈ sources.map featureOf := List.mem_map_of_mem hs
  obtain ⟨hcopy, hsteps⟩ := drawable_featureOf.mp (hw.drawable _ hmem)
  refine ⟨⟨hareas s hs, hcopy, hsteps⟩, fun p hp => ?_⟩
  obtain ⟨v, hv, hmeaning⟩ := hw.covers _ hmem p hp
  rw [spelled_iff, ← hmeaning]
  exact exists_of_mapAll hall hv

/-- A layer of features that can be represented round-trips while its tables are not full. -/
theorem roundTrips_of_representable {name : String} {filter : PropertyFilter}
    {sources : List (Source F)} (h : ∀ s ∈ sources, Representable filter s)
    (hroom : (sources.map fun s => (forEachFiltered filter s.properties).length).sum ≤ 2 ^ 32) :
    RoundTrips name filter sources := by
  have hthree : ∀ f ∈ sources.map featureOf, 3 ≤ f.points.length :=
    List.forall_mem_map.mpr fun s _ => three_le_featureOf s
  have hdraw : ∀ f ∈ sources.map featureOf, Drawable f :=
    List.forall_mem_map.mpr fun s hs => 
      drawable_featureOf.mpr ⟨(h s hs).drawn.copy, (h s hs).drawn.steps⟩
  obtain ⟨t, fbytes, hf⟩ := exists_writeFeatures filter .empty hthree hdraw
  have hw := writeFeatures_written hthree Tables.listed_empty hf
  have hspelled : ∀ v ∈ t.values, Spelled v := by
    intro v hv
    rcases hw.visited v hv with hv | ⟨f, hmem, p, hp, rfl⟩
    · cases hv
    · obtain ⟨s, hs, rfl⟩ := List.mem_map.mp hmem
      exact (h s hs).spelled p hp
  obtain ⟨vbytes, hv⟩ := exists_writeValues hspelled
  obtain ⟨values, hall⟩ := exists_mapAll fun v hv => spelled_iff.mp (hspelled v hv)
  obtain ⟨vparts, rfl, hvalues⟩ := writeValues_parts hv
  obtain ⟨fparts, rfl, hread⟩ := hw.parts
  have hvisits : visits filter (sources.map featureOf) ≤ 2 ^ 32 := by
    rw [visits, List.map_map]
    exact hroom
  have room : Tables.empty.Room (visits filter (sources.map featureOf)) :=
    ⟨by simpa [Tables.empty] using hvisits, by simpa [Tables.empty] using hvisits⟩
  obtain ⟨tfs, htfs, hdecoded⟩ := hread Tables.ok_empty room t values (.refl t) hall
  refine ⟨sources.map featureOf, _, tfs,
    mapAll_fromMercator.mpr ⟨fun s hs => (h s hs).drawn.area, rfl⟩,
    encode_eq ⟨name, sources.map featureOf, filter⟩ hf hv, ?_, restored_of_all hdecoded⟩
  rw [decodeTile_layer, hvalues, hall]
  simp only [Option.bind_eq_bind, Option.bind_some, htfs]
  rfl

end Cells

/-! The cell at the north pole: Mercator cuts all of it to the top edge of the map. -/

def northPole (t : TileXy) (h : t.tx < 2 ^ t.z ∧ t.ty < 2 ^ t.z) : Source ℚ where
  id := 0x8f0326233ad5a5e
  vertices := [⟨1 / 12, 0⟩, ⟨3 / 12, 0⟩, ⟨5 / 12, 0⟩, ⟨7 / 12, 0⟩, ⟨9 / 12, 0⟩, ⟨11 / 12, 0⟩]
  tile := t
  properties := .generic [("h3_index", .uint 0x8f0326233ad5a5e), ("count", .int 3)]
  three := by decide
  normalized := by decide +kernel
  inPyramid := h

end RasterH3.Pmtiles.Mvt
