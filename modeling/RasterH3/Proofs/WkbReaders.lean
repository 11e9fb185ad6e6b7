import RasterH3.Encoding.WkbReader
import RasterH3.Sedona.WkbEnvelope

/-!
# Two readers of well-known binary

A geometry that comes with a query is read twice, by a strict reader that makes polygons of
it and by one that folds its points into an envelope. What they read are bytes that somebody
else has written, in either byte order, with or without further ordinates and a reference
system, by two conventions for the code of a geometry.

What spells a polygon is said first, level by level: points, rings, headers, parts. The
strict reader reads exactly that (`readPolygons_reads`), so it takes every spelling to its
end and no beginning of one; of two accepted strings, neither begins the other
(`accepted_prefix_free`). Every level is put together from the levels below as the reader
is, and a count that is guarded by the bytes left is one lemma for all of them
(`counted_reads`).

The envelope reader is then run along a spelling (`geometry_run`): it folds the points of
all rings, provided that it counts as many ordinates in a point as the spelling has. The
strict reader drops empty parts and closes open rings, which changes neither the set of
points nor, therefore, the smallest box around them (`mem_cleaned`).

The two count differently where a code says twice that a point has a Z or an M, by a flag
and by its thousands. The strict reader takes both, the other one. For each code, the
envelope agrees on all spellings with that code, or there is one on which it does not; the
equivalence is at the level of codes, since a ring without points has no ordinates to count
wrong.
-/

namespace RasterH3.Encoding

open Bytes

/-! ## Spellings -/

abbrev Ring := List Coord

/-- A point of `dims` ordinates. -/
def PointSpelled (little : Bool) (dims : Nat) : Format Coord := fun p bytes =>
  p.1 < 256 ^ 8 ∧ p.2 < 256 ^ 8 ∧ ∃ extras : List Nat, extras.length = dims - 2 ∧
    (∀ e ∈ extras, e < 256 ^ 8) ∧
      bytes = writeNum little 8 p.1 ++ (writeNum little 8 p.2 ++ extras.flatMap (writeNum little 8))

/-- A list behind its length. -/
def Counted {A : Type} (little : Bool) (f : Format A) : Format (List A) := fun xs bytes =>
  xs.length < 256 ^ 4 ∧ ∃ items, Reads.Listed f xs.length xs items ∧
    bytes = writeNum little 4 xs.length ++ items

def RingSpelled (little : Bool) (dims : Nat) : Format Ring := Counted little (PointSpelled little dims)

def RingsSpelled (little : Bool) (dims : Nat) : Format (List Ring) :=
  Counted little (RingSpelled little dims)

/-- A header with a code, and a reference system if the code says so. -/
def HeaderSpelled (little : Bool) (raw : Nat) (bytes : List UInt8) : Prop :=
  raw < 256 ^ 4 ∧ ∃ srid, srid.length = (if sridFlag raw then 4 else 0) ∧
    bytes = writeNum true 1 (bit little) ++ (writeNum little 4 raw ++ srid)

/-- The ordinates that the strict reader takes a code for. -/
def ordinates (raw : Nat) : Nat :=
  2 + bit (zFlag raw) + bit (mFlag raw) + (isoOrdinates (isoCode raw)).getD 0

structure CodeOf (base raw : Nat) : Prop where
  supported : isoOrdinates (isoCode raw) ≠ none
  base : isoCode raw % 1000 = base

/-- A polygon with its header, under a code that the rings allow. -/
def PartSpelled (codes : Nat → List Ring → Prop) : Format (List Ring) := fun rings bytes =>
  ∃ little raw header body, HeaderSpelled little raw header ∧ CodeOf wkbPolygon raw ∧
    codes raw rings ∧ RingsSpelled little (ordinates raw) rings body ∧ bytes = header ++ body

/-- A polygon, or a multipolygon of such parts. -/
def GeometrySpelled (codes : Nat → List Ring → Prop) : Format (List (List Ring)) := fun parts bytes =>
  (∃ rings, parts = [rings] ∧ PartSpelled codes rings bytes) ∨
    ∃ little raw header body, HeaderSpelled little raw header ∧ CodeOf wkbMultipolygon raw ∧
      Counted little (PartSpelled codes) parts body ∧ bytes = header ++ body

/-! ## What the strict reader reads -/

theorem listed_writeNum {little : Bool} {n w : Nat} {xs : List Nat} {bytes : List UInt8} :
    Reads.Listed (fun m b => m < 256 ^ w ∧ b = writeNum little w m) n xs bytes ↔
      xs.length = n ∧ (∀ x ∈ xs, x < 256 ^ w) ∧ bytes = xs.flatMap (writeNum little w) := by
  unfold Reads.Listed
  refine and_congr_right fun hlen => ⟨fun h => ?_, fun h => ?_⟩
  · rcases h with ⟨pieces, hall, rfl⟩
    clear hlen
    induction hall with
    | nil => exact ⟨nofun, rfl⟩
    | cons hx hall ih =>
        rw [List.forall_mem_cons, List.flatten_cons, List.flatMap_cons, ih.2, hx.2]
        exact ⟨⟨hx.1, ih.1⟩, rfl⟩
  · rcases h with ⟨hlt, rfl⟩
    refine ⟨xs.map (writeNum little w), ?_, List.flatMap_def⟩
    rw [List.forall₂_map_right_iff, List.forall₂_same]
    exact fun x hx => ⟨hlt x hx, rfl⟩

/-- Whatever is made of a point, in either reader. -/
theorem point_reads {E B : Type} (eof : E) (little : Bool) (dims : Nat) (g : Coord → B) :
    Reads (Reader.num eof little 8 >>= fun x => Reader.num eof little 8 >>= fun y =>
        Reader.repeated (Reader.num eof little 8) (dims - 2) >>= fun _ => pure (g (x, y)))
      fun made bytes => ∃ p, PointSpelled little dims p bytes ∧ made = g p := by
  have hnum := Reads.num eof little 8
  refine (hnum.bind fun x => hnum.bind fun y => (hnum.repeated (dims - 2)).bind fun _ =>
    Reads.pure (g (x, y))).congr fun made bytes => ?_
  refine ⟨fun h => ?_, fun h => ?_⟩
  · rcases h with ⟨x, _, _, ⟨hx, rfl⟩, ⟨y, _, _, ⟨hy, rfl⟩, ⟨extras, _, _, hextras, ⟨rfl, rfl⟩,
      rfl⟩, rfl⟩, rfl⟩
    rcases listed_writeNum.mp hextras with ⟨hlen, hlt, rfl⟩
    exact ⟨(x, y), ⟨hx, hy, extras, hlen, hlt, by rw [List.append_nil]⟩, rfl⟩
  · rcases h with ⟨p, ⟨hx, hy, extras, hlen, hlt, rfl⟩, rfl⟩
    exact ⟨p.1, _, _, ⟨hx, rfl⟩, ⟨p.2, _, _, ⟨hy, rfl⟩, ⟨extras, _, [],
      listed_writeNum.mpr ⟨hlen, hlt, rfl⟩, ⟨rfl, rfl⟩, (List.append_nil _).symm⟩, rfl⟩, rfl⟩

theorem readPoint_reads (header : Header) :
    Reads (readPoint header) (PointSpelled header.little header.dims) :=
  (point_reads truncated header.little header.dims id).congr fun p bytes => by simp

theorem pointSpelled_length {little : Bool} {dims : Nat} {p : Coord} {bytes : List UInt8}
    (h : PointSpelled little dims p bytes) : 8 * dims ≤ bytes.length := by
  rcases h with ⟨-, -, extras, hlen, -, rfl⟩
  have hextras : (extras.flatMap (writeNum little 8)).length = extras.length * 8 := by
    rw [List.length_flatMap, List.map_congr_left fun e _ => length_writeNum little 8 e,
      List.map_const', List.sum_replicate, smul_eq_mul]
  rw [List.length_append, List.length_append, hextras, length_writeNum, length_writeNum]
  omega

/-- A count that is read, guarded, and followed by so many items. -/
theorem counted_reads {A : Type} {read : WkbReader A} {f : Format A} {little : Bool} {size : Nat}
    (h : Reads read f) (hsize : ∀ x b, f x b → size ≤ b.length) :
    Reads (Reader.num truncated little 4 >>= fun n =>
        Reader.guarded truncated n size >>= fun _ => Reader.repeated read n)
      (Counted little f) := by
  refine ((Reads.num truncated little 4).bind fun n =>
    Reads.guarded_repeated truncated n h hsize).congr fun xs bytes => ?_
  unfold Counted
  refine ⟨fun h => ?_, fun h => ?_⟩
  · rcases h with ⟨n, _, items, ⟨hn, rfl⟩, hlist, rfl⟩
    obtain rfl := hlist.1
    exact ⟨hn, items, hlist, rfl⟩
  · rcases h with ⟨hn, items, hlist, rfl⟩
    exact ⟨xs.length, _, items, ⟨hn, rfl⟩, hlist, rfl⟩

theorem counted_length {A : Type} {little : Bool} {f : Format A} {xs : List A} {bytes : List UInt8}
    (h : Counted little f xs bytes) : 4 ≤ bytes.length := by
  rcases h with ⟨-, items, -, rfl⟩
  rw [List.length_append, length_writeNum]
  omega

theorem readRing_reads (header : Header) :
    Reads (readRing header) (RingSpelled header.little header.dims) :=
  counted_reads (readPoint_reads header) fun _ _ hp => pointSpelled_length hp

theorem readRings_reads (header : Header) :
    Reads (readRings header) (RingsSpelled header.little header.dims) :=
  counted_reads (readRing_reads header) fun _ _ hr => counted_length hr

/-- A byte order is one byte, in either reader. -/
theorem byteOrder_reads {E : Type} (eof e : E) :
    Reads (Reader.num eof true 1 >>= fun byte =>
        if byte = 0 then pure false else if byte = 1 then pure true else throw e)
      fun little bytes => bytes = writeNum true 1 (bit little) := by
  refine ((Reads.num eof true 1).bind fun byte => Reads.ite (Reads.pure false)
    (Reads.ite (Reads.pure true) (Reads.throw _))).congr fun little bytes => ?_
  refine ⟨fun h => ?_, fun h => ?_⟩
  · rcases h with ⟨byte, _, rest, ⟨-, rfl⟩, hrest, rfl⟩
    split at hrest
    next hzero =>
      rw [hrest.1, hrest.2, List.append_nil, hzero]
      rfl
    next =>
      split at hrest
      next hone =>
        rw [hrest.1, hrest.2, List.append_nil, hone]
        rfl
      next => exact hrest.elim
  · subst h
    refine ⟨bit little, _, [], ⟨?_, rfl⟩, ?_, (List.append_nil _).symm⟩
    · cases little <;> decide
    · cases little <;> simp [bit]

theorem readByteOrder_reads :
    Reads readByteOrder fun little bytes => bytes = writeNum true 1 (bit little) :=
  byteOrder_reads truncated "invalid WKB byte order marker"

/-- The header that a code stands for. -/
def codeHeader (little : Bool) (raw : Nat) : Header where
  little
  baseType := isoCode raw % 1000
  dims := ordinates raw

theorem headerOf_reads (little : Bool) (raw : Nat) :
    Reads (headerOf little raw) fun header bytes => isoOrdinates (isoCode raw) ≠ none ∧
      header = codeHeader little raw ∧ bytes = [] := by
  unfold headerOf
  cases hiso : isoOrdinates (isoCode raw) with
  | none => exact (Reads.throw _).congr fun _ _ => by simp
  | some more =>
      refine (Reads.pure _).congr fun header bytes => ?_
      simp [codeHeader, ordinates, hiso]

theorem readHeader_reads :
    Reads readHeader fun header bytes => ∃ little raw, HeaderSpelled little raw bytes ∧
      isoOrdinates (isoCode raw) ≠ none ∧ header = codeHeader little raw := by
  refine (readByteOrder_reads.bind fun little => (Reads.num truncated little 4).bind fun raw =>
    (Reads.exact truncated (if sridFlag raw then 4 else 0)).bind fun _ =>
      headerOf_reads little raw).congr fun header bytes => ?_
  refine ⟨fun h => ?_, fun h => ?_⟩
  · rcases h with ⟨little, _, _, rfl, ⟨raw, _, _, ⟨hraw, rfl⟩, ⟨_, srid, _, ⟨hlen, rfl⟩,
      ⟨hiso, rfl, rfl⟩, rfl⟩, rfl⟩, rfl⟩
    exact ⟨little, raw, ⟨hraw, srid, hlen, by rw [List.append_nil]⟩, hiso, rfl⟩
  · rcases h with ⟨little, raw, ⟨hraw, srid, hlen, rfl⟩, hiso, rfl⟩
    exact ⟨little, _, _, rfl, ⟨raw, _, _, ⟨hraw, rfl⟩, ⟨srid, _, [], ⟨hlen, rfl⟩,
      ⟨hiso, rfl, rfl⟩, (List.append_nil _).symm⟩, rfl⟩, rfl⟩

/-- A polygon value: without an exterior there are no holes. -/
def Sound (rings : List Ring) : Prop :=
  match rings with
  | [] => True
  | exterior :: interiors => exterior = [] → ∀ r ∈ interiors, r = []

/-- Empty parts and holes dropped, open rings closed. -/
def cleaned (rings : List Ring) : Option Polygon :=
  match rings with
  | [] => none
  | exterior :: interiors =>
      if exterior = [] then none
      else some ⟨closed exterior, (interiors.filter fun r => r ≠ []).map closed⟩

theorem polygonOf_ok {rings : List Ring} {polygon : Option Polygon} :
    polygonOf rings = .ok polygon ↔ Sound rings ∧ polygon = cleaned rings := by
  cases rings with
  | nil =>
      simp only [polygonOf, Sound, cleaned, true_and, Except.ok.injEq]
      exact eq_comm
  | cons exterior interiors =>
      simp only [polygonOf, Sound, cleaned]
      by_cases hext : exterior = []
      · simp only [hext, if_true, forall_const]
        split
        next hholes =>
          refine ⟨fun h => (nomatch h), fun h => ?_⟩
          simp only [List.any_eq_true, decide_eq_true_eq] at hholes
          rcases hholes with ⟨r, hr, hne⟩
          exact absurd (h.1 r hr) hne
        next hholes =>
          simp only [List.any_eq_true, decide_eq_true_eq, not_exists, not_and, not_not] at hholes
          refine ⟨fun h => ⟨hholes, (Except.ok.inj h).symm⟩, fun h => by rw [h.2]⟩
      · simp only [hext, if_false, false_imp_iff, true_and, Except.ok.injEq]
        exact eq_comm

/-- The bytes spell rings that are made this polygon. -/
def Makes (f : Format (List Ring)) : Format (Option Polygon) := fun polygon bytes =>
  ∃ rings, f rings bytes ∧ Sound rings ∧ polygon = cleaned rings

theorem polygonFrom_reads (rings : List Ring) :
    Reads (polygonFrom rings) fun polygon bytes =>
      (Sound rings ∧ polygon = cleaned rings) ∧ bytes = [] := by
  unfold polygonFrom
  cases hmade : polygonOf rings with
  | ok made =>
      rcases polygonOf_ok.mp hmade with ⟨hsound, rfl⟩
      refine (Reads.pure _).congr fun polygon bytes => ?_
      simp [hsound]
  | error e =>
      refine (Reads.throw _).congr fun polygon bytes => ?_
      refine ⟨False.elim, fun h => ?_⟩
      rw [polygonOf_ok.mpr h.1] at hmade
      cases hmade

theorem readPolygonBody_reads (header : Header) :
    Reads (readPolygonBody header) (Makes (RingsSpelled header.little header.dims)) := by
  refine ((readRings_reads header).bind polygonFrom_reads).congr fun polygon bytes => ?_
  refine ⟨fun h => ?_, fun h => ?_⟩
  · rcases h with ⟨rings, body, _, hrings, ⟨hmade, rfl⟩, rfl⟩
    exact ⟨rings, by rwa [List.append_nil], hmade⟩
  · rcases h with ⟨rings, hrings, hmade⟩
    exact ⟨rings, bytes, [], hrings, ⟨hmade, rfl⟩, (List.append_nil _).symm⟩

def AnyCode (_ : Nat) (_ : List Ring) : Prop := True

theorem readMember_reads : Reads readMember (Makes (PartSpelled AnyCode)) := by
  refine (readHeader_reads.bind fun inner => Reads.ite (readPolygonBody_reads inner)
    (Reads.throw _)).congr fun polygon bytes => ?_
  refine ⟨fun h => ?_, fun h => ?_⟩
  · rcases h with ⟨inner, header, body, ⟨little, raw, hheader, hiso, rfl⟩, hbody, rfl⟩
    split at hbody
    next hbase =>
      rcases hbody with ⟨rings, hrings, hmade⟩
      exact ⟨rings, ⟨little, raw, header, body, hheader, ⟨hiso, hbase⟩, trivial, hrings, rfl⟩, hmade⟩
    next => exact hbody.elim
  · rcases h with ⟨rings, ⟨little, raw, header, body, hheader, hcode, -, hrings, rfl⟩, hmade⟩
    refine ⟨codeHeader little raw, header, body, ⟨little, raw, hheader, hcode.supported, rfl⟩, ?_, rfl⟩
    rw [if_pos (show (codeHeader little raw).baseType = wkbPolygon from hcode.base)]
    exact ⟨rings, hrings, hmade⟩

theorem headerSpelled_length {little : Bool} {raw : Nat} {bytes : List UInt8}
    (h : HeaderSpelled little raw bytes) : 5 ≤ bytes.length := by
  rcases h with ⟨-, srid, -, rfl⟩
  rw [List.length_append, List.length_append, length_writeNum, length_writeNum]
  omega

theorem partSpelled_length {codes : Nat → List Ring → Prop} {rings : List Ring} {bytes : List UInt8}
    (h : PartSpelled codes rings bytes) : 9 ≤ bytes.length := by
  rcases h with ⟨little, raw, header, body, hheader, -, -, hrings, rfl⟩
  have := headerSpelled_length hheader
  have := counted_length hrings
  rw [List.length_append]
  omega

theorem makes_length {f : Format (List Ring)} {size : Nat}
    (hsize : ∀ rings b, f rings b → size ≤ b.length) (polygon : Option Polygon) (b : List UInt8)
    (h : Makes f polygon b) : size ≤ b.length := by
  rcases h with ⟨rings, hrings, -⟩
  exact hsize rings b hrings

/-- Polygons made part by part are made of a list of parts. -/
theorem listed_makes {f : Format (List Ring)} {n : Nat} {polygons : List (Option Polygon)}
    {bytes : List UInt8} :
    Reads.Listed (Makes f) n polygons bytes ↔
      ∃ parts, Reads.Listed f n parts bytes ∧ (∀ rings ∈ parts, Sound rings) ∧
        polygons = parts.map cleaned := by
  unfold Reads.Listed
  refine ⟨fun h => ?_, fun h => ?_⟩
  · rcases h with ⟨rfl, pieces, hall, rfl⟩
    induction hall with
    | nil => exact ⟨[], ⟨rfl, [], .nil, rfl⟩, nofun, rfl⟩
    | cons hmade hall ih =>
        rcases hmade with ⟨rings, hrings, hsound, rfl⟩
        rcases ih with ⟨parts, ⟨hlen, pieces', hall', hflat⟩, hsounds, hpolygons⟩
        refine ⟨rings :: parts, ⟨?_, _ :: pieces', .cons hrings hall', ?_⟩, ?_, ?_⟩
        · rw [List.length_cons, List.length_cons, hlen]
        · rw [List.flatten_cons, List.flatten_cons, hflat]
        · exact List.forall_mem_cons.mpr ⟨hsound, hsounds⟩
        · rw [List.map_cons, hpolygons]
  · rcases h with ⟨parts, ⟨rfl, pieces, hall, rfl⟩, hsounds, rfl⟩
    refine ⟨List.length_map _, pieces, ?_, rfl⟩
    rw [List.forall₂_map_left_iff]
    induction hall with
    | nil => exact .nil
    | cons hrings hall ih =>
        rw [List.forall_mem_cons] at hsounds
        exact .cons ⟨_, hrings, hsounds.1, rfl⟩ (ih hsounds.2)

/-- The strict reader reads the spellings of sound geometries. -/
theorem readPolygons_reads : Reads (readHeader >>= readPolygons) fun polygons bytes =>
    ∃ parts, GeometrySpelled AnyCode parts bytes ∧ (∀ rings ∈ parts, Sound rings) ∧
      polygons = parts.map cleaned := by
  have hmembers (little : Bool) := @counted_reads _ _ _ little _ readMember_reads
    (makes_length fun _ _ => partSpelled_length)
  refine (readHeader_reads.bind fun header => Reads.ite
    ((readPolygonBody_reads header).map fun polygon => [polygon])
    (Reads.ite (hmembers header.little) (Reads.throw _))).congr fun polygons bytes => ?_
  refine ⟨fun h => ?_, fun h => ?_⟩
  · rcases h with ⟨_, header, body, ⟨little, raw, hheader, hiso, rfl⟩, hbody, rfl⟩
    split at hbody
    next hbase =>
      rcases hbody with ⟨_, ⟨rings, hrings, hsound, rfl⟩, rfl⟩
      refine ⟨[rings], .inl ⟨rings, rfl, little, raw, header, body, hheader, ⟨hiso, hbase⟩, trivial,
        hrings, rfl⟩, ?_, rfl⟩
      exact List.forall_mem_singleton.mpr hsound
    next =>
      split at hbody
      next hbase =>
        rcases hbody with ⟨hlen, items, hlist, rfl⟩
        rcases listed_makes.mp hlist with ⟨parts, hparts, hsounds, rfl⟩
        rw [List.length_map] at hlen hparts
        exact ⟨parts, .inr ⟨little, raw, header, _, hheader, ⟨hiso, hbase⟩,
          ⟨hlen, items, hparts, by rw [List.length_map]; rfl⟩, rfl⟩, hsounds, rfl⟩
      next => exact hbody.elim
  · rcases h with ⟨parts, hspelled, hsounds, rfl⟩
    rcases hspelled with ⟨rings, rfl, little, raw, header, body, hheader, hcode, -, hrings, rfl⟩ |
      ⟨little, raw, header, body, hheader, hcode, ⟨hlen, items, hlist, rfl⟩, rfl⟩
    · refine ⟨codeHeader little raw, header, body, ⟨little, raw, hheader, hcode.supported, rfl⟩, ?_, rfl⟩
      rw [if_pos (show (codeHeader little raw).baseType = wkbPolygon from hcode.base)]
      exact ⟨_, ⟨rings, hrings, hsounds rings List.mem_cons_self, rfl⟩, rfl⟩
    · refine ⟨codeHeader little raw, header, _, ⟨little, raw, hheader, hcode.supported, rfl⟩, ?_, rfl⟩
      have hbase : (codeHeader little raw).baseType = wkbMultipolygon := hcode.base
      rw [if_neg (by rw [hbase]; decide), if_pos hbase]
      refine ⟨by rwa [List.length_map], items, ?_, by rw [List.length_map]; rfl⟩
      rw [List.length_map]
      exact listed_makes.mpr ⟨parts, hlist, hsounds, rfl⟩

/-- The strict reader accepts the spellings of sound geometries, and nothing else. -/
theorem wkbToMultipolygon_ok {bytes : List UInt8} {polygons : List Polygon} :
    wkbToMultipolygon bytes = .ok polygons ↔
      ∃ parts, GeometrySpelled AnyCode parts bytes ∧ (∀ rings ∈ parts, Sound rings) ∧
        polygons = parts.filterMap cleaned := by
  unfold wkbToMultipolygon
  refine ⟨fun h => ?_, fun h => ?_⟩
  · split at h
    next => cases h
    next read rest hread =>
      split at h
      next => cases h
      next hrest =>
        rw [not_not] at hrest
        cases h
        rcases (readPolygons_reads _ _ _).mp hread with ⟨b, ⟨parts, hspelled, hsounds, rfl⟩, rfl⟩
        refine ⟨parts, ?_, hsounds, ?_⟩
        · rwa [hrest, List.append_nil]
        · rw [List.filterMap_map]
          rfl
  · rcases h with ⟨parts, hspelled, hsounds, rfl⟩
    have hread := (readPolygons_reads bytes (parts.map cleaned) []).mpr
      ⟨bytes, ⟨parts, hspelled, hsounds, rfl⟩, (List.append_nil _).symm⟩
    rw [hread]
    simp only [ne_eq, not_true, if_false]
    rw [List.filterMap_map]
    rfl

/-- Of two accepted strings, neither begins the other. -/
theorem accepted_prefix_free {bytes more : List UInt8} {polygons polygons' : List Polygon}
    (h : wkbToMultipolygon bytes = .ok polygons)
    (h' : wkbToMultipolygon (bytes ++ more) = .ok polygons') : more = [] := by
  rcases wkbToMultipolygon_ok.mp h with ⟨parts, hspelled, hsounds, -⟩
  rcases wkbToMultipolygon_ok.mp h' with ⟨parts', hspelled', hsounds', -⟩
  have hread := readPolygons_reads.whole ⟨parts, hspelled, hsounds, rfl⟩ more
  have hread' := readPolygons_reads.whole ⟨parts', hspelled', hsounds', rfl⟩ []
  rw [List.append_nil, hread] at hread'
  exact (Prod.mk.inj (Except.ok.inj hread')).2

/-! ## The envelope reader along a spelling -/

section Envelope

open Sedona Binary64

/-- A code says twice, by a flag and by its thousands, that a point has a Z or an M. -/
def Doubled (raw : Nat) : Prop :=
  (zFlag raw = true ∧ (isoCode raw / 1000 = 1 ∨ isoCode raw / 1000 = 3)) ∨
    (mFlag raw = true ∧ (isoCode raw / 1000 = 2 ∨ isoCode raw / 1000 = 3))

instance (raw : Nat) : Decidable (Doubled raw) := inferInstanceAs (Decidable (_ ∨ _))

/-- No code is doubled over rings with a point. -/
def PlainCode (raw : Nat) (rings : List Ring) : Prop := (∃ r ∈ rings, r ≠ []) → ¬ Doubled raw

/-- The ordinates that the envelope reader takes a code for. -/
def envelopeOrdinates (raw : Nat) (iso : Bool × Bool) : Nat :=
  2 + (if raw.testBit 31 || iso.1 then 1 else 0) + (if raw.testBit 30 || iso.2 then 1 else 0)

theorem envelopeOrdinates_eq {raw : Nat} (hiso : isoOrdinates (isoCode raw) ≠ none) :
    ∃ iso, isoDims (isoCode raw) = some iso ∧
      (¬ Doubled raw → envelopeOrdinates raw iso = ordinates raw) ∧
        (Doubled raw → envelopeOrdinates raw iso < ordinates raw) := by
  have hle : isoCode raw / 1000 ≤ 3 := by
    unfold isoOrdinates at hiso
    split at hiso
    all_goals first | omega | exact absurd rfl hiso
  unfold isoDims envelopeOrdinates ordinates isoOrdinates Doubled zFlag mFlag bit
  obtain h | h | h | h : isoCode raw / 1000 = 0 ∨ isoCode raw / 1000 = 1 ∨
      isoCode raw / 1000 = 2 ∨ isoCode raw / 1000 = 3 := by omega
  all_goals
    rw [h]
    refine ⟨_, rfl, ?_⟩
    cases raw.testBit 31 <;> cases raw.testBit 30 <;> simp

/-- The box with the points of a ring, of a polygon, of all parts. -/
def addRing (env : Envelope) (ring : Ring) : Envelope := ring.foldl Envelope.addBits env

def addRings (env : Envelope) (rings : List Ring) : Envelope := rings.foldl addRing env

theorem point_run {little : Bool} {dims : Nat} {p : Coord} {bytes : List UInt8}
    (h : PointSpelled little dims p bytes) (env : Envelope) (rest : List UInt8) :
    point dims little env (bytes ++ rest) = .ok (env.addBits p, rest) :=
  (point_reads () little dims env.addBits).whole ⟨p, h, rfl⟩ rest

theorem count_run {A : Type} {little : Bool} {size : Nat} {xs : List A}
    {items rest : List UInt8} (hlen : xs.length < 256 ^ 4)
    (hsize : xs.length * size ≤ items.length) :
    count little size (writeNum little 4 xs.length ++ items ++ rest) =
      .ok (xs.length, items ++ rest) := by
  have hnum := (Reads.num () little 4).whole ⟨hlen, rfl⟩ (items ++ rest)
  have hguard := @guarded_run Unit () xs.length size (items ++ rest)
    (by rw [List.length_append]; omega)
  rw [List.append_assoc]
  unfold count
  rw [bind_run, hnum]
  show (Reader.guarded () xs.length size >>= fun _ => pure xs.length) (items ++ rest) = _
  rw [bind_run, hguard]
  rfl

/-- Only a ring with a point cares about the ordinates. -/
theorem ring_run {little : Bool} {dims dims' : Nat} {r : Ring} {bytes : List UInt8}
    (h : RingSpelled little dims r bytes) (hdims : r ≠ [] → dims' = dims) (env : Envelope)
    (rest : List UInt8) : ring dims' little env (bytes ++ rest) = .ok (addRing env r, rest) := by
  rcases h with ⟨hlen, items, hlist, rfl⟩
  have hsize : r.length * (8 * dims') ≤ items.length := by
    by_cases hr : r = []
    · simp [hr]
    · rw [hdims hr]
      exact Reads.listed_length (fun _ _ hp => pointSpelled_length hp) hlist
  unfold ring
  rw [bind_run, count_run hlen hsize]
  refine iterated_run hlist (fun s p hp b rest' hpoint => ?_) env rest
  rw [hdims (List.ne_nil_of_mem hp)]
  exact point_run hpoint s rest'

theorem envelopeHeader_run {little : Bool} {raw : Nat} {iso : Bool × Bool} {header : List UInt8}
    (h : HeaderSpelled little raw header) (hiso : isoDims (isoCode raw) = some iso)
    (rest : List UInt8) :
    envelopeHeader (header ++ rest) =
      .ok ((little, isoCode raw % 1000, envelopeOrdinates raw iso), rest) := by
  rcases h with ⟨hraw, srid, hlen, rfl⟩
  have horder := @Reads.whole _ _ _ _ (byteOrder_reads () ()) little _ rfl
    (writeNum little 4 raw ++ (srid ++ rest))
  have hnum := (Reads.num () little 4).whole ⟨hraw, rfl⟩ (srid ++ rest)
  have hsrid := (Reads.exact () (if sridFlag raw then 4 else 0)).whole ⟨hlen, rfl⟩ rest
  unfold envelopeHeader
  rw [List.append_assoc, List.append_assoc, bind_run]
  rw [show envelopeByteOrder _ = _ from horder]
  show (Reader.num () little 4 >>= _) (writeNum little 4 raw ++ (srid ++ rest)) = _
  rw [bind_run, hnum]
  show envelopeDims little raw (srid ++ rest) = _
  unfold envelopeDims
  rw [show isoDims (raw % 2 ^ 28) = some iso from hiso]
  show (Reader.exact () (if sridFlag raw then 4 else 0) >>= _) (srid ++ rest) = _
  rw [bind_run, hsrid]
  rfl

/-- A polygon whose rings are spelled with the ordinates that this reader counts. -/
theorem polygon_run {little : Bool} {raw dims : Nat} {iso : Bool × Bool} {rings : List Ring}
    {header body : List UInt8} (hheader : HeaderSpelled little raw header)
    (hcode : CodeOf wkbPolygon raw) (hiso : isoDims (isoCode raw) = some iso)
    (hrings : RingsSpelled little dims rings body)
    (hdims : ∀ r ∈ rings, r ≠ [] → envelopeOrdinates raw iso = dims)
    (levels : Nat) (env : Envelope) (rest : List UInt8) :
    geometry (levels + 1) env (header ++ body ++ rest) = .ok (addRings env rings, rest) := by
  rcases hrings with ⟨hlen, items, hlist, rfl⟩
  have hbase : isoCode raw % 1000 = 3 := hcode.base
  have hsize : rings.length * 4 ≤ items.length :=
    Reads.listed_length (fun _ _ hr => counted_length hr) hlist
  rw [geometry, bind_run, List.append_assoc, envelopeHeader_run hheader hiso]
  simp only [hbase]
  show (count little 4 >>= fun n => Reader.iterated (ring (envelopeOrdinates raw iso) little) n env)
    (writeNum little 4 rings.length ++ items ++ rest) = _
  rw [bind_run, count_run hlen hsize]
  exact iterated_run hlist (fun s r hr b rest' hring => ring_run hring (hdims r hr) s rest') env rest

theorem part_run {rings : List Ring} {bytes : List UInt8} (h : PartSpelled PlainCode rings bytes)
    (levels : Nat) (env : Envelope) (rest : List UInt8) :
    geometry (levels + 1) env (bytes ++ rest) = .ok (addRings env rings, rest) := by
  rcases h with ⟨little, raw, header, body, hheader, hcode, hplain, hrings, rfl⟩
  rcases envelopeOrdinates_eq hcode.supported with ⟨iso, hiso, hdims, -⟩
  exact polygon_run hheader hcode hiso hrings (fun r hr hne => hdims (hplain ⟨r, hr, hne⟩))
    levels env rest

theorem geometry_run {parts : List (List Ring)} {bytes : List UInt8}
    (h : GeometrySpelled PlainCode parts bytes) (levels : Nat) (env : Envelope) :
    geometry (levels + 2) env bytes = .ok (parts.foldl addRings env, []) := by
  rcases h with ⟨rings, rfl, hpart⟩ | ⟨little, raw, header, body, hheader, hcode,
    ⟨hlen, items, hlist, rfl⟩, rfl⟩
  · have hrun := part_run hpart (levels + 1) env []
    rwa [List.append_nil] at hrun
  · rcases envelopeOrdinates_eq hcode.supported with ⟨iso, hiso, -⟩
    have hbase : isoCode raw % 1000 = 6 := hcode.base
    have hsize : parts.length * 5 ≤ items.length :=
      (Nat.mul_le_mul_left _ (by decide)).trans
        (Reads.listed_length (fun _ _ hp => partSpelled_length hp) hlist)
    rw [geometry, bind_run, envelopeHeader_run hheader hiso]
    simp only [hbase]
    show (count little 5 >>= fun n => Reader.iterated (geometry (levels + 1)) n env)
      (writeNum little 4 parts.length ++ items) = _
    rw [← List.append_nil (writeNum little 4 parts.length ++ items), bind_run, count_run hlen hsize]
    exact iterated_run hlist (fun s p _ b rest' hp => part_run hp levels s rest') env []

/-! ## The smallest box -/

/-- All coordinates of some polygons. -/
def coords (polygons : List Polygon) : List Coord :=
  polygons.flatMap fun p => p.exterior ++ p.interiors.flatten

def NoNan (points : List Coord) : Prop := ∀ c ∈ points, value c.1 ≠ none ∧ value c.2 ≠ none

/-- The box holds the points, and each of its sides touches one. -/
structure SmallestBox (env : Envelope) (points : List Coord) : Prop where
  holds : ∀ c ∈ points, ∀ x y, value c.1 = some x → value c.2 = some y →
    (env.minX ≤ x ∧ x ≤ env.maxX) ∧ env.minY ≤ y ∧ y ≤ env.maxY
  west : ∃ c ∈ points, value c.1 = some env.minX
  east : ∃ c ∈ points, value c.1 = some env.maxX
  south : ∃ c ∈ points, value c.2 = some env.minY
  north : ∃ c ∈ points, value c.2 = some env.maxY

theorem SmallestBox.congr {env : Envelope} {ps qs : List Coord} (hmem : ∀ c, c ∈ ps ↔ c ∈ qs)
    (h : SmallestBox env ps) : SmallestBox env qs := by
  rcases h with ⟨holds, west, east, south, north⟩
  simp only [hmem] at holds west east south north
  exact ⟨holds, west, east, south, north⟩

theorem smallestBox_start {c : Coord} {x y : Extended} (hx : value c.1 = some x)
    (hy : value c.2 = some y) : SmallestBox (Envelope.start.addBits c) [c] := by
  have henv : Envelope.start.addBits c = ⟨x, y, x, y⟩ := by
    simp [Envelope.addBits, hx, hy, Envelope.add, Envelope.start]
  rw [henv]
  refine ⟨fun c' hc x' y' hx' hy' => ?_, ⟨c, List.mem_cons_self, hx⟩, ⟨c, List.mem_cons_self, hx⟩,
    ⟨c, List.mem_cons_self, hy⟩, ⟨c, List.mem_cons_self, hy⟩⟩
  rw [List.mem_singleton.mp hc] at hx' hy'
  cases hx.symm.trans hx'
  cases hy.symm.trans hy'
  exact ⟨⟨le_rfl, le_rfl⟩, le_rfl, le_rfl⟩

/-- Of two values one is the extremum, and both are taken. -/
theorem taken {f : Coord → Nat} {points : List Coord} {c : Coord} {a x m : Extended}
    (hold : ∃ c ∈ points, value (f c) = some a) (hnew : value (f c) = some x) (h : m = a ∨ m = x) :
    ∃ c' ∈ points ++ [c], value (f c') = some m := by
  rcases h with rfl | rfl
  · rcases hold with ⟨c', hc', hval⟩
    exact ⟨c', List.mem_append_left _ hc', hval⟩
  · exact ⟨c, List.mem_append_right _ List.mem_cons_self, hnew⟩

theorem SmallestBox.add {env : Envelope} {points : List Coord} {c : Coord} {x y : Extended}
    (h : SmallestBox env points) (hx : value c.1 = some x) (hy : value c.2 = some y) :
    SmallestBox (env.addBits c) (points ++ [c]) := by
  have henv : env.addBits c = env.add x y := by simp [Envelope.addBits, hx, hy]
  rw [henv]
  refine ⟨fun c' hc x' y' hx' hy' => ?_, taken h.west hx (min_choice _ _),
    taken h.east hx (max_choice _ _), taken h.south hy (min_choice _ _),
    taken h.north hy (max_choice _ _)⟩
  rcases List.mem_append.mp hc with hc | hc
  · rcases h.holds c' hc x' y' hx' hy' with ⟨hlon, hlat⟩
    exact ⟨⟨min_le_of_left_le hlon.1, le_max_of_le_left hlon.2⟩, min_le_of_left_le hlat.1,
      le_max_of_le_left hlat.2⟩
  · rw [List.mem_singleton.mp hc] at hx' hy'
    cases hx.symm.trans hx'
    cases hy.symm.trans hy'
    exact ⟨⟨min_le_right _ _, le_max_right _ _⟩, min_le_right _ _, le_max_right _ _⟩

theorem smallestBox_foldl {points : List Coord} (hnan : NoNan points) :
    ∀ {env : Envelope} {before : List Coord}, SmallestBox env before →
      SmallestBox (points.foldl Envelope.addBits env) (before ++ points) := by
  induction points with
  | nil =>
      intro env before h
      rwa [List.append_nil]
  | cons c points ih =>
      intro env before h
      rcases List.forall_mem_cons.mp hnan with ⟨hc, hrest⟩
      obtain ⟨x, hx⟩ := Option.ne_none_iff_exists'.mp hc.1
      obtain ⟨y, hy⟩ := Option.ne_none_iff_exists'.mp hc.2
      have hnext := ih hrest (h.add hx hy)
      rwa [List.append_assoc] at hnext

theorem smallestBox_points {points : List Coord} (hne : points ≠ []) (hnan : NoNan points) :
    SmallestBox (points.foldl Envelope.addBits Envelope.start) points := by
  cases points with
  | nil => exact absurd rfl hne
  | cons c points =>
      rcases List.forall_mem_cons.mp hnan with ⟨hc, hrest⟩
      obtain ⟨x, hx⟩ := Option.ne_none_iff_exists'.mp hc.1
      obtain ⟨y, hy⟩ := Option.ne_none_iff_exists'.mp hc.2
      exact smallestBox_foldl hrest (smallestBox_start hx hy)

theorem SmallestBox.ordered {env : Envelope} {points : List Coord} (h : SmallestBox env points)
    (hnan : NoNan points) : env.minX ≤ env.maxX ∧ env.minY ≤ env.maxY := by
  rcases h.west with ⟨c, hc, hx⟩
  obtain ⟨y, hy⟩ := Option.ne_none_iff_exists'.mp (hnan c hc).2
  rcases h.holds c hc _ _ hx hy with ⟨hlon, hlat⟩
  exact ⟨hlon.2, hlat.1.trans hlat.2⟩

/-- Closing a ring adds no point that it has not. -/
theorem mem_closed {ring : Ring} {c : Coord} : c ∈ closed ring ↔ c ∈ ring := by
  unfold closed
  split
  next first last hfirst _ =>
    split
    next => exact Iff.rfl
    next =>
      rw [List.mem_append, List.mem_singleton]
      refine ⟨fun h => h.elim id fun heq => ?_, .inl⟩
      rw [heq]
      exact List.mem_of_mem_head? hfirst
  next => exact Iff.rfl

theorem mem_cleaned {rings : List Ring} (hsound : Sound rings) (c : Coord) :
    c ∈ rings.flatten ↔ c ∈ coords (cleaned rings).toList := by
  cases rings with
  | nil => exact Iff.rfl
  | cons exterior interiors =>
      unfold cleaned
      by_cases hext : exterior = []
      · -- all rings are empty
        have hnil : (exterior :: interiors).flatten = [] := by
          rw [List.flatten_eq_nil_iff]
          exact List.forall_mem_cons.mpr ⟨hext, hsound hext⟩
        rw [hnil]
        simp only [hext, if_true]
        exact Iff.rfl
      · simp only [hext, if_false, Option.toList_some, coords, List.flatMap_cons, List.flatMap_nil,
          List.append_nil, List.flatten_cons, List.mem_append, mem_closed]
        refine or_congr_right ⟨fun h => ?_, fun h => ?_⟩
        · rcases List.mem_flatten.mp h with ⟨r, hr, hc⟩
          refine List.mem_flatten.mpr ⟨closed r, List.mem_map_of_mem ?_, mem_closed.mpr hc⟩
          exact List.mem_filter.mpr ⟨hr, by simpa using List.ne_nil_of_mem hc⟩
        · rcases List.mem_flatten.mp h with ⟨_, hr, hc⟩
          rcases List.mem_map.mp hr with ⟨r, hkept, rfl⟩
          exact List.mem_flatten.mpr ⟨r, (List.mem_filter.mp hkept).1, mem_closed.mp hc⟩

theorem mem_coords_cleaned {parts : List (List Ring)} (hsound : ∀ rings ∈ parts, Sound rings)
    (c : Coord) : c ∈ parts.flatten.flatten ↔ c ∈ coords (parts.filterMap cleaned) := by
  induction parts with
  | nil => exact Iff.rfl
  | cons rings parts ih =>
      rcases List.forall_mem_cons.mp hsound with ⟨hrings, hparts⟩
      have happ : coords ((rings :: parts).filterMap cleaned) =
          coords (cleaned rings).toList ++ coords (parts.filterMap cleaned) := by
        rw [List.filterMap_cons]
        cases cleaned rings with
        | none => rfl
        | some p => exact @List.flatMap_append _ _ [p] _ _
      rw [List.flatten_cons, List.flatten_append, List.mem_append, ih hparts, happ, List.mem_append,
        mem_cleaned hrings]

theorem foldl_addRings (parts : List (List Ring)) (env : Envelope) :
    parts.foldl addRings env = parts.flatten.flatten.foldl Envelope.addBits env := by
  rw [List.foldl_flatten, List.foldl_flatten]
  rfl

/-! ## The readers together -/

/-- On the spellings with these codes, the envelope is the smallest box around the
coordinates that the strict reader returns. -/
def EnvelopeAgrees (codes : Nat → List Ring → Prop) : Prop :=
  ∀ bytes parts, GeometrySpelled codes parts bytes → (∀ rings ∈ parts, Sound rings) →
    parts.filterMap cleaned ≠ [] → NoNan (coords (parts.filterMap cleaned)) →
      ∃ env, wkbEnvelope bytes = some env ∧ SmallestBox env (coords (parts.filterMap cleaned))

theorem GeometrySpelled.mono {codes codes' : Nat → List Ring → Prop}
    (hcodes : ∀ raw rings, codes raw rings → codes' raw rings) {parts : List (List Ring)}
    {bytes : List UInt8} (h : GeometrySpelled codes parts bytes) :
    GeometrySpelled codes' parts bytes := by
  have hpart : ∀ rings b, PartSpelled codes rings b → PartSpelled codes' rings b := by
    intro rings b hpart
    rcases hpart with ⟨little, raw, header, body, hheader, hcode, hc, hrings⟩
    exact ⟨little, raw, header, body, hheader, hcode, hcodes raw rings hc, hrings⟩
  rcases h with ⟨rings, rfl, h⟩ | ⟨little, raw, header, body, hheader, hcode, ⟨hlen, items,
    ⟨hn, pieces, hall, hflat⟩, rfl⟩, rfl⟩
  · exact .inl ⟨rings, rfl, hpart rings bytes h⟩
  · exact .inr ⟨little, raw, header, _, hheader, hcode,
      ⟨hlen, items, ⟨hn, pieces, hall.imp hpart, hflat⟩, rfl⟩, rfl⟩

theorem points_ne_nil {parts : List (List Ring)} (h : parts.filterMap cleaned ≠ []) :
    parts.flatten.flatten ≠ [] := by
  obtain ⟨p, hp⟩ := List.exists_mem_of_ne_nil _ h
  rcases List.mem_filterMap.mp hp with ⟨rings, hmem, hclean⟩
  cases rings with
  | nil => cases hclean
  | cons exterior interiors =>
      simp only [cleaned] at hclean
      split at hclean
      next => cases hclean
      next hext =>
        obtain ⟨c, hc⟩ := List.exists_mem_of_ne_nil _ hext
        exact List.ne_nil_of_mem (List.mem_flatten.mpr ⟨exterior,
          List.mem_flatten.mpr ⟨_, hmem, List.mem_cons_self⟩, hc⟩)

theorem envelope_agrees_plain : EnvelopeAgrees PlainCode := by
  intro bytes parts hspelled hsound hne hnan
  have hmem := mem_coords_cleaned hsound
  have hbox := smallestBox_points (points_ne_nil hne) fun c hc => hnan c ((hmem c).mp hc)
  have hordered := hbox.ordered fun c hc => hnan c ((hmem c).mp hc)
  refine ⟨_, ?_, hbox.congr hmem⟩
  have hrun := geometry_run hspelled 31 Envelope.start
  rw [foldl_addRings] at hrun
  unfold wkbEnvelope
  rw [show maxDepth + 1 = 31 + 2 from rfl, hrun]
  exact if_pos hordered

/-! ## A point with ordinates that only one reader counts -/

/-- The body of a polygon with the one point (0, 0). -/
def originBody (dims : Nat) : List UInt8 :=
  writeNum true 4 1 ++ (writeNum true 4 1 ++ (writeNum true 8 0 ++ (writeNum true 8 0 ++
    (List.replicate (dims - 2) 0).flatMap (writeNum true 8))))

theorem originBody_spelled (dims : Nat) : RingsSpelled true dims [[(0, 0)]] (originBody dims) := by
  have hpoint : PointSpelled true dims (0, 0) (writeNum true 8 0 ++ (writeNum true 8 0 ++
      (List.replicate (dims - 2) 0).flatMap (writeNum true 8))) := by
    refine ⟨by decide, by decide, List.replicate (dims - 2) 0, List.length_replicate, ?_, rfl⟩
    intro e he
    rw [List.eq_of_mem_replicate he]
    decide
  have hring : RingSpelled true dims [(0, 0)] (writeNum true 4 1 ++ (writeNum true 8 0 ++
      (writeNum true 8 0 ++ (List.replicate (dims - 2) 0).flatMap (writeNum true 8)))) :=
    ⟨by decide, _, ⟨rfl, [_], .cons hpoint .nil, (List.append_nil _).symm⟩, rfl⟩
  exact ⟨by decide, _, ⟨rfl, [_], .cons hring .nil, (List.append_nil _).symm⟩, rfl⟩

theorem originBody_more {dims more : Nat} (hdims : 2 ≤ dims) :
    originBody (dims + more) =
      originBody dims ++ (List.replicate more 0).flatMap (writeNum true 8) := by
  have hsplit : List.replicate (dims + more - 2) 0 =
      List.replicate (dims - 2) 0 ++ List.replicate more 0 := by
    rw [List.replicate_append_replicate]
    congr 1
    omega
  simp only [originBody, hsplit, List.flatMap_append, List.append_assoc]

/-- A header with this code, and no more than it asks for. -/
def plainHeader (raw : Nat) : List UInt8 :=
  writeNum true 1 1 ++ (writeNum true 4 raw ++ List.replicate (if sridFlag raw then 4 else 0) 0)

theorem plainHeader_spelled {raw : Nat} (hraw : raw < 256 ^ 4) :
    HeaderSpelled true raw (plainHeader raw) :=
  ⟨hraw, _, List.length_replicate, rfl⟩

theorem doubled_disagrees {raw : Nat} (hraw : raw < 256 ^ 4) (hcode : CodeOf wkbPolygon raw)
    (hdoubled : Doubled raw) : ¬ EnvelopeAgrees fun r _ => r = raw := by
  intro hagrees
  rcases envelopeOrdinates_eq hcode.supported with ⟨iso, hiso, -, hless⟩
  have hspelled : GeometrySpelled (fun r _ => r = raw) [[[(0, 0)]]]
      (plainHeader raw ++ originBody (ordinates raw)) :=
    .inl ⟨_, rfl, true, raw, _, _, plainHeader_spelled hraw, hcode, rfl, originBody_spelled _, rfl⟩
  have hsound : ∀ rings ∈ [[[((0 : Nat), (0 : Nat))]]], Sound rings := by
    intro rings hmem
    rw [List.mem_singleton.mp hmem]
    exact fun h => nomatch h
  have hclean : [[[((0 : Nat), (0 : Nat))]]].filterMap cleaned ≠ [] := by
    simp [cleaned]
  have hnan : NoNan (coords ([[[((0 : Nat), (0 : Nat))]]].filterMap cleaned)) := by
    intro c hc
    rw [← mem_coords_cleaned hsound] at hc
    rw [List.mem_singleton.mp hc]
    exact ⟨by decide +kernel, by decide +kernel⟩
  rcases hagrees _ _ hspelled hsound hclean hnan with ⟨env, henv, -⟩
  -- the envelope reader stops with the ordinates that it does not count still before it
  obtain ⟨more, hmore⟩ : ∃ more, ordinates raw = envelopeOrdinates raw iso + (more + 1) :=
    ⟨ordinates raw - envelopeOrdinates raw iso - 1, by have := hless hdoubled; omega⟩
  have hrun := polygon_run (plainHeader_spelled hraw) hcode hiso
    (originBody_spelled (envelopeOrdinates raw iso)) (fun _ _ _ => rfl) maxDepth Envelope.start
    ((List.replicate (more + 1) 0).flatMap (writeNum true 8))
  have htwo : 2 ≤ envelopeOrdinates raw iso := by
    unfold envelopeOrdinates
    omega
  rw [List.append_assoc, ← originBody_more htwo, ← hmore] at hrun
  unfold wkbEnvelope at henv
  rw [hrun, List.replicate_succ, List.flatMap_cons] at henv
  cases henv

/-- The strict reader reads every spelling, and the envelope agrees with it for exactly
those codes that name no dimension twice. -/
theorem wkb_readers_agree_iff (raw : Nat) (hraw : raw < 256 ^ 4) (hcode : CodeOf wkbPolygon raw) :
    (∀ bytes parts, GeometrySpelled AnyCode parts bytes → (∀ rings ∈ parts, Sound rings) →
      wkbToMultipolygon bytes = .ok (parts.filterMap cleaned)) ∧
    (∀ bytes polygons, wkbToMultipolygon bytes = .ok polygons →
      ∃ parts, GeometrySpelled AnyCode parts bytes ∧ (∀ rings ∈ parts, Sound rings) ∧
        polygons = parts.filterMap cleaned) ∧
    (∀ bytes more polygons polygons', wkbToMultipolygon bytes = .ok polygons →
      wkbToMultipolygon (bytes ++ more) = .ok polygons' → more = []) ∧
    EnvelopeAgrees PlainCode ∧
    (EnvelopeAgrees (fun r _ => r = raw) ↔ ¬ Doubled raw) := by
  refine ⟨fun bytes parts hspelled hsound => wkbToMultipolygon_ok.mpr ⟨parts, hspelled, hsound, rfl⟩,
    fun bytes polygons h => wkbToMultipolygon_ok.mp h,
    fun bytes more polygons polygons' h h' => accepted_prefix_free h h',
    envelope_agrees_plain, fun hagrees hdoubled => doubled_disagrees hraw hcode hdoubled hagrees,
    fun hplain bytes parts hspelled => ?_⟩
  refine envelope_agrees_plain bytes parts (hspelled.mono ?_)
  intro r rings hr _
  rw [hr]
  exact hplain

/-- `POLYGON Z`, as an ISO code and without flags. -/
theorem wkb_readers_agree_z :
    EnvelopeAgrees (fun r _ => r = 1003) ↔ ¬ Doubled 1003 :=
  (wkb_readers_agree_iff 1003 (by decide) ⟨by decide, by decide⟩).2.2.2.2

/-- A point with two further ordinates, under a code with the flag of EWKB for Z and the
thousands of ISO for Z: the strict reader takes both, the envelope reader one. -/
theorem doubled_z_has_no_envelope :
    wkbToMultipolygon ([1, 0xEB, 3, 0, 0x80, 1, 0, 0, 0, 1, 0, 0, 0] ++ List.replicate 32 0) =
        .ok [⟨[(0, 0)], []⟩] ∧
      wkbEnvelope ([1, 0xEB, 3, 0, 0x80, 1, 0, 0, 0, 1, 0, 0, 0] ++ List.replicate 32 0) = none := by
  decide +kernel

end Envelope

end RasterH3.Encoding
