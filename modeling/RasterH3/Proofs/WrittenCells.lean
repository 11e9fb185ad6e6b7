import RasterH3.Proofs.PolarCaps
import RasterH3.Proofs.WkbReaders

/-!
# Written cells

The writer encodes a cell into a buffer of fixed size, without allocating, so that every put
can fail. What it puts there is a spelling of the pieces (`cellBytes`), so that the strict
reader reads it back (`read_written`), and it is short enough for two pieces of as many
points as a ring holds: `pieceBytes_fits` has the most that a piece takes, and the puts
succeed because what was written so far and what is still to come are never more
(`putPolygons_ok`).

Along the same bytes the bounds of a row group grow. Their reader is not the strict one. It
goes through the bytes with a position and takes every point it finds; on what was written
it finds the points of the pieces, one after the other (`extendWkbBounds_written`), which
makes the bounds the least and the greatest of what they were and of what is written.

With this, a cell is encoded as it should be: what is written fits, is read back, is the
cell, and is what the bounds grow by (`ExactEncoding`). A cell has one of three shapes. Its
ring lies within half a turn and is written as it is, it crosses the antimeridian and is
written in two pieces, or it goes once around a pole and gets a cap. Longitudes that jump
are unwrapped first; where neighbours are no more than half a turn apart that is a ring as
it was (`unwrapped_of_close`).

A cap begins with a search for the edge that crosses the antimeridian. A vertex that lies on
it, and is not the first, makes the search take another edge, and the last theorem shows
what comes of that.
-/

namespace RasterH3.Encoding

open Bytes

variable {F : Type}

/-! ## Spelled pieces -/

section Spelled

variable (bits : F → Nat)

def pointBytes (p : F × F) : List UInt8 := writeLe 8 (bits p.1) ++ writeLe 8 (bits p.2)

/-- The ring with its first point at the end. -/
def closing (pts : List (F × F)) : List (F × F) := pts ++ pts.take 1

/-- A ring behind its length. -/
def ringBytes (pts : List (F × F)) : List UInt8 :=
  writeLe 4 (closing pts).length ++ (closing pts).flatMap (pointBytes bits)

def headerBytes (geometryType count : Nat) : List UInt8 :=
  writeLe 1 1 ++ (writeLe 4 geometryType ++ writeLe 4 count)

def pieceBytes (pts : List (F × F)) : List UInt8 := headerBytes 3 1 ++ ringBytes bits pts

/-- One piece as it is, and two behind a header. -/
def cellBytes (pieces : List (List (F × F))) : List UInt8 :=
  match pieces with
  | [pts] => pieceBytes bits pts
  | pieces => headerBytes 6 pieces.length ++ pieces.flatMap (pieceBytes bits)

variable {bits}

@[simp] theorem length_pointBytes (p : F × F) : (pointBytes bits p).length = 16 := by
  rw [pointBytes, List.length_append, length_writeLe, length_writeLe]

@[simp] theorem length_headerBytes (geometryType count : Nat) :
    (headerBytes geometryType count).length = 9 := by
  rw [headerBytes, List.length_append, List.length_append, length_writeLe, length_writeLe,
    length_writeLe]

theorem length_pointsBytes (ps : List (F × F)) :
    (ps.flatMap (pointBytes bits)).length = 16 * ps.length := by
  induction ps with
  | nil => rfl
  | cons p ps ih =>
      rw [List.flatMap_cons, List.length_append, length_pointBytes, ih, List.length_cons]
      omega

theorem length_pieceBytes (pts : List (F × F)) :
    (pieceBytes bits pts).length = 13 + 16 * (closing pts).length := by
  rw [pieceBytes, ringBytes, List.length_append, List.length_append, length_headerBytes,
    length_writeLe, length_pointsBytes]
  omega

theorem length_closing {pts : List (F × F)} (h : pts ≠ []) :
    (closing pts).length = pts.length + 1 := by
  cases pts with
  | nil => exact absurd rfl h
  | cons p pts => rw [closing, List.length_append]; rfl

/-! ## Room in the buffer -/

theorem put_ok {written bytes : List UInt8} (h : (written ++ bytes).length ≤ wkbBufLen) :
    put written bytes = some (written ++ bytes) := by
  rw [List.length_append] at h
  exact if_pos h

theorem putHeader_ok {written : List UInt8} {geometryType count : Nat}
    (h : (written ++ headerBytes geometryType count).length ≤ wkbBufLen) :
    putHeader written geometryType count = some (written ++ headerBytes geometryType count) := by
  rw [List.length_append, length_headerBytes] at h
  have hone : ([1] : List UInt8) = writeLe 1 1 := rfl
  unfold putHeader
  simp only [Option.bind_eq_bind]
  rw [hone, put_ok (by simp; omega), Option.bind_some, put_ok (by simp; omega), Option.bind_some,
    put_ok (by simp; omega), headerBytes, List.append_assoc, List.append_assoc]

theorem putPoint_ok {written : List UInt8} {p : F × F}
    (h : (written ++ pointBytes bits p).length ≤ wkbBufLen) :
    putPoint bits written p = some (written ++ pointBytes bits p) := by
  rw [List.length_append, length_pointBytes] at h
  unfold putPoint
  simp only [Option.bind_eq_bind]
  rw [put_ok (by simp; omega), Option.bind_some, put_ok (by simp; omega), pointBytes,
    List.append_assoc]

/-- Writing a list item by item. -/
theorem foldlM_ok {A : Type} {write : List UInt8 → A → Option (List UInt8)} {spell : A → List UInt8}
    {xs : List A} (hwrite : ∀ x ∈ xs, ∀ written, (written ++ spell x).length ≤ wkbBufLen →
      write written x = some (written ++ spell x)) {written : List UInt8}
    (h : (written ++ xs.flatMap spell).length ≤ wkbBufLen) :
    xs.foldlM write written = some (written ++ xs.flatMap spell) := by
  induction xs generalizing written with
  | nil => rw [List.flatMap_nil, List.append_nil]; rfl
  | cons x xs ih =>
      rw [List.flatMap_cons, ← List.append_assoc] at h ⊢
      rw [List.foldlM_cons, hwrite x List.mem_cons_self written
        (by rw [List.length_append] at h; omega), Option.bind_eq_bind, Option.bind_some,
        ih (fun y hy => hwrite y (List.mem_cons_of_mem x hy)) h]

theorem putPolygon_ok {written : List UInt8} {pts : List (F × F)} (hne : pts ≠ [])
    (h : (written ++ pieceBytes bits pts).length ≤ wkbBufLen) :
    putPolygon bits written pts = some (written ++ pieceBytes bits pts) := by
  rw [List.length_append, length_pieceBytes] at h
  unfold putPolygon
  simp only [Option.bind_eq_bind]
  rw [putHeader_ok (by simp; omega), Option.bind_some, ← length_closing hne,
    put_ok (by simp; omega), Option.bind_some]
  show (closing pts).foldlM (putPoint bits) _ = _
  rw [foldlM_ok (fun p _ written => putPoint_ok) (by simp; omega), pieceBytes,
    ringBytes, List.append_assoc, List.append_assoc]

structure Pieces (pieces : List (List (F × F))) : Prop where
  count : pieces.length ∈ [1, 2]
  nonempty : ∀ pts ∈ pieces, pts ≠ []
  fits : ∀ pts ∈ pieces, pts.length ≤ 2 * maxCellVertices

/-- The most that a piece takes. -/
theorem pieceBytes_fits {pieces : List (List (F × F))} (h : Pieces pieces) {pts : List (F × F)}
    (hpts : pts ∈ pieces) : (pieceBytes bits pts).length ≤ polygonBytes maxRingPoints := by
  have := h.fits pts hpts
  rw [length_pieceBytes, length_closing (h.nonempty pts hpts), polygonBytes, maxRingPoints]
  omega

theorem putPolygons_ok {pieces : List (List (F × F))} (h : Pieces pieces) :
    putPolygons bits pieces = some (cellBytes bits pieces) ∧
      (cellBytes bits pieces).length ≤ wkbBufLen := by
  have hcount := h.count
  rcases pieces with _ | ⟨p, _ | ⟨q, _ | ⟨r, pieces⟩⟩⟩
  · simp at hcount
  · have hlen : (pieceBytes bits p).length ≤ wkbBufLen :=
      (pieceBytes_fits h List.mem_cons_self).trans (by decide)
    refine ⟨?_, hlen⟩
    rw [putPolygons, cellBytes, putPolygon_ok (h.nonempty p List.mem_cons_self)
      (by rw [List.nil_append]; exact hlen), List.nil_append]
  · have hp := @pieceBytes_fits F bits _ h p List.mem_cons_self
    have hq := @pieceBytes_fits F bits _ h q (List.mem_cons_of_mem p List.mem_cons_self)
    have hbytes : cellBytes bits [p, q] = headerBytes 6 2 ++ [p, q].flatMap (pieceBytes bits) := rfl
    have hlen : (cellBytes bits [p, q]).length ≤ wkbBufLen := by
      rw [hbytes, List.length_append, length_headerBytes, List.flatMap_cons, List.flatMap_cons,
        List.flatMap_nil, List.append_nil, List.length_append]
      exact (Nat.add_le_add_left (Nat.add_le_add hp hq) 9).trans (by decide)
    refine ⟨?_, hlen⟩
    rw [hbytes] at hlen ⊢
    have hheader : putHeader [] 6 2 = some (headerBytes 6 2) := by
      refine putHeader_ok ?_
      rw [List.nil_append, length_headerBytes]
      decide
    have hrun : putPolygons bits [p, q] =
        (putHeader [] 6 2).bind fun written => [p, q].foldlM (putPolygon bits) written := rfl
    rw [hrun, hheader, Option.bind_some,
      foldlM_ok (fun pts hpts written => putPolygon_ok (h.nonempty pts hpts)) hlen]
  · simp at hcount

/-! ## Reading back -/

variable (bits) in
/-- A piece as the strict reader makes it. -/
def writtenPolygon (pts : List (F × F)) : Polygon where
  exterior := (closing pts).map fun p => (bits p.1, bits p.2)
  interiors := []

/-- The bits are those of a number. -/
def Numbers (bits : F → Nat) : Prop := ∀ x, bits x < 256 ^ 8 ∧ Binary64.same (bits x) (bits x) = true

theorem pointBytes_spelled (h : Numbers bits) (p : F × F) :
    PointSpelled true 2 (bits p.1, bits p.2) (pointBytes bits p) :=
  ⟨(h p.1).1, (h p.2).1, [], rfl, nofun, by rw [List.flatMap_nil, List.append_nil]; rfl⟩

theorem ringBytes_spelled (h : Numbers bits) {pts : List (F × F)}
    (hlen : (closing pts).length < 256 ^ 4) :
    RingSpelled true 2 (writtenPolygon bits pts).exterior (ringBytes bits pts) := by
  unfold RingSpelled Counted writtenPolygon ringBytes
  rw [List.length_map]
  refine ⟨hlen, _, ⟨List.length_map _, (closing pts).map (pointBytes bits), ?_, List.flatMap_def⟩, rfl⟩
  rw [List.forall₂_map_left_iff, List.forall₂_map_right_iff, List.forall₂_same]
  exact fun p _ => pointBytes_spelled h p

theorem pieceBytes_spelled (h : Numbers bits) {pts : List (F × F)}
    (hlen : (closing pts).length < 256 ^ 4) :
    PartSpelled AnyCode [(writtenPolygon bits pts).exterior] (pieceBytes bits pts) := by
  refine ⟨true, 3, writeLe 1 1 ++ writeLe 4 3, writeLe 4 1 ++ ringBytes bits pts,
    ⟨by decide, [], by decide, by rw [List.append_nil]; rfl⟩, ⟨by decide, by decide⟩, trivial,
    ⟨by rw [List.length_singleton]; decide, ringBytes bits pts,
      ⟨rfl, [ringBytes bits pts], ?_, ?_⟩, rfl⟩, ?_⟩
  · have hdims : ordinates 3 = 2 := by decide
    rw [hdims]
    exact .cons (ringBytes_spelled h hlen) .nil
  · rw [List.flatten_cons, List.flatten_nil, List.append_nil]
  · rw [pieceBytes, headerBytes, List.append_assoc, List.append_assoc, List.append_assoc]

theorem cellBytes_spelled (h : Numbers bits) {pieces : List (List (F × F))}
    (hcount : pieces.length < 256 ^ 4) (hlen : ∀ pts ∈ pieces, (closing pts).length < 256 ^ 4) :
    GeometrySpelled AnyCode (pieces.map fun pts => [(writtenPolygon bits pts).exterior])
      (cellBytes bits pieces) := by
  unfold cellBytes
  split
  next pts => exact Or.inl ⟨_, rfl, pieceBytes_spelled h (hlen pts List.mem_cons_self)⟩
  next =>
    refine Or.inr ⟨true, 6, writeLe 1 1 ++ writeLe 4 6, _,
      ⟨by decide, [], by decide, by rw [List.append_nil]; rfl⟩, ⟨by decide, by decide⟩,
      ⟨by rwa [List.length_map], pieces.flatMap (pieceBytes bits),
        ⟨rfl, pieces.map (pieceBytes bits), ?_, List.flatMap_def⟩, rfl⟩, ?_⟩
    · rw [List.forall₂_map_left_iff, List.forall₂_map_right_iff, List.forall₂_same]
      exact fun pts hpts => pieceBytes_spelled h (hlen pts hpts)
    · rw [headerBytes, List.length_map, List.append_assoc, List.append_assoc, List.append_assoc]
      rfl

theorem cleaned_written (h : Numbers bits) {pts : List (F × F)} (hne : pts ≠ []) :
    cleaned [(writtenPolygon bits pts).exterior] = some (writtenPolygon bits pts) := by
  cases pts with
  | nil => exact absurd rfl hne
  | cons p pts =>
      have hclosing : closing (p :: pts) = p :: (pts ++ [p]) := rfl
      have hclosed : closed (writtenPolygon bits (p :: pts)).exterior =
          (writtenPolygon bits (p :: pts)).exterior := by
        have hsame : Coord.same (bits p.1, bits p.2) (bits p.1, bits p.2) = true := by
          rw [Coord.same, (h p.1).2, (h p.2).2, Bool.and_true]
        unfold writtenPolygon closed
        rw [hclosing]
        simp [List.getLast?_cons, hsame]
      rw [cleaned, hclosed, if_neg (by simp [writtenPolygon, hclosing])]
      rfl

theorem read_written (h : Numbers bits) {pieces : List (List (F × F))} (hpieces : Pieces pieces) :
    wkbToMultipolygon (cellBytes bits pieces) = .ok (pieces.map (writtenPolygon bits)) := by
  refine wkbToMultipolygon_ok.mpr ⟨_, cellBytes_spelled h ?_ fun pts hpts => ?_, ?_, ?_⟩
  · have := hpieces.count
    simp only [List.mem_cons, List.not_mem_nil, or_false] at this
    omega
  · have := hpieces.fits pts hpts
    have hmax : maxCellVertices = 10 := rfl
    rw [length_closing (hpieces.nonempty pts hpts)]
    omega
  · intro rings hrings
    rcases List.mem_map.mp hrings with ⟨pts, -, rfl⟩
    exact fun _ r hr => nomatch hr
  · rw [List.filterMap_map, ← List.filterMap_eq_map]
    exact List.filterMap_congr fun pts hpts =>
      (cleaned_written h (hpieces.nonempty pts hpts)).symm

/-! ## Grown bounds -/

section Grown

variable [LinearOrder F] (value : Nat → F)

open Raster

variable (bits) in
/-- The coordinates of a point as they are written. -/
def asWritten (p : F × F) : F × F := (value (bits p.1), value (bits p.2))

def grow (b : Bounds F) (points : List (F × F)) : Bounds F :=
  points.foldl (fun b p => extendPoint b p.1 p.2) b

/-- The bounds are the least and the greatest of what they were and of the points. -/
structure Grown (points : List (F × F)) (b grown : Bounds F) : Prop where
  minLon : IsLeast {x | x = b.minLon ∨ ∃ p ∈ points, p.1 = x} grown.minLon
  minLat : IsLeast {y | y = b.minLat ∨ ∃ p ∈ points, p.2 = y} grown.minLat
  maxLon : IsGreatest {x | x = b.maxLon ∨ ∃ p ∈ points, p.1 = x} grown.maxLon
  maxLat : IsGreatest {y | y = b.maxLat ∨ ∃ p ∈ points, p.2 = y} grown.maxLat

theorem isLeast_foldl {A G : Type} [LinearOrder G] (f : A → G) (l : List A) (b : G) :
    IsLeast {x | x = b ∨ ∃ a ∈ l, f a = x} (l.foldl (fun m a => min m (f a)) b) := by
  induction l generalizing b with
  | nil =>
      refine ⟨Or.inl rfl, fun x hx => ?_⟩
      rcases hx with rfl | ⟨c, hc, -⟩
      · exact le_rfl
      · cases hc
  | cons a l ih =>
      rcases ih (min b (f a)) with ⟨hmem, hle⟩
      rw [List.foldl_cons]
      refine ⟨?_, fun x hx => ?_⟩
      · rcases hmem with hmin | ⟨c, hc, heq⟩
        · rcases min_choice b (f a) with hchoice | hchoice
          · exact Or.inl (hmin.trans hchoice)
          · exact Or.inr ⟨a, List.mem_cons_self, (hmin.trans hchoice).symm⟩
        · exact Or.inr ⟨c, List.mem_cons_of_mem a hc, heq⟩
      · have hmin := hle (Or.inl rfl)
        rcases hx with rfl | ⟨c, hc, rfl⟩
        · exact hmin.trans (min_le_left _ _)
        · rcases List.mem_cons.mp hc with rfl | hc
          · exact hmin.trans (min_le_right _ _)
          · exact hle (Or.inr ⟨c, hc, rfl⟩)

theorem isGreatest_foldl {A G : Type} [LinearOrder G] (f : A → G) (l : List A) (b : G) :
    IsGreatest {x | x = b ∨ ∃ a ∈ l, f a = x} (l.foldl (fun m a => max m (f a)) b) :=
  @isLeast_foldl A Gᵒᵈ _ f l b

theorem grow_grown (points : List (F × F)) (b : Bounds F) : Grown points b (grow b points) where
  minLon := by
    have hfold : points.foldl (fun m p => min m p.1) b.minLon = (grow b points).minLon :=
      List.foldl_hom Bounds.minLon fun _ _ => rfl
    rw [← hfold]
    exact isLeast_foldl Prod.fst points b.minLon
  minLat := by
    have hfold : points.foldl (fun m p => min m p.2) b.minLat = (grow b points).minLat :=
      List.foldl_hom Bounds.minLat fun _ _ => rfl
    rw [← hfold]
    exact isLeast_foldl Prod.snd points b.minLat
  maxLon := by
    have hfold : points.foldl (fun m p => max m p.1) b.maxLon = (grow b points).maxLon :=
      List.foldl_hom Bounds.maxLon fun _ _ => rfl
    rw [← hfold]
    exact isGreatest_foldl Prod.fst points b.maxLon
  maxLat := by
    have hfold : points.foldl (fun m p => max m p.2) b.maxLat = (grow b points).maxLat :=
      List.foldl_hom Bounds.maxLat fun _ _ => rfl
    rw [← hfold]
    exact isGreatest_foldl Prod.snd points b.maxLat

theorem grow_append (b : Bounds F) (ps qs : List (F × F)) :
    grow b (ps ++ qs) = grow (grow b ps) qs := List.foldl_append

theorem numAt_writeLe {w n : Nat} (h : n < 256 ^ w) (rest : List UInt8) :
    numAt w (writeLe w n ++ rest) = some n := by
  rw [numAt, readLe_writeLe_of_lt h]
  rfl

theorem drop_writeLe (w n : Nat) (rest : List UInt8) : (writeLe w n ++ rest).drop w = rest :=
  List.drop_left' (length_writeLe w n)

theorem extendPoints_run (h : Numbers bits) (ps : List (F × F)) (rest : List UInt8) (b : Bounds F) :
    extendPoints value ps.length (ps.flatMap (pointBytes bits) ++ rest) b =
      (grow b (ps.map (asWritten bits value)), some rest) := by
  induction ps generalizing b with
  | nil => rfl
  | cons p ps ih =>
      have hbytes : (p :: ps).flatMap (pointBytes bits) ++ rest =
          writeLe 8 (bits p.1) ++ (writeLe 8 (bits p.2) ++ (ps.flatMap (pointBytes bits) ++ rest)) := by
        rw [List.flatMap_cons, pointBytes, List.append_assoc, List.append_assoc]
      have hdrop : (writeLe 8 (bits p.1) ++ (writeLe 8 (bits p.2) ++
          (ps.flatMap (pointBytes bits) ++ rest))).drop 16 = ps.flatMap (pointBytes bits) ++ rest := by
        rw [← List.append_assoc]
        exact List.drop_left' (by rw [List.length_append, length_writeLe, length_writeLe])
      rw [hbytes, List.length_cons, extendPoints, drop_writeLe, numAt_writeLe (h p.1).1,
        numAt_writeLe (h p.2).1, hdrop]
      exact ih _

/-- What the bounds' reader finds at a header. -/
theorem header_run {geometryType count : Nat} (htype : geometryType < 256 ^ 4)
    (hcount : count < 256 ^ 4) (rest : List UInt8) :
    (headerBytes geometryType count ++ rest).head? = some 1 ∧
      numAt 4 ((headerBytes geometryType count ++ rest).drop 1) = some geometryType ∧
      numAt 4 ((headerBytes geometryType count ++ rest).drop 5) = some count ∧
      (headerBytes geometryType count ++ rest).drop 9 = rest := by
  have hbytes : headerBytes geometryType count ++ rest =
      writeLe 1 1 ++ (writeLe 4 geometryType ++ (writeLe 4 count ++ rest)) := by
    rw [headerBytes, List.append_assoc, List.append_assoc]
  refine ⟨rfl, ?_, ?_, List.drop_left' (length_headerBytes _ _)⟩
  · rw [hbytes, drop_writeLe, numAt_writeLe htype]
  · rw [hbytes, ← List.append_assoc (writeLe 1 1)]
    rw [List.drop_left' (by rw [List.length_append, length_writeLe, length_writeLe]),
      numAt_writeLe hcount]

theorem extendPolygon_run (h : Numbers bits) {pts : List (F × F)}
    (hlen : (closing pts).length < 256 ^ 4) (rest : List UInt8) (b : Bounds F) :
    extendPolygon value (pieceBytes bits pts ++ rest) b =
      (grow b ((closing pts).map (asWritten bits value)), some rest) := by
  rcases @header_run 3 1 (by decide) (by decide)
    (ringBytes bits pts ++ rest) with ⟨hhead, htype, hcount, hdrop⟩
  rw [pieceBytes, List.append_assoc, extendPolygon, hhead, htype, hcount, hdrop]
  simp only [ne_eq, not_true_eq_false, or_self, if_false]
  rw [extendRings, ringBytes, List.append_assoc, numAt_writeLe hlen]
  simp only [drop_writeLe, extendPoints_run value h]
  rfl

theorem extendPolygons_run (h : Numbers bits) {pieces : List (List (F × F))}
    (hlen : ∀ pts ∈ pieces, (closing pts).length < 256 ^ 4) (b : Bounds F) :
    extendPolygons value pieces.length (pieces.flatMap (pieceBytes bits)) b =
      grow b ((pieces.flatMap closing).map (asWritten bits value)) := by
  induction pieces generalizing b with
  | nil => rfl
  | cons pts pieces ih =>
      rw [List.length_cons, List.flatMap_cons, extendPolygons,
        extendPolygon_run value h (hlen pts List.mem_cons_self), List.flatMap_cons, List.map_append,
        grow_append]
      exact ih (fun qs hqs => hlen qs (List.mem_cons_of_mem pts hqs)) _

theorem extendWkbBounds_written (h : Numbers bits) {pieces : List (List (F × F))}
    (hpieces : Pieces pieces) (b : Bounds F) :
    extendWkbBounds value (cellBytes bits pieces) b =
      grow b ((pieces.flatMap closing).map (asWritten bits value)) := by
  have hlen : ∀ pts ∈ pieces, (closing pts).length < 256 ^ 4 := by
    intro pts hpts
    have := hpieces.fits pts hpts
    have hmax : maxCellVertices = 10 := rfl
    rw [length_closing (hpieces.nonempty pts hpts)]
    omega
  unfold cellBytes
  split
  next pts =>
    have hpts := hlen pts List.mem_cons_self
    have hrun := extendPolygon_run value h hpts [] b
    rw [List.append_nil] at hrun
    rcases @header_run 3 1 (by decide) (by decide)
      (ringBytes bits pts) with ⟨hhead, htype, -, -⟩
    rw [extendWkbBounds, if_pos ⟨hhead, htype⟩, hrun, List.flatMap_cons, List.flatMap_nil,
      List.append_nil]
  next =>
    have hcount : pieces.length < 256 ^ 4 := by
      have := hpieces.count
      simp only [List.mem_cons, List.not_mem_nil, or_false] at this
      omega
    rcases @header_run 6 _ (by decide) hcount
      (pieces.flatMap (pieceBytes bits)) with ⟨hhead, htype, hn, hdrop⟩
    rw [extendWkbBounds, if_neg (by rw [htype]; simp), if_pos ⟨hhead, htype⟩, hn, hdrop]
    exact extendPolygons_run value h hlen b

end Grown

end Spelled

/-! ## Cells -/

section Cells

variable [Field F] [LinearOrder F]

/-- Longitudes that are no more than half a turn apart. -/
def Close (boundary : List (F × F)) : Prop := ∀ p ∈ boundary, ∀ q ∈ boundary, p.1 - q.1 ≤ 180

variable [IsStrictOrderedRing F] [FloorRing F] {boundary : List (F × F)}

theorem nextTo_of_close {prev lng : F} (h : lng - prev ≤ 180) (h' : prev - lng ≤ 180) :
    nextTo prev lng = lng := by
  have hzero : ⌈(lng - prev - 180) / 360⌉₊ = 0 :=
    Nat.ceil_eq_zero.mpr (div_nonpos_of_nonpos_of_nonneg (by linarith) (by norm_num))
  have hzero' : ⌈(prev - lng - 180) / 360⌉₊ = 0 :=
    Nat.ceil_eq_zero.mpr (div_nonpos_of_nonpos_of_nonneg (by linarith) (by norm_num))
  unfold nextTo
  simp only [hzero, Nat.cast_zero, mul_zero, sub_zero, hzero', add_zero]

/-- Such a ring is unwrapped. -/
theorem unwrapped_of_close (h : Close boundary) : unwrapped boundary = boundary := by
  have hfrom : ∀ (l : List (F × F)) (p : F × F), Close (p :: l) → unwrapFrom p.1 l = l := by
    intro l
    induction l with
    | nil => exact fun _ _ => rfl
    | cons q l ih =>
        intro p hclose
        have hq : q ∈ p :: q :: l := List.mem_cons_of_mem p List.mem_cons_self
        rw [unwrapFrom, nextTo_of_close (hclose q hq p List.mem_cons_self)
          (hclose p List.mem_cons_self q hq), ih q fun r hr s hs =>
            hclose r (List.mem_cons_of_mem p hr) s (List.mem_cons_of_mem p hs)]
  cases boundary with
  | nil => rfl
  | cons p boundary => rw [unwrapped, hfrom boundary p h]

/-- The ring itself is its only piece. -/
theorem Narrow.splitPieces_of_close (h : Narrow boundary) (hclose : Close boundary) :
    SplitPieces (unwrapped boundary) [boundary] := by
  rw [unwrapped_of_close hclose]
  have hglobe : ∀ q : F × F, -180 ≤ q.1 → q.1 < 180 → globeWinding q boundary = winding q boundary := by
    intro q hge hlt
    have hwest : winding (q.1 - 360, q.2) boundary = 0 := by
      refine winding_eq_zero (Or.inl fun p hp => ?_)
      have := (h.onMap p hp).1
      simp only
      linarith
    have heast : winding (q.1 + 360, q.2) boundary = 0 := by
      refine winding_eq_zero (Or.inr fun p hp => ?_)
      have := (h.onMap p hp).2
      simp only
      linarith
    rw [globeWinding, hwest, heast, zero_add, add_zero]
  refine ⟨fun piece hpiece => ?_, ?_, fun q hge hlt => ?_, fun piece hpiece q hge hlt => ?_⟩
  · rw [List.mem_singleton.mp hpiece]
    exact h.onMap
  · rw [List.map_singleton, List.sum_singleton]
  · rw [List.map_singleton, List.sum_singleton, hglobe q hge hlt]
  · rw [List.mem_singleton.mp hpiece, hglobe q hge hlt]
    exact Or.inr rfl

omit [IsStrictOrderedRing F] in
theorem cellPolygons_of_close (pole : Option Bool) (hne : boundary ≠ [])
    (hlen : boundary.length ≤ maxCellVertices) (h : Close boundary) :
    cellPolygons boundary pole = some [boundary] := by
  cases hmax : (boundary.map Prod.fst).max? with
  | none => exact absurd (List.map_eq_nil_iff.mp (List.max?_eq_none_iff.mp hmax)) hne
  | some m =>
      cases hmin : (boundary.map Prod.fst).min? with
      | none => exact absurd (List.map_eq_nil_iff.mp (List.min?_eq_none_iff.mp hmin)) hne
      | some n =>
          rcases List.mem_map.mp (List.max?_eq_some_iff.mp hmax).1 with ⟨p, hp, rfl⟩
          rcases List.mem_map.mp (List.min?_eq_some_iff.mp hmin).1 with ⟨q, hq, rfl⟩
          simp only [cellPolygons, hmax, hmin]
          rw [if_neg (not_lt.mpr hlen), if_pos (h p hp q hq)]

theorem cellPolygons_of_wide (pole : Option Bool) (hlen : boundary.length ≤ maxCellVertices)
    {p q : F × F} (hp : p ∈ boundary) (hq : q ∈ boundary) (h : 180 < p.1 - q.1) :
    cellPolygons boundary pole =
      match pole with
      | some north => (polarCap boundary north).map fun cap => [PointRing.points cap]
      | none => (splitCell boundary).map fun rings => rings.map PointRing.points := by
  have hne : boundary ≠ [] := List.ne_nil_of_mem hp
  cases hmax : (boundary.map Prod.fst).max? with
  | none => exact absurd (List.map_eq_nil_iff.mp (List.max?_eq_none_iff.mp hmax)) hne
  | some m =>
      cases hmin : (boundary.map Prod.fst).min? with
      | none => exact absurd (List.map_eq_nil_iff.mp (List.min?_eq_none_iff.mp hmin)) hne
      | some n =>
          have hm := (List.max?_eq_some_iff.mp hmax).2 p.1 (List.mem_map_of_mem hp)
          have hn := (List.min?_eq_some_iff.mp hmin).2 q.1 (List.mem_map_of_mem hq)
          have hwide : ¬ m - n ≤ 180 := by linarith
          simp only [cellPolygons, hmax, hmin]
          exact (if_neg (not_lt.mpr hlen)).trans (if_neg hwide)

/-- The boundary of a cell: of at least five vertices and narrow, or once round a pole. -/
inductive CellRing (boundary : List (F × F)) : Option Bool → Prop
  | narrow (h : Narrow boundary) (five : 5 ≤ (unwrapped boundary).toFinset.card) :
      CellRing boundary none
  | polar (north : Bool) (h : RoundsPole boundary ∨ RoundsPole boundary.reverse) :
      CellRing boundary (some north)

/-- The pieces of a narrow cell, or a cap. -/
def ExactPieces (boundary : List (F × F)) (pole : Option Bool) (pieces : List (List (F × F))) : Prop :=
  match pole with
  | none => SplitPieces (unwrapped boundary) pieces
  | some north => ∃ cap, pieces = [cap] ∧ IsCap boundary (if north then 90 else -90) cap

/-- What is written fits, is read back, is the cell, and is what the bounds grow by. -/
structure ExactEncoding (bits : F → Nat) (value : Nat → F) (boundary : List (F × F))
    (pole : Option Bool) (pieces : List (List (F × F))) (bytes : List UInt8) : Prop where
  pieces_eq : cellPolygons boundary pole = some pieces
  bytes_eq : cellToWkb bits boundary pole = some bytes
  fits : bytes.length ≤ wkbBufLen
  read : wkbToMultipolygon bytes = .ok (pieces.map (writtenPolygon bits))
  exactly : ExactPieces boundary pole pieces
  bounds : ∀ b, Grown ((pieces.flatMap closing).map (asWritten bits value)) b
    (extendWkbBounds value bytes b)

def EncodedExactly (bits : F → Nat) (value : Nat → F) (boundary : List (F × F))
    (pole : Option Bool) : Prop :=
  ∃ pieces bytes, ExactEncoding bits value boundary pole pieces bytes

omit [IsStrictOrderedRing F] in
theorem encoded_of_pieces {bits : F → Nat} (h : Numbers bits) (value : Nat → F) {pole : Option Bool}
    {pieces : List (List (F × F))} (hpolygons : cellPolygons boundary pole = some pieces)
    (hpieces : Pieces pieces) (hexact : ExactPieces boundary pole pieces) :
    EncodedExactly bits value boundary pole := by
  rcases @putPolygons_ok F bits pieces hpieces with ⟨hput, hfits⟩
  refine ⟨pieces, cellBytes bits pieces, hpolygons, ?_, hfits, read_written h hpieces, hexact,
    fun b => ?_⟩
  · rw [cellToWkb, hpolygons]
    exact hput
  · rw [extendWkbBounds_written value h hpieces]
    exact grow_grown _ b

theorem Narrow.pieces (h : Narrow boundary) (hlen : boundary.length ≤ maxCellVertices)
    (hfive : 5 ≤ (unwrapped boundary).toFinset.card) :
    ∃ pieces, cellPolygons boundary none = some pieces ∧ Pieces pieces ∧
      SplitPieces (unwrapped boundary) pieces := by
  have hne : boundary ≠ [] := by
    rintro rfl
    simp [unwrapped] at hfive
  by_cases hclose : Close boundary
  · refine ⟨[boundary], cellPolygons_of_close none hne hlen hclose,
      ⟨by simp, fun pts hpts => ?_, fun pts hpts => ?_⟩, h.splitPieces_of_close hclose⟩
    · rw [List.mem_singleton.mp hpts]
      exact hne
    · rw [List.mem_singleton.mp hpts]
      omega
  · unfold Close at hclose
    push Not at hclose
    rcases hclose with ⟨p, hp, q, hq, hwide⟩
    rcases splitCell_pieces h hlen hfive with ⟨rings, hsplit, hcount, hrings, hexact⟩
    refine ⟨rings.map PointRing.points, ?_, ⟨?_, fun pts hpts => ?_, fun pts hpts => ?_⟩, hexact⟩
    · rw [cellPolygons_of_wide none hlen hp hq hwide, hsplit]
      rfl
    · rwa [List.length_map]
    · rcases List.mem_map.mp hpts with ⟨ring, hring, rfl⟩
      have harea := of_decide_eq_true (hrings ring hring).1
      rintro hnil
      rw [hnil] at harea
      simp at harea
    · rcases List.mem_map.mp hpts with ⟨ring, hring, rfl⟩
      exact (hrings ring hring).2

/-- Every cell is encoded as it should be, if it is not a cap whose crossing edge is missed. -/
theorem cell_encoding_exact {bits : F → Nat} (hbits : Numbers bits) (value : Nat → F)
    {pole : Option Bool} (hlen : boundary.length ≤ maxCellVertices) (hcell : CellRing boundary pole)
    (hfound : pole ≠ none → MeridianFirst (eastward boundary)) :
    EncodedExactly bits value boundary pole := by
  cases hcell with
  | narrow h five =>
      rcases h.pieces hlen five with ⟨pieces, hpolygons, hpieces, hexact⟩
      exact encoded_of_pieces hbits value hpolygons hpieces hexact
  | polar north h =>
      have hm := hfound (Option.some_ne_none north)
      rcases polarCap_isCap h hm hlen north with ⟨cap, hcap, hsmall, hisCap⟩
      rcases rounds_wide h hm with ⟨p, hp, q, hq, hwide⟩
      have hone : Pieces [cap.points] := by
        refine ⟨by simp, fun pts hpts => ?_, fun pts hpts => ?_⟩
        · rw [List.mem_singleton.mp hpts]
          exact List.ne_nil_of_mem (hisCap.vertices p hp)
        · rw [List.mem_singleton.mp hpts]
          exact hsmall
      refine encoded_of_pieces hbits value ?_ hone ⟨cap.points, rfl, hisCap⟩
      rw [cellPolygons_of_wide (some north) hlen hp hq hwide]
      show (polarCap boundary north).map (fun cap => [PointRing.points cap]) = _
      rw [hcap]
      rfl

end Cells

/-! ## A split cell, a cap, and a cap whose crossing edge is missed -/

/-- The numbers in the rings below and in their pieces, with their bits. -/
def ringTable : List (ℚ × Nat) :=
  [(-180, 13863909240395005952), (-175, 13863733318534561792), (-170, 13863557396674117632),
    (-135, 13862325943651008512), (-45, 13854902041140264960), (-5, 13840687554816376832),
    (5, 4617315517961601024), (45, 4631530004285489152), (75, 4634978072750194688),
    (80, 4635329916471083008), (90, 4636033603912859648), (135, 4638953906796232704),
    (170, 4640185359819341824), (175, 4640361281679785984), (180, 4640537203540230144)]

def ringBits (x : ℚ) : Nat := (ringTable.lookup x).getD 0

theorem ringBits_numbers : Numbers ringBits := by
  intro x
  have htable : ∀ e ∈ ringTable, e.2 < 256 ^ 8 ∧ Binary64.same e.2 e.2 = true := by decide +kernel
  unfold ringBits
  cases hx : ringTable.lookup x with
  | none => exact ⟨by decide, by decide +kernel⟩
  | some n =>
      rcases List.lookup_eq_some_iff.mp hx with ⟨before, after, heq, -⟩
      exact htable (x, n) (by rw [heq]; simp)

def floatValue (bits : Nat) : ℚ := (((Binary64.value bits).getD 0).unbotD 0).untopD 0

theorem cell_encoding_exact_rings :
    EncodedExactly ringBits floatValue
        [(170, 0), (175, -5), (-175, -5), (-170, 0), (-180, 5)] none ∧
      EncodedExactly ringBits floatValue
        [(-135, 80), (-45, 80), (0, 75), (45, 80), (135, 80)] (some true) := by
  constructor
  · exact cell_encoding_exact ringBits_numbers floatValue (by decide)
      (.narrow ⟨by decide +kernel, by decide +kernel⟩ (by decide +kernel)) fun h => absurd rfl h
  · refine cell_encoding_exact ringBits_numbers floatValue (by decide) (.polar true (Or.inl ?_))
      fun _ => Or.inl (by decide +kernel)
    exact ⟨by decide +kernel, by decide +kernel, by decide +kernel, by decide +kernel⟩

/-- A vertex at -180 degrees that is not the first: another edge is taken for the crossing one, the
latitude at which it would cross is beyond the pole, and the cap runs clockwise. -/
theorem cap_of_missed_crossing :
    RoundsPole [((90, 80) : ℚ × ℚ), (135, 10), (-180, 10), (-90, 10), (0, 10)] ∧
      ∀ bits value, ¬ EncodedExactly bits value
        [((90, 80) : ℚ × ℚ), (135, 10), (-180, 10), (-90, 10), (0, 10)] (some true) := by
  refine ⟨⟨by decide +kernel, by decide +kernel, by decide +kernel, by decide +kernel⟩, ?_⟩
  intro bits value h
  rcases h with ⟨pieces, bytes, h⟩
  have hcap : cellPolygons [((90, 80) : ℚ × ℚ), (135, 10), (-180, 10), (-90, 10), (0, 10)]
      (some true) = some [[(-180, 150), (90, 80), (135, 10), (-180, 10), (-90, 10), (0, 10),
        (180, 150), (180, 90), (-180, 90)]] := by decide +kernel
  have hpieces := h.pieces_eq
  rw [hcap] at hpieces
  rcases h.exactly with ⟨cap, hone, hisCap⟩
  rw [← Option.some.inj hpieces] at hone
  have hpos := hisCap.counterclockwise
  rw [← List.singleton_inj.mp hone] at hpos
  exact absurd hpos (by decide +kernel)

end RasterH3.Encoding
