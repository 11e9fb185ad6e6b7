import RasterH3.Pmtiles.MvtTile
import Mathlib.Tactic.Ring
import Mathlib.Tactic.Linarith

/-!
# Outlines survive their encoding

A ring is written as the way of a cursor: a command to move, a command to draw so many
lines, and for each point the step from the point before it, one zigzag number for each
axis. The reader's cursor goes the same way as long as every step is an `i32`, since zigzag
loses nothing of such a number; the encoder computes the steps with checked arithmetic, so
that it answers at all only in this case. The lemmas about writing have the form of an
equality with `some` for that reason: what the condition is, and what is written.

A tile holds a ring more than once where its cell lies across the antimeridian, and the
cursor is not set back in between. So the statements about rings are about a path (`path`),
all copies one after the other, whose steps have to be `i32` within the copies and between
them (`writeRings_eq_some`, by induction on the offsets of the copies, with the last point
of each handed to the next).

The exterior ring is the outline in one direction or the other, whichever has a positive
area. The area is the sum of the surveyor's terms. They are collected in an `i64`, and again
the condition under which that goes through (`AreaFits`) is a part of the answer. Reversal
negates the sum and translation leaves it alone; both are shown of `sweep`, the sum over a
path that need not be closed, because there the induction has something to go along.

What remains is where the corners of an outline come from. They are vertices, or for a cell
around a pole the vertices and the corners of its cap, rounded to pixels and saturated to
`i32`; and there are always at least three of them, so that a ring is a polygon before its
pixels are looked at.
-/

namespace RasterH3.Pmtiles.Mvt

open Bytes Protobuf

/-! ## Integers that fit -/

theorem i32_eq_some {v w : Int} : i32 v = some w ↔ FitsI32 v ∧ w = v := by
  unfold i32
  split
  next h => simp [h, eq_comm]
  next h => simp [h]

theorem i64_eq_some {v w : Int} : i64 v = some w ↔ FitsI64 v ∧ w = v := by
  unfold i64
  split
  next h => simp [h, eq_comm]
  next h => simp [h]

theorem toNat_zigzagEncode (v : BitVec 32) :
    (zigzagEncode v).toNat =
      if v.toNat < 2 ^ 31 then 2 * v.toNat else 2 * (2 ^ 32 - 1 - v.toNat) + 1 := by
  have hlt := v.isLt
  have hshift : (v <<< 1).toNat = 2 * v.toNat % 2 ^ 32 := by
    rw [BitVec.toNat_shiftLeft, Nat.shiftLeft_eq, Nat.mul_comm, Nat.pow_one]
  split
  next h =>
    have hmsb : v.msb = false := by
      rw [BitVec.msb_eq_decide]
      simp
      omega
    have hzero : v.sshiftRight 31 = 0#32 := by
      apply BitVec.eq_of_toNat_eq
      rw [BitVec.toNat_sshiftRight_of_msb_false hmsb]
      simp [Nat.shiftRight_eq_div_pow]
      omega
    rw [zigzagEncode, hzero, BitVec.xor_zero, hshift]
    omega
  next h =>
    have hmsb : v.msb = true := by
      rw [BitVec.msb_eq_decide]
      simp
      omega
    have hones : v.sshiftRight 31 = BitVec.allOnes 32 := by
      apply BitVec.eq_of_toNat_eq
      rw [BitVec.toNat_sshiftRight_of_msb_true hmsb]
      simp [Nat.shiftRight_eq_div_pow]
      omega
    rw [zigzagEncode, hones, BitVec.xor_allOnes, BitVec.toNat_not, hshift]
    omega

theorem zigzagDecode_zigzagEncode {d : Int} (h : FitsI32 d) :
    zigzagDecode (zigzagEncode (.ofInt 32 d)).toNat = d := by
  obtain ⟨hlo, hhi⟩ := h
  have hnat : ((BitVec.ofInt 32 d).toNat : Int) = d % 2 ^ 32 := by
    rw [BitVec.toNat_ofInt]
    omega
  rw [toNat_zigzagEncode, zigzagDecode]
  split <;> split <;> omega

/-! ## The cursor -/

/-- One step of the cursor is an `i32` on both axes. -/
def Near (p q : Pixel) : Prop := FitsI32 (q.1 - p.1) ∧ FitsI32 (q.2 - p.2)

instance : DecidableRel Near := fun _ _ => inferInstanceAs (Decidable (_ ∧ _))

def deltaCode (prev v : Int) : Nat := (zigzagEncode (.ofInt 32 (v - prev))).toNat

/-- The numbers the points of a ring are written as. -/
def pointCodes (prev : Pixel) : List Pixel → List Nat
  | [] => []
  | p :: ps => deltaCode prev.1 p.1 :: deltaCode prev.2 p.2 :: pointCodes p ps

theorem writeDelta_eq_some {prev v : Int} {bytes : List UInt8} :
    writeDelta prev v = some bytes ↔
      FitsI32 (v - prev) ∧ bytes = writeVarint (deltaCode prev v) := by
  rw [writeDelta, Option.bind_eq_bind, Option.bind_eq_some_iff]
  constructor
  · rintro ⟨d, hd, hbytes⟩
    obtain ⟨hfits, rfl⟩ := i32_eq_some.mp hd
    exact ⟨hfits, (Option.some.inj hbytes).symm⟩
  · rintro ⟨hfits, rfl⟩
    exact ⟨_, i32_eq_some.mpr ⟨hfits, rfl⟩, rfl⟩

theorem writePoints_eq_some {prev : Pixel} {ps : List Pixel} {bytes : List UInt8} :
    writePoints prev ps = some bytes ↔
      (prev :: ps).IsChain Near ∧ bytes = writePacked (pointCodes prev ps) := by
  induction ps generalizing prev bytes with
  | nil => simp [writePoints, pointCodes, writePacked, eq_comm]
  | cons p ps ih =>
      simp only [writePoints, Option.bind_eq_bind, Option.bind_eq_some_iff, writeDelta_eq_some, ih,
        List.isChain_cons_cons, Near]
      constructor
      · rintro ⟨x, ⟨hx, rfl⟩, y, ⟨hy, rfl⟩, rest, ⟨hchain, rfl⟩, hbytes⟩
        refine ⟨⟨⟨hx, hy⟩, hchain⟩, ?_⟩
        rw [← Option.some.inj hbytes]
        simp [pointCodes, writePacked]
      · rintro ⟨⟨⟨hx, hy⟩, hchain⟩, rfl⟩
        exact ⟨_, ⟨hx, rfl⟩, _, ⟨hy, rfl⟩, _, ⟨hchain, rfl⟩, by simp [pointCodes, writePacked]⟩

theorem readPoints_pointCodes (prev : Pixel) (ps : List Pixel) (h : (prev :: ps).IsChain Near)
    (rest : List Nat) :
    readPoints ps.length prev (pointCodes prev ps ++ rest) = some (ps, rest) := by
  induction ps generalizing prev with
  | nil => simp [readPoints, pointCodes]
  | cons p ps ih =>
      obtain ⟨⟨hx, hy⟩, hchain⟩ := List.isChain_cons_cons.mp h
      have hp : (prev.1 + zigzagDecode (deltaCode prev.1 p.1),
          prev.2 + zigzagDecode (deltaCode prev.2 p.2)) = p := by
        rw [deltaCode, deltaCode, zigzagDecode_zigzagEncode hx, zigzagDecode_zigzagEncode hy]
        exact Prod.ext (by ring) (by ring)
      simp only [List.length_cons, pointCodes, List.cons_append, readPoints, hp, ih p hchain]
      rfl

/-- The numbers a ring is written as. -/
def ringCodes (prev : Pixel) : List Pixel → List Nat
  | [] => []
  | p :: ps =>
      [tag 1 (cmdMoveTo &&& 7)] ++ pointCodes prev [p] ++ [tag ps.length (cmdLineTo &&& 7)] ++
        pointCodes p ps ++ [tag 1 (cmdClosePath &&& 7)]

theorem writeRing_eq_some {prev : Pixel} {ring : List Pixel} {bytes : List UInt8} :
    writeRing prev ring = some bytes ↔
      (prev :: ring).IsChain Near ∧ bytes = writePacked (ringCodes prev ring) := by
  cases ring with
  | nil => simp [writeRing, ringCodes, writePacked, eq_comm]
  | cons p ps =>
      have hchain : (prev :: p :: ps).IsChain Near ↔
          (prev :: [p]).IsChain Near ∧ (p :: ps).IsChain Near := by
        simp [List.isChain_cons_cons]
      simp only [writeRing, Option.bind_eq_bind, Option.bind_eq_some_iff, writePoints_eq_some,
        hchain]
      constructor
      · rintro ⟨first, ⟨hfirst, rfl⟩, rest, ⟨hrest, rfl⟩, hbytes⟩
        refine ⟨⟨hfirst, hrest⟩, ?_⟩
        rw [← Option.some.inj hbytes]
        simp [ringCodes, writePacked, command]
      · rintro ⟨⟨hfirst, hrest⟩, rfl⟩
        exact ⟨_, ⟨hfirst, rfl⟩, _, ⟨hrest, rfl⟩, by simp [ringCodes, writePacked, command]⟩

theorem readCommand_tag {id : Nat} (h : id < 8) (count : Nat) (rest : List Nat) :
    readCommand id (tag count id :: rest) = some (count, rest) := by
  have hmod : tag count id % 8 = id := by
    rw [tag_eq h]
    omega
  have hdiv : tag count id / 8 = count := by
    rw [tag_eq h]
    omega
  rw [readCommand, if_pos hmod, hdiv]

theorem readRing_ringCodes {prev : Pixel} {ring : List Pixel} (hlen : 3 ≤ ring.length)
    (h : (prev :: ring).IsChain Near) (rest : List Nat) :
    readRing prev (ringCodes prev ring ++ rest) = some (ring, rest) := by
  cases ring with
  | nil => simp at hlen
  | cons p ps =>
      obtain ⟨hp, hps⟩ := List.isChain_cons_cons.mp h
      have hfirst := readPoints_pointCodes prev [p]
        (List.isChain_cons_cons.mpr ⟨hp, List.isChain_singleton p⟩)
      have hcount : ¬ ps.length < 2 := by
        simp only [List.length_cons] at hlen
        omega
      rw [List.length_singleton] at hfirst
      simp only [readRing, ringCodes, List.append_assoc, List.cons_append, List.nil_append,
        show cmdMoveTo &&& 7 = 1 from rfl, show cmdLineTo &&& 7 = 2 from rfl,
        show cmdClosePath &&& 7 = 7 from rfl, readCommand_tag (show 1 < 8 by decide),
        readCommand_tag (show 2 < 8 by decide), readCommand_tag (show 7 < 8 by decide), hfirst,
        Option.bind_eq_bind, Option.bind_some, ne_eq, not_true_eq_false, if_false, hcount,
        List.getLastD_cons, List.getLastD_nil, readPoints_pointCodes p ps hps]
      rfl

/-! ## Rings one after the other -/

def translated (d : Int) (ps : List Pixel) : List Pixel := ps.map fun p => (p.1 + d, p.2)

theorem shifted_eq_some {d : Int} {ps ring : List Pixel} :
    shifted d ps = some ring ↔ (∀ p ∈ ps, FitsI32 (p.1 + d)) ∧ ring = translated d ps := by
  induction ps generalizing ring with
  | nil => simp [shifted, translated, eq_comm]
  | cons p ps ih =>
      simp only [shifted, Option.bind_eq_bind, Option.bind_eq_some_iff, i32_eq_some, ih,
        List.forall_mem_cons]
      constructor
      · rintro ⟨x, ⟨hx, rfl⟩, rest, ⟨hps, rfl⟩, hring⟩
        exact ⟨⟨hx, hps⟩, (Option.some.inj hring).symm⟩
      · rintro ⟨⟨hx, hps⟩, rfl⟩
        exact ⟨_, ⟨hx, rfl⟩, _, ⟨hps, rfl⟩, rfl⟩

/-- The whole way of the cursor over the copies of a ring. -/
def path (points : List Pixel) (ds : List Int) : List Pixel :=
  ds.flatMap fun d => translated d points

def ringsCodes (points : List Pixel) (prev : Pixel) : List Int → List Nat
  | [] => []
  | d :: ds =>
      ringCodes prev (translated d points) ++
        ringsCodes points ((translated d points).getLastD prev) ds

theorem isChain_cons_append {prev : Pixel} {ring rest : List Pixel} :
    (prev :: (ring ++ rest)).IsChain Near ↔
      (prev :: ring).IsChain Near ∧ (ring.getLastD prev :: rest).IsChain Near := by
  induction ring generalizing prev with
  | nil => simp
  | cons p ring ih =>
      rw [List.cons_append, List.isChain_cons_cons, List.isChain_cons_cons, ih, and_assoc,
        List.getLastD_cons]

theorem writeRings_eq_some {points : List Pixel} {prev : Pixel} {ds : List Int}
    {bytes : List UInt8} :
    writeRings points prev ds = some bytes ↔
      (∀ d ∈ ds, ∀ p ∈ points, FitsI32 (p.1 + d)) ∧ (prev :: path points ds).IsChain Near ∧
        bytes = writePacked (ringsCodes points prev ds) := by
  induction ds generalizing prev bytes with
  | nil => simp [writeRings, path, ringsCodes, writePacked, eq_comm]
  | cons d ds ih =>
      have hpath : path points (d :: ds) = translated d points ++ path points ds := rfl
      simp only [writeRings, Option.bind_eq_bind, Option.bind_eq_some_iff, shifted_eq_some,
        writeRing_eq_some, ih, List.forall_mem_cons, hpath, isChain_cons_append]
      constructor
      · rintro ⟨ring, ⟨hd, rfl⟩, b, ⟨hring, rfl⟩, rest, ⟨hds, hrest, rfl⟩, hbytes⟩
        refine ⟨⟨hd, hds⟩, ⟨hring, hrest⟩, ?_⟩
        rw [← Option.some.inj hbytes]
        simp [ringsCodes, writePacked]
      · rintro ⟨⟨hd, hds⟩, ⟨hring, hrest⟩, rfl⟩
        exact ⟨_, ⟨hd, rfl⟩, _, ⟨hring, rfl⟩, _, ⟨hds, hrest, rfl⟩,
          by simp [ringsCodes, writePacked]⟩

theorem length_translated (d : Int) (ps : List Pixel) : (translated d ps).length = ps.length :=
  List.length_map _

theorem ringCodes_cons (prev : Pixel) {ring : List Pixel} (h : 3 ≤ ring.length) :
    ∃ n ns, ringCodes prev ring = n :: ns := by
  cases ring with
  | nil => simp at h
  | cons p ps => exact ⟨_, _, rfl⟩

theorem readRings_ringsCodes {points : List Pixel} {prev : Pixel} {ds : List Int} {rounds : Nat}
    (hlen : 3 ≤ points.length) (h : (prev :: path points ds).IsChain Near)
    (hle : ds.length ≤ rounds) :
    readRings rounds prev (ringsCodes points prev ds) =
      some (ds.map fun d => translated d points) := by
  induction ds generalizing prev rounds with
  | nil => cases rounds <;> rfl
  | cons d ds ih =>
      have hpath : path points (d :: ds) = translated d points ++ path points ds := rfl
      rw [hpath, isChain_cons_append] at h
      have hring : 3 ≤ (translated d points).length := by rwa [length_translated]
      cases rounds with
      | zero => simp at hle
      | succ rounds =>
          obtain ⟨n, ns, hcons⟩ := ringCodes_cons prev hring
          have hread := readRing_ringCodes hring h.1
            (ringsCodes points ((translated d points).getLastD prev) ds)
          rw [ringsCodes, hcons, List.cons_append, readRings, ← List.cons_append, ← hcons, hread]
          simp only [Option.bind_eq_bind, Option.bind_some]
          rw [ih h.2 (by simpa using hle)]
          rfl

theorem length_le_ringsCodes {points : List Pixel} (hlen : 3 ≤ points.length) (prev : Pixel)
    (ds : List Int) : ds.length ≤ (ringsCodes points prev ds).length := by
  induction ds generalizing prev with
  | nil => exact Nat.zero_le _
  | cons d ds ih =>
      have hring : 3 ≤ (translated d points).length := by rwa [length_translated]
      obtain ⟨n, ns, hcons⟩ := ringCodes_cons prev hring
      have hih := ih ((translated d points).getLastD prev)
      rw [ringsCodes, List.length_append, hcons]
      simp only [List.length_cons]
      omega

/-! ## Areas -/

def cross (p q : Pixel) : Int := p.1 * q.2 - q.1 * p.2

/-- Twice the area a path sweeps as seen from the origin. -/
def sweep : List Pixel → Int
  | [] => 0
  | [_] => 0
  | p :: q :: ps => cross p q + sweep (q :: ps)

/-- Twice the signed area of a ring, by the surveyor's formula. -/
def area (ring : List Pixel) : Int := (areaTerms ring).sum

theorem sum_zipWith_cross (q : Pixel) (ps : List Pixel) (p : Pixel) :
    (List.zipWith (fun p q => p.1 * q.2 - q.1 * p.2) (q :: ps) (ps ++ [p])).sum =
      sweep (q :: ps ++ [p]) := by
  induction ps generalizing q with
  | nil => simp [sweep, cross]
  | cons r ps ih =>
      have hih := ih r
      simp only [List.cons_append] at hih
      simp only [List.cons_append, List.zipWith_cons_cons, List.sum_cons, sweep, hih, cross]

theorem area_cons (p : Pixel) (ps : List Pixel) : area (p :: ps) = sweep (p :: ps ++ [p]) := by
  have hterms : areaTerms (p :: ps) =
      List.zipWith (fun p q => p.1 * q.2 - q.1 * p.2) (p :: ps) (ps ++ [p]) := by
    simp [areaTerms]
  rw [area, hterms, sum_zipWith_cross]

theorem sweep_concat (ps : List Pixel) (a b : Pixel) :
    sweep (ps ++ [a, b]) = sweep (ps ++ [a]) + cross a b := by
  induction ps with
  | nil => simp [sweep]
  | cons p ps ih =>
      cases ps with
      | nil => simp [sweep]
      | cons q ps =>
          simp only [List.cons_append, sweep] at ih ⊢
          rw [ih]
          ring

theorem cross_swap (p q : Pixel) : cross q p = -cross p q := by
  unfold cross
  ring

theorem sweep_reverse (ps : List Pixel) : sweep ps.reverse = -sweep ps := by
  induction ps with
  | nil => rfl
  | cons p ps ih =>
      cases ps with
      | nil => simp [sweep]
      | cons q ps =>
          rw [List.reverse_cons, List.reverse_cons, List.append_assoc, List.singleton_append,
            sweep_concat, ← List.reverse_cons, ih, cross_swap, sweep]
          ring

theorem area_reverse (ring : List Pixel) : area ring.reverse = -area ring := by
  cases ring with
  | nil => rfl
  | cons p ps =>
      have hrev := sweep_reverse (p :: ps ++ [p])
      rw [area_cons, ← hrev]
      cases hps : ps.reverse with
      | nil =>
          obtain rfl : ps = [] := List.reverse_eq_nil_iff.mp hps
          simp [area_cons, sweep]
      | cons q qs =>
          -- the same closed way, begun at another corner
          have hclosed : (p :: ps ++ [p]).reverse = p :: (q :: qs ++ [p]) := by
            simp [hps]
          rw [List.reverse_cons, hps, hclosed, List.cons_append, area_cons]
          have hconcat := sweep_concat (q :: qs) p q
          simp only [List.cons_append, List.append_assoc, List.nil_append, sweep] at hconcat ⊢
          rw [hconcat]
          ring

theorem sweep_translated (d : Int) (p : Pixel) (ps : List Pixel) (q : Pixel) :
    sweep (translated d (p :: ps ++ [q])) = sweep (p :: ps ++ [q]) + d * (q.2 - p.2) := by
  induction ps generalizing p with
  | nil =>
      simp only [translated, List.cons_append, List.nil_append, List.map_cons, List.map_nil, sweep,
        cross]
      ring
  | cons r ps ih =>
      have hih := ih r
      simp only [translated, List.cons_append, List.map_cons, sweep, cross] at hih ⊢
      rw [hih]
      ring

theorem area_translated (d : Int) (ring : List Pixel) : area (translated d ring) = area ring := by
  cases ring with
  | nil => rfl
  | cons p ps =>
      have hsweep := sweep_translated d p ps p
      have hmap : translated d (p :: ps ++ [p]) =
          (p.1 + d, p.2) :: translated d ps ++ [(p.1 + d, p.2)] := by
        simp [translated]
      rw [area_cons, ← show sweep (translated d (p :: ps ++ [p])) = sweep (p :: ps ++ [p]) by
        rw [hsweep]; ring, hmap]
      exact area_cons (p.1 + d, p.2) (translated d ps)

/-! ## The exterior ring -/

/-- Every number the surveyor's formula goes through is an `i64`. -/
structure AreaFits (points : List Pixel) : Prop where
  terms : ∀ v ∈ areaTerms points, FitsI64 v
  sums : ∀ k, FitsI64 ((areaTerms points).take k).sum

/-- The outline in the direction of an exterior ring. -/
def exterior (points : List Pixel) : List Pixel :=
  if area points < 0 then points.reverse else points

theorem sumI64_eq_some {total s : Int} {vs : List Int} (htotal : FitsI64 total) :
    sumI64 total vs = some s ↔
      (∀ v ∈ vs, FitsI64 v) ∧ (∀ k, FitsI64 (total + (vs.take k).sum)) ∧ s = total + vs.sum := by
  induction vs generalizing total with
  | nil => simp [sumI64, htotal, eq_comm]
  | cons v vs ih =>
      simp only [sumI64, Option.bind_eq_bind, Option.bind_eq_some_iff, i64_eq_some,
        List.forall_mem_cons, List.sum_cons]
      constructor
      · rintro ⟨_, ⟨hv, rfl⟩, _, ⟨hnext, rfl⟩, hrest⟩
        obtain ⟨hvs, hsums, rfl⟩ := (ih hnext).mp hrest
        refine ⟨⟨hv, hvs⟩, fun k => ?_, by ring⟩
        cases k with
        | zero => simpa using htotal
        | succ k => simpa [add_assoc] using hsums k
      · rintro ⟨⟨hv, hvs⟩, hsums, rfl⟩
        have hnext : FitsI64 (total + v) := by simpa using hsums 1
        refine ⟨v, ⟨hv, rfl⟩, _, ⟨hnext, rfl⟩, (ih hnext).mpr ⟨hvs, fun k => ?_, by ring⟩⟩
        simpa [add_assoc] using hsums (k + 1)

theorem orientExterior_eq_some {points ring : List Pixel} :
    orientExterior points = some ring ↔ AreaFits points ∧ ring = exterior points := by
  have hzero : FitsI64 0 := by decide
  simp only [orientExterior, Option.bind_eq_bind, Option.bind_eq_some_iff, sumI64_eq_some hzero,
    zero_add]
  constructor
  · rintro ⟨s, ⟨hterms, hsums, rfl⟩, hring⟩
    exact ⟨⟨hterms, hsums⟩, (Option.some.inj hring).symm⟩
  · rintro ⟨⟨hterms, hsums⟩, rfl⟩
    exact ⟨_, ⟨hterms, hsums, rfl⟩, rfl⟩

theorem exterior_cases (points : List Pixel) :
    exterior points = points ∨ exterior points = points.reverse := by
  unfold exterior
  split
  next => exact .inr rfl
  next => exact .inl rfl

theorem area_exterior (points : List Pixel) : area (exterior points) = |area points| := by
  unfold exterior
  split
  next h => rw [area_reverse, abs_of_neg h]
  next h => rw [abs_of_nonneg (not_lt.mp h)]

theorem mem_exterior {points : List Pixel} {p : Pixel} : p ∈ exterior points ↔ p ∈ points := by
  rcases exterior_cases points with h | h <;> simp [h]

theorem length_exterior (points : List Pixel) : (exterior points).length = points.length := by
  rcases exterior_cases points with h | h <;> simp [h]

/-! ## Outlines of cells -/

section Outline

variable {F : Type} [LinearOrder F]

theorem length_pushPoint_le (pts : List (F × F)) (p : F × F) :
    pts.length ≤ (pushPoint pts p).length := by
  unfold pushPoint
  split <;> simp

theorem getLast?_pushPoint (pts : List (F × F)) (p : F × F) :
    (pushPoint pts p).getLast? = some p := by
  unfold pushPoint
  split
  next h => exact h
  next => simp

theorem head?_pushPoint {pts : List (F × F)} {q : F × F} (h : pts.head? = some q) (p : F × F) :
    (pushPoint pts p).head? = some q := by
  cases pts with
  | nil => cases h
  | cons r pts =>
      unfold pushPoint
      split
      next => exact h
      next => exact h

theorem length_pushPoint {pts : List (F × F)} {p : F × F} (h : pts.getLast? ≠ some p) :
    (pushPoint pts p).length = pts.length + 1 := by
  rw [pushPoint, if_neg h, List.length_append, List.length_singleton]

theorem head?_foldl_pushPoint {q : F × F} (ps : List (F × F)) {pts : List (F × F)}
    (h : pts.head? = some q) : (ps.foldl pushPoint pts).head? = some q := by
  induction ps generalizing pts with
  | nil => exact h
  | cons p ps ih => exact ih (head?_pushPoint h p)

omit [LinearOrder F] in
theorem two_le_length {pts : List (F × F)} {a b : F × F} (hhead : pts.head? = some a)
    (hlast : pts.getLast? = some b) (hne : a ≠ b) : 2 ≤ pts.length := by
  match pts with
  | [] => cases hhead
  | [p] =>
      obtain rfl := Option.some.inj hhead
      obtain rfl := Option.some.inj hlast
      exact absurd rfl hne
  | _ :: _ :: _ => simp

/-- Four ends that do not all coincide keep a ring a polygon. -/
theorem three_le_pushed (a : F × F) (mid : List (F × F)) {b c d : F × F} (hab : a ≠ b)
    (hcd : c ≠ d) : 3 ≤ (([a] ++ mid ++ [b, c, d]).foldl pushPoint []).length := by
  have hstart : ([a].foldl pushPoint []).head? = some a := rfl
  simp only [List.foldl_append, List.foldl_cons, List.foldl_nil] at hstart ⊢
  have hb := two_le_length (head?_pushPoint (head?_foldl_pushPoint mid hstart) b)
    (getLast?_pushPoint _ b) hab
  have hc := hb.trans (length_pushPoint_le _ c)
  have hlast := getLast?_pushPoint
    (pushPoint (mid.foldl pushPoint (pushPoint [] a)) b) c
  rw [length_pushPoint (by rw [hlast]; exact fun h => hcd (Option.some.inj h))]
  omega

variable [Field F]

theorem three_le_polarCap [IsStrictOrderedRing F] (xs ys : List F) (x0 edgeY : F) :
    3 ≤ (polarCap xs ys x0 1 edgeY).length := by
  have hseam : x0 ≠ x0 + 1 := by simp
  unfold polarCap
  exact three_le_pushed _ _ (fun h => hseam (congrArg Prod.fst h))
    (fun h => hseam (congrArg Prod.fst h).symm)

variable [FloorRing F]

@[simp] theorem length_unwrapFrom (u : F) (xs : List F) : (unwrapFrom u xs).length = xs.length := by
  induction xs generalizing u with
  | nil => rfl
  | cons x xs ih => rw [unwrapFrom, List.length_cons, ih, List.length_cons]

theorem saturate_fits (v : Int) : FitsI32 (saturate v) := by
  unfold saturate FitsI32
  omega

/-- Where the outline's corners come from. -/
theorem outline_points [IsStrictOrderedRing F] {vertices : List (MercatorPoint F)}
    (h : 3 ≤ vertices.length) (t : TileXy) :
    ∃ corners : List (F × F), (outline vertices t).points = corners.map (toTile t) ∧
      3 ≤ corners.length := by
  have hthree : 3 ≤ (vertices.take 10).length := by
    rw [List.length_take]
    omega
  have hxs : 3 ≤ ((vertices.take 10).map MercatorPoint.x).length := by
    rwa [List.length_map]
  unfold outline
  refine iteInduction (motive := fun o : Outline => ∃ corners : List (F × F),
    o.points = corners.map (toTile t) ∧ 3 ≤ corners.length) ?_ ?_
  · exact fun _ => ⟨_, rfl, three_le_polarCap _ _ _ _⟩
  · refine fun _ => ⟨_, rfl, ?_⟩
    rw [List.length_zip, List.length_map, Nat.le_min]
    refine ⟨?_, hthree⟩
    generalize (vertices.take 10).map MercatorPoint.x = xs at hxs ⊢
    split
    next =>
      rw [alignedTo, List.length_map, List.length_cons, length_unwrapFrom, List.length_tail]
      omega
    next => exact hxs

theorem fits_of_mem_outline [IsStrictOrderedRing F] {vertices : List (MercatorPoint F)}
    (h : 3 ≤ vertices.length) (t : TileXy) {p : Pixel} (hp : p ∈ (outline vertices t).points) :
    FitsI32 p.1 := by
  obtain ⟨corners, heq, -⟩ := outline_points h t
  rw [heq] at hp
  obtain ⟨c, -, rfl⟩ := List.mem_map.mp hp
  exact saturate_fits _

theorem three_le_outline [IsStrictOrderedRing F] {vertices : List (MercatorPoint F)}
    (h : 3 ≤ vertices.length) (t : TileXy) : 3 ≤ (outline vertices t).points.length := by
  obtain ⟨corners, heq, hthree⟩ := outline_points h t
  rwa [heq, List.length_map]

end Outline

end RasterH3.Pmtiles.Mvt
