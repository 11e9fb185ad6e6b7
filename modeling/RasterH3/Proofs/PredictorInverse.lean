import RasterH3.Lib.Differences
import RasterH3.Raster.Predictor

/-!
# Predictors are inverted

A TIFF writes the samples of a row as differences, of neighbours for integers and of bytes
for floats, whose bytes are put into planes first. Undoing this is a loop that adds, and it
is written several times, by sample width, by byte order, with vector instructions and
without, and for rows that have padding in the file and none in memory.

The samples of a row are recovered from their differences in one pass, and a vector of sums
by doubling: a vector holds the differences at distance `s` of what it will hold in the end,
and adding it to itself, shifted by `s` lanes, gives the differences at distance `2 * s`
(`vadd_difference`). Both loops have the same invariant, that the samples up to a place are
there and the differences from that place on (`addFrom_difference`, `scanRow_difference`).
Since every row is the differences of some row, the two agree on every row, and nothing is
asked of who has written the file.

For bytes the same is done with sources: bytes in whole samples are the bytes of a row
(`exists_rowBytes`), and bytes in whole rows of planes are the planes of one
(`exists_planes`). So any source that is long enough is the differences of something, and
the statement about predicted bytes covers the statement that no access is outside of a
buffer.

`Layout` is what `validate` makes sure of. The rows of the result follow each other, those
of the source have their padding, and a loop that writes row by row is dealt with once
(`forRows_withRows`). A kernel of floats is then only required to decode a row (`Decodes`):
the planes are summed as one row of bytes, and taken apart by lanes.
-/

namespace RasterH3.Raster

open Loops Differences

section Horizontal

variable {α : Type} [AddCommGroup α]

/-! ## One row -/

/-- The samples up to a place, their differences from there on. -/
def halfway (spp : Nat) (l : List α) (n : Nat) : List α := overwritten l (difference spp l) n

theorem length_halfway (spp : Nat) (l : List α) (n : Nat) :
    (halfway spp l n).length = l.length :=
  (length_overwritten (length_difference spp l).symm).trans (length_difference spp l)

theorem halfway_self (spp : Nat) (l : List α) : halfway spp l spp = difference spp l := by
  have hlen := (length_difference spp l).symm
  apply List.ext_getElem?
  intro i
  rcases Nat.lt_or_ge i l.length with hi | hi
  · have hi' : i < (difference spp l).length := hlen ▸ hi
    rw [List.getElem?_eq_getElem hi']
    rcases Nat.lt_or_ge i spp with h | h
    · rw [halfway, getElem?_overwritten_lt h hi, getElem_difference_lt hi h hi']
    · rw [halfway, getElem?_overwritten_ge hlen h hi']
  · rw [List.getElem?_eq_none (by rw [length_halfway]; exact hi),
      List.getElem?_eq_none (by rw [length_difference]; exact hi)]

/-- The pass from a place on, where the samples before it are there. -/
theorem addFrom_halfway {spp start : Nat} (hspp : 0 < spp) (hstart : spp ≤ start) (l : List α) :
    addFrom start spp (halfway spp l start) = some l := by
  have hturn : ∀ col row, start ≤ col → col < (halfway spp l start).length →
      row = halfway spp l col →
      ∃ row', (do
        let a ← row[col]?
        let b ← row[col - spp]?
        store row col (a + b)) = some row' ∧ row' = halfway spp l (col + 1) := by
    intro col row hcol hlt hrow
    rw [length_halfway] at hlt
    refine ⟨_, ?_, rfl⟩
    have hlen := (length_difference spp l).symm
    have hlt' : col < (difference spp l).length := hlen ▸ hlt
    rw [hrow, halfway, getElem?_overwritten_ge hlen le_rfl hlt',
      getElem?_overwritten_lt (by omega) (by omega), getElem_difference_ge hlt (by omega) hlt']
    simp only [Option.bind_eq_bind, Option.bind_some, sub_add_cancel]
    exact store_overwritten hlen hlt
  obtain ⟨row, hloop, hrow⟩ := forRange_rule (fun col row => row = halfway spp l col) rfl hturn
  rw [addFrom, hloop, hrow, halfway, overwritten_of_le (length_difference spp l).symm]
  rw [length_halfway, length_difference]
  exact Nat.le_max_right ..

theorem addFrom_difference {spp : Nat} (hspp : 0 < spp) (l : List α) :
    addFrom spp spp (difference spp l) = some l := by
  have h := addFrom_halfway hspp le_rfl l
  rwa [halfway_self] at h

/-! ## Vectors -/

theorem vext_zero {lanes step : Nat} {v : List α} (hv : v.length = lanes) (hstep : step ≤ lanes) :
    vext (vdup lanes 0) v (lanes - step) = shift step v := by
  have hzero : (vdup lanes (0 : α)).drop (lanes - step) = List.replicate step 0 := by
    rw [vdup, List.drop_replicate]
    congr 1
    omega
  have hlen : (vdup lanes (0 : α)).length = lanes := List.length_replicate
  rw [vext, shift, hv, hlen, List.drop_append_of_le_length (by rw [hlen]; omega), hzero]

/-- One step of the doubling. -/
theorem vadd_difference {lanes step : Nat} {l : List α} (hl : l.length = lanes)
    (hstep : step ≤ lanes) :
    vadd (difference step l) (vext (vdup lanes 0) (difference step l) (lanes - step)) =
      difference (step + step) l := by
  rw [vext_zero (by rw [length_difference, hl]) hstep]
  exact difference_double step l

/-- The steps of a vector kernel add up everything. -/
def Sums (α : Type) [AddCommGroup α] (lanes : Nat) (steps : List Nat) : Prop :=
  ∀ l : List α, l.length = lanes → scanVector lanes steps (difference 1 l) = l

theorem sums_16 : Sums α 16 [1, 2, 4, 8] := by
  intro l hl
  simp only [scanVector, List.foldl_cons, List.foldl_nil]
  rw [vadd_difference hl (by omega), vadd_difference hl (by omega), vadd_difference hl (by omega),
    vadd_difference hl (by omega), difference_of_length_le (by omega)]

theorem sums_8 : Sums α 8 [1, 2, 4] := by
  intro l hl
  simp only [scanVector, List.foldl_cons, List.foldl_nil]
  rw [vadd_difference hl (by omega), vadd_difference hl (by omega), vadd_difference hl (by omega),
    difference_of_length_le (by omega)]

theorem vadd_carry {lanes : Nat} {part : List α} (hlen : part.length = lanes) (carry : α) :
    vadd (part.map (· - carry)) (vdup lanes carry) = part := by
  apply List.ext_getElem
  · simp [vadd, vdup, hlen]
  intro i hi _
  simp [vadd, vdup]

/-- The vector loop hands the last lane to the next block, and leaves less than a
vector to the scalar pass. -/
theorem scanRow_difference {lanes : Nat} {steps : List Nat} (hlanes : 0 < lanes)
    (hsums : Sums α lanes steps) (l : List α) :
    scanRow lanes steps (difference 1 l) = some l := by
  have hturn : ∀ i (s : List α × α), 0 ≤ i → i < (difference 1 l).length / lanes →
      s = (halfway 1 l (i * lanes), before l (i * lanes)) →
      ∃ s', scanBlock lanes steps i s = some s' ∧
        s' = (halfway 1 l ((i + 1) * lanes), before l ((i + 1) * lanes)) := by
    intro i s _ hi hs
    have hend : (i + 1) * lanes ≤ l.length := by
      rw [length_difference] at hi
      exact (Nat.mul_le_mul_right _ hi).trans (Nat.div_mul_le_self ..)
    rw [Nat.succ_mul] at hend
    have hpart : ((l.drop (i * lanes)).take lanes).length = lanes := by
      rw [List.length_take, List.length_drop]
      omega
    have hload : vld1 lanes (halfway 1 l (i * lanes)) (i * lanes) =
        some (difference 1 (((l.drop (i * lanes)).take lanes).map (· - before l (i * lanes)))) := by
      rw [vld1, slice_of_le (by omega) (by rw [length_halfway]; exact hend), Nat.add_sub_cancel_left,
        ← difference_part]
      congr 2
      rw [halfway, overwritten, List.drop_append_of_le_length (by rw [List.length_take]; omega),
        List.drop_eq_nil_of_le (by rw [List.length_take]; omega), List.nil_append]
    have hstore : vst1 (halfway 1 l (i * lanes)) (i * lanes) ((l.drop (i * lanes)).take lanes) =
        some (halfway 1 l (i * lanes + lanes)) := by
      rw [vst1, hpart]
      exact onSlice_overwritten (length_difference 1 l).symm (by rw [length_difference]; exact hend)
        rfl
    have hcarry : ((l.drop (i * lanes)).take lanes)[lanes - 1]? =
        some (before l (i * lanes + lanes)) := by
      rw [List.getElem?_take_of_lt (by omega), List.getElem?_drop, before, if_neg (by omega),
        List.getElem?_eq_getElem (by omega), List.getElem?_eq_getElem (by omega), Option.getD_some]
      congr 2
      omega
    refine ⟨_, ?_, rfl⟩
    rw [hs, Nat.succ_mul]
    simp only [scanBlock, hload, Option.bind_eq_bind, Option.bind_some,
      hsums _ ((List.length_map _).trans hpart), vadd_carry hpart, hstore, hcarry]
    rfl
  obtain ⟨s, hloop, hs⟩ := forRange_rule
    (fun i s => s = (halfway 1 l (i * lanes), before l (i * lanes)))
    (show (difference 1 l, (0 : α)) = _ by rw [Nat.zero_mul]; rfl) hturn
  rw [Nat.max_eq_right (Nat.zero_le _)] at hs
  have htail : halfway 1 l ((difference 1 l).length / lanes * lanes) =
      halfway 1 l (max ((difference 1 l).length / lanes * lanes) 1) := by
    rcases Nat.eq_zero_or_pos ((difference 1 l).length / lanes * lanes) with h | h
    · rw [h]
      exact (halfway_self 1 l).symm
    · rw [Nat.max_eq_left h]
  unfold scanRow
  simp only [Option.bind_eq_bind, hloop, Option.bind_some, hs, htail]
  exact addFrom_halfway Nat.one_pos (Nat.le_max_right ..) l

/-- For every row, tails included. -/
theorem scanRow_eq {lanes : Nat} {steps : List Nat} (hlanes : 0 < lanes)
    (hsums : Sums α lanes steps) (row : List α) : scanRow lanes steps row = addFrom 1 1 row := by
  obtain ⟨l, rfl⟩ := exists_difference Nat.one_pos row
  rw [scanRow_difference hlanes hsums, addFrom_difference Nat.one_pos]

end Horizontal

/-! ## Bytes -/

section Samples

variable {k : Nat}

/-- The bytes of a sample in a file. -/
def toBytes (order : TiffByteOrder) (k : Nat) (x : BitVec (8 * k)) : List UInt8 :=
  match order with
  | .littleEndian => Bytes.writeLe k x.toNat
  | .bigEndian => (Bytes.writeLe k x.toNat).reverse

@[simp] theorem length_toBytes (order : TiffByteOrder) (x : BitVec (8 * k)) :
    (toBytes order k x).length = k := by
  cases order with
  | littleEndian => exact Bytes.length_writeLe k _
  | bigEndian => exact (List.length_reverse ..).trans (Bytes.length_writeLe k _)

theorem fromLeBytes_writeLe (x : BitVec (8 * k)) :
    fromLeBytes k (Bytes.writeLe k x.toNat) = some x := by
  have hx : x.toNat < 256 ^ k := by
    have hlt := x.isLt
    rwa [Nat.pow_mul] at hlt
  have hread := Bytes.readLe_writeLe_of_lt hx []
  rw [List.append_nil] at hread
  unfold fromLeBytes
  rw [hread]
  simp

@[simp] theorem fromBytes_toBytes (order : TiffByteOrder) (x : BitVec (8 * k)) :
    fromBytes order k (toBytes order k x) = some x := by
  cases order with
  | littleEndian => exact fromLeBytes_writeLe x
  | bigEndian =>
      rw [fromBytes, fromBeBytes, toBytes, List.reverse_reverse]
      exact fromLeBytes_writeLe x

/-- A single byte has no order. -/
theorem toBytes_one (order order' : TiffByteOrder) (x : BitVec (8 * 1)) :
    toBytes order 1 x = toBytes order' 1 x := by
  cases order <;> cases order' <;> rfl

theorem exists_toBytes (order : TiffByteOrder) {bytes : List UInt8} (h : bytes.length = k) :
    ∃ x, toBytes order k x = bytes := by
  have hval : ∀ n, n < 256 ^ k → (BitVec.ofNat (8 * k) n).toNat = n := by
    intro n hn
    rw [BitVec.toNat_ofNat, Nat.mod_eq_of_lt]
    rwa [Nat.pow_mul]
  cases order with
  | littleEndian =>
      obtain ⟨n, hn, hbytes⟩ := Bytes.exists_writeLe k bytes h
      exact ⟨BitVec.ofNat _ n, by rw [toBytes, hval n hn, hbytes]⟩
  | bigEndian =>
      obtain ⟨n, hn, hbytes⟩ := Bytes.exists_writeLe k bytes.reverse (by simpa using h)
      exact ⟨BitVec.ofNat _ n, by rw [toBytes, hval n hn, hbytes, List.reverse_reverse]⟩

def rowBytes (order : TiffByteOrder) (k : Nat) (l : List (BitVec (8 * k))) : List UInt8 :=
  l.flatMap (toBytes order k)

@[simp] theorem length_rowBytes (order : TiffByteOrder) (l : List (BitVec (8 * k))) :
    (rowBytes order k l).length = l.length * k := by
  induction l with
  | nil => simp [rowBytes]
  | cons x l ih =>
      rw [rowBytes] at ih ⊢
      rw [List.flatMap_cons, List.length_append, ih, length_toBytes, List.length_cons,
        Nat.succ_mul l.length k]
      exact Nat.add_comm ..

theorem rowBytes_append (order : TiffByteOrder) (l l' : List (BitVec (8 * k))) :
    rowBytes order k (l ++ l') = rowBytes order k l ++ rowBytes order k l' :=
  List.flatMap_append

theorem slice_rowBytes (order : TiffByteOrder) {l : List (BitVec (8 * k))} {i : Nat}
    (hi : i < l.length) :
    slice (rowBytes order k l) (i * k) (i * k + k) = some (toBytes order k l[i]) := by
  have hsplit : l = l.take i ++ (l[i] :: l.drop (i + 1)) := by
    rw [← List.drop_eq_getElem_cons hi, List.take_append_drop]
  have hfront : (rowBytes order k (l.take i)).length = i * k := by
    rw [length_rowBytes, List.length_take, Nat.min_eq_left hi.le]
  have hend : i * k + k ≤ l.length * k := by
    rw [← Nat.succ_mul]
    exact Nat.mul_le_mul_right _ hi
  rw [slice_of_le (Nat.le_add_right ..) (by rw [length_rowBytes]; exact hend),
    Nat.add_sub_cancel_left]
  congr 1
  conv_lhs => rw [hsplit, rowBytes_append]
  rw [← hfront, List.drop_left, rowBytes, List.flatMap_cons,
    List.take_append_of_le_length (by rw [length_toBytes]), List.take_of_length_le]
  rw [length_toBytes]

/-- Bytes in whole samples are the bytes of a row. -/
theorem exists_rowBytes (order : TiffByteOrder) : ∀ (n : Nat) (bytes : List UInt8),
    bytes.length = n * k → ∃ l, l.length = n ∧ rowBytes order k l = bytes
  | 0, bytes, h => ⟨[], rfl, (List.eq_nil_of_length_eq_zero (by omega)).symm⟩
  | n + 1, bytes, h => by
      rw [Nat.succ_mul] at h
      obtain ⟨x, hx⟩ := exists_toBytes order (show (bytes.take k).length = k by
        rw [List.length_take]
        omega)
      obtain ⟨l, hl, hrest⟩ := exists_rowBytes order n (bytes.drop k) (by
        rw [List.length_drop]
        omega)
      refine ⟨x :: l, by rw [List.length_cons, hl], ?_⟩
      rw [rowBytes, List.flatMap_cons, hx]
      rw [rowBytes] at hrest
      rw [hrest, List.take_append_drop]

theorem convertSamples_rowBytes (order : TiffByteOrder) {l d : List (BitVec (8 * k))}
    (hlen : d.length = l.length) : convertSamples order (rowBytes order k l) d = some l := by
  apply fillEach_eq hlen.symm
  intro i hi
  rw [slice_rowBytes order (hlen ▸ hi)]
  simp only [Option.bind_eq_bind, Option.bind_some, fromBytes_toBytes]
  rw [List.getElem?_eq_getElem]

/-- The copy of bytes in the order of the host. -/
theorem copySamples_rowBytes {order : TiffByteOrder} {host : Host} {l d : List (BitVec (8 * k))}
    (horder : k = 1 ∨ order = host.byteOrder) (hlen : d.length = l.length) :
    copySamples host (rowBytes order k l) d = some l := by
  have hbytes : rowBytes order k l = rowBytes host.byteOrder k l := by
    rcases horder with rfl | rfl
    · unfold rowBytes
      congr 1
      funext x
      exact toBytes_one ..
    · rfl
  rw [copySamples, if_pos (by rw [length_rowBytes, hlen]), hbytes]
  exact convertSamples_rowBytes _ hlen

end Samples

/-! ## The layout of a chunk -/

/-- What `validate` makes sure of. -/
structure Layout (e : ChunkEncoding) (srcLen dstLen k : Nat) : Prop where
  spp_pos : 0 < e.spp
  fits : e.dataW ≤ e.tileW
  rows : ∀ r, r < e.dataH → r * (e.tileW * e.spp * k) + e.dataW * e.spp * k ≤ srcLen
  full : e.predictor = .floatingPoint → ∀ r, r < e.dataH →
    (r + 1) * (e.tileW * e.spp * k) ≤ srcLen
  samples : e.dataH * (e.dataW * e.spp) ≤ dstLen

theorem layout_of_validate {e : ChunkEncoding} {srcLen dstLen k : Nat}
    (h : e.validate srcLen dstLen k = .ok ()) : Layout e srcLen dstLen k := by
  unfold ChunkEncoding.validate at h
  split at h
  next => cases h
  next hpos =>
    simp only [not_or, not_lt] at hpos
    obtain ⟨hspp, -, hdataH, hfits⟩ := hpos
    cases hextent : e.extent k with
    | none => rw [hextent] at h; cases h
    | some extent =>
        obtain ⟨required, samples⟩ := extent
        rw [hextent] at h
        simp only [ChunkEncoding.extent, Option.bind_eq_bind, Option.bind_eq_some_iff,
          Checked.mul_eq_some, Checked.add_eq_some, Option.pure_def, Option.some.injEq,
          Prod.mk.injEq] at hextent
        obtain ⟨_, ⟨-, rfl⟩, _, ⟨-, rfl⟩, _, ⟨-, rfl⟩, _, ⟨-, rfl⟩, _, ⟨-, rfl⟩, _, ⟨-, rfl⟩, _,
          ⟨-, rfl⟩, rfl, rfl⟩ := hextent
        dsimp only at h
        have hlen := not_or.mp fun hshort => by
          rw [if_pos hshort] at h
          cases h
        simp only [not_lt] at hlen
        obtain ⟨hsrc, hdst⟩ := hlen
        have hlast : e.dataW * e.spp * k ≤ e.tileW * e.spp * k :=
          Nat.mul_le_mul_right _ (Nat.mul_le_mul_right _ hfits)
        have habove : ∀ r, r < e.dataH →
            r * (e.tileW * e.spp * k) ≤ e.tileW * e.spp * k * (e.dataH - 1) := by
          intro r hr
          rw [Nat.mul_comm]
          exact Nat.mul_le_mul_left _ (by omega)
        refine ⟨Nat.pos_of_ne_zero hspp, hfits, ?_, ?_, ?_⟩
        · intro r hr
          have := habove r hr
          split at hsrc <;> omega
        · intro hfloat r hr
          have := habove r hr
          rw [if_pos hfloat] at hsrc
          rw [Nat.succ_mul]
          omega
        · rw [Nat.mul_comm]
          exact hdst

theorem validate_ne {e : ChunkEncoding} {srcLen dstLen k : Nat} :
    e.validate srcLen dstLen k ≠ .error .outOfBounds := by
  unfold ChunkEncoding.validate
  split
  next => intro h; cases h
  next =>
    cases e.extent k with
    | none => intro h; cases h
    | some extent =>
        dsimp only
        split
        next => intro h; cases h
        next => intro h; cases h

section Rows

variable {k : Nat} {host : Host} {e : ChunkEncoding} {src : List UInt8}

/-- The bytes of a row of data, and with the padding. -/
def dataBytes (e : ChunkEncoding) (k : Nat) (src : List UInt8) (r : Nat) : List UInt8 :=
  (src.drop (r * (e.tileW * e.spp * k))).take (e.dataW * e.spp * k)

def tileBytes (e : ChunkEncoding) (k : Nat) (src : List UInt8) (r : Nat) : List UInt8 :=
  (src.drop (r * (e.tileW * e.spp * k))).take (e.tileW * e.spp * k)

/-- The rows of a result, and what was behind them before. -/
def withRows {α : Type} (e : ChunkEncoding) (rows : Nat → List α) (dst : List α) : List α :=
  (List.range e.dataH).flatMap rows ++ dst.drop (e.dataH * (e.dataW * e.spp))

theorem length_row {α : Type} {dst : List α} {stride h r : Nat} (hdst : h * stride ≤ dst.length)
    (hr : r < h) : ((dst.drop (r * stride)).take stride).length = stride := by
  have hend : (r + 1) * stride ≤ h * stride := Nat.mul_le_mul_right _ hr
  rw [Nat.succ_mul] at hend
  rw [List.length_take, List.length_drop]
  omega

/-- A loop that writes the rows of the result. -/
theorem forRows_withRows {α : Type} {rows : Nat → List α} {dst : List α}
    {f : Nat → List α → Option (List α)} (hdst : e.dataH * (e.dataW * e.spp) ≤ dst.length)
    (hrows : ∀ r, r < e.dataH → (rows r).length = e.dataW * e.spp)
    (hf : ∀ r d, r < e.dataH → d.length = e.dataW * e.spp → f r d = some (rows r)) :
    forRange 0 e.dataH (fun r dst =>
      onSlice dst (r * (e.dataW * e.spp)) ((r + 1) * (e.dataW * e.spp)) (f r)) dst =
        some (withRows e rows dst) := by
  have hloop := @forRows α (e.dataW * e.spp) e.dataH f
    (fun r => (dst.drop (r * (e.dataW * e.spp))).take (e.dataW * e.spp)) rows
    (dst.drop (e.dataH * (e.dataW * e.spp))) (fun r hr => length_row hdst hr) hrows
    (fun r hr => hf r _ hr (length_row hdst hr))
  rwa [rows_drop] at hloop

theorem slice_dataBytes (hlay : Layout e src.length n k) {r : Nat} (hr : r < e.dataH) :
    slice src (r * (e.tileW * e.spp * k)) (r * (e.tileW * e.spp * k) + e.dataW * e.spp * k) =
      some (dataBytes e k src r) := by
  rw [slice_of_le (Nat.le_add_right ..) (hlay.rows r hr), Nat.add_sub_cancel_left]
  rfl

/-- Whichever way the bytes are copied, they become the samples they are the bytes of. -/
theorem unpackRows_eq {dst : List (BitVec (8 * k))} {rows : Nat → List (BitVec (8 * k))}
    {isNativeEndian : Bool} (hlay : Layout e src.length dst.length k)
    (hrows : ∀ r, r < e.dataH → (rows r).length = e.dataW * e.spp)
    (hsrc : ∀ r, r < e.dataH → dataBytes e k src r = rowBytes e.byteOrder k (rows r))
    (hnative : isNativeEndian = true → k = 1 ∨ e.byteOrder = host.byteOrder) :
    unpackRows host src dst e isNativeEndian = some (withRows e rows dst) := by
  unfold unpackRows
  cases isNativeEndian with
  | false =>
      simp only [Bool.false_eq_true, if_false]
      apply forRows_withRows hlay.samples hrows
      intro r d hr hd
      rw [slice_dataBytes hlay hr, hsrc r hr]
      exact convertSamples_rowBytes _ (hd.trans (hrows r hr).symm)
  | true =>
      have horder := hnative rfl
      simp only [if_true]
      by_cases hstride : e.tileW * e.spp * k = e.dataW * e.spp * k
      · -- Without padding the rows are one piece.
        rw [if_pos hstride]
        have htotal : e.dataW * e.dataH * e.spp = e.dataH * (e.dataW * e.spp) := by ring
        have hpiece : slice src 0 (e.dataH * (e.dataW * e.spp) * k) =
            some (rowBytes e.byteOrder k ((List.range e.dataH).flatMap rows)) := by
          have hlen : e.dataH * (e.dataW * e.spp) * k ≤ src.length := by
            rcases Nat.eq_zero_or_pos e.dataH with h | h
            · rw [h]
              simp
            · have hlast := hlay.rows (e.dataH - 1) (by omega)
              rw [hstride, ← Nat.succ_mul] at hlast
              have hall : (e.dataH - 1).succ = e.dataH := by omega
              rwa [hall, ← Nat.mul_assoc] at hlast
          have htake := flatMap_take_drop src (e.dataW * e.spp * k) 0 e.dataH
          rw [slice_of_le (Nat.zero_le _) hlen, Nat.sub_zero, Nat.mul_assoc, ← htake, rowBytes,
            List.flatMap_assoc]
          congr 1
          apply List.flatMap_congr
          intro r hr
          have hrow := hsrc r (List.mem_range.mp hr)
          rw [dataBytes, hstride] at hrow
          rw [Nat.zero_add]
          exact hrow
        have hpart : (dst.take (e.dataH * (e.dataW * e.spp))).length =
            e.dataH * (e.dataW * e.spp) := by
          rw [List.length_take, Nat.min_eq_left hlay.samples]
        have hcopy := @copySamples_rowBytes k e.byteOrder host
          ((List.range e.dataH).flatMap rows) (dst.take (e.dataH * (e.dataW * e.spp))) horder
          (hpart.trans (length_rows hrows).symm)
        have hnew := @onSlice_append _ _ [] _ _ (dst.drop (e.dataH * (e.dataW * e.spp))) 0
          (e.dataH * (e.dataW * e.spp)) rfl (by rw [hpart, Nat.zero_add]) hcopy
        rw [List.nil_append, List.take_append_drop] at hnew
        simp only [htotal, hpiece, Option.bind_eq_bind, Option.bind_some, hnew]
        rfl
      · rw [if_neg hstride]
        apply forRows_withRows hlay.samples hrows
        intro r d hr hd
        rw [slice_dataBytes hlay hr, hsrc r hr]
        exact copySamples_rowBytes horder (hd.trans (hrows r hr).symm)

end Rows

/-! ## Integers -/

theorem applyHorizontalPredictor_eq {α : Type} [AddCommGroup α] {e : ChunkEncoding}
    (hspp : 0 < e.spp) {rows : Nat → List α}
    (hrows : ∀ r, r < e.dataH → (rows r).length = e.dataW * e.spp) (dst : List α) :
    applyHorizontalPredictor e.dataW e.dataH e.spp
      (withRows e (fun r => difference e.spp (rows r)) dst) = some (withRows e rows dst) :=
  forRows (fun r hr => (length_difference ..).trans (hrows r hr)) hrows
    fun r _ => addFrom_difference hspp (rows r)

/-- The vector kernels of rows of single samples. -/
theorem scanRows_eq {α : Type} [AddCommGroup α] {e : ChunkEncoding} {lanes : Nat}
    {steps : List Nat} (hlanes : 0 < lanes) (hsums : Sums α lanes steps) (hspp : e.spp = 1)
    {rows : Nat → List α} (hrows : ∀ r, r < e.dataH → (rows r).length = e.dataW * e.spp)
    (dst : List α) :
    forRange 0 e.dataH
      (fun r data => onSlice data (r * e.dataW) ((r + 1) * e.dataW) (scanRow lanes steps))
      (withRows e (fun r => difference e.spp (rows r)) dst) = some (withRows e rows dst) := by
  rw [hspp, Nat.mul_one] at hrows
  rw [hspp]
  exact forRows (fun r hr => (length_difference ..).trans (hrows r hr)) hrows
    fun r _ => scanRow_difference hlanes hsums (rows r)

theorem applyPredictor_eq (t : TiffSample) (host : Host) {e : ChunkEncoding} (hspp : 0 < e.spp)
    {rows : Nat → List t.Value}
    (hrows : ∀ r, r < e.dataH → (rows r).length = e.dataW * e.spp) (dst : List t.Value) :
    t.applyPredictor host e.dataW e.dataH e.spp
      (withRows e (fun r => difference e.spp (rows r)) dst) = some (withRows e rows dst) := by
  have hscalar := applyHorizontalPredictor_eq hspp hrows dst
  cases t with
  | u8 =>
      show (if _ then _ else _) = _
      split
      next h => exact scanRows_eq (by omega) sums_16 h.1 hrows dst
      next h => exact hscalar
  | u16 =>
      show (if _ then _ else _) = _
      split
      next h => exact scanRows_eq (by omega) sums_8 h.1 hrows dst
      next h => exact hscalar
  | i8 => exact hscalar
  | i16 => exact hscalar
  | u32 => exact hscalar
  | i32 => exact hscalar
  | u64 => exact hscalar
  | i64 => exact hscalar

/-- What the photometric interpretation makes of the samples. -/
def inverted {α : Type} (e : ChunkEncoding) (invert : α → α) (l : List α) : List α :=
  if e.photometric = .whiteIsZero then l.map invert else l

/-- What the bytes of a row of integers are the bytes of. -/
def predicted {α : Type} [AddCommGroup α] (e : ChunkEncoding) (row : List α) : List α :=
  if e.predictor = .horizontal then difference e.spp row else row

theorem unpackIntegerSamples_eq (t : TiffSample) (host : Host) {e : ChunkEncoding}
    {src : List UInt8} {dst : List t.Value} {rows : Nat → List t.Value}
    (hvalid : e.validate src.length dst.length t.bytes = .ok ())
    (hrows : ∀ r, r < e.dataH → (rows r).length = e.dataW * e.spp)
    (hsrc : ∀ r, r < e.dataH →
      dataBytes e t.bytes src r = rowBytes e.byteOrder t.bytes (predicted e (rows r))) :
    unpackIntegerSamples t host src dst e =
      .ok (inverted e t.invertWhiteIsZero (withRows e rows dst)) := by
  have hlay := layout_of_validate hvalid
  have hpredicted : ∀ r, r < e.dataH → (predicted e (rows r)).length = e.dataW * e.spp := by
    intro r hr
    rw [← hrows r hr, predicted]
    split
    next => exact length_difference ..
    next => rfl
  have hunpack := @unpackRows_eq t.bytes host e src dst _
    (decide (t.bytes = 1 ∨ e.byteOrder = host.byteOrder)) hlay hpredicted hsrc of_decide_eq_true
  unfold unpackIntegerSamples inverted
  rw [hvalid]
  simp only [hunpack, inBounds, bind, Except.bind, pure, Except.pure]
  by_cases hpred : e.predictor = .horizontal
  · have happly := applyPredictor_eq t host hlay.spp_pos hrows dst
    simp only [predicted, if_pos hpred, happly]
    split
    next => rfl
    next => rfl
  · simp only [predicted, if_neg hpred]
    split
    next => rfl
    next => rfl

/-! ## Byte planes -/

section Planes

variable {k : Nat}

/-- Byte `b` of a sample, the most significant first. -/
def byteOf (k b : Nat) (x : BitVec (8 * k)) : UInt8 := (toBytes .bigEndian k x).getD b 0

/-- The bytes of a row, plane by plane. -/
def planes (k : Nat) (l : List (BitVec (8 * k))) : List UInt8 :=
  (List.range k).flatMap fun b => l.map (byteOf k b)

@[simp] theorem length_planes (l : List (BitVec (8 * k))) :
    (planes k l).length = k * l.length :=
  length_rows fun _ _ => List.length_map _

theorem getElem?_planes {l : List (BitVec (8 * k))} {b i : Nat} (hb : b < k)
    (hi : i < l.length) : (planes k l)[l.length * b + i]? = some (byteOf k b l[i]) := by
  rw [Nat.mul_comm l.length, planes, getElem?_rows (fun _ _ => List.length_map _) hb hi,
    List.getElem?_map, List.getElem?_eq_getElem hi, Option.map_some]

theorem plane_length (hk : 0 < k) (l : List (BitVec (8 * k))) :
    (planes k l).length / k = l.length := by
  rw [length_planes, Nat.mul_div_cancel_left _ hk]

theorem planeSample_planes (hk : 0 < k) {l : List (BitVec (8 * k))} {i : Nat}
    (hi : i < l.length) : planeSample k (planes k l) i = some l[i] := by
  have hbytes : fillEach k (fun b => (planes k l)[(planes k l).length / k * b + i]?) =
      some (toBytes .bigEndian k l[i]) := by
    apply fillEach_eq (length_toBytes ..)
    intro b hb
    have hb' : b < (toBytes .bigEndian k l[i]).length := by
      rw [length_toBytes]
      exact hb
    rw [plane_length hk, getElem?_planes hb hi, byteOf, List.getD_eq_getElem?_getD,
      List.getElem?_eq_getElem hb', Option.getD_some]
  unfold planeSample
  simp only [hbytes, Option.bind_eq_bind, Option.bind_some]
  exact fromBytes_toBytes .bigEndian l[i]

/-- Bytes in whole rows of planes are the planes of a row. -/
theorem exists_planes {n : Nat} {bytes : List UInt8} (h : bytes.length = n * k) :
    ∃ l, l.length = n ∧ planes k l = bytes := by
  -- Sample `i` has byte `i` of every plane.
  have hsample : ∀ i, ∃ x, toBytes .bigEndian k x =
      (List.range k).map fun b => bytes.getD (b * n + i) 0 := fun i =>
    exists_toBytes .bigEndian (by rw [List.length_map, List.length_range])
  choose x hx using hsample
  refine ⟨(List.range n).map x, by simp, ?_⟩
  have hrows := flatMap_take_drop bytes n 0 k
  rw [List.drop_zero, List.take_of_length_le (by rw [h, Nat.mul_comm])] at hrows
  rw [← hrows, planes]
  apply List.flatMap_congr
  intro b hb
  have hbk := List.mem_range.mp hb
  have hend : (b + 1) * n ≤ k * n := Nat.mul_le_mul_right _ hbk
  rw [Nat.succ_mul, Nat.mul_comm k] at hend
  apply List.ext_getElem
  · simp only [List.length_map, List.length_range, List.length_take, List.length_drop]
    omega
  intro i hi _
  have hin : i < n := by simpa using hi
  rw [List.getElem_map, List.getElem_map, List.getElem_range, byteOf, hx, List.getElem_take,
    List.getElem_drop, List.getD_eq_getElem?_getD, List.getElem?_map,
    List.getElem?_eq_getElem (by rw [List.length_range]; exact hbk), List.getElem_range,
    Option.map_some, Option.getD_some, List.getD_eq_getElem?_getD,
    List.getElem?_eq_getElem (by omega), Option.getD_some]
  congr 1
  omega

/-! ## One row of floats -/

theorem fpPredict_planes (hk : 0 < k) {spp : Nat} (hspp : 0 < spp) {l d : List (BitVec (8 * k))}
    (hd : d.length ≤ l.length) :
    fpPredict spp (difference spp (planes k l)) d = some (l.take d.length) := by
  unfold fpPredict
  rw [addFrom_difference hspp]
  simp only [Option.bind_eq_bind, Option.bind_some]
  apply fillEach_eq (by rw [List.length_take, Nat.min_eq_left hd])
  intro i hi
  rw [planeSample_planes hk (by omega), List.getElem?_take_of_lt hi, List.getElem?_eq_getElem]

/-- The samples up to a place are there: one lane after the other. -/
theorem fpTail_planes (hk : 0 < k) {l d : List (BitVec (8 * k))} (hd : d.length ≤ l.length)
    {start : Nat} (hstart : start ≤ d.length) :
    fpTail (planes k l) start (overwritten (l.take d.length) d start) =
      some (l.take d.length) := by
  have hlen : (l.take d.length).length = d.length := by rw [List.length_take, Nat.min_eq_left hd]
  have hturn : ∀ i out, start ≤ i → i < (overwritten (l.take d.length) d start).length →
      out = overwritten (l.take d.length) d i →
      ∃ out', (do
        let x ← planeSample k (planes k l) i
        store out i x) = some out' ∧ out' = overwritten (l.take d.length) d (i + 1) := by
    intro i out _ hlt hout
    rw [length_overwritten hlen] at hlt
    have hi : i < (l.take d.length).length := by
      rw [hlen]
      exact hlt
    have hsame : (l.take d.length)[i] = l[i] := List.getElem_take
    refine ⟨_, ?_, rfl⟩
    rw [hout, planeSample_planes hk (by omega), ← hsame]
    exact store_overwritten hlen hi
  obtain ⟨out, hloop, hout⟩ :=
    forRange_rule (fun i out => out = overwritten (l.take d.length) d i) rfl hturn
  rw [length_overwritten hlen, Nat.max_eq_right hstart] at hout
  rw [fpTail, hloop, hout, overwritten_of_le hlen le_rfl]

theorem planeLanes_planes (hk : 0 < k) {l : List (BitVec (8 * k))} {offset b : Nat} (hb : b < k)
    (hend : offset + 16 ≤ l.length) :
    planeLanes k (planes k l) offset b =
      some (((l.drop offset).take 16).map (byteOf k b)) := by
  have hplane : (b + 1) * l.length ≤ k * l.length := Nat.mul_le_mul_right _ hb
  rw [Nat.succ_mul] at hplane
  have hcomm : l.length * b = b * l.length := Nat.mul_comm ..
  have hlen : l.length * b + offset + 16 ≤ (planes k l).length := by
    rw [length_planes]
    omega
  rw [planeLanes, vld1, plane_length hk, slice_of_le (Nat.le_add_right ..) hlen,
    Nat.add_sub_cancel_left]
  congr 1
  apply List.ext_getElem?
  intro i
  rcases Nat.lt_or_ge i 16 with hi | hi
  · rw [List.getElem?_take_of_lt hi, List.getElem?_drop, Nat.add_assoc,
      getElem?_planes hb (by omega), List.getElem?_map, List.getElem?_take_of_lt hi,
      List.getElem?_drop, List.getElem?_eq_getElem (by omega), Option.map_some]
  · rw [List.getElem?_eq_none (by rw [List.length_take]; omega),
      List.getElem?_eq_none (by rw [List.length_map, List.length_take]; omega)]

/-! ## The vector kernels of floats -/

theorem flatMap_range_getD {α β : Type} (a : α) (f : α → List β) {l : List α} {n : Nat}
    (hlen : l.length = n) : (List.range n).flatMap (fun i => f (l.getD i a)) = l.flatMap f := by
  have hl : (List.range n).map (fun i => l.getD i a) = l := by
    apply List.ext_getElem
    · rw [List.length_map, List.length_range, hlen]
    intro i _ hi
    rw [List.getElem_map, List.getElem_range, List.getD_eq_getElem?_getD,
      List.getElem?_eq_getElem hi, Option.getD_some]
  conv_rhs => rw [← hl, List.flatMap_map]

theorem getD_map {α β : Type} (f : α → β) (a : α) (b : β) {l : List α} {i : Nat}
    (hi : i < l.length) : (l.map f).getD i b = f (l.getD i a) := by
  rw [List.getD_eq_getElem?_getD, List.getElem?_map, List.getD_eq_getElem?_getD,
    List.getElem?_eq_getElem hi]
  rfl

/-- The memory of sixteen `f32`. -/
theorem vst4_planes {part : List (BitVec (8 * 4))} (hlen : part.length = 16) :
    vst4 (part.map (byteOf 4 3)) (part.map (byteOf 4 2)) (part.map (byteOf 4 1))
      (part.map (byteOf 4 0)) = rowBytes .littleEndian 4 part := by
  rw [rowBytes, ← flatMap_range_getD 0 _ hlen, vst4]
  apply List.flatMap_congr
  intro i hi
  have hi' : i < part.length := hlen ▸ List.mem_range.mp hi
  have hbyte : ∀ b, (part.map (byteOf 4 b)).getD i 0 = byteOf 4 b (part.getD i 0) := fun b =>
    getD_map _ 0 0 hi'
  simp only [hbyte]
  rfl

-- All 128 bytes are computed.
set_option maxRecDepth 20000 in
theorem interleave8_eq (v0 v1 v2 v3 v4 v5 v6 v7 : List UInt8) :
    interleave8 v0 v1 v2 v3 v4 v5 v6 v7 = (List.range 16).flatMap fun i =>
      [v7.getD i 0, v6.getD i 0, v5.getD i 0, v4.getD i 0, v3.getD i 0, v2.getD i 0, v1.getD i 0,
        v0.getD i 0] := rfl

/-- The memory of sixteen `f64`. -/
theorem interleave8_planes {part : List (BitVec (8 * 8))} (hlen : part.length = 16) :
    interleave8 (part.map (byteOf 8 0)) (part.map (byteOf 8 1)) (part.map (byteOf 8 2))
      (part.map (byteOf 8 3)) (part.map (byteOf 8 4)) (part.map (byteOf 8 5))
      (part.map (byteOf 8 6)) (part.map (byteOf 8 7)) = rowBytes .littleEndian 8 part := by
  rw [rowBytes, ← flatMap_range_getD 0 _ hlen, interleave8_eq]
  apply List.flatMap_congr
  intro i hi
  have hi' : i < part.length := hlen ▸ List.mem_range.mp hi
  have hbyte : ∀ b, (part.map (byteOf 8 b)).getD i 0 = byteOf 8 b (part.getD i 0) := fun b =>
    getD_map _ 0 0 hi'
  simp only [hbyte]
  rfl

/-- Block by block, sixteen samples at a time. -/
theorem neonBlocks {l d : List (BitVec (8 * k))} (hd : d.length ≤ l.length)
    {body : Nat → List (BitVec (8 * k)) → Option (List (BitVec (8 * k)))}
    (hbody : ∀ i out, i * 16 + 16 ≤ d.length → body i out =
      storeSamples out (i * 16) (rowBytes .littleEndian k ((l.drop (i * 16)).take 16))) :
    forRange 0 (d.length / 16) body d =
      some (overwritten (l.take d.length) d (d.length / 16 * 16)) := by
  have hlen : (l.take d.length).length = d.length := by rw [List.length_take, Nat.min_eq_left hd]
  have hturn : ∀ i out, 0 ≤ i → i < d.length / 16 →
      out = overwritten (l.take d.length) d (i * 16) →
      ∃ out', body i out = some out' ∧ out' = overwritten (l.take d.length) d ((i + 1) * 16) := by
    intro i out _ hi hout
    have hend : i * 16 + 16 ≤ d.length := by omega
    have hblock : ((l.take d.length).drop (i * 16)).take 16 = (l.drop (i * 16)).take 16 := by
      rw [List.drop_take, List.take_take, Nat.min_eq_left (by omega)]
    have hnew : ((l.drop (i * 16)).take 16).length = 16 := by
      rw [List.length_take, List.length_drop]
      omega
    have hold : ((d.drop (i * 16)).take 16).length = 16 := by
      rw [List.length_take, List.length_drop]
      omega
    refine ⟨_, ?_, rfl⟩
    rw [hout, hbody i _ hend, Nat.succ_mul i 16]
    apply onSlice_overwritten hlen hend
    rw [hblock]
    exact copySamples_rowBytes (Or.inr rfl) (hold.trans hnew.symm)
  obtain ⟨out, hloop, hout⟩ :=
    forRange_rule (fun i out => out = overwritten (l.take d.length) d (i * 16))
      (show d = _ by rw [Nat.zero_mul]; rfl) hturn
  rw [hloop, hout, Nat.max_eq_right (Nat.zero_le _)]

theorem fpPredictF32NeonSpp1_planes {l d : List (BitVec (8 * 4))} (hd : d.length ≤ l.length) :
    fpPredictF32NeonSpp1 (difference 1 (planes 4 l)) d = some (l.take d.length) := by
  unfold fpPredictF32NeonSpp1 revHpredictNeonU8Spp1
  rw [scanRow_difference (by omega) sums_16]
  simp only [Option.bind_eq_bind, Option.bind_some]
  rw [neonBlocks hd, Option.bind_some]
  · exact fpTail_planes (by omega) hd (Nat.div_mul_le_self ..)
  · intro i out hend
    have hpart : ((l.drop (i * 16)).take 16).length = 16 := by
      rw [List.length_take, List.length_drop]
      omega
    rw [planeLanes_planes (by omega) (by omega) (by omega),
      planeLanes_planes (by omega) (by omega) (by omega),
      planeLanes_planes (by omega) (by omega) (by omega),
      planeLanes_planes (by omega) (by omega) (by omega)]
    simp only [Option.bind_some, vst4_planes hpart]

theorem fpPredictF64NeonSpp1_planes {l d : List (BitVec (8 * 8))} (hd : d.length ≤ l.length) :
    fpPredictF64NeonSpp1 (difference 1 (planes 8 l)) d = some (l.take d.length) := by
  unfold fpPredictF64NeonSpp1 revHpredictNeonU8Spp1
  rw [scanRow_difference (by omega) sums_16]
  simp only [Option.bind_eq_bind, Option.bind_some]
  rw [neonBlocks hd, Option.bind_some]
  · exact fpTail_planes (by omega) hd (Nat.div_mul_le_self ..)
  · intro i out hend
    have hpart : ((l.drop (i * 16)).take 16).length = 16 := by
      rw [List.length_take, List.length_drop]
      omega
    have hlanes : ∀ b, b < 8 → planeLanes 8 (planes 8 l) (i * 16) b =
        some (((l.drop (i * 16)).take 16).map (byteOf 8 b)) := fun b hb =>
      planeLanes_planes (by omega) hb (by omega)
    simp only [hlanes 0 (by omega), hlanes 1 (by omega), hlanes 2 (by omega), hlanes 3 (by omega),
      hlanes 4 (by omega), hlanes 5 (by omega), hlanes 6 (by omega), hlanes 7 (by omega),
      Option.bind_some, interleave8_planes hpart]

/-- A kernel of a row takes its samples out of the differences of their planes. -/
def Decodes (decode : Nat → List UInt8 → List (BitVec (8 * k)) → Option (List (BitVec (8 * k)))) :
    Prop :=
  ∀ spp l d, 0 < spp → d.length ≤ l.length →
    decode spp (difference spp (planes k l)) d = some (l.take d.length)

theorem decodes_f32 (host : Host) : Decodes (decodeFpPredictF32 host) := by
  intro spp l d hspp hd
  unfold decodeFpPredictF32
  split
  next h =>
    obtain ⟨-, rfl, -⟩ := h
    exact fpPredictF32NeonSpp1_planes hd
  next h => exact fpPredict_planes (by omega) hspp hd

theorem decodes_f64 (host : Host) : Decodes (decodeFpPredictF64 host) := by
  intro spp l d hspp hd
  unfold decodeFpPredictF64
  split
  next h =>
    obtain ⟨-, rfl, -⟩ := h
    exact fpPredictF64NeonSpp1_planes hd
  next h => exact fpPredict_planes (by omega) hspp hd

end Planes

/-! ## Floats -/

section Floats

variable {k : Nat} {host : Host} {e : ChunkEncoding} {src : List UInt8}
  {dst : List (BitVec (8 * k))} {name : String}
  {decode : Nat → List UInt8 → List (BitVec (8 * k)) → Option (List (BitVec (8 * k)))}
  {oneMinus : BitVec (8 * k) → BitVec (8 * k)}

theorem slice_tileBytes {dstLen : Nat} (hlay : Layout e src.length dstLen k)
    (hpred : e.predictor = .floatingPoint) {r : Nat} (hr : r < e.dataH) :
    slice src (r * (e.tileW * e.spp * k)) ((r + 1) * (e.tileW * e.spp * k)) =
      some (tileBytes e k src r) := by
  have hstep : (r + 1) * (e.tileW * e.spp * k) =
      r * (e.tileW * e.spp * k) + e.tileW * e.spp * k := Nat.succ_mul ..
  rw [slice_of_le (by omega) (hlay.full hpred r hr), hstep, Nat.add_sub_cancel_left]
  rfl

/-- The rows of the tile have their padding, the rows of the result do not. -/
theorem unpackFloat_predicted (hdecode : Decodes decode)
    (hvalid : e.validate src.length dst.length k = .ok ()) (hpred : e.predictor = .floatingPoint)
    {rows : Nat → List (BitVec (8 * k))}
    (hrows : ∀ r, r < e.dataH → (rows r).length = e.tileW * e.spp)
    (hsrc : ∀ r, r < e.dataH → tileBytes e k src r = difference e.spp (planes k (rows r))) :
    unpackFloat name decode oneMinus host src dst e =
      .ok (withRows e (fun r => inverted e oneMinus ((rows r).take (e.dataW * e.spp))) dst) := by
  have hlay := layout_of_validate hvalid
  have hwidth : e.dataW * e.spp ≤ e.tileW * e.spp := Nat.mul_le_mul_right _ hlay.fits
  have hlen : ∀ r, r < e.dataH →
      (inverted e oneMinus ((rows r).take (e.dataW * e.spp))).length = e.dataW * e.spp := by
    intro r hr
    have htake : ((rows r).take (e.dataW * e.spp)).length = e.dataW * e.spp := by
      rw [List.length_take, hrows r hr, Nat.min_eq_left hwidth]
    unfold inverted
    split
    next => rw [List.length_map, htake]
    next => exact htake
  unfold unpackFloat
  rw [hvalid]
  simp only [bind, Except.bind, hpred]
  rw [forRows_withRows hlay.samples hlen]
  · rfl
  · intro r d hr hd
    rw [slice_tileBytes hlay hpred hr, hsrc r hr]
    have hrow := hdecode e.spp (rows r) d hlay.spp_pos (by rw [hd, hrows r hr]; exact hwidth)
    rw [hd] at hrow
    show (decode e.spp (difference e.spp (planes k (rows r))) d).bind _ = _
    rw [hrow, Option.bind_some]
    rfl

theorem unpackFloat_plain (hvalid : e.validate src.length dst.length k = .ok ())
    (hpred : e.predictor = .none) {rows : Nat → List (BitVec (8 * k))}
    (hrows : ∀ r, r < e.dataH → (rows r).length = e.dataW * e.spp)
    (hsrc : ∀ r, r < e.dataH → dataBytes e k src r = rowBytes e.byteOrder k (rows r)) :
    unpackFloat name decode oneMinus host src dst e =
      .ok (inverted e oneMinus (withRows e rows dst)) := by
  have hunpack := @unpackRows_eq k host e src dst rows (decide (e.byteOrder = host.byteOrder))
    (layout_of_validate hvalid) hrows hsrc fun h => Or.inr (of_decide_eq_true h)
  unfold unpackFloat inverted
  rw [hvalid]
  simp only [bind, Except.bind, hpred, hunpack, inBounds, pure, Except.pure]

end Floats

/-! ## Every source -/

section Any

variable {k : Nat} {e : ChunkEncoding} {src : List UInt8}

/-- Any source that is long enough has the bytes of some rows. -/
theorem exists_dataRows {dstLen : Nat} (hlay : Layout e src.length dstLen k) :
    ∃ rows : Nat → List (BitVec (8 * k)), ∀ r, r < e.dataH →
      (rows r).length = e.dataW * e.spp ∧
        dataBytes e k src r = rowBytes e.byteOrder k (rows r) := by
  have hrow : ∀ r, ∃ row : List (BitVec (8 * k)), r < e.dataH →
      row.length = e.dataW * e.spp ∧ dataBytes e k src r = rowBytes e.byteOrder k row := by
    intro r
    by_cases hr : r < e.dataH
    · have hfit := hlay.rows r hr
      obtain ⟨row, hlen, hbytes⟩ := @exists_rowBytes k e.byteOrder (e.dataW * e.spp)
        (dataBytes e k src r) (by
          rw [dataBytes, List.length_take, List.length_drop]
          omega)
      exact ⟨row, fun _ => ⟨hlen, hbytes.symm⟩⟩
    · exact ⟨[], fun h => absurd h hr⟩
  choose rows hrows using hrow
  exact ⟨rows, hrows⟩

/-- The same, as the bytes of rows that were predicted. -/
theorem exists_predictedRows {dstLen : Nat} (hlay : Layout e src.length dstLen k) :
    ∃ rows : Nat → List (BitVec (8 * k)), ∀ r, r < e.dataH →
      (rows r).length = e.dataW * e.spp ∧
        dataBytes e k src r = rowBytes e.byteOrder k (predicted e (rows r)) := by
  obtain ⟨rows, hrows⟩ := exists_dataRows hlay
  have hpred : ∀ r, ∃ row, predicted e row = rows r := by
    intro r
    unfold predicted
    split
    next => exact exists_difference hlay.spp_pos (rows r)
    next => exact ⟨rows r, rfl⟩
  choose original horiginal using hpred
  have hlen : ∀ r, (predicted e (original r)).length = (original r).length := by
    intro r
    unfold predicted
    split
    next => exact length_difference ..
    next => rfl
  refine ⟨original, fun r hr => ?_⟩
  rw [← hlen, horiginal]
  exact hrows r hr

theorem unpackIntegerSamples_inBounds (t : TiffSample) (host : Host) (e : ChunkEncoding)
    (src : List UInt8) (dst : List t.Value) :
    unpackIntegerSamples t host src dst e ≠ .error .outOfBounds := by
  cases hvalid : e.validate src.length dst.length t.bytes with
  | error err =>
      intro h
      unfold unpackIntegerSamples at h
      rw [hvalid] at h
      cases h
      exact absurd hvalid validate_ne
  | ok u =>
      obtain ⟨rows, hrows⟩ := exists_predictedRows (layout_of_validate hvalid)
      rw [unpackIntegerSamples_eq t host hvalid (fun r hr => (hrows r hr).1)
        fun r hr => (hrows r hr).2]
      intro h
      cases h

/-- A tile that is long enough has the differences of the planes of some rows. -/
theorem exists_tileRows {dstLen : Nat} (hlay : Layout e src.length dstLen k)
    (hpred : e.predictor = .floatingPoint) :
    ∃ rows : Nat → List (BitVec (8 * k)), ∀ r, r < e.dataH →
      (rows r).length = e.tileW * e.spp ∧
        tileBytes e k src r = difference e.spp (planes k (rows r)) := by
  have hrow : ∀ r, ∃ row : List (BitVec (8 * k)), r < e.dataH →
      row.length = e.tileW * e.spp ∧ tileBytes e k src r = difference e.spp (planes k row) := by
    intro r
    by_cases hr : r < e.dataH
    · have hfit := hlay.full hpred r hr
      have hstep : (r + 1) * (e.tileW * e.spp * k) =
          r * (e.tileW * e.spp * k) + e.tileW * e.spp * k := Nat.succ_mul ..
      have htile : (tileBytes e k src r).length = e.tileW * e.spp * k := by
        rw [tileBytes, List.length_take, List.length_drop]
        omega
      obtain ⟨bytes, hbytes⟩ := exists_difference hlay.spp_pos (tileBytes e k src r)
      have hlen : bytes.length = e.tileW * e.spp * k := by
        rw [← htile, ← hbytes, length_difference]
      obtain ⟨row, hrow, hplanes⟩ := @exists_planes k (e.tileW * e.spp) bytes hlen
      exact ⟨row, fun _ => ⟨hrow, by rw [hplanes, hbytes]⟩⟩
    · exact ⟨[], fun h => absurd h hr⟩
  choose rows hrows using hrow
  exact ⟨rows, hrows⟩

theorem unpackFloat_inBounds {name : String}
    {decode : Nat → List UInt8 → List (BitVec (8 * k)) → Option (List (BitVec (8 * k)))}
    (hdecode : Decodes decode) (oneMinus : BitVec (8 * k) → BitVec (8 * k)) (host : Host)
    (e : ChunkEncoding) (src : List UInt8) (dst : List (BitVec (8 * k))) :
    unpackFloat name decode oneMinus host src dst e ≠ .error .outOfBounds := by
  cases hvalid : e.validate src.length dst.length k with
  | error err =>
      intro h
      unfold unpackFloat at h
      rw [hvalid] at h
      cases h
      exact absurd hvalid validate_ne
  | ok u =>
      have hlay := layout_of_validate hvalid
      cases hpred : e.predictor with
      | none =>
          obtain ⟨rows, hrows⟩ := exists_dataRows hlay
          rw [unpackFloat_plain hvalid hpred (fun r hr => (hrows r hr).1)
            fun r hr => (hrows r hr).2]
          intro h
          cases h
      | horizontal =>
          unfold unpackFloat
          rw [hvalid]
          simp only [bind, Except.bind, hpred]
          intro h
          cases h
      | floatingPoint =>
          obtain ⟨rows, hrows⟩ := exists_tileRows hlay hpred
          rw [unpackFloat_predicted hdecode hvalid hpred (fun r hr => (hrows r hr).1)
            fun r hr => (hrows r hr).2]
          intro h
          cases h

end Any

/-- A layout that `validate` accepts is unpacked without an access outside of a buffer,
on every host and from any bytes. Bytes that were predicted give the samples they were
made of, a row at a time, and leave what is behind the rows; `WhiteIsZero` then inverts
them. The vector kernels are the scalar pass. -/
theorem predictors_invert :
    (∀ (t : TiffSample) (host : Host) (e : ChunkEncoding) (src : List UInt8) (dst : List t.Value)
      (rows : Nat → List t.Value), e.validate src.length dst.length t.bytes = .ok () →
      e.predictor = .horizontal → (∀ r, r < e.dataH → (rows r).length = e.dataW * e.spp) →
      (∀ r, r < e.dataH → dataBytes e t.bytes src r =
        rowBytes e.byteOrder t.bytes (difference e.spp (rows r))) →
      unpackIntegerSamples t host src dst e =
        .ok (inverted e t.invertWhiteIsZero (withRows e rows dst))) ∧
    (∀ (oneMinus : BitVec (8 * 4) → BitVec (8 * 4)) (host : Host) (e : ChunkEncoding)
      (src : List UInt8) (dst : List (BitVec (8 * 4))) (rows : Nat → List (BitVec (8 * 4))),
      e.validate src.length dst.length 4 = .ok () → e.predictor = .floatingPoint →
      (∀ r, r < e.dataH → (rows r).length = e.tileW * e.spp) →
      (∀ r, r < e.dataH → tileBytes e 4 src r = difference e.spp (planes 4 (rows r))) →
      unpackF32 oneMinus host src dst e =
        .ok (withRows e (fun r => inverted e oneMinus ((rows r).take (e.dataW * e.spp))) dst)) ∧
    (∀ (oneMinus : BitVec (8 * 8) → BitVec (8 * 8)) (host : Host) (e : ChunkEncoding)
      (src : List UInt8) (dst : List (BitVec (8 * 8))) (rows : Nat → List (BitVec (8 * 8))),
      e.validate src.length dst.length 8 = .ok () → e.predictor = .floatingPoint →
      (∀ r, r < e.dataH → (rows r).length = e.tileW * e.spp) →
      (∀ r, r < e.dataH → tileBytes e 8 src r = difference e.spp (planes 8 (rows r))) →
      unpackF64 oneMinus host src dst e =
        .ok (withRows e (fun r => inverted e oneMinus ((rows r).take (e.dataW * e.spp))) dst)) ∧
    (∀ row : List UInt8, revHpredictNeonU8Spp1 row = addFrom 1 1 row) ∧
    (∀ row : List (BitVec 8), revHpredictNeonU8Spp1 row = addFrom 1 1 row) ∧
    (∀ row : List (BitVec 16), scanRow 8 [1, 2, 4] row = addFrom 1 1 row) ∧
    (∀ (t : TiffSample) host e src dst,
      unpackIntegerSamples t host src dst e ≠ .error .outOfBounds) ∧
    (∀ oneMinus host e src dst, unpackF32 oneMinus host src dst e ≠ .error .outOfBounds) ∧
    ∀ oneMinus host e src dst, unpackF64 oneMinus host src dst e ≠ .error .outOfBounds := by
  refine ⟨?_, ?_, ?_, ?_, ?_, ?_, unpackIntegerSamples_inBounds, ?_, ?_⟩
  · intro t host e src dst rows hvalid hpred hrows hsrc
    apply unpackIntegerSamples_eq t host hvalid hrows
    intro r hr
    rw [predicted, if_pos hpred]
    exact hsrc r hr
  · intro oneMinus host e src dst rows hvalid hpred hrows hsrc
    exact unpackFloat_predicted (decodes_f32 host) hvalid hpred hrows hsrc
  · intro oneMinus host e src dst rows hvalid hpred hrows hsrc
    exact unpackFloat_predicted (decodes_f64 host) hvalid hpred hrows hsrc
  · exact scanRow_eq (by omega) sums_16
  · exact scanRow_eq (by omega) sums_16
  · exact scanRow_eq (by omega) sums_8
  · exact fun oneMinus host e src dst =>
      unpackFloat_inBounds (decodes_f32 host) oneMinus host e src dst
  · exact fun oneMinus host e src dst =>
      unpackFloat_inBounds (decodes_f64 host) oneMinus host e src dst

/-- Two columns of data in a tile of three, two rows. The source ends with the data of
the last row. -/
def paddedTile (predictor : Predictor) : ChunkEncoding where
  tileW := 3
  dataW := 2
  dataH := 2
  spp := 1
  byteOrder := .bigEndian
  predictor := predictor
  photometric := .blackIsZero

/-- Sixteen-bit samples, 7 and 8, then 65535 and 2; and `1.0` and `2.0` with padding. -/
theorem predictors_invert_padded :
    unpackIntegerSamples .u16 .aarch64 [0, 7, 0, 1, 9, 9, 255, 255, 0, 3] [0, 0, 0, 0]
      (paddedTile .horizontal) = .ok [7, 8, 65535, 2] ∧
    unpackF32 id .aarch64 [63, 1, 192, 128, 128, 0, 0, 0, 0, 0, 0, 0, 63, 1, 192, 128, 128, 0, 0, 0, 0,
      0, 0, 0] [0, 0, 0, 0] (paddedTile .floatingPoint) =
        .ok [0x3f800000, 0x40000000, 0x3f800000, 0x40000000] := by
  have hint := predictors_invert.1 .u16 .aarch64 (paddedTile .horizontal)
    [0, 7, 0, 1, 9, 9, 255, 255, 0, 3] [0, 0, 0, 0]
    (fun r => if r = 0 then [7, 8] else [65535, 2]) rfl rfl (by decide) (by decide)
  have hfloat := predictors_invert.2.1 id .aarch64 (paddedTile .floatingPoint)
    [63, 1, 192, 128, 128, 0, 0, 0, 0, 0, 0, 0, 63, 1, 192, 128, 128, 0, 0, 0, 0, 0, 0, 0]
    [0, 0, 0, 0] (fun _ => [0x3f800000, 0x40000000, 0]) rfl rfl (by decide) (by decide)
  rw [hint, hfloat]
  exact ⟨rfl, rfl⟩

end RasterH3.Raster
