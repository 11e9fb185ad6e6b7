import RasterH3.Raster.ChunkDecoder
import RasterH3.Proofs.PredictorInverse

/-!
# A chunk does not depend on the buffers it is decoded into

A decoder of chunks is called again and again with buffers that are reused, among them the
one that the caller wants the samples in. Whether a chunk comes out right must not depend on
what is in them. And a chunk may be decoded in two ways, directly into the samples, where
their layout allows it, or into a scratch buffer from which the samples are unpacked; which
way is taken should not show either.

A decompressor that succeeds has filled its output, so nothing of the old contents is left
(`decodeChunkBytesInto_filled`), and what it writes depends on the length of the output
alone. Unpacking is a function of the decompressed bytes, for it writes every sample of the
result (`unpackSamples_visible`). So whatever the buffers hold, the outcome is that of fresh
ones.

The two ways of decoding ask for different lengths. A decompressor writes a prefix of its
output, so the bytes of the visible rows are the first ones of the tile, and as samples they
are the same (`directDecode_eq_scratchDecode`). But there are two decompressors for deflate.
The one for raw streams is tried when a zlib stream does not fit.

A payload that can be read as a zlib stream and as a raw one may therefore give two
different chunks, and the statement that the two ways agree asks that it can not
(`Unambiguous`). The last section has such a payload, a zlib stream of stored blocks that is
a raw stream as well, and an image of one row that it decodes to either way.

What is known of the decompressors is `Lawful`: they write a prefix of an output that is a
function of the payload. Nothing else about the formats is used.
-/

namespace RasterH3.Raster

open Loops Differences ChunkDecoder

variable {d : Decompressors}

/-! ## What decompressors do -/

/-- The decompressors write a prefix of an output that is a function of the payload. For LZW
this is said of a run of calls: what is still to come of the output is a relation of the state
and the input that is left. -/
structure Decompressors.Lawful (d : Decompressors) : Prop where
  zlib : ∀ payload, ∃ output, ∀ n written,
    d.zlib payload n = some written → written <+: output
  deflate : ∀ payload, ∃ output, ∀ n written,
    d.deflate payload n = some written → written <+: output
  lzw : ∃ Output : d.State → List UInt8 → List UInt8 → Prop,
    (∀ payload, ∃ output, Output d.reset payload output) ∧
    ∀ s inp output n, Output s inp output →
      (d.decodeBytes s inp n).written.length ≤ n ∧
      ∃ rest, output = (d.decodeBytes s inp n).written ++ rest ∧
        Output (d.decodeBytes s inp n).state (inp.drop (d.decodeBytes s inp n).consumedIn) rest

/-- What the two decompressors for deflate make of a payload agrees. -/
def Decompressors.Unambiguous (d : Decompressors) (payload : List UInt8) : Prop :=
  ∀ n m written written', d.zlib payload n = some written → d.deflate payload m = some written' →
    written <+: written' ∨ written' <+: written

/-! ## Filled buffers -/

/-- What the loop has written is the next part of the output. -/
theorem lzwLoop_written {Output : d.State → List UInt8 → List UInt8 → Prop}
    (hstep : ∀ s inp output n, Output s inp output →
      (d.decodeBytes s inp n).written.length ≤ n ∧
      ∃ rest, output = (d.decodeBytes s inp n).written ++ rest ∧
        Output (d.decodeBytes s inp n).state (inp.drop (d.decodeBytes s inp n).consumedIn) rest)
    {s : d.State} {inp output : List UInt8} {room : Nat} (hout : Output s inp output)
    {written : List UInt8} {left : Nat} (h : lzwLoop d s inp room = .ok (written, left)) :
    written <+: output ∧ written.length + left = room := by
  -- A call that ends the loop.
  have hlast : ∀ {s inp output room}, Output s inp output →
      (d.decodeBytes s inp room).written <+: output ∧
        (d.decodeBytes s inp room).written.length +
          (room - (d.decodeBytes s inp room).written.length) = room := by
    intro s inp output room hout
    rcases hstep s inp output room hout with ⟨hle, rest, houtput, -⟩
    exact ⟨⟨rest, houtput.symm⟩, Nat.add_sub_cancel' hle⟩
  induction s, inp, room using lzwLoop.induct d generalizing output written left with
  | case1 s inp room hstop =>
      rw [lzwLoop, dif_pos hstop] at h
      cases h
      exact ⟨ List.nil_prefix, Nat.zero_add _⟩
  | case2 =>
      rename_i s inp room hgo res e hstatus
      change (d.decodeBytes s inp room).status = _ at hstatus
      rw [lzwLoop, dif_neg hgo] at h
      simp only [hstatus] at h
      cases h
  | case3 =>
      rename_i s inp room hgo res hstatus
      change (d.decodeBytes s inp room).status = _ at hstatus
      rw [lzwLoop, dif_neg hgo] at h
      simp only [hstatus] at h
      cases h
      exact hlast hout
  | case4 =>
      rename_i s inp room hgo res hstatus
      change (d.decodeBytes s inp room).status = _ at hstatus
      rw [lzwLoop, dif_neg hgo] at h
      simp only [hstatus] at h
      cases h
      exact hlast hout
  | case5 =>
      rename_i s inp room hgo res hstatus hstop
      dsimp only [res] at hstatus hstop
      rw [lzwLoop, dif_neg hgo] at h
      simp only [hstatus, dif_pos hstop] at h
      cases h
      exact hlast hout
  | case6 =>
      rename_i s inp room hgo res left' hstatus hstop e hrest ih
      dsimp only [res, left'] at hstatus hstop hrest
      rw [lzwLoop, dif_neg hgo] at h
      simp only [hstatus, dif_neg hstop, hrest] at h
      cases h
  | case7 =>
      rename_i s inp room hgo res left' hstatus hstop written' left'' hrest ih
      dsimp only [res, left'] at hstatus hstop hrest ih
      rw [lzwLoop, dif_neg hgo] at h
      simp only [hstatus, dif_neg hstop, hrest] at h
      cases h
      rcases hstep s inp output room hout with ⟨hle, rest, houtput, hnext⟩
      rcases ih hnext hrest with ⟨⟨tail, htail⟩, hroom⟩
      refine ⟨⟨tail, ?_⟩, ?_⟩
      · rw [List.append_assoc, htail, houtput]
      · rw [List.length_append]
        omega

theorem overwrite_of_length {written out : List UInt8} (h : written.length = out.length) :
    overwrite written out = written := by
  rw [overwrite, List.drop_eq_nil_of_le h.ge, List.append_nil]

theorem fillExactly_eq_ok {written : Option (List UInt8)} {out filled : List UInt8}
    (h : fillExactly written out = .ok filled) :
    filled.length = out.length ∧ written = some filled := by
  cases written with
  | none => cases h
  | some written =>
      unfold fillExactly at h
      simp only at h
      split at h
      next => cases h
      next hlen =>
        have hlen := not_not.mp hlen
        rw [overwrite_of_length hlen] at h
        cases h
        exact ⟨hlen, rfl⟩

theorem fillExactly_congr (written : Option (List UInt8)) {out out' : List UInt8}
    (hlen : out.length = out'.length) : fillExactly written out = fillExactly written out' := by
  cases written with
  | none => rfl
  | some written =>
      unfold fillExactly
      simp only [hlen]
      split
      next => rfl
      next h =>
        have h := not_not.mp h
        rw [overwrite_of_length h, overwrite_of_length (h.trans hlen.symm)]

/-- Which bytes a decompressor writes, with `n` bytes of room. -/
inductive Writes (d : Decompressors) (compression : CompressionMethod) (payload : List UInt8)
    (n : Nat) : List UInt8 → Prop
  | none (h : compression = .none) (hlen : n ≤ payload.length) :
      Writes d compression payload n (payload.take n)
  | zlib {written : List UInt8} (h : compression = .deflate ∨ compression = .oldDeflate)
      (hread : d.zlib payload n = some written) : Writes d compression payload n written
  | deflate {written : List UInt8} (h : compression = .deflate ∨ compression = .oldDeflate)
      (hzlib : d.zlib payload n = Option.none) (hread : d.deflate payload n = some written) :
      Writes d compression payload n written
  | lzw {written : List UInt8} (h : compression = .lzw)
      (hread : lzwLoop d d.reset payload n = .ok (written, 0)) :
      Writes d compression payload n written

section Fill

variable {libdeflater lzw : Bool} {compression : CompressionMethod} {payload : List UInt8}

/-- A decompressor that succeeds has filled the output. -/
theorem decodeChunkBytesInto_filled (hd : d.Lawful) {out filled : List UInt8}
    (h : decodeChunkBytesInto d libdeflater lzw compression payload out = .ok filled) :
    filled.length = out.length ∧ Writes d compression payload out.length filled := by
  have hdeflate : ∀ {compression : CompressionMethod},
      compression = .deflate ∨ compression = .oldDeflate →
      fillExactly ((d.zlib payload out.length).or (d.deflate payload out.length)) out =
        .ok filled →
      filled.length = out.length ∧ Writes d compression payload out.length filled := by
    intro compression hcompression h
    rcases fillExactly_eq_ok h with ⟨hlen, hor⟩
    refine ⟨hlen, ?_⟩
    cases hzlib : d.zlib payload out.length with
    | none =>
        rw [hzlib] at hor
        exact .deflate hcompression hzlib hor
    | some w =>
        rw [hzlib] at hor
        cases hor
        exact .zlib hcompression hzlib
  cases compression with
  | none =>
      unfold decodeChunkBytesInto at h
      simp only at h
      split at h
      next hle =>
        cases h
        exact ⟨List.length_take_of_le hle, .none rfl hle⟩
      next => cases h
  | deflate =>
      unfold decodeChunkBytesInto at h
      simp only at h
      split at h
      next => cases h
      next => exact hdeflate (.inl rfl) h
  | oldDeflate =>
      unfold decodeChunkBytesInto at h
      simp only at h
      split at h
      next => cases h
      next => exact hdeflate (.inr rfl) h
  | lzw =>
      unfold decodeChunkBytesInto at h
      simp only at h
      split at h
      next => cases h
      next =>
        cases hloop : lzwLoop d d.reset payload out.length with
        | error e =>
            rw [hloop] at h
            cases h
        | ok p =>
            rcases p with ⟨written, left⟩
            rw [hloop] at h
            simp only [bind, Except.bind] at h
            split at h
            next => cases h
            next hleft =>
              have hleft := not_not.mp hleft
              subst hleft
              rcases hd.lzw with ⟨Output, hstart, hstep⟩
              rcases hstart payload with ⟨output, houtput⟩
              have hlen := (lzwLoop_written hstep houtput hloop).2
              rw [Nat.add_zero] at hlen
              rw [overwrite_of_length hlen] at h
              cases h
              exact ⟨hlen, .lzw rfl hloop⟩
  | other code => cases h

/-- The old contents of the output do not matter. -/
theorem decodeChunkBytesInto_congr (hd : d.Lawful) {out out' : List UInt8}
    (hlen : out.length = out'.length) :
    decodeChunkBytesInto d libdeflater lzw compression payload out =
      decodeChunkBytesInto d libdeflater lzw compression payload out' := by
  cases compression with
  | none => simp only [decodeChunkBytesInto, hlen]
  | deflate =>
      simp only [decodeChunkBytesInto, hlen]
      rw [fillExactly_congr _ hlen]
  | oldDeflate =>
      simp only [decodeChunkBytesInto, hlen]
      rw [fillExactly_congr _ hlen]
  | lzw =>
      simp only [decodeChunkBytesInto, hlen]
      cases hloop : lzwLoop d d.reset payload out'.length with
      | error e => rfl
      | ok p =>
          rcases p with ⟨written, left⟩
          simp only [bind, Except.bind]
          cases left with
          | succ left => rfl
          | zero =>
              rcases hd.lzw with ⟨Output, hstart, hstep⟩
              rcases hstart payload with ⟨output, houtput⟩
              have h := (lzwLoop_written hstep houtput hloop).2
              rw [Nat.add_zero] at h
              rw [overwrite_of_length h, overwrite_of_length (h.trans hlen.symm)]
  | other code => rfl

/-- Two outputs of one payload are the beginning of one another. -/
theorem writes_comparable (hd : d.Lawful) (hsame : d.Unambiguous payload) {n m : Nat}
    {written written' : List UInt8} (h : Writes d compression payload n written)
    (h' : Writes d compression payload m written') :
    written <+: written' ∨ written' <+: written := by
  cases h with
  | none hnone hlen =>
      subst hnone
      cases h' with
      | none _ hlen' =>
          exact List.prefix_or_prefix_of_prefix ( List.take_prefix n payload)
            ( List.take_prefix m payload)
      | zlib h _ => rcases h with h | h <;> cases h
      | deflate h _ _ => rcases h with h | h <;> cases h
      | lzw h _ => cases h
  | zlib hdeflate hread =>
      cases h' with
      | none h _ => subst h; rcases hdeflate with h | h <;> cases h
      | zlib _ hread' =>
          rcases hd.zlib payload with ⟨output, houtput⟩
          exact List.prefix_or_prefix_of_prefix (houtput n _ hread) (houtput m _ hread')
      | deflate _ _ hread' => exact hsame n m _ _ hread hread'
      | lzw h _ => subst h; rcases hdeflate with h | h <;> cases h
  | deflate hdeflate _ hread =>
      cases h' with
      | none h _ => subst h; rcases hdeflate with h | h <;> cases h
      | zlib _ hread' => exact (hsame m n _ _ hread' hread).symm
      | deflate _ _ hread' =>
          rcases hd.deflate payload with ⟨output, houtput⟩
          exact List.prefix_or_prefix_of_prefix (houtput n _ hread) (houtput m _ hread')
      | lzw h _ => subst h; rcases hdeflate with h | h <;> cases h
  | lzw hlzw hread =>
      subst hlzw
      cases h' with
      | none h _ => cases h
      | zlib h _ => rcases h with h | h <;> cases h
      | deflate h _ _ => rcases h with h | h <;> cases h
      | lzw _ hread' =>
          rcases hd.lzw with ⟨Output, hstart, hstep⟩
          rcases hstart payload with ⟨output, houtput⟩
          exact List.prefix_or_prefix_of_prefix (lzwLoop_written hstep houtput hread).1
            (lzwLoop_written hstep houtput hread').1

end Fill

/-! ## Unpacking -/

/-- The samples of the visible rows and columns of a decompressed tile. -/
def Visible (oneMinus : OneMinus) (e : ChunkEncoding) (src : List UInt8) :
    (t : SampleType) → List t.Value → Prop
  | .int t => fun samples => ∃ rows : Nat → List t.Value,
      (∀ r, r < e.dataH → (rows r).length = e.dataW * e.spp ∧
        dataBytes e t.bytes src r = rowBytes e.byteOrder t.bytes (predicted e (rows r))) ∧
      samples = inverted e t.invertWhiteIsZero ((List.range e.dataH).flatMap rows)
  | .f32 => VisibleFloats 4 oneMinus.f32
  | .f64 => VisibleFloats 8 oneMinus.f64
where
  VisibleFloats (k : Nat) (oneMinus : BitVec (8 * k) → BitVec (8 * k))
      (samples : List (BitVec (8 * k))) : Prop :=
    (e.predictor = .none ∧ ∃ rows : Nat → List (BitVec (8 * k)),
      (∀ r, r < e.dataH → (rows r).length = e.dataW * e.spp ∧
        dataBytes e k src r = rowBytes e.byteOrder k (rows r)) ∧
      samples = inverted e oneMinus ((List.range e.dataH).flatMap rows)) ∨
    (e.predictor = .floatingPoint ∧ ∃ rows : Nat → List (BitVec (8 * k)),
      (∀ r, r < e.dataH → (rows r).length = e.tileW * e.spp ∧
        tileBytes e k src r = difference e.spp (planes k (rows r))) ∧
      samples = (List.range e.dataH).flatMap fun r =>
        inverted e oneMinus ((rows r).take (e.dataW * e.spp)))

/-- A function of a buffer that does not look at its contents. -/
def Blind {α : Type} (n : Nat) (fill : List α → Except UnpackError (List α))
    (Result : List α → Prop) : Prop :=
  (∃ err, ∀ dst, dst.length = n → fill dst = .error err) ∨
    ∃ samples, Result samples ∧ ∀ dst, dst.length = n → fill dst = .ok samples

theorem withRows_of_length {α : Type} {e : ChunkEncoding} (rows : Nat → List α) {dst : List α}
    (h : dst.length = totalSamples e) : withRows e rows dst = (List.range e.dataH).flatMap rows := by
  have hlen : dst.length = e.dataH * (e.dataW * e.spp) := by
    rw [h, totalSamples]
    ring
  rw [withRows, List.drop_eq_nil_of_le hlen.le, List.append_nil]

theorem unpackIntegerSamples_blind (t : TiffSample) (oneMinus : OneMinus) (host : Host)
    (e : ChunkEncoding) (src : List UInt8) :
    Blind (totalSamples e) (fun dst => unpackIntegerSamples t host src dst e)
      (Visible oneMinus e src (.int t)) := by
  cases hvalid : e.validate src.length (totalSamples e) t.bytes with
  | error err =>
      refine Or.inl ⟨err, fun dst hdst => ?_⟩
      show unpackIntegerSamples t host src dst e = _
      unfold unpackIntegerSamples
      rw [hdst, hvalid]
      rfl
  | ok u =>
      rcases exists_predictedRows (layout_of_validate hvalid) with ⟨rows, hrows⟩
      refine Or.inr ⟨_, ⟨rows, hrows, rfl⟩, fun dst hdst => ?_⟩
      show unpackIntegerSamples t host src dst e = _
      rw [unpackIntegerSamples_eq t host (hdst ▸ hvalid) (fun r hr => (hrows r hr).1)
        fun r hr => (hrows r hr).2, withRows_of_length _ hdst]

theorem unpackFloat_blind {k : Nat} {name : String}
    {decode : Nat → List UInt8 → List (BitVec (8 * k)) → Option (List (BitVec (8 * k)))}
    (hdecode : Decodes decode) (oneMinus : BitVec (8 * k) → BitVec (8 * k)) (host : Host)
    (e : ChunkEncoding) (src : List UInt8) :
    Blind (totalSamples e) (fun dst => unpackFloat name decode oneMinus host src dst e)
      (Visible.VisibleFloats e src k oneMinus) := by
  cases hvalid : e.validate src.length (totalSamples e) k with
  | error err =>
      refine Or.inl ⟨err, fun dst hdst => ?_⟩
      show unpackFloat name decode oneMinus host src dst e = _
      unfold unpackFloat
      rw [hdst, hvalid]
      rfl
  | ok u =>
      have hlay := layout_of_validate hvalid
      cases hpred : e.predictor with
      | none =>
          rcases exists_dataRows hlay with ⟨rows, hrows⟩
          refine Or.inr ⟨_, Or.inl ⟨hpred, rows, hrows, rfl⟩, fun dst hdst => ?_⟩
          show unpackFloat name decode oneMinus host src dst e = _
          rw [unpackFloat_plain (hdst ▸ hvalid) hpred (fun r hr => (hrows r hr).1)
            fun r hr => (hrows r hr).2, withRows_of_length _ hdst]
      | horizontal =>
          refine Or.inl ⟨.invalidMetadata ("horizontal predictor unsupported for " ++ name),
            fun dst hdst => ?_⟩
          show unpackFloat name decode oneMinus host src dst e = _
          unfold unpackFloat
          rw [hdst, hvalid]
          simp only [bind, Except.bind, hpred]
      | floatingPoint =>
          rcases exists_tileRows hlay hpred with ⟨rows, hrows⟩
          refine Or.inr ⟨_, Or.inr ⟨hpred, rows, hrows, rfl⟩, fun dst hdst => ?_⟩
          show unpackFloat name decode oneMinus host src dst e = _
          rw [unpackFloat_predicted hdecode (hdst ▸ hvalid) hpred (fun r hr => (hrows r hr).1)
            fun r hr => (hrows r hr).2, withRows_of_length _ hdst]

theorem unpackSamples_visible (oneMinus : OneMinus) (host : Host) (src : List UInt8)
    (e : ChunkEncoding) (t : SampleType) :
    Blind (totalSamples e) (unpackSamples oneMinus host src e t) (Visible oneMinus e src t) := by
  cases t with
  | int t => exact unpackIntegerSamples_blind t oneMinus host e src
  | f32 => exact unpackFloat_blind (decodes_f32 host) oneMinus.f32 host e src
  | f64 => exact unpackFloat_blind (decodes_f64 host) oneMinus.f64 host e src

/-! ## Bytes that are the samples -/

section Direct

variable {k : Nat} {host : Host} {e : ChunkEncoding}

theorem rowBytes_take (order : TiffByteOrder) (l : List (BitVec (8 * k))) (n : Nat) :
    rowBytes order k (l.take n) = (rowBytes order k l).take (n * k) := by
  rcases Nat.le_total n l.length with hn | hn
  · have hlen : (rowBytes order k (l.take n)).length = n * k := by
      rw [length_rowBytes, List.length_take_of_le hn]
    conv_rhs => rw [← List.take_append_drop n l, rowBytes_append]
    exact (List.take_left' hlen).symm
  · have hlen : (rowBytes order k l).length ≤ n * k := by
      rw [length_rowBytes]
      exact Nat.mul_le_mul_right k hn
    rw [List.take_of_length_le hn, List.take_of_length_le hlen]

theorem rowBytes_drop (order : TiffByteOrder) (l : List (BitVec (8 * k))) (n : Nat) :
    rowBytes order k (l.drop n) = (rowBytes order k l).drop (n * k) := by
  rcases Nat.le_total n l.length with hn | hn
  · have hlen : (rowBytes order k (l.take n)).length = n * k := by
      rw [length_rowBytes, List.length_take_of_le hn]
    conv_rhs => rw [← List.take_append_drop n l, rowBytes_append]
    exact (List.drop_left' hlen).symm
  · have hlen : (rowBytes order k l).length ≤ n * k := by
      rw [length_rowBytes]
      exact Nat.mul_le_mul_right k hn
    rw [List.drop_eq_nil_of_le hn, List.drop_eq_nil_of_le hlen]
    rfl

/-- Without padding the rows are one run of bytes. -/
theorem rows_iff_run (hwidth : e.tileW = e.dataW) (src : List UInt8)
    (samples : List (BitVec (8 * k))) :
    (∃ rows : Nat → List (BitVec (8 * k)),
      (∀ r, r < e.dataH → (rows r).length = e.dataW * e.spp ∧
        dataBytes e k src r = rowBytes e.byteOrder k (rows r)) ∧
      samples = (List.range e.dataH).flatMap rows) ↔
    samples.length = totalSamples e ∧
      rowBytes e.byteOrder k samples = src.take (totalSamples e * k) := by
  have htotal : totalSamples e = e.dataH * (e.dataW * e.spp) := by
    rw [totalSamples]
    ring
  have hbytes : totalSamples e * k = e.dataH * (e.dataW * e.spp * k) := by
    rw [htotal, Nat.mul_assoc]
  have hdata : ∀ r, dataBytes e k src r =
      (src.drop (0 + r * (e.dataW * e.spp * k))).take (e.dataW * e.spp * k) := fun r => by
    rw [dataBytes, hwidth, Nat.zero_add]
  constructor
  · intro hrows
    obtain ⟨rows, hrows, hsamples⟩ := hrows
    have hflat : rowBytes e.byteOrder k samples =
        (List.range e.dataH).flatMap (dataBytes e k src) := by
      rw [hsamples, rowBytes, List.flatMap_assoc]
      exact List.flatMap_congr fun r hr => ((hrows r (List.mem_range.mp hr)).2).symm
    refine ⟨?_, ?_⟩
    · rw [hsamples, htotal]
      exact length_rows fun r hr => (hrows r hr).1
    · rw [hflat, hbytes, funext hdata, flatMap_take_drop, List.drop_zero]
  · intro hrun
    obtain ⟨hlen, hrun⟩ := hrun
    refine ⟨fun r => (samples.drop (0 + r * (e.dataW * e.spp))).take (e.dataW * e.spp),
      fun r hr => ⟨?_, ?_⟩, ?_⟩
    · simp only [Nat.zero_add]
      exact length_row (by rw [hlen, htotal]) hr
    · have hend : (r + 1) * (e.dataW * e.spp * k) ≤ e.dataH * (e.dataW * e.spp * k) :=
        Nat.mul_le_mul_right _ hr
      rw [Nat.succ_mul r (e.dataW * e.spp * k)] at hend
      rw [hdata]
      simp only [Nat.zero_add, rowBytes_take, rowBytes_drop, hrun]
      rw [Nat.mul_assoc r (e.dataW * e.spp) k, List.drop_take, List.take_take, Nat.min_eq_left]
      rw [hbytes]
      omega
    · rw [flatMap_take_drop, List.drop_zero, List.take_of_length_le (by rw [hlen, htotal])]

theorem canDirectDecode_iff (host : Host) (e : ChunkEncoding) :
    canDirectDecode host e = true ↔ e.tileW = e.dataW ∧ e.predictor = .none ∧
      e.byteOrder = host.byteOrder ∧ e.photometric ≠ .whiteIsZero := by
  unfold canDirectDecode
  exact decide_eq_true_iff

/-- Where direct decoding is possible, the visible samples are the first bytes. -/
theorem visible_iff_run (h : canDirectDecode host e = true) (oneMinus : OneMinus)
    (src : List UInt8) (t : SampleType) (samples : List t.Value) :
    Visible oneMinus e src t samples ↔ samples.length = totalSamples e ∧
      rowBytes e.byteOrder t.bytes samples = src.take (totalSamples e * t.bytes) := by
  rcases (canDirectDecode_iff host e).mp h with ⟨hwidth, hpred, -, hphoto⟩
  have hpredicted : ∀ {k : Nat} (row : List (BitVec (8 * k))), predicted e row = row := fun row => by
    rw [predicted, if_neg (by rw [hpred]; decide)]
  have hinverted : ∀ {k : Nat} (invert : BitVec (8 * k) → BitVec (8 * k)) l,
      inverted e invert l = l := fun invert l => by rw [inverted, if_neg hphoto]
  have hfloats : ∀ {k : Nat} (f : BitVec (8 * k) → BitVec (8 * k)) (samples : List (BitVec (8 * k))),
      Visible.VisibleFloats e src k f samples ↔ samples.length = totalSamples e ∧
        rowBytes e.byteOrder k samples = src.take (totalSamples e * k) := by
    intro k f samples
    rw [← rows_iff_run hwidth]
    refine ⟨fun hvisible => ?_, fun hrows => Or.inl ⟨hpred, ?_⟩⟩
    · rcases hvisible with ⟨-, hrows⟩ | ⟨hfloat, -⟩
      · simpa only [hinverted] using hrows
      · rw [hpred] at hfloat
        cases hfloat
    · simpa only [hinverted] using hrows
  cases t with
  | int t =>
      show (∃ rows : Nat → List t.Value, _ ∧ _) ↔ _
      rw [← rows_iff_run hwidth]
      simp only [hpredicted, hinverted]
      rfl
  | f32 => exact hfloats _ _
  | f64 => exact hfloats _ _

end Direct

/-! ## One outcome -/

/-- All calls end in one error, or give the caller one result. -/
def OneOutcome {ι : Type}
    (call : ι → Except UnpackError (Option DecodingResult × Option DecodingResult))
    (Result : DecodingResult → Prop) : Prop :=
  (∃ err, ∀ i, call i = .error err) ∨
    ∃ r, Result r ∧ ∀ i, (call i).map decoded = .ok (some r)

theorem length_resize {α : Type} (l : List α) (n : Nat) (value : α) :
    (resize l n value).length = n := by
  rw [resize, List.length_append, List.length_take, List.length_replicate]
  omega

/-- The target buffer is as good as a new one. -/
theorem intoBuffer_outcome {ι : Type} {t : SampleType} {n : Nat}
    {fill : List t.Value → Except UnpackError (List t.Value)} {Result : List t.Value → Prop}
    (h : Blind n fill Result) (target : ι → Option DecodingResult) :
    OneOutcome (fun i => intoBuffer t n fill (target i)) fun r =>
      ∃ samples, r = .samples t samples ∧ Result samples := by
  rcases h with ⟨err, herr⟩ | ⟨samples, hresult, hok⟩
  · refine Or.inl ⟨err, fun i => ?_⟩
    show intoBuffer t n fill (target i) = _
    unfold intoBuffer
    split
    next v _ => rw [herr _ (length_resize v n 0)]; rfl
    next => rw [herr _ List.length_replicate]; rfl
  · refine Or.inr ⟨_, ⟨samples, rfl, hresult⟩, fun i => ?_⟩
    show (intoBuffer t n fill (target i)).map decoded = _
    unfold intoBuffer
    split
    next v _ => rw [hok _ (length_resize v n 0)]; rfl
    next => rw [hok _ List.length_replicate]; rfl

theorem length_memoryBytes {k : Nat} (host : Host) (v : List (BitVec (8 * k))) :
    (memoryBytes host v).length = v.length * k := length_rowBytes host.byteOrder v

section Paths

variable {dec : ChunkDecoder} {info : TiffChunkInfo} {host : Host} {e : ChunkEncoding}
  {payload : List UInt8} {oneMinus : OneMinus}

/-- The samples are the visible ones of bytes that the decompressor has written. -/
def Decoded (d : Decompressors) (info : TiffChunkInfo) (oneMinus : OneMinus) (e : ChunkEncoding)
    (payload : List UInt8) (t : SampleType) (samples : List t.Value) : Prop :=
  ∃ bytes, Writes d info.compression payload bytes.length bytes ∧
    Visible oneMinus e bytes t samples

theorem directFill_blind (hd : d.Lawful) (h : canDirectDecode host e = true) (t : SampleType) :
    Blind (totalSamples e)
      (fun v : List t.Value => do
        let b ← dec.decodeBytes d info payload (memoryBytes host v)
        inBounds (copySamples host b v))
      (Decoded d info oneMinus e payload t) := by
  have hzero : (List.replicate (totalSamples e) (0 : t.Value)).length = totalSamples e :=
    List.length_replicate
  have hmemory : ∀ v : List t.Value, v.length = totalSamples e →
      dec.decodeBytes d info payload (memoryBytes host v) =
        dec.decodeBytes d info payload
          (memoryBytes host (List.replicate (totalSamples e) (0 : t.Value))) := fun v hv =>
    decodeChunkBytesInto_congr hd (by rw [length_memoryBytes, length_memoryBytes, hv, hzero])
  cases hfill : dec.decodeBytes d info payload
      (memoryBytes host (List.replicate (totalSamples e) (0 : t.Value))) with
  | error err =>
      refine Or.inl ⟨err, fun v hv => ?_⟩
      simp only [hmemory v hv, hfill]
      rfl
  | ok bytes =>
      rcases decodeChunkBytesInto_filled hd hfill with ⟨hlen, hwrites⟩
      rw [length_memoryBytes, hzero] at hlen
      rcases exists_rowBytes host.byteOrder (totalSamples e) bytes hlen with ⟨samples, hn, hrow⟩
      refine Or.inr ⟨samples, ⟨bytes, ?_, (visible_iff_run h ..).mpr ⟨hn, ?_⟩⟩, fun v hv => ?_⟩
      · rw [hlen]
        rwa [length_memoryBytes, hzero] at hwrites
      · rw [((canDirectDecode_iff host e).mp h).2.2.1, hrow, List.take_of_length_le hlen.le]
      · simp only [hmemory v hv, hfill]
        show inBounds (copySamples host bytes v) = _
        rw [← hrow, copySamples_rowBytes (Or.inr rfl) (hv.trans hn.symm)]
        rfl

theorem scratchDecode_outcome {ι : Type} (hd : d.Lawful) (scratch : ι → List UInt8)
    (target : ι → Option DecodingResult) :
    OneOutcome
      (fun i => ({ dec with decompScratch := scratch i } : ChunkDecoder).scratchDecode d info
        oneMinus host e payload (target i))
      fun r => ∃ t samples, SampleType.unpacked info.sampleFormat info.bitsPerSample = some t ∧
        r = .samples t samples ∧ Decoded d info oneMinus e payload t samples := by
  let raw := rawChunkBytes info e
  have htake : ∀ l : List UInt8,
      ((if l.length < raw then resize l raw 0 else l).take raw).length = raw := by
    intro l
    rw [List.length_take]
    split
    next => rw [length_resize, Nat.min_self]
    next h => exact Nat.min_eq_left (not_lt.mp h)
  have hscratch : ∀ l : List UInt8,
      dec.decodeBytes d info payload ((if l.length < raw then resize l raw 0 else l).take raw) =
        dec.decodeBytes d info payload (List.replicate raw 0) := fun l =>
    decodeChunkBytesInto_congr hd (by rw [htake, List.length_replicate])
  cases hfill : dec.decodeBytes d info payload (List.replicate raw 0) with
  | error err =>
      refine Or.inl ⟨err, fun i => ?_⟩
      have hcall := (hscratch (scratch i)).trans hfill
      unfold scratchDecode
      simp only
      change (dec.decodeBytes d info payload _ >>= _) = _
      rw [hcall]
      rfl
  | ok bytes =>
      have hwrites := decodeChunkBytesInto_filled hd hfill
      rw [← hwrites.1] at hwrites
      have hcall : ∀ i, ({ dec with decompScratch := scratch i } : ChunkDecoder).scratchDecode d info
          oneMinus host e payload (target i) =
          (SampleType.unpacked info.sampleFormat info.bitsPerSample).elim
            (.error (.invalidMetadata "unsupported format")) fun t =>
              intoBuffer t (totalSamples e) (unpackSamples oneMinus host bytes e t) (target i) := by
        intro i
        unfold scratchDecode
        simp only
        change (dec.decodeBytes d info payload _ >>= _) = _
        rw [(hscratch (scratch i)).trans hfill]
        cases SampleType.unpacked info.sampleFormat info.bitsPerSample <;> rfl
      simp only [hcall]
      cases ht : SampleType.unpacked info.sampleFormat info.bitsPerSample with
      | none => exact Or.inl ⟨_, fun _ => rfl⟩
      | some t =>
          rcases intoBuffer_outcome (unpackSamples_visible oneMinus host bytes e t) target with
            herr | ⟨r, ⟨samples, hr, hvisible⟩, hok⟩
          · exact Or.inl herr
          · exact Or.inr ⟨r, ⟨t, samples, rfl, hr, bytes, hwrites.2, hvisible⟩, hok⟩

theorem directDecode_outcome {ι : Type} (hd : d.Lawful) (h : canDirectDecode host e = true)
    (t : SampleType) (target : ι → Option DecodingResult) :
    OneOutcome (fun i => dec.directDecode d info host e t payload (target i))
      fun r => ∃ samples, r = .samples t samples ∧ Decoded d info oneMinus e payload t samples :=
  intoBuffer_outcome (directFill_blind hd h t) target

theorem unpacked_of_direct {format : SampleFormat} {bits : Nat} {t : SampleType}
    (h : SampleType.direct format bits = some t) : SampleType.unpacked format bits = some t := by
  unfold SampleType.direct at h
  split at h
  next => exact h
  next => exact h
  next => exact h
  next => exact h
  next => exact h
  next => exact h
  next => cases h

/-- The first bytes of two outputs of a payload. -/
theorem take_eq_of_comparable {n : Nat} {bytes bytes' : List UInt8}
    (h : bytes <+: bytes' ∨ bytes' <+: bytes) (hn : n ≤ bytes.length) (hn' : n ≤ bytes'.length) :
    bytes.take n = bytes'.take n := by
  rcases h with ⟨rest, rfl⟩ | ⟨rest, rfl⟩
  · exact (List.take_append_of_le_length hn).symm
  · exact List.take_append_of_le_length hn'

/-- Both ways see the same samples. -/
theorem decoded_unique (hd : d.Lawful) (hsame : d.Unambiguous payload)
    (h : canDirectDecode host e = true) {t : SampleType} {x y : List t.Value}
    (hx : Decoded d info oneMinus e payload t x) (hy : Decoded d info oneMinus e payload t y) :
    x = y := by
  rcases hx with ⟨bytes, hwrites, hx⟩
  rcases hy with ⟨bytes', hwrites', hy⟩
  rcases (visible_iff_run h ..).mp hx with ⟨hlen, hrun⟩
  rcases (visible_iff_run h ..).mp hy with ⟨hlen', hrun'⟩
  have hroom : ∀ {z : List t.Value} {b : List UInt8}, z.length = totalSamples e →
      rowBytes e.byteOrder t.bytes z = b.take (totalSamples e * t.bytes) →
      totalSamples e * t.bytes ≤ b.length := by
    intro z b hz hb
    have := congrArg List.length hb
    rw [length_rowBytes, hz, List.length_take] at this
    omega
  have hbytes : rowBytes e.byteOrder t.bytes x = rowBytes e.byteOrder t.bytes y := by
    rw [hrun, hrun']
    exact take_eq_of_comparable (writes_comparable hd hsame hwrites hwrites') (hroom hlen hrun)
      (hroom hlen' hrun')
  have hx' := convertSamples_rowBytes e.byteOrder (rfl : x.length = x.length)
  have hy' := convertSamples_rowBytes e.byteOrder (hlen.trans hlen'.symm : x.length = y.length)
  rw [hbytes, hy'] at hx'
  exact (Option.some.inj hx').symm

theorem decodeEncoded_outcome {ι : Type} (hd : d.Lawful) (scratch : ι → List UInt8)
    (target : ι → Option DecodingResult) :
    OneOutcome
      (fun i => ({ dec with decompScratch := scratch i } : ChunkDecoder).decodeEncoded d info
        oneMinus host e payload (target i))
      fun r => ∃ t samples, SampleType.unpacked info.sampleFormat info.bitsPerSample = some t ∧
        r = .samples t samples ∧ Decoded d info oneMinus e payload t samples := by
  cases ht : directType info host e with
  | none =>
      simp only [decodeEncoded, ht]
      exact scratchDecode_outcome hd scratch target
  | some t =>
      simp only [decodeEncoded, ht]
      unfold directType at ht
      split at ht
      next hdirect =>
        have hone := @directDecode_outcome d dec info host e payload oneMinus ι hd hdirect t target
        rcases hone with herr | ⟨r, ⟨samples, hr, hdecoded⟩, hok⟩
        · exact Or.inl herr
        · exact Or.inr ⟨r, ⟨t, samples, unpacked_of_direct ht, hr, hdecoded⟩, hok⟩
      next => cases ht

end Paths

/-! ## Every call -/

/-- A result is the chunk: the visible samples of what the payload decompresses to. -/
def IsChunk (d : Decompressors) (dec : ChunkDecoder) (oneMinus : OneMinus) (chunkIndex : Nat)
    (payload : List UInt8) (r : DecodingResult) : Prop :=
  ∃ info bounds t samples, dec.chunkInfo = some info ∧
    dec.chunkLayout.getChunkBounds chunkIndex dec.width dec.height = some bounds ∧
    SampleType.unpacked info.sampleFormat info.bitsPerSample = some t ∧
    r = .samples t samples ∧ Decoded d info oneMinus (dec.encoding info bounds) payload t samples

theorem decompressChunkFastBytes_outcome (hd : d.Lawful) (dec : ChunkDecoder)
    (oneMinus : OneMinus) (host : Host) (chunkIndex : Nat) (payload : List UInt8) :
    OneOutcome
      (fun i : List UInt8 × Option DecodingResult =>
        ({ dec with decompScratch := i.1 } : ChunkDecoder).decompressChunkFastBytes d oneMinus host
          chunkIndex payload i.2)
      (IsChunk d dec oneMinus chunkIndex payload) := by
  unfold decompressChunkFastBytes
  simp only
  cases hinfo : dec.chunkInfo with
  | none => exact Or.inl ⟨_, fun _ => rfl⟩
  | some info =>
      cases hbounds : dec.chunkLayout.getChunkBounds chunkIndex dec.width dec.height with
      | none => exact Or.inl ⟨.outOfBounds, fun _ => rfl⟩
      | some bounds =>
          rcases @decodeEncoded_outcome d dec info host (dec.encoding info bounds) payload oneMinus
            (List UInt8 × Option DecodingResult) hd Prod.fst Prod.snd with
            herr | ⟨r, ⟨t, samples, ht, hr, hdecoded⟩, hok⟩
          · exact Or.inl herr
          · exact Or.inr ⟨r, ⟨info, bounds, t, samples, hinfo, hbounds, ht, hr, hdecoded⟩, hok⟩

/-- Whatever the buffers hold, one call is like another: an error, or the chunk. And where both
ways of decoding succeed they agree, if there is only one way to inflate the payload. -/
theorem chunk_decoding_independent (hd : d.Lawful) (dec : ChunkDecoder) (oneMinus : OneMinus)
    (host : Host) (payload : List UInt8) :
    (∀ chunkIndex, OneOutcome
      (fun i : List UInt8 × Option DecodingResult =>
        ({ dec with decompScratch := i.1 } : ChunkDecoder).decompressChunkFastBytes d oneMinus host
          chunkIndex payload i.2)
      (IsChunk d dec oneMinus chunkIndex payload)) ∧
    (d.Unambiguous payload → ∀ (info : TiffChunkInfo) (e : ChunkEncoding) (t : SampleType)
      (target target' : Option DecodingResult) p p', directType info host e = some t →
        dec.directDecode d info host e t payload target = .ok p →
        dec.scratchDecode d info oneMinus host e payload target' = .ok p' →
        decoded p = decoded p') := by
  refine ⟨fun k => decompressChunkFastBytes_outcome hd dec oneMinus host k payload, ?_⟩
  intro hsame info e t target target' p p' ht hdirect hscratch
  unfold directType at ht
  split at ht
  next hcan =>
    have hone := @directDecode_outcome d dec info host e payload oneMinus Unit hd hcan t
      fun _ => target
    have hone' := @scratchDecode_outcome d dec info host e payload oneMinus Unit hd
      (fun _ => dec.decompScratch) fun _ => target'
    rcases hone with ⟨err, herr⟩ | ⟨r, ⟨x, hr, hx⟩, hok⟩
    · cases hdirect.symm.trans (herr ())
    · rcases hone' with ⟨err, herr⟩ | ⟨r', ⟨t', y, ht', hr', hy⟩, hok'⟩
      · cases hscratch.symm.trans (herr ())
      · have htype := (unpacked_of_direct ht).symm.trans ht'
        cases htype
        have h₁ : decoded p = some r :=
          Except.ok.inj ((congrArg (Except.map decoded) hdirect).symm.trans (hok ()))
        have h₂ : decoded p' = some r' :=
          Except.ok.inj ((congrArg (Except.map decoded) hscratch).symm.trans (hok' ()))
        rw [h₁, h₂, hr, hr', decoded_unique hd hsame hcan hx hy]
  next => cases ht

/-! ## A payload that is read both ways -/

section Polyglot

/-- Inflates a stream of stored blocks: the output, and what follows the stream. -/
def inflateStored : Nat → List UInt8 → Option (List UInt8 × List UInt8)
  | blocks + 1, header :: lo :: hi :: nlo :: nhi :: rest =>
      let len := lo.toNat + 256 * hi.toNat
      if header.toNat / 2 % 4 ≠ 0 ∨ nlo.toNat + 256 * nhi.toNat + len ≠ 65535 ∨ rest.length < len then
        none
      else if header.toNat % 2 = 1 then some (rest.take len, rest.drop len)
      else (inflateStored blocks (rest.drop len)).map fun p => (rest.take len ++ p.1, p.2)
  | _, _ => none

theorem inflateStored_block {blocks : Nat} {header lo hi nlo nhi : UInt8} {data rest : List UInt8}
    (htype : header.toNat / 2 % 4 = 0) (hlen : lo.toNat + 256 * hi.toNat = data.length)
    (hcheck : nlo.toNat + 256 * nhi.toNat + data.length = 65535) :
    inflateStored (blocks + 1) (header :: lo :: hi :: nlo :: nhi :: (data ++ rest)) =
      if header.toNat % 2 = 1 then some (data, rest)
      else (inflateStored blocks rest).map fun p => (data ++ p.1, p.2) := by
  have hfits : ¬ (data ++ rest).length < data.length := by
    rw [List.length_append]
    omega
  rw [inflateStored]
  simp only [htype, hlen, hcheck, hfits, ne_eq, not_true_eq_false, or_self, if_false,
    List.take_left', List.drop_left']

/-- The checksum of a zlib stream, as it is stored. -/
def adler32 (bytes : List UInt8) : List UInt8 :=
  let sums := bytes.foldl (fun (s : Nat × Nat) b =>
    ((s.1 + b.toNat) % 65521, (s.2 + (s.1 + b.toNat) % 65521) % 65521)) (1, 0)
  (Bytes.writeLe 4 (sums.2 * 65536 + sums.1)).reverse

def rawOutput (payload : List UInt8) : Option (List UInt8) :=
  (inflateStored 4 payload).map Prod.fst

def zlibOutput : List UInt8 → Option (List UInt8)
  | cmf :: flg :: body =>
      if cmf.toNat % 16 = 8 ∧ (cmf.toNat * 256 + flg.toNat) % 31 = 0 then
        (inflateStored 4 body).bind fun p =>
          if p.2.take 4 = adler32 p.1 then some p.1 else none
      else none
  | _ => none

/-- The decompressors, for payloads of a few stored blocks. -/
def stored : Decompressors where
  zlib payload n := (zlibOutput payload).filter fun out => out.length ≤ n
  deflate payload n := (rawOutput payload).filter fun out => out.length ≤ n
  State := Unit
  reset := ()
  decodeBytes _ _ _ := { state := (), consumedIn := 0, written := [], status := .ok .noProgress }

theorem stored_lawful : stored.Lawful where
  zlib payload := ⟨(zlibOutput payload).getD [], fun n written h => by
    rw [(Option.filter_eq_some_iff.mp h).1]
    exact List.prefix_rfl⟩
  deflate payload := ⟨(rawOutput payload).getD [], fun n written h => by
    rw [(Option.filter_eq_some_iff.mp h).1]
    exact List.prefix_rfl⟩
  lzw := ⟨fun _ _ _ => True, fun _ => ⟨[], trivial⟩,
    fun _ _ output n _ => ⟨Nat.zero_le n, output, rfl, trivial⟩⟩

/-- A row of an image that is not compressed. -/
def plainRow : TiffChunkInfo where
  compression := .none
  predictor := .none
  chunkType := .tile
  chunkDimensions := (2, 2)
  bitsPerSample := 8
  sampleFormat := .uint
  byteOrder := .littleEndian
  photometric := .blackIsZero

def plainDecoder : ChunkDecoder where
  chunkLayout := ⟨2, 2, 1, 1, 1⟩
  width := 2
  height := 1
  samplesPerPixel := 1
  chunkInfo := some plainRow
  libdeflater := true
  lzwDecoder := false
  decompScratch := [7]

def plainEncoding : ChunkEncoding := plainDecoder.encoding plainRow ⟨0, 0, 2, 1⟩

theorem chunk_decoding_independent_plain :
    OneOutcome
      (fun i : List UInt8 × Option DecodingResult =>
        ({ plainDecoder with decompScratch := i.1 } : ChunkDecoder).decompressChunkFastBytes stored
          ⟨id, id⟩ .littleEndian 0 [1, 2, 3, 4] i.2)
      (IsChunk stored plainDecoder ⟨id, id⟩ 0 [1, 2, 3, 4]) ∧
    (plainDecoder.directDecode stored plainRow .littleEndian plainEncoding (.int .u8) [1, 2, 3, 4]
        none).map decoded =
      (plainDecoder.scratchDecode stored plainRow ⟨id, id⟩ .littleEndian plainEncoding [1, 2, 3, 4]
        none).map decoded := by
  have hboth := chunk_decoding_independent stored_lawful plainDecoder ⟨id, id⟩ .littleEndian
    [1, 2, 3, 4]
  have hone : stored.Unambiguous [1, 2, 3, 4] := by
    intro n m written written' h
    cases h
  exact ⟨hboth.1 0, congrArg Except.ok
    (hboth.2 hone plainRow plainEncoding (.int .u8) none none _ _ rfl rfl rfl)⟩

/-- 65534 bytes that begin with the rest of a raw stream. -/
def block : List UInt8 :=
  15 :: 0 :: 240 :: 255 :: (List.replicate 15 7 ++ 1 :: 0 :: 0 :: 255 :: 255 ::
    ([] ++ List.replicate 65510 0))

/-- As a zlib stream this is `block` and two zeros, the bytes of 4096 rows of 16. As a raw
stream it is a byte 1 and 15 bytes 7. -/
def polyglot : List UInt8 :=
  0x78 :: 0x01 :: 0x00 :: 0xfe :: 0xff :: 0x01 :: 0x00 ::
    (block ++ 1 :: 2 :: 0 :: 0xfd :: 0xff :: ([0, 0] ++ adler32 (block ++ [0, 0])))

theorem length_block : block.length = 65534 := by
  have hend : ∀ zeros : List UInt8, (15 :: 0 :: 240 :: 255 :: (List.replicate 15 7 ++
      1 :: 0 :: 0 :: 255 :: 255 :: ([] ++ zeros))).length = zeros.length + 24 := by
    intro zeros
    simp only [List.length_cons, List.length_append, List.length_replicate, List.length_nil]
    omega
  rw [block, hend, List.length_replicate]

/-- A zlib stream of two stored blocks. -/
theorem zlibOutput_blocks {data : List UInt8} (hdata : data.length = 65534) :
    zlibOutput (0x78 :: 0x01 :: 0x00 :: 0xfe :: 0xff :: 0x01 :: 0x00 ::
      (data ++ 1 :: 2 :: 0 :: 0xfd :: 0xff :: ([0, 0] ++ adler32 (data ++ [0, 0])))) =
        some (data ++ [0, 0]) := by
  have hlast := @inflateStored_block 2 1 2 0 0xfd 0xff [0, 0] (adler32 (data ++ [0, 0]))
    (by decide) (by decide) (by decide)
  have hfirst := @inflateStored_block 3 0x00 0xfe 0xff 0x01 0x00 data
    (1 :: 2 :: 0 :: 0xfd :: 0xff :: ([0, 0] ++ adler32 (data ++ [0, 0])))
    (by decide) (by rw [hdata]; rfl) (by rw [hdata]; rfl)
  rw [hlast] at hfirst
  have htrailer : (adler32 (data ++ [0, 0])).take 4 = adler32 (data ++ [0, 0]) := by
    refine List.take_of_length_le ?_
    rw [adler32, List.length_reverse, Bytes.length_writeLe]
  rw [zlibOutput, if_pos (by decide), hfirst]
  simp only [if_neg (show ¬ (0x00 : UInt8).toNat % 2 = 1 by decide),
    if_pos (show (1 : UInt8).toNat % 2 = 1 by decide), Option.map_some, Option.bind_some, htrailer,
    if_true]

theorem zlibOutput_polyglot : zlibOutput polyglot = some (block ++ [0, 0]) :=
  zlibOutput_blocks length_block

theorem rawOutput_polyglot : rawOutput polyglot = some (1 :: List.replicate 15 7) := by
  have hshape : ∃ rest, polyglot = 0x78 :: 0x01 :: 0x00 :: 0xfe :: 0xff :: ([0x01] ++
      0x00 :: 15 :: 0 :: 240 :: 255 :: (List.replicate 15 7 ++
        1 :: 0 :: 0 :: 255 :: 255 :: ([] ++ rest))) := by
    refine ⟨List.replicate 65510 0 ++
      1 :: 2 :: 0 :: 0xfd :: 0xff :: ([0, 0] ++ adler32 (block ++ [0, 0])), ?_⟩
    simp only [polyglot, block, List.cons_append, List.append_assoc, List.nil_append]
  rcases hshape with ⟨rest, hshape⟩
  have hlast := @inflateStored_block 1 1 0 0 255 255 [] rest
    (by decide) (by decide) (by decide)
  have hmiddle := @inflateStored_block 2 0 15 0 240 255 (List.replicate 15 7)
    (1 :: 0 :: 0 :: 255 :: 255 :: ([] ++ rest)) (by decide) (by decide) (by decide)
  have hfirst := @inflateStored_block 3 0x78 0x01 0x00 0xfe 0xff [0x01]
    (0x00 :: 15 :: 0 :: 240 :: 255 :: (List.replicate 15 7 ++
      1 :: 0 :: 0 :: 255 :: 255 :: ([] ++ rest))) (by decide) (by decide) (by decide)
  rw [hlast] at hmiddle
  rw [hmiddle] at hfirst
  rw [rawOutput, hshape, hfirst]
  rfl

/-- The tile of an image of one row. -/
def oneRow : TiffChunkInfo where
  compression := .deflate
  predictor := .none
  chunkType := .tile
  chunkDimensions := (16, 4096)
  bitsPerSample := 8
  sampleFormat := .uint
  byteOrder := .littleEndian
  photometric := .blackIsZero

def oneRowDecoder : ChunkDecoder where
  chunkLayout := ⟨16, 4096, 1, 1, 1⟩
  width := 16
  height := 1
  samplesPerPixel := 1
  chunkInfo := some oneRow
  libdeflater := true
  lzwDecoder := false
  decompScratch := []

def rowEncoding : ChunkEncoding := oneRowDecoder.encoding oneRow ⟨0, 0, 16, 1⟩

theorem length_zlibOutput : (block ++ [(0 : UInt8), 0]).length = 65536 := by
  rw [List.length_append, length_block]
  rfl

theorem take_block :
    (block ++ [(0 : UInt8), 0]).take 16 = 15 :: 0 :: 240 :: 255 :: List.replicate 12 7 := by
  simp only [block, List.cons_append, List.append_assoc, List.take_succ_cons]
  rw [List.take_append_of_le_length (by decide)]
  rfl

theorem intoBuffer_fresh {t : SampleType} {n : Nat}
    {fill : List t.Value → Except UnpackError (List t.Value)} {v : List t.Value}
    (h : fill (List.replicate n 0) = .ok v) :
    intoBuffer t n fill none = .ok (none, some (.samples t v)) := by
  unfold intoBuffer
  simp only [DecodingResult.matching]
  rw [h]
  rfl

/-- The first row of a tile whose zlib stream does not fit in it. -/
theorem oneRow_direct {payload : List UInt8} (hzlib : d.zlib payload 16 = none)
    (hraw : d.deflate payload 16 = some (1 :: List.replicate 15 7)) :
    oneRowDecoder.directDecode d oneRow .littleEndian rowEncoding (.int .u8) payload none =
      .ok (none, some (.samples (.int .u8) (1 :: List.replicate 15 7))) := by
  have hdecode : oneRowDecoder.decodeBytes d oneRow payload
      (memoryBytes .littleEndian (List.replicate 16 (0 : TiffSample.u8.Value))) =
        .ok (1 :: List.replicate 15 7) := by
    show fillExactly ((d.zlib payload 16).or (d.deflate payload 16)) _ = _
    rw [hzlib, hraw]
    rfl
  refine intoBuffer_fresh ?_
  refine (congrArg (· >>= fun b => inBounds (copySamples .littleEndian b
    (List.replicate 16 (0 : TiffSample.u8.Value)))) hdecode).trans ?_
  rfl

/-- The same row, taken out of the whole tile. -/
theorem oneRow_scratch (oneMinus : OneMinus) {payload out : List UInt8}
    (hzlib : d.zlib payload 65536 = some out) (hlen : out.length = 65536)
    (hrow : out.take 16 = 15 :: 0 :: 240 :: 255 :: List.replicate 12 7) :
    oneRowDecoder.scratchDecode d oneRow oneMinus .littleEndian rowEncoding payload none =
      .ok (none, some (.samples (.int .u8) (15 :: 0 :: 240 :: 255 :: List.replicate 12 7))) := by
  have hdecode : ∀ scratch : List UInt8, scratch.length = 65536 →
      oneRowDecoder.decodeBytes d oneRow payload scratch = .ok out := by
    intro scratch hscratch
    show fillExactly ((d.zlib payload scratch.length).or _) scratch = _
    rw [hscratch, hzlib, Option.some_or, fillExactly, if_neg (by rw [hlen, hscratch]; decide),
      overwrite_of_length (hlen.trans hscratch.symm)]
  have hunpack : unpackIntegerSamples .u8 .littleEndian out (List.replicate 16 0) rowEncoding =
      .ok (15 :: 0 :: 240 :: 255 :: List.replicate 12 7) := by
    rw [@unpackIntegerSamples_eq .u8 .littleEndian rowEncoding out (List.replicate 16 0)
      fun _ => 15 :: 0 :: 240 :: 255 :: List.replicate 12 7]
    · rfl
    · rw [hlen]
      rfl
    · intro r _
      rfl
    · intro r hr
      have hzero : r = 0 := Nat.lt_one_iff.mp hr
      subst hzero
      show (out.drop (0 * _)).take 16 = _
      rw [Nat.zero_mul, List.drop_zero, hrow]
      rfl
  unfold scratchDecode
  have hraw : rawChunkBytes oneRow rowEncoding = 65536 := rfl
  simp only [hraw]
  rw [if_pos (by decide), hdecode _ (by rw [List.length_take, length_resize, Nat.min_self])]
  exact intoBuffer_fresh hunpack

theorem stored_zlib (payload : List UInt8) (n : Nat) :
    stored.zlib payload n = (zlibOutput payload).filter fun out => out.length ≤ n := rfl

theorem stored_deflate (payload : List UInt8) (n : Nat) :
    stored.deflate payload n = (rawOutput payload).filter fun out => out.length ≤ n := rfl

/-- A chunk with one row: the zlib stream is too long for the row, and the raw one fits. -/
theorem chunk_inflates_two_ways :
    ¬ ∀ d : Decompressors, d.Lawful → ∀ (dec : ChunkDecoder) (oneMinus : OneMinus) (host : Host)
      (payload : List UInt8) (info : TiffChunkInfo) (bounds : RasterChunk) (t : SampleType)
      (target target' : Option DecodingResult) p p', dec.chunkInfo = some info →
        dec.chunkLayout.getChunkBounds 0 dec.width dec.height = some bounds →
        directType info host (dec.encoding info bounds) = some t →
        dec.directDecode d info host (dec.encoding info bounds) t payload target = .ok p →
        dec.scratchDecode d info oneMinus host (dec.encoding info bounds) payload target' =
          .ok p' →
        decoded p = decoded p' := by
  intro hclaim
  have hshort : stored.zlib polyglot 16 = none := by
    rw [stored_zlib, zlibOutput_polyglot, Option.filter_some, length_zlibOutput]
    exact if_neg (by decide)
  have hlong : stored.zlib polyglot 65536 = some (block ++ [0, 0]) := by
    rw [stored_zlib, zlibOutput_polyglot, Option.filter_some, length_zlibOutput]
    exact if_pos (by decide)
  have hraw : stored.deflate polyglot 16 = some (1 :: List.replicate 15 7) := by
    rw [stored_deflate, rawOutput_polyglot, Option.filter_some]
    exact if_pos (by decide)
  have hsame := hclaim stored stored_lawful oneRowDecoder ⟨id, id⟩ .littleEndian polyglot oneRow
    ⟨0, 0, 16, 1⟩ (.int .u8) none none _ _ rfl rfl rfl (oneRow_direct hshort hraw)
    (oneRow_scratch ⟨id, id⟩ hlong length_zlibOutput take_block)
  cases hsame

end Polyglot

end RasterH3.Raster
