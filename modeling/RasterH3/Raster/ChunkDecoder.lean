import RasterH3.Raster.ChunkGrid
import RasterH3.Raster.Predictor

/-!
# Decoding a chunk

A payload is decompressed into the bytes of a tile or strip, and these are unpacked into the
samples of the part that lies in the image. Where the bytes of the visible rows already are
the samples, they are decompressed straight into the result. Both ways write into a buffer
that may hold an earlier chunk: the caller's, if it is of the right type, and the scratch of
the decoder.

The decompressors are parameters. They are handed the payload and the room there is, and
answer with the bytes they have written. The sizes are those of buffers that exist, so they
do not overflow. What is left in the scratch is not part of the result.
-/

namespace RasterH3.Raster

/-! ## Types -/

inductive CompressionMethod where
  | none
  | lzw
  | deflate
  | oldDeflate
  | other (code : Nat)
  deriving DecidableEq, Repr

inductive SampleFormat where
  | uint
  | int
  | ieeefp
  | other (code : Nat)
  deriving DecidableEq, Repr

inductive ChunkType where
  | strip
  | tile
  deriving DecidableEq, Repr

/-- The fields that decoding reads. -/
structure TiffChunkInfo where
  compression : CompressionMethod
  predictor : Predictor
  chunkType : ChunkType
  chunkDimensions : Nat × Nat
  bitsPerSample : Nat
  sampleFormat : SampleFormat
  byteOrder : TiffByteOrder
  photometric : PhotometricInterpretation

/-- The types of the samples that the fast path decodes. -/
inductive SampleType where
  | int (t : TiffSample)
  | f32
  | f64
  deriving DecidableEq, Repr

namespace SampleType

def bytes : SampleType → Nat
  | int t => t.bytes
  | f32 => 4
  | f64 => 8

abbrev Value (t : SampleType) : Type := BitVec (8 * t.bytes)

/-- The types that can be decoded in place. -/
def direct : SampleFormat → Nat → Option SampleType
  | .int, 16 => some (int .i16)
  | .uint, 16 => some (int .u16)
  | .ieeefp, 32 => some f32
  | .uint, 8 => some (int .u8)
  | .uint, 32 => some (int .u32)
  | .int, 32 => some (int .i32)
  | _, _ => none

def unpacked : SampleFormat → Nat → Option SampleType
  | .uint, 8 => some (int .u8)
  | .uint, 16 => some (int .u16)
  | .uint, 32 => some (int .u32)
  | .uint, 64 => some (int .u64)
  | .int, 8 => some (int .i8)
  | .int, 16 => some (int .i16)
  | .int, 32 => some (int .i32)
  | .int, 64 => some (int .i64)
  | .ieeefp, 32 => some f32
  | .ieeefp, 64 => some f64
  | _, _ => none

end SampleType

/-- A buffer of samples. A decoder never makes one of half floats, but may be handed it. -/
inductive DecodingResult where
  | samples (t : SampleType) (values : List t.Value)
  | f16 (values : List (BitVec 16))

namespace DecodingResult

/-- The samples of a target buffer, if it is of type `t`. -/
def matching (t : SampleType) : Option DecodingResult → Option (List t.Value)
  | some (samples t' values) => if h : t' = t then some (h ▸ values) else none
  | _ => none

end DecodingResult

/-! ## Decompressors -/

inductive LzwStatus where
  | ok
  | noProgress
  | done
  deriving DecidableEq, Repr

structure LzwResult (State : Type) where
  state : State
  consumedIn : Nat
  written : List UInt8
  status : Except String LzwStatus

structure Decompressors where
  /-- `zlib_decompress` and `deflate_decompress`, of a payload and the length of the output. -/
  zlib : List UInt8 → Nat → Option (List UInt8)
  deflate : List UInt8 → Nat → Option (List UInt8)
  State : Type
  /-- The state after `reset`. -/
  reset : State
  /-- `decode_bytes`. -/
  decodeBytes : State → List UInt8 → Nat → LzwResult State

variable (d : Decompressors)

/-- The loop around `decode_bytes`, with room for so many more bytes: what it has written, and
the room that is left. -/
def lzwLoop (s : d.State) (inp : List UInt8) (room : Nat) :
    Except UnpackError (List UInt8 × Nat) :=
  if _h : inp = [] ∨ room = 0 then .ok ([], room)
  else
    let res := d.decodeBytes s inp room
    let left := room - res.written.length
    match res.status with
    | .error e => .error (.invalidMetadata ("lzw error: " ++ e))
    | .ok .done | .ok .noProgress => .ok (res.written, left)
    | .ok .ok =>
        if _hstop : res.consumedIn = 0 ∧ res.written = [] then .ok (res.written, left)
        else
          match lzwLoop res.state (inp.drop res.consumedIn) left with
          | .error e => .error e
          | .ok (written, left) => .ok (res.written ++ written, left)
termination_by inp.length + room
decreasing_by
  rcases not_or.mp _h with ⟨hinp, hroom⟩
  have h₁ := List.length_pos_of_ne_nil hinp
  have h₂ : 0 < (d.decodeBytes s inp room).consumedIn ∨
      0 < (d.decodeBytes s inp room).written.length := by
    rcases Nat.eq_zero_or_pos (d.decodeBytes s inp room).consumedIn with h₀ | h₀
    · exact Or.inr (List.length_pos_of_ne_nil fun hw => _hstop ⟨h₀, hw⟩)
    · exact Or.inl h₀
  simp only [List.length_drop]
  omega

/-- The buffer after bytes are written to its front. -/
def overwrite (written out : List UInt8) : List UInt8 := written ++ out.drop written.length

/-- A chunk that decompresses short would leave old bytes in the tail of the buffer. -/
def fillExactly (written : Option (List UInt8)) (out : List UInt8) :
    Except UnpackError (List UInt8) :=
  match written with
  | none => .error (.invalidMetadata "decompress failed")
  | some written =>
      if written.length ≠ out.length then
        .error (.invalidMetadata "deflate chunk did not fill its declared layout")
      else .ok (overwrite written out)

/-- `libdeflater` and `lzw` say which of the decompressors the decoder was opened with. -/
def decodeChunkBytesInto (libdeflater lzw : Bool) (compression : CompressionMethod)
    (compressed out : List UInt8) : Except UnpackError (List UInt8) :=
  match compression with
  | .none =>
      if out.length ≤ compressed.length then .ok (compressed.take out.length)
      else .error (.invalidMetadata "uncompressed chunk shorter than its declared layout")
  | .deflate | .oldDeflate =>
      if ¬ libdeflater then .error (.invalidMetadata "no decompressor")
      else
        fillExactly ((d.zlib compressed out.length).or (d.deflate compressed out.length)) out
  | .lzw =>
      if ¬ lzw then .error (.invalidMetadata "no lzw decompressor")
      else do
        let (written, left) ← lzwLoop d d.reset compressed out.length
        if left ≠ 0 then .error (.invalidMetadata "lzw chunk did not fill buffer")
        else return overwrite written out
  | .other _ => .error (.invalidMetadata "unsupported fast compression")

/-! ## Chunks -/

/-- `1.0 - x` on the bits of a float. -/
structure OneMinus where
  f32 : BitVec (8 * 4) → BitVec (8 * 4)
  f64 : BitVec (8 * 8) → BitVec (8 * 8)

structure ChunkDecoder where
  chunkLayout : ChunkLayout
  width : Nat
  height : Nat
  samplesPerPixel : Nat
  chunkInfo : Option TiffChunkInfo
  libdeflater : Bool
  lzwDecoder : Bool
  decompScratch : List UInt8

/-- `Vec::resize`. -/
def resize {α : Type} (l : List α) (n : Nat) (value : α) : List α :=
  l.take n ++ List.replicate (n - l.length) value

/-- The bytes that the samples of a buffer take in memory. -/
def memoryBytes {k : Nat} (host : Host) (v : List (BitVec (8 * k))) : List UInt8 :=
  v.flatMap fun x =>
    match host.byteOrder with
    | .littleEndian => Bytes.writeLe k x.toNat
    | .bigEndian => (Bytes.writeLe k x.toNat).reverse

/-- Fills the target buffer, if there is one of type `t`, or a new one: the target afterwards,
and what is returned. -/
def intoBuffer (t : SampleType) (totalSamples : Nat)
    (fill : List t.Value → Except UnpackError (List t.Value)) (target : Option DecodingResult) :
    Except UnpackError (Option DecodingResult × Option DecodingResult) :=
  match DecodingResult.matching t target with
  | some v => do
      let v ← fill (resize v totalSamples 0)
      return (some (.samples t v), none)
  | none => do
      let v ← fill (List.replicate totalSamples 0)
      return (target, some (.samples t v))

def unpackSamples (oneMinus : OneMinus) (host : Host) (src : List UInt8) (e : ChunkEncoding) :
    (t : SampleType) → List t.Value → Except UnpackError (List t.Value)
  | .int t => fun dst => unpackIntegerSamples t host src dst e
  | .f32 => fun dst => unpackF32 oneMinus.f32 host src dst e
  | .f64 => fun dst => unpackF64 oneMinus.f64 host src dst e

namespace ChunkDecoder

variable (dec : ChunkDecoder) (info : TiffChunkInfo)

/-- How a chunk of the decoder is encoded, where `bounds` is the part in the image. -/
def encoding (bounds : RasterChunk) : ChunkEncoding where
  tileW := info.chunkDimensions.1
  dataW := bounds.width
  dataH := bounds.height
  spp := max dec.samplesPerPixel 1
  byteOrder := info.byteOrder
  predictor := info.predictor
  photometric := info.photometric

def rawChunkBytes (e : ChunkEncoding) : Nat :=
  let byteLen := max (info.bitsPerSample / 8) 1
  match info.chunkType with
  | .tile => e.tileW * info.chunkDimensions.2 * e.spp * byteLen
  | .strip => e.tileW * e.dataH * e.spp * byteLen

def totalSamples (e : ChunkEncoding) : Nat := e.dataW * e.dataH * e.spp

/-- The visible bytes are the samples, in the order of this machine. -/
def canDirectDecode (host : Host) (e : ChunkEncoding) : Bool :=
  e.tileW = e.dataW ∧ e.predictor = .none ∧ e.byteOrder = host.byteOrder ∧
    e.photometric ≠ .whiteIsZero

def decodeBytes (compressed out : List UInt8) : Except UnpackError (List UInt8) :=
  decodeChunkBytesInto d dec.libdeflater dec.lzwDecoder info.compression compressed out

/-- `direct_decode!`: into the memory of the result. -/
def directDecode (host : Host) (e : ChunkEncoding) (t : SampleType) (compressed : List UInt8)
    (target : Option DecodingResult) :
    Except UnpackError (Option DecodingResult × Option DecodingResult) :=
  intoBuffer t (totalSamples e) (fun v => do
    let b ← dec.decodeBytes d info compressed (memoryBytes host v)
    inBounds (copySamples host b v)) target

/-- Into the scratch, and unpacked from there. -/
def scratchDecode (oneMinus : OneMinus) (host : Host) (e : ChunkEncoding)
    (compressed : List UInt8) (target : Option DecodingResult) :
    Except UnpackError (Option DecodingResult × Option DecodingResult) := do
  let raw := rawChunkBytes info e
  let scratch :=
    if dec.decompScratch.length < raw then resize dec.decompScratch raw 0 else dec.decompScratch
  let decomp ← dec.decodeBytes d info compressed (scratch.take raw)
  match SampleType.unpacked info.sampleFormat info.bitsPerSample with
  | none => .error (.invalidMetadata "unsupported format")
  | some t => intoBuffer t (totalSamples e) (unpackSamples oneMinus host decomp e t) target

/-- The type to decode in place, where that can be done. -/
def directType (host : Host) (e : ChunkEncoding) : Option SampleType :=
  if canDirectDecode host e then SampleType.direct info.sampleFormat info.bitsPerSample else none

def decodeEncoded (oneMinus : OneMinus) (host : Host) (e : ChunkEncoding)
    (compressed : List UInt8) (target : Option DecodingResult) :
    Except UnpackError (Option DecodingResult × Option DecodingResult) :=
  match directType info host e with
  | some t => dec.directDecode d info host e t compressed target
  | none => dec.scratchDecode d info oneMinus host e compressed target

def decompressChunkFastBytes (oneMinus : OneMinus) (host : Host) (chunkIndex : Nat)
    (compressed : List UInt8) (target : Option DecodingResult) :
    Except UnpackError (Option DecodingResult × Option DecodingResult) :=
  match dec.chunkInfo with
  | none => .error (.invalidMetadata "no chunk info")
  | some info => do
      let bounds ← inBounds (dec.chunkLayout.getChunkBounds chunkIndex dec.width dec.height)
      dec.decodeEncoded d info oneMinus host (dec.encoding info bounds) compressed target

/-- What the caller goes on with: the buffer that is returned, or the target. -/
def decoded (p : Option DecodingResult × Option DecodingResult) : Option DecodingResult :=
  p.2.or p.1

end ChunkDecoder

end RasterH3.Raster
