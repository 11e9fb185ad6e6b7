import Mathlib.Data.BitVec
import Mathlib.Data.UInt
import RasterH3.Lib.Bytes
import RasterH3.Lib.Checked
import RasterH3.Lib.Loops

/-!
# TIFF predictors

A decompressed chunk is unpacked row by row: bytes become samples, a predictor is
undone, and a photometric inversion may follow. A tile at the edge of the image is
wider than the part of it that is data, so the rows of the source are further apart
than the rows of the result.

Samples are bit patterns. The only floating-point operation, `1.0 - x`, is the
parameter `oneMinus`. Every access is checked here: `outOfBounds` is the answer where
the code would panic, or read or write past a buffer.

What the code decides when it is compiled is a parameter, the `Host`. The NEON kernels
work on vectors, lists of lanes here, and write the memory of a little-endian machine.
-/

namespace RasterH3.Raster

open Loops

/-! ## Encodings -/

inductive TiffByteOrder where
  | littleEndian
  | bigEndian
  deriving DecidableEq, Repr

inductive Predictor where
  | none
  | horizontal
  | floatingPoint
  deriving DecidableEq, Repr

inductive PhotometricInterpretation where
  | whiteIsZero
  | blackIsZero
  | rgb
  | rgbPalette
  | transparencyMask
  | cmyk
  | yCbCr
  | cieLab
  deriving DecidableEq, Repr

/-- `target_arch` and `target_endian`. -/
inductive Host where
  | littleEndian
  | bigEndian
  | aarch64
  deriving DecidableEq, Repr

def Host.byteOrder : Host → TiffByteOrder
  | littleEndian => .littleEndian
  | bigEndian => .bigEndian
  | aarch64 => .littleEndian

/-- Layout and encoding of one decompressed chunk. -/
structure ChunkEncoding where
  tileW : Nat
  dataW : Nat
  dataH : Nat
  spp : Nat
  byteOrder : TiffByteOrder
  predictor : Predictor
  photometric : PhotometricInterpretation

inductive UnpackError where
  | invalidMetadata (what : String)
  | outOfBounds
  deriving DecidableEq, Repr

def inBounds {α : Type} : Option α → Except UnpackError α
  | none => .error .outOfBounds
  | some a => .ok a

namespace ChunkEncoding

/-- The bytes the source must have and the samples the destination must hold, where
neither overflows. -/
def extent (e : ChunkEncoding) (sampleBytes : Nat) : Option (Nat × Nat) := do
  let tileSamples ← Checked.mul 64 e.tileW e.spp
  let srcStride ← Checked.mul 64 tileSamples sampleBytes
  let dstStride ← Checked.mul 64 e.dataW e.spp
  let dstBytes ← Checked.mul 64 dstStride sampleBytes
  let samples ← Checked.mul 64 dstStride e.dataH
  -- All byte planes are needed, including the padding in the last row.
  let lastRow := if e.predictor = .floatingPoint then srcStride else dstBytes
  let above ← Checked.mul 64 srcStride (e.dataH - 1)
  let required ← Checked.add 64 above lastRow
  return (required, samples)

def invalidLayout : UnpackError :=
  .invalidMetadata "invalid or truncated decoded TIFF chunk layout"

def validate (e : ChunkEncoding) (srcLen dstLen sampleBytes : Nat) : Except UnpackError Unit :=
  if e.spp = 0 ∨ e.dataW = 0 ∨ e.dataH = 0 ∨ e.tileW < e.dataW then .error invalidLayout
  else
    match e.extent sampleBytes with
    | none => .error invalidLayout
    | some (required, samples) =>
        if srcLen < required ∨ dstLen < samples then .error invalidLayout else .ok ()

end ChunkEncoding

/-! ## Bytes and samples -/

/-- `from_le_bytes`, of as many bytes as a sample has. -/
def fromLeBytes (k : Nat) (bytes : List UInt8) : Option (BitVec (8 * k)) :=
  match Bytes.readLe k bytes with
  | some (n, []) => some (BitVec.ofNat (8 * k) n)
  | _ => none

def fromBeBytes (k : Nat) (bytes : List UInt8) : Option (BitVec (8 * k)) :=
  fromLeBytes k bytes.reverse

def fromBytes (order : TiffByteOrder) (k : Nat) (bytes : List UInt8) : Option (BitVec (8 * k)) :=
  match order with
  | .littleEndian => fromLeBytes k bytes
  | .bigEndian => fromBeBytes k bytes

/-- Every sample of `d` is assigned from its bytes in `s`. -/
def convertSamples {k : Nat} (order : TiffByteOrder) (s : List UInt8) (d : List (BitVec (8 * k))) :
    Option (List (BitVec (8 * k))) :=
  fillEach d.length fun i => do
    let bytes ← slice s (i * k) (i * k + k)
    fromBytes order k bytes

/-- `copy_nonoverlapping` of the bytes of `s` over the samples of `d`. -/
def copySamples {k : Nat} (host : Host) (s : List UInt8) (d : List (BitVec (8 * k))) :
    Option (List (BitVec (8 * k))) :=
  if s.length = d.length * k then convertSamples host.byteOrder s d else none

/-! ## Horizontal differencing -/

section Horizontal

variable {α : Type} [AddCommGroup α]

/-- `for col in from..row.len()`, with the sample `spp` places before. -/
def addFrom (start spp : Nat) (row : List α) : Option (List α) :=
  forRange start row.length (fun col row => do
    let a ← row[col]?
    let b ← row[col - spp]?
    store row col (a + b)) row

def applyHorizontalPredictor (dataW dataH spp : Nat) (data : List α) : Option (List α) :=
  let stride := dataW * spp
  forRange 0 dataH
    (fun r data => onSlice data (r * stride) ((r + 1) * stride) (addFrom spp spp)) data

/-- `vextq`: as many lanes as `a` has, from lane `n` of `a` on. -/
def vext (a b : List α) (n : Nat) : List α := ((a ++ b).drop n).take a.length

def vadd (a b : List α) : List α := List.zipWith (· + ·) a b

def vdup (lanes : Nat) (a : α) : List α := List.replicate lanes a

def vld1 (lanes : Nat) (l : List α) (offset : Nat) : Option (List α) :=
  slice l offset (offset + lanes)

def vst1 (l : List α) (offset : Nat) (v : List α) : Option (List α) :=
  onSlice l offset (offset + v.length) fun _ => some v

/-- A vector is shifted by the numbers in `steps`, one after the other, and added to
itself. The lane that `vext` starts at is the number of lanes less the step. -/
def scanVector (lanes : Nat) (steps : List Nat) (v : List α) : List α :=
  steps.foldl (fun v step => vadd v (vext (vdup lanes 0) v (lanes - step))) v

/-- One turn of the vector loop, on the row and the carry. -/
def scanBlock (lanes : Nat) (steps : List Nat) (i : Nat) (s : List α × α) :
    Option (List α × α) := do
  let offset := i * lanes
  let v ← vld1 lanes s.1 offset
  let v := vadd (scanVector lanes steps v) (vdup lanes s.2)
  let row ← vst1 s.1 offset v
  let prevCarry ← v[lanes - 1]?
  return (row, prevCarry)

/-- The vector loop and the tail of a row of single samples. -/
def scanRow (lanes : Nat) (steps : List Nat) (row : List α) : Option (List α) := do
  let chunks := row.length / lanes
  let s ← forRange 0 chunks (scanBlock lanes steps) (row, 0)
  addFrom (max (chunks * lanes) 1) 1 s.1

def revHpredictNeonU8Spp1 (input : List α) : Option (List α) := scanRow 16 [1, 2, 4, 8] input

def applyHorizontalPredictorU8 (host : Host) (dataW dataH spp : Nat) (data : List α) :
    Option (List α) :=
  if spp = 1 ∧ host = .aarch64 then
    forRange 0 dataH
      (fun r data => onSlice data (r * dataW) ((r + 1) * dataW) revHpredictNeonU8Spp1) data
  else applyHorizontalPredictor dataW dataH spp data

def applyHorizontalPredictorU16 (host : Host) (dataW dataH spp : Nat) (data : List α) :
    Option (List α) :=
  if spp = 1 ∧ host = .aarch64 then
    forRange 0 dataH
      (fun r data => onSlice data (r * dataW) ((r + 1) * dataW) (scanRow 8 [1, 2, 4])) data
  else applyHorizontalPredictor dataW dataH spp data

end Horizontal

/-! ## Integer samples -/

inductive TiffSample where
  | u8
  | i8
  | u16
  | i16
  | u32
  | i32
  | u64
  | i64
  deriving DecidableEq, Repr

namespace TiffSample

def bytes : TiffSample → Nat
  | u8 | i8 => 1
  | u16 | i16 => 2
  | u32 | i32 => 4
  | u64 | i64 => 8

abbrev Value (t : TiffSample) : Type := BitVec (8 * t.bytes)

/-- Signed samples stay as they are. -/
def invertWhiteIsZero (t : TiffSample) (x : t.Value) : t.Value :=
  match t with
  | u8 => 255 - x
  | u16 => 65535 - x
  | u32 => BitVec.allOnes _ - x
  | u64 => BitVec.allOnes _ - x
  | i8 | i16 | i32 | i64 => x

def applyPredictor (t : TiffSample) (host : Host) (dataW dataH spp : Nat) (data : List t.Value) :
    Option (List t.Value) :=
  match t with
  | u8 => applyHorizontalPredictorU8 host dataW dataH spp data
  | u16 => applyHorizontalPredictorU16 host dataW dataH spp data
  | i8 | i16 | u32 | i32 | u64 | i64 => applyHorizontalPredictor dataW dataH spp data

end TiffSample

/-- The bytes of the rows become samples: in one piece, in rows of bytes, or sample by
sample. -/
def unpackRows {k : Nat} (host : Host) (src : List UInt8) (dst : List (BitVec (8 * k)))
    (e : ChunkEncoding) (isNativeEndian : Bool) : Option (List (BitVec (8 * k))) :=
  let srcStrideBytes := e.tileW * e.spp * k
  let dstStride := e.dataW * e.spp
  let dstStrideBytes := dstStride * k
  if isNativeEndian then
    if srcStrideBytes = dstStrideBytes then do
      let totalSamples := e.dataW * e.dataH * e.spp
      let s ← slice src 0 (totalSamples * k)
      onSlice dst 0 totalSamples (copySamples host s)
    else
      forRange 0 e.dataH (fun r dst =>
        onSlice dst (r * dstStride) ((r + 1) * dstStride) fun d => do
          let s ← slice src (r * srcStrideBytes) (r * srcStrideBytes + dstStrideBytes)
          copySamples host s d) dst
  else
    forRange 0 e.dataH (fun r dst =>
      onSlice dst (r * dstStride) ((r + 1) * dstStride) fun d => do
        let s ← slice src (r * srcStrideBytes) (r * srcStrideBytes + dstStrideBytes)
        convertSamples e.byteOrder s d) dst

def unpackIntegerSamples (t : TiffSample) (host : Host) (src : List UInt8) (dst : List t.Value)
    (e : ChunkEncoding) : Except UnpackError (List t.Value) := do
  e.validate src.length dst.length t.bytes
  let isNativeEndian := t.bytes = 1 ∨ e.byteOrder = host.byteOrder
  let dst ← inBounds (unpackRows host src dst e isNativeEndian)
  let dst ← if e.predictor = .horizontal then
      inBounds (t.applyPredictor host e.dataW e.dataH e.spp dst)
    else pure dst
  if e.photometric = .whiteIsZero then return dst.map t.invertWhiteIsZero else return dst

/-! ## Floating-point samples -/

/-- The sample whose big-endian bytes are at `i` in the planes of `input`. -/
def planeSample (k : Nat) (input : List UInt8) (i : Nat) : Option (BitVec (8 * k)) := do
  let plane := input.length / k
  let bytes ← fillEach k fun b => input[plane * b + i]?
  fromBeBytes k bytes

/-- `fp_predict_f32` and `fp_predict_f64`. -/
def fpPredict {k : Nat} (spp : Nat) (input : List UInt8) (output : List (BitVec (8 * k))) :
    Option (List (BitVec (8 * k))) := do
  let input ← addFrom spp spp input
  fillEach output.length (planeSample k input)

/-- `vst4q`: lane by lane, one byte of each vector. -/
def vst4 (v0 v1 v2 v3 : List UInt8) : List UInt8 :=
  (List.range 16).flatMap fun i => [v0.getD i 0, v1.getD i 0, v2.getD i 0, v3.getD i 0]

/-- The byte at `p` of `vzip1q` (`half = 0`) or `vzip2q` (`half = 1`) of vectors of
16 bytes in lanes of `size` bytes: the lanes of one half of `a` and `b` take turns. -/
def vzip (half size : Nat) (a b : List UInt8) : List UInt8 :=
  (List.range 16).map fun p =>
    (if p / size % 2 = 0 then a else b).getD
      ((half * (8 / size) + p / size / 2) * size + p % size) 0

/-- Eight vectors become one run of memory. -/
def interleave8 (v0 v1 v2 v3 v4 v5 v6 v7 : List UInt8) : List UInt8 :=
  let p76lo := vzip 0 1 v7 v6
  let p76hi := vzip 1 1 v7 v6
  let p54lo := vzip 0 1 v5 v4
  let p54hi := vzip 1 1 v5 v4
  let p32lo := vzip 0 1 v3 v2
  let p32hi := vzip 1 1 v3 v2
  let p10lo := vzip 0 1 v1 v0
  let p10hi := vzip 1 1 v1 v0
  let wlo0 := vzip 0 2 p76lo p54lo
  let wlo1 := vzip 1 2 p76lo p54lo
  let whi0 := vzip 0 2 p32lo p10lo
  let whi1 := vzip 1 2 p32lo p10lo
  let wlo2 := vzip 0 2 p76hi p54hi
  let wlo3 := vzip 1 2 p76hi p54hi
  let whi2 := vzip 0 2 p32hi p10hi
  let whi3 := vzip 1 2 p32hi p10hi
  vzip 0 4 wlo0 whi0 ++ vzip 1 4 wlo0 whi0 ++ vzip 0 4 wlo1 whi1 ++ vzip 1 4 wlo1 whi1 ++
    vzip 0 4 wlo2 whi2 ++ vzip 1 4 wlo2 whi2 ++ vzip 0 4 wlo3 whi3 ++ vzip 1 4 wlo3 whi3

/-- The 16 lanes of plane `b` at `offset`. -/
def planeLanes (k : Nat) (input : List UInt8) (offset b : Nat) : Option (List UInt8) :=
  vld1 16 input (input.length / k * b + offset)

/-- The memory of sixteen samples is written. -/
def storeSamples {k : Nat} (output : List (BitVec (8 * k))) (offset : Nat) (memory : List UInt8) :
    Option (List (BitVec (8 * k))) :=
  onSlice output offset (offset + 16) (copySamples .aarch64 memory)

/-- The samples that no vector covers. -/
def fpTail {k : Nat} (input : List UInt8) (start : Nat) (output : List (BitVec (8 * k))) :
    Option (List (BitVec (8 * k))) :=
  forRange start output.length (fun i output => do
    let x ← planeSample k input i
    store output i x) output

def fpPredictF32NeonSpp1 (input : List UInt8) (output : List (BitVec (8 * 4))) :
    Option (List (BitVec (8 * 4))) := do
  let input ← revHpredictNeonU8Spp1 input
  let chunks := output.length / 16
  let output ← forRange 0 chunks (fun i output => do
    let offset := i * 16
    let v0 ← planeLanes 4 input offset 0
    let v1 ← planeLanes 4 input offset 1
    let v2 ← planeLanes 4 input offset 2
    let v3 ← planeLanes 4 input offset 3
    storeSamples output offset (vst4 v3 v2 v1 v0)) output
  fpTail input (chunks * 16) output

def fpPredictF64NeonSpp1 (input : List UInt8) (output : List (BitVec (8 * 8))) :
    Option (List (BitVec (8 * 8))) := do
  let input ← revHpredictNeonU8Spp1 input
  let chunks := output.length / 16
  let output ← forRange 0 chunks (fun i output => do
    let offset := i * 16
    let v0 ← planeLanes 8 input offset 0
    let v1 ← planeLanes 8 input offset 1
    let v2 ← planeLanes 8 input offset 2
    let v3 ← planeLanes 8 input offset 3
    let v4 ← planeLanes 8 input offset 4
    let v5 ← planeLanes 8 input offset 5
    let v6 ← planeLanes 8 input offset 6
    let v7 ← planeLanes 8 input offset 7
    storeSamples output offset (interleave8 v0 v1 v2 v3 v4 v5 v6 v7)) output
  fpTail input (chunks * 16) output

def decodeFpPredictF32 (host : Host) (spp : Nat) (input : List UInt8)
    (output : List (BitVec (8 * 4))) : Option (List (BitVec (8 * 4))) :=
  if host = .aarch64 ∧ spp = 1 ∧ output.length ≤ input.length / 4 then
    fpPredictF32NeonSpp1 input output
  else fpPredict spp input output

def decodeFpPredictF64 (host : Host) (spp : Nat) (input : List UInt8)
    (output : List (BitVec (8 * 8))) : Option (List (BitVec (8 * 8))) :=
  if host = .aarch64 ∧ spp = 1 ∧ output.length ≤ input.length / 8 then
    fpPredictF64NeonSpp1 input output
  else fpPredict spp input output

/-- `unpack_f32` and `unpack_f64`, which differ in the size of a sample and in the
kernel of a row. The source is also the scratch space of the kernel. -/
def unpackFloat {k : Nat} (name : String)
    (decode : Nat → List UInt8 → List (BitVec (8 * k)) → Option (List (BitVec (8 * k))))
    (oneMinus : BitVec (8 * k) → BitVec (8 * k)) (host : Host) (src : List UInt8)
    (dst : List (BitVec (8 * k))) (e : ChunkEncoding) :
    Except UnpackError (List (BitVec (8 * k))) := do
  e.validate src.length dst.length k
  let srcStrideBytes := e.tileW * e.spp * k
  let dstStride := e.dataW * e.spp
  match e.predictor with
  | .floatingPoint =>
      inBounds (forRange 0 e.dataH (fun r dst =>
        onSlice dst (r * dstStride) ((r + 1) * dstStride) fun d => do
          let s ← slice src (r * srcStrideBytes) ((r + 1) * srcStrideBytes)
          let d ← decode e.spp s d
          return if e.photometric = .whiteIsZero then d.map oneMinus else d) dst)
  | .none =>
      let dst ← inBounds (unpackRows host src dst e (e.byteOrder = host.byteOrder))
      return if e.photometric = .whiteIsZero then dst.map oneMinus else dst
  | .horizontal => .error (.invalidMetadata ("horizontal predictor unsupported for " ++ name))

def unpackF32 (oneMinus : BitVec (8 * 4) → BitVec (8 * 4)) (host : Host) (src : List UInt8)
    (dst : List (BitVec (8 * 4))) (e : ChunkEncoding) :
    Except UnpackError (List (BitVec (8 * 4))) :=
  unpackFloat "f32" (decodeFpPredictF32 host) oneMinus host src dst e

def unpackF64 (oneMinus : BitVec (8 * 8) → BitVec (8 * 8)) (host : Host) (src : List UInt8)
    (dst : List (BitVec (8 * 8))) (e : ChunkEncoding) :
    Except UnpackError (List (BitVec (8 * 8))) :=
  unpackFloat "f64" (decodeFpPredictF64 host) oneMinus host src dst e

end RasterH3.Raster
