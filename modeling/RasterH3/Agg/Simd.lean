import RasterH3.Agg.NoData
import RasterH3.Agg.Moments
import RasterH3.Lib.Lanes

/-!
# The span kernels

Each kernel goes over a span twice, in lanes: once for the sums and the extremes and once
for the squared deviations from the mean. They differ in the number of lanes, in the type
that the extremes are kept in, and in where the test for a valid pixel is made and how it is
spelled. A span with one value throughout skips the second pass.

A float that is not a number of `F` has no counterpart there, so what `as f64` makes of it
is a parameter, `special`.

The lanes are those of an unrolled loop and of the vector instructions it is compiled to.
Which pixel goes to which lane, how the lanes are joined and where the rest goes is in the
library on lanes; here is what a lane does with a pixel. `scalarSpan` is the fold that the
kernels are measured against.
-/

namespace RasterH3.Agg

open Lanes

/-- How a kernel reads a pixel: as a number for the sums and, in a type of its own, for the
extremes. -/
structure Reading (F M P N : Type) where
  toF64 : P → F
  ofPixel : P → N
  top : N
  bot : N
  min : N → N → N
  max : N → N → N
  asF64 : N → M

/-- The variables of one lane in the first pass. -/
structure Lane (F N : Type) where
  sum : F
  min : N
  max : N
  count : Nat

section Kernel

variable {F M P N : Type} [Zero F] [Add F] [Sub F] [Mul F] [Div F] [NatCast F] [DecidableEq F]
  [Extremes F M] [DecidableEq M]

namespace Lane

def new (r : Reading F M P N) : Lane F N := { sum := 0, min := r.top, max := r.bot, count := 0 }

def add (r : Reading F M P N) (lane : Lane F N) (v : P) : Lane F N :=
  { sum := lane.sum + r.toF64 v
    min := r.min lane.min (r.ofPixel v)
    max := r.max lane.max (r.ofPixel v)
    count := lane.count + 1 }

end Lane

/-- The number of valid pixels, as it is added up over the lanes. -/
def totalCount (w : Width) (count : Fin w.size → Nat) : Nat :=
  match w, count with
  | .four, count => (count 0 + count 1) + (count 2 + count 3)
  | .eight, count =>
      ((count 0 + count 1) + (count 2 + count 3) + (count 4 + count 5)) + (count 6 + count 7)

/-- A kernel with the test `valid` in its first pass. That of the second may depend on how
many pixels the first has counted. -/
def kernel (w : Width) (r : Reading F M P N) (valid : P → Bool) (valid2 : Nat → P → Bool)
    (slice : List P) : H3Accumulator F M :=
  let lanes := accumulate (fun lane v => if valid v then lane.add r v else lane)
    (Lane.new r) slice
  let count := totalCount w fun i => (lanes i).count
  if (count : F) = 0 then .empty
  else
    let sum := w.tree (· + ·) fun i => (lanes i).sum
    let min := r.asF64 (w.tree r.min fun i => (lanes i).min)
    let max := r.asF64 (w.tree r.max fun i => (lanes i).max)
    if min = max then .fromStats sum count min max 0
    else
      let mean := sum / (count : F)
      let m2 := accumulate (n := w.size)
        (fun m2 v =>
          if valid2 count v then
            let d := r.toF64 v - mean
            m2 + d * d
          else m2)
        0 slice
      .fromStats sum count min max (w.tree (· + ·) m2)

end Kernel

section Kernels

variable {F : Type} [Field F] [LinearOrder F] (special : ExactFloat F → F)

def floatToF64 : ExactFloat F → F
  | .finite v => v
  | v => special v

/-- The extremes of a float kernel start from the infinities. -/
def floatReading : Reading F (Extended F) (ExactFloat F) (Extended F) where
  toF64 := floatToF64 special
  ofPixel v := Extremes.ofValue (floatToF64 special v)
  top := Extremes.infinity
  bot := Extremes.negInfinity
  min := Extremes.min
  max := Extremes.max
  asF64 := id

/-- Those of an integer kernel are integers, and start from the ends of the type. -/
def integerReading (t : IntType) : Reading F (Extended F) t.Native t.Native where
  toF64 v := (v.val : F)
  ofPixel := id
  top := .MAX
  bot := .MIN
  min := (· ⊓ ·)
  max := (· ⊔ ·)
  asF64 v := Extended.ofValue (v.val : F)

def accumulateSpanF32NoNodata (slice : List (ExactFloat F)) : H3Accumulator F (Extended F) :=
  kernel .eight (floatReading special) (fun v => v.isFinite)
    -- The branchless pass is for a span that is finite throughout.
    (fun count v => if count = slice.length then true else v.isFinite) slice

open ExactFloat in
def accumulateSpanF32WithNodata (slice : List (ExactFloat F)) (nd : ExactFloat F) :
    H3Accumulator F (Extended F) :=
  let valid (v : ExactFloat F) : Bool :=
    v.isFinite && !beq v nd && ge (abs (sub v nd)) (finite (tolerance F))
  kernel .eight (floatReading special) valid (fun _ => valid) slice

def accumulateSpanF32 (slice : List (ExactFloat F)) (nodata : Option (ExactFloat F)) :
    H3Accumulator F (Extended F) :=
  if slice.isEmpty then .empty
  else
    match nodata with
    | none => accumulateSpanF32NoNodata special slice
    | some nd =>
        if ¬ nd.isFinite then accumulateSpanF32NoNodata special slice
        else accumulateSpanF32WithNodata special slice nd

open ExactFloat in
def accumulateSpanF64 (slice : List (ExactFloat F)) (nodata : Option (ExactFloat F)) :
    H3Accumulator F (Extended F) :=
  if slice.isEmpty then .empty
  else
    let isValidFn (v : ExactFloat F) : Bool :=
      if ¬ v.isFinite then false
      else
        match nodata with
        | some nd => if beq v nd || near (tolerance F) v nd then false else true
        | none => true
    kernel .four (floatReading special) isValidFn (fun _ => isValidFn) slice

def accumulateSpanInteger {t : IntType} (slice : List t.Native) (nodata : Option t.Native) :
    H3Accumulator F (Extended F) :=
  if slice.isEmpty then .empty
  else
    match nodata with
    | none => kernel .four (integerReading t) (fun _ => true) (fun _ _ => true) slice
    | some nd => kernel .four (integerReading t) (fun v => v != nd) (fun _ v => v != nd) slice

def accumulateSpan : {t : PixelType} → List (Pixel F t) → Option (Pixel F t) →
    H3Accumulator F (Extended F)
  | .f32 => accumulateSpanF32 special
  | .f64 => accumulateSpanF64 special
  | .int _ => accumulateSpanInteger

def toF64Val : {t : PixelType} → Pixel F t → F
  | .f32 | .f64 => floatToF64 special
  | .int _ => fun v => (v.val : F)

/-- The accumulator of the same span, one valid pixel at a time. -/
def scalarSpan [Sample F] {t : PixelType} (slice : List (Pixel F t))
    (nodata : Option (Pixel F t)) : H3Accumulator F (Extended F) :=
  slice.foldl
    (fun acc v => if isValidPixel v nodata then acc.update (toF64Val special v) else acc) .empty

end Kernels

end RasterH3.Agg
