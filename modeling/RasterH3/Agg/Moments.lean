import RasterH3.Agg.Accumulator
import RasterH3.Lib.WeightedSamples
import Mathlib.Data.Int.Log

/-!
# The accumulator in exact arithmetic

Over an ordered field the accumulator can be compared with what it stands for. The
extremes are then field elements or one of the two infinities they start from, and every
sample is finite. `apply_affine` is the one operation that also computes with the extremes.
-/

namespace RasterH3.Agg

/-- Arithmetic on an extreme. -/
class AffineExtremes (F : outParam Type) (M : Type) extends Extremes F M where
  affine : F → F → M → M

namespace H3Accumulator

variable {F M : Type} [Zero F] [Add F] [Mul F] [BEq F] [LT F] [DecidableLT F]
  [AffineExtremes F M]

def applyAffine (acc : H3Accumulator F M) (scale offset : F) : H3Accumulator F M :=
  if acc.count == 0 then acc
  else
    let lo := AffineExtremes.affine scale offset acc.min
    let hi := AffineExtremes.affine scale offset acc.max
    { acc with
      sum := acc.sum * scale + offset * acc.count
      m2 := acc.m2 * (scale * scale)
      min := if scale < 0 then hi else lo
      max := if scale < 0 then lo else hi }

end H3Accumulator

/-- A number or one of the two infinities. -/
abbrev Extended (F : Type) : Type := WithBot (WithTop F)

def Extended.ofValue {F : Type} (v : F) : Extended F := ((v : WithTop F) : WithBot (WithTop F))

variable {F : Type} [Field F] [LinearOrder F]

instance : AffineExtremes F (Extended F) where
  ofValue := Extended.ofValue
  infinity := ⊤
  negInfinity := ⊥
  min := (· ⊓ ·)
  max := (· ⊔ ·)
  affine scale offset := WithBot.map (WithTop.map fun v => v * scale + offset)

/-- Every sample is finite. -/
class ExactSample (F : Type) [Sample F] : Prop where
  isFinite : ∀ v : F, Sample.isFinite v = true

/-- The rationals, with the octave of a value as its bucket. -/
instance : Sample ℚ where
  isFinite _ := true
  abs := (|·|)
  zeroThreshold := 1 / 10 ^ 7
  keyForPositive v := Int32.ofInt (Int.log 2 v)

instance : ExactSample ℚ := ⟨fun _ => rfl⟩

end RasterH3.Agg
