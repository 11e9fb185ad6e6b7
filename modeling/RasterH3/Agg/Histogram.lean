import RasterH3.Agg.Majority
import Mathlib.Algebra.Order.Floor.Defs
import Mathlib.Data.List.Sort

/-!
# The histogram text

`histogram_json_into` writes each class with its share of the total, to four decimals and in
the order of the classes. Like `majority` it is given the order that the classes are visited in.

The share is computed in the arithmetic of the accumulator, so it is rounded as a quotient and
again when it is multiplied; the fraction that is left is cut off. Of 800 samples 139 are
0.17375, and the product with ten thousand is a little less than 1737.5.
-/

namespace RasterH3.Agg.CategoricalAccumulator

variable {K : Type} [Field K] [LinearOrder K] [IsStrictOrderedRing K] [FloorRing K]
  {r : Rounding K}

/-- The share of the total, in ten thousandths. -/
def fracI (totalCount cnt : r.Number) : Nat :=
  let frac := if 0 < totalCount then max 0 (min (cnt / totalCount) ((1 : ℚ) : r.Number)) else 0
  ⌊(frac * ((10000 : ℚ) : r.Number) + ((1 / 2 : ℚ) : r.Number)).val⌋.toNat

/-- `{:04}`. -/
def pad4 (n : Nat) : String := String.ofList ((toString n).toList.leftpad 4 '0')

def histogramEntry (k : Int64) (fracI : Nat) : String :=
  "\"" ++ toString k ++ "\": " ++ toString (fracI / 10000) ++ "." ++ pad4 (fracI % 10000)

def histogramJson (acc : CategoricalAccumulator r.Number) (order : List (Int64 × r.Number)) :
    String :=
  if acc.uniqueClasses = 0 then "\x7b\x7d"
  else
    let entries := order.insertionSort fun p q => p.1 ≤ q.1
    "\x7b" ++
      ", ".intercalate (entries.map fun p => histogramEntry p.1 (fracI acc.totalCount p.2)) ++
        "\x7d"

example : fracI (Rounding.double 800) (Rounding.double 139) = 1737 := by decide +kernel

end RasterH3.Agg.CategoricalAccumulator
