import RasterH3.Agg.Categorical
import RasterH3.Lib.Rounding
import Mathlib.Algebra.Order.Field.Basic

/-!
# The majority class

`majority` walks through the classes of a cell and keeps the best seen so far. Totals
within a billionth of the cell's weight count as tied, and a tie goes to the lower class
id. Inline entries are walked in the order they arrived, a table in an order of its own,
which is a parameter here.

The operations are those of the number type, which may round: the tolerance is a product, a
tie is seen in a difference, and the share is a quotient of the number type.
-/

namespace RasterH3.Agg

instance {F : Type} [Field F] [LinearOrder F] [IsStrictOrderedRing F] : PositiveAdd F where
  zero_add _ _ := zero_add _
  add_pos _ _ hx hw := not_le.mpr (add_pos (not_le.mp hx) (not_le.mp hw))

instance {K : Type} [Field K] [LinearOrder K] [IsStrictOrderedRing K] {r : Rounding K} :
    PositiveAdd r.Number where
  zero_add w _ := zero_add w
  add_pos _ _ hx hw := not_le.mpr
    ((not_le.mp hx).trans_le (Rounding.Number.le_add (not_le.mp hw).le))

namespace CategoricalAccumulator

variable {F : Type} [Zero F] [LinearOrder F]

/-- The orders `for_each_class` may visit the classes in. -/
def Visits (acc : CategoricalAccumulator F) (order : List (Int64 × F)) : Prop :=
  match acc.heapCounts with
  | some heap => order.Perm heap.entries
  | none => order = acc.inlineEntries

/-- `merge`, which visits the classes of the other accumulator. -/
def mergeIn [Add F] [PositiveAdd F] (acc other : CategoricalAccumulator F)
    (order : List (Int64 × F)) : CategoricalAccumulator F :=
  if other.totalCount == 0 then acc else acc.updateAll order

theorem merge_eq [Add F] [PositiveAdd F] (acc other : CategoricalAccumulator F) :
    acc.merge other = acc.mergeIn other other.classes := rfl

/-- What the closure of `majority` captures. -/
structure Leader (F : Type) where
  maxCat : Int64
  maxCount : F
  seenAny : Bool

variable [Neg F] [Sub F] [Mul F] [Div F] [RatCast F]

def tieEps (totalCount : F) : F := magnitude totalCount * ((1 / 10 ^ 9 : ℚ) : F)

def Leader.visit (tieEps : F) (leader : Leader F) (p : Int64 × F) : Leader F :=
  let isTie : Prop := magnitude (p.2 - leader.maxCount) ≤ tieEps
  if leader.seenAny = false ∨ (leader.maxCount < p.2 ∧ ¬ isTie) ∨
      (isTie ∧ p.1 < leader.maxCat) then
    { maxCat := p.1, maxCount := p.2, seenAny := true }
  else leader

/-- The class, its count and its fraction of the total. -/
def majority (acc : CategoricalAccumulator F) (order : List (Int64 × F)) : Int64 × F × F :=
  if acc.totalCount = 0 then (0, 0, 0)
  else
    let leader := order.foldl (Leader.visit (tieEps acc.totalCount))
      { maxCat := 0, maxCount := ((-1 : ℚ) : F), seenAny := false }
    let frac :=
      if 0 < acc.totalCount ∧ 0 < leader.maxCount then leader.maxCount / acc.totalCount else 0
    (leader.maxCat, leader.maxCount, frac)

end CategoricalAccumulator

end RasterH3.Agg
