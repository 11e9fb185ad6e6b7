import RasterH3.Agg.Partial
import RasterH3.Agg.Majority
import RasterH3.Agg.Moments

/-!
# Merging partial states in phases

The accumulator of the two merge aggregates holds nothing or one state. It is given encoded
states, from the query or from other accumulators of the same aggregate, and hands its own
on encoded. A null is skipped. The result is one row of statistics, null without a state.

Logarithm and square root are parameters of the row, as is the order in which the classes of
a table are visited.

How the calls of an aggregate fall into phases is up to the planner. `Phases` is any tree of
them: batches of values at the leaves, states of other accumulators in between. The states
go through the encoding of partial states at every edge, with the limit that the decoder
has, and the row at the root is what the query shows.
-/

namespace RasterH3.Sedona

open Agg Agg.AccumulatorMerge

def stateLimit : Usize := 64 * 2 ^ 20

section Accumulator

variable {A : Type} [PartialState A]

/-- `merge_states`: the first state is taken as it is. -/
def mergeStates : Option A → List (Option (List UInt8)) → Except PartialError (Option A)
  | state, [] => .ok state
  | state, none :: array => mergeStates state array
  | state, some bytes :: array =>
      match decodePartialState stateLimit bytes with
      | .error e => .error e
      | .ok other =>
          match state with
          | some acc => mergeStates (some (merge acc other)) array
          | none => mergeStates (some other) array

def updateBatch (state : Option A) (values : List (Option (List UInt8))) :
    Except PartialError (Option A) := mergeStates state values

def mergeBatch (state : Option A) (states : List (Option (List UInt8))) :
    Except PartialError (Option A) := updateBatch state states

def stateOf (state : Option A) : Option (List UInt8) := state.map encodePartialState

end Accumulator

/-- The calls that an accumulator has had: batches of values, and the states of other
accumulators, whose calls come with them. -/
inductive Phases where
  | empty
  | update (before : Phases) (values : List (Option (List UInt8)))
  | merge (before child : Phases)

namespace Phases

/-- The values of all the batches. -/
def leaves : Phases → List (Option (List UInt8))
  | empty => []
  | update before values => before.leaves ++ values
  | merge before child => before.leaves ++ child.leaves

def run (A : Type) [PartialState A] : Phases → Except PartialError (Option A)
  | empty => .ok none
  | update before values =>
      match before.run A with
      | .error e => .error e
      | .ok state => updateBatch state values
  | merge before child =>
      match before.run A, child.run A with
      | .ok state, .ok other => mergeBatch state [stateOf other]
      | .error e, _ => .error e
      | .ok _, .error e => .error e

end Phases

/-! ## The rows -/

section Rows

variable {F : Type} [Field F] [LinearOrder F]

/-- `CONTINUOUS_COLUMNS`; a number that is not finite is absent. -/
structure ContinuousRow (F : Type) where
  mean : Option F
  stddev : Option F
  count : F
  min : Extended F
  max : Extended F
  sum : F

def mean (acc : H3Accumulator F (Extended F)) : Option F :=
  if 0 < acc.count then some (acc.sum / acc.count) else none

def variance (acc : H3Accumulator F (Extended F)) : Option F :=
  if acc.count ≤ 0 then none
  else
    let denom := acc.count - acc.sumW2 / acc.count
    if acc.count * (1 / 10 ^ 12) < denom ∧ 0 < acc.m2 then some (acc.m2 / denom) else some 0

def stddev (sqrt : F → F) (acc : H3Accumulator F (Extended F)) : Option F :=
  (variance acc).map fun var => sqrt (max var 0)

def continuousRow (sqrt : F → F) (acc : H3Accumulator F (Extended F)) : ContinuousRow F where
  mean := mean acc
  stddev := stddev sqrt acc
  count := acc.count
  min := acc.min
  max := acc.max
  sum := acc.sum

/-- `CATEGORICAL_COLUMNS`. The histogram is what is formatted, by class; the two entropies
and the two class counts are the same column twice. -/
structure CategoricalRow (F : Type) where
  majorityClass : Int64
  majorityFraction : F
  majorityCount : F
  uniqueClasses : Nat
  totalCount : F
  histogram : List (Int64 × F)
  shannonEntropy : F

def shannonEntropy (ln : F → F) (acc : CategoricalAccumulator F) (order : List (Int64 × F)) : F :=
  if acc.totalCount ≤ 0 ∨ acc.uniqueClasses ≤ 1 then 0
  else
    order.foldl (fun entropy p =>
      if 0 < p.2 then entropy - p.2 / acc.totalCount * ln (p.2 / acc.totalCount)
      else entropy) 0

/-- `sort_unstable_by_key`; no class occurs twice. -/
def histogram (order : List (Int64 × F)) : List (Int64 × F) :=
  order.insertionSort fun p q => p.1 ≤ q.1

def categoricalRow (ln : F → F) (acc : CategoricalAccumulator F) (order : List (Int64 × F)) :
    CategoricalRow F :=
  let majority := acc.majority order
  { majorityClass := majority.1
    majorityFraction := majority.2.2
    majorityCount := majority.2.1
    uniqueClasses := acc.uniqueClasses
    totalCount := acc.totalCount
    histogram := histogram order
    shannonEntropy := shannonEntropy ln acc order }

/-- The rows that `evaluate` may return for `h3_merge_categorical_partials`: null, or those
of the orders that the classes may be visited in. -/
def CategoricalEvaluates (ln : F → F) (state : Option (CategoricalAccumulator F))
    (row : Option (CategoricalRow F)) : Prop :=
  match state with
  | none => row = none
  | some acc => ∃ order, acc.Visits order ∧ row = some (categoricalRow ln acc order)

/-- `evaluate` of `h3_merge_partials`. -/
def continuousEvaluate (sqrt : F → F) (state : Option (H3Accumulator F (Extended F))) :
    Option (ContinuousRow F) := state.map (continuousRow sqrt)

end Rows

end RasterH3.Sedona
