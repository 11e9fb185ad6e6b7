import RasterH3.Agg.Accumulator
import Mathlib.Algebra.Order.Field.Basic
import Mathlib.Data.List.Sort
import Mathlib.Tactic

/-!
# Quantiles of a sketch

The bins of a sketch are walked from the most negative to the greatest value, and a quantile is
found in the first one whose running total reaches its rank. `quantile` walks for one request,
`quantiles_batch` once for all of them in the order of their ranks. A `QuantilePlan` asks for
each distinct probability once.

`none` is NaN. The bound of a bin, the power of gamma that its key says, is computed with `exp`
and a constant that is a little more than ln gamma; `LogBins` says what that comes to.
-/

namespace RasterH3.Agg

open HashTable

variable {F : Type} [Field F] [LinearOrder F]

namespace QuantileSketch

/-- `GAMMA`, from `QUANTILE_ALPHA`. -/
def gamma : F := (1 + 1 / 100) / (1 - 1 / 100)

/-- `lower_bound`. A bin ends no later than the next one begins. -/
structure LogBins (F : Type) [Field F] [LinearOrder F] where
  lowerBound : Int32 → F
  pos : ∀ key, 0 < lowerBound key
  ends : ∀ key key', key < key' → lowerBound key * gamma ≤ lowerBound key'

/-- `v.clamp(lo, hi)` -/
def clampTo (lo hi v : F) : F := max lo (min hi v)

/-- A bin of the walk with the value at a fraction of it. -/
structure Stop (F : Type) where
  count : F
  valueAt : F → F

/-- Negative bins with descending keys, the zero bucket if it has counted, positive bins with
ascending keys. -/
def stops (bins : LogBins F) (q : QuantileSketch F) : List (Stop F) :=
  (q.negBins.entries.insertionSort fun a b => b.1 ≤ a.1).map
      (fun bin => ⟨bin.2, fun f => -bins.lowerBound bin.1 * (gamma - f * (gamma - 1))⟩) ++
    (if 0 < q.zeroCount then [⟨q.zeroCount, fun _ => 0⟩] else []) ++
      (q.posBins.entries.insertionSort fun a b => a.1 ≤ b.1).map
        fun bin => ⟨bin.2, fun f => bins.lowerBound bin.1 * (1 + f * (gamma - 1))⟩

/-- How far into a bin the rank lies. -/
def fraction (rank prior count : F) : F :=
  if 0 < count then clampTo 0 1 ((rank - prior) / count) else 1 / 2

/-- The walk of `quantile`, from a running total. -/
def walk (min max rank : F) : F → List (Stop F) → F
  | _, [] => max
  | prior, stop :: rest =>
      let cum := prior + stop.count
      if rank ≤ cum then clampTo min max (stop.valueAt (fraction rank prior stop.count))
      else walk min max rank cum rest

/-- The answer that needs no walk, if there is one. -/
def fixedAnswer (min max : F) (q : Option F) : Option (Option F) :=
  match q with
  | none => some none
  | some q =>
      if q ≤ 0 then some (some min)
      else if 1 ≤ q then some (some max)
      else if |min - max| < 1 / 10 ^ 12 then some (some min)
      else none

def quantile (bins : LogBins F) (s : QuantileSketch F) (q : Option F) (min max : F) : Option F :=
  if s.totalCount ≤ 0 then none
  else
    match fixedAnswer min max q with
    | some answer => answer
    | none => q.map fun q => walk min max (q * s.totalCount) 0 (stops bins s)

/-- A request that is still to be answered: its rank and where the answer goes. -/
abbrev Pending (F : Type) := F × Nat

/-- `settle`: every pending request that the total reaches is answered. -/
def settle (cum : F) (valueAt : F → F) :
    List (Pending F) → List (Option F) → List (Pending F) × List (Option F)
  | [], results => ([], results)
  | p :: pending, results =>
      if cum < p.1 then (p :: pending, results)
      else settle cum valueAt pending (results.set p.2 (some (valueAt p.1)))

/-- The sweep of `quantiles_batch`, from a running total. -/
def sweep (min max : F) : F → List (Stop F) → List (Pending F) → List (Option F) → List (Option F)
  | _, [], pending, results => pending.foldl (fun results p => results.set p.2 (some max)) results
  | prior, stop :: rest, pending, results =>
      let cum := prior + stop.count
      let (pending, results) := settle cum
        (fun rank => clampTo min max (stop.valueAt (fraction rank prior stop.count))) pending results
      if pending.isEmpty then results else sweep min max cum rest pending results

def quantilesBatch (bins : LogBins F) (s : QuantileSketch F) (targets : List (Option F))
    (min max : F) : List (Option F) :=
  if s.totalCount ≤ 0 then List.replicate targets.length none
  else
    let results := targets.map fun q => (fixedAnswer min max q).getD none
    let pending : List (Pending F) := targets.zipIdx.filterMap fun (q, i) =>
      match fixedAnswer min max q with
      | some _ => none
      | none => q.map fun q => (q * s.totalCount, i)
    if pending.isEmpty then results
    else
      sweep min max 0 (stops bins s) (pending.insertionSort fun a b => a.1 ≤ b.1) results

/-- `(p75 - p25).max(0.0)`, which is zero for NaN. -/
def spread (p25 p75 : Option F) : Option F :=
  match p25, p75 with
  | some p25, some p75 => some (max (p75 - p25) 0)
  | _, _ => some 0

end QuantileSketch

namespace H3Accumulator

open QuantileSketch

/-- The extremes are only read where the sketch has counted something, so they are numbers. -/
def quantile (bins : LogBins F) (acc : H3Accumulator F F) (q : Option F) : Option F :=
  match acc.quantiles with
  | some sketch => sketch.quantile bins q acc.min acc.max
  | none => none

def iqr (bins : LogBins F) (acc : H3Accumulator F F) : Option F :=
  match acc.quantiles with
  | some sketch =>
      let q := sketch.quantilesBatch bins [some (25 / 100), some (75 / 100)] acc.min acc.max
      spread (q.getD 0 none) (q.getD 1 none)
  | none => none

end H3Accumulator

inductive QuantileTarget (F : Type) where
  | percentile (q : Option F)
  | iqr

/-- Where the value of a target is found among those of the distinct probabilities. -/
inductive PlanOutput where
  | prob (i : Nat)
  | iqr (p25 p75 : Nat)

structure QuantilePlan (F : Type) where
  probs : List (Option F)
  outputs : List PlanOutput

namespace QuantilePlan

open QuantileSketch

/-- The place of a probability, with the plan that has it. -/
def slot (plan : QuantilePlan F) (q : Option F) : Nat × QuantilePlan F :=
  match plan.probs.findIdx? (· = q) with
  | some i => (i, plan)
  | none => (plan.probs.length, { plan with probs := plan.probs ++ [q] })

def add (plan : QuantilePlan F) : QuantileTarget F → QuantilePlan F
  | .percentile q =>
      let (i, plan) := plan.slot q
      { plan with outputs := plan.outputs ++ [.prob i] }
  | .iqr =>
      let (p25, plan) := plan.slot (some (25 / 100))
      let (p75, plan) := plan.slot (some (75 / 100))
      { plan with outputs := plan.outputs ++ [.iqr p25 p75] }

def new (targets : List (QuantileTarget F)) : QuantilePlan F := targets.foldl add ⟨[], []⟩

def outputOf (values : List (Option F)) : PlanOutput → Option F
  | .prob i => values.getD i none
  | .iqr p25 p75 => spread (values.getD p25 none) (values.getD p75 none)

def evaluateInto (bins : LogBins F) (plan : QuantilePlan F) (acc : H3Accumulator F F) :
    List (Option F) :=
  if plan.outputs.isEmpty then []
  else
    match acc.quantiles with
    | none => List.replicate plan.outputs.length none
    | some sketch =>
        match plan.probs with
        | [q] =>
            List.replicate plan.outputs.length (sketch.quantile bins q acc.min acc.max)
        | probs =>
            plan.outputs.map (outputOf (sketch.quantilesBatch bins probs acc.min acc.max))

end QuantilePlan

end RasterH3.Agg
