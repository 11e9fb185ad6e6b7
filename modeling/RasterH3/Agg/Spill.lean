import RasterH3.Lib.Bytes

/-!
# Spilled accumulator runs

When the live maps outgrow their budget, their cells are written out as a run:
a file of `(key, state)` records in strictly increasing key order. Runs are
kept like the bits of a binary counter. A new run goes to level 0, and two runs
that meet at a level are merged and carried to the next, so that no record is
rewritten more than once per level. `finish` merges what is left, and the
result is read back one record at a time.

A file is the list of its bytes, and a `RunReader` is the bytes it has not read
yet. Writing to a temporary file can fail for reasons of its own; those errors
end the scan like any other and are not modelled. Everything the code itself
rejects is a `SpillError`.
-/

namespace RasterH3.Agg

/-- An H3 index, the key of every record. -/
abbrev CellIndex := Fin (2 ^ 64)

/-- A byte count or budget of a 64-bit machine. -/
abbrev Usize := Fin (2 ^ 64)

inductive SpillError where
  | notSorted
  | singleExceeds
  | mergedExceeds
  | counterExhausted
  | countExceeds
  | accumulatorExceeds (engine : String)
  | tileExceeds
  | invalidMarker
  | unexpectedEof
  deriving DecidableEq, Repr

namespace SpillError

def message : SpillError → String
  | notSorted => "spill input is not strictly sorted"
  | singleExceeds => "single accumulator exceeds aggregation budget"
  | mergedExceeds => "merged accumulator exceeds aggregation budget"
  | counterExhausted => "spill run counter exhausted"
  | countExceeds => "spill accumulator exceeds aggregation budget"
  | accumulatorExceeds engine => engine ++ " accumulator exceeds aggregation budget"
  | tileExceeds => "overview tile exceeds budget"
  | invalidMarker => "invalid quantile marker in spill"
  | unexpectedEof => "failed to fill whole buffer"

/-- The budget did not suffice: one state too large, two merged ones too
large, a table with too many entries, or more runs than the counter has. -/
def isLimit : SpillError → Prop
  | singleExceeds | mergedExceeds | counterExhausted | countExceeds
  | accumulatorExceeds _ | tileExceeds => True
  | notSorted | invalidMarker | unexpectedEof => False

end SpillError

class AccumulatorMerge (A : Type) where
  merge : A → A → A
  /-- Owned dynamic state, as the budgets charge for it. -/
  heapBytes : A → Nat

class SpillAccumulator (A : Type) extends AccumulatorMerge A where
  sizeOfSelf : Nat
  writeState : A → List UInt8
  readState (limit : Usize) : List UInt8 → Except SpillError (A × List UInt8)

open AccumulatorMerge SpillAccumulator

def SpillAccumulator.memoryBytes {A : Type} [SpillAccumulator A] (acc : A) : Nat :=
  sizeOfSelf A + heapBytes acc

/-- `read_exact` of a fixed-width field: a short file is an error, never the
end of the run. -/
def readExact {α : Type} (read : List UInt8 → Option (α × List UInt8))
    (input : List UInt8) : Except SpillError (α × List UInt8) :=
  match read input with
  | some out => .ok out
  | none => .error .unexpectedEof

/-- `count`: the number of entries that follow, rejected when they could not
fit into `limit` at 64 bytes each. -/
def count (limit : Usize) (input : List UInt8) :
    Except SpillError (Nat × List UInt8) := do
  let (n, input) ← readExact (Bytes.readLe 8) input
  if limit.val / 64 < n then throw .countExceeds
  return (n, input)

/-- One file and the number of records in it. -/
structure Run where
  file : List UInt8
  len : Nat

structure RunReader (A : Type) where
  input : List UInt8
  remaining : Nat
  limit : Usize

namespace RunReader

variable {A : Type} [SpillAccumulator A]

def new (A : Type) (run : Run) (limit : Usize) : RunReader A :=
  { input := run.file, remaining := run.len, limit }

def nextRecord (r : RunReader A) :
    Except SpillError (Option (CellIndex × A) × RunReader A) :=
  match r.remaining with
  | 0 => .ok (none, r)
  | remaining + 1 => do
      let (key, input) ← readExact Bytes.readFin64 r.input
      let (value, input) ← readState r.limit input
      return (some (key, value), { r with input, remaining })

/-- Reading to the end: `next_record` until it answers `None`. The fuel is one
unit for each record and one for the end. -/
def readAll : Nat → RunReader A → Except SpillError (List (CellIndex × A))
  | 0, _ => .ok []
  | fuel + 1, r => do
      match ← r.nextRecord with
      | (none, _) => return []
      | (some record, r) => return record :: (← readAll fuel r)

end RunReader

structure SpillRuns where
  levels : List (Option Run)
  limit : Usize
  runsWritten : Nat

namespace SpillRuns

variable {A : Type} [SpillAccumulator A]

def new (limit : Usize) : SpillRuns :=
  { levels := [], limit, runsWritten := 0 }

def hasSpilled (s : SpillRuns) : Bool := s.runsWritten != 0

def writeRecord (key : CellIndex) (acc : A) : List UInt8 :=
  Bytes.writeFin64 key ++ writeState acc

/-- The record loop of `push_sorted`: the bytes written and how many records. -/
def writeSorted (limit : Usize) :
    Option CellIndex → List (CellIndex × A) → Except SpillError (List UInt8 × Nat)
  | _, [] => .ok ([], 0)
  | previous, (key, acc) :: records => do
      if previous.any (fun p => key ≤ p) then throw .notSorted
      if limit.val < memoryBytes acc then throw .singleExceeds
      let (out, len) ← writeSorted limit (some key) records
      return (writeRecord key acc ++ out, len + 1)

/-- The loop of `merge`. `a` and `b` are the heads already read, and the fuel
is the number of records the two runs still have. -/
def mergeLoop (limit : Usize) : Nat → Option (CellIndex × A) → Option (CellIndex × A) →
    RunReader A → RunReader A → Except SpillError (List UInt8 × Nat)
  | 0, _, _, _, _ => .ok ([], 0)
  | fuel + 1, a, b, left, right =>
      match a, b with
      | none, none => .ok ([], 0)
      | some (key, acc), none => do
          let (a, left) ← left.nextRecord
          let (out, len) ← mergeLoop limit fuel a none left right
          return (writeRecord key acc ++ out, len + 1)
      | none, some (key, acc) => do
          let (b, right) ← right.nextRecord
          let (out, len) ← mergeLoop limit fuel none b left right
          return (writeRecord key acc ++ out, len + 1)
      | some (keyA, accA), some (keyB, accB) =>
          if keyA < keyB then do
            let (a, left) ← left.nextRecord
            let (out, len) ← mergeLoop limit fuel a b left right
            return (writeRecord keyA accA ++ out, len + 1)
          else if keyB < keyA then do
            let (b, right) ← right.nextRecord
            let (out, len) ← mergeLoop limit fuel a b left right
            return (writeRecord keyB accB ++ out, len + 1)
          else do
            let acc := merge accA accB
            if limit.val < memoryBytes acc then throw .mergedExceeds
            let (a, left) ← left.nextRecord
            let (b, right) ← right.nextRecord
            let (out, len) ← mergeLoop limit fuel a b left right
            return (writeRecord keyA acc ++ out, len + 1)

/-- `SpillRuns::merge`. -/
def mergeRuns (A : Type) [SpillAccumulator A] (limit : Usize) (left right : Run) :
    Except SpillError Run := do
  let (a, leftReader) ← (RunReader.new A left limit).nextRecord
  let (b, rightReader) ← (RunReader.new A right limit).nextRecord
  let (file, len) ← mergeLoop limit (left.len + right.len) a b leftReader rightReader
  return { file, len }

/-- The carry loop of `push_sorted`, from level `level` upwards. -/
def carry (A : Type) [SpillAccumulator A] (limit : Usize) (run : Run) (level : Nat) :
    List (Option Run) → Except SpillError (List (Option Run))
  | [] => if level = 64 then throw .counterExhausted else return [some run]
  | slot :: levels =>
      if level = 64 then throw .counterExhausted
      else match slot with
        | none => return some run :: levels
        | some other => do
            let run ← mergeRuns A limit other run
            return none :: (← carry A limit run (level + 1) levels)

def pushSorted (s : SpillRuns) (records : List (CellIndex × A)) :
    Except SpillError SpillRuns := do
  let (file, len) ← writeSorted s.limit none records
  if len = 0 then return s
  let levels ← carry A s.limit { file, len } 0 s.levels
  return { s with levels, runsWritten := s.runsWritten + 1 }

/-- The loop of `finish`: the older, higher level is merged in on the left. -/
def combine (A : Type) [SpillAccumulator A] (limit : Usize) :
    Option Run → List (Option Run) → Except SpillError (Option Run)
  | combined, [] => .ok combined
  | combined, none :: levels => combine A limit combined levels
  | none, some run :: levels => combine A limit (some run) levels
  | some other, some run :: levels => do
      let merged ← mergeRuns A limit run other
      combine A limit (some merged) levels

/-- `finish` takes every level; what is left behind holds nothing. -/
def finish (A : Type) [SpillAccumulator A] (s : SpillRuns) :
    Except SpillError (Option (RunReader A) × SpillRuns) := do
  let combined ← combine A s.limit none s.levels
  return (combined.map (RunReader.new A · s.limit),
    { s with levels := s.levels.map fun _ => none })

/-- A whole use of the runs: every call of `push_sorted` in turn, then
`finish`, then the reader read to the end. -/
def pushAll (s : SpillRuns) : List (List (CellIndex × A)) → Except SpillError SpillRuns
  | [] => .ok s
  | records :: calls => do pushAll (← s.pushSorted records) calls

def readBack (A : Type) [SpillAccumulator A] (s : SpillRuns) :
    Except SpillError (List (CellIndex × A)) := do
  match ← s.finish A with
  | (none, _) => return []
  | (some reader, _) => reader.readAll (reader.remaining + 1)

def roundTrip (limit : Usize) (calls : List (List (CellIndex × A))) :
    Except SpillError (List (CellIndex × A)) := do
  (← pushAll (new limit) calls).readBack A

end SpillRuns

end RasterH3.Agg
