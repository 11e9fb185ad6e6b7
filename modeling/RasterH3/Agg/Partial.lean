import RasterH3.Agg.Categorical
import Mathlib.Data.List.AList
import Mathlib.Data.List.Sort

/-!
# Partial states of a partitioned scan

The workers of a partitioned scan exchange the states of the cells they share as bytes: a
prefix, a version, the kind of accumulator, and the state as it is written to a spill run. A
merger takes the partial cells of all partitions in any order and keeps one state for every
cell.

What the two kinds differ in is one byte, which the class `PartialState` has. Everything
else is the codec that the spill runs use, under a limit that the caller chooses. A merger
is a map by resolution and cell; the order in which it hands its cells out is that of the
keys.
-/

namespace RasterH3.Agg

open AccumulatorMerge SpillAccumulator

/-- `MAGIC`: the letters RH3P. -/
def magic : List UInt8 := [0x52, 0x48, 0x33, 0x50]

def partialVersion : UInt8 := 2

class PartialState (A : Type) extends SpillAccumulator A where
  /-- Distinguishes state kinds, so that none is read as another. -/
  kind : UInt8

open PartialState

inductive PartialError where
  | missingPrefix
  | truncatedHeader
  | unsupportedVersion (version : UInt8)
  | wrongKind (kind expected : UInt8)
  | state (e : SpillError)
  | trailingBytes
  deriving DecidableEq, Repr

namespace PartialError

def why : PartialError → String
  | missingPrefix => "missing RH3P prefix"
  | truncatedHeader => "truncated header"
  | unsupportedVersion version => "unsupported version " ++ toString version.toNat
  | wrongKind kind expected =>
      "state kind " ++ toString kind.toNat ++ ", expected " ++ toString expected.toNat
  | state e => e.message
  | trailingBytes => "trailing bytes"

def message (e : PartialError) : String := "invalid partial state: " ++ e.why

end PartialError

section Codec

variable {A : Type} [PartialState A]

def encodePartialState (acc : A) : List UInt8 :=
  magic ++ [partialVersion, kind A] ++ writeState acc

def decodePartialState (limit : Usize) (bytes : List UInt8) : Except PartialError A :=
  if magic.isPrefixOf bytes then
    match bytes.drop magic.length with
    | version :: k :: rest =>
        if version ≠ partialVersion then .error (.unsupportedVersion version)
        else if k ≠ kind A then .error (.wrongKind k (kind A))
        else
          match (readState limit rest : Except SpillError (A × List UInt8)) with
          | .error e => .error (.state e)
          | .ok (acc, []) => .ok acc
          | .ok (_, _ :: _) => .error .trailingBytes
    | _ => .error .truncatedHeader
  else .error .missingPrefix

end Codec

/-- Resolution and cell. -/
abbrev PartialKey := UInt8 × CellIndex

structure PartialMerger (A : Type) where
  cells : AList fun _ : PartialKey => A

namespace PartialMerger

variable {A : Type}

def new : PartialMerger A := ⟨∅⟩

/-- Merge one partition's share of a cell. -/
def push [AccumulatorMerge A] (m : PartialMerger A) (key : PartialKey) (acc : A) :
    PartialMerger A :=
  match m.cells.lookup key with
  | some held => ⟨m.cells.insert key (merge held acc)⟩
  | none => ⟨m.cells.insert key acc⟩

def pushEncoded [PartialState A] (limit : Usize) (m : PartialMerger A) (key : PartialKey)
    (bytes : List UInt8) : Except PartialError (PartialMerger A) := do
  let acc ← decodePartialState limit bytes
  return m.push key acc

def pushAllEncoded [PartialState A] (limit : Usize) (m : PartialMerger A) :
    List (PartialKey × List UInt8) → Except PartialError (PartialMerger A)
  | [] => .ok m
  | p :: pushes => do (← m.pushEncoded limit p.1 p.2).pushAllEncoded limit pushes

/-- The order of `(resolution, h3_index)`. -/
def keyLe (k k' : PartialKey) : Prop := k.1 < k'.1 ∨ k.1 = k'.1 ∧ k.2 ≤ k'.2

instance : DecidableRel keyLe := fun k k' =>
  inferInstanceAs (Decidable (k.1 < k'.1 ∨ k.1 = k'.1 ∧ k.2 ≤ k'.2))

/-- Final records for every merged cell that passes the filters, by key. -/
def finish {R : Type} (passesFilter : A → Bool) (makeRecord : UInt8 → CellIndex → A → R)
    (m : PartialMerger A) : List R :=
  ((m.cells.entries.insertionSort fun p p' => keyLe p.1 p'.1).filter fun p =>
    passesFilter p.2).map fun p => makeRecord p.1.1 p.1.2 p.2

end PartialMerger

instance {F M : Type} [Zero F] [Add F] [Sub F] [Mul F] [Div F] [BEq F] [Extremes F M]
    [Bytes.Codec F] [Bytes.Codec M] : PartialState (H3Accumulator F M) where
  kind := 1

instance {F : Type} [Zero F] [Add F] [BEq F] [LE F] [DecidableLE F] [PositiveAdd F]
    [Bytes.Codec F] : PartialState (CategoricalAccumulator F) where
  kind := 2

end RasterH3.Agg
