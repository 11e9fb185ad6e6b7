import RasterH3.Agg.Spill

/-!
# Stream lifecycle and output buffer

A stream runs until it has finished or failed, and a failure is latched. Final records wait
in an output buffer, each with the bytes it was charged for; that the buffer's estimate is
the sum of those charges is a field of the buffer.

Both are shared by the two engines and by the stream with and without a partition, and know
nothing of cells. A record is what either kernel builds of a finished cell; the kernel
itself comes as a structure of functions (`Kernel`), so that the controller is written once.
-/

namespace RasterH3.Agg

inductive StreamState where
  | running
  | finished
  | failed (reason : String)
  deriving DecidableEq, Repr

namespace StreamState

def latchFailure (state : StreamState) (reason : String) : StreamState :=
  match state with
  | failed existing => failed existing
  | _ => failed reason

def markFinished : StreamState → StreamState
  | running => finished
  | state => state

end StreamState

structure OutputBuffer (R : Type) where
  records : List (R × Nat)
  estimatedBytes : Nat
  estimated : estimatedBytes = (records.map Prod.snd).sum

namespace OutputBuffer

variable {R : Type}

def empty : OutputBuffer R := ⟨[], 0, rfl⟩

def pushSized (b : OutputBuffer R) (record : R) (bytes : Nat) : OutputBuffer R where
  records := b.records ++ [(record, bytes)]
  estimatedBytes := b.estimatedBytes + bytes
  estimated := by simp [b.estimated]

def len (b : OutputBuffer R) : Nat := b.records.length

/-- The records that wait, without their charges. -/
def contents (b : OutputBuffer R) : List R := b.records.map Prod.fst

def popFront (b : OutputBuffer R) : Option (R × OutputBuffer R) :=
  match h : b.records with
  | [] => none
  | (record, bytes) :: rest =>
      some (record, ⟨rest, b.estimatedBytes - bytes, by simp [b.estimated, h]⟩)

def drainInto (maxRows : Nat) (b : OutputBuffer R) : List R × OutputBuffer R :=
  match maxRows with
  | 0 => ([], b)
  | n + 1 =>
      match b.popFront with
      | none => ([], b)
      | some (record, b) =>
          let (records, b) := drainInto n b
          (record :: records, b)

@[simp] theorem contents_empty : (empty : OutputBuffer R).contents = [] := rfl

@[simp] theorem contents_pushSized (b : OutputBuffer R) (record : R) (bytes : Nat) :
    (b.pushSized record bytes).contents = b.contents ++ [record] := by
  simp [contents, pushSized]

theorem len_eq (b : OutputBuffer R) : b.len = b.contents.length := by
  simp [len, contents]

theorem popFront_some {b b' : OutputBuffer R} {record : R} (h : b.popFront = some (record, b')) :
    b.contents = record :: b'.contents := by
  unfold popFront at h
  split at h
  next => cases h
  next hr =>
    cases h
    simp [contents, hr]

/-- What is drained and what stays is what was there, in order. -/
theorem drainInto_append (maxRows : Nat) (b : OutputBuffer R) :
    (b.drainInto maxRows).1 ++ (b.drainInto maxRows).2.contents = b.contents := by
  induction maxRows generalizing b with
  | zero => rfl
  | succ n ih =>
      rw [drainInto]
      split
      next => rfl
      next record b' h =>
        rw [popFront_some h]
        exact congrArg (record :: ·) (ih b')

end OutputBuffer

/-- A finished cell, as either engine's kernel builds it. -/
structure Record (A : Type) where
  resolution : Nat
  h3Index : CellIndex
  accumulator : A
  deriving DecidableEq, Repr

/-- What compaction and emission ask of an engine. -/
structure Kernel (A : Type) where
  newParentAccumulator : A
  passesFilter : A → Bool
  sizeOfRecord : Nat

namespace Kernel

variable {A : Type} [AccumulatorMerge A]

def bufferRecord (kernel : Kernel A) (resolution : Nat) (key : CellIndex) (acc : A)
    (output : OutputBuffer (Record A)) : OutputBuffer (Record A) :=
  output.pushSized ⟨resolution, key, acc⟩ (kernel.sizeOfRecord + AccumulatorMerge.heapBytes acc)

@[simp] theorem contents_bufferRecord (kernel : Kernel A) (resolution : Nat) (key : CellIndex)
    (acc : A) (output : OutputBuffer (Record A)) :
    (kernel.bufferRecord resolution key acc output).contents =
      output.contents ++ [⟨resolution, key, acc⟩] :=
  OutputBuffer.contents_pushSized _ _ _

end Kernel

end RasterH3.Agg
