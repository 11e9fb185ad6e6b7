import RasterH3.Agg.Controller

/-!
# One call of the stream

Both drain functions loop until the buffers have enough for the caller, or nothing is left,
or the budget of the buffers is used up. They return in a state in which the loop has come to
an end, however many rounds that took.
-/

namespace RasterH3.Agg

variable {A L C : Type} {n : Nat} [SpillAccumulator A] [LinearOrder L] [BoundedOrder L]

def Read.rejects (read : Read) (s : MultiHorizonStreamer A L C n) : Option StreamError :=
  if read = .drainCompletedInto then s.rejectPartitioned else none

/-- What a call hands to its callbacks, what it returns, and the stream that it leaves. -/
inductive Drains (cfg : Setup A L C n) (read : Read) (s : MultiHorizonStreamer A L C n)
    (maxRows : Nat) : List (Record A) × List (PartialCell A) → Except StreamError Nat →
      MultiHorizonStreamer A L C n → Prop
  | rejected {e : StreamError} (hrejects : read.rejects s = some e) :
      Drains cfg read s maxRows ([], []) (.error e) s
  | failed {e : StreamError} {rounds : Nat} {t : MultiHorizonStreamer A L C n}
      (hrejects : read.rejects s = none)
      (hadvance : s.advanceUntilCompleted cfg maxRows rounds = (some e, t)) :
      Drains cfg read s maxRows ([], []) (.error e) t
  | drained {rounds : Nat} {t : MultiHorizonStreamer A L C n} (hrejects : read.rejects s = none)
      (hadvance : s.advanceUntilCompleted cfg maxRows rounds = (none, t))
      (hended : t.wantsMore cfg (min maxRows 2048) = false) :
      Drains cfg read s maxRows (t.drainPartitionedInto maxRows).1
        (.ok ((t.drainPartitionedInto maxRows).1.1.length +
          (t.drainPartitionedInto maxRows).1.2.length))
        (t.drainPartitionedInto maxRows).2

end RasterH3.Agg
