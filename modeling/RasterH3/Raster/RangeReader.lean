import RasterH3.Raster.HttpRange

/-!
# A remote object as a file

A reader keeps a position in a source. It is an unsigned word, and so is the size of the
object, but a seek relative to either is computed with signed words. A sum outside of them
panics in a build with overflow checks and wraps in one without.

The fixed-width arguments are those of `SeekFrom`. A position is a number: a read moves it
no further than the end of the object, and a seek puts a word there.

Both ways to build the code are in the model, by a flag that says whether overflow is
checked. The reader has no buffer of its own; what a read copies comes from the source, with
its cache, and a call of the reader carries what the transport answers meanwhile, so that a
run is a list of calls.
-/

namespace RasterH3.Raster

/-- A signed word, from the integers modulo `2 ^ 64`. -/
def wrapI64 (i : Int) : Int := (i + 2 ^ 63) % 2 ^ 64 - 2 ^ 63

def asU64 (i : Int) : Nat := (i % 2 ^ 64).toNat

/-- The sum of two signed words. -/
def addI64 (overflowChecks : Bool) (a b : Int) : Option Int :=
  if overflowChecks ∧ wrapI64 (a + b) ≠ a + b then none else some (wrapI64 (a + b))

inductive SeekFrom where
  | start (offset : UInt64)
  | current (delta : Int64)
  | fromEnd (delta : Int64)

/-- The errors of the reader. A failed read carries the text of the source's error. -/
inductive ReaderError where
  | other (text : String)
  | invalidInput (text : String)
  deriving DecidableEq, Repr

def beforeStart : ReaderError := .invalidInput "Cannot seek before start of file"

structure HttpRangeReader where
  source : RemoteHttpSource
  cursor : Nat

namespace HttpRangeReader

def new (source : RemoteHttpSource) : HttpRangeReader := ⟨source, 0⟩

/-- The bytes read into a buffer of length `len`, and the reader afterwards. -/
def read (r : HttpRangeReader) (fetch : Fetch) (len : Nat) :
    Option (Except ReaderError (List UInt8) × HttpRangeReader) :=
  if r.source.totalSize ≤ r.cursor ∨ len = 0 then some (.ok [], r)
  else
    let toRead := min len (r.source.totalSize - r.cursor)
    (r.source.readRangeInto fetch r.cursor toRead).map fun out =>
      match out.1 with
      | .error e => (.error (.other e.message), { r with source := out.2 })
      | .ok bytes => (.ok bytes, ⟨out.2, r.cursor + bytes.length⟩)

/-- A position relative to another. -/
def relative (overflowChecks : Bool) (base : Nat) (delta : Int64) :
    Option (Except ReaderError Nat) :=
  (addI64 overflowChecks (wrapI64 base) delta.toInt).map fun target =>
    if target < 0 then .error beforeStart else .ok (asU64 target)

def newCursor (r : HttpRangeReader) (overflowChecks : Bool) : SeekFrom →
    Option (Except ReaderError Nat)
  | .start offset => some (.ok offset.toNat)
  | .current delta => relative overflowChecks r.cursor delta
  | .fromEnd delta => relative overflowChecks r.source.totalSize delta

/-- The new position, and the reader afterwards. -/
def seek (r : HttpRangeReader) (overflowChecks : Bool) (pos : SeekFrom) :
    Option (Except ReaderError Nat × HttpRangeReader) :=
  (r.newCursor overflowChecks pos).map fun result =>
    match result with
    | .error e => (.error e, r)
    | .ok cursor => (.ok cursor, { r with cursor })

end HttpRangeReader

/-- A call of the reader; a read comes with what its transport answers meanwhile. -/
inductive ReaderCall where
  | read (len : Nat) (fetch : Fetch)
  | seek (pos : SeekFrom)

inductive ReaderResult where
  | bytes (result : Except ReaderError (List UInt8))
  | position (result : Except ReaderError Nat)
  deriving DecidableEq

/-- A call, which may panic. -/
def HttpRangeReader.call (r : HttpRangeReader) (overflowChecks : Bool) :
    ReaderCall → Option (ReaderResult × HttpRangeReader)
  | .read len fetch => (r.read fetch len).map fun out => (.bytes out.1, out.2)
  | .seek pos => (r.seek overflowChecks pos).map fun out => (.position out.1, out.2)

end RasterH3.Raster
