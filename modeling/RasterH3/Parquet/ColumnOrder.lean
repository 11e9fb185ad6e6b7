import RasterH3.Lib.Bytes
import RasterH3.Lib.Checked
import RasterH3.Lib.Loops

/-!
# The column orders in a footer

A closed Parquet file ends with its footer, the footer's length and a magic number, and the
footer ends with the list of the column orders. Each order is three bytes, and the first one
is replaced where it declares the total order of floating-point numbers.

A file is its bytes and a position; its reads and writes succeed where there are bytes. What
is computed from the footer is kept apart from what is done to the file. A subtraction below
zero and a slice out of range are panics.
-/

namespace RasterH3.Parquet

inductive SortOrder where
  | signed | unsigned | undefined
  deriving DecidableEq, Repr

/-- `other` stands for what is neither of the two that a footer may hold. -/
inductive ColumnOrder where
  | typeDefinedOrder (sort : SortOrder)
  | ieee754TotalOrder
  | other (debug : String)
  deriving DecidableEq, Repr

def typeOrder : UInt8 := 0x1C

def ieee754TotalOrder : UInt8 := 0x2C

def elementLen : Nat := 3

inductive Layout where
  | missingMagic
  | footerLength
  | notColumnOrders
  | listHeader
  | unexpectedOrder (debug : String)
  | entry
  deriving DecidableEq, Repr

def Layout.message (detail : Layout) : String :=
  "cannot rewrite Parquet column orders for Polars compatibility: " ++
    match detail with
    | missingMagic => "missing PAR1 footer magic"
    | footerLength => "footer length exceeds file size"
    | notColumnOrders => "footer does not end with column_orders"
    | listHeader => "column_orders list header not found"
    | unexpectedOrder debug => "unexpected column order " ++ debug
    | entry => "column_orders entry does not match the writer"

inductive FileFault where
  | layout (detail : Layout)
  | seekBeforeStart
  | unexpectedEof
  | panic
  deriving DecidableEq, Repr

/-! ## Files -/

structure File where
  bytes : List UInt8
  pos : Nat
  deriving DecidableEq, Repr

abbrev FileM := ExceptT FileFault (StateM File)

namespace FileM

def seekStart (pos : Nat) : FileM Unit := modify fun file => { file with pos }

/-- `SeekFrom::End(-back)`, and the position there. -/
def seekEnd (back : Nat) : FileM Nat := do
  let file ← get
  if file.bytes.length < back then throw .seekBeforeStart
  else
    set { file with pos := file.bytes.length - back }
    return file.bytes.length - back

def readExact (len : Nat) : FileM (List UInt8) := do
  let file ← get
  if file.bytes.length < file.pos + len then throw .unexpectedEof
  else
    set { file with pos := file.pos + len }
    return (file.bytes.drop file.pos).take len

/-- What lies between the end and the position is filled with zeros. -/
def writeAll (data : List UInt8) : FileM Unit := modify fun file =>
  let filled := file.bytes ++ List.replicate (file.pos - file.bytes.length) 0
  ⟨filled.take file.pos ++ data ++ filled.drop (file.pos + data.length), file.pos + data.length⟩

end FileM

/-! ## The footer -/

/-- `PAR1` -/
def magic : List UInt8 := [0x50, 0x41, 0x52, 0x31]

/-- Where the footer starts, and its bytes. -/
def readFooter : FileM (Nat × List UInt8) := do
  let fileLen ← FileM.seekEnd 0
  let _ ← FileM.seekEnd 8
  let tail ← FileM.readExact 8
  if tail.drop 4 ≠ magic then throw (.layout .missingMagic)
  else
    match Bytes.readLe 4 tail with
    | none => throw .panic
    | some (footerLen, _) =>
        if fileLen < 8 + footerLen then throw (.layout .footerLength)
        else
          FileM.seekStart (fileLen - (8 + footerLen))
          let footer ← FileM.readExact footerLen
          return (fileLen - (8 + footerLen), footer)

/-- The loop over the length of a long list. -/
def lengthBytes (n : Nat) : List UInt8 :=
  if n < 0x80 then [UInt8.ofNat n]
  else (UInt8.ofNat n ||| 0x80) :: lengthBytes (n >>> 7)
termination_by n
decreasing_by
  rw [Nat.shiftRight_eq_div_pow]
  omega

/-- Compact-protocol list header for struct elements. -/
def listHeader (len : Nat) : List UInt8 :=
  if len < 15 then [UInt8.ofNat len <<< 4 ||| 0x0C] else 0xFC :: lengthBytes len

def orPanic {α : Type} : Option α → Except FileFault α
  | none => .error .panic
  | some a => .ok a

/-- Where the elements start in a footer. -/
def elementsStart (footer : List UInt8) (columns : Nat) : Except FileFault Nat := do
  let elementsLen := columns * elementLen
  let header := listHeader columns
  let needed := 1 + header.length + elementsLen + 1
  -- the last byte is only read if there is one
  if footer.length < needed then throw (.layout .notColumnOrders)
  else do
    let last ← orPanic (Checked.sub footer.length 1)
    let stop ← orPanic footer[last]?
    if stop ≠ 0 then throw (.layout .notColumnOrders)
    else do
      let elementsStart ← orPanic (Checked.sub last elementsLen)
      let headerStart ← orPanic (Checked.sub elementsStart header.length)
      let fieldAt ← orPanic (Checked.sub headerStart 1)
      let field ← orPanic footer[fieldAt]?
      let found ← orPanic (Loops.slice footer headerStart elementsStart)
      if found ≠ header ∨ field &&& 0x0F ≠ 0x09 ∨ field >>> 4 = 0 then
        throw (.layout .listHeader)
      else return elementsStart

def expected : ColumnOrder → Except FileFault UInt8
  | .ieee754TotalOrder => .ok ieee754TotalOrder
  | .typeDefinedOrder _ => .ok typeOrder
  | .other debug => .error (.layout (.unexpectedOrder debug))

/-- The footer with the elements from a position on replaced, and whether any was. -/
def patchElements : List ColumnOrder → Nat → List UInt8 → Bool →
    Except FileFault (List UInt8 × Bool)
  | [], _, footer, patched => .ok (footer, patched)
  | order :: orders, at_, footer, patched => do
      let element ← orPanic (Loops.slice footer at_ (at_ + elementLen))
      let byte ← expected order
      if element ≠ [byte, 0, 0] then throw (.layout .entry)
      else if byte = ieee754TotalOrder then
        patchElements orders (at_ + elementLen) (footer.set at_ typeOrder) true
      else patchElements orders (at_ + elementLen) footer patched

def ofExcept {α : Type} (x : Except FileFault α) : FileM α := ExceptT.mk (pure x)

/-- Rewrites every entry of the total order in a closed file as the type-defined order. -/
def restoreTypeDefinedFloatOrders : Option (List ColumnOrder) → FileM Unit
  | none => pure ()
  | some orders => do
      if .ieee754TotalOrder ∈ orders then
        let (footerStart, footer) ← readFooter
        let start ← ofExcept (elementsStart footer orders.length)
        let (footer, patched) ← ofExcept (patchElements orders start footer false)
        if patched then
          FileM.seekStart (footerStart + start)
          let elements ← ofExcept
            (orPanic (Loops.slice footer start (start + orders.length * elementLen)))
          FileM.writeAll elements
      else return ()

end RasterH3.Parquet
