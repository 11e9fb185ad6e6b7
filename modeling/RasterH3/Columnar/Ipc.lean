import RasterH3.Columnar.RecordBatch
import RasterH3.Lib.Reader
import RasterH3.Pmtiles.SortRun

/-!
# The binary stream of record batches

A stream is a header with the schema, the batches that have rows, and an end marker. Every
length is written as 32 bits. A batch is its number of rows and then its columns; the mask
of a column carries a length of its own, and the values of a column carry none. The reader
takes one batch at a time, and is done after the first that is missing or fails.

Lengths are cut to 32 bits without a check as they are written. The name of a field has to
be UTF-8, while the strings of a column are read with replacement characters, as the source
has it; the replacement follows the standard library in how many bytes one character stands
for. A reader is a state of the bytes that are left, the schema and a flag, and its items
are what the iterator yields until it is done.
-/

namespace RasterH3.Columnar

open Bytes Pmtiles

inductive IpcError where
  /-- `read_exact` on a stream that ends first. -/
  | eof
  | invalidMagic
  | invalidName (bytes : List UInt8)
  | unknownDtype (tag : UInt8)
  | invalidMarker (marker : UInt8)
  | batch (e : BatchError)
  deriving DecidableEq, Repr

/-- The text, up to what the standard library says of bytes that are not UTF-8. -/
def IpcError.message : IpcError → String
  | eof => "I/O error: failed to fill whole buffer"
  | invalidMagic => "Invalid parameter: Invalid IPC stream magic header"
  | invalidName _ => "Invalid parameter: Invalid UTF-8 field name in IPC: "
  | unknownDtype tag => s!"Invalid parameter: Unknown IPC data type tag: {tag.toNat}"
  | invalidMarker marker => s!"Invalid parameter: Invalid IPC batch marker: {marker.toNat}"
  | batch e => "Invalid parameter: " ++ e.message

/-- `IPC_MAGIC`: the letters RH3IPC01. -/
def ipcMagic : List UInt8 := [0x52, 0x48, 0x33, 0x49, 0x50, 0x43, 0x30, 0x31]

def encodeDtype : ArrowDataType → UInt8
  | .uint64 => 1
  | .int64 => 2
  | .uint8 => 3
  | .float64 => 4
  | .boolean => 5
  | .utf8 => 6
  | .binary => 7

def decodeDtype (tag : UInt8) : Except IpcError ArrowDataType :=
  match tag with
  | 1 => .ok .uint64
  | 2 => .ok .int64
  | 3 => .ok .uint8
  | 4 => .ok .float64
  | 5 => .ok .boolean
  | 6 => .ok .utf8
  | 7 => .ok .binary
  | other => .error (.unknownDtype other)

/-! ## Writing -/

/-- `u8::from`. -/
def boolByte (b : Bool) : UInt8 := if b then 1 else 0

/-- `len as u32`, and the bytes. -/
def writeBytes (bytes : List UInt8) : List UInt8 := writeLe 4 bytes.length ++ bytes

def writeValidity : Option (List Bool) → List UInt8
  | none => [0]
  | some v => 1 :: (writeLe 4 v.length ++ v.map boolByte)

def writeValues : ColumnValues → List UInt8
  | .uint64 values => values.flatMap fun v => writeLe 8 v.toNat
  | .int64 values => values.flatMap writeI64
  | .uint8 values => values
  | .float64 values => values.flatMap fun v => writeLe 8 v.toNat
  | .boolean values => values.map boolByte
  | .utf8 values => values.flatMap fun s => writeBytes (utf8 s)
  | .binary values => values.flatMap writeBytes

def writeColumn (col : ColumnArray) : List UInt8 :=
  writeValidity col.validity ++ writeValues col.values

def writeField (field : ColumnField) : List UInt8 :=
  writeBytes (utf8 field.name) ++ [encodeDtype field.dataType, boolByte field.nullable]

def writeHeader (schema : ColumnSchema) : List UInt8 :=
  ipcMagic ++ (writeLe 4 schema.fields.length ++ schema.fields.flatMap writeField)

def writeBatch (batch : RecordBatch) : List UInt8 :=
  1 :: (writeLe 4 batch.numRows ++ batch.columns.flatMap writeColumn)

/-- The loop over the batches: what it writes, and the rows or the error it ends with. -/
def writeBatches {E : Type} (totalRows : Nat) :
    List (Except E RecordBatch) → List UInt8 × Except E Nat
  | [] => ([0], .ok totalRows)
  | .error e :: _ => ([], .error e)
  | .ok batch :: rest =>
      if batch.numRows = 0 then writeBatches totalRows rest
      else
        let written := writeBatches (totalRows + batch.numRows) rest
        (writeBatch batch ++ written.1, written.2)

def writeIpcStream {E : Type} (schema : ColumnSchema) (batches : List (Except E RecordBatch)) :
    List UInt8 × Except E Nat :=
  let written := writeBatches 0 batches
  (writeHeader schema ++ written.1, written.2)

/-! ## Reading -/

def readU8 : Reader IpcError UInt8
  | [] => .error .eof
  | b :: rest => .ok (b, rest)

def readU32 : Reader IpcError Nat := Reader.le .eof 4

def readU64 : Reader IpcError UInt64 := do
  let n ← Reader.le .eof 8
  return UInt64.ofNat n

def readI64 : Reader IpcError Int64 := do
  let n ← Reader.le .eof 8
  return Int64.ofBitVec (BitVec.ofNat 64 n)

def readBools (n : Nat) : Reader IpcError (List Bool) := do
  let bytes ← Reader.exact .eof n
  return bytes.map (· != 0)

def readBytes : Reader IpcError (List UInt8) := do
  let len ← readU32
  Reader.exact .eof len

def readValidity : Reader IpcError (Option (List Bool)) := do
  let has ← readU8
  if has = 0 then return none
  let len ← readU32
  let v ← readBools len
  return some v

def continuation (b : UInt8) : Bool := b &&& 0xC0 == 0x80

/-- How many bytes that spell no character give one replacement: those that could begin one. -/
def invalidLen : List UInt8 → Nat
  | b :: b' :: rest =>
      if (b == 0xE0 && 0xA0 ≤ b' && b' ≤ 0xBF) || (0xE1 ≤ b && b ≤ 0xEC && continuation b') ||
          (b == 0xED && 0x80 ≤ b' && b' ≤ 0x9F) || (0xEE ≤ b && b ≤ 0xEF && continuation b') then 2
      else if (b == 0xF0 && 0x90 ≤ b' && b' ≤ 0xBF) || (0xF1 ≤ b && b ≤ 0xF3 && continuation b') ||
          (b == 0xF4 && 0x80 ≤ b' && b' ≤ 0x8F) then
        if rest.head?.any continuation then 3 else 2
      else 1
  | _ => 1

def lossyChars : List UInt8 → List Char
  | [] => []
  | b :: rest =>
      match ByteArray.utf8DecodeChar? (b :: rest).toByteArray 0 with
      | some c => c :: lossyChars (rest.drop (c.utf8Size - 1))
      | none => '\uFFFD' :: lossyChars (rest.drop (invalidLen (b :: rest) - 1))
termination_by bytes => bytes.length
decreasing_by all_goals simp only [List.length_cons, List.length_drop]; omega

def fromUtf8Lossy (bytes : List UInt8) : String := String.ofList (lossyChars bytes)

def readText : Reader IpcError String := do
  let bytes ← readBytes
  return fromUtf8Lossy bytes

def readValues (numRows : Nat) : ArrowDataType → Reader IpcError ColumnValues
  | .uint64 => do return .uint64 (← Reader.repeated readU64 numRows)
  | .int64 => do return .int64 (← Reader.repeated readI64 numRows)
  | .uint8 => do return .uint8 (← Reader.exact .eof numRows)
  | .float64 => do return .float64 (← Reader.repeated readU64 numRows)
  | .boolean => do return .boolean (← readBools numRows)
  | .utf8 => do return .utf8 (← Reader.repeated readText numRows)
  | .binary => do return .binary (← Reader.repeated readBytes numRows)

def readColumn (numRows : Nat) (field : ColumnField) : Reader IpcError ColumnArray := do
  let validity ← readValidity
  let values ← readValues numRows field.dataType
  return ⟨values, validity⟩

def readColumns (numRows : Nat) : List ColumnField → Reader IpcError (List ColumnArray)
  | [] => pure []
  | field :: fields => do
      let col ← readColumn numRows field
      let cols ← readColumns numRows fields
      return col :: cols

def readField : Reader IpcError ColumnField := do
  let nameBytes ← readBytes
  match fromUtf8 nameBytes with
  | none => throw (.invalidName nameBytes)
  | some name =>
    let tag ← readU8
    match decodeDtype tag with
    | .error e => throw e
    | .ok dt =>
      let nullable ← readU8
      return ⟨name, dt, nullable != 0⟩

def readHeader : Reader IpcError ColumnSchema := do
  let magic ← Reader.exact .eof 8
  if magic ≠ ipcMagic then throw .invalidMagic
  let numFields ← readU32
  let fields ← Reader.repeated readField numFields
  return ⟨fields⟩

def readBatch (schema : ColumnSchema) : Reader IpcError (Option RecordBatch) := do
  let marker ← readU8
  if marker = 0 then return none
  if marker ≠ 1 then throw (.invalidMarker marker)
  let numRows ← readU32
  let columns ← readColumns numRows schema.fields
  match RecordBatch.tryNew schema columns with
  | .error e => throw (.batch e)
  | .ok batch => return some batch

structure IpcStreamReader where
  reader : List UInt8
  schema : ColumnSchema
  done : Bool

namespace IpcStreamReader

def new (reader : List UInt8) : Except IpcError IpcStreamReader := do
  let (schema, rest) ← readHeader reader
  return ⟨rest, schema, false⟩

/-- After an error the position in the stream no longer matters: nothing is read again. -/
def next (r : IpcStreamReader) : Option (Except IpcError RecordBatch) × IpcStreamReader :=
  if r.done then (none, r)
  else
    match readBatch r.schema r.reader with
    | .ok (some batch, rest) => (some (.ok batch), { r with reader := rest })
    | .ok (none, rest) => (none, { r with reader := rest, done := true })
    | .error e => (some (.error e), { r with done := true })

/-- The items of the iterator, at most `fuel` of them. -/
def items : Nat → IpcStreamReader → List (Except IpcError RecordBatch)
  | 0, _ => []
  | fuel + 1, r =>
      match r.next with
      | (none, _) => []
      | (some item, r) => item :: items fuel r

/-- Every batch takes a byte at least, and an error is the last item. -/
def all (r : IpcStreamReader) : List (Except IpcError RecordBatch) := r.items (r.reader.length + 1)

end IpcStreamReader

/-- `collect` into a result: all batches, or the first error. -/
def collectBatches : List (Except IpcError RecordBatch) → Except IpcError (List RecordBatch)
  | [] => .ok []
  | .error e :: _ => .error e
  | .ok batch :: rest => do return batch :: (← collectBatches rest)

def readIpcStream (reader : List UInt8) : Except IpcError (ColumnSchema × List RecordBatch) := do
  let stream ← IpcStreamReader.new reader
  let batches ← collectBatches stream.all
  return (stream.schema, batches)

end RasterH3.Columnar
