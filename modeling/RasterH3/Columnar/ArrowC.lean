import RasterH3.Columnar.Ipc

/-!
# The Arrow C data interface

A batch is exported as an array of structs: an array for every column, with its buffers, and
a schema with the names as C strings. Both may be taken apart by whoever receives them, who
may put an offset and a length on the struct and on each child. The import reads only what
these leave visible.

A buffer is what its pointer points to. To read past it, or as something it is not, is
outside the contract of the import, and is an error of its own here.
-/

namespace RasterH3.Columnar

open Pmtiles

/-! ## Schemas -/

/-- The bytes before the NUL that ends a C string. -/
def CString : Type := { bytes : List UInt8 // 0 ∉ bytes }

namespace CString

def new (bytes : List UInt8) : Option CString :=
  if h : 0 ∈ bytes then none else some ⟨bytes, h⟩

/-- `CString::default`. -/
def empty : CString := ⟨[], nofun⟩

def toStringLossy (s : CString) : String := fromUtf8Lossy s.1

end CString

def arrowFlagNullable : Int64 := 2

def ArrowDataType.arrowFormatStr : ArrowDataType → String
  | .uint64 => "L"
  | .int64 => "l"
  | .uint8 => "C"
  | .float64 => "g"
  | .boolean => "b"
  | .utf8 => "u"
  | .binary => "z"

/-- The schema of a column: a pointer is `none` when it is null. -/
structure LeafSchema where
  format : Option CString
  name : Option CString
  flags : Int64

structure ArrowSchema where
  released : Bool
  format : Option CString
  children : List (Option LeafSchema)

inductive ArrowError where
  | schemaReleased
  | notStruct (format : String)
  | nullSchemaChild
  | nullFormat (name : String)
  | unsupported (format name : String)
  | arrayReleased
  | childCount (children fields : Nat)
  | nullChild (i : Nat)
  | bufferCount (i buffers expected : Nat)
  | childLength (i : Nat) (length : Int) (needed : Nat)
  /-- Outside the contract: a read past a buffer, or of a buffer of another type. -/
  | outside
  deriving DecidableEq, Repr

def ArrowError.message : ArrowError → String
  | schemaReleased => "ArrowSchema is released or null"
  | notStruct format => s!"Expected top-level struct format '+s', got '{format}'"
  | nullSchemaChild => "Null child pointer in ArrowSchema"
  | nullFormat name => s!"Null format string for ArrowSchema child '{name}'"
  | unsupported format name => s!"Unsupported Arrow format '{format}' for column '{name}'"
  | arrayReleased => "ArrowArray is already released"
  | childCount children fields =>
      s!"ArrowArray n_children ({children}) != schema field count ({fields})"
  | nullChild i => s!"Null child pointer {i} in ArrowArray"
  | bufferCount i buffers expected =>
      s!"ArrowArray child {i} has {buffers} buffers, expected {expected}"
  | childLength i length needed =>
      s!"ArrowArray child {i} length ({length}) is shorter than parent offset + length ({needed})"
  | outside => ""

/-- A name with a NUL in it is no C string, and the default is empty. -/
def LeafSchema.fromField (field : ColumnField) : LeafSchema where
  format := some ((CString.new (utf8 field.dataType.arrowFormatStr)).getD .empty)
  name := some ((CString.new (utf8 field.name)).getD .empty)
  flags := if field.nullable then arrowFlagNullable else 0

def ArrowSchema.fromColumnSchema (schema : ColumnSchema) : ArrowSchema where
  released := false
  format := some ((CString.new (utf8 "+s")).getD .empty)
  children := schema.fields.map fun field => some (.fromField field)

def decodeFormat (format : String) : Option ArrowDataType :=
  match format with
  | "L" => some .uint64
  | "l" => some .int64
  | "C" => some .uint8
  | "g" => some .float64
  | "b" => some .boolean
  | "u" => some .utf8
  | "z" => some .binary
  | _ => none

def LeafSchema.toField : Option LeafSchema → Except ArrowError ColumnField
  | none => .error .nullSchemaChild
  | some child =>
      let name := (child.name.map CString.toStringLossy).getD ""
      match child.format with
      | none => .error (.nullFormat name)
      | some format =>
          match decodeFormat format.toStringLossy with
          | none => .error (.unsupported format.toStringLossy name)
          | some dt => .ok ⟨name, dt, child.flags &&& arrowFlagNullable ≠ 0⟩

def ArrowSchema.toColumnSchema (schema : ArrowSchema) : Except ArrowError ColumnSchema :=
  if schema.released then .error .schemaReleased
  else
    match schema.format with
    | none => .error .schemaReleased
    | some format =>
        if format.toStringLossy ≠ "+s" then .error (.notStruct format.toStringLossy)
        else do return ⟨← schema.children.mapM LeafSchema.toField⟩

/-! ## Arrays -/

inductive OwnedArrowBuffer where
  | u8 (values : List UInt8)
  | u64 (values : List UInt64)
  | i64 (values : List Int64)
  | f64 (values : List UInt64)
  | i32 (values : List Int32)
  deriving DecidableEq

/-- The array of a column; a null pointer is `none`. -/
structure LeafArray where
  length : Int
  nullCount : Int
  offset : Int
  buffers : List (Option OwnedArrowBuffer)
  deriving DecidableEq

/-- The array of the struct; its own null bitmap is never read. -/
structure ArrowArray where
  released : Bool
  length : Int
  offset : Int
  children : List (Option LeafArray)
  deriving DecidableEq

/-- The loop of `pack_bits`, from bit `i` on. -/
def setBits : Nat → List Bool → List UInt8 → List UInt8
  | _, [], out => out
  | i, b :: bits, out =>
      setBits (i + 1) bits
        (if b then out.modify (i / 8) (· ||| UInt8.ofNat (1 <<< (i % 8))) else out)

def packBits (bits : List Bool) : List UInt8 :=
  setBits 0 bits (List.replicate ((bits.length + 7) / 8) 0)

/-- The loop of `pack_var_width`, with the data copied so far. -/
def packValues (data : List UInt8) : List (List UInt8) → List Int32 × List UInt8
  | [] => ([], data)
  | v :: values =>
      let data := data ++ v
      let packed := packValues data values
      (Int32.ofNat data.length :: packed.1, packed.2)

def packVarWidth (values : List (List UInt8)) : List Int32 × List UInt8 :=
  let packed := packValues [] values
  (0 :: packed.1, packed.2)

namespace ColumnArray

def nullCount (c : ColumnArray) : Nat := (c.validity.map (·.count false)).getD 0

/-- The buffers behind the validity bitmap. -/
def valueBuffers : ColumnValues → List (Option OwnedArrowBuffer)
  | .uint64 values => [some (.u64 values)]
  | .int64 values => [some (.i64 values)]
  | .uint8 values => [some (.u8 values)]
  | .float64 values => [some (.f64 values)]
  | .boolean values => [some (.u8 (packBits values))]
  | .utf8 values =>
      let packed := packVarWidth (values.map utf8)
      [some (.i32 packed.1), some (.u8 packed.2)]
  | .binary values =>
      let packed := packVarWidth values
      [some (.i32 packed.1), some (.u8 packed.2)]

end ColumnArray

def LeafArray.fromColumnArray (col : ColumnArray) : LeafArray where
  length := col.len
  nullCount := col.nullCount
  offset := 0
  buffers :=
    (match col.validity with
      | some val => if 0 < col.nullCount then some (.u8 (packBits val)) else none
      | none => none) :: ColumnArray.valueBuffers col.values

def ArrowArray.fromRecordBatch (batch : RecordBatch) : ArrowArray where
  released := false
  length := batch.numRows
  offset := 0
  children := batch.columns.map fun c => some (.fromColumnArray c)

/-! ## Reading -/

/-- The bit at a position of a bitmap, the lowest bit of a byte first. -/
def bitAt (bytes : List UInt8) (i : Nat) : Option Bool :=
  bytes[i / 8]?.map fun b => b.toNat.testBit (i % 8)

def unpackBits (buffer : Option OwnedArrowBuffer) (offset len : Nat) : Option (List Bool) :=
  match buffer with
  | none => some (List.replicate len true)
  | some (.u8 bytes) => (List.range len).mapM fun i => bitAt bytes (offset + i)
  | some _ => none

def readFixed {α : Type} (values : List α) (start len : Nat) : Option (List α) :=
  if len = 0 then some []
  else if start + len ≤ values.length then some ((values.drop start).take len)
  else none

/-- `&bytes[a..b]`, which panics when the bounds are out of order or out of range. -/
def sliceBytes (bytes : List UInt8) (a b : Nat) : Option (List UInt8) :=
  if a ≤ b ∧ b ≤ bytes.length then some ((bytes.drop a).take (b - a)) else none

/-- `.max(0) as usize`. -/
def clampOffset (k : Int32) : Nat := k.toInt.toNat

def readVarLen (offBuffer dataBuffer : Option OwnedArrowBuffer) (start len : Nat) :
    Option (List (List UInt8)) :=
  match offBuffer with
  | none => some []
  | some (.i32 allOffsets) =>
      if len = 0 then some []
      else if allOffsets.length < start + len + 1 then none
      else
        let offsets := allOffsets.drop start
        let bound := fun r => clampOffset (offsets.getD r 0)
        let totalBytes := bound len
        match dataBuffer with
        | some (.u8 data) =>
            if data.length < totalBytes then none
            else (List.range len).mapM fun r =>
              sliceBytes (data.take totalBytes) (bound r) (bound (r + 1))
        | none => (List.range len).mapM fun r => sliceBytes [] (bound r) (bound (r + 1))
        | some _ => none
  | some _ => none

/-- The values of a column of the given type, from buffers 1 and 2. -/
def readColumnValues (dt : ArrowDataType) (b₁ b₂ : Option OwnedArrowBuffer) (start len : Nat) :
    Option ColumnValues :=
  match dt, b₁ with
  | .uint64, some (.u64 values) => (readFixed values start len).map .uint64
  | .int64, some (.i64 values) => (readFixed values start len).map .int64
  | .uint8, some (.u8 values) => (readFixed values start len).map .uint8
  | .float64, some (.f64 values) => (readFixed values start len).map .float64
  | .boolean, packed => (unpackBits packed start len).map .boolean
  | .utf8, offsets => (readVarLen offsets b₂ start len).map fun values =>
      .utf8 (values.map fun b => (fromUtf8 b).getD "")
  | .binary, offsets => (readVarLen offsets b₂ start len).map .binary
  | .uint64, none => some (.uint64 [])
  | .int64, none => some (.int64 [])
  | .uint8, none => some (.uint8 [])
  | .float64, none => some (.float64 [])
  | _, _ => none

def expectedBuffers : ArrowDataType → Nat
  | .utf8 | .binary => 3
  | _ => 2

/-- A count of -1 was not computed, so the bitmap has to be read. -/
def readNulls (nullCount : Int) (bitmap : Option OwnedArrowBuffer) (start len : Nat) :
    Option (Option (List Bool)) :=
  if nullCount = 0 ∨ bitmap = none then some none
  else (unpackBits bitmap start len).map some

def LeafArray.toColumnArray (numRows parentOffset i : Nat) (field : ColumnField)
    (child : LeafArray) : Except ArrowError ColumnArray :=
  if child.buffers.length < expectedBuffers field.dataType then
    .error (.bufferCount i child.buffers.length (expectedBuffers field.dataType))
  else
    let start := child.offset.toNat + parentOffset
    let len := numRows
    if child.length.toNat < parentOffset + len then
      .error (.childLength i child.length (parentOffset + len))
    else
      match readNulls child.nullCount (child.buffers.getD 0 none) start len,
          readColumnValues field.dataType (child.buffers.getD 1 none)
            (child.buffers.getD 2 none) start len with
      | some validity, some values => .ok ⟨values, validity⟩
      | _, _ => .error .outside

/-- The loop over the fields and the children beside them. -/
def importColumns (numRows parentOffset : Nat) :
    Nat → List (ColumnField × Option LeafArray) → Except ArrowError (List ColumnArray)
  | _, [] => .ok []
  | i, (_, none) :: _ => .error (.nullChild i)
  | i, (field, some child) :: rest => do
      let col ← child.toColumnArray numRows parentOffset i field
      return col :: (← importColumns numRows parentOffset (i + 1) rest)

def ArrowArray.toRecordBatch (array : ArrowArray) (schema : ColumnSchema) :
    Except ArrowError RecordBatch :=
  if array.released then .error .arrayReleased
  else if array.children.length ≠ schema.fields.length then
    .error (.childCount array.children.length schema.fields.length)
  else do
    let numRows := array.length.toNat
    let columns ← importColumns numRows array.offset.toNat 0 (schema.fields.zip array.children)
    return ⟨schema, columns, numRows⟩

end RasterH3.Columnar
