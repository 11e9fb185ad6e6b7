import RasterH3.Columnar.Ipc
import RasterH3.Lib.Format
import RasterH3.Proofs.SortRunCodec

/-!
# The format of a stream

Whether a stream is read back, and where the reading of a damaged one stops, are questions
about bytes that nobody has written. So the readers are not compared with the writer here.
Each of them reads a format instead, a relation between a value and the bytes that stand for
it, which is stated beside the reader; `Reads` says that the reader succeeds on an input
exactly if the input begins with bytes of the format, and takes those. The formats are put
together the way the readers are, and what is read by two readers in a row is read by their
composition.

Any byte but zero stands for true. Apart from that the one freedom of the format is the
mask, which may have any length, whatever the rows of its batch: the values of a column are
as many as the rows, the columns are those of the header, and their types are the ones it
announces. A batch without columns has nothing to count its rows by, so that its frame loses
them (`Frame`).

For a whole stream, `exists_frames` divides any input in two: frames that are read one by
one, and a rest at which the reader stops, because it finds the end marker there or because
it fails. The induction is on the length of the input, since every frame takes at least a
byte of it; the same fact makes the fuel of `items` immaterial (`items_eq_all`).
-/

namespace RasterH3.Columnar

open Bytes Pmtiles

/-! ## Numbers and strings of bytes -/

theorem readU8_reads : Reads readU8 fun x bytes => bytes = [x] := by
  intro input x rest
  cases input with
  | nil =>
    constructor
    · intro h
      cases h
    · rintro ⟨_, rfl, h⟩
      cases h
  | cons b input =>
    constructor
    · intro h
      obtain ⟨rfl, rfl⟩ := Prod.mk.inj (Except.ok.inj h)
      exact ⟨_, rfl, rfl⟩
    · rintro ⟨_, rfl, h⟩
      obtain ⟨rfl, rfl⟩ := List.cons.inj h
      rfl

theorem readU32_reads : Reads readU32 fun n bytes => n < 2 ^ 32 ∧ bytes = writeLe 4 n := by
  rw [show 2 ^ 32 = 256 ^ 4 from rfl]
  exact Reads.le IpcError.eof 4

theorem readU64_reads : Reads readU64 fun v bytes => bytes = writeLe 8 v.toNat := by
  refine ((Reads.le IpcError.eof 8).map UInt64.ofNat).congr fun v bytes => ?_
  constructor
  · rintro ⟨n, ⟨hn, rfl⟩, rfl⟩
    rw [UInt64.toNat_ofNat', Nat.mod_eq_of_lt (by omega)]
  · rintro rfl
    exact ⟨v.toNat, ⟨v.toNat_lt, rfl⟩, (UInt64.ofNat_toNat).symm⟩

theorem readI64_reads : Reads readI64 fun v bytes => bytes = writeI64 v := by
  refine ((Reads.le IpcError.eof 8).map fun n => Int64.ofBitVec (BitVec.ofNat 64 n)).congr
    fun v bytes => ?_
  constructor
  · rintro ⟨n, ⟨hn, rfl⟩, rfl⟩
    rw [writeI64, Int64.toBitVec_ofBitVec, BitVec.toNat_ofNat, Nat.mod_eq_of_lt (by omega)]
  · rintro rfl
    exact ⟨v.toBitVec.toNat, ⟨v.toBitVec.isLt, rfl⟩, by simp⟩

/-- Any byte but zero is true. -/
def Bools (n : Nat) : Format (List Bool) := fun v bytes => bytes.length = n ∧ v = bytes.map (· != 0)

theorem readBools_reads (n : Nat) : Reads (readBools n) (Bools n) := by
  refine ((Reads.exact IpcError.eof n).map fun raw => raw.map (· != 0)).congr fun v bytes => ?_
  constructor
  · rintro ⟨raw, ⟨hlen, rfl⟩, rfl⟩
    exact ⟨hlen, rfl⟩
  · rintro ⟨hlen, rfl⟩
    exact ⟨bytes, ⟨hlen, rfl⟩, rfl⟩

theorem readBytes_reads :
    Reads readBytes fun b bytes => b.length < 2 ^ 32 ∧ bytes = writeBytes b := by
  refine (readU32_reads.bind fun len => Reads.exact IpcError.eof len).congr fun b bytes => ?_
  constructor
  · rintro ⟨n, _, _, ⟨hn, rfl⟩, ⟨rfl, rfl⟩, rfl⟩
    exact ⟨hn, rfl⟩
  · rintro ⟨hlen, rfl⟩
    exact ⟨b.length, _, b, ⟨hlen, rfl⟩, ⟨rfl, rfl⟩, rfl⟩

theorem readText_reads : Reads readText fun s bytes =>
    ∃ b, (b.length < 2 ^ 32 ∧ bytes = writeBytes b) ∧ s = fromUtf8Lossy b :=
  readBytes_reads.map fromUtf8Lossy

/-! ## Columns -/

inductive Mask : Format (Option (List Bool)) where
  | none : Mask none [0]
  | some {has : UInt8} {v : List Bool} {raw : List UInt8} : has ≠ 0 → v.length < 2 ^ 32 →
      Bools v.length v raw → Mask (some v) (has :: (writeLe 4 v.length ++ raw))

theorem readValidity_reads : Reads readValidity Mask := by
  refine (readU8_reads.bind fun has => Reads.ite (c := has = 0) (Reads.pure none)
    (readU32_reads.bind fun len => (readBools_reads len).map some)).congr fun v bytes => ?_
  constructor
  · rintro ⟨has, _, b', rfl, h, rfl⟩
    split at h
    next hzero =>
      obtain ⟨rfl, rfl⟩ := h
      obtain rfl := hzero
      exact .none
    next hhas =>
      obtain ⟨n, _, raw, ⟨hn, rfl⟩, ⟨v, ⟨hlen, rfl⟩, rfl⟩, rfl⟩ := h
      obtain rfl : (raw.map (· != 0)).length = n := by rw [List.length_map, hlen]
      exact .some hhas hn ⟨hlen, rfl⟩
  · rintro (_ | ⟨hhas, hlen, hv⟩)
    · exact ⟨0, [0], [], rfl, by simp, rfl⟩
    · refine ⟨_, _, _, rfl, ?_, rfl⟩
      rw [if_neg hhas]
      exact ⟨_, _, _, ⟨hlen, rfl⟩, ⟨_, hv, rfl⟩, rfl⟩

def Values (n : Nat) : Format ColumnValues
  | .uint64 values => Reads.Listed (fun v bytes => bytes = writeLe 8 v.toNat) n values
  | .int64 values => Reads.Listed (fun v bytes => bytes = writeI64 v) n values
  | .uint8 values => fun bytes => values.length = n ∧ bytes = values
  | .float64 values => Reads.Listed (fun v bytes => bytes = writeLe 8 v.toNat) n values
  | .boolean values => Bools n values
  | .utf8 values => Reads.Listed (fun s bytes =>
      ∃ b, (b.length < 2 ^ 32 ∧ bytes = writeBytes b) ∧ s = fromUtf8Lossy b) n values
  | .binary values => Reads.Listed (fun b bytes =>
      b.length < 2 ^ 32 ∧ bytes = writeBytes b) n values

theorem readValues_reads (n : Nat) (dt : ArrowDataType) :
    Reads (readValues n dt) fun values bytes => values.dataType = dt ∧ Values n values bytes := by
  cases dt with
  | uint64 =>
    refine ((readU64_reads.repeated n).map ColumnValues.uint64).congr fun values bytes => ?_
    cases values <;> simp [ColumnValues.dataType, Values]
  | int64 =>
    refine ((readI64_reads.repeated n).map ColumnValues.int64).congr fun values bytes => ?_
    cases values <;> simp [ColumnValues.dataType, Values]
  | uint8 =>
    refine ((Reads.exact IpcError.eof n).map ColumnValues.uint8).congr fun values bytes => ?_
    cases values with
    | uint8 values =>
      constructor
      · rintro ⟨_, ⟨hlen, rfl⟩, ⟨⟩⟩
        exact ⟨rfl, hlen, rfl⟩
      · rintro ⟨-, hlen, rfl⟩
        exact ⟨_, ⟨hlen, rfl⟩, rfl⟩
    | _ => simp [ColumnValues.dataType]
  | float64 =>
    refine ((readU64_reads.repeated n).map ColumnValues.float64).congr fun values bytes => ?_
    cases values <;> simp [ColumnValues.dataType, Values]
  | boolean =>
    refine ((readBools_reads n).map ColumnValues.boolean).congr fun values bytes => ?_
    cases values <;> simp [ColumnValues.dataType, Values]
  | utf8 =>
    refine ((readText_reads.repeated n).map ColumnValues.utf8).congr fun values bytes => ?_
    cases values <;> simp [ColumnValues.dataType, Values]
  | binary =>
    refine ((readBytes_reads.repeated n).map ColumnValues.binary).congr fun values bytes => ?_
    cases values <;> simp [ColumnValues.dataType, Values]

inductive Column (n : Nat) (dt : ArrowDataType) : Format ColumnArray where
  | mk {values : ColumnValues} {validity : Option (List Bool)} {b b' : List UInt8} :
      Mask validity b → values.dataType = dt → Values n values b' →
      Column n dt ⟨values, validity⟩ (b ++ b')

theorem readColumn_reads (n : Nat) (field : ColumnField) :
    Reads (readColumn n field) (Column n field.dataType) := by
  refine (readValidity_reads.bind fun validity =>
    (readValues_reads n field.dataType).map fun values => ColumnArray.mk values validity).congr
      fun col bytes => ?_
  constructor
  · rintro ⟨validity, b, b', hmask, ⟨values, ⟨htype, hvalues⟩, rfl⟩, rfl⟩
    exact .mk hmask htype hvalues
  · rintro ⟨hmask, htype, hvalues⟩
    exact ⟨_, _, _, hmask, ⟨_, ⟨htype, hvalues⟩, rfl⟩, rfl⟩

inductive Columns (n : Nat) : List ColumnField → Format (List ColumnArray) where
  | nil : Columns n [] [] []
  | cons {field : ColumnField} {fields : List ColumnField} {col : ColumnArray}
      {cols : List ColumnArray} {b b' : List UInt8} : Column n field.dataType col b →
      Columns n fields cols b' → Columns n (field :: fields) (col :: cols) (b ++ b')

theorem readColumns_reads (n : Nat) (fields : List ColumnField) :
    Reads (readColumns n fields) (Columns n fields) := by
  induction fields with
  | nil =>
    refine (Reads.pure []).congr fun cols bytes => ?_
    constructor
    · rintro ⟨rfl, rfl⟩
      exact .nil
    · rintro ⟨⟩
      exact ⟨rfl, rfl⟩
  | cons field fields ih =>
    refine ((readColumn_reads n field).bind fun col => ih.map fun cols => col :: cols).congr
      fun cols bytes => ?_
    constructor
    · rintro ⟨col, b, b', hcol, ⟨cols, hcols, rfl⟩, rfl⟩
      exact .cons hcol hcols
    · rintro (_ | ⟨hcol, hcols⟩)
      exact ⟨_, _, _, hcol, ⟨_, hcols, rfl⟩, rfl⟩

/-! ## The header -/

theorem fromUtf8_eq_some {bytes : List UInt8} {s : String} :
    fromUtf8 bytes = some s ↔ bytes = utf8 s := by
  constructor
  · intro h
    rw [fromUtf8, String.fromUTF8?] at h
    split at h
    next =>
      obtain rfl := Option.some.inj h
      rfl
    next => cases h
  · rintro rfl
    exact fromUtf8_utf8 s

theorem decodeDtype_eq_ok {tag : UInt8} {dt : ArrowDataType} :
    decodeDtype tag = .ok dt ↔ tag = encodeDtype dt := by
  constructor
  · intro h
    unfold decodeDtype at h
    split at h
    all_goals cases h
    all_goals rfl
  · rintro rfl
    cases dt <;> rfl

/-- The flag is any byte that says whether the field is nullable. -/
def Field : Format ColumnField := fun field bytes =>
  (utf8 field.name).length < 2 ^ 32 ∧ ∃ flag : UInt8, field.nullable = (flag != 0) ∧
    bytes = writeBytes (utf8 field.name) ++ [encodeDtype field.dataType, flag]

theorem readTag_reads (name : String) (tag : UInt8) : Reads (match decodeDtype tag with
    | .error e => throw e
    | .ok dt => readU8 >>= fun nullable =>
        (pure ⟨name, dt, nullable != 0⟩ : Reader IpcError ColumnField)) fun field bytes =>
    tag = encodeDtype field.dataType ∧ field.name = name ∧
      ∃ flag : UInt8, bytes = [flag] ∧ field.nullable = (flag != 0) := by
  cases htag : decodeDtype tag with
  | error e =>
    refine (Reads.throw e).congr fun field bytes => ⟨False.elim, fun h => ?_⟩
    rw [decodeDtype_eq_ok.mpr h.1] at htag
    cases htag
  | ok dt =>
    obtain rfl := decodeDtype_eq_ok.mp htag
    refine (readU8_reads.map fun nullable => ColumnField.mk name dt (nullable != 0)).congr
      fun field bytes => ?_
    constructor
    · rintro ⟨flag, rfl, rfl⟩
      exact ⟨rfl, rfl, flag, rfl, rfl⟩
    · rintro ⟨hdt, rfl, flag, rfl, hnull⟩
      rw [decodeDtype_eq_ok.mpr hdt] at htag
      obtain rfl := Except.ok.inj htag
      exact ⟨flag, rfl, by rw [← hnull]⟩

theorem readName_reads (nameBytes : List UInt8) : Reads (match fromUtf8 nameBytes with
    | none => throw (.invalidName nameBytes)
    | some name => readU8 >>= fun tag => match decodeDtype tag with
        | .error e => throw e
        | .ok dt => readU8 >>= fun nullable =>
            (pure ⟨name, dt, nullable != 0⟩ : Reader IpcError ColumnField)) fun field bytes =>
    nameBytes = utf8 field.name ∧ ∃ flag : UInt8, field.nullable = (flag != 0) ∧
      bytes = [encodeDtype field.dataType, flag] := by
  cases hutf8 : fromUtf8 nameBytes with
  | none =>
    refine (Reads.throw _).congr fun field bytes => ⟨False.elim, fun h => ?_⟩
    rw [fromUtf8_eq_some.mpr h.1] at hutf8
    cases hutf8
  | some name =>
    obtain rfl := fromUtf8_eq_some.mp hutf8
    refine (readU8_reads.bind fun tag => readTag_reads name tag).congr fun field bytes => ?_
    constructor
    · rintro ⟨_, _, _, rfl, ⟨rfl, rfl, flag, rfl, hnull⟩, rfl⟩
      exact ⟨rfl, flag, hnull, rfl⟩
    · rintro ⟨hfield, flag, hnull, rfl⟩
      rw [fromUtf8_eq_some.mpr hfield] at hutf8
      exact ⟨_, _, _, rfl, ⟨rfl, Option.some.inj hutf8, flag, rfl, hnull⟩, rfl⟩

theorem readField_reads : Reads readField Field := by
  refine (readBytes_reads.bind readName_reads).congr fun field bytes => ?_
  constructor
  · rintro ⟨_, _, _, ⟨hlen, rfl⟩, ⟨rfl, flag, hnull, rfl⟩, rfl⟩
    exact ⟨hlen, flag, hnull, rfl⟩
  · rintro ⟨hlen, flag, hnull, rfl⟩
    exact ⟨_, _, _, ⟨hlen, rfl⟩, ⟨rfl, flag, hnull, rfl⟩, rfl⟩

def Header : Format ColumnSchema := fun schema bytes =>
  schema.fields.length < 2 ^ 32 ∧
    ∃ b, Reads.Listed Field schema.fields.length schema.fields b ∧
      bytes = ipcMagic ++ (writeLe 4 schema.fields.length ++ b)

theorem readHeader_reads : Reads readHeader Header := by
  refine ((Reads.exact IpcError.eof 8).bind fun magic => Reads.ite (c := magic ≠ ipcMagic)
    (Reads.throw .invalidMagic) (readU32_reads.bind fun numFields =>
      (readField_reads.repeated numFields).map ColumnSchema.mk)).congr fun schema bytes => ?_
  constructor
  · rintro ⟨magic, _, b', ⟨-, rfl⟩, h, rfl⟩
    split at h
    next => exact h.elim
    next hmagic =>
      obtain ⟨n, _, b, ⟨hn, rfl⟩, ⟨fields, hfields, rfl⟩, rfl⟩ := h
      obtain rfl := not_not.mp hmagic
      obtain rfl := hfields.1
      exact ⟨hn, b, hfields, rfl⟩
  · rintro ⟨hn, b, hfields, rfl⟩
    refine ⟨ipcMagic, _, _, ⟨rfl, rfl⟩, ?_, rfl⟩
    rw [if_neg (not_not.mpr rfl)]
    exact ⟨_, _, b, ⟨hn, rfl⟩, ⟨_, hfields, rfl⟩, rfl⟩

/-! ## Batches -/

theorem Values.len_eq {n : Nat} {values : ColumnValues} {bytes : List UInt8}
    (h : Values n values bytes) : values.len = n := by
  cases values with
  | boolean v =>
    obtain ⟨hlen, rfl⟩ := h
    rw [ColumnValues.len, List.length_map, hlen]
  | _ => exact h.1

theorem Columns.types {n : Nat} {fields : List ColumnField} {cols : List ColumnArray}
    {bytes : List UInt8} (h : Columns n fields cols bytes) :
    cols.map ColumnArray.dataType = fields.map ColumnField.dataType := by
  induction h with
  | nil => rfl
  | cons hcol _ ih =>
    obtain ⟨-, htype, -⟩ := hcol
    rw [List.map_cons, List.map_cons, ih]
    exact congrArg (· :: _) htype

theorem Columns.len_eq {n : Nat} {fields : List ColumnField} {cols : List ColumnArray}
    {bytes : List UInt8} (h : Columns n fields cols bytes) : ∀ c ∈ cols, c.len = n := by
  induction h with
  | nil => exact nofun
  | cons hcol _ ih =>
    obtain ⟨-, -, hvalues⟩ := hcol
    exact List.forall_mem_cons.mpr ⟨hvalues.len_eq, ih⟩

/-- A batch without columns loses its rows. -/
inductive Frame (schema : ColumnSchema) : Format (Option RecordBatch) where
  | stop : Frame schema none [0]
  | batch {n : Nat} {cols : List ColumnArray} {b : List UInt8} : n < 2 ^ 32 →
      Columns n schema.fields cols b →
      Frame schema (some ⟨schema, cols, if cols = [] then 0 else n⟩) (1 :: (writeLe 4 n ++ b))

theorem Frame.rows_eq {schema schema' : ColumnSchema} {columns : List ColumnArray} {numRows : Nat}
    {bytes : List UInt8} (h : Frame schema (some ⟨schema', columns, numRows⟩) bytes) :
    ∃ n b, n < 2 ^ 32 ∧ Columns n schema.fields columns b ∧
      numRows = (if columns = [] then 0 else n) ∧ bytes = 1 :: (writeLe 4 n ++ b) := by
  cases h with
  | batch hn hcols => exact ⟨_, _, hn, hcols, rfl, rfl⟩

theorem tryNew_reads (schema : ColumnSchema) (columns : List ColumnArray) :
    Reads (match RecordBatch.tryNew schema columns with
      | .error e => throw (.batch e)
      | .ok batch => (pure (some batch) : Reader IpcError (Option RecordBatch))) fun out bytes =>
    ∃ batch, RecordBatch.tryNew schema columns = .ok batch ∧ out = some batch ∧ bytes = [] := by
  cases htry : RecordBatch.tryNew schema columns with
  | error e =>
    refine (Reads.throw _).congr fun out bytes => ⟨False.elim, ?_⟩
    rintro ⟨_, h, -⟩
    cases h
  | ok batch =>
    refine (Reads.pure _).congr fun out bytes => ⟨fun h => ⟨batch, rfl, h⟩, ?_⟩
    rintro ⟨_, h, hout⟩
    obtain rfl := Except.ok.inj h
    exact hout

theorem readBatch_reads (schema : ColumnSchema) : Reads (readBatch schema) (Frame schema) := by
  refine (readU8_reads.bind fun marker => Reads.ite (c := marker = 0) (Reads.pure none)
    (Reads.ite (c := marker ≠ 1) (Reads.throw (.invalidMarker marker))
      (readU32_reads.bind fun n => (readColumns_reads n schema.fields).bind (tryNew_reads schema)))).congr
        fun out bytes => ?_
  constructor
  · rintro ⟨marker, _, b', rfl, h, rfl⟩
    split at h
    next hzero =>
      obtain ⟨rfl, rfl⟩ := h
      obtain rfl := hzero
      exact .stop
    next =>
      split at h
      next => exact h.elim
      next hone =>
        obtain ⟨n, _, _, ⟨hn, rfl⟩, ⟨cols, b, _, hcols, ⟨batch, htry, rfl, rfl⟩, rfl⟩, rfl⟩ := h
        obtain rfl := not_not.mp hone
        rw [RecordBatch.tryNew_ok hcols.types hcols.len_eq] at htry
        obtain rfl := Except.ok.inj htry
        rw [List.append_nil]
        exact .batch hn hcols
  · rintro (_ | @⟨n, cols, b, hn, hcols⟩)
    · exact ⟨0, [0], [], rfl, by simp, rfl⟩
    · refine ⟨1, [1], _, rfl, ?_, rfl⟩
      rw [if_neg (by decide), if_neg (by simp)]
      exact ⟨n, _, b, ⟨hn, rfl⟩, ⟨cols, b, [], hcols,
        ⟨_, RecordBatch.tryNew_ok hcols.types hcols.len_eq, rfl, rfl⟩,
        (List.append_nil b).symm⟩, rfl⟩

/-! ## Streams -/

/-- Batches, one after the other. -/
def Frames (schema : ColumnSchema) : Format (List RecordBatch) := fun batches =>
  Reads.Listed (fun batch => Frame schema (some batch)) batches.length batches

/-- A header, batches and the end marker. -/
def Stream : Format (ColumnSchema × List RecordBatch) := fun out bytes =>
  ∃ b b', Header out.1 b ∧ Frames out.1 out.2 b' ∧ bytes = b ++ (b' ++ [0])

theorem Frames.nil {schema : ColumnSchema} : Frames schema [] [] := ⟨rfl, [], .nil, rfl⟩

theorem Frames.cons {schema : ColumnSchema} {batch : RecordBatch} {batches : List RecordBatch}
    {b b' : List UInt8} (h : Frame schema (some batch) b) (h' : Frames schema batches b') :
    Frames schema (batch :: batches) (b ++ b') := by
  obtain ⟨-, pieces, hall, rfl⟩ := h'
  exact ⟨rfl, b :: pieces, .cons h hall, rfl⟩

theorem Frames.cases_cons {schema : ColumnSchema} {batch : RecordBatch}
    {batches : List RecordBatch} {bytes : List UInt8} (h : Frames schema (batch :: batches) bytes) :
    ∃ b b', Frame schema (some batch) b ∧ Frames schema batches b' ∧ bytes = b ++ b' := by
  obtain ⟨-, pieces, hall, rfl⟩ := h
  cases hall with
  | @cons _ b _ pieces hb hall => exact ⟨b, _, hb, ⟨rfl, pieces, hall, rfl⟩, rfl⟩

theorem Frame.length_pos {schema : ColumnSchema} {out : Option RecordBatch} {bytes : List UInt8}
    (h : Frame schema out bytes) : 0 < bytes.length := by
  cases h <;> simp

namespace IpcStreamReader

variable {schema : ColumnSchema} {input : List UInt8}

theorem next_eq : next ⟨input, schema, false⟩ = match readBatch schema input with
    | .ok (some batch, rest) => (some (.ok batch), ⟨rest, schema, false⟩)
    | .ok (none, rest) => (none, ⟨rest, schema, true⟩)
    | .error e => (some (.error e), ⟨input, schema, true⟩) := rfl

theorem items_done (fuel : Nat) : items fuel ⟨input, schema, true⟩ = [] := by
  cases fuel <;> rfl

theorem items_eq_all {fuel : Nat} (hfuel : input.length < fuel) :
    items fuel ⟨input, schema, false⟩ = all ⟨input, schema, false⟩ := by
  suffices h : ∀ fuel fuel', input.length < fuel → input.length < fuel' →
      items fuel ⟨input, schema, false⟩ = items fuel' ⟨input, schema, false⟩ from
    h _ _ hfuel (Nat.lt_succ_self _)
  clear hfuel
  intro fuel
  induction fuel generalizing input with
  | zero => omega
  | succ fuel ih =>
    intro fuel' hlt hlt'
    cases fuel' with
    | zero => omega
    | succ fuel' =>
      rw [items, items, next_eq]
      cases hread : readBatch schema input with
      | error e => simp only [items_done]
      | ok out =>
        obtain ⟨_ | batch, rest⟩ := out
        · rfl
        · obtain ⟨b, hb, rfl⟩ := (readBatch_reads schema _ _ _).mp hread
          have hpos := hb.length_pos
          rw [List.length_append] at hlt hlt'
          have hrest : items fuel ⟨rest, schema, false⟩ = items fuel' ⟨rest, schema, false⟩ :=
            ih fuel' (by omega) (by omega)
          simp only [hrest]

theorem all_error {e : IpcError} (h : readBatch schema input = .error e) :
    all ⟨input, schema, false⟩ = [.error e] := by
  rw [all, items, next_eq, h]
  simp only [items_done]

theorem all_stop {bytes rest : List UInt8} (h : Frame schema none bytes) :
    all ⟨bytes ++ rest, schema, false⟩ = [] := by
  rw [all, items, next_eq, (readBatch_reads schema).whole h]

theorem all_batch {batch : RecordBatch} {bytes rest : List UInt8}
    (h : Frame schema (some batch) bytes) :
    all ⟨bytes ++ rest, schema, false⟩ = .ok batch :: all ⟨rest, schema, false⟩ := by
  have hpos := h.length_pos
  rw [all, items, next_eq, (readBatch_reads schema).whole h]
  exact congrArg _ (items_eq_all (by rw [List.length_append]; omega))

theorem all_frames {batches : List RecordBatch} {bytes rest : List UInt8}
    (h : Frames schema batches bytes) :
    all ⟨bytes ++ rest, schema, false⟩ = batches.map .ok ++ all ⟨rest, schema, false⟩ := by
  induction batches generalizing bytes with
  | nil =>
    obtain ⟨-, pieces, hall, rfl⟩ := h
    cases hall
    rfl
  | cons batch batches ih =>
    obtain ⟨b, b', hb, hb', rfl⟩ := h.cases_cons
    rw [List.append_assoc, all_batch hb, ih hb']
    rfl

/-- The items are batches up to an end or an error. -/
theorem exists_frames (schema : ColumnSchema) (input : List UInt8) :
    ∃ batches bytes rest, Frames schema batches bytes ∧ input = bytes ++ rest ∧
      (([0] <+: rest ∧ all ⟨input, schema, false⟩ = batches.map .ok) ∨
        ∃ e, readBatch schema rest = .error e ∧
          all ⟨input, schema, false⟩ = batches.map .ok ++ [.error e]) := by
  induction hlen : input.length using Nat.strong_induction_on generalizing input with
  | h n ih =>
    cases hread : readBatch schema input with
    | error e => exact ⟨[], [], input, .nil, rfl, .inr ⟨e, hread, all_error hread⟩⟩
    | ok out =>
      obtain ⟨_ | batch, rest⟩ := out
      · obtain ⟨b, hb, rfl⟩ := (readBatch_reads schema _ _ _).mp hread
        refine ⟨[], [], _, .nil, rfl, .inl ⟨?_, all_stop hb⟩⟩
        cases hb
        exact List.prefix_append _ _
      · obtain ⟨b, hb, rfl⟩ := (readBatch_reads schema _ _ _).mp hread
        have hpos := hb.length_pos
        obtain ⟨batches, b', rest', hb', rfl, hall⟩ :=
          ih rest.length (by rw [← hlen, List.length_append]; omega) rest rfl
        refine ⟨batch :: batches, b ++ b', rest', .cons hb hb', (List.append_assoc ..).symm, ?_⟩
        rw [all_batch hb]
        rcases hall with ⟨hend, hall⟩ | ⟨e, he, hall⟩
        · exact .inl ⟨hend, by rw [hall]; rfl⟩
        · exact .inr ⟨e, he, by rw [hall]; rfl⟩

end IpcStreamReader

end RasterH3.Columnar
