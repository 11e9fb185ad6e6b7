import Mathlib.Data.List.Forall2
import Mathlib.Data.Option.Basic
import RasterH3.Lib.Loops

/-!
# Record batches

A batch is a schema and a column of values for every field of it, each column with an
optional mask that says which of its rows are not null. The number of rows is kept beside
the columns. Building a batch checks the columns against the schema and against the first of
them, and not the masks. What conforms is stated apart from what is checked.

A mask that is shorter than its column is therefore accepted when a batch is built, and the
functions that slice and project have to say what they do with it. `Conforms` is what a
writer of batches may rely on, `WellFormed` what a reader of them is owed. The values of a
column are typed lists, floats by their bits, strings by their characters.
-/

namespace RasterH3.Columnar

inductive ArrowDataType where
  | uint64 | int64 | uint8 | float64 | boolean | utf8 | binary
  deriving DecidableEq, Repr

/-- The name in an error message. -/
def ArrowDataType.name : ArrowDataType → String
  | .uint64 => "UInt64"
  | .int64 => "Int64"
  | .uint8 => "UInt8"
  | .float64 => "Float64"
  | .boolean => "Boolean"
  | .utf8 => "Utf8"
  | .binary => "Binary"

structure ColumnField where
  name : String
  dataType : ArrowDataType
  nullable : Bool
  deriving DecidableEq, Repr

structure ColumnSchema where
  fields : List ColumnField
  deriving DecidableEq, Repr

/-- The values of a column; a `float64` is its bits. -/
inductive ColumnValues where
  | uint64 (values : List UInt64)
  | int64 (values : List Int64)
  | uint8 (values : List UInt8)
  | float64 (values : List UInt64)
  | boolean (values : List Bool)
  | utf8 (values : List String)
  | binary (values : List (List UInt8))
  deriving DecidableEq

/-- A column: in every variant the values stand beside the same mask. -/
structure ColumnArray where
  values : ColumnValues
  validity : Option (List Bool)
  deriving DecidableEq

namespace ColumnValues

def len : ColumnValues → Nat
  | uint64 values => values.length
  | int64 values => values.length
  | uint8 values => values.length
  | float64 values => values.length
  | boolean values => values.length
  | utf8 values => values.length
  | binary values => values.length

def dataType : ColumnValues → ArrowDataType
  | uint64 _ => .uint64
  | int64 _ => .int64
  | uint8 _ => .uint8
  | float64 _ => .float64
  | boolean _ => .boolean
  | utf8 _ => .utf8
  | binary _ => .binary

/-- `values[start..end]`. -/
def range (start stop : Nat) : ColumnValues → ColumnValues
  | uint64 values => uint64 ((values.take stop).drop start)
  | int64 values => int64 ((values.take stop).drop start)
  | uint8 values => uint8 ((values.take stop).drop start)
  | float64 values => float64 ((values.take stop).drop start)
  | boolean values => boolean ((values.take stop).drop start)
  | utf8 values => utf8 ((values.take stop).drop start)
  | binary values => binary ((values.take stop).drop start)

end ColumnValues

namespace ColumnArray

def len (c : ColumnArray) : Nat := c.values.len

def dataType (c : ColumnArray) : ArrowDataType := c.values.dataType

def slice (c : ColumnArray) (offset length : Nat) : ColumnArray :=
  let stop := min (offset + length) c.len
  let start := min offset stop
  ⟨c.values.range start stop, c.validity.map fun mask => (mask.take stop).drop start⟩

/-- Every row has a value and, where there is a mask, an entry in it. -/
structure HasRows (c : ColumnArray) (n : Nat) : Prop where
  len_eq : c.len = n
  mask_eq : ∀ mask, c.validity = some mask → mask.length = n

end ColumnArray

structure RecordBatch where
  schema : ColumnSchema
  columns : List ColumnArray
  numRows : Nat
  deriving DecidableEq

inductive BatchError where
  | fieldCount (fields columns : Nat)
  | columnLength (column length numRows : Nat)
  | columnType (name : String) (actual expected : ArrowDataType)
  | projectedColumn (index fields : Nat)
  /-- The panic of an index past the columns. -/
  | columnIndex (index : Nat)
  deriving DecidableEq, Repr

def BatchError.message : BatchError → String
  | fieldCount fields columns =>
      s!"Schema field count ({fields}) does not match column count ({columns})"
  | columnLength column length numRows =>
      s!"Column {column} length ({length}) does not match batch row count ({numRows})"
  | columnType name actual expected =>
      s!"Column '{name}' type {actual.name} does not match schema type {expected.name}"
  | projectedColumn index fields =>
      s!"Projected column index {index} out of bounds (schema has {fields} fields)"
  | columnIndex index => s!"index {index} out of bounds"

def ColumnSchema.project (schema : ColumnSchema) (indices : List Nat) :
    Except BatchError ColumnSchema := do
  let fields ← indices.mapM fun idx =>
    match schema.fields[idx]? with
    | some field => .ok field
    | none => .error (.projectedColumn idx schema.fields.length)
  return ⟨fields⟩

namespace RecordBatch

/-- The loop of `try_new` over the columns and the fields beside them. -/
def checkColumns (numRows : Nat) :
    Nat → List (ColumnArray × ColumnField) → Except BatchError Unit
  | _, [] => .ok ()
  | i, (col, field) :: rest =>
      if col.len ≠ numRows then .error (.columnLength i col.len numRows)
      else if col.dataType ≠ field.dataType then
        .error (.columnType field.name col.dataType field.dataType)
      else checkColumns numRows (i + 1) rest

def tryNew (schema : ColumnSchema) (columns : List ColumnArray) : Except BatchError RecordBatch :=
  if schema.fields.length ≠ columns.length then
    .error (.fieldCount schema.fields.length columns.length)
  else
    let numRows := (columns.head?.map ColumnArray.len).getD 0
    match checkColumns numRows 0 (columns.zip schema.fields) with
    | .error e => .error e
    | .ok () => .ok ⟨schema, columns, numRows⟩

def project (batch : RecordBatch) (indices : List Nat) : Except BatchError RecordBatch := do
  let projSchema ← batch.schema.project indices
  let projCols ← indices.mapM fun idx =>
    match batch.columns[idx]? with
    | some col => .ok col
    | none => .error (.columnIndex idx)
  return ⟨projSchema, projCols, batch.numRows⟩

def slice (batch : RecordBatch) (offset length : Nat) : RecordBatch :=
  let stop := min (offset + length) batch.numRows
  let start := min offset stop
  let numRows := stop - start
  ⟨batch.schema, batch.columns.map fun c => c.slice start numRows, numRows⟩

/-- A column of the field's type for every field, each with all the rows. -/
structure Conforms (batch : RecordBatch) : Prop where
  types : batch.columns.map ColumnArray.dataType = batch.schema.fields.map ColumnField.dataType
  rows : ∀ c ∈ batch.columns, c.HasRows batch.numRows

/-- Each column and each mask has exactly `num_rows` entries. -/
def WellFormed (batch : RecordBatch) : Prop := ∀ c ∈ batch.columns, c.HasRows batch.numRows

/-! ## Building, projecting and slicing -/

theorem checkColumns_ok {numRows i : Nat} {columns : List ColumnArray} {fields : List ColumnField}
    (hlen : columns.length = fields.length) :
    checkColumns numRows i (columns.zip fields) = .ok () ↔
      (∀ c ∈ columns, c.len = numRows) ∧
      columns.map ColumnArray.dataType = fields.map ColumnField.dataType := by
  induction columns generalizing i fields with
  | nil =>
    obtain rfl := List.length_eq_zero_iff.mp hlen.symm
    simp [checkColumns]
  | cons c columns ih =>
    cases fields with
    | nil => cases hlen
    | cons field fields =>
      have ih := @ih (i + 1) fields (Nat.succ.inj hlen)
      rw [List.zip_cons_cons, checkColumns, List.forall_mem_cons, List.map_cons, List.map_cons,
        List.cons.injEq]
      split
      next hlen => simp [hlen]
      next hlen =>
        split
        next htype => simp [htype]
        next htype =>
          rw [ih, and_iff_right (not_not.mp hlen), and_iff_right (not_not.mp htype)]

/-- What the checks let through: the types, and the length of the first column for all. -/
theorem tryNew_ok {schema : ColumnSchema} {columns : List ColumnArray} {n : Nat}
    (htypes : columns.map ColumnArray.dataType = schema.fields.map ColumnField.dataType)
    (hlen : ∀ c ∈ columns, c.len = n) :
    tryNew schema columns = .ok ⟨schema, columns, if columns = [] then 0 else n⟩ := by
  have hcount : columns.length = schema.fields.length := by
    simpa using congrArg List.length htypes
  have hrows : (columns.head?.map ColumnArray.len).getD 0 = if columns = [] then 0 else n := by
    cases columns with
    | nil => rfl
    | cons c columns => exact hlen c List.mem_cons_self
  have hcheck : checkColumns (if columns = [] then 0 else n) 0 (columns.zip schema.fields) =
      .ok () := by
    refine (checkColumns_ok hcount).mpr ⟨fun c hc => ?_, htypes⟩
    rw [if_neg (List.ne_nil_of_mem hc)]
    exact hlen c hc
  rw [tryNew, if_neg (by omega), hrows]
  simp only [hcheck]

end RecordBatch

theorem picked_map {α β : Type} {l xs : List α} {indices : List Nat} (f : α → β)
    (h : List.Forall₂ (fun i x => l[i]? = some x) indices xs) :
    indices.map (fun i => (l.map f)[i]?) = (xs.map f).map some := by
  induction h with
  | nil => rfl
  | cons hx _ ih =>
    rw [List.map_cons, ih, List.map_cons, List.map_cons, List.getElem?_map, hx, Option.map_some]

theorem picked_mem {α : Type} {l xs : List α} {indices : List Nat}
    (h : List.Forall₂ (fun i x => l[i]? = some x) indices xs) : xs ⊆ l := by
  induction h with
  | nil => exact List.nil_subset l
  | cons hx _ ih => exact List.cons_subset.mpr ⟨List.mem_of_getElem? hx, ih⟩

namespace RecordBatch

/-- A projection conforms to its schema and keeps the rows, also when it keeps no column. -/
theorem project_conforms {batch batch' : RecordBatch} {indices : List Nat} (h : batch.Conforms)
    (hproject : batch.project indices = .ok batch') :
    batch'.Conforms ∧ batch'.numRows = batch.numRows := by
  rw [project, ColumnSchema.project] at hproject
  cases hfields : indices.mapM (m := Except BatchError) fun idx =>
      match batch.schema.fields[idx]? with
      | some field => .ok field
      | none => .error (.projectedColumn idx batch.schema.fields.length) with
  | error e =>
    rw [hfields] at hproject
    cases hproject
  | ok fields =>
    cases hcols : indices.mapM (m := Except BatchError) fun idx =>
        match batch.columns[idx]? with
        | some col => .ok col
        | none => .error (.columnIndex idx) with
    | error e =>
      rw [hfields, hcols] at hproject
      cases hproject
    | ok cols =>
      rw [hfields, hcols] at hproject
      obtain rfl := Except.ok.inj hproject
      have hpicked : List.Forall₂ (fun i c => batch.columns[i]? = some c) indices cols := by
        refine (Loops.mapM_ok.mp hcols).imp fun i c hc => ?_
        split at hc
        next hi => exact hi.trans (congrArg some (Except.ok.inj hc))
        next => cases hc
      have hpicked' : List.Forall₂ (fun i f => batch.schema.fields[i]? = some f) indices fields := by
        refine (Loops.mapM_ok.mp hfields).imp fun i f hf => ?_
        split at hf
        next hi => exact hi.trans (congrArg some (Except.ok.inj hf))
        next => cases hf
      refine ⟨⟨?_, fun c hc => h.rows c (picked_mem hpicked hc)⟩, rfl⟩
      have hmap := picked_map ColumnArray.dataType hpicked
      rw [h.types, picked_map ColumnField.dataType hpicked'] at hmap
      exact (List.map_injective_iff.mpr (Option.some_injective _) hmap).symm

theorem len_range (values : ColumnValues) (start stop : Nat) :
    (values.range start stop).len = min stop values.len - start := by
  cases values <;> simp [ColumnValues.range, ColumnValues.len]

theorem slice_hasRows {c : ColumnArray} {n : Nat} (h : c.HasRows n) {start length : Nat}
    (hle : start + length ≤ n) : (c.slice start length).HasRows length := by
  have hlen := h.len_eq
  have hstop : min (start + length) c.len = start + length := by omega
  have hstart : min start (start + length) = start := by omega
  constructor
  · show (c.values.range _ _).len = _
    rw [len_range, hstop, hstart, show c.values.len = n from hlen]
    omega
  · intro mask hmask
    obtain ⟨mask', hmask', rfl⟩ := Option.map_eq_some_iff.mp hmask
    rw [List.length_drop, List.length_take, h.mask_eq mask' hmask', hstop, hstart]
    omega

theorem slice_conforms {batch : RecordBatch} (h : batch.Conforms) (offset length : Nat) :
    (batch.slice offset length).Conforms := by
  constructor
  · show (batch.columns.map _).map _ = _
    rw [List.map_map]
    refine Eq.trans ?_ h.types
    refine List.map_congr_left fun c _ => ?_
    cases hc : c.values <;>
      simp [ColumnArray.dataType, ColumnArray.slice, ColumnValues.dataType, ColumnValues.range, hc]
  · intro c hc
    obtain ⟨c', hc', rfl⟩ := List.mem_map.mp hc
    refine slice_hasRows (h.rows c' hc') ?_
    omega

end RecordBatch

end RasterH3.Columnar
