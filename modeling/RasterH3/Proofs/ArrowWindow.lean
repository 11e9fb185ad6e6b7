import RasterH3.Columnar.ArrowC
import RasterH3.Proofs.SortRunCodec

/-!
# Arrays seen through a window

The arrays of the C Data interface come from anywhere. They may have an offset, of their own
and of the struct they are in; the buffers may hold anything before the first slot and after
the last; the nulls may have been counted or not, and a mask may be missing. So an importer
is not to be compared with one exporter. What is stated instead is what an array shows: it
shows a column when the slots from its offset on hold the rows of the column from some row
on.

Buffers come in three layouts, and there is a relation for each: values of a fixed width,
bits, and offsets into data. `ShowsVar` is the one where care is needed. Between an offset
and the next one lie the bytes of a value, and nothing is said of what lies outside the
offsets that are shown. For each layout the import of the visible part reads just the rows
it stands for (`LeafArray.Shows.import`); a mask without a null counts as none, which is all
that can be said of the nulls (`SameRows`).

A window on a window is a window: the offset of the struct and the row that the children
begin with add up (`slice_window`). So the import of a struct whose children show the
columns of a batch is a slice of the batch (`ArrowArray.Shows.import`), and putting an
offset and a length on what is shown leaves something shown (`ArrowArray.Shows.window`).
That an exported batch shows itself is left to the module on the round trip.
-/

namespace RasterH3.Columnar

open Pmtiles

def ColumnArray.isNull (c : ColumnArray) (i : Nat) : Bool :=
  c.validity.any fun mask => mask[i]? == some false

/-- The same values, and the same rows null: no mask is a mask without nulls. -/
structure RecordBatch.SameRows (a b : RecordBatch) : Prop where
  schema : a.schema = b.schema
  numRows : a.numRows = b.numRows
  columns : List.Forall₂ (fun c d => c.values = d.values ∧
    ∀ i < a.numRows, c.isNull i = d.isNull i) a.columns b.columns

/-! ## What an array shows -/

def ShowsFixed {α : Type} (buffer values : List α) (offset n first : Nat) : Prop :=
  offset + n ≤ buffer.length ∧ (buffer.drop offset).take n = (values.drop first).take n

def ShowsBits (bytes : List UInt8) (bits : Nat → Option Bool) (offset n first : Nat) : Prop :=
  ∀ i < n, bitAt bytes (offset + i) = bits (first + i)

/-- Between an offset and the next one lie the bytes of a value. -/
structure ShowsVar (offsets : List Int32) (data : List UInt8) (values : List (List UInt8))
    (offset n first : Nat) : Prop where
  length_le : offset + n + 1 ≤ offsets.length
  ordered : ∀ i < n,
    clampOffset (offsets.getD (offset + i) 0) ≤ clampOffset (offsets.getD (offset + i + 1) 0)
  within : clampOffset (offsets.getD (offset + n) 0) ≤ data.length
  bytes : ∀ i < n, some ((data.drop (clampOffset (offsets.getD (offset + i) 0))).take
    (clampOffset (offsets.getD (offset + i + 1) 0) - clampOffset (offsets.getD (offset + i) 0))) =
      values[first + i]?

def ShowsValues (b₁ b₂ : Option OwnedArrowBuffer) (offset n first : Nat) : ColumnValues → Prop
  | .uint64 values => ∃ buffer, b₁ = some (.u64 buffer) ∧ ShowsFixed buffer values offset n first
  | .int64 values => ∃ buffer, b₁ = some (.i64 buffer) ∧ ShowsFixed buffer values offset n first
  | .uint8 values => ∃ buffer, b₁ = some (.u8 buffer) ∧ ShowsFixed buffer values offset n first
  | .float64 values => ∃ buffer, b₁ = some (.f64 buffer) ∧ ShowsFixed buffer values offset n first
  | .boolean values => ∃ bytes, b₁ = some (.u8 bytes) ∧
      ShowsBits bytes (fun i => values[i]?) offset n first
  | .utf8 values => ∃ offsets data, b₁ = some (.i32 offsets) ∧ b₂ = some (.u8 data) ∧
      ShowsVar offsets data (values.map utf8) offset n first
  | .binary values => ∃ offsets data, b₁ = some (.i32 offsets) ∧ b₂ = some (.u8 data) ∧
      ShowsVar offsets data values offset n first

/-- The count of the nulls is known, or -1, and without a bitmap there are none. -/
structure ShowsNulls (bitmap : Option OwnedArrowBuffer) (nullCount : Int) (col : ColumnArray)
    (offset n first : Nat) : Prop where
  count : nullCount = -1 ∨
    nullCount = ((List.range n).countP fun i => col.isNull (first + i) : Nat)
  missing : bitmap = none → ∀ i < n, col.isNull (first + i) = false
  shown : ∀ buffer, bitmap = some buffer → ∃ bytes, buffer = .u8 bytes ∧
    ShowsBits bytes (fun i => some !col.isNull i) offset n first

structure LeafArray.Shows (child : LeafArray) (col : ColumnArray) (first : Nat) : Prop where
  buffers : expectedBuffers col.dataType ≤ child.buffers.length
  nulls : ShowsNulls (child.buffers.getD 0 none) child.nullCount col child.offset.toNat
    child.length.toNat first
  values : ShowsValues (child.buffers.getD 1 none) (child.buffers.getD 2 none)
    child.offset.toNat child.length.toNat first col.values

/-- Every child shows its column from the same row on, and what the struct leaves visible of
the children lies in the batch. -/
structure ArrowArray.Shows (array : ArrowArray) (batch : RecordBatch) (first : Nat) : Prop where
  live : array.released = false
  children : List.Forall₂ (fun child col => ∃ leaf, child = some leaf ∧ leaf.Shows col first ∧
    array.offset.toNat + array.length.toNat ≤ leaf.length.toNat ∧
      first + leaf.length.toNat ≤ batch.numRows) array.children batch.columns
  rows : first + array.offset.toNat + array.length.toNat ≤ batch.numRows

/-! ## Reading a part of what is shown -/

theorem mapM_range {α : Type} {f : Nat → Option α} {n : Nat} {xs : List α} (hlen : xs.length = n)
    (h : ∀ i < n, f i = xs[i]?) : (List.range n).mapM f = some xs := by
  induction n generalizing f xs with
  | zero =>
    obtain rfl := List.length_eq_zero_iff.mp hlen
    rfl
  | succ n ih =>
    cases xs with
    | nil => cases hlen
    | cons x xs =>
      have hrest : (List.range n).mapM (f ∘ Nat.succ) = some xs :=
        ih (Nat.succ.inj hlen) fun i hi => h (i + 1) (by omega)
      rw [List.range_succ_eq_map, List.mapM_cons, h 0 (by omega), List.mapM_map]
      simp only [List.getElem?_cons_zero]
      show (do let ys ← (List.range n).mapM (f ∘ Nat.succ); pure (x :: ys)) = _
      rw [hrest]
      rfl

variable {offset n first parent len : Nat}

theorem ShowsFixed.read {α : Type} {buffer values : List α}
    (h : ShowsFixed buffer values offset n first) (hle : parent + len ≤ n) :
    readFixed buffer (offset + parent) len = some ((values.drop (first + parent)).take len) := by
  have hwindow := congrArg (fun xs => (xs.drop parent).take len) h.2
  simp only [List.drop_take, List.drop_drop, List.take_take] at hwindow
  rw [Nat.min_eq_left (by omega)] at hwindow
  have hlen := h.1
  rw [readFixed]
  split
  next hzero => simp [hzero]
  next => rw [if_pos (by omega), hwindow]

theorem ShowsBits.read {bytes : List UInt8} {bits : Nat → Option Bool}
    (h : ShowsBits bytes bits offset n first) (hle : parent + len ≤ n) {xs : List Bool}
    (hlen : xs.length = len) (hxs : ∀ i < len, bits (first + parent + i) = xs[i]?) :
    unpackBits (some (.u8 bytes)) (offset + parent) len = some xs := by
  refine mapM_range hlen fun i hi => ?_
  have hbit := h (parent + i) (by omega)
  rw [← Nat.add_assoc, ← Nat.add_assoc] at hbit
  rw [hbit, hxs i hi]

theorem ShowsVar.mono {offsets : List Int32} {data : List UInt8} {values : List (List UInt8)}
    (h : ShowsVar offsets data values offset n first) {i j : Nat} (hij : i ≤ j) (hj : j ≤ n) :
    clampOffset (offsets.getD (offset + i) 0) ≤ clampOffset (offsets.getD (offset + j) 0) := by
  induction j, hij using Nat.le_induction with
  | base => exact le_rfl
  | succ j _ ih => exact (ih (by omega)).trans (h.ordered j (by omega))

theorem ShowsVar.read {offsets : List Int32} {data : List UInt8} {values : List (List UInt8)}
    (h : ShowsVar offsets data values offset n first) (hle : parent + len ≤ n)
    (hfirst : first + n ≤ values.length) :
    readVarLen (some (.i32 offsets)) (some (.u8 data)) (offset + parent) len =
      some ((values.drop (first + parent)).take len) := by
  have hlength := h.length_le
  have hbound : ∀ i, clampOffset ((offsets.drop (offset + parent)).getD i 0) =
      clampOffset (offsets.getD (offset + (parent + i)) 0) := fun i => by
    rw [List.getD_eq_getElem?_getD, List.getElem?_drop, ← List.getD_eq_getElem?_getD,
      Nat.add_assoc]
  have htotal := (h.mono hle le_rfl).trans h.within
  rw [readVarLen]
  split
  next hzero => simp [hzero]
  next =>
    rw [if_neg (by omega)]
    simp only [hbound]
    rw [if_neg (by omega)]
    refine mapM_range (by simp; omega) fun i hi => ?_
    have hordered := h.ordered (parent + i) (by omega)
    have hmono := h.mono (i := parent + i + 1) (j := parent + len) (by omega) hle
    have hbytes := h.bytes (parent + i) (by omega)
    rw [Nat.add_assoc offset (parent + i) 1] at hordered hbytes
    rw [← Nat.add_assoc parent i 1, sliceBytes, if_pos ⟨hordered, by rw [List.length_take]; omega⟩, List.drop_take,
      List.take_take, Nat.min_eq_left (by omega), hbytes, List.getElem?_take_of_lt hi,
      List.getElem?_drop, Nat.add_assoc]

theorem map_fromUtf8_utf8 (values : List String) :
    (values.map utf8).map (fun b => (fromUtf8 b).getD "") = values := by
  rw [List.map_map]
  refine (List.map_congr_left fun s _ => ?_).trans (List.map_id values)
  rw [Function.comp_apply, fromUtf8_utf8]
  rfl

theorem ShowsValues.read {b₁ b₂ : Option OwnedArrowBuffer} {values : ColumnValues}
    (h : ShowsValues b₁ b₂ offset n first values) (hle : parent + len ≤ n)
    (hfirst : first + n ≤ values.len) :
    readColumnValues values.dataType b₁ b₂ (offset + parent) len =
      some (values.range (first + parent) (first + parent + len)) := by
  have htake : ∀ {α : Type} (xs : List α), (xs.take (first + parent + len)).drop (first + parent) =
      (xs.drop (first + parent)).take len := fun xs => by
    rw [List.drop_take, Nat.add_sub_cancel_left]
  cases values with
  | boolean values =>
    obtain ⟨bytes, rfl, hbits⟩ := h
    have hfirst : first + n ≤ values.length := hfirst
    have hlen : ((values.drop (first + parent)).take len).length = len := by
      rw [List.length_take, List.length_drop]
      omega
    simp only [readColumnValues, ColumnValues.dataType, ColumnValues.range, htake]
    rw [hbits.read hle hlen fun i hi => by rw [List.getElem?_take_of_lt hi, List.getElem?_drop]]
    rfl
  | utf8 values =>
    obtain ⟨offsets, data, rfl, rfl, hvar⟩ := h
    have hlen : first + n ≤ (values.map utf8).length := by rw [List.length_map]; exact hfirst
    simp only [readColumnValues, ColumnValues.dataType, ColumnValues.range, htake]
    rw [hvar.read hle hlen, Option.map_some, ← List.map_drop, ← List.map_take, map_fromUtf8_utf8]
  | binary values =>
    obtain ⟨offsets, data, rfl, rfl, hvar⟩ := h
    simp only [readColumnValues, ColumnValues.dataType, ColumnValues.range, htake]
    rw [hvar.read hle hfirst]
    rfl
  | _ values =>
    obtain ⟨buffer, rfl, hfixed⟩ := h
    simp only [readColumnValues, ColumnValues.dataType, ColumnValues.range, htake]
    rw [hfixed.read hle]
    rfl

/-- The mask that the import makes, and what it says of each row. -/
theorem ShowsNulls.read {bitmap : Option OwnedArrowBuffer} {nullCount : Int} {col : ColumnArray}
    (h : ShowsNulls bitmap nullCount col offset n first) (hle : parent + len ≤ n) :
    ∃ validity, readNulls nullCount bitmap (offset + parent) len = some validity ∧
      ∀ i < len, validity.any (fun mask => mask[i]? == some false) =
        col.isNull (first + parent + i) := by
  rw [readNulls]
  by_cases hskip : nullCount = 0 ∨ bitmap = none
  · refine ⟨none, if_pos hskip, fun i hi => ?_⟩
    have hnone : col.isNull (first + (parent + i)) = false := by
      rcases hskip with hcount | hmissing
      · have hzero : (List.range n).countP (fun i => col.isNull (first + i)) = 0 := by
          rcases h.count with hcount' | hcount' <;> omega
        exact Bool.eq_false_iff.mpr
          (List.countP_eq_zero.mp hzero (parent + i) (List.mem_range.mpr (by omega)))
      · exact h.missing hmissing (parent + i) (by omega)
    rw [← Nat.add_assoc] at hnone
    exact hnone.symm
  · rw [if_neg hskip]
    obtain ⟨buffer, rfl⟩ := Option.ne_none_iff_exists'.mp (not_or.mp hskip).2
    obtain ⟨bytes, rfl, hbits⟩ := h.shown buffer rfl
    let mask := (List.range len).map fun i => !col.isNull (first + parent + i)
    have hmask : ∀ i < len, mask[i]? = some !col.isNull (first + parent + i) := fun i hi => by
      simp [mask, hi]
    refine ⟨some mask, ?_, fun i hi => ?_⟩
    · rw [hbits.read hle (by simp [mask]) fun i hi => (hmask i hi).symm]
      rfl
    · rw [Option.any_some, hmask i hi]
      cases col.isNull (first + parent + i) <;> rfl

theorem LeafArray.Shows.import {child : LeafArray} {col : ColumnArray} {field : ColumnField}
    (h : child.Shows col first) (htype : col.dataType = field.dataType)
    (hle : parent + len ≤ child.length.toNat) (hfirst : first + child.length.toNat ≤ col.len)
    (i : Nat) :
    ∃ validity, child.toColumnArray len parent i field =
        .ok ⟨col.values.range (first + parent) (first + parent + len), validity⟩ ∧
      ∀ i < len, validity.any (fun mask => mask[i]? == some false) =
        col.isNull (first + parent + i) := by
  obtain ⟨validity, hvalidity, hnulls⟩ := h.nulls.read hle
  have hvalues := h.values.read hle hfirst
  refine ⟨validity, ?_, hnulls⟩
  have hbuffers := h.buffers
  rw [htype] at hbuffers
  rw [show col.values.dataType = field.dataType from htype] at hvalues
  rw [LeafArray.toColumnArray]
  simp only
  rw [if_neg (Nat.not_lt.mpr hbuffers), if_neg (Nat.not_lt.mpr hle), hvalidity, hvalues]

/-! ## Structs -/

theorem slice_window {col : ColumnArray} {numRows start : Nat} (h : col.HasRows numRows)
    (hle : start + len ≤ numRows) :
    (col.slice start len).values = col.values.range start (start + len) ∧
      ∀ i < len, (col.slice start len).isNull i = col.isNull (start + i) := by
  have hlen := h.len_eq
  have hstop : min (start + len) col.len = start + len := by omega
  have hstart : min start (start + len) = start := by omega
  constructor
  · rw [ColumnArray.slice]
    simp only [hstop, hstart]
  · intro i hi
    rw [ColumnArray.slice, ColumnArray.isNull, ColumnArray.isNull]
    simp only [hstop, hstart]
    cases col.validity with
    | none => rfl
    | some mask =>
      simp only [Option.map_some, Option.any_some]
      rw [List.getElem?_drop, List.getElem?_take_of_lt (by omega)]

theorem importColumns_ok {fields : List ColumnField} {cols : List ColumnArray}
    {children : List (Option LeafArray)} {numRows : Nat}
    (htypes : cols.map ColumnArray.dataType = fields.map ColumnField.dataType)
    (hrows : ∀ c ∈ cols, c.HasRows numRows) (hwindow : first + parent + len ≤ numRows)
    (h : List.Forall₂ (fun child col => ∃ leaf, child = some leaf ∧ LeafArray.Shows leaf col first ∧
      parent + len ≤ leaf.length.toNat ∧ first + leaf.length.toNat ≤ numRows) children cols)
    (i : Nat) :
    ∃ out, importColumns len parent i (fields.zip children) = .ok out ∧
      List.Forall₂ (fun c col => c.values = (col.slice (first + parent) len).values ∧
        ∀ i < len, c.isNull i = (col.slice (first + parent) len).isNull i) out cols := by
  induction h generalizing fields i with
  | nil =>
    obtain rfl := List.map_eq_nil_iff.mp htypes.symm
    exact ⟨[], rfl, .nil⟩
  | cons hchild _ ih =>
    cases fields with
    | nil => cases htypes
    | cons field fields =>
      obtain ⟨htype, htypes⟩ := List.cons.inj htypes
      obtain ⟨hcol, hcols⟩ := List.forall_mem_cons.mp hrows
      obtain ⟨leaf, rfl, hshows, hle, hfirst⟩ := hchild
      obtain ⟨validity, himport, hnulls⟩ :=
        hshows.import htype hle (by rw [hcol.len_eq]; exact hfirst) i
      obtain ⟨hvalues, hslice⟩ := slice_window hcol hwindow
      obtain ⟨out, hout, hall⟩ := ih htypes hcols (i + 1)
      refine ⟨⟨_, validity⟩ :: out, ?_,
        .cons ⟨hvalues.symm, fun i hi => (hnulls i hi).trans (hslice i hi).symm⟩ hall⟩
      rw [List.zip_cons_cons, importColumns, himport, hout]
      rfl

/-- The import is the slice over the composed window. -/
theorem ArrowArray.Shows.import {array : ArrowArray} {batch : RecordBatch}
    (h : array.Shows batch first) (hconf : batch.Conforms) :
    ∃ b, array.toRecordBatch batch.schema = .ok b ∧
      b.SameRows (batch.slice (first + array.offset.toNat) array.length.toNat) := by
  have hrows := h.rows
  obtain ⟨out, hout, hall⟩ := importColumns_ok hconf.types hconf.rows hrows h.children 0
  have hcount : array.children.length = batch.schema.fields.length := by
    have hlen := congrArg List.length hconf.types
    rw [List.length_map, List.length_map] at hlen
    rw [h.children.length_eq, hlen]
  have hstop : min (first + array.offset.toNat + array.length.toNat) batch.numRows =
      first + array.offset.toNat + array.length.toNat := by omega
  have hslice : batch.slice (first + array.offset.toNat) array.length.toNat =
      ⟨batch.schema, batch.columns.map fun c =>
        c.slice (first + array.offset.toNat) array.length.toNat, array.length.toNat⟩ := by
    rw [RecordBatch.slice]
    simp only [hstop]
    rw [Nat.min_eq_left (by omega), Nat.add_sub_cancel_left]
  refine ⟨⟨batch.schema, out, array.length.toNat⟩, ?_, ?_⟩
  · rw [ArrowArray.toRecordBatch, h.live, if_neg (by decide), if_neg (not_not.mpr hcount)]
    simp only [hout]
    rfl
  · rw [hslice]
    exact ⟨rfl, rfl, List.forall₂_map_right_iff.mpr hall⟩

/-! ## Windows on what is shown -/

/-- The array from slot `k` on, with the nulls not counted. -/
def LeafArray.narrow (child : LeafArray) (k : Nat) : LeafArray :=
  { child with
    length := child.length.toNat - k
    nullCount := -1
    offset := child.offset.toNat + k }

/-- Offsets and a length put on a struct and on its children. -/
def ArrowArray.window (array : ArrowArray) (k offset length : Nat) : ArrowArray :=
  { array with
    length := length
    offset := offset
    children := array.children.map (·.map (LeafArray.narrow · k)) }

variable {k : Nat}

theorem LeafArray.length_narrow (child : LeafArray) (k : Nat) :
    (child.narrow k).length.toNat = child.length.toNat - k := by
  show ((child.length.toNat : Int) - k).toNat = _
  omega

theorem ShowsFixed.narrow {α : Type} {buffer values : List α}
    (h : ShowsFixed buffer values offset n first) (hk : k ≤ n) :
    ShowsFixed buffer values (offset + k) (n - k) (first + k) := by
  have hlen := h.1
  have hwindow := congrArg (List.drop k) h.2
  rw [List.drop_take, List.drop_take, List.drop_drop, List.drop_drop] at hwindow
  exact ⟨by omega, hwindow⟩

theorem ShowsBits.narrow {bytes : List UInt8} {bits : Nat → Option Bool}
    (h : ShowsBits bytes bits offset n first) :
    ShowsBits bytes bits (offset + k) (n - k) (first + k) := by
  intro i hi
  rw [Nat.add_assoc, Nat.add_assoc]
  exact h (k + i) (by omega)

theorem ShowsVar.narrow {offsets : List Int32} {data : List UInt8} {values : List (List UInt8)}
    (h : ShowsVar offsets data values offset n first) (hk : k ≤ n) :
    ShowsVar offsets data values (offset + k) (n - k) (first + k) := by
  have hlength := h.length_le
  have hwithin := h.within
  constructor
  · omega
  · intro i hi
    rw [Nat.add_assoc offset k i]
    exact h.ordered (k + i) (by omega)
  · rwa [Nat.add_assoc, Nat.add_sub_cancel' hk]
  · intro i hi
    rw [Nat.add_assoc offset k i, Nat.add_assoc first k i]
    exact h.bytes (k + i) (by omega)

theorem ShowsValues.narrow {b₁ b₂ : Option OwnedArrowBuffer} {values : ColumnValues}
    (h : ShowsValues b₁ b₂ offset n first values) (hk : k ≤ n) :
    ShowsValues b₁ b₂ (offset + k) (n - k) (first + k) values := by
  cases values with
  | boolean values =>
    obtain ⟨bytes, hb, hbits⟩ := h
    exact ⟨bytes, hb, hbits.narrow⟩
  | utf8 values =>
    obtain ⟨offsets, data, hb, hb', hvar⟩ := h
    exact ⟨offsets, data, hb, hb', hvar.narrow hk⟩
  | binary values =>
    obtain ⟨offsets, data, hb, hb', hvar⟩ := h
    exact ⟨offsets, data, hb, hb', hvar.narrow hk⟩
  | _ values =>
    obtain ⟨buffer, hb, hfixed⟩ := h
    exact ⟨buffer, hb, hfixed.narrow hk⟩

theorem LeafArray.Shows.narrow {child : LeafArray} {col : ColumnArray} (h : child.Shows col first)
    (hk : k ≤ child.length.toNat) : (child.narrow k).Shows col (first + k) := by
  have hlen := child.length_narrow k
  have hoffset : (child.narrow k).offset.toNat = child.offset.toNat + k := by
    show ((child.offset.toNat : Int) + k).toNat = _
    omega
  constructor
  · exact h.buffers
  · rw [hlen, hoffset]
    refine ⟨.inl rfl, fun hmissing i hi => ?_, fun buffer hbuffer => ?_⟩
    · rw [Nat.add_assoc]
      exact h.nulls.missing hmissing (k + i) (by omega)
    · obtain ⟨bytes, hbytes, hbits⟩ := h.nulls.shown buffer hbuffer
      exact ⟨bytes, hbytes, hbits.narrow⟩
  · rw [hlen, hoffset]
    exact h.values.narrow hk

theorem ArrowArray.Shows.window {array : ArrowArray} {batch : RecordBatch}
    (h : array.Shows batch first) {offset length : Nat}
    (hle : ∀ leaf, some leaf ∈ array.children → k + offset + length ≤ leaf.length.toNat)
    (hrows : first + k + offset + length ≤ batch.numRows) :
    (array.window k offset length).Shows batch (first + k) := by
  have hall := (List.forall₂_and_left _ _).mpr ⟨fun child hchild => hchild, h.children⟩
  refine ⟨h.live, ?_, by simpa [ArrowArray.window] using hrows⟩
  rw [ArrowArray.window, List.forall₂_map_left_iff]
  refine hall.imp fun child col hchild => ?_
  obtain ⟨hmem, leaf, rfl, hshows, -, hfirst⟩ := hchild
  have hlen := hle leaf hmem
  have hnarrow := leaf.length_narrow k
  refine ⟨leaf.narrow k, rfl, hshows.narrow (by omega), ?_, by omega⟩
  rw [hnarrow]
  simp only [Int.toNat_natCast]
  omega

end RasterH3.Columnar
