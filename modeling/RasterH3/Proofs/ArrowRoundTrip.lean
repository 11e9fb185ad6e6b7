import RasterH3.Proofs.ArrowWindow
import RasterH3.Proofs.IpcStream

/-!
# Export and import

What is exported is laid out as Arrow asks for it: bitmaps for the masks and the booleans,
one buffer of values for a type of fixed width, a buffer of offsets and one of data for
strings and binaries. An importer that reads these through the interface sees a window, and
what has to be shown is that the exported window begins at the first row and shows the batch
(`shows_export`); that a window which shows a batch is imported as that batch is the matter
of `ArrowWindow`, and holds of arrays from anywhere.

One thing can go wrong with the data. A position in the data of a column is narrowed to 32
bits with a sign, without a check, so that from 2^31 bytes on the offsets are not positions
any more. `offsetsFit_iff` says that they are the positions, and in order, exactly if the
data has a length of 31 bits.

One thing can go wrong with the schema. A name travels as a string that ends with a NUL. A
name with a NUL in it is no such string, and is exported as the empty name, whose field
comes back in its place (`exportedField`). Formats and flags have no such case.

`Exchanged` is what is promised of an exchange: the schema comes back, the rows come back,
any window of them does, whatever lies around it in the buffers, and the offsets are
positions in order. It holds of a batch that conforms to its schema exactly if neither of
the two things happens (`exchanged_iff`).
-/

namespace RasterH3.Columnar

open Pmtiles

/-! ## Bitmaps -/

theorem shifted_one_bit (k j : Fin 8) :
    (UInt8.ofNat (1 <<< k.val)).toNat.testBit j.val = decide (j = k) := by
  revert k j
  decide

theorem bitAt_setBit (out : List UInt8) (k j : Nat) :
    bitAt (out.modify (k / 8) (· ||| UInt8.ofNat (1 <<< (k % 8)))) j =
      (bitAt out j).map fun b => b || decide (j = k) := by
  rw [bitAt, bitAt, List.getElem?_modify, Option.map_map]
  cases out[j / 8]? with
  | none => rfl
  | some b =>
    have hj := Nat.mod_lt j (show 0 < 8 by omega)
    have hk := Nat.mod_lt k (show 0 < 8 by omega)
    have hbit := shifted_one_bit ⟨k % 8, hk⟩ ⟨j % 8, hj⟩
    simp only [Fin.mk.injEq] at hbit
    simp only [Option.map_some, Function.comp_apply, Option.map_eq_map, Option.some.injEq]
    split
    next heq =>
      rw [UInt8.toNat_or, Nat.testBit_or, hbit]
      exact congrArg _ (decide_eq_decide.mpr ⟨fun h => by omega, fun h => by rw [h]⟩)
    next hne =>
      rw [decide_eq_false fun h => hne (by rw [h]), Bool.or_false]

theorem bitAt_setBits (bits : List Bool) (i : Nat) (out : List UInt8) (j : Nat) :
    bitAt (setBits i bits out) j =
      (bitAt out j).map fun b => b || (decide (i ≤ j) && (bits[j - i]?).getD false) := by
  induction bits generalizing i out with
  | nil => simp [setBits]
  | cons b bits ih =>
    rw [setBits, ih]
    have hout : bitAt (if b then out.modify (i / 8) (· ||| UInt8.ofNat (1 <<< (i % 8))) else out) j =
        (bitAt out j).map fun x => x || (b && decide (j = i)) := by
      cases b with
      | true => simpa using bitAt_setBit out i j
      | false => simp
    rw [hout, Option.map_map]
    refine congrArg (fun f => (bitAt out j).map f) (funext fun x => ?_)
    rw [Function.comp_apply, Bool.or_assoc]
    congr 1
    rcases Nat.lt_trichotomy j i with hlt | rfl | hgt
    · simp [show ¬ i ≤ j by omega, show ¬ i + 1 ≤ j by omega, show j ≠ i by omega]
    · simp
    · rw [show j - i = (j - (i + 1)) + 1 by omega]
      simp [show i ≤ j by omega, show i + 1 ≤ j by omega, show j ≠ i by omega]

theorem bitAt_packBits {bits : List Bool} {i : Nat} (hi : i < bits.length) :
    bitAt (packBits bits) i = bits[i]? := by
  have hzero : bitAt (List.replicate ((bits.length + 7) / 8) 0) i = some false := by
    rw [bitAt, List.getElem?_replicate_of_lt (by omega)]
    simp
  rw [packBits, bitAt_setBits, hzero]
  simp [hi]

/-! ## Offsets -/

/-- Where a value begins in the data. -/
def position (values : List (List UInt8)) (i : Nat) : Nat := (values.take i).flatten.length

theorem packValues_eq (data : List UInt8) (values : List (List UInt8)) :
    (packValues data values).2 = data ++ values.flatten ∧
      (packValues data values).1.length = values.length ∧
      ∀ i < values.length, (packValues data values).1.getD i 0 =
        Int32.ofNat (data.length + position values (i + 1)) := by
  induction values generalizing data with
  | nil => exact ⟨(List.append_nil data).symm, rfl, nofun⟩
  | cons v values ih =>
    obtain ⟨hdata, hlen, hpos⟩ := ih (data ++ v)
    refine ⟨by rw [packValues, hdata, List.append_assoc]; rfl, congrArg (· + 1) hlen, ?_⟩
    intro i hi
    cases i with
    | zero => simp [packValues, position]
    | succ i =>
      rw [packValues, List.getD_cons_succ, hpos i (by simpa using hi)]
      simp [position, Nat.add_assoc]

theorem packVarWidth_eq (values : List (List UInt8)) :
    (packVarWidth values).2 = values.flatten ∧
      (packVarWidth values).1.length = values.length + 1 ∧
      ∀ i ≤ values.length, (packVarWidth values).1.getD i 0 = Int32.ofNat (position values i) := by
  obtain ⟨hdata, hlen, hpos⟩ := packValues_eq [] values
  refine ⟨hdata, congrArg (· + 1) hlen, ?_⟩
  intro i hi
  cases i with
  | zero => rfl
  | succ i =>
    rw [packVarWidth, List.getD_cons_succ, hpos i hi, List.length_nil, Nat.zero_add]

theorem position_mono {values : List (List UInt8)} {i j : Nat} (h : i ≤ j) :
    position values i ≤ position values j := by
  obtain ⟨k, rfl⟩ := Nat.exists_eq_add_of_le h
  rw [position, position, List.take_add, List.flatten_append, List.length_append]
  omega

theorem position_length (values : List (List UInt8)) :
    position values values.length = values.flatten.length := by
  rw [position, List.take_length]

theorem position_succ {values : List (List UInt8)} {i : Nat} {v : List UInt8}
    (h : values[i]? = some v) : position values (i + 1) = position values i + v.length := by
  rw [position, List.take_add_one, h]
  simp [position]

/-- The offsets are the positions, in order. -/
structure OffsetsFit (values : List (List UInt8)) : Prop where
  positions : ∀ i ≤ values.length, ((packVarWidth values).1.getD i 0).toInt = position values i
  ordered : (packVarWidth values).1.Pairwise (· ≤ ·)

theorem toInt_ofNat {n : Nat} (h : n < 2 ^ 31) : (Int32.ofNat n).toInt = n := by
  have hsize : Int32.size = 2 ^ 32 := rfl
  rw [Int32.toInt_ofNat', Int.bmod_eq_of_le] <;> omega

theorem offsetsFit_iff (values : List (List UInt8)) :
    OffsetsFit values ↔ values.flatten.length < 2 ^ 31 := by
  obtain ⟨-, hlen, hpos⟩ := packVarWidth_eq values
  constructor
  · intro h
    have hlast := h.positions values.length le_rfl
    rw [position_length] at hlast
    have hlt := Int32.toInt_lt ((packVarWidth values).1.getD values.length 0)
    omega
  · intro h
    have hpositions : ∀ i ≤ values.length,
        ((packVarWidth values).1.getD i 0).toInt = position values i := fun i hi => by
      have hle : position values i ≤ position values values.length := position_mono hi
      rw [position_length] at hle
      rw [hpos i hi, toInt_ofNat (by omega)]
    refine ⟨hpositions, List.pairwise_iff_getElem.mpr fun i j hi hj hij => ?_⟩
    have hi' := hpositions i (by omega)
    have hj' := hpositions j (by omega)
    rw [List.getD_eq_getElem?_getD, List.getElem?_eq_getElem hi, Option.getD_some] at hi'
    rw [List.getD_eq_getElem?_getD, List.getElem?_eq_getElem hj, Option.getD_some] at hj'
    rw [Int32.le_iff_toInt_le, hi', hj']
    exact Int.ofNat_le.mpr (position_mono (by omega))

/-! ## What is exported -/

/-- The values of a column without a fixed width. -/
def ColumnValues.varWidth : ColumnValues → Option (List (List UInt8))
  | .utf8 values => some (values.map Pmtiles.utf8)
  | .binary values => some values
  | _ => none

/-- The data of each column of strings has a length of 31 bits. -/
def RecordBatch.FewBytes (batch : RecordBatch) : Prop :=
  ∀ c ∈ batch.columns, ∀ values, c.values.varWidth = some values →
    values.flatten.length < 2 ^ 31

theorem showsFixed_self {α : Type} (values : List α) :
    ShowsFixed values values 0 values.length 0 := ⟨by omega, rfl⟩

theorem showsVar_self {values : List (List UInt8)} (h : values.flatten.length < 2 ^ 31) :
    ShowsVar (packVarWidth values).1 (packVarWidth values).2 values 0 values.length 0 := by
  obtain ⟨hdata, hlen, -⟩ := packVarWidth_eq values
  have hfit := (offsetsFit_iff values).mpr h
  have hclamp : ∀ i ≤ values.length,
      clampOffset ((packVarWidth values).1.getD i 0) = position values i := fun i hi => by
    rw [clampOffset, hfit.positions i hi, Int.toNat_natCast]
  constructor
  · omega
  · intro i hi
    rw [Nat.zero_add, hclamp i (by omega), hclamp (i + 1) hi]
    exact position_mono (by omega)
  · rw [Nat.zero_add, hclamp _ le_rfl, hdata, position_length]
  · intro i hi
    obtain ⟨v, hv⟩ : ∃ v, values[i]? = some v := ⟨_, List.getElem?_eq_getElem hi⟩
    rw [Nat.zero_add, hclamp i (by omega), hclamp (i + 1) hi, hdata,
      position_succ hv, Nat.add_sub_cancel_left, hv]
    have hsplit : values.flatten = (values.take i).flatten ++ (v ++ (values.drop (i + 1)).flatten) := by
      conv => lhs; rw [← List.take_append_drop i values]
      rw [List.flatten_append, List.drop_eq_getElem?_toList_append, hv]
      rfl
    rw [hsplit, position, List.drop_left, List.take_left]

theorem showsValues_self {c : ColumnArray}
    (h : ∀ values, c.values.varWidth = some values → values.flatten.length < 2 ^ 31) :
    ShowsValues ((ColumnArray.valueBuffers c.values).getD 0 none)
      ((ColumnArray.valueBuffers c.values).getD 1 none) 0 c.len 0 c.values := by
  obtain ⟨values, validity⟩ := c
  cases values with
  | boolean values =>
    refine ⟨_, rfl, fun i hi => ?_⟩
    rw [Nat.zero_add]
    exact bitAt_packBits hi
  | utf8 values =>
    have hvar := showsVar_self (h _ rfl)
    rw [List.length_map] at hvar
    exact ⟨_, _, rfl, rfl, hvar⟩
  | binary values => exact ⟨_, _, rfl, rfl, showsVar_self (h _ rfl)⟩
  | _ values => exact ⟨_, rfl, showsFixed_self values⟩

theorem countP_isNull {c : ColumnArray} {n : Nat} (h : c.HasRows n) :
    (List.range n).countP (fun i => c.isNull (0 + i)) = c.nullCount := by
  simp only [Nat.zero_add, ColumnArray.isNull, ColumnArray.nullCount]
  cases hvalidity : c.validity with
  | none => simp
  | some mask =>
    have hlen := h.mask_eq mask hvalidity
    have hmap : mask = (List.range n).map fun i => mask.getD i true :=
      List.ext_getElem (by simp [hlen]) fun i hi _ => by simp [hi]
    have hcount : mask.count false = ((List.range n).map fun i => mask.getD i true).count false :=
      congrArg (List.count false) hmap
    rw [Option.map_some, Option.getD_some, hcount, List.count, List.countP_map]
    refine List.countP_congr fun i hi => ?_
    have hi : i < mask.length := hlen ▸ List.mem_range.mp hi
    simp [hi]

theorem shows_export {c : ColumnArray} {n : Nat} (hrows : c.HasRows n)
    (h : ∀ values, c.values.varWidth = some values → values.flatten.length < 2 ^ 31) :
    (LeafArray.fromColumnArray c).Shows c 0 := by
  have hlen : (LeafArray.fromColumnArray c).length.toNat = n := by
    rw [LeafArray.fromColumnArray, Int.toNat_natCast, hrows.len_eq]
  have hcount := countP_isNull hrows
  constructor
  · cases hvalues : c.values <;>
      simp [LeafArray.fromColumnArray, ColumnArray.dataType, ColumnValues.dataType,
        expectedBuffers, ColumnArray.valueBuffers, hvalues]
  · rw [hlen]
    refine ⟨.inr (by rw [hcount]; rfl), fun hmissing i hi => ?_, fun buffer hbuffer => ?_⟩
    · cases hvalidity : c.validity with
      | none => rw [ColumnArray.isNull, hvalidity, Option.any_none]
      | some mask =>
        have hzero : c.nullCount = 0 := by
          by_contra hne
          simp [LeafArray.fromColumnArray, hvalidity, Nat.pos_of_ne_zero hne] at hmissing
        rw [hzero] at hcount
        exact Bool.eq_false_iff.mpr (List.countP_eq_zero.mp hcount i (List.mem_range.mpr hi))
    · cases hvalidity : c.validity with
      | none => simp [LeafArray.fromColumnArray, hvalidity] at hbuffer
      | some mask =>
        have hpos : 0 < c.nullCount := by
          by_contra hle
          simp [LeafArray.fromColumnArray, hvalidity, hle] at hbuffer
        have hpacked : OwnedArrowBuffer.u8 (packBits mask) = buffer := by
          simpa [LeafArray.fromColumnArray, hvalidity, hpos] using hbuffer
        refine ⟨packBits mask, hpacked.symm, fun i hi => ?_⟩
        have hi : i < mask.length := by rw [hrows.mask_eq mask hvalidity]; exact hi
        show bitAt (packBits mask) (0 + i) = some !c.isNull (0 + i)
        rw [Nat.zero_add, bitAt_packBits hi, ColumnArray.isNull, hvalidity, Option.any_some,
          List.getElem?_eq_getElem hi]
        cases mask[i] <;> rfl
  · rw [hlen, ← hrows.len_eq]
    exact showsValues_self h

theorem shows_fromRecordBatch {batch : RecordBatch} (hconf : batch.Conforms) (h : batch.FewBytes) :
    (ArrowArray.fromRecordBatch batch).Shows batch 0 := by
  refine ⟨rfl, ?_, by simp [ArrowArray.fromRecordBatch]⟩
  rw [ArrowArray.fromRecordBatch, List.forall₂_map_left_iff]
  refine List.forall₂_same.mpr fun c hc => ?_
  have hlen : (LeafArray.fromColumnArray c).length.toNat = batch.numRows := by
    rw [LeafArray.fromColumnArray, Int.toNat_natCast, (hconf.rows c hc).len_eq]
  refine ⟨_, rfl, shows_export (hconf.rows c hc) (h c hc), ?_, ?_⟩
  · simp [hlen]
  · rw [hlen, Nat.zero_add]

/-! ## Names -/

theorem toStringLossy_new (s : String) :
    ((CString.new (utf8 s)).getD .empty).toStringLossy = if 0 ∈ utf8 s then "" else s := by
  rw [CString.new]
  split
  next h =>
    show fromUtf8Lossy [] = ""
    rw [fromUtf8Lossy, lossyChars]
  next h => exact fromUtf8Lossy_utf8 s

/-- What is left of a field when a NUL in its name is lost with the name. -/
def exportedField (field : ColumnField) : ColumnField :=
  { field with name := if 0 ∈ utf8 field.name then "" else field.name }

theorem formatStr_new (dt : ArrowDataType) :
    decodeFormat ((CString.new (utf8 dt.arrowFormatStr)).getD .empty).toStringLossy = some dt := by
  rw [toStringLossy_new]
  cases dt <;> decide

theorem nullable_flag (nullable : Bool) :
    decide ((if nullable then arrowFlagNullable else 0) &&& arrowFlagNullable ≠ 0) = nullable := by
  cases nullable <;> decide

theorem toField_fromField (field : ColumnField) :
    LeafSchema.toField (some (.fromField field)) = .ok (exportedField field) := by
  obtain ⟨name, dt, nullable⟩ := field
  simp only [LeafSchema.toField, LeafSchema.fromField, Option.map_some, Option.getD_some]
  rw [formatStr_new, toStringLossy_new name, exportedField]
  exact congrArg (fun b => Except.ok (ColumnField.mk _ dt b)) (nullable_flag nullable)

theorem toColumnSchema_fromColumnSchema (schema : ColumnSchema) :
    (ArrowSchema.fromColumnSchema schema).toColumnSchema =
      .ok ⟨schema.fields.map exportedField⟩ := by
  have hformat : ((CString.new (utf8 "+s")).getD .empty).toStringLossy = "+s" := by
    rw [toStringLossy_new]
    decide
  have hchildren : (schema.fields.map fun field => some (LeafSchema.fromField field)).mapM
      LeafSchema.toField = .ok (schema.fields.map exportedField) := by
    rw [Loops.mapM_ok, List.forall₂_map_left_iff, List.forall₂_map_right_iff]
    exact List.forall₂_same.mpr fun field _ => toField_fromField field
  rw [ArrowSchema.toColumnSchema, ArrowSchema.fromColumnSchema]
  simp only [hformat, hchildren]
  rfl

theorem exportedField_eq {field : ColumnField} :
    exportedField field = field ↔ 0 ∉ utf8 field.name := by
  constructor
  · intro h hzero
    have hname := congrArg ColumnField.name h
    rw [exportedField] at hname
    simp only [if_pos hzero] at hname
    rw [← hname] at hzero
    exact absurd hzero (by decide)
  · intro h
    rw [exportedField, if_neg h]

/-! ## The whole -/

structure Exchanged (batch : RecordBatch) : Prop where
  schema : (ArrowSchema.fromColumnSchema batch.schema).toColumnSchema = .ok batch.schema
  rows : ∃ b, (ArrowArray.fromRecordBatch batch).toRecordBatch batch.schema = .ok b ∧
    b.SameRows batch
  /-- Any offset and length on the struct, and any offset on its children. -/
  windows : ∀ k offset length, k + offset + length ≤ batch.numRows →
    ∃ b, ((ArrowArray.fromRecordBatch batch).window k offset length).toRecordBatch batch.schema =
      .ok b ∧ b.SameRows (batch.slice (k + offset) length)
  /-- Buffers that begin elsewhere, and hold anything around the rows. -/
  shifted : ∀ (array : ArrowArray) (first : Nat), array.Shows batch first → ∃ b, array.toRecordBatch batch.schema = .ok b ∧
    b.SameRows (batch.slice (first + array.offset.toNat) array.length.toNat)
  offsets : ∀ c ∈ batch.columns, ∀ values, c.values.varWidth = some values → OffsetsFit values

theorem slice_all {batch : RecordBatch} (hconf : batch.Conforms) :
    batch.slice 0 batch.numRows = batch := by
  have hcols : (batch.columns.map fun c => c.slice 0 batch.numRows) = batch.columns.map id := by
    refine List.map_congr_left fun c hc => ?_
    obtain ⟨values, validity⟩ := c
    have hlen : values.len = batch.numRows := (hconf.rows _ hc).len_eq
    have hmask := (hconf.rows _ hc).mask_eq
    rw [ColumnArray.slice]
    simp only [Nat.zero_add, Nat.zero_min, ColumnArray.len, hlen, Nat.min_self, List.drop_zero]
    refine congrArg₂ ColumnArray.mk ?_ ?_
    · rw [← hlen]
      cases values <;> simp [ColumnValues.range, ColumnValues.len]
    · cases validity with
      | none => rfl
      | some mask => rw [Option.map_some, List.take_of_length_le (hmask mask rfl).le]
  rw [RecordBatch.slice]
  simp only [Nat.zero_add, Nat.min_self, Nat.zero_min, Nat.sub_zero, hcols, List.map_id]

/-- Names without NUL and data of 31 bits, and nothing else, make export and import inverse. -/
theorem exchanged_iff (batch : RecordBatch) (hconf : batch.Conforms) :
    Exchanged batch ↔ batch.FewBytes ∧ ∀ field ∈ batch.schema.fields, 0 ∉ utf8 field.name := by
  constructor
  · intro h
    refine ⟨fun c hc values hvalues => (offsetsFit_iff values).mp (h.offsets c hc values hvalues), ?_⟩
    have hschema := h.schema
    rw [toColumnSchema_fromColumnSchema] at hschema
    have hfields := congrArg ColumnSchema.fields (Except.ok.inj hschema)
    have hid : batch.schema.fields.map exportedField = batch.schema.fields.map id := by
      rw [List.map_id]
      exact hfields
    exact fun field hfield => exportedField_eq.mp (List.map_inj_left.mp hid field hfield)
  · rintro ⟨hfew, hnames⟩
    have hshows := shows_fromRecordBatch hconf hfew
    refine ⟨?_, ?_, fun k offset length hle => ?_, fun array first h => h.import hconf,
      fun c hc values hvalues => (offsetsFit_iff values).mpr (hfew c hc values hvalues)⟩
    · rw [toColumnSchema_fromColumnSchema]
      have hid : batch.schema.fields.map exportedField = batch.schema.fields.map id :=
        List.map_inj_left.mpr fun field hfield => exportedField_eq.mpr (hnames field hfield)
      rw [hid, List.map_id]
    · obtain ⟨b, hb, hsame⟩ := hshows.import hconf
      refine ⟨b, hb, ?_⟩
      rw [← slice_all hconf]
      simpa [ArrowArray.fromRecordBatch] using hsame
    · have hlong : ∀ leaf, some leaf ∈ (ArrowArray.fromRecordBatch batch).children →
          k + offset + length ≤ leaf.length.toNat := fun leaf hleaf => by
        obtain ⟨c, hc, hleaf⟩ := List.mem_map.mp hleaf
        obtain rfl := Option.some.inj hleaf
        rw [LeafArray.fromColumnArray, Int.toNat_natCast, (hconf.rows c hc).len_eq]
        exact hle
      obtain ⟨b, hb, hsame⟩ := (hshows.window hlong (by omega)).import hconf
      refine ⟨b, hb, ?_⟩
      simpa [ArrowArray.window] using hsame

theorem exchanged_nullable : Exchanged nullable := by
  refine (exchanged_iff nullable nullable_conforms).mpr ⟨fun c hc values hvalues => ?_, ?_⟩
  · obtain rfl := List.mem_singleton.mp hc
    cases hvalues
  · intro field hfield
    obtain rfl := List.mem_singleton.mp hfield
    decide

/-- A batch without rows whose column has a NUL in its name. -/
def nulName : RecordBatch := ⟨⟨[⟨"a\x00b", .uint8, false⟩]⟩, [⟨.uint8 [], none⟩], 0⟩

theorem nulName_not_exchanged : nulName.Conforms ∧ ¬Exchanged nulName := by
  refine ⟨⟨rfl, fun c hc => ?_⟩, fun h => ?_⟩
  · obtain rfl := List.mem_singleton.mp hc
    exact ⟨rfl, nofun⟩
  · have hschema := h.schema
    rw [toColumnSchema_fromColumnSchema] at hschema
    have hname := congrArg (fun s => s.fields.map ColumnField.name) (Except.ok.inj hschema)
    revert hname
    decide

end RasterH3.Columnar
