import RasterH3.Proofs.IpcLengths

/-!
# What a stream keeps and what its reader accepts

Three things are said of a stream. What was written is read back, whoever cuts the stream is
noticed, and what is read is well formed. The format of the readers has been stated with
them; here the writer is compared with it, and then everything is a fact about spellings.

What the writer produces can be taken for a spelling of the batches exactly when every
length fits in 32 bits and no batch has rows without having columns. For the strings this
takes an argument: the reader replaces what is not UTF-8, and a string that is cut at its
length modulo 2^32 could come back whole only if it were a few bytes long.

The reader compares no mask with the rows of its batch, and yields what the bytes announce:
its batches are well formed exactly when the lengths they announce agree. A stream that is
cut ends in an error, as no spelling of a batch or of the end begins another.

A batch without rows is written, and not among what a reader of whole streams hands out
(`nonEmpty`). That is a choice of the code, and the round trip is stated with it. The two
ways in which a round trip fails, lengths beyond 32 bits and rows without columns, make one
condition on schema and batches (`Fits`), which is exact.
-/

namespace RasterH3.Columnar

open Bytes Pmtiles

/-! ## Strings -/

theorem utf8_eq (s : String) : utf8 s = s.toList.flatMap String.utf8EncodeChar := by
  rw [utf8, ← String.utf8Encode_toList, List.utf8Encode]
  simp

theorem lossyChars_encode (c : Char) (rest : List UInt8) :
    lossyChars (String.utf8EncodeChar c ++ rest) = c :: lossyChars rest := by
  have hlen := String.length_utf8EncodeChar c
  have hpos := c.utf8Size_pos
  cases hb : String.utf8EncodeChar c with
  | nil =>
    rw [hb, List.length_nil] at hlen
    omega
  | cons b bs =>
    have h : ByteArray.utf8DecodeChar? (b :: (bs ++ rest)).toByteArray 0 = some c := by
      rw [← List.cons_append, ← hb, List.toByteArray_append]
      exact ByteArray.utf8DecodeChar?_utf8EncodeChar_append
    rw [hb, List.length_cons] at hlen
    rw [List.cons_append, lossyChars, h]
    simp only
    rw [List.drop_left' (by omega)]

theorem lossyChars_encodeAll (cs : List Char) :
    lossyChars (cs.flatMap String.utf8EncodeChar) = cs := by
  induction cs with
  | nil => rw [List.flatMap_nil, lossyChars]
  | cons c cs ih => rw [List.flatMap_cons, lossyChars_encode, ih]

theorem fromUtf8Lossy_utf8 (s : String) : fromUtf8Lossy (utf8 s) = s := by
  rw [fromUtf8Lossy, utf8_eq, lossyChars_encodeAll, String.ofList_toList]

theorem length_lossyChars_le (bytes : List UInt8) : (lossyChars bytes).length ≤ bytes.length := by
  induction bytes using lossyChars.induct with
  | case1 =>
    rw [lossyChars]
    exact le_rfl
  | case2 b rest c hc ih =>
    rw [lossyChars, hc]
    rw [List.length_drop] at ih
    simp only [List.length_cons]
    omega
  | case3 b rest hnone ih =>
    rw [lossyChars, hnone]
    rw [List.length_drop] at ih
    simp only [List.length_cons]
    omega

theorem length_encode_le (cs : List Char) :
    (cs.flatMap String.utf8EncodeChar).length ≤ 4 * cs.length := by
  induction cs with
  | nil => simp
  | cons c cs ih =>
    have hsize := c.utf8Size_le_four
    rw [List.flatMap_cons, List.length_append, String.length_utf8EncodeChar, List.length_cons]
    omega

/-- A string comes back from a part of its bytes only if little is missing. -/
theorem length_le_of_lossy_take {cs : List Char} {k : Nat}
    (h : lossyChars ((cs.flatMap String.utf8EncodeChar).take k) = cs) :
    (cs.flatMap String.utf8EncodeChar).length ≤ k + 12 := by
  induction cs generalizing k with
  | nil => simp
  | cons c cs ih =>
    have hlen := String.length_utf8EncodeChar c
    have hsize := c.utf8Size_le_four
    by_cases hk : c.utf8Size ≤ k
    · rw [List.flatMap_cons, List.take_append, List.take_of_length_le (by omega),
        lossyChars_encode] at h
      have hrest := ih (List.cons.inj h).2
      rw [List.flatMap_cons, List.length_append]
      omega
    · -- What is left of the first character gives three replacements at the most.
      have hchars := length_lossyChars_le
        (((c :: cs).flatMap String.utf8EncodeChar).take k)
      have htake := List.length_take_le k ((c :: cs).flatMap String.utf8EncodeChar)
      have hall := length_encode_le (c :: cs)
      rw [h] at hchars
      omega

theorem writeLe_inj {w m n : Nat} (h : writeLe w m = writeLe w n) : m % 256 ^ w = n % 256 ^ w := by
  have hm := readLe_writeLe w m []
  rw [h, readLe_writeLe] at hm
  exact (Prod.mk.inj (Option.some.inj hm)).1.symm

theorem writeBytes_append_inj {b b' rest rest' : List UInt8} (hb' : b'.length < 2 ^ 32)
    (h : writeBytes b ++ rest = writeBytes b' ++ rest') :
    b'.length = b.length % 2 ^ 32 ∧ b ++ rest = b' ++ rest' := by
  rw [writeBytes, writeBytes, List.append_assoc, List.append_assoc] at h
  obtain ⟨hlen, hrest⟩ := List.append_inj h (by simp)
  have hmod := writeLe_inj hlen
  rw [show 256 ^ 4 = 2 ^ 32 from rfl, Nat.mod_eq_of_lt hb'] at hmod
  exact ⟨hmod.symm, hrest⟩

theorem honest_text (s : String) :
    Honest (fun bytes => ∃ b, (b.length < 2 ^ 32 ∧ bytes = writeBytes b) ∧ s = fromUtf8Lossy b)
      (writeBytes (utf8 s)) ((utf8 s).length < 2 ^ 32) := by
  intro rest rest'
  constructor
  · rintro ⟨_, ⟨b, ⟨hb, rfl⟩, hs⟩, heq⟩
    obtain ⟨hmod, hbytes⟩ := writeBytes_append_inj hb heq
    by_cases hfits : (utf8 s).length < 2 ^ 32
    · rw [Nat.mod_eq_of_lt hfits] at hmod
      exact ⟨hfits, (List.append_inj hbytes hmod.symm).2.symm⟩
    · have hle : b.length ≤ (utf8 s).length := by omega
      have htake : b = (utf8 s).take b.length := by
        have h := congrArg (List.take b.length) hbytes
        rwa [List.take_append_of_le_length hle, List.take_left, eq_comm] at h
      have hchars : lossyChars ((s.toList.flatMap String.utf8EncodeChar).take b.length) =
          s.toList := by
        rw [← utf8_eq, ← htake, hs, fromUtf8Lossy, String.toList_ofList]
      have hshort := length_le_of_lossy_take hchars
      rw [← utf8_eq] at hshort
      omega
  · rintro ⟨hfits, rfl⟩
    exact ⟨_, ⟨utf8 s, ⟨hfits, rfl⟩, (fromUtf8Lossy_utf8 s).symm⟩, rfl⟩

/-! ## Columns -/

/-- Every string of the column has a length of 32 bits. -/
def ColumnValues.Short : ColumnValues → Prop
  | .utf8 values => ∀ s ∈ values, (Pmtiles.utf8 s).length < 2 ^ 32
  | .binary values => ∀ b ∈ values, b.length < 2 ^ 32
  | _ => True

theorem boolByte_ne (b : Bool) : (boolByte b != 0) = b := by cases b <;> rfl

theorem honest_bools (values : List Bool) :
    Honest (Bools values.length values) (values.map boolByte) True := by
  refine .sized (fun c hc => ⟨trivial, by rw [hc.1, List.length_map]⟩) fun _ => ?_
  exact ⟨List.length_map _, by simp [Function.comp_def, boolByte_ne]⟩

theorem honest_validity (v : Option (List Bool)) :
    Honest (Mask v) (writeValidity v) (∀ mask, v = some mask → mask.length < 2 ^ 32) := by
  refine .sized (fun c hc => ?_) fun hfits => ?_
  · cases hc with
    | none => exact ⟨nofun, rfl⟩
    | some _ hlen hraw =>
      refine ⟨fun mask hmask => Option.some.inj hmask ▸ hlen, ?_⟩
      simp [writeValidity, hraw.1]
  · cases v with
    | none => exact .none
    | some v =>
      refine .some (by decide) (hfits v rfl) ⟨List.length_map _, ?_⟩
      simp [Function.comp_def, boolByte_ne]

theorem honest_words {α : Type} {write : α → List UInt8} (values : List α) :
    Honest (Reads.Listed (fun v bytes => bytes = write v) values.length values)
      (values.flatMap write) True := by
  have h : Honest (Reads.Listed (fun v bytes => bytes = write v) values.length values)
      (values.flatMap write) (∀ v ∈ values, True) :=
    .list fun v _ => .unique fun c => ⟨fun h => ⟨trivial, h⟩, And.right⟩
  exact h.of_iff (by simp)

theorem honest_values (values : ColumnValues) :
    Honest (Values values.len values) (writeValues values) values.Short := by
  cases values with
  | uint8 values => exact .unique fun c => by simp [Values, ColumnValues.Short, ColumnValues.len, writeValues]
  | boolean values => exact honest_bools values
  | utf8 values => exact .list fun s _ => honest_text s
  | binary values => exact .list fun b _ => .unique fun c => Iff.rfl
  | _ values => exact honest_words values

theorem honest_column {col : ColumnArray} {n : Nat} (hrows : col.HasRows n) (hn : n < 2 ^ 32) :
    Honest (Column n col.dataType col) (writeColumn col) col.values.Short := by
  obtain ⟨values, validity⟩ := col
  obtain rfl : values.len = n := hrows.len_eq
  have hseq := (honest_validity validity).seq (honest_values values)
  refine (hseq.congr fun c => ?_).of_iff ?_
  · constructor
    · rintro ⟨c, c', hmask, hvalues, rfl⟩
      exact .mk hmask rfl hvalues
    · rintro ⟨hmask, -, hvalues⟩
      exact ⟨_, _, hmask, hvalues, rfl⟩
  · refine and_iff_right fun mask hmask => ?_
    rw [hrows.mask_eq mask hmask]
    exact hn

theorem honest_columns {fields : List ColumnField} {cols : List ColumnArray} {n : Nat}
    (htypes : cols.map ColumnArray.dataType = fields.map ColumnField.dataType)
    (hrows : ∀ c ∈ cols, c.HasRows n) (hn : n < 2 ^ 32) :
    Honest (Columns n fields cols) (cols.flatMap writeColumn) (∀ c ∈ cols, c.values.Short) := by
  induction cols generalizing fields with
  | nil =>
    obtain rfl := List.map_eq_nil_iff.mp htypes.symm
    refine .unique fun c => ?_
    constructor
    · rintro ⟨⟩
      exact ⟨nofun, rfl⟩
    · rintro ⟨-, rfl⟩
      exact .nil
  | cons col cols ih =>
    cases fields with
    | nil => cases htypes
    | cons field fields =>
      obtain ⟨htype, htypes⟩ := List.cons.inj htypes
      obtain ⟨hcol, hcols⟩ := List.forall_mem_cons.mp hrows
      have hseq := (honest_column hcol hn).seq (ih htypes hcols)
      rw [htype] at hseq
      rw [List.flatMap_cons, List.forall_mem_cons]
      refine hseq.congr fun c => ?_
      constructor
      · rintro ⟨c, c', hc, hc', rfl⟩
        exact .cons hc hc'
      · rintro (_ | ⟨hc, hc'⟩)
        exact ⟨_, _, hc, hc', rfl⟩

/-! ## Batches and headers -/

/-- What is lost otherwise: the rows of no columns, and the high bits of a length. -/
structure RecordBatch.Fits (batch : RecordBatch) : Prop where
  columns : batch.columns ≠ []
  rows : batch.numRows < 2 ^ 32
  values : ∀ c ∈ batch.columns, c.values.Short

theorem honest_batch {schema : ColumnSchema} {batch : RecordBatch} (hschema : batch.schema = schema)
    (hconf : batch.Conforms) (hrows : batch.numRows ≠ 0) :
    Honest (Frame schema (some batch)) (writeBatch batch) batch.Fits := by
  obtain ⟨schema', columns, numRows⟩ := batch
  obtain rfl : schema' = schema := hschema
  by_cases hn : numRows < 2 ^ 32
  · have hhead : Honest (fun c => columns ≠ [] ∧ c = 1 :: writeLe 4 numRows)
        (1 :: writeLe 4 numRows) (columns ≠ []) := .unique fun c => Iff.rfl
    refine ((hhead.seq (honest_columns hconf.types hconf.rows hn)).congr fun c => ?_).of_iff
      ⟨fun h => ⟨h.1, hn, h.2⟩, fun h => ⟨h.columns, h.values⟩⟩
    constructor
    · rintro ⟨_, c, ⟨hcols, rfl⟩, hc, rfl⟩
      have hframe := Frame.batch hn hc
      rwa [if_neg hcols] at hframe
    · intro h
      obtain ⟨n, b, hn', hcols, hcount, rfl⟩ := h.rows_eq
      have hne : columns ≠ [] := fun hnil => hrows (by rw [hcount, if_pos hnil])
      rw [if_neg hne] at hcount
      subst hcount
      exact ⟨_, _, ⟨hne, rfl⟩, hcols, rfl⟩
  · refine .unique fun c => ⟨fun h => ?_, fun h => absurd h.1.rows hn⟩
    obtain ⟨n, b, hn', -, hcount, -⟩ := h.rows_eq
    split at hcount <;> omega

theorem honest_field (field : ColumnField) :
    Honest (Field field) (writeField field) ((utf8 field.name).length < 2 ^ 32) := by
  refine .sized (fun c hc => ?_) fun hfits => ⟨hfits, boolByte field.nullable, ?_, rfl⟩
  · obtain ⟨hlen, flag, -, rfl⟩ := hc
    exact ⟨hlen, by simp [writeField]⟩
  · rw [boolByte_ne]

/-- Every name and the number of fields have 32 bits. -/
structure ColumnSchema.Fits (schema : ColumnSchema) : Prop where
  count : schema.fields.length < 2 ^ 32
  names : ∀ field ∈ schema.fields, (utf8 field.name).length < 2 ^ 32

theorem honest_header (schema : ColumnSchema) :
    Honest (Header schema) (writeHeader schema) schema.Fits := by
  have hhead : Honest
      (fun c => schema.fields.length < 2 ^ 32 ∧ c = ipcMagic ++ writeLe 4 schema.fields.length)
      (ipcMagic ++ writeLe 4 schema.fields.length) (schema.fields.length < 2 ^ 32) :=
    .unique fun c => Iff.rfl
  have hfields : Honest (Reads.Listed Field schema.fields.length schema.fields)
      (schema.fields.flatMap writeField) _ := .list fun field _ => honest_field field
  rw [writeHeader, ← List.append_assoc]
  refine ((hhead.seq hfields).congr fun c => ?_).of_iff
    ⟨fun h => ⟨h.1, h.2⟩, fun h => ⟨h.count, h.names⟩⟩
  constructor
  · rintro ⟨_, b, ⟨hn, rfl⟩, hb, rfl⟩
    exact ⟨hn, b, hb, List.append_assoc ..⟩
  · rintro ⟨hn, b, hb, rfl⟩
    exact ⟨_, b, ⟨hn, rfl⟩, hb, (List.append_assoc ..).symm⟩

/-! ## Streams -/

theorem honest_stream {schema : ColumnSchema} {batches : List RecordBatch}
    (hconf : ∀ batch ∈ batches, batch.schema = schema ∧ batch.Conforms ∧ batch.numRows ≠ 0) :
    Honest (Stream (schema, batches))
      (writeHeader schema ++ (batches.flatMap writeBatch ++ [0]))
      (schema.Fits ∧ (∀ batch ∈ batches, batch.Fits) ∧ True) := by
  have hframes : Honest (Frames schema batches) (batches.flatMap writeBatch)
      (∀ batch ∈ batches, batch.Fits) := .list fun batch hbatch =>
    honest_batch (hconf batch hbatch).1 (hconf batch hbatch).2.1 (hconf batch hbatch).2.2
  have hend : Honest (fun c => c = [0]) [0] True :=
    .unique fun c => ⟨fun h => ⟨trivial, h⟩, And.right⟩
  refine ((honest_header schema).seq (hframes.seq hend)).congr fun c => ?_
  constructor
  · rintro ⟨b, _, hb, ⟨b', _, hb', rfl, rfl⟩, rfl⟩
    exact ⟨b, b', hb, hb', rfl⟩
  · rintro ⟨b, b', hb, hb', rfl⟩
    exact ⟨b, _, hb, ⟨b', _, hb', rfl, rfl⟩, rfl⟩

/-- The batches that have rows. -/
def nonEmpty (batches : List RecordBatch) : List RecordBatch :=
  batches.filter fun batch => batch.numRows ≠ 0

theorem writeBatches_ok {E : Type} (batches : List RecordBatch) (totalRows : Nat) :
    writeBatches totalRows (batches.map (Except.ok (ε := E))) =
      ((nonEmpty batches).flatMap writeBatch ++ [0],
        .ok (totalRows + (batches.map RecordBatch.numRows).sum)) := by
  induction batches generalizing totalRows with
  | nil => rfl
  | cons batch batches ih =>
    rw [List.map_cons, writeBatches, nonEmpty, List.map_cons, List.sum_cons]
    split
    next hzero => rw [ih, hzero, Nat.zero_add, List.filter_cons_of_neg (by simp [hzero]), nonEmpty]
    next hne =>
      rw [ih, List.filter_cons_of_pos (by simp [hne]), List.flatMap_cons, List.append_assoc,
        Nat.add_assoc, nonEmpty]

theorem collectBatches_ok (batches : List RecordBatch) :
    collectBatches (batches.map .ok) = .ok batches := by
  induction batches with
  | nil => rfl
  | cons batch batches ih =>
    rw [List.map_cons, collectBatches, ih]
    rfl

theorem collectBatches_error (batches : List RecordBatch) (e : IpcError) :
    collectBatches (batches.map .ok ++ [.error e]) = .error e := by
  induction batches with
  | nil => rfl
  | cons batch batches ih =>
    rw [List.map_cons, List.cons_append, collectBatches, ih]
    rfl

theorem new_ok {input : List UInt8} {r : IpcStreamReader} :
    IpcStreamReader.new input = .ok r ↔
      ∃ b rest, Header r.schema b ∧ input = b ++ rest ∧ r = ⟨rest, r.schema, false⟩ := by
  rw [IpcStreamReader.new]
  constructor
  · intro h
    cases hread : readHeader input with
    | error e =>
      rw [hread] at h
      cases h
    | ok out =>
      rw [hread] at h
      obtain rfl := Except.ok.inj h
      obtain ⟨b, hb, rfl⟩ := (readHeader_reads _ _ _).mp hread
      exact ⟨b, _, hb, rfl, rfl⟩
  · rintro ⟨b, rest, hb, rfl, hr⟩
    rw [readHeader_reads.whole hb, hr]
    rfl

/-- The reader of whole streams answers on those that begin with a stream. -/
theorem readIpcStream_ok {input : List UInt8} {out : ColumnSchema × List RecordBatch} :
    readIpcStream input = .ok out ↔ ∃ bytes, Stream out bytes ∧ ∃ rest, input = bytes ++ rest := by
  rw [readIpcStream]
  constructor
  · intro h
    cases hnew : IpcStreamReader.new input with
    | error e =>
      rw [hnew] at h
      cases h
    | ok r =>
      obtain ⟨b, rest, hb, rfl, hr⟩ := new_ok.mp hnew
      obtain ⟨batches, b', rest', hb', rfl, hall⟩ := IpcStreamReader.exists_frames r.schema rest
      rw [hnew] at h
      change collectBatches r.all >>= _ = _ at h
      rcases hall with ⟨⟨tail, rfl⟩, hall⟩ | ⟨e, -, hall⟩
      · rw [hr, hall, collectBatches_ok] at h
        obtain rfl := Except.ok.inj h
        exact ⟨_, ⟨b, b', hb, hb', rfl⟩, tail, by simp⟩
      · rw [hr, hall, collectBatches_error] at h
        cases h
  · rintro ⟨_, ⟨b, b', hb, hb', rfl⟩, rest, rfl⟩
    obtain ⟨schema, batches⟩ := out
    have hnew : IpcStreamReader.new (b ++ (b' ++ [0]) ++ rest) =
        .ok ⟨b' ++ [0] ++ rest, schema, false⟩ :=
      new_ok.mpr ⟨b, _, hb, List.append_assoc .., rfl⟩
    have hall : IpcStreamReader.all ⟨b' ++ [0] ++ rest, schema, false⟩ = batches.map .ok := by
      rw [List.append_assoc, IpcStreamReader.all_frames hb', IpcStreamReader.all_stop .stop,
        List.append_nil]
    rw [hnew]
    change collectBatches (IpcStreamReader.all _) >>= _ = _
    rw [hall, collectBatches_ok]
    rfl

/-- Reading what was written gives the schema and the batches that have rows. -/
def RoundTrips (schema : ColumnSchema) (batches : List RecordBatch) : Prop :=
  readIpcStream (writeIpcStream schema (batches.map (Except.ok (ε := IpcError)))).1 =
    .ok (schema, nonEmpty batches)

theorem writeIpcStream_roundTrips_iff {schema : ColumnSchema} {batches : List RecordBatch}
    (hconf : ∀ batch ∈ batches, batch.schema = schema ∧ batch.Conforms) :
    RoundTrips schema batches ↔ schema.Fits ∧ ∀ batch ∈ nonEmpty batches, batch.Fits := by
  have hrows : ∀ batch ∈ nonEmpty batches,
      batch.schema = schema ∧ batch.Conforms ∧ batch.numRows ≠ 0 := fun batch hbatch => by
    obtain ⟨hmem, hne⟩ := List.mem_filter.mp hbatch
    exact ⟨(hconf batch hmem).1, (hconf batch hmem).2, of_decide_eq_true hne⟩
  have hstream := honest_stream hrows
  rw [RoundTrips, readIpcStream_ok, writeIpcStream, writeBatches_ok]
  constructor
  · rintro ⟨bytes, hbytes, rest, heq⟩
    obtain ⟨⟨hschema, hbatches, -⟩, -⟩ :=
      (hstream [] rest).mp ⟨bytes, hbytes, (List.append_nil _).trans heq⟩
    exact ⟨hschema, hbatches⟩
  · rintro ⟨hschema, hbatches⟩
    obtain ⟨bytes, hbytes, heq⟩ := (hstream [] []).mpr ⟨⟨hschema, hbatches, trivial⟩, rfl⟩
    exact ⟨bytes, hbytes, [], (List.append_nil _).symm.trans heq⟩

/-! ## What the reader yields -/

/-- A batch among the items of the reader of these bytes. -/
def Yields (input : List UInt8) (batch : RecordBatch) : Prop :=
  ∃ r, IpcStreamReader.new input = .ok r ∧ .ok batch ∈ r.all

theorem yields_iff {input : List UInt8} {batch : RecordBatch} :
    Yields input batch ↔ ∃ schema batches b b' rest, Header schema b ∧ Frames schema batches b' ∧
      input = b ++ (b' ++ rest) ∧ batch ∈ batches := by
  constructor
  · rintro ⟨r, hnew, hmem⟩
    obtain ⟨b, rest, hb, rfl, hr⟩ := new_ok.mp hnew
    obtain ⟨batches, b', rest', hb', rfl, hall⟩ := IpcStreamReader.exists_frames r.schema rest
    refine ⟨r.schema, batches, b, b', rest', hb, hb', rfl, ?_⟩
    rw [hr] at hmem
    rcases hall with ⟨-, hall⟩ | ⟨e, -, hall⟩
    · simpa [hall] using hmem
    · simpa [hall] using hmem
  · rintro ⟨schema, batches, b, b', rest, hb, hb', rfl, hmem⟩
    refine ⟨⟨b' ++ rest, schema, false⟩, new_ok.mpr ⟨b, _, hb, rfl, rfl⟩, ?_⟩
    rw [IpcStreamReader.all_frames hb']
    exact List.mem_append_left _ (List.mem_map_of_mem hmem)

/-- The values are as many as the rows, whatever the masks. -/
theorem Frames.len_eq {schema : ColumnSchema} {batches : List RecordBatch} {bytes : List UInt8}
    (h : Frames schema batches bytes) :
    ∀ batch ∈ batches, ∀ c ∈ batch.columns, c.len = batch.numRows := by
  induction batches generalizing bytes with
  | nil => exact nofun
  | cons batch batches ih =>
    obtain ⟨b, b', hb, hb', -⟩ := h.cases_cons
    refine List.forall_mem_cons.mpr ⟨fun c hc => ?_, ih hb'⟩
    obtain ⟨schema', columns, numRows⟩ := batch
    obtain ⟨n, _, -, hcols, rfl, -⟩ := hb.rows_eq
    show c.len = if columns = [] then 0 else n
    rw [if_neg (List.ne_nil_of_mem hc)]
    exact hcols.len_eq c hc

theorem mem_announced {input : List UInt8} {masks : List (Nat × Option Nat)} :
    masks ∈ announced input ↔ ∃ batch, Yields input batch ∧ batch.outline = masks := by
  rw [announced]
  cases hread : readHeader input with
  | error e =>
    refine ⟨nofun, ?_⟩
    rintro ⟨_, ⟨r, hnew, -⟩, -⟩
    rw [IpcStreamReader.new, hread] at hnew
    cases hnew
  | ok out =>
    have hnew : IpcStreamReader.new input = .ok ⟨out.2, out.1, false⟩ := by
      rw [IpcStreamReader.new, hread]
      rfl
    have hyields : ∀ batch, Yields input batch ↔
        .ok batch ∈ IpcStreamReader.all ⟨out.2, out.1, false⟩ := by
      intro batch
      rw [Yields, hnew]
      constructor
      · rintro ⟨_, hr, hmem⟩
        obtain rfl := Except.ok.inj hr
        exact hmem
      · intro hmem
        exact ⟨_, rfl, hmem⟩
    simp only [hyields, outlineBatches_eq, List.mem_map, List.mem_filterMap]
    refine exists_congr fun batch => and_congr_left' ?_
    constructor
    · rintro ⟨item, hmem, hitem⟩
      cases item with
      | error e => cases hitem
      | ok batch' =>
        cases hitem
        exact hmem
    · intro hmem
      exact ⟨_, hmem, rfl⟩

/-- The reader yields well-formed batches only, exactly when the announced lengths fit. -/
theorem yields_wellFormed_iff (input : List UInt8) :
    (∀ batch, Yields input batch → batch.WellFormed) ↔ MasksFit input := by
  constructor
  · intro h masks hmasks mask hmask len hlen
    obtain ⟨batch, hyields, rfl⟩ := mem_announced.mp hmasks
    obtain ⟨c, hc, rfl⟩ := List.mem_map.mp hmask
    obtain ⟨v, hv, rfl⟩ := Option.map_eq_some_iff.mp hlen
    exact (h batch hyields c hc).mask_eq v hv
  · intro h batch hyields c hc
    obtain ⟨schema, batches, b, b', rest, hb, hb', hinput, hbatch⟩ := yields_iff.mp hyields
    refine ⟨hb'.len_eq batch hbatch c hc, fun v hv => ?_⟩
    refine h _ (mem_announced.mpr ⟨batch, hyields, rfl⟩) _ (List.mem_map_of_mem hc) _ ?_
    rw [ColumnArray.outline, hv]
    rfl

/-! ## Streams that are cut -/

/-- The header fails, or the items are batches and then one error. -/
def CutShort (input : List UInt8) : Prop :=
  (∃ e, IpcStreamReader.new input = .error e) ∨
    ∃ r, ∃ batches : List RecordBatch, ∃ e, IpcStreamReader.new input = .ok r ∧ r.all = batches.map .ok ++ [.error e]

theorem all_cut {schema : ColumnSchema} {batches : List RecordBatch} {bytes p : List UInt8}
    (h : Frames schema batches bytes) (hp : p <+: bytes ++ [0]) (hne : p ≠ bytes ++ [0]) :
    ∃ whole : List RecordBatch, ∃ e, IpcStreamReader.all ⟨p, schema, false⟩ = whole.map .ok ++ [.error e] := by
  induction batches generalizing bytes p with
  | nil =>
    obtain ⟨-, pieces, hall, rfl⟩ := h
    cases hall
    obtain ⟨e, he⟩ := (readBatch_reads schema).cut .stop hp hne
    exact ⟨[], e, IpcStreamReader.all_error he⟩
  | cons batch batches ih =>
    obtain ⟨b, b', hb, hb', rfl⟩ := h.cases_cons
    rw [List.append_assoc] at hp hne
    rcases prefix_append_cases hp hne with ⟨hp, hne⟩ | ⟨q, rfl, hq, hne⟩
    · obtain ⟨e, he⟩ := (readBatch_reads schema).cut hb hp hne
      exact ⟨[], e, IpcStreamReader.all_error he⟩
    · obtain ⟨whole, e, hall⟩ := ih hb' hq hne
      refine ⟨batch :: whole, e, ?_⟩
      rw [IpcStreamReader.all_batch hb, hall]
      rfl

theorem cutShort_of_prefix {out : ColumnSchema × List RecordBatch} {bytes p : List UInt8}
    (h : Stream out bytes) (hp : p <+: bytes) (hne : p ≠ bytes) : CutShort p := by
  obtain ⟨b, b', hb, hb', rfl⟩ := h
  rcases prefix_append_cases hp hne with ⟨hp, hne⟩ | ⟨q, rfl, hq, hne⟩
  · obtain ⟨e, he⟩ := readHeader_reads.cut hb hp hne
    refine .inl ⟨e, ?_⟩
    rw [IpcStreamReader.new, he]
    rfl
  · obtain ⟨whole, e, hall⟩ := all_cut hb' hq hne
    exact .inr ⟨_, whole, e, new_ok.mpr ⟨b, q, hb, rfl, rfl⟩, hall⟩

/-! ## The whole -/

/-- The round trip is exact when everything fits, what is yielded is well formed when the announced
masks fit their rows, and a cut always shows. -/
theorem ipc_streams (schema : ColumnSchema) (batches : List RecordBatch) (input : List UInt8)
    (out : ColumnSchema × List RecordBatch) (bytes p : List UInt8) :
    ((∀ batch ∈ batches, batch.schema = schema ∧ batch.Conforms) →
      (RoundTrips schema batches ↔ schema.Fits ∧ ∀ batch ∈ nonEmpty batches, batch.Fits)) ∧
    ((∀ batch, Yields input batch → batch.WellFormed) ↔ MasksFit input) ∧
    (Stream out bytes → p <+: bytes → p ≠ bytes → CutShort p) :=
  ⟨writeIpcStream_roundTrips_iff, yields_wellFormed_iff input, cutShort_of_prefix⟩

/-- One column with a null. -/
def nullable : RecordBatch :=
  ⟨⟨[⟨"a", .uint8, true⟩]⟩, [⟨.uint8 [7, 0], some [true, false]⟩], 2⟩

theorem nullable_conforms : nullable.Conforms where
  types := rfl
  rows := by
    intro c hc
    obtain rfl := List.mem_singleton.mp hc
    exact ⟨rfl, fun mask hmask => Option.some.inj hmask ▸ rfl⟩

theorem ipc_streams_nullable : RoundTrips nullable.schema [nullable] := by
  refine ((ipc_streams nullable.schema [nullable] [] (⟨[]⟩, []) [] []).1 ?_).mpr
    ⟨⟨by decide, ?_⟩, ?_⟩
  · intro batch hbatch
    obtain rfl := List.mem_singleton.mp hbatch
    exact ⟨rfl, nullable_conforms⟩
  · intro field hfield
    obtain rfl := List.mem_singleton.mp hfield
    decide
  · intro batch hbatch
    obtain rfl := List.mem_singleton.mp hbatch
    refine ⟨nofun, by decide, fun c hc => ?_⟩
    obtain rfl := List.mem_singleton.mp hc
    trivial

/-- One column, one row and a mask of no entries. -/
def shortMask : RecordBatch := ⟨⟨[⟨"a", .uint8, true⟩]⟩, [⟨.uint8 [7], some []⟩], 1⟩

/-- Projected to no columns a batch keeps its rows and the stream does not, and the reader yields
a batch with a mask that is too short. -/
theorem ipc_loses_rows_and_accepts_short_mask :
    (∃ batch, nullable.project [] = .ok batch ∧ batch.Conforms ∧ batch.numRows = 2 ∧
      ¬RoundTrips batch.schema [batch]) ∧
    Yields (writeHeader shortMask.schema ++ (writeBatch shortMask ++ [0])) shortMask ∧
      ¬shortMask.WellFormed := by
  refine ⟨⟨⟨⟨[]⟩, [], 2⟩, rfl, ⟨rfl, nofun⟩, rfl, ?_⟩, ?_, ?_⟩
  · intro h
    have hread : readIpcStream (writeIpcStream ⟨[]⟩
        [(.ok ⟨⟨[]⟩, [], 2⟩ : Except IpcError RecordBatch)]).1 = .ok (⟨[]⟩, [⟨⟨[]⟩, [], 0⟩]) := rfl
    have heq := Except.ok.inj (hread.symm.trans h)
    cases heq
  · have hmask : Mask (some []) [1, 0, 0, 0, 0] :=
      .some (by decide : (1 : UInt8) ≠ 0) (by decide) (⟨rfl, rfl⟩ : Bools 0 [] [])
    have hvalues : Values 1 (.uint8 [7]) [7] := ⟨rfl, rfl⟩
    have hcolumns : Columns 1 shortMask.schema.fields shortMask.columns
        ([1, 0, 0, 0, 0] ++ [7] ++ []) := .cons (.mk hmask rfl hvalues) .nil
    exact yields_iff.mpr ⟨shortMask.schema, [shortMask], _, _, [0],
      ⟨by decide, _, ⟨rfl, [_], .cons ⟨by decide, 1, rfl, rfl⟩ .nil, rfl⟩, rfl⟩,
      .cons (.batch (by decide) hcolumns) .nil, rfl, List.mem_singleton_self _⟩
  · intro h
    have hmask := (h _ List.mem_cons_self).mask_eq [] rfl
    cases hmask

end RasterH3.Columnar
