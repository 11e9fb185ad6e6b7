import RasterH3.Proofs.IpcFormat

/-!
# The lengths a stream announces

A stream carries two kinds of numbers that have to agree: the rows of a batch, and the length
in front of each validity mask. Nothing in the format makes them agree, so whether they do is
a question about the bytes, and this module asks it there. The outline of a stream is found by
a scan that keeps the announced numbers and passes over everything else: the entries of a mask
and the words of a column are so many bytes, a string is its length and that many bytes, and no
value is built on the way.

The scan does at each step what the reader of batches does, one field at a time, with the values
left out (`outlineColumns_eq`, `outlineBatch_eq`). It therefore stops where the reader stops, and
the batches it meets are the ones that the reader yields.
-/

namespace RasterH3.Columnar

open Bytes

/-! ## Readers that keep less -/

/-- What is kept of the answer does not matter where the rest of the stream begins. -/
theorem map_run {E α β : Type} (f : α → β) (read : Reader E α) (input : List UInt8) :
    (f <$> read) input = (read input).map fun out => (f out.1, out.2) := by
  show (read input >>= fun out => pure (f out.1, out.2)) = _
  cases read input with
  | error e => rfl
  | ok out => rfl

/-- The reader, for where it ends. -/
def skip {E α : Type} (read : Reader E α) : Reader E Unit := (fun _ => ()) <$> read

section Skip

variable {E α β : Type}

theorem skip_map (f : α → β) (read : Reader E α) : skip (f <$> read) = skip read := by
  rw [skip, skip, Functor.map_map]

theorem skip_bind (read : Reader E α) (next : α → Reader E β) :
    skip (read >>= next) = read >>= fun x => skip (next x) := by
  rw [skip, map_bind]
  rfl

/-- Where the second part ignores the answer of the first. -/
theorem skip_seq (read : Reader E α) (next : Reader E β) :
    (read >>= fun _ => next) = skip read >>= fun _ => next := by
  rw [skip, bind_map_left]

theorem readLe_of_le {w : Nat} {input : List UInt8} (h : w ≤ input.length) :
    ∃ n, readLe w input = some (n, input.drop w) := by
  induction w generalizing input with
  | zero => exact ⟨0, rfl⟩
  | succ w ih =>
    cases input with
    | nil => simp at h
    | cons b input =>
      obtain ⟨n, hn⟩ := ih (by simpa using h)
      exact ⟨b.toNat + 256 * n, by rw [readLe, hn, List.drop_succ_cons]⟩

theorem skip_le (eof : E) (w : Nat) : skip (Reader.le eof w) = skip (Reader.exact eof w) := by
  funext input
  rw [skip, skip, map_run, map_run, Reader.le, Reader.exact]
  by_cases hshort : input.length < w
  · rw [if_pos hshort, Framed.readLe_none hshort]
    rfl
  · obtain ⟨n, hn⟩ := readLe_of_le (not_lt.mp hshort)
    rw [if_neg hshort, hn]
    rfl

theorem skip_exact_add (eof : E) (m n : Nat) :
    skip (Reader.exact eof (m + n)) =
      skip (Reader.exact eof m) >>= fun _ => skip (Reader.exact eof n) := by
  funext input
  rw [bind_run, skip, skip, skip, map_run, map_run, Reader.exact, Reader.exact]
  by_cases hm : input.length < m
  · rw [if_pos hm, if_pos (by omega)]
    rfl
  · rw [if_neg hm]
    show _ = ((fun _ => ()) <$> Reader.exact eof n) (input.drop m)
    rw [map_run, Reader.exact, List.length_drop, List.drop_drop]
    by_cases hn : input.length < m + n
    · rw [if_pos hn, if_pos (by omega)]
    · rw [if_neg hn, if_neg (by omega)]
      rfl

theorem repeated_succ (read : Reader E α) (n : Nat) :
    Reader.repeated read (n + 1) = read >>= fun x => (x :: ·) <$> Reader.repeated read n := by
  simp only [map_eq_pure_bind]
  rfl

theorem skip_repeated_succ (read : Reader E α) (n : Nat) :
    skip (Reader.repeated read (n + 1)) = skip read >>= fun _ => skip (Reader.repeated read n) := by
  rw [repeated_succ, skip_bind, ← skip_seq]
  simp only [skip_map]

theorem skip_repeated_congr {read : Reader E α} {read' : Reader E β} (h : skip read = skip read')
    (n : Nat) : skip (Reader.repeated read n) = skip (Reader.repeated read' n) := by
  induction n with
  | zero => rfl
  | succ n ih => rw [skip_repeated_succ, skip_repeated_succ, h, ih]

/-- `n` words of `w` bytes are `w * n` bytes. -/
theorem skip_words (eof : E) {w : Nat} {read : Reader E α}
    (h : skip read = skip (Reader.exact eof w)) (n : Nat) :
    skip (Reader.repeated read n) = skip (Reader.exact eof (w * n)) := by
  induction n with
  | zero =>
    funext input
    rw [skip, skip, map_run, map_run, Reader.exact, if_neg (by simp)]
    rfl
  | succ n ih => rw [Nat.mul_succ, Nat.add_comm (w * n), skip_exact_add, ← h, ← ih, skip_repeated_succ]

end Skip

/-! ## The scan -/

/-- The length of a mask; its entries are passed over. -/
def outlineMask : Reader IpcError (Option Nat) := do
  let has ← readU8
  if has = 0 then return none
  let len ← readU32
  skip (Reader.exact .eof len)
  return some len

/-- The values of a column are so many bytes, or so many strings. -/
def skipValues (numRows : Nat) : ArrowDataType → Reader IpcError Unit
  | .uint64 | .int64 | .float64 => skip (Reader.exact .eof (8 * numRows))
  | .uint8 | .boolean => skip (Reader.exact .eof numRows)
  | .utf8 | .binary => skip (Reader.repeated readBytes numRows)

/-- For each column the announced rows, and the announced length of its mask. -/
def outlineColumns (numRows : Nat) : List ColumnField → Reader IpcError (List (Nat × Option Nat))
  | [] => pure []
  | field :: fields => do
      let mask ← outlineMask
      skipValues numRows field.dataType
      let masks ← outlineColumns numRows fields
      return (numRows, mask) :: masks

def outlineBatch (fields : List ColumnField) :
    Reader IpcError (Option (List (Nat × Option Nat))) := do
  let marker ← readU8
  if marker = 0 then return none
  if marker ≠ 1 then throw (.invalidMarker marker)
  let numRows ← readU32
  let masks ← outlineColumns numRows fields
  return some masks

/-- The batches that follow, up to an end or an error, and at most `fuel` of them. -/
def outlineBatches : Nat → List ColumnField → List UInt8 → List (List (Nat × Option Nat))
  | 0, _, _ => []
  | fuel + 1, fields, input =>
      match outlineBatch fields input with
      | .ok (some masks, rest) => masks :: outlineBatches fuel fields rest
      | _ => []

/-- What the bytes announce: for each column of each batch its rows, and the length of its mask. -/
def announced (input : List UInt8) : List (List (Nat × Option Nat)) :=
  match readHeader input with
  | .error _ => []
  | .ok (schema, rest) => outlineBatches (rest.length + 1) schema.fields rest

/-- Every announced mask is as long as the rows announced for its batch. -/
def MasksFit (input : List UInt8) : Prop :=
  ∀ masks ∈ announced input, ∀ mask ∈ masks, ∀ len, mask.2 = some len → len = mask.1

/-! ## The scan and the reader -/

theorem outlineMask_eq : outlineMask = Option.map List.length <$> readValidity := by
  rw [outlineMask, readValidity, map_bind]
  congr 1
  funext has
  split
  next => rfl
  next =>
    rw [map_bind]
    congr 1
    funext len input
    rw [map_run, bind_run, bind_run, readBools, bind_run, skip, map_run, Reader.exact]
    split
    next => rfl
    next hle =>
      have hlen : ((input.take len).map (· != 0)).length = len := by
        rw [List.length_map, List.length_take_of_le (not_lt.mp hle)]
      show Except.ok (some len, _) = .ok (some ((input.take len).map (· != 0)).length, _)
      rw [hlen]

theorem skip_readU64 : skip readU64 = skip (Reader.exact IpcError.eof 8) := by
  rw [← skip_le]
  exact skip_map UInt64.ofNat (Reader.le IpcError.eof 8)

theorem skip_readI64 : skip readI64 = skip (Reader.exact IpcError.eof 8) := by
  rw [← skip_le]
  exact skip_map (fun n => Int64.ofBitVec (BitVec.ofNat 64 n)) (Reader.le IpcError.eof 8)

theorem skipValues_eq (numRows : Nat) (dt : ArrowDataType) :
    skipValues numRows dt = skip (readValues numRows dt) := by
  cases dt with
  | uint64 =>
    exact (skip_words _ skip_readU64 numRows).symm.trans (skip_map ColumnValues.uint64 _).symm
  | int64 =>
    exact (skip_words _ skip_readI64 numRows).symm.trans (skip_map ColumnValues.int64 _).symm
  | uint8 => exact (skip_map ColumnValues.uint8 _).symm
  | float64 =>
    exact (skip_words _ skip_readU64 numRows).symm.trans (skip_map ColumnValues.float64 _).symm
  | boolean =>
    have hbools : skip (readBools numRows) = skip (Reader.exact .eof numRows) :=
      skip_map (fun bytes : List UInt8 => bytes.map (· != 0)) _
    exact hbools.symm.trans (skip_map ColumnValues.boolean _).symm
  | utf8 =>
    have htext : skip readText = skip readBytes := skip_map fromUtf8Lossy readBytes
    exact (skip_repeated_congr htext numRows).symm.trans (skip_map ColumnValues.utf8 _).symm
  | binary => exact (skip_map ColumnValues.binary _).symm

/-- The announced rows of a column, and the length of its mask. -/
def ColumnArray.outline (n : Nat) (col : ColumnArray) : Nat × Option Nat :=
  (n, col.validity.map List.length)

theorem outlineColumns_eq (n : Nat) (fields : List ColumnField) :
    outlineColumns n fields = List.map (ColumnArray.outline n) <$> readColumns n fields := by
  induction fields with
  | nil => rfl
  | cons field fields ih =>
    rw [outlineColumns, readColumns, readColumn, outlineMask_eq, skipValues_eq, ih]
    simp only [skip, map_eq_pure_bind, bind_assoc, pure_bind, List.map_cons,
      ColumnArray.outline]

/-- What a batch announces. One without columns announces nothing. -/
def RecordBatch.outline (batch : RecordBatch) : List (Nat × Option Nat) :=
  batch.columns.map (ColumnArray.outline batch.numRows)

theorem outlineBatch_eq (schema : ColumnSchema) :
    outlineBatch schema.fields = Option.map RecordBatch.outline <$> readBatch schema := by
  rw [outlineBatch, readBatch, map_bind]
  congr 1
  funext marker
  split
  next => rfl
  next =>
    split
    next => rfl
    next =>
      show readU32 >>= (fun n => outlineColumns n schema.fields >>= fun masks => pure (some masks)) =
        Option.map RecordBatch.outline <$> (readU32 >>= fun n => _)
      rw [map_bind]
      congr 1
      funext n input
      rw [map_run, bind_run, bind_run, outlineColumns_eq, map_run]
      cases hread : readColumns n schema.fields input with
      | error e => rfl
      | ok out =>
        obtain ⟨b, hcols, -⟩ := (readColumns_reads n schema.fields _ _ _).mp hread
        have htry := RecordBatch.tryNew_ok hcols.types hcols.len_eq
        have hrows : out.1.map (ColumnArray.outline n) =
            out.1.map (ColumnArray.outline (if out.1 = [] then 0 else n)) := by
          cases out.1 with
          | nil => rfl
          | cons col cols => rw [if_neg nofun]
        show Except.ok (some (out.1.map (ColumnArray.outline n)), out.2) = _
        simp only [Except.map, bind, Except.bind, htry]
        rw [hrows]
        rfl

/-- The scan meets the batches that the reader yields. -/
theorem outlineBatches_eq (fuel : Nat) (schema : ColumnSchema) (input : List UInt8) :
    outlineBatches fuel schema.fields input =
      ((IpcStreamReader.items fuel ⟨input, schema, false⟩).filterMap Except.toOption).map
        RecordBatch.outline := by
  induction fuel generalizing input with
  | zero => rfl
  | succ fuel ih =>
    rw [outlineBatches, outlineBatch_eq, map_run, IpcStreamReader.items, IpcStreamReader.next_eq]
    cases readBatch schema input with
    | error e =>
      simp only [IpcStreamReader.items_done]
      rfl
    | ok out =>
      obtain ⟨_ | batch, rest⟩ := out
      · rfl
      · show batch.outline :: outlineBatches fuel schema.fields rest = _
        rw [ih]
        rfl

end RasterH3.Columnar
