import RasterH3.Columnar.LongFormat
import RasterH3.Proofs.CategoricalMap

/-!
# Batches of the long format

The long format has a row for each class of each cell. The reader takes records from a
stream, each with all its classes, and hands out batches of a fixed number of rows, so that
a record may be cut by the end of a batch and go on in the next; a limit on the rows may end
it in the middle of a record.

Whatever the reader has taken from the stream is either in a batch or still in its cursor,
so what a reader will hand out is a list: the rest of the cursor and then the rows of the
records that are left (`pending`). Filling a batch takes rows from the head of this list and
changes nothing else about it (`fillRows_filled`). How the list is cut into batches then
depends on its length, the limit and the end of the stream only (`cut`), and each call of
`next` takes one piece of the cut (`next_cut`).

A failing stream ends the reader at once. The rows that the unfinished batch already had are
given up with it, and a failure behind the limit is not noticed.

The pieces of the cut have one more description. Without a failure within the limit they are
all rows up to the limit, in full batches but for the last (`cut_met`), and with a failure
the full batches before it, and the error (`cut_failed`). Both are inductions on the number
of pieces and know nothing of readers; `long_batches_flat_map` puts them together with the
rows of the records, one record after the other.
-/

namespace RasterH3.LongFormat

open Agg Columnar

variable {F E : Type} [Field F] [LinearOrder F] {env : Rendering F}

/-! ## The rows of a record -/

/-- One row for each class of the record, in increasing order of the classes. -/
structure ClassRows (rec : MultiCategoricalRecord F) (rows : List (CategoricalLongRow F)) : Prop where
  classes : (rows.map fun r => (r.category, r.count)).Perm rec.accumulator.classes
  increasing : (rows.map fun r => r.category).Pairwise (· < ·)
  cell : ∀ r ∈ rows, r.cellU64 = rec.h3Index ∧ r.resolution = rec.resolution
  total : ∀ r ∈ rows, r.totalCount = rec.accumulator.totalCount
  share : ∀ r ∈ rows, r.fraction = r.count / rec.accumulator.totalCount

namespace CategoricalLongCursor

/-- The rows that are not emitted yet. -/
def rest (cursor : CategoricalLongCursor F) : List (CategoricalLongRow F) :=
  (cursor.entries.drop cursor.next).map cursor.row

theorem length_rest (cursor : CategoricalLongCursor F) : cursor.rest.length = cursor.remaining := by
  rw [rest, List.length_map, List.length_drop, remaining]

theorem rest_eq_nil {cursor : CategoricalLongCursor F} (h : ¬ 0 < cursor.remaining) :
    cursor.rest = [] := by
  refine List.eq_nil_of_length_eq_zero ?_
  rw [length_rest]
  omega

theorem emitInto_append (maxRows : Nat) (cursor : CategoricalLongCursor F) :
    (cursor.emitInto maxRows).1 ++ (cursor.emitInto maxRows).2.rest = cursor.rest := by
  have hrow : (cursor.emitInto maxRows).2.row = cursor.row := rfl
  rw [rest, hrow, rest, emitInto, ← List.map_append, ← List.drop_drop, List.take_append_drop]

theorem length_emitInto_le (maxRows : Nat) (cursor : CategoricalLongCursor F) :
    (cursor.emitInto maxRows).1.length ≤ maxRows := by
  rw [emitInto, List.length_map, List.length_take]
  omega

@[simp] theorem withEntropy_emitInto (maxRows : Nat) (cursor : CategoricalLongCursor F) :
    (cursor.emitInto maxRows).2.withEntropy = cursor.withEntropy := rfl

@[simp] theorem withEntropy_load (rec : MultiCategoricalRecord F) (cursor : CategoricalLongCursor F) :
    (cursor.load env rec).withEntropy = cursor.withEntropy := rfl

end CategoricalLongCursor

/-- The rows of a record: none without counted pixels. -/
def longRows (env : Rendering F) (withEntropy : Bool) (rec : MultiCategoricalRecord F) :
    List (CategoricalLongRow F) :=
  if 0 < rec.accumulator.totalCount then
    ((CategoricalLongCursor.new withEntropy).load env rec).rest
  else []

theorem longRows_classRows (withEntropy : Bool) {rec : MultiCategoricalRecord F}
    (hvisit : rec.accumulator.Visits (env.visit rec.accumulator))
    (hpos : 0 < rec.accumulator.totalCount) : ClassRows rec (longRows env withEntropy rec) := by
  have hperm : ((env.visit rec.accumulator).insertionSort fun p q => p.1 ≤ q.1).Perm
      rec.accumulator.classes :=
    (List.perm_insertionSort _ _).trans (CategoricalAccumulator.perm_of_visits hvisit)
  have hnodup := (hperm.map Prod.fst).nodup_iff.mpr rec.accumulator.classes_nodup
  have hsorted := CategoricalAccumulator.pairwise_lt_of_sorted
    (List.pairwise_insertionSort (fun p q : Int64 × F => p.1 ≤ q.1) _) hnodup
  have hrows : longRows env withEntropy rec =
      ((env.visit rec.accumulator).insertionSort fun p q => p.1 ≤ q.1).map
        ((CategoricalLongCursor.new withEntropy).load env rec).row := if_pos hpos
  refine { classes := ?_, increasing := ?_, cell := ?_, total := ?_, share := ?_ }
  · rw [hrows, List.map_map]
    refine (List.Perm.of_eq ?_).trans hperm
    exact List.map_id _
  · rw [hrows, List.map_map]
    exact hsorted
  all_goals
    intro r hr
    rw [hrows] at hr
    rcases List.mem_map.mp hr with ⟨entry, -, rfl⟩
  · exact ⟨rfl, rfl⟩
  · rfl
  · exact if_pos hpos

/-! ## Filling a batch -/

namespace CategoricalBatchReader

variable {s s' : CategoricalBatchReader F E}

/-- The rows that are in the cursor or will be, in order. -/
def pending (env : Rendering F) (s : CategoricalBatchReader F E) : List (CategoricalLongRow F) :=
  s.longCursor.rest ++
    if s.finished then []
    else s.streamer.records.flatMap (longRows env s.longCursor.withEntropy)

/-- The error that comes behind these rows. -/
def ending (s : CategoricalBatchReader F E) : Option E :=
  if s.finished then none else s.streamer.failure

/-- What no call changes. -/
structure Same (s s' : CategoricalBatchReader F E) : Prop where
  projection : s'.projection = s.projection
  schema : s'.schema = s.schema
  batchSize : s'.batchSize = s.batchSize

/-- What filling does to a reader that has gathered `rows`. -/
structure Filled (env : Rendering F) (target : Nat) (rows : List (CategoricalLongRow F))
    (s : CategoricalBatchReader F E)
    (r : Except E (List (CategoricalLongRow F)) × CategoricalBatchReader F E) : Prop where
  same : Same s r.2
  limit : r.2.remainingLimit = s.remainingLimit
  full : target ≤ (rows ++ s.pending env).length →
    r.1 = .ok ((rows ++ s.pending env).take target) ∧
      r.2.pending env = (rows ++ s.pending env).drop target ∧ r.2.ending = s.ending
  short : (rows ++ s.pending env).length < target →
    r.2.pending env = [] ∧ r.2.ending = none ∧
      r.1 = match s.ending with
        | none => .ok (rows ++ s.pending env)
        | some e => .error e

/-- A turn of the loop moves rows from what is pending to what is gathered. -/
theorem Filled.turn {target : Nat} {rows rows' : List (CategoricalLongRow F)}
    {r : Except E (List (CategoricalLongRow F)) × CategoricalBatchReader F E}
    (h : Filled env target rows' s' r) (hsame : Same s s')
    (hlimit : s'.remainingLimit = s.remainingLimit)
    (hpending : rows' ++ s'.pending env = rows ++ s.pending env) (hending : s'.ending = s.ending) :
    Filled env target rows s r where
  same :=
    { projection := h.same.projection.trans hsame.projection
      schema := h.same.schema.trans hsame.schema
      batchSize := h.same.batchSize.trans hsame.batchSize }
  limit := h.limit.trans hlimit
  full := by
    rw [← hpending, ← hending]
    exact h.full
  short := by
    rw [← hpending, ← hending]
    exact h.short

/-- The loop ends with a full batch, or when nothing is pending and no error either. -/
theorem Filled.done {target : Nat} {rows : List (CategoricalLongRow F)} (hle : rows.length ≤ target)
    (h : rows.length = target ∨ s.pending env = [] ∧ s.ending = none) :
    Filled env target rows s (.ok rows, s) where
  same := ⟨rfl, rfl, rfl⟩
  limit := rfl
  full := by
    intro hfull
    rw [List.length_append] at hfull
    have hlen : rows.length = target := by
      rcases h with h | h
      · exact h
      · rw [h.1, List.length_nil] at hfull
        omega
    exact ⟨congrArg _ (List.take_left' hlen).symm, (List.drop_left' hlen).symm, rfl⟩
  short := by
    intro hshort
    rw [List.length_append] at hshort
    rcases h with h | h
    · omega
    · rw [h.1, h.2, List.append_nil]
      exact ⟨rfl, rfl, rfl⟩

theorem fillRows_filled (target : Nat) (rows : List (CategoricalLongRow F))
    (s : CategoricalBatchReader F E) (hle : rows.length ≤ target) :
    Filled env target rows s (fillRows env target rows s) := by
  induction rows, s using fillRows.induct env target with
  | case1 rows s hlt hremaining emitted ih =>
      rw [fillRows, if_pos hlt, if_pos hremaining]
      have hlen := s.longCursor.length_emitInto_le (target - rows.length)
      have hle' : (rows ++ emitted.1).length ≤ target := by
        rw [List.length_append]
        show rows.length + (s.longCursor.emitInto (target - rows.length)).1.length ≤ target
        omega
      refine (ih hle').turn ⟨rfl, rfl, rfl⟩ rfl ?_ rfl
      -- the rows emitted are the head of the cursor
      simp only [pending, emitted, CategoricalLongCursor.withEntropy_emitInto]
      rw [List.append_assoc, ← List.append_assoc (s.longCursor.emitInto _).1,
        CategoricalLongCursor.emitInto_append]
  | case2 rows s hlt hremaining hfinished =>
      rw [fillRows, if_pos hlt, if_neg hremaining, if_pos hfinished]
      refine Filled.done hle (.inr ⟨?_, if_pos hfinished⟩)
      rw [pending, CategoricalLongCursor.rest_eq_nil hremaining, if_pos hfinished]
      rfl
  | case3 rows s hlt hremaining hfinished streamer hdrain ih =>
      rw [fillRows, if_pos hlt, if_neg hremaining, if_neg hfinished]
      split
      next streamer' h =>
        rw [hdrain] at h
        cases h
        rcases RecordStream.drainOne_end hdrain with ⟨hrecords, hfailure, -⟩
        refine (ih hle).turn ⟨rfl, rfl, rfl⟩ rfl ?_ ?_
        · simp [pending, hfinished, hrecords]
        · simp [ending, hfinished, hfailure]
      next h => rw [hdrain] at h; cases h
      next h => rw [hdrain] at h; cases h
  | case4 rows s hlt hremaining hfinished rec streamer hdrain longCursor ih =>
      rw [fillRows, if_pos hlt, if_neg hremaining, if_neg hfinished]
      split
      next h => rw [hdrain] at h; cases h
      next rec' streamer' h =>
        rw [hdrain] at h
        cases h
        rcases RecordStream.drainOne_rec hdrain with ⟨records, hrecords, rfl⟩
        refine (ih hle).turn ⟨rfl, rfl, rfl⟩ rfl ?_ ?_
        · -- the cursor was empty, and now holds the rows of the record
          have hrest := CategoricalLongCursor.rest_eq_nil hremaining
          simp only [pending, hfinished, hrecords, hrest, longCursor, List.flatMap_cons, longRows]
          by_cases hpos : 0 < rec.accumulator.totalCount
          · simp only [hpos, if_true, List.nil_append]
            rfl
          · simp [hpos, hrest]
        · simp [ending, hfinished]
      next h => rw [hdrain] at h; cases h
  | case5 rows s hlt hremaining hfinished e streamer hdrain =>
      rw [fillRows, if_pos hlt, if_neg hremaining, if_neg hfinished]
      split
      next h => rw [hdrain] at h; cases h
      next h => rw [hdrain] at h; cases h
      next e' streamer' h =>
        rw [hdrain] at h
        cases h
        rcases RecordStream.drainOne_error hdrain with ⟨hrecords, hfailure⟩
        have hrest := CategoricalLongCursor.rest_eq_nil hremaining
        have hpending : s.pending env = [] := by simp [pending, hrest, hfinished, hrecords]
        refine { same := ⟨rfl, rfl, rfl⟩, limit := rfl, full := ?_, short := ?_ }
        · intro hfull
          rw [hpending, List.append_nil] at hfull
          omega
        · intro _
          refine ⟨?_, if_pos rfl, ?_⟩
          · simp [pending, hrest]
          · simp [ending, hfinished, hfailure]
  | case6 rows s hlt =>
      rw [fillRows, if_neg hlt]
      exact Filled.done hle (.inl (by omega))

/-! ## The batches -/

/-- The rows that the next batch has room for. -/
def room (batchSize : Nat) : Option Nat → Nat
  | some limit => min batchSize limit
  | none => batchSize

theorem room_pos {batchSize : Nat} (hbatch : 0 < batchSize) {limit : Option Nat}
    (hlimit : limit ≠ some 0) : 0 < room batchSize limit := by
  cases limit with
  | none => exact hbatch
  | some l =>
      have : l ≠ 0 := fun h => hlimit (by rw [h])
      simp only [room]
      omega

/-- How pending rows are cut into batches. -/
def cut {R : Type} (batchSize : Nat) (hbatch : 0 < batchSize) (limit : Option Nat) (rows : List R)
    (ending : Option E) : List (Except E (List R)) :=
  if _hlimit : limit = some 0 then []
  else if _hfull : room batchSize limit ≤ rows.length then
    .ok (rows.take (room batchSize limit)) ::
      cut batchSize hbatch (limit.map (· - room batchSize limit))
        (rows.drop (room batchSize limit)) ending
  else
    match ending with
    | some e => [.error e]
    | none => if rows = [] then [] else [.ok rows]
termination_by rows.length
decreasing_by
  have hpos := room_pos hbatch _hlimit
  rw [List.length_drop]
  omega

/-- The batches that a reader will hand out, and the error. -/
def batches (env : Rendering F) (s : CategoricalBatchReader F E) :
    List (Except E (List (CategoricalLongRow F))) :=
  cut s.batchSize (Nat.succ_le_of_lt s.batch_pos) s.remainingLimit (s.pending env) s.ending

/-- A reader that has nothing pending hands out nothing. -/
theorem batches_nil (hpending : s.pending env = []) (hending : s.ending = none) :
    s.batches env = [] := by
  rw [batches, hpending, hending, cut]
  split
  · rfl
  · next hlimit =>
    have hpos := room_pos s.batch_pos hlimit
    rw [dif_neg (by simp; omega), if_pos rfl]

theorem Same.cut_eq (hsame : Same s s') (limit : Option Nat) (rows : List (CategoricalLongRow F))
    (ending : Option E) :
    cut s'.batchSize s'.batch_pos limit rows ending =
      cut s.batchSize s.batch_pos limit rows ending := by
  simp only [hsame.batchSize]

theorem Same.limited (hsame : Same s s') (limit : Option Nat) :
    Same s { s' with remainingLimit := limit } :=
  ⟨hsame.projection, hsame.schema, hsame.batchSize⟩

theorem next_eq (s : CategoricalBatchReader F E) :
    s.next env =
      if s.remainingLimit = some 0 then (none, { s with finished := true })
      else nextLongBatch env (room s.batchSize s.remainingLimit) s := by
  unfold next
  split
  next h => rw [if_pos h]
  next rem hne h =>
    rw [h, if_neg]
    · rfl
    · intro hzero
      exact hne (Option.some.inj hzero)
  next h =>
    rw [h, if_neg (by simp)]
    rfl

/-- What a call of `next` makes of the pieces: it hands out the first, as a batch. -/
structure Next (env : Rendering F) (s : CategoricalBatchReader F E)
    (r : Option (Except E RecordBatch) × CategoricalBatchReader F E) : Prop where
  same : Same s r.2
  handed : r.1 = (s.batches env).head?.map fun piece =>
    piece.map (longBatch env s.schema s.projection)
  left : r.2.batches env = (s.batches env).tail

theorem nextLongBatch_next (hlimit : s.remainingLimit ≠ some 0) :
    Next env s (nextLongBatch env (room s.batchSize s.remainingLimit) s) := by
  have hpos := room_pos s.batch_pos hlimit
  have hfilled := @fillRows_filled _ _ _ _ env (room s.batchSize s.remainingLimit) [] s
    (Nat.zero_le _)
  have hbatches := batches.eq_def env s
  rw [cut.eq_def, dif_neg hlimit] at hbatches
  unfold nextLongBatch
  rcases hr : fillRows env (room s.batchSize s.remainingLimit) [] s with ⟨res, s'⟩
  rw [hr] at hfilled
  rcases Nat.lt_or_ge (s.pending env).length (room s.batchSize s.remainingLimit) with hlt | hge
  · rcases hfilled.short hlt with ⟨hpending, hending, hres⟩
    rw [dif_neg (by omega)] at hbatches
    have hnil := batches_nil hpending hending
    cases hend : s.ending with
    | some e =>
        rw [hend] at hres hbatches
        cases hres
        exact
          { same := hfilled.same
            handed := by rw [hbatches]; rfl
            left := by rw [hbatches]; exact hnil }
    | none =>
        rw [hend] at hres hbatches
        rw [List.nil_append] at hres
        cases hrows : s.pending env with
        | nil =>
            rw [hrows] at hres hbatches
            cases hres
            have hsame : Same s { s' with finished := true } :=
              ⟨hfilled.same.projection, hfilled.same.schema, hfilled.same.batchSize⟩
            have hrest : s'.longCursor.rest = [] := (List.append_eq_nil_iff.mp hpending).1
            refine { same := hsame, handed := by rw [hbatches]; rfl, left := ?_ }
            rw [hbatches]
            refine batches_nil ?_ (if_pos rfl)
            simp [pending, hrest]
        | cons row rows =>
            rw [hrows] at hres hbatches
            cases hres
            have hsame := hfilled.same.limited (s'.remainingLimit.map fun rem => rem - (row :: rows).length)
            refine { same := hsame, handed := ?_, left := ?_ }
            · rw [hbatches, ← hfilled.same.schema, ← hfilled.same.projection]
              rfl
            · rw [hbatches]
              exact batches_nil hpending hending
  · rcases hfilled.full hge with ⟨hres, hpending, hending⟩
    rw [dif_pos hge] at hbatches
    have hlen : ((s.pending env).take (room s.batchSize s.remainingLimit)).length =
        room s.batchSize s.remainingLimit := List.length_take_of_le hge
    rw [List.nil_append] at hres hpending
    cases hrows : (s.pending env).take (room s.batchSize s.remainingLimit) with
    | nil =>
        rw [hrows, List.length_nil] at hlen
        omega
    | cons row rows =>
        rw [hrows] at hres hbatches hlen
        cases hres
        have hsame := hfilled.same.limited (s'.remainingLimit.map fun rem => rem - (row :: rows).length)
        refine { same := hsame, handed := ?_, left := ?_ }
        · rw [hbatches, ← hfilled.same.schema, ← hfilled.same.projection]
          rfl
        · rw [hbatches, ← hlen]
          show cut s'.batchSize s'.batch_pos (s'.remainingLimit.map fun rem => rem - (row :: rows).length)
            (s'.pending env) s'.ending = _
          rw [hpending, hending, hfilled.same.cut_eq, hfilled.limit, hlen]
          rfl

theorem next_next (s : CategoricalBatchReader F E) : Next env s (s.next env) := by
  rw [next_eq]
  split
  next hlimit =>
    have hnil : s.batches env = [] := by rw [batches, cut.eq_def, dif_pos hlimit]
    refine { same := ⟨rfl, rfl, rfl⟩, handed := by rw [hnil]; rfl, left := ?_ }
    rw [hnil, batches, cut.eq_def, dif_pos hlimit]
    rfl
  next hlimit => exact nextLongBatch_next hlimit

/-- The calls of `next` hand out one piece after the other, and then nothing. -/
theorem outputs_eq (n : Nat) (s : CategoricalBatchReader F E) :
    s.outputs env n =
      ((s.batches env).map (fun piece : Except E _ => some (piece.map (longBatch env s.schema s.projection))) ++
        List.replicate n none).take n := by
  induction n generalizing s with
  | zero => rfl
  | succ n ih =>
      have hnext : Next env s (s.next env) := next_next s
      rw [outputs, ih, hnext.handed, hnext.left, hnext.same.schema, hnext.same.projection]
      cases s.batches env with
      | nil => simp [List.replicate_succ]
      | cons piece pieces =>
          simp only [List.map_cons, List.head?_cons, Option.map_some, List.tail_cons,
            List.cons_append, List.take_succ_cons]
          have hmore : ∀ l : List (Option (Except E RecordBatch)),
              (l ++ List.replicate n none ++ [none]).take n = (l ++ List.replicate n none).take n :=
            fun l => List.take_append_of_le_length (by simp)
          rw [List.replicate_succ', ← List.append_assoc, hmore]

/-! ## The pieces -/

section Pieces

variable {R : Type} {batchSize : Nat} {hbatch : 0 < batchSize} {limit : Option Nat} {rows : List R}
  {ending : Option E}

def limited (limit : Option Nat) (rows : List R) : List R :=
  match limit with
  | some l => rows.take l
  | none => rows

/-- The limit is met by these rows. -/
def Met (limit : Option Nat) (rows : List R) : Prop := ∃ l, limit = some l ∧ l ≤ rows.length

theorem room_eq_or (batchSize : Nat) (limit : Option Nat) :
    room batchSize limit = batchSize ∨
      limit.map (· - room batchSize limit) = some 0 := by
  cases limit with
  | none => exact .inl rfl
  | some l =>
      simp only [room, Option.map_some, Option.some.injEq]
      omega

theorem room_le (batchSize : Nat) {l : Nat} : room batchSize (some l) ≤ l := Nat.min_le_right _ _

theorem limited_room (hfull : room batchSize limit ≤ rows.length) :
    rows.take (room batchSize limit) ++
        limited (limit.map (· - room batchSize limit)) (rows.drop (room batchSize limit)) =
      limited limit rows := by
  cases limit with
  | none => exact List.take_append_drop _ _
  | some l =>
      have hle : room batchSize (some l) ≤ l := room_le batchSize
      simp only [limited, Option.map_some]
      conv_rhs => rw [← Nat.add_sub_cancel' hle, List.take_add]

theorem cut_zero : cut batchSize hbatch (some 0) rows ending = [] := by
  rw [cut.eq_def, dif_pos rfl]

theorem cut_full (hlimit : limit ≠ some 0) (hfull : room batchSize limit ≤ rows.length) :
    cut batchSize hbatch limit rows ending =
      .ok (rows.take (room batchSize limit)) ::
        cut batchSize hbatch (limit.map (· - room batchSize limit))
          (rows.drop (room batchSize limit)) ending := by
  rw [cut.eq_def, dif_neg hlimit, dif_pos hfull]

theorem cut_short (hlimit : limit ≠ some 0) (hshort : ¬ room batchSize limit ≤ rows.length) :
    cut batchSize hbatch limit rows ending =
      match ending with
      | some e => [.error e]
      | none => if rows = [] then [] else [.ok rows] := by
  rw [cut.eq_def, dif_neg hlimit, dif_neg hshort]

/-- A limit that these rows do not meet is not what makes them too few. -/
theorem limited_short (hshort : ¬ room batchSize limit ≤ rows.length)
    (h : ¬ Met limit rows) : rows.length < batchSize := by
  cases limit with
  | none => exact Nat.lt_of_not_le hshort
  | some l =>
      simp only [room] at hshort
      have : ¬ l ≤ rows.length := fun hl => h ⟨l, rfl, hl⟩
      omega

theorem not_met_of_short (hshort : ¬ room batchSize limit ≤ rows.length) : ¬ Met limit rows := by
  intro h
  rcases h with ⟨l, rfl, hl⟩
  have := room_le batchSize (l := l)
  omega

theorem limited_eq (h : ¬ Met limit rows) : limited limit rows = rows := by
  cases limit with
  | none => rfl
  | some l => exact List.take_of_length_le (Nat.le_of_not_le fun hl => h ⟨l, rfl, hl⟩)

theorem met_drop (hfull : room batchSize limit ≤ rows.length) :
    Met (limit.map (· - room batchSize limit)) (rows.drop (room batchSize limit)) ↔
      Met limit rows := by
  cases limit with
  | none => simp [Met]
  | some l =>
      have := room_le batchSize (l := l)
      simp only [Met, Option.map_some, Option.some.injEq, exists_eq_left', List.length_drop]
      omega

variable (hbatch) in
/-- Without a failure within the limit: all rows up to the limit, in full batches but for
the last. -/
theorem cut_met (h : ending = none ∨ Met limit rows) :
    ∃ chunks : List (List R),
      cut batchSize hbatch limit rows ending = chunks.map Except.ok ∧
        chunks.flatten = limited limit rows ∧ (∀ chunk ∈ chunks, chunk ≠ []) ∧
          ∀ chunk ∈ chunks.dropLast, chunk.length = batchSize := by
  induction limit, rows using cut.induct batchSize hbatch ending with
  | case1 rows => exact ⟨[], cut_zero, rfl, by simp, by simp⟩
  | case2 limit rows hlimit hfull ih =>
      have hpos := room_pos hbatch hlimit
      rcases ih (h.imp_right (met_drop hfull).mpr) with ⟨chunks, hcut, hflat, hne, hlen⟩
      have hhead : (rows.take (room batchSize limit)).length = room batchSize limit :=
        List.length_take_of_le hfull
      refine ⟨rows.take (room batchSize limit) :: chunks, ?_, ?_, ?_, ?_⟩
      · rw [cut_full hlimit hfull, hcut]
        rfl
      · rw [List.flatten_cons, hflat, limited_room hfull]
      · intro chunk hmem
        rcases List.mem_cons.mp hmem with rfl | hmem
        · exact List.ne_nil_of_length_pos (by omega)
        · exact hne chunk hmem
      · intro chunk hmem
        rcases room_eq_or batchSize limit with heq | hzero
        · cases chunks with
          | nil => cases hmem
          | cons chunk' chunks =>
              rcases List.mem_cons.mp hmem with rfl | hmem
              · rw [hhead, heq]
              · exact hlen chunk hmem
        · -- a batch that the limit has cut short is the last
          rw [hzero, cut_zero] at hcut
          cases chunks with
          | nil => cases hmem
          | cons chunk' chunks => cases hcut
  | case3 limit rows hlimit hshort e hending =>
      exfalso
      rcases h with h | h
      · rw [h] at hending
        cases hending
      · exact not_met_of_short hshort h
  | case4 limit hlimit hending hshort =>
      refine ⟨[], ?_, ?_, by simp, by simp⟩
      · rw [cut_short hlimit hshort, hending]
        rfl
      · rw [limited_eq (not_met_of_short hshort)]
        rfl
  | case5 limit rows hlimit hshort hending hne =>
      refine ⟨[rows], ?_, ?_, ?_, by simp⟩
      · rw [cut_short hlimit hshort, hending]
        simp [hne]
      · rw [limited_eq (not_met_of_short hshort), List.flatten_singleton]
      · intro chunk hmem
        rw [List.mem_singleton.mp hmem]
        exact hne

variable (hbatch) in
/-- With a failure within the limit: the full batches before it, and the error. -/
theorem cut_failed {e : E} (hending : ending = some e) (hmet : ¬ Met limit rows) :
    ∃ chunks : List (List R),
      cut batchSize hbatch limit rows ending = chunks.map Except.ok ++ [.error e] ∧
        chunks.flatten = rows.take (rows.length / batchSize * batchSize) ∧
          ∀ chunk ∈ chunks, chunk.length = batchSize := by
  induction limit, rows using cut.induct batchSize hbatch ending with
  | case1 rows => exact absurd ⟨0, rfl, Nat.zero_le _⟩ hmet
  | case2 limit rows hlimit hfull ih =>
      rcases ih (mt (met_drop hfull).mp hmet) with ⟨chunks, hcut, hflat, hlen⟩
      have hroom : room batchSize limit = batchSize := by
        cases limit with
        | none => rfl
        | some l =>
            have : ¬ l ≤ rows.length := fun hl => hmet ⟨l, rfl, hl⟩
            simp only [room] at hfull ⊢
            omega
      rw [hroom] at hcut hflat hfull
      refine ⟨rows.take batchSize :: chunks, ?_, ?_, ?_⟩
      · rw [cut_full hlimit (by omega), hroom, hcut]
        rfl
      · -- one batch more, and what was left is cut the same way
        have hdiv : rows.length / batchSize * batchSize =
            batchSize + (rows.length - batchSize) / batchSize * batchSize := by
          rw [Nat.div_eq_sub_div hbatch hfull, Nat.succ_mul ((rows.length - batchSize) / batchSize),
            Nat.add_comm]
        rw [List.flatten_cons, hflat, List.length_drop, hdiv, List.take_add]
      · intro chunk hmem
        rcases List.mem_cons.mp hmem with rfl | hmem
        · exact List.length_take_of_le hfull
        · exact hlen chunk hmem
  | case3 limit rows hlimit hshort e' hending' =>
      cases hending.symm.trans hending'
      have hlt := limited_short hshort hmet
      refine ⟨[], ?_, ?_, by simp⟩
      · rw [cut_short hlimit hshort, hending]
        rfl
      · rw [Nat.div_eq_of_lt hlt, Nat.zero_mul, List.take_zero]
        rfl
  | case4 limit hlimit hnone hshort =>
      rw [hnone] at hending
      cases hending
  | case5 limit rows hlimit hshort hnone hne =>
      rw [hnone] at hending
      cases hending

end Pieces

/-! ## From the stream to the batches -/

theorem fromStreamer_fresh {streamer : RecordStream F E} {projection : Option (List Nat)}
    {batchSize : Nat} {limit : Option Nat} {reader : CategoricalBatchReader F E}
    (h : fromStreamer streamer projection batchSize limit = .ok reader) :
    reader.batchSize = max batchSize 1 ∧ reader.remainingLimit = limit ∧
      reader.ending = streamer.failure ∧
        reader.pending env =
          streamer.records.flatMap (longRows env reader.longCursor.withEntropy) := by
  unfold fromStreamer at h
  split at h
  next =>
    cases h
    exact ⟨rfl, rfl, rfl, rfl⟩
  next =>
    split at h
    next =>
      cases h
      exact ⟨rfl, rfl, rfl, rfl⟩
    next => cases h
    next => cases h

/-- The calls of `next` return these rows as batches, then these errors, and then nothing. -/
def HandsOut (env : Rendering F) (reader : CategoricalBatchReader F E)
    (chunks : List (List (CategoricalLongRow F))) (errors : List E) : Prop :=
  ∀ n, reader.outputs env n =
    (chunks.map (fun rows => some (Except.ok (longBatch env reader.schema reader.projection rows))) ++
      errors.map (fun e => some (Except.error e)) ++ List.replicate n none).take n

/-- The rows of all records, one record after the other, cut into batches. The error of the
stream comes out if the limit does not end the reader first. -/
def FlatMaps (env : Rendering F) (streamer : RecordStream F E) (batchSize : Nat)
    (limit : Option Nat) (reader : CategoricalBatchReader F E) : Prop :=
  ∃ (expand : MultiCategoricalRecord F → List (CategoricalLongRow F))
    (chunks : List (List (CategoricalLongRow F))) (errors : List E),
    (∀ rec, if 0 < rec.accumulator.totalCount then ClassRows rec (expand rec)
      else expand rec = []) ∧
    HandsOut env reader chunks errors ∧
    (∀ chunk ∈ chunks, chunk ≠ []) ∧
    (∀ chunk ∈ chunks.dropLast, chunk.length = batchSize) ∧
    (streamer.failure = none ∨ Met limit (streamer.records.flatMap expand) →
      chunks.flatten = limited limit (streamer.records.flatMap expand) ∧ errors = []) ∧
    ∀ e, streamer.failure = some e → ¬ Met limit (streamer.records.flatMap expand) →
      errors = [e] ∧
        chunks.flatten = (streamer.records.flatMap expand).take
          ((streamer.records.flatMap expand).length / batchSize * batchSize)

theorem handsOut_of_batches {reader : CategoricalBatchReader F E}
    {chunks : List (List (CategoricalLongRow F))} {errors : List E}
    (h : reader.batches env = chunks.map Except.ok ++ errors.map Except.error) :
    HandsOut env reader chunks errors := by
  intro n
  rw [outputs_eq, h, List.map_append, List.map_map, List.map_map]
  rfl

theorem long_batches_flat_map (hvisit : ∀ acc : CategoricalAccumulator F, acc.Visits (env.visit acc))
    {streamer : RecordStream F E} {projection : Option (List Nat)} {batchSize : Nat}
    {limit : Option Nat} {reader : CategoricalBatchReader F E} (hbatch : 1 ≤ batchSize)
    (hopen : fromStreamer streamer projection batchSize limit = .ok reader) :
    FlatMaps env streamer batchSize limit reader := by
  rcases @fromStreamer_fresh _ _ _ _ env _ _ _ _ _ hopen with ⟨hsize, hlimit, hending, hpending⟩
  rw [Nat.max_eq_left hbatch] at hsize
  have hexpand : ∀ rec : MultiCategoricalRecord F,
      if 0 < rec.accumulator.totalCount then
        ClassRows rec (longRows env reader.longCursor.withEntropy rec)
      else longRows env reader.longCursor.withEntropy rec = [] := by
    intro rec
    split
    next hpos => exact longRows_classRows _ (hvisit rec.accumulator) hpos
    next hpos => exact if_neg hpos
  have hbatches : reader.batches env = cut batchSize hbatch limit
      (streamer.records.flatMap (longRows env reader.longCursor.withEntropy)) streamer.failure := by
    simp only [batches, hsize, hlimit, hending, hpending]
  by_cases hmet : streamer.failure = none ∨
      Met limit (streamer.records.flatMap (longRows env reader.longCursor.withEntropy))
  · rcases cut_met hbatch hmet with ⟨chunks, hcut, hflat, hne, hlen⟩
    refine ⟨_, chunks, [], hexpand, handsOut_of_batches ?_, hne, hlen, fun _ => ⟨hflat, rfl⟩, ?_⟩
    · rw [hbatches, hcut, List.map_nil, List.append_nil]
    · intro e he hnot
      rw [he] at hmet
      exact absurd (hmet.resolve_left (by simp)) hnot
  · rcases not_or.mp hmet with ⟨hfails, hnot⟩
    obtain ⟨e, he⟩ := Option.ne_none_iff_exists'.mp hfails
    rcases cut_failed hbatch he hnot with ⟨chunks, hcut, hflat, hlen⟩
    refine ⟨_, chunks, [e], hexpand, handsOut_of_batches ?_, ?_, ?_, fun h => absurd h hmet, ?_⟩
    · rw [hbatches, hcut]
      rfl
    · intro chunk hmem
      exact List.ne_nil_of_length_pos (by rw [hlen chunk hmem]; exact hbatch)
    · intro chunk hmem
      exact hlen chunk (List.mem_of_mem_dropLast hmem)
    · intro e' he' _
      cases he.symm.trans he'
      exact ⟨rfl, hflat⟩

/-! ## A stream that fails -/

def plain : Rendering ℚ where
  visit := fun acc => acc.classes
  ln := id
  bits := fun _ => 0
  nanBits := 0
  wkb := fun _ => none

/-- Two classes, a cell without pixels and three classes, and then an error. -/
def several : RecordStream ℚ String where
  records :=
    [⟨5, 1, CategoricalAccumulator.new.updateAll [(9, 1), (7, 2)]⟩,
      ⟨6, 1, CategoricalAccumulator.new⟩,
      ⟨8, 1, CategoricalAccumulator.new.updateAll [(3, 1), (1, 3), (2, 1)]⟩]
  failure := some "read error"

def severalReader : CategoricalBatchReader ℚ String where
  streamer := several
  projection := none
  schema := categoricalLong
  batchSize := 2
  remainingLimit := some 3
  longCursor := CategoricalLongCursor.new true
  finished := false
  batch_pos := Nat.zero_lt_two

/-- The limit cuts the second batch off in the last cell, and the error is not noticed. -/
theorem long_batches_several : ∃ chunks, HandsOut plain severalReader chunks [] ∧
    chunks.flatten.length = 3 ∧ ∀ chunk ∈ chunks.dropLast, chunk.length = 2 := by
  rcases @long_batches_flat_map ℚ String _ _ plain CategoricalAccumulator.visits_classes several
    none 2 (some 3) severalReader (by decide) rfl with
    ⟨expand, chunks, errors, hexpand, hout, -, hfull, hmet, -⟩
  have hlen : ∀ rec : MultiCategoricalRecord ℚ, (expand rec).length =
      if 0 < rec.accumulator.totalCount then rec.accumulator.uniqueClasses else 0 := by
    intro rec
    have hrows := hexpand rec
    split
    next hpos =>
      rw [if_pos hpos] at hrows
      rw [← List.length_map, hrows.classes.length_eq, CategoricalAccumulator.uniqueClasses]
    next hpos =>
      rw [if_neg hpos] at hrows
      rw [hrows, List.length_nil]
  have hrows : (several.records.flatMap expand).length = 5 := by
    simp only [several, List.flatMap_cons, List.flatMap_nil, List.append_nil, List.length_append,
      hlen]
    decide +kernel
  have hlimit : Met (some 3) (several.records.flatMap expand) := ⟨3, rfl, by omega⟩
  rcases hmet (.inr hlimit) with ⟨hflat, rfl⟩
  refine ⟨chunks, hout, ?_, hfull⟩
  rw [hflat, limited, List.length_take]
  omega

/-- One cell with one class, and then an error. -/
def failing : RecordStream ℚ String where
  records := [⟨5, 1, CategoricalAccumulator.new.updateWeighted 7 1⟩]
  failure := some "read error"

def failingReader : CategoricalBatchReader ℚ String where
  streamer := failing
  projection := none
  schema := categoricalLong
  batchSize := 2
  remainingLimit := none
  longCursor := CategoricalLongCursor.new true
  finished := false
  batch_pos := Nat.zero_lt_two

/-- The row that was already read is lost with the batch that it was for. -/
theorem rows_before_error_are_lost :
    ¬ ∀ (streamer : RecordStream ℚ String) (batchSize : Nat) (limit : Option Nat)
      (reader : CategoricalBatchReader ℚ String), 1 ≤ batchSize →
        fromStreamer streamer none batchSize limit = .ok reader →
          ∃ chunks errors, HandsOut plain reader chunks errors ∧
            chunks.flatten = limited limit (streamer.records.flatMap (longRows plain true)) ∧
              ∀ e, streamer.failure = some e → errors = [e] := by
  intro hall
  rcases hall failing 2 none failingReader (by decide) rfl with ⟨chunks, errors, hout, hflat, -⟩
  have hrows : (failing.records.flatMap (longRows plain true)).length = 1 := by decide +kernel
  have hmet : ¬ Met none (failing.records.flatMap (longRows plain true)) := by simp [Met]
  have hending : failing.failure = some "read error" := rfl
  rcases cut_failed failingReader.batch_pos hending hmet with ⟨full, hcut, hfull, hlen⟩
  have hsize : failingReader.batchSize = 2 := rfl
  rw [hsize] at hfull hlen
  -- the one row does not fill a batch, so the error is the first that comes out
  have hnil : full = [] := by
    cases full with
    | nil => rfl
    | cons chunk full =>
        have hlong := congrArg List.length hfull
        rw [hrows, List.flatten_cons, List.length_append, hlen chunk List.mem_cons_self,
          List.length_take] at hlong
        omega
  have hbatches : failingReader.batches plain = [.error "read error"] := by
    rw [hnil] at hcut
    exact hcut
  have hfirst := hout 1
  rw [outputs_eq, hbatches] at hfirst
  cases chunks with
  | nil =>
      have hlost := congrArg List.length hflat
      rw [limited, hrows] at hlost
      cases hlost
  | cons chunk chunks => cases hfirst

end CategoricalBatchReader

end RasterH3.LongFormat
