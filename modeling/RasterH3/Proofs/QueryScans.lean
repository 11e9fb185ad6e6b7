import RasterH3.DuckDb.TableScan
import RasterH3.Proofs.Draws
import RasterH3.Proofs.RecordQueueRuns

/-!
# A query gets the batch result, whatever its threads do

Two results meet here. The record queue hands out what the streamer has drained, once and in
order, for any streamer. A streamer delivers the batch result, whatever it is asked for, to
a consumer who is alone. Here the streamer behind the queue is the real one, and there are
many consumers.

The threads call the streamer one at a time under its lock. In every interleaving their
calls stand in an order, and what all of them have emitted is what one consumer would have
drawn who had made these calls (`Fed`). Only a refill calls the streamer, and only a refill
without rows ends the queue, which a thread is told when nothing is left; so the invariant
has to follow two kinds of steps and is kept by all others (`Fed.move`).

So what the queue says of calls and what the stream says of pages can be put together: the
rows that any interleaving of scan threads has given out are the first rows of the batch
result, and a query that has been told the end has them all (`query_scan_equals_batch`).

The rows of a table function carry the encoded state of a cell that is shared with another
partition beside the records, and the statement has both. A batch size of which four are `2
^ 64` rows would make a refill ask for none, and is excluded.
-/

namespace RasterH3.DuckDb

open Agg RecordQueue

/-! ## Rows -/

namespace ScanRow

variable {A : Type}

/-- The rows without a state. -/
def records (rows : List (ScanRow A)) : List (Record A) :=
  (rows.filter fun row => row.partialState.isNone).map record

/-- The rows with a state. -/
def partials (rows : List (ScanRow A)) : List (PartialCell A) :=
  (rows.filter fun row => row.partialState.isSome).map record

theorem records_append (rows rows' : List (ScanRow A)) :
    records (rows ++ rows') = records rows ++ records rows' := by
  rw [records, List.filter_append, List.map_append, records, records]

theorem partials_append (rows rows' : List (ScanRow A)) :
    partials (rows ++ rows') = partials rows ++ partials rows' := by
  rw [partials, List.filter_append, List.map_append, partials, partials]

theorem records_prefix {rows rows' : List (ScanRow A)} (h : rows <+: rows') :
    records rows <+: records rows' := by
  obtain ⟨rest, rfl⟩ := h
  rw [records_append]
  exact List.prefix_append _ _

theorem partials_prefix {rows rows' : List (ScanRow A)} (h : rows <+: rows') :
    partials rows <+: partials rows' := by
  obtain ⟨rest, rfl⟩ := h
  rw [partials_append]
  exact List.prefix_append _ _

variable [PartialState A]

/-- A row with a state has the state of its own accumulator. -/
def Encoded (row : ScanRow A) : Prop :=
  ∀ state, row.partialState = some state → state = encodePartialState row.record.accumulator

theorem records_ofPage (page : List (Record A) × List (PartialCell A)) :
    records (ofPage page) = page.1 := by
  have hmine : records (page.1.map ofRecord) = page.1 := by
    rw [records, List.filter_eq_self.mpr, List.map_map]
    · exact List.map_id _
    · intro row hrow
      obtain ⟨r, -, rfl⟩ := List.mem_map.mp hrow
      rfl
  have hnone : records (page.2.map ofPartial) = [] := by
    rw [records, List.filter_eq_nil_iff.mpr, List.map_nil]
    intro row hrow
    obtain ⟨cell, -, rfl⟩ := List.mem_map.mp hrow
    exact Bool.false_ne_true
  rw [ofPage, records_append, hmine, hnone, List.append_nil]

theorem partials_ofPage (page : List (Record A) × List (PartialCell A)) :
    partials (ofPage page) = page.2 := by
  have hnone : partials (page.1.map ofRecord) = [] := by
    rw [partials, List.filter_eq_nil_iff.mpr, List.map_nil]
    intro row hrow
    obtain ⟨r, -, rfl⟩ := List.mem_map.mp hrow
    exact Bool.false_ne_true
  have hmine : partials (page.2.map ofPartial) = page.2 := by
    rw [partials, List.filter_eq_self.mpr, List.map_map]
    · exact List.map_id _
    · intro row hrow
      obtain ⟨cell, -, rfl⟩ := List.mem_map.mp hrow
      rfl
  rw [ofPage, partials_append, hnone, hmine, List.nil_append]

theorem encoded_ofPage {page : List (Record A) × List (PartialCell A)} {row : ScanRow A}
    (hrow : row ∈ ofPage page) : row.Encoded := by
  intro state hstate
  rcases List.mem_append.mp hrow with hrow | hrow
  · obtain ⟨r, -, rfl⟩ := List.mem_map.mp hrow
    cases hstate
  · obtain ⟨cell, -, rfl⟩ := List.mem_map.mp hrow
    exact (Option.some.inj hstate).symm

end ScanRow

/-! ## One call of the streamer -/

variable {A L C : Type} {n : Nat} [PartialState A] [LinearOrder L] [BoundedOrder L]
  {cfg : Setup A L C n} {partitioned : Bool} {s s' : MultiHorizonStreamer A L C n} {maxRows : Nat}
  {rows : List (ScanRow A)} {result : Except StreamError Nat}

theorem DrainRows.bounded (h : DrainRows cfg partitioned s maxRows rows result s') :
    rows.length ≤ maxRows := by
  obtain ⟨hdrains⟩ := h
  rw [ScanRow.ofPage, List.length_append, List.length_map, List.length_map]
  exact hdrains.bounded

theorem DrainRows.drains (h : DrainRows cfg partitioned s maxRows rows result s') :
    Drains cfg (readOf partitioned) s maxRows (ScanRow.records rows, ScanRow.partials rows) result
      s' := by
  obtain ⟨hdrains⟩ := h
  rw [ScanRow.records_ofPage, ScanRow.partials_ofPage]
  exact hdrains

theorem DrainRows.encoded (h : DrainRows cfg partitioned s maxRows rows result s') {row : ScanRow A}
    (hrow : row ∈ rows) : row.Encoded := by
  obtain ⟨hdrains⟩ := h
  exact ScanRow.encoded_ofPage hrow

theorem DrainRows.nil_of_error (h : DrainRows cfg partitioned s maxRows rows result s')
    {e : StreamError} (he : result = .error e) : rows = [] := by
  obtain ⟨hdrains⟩ := h
  rw [hdrains.nil_of_error he]
  rfl

/-- The streamer behind the queue of a table function. -/
def scanDrain (cfg : Setup A L C n) (partitioned : Bool) :
    Drain (MultiHorizonStreamer A L C n) (ScanRow A) StreamError where
  drainInto := DrainRows cfg partitioned
  failed := Refuses (readOf partitioned)
  bounded h := h.bounded
  latch h := h.drains.latch rfl
  latched hrefuses h := h.drains.latched hrefuses

/-! ## The calls of the threads -/

section Queue

variable {T : Type} [DecidableEq T] {batchSize : Nat} {session : Session A L C n}
  {q q' : RecordQueue T (MultiHorizonStreamer A L C n) (ScanRow A) StreamError}

/-- What the streamer has emitted into the queue. -/
def calledRows (q : RecordQueue T (MultiHorizonStreamer A L C n) (ScanRow A) StreamError) :
    List (ScanRow A) :=
  (q.calls.map Prod.fst).flatten

/-- All calls together are those of one consumer. -/
structure Fed (cfg : Setup A L C n) (session : Session A L C n)
    (q : RecordQueue T (MultiHorizonStreamer A L C n) (ScanRow A) StreamError) : Prop where
  drawn : Drawn cfg session q.streamer (ScanRow.records (calledRows q))
    (ScanRow.partials (calledRows q))
  encoded : ∀ row ∈ calledRows q, row.Encoded
  failed : ∀ call ∈ q.calls, ∀ e, call.2 = .error e → call.1 = []
  ended : q.isFinished = true → q.streamer.isFinished = true

omit [DecidableEq T] in
theorem Fed.call (h : Fed cfg session q)
    (hdrain : DrainRows cfg partitioned q.streamer maxRows rows result s)
    (hcalls : q'.calls = q.calls ++ [(rows, result)]) (hstreamer : q'.streamer = s)
    (hended : q'.isFinished = true → s.isFinished = true) : Fed cfg session q' := by
  have hrows : calledRows q' = calledRows q ++ rows := by
    rw [calledRows, hcalls, List.map_append, List.flatten_append, List.map_singleton,
      List.flatten_singleton, calledRows]
  refine ⟨?_, fun row hrow => ?_, fun call hcall e he => ?_, ?_⟩
  · rw [hrows, hstreamer, ScanRow.records_append, ScanRow.partials_append]
    exact h.drawn.call hdrain.drains
  · rw [hrows] at hrow
    exact (List.mem_append.mp hrow).elim (h.encoded row) hdrain.encoded
  · rw [hcalls] at hcall
    rcases List.mem_append.mp hcall with hcall | hcall
    · exact h.failed call hcall e he
    · obtain rfl := List.mem_singleton.mp hcall
      exact hdrain.nil_of_error he
  · rw [hstreamer]
    exact hended

omit [DecidableEq T] in
theorem Fed.move (h : Fed cfg session q) (hcalls : q'.calls = q.calls)
    (hstreamer : q'.streamer = q.streamer) (hfinished : q'.isFinished = q.isFinished) :
    Fed cfg session q' := by
  have hrows : calledRows q' = calledRows q := by rw [calledRows, hcalls, calledRows]
  exact ⟨hrows ▸ hstreamer ▸ h.drawn, hrows ▸ h.encoded, hcalls ▸ h.failed,
    hfinished ▸ hstreamer ▸ h.ended⟩

omit [PartialState A] [BoundedOrder L] in
/-- A refill ends the queue only when it got nothing. -/
theorem isFinished_refilled {t : T} (hready : q.readyBatches = []) (hopen : q.isFinished = false)
    (hpos : 0 < batchSize) (hle : rows.length ≤ batchSize * 4)
    (hfinished : (q.refilled batchSize t rows).isFinished = true) : rows = [] := by
  rw [refilled, hready] at hfinished
  have hcut := Refill.batched hpos hle
  generalize (rows.foldl (Refill.emit batchSize) ⟨[], none, []⟩).finish = r at hcut hfinished
  obtain ⟨chunk, mine, ready⟩ := r
  cases mine with
  | some batch =>
      rw [show q.isFinished = true from hfinished] at hopen
      cases hopen
  | none =>
      obtain rfl : ready = [] := hcut.first rfl
      exact hcut.rows.symm

/-- Only a refill calls the streamer, and only a refill without rows ends the queue. -/
theorem Fed.step (h : Fed cfg session q) (hinv : Inv (scanDrain cfg partitioned) batchSize q)
    (hpos : 0 < batchSize) (hsize : 0 < refillSize batchSize)
    (hstep : Step (scanDrain cfg partitioned) batchSize q q') : Fed cfg session q' := by
  cases hstep with
  | call | lockQueue | fastPop | fastFinished | unlockQueue | lockStreamer | relockQueue |
    slowPop | slowFinished | startRefill => exact h.move rfl rfl rfl
  | refill hpc hdrain =>
      obtain ⟨hready, hopen⟩ := hinv.locked.refilling _ hpc
      have hle := (DrainRows.bounded hdrain).trans (Nat.mod_le _ _)
      refine h.call hdrain rfl rfl fun hfinished => ?_
      obtain rfl := isFinished_refilled hready hopen hpos hle hfinished
      exact (DrainRows.drains hdrain).finished hsize rfl rfl rfl
  | refillFailed hpc hdrain =>
      have hopen := (hinv.locked.refilling _ hpc).2
      refine h.call hdrain rfl rfl fun hfinished => ?_
      rw [show q.isFinished = true from hfinished] at hopen
      cases hopen

theorem Fed.of_reachable (session : Session A L C n) (hrecords : session.records = [])
    (hpartials : session.partials = []) (hsize : 0 < refillSize (max batchSize 1))
    (h : Reachable (scanDrain cfg partitioned) batchSize session.stream q) :
    Fed cfg session q := by
  induction h with
  | refl =>
      exact ⟨⟨[], rfl, hrecords, hpartials⟩, fun row hrow => absurd hrow List.not_mem_nil,
        fun call hcall => absurd hcall List.not_mem_nil, fun hfinished => by cases hfinished⟩
  | tail hbefore hstep ih =>
      exact ih.step (Reachable.inv hbefore) (lt_max_of_lt_right Nat.one_pos) hsize hstep

end Queue

/-! ## The query -/

section Query

variable {T X : Type} [DecidableEq T] [LawfulSpill A] {R : Multiset X → A → Prop}
  {own : CellIndex → Bool} {items : List (Item A X n)} {batchSize : Nat}
  {q : RecordQueue T (MultiHorizonStreamer A L C n) (ScanRow A) StreamError}

/-- What the threads have been given, beside the batch result of the scan. -/
structure Answers (R : Multiset X → A → Prop) (cfg : Setup A L C n) (own : CellIndex → Bool)
    (total : Fin n → Contents X)
    (q : RecordQueue T (MultiHorizonStreamer A L C n) (ScanRow A) StreamError)
    (cells : List (Emitted A n)) : Prop where
  aggregation : Aggregation R total cells
  records : ScanRow.records q.batches.flatten <+: finalsOf cfg own cells
  partials : ScanRow.partials q.batches.flatten <+: sharesOf cfg own cells
  encoded : ∀ row ∈ q.batches.flatten, row.Encoded
  finished : ∀ t, (t, .finished) ∈ q.outcomes →
    ScanRow.records q.batches.flatten = finalsOf cfg own cells ∧
      ScanRow.partials q.batches.flatten = sharesOf cfg own cells ∧ Complete total cells

/-- Whatever the threads, their interleaving and the size of the batches. Of the size it is asked
that four batches are not `2 ^ 64` rows, or a refill would ask for none. -/
theorem query_scan_equals_batch (hR : Represents R) (hscan : Scan R cfg items)
    {classifier : Option C} (howns : Owns cfg own classifier.isSome)
    (compactionBudgetBytes : Option Nat) (structureBytes : Fin n → Nat → Nat)
    (indexBytes : Nat → Nat) (hsize : 0 < refillSize (max batchSize 1))
    (hq : Reachable (scanDrain cfg partitioned) batchSize (.new cfg false compactionBudgetBytes
      structureBytes indexBytes classifier (items.map Item.chunk)) q) :
    ∃ cells, Answers R cfg own (received items items.length) q cells := by
  have hfed : Fed cfg (Session.fresh cfg items classifier compactionBudgetBytes structureBytes
      indexBytes) q := .of_reachable _ rfl rfl hsize hq
  obtain ⟨cells, hbatch⟩ := hfed.drawn.batch hR hscan howns
  have hcontents := hq.inv.contents
  obtain ⟨good, bad, hd⟩ := hcontents.drained
  -- calls that failed have no rows
  have hrows : q.batches.flatten ++ q.readyBatches.flatten = calledRows q := by
    have hbad : (bad.map Prod.fst).flatten = [] := by
      refine List.flatten_eq_nil_iff.mpr fun rows hmem => ?_
      obtain ⟨call, hcall, rfl⟩ := List.mem_map.mp hmem
      obtain ⟨e, he⟩ := hd.errors call hcall
      exact hfed.failed call (hd.calls ▸ List.mem_append_right good hcall) e he
    rw [hd.rows, calledRows, hd.calls, List.map_append, List.flatten_append, hbad,
      List.append_nil]
  have hgiven : q.batches.flatten <+: calledRows q := ⟨_, hrows⟩
  refine ⟨cells, hbatch.aggregation, (ScanRow.records_prefix hgiven).trans hbatch.finals,
    (ScanRow.partials_prefix hgiven).trans hbatch.shares,
    fun row hrow => hfed.encoded row (List.IsPrefix.subset hgiven hrow), fun t ht => ?_⟩
  have hended : q.isFinished = true := hcontents.ended _ ht rfl
  have hall : q.batches.flatten = calledRows q := by
    rw [← hrows, hcontents.empty hended, List.flatten_nil, List.append_nil]
  rw [hall]
  exact hbatch.finished (hfed.ended hended)

/-- A thread alone asks twice: the second refill finds nothing and ends the query. -/
theorem query_scan_equals_batch_two_chunks :
    ∃ q : RecordQueue Bool (MultiHorizonStreamer (CategoricalAccumulator Nat) (Fin 181) Unit 1)
        (ScanRow (CategoricalAccumulator Nat)) StreamError,
      q.batches.map (·.map fun row => row.record.h3Index) =
          [[0x8129bffffffffff, 0x81287ffffffffff]] ∧ q.isFinished = true ∧
        ∃ cells, Answers MergeOf twoChunkSetup (fun _ => true) (received twoChunks 2) q cells := by
  have hrun : Reachable (scanDrain twoChunkSetup false) 4 (.new twoChunkSetup false none
      (fun _ _ => 1024) (fun _ => 1024) none (twoChunks.map Item.chunk)) _ :=
    Relation.ReflTransGen.refl
      |>.tail (.call (t := true) rfl)
      |>.tail (.lockQueue (t := true) rfl rfl)
      |>.tail (.unlockQueue (t := true) rfl rfl rfl)
      |>.tail (.lockStreamer (t := true) rfl rfl)
      |>.tail (.relockQueue (t := true) rfl rfl)
      |>.tail (.startRefill (t := true) rfl rfl rfl)
      |>.tail (.refill (t := true) rfl (.rows (.of_rounds 16 rfl
        (Option.isNone_iff_eq_none.mp (by decide +kernel)) (by decide +kernel))))
      |>.tail (.call (t := true) (by decide +kernel))
      |>.tail (.lockQueue (t := true) rfl (by decide +kernel))
      |>.tail (.unlockQueue (t := true) rfl (List.isEmpty_iff.mp (by decide +kernel))
        (by decide +kernel))
      |>.tail (.lockStreamer (t := true) rfl (by decide +kernel))
      |>.tail (.relockQueue (t := true) rfl rfl)
      |>.tail (.startRefill (t := true) rfl (List.isEmpty_iff.mp (by decide +kernel))
        (by decide +kernel))
      |>.tail (.refill (t := true) rfl (.rows (.of_rounds 16 rfl
        (Option.isNone_iff_eq_none.mp (by decide +kernel)) (by decide +kernel))))
  exact ⟨_, by decide +kernel, by decide +kernel,
    query_scan_equals_batch MergeOf.represents scan_twoChunks ⟨fun _ _ => rfl, fun h => by cases h⟩
      none _ _ (by decide) hrun⟩

end Query

end RasterH3.DuckDb
