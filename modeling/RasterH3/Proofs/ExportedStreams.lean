import RasterH3.Parquet.StreamExport
import RasterH3.Proofs.Draws
import RasterH3.Proofs.ParquetPipeline

/-!
# An exported file has the batch result

What the pipeline writes is what was drained, and what is drained is the beginning of the
batch result. The file is published only when the draining thread has come out of its loop
without an error. It comes out of it when a call has returned no records, which is when the
stream has finished (`Finished`), or when the writer has gone, which is an error. So a
published file has one row for every cell that has samples, with all of them, whatever the
size of the row groups and however the two threads take turns.

A scan that is not a partition has no partial cells. That is read off the batch result:
there are none among its shares, so none can have been drawn.

The two halves are connected by what the draining thread does. Only its own calls bring it
to the end of its loop, and a call brings it there only if it has returned nothing
(`drain_spec`), so that the steps of all others leave the connection as it is (`Finished`).
A run in which the file is published is shown as well, step by step, from a page that fits
into one row group.
-/

namespace RasterH3.Parquet

open Agg AccumulatorMerge Pipeline

/-- The loop has come to its end without an error, or is about to. -/
def Main.drainedAll {B : Type} : Main B → Bool
  | .sending _ drained | .recycling drained => drained = 0
  | .sendingLast _ | .joining | .returned (some _) => true
  | _ => false

section Threads

variable {R F : Type} [LinearOrder F] [OrderTop F] [OrderBot F] {ops : RowGroupBuffer R F}
  {group : RowGroup R F} {bufs : Buffers ops group} {config : ExportConfig F}
  {before : Option (ParquetFile F)} {p p' : Pipeline R F ops.Buffer}

omit [LinearOrder F] [OrderTop F] [OrderBot F] in
theorem drained_zero_of_endIteration {current : ops.Buffer} {drained : Nat}
    (h : (endIteration ops current drained).drainedAll = true) : drained = 0 := by
  by_contra hne
  rw [endIteration, if_neg hne] at h
  cases h

/-- A writer that has gone while the draining thread still sends has failed. -/
theorem Pipeline.Holds.not_gone {written hand queued : List (List R)} {rows : List R}
    (h : Holds bufs config before p written hand queued rows) (hfailed : p.failed = false)
    (htx : p.main.writerTx = true) : p.writer.writerRx ≠ false := by
  intro hgone
  have hlive : p.writer.live = false := by
    cases hw : p.writer <;> rw [hw] at hgone <;> first | rfl | cases hgone
  have hwriter : p.writer.failed = false := by
    have hboth := h.failed
    rw [hfailed] at hboth
    exact (Bool.or_eq_false_iff.mp hboth.symm).2
  rw [(h.closed hlive hwriter).1] at htx
  cases htx

theorem drainedAll_of_stepMain (h : Inv bufs config before p) (hstep : stepMain ops p = some p')
    (hfailed : p'.failed = false) (hall : p'.main.drainedAll = true) :
    p.failed = false ∧ p.main.drainedAll = true := by
  obtain ⟨written, hand, queued, rows, h⟩ := h
  rw [stepMain] at hstep
  cases hmain : p.main with
  | draining current =>
      rw [hmain] at hstep
      cases hstep
  | sending current drained =>
      rw [hmain] at hstep
      simp only at hstep
      split at hstep
      next hgone =>
        cases hstep
        exact absurd hgone (h.not_gone hfailed (by rw [hmain]; rfl))
      next =>
        split at hstep
        next =>
          cases hstep
          exact ⟨hfailed, hall⟩
        next => cases hstep
  | recycling drained =>
      rw [hmain] at hstep
      simp only at hstep
      split at hstep
      next =>
        cases hstep
        exact ⟨hfailed, decide_eq_true (drained_zero_of_endIteration hall)⟩
      next =>
        split at hstep
        next => cases hstep
        next =>
          cases hstep
          exact ⟨hfailed, decide_eq_true (drained_zero_of_endIteration hall)⟩
  | sendingLast current =>
      rw [hmain] at hstep
      simp only at hstep
      split at hstep
      next =>
        cases hstep
        exact ⟨hfailed, rfl⟩
      next =>
        split at hstep
        next =>
          cases hstep
          exact ⟨hfailed, rfl⟩
        next => cases hstep
  | streamFailed =>
      rw [hmain] at hstep
      cases hstep
      cases hall
  | joiningFailed =>
      rw [hmain] at hstep
      simp only at hstep
      split at hstep
      next =>
        cases hstep
        cases hall
      next => cases hstep
  | joining =>
      rw [hmain] at hstep
      simp only at hstep
      split at hstep
      next =>
        cases hstep
        cases hall
      next =>
        cases hstep
        exact ⟨hfailed, rfl⟩
      next => cases hstep
  | returned total =>
      rw [hmain] at hstep
      cases hstep

omit [OrderTop F] [OrderBot F] in
theorem kept_of_stepWriter (hstep : stepWriter ops config p = some p') :
    p'.main = p.main ∧ p'.failed = p.failed := by
  rw [stepWriter] at hstep
  repeat' split at hstep
  all_goals cases hstep
  all_goals exact ⟨rfl, rfl⟩

/-- Only the draining thread's own calls bring it to the end of its loop. -/
theorem drainedAll_of_step (h : Inv bufs config before p) {action : Action R}
    (haction : action.drains = false) (hstep : step ops config p action = some p')
    (hfailed : p'.failed = false) (hall : p'.main.drainedAll = true) :
    p.failed = false ∧ p.main.drainedAll = true := by
  cases action with
  | drain | drainFails => cases haction
  | main => exact drainedAll_of_stepMain h hstep hfailed hall
  | writer =>
      obtain ⟨hmain, hkept⟩ := kept_of_stepWriter hstep
      exact ⟨hkept ▸ hfailed, hmain ▸ hall⟩
  | persistFails =>
      replace hstep : persistFails ops p = some p' := hstep
      rw [persistFails] at hstep
      split at hstep
      next =>
        cases hstep
        cases hfailed
      next => cases hstep
  | writerFails =>
      replace hstep : writerFails ops p = some p' := hstep
      rw [writerFails] at hstep
      split at hstep
      next =>
        cases hstep
        cases hfailed
      next =>
        cases hstep
        cases hfailed
      next => cases hstep
  | dropWriterRx =>
      replace hstep : dropWriterRx ops p = some p' := hstep
      rw [dropWriterRx] at hstep
      split at hstep
      next =>
        cases hstep
        exact ⟨hfailed, hall⟩
      next => cases hstep
  | dropRecycleTx =>
      replace hstep : dropRecycleTx ops p = some p' := hstep
      rw [dropRecycleTx] at hstep
      split at hstep
      next =>
        cases hstep
        exact ⟨hfailed, hall⟩
      next => cases hstep

omit [OrderTop F] [OrderBot F] [LinearOrder F] in
/-- A call brings it there only if it has returned nothing. -/
theorem drain_spec {rows : List R} (hstep : drain ops config p rows = some p') :
    p'.drained = p.drained ++ rows ∧ (p'.main.drainedAll = true → rows = []) := by
  rw [drain] at hstep
  cases hmain : p.main with
  | draining current =>
      rw [hmain] at hstep
      simp only at hstep
      split at hstep
      next =>
        cases hstep
        refine ⟨rfl, fun hall => List.length_eq_zero_iff.mp ?_⟩
        simp only at hall
        split at hall
        next => exact of_decide_eq_true hall
        next => exact drained_zero_of_endIteration hall
      next => cases hstep
  | sending | recycling | sendingLast | streamFailed | joiningFailed | joining | returned =>
      rw [hmain] at hstep
      cases hstep

omit [OrderTop F] [OrderBot F] in
/-- The other threads drain nothing. -/
theorem drained_of_step {action : Action R} (haction : action.drains = false)
    (hstep : step ops config p action = some p') : p'.drained = p.drained := by
  cases action with
  | drain | drainFails => cases haction
  | main | writer | persistFails | writerFails | dropWriterRx | dropRecycleTx =>
      simp only [step, stepMain, stepWriter, persistFails, writerFails, dropWriterRx,
        dropRecycleTx] at hstep
      repeat' split at hstep
      all_goals cases hstep
      all_goals rfl

end Threads

/-! ## Runs -/

namespace Export

variable {A L C F X : Type} {n : Nat} [SpillAccumulator A] [LinearOrder L] [BoundedOrder L]
  [LinearOrder F] [OrderTop F] [OrderBot F] {ops : RowGroupBuffer (MultiRecord A) F}
  {group : RowGroup (MultiRecord A) F} {bufs : Buffers ops group} {config : ExportConfig F}
  {before : Option (ParquetFile F)} {cfg : Setup A L C n} {session : Session A L C n}
  {x x' : Export A L C F ops.Buffer n}

/-- The rows are what a consumer of the stream has drawn, and a draining thread that is done
has drawn everything. -/
structure Finished (bufs : Buffers ops group) (config : ExportConfig F)
    (before : Option (ParquetFile F)) (cfg : Setup A L C n) (session : Session A L C n)
    (x : Export A L C F ops.Buffer n) : Prop where
  pipeline : Inv bufs config before x.pipeline
  drawn : ∃ records partials, Drawn cfg session x.stream records partials ∧
    x.pipeline.drained = records.map .ofRecord
  finished : x.pipeline.failed = false → x.pipeline.main.drainedAll = true →
    x.stream.isFinished = true

theorem Finished.step (h : Finished bufs config before cfg session x)
    (hnone : ∀ {s records partials}, Drawn cfg session s records partials → partials = [])
    (hstep : Step ops config cfg x x') : Finished bufs config before cfg session x' := by
  obtain ⟨records, partials, hdrawn, hdrained⟩ := h.drawn
  cases hstep with
  | drain hmain hdrains hstep =>
      have hnext := hdrawn.call hdrains
      obtain ⟨hrows, hall⟩ := drain_spec hstep
      refine ⟨inv_step h.pipeline hstep, ⟨_, _, hnext, ?_⟩, fun _ hend => ?_⟩
      · rw [hrows, hdrained, List.map_append]
      · exact hdrains.finished (lt_max_of_lt_right Nat.one_pos) rfl
          (List.map_eq_nil_iff.mp (hall hend)) (List.append_eq_nil_iff.mp (hnone hnext)).2
  | drainFails hmain hdrains hstep =>
      obtain rfl := hdrains.nil_of_error rfl
      have hinv := inv_step h.pipeline hstep
      replace hstep : Pipeline.drainFails ops x.pipeline [] = some _ := hstep
      rw [Pipeline.drainFails, hmain] at hstep
      cases hstep
      refine ⟨hinv, ⟨_, _, hdrawn.call hdrains, ?_⟩, fun hfailed => by cases hfailed⟩
      show x.pipeline.drained ++ [] = (records ++ []).map .ofRecord
      rw [List.append_nil, List.append_nil]
      exact hdrained
  | thread haction hstep =>
      refine ⟨inv_step h.pipeline hstep,
        ⟨records, partials, hdrawn, (drained_of_step haction hstep).trans hdrained⟩,
        fun hfailed hall => ?_⟩
      obtain ⟨hfailed, hall⟩ := drainedAll_of_step h.pipeline haction hstep hfailed hall
      exact h.finished hfailed hall

omit [OrderTop F] [OrderBot F] in
/-- The threads take turns while the stream is left alone. -/
theorem Reachable.threads {stream : MultiHorizonStreamer A L C n} {actions : List (Action _)}
    (hactions : ∀ action ∈ actions, action.drains = false)
    {p p' : Pipeline (MultiRecord A) F ops.Buffer} {s : MultiHorizonStreamer A L C n}
    (hx : Reachable ops config cfg before stream ⟨p, s⟩)
    (hrun : run ops config p actions = some p') :
    Reachable ops config cfg before stream ⟨p', s⟩ := by
  induction actions generalizing p with
  | nil => exact Option.some.inj hrun ▸ hx
  | cons action actions ih =>
      obtain ⟨q, hstep, hrest⟩ := Option.bind_eq_some_iff.mp hrun
      exact ih (fun a ha => hactions a (List.mem_cons_of_mem _ ha))
        (.tail hx (.thread (hactions action List.mem_cons_self) hstep)) hrest

/-- The room for rows, while the first thread is draining. -/
def room (config : ExportConfig F) (p : Pipeline (MultiRecord A) F ops.Buffer) : Option Nat :=
  match p.main with
  | .draining current => some (spaceLeft ops config current)
  | _ => none

omit [OrderTop F] [OrderBot F] in
/-- A page, and what the threads do with it. -/
theorem Reachable.page {stream : MultiHorizonStreamer A L C n} {actions : List (Action _)}
    (hactions : ∀ action ∈ actions, action.drains = false)
    {p p' : Pipeline (MultiRecord A) F ops.Buffer} {s s' : MultiHorizonStreamer A L C n}
    (hx : Reachable ops config cfg before stream ⟨p, s⟩) {maxRows count : Nat}
    {page : List (Record A) × List (PartialCell A)}
    (hdrains : Drains cfg .drainCompletedInto s maxRows page (.ok count) s')
    (hroom : room config p = some maxRows)
    (hrun : run ops config p (.drain (page.1.map .ofRecord) :: actions) = some p') :
    Reachable ops config cfg before stream ⟨p', s'⟩ := by
  obtain ⟨q, hstep, hrest⟩ := Option.bind_eq_some_iff.mp hrun
  rw [room] at hroom
  split at hroom
  next current hmain =>
    obtain rfl := Option.some.inj hroom
    exact .threads hactions (.tail hx (.drain hmain hdrains hstep)) hrest
  next => cases hroom

/-- What the export has done, beside the batch result of the scan. -/
structure OfBatch {R : Type} (rel : Multiset X → A → Prop) (row : Agg.Record A → R)
    (cfg : Setup A L C n) (total : Fin n → Contents X) (group : RowGroup R F)
    (config : ExportConfig F) (before : Option (ParquetFile F)) {B : Type} (p : Pipeline R F B)
    (emitted : List (Emitted A n)) : Prop where
  aggregation : Aggregation rel total emitted
  drained : p.drained <+: (finalsOf cfg (fun _ => true) emitted).map row
  published : ∀ count, p.main = .returned (some count) → Complete total emitted ∧
    ∃ file groups, p.target = some file ∧
      Exported group config ((finalsOf cfg (fun _ => true) emitted).map row) file count groups
  untouched : (p.failed = true ∨ ∀ count, p.main ≠ .returned (some count)) → p.target = before

variable [LawfulSpill A] {R : Multiset X → A → Prop} {items : List (Item A X n)}

theorem Reachable.ofBatch (bufs : Buffers ops group) (hR : Represents R)
    (hscan : Scan R cfg items) {compactionBudgetBytes : Option Nat}
    {structureBytes : Fin n → Nat → Nat} {indexBytes : Nat → Nat}
    (h : Reachable ops config cfg before (.new cfg false compactionBudgetBytes structureBytes
      indexBytes none (items.map Item.chunk)) x) :
    ∃ emitted, OfBatch R .ofRecord cfg (received items items.length) group config before
      x.pipeline emitted := by
  have howns : Owns cfg (fun _ => true) (none : Option C).isSome :=
    ⟨fun _ _ => rfl, fun hsome => by cases hsome⟩
  have hshares : ∀ cells : List (Emitted A n), sharesOf cfg (fun _ => true) cells = [] := by
    intro cells
    simp [sharesOf]
  have hfinished : Finished bufs config before cfg (Session.fresh cfg items none
      compactionBudgetBytes structureBytes indexBytes) x := by
    induction h with
    | refl =>
        exact ⟨inv_initial, ⟨[], [], ⟨[], rfl, rfl, rfl⟩, rfl⟩, fun _ hall => by cases hall⟩
    | tail _ hstep ih =>
        refine ih.step (fun hdrawn => ?_) hstep
        obtain ⟨cells, hbatch⟩ := hdrawn.batch hR hscan howns
        exact List.prefix_nil.mp (hshares cells ▸ hbatch.shares)
  obtain ⟨records, partials, hdrawn, hdrained⟩ := hfinished.drawn
  obtain ⟨cells, hbatch⟩ := hdrawn.batch hR hscan howns
  refine ⟨cells, hbatch.aggregation, ?_, fun count hmain => ?_,
    untouched_of_inv hfinished.pipeline⟩
  · rw [hdrained]
    exact List.IsPrefix.map _ hbatch.finals
  · obtain ⟨hfailed, file, groups, htarget, hexported⟩ := exported_of_inv hfinished.pipeline hmain
    have hdone := hfinished.finished hfailed (by rw [hmain]; rfl)
    obtain ⟨hrecords, -, hcomplete⟩ := hbatch.finished hdone
    rw [hdrained, hrecords] at hexported
    exact ⟨hcomplete, file, groups, htarget, hexported⟩

end Export

section Files

open Export

variable {A L C F X : Type} {n : Nat} [SpillAccumulator A] [LawfulSpill A] [LinearOrder L]
  [BoundedOrder L] [LinearOrder F] [OrderTop F] [OrderBot F] [Inhabited F] [Zero F]
  {cfg : Setup A L C n} {R : Multiset X → A → Prop} {items : List (Item A X n)}

/-- Whatever the scan, the size of the row groups and the turns of the threads. -/
theorem exported_file_is_batch_result (hR : Represents R) (hscan : Scan R cfg items)
    (compactionBudgetBytes : Option Nat) (structureBytes : Fin n → Nat → Nat)
    (indexBytes : Nat → Nat) (cells : Cells F) (sort : UnstableSort) (config : ExportConfig F)
    (before : Option (ParquetFile F)) :
    let stream : MultiHorizonStreamer A L C n := .new cfg false compactionBudgetBytes
      structureBytes indexBytes none (items.map Item.chunk)
    (∀ (stats : ContinuousStats A F) x,
      Reachable (continuousBuffer cells stats sort config.options) config cfg before stream x →
      ∃ emitted, OfBatch R .ofRecord cfg (received items items.length)
        (continuousRowGroup cells config.options stats) config before x.pipeline emitted) ∧
    ∀ (stats : CategoricalStats A F) x,
      Reachable (categoricalBuffer cells stats sort config.options) config cfg before stream x →
      ∃ emitted, OfBatch R .ofRecord cfg (received items items.length)
        (categoricalRowGroup cells config.options stats) config before x.pipeline emitted := by
  intro stream
  constructor
  · intro stats x hx
    exact hx.ofBatch (ContinuousRowGroupBuffer.buffers cells sort config.options stats) hR hscan
  · intro stats x hx
    exact hx.ofBatch (CategoricalRowGroupBuffer.buffers cells sort config.options stats) hR hscan

def Main.returnedTwo {B : Type} : Main B → Bool
  | .returned totalRows => totalRows = some 2
  | _ => false

theorem Main.returnedTwo_iff {B : Type} {main : Main B} :
    main.returnedTwo = true ↔ main = .returned (some 2) := by
  cases main <;> simp [Main.returnedTwo]

/-- The first call fills a row group, the second returns nothing, and the file is published. -/
theorem exported_file_is_batch_result_two_chunks :
    let cells : Cells (Fin 9) :=
      ⟨UInt64, some, fun _ => [(1, 2), (3, 4)], fun _ => (1, 2), fun _ => []⟩
    let stats : ContinuousStats (CategoricalAccumulator Nat) (Fin 9) :=
      ⟨fun _ => 1, fun _ => 2, fun _ => 3, fun _ => 4, fun _ => 5⟩
    let sort : UnstableSort := ⟨fun keys => (List.range keys.length).insertionSort
      fun i j => keys.getD i 0 ≤ keys.getD j 0, fun _ => ⟨List.perm_insertionSort _ _,
        List.pairwise_insertionSort _ _⟩⟩
    let config : ExportConfig (Fin 9) := ⟨2, ⟨false, true⟩, .empty⟩
    ∃ (x : Export (CategoricalAccumulator Nat) (Fin 181) Unit (Fin 9)
        (continuousBuffer cells stats sort config.options).Buffer 1)
      (emitted : List (Emitted (CategoricalAccumulator Nat) 1)),
      x.pipeline.main = .returned (some 2) ∧
        OfBatch MergeOf .ofRecord twoChunkSetup (received twoChunks 2)
          (continuousRowGroup cells config.options stats) config none x.pipeline emitted ∧
        Complete (received twoChunks 2) emitted ∧
        ∃ file groups, x.pipeline.target = some file ∧
          Exported (continuousRowGroup cells config.options stats) config
            ((finalsOf twoChunkSetup (fun _ => true) emitted).map .ofRecord) file 2 groups := by
  intro cells stats sort config
  let stream : MultiHorizonStreamer (CategoricalAccumulator Nat) (Fin 181) Unit 1 :=
    .new twoChunkSetup false none (fun _ _ => 1024) (fun _ => 1024) none (twoChunks.map Item.chunk)
  let first := (stream.advanceUntilCompleted twoChunkSetup 2 16).2.drainPartitionedInto 2
  let last := (first.2.advanceUntilCompleted twoChunkSetup 2 16).2.drainPartitionedInto 2
  let ops := continuousBuffer cells stats sort config.options
  have hfirst : Drains twoChunkSetup .drainCompletedInto stream 2 first.1 _ _ :=
    .of_rounds 16 rfl (Option.isNone_iff_eq_none.mp (by decide +kernel)) (by decide +kernel)
  have hlast : Drains twoChunkSetup .drainCompletedInto first.2 2 last.1 _ _ :=
    .of_rounds 16 (Option.isNone_iff_eq_none.mp (by decide +kernel))
      (Option.isNone_iff_eq_none.mp (by decide +kernel)) (by decide +kernel)
  let write : List (Action (MultiRecord (CategoricalAccumulator Nat))) :=
    [.main, .writer, .writer, .writer, .main]
  let finish : List (Action (MultiRecord (CategoricalAccumulator Nat))) :=
    [.writer, .writer, .dropWriterRx, .dropRecycleTx, .writer, .main]
  have hwritten : ∃ p, run ops config (initial ops none)
      (.drain (first.1.1.map .ofRecord) :: write) = some p ∧ room config p = some 2 ∧
        (run ops config p (.drain (last.1.1.map .ofRecord) :: finish)).any
          (·.main.returnedTwo) = true := by
    have hany : (run ops config (initial ops none) (.drain (first.1.1.map .ofRecord) :: write)).any
        (fun p => decide (room config p = some 2) && (run ops config p
          (.drain (last.1.1.map .ofRecord) :: finish)).any (·.main.returnedTwo)) = true := by
      decide +kernel
    obtain ⟨p, hrun, hp⟩ := (Option.any_eq_true _ _).mp hany
    obtain ⟨hroom, hend⟩ := Bool.and_eq_true_iff.mp hp
    exact ⟨p, hrun, of_decide_eq_true hroom, hend⟩
  obtain ⟨p, hrun, hroom, hfinished⟩ := hwritten
  obtain ⟨p', hend, hreturned⟩ := (Option.any_eq_true _ _).mp hfinished
  have hpage : Reachable ops config twoChunkSetup none stream ⟨p, _⟩ :=
    .page (by decide) .refl hfirst rfl hrun
  have hx : Reachable ops config twoChunkSetup none stream ⟨p', _⟩ :=
    .page (by decide) hpage hlast hroom hend
  replace hreturned := Main.returnedTwo_iff.mp hreturned
  obtain ⟨emitted, hbatch⟩ := (exported_file_is_batch_result MergeOf.represents scan_twoChunks none
    _ _ cells sort config none).1 stats _ hx
  exact ⟨_, emitted, hreturned, hbatch, hbatch.published 2 hreturned⟩

end Files

end RasterH3.Parquet
