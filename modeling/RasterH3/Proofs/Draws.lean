import RasterH3.Agg.Reads
import RasterH3.Proofs.StreamRuns

/-!
# What a consumer draws from a stream

The session of a stream is a sequence of pages, and what the theorems about streams speak of
is the pages of one session. A consumer has no such view. It calls one of the drain
functions again and again, with whatever limits, looks at what it was given and at the flag
that says whether the stream has finished, and may go on after an error. Here the two are
connected.

A call is a loop of rounds around one page, so that the calls of a consumer are the pages of
one session (`Drawn.call`): what it has drawn so far, and what waits in the buffer, is the
output of the session. So what it has drawn is the beginning of the batch result, and all of
it when the stream says that it is finished (`Drawn.batch`).

The end shows in two ways. A call that asks for a row and gets none has found it, because a
round that ends without a row ends only when the buffer is empty and the stream has finished
(`Drains.finished`). And after a call that fails no call succeeds: the failure is latched in
the lifecycle of the stream before the call returns (`Drains.latch`, `Drains.latched`), so
that whoever asks again is told the same. An invariant that every round keeps is kept by a
call, which is how the modules on writers use this one.
-/

namespace RasterH3.Agg

open AccumulatorMerge SpillAccumulator Keyed

/-! ## Buffers -/

namespace OutputBuffer

variable {R : Type}

theorem popFront_none {b : OutputBuffer R} (h : b.popFront = none) : b.contents = [] := by
  unfold popFront at h
  split at h
  next hr => rw [contents, hr, List.map_nil]
  next => cases h

theorem length_drainInto (maxRows : Nat) (b : OutputBuffer R) :
    (b.drainInto maxRows).1.length ≤ maxRows := by
  induction maxRows generalizing b with
  | zero => exact le_rfl
  | succ maxRows ih =>
      rw [drainInto]
      cases b.popFront with
      | none => exact Nat.zero_le _
      | some front => exact Nat.succ_le_succ (ih front.2)

/-- A buffer that is asked for something and gives nothing is empty, and stays so. -/
theorem len_of_drainInto_nil {maxRows : Nat} (hpos : 0 < maxRows) {b : OutputBuffer R}
    (hnil : (b.drainInto maxRows).1 = []) : b.len = 0 ∧ (b.drainInto maxRows).2.len = 0 := by
  have hrest := b.drainInto_append maxRows
  rw [hnil, List.nil_append] at hrest
  have hempty : b.contents = [] := by
    obtain ⟨maxRows, rfl⟩ := Nat.exists_eq_succ_of_ne_zero hpos.ne'
    rw [drainInto] at hnil
    cases hpop : b.popFront with
    | none => exact popFront_none hpop
    | some front =>
        rw [hpop] at hnil
        cases hnil
  constructor
  · rw [len_eq, hempty, List.length_nil]
  · rw [len_eq, hrest, hempty, List.length_nil]

end OutputBuffer

/-! ## One call -/

variable {A L C : Type} {n : Nat} [LinearOrder L] [SpillAccumulator A] [BoundedOrder L]
  {cfg : Setup A L C n} {read : Read} {s s' : MultiHorizonStreamer A L C n} {maxRows : Nat}
  {page : List (Record A) × List (PartialCell A)} {result : Except StreamError Nat}

/-- Whoever asks it again gets an error. -/
def Refuses (read : Read) (s : MultiHorizonStreamer A L C n) : Prop :=
  (read.rejects s).isSome = true ∨ ∃ reason, s.lifecycle = .failed reason

theorem refuses_of_advance {rounds : Nat} {e : StreamError}
    (hadvance : s.advanceUntilCompleted cfg maxRows rounds = (some e, s')) : Refuses read s' := by
  right
  rw [MultiHorizonStreamer.advanceUntilCompleted] at hadvance
  cases hl : s.lifecycle with
  | failed reason =>
      rw [hl] at hadvance
      cases hadvance
      exact ⟨reason, hl⟩
  | running | finished =>
      rw [hl] at hadvance
      cases hinner : s.advanceInner cfg (min maxRows 2048) rounds with
      | ok t =>
          rw [hinner] at hadvance
          cases hadvance
      | error failure =>
          rw [hinner] at hadvance
          obtain ⟨u, e⟩ := failure
          cases e with
          | transformFailures | invalidParameter | streamFailed | io =>
              cases hadvance
              exact fail_lifecycle u _

theorem Drains.latch (h : Drains cfg read s maxRows page result s') {e : StreamError}
    (he : result = .error e) : Refuses read s' := by
  cases h with
  | rejected hrejects => exact .inl (hrejects ▸ rfl)
  | failed hrejects hadvance => exact refuses_of_advance hadvance
  | drained => cases he

theorem Drains.latched (h : Drains cfg read s maxRows page result s') (hrefuses : Refuses read s) :
    Refuses read s' ∧ ∃ e, result = .error e := by
  cases h with
  | rejected hrejects => exact ⟨hrefuses, _, rfl⟩
  | failed hrejects hadvance => exact ⟨refuses_of_advance hadvance, _, rfl⟩
  | drained hrejects hadvance hended =>
      rcases hrefuses with hsome | ⟨reason, hfail⟩
      · rw [hrejects] at hsome
        cases hsome
      · rw [MultiHorizonStreamer.advanceUntilCompleted, hfail] at hadvance
        cases hadvance

theorem Drains.bounded (h : Drains cfg read s maxRows page result s') :
    page.1.length + page.2.length ≤ maxRows := by
  cases h with
  | rejected | failed => exact Nat.zero_le _
  | drained hrejects hadvance hended =>
      rename_i rounds t
      have hrecords := t.outputBuffer.length_drainInto maxRows
      rw [MultiHorizonStreamer.drainPartitionedInto]
      cases t.partition with
      | none => exact hrecords
      | some p =>
          have hpartials := p.partials.length_drainInto
            (maxRows - (t.outputBuffer.drainInto maxRows).1.length)
          show (t.outputBuffer.drainInto maxRows).1.length + (p.partials.drainInto
            (maxRows - (t.outputBuffer.drainInto maxRows).1.length)).1.length ≤ maxRows
          omega

theorem Drains.nil_of_error (h : Drains cfg read s maxRows page result s') {e : StreamError}
    (he : result = .error e) : page = ([], []) := by
  cases h with
  | rejected | failed => rfl
  | drained => cases he

theorem Drains.of_rounds (rounds : Nat) (hrejects : read.rejects s = none)
    (hok : (s.advanceUntilCompleted cfg maxRows rounds).1 = none)
    (hended : (s.advanceUntilCompleted cfg maxRows rounds).2.wantsMore cfg (min maxRows 2048) =
      false) :
    Drains cfg read s maxRows
      ((s.advanceUntilCompleted cfg maxRows rounds).2.drainPartitionedInto maxRows).1
      (.ok (((s.advanceUntilCompleted cfg maxRows rounds).2.drainPartitionedInto
          maxRows).1.1.length +
        ((s.advanceUntilCompleted cfg maxRows rounds).2.drainPartitionedInto
          maxRows).1.2.length))
      ((s.advanceUntilCompleted cfg maxRows rounds).2.drainPartitionedInto maxRows).2 :=
  .drained hrejects (Prod.ext hok rfl) hended

/-- Asked for a row, it has none: it has finished, and nothing waits any more. -/
theorem Drains.finished (h : Drains cfg read s maxRows page result s') (hpos : 0 < maxRows)
    {count : Nat} (hok : result = .ok count) (hrecords : page.1 = []) (hpartials : page.2 = []) :
    s'.isFinished = true := by
  cases h with
  | rejected | failed => cases hok
  | drained hrejects hadvance hended =>
      rename_i rounds t
      obtain ⟨hout, hout'⟩ : t.outputBuffer.len = 0 ∧
          (t.outputBuffer.drainInto maxRows).2.len = 0 := by
        refine OutputBuffer.len_of_drainInto_nil hpos ?_
        rw [MultiHorizonStreamer.drainPartitionedInto] at hrecords
        cases hp : t.partition with
        | none | some => simpa only [hp] using hrecords
      have hcell : (t.partition.map (·.partials.len)).getD 0 = 0 ∧
          ((t.drainPartitionedInto maxRows).2.partition.map (·.partials.len)).getD 0 = 0 := by
        rw [MultiHorizonStreamer.drainPartitionedInto] at hrecords hpartials ⊢
        cases hp : t.partition with
        | none => exact ⟨rfl, by simp⟩
        | some p =>
            simp only [hp] at hrecords hpartials ⊢
            rw [hrecords] at hpartials ⊢
            exact OutputBuffer.len_of_drainInto_nil hpos hpartials
      have hdone : t.lifecycle = .finished := by
        by_contra hrunning
        have hlen : t.bufferedLen = 0 := by
          rw [MultiHorizonStreamer.bufferedLen, hout, hcell.1]
        refine of_decide_eq_false hended ⟨?_, hrunning, .inl hlen⟩
        rw [hlen]
        exact lt_min hpos (by omega)
      have hkeeps : (t.drainPartitionedInto maxRows).2.lifecycle = t.lifecycle ∧
          (t.drainPartitionedInto maxRows).2.outputBuffer =
            (t.outputBuffer.drainInto maxRows).2 := by
        rw [MultiHorizonStreamer.drainPartitionedInto]
        cases t.partition with
        | none | some => exact ⟨rfl, rfl⟩
      exact decide_eq_true ⟨hkeeps.1.trans hdone, hkeeps.2 ▸ hout', hcell.2⟩

/-- A call that succeeds keeps an invariant of the stream. -/
theorem Invariant.call {Inv : List (Record A) → List (PartialCell A) →
    MultiHorizonStreamer A L C n → List (Emitted A n) → Prop} (hinv : Invariant cfg Inv)
    {finals : List (Record A)} {shares : List (PartialCell A)} {log : List (Emitted A n)}
    (h : Inv finals shares s log) (hdrains : Drains cfg read s maxRows page result s') {count : Nat}
    (hok : result = .ok count) :
    ∃ log', log <+: log' ∧ Inv (finals ++ page.1) (shares ++ page.2) s' log' := by
  cases hdrains with
  | rejected | failed => cases hok
  | drained hrejects hadvance hended =>
      rename_i rounds t
      rw [MultiHorizonStreamer.advanceUntilCompleted] at hadvance
      cases hl : s.lifecycle with
      | failed reason =>
          rw [hl] at hadvance
          cases hadvance
      | running | finished =>
          rw [hl] at hadvance
          cases hinner : s.advanceInner cfg (min maxRows 2048) rounds with
          | error failure =>
              rw [hinner] at hadvance
              obtain ⟨u, e⟩ := failure
              cases e with
              | transformFailures | invalidParameter | streamFailed | io => cases hadvance
          | ok u =>
              rw [hinner] at hadvance
              cases hadvance
              obtain ⟨log', hlog, hu⟩ := hinv.advance _ _ h hinner
              exact ⟨log', hlog, hinv.drain maxRows hu⟩

/-! ## All calls -/

/-- What a consumer has drawn from the session's stream, which is now `s`. -/
def Drawn (cfg : Setup A L C n) (session : Session A L C n) (s : MultiHorizonStreamer A L C n)
    (records : List (Record A)) (partials : List (PartialCell A)) : Prop :=
  ∃ pages, (session.run cfg pages).stream = s ∧ (session.run cfg pages).records = records ∧
    (session.run cfg pages).partials = partials

variable {session : Session A L C n} {records : List (Record A)} {partials : List (PartialCell A)}

theorem Drawn.call (h : Drawn cfg session s records partials)
    (hdrains : Drains cfg read s maxRows page result s') :
    Drawn cfg session s' (records ++ page.1) (partials ++ page.2) := by
  obtain ⟨pages, hstream, rfl, rfl⟩ := h
  subst hstream
  have hrun : ∀ p, session.run cfg (pages ++ [p]) = (session.run cfg pages).page cfg p := by
    intro p
    rw [Session.run, List.foldl_append]
    rfl
  have hread : (if read = .drainCompletedInto then
      (session.run cfg pages).stream.rejectPartitioned else none) =
        read.rejects (session.run cfg pages).stream := rfl
  cases hdrains with
  | rejected hrejects =>
      refine ⟨pages ++ [⟨read, maxRows, 0⟩], ?_⟩
      rw [hrun, Session.page, hread, hrejects]
      exact ⟨rfl, (List.append_nil _).symm, (List.append_nil _).symm⟩
  | failed hrejects hadvance =>
      rename_i e rounds
      refine ⟨pages ++ [⟨read, maxRows, rounds⟩], ?_⟩
      rw [hrun, Session.page, hread, hrejects, hadvance]
      exact ⟨rfl, (List.append_nil _).symm, (List.append_nil _).symm⟩
  | drained hrejects hadvance hended =>
      rename_i rounds t
      refine ⟨pages ++ [⟨read, maxRows, rounds⟩], ?_⟩
      rw [hrun, Session.page, hread, hrejects, hadvance]
      exact ⟨rfl, rfl, rfl⟩

variable {X : Type} [LawfulSpill A] {R : Multiset X → A → Prop} {own : CellIndex → Bool}
  {items : List (Item A X n)}

/-- What has been drawn, beside a batch result. -/
structure OfBatch (R : Multiset X → A → Prop) (cfg : Setup A L C n) (own : CellIndex → Bool)
    (total : Fin n → Contents X) (s : MultiHorizonStreamer A L C n) (records : List (Record A))
    (partials : List (PartialCell A)) (cells : List (Emitted A n)) : Prop where
  aggregation : Aggregation R total cells
  finals : records <+: finalsOf cfg own cells
  shares : partials <+: sharesOf cfg own cells
  finished : s.isFinished = true → records = finalsOf cfg own cells ∧
    partials = sharesOf cfg own cells ∧ Complete total cells

theorem Drawn.batch (hR : Represents R) (hscan : Scan R cfg items) {classifier : Option C}
    (howns : Owns cfg own classifier.isSome) {compactionBudgetBytes : Option Nat}
    {structureBytes : Fin n → Nat → Nat} {indexBytes : Nat → Nat}
    (h : Drawn cfg (Session.fresh cfg items classifier compactionBudgetBytes structureBytes
      indexBytes) s records partials) :
    ∃ cells, OfBatch R cfg own (received items items.length) s records partials cells := by
  obtain ⟨pages, rfl, rfl, rfl⟩ := h
  obtain ⟨cells, hcarries⟩ := run_streaming hR hscan howns compactionBudgetBytes structureBytes
    indexBytes pages
  obtain ⟨stream, hstream, -⟩ := id hcarries
  exact ⟨cells, hstream.aggregation hscan, hstream.finals ▸ List.prefix_append _ _,
    hstream.shares ▸ List.prefix_append _ _, fun hdone => hcarries.complete hdone⟩

end RasterH3.Agg
