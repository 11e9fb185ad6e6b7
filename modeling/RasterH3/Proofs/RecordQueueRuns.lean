import RasterH3.DuckDb.RecordQueue
import Mathlib.Tactic

/-!
# The record queue hands out every record once and in order

Several threads ask one queue for batches, and whoever finds it empty refills it from the
streamer, for all of them. There are two locks. A thread that finds no batch lets go of the
queue, takes the streamer and then the queue again, looks a second time, and keeps both
while it calls the streamer; so a refill starts from an empty queue, and nobody has been
given anything since the thread has looked. The batches it cuts go behind everything that
was given out before. What is given out and what is queued is therefore together, and in
order, what was drained.

`Locked` is the invariant about the locks, that whoever is at a place which needs a lock has
it alone. `Contents` is the one about the records: the outcomes so far and the batches in
the queue, one after the other, are the rows that the streamer has emitted, cut into batches
that are neither empty nor too long. Cutting has a loop of its own, over rows with a rest
that is carried along (`Cut`), and is done with before any thread comes in. Most steps move
a thread or a lock and leave the contents alone (`Contents.move`); a batch that is taken, an
end, a refill and a refill that fails are the four that do not.

Once the streamer has failed nothing is drained any more. The batches that were queued
before are still given out; then the error is, to everybody who asks, and `Drained` keeps
the calls that returned apart from those that failed to say so.
-/

namespace RasterH3.DuckDb

/-! ## Cutting rows into batches -/

namespace Refill

variable {R : Type} {batchSize : Nat} {r : Refill R} {rows : List R}

def batches (r : Refill R) : List (List R) := r.myBatch.toList ++ r.readyQ

/-- The rows are cut into full batches and a rest. -/
structure Cut (batchSize : Nat) (rows : List R) (r : Refill R) : Prop where
  rows : r.batches.flatten ++ r.currentChunk = rows
  full : ∀ batch ∈ r.batches, batch.length = batchSize
  short : r.currentChunk.length < batchSize
  first : r.myBatch = none → r.readyQ = []

theorem Cut.emit (h : Cut batchSize rows r) (rec : R) :
    Cut batchSize (rows ++ [rec]) (r.emit batchSize rec) := by
  have hshort := h.short
  obtain ⟨chunk, mine, ready⟩ := r
  have hrows : (Refill.batches ⟨chunk, mine, ready⟩).flatten ++ (chunk ++ [rec]) = rows ++ [rec] := by
    rw [← h.rows, List.append_assoc]
  simp only [Refill.emit]
  split
  next hfull =>
    cases mine with
    | none =>
      obtain rfl : ready = [] := h.first rfl
      refine ⟨by simpa [batches] using hrows, fun batch hbatch => ?_, by simp; omega, nofun⟩
      rw [batches, List.append_nil] at hbatch
      obtain rfl := List.mem_singleton.mp hbatch
      exact hfull
    | some batch =>
      refine ⟨by simpa [batches] using hrows, fun batch hbatch => ?_, by simp; omega, nofun⟩
      rw [batches, ← List.append_assoc] at hbatch
      rcases List.mem_append.mp hbatch with hbatch | hbatch
      · exact h.full batch hbatch
      · obtain rfl := List.mem_singleton.mp hbatch
        exact hfull
  next hshorter =>
    refine ⟨hrows, h.full, ?_, h.first⟩
    simp only [List.length_append, List.length_singleton] at hshort hshorter ⊢
    omega

theorem cut_foldl (hpos : 0 < batchSize) (rows : List R) :
    Cut batchSize rows (rows.foldl (Refill.emit batchSize) ⟨[], none, []⟩) := by
  induction rows using List.reverseRecOn with
  | nil => exact ⟨rfl, nofun, hpos, fun _ => rfl⟩
  | append_singleton rows rec ih =>
    rw [List.foldl_append]
    exact ih.emit rec

theorem length_flatten_of_full {l : List (List R)} (h : ∀ batch ∈ l, batch.length = batchSize) :
    l.flatten.length = l.length * batchSize := by
  induction l with
  | nil => simp
  | cons batch l ih =>
    rw [List.flatten_cons, List.length_append, h batch List.mem_cons_self,
      ih fun batch' hbatch => h batch' (List.mem_cons_of_mem _ hbatch), List.length_cons]
    ring

/-- The rows are cut into batches that are neither empty nor too long, four at the most. -/
structure Batched (batchSize : Nat) (rows : List R) (r : Refill R) : Prop where
  rows : r.batches.flatten = rows
  sized : ∀ batch ∈ r.batches, batch ≠ [] ∧ batch.length ≤ batchSize
  queued : r.readyQ.length ≤ 3
  first : r.myBatch = none → r.readyQ = []

theorem Cut.finish (h : Cut batchSize rows r) (hle : rows.length ≤ batchSize * 4) :
    Batched batchSize rows r.finish := by
  have hshort := h.short
  have hlen : r.batches.length * batchSize + r.currentChunk.length = rows.length := by
    rw [← length_flatten_of_full h.full, ← List.length_append, h.rows]
  have hfull : ∀ batch ∈ r.batches, batch ≠ [] ∧ batch.length ≤ batchSize := by
    intro batch hbatch
    have := h.full batch hbatch
    refine ⟨?_, this.le⟩
    rintro rfl
    rw [List.length_nil] at this
    omega
  have hcount : r.batches.length ≤ 4 ∧ (r.currentChunk ≠ [] → r.batches.length ≤ 3) := by
    constructor
    · by_contra hmany
      have := Nat.mul_le_mul_right batchSize (show 5 ≤ r.batches.length by omega)
      omega
    · intro hne
      have := List.length_pos_iff.mpr hne
      by_contra hmany
      have := Nat.mul_le_mul_right batchSize (show 4 ≤ r.batches.length by omega)
      omega
  obtain ⟨chunk, mine, ready⟩ := r
  rw [Refill.finish]
  split
  next hempty =>
    have hnil : chunk = [] := by simpa using hempty
    refine ⟨by simpa [hnil] using h.rows, hfull, ?_, h.first⟩
    cases mine with
    | none =>
      obtain rfl : ready = [] := h.first rfl
      exact Nat.zero_le 3
    | some batch => exact Nat.le_of_succ_le_succ hcount.1
  next hsome =>
    have hne : chunk ≠ [] := by simpa using hsome
    cases mine with
    | none =>
      obtain rfl : ready = [] := h.first rfl
      refine ⟨by simpa [batches] using h.rows, fun batch hbatch => ?_, by simp, nofun⟩
      obtain rfl : batch = chunk := by simpa [batches] using hbatch
      exact ⟨hne, hshort.le⟩
    | some batch =>
      refine ⟨by simpa [batches] using h.rows, fun batch' hbatch => ?_, ?_, nofun⟩
      · rw [batches, ← List.append_assoc] at hbatch
        rcases List.mem_append.mp hbatch with hbatch | hbatch
        · exact hfull batch' hbatch
        · obtain rfl := List.mem_singleton.mp hbatch
          exact ⟨hne, hshort.le⟩
      · rw [List.length_append, List.length_singleton]
        exact hcount.2 hne

theorem batched (hpos : 0 < batchSize) (hle : rows.length ≤ batchSize * 4) :
    Batched batchSize rows (rows.foldl (Refill.emit batchSize) ⟨[], none, []⟩).finish :=
  (cut_foldl hpos rows).finish hle

end Refill

/-! ## Runs -/

def Outcome.isBatch {R E : Type} : Outcome R E → Prop
  | .batch _ => True
  | _ => False

namespace RecordQueue

variable {T S R E : Type} [DecidableEq T] {drain : Drain S R E} {batchSize : Nat}
  {q q' : RecordQueue T S R E} {t : T}

/-- With the queue's lock. -/
def HoldsQueue : Pc → Prop
  | .fastPath | .checking | .refilling => True
  | _ => False

structure Locked (q : RecordQueue T S R E) : Prop where
  queueLock : ∀ t, HoldsQueue (q.threads t) → q.queueLock = some t
  refilling : ∀ t, q.threads t = .refilling → q.readyBatches = [] ∧ q.isFinished = false

/-- The calls of the streamer, first those that returned and then those that failed. What
the former emitted was given out or is queued. -/
structure Drained (drain : Drain S R E) (q : RecordQueue T S R E)
    (good bad : List (List R × Except E Nat)) : Prop where
  calls : q.calls = good ++ bad
  returned : ∀ call ∈ good, ∃ count, call.2 = .ok count
  errors : ∀ call ∈ bad, ∃ error, call.2 = .error error
  failed : bad ≠ [] → drain.failed q.streamer
  rows : q.batches.flatten ++ q.readyBatches.flatten = (good.map Prod.fst).flatten

structure Contents (drain : Drain S R E) (batchSize : Nat) (q : RecordQueue T S R E) :
    Prop where
  empty : q.isFinished = true → q.readyBatches = []
  sized : ∀ batch ∈ q.batches ++ q.readyBatches, batch ≠ [] ∧ batch.length ≤ batchSize
  queued : q.readyBatches.length ≤ 3
  ended : ∀ o ∈ q.outcomes, o.2 = .finished → q.isFinished = true
  last : q.outcomes.Pairwise fun o o' => o.2 = .finished → ¬ o'.2.isBatch
  drained : ∃ good bad, Drained drain q good bad

/-! ### Locks -/

omit [DecidableEq T] in
theorem Locked.initial (streamer : S) : Locked (initial streamer : RecordQueue T S R E) :=
  ⟨fun _ h => h.elim, nofun⟩

omit [DecidableEq T] in
/-- Whoever has the lock is the only one. -/
theorem Locked.alone (h : Locked q) (ht : HoldsQueue (q.threads t)) {t' : T} (hne : t' ≠ t) :
    ¬ HoldsQueue (q.threads t') := fun ht' =>
  hne (Option.some.inj ((h.queueLock t' ht').symm.trans (h.queueLock t ht)))

theorem Locked.release (h : Locked q) (ht : HoldsQueue (q.threads t)) {pc : Pc}
    (hpc : ¬ HoldsQueue pc) (hthreads : q'.threads = Function.update q.threads t pc) :
    Locked q' := by
  have hnobody : ∀ t', ¬ HoldsQueue (q'.threads t') := by
    intro t'
    rw [hthreads]
    by_cases heq : t' = t
    · rwa [heq, Function.update_self]
    · rw [Function.update_of_ne heq]
      exact h.alone ht heq
  refine ⟨fun t' ht' => absurd ht' (hnobody t'), fun t' ht' => absurd ?_ (hnobody t')⟩
  rw [ht']
  trivial

theorem Locked.acquire (h : Locked q) (pc : Pc) (hfree : q.queueLock = none)
    (hpc : pc ≠ .refilling) (hthreads : q'.threads = Function.update q.threads t pc)
    (hlock : q'.queueLock = some t) : Locked q' := by
  have hnobody : ∀ t', ¬ HoldsQueue (q.threads t') := by
    intro t' ht'
    rw [h.queueLock t' ht'] at hfree
    cases hfree
  refine ⟨fun t' ht' => ?_, fun t' ht' => ?_⟩ <;> rw [hthreads] at ht' <;>
    by_cases heq : t' = t
  · rw [heq, hlock]
  · rw [Function.update_of_ne heq] at ht'
    exact absurd ht' (hnobody t')
  · rw [heq, Function.update_self] at ht'
    exact absurd ht' hpc
  · rw [Function.update_of_ne heq] at ht'
    exact absurd (ht' ▸ trivial) (hnobody t')

/-- A step outside the queue's lock, or to the refill. -/
theorem Locked.step (h : Locked q) (pc : Pc)
    (hhold : HoldsQueue pc → q.queueLock = some t)
    (hrefill : pc = .refilling → q.readyBatches = [] ∧ q.isFinished = false)
    (hthreads : q'.threads = Function.update q.threads t pc) (hlock : q'.queueLock = q.queueLock)
    (hready : q'.readyBatches = q.readyBatches) (hfinished : q'.isFinished = q.isFinished) :
    Locked q' := by
  refine ⟨fun t' ht' => ?_, fun t' ht' => ?_⟩ <;> rw [hthreads] at ht' <;>
    by_cases heq : t' = t
  · rw [heq, Function.update_self] at ht'
    rw [heq, hlock]
    exact hhold ht'
  · rw [Function.update_of_ne heq] at ht'
    rw [hlock]
    exact h.queueLock t' ht'
  · rw [heq, Function.update_self] at ht'
    rw [hready, hfinished]
    exact hrefill ht'
  · rw [Function.update_of_ne heq] at ht'
    rw [hready, hfinished]
    exact h.refilling t' ht'

/-! ### Contents -/

omit [DecidableEq T] in
theorem Contents.initial (streamer : S) :
    Contents drain batchSize (initial streamer : RecordQueue T S R E) where
  empty := nofun
  sized := nofun
  queued := Nat.zero_le 3
  ended := nofun
  last := .nil
  drained := ⟨[], [], rfl, nofun, nofun, fun h => absurd rfl h, rfl⟩

theorem batches_give_batch (rows : List R) :
    (q.give t (.batch rows)).batches = q.batches ++ [rows] := by
  simp [batches, give]

theorem batches_give_finished : (q.give t .finished).batches = q.batches := by
  simp [batches, give]

theorem batches_give_failed (error : E) : (q.give t (.failed error)).batches = q.batches := by
  simp [batches, give]

omit [DecidableEq T] in
/-- As long as there is a batch nobody has been given the end. -/
theorem Contents.pairwise_batch (h : Contents drain batchSize q) (hopen : q.isFinished = false)
    (o : T × Outcome R E) :
    (q.outcomes ++ [o]).Pairwise fun o o' => o.2 = .finished → ¬ o'.2.isBatch := by
  refine List.pairwise_append.mpr ⟨h.last, List.pairwise_singleton _ _, ?_⟩
  intro o' ho' _ _ hend
  rw [h.ended o' ho' hend] at hopen
  cases hopen

omit [DecidableEq T] in
theorem Contents.pairwise_end (h : Contents drain batchSize q) {o : T × Outcome R E}
    (ho : ¬ o.2.isBatch) :
    (q.outcomes ++ [o]).Pairwise fun o o' => o.2 = .finished → ¬ o'.2.isBatch := by
  refine List.pairwise_append.mpr ⟨h.last, List.pairwise_singleton _ _, ?_⟩
  intro _ _ o' ho' _
  rwa [List.mem_singleton.mp ho']

theorem Contents.pop (h : Contents drain batchSize q) {batch : List R} {rest : List (List R)}
    (hready : q.readyBatches = batch :: rest) :
    Contents drain batchSize ({ q with readyBatches := rest }.give t (.batch batch)) := by
  have hopen : q.isFinished = false := by
    rw [← Bool.not_eq_true]
    intro hfinished
    rw [h.empty hfinished] at hready
    cases hready
  obtain ⟨good, bad, hd⟩ := h.drained
  have hqueued := h.queued
  rw [hready, List.length_cons] at hqueued
  refine ⟨fun hfinished => absurd hfinished (by simp [give, hopen]), ?_, ?_, ?_,
    h.pairwise_batch hopen _, good, bad, hd.calls, hd.returned, hd.errors, hd.failed, ?_⟩
  · have hsized := h.sized
    rw [hready] at hsized
    rw [batches_give_batch]
    simpa [give, batches] using hsized
  · exact Nat.le_of_succ_le hqueued
  · intro o ho hend
    rcases List.mem_append.mp ho with ho | ho
    · exact h.ended o ho hend
    · rw [List.mem_singleton.mp ho] at hend
      cases hend
  · have hrows := hd.rows
    rw [hready] at hrows
    rw [batches_give_batch]
    simpa [give, batches] using hrows

theorem Contents.finished (h : Contents drain batchSize q) (hfinished : q.isFinished = true) :
    Contents drain batchSize (q.give t .finished) := by
  obtain ⟨good, bad, hd⟩ := h.drained
  refine ⟨h.empty, ?_, h.queued, fun _ _ _ => hfinished, h.pairwise_end id, good, bad, hd.calls,
    hd.returned, hd.errors, hd.failed, ?_⟩
  · rw [batches_give_finished]
    exact h.sized
  · rw [batches_give_finished]
    exact hd.rows

omit [DecidableEq T] in
/-- The streamer had not failed, or the call would not have returned. -/
theorem Drained.call {good bad : List (List R × Except E Nat)} (h : Drained drain q good bad)
    {limit count : Nat} {rows : List R} {streamer : S}
    (hdrain : drain.drainInto q.streamer limit rows (.ok count) streamer) : bad = [] := by
  by_contra hne
  obtain ⟨-, error, herror⟩ := drain.latched (h.failed hne) hdrain
  cases herror

theorem Contents.refill (h : Contents drain batchSize q) (hpos : 0 < batchSize)
    (hready : q.readyBatches = []) (hopen : q.isFinished = false) {rows : List R} {count : Nat}
    {streamer : S}
    (hdrain : drain.drainInto q.streamer (refillSize batchSize) rows (.ok count) streamer) :
    Contents drain batchSize
      { q.refilled batchSize t rows with
        streamer := streamer
        calls := q.calls ++ [(rows, .ok count)] } := by
  have hle : rows.length ≤ batchSize * 4 := (drain.bounded hdrain).trans (Nat.mod_le _ _)
  obtain ⟨good, bad, hd⟩ := h.drained
  obtain rfl := hd.call hdrain
  have hcut := Refill.batched hpos hle
  have hrows := hd.rows
  have hsized := h.sized
  rw [hready] at hrows hsized
  have hgood : ∀ call ∈ good ++ [(rows, Except.ok count)], ∃ count : Nat, call.2 = .ok count := by
    intro call hcall
    rcases List.mem_append.mp hcall with hcall | hcall
    · exact hd.returned call hcall
    · exact ⟨count, by rw [List.mem_singleton.mp hcall]⟩
  rw [refilled, hready]
  generalize (rows.foldl (Refill.emit batchSize) ⟨[], none, []⟩).finish = r at hcut
  obtain ⟨chunk, mine, ready⟩ := r
  have hcalls : q.calls ++ [(rows, Except.ok count)] =
      (good ++ [(rows, Except.ok count)]) ++ [] := by
    rw [hd.calls, List.append_nil, List.append_nil]
  have hflat : (good ++ [(rows, Except.ok count)]).map Prod.fst = good.map Prod.fst ++ [rows] := by
    rw [List.map_append, List.map_singleton]
  have hgiven : ∀ batch ∈ q.batches, batch ≠ [] ∧ batch.length ≤ batchSize :=
    fun batch hbatch => hsized batch (List.mem_append_left _ hbatch)
  have hrows : q.batches.flatten = (good.map Prod.fst).flatten := by
    rw [← hrows, List.flatten_nil, List.append_nil]
  cases mine with
  | some batch =>
    have hbatches : (({ q with readyBatches := ready } : RecordQueue T S R E).give t
        (.batch batch)).batches ++ ready = q.batches ++ (batch :: ready) := by
      rw [batches_give_batch, List.append_assoc]
      rfl
    refine ⟨fun hfinished => absurd hfinished (by simp [give, hopen]), ?_, hcut.queued, ?_,
      h.pairwise_batch hopen _, _, [], hcalls, hgood, nofun, fun hne => absurd rfl hne, ?_⟩
    · intro b hb
      have hb : b ∈ q.batches ++ (batch :: ready) := hbatches ▸ hb
      exact (List.mem_append.mp hb).elim (hgiven b) (hcut.sized b)
    · intro o ho hend
      rcases List.mem_append.mp ho with ho | ho
      · exact h.ended o ho hend
      · rw [List.mem_singleton.mp ho] at hend
        cases hend
    · rw [hflat, List.flatten_append, List.flatten_singleton, ← hcut.rows, ← hrows,
        ← List.flatten_append, ← List.flatten_append]
      exact congrArg List.flatten hbatches
  | none =>
    -- nothing was emitted: the end
    obtain rfl : ready = [] := hcut.first rfl
    obtain rfl : rows = [] := hcut.rows.symm
    refine ⟨fun _ => rfl, ?_, Nat.zero_le 3, fun _ _ _ => rfl, h.pairwise_end id, _, [], hcalls,
      hgood, nofun, fun hne => absurd rfl hne, ?_⟩
    · intro b hb
      have hb : b ∈ (q.give t .finished).batches ++ [] := hb
      rw [List.append_nil, batches_give_finished] at hb
      exact hgiven b hb
    · rw [hflat, List.flatten_append, ← hrows]
      exact congrArg (List.flatten · ++ []) (batches_give_finished (q := q) (t := t))

theorem Contents.refillFailed (h : Contents drain batchSize q) (hready : q.readyBatches = [])
    {rows : List R} {error : E} {streamer : S}
    (hdrain : drain.drainInto q.streamer (refillSize batchSize) rows (.error error) streamer) :
    Contents drain batchSize
      { q.give t (.failed error) with
        readyBatches := []
        streamer := streamer
        calls := q.calls ++ [(rows, .error error)] } := by
  obtain ⟨good, bad, hd⟩ := h.drained
  have hsized := h.sized
  have hrows := hd.rows
  rw [hready] at hsized hrows
  refine ⟨fun _ => rfl, ?_, Nat.zero_le 3, ?_, h.pairwise_end id, good, bad ++ [(rows, .error error)],
    ?_, hd.returned, ?_, fun _ => drain.latch hdrain, ?_⟩
  · rw [← batches_give_failed (q := q) (t := t) error] at hsized
    exact hsized
  · intro o ho hend
    rcases List.mem_append.mp ho with ho | ho
    · exact h.ended o ho hend
    · rw [List.mem_singleton.mp ho] at hend
      cases hend
  · rw [hd.calls, List.append_assoc]
  · intro call hcall
    rcases List.mem_append.mp hcall with hcall | hcall
    · exact hd.errors call hcall
    · exact ⟨error, by rw [List.mem_singleton.mp hcall]⟩
  · rw [← batches_give_failed (q := q) (t := t) error] at hrows
    exact hrows

/-! ### Every reachable state -/

structure Inv (drain : Drain S R E) (batchSize : Nat) (q : RecordQueue T S R E) : Prop where
  locked : Locked q
  contents : Contents drain batchSize q

omit [DecidableEq T] in
theorem holdsQueue_of_eq {pc : Pc} (hpc : q.threads t = pc) (hholds : HoldsQueue pc) :
    HoldsQueue (q.threads t) := hpc ▸ hholds

theorem threads_refilled (rows : List R) :
    (q.refilled batchSize t rows).threads = Function.update q.threads t .idle := by
  simp only [refilled]
  split <;> rfl

omit [DecidableEq T] in
/-- The locks and the threads are not among the contents. -/
theorem Contents.move (h : Contents drain batchSize q) (hready : q'.readyBatches = q.readyBatches)
    (hfinished : q'.isFinished = q.isFinished) (hstreamer : q'.streamer = q.streamer)
    (houtcomes : q'.outcomes = q.outcomes) (hcalls : q'.calls = q.calls) :
    Contents drain batchSize q' := by
  have hbatches : q'.batches = q.batches := by rw [batches, houtcomes, batches]
  obtain ⟨good, bad, hd⟩ := h.drained
  refine ⟨?_, ?_, ?_, ?_, ?_, good, bad, ?_, hd.returned, hd.errors, ?_, ?_⟩
  · rw [hready, hfinished]
    exact h.empty
  · rw [hbatches, hready]
    exact h.sized
  · rw [hready]
    exact h.queued
  · rw [houtcomes, hfinished]
    exact h.ended
  · rw [houtcomes]
    exact h.last
  · rw [hcalls]
    exact hd.calls
  · rw [hstreamer]
    exact hd.failed
  · rw [hbatches, hready]
    exact hd.rows

theorem Inv.step (h : Inv drain batchSize q) (hpos : 0 < batchSize)
    (hstep : Step drain batchSize q q') : Inv drain batchSize q' := by
  obtain ⟨hl, hc⟩ := h
  cases hstep with
  | call hpc =>
    exact ⟨hl.step .lockingQueue False.elim nofun rfl rfl rfl rfl, hc.move rfl rfl rfl rfl rfl⟩
  | lockQueue hpc hfree =>
    exact ⟨hl.acquire .fastPath hfree nofun rfl rfl, hc.move rfl rfl rfl rfl rfl⟩
  | fastPop hpc hready =>
    exact ⟨hl.release (holdsQueue_of_eq hpc trivial) id rfl, hc.pop hready⟩
  | fastFinished hpc hready hfinished =>
    exact ⟨hl.release (holdsQueue_of_eq hpc trivial) id rfl, hc.finished hfinished⟩
  | unlockQueue hpc hready hfinished =>
    exact ⟨hl.release (holdsQueue_of_eq hpc trivial) id rfl, hc.move rfl rfl rfl rfl rfl⟩
  | lockStreamer hpc hfree =>
    exact ⟨hl.step .relockingQueue False.elim nofun rfl rfl rfl rfl, hc.move rfl rfl rfl rfl rfl⟩
  | relockQueue hpc hfree =>
    exact ⟨hl.acquire .checking hfree nofun rfl rfl, hc.move rfl rfl rfl rfl rfl⟩
  | slowPop hpc hready =>
    exact ⟨hl.release (holdsQueue_of_eq hpc trivial) id rfl, hc.pop hready⟩
  | slowFinished hpc hready hfinished =>
    exact ⟨hl.release (holdsQueue_of_eq hpc trivial) id rfl, hc.finished hfinished⟩
  | startRefill hpc hready hfinished =>
    have hlock := hl.queueLock _ (holdsQueue_of_eq hpc trivial)
    exact ⟨hl.step .refilling (fun _ => hlock) (fun _ => ⟨hready, hfinished⟩) rfl rfl rfl rfl,
      hc.move rfl rfl rfl rfl rfl⟩
  | refill hpc hdrain =>
    obtain ⟨hready, hopen⟩ := hl.refilling _ hpc
    exact ⟨hl.release (holdsQueue_of_eq hpc trivial) id (threads_refilled _),
      hc.refill hpos hready hopen hdrain⟩
  | refillFailed hpc hdrain =>
    exact ⟨hl.release (holdsQueue_of_eq hpc trivial) id rfl,
      hc.refillFailed (hl.refilling _ hpc).1 hdrain⟩

theorem Reachable.inv {streamer : S} (h : Reachable drain batchSize streamer q) :
    Inv drain (max batchSize 1) q := by
  induction h with
  | refl => exact ⟨.initial streamer, .initial streamer⟩
  | tail _ hstep ih => exact ih.step (by omega) hstep

/-- What holds of the outcomes of any interleaving. The first group of calls is those that
returned: what they emitted was given out, in order, or is still queued, and nothing that a
failed call emitted was. -/
structure HandedOut (batchSize : Nat) (q : RecordQueue T S R E) : Prop where
  inOrder : ∃ returned failed, q.calls = returned ++ failed ∧
    (∀ call ∈ returned, ∃ count, call.2 = .ok count) ∧
    (∀ call ∈ failed, ∃ error, call.2 = .error error) ∧
    q.batches.flatten ++ q.readyBatches.flatten = (returned.map Prod.fst).flatten
  sized : ∀ batch ∈ q.batches, batch ≠ [] ∧ batch.length ≤ batchSize
  queued : q.readyBatches.length ≤ 3
  last : q.outcomes.Pairwise fun o o' => o.2 = .finished → ¬ o'.2.isBatch

theorem hands_out_once_in_order {streamer : S} (h : Reachable drain batchSize streamer q) :
    HandedOut (max batchSize 1) q := by
  obtain ⟨-, hc⟩ := h.inv
  obtain ⟨good, bad, hd⟩ := hc.drained
  exact ⟨⟨good, bad, hd.calls, hd.returned, hd.errors, hd.rows⟩,
    fun batch hbatch => hc.sized batch (List.mem_append_left _ hbatch), hc.queued, hc.last⟩

/-- A streamer over a list, which does not fail. -/
def listDrain : Drain (List Nat) Nat Empty where
  drainInto s limit rows result s' :=
    rows = s.take limit ∧ result = .ok rows.length ∧ s' = s.drop limit
  failed _ := False
  bounded := by
    rintro s limit _ _ _ ⟨rfl, -, -⟩
    exact List.length_take_le _ _
  latch := by
    rintro s limit _ error _ ⟨-, h, -⟩
    cases h
  latched := False.elim

/-- One thread refills from three rows: two are its own, one is queued. -/
theorem hands_out_two_of_three : ∃ q : RecordQueue Bool (List Nat) Nat Empty,
    q.batches = [[1, 2]] ∧ q.readyBatches = [[3]] ∧ HandedOut 2 q := by
  have hrun : Reachable listDrain 2 [1, 2, 3] _ :=
    Relation.ReflTransGen.refl
      |>.tail (.call (t := true) rfl)
      |>.tail (.lockQueue (t := true) rfl rfl)
      |>.tail (.unlockQueue (t := true) rfl rfl rfl)
      |>.tail (.lockStreamer (t := true) rfl rfl)
      |>.tail (.relockQueue (t := true) rfl rfl)
      |>.tail (.startRefill (t := true) rfl rfl rfl)
      |>.tail (.refill (t := true) rfl ⟨rfl, rfl, rfl⟩)
  exact ⟨_, rfl, rfl, hands_out_once_in_order hrun⟩

end RecordQueue

end RasterH3.DuckDb
