import RasterH3.Proofs.DecodeProgress

/-!
# No notification of the decode pipeline is lost

A thread that sleeps goes on only when it is notified, so that the pipeline makes progress
only if every stretch that gives a sleeper something to do also wakes it. The invariant is
that whoever sleeps would go back to sleep at once: `Waits` says that the stretch it would
run, awake, ends in the same wait and changes nothing.

`Disturbance` is the other half, and says what one stretch can do to the waits of the
others. A job waits for its turn or for bytes, and either the budget has no more room than
before, `Tight`, or `changed` is notified; a push waits for room in the ring, and either
the window has not moved or `notFull` is notified; the consumer waits for one item, and
either it is still missing or `notEmpty` is notified. `push` notifies only for the job the
consumer waits for, and `settle` only if it gave bytes back, so the invariants of the
pipeline are needed here: no job that is pushed lies before the window, and a terminal item
is there only when the queue is closed.

The one gap is the budget's own. `close` and `recycle` notify after they have given the
lock up, and until they do a sleeper may have been overtaken. The sleepers on `changed` are
then excused, since the thread that is to notify them is itself not asleep.
-/

namespace RasterH3.Raster

open OrderedPrefetchQueue Charges

/-! ## What waits look like -/

namespace DecodeBudget

variable {b : DecodeBudget} {need job : Nat} {buffer : Option Buffer} {st st' : BudgetState}

theorem turn_eq_none_iff : b.turn need job st = none ↔ st.nextJob ≠ job ∧ st.closed = false := by
  unfold turn
  split
  next hwait => exact ⟨fun _ => hwait, fun _ => rfl⟩
  next hgo =>
    refine ⟨fun hnone => ?_, fun hwait => absurd hwait hgo⟩
    split at hnone <;> cases hnone

/-- There is no room for the reservation, and nothing left to evict. -/
def Full (b : DecodeBudget) (need : Nat) (buffer : Option Buffer) (st : BudgetState) : Prop :=
  st.closed = false ∧ st.idle = [] ∧
    ¬ (st.used + (need - decodedBufferBytes buffer) ≤ b.limit ∨
      st.used - decodedBufferBytes buffer = 0)

theorem Full.reserve (h : b.Full need buffer st) :
    b.reserve need buffer st = .waiting buffer st := by
  obtain ⟨hopen, hidle, hfull⟩ := h
  have hloop : b.reserveLoop (need - decodedBufferBytes buffer) (decodedBufferBytes buffer)
      st.used [] = (false, st.used, []) := by
    rw [reserveLoop, decide_eq_false hfull]
  obtain ⟨used, nextJob, closed, idle⟩ := st
  obtain rfl : idle = [] := hidle
  obtain rfl : closed = false := hopen
  simp only [DecodeBudget.reserve, hloop, if_neg Bool.false_ne_true]

theorem Acquired.full {r : Multiset Charge} {buffer' : Option Buffer}
    (h : Acquired b need buffer r st (.waiting buffer' st')) : b.Full need buffer' st' := by
  obtain ⟨rfl, -, hopen, -, -, hidle, hfull⟩ := h
  exact ⟨hopen, hidle, hfull⟩

/-- An open budget stays open and leaves the turn where it is, and if nothing was idle then
nothing is, and no fewer bytes are used. -/
def Tight (st st' : BudgetState) : Prop :=
  st.closed = false → st'.closed = false ∧ st'.nextJob = st.nextJob ∧
    (st.idle = [] → st'.idle = [] ∧ st.used ≤ st'.used)

theorem Tight.refl (st : BudgetState) : Tight st st :=
  fun hopen => ⟨hopen, rfl, fun hidle => ⟨hidle, le_rfl⟩⟩

theorem Tight.turn (h : Tight st st') (hwait : b.turn need job st = none) :
    b.turn need job st' = none := by
  obtain ⟨hjob, hopen⟩ := turn_eq_none_iff.mp hwait
  obtain ⟨hopen', hnext, -⟩ := h hopen
  exact turn_eq_none_iff.mpr ⟨hnext ▸ hjob, hopen'⟩

theorem Tight.full (h : Tight st st') (hfull : b.Full need buffer st) :
    b.Full need buffer st' := by
  obtain ⟨hopen, hidle, hnot⟩ := hfull
  obtain ⟨hopen', -, hrest⟩ := h hopen
  obtain ⟨hidle', hused⟩ := hrest hidle
  exact ⟨hopen', hidle', by omega⟩

theorem tight_settle {charged actual : Nat} (hle : ¬ actual < charged) :
    Tight st (DecodeBudget.settle charged actual st) := by
  refine fun hopen => ⟨hopen, rfl, fun hidle => ⟨hidle, ?_⟩⟩
  show st.used ≤ st.used - charged + actual
  omega

/-- Unless it is granted, which is notified, an acquisition makes no room. -/
def NoRoom (st : BudgetState) : Acquire → Prop
  | .waiting _ st' => Tight st st'
  | .refused _ => st.closed = true
  | .granted _ _ => True

theorem noRoom_reserve (b : DecodeBudget) (need : Nat) (buffer : Option Buffer)
    (st : BudgetState) : NoRoom st (b.reserve need buffer st) := by
  have hloop : st.idle = [] →
      (b.reserveLoop (need - decodedBufferBytes buffer) (decodedBufferBytes buffer) st.used
        st.idle).2 = (st.used, []) := by
    intro hidle
    rw [hidle, reserveLoop]
  unfold DecodeBudget.reserve
  by_cases hclosed : st.closed = true
  · simp only [hclosed, if_true]
    exact hclosed
  · simp only [if_neg hclosed]
    rcases hout : b.reserveLoop (need - decodedBufferBytes buffer) (decodedBufferBytes buffer)
      st.used st.idle with ⟨fits, used, idle⟩
    cases fits with
    | true => trivial
    | false =>
        refine fun hopen => ⟨hopen, rfl, fun hidle => ?_⟩
        have heq := hloop hidle
        rw [hout] at heq
        obtain ⟨rfl, rfl⟩ := Prod.mk.inj heq
        exact ⟨rfl, le_rfl⟩

theorem noRoom_turn {a : Acquire} (hturn : b.turn need job st = some a) : NoRoom st a := by
  unfold DecodeBudget.turn at hturn
  split at hturn
  next => cases hturn
  next =>
    split at hturn
    next hidle =>
      obtain rfl := Option.some.inj hturn
      exact noRoom_reserve b need none st
    next buffer idle hidle =>
      obtain rfl := Option.some.inj hturn
      have hkept := noRoom_reserve b need (some buffer) { st with idle }
      -- Some buffer was idle, so that nobody was waiting for bytes.
      cases hout : b.reserve need (some buffer) { st with idle } with
      | waiting buffer' st' =>
          rw [hout] at hkept
          refine fun hopen => ⟨(hkept hopen).1, (hkept hopen).2.1, fun hnil => ?_⟩
          rw [hidle] at hnil
          cases hnil
      | refused st' =>
          rw [hout] at hkept
          exact hkept
      | granted charged st' => trivial

end DecodeBudget

namespace Pipeline

variable {p : DecodePlan}

theorem push_eq_none_iff {q : OrderedPrefetchQueue} {job : Nat} {item : Item}
    {st : OrderedQueueState Item} :
    q.push job item st = none ↔ st.nextRead + q.capacity ≤ job ∧ st.closed = false := by
  unfold OrderedPrefetchQueue.push
  split
  next hwait => exact ⟨fun _ => hwait, fun _ => rfl⟩
  next hgo =>
    refine ⟨fun hnone => ?_, fun hwait => absurd hwait hgo⟩
    split at hnone <;> cases hnone

/-- The thread waits at `c`: the stretch it would run, awake, ends there again and changes
nothing. -/
def Waits (p : DecodePlan) (s : Pipeline) : Actor → Condvar → Prop
  | .worker w, .changed =>
      (∃ job, s.workers[w]? = some (.awaiting job) ∧
        p.budget.turn (p.need job) job s.budget = none) ∨
      ∃ job buffer, s.workers[w]? = some (.reserving job buffer) ∧
        p.budget.Full (p.need job) buffer s.budget
  | .worker w, .notFull =>
      ∃ job charged, s.workers[w]? = some (.pushing job charged) ∧
        p.queue.push job (p.item job charged) s.queue.queue = none
  | .reader, .notEmpty => s.queue.consumer ≠ none ∧ p.queue.mustWait s.queue.queue = true
  | _, _ => False

theorem setWorker_self {s : Pipeline} {w : Nat} {pc : DecodeWorker}
    (hpc : s.workers[w]? = some pc) : s.setWorker w pc = s := by
  obtain ⟨hw, rfl⟩ := List.getElem?_eq_some_iff.mp hpc
  rw [setWorker, List.set_getElem_self]

theorem Waits.worker {s : Pipeline} {w : Nat} {c : Condvar} {pc : DecodeWorker}
    (h : Waits p s (.worker w) c) (hpc : s.workers[w]? = some pc) :
    (∃ job, pc = .awaiting job ∧ p.budget.turn (p.need job) job s.budget = none) ∨
      (∃ job buffer, pc = .reserving job buffer ∧ p.budget.Full (p.need job) buffer s.budget) ∨
        ∃ job charged, pc = .pushing job charged ∧
          p.queue.push job (p.item job charged) s.queue.queue = none := by
  cases c with
  | changed =>
      rcases h with ⟨job, hpc', hturn⟩ | ⟨job, buffer, hpc', hfull⟩
      · exact .inl ⟨job, Option.some.inj (hpc.symm.trans hpc'), hturn⟩
      · exact .inr (.inl ⟨job, buffer, Option.some.inj (hpc.symm.trans hpc'), hfull⟩)
  | notFull =>
      obtain ⟨job, charged, hpc', hpush⟩ := h
      exact .inr (.inr ⟨job, charged, Option.some.inj (hpc.symm.trans hpc'), hpush⟩)
  | notEmpty => cases h

theorem Waits.blocked {s : Pipeline} {w : Nat} {c : Condvar} {pc : DecodeWorker}
    (h : Waits p s (.worker w) c) (hpc : s.workers[w]? = some pc) : Blocked pc := by
  rcases h.worker hpc with ⟨job, rfl, -⟩ | ⟨job, buffer, rfl, -⟩ | ⟨job, charged, rfl, -⟩ <;>
    exact trivial

theorem Waits.reader {s : Pipeline} {c : Condvar} (h : Waits p s .reader c) :
    s.queue.consumer ≠ none ∧ p.queue.mustWait s.queue.queue = true := by
  cases c with
  | notEmpty => exact h
  | changed => cases h
  | notFull => cases h

theorem actor_stretch (a : Acquire) (actor : Actor) : (a.stretch actor).actor = actor := by
  cases a <;> rfl

theorem actor_drainStretch (o : DrainOutcome Item) : (drainStretch o).actor = .reader := by
  unfold drainStretch
  split <;> rfl

theorem actor_recycleStretch (frees : Bool) : (recycleStretch frees).actor = .reader := by
  cases frees <;> rfl

/-- Awake, a thread that waits changes nothing. -/
theorem Waits.stays {σ : Stretch} {s s' : Pipeline} {c : Condvar} (h : Inv p s)
    (hwaits : Waits p s σ.actor c) (hstep : Advance p σ s s') : s' = s := by
  cases hstep with
  | check hpc => exact (hwaits.blocked hpc).elim
  | count hpc => exact (hwaits.blocked hpc).elim
  | awaitTurn => rfl
  | @turn _ w job a hpc hturn =>
      rw [actor_stretch] at hwaits
      rcases hwaits.worker hpc with ⟨_, hjob, hnone⟩ | ⟨_, _, hjob, -⟩ | ⟨_, _, hjob, -⟩
      · obtain rfl := DecodeWorker.awaiting.inj hjob
        rw [hturn] at hnone
        cases hnone
      · cases hjob
      · cases hjob
  | @retry _ w job buffer hpc =>
      rw [actor_stretch] at hwaits
      rcases hwaits.worker hpc with ⟨_, hjob, -⟩ | ⟨_, _, hjob, hfull⟩ | ⟨_, _, hjob, -⟩
      · cases hjob
      · obtain ⟨rfl, rfl⟩ := DecodeWorker.reserving.inj hjob
        rw [hfull.reserve]
        exact setWorker_self hpc
      · cases hjob
  | decoded hpc => exact (hwaits.blocked hpc).elim
  | openFailed hpc => exact (hwaits.blocked hpc).elim
  | panicked hpc => exact (hwaits.blocked hpc).elim
  | closeBudget hpc => exact (hwaits.blocked hpc).elim
  | fail hpc => exact (hwaits.blocked hpc).elim
  | awaitRoom => rfl
  | push hpc hpush =>
      rcases hwaits.worker hpc with ⟨_, hjob, -⟩ | ⟨_, _, hjob, -⟩ | ⟨_, _, hjob, hnone⟩
      · cases hjob
      · cases hjob
      · obtain ⟨rfl, rfl⟩ := DecodeWorker.pushing.inj hjob
        rw [hpush] at hnone
        cases hnone
  | giveBack hpc => exact (hwaits.blocked hpc).elim
  | drain maxBatch hreader hidle hrecycled =>
      rw [actor_drainStretch] at hwaits
      exact absurd hidle hwaits.reader.1
  | @wake _ pc call hasleep =>
      rw [actor_drainStretch] at hwaits
      obtain ⟨rfl, ⟨maxBatch, rfl⟩, -, -⟩ := h.desk.asleep pc call hasleep
      rcases resumeFirst_one p.queue maxBatch s.queue.queue with ⟨-, hout⟩ | ⟨hready, -⟩
      · simp only [OrderedPrefetchQueue.resume, hout, Pipeline.afterDrain, QueueSystem.afterDrain,
          drained, ends, List.append_nil, ← hasleep]
        rfl
      · rw [hwaits.reader.2] at hready
        cases hready
  | recycle hheld hreader =>
      rw [actor_recycleStretch] at hwaits
      cases hconsumer : s.queue.consumer with
      | none => exact absurd hconsumer hwaits.reader.1
      | some c =>
          rw [(h.desk.asleep c.1 c.2 hconsumer).2.2.1] at hheld
          cases hheld
  | finishDrop hreader =>
      cases hconsumer : s.queue.consumer with
      | none => exact absurd hconsumer hwaits.reader.1
      | some c =>
          have hdraining := (h.desk.asleep c.1 c.2 hconsumer).2.2.2
          rw [hreader] at hdraining
          cases hdraining

/-! ## What a stretch does to the waits of others -/

/-- An open queue stays open, and its window stays where it is. -/
def SameWindow (st st' : OrderedQueueState Item) : Prop :=
  st.closed = false → st'.closed = false ∧ st'.nextRead = st.nextRead

/-- What a stretch does to the waits of others. -/
structure Disturbance (p : DecodePlan) (σ : Stretch) (s s' : Pipeline) : Prop where
  workers : ∀ w, σ.actor ≠ .worker w → s'.workers[w]? = s.workers[w]?
  consumer : σ.actor ≠ .reader → s'.queue.consumer = s.queue.consumer
  budget : .changed ∈ σ.notified ∨ σ.later = true ∨ DecodeBudget.Tight s.budget s'.budget
  room : .notFull ∈ σ.notified ∨ SameWindow s.queue.queue s'.queue.queue
  items : σ.actor ≠ .reader → .notEmpty ∈ σ.notified ∨
    (p.queue.mustWait s.queue.queue = true → p.queue.mustWait s'.queue.queue = true)

theorem sameWindow_refl (st : OrderedQueueState Item) : SameWindow st st :=
  fun hopen => ⟨hopen, rfl⟩

theorem Disturbance.of_worker {σ : Stretch} {s s' : Pipeline} {w : Nat} {pc : DecodeWorker}
    (hactor : σ.actor = .worker w) (hworkers : s'.workers = s.workers.set w pc)
    (hqueue : s'.queue = s.queue)
    (hbudget : .changed ∈ σ.notified ∨ σ.later = true ∨
      DecodeBudget.Tight s.budget s'.budget) : Disturbance p σ s s' where
  workers := by
    intro w' hne
    have hother : w ≠ w' := fun heq => hne (hactor.trans (congrArg Actor.worker heq))
    rw [hworkers, List.getElem?_set_ne hother]
  consumer := fun _ => by rw [hqueue]
  budget := hbudget
  room := .inr (by rw [hqueue]; exact sameWindow_refl _)
  items := fun _ => .inr (by rw [hqueue]; exact id)

theorem Disturbance.of_reader {σ : Stretch} {s s' : Pipeline} (hactor : σ.actor = .reader)
    (hworkers : s'.workers = s.workers)
    (hbudget : .changed ∈ σ.notified ∨ σ.later = true ∨
      DecodeBudget.Tight s.budget s'.budget)
    (hroom : .notFull ∈ σ.notified ∨ SameWindow s.queue.queue s'.queue.queue) :
    Disturbance p σ s s' where
  workers := fun _ _ => by rw [hworkers]
  consumer := fun hne => absurd hactor hne
  budget := hbudget
  room := hroom
  items := fun hne => absurd hactor hne

theorem Disturbance.refl (σ : Stretch) (s : Pipeline) : Disturbance p σ s s where
  workers := fun _ _ => rfl
  consumer := fun _ => rfl
  budget := .inr (.inr (.refl _))
  room := .inr (sameWindow_refl _)
  items := fun _ => .inr id

theorem Disturbance.afterAcquire {s : Pipeline} {w job : Nat} {a : Acquire}
    (h : DecodeBudget.NoRoom s.budget a) :
    Disturbance p (a.stretch (.worker w)) s (s.afterAcquire w job a) := by
  cases a with
  | waiting buffer st' => exact .of_worker rfl rfl rfl (.inr (.inr h))
  | refused st' =>
      refine .of_worker rfl rfl rfl (.inr (.inr fun hopen => ?_))
      rw [show s.budget.closed = true from h] at hopen
      cases hopen
  | granted charged st' => exact .of_worker rfl rfl rfl (.inl List.mem_cons_self)

theorem Disturbance.settle {s : Pipeline} {w charged actual : Nat} (pc : DecodeWorker) :
    Disturbance p (settleStretch (.worker w) charged actual) s
      { s.setWorker w pc with budget := DecodeBudget.settle charged actual s.budget } := by
  refine .of_worker rfl rfl rfl ?_
  by_cases hless : actual < charged
  · left
    simp [settleStretch, hless]
  · exact .inr (.inr (DecodeBudget.tight_settle hless))

/-- No job that is not answered lies before the window of an open queue. -/
theorem Desk.nextRead_le {s : Pipeline} (h : Desk p s) (hopen : s.queue.queue.closed = false)
    {job : Nat} (hnew : job ∉ s.queue.answered.map Prod.fst) : s.queue.queue.nextRead ≤ job := by
  obtain ⟨result, hqueue⟩ := h.queue
  have hphase := hqueue.phase.resolve_right fun hs => by
    rw [hs.closed] at hopen
    cases hopen
  by_contra hlt
  exact hnew (hqueue.answered job (hphase.ring.delivered_pushed job (by omega)))

/-- A terminal item is there only when the queue is closed. -/
theorem Desk.closed_of_terminal {s : Pipeline} (h : Desk p s)
    (hterminal : s.queue.queue.terminalItem ≠ none) : s.queue.queue.closed = true := by
  obtain ⟨result, hqueue⟩ := h.queue
  rcases hqueue.phase with ho | hs
  · exact ho.failed_closed (ho.terminal ▸ hterminal)
  · exact hs.closed

/-- A push leaves the consumer waiting, unless it is for the job the consumer waits for. -/
theorem Inv.items_push {s : Pipeline} (h : Inv p s) {w job charged : Nat} {ok : Bool}
    {st : OrderedQueueState Item} (hpc : s.workers[w]? = some (.pushing job charged))
    (hpush : p.queue.push job (p.item job charged) s.queue.queue = some (ok, st)) :
    .notEmpty ∈ (pushStretch (.worker w) ok job st).notified ∨
      (p.queue.mustWait s.queue.queue = true → p.queue.mustWait st = true) := by
  obtain ⟨⟨-, -, hnew⟩, -⟩ : Taken p s job ∧ job < s.budget.nextJob := h.crew.ok w _ hpc
  rcases QueueSystem.push_cases hpush with ⟨rfl, rfl, -⟩ | ⟨rfl, hopen, hroom, rfl⟩
  · exact .inr id
  · by_cases hnext : job = s.queue.queue.nextRead
    · left
      simp [pushStretch, hnext]
    · refine .inr fun hwait => ?_
      have hle := h.desk.nextRead_le hopen hnew
      have hne : job % p.queue.capacity ≠ s.queue.queue.nextRead % p.queue.capacity :=
        fun hmod => hnext (eq_of_mod_eq_of_window hle hroom le_rfl
          (Nat.lt_add_of_pos_right (queue_capacity_pos p)) hmod)
      simp only [mustWait, slot, List.getElem?_set_ne hne] at hwait ⊢
      exact hwait

/-- A drain publishes the room it makes. -/
theorem Inv.room_drain {s : Pipeline} (h : Inv p s) (maxBatch : Nat) :
    let o := p.queue.resumeFirst (DrainCall.start Item 1 maxBatch) s.queue.queue
    .notFull ∈ (drainStretch o).notified ∨ SameWindow s.queue.queue
      (s.afterDrain (DrainCall.start Item 1 maxBatch) o).queue.queue := by
  rcases resumeFirst_one p.queue maxBatch s.queue.queue with
    ⟨-, hout⟩ | ⟨-, batch, terminal, st, hout, -, -, -, hnothing⟩
  · simp only [hout]
    exact .inr (sameWindow_refl _)
  · simp only [hout]
    cases batch with
    | nil =>
        refine .inr fun hopen => ?_
        rcases hnothing rfl with rfl | hterminal
        · exact ⟨hopen, rfl⟩
        · rw [h.desk.closed_of_terminal hterminal] at hopen
          cases hopen
    | cons item batch => exact .inl List.mem_cons_self

theorem Inv.disturbance {σ : Stretch} {s s' : Pipeline} (h : Inv p s) (hstep : Step p σ s s') :
    Disturbance p σ s s' := by
  cases hstep with
  | drop hidle hreader =>
      exact .of_reader rfl rfl (.inr (.inr (.refl _))) (.inl (by simp))
  | advance hadvance =>
    cases hadvance with
    | check hpc => exact .of_worker rfl rfl rfl (.inr (.inr (.refl _)))
    | count hpc => exact .of_worker rfl rfl rfl (.inr (.inr (.refl _)))
    | awaitTurn => exact .refl _ _
    | turn hpc hturn => exact .afterAcquire (DecodeBudget.noRoom_turn hturn)
    | retry hpc => exact .afterAcquire (DecodeBudget.noRoom_reserve ..)
    | @decoded _ w job charged hpc => exact .settle (.pushing job charged)
    | openFailed hpc => exact .settle .closing
    | panicked hpc => exact .of_worker rfl rfl rfl (.inr (.inr (.refl _)))
    | closeBudget hpc => exact .of_worker rfl rfl rfl (.inr (.inl rfl))
    | @fail _ w hpc =>
        have hworker : Disturbance p { actor := .worker w } s (s.setWorker w .exited) :=
          .of_worker rfl rfl rfl (.inr (.inr (.refl _)))
        exact
          { workers := hworker.workers
            consumer := hworker.consumer
            budget := .inr (.inr (.refl _))
            room := .inl (by simp)
            items := fun _ => .inl (by simp) }
    | awaitRoom => exact .refl _ _
    | @push _ w job charged ok st hpc hpush =>
        have hworker : Disturbance p { actor := .worker w } s
            (s.setWorker w (if ok then .top else .returning job charged)) :=
          .of_worker rfl rfl rfl (.inr (.inr (.refl _)))
        refine
          { workers := hworker.workers
            consumer := hworker.consumer
            budget := .inr (.inr (.refl _))
            room := .inr ?_
            items := fun _ => h.items_push hpc hpush }
        rcases QueueSystem.push_cases hpush with ⟨-, rfl, -⟩ | ⟨-, -, -, rfl⟩
        · exact sameWindow_refl _
        · exact sameWindow_refl s.queue.queue
    | giveBack hpc => exact .settle .exited
    | drain maxBatch hreader hidle hrecycled =>
        exact .of_reader (actor_drainStretch _) rfl (.inr (.inr (.refl _))) (h.room_drain maxBatch)
    | @wake _ pc call hasleep =>
        obtain ⟨rfl, ⟨maxBatch, rfl⟩, -, -⟩ := h.desk.asleep pc call hasleep
        exact .of_reader (actor_drainStretch _) rfl (.inr (.inr (.refl _))) (h.room_drain maxBatch)
    | recycle hheld hreader =>
        refine .of_reader (actor_recycleStretch _) rfl ?_ (.inr (sameWindow_refl _))
        cases p.budget.frees s.budget with
        | true => exact .inr (.inl rfl)
        | false => exact .inl List.mem_cons_self
    | finishDrop hreader =>
        exact .of_reader rfl rfl (.inr (.inl rfl)) (.inr (sameWindow_refl _))

/-- Who waits goes on waiting, unless it is notified. -/
theorem Waits.after {σ : Stretch} {s s' : Pipeline} {a : Actor} {c : Condvar}
    (hwaits : Waits p s a c) (hd : Disturbance p σ s s') (hother : σ.actor ≠ a)
    (hnot : c ∉ σ.notified) (hlater : c = .changed → σ.later = false) : Waits p s' a c := by
  have htight : c = .changed → DecodeBudget.Tight s.budget s'.budget := by
    rintro rfl
    rcases hd.budget with hnotified | hl | htight
    · exact absurd hnotified hnot
    · rw [hlater rfl] at hl
      cases hl
    · exact htight
  cases a with
  | worker w =>
      cases c with
      | changed =>
          rcases hwaits with ⟨job, hpc, hturn⟩ | ⟨job, buffer, hpc, hfull⟩
          · exact .inl ⟨job, (hd.workers w hother).trans hpc, (htight rfl).turn hturn⟩
          · exact .inr ⟨job, buffer, (hd.workers w hother).trans hpc, (htight rfl).full hfull⟩
      | notFull =>
          obtain ⟨job, charged, hpc, hpush⟩ := hwaits
          refine ⟨job, charged, (hd.workers w hother).trans hpc, ?_⟩
          rw [push_eq_none_iff] at hpush ⊢
          obtain ⟨hopen, hnext⟩ := hd.room.resolve_left hnot hpush.2
          exact ⟨hnext ▸ hpush.1, hopen⟩
      | notEmpty => cases hwaits
  | reader =>
      cases c with
      | notEmpty =>
          refine ⟨hd.consumer hother ▸ hwaits.1, ?_⟩
          exact (hd.items hother).resolve_left hnot hwaits.2
      | changed => cases hwaits
      | notFull => cases hwaits

theorem Waits.of_acquired {s : Pipeline} {w job : Nat} {old : DecodeWorker} {a : Acquire}
    {buffer : Option Buffer} {r : Multiset Charge} {st : BudgetState} {c : Condvar}
    (hpc : s.workers[w]? = some old) (ha : p.budget.Acquired (p.need job) buffer r st a)
    (hsleeps : (a.stretch (.worker w)).sleeps = some c) :
    Waits p (s.afterAcquire w job a) (a.stretch (.worker w)).actor c := by
  have hw : w < s.workers.length := (List.getElem?_eq_some_iff.mp hpc).1
  cases a with
  | waiting buffer' st' =>
      obtain rfl := Option.some.inj hsleeps
      refine .inr ⟨job, buffer', List.getElem?_set_self hw, ?_⟩
      exact ha.1 ▸ ha.full
  | refused st' => cases hsleeps
  | granted charged st' => cases hsleeps

theorem Waits.of_drain {s : Pipeline} {c : Condvar} (maxBatch : Nat) :
    let o := p.queue.resumeFirst (DrainCall.start Item 1 maxBatch) s.queue.queue
    (drainStretch o).sleeps = some c →
      Waits p (s.afterDrain (DrainCall.start Item 1 maxBatch) o) (drainStretch o).actor c := by
  intro o hsleeps
  rw [actor_drainStretch]
  rcases resumeFirst_one p.queue maxBatch s.queue.queue with
    ⟨hwait, hout⟩ | ⟨-, batch, terminal, st, hout, -⟩
  · simp only [o, hout] at hsleeps ⊢
    obtain rfl := Option.some.inj hsleeps
    exact ⟨nofun, hwait⟩
  · simp only [o, hout] at hsleeps
    cases batch <;> cases hsleeps

/-- Who falls asleep has something to wait for. -/
theorem Waits.of_sleeps {σ : Stretch} {s s' : Pipeline} {c : Condvar} (h : Inv p s)
    (hstep : Step p σ s s') (hsleeps : σ.sleeps = some c) : Waits p s' σ.actor c := by
  cases hstep with
  | drop => cases hsleeps
  | advance hadvance =>
    cases hadvance with
    | awaitTurn hpc hturn =>
        obtain rfl := Option.some.inj hsleeps
        exact .inl ⟨_, hpc, hturn⟩
    | @turn _ w job a hpc hturn =>
        obtain ⟨r, buffer, st, -, -, -, -, ha⟩ := turn_acquired h.balanced hpc hturn
        exact .of_acquired hpc ha hsleeps
    | @retry _ w job buffer hpc =>
        obtain ⟨r, -, -, ha⟩ := retry_acquired h.balanced hpc
        exact .of_acquired hpc ha hsleeps
    | awaitRoom hpc hpush =>
        obtain rfl := Option.some.inj hsleeps
        exact ⟨_, _, hpc, hpush⟩
    | drain maxBatch hreader hidle hrecycled => exact .of_drain maxBatch hsleeps
    | @wake _ pc call hasleep =>
        obtain ⟨rfl, ⟨maxBatch, rfl⟩, -, -⟩ := h.desk.asleep pc call hasleep
        exact .of_drain maxBatch hsleeps
    | @recycle _ i buffer hheld hreader =>
        cases hfrees : p.budget.frees s.budget <;> rw [hfrees] at hsleeps <;> cases hsleeps
    | check | count | decoded | openFailed | panicked | closeBudget | fail | push | giveBack |
      finishDrop => cases hsleeps

end Pipeline

/-! ## Threads -/

namespace Threads

variable {p : DecodePlan}

/-- Who sleeps waits, or is about to be notified. -/
structure Inv (p : DecodePlan) (t : Threads) : Prop where
  pipe : Pipeline.Inv p t.pipe
  asleep : ∀ a c, t.asleep a = some c →
    Pipeline.Waits p t.pipe a c ∨ c = .changed ∧ ∃ b, t.notifying b = true

theorem notifyAll_eq_some {notified : List Condvar} {asleep : Actor → Option Condvar} {a : Actor}
    {c : Condvar} (h : notifyAll notified asleep a = some c) :
    asleep a = some c ∧ c ∉ notified := by
  obtain ⟨hasleep, hnot⟩ := Option.filter_eq_some_iff.mp h
  exact ⟨hasleep, by simpa using hnot⟩

theorem inv_initial (p : DecodePlan) : Inv p (initial p) :=
  ⟨Pipeline.inv_initial p, nofun⟩

theorem Inv.run {t : Threads} {σ : Stretch} {s : Pipeline} (h : Inv p t)
    (hrunning : t.Running σ.actor) (hstep : Pipeline.Step p σ t.pipe s) :
    Inv p (t.afterStretch σ s) := by
  refine ⟨h.pipe.step hstep, fun a c hasleep => ?_⟩
  change Function.update (notifyAll σ.notified t.asleep) σ.actor σ.sleeps a = some c at hasleep
  show Pipeline.Waits p s a c ∨
    c = .changed ∧ ∃ b, Function.update t.notifying σ.actor σ.later b = true
  by_cases ha : a = σ.actor
  · subst ha
    rw [Function.update_self] at hasleep
    exact .inl (.of_sleeps h.pipe hstep hasleep)
  · rw [Function.update_of_ne ha] at hasleep
    obtain ⟨hasleep, hnot⟩ := notifyAll_eq_some hasleep
    by_cases hlater : c = .changed ∧ σ.later = true
    · exact .inr ⟨hlater.1, σ.actor, by rw [Function.update_self, hlater.2]⟩
    · rcases h.asleep a c hasleep with hwaits | ⟨hc, b, hb⟩
      · refine .inl (hwaits.after (h.pipe.disturbance hstep) (Ne.symm ha) hnot fun hc => ?_)
        exact Bool.eq_false_iff.mpr fun hl => hlater ⟨hc, hl⟩
      · -- Whoever is about to notify is not running.
        have hne : b ≠ σ.actor := by
          rintro rfl
          rw [hrunning.2] at hb
          cases hb
        exact .inr ⟨hc, b, by rw [Function.update_of_ne hne]; exact hb⟩

theorem Inv.step {t t' : Threads} (h : Inv p t) (hstep : Step p t t') : Inv p t' := by
  cases hstep with
  | run hrunning hstep => exact h.run hrunning hstep
  | notify hnotifying =>
      refine ⟨h.pipe, fun a c hasleep => ?_⟩
      obtain ⟨hasleep, hnot⟩ := notifyAll_eq_some hasleep
      exact .inl ((h.asleep a c hasleep).resolve_right fun hc => hnot (by simp [hc.1]))
  | spurious b =>
      refine ⟨h.pipe, fun a c hasleep => ?_⟩
      change Function.update t.asleep b none a = some c at hasleep
      by_cases ha : a = b
      · subst ha
        rw [Function.update_self] at hasleep
        cases hasleep
      · rw [Function.update_of_ne ha] at hasleep
        exact h.asleep a c hasleep

theorem Reachable.inv {t : Threads} (h : Reachable p t) : Inv p t := by
  induction h with
  | refl => exact inv_initial p
  | tail _ hstep ih => exact ih.step hstep

/-- A thread that does not sleep can go on: it notifies, as it is about to, or runs a stretch
that changes something. Nobody is woken for no reason. -/
def Enabled (p : DecodePlan) (t : Threads) : Prop :=
  (∃ a, t.notifying a = true) ∨
    ∃ σ s, t.Running σ.actor ∧ Pipeline.Advance p σ t.pipe s ∧ s ≠ t.pipe

theorem Inv.enabled {t : Threads} (h : Inv p t) (hnot : ¬ t.pipe.Finished) : Enabled p t := by
  by_cases hnotifying : ∃ a, t.notifying a = true
  · exact .inl hnotifying
  obtain ⟨σ, s, hadvance, hne⟩ := Pipeline.enabled_of_not_finished h.pipe hnot
  refine .inr ⟨σ, s, ⟨?_, ?_⟩, hadvance, hne⟩
  · -- Asleep, it would wait, and its stretch would change nothing.
    cases hasleep : t.asleep σ.actor with
    | none => rfl
    | some c =>
        have hwaits := (h.asleep σ.actor c hasleep).resolve_right fun hc => hnotifying hc.2
        exact absurd (hwaits.stays h.pipe hadvance) hne
  · cases hn : t.notifying σ.actor with
    | false => rfl
    | true => exact absurd ⟨σ.actor, hn⟩ hnotifying

end Threads

end RasterH3.Raster
