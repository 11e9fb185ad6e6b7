import RasterH3.Proofs.DecodeCrew

/-!
# The decode pipeline does not deadlock

Three kinds of threads can wait for each other. A worker waits for its turn at the budget,
for bytes, or for room in the queue; the consumer waits for the next job. A state where
nobody can move would need a job that waits for bytes while others hold them.

There is none. The job the queue waits for is the next to be granted, because jobs are
granted in order and every job granted before it has been drained; what was drained is
recycled by the consumer before it sleeps. So nothing is charged but what that job has
itself (`alone_of_waiting`), and the budget admits a job when nothing else is charged,
however large it is. Room in the queue is no obstacle either: the job it waits for has its
slot free, and the others are at most a ring ahead.

`enabled_of_not_finished` goes through what the workers may be doing. If one of them is not
blocked it can go on; if all are blocked, one has the job at the head; if all are gone, the
queue is closed or everything was pushed, and the consumer sees the end.

Here a thread is taken to be awake. `enabled_of_not_finished` finds a thread whose next
stretch changes something; that such a thread does not sleep is the business of the
notifications, and is shown where they are.
-/

namespace RasterH3.Raster

open OrderedPrefetchQueue Charges

namespace Pipeline

variable {p : DecodePlan}

/-! ## Progress -/

/-- The workers are gone, and the consumer has seen the end of the stream or has dropped
the reader. -/
structure Finished (s : Pipeline) : Prop where
  workers : ∀ pc ∈ s.workers, pc = .exited
  reader : s.reader = .stopped ∨ s.reader = .dropped
  held : s.reader = .stopped → s.held = []

/-- Somebody, if awake, can go on, and something changes. -/
def Enabled (p : DecodePlan) (s : Pipeline) : Prop := ∃ σ s', Advance p σ s s' ∧ s' ≠ s

theorem enabled_of_worker {σ : Stretch} {s s' : Pipeline} {w : Nat} {old pc : DecodeWorker}
    (hpc : s.workers[w]? = some old) (hstep : Advance p σ s s')
    (hworkers : s'.workers = s.workers.set w pc) (hne : pc ≠ old) : Enabled p s := by
  refine ⟨σ, s', hstep, fun heq => hne ?_⟩
  have hw : w < s.workers.length := (List.getElem?_eq_some_iff.mp hpc).1
  have hnew : s'.workers[w]? = some pc := by rw [hworkers, List.getElem?_set_self hw]
  rw [heq, hpc] at hnew
  exact (Option.some.inj hnew).symm

/-- A worker that waits for its turn, for bytes, or for room in the queue, or is gone. -/
def Blocked : DecodeWorker → Prop
  | .awaiting _ => True
  | .reserving _ _ => True
  | .pushing _ _ => True
  | .exited => True
  | _ => False

theorem enabled_of_not_blocked {s : Pipeline} {w : Nat} {pc : DecodeWorker}
    (hpc : s.workers[w]? = some pc) (hblocked : ¬ Blocked pc) : Enabled p s := by
  cases pc with
  | top =>
      refine enabled_of_worker hpc (.check hpc) rfl ?_
      split <;> nofun
  | counting =>
      refine enabled_of_worker hpc (.count hpc) rfl ?_
      split <;> nofun
  | decoding job charged => exact enabled_of_worker hpc (.decoded hpc) rfl nofun
  | returning job charged => exact enabled_of_worker hpc (.giveBack hpc) rfl nofun
  | closing => exact enabled_of_worker hpc (.closeBudget hpc) rfl nofun
  | failing => exact enabled_of_worker hpc (.fail hpc) rfl nofun
  | awaiting job => exact absurd trivial hblocked
  | reserving job buffer => exact absurd trivial hblocked
  | pushing job charged => exact absurd trivial hblocked
  | exited => exact absurd trivial hblocked

theorem enabled_of_push {s : Pipeline} {w job charged : Nat}
    (hpc : s.workers[w]? = some (.pushing job charged))
    (hroom : s.queue.queue.closed = true ∨ job < s.queue.queue.nextRead + p.queue.capacity) :
    Enabled p s := by
  have hpush : ∃ ok st, p.queue.push job (p.item job charged) s.queue.queue = some (ok, st) := by
    unfold OrderedPrefetchQueue.push
    split
    next hwait =>
      rcases hroom with hclosed | hlt
      · rw [hclosed] at hwait
        cases hwait.2
      · omega
    next =>
      split
      next => exact ⟨_, _, rfl⟩
      next => exact ⟨_, _, rfl⟩
  obtain ⟨ok, st, hpush⟩ := hpush
  refine enabled_of_worker hpc (.push hpc hpush) rfl ?_
  cases ok <;> nofun

theorem enabled_of_turn {s : Pipeline} {w job : Nat} (hpc : s.workers[w]? = some (.awaiting job))
    (hmine : s.budget.nextJob = job ∨ s.budget.closed = true) : Enabled p s := by
  have hturn : ∃ a, p.budget.turn (p.need job) job s.budget = some a := by
    unfold DecodeBudget.turn
    split
    next hwait =>
      rcases hmine with heq | hclosed
      · exact absurd heq hwait.1
      · rw [hclosed] at hwait
        cases hwait.2
    next =>
      split
      next => exact ⟨_, rfl⟩
      next => exact ⟨_, rfl⟩
  obtain ⟨a, hturn⟩ := hturn
  cases a with
  | waiting buffer st => exact enabled_of_worker hpc (.turn hpc hturn) rfl nofun
  | refused st => exact enabled_of_worker hpc (.turn hpc hturn) rfl nofun
  | granted charged st => exact enabled_of_worker hpc (.turn hpc hturn) rfl nofun

/-- Buffers in hand can be recycled. -/
theorem enabled_of_held {s : Pipeline} (hheld : s.held ≠ [])
    (hreader : s.reader = .draining ∨ s.reader = .stopped) : Enabled p s := by
  cases hh : s.held with
  | nil => exact absurd hh hheld
  | cons buffer held =>
      refine ⟨_, _, @Advance.recycle p s 0 buffer (by rw [hh]; rfl) hreader, fun heq => ?_⟩
      have hlen := congrArg (fun t : Pipeline => t.held.length) heq
      simp only [hh, List.eraseIdx_cons_zero, List.length_cons] at hlen
      omega

/-- A drain that does not sleep changes what the consumer has. -/
theorem enabled_of_drain {s : Pipeline} (h : Inv p s) (hreader : s.reader = .draining)
    (hheld : s.held = []) (hgo : s.queue.consumer = none ∨ p.queue.mustWait s.queue.queue = false) :
    Enabled p s := by
  cases hconsumer : s.queue.consumer with
  | some c =>
      obtain ⟨pc, call⟩ := c
      obtain ⟨rfl, ⟨maxBatch, rfl⟩, -, -⟩ := h.desk.asleep pc call hconsumer
      have hready := hgo.resolve_left (by rw [hconsumer]; nofun)
      refine ⟨_, _, .wake hconsumer, fun heq => ?_⟩
      rcases resumeFirst_one p.queue maxBatch s.queue.queue with
        ⟨hwait, -⟩ | ⟨-, batch, terminal, st, hout, -⟩
      · rw [hready] at hwait
        cases hwait
      · have hnone := congrArg (fun t : Pipeline => t.queue.consumer) heq
        simp only [OrderedPrefetchQueue.resume, hout, Pipeline.afterDrain, QueueSystem.afterDrain,
          hconsumer] at hnone
        cases hnone
  | none =>
      refine ⟨_, _, .drain 1 hreader hconsumer hheld, fun heq => ?_⟩
      rcases resumeFirst_one p.queue 1 s.queue.queue with
        ⟨-, hout⟩ | ⟨-, batch, terminal, st, hout, -⟩
      · have hsome := congrArg (fun t : Pipeline => t.queue.consumer) heq
        simp only [hout, Pipeline.afterDrain, QueueSystem.afterDrain, hconsumer] at hsome
        cases hsome
      · have hlen := congrArg (fun t : Pipeline => t.queue.delivered.length) heq
        simp only [hout, Pipeline.afterDrain, QueueSystem.afterDrain, List.length_append] at hlen
        have hnil : QueueSystem.deliveries (DrainCall.start Item 1 1) batch terminal = [] :=
          List.length_eq_zero_iff.mp (by omega)
        cases batch with
        | nil =>
            cases terminal with
            | none => cases hnil
            | some item => cases hnil
        | cons item batch => cases terminal <;> cases hnil

/-- Every slot of the ring is the slot of a job of the window. -/
theorem exists_job_of_slot {cap i : Nat} (hi : i < cap) (lo : Nat) :
    ∃ job, lo ≤ job ∧ job < lo + cap ∧ job % cap = i := by
  have hcap : 0 < cap := by omega
  have hmod := Nat.mod_lt lo hcap
  refine ⟨lo + (i + cap - lo % cap) % cap, Nat.le_add_right _ _, ?_, ?_⟩
  · have := Nat.mod_lt (i + cap - lo % cap) hcap
    omega
  · rw [Nat.add_mod_mod, ← Nat.mod_add_mod]
    have : lo % cap + (i + cap - lo % cap) = i + cap := by omega
    rw [this, Nat.add_mod_right, Nat.mod_eq_of_lt hi]

/-- The next job to be granted is the one the queue waits for, and everybody else waits:
then nothing is charged but what that job has in hand. -/
theorem alone_of_waiting {s : Pipeline} (h : Inv p s) (htrouble : ¬ Troubled s)
    (hblocked : ∀ (w : Nat) pc, s.workers[w]? = some pc → Blocked pc) (hheld : s.held = [])
    {w : Nat} {buffer : Option Buffer}
    (hpc : s.workers[w]? = some (.reserving s.queue.queue.nextRead buffer))
    {r : Multiset Charge} (hbusy : busy p s = buffer.getD 0 ::ₘ r) : bytes r = 0 := by
  obtain ⟨result, hqueue⟩ := h.desk.queue
  have hnext : s.queue.queue.nextRead = s.budget.nextJob := (h.crew.ok w _ hpc).2
  have hphase := hqueue.phase.resolve_right fun hs => htrouble (.inl hs.closed)
  have hearlier : ∀ job, job < s.queue.queue.nextRead → job ∈ s.queue.answered.map Prod.fst :=
    fun job hlt => hqueue.answered job (hphase.ring.delivered_pushed job hlt)
  have hworkers : bytes ↑(s.workers.map (workerCharge p)) = decodedBufferBytes buffer := by
    obtain ⟨hw, hget⟩ := List.getElem?_eq_some_iff.mp hpc
    have hperm := Multiset.coe_eq_coe.mpr ((List.getElem_cons_eraseIdx_perm hw).map (workerCharge p))
    rw [← hperm, List.map_cons, ← Multiset.cons_coe, bytes_cons, hget]
    have hrest : bytes ↑((s.workers.eraseIdx w).map (workerCharge p)) = 0 := by
      refine List.sum_eq_zero fun n hn => ?_
      obtain ⟨c, hc, rfl⟩ := List.mem_map.mp hn
      obtain ⟨pc', hmem, rfl⟩ := List.mem_map.mp hc
      obtain ⟨w', hne, hpc'⟩ := List.mem_eraseIdx_iff_getElem?.mp hmem
      have hb := hblocked w' pc' hpc'
      have hok := h.crew.ok w' pc' hpc'
      cases pc' with
      | awaiting job => rfl
      | exited => rfl
      | reserving job buffer' =>
          have hjob : job = s.queue.queue.nextRead := hok.2.trans hnext.symm
          exact absurd (h.crew.alone w' w _ _ _ hpc' hpc (congrArg some hjob) rfl) hne
      | pushing job charged =>
          have hlt : job < s.queue.queue.nextRead := hnext ▸ hok.2
          exact absurd (hearlier job hlt) hok.1.2.2
      | _ => exact absurd hb id
    rw [hrest]
    rfl
  have hslots : bytes ↑(s.queue.queue.slots.map slotCharge) = 0 := by
    refine List.sum_eq_zero fun n hn => ?_
    obtain ⟨c, hc, rfl⟩ := List.mem_map.mp hn
    obtain ⟨slot, hmem, rfl⟩ := List.mem_map.mp hc
    obtain ⟨i, hi, rfl⟩ := List.mem_iff_getElem.mp hmem
    obtain ⟨job, hle, hlt, hmod⟩ := exists_job_of_slot (hphase.ring.len ▸ hi) s.queue.queue.nextRead
    have hstored := hphase.ring.stored job hle hlt
    have hnot : job ∉ s.queue.pushed := fun hpushed => by
      have := h.crew.answered job (hqueue.answered job hpushed)
      omega
    rw [if_neg hnot, slot, hmod, List.getElem?_eq_getElem hi, Option.join_some] at hstored
    rw [hstored]
    rfl
  have hpanicked := h.desk.panicked.resolve_right htrouble
  have hsum := congrArg bytes hbusy
  simp only [busy, bytes_add, bytes_cons, hworkers, hslots, hheld, hpanicked] at hsum
  have hcredit : (buffer.getD 0).bytes = decodedBufferBytes buffer := rfl
  have hnone : bytes ((↑([] : List Buffer) : Multiset Charge)) = 0 := rfl
  have hnone' : bytes (↑(([] : List Nat).map panickedCharge) : Multiset Charge) = 0 := rfl
  omega

/-- Whatever the workers and the consumer have done, somebody can go on until all is
finished. -/
theorem enabled_of_not_finished {s : Pipeline} (h : Inv p s) (hnot : ¬ Finished s) :
    Enabled p s := by
  by_contra hstuck
  obtain ⟨result, hqueueInv⟩ := h.desk.queue
  have hblocked : ∀ (w : Nat) pc, s.workers[w]? = some pc → Blocked pc := by
    intro w pc hpc
    by_contra hb
    exact hstuck (enabled_of_not_blocked hpc hb)
  have hclosing : s.reader ≠ .closing := by
    intro hreader
    refine hstuck ⟨_, _, .finishDrop hreader, fun heq => ?_⟩
    have := congrArg Pipeline.reader heq
    rw [hreader] at this
    cases this
  have hheld : s.reader = .draining ∨ s.reader = .stopped → s.held = [] := by
    intro hreader
    by_contra hne
    exact hstuck (enabled_of_held hne hreader)
  have hasleep : s.reader = .draining → p.queue.mustWait s.queue.queue = true := by
    intro hreader
    by_contra hready
    exact hstuck (enabled_of_drain h hreader (hheld (.inl hreader)) (.inr (by simpa using hready)))
  have hfinish : (∀ (w : Nat) pc, s.workers[w]? = some pc → pc = .exited) →
      (s.reader = .draining → False) → False := by
    intro hworkers hdraining
    refine hnot ⟨fun pc hmem => ?_, ?_, fun hreader => hheld (.inr hreader)⟩
    · obtain ⟨w, hw⟩ := List.mem_iff_getElem?.mp hmem
      exact hworkers w pc hw
    · cases hreader : s.reader with
      | draining => exact absurd hreader hdraining
      | closing => exact absurd hreader hclosing
      | stopped => exact .inl rfl
      | dropped => exact .inr rfl
  cases hqueue : s.queue.queue.closed with
  | true =>
      have hbudget := (h.desk.queueClosed hqueue).resolve_right hclosing
      refine hfinish (fun w pc hpc => ?_) fun hreader => ?_
      · have hb := hblocked w pc hpc
        cases pc with
        | exited => rfl
        | awaiting job => exact absurd (enabled_of_turn hpc (.inr hbudget)) hstuck
        | pushing job charged => exact absurd (enabled_of_push hpc (.inl hqueue)) hstuck
        | reserving job buffer =>
            refine absurd ?_ hstuck
            refine @enabled_of_worker p _ s _ w _ .exited hpc (.retry hpc) ?_ fun h => by cases h
            simp [DecodeBudget.reserve, hbudget, afterAcquire, setWorker]
        | _ => exact absurd hb id
      · have := hasleep hreader
        simp [mustWait, hqueue] at this
  | false =>
      have htrouble : ¬ Troubled s := by
        rintro (hq | hb | ⟨w, hw⟩)
        · rw [hqueue] at hq
          cases hq
        · rcases h.desk.budgetClosed hb with hq | ⟨w, hw⟩
          · rw [hqueue] at hq
            cases hq
          · exact hblocked w _ hw
        · exact hblocked w _ hw
      have hphase := hqueueInv.phase.resolve_right fun hs => htrouble (.inl hs.closed)
      have hearlier : ∀ job, job < s.queue.queue.nextRead → job ∈ s.queue.answered.map Prod.fst :=
        fun job hlt => hqueueInv.answered job (hphase.ring.delivered_pushed job hlt)
      have hlater : ∀ (w : Nat) pc job, s.workers[w]? = some pc → jobOf pc = some job →
          s.queue.queue.nextRead ≤ job := by
        intro w pc job hpc hjob
        by_contra hlt
        exact ((h.crew.ok w pc hpc).taken hjob).2.2 (hearlier job (by omega))
      have hexited : (∀ (w : Nat) pc job, s.workers[w]? = some pc → jobOf pc ≠ some job) →
          ∀ (w : Nat) pc, s.workers[w]? = some pc → pc = .exited := by
        intro hnone w pc hpc
        have hb := hblocked w pc hpc
        cases pc with
        | exited => rfl
        | awaiting job => exact absurd rfl (hnone w _ job hpc)
        | reserving job buffer => exact absurd rfl (hnone w _ job hpc)
        | pushing job charged => exact absurd rfl (hnone w _ job hpc)
        | _ => exact absurd hb id
      have hopen : s.reader = .draining ∨ s.reader = .stopped := by
        cases hreader : s.reader with
        | draining => exact .inl rfl
        | stopped => exact .inr rfl
        | closing => exact absurd hreader hclosing
        | dropped =>
            have := h.desk.reader (.inr hreader)
            rw [hqueue] at this
            cases this
      by_cases htotal : p.totalJobs ≤ s.queue.queue.nextRead
      · refine hfinish (hexited fun w pc job hpc hjob => ?_) fun hreader => ?_
        · have hlt := ((h.crew.ok w pc hpc).taken hjob).2.1
          have hge := hlater w pc job hpc hjob
          omega
        · have := hasleep hreader
          simp only [mustWait, Bool.and_eq_true, decide_eq_true_eq] at this
          have hlt : s.queue.queue.nextRead < p.totalJobs := this.1.1
          omega
      have hdraining : s.reader = .draining := by
        refine hopen.resolve_right fun hreader => ?_
        rcases h.desk.stopped hreader with hc | hle
        · rw [hqueue] at hc
          cases hc
        · exact htotal hle
      have hnotPushed : s.queue.queue.nextRead ∉ s.queue.pushed := by
        intro hpushed
        have hwait := hasleep hdraining
        have hstored := hphase.ring.stored _ le_rfl (Nat.lt_add_of_pos_right (queue_capacity_pos p))
        rw [if_pos hpushed] at hstored
        simp [mustWait, hstored] at hwait
      by_cases hcounted : s.queue.queue.nextRead < s.nextJobIdx
      · obtain ⟨w, pc, hpc, hjob⟩ := ((h.crew.covered.resolve_left htrouble) _ hcounted
          (by omega)).resolve_right hnotPushed
        have hb := hblocked w pc hpc
        have hok := h.crew.ok w pc hpc
        cases pc with
        | awaiting job =>
            obtain rfl := Option.some.inj hjob
            refine hstuck (enabled_of_turn hpc (.inl ?_))
            refine le_antisymm hok.2 ?_
            by_contra hlt
            have := h.crew.answered _ (hearlier s.budget.nextJob (by omega))
            omega
        | pushing job charged =>
            obtain rfl := Option.some.inj hjob
            exact hstuck (enabled_of_push hpc
              (.inr (Nat.lt_add_of_pos_right (queue_capacity_pos p))))
        | reserving job buffer =>
            obtain rfl := Option.some.inj hjob
            obtain ⟨r, -, hbusy, ha⟩ := retry_acquired h.balanced hpc
            have hzero := alone_of_waiting h htrouble hblocked (hheld (.inl hdraining)) hpc hbusy
            have hretry := Advance.retry (p := p) hpc
            revert ha hretry
            generalize p.budget.reserve (p.need s.queue.queue.nextRead) buffer s.budget = a
            intro ha hretry
            cases a with
            | waiting buffer' st =>
                obtain ⟨-, -, -, -, haccount, hidle, hfull⟩ := ha
                have hused := haccount.used
                rw [bytes_cons, bytes_add, hzero, hidle, Multiset.coe_nil, bytes_zero] at hused
                have hcredit : (buffer.getD 0).bytes = decodedBufferBytes buffer := rfl
                exact hfull (.inr (by omega))
            | refused st => exact htrouble (.inr (.inl ha.1))
            | granted charged st =>
                exact hstuck (enabled_of_worker hpc hretry rfl fun h => by cases h)
        | exited => cases hjob
        | _ => exact absurd hb id
      · have hall := hexited fun w pc job hpc hjob => by
          have hlt := ((h.crew.ok w pc hpc).taken hjob).1
          have hge := hlater w pc job hpc hjob
          omega
        have hsome : 0 < s.workers.length := by
          rw [h.desk.count]
          omega
        have hfirst := List.getElem?_eq_getElem hsome
        have hok := h.crew.ok 0 _ hfirst
        rw [hall 0 _ hfirst] at hok
        rcases hok with ht | hle
        · exact htrouble ht
        · omega

end Pipeline

end RasterH3.Raster
