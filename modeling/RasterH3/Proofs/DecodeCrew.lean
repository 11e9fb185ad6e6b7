import RasterH3.Proofs.DecodeBudget

/-!
# The invariant of the decode pipeline

The pipeline is a crew of workers who share a counter of jobs, a budget of bytes and a
queue, and a consumer who drains the queue and gives the buffers back. Each lock is taken
for a stretch at a time, so that a state between two stretches finds the workers anywhere in
their loop. What is always true of it comes in three parts.

The accounts of the budget (`Balanced`, of the module before) say that the bytes it has out
are those that somebody holds.

`Crew` says where the jobs are. A job that was counted is with one worker or was pushed,
unless something failed. What the program counter of a worker tells about the rest is
`WorkerOk`; for a worker that reserves bytes it is that its job is the next the budget
serves, which is why the budget is granted in the order of the jobs. A step moves one worker
and lets the others be, and their part survives because all it speaks of moves in one
direction: jobs are counted, pushed and granted, and queue and budget are closed, for good
(`WorkerOk.frame`, `Crew.move`).

`Desk` says who closes what, and what a sleeping consumer has in hand. The budget is not
closed before a worker sets out to fail the queue as well; the two are under different
locks, and between them the state has one open and the other closed. And a push that the
queue accepts finds its slot empty (`slot_empty`), because the jobs in the slots lie within
one turn of the ring.

The three are kept by every stretch, one lemma for each, and `Inv.step` collects the lemmas.
The same stretches are taken when threads also sleep and are woken, so that the invariant of
this module is the one the statements about progress begin with.
-/

namespace RasterH3.Raster

open OrderedPrefetchQueue Charges

def jobOf : DecodeWorker → Option Nat
  | .awaiting job => some job
  | .reserving job _ => some job
  | .decoding job _ => some job
  | .pushing job _ => some job
  | _ => none

namespace Pipeline

variable {p : DecodePlan}

/-- Something was closed or is about to be. -/
def Troubled (s : Pipeline) : Prop :=
  s.queue.queue.closed = true ∨ s.budget.closed = true ∨ ∃ w : Nat, s.workers[w]? = some .closing

/-- The job was counted, and its push has not returned. -/
def Taken (p : DecodePlan) (s : Pipeline) (job : Nat) : Prop :=
  job < s.nextJobIdx ∧ job < p.totalJobs ∧ job ∉ s.queue.answered.map Prod.fst

/-- What the program counter of a worker tells about the rest. -/
def WorkerOk (p : DecodePlan) (s : Pipeline) : DecodeWorker → Prop
  | .top => True
  | .counting => True
  | .awaiting job => Taken p s job ∧ s.budget.nextJob ≤ job
  | .reserving job _ => Taken p s job ∧ job = s.budget.nextJob
  | .decoding job _ => Taken p s job ∧ job < s.budget.nextJob
  | .pushing job _ => Taken p s job ∧ job < s.budget.nextJob
  | .returning _ _ => s.queue.queue.closed = true
  | .closing => True
  | .failing => s.budget.closed = true
  | .exited => Troubled s ∨ p.totalJobs ≤ s.nextJobIdx

theorem WorkerOk.taken {s : Pipeline} {pc : DecodeWorker} (h : WorkerOk p s pc) {job : Nat}
    (hjob : jobOf pc = some job) : Taken p s job := by
  cases pc with
  | awaiting j => obtain rfl := Option.some.inj hjob; exact h.1
  | reserving j c => obtain rfl := Option.some.inj hjob; exact h.1
  | decoding j c => obtain rfl := Option.some.inj hjob; exact h.1
  | pushing j c => obtain rfl := Option.some.inj hjob; exact h.1
  | _ => cases hjob

/-- The crew: where the jobs are, and which of them were granted. -/
structure Crew (p : DecodePlan) (s : Pipeline) : Prop where
  ok : ∀ (w : Nat) pc, s.workers[w]? = some pc → WorkerOk p s pc
  alone : ∀ (w w' : Nat) pc pc' job, s.workers[w]? = some pc → s.workers[w']? = some pc' →
    jobOf pc = some job → jobOf pc' = some job → w = w'
  answered : ∀ job ∈ s.queue.answered.map Prod.fst, job < s.budget.nextJob
  counted : s.budget.nextJob ≤ s.nextJobIdx
  covered : Troubled s ∨ ∀ job < s.nextJobIdx, job < p.totalJobs →
    (∃ (w : Nat) (pc : DecodeWorker), s.workers[w]? = some pc ∧ jobOf pc = some job) ∨
      job ∈ s.queue.pushed

/-- What does not change for a worker while others move. -/
theorem WorkerOk.frame {s s' : Pipeline} {pc : DecodeWorker} (h : WorkerOk p s pc)
    (hidx : s.nextJobIdx ≤ s'.nextJobIdx)
    (hqueue : s.queue.queue.closed = true → s'.queue.queue.closed = true)
    (hbudget : s.budget.closed = true → s'.budget.closed = true)
    (htroubled : Troubled s → Troubled s')
    (hanswered : ∀ job, jobOf pc = some job → job ∉ s.queue.answered.map Prod.fst →
      job ∉ s'.queue.answered.map Prod.fst)
    (hnext : s'.budget.nextJob = s.budget.nextJob ∨
      s'.budget.nextJob = s.budget.nextJob + 1 ∧ jobOf pc ≠ some s.budget.nextJob) :
    WorkerOk p s' pc := by
  have htaken : ∀ job, jobOf pc = some job → Taken p s job → Taken p s' job :=
    fun job hjob ht => ⟨lt_of_lt_of_le ht.1 hidx, ht.2.1, hanswered job hjob ht.2.2⟩
  cases pc with
  | top => trivial
  | counting => trivial
  | awaiting job =>
      refine ⟨htaken job rfl h.1, ?_⟩
      have hle := h.2
      rcases hnext with hnext | ⟨hnext, hne⟩
      · omega
      · have : job ≠ s.budget.nextJob := fun heq => hne (congrArg some heq)
        omega
  | reserving job credit =>
      refine ⟨htaken job rfl h.1, ?_⟩
      have heq := h.2
      rcases hnext with hnext | ⟨-, hne⟩
      · omega
      · exact absurd (congrArg some heq) hne
  | decoding job charged =>
      refine ⟨htaken job rfl h.1, ?_⟩
      have := h.2
      omega
  | pushing job charged =>
      refine ⟨htaken job rfl h.1, ?_⟩
      have := h.2
      omega
  | returning job charged => exact hqueue h
  | closing => trivial
  | failing => exact hbudget h
  | exited => exact h.imp htroubled fun hle => le_trans hle hidx

theorem getElem?_set_cases {α : Type} {l : List α} {i j : Nat} {a b : α}
    (h : (l.set i a)[j]? = some b) : j = i ∧ b = a ∨ j ≠ i ∧ l[j]? = some b := by
  by_cases hij : j = i
  · subst hij
    obtain ⟨hj, hget⟩ := List.getElem?_eq_some_iff.mp h
    rw [List.getElem_set_self] at hget
    exact .inl ⟨rfl, hget.symm⟩
  · rw [List.getElem?_set_ne (Ne.symm hij)] at h
    exact .inr ⟨hij, h⟩

theorem Troubled.move {s s' : Pipeline} (h : Troubled s) {w : Nat} {old pc : DecodeWorker}
    (hpc : s.workers[w]? = some old) (hworkers : s'.workers = s.workers.set w pc)
    (hqueue : s.queue.queue.closed = true → s'.queue.queue.closed = true)
    (hbudget : s.budget.closed = true → s'.budget.closed = true)
    (hclosing : old = .closing → s'.budget.closed = true) : Troubled s' := by
  rcases h with hq | hb | ⟨w', hw'⟩
  · exact .inl (hqueue hq)
  · exact .inr (.inl (hbudget hb))
  · by_cases heq : w' = w
    · subst heq
      exact .inr (.inl (hclosing (Option.some.inj (hpc.symm.trans hw'))))
    · refine .inr (.inr ⟨w', ?_⟩)
      rw [hworkers, List.getElem?_set_ne (Ne.symm heq)]
      exact hw'

/-- One worker moves. -/
theorem Crew.move {s s' : Pipeline} (h : Crew p s) {w : Nat} {old : DecodeWorker}
    (pc : DecodeWorker) (hpc : s.workers[w]? = some old) (hworkers : s'.workers = s.workers.set w pc)
    (hqueue : s.queue.queue.closed = true → s'.queue.queue.closed = true)
    (hbudget : s.budget.closed = true → s'.budget.closed = true)
    (hclosing : old = .closing → s'.budget.closed = true)
    (hanswered : ∀ job ∈ s'.queue.answered.map Prod.fst,
      job ∈ s.queue.answered.map Prod.fst ∨ jobOf old = some job ∧ job < s.budget.nextJob)
    (hpushed : ∀ job ∈ s.queue.pushed, job ∈ s'.queue.pushed)
    (hnext : s'.budget.nextJob = s.budget.nextJob ∨
      s'.budget.nextJob = s.budget.nextJob + 1 ∧ jobOf old = some s.budget.nextJob)
    (hidx : s'.nextJobIdx = s.nextJobIdx ∨
      s'.nextJobIdx = s.nextJobIdx + 1 ∧ (s.nextJobIdx < p.totalJobs → jobOf pc = some s.nextJobIdx))
    (hjob : ∀ job, jobOf pc = some job → jobOf old = some job ∨ job = s.nextJobIdx)
    (hleft : ∀ job, jobOf old = some job →
      jobOf pc = some job ∨ job ∈ s'.queue.pushed ∨ Troubled s')
    (hok : (Troubled s → Troubled s') → WorkerOk p s' pc) : Crew p s' := by
  have hle : s.nextJobIdx ≤ s'.nextJobIdx := by rcases hidx with h | ⟨h, -⟩ <;> omega
  have htroubled : Troubled s → Troubled s' := fun ht =>
    ht.move hpc hworkers hqueue hbudget hclosing
  have hother : ∀ w' pc' job, w' ≠ w → s.workers[w']? = some pc' → jobOf pc' = some job →
      jobOf old ≠ some job := fun w' pc' job hne hpc' hjob' hold =>
    hne (h.alone w' w pc' old job hpc' hpc hjob' hold)
  refine ⟨fun w' pc' hpc' => ?_, fun w₁ w₂ pc₁ pc₂ job h₁ h₂ hjob₁ hjob₂ => ?_, fun job hmem => ?_,
    ?_, ?_⟩
  · rw [hworkers] at hpc'
    rcases getElem?_set_cases hpc' with ⟨-, rfl⟩ | ⟨hne, hpc'⟩
    · exact hok htroubled
    · refine (h.ok w' pc' hpc').frame hle hqueue hbudget htroubled (fun job hjob' hnot hmem => ?_)
        (hnext.imp_right fun ⟨hn, hold⟩ => ⟨hn, fun hjob' => hother w' pc' _ hne hpc' hjob' hold⟩)
      rcases hanswered job hmem with hmem | ⟨hold, -⟩
      · exact hnot hmem
      · exact hother w' pc' job hne hpc' hjob' hold
  · have hnew : ∀ w' pc', w' ≠ w → s.workers[w']? = some pc' → jobOf pc' = some job →
        jobOf pc ≠ some job := by
      intro w' pc' hne hpc' hjob' hmine
      rcases hjob job hmine with hold | rfl
      · exact hother w' pc' job hne hpc' hjob' hold
      · exact lt_irrefl _ ((h.ok w' pc' hpc').taken hjob').1
    rw [hworkers] at h₁ h₂
    rcases getElem?_set_cases h₁ with ⟨rfl, rfl⟩ | ⟨hne₁, hold₁⟩
    · rcases getElem?_set_cases h₂ with ⟨rfl, -⟩ | ⟨hne₂, hold₂⟩
      · rfl
      · exact absurd hjob₁ (hnew w₂ pc₂ hne₂ hold₂ hjob₂)
    · rcases getElem?_set_cases h₂ with ⟨rfl, rfl⟩ | ⟨-, hold₂⟩
      · exact absurd hjob₂ (hnew w₁ pc₁ hne₁ hold₁ hjob₁)
      · exact h.alone w₁ w₂ pc₁ pc₂ job hold₁ hold₂ hjob₁ hjob₂
  · have hlt : job < s.budget.nextJob := by
      rcases hanswered job hmem with hmem | ⟨-, hlt⟩
      · exact h.answered job hmem
      · exact hlt
    rcases hnext with h | ⟨h, -⟩ <;> omega
  · have hcounted := h.counted
    rcases hnext with hnext | ⟨hnext, hold⟩
    · omega
    · have := ((h.ok w old hpc).taken hold).1
      omega
  · by_cases htrouble : Troubled s'
    · exact .inl htrouble
    refine .inr fun job hlt htotal => ?_
    have hcovered := h.covered.resolve_left fun ht => htrouble (htroubled ht)
    have hw : w < s.workers.length := (List.getElem?_eq_some_iff.mp hpc).1
    have hself : s'.workers[w]? = some pc := by rw [hworkers, List.getElem?_set_self hw]
    by_cases hmine : jobOf pc = some job
    · exact .inl ⟨w, pc, hself, hmine⟩
    have hlt' : job < s.nextJobIdx := by
      rcases hidx with hidx | ⟨hidx, hnew⟩
      · omega
      · by_contra hge
        obtain rfl : job = s.nextJobIdx := by omega
        exact hmine (hnew htotal)
    rcases hcovered job hlt' htotal with ⟨w', pc', hpc', hjob'⟩ | hmem
    · by_cases heq : w' = w
      · subst heq
        obtain rfl := Option.some.inj (hpc.symm.trans hpc')
        rcases hleft job hjob' with hkept | hmem | htrouble'
        · exact absurd hkept hmine
        · exact .inr hmem
        · exact absurd htrouble' htrouble
      · refine .inl ⟨w', pc', ?_, hjob'⟩
        rw [hworkers, List.getElem?_set_ne (Ne.symm heq)]
        exact hpc'
    · exact .inr (hpushed job hmem)

/-- Nobody of the crew moves. -/
theorem Crew.frame {s s' : Pipeline} (h : Crew p s) (hworkers : s'.workers = s.workers)
    (hidx : s'.nextJobIdx = s.nextJobIdx) (hanswered : s'.queue.answered = s.queue.answered)
    (hnext : s'.budget.nextJob = s.budget.nextJob)
    (hqueue : s.queue.queue.closed = true → s'.queue.queue.closed = true)
    (hbudget : s.budget.closed = true → s'.budget.closed = true) : Crew p s' := by
  have htroubled : Troubled s → Troubled s' :=
    Or.imp hqueue (Or.imp hbudget fun ⟨w, hw⟩ => ⟨w, hworkers ▸ hw⟩)
  refine ⟨fun w pc hpc => ?_, hworkers ▸ h.alone, ?_, by rw [hnext, hidx]; exact h.counted, ?_⟩
  · exact (h.ok w pc (hworkers ▸ hpc)).frame hidx.ge hqueue hbudget htroubled
      (fun job _ hnot => hanswered ▸ hnot) (.inl hnext)
  · rw [hanswered, hnext]
    exact h.answered
  · rw [QueueSystem.pushed, hanswered, hworkers, hidx]
    exact h.covered.imp_left htroubled

/-! ## Queue, budget and consumer -/

/-- Who closes what, and what a sleeping consumer has in hand. -/
structure Desk (p : DecodePlan) (s : Pipeline) : Prop where
  queue : ∃ result, s.queue.Inv p.queue result
  budgetClosed : s.budget.closed = true →
    s.queue.queue.closed = true ∨ ∃ w : Nat, s.workers[w]? = some .failing
  queueClosed : s.queue.queue.closed = true → s.budget.closed = true ∨ s.reader = .closing
  reader : s.reader = .closing ∨ s.reader = .dropped → s.queue.queue.closed = true
  asleep : ∀ pc call, s.queue.consumer = some (pc, call) → pc = .first ∧
    (∃ maxBatch, call = DrainCall.start Item 1 maxBatch) ∧ s.held = [] ∧ s.reader = .draining
  stopped : s.reader = .stopped →
    s.queue.queue.closed = true ∨ p.totalJobs ≤ s.queue.queue.nextRead
  panicked : s.panicked = [] ∨ Troubled s
  grants : s.grants = List.range s.budget.nextJob
  count : s.workers.length = min (max p.numWorkers 1) p.totalJobs

theorem queue_capacity_pos (p : DecodePlan) : 0 < p.queue.capacity := QueueSystem.new_capacity_pos _ _

/-- A worker moves that does not touch the queue or close the budget. -/
theorem Desk.move {s s' : Pipeline} (h : Desk p s) {w : Nat} {old : DecodeWorker}
    (pc : DecodeWorker) (hpc : s.workers[w]? = some old) (hworkers : s'.workers = s.workers.set w pc)
    (hold : old ≠ .failing) (hqueue : s'.queue = s.queue)
    (hclosed : s'.budget.closed = s.budget.closed) (hreader : s'.reader = s.reader)
    (hheld : s'.held = s.held) (hgrants : s'.grants = List.range s'.budget.nextJob)
    (hpanicked : s'.panicked = [] ∨ Troubled s') : Desk p s' where
  queue := hqueue ▸ h.queue
  budgetClosed := by
    rw [hclosed, hqueue]
    refine fun hb => (h.budgetClosed hb).imp_right fun ⟨w', hw'⟩ => ⟨w', ?_⟩
    have hne : w ≠ w' := fun heq =>
      hold (Option.some.inj (hpc.symm.trans (heq ▸ hw')))
    rw [hworkers, List.getElem?_set_ne hne]
    exact hw'
  queueClosed := by rw [hclosed, hqueue, hreader]; exact h.queueClosed
  reader := by rw [hreader, hqueue]; exact h.reader
  asleep := by rw [hqueue, hheld, hreader]; exact h.asleep
  stopped := by rw [hqueue, hreader]; exact h.stopped
  panicked := hpanicked
  grants := hgrants
  count := by rw [hworkers, List.length_set]; exact h.count

/-- The slot of a job whose push is accepted is empty. -/
theorem slot_empty {s : Pipeline} (h : Desk p s) {job : Nat} {item : Item}
    {st : OrderedQueueState Item} (hnew : job ∉ s.queue.answered.map Prod.fst)
    (hpush : p.queue.push job item s.queue.queue = some (true, st)) :
    s.queue.queue.slots[job % p.queue.capacity]? = some none := by
  rcases QueueSystem.push_cases hpush with ⟨h, -, -⟩ | ⟨-, hopen, hroom, -⟩
  · cases h
  obtain ⟨result, hqueue⟩ := h.queue
  have hnot : job ∉ s.queue.pushed := fun hmem => hnew (hqueue.answered job hmem)
  rcases hqueue.phase with ho | hs
  · have hle : s.queue.queue.nextRead ≤ job := by
      by_contra hlt
      exact hnot (ho.ring.delivered_pushed job (by omega))
    have hslot := ho.ring.stored job hle hroom
    rw [if_neg hnot, slot] at hslot
    have hlt : job % p.queue.capacity < s.queue.queue.slots.length := by
      rw [ho.ring.len]
      exact Nat.mod_lt _ (queue_capacity_pos p)
    rw [List.getElem?_eq_getElem hlt] at hslot ⊢
    exact congrArg some hslot
  · rw [hs.closed] at hopen
    cases hopen

/-- What holds of every reachable state. -/
structure Inv (p : DecodePlan) (s : Pipeline) : Prop where
  balanced : Balanced p s
  crew : Crew p s
  desk : Desk p s

theorem Balanced.of_charges {s s' : Pipeline} (h : Balanced p s)
    (hused : s'.budget.used = s.budget.used) (hcharges : charges p s' = charges p s) :
    Balanced p s' := by
  rw [Balanced, hused, hcharges]
  exact h

/-- A worker moves to another place with the same charge. -/
theorem charges_setWorker {s : Pipeline} {w : Nat} {old : DecodeWorker} (pc : DecodeWorker)
    (hpc : s.workers[w]? = some old) (hcharge : workerCharge p pc = workerCharge p old) :
    charges p (s.setWorker w pc) = charges p s :=
  congrArg (· + (↑s.budget.idle : Multiset Charge)) (busy_setWorker pc hpc hcharge)

/-- A stretch of `acquire` of a job whose turn it is. -/
theorem Inv.acquire {s : Pipeline} (h : Inv p s) {w job : Nat} {buffer : Option Buffer}
    {old : DecodeWorker} {st : BudgetState} {a : Acquire} {r : Multiset Charge} (hpc : s.workers[w]? = some old)
    (hold : jobOf old = some job) (hfailing : old ≠ .failing) (hclosing : old ≠ .closing)
    (hset : ∀ pc, busy p (s.setWorker w pc) = workerCharge p pc ::ₘ r)
    (hmine : s.budget.nextJob = job ∨ s.budget.closed = true) (hst : st.closed = s.budget.closed)
    (hnext : st.nextJob = s.budget.nextJob)
    (ha : p.budget.Acquired (p.need job) buffer r st a) : Inv p (s.afterAcquire w job a) := by
  refine ⟨.afterAcquire hset ha, ?_, ?_⟩
  · have htaken := (h.crew.ok w old hpc).taken hold
    cases a with
    | waiting buffer' st' =>
        obtain ⟨-, hopen, hclosed', hnext', -⟩ := ha
        rw [hst] at hopen
        have hjob : s.budget.nextJob = job := hmine.resolve_right (by simp [hopen])
        refine h.crew.move (.reserving job buffer') hpc rfl id (fun hb => ?_)
          (fun heq => absurd heq hclosing) (fun _ hmem => .inl hmem) (fun _ hmem => hmem)
          (.inl (hnext'.trans hnext)) (.inl rfl) (fun _ hj => .inl (hold.trans hj))
          (fun _ hj => .inl (hold.symm.trans hj)) fun _ => ⟨htaken, ?_⟩
        · rw [hopen] at hb
          cases hb
        · exact (hnext'.trans (hnext.trans hjob)).symm
    | refused st' =>
        obtain ⟨hclosed, hclosed', hnext', -⟩ := ha
        have htrouble : Troubled (s.afterAcquire w job (.refused st')) := .inr (.inl hclosed')
        exact h.crew.move .exited hpc rfl id (fun _ => hclosed')
          (fun heq => absurd heq hclosing) (fun _ hmem => .inl hmem) (fun _ hmem => hmem)
          (.inl (hnext'.trans hnext)) (.inl rfl) nofun (fun _ _ => .inr (.inr htrouble))
          fun _ => .inl htrouble
    | granted charged st' =>
        obtain ⟨-, hopen, hclosed', hnext', -⟩ := ha
        rw [hst] at hopen
        have hjob : s.budget.nextJob = job := hmine.resolve_right (by simp [hopen])
        refine h.crew.move (.decoding job charged) hpc rfl id (fun hb => ?_)
          (fun heq => absurd heq hclosing) (fun _ hmem => .inl hmem) (fun _ hmem => hmem)
          (.inr ⟨hnext'.trans (congrArg (· + 1) hnext), hjob ▸ hold⟩) (.inl rfl)
          (fun _ hj => .inl (hold.trans hj)) (fun _ hj => .inl (hold.symm.trans hj))
          fun _ => ⟨htaken, ?_⟩
        · rw [hopen] at hb
          cases hb
        · show job < st'.nextJob
          omega
  · cases a with
    | waiting buffer' st' =>
        obtain ⟨-, hopen, hclosed', hnext', -⟩ := ha
        have hsame : st'.closed = s.budget.closed := hclosed'.trans (hopen.symm.trans hst)
        refine h.desk.move (.reserving job buffer') hpc rfl hfailing rfl hsame rfl rfl ?_ ?_
        · show s.grants = List.range st'.nextJob
          rw [hnext', hnext]
          exact h.desk.grants
        · exact h.desk.panicked.imp_right fun ht => ht.move hpc rfl id
            (fun hb => hsame.trans hb) fun heq => absurd heq hclosing
    | refused st' =>
        obtain ⟨hclosed, hclosed', hnext', -⟩ := ha
        have hsame : st'.closed = s.budget.closed := hclosed'.trans (hclosed.symm.trans hst)
        refine h.desk.move .exited hpc rfl hfailing rfl hsame rfl rfl ?_ (.inr (.inr (.inl hclosed')))
        show s.grants = List.range st'.nextJob
        rw [hnext', hnext]
        exact h.desk.grants
    | granted charged st' =>
        obtain ⟨-, hopen, hclosed', hnext', -⟩ := ha
        have hsame : st'.closed = s.budget.closed := hclosed'.trans (hopen.symm.trans hst)
        have hjob : s.budget.nextJob = job := hmine.resolve_right (by simp [← hst, hopen])
        refine h.desk.move (.decoding job charged) hpc rfl hfailing rfl hsame rfl rfl ?_ ?_
        · show s.grants ++ [job] = List.range st'.nextJob
          rw [hnext', hnext, List.range_succ, h.desk.grants, hjob]
        · exact h.desk.panicked.imp_right fun ht => ht.move hpc rfl id
            (fun hb => hsame.trans hb) fun heq => absurd heq hclosing

/-- A worker that has no job, and leaves queue and budget alone. -/
theorem Inv.idle {s : Pipeline} (h : Inv p s) {w : Nat} {old pc : DecodeWorker} {n : Nat}
    (hpc : s.workers[w]? = some old) (hold : jobOf old = none) (hbytes : workerCharge p old = 0)
    (hbytes' : workerCharge p pc = 0) (hfailing : old ≠ .failing) (hclosing : old ≠ .closing)
    (hidx : n = s.nextJobIdx ∧ jobOf pc = none ∨
      n = s.nextJobIdx + 1 ∧ (s.nextJobIdx < p.totalJobs → jobOf pc = some s.nextJobIdx))
    (hjob : ∀ job, jobOf pc = some job → job = s.nextJobIdx)
    (hok : (Troubled s → Troubled { s.setWorker w pc with nextJobIdx := n }) →
      WorkerOk p { s.setWorker w pc with nextJobIdx := n } pc) :
    Inv p { s.setWorker w pc with nextJobIdx := n } where
  balanced := h.balanced.of_charges rfl (charges_setWorker pc hpc (hbytes'.trans hbytes.symm))
  crew := h.crew.move pc hpc rfl id id (fun heq => absurd heq hclosing) (fun _ hmem => .inl hmem)
    (fun _ hmem => hmem) (.inl rfl) (hidx.imp_left And.left)
    (fun job hj => .inr (hjob job hj)) (fun job hj => by rw [hold] at hj; cases hj) hok
  desk := h.desk.move pc hpc rfl hfailing rfl rfl rfl rfl h.desk.grants
    (h.desk.panicked.imp_right fun ht => ht.move hpc rfl id id fun heq => absurd heq hclosing)

theorem Inv.check {s : Pipeline} (h : Inv p s) {w : Nat} (hpc : s.workers[w]? = some .top) :
    Inv p (s.setWorker w (if s.queue.queue.closed then .exited else .counting)) := by
  cases hclosed : s.queue.queue.closed with
  | true => exact h.idle hpc rfl rfl rfl nofun nofun (.inl ⟨rfl, rfl⟩) nofun fun _ => .inl (.inl hclosed)
  | false => exact h.idle hpc rfl rfl rfl nofun nofun (.inl ⟨rfl, rfl⟩) nofun fun _ => trivial

theorem Inv.count {s : Pipeline} (h : Inv p s) {w : Nat}
    (hpc : s.workers[w]? = some .counting) :
    Inv p { s.setWorker w (if s.nextJobIdx < p.totalJobs then .awaiting s.nextJobIdx else .exited) with
      nextJobIdx := s.nextJobIdx + 1 } := by
  by_cases hlt : s.nextJobIdx < p.totalJobs
  · simp only [if_pos hlt]
    refine h.idle hpc rfl rfl rfl nofun nofun (.inr ⟨rfl, fun _ => rfl⟩)
      (fun job hj => (Option.some.inj hj).symm) fun _ => ⟨⟨Nat.lt_succ_self _, hlt, ?_⟩, h.crew.counted⟩
    intro hmem
    have hanswered := h.crew.answered _ hmem
    have hcounted := h.crew.counted
    omega
  · simp only [if_neg hlt]
    refine h.idle hpc rfl rfl rfl nofun nofun (.inr ⟨rfl, fun hlt' => absurd hlt' hlt⟩) nofun
      fun _ => .inr ?_
    show p.totalJobs ≤ s.nextJobIdx + 1
    omega

theorem Inv.decoded {s : Pipeline} (h : Inv p s) {w job charged : Nat}
    (hpc : s.workers[w]? = some (.decoding job charged)) :
    Inv p
      { s.setWorker w (.pushing job charged) with
        budget :=
          DecodeBudget.settle charged (decodedBufferBytes (p.item job charged)) s.budget } where
  balanced := h.balanced.settle (.pushing job charged) hpc
    ((item_admitted_le p job charged).trans (Nat.min_self charged).ge)
  crew := h.crew.move (.pushing job charged) hpc rfl id id nofun (fun _ hmem => .inl hmem)
    (fun _ hmem => hmem) (.inl rfl) (.inl rfl) (fun _ hj => .inl hj) (fun _ hj => .inl hj)
    fun _ => h.crew.ok w _ hpc
  desk := h.desk.move (.pushing job charged) hpc rfl nofun rfl rfl rfl rfl h.desk.grants
    (h.desk.panicked.imp_right fun ht => ht.move hpc rfl id id nofun)

/-- The decoder does not open: the bytes are given back before the budget is closed. -/
theorem Inv.openFailed {s : Pipeline} (h : Inv p s) {w job charged : Nat}
    (hpc : s.workers[w]? = some (.decoding job charged)) :
    Inv p { s.setWorker w .closing with budget := DecodeBudget.settle charged 0 s.budget } := by
  have hw : w < s.workers.length := (List.getElem?_eq_some_iff.mp hpc).1
  have htrouble : Troubled
      { s.setWorker w .closing with budget := DecodeBudget.settle charged 0 s.budget } :=
    .inr (.inr ⟨w, List.getElem?_set_self hw⟩)
  refine ⟨?_, ?_, ?_⟩
  · exact h.balanced.settle .closing hpc (Nat.zero_le _)
  · exact h.crew.move .closing hpc rfl id id (fun hpc => by cases hpc) (fun _ hmem => .inl hmem)
      (fun _ hmem => hmem) (.inl rfl) (.inl rfl) (fun _ hjob => by cases hjob)
      (fun _ _ => .inr (.inr htrouble)) fun _ => trivial
  · exact h.desk.move .closing hpc rfl (fun hpc => by cases hpc) rfl rfl rfl rfl h.desk.grants
      (.inr htrouble)

/-- The decoder panics: its bytes stay charged. -/
theorem Inv.panicked {s : Pipeline} (h : Inv p s) {w job charged : Nat}
    (hpc : s.workers[w]? = some (.decoding job charged)) :
    Inv p { s.setWorker w .closing with panicked := charged :: s.panicked } := by
  have hw : w < s.workers.length := (List.getElem?_eq_some_iff.mp hpc).1
  have htrouble : Troubled { s.setWorker w .closing with panicked := charged :: s.panicked } :=
    .inr (.inr ⟨w, List.getElem?_set_self hw⟩)
  obtain ⟨r, hbusy, hset⟩ := busy_worker (p := p) hpc
  refine ⟨?_, ?_, ?_⟩
  · have hnew : charges p { s.setWorker w .closing with panicked := charged :: s.panicked } =
        panickedCharge charged ::ₘ (busy p (s.setWorker w .closing) + ↑s.budget.idle) := by
      simp only [charges, busy, List.map_cons, ← Multiset.cons_coe, Multiset.add_cons,
        Multiset.cons_add]
      rfl
    have hold : charges p s = panickedCharge charged ::ₘ (r + ↑s.budget.idle) := by
      rw [charges, hbusy, Multiset.cons_add]
      rfl
    refine Account.regroup h.balanced ?_
    rw [hold, hnew, hset, Multiset.cons_add]
    exact (regroup_zero_cons _).cons _
  · exact h.crew.move .closing hpc rfl id id (fun hpc => by cases hpc) (fun _ hmem => .inl hmem)
      (fun _ hmem => hmem) (.inl rfl) (.inl rfl) (fun _ hjob => by cases hjob)
      (fun _ _ => .inr (.inr htrouble)) fun _ => trivial
  · exact h.desk.move .closing hpc rfl (fun hpc => by cases hpc) rfl rfl rfl rfl h.desk.grants
      (.inr htrouble)

theorem Inv.closeBudget {s : Pipeline} (h : Inv p s) {w : Nat}
    (hpc : s.workers[w]? = some .closing) :
    Inv p { s.setWorker w .failing with budget := DecodeBudget.close s.budget } := by
  have hw : w < s.workers.length := (List.getElem?_eq_some_iff.mp hpc).1
  refine ⟨?_, ?_, ?_⟩
  · have := h.balanced.close
    rwa [← @busy_setWorker p _ _ _ .failing hpc rfl] at this
  · exact h.crew.move .failing hpc rfl id (fun _ => rfl) (fun _ => rfl) (fun _ hmem => .inl hmem)
      (fun _ hmem => hmem) (.inl rfl) (.inl rfl) nofun nofun fun _ => rfl
  · exact
      { h.desk with
        budgetClosed := fun _ => .inr ⟨w, List.getElem?_set_self hw⟩
        queueClosed := fun _ => .inl rfl
        panicked := .inr (.inr (.inl rfl))
        count := (List.length_set ..).trans h.desk.count }

theorem closed_fail {T : Type} (item : T) (st : OrderedQueueState T) :
    (OrderedPrefetchQueue.fail item st).closed = true := by
  unfold OrderedPrefetchQueue.fail
  split
  next h => exact h
  next => rfl

theorem slots_fail {T : Type} (item : T) (st : OrderedQueueState T) :
    (OrderedPrefetchQueue.fail item st).slots = st.slots := by
  unfold OrderedPrefetchQueue.fail
  split <;> rfl

theorem Inv.fail {s : Pipeline} (h : Inv p s) {w : Nat} (hpc : s.workers[w]? = some .failing) :
    Inv p
      { s.setWorker w .exited with
        queue :=
          { s.queue with
            queue := OrderedPrefetchQueue.fail none s.queue.queue
            failure := if s.queue.queue.closed then s.queue.failure else some none } } := by
  have hbudget : s.budget.closed = true := h.crew.ok w _ hpc
  have hclosed := closed_fail (none : Item) s.queue.queue
  refine ⟨?_, ?_, ?_⟩
  · refine h.balanced.of_charges rfl ?_
    have := @charges_setWorker p _ _ _ .exited hpc rfl
    rw [← this]
    simp only [charges, busy, slots_fail]
    rfl
  · exact h.crew.move .exited hpc rfl (fun _ => hclosed) id (fun hpc => by cases hpc)
      (fun _ hmem => .inl hmem) (fun _ hmem => hmem) (.inl rfl) (.inl rfl)
      (fun _ hjob => by cases hjob) (fun _ hjob => by cases hjob) fun _ => .inl (.inl hclosed)
  · exact
      { h.desk with
        queue := h.desk.queue.imp fun _ hqueue => hqueue.fail none
        budgetClosed := fun _ => .inl hclosed
        queueClosed := fun _ => .inl hbudget
        reader := fun _ => hclosed
        stopped := fun _ => .inl hclosed
        panicked := .inr (.inl hclosed)
        count := (List.length_set ..).trans h.desk.count }

theorem Inv.giveBack {s : Pipeline} (h : Inv p s) {w job charged : Nat}
    (hpc : s.workers[w]? = some (.returning job charged)) :
    Inv p
      { s.setWorker w .exited with
        budget :=
          DecodeBudget.settle (decodedBufferBytes (p.item job charged)) 0 s.budget } := by
  have hclosed : s.queue.queue.closed = true := h.crew.ok w _ hpc
  refine ⟨?_, ?_, ?_⟩
  · exact h.balanced.settle .exited hpc (Nat.zero_le _)
  · exact h.crew.move .exited hpc rfl id id nofun (fun _ hmem => .inl hmem)
      (fun _ hmem => hmem) (.inl rfl) (.inl rfl) nofun nofun fun _ => .inl (.inl hclosed)
  · exact h.desk.move .exited hpc rfl nofun rfl rfl rfl rfl h.desk.grants (.inr (.inl hclosed))

theorem Inv.push {s : Pipeline} (h : Inv p s) {w job charged : Nat} {ok : Bool}
    {st : OrderedQueueState Item} (hpc : s.workers[w]? = some (.pushing job charged))
    (hpush : p.queue.push job (p.item job charged) s.queue.queue = some (ok, st)) :
    Inv p
      { s.setWorker w (if ok then .top else .returning job charged) with
        queue := { s.queue with queue := st, answered := s.queue.answered ++ [(job, ok)] } } := by
  obtain ⟨⟨hidx, htotal, hnew⟩, hgranted⟩ : Taken p s job ∧ job < s.budget.nextJob :=
    h.crew.ok w _ hpc
  have hqueue : ∃ result, QueueSystem.Inv p.queue result
      { s.queue with queue := st, answered := s.queue.answered ++ [(job, ok)] } :=
    h.desk.queue.elim fun _ hqueue => hqueue.push_item (queue_capacity_pos p) htotal hnew hpush
  have hanswered : ∀ j ∈ (s.queue.answered ++ [(job, ok)]).map Prod.fst,
      j ∈ s.queue.answered.map Prod.fst ∨
        jobOf (.pushing job charged) = some j ∧ j < s.budget.nextJob := by
    intro j hj
    rw [List.map_append, List.mem_append] at hj
    refine hj.imp_right fun hj => ?_
    obtain rfl : j = job := List.mem_singleton.mp hj
    exact ⟨rfl, hgranted⟩
  rcases QueueSystem.push_cases hpush with ⟨rfl, rfl, hclosed⟩ | ⟨rfl, hopen, -, rfl⟩
  · -- refused: the bytes are still to be given back
    refine ⟨?_, ?_, ?_⟩
    · exact h.balanced.of_charges rfl (charges_setWorker (.returning job charged) hpc rfl)
    · refine h.crew.move (.returning job charged) hpc rfl id id nofun hanswered (fun j hj => ?_)
        (.inl rfl) (.inl rfl) nofun (fun _ _ => .inr (.inr (.inl hclosed))) fun _ => hclosed
      rw [QueueSystem.pushed_answered]
      exact hj
    · have hdesk : Desk p (s.setWorker w (.returning job charged)) :=
        h.desk.move (.returning job charged) hpc rfl nofun rfl rfl rfl rfl h.desk.grants
          (.inr (.inl hclosed))
      exact { hdesk with queue := hqueue }
  · refine ⟨?_, ?_, ?_⟩
    · exact h.balanced.push hpc (slot_empty h.desk hnew hpush)
    · refine h.crew.move .top hpc rfl id id nofun hanswered (fun j hj => ?_)
        (.inl rfl) (.inl rfl) nofun (fun j hj => .inr (.inl ?_)) fun _ => trivial
      · rw [QueueSystem.pushed_answered]
        exact List.mem_append_left _ hj
      · obtain rfl : job = j := Option.some.inj hj
        rw [QueueSystem.pushed_answered]
        exact List.mem_append_right _ List.mem_cons_self
    · have hdesk : Desk p (s.setWorker w .top) :=
        h.desk.move .top hpc rfl nofun rfl rfl rfl rfl h.desk.grants
          (h.desk.panicked.imp_right fun ht => ht.move hpc rfl id id nofun)
      exact { hdesk with queue := hqueue }

/-- What a drain takes out of the slots the consumer holds. -/
theorem Inv.drained {s : Pipeline} (h : Inv p s) {maxBatch : Nat}
    (hheld : s.held = []) (hreader : s.reader = .draining)
    (hstep : QueueSystem.ConsumerStep p.queue (DrainCall.start Item 1 maxBatch) s.queue
      (s.queue.afterDrain (DrainCall.start Item 1 maxBatch)
        (p.queue.resumeFirst (DrainCall.start Item 1 maxBatch) s.queue.queue))) :
    Inv p (s.afterDrain (DrainCall.start Item 1 maxBatch)
      (p.queue.resumeFirst (DrainCall.start Item 1 maxBatch) s.queue.queue)) := by
  have hqueue := h.desk.queue.imp fun _ hqueue => hqueue.consume (queue_capacity_pos p) hstep
  rcases resumeFirst_one p.queue maxBatch s.queue.queue with
    ⟨-, hout⟩ | ⟨-, batch, terminal, st, hout, hregroup, hclosed, hend, -⟩
  · rw [hout] at hqueue ⊢
    refine ⟨?_, h.crew.frame rfl rfl rfl rfl id id, ?_⟩
    · refine h.balanced.of_charges rfl ?_
      simp only [charges, busy, Pipeline.afterDrain, Pipeline.drained, List.append_nil]
      rfl
    · refine { h.desk with queue := hqueue, asleep := fun pc call hcall => ?_ }
      obtain ⟨rfl, rfl⟩ := Prod.mk.inj (Option.some.inj hcall)
      refine ⟨rfl, ⟨maxBatch, rfl⟩, ?_, hreader⟩
      show s.held ++ [] = []
      rw [hheld]
      rfl
  · rw [hout] at hqueue ⊢
    have hqueue_closed : s.queue.queue.closed = true → st.closed = true := fun hc => hclosed.trans hc
    refine ⟨?_, h.crew.frame rfl rfl rfl rfl hqueue_closed id, ?_⟩
    · refine Account.regroup h.balanced ?_
      have hbefore : charges p s = (↑(s.workers.map (workerCharge p)) + ↑s.held +
          ↑(s.panicked.map panickedCharge) + ↑s.budget.idle) +
            ↑(s.queue.queue.slots.map slotCharge) := by
        simp only [charges, busy]
        abel
      have hafter : charges p (s.afterDrain (DrainCall.start Item 1 maxBatch)
          (.returned batch terminal st)) = (↑(s.workers.map (workerCharge p)) + ↑s.held +
            ↑(s.panicked.map panickedCharge) + ↑s.budget.idle) +
              (↑(st.slots.map slotCharge) + ↑(batch.filterMap id)) := by
        simp only [charges, busy, Pipeline.afterDrain, Pipeline.drained, QueueSystem.afterDrain,
          ← Multiset.coe_add]
        abel
      rw [hbefore, hafter]
      exact hregroup.add_left _
    · have hends : ends (.returned batch terminal st) = true → batch = [] ∧ terminal = none := by
        intro hends
        unfold ends at hends
        split at hends
        next heq => exact ⟨by cases heq; rfl, by cases heq; rfl⟩
        next => cases hends
      have hreader' : (s.afterDrain (DrainCall.start Item 1 maxBatch)
          (.returned batch terminal st)).reader = .stopped ∧ ends (.returned batch terminal st) = true ∨
            (s.afterDrain (DrainCall.start Item 1 maxBatch)
              (.returned batch terminal st)).reader = .draining := by
        simp only [Pipeline.afterDrain]
        split
        next hends => exact .inl ⟨rfl, hends⟩
        next => exact .inr hreader
      exact
        { queue := hqueue
          budgetClosed := fun hb => (h.desk.budgetClosed hb).imp_left hqueue_closed
          queueClosed := by
            intro hc
            have := h.desk.queueClosed (hclosed.symm.trans hc)
            rw [hreader] at this
            exact .inl (this.resolve_right fun h => by cases h)
          reader := by
            rintro (hr | hr)
            · rw [hr] at hreader'
              rcases hreader' with ⟨hr, -⟩ | hr <;> cases hr
            · rw [hr] at hreader'
              rcases hreader' with ⟨hr, -⟩ | hr <;> cases hr
          asleep := fun _ _ h => by cases h
          stopped := by
            intro hr
            rcases hreader' with ⟨-, he⟩ | hr'
            · obtain ⟨hnil, hnone⟩ := hends he
              exact hend hnil hnone
            · rw [hr] at hr'
              cases hr'
          panicked := h.desk.panicked.imp_right (Or.imp_left hqueue_closed)
          grants := h.desk.grants
          count := h.desk.count }

theorem Inv.recycle {s : Pipeline} (h : Inv p s) {i : Nat} {buffer : Buffer}
    (hheld : s.held[i]? = some buffer) :
    Inv p
      { s with budget := p.budget.recycle buffer s.budget, held := s.held.eraseIdx i } := by
  obtain ⟨hi, rfl⟩ := List.getElem?_eq_some_iff.mp hheld
  have hsame : (p.budget.recycle s.held[i] s.budget).closed = s.budget.closed ∧
      (p.budget.recycle s.held[i] s.budget).nextJob = s.budget.nextJob := by
    unfold DecodeBudget.recycle
    split <;> exact ⟨rfl, rfl⟩
  have hcharges : charges p s = s.held[i] ::ₘ (↑(s.workers.map (workerCharge p)) +
      ↑(s.queue.queue.slots.map slotCharge) + ↑(s.held.eraseIdx i) +
        ↑(s.panicked.map panickedCharge) + ↑s.budget.idle) := by
    have hperm := Multiset.coe_eq_coe.mpr (List.getElem_cons_eraseIdx_perm hi)
    rw [charges, busy, ← hperm, ← Multiset.cons_coe]
    simp only [Multiset.add_cons, Multiset.cons_add]
    abel_nf
  refine ⟨?_, h.crew.frame rfl rfl rfl hsame.2 id fun hb => hsame.1.trans hb, ?_⟩
  · have hbalanced := h.balanced
    rw [Balanced, hcharges] at hbalanced
    unfold DecodeBudget.recycle
    split
    next =>
      have := hbalanced.remove
      refine this.regroup ?_
      have heq : charges p { s with budget := { s.budget with used := s.budget.used - s.held[i].bytes }
                                    held := s.held.eraseIdx i } =
          ↑(s.workers.map (workerCharge p)) + ↑(s.queue.queue.slots.map slotCharge) +
            ↑(s.held.eraseIdx i) + ↑(s.panicked.map panickedCharge) + ↑s.budget.idle := by
        simp only [charges, busy]
        abel
      rw [heq]
      exact .refl _
    next =>
      refine hbalanced.regroup ?_
      have heq : charges p { s with budget := { s.budget with idle := s.held[i] :: s.budget.idle }
                                    held := s.held.eraseIdx i } =
          s.held[i] ::ₘ (↑(s.workers.map (workerCharge p)) + ↑(s.queue.queue.slots.map slotCharge) +
            ↑(s.held.eraseIdx i) + ↑(s.panicked.map panickedCharge) + ↑s.budget.idle) := by
        simp only [charges, busy, ← Multiset.cons_coe, Multiset.add_cons]
        abel_nf
      rw [heq]
      exact .refl _
  · have hasleep : s.queue.consumer = none := by
      cases hc : s.queue.consumer with
      | none => rfl
      | some c =>
          have hnil := (h.desk.asleep c.1 c.2 hc).2.2.1
          rw [hnil] at hi
          exact absurd hi (Nat.not_lt_zero _)
    exact
      { h.desk with
        budgetClosed := fun hb => h.desk.budgetClosed (hsame.1.symm.trans hb)
        queueClosed := fun hc => (h.desk.queueClosed hc).imp_left fun hb => hsame.1.trans hb
        asleep := by
          intro pc call hc
          rw [show s.queue.consumer = none from hasleep] at hc
          cases hc
        panicked := h.desk.panicked.imp_right
          (Or.imp_right (Or.imp_left fun hb => hsame.1.trans hb))
        grants := h.desk.grants.trans (congrArg List.range hsame.2.symm) }

theorem Inv.finishDrop {s : Pipeline} (h : Inv p s) (hreader : s.reader = .closing) :
    Inv p { s with budget := DecodeBudget.close s.budget, reader := .dropped } := by
  have hclosed := h.desk.reader (.inl hreader)
  refine ⟨h.balanced.close, h.crew.frame rfl rfl rfl rfl id fun _ => rfl, ?_⟩
  have hasleep : s.queue.consumer = none := by
    cases hc : s.queue.consumer with
    | none => rfl
    | some c =>
        have hdraining := (h.desk.asleep c.1 c.2 hc).2.2.2
        rw [hreader] at hdraining
        cases hdraining
  exact
    { h.desk with
      budgetClosed := fun _ => .inl hclosed
      queueClosed := fun _ => .inl rfl
      reader := fun _ => hclosed
      asleep := by
        intro pc call hc
        rw [show s.queue.consumer = none from hasleep] at hc
        cases hc
      stopped := nofun
      panicked := .inr (.inl hclosed) }

theorem Inv.drop {s : Pipeline} (h : Inv p s) (hidle : s.queue.consumer = none) :
    Inv p
      { s with
        queue := { s.queue with queue := OrderedPrefetchQueue.close s.queue.queue }
        reader := .closing } := by
  refine ⟨h.balanced, h.crew.frame rfl rfl rfl rfl (fun _ => rfl) id, ?_⟩
  exact
    { h.desk with
      queue := h.desk.queue.imp fun _ hqueue => hqueue.close
      budgetClosed := fun _ => .inl rfl
      queueClosed := fun _ => .inr rfl
      reader := fun _ => rfl
      asleep := by
        intro pc call hc
        rw [show s.queue.consumer = none from hidle] at hc
        cases hc
      stopped := nofun
      panicked := .inr (.inl rfl) }

theorem Inv.advance {σ : Stretch} {s s' : Pipeline} (h : Inv p s) (hstep : Advance p σ s s') :
    Inv p s' := by
  cases hstep with
  | check hpc => exact h.check hpc
  | count hpc => exact h.count hpc
  | awaitTurn hpc _ => exact h
  | awaitRoom hpc _ => exact h
  | turn hpc hturn =>
      obtain ⟨r, buffer, st, hset, hmine, hclosed, hnext, ha⟩ := turn_acquired h.balanced hpc hturn
      exact h.acquire hpc rfl nofun nofun hset hmine hclosed hnext ha
  | @retry _ w job buffer hpc =>
      obtain ⟨r, hset, -, ha⟩ := retry_acquired h.balanced hpc
      have hmine : Taken p s job ∧ job = s.budget.nextJob := h.crew.ok w _ hpc
      exact h.acquire hpc rfl nofun nofun hset (.inl hmine.2.symm) rfl rfl ha
  | decoded hpc => exact h.decoded hpc
  | openFailed hpc => exact h.openFailed hpc
  | panicked hpc => exact h.panicked hpc
  | closeBudget hpc => exact h.closeBudget hpc
  | fail hpc => exact h.fail hpc
  | push hpc hpush => exact h.push hpc hpush
  | giveBack hpc => exact h.giveBack hpc
  | drain maxBatch hreader hidle hrecycled => exact h.drained hrecycled hreader (.drain 1 maxBatch hidle)
  | @wake _ pc call hasleep =>
      obtain ⟨rfl, ⟨maxBatch, rfl⟩, hheld, hreader⟩ := h.desk.asleep pc call hasleep
      exact h.drained hheld hreader (.wake hasleep)
  | recycle hheld _ => exact h.recycle hheld
  | finishDrop hreader => exact h.finishDrop hreader

theorem inv_initial (p : DecodePlan) : Inv p (initial p) := by
  have hpc : ∀ (w : Nat) pc, (initial p).workers[w]? = some pc → pc = .top := by
    intro w pc h
    exact List.eq_of_mem_replicate (List.mem_of_getElem? h)
  have hzero : ∀ c ∈ charges p (initial p), c = 0 := by
    intro c hc
    simp only [charges, busy, Multiset.mem_add, Multiset.mem_coe] at hc
    rcases hc with (hc | hc | hc | hc) | hc
    · obtain ⟨pc, hmem, rfl⟩ := List.mem_map.mp hc
      rw [List.eq_of_mem_replicate hmem]
      rfl
    · obtain ⟨slot, hmem, rfl⟩ := List.mem_map.mp hc
      rw [List.eq_of_mem_replicate hmem]
      rfl
    · cases hc
    · cases hc
    · cases hc
  have hbalanced : Balanced p (initial p) := by
    refine Account.regroup (m := 0) ⟨rfl, .inl (Nat.zero_le _)⟩ ?_
    refine (Multiset.filter_eq_nil.mpr fun c hc => ?_).symm
    simpa using hzero c hc
  refine ⟨hbalanced, ⟨?_, ?_, ?_, le_rfl, ?_⟩, ?_⟩
  · intro w pc h
    rw [hpc w pc h]
    trivial
  · intro w w' pc pc' job h _ hjob
    rw [hpc w pc h] at hjob
    cases hjob
  · exact fun job hjob => absurd hjob List.not_mem_nil
  · exact .inr fun job hjob => absurd hjob (Nat.not_lt_zero _)
  · exact
      { queue := ⟨fun _ => none, QueueSystem.inv_initial (queue_capacity_pos p)⟩
        budgetClosed := fun h => by cases h
        queueClosed := fun h => by cases h
        reader := fun h => by rcases h with h | h <;> cases h
        asleep := fun _ _ h => by cases h
        stopped := fun h => by cases h
        panicked := .inl rfl
        grants := rfl
        count := List.length_replicate }

theorem Inv.step {σ : Stretch} {s s' : Pipeline} (h : Inv p s) (hstep : Step p σ s s') :
    Inv p s' := by
  cases hstep with
  | advance hadvance => exact h.advance hadvance
  | drop hidle _ => exact h.drop hidle

end Pipeline

end RasterH3.Raster
