import RasterH3.Lib.Charges
import RasterH3.Proofs.RemotePrefetchRuns

/-!
# An evicted range can be fetched again

That a chunk is answered at most once, and with the right bytes, holds of every reachable
state and is an invariant. That an evicted range can be had again is a statement of another
kind: some run has to be shown that answers the chunk, whatever state the eviction has left
behind, with other responses half stored, other demands waiting and other chunks taken and
not yet released.

The run goes in rounds. The chunk is asked for, which puts its range among the demands
(`sought_of_evicted`). Then everybody finishes what they have in hand and lets go of it,
until nothing is charged and the first worker is free; a queue that holds nothing may exceed
its limit, so that the worker claims the first demand, however large its range is
(`claim_front`). If that is the range of the chunk, it is fetched whole and stored and the
chunk taken (`answer_of_fetching`); if not, the round begins anew with a list of demands
that is shorter by one. `serve` is the induction on that list.

What makes a round end is `work`, over what the workers hold, what is ready, what is taken
and what is charged. A response in flight is worth more than its chunks are once they are
stored, and a ready chunk more than a taken one, so that every step of settling takes from
the number; `worker_step` and `take_step` go through the cases. The chunk that is looked for
may be taken in the course of a round, and then there is nothing left to show; the lemmas
have that as their first alternative.

The last section joins both kinds of statements for a reachable state
(`answers_right_bytes_once`).
-/

namespace RasterH3.Raster.RemotePrefetch

open Queue

variable {p : Plan} {table : Key → Option (Nat × Nat)} {file : Nat → List UInt8}

/-! ## Serving an evicted range -/

/-- Nothing has failed, and nobody has shut the queue down. -/
structure Running (s : Queue) : Prop where
  error : s.error = none
  shutdown : s.shutdown = false
  fetching : ∀ message, .failing message ∉ s.workers

structure Sought (s : Queue) (key : Key) (job : Nat) : Prop where
  running : Running s
  remaining : key ∈ s.remaining
  demanded : job ∈ s.demanded

def Answered (s : Queue) (key : Key) : Prop := key ∈ s.answers.map Prod.fst

/-- How much a worker has still to do with what it has in hand. -/
def workerWork (p : Plan) : Worker → Nat
  | .claiming => 0
  | .dropping chunks => chunks.length + 1
  | .fetching job _ => 3 * (p.range job).chunkSlices.length + 4
  | .finishing _ => 1
  | .storing _ chunks => 3 * chunks.length + 2
  | .failing _ => 0
  | .exited => 0

def work (p : Plan) (s : Queue) : Nat :=
  (s.workers.map (workerWork p)).sum + 2 * s.ready.length + s.taken.length + s.charges.length

theorem work_setWorker {s : Queue} {w : Nat} {old pc : Worker} (hpc : s.workers[w]? = some old)
    (hlt : workerWork p pc < workerWork p old) : work p (s.setWorker w pc) < work p s := by
  have := Charges.sum_map_set hpc pc (workerWork p)
  simp only [work, Queue.setWorker]
  omega

theorem Sought.setWorker {s : Queue} {key : Key} {job : Nat} (h : Sought s key job) {w : Nat}
    {pc : Worker} (hpc : ∀ message, pc ≠ .failing message) :
    Sought (s.setWorker w pc) key job := by
  refine ⟨⟨h.running.error, h.running.shutdown, fun message hmem => ?_⟩, h.remaining, h.demanded⟩
  rcases List.mem_or_eq_of_mem_set hmem with hmem | heq
  · exact h.running.fetching message hmem
  · exact hpc message heq.symm

theorem Sought.not_closed {s : Queue} {key : Key} {job : Nat} (h : Sought s key job) :
    ¬ Closed s := by
  rintro (herror | hshutdown | hempty)
  · rw [h.running.error] at herror
    cases herror
  · rw [h.running.shutdown] at hshutdown
    cases hshutdown
  · exact Finset.notMem_empty key (hempty ▸ h.remaining)

theorem length_storeLoop (p : Plan) (s : Queue) (job : Nat)
    (chunks ready : List (Key × PrefetchedChunk)) (unused : List PrefetchedChunk) :
    (s.storeLoop p job chunks ready unused).1.length +
      (s.storeLoop p job chunks ready unused).2.length =
        ready.length + unused.length + chunks.length := by
  induction chunks generalizing ready unused with
  | nil => rfl
  | cons entry chunks ih =>
      rw [Queue.storeLoop]
      split
      next => rw [ih, List.length_cons, List.length_cons]; omega
      next => rw [ih, List.length_cons, List.length_cons]; omega

/-- A wanted chunk of a response is ready once the response is stored. -/
theorem ready_storeLoop {s : Queue} {job : Nat} {key : Key} (hscheduled : p.scheduled key = some job)
    (hremaining : key ∈ s.remaining) {chunks ready : List (Key × PrefetchedChunk)}
    {unused : List PrefetchedChunk} (h : key ∈ ready.map Prod.fst ∨ key ∈ chunks.map Prod.fst) :
    key ∈ (s.storeLoop p job chunks ready unused).1.map Prod.fst := by
  induction chunks generalizing ready unused with
  | nil => exact h.resolve_right List.not_mem_nil
  | cons entry chunks ih =>
      rw [Queue.storeLoop]
      split
      next =>
        refine ih ?_
        rw [List.map_cons, List.mem_cons] at h ⊢
        tauto
      next hunwanted =>
        refine ih ?_
        rcases h with hready | hchunks
        · exact .inl hready
        · rw [List.map_cons, List.mem_cons] at hchunks
          rcases hchunks with rfl | hchunks
          · simp only [Queue.wanted, hscheduled, hremaining, decide_true, Bool.true_and,
              decide_eq_true_eq, not_not] at hunwanted
            exact .inl hunwanted
          · exact .inr hchunks

theorem length_filter_lt {α : Type} {l : List α} {q : α → Bool} {x : α} (hx : x ∈ l)
    (hq : q x = false) : (l.filter q).length < l.length := by
  refine lt_of_le_of_ne (List.length_filter_le q l) fun heq => ?_
  have hall := List.length_filter_eq_length_iff.mp heq x hx
  rw [hq] at hall
  cases hall

theorem mem_keys_of_lookup {ready : List (Key × PrefetchedChunk)} {key : Key}
    (h : key ∈ ready.map Prod.fst) : ∃ chunk, ready.lookup key = some chunk := by
  cases hlookup : ready.lookup key with
  | some chunk => exact ⟨chunk, rfl⟩
  | none =>
      obtain ⟨e, he, rfl⟩ := List.mem_map.mp h
      simpa using List.lookup_eq_none_iff.mp hlookup e he

/-- A worker that has something in hand can go on with it. -/
theorem worker_step {s : Queue} {key : Key} {job : Nat} (h : Sought s key job) {w : Nat}
    {pc : Worker} (hpc : s.workers[w]? = some pc) (hbusy : workerWork p pc ≠ 0) :
    ∃ u, Step p file s u ∧ u.demanded = s.demanded ∧ Sought u key job ∧ work p u < work p s := by
  cases pc with
  | claiming => exact absurd rfl hbusy
  | dropping chunks =>
      cases chunks with
      | nil =>
          exact ⟨_, .doneDropping hpc, rfl, h.setWorker nofun,
            work_setWorker hpc (Nat.zero_lt_succ _)⟩
      | cons chunk chunks =>
          exact ⟨_, .dropped hpc, rfl, h.setWorker nofun,
            work_setWorker hpc (Nat.succ_lt_succ (Nat.lt_succ_self _))⟩
  | fetching job' id =>
      cases hsource : p.hasSource (p.range job').tileIdx with
      | false =>
          refine ⟨_, .noSource hpc hsource, rfl, h.setWorker nofun, work_setWorker hpc ?_⟩
          show 1 < 3 * _ + 4
          omega
      | true =>
          refine ⟨_, .fetched hpc hsource (List.take_prefix (rangeBytes (p.range job')) _), rfl,
            h.setWorker nofun, work_setWorker hpc ?_⟩
          have hle := List.length_filter_le (fun slice : Nat × Nat × Nat => slice.2.1 + slice.2.2 ≤
            (((file (p.range job').tileIdx).drop (p.range job').startOffset).take
              (rangeBytes (p.range job'))).length) (p.range job').chunkSlices
          simp only [workerWork, slices, List.length_map]
          omega
  | finishing job' =>
      have hwork : work p (s.setWorker w .claiming) < work p s :=
        work_setWorker hpc (Nat.zero_lt_succ _)
      have hsought : Sought (s.setWorker w .claiming) key job := h.setWorker nofun
      exact ⟨_, .finish hpc, rfl, ⟨⟨hsought.running.error, hsought.running.shutdown,
        hsought.running.fetching⟩, hsought.remaining, hsought.demanded⟩, hwork⟩
  | storing job' chunks =>
      have hlength := length_storeLoop p s job' chunks s.ready []
      have hset := Charges.sum_map_set hpc (.dropping (s.storeLoop p job' chunks s.ready []).2)
        (workerWork p)
      have hsought : Sought (s.setWorker w (.dropping (s.storeLoop p job' chunks s.ready []).2)) key
          job := h.setWorker nofun
      refine ⟨_, .store hpc, rfl, ⟨⟨hsought.running.error, hsought.running.shutdown,
        hsought.running.fetching⟩, hsought.remaining, hsought.demanded⟩, ?_⟩
      simp only [workerWork, List.length_nil] at hset hlength
      simp only [work, Queue.store, Queue.setJob]
      omega
  | failing message => exact absurd rfl hbusy
  | exited => exact absurd rfl hbusy

theorem workerRefs_of_idle {pc : Worker} (h : workerWork p pc = 0) : workerRefs pc = [] := by
  cases pc with
  | claiming => rfl
  | dropping chunks => exact absurd h (Nat.succ_ne_zero _)
  | fetching job id => exact absurd h (Nat.succ_ne_zero _)
  | finishing job => rfl
  | storing job chunks => exact absurd h (Nat.succ_ne_zero _)
  | failing message => rfl
  | exited => rfl

/-- A consumer takes a chunk. -/
theorem take_step {s : Queue} {key key' : Key} {job : Nat} (h : Sought s key job)
    {chunk : PrefetchedChunk} (hready : s.ready.lookup key' = some chunk) :
    ∃ u, Step p file s u ∧ u.demanded = s.demanded ∧
      (Answered u key ∨ Sought u key job ∧ work p u < work p s) := by
  have htake : s.tryGetChunkPayload key' = s.take key' chunk := by
    rw [Queue.tryGetChunkPayload, hready]
  refine ⟨s.take key' chunk, htake ▸ .tryGet key', rfl, ?_⟩
  by_cases heq : key = key'
  · exact .inl (heq ▸ List.mem_cons_self)
  · refine .inr ⟨⟨⟨h.running.error, h.running.shutdown, h.running.fetching⟩,
      Finset.mem_erase.mpr ⟨heq, h.remaining⟩, h.demanded⟩, ?_⟩
    have hlt := length_filter_lt (q := fun e : Key × PrefetchedChunk => decide (e.1 ≠ key'))
      (mem_of_lookup hready) (by simp)
    simp only [work, Queue.take, List.length_cons]
    omega

/-- As long as anybody holds anything, somebody can let go of something. -/
theorem settle_step {s : Queue} {key : Key} {job : Nat} (h : Sought s key job)
    (hwork : work p s ≠ 0) :
    ∃ u, Step p file s u ∧ u.demanded = s.demanded ∧
      (Answered u key ∨ Sought u key job ∧ work p u < work p s) := by
  by_cases hbusy : ∃ (w : Nat) (pc : Worker), s.workers[w]? = some pc ∧ workerWork p pc ≠ 0
  · obtain ⟨w, pc, hpc, hne⟩ := hbusy
    obtain ⟨u, hstep, hdemanded, hsought⟩ := @worker_step p file s key job h w pc hpc hne
    exact ⟨u, hstep, hdemanded, .inr hsought⟩
  have hidle : ∀ pc ∈ s.workers, workerWork p pc = 0 := by
    intro pc hpc
    obtain ⟨w, hw⟩ := List.mem_iff_getElem?.mp hpc
    by_contra hne
    exact hbusy ⟨w, pc, hw, hne⟩
  cases hready : s.ready with
  | cons e ready =>
      obtain ⟨chunk, hlookup⟩ := mem_keys_of_lookup
        (List.mem_map_of_mem (hready ▸ List.mem_cons_self : e ∈ s.ready))
      exact take_step h hlookup
  | nil =>
      cases htaken : s.taken with
      | cons c taken =>
          refine ⟨_, .dropTaken 0, rfl, .inr ⟨⟨⟨h.running.error, h.running.shutdown,
            h.running.fetching⟩, h.remaining, h.demanded⟩, ?_⟩⟩
          simp only [work, htaken, List.eraseIdx_cons_zero, List.length_cons]
          omega
      | nil =>
          cases hcharges : s.charges with
          | cons c charges =>
              have hc : c ∈ s.charges := hcharges ▸ List.mem_cons_self
              have hgone : c.id ∉ s.refs := by
                rw [mem_refs, hready, htaken]
                rintro (⟨e, he, -⟩ | ⟨c, hc, -⟩ | ⟨pc, hpc, hid⟩)
                · cases he
                · cases hc
                · rw [workerRefs_of_idle (hidle pc hpc)] at hid
                  cases hid
              refine ⟨_, .release hc hgone, rfl, .inr ⟨⟨⟨h.running.error, h.running.shutdown,
                h.running.fetching⟩, h.remaining, h.demanded⟩, ?_⟩⟩
              have hlt := length_filter_lt (q := fun o : BudgetCharge => decide (o.id ≠ c.id)) hc
                (by simp)
              simp only [work, Queue.release]
              omega
          | nil =>
              refine absurd ?_ hwork
              have hsum : (s.workers.map (workerWork p)).sum = 0 := by
                refine List.sum_eq_zero fun n hn => ?_
                obtain ⟨pc, hpc, rfl⟩ := List.mem_map.mp hn
                exact hidle pc hpc
              simp [work, hsum, hready, htaken, hcharges]

/-- Everybody lets go of what they hold, unless the chunk is answered before. -/
theorem settle {s : Queue} {key : Key} {job : Nat} (h : Sought s key job) :
    ∃ u, Relation.ReflTransGen (Step p file) s u ∧
      (Answered u key ∨ Sought u key job ∧ work p u = 0 ∧ u.demanded = s.demanded) := by
  induction hn : work p s using Nat.strong_induction_on generalizing s with
  | h n ih =>
      subst hn
      by_cases hwork : work p s = 0
      · exact ⟨s, .refl, .inr ⟨h, hwork, rfl⟩⟩
      obtain ⟨u, hstep, hdemanded, hanswered | ⟨hsought, hlt⟩⟩ :=
        @settle_step p file s key job h hwork
      · exact ⟨u, .single hstep, .inl hanswered⟩
      · obtain ⟨v, hrun, hv⟩ := ih _ hlt hsought rfl
        exact ⟨v, .head hstep hrun, hdemanded ▸ hv⟩

theorem settled_of_work {s : Queue} (h : work p s = 0) :
    s.ready = [] ∧ s.charges = [] ∧ ∀ pc ∈ s.workers, workerWork p pc = 0 := by
  simp only [work, Nat.add_eq_zero_iff, Nat.mul_eq_zero, List.length_eq_zero_iff] at h
  obtain ⟨⟨⟨hsum, hready⟩, -⟩, hcharges⟩ := h
  refine ⟨hready.resolve_left (by decide), hcharges, fun pc hpc => ?_⟩
  exact List.sum_eq_zero_iff.mp hsum _ (List.mem_map_of_mem hpc)

/-- When nothing is held, the first worker claims the first demand. -/
theorem claim_front {s : Queue} {key : Key} {job d : Nat} {ds : List Nat}
    (hledger : Ledger p s) (hcontents : Contents p table file s) (h : Sought s key job)
    (hwork : work p s = 0) (hdemanded : s.demanded = d :: ds) :
    ∃ n, Step p file s ({ s with nextJob := n }.grant p 0 d) ∧ 0 < s.workers.length := by
  obtain ⟨-, hcharges, hidle⟩ := settled_of_work hwork
  have hjob := hcontents.demanded d (hdemanded ▸ List.mem_cons_self)
  have hlen : 0 < s.workers.length := by
    rw [hcontents.count]
    omega
  have hpc : s.workers[0]? = some .claiming := by
    rw [List.getElem?_eq_getElem hlen]
    have hmem := List.getElem_mem hlen
    cases hfirst : s.workers[0] with
    | claiming => rfl
    | failing message => exact absurd (hfirst ▸ hmem) (h.running.fetching message)
    | exited => exact absurd (hcontents.exited (hfirst ▸ hmem)) h.not_closed
    | _ =>
        have := hidle _ hmem
        rw [hfirst] at this
        simp [workerWork] at this
  have hheld : s.heldBytes = 0 := by rw [hledger.held, hcharges]; rfl
  have hopen : ¬ (s.shutdown = true ∨ s.remaining = ∅) := fun hclosed => h.not_closed (.inr hclosed)
  refine ⟨s.skipClaimed p, ?_, hlen⟩
  have hclaim : s.claim p 0 = { s with nextJob := s.skipClaimed p }.grant p 0 d := by
    simp [Queue.claim, hopen, hdemanded, hheld]
  exact hclaim ▸ .claim hpc

/-- The range of the chunk is fetched whole and stored, and the chunk is taken. -/
theorem answer_of_fetching {key : Key} {job : Nat} (hcoalesces : p.Coalesces table)
    (hscheduled : p.scheduled key = some job) (hsource : p.hasSource key.1 = true)
    {offset length : Nat} (htable : table key = some (offset, length))
    (hfile : offset + length ≤ (file key.1).length) {s : Queue} {w id : Nat}
    (hpc : s.workers[w]? = some (.fetching job id)) (hremaining : key ∈ s.remaining) :
    ∃ u, Relation.ReflTransGen (Step p file) s u ∧ Answered u key := by
  have htile := tile_of_scheduled hscheduled
  obtain ⟨hw, -⟩ := List.getElem?_eq_some_iff.mp hpc
  let bytes := ((file (p.range job).tileIdx).drop (p.range job).startOffset).take
    (rangeBytes (p.range job))
  let fetched := slices (p.range job) ⟨id, bytes⟩
  have hfetch : Step p file s (s.setWorker w (.storing job fetched)) :=
    .fetched hpc (htile ▸ hsource) (List.take_prefix _ _)
  have hstored : Step p file (s.setWorker w (.storing job fetched))
      ((s.setWorker w (.storing job fetched)).store p w job fetched) :=
    .store (List.getElem?_set_self hw)
  have hchunk : key ∈ fetched.map Prod.fst := by
    obtain ⟨slice, hslice, rfl⟩ := List.mem_map.mp (scheduled_some hscheduled).2
    obtain ⟨hat, -, hend⟩ := hcoalesces.fits job slice hslice
    rw [hat] at htable
    obtain ⟨rfl, rfl⟩ := Prod.mk.inj (Option.some.inj htable)
    have hwhole : slice.2.1 + slice.2.2 ≤ bytes.length := by
      rw [List.length_take, List.length_drop]
      simp only at hfile
      omega
    exact List.mem_map.mpr ⟨_, List.mem_map.mpr ⟨slice,
      List.mem_filter.mpr ⟨hslice, by simpa using hwhole⟩, rfl⟩, rfl⟩
  obtain ⟨chunk, hready⟩ := mem_keys_of_lookup
    (@ready_storeLoop p (s.setWorker w (.storing job fetched)) job key hscheduled hremaining fetched
      s.ready [] (.inr hchunk))
  refine ⟨_, ((Relation.ReflTransGen.single hfetch).tail hstored).tail (.tryGet key), ?_⟩
  have htake : ((s.setWorker w (.storing job fetched)).store p w job fetched).tryGetChunkPayload key =
      ((s.setWorker w (.storing job fetched)).store p w job fetched).take key chunk := by
    have hstored : ((s.setWorker w (.storing job fetched)).store p w job fetched).ready.lookup key =
        some chunk := hready
    rw [Queue.tryGetChunkPayload, hstored]
  rw [htake]
  exact List.mem_cons_self

/-- The demands are served in turn, up to that of the chunk. -/
theorem serve {key : Key} {job : Nat} (hcoalesces : p.Coalesces table)
    (hscheduled : p.scheduled key = some job) (hsource : p.hasSource key.1 = true)
    {offset length : Nat} (htable : table key = some (offset, length))
    (hfile : offset + length ≤ (file key.1).length) (ds : List Nat) {s : Queue}
    (hreach : Reachable p file s) (h : Sought s key job) (hds : s.demanded = ds) :
    ∃ u, Relation.ReflTransGen (Step p file) s u ∧ Answered u key := by
  induction ds generalizing s with
  | nil => exact absurd (hds ▸ h.demanded) List.not_mem_nil
  | cons d ds ih =>
      obtain ⟨u, hrun, hanswered | ⟨hsought, hwork, hdemanded⟩⟩ := @settle p file s key job h
      · exact ⟨u, hrun, hanswered⟩
      have hu : Reachable p file u := hreach.trans hrun
      rw [hds] at hdemanded
      obtain ⟨n, hclaim, hlen⟩ := claim_front hu.ledger (hu.contents hcoalesces) hsought hwork hdemanded
      have hpc : ({ u with nextJob := n }.grant p 0 d).workers[0]? =
          some (.fetching d u.nextId) := List.getElem?_set_self hlen
      by_cases heq : d = job
      · subst heq
        obtain ⟨v, hrun', hv⟩ := answer_of_fetching hcoalesces hscheduled hsource htable hfile hpc
          hsought.remaining
        exact ⟨v, (hrun.tail hclaim).trans hrun', hv⟩
      · have hmem : job ∈ ds := by
          have := hsought.demanded
          rw [hdemanded, List.mem_cons] at this
          exact this.resolve_left (Ne.symm heq)
        have hnext : Sought ({ u with nextJob := n }.grant p 0 d) key job := by
          have hworker : Sought (u.setWorker 0 (.fetching d u.nextId)) key job := hsought.setWorker nofun
          refine ⟨⟨hworker.running.error, hworker.running.shutdown, hworker.running.fetching⟩,
            hworker.remaining, ?_⟩
          show job ∈ u.demanded.tail
          rw [hdemanded]
          exact hmem
        obtain ⟨v, hrun', hv⟩ := ih (hu.tail hclaim) hnext (by
          show u.demanded.tail = ds
          rw [hdemanded]
          rfl)
        exact ⟨v, (hrun.tail hclaim).trans hrun', hv⟩

/-- Asking for a chunk of an evicted range demands the range. -/
theorem sought_of_evicted {s : Queue} {key : Key} {job : Nat}
    (hscheduled : p.scheduled key = some job) (hevicted : s.jobs job = .evicted)
    (hremaining : key ∈ s.remaining) (hrunning : Running s) :
    Answered (s.getChunkPayload p key) key ∨ Sought (s.getChunkPayload p key) key job := by
  have hdemanded : job ∈ (s.enter key job).demanded := by
    by_cases hmem : job ∈ s.demanded
    · simp [Queue.enter, hmem]
    · simp [Queue.enter, hmem, hremaining, hevicted]
  unfold Queue.getChunkPayload
  rw [hscheduled]
  cases hready : s.ready.lookup key with
  | some chunk =>
      have hpoll : (s.enter key job).poll key job = some ((s.enter key job).take key chunk) := by
        simp [Queue.poll, Queue.enter, hready]
      simp only [hpoll]
      exact .inl List.mem_cons_self
  | none =>
      have hpoll : (s.enter key job).poll key job = none := by
        simp [Queue.poll, Queue.enter, hready, hremaining, hrunning.error, hrunning.shutdown,
          hevicted]
      simp only [hpoll]
      exact .inr ⟨⟨hrunning.error, hrunning.shutdown, hrunning.fetching⟩, hremaining, hdemanded⟩

/-! ## Every reachable state -/

/-- Whatever was answered is right and was answered once, and what is held is what is
charged for the ranges that live. -/
structure Sound (p : Plan) (table : Key → Option (Nat × Nat)) (file : Nat → List UInt8)
    (s : Queue) : Prop where
  answers : ∀ a ∈ s.answers, Delivered table file a.1 a.2
  once : (s.answers.map Prod.fst).Nodup
  held : s.heldBytes = (s.charges.map BudgetCharge.bytes).sum
  cost : ∀ c ∈ s.charges, ∃ job, c.bytes = rangeBytes (p.range job)
  charged : (s.charges.map BudgetCharge.id).Nodup
  live : ∀ id ∈ s.refs, id ∈ s.charges.map BudgetCharge.id
  released : ∀ c ∈ s.charges, c.id ∉ s.refs → Step p file s (s.release c)
  alone : p.maxBufferedBytes < s.heldBytes → ∃ c, s.charges = [c]

/-- A chunk that was ready, and whose range is evicted later, can be had again: some run
answers it. -/
def Refetchable (p : Plan) (table : Key → Option (Nat × Nat)) (file : Nat → List UInt8)
    (s : Queue) : Prop :=
  ∀ key ∈ s.ready.map Prod.fst, ∀ t, Relation.ReflTransGen (Step p file) s t → Running t →
    ∀ job, p.scheduled key = some job → t.jobs job = .evicted → key ∈ t.remaining →
      ∃ u, Relation.ReflTransGen (Step p file) t u ∧
        ∃ bytes, (key, bytes) ∈ u.answers ∧ Delivered table file key bytes

theorem refetchable {s : Queue} (hcoalesces : p.Coalesces table) (h : Reachable p file s) :
    Refetchable p table file s := by
  intro key hready t hrun hrunning job hscheduled hevicted hremaining
  obtain ⟨e, he, rfl⟩ := List.mem_map.mp hready
  obtain ⟨hsource, offset, length, htable, -, hfile⟩ := (h.contents hcoalesces).ready e he
  have hget : Step p file t (t.getChunkPayload p e.1) := .get e.1
  have ht : Reachable p file (t.getChunkPayload p e.1) := (h.trans hrun).tail hget
  have hserved : ∃ u, Relation.ReflTransGen (Step p file) (t.getChunkPayload p e.1) u ∧
      Answered u e.1 := by
    rcases sought_of_evicted hscheduled hevicted hremaining hrunning with hanswered | hsought
    · exact ⟨_, .refl, hanswered⟩
    · exact serve hcoalesces hscheduled hsource htable hfile _ ht hsought rfl
  obtain ⟨u, hserve, hanswered⟩ := hserved
  obtain ⟨⟨key, bytes⟩, ha, hkey⟩ := List.mem_map.mp hanswered
  obtain rfl : key = e.1 := hkey
  have hu : Reachable p file u := ht.trans hserve
  exact ⟨u, .head hget hserve, bytes, ha, (hu.contents hcoalesces).answers _ ha⟩

/-- The queue answers every chunk at most once, with the bytes of its file, holds what is
charged, and can fetch again what it evicted. -/
theorem answers_right_bytes_once (hcoalesces : p.Coalesces table) {s : Queue}
    (h : Reachable p file s) : Sound p table file s ∧ Refetchable p table file s := by
  have hledger := h.ledger
  have hcontents := h.contents hcoalesces
  exact ⟨⟨hcontents.answers, hcontents.once, hledger.held, hledger.cost, hledger.nodup,
    hledger.refs, fun c hc hgone => .release hc hgone, hledger.alone⟩, refetchable hcoalesces h⟩

/-- Two chunks of a file of six bytes, in one range. -/
def twoChunks : Plan :=
  { ranges := coalesceChunkRanges [⟨0, 0, 1, 2⟩, ⟨0, 1, 4, 2⟩] 1 100
    hasSource := fun _ => true
    maxBufferedBytes := 2
    queueCapacity := 16
    numWorkers := 1 }

/-- Asked for its first chunk, the queue claims the range, which is larger than the limit, and
fetches it. The chunk is answered; the other one stays ready, and what is charged stays held. -/
theorem answers_right_bytes_once_twoChunks :
    let table : Key → Option (Nat × Nat) := fun key => some (1 + 3 * key.2, 2)
    let file : Nat → List UInt8 := fun _ => [0, 1, 2, 3, 4, 5]
    ∃ s, Reachable twoChunks file s ∧ s.answers = [((0, 0), [1, 2])] ∧
      s.ready.map (fun e => (e.1, e.2.bytes)) = [((0, 1), [4, 5])] ∧ s.heldBytes = 5 ∧
        Sound twoChunks table file s ∧ Refetchable twoChunks table file s := by
  intro table file
  let claimed := ((initial twoChunks).getChunkPayload twoChunks (0, 0)).claim twoChunks 0
  let chunks := slices (twoChunks.range 0) ⟨0, [1, 2, 3, 4, 5]⟩
  let stored := (claimed.setWorker 0 (.storing 0 chunks)).store twoChunks 0 0 chunks
  have hclaimed : Reachable twoChunks file claimed :=
    .tail (.single (.get (0, 0))) (.claim rfl)
  have hfetched : Reachable twoChunks file (claimed.setWorker 0 (.storing 0 chunks)) :=
    hclaimed.tail (.fetched rfl rfl (List.prefix_refl _))
  have hs : Reachable twoChunks file (stored.wake twoChunks (0, 0)) :=
    (hfetched.tail (.store rfl)).tail (.wake (by decide +kernel))
  exact ⟨_, hs, by decide +kernel, by decide +kernel, by decide +kernel,
    answers_right_bytes_once ⟨[(0, 0), (0, 1)], 1, 100, rfl⟩ hs⟩

end RasterH3.Raster.RemotePrefetch
