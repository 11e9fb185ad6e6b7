import RasterH3.Raster.RemotePrefetch
import RasterH3.Proofs.RemoteReads

/-!
# What the remote prefetch queue answers, and what it holds

Workers claim ranges of files, fetch them, cut them into chunks and store them; consumers
ask for chunks, wait for them, take them and release them; a range that was fetched in vain
is evicted, and the queue may be shut down or fail at any time. A state is whatever they
have left between two of their steps, in any order. Two things hold in every state that can
be reached.

The ledger: the bytes held are the bytes charged, and whatever is in flight or referred to
is charged (`Ledger`). A charge is made for a range when it is claimed, only if it fits or
nothing is held, and it is given back once when the last reference to the response is gone;
references are counted wherever they can be, in the hands of the workers, among the ready
chunks and with the consumers. Most steps hand references on, and need no more than that
none is new (`Ledger.frame`).

The contents: each chunk that is ready, about to be stored or answered is the one its file
has, a chunk that was answered is not among the remaining ones, and only remaining chunks
are ready (`Contents`). That a slice of a response is the chunk it is taken for goes back to
the coalescing of the ranges, whose slices are where the tables have the chunks (`Fits`);
that a response is whole goes back to the source, which is exact or fails.

What a consumer can do in one step is said once for its three entry points (`Consumed`), and
what a worker can do in its turn of `claim` too (`claim_cases`). Both invariants are then a
lemma for each kind of step.
-/

namespace RasterH3.Raster.RemotePrefetch

open Queue

variable {p : Plan} {table : Key → Option (Nat × Nat)} {file : Nat → List UInt8}

/-! ## Ranges and their slices -/

/-- The slices of a range are where the tables have the chunks. -/
def Fits (table : Key → Option (Nat × Nat)) (range : CoalescedRange) : Prop :=
  ∀ slice ∈ range.chunkSlices,
    table (range.tileIdx, slice.1) = some (range.startOffset + slice.2.1, slice.2.2) ∧
      0 < slice.2.2 ∧ slice.2.1 + slice.2.2 ≤ rangeBytes range

theorem Fits.single {chunk : ChunkLocation} (hpos : chunk.length ≠ 0)
    (h : table (chunk.tileIdx, chunk.chunkIdx) = some (chunk.offset, chunk.length)) :
    Fits table (.single chunk) := by
  intro slice hslice
  obtain rfl := List.mem_singleton.mp hslice
  refine ⟨h, Nat.pos_of_ne_zero hpos, ?_⟩
  show 0 + chunk.length ≤ chunk.offset + chunk.length - 1 - chunk.offset + 1
  omega

theorem Fits.append {curr : CoalescedRange} (hcurr : Fits table curr) {chunk : ChunkLocation}
    {gap bytes : Nat} (hpos : chunk.length ≠ 0)
    (h : table (chunk.tileIdx, chunk.chunkIdx) = some (chunk.offset, chunk.length))
    (hstart : curr.startOffset ≤ curr.endOffset) (hjoins : curr.joins chunk gap bytes) :
    Fits table (curr.append chunk) := by
  obtain ⟨htile, hafter, -, -⟩ := hjoins
  intro slice hslice
  simp only [CoalescedRange.append, rangeBytes] at hslice ⊢
  rcases List.mem_append.mp hslice with hold | hnew
  · obtain ⟨htable, hlen, hend⟩ := hcurr slice hold
    rw [rangeBytes] at hend
    exact ⟨htable, hlen, by omega⟩
  · obtain rfl := List.mem_singleton.mp hnew
    refine ⟨?_, Nat.pos_of_ne_zero hpos, by simp only; omega⟩
    simp only
    rw [htile, h, Nat.add_sub_cancel' (by omega)]

theorem coalesceLoop_fits {gap bytes : Nat} {chunks : List ChunkLocation}
    (h : ∀ c ∈ chunks, table (c.tileIdx, c.chunkIdx) = some (c.offset, c.length))
    {current : Option CoalescedRange}
    (hcurrent : ∀ curr ∈ current, Fits table curr ∧ curr.startOffset ≤ curr.endOffset) :
    ∀ range ∈ coalesceLoop gap bytes current chunks, Fits table range := by
  induction chunks generalizing current with
  | nil =>
      intro range hrange
      exact (hcurrent range (Option.mem_toList.mp hrange)).1
  | cons chunk chunks ih =>
      have htail := fun c hc => h c (List.mem_cons_of_mem chunk hc)
      rw [coalesceLoop.eq_def]
      simp only
      split
      next => exact ih htail hcurrent
      next hpos =>
        have hsingle : ∀ curr ∈ some (CoalescedRange.single chunk),
            Fits table curr ∧ curr.startOffset ≤ curr.endOffset := by
          rintro curr ⟨⟩
          refine ⟨.single hpos (h chunk List.mem_cons_self), ?_⟩
          show chunk.offset ≤ chunk.offset + chunk.length - 1
          omega
        cases current with
        | none => exact ih htail hsingle
        | some curr =>
            obtain ⟨hfits, hstart⟩ := hcurrent curr rfl
            simp only
            split
            next hjoins =>
              refine ih htail ?_
              rintro joined ⟨⟩
              refine ⟨hfits.append hpos (h chunk List.mem_cons_self) hstart hjoins, ?_⟩
              have hafter := hjoins.2.1
              show curr.startOffset ≤ chunk.offset + chunk.length - 1
              omega
            next =>
              intro range hrange
              rcases List.mem_cons.mp hrange with rfl | hrange
              · exact hfits
              · exact ih htail hsingle range hrange

theorem locations_table {keys : List Key} :
    ∀ c ∈ locations table keys, table (c.tileIdx, c.chunkIdx) = some (c.offset, c.length) := by
  intro c hc
  obtain ⟨key, -, hkey⟩ := List.mem_filterMap.mp hc
  obtain ⟨at_, hat, rfl⟩ := Option.map_eq_some_iff.mp hkey
  exact hat

/-- The ranges of a plan come from coalescing chunks of its files. -/
def Plan.Coalesces (p : Plan) (table : Key → Option (Nat × Nat)) : Prop :=
  ∃ keys gap bytes, p.ranges = coalesceChunkRanges (locations table keys) gap bytes

theorem Plan.Coalesces.fits (h : p.Coalesces table) (job : Nat) : Fits table (p.range job) := by
  obtain ⟨keys, gap, bytes, hranges⟩ := h
  rw [Plan.range]
  cases hget : p.ranges[job]? with
  | none =>
      intro slice hslice
      exact absurd hslice List.not_mem_nil
  | some range =>
      have hmem : range ∈ coalesceChunkRanges (locations table keys) gap bytes :=
        hranges ▸ List.mem_of_getElem? hget
      exact coalesceLoop_fits locations_table
        (fun curr hcurr => absurd hcurr (Option.not_mem_none curr)) range hmem

theorem scheduled_some {key : Key} {job : Nat} (h : p.scheduled key = some job) :
    job < p.totalJobs ∧ key ∈ Plan.keys (p.range job) := by
  refine ⟨?_, by simpa using List.find?_some h⟩
  simpa using List.mem_of_find?_eq_some h

theorem tile_of_scheduled {key : Key} {job : Nat} (h : p.scheduled key = some job) :
    key.1 = (p.range job).tileIdx := by
  obtain ⟨slice, -, rfl⟩ := List.mem_map.mp (scheduled_some h).2
  rfl

/-- What a source delivers over a truthful transport is what a step of the queue allows. -/
theorem step_of_fetchRange {s : Queue} {w job id : Nat} {src : RemoteHttpSource} {fetch : Fetch}
    {bytes : List UInt8} (hpc : s.workers[w]? = some (.fetching job id))
    (hsource : p.hasSource (p.range job).tileIdx = true)
    (hholds : Holds (file (p.range job).tileIdx) src)
    (htruthful : Truthful (file (p.range job).tileIdx) fetch)
    (hfetch : src.fetchRange fetch (p.range job).startOffset (p.range job).endOffset = .ok bytes) :
    Step p file s (s.setWorker w (.storing job (slices (p.range job) ⟨id, bytes⟩))) := by
  refine .fetched hpc hsource ?_
  unfold RemoteHttpSource.fetchRange at hfetch
  split at hfetch
  next copied hcopied =>
    split at hfetch
    next =>
      split at hfetch
      next => cases hfetch
      next =>
        obtain rfl := Except.ok.inj hfetch
        obtain ⟨full, hfull, rfl⟩ := Option.map_eq_some_iff.mp hcopied
        obtain rfl := hholds.complete full hfull
        split
        next => exact List.nil_prefix
        next => exact List.take_prefix _ _
    next => exact htruthful _ _ _ _ hfetch
  next => exact htruthful _ _ _ _ hfetch

/-! ## The ledger -/

structure Ledger (p : Plan) (s : Queue) : Prop where
  held : s.heldBytes = (s.charges.map BudgetCharge.bytes).sum
  /-- Only a range charged alone exceeds the limit. -/
  alone : p.maxBufferedBytes < s.heldBytes → ∃ c, s.charges = [c]
  cost : ∀ c ∈ s.charges, ∃ job, c.bytes = rangeBytes (p.range job)
  nodup : (s.charges.map BudgetCharge.id).Nodup
  fresh : ∀ c ∈ s.charges, c.id < s.nextId
  refs : ∀ id ∈ s.refs, id ∈ s.charges.map BudgetCharge.id

/-- A step that charges and releases nothing, and brings up no new reference. -/
theorem Ledger.frame {s s' : Queue} (h : Ledger p s) (hheld : s'.heldBytes = s.heldBytes)
    (hcharges : s'.charges = s.charges) (hnext : s'.nextId = s.nextId)
    (hrefs : ∀ id ∈ s'.refs, id ∈ s.refs) : Ledger p s' where
  held := by rw [hheld, hcharges, h.held]
  alone := by rw [hheld, hcharges]; exact h.alone
  cost := hcharges ▸ h.cost
  nodup := hcharges ▸ h.nodup
  fresh := by rw [hcharges, hnext]; exact h.fresh
  refs := fun id hid => hcharges ▸ h.refs id (hrefs id hid)

theorem mem_refs {s : Queue} {id : Nat} :
    id ∈ s.refs ↔ (∃ e ∈ s.ready, e.2.buffer.id = id) ∨ (∃ c ∈ s.taken, c.buffer.id = id) ∨
      ∃ pc ∈ s.workers, id ∈ workerRefs pc := by
  simp only [Queue.refs, List.mem_append, List.mem_map, List.mem_flatMap, or_assoc]

theorem mem_refs_setWorker {s : Queue} {w : Nat} {old pc : Worker}
    (hpc : s.workers[w]? = some old) (hsub : ∀ id ∈ workerRefs pc, id ∈ workerRefs old) :
    ∀ id ∈ (s.setWorker w pc).refs, id ∈ s.refs := by
  intro id hid
  rw [mem_refs] at hid ⊢
  rcases hid with hready | htaken | ⟨pc', hmem, hid⟩
  · exact .inl hready
  · exact .inr (.inl htaken)
  · refine .inr (.inr ?_)
    rcases List.mem_or_eq_of_mem_set hmem with hmem | rfl
    · exact ⟨pc', hmem, hid⟩
    · exact ⟨old, List.mem_of_getElem? hpc, hsub id hid⟩

theorem Ledger.setWorker {s : Queue} (h : Ledger p s) {w : Nat} {old pc : Worker}
    (hpc : s.workers[w]? = some old) (hsub : ∀ id ∈ workerRefs pc, id ∈ workerRefs old) :
    Ledger p (s.setWorker w pc) :=
  h.frame rfl rfl rfl (mem_refs_setWorker hpc hsub)

/-- A charge is claimed only if it fits, or if nothing is held. -/
theorem Ledger.grant {s : Queue} (h : Ledger p s) {w job : Nat}
    (hfits : s.heldBytes = 0 ∨ rangeBytes (p.range job) ≤ p.maxBufferedBytes - s.heldBytes) :
    Ledger p (s.grant p w job) where
  held := by
    show s.heldBytes + _ = _ + (s.charges.map BudgetCharge.bytes).sum
    rw [h.held, Nat.add_comm]
  alone := by
    intro hover
    change p.maxBufferedBytes < s.heldBytes + rangeBytes (p.range job) at hover
    have hpos : 0 < rangeBytes (p.range job) := Nat.succ_pos _
    rcases hfits with hzero | hfits
    · refine ⟨⟨s.nextId, rangeBytes (p.range job)⟩, ?_⟩
      have hnone : s.charges = [] := by
        cases hc : s.charges with
        | nil => rfl
        | cons c cs =>
            obtain ⟨job', hcost⟩ := h.cost c (hc ▸ List.mem_cons_self)
            have hheld := h.held
            rw [hzero, hc, List.map_cons, List.sum_cons, hcost, rangeBytes] at hheld
            omega
      show _ :: s.charges = _
      rw [hnone]
    · omega
  cost := by
    intro c hc
    rcases List.mem_cons.mp hc with rfl | hc
    · exact ⟨job, rfl⟩
    · exact h.cost c hc
  nodup := by
    refine List.nodup_cons.mpr ⟨fun hmem => ?_, h.nodup⟩
    obtain ⟨c, hc, hid⟩ := List.mem_map.mp hmem
    exact absurd (h.fresh c hc) (by rw [hid]; exact lt_irrefl _)
  fresh := by
    intro c hc
    rcases List.mem_cons.mp hc with rfl | hc
    · exact Nat.lt_succ_self _
    · exact Nat.lt_succ_of_lt (h.fresh c hc)
  refs := by
    intro id hid
    show id ∈ s.nextId :: s.charges.map BudgetCharge.id
    rw [List.mem_cons]
    rw [mem_refs] at hid
    rcases hid with hready | htaken | ⟨pc, hmem, hid⟩
    · exact .inr (h.refs id (mem_refs.mpr (.inl hready)))
    · exact .inr (h.refs id (mem_refs.mpr (.inr (.inl htaken))))
    · rcases List.mem_or_eq_of_mem_set hmem with hmem | rfl
      · exact .inr (h.refs id (mem_refs.mpr (.inr (.inr ⟨pc, hmem, hid⟩))))
      · exact .inl (List.mem_singleton.mp hid)

theorem Ledger.release {s : Queue} (h : Ledger p s) {c : BudgetCharge} (hc : c ∈ s.charges)
    (hgone : c.id ∉ s.refs) : Ledger p (s.release c) := by
  obtain ⟨before, after, hsplit⟩ := List.append_of_mem hc
  have hnodup := h.nodup
  rw [hsplit, List.map_append, List.map_cons, List.nodup_append] at hnodup
  obtain ⟨-, hafter, hdisjoint⟩ := hnodup
  have hbefore : ∀ other ∈ before, other.id ≠ c.id := fun other hother =>
    hdisjoint _ (List.mem_map_of_mem hother) _ List.mem_cons_self
  have hnot := (List.nodup_cons.mp hafter).1
  have hrest : (s.release c).charges = before ++ after := by
    show s.charges.filter _ = _
    rw [hsplit, List.filter_append, List.filter_cons_of_neg (by simp),
      List.filter_eq_self.mpr fun o ho => by simpa using hbefore o ho,
      List.filter_eq_self.mpr fun o ho => by
        have : o.id ≠ c.id := fun heq => hnot (heq ▸ List.mem_map_of_mem ho)
        simpa using this]
  have hsub : ∀ o ∈ (s.release c).charges, o ∈ s.charges := fun o ho => List.mem_of_mem_filter ho
  have hheld : s.heldBytes = c.bytes + ((before ++ after).map BudgetCharge.bytes).sum := by
    rw [h.held, hsplit]
    simp only [List.map_append, List.map_cons, List.sum_append, List.sum_cons]
    omega
  have hsum : (s.release c).heldBytes = ((before ++ after).map BudgetCharge.bytes).sum := by
    show s.heldBytes - c.bytes = _
    omega
  refine ⟨hrest ▸ hsum, fun hover => ?_, fun o ho => h.cost o (hsub o ho), ?_,
    fun o ho => h.fresh o (hsub o ho), fun id hid => ?_⟩
  · obtain ⟨c', hc'⟩ := h.alone (by omega)
    have hlength : (before ++ after).length = 0 := by
      have := congrArg List.length (hsplit.symm.trans hc')
      simp only [List.length_append, List.length_cons, List.length_nil] at this ⊢
      omega
    rw [List.length_eq_zero_iff.mp hlength, List.map_nil, List.sum_nil] at hsum
    omega
  · exact h.nodup.sublist (List.filter_sublist.map _)
  · obtain ⟨o, ho, rfl⟩ := List.mem_map.mp (h.refs id hid)
    refine List.mem_map_of_mem (List.mem_filter.mpr ⟨ho, ?_⟩)
    have : o.id ≠ c.id := fun heq => hgone (heq ▸ hid)
    simpa using this

/-! ## What a step can do -/

/-- A turn of `claim` ends the worker, waits, charges a range or evicts. -/
theorem claim_cases (p : Plan) (s : Queue) (w : Nat) :
    (s.shutdown = true ∨ s.remaining = ∅) ∧ s.claim p w = s.setWorker w .exited ∨
      ∃ n, s.claim p w = { s with nextJob := n } ∨
        s.claim p w = { s with nextJob := n }.evict p w ∨
          ∃ job, (job ∈ s.demanded ∨ job < p.totalJobs) ∧
            (s.heldBytes = 0 ∨ rangeBytes (p.range job) ≤ p.maxBufferedBytes - s.heldBytes) ∧
              s.claim p w = { s with nextJob := n }.grant p w job := by
  unfold Queue.claim
  split
  next hclosed => exact .inl ⟨hclosed, rfl⟩
  next =>
    refine .inr ⟨s.skipClaimed p, ?_⟩
    simp only
    split
    next => exact .inl rfl
    next job hjob =>
      split
      next hfits =>
        refine .inr (.inr ⟨job, ?_, hfits.imp_right And.left, rfl⟩)
        rcases Option.or_eq_some_iff.mp hjob with hdemand | ⟨-, hnext⟩
        · exact .inl (List.mem_of_head? hdemand)
        · split at hnext
          next hlt => exact .inr (Option.some.inj hnext ▸ hlt)
          next => cases hnext
      next =>
        split
        next => exact .inr (.inl rfl)
        next => exact .inl rfl

/-- Asking changes who is waiting for what. -/
def Asked (p : Plan) (s t : Queue) : Prop :=
  ∃ requested demanded waiting, t = { s with requested, demanded, waiting } ∧
    ∀ job ∈ demanded, job ∈ s.demanded ∨ job < p.totalJobs

/-- A consumer changes who is waiting, and may take a ready chunk. -/
def Consumed (p : Plan) (s s' : Queue) : Prop :=
  ∃ t, Asked p s t ∧
    (s' = t ∨ ∃ key chunk, s.ready.lookup key = some chunk ∧ s' = t.take key chunk)

theorem poll_cases {s s' : Queue} {key : Key} {job : Nat} (h : s.poll key job = some s') :
    s' = s ∨ ∃ chunk, s.ready.lookup key = some chunk ∧ s' = s.take key chunk := by
  unfold Queue.poll at h
  split at h
  next chunk hready => exact .inr ⟨chunk, hready, (Option.some.inj h).symm⟩
  next =>
    split at h
    next => exact .inl (Option.some.inj h).symm
    next => cases h

theorem consumed_getChunkPayload (p : Plan) (s : Queue) (key : Key) :
    Consumed p s (s.getChunkPayload p key) := by
  unfold Queue.getChunkPayload
  split
  next => exact ⟨s, ⟨_, _, _, rfl, fun _ h => .inl h⟩, .inl rfl⟩
  next job hjob =>
    have hdemanded : ∀ d ∈ (s.enter key job).demanded, d ∈ s.demanded ∨ d < p.totalJobs := by
      intro d hd
      unfold Queue.enter at hd
      simp only at hd
      split at hd
      next =>
        rcases List.mem_append.mp hd with hd | hd
        · exact .inl hd
        · exact .inr (List.mem_singleton.mp hd ▸ (scheduled_some hjob).1)
      next => exact .inl hd
    split
    next s' hpoll =>
      rcases poll_cases hpoll with rfl | ⟨chunk, hready, rfl⟩
      · exact ⟨_, ⟨_, _, _, rfl, hdemanded⟩, .inl rfl⟩
      · exact ⟨(s.enter key job).leave job, ⟨_, _, _, rfl, hdemanded⟩,
          .inr ⟨key, chunk, hready, rfl⟩⟩
    next => exact ⟨_, ⟨_, _, _, rfl, hdemanded⟩, .inl rfl⟩

theorem consumed_wake (p : Plan) (s : Queue) (key : Key) : Consumed p s (s.wake p key) := by
  have hself : Consumed p s s := ⟨s, ⟨_, _, _, rfl, fun _ h => .inl h⟩, .inl rfl⟩
  unfold Queue.wake
  split
  next => exact hself
  next job _ =>
    split
    next s' hpoll =>
      rcases poll_cases hpoll with rfl | ⟨chunk, hready, rfl⟩
      · exact ⟨_, ⟨_, _, _, rfl, fun _ h => .inl h⟩, .inl rfl⟩
      · exact ⟨{ s.leave job with waiting := s.waiting.erase key },
          ⟨_, _, _, rfl, fun _ h => .inl h⟩, .inr ⟨key, chunk, hready, rfl⟩⟩
    next => exact hself

theorem consumed_tryGetChunkPayload (p : Plan) (s : Queue) (key : Key) :
    Consumed p s (s.tryGetChunkPayload key) := by
  refine ⟨s, ⟨_, _, _, rfl, fun _ h => .inl h⟩, ?_⟩
  unfold Queue.tryGetChunkPayload
  split
  next chunk hready => exact .inr ⟨key, chunk, hready, rfl⟩
  next => exact .inl rfl

theorem mem_of_lookup {ready : List (Key × PrefetchedChunk)} {key : Key} {chunk : PrefetchedChunk}
    (h : ready.lookup key = some chunk) : (key, chunk) ∈ ready := by
  obtain ⟨before, after, rfl, -⟩ := List.lookup_eq_some_iff.mp h
  exact List.mem_append_right _ List.mem_cons_self

theorem mem_refs_take {s : Queue} {key : Key} {chunk : PrefetchedChunk}
    (h : s.ready.lookup key = some chunk) : ∀ id ∈ (s.take key chunk).refs, id ∈ s.refs := by
  intro id hid
  rw [mem_refs] at hid ⊢
  rcases hid with ⟨e, he, hid⟩ | ⟨c, hc, hid⟩ | hworkers
  · exact .inl ⟨e, List.mem_of_mem_filter he, hid⟩
  · rcases List.mem_cons.mp hc with rfl | hc
    · exact .inl ⟨_, mem_of_lookup h, hid⟩
    · exact .inr (.inl ⟨c, hc, hid⟩)
  · exact .inr (.inr hworkers)

theorem Ledger.consumed {s s' : Queue} (h : Ledger p s) (hstep : Consumed p s s') : Ledger p s' := by
  obtain ⟨t, ⟨requested, demanded, waiting, rfl, -⟩, rfl | ⟨key, chunk, hready, rfl⟩⟩ := hstep
  · exact h.frame rfl rfl rfl fun _ hid => hid
  · exact h.frame rfl rfl rfl (mem_refs_take hready)

/-- What the loop over the chunks of a response keeps and leaves over. -/
theorem mem_storeLoop {s : Queue} {job : Nat} {chunks ready : List (Key × PrefetchedChunk)}
    {unused : List PrefetchedChunk} :
    (∀ e ∈ (s.storeLoop p job chunks ready unused).1,
      e ∈ ready ∨ e ∈ chunks ∧ p.scheduled e.1 = some job ∧ e.1 ∈ s.remaining) ∧
      ∀ c ∈ (s.storeLoop p job chunks ready unused).2, c ∈ unused ∨ ∃ e ∈ chunks, e.2 = c := by
  induction chunks generalizing ready unused with
  | nil => exact ⟨fun _ h => .inl h, fun _ h => .inl h⟩
  | cons entry chunks ih =>
      rw [Queue.storeLoop]
      split
      next hwanted =>
        simp only [Queue.wanted, Bool.and_eq_true, decide_eq_true_eq] at hwanted
        refine ⟨fun e he => ?_, fun c hc => ?_⟩
        · rcases ih.1 e he with hold | ⟨hin, hkept⟩
          · rcases List.mem_cons.mp hold with rfl | hold
            · exact .inr ⟨List.mem_cons_self, hwanted.1⟩
            · exact .inl hold
          · exact .inr ⟨List.mem_cons_of_mem _ hin, hkept⟩
        · exact (ih.2 c hc).imp_right fun ⟨e, he, heq⟩ => ⟨e, List.mem_cons_of_mem _ he, heq⟩
      next =>
        refine ⟨fun e he => ?_, fun c hc => ?_⟩
        · exact (ih.1 e he).imp_right fun ⟨hin, hkept⟩ => ⟨List.mem_cons_of_mem _ hin, hkept⟩
        · rcases ih.2 c hc with hold | ⟨e, he, heq⟩
          · rcases List.mem_cons.mp hold with rfl | hold
            · exact .inr ⟨entry, List.mem_cons_self, rfl⟩
            · exact .inl hold
          · exact .inr ⟨e, List.mem_cons_of_mem _ he, heq⟩

theorem mem_refs_store {s : Queue} {w job : Nat} {chunks : List (Key × PrefetchedChunk)}
    (hpc : s.workers[w]? = some (.storing job chunks)) :
    ∀ id ∈ (s.store p w job chunks).refs, id ∈ s.refs := by
  have hchunk : ∀ e ∈ chunks, e.2.buffer.id ∈ s.refs := fun e he =>
    mem_refs.mpr (.inr (.inr ⟨_, List.mem_of_getElem? hpc, List.mem_map_of_mem he⟩))
  intro id hid
  rw [mem_refs] at hid
  rcases hid with ⟨e, he, rfl⟩ | htaken | ⟨pc, hmem, hid⟩
  · rcases mem_storeLoop.1 e he with hold | ⟨hin, -⟩
    · exact mem_refs.mpr (.inl ⟨e, hold, rfl⟩)
    · exact hchunk e hin
  · exact mem_refs.mpr (.inr (.inl htaken))
  · rcases List.mem_or_eq_of_mem_set hmem with hmem | rfl
    · exact mem_refs.mpr (.inr (.inr ⟨pc, hmem, hid⟩))
    · obtain ⟨c, hc, rfl⟩ := List.mem_map.mp hid
      rcases mem_storeLoop.2 c hc with hold | ⟨e, he, rfl⟩
      · cases hold
      · exact hchunk e he

theorem mem_refs_evict {s : Queue} {w : Nat} : ∀ id ∈ (s.evict p w).refs, id ∈ s.refs := by
  intro id hid
  rw [mem_refs] at hid ⊢
  rcases hid with ⟨e, he, hid⟩ | htaken | ⟨pc, hmem, hid⟩
  · exact .inl ⟨e, List.mem_of_mem_filter he, hid⟩
  · exact .inr (.inl htaken)
  · rcases List.mem_or_eq_of_mem_set hmem with hmem | rfl
    · exact .inr (.inr ⟨pc, hmem, hid⟩)
    · obtain ⟨c, hc, rfl⟩ := List.mem_map.mp hid
      obtain ⟨e, he, rfl⟩ := List.mem_map.mp hc
      exact .inl ⟨e, List.mem_of_mem_filter he, rfl⟩

theorem mem_slices_refs {range : CoalescedRange} {buffer : ResponseBuffer} {job : Nat} :
    ∀ id ∈ workerRefs (.storing job (slices range buffer)), id = buffer.id := by
  intro id hid
  obtain ⟨e, he, rfl⟩ := List.mem_map.mp hid
  obtain ⟨slice, -, rfl⟩ := List.mem_map.mp he
  rfl

theorem Ledger.step {s s' : Queue} (h : Ledger p s) (hstep : Step p file s s') : Ledger p s' := by
  cases hstep with
  | @claim w hpc =>
      rcases claim_cases p s w with ⟨-, heq⟩ | ⟨n, heq | heq | ⟨job, -, hfits, heq⟩⟩
      · exact heq ▸ h.setWorker hpc fun _ hid => hid
      · exact heq ▸ h.frame rfl rfl rfl fun _ hid => hid
      · exact heq ▸ h.frame rfl rfl rfl mem_refs_evict
      · have hn : Ledger p { s with nextJob := n } := h.frame rfl rfl rfl fun _ hid => hid
        exact heq ▸ hn.grant hfits
  | dropped hpc => exact h.setWorker hpc fun _ hid => List.mem_cons_of_mem _ hid
  | doneDropping hpc => exact h.setWorker hpc fun _ hid => hid
  | noSource hpc => exact h.setWorker hpc fun _ hid => absurd hid List.not_mem_nil
  | @finish w job hpc =>
      have hworker : Ledger p (s.setWorker w .claiming) := h.setWorker hpc fun _ hid => hid
      exact hworker.frame rfl rfl rfl fun _ hid => hid
  | fetched hpc =>
      refine h.setWorker hpc fun id hid => ?_
      rw [mem_slices_refs id hid]
      exact List.mem_singleton_self _
  | fetchFailed message hpc => exact h.setWorker hpc fun _ hid => absurd hid List.not_mem_nil
  | store hpc => exact h.frame rfl rfl rfl (mem_refs_store hpc)
  | @publish w message hpc =>
      have hworker : Ledger p (s.setWorker w .exited) := h.setWorker hpc fun _ hid => hid
      exact hworker.frame rfl rfl rfl fun _ hid => hid
  | get key => exact h.consumed (consumed_getChunkPayload p s key)
  | wake => exact h.consumed (consumed_wake p s _)
  | tryGet key => exact h.consumed (consumed_tryGetChunkPayload p s key)
  | dropTaken i =>
      refine h.frame rfl rfl rfl fun id hid => ?_
      rw [mem_refs] at hid ⊢
      exact hid.imp_right (Or.imp_left fun ⟨c, hc, heq⟩ => ⟨c, List.mem_of_mem_eraseIdx hc, heq⟩)
  | cloneTaken htaken =>
      refine h.frame rfl rfl rfl fun id hid => ?_
      rw [mem_refs] at hid ⊢
      refine hid.imp_right (Or.imp_left fun ⟨c, hc, heq⟩ => ?_)
      rcases List.mem_cons.mp hc with rfl | hc
      · exact ⟨_, htaken, heq⟩
      · exact ⟨c, hc, heq⟩
  | release hc hgone => exact h.release hc hgone
  | cancel => exact h.frame rfl rfl rfl fun _ hid => hid

theorem Ledger.initial : Ledger p (initial p) where
  held := rfl
  alone := fun h => absurd h (Nat.not_lt_zero _)
  cost := fun c hc => absurd hc List.not_mem_nil
  nodup := List.nodup_nil
  fresh := fun c hc => absurd hc List.not_mem_nil
  refs := by
    intro id hid
    rw [mem_refs] at hid
    rcases hid with ⟨e, he, -⟩ | ⟨c, hc, -⟩ | ⟨pc, hpc, hid⟩
    · cases he
    · cases hc
    · obtain rfl := List.eq_of_mem_replicate hpc
      cases hid

/-! ## The contents -/

/-- The bytes are those of the chunk in its file. -/
def Delivered (table : Key → Option (Nat × Nat)) (file : Nat → List UInt8) (key : Key)
    (bytes : List UInt8) : Prop :=
  ∃ offset length, table key = some (offset, length) ∧
    bytes = ((file key.1).drop offset).take length ∧ offset + length ≤ (file key.1).length

/-- A chunk that came from a source. -/
def Genuine (p : Plan) (table : Key → Option (Nat × Nat)) (file : Nat → List UInt8) (key : Key)
    (chunk : PrefetchedChunk) : Prop :=
  p.hasSource key.1 = true ∧ Delivered table file key chunk.bytes

theorem genuine_slices {range : CoalescedRange} (hfits : Fits table range) {id : Nat}
    {bytes : List UInt8} (hsource : p.hasSource range.tileIdx = true)
    (hbytes : bytes <+: (file range.tileIdx).drop range.startOffset) :
    ∀ e ∈ slices range ⟨id, bytes⟩, Genuine p table file e.1 e.2 := by
  intro e he
  obtain ⟨slice, hslice, rfl⟩ := List.mem_map.mp he
  obtain ⟨hmem, hwhole⟩ := List.mem_filter.mp hslice
  simp only [decide_eq_true_eq] at hwhole
  obtain ⟨htable, hpos, -⟩ := hfits slice hmem
  obtain ⟨rest, hrest⟩ := hbytes
  refine ⟨hsource, _, _, htable, ?_, ?_⟩
  · show (bytes.drop slice.2.1).take slice.2.2 = _
    rw [← List.drop_drop, ← hrest, List.drop_append_of_le_length (by omega),
      List.take_append_of_le_length (by rw [List.length_drop]; omega)]
  · have hlen := congrArg List.length hrest
    rw [List.length_append, List.length_drop] at hlen
    show range.startOffset + slice.2.1 + slice.2.2 ≤ (file range.tileIdx).length
    omega

/-- The queue is at its end, or there is nothing left to prefetch. -/
def Closed (s : Queue) : Prop := s.error.isSome = true ∨ s.shutdown = true ∨ s.remaining = ∅

structure Contents (p : Plan) (table : Key → Option (Nat × Nat)) (file : Nat → List UInt8)
    (s : Queue) : Prop where
  ready : ∀ e ∈ s.ready, Genuine p table file e.1 e.2
  storing : ∀ pc ∈ s.workers, ∀ job chunks, pc = .storing job chunks →
    ∀ e ∈ chunks, Genuine p table file e.1 e.2
  remaining : ∀ e ∈ s.ready, e.1 ∈ s.remaining
  answers : ∀ a ∈ s.answers, Delivered table file a.1 a.2
  gone : ∀ a ∈ s.answers, a.1 ∉ s.remaining
  once : (s.answers.map Prod.fst).Nodup
  evicted : ∀ job, s.jobs job = .evicted → p.hasSource (p.range job).tileIdx = true
  demanded : ∀ job ∈ s.demanded, job < p.totalJobs
  exited : .exited ∈ s.workers → Closed s
  count : s.workers.length = min (max 1 (min p.numWorkers 32)) p.totalJobs

theorem Contents.setWorker {s : Queue} (h : Contents p table file s) {w : Nat} {pc : Worker}
    (hstoring : ∀ job chunks, pc = .storing job chunks → ∀ e ∈ chunks, Genuine p table file e.1 e.2)
    (hexited : pc = .exited → Closed s) : Contents p table file (s.setWorker w pc) where
  ready := h.ready
  storing := by
    intro pc' hmem
    rcases List.mem_or_eq_of_mem_set hmem with hmem | rfl
    · exact h.storing pc' hmem
    · exact hstoring
  remaining := h.remaining
  answers := h.answers
  gone := h.gone
  once := h.once
  evicted := h.evicted
  demanded := h.demanded
  exited := by
    intro hmem
    rcases List.mem_or_eq_of_mem_set hmem with hmem | heq
    · exact h.exited hmem
    · exact hexited heq.symm
  count := (List.length_set ..).trans h.count

/-- A program counter that holds no chunks of its own and is not the end. -/
theorem Contents.moveWorker {s : Queue} (h : Contents p table file s) {w : Nat} {pc : Worker}
    (hpc : ∀ job chunks, pc ≠ .storing job chunks) (hexited : pc ≠ .exited) :
    Contents p table file (s.setWorker w pc) :=
  h.setWorker (fun job chunks heq => absurd heq (hpc job chunks)) fun heq => absurd heq hexited

theorem Contents.setJob {s : Queue} (h : Contents p table file s) {job : Nat} {state : JobState}
    (hstate : state ≠ .evicted) : Contents p table file (s.setJob job state) :=
  { h with
    evicted := by
      intro job' hjob
      by_cases heq : job' = job
      · subst heq
        exact absurd ((Function.update_self ..).symm.trans hjob) hstate
      · exact h.evicted job' ((Function.update_of_ne heq ..).symm.trans hjob) }

theorem Contents.consumed {s s' : Queue} (h : Contents p table file s) (hstep : Consumed p s s') :
    Contents p table file s' := by
  obtain ⟨t, ⟨requested, demanded, waiting, rfl, hdemanded⟩, hs'⟩ := hstep
  have hasked : Contents p table file { s with requested, demanded, waiting } :=
    { h with demanded := fun job hjob => (hdemanded job hjob).elim (h.demanded job) id }
  rcases hs' with rfl | ⟨key, chunk, hlookup, rfl⟩
  · exact hasked
  · have hready := mem_of_lookup hlookup
    have hclosed : Closed s → Closed (({ s with requested, demanded, waiting } : Queue).take key chunk) :=
      Or.imp_right (Or.imp_right fun hempty => by
        show s.remaining.erase key = ∅
        rw [hempty, Finset.erase_empty])
    refine { hasked with
      ready := fun e he => h.ready e (List.mem_of_mem_filter he)
      remaining := ?_, answers := ?_, gone := ?_, once := ?_
      exited := fun hmem => hclosed (h.exited hmem) }
    · intro e he
      obtain ⟨hmem, hne⟩ := List.mem_filter.mp he
      exact Finset.mem_erase.mpr ⟨by simpa using hne, h.remaining e hmem⟩
    · intro a ha
      rcases List.mem_cons.mp ha with rfl | ha
      · exact (h.ready _ hready).2
      · exact h.answers a ha
    · intro a ha
      rcases List.mem_cons.mp ha with rfl | ha
      · exact Finset.notMem_erase _ _
      · exact fun hmem => h.gone a ha (Finset.mem_of_mem_erase hmem)
    · refine List.nodup_cons.mpr ⟨fun hmem => ?_, h.once⟩
      obtain ⟨a, ha, heq⟩ := List.mem_map.mp hmem
      exact h.gone a ha (heq ▸ h.remaining _ hready)

theorem Contents.evict {s : Queue} (h : Contents p table file s) (w : Nat) :
    Contents p table file (s.evict p w) := by
  have hdropping : Contents p table file (s.setWorker w
      (.dropping ((s.ready.filter (s.evictable p)).map Prod.snd))) :=
    h.moveWorker (fun _ _ => nofun) nofun
  refine { hdropping with
    ready := fun e he => h.ready e (List.mem_of_mem_filter he)
    remaining := fun e he => h.remaining e (List.mem_of_mem_filter he)
    evicted := ?_ }
  intro job hjob
  simp only [Queue.evict] at hjob
  split at hjob
  next hany =>
    obtain ⟨e, he, hscheduled⟩ := List.any_eq_true.mp hany
    have hsource := (h.ready e (List.mem_of_mem_filter he)).1
    rwa [tile_of_scheduled (by simpa using hscheduled)] at hsource
  next => exact h.evicted job hjob

theorem Contents.grant {s : Queue} (h : Contents p table file s) {w job : Nat} :
    Contents p table file (s.grant p w job) := by
  have hjob : Contents p table file (s.setJob job .inFlight) := h.setJob nofun
  have hfetching : Contents p table file ((s.setJob job .inFlight).setWorker w
      (.fetching job s.nextId)) :=
    hjob.moveWorker (fun _ _ => nofun) nofun
  exact { hfetching with demanded := fun d hd => h.demanded d (List.mem_of_mem_tail hd) }

theorem Contents.store {s : Queue} (h : Contents p table file s) {w job : Nat}
    {chunks : List (Key × PrefetchedChunk)} (hpc : s.workers[w]? = some (.storing job chunks)) :
    Contents p table file (s.store p w job chunks) := by
  have hjob : Contents p table file (s.setJob job .finished) := h.setJob nofun
  have hdropping : Contents p table file ((s.setJob job .finished).setWorker w
      (.dropping (s.storeLoop p job chunks s.ready []).2)) :=
    hjob.moveWorker (fun _ _ => nofun) nofun
  refine { hdropping with ready := fun e he => ?_, remaining := fun e he => ?_ }
  · rcases mem_storeLoop.1 e he with hold | ⟨hin, -⟩
    · exact h.ready e hold
    · exact h.storing _ (List.mem_of_getElem? hpc) job chunks rfl e hin
  · rcases mem_storeLoop.1 e he with hold | ⟨-, -, hkept⟩
    · exact h.remaining e hold
    · exact hkept

theorem Contents.step (hfits : ∀ job, Fits table (p.range job)) {s s' : Queue}
    (h : Contents p table file s) (hstep : Step p file s s') : Contents p table file s' := by
  cases hstep with
  | @claim w hpc =>
      rcases claim_cases p s w with ⟨hclosed, heq⟩ | ⟨n, heq | heq | ⟨job, -, -, heq⟩⟩
      · exact heq ▸ h.setWorker (fun _ _ => nofun) fun _ => .inr hclosed
      · exact heq ▸ { h with }
      · have hn : Contents p table file { s with nextJob := n } := { h with }
        exact heq ▸ hn.evict w
      · have hn : Contents p table file { s with nextJob := n } := { h with }
        exact heq ▸ hn.grant
  | dropped => exact h.moveWorker (fun _ _ => nofun) nofun
  | doneDropping => exact h.moveWorker (fun _ _ => nofun) nofun
  | noSource => exact h.moveWorker (fun _ _ => nofun) nofun
  | @finish w job hpc =>
      have hjob : Contents p table file (s.setJob job .finished) := h.setJob nofun
      exact hjob.moveWorker (fun _ _ => nofun) nofun
  | fetched hpc hsource hbytes =>
      refine h.setWorker (fun job chunks heq => ?_) nofun
      obtain ⟨rfl, rfl⟩ := Worker.storing.inj heq
      exact genuine_slices (hfits _) hsource hbytes
  | fetchFailed => exact h.moveWorker (fun _ _ => nofun) nofun
  | store hpc => exact h.store hpc
  | @publish w message hpc =>
      have herror : (s.publishError message).error.isSome = true := by
        show (s.error.or (some message)).isSome = true
        cases s.error <;> rfl
      have hpublished : Contents p table file (s.publishError message) :=
        { h with exited := fun _ => .inl herror }
      exact hpublished.setWorker (fun _ _ => nofun) fun _ => .inl herror
  | get key => exact h.consumed (consumed_getChunkPayload p s key)
  | wake => exact h.consumed (consumed_wake p s _)
  | tryGet key => exact h.consumed (consumed_tryGetChunkPayload p s key)
  | dropTaken i => exact { h with }
  | cloneTaken => exact { h with }
  | release => exact { h with }
  | cancel => exact { h with exited := fun _ => .inr (.inl rfl) }

theorem Contents.initial : Contents p table file (initial p) where
  ready := fun e he => absurd he List.not_mem_nil
  storing := by
    rintro pc hpc job chunks rfl
    cases List.eq_of_mem_replicate hpc
  remaining := fun e he => absurd he List.not_mem_nil
  answers := fun a ha => absurd ha List.not_mem_nil
  gone := fun a ha => absurd ha List.not_mem_nil
  once := List.nodup_nil
  evicted := fun job hjob => nomatch hjob
  demanded := fun job hjob => absurd hjob List.not_mem_nil
  exited := fun hmem => nomatch List.eq_of_mem_replicate hmem
  count := List.length_replicate

theorem Queue.Reachable.ledger {s : Queue} (h : Reachable p file s) : Ledger p s := by
  induction h with
  | refl => exact .initial
  | tail _ hstep ih => exact ih.step hstep

theorem Queue.Reachable.contents (hcoalesces : p.Coalesces table) {s : Queue} (h : Reachable p file s) :
    Contents p table file s := by
  induction h with
  | refl => exact .initial
  | tail _ hstep ih => exact ih.step hcoalesces.fits hstep

end RasterH3.Raster.RemotePrefetch
