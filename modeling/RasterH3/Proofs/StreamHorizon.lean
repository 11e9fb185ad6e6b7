import RasterH3.Proofs.StreamRuns

/-!
# The published horizon

A consumer that builds tiles closes those that lie north of the published horizon, so
nothing may come north of it any more. When it is published, the output is empty, no
resolution has spilled and the sweep before it has left nothing in the maps that lies north
of the eviction horizon; the chunks that are still to come stay south of it too. From there
on `Ahead` holds: every cell that is still to be emitted lies south of what was published,
and so does what waits in the buffers. The published horizon stays behind while runs are on
disk, and that is why they may be emitted late.

This is about scans that can evict early. A scan none of whose chunks has a finite bound
publishes the end of all latitudes before it has emitted anything.

That it is sound has two parts. At the moment of publishing everything that is due has left,
which is a fact about the sweep, the batch and the bounds of the chunks behind it.
Afterwards the bound must survive rounds that move cells from the maps into readers and from
there to the output, and it does because a cell that is emitted was due before
(`Ahead.emit`). So the statement about a page that a consumer has been given holds for every
later page (`published_horizon_sound`).
-/

namespace RasterH3.Agg

open AccumulatorMerge SpillAccumulator Keyed

variable {A L C X : Type} {n : Nat} [SpillAccumulator A] [LinearOrder L]

/-! ## Which maps keep eviction keys -/

/-- A map keeps eviction keys as long as nothing of its resolution is on disk. -/
def TracksUnspilled (s : MultiHorizonStreamer A L C n) : Prop :=
  ∀ i, (s.spillRuns i).hasSpilled = false → (s.resolutionShards i).trackEviction = true

/-- A run that has records is counted. -/
theorem pushSorted_hasSpilled {runs runs' : SpillRuns} {records : List (CellIndex × A)}
    (hsorted : Sorted records) (h : runs.pushSorted records = .ok runs') :
    records = [] ∧ runs' = runs ∨ runs'.hasSpilled = true := by
  rw [SpillRuns.pushSorted] at h
  rcases writeSorted_cases runs.limit records none hsorted (by simp) with ⟨hok, -⟩ | ⟨hfail, -⟩
  · rw [hok] at h
    have h : (if records.length = 0 then pure runs else _) = Except.ok runs' := h
    split at h
    next hlen =>
      cases h
      exact .inl ⟨List.length_eq_zero_iff.mp hlen, rfl⟩
    next =>
      obtain ⟨levels, -, h⟩ := Bytes.bind_eq_ok h
      cases h
      exact .inr (by simp [SpillRuns.hasSpilled])
  · rw [hfail] at h
    cases h

theorem TracksUnspilled.spillResolution {s t : MultiHorizonStreamer A L C n}
    (h : TracksUnspilled s) (h3 : H3 L) {i : Fin n} (hspill : s.spillResolution i = .ok t) :
    TracksUnspilled t := by
  obtain ⟨q, runs, rfl, -, -, hpush, htrack⟩ :=
    @MultiHorizonStreamer.spillResolution_cases _ _ _ _ _ _ h3 _ _ _ hspill
  intro j hj
  by_cases hji : j = i
  · subst hji
    simp only [Function.update_self] at hj ⊢
    rcases pushSorted_hasSpilled (s.resolutionShards j).takeSorted_cells.1 hpush with
      ⟨hnil, rfl⟩ | hyes
    · exact (htrack.resolve_right fun hne => hne hnil).trans (h j hj)
    · rw [hyes] at hj
      cases hj
  · simp only [Function.update_of_ne hji] at hj ⊢
    exact h j hj

/-! ## What a batch keeps -/

/-- A property of states that merging one cell keeps, and that does not count failures. -/
structure MergeStable (cfg : Setup A L C n) (P : MultiHorizonStreamer A L C n → Prop) : Prop where
  cell : ∀ {s t i key acc south}, P s → s.mergeCell cfg i key acc south = .ok t → P t
  failures : ∀ {s} (count : Nat), P s → P { s with transformFailures := count }

namespace MergeStable

variable {cfg : Setup A L C n} {P : MultiHorizonStreamer A L C n → Prop}

omit [SpillAccumulator A] in
theorem foldlM {ι : Type} {f : MultiHorizonStreamer A L C n → ι →
    Except StreamError (MultiHorizonStreamer A L C n)}
    (hf : ∀ {s t x}, P s → f s x = .ok t → P t) (l : List ι) :
    ∀ {s t : MultiHorizonStreamer A L C n}, P s → l.foldlM f s = .ok t → P t := by
  induction l with
  | nil =>
      intro s t h hfold
      cases hfold
      exact h
  | cons x l ih =>
      intro s t h hfold
      rw [List.foldlM_cons] at hfold
      obtain ⟨u, hx, hrest⟩ := Bytes.bind_eq_ok hfold
      exact ih (hf h hx) hrest

variable (hP : MergeStable cfg P)

include hP

theorem mergeMap {i : Fin n} (cells : List (CellIndex × A)) :
    ∀ {s t : MultiHorizonStreamer A L C n} {precomputed : List (CellIndex × L)}, P s →
      s.mergeMap cfg i cells precomputed = .ok t → P t := by
  induction cells with
  | nil =>
      intro s t precomputed h hmerge
      cases hmerge
      exact h
  | cons cell cells ih =>
      intro s t precomputed h hmerge
      obtain ⟨u, hcell, hrest⟩ := Bytes.bind_eq_ok hmerge
      exact ih (hP.cell h hcell) hrest

theorem processWave {jobs : List (Job A n)} {s t : MultiHorizonStreamer A L C n} (h : P s)
    (hwave : s.processWave cfg jobs = .ok t) : P t := by
  unfold MultiHorizonStreamer.processWave at hwave
  simp only at hwave
  split at hwave
  next => cases hwave
  next =>
    exact foldlM (fun h hwindow => foldlM (fun h hmap => hP.mergeMap _ h hmap) _ h hwindow) _
      (hP.failures _ h) hwave

theorem processWaves (rounds : Nat) :
    ∀ {jobs : List (Except StreamError (Job A n))} {s t : MultiHorizonStreamer A L C n}, P s →
      s.processWaves cfg rounds jobs = .ok t → P t := by
  induction rounds with
  | zero =>
      intro jobs s t h hwaves
      cases hwaves
      exact h
  | succ rounds ih =>
      intro jobs s t h hwaves
      cases jobs with
      | nil =>
          cases hwaves
          exact h
      | cons job jobs =>
          obtain ⟨wave, -, hrest⟩ := Bytes.bind_eq_ok hwaves
          obtain ⟨u, hwave, hrest⟩ := Bytes.bind_eq_ok hrest
          exact ih (hP.processWave h hwave) hrest

end MergeStable

theorem tracksUnspilled_stable (cfg : Setup A L C n) : MergeStable cfg TracksUnspilled where
  failures := fun _ h => h
  cell := by
    intro s t i key acc south h hmerge
    unfold MultiHorizonStreamer.mergeCell at hmerge
    split at hmerge
    next => cases hmerge
    next =>
      have htrack := (s.resolutionShards i).trackEviction_mergeOwnedWith key acc south
      generalize (s.resolutionShards i).mergeOwnedWith key acc south = q at hmerge htrack
      have hone : TracksUnspilled
          { s with resolutionShards := Function.update s.resolutionShards i q.2 } := by
        intro j hj
        by_cases hji : j = i
        · subst hji
          simp only [Function.update_self]
          exact htrack.trans (h j hj)
        · simp only [Function.update_of_ne hji]
          exact h j hj
      simp only at hmerge
      split at hmerge
      next => cases hmerge
      next =>
        split at hmerge
        next => exact hone.spillResolution cfg.h3 hmerge
        next =>
          cases hmerge
          exact hone

/-! ## Nothing north of the horizon -/

variable [BoundedOrder L]

/-- Cells that are still to be emitted, and those that wait in the buffers, lie south of the
published horizon. -/
structure Ahead (cfg : Setup A L C n) (items : List (Item A X n)) (s : MultiHorizonStreamer A L C n)
    (log : List (Emitted A n)) : Prop where
  tracked : s.finishing = false → TracksUnspilled s
  horizon : s.finishing = false → s.evictionHorizon ≤ s.currentLatHorizon
  due : ∀ i key, received items s.processedChunkCount i key ≠ 0 → key ∉ keys (emittedOf i log) →
    cfg.h3.southLat key ≤ s.currentLatHorizon
  buffered : ∀ r ∈ s.outputBuffer.contents ++ s.partialContents,
    cfg.h3.southLat r.h3Index ≤ s.currentLatHorizon

variable {R : Multiset X → A → Prop} {cfg : Setup A L C n} {own : CellIndex → Bool}
  {items : List (Item A X n)} {finals shares : List (Record A)}
  {s t : MultiHorizonStreamer A L C n} {log : List (Emitted A n)}

/-- A cell that is emitted was due. -/
theorem Ahead.emit (h : Ahead cfg items s log)
    {shards : Fin n → ShardedResolutionMap A L} {reader : Option (Fin n × FinalCells A)} {i : Fin n}
    {key : CellIndex} {acc : A} (howns : Owns cfg own s.partition.isSome) (hidle : Idle s.compactor)
    (htracked : s.finishing = false → ∀ j, (shards j).trackEviction =
      (s.resolutionShards j).trackEviction)
    (hdue : cfg.h3.southLat key ≤ s.currentLatHorizon) :
    Ahead cfg items
      ({ s with resolutionShards := shards, finalReader := reader }.emitFinal cfg i key acc)
      (log ++ [(i, key, acc)]) := by
  obtain ⟨output, partition, heq, -, hout, hshares⟩ :=
    MultiHorizonStreamer.emitFinal_cases
      (s := { s with resolutionShards := shards, finalReader := reader }) howns hidle i key acc
  rw [heq]
  refine ⟨fun hfin j hj => ?_, h.horizon, fun j k hne hk => ?_, fun r hr => ?_⟩
  · exact (htracked hfin j).trans (h.tracked hfin j hj)
  · refine h.due j k hne fun hk' => hk ?_
    rw [emittedOf_append, keys_append]
    exact List.mem_append_left _ hk'
  · have hnew : ∀ own' : CellIndex → Bool, ∀ r ∈ finalsOf cfg own' [(i, key, acc)] ++
        sharesOf cfg own' [(i, key, acc)], r.h3Index = key := by
      intro own' r hr
      rcases List.mem_append.mp hr with hr | hr <;>
      · obtain ⟨e, he, rfl⟩ := List.mem_map.mp hr
        rw [List.mem_singleton.mp (List.mem_of_mem_filter he)]
    have hmem : r ∈ (s.outputBuffer.contents ++ s.partialContents) ++
        (finalsOf cfg own [(i, key, acc)] ++ sharesOf cfg own [(i, key, acc)]) := by
      have hr' : r ∈ output.contents ++ (partition.map (·.partials.contents)).getD [] := hr
      rw [hout, hshares] at hr'
      simp only [List.mem_append] at hr' ⊢
      tauto
    rcases List.mem_append.mp hmem with hr | hr
    · exact h.buffered r hr
    · rw [hnew own r hr]
      exact hdue

omit [BoundedOrder L] in
/-- A cell in a map or in a reader has not been emitted. -/
theorem Holding.due {m : ShardedResolutionMap A L} {runs : SpillRuns}
    {reader : Option (FinalCells A)} {done : List (CellIndex × A)} {p : Split X}
    (hp : Holding R m runs reader done p) {key : CellIndex}
    (hne : p.live key ≠ 0 ∨ p.read key ≠ 0) : p.total key ≠ 0 ∧ key ∉ keys done := by
  constructor
  · intro hz
    simp only [Split.total, Pi.add_apply, add_eq_zero] at hz
    exact hne.elim (fun hl => hl hz.1.1.1) fun hr => hr hz.1.2
  · intro hk
    obtain ⟨hl, -, hr⟩ := hp.final key hk
    exact hne.elim (fun h => h hl) fun h => h hr

/-- What a sweep leaves in the maps is all that is due, as long as nothing is on disk. -/
theorem Streaming.due_south (h : Streaming R cfg own items finals shares s log)
    (hfin : s.finishing = false) (htracked : TracksUnspilled s)
    (hsouth : ∀ i, (s.spillRuns i).hasSpilled = false →
      (s.resolutionShards i).trackEviction = true →
      ∀ k, (s.resolutionShards i).get k ≠ none → cfg.h3.southLat k ≤ s.evictionHorizon)
    (hunspilled : s.anySpilled = false) {i : Fin n} {key : CellIndex}
    (hne : received items s.processedChunkCount i key ≠ 0) (hkey : key ∉ keys (emittedOf i log)) :
    cfg.h3.southLat key ≤ s.evictionHorizon := by
  have hun : (s.spillRuns i).hasSpilled = false := by
    by_contra hyes
    have hany : s.anySpilled = true :=
      List.any_eq_true.mpr ⟨i, List.mem_finRange i, Bool.eq_true_of_not_eq_false hyes⟩
    rw [hunspilled] at hany
    cases hany
  obtain ⟨p, htotal, hp, -⟩ := h.accounted.parts i
  have hspilled : p.spilled = 0 := hp.spilled.spilled (by simpa [SpillRuns.hasSpilled] using hun)
  have hread : p.read = 0 := by
    rw [readerAt_of_none (h.reading hfin).reader] at hp
    exact hp.read
  refine hsouth i hun (htracked i hun) key fun hnone => hne ?_
  rw [← htotal]
  simp only [Split.total, Pi.add_apply, hspilled, hread, hp.dead key hnone,
    hp.out.absent key hkey, add_zero]

theorem Ahead.publish (h : Ahead cfg items s log)
    (hstream : Streaming R cfg own items finals shares s log) (hfin : s.finishing = false)
    (hsouth : ∀ i, (s.spillRuns i).hasSpilled = false →
      (s.resolutionShards i).trackEviction = true →
      ∀ k, (s.resolutionShards i).get k ≠ none → cfg.h3.southLat k ≤ s.evictionHorizon) :
    Ahead cfg items s.publish log := by
  unfold MultiHorizonStreamer.publish
  split
  next hpub =>
    obtain ⟨hlen, hunspilled⟩ := hpub
    refine ⟨h.tracked, fun _ => le_max_left .., fun i key hne hkey => ?_, fun r hr => ?_⟩
    · exact (hstream.due_south hfin (h.tracked hfin) hsouth hunspilled hne hkey).trans
        (le_max_left ..)
    · have hempty : s.outputBuffer.contents ++ s.partialContents = [] := by
        rw [← List.length_eq_zero_iff, List.length_append, ← OutputBuffer.len_eq, ← hlen,
          MultiHorizonStreamer.bufferedLen, MultiHorizonStreamer.partialContents]
        congr 1
        cases s.partition with
        | none => rfl
        | some p => exact (OutputBuffer.len_eq _).symm
      have hr : r ∈ s.outputBuffer.contents ++ s.partialContents := hr
      rw [hempty] at hr
      cases hr
  next => exact h

variable [LawfulSpill A]

theorem Ahead.batch (hR : Represents R) (hscan : Scan R cfg items) (h : Ahead cfg items s log)
    (hstream : Streaming R cfg own items finals shares s log) (hfin : s.finishing = false)
    (hbatch : s.processBatch cfg (s.nextItems cfg) = .ok t) :
    Ahead cfg items (MultiHorizonStreamer.advanceHorizon cfg
      { t with
        prefetcher := s.prefetcher.map (·.drop (s.nextItems cfg).length)
        batches := s.batches + 1
        processedChunkCount := s.processedChunkCount + (s.nextItems cfg).length }) log := by
  have hr := hstream.reading hfin
  have htracked : TracksUnspilled t :=
    (tracksUnspilled_stable cfg).processWaves _ (h.tracked hfin) hbatch
  obtain ⟨⟨shards, runs, failures, rfl⟩, -⟩ := hstream.processBatch hR hscan hfin hbatch
  have hdue : ∀ i key, received items (s.processedChunkCount + (s.nextItems cfg).length) i key ≠ 0 →
      key ∉ keys (emittedOf i log) → cfg.h3.southLat key ≤ s.currentLatHorizon := by
    intro i key hne hkey
    rw [received_add, Pi.add_apply, Pi.add_apply] at hne
    by_cases hold : received items s.processedChunkCount i key = 0
    · rw [hold, zero_add] at hne
      exact (hscan.south_of_reached (List.take_prefix ..) hne).trans
        (hr.horizon.trans (h.horizon hfin))
    · exact h.due i key hold hkey
  have hanti := cfg.suffixMaxNorthLat_anti
    (Nat.le_add_right s.processedChunkCount (s.nextItems cfg).length)
  unfold MultiHorizonStreamer.advanceHorizon
  split
  next => exact ⟨fun _ => htracked, h.horizon, hdue, h.buffered⟩
  next =>
    exact ⟨fun _ => htracked, fun _ => (hanti.trans hr.horizon).trans (h.horizon hfin), hdue,
      h.buffered⟩

omit [LawfulSpill A] in
/-- After a sweep and the publishing, nothing that is due lies north. -/
theorem Ahead.sweep (h : Ahead cfg items s log)
    (hstream : Streaming R cfg own items finals shares s log) (hcan : cfg.canEvictEarly = true)
    (hfin : s.finishing = false) (hsweep : MultiHorizonStreamer.Swept cfg s t) :
    Ahead cfg items t.publish log := by
  obtain ⟨shards, rfl, hshards, hsouth⟩ :=
    Swept.idle hstream.idle hsweep hstream.accounted.tracks
  have h' : Ahead cfg items { s with resolutionShards := shards } log :=
    ⟨fun hfin i hi => (hshards.track i).trans (h.tracked hfin i hi), h.horizon, h.due, h.buffered⟩
  exact h'.publish (hstream.searched hshards) hfin (hsouth hcan)

theorem Ahead.step (hR : Represents R) (hscan : Scan R cfg items) (hcan : cfg.canEvictEarly = true)
    (hstream : Streaming R cfg own items finals shares s log) (h : Ahead cfg items s log)
    (hstep : s.step cfg = .ok t) : ∃ log', log <+: log' ∧
      Streaming R cfg own items finals shares t log' ∧ Ahead cfg items t log' := by
  cases MultiHorizonStreamer.step_cases hstream.accounted.tracks hstep with
  | @evict shards i key acc hfin _ hunspilled hshards =>
      refine ⟨_, List.prefix_append _ _, hstream.evict hR hfin hunspilled hshards,
        h.emit hstream.owns hstream.idle (fun _ => hshards.track) ?_⟩
      obtain ⟨p, htotal, hp, -⟩ := hstream.accounted.parts i
      obtain ⟨hne, hkey⟩ := hp.due (.inl (hR.ne_zero (hp.live key acc hshards.live)))
      rw [htotal] at hne
      exact h.due i key hne hkey
  | flush _ hsweep hout =>
      obtain ⟨shards, rfl, -⟩ := Swept.idle hstream.idle hsweep hstream.accounted.tracks
      exact absurd hout (Nat.lt_irrefl _)
  | endInput hfin hsweep _ hall =>
      obtain ⟨hpub, hfin', -, -, hcount, -⟩ := hstream.sweep hfin hsweep
      have hahead := h.sweep hstream hcan hfin hsweep
      exact ⟨log, List.prefix_refl _, hpub.endInput hscan hfin' (hcount.trans hall),
        (by intro hno; cases hno), (by intro hno; cases hno), hahead.due, hahead.buffered⟩
  | batch hfin hsweep _ hbatch =>
      obtain ⟨hpub, hfin', hprefetcher, hbatches, hcount, hitems⟩ := hstream.sweep hfin hsweep
      rw [← hitems] at hbatch
      have hdone := hpub.batch hR hscan hfin' hbatch
      have hahead := (h.sweep hstream hcan hfin hsweep).batch hR hscan hpub hfin' hbatch
      rw [hprefetcher, hbatches, hcount, hitems] at hdone hahead
      exact ⟨log, List.prefix_refl _, hdone, hahead⟩
  | @final i reader key acc reader' hfin hreader hnext =>
      refine ⟨_, List.prefix_append _ _, hstream.final hR hfin hreader hnext,
        h.emit hstream.owns hstream.idle (fun _ _ => rfl) ?_⟩
      obtain ⟨p, htotal, hp, -⟩ := hstream.accounted.parts i
      rw [readerAt_of_some hreader, if_pos rfl] at hp
      rcases nextRecord_reads hR hp.read hnext with ⟨hnone, -⟩ | ⟨k, a, hsome, hacc, -⟩
      · cases hnone
      · cases hsome
        obtain ⟨hne, hkey⟩ := hp.due (.inr (hR.ne_zero hacc))
        rw [htotal] at hne
        exact h.due i key hne hkey
  | @close i reader reader' hfin hreader hnext =>
      obtain ⟨hout, -⟩ :=
        hstream.idle.flushResolution (cfg.resolutions i) cfg.kernel s.outputBuffer
      refine ⟨log, List.prefix_refl _, hstream.close hR hfin hreader hnext, h.tracked, h.horizon,
        h.due, ?_⟩
      rw [hout]
      exact h.buffered
  | openRuns hfin hreader hres _ hspill hfinish =>
      have hstream' := hstream.openRuns hR hfin hreader hres hspill hfinish
      refine ⟨log, List.prefix_refl _, hstream', ?_⟩
      obtain ⟨⟨shards, runs, failures, rfl⟩, -⟩ := hstream.accounted.spillResolution hR hspill
      refine ⟨fun hno => ?_, h.horizon, h.due, h.buffered⟩
      rw [show s.finishing = false from hno] at hfin
      cases hfin
  | openMemory hfin hreader hres hunspilled =>
      refine ⟨log, List.prefix_refl _, hstream.openMemory hfin hreader hres hunspilled,
        fun hno => ?_, h.horizon, h.due, h.buffered⟩
      rw [show s.finishing = false from hno] at hfin
      cases hfin
  | finish hfin hreader hres =>
      obtain ⟨hout, -⟩ := hstream.idle.flushAll cfg.kernel s.outputBuffer
      refine ⟨log, List.prefix_refl _, hstream.finish hfin hreader hres, h.tracked, h.horizon,
        h.due, ?_⟩
      rw [hout]
      exact h.buffered

/-! ## Runs -/

omit [SpillAccumulator A] [BoundedOrder L] [LawfulSpill A] in
theorem Ahead.drain (h : Ahead cfg items s log) (maxRows : Nat) :
    Ahead cfg items (s.drainPartitionedInto maxRows).2 log := by
  have hfinals := s.outputBuffer.drainInto_append maxRows
  rw [MultiHorizonStreamer.drainPartitionedInto]
  cases hp : s.partition with
  | none =>
      refine ⟨h.tracked, h.horizon, h.due, fun r hr => h.buffered r ?_⟩
      rcases List.mem_append.mp hr with hr | hr
      · rw [← hfinals]
        exact List.mem_append_left _ (List.mem_append_right _ hr)
      · cases hr
  | some p =>
      have hshares := p.partials.drainInto_append
        (maxRows - (s.outputBuffer.drainInto maxRows).1.length)
      refine ⟨h.tracked, h.horizon, h.due, fun r hr => h.buffered r ?_⟩
      rcases List.mem_append.mp hr with hr | hr
      · rw [← hfinals]
        exact List.mem_append_left _ (List.mem_append_right _ hr)
      · refine List.mem_append_right _ ?_
        rw [MultiHorizonStreamer.partialContents, hp]
        show r ∈ p.partials.contents
        rw [← hshares]
        exact List.mem_append_right _ hr

theorem ahead_invariant (hR : Represents R) (hscan : Scan R cfg items)
    (hcan : cfg.canEvictEarly = true) : Invariant cfg fun finals shares s log =>
      Streaming R cfg own items finals shares s log ∧ Ahead cfg items s log where
  step := fun h hstep => h.2.step hR hscan hcan h.1 hstep
  drain := fun maxRows h => ⟨h.1.drain maxRows, h.2.drain maxRows⟩

omit [LinearOrder L] [BoundedOrder L] in
/-- Nothing is emitted after everything has been. -/
theorem Aggregation.eq_nil_of_complete (hR : Represents R) {total : Fin n → Contents X}
    {log more : List (Emitted A n)} (h : Aggregation R total (log ++ more))
    (hcomplete : Complete total log) : more = [] := by
  by_contra hne
  obtain ⟨e, more, rfl⟩ := List.exists_cons_of_ne_nil hne
  have hacc := h.whole e.1 e.2.1 e.2.2 (List.mem_append_right _ List.mem_cons_self)
  have hlog := hcomplete _ _ (hR.ne_zero hacc)
  have hnodup := h.nodup e.1
  rw [emittedOf_append, keys_append, List.nodup_append] at hnodup
  exact hnodup.2.2 _ hlog _ (mem_keys_of_mem (mem_emittedOf.mpr List.mem_cons_self)) rfl

omit [LawfulSpill A] in
/-- A page appends to what has been drained. -/
theorem page_prefix (cfg : Setup A L C n) (session : Session A L C n) (page : Page) :
    session.records <+: (session.page cfg page).records ∧
      session.partials <+: (session.page cfg page).partials := by
  rw [Session.page]
  split
  next => exact ⟨List.prefix_refl _, List.prefix_refl _⟩
  next =>
    split
    next => exact ⟨List.prefix_refl _, List.prefix_refl _⟩
    next => exact ⟨List.prefix_append _ _, List.prefix_append _ _⟩

omit [LawfulSpill A] in
theorem run_prefix (cfg : Setup A L C n) (pages : List Page) :
    ∀ session : Session A L C n, session.records <+: (session.run cfg pages).records ∧
      session.partials <+: (session.run cfg pages).partials := by
  induction pages with
  | nil => exact fun _ => ⟨List.prefix_refl _, List.prefix_refl _⟩
  | cons page pages ih =>
      intro session
      obtain ⟨hr, hp⟩ := page_prefix cfg session page
      obtain ⟨hr', hp'⟩ := ih (session.page cfg page)
      exact ⟨hr.trans hr', hp.trans hp'⟩

omit [LawfulSpill A] in
theorem run_failed (cfg : Setup A L C n) (pages : List Page) :
    ∀ {session : Session A L C n} {reason : String}, session.stream.lifecycle = .failed reason →
      (session.run cfg pages).records = session.records ∧
        (session.run cfg pages).partials = session.partials := by
  induction pages with
  | nil => exact fun _ => ⟨rfl, rfl⟩
  | cons page pages ih =>
      intro session reason hfail
      obtain ⟨errors, heq⟩ := page_failed cfg hfail page
      rw [show session.run cfg (page :: pages) = (session.page cfg page).run cfg pages from rfl,
        heq]
      exact @ih { session with errors := errors } reason hfail

/-- A cell that is emitted later lies south of the horizon. -/
theorem Ahead.more_south (hR : Represents R) (hscan : Scan R cfg items)
    (hstream : Streaming R cfg own items finals shares s log) (h : Ahead cfg items s log)
    {more : List (Emitted A n)} (hagg : Aggregation R (received items items.length) (log ++ more))
    {e : Emitted A n} (he : e ∈ more) : cfg.h3.southLat e.2.1 ≤ s.currentLatHorizon := by
  have hacc := hagg.whole e.1 e.2.1 e.2.2 (List.mem_append_right _ he)
  have hne := hR.ne_zero hacc
  have hkey : e.2.1 ∉ keys (emittedOf e.1 log) := by
    intro hk
    have hnodup := hagg.nodup e.1
    rw [emittedOf_append, keys_append, List.nodup_append] at hnodup
    exact hnodup.2.2 _ hk _ (mem_keys_of_mem (mem_emittedOf.mpr he)) rfl
  by_cases hold : received items s.processedChunkCount e.1 e.2.1 = 0
  · cases hfin : s.finishing with
    | true =>
        rw [← hstream.all hfin] at hne
        exact absurd hold hne
    | false =>
        -- Then a chunk that is still to come reaches the cell.
        have hsplit : items.map Item.total = (items.take s.processedChunkCount).map Item.total ++
            (items.drop s.processedChunkCount).map Item.total := by
          rw [← List.map_append, List.take_append_drop]
        rw [received, List.take_length, hsplit, List.sum_append, Pi.add_apply, Pi.add_apply,
          show ((items.take s.processedChunkCount).map Item.total).sum e.1 e.2.1 = 0 from hold,
          zero_add] at hne
        exact (hscan.south_of_reached (List.prefix_refl _) hne).trans
          ((hstream.reading hfin).horizon.trans (h.horizon hfin))
  · exact h.due e.1 e.2.1 hold hkey

/-- Whatever is emitted after `log`, neither that nor what waits lies north of `horizon`. -/
def Bounds (R : Multiset X → A → Prop) (cfg : Setup A L C n) (own : CellIndex → Bool)
    (total : Fin n → Contents X) (log : List (Emitted A n)) (finals shares : List (Record A))
    (horizon : L) : Prop :=
  ∀ more, Aggregation R total (log ++ more) →
    ∀ r ∈ (finalsOf cfg own (log ++ more)).drop finals.length ++
      (sharesOf cfg own (log ++ more)).drop shares.length, cfg.h3.southLat r.h3Index ≤ horizon

omit [SpillAccumulator A] [BoundedOrder L] [LawfulSpill A] in
theorem Bounds.mono {total : Fin n → Contents X} {horizon : L} {log' : List (Emitted A n)}
    (h : Bounds R cfg own total log finals shares horizon) (hlog : log <+: log') :
    Bounds R cfg own total log' finals shares horizon := by
  obtain ⟨later, rfl⟩ := hlog
  intro more hagg r hr
  rw [List.append_assoc] at hagg hr
  exact h (later ++ more) hagg r hr

theorem Ahead.bounds (hR : Represents R) (hscan : Scan R cfg items)
    (hstream : Streaming R cfg own items finals shares s log) (h : Ahead cfg items s log) :
    Bounds R cfg own (received items items.length) log finals shares s.publishedHorizon := by
  intro more hagg r hr
  have hfinals : (finalsOf cfg own (log ++ more)).drop finals.length =
      s.outputBuffer.contents ++ finalsOf cfg own more := by
    rw [finalsOf_append, ← hstream.finals, List.append_assoc, List.drop_left]
  have hshares : (sharesOf cfg own (log ++ more)).drop shares.length =
      s.partialContents ++ sharesOf cfg own more := by
    rw [sharesOf_append, ← hstream.shares, List.append_assoc, List.drop_left]
  rw [hfinals, hshares] at hr
  rw [MultiHorizonStreamer.publishedHorizon]
  split
  next hdone =>
    -- Nothing is left of a stream that has finished.
    obtain ⟨hfinals, hshares, hcomplete⟩ := hstream.complete hdone
    have hbuffer := hstream.finals.trans hfinals.symm
    have hwaiting := hstream.shares.trans hshares.symm
    rw [List.append_right_eq_self] at hbuffer hwaiting
    rw [hbuffer, hwaiting, hagg.eq_nil_of_complete hR hcomplete] at hr
    cases hr
  next =>
    have hmore : ∀ e ∈ more, cfg.h3.southLat e.2.1 ≤ s.currentLatHorizon :=
      fun e he => h.more_south hR hscan hstream hagg he
    simp only [List.mem_append] at hr
    rcases hr with (hr | hr) | hr | hr
    · exact h.buffered r (List.mem_append_left _ hr)
    · obtain ⟨e, he, rfl⟩ := List.mem_map.mp hr
      exact hmore e (List.mem_of_mem_filter he)
    · exact h.buffered r (List.mem_append_right _ hr)
    · obtain ⟨e, he, rfl⟩ := List.mem_map.mp hr
      exact hmore e (List.mem_of_mem_filter he)

omit [SpillAccumulator A] [LawfulSpill A] in
theorem ahead_new (hcan : cfg.canEvictEarly = true) (items : List (Item A X n))
    (classifier : Option C) (compactionBudgetBytes : Option Nat)
    (structureBytes : Fin n → Nat → Nat) (indexBytes : Nat → Nat) :
    Ahead cfg items (.new cfg false compactionBudgetBytes structureBytes indexBytes classifier
      (items.map Item.chunk)) [] := by
  refine ⟨fun _ i _ => ?_, fun _ => le_rfl, fun _ _ _ _ => le_top, fun _ _ => le_top⟩
  show ((ShardedResolutionMap.new _).setEvictionEnabled cfg.canEvictEarly).trackEviction = true
  rw [hcan]
  rfl

/-- What a consumer may read off the horizon at any time: no page that comes later has a
record or a partial cell north of it. -/
theorem published_horizon_sound (hR : Represents R) (hscan : Scan R cfg items)
    (hcan : cfg.canEvictEarly = true) {classifier : Option C}
    (howns : Owns cfg own classifier.isSome) (compactionBudgetBytes : Option Nat)
    (structureBytes : Fin n → Nat → Nat) (indexBytes : Nat → Nat) (pages later : List Page) :
    let session := (Session.fresh cfg items classifier compactionBudgetBytes structureBytes
      indexBytes).run cfg pages
    let after := session.run cfg later
    session.records <+: after.records ∧ session.partials <+: after.partials ∧
      ∀ r ∈ after.records.drop session.records.length ++
        after.partials.drop session.partials.length,
        cfg.h3.southLat r.h3Index ≤ session.stream.publishedHorizon := by
  intro session after
  obtain ⟨hrecords, hpartials⟩ := run_prefix cfg later session
  refine ⟨hrecords, hpartials, fun r hr => ?_⟩
  have hinv : Invariant cfg fun finals shares s log =>
      Streaming R cfg own items finals shares s log ∧ Ahead cfg items s log :=
    ahead_invariant hR hscan hcan
  have hstart := streaming_new R items howns compactionBudgetBytes structureBytes indexBytes
  have hahead := ahead_new hcan items classifier compactionBudgetBytes structureBytes indexBytes
  obtain ⟨log, -, stream, ⟨hs, ha⟩, hstream⟩ :=
    @Invariant.run _ _ _ _ _ _ _ _ _ hinv pages (.fresh ..) [] ⟨_, ⟨hstart, hahead⟩, .inl rfl⟩
  obtain ⟨_, ⟨more, rfl⟩, stream', ⟨hs', -⟩, -⟩ :=
    @Invariant.run _ _ _ _ _ _ _ _ _ hinv later session log ⟨stream, ⟨hs, ha⟩, hstream⟩
  have hagg := hs'.aggregation hscan
  rcases hstream with rfl | ⟨reason, hfail⟩
  · refine ha.bounds hR hscan hs more hagg r ?_
    rw [← hs'.finals, ← hs'.shares, List.drop_append, List.drop_append]
    rcases List.mem_append.mp hr with hr | hr
    · exact List.mem_append_left _ (List.mem_append_left _ hr)
    · exact List.mem_append_right _ (List.mem_append_left _ hr)
  · obtain ⟨hsame, hsame'⟩ := run_failed cfg later hfail
    rw [show after.records = session.records from hsame,
      show after.partials = session.partials from hsame', List.drop_length, List.drop_length] at hr
    cases hr

/-- After the first page of the two chunks the horizon is the bound of the second. -/
theorem published_horizon_sound_two_chunks :
    let session := (Session.fresh twoChunkSetup twoChunks none none (fun _ _ => 1024)
      fun _ => 1024).run twoChunkSetup [⟨.drainCompletedInto, 1, 3⟩, ⟨.drainCompletedInto, 8, 1⟩]
    let after := session.run twoChunkSetup [⟨.drainCompletedInto, 8, 9⟩]
    session.stream.publishedHorizon = 122 ∧ after.records.length = 2 ∧
      session.records <+: after.records ∧ session.partials <+: after.partials ∧
      ∀ r ∈ after.records.drop session.records.length ++
        after.partials.drop session.partials.length,
        baseGrid.southLat r.h3Index ≤ session.stream.publishedHorizon :=
  ⟨by decide +kernel, by decide +kernel,
    published_horizon_sound MergeOf.represents scan_twoChunks (by decide +kernel)
      (⟨fun _ _ => rfl, fun h => by cases h⟩ : Owns twoChunkSetup (fun _ => true) false)
      none _ _ _ _⟩

end RasterH3.Agg
