import RasterH3.Proofs.CompactionRuns
import RasterH3.Proofs.SpillCodec
import RasterH3.Proofs.StreamBatches

/-!
# A run of the stream emits what a batch would

`Aggregation` is what one gets by holding all samples at once: every cell that has samples,
once, with a state that represents all of them. Streaming does not hold all samples at once.
It emits cells north of the horizon while chunks are still coming, it spills, and it reads
spilled runs back. `Streaming` is the invariant that survives all of it: the contributions
of the chunks so far are accounted for, what has been emitted lies north of the horizon, and
no later chunk reaches it there. `step` has one case for each round the controller can make,
and runs follow by induction over the rounds of a page and over the pages.

This is the stream without compaction, whose groups have a ledger of their own. A
partitioned scan is included: the cells that are not its own go to the partial stream, and
the filter does not see them.

What is assumed of a scan is `Scan`: there is a bound for every chunk that no cell of the
chunk exceeds, and the workers aggregate. The bounds are what the horizon is made of, and a
stream whose bounds are wrong would emit a cell twice. A failure is not assumed away. A
round may fail at any place, with a full disk or a state that exceeds its limit; what was
drained before it stands, and nothing is drained after it (`Carries`).

`Invariant` is what another module needs in order to follow the stream through the same
pages with something of its own beside it, a tiler or a writer. It is the interface of this
module, together with `stream_equals_batch`.
-/

namespace RasterH3.Agg

open AccumulatorMerge SpillAccumulator Keyed

variable {A L C X : Type} {n : Nat}

/-! ## The reference -/

/-- Some of the cells, each once, with a state that represents all samples of the cell. -/
structure Aggregation (R : Multiset X → A → Prop) (total : Fin n → Contents X)
    (cells : List (Emitted A n)) : Prop where
  nodup : ∀ i, (keys (emittedOf i cells)).Nodup
  whole : ∀ i k a, (i, k, a) ∈ cells → R (total i k) a

/-- Every cell that has samples. -/
def Complete (total : Fin n → Contents X) (cells : List (Emitted A n)) : Prop :=
  ∀ i k, total i k ≠ 0 → k ∈ keys (emittedOf i cells)

/-- The records of the cells that are the scan's own and pass its filter. -/
def finalsOf (cfg : Setup A L C n) (own : CellIndex → Bool) (cells : List (Emitted A n)) :
    List (Record A) :=
  (cells.filter fun e => own e.2.1 && cfg.kernel.passesFilter e.2.2).map fun e =>
    ⟨cfg.resolutions e.1, e.2.1, e.2.2⟩

/-- The partial cells of the others. -/
def sharesOf (cfg : Setup A L C n) (own : CellIndex → Bool) (cells : List (Emitted A n)) :
    List (PartialCell A) :=
  (cells.filter fun e => !own e.2.1).map fun e => ⟨cfg.resolutions e.1, e.2.1, e.2.2⟩

theorem finalsOf_append (cfg : Setup A L C n) (own : CellIndex → Bool)
    (cells cells' : List (Emitted A n)) :
    finalsOf cfg own (cells ++ cells') = finalsOf cfg own cells ++ finalsOf cfg own cells' := by
  rw [finalsOf, List.filter_append, List.map_append, finalsOf, finalsOf]

theorem sharesOf_append (cfg : Setup A L C n) (own : CellIndex → Bool)
    (cells cells' : List (Emitted A n)) :
    sharesOf cfg own (cells ++ cells') = sharesOf cfg own cells ++ sharesOf cfg own cells' := by
  rw [sharesOf, List.filter_append, List.map_append, sharesOf, sharesOf]

/-! ## Compaction that is off -/

section Idle

variable [LinearOrder L]

structure Idle (c : Compactor A L) : Prop where
  disabled : c.enabled = false
  pending : c.pending = ∅
  completion : ∀ res, c.completion res = .empty

theorem idle_new (byteLimit : Option Nat) (indexBytes : Nat → Nat) :
    Idle (.withByteLimit false byteLimit indexBytes : Compactor A L) :=
  ⟨rfl, rfl, fun _ => rfl⟩

namespace Idle

variable {c : Compactor A L} (h : Idle c)

include h

theorem entries : c.entries = [] := by
  rw [Compactor.entries, h.pending]
  rfl

theorem pendingEmitSouth [BoundedOrder L] : Idle c.pendingEmitSouth.2 :=
  ⟨h.disabled, h.pending, h.completion⟩

variable [AccumulatorMerge A]

theorem flushHeap (horizon : L) (kernel : Kernel A) (maxOutputBytes : Nat) (res : Fin 16)
    (rounds : Nat) (output : OutputBuffer (Record A)) :
    c.flushHeap horizon kernel maxOutputBytes res rounds output = (c, output) := by
  cases rounds with
  | zero => rfl
  | succ rounds =>
      rw [Compactor.flushHeap, h.completion res]
      rfl

theorem flushCompleted (horizon : L) (streaming : Nat → Bool) (kernel : Kernel A)
    (output : OutputBuffer (Record A)) (maxOutputBytes : Nat) :
    c.flushCompleted horizon streaming kernel output maxOutputBytes = (c, output) := by
  rw [Compactor.flushCompleted]
  induction List.finRange 16 with
  | nil => rfl
  | cons res rest ih =>
      rw [List.foldl_cons]
      simp only [h.flushHeap, ite_self]
      exact ih

theorem flushResolution (childRes : Nat) (kernel : Kernel A) (output : OutputBuffer (Record A)) :
    (c.flushResolution childRes kernel output).2 = output ∧
      Idle (c.flushResolution childRes kernel output).1 := by
  rw [Compactor.flushResolution]
  simp only [h.completion]
  refine ⟨rfl, h.disabled, h.pending, fun res => ?_⟩
  by_cases hres : res = slot childRes
  · rw [hres]
    exact Function.update_self ..
  · exact (Function.update_of_ne hres ..).trans (h.completion res)

theorem flushAll (kernel : Kernel A) (output : OutputBuffer (Record A)) :
    (c.flushAll kernel output).2 = output ∧ Idle (c.flushAll kernel output).1 := by
  refine ⟨?_, h.disabled, rfl, fun _ => rfl⟩
  rw [Compactor.flushAll, h.entries]
  rfl

theorem pushCell [BoundedOrder L] (h3 : H3 L) (kernel : Kernel A) (sizeOfChild res : Nat)
    (cell : CellIndex) (acc : A) (output : OutputBuffer (Record A)) :
    c.pushCell h3 kernel sizeOfChild res cell acc output =
      (c, if kernel.passesFilter acc then kernel.bufferRecord res cell acc output else output) := by
  rw [Compactor.pushCell, h.disabled]
  cases kernel.passesFilter acc <;> rfl

end Idle

end Idle

/-! ## Emission -/

variable [LinearOrder L]

/-- Which cells are a scan's own: all of them unless it is a partition, which has a
classifier. What the classifier remembers does not change its answers. -/
structure Owns (cfg : Setup A L C n) (own : CellIndex → Bool) (partitioned : Bool) : Prop where
  whole : partitioned = false → ∀ key, own key = true
  verdict : partitioned = true → ∀ c key, (cfg.isInterior c key).1 = own key

namespace MultiHorizonStreamer

/-- The partial cells that wait for the consumer. -/
def partialContents (s : MultiHorizonStreamer A L C n) : List (PartialCell A) :=
  (s.partition.map (·.partials.contents)).getD []

variable [SpillAccumulator A] [BoundedOrder L] {cfg : Setup A L C n} {own : CellIndex → Bool}

/-- An emitted cell is either a record of the scan or a partial cell. -/
theorem emitFinal_cases {s : MultiHorizonStreamer A L C n} (hown : Owns cfg own s.partition.isSome)
    (hidle : Idle s.compactor) (i : Fin n) (key : CellIndex) (acc : A) :
    ∃ output partition,
      s.emitFinal cfg i key acc = { s with outputBuffer := output, partition := partition } ∧
      partition.isSome = s.partition.isSome ∧
      output.contents = s.outputBuffer.contents ++ finalsOf cfg own [(i, key, acc)] ∧
      (partition.map (·.partials.contents)).getD [] =
        s.partialContents ++ sharesOf cfg own [(i, key, acc)] := by
  have hpush : ∀ s : MultiHorizonStreamer A L C n, Idle s.compactor → own key = true →
      ∃ output, s.pushFinal cfg i key acc = { s with outputBuffer := output } ∧
        output.contents = s.outputBuffer.contents ++ finalsOf cfg own [(i, key, acc)] := by
    intro s hidle howned
    rw [pushFinal, if_neg (by simp [hidle.disabled])]
    simp only [hidle.pushCell]
    refine ⟨_, rfl, ?_⟩
    split
    next hpass =>
      rw [Kernel.contents_bufferRecord]
      simp [finalsOf, howned, hpass]
    next hfail => simp [finalsOf, hfail]
  rw [emitFinal]
  cases hp : s.partition with
  | none =>
      rw [hp] at hown
      have howned := hown.whole rfl key
      obtain ⟨output, heq, hout⟩ := hpush s hidle howned
      refine ⟨output, none, ?_, rfl, hout, ?_⟩
      · simp only [heq]
        rw [← hp]
      · simp [partialContents, hp, sharesOf, howned]
  | some p =>
      rw [hp] at hown
      have hverdict := hown.verdict rfl p.classifier key
      simp only
      split
      next hin =>
        have howned : own key = true := hverdict ▸ hin
        obtain ⟨output, heq, hout⟩ := hpush
          { s with partition := some { p with classifier := (cfg.isInterior p.classifier key).2 } }
          hidle howned
        exact ⟨output, _, heq, rfl, hout, by simp [partialContents, hp, sharesOf, howned]⟩
      next hout =>
        have howned : own key = false := hverdict ▸ Bool.eq_false_iff.mpr hout
        refine ⟨s.outputBuffer, _, rfl, rfl, by simp [finalsOf, howned], ?_⟩
        simp [partialContents, hp, sharesOf, howned]

end MultiHorizonStreamer

/-! ## The invariant -/

variable [SpillAccumulator A] [BoundedOrder L]

/-- What is assumed of a scan: a bound for every chunk that no cell of the chunk
exceeds, and workers that aggregate. -/
structure Scan (R : Multiset X → A → Prop) (cfg : Setup A L C n) (items : List (Item A X n)) :
    Prop where
  chunks : cfg.norths.length = items.length
  aggregates : ∀ c, .ok c ∈ items → c.Aggregates R cfg.workerPixels
  bounded : ∀ k item, items[k]? = some item → ∀ i key, item.total i key ≠ 0 →
    cfg.h3.southLat key ≤ cfg.suffixMaxNorthLat k
  tasks : 0 < cfg.workerTasks
  pixels : 0 < cfg.workerPixels

/-- While chunks are still coming. -/
structure Ingest (cfg : Setup A L C n) (items : List (Item A X n))
    (s : MultiHorizonStreamer A L C n) (log : List (Emitted A n)) : Prop where
  reader : s.finalReader = none
  resolution : s.finalResolution = 0
  chunks : s.prefetcher = some ((items.drop s.processedChunkCount).map Item.chunk)
  horizon : cfg.suffixMaxNorthLat s.processedChunkCount ≤ s.evictionHorizon
  north : ∀ e ∈ log, s.evictionHorizon < cfg.h3.southLat e.2.1

/-- `finals` and `shares` are what the consumer has drained, `log` is what has been emitted. -/
structure Streaming (R : Multiset X → A → Prop) (cfg : Setup A L C n) (own : CellIndex → Bool)
    (items : List (Item A X n)) (finals shares : List (Record A))
    (s : MultiHorizonStreamer A L C n) (log : List (Emitted A n)) : Prop where
  accounted : Accounted R cfg.h3 s log (received items s.processedChunkCount)
  idle : Idle s.compactor
  owns : Owns cfg own s.partition.isSome
  finals : finals ++ s.outputBuffer.contents = finalsOf cfg own log
  shares : shares ++ s.partialContents = sharesOf cfg own log
  reading : s.finishing = false → Ingest cfg items s log
  all : s.finishing = true → s.processedChunkCount = items.length
  reader : ∀ i reader, s.finalReader = some (i, reader) → i.val + 1 = s.finalResolution
  alive : ∀ reason, s.lifecycle ≠ .failed reason
  finished : s.lifecycle = .finished →
    s.finishing = true ∧ s.finalReader = none ∧ n ≤ s.finalResolution

variable {R : Multiset X → A → Prop} {cfg : Setup A L C n} {own : CellIndex → Bool}
  {items : List (Item A X n)} {finals shares : List (Record A)}
  {s t : MultiHorizonStreamer A L C n} {log : List (Emitted A n)}

omit [SpillAccumulator A] in
theorem Setup.suffixMaxNorthLat_anti (cfg : Setup A L C n) {k k' : Nat} (h : k ≤ k') :
    cfg.suffixMaxNorthLat k' ≤ cfg.suffixMaxNorthLat k := by
  have hmax : ∀ (l : List L) (d : Nat), (l.drop d).foldr max ⊥ ≤ l.foldr max ⊥ := by
    intro l
    induction l with
    | nil => exact fun d => by rw [List.drop_nil]
    | cons x l ih =>
        intro d
        cases d with
        | zero => exact le_rfl
        | succ d => exact (ih d).trans (le_max_right ..)
  obtain ⟨d, rfl⟩ := Nat.exists_eq_add_of_le h
  rw [suffixMaxNorthLat, suffixMaxNorthLat, ← List.drop_drop]
  exact hmax _ d

omit [SpillAccumulator A] [LinearOrder L] [BoundedOrder L] in
theorem exists_of_sum_ne_zero {l : List (Item A X n)} {i : Fin n} {key : CellIndex}
    (h : (l.map Item.total).sum i key ≠ 0) : ∃ item ∈ l, item.total i key ≠ 0 := by
  induction l with
  | nil => exact absurd rfl h
  | cons item l ih =>
      by_cases hitem : item.total i key = 0
      · rw [List.map_cons, List.sum_cons, Pi.add_apply, Pi.add_apply, hitem, zero_add] at h
        obtain ⟨other, hmem, hne⟩ := ih h
        exact ⟨other, List.mem_cons_of_mem _ hmem, hne⟩
      · exact ⟨item, List.mem_cons_self, hitem⟩

omit [SpillAccumulator A] in
/-- A cell that the chunks from the `k`-th on reach lies south of their bounds. -/
theorem Scan.south_of_reached (hscan : Scan R cfg items) {k : Nat} {l : List (Item A X n)}
    (hl : l <+: items.drop k) {i : Fin n} {key : CellIndex}
    (h : (l.map Item.total).sum i key ≠ 0) :
    cfg.h3.southLat key ≤ cfg.suffixMaxNorthLat k := by
  obtain ⟨item, hmem, hne⟩ := exists_of_sum_ne_zero h
  obtain ⟨j, hj⟩ := List.mem_iff_getElem?.mp (hl.subset hmem)
  rw [List.getElem?_drop] at hj
  exact (hscan.bounded _ item hj i key hne).trans
    (cfg.suffixMaxNorthLat_anti (Nat.le_add_right k j))

/-- The contributions of an emitted cell are all there. -/
theorem Streaming.received_eq (hscan : Scan R cfg items)
    (h : Streaming R cfg own items finals shares s log) {i : Fin n} {k : CellIndex}
    (hk : k ∈ keys (emittedOf i log)) :
    received items s.processedChunkCount i k = received items items.length i k := by
  cases hfin : s.finishing with
  | true => rw [h.all hfin]
  | false =>
      obtain ⟨a, ha⟩ := mem_keys.mp hk
      have hr := h.reading hfin
      have hsplit : items.map Item.total = (items.take s.processedChunkCount).map Item.total ++
          (items.drop s.processedChunkCount).map Item.total := by
        rw [← List.map_append, List.take_append_drop]
      have hzero : ((items.drop s.processedChunkCount).map Item.total).sum i k = 0 := by
        by_contra hne
        have hsouth := hscan.south_of_reached (List.prefix_refl _) hne
        exact absurd (hr.north _ (mem_emittedOf.mp ha)) (not_lt.mpr (hsouth.trans hr.horizon))
      rw [received, received, List.take_length, hsplit, List.sum_append, Pi.add_apply, Pi.add_apply,
        hzero, add_zero]

/-- So what has been emitted is part of the batch result. -/
theorem Streaming.aggregation (hscan : Scan R cfg items)
    (h : Streaming R cfg own items finals shares s log) :
    Aggregation R (received items items.length) log where
  nodup := fun i => by
    obtain ⟨p, -, hp, -⟩ := h.accounted.parts i
    exact hp.nodup
  whole := fun i k a hmem => by
    have ha : (k, a) ∈ emittedOf i log := mem_emittedOf.mpr hmem
    obtain ⟨p, htotal, hp, -⟩ := h.accounted.parts i
    obtain ⟨hlive, hspilled, hread⟩ := hp.final k (mem_keys_of_mem ha)
    rw [← h.received_eq hscan (mem_keys_of_mem ha), ← htotal]
    have hout := hp.out.present k a ha
    rw [Split.total, Pi.add_apply, Pi.add_apply, Pi.add_apply, hlive, hspilled, hread, zero_add,
      zero_add, zero_add]
    exact hout

/-! ## One round -/

omit [BoundedOrder L] in
theorem Holding.congr {m q : ShardedResolutionMap A L} {runs : SpillRuns}
    {reader : Option (FinalCells A)} {done : List (CellIndex × A)} {p : Split X}
    (h : Holding R m runs reader done p) (hget : ∀ k, q.get k = m.get k) :
    Holding R q runs reader done p :=
  { h with
    live := fun k a hk => h.live k a (hget k ▸ hk)
    dead := fun k hk => h.dead k (hget k ▸ hk) }

/-- A cell is emitted, from the map or from the reader. -/
theorem Streaming.emit (h : Streaming R cfg own items finals shares s log)
    {shards : Fin n → ShardedResolutionMap A L} {reader : Option (Fin n × FinalCells A)} {i : Fin n}
    {key : CellIndex} {acc : A}
    (haccounted : Accounted R cfg.h3 { s with resolutionShards := shards, finalReader := reader }
      (log ++ [(i, key, acc)]) (received items s.processedChunkCount))
    (hreader : reader.map Prod.fst = s.finalReader.map Prod.fst)
    (hnorth : s.finishing = false → s.evictionHorizon < cfg.h3.southLat key) :
    Streaming R cfg own items finals shares
      ({ s with resolutionShards := shards, finalReader := reader }.emitFinal cfg i key acc)
      (log ++ [(i, key, acc)]) := by
  obtain ⟨output, partition, heq, hsome, hout, hshares⟩ :=
    MultiHorizonStreamer.emitFinal_cases
      (s := { s with resolutionShards := shards, finalReader := reader }) h.owns h.idle i key acc
  rw [heq]
  have hnone : s.finalReader = none → reader = none := fun hnone => by
    rw [hnone] at hreader
    exact Option.map_eq_none_iff.mp hreader
  exact
    { accounted := ⟨haccounted.tracks, haccounted.parts⟩
      idle := h.idle
      owns := by
        show Owns cfg own partition.isSome
        rw [hsome]
        exact h.owns
      finals := by
        show finals ++ output.contents = _
        rw [hout, ← List.append_assoc, finalsOf_append]
        exact congrArg (· ++ _) h.finals
      shares := by
        show shares ++ (partition.map (·.partials.contents)).getD [] = _
        rw [hshares, ← List.append_assoc, sharesOf_append]
        exact congrArg (· ++ _) h.shares
      reading := fun hfin => by
        have hr := h.reading hfin
        refine ⟨hnone hr.reader, hr.resolution, hr.chunks, hr.horizon, fun e he => ?_⟩
        rcases List.mem_append.mp he with he | he
        · exact hr.north e he
        · rw [List.mem_singleton.mp he]
          exact hnorth hfin
      all := h.all
      reader := fun j r hj => by
        obtain ⟨r', hr'⟩ : ∃ r', s.finalReader = some (j, r') := by
          rw [show reader = some (j, r) from hj, Option.map_some] at hreader
          obtain ⟨q, hq, hj'⟩ := Option.map_eq_some_iff.mp hreader.symm
          exact ⟨q.2, by rw [hq, ← show q.1 = j from hj']⟩
        exact h.reader j r' hr'
      alive := h.alive
      finished := fun hfin => by
        obtain ⟨hf, hr, hn⟩ := h.finished hfin
        exact ⟨hf, hnone hr, hn⟩ }

/-- A sweep finds nothing more to emit, as nothing waits in a group. -/
theorem Swept.idle {cfg : Setup A L C n} (hidle : Idle s.compactor)
    (hsweep : MultiHorizonStreamer.Swept cfg s t)
    (htracks : ∀ i, (s.resolutionShards i).Tracks cfg.h3) :
    ∃ shards, t = { s with resolutionShards := shards } ∧
      MultiHorizonStreamer.Searched cfg.h3 s.resolutionShards shards ∧
      (cfg.canEvictEarly = true → ∀ i, (s.spillRuns i).hasSpilled = false →
        (shards i).trackEviction = true → ∀ k, (shards i).get k ≠ none →
        cfg.h3.southLat k ≤ s.evictionHorizon) := by
  cases hsweep with
  | late hcan =>
      refine ⟨s.resolutionShards, rfl, ⟨fun _ => rfl, fun _ => rfl, htracks⟩, fun hyes => ?_⟩
      rw [hcan] at hyes
      cases hyes
  | @early shards hcan hshards hsouth =>
      refine ⟨shards, ?_, hshards, fun _ => hsouth⟩
      rw [MultiHorizonStreamer.flushCompleted]
      simp only [hidle.flushCompleted]

omit [BoundedOrder L] in
theorem Accounted.searched {m : Fin n → Contents X} {h3 : H3 L} (h : Accounted R h3 s log m)
    {shards : Fin n → ShardedResolutionMap A L}
    (hshards : MultiHorizonStreamer.Searched h3 s.resolutionShards shards) :
    Accounted R h3 { s with resolutionShards := shards } log m where
  tracks := hshards.tracks
  parts := fun i => by
    obtain ⟨p, htotal, hp, hphase⟩ := h.parts i
    exact ⟨p, htotal, hp.congr fun k => congrFun (hshards.get i) k, hphase⟩

theorem Streaming.searched (h : Streaming R cfg own items finals shares s log)
    {shards : Fin n → ShardedResolutionMap A L}
    (hshards : MultiHorizonStreamer.Searched cfg.h3 s.resolutionShards shards) :
    Streaming R cfg own items finals shares { s with resolutionShards := shards } log :=
  { h with
    accounted := h.accounted.searched hshards
    reading := fun hfin => by
      have hr := h.reading hfin
      exact ⟨hr.reader, hr.resolution, hr.chunks, hr.horizon, hr.north⟩ }

theorem Streaming.publish (h : Streaming R cfg own items finals shares s log) :
    Streaming R cfg own items finals shares s.publish log := by
  unfold MultiHorizonStreamer.publish
  split
  next =>
    exact
      { h with
        accounted := ⟨h.accounted.tracks, h.accounted.parts⟩
        idle := h.idle.pendingEmitSouth
        reading := fun hfin => by
          have hr := h.reading hfin
          exact ⟨hr.reader, hr.resolution, hr.chunks, hr.horizon, hr.north⟩ }
  next => exact h

omit [SpillAccumulator A] in
theorem nextItems_eq {cfg : Setup A L C n} (hr : Ingest cfg items s log) :
    s.nextItems cfg = ((items.drop s.processedChunkCount).take
      (s.nextItems cfg).length).map Item.chunk := by
  have h : s.nextItems cfg = ((items.drop s.processedChunkCount).map Item.chunk).take
      (max 1 (min (cfg.ready s.batches) (cfg.nextBatchLen s.processedChunkCount))) := by
    rw [MultiHorizonStreamer.nextItems, hr.chunks, Option.getD_some]
  rw [h, List.map_take, List.length_take, ← List.take_take, List.take_length]

theorem Streaming.endInput (hscan : Scan R cfg items)
    (h : Streaming R cfg own items finals shares s log)
    (hfin : s.finishing = false) (hall : s.processedChunkCount = cfg.norths.length) :
    Streaming R cfg own items finals shares { s with prefetcher := none, finishing := true } log :=
  { h with
    accounted := ⟨h.accounted.tracks, h.accounted.parts⟩
    reading := fun hfin => by cases hfin
    all := fun _ => hall.trans hscan.chunks
    finished := fun hdone => by
      rw [(h.finished hdone).1] at hfin
      cases hfin }

theorem Streaming.openMemory (h : Streaming R cfg own items finals shares s log)
    (hfin : s.finishing = true) (hreader : s.finalReader = none) (hres : s.finalResolution < n)
    (hunspilled : (s.spillRuns ⟨s.finalResolution, hres⟩).hasSpilled = false) :
    Streaming R cfg own items finals shares
      { s with
        resolutionShards := Function.update s.resolutionShards ⟨s.finalResolution, hres⟩
          (s.resolutionShards ⟨s.finalResolution, hres⟩).takeSorted.2
        finalReader := some (⟨s.finalResolution, hres⟩,
          .memory (s.resolutionShards ⟨s.finalResolution, hres⟩).takeSorted.1)
        finalResolution := s.finalResolution + 1 } log := by
  generalize hi : (⟨s.finalResolution, hres⟩ : Fin n) = i at hunspilled ⊢
  have hival : i.val = s.finalResolution := by rw [← hi]
  exact
    { h with
      accounted := ⟨MultiHorizonStreamer.forall_update (p := fun _ m => m.Tracks cfg.h3)
          (.takeSorted _) fun j _ => h.accounted.tracks j, fun j => by
        obtain ⟨p, htotal, hp, hphase⟩ := h.accounted.parts j
        rw [readerAt_of_none hreader] at hp
        rw [readerAt_of_some rfl]
        by_cases hj : j = i
        · subst hj
          have hspilled : p.spilled = 0 :=
            hp.spilled.spilled (by simpa [SpillRuns.hasSpilled] using hunspilled)
          have hread : p.read = 0 := hp.read
          refine ⟨{ p with live := 0, read := p.live }, ?_, ?_, fun _ => ⟨rfl, hspilled⟩⟩
          · rw [← htotal]
            simp only [Split.total, hspilled, hread]
            abel
          · simp only [Function.update_self, if_true]
            exact hp.openMemory (MultiHorizonStreamer.get_takeSorted _)
        · refine ⟨p, htotal, ?_, fun hlt => hphase ?_⟩
          · simp only [Function.update_of_ne hj, if_neg hj]
            exact hp
          · have hne : j.val ≠ i.val := fun heq => hj (Fin.ext heq)
            simp only at hlt
            omega⟩
      reading := fun hno => by
        rw [show s.finishing = false from hno] at hfin
        cases hfin
      reader := fun j r hsome => by
        cases hsome
        simp only [hival]
      finished := fun hdone => by
        obtain ⟨-, -, hn⟩ := h.finished hdone
        omega }

theorem Streaming.finish (h : Streaming R cfg own items finals shares s log)
    (hfin : s.finishing = true) (hreader : s.finalReader = none) (hres : ¬ s.finalResolution < n) :
    Streaming R cfg own items finals shares
      { s with
        compactor := (s.compactor.flushAll cfg.kernel s.outputBuffer).1
        outputBuffer := (s.compactor.flushAll cfg.kernel s.outputBuffer).2
        lifecycle := s.lifecycle.markFinished } log := by
  obtain ⟨hout, hidle⟩ := h.idle.flushAll cfg.kernel s.outputBuffer
  exact
    { h with
      accounted := ⟨h.accounted.tracks, h.accounted.parts⟩
      idle := hidle
      finals := by
        rw [hout]
        exact h.finals
      reading := fun hno => by
        rw [show s.finishing = false from hno] at hfin
        cases hfin
      alive := fun reason => by
        have halive := h.alive reason
        simp only
        cases hl : s.lifecycle with
        | running => exact fun h => by cases h
        | finished => exact fun h => by cases h
        | failed existing => exact absurd hl (h.alive existing)
      finished := fun _ => ⟨hfin, hreader, not_lt.mp hres⟩ }

variable [LawfulSpill A]

theorem Streaming.evict (hR : Represents R) (h : Streaming R cfg own items finals shares s log)
    {shards : Fin n → ShardedResolutionMap A L} {i : Fin n} {key : CellIndex} {acc : A}
    (hfin : s.finishing = false) (hunspilled : (s.spillRuns i).hasSpilled = false)
    (hshards : MultiHorizonStreamer.Evicted cfg.h3 s.evictionHorizon i key acc s.resolutionShards
      shards) :
    Streaming R cfg own items finals shares
      ({ s with resolutionShards := shards }.emitFinal cfg i key acc) (log ++ [(i, key, acc)]) := by
  have hr := h.reading hfin
  refine h.emit ⟨hshards.tracks, fun j => ?_⟩ rfl
    fun _ => hshards.south
  obtain ⟨p, htotal, hp, hphase⟩ := h.accounted.parts j
  have hnever : ¬ j.val < s.finalResolution := by rw [hr.resolution]; omega
  by_cases hj : j = i
  · subst hj
    have hspilled : p.spilled = 0 :=
      hp.spilled.spilled (by simpa [SpillRuns.hasSpilled] using hunspilled)
    have hread : p.read = 0 := by
      have := hp.read
      rw [MultiHorizonStreamer.readerAt, hr.reader] at this
      exact this
    obtain ⟨p', htotal', -, -, hp'⟩ := hp.evict hR hshards.live (by rw [hspilled]; rfl)
      (by rw [hread]; rfl) (q := shards j) (fun k => by simpa using hshards.get j k)
    rw [emittedOf_self]
    exact ⟨p', htotal'.trans htotal, hp', fun hlt => absurd hlt hnever⟩
  · rw [emittedOf_ne hj]
    refine ⟨p, htotal, hp.congr fun k => ?_, fun hlt => absurd hlt hnever⟩
    rw [hshards.get j k, if_neg fun hand => hj hand.1]

/-- A batch is merged, and the horizon keeps it off the cells that have been emitted. -/
theorem Streaming.processBatch (hR : Represents R) (hscan : Scan R cfg items)
    (h : Streaming R cfg own items finals shares s log) (hfin : s.finishing = false)
    (hbatch : s.processBatch cfg (s.nextItems cfg) = .ok t) :
    Merged s t ∧ Accounted R cfg.h3 t log
      (received items (s.processedChunkCount + (s.nextItems cfg).length)) := by
  have hr := h.reading hfin
  generalize hlen : (s.nextItems cfg).length = len
  have hnext := nextItems_eq hr
  rw [hlen] at hnext
  rw [hnext] at hbatch
  -- A cell that was emitted lies north of every chunk that is still to come.
  have hfresh : Fresh log (((items.drop s.processedChunkCount).take len).map Item.total).sum := by
    intro i key hne hkey
    obtain ⟨a, ha⟩ := mem_keys.mp hkey
    have hsouth := hscan.south_of_reached (List.take_prefix ..) hne
    exact absurd (hr.north _ (mem_emittedOf.mp ha)) (not_lt.mpr (hsouth.trans hr.horizon))
  obtain ⟨hmerged, hacc⟩ := h.accounted.processBatch hR cfg hscan.tasks
    hscan.pixels (fun c hc => hscan.aggregates c
      (List.mem_of_mem_drop (List.mem_of_mem_take hc))) hfresh hr.resolution hbatch
  rw [received_add]
  exact ⟨hmerged, hacc⟩

theorem Streaming.batch (hR : Represents R) (hscan : Scan R cfg items)
    (h : Streaming R cfg own items finals shares s log) (hfin : s.finishing = false)
    (hbatch : s.processBatch cfg (s.nextItems cfg) = .ok t) :
    Streaming R cfg own items finals shares (MultiHorizonStreamer.advanceHorizon cfg
      { t with
        prefetcher := s.prefetcher.map (·.drop (s.nextItems cfg).length)
        batches := s.batches + 1
        processedChunkCount := s.processedChunkCount + (s.nextItems cfg).length }) log := by
  have hr := h.reading hfin
  obtain ⟨⟨shards, runs, failures, rfl⟩, hacc⟩ := h.processBatch hR hscan hfin hbatch
  generalize (s.nextItems cfg).length = len at hacc ⊢
  have hchunks : s.prefetcher.map (·.drop len) =
      some ((items.drop (s.processedChunkCount + len)).map Item.chunk) := by
    rw [hr.chunks, Option.map_some, ← List.map_drop, List.drop_drop]
  have hanti := cfg.suffixMaxNorthLat_anti (Nat.le_add_right s.processedChunkCount len)
  unfold MultiHorizonStreamer.advanceHorizon
  split
  next =>
    exact
      { h with
        accounted := ⟨hacc.tracks, hacc.parts⟩
        reading := fun _ => ⟨hr.reader, hr.resolution, hchunks, hanti.trans hr.horizon, hr.north⟩
        all := fun hyes => by
          rw [show s.finishing = true from hyes] at hfin
          cases hfin }
  next =>
    exact
      { h with
        accounted := ⟨hacc.tracks, hacc.parts⟩
        reading := fun _ => ⟨hr.reader, hr.resolution, hchunks, le_rfl, fun e he =>
          (hanti.trans hr.horizon).trans_lt (hr.north e he)⟩
        all := fun hyes => by
          rw [show s.finishing = true from hyes] at hfin
          cases hfin }

/-! ## The end of the input -/

theorem Streaming.final (hR : Represents R) (h : Streaming R cfg own items finals shares s log)
    (hfin : s.finishing = true) {i : Fin n} {reader reader' : FinalCells A} {key : CellIndex}
    {acc : A} (hreader : s.finalReader = some (i, reader))
    (hnext : reader.nextRecord = .ok (some (key, acc), reader')) :
    Streaming R cfg own items finals shares
      ({ s with finalReader := some (i, reader') }.emitFinal cfg i key acc)
      (log ++ [(i, key, acc)]) := by
  have hres := h.reader i reader hreader
  refine h.emit ⟨h.accounted.tracks, fun j => ?_⟩ (by rw [hreader]; rfl) fun hno => ?_
  · obtain ⟨p, htotal, hp, hphase⟩ := h.accounted.parts j
    rw [readerAt_of_some hreader] at hp
    rw [readerAt_of_some rfl]
    by_cases hj : j = i
    · subst hj
      rw [if_pos rfl] at hp ⊢
      obtain ⟨hlive, hspilled⟩ := hphase (by omega)
      obtain ⟨p', htotal', hlive', hspilled', hp'⟩ := hp.next hR hlive hspilled hnext
      rw [emittedOf_self]
      exact ⟨p', htotal'.trans htotal, hp', fun _ => ⟨hlive', hspilled'⟩⟩
    · rw [if_neg hj] at hp ⊢
      rw [emittedOf_ne hj]
      exact ⟨p, htotal, hp, hphase⟩
  · rw [hfin] at hno
    cases hno

theorem Streaming.close (hR : Represents R) (h : Streaming R cfg own items finals shares s log)
    (hfin : s.finishing = true) {i : Fin n} {reader reader' : FinalCells A}
    (hreader : s.finalReader = some (i, reader))
    (hnext : reader.nextRecord = .ok (none, reader')) :
    Streaming R cfg own items finals shares
      { s with
        finalReader := none
        compactor := (s.compactor.flushResolution (cfg.resolutions i) cfg.kernel s.outputBuffer).1
        outputBuffer :=
          (s.compactor.flushResolution (cfg.resolutions i) cfg.kernel s.outputBuffer).2
        compactionParent := none } log := by
  obtain ⟨hout, hidle⟩ := h.idle.flushResolution (cfg.resolutions i) cfg.kernel s.outputBuffer
  exact
    { h with
      accounted := ⟨h.accounted.tracks, fun j => by
        obtain ⟨p, htotal, hp, hphase⟩ := h.accounted.parts j
        rw [readerAt_of_some hreader] at hp
        refine ⟨p, htotal, ?_, hphase⟩
        rw [readerAt_of_none rfl]
        by_cases hj : j = i
        · rw [if_pos hj] at hp
          exact hp.close hR hnext
        · rwa [if_neg hj] at hp⟩
      idle := hidle
      finals := by
        rw [hout]
        exact h.finals
      reading := fun hno => by
        rw [show s.finishing = false from hno] at hfin
        cases hfin
      reader := fun _ _ hsome => by cases hsome
      finished := fun hdone => by
        obtain ⟨-, hnone, -⟩ := h.finished hdone
        rw [hnone] at hreader
        cases hreader }

omit [LawfulSpill A] in
/-- Nothing is left behind once the runs have been handed to a reader. -/
theorem runsHold_finish {runs runs' : SpillRuns} {reader : Option (RunReader A)}
    (h : runs.finish A = .ok (reader, runs')) : RunsHold R runs' 0 := by
  rw [SpillRuns.finish] at h
  obtain ⟨combined, -, h⟩ := Bytes.bind_eq_ok h
  cases h
  have hlevels : ∀ levels : List (Option Run),
      LevelsHold R runs.limit (levels.map fun _ => none) 0 ∧
        counter (levels.map fun _ => none) = 0 := by
    intro levels
    induction levels with
    | nil => exact ⟨.nil, rfl⟩
    | cons slot levels ih =>
        refine ⟨.empty ih.1, ?_⟩
        rw [List.map_cons, counter, ih.2]
  obtain ⟨hhold, hcount⟩ := hlevels runs.levels
  exact ⟨hhold, hcount.trans_le (Nat.zero_le _), fun _ => rfl⟩

theorem Streaming.openRuns (hR : Represents R) (h : Streaming R cfg own items finals shares s log)
    (hfin : s.finishing = true) (hreader : s.finalReader = none) (hres : s.finalResolution < n)
    {reader : Option (RunReader A)} {runs : SpillRuns}
    (hspill : s.spillResolution ⟨s.finalResolution, hres⟩ = .ok t)
    (hfinish : (t.spillRuns ⟨s.finalResolution, hres⟩).finish A = .ok (reader, runs)) :
    Streaming R cfg own items finals shares
      { t with
        spillRuns := Function.update t.spillRuns ⟨s.finalResolution, hres⟩ runs
        finalReader := reader.map fun r => (⟨s.finalResolution, hres⟩, .disk r)
        finalResolution := t.finalResolution + 1 } log := by
  generalize hi : (⟨s.finalResolution, hres⟩ : Fin n) = i at hspill hfinish ⊢
  have hival : i.val = s.finalResolution := by rw [← hi]
  obtain ⟨⟨shards, spills, failures, rfl⟩, hacc, p₀, htotal₀, hlive₀, hp₀⟩ :=
    h.accounted.spillResolution hR hspill
  exact
    { h with
      accounted := ⟨hacc.tracks, fun j => by
        obtain ⟨p, htotal, hp, hphase⟩ := hacc.parts j
        rw [readerAt_of_none (s := { s with
          resolutionShards := shards, spillRuns := spills, transformFailures := failures })
          hreader] at hp hp₀
        rw [readerAt_of_map rfl]
        by_cases hj : j = i
        · subst hj
          have hread : p₀.read = 0 := hp₀.read
          refine ⟨{ p₀ with spilled := 0, read := p₀.spilled }, ?_, ?_, fun _ => ⟨hlive₀, rfl⟩⟩
          · rw [← htotal₀]
            simp only [Split.total, hread]
            abel
          · simp only [Function.update_self, if_true]
            exact (hp₀.openRuns hR hfinish).2 (runsHold_finish hfinish)
        · refine ⟨p, htotal, ?_, fun hlt => hphase ?_⟩
          · simp only [Function.update_of_ne hj, if_neg hj]
            exact hp
          · have hne : j.val ≠ i.val := fun heq => hj (Fin.ext heq)
            simp only at hlt ⊢
            omega⟩
      reading := fun hno => by
        rw [show s.finishing = false from hno] at hfin
        cases hfin
      reader := fun j r hsome => by
        obtain ⟨r', -, hr'⟩ := Option.map_eq_some_iff.mp hsome
        cases hr'
        simp only [hival]
      finished := fun hdone => by
        obtain ⟨-, -, hn⟩ := h.finished hdone
        omega }

omit [LawfulSpill A] in
/-- A sweep and the publishing after it change nothing that the reading of a batch looks at. -/
theorem Streaming.sweep (h : Streaming R cfg own items finals shares s log)
    (hfin : s.finishing = false) (hsweep : MultiHorizonStreamer.Swept cfg s t) :
    Streaming R cfg own items finals shares t.publish log ∧ t.publish.finishing = false ∧
      t.publish.prefetcher = s.prefetcher ∧ t.publish.batches = s.batches ∧
      t.publish.processedChunkCount = s.processedChunkCount ∧
      t.publish.nextItems cfg = s.nextItems cfg := by
  obtain ⟨hprefetcher, hbatches, hcount⟩ := t.frame_publish
  obtain ⟨shards, rfl, hshards, -⟩ := Swept.idle h.idle hsweep h.accounted.tracks
  refine ⟨(h.searched hshards).publish, ?_, hprefetcher, hbatches, hcount, ?_⟩
  · unfold MultiHorizonStreamer.publish
    split <;> exact hfin
  · simp only [MultiHorizonStreamer.nextItems, hprefetcher, hbatches, hcount]

/-- Whatever a round does, the invariant survives it. -/
theorem Streaming.step (hR : Represents R) (hscan : Scan R cfg items)
    (h : Streaming R cfg own items finals shares s log) (hstep : s.step cfg = .ok t) :
    ∃ log', log <+: log' ∧ Streaming R cfg own items finals shares t log' := by
  cases MultiHorizonStreamer.step_cases h.accounted.tracks hstep with
  | evict hfin _ hunspilled hshards =>
      exact ⟨_, List.prefix_append _ _, h.evict hR hfin hunspilled hshards⟩
  | flush _ hsweep hout =>
      obtain ⟨shards, rfl, -⟩ := Swept.idle h.idle hsweep h.accounted.tracks
      exact absurd hout (Nat.lt_irrefl _)
  | endInput hfin hsweep _ hall =>
      obtain ⟨hpub, hfin', -, -, hcount, -⟩ := h.sweep hfin hsweep
      exact ⟨log, List.prefix_refl _, hpub.endInput hscan hfin' (hcount.trans hall)⟩
  | batch hfin hsweep _ hbatch =>
      obtain ⟨hpub, hfin', hprefetcher, hbatches, hcount, hitems⟩ := h.sweep hfin hsweep
      rw [← hitems] at hbatch
      have hdone := hpub.batch hR hscan hfin' hbatch
      rw [hprefetcher, hbatches, hcount, hitems] at hdone
      exact ⟨log, List.prefix_refl _, hdone⟩
  | final hfin hreader hnext => exact ⟨_, List.prefix_append _ _, h.final hR hfin hreader hnext⟩
  | close hfin hreader hnext => exact ⟨log, List.prefix_refl _, h.close hR hfin hreader hnext⟩
  | openRuns hfin hreader hres _ hspill hfinish =>
      exact ⟨log, List.prefix_refl _, h.openRuns hR hfin hreader hres hspill hfinish⟩
  | openMemory hfin hreader hres hunspilled =>
      exact ⟨log, List.prefix_refl _, h.openMemory hfin hreader hres hunspilled⟩
  | finish hfin hreader hres =>
      exact ⟨log, List.prefix_refl _, h.finish hfin hreader hres⟩

/-! ## Pages and runs -/

omit [LawfulSpill A] in
/-- What is drained has been waiting. -/
theorem Streaming.drain (h : Streaming R cfg own items finals shares s log) (maxRows : Nat) :
    Streaming R cfg own items (finals ++ (s.drainPartitionedInto maxRows).1.1)
      (shares ++ (s.drainPartitionedInto maxRows).1.2) (s.drainPartitionedInto maxRows).2 log := by
  have hfinals := s.outputBuffer.drainInto_append maxRows
  rw [MultiHorizonStreamer.drainPartitionedInto]
  cases hp : s.partition with
  | none =>
      exact
        { h with
          accounted := ⟨h.accounted.tracks, h.accounted.parts⟩
          owns := by
            have howns := h.owns
            rwa [hp] at howns
          finals := by
            rw [List.append_assoc, hfinals]
            exact h.finals
          shares := by
            have hs := h.shares
            rw [MultiHorizonStreamer.partialContents, hp] at hs
            rw [List.append_nil]
            exact hs
          reading := fun hfin => by
            have hr := h.reading hfin
            exact ⟨hr.reader, hr.resolution, hr.chunks, hr.horizon, hr.north⟩ }
  | some p =>
      have hshares := p.partials.drainInto_append
        (maxRows - (s.outputBuffer.drainInto maxRows).1.length)
      exact
        { h with
          accounted := ⟨h.accounted.tracks, h.accounted.parts⟩
          owns := by
            have howns := h.owns
            rwa [hp] at howns
          finals := by
            rw [List.append_assoc, hfinals]
            exact h.finals
          shares := by
            have hs := h.shares
            rw [MultiHorizonStreamer.partialContents, hp] at hs
            rw [List.append_assoc]
            show shares ++ (_ ++ OutputBuffer.contents _) = _
            rw [hshares]
            exact hs
          reading := fun hfin => by
            have hr := h.reading hfin
            exact ⟨hr.reader, hr.resolution, hr.chunks, hr.horizon, hr.north⟩ }

/-- An invariant of the stream, of what has been drained and of what has been emitted, that
rounds and drains keep. -/
structure Invariant (cfg : Setup A L C n)
    (Inv : List (Record A) → List (PartialCell A) → MultiHorizonStreamer A L C n →
      List (Emitted A n) → Prop) : Prop where
  step : ∀ {finals shares s t log}, Inv finals shares s log → s.step cfg = .ok t →
    ∃ log', log <+: log' ∧ Inv finals shares t log'
  drain : ∀ {finals shares s log} (maxRows : Nat), Inv finals shares s log →
    Inv (finals ++ (s.drainPartitionedInto maxRows).1.1)
      (shares ++ (s.drainPartitionedInto maxRows).1.2) (s.drainPartitionedInto maxRows).2 log

/-- The session is where the invariant says, or its stream has failed since. After a failure
nothing more is drained, and what was drained before it stands. -/
def Carries (Inv : List (Record A) → List (PartialCell A) → MultiHorizonStreamer A L C n →
    List (Emitted A n) → Prop) (session : Session A L C n) (log : List (Emitted A n)) : Prop :=
  ∃ stream, Inv session.records session.partials stream log ∧
    (session.stream = stream ∨ ∃ reason, session.stream.lifecycle = .failed reason)

section Invariant

omit [LawfulSpill A]

variable {Inv : List (Record A) → List (PartialCell A) → MultiHorizonStreamer A L C n →
  List (Emitted A n) → Prop}

theorem Invariant.advance (hinv : Invariant cfg Inv) (minRows rounds : Nat) :
    ∀ {s : MultiHorizonStreamer A L C n} {log : List (Emitted A n)},
      Inv finals shares s log → s.advanceInner cfg minRows rounds = .ok t →
      ∃ log', log <+: log' ∧ Inv finals shares t log' := by
  induction rounds with
  | zero =>
      intro s log h hadv
      cases hadv
      exact ⟨log, List.prefix_refl _, h⟩
  | succ rounds ih =>
      intro s log h hadv
      rw [MultiHorizonStreamer.advanceInner] at hadv
      split at hadv
      next =>
        obtain ⟨u, hstep, hrest⟩ := Bytes.bind_eq_ok hadv
        obtain ⟨log', hlog, hu⟩ := hinv.step h hstep
        obtain ⟨log'', hlog', ht⟩ := ih hu hrest
        exact ⟨log'', hlog.trans hlog', ht⟩
      next =>
        cases hadv
        exact ⟨log, List.prefix_refl _, h⟩

omit [SpillAccumulator A] [BoundedOrder L] in
theorem fail_lifecycle (s : MultiHorizonStreamer A L C n) (reason : String) :
    ∃ reason', (s.fail cfg reason).lifecycle = .failed reason' := by
  show ∃ reason', s.lifecycle.latchFailure reason = .failed reason'
  cases s.lifecycle with
  | running | finished => exact ⟨reason, rfl⟩
  | failed existing => exact ⟨existing, rfl⟩

/-- A stream that has failed answers every page with its error. -/
theorem page_failed (cfg : Setup A L C n) {session : Session A L C n} {reason : String}
    (hfail : session.stream.lifecycle = .failed reason) (page : Page) :
    ∃ errors, session.page cfg page = { session with errors := errors } := by
  rw [Session.page]
  split
  next => exact ⟨_, rfl⟩
  next =>
    rw [MultiHorizonStreamer.advanceUntilCompleted, hfail]
    exact ⟨_, rfl⟩

theorem Invariant.page (hinv : Invariant cfg Inv) {session : Session A L C n}
    (h : Carries Inv session log) (page : Page) :
    ∃ log', log <+: log' ∧ Carries Inv (session.page cfg page) log' := by
  obtain ⟨stream, hi, rfl | ⟨reason, hfail⟩⟩ := h
  · cases hl : session.stream.lifecycle with
    | failed reason =>
        obtain ⟨errors, heq⟩ := page_failed cfg hl page
        rw [heq]
        exact ⟨log, List.prefix_refl _, session.stream, hi, .inl rfl⟩
    | running | finished =>
        rw [Session.page]
        split
        next => exact ⟨log, List.prefix_refl _, session.stream, hi, .inl rfl⟩
        next =>
          rw [MultiHorizonStreamer.advanceUntilCompleted, hl]
          cases hadv : session.stream.advanceInner cfg (min page.maxRows 2048) page.rounds with
          | ok t =>
              obtain ⟨log', hlog, ht⟩ := hinv.advance _ _ hi hadv
              exact ⟨log', hlog, _, hinv.drain page.maxRows ht, .inl rfl⟩
          | error failure =>
              obtain ⟨u, e⟩ := failure
              refine ⟨log, List.prefix_refl _, session.stream, ?_⟩
              cases e with
              | transformFailures | invalidParameter | streamFailed | io =>
                  exact ⟨hi, .inr (fail_lifecycle u _)⟩
  · obtain ⟨errors, heq⟩ := page_failed cfg hfail page
    rw [heq]
    exact ⟨log, List.prefix_refl _, stream, hi, .inr ⟨reason, hfail⟩⟩

theorem Invariant.run (hinv : Invariant cfg Inv) (pages : List Page) :
    ∀ {session : Session A L C n} {log : List (Emitted A n)}, Carries Inv session log →
      ∃ log', log <+: log' ∧ Carries Inv (session.run cfg pages) log' := by
  induction pages with
  | nil => exact fun h => ⟨_, List.prefix_refl _, h⟩
  | cons page pages ih =>
      intro session log h
      obtain ⟨log', hlog, h'⟩ := hinv.page h page
      obtain ⟨log'', hlog', h''⟩ := ih h'
      exact ⟨log'', hlog.trans hlog', h''⟩

end Invariant

theorem streaming_invariant (hR : Represents R) (hscan : Scan R cfg items) :
    Invariant cfg (Streaming R cfg own items) where
  step := fun h hstep => h.step hR hscan hstep
  drain := fun maxRows h => h.drain maxRows

omit [LawfulSpill A] in
theorem streaming_new (R : Multiset X → A → Prop) (items : List (Item A X n))
    {classifier : Option C} (howns : Owns cfg own classifier.isSome)
    (compactionBudgetBytes : Option Nat) (structureBytes : Fin n → Nat → Nat)
    (indexBytes : Nat → Nat) :
    Streaming R cfg own items [] [] (.new cfg false compactionBudgetBytes structureBytes indexBytes
      classifier (items.map Item.chunk)) [] where
  accounted := {
    tracks := fun i => (ShardedResolutionMap.tracks_new cfg.h3 _).setEvictionEnabled
      fun _ _ _ => rfl
    parts := fun i => by
      have hnone : ∀ b k, ((ShardedResolutionMap.new (structureBytes i) :
          ShardedResolutionMap A L).setEvictionEnabled b).get k = none := by
        intro b k
        cases b <;> exact AList.lookup_empty _
      refine ⟨⟨0, 0, 0, 0⟩, rfl, ⟨fun k a hk => ?_, fun _ _ => rfl, runsHold_new _, rfl, .nil R,
        List.nodup_nil, fun k hk => absurd hk List.not_mem_nil⟩, fun _ => ⟨rfl, rfl⟩⟩
      exact absurd (hk.symm.trans (hnone _ k)) (Option.some_ne_none a) }
  idle := idle_new _ _
  owns := by
    cases classifier with
    | none => exact howns
    | some c => exact howns
  finals := rfl
  shares := by
    cases classifier with
    | none => rfl
    | some c => rfl
  reading := fun _ => ⟨rfl, rfl, rfl, le_top, fun e he => absurd he List.not_mem_nil⟩
  all := fun h => by cases h
  reader := fun _ _ h => by cases h
  alive := fun _ h => by cases h
  finished := fun h => by cases h

omit [LawfulSpill A] in
/-- At the end nothing is left anywhere but in what has been emitted. -/
theorem Streaming.complete (h : Streaming R cfg own items finals shares s log)
    (hdone : s.isFinished = true) : finals = finalsOf cfg own log ∧ shares = sharesOf cfg own log ∧
      Complete (received items items.length) log := by
  obtain ⟨hlife, hbuffer, hpartials⟩ := of_decide_eq_true hdone
  obtain ⟨hfin, hreader, hn⟩ := h.finished hlife
  refine ⟨?_, ?_, fun i k hne => ?_⟩
  · have hempty : s.outputBuffer.contents = [] := by
      rw [← List.length_eq_zero_iff, ← OutputBuffer.len_eq]
      exact hbuffer
    have hfinals := h.finals
    rwa [hempty, List.append_nil] at hfinals
  · have hempty : s.partialContents = [] := by
      rw [MultiHorizonStreamer.partialContents]
      cases hp : s.partition with
      | none => rfl
      | some p =>
          rw [hp] at hpartials
          rw [Option.map_some, Option.getD_some, ← List.length_eq_zero_iff, ← OutputBuffer.len_eq]
          exact hpartials
    have hshares := h.shares
    rwa [hempty, List.append_nil] at hshares
  · obtain ⟨p, htotal, hp, hphase⟩ := h.accounted.parts i
    obtain ⟨hlive, hspilled⟩ := hphase (i.isLt.trans_le hn)
    rw [readerAt_of_none hreader] at hp
    have hread : p.read = 0 := hp.read
    by_contra hout
    refine hne ?_
    rw [← h.all hfin, ← htotal, Split.total, hlive, hspilled, hread, zero_add, zero_add, zero_add]
    exact hp.out.absent k hout

/-- A session before its first page. -/
def Session.fresh (cfg : Setup A L C n) (items : List (Item A X n)) (classifier : Option C)
    (compactionBudgetBytes : Option Nat) (structureBytes : Fin n → Nat → Nat)
    (indexBytes : Nat → Nat) : Session A L C n :=
  ⟨.new cfg false compactionBudgetBytes structureBytes indexBytes classifier
    (items.map Item.chunk), [], [], []⟩

/-- The invariant at the end of every run. -/
theorem run_streaming (hR : Represents R) (hscan : Scan R cfg items) {classifier : Option C}
    (howns : Owns cfg own classifier.isSome) (compactionBudgetBytes : Option Nat)
    (structureBytes : Fin n → Nat → Nat) (indexBytes : Nat → Nat) (pages : List Page) :
    ∃ cells, Carries (Streaming R cfg own items) ((Session.fresh cfg items classifier
      compactionBudgetBytes structureBytes indexBytes).run cfg pages) cells := by
  have hstart := streaming_new R items howns compactionBudgetBytes structureBytes indexBytes
  obtain ⟨cells, -, h⟩ := (streaming_invariant hR hscan).run pages
    (⟨_, hstart, .inl rfl⟩ : Carries _ (Session.fresh cfg items classifier compactionBudgetBytes
      structureBytes indexBytes) [])
  exact ⟨cells, h⟩

omit [LawfulSpill A] in
theorem Carries.complete {session : Session A L C n} {cells : List (Emitted A n)}
    (h : Carries (Streaming R cfg own items) session cells)
    (hdone : session.stream.isFinished = true) :
    session.records = finalsOf cfg own cells ∧ session.partials = sharesOf cfg own cells ∧
      Complete (received items items.length) cells := by
  obtain ⟨stream, h, rfl | ⟨reason, hfail⟩⟩ := h
  · exact h.complete hdone
  · cases hfail.symm.trans (of_decide_eq_true hdone).1

/-- For every scan there is one batch result that every run is measured against: whatever
the pages, the budgets, the spills and the failures, the consumer has a prefix of its
records and of its partial cells, each with all samples of its cell, and a stream that
says it is finished has delivered all of them. -/
theorem stream_equals_batch (hR : Represents R) (hscan : Scan R cfg items) {classifier : Option C}
    (howns : Owns cfg own classifier.isSome) (compactionBudgetBytes : Option Nat)
    (structureBytes : Fin n → Nat → Nat) (indexBytes : Nat → Nat) (pages : List Page) :
    let session := (Session.fresh cfg items classifier compactionBudgetBytes structureBytes
      indexBytes).run cfg pages
    ∃ cells, Aggregation R (received items items.length) cells ∧
      session.records <+: finalsOf cfg own cells ∧ session.partials <+: sharesOf cfg own cells ∧
      (session.stream.isFinished = true → session.records = finalsOf cfg own cells ∧
        session.partials = sharesOf cfg own cells ∧
        Complete (received items items.length) cells) := by
  intro session
  obtain ⟨cells, hcarries⟩ := run_streaming hR hscan howns compactionBudgetBytes structureBytes
    indexBytes pages
  refine ⟨cells, ?_, ?_, ?_, fun hdone => hcarries.complete hdone⟩
  all_goals obtain ⟨stream, h, -⟩ := hcarries
  · exact h.aggregation hscan
  · exact h.finals ▸ List.prefix_append _ _
  · exact h.shares ▸ List.prefix_append _ _

/-! ## Two chunks of one pixel -/

/-- A chunk whose only pixel has one sample in each of some cells. -/
def onePixel (cells : List (CellIndex × CategoricalAccumulator Nat)) :
    Scanned (CategoricalAccumulator Nat) (CategoricalAccumulator Nat) 1 where
  chunk :=
    { width := 1
      height := 1
      sparse := false
      process := fun w _ => if w.Contains 0 0 then cells else []
      failures := fun _ => 0 }
  samples := fun _ _ k => statesFor k cells

theorem onePixel_aggregates {cells : List (CellIndex × CategoricalAccumulator Nat)}
    (h : (keys cells).Nodup) (workerPixels : Nat) :
    (onePixel cells).Aggregates MergeOf workerPixels := by
  intro w _ i
  have hpart : (onePixel cells).part w =
      (if w.Contains 0 0 then fun _ k => statesFor k cells else 0 : Fin 1 → Contents _) := by
    have hpixels : (onePixel cells).pixels = [(0, 0)] := rfl
    rw [Scanned.part, hpixels]
    by_cases hw : w.Contains 0 0
    · rw [List.filter_cons_of_pos (by simpa using hw), if_pos hw]
      exact List.sum_singleton
    · rw [List.filter_cons_of_neg (by simpa using hw), if_neg hw]
      rfl
  show (keys (if w.Contains 0 0 then cells else [])).Nodup ∧
    Keyed.Holds MergeOf (if w.Contains 0 0 then cells else []) _
  rw [hpart]
  by_cases hw : w.Contains 0 0
  · rw [if_pos hw, if_pos hw]
    exact ⟨h, .self .single h⟩
  · rw [if_neg hw, if_neg hw]
    exact ⟨List.nodup_nil, .nil _⟩

theorem mem_keys_of_onePixel {cells : List (CellIndex × CategoricalAccumulator Nat)} {i : Fin 1}
    {key : CellIndex} (hne : (onePixel cells).total i key ≠ 0) : key ∈ keys cells := by
  by_contra hout
  refine hne ?_
  have hsum : (onePixel cells).total = ([(0, 0)].map (onePixel cells).samples).sum := rfl
  rw [hsum, List.map_singleton, List.sum_singleton]
  exact statesFor_eq_zero.mpr hout

theorem south_onePixel {cells : List (CellIndex × CategoricalAccumulator Nat)} {i : Fin 1}
    {lat : Fin 181} (hall : ∀ p ∈ cells, baseGrid.southLat p.1 ≤ lat) {key : CellIndex}
    (hne : (onePixel cells).total i key ≠ 0) : baseGrid.southLat key ≤ lat := by
  obtain ⟨a, ha⟩ := mem_keys.mp (mem_keys_of_onePixel hne)
  exact hall _ ha

def sampleOf (category : Int64) : CategoricalAccumulator Nat :=
  CategoricalAccumulator.new.update category

/-- The northern cell only gets samples of the first chunk, the other one of both. -/
def twoChunks : List (Item (CategoricalAccumulator Nat) (CategoricalAccumulator Nat) 1) :=
  [.ok (onePixel [(0x8129bffffffffff, sampleOf 1), (0x81287ffffffffff, sampleOf 2)]),
    .ok (onePixel [(0x81287ffffffffff, sampleOf 3)])]

theorem north_lt : 130 < 181 := by decide

theorem south_lt : 122 < 181 := by decide

/-- No cell of the two chunks is north of the first bound. -/
def twoChunkSetup : Setup (CategoricalAccumulator Nat) (Fin 181) Unit 1 where
  h3 := baseGrid
  kernel := ⟨.new, fun _ => true, 512⟩
  resolutions := fun _ => 1
  strictTransforms := true
  mapBudget := 65536
  accumulatorLimit := 65536
  outputByteLimit := 65536
  workerTasks := 1
  workerPixels := 1
  batchSize := 1
  batchPixels := 1
  norths := [⟨130, north_lt⟩, ⟨122, south_lt⟩]
  chunkPixels := [1, 1]
  ready := fun _ => 1
  isInterior := fun _ _ => (true, ())
  sizeOfChild := 488
  sizeOfPartial := 512

theorem scan_twoChunks : Scan MergeOf twoChunkSetup twoChunks where
  chunks := rfl
  aggregates := by
    intro c hc
    rcases List.mem_cons.mp hc with heq | hc
    · cases heq
      exact onePixel_aggregates (by decide +kernel) _
    · cases List.mem_singleton.mp hc
      exact onePixel_aggregates (by decide +kernel) _
  bounded := by
    intro k item hk i key hne
    rcases k with _ | _ | k
    · cases hk
      exact south_onePixel (by decide +kernel) hne
    · cases hk
      exact south_onePixel (by decide +kernel) hne
    · cases hk
  tasks := by decide
  pixels := by decide

/-- The northern cell is drained before the second chunk is read. -/
theorem stream_equals_batch_two_chunks :
    let session := (Session.fresh twoChunkSetup twoChunks none none (fun _ _ => 1024)
      fun _ => 1024).run twoChunkSetup [⟨.drainCompletedInto, 1, 3⟩, ⟨.drainCompletedInto, 8, 9⟩]
    session.records.map Record.h3Index = [0x8129bffffffffff, 0x81287ffffffffff] ∧
      session.stream.isFinished = true ∧
    ∃ cells, Aggregation MergeOf (received twoChunks 2) cells ∧
      session.records <+: finalsOf twoChunkSetup (fun _ => true) cells ∧
      session.partials <+: sharesOf twoChunkSetup (fun _ => true) cells ∧
      (session.stream.isFinished = true →
        session.records = finalsOf twoChunkSetup (fun _ => true) cells ∧
        session.partials = sharesOf twoChunkSetup (fun _ => true) cells ∧
        Complete (received twoChunks 2) cells) := by
  exact ⟨by decide +kernel, by decide +kernel, stream_equals_batch MergeOf.represents scan_twoChunks
    ⟨fun _ _ => rfl, fun h => by cases h⟩ none _ _ _⟩

end RasterH3.Agg
