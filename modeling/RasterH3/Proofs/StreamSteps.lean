import RasterH3.Agg.Controller
import RasterH3.Proofs.ShardedMap

/-!
# What one round of the controller can do

A round of the controller is a long function. It looks for a cell to evict over all
resolutions and puts the heaps in order while it looks, flushes the groups that are
complete, reads a batch of chunks or a final cell, opens and closes readers of runs, and
finishes; most of it is the same for every round, and what differs lies at the end of many
branches.

`Step` says once what a round can do: a cell is evicted, groups are flushed, the input ends,
a batch is merged, a final cell is read, a reader is closed or opened, the stream finishes.
Each constructor names the fields that change and says what is known of them, the guards of
the branch included, and leaves the others alone by writing the state as an update.
`step_cases` reads the list off the code. The search is the part with a loop, over the
resolutions, and its lemma is by induction on any list of them (`evictNext_cases`): a cell
that has been found lies north of the horizon and is gone from its map, and where none has
been found the maps hold what they held, with their heaps in order (`Searched`).

Everything that is proved of runs is a case analysis on `Step`, and an induction over the
loop and the pages. No other proof unfolds the round.
-/

namespace RasterH3.Agg

open AccumulatorMerge SpillAccumulator

namespace MultiHorizonStreamer

variable {A L C : Type} {n : Nat} [SpillAccumulator A] [LinearOrder L] [BoundedOrder L]

/-- The same cells, with the heaps in order. -/
structure Searched (h3 : H3 L) (before after : Fin n → ShardedResolutionMap A L) : Prop where
  get : ∀ i, (after i).get = (before i).get
  track : ∀ i, (after i).trackEviction = (before i).trackEviction
  tracks : ∀ i, (after i).Tracks h3

/-- One cell less, which lay north of the horizon. -/
structure Evicted (h3 : H3 L) (horizon : L) (i : Fin n) (key : CellIndex) (acc : A)
    (before after : Fin n → ShardedResolutionMap A L) : Prop where
  live : (before i).get key = some acc
  south : horizon < h3.southLat key
  get : ∀ j k, (after j).get k = if j = i ∧ k = key then none else (before j).get k
  track : ∀ j, (after j).trackEviction = (before j).trackEviction
  tracks : ∀ j, (after j).Tracks h3

omit [SpillAccumulator A] [BoundedOrder L] in
theorem forall_update {p : Fin n → ShardedResolutionMap A L → Prop}
    {shards : Fin n → ShardedResolutionMap A L} {i : Fin n} {m : ShardedResolutionMap A L}
    (hi : p i m) (hrest : ∀ j, j ≠ i → p j (shards j)) (j : Fin n) :
    p j (Function.update shards i m j) :=
  (Function.forall_update_iff shards p).mpr ⟨hi, hrest⟩ j

variable (cfg : Setup A L C n)

/-- Nothing was left to evict, and complete groups have been flushed. -/
inductive Swept (s : MultiHorizonStreamer A L C n) : MultiHorizonStreamer A L C n → Prop where
  | late (hcan : cfg.canEvictEarly = false) : Swept s s
  | early {shards} (hcan : cfg.canEvictEarly = true)
      (hshards : Searched cfg.h3 s.resolutionShards shards)
      (hsouth : ∀ i, (s.spillRuns i).hasSpilled = false → (shards i).trackEviction = true →
        ∀ k, (shards i).get k ≠ none → cfg.h3.southLat k ≤ s.evictionHorizon) :
      Swept s ({ s with resolutionShards := shards }.flushCompleted cfg)

inductive Step (s : MultiHorizonStreamer A L C n) : MultiHorizonStreamer A L C n → Prop where
  | evict {shards i key acc} (hfin : s.finishing = false) (hcan : cfg.canEvictEarly = true)
      (hunspilled : (s.spillRuns i).hasSpilled = false)
      (hshards : Evicted cfg.h3 s.evictionHorizon i key acc s.resolutionShards shards) :
      Step s ({ s with resolutionShards := shards }.emitFinal cfg i key acc)
  | flush {t} (hfin : s.finishing = false) (hsweep : Swept cfg s t)
      (hout : s.outputBuffer.len < t.outputBuffer.len) : Step s t
  | endInput {t} (hfin : s.finishing = false) (hsweep : Swept cfg s t)
      (hitems : s.nextItems cfg = []) (hall : s.processedChunkCount = cfg.norths.length) :
      Step s { t.publish with prefetcher := none, finishing := true }
  | batch {t u} (hfin : s.finishing = false) (hsweep : Swept cfg s t)
      (hitems : s.nextItems cfg ≠ [])
      (hbatch : t.publish.processBatch cfg (s.nextItems cfg) = .ok u) :
      Step s (advanceHorizon cfg
        { u with
          prefetcher := s.prefetcher.map (·.drop (s.nextItems cfg).length)
          batches := s.batches + 1
          processedChunkCount := s.processedChunkCount + (s.nextItems cfg).length })
  | final {i reader key acc reader'} (hfin : s.finishing = true)
      (hreader : s.finalReader = some (i, reader))
      (hnext : reader.nextRecord = .ok (some (key, acc), reader')) :
      Step s ({ s with finalReader := some (i, reader') }.emitFinal cfg i key acc)
  | close {i reader reader'} (hfin : s.finishing = true)
      (hreader : s.finalReader = some (i, reader))
      (hnext : reader.nextRecord = .ok (none, reader')) :
      Step s
        { s with
          finalReader := none
          compactor :=
            (s.compactor.flushResolution (cfg.resolutions i) cfg.kernel s.outputBuffer).1
          outputBuffer :=
            (s.compactor.flushResolution (cfg.resolutions i) cfg.kernel s.outputBuffer).2
          compactionParent := none }
  | openRuns {t reader runs} (hfin : s.finishing = true) (hreader : s.finalReader = none)
      (hres : s.finalResolution < n)
      (hspilled : (s.spillRuns ⟨s.finalResolution, hres⟩).hasSpilled = true)
      (hspill : s.spillResolution ⟨s.finalResolution, hres⟩ = .ok t)
      (hfinish : (t.spillRuns ⟨s.finalResolution, hres⟩).finish A = .ok (reader, runs)) :
      Step s
        { t with
          spillRuns := Function.update t.spillRuns ⟨s.finalResolution, hres⟩ runs
          finalReader := reader.map fun r => (⟨s.finalResolution, hres⟩, .disk r)
          finalResolution := t.finalResolution + 1 }
  | openMemory (hfin : s.finishing = true) (hreader : s.finalReader = none)
      (hres : s.finalResolution < n)
      (hunspilled : (s.spillRuns ⟨s.finalResolution, hres⟩).hasSpilled = false) :
      Step s
        { s with
          resolutionShards := Function.update s.resolutionShards ⟨s.finalResolution, hres⟩
            (s.resolutionShards ⟨s.finalResolution, hres⟩).takeSorted.2
          finalReader := some (⟨s.finalResolution, hres⟩,
            .memory (s.resolutionShards ⟨s.finalResolution, hres⟩).takeSorted.1)
          finalResolution := s.finalResolution + 1 }
  | finish (hfin : s.finishing = true) (hreader : s.finalReader = none)
      (hres : ¬ s.finalResolution < n) :
      Step s
        { s with
          compactor := (s.compactor.flushAll cfg.kernel s.outputBuffer).1
          outputBuffer := (s.compactor.flushAll cfg.kernel s.outputBuffer).2
          lifecycle := s.lifecycle.markFinished }

variable {cfg}

/-- The search for a cell to evict, over any list of resolutions. -/
theorem evictNext_cases (indices : List (Fin n)) (s : MultiHorizonStreamer A L C n)
    (htracks : ∀ i, (s.resolutionShards i).Tracks cfg.h3) :
    (∃ shards i key acc, (s.spillRuns i).hasSpilled = false ∧
      Evicted cfg.h3 s.evictionHorizon i key acc s.resolutionShards shards ∧
      s.evictNext cfg indices =
        (true, { s with resolutionShards := shards }.emitFinal cfg i key acc)) ∨
    ∃ shards, Searched cfg.h3 s.resolutionShards shards ∧
      (∀ i ∈ indices, (s.spillRuns i).hasSpilled = false → (shards i).trackEviction = true →
        ∀ k, (shards i).get k ≠ none → cfg.h3.southLat k ≤ s.evictionHorizon) ∧
      s.evictNext cfg indices = (false, { s with resolutionShards := shards }) := by
  induction indices generalizing s with
  | nil => exact .inr ⟨s.resolutionShards, ⟨fun _ => rfl, fun _ => rfl, htracks⟩, by simp, rfl⟩
  | cons i rest ih =>
      rw [evictNext]
      split
      next hspilled =>
        rcases ih s htracks with h | ⟨shards, hs, hsouth, heq⟩
        · exact .inl h
        · refine .inr ⟨shards, hs, fun j hj hun => ?_, heq⟩
          rcases List.mem_cons.mp hj with rfl | hj
          · rw [hspilled] at hun
            cases hun
          · exact hsouth j hj hun
      next hunspilled =>
        have hun : (s.spillRuns i).hasSpilled = false := Bool.eq_false_iff.mpr hunspilled
        have hpops := ShardedResolutionMap.popCompleted_pops (htracks i) s.evictionHorizon
        simp only
        split
        next key acc hsome =>
          refine .inl ⟨_, i, key, acc, hun, ?_, rfl⟩
          obtain ⟨m', hm'⟩ : ∃ m', (s.resolutionShards i).popCompleted s.evictionHorizon =
            (some (key, acc), m') := ⟨_, Prod.ext hsome rfl⟩
          rw [hm'] at hpops ⊢
          cases hpops with
          | some hlive hsouth hget htrack hkeys =>
              refine ⟨hlive, hsouth, ?_, ?_, ?_⟩
              · exact forall_update
                  (p := fun j m => ∀ k, m.get k =
                    if j = i ∧ k = key then none else (s.resolutionShards j).get k)
                  (fun k => by simp [hget k]) fun j hj k => by simp [hj]
              · exact forall_update
                  (p := fun j m => m.trackEviction = (s.resolutionShards j).trackEviction)
                  htrack fun _ _ => rfl
              · exact forall_update (p := fun _ m => m.Tracks cfg.h3) hkeys fun j _ => htracks j
        next hnone =>
          obtain ⟨m', hm'⟩ : ∃ m', (s.resolutionShards i).popCompleted s.evictionHorizon =
            (none, m') := ⟨_, Prod.ext hnone rfl⟩
          have hsouth := ShardedResolutionMap.popCompleted_none (htracks i) hm'
          rw [hm'] at hpops ⊢
          cases hpops with
          | none hget htrack hkeys =>
              have hsame : Searched cfg.h3 s.resolutionShards
                  (Function.update s.resolutionShards i m') :=
                ⟨forall_update (p := fun j m => m.get = (s.resolutionShards j).get) hget
                    fun _ _ => rfl,
                  forall_update
                    (p := fun j m => m.trackEviction = (s.resolutionShards j).trackEviction)
                    htrack fun _ _ => rfl,
                  forall_update (p := fun _ m => m.Tracks cfg.h3) hkeys fun j _ => htracks j⟩
              rcases ih { s with resolutionShards := Function.update s.resolutionShards i m' }
                  hsame.tracks with
                ⟨shards, j, key, acc, hj, hev, heq⟩ | ⟨shards, hs, hrest, heq⟩
              · refine .inl ⟨shards, j, key, acc, hj, ?_, heq⟩
                refine ⟨?_, hev.south, fun j' k => ?_, fun j' => ?_, hev.tracks⟩
                · rw [← hsame.get j]
                  exact hev.live
                · rw [hev.get j' k, ← hsame.get j']
                · rw [hev.track j', ← hsame.track j']
              · refine .inr ⟨shards, ⟨fun j => ?_, fun j => ?_, hs.tracks⟩, fun j hj hun' => ?_,
                  heq⟩
                · rw [hs.get j, ← hsame.get j]
                · rw [hs.track j, ← hsame.track j]
                · rcases List.mem_cons.mp hj with rfl | hj
                  · intro hon k hk
                    have hget' := hs.get j
                    have htrack' := hs.track j
                    simp only [Function.update_self] at hget' htrack'
                    exact hsouth (htrack' ▸ hon) k (by rwa [← hget'])
                  · exact hrest j hj hun'

/-- Sweeping leaves alone what the reading of a batch looks at. -/
theorem Swept.frame {s t : MultiHorizonStreamer A L C n} (h : Swept cfg s t) :
    t.prefetcher = s.prefetcher ∧ t.batches = s.batches ∧
      t.processedChunkCount = s.processedChunkCount := by
  cases h <;> exact ⟨rfl, rfl, rfl⟩

omit [SpillAccumulator A] in
theorem frame_publish (s : MultiHorizonStreamer A L C n) :
    s.publish.prefetcher = s.prefetcher ∧ s.publish.batches = s.batches ∧
      s.publish.processedChunkCount = s.processedChunkCount := by
  unfold publish
  split <;> exact ⟨rfl, rfl, rfl⟩

theorem readBatch_cases {s t v : MultiHorizonStreamer A L C n} (hfin : s.finishing = false)
    (hsweep : Swept cfg s t) (h : t.publish.readBatch cfg = .ok v) : Step cfg s v := by
  obtain ⟨hp, hb, hc⟩ := hsweep.frame
  obtain ⟨hp', hb', hc'⟩ := t.frame_publish
  have hitems : t.publish.nextItems cfg = s.nextItems cfg := by
    simp only [nextItems, hp', hb', hc', hp, hb, hc]
  unfold readBatch at h
  simp only [hitems] at h
  split at h
  next hempty =>
    split at h
    next => cases h
    next hall =>
      cases h
      rw [not_not, hc', hc] at hall
      exact .endInput hfin hsweep (List.isEmpty_iff.mp hempty) hall
  next hne =>
    split at h
    next => cases h
    next u hu =>
      cases h
      rw [hp', hb', hc', hp, hb, hc]
      exact .batch hfin hsweep (fun hnil => hne (by rw [hnil]; rfl)) hu

theorem readStep_cases {s t : MultiHorizonStreamer A L C n} (hfin : s.finishing = false)
    (htracks : ∀ i, (s.resolutionShards i).Tracks cfg.h3) (h : s.readStep cfg = .ok t) :
    Step cfg s t := by
  unfold readStep at h
  split at h
  next hcan =>
    rcases evictNext_cases (List.finRange n) s htracks with
      ⟨shards, i, key, acc, hun, hev, heq⟩ | ⟨shards, hs, hsouth, heq⟩
    · rw [heq] at h
      cases h
      exact .evict hfin hcan hun hev
    · rw [heq] at h
      have hsweep : Swept cfg s ({ s with resolutionShards := shards }.flushCompleted cfg) :=
        .early hcan hs fun i => hsouth i (List.mem_finRange i)
      simp only [Bool.false_eq_true, if_false] at h
      split at h
      next hout =>
        cases h
        exact .flush hfin hsweep hout
      next => exact readBatch_cases hfin hsweep h
  next hcan => exact readBatch_cases hfin (.late (Bool.eq_false_iff.mpr hcan)) h

theorem finishStep_cases {s t : MultiHorizonStreamer A L C n} (hfin : s.finishing = true)
    (h : s.finishStep cfg = .ok t) : Step cfg s t := by
  unfold finishStep at h
  split at h
  next i reader hreader =>
    split at h
    next => cases h
    next key acc reader' hnext =>
      cases h
      exact .final hfin hreader hnext
    next reader' hnext =>
      cases h
      exact .close hfin hreader hnext
  next hreader =>
    split at h
    next hres =>
      unfold openReader at h
      split at h
      next hspilled =>
        split at h
        next => cases h
        next u hu =>
          split at h
          next => cases h
          next reader runs hfinish =>
            cases h
            exact .openRuns hfin hreader hres hspilled hu hfinish
      next hun =>
        cases h
        exact .openMemory hfin hreader hres (Bool.eq_false_iff.mpr hun)
    next hres =>
      cases h
      exact .finish hfin hreader hres

/-- A round that ends well is one of the listed steps. -/
theorem step_cases {s t : MultiHorizonStreamer A L C n}
    (htracks : ∀ i, (s.resolutionShards i).Tracks cfg.h3) (h : s.step cfg = .ok t) :
    Step cfg s t := by
  unfold step at h
  split at h
  next hfin => exact finishStep_cases hfin h
  next hfin => exact readStep_cases (Bool.eq_false_iff.mpr hfin) htracks h

end MultiHorizonStreamer

end RasterH3.Agg
