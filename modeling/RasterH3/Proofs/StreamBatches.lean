import RasterH3.Lib.Reader
import RasterH3.Proofs.StreamContents
import RasterH3.Proofs.WindowTiling

/-!
# What a batch adds to the live maps

A chunk contributes the samples of its pixels, whichever windows it is cut into
(`sum_windows`). A batch is cut into windows, these are handed to workers in waves, and the
map that a worker returns for its window is merged into the live maps, cell by cell. Merging
may spill: when the maps are too large everything live of a resolution is sorted and pushed
as a run, in the middle of a batch.

`Accounted` says of a state where the contributions to every resolution are, given what has
been emitted so far: in the live map, in the runs, and in the cells that have left. Of a
resolution whose reader has been opened the rest is in the reader. Merging a worker's map
adds the samples of its window and touches nothing but the live maps and the runs
(`Merged`), and so do a wave and a batch; each level is an induction on a list with the
level below as its step. What is spilled stays accounted for, and nothing of it stays live.

The cells that have been emitted must not come again (`Fresh`). If one did, its state would
be merged into an empty one and be emitted as another record of the same cell. That the
horizon sees to it is a matter of runs, here it is a hypothesis, which every step hands on.

What a worker does is a hypothesis as well: its map has each cell once, with the samples of
the window in it (`Aggregates`). The two kernels are shown to do that elsewhere.
-/

namespace RasterH3.Agg

open AccumulatorMerge SpillAccumulator Keyed

variable {A L C X : Type} {n : Nat}

/-! ## Chunks with their samples -/

/-- A chunk and the samples that each of its pixels, by row and column, adds to
each resolution. -/
structure Scanned (A X : Type) (n : Nat) where
  chunk : Chunk A n
  samples : Nat × Nat → Fin n → Contents X

namespace Scanned

def pixels (c : Scanned A X n) : List (Nat × Nat) :=
  (List.range c.chunk.height).product (List.range c.chunk.width)

/-- The samples of the pixels of a window. -/
def part (c : Scanned A X n) (w : Window) : Fin n → Contents X :=
  ((c.pixels.filter fun p => w.Contains p.1 p.2).map c.samples).sum

/-- A sparse chunk is not observed data. -/
def total (c : Scanned A X n) : Fin n → Contents X :=
  if c.chunk.sparse then 0 else (c.pixels.map c.samples).sum

/-- A worker's map has each cell once, with the samples of the window in it. -/
def Aggregates (R : Multiset X → A → Prop) (workerPixels : Nat) (c : Scanned A X n) : Prop :=
  ∀ w ∈ c.chunk.windows workerPixels, ∀ i,
    (keys (c.chunk.process w i)).Nodup ∧ Keyed.Holds R (c.chunk.process w i) (c.part w i)

theorem sum_parts (c : Scanned A X n) (ws : List Window) :
    (ws.map c.part).sum =
      (c.pixels.map fun p => ws.countP (fun w => w.Contains p.1 p.2) • c.samples p).sum := by
  induction ws with
  | nil => simp
  | cons w ws ih =>
      rw [List.map_cons, List.sum_cons, ih]
      have hpart : c.part w =
          (c.pixels.map fun p => if w.Contains p.1 p.2 then c.samples p else 0).sum := by
        rw [part]
        generalize c.pixels = l
        induction l with
        | nil => rfl
        | cons p l ihl =>
            rw [List.filter_cons, List.map_cons, List.sum_cons, ← ihl]
            by_cases h : w.Contains p.1 p.2 <;> simp [h]
      rw [hpart, ← List.sum_map_add]
      refine congrArg List.sum (List.map_congr_left fun p _ => ?_)
      rw [List.countP_cons, add_nsmul]
      by_cases h : w.Contains p.1 p.2 <;> simp [h, add_comm]

/-- However a chunk is cut, its windows have the samples of the chunk. -/
theorem sum_windows (c : Scanned A X n) {workerPixels : Nat} (hpixels : 0 < workerPixels) :
    ((c.chunk.windows workerPixels).map c.part).sum = c.total := by
  rw [total]
  split
  next hsparse => rw [Chunk.windows, if_pos hsparse]; rfl
  next hsparse =>
    rw [sum_parts]
    refine congrArg List.sum (List.map_congr_left fun p hp => ?_)
    obtain ⟨hrow, hcol⟩ := List.mem_product.mp hp
    rw [Chunk.countP_windows hpixels c.chunk (Bool.eq_false_iff.mpr hsparse)
      (List.mem_range.mp hrow) (List.mem_range.mp hcol), one_nsmul]

end Scanned

/-- What the prefetcher delivers for a chunk: it may fail to decode. -/
abbrev Item (A X : Type) (n : Nat) := Except String (Scanned A X n)

namespace Item

def chunk (item : Item A X n) : Except String (Chunk A n) := item.map Scanned.chunk

def total (item : Item A X n) : Fin n → Contents X :=
  match item with
  | .error _ => 0
  | .ok c => c.total

end Item

/-- What the first `k` chunks contribute. -/
def received (items : List (Item A X n)) (k : Nat) : Fin n → Contents X :=
  ((items.take k).map Item.total).sum

theorem received_add (items : List (Item A X n)) (k l : Nat) :
    received items (k + l) = received items k + (((items.drop k).take l).map Item.total).sum := by
  rw [received, List.take_add, List.map_append, List.sum_append, received]

/-! ## What has been emitted -/

/-- A cell that has left the maps, with its final state. -/
abbrev Emitted (A : Type) (n : Nat) := Fin n × CellIndex × A

/-- What has been emitted of one resolution. -/
def emittedOf (i : Fin n) (log : List (Emitted A n)) : List (CellIndex × A) :=
  (log.filter fun e => e.1 = i).map Prod.snd

theorem emittedOf_append (i : Fin n) (log log' : List (Emitted A n)) :
    emittedOf i (log ++ log') = emittedOf i log ++ emittedOf i log' := by
  simp [emittedOf]

theorem emittedOf_self (i : Fin n) (log : List (Emitted A n)) (cell : CellIndex × A) :
    emittedOf i (log ++ [(i, cell)]) = emittedOf i log ++ [cell] := by
  simp [emittedOf]

theorem emittedOf_ne {i j : Fin n} (h : j ≠ i) (log : List (Emitted A n)) (cell : CellIndex × A) :
    emittedOf j (log ++ [(i, cell)]) = emittedOf j log := by
  simp [emittedOf, Ne.symm h]

theorem mem_emittedOf {i : Fin n} {log : List (Emitted A n)} {cell : CellIndex × A} :
    cell ∈ emittedOf i log ↔ (i, cell) ∈ log := by
  simp [emittedOf]

variable [SpillAccumulator A] [LinearOrder L]

/-- The reader that emits resolution `i`, if it is open. -/
def MultiHorizonStreamer.readerAt (s : MultiHorizonStreamer A L C n) (i : Fin n) :
    Option (FinalCells A) :=
  (s.finalReader.filter fun r => r.1 = i).map Prod.snd

omit [SpillAccumulator A] in
theorem readerAt_of_some {s : MultiHorizonStreamer A L C n} {i : Fin n} {reader : FinalCells A}
    (h : s.finalReader = some (i, reader)) (j : Fin n) :
    s.readerAt j = if j = i then some reader else none := by
  rw [MultiHorizonStreamer.readerAt, h]
  by_cases hj : j = i
  · simp [hj]
  · simp [hj, Ne.symm hj]

omit [SpillAccumulator A] in
theorem readerAt_of_map {s : MultiHorizonStreamer A L C n} {i : Fin n}
    {reader : Option (RunReader A)}
    (h : s.finalReader = reader.map fun r => (i, .disk r)) (j : Fin n) :
    s.readerAt j = if j = i then reader.map .disk else none := by
  cases reader with
  | none =>
      rw [MultiHorizonStreamer.readerAt, h]
      exact (ite_self _).symm
  | some r => exact readerAt_of_some h j

omit [SpillAccumulator A] in
theorem readerAt_of_none {s : MultiHorizonStreamer A L C n} (h : s.finalReader = none)
    (j : Fin n) : s.readerAt j = none := by
  rw [MultiHorizonStreamer.readerAt, h]
  rfl

variable [LawfulSpill A]

/-- The contributions `m` to each resolution are where they should be. Of a
resolution whose reader has been opened the rest is in the reader. -/
structure Accounted (R : Multiset X → A → Prop) (h3 : H3 L) (s : MultiHorizonStreamer A L C n)
    (log : List (Emitted A n)) (m : Fin n → Contents X) : Prop where
  tracks : ∀ i, (s.resolutionShards i).Tracks h3
  parts : ∀ i, ∃ p : Split X, p.total = m i ∧
    Holding R (s.resolutionShards i) (s.spillRuns i) (s.readerAt i) (emittedOf i log) p ∧
    (i.val < s.finalResolution → p.live = 0 ∧ p.spilled = 0)

/-! ## Merging -/

/-- Nothing but the live maps, the runs and the count of failures has changed. -/
def Merged (s t : MultiHorizonStreamer A L C n) : Prop :=
  ∃ shards runs failures, t = { s with
    resolutionShards := shards, spillRuns := runs, transformFailures := failures }

namespace Merged

variable {s t u : MultiHorizonStreamer A L C n}

omit [SpillAccumulator A] [LawfulSpill A] in
theorem refl (s : MultiHorizonStreamer A L C n) : Merged s s := ⟨_, _, _, rfl⟩

omit [SpillAccumulator A] [LawfulSpill A] in
theorem trans (h : Merged s t) (h' : Merged t u) : Merged s u := by
  obtain ⟨shards, runs, failures, rfl⟩ := h
  obtain ⟨shards', runs', failures', rfl⟩ := h'
  exact ⟨shards', runs', failures', rfl⟩

end Merged

namespace MultiHorizonStreamer

omit [SpillAccumulator A] [LawfulSpill A] in
theorem get_takeSorted (m : ShardedResolutionMap A L) (k : CellIndex) :
    m.takeSorted.2.get k = none := by
  rw [ShardedResolutionMap.get, ShardedResolutionMap.takeSorted]
  exact AList.lookup_empty _

omit [LawfulSpill A] in
/-- Spilling a resolution takes everything live and pushes it as a run. -/
theorem spillResolution_cases {h3 : H3 L} {i : Fin n} {s t : MultiHorizonStreamer A L C n}
    (h : s.spillResolution i = .ok t) : ∃ q runs,
      t = { s with
        resolutionShards := Function.update s.resolutionShards i q
        spillRuns := Function.update s.spillRuns i runs } ∧
      (∀ k, q.get k = none) ∧ q.Tracks h3 ∧
      (s.spillRuns i).pushSorted (s.resolutionShards i).takeSorted.1 = .ok runs ∧
      (q.trackEviction = (s.resolutionShards i).trackEviction ∨
        (s.resolutionShards i).takeSorted.1 ≠ []) := by
  unfold spillResolution at h
  have hempty := get_takeSorted (s.resolutionShards i)
  have htracks : (s.resolutionShards i).takeSorted.2.Tracks h3 := .takeSorted _
  simp only at h
  split at h
  next hnil =>
    cases h
    have hnil : (s.resolutionShards i).takeSorted.1 = [] := List.isEmpty_iff.mp hnil
    refine ⟨_, s.spillRuns i, ?_, hempty, htracks, ?_, .inl rfl⟩
    · rw [Function.update_eq_self]
    · rw [hnil]
      rfl
  next hne =>
    split at h
    next => cases h
    next runs hpush =>
      cases h
      exact ⟨_, runs, rfl, hempty,
        htracks.setEvictionEnabled fun h => absurd h Bool.false_ne_true, hpush,
        .inr fun hnil => hne (by rw [hnil]; rfl)⟩

end MultiHorizonStreamer

variable {R : Multiset X → A → Prop} {h3 : H3 L} {s t : MultiHorizonStreamer A L C n}
  {log : List (Emitted A n)} {m : Fin n → Contents X}

/-- What is spilled stays accounted for, and nothing of it stays live. -/
theorem Accounted.spillResolution (hR : Represents R) (h : Accounted R h3 s log m) {i : Fin n}
    (hspill : s.spillResolution i = .ok t) : Merged s t ∧ Accounted R h3 t log m ∧
      ∃ p : Split X, p.total = m i ∧ p.live = 0 ∧
        Holding R (t.resolutionShards i) (t.spillRuns i) (t.readerAt i) (emittedOf i log) p := by
  obtain ⟨q, runs, rfl, hempty, htracks, hpush, -⟩ :=
    @MultiHorizonStreamer.spillResolution_cases _ _ _ _ _ _ h3 _ _ _ hspill
  obtain ⟨p, htotal, hp, hphase⟩ := h.parts i
  obtain ⟨hp', -⟩ := hp.spill hR hempty hpush
  have htotal' : Split.total { p with live := 0, spilled := p.spilled + p.live } = m i := by
    rw [← htotal, Split.total, Split.total, zero_add, add_comm p.live]
  refine ⟨⟨_, _, _, rfl⟩, ⟨fun j => ?_, fun j => ?_⟩, _, htotal', rfl, ?_⟩
  · exact MultiHorizonStreamer.forall_update (p := fun _ m => m.Tracks h3) htracks
      (fun j _ => h.tracks j) j
  · by_cases hj : j = i
    · subst hj
      refine ⟨_, htotal', ?_, fun hlt => ?_⟩
      · simp only [Function.update_self]
        exact hp'
      · obtain ⟨hl, hs⟩ := hphase hlt
        exact ⟨rfl, by simp [hl, hs]⟩
    · simp only [Function.update_of_ne hj]
      exact h.parts j
  · simp only [Function.update_self]
    exact hp'

/-- A worker's state of one cell is merged. -/
theorem Accounted.mergeCell (hR : Represents R) (cfg : Setup A L C n)
    (h : Accounted R cfg.h3 s log m) {i : Fin n} {key : CellIndex} {acc : A} {S : Multiset X}
    (hacc : R S acc) (hout : key ∉ keys (emittedOf i log)) (hphase : s.finalResolution = 0)
    (hmerge : s.mergeCell cfg i key acc (cfg.h3.southLat key) = .ok t) :
    Merged s t ∧ Accounted R cfg.h3 t log (m + Pi.single i (Pi.single key S)) := by
  unfold MultiHorizonStreamer.mergeCell at hmerge
  split at hmerge
  next => cases hmerge
  next =>
    have hget := (s.resolutionShards i).get_mergeOwnedWith key acc (cfg.h3.southLat key)
    have htracks := (h.tracks i).mergeOwnedWith key acc
    generalize (s.resolutionShards i).mergeOwnedWith key acc (cfg.h3.southLat key) = q
      at hmerge hget htracks
    have hadd : Accounted R cfg.h3
        { s with resolutionShards := Function.update s.resolutionShards i q.2 } log
        (m + Pi.single i (Pi.single key S)) := by
      refine ⟨MultiHorizonStreamer.forall_update (p := fun _ m => m.Tracks cfg.h3) htracks
        (fun j _ => h.tracks j), fun j => ?_⟩
      obtain ⟨p, htotal, hp, -⟩ := h.parts j
      have hnever : ¬ j.val < s.finalResolution := by omega
      by_cases hj : j = i
      · subst hj
        refine ⟨{ p with live := p.live + Pi.single key S }, ?_, ?_, fun hlt => absurd hlt hnever⟩
        · rw [Pi.add_apply, Pi.single_eq_same, ← htotal]
          simp only [Split.total]
          abel
        · simp only [Function.update_self]
          exact hp.merge hR hacc hout hget
      · refine ⟨p, ?_, ?_, fun hlt => absurd hlt hnever⟩
        · rw [Pi.add_apply, Pi.single_eq_of_ne hj, add_zero, htotal]
        · simp only [Function.update_of_ne hj]
          exact hp
    simp only at hmerge
    split at hmerge
    next => cases hmerge
    next =>
      split at hmerge
      next =>
        obtain ⟨hmerged, hacc', -⟩ := hadd.spillResolution hR hmerge
        exact ⟨.trans ⟨_, _, _, rfl⟩ hmerged, hacc'⟩
      next =>
        cases hmerge
        exact ⟨⟨_, _, _, rfl⟩, hadd⟩

omit [LinearOrder L] in
theorem southKey_eq {precomputed : List (CellIndex × L)}
    (hkeys : ∀ p ∈ precomputed, p.2 = h3.southLat p.1) (key : CellIndex) :
    (MultiHorizonStreamer.southKey h3 precomputed key).1 = h3.southLat key ∧
      ∀ p ∈ (MultiHorizonStreamer.southKey h3 precomputed key).2, p.2 = h3.southLat p.1 := by
  unfold MultiHorizonStreamer.southKey
  cases precomputed with
  | nil => exact ⟨rfl, hkeys⟩
  | cons p rest =>
      simp only
      split
      next heq => exact ⟨heq ▸ hkeys p List.mem_cons_self,
        fun q hq => hkeys q (List.mem_cons_of_mem _ hq)⟩
      next => exact ⟨rfl, hkeys⟩

/-- The cells that a contribution reaches have not been emitted. -/
def Fresh (log : List (Emitted A n)) (m : Fin n → Contents X) : Prop :=
  ∀ i key, m i key ≠ 0 → key ∉ keys (emittedOf i log)

omit [SpillAccumulator A] [LawfulSpill A] in
theorem Fresh.add {m m' : Fin n → Contents X} (h : Fresh log (m + m')) :
    Fresh log m ∧ Fresh log m' := by
  refine ⟨fun i key hm => h i key fun hz => hm ?_, fun i key hm => h i key fun hz => hm ?_⟩
  · exact (add_eq_zero.mp hz).1
  · exact (add_eq_zero.mp hz).2

/-- A worker's map of one resolution is merged, cell by cell. -/
theorem Accounted.mergeMap (hR : Represents R) (cfg : Setup A L C n) {i : Fin n}
    {cells : List (CellIndex × A)} : ∀ {s : MultiHorizonStreamer A L C n} {m : Fin n → Contents X}
      {mc : Contents X} {precomputed : List (CellIndex × L)}, Accounted R cfg.h3 s log m →
      (keys cells).Nodup → Keyed.Holds R cells mc → Fresh log (Pi.single i mc) →
      (∀ p ∈ precomputed, p.2 = cfg.h3.southLat p.1) → s.finalResolution = 0 →
      s.mergeMap cfg i cells precomputed = .ok t →
      Merged s t ∧ Accounted R cfg.h3 t log (m + Pi.single i mc) := by
  induction cells with
  | nil =>
      intro s m mc precomputed h _ hholds _ _ _ hmerge
      cases hmerge
      obtain rfl : mc = 0 := funext fun k => hholds.absent k (by simp)
      rw [Pi.single_zero, add_zero]
      exact ⟨.refl _, h⟩
  | cons cell cells ih =>
      intro s m mc precomputed h hnodup hholds hfresh hkeys hphase hmerge
      obtain ⟨key, acc⟩ := cell
      rw [keys_cons, List.nodup_cons] at hnodup
      have hacc : R (mc key) acc := hholds.present key acc List.mem_cons_self
      obtain ⟨hsouth, hkeys'⟩ := southKey_eq hkeys key
      rw [MultiHorizonStreamer.mergeMap, hsouth] at hmerge
      obtain ⟨u, hcell, hrest⟩ := Bytes.bind_eq_ok hmerge
      have hout : key ∉ keys (emittedOf i log) := hfresh i key (by
        rw [Pi.single_eq_same]
        exact hR.ne_zero hacc)
      obtain ⟨hmerged, hu⟩ := h.mergeCell hR cfg hacc hout hphase hcell
      -- What is left of the map holds what is left of the samples.
      have hleft : Keyed.Holds R cells (Function.update mc key 0) := by
        refine ⟨fun k b hk => ?_, fun k hk => ?_⟩
        · have hne : k ≠ key := fun heq => hnodup.1 (heq ▸ mem_keys_of_mem hk)
          rw [Function.update_of_ne hne]
          exact hholds.present k b (List.mem_cons_of_mem _ hk)
        · by_cases heq : k = key
          · rw [heq, Function.update_self]
          · rw [Function.update_of_ne heq]
            exact hholds.absent k (by simp [heq, hk])
      have hsplit : Pi.single key (mc key) + Function.update mc key 0 = mc := by
        funext k
        by_cases heq : k = key
        · subst heq
          simp
        · simp [heq]
      have hadd : Pi.single i (Pi.single key (mc key)) + Pi.single i (Function.update mc key 0) =
          (Pi.single i mc : Fin n → Contents X) := by
        rw [← Pi.single_add, hsplit]
      rw [← hadd] at hfresh
      obtain ⟨hmerged', ht⟩ := ih hu hnodup.2 hleft hfresh.add.2 hkeys'
        (by obtain ⟨_, _, _, rfl⟩ := hmerged; exact hphase) hrest
      rw [add_assoc, hadd] at ht
      exact ⟨hmerged.trans hmerged', ht⟩

/-- The maps of a window hold these contributions. -/
def MapsHold (R : Multiset X → A → Prop) (maps : Fin n → List (CellIndex × A))
    (m : Fin n → Contents X) : Prop :=
  ∀ i, (keys (maps i)).Nodup ∧ Keyed.Holds R (maps i) (m i)

theorem Accounted.mergeWindow (hR : Represents R) (cfg : Setup A L C n)
    (h : Accounted R cfg.h3 s log m) {maps : Fin n → List (CellIndex × A)}
    {southKeys : Fin n → List (CellIndex × L)} {mw : Fin n → Contents X}
    (hmaps : MapsHold R maps mw) (hfresh : Fresh log mw)
    (hkeys : ∀ i, ∀ p ∈ southKeys i, p.2 = cfg.h3.southLat p.1) (hphase : s.finalResolution = 0)
    (hmerge : s.mergeWindow cfg maps southKeys = .ok t) :
    Merged s t ∧ Accounted R cfg.h3 t log (m + mw) := by
  have hsum : ∀ (indices : List (Fin n)), indices.Nodup →
      ∀ (s : MultiHorizonStreamer A L C n) (m : Fin n → Contents X),
      Accounted R cfg.h3 s log m → s.finalResolution = 0 →
      indices.foldlM (fun s i => s.mergeMap cfg i (maps i) (southKeys i)) s = .ok t →
      Merged s t ∧
        Accounted R cfg.h3 t log (m + (indices.map fun i => Pi.single i (mw i)).sum) := by
    intro indices
    induction indices with
    | nil =>
        intro _ s m h _ hfold
        cases hfold
        rw [List.map_nil, List.sum_nil, add_zero]
        exact ⟨.refl _, h⟩
    | cons i indices ih =>
        intro hnodup s m h hphase hfold
        rw [List.foldlM_cons] at hfold
        obtain ⟨u, hmap, hrest⟩ := Bytes.bind_eq_ok hfold
        have hone : Fresh log (Pi.single i (mw i) : Fin n → Contents X) := by
          intro j key hne
          by_cases hj : j = i
          · subst hj
            rw [Pi.single_eq_same] at hne
            exact hfresh j key hne
          · rw [Pi.single_eq_of_ne hj] at hne
            exact absurd rfl hne
        obtain ⟨hmerged, hu⟩ := h.mergeMap hR cfg (hmaps i).1 (hmaps i).2 hone (hkeys i) hphase hmap
        obtain ⟨hmerged', ht⟩ := ih (List.nodup_cons.mp hnodup).2 u _ hu
          (by obtain ⟨_, _, _, rfl⟩ := hmerged; exact hphase) hrest
        rw [List.map_cons, List.sum_cons, ← add_assoc]
        exact ⟨hmerged.trans hmerged', ht⟩
  have hall : ((List.finRange n).map fun i => Pi.single i (mw i)).sum = mw := by
    rw [← List.ofFn_eq_map, List.sum_ofFn]
    exact Finset.univ_sum_single mw
  rw [← hall]
  exact hsum _ (List.nodup_finRange n) s m h hphase hmerge

/-! ## Waves and batches -/

/-- The windows of a wave, one after the other. -/
theorem Accounted.mergeWindows (hR : Represents R) (cfg : Setup A L C n)
    {southKeys : Job A n → Fin n → List (CellIndex × L)}
    (hkeys : ∀ job i, ∀ p ∈ southKeys job i, p.2 = cfg.h3.southLat p.1) {jobs : List (Job A n)}
    {ms : List (Fin n → Contents X)}
    (hjobs : List.Forall₂ (fun job m => MapsHold R job.maps m) jobs ms) :
    ∀ {s : MultiHorizonStreamer A L C n} {m : Fin n → Contents X}, Accounted R cfg.h3 s log m →
      Fresh log ms.sum → s.finalResolution = 0 →
      jobs.foldlM (fun s job => s.mergeWindow cfg job.maps (southKeys job)) s = .ok t →
      Merged s t ∧ Accounted R cfg.h3 t log (m + ms.sum) := by
  induction hjobs with
  | nil =>
      intro s m h _ _ hfold
      cases hfold
      rw [List.sum_nil, add_zero]
      exact ⟨.refl _, h⟩
  | cons hjob _ ih =>
      intro s m h hfresh hphase hfold
      rw [List.foldlM_cons] at hfold
      obtain ⟨u, hwindow, hrest⟩ := Bytes.bind_eq_ok hfold
      rw [List.sum_cons] at hfresh ⊢
      obtain ⟨hmerged, hu⟩ := h.mergeWindow hR cfg hjob hfresh.add.1 (hkeys _) hphase hwindow
      obtain ⟨hmerged', ht⟩ := ih hu hfresh.add.2
        (by obtain ⟨_, _, _, rfl⟩ := hmerged; exact hphase) hrest
      rw [← add_assoc]
      exact ⟨hmerged.trans hmerged', ht⟩

omit [SpillAccumulator A] [LawfulSpill A] in
theorem workerSouthKeys_eq (cfg : Setup A L C n) (maps : Fin n → List (CellIndex × A))
    (s : MultiHorizonStreamer A L C n) (i : Fin n) :
    ∀ p ∈ s.workerSouthKeys cfg maps i, p.2 = cfg.h3.southLat p.1 := by
  intro p hp
  unfold MultiHorizonStreamer.workerSouthKeys at hp
  simp only at hp
  split at hp
  next =>
    obtain ⟨key, -, rfl⟩ := List.mem_map.mp hp
    rfl
  next => cases hp

theorem Accounted.processWave (hR : Represents R) (cfg : Setup A L C n)
    (h : Accounted R cfg.h3 s log m) {jobs : List (Job A n)} {ms : List (Fin n → Contents X)}
    (hjobs : List.Forall₂ (fun job m => MapsHold R job.maps m) jobs ms) (hfresh : Fresh log ms.sum)
    (hphase : s.finalResolution = 0) (hwave : s.processWave cfg jobs = .ok t) :
    Merged s t ∧ Accounted R cfg.h3 t log (m + ms.sum) := by
  unfold MultiHorizonStreamer.processWave at hwave
  simp only at hwave
  split at hwave
  next => cases hwave
  next =>
    rw [List.foldlM_map] at hwave
    have hcounted : Accounted R cfg.h3
        { s with transformFailures := s.transformFailures + (jobs.map Job.failures).sum } log m :=
      ⟨h.tracks, h.parts⟩
    -- The keys were computed before the wave, of cells and not of states.
    obtain ⟨hmerged, ht⟩ := hcounted.mergeWindows hR cfg
      (fun job => workerSouthKeys_eq cfg job.maps s) hjobs hfresh hphase hwave
    exact ⟨.trans ⟨_, _, _, rfl⟩ hmerged, ht⟩

theorem mapM_id_eq_ok {E α : Type} {l : List (Except E α)} {xs : List α}
    (h : l.mapM id = .ok xs) : l = xs.map .ok := by
  induction l generalizing xs with
  | nil =>
      cases h
      rfl
  | cons e l ih =>
      rw [List.mapM_cons] at h
      obtain ⟨x, hx, h⟩ := Bytes.bind_eq_ok h
      obtain ⟨rest, hrest, h⟩ := Bytes.bind_eq_ok h
      cases h
      rw [List.map_cons, ← ih hrest, ← show e = .ok x from hx]

/-- A job that was handed over holds its contributions; there is none otherwise. -/
def Delivers (R : Multiset X → A → Prop) (job : Except StreamError (Job A n))
    (m : Fin n → Contents X) : Prop :=
  ∀ j, job = .ok j → MapsHold R j.maps m

theorem Accounted.processWaves (hR : Represents R) (cfg : Setup A L C n)
    (htasks : 0 < cfg.workerTasks) (rounds : Nat) :
    ∀ {jobs : List (Except StreamError (Job A n))} {ms : List (Fin n → Contents X)}
      {s : MultiHorizonStreamer A L C n} {m : Fin n → Contents X},
      Accounted R cfg.h3 s log m → List.Forall₂ (Delivers R) jobs ms → Fresh log ms.sum →
      s.finalResolution = 0 → jobs.length ≤ rounds → s.processWaves cfg rounds jobs = .ok t →
      Merged s t ∧ Accounted R cfg.h3 t log (m + ms.sum) := by
  induction rounds with
  | zero =>
      intro jobs ms s m h hjobs _ _ hlen hwaves
      obtain rfl : jobs = [] := List.length_eq_zero_iff.mp (Nat.le_zero.mp hlen)
      cases hjobs
      cases hwaves
      rw [List.sum_nil, add_zero]
      exact ⟨.refl _, h⟩
  | succ rounds ih =>
      intro jobs ms s m h hjobs hfresh hphase hlen hwaves
      cases jobs with
      | nil =>
          cases hjobs
          cases hwaves
          rw [List.sum_nil, add_zero]
          exact ⟨.refl _, h⟩
      | cons job jobs =>
          obtain ⟨wave, htake, hrest⟩ := Bytes.bind_eq_ok (show ((job :: jobs).take
            cfg.workerTasks).mapM id >>= (fun wave => s.processWave cfg wave >>= fun s =>
              s.processWaves cfg rounds ((job :: jobs).drop cfg.workerTasks)) = .ok t from hwaves)
          obtain ⟨u, hwave, hrest⟩ := Bytes.bind_eq_ok hrest
          have hwaveJobs : List.Forall₂ (fun job m => MapsHold R job.maps m) wave
              (ms.take cfg.workerTasks) := by
            have htaken := List.forall₂_take cfg.workerTasks hjobs
            rw [mapM_id_eq_ok htake, List.forall₂_map_left_iff] at htaken
            exact htaken.imp fun _ _ hd => hd _ rfl
          have hsum : ms.sum = (ms.take cfg.workerTasks).sum + (ms.drop cfg.workerTasks).sum := by
            rw [← List.sum_append, List.take_append_drop]
          rw [hsum] at hfresh ⊢
          obtain ⟨hmerged, hu⟩ := h.processWave hR cfg hwaveJobs hfresh.add.1 hphase hwave
          obtain ⟨hmerged', ht⟩ := ih hu (List.forall₂_drop cfg.workerTasks hjobs) hfresh.add.2
            (by obtain ⟨_, _, _, rfl⟩ := hmerged; exact hphase)
            (by
              rw [List.length_drop]
              rw [List.length_cons] at hlen ⊢
              omega) hrest
          rw [← add_assoc]
          exact ⟨hmerged.trans hmerged', ht⟩

/-- A batch adds the samples of its chunks. -/
theorem Accounted.processBatch (hR : Represents R) (cfg : Setup A L C n)
    (htasks : 0 < cfg.workerTasks) (hpixels : 0 < cfg.workerPixels) (h : Accounted R cfg.h3 s log m)
    {items : List (Item A X n)} (haggregates : ∀ c, .ok c ∈ items → c.Aggregates R cfg.workerPixels)
    (hfresh : Fresh log (items.map Item.total).sum) (hphase : s.finalResolution = 0)
    (hbatch : s.processBatch cfg (items.map Item.chunk) = .ok t) :
    Merged s t ∧ Accounted R cfg.h3 t log (m + (items.map Item.total).sum) := by
  -- Windows instead of chunks.
  have hjobs : ∀ (items : List (Item A X n)),
      (∀ c, .ok c ∈ items → c.Aggregates R cfg.workerPixels) →
      ∃ ms : List (Fin n → Contents X), ms.sum = (items.map Item.total).sum ∧
        List.Forall₂ (Delivers R)
          ((items.map Item.chunk).flatMap (MultiHorizonStreamer.itemJobs cfg)) ms := by
    intro items haggregates
    induction items with
    | nil => exact ⟨[], rfl, .nil⟩
    | cons item items ih =>
        obtain ⟨ms, hsum, hms⟩ := ih fun c hc => haggregates c (List.mem_cons_of_mem _ hc)
        cases item with
        | error e =>
            refine ⟨0 :: ms, ?_, .cons (fun j hj => ?_) hms⟩
            · rw [List.sum_cons, List.map_cons, List.sum_cons, hsum]
              rfl
            · cases hj
        | ok c =>
            refine ⟨(c.chunk.windows cfg.workerPixels).map c.part ++ ms, ?_, ?_⟩
            · rw [List.sum_append, c.sum_windows hpixels, List.map_cons, List.sum_cons, hsum]
              rfl
            · have hc := haggregates c List.mem_cons_self
              refine List.rel_append ?_ hms
              show List.Forall₂ (Delivers R) (((c.chunk.windows cfg.workerPixels).map fun w =>
                (⟨c.chunk.process w, c.chunk.failures w⟩ : Job A n)).map .ok) _
              rw [List.map_map, List.forall₂_map_left_iff, List.forall₂_map_right_iff]
              refine List.forall₂_same.mpr fun w hw j hj i => ?_
              cases hj
              exact hc w hw i
  obtain ⟨ms, hsum, hms⟩ := hjobs items haggregates
  rw [← hsum] at hfresh ⊢
  exact h.processWaves hR cfg htasks _ hms hfresh hphase le_rfl hbatch

end RasterH3.Agg
