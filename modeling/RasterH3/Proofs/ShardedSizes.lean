import RasterH3.Agg.Categorical
import RasterH3.Agg.ShardedSizes
import RasterH3.Proofs.ShardedMap

/-!
# The live map stays consistent

The map of the cells in progress is sharded. Each shard has a table of states, a heap of the
southern bounds of its cells, and a figure of the bytes it takes; heaps are lazy, with
entries of cells that are gone, and tracked only while eviction is on, which can be switched
at any time. Two things are followed through every operation.

The figure of the bytes is what a recount of tables, heaps and states would give. An
operation changes one shard, takes its old figure off the total and adds the new one, so
that it is enough to look at one shard and at a sum that was updated in one place
(`sum_update`).

And the heaps know the cells that were inserted while keys were tracked, since the tracking
was last switched off; of an active cell outside this set there is no entry (`Knows`).
Switching the tracking on again adds no entries, so a cell that was inserted before does not
get one, and is not evicted before the end. The set is a part of the run (`Reached`), and
every operation says what becomes of it.

Popping goes over all shards in rounds, and drops stale entries on the way. What repeated
popping gives is each known cell north of the horizon once, in some order, and what it
leaves is the rest (`Drained`). The induction is on the number of the known cells, each pop
removes one; `live_map_consistent` has all three for any reached state.
-/

namespace RasterH3.Agg

open AccumulatorMerge SpillAccumulator Keyed

/-! ## Counting -/

theorem sum_update (f : Shard → Nat) (s : Shard) (b : Nat) :
    ∑ t, Function.update f s b t = ∑ t, f t - f s + b := by
  rw [Finset.sum_update_of_mem (Finset.mem_univ s),
    Finset.sum_eq_add_sum_sdiff_singleton_of_mem (Finset.mem_univ s) f, Nat.add_sub_cancel_left,
    Nat.add_comm]

namespace ShardedResolutionMap

variable {A L : Type} [LinearOrder L] [SpillAccumulator A]

/-- What the states of a table own. -/
def ownedBy (entries : List (Sigma fun _ : CellIndex => A)) : Nat :=
  (entries.map fun e => heapBytes e.2).sum

theorem ownedBy_cons (key : CellIndex) (acc : A)
    (entries : List (Sigma fun _ : CellIndex => A)) :
    ownedBy (⟨key, acc⟩ :: entries) = heapBytes acc + ownedBy entries := rfl

theorem ownedBy_of_lookup {entries : List (Sigma fun _ : CellIndex => A)} {key : CellIndex}
    {acc : A} (h : entries.dlookup key = some acc) :
    ownedBy entries = heapBytes acc + ownedBy (entries.kerase key) := by
  induction entries with
  | nil => cases h
  | cons e entries ih =>
    obtain ⟨k, a⟩ := e
    by_cases hk : key = k
    · subst hk
      rw [List.dlookup_cons_eq] at h
      cases h
      have hrest : List.kerase key (⟨key, acc⟩ :: entries) = entries := List.kerase_cons_eq rfl
      rw [hrest, ownedBy_cons]
    · rw [List.dlookup_cons_ne _ _ hk] at h
      rw [List.kerase_cons_ne hk, ownedBy_cons, ownedBy_cons, ih h]
      omega

/-- The bytes of the states are those of a recount. -/
def Counted (m : ShardedResolutionMap A L) : Prop :=
  m.dynamicBytes = ∑ s, ownedBy (m.shards s).entries

theorem sum_ownedBy_update (shards : Shard → ShardMap A) (s : Shard) (shard : ShardMap A) :
    ∑ t, ownedBy (Function.update shards s shard t).entries =
      ∑ t, ownedBy (shards t).entries - ownedBy (shards s).entries + ownedBy shard.entries := by
  rw [← sum_update]
  refine Finset.sum_congr rfl fun t _ => ?_
  by_cases ht : t = s
  · subst ht
    rw [Function.update_self, Function.update_self]
  · rw [Function.update_of_ne ht, Function.update_of_ne ht]

theorem ownedBy_le_sum (shards : Shard → ShardMap A) (s : Shard) :
    ownedBy (shards s).entries ≤ ∑ t, ownedBy (shards t).entries :=
  Finset.single_le_sum (f := fun t => ownedBy (shards t).entries) (fun _ _ => Nat.zero_le _)
    (Finset.mem_univ s)

theorem Counted.mergeOwnedWith {m : ShardedResolutionMap A L} (h : m.Counted) (key : CellIndex)
    (acc : A) (southLat : L) : (m.mergeOwnedWith key acc southLat).2.Counted := by
  have hle := ownedBy_le_sum m.shards (getShard key)
  have hdynamic : m.dynamicBytes = _ := h
  unfold ShardedResolutionMap.mergeOwnedWith
  simp only
  split
  next existing hlookup =>
    have hown := ownedBy_of_lookup hlookup
    show m.dynamicBytes - heapBytes existing + heapBytes (merge existing acc) = _
    rw [sum_ownedBy_update, AList.entries_insert, ownedBy_cons]
    omega
  next hlookup =>
    have hnew : key ∉ m.shards (getShard key) := AList.lookup_eq_none.mp hlookup
    show m.dynamicBytes + heapBytes acc = _
    rw [sum_ownedBy_update, AList.entries_insert_of_notMem hnew, ownedBy_cons]
    omega

theorem Counted.popShard {m : ShardedResolutionMap A L} (h : m.Counted) (horizon : L) (s : Shard)
    (rounds : Nat) : (popShard horizon s rounds m).2.Counted := by
  induction rounds generalizing m with
  | zero => exact h
  | succ rounds ih =>
    rw [ShardedResolutionMap.popShard]
    cases (m.eviction s).peek with
    | none => exact h
    | some top =>
      by_cases hsouth : horizon < top.southLat
      · simp only [if_pos hsouth]
        cases hlookup : (m.shards s).lookup top.cell with
        | none => exact ih h
        | some acc =>
          have hle := ownedBy_le_sum m.shards s
          have hown := ownedBy_of_lookup hlookup
          rw [Counted] at h
          show m.dynamicBytes - heapBytes acc = _
          rw [sum_ownedBy_update]
          show _ = _ + ownedBy ((m.shards s).entries.kerase top.cell)
          omega
      · simp only [if_neg hsouth]
        exact h

theorem Counted.takeSorted (m : ShardedResolutionMap A L) : m.takeSorted.2.Counted := by
  simp [Counted, ShardedResolutionMap.takeSorted, ownedBy]

theorem Counted.setEvictionEnabled {m : ShardedResolutionMap A L} (h : m.Counted)
    (enabled : Bool) : (m.setEvictionEnabled enabled).Counted := by
  cases enabled <;> exact h

/-! ## The cells that have entries -/

/-- The heaps know the cells of `T` and no other active cell, and nothing while keys are not
tracked. -/
structure Knows (h3 : H3 L) (T : Set CellIndex) (m : ShardedResolutionMap A L) : Prop where
  entries : m.Entries h3 T
  only : ∀ s, ∀ e ∈ m.eviction s, m.get e.cell ≠ none → e.cell ∈ T
  off : m.trackEviction = false → ∀ s e, e ∉ m.eviction s

omit [SpillAccumulator A] in
theorem Knows.of_empty {h3 : H3 L} {m : ShardedResolutionMap A L} (h : ∀ s e, e ∉ m.eviction s) :
    m.Knows h3 ∅ where
  entries := ⟨fun s e he => absurd he (h s e), fun k hk => absurd hk (Set.notMem_empty k)⟩
  only := fun s e he => absurd he (h s e)
  off := fun _ => h

theorem eviction_mergeOwnedWith (m : ShardedResolutionMap A L) (key : CellIndex) (acc : A)
    (southLat : L) : (m.mergeOwnedWith key acc southLat).2.eviction =
      if m.trackEviction = true ∧ m.get key = none then
        Function.update m.eviction (getShard key)
          ((m.eviction (getShard key)).push (HexEvictionEntry.of southLat key))
      else m.eviction := by
  unfold mergeOwnedWith
  simp only
  split
  next existing hlookup =>
    have hactive : m.get key ≠ none := by
      rw [get, hlookup]
      exact Option.some_ne_none existing
    rw [if_neg fun h => hactive h.2]
  next hlookup =>
    have hnew : m.get key = none := hlookup
    simp only [hnew, and_true]

/-- A new cell is known if keys are tracked. -/
theorem Knows.mergeOwnedWith {h3 : H3 L} {T : Set CellIndex} {m : ShardedResolutionMap A L}
    (h : m.Knows h3 T) (key : CellIndex) (acc : A) :
    (m.mergeOwnedWith key acc (h3.southLat key)).2.Knows h3
      {k | k ∈ T ∨ k = key ∧ m.trackEviction = true ∧ m.get key = none} := by
  have hget := m.get_mergeOwnedWith key acc (h3.southLat key)
  have heviction := m.eviction_mergeOwnedWith key acc (h3.southLat key)
  have htrack := m.trackEviction_mergeOwnedWith key acc (h3.southLat key)
  generalize (m.mergeOwnedWith key acc (h3.southLat key)).2 = m' at hget heviction htrack
  have hactive : ∀ k, m.get k ≠ none → m'.get k ≠ none := by
    intro k hk
    rw [hget k]
    split
    · exact Option.some_ne_none _
    · exact hk
  by_cases hnew : m.trackEviction = true ∧ m.get key = none
  · rw [if_pos hnew] at heviction
    have hmem : ∀ s e, e ∈ m'.eviction s ↔
        e ∈ m.eviction s ∨ s = getShard key ∧ e = HexEvictionEntry.of (h3.southLat key) key := by
      intro s e
      rw [heviction]
      by_cases hs : s = getShard key
      · subst hs
        rw [Function.update_self, MaxHeap.mem_push]
        tauto
      · rw [Function.update_of_ne hs]
        tauto
    refine ⟨⟨fun s e he => ?_, fun k hk => ?_⟩, fun s e he hlive => ?_, fun hoff => ?_⟩
    · rcases (hmem s e).mp he with hold | ⟨rfl, rfl⟩
      · exact h.entries.southLat s e hold
      · exact ⟨rfl, rfl⟩
    · rcases hk with hold | ⟨rfl, -⟩
      · obtain ⟨hlive, hentry⟩ := h.entries.live k hold
        exact ⟨hactive k hlive, (hmem _ _).mpr (Or.inl hentry)⟩
      · refine ⟨?_, (hmem _ _).mpr (Or.inr ⟨rfl, rfl⟩)⟩
        rw [hget k, if_pos rfl]
        exact Option.some_ne_none _
    · rcases (hmem s e).mp he with hold | ⟨rfl, rfl⟩
      · by_cases hkey : e.cell = key
        · exact Or.inr ⟨hkey, hnew⟩
        · rw [hget, if_neg hkey] at hlive
          exact Or.inl (h.only s e hold hlive)
      · exact Or.inr ⟨rfl, hnew⟩
    · rw [htrack, hnew.1] at hoff
      cases hoff
  · rw [if_neg hnew] at heviction
    refine ⟨⟨fun s e he => ?_, fun k hk => ?_⟩, fun s e he hlive => ?_, fun hoff => ?_⟩
    · exact h.entries.southLat s e (heviction ▸ he)
    · obtain ⟨hlive, hentry⟩ := h.entries.live k (hk.resolve_right fun hk => hnew hk.2)
      exact ⟨hactive k hlive, heviction ▸ hentry⟩
    · rw [heviction] at he
      by_cases hkey : e.cell = key
      · by_cases hon : m.trackEviction = true
        · have hold : m.get key ≠ none := fun hnone => hnew ⟨hon, hnone⟩
          exact Or.inl (h.only s e he (hkey ▸ hold))
        · exact absurd he (h.off (Bool.eq_false_iff.mpr hon) s e)
      · rw [hget, if_neg hkey] at hlive
        exact Or.inl (h.only s e he hlive)
    · rw [heviction]
      exact h.off (htrack ▸ hoff)

/-- The cells of `T` without the one that was removed, if any. -/
def without (T : Set CellIndex) : Option (CellIndex × A) → Set CellIndex
  | none => T
  | some record => T \ {record.1}

omit [SpillAccumulator A] in
theorem Knows.takes {h3 : H3 L} {T : Set CellIndex} {horizon : L} {m : ShardedResolutionMap A L}
    {r : Option (CellIndex × A) × ShardedResolutionMap A L} (h : m.Knows h3 T)
    (hr : Takes h3 horizon m r) : r.2.Knows h3 (without T r.1) := by
  cases hr with
  | none hget htrack hshrink hkeys =>
    refine ⟨hkeys T h.entries, fun s e he hlive => ?_, fun hoff s e he => ?_⟩
    · exact h.only s e (hshrink s e he) (hget ▸ hlive)
    · exact h.off (htrack ▸ hoff) s e (hshrink s e he)
  | some hlive hsouth hentry hget htrack hshrink hkeys =>
    refine ⟨hkeys T h.entries, fun s e he hstill => ?_, fun hoff s e he => ?_⟩
    · rw [hget] at hstill
      split at hstill
      next => exact absurd rfl hstill
      next hne => exact ⟨h.only s e (hshrink s e he) hstill, hne⟩
    · exact h.off (htrack ▸ hoff) s e (hshrink s e he)

omit [SpillAccumulator A] in
theorem Knows.setEvictionEnabled {h3 : H3 L} {T : Set CellIndex} {m : ShardedResolutionMap A L}
    (h : m.Knows h3 T) (enabled : Bool) :
    (m.setEvictionEnabled enabled).Knows h3 {k | enabled = true ∧ k ∈ T} := by
  cases enabled with
  | false =>
    have hnone : {k | false = true ∧ k ∈ T} = ∅ := by simp
    rw [hnone]
    exact .of_empty fun s e => MaxHeap.not_mem_empty e
  | true =>
    refine ⟨⟨h.entries.southLat, fun k hk => h.entries.live k hk.2⟩, fun s e he hlive => ?_, nofun⟩
    exact ⟨rfl, h.only s e he hlive⟩

/-! ## Rounds -/

/-- A round, and the rounds after it if it took a stale entry. -/
theorem popShard_succ (horizon : L) (s : Shard) (rounds : Nat) (m : ShardedResolutionMap A L) :
    popShard horizon s (rounds + 1) m =
      if ∃ top ∈ (m.eviction s).peek, horizon < top.southLat then
        match popShard horizon s 1 m with
        | (some record, m') => (some record, m')
        | (none, m') => popShard horizon s rounds m'
      else (none, m) := by
  rw [popShard, popShard]
  cases (m.eviction s).peek with
  | none => simp
  | some top =>
    by_cases hsouth : horizon < top.southLat
    · simp only [if_pos hsouth, Option.mem_some, exists_eq_left']
      cases (m.shards s).lookup top.cell with
      | none => rfl
      | some acc => rfl
    · simp only [if_neg hsouth, Option.mem_some, exists_eq_left']

end ShardedResolutionMap

namespace SizedMap

open ShardedResolutionMap (ownedBy)

variable {A L : Type} [LinearOrder L] [SpillAccumulator A]

/-- The bytes of all states, tables and heaps. -/
def recount (m : SizedMap A L) : Nat :=
  ∑ s, ownedBy (m.map.shards s).entries + ∑ s, m.shardBytes s

structure Counted (m : SizedMap A L) : Prop where
  states : m.map.Counted
  structureBytes : m.structureBytes = ∑ s, m.shardBytes s

theorem Counted.estimatedBytes {m : SizedMap A L} (h : m.Counted) :
    m.estimatedBytes = m.recount := by
  rw [SizedMap.estimatedBytes, recount, h.structureBytes, h.states]

theorem Counted.resize {m : SizedMap A L} (h : m.Counted) (s : Shard)
    {map : ShardedResolutionMap A L} (hmap : map.Counted) (capacity : Nat × Nat) :
    (m.resize s map capacity).Counted where
  states := hmap
  structureBytes := by
    show m.structureBytes - m.shardBytes s + bytesOf A capacity =
      ∑ t, bytesOf A (Function.update m.capacity s capacity t)
    rw [h.structureBytes, ← sum_update]
    refine Finset.sum_congr rfl fun t _ => ?_
    by_cases ht : t = s
    · subst ht
      rw [Function.update_self, Function.update_self]
    · rw [Function.update_of_ne ht, Function.update_of_ne ht]
      rfl

theorem bytesOf_zero : bytesOf A (0, 0) = 0 := by
  rw [bytesOf, tableBytesOf, if_pos rfl, Nat.zero_mul]

theorem counted_empty {map : ShardedResolutionMap A L} (hmap : map.Counted) :
    Counted ⟨map, fun _ => (0, 0), 0⟩ where
  states := hmap
  structureBytes := by simp [shardBytes, bytesOf_zero]

theorem shardBytes_recount (m : SizedMap A L) (s : Shard) :
    m.recountStructure.shardBytes s = m.shardBytes s := by
  simp only [shardBytes, recountStructure]

theorem counted_recount {m : SizedMap A L} (h : m.map.Counted) : m.recountStructure.Counted := by
  have hmap : m.recountStructure.map = m.map := by simp only [recountStructure]
  constructor
  · rw [hmap]
    exact h
  · simp only [shardBytes_recount]
    unfold recountStructure
    exact Eq.refl _

theorem Counted.setEvictionEnabled {m : SizedMap A L} (h : m.Counted) (enabled : Bool) :
    (m.setEvictionEnabled enabled).Counted := by
  have hstates := h.states.setEvictionEnabled enabled
  cases enabled with
  | false =>
    rw [SizedMap.setEvictionEnabled, if_neg Bool.false_ne_true]
    exact counted_recount hstates
  | true => exact ⟨hstates, h.structureBytes⟩

theorem popShard_spec (horizon : L) (s : Shard) (rounds : Nat) (capacities : Nat → Nat × Nat)
    {m : SizedMap A L} (h : m.Counted) :
    let r := popShard horizon s rounds capacities m
    (r.1, r.2.map) = m.map.popShard horizon s rounds ∧ r.2.Counted := by
  induction rounds generalizing capacities m with
  | zero => exact ⟨rfl, h⟩
  | succ rounds ih =>
    rw [ShardedResolutionMap.popShard_succ, popShard]
    split
    next =>
      have hround := h.states.popShard horizon s 1
      rcases hpair : m.map.popShard horizon s 1 with ⟨removed, map⟩
      rw [hpair] at hround
      cases removed with
      | some record => exact ⟨rfl, h.resize s hround _⟩
      | none => exact ih _ (h.resize s hround _)
    next => exact ⟨rfl, h⟩

theorem popFrom_spec (horizon : L) (capacities : Shard → Nat → Nat × Nat) (shards : List Shard)
    {m : SizedMap A L} (h : m.Counted) :
    let r := popFrom horizon capacities shards m
    (r.1, r.2.map) = m.map.popFrom horizon shards ∧ r.2.Counted := by
  induction shards generalizing m with
  | nil => exact ⟨rfl, h⟩
  | cons s rest ih =>
    obtain ⟨hmap, hcounted⟩ := popShard_spec horizon s (m.map.eviction s).size (capacities s) h
    rw [popFrom, ShardedResolutionMap.popFrom, ← hmap]
    rcases hpair : popShard horizon s (m.map.eviction s).size (capacities s) m with ⟨removed, m'⟩
    rw [hpair] at hcounted
    cases removed with
    | some record => exact ⟨rfl, hcounted⟩
    | none => exact ih hcounted

theorem popCompleted_spec (horizon : L) (capacities : Shard → Nat → Nat × Nat) {m : SizedMap A L}
    (h : m.Counted) :
    ((m.popCompleted horizon capacities).1, (m.popCompleted horizon capacities).2.map) =
      m.map.popCompleted horizon ∧ (m.popCompleted horizon capacities).2.Counted :=
  popFrom_spec horizon capacities _ h

/-! ## Runs -/

/-- The states that operations lead to, each with its cells that were inserted while keys were
tracked and since the tracking was last switched off. -/
inductive Reached (h3 : H3 L) : SizedMap A L → Set CellIndex → Prop
  | new : Reached h3 new ∅
  | mergeOwned {m T} (key : CellIndex) (acc : A) (capacity : Nat × Nat) : Reached h3 m T →
      Reached h3 (m.mergeOwnedWith key acc (h3.southLat key) capacity).2
        {k | k ∈ T ∨ k = key ∧ m.map.trackEviction = true ∧ m.map.get key = none}
  | popCompleted {m T} (horizon : L) (capacities : Shard → Nat → Nat × Nat) : Reached h3 m T →
      Reached h3 (m.popCompleted horizon capacities).2
        (ShardedResolutionMap.without T (m.popCompleted horizon capacities).1)
  | takeSorted {m T} : Reached h3 m T → Reached h3 m.takeSorted.2 ∅
  | setEvictionEnabled {m T} (enabled : Bool) : Reached h3 m T →
      Reached h3 (m.setEvictionEnabled enabled) {k | enabled = true ∧ k ∈ T}

theorem map_setEvictionEnabled (m : SizedMap A L) (enabled : Bool) :
    (m.setEvictionEnabled enabled).map = m.map.setEvictionEnabled enabled := by
  cases enabled <;> simp [SizedMap.setEvictionEnabled, recountStructure]

theorem Counted.popCompleted_takes {h3 : H3 L} {T : Set CellIndex} {m : SizedMap A L}
    (h : m.Counted) (hknows : m.map.Knows h3 T) (horizon : L)
    (capacities : Shard → Nat → Nat × Nat) :
    ShardedResolutionMap.Takes h3 horizon m.map
      ((m.popCompleted horizon capacities).1, (m.popCompleted horizon capacities).2.map) := by
  rw [(popCompleted_spec horizon capacities h).1]
  exact ShardedResolutionMap.popCompleted_takes (hknows.entries.mono (Set.empty_subset T)) horizon

theorem Reached.consistent {h3 : H3 L} {m : SizedMap A L} {T : Set CellIndex}
    (h : Reached h3 m T) : m.Counted ∧ m.map.Knows h3 T := by
  induction h with
  | new =>
    refine ⟨counted_empty ?_, .of_empty fun s e => MaxHeap.not_mem_empty e⟩
    simp [ShardedResolutionMap.Counted, ShardedResolutionMap.new, ownedBy]
  | mergeOwned key acc capacity _ ih =>
    exact ⟨ih.1.resize _ (ih.1.states.mergeOwnedWith key acc _) capacity,
      ih.2.mergeOwnedWith key acc⟩
  | popCompleted horizon capacities _ ih =>
    exact ⟨(popCompleted_spec horizon capacities ih.1).2,
      ih.2.takes (ih.1.popCompleted_takes ih.2 horizon capacities)⟩
  | takeSorted _ ih =>
    exact ⟨counted_empty (.takeSorted _), .of_empty fun s e => MaxHeap.not_mem_empty e⟩
  | @setEvictionEnabled m T enabled _ ih =>
    refine ⟨ih.1.setEvictionEnabled enabled, ?_⟩
    rw [map_setEvictionEnabled]
    exact ih.2.setEvictionEnabled enabled

/-! ## Popping until there is none -/

/-- What repeated popping gives and leaves. -/
structure Drained (h3 : H3 L) (T : Set CellIndex) (horizon : L) (m : SizedMap A L)
    (popped : List (CellIndex × A)) (m' : SizedMap A L) : Prop where
  once : (keys popped).Nodup
  popped : ∀ k a, (k, a) ∈ popped ↔ m.map.get k = some a ∧ k ∈ T ∧ horizon < h3.southLat k
  gone : ∀ k, k ∈ T → horizon < h3.southLat k → m'.map.get k = none
  rest : ∀ k, ¬(k ∈ T ∧ horizon < h3.southLat k) → m'.map.get k = m.map.get k

/-- Nothing was found: what the heaps know lies south of the horizon. -/
theorem drained_none {h3 : H3 L} {T : Set CellIndex} {horizon : L} {m m' : SizedMap A L}
    (hmap : (none, m'.map) = m.map.popCompleted horizon)
    (htakes : ShardedResolutionMap.Takes h3 horizon m.map (none, m'.map))
    (hknows : m'.map.Knows h3 T) : Drained h3 T horizon m [] m' := by
  have hlow : ∀ k ∈ T, h3.southLat k ≤ horizon := by
    intro k hk
    have hentry := (hknows.entries.live k hk).2
    exact (ShardedResolutionMap.popFrom_none (List.nodup_finRange 32) hmap.symm).1 _
      (List.mem_finRange _) _ hentry
  cases htakes with
  | none hget htrack hshrink hkeys =>
    refine ⟨List.nodup_nil, fun k a => ?_, fun k hk hsouth => ?_, fun k _ => by rw [hget]⟩
    · constructor
      · exact fun h => absurd h List.not_mem_nil
      · exact fun ⟨_, hk, hsouth⟩ => absurd (hlow k hk) (not_le.mpr hsouth)
    · exact absurd (hlow k hk) (not_le.mpr hsouth)

omit [SpillAccumulator A] in
/-- One cell was found, and the others are popped after it. -/
theorem Drained.cons {h3 : H3 L} {T : Set CellIndex} {horizon : L} {m m' m'' : SizedMap A L}
    {key : CellIndex} {acc : A} {popped : List (CellIndex × A)} (hkey : key ∈ T)
    (hlive : m.map.get key = some acc) (hsouth : horizon < h3.southLat key)
    (hget : ∀ k, m'.map.get k = if k = key then none else m.map.get k)
    (h : Drained h3 (T \ {key}) horizon m' popped m'') :
    Drained h3 T horizon m ((key, acc) :: popped) m'' := by
  have hgone : m'.map.get key = none := by rw [hget, if_pos rfl]
  have hother : ∀ k, k ≠ key → m'.map.get k = m.map.get k := fun k hk => by rw [hget, if_neg hk]
  refine ⟨List.nodup_cons.mpr ⟨fun hmem => ?_, h.once⟩, fun k a => ?_, fun k hk hk' => ?_,
    fun k hk => ?_⟩
  · obtain ⟨⟨k, a⟩, hp, rfl⟩ := List.mem_map.mp hmem
    rw [((h.popped _ _).mp hp).1] at hgone
    cases hgone
  · rw [List.mem_cons, h.popped]
    by_cases hk : k = key
    · subst hk
      rw [hgone, hlive]
      simp [hkey, hsouth, eq_comm]
    · rw [hother k hk]
      simp [hk]
  · by_cases hne : k = key
    · rw [h.rest k fun hin => hin.1.2 hne, hne, hgone]
    · exact h.gone k ⟨hk, hne⟩ hk'
  · have hne : k ≠ key := fun heq => hk (heq ▸ ⟨hkey, hsouth⟩)
    rw [h.rest k fun hin => hk ⟨hin.1.1, hin.2⟩, hother k hne]

theorem popAll_drained {h3 : H3 L} {horizon : L} {calls : Nat}
    {capacities : Nat → Shard → Nat → Nat × Nat} {m : SizedMap A L} {T : Set CellIndex}
    (active : List CellIndex) (hcounted : m.Counted) (hknows : m.map.Knows h3 T)
    (hactive : ∀ k, m.map.get k ≠ none → k ∈ active) (hcalls : active.length < calls) :
    ∃ popped m', popAll horizon calls capacities m = some (popped, m') ∧
      Drained h3 T horizon m popped m' := by
  induction calls generalizing m T active capacities with
  | zero => cases hcalls
  | succ calls ih =>
    have htakes := hcounted.popCompleted_takes hknows horizon (capacities 0)
    have hnext := hknows.takes htakes
    obtain ⟨hmap, hcounted'⟩ := popCompleted_spec horizon (capacities 0) hcounted
    rw [popAll]
    rcases hpair : m.popCompleted horizon (capacities 0) with ⟨removed, m'⟩
    rw [hpair] at htakes hnext hcounted' hmap
    cases removed with
    | none => exact ⟨[], m', rfl, drained_none hmap htakes hnext⟩
    | some record =>
      cases htakes with
      | @some key acc _ hlive hsouth hentry hget htrack hshrink hkeys =>
        obtain ⟨e, he, hcell⟩ := hentry
        have hactiveKey : m.map.get key ≠ none := by
          rw [hlive]
          exact Option.some_ne_none acc
        have hkey : key ∈ T := hcell ▸ hknows.only _ e he (hcell ▸ hactiveKey)
        have hmem := hactive key hactiveKey
        have hactive' : ∀ k, m'.map.get k ≠ none → k ∈ active.erase key := by
          intro k hk
          rw [hget] at hk
          split at hk
          next => exact absurd rfl hk
          next hne => exact (List.mem_erase_of_ne hne).mpr (hactive k hk)
        have hcalls' : (active.erase key).length < calls := by
          have hpos := List.length_pos_of_mem hmem
          rw [List.length_erase_of_mem hmem]
          omega
        obtain ⟨popped, m'', hpop, hdrained⟩ := @ih (fun n => capacities (n + 1)) m' _
          (active.erase key) hcounted' hnext hactive' hcalls'
        refine ⟨(key, acc) :: popped, m'', ?_, hdrained.cons hkey hlive hsouth hget⟩
        simp only [hpop, Option.map_some]

/-- The bytes are those of a recount, the heaps know their cells, and popping again and again
gives each of these cells that lies north of the horizon once. -/
theorem live_map_consistent {h3 : H3 L} {m : SizedMap A L} {T : Set CellIndex} (h : Reached h3 m T) :
    m.estimatedBytes = m.recount ∧
      (∀ k ∈ T, m.map.get k ≠ none ∧
        HexEvictionEntry.of (h3.southLat k) k ∈ m.map.eviction (getShard k)) ∧
      ∀ horizon capacities, ∃ popped m',
        popAll horizon (m.map.cells.length + 1) capacities m = some (popped, m') ∧
          Drained h3 T horizon m popped m' := by
  obtain ⟨hcounted, hknows⟩ := h.consistent
  refine ⟨hcounted.estimatedBytes, hknows.entries.live, fun horizon capacities => ?_⟩
  refine popAll_drained (keys m.map.cells) hcounted hknows (fun k hk => ?_) ?_
  · obtain ⟨a, ha⟩ := Option.ne_none_iff_exists'.mp hk
    exact List.mem_map_of_mem (ShardedResolutionMap.mem_cells.mpr ha)
  · rw [keys, List.length_map]
    exact Nat.lt_succ_self _

/-- Every cell at the equator. -/
def equator : H3 Nat where
  isCell := fun _ => true
  resolution := fun _ => 0
  parent := id
  children := fun _ => []
  isPentagon := fun _ => false
  southLat := fun _ => 0

/-- A map with one cell, merged while keys are tracked. -/
def oneCell : SizedMap (CategoricalAccumulator Nat) Nat :=
  (mergeOwnedWith new 7 CategoricalAccumulator.new (equator.southLat 7) (3, 4)).2

theorem reached_oneCell : ∃ T, Reached equator oneCell T := ⟨_, .mergeOwned 7 _ (3, 4) .new⟩

/-- The cell again, after the tracking was switched off and on. -/
def switched : SizedMap (CategoricalAccumulator Nat) Nat :=
  (oneCell.setEvictionEnabled false).setEvictionEnabled true

theorem tracked_without_entry :
    (∃ T, Reached equator switched T) ∧ switched.map.trackEviction = true ∧
      switched.map.get 7 ≠ none ∧ ∀ s e, e ∉ switched.map.eviction s := by
  have hmap : switched.map = (oneCell.map.setEvictionEnabled false).setEvictionEnabled true := by
    rw [switched, map_setEvictionEnabled, map_setEvictionEnabled]
  refine ⟨reached_oneCell.imp' _ fun T h => .setEvictionEnabled true (.setEvictionEnabled false h),
    ?_, ?_, fun s e => ?_⟩
  · rw [hmap]
    rfl
  · rw [hmap, ShardedResolutionMap.get_setEvictionEnabled,
      ShardedResolutionMap.get_setEvictionEnabled]
    show (ShardedResolutionMap.mergeOwnedWith _ 7 _ _).2.get 7 ≠ none
    rw [ShardedResolutionMap.get_mergeOwnedWith, if_pos rfl]
    exact Option.some_ne_none _
  · rw [hmap]
    exact MaxHeap.not_mem_empty e

/-- Both cells lie north of the equator. -/
def northern : H3 Nat := { equator with southLat := fun k => if k = 9 then 2 else 1 }

/-- One cell is inserted while the tracking is off, another one after it was switched on. -/
def toggled : SizedMap (CategoricalAccumulator Nat) Nat :=
  ((((new.setEvictionEnabled false).mergeOwnedWith 5 .new (northern.southLat 5)
    (3, 4)).2.setEvictionEnabled true).mergeOwnedWith 9 .new (northern.southLat 9) (3, 4)).2

theorem reached_toggled : ∃ T, Reached northern toggled T ∧ ∀ k, k ∈ T ↔ k = 9 := by
  refine ⟨_, .mergeOwned 9 CategoricalAccumulator.new (3, 4) (.setEvictionEnabled true
    (.mergeOwned 5 CategoricalAccumulator.new (3, 4) (.setEvictionEnabled false .new))),
    fun k => ⟨?_, ?_⟩⟩
  · rintro (⟨-, ⟨hoff, -⟩ | ⟨-, htracked, -⟩⟩ | ⟨rfl, -⟩)
    · cases hoff
    · cases htracked
    · rfl
  · rintro rfl
    exact .inr ⟨rfl, by decide +kernel, Option.isNone_iff_eq_none.mp (by decide +kernel)⟩

/-- Only the second one is popped; the first one stays. -/
theorem live_map_consistent_toggled :
    toggled.estimatedBytes = toggled.recount ∧
      ∃ popped m', popAll 0 3 (fun _ _ _ => (3, 4)) toggled = some (popped, m') ∧
        keys popped = [9] ∧ m'.map.get 5 = toggled.map.get 5 ∧ toggled.map.get 5 ≠ none := by
  obtain ⟨T, hreached, honly⟩ := reached_toggled
  obtain ⟨hbytes, -, hpop⟩ := live_map_consistent hreached
  have hcells : toggled.map.cells.length = 2 := by decide +kernel
  have hfive : (toggled.map.get 5).isSome = true := by decide +kernel
  have hnine : (toggled.map.get 9).isSome = true := by decide +kernel
  obtain ⟨popped, m', hrun, hdrained⟩ := hpop 0 fun _ _ _ => (3, 4)
  rw [hcells] at hrun
  refine ⟨hbytes, popped, m', hrun, ?_, hdrained.rest 5 fun h => ?_,
    Option.isSome_iff_ne_none.mp hfive⟩
  · refine List.perm_singleton.mp ((List.perm_ext_iff_of_nodup hdrained.once
      (List.nodup_singleton 9)).mpr fun k => ⟨fun hk => ?_, fun hk => ?_⟩)
    · obtain ⟨a, ha⟩ := mem_keys.mp hk
      exact List.mem_singleton.mpr ((honly k).mp ((hdrained.popped k a).mp ha).2.1)
    · obtain rfl := List.mem_singleton.mp hk
      obtain ⟨a, ha⟩ := Option.isSome_iff_exists.mp hnine
      exact mem_keys.mpr ⟨a, (hdrained.popped 9 a).mpr ⟨ha, (honly 9).mpr rfl, by decide⟩⟩
  · exact absurd ((honly 5).mp h.1) (by decide)

end SizedMap

end RasterH3.Agg
