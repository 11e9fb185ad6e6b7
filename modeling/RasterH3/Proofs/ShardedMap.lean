import RasterH3.Agg.ShardedMap

/-!
# What the live map holds

Seen from outside, the map of live cells is the partial function `get`. It is sharded and
has a heap beside each shard, but merging updates the function at one key, `popCompleted`
takes one key out, and `takeSorted` takes all of them out in order. The modules about
streams need no more than that.

What the horizon does rests on the heaps. They are lazy: an entry stays when its cell leaves
in another way, and is dropped when it comes to the top. `Tracks` is their invariant. An
entry carries the southern bound of its cell and sits in the shard of its cell, and while
keys are tracked every active cell has its entry. From it follows that a cell that is popped
lies north of the horizon, and that no tracked cell does when nothing is popped
(`popCompleted_none`).

While eviction is off the heaps are not kept, and the invariant is about a set of cells that
have entries (`Entries`), which may be less than the active ones. `Takes` says what a search
may find and leave behind, for any such set: the heaps only lose entries, and none but that
of the cell they give up. Popping a shard is an induction on its heap, a stale entry being
dropped in each round; going over the shards is one on the shards that are left. `Pops` is
the same while every active cell has its entry.
-/

namespace RasterH3.Agg

open AccumulatorMerge SpillAccumulator Keyed

namespace ShardedResolutionMap

variable {A L : Type} [LinearOrder L]

/-! ## The cells of the map -/

theorem mem_shard_cells {m : ShardedResolutionMap A L} {s : Shard} {k : CellIndex} {a : A} :
    (k, a) ∈ (m.shards s).entries.map (fun e => (e.1, e.2)) ↔ (m.shards s).lookup k = some a := by
  rw [← Option.mem_def, AList.mem_lookup_iff, List.mem_map]
  constructor
  · rintro ⟨⟨k', a'⟩, h, heq⟩
    cases heq
    exact h
  · exact fun h => ⟨⟨k, a⟩, h, rfl⟩

theorem lookup_eq_get {m : ShardedResolutionMap A L} {s : Shard} {k : CellIndex} {a : A}
    (h : (m.shards s).lookup k = some a) : getShard k = s ∧ m.get k = some a := by
  have hmem : k ∈ m.shards s := AList.lookup_isSome.mp (by rw [h]; rfl)
  have hs := m.placed s k hmem
  exact ⟨hs, by rw [get, hs]; exact h⟩

theorem mem_cells {m : ShardedResolutionMap A L} {k : CellIndex} {a : A} :
    (k, a) ∈ m.cells ↔ m.get k = some a := by
  rw [cells, List.mem_flatMap]
  constructor
  · rintro ⟨s, -, h⟩
    exact (lookup_eq_get (mem_shard_cells.mp h)).2
  · exact fun h => ⟨getShard k, List.mem_finRange _, mem_shard_cells.mpr h⟩

theorem nodup_keys_cells (m : ShardedResolutionMap A L) : (keys m.cells).Nodup := by
  have hkeys : keys m.cells = (List.finRange 32).flatMap fun s => (m.shards s).keys := by
    simp [keys, cells, List.map_flatMap, AList.keys, List.keys, Function.comp_def]
  rw [hkeys, List.nodup_flatMap]
  refine ⟨fun s _ => (m.shards s).nodupKeys, ?_⟩
  refine (List.nodup_finRange 32).imp fun {s t} hne k hs ht => hne ?_
  rw [← m.placed s k (AList.mem_keys.mpr hs), ← m.placed t k (AList.mem_keys.mpr ht)]

/-- What is taken out in order is what the map had. -/
theorem takeSorted_cells (m : ShardedResolutionMap A L) :
    Sorted m.takeSorted.1 ∧ ∀ k a, (k, a) ∈ m.takeSorted.1 ↔ m.get k = some a := by
  have hperm : m.takeSorted.1.Perm m.cells := List.perm_insertionSort _ _
  refine ⟨?_, fun k a => (hperm.mem_iff).trans mem_cells⟩
  have hnodup : (keys m.takeSorted.1).Nodup := (hperm.map Prod.fst).nodup_iff.mpr m.nodup_keys_cells
  have hle : m.takeSorted.1.Pairwise fun p q => p.1 ≤ q.1 := by
    have : IsTrans (CellIndex × A) fun p q => p.1 ≤ q.1 := ⟨fun _ _ _ => le_trans⟩
    have : Std.Total (α := CellIndex × A) fun p q => p.1 ≤ q.1 :=
      ⟨fun _ _ => le_total _ _⟩
    exact List.pairwise_insertionSort _ _
  exact List.Pairwise.imp₂ (fun _ _ hle hne => lt_of_le_of_ne hle hne) hle
    (List.pairwise_map.mp hnodup)

@[simp] theorem get_takeSorted (m : ShardedResolutionMap A L) (k : CellIndex) :
    m.takeSorted.2.get k = none := AList.lookup_empty k

@[simp] theorem get_setEvictionEnabled (m : ShardedResolutionMap A L) (enabled : Bool) :
    (m.setEvictionEnabled enabled).get = m.get := by
  cases enabled <;> rfl

@[simp] theorem get_new (structureBytes : Nat → Nat) (k : CellIndex) :
    (new structureBytes : ShardedResolutionMap A L).get k = none := AList.lookup_empty k

theorem get_update (m : ShardedResolutionMap A L) (key : CellIndex) (shard : ShardMap A)
    (hrest : ∀ k, k ≠ key → shard.lookup k = (m.shards (getShard key)).lookup k)
    (k : CellIndex) :
    (Function.update m.shards (getShard key) shard (getShard k)).lookup k =
      if k = key then shard.lookup key else m.get k := by
  by_cases hk : k = key
  · subst hk
    rw [Function.update_self, if_pos rfl]
  · rw [if_neg hk]
    by_cases hs : getShard k = getShard key
    · rw [hs, Function.update_self, hrest k hk, get, hs]
    · rw [Function.update_of_ne hs]
      rfl

/-! ## The heaps -/

structure Tracks (h3 : H3 L) (m : ShardedResolutionMap A L) : Prop where
  southLat : ∀ s, ∀ e ∈ m.eviction s, e.southLat = h3.southLat e.cell ∧ getShard e.cell = s
  live : m.trackEviction = true → ∀ k, m.get k ≠ none →
    HexEvictionEntry.of (h3.southLat k) k ∈ m.eviction (getShard k)

theorem tracks_new (h3 : H3 L) (structureBytes : Nat → Nat) :
    (new structureBytes : ShardedResolutionMap A L).Tracks h3 where
  southLat := fun s e he => absurd he (MaxHeap.not_mem_empty e)
  live := by simp

theorem Tracks.setEvictionEnabled {h3 : H3 L} {m : ShardedResolutionMap A L} (h : m.Tracks h3)
    {enabled : Bool} (hon : enabled = true → ∀ k, m.get k ≠ none → m.trackEviction = true) :
    (m.setEvictionEnabled enabled).Tracks h3 := by
  cases enabled with
  | false => exact ⟨fun s e he => absurd he (MaxHeap.not_mem_empty e), fun h => nomatch h⟩
  | true => exact ⟨h.southLat, fun _ k hk => h.live (hon rfl k hk) k hk⟩

theorem Tracks.takeSorted {h3 : H3 L} (m : ShardedResolutionMap A L) :
    m.takeSorted.2.Tracks h3 where
  southLat := fun s e he => absurd he (MaxHeap.not_mem_empty e)
  live := by simp

/-- The heaps know the cells of `T`, which are active. -/
structure Entries (h3 : H3 L) (T : Set CellIndex) (m : ShardedResolutionMap A L) : Prop where
  southLat : ∀ s, ∀ e ∈ m.eviction s, e.southLat = h3.southLat e.cell ∧ getShard e.cell = s
  live : ∀ k ∈ T, m.get k ≠ none ∧ HexEvictionEntry.of (h3.southLat k) k ∈ m.eviction (getShard k)

theorem Entries.mono {h3 : H3 L} {T T' : Set CellIndex} {m : ShardedResolutionMap A L}
    (h : m.Entries h3 T) (hT : T' ⊆ T) : m.Entries h3 T' :=
  ⟨h.southLat, fun k hk => h.live k (hT hk)⟩

theorem Tracks.entries {h3 : H3 L} {m : ShardedResolutionMap A L} (h : m.Tracks h3) :
    m.Entries h3 {k | m.trackEviction = true ∧ m.get k ≠ none} :=
  ⟨h.southLat, fun k hk => ⟨hk.2, h.live hk.1 k hk.2⟩⟩

/-! ## Popping -/

/-- What a search for a completed cell may find and leave behind. The heaps only lose entries,
and none but that of the cell they give up. -/
inductive Takes (h3 : H3 L) (horizon : L) (m : ShardedResolutionMap A L) :
    Option (CellIndex × A) × ShardedResolutionMap A L → Prop where
  | none {m'} (hget : m'.get = m.get) (htrack : m'.trackEviction = m.trackEviction)
      (hshrink : ∀ s, ∀ e ∈ m'.eviction s, e ∈ m.eviction s)
      (hkeys : ∀ T, m.Entries h3 T → m'.Entries h3 T) : Takes h3 horizon m (none, m')
  | some {key acc m'} (hlive : m.get key = some acc) (hsouth : horizon < h3.southLat key)
      (hentry : ∃ e ∈ m.eviction (getShard key), e.cell = key)
      (hget : ∀ k, m'.get k = if k = key then Option.none else m.get k)
      (htrack : m'.trackEviction = m.trackEviction)
      (hshrink : ∀ s, ∀ e ∈ m'.eviction s, e ∈ m.eviction s)
      (hkeys : ∀ T, m.Entries h3 T → m'.Entries h3 (T \ {key})) :
      Takes h3 horizon m (some (key, acc), m')

/-- The same while every active cell has its entry. -/
inductive Pops (h3 : H3 L) (horizon : L) (m : ShardedResolutionMap A L) :
    Option (CellIndex × A) × ShardedResolutionMap A L → Prop where
  | none {m'} (hget : m'.get = m.get) (htrack : m'.trackEviction = m.trackEviction)
      (hkeys : m'.Tracks h3) : Pops h3 horizon m (none, m')
  | some {key acc m'} (hlive : m.get key = some acc) (hsouth : horizon < h3.southLat key)
      (hget : ∀ k, m'.get k = if k = key then Option.none else m.get k)
      (htrack : m'.trackEviction = m.trackEviction) (hkeys : m'.Tracks h3) :
      Pops h3 horizon m (some (key, acc), m')

theorem Takes.pops {h3 : H3 L} {horizon : L} {m : ShardedResolutionMap A L}
    {r : Option (CellIndex × A) × ShardedResolutionMap A L} (h : m.Tracks h3)
    (hr : Takes h3 horizon m r) : Pops h3 horizon m r := by
  cases hr with
  | none hget htrack hshrink hkeys =>
    obtain ⟨hlat, hlive⟩ := hkeys _ h.entries
    refine .none hget htrack ⟨hlat, fun hon k hk => (hlive k ⟨htrack ▸ hon, ?_⟩).2⟩
    rwa [← hget]
  | some hlive hsouth hentry hget htrack hshrink hkeys =>
    obtain ⟨hlat, hlive'⟩ := hkeys _ h.entries
    refine .some hlive hsouth hget htrack ⟨hlat, fun hon k hk => (hlive' k ?_).2⟩
    rw [hget k] at hk
    split at hk
    next => exact absurd rfl hk
    next hne => exact ⟨⟨htrack ▸ hon, hk⟩, hne⟩

/-- An entry whose cell is gone may be dropped. -/
theorem Entries.dropStale {h3 : H3 L} {T : Set CellIndex} {m : ShardedResolutionMap A L}
    (h : m.Entries h3 T) {s : Shard} {top : HexEvictionEntry L}
    (htop : (m.eviction s).peek = some top) (hstale : (m.shards s).lookup top.cell = none)
    (readings : Nat) :
    Entries h3 T { m with
      eviction := Function.update m.eviction s (m.eviction s).pop
      readings := readings } := by
  refine ⟨fun t e he => ?_, fun k hk => ?_⟩
  · simp only at he
    by_cases ht : t = s
    · subst ht
      rw [Function.update_self] at he
      exact h.southLat _ e (MaxHeap.mem_of_mem_pop he)
    · rw [Function.update_of_ne ht] at he
      exact h.southLat t e he
  · obtain ⟨hactive, hold⟩ := h.live k hk
    refine ⟨hactive, ?_⟩
    by_cases ht : getShard k = s
    · simp only
      rw [ht, Function.update_self]
      refine MaxHeap.mem_pop_of_ne htop (ht ▸ hold) fun heq => hactive ?_
      show (m.shards (getShard k)).lookup k = none
      rw [ht, ← hstale, ← heq]
      rfl
    · simp only
      rwa [Function.update_of_ne ht]

/-- The cell of the top entry leaves, and with it its entry. -/
theorem Entries.remove {h3 : H3 L} {T : Set CellIndex} {m : ShardedResolutionMap A L}
    (h : m.Entries h3 T) {s : Shard} {top : HexEvictionEntry L}
    (htop : (m.eviction s).peek = some top) (dynamicBytes readings : Nat) :
    Entries h3 (T \ {top.cell}) { m with
      shards := Function.update m.shards s ((m.shards s).erase top.cell)
      eviction := Function.update m.eviction s
        (if ((m.shards s).erase top.cell).entries = [] then .empty else (m.eviction s).pop)
      dynamicBytes := dynamicBytes
      readings := readings
      placed := m.placed_erase s top.cell } := by
  refine ⟨fun t e he => ?_, fun k hk => ?_⟩
  · simp only at he
    by_cases ht : t = s
    · subst ht
      rw [Function.update_self] at he
      split at he
      next => exact absurd he (MaxHeap.not_mem_empty e)
      next => exact h.southLat _ e (MaxHeap.mem_of_mem_pop he)
    · rw [Function.update_of_ne ht] at he
      exact h.southLat t e he
  · obtain ⟨hkT, hne⟩ := hk
    replace hne : k ≠ top.cell := hne
    obtain ⟨hactive, hold⟩ := h.live k hkT
    simp only [get] at hactive ⊢
    by_cases ht : getShard k = s
    · rw [ht] at hactive
      rw [ht, Function.update_self, Function.update_self, AList.lookup_erase_ne hne]
      have hin : k ∈ (m.shards s).erase top.cell :=
        AList.mem_erase.mpr ⟨hne, AList.lookup_isSome.mp (Option.isSome_iff_ne_none.mpr hactive)⟩
      have hnonempty : ((m.shards s).erase top.cell).entries ≠ [] := fun hnil => by
        have : k ∈ ((m.shards s).erase top.cell).keys := hin
        rw [AList.keys, hnil] at this
        exact nomatch this
      rw [if_neg hnonempty]
      refine ⟨hactive, ?_⟩
      exact MaxHeap.mem_pop_of_ne htop (ht ▸ hold) fun heq => hne (by rw [← heq]; rfl)
    · rw [Function.update_of_ne ht, Function.update_of_ne ht]
      exact ⟨hactive, hold⟩

theorem Takes.after {h3 : H3 L} {horizon : L} {m m₁ : ShardedResolutionMap A L}
    {r : Option (CellIndex × A) × ShardedResolutionMap A L}
    (h₁ : Takes h3 horizon m (Option.none, m₁)) (h : Takes h3 horizon m₁ r) : Takes h3 horizon m r := by
  cases h₁ with
  | none hget htrack hshrink hkeys =>
    cases h with
    | none hget' htrack' hshrink' hkeys' =>
      exact .none (hget'.trans hget) (htrack'.trans htrack)
        (fun s e he => hshrink s e (hshrink' s e he)) fun T hT => hkeys' T (hkeys T hT)
    | some hlive hsouth hentry hget' htrack' hshrink' hkeys' =>
      obtain ⟨e, he, hcell⟩ := hentry
      refine .some (hget ▸ hlive) hsouth ⟨e, hshrink _ e he, hcell⟩ (fun k => ?_)
        (htrack'.trans htrack) (fun s e he => hshrink s e (hshrink' s e he))
        fun T hT => hkeys' T (hkeys T hT)
      rw [hget' k, hget]

theorem Takes.entries {h3 : H3 L} {horizon : L} {m m' : ShardedResolutionMap A L}
    {T : Set CellIndex} (h : Takes h3 horizon m (Option.none, m')) (hT : m.Entries h3 T) :
    m'.Entries h3 T := by
  cases h with
  | none hget htrack hshrink hkeys => exact hkeys T hT

theorem Takes.refl {h3 : H3 L} {horizon : L} (m : ShardedResolutionMap A L) :
    Takes h3 horizon m (Option.none, m) := .none rfl rfl (fun _ _ he => he) fun _ hT => hT

/-- Popping one heap leaves no entry that was not there. -/
theorem mem_of_mem_update {m : ShardedResolutionMap A L} {s t : Shard}
    {heap : MaxHeap (HexEvictionEntry L)} (hheap : ∀ e ∈ heap, e ∈ m.eviction s)
    {e : HexEvictionEntry L} (he : e ∈ Function.update m.eviction s heap t) :
    e ∈ m.eviction t := by
  by_cases ht : t = s
  · subst ht
    rw [Function.update_self] at he
    exact hheap e he
  · rwa [Function.update_of_ne ht] at he

section Merge

variable [SpillAccumulator A]

theorem popShard_takes {h3 : H3 L} (horizon : L) (s : Shard) (rounds : Nat)
    (m : ShardedResolutionMap A L) (h : m.Entries h3 ∅) :
    Takes h3 horizon m (popShard horizon s rounds m) := by
  induction rounds generalizing m with
  | zero => exact .refl m
  | succ rounds ih =>
      rw [popShard]
      split
      next => exact .refl m
      next top htop =>
        split
        next hsouth =>
          obtain ⟨hlat, hshard⟩ := h.southLat s top (MaxHeap.peek_mem htop)
          simp only
          split
          next hstale =>
            have hdrop : Takes h3 horizon m (none, { m with
                eviction := Function.update m.eviction s (m.eviction s).pop
                readings := m.readings + 1 }) :=
              .none rfl rfl
                (fun t e he => mem_of_mem_update (fun e he => MaxHeap.mem_of_mem_pop he) he)
                fun T hT => hT.dropStale htop hstale _
            exact hdrop.after (ih _ (h.dropStale htop hstale _))
          next acc hacc =>
            refine .some (lookup_eq_get hacc).2 (hlat ▸ hsouth)
              ⟨top, hshard.symm ▸ MaxHeap.peek_mem htop, rfl⟩ (fun k => ?_) rfl
              (fun t e he => ?_) fun T hT => hT.remove htop _ _
            · subst hshard
              rw [get]
              simp only
              rw [get_update m top.cell _ fun k hk => AList.lookup_erase_ne hk,
                AList.lookup_erase]
            · refine mem_of_mem_update (fun e he => ?_) he
              split at he
              next => exact absurd he (MaxHeap.not_mem_empty e)
              next => exact MaxHeap.mem_of_mem_pop he
        next => exact .refl m

theorem popFrom_takes {h3 : H3 L} (horizon : L) (shards : List Shard)
    (m : ShardedResolutionMap A L) (h : m.Entries h3 ∅) :
    Takes h3 horizon m (popFrom horizon shards m) := by
  induction shards generalizing m with
  | nil => exact .refl m
  | cons s rest ih =>
      have hpop := popShard_takes horizon s (m.eviction s).size m h
      rw [popFrom]
      split
      next record m' heq =>
        rw [heq] at hpop
        exact hpop
      next m' heq =>
        rw [heq] at hpop
        exact .after hpop (ih m' (hpop.entries h))

theorem popCompleted_takes {h3 : H3 L} {m : ShardedResolutionMap A L} (h : m.Entries h3 ∅)
    (horizon : L) : Takes h3 horizon m (m.popCompleted horizon) :=
  popFrom_takes horizon _ m h

theorem popCompleted_pops {h3 : H3 L} {m : ShardedResolutionMap A L} (h : m.Tracks h3)
    (horizon : L) : Pops h3 horizon m (m.popCompleted horizon) :=
  (popCompleted_takes (h.entries.mono (Set.empty_subset _)) horizon).pops h

/-- A shard that was searched in vain has no entry left north of the horizon. -/
theorem popShard_none {horizon : L} {s : Shard} {rounds : Nat} {m m' : ShardedResolutionMap A L}
    (hsize : (m.eviction s).size ≤ rounds) (h : popShard horizon s rounds m = (none, m')) :
    (∀ e ∈ m'.eviction s, e.southLat ≤ horizon) ∧ ∀ t, t ≠ s → m'.eviction t = m.eviction t := by
  induction rounds generalizing m with
  | zero =>
      obtain rfl : m = m' := congrArg Prod.snd h
      refine ⟨fun e he => ?_, fun _ _ => rfl⟩
      have : (m.eviction s).toList = [] := List.length_eq_zero_iff.mp (Nat.le_zero.mp hsize)
      rw [MaxHeap.mem_def, this] at he
      exact nomatch he
  | succ rounds ih =>
      rw [popShard] at h
      split at h
      next hpeek =>
        obtain rfl : m = m' := congrArg Prod.snd h
        exact ⟨fun e he => absurd he (MaxHeap.peek_eq_none.mp hpeek e), fun _ _ => rfl⟩
      next top htop =>
        split at h
        next hsouth =>
          simp only at h
          split at h
          next =>
            have hpop := MaxHeap.size_pop htop
            obtain ⟨hlow, hrest⟩ := ih (by simp only [Function.update_self]; omega) h
            refine ⟨hlow, fun t ht => (hrest t ht).trans ?_⟩
            exact Function.update_of_ne ht _ _
          next => cases h
        next hnorth =>
          obtain rfl : m = m' := congrArg Prod.snd h
          refine ⟨fun e he => ?_, fun _ _ => rfl⟩
          exact (HexEvictionEntry.southLat_mono (MaxHeap.le_peek htop he)).trans (not_lt.mp hnorth)

theorem popFrom_none {horizon : L} {shards : List Shard} {m m' : ShardedResolutionMap A L}
    (hnodup : shards.Nodup) (h : popFrom horizon shards m = (none, m')) :
    (∀ s ∈ shards, ∀ e ∈ m'.eviction s, e.southLat ≤ horizon) ∧
      ∀ t ∉ shards, m'.eviction t = m.eviction t := by
  induction shards generalizing m with
  | nil =>
      obtain rfl : m = m' := congrArg Prod.snd h
      exact ⟨fun s hs => (nomatch hs), fun _ _ => rfl⟩
  | cons s rest ih =>
      rw [popFrom] at h
      obtain ⟨hs, hrest⟩ := List.nodup_cons.mp hnodup
      split at h
      next => cases h
      next m₁ heq =>
        obtain ⟨hlow, hsame⟩ := popShard_none (le_refl _) heq
        obtain ⟨hlow', hsame'⟩ := ih hrest h
        refine ⟨fun t ht => ?_, fun t ht => ?_⟩
        · rcases List.mem_cons.mp ht with rfl | ht
          · rw [hsame' t hs]
            exact hlow
          · exact hlow' t ht
        · rw [List.mem_cons, not_or] at ht
          rw [hsame' t ht.2, hsame t ht.1]

/-- When nothing is popped, no tracked cell lies north of the horizon. -/
theorem popCompleted_none {h3 : H3 L} {horizon : L} {m m' : ShardedResolutionMap A L}
    (h : m.Tracks h3) (hpop : m.popCompleted horizon = (none, m')) :
    m'.trackEviction = true → ∀ k, m'.get k ≠ none → h3.southLat k ≤ horizon := by
  intro hon k hk
  have hpops := popCompleted_pops h horizon
  rw [hpop] at hpops
  cases hpops with
  | none hget htrack hkeys =>
      exact (popFrom_none (List.nodup_finRange 32) hpop).1 _ (List.mem_finRange _) _
        (hkeys.live hon k hk)

/-! ## Merging -/

theorem get_mergeOwnedWith (m : ShardedResolutionMap A L) (key : CellIndex) (acc : A)
    (southLat : L) (k : CellIndex) :
    (m.mergeOwnedWith key acc southLat).2.get k =
      if k = key then some ((m.get key).elim acc fun existing => merge existing acc)
      else m.get k := by
  have hne : ∀ a : A, ∀ k, k ≠ key →
      ((m.shards (getShard key)).insert key a).lookup k = (m.shards (getShard key)).lookup k :=
    fun a k hk => AList.lookup_insert_ne hk
  unfold mergeOwnedWith
  simp only
  split
  next existing h =>
    rw [get]
    simp only
    rw [get_update m key _ (hne _), AList.lookup_insert, show m.get key = some existing from h]
    rfl
  next h =>
    rw [get]
    simp only
    rw [get_update m key _ (hne _), AList.lookup_insert, show m.get key = none from h]
    rfl

theorem trackEviction_mergeOwnedWith (m : ShardedResolutionMap A L) (key : CellIndex) (acc : A)
    (southLat : L) : (m.mergeOwnedWith key acc southLat).2.trackEviction = m.trackEviction := by
  unfold mergeOwnedWith
  simp only
  split <;> rfl

theorem Tracks.mergeOwnedWith {h3 : H3 L} {m : ShardedResolutionMap A L} (h : m.Tracks h3)
    (key : CellIndex) (acc : A) :
    (m.mergeOwnedWith key acc (h3.southLat key)).2.Tracks h3 := by
  have hget := m.get_mergeOwnedWith key acc (h3.southLat key)
  unfold ShardedResolutionMap.mergeOwnedWith at hget ⊢
  simp only at hget ⊢
  split at hget
  next existing hl =>
    refine ⟨h.southLat, fun hon k hk => h.live hon k ?_⟩
    rw [hget k] at hk
    split at hk
    next heq =>
      subst heq
      rw [get, hl]
      exact Option.some_ne_none _
    next => exact hk
  next hl =>
    refine ⟨fun s e he => ?_, fun hon k hk => ?_⟩
    · simp only at he
      split at he
      next =>
        by_cases hs : s = getShard key
        · subst hs
          rw [Function.update_self, MaxHeap.mem_push] at he
          rcases he with rfl | he
          · exact ⟨rfl, rfl⟩
          · exact h.southLat _ e he
        · rw [Function.update_of_ne hs] at he
          exact h.southLat s e he
      next => exact h.southLat s e he
    · rw [hget k] at hk
      simp only at hon ⊢
      rw [if_pos hon]
      by_cases hkey : k = key
      · subst hkey
        rw [Function.update_self]
        exact MaxHeap.mem_push.mpr (Or.inl rfl)
      · rw [if_neg hkey] at hk
        have hold := h.live hon k hk
        by_cases hs : getShard k = getShard key
        · rw [hs, Function.update_self]
          exact MaxHeap.mem_push.mpr (Or.inr (hs ▸ hold))
        · rwa [Function.update_of_ne hs]

end Merge

end ShardedResolutionMap

end RasterH3.Agg
