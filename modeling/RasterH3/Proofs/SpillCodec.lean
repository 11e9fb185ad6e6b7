import RasterH3.Agg.Categorical
import RasterH3.Proofs.SpillMerge

/-!
# What the spill file accepts and what it can read back

Live states are spilled to a file when they take too much memory, and read back when they
are merged. The writer charges a state for the tables it holds: 34 bytes for each place, the
two engines alike. The reader refuses a table with more than `limit / 64` entries. A table
that is nearly full costs less than 64 bytes an entry, so a state with enough classes or
bins is accepted and then refused.

That is the only thing that can go wrong. A state whose tables pass the count comes back
equal, in tables no larger than they were, and a merge of states that came back needs no
more memory than the merge of the live ones. `reads_back_iff_counts_fit` says this for both
engines, of reading and of merging.

Memory is what makes the proof long. A table doubles as it grows and never shrinks, so a
live table may be larger than its entries ask for, and the one that is rebuilt from them is
not. For the continuous engine the bins are inserted again (`readBins_write`); for the
categorical one the reader replays the classes, inline at first and then in a table, and
what it arrives at depends on how many there are and not on their order (`capacityAfter`).
Merging adds the entries of one table to another, and its capacity grows with both
(`merge_rebuilt_memory`).

The last part turns this around. If the classes of a cell are few, whatever they are, every
state that a merge may build has room (`ample_of_bounded`), and then spilled runs merge
losslessly in any pattern of pushes.
-/

namespace RasterH3.Agg

open HashTable AccumulatorMerge SpillAccumulator

/-! ## Entry loops -/

theorem table_le_memory (capacity : Nat) : capacity ≤ tableBytes capacity := by
  rw [tableBytes, entryBytes]
  split <;> omega

theorem tableBytes_mono {c c' : Nat} (h : c ≤ c') : tableBytes c ≤ tableBytes c' := by
  rw [tableBytes, tableBytes, entryBytes]
  split <;> split <;> omega

theorem readEntries_write {K V : Type} {readKey : List UInt8 → Option (K × List UInt8)}
    {writeKey : K → List UInt8} [Bytes.Codec V]
    (hkey : ∀ k rest, readKey (writeKey k ++ rest) = some (k, rest)) (rest : List UInt8) :
    ∀ entries : List (K × V),
      readEntries readKey Bytes.Codec.decode entries.length
        ((entries.flatMap fun p => writeKey p.1 ++ Bytes.Codec.encode p.2) ++ rest) =
      .ok (entries, rest) := by
  intro entries
  induction entries with
  | nil => rfl
  | cons p entries ih =>
      simp only [List.length_cons, readEntries, List.flatMap_cons, List.append_assoc,
        readExact, hkey, Bytes.Codec.decode_encode, bind, Except.bind, ih]
      rfl

/-- The count field lets through what fits `limit / 64`, and only that. -/
theorem count_write {limit : Usize} {n : Nat} (hn : n < 2 ^ 64) (rest : List UInt8) :
    count limit (Bytes.writeLe 8 n ++ rest) =
      if limit.val / 64 < n then .error .countExceeds else .ok (n, rest) := by
  have hread : Bytes.readLe 8 (Bytes.writeLe 8 n ++ rest) = some (n, rest) :=
    Bytes.readLe_writeLe_of_lt (by omega) rest
  simp only [count, readExact, hread, bind, Except.bind]
  split <;> rfl

/-! ## The continuous accumulator -/

section Continuous

variable {F M : Type}

namespace QuantileSketch

def rebuilt (q : QuantileSketch F) : QuantileSketch F :=
  { q with posBins := q.posBins.rebuilt, negBins := q.negBins.rebuilt }

/-- Equal counts and the same bins; how the tables are laid out is not seen. -/
structure Same (q q' : QuantileSketch F) : Prop where
  zero_eq : q.zeroCount = q'.zeroCount
  total_eq : q.totalCount = q'.totalCount
  pos_eq : ∀ k, q.posBins.get? k = q'.posBins.get? k
  neg_eq : ∀ k, q.negBins.get? k = q'.negBins.get? k

theorem same_rebuilt (q : QuantileSketch F) : q.rebuilt.Same q where
  zero_eq := rfl
  total_eq := rfl
  pos_eq := fun _ => Table.get?_rebuilt _ _
  neg_eq := fun _ => Table.get?_rebuilt _ _

end QuantileSketch

namespace H3Accumulator

/-- A state as it is rebuilt from its bytes. -/
def rebuilt (acc : H3Accumulator F M) : H3Accumulator F M :=
  { acc with quantiles := acc.quantiles.map QuantileSketch.rebuilt }

structure Same (acc acc' : H3Accumulator F M) : Prop where
  sum_eq : acc.sum = acc'.sum
  count_eq : acc.count = acc'.count
  min_eq : acc.min = acc'.min
  max_eq : acc.max = acc'.max
  m2_eq : acc.m2 = acc'.m2
  sumW2_eq : acc.sumW2 = acc'.sumW2
  quantiles_eq : Option.Rel QuantileSketch.Same acc.quantiles acc'.quantiles

theorem same_rebuilt (acc : H3Accumulator F M) : acc.rebuilt.Same acc where
  sum_eq := rfl
  count_eq := rfl
  min_eq := rfl
  max_eq := rfl
  m2_eq := rfl
  sumW2_eq := rfl
  quantiles_eq := by
    rw [rebuilt]
    cases acc.quantiles with
    | none => exact .none
    | some q => exact .some q.same_rebuilt

/-- Both bin tables pass `count`. -/
def CountsFit (limit : Usize) (acc : H3Accumulator F M) : Prop :=
  ∀ q ∈ acc.quantiles, q.posBins.len ≤ limit.val / 64 ∧ q.negBins.len ≤ limit.val / 64

theorem rebuilt_memory (acc : H3Accumulator F M) :
    acc.rebuilt.memoryBytes ≤ acc.memoryBytes := by
  rw [memoryBytes, memoryBytes, heapBytes.eq_def, heapBytes.eq_def, rebuilt]
  cases acc.quantiles with
  | none => exact Nat.le_refl _
  | some q =>
      have hpos := tableBytes_mono q.posBins.rebuilt_capacity_le
      have hneg := tableBytes_mono q.negBins.rebuilt_capacity_le
      simp only [Option.map_some, QuantileSketch.rebuilt]
      omega

/-- Bins cost memory, so there are fewer of them than there are bytes. -/
theorem bins_lt {limit : Usize} {acc : H3Accumulator F M} {q : QuantileSketch F}
    (hmem : acc.memoryBytes ≤ limit.val) (hq : acc.quantiles = some q) :
    q.posBins.len < 2 ^ 64 ∧ q.negBins.len < 2 ^ 64 := by
  rw [memoryBytes, heapBytes.eq_def, hq] at hmem
  have hpos := table_le_memory q.posBins.capacity
  have hneg := table_le_memory q.negBins.capacity
  have hlen := q.posBins.fits
  have hlen' := q.negBins.fits
  have hlimit := limit.isLt
  simp only [] at hmem
  constructor <;> (rw [Table.len]; omega)

variable [Bytes.Codec F] [Bytes.Codec M]

omit [Bytes.Codec M] in
theorem readBins_write {limit : Usize} {bins : Table Int32 F} (hlen : bins.len < 2 ^ 64)
    (rest : List UInt8) :
    readBins limit (writeBins bins ++ rest) =
      if limit.val / 64 < bins.len then .error .countExceeds
      else .ok (bins.rebuilt, rest) := by
  rw [readBins, writeBins, List.append_assoc, count_write hlen]
  split
  · rfl
  · simp only [bind, Except.bind, Table.len,
      readEntries_write Bytes.readI32_writeI32 rest bins.entries]
    rfl

/-- Reading back what was written: the rebuilt state, unless a table has too
many entries for the count field. -/
theorem readState_write {limit : Usize} {acc : H3Accumulator F M}
    (hmem : acc.memoryBytes ≤ limit.val) (rest : List UInt8) :
    (acc.CountsFit limit →
      readState limit (acc.writeState ++ rest) = .ok (acc.rebuilt, rest)) ∧
    (¬ acc.CountsFit limit →
      (readState limit (acc.writeState ++ rest) :
        Except SpillError (H3Accumulator F M × List UInt8)) = .error .countExceeds) := by
  have hback : ¬ limit.val < acc.rebuilt.memoryBytes := by
    have := acc.rebuilt_memory
    omega
  obtain ⟨sum, count, min, max, m2, sumW2, quantiles⟩ := acc
  cases quantiles with
  | none =>
      refine ⟨fun _ => ?_, fun hno => absurd (fun q hq => nomatch hq) hno⟩
      have hmarker : Bytes.readLe 8 (Bytes.writeLe 8 0 ++ rest) = some (0, rest) :=
        Bytes.readLe_writeLe_of_lt (by decide) rest
      simp only [readState, writeState, List.append_assoc, readExact,
        Bytes.Codec.decode_encode, hmarker, bind, Except.bind, pure, Except.pure,
        fromWeightedStats]
      rw [if_neg (by simpa [rebuilt] using hback)]
      rfl
  | some q =>
      obtain ⟨hpos, hneg⟩ := bins_lt hmem rfl
      have hmarker : ∀ tail, Bytes.readLe 8 (Bytes.writeLe 8 1 ++ tail) = some (1, tail) :=
        fun tail => Bytes.readLe_writeLe_of_lt (by decide) tail
      have hfit : CountsFit limit
          (⟨sum, count, min, max, m2, sumW2, some q⟩ : H3Accumulator F M) ↔
          ¬ limit.val / 64 < q.posBins.len ∧ ¬ limit.val / 64 < q.negBins.len := by
        simp [CountsFit]
      rw [hfit]
      simp only [readState, writeState, List.append_assoc, readExact, readSketch,
        Bytes.Codec.decode_encode, hmarker, bind, Except.bind, pure, Except.pure,
        fromWeightedStats, readBins_write hpos]
      constructor
      · rintro ⟨hp, hn⟩
        rw [if_neg hp]
        simp only [readBins_write hneg]
        rw [if_neg hn]
        exact if_neg hback
      · intro hno
        by_cases hp : limit.val / 64 < q.posBins.len
        · rw [if_pos hp]
        · rw [if_neg hp]
          simp only [readBins_write hneg]
          rw [if_pos (by by_contra hn; exact hno ⟨hp, hn⟩)]

end H3Accumulator

/-! ### Merging what came back -/

theorem addBins_rebuilt_capacity [Zero F] [Add F] (bins other : Table Int32 F) :
    (QuantileSketch.addBins bins.rebuilt other.rebuilt).capacity ≤
      (QuantileSketch.addBins bins other).capacity := by
  rw [QuantileSketch.addBins, QuantileSketch.addBins]
  exact Table.capacity_upsertAll_le (by simp) bins.rebuilt_capacity_le (by simp)

theorem QuantileSketch.merge_rebuilt_capacity [Zero F] [Add F] [BEq F]
    (q other : QuantileSketch F) :
    (q.rebuilt.merge other.rebuilt).posBins.capacity ≤ (q.merge other).posBins.capacity ∧
    (q.rebuilt.merge other.rebuilt).negBins.capacity ≤ (q.merge other).negBins.capacity := by
  have htotal : q.rebuilt.totalCount = q.totalCount := rfl
  have htotal' : other.rebuilt.totalCount = other.totalCount := rfl
  rw [merge, merge, htotal, htotal']
  split
  · exact ⟨q.posBins.rebuilt_capacity_le, q.negBins.rebuilt_capacity_le⟩
  · split
    · exact ⟨other.posBins.rebuilt_capacity_le, other.negBins.rebuilt_capacity_le⟩
    · exact ⟨addBins_rebuilt_capacity _ _, addBins_rebuilt_capacity _ _⟩

namespace H3Accumulator

/-- The memory of a state is that of its sketch. -/
def sketchBytes (q : Option (QuantileSketch F)) : Nat :=
  match q with
  | none => 0
  | some q => sizeOfSketch + tableBytes q.posBins.capacity + tableBytes q.negBins.capacity

theorem memoryBytes_eq (acc : H3Accumulator F M) :
    acc.memoryBytes = sizeOfSelf + sketchBytes acc.quantiles := rfl

theorem mergeQuantiles_rebuilt [Zero F] [Add F] [BEq F] (acc other : H3Accumulator F M) :
    sketchBytes (acc.rebuilt.mergeQuantiles other.rebuilt) ≤
      sketchBytes (acc.mergeQuantiles other) := by
  have hsingle : ∀ q : QuantileSketch F, sketchBytes (some q.rebuilt) ≤ sketchBytes (some q) := by
    intro q
    have hpos := tableBytes_mono q.posBins.rebuilt_capacity_le
    have hneg := tableBytes_mono q.negBins.rebuilt_capacity_le
    simp only [sketchBytes, QuantileSketch.rebuilt]
    omega
  rw [mergeQuantiles.eq_def, mergeQuantiles.eq_def, rebuilt, rebuilt]
  cases acc.quantiles with
  | none =>
      cases other.quantiles with
      | none => exact Nat.le_refl _
      | some q' =>
          simp only [Option.map_none, Option.map_some]
          split
          · exact hsingle q'
          · exact Nat.le_refl _
  | some q =>
      cases other.quantiles with
      | none => exact hsingle q
      | some q' =>
          obtain ⟨hpos, hneg⟩ := q.merge_rebuilt_capacity q'
          have hpos := tableBytes_mono hpos
          have hneg := tableBytes_mono hneg
          simp only [Option.map_some, sketchBytes]
          omega

theorem merge_rebuilt_memory [Zero F] [Add F] [Sub F] [Mul F] [Div F] [BEq F]
    [Extremes F M] (acc other : H3Accumulator F M) :
    (acc.rebuilt.merge other.rebuilt).memoryBytes ≤ (acc.merge other).memoryBytes := by
  have hquantiles := acc.mergeQuantiles_rebuilt other
  have hself := acc.rebuilt_memory
  have hcount : acc.rebuilt.count = acc.count := rfl
  have hcount' : other.rebuilt.count = other.count := rfl
  rw [merge, merge, hcount, hcount']
  split
  · exact hself
  · split
    · rw [memoryBytes_eq, memoryBytes_eq]
      exact Nat.add_le_add_left hquantiles _
    · rw [memoryBytes_eq, memoryBytes_eq]
      exact Nat.add_le_add_left hquantiles _

end H3Accumulator

instance [Zero F] [Add F] [Sub F] [Mul F] [Div F] [BEq F] [Extremes F M]
    [Bytes.Codec F] [Bytes.Codec M] : LawfulSpill (H3Accumulator F M) where
  Same := H3Accumulator.Same
  reread := H3Accumulator.rebuilt
  Readable := H3Accumulator.CountsFit
  read_write rest hmem hread := (H3Accumulator.readState_write hmem rest).1 hread
  read_unreadable rest hmem hread :=
    ⟨.countExceeds, trivial, (H3Accumulator.readState_write hmem rest).2 hread⟩
  same_reread := H3Accumulator.same_rebuilt
  memory_reread := H3Accumulator.rebuilt_memory
  memory_merge_reread := H3Accumulator.merge_rebuilt_memory

end Continuous

/-! ## The categorical accumulator

Here the reader does not insert into a table: it replays the classes through
`update_weighted`, which starts inline and moves to a table at the seventeenth
class. What it arrives at is determined by the number of classes. -/

namespace CategoricalAccumulator

variable {F : Type} [Zero F] [LE F]

/-- The capacity of the table, zero while the classes are inline. -/
def heapCapacity (acc : CategoricalAccumulator F) : Nat :=
  match acc.heapCounts with
  | none => 0
  | some heap => heap.capacity

theorem memoryBytes_eq (acc : CategoricalAccumulator F) :
    acc.memoryBytes = sizeOfSelf +
      if acc.heapCapacity = 0 then 0 else sizeOfTable + tableBytes acc.heapCapacity := by
  have hstart := le_capacityFor 32
  rw [memoryBytes, heapBytes.eq_def, heapCapacity.eq_def]
  cases hheap : acc.heapCounts with
  | none => rfl
  | some heap =>
      have hroom := acc.heap_capacity heap hheap
      simp only []
      rw [if_neg (by omega)]

theorem memoryBytes_mono {acc acc' : CategoricalAccumulator F}
    (h : acc.heapCapacity ≤ acc'.heapCapacity) : acc.memoryBytes ≤ acc'.memoryBytes := by
  have := tableBytes_mono h
  rw [memoryBytes_eq, memoryBytes_eq]
  split <;> split <;> omega

/-- The capacity after an update follows from the number of classes. -/
def capacityAfter (before classes : Nat) : Nat :=
  if before = 0 ∧ classes ≤ inlineCapacity then 0
  else max (max before (capacityFor 32)) (capacityFor classes)

theorem capacityAfter_trans {b n m : Nat} (h : n ≤ m) :
    capacityAfter (capacityAfter b n) m = capacityAfter b m := by
  have hmono := capacityFor_mono h
  have hstart := le_capacityFor 32
  simp only [capacityAfter]
  split <;> split <;> split <;> omega

theorem capacityAfter_mono {b b' n : Nat} (h : b ≤ b') :
    capacityAfter b n ≤ capacityAfter b' n := by
  simp only [capacityAfter]
  split <;> split <;> omega

theorem capacity_settled (acc : CategoricalAccumulator F) :
    capacityAfter acc.heapCapacity acc.uniqueClasses = acc.heapCapacity := by
  have hstart := le_capacityFor 32
  rw [heapCapacity.eq_def, uniqueClasses, classes, classesOf.eq_def, capacityAfter]
  cases hheap : acc.heapCounts with
  | none => exact if_pos ⟨rfl, acc.inline_le⟩
  | some heap =>
      have hroom := acc.heap_capacity heap hheap
      have hlen := capacityFor_le heap.isCapacity heap.fits
      simp only []
      rw [if_neg (by omega)]
      omega

theorem uniqueClasses_eq_of_keys {acc acc' : CategoricalAccumulator F}
    (h : ∀ k, k ∈ acc.classes.map Prod.fst ↔ k ∈ acc'.classes.map Prod.fst) :
    acc.uniqueClasses = acc'.uniqueClasses := by
  have hperm := (List.perm_ext_iff_of_nodup acc.classes_nodup acc'.classes_nodup).mpr h
  simpa [uniqueClasses] using hperm.length_eq

variable [Add F] [PositiveAdd F]

/-- An entry added: one key more at most, its weight added, and the capacity
that goes with the number of classes. -/
theorem classes_add (acc : CategoricalAccumulator F) (k : Int64) {w : F} (hw : ¬ w ≤ 0) :
    (∀ k', k' ∈ (acc.add k w hw).classes.map Prod.fst ↔
      k' = k ∨ k' ∈ acc.classes.map Prod.fst) ∧
    (∀ k', (acc.add k w hw).classes.lookup k' =
      if k = k' then some (((acc.classes.lookup k').map (· + w)).getD w)
      else acc.classes.lookup k') ∧
    acc.uniqueClasses ≤ (acc.add k w hw).uniqueClasses ∧
    (acc.add k w hw).heapCapacity =
      capacityAfter acc.heapCapacity (acc.add k w hw).uniqueClasses := by
  have hstart := le_capacityFor 32
  simp only [classes, uniqueClasses, heapCapacity.eq_def, add, addEntry.eq_def]
  cases hheap : acc.heapCounts with
  | some heap =>
      have hroom := acc.heap_capacity heap hheap
      simp only [classesOf]
      refine ⟨fun _ => Table.mem_keys_upsert, fun k' => ?_, heap.len_le_upsert k 0 (· + w), ?_⟩
      · rw [← Table.get?, Table.get?_upsert, Table.get?]
        cases heap.entries.lookup k' with
        | none => simp [PositiveAdd.zero_add w hw]
        | some x => simp
      · rw [Table.capacity_upsert, capacityAfter, if_neg (by omega), Table.len]
        omega
  | none =>
      have hle := acc.inline_le
      simp only []
      split
      · next hmem =>
          simp only [classesOf]
          refine ⟨fun k' => ?_, fun k' => ?_, by simp [Table.mapAt], ?_⟩
          · rw [Table.keys_mapAt]
            exact ⟨.inr, fun h => h.elim (fun h => h ▸ hmem) id⟩
          · rw [Table.lookup_mapAt]
            split
            · next heq =>
                subst heq
                cases hlook : acc.inlineEntries.lookup k with
                | none => exact absurd hmem (Table.lookup_eq_none.mp hlook)
                | some x => rfl
            · rfl
          · rw [capacityAfter, if_pos ⟨rfl, by simpa [Table.mapAt] using hle⟩]
      · next hmem =>
          have hnodup := Table.keys_append_nodup w acc.inline_nodup hmem
          have hkeys : ∀ k', k' ∈ (acc.inlineEntries ++ [(k, w)]).map Prod.fst ↔
              k' = k ∨ k' ∈ acc.inlineEntries.map Prod.fst := by
            intro k'
            rw [List.map_append, List.mem_append, List.map_singleton, List.mem_singleton]
            exact or_comm
          have hlookup : ∀ k', (acc.inlineEntries ++ [(k, w)]).lookup k' =
              if k = k' then some (((acc.inlineEntries.lookup k').map (· + w)).getD w)
              else acc.inlineEntries.lookup k' := by
            intro k'
            rw [List.lookup_append, Table.lookup_cons]
            by_cases heq : k = k'
            · subst heq
              simp [Table.lookup_eq_none.mpr hmem]
            · simp [heq]
          split
          · next hroom =>
              simp only [classesOf]
              refine ⟨hkeys, hlookup, by simp, ?_⟩
              rw [capacityAfter, if_pos ⟨rfl, by simpa using hroom⟩]
          · next hfull =>
              simp only [classesOf, spillTable_entries hnodup, spillTable_capacity hnodup]
              refine ⟨hkeys, hlookup, by simp, ?_⟩
              rw [capacityAfter, if_neg (fun h => hfull (by simpa using h.2)),
                Nat.zero_max]

variable [DecidableLE F]

theorem updateAll_cons (acc : CategoricalAccumulator F) {p : Int64 × F}
    (entries : List (Int64 × F)) (hw : ¬ p.2 ≤ 0) :
    acc.updateAll (p :: entries) = (acc.add p.1 p.2 hw).updateAll entries := by
  rw [updateAll, List.foldl_cons, ← updateAll, updateWeighted, dif_neg hw]

/-- The same for a whole list of positive entries. -/
theorem updateAll_spec :
    ∀ (entries : List (Int64 × F)) (acc : CategoricalAccumulator F),
      (∀ p ∈ entries, ¬ p.2 ≤ 0) →
      (∀ k, k ∈ (acc.updateAll entries).classes.map Prod.fst ↔
        k ∈ acc.classes.map Prod.fst ∨ k ∈ entries.map Prod.fst) ∧
      acc.uniqueClasses ≤ (acc.updateAll entries).uniqueClasses ∧
      (acc.updateAll entries).heapCapacity =
        capacityAfter acc.heapCapacity (acc.updateAll entries).uniqueClasses := by
  intro entries
  induction entries with
  | nil => exact fun acc _ => ⟨by simp [updateAll], Nat.le_refl _, acc.capacity_settled.symm⟩
  | cons p entries ih =>
      intro acc hpos
      have hw := hpos p List.mem_cons_self
      obtain ⟨hkeys, _, hlen, hcap⟩ := acc.classes_add p.1 hw
      obtain ⟨hkeys', hlen', hcap'⟩ := ih (acc.add p.1 p.2 hw)
        fun q hq => hpos q (List.mem_cons_of_mem _ hq)
      rw [acc.updateAll_cons entries hw]
      refine ⟨fun k => ?_, Nat.le_trans hlen hlen', ?_⟩
      · rw [hkeys', hkeys, List.map_cons, List.mem_cons]
        tauto
      · rw [hcap', hcap, capacityAfter_trans hlen']

theorem lookup_updateAll :
    ∀ (entries : List (Int64 × F)) (acc : CategoricalAccumulator F) (k : Int64),
      (∀ p ∈ entries, ¬ p.2 ≤ 0) → (entries.map Prod.fst).Nodup →
      (acc.updateAll entries).classes.lookup k =
        match entries.lookup k with
        | none => acc.classes.lookup k
        | some w => some (((acc.classes.lookup k).map (· + w)).getD w) := by
  intro entries
  induction entries with
  | nil => exact fun _ _ _ _ => rfl
  | cons p entries ih =>
      intro acc k hpos hnodup
      have hw := hpos p List.mem_cons_self
      rw [List.map_cons, List.nodup_cons] at hnodup
      rw [acc.updateAll_cons entries hw, ih _ k (fun q hq => hpos q (List.mem_cons_of_mem _ hq))
        hnodup.2, Table.lookup_cons, (acc.classes_add p.1 hw).2.1 k]
      by_cases hk : p.1 = k
      · subst hk
        rw [Table.lookup_eq_none.mpr hnodup.1]
        simp
      · simp [hk]

/-- A state as it is rebuilt from its bytes. -/
def rebuilt (acc : CategoricalAccumulator F) : CategoricalAccumulator F :=
  { (new : CategoricalAccumulator F).updateAll acc.classes with totalCount := acc.totalCount }

omit [Add F] [PositiveAdd F] [DecidableLE F] in
structure Same (acc acc' : CategoricalAccumulator F) : Prop where
  total_eq : acc.totalCount = acc'.totalCount
  classes_eq : ∀ k, acc.classes.lookup k = acc'.classes.lookup k

theorem same_rebuilt (acc : CategoricalAccumulator F) : acc.rebuilt.Same acc where
  total_eq := rfl
  classes_eq := by
    intro k
    have h := lookup_updateAll acc.classes new k acc.positive acc.classes_nodup
    rw [show acc.rebuilt.classes = (new.updateAll acc.classes).classes from rfl, h]
    cases acc.classes.lookup k <;> rfl

theorem keys_rebuilt (acc : CategoricalAccumulator F) (k : Int64) :
    k ∈ acc.rebuilt.classes.map Prod.fst ↔ k ∈ acc.classes.map Prod.fst := by
  rw [show acc.rebuilt.classes = (new.updateAll acc.classes).classes from rfl,
    (updateAll_spec acc.classes new acc.positive).1 k]
  simp [new, classes, classesOf]

theorem rebuilt_heapCapacity (acc : CategoricalAccumulator F) :
    acc.rebuilt.heapCapacity ≤ acc.heapCapacity := by
  have hcap := (updateAll_spec acc.classes new acc.positive).2.2
  have hlen : (new.updateAll acc.classes).uniqueClasses = acc.uniqueClasses :=
    uniqueClasses_eq_of_keys acc.keys_rebuilt
  rw [hlen] at hcap
  rw [show acc.rebuilt.heapCapacity = (new.updateAll acc.classes).heapCapacity from rfl, hcap]
  exact Nat.le_trans (capacityAfter_mono (Nat.zero_le _)) (Nat.le_of_eq acc.capacity_settled)

theorem merge_rebuilt_memory [BEq F] (acc other : CategoricalAccumulator F) :
    (acc.rebuilt.merge other.rebuilt).memoryBytes ≤ (acc.merge other).memoryBytes := by
  have htotal : other.rebuilt.totalCount = other.totalCount := rfl
  apply memoryBytes_mono
  rw [merge, merge, htotal]
  split
  · exact acc.rebuilt_heapCapacity
  · obtain ⟨hkeys, -, hcap⟩ := updateAll_spec other.classes acc other.positive
    obtain ⟨hkeys', -, hcap'⟩ :=
      updateAll_spec other.rebuilt.classes acc.rebuilt other.rebuilt.positive
    have hlen : (acc.rebuilt.updateAll other.rebuilt.classes).uniqueClasses =
        (acc.updateAll other.classes).uniqueClasses :=
      uniqueClasses_eq_of_keys fun k => by
        rw [hkeys' k, hkeys k, acc.keys_rebuilt, other.keys_rebuilt]
    rw [hcap, hcap', hlen]
    exact capacityAfter_mono acc.rebuilt_heapCapacity

/-- The classes pass `count`. -/
def CountFits (limit : Usize) (acc : CategoricalAccumulator F) : Prop :=
  acc.uniqueClasses ≤ limit.val / 64

omit [Add F] [PositiveAdd F] [DecidableLE F] in
theorem classes_lt {limit : Usize} {acc : CategoricalAccumulator F}
    (hmem : acc.memoryBytes ≤ limit.val) : acc.uniqueClasses < 2 ^ 64 := by
  have hlimit := limit.isLt
  have hinline := acc.inline_le
  rw [inlineCapacity] at hinline
  rw [memoryBytes, heapBytes.eq_def] at hmem
  rw [uniqueClasses, classes, classesOf.eq_def]
  cases hheap : acc.heapCounts with
  | none => simp only []; omega
  | some heap =>
      have hfits := heap.fits
      have htable := table_le_memory heap.capacity
      rw [hheap] at hmem
      simp only [] at hmem ⊢
      omega

theorem readState_write [Bytes.Codec F] {limit : Usize} {acc : CategoricalAccumulator F}
    (hmem : acc.memoryBytes ≤ limit.val) (rest : List UInt8) :
    (acc.CountFits limit →
      readState limit (acc.writeState ++ rest) = .ok (acc.rebuilt, rest)) ∧
    (¬ acc.CountFits limit →
      (readState limit (acc.writeState ++ rest) :
        Except SpillError (CategoricalAccumulator F × List UInt8)) = .error .countExceeds) := by
  have hback : ¬ limit.val < acc.rebuilt.memoryBytes := by
    have := memoryBytes_mono acc.rebuilt_heapCapacity
    omega
  have hfit : acc.CountFits limit ↔ ¬ limit.val / 64 < acc.uniqueClasses := by
    rw [CountFits]
    omega
  rw [hfit]
  simp only [readState, writeState, List.append_assoc, readExact, Bytes.Codec.decode_encode,
    bind, Except.bind, count_write (classes_lt hmem)]
  constructor
  · intro hread
    rw [if_neg hread]
    simp only [uniqueClasses, readEntries_write Bytes.readI64_writeI64 rest acc.classes]
    exact if_neg hback
  · intro hno
    rw [if_pos (by by_contra h; exact hno h)]

end CategoricalAccumulator

instance {F : Type} [Zero F] [Add F] [BEq F] [LE F] [DecidableLE F] [PositiveAdd F]
    [Bytes.Codec F] : LawfulSpill (CategoricalAccumulator F) where
  Same := CategoricalAccumulator.Same
  reread := CategoricalAccumulator.rebuilt
  Readable := CategoricalAccumulator.CountFits
  read_write rest hmem hread := (CategoricalAccumulator.readState_write hmem rest).1 hread
  read_unreadable rest hmem hread :=
    ⟨.countExceeds, trivial, (CategoricalAccumulator.readState_write hmem rest).2 hread⟩
  same_reread := CategoricalAccumulator.same_rebuilt
  memory_reread acc := CategoricalAccumulator.memoryBytes_mono acc.rebuilt_heapCapacity
  memory_merge_reread := CategoricalAccumulator.merge_rebuilt_memory

/-! ## What is accepted, and when it comes back -/

section Accepted

variable {A : Type} [SpillAccumulator A]

/-- `push_sorted` takes the records under this limit. -/
def Accepted (limit : Usize) (records : List (CellIndex × A)) : Prop :=
  ∃ s, (SpillRuns.new limit).pushSorted records = .ok s

/-- Reading the run back succeeds and gives the states that were pushed. -/
def ReadsBack [LawfulSpill A] (limit : Usize) (records : List (CellIndex × A)) : Prop :=
  ∃ back, SpillRuns.roundTrip limit [records] = .ok back ∧
    List.Forall₂ (fun p q => q.1 = p.1 ∧ LawfulSpill.Same q.2 p.2) records back

theorem writeSorted_ok {limit : Usize} :
    ∀ (records : List (CellIndex × A)) (previous : Option CellIndex)
      (out : List UInt8 × Nat),
      SpillRuns.writeSorted limit previous records = .ok out →
      Keyed.Sorted records ∧ Within limit records ∧
        ∀ q ∈ previous, ∀ k ∈ Keyed.keys records, q < k := by
  intro records
  induction records with
  | nil => exact fun _ _ _ => ⟨.nil, fun _ h => (nomatch h), fun _ _ _ h => (nomatch h)⟩
  | cons p records ih =>
      intro previous out h
      rw [SpillRuns.writeSorted] at h
      by_cases hprev : (previous.any fun q => decide (p.1 ≤ q)) = true
      · rw [if_pos hprev] at h
        cases h
      · by_cases hover : limit.val < memoryBytes p.2
        · rw [if_neg hprev, if_pos hover] at h
          cases h
        · rw [if_neg hprev, if_neg hover] at h
          cases hrest : SpillRuns.writeSorted limit (some p.1) records with
          | error e =>
              rw [hrest] at h
              cases h
          | ok rest =>
              obtain ⟨hsorted, hwithin, hlt⟩ := ih _ _ hrest
              have hfirst : ∀ k ∈ Keyed.keys records, p.1 < k := hlt p.1 rfl
              refine ⟨List.pairwise_cons.mpr ⟨fun q hq => ?_, hsorted⟩, fun q hq => ?_,
                fun q hq k hk => ?_⟩
              · exact hfirst q.1 (Keyed.mem_keys_of_mem hq)
              · rcases List.mem_cons.mp hq with rfl | hq
                · omega
                · exact hwithin q hq
              · have hqp : q < p.1 := by
                  rw [Option.mem_def] at hq
                  subst hq
                  simpa using hprev
                rcases List.mem_cons.mp hk with rfl | hk
                · exact hqp
                · exact lt_trans hqp (hfirst k hk)

theorem Accepted.stored {limit : Usize} {records : List (CellIndex × A)}
    (h : Accepted limit records) : Keyed.Sorted records ∧ Within limit records := by
  obtain ⟨s, hs⟩ := h
  rw [SpillRuns.pushSorted] at hs
  cases hwrite : SpillRuns.writeSorted (SpillRuns.new limit).limit none records with
  | error e =>
      rw [hwrite] at hs
      cases hs
  | ok out =>
      obtain ⟨hsorted, hwithin, -⟩ := writeSorted_ok records none out hwrite
      exact ⟨hsorted, hwithin⟩

/-- The first run pushed goes to level 0 as it is. -/
theorem pushSorted_new {limit : Usize} {records : List (CellIndex × A)}
    (hsorted : Keyed.Sorted records) (hwithin : Within limit records) (hne : records ≠ []) :
    (SpillRuns.new limit).pushSorted records =
      .ok { levels := [some { file := encode records, len := records.length }]
            limit, runsWritten := 1 } := by
  rcases writeSorted_cases limit records none hsorted (by simp) with ⟨hok, -⟩ | ⟨-, hno⟩
  · have hlen : records.length ≠ 0 := fun h => hne (List.length_eq_zero_iff.mp h)
    simp only [SpillRuns.pushSorted, SpillRuns.new, hok, bind, Except.bind, if_neg hlen,
      SpillRuns.carry]
    rfl
  · exact absurd hwithin hno

variable [LawfulSpill A]

theorem readsBack_iff {limit : Usize} {records : List (CellIndex × A)}
    (h : Accepted limit records) :
    ReadsBack limit records ↔ AllReadable limit records := by
  obtain ⟨hsorted, hwithin⟩ := h.stored
  cases records with
  | nil =>
      refine ⟨fun _ p hp => absurd hp List.not_mem_nil, fun _ => ⟨[], rfl, .nil⟩⟩
  | cons p records =>
      have htrip : SpillRuns.roundTrip limit [p :: records] =
          (readerOf limit (p :: records)).readAll ((p :: records).length + 1) := by
        simp only [SpillRuns.roundTrip, SpillRuns.pushAll, bind, Except.bind,
          pushSorted_new hsorted hwithin (by simp), SpillRuns.readBack, SpillRuns.finish,
          SpillRuns.combine]
        rfl
      rw [ReadsBack, htrip]
      by_cases hread : AllReadable limit (p :: records)
      · refine ⟨fun _ => hread, fun _ => ⟨_, readAll_ok _ (Nat.lt_succ_self _) hwithin hread, ?_⟩⟩
        rw [List.forall₂_map_right_iff]
        exact List.forall₂_same.mpr fun q _ => ⟨rfl, LawfulSpill.same_reread q.2⟩
      · obtain ⟨e, -, hfail⟩ := readAll_error _ (Nat.lt_succ_self _) hwithin hread
        refine ⟨fun hback => ?_, fun h => absurd h hread⟩
        obtain ⟨back, hback, -⟩ := hback
        rw [hfail] at hback
        cases hback

/-- When the live states fit together, merging two accepted runs fails exactly
when one of them cannot be read. -/
theorem mergesBack_iff {limit : Usize} {l r : List (CellIndex × A)}
    (hl : Accepted limit l) (hr : Accepted limit r) (hnl : l ≠ []) (hnr : r ≠ [])
    (hlive : ∀ k a b, (k, a) ∈ l → (k, b) ∈ r → memoryBytes (merge a b) ≤ limit.val) :
    (∃ s, (SpillRuns.new limit).pushAll [l, r] = .ok s) ↔
      AllReadable limit l ∧ AllReadable limit r := by
  obtain ⟨hsl, hml⟩ := hl.stored
  obtain ⟨hsr, hmr⟩ := hr.stored
  have hlen : r.length ≠ 0 := fun h => hnr (List.length_eq_zero_iff.mp h)
  have hpush : (SpillRuns.new limit).pushAll [l, r] = (do
      let run ← SpillRuns.mergeRuns A limit { file := encode l, len := l.length }
        { file := encode r, len := r.length }
      return { levels := [none, some run], limit, runsWritten := 2 }) := by
    rcases writeSorted_cases limit r none hsr (by simp) with ⟨hok, -⟩ | ⟨-, hno⟩
    · rw [SpillRuns.pushAll, pushSorted_new hsl hml hnl]
      simp only [SpillRuns.pushAll, SpillRuns.pushSorted, hok, bind, Except.bind, if_neg hlen,
        SpillRuns.carry]
      cases SpillRuns.mergeRuns A limit { file := encode l, len := l.length }
        { file := encode r, len := r.length } <;> rfl
    · exact absurd hmr hno
  rw [hpush]
  have hleft : Stored limit (⟨encode l, l.length⟩ : Run) l := ⟨rfl, rfl, hsl, hml⟩
  have hright : Stored limit (⟨encode r, r.length⟩ : Run) r := ⟨rfl, rfl, hsr, hmr⟩
  rcases mergeRuns_outcome hleft hright with
    ⟨run, hok, -, hread⟩ | ⟨e, -, hfail, hno⟩
  · rw [hok]
    exact ⟨fun _ => hread, fun _ => ⟨_, rfl⟩⟩
  · rw [hfail]
    constructor
    · intro hsome
      obtain ⟨s, hs⟩ := hsome
      cases hs
    · intro hboth
      refine absurd ⟨hboth.1, hboth.2, ?_⟩ hno
      intro k a b ha hb
      exact Nat.le_trans (LawfulSpill.memory_merge_reread a b) (hlive k a b ha hb)

/-- Under every limit, what is accepted comes back, and accepted runs whose
live states fit together merge, exactly when the states pass `fits`. -/
structure ReadsBackIff (A : Type) [SpillAccumulator A] [LawfulSpill A]
    (fits : Usize → A → Prop) : Prop where
  reads : ∀ (limit : Usize) (records : List (CellIndex × A)), Accepted limit records →
    (ReadsBack limit records ↔ ∀ p ∈ records, fits limit p.2)
  merges : ∀ (limit : Usize) (l r : List (CellIndex × A)), Accepted limit l →
    Accepted limit r → l ≠ [] → r ≠ [] →
    (∀ k a b, (k, a) ∈ l → (k, b) ∈ r → memoryBytes (merge a b) ≤ limit.val) →
    ((∃ s, (SpillRuns.new limit).pushAll [l, r] = .ok s) ↔
      (∀ p ∈ l, fits limit p.2) ∧ ∀ p ∈ r, fits limit p.2)

end Accepted

/-- Both engines: a state comes back exactly when each of its tables has at
most `limit / 64` entries. -/
theorem reads_back_iff_counts_fit (F M : Type) [Zero F] [Add F] [Sub F] [Mul F] [Div F]
    [BEq F] [LE F] [DecidableLE F] [PositiveAdd F] [Extremes F M]
    [Bytes.Codec F] [Bytes.Codec M] :
    ReadsBackIff (H3Accumulator F M) (fun limit acc =>
      ∀ q ∈ acc.quantiles,
        q.posBins.len ≤ limit.val / 64 ∧ q.negBins.len ≤ limit.val / 64) ∧
    ReadsBackIff (CategoricalAccumulator F) (fun limit acc =>
      acc.uniqueClasses ≤ limit.val / 64) :=
  ⟨⟨fun _ _ h => readsBack_iff h, fun _ _ _ hl hr hnl hnr => mergesBack_iff hl hr hnl hnr⟩,
    ⟨fun _ _ h => readsBack_iff h, fun _ _ _ hl hr hnl hnr => mergesBack_iff hl hr hnl hnr⟩⟩

/-- A cell that has seen `n` classes once each. -/
def countedClasses (n : Nat) : CategoricalAccumulator Nat :=
  CategoricalAccumulator.new.updateAll ((List.range n).map fun i => (Int64.ofNat i, 1))

theorem countedClasses_spec {n : Nat} (hn : n < 2 ^ 63) :
    (countedClasses n).uniqueClasses = n ∧
    (countedClasses n).heapCapacity =
      CategoricalAccumulator.capacityAfter 0 (countedClasses n).uniqueClasses := by
  have hpos : ∀ p ∈ (List.range n).map fun i => (Int64.ofNat i, 1), ¬ p.2 ≤ 0 := by simp
  obtain ⟨hkeys, -, hcap⟩ := CategoricalAccumulator.updateAll_spec _ .new hpos
  refine ⟨?_, hcap⟩
  have hinj : ∀ i ∈ List.range n, ∀ j ∈ List.range n, Int64.ofNat i = Int64.ofNat j → i = j := by
    intro i hi j hj h
    rw [List.mem_range] at hi hj
    have := congrArg Int64.toInt h
    rw [Int64.toInt_ofNat_of_lt (by omega), Int64.toInt_ofNat_of_lt (by omega)] at this
    omega
  have hnodup : ((List.range n).map Int64.ofNat).Nodup := List.Nodup.map_on hinj List.nodup_range
  have hperm : ((countedClasses n).classes.map Prod.fst).Perm ((List.range n).map Int64.ofNat) := by
    refine (List.perm_ext_iff_of_nodup (countedClasses n).classes_nodup hnodup).mpr fun k => ?_
    rw [countedClasses, hkeys]
    simp [CategoricalAccumulator.new, CategoricalAccumulator.classes, classesOf]
  simpa [CategoricalAccumulator.uniqueClasses] using hperm.length_eq

theorem memoryBytes_le_of_capacity {acc : CategoricalAccumulator Nat}
    (h : acc.heapCapacity ≤ 224) : acc.memoryBytes ≤ 8192 := by
  have htable : tableBytes acc.heapCapacity ≤ 7714 := tableBytes_mono h
  rw [CategoricalAccumulator.memoryBytes_eq, CategoricalAccumulator.sizeOfSelf,
    CategoricalAccumulator.sizeOfTable]
  split <;> omega

/-- The smallest budget a scan accepts leaves 8192 bytes to a resolution. -/
theorem countedClasses_memory : (countedClasses 200).memoryBytes ≤ 8192 := by
  obtain ⟨hlen, hcap⟩ := countedClasses_spec (n := 200) (by decide)
  have hstart : capacityFor 32 ≤ 224 := capacityFor_le (.inr (.inr ⟨5, rfl⟩)) (by decide)
  have hgrown : capacityFor 200 ≤ 224 := capacityFor_le (.inr (.inr ⟨5, rfl⟩)) (by decide)
  rw [hlen, CategoricalAccumulator.capacityAfter, if_neg (by decide)] at hcap
  exact memoryBytes_le_of_capacity (by omega)

theorem accepted_singleton {limit : Usize} (key : CellIndex) {acc : CategoricalAccumulator Nat}
    (h : acc.memoryBytes ≤ limit.val) : Accepted limit [(key, acc)] := by
  refine ⟨_, pushSorted_new (List.pairwise_singleton _ _) (fun p hp => ?_) (by simp)⟩
  rw [List.mem_singleton] at hp
  subst hp
  exact h

theorem countedClasses_accepted : Accepted 8192 [(7, countedClasses 200)] :=
  accepted_singleton 7 countedClasses_memory

/-- One cell with two hundred classes is written under a limit of 8192 bytes,
and cannot be read under it. -/
theorem accepted_run_not_read_back :
    ∃ (limit : Usize) (records : List (CellIndex × CategoricalAccumulator Nat)),
      Accepted limit records ∧ ¬ ReadsBack limit records := by
  refine ⟨8192, _, countedClasses_accepted, fun h => ?_⟩
  have hread := (readsBack_iff countedClasses_accepted).mp h _ (List.mem_singleton_self _)
  have hlen := (countedClasses_spec (n := 200) (by decide)).1
  have hcount : (countedClasses 200).uniqueClasses ≤ 128 := hread
  omega

/-- The same cell under twice the limit comes back. -/
theorem reads_back_two_hundred_classes :
    (∀ p ∈ [((7 : CellIndex), countedClasses 200)], p.2.uniqueClasses ≤ 16384 / 64) ∧
    ReadsBack 16384 [((7 : CellIndex), countedClasses 200)] := by
  have hfits : ∀ p ∈ [((7 : CellIndex), countedClasses 200)], p.2.uniqueClasses ≤ 16384 / 64 := by
    intro p hp
    rw [List.mem_singleton] at hp
    subst hp
    show (countedClasses 200).uniqueClasses ≤ _
    rw [(countedClasses_spec (n := 200) (by decide)).1]
    decide
  let _ : Extremes Nat Nat := ⟨id, 0, 0, min, max⟩
  exact ⟨hfits, ((reads_back_iff_counts_fit Nat Nat).2.reads 16384 _
    (accepted_singleton 7 (Nat.le_trans countedClasses_memory (by decide)))).mpr hfits⟩

/-! ## Room for every merge -/

namespace CategoricalAccumulator

variable {F : Type} [Zero F] [Add F] [BEq F] [LE F] [DecidableLE F] [PositiveAdd F]

/-- The classes of a state are among these, and its table has no more than this capacity. -/
structure Bounded (classes : Finset Int64) (capacity : Nat) (acc : CategoricalAccumulator F) :
    Prop where
  classes : ∀ c ∈ acc.classes.map Prod.fst, c ∈ classes
  capacity : acc.heapCapacity ≤ capacity

variable {classes : Finset Int64} {capacity : Nat} {acc other : CategoricalAccumulator F}

omit [Add F] [BEq F] [DecidableLE F] [PositiveAdd F] in
theorem Bounded.uniqueClasses_le (h : Bounded classes capacity acc) :
    acc.uniqueClasses ≤ classes.card := by
  have hcard := Finset.card_le_card (s := (acc.classes.map Prod.fst).toFinset) (t := classes)
    fun c hc => h.classes c (List.mem_toFinset.mp hc)
  rw [List.toFinset_card_of_nodup acc.classes_nodup, List.length_map] at hcard
  exact hcard

omit [BEq F] in
theorem Bounded.rebuilt (h : Bounded classes capacity acc) :
    Bounded classes capacity acc.rebuilt where
  classes := fun c hc => h.classes c ((acc.keys_rebuilt c).mp hc)
  capacity := acc.rebuilt_heapCapacity.trans h.capacity

/-- A merge makes room for no more classes than the two states have. -/
theorem Bounded.merge (hstart : capacityFor 32 ≤ capacity)
    (hroom : capacityFor classes.card ≤ capacity) (h : Bounded classes capacity acc)
    (hother : Bounded classes capacity other) : Bounded classes capacity (acc.merge other) := by
  rw [CategoricalAccumulator.merge]
  split
  · exact h
  · obtain ⟨hkeys, -, hcap⟩ := updateAll_spec other.classes acc other.positive
    have hclasses : ∀ c ∈ (acc.updateAll other.classes).classes.map Prod.fst, c ∈ classes := by
      intro c hc
      rcases (hkeys c).mp hc with hc | hc
      · exact h.classes c hc
      · exact hother.classes c hc
    have hunique := Finset.card_le_card
      (s := ((acc.updateAll other.classes).classes.map Prod.fst).toFinset) (t := classes)
      fun c hc => hclasses c (List.mem_toFinset.mp hc)
    rw [List.toFinset_card_of_nodup (acc.updateAll other.classes).classes_nodup,
      List.length_map] at hunique
    refine ⟨hclasses, ?_⟩
    have hgrown := (capacityFor_mono hunique).trans hroom
    have hbefore := h.capacity
    show (acc.updateAll other.classes).heapCapacity ≤ capacity
    rw [hcap, capacityAfter, uniqueClasses]
    split <;> omega

/-- With few classes for each key there is room for every merge. -/
theorem ample_of_bounded [Bytes.Codec F] {limit : Usize}
    {m : Contents (CategoricalAccumulator F)} {classes : CellIndex → Finset Int64} {capacity : Nat}
    (hstart : capacityFor 32 ≤ capacity)
    (hmemory : sizeOfSelf + (sizeOfTable + tableBytes capacity) ≤ limit.val)
    (hclasses : ∀ k, capacityFor (classes k).card ≤ capacity ∧
      (classes k).card ≤ limit.val / 64)
    (hm : ∀ k, ∀ acc ∈ m k, acc.Bounded (classes k) capacity) : Ample BuiltFrom limit m := by
  refine ample_of_keeps (P := fun k acc => Bounded (classes k) capacity acc)
    (fun k _ _ => Bounded.merge hstart (hclasses k).1) (fun _ _ => Bounded.rebuilt) ?_ hm
  intro k acc h
  refine ⟨?_, h.uniqueClasses_le.trans (hclasses k).2⟩
  have htable := tableBytes_mono h.capacity
  have hbytes : acc.memoryBytes ≤ limit.val := by
    rw [acc.memoryBytes_eq]
    split <;> omega
  exact hbytes

end CategoricalAccumulator

/-! ## Lossless for both engines -/

/-- Spilled runs of either engine merge losslessly, in any pattern of pushes. -/
theorem spilled_runs_merge_losslessly (F M : Type) [Zero F] [Add F] [Sub F] [Mul F] [Div F]
    [BEq F] [LE F] [DecidableLE F] [PositiveAdd F] [Extremes F M]
    [Bytes.Codec F] [Bytes.Codec M] (limit : Usize) :
    (∀ calls : List (List (CellIndex × H3Accumulator F M)),
      (∀ records ∈ calls, Keyed.Sorted records) → Lossless _ limit calls) ∧
    (∀ calls : List (List (CellIndex × CategoricalAccumulator F)),
      (∀ records ∈ calls, Keyed.Sorted records) → Lossless _ limit calls) :=
  ⟨roundTrip_lossless limit, roundTrip_lossless limit⟩

theorem countedClasses_bounded {n : Nat} (hn : n ≤ 4) :
    (countedClasses n).Bounded ((Finset.range 4).image Int64.ofNat) 224 := by
  obtain ⟨hlen, hcap⟩ := countedClasses_spec (n := n) (by omega)
  have hpos : ∀ p ∈ (List.range n).map fun i => (Int64.ofNat i, 1), ¬ p.2 ≤ 0 := by simp
  refine ⟨fun c hc => ?_, ?_⟩
  · rcases ((CategoricalAccumulator.updateAll_spec _ .new hpos).1 c).mp hc with hc | hc
    · simp [CategoricalAccumulator.new, CategoricalAccumulator.classes, classesOf] at hc
    · rw [List.map_map, List.mem_map] at hc
      obtain ⟨i, hi, rfl⟩ := hc
      rw [List.mem_range] at hi
      exact Finset.mem_image_of_mem _ (Finset.mem_range.mpr (by omega))
  · rw [hcap, hlen, CategoricalAccumulator.capacityAfter,
      if_pos ⟨rfl, hn.trans (by decide)⟩]
    exact Nat.zero_le _

/-- Three calls, two of which push cell 5: it comes back once, with the merge of both. -/
theorem spilled_runs_merge_late_contributions :
    let calls : List (List (CellIndex × CategoricalAccumulator Nat)) :=
      [[(3, countedClasses 1), (5, countedClasses 2)], [(5, countedClasses 4)],
        [(9, countedClasses 3)]]
    (∀ records ∈ calls, Keyed.Sorted records) ∧
      ∃ records, SpillRuns.roundTrip 8192 calls = .ok records ∧ Keyed.Sorted records ∧
        ∃ acc, (5, acc) ∈ records ∧ MergeOf {countedClasses 2, countedClasses 4} acc := by
  intro calls
  have hsorted : ∀ records ∈ calls, Keyed.Sorted records := by
    simp [calls, Keyed.Sorted]
  have hstart : capacityFor 32 ≤ 224 := capacityFor_le (.inr (.inr ⟨5, rfl⟩)) (by decide)
  have hample : Ample BuiltFrom 8192 (fun k => Keyed.statesFor k calls.flatten) := by
    let classes : CellIndex → Finset Int64 := fun _ => (Finset.range 4).image Int64.ofNat
    have hfew : ∀ k, (classes k).card ≤ 4 := fun k => Finset.card_image_le
    have hclasses : ∀ k, capacityFor (classes k).card ≤ 224 ∧ (classes k).card ≤ 8192 / 64 :=
      fun k => ⟨(capacityFor_mono ((hfew k).trans (by decide))).trans hstart,
        (hfew k).trans (by decide)⟩
    refine CategoricalAccumulator.ample_of_bounded hstart (by decide) hclasses fun k acc hacc => ?_
    have hin := Keyed.mem_statesFor.mp hacc
    simp only [calls, List.flatten_cons, List.flatten_nil, List.append_nil, List.cons_append,
      List.nil_append, List.mem_cons, Prod.mk.injEq, List.not_mem_nil, or_false] at hin
    rcases hin with ⟨-, rfl⟩ | ⟨-, rfl⟩ | ⟨-, rfl⟩ | ⟨-, rfl⟩ <;>
      exact countedClasses_bounded (by decide)
  let _ : Extremes Nat Nat := ⟨id, 0, 0, min, max⟩
  have hlossless := (spilled_runs_merge_losslessly Nat Nat 8192).2 calls hsorted
  obtain ⟨records, hok⟩ := hlossless.succeeds hample (by decide)
  obtain ⟨hincreasing, hkeys, hstates⟩ := hlossless.records records hok
  obtain ⟨acc, hacc⟩ := Keyed.mem_keys.mp ((hkeys 5).mpr (by simp [calls]))
  exact ⟨hsorted, records, hok, hincreasing, acc, hacc, hstates 5 acc hacc⟩

end RasterH3.Agg
