import RasterH3.Agg.Accumulator

/-!
# The categorical accumulator

A cell of a categorical raster counts the weight of each class it has seen. Up to sixteen
classes are kept inline; the seventeenth moves them all to a table, and the inline entries
are never looked at again.

What every state built by updates and merges has in common is carried by the structure: the
class weights are positive, because a weight that is not is never added, and a table starts
with room for 32 classes.

The weights are those of a number type with an addition that keeps positive weights positive
(`PositiveAdd`). That is true of `f64` and of exact arithmetic, and nothing else is used, so
that what is proved of counts and of orders of classes holds with rounding. Memory is
charged as the source charges it, for the boxed table and its capacity, since budgets are
compared with it.
-/

namespace RasterH3.Agg

open HashTable

/-- What adding positive weights has to satisfy, in `f64` as in exact
arithmetic. -/
class PositiveAdd (F : Type) [Zero F] [Add F] [LE F] : Prop where
  zero_add : ∀ w : F, ¬ w ≤ 0 → 0 + w = w
  add_pos : ∀ x w : F, ¬ x ≤ 0 → ¬ w ≤ 0 → ¬ x + w ≤ 0

instance : PositiveAdd Nat where
  zero_add w _ := Nat.zero_add w
  add_pos x w hx hw := by omega

def inlineCapacity : Nat := 16

/-- The classes of a state: those of the table once there is one. -/
def classesOf {F : Type} (inlineEntries : List (Int64 × F))
    (heapCounts : Option (Table Int64 F)) : List (Int64 × F) :=
  match heapCounts with
  | some heap => heap.entries
  | none => inlineEntries

structure CategoricalAccumulator (F : Type) [Zero F] [LE F] where
  /-- The first `inline_len` entries of the inline array. -/
  inlineEntries : List (Int64 × F)
  heapCounts : Option (Table Int64 F)
  totalCount : F
  inline_le : inlineEntries.length ≤ inlineCapacity
  inline_nodup : (inlineEntries.map Prod.fst).Nodup
  positive : ∀ p ∈ classesOf inlineEntries heapCounts, ¬ p.2 ≤ 0
  heap_capacity : ∀ heap ∈ heapCounts, capacityFor 32 ≤ heap.capacity

namespace CategoricalAccumulator

variable {F : Type} [Zero F] [LE F]

def new : CategoricalAccumulator F where
  inlineEntries := []
  heapCounts := none
  totalCount := 0
  inline_le := Nat.zero_le _
  inline_nodup := List.nodup_nil
  positive := fun _ h => nomatch h
  heap_capacity := fun _ h => nomatch h

/-- What `for_each_class` visits. -/
def classes (acc : CategoricalAccumulator F) : List (Int64 × F) :=
  classesOf acc.inlineEntries acc.heapCounts

def uniqueClasses (acc : CategoricalAccumulator F) : Nat := acc.classes.length

theorem classes_nodup (acc : CategoricalAccumulator F) :
    (acc.classes.map Prod.fst).Nodup := by
  rw [classes, classesOf.eq_def]
  split
  · next heap _ => exact heap.nodup
  · exact acc.inline_nodup

/-! ## Updates -/

section Update

variable [Add F] [PositiveAdd F]

/-- The table the seventeenth class moves everything to. -/
def spillTable (entries : List (Int64 × F)) : Table Int64 F :=
  (Table.withCapacity 32).insertAll entries

/-- What `update_weighted` does to the entries: add to the table if there is
one, else to the inline entry of the class, else take the next inline slot,
else move to a table. -/
def addEntry (inlineEntries : List (Int64 × F)) (heapCounts : Option (Table Int64 F))
    (category : Int64) (weight : F) : List (Int64 × F) × Option (Table Int64 F) :=
  match heapCounts with
  | some heap => (inlineEntries, some (heap.upsert category 0 (· + weight)))
  | none =>
      if category ∈ inlineEntries.map Prod.fst then
        (Table.mapAt category (· + weight) inlineEntries, none)
      else if inlineEntries.length < inlineCapacity then
        (inlineEntries ++ [(category, weight)], none)
      else (inlineEntries, some (spillTable (inlineEntries ++ [(category, weight)])))

omit [Zero F] [LE F] [Add F] [PositiveAdd F] in
theorem spillTable_entries {entries : List (Int64 × F)}
    (h : (entries.map Prod.fst).Nodup) : (spillTable entries).entries = entries := by
  have := Table.insertAll_entries entries (Table.withCapacity 32) (by simpa [Table.withCapacity])
  simpa [spillTable, Table.withCapacity] using this

omit [Zero F] [LE F] [Add F] [PositiveAdd F] in
theorem spillTable_capacity {entries : List (Int64 × F)}
    (h : (entries.map Prod.fst).Nodup) :
    (spillTable entries).capacity = max (capacityFor 32) (capacityFor entries.length) := by
  have hcap := (Table.capacity_upsertAll id (fun v _ => v) entries (Table.withCapacity 32)).2
  rw [← Table.insertAll, ← spillTable, Table.len, spillTable_entries h] at hcap
  exact hcap

theorem positive_mapAt {entries : List (Int64 × F)} {k : Int64} {w : F} (hw : ¬ w ≤ 0)
    (h : ∀ p ∈ entries, ¬ p.2 ≤ 0) :
    ∀ p ∈ Table.mapAt k (· + w) entries, ¬ p.2 ≤ 0 :=
  Table.forall_mapAt (P := fun x => ¬ x ≤ 0) h fun x hx => PositiveAdd.add_pos x w hx hw

omit [Add F] [PositiveAdd F] in
theorem positive_append {entries : List (Int64 × F)} {k : Int64} {w : F} (hw : ¬ w ≤ 0)
    (h : ∀ p ∈ entries, ¬ p.2 ≤ 0) : ∀ p ∈ entries ++ [(k, w)], ¬ p.2 ≤ 0 := by
  intro p hp
  rcases List.mem_append.mp hp with hp | hp
  · exact h p hp
  · rw [List.mem_singleton] at hp
    subst hp
    exact hw

theorem positive_upsert {t : Table Int64 F} {k : Int64} {w : F} (hw : ¬ w ≤ 0)
    (h : ∀ p ∈ t.entries, ¬ p.2 ≤ 0) :
    ∀ p ∈ (t.upsert k 0 (· + w)).entries, ¬ p.2 ≤ 0 :=
  Table.forall_upsert (P := fun x => ¬ x ≤ 0) h (by rwa [PositiveAdd.zero_add w hw])
    fun x hx => PositiveAdd.add_pos x w hx hw

/-- `update_weighted` with a weight that counts. -/
def add (acc : CategoricalAccumulator F) (category : Int64) (weight : F)
    (hw : ¬ weight ≤ 0) : CategoricalAccumulator F where
  inlineEntries := (addEntry acc.inlineEntries acc.heapCounts category weight).1
  heapCounts := (addEntry acc.inlineEntries acc.heapCounts category weight).2
  totalCount := acc.totalCount + weight
  inline_le := by
    have hle := acc.inline_le
    rw [addEntry.eq_def]
    split
    · exact hle
    · split
      · simpa [Table.mapAt] using hle
      · split
        · next hroom => simpa using hroom
        · exact hle
  inline_nodup := by
    rw [addEntry.eq_def]
    split
    · exact acc.inline_nodup
    · split
      · rw [Table.keys_mapAt]
        exact acc.inline_nodup
      · next hmem =>
          split
          · exact Table.keys_append_nodup _ acc.inline_nodup hmem
          · exact acc.inline_nodup
  positive := by
    have hpos := acc.positive
    rw [addEntry.eq_def]
    cases hheap : acc.heapCounts with
    | some heap => exact positive_upsert hw (by simpa [classesOf, hheap] using hpos)
    | none =>
        have hpos : ∀ p ∈ acc.inlineEntries, ¬ p.2 ≤ 0 := by
          simpa [classesOf, hheap] using hpos
        simp only []
        split
        · exact positive_mapAt hw hpos
        · next hmem =>
            split
            · exact positive_append hw hpos
            · simp only [classesOf,
                spillTable_entries (Table.keys_append_nodup weight acc.inline_nodup hmem)]
              exact positive_append hw hpos
  heap_capacity := by
    intro h hh
    rw [addEntry.eq_def] at hh
    cases hheap : acc.heapCounts with
    | some heap =>
        rw [hheap] at hh
        cases hh
        rw [Table.capacity_upsert]
        exact Nat.le_trans (acc.heap_capacity heap hheap) (Nat.le_max_left _ _)
    | none =>
        rw [hheap] at hh
        simp only [] at hh
        split at hh
        · cases hh
        · next hmem =>
            split at hh
            · cases hh
            · cases hh
              rw [spillTable_capacity (Table.keys_append_nodup _ acc.inline_nodup hmem)]
              exact Nat.le_max_left _ _

variable [DecidableLE F]

def updateWeighted (acc : CategoricalAccumulator F) (category : Int64) (weight : F) :
    CategoricalAccumulator F :=
  if hw : weight ≤ 0 then acc else acc.add category weight hw

def update [One F] (acc : CategoricalAccumulator F) (category : Int64) :
    CategoricalAccumulator F :=
  acc.updateWeighted category 1

def updateAll (acc : CategoricalAccumulator F) (entries : List (Int64 × F)) :
    CategoricalAccumulator F :=
  entries.foldl (fun acc p => acc.updateWeighted p.1 p.2) acc

def merge [BEq F] (acc other : CategoricalAccumulator F) : CategoricalAccumulator F :=
  if other.totalCount == 0 then acc else acc.updateAll other.classes

end Update

/-! ## Memory -/

/-- `size_of::<CategoricalAccumulator>()`: sixteen entries, a number, a pointer
and the padded length. -/
def sizeOfSelf : Nat := 280

/-- The header of the boxed table. -/
def sizeOfTable : Nat := 32

def heapBytes (acc : CategoricalAccumulator F) : Nat :=
  match acc.heapCounts with
  | none => 0
  | some heap => sizeOfTable + tableBytes heap.capacity

def memoryBytes (acc : CategoricalAccumulator F) : Nat := sizeOfSelf + acc.heapBytes

/-! ## Codec -/

section Codec

open Bytes.Codec

variable [Bytes.Codec F]

def writeState (acc : CategoricalAccumulator F) : List UInt8 :=
  encode acc.totalCount ++ Bytes.writeLe 8 acc.uniqueClasses ++
    acc.classes.flatMap fun p => Bytes.writeI64 p.1 ++ encode p.2

def readState [Add F] [PositiveAdd F] [DecidableLE F] (limit : Usize) (input : List UInt8) :
    Except SpillError (CategoricalAccumulator F × List UInt8) := do
  let (total, input) ← readExact decode input
  let (n, input) ← count limit input
  let (entries, input) ← readEntries Bytes.readI64 decode n input
  let acc := { (new : CategoricalAccumulator F).updateAll entries with totalCount := total }
  if limit.val < acc.memoryBytes then throw (.accumulatorExceeds "categorical")
  return (acc, input)

end Codec

end CategoricalAccumulator

instance {F : Type} [Zero F] [Add F] [BEq F] [LE F] [DecidableLE F] [PositiveAdd F]
    [Bytes.Codec F] : SpillAccumulator (CategoricalAccumulator F) where
  merge := CategoricalAccumulator.merge
  heapBytes := CategoricalAccumulator.heapBytes
  sizeOfSelf := CategoricalAccumulator.sizeOfSelf
  writeState := CategoricalAccumulator.writeState
  readState := CategoricalAccumulator.readState

end RasterH3.Agg
