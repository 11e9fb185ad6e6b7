import RasterH3.Lib.Related
import RasterH3.Pmtiles.Overview
import RasterH3.Proofs.ShardedMap
import RasterH3.Proofs.SpillMerge

/-!
# A map that spills loses nothing

A `BufferedMerge` holds what was pushed in two places, the live map and the runs. `Merged`
says that between them they hold exactly the pushed states, key by key, each once. A push
adds its state to the live map, and a spill moves the live map over, so `Merged` is kept no
matter when the spills come.

The second merge of an overview is the first one at another type. A list of cells is a state
whose merge is concatenation and whose codec writes the cells one after the other;
`LawfulSpill` for it comes down to the codec of the cells. Under it, a merge of lists is a
list of their entries, each once.

Whatever the budget, the records are then the keys that were pushed, in order, each with the
merge of exactly its states (`mergeAll_cases`), or a limit was met; where there is room for
every state that the merges build, no limit is. A list of cells is as long as the lists it
was put together from, which is how that is seen of the second merge (`ample_of_length`).
Nothing here knows what a cell or a tile is: the keys are ordered, and the states have a
codec and a merge.
-/

namespace RasterH3.Pmtiles

open Agg AccumulatorMerge SpillAccumulator LawfulSpill Keyed

variable {A : Type} [SpillAccumulator A]

/-! ## The codec of a list of cells -/

namespace TileCells

variable [LawfulSpill A]

def reread (t : TileCells A) : TileCells A := ⟨t.cells.map fun c => (c.1, LawfulSpill.reread c.2)⟩

/-- The same cells in the same order, with states that are the same. -/
def Same (t t' : TileCells A) : Prop :=
  List.Forall₂ (fun c c' => c.1 = c'.1 ∧ LawfulSpill.Same c.2 c'.2) t.cells t'.cells

def Readable (limit : Usize) (t : TileCells A) : Prop :=
  ∀ c ∈ t.cells, LawfulSpill.Readable limit c.2

omit [LawfulSpill A] in
theorem memoryBytes_eq (t : TileCells A) :
    memoryBytes t = 24 + (t.cells.length * sizeOfCell A +
      (t.cells.map fun c => AccumulatorMerge.heapBytes c.2).sum) := rfl

omit [LawfulSpill A] in
theorem memoryBytes_le {t : TileCells A} {c : CellIndex × A} (h : c ∈ t.cells) :
    memoryBytes c.2 ≤ memoryBytes t := by
  have hheap : AccumulatorMerge.heapBytes c.2 ≤
      (t.cells.map fun c => AccumulatorMerge.heapBytes c.2).sum :=
    List.single_le_sum (fun _ _ => Nat.zero_le _) _ (List.mem_map_of_mem h)
  have hlen : 1 * sizeOfCell A ≤ t.cells.length * sizeOfCell A :=
    Nat.mul_le_mul_right _ (List.length_pos_of_mem h)
  rw [memoryBytes_eq, memoryBytes]
  unfold sizeOfCell at hlen ⊢
  omega

theorem readCells_write {limit : Usize} {cells : List (CellIndex × A)} (rest : List UInt8)
    (hmem : ∀ c ∈ cells, memoryBytes c.2 ≤ limit.val)
    (hread : ∀ c ∈ cells, LawfulSpill.Readable limit c.2) :
    readCells limit cells.length (writeCells cells ++ rest) =
      .ok (cells.map fun c => (c.1, LawfulSpill.reread c.2), rest) := by
  induction cells with
  | nil => rfl
  | cons c cells ih =>
      obtain ⟨hmem, hmems⟩ := List.forall_mem_cons.mp hmem
      obtain ⟨hread, hreads⟩ := List.forall_mem_cons.mp hread
      simp only [List.length_cons, readCells, writeCells, List.flatMap_cons, List.append_assoc,
        Agg.readExact, Bytes.readFin64_writeFin64, bind, Except.bind]
      rw [read_write _ hmem hread]
      have htail := ih hmems hreads
      rw [writeCells] at htail
      simp only [htail]
      rfl

theorem readCells_unreadable {limit : Usize} {cells : List (CellIndex × A)} (rest : List UInt8)
    (hmem : ∀ c ∈ cells, memoryBytes c.2 ≤ limit.val)
    (hread : ¬ ∀ c ∈ cells, LawfulSpill.Readable limit c.2) :
    ∃ e : SpillError, e.isLimit ∧
      (readCells limit cells.length (writeCells cells ++ rest) :
        Except SpillError (List (CellIndex × A) × List UInt8)) = .error e := by
  induction cells with
  | nil => exact absurd (fun _ h => nomatch h) hread
  | cons c cells ih =>
      obtain ⟨hmem, hmems⟩ := List.forall_mem_cons.mp hmem
      simp only [List.length_cons, readCells, writeCells, List.flatMap_cons, List.append_assoc,
        Agg.readExact, Bytes.readFin64_writeFin64, bind, Except.bind]
      by_cases hfirst : LawfulSpill.Readable limit c.2
      · rw [read_write _ hmem hfirst]
        obtain ⟨e, he, hfail⟩ := ih hmems fun hall =>
          hread (List.forall_mem_cons.mpr ⟨hfirst, hall⟩)
        rw [writeCells] at hfail
        exact ⟨e, he, by simp only [hfail]⟩
      · obtain ⟨e, he, hfail⟩ := read_unreadable
          (List.flatMap (fun c => Bytes.writeFin64 c.1 ++ SpillAccumulator.writeState c.2) cells ++
            rest) hmem hfirst
        exact ⟨e, he, by simp only [hfail]⟩

omit [LawfulSpill A] in
/-- The count of a list that is within the limit passes. -/
theorem readState_write {limit : Usize} {t : TileCells A} (rest : List UInt8)
    (hmem : memoryBytes t ≤ limit.val) :
    (readState limit (writeState t ++ rest) : Except SpillError (TileCells A × List UInt8)) =
      (readCells limit t.cells.length (writeCells t.cells ++ rest)).map fun r => (⟨r.1⟩, r.2) := by
  rw [memoryBytes_eq] at hmem
  have hsize : 0 < sizeOfCell A := by
    unfold sizeOfCell
    omega
  have hone : t.cells.length * 1 ≤ t.cells.length * sizeOfCell A :=
    Nat.mul_le_mul_left _ hsize
  have hlimit := limit.isLt
  have hcount : Bytes.readLe 8 (Bytes.writeLe 8 t.cells.length ++ (writeCells t.cells ++ rest)) =
      some (t.cells.length, writeCells t.cells ++ rest) :=
    Bytes.readLe_writeLe_of_lt (by omega) _
  have hfits : ¬ limit.val / sizeOfCell A < t.cells.length := by
    rw [Nat.not_lt, Nat.le_div_iff_mul_le hsize]
    omega
  rw [readState, writeState, List.append_assoc]
  simp only [Agg.readExact, hcount, bind, Except.bind, if_neg hfits]
  rfl

theorem memory_reread (t : TileCells A) : memoryBytes t.reread ≤ memoryBytes t := by
  have hheap : ((t.reread.cells.map fun c => AccumulatorMerge.heapBytes c.2)).sum ≤
      (t.cells.map fun c => AccumulatorMerge.heapBytes c.2).sum := by
    rw [reread, List.map_map]
    refine List.sum_le_sum fun c _ => ?_
    have hcell := LawfulSpill.memory_reread c.2
    rw [memoryBytes, memoryBytes] at hcell
    exact Nat.le_of_add_le_add_left hcell
  have hlen : t.reread.cells.length = t.cells.length := List.length_map _
  rw [memoryBytes_eq, memoryBytes_eq, hlen]
  omega

theorem merge_reread (t t' : TileCells A) : t.reread.merge t'.reread = (t.merge t').reread := by
  simp [reread, merge]

instance : LawfulSpill (TileCells A) where
  Same := Same
  reread := reread
  Readable := Readable
  read_write := fun {limit t} rest hmem hread => by
    refine (readState_write rest hmem).trans ?_
    rw [readCells_write rest (fun c hc => (memoryBytes_le hc).trans hmem) hread]
    rfl
  read_unreadable := fun {limit t} rest hmem hread => by
    obtain ⟨e, he, hfail⟩ := readCells_unreadable rest
      (fun c hc => (memoryBytes_le hc).trans hmem) hread
    refine ⟨e, he, (readState_write rest hmem).trans ?_⟩
    rw [hfail]
    rfl
  same_reread := fun t => by
    refine List.forall₂_map_left_iff.mpr (List.forall₂_same.mpr fun c _ => ⟨rfl, ?_⟩)
    exact LawfulSpill.same_reread c.2
  memory_reread := memory_reread
  memory_merge_reread := fun t t' => by
    rw [show AccumulatorMerge.merge t.reread t'.reread = (t.merge t').reread from merge_reread t t']
    exact memory_reread (t.merge t')

/-- The entries of a list are these, in some order; each may have been through files. -/
def Entries (S : Multiset (CellIndex × A)) (t : TileCells A) : Prop :=
  ∃ l : List (CellIndex × A), (l : Multiset (CellIndex × A)) = S ∧
    List.Forall₂ (fun c c' => c.1 = c'.1 ∧ MergeOf {c'.2} c.2) t.cells l

theorem entries_self (t : TileCells A) : Entries t.cells t :=
  ⟨t.cells, rfl, List.forall₂_same.mpr fun c _ => ⟨rfl, .single c.2⟩⟩

theorem entries_merging : Agg.Merging (Entries (A := A)) where
  merge := by
    rintro S T a b ⟨l, rfl, hl⟩ ⟨r, rfl, hr⟩
    exact ⟨l ++ r, rfl, List.rel_append hl hr⟩
  same := by
    rintro S a b ⟨l, rfl, hl⟩ hsame
    refine ⟨l, rfl, Related.trans (fun c c' c'' hc hc' => ?_) hsame hl⟩
    exact ⟨hc.1.trans hc'.1, hc'.2.same hc.2⟩

/-- A list is as long as the lists it was put together from. -/
theorem length_of_built {S : Multiset (TileCells A)} {t : TileCells A} (h : BuiltFrom S t) :
    t.cells.length = (S.map fun x => x.cells.length).sum := by
  induction h with
  | pushed t => simp
  | merge _ _ iha ihb =>
      rw [Multiset.map_add, Multiset.sum_add, ← iha, ← ihb]
      exact List.length_append
  | reread _ ih => exact (List.length_map _).trans ih

/-- Short lists of cells that stay small leave room for every merge. -/
theorem ample_of_length {P : A → Prop} {limit : Usize} {heap : Nat}
    (hreread : ∀ a, P a → P (LawfulSpill.reread a))
    (hP : ∀ a, P a → AccumulatorMerge.heapBytes a ≤ heap ∧ LawfulSpill.Readable limit a)
    {m : Contents (TileCells A)} (hm : ∀ k, ∀ t ∈ m k, ∀ c ∈ t.cells, P c.2)
    (hlen : ∀ k, 24 + ((m k).map fun t => t.cells.length).sum * (sizeOfCell A + heap) ≤
      limit.val) : Ample BuiltFrom limit m := by
  intro k S t hS ht
  have hcells : ∀ c ∈ t.cells, P c.2 := by
    refine ht.keeps (P := fun t => ∀ c ∈ t.cells, P c.2) ?_ ?_
      fun x hx => hm k x (Multiset.mem_of_le hS hx)
    · intro a b ha hb c hc
      exact (List.mem_append.mp hc).elim (ha c) (hb c)
    · intro a ha c hc
      obtain ⟨c', hc', rfl⟩ := List.mem_map.mp hc
      exact hreread _ (ha c' hc')
  refine ⟨?_, fun c hc => (hP c.2 (hcells c hc)).2⟩
  have hheap : (t.cells.map fun c => AccumulatorMerge.heapBytes c.2).sum ≤
      t.cells.length * heap := by
    refine (List.sum_le_card_nsmul _ heap ?_).trans ?_
    · intro n hn
      obtain ⟨c, hc, rfl⟩ := List.mem_map.mp hn
      exact (hP c.2 (hcells c hc)).1
    · rw [List.length_map, smul_eq_mul]
  have hle : t.cells.length ≤ ((m k).map fun t => t.cells.length).sum := by
    obtain ⟨rest, hrest⟩ := Multiset.le_iff_exists_add.mp hS
    rw [length_of_built ht, hrest, Multiset.map_add, Multiset.sum_add]
    exact Nat.le_add_right _ _
  have hall := Nat.mul_le_mul_right (sizeOfCell A + heap) hle
  have hbound := hlen k
  rw [memoryBytes_eq]
  rw [Nat.mul_add] at hall
  omega

end TileCells

/-- A merge of states stands for whatever its parts stand for. -/
theorem MergeOf.lift [LawfulSpill A] {X : Type} {R : Multiset X → A → Prop} (hR : Agg.Merging R)
    {f : A → Multiset X} {S : Multiset A} {a : A} (h : MergeOf S a) (hf : ∀ x ∈ S, R (f x) x) :
    R (S.bind f) a := by
  induction h with
  | single a =>
      rw [Multiset.singleton_bind]
      exact hf a (Multiset.mem_singleton_self a)
  | merge _ _ iha ihb =>
      rw [Multiset.add_bind]
      exact hR.merge (iha fun x hx => hf x (Multiset.mem_add.mpr (.inl hx)))
        (ihb fun x hx => hf x (Multiset.mem_add.mpr (.inr hx)))
  | same _ hsame ih => exact hR.same (ih hf) hsame

/-! ## A map that spills -/

namespace BufferedMerge

variable [LawfulSpill A]

omit [LawfulSpill A] in
theorem pushAll_append (b : BufferedMerge A) (l r : List (CellIndex × A)) :
    b.pushAll (l ++ r) = b.pushAll l >>= fun b => b.pushAll r :=
  List.foldlM_append

/-- The live states, key by key. -/
structure Live (map : ShardedResolutionMap A Unit) (m : Contents A) : Prop where
  present : ∀ k a, map.get k = some a → BuiltFrom (m k) a
  absent : ∀ k, map.get k = none → m k = 0

theorem Live.holds {map : ShardedResolutionMap A Unit} {m : Contents A} (h : Live map m) :
    Sorted map.takeSorted.1 ∧ Holds BuiltFrom map.takeSorted.1 m := by
  obtain ⟨hsorted, hmem⟩ := map.takeSorted_cells
  refine ⟨hsorted, fun k a ha => h.present k a ((hmem k a).mp ha), fun k hk => h.absent k ?_⟩
  cases hget : map.get k with
  | none => rfl
  | some a => exact absurd (mem_keys_of_mem ((hmem k a).mpr hget)) hk

theorem live_takeSorted (map : ShardedResolutionMap A Unit) :
    Live map.takeSorted.2 (0 : Contents A) where
  present := fun k a h => by
    rw [ShardedResolutionMap.get_takeSorted] at h
    cases h
  absent := fun _ _ => rfl

theorem Live.push {map : ShardedResolutionMap A Unit} {m : Contents A} (h : Live map m)
    (key : CellIndex) (value : A) :
    Live (map.mergeOwnedWith key value ()).2 (m + fun k => statesFor k [(key, value)]) where
  present := by
    intro k a hk
    rw [ShardedResolutionMap.get_mergeOwnedWith] at hk
    simp only [Pi.add_apply, statesFor_cons, statesFor_nil, add_zero]
    by_cases hkey : k = key
    · subst hkey
      rw [if_pos rfl] at hk ⊢
      cases hget : map.get k with
      | none =>
          rw [hget] at hk
          cases hk
          rw [h.absent k hget, zero_add]
          exact .pushed value
      | some existing =>
          rw [hget] at hk
          cases hk
          exact .merge (h.present k existing hget) (.pushed value)
    · rw [if_neg hkey] at hk
      rw [if_neg (Ne.symm hkey), add_zero]
      exact h.present k a hk
  absent := by
    intro k hk
    rw [ShardedResolutionMap.get_mergeOwnedWith] at hk
    simp only [Pi.add_apply, statesFor_cons, statesFor_nil, add_zero]
    by_cases hkey : k = key
    · rw [if_pos hkey] at hk
      cases hk
    · rw [if_neg hkey] at hk
      rw [if_neg (Ne.symm hkey), add_zero]
      exact h.absent k hk

/-- The live map and the runs hold `m` between them. -/
structure Merged (b : BufferedMerge A) (m : Contents A) : Prop where
  parts : ∃ m₁ m₂, m = m₁ + m₂ ∧ RunsHold BuiltFrom b.runs m₁ ∧ Live b.map m₂
  limit : b.runs.limit = noLimit

theorem merged_new (structureBytes : Nat → Nat) (budget : Nat) :
    Merged (new A structureBytes budget) 0 where
  parts := by
    refine ⟨0, 0, (add_zero 0).symm, runsHold_new noLimit, fun k a hk => ?_, fun _ _ => rfl⟩
    rw [new, ShardedResolutionMap.get_setEvictionEnabled, ShardedResolutionMap.get_new] at hk
    cases hk
  limit := rfl

theorem push_merged {b : BufferedMerge A} {m : Contents A} (h : Merged b m) (key : CellIndex)
    (value : A) :
    (∃ b', b.push key value = .ok b' ∧ Merged b' (m + fun k => statesFor k [(key, value)]) ∧
      b'.runs.runsWritten ≤ b.runs.runsWritten + 1) ∨
    ∃ e : SpillError, e.isLimit ∧ b.push key value = .error e ∧
      ¬ (Ample BuiltFrom noLimit (m + fun k => statesFor k [(key, value)]) ∧
        b.runs.runsWritten + 1 < 2 ^ 64) := by
  obtain ⟨⟨m₁, m₂, rfl, hruns, hlive⟩, hlimit⟩ := h
  have hpushed := hlive.push key value
  rw [add_assoc]
  unfold push
  simp only
  split
  next =>
    obtain ⟨hsorted, hholds⟩ := hpushed.holds
    rcases pushSorted_holds BuiltFrom.kept hruns hsorted hholds with
      ⟨runs, hok, hruns', hlimit', hwritten⟩ | ⟨e, he, hfail, hno⟩
    · refine .inl ⟨_, by simp only [hok, bind, Except.bind]; rfl, ⟨⟨_, 0, (add_zero _).symm, hruns',
        live_takeSorted _⟩, hlimit'.trans hlimit⟩, ?_⟩
      show runs.runsWritten ≤ _
      split at hwritten <;> omega
    · refine .inr ⟨e, he, by simp only [hfail, bind, Except.bind], ?_⟩
      rwa [hlimit] at hno
  next => exact .inl ⟨_, rfl, ⟨⟨m₁, _, rfl, hruns, hpushed⟩, hlimit⟩, Nat.le_succ _⟩

theorem pushAll_merged (pushes : List (CellIndex × A)) {b : BufferedMerge A} {m : Contents A}
    (h : Merged b m) :
    (∃ b', b.pushAll pushes = .ok b' ∧ Merged b' (m + fun k => statesFor k pushes) ∧
      b'.runs.runsWritten ≤ b.runs.runsWritten + pushes.length) ∨
    ∃ e : SpillError, e.isLimit ∧ b.pushAll pushes = .error e ∧
      ¬ (Ample BuiltFrom noLimit (m + fun k => statesFor k pushes) ∧
        b.runs.runsWritten + pushes.length < 2 ^ 64) := by
  induction pushes generalizing b m with
  | nil =>
      refine .inl ⟨b, rfl, ?_, Nat.le_refl _⟩
      have hzero : (m + fun k => statesFor k ([] : List (CellIndex × A))) = m := by
        funext k
        simp
      rwa [hzero]
  | cons p pushes ih =>
      have hsum : (m + fun k => statesFor k (p :: pushes)) =
          (m + fun k => statesFor k [(p.1, p.2)]) + fun k => statesFor k pushes := by
        funext k
        simp only [Pi.add_apply, statesFor_cons, statesFor_nil, add_zero, add_assoc]
      rw [hsum, pushAll, List.foldlM_cons]
      rcases push_merged h p.1 p.2 with ⟨b', hok, h', hwritten⟩ | ⟨e, he, hfail, hno⟩
      · simp only [hok, bind, Except.bind]
        rcases ih h' with ⟨b'', hok', h'', hwritten'⟩ | ⟨e, he, hfail, hno⟩
        · refine .inl ⟨b'', hok', h'', ?_⟩
          rw [List.length_cons]
          omega
        · refine .inr ⟨e, he, hfail, fun hroom => hno ⟨hroom.1, ?_⟩⟩
          have hcount := hroom.2
          rw [List.length_cons] at hcount
          omega
      · simp only [hfail, bind, Except.bind]
        refine .inr ⟨e, he, rfl, fun hroom => hno ⟨hroom.1.left, ?_⟩⟩
        have hcount := hroom.2
        rw [List.length_cons] at hcount
        omega

theorem finish_merged {b : BufferedMerge A} {m : Contents A} (h : Merged b m) :
    (∃ records, b.finish = .ok records ∧ Sorted records ∧ Holds BuiltFrom records m) ∨
    ∃ e : SpillError, e.isLimit ∧ b.finish = .error e ∧
      ¬ (Ample BuiltFrom noLimit m ∧ b.runs.runsWritten + 1 < 2 ^ 64) := by
  obtain ⟨⟨m₁, m₂, rfl, hruns, hlive⟩, hlimit⟩ := h
  obtain ⟨hsorted, hholds⟩ := hlive.holds
  unfold finish
  split
  next =>
    rcases pushSorted_holds BuiltFrom.kept hruns hsorted hholds with
      ⟨runs, hok, hruns', hlimit', -⟩ | ⟨e, he, hfail, hno⟩
    · simp only [hok, bind, Except.bind]
      rcases readBack_holds BuiltFrom.kept hruns' with
        ⟨records, hread, hsorted', hholds'⟩ | ⟨e, he, hfail, hno⟩
      · exact .inl ⟨records, hread, hsorted', hholds'⟩
      · rw [hlimit', hlimit] at hno
        exact .inr ⟨e, he, hfail, fun hample => hno hample.1⟩
    · refine .inr ⟨e, he, by simp only [hfail, bind, Except.bind], ?_⟩
      rwa [hlimit] at hno
  next hspilled =>
    have hzero : b.runs.runsWritten = 0 := by simpa [SpillRuns.hasSpilled] using hspilled
    obtain rfl := hruns.spilled hzero
    refine .inl ⟨_, rfl, hsorted, ?_⟩
    rwa [zero_add]

/-- Whatever the budget, the records are the keys that were pushed, in order, each
with the merge of exactly its states. -/
theorem mergeAll_cases (structureBytes : Nat → Nat) (budget : Nat)
    (pushes : List (CellIndex × A)) :
    (∃ records, mergeAll structureBytes budget pushes = .ok records ∧ Sorted records ∧
      Holds BuiltFrom records fun k => statesFor k pushes) ∨
    ∃ e : SpillError, e.isLimit ∧ mergeAll structureBytes budget pushes = .error e ∧
      ¬ (Ample BuiltFrom noLimit (fun k => statesFor k pushes) ∧ pushes.length + 1 < 2 ^ 64) := by
  have hall := pushAll_merged pushes (merged_new structureBytes budget (A := A))
  rw [zero_add] at hall
  rcases hall with ⟨b, hok, hb, hwritten⟩ | ⟨e, he, hfail, hno⟩
  · rw [show (new A structureBytes budget).runs.runsWritten = 0 from rfl, Nat.zero_add] at hwritten
    have hall : mergeAll structureBytes budget pushes = b.finish := by
      simp only [mergeAll, hok, bind, Except.bind]
    rw [hall]
    rcases finish_merged hb with ⟨records, hok, hsorted, hholds⟩ | ⟨e, he, hfail, hno⟩
    · exact .inl ⟨records, hok, hsorted, hholds⟩
    · refine .inr ⟨e, he, hfail, fun ⟨hample, hcount⟩ => hno ⟨hample, ?_⟩⟩
      omega
  · refine .inr ⟨e, he, by simp only [mergeAll, hfail, bind, Except.bind], ?_⟩
    refine fun ⟨hample, hcount⟩ => hno ⟨hample, ?_⟩
    rw [show (new A structureBytes budget).runs.runsWritten = 0 from rfl]
    omega

/-- What `finish` hands out for these pushes. -/
structure Complete (pushes : List (CellIndex × A))
    (out : Except SpillError (List (CellIndex × A))) : Prop where
  /-- Every pushed key once, in order, with the merge of exactly its states. -/
  records : ∀ records, out = .ok records → Sorted records ∧
    (∀ k, k ∈ keys records ↔ k ∈ keys pushes) ∧
    ∀ k a, (k, a) ∈ records → MergeOf (statesFor k pushes) a
  /-- The only errors are those of a full address space. -/
  errors : ∀ e : SpillError, out = .error e → e.isLimit
  succeeds : Ample BuiltFrom noLimit (fun k => statesFor k pushes) → pushes.length + 1 < 2 ^ 64 →
    ∃ records, out = .ok records

theorem holds_keys_iff {records pushes : List (CellIndex × A)}
    (h : Holds MergeOf records fun k => statesFor k pushes) (k : CellIndex) :
    k ∈ keys records ↔ k ∈ keys pushes := by
  rw [Holds.mem_keys_iff h, Ne, statesFor_eq_zero, not_not]

theorem mergeAll_complete (structureBytes : Nat → Nat) (budget : Nat)
    (pushes : List (CellIndex × A)) :
    Complete pushes (mergeAll structureBytes budget pushes) := by
  rcases mergeAll_cases structureBytes budget pushes with
    ⟨records, hok, hsorted, hholds⟩ | ⟨e, he, hfail, hno⟩
  · have hmerged := hholds.imp fun _ _ => BuiltFrom.mergeOf
    refine ⟨fun records' heq => ?_, fun e heq => ?_, fun _ _ => ⟨records, hok⟩⟩
    · rw [hok] at heq
      cases heq
      exact ⟨hsorted, holds_keys_iff hmerged, hmerged.present⟩
    · rw [hok] at heq
      cases heq
  · refine ⟨fun records' heq => ?_, fun e' heq => ?_, fun hample hcount => ?_⟩
    · rw [hfail] at heq
      cases heq
    · rw [hfail] at heq
      cases heq
      exact he
    · exact absurd ⟨hample, hcount⟩ hno

end BufferedMerge

end RasterH3.Pmtiles
