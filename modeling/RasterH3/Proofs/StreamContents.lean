import Mathlib.Algebra.BigOperators.Pi
import RasterH3.Proofs.SpillMerge
import RasterH3.Proofs.StreamSteps

/-!
# Where the contributions are

At any moment a contribution to a cell of a resolution is in one of four places: the live
map, the spilled runs, the reader that emits the resolution at the end, or what has been
emitted. `Split` names the four parts and `Holding` ties them to the state. The parts change
as the state does: merging adds to the live part, spilling moves it into the runs, opening a
reader moves either into the reader, and emitting moves one cell out. A cell of which
something is out has nothing anywhere else, and this is what makes an emitted cell final.

What a state represents is again a parameter, `R`. Merging has to respect it, a trip through
a file has to, and no state represents nothing.

There is a lemma for each kind of step, and it says how the four parts change. A run of the
controller never needs more of the maps and the files than that. The parts are multisets of
contributions for each cell, so that moving one is a subtraction in one place and an
addition in another, and the total stays.
-/

namespace RasterH3.Agg

open AccumulatorMerge SpillAccumulator Keyed

variable {A L C X : Type} {n : Nat} [SpillAccumulator A] [LawfulSpill A]

/-- A reading that also tells a state from no state. -/
structure Represents (R : Multiset X → A → Prop) : Prop extends Merging R where
  ne_zero : ∀ {S a}, R S a → S ≠ 0

theorem MergeOf.represents : Represents (MergeOf (A := A)) where
  toMerging := MergeOf.merging
  ne_zero := MergeOf.ne_zero

/-! ## The four parts -/

structure Split (X : Type) where
  live : Contents X
  spilled : Contents X
  read : Contents X
  out : Contents X

def Split.total (p : Split X) : Contents X := p.live + p.spilled + p.read + p.out

/-- What a reader still has to give. -/
def Reads (R : Multiset X → A → Prop) (limit : Usize) :
    Option (FinalCells A) → Contents X → Prop
  | none, m => m = 0
  | some (.memory l), m => Sorted l ∧ Keyed.Holds R l m
  | some (.disk r), m => ∃ l, r = readerOf limit l ∧ Sorted l ∧ Within limit l ∧ Keyed.Holds R l m

variable [LinearOrder L]

structure Holding (R : Multiset X → A → Prop) (m : ShardedResolutionMap A L) (runs : SpillRuns)
    (reader : Option (FinalCells A)) (done : List (CellIndex × A)) (p : Split X) : Prop where
  live : ∀ k a, m.get k = some a → R (p.live k) a
  dead : ∀ k, m.get k = none → p.live k = 0
  spilled : RunsHold R runs p.spilled
  read : Reads R runs.limit reader p.read
  out : Keyed.Holds R done p.out
  nodup : (keys done).Nodup
  final : ∀ k ∈ keys done, p.live k = 0 ∧ p.spilled k = 0 ∧ p.read k = 0

namespace Holding

variable {R : Multiset X → A → Prop} {m q : ShardedResolutionMap A L} {runs runs' : SpillRuns}
  {reader : Option (FinalCells A)} {done : List (CellIndex × A)} {p : Split X}

omit [LawfulSpill A] in
/-- Emitting a cell whose contributions are all in one place. -/
theorem emit (h : Holding R m runs reader done p) {key : CellIndex} {acc : A}
    {reader' : Option (FinalCells A)} {live' read' : Contents X} {S : Multiset X} (hacc : R S acc)
    (hall : p.total key = S) (hout : key ∉ keys done)
    (hlive : ∀ k a, q.get k = some a → R (live' k) a) (hdead : ∀ k, q.get k = none → live' k = 0)
    (hread : Reads R runs.limit reader' read')
    (hkey : live' key = 0 ∧ p.spilled key = 0 ∧ read' key = 0)
    (hrest : ∀ k, k ≠ key → live' k = p.live k ∧ read' k = p.read k) :
    ∃ p' : Split X, p'.total = p.total ∧ p'.live = live' ∧ p'.spilled = p.spilled ∧
      Holding R q runs reader' (done ++ [(key, acc)]) p' := by
  have hzero : p.out key = 0 := h.out.absent key hout
  refine ⟨⟨live', p.spilled, read', Function.update p.out key S⟩, ?_, rfl, rfl, hlive, hdead,
    h.spilled, hread, ?_, ?_, ?_⟩
  · funext k
    by_cases hk : k = key
    · subst hk
      simp [Split.total, hkey, ← hall]
    · simp [Split.total, hrest k hk, Function.update_of_ne hk]
  · refine ⟨fun k a hmem => ?_, fun k hk => ?_⟩
    · show R (Function.update p.out key S k) a
      rcases List.mem_append.mp hmem with hmem | hmem
      · have hne : k ≠ key := fun heq => hout (heq ▸ mem_keys_of_mem hmem)
        rw [Function.update_of_ne hne]
        exact h.out.present k a hmem
      · cases List.mem_singleton.mp hmem
        rwa [Function.update_self]
    · show Function.update p.out key S k = 0
      rw [keys_append, List.mem_append, not_or] at hk
      rw [Function.update_of_ne (fun heq => hk.2 (by simp [heq]))]
      exact h.out.absent k hk.1
  · rw [keys_append]
    refine List.nodup_append.mpr ⟨h.nodup, by simp, fun k hk q hq heq => ?_⟩
    simp only [keys_cons, keys_nil, List.mem_singleton] at hq
    exact hout (hq ▸ heq ▸ hk)
  · intro k hk
    rw [keys_append, List.mem_append] at hk
    by_cases heq : k = key
    · rw [heq]
      exact hkey
    · have hk : k ∈ keys done := hk.resolve_right (by simpa using heq)
      simp only
      rw [(hrest k heq).1, (hrest k heq).2]
      exact h.final k hk

/-- A live cell is popped and emitted. -/
theorem evict (hR : Represents R) (h : Holding R m runs reader done p) {key : CellIndex} {acc : A}
    (hlive : m.get key = some acc) (hspilled : p.spilled key = 0) (hread : p.read key = 0)
    (hget : ∀ k, q.get k = if k = key then none else m.get k) :
    ∃ p' : Split X, p'.total = p.total ∧
      p'.live = Function.update p.live key 0 ∧ p'.spilled = p.spilled ∧
      Holding R q runs reader (done ++ [(key, acc)]) p' := by
  have hne : p.live key ≠ 0 := hR.ne_zero (h.live key acc hlive)
  have hout : key ∉ keys done := fun hk => hne (h.final key hk).1
  refine h.emit (h.live key acc hlive) ?_ hout (fun k a hk => ?_) (fun k hk => ?_) h.read
    ⟨Function.update_self .., hspilled, hread⟩ fun k hk => ⟨Function.update_of_ne hk .., rfl⟩
  · simp [Split.total, hspilled, hread, h.out.absent key hout]
  · rw [hget k] at hk
    split at hk
    next => cases hk
    next hne =>
      rw [Function.update_of_ne hne]
      exact h.live k a hk
  · rw [hget k] at hk
    by_cases hne : k = key
    · rw [hne, Function.update_self]
    · rw [if_neg hne] at hk
      rw [Function.update_of_ne hne]
      exact h.dead k hk

/-- A worker's state is merged into the live map. -/
theorem merge (hR : Represents R) (h : Holding R m runs reader done p) {key : CellIndex} {acc : A}
    {S : Multiset X} (hacc : R S acc) (hout : key ∉ keys done)
    (hget : ∀ k, q.get k = if k = key then
      some ((m.get key).elim acc fun existing => AccumulatorMerge.merge existing acc)
      else m.get k) :
    Holding R q runs reader done { p with live := p.live + Pi.single key S } where
  live := fun k a hk => by
    show R ((p.live + Pi.single key S : Contents X) k) a
    rw [hget k] at hk
    by_cases heq : k = key
    · subst heq
      rw [if_pos rfl, Option.some_inj] at hk
      rw [Pi.add_apply, Pi.single_eq_same, ← hk]
      cases hm : m.get k with
      | none =>
          rw [h.dead k hm, zero_add]
          exact hacc
      | some existing => exact hR.merge (h.live k existing hm) hacc
    · rw [if_neg heq] at hk
      rw [Pi.add_apply, Pi.single_eq_of_ne heq, add_zero]
      exact h.live k a hk
  dead := fun k hk => by
    show (p.live + Pi.single key S : Contents X) k = 0
    rw [hget k] at hk
    by_cases heq : k = key
    · rw [if_pos heq] at hk
      cases hk
    · rw [if_neg heq] at hk
      rw [Pi.add_apply, Pi.single_eq_of_ne heq, add_zero]
      exact h.dead k hk
  spilled := h.spilled
  read := h.read
  out := h.out
  nodup := h.nodup
  final := fun k hk => by
    have hne : k ≠ key := fun heq => hout (heq ▸ hk)
    simp only [Pi.add_apply, Pi.single_eq_of_ne hne, add_zero]
    exact h.final k hk

omit [LawfulSpill A] in
/-- What comes out of the map in order represents its live part. -/
theorem takeSorted (h : Holding R m runs reader done p) :
    Keyed.Holds R m.takeSorted.1 p.live where
  present := fun k a hk => h.live k a ((m.takeSorted_cells.2 k a).mp hk)
  absent := fun k hk => h.dead k (by
    cases hm : m.get k with
    | none => rfl
    | some a => exact absurd (mem_keys_of_mem ((m.takeSorted_cells.2 k a).mpr hm)) hk)

/-- The live cells are written out as a run. -/
theorem spill (hR : Represents R) (h : Holding R m runs reader done p)
    (hempty : ∀ k, q.get k = none) (hpush : runs.pushSorted m.takeSorted.1 = .ok runs') :
    Holding R q runs' reader done { p with live := 0, spilled := p.spilled + p.live } ∧
      runs'.limit = runs.limit := by
  rcases pushSorted_holds hR.toMerging.kept h.spilled m.takeSorted_cells.1 h.takeSorted with
    ⟨runs'', hok, hholds, hlimit, -⟩ | ⟨e, -, hfail, -⟩
  · rw [hpush] at hok
    cases hok
    refine ⟨⟨fun k a hk => ?_, fun _ _ => rfl, hholds, hlimit ▸ h.read, h.out, h.nodup,
      fun k hk => ?_⟩, hlimit⟩
    · rw [hempty k] at hk
      cases hk
    · obtain ⟨hl, hs, hr⟩ := h.final k hk
      exact ⟨rfl, by simp [hl, hs], hr⟩
  · rw [hpush] at hfail
    cases hfail

/-- The resolution's runs are merged into a reader. -/
theorem openRuns (hR : Represents R) (h : Holding R m runs none done p)
    {reader : Option (RunReader A)} (hfinish : runs.finish A = .ok (reader, runs')) :
    runs'.limit = runs.limit ∧
    (RunsHold R runs' 0 → Holding R m runs' (reader.map .disk) done
      { p with spilled := 0, read := p.spilled }) := by
  have hlimit : runs'.limit = runs.limit := by
    unfold SpillRuns.finish at hfinish
    cases hc : SpillRuns.combine A runs.limit none runs.levels with
    | error e =>
        rw [hc] at hfinish
        cases hfinish
    | ok combined =>
        rw [hc] at hfinish
        cases hfinish
        rfl
  refine ⟨hlimit, fun hruns => ?_⟩
  have hread : Reads R runs.limit (reader.map .disk) p.spilled := by
    rcases finish_holds hR.toMerging.kept h.spilled with
      ⟨records, s', hok, hsorted, hwithin, hholds⟩ | ⟨s', hok, hzero⟩ | ⟨e, -, hfail, -⟩
    · rw [hfinish] at hok
      cases hok
      exact ⟨records, rfl, hsorted, hwithin, hholds⟩
    · rw [hfinish] at hok
      cases hok
      exact hzero
    · rw [hfinish] at hfail
      cases hfail
  refine ⟨h.live, h.dead, hruns, hlimit ▸ hread, h.out, h.nodup, fun k hk => ?_⟩
  obtain ⟨hl, hs, -⟩ := h.final k hk
  exact ⟨hl, rfl, hs⟩

omit [LawfulSpill A] in
/-- The resolution is emitted from memory. -/
theorem openMemory (h : Holding R m runs none done p) (hempty : ∀ k, q.get k = none) :
    Holding R q runs (some (.memory m.takeSorted.1)) done { p with live := 0, read := p.live } where
  live := fun k a hk => by
    rw [hempty k] at hk
    cases hk
  dead := fun _ _ => rfl
  spilled := h.spilled
  read := ⟨m.takeSorted_cells.1, h.takeSorted⟩
  out := h.out
  nodup := h.nodup
  final := fun k hk => by
    obtain ⟨hl, hs, -⟩ := h.final k hk
    exact ⟨rfl, hs, hl⟩

end Holding

/-! ## Reading on -/

theorem nextRecord_reads {R : Multiset X → A → Prop} (hR : Represents R) {limit : Usize}
    {reader reader' : FinalCells A} {m : Contents X} {record : Option (CellIndex × A)}
    (h : Reads R limit (some reader) m) (hnext : reader.nextRecord = .ok (record, reader')) :
    (record = none ∧ m = 0) ∨ ∃ key acc, record = some (key, acc) ∧ R (m key) acc ∧
      Reads R limit (some reader') (Function.update m key 0) := by
  cases reader with
  | memory l =>
      obtain ⟨hsorted, hholds⟩ := h
      cases l with
      | nil =>
          cases hnext
          exact .inl ⟨rfl, funext fun k => hholds.absent k (by simp)⟩
      | cons r l =>
          cases hnext
          exact .inr ⟨r.1, r.2, rfl, hholds.present r.1 r.2 List.mem_cons_self,
            hsorted.of_cons, hholds.tail hsorted⟩
  | disk r =>
      obtain ⟨l, rfl, hsorted, hwithin, hholds⟩ := h
      cases l with
      | nil =>
          rw [FinalCells.nextRecord, nextRecord_nil] at hnext
          cases hnext
          exact .inl ⟨rfl, funext fun k => hholds.absent k (by simp)⟩
      | cons r l =>
          have hmem := hwithin r List.mem_cons_self
          by_cases hread : LawfulSpill.Readable limit r.2
          · rw [FinalCells.nextRecord, nextRecord_cons hmem hread] at hnext
            cases hnext
            exact .inr ⟨_, _, rfl, hR.reread (hholds.present r.1 r.2 List.mem_cons_self),
              l, rfl, hsorted.of_cons, hwithin.tail, hholds.tail hsorted⟩
          · obtain ⟨e, -, hfail⟩ := nextRecord_unreadable l hmem hread
            rw [FinalCells.nextRecord, hfail] at hnext
            cases hnext

namespace Holding

variable {R : Multiset X → A → Prop} {m : ShardedResolutionMap A L} {runs : SpillRuns}
  {reader reader' : FinalCells A} {done : List (CellIndex × A)} {p : Split X}

/-- The next record of the reader is emitted. -/
theorem next (hR : Represents R) (h : Holding R m runs (some reader) done p)
    (hlive : p.live = 0) (hspilled : p.spilled = 0) {key : CellIndex} {acc : A}
    (hnext : reader.nextRecord = .ok (some (key, acc), reader')) :
    ∃ p' : Split X, p'.total = p.total ∧ p'.live = 0 ∧ p'.spilled = 0 ∧
      Holding R m runs (some reader') (done ++ [(key, acc)]) p' := by
  rcases nextRecord_reads hR h.read hnext with ⟨hnone, -⟩ | ⟨_, _, ⟨⟩, hacc, hread⟩
  · cases hnone
  have hout : key ∉ keys done := fun hk => hR.ne_zero hacc (h.final key hk).2.2
  obtain ⟨p', htotal, hl, hs, h'⟩ := h.emit hacc (q := m)
    (by simp [Split.total, hlive, hspilled, h.out.absent key hout]) hout
    h.live h.dead hread ⟨by simp [hlive], by simp [hspilled], Function.update_self ..⟩
    fun k hk => ⟨rfl, Function.update_of_ne hk ..⟩
  exact ⟨p', htotal, hl.trans hlive, hs.trans hspilled, h'⟩

/-- A reader that has nothing more to give is closed. -/
theorem close (hR : Represents R) (h : Holding R m runs (some reader) done p)
    (hnext : reader.nextRecord = .ok (none, reader')) : Holding R m runs none done p where
  live := h.live
  dead := h.dead
  spilled := h.spilled
  read := by
    rcases nextRecord_reads hR h.read hnext with ⟨-, hzero⟩ | ⟨_, _, hsome, -⟩
    · exact hzero
    · cases hsome
  out := h.out
  nodup := h.nodup
  final := h.final

end Holding

end RasterH3.Agg
