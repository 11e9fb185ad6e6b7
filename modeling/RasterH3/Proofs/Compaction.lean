import RasterH3.Proofs.CompactionPool

/-!
# The compactor is a pool, and conserves its cells

The compactor keeps the cells of a parent together until all siblings have come, or until it
is clear that they will not. There are lazy heaps to find groups in, one for each resolution
and one for all, readings of the bytes it takes, a limit on them, and counts of what was
measured and forced. None of this decides what becomes of a cell.

So the compactor is looked at as a pool, the multiset of what is pending and what was
emitted. Every function is one of the two things a pool does, whatever its heaps, readings
and limits are: `pushCell` lets a cell arrive and may then dissolve groups, if there is a
byte limit; every flush dissolves groups. What is known of the groups that go is the
predicate of the `Dissolves`, different for each flush. Functions that touch only the
indexes leave the pool alone, and are dealt with once, before the others.

The loops are over heaps: an entry is popped, and its group dissolved if there is still one.
Each is an induction on the fuel, which is the length of the heap, and `Dissolves` is closed
under one after the other.

From there the conservation of cells is a matter of the ledger. A run of the compactor is
any list of pushes, flushes and drains, ended by `flushAll`.
-/

namespace RasterH3.Agg

open AccumulatorMerge

theorem contents_decompose {A L : Type} [AccumulatorMerge A] (g : Group A L) (kernel : Kernel A)
    (output : OutputBuffer (Record A)) :
    (g.decompose kernel output).contents = output.contents ++ g.records := by
  have : ∀ (l : List (CellIndex × A)) (output : OutputBuffer (Record A)),
      (l.foldl (fun output c => kernel.bufferRecord g.childRes c.1 c.2 output) output).contents =
        output.contents ++ l.map fun c => ⟨g.childRes, c.1, c.2⟩ := by
    intro l
    induction l with
    | nil => intro output; simp
    | cons c l ih => intro output; simp [ih]
  exact this g.children output

variable {A L : Type} [LinearOrder L]

/-- The pool behind a compactor and its output. `before` is what left the output
buffer earlier. -/
def pool (before : List (Record A)) (c : Compactor A L) (output : OutputBuffer (Record A)) :
    Pool A L where
  enabled := c.enabled
  byteLimit := c.byteLimit
  groups := c.pending
  bytes := c.groupBytes
  out := before ++ output.contents

namespace Compactor

variable {before : List (Record A)} {P : CellIndex → Group A L → Prop}

theorem isLiveCompletion_iff {c : Compactor A L} {res : Fin 16} {e : HeapEntry L} :
    c.isLiveCompletion res e = true ↔ ∃ g, c.pending.lookup e.parent = some g ∧
      slot g.childRes = res ∧ g.siblingsSouth = e.lat := by
  unfold isLiveCompletion
  cases c.pending.lookup e.parent <;> simp

/-! What touches only the indexes leaves the pool alone -/

theorem pool_compactIndexes (c : Compactor A L) (output : OutputBuffer (Record A)) :
    pool before c.compactIndexes output = pool before c output := by
  unfold compactIndexes
  simp only
  split <;> split <;> rfl

theorem pool_reclaim (c : Compactor A L) (output : OutputBuffer (Record A)) :
    pool before c.reclaim output = pool before c output :=
  pool_compactIndexes c output

theorem byteLimit_compactIndexes (c : Compactor A L) :
    c.compactIndexes.byteLimit = c.byteLimit := by
  unfold compactIndexes
  simp only
  split <;> split <;> rfl

theorem byteLimit_reclaim (c : Compactor A L) : c.reclaim.byteLimit = c.byteLimit :=
  byteLimit_compactIndexes c

theorem pool_measured (c : Compactor A L) (output : OutputBuffer (Record A)) :
    pool before c.measured output = pool before c output := rfl

theorem byteLimit_measured (c : Compactor A L) : c.measured.byteLimit = c.byteLimit := rfl

theorem byteLimit_forced (c : Compactor A L) : c.forced.byteLimit = c.byteLimit := rfl

theorem pool_forced (c : Compactor A L) (output : OutputBuffer (Record A)) :
    pool before c.forced output = pool before c output := rfl

theorem pool_nextToComplete (c : Compactor A L) (output : OutputBuffer (Record A)) :
    pool before c.nextToComplete.2 output = pool before c output := rfl

theorem pool_popCompletion (c : Compactor A L) (res : Fin 16) (output : OutputBuffer (Record A)) :
    pool before (c.popCompletion res) output = pool before c output := rfl

theorem byteLimit_of_pool {c c' : Compactor A L} {output output' : OutputBuffer (Record A)}
    {b b' : List (Record A)} (h : Pool.Dissolves P (pool b c output) (pool b' c' output')) :
    c'.byteLimit = c.byteLimit :=
  h.frame.2

variable [AccumulatorMerge A] (before) (kernel : Kernel A)

/-! Every flush dissolves groups -/

theorem flushParent_dissolves (c : Compactor A L) (output : OutputBuffer (Record A))
    (p : CellIndex) (hP : ∀ g, c.pending.lookup p = some g → P p g) :
    Pool.Dissolves P (pool before c output)
      (pool before (c.flushParent p kernel output).1 (c.flushParent p kernel output).2) := by
  unfold flushParent remove
  cases hg : c.pending.lookup p with
  | none => exact .refl _
  | some g =>
      have hout : before ++ (g.decompose kernel output).contents =
          before ++ output.contents ++ g.records := by
        rw [contents_decompose, List.append_assoc]
      have := Pool.Dissolves.single (s := pool before c output) hg (hP g hg)
      rw [Pool.dissolve] at this
      simp only [Option.map_some, pool, hout]
      exact this

theorem enforceLoop_dissolves {b : Option Nat} (rounds : Nat) (c : Compactor A L)
    (hb : c.byteLimit = b) (output : OutputBuffer (Record A)) (bytes : Nat) :
    Pool.Dissolves (fun _ _ => b ≠ none) (pool before c output)
      (pool before (enforceLoop kernel rounds c output bytes).1
        (enforceLoop kernel rounds c output bytes).2.1) := by
  induction rounds generalizing c output bytes with
  | zero => exact .refl _
  | succ rounds ih =>
      rw [enforceLoop]
      split
      next hexceeds =>
        have hlimit : b ≠ none := by
          rintro rfl
          simp [exceeds, hb] at hexceeds
        split
        next c' hnext =>
          obtain rfl : c.nextToComplete.2 = c' := congrArg Prod.snd hnext
          exact .refl _
        next res entry c' hnext =>
          obtain rfl : c.nextToComplete.2 = c' := congrArg Prod.snd hnext
          have hflush : Pool.Dissolves (fun _ _ => b ≠ none) _ _ :=
            flushParent_dissolves before kernel (c.nextToComplete.2.popCompletion res) output
              entry.parent fun _ _ => hlimit
          have hb' := (byteLimit_of_pool hflush).trans hb
          rw [← byteLimit_forced, ← byteLimit_measured] at hb'
          rw [pool_popCompletion, pool_nextToComplete] at hflush
          rw [← pool_forced, ← pool_measured] at hflush
          dsimp only
          exact hflush.trans (ih _ hb' _ _)
      next => exact .refl _

theorem relieve_dissolves (c : Compactor A L) (output : OutputBuffer (Record A)) :
    Pool.Dissolves (fun _ _ => c.byteLimit ≠ none) (pool before c output)
      (pool before (c.relieve kernel output).1 (c.relieve kernel output).2) := by
  have hlimit := (byteLimit_measured c.reclaim).trans (byteLimit_reclaim c)
  have hloop := enforceLoop_dissolves before kernel c.reclaim.entries.length c.reclaim.measured
    hlimit output c.reclaim.estimatedBytes
  rw [pool_measured, pool_reclaim] at hloop
  unfold relieve
  simp only
  split
  next => rwa [pool_reclaim]
  next => exact hloop

theorem enforceLimit_dissolves (c : Compactor A L) (output : OutputBuffer (Record A)) :
    Pool.Dissolves (fun _ _ => c.byteLimit ≠ none) (pool before c output)
      (pool before (c.enforceLimit kernel output).1 (c.enforceLimit kernel output).2) := by
  unfold enforceLimit
  simp only
  split
  next => exact relieve_dissolves before kernel { c.measured with peakBytes := max c.peakBytes c.estimatedBytes } _
  next => exact .refl _

theorem flushHeap_dissolves (horizon : L) (maxOutputBytes : Nat) (res : Fin 16) (rounds : Nat)
    (c : Compactor A L) (output : OutputBuffer (Record A)) :
    Pool.Dissolves (fun _ g => horizon < g.siblingsSouth ∧ slot g.childRes = res)
      (pool before c output)
      (pool before (flushHeap horizon kernel maxOutputBytes res rounds c output).1
        (flushHeap horizon kernel maxOutputBytes res rounds c output).2) := by
  induction rounds generalizing c output with
  | zero => exact .refl _
  | succ rounds ih =>
      rw [flushHeap]
      split
      next => exact .refl _
      next top _ =>
        split
        next => exact .refl _
        next hgo =>
          have hlat : horizon < top.lat := not_le.mp fun h => hgo (Or.inl h)
          simp only
          refine Pool.Dissolves.trans ?_ (ih _ _)
          rw [← pool_popCompletion c res]
          split
          next hlive =>
            refine flushParent_dissolves before kernel _ _ _ fun g hg => ?_
            obtain ⟨g', hg', hslot, hsouth⟩ := isLiveCompletion_iff.mp hlive
            obtain rfl : g' = g := Option.some.inj (hg'.symm.trans hg)
            exact ⟨hsouth ▸ hlat, hslot⟩
          next => exact .refl _

theorem flushCompleted_dissolves (c : Compactor A L) (horizon : L) (streaming : Nat → Bool)
    (output : OutputBuffer (Record A)) (maxOutputBytes : Nat) :
    Pool.Dissolves
      (fun _ g => horizon < g.siblingsSouth ∧ streaming (slot g.childRes) = true)
      (pool before c output)
      (pool before (c.flushCompleted horizon streaming kernel output maxOutputBytes).1
        (c.flushCompleted horizon streaming kernel output maxOutputBytes).2) := by
  have : ∀ (l : List (Fin 16)) (s : Compactor A L × OutputBuffer (Record A)),
      let t := l.foldl (fun s (res : Fin 16) =>
        if streaming res then
          flushHeap horizon kernel maxOutputBytes res (s.1.completion res).size s.1 s.2
        else s) s
      Pool.Dissolves (fun _ g => horizon < g.siblingsSouth ∧ streaming (slot g.childRes) = true)
        (pool before s.1 s.2) (pool before t.1 t.2) := by
    intro l
    induction l with
    | nil => intro s; exact .refl _
    | cons res l ih =>
        intro s
        rw [List.foldl_cons]
        refine Pool.Dissolves.trans ?_ (ih _)
        split
        next hstream =>
          refine Pool.Dissolves.mono ?_ (flushHeap_dissolves before kernel horizon maxOutputBytes res _ _ _)
          intro _ g h
          exact ⟨h.1, h.2.symm ▸ hstream⟩
        next => exact .refl _
  exact this _ (c, output)

theorem flushResolution_dissolves (c : Compactor A L) (childRes : Nat)
    (output : OutputBuffer (Record A)) :
    Pool.Dissolves (fun _ g => slot g.childRes = slot childRes) (pool before c output)
      (pool before (c.flushResolution childRes kernel output).1
        (c.flushResolution childRes kernel output).2) := by
  have : ∀ (l : List (HeapEntry L)) (s : Compactor A L × OutputBuffer (Record A)),
      let t := l.foldl (fun s entry =>
        if s.1.isLiveCompletion (slot childRes) entry then s.1.flushParent entry.parent kernel s.2
        else s) s
      Pool.Dissolves (fun _ g => slot g.childRes = slot childRes)
        (pool before s.1 s.2) (pool before t.1 t.2) := by
    intro l
    induction l with
    | nil => intro s; exact .refl _
    | cons e l ih =>
        intro s
        rw [List.foldl_cons]
        refine Pool.Dissolves.trans ?_ (ih _)
        split
        next hlive =>
          refine flushParent_dissolves before kernel _ _ _ fun g hg => ?_
          obtain ⟨g', hg', hslot, _⟩ := isLiveCompletion_iff.mp hlive
          obtain rfl : g' = g := Option.some.inj (hg'.symm.trans hg)
          exact hslot
        next => exact .refl _
  exact this _ ({ c with completion := Function.update c.completion (slot childRes) .empty }, output)

theorem flushAll_dissolves (c : Compactor A L) (output : OutputBuffer (Record A)) :
    ∃ t, Pool.Dissolves (fun _ _ => True) (pool before c output) t ∧ t.groups = ∅ ∧
      pool before (c.flushAll kernel output).1 (c.flushAll kernel output).2 =
        { t with bytes := 0 } := by
  have : ∀ (l : List (Sigma fun _ : CellIndex => Group A L)) (s : Pool A L)
      (output : OutputBuffer (Record A)), s.groups.entries = l → s.out = before ++ output.contents →
      ∃ t, Pool.Dissolves (fun _ _ => True) s t ∧ t.groups = ∅ ∧
        t.out = before ++
          (l.foldl (fun output e => e.2.decompose kernel output) output).contents := by
    intro l
    induction l with
    | nil =>
        intro s output hs hout
        exact ⟨s, .refl _, AList.ext hs, hout⟩
    | cons e l ih =>
        intro s output hs hout
        have hlookup : s.groups.lookup e.1 = some e.2 := by
          rw [← Option.mem_def, AList.mem_lookup_iff, hs]
          exact List.mem_cons_self
        have hrest : (s.groups.erase e.1).entries = l := by
          show s.groups.entries.kerase e.1 = l
          rw [hs, List.kerase_cons_eq rfl]
        obtain ⟨t, ht, hempty, htout⟩ := ih (s.dissolve e.1 e.2) (e.2.decompose kernel output) hrest
          (by rw [Pool.dissolve, hout, contents_decompose, List.append_assoc])
        exact ⟨t, (Pool.Dissolves.single hlookup trivial).trans ht, hempty, htout⟩
  obtain ⟨t, ht, hempty, hout⟩ := this c.pending.entries (pool before c output) output rfl rfl
  refine ⟨t, ht, hempty, ?_⟩
  have hframe := ht.frame
  obtain ⟨enabled, byteLimit, groups, bytes, out⟩ := t
  obtain ⟨rfl, rfl⟩ := hframe
  subst hempty hout
  simp only [flushAll, entries, List.foldl_map]
  rfl

variable [BoundedOrder L] (h3 : H3 L) (sizeOfChild : Nat)

/-- A cell that passes joins the pool, whatever the byte limit then takes out. -/
theorem join_dissolves (c : Compactor A L) (output : OutputBuffer (Record A)) (r : Record A)
    (p : CellIndex) :
    let e := c.entry h3 kernel r.resolution p
    let group := e.1.add h3 r.h3Index r.accumulator
    let c' := { e.2 with emit := e.2.emit.push (HeapEntry.of group.emitSouth p) }
    let s := c'.settle h3 kernel sizeOfChild p group output
    pool before s.1 s.2 = (pool before c output).arrive h3 kernel sizeOfChild r p := by
  have hgroup : (c.entry h3 kernel r.resolution p).1.add h3 r.h3Index r.accumulator =
      (pool before c output).joined h3 kernel r p := by
    unfold entry Pool.joined pool
    cases c.pending.lookup p <;> rfl
  have hrest : (c.entry h3 kernel r.resolution p).2.pending.erase p = c.pending.erase p ∧
      (∀ g, (c.entry h3 kernel r.resolution p).2.pending.insert p g = c.pending.insert p g) ∧
      (c.entry h3 kernel r.resolution p).2.groupBytes = c.groupBytes ∧
      (c.entry h3 kernel r.resolution p).2.enabled = c.enabled ∧
      (c.entry h3 kernel r.resolution p).2.byteLimit = c.byteLimit := by
    unfold entry
    cases hl : c.pending.lookup p with
    | some g => exact ⟨rfl, fun _ => rfl, rfl, rfl, rfl⟩
    | none =>
        exact ⟨Groups.erase_insert _ _ _, fun g => AList.insert_insert _, rfl, rfl, rfl⟩
  obtain ⟨herase, hinsert, hbytes, henabled, hlimit⟩ := hrest
  intro e group c' s
  simp only [s, c', group, e, settle, hgroup, Pool.arrive]
  split
  next =>
    simp only [pool, herase, hbytes, henabled, hlimit, Kernel.contents_bufferRecord,
      ← List.append_assoc]
  next => simp only [pool, hinsert, hbytes, henabled, hlimit]

/-- A final cell is dropped by the filter, emitted at once, or joins the pool. -/
theorem pushCell_cases (c : Compactor A L) (output : OutputBuffer (Record A)) (r : Record A) :
    let s := c.pushCell h3 kernel sizeOfChild r.resolution r.h3Index r.accumulator output
    let pool₀ := pool before c output
    (kernel.passesFilter r.accumulator = false ∧ s = (c, output)) ∨
    (kernel.passesFilter r.accumulator = true ∧
      ((c.enabled = false ∨ h3.parentOf r.h3Index = none) ∧
        pool before s.1 s.2 = { pool₀ with out := pool₀.out ++ [r] } ∨
      c.enabled = true ∧ ∃ p, h3.parentOf r.h3Index = some p ∧
        Pool.Dissolves (fun _ _ => c.byteLimit ≠ none)
          (pool₀.arrive h3 kernel sizeOfChild r p) (pool before s.1 s.2))) := by
  intro s pool₀
  cases hpass : kernel.passesFilter r.accumulator with
  | false => exact Or.inl ⟨rfl, by simp [s, pushCell, hpass]⟩
  | true =>
      refine Or.inr ⟨rfl, ?_⟩
      cases hp : (if c.enabled then h3.parentOf r.h3Index else none) with
      | none =>
          refine Or.inl ⟨?_, ?_⟩
          · cases henabled : c.enabled with
            | false => exact Or.inl rfl
            | true => exact Or.inr (by simpa [henabled] using hp)
          · simp [s, pool₀, pushCell, hpass, hp, pool]
      | some p =>
          have henabled : c.enabled = true := by
            cases henabled : c.enabled with
            | false => simp [henabled] at hp
            | true => rfl
          refine Or.inr ⟨henabled, p, by simpa [henabled] using hp, ?_⟩
          have hjoin := join_dissolves before kernel h3 sizeOfChild c output r p
          simp only [s, pushCell, hpass, hp, Bool.not_true, Bool.false_eq_true, if_false]
          set t := Compactor.settle _ h3 kernel sizeOfChild p _ output with ht
          have hlimit : t.1.compactIndexes.byteLimit = c.byteLimit := by
            have := congrArg (fun s : Pool A L => s.byteLimit) hjoin
            rw [byteLimit_compactIndexes]
            exact this.trans (Pool.frame_arrive ..).2
          rw [← hjoin, ← pool_compactIndexes, ← hlimit]
          exact enforceLimit_dissolves before kernel _ _

end Compactor

end RasterH3.Agg
