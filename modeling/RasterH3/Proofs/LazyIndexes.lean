import RasterH3.Proofs.CompactionRuns
import Mathlib

/-!
# The compactor's heaps answer for its table

The heaps are never cleaned when a group goes; entries of groups that left, that
have other keys by now, or that came back under the same parent stay where they
are. What makes the lazy scheme work is one-sided. `Indexed` says that every group
that is pending has its entry in the heap of its child resolution and one with its
present value in the emission heap. It says nothing about the rest of the heaps:
an answer is read off the top, and a top that no pending group stands behind is
thrown away first.

What keeps `Indexed` is that an entry is taken only together with its group, or
when no group stands behind it. A second entry for the same group does no harm,
and a group that returns is entered anew.

`Reached` has the states between two operations and those inside of them, at
which an index is read: a cell has joined its group, the heaps have been rebuilt,
one more group has been evicted.
-/

namespace RasterH3.Agg

variable {A L : Type} [LinearOrder L]

theorem HeapEntry.lat_le {x y : HeapEntry L} (h : x ≤ y) : x.lat ≤ y.lat :=
  Prod.Lex.monotone_fst x y h

namespace Compactor

/-- The entries of a pending group are in the heaps. -/
structure Indexed (c : Compactor A L) : Prop where
  completion : ∀ p g, c.pending.lookup p = some g →
    HeapEntry.of g.siblingsSouth p ∈ c.completion (slot g.childRes)
  emit : ∀ p g, c.pending.lookup p = some g → HeapEntry.of g.emitSouth p ∈ c.emit

theorem mem_entries {c : Compactor A L} {p : CellIndex} {g : Group A L} :
    (p, g) ∈ c.entries ↔ c.pending.lookup p = some g := by
  rw [← Option.mem_def, AList.mem_lookup_iff, entries, List.mem_map]
  constructor
  · rintro ⟨⟨q, f⟩, he, heq⟩
    cases heq
    exact he
  · exact fun h => ⟨_, h, rfl⟩

theorem entries_eq_nil {c : Compactor A L} (h : ∀ p g, c.pending.lookup p ≠ some g) :
    c.entries = [] :=
  List.eq_nil_iff_forall_not_mem.mpr fun e he => h e.1 e.2 (mem_entries.mp he)

theorem isLiveCompletion_of_lookup {c : Compactor A L} {p : CellIndex} {g : Group A L}
    (hg : c.pending.lookup p = some g) :
    c.isLiveCompletion (slot g.childRes) (HeapEntry.of g.siblingsSouth p) = true :=
  isLiveCompletion_iff.mpr ⟨g, hg, rfl, rfl⟩

namespace Indexed

variable {c c' : Compactor A L}

/-- Groups may leave, and with them their entries. -/
theorem mono (h : c.Indexed)
    (hsub : ∀ p g, c'.pending.lookup p = some g → c.pending.lookup p = some g)
    (hcompletion : ∀ p g, c'.pending.lookup p = some g →
      HeapEntry.of g.siblingsSouth p ∈ c.completion (slot g.childRes) →
        HeapEntry.of g.siblingsSouth p ∈ c'.completion (slot g.childRes))
    (hemit : ∀ p g, c'.pending.lookup p = some g →
      HeapEntry.of g.emitSouth p ∈ c.emit → HeapEntry.of g.emitSouth p ∈ c'.emit) :
    c'.Indexed where
  completion := fun p g hg => hcompletion p g hg (h.completion p g (hsub p g hg))
  emit := fun p g hg => hemit p g hg (h.emit p g (hsub p g hg))

theorem of_empty (h : c.pending = ∅) : c.Indexed where
  completion := fun p g hg => by simp [h] at hg
  emit := fun p g hg => by simp [h] at hg

theorem compactIndexes (h : c.Indexed) : c.compactIndexes.Indexed := by
  have hlive : ∀ p g, c.pending.lookup p = some g → HeapEntry.of g.siblingsSouth p ∈
      MaxHeap.ofList ((c.entries.filter fun e => slot e.2.childRes = slot g.childRes).map fun e =>
        HeapEntry.of e.2.siblingsSouth e.1) := by
    intro p g hg
    rw [MaxHeap.mem_ofList]
    exact List.mem_map.mpr ⟨(p, g), List.mem_filter.mpr ⟨mem_entries.mpr hg, by simp⟩, rfl⟩
  have hemit : ∀ p g, c.pending.lookup p = some g → HeapEntry.of g.emitSouth p ∈
      MaxHeap.ofList (c.entries.map fun e => HeapEntry.of e.2.emitSouth e.1) := by
    intro p g hg
    rw [MaxHeap.mem_ofList]
    exact List.mem_map.mpr ⟨(p, g), mem_entries.mpr hg, rfl⟩
  unfold Compactor.compactIndexes
  simp only
  split <;> split
  · exact ⟨hlive, hemit⟩
  · exact ⟨hlive, h.emit⟩
  · exact ⟨h.completion, hemit⟩
  · exact h

end Indexed

/-! Reading the tops -/

/-- The top of heap `i`, if it is above the best so far. -/
def larger {ι : Type} (peek : ι → Option (HeapEntry L)) (best : Option (ι × HeapEntry L)) (i : ι) :
    Option (ι × HeapEntry L) :=
  match peek i with
  | none => best
  | some top =>
      match best with
      | some (_, b) => if b < top then some (i, top) else best
      | none => some (i, top)

theorem foldl_larger_eq_none {ι : Type} {peek : ι → Option (HeapEntry L)} {l : List ι}
    {best : Option (ι × HeapEntry L)} (h : l.foldl (larger peek) best = none) :
    best = none ∧ ∀ i ∈ l, peek i = none := by
  induction l generalizing best with
  | nil => exact ⟨h, fun _ hi => nomatch hi⟩
  | cons i l ih =>
      obtain ⟨hbest, hl⟩ := ih h
      unfold larger at hbest
      split at hbest
      next hi => exact ⟨hbest, List.forall_mem_cons.mpr ⟨hi, hl⟩⟩
      next =>
        split at hbest
        next => split at hbest <;> cases hbest
        next => cases hbest

theorem foldl_larger_eq_some {ι : Type} {peek : ι → Option (HeapEntry L)} {l : List ι}
    {best : Option (ι × HeapEntry L)} {i : ι} {x : HeapEntry L}
    (h : l.foldl (larger peek) best = some (i, x)) :
    (best = some (i, x) ∨ peek i = some x) ∧ (∀ j y, best = some (j, y) → y ≤ x) ∧
      ∀ j ∈ l, ∀ y, peek j = some y → y ≤ x := by
  induction l generalizing best with
  | nil =>
      refine ⟨Or.inl h, fun j y hy => ?_, fun _ hj => nomatch hj⟩
      cases h.symm.trans hy
      exact le_refl _
  | cons k l ih =>
      obtain ⟨hfrom, hbest, hl⟩ := ih h
      rw [List.forall_mem_cons]
      cases hk : peek k with
      | none =>
          rw [show larger peek best k = best by simp [larger, hk]] at hfrom hbest
          exact ⟨hfrom, hbest, by simp, hl⟩
      | some top =>
          cases best with
          | none =>
              rw [show larger peek none k = some (k, top) by simp [larger, hk]] at hfrom hbest
              refine ⟨Or.inr ?_, by simp, fun y hy => ?_, hl⟩
              · rcases hfrom with heq | hi
                · cases heq
                  exact hk
                · exact hi
              · cases hy
                exact hbest k _ rfl
          | some b =>
              obtain ⟨j, b⟩ := b
              by_cases hlt : b < top
              · rw [show larger peek (some (j, b)) k = some (k, top) by
                  simp [larger, hk, hlt]] at hfrom hbest
                have htop : top ≤ x := hbest k top rfl
                refine ⟨Or.inr ?_, fun _ y hy => ?_, fun y hy => ?_, hl⟩
                · rcases hfrom with heq | hi
                  · cases heq
                    exact hk
                  · exact hi
                · cases hy
                  exact hlt.le.trans htop
                · cases hy
                  exact htop
              · rw [show larger peek (some (j, b)) k = some (j, b) by
                  simp [larger, hk, hlt]] at hfrom hbest
                refine ⟨hfrom, hbest, fun y hy => ?_, hl⟩
                cases hy
                exact (not_lt.mp hlt).trans (hbest j b rfl)

/-- The completion heaps as `nextToComplete` leaves them. -/
theorem nextToComplete_fst (c : Compactor A L) :
    c.nextToComplete.1 =
      (List.finRange 16).foldl (larger fun res => (c.nextToComplete.2.completion res).peek)
        none := by
  show List.foldl _ _ _ = _
  congr 1
  funext best res
  show _ = larger (fun res => ((c.completion res).skim fun e =>
    !c.isLiveCompletion res e).peek) best res
  unfold larger
  dsimp only
  cases ((c.completion res).skim fun e => !c.isLiveCompletion res e).peek with
  | none => rfl
  | some top =>
    cases best with
    | none => rfl
    | some b => rfl

theorem Indexed.nextToComplete {c : Compactor A L} (h : c.Indexed) :
    c.nextToComplete.2.Indexed := by
  refine h.mono (fun _ _ hg => hg) (fun p g hg hmem => ?_) fun _ _ _ hmem => hmem
  refine MaxHeap.mem_skim_of_not_drop hmem ?_
  rw [Bool.not_eq_false']
  exact isLiveCompletion_of_lookup hg

/-- The top that is chosen has a pending group behind it, and it is a top. -/
theorem nextToComplete_some {c : Compactor A L} (h : c.Indexed) {res : Fin 16}
    {entry : HeapEntry L} (hnext : c.nextToComplete.1 = some (res, entry)) :
    (c.nextToComplete.2.completion res).peek = some entry ∧
      c.isLiveCompletion res entry = true ∧
      ∀ p g, c.pending.lookup p = some g → g.siblingsSouth ≤ entry.lat := by
  rw [nextToComplete_fst] at hnext
  obtain ⟨hfrom, -, hall⟩ := foldl_larger_eq_some hnext
  have hpeek : (c.nextToComplete.2.completion res).peek = some entry :=
    hfrom.resolve_left nofun
  refine ⟨hpeek, by simpa using MaxHeap.not_drop_of_peek_skim hpeek, fun p g hg => ?_⟩
  have hmem := h.nextToComplete.completion p g hg
  cases htop : (c.nextToComplete.2.completion (slot g.childRes)).peek with
  | none => exact absurd hmem (MaxHeap.peek_eq_none.mp htop _)
  | some top =>
      exact HeapEntry.lat_le ((MaxHeap.le_peek htop hmem).trans
        (hall _ (List.mem_finRange _) _ htop))

theorem nextToComplete_none {c : Compactor A L} (h : c.Indexed)
    (hnext : c.nextToComplete.1 = none) (p : CellIndex) (g : Group A L) :
    c.pending.lookup p ≠ some g := by
  intro hg
  rw [nextToComplete_fst] at hnext
  have htop := (foldl_larger_eq_none hnext).2 (slot g.childRes) (List.mem_finRange _)
  exact MaxHeap.peek_eq_none.mp htop _ (h.nextToComplete.completion p g hg)

theorem Indexed.pendingEmitSouth [BoundedOrder L] {c : Compactor A L} (h : c.Indexed) :
    c.pendingEmitSouth.2.Indexed := by
  refine h.mono (fun _ _ hg => hg) (fun _ _ _ hmem => hmem) fun p g hg hmem => ?_
  refine MaxHeap.mem_skim_of_not_drop hmem ?_
  simp [show c.pending.lookup p = some g from hg]

/-- What is read off the emission heap is what a scan of the table would find. -/
theorem pendingEmitSouth_eq [BoundedOrder L] {c : Compactor A L} (h : c.Indexed) :
    c.pendingEmitSouth.1 = (c.entries.map fun e => e.2.emitSouth).foldr max ⊥ := by
  have hdef : c.pendingEmitSouth.1 =
      (c.pendingEmitSouth.2.emit.peek.map HeapEntry.lat).getD ⊥ := rfl
  rw [hdef]
  cases htop : c.pendingEmitSouth.2.emit.peek with
  | none =>
      have hempty : c.entries = [] := entries_eq_nil fun p g hg =>
        MaxHeap.peek_eq_none.mp htop _ (h.pendingEmitSouth.emit p g hg)
      rw [hempty]
      rfl
  | some top =>
      have hlive := MaxHeap.not_drop_of_peek_skim htop
      rw [Bool.not_eq_false', Option.any_eq_true] at hlive
      obtain ⟨g, hg, hlat⟩ := hlive
      refine le_antisymm (List.le_max_of_le (List.mem_map_of_mem (mem_entries.mpr hg)) ?_)
        (List.max_le_of_forall_le _ _ fun x hx => ?_)
      · exact (of_decide_eq_true hlat).ge
      · obtain ⟨e, he, rfl⟩ := List.mem_map.mp hx
        exact HeapEntry.lat_le
          (MaxHeap.le_peek htop (h.pendingEmitSouth.emit e.1 e.2 (mem_entries.mp he)))

section Rounds

variable [AccumulatorMerge A] (kernel : Kernel A)

/-! One entry, and its group if it has one -/

/-- A round of `flushHeap` and of `enforceLoop`: the top of a heap is taken. -/
def takeTop (c : Compactor A L) (res : Fin 16) (top : HeapEntry L)
    (output : OutputBuffer (Record A)) : Compactor A L × OutputBuffer (Record A) :=
  if (c.popCompletion res).isLiveCompletion res top then
    (c.popCompletion res).flushParent top.parent kernel output
  else (c.popCompletion res, output)

theorem flushParent_eq (c : Compactor A L) (p : CellIndex) (output : OutputBuffer (Record A)) :
    (c.flushParent p kernel output).1.pending = c.pending.erase p ∧
      (c.flushParent p kernel output).1.completion = c.completion ∧
      (c.flushParent p kernel output).1.emit = c.emit := by
  unfold flushParent remove
  cases hg : c.pending.lookup p with
  | none =>
      have hp : p ∉ c.pending := AList.lookup_eq_none.mp hg
      exact ⟨(AList.ext (List.kerase_of_notMem_keys hp)).symm, rfl, rfl⟩
  | some g => exact ⟨rfl, rfl, rfl⟩

theorem Indexed.flushParent {c : Compactor A L} (h : c.Indexed) (p : CellIndex)
    (output : OutputBuffer (Record A)) : (c.flushParent p kernel output).1.Indexed := by
  obtain ⟨hpending, hcompletion, hemit⟩ := flushParent_eq kernel c p output
  refine h.mono (fun q g hg => ?_) (fun q g _ hmem => ?_) fun q g _ hmem => ?_
  · rw [hpending] at hg
    exact (Pool.lookup_erase_of hg).2
  · rwa [hcompletion]
  · rwa [hemit]

theorem takeTop_eq (c : Compactor A L) (res : Fin 16) (top : HeapEntry L)
    (output : OutputBuffer (Record A)) :
    (c.takeTop kernel res top output).1.completion =
      Function.update c.completion res (c.completion res).pop ∧
    (c.takeTop kernel res top output).1.emit = c.emit ∧
    ∀ p g, (c.takeTop kernel res top output).1.pending.lookup p = some g →
      c.pending.lookup p = some g ∧
        ¬ (slot g.childRes = res ∧ HeapEntry.of g.siblingsSouth p = top) := by
  unfold takeTop
  split
  next =>
    obtain ⟨hpending, hcompletion, hemit⟩ :=
      flushParent_eq kernel (c.popCompletion res) top.parent output
    refine ⟨hcompletion, hemit, fun p g hg => ?_⟩
    rw [hpending] at hg
    obtain ⟨hne, hg⟩ := Pool.lookup_erase_of hg
    exact ⟨hg, fun hbehind => hne (congrArg HeapEntry.parent hbehind.2)⟩
  next hstale =>
    refine ⟨rfl, rfl, fun p g hg => ⟨hg, ?_⟩⟩
    rintro ⟨hslot, rfl⟩
    exact hstale (hslot ▸ isLiveCompletion_of_lookup (c := c.popCompletion res) hg)

/-- The heap a top was taken from has no pending group behind that top. -/
theorem Indexed.takeTop {c : Compactor A L} (h : c.Indexed) {res : Fin 16} {top : HeapEntry L}
    (hpeek : (c.completion res).peek = some top) (output : OutputBuffer (Record A)) :
    (c.takeTop kernel res top output).1.Indexed := by
  obtain ⟨hcompletion, hemit, hleft⟩ := takeTop_eq kernel c res top output
  refine h.mono (fun p g hg => (hleft p g hg).1) (fun p g hg hmem => ?_) fun p g _ hmem => ?_
  · rw [hcompletion]
    by_cases hslot : slot g.childRes = res
    · have hne := fun heq => (hleft p g hg).2 ⟨hslot, heq⟩
      rw [hslot] at hmem
      rw [hslot, Function.update_self]
      exact MaxHeap.mem_pop_of_ne hpeek hmem hne
    · rwa [Function.update_of_ne hslot]
  · rwa [hemit]

theorem takeTop_dissolves (before : List (Record A)) (c : Compactor A L) (res : Fin 16)
    (top : HeapEntry L) (output : OutputBuffer (Record A)) :
    Pool.Dissolves (fun _ _ => True) (pool before c output)
      (pool before (c.takeTop kernel res top output).1 (c.takeTop kernel res top output).2) := by
  unfold takeTop
  split
  next =>
    exact flushParent_dissolves before kernel (c.popCompletion res) output _ fun _ _ => trivial
  next => exact .refl _

theorem flushHeap_succ (horizon : L) (maxOutputBytes : Nat) (res : Fin 16) (rounds : Nat)
    (c : Compactor A L) (output : OutputBuffer (Record A)) :
    flushHeap horizon kernel maxOutputBytes res (rounds + 1) c output =
      match (c.completion res).peek with
      | none => (c, output)
      | some top =>
          if top.lat ≤ horizon ∨ maxOutputBytes ≤ output.estimatedBytes then (c, output)
          else
            flushHeap horizon kernel maxOutputBytes res rounds (c.takeTop kernel res top output).1
              (c.takeTop kernel res top output).2 := rfl

/-- What a forced eviction takes is the top that `nextToComplete` chose. -/
theorem evict_eq {c : Compactor A L} (h : c.Indexed) {res : Fin 16} {entry : HeapEntry L}
    (hnext : c.nextToComplete.1 = some (res, entry)) (output : OutputBuffer (Record A)) :
    (c.nextToComplete.2.popCompletion res).flushParent entry.parent kernel output =
      c.nextToComplete.2.takeTop kernel res entry output := by
  have hlive : (c.nextToComplete.2.popCompletion res).isLiveCompletion res entry = true :=
    (nextToComplete_some h hnext).2.1
  rw [takeTop, if_pos hlive]

/-! What the output would amount to with everything that is pending in it -/

def recordBytes (g : Group A L) : Nat :=
  (g.children.map fun c => kernel.sizeOfRecord + AccumulatorMerge.heapBytes c.2).sum

def dueBytes (groups : Groups A L) : Nat :=
  (groups.entries.map fun e => recordBytes kernel e.2).sum

omit [LinearOrder L] in
theorem estimatedBytes_decompose (g : Group A L) (output : OutputBuffer (Record A)) :
    (g.decompose kernel output).estimatedBytes =
      output.estimatedBytes + recordBytes kernel g := by
  have : ∀ (l : List (CellIndex × A)) (output : OutputBuffer (Record A)),
      (l.foldl (fun output c => kernel.bufferRecord g.childRes c.1 c.2 output)
        output).estimatedBytes = output.estimatedBytes +
          (l.map fun c => kernel.sizeOfRecord + AccumulatorMerge.heapBytes c.2).sum := by
    intro l
    induction l with
    | nil => intro output; rfl
    | cons c l ih =>
        intro output
        rw [List.foldl_cons, ih, List.map_cons, List.sum_cons, ← Nat.add_assoc]
        rfl
  exact this g.children output

theorem estimatedBytes_flushAll (c : Compactor A L) (output : OutputBuffer (Record A)) :
    (c.flushAll kernel output).2.estimatedBytes =
      output.estimatedBytes + dueBytes kernel c.pending := by
  have : ∀ (l : List (Sigma fun _ : CellIndex => Group A L)) (output : OutputBuffer (Record A)),
      ((l.map fun e => (e.1, e.2)).foldl (fun output e => e.2.decompose kernel output)
        output).estimatedBytes =
          output.estimatedBytes + (l.map fun e => recordBytes kernel e.2).sum := by
    intro l
    induction l with
    | nil => intro output; rfl
    | cons e l ih =>
        intro output
        rw [List.map_cons, List.foldl_cons, ih, estimatedBytes_decompose, List.map_cons,
          List.sum_cons, ← Nat.add_assoc]
  exact this c.pending.entries output

theorem due_flushParent (c : Compactor A L) (p : CellIndex) (output : OutputBuffer (Record A)) :
    (c.flushParent p kernel output).2.estimatedBytes +
        dueBytes kernel (c.flushParent p kernel output).1.pending =
      output.estimatedBytes + dueBytes kernel c.pending := by
  unfold flushParent remove
  cases hg : c.pending.lookup p with
  | none => rfl
  | some g =>
      have hsum : dueBytes kernel c.pending =
          recordBytes kernel g + dueBytes kernel (c.pending.erase p) := by
        unfold dueBytes
        rw [((Groups.perm_erase hg).map _).sum_eq]
        rfl
      simp only [Option.map_some, estimatedBytes_decompose, hsum, Nat.add_assoc]

theorem due_takeTop (c : Compactor A L) (res : Fin 16) (top : HeapEntry L)
    (output : OutputBuffer (Record A)) :
    (c.takeTop kernel res top output).2.estimatedBytes +
        dueBytes kernel (c.takeTop kernel res top output).1.pending =
      output.estimatedBytes + dueBytes kernel c.pending := by
  unfold takeTop
  split
  next => exact due_flushParent kernel (c.popCompletion res) top.parent output
  next => rfl

/-- A heap is emptied down to the horizon when the output has room for all that
is pending. -/
theorem flushHeap_complete (horizon : L) (maxOutputBytes : Nat) (res : Fin 16) (rounds : Nat)
    {c : Compactor A L} (h : c.Indexed) {output : OutputBuffer (Record A)}
    (hrounds : (c.completion res).size ≤ rounds)
    (hroom : output.estimatedBytes + dueBytes kernel c.pending < maxOutputBytes) :
    let s := flushHeap horizon kernel maxOutputBytes res rounds c output
    s.1.Indexed ∧ s.2.estimatedBytes + dueBytes kernel s.1.pending =
        output.estimatedBytes + dueBytes kernel c.pending ∧
      ∀ p g, s.1.pending.lookup p = some g → slot g.childRes = res →
        g.siblingsSouth ≤ horizon := by
  induction rounds generalizing c output with
  | zero =>
      refine ⟨h, rfl, fun p g hg hslot => ?_⟩
      have hmem := h.completion p g hg
      rw [hslot, MaxHeap.mem_def, List.eq_nil_of_length_eq_zero (Nat.le_zero.mp hrounds)] at hmem
      cases hmem
  | succ rounds ih =>
      rw [flushHeap_succ]
      split
      next htop =>
        refine ⟨h, rfl, fun p g hg hslot => ?_⟩
        have hmem := h.completion p g hg
        rw [hslot] at hmem
        exact absurd hmem (MaxHeap.peek_eq_none.mp htop _)
      next top htop =>
        split
        next hstop =>
          refine ⟨h, rfl, fun p g hg hslot => ?_⟩
          have hmem := h.completion p g hg
          rw [hslot] at hmem
          have hlat : top.lat ≤ horizon := hstop.resolve_right (by omega)
          exact (HeapEntry.lat_le (MaxHeap.le_peek htop hmem)).trans hlat
        next =>
          have hdue := due_takeTop kernel c res top output
          have hsize : ((c.takeTop kernel res top output).1.completion res).size ≤ rounds := by
            rw [(takeTop_eq kernel c res top output).1, Function.update_self]
            have := MaxHeap.size_pop htop
            omega
          have hroom' : (c.takeTop kernel res top output).2.estimatedBytes +
              dueBytes kernel (c.takeTop kernel res top output).1.pending < maxOutputBytes := by
            omega
          obtain ⟨hind, hsum, hall⟩ := ih (h.takeTop kernel htop output) hsize hroom'
          exact ⟨hind, hsum.trans hdue, hall⟩

/-- What `flushCompleted` does for one resolution. -/
def flushSlot (horizon : L) (streaming : Nat → Bool) (maxOutputBytes : Nat)
    (s : Compactor A L × OutputBuffer (Record A)) (res : Fin 16) :
    Compactor A L × OutputBuffer (Record A) :=
  if streaming res then
    flushHeap horizon kernel maxOutputBytes res (s.1.completion res).size s.1 s.2
  else s

theorem flushCompleted_eq (c : Compactor A L) (horizon : L) (streaming : Nat → Bool)
    (output : OutputBuffer (Record A)) (maxOutputBytes : Nat) :
    c.flushCompleted horizon streaming kernel output maxOutputBytes =
      (List.finRange 16).foldl (flushSlot kernel horizon streaming maxOutputBytes)
        (c, output) := rfl

/-- What is still pending after a pass over some of the heaps was pending before,
and the horizon has not passed it if its heap was one of them. -/
theorem flushSlots_left (horizon : L) (streaming : Nat → Bool) (maxOutputBytes : Nat)
    (l : List (Fin 16)) {s : Compactor A L × OutputBuffer (Record A)} (hs : s.1.Indexed)
    (hroom : s.2.estimatedBytes + dueBytes kernel s.1.pending < maxOutputBytes)
    {p : CellIndex} {g : Group A L}
    (hg : (l.foldl (flushSlot kernel horizon streaming maxOutputBytes) s).1.pending.lookup p =
      some g) :
    s.1.pending.lookup p = some g ∧
      (slot g.childRes ∈ l → streaming (slot g.childRes) = true → g.siblingsSouth ≤ horizon) := by
  induction l generalizing s with
  | nil => exact ⟨hg, fun hmem => nomatch hmem⟩
  | cons res l ih =>
      rw [List.foldl_cons] at hg
      by_cases hstream : streaming res = true
      · rw [flushSlot, if_pos hstream] at hg
        obtain ⟨hind, hsum, hall⟩ := flushHeap_complete kernel horizon maxOutputBytes res _ hs
          (le_refl _) hroom
        obtain ⟨hmid, hrest⟩ := ih hind (hsum ▸ hroom) hg
        refine ⟨(flushHeap_dissolves [] kernel horizon maxOutputBytes res _ s.1 s.2).lookup_of hmid,
          fun hmem hslot => ?_⟩
        rcases List.mem_cons.mp hmem with hres | hmem
        · exact hall p g hmid hres
        · exact hrest hmem hslot
      · rw [flushSlot, if_neg hstream] at hg
        obtain ⟨hmid, hrest⟩ := ih hs hroom hg
        refine ⟨hmid, fun hmem hslot => ?_⟩
        rcases List.mem_cons.mp hmem with hres | hmem
        · exact absurd (hres ▸ hslot) hstream
        · exact hrest hmem hslot

/-- With room in the output `flushCompleted` takes every group of a streaming
resolution that the horizon has passed, and no other. -/
theorem flushCompleted_lookup (horizon : L) (streaming : Nat → Bool) (maxOutputBytes : Nat)
    {c : Compactor A L} (h : c.Indexed) {output : OutputBuffer (Record A)}
    (hroom : (c.flushAll kernel output).2.estimatedBytes < maxOutputBytes) (p : CellIndex) :
    (c.flushCompleted horizon streaming kernel output maxOutputBytes).1.pending.lookup p =
      (c.pending.lookup p).filter fun g =>
        !(streaming (slot g.childRes) && decide (horizon < g.siblingsSouth)) := by
  rw [estimatedBytes_flushAll] at hroom
  have hdissolves := flushCompleted_dissolves [] kernel c horizon streaming output maxOutputBytes
  have hleft : ∀ g,
      (c.flushCompleted horizon streaming kernel output maxOutputBytes).1.pending.lookup p =
        some g →
      c.pending.lookup p = some g ∧
        (streaming (slot g.childRes) = true → g.siblingsSouth ≤ horizon) := by
    intro g hg
    rw [flushCompleted_eq] at hg
    obtain ⟨hbefore, hpassed⟩ := flushSlots_left kernel horizon streaming maxOutputBytes
      (List.finRange 16) h hroom hg
    exact ⟨hbefore, hpassed (List.mem_finRange _)⟩
  ext g
  rw [Option.filter_eq_some_iff]
  constructor
  · intro hg
    obtain ⟨hbefore, hpassed⟩ := hleft g hg
    refine ⟨hbefore, ?_⟩
    cases hslot : streaming (slot g.childRes) with
    | false => rfl
    | true => simpa using hpassed hslot
  · rintro ⟨hg, hstays⟩
    refine hdissolves.lookup_stays hg fun hgo => ?_
    simp [hgo.1, hgo.2] at hstays

/-- A heap that is given away is worked off entry by entry. The group of an entry
that is still to come is indexed by it. -/
theorem flushEntries_indexed (res : Fin 16) (l : List (HeapEntry L))
    {s : Compactor A L × OutputBuffer (Record A)}
    (hcompletion : ∀ p g, s.1.pending.lookup p = some g →
      HeapEntry.of g.siblingsSouth p ∈ s.1.completion (slot g.childRes) ∨
        slot g.childRes = res ∧ HeapEntry.of g.siblingsSouth p ∈ l)
    (hemit : ∀ p g, s.1.pending.lookup p = some g → HeapEntry.of g.emitSouth p ∈ s.1.emit) :
    (l.foldl (fun s entry =>
      if s.1.isLiveCompletion res entry then s.1.flushParent entry.parent kernel s.2
      else s) s).1.Indexed := by
  induction l generalizing s with
  | nil => exact ⟨fun p g hg => (hcompletion p g hg).resolve_right fun h => (nomatch h.2), hemit⟩
  | cons entry l ih =>
      rw [List.foldl_cons]
      by_cases hlive : s.1.isLiveCompletion res entry = true
      · rw [if_pos hlive]
        obtain ⟨hpending, hcomp, hem⟩ := flushParent_eq kernel s.1 entry.parent s.2
        refine ih (fun p g hg => ?_) fun p g hg => ?_
        · rw [hpending] at hg
          obtain ⟨hne, hg⟩ := Pool.lookup_erase_of hg
          rw [hcomp]
          rcases hcompletion p g hg with hmem | ⟨hslot, hmem⟩
          · exact Or.inl hmem
          · rcases List.mem_cons.mp hmem with rfl | hmem
            · exact absurd rfl hne
            · exact Or.inr ⟨hslot, hmem⟩
        · rw [hpending] at hg
          rw [hem]
          exact hemit p g (Pool.lookup_erase_of hg).2
      · rw [if_neg hlive]
        refine ih (fun p g hg => ?_) hemit
        rcases hcompletion p g hg with hmem | ⟨hslot, hmem⟩
        · exact Or.inl hmem
        · rcases List.mem_cons.mp hmem with rfl | hmem
          · exact absurd (hslot ▸ isLiveCompletion_of_lookup hg) hlive
          · exact Or.inr ⟨hslot, hmem⟩

theorem Indexed.flushResolution {c : Compactor A L} (h : c.Indexed) (childRes : Nat)
    (output : OutputBuffer (Record A)) :
    (c.flushResolution childRes kernel output).1.Indexed := by
  refine flushEntries_indexed kernel (slot childRes) _ (fun p g hg => ?_) h.emit
  by_cases hslot : slot g.childRes = slot childRes
  · have hmem := h.completion p g hg
    rw [hslot] at hmem
    exact Or.inr ⟨hslot, hmem⟩
  · dsimp only
    rw [Function.update_of_ne hslot]
    exact Or.inl (h.completion p g hg)

end Rounds

section Arrival

variable [AccumulatorMerge A] [BoundedOrder L] (h3 : H3 L) (kernel : Kernel A) (sizeOfChild : Nat)

/-! A cell joins its group -/

/-- `pushCell` up to the rebuilding of the heaps. -/
def join (c : Compactor A L) (r : Record A) (p : CellIndex) (output : OutputBuffer (Record A)) :
    Compactor A L × OutputBuffer (Record A) :=
  let e := c.entry h3 kernel r.resolution p
  let group := e.1.add h3 r.h3Index r.accumulator
  settle { e.2 with emit := e.2.emit.push (HeapEntry.of group.emitSouth p) } h3 kernel sizeOfChild p
    group output

theorem pool_join (before : List (Record A)) (c : Compactor A L) (r : Record A) (p : CellIndex)
    (output : OutputBuffer (Record A)) :
    pool before (c.join h3 kernel sizeOfChild r p output).1
        (c.join h3 kernel sizeOfChild r p output).2 =
      (pool before c output).arrive h3 kernel sizeOfChild r p :=
  join_dissolves before kernel h3 sizeOfChild c output r p

omit [AccumulatorMerge A] in
theorem entry_indexed {c : Compactor A L} (h : c.Indexed) (res : Nat) (p : CellIndex) :
    let e := c.entry h3 kernel res p
    (∀ q g, q ≠ p → e.2.pending.lookup q = some g → c.pending.lookup q = some g) ∧
      (∀ i x, x ∈ c.completion i → x ∈ e.2.completion i) ∧ e.2.emit = c.emit ∧
      HeapEntry.of e.1.siblingsSouth p ∈ e.2.completion (slot e.1.childRes) := by
  unfold entry
  cases hp : c.pending.lookup p with
  | some g => exact ⟨fun _ _ _ hg => hg, fun _ _ hx => hx, rfl, h.completion p g hp⟩
  | none =>
      refine ⟨fun q g hq hg => ?_, fun i x hx => ?_, rfl, ?_⟩
      · rwa [AList.lookup_insert_ne hq] at hg
      · by_cases hi : i = slot res
        · subst hi
          simp only [Function.update_self, MaxHeap.mem_push]
          exact Or.inr hx
        · simpa only [Function.update_of_ne hi] using hx
      · simp [Group.new]

theorem Indexed.join {c : Compactor A L} (h : c.Indexed) (r : Record A) (p : CellIndex)
    (output : OutputBuffer (Record A)) :
    (c.join h3 kernel sizeOfChild r p output).1.Indexed := by
  obtain ⟨hothers, hkept, hemit, hown⟩ := entry_indexed h3 kernel h r.resolution p
  unfold Compactor.join settle
  dsimp only
  split
  next =>
    refine ⟨fun q g hg => ?_, fun q g hg => ?_⟩
    · obtain ⟨hq, hg⟩ := Pool.lookup_erase_of hg
      exact hkept _ _ (h.completion q g (hothers q g hq hg))
    · obtain ⟨hq, hg⟩ := Pool.lookup_erase_of hg
      rw [MaxHeap.mem_push, hemit]
      exact Or.inr (h.emit q g (hothers q g hq hg))
  next =>
    refine ⟨fun q g hg => ?_, fun q g hg => ?_⟩ <;> by_cases hq : q = p
    · subst hq
      rw [AList.lookup_insert] at hg
      cases hg
      exact hown
    · rw [AList.lookup_insert_ne hq] at hg
      exact hkept _ _ (h.completion q g (hothers q g hq hg))
    · subst hq
      rw [AList.lookup_insert] at hg
      cases hg
      exact MaxHeap.mem_push.mpr (Or.inl rfl)
    · rw [AList.lookup_insert_ne hq] at hg
      rw [MaxHeap.mem_push, hemit]
      exact Or.inr (h.emit q g (hothers q g hq hg))

/-- The states between operations, and those within them in which an index is
read. -/
inductive Reached : Compactor A L → Prop where
  | new (enabled : Bool) (byteLimit : Option Nat) (indexBytes : Nat → Nat) :
      Reached (.withByteLimit enabled byteLimit indexBytes)
  | join {c} (r : Record A) (p : CellIndex) (output : OutputBuffer (Record A)) : Reached c →
      Reached (c.join h3 kernel sizeOfChild r p output).1
  | compactIndexes {c} : Reached c → Reached c.compactIndexes
  | counted {c} (readings peakBytes forcedFlushes : Nat) : Reached c →
      Reached { c with
        readings := readings, peakBytes := peakBytes, forcedFlushes := forcedFlushes }
  | nextToComplete {c} : Reached c → Reached c.nextToComplete.2
  | takeTop {c} (res : Fin 16) (top : HeapEntry L) (output : OutputBuffer (Record A)) :
      Reached c → (c.completion res).peek = some top → Reached (c.takeTop kernel res top output).1
  | flushParent {c} (p : CellIndex) (output : OutputBuffer (Record A)) : Reached c →
      Reached (c.flushParent p kernel output).1
  | flushResolution {c} (childRes : Nat) (output : OutputBuffer (Record A)) : Reached c →
      Reached (c.flushResolution childRes kernel output).1
  | clear {c} : Reached c → Reached c.clear
  | pendingEmitSouth {c} : Reached c → Reached c.pendingEmitSouth.2

namespace Reached

variable {h3 kernel sizeOfChild} {c : Compactor A L}

theorem indexed (h : Reached h3 kernel sizeOfChild c) : c.Indexed := by
  induction h with
  | new => exact .of_empty rfl
  | join r p output _ ih => exact ih.join h3 kernel sizeOfChild r p output
  | compactIndexes _ ih => exact ih.compactIndexes
  | counted _ _ _ _ ih => exact ⟨ih.completion, ih.emit⟩
  | nextToComplete _ ih => exact ih.nextToComplete
  | takeTop res top output _ hpeek ih => exact ih.takeTop kernel hpeek output
  | flushParent p output _ ih => exact ih.flushParent kernel p output
  | flushResolution childRes output _ ih => exact ih.flushResolution kernel childRes output
  | clear => exact .of_empty rfl
  | pendingEmitSouth _ ih => exact ih.pendingEmitSouth

theorem balanced (h : Reached h3 kernel sizeOfChild c) :
    (pool [] c (.empty : OutputBuffer (Record A))).Balanced := by
  induction h with
  | new => rfl
  | @join c r p output _ ih =>
      have hbefore : (pool [] c output).Balanced := ih
      have harrive : ((pool [] c output).arrive h3 kernel sizeOfChild r p).Balanced :=
        Pool.balanced_arrive hbefore r p
      rw [← pool_join] at harrive
      exact harrive
  | compactIndexes _ ih => rwa [pool_compactIndexes]
  | counted _ _ _ _ ih => exact ih
  | nextToComplete _ ih => exact ih
  | @takeTop c res top output _ _ ih =>
      exact (takeTop_dissolves kernel [] c res top output).balanced ih
  | @flushParent c p output _ ih =>
      have hdissolves := flushParent_dissolves (P := fun _ _ => True) [] kernel c output p
        fun _ _ => trivial
      exact hdissolves.balanced ih
  | @flushResolution c childRes output _ ih =>
      exact (flushResolution_dissolves [] kernel c childRes output).balanced ih
  | clear => rfl
  | pendingEmitSouth _ ih => exact ih

/-! Whole operations go from one of these states to another -/

theorem enforceLoop (rounds : Nat) (h : Reached h3 kernel sizeOfChild c)
    (output : OutputBuffer (Record A)) (bytes : Nat) :
    Reached h3 kernel sizeOfChild (enforceLoop kernel rounds c output bytes).1 := by
  induction rounds generalizing c output bytes with
  | zero => exact h
  | succ rounds ih =>
      rw [Compactor.enforceLoop]
      split
      next =>
        split
        next c' hnext =>
          obtain rfl : c.nextToComplete.2 = c' := congrArg Prod.snd hnext
          exact h.nextToComplete
        next res entry c' hnext =>
          obtain rfl : c.nextToComplete.2 = c' := congrArg Prod.snd hnext
          have hfst : c.nextToComplete.1 = some (res, entry) := congrArg Prod.fst hnext
          dsimp only
          rw [evict_eq kernel h.indexed hfst]
          have htaken := h.nextToComplete.takeTop res entry output
            (nextToComplete_some h.indexed hfst).1
          exact ih (htaken.counted _ _ _) _ _
      next => exact h

theorem relieve (h : Reached h3 kernel sizeOfChild c) (output : OutputBuffer (Record A)) :
    Reached h3 kernel sizeOfChild (c.relieve kernel output).1 := by
  have hmeasured : Reached h3 kernel sizeOfChild c.reclaim.measured :=
    h.compactIndexes.counted _ _ _
  have hloop := hmeasured.enforceLoop c.reclaim.entries.length output c.reclaim.estimatedBytes
  unfold Compactor.relieve
  dsimp only
  split
  next => exact hloop.compactIndexes
  next => exact hloop

theorem enforceLimit (h : Reached h3 kernel sizeOfChild c) (output : OutputBuffer (Record A)) :
    Reached h3 kernel sizeOfChild (c.enforceLimit kernel output).1 := by
  have hpeak := h.counted (c.readings + 1) (max c.peakBytes c.estimatedBytes) c.forcedFlushes
  unfold Compactor.enforceLimit
  dsimp only
  split
  next => exact hpeak.relieve output
  next => exact hpeak

theorem pushCell (h : Reached h3 kernel sizeOfChild c) (r : Record A)
    (output : OutputBuffer (Record A)) :
    Reached h3 kernel sizeOfChild
      (c.pushCell h3 kernel sizeOfChild r.resolution r.h3Index r.accumulator output).1 := by
  unfold Compactor.pushCell
  split
  next => exact h
  next =>
    split
    next => exact h
    next p _ => exact (h.join r p output).compactIndexes.enforceLimit _

theorem flushHeap (horizon : L) (maxOutputBytes : Nat) (res : Fin 16) (rounds : Nat)
    (h : Reached h3 kernel sizeOfChild c) (output : OutputBuffer (Record A)) :
    Reached h3 kernel sizeOfChild
      (flushHeap horizon kernel maxOutputBytes res rounds c output).1 := by
  induction rounds generalizing c output with
  | zero => exact h
  | succ rounds ih =>
      rw [flushHeap_succ]
      split
      next => exact h
      next top htop =>
        split
        next => exact h
        next => exact ih (h.takeTop res top output htop) _

theorem flushCompleted (h : Reached h3 kernel sizeOfChild c) (horizon : L)
    (streaming : Nat → Bool) (output : OutputBuffer (Record A)) (maxOutputBytes : Nat) :
    Reached h3 kernel sizeOfChild
      (c.flushCompleted horizon streaming kernel output maxOutputBytes).1 := by
  rw [flushCompleted_eq]
  generalize hs : (c, output) = s
  replace h : Reached h3 kernel sizeOfChild s.1 := hs ▸ h
  clear hs
  induction List.finRange 16 generalizing s with
  | nil => exact h
  | cons res l ih =>
      rw [List.foldl_cons]
      refine ih _ ?_
      unfold flushSlot
      split
      next => exact h.flushHeap horizon maxOutputBytes res _ _
      next => exact h

theorem step {s : Feed A L} (h : Reached h3 kernel sizeOfChild s.compactor) (op : Op A L) :
    Reached h3 kernel sizeOfChild (s.step h3 kernel sizeOfChild op).compactor := by
  cases op with
  | push r => exact h.pushCell r s.output
  | flushCompleted horizon streaming maxOutputBytes =>
      exact h.flushCompleted horizon streaming s.output maxOutputBytes
  | flushParent parent => exact h.flushParent parent s.output
  | flushResolution childRes => exact h.flushResolution childRes s.output
  | flushAll => exact h.clear
  | drain maxRows => exact h

theorem run {s : Feed A L} (h : Reached h3 kernel sizeOfChild s.compactor) (ops : List (Op A L)) :
    Reached h3 kernel sizeOfChild (s.run h3 kernel sizeOfChild ops).compactor := by
  induction ops generalizing s with
  | nil => exact h
  | cons op ops ih => exact ih (h.step op)

end Reached

/-- The lazy indexes answer exactly, in every state an operation leaves or reads
them in. -/
theorem lazy_indexes_answer_exactly {c : Compactor A L} (h : Reached h3 kernel sizeOfChild c) :
    (∀ ops output drained, Reached h3 kernel sizeOfChild
      ((⟨c, output, drained⟩ : Feed A L).run h3 kernel sizeOfChild ops).compactor) ∧
    (∀ p g, c.pending.lookup p = some g →
      HeapEntry.of g.siblingsSouth p ∈ c.completion (slot g.childRes) ∧
        HeapEntry.of g.emitSouth p ∈ c.emit) ∧
    c.pendingEmitSouth.1 = (c.entries.map fun e => e.2.emitSouth).foldr max ⊥ ∧
    (∀ horizon streaming output maxOutputBytes,
      (c.flushAll kernel output).2.estimatedBytes < maxOutputBytes → ∀ p,
      (c.flushCompleted horizon streaming kernel output maxOutputBytes).1.pending.lookup p =
        (c.pending.lookup p).filter fun g =>
          !(streaming (slot g.childRes) && decide (horizon < g.siblingsSouth))) ∧
    (c.nextToComplete.1 = none ↔ c.entries = []) ∧
    (∀ res entry, c.nextToComplete.1 = some (res, entry) →
      ∃ g, c.pending.lookup entry.parent = some g ∧ slot g.childRes = res ∧
        g.siblingsSouth = entry.lat ∧
        ∀ q f, c.pending.lookup q = some f → f.siblingsSouth ≤ g.siblingsSouth) ∧
    c.groupBytes = (c.entries.map fun e => e.2.bytes).sum ∧
    ∀ output t, Pool.Dissolves (fun _ _ => True) (pool [] c output) t →
      ∀ p g, t.groups.lookup p = some g → g.bytes ≤ t.bytes := by
  have hind := h.indexed
  have hsome : ∀ res entry, c.nextToComplete.1 = some (res, entry) →
      ∃ g, c.pending.lookup entry.parent = some g ∧ slot g.childRes = res ∧
        g.siblingsSouth = entry.lat ∧
        ∀ q f, c.pending.lookup q = some f → f.siblingsSouth ≤ g.siblingsSouth := by
    intro res entry hnext
    obtain ⟨-, hlive, hall⟩ := nextToComplete_some hind hnext
    obtain ⟨g, hg, hslot, hlat⟩ := isLiveCompletion_iff.mp hlive
    exact ⟨g, hg, hslot, hlat, fun q f hf => (hall q f hf).trans hlat.ge⟩
  refine ⟨fun ops output drained => Reached.run h ops,
    fun p g hg => ⟨hind.completion p g hg, hind.emit p g hg⟩, pendingEmitSouth_eq hind,
    fun horizon streaming output maxOutputBytes hroom p =>
      flushCompleted_lookup kernel horizon streaming maxOutputBytes hind hroom p,
    ⟨fun hnext => entries_eq_nil (nextToComplete_none hind hnext), fun hempty => ?_⟩, hsome, ?_,
    fun output t ht p g hg => ht.bytes_le h.balanced hg⟩
  · cases hnext : c.nextToComplete.1 with
    | none => rfl
    | some best =>
        obtain ⟨g, hg, -⟩ := hsome best.1 best.2 hnext
        have hmem := mem_entries.mpr hg
        rw [hempty] at hmem
        cases hmem
  · rw [entries, List.map_map]
    exact h.balanced

end Arrival

/-- Three of seven siblings wait until the horizon has passed them all. -/
theorem lazy_indexes_answer_three :
    let kernel : Kernel (CategoricalAccumulator Nat) := ⟨.new, fun _ => true, 512⟩
    let c := ((Feed.new true (some 65536) fun _ => 1024).run baseGrid kernel 488
      (basePushes.take 3)).compactor
    c.pendingEmitSouth.1 = (c.entries.map fun e => e.2.emitSouth).foldr max ⊥ ∧
      c.nextToComplete.1 ≠ none ∧
      (c.flushCompleted 118 (fun _ => true) kernel .empty 4096).1.pending.lookup
        0x8029fffffffffff = none ∧
      c.groupBytes = (c.entries.map fun e => e.2.bytes).sum := by
  intro kernel c
  have hreached : Reached baseGrid kernel 488 c :=
    Reached.run (Reached.new true (some 65536) fun _ => 1024) (basePushes.take 3)
  obtain ⟨-, -, hemit, hflush, hnext, -, hbytes, -⟩ :=
    lazy_indexes_answer_exactly baseGrid kernel 488 hreached
  refine ⟨hemit, fun hnone => absurd (hnext.mp hnone) (by decide +kernel), ?_, hbytes⟩
  rw [hflush 118 (fun _ => true) .empty 4096 (by decide +kernel)]
  decide +kernel

end Compactor

end RasterH3.Agg
