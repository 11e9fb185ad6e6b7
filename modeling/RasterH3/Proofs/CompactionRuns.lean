import RasterH3.Agg.Categorical
import RasterH3.Agg.Config
import RasterH3.Proofs.Compaction

/-!
# Runs of the compactor

A run is any list of operations: pushes in any order, the four flushes at any time and with
any arguments, drains of the output. Nothing is assumed of the order in which the controller
would call them, since compaction has to conserve cells under all of them and under any byte
limit, which can force a group out at any push.

What a run has emitted is kept as a ledger, an account beside the state. Each emission has
the cells it was made from, one for a cell that is handed on and all siblings for a parent;
the ledger and the cells that are still pending are together the cells that were accepted,
each once. The step lemma `Ledger.step` says what one operation adds to the ledger, and when
that is a parent: exactly if the arrival of a cell finds all of its siblings pending
(`Completes`). The conservation of cells over a run follows by induction, and that no record
is emitted twice follows from the ledger alone.

Resolutions that lie one apart are not configured together. A parent that is made could
otherwise be one that was pushed, and would then be emitted twice. The configuration refuses
them, and the statement for the seven siblings of the witness takes its resolution from one
that validates.
-/

namespace RasterH3.Agg

variable {A L : Type}

inductive Op (A L : Type) where
  | push (record : Record A)
  | flushCompleted (horizon : L) (streaming : Nat → Bool) (maxOutputBytes : Nat)
  | flushParent (parent : CellIndex)
  | flushResolution (childRes : Nat)
  | flushAll
  | drain (maxRows : Nat)

/-- The cells an operation pushes. -/
def Op.pushed : Op A L → List (Record A)
  | .push r => [r]
  | _ => []

/-- The cells of a run that the filter lets pass. -/
def accepted (kernel : Kernel A) (ops : List (Op A L)) : List (Record A) :=
  (ops.flatMap Op.pushed).filter fun r => kernel.passesFilter r.accumulator

/-- Distinct cells of resolutions that may be configured together. -/
structure Pushes (h3 : H3 L) (resolutions : List Nat) (ops : List (Op A L)) : Prop where
  resolution : ∀ r ∈ ops.flatMap Op.pushed, r.resolution ∈ resolutions ∧
    (h3.isCell r.h3Index = true → h3.resolution r.h3Index = r.resolution)
  distinct : ((ops.flatMap Op.pushed).map Record.h3Index).Nodup

theorem accepted_append (kernel : Kernel A) (ops ops' : List (Op A L)) :
    accepted kernel (ops ++ ops') = accepted kernel ops ++ accepted kernel ops' := by
  simp [accepted]

theorem accepted_subset {kernel : Kernel A} {ops : List (Op A L)} {r : Record A}
    (h : r ∈ accepted kernel ops) : r ∈ ops.flatMap Op.pushed :=
  List.mem_of_mem_filter h

theorem Pushes.of_append {h3 : H3 L} {resolutions : List Nat} {ops ops' : List (Op A L)}
    (h : Pushes h3 resolutions (ops ++ ops')) : Pushes h3 resolutions ops := by
  have hsub : List.Sublist (ops.flatMap Op.pushed) ((ops ++ ops').flatMap Op.pushed) := by
    rw [List.flatMap_append]
    exact List.sublist_append_left _ _
  exact ⟨fun r hr => h.resolution r (hsub.subset hr), h.distinct.sublist (hsub.map _)⟩

variable [LinearOrder L]

def Compactor.pendingChildren (c : Compactor A L) (p : CellIndex) : List CellIndex :=
  ((c.pending.lookup p).map fun g => g.children.map Prod.fst).getD []

theorem map_pendingOf (before : List (Record A)) (c : Compactor A L)
    (output : OutputBuffer (Record A)) (p : CellIndex) :
    ((pool before c output).pendingOf p).map Record.h3Index = c.pendingChildren p := by
  unfold Pool.pendingOf Compactor.pendingChildren pool
  cases c.pending.lookup p with
  | none => rfl
  | some g => simp [Group.records, Function.comp_def]

/-- A compactor, its output buffer and what the consumer has drained so far. -/
structure Feed (A L : Type) [LinearOrder L] where
  compactor : Compactor A L
  output : OutputBuffer (Record A)
  drained : List (Record A)

namespace Feed

def new (enabled : Bool) (byteLimit : Option Nat) (indexBytes : Nat → Nat) : Feed A L where
  compactor := .withByteLimit enabled byteLimit indexBytes
  output := .empty
  drained := []

def records (s : Feed A L) : List (Record A) := s.drained ++ s.output.contents

def pool (s : Feed A L) : Pool A L := Agg.pool s.drained s.compactor s.output

theorem out_pool (s : Feed A L) : s.pool.out = s.records := rfl

end Feed

variable [AccumulatorMerge A] [BoundedOrder L]

/-- The arrival of `r` finds all of its siblings pending under `p`. -/
def Completes (h3 : H3 L) (kernel : Kernel A) (c : Compactor A L) (r : Record A)
    (p : CellIndex) : Prop :=
  kernel.passesFilter r.accumulator = true ∧ c.enabled = true ∧
    h3.parentOf r.h3Index = some p ∧
    ∀ d ∈ h3.children p, d = r.h3Index ∨ d ∈ c.pendingChildren p

/-- Pushing a cell adds to the ledger the parent it completes, or itself when it
has no parent to wait for; under a byte limit also cells that were pending. -/
theorem Ledger.pushCell {h3 : H3 L} {kernel : Kernel A} {Own : Record A → Prop}
    {accepted before : List (Record A)} {c : Compactor A L} {output : OutputBuffer (Record A)}
    {ledger : List (Emission A)}
    (h : Ledger h3 kernel Own accepted (pool before c output) ledger) (law : h3.Lawful)
    (sizeOfChild : Nat) {r : Record A}
    (hres : h3.isCell r.h3Index = true → h3.resolution r.h3Index = r.resolution)
    (hnd : ((accepted ++ [r]).map Record.h3Index).Nodup)
    (hown : c.enabled = false ∨ h3.parentOf r.h3Index = none → Own r)
    (hlimit : c.byteLimit ≠ none → ∀ r, Own r) :
    let s := c.pushCell h3 kernel sizeOfChild r.resolution r.h3Index r.accumulator output
    ∃ new, Ledger h3 kernel Own (accepted ++ [r].filter fun r => kernel.passesFilter r.accumulator)
        (pool before s.1 s.2) (ledger ++ new) ∧
      ∀ p, (∃ cs, .parent p cs ∈ new) ↔ Completes h3 kernel c r p := by
  intro s
  rcases Compactor.pushCell_cases before kernel h3 sizeOfChild c output r with
    ⟨hpass, hs⟩ | ⟨hpass, ⟨hnone, hs⟩ | ⟨henabled, p, hp, hs⟩⟩
  · refine ⟨[], ?_, fun p => ?_⟩
    · rw [show s = (c, output) from hs]
      simpa [hpass] using h
    · simp [Completes, hpass]
  · refine ⟨[.own r], ?_, fun p => ?_⟩
    · rw [show pool before s.1 s.2 = _ from hs]
      simpa [hpass] using h.emit_own (hown hnone)
    · refine ⟨fun ⟨cs, hcs⟩ => (by simp at hcs), fun hc => ?_⟩
      rcases hnone with hnone | hnone
      · exact absurd hc.2.1 (by simp [hnone])
      · exact absurd hc.2.2.1 (by simp [hnone])
  · have hres := hres (H3.isCell_of_parentOf hp)
    have harrive := h.arrive law sizeOfChild hp hres hnd
    obtain ⟨rs, hl⟩ := harrive.dissolves hs fun _ _ _ _ _ _ hne r _ => hlimit hne r
    rw [List.append_assoc] at hl
    refine ⟨_, by simpa [hpass] using hl, fun q => ?_⟩
    have hfull := h.joined_complete_iff law hp hres hnd
    rw [map_pendingOf] at hfull
    constructor
    · rintro ⟨cs, hcs⟩
      rcases List.mem_append.mp hcs with hcs | hcs
      · split at hcs
        next hlen =>
          cases List.mem_singleton.mp hcs
          exact ⟨hpass, henabled, hp, hfull.mp hlen⟩
        next => exact nomatch hcs
      · simp at hcs
    · rintro ⟨-, -, hq, hall⟩
      obtain rfl : p = q := Option.some.inj (hp.symm.trans hq)
      refine ⟨(Agg.pool before c output).pendingOf p ++ [r], List.mem_append_left _ ?_⟩
      rw [if_pos (hfull.mpr hall)]
      exact List.mem_singleton_self _

namespace Feed

def step (h3 : H3 L) (kernel : Kernel A) (sizeOfChild : Nat) (s : Feed A L) :
    Op A L → Feed A L
  | .push r =>
      let t := s.compactor.pushCell h3 kernel sizeOfChild r.resolution r.h3Index r.accumulator
        s.output
      { s with compactor := t.1, output := t.2 }
  | .flushCompleted horizon streaming maxOutputBytes =>
      let t := s.compactor.flushCompleted horizon streaming kernel s.output maxOutputBytes
      { s with compactor := t.1, output := t.2 }
  | .flushParent parent =>
      let t := s.compactor.flushParent parent kernel s.output
      { s with compactor := t.1, output := t.2 }
  | .flushResolution childRes =>
      let t := s.compactor.flushResolution childRes kernel s.output
      { s with compactor := t.1, output := t.2 }
  | .flushAll =>
      let t := s.compactor.flushAll kernel s.output
      { s with compactor := t.1, output := t.2 }
  | .drain maxRows =>
      let t := s.output.drainInto maxRows
      { s with output := t.2, drained := s.drained ++ t.1 }

def run (h3 : H3 L) (kernel : Kernel A) (sizeOfChild : Nat) (s : Feed A L)
    (ops : List (Op A L)) : Feed A L :=
  ops.foldl (step h3 kernel sizeOfChild) s

theorem run_append (h3 : H3 L) (kernel : Kernel A) (sizeOfChild : Nat) (s : Feed A L)
    (ops ops' : List (Op A L)) :
    s.run h3 kernel sizeOfChild (ops ++ ops') =
      (s.run h3 kernel sizeOfChild ops).run h3 kernel sizeOfChild ops' :=
  List.foldl_append

end Feed

/-- What one operation adds to the ledger. -/
theorem Ledger.step {h3 : H3 L} {kernel : Kernel A} {cells : List (Record A)} {s : Feed A L}
    {ledger : List (Emission A)}
    (h : Ledger h3 kernel (fun _ => True) cells s.pool ledger) (law : h3.Lawful)
    (sizeOfChild : Nat) (op : Op A L)
    (hres : ∀ r ∈ op.pushed, h3.isCell r.h3Index = true → h3.resolution r.h3Index = r.resolution)
    (hnd : ((cells ++ op.pushed).map Record.h3Index).Nodup) :
    ∃ new, Ledger h3 kernel (fun _ => True) (cells ++ accepted kernel [op])
        (s.step h3 kernel sizeOfChild op).pool (ledger ++ new) ∧
      ∀ p, (∃ cs, .parent p cs ∈ new) ↔ ∃ r, op = .push r ∧ Completes h3 kernel s.compactor r p := by
  have flush : ∀ {P t}, Pool.Dissolves P s.pool t →
      ∃ new, Ledger h3 kernel (fun _ => True) cells t (ledger ++ new) ∧
        ∀ p, ¬ ∃ cs, .parent p cs ∈ new := by
    intro P t ht
    obtain ⟨rs, hl⟩ := h.dissolves ht fun _ _ _ _ _ _ _ _ _ => trivial
    exact ⟨_, hl, fun p => by simp⟩
  cases op with
  | push r =>
      obtain ⟨new, hl, hiff⟩ := h.pushCell law sizeOfChild (hres r (List.mem_singleton_self r)) hnd
        (fun _ => trivial) (fun _ _ => trivial)
      refine ⟨new, hl, fun p => (hiff p).trans ⟨fun hc => ⟨r, rfl, hc⟩, ?_⟩⟩
      rintro ⟨_, ⟨rfl⟩, hc⟩
      exact hc
  | flushCompleted horizon streaming maxOutputBytes =>
      obtain ⟨new, hl, hno⟩ := flush (Compactor.flushCompleted_dissolves s.drained kernel
        s.compactor horizon streaming s.output maxOutputBytes)
      refine ⟨new, ?_, fun p => by simp [hno p]⟩
      rw [show accepted kernel [_] = [] from rfl, List.append_nil]
      exact hl
  | flushParent parent =>
      have ht : Pool.Dissolves (fun _ _ => True) _ _ :=
        Compactor.flushParent_dissolves s.drained kernel s.compactor s.output parent
          fun _ _ => trivial
      obtain ⟨new, hl, hno⟩ := flush ht
      refine ⟨new, ?_, fun p => by simp [hno p]⟩
      rw [show accepted kernel [_] = [] from rfl, List.append_nil]
      exact hl
  | flushResolution childRes =>
      obtain ⟨new, hl, hno⟩ := flush (Compactor.flushResolution_dissolves s.drained kernel
        s.compactor childRes s.output)
      refine ⟨new, ?_, fun p => by simp [hno p]⟩
      rw [show accepted kernel [_] = [] from rfl, List.append_nil]
      exact hl
  | flushAll =>
      obtain ⟨t, ht, hempty, hs⟩ := Compactor.flushAll_dissolves s.drained kernel
        s.compactor s.output
      obtain ⟨new, hl, hno⟩ := flush ht
      refine ⟨new, ?_, fun p => by simp [hno p]⟩
      rw [show (s.step h3 kernel sizeOfChild .flushAll).pool = _ from hs]
      have : Ledger h3 kernel (fun _ => True) cells { t with bytes := 0 } (ledger ++ new) :=
        ⟨hl.records, hl.cells, hl.complete, hl.owns, hl.groups⟩
      simpa [accepted, Op.pushed] using this
  | drain maxRows =>
      refine ⟨[], ?_, fun p => by simp⟩
      have hout : (s.step h3 kernel sizeOfChild (.drain maxRows)).pool = s.pool := by
        simp only [Feed.pool, Feed.step, pool, List.append_assoc, OutputBuffer.drainInto_append]
      rw [hout]
      simpa [accepted, Op.pushed] using h

theorem run_ledger {h3 : H3 L} (law : h3.Lawful) (kernel : Kernel A) (sizeOfChild : Nat)
    {resolutions : List Nat} (enabled : Bool) (byteLimit : Option Nat) (indexBytes : Nat → Nat)
    (ops : List (Op A L)) (hops : Pushes h3 resolutions ops) :
    ∃ ledger, Ledger h3 kernel (fun _ => True) (accepted kernel ops)
      ((Feed.new enabled byteLimit indexBytes).run h3 kernel sizeOfChild ops).pool ledger := by
  induction ops using List.reverseRecOn with
  | nil => exact ⟨[], Ledger.initial h3 kernel _ enabled byteLimit 0⟩
  | append_singleton ops op ih =>
      obtain ⟨ledger, hl⟩ := ih hops.of_append
      obtain ⟨new, hl, -⟩ := hl.step law sizeOfChild op
        (fun r hr => (hops.resolution r (by simp [hr])).2) (by
          have := hops.distinct
          rw [List.flatMap_append, List.flatMap_singleton] at this
          exact this.sublist ((List.filter_sublist.append_right _).map _))
      rw [Feed.run_append, accepted_append]
      exact ⟨_, hl⟩

/-- One step of a run adds records, and a parent exactly when the step is the
arrival of a last sibling. -/
theorem run_step_parents {h3 : H3 L} (law : h3.Lawful) (kernel : Kernel A) (sizeOfChild : Nat)
    {resolutions : List Nat} (hadj : ∀ r ∈ resolutions, r + 1 ∉ resolutions) (enabled : Bool)
    (byteLimit : Option Nat) (indexBytes : Nat → Nat) (ops : List (Op A L)) (op : Op A L)
    (hops : Pushes h3 resolutions (ops ++ [op])) :
    let s := (Feed.new enabled byteLimit indexBytes).run h3 kernel sizeOfChild ops
    ∃ new, (s.step h3 kernel sizeOfChild op).records = s.records ++ new ∧
      ∀ p, (∃ r ∈ new, r.h3Index = p ∧ r.resolution ∉ resolutions) ↔
        ∃ r, op = .push r ∧ Completes h3 kernel s.compactor r p := by
  intro s
  obtain ⟨ledger, hl⟩ := run_ledger law kernel sizeOfChild enabled byteLimit indexBytes ops
    hops.of_append
  obtain ⟨new, hl', hiff⟩ := hl.step law sizeOfChild op
    (fun r hr => (hops.resolution r (by simp [hr])).2) (by
      have := hops.distinct
      rw [List.flatMap_append, List.flatMap_singleton] at this
      exact this.sublist ((List.filter_sublist.append_right _).map _))
  have hcells : ∀ r ∈ accepted kernel ops ++ accepted kernel [op], r.resolution ∈ resolutions ∧
      (h3.isCell r.h3Index = true → h3.resolution r.h3Index = r.resolution) := by
    intro r hr
    rw [← accepted_append] at hr
    exact hops.resolution r (accepted_subset hr)
  refine ⟨new.map (Emission.record h3 kernel), ?_, fun p => Iff.trans ?_ (hiff p)⟩
  · rw [← Feed.out_pool, ← Feed.out_pool, hl'.records, hl.records, List.map_append]
  · constructor
    · rintro ⟨r, hr, rfl, hres⟩
      obtain ⟨e, he, rfl⟩ := List.mem_map.mp hr
      cases e with
      | own r =>
          have := hl'.mem_accepted (List.mem_append_right _ he) (List.mem_singleton_self r)
          exact absurd (hcells r this).1 hres
      | parent q cs => exact ⟨cs, he⟩
    · rintro ⟨cs, hcs⟩
      refine ⟨_, List.mem_map_of_mem hcs, rfl, fun hmem => ?_⟩
      obtain ⟨r, hr, hp⟩ := hl'.exists_child law (List.mem_append_right _ hcs)
      have hr := hcells r hr
      refine hadj _ hmem ?_
      rw [show (Emission.record h3 kernel (.parent p cs)).resolution = h3.resolution p from rfl,
        law.resolution_parent hp, hr.2 (H3.isCell_of_parentOf hp)]
      exact hr.1

/-- Compaction conserves cells, whatever the order of pushes, flushes and drains
and whatever the byte limit. -/
theorem compaction_conserves_cells {h3 : H3 L} (law : h3.Lawful) (kernel : Kernel A)
    (sizeOfChild : Nat) {resolutions : List Nat} (hadj : ∀ r ∈ resolutions, r + 1 ∉ resolutions)
    (enabled : Bool) (byteLimit : Option Nat) (indexBytes : Nat → Nat) (ops : List (Op A L))
    (hops : Pushes h3 resolutions (ops ++ [.flushAll])) :
    let run := (Feed.new enabled byteLimit indexBytes).run h3 kernel sizeOfChild
    let final := run (ops ++ [.flushAll])
    (∃ ledger : List (Emission A),
      final.records = ledger.map (Emission.record h3 kernel) ∧
      (ledger.flatMap Emission.cells).Perm (accepted kernel ops) ∧
      ∀ p cs, .parent p cs ∈ ledger →
        cs.length = h3.siblings p ∧ (cs.map Record.h3Index).Perm (h3.children p)) ∧
    (∀ before op after, ops ++ [.flushAll] = before ++ op :: after →
      ∃ new, (run (before ++ [op])).records = (run before).records ++ new ∧
        ∀ p, (∃ r ∈ new, r.h3Index = p ∧ r.resolution ∉ resolutions) ↔
          ∃ r, op = .push r ∧ Completes h3 kernel (run before).compactor r p) ∧
    (final.records.map fun r => (r.resolution, r.h3Index)).Nodup ∧
    final.compactor.pending = ∅ ∧ final.compactor.groupBytes = 0 := by
  intro run final
  obtain ⟨ledger, hl⟩ := run_ledger law kernel sizeOfChild enabled byteLimit indexBytes _ hops
  have hempty : final.compactor.pending = ∅ ∧ final.compactor.groupBytes = 0 := by
    simp only [final, run, Feed.run_append]
    exact ⟨rfl, rfl⟩
  have haccepted : accepted kernel (ops ++ [.flushAll]) = accepted kernel ops := by
    simp [accepted, Op.pushed]
  refine ⟨⟨ledger, hl.records, ?_, fun p cs he => ?_⟩, fun before op after heq => ?_, ?_, hempty⟩
  · have hgroups : (final.pool).groups = ∅ := hempty.1
    have := hl.cells
    rw [haccepted] at this
    simpa [show ((Feed.new enabled byteLimit indexBytes).run h3 kernel sizeOfChild
      (ops ++ [.flushAll])).pool.groups = ∅ from hgroups] using this
  · obtain ⟨-, hperm⟩ := hl.complete p cs he
    obtain ⟨r, -, hp⟩ := hl.exists_child law he
    exact ⟨by rw [← law.length_children hp, ← hperm.length_eq, List.length_map], hperm⟩
  · have hrun : run (before ++ [op]) = (run before).step h3 kernel sizeOfChild op := by
      simp only [run, Feed.run_append]
      rfl
    rw [hrun]
    refine run_step_parents law kernel sizeOfChild hadj enabled byteLimit indexBytes before op ?_
    rw [heq, List.append_cons] at hops
    exact hops.of_append
  · exact hl.keys_nodup law hadj (fun r hr => hops.resolution r (accepted_subset hr))
      (hops.distinct.sublist (List.filter_sublist.map _))

/-- The children of the base cell 20, from the centre outwards, with southern
bounds in degrees from the south pole. -/
def baseChildren : List (CellIndex × Nat) :=
  [(0x81283ffffffffff, 124), (0x81287ffffffffff, 119), (0x8128bffffffffff, 127),
    (0x8128fffffffffff, 123), (0x81293ffffffffff, 126), (0x81297ffffffffff, 120),
    (0x8129bffffffffff, 129)]

/-- The part of the grid that hangs under the base cell 20, down to resolution 1. -/
def baseGrid : H3 (Fin 181) where
  isCell := fun c => c = 0x8029fffffffffff ∨ c ∈ baseChildren.map Prod.fst
  resolution := fun c => if c = 0x8029fffffffffff then 0 else 1
  parent := fun _ => 0x8029fffffffffff
  children := fun p => if p = 0x8029fffffffffff then baseChildren.map Prod.fst else []
  isPentagon := fun _ => false
  southLat := fun c => Fin.ofNat 181 ((baseChildren.lookup c).getD 120)

theorem baseGrid_parentOf {c p : CellIndex} :
    baseGrid.parentOf c = some p ↔
      p = 0x8029fffffffffff ∧ c ∈ baseChildren.map Prod.fst := by
  have hnot : (0x8029fffffffffff : CellIndex) ∉ baseChildren.map Prod.fst := by decide +kernel
  by_cases hp : c = 0x8029fffffffffff
  · subst hp
    simp [H3.parentOf, baseGrid, hnot]
  · by_cases hc : c ∈ baseChildren.map Prod.fst <;>
      simp only [H3.parentOf, baseGrid, hp, hc] <;> simp [eq_comm]

theorem baseGrid_lawful : baseGrid.Lawful where
  isCell_parent := fun h => by
    obtain ⟨rfl, -⟩ := baseGrid_parentOf.mp h
    rfl
  resolution_parent := fun {c p} h => by
    obtain ⟨rfl, hc⟩ := baseGrid_parentOf.mp h
    have hnot : (0x8029fffffffffff : CellIndex) ∉ baseChildren.map Prod.fst := by decide +kernel
    have hne : c ≠ 0x8029fffffffffff := fun heq => hnot (heq ▸ hc)
    simp [baseGrid, hne]
  mem_children := fun {c p} => by
    rw [baseGrid_parentOf, baseGrid]
    dsimp only
    split <;> simp_all
  nodup_children := fun p => by
    rw [baseGrid]
    dsimp only
    split
    next => decide +kernel
    next => exact List.nodup_nil
  length_children := fun h => by
    obtain ⟨rfl, -⟩ := baseGrid_parentOf.mp h
    rfl
  parent_mono := fun hc hd _ _ => by
    rw [(baseGrid_parentOf.mp hc).1, (baseGrid_parentOf.mp hd).1]

/-- Seven siblings of one sample each, with a horizon flush and a drain in
between that do not reach their group. -/
def basePushes : List (Op (CategoricalAccumulator Nat) (Fin 181)) :=
  (baseChildren.take 3).map (fun c => .push ⟨1, c.1, CategoricalAccumulator.new.update 1⟩) ++
    [.flushCompleted 119 (fun _ => true) 4096, .drain 10] ++
    (baseChildren.drop 3).map fun c => .push ⟨1, c.1, CategoricalAccumulator.new.update 1⟩

theorem pushes_basePushes : Pushes baseGrid [1] (basePushes ++ [.flushAll]) := by
  refine ⟨?_, by decide +kernel⟩
  have : (basePushes ++ [Op.flushAll]).flatMap Op.pushed =
      baseChildren.map fun c => ⟨1, c.1, CategoricalAccumulator.new.update 1⟩ := rfl
  rw [this]
  intro r hr
  obtain ⟨c, hc, rfl⟩ := List.mem_map.mp hr
  have hparent := baseGrid_parentOf.mpr ⟨rfl, List.mem_map_of_mem hc⟩
  exact ⟨List.mem_singleton_self 1, fun _ => (baseGrid_lawful.resolution_parent hparent).symm⟩

/-- The resolution is that of a configuration that validates. -/
theorem compaction_conserves_seven_children :
    let kernel : Kernel (CategoricalAccumulator Nat) := ⟨.new, fun _ => true, 512⟩
    let final := (Feed.new true (some 65536) fun _ => 1024).run baseGrid kernel 488
      (basePushes ++ [.flushAll])
    (final.records.map fun r => (r.resolution, r.h3Index)) = [(0, 0x8029fffffffffff)] ∧
    (final.records.map fun r => (r.resolution, r.h3Index)).Nodup ∧
    final.compactor.pending = ∅ ∧ final.compactor.groupBytes = 0 := by
  intro kernel final
  let config : MultiResolutionConfig :=
    { resolutions := [1]
      aggregationBudgetBytes := 65536
      compactionBudgetBytes := some 65536
      aggregationWorkers := none
      compactH3Children := true
      compact := false
      strictTransforms := true
      partitioned := false }
  have hvalid : config.Valid := MultiResolutionConfig.valid_of_validate (by decide +kernel)
  exact ⟨by decide +kernel,
    (compaction_conserves_cells baseGrid_lawful kernel 488 (hvalid.notAdjacent rfl) true
      (some 65536) (fun _ => 1024) basePushes pushes_basePushes).2.2⟩

end RasterH3.Agg
