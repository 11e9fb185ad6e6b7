import Mathlib.Data.List.Flatten
import RasterH3.Agg.Compaction

/-!
# What a compactor is for: a pool of groups and a ledger

Stripped of its heaps, limits and readings, a compactor is a pool of groups that
does two things. A cell arrives and joins its parent's group, and with the last
sibling the group leaves as one parent record. Or a group is dissolved and leaves
as the records of its children. When a group may be dissolved is left open here:
`Dissolves P` is any number of dissolutions, each of a group that satisfies `P`,
and every flushing path of the compactor turns out to be one of these.

The ledger explains the output. It is the list of emissions behind the records,
each with the accepted cells it stands for, and the invariant `Ledger` says that
these cells and the pending ones are the accepted cells, each exactly once, and
that a parent was emitted for all of its children and nothing else. Its parameter
`Own` records what may be said of every cell that left on its own.
-/

namespace RasterH3.Agg

open AccumulatorMerge

structure Pool (A L : Type) where
  enabled : Bool
  byteLimit : Option Nat
  groups : Groups A L
  bytes : Nat
  out : List (Record A)

namespace Group

variable {A L : Type}

/-- The children of a group as the cells they are. -/
def records (g : Group A L) : List (Record A) :=
  g.children.map fun c => ⟨g.childRes, c.1, c.2⟩

theorem length_records (g : Group A L) : g.records.length = g.children.length :=
  List.length_map _

end Group

/-- A table entry is one of its entries and the rest. -/
theorem Groups.perm_erase {A L : Type} {groups : Groups A L} {p : CellIndex} {g : Group A L}
    (h : groups.lookup p = some g) :
    groups.entries.Perm (⟨p, g⟩ :: (groups.erase p).entries) := by
  have hmem : ⟨p, g⟩ ∈ groups.entries := AList.mem_lookup_iff.mp h
  have hnd : (groups.erase p).entries.Nodup := (groups.erase p).nodupKeys.nodup
  have hnotin : (⟨p, g⟩ : Sigma fun _ : CellIndex => Group A L) ∉ (groups.erase p).entries := by
    intro hin
    have : p ∈ groups.erase p := List.mem_keys_of_mem hin
    simp at this
  refine (List.perm_ext_iff_of_nodup groups.nodupKeys.nodup
    (List.nodup_cons.mpr ⟨hnotin, hnd⟩)).mpr fun e => ?_
  obtain ⟨q, f⟩ := e
  rw [List.mem_cons, ← AList.mem_lookup_iff, ← AList.mem_lookup_iff]
  by_cases hq : q = p
  · subst hq
    simp [h, eq_comm]
  · rw [AList.lookup_erase_ne hq]
    simp [hq]

theorem Groups.erase_insert {A L : Type} (groups : Groups A L) (p : CellIndex) (g : Group A L) :
    (groups.insert p g).erase p = groups.erase p := by
  refine AList.ext ?_
  let e : Sigma fun _ : CellIndex => Group A L := ⟨p, g⟩
  show (e :: groups.entries.kerase p).kerase p = groups.entries.kerase p
  exact List.kerase_cons_eq rfl

namespace Pool

variable {A L : Type}

/-- The group of `p` leaves as its children. -/
def dissolve (s : Pool A L) (p : CellIndex) (g : Group A L) : Pool A L :=
  { s with
    groups := s.groups.erase p
    bytes := s.bytes - g.bytes
    out := s.out ++ g.records }

inductive Dissolves (P : CellIndex → Group A L → Prop) : Pool A L → Pool A L → Prop where
  | refl (s) : Dissolves P s s
  | step {s t p g} : Dissolves P s t → t.groups.lookup p = some g → P p g →
      Dissolves P s (t.dissolve p g)

namespace Dissolves

variable {P Q : CellIndex → Group A L → Prop} {s t u : Pool A L}

theorem trans (h₁ : Dissolves P s t) (h₂ : Dissolves P t u) : Dissolves P s u := by
  induction h₂ with
  | refl => exact h₁
  | step _ hg hP ih => exact ih.step hg hP

theorem mono (hPQ : ∀ p g, P p g → Q p g) (h : Dissolves P s t) : Dissolves Q s t := by
  induction h with
  | refl => exact .refl _
  | step _ hg hP ih => exact ih.step hg (hPQ _ _ hP)

theorem single {p : CellIndex} {g : Group A L} (hg : s.groups.lookup p = some g) (hP : P p g) :
    Dissolves P s (s.dissolve p g) :=
  (Dissolves.refl s).step hg hP

theorem frame (h : Dissolves P s t) :
    t.enabled = s.enabled ∧ t.byteLimit = s.byteLimit := by
  induction h with
  | refl => exact ⟨rfl, rfl⟩
  | step _ _ _ ih => exact ih

/-- Groups only leave. -/
theorem lookup_of (h : Dissolves P s t) {p : CellIndex} {g : Group A L}
    (hg : t.groups.lookup p = some g) : s.groups.lookup p = some g := by
  induction h with
  | refl => exact hg
  | @step _ q _ _ _ _ ih =>
      refine ih ?_
      by_cases hq : p = q
      · subst hq
        simp [dissolve] at hg
      · rwa [dissolve, AList.lookup_erase_ne hq] at hg

/-- Groups that may not be dissolved stay. -/
theorem lookup_stays (h : Dissolves P s t) {p : CellIndex} {g : Group A L}
    (hg : s.groups.lookup p = some g) (hP : ¬ P p g) : t.groups.lookup p = some g := by
  induction h with
  | refl => exact hg
  | @step _ q f _ hf hPf ih =>
      by_cases hq : p = q
      · subst hq
        cases ih.symm.trans hf
        exact absurd hPf hP
      · rwa [dissolve, AList.lookup_erase_ne hq]

end Dissolves

section Arrival

variable [AccumulatorMerge A] [LinearOrder L] [BoundedOrder L]

/-- The group a cell finds or opens, with the cell in it. -/
def joined (h3 : H3 L) (kernel : Kernel A) (s : Pool A L) (r : Record A) (p : CellIndex) :
    Group A L :=
  ((s.groups.lookup p).getD (Group.new h3 kernel r.resolution p)).add h3 r.h3Index r.accumulator

/-- The cell of `r` joins the group of its parent `p`. -/
def arrive (h3 : H3 L) (kernel : Kernel A) (sizeOfChild : Nat) (s : Pool A L) (r : Record A)
    (p : CellIndex) : Pool A L :=
  let g := s.joined h3 kernel r p
  if g.children.length = h3.siblings p then
    { s with
      groups := s.groups.erase p
      bytes := s.bytes - g.bytes
      out := s.out ++ [⟨h3.resolution p, p, g.parentAcc⟩] }
  else
    { s with
      groups := s.groups.insert p { g with bytes := g.ownedBytes sizeOfChild }
      bytes := s.bytes - g.bytes + g.ownedBytes sizeOfChild }

theorem frame_arrive (h3 : H3 L) (kernel : Kernel A) (sizeOfChild : Nat) (s : Pool A L)
    (r : Record A) (p : CellIndex) :
    (s.arrive h3 kernel sizeOfChild r p).enabled = s.enabled ∧
      (s.arrive h3 kernel sizeOfChild r p).byteLimit = s.byteLimit := by
  unfold arrive
  simp only
  split <;> exact ⟨rfl, rfl⟩

end Arrival

/-! The byte count -/

def Balanced (s : Pool A L) : Prop :=
  s.bytes = (s.groups.entries.map fun e => e.2.bytes).sum

theorem sum_bytes_erase {groups : Groups A L} {p : CellIndex} {g : Group A L}
    (hg : groups.lookup p = some g) :
    (groups.entries.map fun e => e.2.bytes).sum =
      g.bytes + ((groups.erase p).entries.map fun e => e.2.bytes).sum := by
  rw [((Groups.perm_erase hg).map _).sum_eq]
  rfl

theorem Dissolves.balanced {P : CellIndex → Group A L → Prop} {s t : Pool A L}
    (h : Dissolves P s t) (hs : s.Balanced) : t.Balanced := by
  induction h with
  | refl => exact hs
  | step _ hg _ ih =>
      have := sum_bytes_erase hg
      unfold Balanced at ih ⊢
      simp only [dissolve]
      omega

/-- No removal takes more than is left, whatever has been removed before. -/
theorem Dissolves.bytes_le {P : CellIndex → Group A L → Prop} {s t : Pool A L}
    (h : Dissolves P s t) (hs : s.Balanced) {p : CellIndex} {g : Group A L}
    (hg : t.groups.lookup p = some g) : g.bytes ≤ t.bytes := by
  have hsum := sum_bytes_erase hg
  have hbalanced : t.bytes = (t.groups.entries.map fun e => e.2.bytes).sum := h.balanced hs
  omega

theorem balanced_arrive [AccumulatorMerge A] [LinearOrder L] [BoundedOrder L] {h3 : H3 L}
    {kernel : Kernel A} {sizeOfChild : Nat} {s : Pool A L} (hs : s.Balanced) (r : Record A)
    (p : CellIndex) : (s.arrive h3 kernel sizeOfChild r p).Balanced := by
  have hsum : s.bytes - (s.joined h3 kernel r p).bytes =
      ((s.groups.erase p).entries.map fun e => e.2.bytes).sum := by
    unfold Balanced at hs
    unfold joined
    cases hl : s.groups.lookup p with
    | none =>
        have hp : p ∉ s.groups := AList.lookup_eq_none.mp hl
        have herase : s.groups.erase p = s.groups :=
          AList.ext (List.kerase_of_notMem_keys hp)
        simp [Group.add, Group.new, herase, hs]
    | some g =>
        have := sum_bytes_erase hl
        simp only [Option.getD_some, Group.add]
        omega
  unfold arrive Balanced
  simp only
  split
  next => exact hsum
  next =>
    simp only [AList.entries_insert, List.map_cons, List.sum_cons]
    rw [hsum]
    exact Nat.add_comm _ _

end Pool

/-! The ledger -/

/-- What stands behind one record of the output. -/
inductive Emission (A : Type) where
  | own (record : Record A)
  | parent (key : CellIndex) (children : List (Record A))

def Emission.cells {A : Type} : Emission A → List (Record A)
  | own record => [record]
  | parent _ children => children

section Ledger

variable {A L : Type}

namespace Pool

/-- The pending children of `p`. -/
def pendingOf (s : Pool A L) (p : CellIndex) : List (Record A) :=
  ((s.groups.lookup p).map Group.records).getD []

theorem pendingOf_of_lookup {s : Pool A L} {p : CellIndex} {g : Group A L}
    (h : s.groups.lookup p = some g) : s.pendingOf p = g.records := by
  simp [pendingOf, h]

theorem perm_pendingOf (s : Pool A L) (p : CellIndex) :
    (s.groups.entries.flatMap fun e => e.2.records).Perm
      (s.pendingOf p ++ (s.groups.erase p).entries.flatMap fun e => e.2.records) := by
  cases h : s.groups.lookup p with
  | none =>
      have hp : p ∉ s.groups := AList.lookup_eq_none.mp h
      have herase : s.groups.erase p = s.groups := AList.ext (List.kerase_of_notMem_keys hp)
      simp [pendingOf, h, herase]
  | some g =>
      rw [pendingOf_of_lookup h]
      exact (Groups.perm_erase h).flatMap_right _

theorem lookup_erase_of {groups : Groups A L} {p q : CellIndex} {g : Group A L}
    (h : (groups.erase p).lookup q = some g) : q ≠ p ∧ groups.lookup q = some g := by
  have hq : q ≠ p := by
    rintro rfl
    simp at h
  exact ⟨hq, by rwa [AList.lookup_erase_ne hq] at h⟩

end Pool

theorem flatMap_cells_own (records : List (Record A)) :
    (records.map Emission.own).flatMap Emission.cells = records := by
  simp [List.flatMap_map, Emission.cells]

variable [AccumulatorMerge A]

/-- The state of a parent that absorbed these cells. -/
def mergedState (kernel : Kernel A) (cells : List (Record A)) : A :=
  (cells.map Record.accumulator).foldl merge kernel.newParentAccumulator

namespace Emission

def record (h3 : H3 L) (kernel : Kernel A) : Emission A → Record A
  | own record => record
  | parent key children => ⟨h3.resolution key, key, mergedState kernel children⟩

end Emission

theorem map_record_own (h3 : H3 L) (kernel : Kernel A) (records : List (Record A)) :
    (records.map Emission.own).map (Emission.record h3 kernel) = records := by
  simp [Function.comp_def, Emission.record]

variable [LinearOrder L] [BoundedOrder L]

/-- A group that waits: some of its parent's children, not all, under the keys
its heap entries carry. -/
structure GroupOk (h3 : H3 L) (kernel : Kernel A) (p : CellIndex) (g : Group A L) : Prop where
  nonempty : g.children ≠ []
  short : g.children.length < h3.siblings p
  parents : ∀ r ∈ g.records, h3.parentOf r.h3Index = some p
  childRes : g.childRes = h3.resolution p + 1
  acc : g.parentAcc = mergedState kernel g.records
  siblingsSouth : g.siblingsSouth = h3.siblingsSouth p
  emitSouth : g.emitSouth =
    (g.records.map fun r => h3.southLat r.h3Index).foldl max (h3.southLat p)

structure Ledger (h3 : H3 L) (kernel : Kernel A) (Own : Record A → Prop)
    (accepted : List (Record A)) (s : Pool A L) (ledger : List (Emission A)) : Prop where
  records : s.out = ledger.map (Emission.record h3 kernel)
  cells : (ledger.flatMap Emission.cells ++ s.groups.entries.flatMap fun e => e.2.records).Perm
    accepted
  complete : ∀ p cs, .parent p cs ∈ ledger →
    cs ≠ [] ∧ (cs.map Record.h3Index).Perm (h3.children p)
  owns : ∀ r, .own r ∈ ledger → Own r
  groups : ∀ p g, s.groups.lookup p = some g → GroupOk h3 kernel p g

namespace Ledger

variable {h3 : H3 L} {kernel : Kernel A} {Own : Record A → Prop} {accepted : List (Record A)}
  {s t : Pool A L} {ledger : List (Emission A)}

theorem initial (h3 : H3 L) (kernel : Kernel A) (Own : Record A → Prop) (enabled : Bool)
    (byteLimit : Option Nat) (bytes : Nat) :
    Ledger h3 kernel Own [] ⟨enabled, byteLimit, ∅, bytes, []⟩ [] where
  records := rfl
  cells := List.Perm.nil
  complete := fun _ _ h => nomatch h
  owns := fun _ h => nomatch h
  groups := fun p g h => by simp at h

theorem dissolve (h : Ledger h3 kernel Own accepted s ledger) {p : CellIndex} {g : Group A L}
    (hg : s.groups.lookup p = some g) (hown : ∀ r ∈ g.records, Own r) :
    Ledger h3 kernel Own accepted (s.dissolve p g) (ledger ++ g.records.map .own) where
  records := by
    rw [List.map_append, map_record_own, ← h.records]
    rfl
  cells := by
    refine List.Perm.trans ?_ h.cells
    rw [List.flatMap_append, flatMap_cells_own, List.append_assoc]
    refine List.Perm.append_left _ ?_
    rw [← Pool.pendingOf_of_lookup hg]
    exact (s.perm_pendingOf p).symm
  complete := fun q cs hq => by
    rcases List.mem_append.mp hq with hq | hq
    · exact h.complete q cs hq
    · simp at hq
  owns := fun r hr => by
    rcases List.mem_append.mp hr with hr | hr
    · exact h.owns r hr
    · obtain ⟨r', hr', heq⟩ := List.mem_map.mp hr
      cases heq
      exact hown _ hr'
  groups := fun q f hf => h.groups q f (Pool.lookup_erase_of hf).2

/-- Dissolving groups keeps the ledger when the cells that leave may leave. -/
theorem dissolves {P : CellIndex → Group A L → Prop} (hs : Pool.Dissolves P s t)
    (h : Ledger h3 kernel Own accepted s ledger)
    (hown : ∀ u l p g, Ledger h3 kernel Own accepted u l → u.groups.lookup p = some g → P p g →
      ∀ r ∈ g.records, Own r) :
    ∃ rs : List (Record A), Ledger h3 kernel Own accepted t (ledger ++ rs.map .own) := by
  induction hs with
  | refl => exact ⟨[], by rwa [List.map_nil, List.append_nil]⟩
  | @step t p g _ hg hP ih =>
      obtain ⟨rs, hl⟩ := ih
      refine ⟨rs ++ g.records, ?_⟩
      rw [List.map_append, ← List.append_assoc]
      exact hl.dissolve hg (hown t _ p g hl hg hP)

/-- A cell that has no parent to wait for. -/
theorem emit_own (h : Ledger h3 kernel Own accepted s ledger) {r : Record A} (hown : Own r) :
    Ledger h3 kernel Own (accepted ++ [r]) { s with out := s.out ++ [r] } (ledger ++ [.own r]) where
  records := by simp [h.records, Emission.record]
  cells := by
    rw [List.flatMap_append, List.append_assoc]
    refine List.Perm.trans (List.Perm.append_left _ List.perm_append_comm) ?_
    rw [← List.append_assoc]
    exact h.cells.append_right _
  complete := fun q cs hq => by
    rcases List.mem_append.mp hq with hq | hq
    · exact h.complete q cs hq
    · simp at hq
  owns := fun r' hr => by
    rcases List.mem_append.mp hr with hr | hr
    · exact h.owns r' hr
    · cases List.mem_singleton.mp hr
      exact hown
  groups := h.groups

/-- The pending children of a parent are accepted cells. -/
theorem pendingOf_sublist (h : Ledger h3 kernel Own accepted s ledger) (p : CellIndex) :
    (s.pendingOf p).Subperm accepted :=
  ((List.sublist_append_left _ _).subperm.trans
    (((s.perm_pendingOf p).symm.subperm).trans
      (List.sublist_append_right _ _).subperm)).trans h.cells.subperm

theorem mem_pendingOf (h : Ledger h3 kernel Own accepted s ledger) {p : CellIndex} {r : Record A}
    (hr : r ∈ s.pendingOf p) : h3.parentOf r.h3Index = some p := by
  unfold Pool.pendingOf at hr
  cases hl : s.groups.lookup p with
  | none => simp [hl] at hr
  | some g => exact (h.groups p g hl).parents r (by simpa [hl] using hr)

/-- The children a group has after `r` joined it. -/
theorem joined_records (h : Ledger h3 kernel Own accepted s ledger) (law : h3.Lawful)
    {r : Record A} {p : CellIndex} (hp : h3.parentOf r.h3Index = some p)
    (hres : h3.resolution r.h3Index = r.resolution) :
    (s.joined h3 kernel r p).records = s.pendingOf p ++ [r] := by
  have hr : h3.resolution p + 1 = r.resolution := (law.resolution_parent hp).trans hres
  unfold Pool.joined Pool.pendingOf
  cases hl : s.groups.lookup p with
  | none => rfl
  | some g =>
      have hg : g.childRes = r.resolution := (h.groups p g hl).childRes.trans hr
      simp [Group.add, Group.records, hg]

theorem joined_parents (h : Ledger h3 kernel Own accepted s ledger) (law : h3.Lawful)
    {r : Record A} {p : CellIndex} (hp : h3.parentOf r.h3Index = some p)
    (hres : h3.resolution r.h3Index = r.resolution) :
    ∀ q ∈ (s.joined h3 kernel r p).records, h3.parentOf q.h3Index = some p := by
  rw [h.joined_records law hp hres]
  intro q hq
  rcases List.mem_append.mp hq with hq | hq
  · exact h.mem_pendingOf hq
  · rw [List.mem_singleton.mp hq, hp]

theorem joined_nodup (h : Ledger h3 kernel Own accepted s ledger) (law : h3.Lawful)
    {r : Record A} {p : CellIndex} (hp : h3.parentOf r.h3Index = some p)
    (hres : h3.resolution r.h3Index = r.resolution)
    (hnd : ((accepted ++ [r]).map Record.h3Index).Nodup) :
    ((s.joined h3 kernel r p).records.map Record.h3Index).Nodup := by
  rw [h.joined_records law hp hres]
  obtain ⟨l, hl, hsub⟩ := h.pendingOf_sublist p
  have hkeys : ((l ++ [r]).map Record.h3Index).Nodup :=
    hnd.sublist ((hsub.append_right [r]).map _)
  exact (((hl.append_right [r]).map _).nodup_iff).mp hkeys

theorem joined_subperm (h : Ledger h3 kernel Own accepted s ledger) (law : h3.Lawful)
    {r : Record A} {p : CellIndex} (hp : h3.parentOf r.h3Index = some p)
    (hres : h3.resolution r.h3Index = r.resolution)
    (hnd : ((accepted ++ [r]).map Record.h3Index).Nodup) :
    ((s.joined h3 kernel r p).records.map Record.h3Index).Subperm (h3.children p) := by
  refine List.subperm_of_subset (h.joined_nodup law hp hres hnd) fun c hc => ?_
  obtain ⟨q, hq, rfl⟩ := List.mem_map.mp hc
  exact law.mem_children.mpr (h.joined_parents law hp hres q hq)

/-- The group is complete with `r` when it holds every child of the parent. -/
theorem joined_complete_iff (h : Ledger h3 kernel Own accepted s ledger) (law : h3.Lawful)
    {r : Record A} {p : CellIndex} (hp : h3.parentOf r.h3Index = some p)
    (hres : h3.resolution r.h3Index = r.resolution)
    (hnd : ((accepted ++ [r]).map Record.h3Index).Nodup) :
    (s.joined h3 kernel r p).children.length = h3.siblings p ↔
      ∀ d ∈ h3.children p, d = r.h3Index ∨ d ∈ (s.pendingOf p).map Record.h3Index := by
  have hlen : ((s.joined h3 kernel r p).records.map Record.h3Index).length =
      (s.joined h3 kernel r p).children.length := by simp [Group.length_records]
  have hsub := h.joined_subperm law hp hres hnd
  rw [← hlen, ← law.length_children hp]
  have hrec := h.joined_records law hp hres
  constructor
  · intro heq d hd
    have hd := (hsub.perm_of_length_le heq.ge).mem_iff.mpr hd
    rw [hrec, List.map_append, List.mem_append] at hd
    rcases hd with hd | hd
    · exact Or.inr hd
    · exact Or.inl (by simpa using hd)
  · intro hall
    refine le_antisymm hsub.length_le
      (List.subperm_of_subset (law.nodup_children p) fun d hd => ?_).length_le
    rw [hrec, List.map_append, List.mem_append]
    rcases hall d hd with rfl | hd
    · exact Or.inr (by simp)
    · exact Or.inl hd

/-- What the group of a waiting parent looks like once `r` has joined it. -/
theorem joined_ok (h : Ledger h3 kernel Own accepted s ledger) (law : h3.Lawful)
    {r : Record A} {p : CellIndex} (hp : h3.parentOf r.h3Index = some p)
    (hres : h3.resolution r.h3Index = r.resolution) :
    (s.joined h3 kernel r p).childRes = h3.resolution p + 1 ∧
    (s.joined h3 kernel r p).parentAcc = mergedState kernel (s.pendingOf p ++ [r]) ∧
    (s.joined h3 kernel r p).siblingsSouth = h3.siblingsSouth p ∧
    (s.joined h3 kernel r p).emitSouth =
      ((s.pendingOf p ++ [r]).map fun r => h3.southLat r.h3Index).foldl max (h3.southLat p) := by
  have hr : h3.resolution p + 1 = r.resolution := (law.resolution_parent hp).trans hres
  unfold Pool.joined Pool.pendingOf
  cases hl : s.groups.lookup p with
  | none =>
      refine ⟨hr.symm, rfl, rfl, ?_⟩
      simp [Group.emitSouth_add, Group.new]
  | some g =>
      have ok := h.groups p g hl
      refine ⟨ok.childRes, ?_, ok.siblingsSouth, ?_⟩
      · simp [Group.add, mergedState, ok.acc]
      · simp [Group.emitSouth_add, ok.emitSouth]

/-- A cell joins its parent's group; the ledger gains the parent if that makes
the group complete, and nothing otherwise. -/
theorem arrive (h : Ledger h3 kernel Own accepted s ledger) (law : h3.Lawful) (sizeOfChild : Nat)
    {r : Record A} {p : CellIndex} (hp : h3.parentOf r.h3Index = some p)
    (hres : h3.resolution r.h3Index = r.resolution)
    (hnd : ((accepted ++ [r]).map Record.h3Index).Nodup) :
    Ledger h3 kernel Own (accepted ++ [r]) (s.arrive h3 kernel sizeOfChild r p)
      (ledger ++
        if (s.joined h3 kernel r p).children.length = h3.siblings p then
          [.parent p (s.pendingOf p ++ [r])] else []) := by
  have hrec := h.joined_records law hp hres
  have hsub := h.joined_subperm law hp hres hnd
  obtain ⟨hchild, hacc, hss, hes⟩ := h.joined_ok law hp hres
  have hcells : ((ledger.flatMap Emission.cells ++ (s.pendingOf p ++ [r])) ++
      (s.groups.erase p).entries.flatMap fun e => e.2.records).Perm (accepted ++ [r]) := by
    refine List.Perm.trans ?_ (h.cells.append_right [r])
    rw [List.append_assoc, List.append_assoc, List.append_assoc]
    refine List.Perm.append_left _ (List.Perm.trans ?_ ((s.perm_pendingOf p).symm.append_right _))
    rw [List.append_assoc]
    exact List.Perm.append_left _ List.perm_append_comm
  unfold Pool.arrive
  simp only
  split
  next hfull =>
    refine ⟨?_, ?_, fun q cs hq => ?_, fun q hq => ?_, fun q g hq => ?_⟩
    · simp [h.records, Emission.record, hacc]
    · simpa [Emission.cells] using hcells
    · rcases List.mem_append.mp hq with hq | hq
      · exact h.complete q cs hq
      · cases List.mem_singleton.mp hq
        refine ⟨by simp, ?_⟩
        rw [← hrec]
        refine hsub.perm_of_length_le ?_
        rw [law.length_children hp, ← hfull]
        simp [Group.length_records]
    · rcases List.mem_append.mp hq with hq | hq
      · exact h.owns q hq
      · cases List.mem_singleton.mp hq
    · exact h.groups q g (Pool.lookup_erase_of hq).2
  next hshort =>
    rw [List.append_nil]
    refine ⟨h.records, ?_, h.complete, h.owns, fun q g hq => ?_⟩
    · rw [AList.entries_insert, List.flatMap_cons, ← List.append_assoc]
      refine List.Perm.trans (List.Perm.append_right _ (List.Perm.append_left _ ?_)) hcells
      exact List.Perm.of_eq hrec
    · by_cases hqp : q = p
      · subst hqp
        rw [AList.lookup_insert] at hq
        cases hq
        have hle : (s.joined h3 kernel r q).children.length ≤ h3.siblings q := by
          have := hsub.length_le
          rw [law.length_children hp] at this
          simpa [Group.length_records] using this
        refine ⟨fun hnil => ?_, lt_of_le_of_ne hle hshort, h.joined_parents law hp hres, hchild,
          hacc.trans (congrArg _ hrec.symm), hss, ?_⟩
        · have : (s.joined h3 kernel r q).records = [] := by
            simp only at hnil
            simp [Group.records, hnil]
          rw [hrec] at this
          simp at this
        · refine hes.trans ?_
          rw [← hrec]
          rfl
      · rw [AList.lookup_insert_ne hqp] at hq
        exact h.groups q g hq

theorem mem_accepted (h : Ledger h3 kernel Own accepted s ledger) {e : Emission A} {r : Record A}
    (he : e ∈ ledger) (hr : r ∈ e.cells) : r ∈ accepted :=
  h.cells.mem_iff.mp (List.mem_append_left _ (List.mem_flatMap.mpr ⟨e, he, hr⟩))

/-- An emitted parent has an accepted child. -/
theorem exists_child (h : Ledger h3 kernel Own accepted s ledger) (law : h3.Lawful)
    {p : CellIndex} {cs : List (Record A)} (he : .parent p cs ∈ ledger) :
    ∃ r ∈ accepted, h3.parentOf r.h3Index = some p := by
  obtain ⟨hne, hperm⟩ := h.complete p cs he
  obtain ⟨r, hr⟩ := List.exists_mem_of_ne_nil cs hne
  refine ⟨r, h.mem_accepted he hr, ?_⟩
  exact law.mem_children.mp (hperm.mem_iff.mp (List.mem_map_of_mem hr))

/-- No two records share resolution and cell, when no accepted cell is repeated
and no two accepted resolutions are neighbours. -/
theorem keys_nodup (h : Ledger h3 kernel Own accepted s ledger) (law : h3.Lawful)
    {resolutions : List Nat} (hadj : ∀ r ∈ resolutions, r + 1 ∉ resolutions)
    (hres : ∀ r ∈ accepted, r.resolution ∈ resolutions ∧
      (h3.isCell r.h3Index = true → h3.resolution r.h3Index = r.resolution))
    (hnd : (accepted.map Record.h3Index).Nodup) :
    (s.out.map fun r => (r.resolution, r.h3Index)).Nodup := by
  have hparent : ∀ {p cs}, .parent p cs ∈ ledger → h3.resolution p + 1 ∈ resolutions := by
    intro p cs he
    obtain ⟨r, hr, hp⟩ := h.exists_child law he
    rw [law.resolution_parent hp, (hres r hr).2 (H3.isCell_of_parentOf hp)]
    exact (hres r hr).1
  have hclash : ∀ {r p cs}, .own r ∈ ledger → .parent p cs ∈ ledger →
      ¬ (r.resolution = h3.resolution p ∧ r.h3Index = p) := by
    rintro r p cs hr hp ⟨heq, _⟩
    have hmem := (hres r (h.mem_accepted hr (List.mem_singleton_self r))).1
    exact hadj _ hmem (heq ▸ hparent hp)
  have hcells : (ledger.flatMap fun e => e.cells.map Record.h3Index).Nodup := by
    have := (h.cells.map Record.h3Index).nodup_iff.mpr hnd
    rw [List.map_append, List.map_flatMap] at this
    exact (List.nodup_append.mp this).1
  obtain ⟨-, hdisj⟩ := List.nodup_flatMap.mp hcells
  rw [h.records, List.map_map, List.Nodup, List.pairwise_map]
  refine List.Pairwise.imp_of_mem (fun {e f} he hf hd heq => ?_) hdisj
  simp only [Function.comp_apply, Prod.mk.injEq] at heq
  cases e with
  | own a =>
      cases f with
      | own b =>
          have heq : a.h3Index = b.h3Index := heq.2
          exact hd (List.mem_singleton_self a.h3Index) (heq ▸ List.mem_singleton_self b.h3Index)
      | parent p cs => exact hclash he hf heq
  | parent p cs =>
      cases f with
      | own b => exact hclash hf he ⟨heq.1.symm, heq.2.symm⟩
      | parent q ds =>
          obtain rfl : p = q := heq.2
          obtain ⟨r, -, hp⟩ := h.exists_child law he
          have hr := law.mem_children.mpr hp
          exact hd ((h.complete p cs he).2.mem_iff.mpr hr) ((h.complete p ds hf).2.mem_iff.mpr hr)

end Ledger

end Ledger

end RasterH3.Agg
