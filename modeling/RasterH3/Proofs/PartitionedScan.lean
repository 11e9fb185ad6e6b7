import RasterH3.Proofs.InteriorCells
import RasterH3.Lib.Related
import RasterH3.Proofs.PartialCodec
import RasterH3.Proofs.PartitionPlan
import RasterH3.Proofs.StreamRuns

/-!
# A partitioned scan and a single one

Every partition emits the cells that are interior to it as records and hands on its share
of the others as partial cells, which are merged somewhere else, in whatever order they
arrive, and filtered only then. The records of all partitions and those of the merged cells
are together what a single scan over all the chunks would give: every cell once, with all of
its samples (`partitioned_scan_equals_batch`).

The merge cannot be told apart from a single scan because of what interior means. A cell that
one partition emits is in no chunk of another one, so no share of it is missing from its
record, and no second record is made of it by the merge. A cell that is interior nowhere is
shared by all, and its shares add up to its samples. What is interior was decided for the
bounds of the chunks, so a chunk must have its samples inside of its bounds.

Partial cells know their resolution by its number, which is a byte. The numbers of the
resolutions of a scan are distinct bytes, so that a share finds its cell again.
-/

namespace RasterH3.Agg

open AccumulatorMerge SpillAccumulator Keyed LawfulSpill

variable {A L C X : Type} {n N : Nat}

/-! ## The reference -/

def recordKey (r : Record A) : Nat × CellIndex := (r.resolution, r.h3Index)

/-- The records of a batch: of every cell that has samples its whole state, if it passes
the filter. -/
structure BatchRecords (R : Multiset X → A → Prop) (resolutions : Fin n → Nat)
    (passes : A → Bool) (total : Fin n → Contents X) (records : List (Record A)) : Prop where
  nodup : (records.map recordKey).Nodup
  whole : ∀ r ∈ records, passes r.accumulator = true ∧
    ∃ i, r.resolution = resolutions i ∧ R (total i r.h3Index) r.accumulator
  complete : ∀ i k, total i k ≠ 0 →
    ∃ a, R (total i k) a ∧ (passes a = true → ⟨resolutions i, k, a⟩ ∈ records)

/-! ## Merging shares -/

section Gather

variable [SpillAccumulator A] [LawfulSpill A] {R : Multiset X → A → Prop}

/-- The merger has, under each key, a state that represents these contributions. -/
structure Gathers (R : Multiset X → A → Prop) (m : PartialMerger A)
    (contents : PartialKey → Multiset X) : Prop where
  present : ∀ key a, m.cells.lookup key = some a → R (contents key) a
  absent : ∀ key, m.cells.lookup key = none → contents key = 0

omit [SpillAccumulator A] [LawfulSpill A] in
theorem Gathers.new (R : Multiset X → A → Prop) : Gathers R (PartialMerger.new) 0 where
  present := fun key a h => by
    rw [PartialMerger.new, AList.lookup_empty] at h
    cases h
  absent := fun _ _ => rfl

theorem Gathers.push (hR : Represents R) {m : PartialMerger A} {contents : PartialKey → Multiset X}
    (h : Gathers R m contents) (key : PartialKey) {acc : A} {S : Multiset X} (hacc : R S acc) :
    Gathers R (m.push key acc) (contents + Pi.single key S) := by
  obtain ⟨b, hcells, hb⟩ : ∃ b, (m.push key acc).cells = m.cells.insert key b ∧
      R (contents key + S) b := by
    rw [PartialMerger.push]
    split
    next held hheld => exact ⟨_, rfl, hR.merge (h.present key held hheld) hacc⟩
    next hnone => exact ⟨acc, rfl, by rwa [h.absent key hnone, zero_add]⟩
  constructor
  · intro k c hc
    rw [hcells] at hc
    by_cases hk : k = key
    · subst hk
      rw [AList.lookup_insert] at hc
      obtain rfl := Option.some.inj hc
      rwa [Pi.add_apply, Pi.single_eq_same]
    · rw [AList.lookup_insert_ne hk] at hc
      rw [Pi.add_apply, Pi.single_eq_of_ne hk, add_zero]
      exact h.present k c hc
  · intro k hc
    rw [hcells] at hc
    by_cases hk : k = key
    · subst hk
      rw [AList.lookup_insert] at hc
      cases hc
    · rw [AList.lookup_insert_ne hk] at hc
      rw [Pi.add_apply, Pi.single_eq_of_ne hk, add_zero]
      exact h.absent k hc

end Gather

section Encoded

variable [PartialState A] [LawfulSpill A] {R : Multiset X → A → Prop}

/-- Encoded shares are decoded and merged in the order in which they come. -/
theorem Gathers.pushAllEncoded (hR : Represents R) {limit : Usize} {ι : Type}
    (key : ι → PartialKey) (acc : ι → A) {share : ι → Multiset X} (shares : List ι)
    (hfit : ∀ x ∈ shares, memoryBytes (acc x) ≤ limit.val ∧ Readable limit (acc x))
    (hshare : ∀ x ∈ shares, R (share x) (acc x)) :
    ∀ {m : PartialMerger A} {contents : PartialKey → Multiset X}, Gathers R m contents →
      ∃ m', m.pushAllEncoded limit (shares.map fun x => (key x, encodePartialState (acc x))) =
          .ok m' ∧
        Gathers R m' (contents + (shares.map fun x => Pi.single (key x) (share x)).sum) := by
  induction shares with
  | nil => exact fun h => ⟨_, rfl, by simpa using h⟩
  | cons x shares ih =>
      intro m contents h
      obtain ⟨hmem, hread⟩ := hfit x List.mem_cons_self
      have hpush : m.pushEncoded limit (key x) (encodePartialState (acc x)) =
          .ok (m.push (key x) (reread (acc x))) := by
        rw [PartialMerger.pushEncoded, decode_encode hmem hread]
        rfl
      obtain ⟨m', hm', hcontents⟩ := ih (fun y hy => hfit y (List.mem_cons_of_mem _ hy))
        (fun y hy => hshare y (List.mem_cons_of_mem _ hy))
        (h.push hR (key x) (hR.reread (hshare x List.mem_cons_self)))
      refine ⟨m', ?_, ?_⟩
      · rw [List.map_cons, PartialMerger.pushAllEncoded]
        dsimp only
        rw [hpush]
        exact hm'
      · rw [List.map_cons, List.sum_cons, ← add_assoc]
        exact hcontents

end Encoded

/-! ## The shares of a partition -/

/-- The key under which a partial cell is merged. -/
def shareKey (r : PartialCell A) : PartialKey := (UInt8.ofNat r.resolution, r.h3Index)

section Shares

variable {resolutions : Fin n → Nat}

/-- What is contributed to the resolution of this number. -/
def atNumber (resolutions : Fin n → Nat) (m : Fin n → Contents X) (number : Nat) : Contents X :=
  ∑ i, if resolutions i = number then m i else 0

theorem atNumber_self (hinj : Function.Injective resolutions) (m : Fin n → Contents X) (i : Fin n) :
    atNumber resolutions m (resolutions i) = m i := by
  rw [atNumber]
  simp only [hinj.eq_iff]
  exact Fintype.sum_ite_eq' i m

/-- What the share of a cell stands for. -/
def shareOf (resolutions : Fin n → Nat) (m : Fin n → Contents X) (r : PartialCell A) : Multiset X :=
  atNumber resolutions m r.resolution r.h3Index

/-- Resolutions are told apart by a byte. -/
def Bytewise (resolutions : Fin n → Nat) : Prop :=
  Function.Injective resolutions ∧ ∀ i, resolutions i < 256

theorem Bytewise.key_eq_iff (h : Bytewise resolutions) {i j : Fin n} {k k' : CellIndex} :
    ((UInt8.ofNat (resolutions i), k) : PartialKey) = (UInt8.ofNat (resolutions j), k') ↔
      i = j ∧ k = k' := by
  rw [Prod.mk.injEq]
  refine and_congr_left fun _ => ⟨fun heq => h.1 ?_, fun heq => by rw [heq]⟩
  have hnat := congrArg UInt8.toNat heq
  rwa [UInt8.toNat_ofNat_of_lt' (h.2 i), UInt8.toNat_ofNat_of_lt' (h.2 j)] at hnat

/-- The shares of a partition carry what it has of the cells that are not its own. -/
theorem sum_shares (h : Bytewise resolutions) (own : CellIndex → Bool) (m : Fin n → Contents X)
    (i : Fin n) (k : CellIndex) (log : List (Emitted A n)) :
    (((log.filter fun e => !own e.2.1).map fun e =>
      (⟨resolutions e.1, e.2.1, e.2.2⟩ : PartialCell A)).map fun r =>
        (Pi.single (shareKey r) (shareOf resolutions m r) : PartialKey → Multiset X)).sum
        (UInt8.ofNat (resolutions i), k) =
      if own k then 0 else (keys (emittedOf i log)).count k • m i k := by
  induction log with
  | nil => simp [emittedOf]
  | cons e log ih =>
      have hcount : (keys (emittedOf i (e :: log))).count k =
          (if e.1 = i ∧ e.2.1 = k then 1 else 0) + (keys (emittedOf i log)).count k := by
        rw [emittedOf, List.filter_cons]
        by_cases hi : e.1 = i
        · rw [if_pos (decide_eq_true hi), List.map_cons, keys_cons, List.count_cons, add_comm]
          simp [hi, emittedOf]
        · rw [if_neg (by simpa using hi)]
          simp [hi, emittedOf]
      have hterm : (Pi.single (shareKey (⟨resolutions e.1, e.2.1, e.2.2⟩ : PartialCell A))
          (shareOf resolutions m (⟨resolutions e.1, e.2.1, e.2.2⟩ : PartialCell A)) :
            PartialKey → Multiset X) (UInt8.ofNat (resolutions i), k) =
          if e.1 = i ∧ e.2.1 = k then m i k else 0 := by
        rw [Pi.single_apply, shareKey]
        simp only [eq_comm (b := ((UInt8.ofNat (resolutions e.1), e.2.1) : PartialKey)),
          h.key_eq_iff]
        split
        next heq =>
          obtain ⟨rfl, rfl⟩ := heq
          rw [shareOf, atNumber_self h.1]
        next => rfl
      rw [hcount, List.filter_cons]
      by_cases howned : own e.2.1
      · rw [if_neg (by simp [howned]), ih]
        split
        next => rfl
        next hk =>
          have hne : ¬ (e.1 = i ∧ e.2.1 = k) := fun heq => hk (heq.2 ▸ howned)
          rw [if_neg hne, zero_add]
      · rw [if_pos (by simp [howned]), List.map_cons, List.map_cons, List.sum_cons, Pi.add_apply,
          hterm, ih]
        by_cases hk : own k
        · have hne : ¬ (e.1 = i ∧ e.2.1 = k) := fun heq => howned (heq.2 ▸ hk)
          rw [if_neg hne, if_pos hk, if_pos hk, add_zero]
        · rw [if_neg hk, if_neg hk, add_nsmul]
          by_cases heq : e.1 = i ∧ e.2.1 = k
          · rw [if_pos heq, if_pos heq, one_nsmul]
          · rw [if_neg heq, if_neg heq, zero_nsmul]

/-- A cell is shared whole unless it is the partition's own. -/
theorem sum_shares_whole {R : Multiset X → A → Prop} (h : Bytewise resolutions)
    (own : CellIndex → Bool) {m : Fin n → Contents X} {log : List (Emitted A n)}
    (hagg : Aggregation R m log) (hcomplete : Complete m log) (i : Fin n) (k : CellIndex) :
    (((log.filter fun e => !own e.2.1).map fun e =>
      (⟨resolutions e.1, e.2.1, e.2.2⟩ : PartialCell A)).map fun r =>
        (Pi.single (shareKey r) (shareOf resolutions m r) : PartialKey → Multiset X)).sum
        (UInt8.ofNat (resolutions i), k) =
      if own k then 0 else m i k := by
  rw [sum_shares h]
  split
  next => rfl
  next =>
    by_cases hk : k ∈ keys (emittedOf i log)
    · rw [List.count_eq_one_of_mem (hagg.nodup i) hk, one_nsmul]
    · rw [not_not.mp fun hne => hk (hcomplete i k hne), nsmul_zero]

end Shares

/-! ## All partitions together -/

/-- Every partition has emitted its part, and what one of them calls its own no other one
has samples of. -/
structure Parts (R : Multiset X → A → Prop) (own : Fin N → CellIndex → Bool)
    (total : Fin N → Fin n → Contents X) (logs : Fin N → List (Emitted A n)) : Prop where
  aggregation : ∀ p, Aggregation R (total p) (logs p)
  complete : ∀ p, Complete (total p) (logs p)
  exclusive : ∀ p i k, own p k = true → total p i k ≠ 0 → ∀ q, q ≠ p → total q i k = 0

variable {R : Multiset X → A → Prop} {own : Fin N → CellIndex → Bool}
  {total : Fin N → Fin n → Contents X} {logs : Fin N → List (Emitted A n)}
  {resolutions : Fin n → Nat} {passes : A → Bool}

def ownRecords (resolutions : Fin n → Nat) (passes : A → Bool) (own : CellIndex → Bool)
    (log : List (Emitted A n)) : List (Record A) :=
  (log.filter fun e => own e.2.1 && passes e.2.2).map fun e => ⟨resolutions e.1, e.2.1, e.2.2⟩

def otherShares (resolutions : Fin n → Nat) (own : CellIndex → Bool) (log : List (Emitted A n)) :
    List (PartialCell A) :=
  (log.filter fun e => !own e.2.1).map fun e => ⟨resolutions e.1, e.2.1, e.2.2⟩

/-- What the merger has of a cell once all shares have come, in any order. -/
theorem Parts.sum_order (h : Parts R own total logs) (hres : Bytewise resolutions)
    {order : List (Fin N × PartialCell A)}
    (horder : order.Perm ((List.finRange N).flatMap fun p =>
      (otherShares resolutions (own p) (logs p)).map (Prod.mk p))) (i : Fin n) (k : CellIndex) :
    (order.map fun x => (Pi.single (shareKey x.2) (shareOf resolutions (total x.1) x.2) :
      PartialKey → Multiset X)).sum (UInt8.ofNat (resolutions i), k) =
      ∑ p, if own p k then 0 else total p i k := by
  rw [(horder.map _).sum_eq, Fin.sum_univ_def]
  induction List.finRange N with
  | nil => rfl
  | cons p rest ih =>
      rw [List.flatMap_cons, List.map_append, List.sum_append, Pi.add_apply, ih, List.map_cons,
        List.sum_cons, ← sum_shares_whole hres (own p) (h.aggregation p) (h.complete p) i k,
        List.map_map]
      rfl

/-- A cell that some partition calls its own is all there. -/
theorem Parts.total_of_own (h : Parts R own total logs) {p : Fin N} {i : Fin n} {k : CellIndex}
    (hown : own p k = true) (hne : total p i k ≠ 0) : (∑ q, total q) i k = total p i k := by
  rw [Finset.sum_apply, Finset.sum_apply]
  exact Fintype.sum_eq_single p fun q hq => h.exclusive p i k hown hne q hq

/-- Any other cell is merged from its shares. -/
theorem Parts.total_of_shared {i : Fin n} {k : CellIndex}
    (hnone : ∀ p, own p k = true → total p i k = 0) :
    (∑ p, if own p k then 0 else total p i k) = (∑ q, total q) i k := by
  rw [Finset.sum_apply, Finset.sum_apply]
  refine Finset.sum_congr rfl fun p _ => ?_
  split
  next hown => exact (hnone p hown).symm
  next => rfl

/-- Nothing is merged of a cell that some partition calls its own. -/
theorem Parts.shared_of_ne_zero (h : Parts R own total logs) {i : Fin n} {k : CellIndex}
    (hne : (∑ p, if own p k then 0 else total p i k) ≠ 0) :
    ∀ p, own p k = true → total p i k = 0 := by
  intro p hown
  by_contra htotal
  refine hne (Finset.sum_eq_zero fun q _ => ?_)
  split
  next => rfl
  next hq =>
    exact h.exclusive p i k hown htotal q fun heq => hq (heq ▸ hown)

theorem mem_ownRecords {own : CellIndex → Bool} {log : List (Emitted A n)} {r : Record A} :
    r ∈ ownRecords resolutions passes own log ↔ ∃ i, r.resolution = resolutions i ∧
      (i, r.h3Index, r.accumulator) ∈ log ∧ own r.h3Index = true ∧
      passes r.accumulator = true := by
  rw [ownRecords, List.mem_map]
  constructor
  · rintro ⟨e, he, rfl⟩
    obtain ⟨hmem, hboth⟩ := List.mem_filter.mp he
    exact ⟨e.1, rfl, hmem, (Bool.and_eq_true_iff.mp hboth).1, (Bool.and_eq_true_iff.mp hboth).2⟩
  · rintro ⟨i, hi, hmem, hown, hpass⟩
    refine ⟨_, List.mem_filter.mpr ⟨hmem, by simp [hown, hpass]⟩, ?_⟩
    rw [← hi]

theorem mem_otherShares {own : CellIndex → Bool} {log : List (Emitted A n)} {r : PartialCell A} :
    r ∈ otherShares resolutions own log ↔ ∃ i, r.resolution = resolutions i ∧
      (i, r.h3Index, r.accumulator) ∈ log ∧ own r.h3Index = false := by
  rw [otherShares, List.mem_map]
  constructor
  · rintro ⟨e, he, rfl⟩
    obtain ⟨hmem, hown⟩ := List.mem_filter.mp he
    exact ⟨e.1, rfl, hmem, by simpa using hown⟩
  · rintro ⟨i, hi, hmem, hown⟩
    refine ⟨_, List.mem_filter.mpr ⟨hmem, by simp [hown]⟩, ?_⟩
    rw [← hi]

/-! ## The records of all partitions and of the merger -/

theorem nodup_of_emitted {log : List (Emitted A n)}
    (h : ∀ i, (keys (emittedOf i log)).Nodup) : (log.map fun e => (e.1, e.2.1)).Nodup := by
  induction log with
  | nil => exact List.nodup_nil
  | cons e log ih =>
      have hcons : ∀ i, keys (emittedOf i (e :: log)) =
          if e.1 = i then e.2.1 :: keys (emittedOf i log) else keys (emittedOf i log) := by
        intro i
        rw [emittedOf, List.filter_cons]
        simp only [decide_eq_true_eq]
        split
        next => rfl
        next => rfl
      rw [List.map_cons, List.nodup_cons]
      constructor
      · intro hmem
        obtain ⟨e', he', heq⟩ := List.mem_map.mp hmem
        obtain ⟨hi, hk⟩ := Prod.mk.inj heq
        have hnodup := h e.1
        rw [hcons, if_pos rfl, List.nodup_cons] at hnodup
        refine hnodup.1 (mem_keys_of_mem (a := e'.2.2) (mem_emittedOf.mpr ?_))
        rwa [← hi, ← hk]
      · refine ih fun i => ?_
        have hnodup := h i
        rw [hcons] at hnodup
        split at hnodup
        next => exact hnodup.of_cons
        next => exact hnodup

/-- A partition emits a record at most once. -/
theorem nodup_ownRecords (hres : Bytewise resolutions) {own : CellIndex → Bool}
    {log : List (Emitted A n)} (h : ∀ i, (keys (emittedOf i log)).Nodup) :
    ((ownRecords resolutions passes own log).map recordKey).Nodup := by
  have hkeys : (ownRecords resolutions passes own log).map recordKey =
      ((log.filter fun e => own e.2.1 && passes e.2.2).map fun e => (e.1, e.2.1)).map fun key =>
        (resolutions key.1, key.2) := by
    rw [ownRecords, List.map_map, List.map_map]
    rfl
  rw [hkeys]
  refine List.Nodup.map (fun key key' heq => ?_)
    ((nodup_of_emitted h).sublist (List.filter_sublist.map _))
  obtain ⟨hres', hcell⟩ := Prod.mk.inj heq
  exact Prod.ext (hres.1 hres') hcell

def mergedRecord (number : UInt8) (cell : CellIndex) (acc : A) : Record A :=
  ⟨number.toNat, cell, acc⟩

/-- The merger gives a record at most once. -/
theorem PartialMerger.nodup_finish (passes : A → Bool) (m : PartialMerger A) :
    ((m.finish passes mergedRecord).map recordKey).Nodup := by
  have hkeys : (m.finish passes mergedRecord).map recordKey =
      ((((m.cells.entries.insertionSort fun p p' => keyLe p.1 p'.1).filter fun p =>
        passes p.2).map Sigma.fst).map fun key : PartialKey => (key.1.toNat, key.2)) := by
    rw [finish, List.map_map, List.map_map]
    rfl
  rw [hkeys]
  refine List.Nodup.map (fun key key' heq => ?_) ?_
  · obtain ⟨hnumber, hcell⟩ := Prod.mk.inj heq
    exact Prod.ext (UInt8.toNat_inj.mp hnumber) hcell
  · refine List.Nodup.sublist (List.filter_sublist.map _) ?_
    exact ((List.perm_insertionSort _ _).map _).nodup_iff.mpr m.cells.nodupKeys

variable {order : List (Fin N × PartialCell A)} {m : PartialMerger A}

/-- A merged state represents what the partitions share of its cell. -/
theorem Parts.merged (h : Parts R own total logs) (hres : Bytewise resolutions)
    (horder : order.Perm ((List.finRange N).flatMap fun p =>
      (otherShares resolutions (own p) (logs p)).map (Prod.mk p)))
    (hm : Gathers R m (order.map fun x =>
      Pi.single (shareKey x.2) (shareOf resolutions (total x.1) x.2)).sum)
    {i : Fin n} {k : CellIndex} {a : A}
    (ha : m.cells.lookup (UInt8.ofNat (resolutions i), k) = some a) :
    R (∑ p, if own p k then 0 else total p i k) a := by
  have hrep := hm.present _ a ha
  rwa [h.sum_order hres horder] at hrep

section Records

variable [SpillAccumulator A] [LawfulSpill A]

/-- Only cells of the resolutions of the scan are merged. -/
theorem Gathers.number_of_key (hR : Represents R)
    (horder : order.Perm ((List.finRange N).flatMap fun p =>
      (otherShares resolutions (own p) (logs p)).map (Prod.mk p)))
    (hm : Gathers R m (order.map fun x =>
      Pi.single (shareKey x.2) (shareOf resolutions (total x.1) x.2)).sum)
    {key : PartialKey} {a : A} (ha : m.cells.lookup key = some a) :
    ∃ i, key = (UInt8.ofNat (resolutions i), key.2) := by
  obtain ⟨x, hx, rfl⟩ : ∃ x ∈ order, shareKey x.2 = key := by
    by_contra hout
    refine hR.ne_zero (hm.present key a ha) ?_
    rw [Pi.list_sum_apply]
    refine List.sum_eq_zero fun S hS => ?_
    obtain ⟨f, hf, rfl⟩ := List.mem_map.mp hS
    obtain ⟨x, hx, rfl⟩ := List.mem_map.mp hf
    exact Pi.single_eq_of_ne (fun heq => hout ⟨x, hx, heq.symm⟩) _
  obtain ⟨p, -, hp⟩ := List.mem_flatMap.mp (horder.mem_iff.mp hx)
  obtain ⟨r, hr, rfl⟩ := List.mem_map.mp hp
  obtain ⟨i, hi, -⟩ := mem_otherShares.mp hr
  exact ⟨i, by rw [shareKey, hi]⟩

/-- Every merged record is that of a cell with all its samples. -/
theorem Parts.of_merged_record (hR : Represents R) (h : Parts R own total logs)
    (hres : Bytewise resolutions)
    (horder : order.Perm ((List.finRange N).flatMap fun p =>
      (otherShares resolutions (own p) (logs p)).map (Prod.mk p)))
    (hm : Gathers R m (order.map fun x =>
      Pi.single (shareKey x.2) (shareOf resolutions (total x.1) x.2)).sum)
    {r : Record A} (hr : r ∈ m.finish passes mergedRecord) :
    passes r.accumulator = true ∧ ∃ i, r.resolution = resolutions i ∧
      (∀ p, own p r.h3Index = true → total p i r.h3Index = 0) ∧
      R ((∑ p, total p) i r.h3Index) r.accumulator := by
  obtain ⟨key, a, hlookup, hpass, rfl⟩ := PartialMerger.mem_finish.mp hr
  obtain ⟨i, hi⟩ := hm.number_of_key hR horder hlookup
  rw [hi] at hlookup
  have hrep := h.merged hres horder hm hlookup
  have hnone := h.shared_of_ne_zero (hR.ne_zero hrep)
  refine ⟨hpass, i, ?_, hnone, by rwa [Parts.total_of_shared hnone] at hrep⟩
  rw [hi]
  exact UInt8.toNat_ofNat_of_lt' (hres.2 i)

/-- Every record of a partition is that of a cell with all its samples. -/
theorem Parts.of_own_record (hR : Represents R) (h : Parts R own total logs) {p : Fin N}
    {r : Record A} (hr : r ∈ ownRecords resolutions passes (own p) (logs p)) :
    passes r.accumulator = true ∧ ∃ i, r.resolution = resolutions i ∧
      own p r.h3Index = true ∧ total p i r.h3Index ≠ 0 ∧
      R ((∑ p, total p) i r.h3Index) r.accumulator := by
  obtain ⟨i, hi, hmem, hown, hpass⟩ := mem_ownRecords.mp hr
  have hrep := (h.aggregation p).whole i _ _ hmem
  have hne := hR.ne_zero hrep
  exact ⟨hpass, i, hi, hown, hne, by rwa [h.total_of_own hown hne]⟩

/-- The records of the partitions and those of the merged cells are the batch. -/
theorem Parts.batch_records (hR : Represents R) (h : Parts R own total logs)
    (hres : Bytewise resolutions)
    (horder : order.Perm ((List.finRange N).flatMap fun p =>
      (otherShares resolutions (own p) (logs p)).map (Prod.mk p)))
    (hm : Gathers R m (order.map fun x =>
      Pi.single (shareKey x.2) (shareOf resolutions (total x.1) x.2)).sum) :
    BatchRecords R resolutions passes (∑ p, total p)
      (((List.finRange N).flatMap fun p => ownRecords resolutions passes (own p) (logs p)) ++
        m.finish passes mergedRecord) where
  nodup := by
    rw [List.map_append, List.nodup_append]
    refine ⟨?_, PartialMerger.nodup_finish passes m, ?_⟩
    · rw [List.map_flatMap, List.nodup_flatMap]
      refine ⟨fun p _ => nodup_ownRecords hres (h.aggregation p).nodup, ?_⟩
      refine (List.nodup_finRange N).pairwise_of_forall_ne fun p _ q _ hne key hkey hkey' => ?_
      obtain ⟨r, hr, rfl⟩ := List.mem_map.mp hkey
      obtain ⟨r', hr', heq⟩ := List.mem_map.mp hkey'
      obtain ⟨hnumber, hcell⟩ := Prod.mk.inj heq
      obtain ⟨-, i, hi, hown, hp, -⟩ := h.of_own_record hR hr
      obtain ⟨-, j, hj, -, hq, -⟩ := h.of_own_record hR hr'
      obtain rfl := hres.1 (hi.symm.trans (hnumber.symm.trans hj))
      rw [hcell] at hq
      exact hq (h.exclusive p i _ hown hp q (Ne.symm hne))
    · intro key hkey key' hkey' heq
      obtain ⟨r, hr, rfl⟩ := List.mem_map.mp hkey
      obtain ⟨r', hr', rfl⟩ := List.mem_map.mp hkey'
      obtain ⟨hnumber, hcell⟩ := Prod.mk.inj heq
      obtain ⟨p, -, hp⟩ := List.mem_flatMap.mp hr
      obtain ⟨-, i, hi, hown, htotal, -⟩ := h.of_own_record hR hp
      obtain ⟨-, j, hj, hnone, -⟩ := h.of_merged_record hR hres horder hm hr'
      obtain rfl := hres.1 (hi.symm.trans (hnumber.trans hj))
      rw [← hcell] at hnone
      exact htotal (hnone p hown)
  whole := by
    intro r hr
    rcases List.mem_append.mp hr with hr | hr
    · obtain ⟨p, -, hp⟩ := List.mem_flatMap.mp hr
      obtain ⟨hpass, i, hi, -, -, hrep⟩ := h.of_own_record hR hp
      exact ⟨hpass, i, hi, hrep⟩
    · obtain ⟨hpass, i, hi, -, hrep⟩ := h.of_merged_record hR hres horder hm hr
      exact ⟨hpass, i, hi, hrep⟩
  complete := by
    intro i k hne
    by_cases hown : ∃ p, own p k = true ∧ total p i k ≠ 0
    · obtain ⟨p, hp, htotal⟩ := hown
      obtain ⟨a, ha⟩ := mem_keys.mp (h.complete p i k htotal)
      have hmem := mem_emittedOf.mp ha
      refine ⟨a, ?_, fun hpass => List.mem_append_left _ (List.mem_flatMap.mpr ⟨p,
        List.mem_finRange p, mem_ownRecords.mpr ⟨i, rfl, hmem, hp, hpass⟩⟩)⟩
      rw [h.total_of_own hp htotal]
      exact (h.aggregation p).whole i k a hmem
    · have hnone : ∀ p, own p k = true → total p i k = 0 := by
        intro p hp
        by_contra htotal
        exact hown ⟨p, hp, htotal⟩
      rw [← Parts.total_of_shared hnone] at hne ⊢
      cases hlookup : m.cells.lookup (UInt8.ofNat (resolutions i), k) with
      | none =>
          have habsent := hm.absent _ hlookup
          rw [h.sum_order hres horder] at habsent
          exact absurd habsent hne
      | some a =>
          refine ⟨a, h.merged hres horder hm hlookup, fun hpass => List.mem_append_right _ ?_⟩
          refine PartialMerger.mem_finish.mpr ⟨_, a, hlookup, hpass, ?_⟩
          rw [mergedRecord, UInt8.toNat_ofNat_of_lt' (hres.2 i)]

/-! ## The scans -/

/-- The scan of one partition, and how its consumer pages through it. -/
structure Worker (A L C X : Type) (n : Nat) where
  cfg : Setup A L C n
  items : List (Item A X n)
  classifier : Option C
  compactionBudgetBytes : Option Nat
  structureBytes : Fin n → Nat → Nat
  indexBytes : Nat → Nat
  pages : List Page

/-- What there is to aggregate in the partition. -/
def Worker.samples (w : Worker A L C X n) : Fin n → Contents X := received w.items w.items.length

variable [LinearOrder L] [BoundedOrder L]

def Worker.session (w : Worker A L C X n) : Session A L C n :=
  (Session.fresh w.cfg w.items w.classifier w.compactionBudgetBytes w.structureBytes
    w.indexBytes).run w.cfg w.pages

variable {F : Type} [Field F] [LinearOrder F] [IsStrictOrderedRing F] [FloorRing F]
  {t : Territory F N} {double : F → Prop} {inCell : CellIndex → F × F → Prop}

/-- The partitions of one scan: the same resolutions and the same filter, a fresh classifier
each, and the chunks of the partition in the order of the mosaic. A chunk has samples of a cell
only in the cell and inside of the bounds of the chunk. -/
structure Partitioned (R : Multiset X → A → Prop) (resolutions : Fin n → Nat) (passes : A → Bool)
    (t : Territory F N) (inCell : CellIndex → F × F → Prop)
    (w : (p : Fin N) → Worker A L (t.Classifier p) X n) : Prop where
  bytewise : Bytewise resolutions
  resolutions : ∀ p, (w p).cfg.resolutions = resolutions
  passes : ∀ p, (w p).cfg.kernel.passesFilter = passes
  scan : ∀ p, Scan R (w p).cfg (w p).items
  classifier : ∀ p, (w p).classifier = some .new
  isInterior : ∀ p c k, (w p).cfg.isInterior c k = (c.isInterior k).getD (false, c)
  located : ∀ p, List.Forall₂ (fun item c => ∀ i k, item.total i k ≠ 0 →
    ∃ pos, inCell k pos ∧ (t.rect c).Contains pos) (w p).items (t.chunks p)

omit [SpillAccumulator A] [LawfulSpill A] in
theorem Partitioned.owns {w : (p : Fin N) → Worker A L (t.Classifier p) X n}
    (hsurvey : t.Surveyed double inCell) (h : Partitioned R resolutions passes t inCell w)
    (p : Fin N) : Owns (w p).cfg (t.own p) (w p).classifier.isSome where
  whole := fun hnone => by
    rw [h.classifier p] at hnone
    cases hnone
  verdict := fun _ c k => by
    obtain ⟨c', hc'⟩ := hsurvey.isInterior_eq p k c
    rw [h.isInterior, hc']
    rfl

omit [SpillAccumulator A] [LawfulSpill A] [IsStrictOrderedRing F] in
/-- A cell that one partition finalizes has no sample in another one. -/
theorem Partitioned.exclusive {w : (p : Fin N) → Worker A L (t.Classifier p) X n}
    (hsurvey : t.Surveyed double inCell) (h : Partitioned R resolutions passes t inCell w)
    (p : Fin N) (i : Fin n) (k : CellIndex) (hown : t.own p k = true) (q : Fin N) (hne : q ≠ p) :
    (w q).samples i k = 0 := by
  have hnone : ∀ item ∈ (w q).items, item.total i k = 0 := by
    intro item hitem
    by_contra hsome
    obtain ⟨c, hc, hlocated⟩ := Related.exists_of_mem (h.located q) hitem
    obtain ⟨pos, hpos, hcontains⟩ := hlocated i k hsome
    exact hsurvey.no_sample hne hown hc hpos hcontains
  rw [Worker.samples, received, List.take_length]
  generalize (w q).items = items at hnone
  induction items with
  | nil => rfl
  | cons item items ih =>
      obtain ⟨hitem, hitems⟩ := List.forall_mem_cons.mp hnone
      rw [List.map_cons, List.sum_cons, Pi.add_apply, Pi.add_apply, hitem, ih hitems, add_zero]

/-- What finished workers have emitted. -/
theorem Partitioned.parts {w : (p : Fin N) → Worker A L (t.Classifier p) X n}
    (hR : Represents R) (hsurvey : t.Surveyed double inCell)
    (h : Partitioned R resolutions passes t inCell w)
    (hdone : ∀ p, (w p).session.stream.isFinished = true) :
    ∃ logs : Fin N → List (Emitted A n),
      Parts R t.own (fun p => (w p).samples) logs ∧
      ∀ p, (w p).session.records = ownRecords resolutions passes (t.own p) (logs p) ∧
        (w p).session.partials = otherShares resolutions (t.own p) (logs p) := by
  have hall : ∀ p, ∃ log, Aggregation R (w p).samples log ∧ Complete (w p).samples log ∧
      (w p).session.records = ownRecords resolutions passes (t.own p) log ∧
      (w p).session.partials = otherShares resolutions (t.own p) log := by
    intro p
    obtain ⟨log, hcarries⟩ := run_streaming hR (h.scan p) (h.owns hsurvey p)
      (w p).compactionBudgetBytes (w p).structureBytes (w p).indexBytes (w p).pages
    obtain ⟨hrecords, hpartials, hcomplete⟩ := hcarries.complete (hdone p)
    rw [finalsOf, h.resolutions p, h.passes p] at hrecords
    rw [sharesOf, h.resolutions p] at hpartials
    obtain ⟨stream, hstream, -⟩ := hcarries
    exact ⟨log, hstream.aggregation (h.scan p), hcomplete, hrecords, hpartials⟩
  choose logs hagg hcomplete hrecords hpartials using hall
  exact ⟨logs, ⟨hagg, hcomplete, fun p i k hown _ => h.exclusive hsurvey p i k hown⟩,
    fun p => ⟨hrecords p, hpartials p⟩⟩

end Records

/-- The partial cells of finished workers, encoded and merged in any order, and their
records are the batch result of a scan over all the chunks. -/
theorem partitioned_scan_equals_batch [PartialState A] [LawfulSpill A] [LinearOrder L]
    [BoundedOrder L] {F : Type} [Field F] [LinearOrder F] [IsStrictOrderedRing F] [FloorRing F]
    {t : Territory F N} {double : F → Prop} {inCell : CellIndex → F × F → Prop}
    (hR : Represents R) (hsurvey : t.Surveyed double inCell)
    {w : (p : Fin N) → Worker A L (t.Classifier p) X n}
    (h : Partitioned R resolutions passes t inCell w)
    (hdone : ∀ p, (w p).session.stream.isFinished = true) {limit : Usize}
    {order : List (PartialCell A)}
    (horder : order.Perm ((List.finRange N).flatMap fun p => (w p).session.partials))
    (hfit : ∀ r ∈ order, memoryBytes r.accumulator ≤ limit.val ∧ Readable limit r.accumulator) :
    ∃ m, PartialMerger.new.pushAllEncoded limit
        (order.map fun r => (shareKey r, encodePartialState r.accumulator)) = .ok m ∧
      BatchRecords R resolutions passes (∑ p, (w p).samples)
        (((List.finRange N).flatMap fun p => (w p).session.records) ++
          m.finish passes mergedRecord) := by
  obtain ⟨logs, hparts, hlogs⟩ := h.parts hR hsurvey hdone
  have hrecords : ∀ p, (w p).session.records = ownRecords resolutions passes (t.own p) (logs p) :=
    fun p => (hlogs p).1
  have hpartials : ∀ p, (w p).session.partials = otherShares resolutions (t.own p) (logs p) :=
    fun p => (hlogs p).2
  simp only [hpartials] at horder
  -- every partial cell comes from some partition
  obtain ⟨tagged, rfl, htagged⟩ : ∃ tagged : List (Fin N × PartialCell A),
      order = tagged.map Prod.snd ∧ tagged.Perm ((List.finRange N).flatMap fun p =>
        (otherShares resolutions (t.own p) (logs p)).map (Prod.mk p)) := by
    have hsnd : ((List.finRange N).flatMap fun p =>
        otherShares resolutions (t.own p) (logs p)) = ((List.finRange N).flatMap fun p =>
        (otherShares resolutions (t.own p) (logs p)).map (Prod.mk p)).map Prod.snd := by
      rw [List.map_flatMap]
      simp only [List.map_map, Function.comp_def, List.map_id']
    rw [hsnd] at horder
    exact (congrFun₂ (List.eq_map_comp_perm Prod.snd) _ _).mpr horder
  have hshare : ∀ x ∈ tagged,
      R (shareOf resolutions (w x.1).samples x.2) x.2.accumulator := by
    intro x hx
    obtain ⟨p, -, hp⟩ := List.mem_flatMap.mp (htagged.mem_iff.mp hx)
    obtain ⟨r, hr, rfl⟩ := List.mem_map.mp hp
    obtain ⟨i, hi, hmem, -⟩ := mem_otherShares.mp hr
    rw [shareOf, hi, atNumber_self h.bytewise.1]
    exact (hparts.aggregation p).whole i _ _ hmem
  obtain ⟨m, hm, hgathers⟩ := Gathers.pushAllEncoded hR (fun x => shareKey x.2)
    (fun x => x.2.accumulator)
    tagged
    (fun x hx => hfit x.2 (List.mem_map_of_mem hx)) hshare (Gathers.new R)
  rw [zero_add] at hgathers
  refine ⟨m, by rw [List.map_map]; exact hm, ?_⟩
  simp only [hrecords]
  exact hparts.batch_records hR h.bytewise htagged hgathers

/-! ## Two partitions of one pixel

Two chunks lie side by side, and of three cells the one in the middle reaches into both. -/

def sideBySide : Partition.MosaicLayout where
  tiles := [{
    width := 512
    height := 256
    chunkWidth := 256
    chunkHeight := 256
    chunksAcross := 2
    chunksDown := 1
    -- 10° east, 50° north, pixels of 1/64 of a degree
    geotransform := [0x3f90000000000000, 0, 0x4024000000000000, 0, 0xbf90000000000000,
      0x4049000000000000]
    -- EPSG:4326
    crsIdentity := [69, 80, 83, 71, 58, 52, 51, 50, 54] }]
  overlapRule := .cutline
  bbox := none
  chunkRefs := [⟨0, 0⟩, ⟨0, 1⟩]
  nodup := by decide
  inTile := by simp

def halves : List Partition.ScanPartition :=
  [⟨0, 2, Partition.mosaicFingerprint sideBySide, [⟨0, 0, 1, 0, 1⟩]⟩,
    ⟨1, 2, Partition.mosaicFingerprint sideBySide, [⟨0, 1, 2, 0, 1⟩]⟩]

theorem covers_halves : Partition.Covers sideBySide 1 halves := by
  obtain ⟨plan, hok, hcovers⟩ : ∃ plan,
      Partition.planPartitions Partition.roundedSqrt sideBySide 1 = .ok plan ∧
        (plan.length < 2 ^ 32 → Partition.Covers sideBySide 1 plan) :=
    Partition.planPartitions_covers Partition.roundedSqrt (by decide) (by decide)
  have hplan : Partition.planPartitions Partition.roundedSqrt sideBySide 1 = .ok halves := by
    decide +kernel
  obtain rfl : plan = halves := Except.ok.inj (hok.symm.trans hplan)
  exact hcovers (by decide)

/-- Squares of half a degree. -/
def squareShapes : CellShapes ℚ where
  isCell := fun _ => true
  resolution := fun _ => 1
  parent := fun _ _ => some 0x8029fffffffffff
  boundary := fun k =>
    let square := fun w s => [(w, s), (w + 1 / 2, s), (w + 1 / 2, s + 1 / 2), (w, s + 1 / 2)]
    if k = 0x8129bffffffffff then square 11 47
    else if k = 0x81287ffffffffff then square (55 / 4) 47
    else if k = 0x81283ffffffffff then square 17 47
    else []

def inSquare (k : CellIndex) (p : ℚ × ℚ) : Prop :=
  ∃ v ∈ squareShapes.boundary k, ∃ v' ∈ squareShapes.boundary k,
    (v.1 ≤ p.1 ∧ p.1 ≤ v'.1) ∧ v.2 ≤ p.2 ∧ p.2 ≤ v'.2

instance decidableInSquare (k : CellIndex) (p : ℚ × ℚ) : Decidable (inSquare k p) :=
  inferInstanceAs (Decidable (∃ v ∈ _, _))

def halfBounds (c : Partition.ChunkRef) : ChunkBounds ℚ :=
  if c.chunkIdx = 0 then ⟨.finite 10, .finite 46, .finite 14, .finite 50⟩
  else ⟨.finite 14, .finite 46, .finite 18, .finite 50⟩

def halvesTerritory : Territory ℚ 2 where
  layout := sideBySide
  bounds := halfBounds
  plan := halves.get
  shapes := squareShapes
  round := id

theorem surveyed_halves : halvesTerritory.Surveyed (fun _ => True) inSquare where
  disjoint := fun c hc p q hp hq => covers_halves.disjoint hc p q hp hq
  few := by decide
  rounds := ForeignChunks.rounds_id
  doubles := fun _ _ => ⟨trivial, trivial, trivial, trivial⟩
  encloses := {
    cell := by
      rintro k p r ⟨v, hv, v', hv', hlng, hlat⟩ hr
      exact cellBox_contains hr ⟨v, hv, v', hv', hlng⟩ ⟨v, hv, v', hv', hlat⟩
    descendant := by
      intro k p up a r hp ha hr
      have hbase : a = 0x8029fffffffffff := by
        unfold BoundaryClassifier.ancestor at ha
        split at ha
        · exact (Option.some.inj ha).symm
        · cases ha
      subst hbase
      -- the base cell is too large for a box
      have hnone : cellBox squareShapes 0x8029fffffffffff true = none := rfl
      exact absurd (hnone.symm.trans hr) (Option.some_ne_none r).symm }

def pixelWorker (p : Fin 2) (cells : List (CellIndex × CategoricalAccumulator Nat)) :
    Worker (CategoricalAccumulator Nat) (Fin 181) (halvesTerritory.Classifier p)
      (CategoricalAccumulator Nat) 1 where
  cfg :=
    { twoChunkSetup with
      norths := [⟨130, north_lt⟩]
      chunkPixels := [1]
      isInterior := fun c k => (c.isInterior k).getD (false, c) }
  items := [.ok (onePixel cells)]
  classifier := some .new
  compactionBudgetBytes := none
  structureBytes := fun _ _ => 1024
  indexBytes := fun _ => 1024
  pages := [⟨.drainPartitionedInto, 8, 9⟩]

/-- The cell in the middle has a sample in both partitions. -/
def twoPartitions (p : Fin 2) :
    Worker (CategoricalAccumulator Nat) (Fin 181) (halvesTerritory.Classifier p)
      (CategoricalAccumulator Nat) 1 :=
  pixelWorker p (if p.val = 0
    then [(0x8129bffffffffff, sampleOf 1), (0x81287ffffffffff, sampleOf 2)]
    else [(0x81287ffffffffff, sampleOf 3), (0x81283ffffffffff, sampleOf 4)])

theorem scan_pixelWorker {p : Fin 2} {cells : List (CellIndex × CategoricalAccumulator Nat)}
    (hnodup : (keys cells).Nodup) (hall : ∀ e ∈ cells, baseGrid.southLat e.1 ≤ ⟨130, north_lt⟩) :
    Scan MergeOf (pixelWorker p cells).cfg (pixelWorker p cells).items where
  chunks := rfl
  aggregates := by
    intro c hc
    cases List.mem_singleton.mp hc
    exact onePixel_aggregates hnodup _
  bounded := by
    intro k item hk i key hne
    rcases k with _ | k
    · cases hk
      exact south_onePixel hall hne
    · cases hk
  tasks := Nat.one_pos
  pixels := Nat.one_pos

theorem partitioned_halves : Partitioned MergeOf (fun _ => 1) (fun _ => true) halvesTerritory
    inSquare twoPartitions where
  bytewise := ⟨Function.injective_of_subsingleton _, fun _ => show 1 < 256 by decide⟩
  resolutions := fun _ => rfl
  passes := fun _ => rfl
  scan := by
    intro p
    rcases Fin.exists_fin_two.mp ⟨p, rfl⟩ with rfl | rfl
    · exact scan_pixelWorker (by decide +kernel) (by decide +kernel)
    · exact scan_pixelWorker (by decide +kernel) (by decide +kernel)
  classifier := fun _ => rfl
  isInterior := fun _ _ _ => rfl
  located := by
    intro p
    rcases Fin.exists_fin_two.mp ⟨p, rfl⟩ with rfl | rfl
    · have hchunks : halvesTerritory.chunks 0 = [⟨0, 0⟩] := by decide +kernel
      rw [hchunks]
      refine .cons (fun i k hne => ?_) .nil
      rcases List.mem_pair.mp (mem_keys_of_onePixel hne) with rfl | rfl
      · exact ⟨(45 / 4, 189 / 4), by decide +kernel, by decide +kernel⟩
      · exact ⟨(111 / 8, 189 / 4), by decide +kernel, by decide +kernel⟩
    · have hchunks : halvesTerritory.chunks 1 = [⟨0, 1⟩] := by decide +kernel
      rw [hchunks]
      refine .cons (fun i k hne => ?_) .nil
      rcases List.mem_pair.mp (mem_keys_of_onePixel hne) with rfl | rfl
      · exact ⟨(113 / 8, 189 / 4), by decide +kernel, by decide +kernel⟩
      · exact ⟨(69 / 4, 189 / 4), by decide +kernel, by decide +kernel⟩

/-- The merged record of the shared cell has both samples. -/
theorem partitioned_scan_equals_batch_two_partitions :
    let order := ((List.finRange 2).flatMap fun p => (twoPartitions p).session.partials).reverse
    order.map recordKey = [(1, 0x81287ffffffffff), (1, 0x81287ffffffffff)] ∧
    ∃ m, PartialMerger.new.pushAllEncoded 65536
        (order.map fun r => (shareKey r, encodePartialState r.accumulator)) = .ok m ∧
      BatchRecords MergeOf (fun _ => 1) (fun _ => true) (∑ p, (twoPartitions p).samples)
        (((List.finRange 2).flatMap fun p => (twoPartitions p).session.records) ++
          m.finish (fun _ => true) mergedRecord) := by
  have hfit : ∀ r ∈ ((List.finRange 2).flatMap fun p =>
      (twoPartitions p).session.partials).reverse,
      memoryBytes r.accumulator ≤ 65536 ∧ r.accumulator.uniqueClasses ≤ 65536 / 64 := by
    decide +kernel
  exact ⟨by decide +kernel, partitioned_scan_equals_batch MergeOf.represents surveyed_halves
    partitioned_halves (by decide +kernel) (List.reverse_perm _) hfit⟩

end RasterH3.Agg
