import RasterH3.Lib.Related
import RasterH3.Pmtiles.ExternalExport
import RasterH3.Proofs.SortRunCodec
import Mathlib.Data.Prod.Lex
import Mathlib.Tactic

/-!
# Whether an export depends on its budget

The budget decides where the input is cut into runs, and so which records the library's sort
sees together. Every run is sorted before it is written, and the runs are merged by a heap
that holds the first record of each. So the features come in an order, whatever the budget:
the merge of sorted runs is a sorted permutation of the records, as is the sort of all of
them in memory. Two of these are the same sequence when no two different records compare
equal, and that is more than the order of records says, since it compares a latitude and a
cell only.

The order is a linear one on what it compares (`rank`), which turns `total_cmp` on latitudes
and the reversal into a lexicographic product; on the heap the number of the run comes
third. `Merging` is the invariant of the merge. The heap is sorted, every reader holds a run
in order, and a run with records left has one on the heap that comes before them; hence the
first record of the heap comes before all that are pending (`Merging.head_le`). One round
moves the next record of the popped run to the heap (`Merging.step`), and the induction is
on the rounds.

A record that went through a file is the same up to the unused bytes of a short text, and is
handed on as the same hexagon (`addRecord_same`). Names are numbered as they come;
`Interned` says what the numbering keeps, and that it fails with more names than ids, in
either mode of the export.
-/

namespace RasterH3.Pmtiles

open Agg (CellIndex)
open Bytes

/-! ## Records in order -/

namespace SortRecord

/-- What `order` compares. -/
def rank (r : SortRecord) : ℤᵒᵈ ×ₗ CellIndex :=
  toLex (OrderDual.toDual (totalCmpKey r.lat), r.h3Index)

theorem rank_le_iff {r r' : SortRecord} :
    r.rank ≤ r'.rank ↔ totalCmpKey r'.lat < totalCmpKey r.lat ∨
      totalCmpKey r'.lat = totalCmpKey r.lat ∧ r.h3Index ≤ r'.h3Index := by
  rw [rank, rank, Prod.Lex.toLex_le_toLex, OrderDual.toDual_lt_toDual, OrderDual.toDual_inj, eq_comm]

theorem order_ne_gt {r r' : SortRecord} : r.order r' ≠ .gt ↔ r.rank ≤ r'.rank := by
  rw [rank_le_iff, order, totalCmp]
  rcases lt_trichotomy (totalCmpKey r'.lat) (totalCmpKey r.lat) with h | h | h
  · rw [compare_lt_iff_lt.mpr h]
    simp [Ordering.then, h]
  · rw [compare_eq_iff_eq.mpr h]
    simp [Ordering.then, h, compare_gt_iff_gt]
  · rw [compare_gt_iff_gt.mpr h]
    simp [Ordering.then, h.not_gt, h.ne']

theorem order_eq_lt {r r' : SortRecord} : r.order r' = .lt ↔ r.rank < r'.rank := by
  rw [lt_iff_not_ge, rank_le_iff, order, totalCmp]
  rcases lt_trichotomy (totalCmpKey r'.lat) (totalCmpKey r.lat) with h | h | h
  · rw [compare_lt_iff_lt.mpr h]
    simp [Ordering.then, h.not_gt, h.ne']
  · rw [compare_eq_iff_eq.mpr h]
    simp [Ordering.then, h, compare_lt_iff_lt]
  · rw [compare_gt_iff_gt.mpr h]
    simp [Ordering.then, h]

theorem order_eq_eq {r r' : SortRecord} : r.order r' = .eq ↔ r.rank = r'.rank := by
  have hgt := @order_ne_gt r r'
  have hlt := @order_eq_lt r r'
  cases h : r.order r' with
  | lt => simp only [h, true_iff, reduceCtorEq, false_iff] at hlt ⊢; exact hlt.ne
  | eq =>
      simp only [h, ne_eq, reduceCtorEq, not_false_eq_true, true_iff, false_iff, not_lt] at hgt hlt ⊢
      exact le_antisymm hgt hlt
  | gt =>
      simp only [h, ne_eq, not_true_eq_false, false_iff, not_le, reduceCtorEq] at hgt ⊢
      exact hgt.ne'

theorem Same.rank_eq {r r' : SortRecord} (h : r.Same r') : r.rank = r'.rank := by
  rw [rank, rank, h.lat, h.h3Index]

end SortRecord

def Ranked (records : List SortRecord) : Prop := records.Pairwise fun r r' => r.rank ≤ r'.rank

/-! ## What is the same of two records -/

namespace MvtValue

/-- The value with nothing past the length of a `HexStr`. -/
def normal : MvtValue → MvtValue
  | hexStr bytes len => .hexStr (Vector.ofFn fun i => (hexBytes bytes len).getD i 0) len
  | v => v

theorem Same.normal_eq {v v' : MvtValue} (h : v.Same v') : v.normal = v'.normal := by
  cases v <;> cases v' <;> try simp_all [Same, normal]
  next =>
    obtain ⟨rfl, hbytes⟩ := h
    rw [hbytes]

end MvtValue

namespace Hexagon

def normal (h : Hexagon) : Hexagon :=
  ⟨h.h3Index, h.properties.map fun p => (p.1, p.2.normal)⟩

end Hexagon

theorem map_addDefault (name : String) (value : MvtValue) (properties : List (String × MvtValue)) :
    (addDefault name value properties).map (fun p => (p.1, p.2.normal)) =
      addDefault name value.normal (properties.map fun p => (p.1, p.2.normal)) := by
  have hany : (properties.map fun p => (p.1, p.2.normal)).any (fun p => p.1 == name) =
      properties.any fun p => p.1 == name := List.any_map
  rw [addDefault, addDefault, hany]
  split <;> simp

/-- Equal records are handed on as equal hexagons. -/
theorem addRecord_same {cells : Cells} {keys : List String} {r r' : SortRecord} (h : r.Same r') :
    (addRecord cells keys r).map Hexagon.normal = (addRecord cells keys r').map Hexagon.normal := by
  have hprops : (r.properties.map fun p => (keys.getD p.1.toNat "", p.2)).map
        (fun p => (p.1, p.2.normal)) =
      (r'.properties.map fun p => (keys.getD p.1.toNat "", p.2)).map
        fun p => (p.1, p.2.normal) := by
    rw [List.map_map, List.map_map]
    exact Related.map_eq_map h.properties fun p p' hp => by
      simp only [Function.comp_apply, hp.1, hp.2.normal_eq]
  rw [addRecord, addRecord, h.h3Index]
  split
  next => simp only [Option.map_some, Hexagon.normal, withDefaults, map_addDefault, hprops]
  next => rfl

/-! ## The heap -/

namespace MergeHead

def rank (h : MergeHead) : (ℤᵒᵈ ×ₗ CellIndex) ×ₗ Nat := toLex (h.record.rank, h.run)

theorem cmp_ne_lt {h h' : MergeHead} : h.cmp h' ≠ .lt ↔ h.rank ≤ h'.rank := by
  have hthen : ∀ {o o' : Ordering}, o.then o' = .lt ↔ o = .lt ∨ o = .eq ∧ o' = .lt := by
    intro o o'
    cases o <;> simp [Ordering.then]
  have hlt : h.cmp h' = .lt ↔ h'.rank < h.rank := by
    rw [cmp, hthen, SortRecord.order_eq_lt, SortRecord.order_eq_eq, compare_lt_iff_lt, rank, rank,
      Prod.Lex.toLex_lt_toLex]
  rw [ne_eq, hlt, not_lt]

theorem record_le {h h' : MergeHead} (hle : h.rank ≤ h'.rank) : h.record.rank ≤ h'.record.rank := by
  rw [rank, rank, Prod.Lex.toLex_le_toLex] at hle
  rcases hle with hlt | ⟨heq, -⟩
  · exact hlt.le
  · exact heq.le

instance : Std.Total fun h h' : MergeHead => h.cmp h' ≠ .lt :=
  ⟨fun h h' => by simp only [cmp_ne_lt]; exact le_total _ _⟩

instance : IsTrans MergeHead fun h h' => h.cmp h' ≠ .lt :=
  ⟨fun h h' h'' => by simp only [cmp_ne_lt]; exact le_trans⟩

end MergeHead

theorem mem_heapPush {h h' : MergeHead} {heap : List MergeHead} :
    h' ∈ heapPush h heap ↔ h' = h ∨ h' ∈ heap :=
  List.mem_orderedInsert _

theorem heapPush_perm (h : MergeHead) (heap : List MergeHead) :
    (heapPush h heap).Perm (h :: heap) :=
  List.perm_orderedInsert _ h heap

theorem heapPush_sorted {h : MergeHead} {heap : List MergeHead}
    (hs : heap.Pairwise fun h h' => h.cmp h' ≠ .lt) :
    (heapPush h heap).Pairwise fun h h' => h.cmp h' ≠ .lt :=
  hs.orderedInsert h heap

/-! ## Runs and readers -/

namespace SortRecord

def normal (r : SortRecord) : SortRecord :=
  ⟨r.lat, r.h3Index, r.properties.map fun p => (p.1, p.2.normal)⟩

theorem Same.normal_eq {r r' : SortRecord} (h : r.Same r') : r.normal = r'.normal := by
  rw [normal, normal, h.lat, h.h3Index, Related.map_eq_map h.properties]
  intro p p' hp
  rw [hp.1, hp.2.normal_eq]

theorem rank_eq_of_normal {r r' : SortRecord} (h : r.normal = r'.normal) : r.rank = r'.rank := by
  injection h with hlat hcell
  rw [rank, rank, hlat, hcell]

end SortRecord

/-- A run on disk: the records it was written from, in order. -/
structure RunFile (records : List SortRecord) (file : List UInt8) : Prop where
  written : writeRun records = .ok file
  ranked : Ranked records

theorem RunFile.read {records : List SortRecord} {file : List UInt8} (h : RunFile records file) :
    (records = [] ∧ readFrom file = .ok (none, [])) ∨
      ∃ r records' r' rest, records = r :: records' ∧ r.Same r' ∧
        readFrom file = .ok (some r', rest) ∧ RunFile records' rest := by
  cases records with
  | nil =>
      obtain rfl := Except.ok.inj h.written
      exact .inl ⟨rfl, readFrom_short (by decide)⟩
  | cons r records =>
      obtain ⟨bytes, rest, hr, hrest, rfl⟩ := writeRun_cons h.written
      obtain ⟨r', hsame, hread⟩ := readFrom_whole hr
      exact .inr ⟨r, records, r', rest, rfl, hsame, hread rest, hrest, h.ranked.of_cons⟩

/-- Between two rounds of the merge: what every reader still holds, and that a
run with records left has one on the heap that comes before them. -/
structure Merging (heap : List MergeHead) (rems : List (List SortRecord))
    (readers : List (List UInt8)) : Prop where
  sorted : heap.Pairwise fun h h' => h.cmp h' ≠ .lt
  files : List.Forall₂ RunFile rems readers
  front : ∀ i rs, rems[i]? = some rs → ∀ r ∈ rs, ∃ h ∈ heap, h.run = i ∧ h.record.rank ≤ r.rank
  runs : ∀ h ∈ heap, h.run < rems.length

/-- The records that are still to come. -/
def pending (heap : List MergeHead) (rems : List (List SortRecord)) : List SortRecord :=
  heap.map MergeHead.record ++ rems.flatten

theorem flatten_perm_set {α : Type} {rems : List (List α)} {i : Nat} {r : α} {rs : List α}
    (h : rems[i]? = some (r :: rs)) : rems.flatten.Perm (r :: (rems.set i rs).flatten) := by
  induction rems generalizing i with
  | nil => cases h
  | cons l rems ih =>
      cases i with
      | zero =>
          obtain rfl : l = r :: rs := Option.some.inj h
          exact .refl _
      | succ i =>
          rw [List.flatten_cons, List.set_cons_succ, List.flatten_cons]
          exact ((ih h).append_left l).trans List.perm_middle

/-- The first pending record of the heap comes before all others. -/
theorem Merging.head_le {h : MergeHead} {heap : List MergeHead} {rems : List (List SortRecord)}
    {readers : List (List UInt8)} (hm : Merging (h :: heap) rems readers) {r : SortRecord}
    (hr : r ∈ pending heap rems) : h.record.rank ≤ r.rank := by
  have hle : ∀ h' ∈ h :: heap, h.record.rank ≤ h'.record.rank := fun h' hmem => by
    rcases List.mem_cons.mp hmem with rfl | hmem
    · exact le_refl _
    · exact MergeHead.record_le (MergeHead.cmp_ne_lt.mp (List.rel_of_pairwise_cons hm.sorted hmem))
  rcases List.mem_append.mp hr with hr | hr
  · obtain ⟨h', hmem, rfl⟩ := List.mem_map.mp hr
    exact hle h' (List.mem_cons_of_mem _ hmem)
  · obtain ⟨rs, hrs, hr⟩ := List.mem_flatten.mp hr
    obtain ⟨i, hi⟩ := List.getElem?_of_mem hrs
    obtain ⟨h', hmem, -, hh'⟩ := hm.front i rs hi r hr
    exact (hle h' hmem).trans hh'

theorem pending_push {r r' : SortRecord} {run : Nat} {heap : List MergeHead}
    {rems : List (List SortRecord)} {rs : List SortRecord} (hrs : rems[run]? = some (r :: rs))
    (hsame : r.Same r') :
    ((pending (heapPush ⟨r', run⟩ heap) (rems.set run rs)).map SortRecord.normal).Perm
      ((pending heap rems).map SortRecord.normal) := by
  have hpush : (pending (heapPush ⟨r', run⟩ heap) (rems.set run rs)).Perm
      (r' :: pending heap (rems.set run rs)) :=
    ((heapPush_perm _ heap).map MergeHead.record).append_right _
  have hpop : (pending heap rems).Perm (r :: pending heap (rems.set run rs)) :=
    ((flatten_perm_set hrs).append_left _).trans List.perm_middle
  have hnormal : (r' :: pending heap (rems.set run rs)).map SortRecord.normal =
      (r :: pending heap (rems.set run rs)).map SortRecord.normal := by
    rw [List.map_cons, List.map_cons, hsame.normal_eq]
  exact (hpush.map _).trans (hnormal ▸ (hpop.map _).symm)

/-- One round: the next record of the popped run moves from its reader to the heap. -/
theorem Merging.step {h : MergeHead} {heap : List MergeHead} {rems : List (List SortRecord)}
    {readers : List (List UInt8)} (hm : Merging (h :: heap) rems readers) :
    ∃ next rest rems', readFrom (readers.getD h.run []) = .ok (next, rest) ∧
      Merging (pushNext next h.run heap) rems' (readers.set h.run rest) ∧
      ((pending (pushNext next h.run heap) rems').map SortRecord.normal).Perm
        ((pending heap rems).map SortRecord.normal) := by
  have hlt := hm.runs h List.mem_cons_self
  obtain ⟨rs, hrs⟩ : ∃ rs, rems[h.run]? = some rs := ⟨_, List.getElem?_eq_getElem hlt⟩
  obtain ⟨file, hfile, hrun⟩ : ∃ file, readers[h.run]? = some file ∧ RunFile rs file :=
    Related.getElem? hm.files hrs
  rw [List.getD_eq_getElem?_getD, hfile, Option.getD_some]
  have hother : ∀ i rs', i ≠ h.run → rems[i]? = some rs' → ∀ r ∈ rs',
      ∃ h' ∈ heap, h'.run = i ∧ h'.record.rank ≤ r.rank := by
    intro i rs' hi hrs' r hr
    obtain ⟨h', hmem, hrun', hle⟩ := hm.front i rs' hrs' r hr
    rcases List.mem_cons.mp hmem with rfl | hmem
    · exact absurd hrun'.symm hi
    · exact ⟨h', hmem, hrun', hle⟩
  rcases hrun.read with ⟨rfl, hread⟩ | ⟨r, rs', r', rest, rfl, hsame, hread, hrest⟩
  · have hset : rems.set h.run [] = rems := by
      obtain ⟨_, hget⟩ := List.getElem?_eq_some_iff.mp hrs
      rw [← hget, List.set_getElem_self]
    refine ⟨none, [], rems, hread, ⟨hm.sorted.of_cons, ?_, ?_, ?_⟩, .refl _⟩
    · have hfiles := Related.set hm.files (show RunFile [] [] from ⟨rfl, .nil⟩) h.run
      rwa [hset] at hfiles
    · intro i rs' hrs' r hr
      by_cases hi : i = h.run
      · subst hi
        rw [hrs] at hrs'
        obtain rfl := Option.some.inj hrs'
        cases hr
      · exact hother i rs' hi hrs' r hr
    · exact fun h' hmem => hm.runs h' (List.mem_cons_of_mem _ hmem)
  · refine ⟨some r', rest, rems.set h.run rs', hread, ⟨?_, ?_, ?_, ?_⟩, ?_⟩
    · exact heapPush_sorted hm.sorted.of_cons
    · exact Related.set hm.files hrest _
    · intro i rs'' hrs'' x hx
      by_cases hi : i = h.run
      · subst hi
        rw [List.getElem?_set_self hlt] at hrs''
        obtain rfl := Option.some.inj hrs''
        refine ⟨⟨r', h.run⟩, mem_heapPush.mpr (.inl rfl), rfl, ?_⟩
        rw [← hsame.rank_eq]
        exact List.rel_of_pairwise_cons hrun.ranked hx
      · rw [List.getElem?_set_ne (Ne.symm hi)] at hrs''
        obtain ⟨h', hmem, hh'⟩ := hother i rs'' hi hrs'' x hx
        exact ⟨h', mem_heapPush.mpr (.inr hmem), hh'⟩
    · intro h' hmem
      rw [List.length_set]
      rcases mem_heapPush.mp hmem with rfl | hmem
      · exact hlt
      · exact hm.runs h' (List.mem_cons_of_mem _ hmem)
    · exact pending_push hrs hsame

/-- The merge gives every pending record once, in order. -/
theorem Merging.mergeRuns {rounds : Nat} {heap : List MergeHead} {rems : List (List SortRecord)}
    {readers : List (List UInt8)} (hm : Merging heap rems readers)
    (hrounds : (pending heap rems).length < rounds) :
    ∃ out, mergeRuns rounds heap readers = .ok out ∧ Ranked out ∧
      (out.map SortRecord.normal).Perm ((pending heap rems).map SortRecord.normal) := by
  induction rounds generalizing heap rems readers with
  | zero => omega
  | succ rounds ih =>
      cases heap with
      | nil =>
          have hnil : pending [] rems = [] := by
            refine List.eq_nil_iff_forall_not_mem.mpr fun r hr => ?_
            obtain ⟨rs, hrs, hr⟩ := List.mem_flatten.mp hr
            obtain ⟨i, hi⟩ := List.getElem?_of_mem hrs
            obtain ⟨h, hmem, -⟩ := hm.front i rs hi r hr
            cases hmem
          exact ⟨[], rfl, .nil, by rw [hnil]⟩
      | cons h heap =>
          obtain ⟨next, rest, rems', hread, hm', hperm⟩ := hm.step
          have hlen := hperm.length_eq
          rw [List.length_map, List.length_map] at hlen
          have hcons : (pending (h :: heap) rems).length = (pending heap rems).length + 1 := rfl
          obtain ⟨out, hout, hranked, hpout⟩ := ih hm' (by omega)
          refine ⟨h.record :: out, ?_, .cons (fun r hr => ?_) hranked, (hpout.trans hperm).cons _⟩
          · rw [Pmtiles.mergeRuns, hread]
            show (do
              let records ← Pmtiles.mergeRuns rounds (pushNext next h.run heap) (readers.set h.run rest)
              return h.record :: records) = _
            rw [hout]
            rfl
          · have hmem := (hpout.trans hperm).subset (List.mem_map_of_mem hr)
            obtain ⟨r', hr', hnormal⟩ := List.mem_map.mp hmem
            rw [← SortRecord.rank_eq_of_normal hnormal]
            exact hm.head_le hr'

/-- What `openRuns` does for one run. -/
theorem RunFile.first {rs : List SortRecord} {file : List UInt8} (h : RunFile rs file) (run : Nat)
    (heap : List MergeHead) :
    ∃ next rest rs', readFrom file = .ok (next, rest) ∧ RunFile rs' rest ∧
      (∀ h' ∈ pushNext next run heap, h' ∈ heap ∨ h'.run = run) ∧
      (∀ h' ∈ heap, h' ∈ pushNext next run heap) ∧
      (∀ r ∈ rs', ∃ h' ∈ pushNext next run heap, h'.run = run ∧ h'.record.rank ≤ r.rank) ∧
      (((pushNext next run heap).map MergeHead.record ++ rs').map SortRecord.normal).Perm
        ((heap.map MergeHead.record ++ rs).map SortRecord.normal) := by
  rcases h.read with ⟨rfl, hread⟩ | ⟨r, rs', r', rest, rfl, hsame, hread, hrest⟩
  · exact ⟨none, [], [], hread, ⟨rfl, .nil⟩, fun h' hmem => .inl hmem, fun h' hmem => hmem,
      fun r hr => (nomatch hr), .refl _⟩
  · refine ⟨some r', rest, rs', hread, hrest, fun h' hmem => ?_,
      fun h' hmem => mem_heapPush.mpr (.inr hmem), fun r'' hr'' => ?_, ?_⟩
    · exact (mem_heapPush.mp hmem).symm.imp_right fun heq => by rw [heq]
    · refine ⟨⟨r', run⟩, mem_heapPush.mpr (.inl rfl), rfl, ?_⟩
      rw [← hsame.rank_eq]
      exact List.rel_of_pairwise_cons h.ranked hr''
    · have hpush : ((heapPush ⟨r', run⟩ heap).map MergeHead.record ++ rs').Perm
          (r' :: (heap.map MergeHead.record ++ rs')) :=
        ((heapPush_perm _ heap).map MergeHead.record).append_right _
      have hpop : (heap.map MergeHead.record ++ r :: rs').Perm
          (r :: (heap.map MergeHead.record ++ rs')) := List.perm_middle
      have hnormal : (r' :: (heap.map MergeHead.record ++ rs')).map SortRecord.normal =
          (r :: (heap.map MergeHead.record ++ rs')).map SortRecord.normal := by
        rw [List.map_cons, List.map_cons, hsame.normal_eq]
      exact (hpush.map _).trans (hnormal ▸ (hpop.map _).symm)

theorem pushNext_sorted (next : Option SortRecord) (run : Nat) {heap : List MergeHead}
    (hs : heap.Pairwise fun h h' => h.cmp h' ≠ .lt) :
    (pushNext next run heap).Pairwise fun h h' => h.cmp h' ≠ .lt := by
  cases next with
  | none => exact hs
  | some record => exact heapPush_sorted hs

/-- The runs from number `run` on have been opened over `heap`. -/
structure Opened (run : Nat) (heap heap' : List MergeHead) (rss rems : List (List SortRecord))
    (readers : List (List UInt8)) : Prop where
  sorted : heap'.Pairwise fun h h' => h.cmp h' ≠ .lt
  files : List.Forall₂ RunFile rems readers
  keeps : ∀ h ∈ heap, h ∈ heap'
  runs : ∀ h ∈ heap', h ∈ heap ∨ h.run < run + rems.length
  front : ∀ i rs, rems[i]? = some rs → ∀ r ∈ rs,
    ∃ h ∈ heap', h.run = run + i ∧ h.record.rank ≤ r.rank
  perm : ((pending heap' rems).map SortRecord.normal).Perm
    ((heap.map MergeHead.record ++ rss.flatten).map SortRecord.normal)

theorem openRuns_opened {rss : List (List SortRecord)} {files : List (List UInt8)}
    (h : List.Forall₂ RunFile rss files) (run : Nat) {heap : List MergeHead}
    (hs : heap.Pairwise fun h h' => h.cmp h' ≠ .lt) :
    ∃ heap' readers rems, openRuns run files heap = .ok (heap', readers) ∧
      Opened run heap heap' rss rems readers := by
  induction h generalizing run heap with
  | nil =>
      exact ⟨heap, [], [], rfl, hs, .nil, fun h hmem => hmem, fun h hmem => .inl hmem,
        fun i rs hrs => absurd hrs (by simp), .refl _⟩
  | @cons rs file rss files hfile _ ih =>
      obtain ⟨next, rest, rs', hread, hrest, hruns, hkeeps, hfront, hperm⟩ := hfile.first run heap
      obtain ⟨heap', readers, rems, hopen, ho⟩ := ih (run + 1) (pushNext_sorted next run hs)
      refine ⟨heap', rest :: readers, rs' :: rems, ?_, ho.sorted, .cons hrest ho.files,
        fun h hmem => ho.keeps h (hkeeps h hmem), fun h hmem => ?_, fun i rs'' hi r hr => ?_, ?_⟩
      · rw [openRuns, hread]
        show (openRuns (run + 1) files (pushNext next run heap) >>= fun opened =>
          pure (opened.1, rest :: opened.2)) = _
        rw [hopen]
        rfl
      · rw [List.length_cons]
        rcases ho.runs h hmem with hmem | hlt
        · rcases hruns h hmem with hmem | heq
          · exact .inl hmem
          · exact .inr (by omega)
        · exact .inr (by omega)
      · cases i with
        | zero =>
            obtain rfl := Option.some.inj hi
            obtain ⟨h, hmem, hrun, hle⟩ := hfront r hr
            exact ⟨h, ho.keeps h hmem, hrun, hle⟩
        | succ i =>
            obtain ⟨h, hmem, hrun, hle⟩ := ho.front i rs'' hi r hr
            exact ⟨h, hmem, by omega, hle⟩
      · have hlater := ho.perm
        simp only [pending, List.map_append, List.flatten_cons] at hperm hlater ⊢
        rw [← Multiset.coe_eq_coe] at hperm hlater ⊢
        simp only [← Multiset.coe_add] at hperm hlater ⊢
        rw [add_left_comm, hlater, add_left_comm, ← add_assoc, hperm, add_assoc]

/-! ## Names -/

/-- `keys'` are `keys` and the new ones among `names`. -/
structure Interned (keys keys' names : List String) : Prop where
  keep : keys <+: keys'
  nodup : keys'.Nodup
  le : keys'.length ≤ 2 ^ 16
  mem : ∀ {key}, key ∈ keys' ↔ key ∈ keys ∨ key ∈ names

/-- More names than ids. -/
def TooMany (names : List String) : Prop := 2 ^ 16 < names.toFinset.card

theorem intern_cases (key : String) {keys : List String} (hnodup : keys.Nodup)
    (hle : keys.length ≤ 2 ^ 16) :
    (∃ id keys', intern keys key = .ok (id, keys') ∧ Interned keys keys' [key] ∧
      id.toNat < keys'.length ∧ keys'.getD id.toNat "" = key) ∨
    (∃ e, intern keys key = .error e) ∧ TooMany (keys ++ [key]) := by
  rw [intern]
  cases hid : keys.idxOf? key with
  | some id =>
      obtain ⟨hlt, hget, -⟩ := List.findIdx?_eq_some_iff_getElem.mp hid
      have hkey : keys[id] = key := by simpa using hget
      have hval : (UInt16.ofNat id).toNat = id := UInt16.toNat_ofNat_of_lt' (by
        show id < 2 ^ 16
        omega)
      refine .inl ⟨_, keys, rfl, ⟨List.prefix_refl _, hnodup, hle, fun {k} => ?_⟩, ?_, ?_⟩
      · rw [List.mem_singleton]
        refine ⟨.inl, ?_⟩
        rintro (hmem | rfl)
        · exact hmem
        · exact hkey ▸ List.getElem_mem hlt
      · rw [hval]
        exact hlt
      · rw [hval, List.getD_eq_getElem?_getD, List.getElem?_eq_getElem hlt, Option.getD_some, hkey]
  | none =>
      have hnot : key ∉ keys := List.idxOf?_eq_none_iff.mp hid
      have hnew : (keys ++ [key]).Nodup := by
        rw [List.nodup_append_comm]
        exact List.nodup_cons.mpr ⟨hnot, hnodup⟩
      dsimp only
      split
      next hlt =>
        have hval : (UInt16.ofNat keys.length).toNat = keys.length := UInt16.toNat_ofNat_of_lt' hlt
        refine .inl ⟨_, _, rfl, ⟨List.prefix_append _ _, hnew, ?_, List.mem_append⟩, ?_, ?_⟩
        · rw [List.length_append]
          exact hlt
        · rw [hval, List.length_append]
          exact Nat.lt_succ_self _
        · rw [hval, List.getD_eq_getElem?_getD, List.getElem?_concat_length, Option.getD_some]
      next hge =>
        refine .inr ⟨⟨_, rfl⟩, ?_⟩
        rw [TooMany, List.toFinset_card_of_nodup hnew, List.length_append]
        exact Nat.lt_succ_of_le (Nat.le_of_not_lt hge)

theorem Interned.refl {keys : List String} (hnodup : keys.Nodup) (hle : keys.length ≤ 2 ^ 16) :
    Interned keys keys [] :=
  ⟨List.prefix_refl _, hnodup, hle, fun {k} => by simp⟩

theorem Interned.trans {keys keys' keys'' names names' : List String}
    (h : Interned keys keys' names) (h' : Interned keys' keys'' names') :
    Interned keys keys'' (names ++ names') :=
  ⟨h.keep.trans h'.keep, h'.nodup, h'.le, fun {k} => by
    rw [h'.mem, h.mem, List.mem_append, or_assoc]⟩

theorem TooMany.mono {names names' : List String} (h : TooMany names)
    (hsub : ∀ key ∈ names, key ∈ names') : TooMany names' :=
  Nat.lt_of_lt_of_le h <| Finset.card_le_card fun key hkey =>
    List.mem_toFinset.mpr (hsub key (List.mem_toFinset.mp hkey))

/-- The ids of a record's properties are names of the feature it was made from. -/
structure Named (keys : List String) (ids : List (UInt16 × MvtValue))
    (properties : List (String × MvtValue)) : Prop where
  lt : ∀ p ∈ ids, p.1.toNat < keys.length
  lookup : ids.map (fun p => (keys.getD p.1.toNat "", p.2)) = properties

theorem Named.mono {keys keys' : List String} {ids : List (UInt16 × MvtValue)}
    {properties : List (String × MvtValue)} (h : Named keys ids properties)
    (hkeep : keys <+: keys') : Named keys' ids properties where
  lt := fun p hp => Nat.lt_of_lt_of_le (h.lt p hp) hkeep.length_le
  lookup := by
    rw [← h.lookup]
    exact List.map_congr_left fun p hp => by rw [Related.getD_of_prefix hkeep (h.lt p hp)]

theorem internProperties_cases (properties : List (String × MvtValue)) {keys : List String}
    (hnodup : keys.Nodup) (hle : keys.length ≤ 2 ^ 16) :
    (∃ ids keys', internProperties keys properties = .ok (ids, keys') ∧
      Interned keys keys' (properties.map Prod.fst) ∧ Named keys' ids properties) ∨
    (∃ e, internProperties keys properties = .error e) ∧
      TooMany (keys ++ properties.map Prod.fst) := by
  induction properties generalizing keys with
  | nil => exact .inl ⟨[], keys, rfl, .refl hnodup hle, fun p hp => absurd hp List.not_mem_nil, rfl⟩
  | cons p properties ih =>
      obtain ⟨key, value⟩ := p
      rcases intern_cases key hnodup hle with
        ⟨id, keys', hid, hint, hlt, hget⟩ | ⟨⟨e, he⟩, hmany⟩
      · rcases ih hint.nodup hint.le with
          ⟨ids, keys'', hids, hint', hnamed⟩ | ⟨⟨e, he⟩, hmany⟩
        · refine .inl ⟨(id, value) :: ids, keys'', ?_, hint.trans hint', fun p hp => ?_, ?_⟩
          · rw [internProperties, hid]
            show (internProperties keys' properties >>= fun out =>
              pure ((id, value) :: out.1, out.2)) = _
            rw [hids]
            rfl
          · rcases List.mem_cons.mp hp with rfl | hp
            · exact Nat.lt_of_lt_of_le hlt hint'.keep.length_le
            · exact hnamed.lt p hp
          · rw [List.map_cons, hnamed.lookup, Related.getD_of_prefix hint'.keep hlt, hget]
        · refine .inr ⟨⟨e, ?_⟩, hmany.mono fun k hk => ?_⟩
          · rw [internProperties, hid]
            show (internProperties keys' properties >>= fun out =>
              pure ((id, value) :: out.1, out.2)) = _
            rw [he]
            rfl
          · have hmem : k ∈ keys' ↔ k ∈ keys ∨ k ∈ [key] := hint.mem
            simp only [List.mem_append, List.map_cons, List.mem_cons, List.not_mem_nil,
              or_false] at hk hmem ⊢
            tauto
      · refine .inr ⟨⟨e, by rw [internProperties, he]; rfl⟩, hmany.mono fun k hk => ?_⟩
        simp only [List.mem_append, List.map_cons, List.mem_cons, List.not_mem_nil,
          or_false] at hk ⊢
        tauto

end RasterH3.Pmtiles
