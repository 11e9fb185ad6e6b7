import RasterH3.Agg.Spill
import RasterH3.Lib.Keyed

/-!
# Spilled runs merge losslessly

A run file is the encoding of a list of records, and everything that happens to files is
first said about those lists: reading the next record takes the head, `merge` is
`mergeSorted`, a carry moves contributions up a level. What the files hold between them is a
multiset of pushed states for each key, and it is the same multiset from the first push to
the last read.

A state that has been through a file comes back as `reread` of itself: equal as a state,
though its tables may be laid out afresh. `LawfulSpill` is what an engine's codec has to
satisfy for all of this, and the two engines are shown to satisfy it where their codecs are.

Three layers lie between two files and the whole. A merge of two runs is a loop over their
heads, in which the head of the lower key goes out, or the two states of one key are merged;
it writes the merged records unless a head cannot be read or two states do not fit together,
and says so for each of its ways (`mergeLoop_outcome`). The levels are a binary counter: a
push carries, and level `i` is occupied when bit `i` of the number of pushes is set
(`carry_holds`). At the end the levels are combined from the lowest up. Each layer is an
induction over the one below, and all that it hands on is which contributions the files
hold.

A limit may be met at any merge, and whether it is depends on how the pushes fell. `Ample`
asks for room for every merge of a part of the contributions, of the states that the code
really builds (`BuiltFrom`), and `roundTrip_lossless` has success under it, and nothing lost
or doubled in any case.
-/

namespace RasterH3.Agg

open AccumulatorMerge SpillAccumulator Keyed

/-! ## Runs as lists of records -/

section Records

variable {A : Type} [SpillAccumulator A]

def encode (records : List (CellIndex × A)) : List UInt8 :=
  records.flatMap fun p => SpillRuns.writeRecord p.1 p.2

theorem encode_cons (p : CellIndex × A) (records : List (CellIndex × A)) :
    encode (p :: records) = SpillRuns.writeRecord p.1 p.2 ++ encode records := rfl

/-- The reader that has `records` still in front of it. -/
def readerOf (limit : Usize) (records : List (CellIndex × A)) : RunReader A :=
  { input := encode records, remaining := records.length, limit }

/-- Every state is within the budget, as the writer has checked. -/
def Within (limit : Usize) (records : List (CellIndex × A)) : Prop :=
  ∀ p ∈ records, memoryBytes p.2 ≤ limit.val

theorem Within.tail {limit : Usize} {l : List (CellIndex × A)} (h : Within limit l) :
    Within limit l.tail :=
  fun p hp => h p (List.mem_of_mem_tail hp)

theorem nextRecord_nil (limit : Usize) :
    (readerOf limit ([] : List (CellIndex × A))).nextRecord =
      .ok (none, readerOf limit []) := rfl

end Records

/-! ## What a codec has to satisfy -/

/-- What the codec of an accumulator promises. `Readable limit a` says that
every table of `a` passes `count`; nothing else can stop a state within the
budget from being read. -/
class LawfulSpill (A : Type) [SpillAccumulator A] where
  /-- Equal as states; the layout of tables is not compared. -/
  Same : A → A → Prop
  reread : A → A
  Readable : Usize → A → Prop
  read_write : ∀ {limit : Usize} {a : A} (rest : List UInt8),
    memoryBytes a ≤ limit.val → Readable limit a →
    readState limit (writeState a ++ rest) = .ok (reread a, rest)
  read_unreadable : ∀ {limit : Usize} {a : A} (rest : List UInt8),
    memoryBytes a ≤ limit.val → ¬ Readable limit a →
    ∃ e : SpillError, e.isLimit ∧
      (readState limit (writeState a ++ rest) : Except SpillError (A × List UInt8)) =
        .error e
  same_reread : ∀ a, Same (reread a) a
  memory_reread : ∀ a, memoryBytes (reread a) ≤ memoryBytes a
  memory_merge_reread : ∀ a b,
    memoryBytes (merge (reread a) (reread b)) ≤ memoryBytes (merge a b)

open LawfulSpill

variable {A : Type} [SpillAccumulator A] [LawfulSpill A]

/-- `a` is the merge of exactly the states in `S`, each used once. Between two
merges a state may go through a file. -/
inductive MergeOf : Multiset A → A → Prop where
  | single (a : A) : MergeOf {a} a
  | merge {S T : Multiset A} {a b : A} (ha : MergeOf S a) (hb : MergeOf T b) :
      MergeOf (S + T) (AccumulatorMerge.merge a b)
  | same {S : Multiset A} {a b : A} (ha : MergeOf S a) (h : Same b a) : MergeOf S b

/-- A reading "the state `a` represents the contributions `S`" that merging
keeps, and that a trip through a file keeps. -/
structure Merging {X : Type} (R : Multiset X → A → Prop) : Prop where
  merge : ∀ {S T a b}, R S a → R T b → R (S + T) (AccumulatorMerge.merge a b)
  same : ∀ {S a b}, R S a → Same b a → R S b

theorem Merging.reread {X : Type} {R : Multiset X → A → Prop} (hR : Merging R)
    {S : Multiset X} {a : A} (h : R S a) : R S (reread a) :=
  hR.same h (same_reread a)

theorem MergeOf.merging : Merging (MergeOf (A := A)) where
  merge := .merge
  same := .same

/-- A state that the code comes to from exactly the states in `S`: merged in some order, and read
back from a file any number of times. `MergeOf` forgets how the tables are laid out; how much room
a state takes depends on it. -/
inductive BuiltFrom : Multiset A → A → Prop where
  | pushed (a : A) : BuiltFrom {a} a
  | merge {S T : Multiset A} {a b : A} (ha : BuiltFrom S a) (hb : BuiltFrom T b) :
      BuiltFrom (S + T) (AccumulatorMerge.merge a b)
  | reread {S : Multiset A} {a : A} (ha : BuiltFrom S a) : BuiltFrom S (LawfulSpill.reread a)

theorem BuiltFrom.mergeOf {S : Multiset A} {a : A} (h : BuiltFrom S a) : MergeOf S a := by
  induction h with
  | pushed a => exact .single a
  | merge _ _ iha ihb => exact .merge iha ihb
  | reread _ ih => exact .same ih (same_reread _)

/-- What merging and reading back keep, holds of everything that is built. -/
theorem BuiltFrom.keeps {P : A → Prop} (hmerge : ∀ a b, P a → P b → P (AccumulatorMerge.merge a b))
    (hreread : ∀ a, P a → P (LawfulSpill.reread a)) {S : Multiset A} {a : A} (h : BuiltFrom S a)
    (hS : ∀ x ∈ S, P x) : P a := by
  induction h with
  | pushed a => exact hS a (Multiset.mem_singleton_self a)
  | merge _ _ iha ihb =>
      exact hmerge _ _ (iha fun x hx => hS x (Multiset.mem_add.mpr (.inl hx)))
        (ihb fun x hx => hS x (Multiset.mem_add.mpr (.inr hx)))
  | reread _ ih => exact hreread _ (ih hS)

/-- A reading of states that the steps of the code keep. -/
structure Kept {X : Type} (R : Multiset X → A → Prop) : Prop where
  merge : ∀ {S T a b}, R S a → R T b → R (S + T) (AccumulatorMerge.merge a b)
  reread : ∀ {S a}, R S a → R S (LawfulSpill.reread a)

theorem Merging.kept {X : Type} {R : Multiset X → A → Prop} (hR : Merging R) : Kept R where
  merge := hR.merge
  reread := hR.reread

theorem BuiltFrom.kept : Kept (BuiltFrom (A := A)) where
  merge := .merge
  reread := .reread

theorem MergeOf.ne_zero {S : Multiset A} {a : A} (h : MergeOf S a) : S ≠ 0 := by
  induction h with
  | single a => exact Multiset.singleton_ne_zero a
  | merge _ _ iha _ => exact fun h => iha (add_eq_zero.mp h).1
  | same _ _ ih => exact ih

/-! ## Reading a run -/

/-- A record as it comes back. -/
def back (p : CellIndex × A) : CellIndex × A := (p.1, reread p.2)

def AllReadable (limit : Usize) (records : List (CellIndex × A)) : Prop :=
  ∀ p ∈ records, Readable limit p.2

theorem nextRecord_cons {limit : Usize} {p : CellIndex × A}
    {records : List (CellIndex × A)} (hmem : memoryBytes p.2 ≤ limit.val)
    (hread : Readable limit p.2) :
    (readerOf limit (p :: records)).nextRecord =
      .ok (some (back p), readerOf limit records) := by
  simp only [RunReader.nextRecord, readerOf, List.length_cons, readExact, encode_cons,
    SpillRuns.writeRecord, List.append_assoc, Bytes.readFin64_writeFin64, bind, Except.bind]
  rw [read_write _ hmem hread]
  rfl

theorem nextRecord_unreadable {limit : Usize} {p : CellIndex × A}
    (records : List (CellIndex × A)) (hmem : memoryBytes p.2 ≤ limit.val)
    (hread : ¬ Readable limit p.2) :
    ∃ e : SpillError, e.isLimit ∧
      (readerOf limit (p :: records)).nextRecord = .error e := by
  obtain ⟨e, he, hfail⟩ := read_unreadable (encode records) hmem hread
  refine ⟨e, he, ?_⟩
  simp only [RunReader.nextRecord, readerOf, List.length_cons, readExact, encode_cons,
    SpillRuns.writeRecord, List.append_assoc, Bytes.readFin64_writeFin64, bind, Except.bind]
  rw [hfail]

/-- Reading on: the head of what is left, or the error of a head that does not
fit its count. -/
theorem nextRecord_cases {limit : Usize} {records : List (CellIndex × A)}
    (hmem : Within limit records) :
    ((readerOf limit records).nextRecord =
        .ok (records.head?.map back, readerOf limit records.tail) ∧
      ∀ p ∈ records.head?, Readable limit p.2) ∨
    ∃ e : SpillError, e.isLimit ∧ (readerOf limit records).nextRecord = .error e ∧
      ∃ p ∈ records.head?, ¬ Readable limit p.2 := by
  cases records with
  | nil => exact .inl ⟨nextRecord_nil limit, by simp⟩
  | cons p records =>
      by_cases hread : Readable limit p.2
      · refine .inl ⟨nextRecord_cons (hmem p List.mem_cons_self) hread, ?_⟩
        simpa using hread
      · obtain ⟨e, he, hfail⟩ := nextRecord_unreadable records (hmem p List.mem_cons_self) hread
        exact .inr ⟨e, he, hfail, p, rfl, hread⟩

theorem readAll_ok {limit : Usize} :
    ∀ {records : List (CellIndex × A)} (fuel : Nat), records.length < fuel →
      Within limit records → AllReadable limit records →
      (readerOf limit records).readAll fuel = .ok (records.map back) := by
  intro records
  induction records with
  | nil =>
      intro fuel hfuel _ _
      obtain ⟨fuel, rfl⟩ := Nat.exists_eq_succ_of_ne_zero (Nat.ne_of_gt hfuel)
      simp [RunReader.readAll, nextRecord_nil, bind, Except.bind, pure, Except.pure]
  | cons p records ih =>
      intro fuel hfuel hmem hread
      obtain ⟨fuel, rfl⟩ := Nat.exists_eq_succ_of_ne_zero (Nat.ne_of_gt (Nat.zero_lt_of_lt hfuel))
      have hrest := ih fuel (by simpa using hfuel)
        (fun q hq => hmem q (List.mem_cons_of_mem _ hq))
        (fun q hq => hread q (List.mem_cons_of_mem _ hq))
      rw [RunReader.readAll,
        nextRecord_cons (hmem p List.mem_cons_self) (hread p List.mem_cons_self)]
      simp only [bind, Except.bind, hrest]
      rfl

theorem readAll_error {limit : Usize} :
    ∀ {records : List (CellIndex × A)} (fuel : Nat), records.length < fuel →
      Within limit records → ¬ AllReadable limit records →
      ∃ e : SpillError, e.isLimit ∧ (readerOf limit records).readAll fuel = .error e := by
  intro records
  induction records with
  | nil => exact fun _ _ _ hread => absurd (fun _ h => nomatch h) hread
  | cons p records ih =>
      intro fuel hfuel hmem hread
      obtain ⟨fuel, rfl⟩ := Nat.exists_eq_succ_of_ne_zero (Nat.ne_of_gt (Nat.zero_lt_of_lt hfuel))
      rw [RunReader.readAll]
      by_cases hp : Readable limit p.2
      · have hrest : ¬ AllReadable limit records := fun hall => hread fun q hq => by
          rcases List.mem_cons.mp hq with rfl | hq
          · exact hp
          · exact hall q hq
        obtain ⟨e, he, hfail⟩ := ih fuel (by simpa using hfuel)
          (fun q hq => hmem q (List.mem_cons_of_mem _ hq)) hrest
        refine ⟨e, he, ?_⟩
        rw [nextRecord_cons (hmem p List.mem_cons_self) hp]
        simp only [bind, Except.bind, hfail]
      · obtain ⟨e, he, hfail⟩ := nextRecord_unreadable records
          (hmem p List.mem_cons_self) hp
        refine ⟨e, he, ?_⟩
        rw [hfail]
        rfl

/-! ## Merging two runs -/

/-- Nothing stops the merge of `l` and `r` once their heads are read: the
rest is readable, and what the same key has on both sides fits together. -/
structure MergeFits (limit : Usize) (l r : List (CellIndex × A)) : Prop where
  left : AllReadable limit l.tail
  right : AllReadable limit r.tail
  common : ∀ k a b, (k, a) ∈ l → (k, b) ∈ r →
    memoryBytes (merge (reread a) (reread b)) ≤ limit.val

def mergeRecords (l r : List (CellIndex × A)) : List (CellIndex × A) :=
  mergeSorted merge (l.map back) (r.map back)

theorem allReadable_cons {limit : Usize} {l : List (CellIndex × A)} :
    AllReadable limit l ↔
      (∀ p ∈ l.head?, Readable limit p.2) ∧ AllReadable limit l.tail := by
  cases l with
  | nil => simp [AllReadable]
  | cons p l => simp [AllReadable]

/-- Either the records `out` were written and nothing was in the way, or
something was and a limit is the answer. -/
def Outcome (res : Except SpillError (List UInt8 × Nat)) (out : List (CellIndex × A))
    (fits : Prop) : Prop :=
  (res = .ok (encode out, out.length) ∧ fits) ∨
    ∃ e : SpillError, e.isLimit ∧ res = .error e ∧ ¬ fits

omit [LawfulSpill A] in
theorem Outcome.of_iff {res : Except SpillError (List UInt8 × Nat)}
    {out : List (CellIndex × A)} {fits fits' : Prop} (h : Outcome res out fits)
    (hiff : fits ↔ fits') : Outcome res out fits' := by
  rwa [← propext hiff]

omit [LawfulSpill A] in
/-- A record is written in front of what the rest of the loop writes. -/
theorem Outcome.write {res : Except SpillError (List UInt8 × Nat)}
    {out : List (CellIndex × A)} {fits : Prop} (p : CellIndex × A)
    (h : Outcome res out fits) :
    Outcome (res >>= fun x => return (SpillRuns.writeRecord p.1 p.2 ++ x.1, x.2 + 1))
      (p :: out) fits := by
  rcases h with ⟨rfl, hf⟩ | ⟨e, he, rfl, hf⟩
  · exact .inl ⟨rfl, hf⟩
  · exact .inr ⟨e, he, rfl, hf⟩

/-- The next head is read first, and has to be readable. -/
theorem Outcome.next {limit : Usize} {records out : List (CellIndex × A)} {fits : Prop}
    {k : Option (CellIndex × A) × RunReader A → Except SpillError (List UInt8 × Nat)}
    (hmem : Within limit records)
    (h : Outcome (k (records.head?.map back, readerOf limit records.tail)) out fits) :
    Outcome ((readerOf limit records).nextRecord >>= k) out
      ((∀ p ∈ records.head?, Readable limit p.2) ∧ fits) := by
  rcases nextRecord_cases hmem with ⟨hok, hhead⟩ | ⟨e, he, hfail, hhead⟩
  · rw [hok]
    exact h.of_iff ⟨fun hf => ⟨hhead, hf⟩, fun hf => hf.2⟩
  · rw [hfail]
    refine .inr ⟨e, he, rfl, fun hf => ?_⟩
    obtain ⟨p, hp, hno⟩ := hhead
    exact hno (hf.1 p hp)

omit [LawfulSpill A] in
theorem Outcome.guard {limit : Usize} {res : Except SpillError (List UInt8 × Nat)}
    {out : List (CellIndex × A)} {fits : Prop} (bytes : Nat) (h : Outcome res out fits) :
    Outcome (if limit.val < bytes then throw .mergedExceeds else res) out
      (bytes ≤ limit.val ∧ fits) := by
  split
  · next hover => exact .inr ⟨.mergedExceeds, trivial, rfl, fun hf => by omega⟩
  · next hfit => exact h.of_iff ⟨fun hf => ⟨by omega, hf⟩, fun hf => hf.2⟩

theorem mergeFits_nil_left {limit : Usize} {q : CellIndex × A} {r : List (CellIndex × A)} :
    (∀ p ∈ r.head?, Readable limit p.2) ∧ MergeFits limit [] r ↔
      MergeFits limit [] (q :: r) := by
  constructor
  · rintro ⟨hhead, h⟩
    exact ⟨h.left, allReadable_cons.mpr ⟨hhead, h.right⟩, by simp⟩
  · intro h
    have hr := allReadable_cons.mp h.right
    exact ⟨hr.1, h.left, hr.2, by simp⟩

theorem mergeFits_nil_right {limit : Usize} {p : CellIndex × A} {l : List (CellIndex × A)} :
    (∀ p ∈ l.head?, Readable limit p.2) ∧ MergeFits limit l [] ↔
      MergeFits limit (p :: l) [] := by
  constructor
  · rintro ⟨hhead, h⟩
    exact ⟨allReadable_cons.mpr ⟨hhead, h.left⟩, h.right, by simp⟩
  · intro h
    have hl := allReadable_cons.mp h.left
    exact ⟨hl.1, hl.2, h.right, by simp⟩

/-- A head whose key the other side lacks decides nothing. -/
theorem mergeFits_left {limit : Usize} {p : CellIndex × A} {l r : List (CellIndex × A)}
    (hout : p.1 ∉ keys r) :
    (∀ p ∈ l.head?, Readable limit p.2) ∧ MergeFits limit l r ↔
      MergeFits limit (p :: l) r := by
  constructor
  · rintro ⟨hhead, h⟩
    refine ⟨allReadable_cons.mpr ⟨hhead, h.left⟩, h.right, fun k a b ha hb => ?_⟩
    rcases List.mem_cons.mp ha with rfl | ha
    · exact absurd (mem_keys_of_mem hb) hout
    · exact h.common k a b ha hb
  · intro h
    have hl := allReadable_cons.mp h.left
    exact ⟨hl.1, hl.2, h.right, fun k a b ha hb =>
      h.common k a b (List.mem_cons_of_mem _ ha) hb⟩

theorem mergeFits_right {limit : Usize} {q : CellIndex × A} {l r : List (CellIndex × A)}
    (hout : q.1 ∉ keys l) :
    (∀ p ∈ r.head?, Readable limit p.2) ∧ MergeFits limit l r ↔
      MergeFits limit l (q :: r) := by
  constructor
  · rintro ⟨hhead, h⟩
    refine ⟨h.left, allReadable_cons.mpr ⟨hhead, h.right⟩, fun k a b ha hb => ?_⟩
    rcases List.mem_cons.mp hb with rfl | hb
    · exact absurd (mem_keys_of_mem ha) hout
    · exact h.common k a b ha hb
  · intro h
    have hr := allReadable_cons.mp h.right
    exact ⟨hr.1, h.left, hr.2, fun k a b ha hb =>
      h.common k a b ha (List.mem_cons_of_mem _ hb)⟩

theorem mergeFits_both {limit : Usize} {k : CellIndex} {a b : A}
    {l r : List (CellIndex × A)} (hl : k ∉ keys l) (hr : k ∉ keys r) :
    memoryBytes (merge (reread a) (reread b)) ≤ limit.val ∧
      (∀ p ∈ l.head?, Readable limit p.2) ∧ (∀ p ∈ r.head?, Readable limit p.2) ∧
      MergeFits limit l r ↔ MergeFits limit ((k, a) :: l) ((k, b) :: r) := by
  constructor
  · rintro ⟨hab, hheadl, hheadr, h⟩
    refine ⟨allReadable_cons.mpr ⟨hheadl, h.left⟩, allReadable_cons.mpr ⟨hheadr, h.right⟩,
      fun k' a' b' ha hb => ?_⟩
    rcases List.mem_cons.mp ha with heq | ha <;> rcases List.mem_cons.mp hb with heq' | hb
    · cases heq
      cases heq'
      exact hab
    · cases heq
      exact absurd (mem_keys_of_mem hb) hr
    · cases heq'
      exact absurd (mem_keys_of_mem ha) hl
    · exact h.common k' a' b' ha hb
  · intro h
    have hleft := allReadable_cons.mp h.left
    have hright := allReadable_cons.mp h.right
    exact ⟨h.common k a b List.mem_cons_self List.mem_cons_self, hleft.1, hright.1,
      hleft.2, hright.2, fun k' a' b' ha hb =>
        h.common k' a' b' (List.mem_cons_of_mem _ ha) (List.mem_cons_of_mem _ hb)⟩

theorem mergeLoop_outcome {limit : Usize} :
    ∀ (fuel : Nat) (l r : List (CellIndex × A)), l.length + r.length ≤ fuel →
      Sorted l → Sorted r → Within limit l → Within limit r →
      Outcome (SpillRuns.mergeLoop limit fuel (l.head?.map back) (r.head?.map back)
        (readerOf limit l.tail) (readerOf limit r.tail))
        (mergeRecords l r) (MergeFits limit l r) := by
  intro fuel
  induction fuel with
  | zero =>
      intro l r hfuel _ _ _ _
      obtain rfl := List.length_eq_zero_iff.mp (by omega : l.length = 0)
      obtain rfl := List.length_eq_zero_iff.mp (by omega : r.length = 0)
      refine .inl ⟨by simp [SpillRuns.mergeLoop, mergeRecords, encode], ?_⟩
      constructor <;> simp [AllReadable]
  | succ fuel ih =>
      intro l r hfuel hl hr hml hmr
      rcases l with _ | ⟨⟨k, a⟩, l⟩ <;> rcases r with _ | ⟨⟨k', b⟩, r⟩
      · refine .inl ⟨by simp [SpillRuns.mergeLoop, mergeRecords, encode], ?_⟩
        constructor <;> simp [AllReadable]
      · have hout : mergeRecords ([] : List (CellIndex × A)) ((k', b) :: r) =
            back (k', b) :: mergeRecords [] r := by simp [mergeRecords, mergeSorted]
        have hmr' : Within limit r := hmr.tail
        have hrest := ih [] r (by simpa using hfuel) hl hr.of_cons hml hmr'
        rw [hout]
        refine Outcome.of_iff ?_ mergeFits_nil_left
        refine Outcome.next hmr' ?_
        exact hrest.write (back (k', b))
      · have hout : mergeRecords ((k, a) :: l) ([] : List (CellIndex × A)) =
            back (k, a) :: mergeRecords l [] := by simp [mergeRecords]
        have hml' : Within limit l := hml.tail
        have hrest := ih l [] (by simpa using hfuel) hl.of_cons hr hml' hmr
        rw [hout]
        refine Outcome.of_iff ?_ mergeFits_nil_right
        refine Outcome.next hml' ?_
        exact hrest.write (back (k, a))
      · simp only [List.length_cons] at hfuel
        have hml' : Within limit l := hml.tail
        have hmr' : Within limit r := hmr.tail
        simp only [List.head?_cons, Option.map_some, List.tail_cons, back, SpillRuns.mergeLoop]
        split
        · next hlt =>
            have hout : mergeRecords ((k, a) :: l) ((k', b) :: r) =
                back (k, a) :: mergeRecords l ((k', b) :: r) := by
              simp [mergeRecords, back, mergeSorted, hlt]
            have hno : k ∉ keys ((k', b) :: r) := fun hmem => by
              rcases List.mem_cons.mp hmem with rfl | hmem
              · exact lt_irrefl _ hlt
              · exact lt_asymm hlt (hr.lt_of_mem hmem)
            have hrest := ih l ((k', b) :: r) (by simp only [List.length_cons]; omega)
              hl.of_cons hr hml' hmr
            rw [hout]
            refine Outcome.of_iff ?_ (mergeFits_left (p := (k, a)) hno)
            refine Outcome.next hml' ?_
            exact hrest.write (back (k, a))
        · next hge =>
            split
            · next hlt =>
                have hout : mergeRecords ((k, a) :: l) ((k', b) :: r) =
                    back (k', b) :: mergeRecords ((k, a) :: l) r := by
                  simp [mergeRecords, back, mergeSorted, hge, hlt]
                have hno : k' ∉ keys ((k, a) :: l) := fun hmem => by
                  rcases List.mem_cons.mp hmem with rfl | hmem
                  · exact lt_irrefl _ hlt
                  · exact lt_asymm hlt (hl.lt_of_mem hmem)
                have hrest := ih ((k, a) :: l) r (by simp only [List.length_cons]; omega)
                  hl hr.of_cons hml hmr'
                rw [hout]
                refine Outcome.of_iff ?_ (mergeFits_right (q := (k', b)) hno)
                refine Outcome.next hmr' ?_
                exact hrest.write (back (k', b))
            · next hle =>
                obtain rfl : k = k' := le_antisymm (not_lt.mp hle) (not_lt.mp hge)
                have hout : mergeRecords ((k, a) :: l) ((k, b) :: r) =
                    (k, merge (reread a) (reread b)) :: mergeRecords l r := by
                  simp [mergeRecords, back, mergeSorted]
                have hnol : k ∉ keys l := fun hmem => lt_irrefl _ (hl.lt_of_mem hmem)
                have hnor : k ∉ keys r := fun hmem => lt_irrefl _ (hr.lt_of_mem hmem)
                have hrest := ih l r (by omega) hl.of_cons hr.of_cons hml' hmr'
                rw [hout]
                refine Outcome.of_iff ?_ (mergeFits_both hnol hnor)
                refine Outcome.guard (memoryBytes (merge (reread a) (reread b))) ?_
                refine Outcome.next hml' ?_
                refine Outcome.next hmr' ?_
                exact hrest.write (k, merge (reread a) (reread b))

/-! ## Runs and what they hold -/

/-- A run file written by the code: sorted records within the budget. -/
structure Stored (limit : Usize) (run : Run) (records : List (CellIndex × A)) : Prop where
  file_eq : run.file = encode records
  len_eq : run.len = records.length
  sorted : Sorted records
  within : Within limit records

omit [LawfulSpill A] in
theorem Stored.reader {limit : Usize} {run : Run} {records : List (CellIndex × A)}
    (h : Stored limit run records) : RunReader.new A run limit = readerOf limit records := by
  rw [RunReader.new, readerOf, h.file_eq, h.len_eq]

theorem mergeRecords_within {limit : Usize} {l r : List (CellIndex × A)}
    (hl : Sorted l) (hr : Sorted r) (hml : Within limit l) (hmr : Within limit r)
    (hcommon : ∀ k a b, (k, a) ∈ l → (k, b) ∈ r →
      memoryBytes (merge (reread a) (reread b)) ≤ limit.val) :
    Within limit (mergeRecords l r) := by
  have hback : ∀ {records : List (CellIndex × A)}, Within limit records →
      ∀ k c, (k, c) ∈ records.map back → memoryBytes c ≤ limit.val := by
    intro records hm k c hc
    obtain ⟨p, hp, heq⟩ := List.mem_map.mp hc
    cases heq
    exact Nat.le_trans (memory_reread p.2) (hm p hp)
  rintro ⟨k, c⟩ hmem
  rcases mem_mergeSorted (hl.map reread) (hr.map reread) hmem with
    ⟨hc, _⟩ | ⟨hc, _⟩ | ⟨a, b, ha, hb, rfl⟩
  · exact hback hml k c hc
  · exact hback hmr k c hc
  · obtain ⟨⟨k₁, a₁⟩, hp, heq⟩ := List.mem_map.mp ha
    obtain ⟨⟨k₂, b₁⟩, hq, heq'⟩ := List.mem_map.mp hb
    cases heq
    cases heq'
    exact hcommon _ _ _ hp hq

/-- `merge` writes the merged records, unless one of the two runs cannot be
read or two states do not fit together. -/
theorem mergeRuns_outcome {limit : Usize} {left right : Run} {l r : List (CellIndex × A)}
    (hl : Stored limit left l) (hr : Stored limit right r) :
    (∃ run, SpillRuns.mergeRuns A limit left right = .ok run ∧
      Stored limit run (mergeRecords l r) ∧
      AllReadable limit l ∧ AllReadable limit r) ∨
    ∃ e : SpillError, e.isLimit ∧ SpillRuns.mergeRuns A limit left right = .error e ∧
      ¬ (AllReadable limit l ∧ AllReadable limit r ∧
        ∀ k a b, (k, a) ∈ l → (k, b) ∈ r →
          memoryBytes (merge (reread a) (reread b)) ≤ limit.val) := by
  have hloop := mergeLoop_outcome (left.len + right.len) l r
    (by rw [hl.len_eq, hr.len_eq]) hl.sorted hr.sorted hl.within hr.within
  have hall := Outcome.next hl.within (k := fun x =>
    (readerOf limit r).nextRecord >>= fun y =>
      SpillRuns.mergeLoop limit (left.len + right.len) x.1 y.1 x.2 y.2)
    (Outcome.next hr.within hloop)
  have hrun : SpillRuns.mergeRuns A limit left right =
      ((readerOf limit l).nextRecord >>= fun x =>
        (readerOf limit r).nextRecord >>= fun y =>
          SpillRuns.mergeLoop limit (left.len + right.len) x.1 y.1 x.2 y.2) >>= fun out =>
      pure { file := out.1, len := out.2 } := by
    rw [SpillRuns.mergeRuns, hl.reader, hr.reader]
    simp only [bind_assoc]
  rw [hrun]
  rcases hall with ⟨hok, hheadl, hheadr, hfits⟩ | ⟨e, he, hfail, hno⟩
  · rw [hok]
    exact .inl ⟨_, rfl,
      ⟨rfl, rfl, (hl.sorted.map reread).mergeSorted (hr.sorted.map reread),
        mergeRecords_within hl.sorted hr.sorted hl.within hr.within hfits.common⟩,
      allReadable_cons.mpr ⟨hheadl, hfits.left⟩, allReadable_cons.mpr ⟨hheadr, hfits.right⟩⟩
  · rw [hfail]
    refine .inr ⟨e, he, rfl, fun hboth => hno ?_⟩
    obtain ⟨hrl, hrr, hcommon⟩ := hboth
    have hrl' := allReadable_cons.mp hrl
    have hrr' := allReadable_cons.mp hrr
    exact ⟨hrl'.1, hrr'.1, hrl'.2, hrr'.2, hcommon⟩

/-- What is contributed to each key. -/
abbrev Contents (X : Type) := CellIndex → Multiset X

variable {X : Type}

/-- No merge of part of the contributions can run into the budget. -/
def Ample (R : Multiset X → A → Prop) (limit : Usize) (m : Contents X) : Prop :=
  ∀ k S a, S ≤ m k → R S a → memoryBytes a ≤ limit.val ∧ Readable limit a

variable {R : Multiset X → A → Prop}

theorem Ample.mono {limit : Usize} {m m' : Contents X} (h : Ample R limit m')
    (hle : ∀ k, m k ≤ m' k) : Ample R limit m :=
  fun k S a hS ha => h k S a (le_trans hS (hle k)) ha

theorem Ample.left {limit : Usize} {m m' : Contents X} (h : Ample R limit (m + m')) :
    Ample R limit m :=
  h.mono fun _ => Multiset.le_add_right _ _

theorem Ample.right {limit : Usize} {m m' : Contents X} (h : Ample R limit (m + m')) :
    Ample R limit m' :=
  h.mono fun _ => Multiset.le_add_left _ _

theorem Ample.readable {limit : Usize} {m : Contents X} (h : Ample R limit m)
    {records : List (CellIndex × A)} (hrec : Keyed.Holds R records m) :
    AllReadable limit records :=
  fun p hp => (h p.1 _ p.2 le_rfl (hrec.present p.1 p.2 hp)).2

/-- What is kept by the steps and leaves room, leaves room for every merge. -/
theorem ample_of_keeps {P : CellIndex → A → Prop} {limit : Usize} {m : Contents A}
    (hmerge : ∀ k a b, P k a → P k b → P k (AccumulatorMerge.merge a b))
    (hreread : ∀ k a, P k a → P k (LawfulSpill.reread a))
    (hfits : ∀ k a, P k a → memoryBytes a ≤ limit.val ∧ Readable limit a)
    (hm : ∀ k, ∀ a ∈ m k, P k a) : Ample BuiltFrom limit m :=
  fun k _ a hS ha => hfits k a
    (ha.keeps (hmerge k) (hreread k) fun x hx => hm k x (Multiset.mem_of_le hS hx))

structure RunHolds (R : Multiset X → A → Prop) (limit : Usize) (run : Run) (m : Contents X) :
    Prop where
  stored : ∃ records, Stored limit run records ∧ Keyed.Holds R records m

theorem mergeRuns_holds (hR : Kept R) {limit : Usize} {left right : Run} {m m' : Contents X}
    (hl : RunHolds R limit left m) (hr : RunHolds R limit right m') :
    (∃ run, SpillRuns.mergeRuns A limit left right = .ok run ∧
      RunHolds R limit run (m + m')) ∨
    ∃ e : SpillError, e.isLimit ∧ SpillRuns.mergeRuns A limit left right = .error e ∧
      ¬ Ample R limit (m + m') := by
  obtain ⟨l, hsl, hhl⟩ := hl.stored
  obtain ⟨r, hsr, hhr⟩ := hr.stored
  rcases mergeRuns_outcome hsl hsr with ⟨run, hok, hst, -⟩ | ⟨e, he, hfail, hno⟩
  · refine .inl ⟨run, hok, ⟨_, hst, ?_⟩⟩
    exact Holds.mergeSorted (fun _ _ _ _ => hR.merge) (hsl.sorted.map reread)
      (hsr.sorted.map reread) (hhl.map reread fun _ _ => hR.reread)
      (hhr.map reread fun _ _ => hR.reread)
  · refine .inr ⟨e, he, hfail, fun hample => hno ?_⟩
    refine ⟨hample.left.readable hhl, hample.right.readable hhr, fun k a b ha hb => ?_⟩
    exact (hample k _ _ le_rfl
      (hR.merge (hR.reread (hhl.present k a ha)) (hR.reread (hhr.present k b hb)))).1

/-! ## The binary counter

Level `i` is occupied when bit `i` of the counter is set, and the levels
together hold what has been pushed. A carry changes the first and keeps the
second. -/

inductive LevelsHold (R : Multiset X → A → Prop) (limit : Usize) :
    List (Option Run) → Contents X → Prop where
  | nil : LevelsHold R limit [] 0
  | empty {levels : List (Option Run)} {m : Contents X} (h : LevelsHold R limit levels m) :
      LevelsHold R limit (none :: levels) m
  | full {run : Run} {levels : List (Option Run)} {m m' : Contents X}
      (hrun : RunHolds R limit run m) (h : LevelsHold R limit levels m') :
      LevelsHold R limit (some run :: levels) (m + m')

def counter : List (Option Run) → Nat
  | [] => 0
  | none :: levels => 2 * counter levels
  | some _ :: levels => 2 * counter levels + 1

theorem carry_holds (hR : Kept R) {limit : Usize} :
    ∀ (levels : List (Option Run)) (level : Nat) (run : Run) (m m' : Contents X),
      level ≤ 64 → RunHolds R limit run m → LevelsHold R limit levels m' →
      (∃ levels', SpillRuns.carry A limit run level levels = .ok levels' ∧
        LevelsHold R limit levels' (m + m') ∧ counter levels' = counter levels + 1) ∨
      ∃ e : SpillError, e.isLimit ∧
        SpillRuns.carry A limit run level levels = .error e ∧
        ¬ (Ample R limit (m + m') ∧ counter levels + 1 < 2 ^ (64 - level)) := by
  intro levels
  induction levels with
  | nil =>
      intro level run m m' hlevel hrun hlevels
      rw [SpillRuns.carry]
      split
      · next hend => exact .inr ⟨.counterExhausted, trivial, rfl, by simp [hend]⟩
      · cases hlevels
        exact .inl ⟨_, rfl, .full hrun .nil, rfl⟩
  | cons slot levels ih =>
      intro level run m m' hlevel hrun hlevels
      rw [SpillRuns.carry.eq_def]
      simp only []
      split
      · next hend => exact .inr ⟨.counterExhausted, trivial, rfl, by simp [hend]⟩
      · next hend =>
          cases hlevels with
          | empty h => exact .inl ⟨_, rfl, .full hrun h, rfl⟩
          | @full other _ m₁ m₂ hother h =>
              have hsum : m + (m₁ + m₂) = (m₁ + m) + m₂ := by abel
              rw [hsum]
              rcases mergeRuns_holds hR hother hrun with
                ⟨merged, hok, hmerged⟩ | ⟨e, he, hfail, hno⟩
              · rcases ih (level + 1) merged _ m₂ (by omega) hmerged h with
                  ⟨levels', hcarry, hholds, hcount⟩ | ⟨e, he, hcarry, hno⟩
                · refine .inl ⟨none :: levels', ?_, .empty hholds, ?_⟩
                  · simp only [hok, hcarry, bind, Except.bind]
                    rfl
                  · simp only [counter, hcount]
                    omega
                · refine .inr ⟨e, he, ?_, fun ⟨hample, hcount⟩ => hno ⟨hample, ?_⟩⟩
                  · simp only [hok, hcarry, bind, Except.bind]
                  · have hpow : 2 ^ (64 - level) = 2 * 2 ^ (64 - (level + 1)) := by
                      rw [← pow_succ']
                      congr 1
                      omega
                    rw [hpow] at hcount
                    simp only [counter] at hcount
                    omega
              · refine .inr ⟨e, he, ?_, fun ⟨hample, _⟩ => hno hample.left⟩
                simp only [hfail, bind, Except.bind]

/-! ## Pushing, finishing, reading back -/

omit [LawfulSpill A] in
theorem writeSorted_cases (limit : Usize) :
    ∀ (records : List (CellIndex × A)) (previous : Option CellIndex), Sorted records →
      (∀ p ∈ previous, ∀ k ∈ keys records, p < k) →
      (SpillRuns.writeSorted limit previous records =
          .ok (encode records, records.length) ∧ Within limit records) ∨
      (SpillRuns.writeSorted limit previous records = .error .singleExceeds ∧
        ¬ Within limit records) := by
  intro records
  induction records with
  | nil => exact fun previous _ _ => .inl ⟨rfl, fun _ h => nomatch h⟩
  | cons p records ih =>
      intro previous hsorted hprev
      have hgo : (previous.any fun q => decide (p.1 ≤ q)) = false := by
        cases previous with
        | none => rfl
        | some q => simpa using hprev q rfl p.1 List.mem_cons_self
      rw [SpillRuns.writeSorted, hgo]
      by_cases hover : limit.val < memoryBytes p.2
      · refine .inr ⟨by rw [if_neg (by decide), if_pos hover]; rfl, fun h => ?_⟩
        have := h p List.mem_cons_self
        omega
      · have hnext : ∀ q ∈ some p.1, ∀ k ∈ keys records, q < k := by
          rintro q ⟨⟩ k hk
          exact hsorted.lt_of_mem hk
        rw [if_neg (by decide), if_neg hover]
        rcases ih (some p.1) hsorted.of_cons hnext with ⟨hok, hwithin⟩ | ⟨hfail, hno⟩
        · rw [hok]
          refine .inl ⟨rfl, fun q hq => ?_⟩
          rcases List.mem_cons.mp hq with rfl | hq
          · omega
          · exact hwithin q hq
        · rw [hfail]
          exact .inr ⟨rfl, fun h => hno fun q hq => h q (List.mem_cons_of_mem _ hq)⟩

/-- The runs hold `m`, and the levels count how they came about. -/
structure RunsHold (R : Multiset X → A → Prop) (s : SpillRuns) (m : Contents X) : Prop where
  levels : LevelsHold R s.limit s.levels m
  counted : counter s.levels ≤ s.runsWritten
  spilled : s.runsWritten = 0 → m = 0

omit [LawfulSpill A] in
theorem runsHold_new (limit : Usize) : RunsHold R (SpillRuns.new limit) (0 : Contents X) where
  levels := .nil
  counted := Nat.le_refl _
  spilled := fun _ => rfl

theorem pushSorted_holds (hR : Kept R) {s : SpillRuns} {m m' : Contents X}
    {records : List (CellIndex × A)} (h : RunsHold R s m) (hsorted : Sorted records)
    (hrec : Keyed.Holds R records m') :
    (∃ s', s.pushSorted records = .ok s' ∧ RunsHold R s' (m + m') ∧ s'.limit = s.limit ∧
      s'.runsWritten = s.runsWritten + if records = [] then 0 else 1) ∨
    ∃ e : SpillError, e.isLimit ∧ s.pushSorted records = .error e ∧
      ¬ (Ample R s.limit (m + m') ∧ s.runsWritten + 1 < 2 ^ 64) := by
  rw [SpillRuns.pushSorted]
  rcases writeSorted_cases s.limit records none hsorted (by simp) with
    ⟨hok, hwithin⟩ | ⟨hfail, hno⟩
  · simp only [hok, bind, Except.bind]
    cases records with
    | nil =>
        refine .inl ⟨s, rfl, ?_, rfl, rfl⟩
        obtain rfl : m' = 0 := funext fun k => hrec.absent k (by simp)
        rw [add_zero]
        exact h
    | cons p records =>
        rw [if_neg (by simp), add_comm m]
        have hrun : RunHolds R s.limit
            { file := encode (p :: records), len := (p :: records).length } m' :=
          ⟨⟨_, ⟨rfl, rfl, hsorted, hwithin⟩, hrec⟩⟩
        rcases carry_holds hR s.levels 0 _ _ m (by decide) hrun h.levels with
          ⟨levels, hcarry, hholds, hcount⟩ | ⟨e, he, hcarry, hno⟩
        · rw [hcarry]
          refine .inl ⟨_, rfl, ⟨hholds, ?_, fun hz => ?_⟩, rfl, by simp⟩
          · have := h.counted
            simp only [hcount]
            omega
          · simp at hz
        · rw [hcarry]
          refine .inr ⟨e, he, rfl, fun ⟨hample, hcount⟩ => hno ⟨hample, ?_⟩⟩
          have := h.counted
          omega
  · refine .inr ⟨.singleExceeds, trivial, by rw [hfail]; rfl, fun ⟨hample, _⟩ => hno ?_⟩
    intro p hp
    exact (hample.right p.1 _ p.2 le_rfl (hrec.present p.1 p.2 hp)).1

def OptionHolds (R : Multiset X → A → Prop) (limit : Usize) : Option Run → Contents X → Prop
  | none, m => m = 0
  | some run, m => RunHolds R limit run m

theorem combine_holds (hR : Kept R) {limit : Usize} :
    ∀ (levels : List (Option Run)) (combined : Option Run) (m m' : Contents X),
      OptionHolds R limit combined m → LevelsHold R limit levels m' →
      (∃ out, SpillRuns.combine A limit combined levels = .ok out ∧
        OptionHolds R limit out (m + m')) ∨
      ∃ e : SpillError, e.isLimit ∧
        SpillRuns.combine A limit combined levels = .error e ∧ ¬ Ample R limit (m + m') := by
  intro levels
  induction levels with
  | nil =>
      intro combined m m' hc hlevels
      cases hlevels
      rw [add_zero]
      exact .inl ⟨combined, by rw [SpillRuns.combine.eq_def], hc⟩
  | cons slot levels ih =>
      intro combined m m' hc hlevels
      cases hlevels with
      | empty h =>
          have hskip : SpillRuns.combine A limit combined (none :: levels) =
              SpillRuns.combine A limit combined levels := by
            rw [SpillRuns.combine.eq_def]
          rw [hskip]
          exact ih combined m m' hc h
      | @full run _ m₁ m₂ hrun h =>
          cases combined with
          | none =>
              obtain rfl : m = 0 := hc
              rw [zero_add, SpillRuns.combine]
              exact ih (some run) m₁ m₂ hrun h
          | some other =>
              have hsum : m + (m₁ + m₂) = (m₁ + m) + m₂ := by abel
              rw [hsum, SpillRuns.combine]
              rcases mergeRuns_holds hR hrun hc with ⟨merged, hok, hmerged⟩ | ⟨e, he, hfail, hno⟩
              · simp only [hok, bind, Except.bind]
                exact ih (some merged) _ m₂ hmerged h
              · refine .inr ⟨e, he, ?_, fun hample => hno hample.left⟩
                simp only [hfail, bind, Except.bind]

/-- `finish` hands out a reader over sorted records that hold everything that
was pushed, or none when nothing was. -/
theorem finish_holds (hR : Kept R) {s : SpillRuns} {m : Contents X} (h : RunsHold R s m) :
    (∃ records s', s.finish A = .ok (some (readerOf s.limit records), s') ∧
      Sorted records ∧ Within s.limit records ∧ Keyed.Holds R records m) ∨
    (∃ s', s.finish A = .ok (none, s') ∧ m = 0) ∨
    ∃ e : SpillError, e.isLimit ∧ s.finish A = .error e ∧ ¬ Ample R s.limit m := by
  have hcombine := combine_holds hR s.levels none 0 m rfl h.levels
  rw [zero_add] at hcombine
  rw [SpillRuns.finish]
  rcases hcombine with ⟨out, hok, hout⟩ | ⟨e, he, hfail, hno⟩
  · simp only [hok, bind, Except.bind]
    cases out with
    | none => exact .inr (.inl ⟨_, rfl, hout⟩)
    | some run =>
        obtain ⟨records, hst, hholds⟩ := hout.stored
        refine .inl ⟨records, { s with levels := s.levels.map fun _ => none }, ?_,
          hst.sorted, hst.within, hholds⟩
        rw [Option.map_some, hst.reader]
        rfl
  · simp only [hfail, bind, Except.bind]
    exact .inr (.inr ⟨e, he, rfl, hno⟩)

theorem readBack_holds (hR : Kept R) {s : SpillRuns} {m : Contents X} (h : RunsHold R s m) :
    (∃ records, s.readBack A = .ok records ∧ Sorted records ∧
      Keyed.Holds R records m) ∨
    ∃ e : SpillError, e.isLimit ∧ s.readBack A = .error e ∧ ¬ Ample R s.limit m := by
  rw [SpillRuns.readBack]
  rcases finish_holds hR h with
    ⟨records, s', hok, hsorted, hwithin, hholds⟩ | ⟨s', hok, rfl⟩ | ⟨e, he, hfail, hno⟩
  · simp only [hok, bind, Except.bind]
    by_cases hread : AllReadable s.limit records
    · refine .inl ⟨records.map back, readAll_ok _ (Nat.lt_succ_self _) hwithin hread,
        hsorted.map reread, hholds.map reread fun _ _ => hR.reread⟩
    · obtain ⟨e, he, hfail⟩ := readAll_error _ (Nat.lt_succ_self _) hwithin hread
      exact .inr ⟨e, he, hfail, fun hample => hread (hample.readable hholds)⟩
  · simp only [hok, bind, Except.bind]
    exact .inl ⟨[], rfl, List.Pairwise.nil, Holds.nil _⟩
  · simp only [hfail, bind, Except.bind]
    exact .inr ⟨e, he, rfl, hno⟩

theorem pushAll_holds :
    ∀ (calls : List (List (CellIndex × A))) (s : SpillRuns) (m : Contents A),
      RunsHold BuiltFrom s m → (∀ records ∈ calls, Sorted records) →
      (∃ s', s.pushAll calls = .ok s' ∧ s'.limit = s.limit ∧
        RunsHold BuiltFrom s' (m + fun k => statesFor k calls.flatten)) ∨
      ∃ e : SpillError, e.isLimit ∧ s.pushAll calls = .error e ∧
        ¬ (Ample BuiltFrom s.limit (m + fun k => statesFor k calls.flatten) ∧
          s.runsWritten + calls.length < 2 ^ 64) := by
  intro calls
  induction calls with
  | nil =>
      intro s m h _
      refine .inl ⟨s, rfl, rfl, ?_⟩
      have hzero : (m + fun k => statesFor k ([] : List (List (CellIndex × A))).flatten) = m := by
        funext k
        simp
      rw [hzero]
      exact h
  | cons records calls ih =>
      intro s m h hsorted
      have hsum : (m + fun k => statesFor k (records :: calls).flatten) =
          (m + fun k => statesFor k records) + fun k => statesFor k calls.flatten := by
        funext k
        simp [statesFor_append, add_assoc]
      rw [hsum, SpillRuns.pushAll]
      have hself : Keyed.Holds BuiltFrom records fun k => statesFor k records :=
        Holds.self .pushed (hsorted records List.mem_cons_self).nodup
      rcases pushSorted_holds BuiltFrom.kept h (hsorted records List.mem_cons_self) hself with
        ⟨s', hok, h', hlimit, hruns⟩ | ⟨e, he, hfail, hno⟩
      · simp only [hok, bind, Except.bind]
        rcases ih s' _ h' (fun r hr => hsorted r (List.mem_cons_of_mem _ hr)) with
          ⟨s'', hok', hlimit', h''⟩ | ⟨e, he, hfail, hno⟩
        · exact .inl ⟨s'', hok', hlimit'.trans hlimit, h''⟩
        · refine .inr ⟨e, he, hfail, fun hroom => hno ?_⟩
          obtain ⟨hample, hcount⟩ := hroom
          refine ⟨hlimit ▸ hample, ?_⟩
          simp only [List.length_cons] at hcount
          split at hruns <;> omega
      · simp only [hfail, bind, Except.bind]
        refine .inr ⟨e, he, rfl, fun hroom => hno ?_⟩
        obtain ⟨hample, hcount⟩ := hroom
        refine ⟨hample.left, ?_⟩
        simp only [List.length_cons] at hcount
        omega

/-- What reading the runs back comes to, for calls whose keys increase and
overlap between calls in any way. -/
structure Lossless (A : Type) [SpillAccumulator A] [LawfulSpill A] (limit : Usize)
    (calls : List (List (CellIndex × A))) : Prop where
  /-- Every pushed key once, in order, with the merge of exactly its states. -/
  records : ∀ records, SpillRuns.roundTrip limit calls = .ok records →
    Sorted records ∧ (∀ k, k ∈ keys records ↔ k ∈ keys calls.flatten) ∧
    ∀ k a, (k, a) ∈ records → MergeOf (statesFor k calls.flatten) a
  /-- The only errors are limits. -/
  errors : ∀ e : SpillError, SpillRuns.roundTrip limit calls = .error e → e.isLimit
  /-- With room for every merge and a run to spare there are none. -/
  succeeds : Ample BuiltFrom limit (fun k => statesFor k calls.flatten) → calls.length < 2 ^ 64 →
    ∃ records, SpillRuns.roundTrip limit calls = .ok records

theorem Holds.mem_keys_iff {l : List (CellIndex × A)} {m : Contents A} {k : CellIndex}
    (h : Keyed.Holds MergeOf l m) : k ∈ keys l ↔ m k ≠ 0 := by
  constructor
  · intro hk
    obtain ⟨a, ha⟩ := mem_keys.mp hk
    exact (h.present k a ha).ne_zero
  · intro hne
    by_contra hk
    exact hne (h.absent k hk)

theorem roundTrip_lossless (limit : Usize) (calls : List (List (CellIndex × A)))
    (hsorted : ∀ records ∈ calls, Sorted records) : Lossless A limit calls := by
  have hpush := pushAll_holds calls (SpillRuns.new limit) 0 (runsHold_new limit) hsorted
  rw [zero_add] at hpush
  rcases hpush with ⟨s, hok, hlimit, hs⟩ | ⟨e, he, hfail, hno⟩
  · have htrip : SpillRuns.roundTrip limit calls = s.readBack A := by
      simp only [SpillRuns.roundTrip, hok, bind, Except.bind]
    rcases readBack_holds BuiltFrom.kept hs with ⟨out, hread, hrs, hholds⟩ | ⟨e, he, hfail, hno⟩
    · rw [← htrip] at hread
      refine ⟨fun records heq => ?_, fun e heq => ?_, fun _ _ => ⟨out, hread⟩⟩
      · rw [hread] at heq
        cases heq
        have hmerged := hholds.imp fun _ _ => BuiltFrom.mergeOf
        refine ⟨hrs, fun k => ?_, hmerged.present⟩
        rw [Holds.mem_keys_iff hmerged, Ne, statesFor_eq_zero, not_not]
      · rw [hread] at heq
        cases heq
    · rw [← htrip] at hfail
      refine ⟨fun records heq => ?_, fun e' heq => ?_, fun hample _ => ?_⟩
      · rw [hfail] at heq
        cases heq
      · rw [hfail] at heq
        cases heq
        exact he
      · rw [hlimit] at hno
        exact absurd hample hno
  · have htrip : SpillRuns.roundTrip limit calls = .error e := by
      simp only [SpillRuns.roundTrip, hfail, bind, Except.bind]
    refine ⟨fun records heq => ?_, fun e' heq => ?_, fun hample hcount => ?_⟩
    · rw [htrip] at heq
      cases heq
    · rw [htrip] at heq
      cases heq
      exact he
    · refine absurd ⟨hample, ?_⟩ hno
      rw [SpillRuns.new, Nat.zero_add]
      exact hcount

end RasterH3.Agg
