import RasterH3.Agg.Partial
import RasterH3.Lib.Reader
import RasterH3.Proofs.SpillCodec

/-!
# Partial states read back

A worker writes the states of the cells it could not finish, and another reads and merges
them. What `decode` accepts is a header and a body that the state reader takes to its last
byte. A reader that answers does not look at the bytes it leaves (`Extends`, which is closed
under everything the readers are built with), so a body that is read to its end is neither
the beginning nor an extension of another, and that is what rejects a truncated body and
trailing bytes (`decode_unique`).

A reader also checks what it has read: a count against the limit before the entries, and the
size of the state that results. So a state that was read passes the checks it would be read
under again (`readState_fits`), and that makes an exchange exact under any limit: what is
written and within the limit is read back as the same state, and whatever else is read can
be handed on. Both kinds of states have readers of this sort, which is the class
`StreamingSpill`; the theorems are about any kind that has one.

A merger folds the states of a cell in the order in which they come (`MergesTo`), decoding each
as it comes, so that its cells are the merges of what was decoded.

Being read and being written are not the same. A body may list a key twice, and such a body
is accepted although it is not what the state it gives is written as; the last section has
one.
-/

namespace RasterH3.Agg

open AccumulatorMerge SpillAccumulator PartialState LawfulSpill

/-! ## Readers that leave the rest alone -/

/-- What is read does not depend on the bytes left over. -/
def Extends {α : Type} (read : List UInt8 → Except SpillError (α × List UInt8)) : Prop :=
  ∀ input x rest extra, read input = .ok (x, rest) → read (input ++ extra) = .ok (x, rest ++ extra)

theorem Extends.bind {α β : Type} {read : List UInt8 → Except SpillError (α × List UInt8)}
    {next : α → List UInt8 → Except SpillError (β × List UInt8)} (h : Extends read)
    (h' : ∀ x, Extends (next x)) :
    Extends (fun input => do
      let (x, input) ← read input
      next x input) := by
  intro input y rest extra hy
  dsimp only at hy ⊢
  cases hread : read input with
  | error e => rw [hread] at hy; cases hy
  | ok out =>
      rw [hread] at hy
      have hext := h input out.1 out.2 extra hread
      rw [hext]
      exact h' out.1 out.2 y rest extra hy

theorem Extends.pure {α : Type} (x : α) : Extends fun input => .ok (x, input) := by
  intro input y rest extra h
  obtain ⟨rfl, rfl⟩ := Prod.mk.inj (Except.ok.inj h)
  rfl

theorem Extends.throw {α : Type} (e : SpillError) : Extends fun _ => (.error e : Except _ (α × _)) :=
  fun _ _ _ _ h => nomatch h

theorem Extends.ite {α : Type} {c : Prop} [Decidable c]
    {read read' : List UInt8 → Except SpillError (α × List UInt8)} (h : Extends read)
    (h' : Extends read') : Extends fun input => if c then read input else read' input := by
  intro input x rest extra hx
  dsimp only at hx ⊢
  split at hx
  next hc => rw [if_pos hc]; exact h _ _ _ _ hx
  next hc => rw [if_neg hc]; exact h' _ _ _ _ hx

theorem Extends.readExact {α : Type} {read : List UInt8 → Option (α × List UInt8)}
    (h : ∀ {input x rest} extra, read input = some (x, rest) →
      read (input ++ extra) = some (x, rest ++ extra)) : Extends (readExact read) := by
  intro input x rest extra hx
  rw [Agg.readExact] at hx ⊢
  split at hx
  next out hread =>
    obtain rfl := Except.ok.inj hx
    rw [h extra hread]
  next => cases hx

theorem extends_decode {α : Type} [Bytes.Codec α] [Bytes.Streaming α] :
    Extends (readExact (Bytes.Codec.decode (α := α))) :=
  .readExact Bytes.Streaming.decode_append

theorem extends_le (w : Nat) : Extends (readExact (Bytes.readLe w)) := .readExact Bytes.readLe_append

theorem extends_count (limit : Usize) : Extends (count limit) := by
  have hcheck : ∀ n, Extends fun input =>
      if limit.val / 64 < n then .error .countExceeds else .ok (n, input) :=
    fun n => (Extends.throw .countExceeds).ite (.pure n)
  exact (extends_le 8).bind hcheck

theorem extends_readEntries {K V : Type} {readKey : List UInt8 → Option (K × List UInt8)}
    {readValue : List UInt8 → Option (V × List UInt8)} (hk : Extends (readExact readKey))
    (hv : Extends (readExact readValue)) (n : Nat) : Extends (readEntries readKey readValue n) := by
  induction n with
  | zero => exact .pure []
  | succ n ih =>
      exact hk.bind fun key => hv.bind fun value => ih.bind fun rest => .pure ((key, value) :: rest)

section Engines

variable {F M : Type} [Bytes.Codec F] [Bytes.Streaming F]

theorem extends_readBins (limit : Usize) : Extends (readBins (F := F) limit) :=
  (extends_count limit).bind fun n =>
    (extends_readEntries (.readExact Bytes.readI32_append) extends_decode n).bind fun entries =>
      .pure (HashTable.Table.empty.insertAll entries)

theorem guard_ok {α : Type} {n limit : Nat} {e : SpillError} {a b : α}
    (h : (if limit < n then .error e else .ok a : Except SpillError α) = .ok b) :
    n ≤ limit ∧ a = b := by
  split at h
  next => cases h
  next hle => exact ⟨Nat.not_lt.mp hle, Except.ok.inj h⟩

theorem extends_readSketch (limit : Usize) : Extends (H3Accumulator.readSketch (F := F) limit) := by
  intro input q rest extra h
  obtain ⟨⟨zero, i₁⟩, h₁, h⟩ := Bytes.bind_eq_ok h
  obtain ⟨⟨total, i₂⟩, h₂, h⟩ := Bytes.bind_eq_ok h
  obtain ⟨⟨pos, i₃⟩, h₃, h⟩ := Bytes.bind_eq_ok h
  obtain ⟨⟨neg, i₄⟩, h₄, h⟩ := Bytes.bind_eq_ok h
  obtain ⟨rfl, rfl⟩ := Prod.mk.inj (Except.ok.inj h)
  simp only [H3Accumulator.readSketch, extends_decode _ _ _ extra h₁,
    extends_decode _ _ _ extra h₂, extends_readBins limit _ _ _ extra h₃,
    extends_readBins limit _ _ _ extra h₄, bind, Except.bind]
  rfl

/-- What follows the marker. -/
def H3Accumulator.readQuantiles (limit : Usize) (marker : Nat) (input : List UInt8) :
    Except SpillError (Option (QuantileSketch F) × List UInt8) :=
  match marker with
  | 0 => .ok (none, input)
  | 1 => do
      let (q, input) ← readSketch limit input
      return (some q, input)
  | _ => .error .invalidMarker

theorem H3Accumulator.extends_readQuantiles (limit : Usize) (marker : Nat) :
    Extends (readQuantiles (F := F) limit marker) := by
  unfold readQuantiles
  split
  next => exact .pure none
  next => exact (extends_readSketch limit).bind fun q => .pure (some q)
  next => exact .throw _

omit [Bytes.Streaming F] in
/-- `readState` is its seven numbers, the sketch and the check of the limit. -/
theorem H3Accumulator.readState_ok_iff [Bytes.Codec M] {limit : Usize} {input rest : List UInt8}
    {acc : H3Accumulator F M} : readState limit input = .ok (acc, rest) ↔
    ∃ i₁ i₂ i₃ i₄ i₅ i₆ i₇ marker,
      readExact Bytes.Codec.decode input = .ok (acc.sum, i₁) ∧
      readExact Bytes.Codec.decode i₁ = .ok (acc.count, i₂) ∧
      readExact Bytes.Codec.decode i₂ = .ok (acc.sumW2, i₃) ∧
      readExact Bytes.Codec.decode i₃ = .ok (acc.min, i₄) ∧
      readExact Bytes.Codec.decode i₄ = .ok (acc.max, i₅) ∧
      readExact Bytes.Codec.decode i₅ = .ok (acc.m2, i₆) ∧
      readExact (Bytes.readLe 8) i₆ = .ok (marker, i₇) ∧
      readQuantiles limit marker i₇ = .ok (acc.quantiles, rest) ∧ acc.memoryBytes ≤ limit.val := by
  constructor
  · intro h
    obtain ⟨⟨sum, i₁⟩, h₁, h⟩ := Bytes.bind_eq_ok h
    obtain ⟨⟨count, i₂⟩, h₂, h⟩ := Bytes.bind_eq_ok h
    obtain ⟨⟨sumW2, i₃⟩, h₃, h⟩ := Bytes.bind_eq_ok h
    obtain ⟨⟨min, i₄⟩, h₄, h⟩ := Bytes.bind_eq_ok h
    obtain ⟨⟨max, i₅⟩, h₅, h⟩ := Bytes.bind_eq_ok h
    obtain ⟨⟨m2, i₆⟩, h₆, h⟩ := Bytes.bind_eq_ok h
    obtain ⟨⟨marker, i₇⟩, h₇, h⟩ := Bytes.bind_eq_ok h
    obtain ⟨quantiles, hq, hlimit, rfl⟩ : ∃ quantiles,
        readQuantiles limit marker i₇ = .ok (quantiles, rest) ∧
        (⟨sum, count, min, max, m2, sumW2, quantiles⟩ : H3Accumulator F M).memoryBytes ≤
          limit.val ∧ (⟨sum, count, min, max, m2, sumW2, quantiles⟩ : H3Accumulator F M) = acc := by
      match marker with
      | 0 =>
          obtain ⟨hlimit, heq⟩ := guard_ok h
          obtain ⟨rfl, rfl⟩ := Prod.mk.inj heq
          exact ⟨none, rfl, hlimit, rfl⟩
      | 1 =>
          obtain ⟨⟨q, i₈⟩, hq, h⟩ := Bytes.bind_eq_ok h
          obtain ⟨hlimit, heq⟩ := guard_ok h
          obtain ⟨rfl, rfl⟩ := Prod.mk.inj heq
          refine ⟨some q, ?_, hlimit, rfl⟩
          rw [readQuantiles, hq]
          rfl
      | n + 2 => cases h
    exact ⟨i₁, i₂, i₃, i₄, i₅, i₆, i₇, marker, h₁, h₂, h₃, h₄, h₅, h₆, h₇, hq, hlimit⟩
  · rintro ⟨i₁, i₂, i₃, i₄, i₅, i₆, i₇, marker, h₁, h₂, h₃, h₄, h₅, h₆, h₇, hq, hlimit⟩
    have hcheck : ¬limit.val < acc.memoryBytes := Nat.not_lt.mpr hlimit
    simp only [readState, h₁, h₂, h₃, h₄, h₅, h₆, h₇, bind, Except.bind]
    match marker with
    | 0 =>
        obtain ⟨hnone, rfl⟩ := Prod.mk.inj (Except.ok.inj hq)
        obtain ⟨sum, count, min, max, m2, sumW2, quantiles⟩ := acc
        subst hnone
        exact if_neg hcheck
    | 1 =>
        obtain ⟨⟨q, i₈⟩, hread, heq⟩ := Bytes.bind_eq_ok hq
        obtain ⟨hsome, rfl⟩ := Prod.mk.inj (Except.ok.inj heq)
        obtain ⟨sum, count, min, max, m2, sumW2, quantiles⟩ := acc
        subst hsome
        simp only [hread]
        exact if_neg hcheck
    | n + 2 => cases hq

theorem H3Accumulator.extends_readState [Bytes.Codec M] [Bytes.Streaming M] (limit : Usize) :
    Extends (H3Accumulator.readState (F := F) (M := M) limit) := by
  intro input acc rest extra h
  obtain ⟨i₁, i₂, i₃, i₄, i₅, i₆, i₇, marker, h₁, h₂, h₃, h₄, h₅, h₆, h₇, hq, hlimit⟩ :=
    readState_ok_iff.mp h
  exact readState_ok_iff.mpr ⟨i₁ ++ extra, i₂ ++ extra, i₃ ++ extra, i₄ ++ extra, i₅ ++ extra,
    i₆ ++ extra, i₇ ++ extra, marker, extends_decode _ _ _ extra h₁, extends_decode _ _ _ extra h₂,
    extends_decode _ _ _ extra h₃, extends_decode _ _ _ extra h₄, extends_decode _ _ _ extra h₅,
    extends_decode _ _ _ extra h₆, extends_le _ _ _ _ extra h₇,
    extends_readQuantiles limit marker _ _ _ extra hq, hlimit⟩

/-! ## What is read passes the checks that it was read under -/

theorem count_ok {limit : Usize} {input rest : List UInt8} {n : Nat}
    (h : count limit input = .ok (n, rest)) : n ≤ limit.val / 64 := by
  obtain ⟨⟨n', i⟩, -, h⟩ := Bytes.bind_eq_ok h
  obtain ⟨hle, heq⟩ := guard_ok h
  obtain ⟨rfl, rfl⟩ := Prod.mk.inj heq
  exact hle

theorem length_readEntries {K V : Type} {readKey : List UInt8 → Option (K × List UInt8)}
    {readValue : List UInt8 → Option (V × List UInt8)} {n : Nat} {input rest : List UInt8}
    {entries : List (K × V)} (h : readEntries readKey readValue n input = .ok (entries, rest)) :
    entries.length = n := by
  induction n generalizing input entries with
  | zero =>
      obtain ⟨rfl, rfl⟩ := Prod.mk.inj (Except.ok.inj h)
      rfl
  | succ n ih =>
      obtain ⟨⟨key, i₁⟩, -, h⟩ := Bytes.bind_eq_ok h
      obtain ⟨⟨value, i₂⟩, -, h⟩ := Bytes.bind_eq_ok h
      obtain ⟨⟨later, i₃⟩, hlater, h⟩ := Bytes.bind_eq_ok h
      obtain ⟨rfl, rfl⟩ := Prod.mk.inj (Except.ok.inj h)
      rw [List.length_cons, ih hlater]

omit [Bytes.Streaming F] in
theorem readBins_len {limit : Usize} {input rest : List UInt8} {bins : HashTable.Table Int32 F}
    (h : readBins limit input = .ok (bins, rest)) : bins.len ≤ limit.val / 64 := by
  obtain ⟨⟨n, i₁⟩, hn, h⟩ := Bytes.bind_eq_ok h
  obtain ⟨⟨entries, i₂⟩, hentries, h⟩ := Bytes.bind_eq_ok h
  obtain ⟨rfl, rfl⟩ := Prod.mk.inj (Except.ok.inj h)
  have hlen := HashTable.Table.len_insertAll_le entries (HashTable.Table.empty (K := Int32) (V := F))
  have hempty : (HashTable.Table.empty : HashTable.Table Int32 F).len = 0 := rfl
  have hcount := count_ok hn
  have hread := length_readEntries hentries
  omega

omit [Bytes.Streaming F] in
theorem H3Accumulator.readState_fits [Bytes.Codec M] {limit : Usize} {input rest : List UInt8}
    {acc : H3Accumulator F M} (h : readState limit input = .ok (acc, rest)) :
    acc.memoryBytes ≤ limit.val ∧ acc.CountsFit limit := by
  obtain ⟨-, -, -, -, -, -, i₇, marker, -, -, -, -, -, -, -, hq, hlimit⟩ := readState_ok_iff.mp h
  refine ⟨hlimit, fun q hmem => ?_⟩
  rw [Option.mem_def] at hmem
  rw [hmem] at hq
  match marker with
  | 0 => cases hq
  | 1 =>
      obtain ⟨⟨q', i⟩, hread, heq⟩ := Bytes.bind_eq_ok hq
      obtain ⟨hsome, rfl⟩ := Prod.mk.inj (Except.ok.inj heq)
      obtain rfl := Option.some.inj hsome
      obtain ⟨⟨zero, i₁⟩, -, hread⟩ := Bytes.bind_eq_ok hread
      obtain ⟨⟨total, i₂⟩, -, hread⟩ := Bytes.bind_eq_ok hread
      obtain ⟨⟨pos, i₃⟩, hpos, hread⟩ := Bytes.bind_eq_ok hread
      obtain ⟨⟨neg, i₄⟩, hneg, hread⟩ := Bytes.bind_eq_ok hread
      obtain ⟨rfl, rfl⟩ := Prod.mk.inj (Except.ok.inj hread)
      exact ⟨readBins_len hpos, readBins_len hneg⟩
  | n + 2 => cases hq

end Engines

section Categorical

variable {F : Type} [Zero F] [LE F] [Add F] [PositiveAdd F] [DecidableLE F] [Bytes.Codec F]

namespace CategoricalAccumulator

theorem readState_ok_iff {limit : Usize} {input rest : List UInt8}
    {acc : CategoricalAccumulator F} : readState limit input = .ok (acc, rest) ↔
    ∃ i₁ i₂ n total entries, readExact Bytes.Codec.decode input = .ok (total, i₁) ∧
      count limit i₁ = .ok (n, i₂) ∧
      readEntries Bytes.readI64 Bytes.Codec.decode n i₂ = .ok (entries, rest) ∧
      acc = { (new : CategoricalAccumulator F).updateAll entries with totalCount := total } ∧
      acc.memoryBytes ≤ limit.val := by
  constructor
  · intro h
    obtain ⟨⟨total, i₁⟩, h₁, h⟩ := Bytes.bind_eq_ok h
    obtain ⟨⟨n, i₂⟩, h₂, h⟩ := Bytes.bind_eq_ok h
    obtain ⟨⟨entries, i₃⟩, h₃, h⟩ := Bytes.bind_eq_ok h
    obtain ⟨hlimit, heq⟩ := guard_ok h
    obtain ⟨rfl, rfl⟩ := Prod.mk.inj heq
    exact ⟨i₁, i₂, n, total, entries, h₁, h₂, h₃, rfl, hlimit⟩
  · rintro ⟨i₁, i₂, n, total, entries, h₁, h₂, h₃, rfl, hlimit⟩
    simp only [readState, h₁, h₂, h₃, bind, Except.bind]
    exact if_neg (Nat.not_lt.mpr hlimit)

theorem extends_readState [Bytes.Streaming F] (limit : Usize) :
    Extends (readState (F := F) limit) := by
  intro input acc rest extra h
  obtain ⟨i₁, i₂, n, total, entries, h₁, h₂, h₃, hacc, hlimit⟩ := readState_ok_iff.mp h
  exact readState_ok_iff.mpr ⟨i₁ ++ extra, i₂ ++ extra, n, total, entries,
    extends_decode _ _ _ extra h₁, extends_count limit _ _ _ extra h₂,
    extends_readEntries (.readExact Bytes.readI64_append) extends_decode n _ _ _ extra h₃,
    hacc, hlimit⟩

omit [Bytes.Codec F] in
/-- Entries without a positive weight are passed over. -/
theorem updateAll_filter (entries : List (Int64 × F)) (acc : CategoricalAccumulator F) :
    acc.updateAll entries = acc.updateAll (entries.filter fun p => ¬p.2 ≤ 0) := by
  induction entries generalizing acc with
  | nil => rfl
  | cons p entries ih =>
      by_cases hp : p.2 ≤ 0
      · rw [List.filter_cons_of_neg (by simpa using hp), ← ih, updateAll, List.foldl_cons,
          updateWeighted, dif_pos hp, updateAll]
      · rw [List.filter_cons_of_pos (by simpa using hp), updateAll_cons _ _ hp,
          updateAll_cons _ _ hp, ih]

omit [Bytes.Codec F] in
theorem uniqueClasses_updateAll_le (entries : List (Int64 × F)) :
    ((new : CategoricalAccumulator F).updateAll entries).uniqueClasses ≤ entries.length := by
  rw [updateAll_filter]
  have hpos : ∀ p ∈ entries.filter fun p => ¬p.2 ≤ 0, ¬p.2 ≤ 0 := fun p hp => by
    simpa using (List.mem_filter.mp hp).2
  obtain ⟨hkeys, -, -⟩ := updateAll_spec _ (new : CategoricalAccumulator F) hpos
  have hsub : ((new : CategoricalAccumulator F).updateAll
      (entries.filter fun p => ¬p.2 ≤ 0)).classes.map Prod.fst ⊆ entries.map Prod.fst := by
    intro k hk
    rcases (hkeys k).mp hk with hk | hk
    · cases hk
    · obtain ⟨p, hp, rfl⟩ := List.mem_map.mp hk
      exact List.mem_map_of_mem (List.mem_filter.mp hp).1
  have hle := (List.subperm_of_subset (classes_nodup _) hsub).length_le
  rwa [List.length_map, List.length_map] at hle

theorem readState_fits {limit : Usize} {input rest : List UInt8} {acc : CategoricalAccumulator F}
    (h : readState limit input = .ok (acc, rest)) :
    acc.memoryBytes ≤ limit.val ∧ acc.CountFits limit := by
  obtain ⟨i₁, i₂, n, total, entries, -, h₂, h₃, rfl, hlimit⟩ := readState_ok_iff.mp h
  refine ⟨hlimit, ?_⟩
  have hle := uniqueClasses_updateAll_le entries
  have hcount := count_ok h₂
  have hread := length_readEntries h₃
  show ((new : CategoricalAccumulator F).updateAll entries).uniqueClasses ≤ _
  omega

end CategoricalAccumulator

end Categorical

/-! ## Headers -/

/-- A state reader that leaves the bytes after a state alone, and answers only
with states that pass its own checks. -/
class StreamingSpill (A : Type) [SpillAccumulator A] [LawfulSpill A] : Prop where
  read_append : ∀ limit,
    Extends (readState limit : List UInt8 → Except SpillError (A × List UInt8))
  read_fits : ∀ {limit : Usize} {input rest : List UInt8} {a : A},
    readState limit input = .ok (a, rest) → memoryBytes a ≤ limit.val ∧ Readable limit a

section Header

variable {A : Type} [PartialState A]

/-- What every encoded state of a kind begins with. -/
def header (A : Type) [PartialState A] : List UInt8 := magic ++ [partialVersion, kind A]

theorem decode_ok_iff {limit : Usize} {bytes : List UInt8} {a : A} :
    decodePartialState limit bytes = .ok a ↔
      ∃ body, bytes = header A ++ body ∧ readState limit body = .ok (a, []) := by
  constructor
  · intro h
    unfold decodePartialState at h
    split at h
    next hmagic =>
      obtain ⟨tail, rfl⟩ := List.isPrefixOf_iff_prefix.mp hmagic
      rw [List.drop_left] at h
      split at h
      next version k rest =>
        split at h
        next => cases h
        next hversion =>
          split at h
          next => cases h
          next hkind =>
            split at h
            next => cases h
            next a' hread =>
              obtain rfl := Except.ok.inj h
              refine ⟨rest, ?_, hread⟩
              rw [not_not.mp hversion, not_not.mp hkind]
              rfl
            next => cases h
      next => cases h
    next => cases h
  · rintro ⟨body, rfl, hread⟩
    have hmagic : magic.isPrefixOf (header A ++ body) = true :=
      List.isPrefixOf_iff_prefix.mpr ⟨[partialVersion, kind A] ++ body, by
        rw [header, List.append_assoc]⟩
    have hdrop : (header A ++ body).drop magic.length = partialVersion :: kind A :: body := rfl
    simp only [decodePartialState, hmagic, hdrop, hread, if_true, ne_eq, not_true_eq_false,
      if_false]

variable [LawfulSpill A]

theorem decode_encode {limit : Usize} {a : A} (hmem : memoryBytes a ≤ limit.val)
    (hread : Readable limit a) : decodePartialState limit (encodePartialState a) = .ok (reread a) := by
  refine decode_ok_iff.mpr ⟨writeState a, rfl, ?_⟩
  have h := read_write [] hmem hread
  rwa [List.append_nil] at h

variable [StreamingSpill A]

/-- No accepted string extends another. -/
theorem decode_unique {limit : Usize} {bytes extra : List UInt8} {a b : A}
    (ha : decodePartialState limit bytes = .ok a)
    (hb : decodePartialState limit (bytes ++ extra) = .ok b) : extra = [] := by
  obtain ⟨body, rfl, hread⟩ := decode_ok_iff.mp ha
  obtain ⟨body', hbody', hread'⟩ := decode_ok_iff.mp hb
  rw [List.append_assoc] at hbody'
  obtain rfl := List.append_cancel_left hbody'
  have hext := StreamingSpill.read_append limit body a [] extra hread
  rw [hread'] at hext
  exact (Prod.mk.inj (Except.ok.inj hext)).2.symm

end Header

/-! ## Merging what was decoded -/

/-- Every cell of the merger is the merge of its contributions. -/
structure MergesTo {A : Type} [SpillAccumulator A] [LawfulSpill A] (m : PartialMerger A)
    (contents : PartialKey → Multiset A) : Prop where
  present : ∀ key a, m.cells.lookup key = some a → MergeOf (contents key) a
  absent : ∀ key, m.cells.lookup key = none → contents key = 0

section Merger

variable {A : Type} [PartialState A] [LawfulSpill A]

theorem MergesTo.new : MergesTo (PartialMerger.new : PartialMerger A) 0 where
  present := fun key a h => by
    rw [PartialMerger.new, AList.lookup_empty] at h
    cases h
  absent := fun _ _ => rfl

theorem MergesTo.push {m : PartialMerger A} {contents : PartialKey → Multiset A}
    (h : MergesTo m contents) (key : PartialKey) {a a' : A} (hsame : Same a' a) :
    MergesTo (m.push key a') fun k => (if key = k then {a} else 0) + contents k := by
  have hnew : MergeOf {a} a' := .same (.single a) hsame
  obtain ⟨b, hcells, hb⟩ : ∃ b, (m.push key a').cells = m.cells.insert key b ∧
      MergeOf ({a} + contents key) b := by
    rw [PartialMerger.push]
    split
    next held hheld =>
      refine ⟨_, rfl, ?_⟩
      rw [add_comm]
      exact .merge (h.present key held hheld) hnew
    next hnone => exact ⟨a', rfl, by rw [h.absent key hnone, add_zero]; exact hnew⟩
  constructor
  · intro k c hc
    rw [hcells] at hc
    by_cases hk : key = k
    · subst hk
      rw [AList.lookup_insert] at hc
      obtain rfl := Option.some.inj hc
      rw [if_pos rfl]
      exact hb
    · rw [AList.lookup_insert_ne (Ne.symm hk)] at hc
      rw [if_neg hk, zero_add]
      exact h.present k c hc
  · intro k hc
    rw [hcells] at hc
    by_cases hk : key = k
    · subst hk
      rw [AList.lookup_insert] at hc
      cases hc
    · rw [AList.lookup_insert_ne (Ne.symm hk)] at hc
      rw [if_neg hk, zero_add]
      exact h.absent k hc

/-- The bytes of every push. -/
def encodeAll (pushes : List (PartialKey × A)) : List (PartialKey × List UInt8) :=
  pushes.map fun p => (p.1, encodePartialState p.2)

theorem MergesTo.pushAllEncoded {limit : Usize} (pushes : List (PartialKey × A))
    (hfit : ∀ p ∈ pushes, memoryBytes p.2 ≤ limit.val ∧ Readable limit p.2)
    {m : PartialMerger A} {contents : PartialKey → Multiset A} (h : MergesTo m contents) :
    ∃ m', m.pushAllEncoded limit (encodeAll pushes) = .ok m' ∧
      MergesTo m' fun k => Keyed.statesFor k pushes + contents k := by
  induction pushes generalizing m contents with
  | nil => exact ⟨m, rfl, by simpa using h⟩
  | cons p pushes ih =>
      obtain ⟨hmem, hread⟩ := hfit p List.mem_cons_self
      have hpush : m.pushEncoded limit p.1 (encodePartialState p.2) =
          .ok (m.push p.1 (reread p.2)) := by
        rw [PartialMerger.pushEncoded, decode_encode hmem hread]
        rfl
      obtain ⟨m', hm', hcontents⟩ := ih (fun q hq => hfit q (List.mem_cons_of_mem _ hq))
        (h.push p.1 (same_reread p.2))
      refine ⟨m', ?_, ?_⟩
      · rw [encodeAll, List.map_cons, PartialMerger.pushAllEncoded]
        dsimp only
        rw [hpush]
        exact hm'
      · have hkeys : (fun k => Keyed.statesFor k (p :: pushes) + contents k) = fun k =>
            Keyed.statesFor k pushes + ((if p.1 = k then {p.2} else 0) + contents k) := by
          funext k
          rw [Keyed.statesFor_cons, add_assoc, add_left_comm]
        rw [hkeys]
        exact hcontents

omit [PartialState A] [LawfulSpill A] in
/-- The records are those of the cells that pass the filters. -/
theorem PartialMerger.mem_finish {R : Type} {passesFilter : A → Bool}
    {makeRecord : UInt8 → CellIndex → A → R} {m : PartialMerger A} {r : R} :
    r ∈ m.finish passesFilter makeRecord ↔ ∃ key a, m.cells.lookup key = some a ∧
      passesFilter a = true ∧ makeRecord key.1 key.2 a = r := by
  rw [finish, List.mem_map]
  constructor
  · rintro ⟨⟨key, a⟩, hp, rfl⟩
    obtain ⟨hmem, hpass⟩ := List.mem_filter.mp hp
    exact ⟨key, a, AList.mem_lookup_iff.mpr ((List.mem_insertionSort _).mp hmem), hpass, rfl⟩
  · rintro ⟨key, a, hlookup, hpass, rfl⟩
    exact ⟨⟨key, a⟩, List.mem_filter.mpr
      ⟨(List.mem_insertionSort _).mpr (AList.mem_lookup_iff.mp hlookup), hpass⟩, rfl⟩

end Merger

/-! ## Both kinds -/

/-- What the exchange of partial states promises, under any limit. -/
structure ExactExchange (A : Type) [PartialState A] [LawfulSpill A] : Prop where
  round_trip : ∀ (limit : Usize) (a : A), memoryBytes a ≤ limit.val → Readable limit a →
    ∃ a', decodePartialState limit (encodePartialState a) = .ok a' ∧ Same a' a
  accepts : ∀ (limit : Usize) (bytes : List UInt8) (a : A), decodePartialState limit bytes = .ok a →
    (∃ body, bytes = magic ++ [partialVersion, kind A] ++ body ∧
      readState limit body = .ok (a, [])) ∧
    (∀ cut, cut <+: bytes → cut ≠ bytes →
      ∃ e, (decodePartialState limit cut : Except PartialError A) = .error e) ∧
    (∀ extra, extra ≠ [] →
      ∃ e, (decodePartialState limit (bytes ++ extra) : Except PartialError A) = .error e) ∧
    ∃ a', decodePartialState limit (encodePartialState a) = .ok a' ∧ Same a' a
  merges : ∀ (limit : Usize) (pushes order : List (PartialKey × A)),
    (∀ p ∈ pushes, memoryBytes p.2 ≤ limit.val ∧ Readable limit p.2) → order.Perm pushes →
    ∃ m, PartialMerger.new.pushAllEncoded limit (encodeAll order) = .ok m ∧
      MergesTo m fun key => Keyed.statesFor key pushes

theorem error_of_not_ok {E α : Type} {x : Except E α} (h : ∀ a, x ≠ .ok a) : ∃ e, x = .error e := by
  cases x with
  | error e => exact ⟨e, rfl⟩
  | ok a => exact absurd rfl (h a)

theorem exactExchange (A : Type) [PartialState A] [LawfulSpill A] [StreamingSpill A] :
    ExactExchange A where
  round_trip := fun limit a hmem hread => ⟨_, decode_encode hmem hread, same_reread a⟩
  accepts := by
    intro limit bytes a h
    obtain ⟨body, hbytes, hread⟩ := decode_ok_iff.mp h
    refine ⟨⟨body, hbytes, hread⟩, fun cut hcut hne => ?_, fun extra hextra => ?_, ?_⟩
    · refine error_of_not_ok fun b hb => ?_
      obtain ⟨tail, rfl⟩ := hcut
      exact hne (by rw [decode_unique hb h, List.append_nil])
    · exact error_of_not_ok fun b hb => hextra (decode_unique h hb)
    · obtain ⟨hmem, hread⟩ := StreamingSpill.read_fits hread
      exact ⟨_, decode_encode hmem hread, same_reread a⟩
  merges := by
    intro limit pushes order hfit hperm
    obtain ⟨m, hm, hcontents⟩ := MergesTo.new.pushAllEncoded (A := A) order
      fun p hp => hfit p (hperm.subset hp)
    refine ⟨m, hm, ?_⟩
    have hkeys : (fun key => Keyed.statesFor key pushes) =
        fun key => Keyed.statesFor key order + (0 : PartialKey → Multiset A) key := by
      funext key
      rw [Pi.zero_apply, add_zero]
      exact (Multiset.coe_eq_coe.mpr ((hperm.filter _).map _)).symm
    rw [hkeys]
    exact hcontents

instance {F M : Type} [Zero F] [Add F] [Sub F] [Mul F] [Div F] [BEq F] [Extremes F M]
    [Bytes.Codec F] [Bytes.Codec M] [Bytes.Streaming F] [Bytes.Streaming M] :
    StreamingSpill (H3Accumulator F M) where
  read_append := H3Accumulator.extends_readState
  read_fits := H3Accumulator.readState_fits

instance {F : Type} [Zero F] [Add F] [BEq F] [LE F] [DecidableLE F] [PositiveAdd F]
    [Bytes.Codec F] [Bytes.Streaming F] : StreamingSpill (CategoricalAccumulator F) where
  read_append := CategoricalAccumulator.extends_readState
  read_fits := CategoricalAccumulator.readState_fits

/-- Partial states of both kinds are exchanged exactly. -/
theorem partial_states_exchange (F M : Type) [Zero F] [Add F] [Sub F] [Mul F] [Div F] [BEq F]
    [LE F] [DecidableLE F] [PositiveAdd F] [Extremes F M] [Bytes.Codec F] [Bytes.Codec M]
    [Bytes.Streaming F] [Bytes.Streaming M] :
    ExactExchange (H3Accumulator F M) ∧ ExactExchange (CategoricalAccumulator F) :=
  ⟨exactExchange _, exactExchange _⟩

/-- Two classes, and a state with one of them and another. -/
def twoClasses : CategoricalAccumulator Nat := CategoricalAccumulator.new.updateAll [(1, 2), (5, 3)]

def oneClassMore : CategoricalAccumulator Nat :=
  CategoricalAccumulator.new.updateAll [(5, 4), (7, 1)]

theorem partial_states_exchange_twoClasses :
    (∃ acc', decodePartialState 8192 (encodePartialState twoClasses) = .ok acc' ∧
      Same acc' twoClasses) ∧
    (∀ cut, cut <+: encodePartialState twoClasses → cut ≠ encodePartialState twoClasses →
      ∃ e, (decodePartialState 8192 cut : Except PartialError (CategoricalAccumulator Nat)) =
        .error e) ∧
    ∃ m, PartialMerger.new.pushAllEncoded 8192
        (encodeAll [((9, 1), oneClassMore), ((9, 1), twoClasses)]) = .ok m ∧
      MergesTo m fun key => Keyed.statesFor key [((9, 1), twoClasses), ((9, 1), oneClassMore)] := by
  let _ : Extremes Nat Nat := ⟨id, 0, 0, min, max⟩
  have h := (partial_states_exchange Nat Nat).2
  have hfits : memoryBytes twoClasses ≤ (8192 : Usize).val ∧
      LawfulSpill.Readable (8192 : Usize) twoClasses :=
    ⟨by decide, by show twoClasses.uniqueClasses ≤ _; decide⟩
  have hfits' : memoryBytes oneClassMore ≤ (8192 : Usize).val ∧
      LawfulSpill.Readable (8192 : Usize) oneClassMore :=
    ⟨by decide, by show oneClassMore.uniqueClasses ≤ _; decide⟩
  obtain ⟨acc', hdecode, hsame⟩ := h.round_trip 8192 twoClasses hfits.1 hfits.2
  refine ⟨⟨acc', hdecode, hsame⟩, (h.accepts 8192 _ acc' hdecode).2.1, ?_⟩
  refine h.merges 8192 _ _ (fun p hp => ?_) (List.Perm.swap _ _ [])
  rcases List.mem_pair.mp hp with rfl | rfl
  · exact hfits
  · exact hfits'

/-- A categorical state that lists class 1 twice, with weights 1 and 2. -/
def repeatedClass : List UInt8 :=
  magic ++ [partialVersion, 2] ++ ([3] ++ Bytes.writeLe 8 2 ++ (Bytes.writeI64 1 ++ [1]) ++
    (Bytes.writeI64 1 ++ [2]))

/-- It is accepted, and is not the encoding of the state that it gives. -/
theorem repeated_class_not_reencoded :
    ∃ acc : CategoricalAccumulator Nat, decodePartialState 8192 repeatedClass = .ok acc ∧
      encodePartialState acc ≠ repeatedClass := by
  have hthree : Bytes.writeVarint 3 = [3] := by
    rw [Bytes.writeVarint, dif_pos (by decide)]
    rfl
  refine ⟨_, rfl, ?_⟩
  show magic ++ [partialVersion, 2] ++ (Bytes.writeVarint 3 ++ Bytes.writeLe 8 1 ++
    (Bytes.writeI64 1 ++ Bytes.writeVarint 3 ++ [])) ≠ repeatedClass
  rw [hthree]
  decide

end RasterH3.Agg
