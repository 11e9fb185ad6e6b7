import RasterH3.Raster.CoalesceWords

/-!
# Coalesced ranges say where every chunk is

Chunks of a file that lie close together are fetched by one request. The coalescing goes
through their locations in order, extends the current range by a chunk if the gap and the
result are small enough, and begins a new one otherwise. Each range keeps the slices it
serves, relative to its start.

Read with their absolute positions, the slices of all ranges in order are the chunks that
are not empty, in order (`coalesceLoop_located`, an induction on the chunks with the current
range as the accumulator). Nothing else is asked of the list: chunks may overlap, come twice
or run backwards, since a chunk that does not start behind the current range begins a new
one. And a range lies within the limit or serves one chunk alone, with its slices inside
(`Proper`).

The loop of the code computes in 64 bits. Its sums are exact as long as each chunk ends
below 2^64, and one that does not makes the first of them wrap, which fails where overflow
is checked. So the loop on words is the exact one up to the first chunk that ends too late
(`coalesceLoopWord_eq`), and `coalescesExactly_iff` has the condition of the whole: all
chunks that are not empty end in range.
-/

namespace RasterH3.Raster.RemotePrefetch

open Checked

/-- The chunks of a range with their absolute byte ranges. -/
def CoalescedRange.located (range : CoalescedRange) : List ChunkLocation :=
  range.chunkSlices.map fun slice =>
    ⟨range.tileIdx, slice.1, range.startOffset + slice.2.1, slice.2.2⟩

/-- A range that lies within the limit or serves one chunk, with its slices inside. -/
structure CoalescedRange.Proper (maxRangeBytes : Nat) (range : CoalescedRange) : Prop where
  start_le : range.startOffset ≤ range.endOffset
  bounded : rangeBytes range ≤ maxRangeBytes ∨ range.chunkSlices.length = 1
  inside : ∀ slice ∈ range.chunkSlices, slice.2.1 + slice.2.2 ≤ rangeBytes range

namespace CoalescedRange

variable {curr : CoalescedRange} {chunk : ChunkLocation} {gap bytes : Nat}

theorem located_single (chunk : ChunkLocation) : (single chunk).located = [chunk] := rfl

theorem located_append (hstart : curr.startOffset ≤ curr.endOffset)
    (hjoins : curr.joins chunk gap bytes) :
    (curr.append chunk).located = curr.located ++ [chunk] := by
  obtain ⟨htile, hafter, -, -⟩ := hjoins
  have hat : curr.startOffset + (chunk.offset - curr.startOffset) = chunk.offset := by omega
  simp only [located, append, List.map_append, List.map_cons, List.map_nil, hat, htile]

theorem proper_single (hpos : chunk.length ≠ 0) : (single chunk).Proper bytes where
  start_le := by
    show chunk.offset ≤ chunk.offset + chunk.length - 1
    omega
  bounded := Or.inr rfl
  inside := by
    intro slice hslice
    obtain rfl := List.mem_singleton.mp hslice
    show 0 + chunk.length ≤ chunk.offset + chunk.length - 1 - chunk.offset + 1
    omega

theorem Proper.append (h : curr.Proper bytes) (hjoins : curr.joins chunk gap bytes) :
    (curr.append chunk).Proper bytes := by
  obtain ⟨hstart, -, hinside⟩ := h
  obtain ⟨-, hafter, -, htotal⟩ := hjoins
  refine ⟨?_, Or.inl ?_, fun slice hslice => ?_⟩
  · show curr.startOffset ≤ chunk.offset + chunk.length - 1
    omega
  · show chunk.offset + chunk.length - 1 - curr.startOffset + 1 ≤ bytes
    omega
  · show slice.2.1 + slice.2.2 ≤ chunk.offset + chunk.length - 1 - curr.startOffset + 1
    rcases List.mem_append.mp hslice with hold | hnew
    · have hend := hinside slice hold
      rw [rangeBytes] at hend
      omega
    · obtain rfl := List.mem_singleton.mp hnew
      dsimp only
      omega

end CoalescedRange

/-! ## Exact arithmetic -/

theorem coalesceLoop_located {gap bytes : Nat} {chunks : List ChunkLocation}
    {current : Option CoalescedRange} (hcurrent : ∀ curr ∈ current, curr.Proper bytes) :
    (coalesceLoop gap bytes current chunks).flatMap CoalescedRange.located =
        current.toList.flatMap CoalescedRange.located ++
          chunks.filter (fun chunk => chunk.length ≠ 0) ∧
      ∀ range ∈ coalesceLoop gap bytes current chunks, range.Proper bytes := by
  induction chunks generalizing current with
  | nil =>
    refine ⟨(List.append_nil _).symm, fun range hrange => ?_⟩
    exact hcurrent range (Option.mem_toList.mp hrange)
  | cons chunk chunks ih =>
    rw [coalesceLoop.eq_def]
    simp only
    split
    next hzero =>
      rw [List.filter_cons_of_neg (by simpa using hzero)]
      exact ih hcurrent
    next hpos =>
      have hsingle := @ih (some (.single chunk)) fun curr hcurr =>
        Option.mem_some.mp hcurr ▸ CoalescedRange.proper_single hpos
      rw [List.filter_cons_of_pos (by simpa using hpos)]
      cases current with
      | none => exact hsingle
      | some curr =>
        have hproper := hcurrent curr rfl
        simp only
        split
        next hjoins =>
          have hlonger := @ih (some (curr.append chunk)) fun r hr =>
            Option.mem_some.mp hr ▸ hproper.append hjoins
          refine ⟨hlonger.1.trans ?_, hlonger.2⟩
          simp [CoalescedRange.located_append hproper.start_le hjoins]
        next =>
          refine ⟨?_, List.forall_mem_cons.mpr ⟨hproper, hsingle.2⟩⟩
          rw [List.flatMap_cons, hsingle.1]
          simp [CoalescedRange.located_single]

/-! ## Machine words -/

/-- The chunk ends below 2^64. -/
def ChunkLocation.EndsInRange (chunk : ChunkLocation) : Prop :=
  chunk.length ≠ 0 → chunk.offset + chunk.length < 2 ^ 64

instance (chunk : ChunkLocation) : Decidable chunk.EndsInRange :=
  inferInstanceAs (Decidable (_ → _))

theorem extendWord_eq {curr : CoalescedRange} {chunk : ChunkLocation} {gap bytes : Nat}
    (hstart : curr.startOffset ≤ curr.endOffset)
    (hend : chunk.offset + chunk.length < 2 ^ 64) :
    curr.extendWord chunk (chunk.offset + chunk.length - 1) gap bytes =
      some (if curr.joins chunk gap bytes then some (curr.append chunk) else none) := by
  unfold CoalescedRange.extendWord
  split
  next hafter =>
    rw [add_of_lt (by omega)]
    simp only [Option.bind_eq_bind, Option.bind_some]
    rw [sub_of_le (by omega), Option.bind_some, add_of_lt (by omega), Option.bind_some,
      sub_of_le (by omega), Option.bind_some, sub_of_le (by omega), Option.bind_some]
    split
    next hfits =>
      rw [if_pos ⟨hafter.1, hafter.2, hfits⟩]
      rfl
    next hfits => rw [if_neg fun hjoins => hfits ⟨hjoins.2.2.1, hjoins.2.2.2⟩]
  next hafter => rw [if_neg fun hjoins => hafter ⟨hjoins.1, hjoins.2.1⟩]

/-- The machine fails at the first chunk that ends too late, and is exact without one. -/
theorem coalesceLoopWord_eq {gap bytes : Nat} {chunks : List ChunkLocation}
    {current : Option CoalescedRange} (hcurrent : ∀ curr ∈ current, curr.Proper bytes) :
    coalesceLoopWord gap bytes current chunks =
      if ∀ chunk ∈ chunks, chunk.EndsInRange then some (coalesceLoop gap bytes current chunks)
      else none := by
  induction chunks generalizing current with
  | nil => simp [coalesceLoopWord, coalesceLoop]
  | cons chunk chunks ih =>
    rw [coalesceLoopWord.eq_def, coalesceLoop.eq_def]
    simp only [List.forall_mem_cons]
    split
    next hzero =>
      have hends : chunk.EndsInRange := fun hne => absurd hzero hne
      rw [ih hcurrent]
      simp only [hends, true_and]
    next hpos =>
      by_cases hend : chunk.offset + chunk.length < 2 ^ 64
      · have hends : chunk.EndsInRange := fun _ => hend
        have hsingle := @ih (some (.single chunk)) fun curr hcurr =>
          Option.mem_some.mp hcurr ▸ CoalescedRange.proper_single hpos
        have hbegin : CoalescedRange.begin chunk (chunk.offset + chunk.length - 1) =
          .single chunk := rfl
        rw [add_of_lt hend]
        simp only [Option.bind_eq_bind, Option.bind_some, hends, true_and]
        rw [sub_of_le (by omega), Option.bind_some]
        cases current with
        | none =>
          simp only [hbegin]
          exact hsingle
        | some curr =>
          have hproper := hcurrent curr rfl
          simp only [extendWord_eq hproper.start_le hend, Option.bind_some, hbegin]
          by_cases hjoins : curr.joins chunk gap bytes
          · simp only [if_pos hjoins]
            exact ih fun r hr => Option.mem_some.mp hr ▸ hproper.append hjoins
          · simp only [if_neg hjoins, hsingle]
            split <;> rfl
      · have hends : ¬chunk.EndsInRange := fun h => hend (h hpos)
        have hadd : add 64 chunk.offset chunk.length = none := by
          rw [add, fit, if_neg hend]
        rw [hadd, if_neg fun h => hends h.1]
        rfl

/-! ## The whole -/

/-- Nothing wraps, the ranges serve each chunk that is not empty once and at its own bytes, and
they keep the limit. -/
def CoalescesExactly (chunks : List ChunkLocation) (gap bytes : Nat) : Prop :=
  ∃ ranges, coalesceChunkRangesWord chunks gap bytes = some ranges ∧
    ranges.flatMap CoalescedRange.located = chunks.filter (fun chunk => chunk.length ≠ 0) ∧
      ∀ range ∈ ranges, range.Proper bytes

theorem coalescesExactly_iff (chunks : List ChunkLocation) (gap bytes : Nat) :
    CoalescesExactly chunks gap bytes ↔ ∀ chunk ∈ chunks, chunk.EndsInRange := by
  have hword := @coalesceLoopWord_eq gap bytes chunks none nofun
  have hexact := @coalesceLoop_located gap bytes chunks none nofun
  constructor
  · intro ⟨ranges, hranges, _⟩
    by_contra hends
    rw [coalesceChunkRangesWord, hword, if_neg hends] at hranges
    cases hranges
  · intro hends
    rw [if_pos hends] at hword
    exact ⟨_, hword, hexact⟩

/-- The sum of offset and length passes 2^64. -/
theorem last_byte_does_not_coalesce :
    ¬CoalescesExactly [⟨0, 0, 2 ^ 64 - 1, 2⟩] 32768 2097152 := by
  intro ⟨ranges, hranges, _⟩
  cases hranges

end RasterH3.Raster.RemotePrefetch
