import RasterH3.Proofs.PhaseClasses
import RasterH3.Proofs.PhaseBins

/-!
# When phases agree

An aggregate function of partial states runs in phases. Each node merges some of the states
and hands one on, encoded; another merges what was handed on, and so forth, as the planner
likes. The answer should be the one of merging all states at once.

Both aggregates fail in the same way: a state that one phase hands on is refused by the
next, although the states it was made of could be read. The encoder has no limit and the
decoder has. The categorical one also has a majority that depends on the order of near ties.
The conditions say of the states alone when neither happens: the bins or the classes of all
of them together are few enough, and where there are several classes, the class that leads
is the one that beats every other, in whatever order the states come and with sums that come
out the same.

States one of which is refused anyway agree, since then no plan has an answer. What is put
together here comes from the module on bins for the one aggregate and from that on classes
for the other; the examples at the end have one failing query for each of the two ways.
-/

namespace RasterH3.Sedona

open Agg Agg.AccumulatorMerge

open HashTable CategoricalAccumulator

/-- Three near ties, each of which loses to another. -/
def ringOfTies : ClassTotals ℚ where
  entries := [(3, 1000000004), (2, 1000000002), (1, 1000000000)]
  nodup := by decide
  positive := by decide +kernel

/-- `n` classes of weight one. -/
def manyClasses (n : Nat) (hn : n < 2 ^ 63) : ClassTotals ℚ where
  entries := (List.range n).map fun i => (Int64.ofNat i, 1)
  nodup := by
    rw [List.map_map]
    refine List.Nodup.map_on (fun i hi j hj h => ?_) List.nodup_range
    rw [List.mem_range] at hi hj
    have hint := congrArg Int64.toInt h
    simp only [Function.comp_apply] at hint
    rw [Int64.toInt_ofNat_of_lt (by omega), Int64.toInt_ofNat_of_lt (by omega)] at hint
    omega
  positive := by
    intro p hp
    obtain ⟨i, -, rfl⟩ := List.mem_map.mp hp
    exact zero_lt_one

/-- In the opposite order of the states another class leads. -/
theorem not_decided_ringOfTies (w : Int64 × ℚ) : ¬ Decided (singles ringOfTies) w := by
  intro h
  let upwards : ClassTotals ℚ := ⟨ringOfTies.entries.reverse, by decide, by decide +kernel⟩
  have heps : tolerance (singles ringOfTies) = tieEps 3000000006 := by
    rw [tolerance, pooled_singles]
    decide +kernel
  have hdown := leader_pooled_of_decided h (.refl _)
  have hreverse : (singles upwards).Perm (singles ringOfTies) := (List.reverse_perm ringOfTies.entries).map _
  have hup := leader_pooled_of_decided h hreverse
  rw [pooled_singles, heps] at hdown hup
  exact absurd (hdown.trans hup.symm) (by decide +kernel)

theorem few_of_manyClasses {n : Nat} {hn : n < 2 ^ 63}
    (h : CategoricalAgree (id : ℚ → ℚ) (encodeAll (singles (manyClasses n hn)))) : n ≤ 2 ^ 20 := by
  have hcondition := ((categorical_agree_iff id built_singles).mp h).resolve_left few_singles
  have hlen := hcondition.1
  rwa [pooled_singles, manyClasses, List.length_map, List.length_range] at hlen

end RasterH3.Sedona
