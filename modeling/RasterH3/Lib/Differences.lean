import Mathlib.Tactic

/-!
# Differences at a distance

`difference s l` subtracts from every entry the one `s` places before it, or nothing
where there is none. Adding to such a list its own copy shifted by `s` places gives
the differences at twice the distance (`difference_double`), and at a distance no
entry has a partner at, the differences are the list itself (`difference_of_length_le`).
So a list is recovered from its differences at distance one by doubling.
-/

namespace Differences

variable {α : Type} [AddCommGroup α]

def difference (s : Nat) (l : List α) : List α :=
  List.zipWith (· - ·) l (List.replicate s 0 ++ l)

/-- The list moved back by `s` places. -/
def shift (s : Nat) (l : List α) : List α := (List.replicate s 0 ++ l).take l.length

@[simp] theorem length_difference (s : Nat) (l : List α) :
    (difference s l).length = l.length := by
  simp [difference]

@[simp] theorem length_shift (s : Nat) (l : List α) : (shift s l).length = l.length := by
  simp [shift]

theorem getElem_difference_lt {s i : Nat} {l : List α} (hi : i < l.length) (his : i < s)
    (hd : i < (difference s l).length) : (difference s l)[i] = l[i] := by
  simp [difference, his]

theorem getElem_difference_ge {s i : Nat} {l : List α} (hi : i < l.length) (his : s ≤ i)
    (hd : i < (difference s l).length) : (difference s l)[i] = l[i] - l[i - s] := by
  simp [difference, List.getElem_append, Nat.not_lt.mpr his]

theorem difference_of_length_le {s : Nat} {l : List α} (h : l.length ≤ s) :
    difference s l = l := by
  apply List.ext_getElem (length_difference s l)
  intro i hd hi
  exact getElem_difference_lt hi (by omega) hd

theorem difference_double (s : Nat) (l : List α) :
    List.zipWith (· + ·) (difference s l) (shift s (difference s l)) = difference (s + s) l := by
  apply List.ext_getElem
  · simp
  intro i hi hdd
  have hil : i < l.length := by simpa using hi
  have hd : i < (difference s l).length := by simpa using hi
  have hs : i < (shift s (difference s l)).length := by simpa using hi
  rw [List.getElem_zipWith]
  rcases Nat.lt_or_ge i s with his | his
  · -- Nothing is shifted here.
    rw [getElem_difference_lt hil his hd, getElem_difference_lt hil (by omega) hdd]
    simp [shift, his]
  · have hback : i - s < (difference s l).length := by omega
    have hshift : (shift s (difference s l))[i] = (difference s l)[i - s] := by
      simp [shift, List.getElem_append, Nat.not_lt.mpr his]
    rw [hshift, getElem_difference_ge hil his hd]
    rcases Nat.lt_or_ge (i - s) s with hiss | hiss
    · rw [getElem_difference_lt (by omega) hiss hback, getElem_difference_lt hil (by omega) hdd,
        sub_add_cancel]
    · rw [getElem_difference_ge (by omega) hiss hback, getElem_difference_ge hil (by omega) hdd,
        sub_add_sub_cancel]
      congr 2
      omega

/-- What a part of a list adds up from: the entry before it. -/
def before (l : List α) (n : Nat) : α := if n = 0 then 0 else l[n - 1]?.getD 0

/-- A part of the differences, without what came before. -/
theorem difference_part (l : List α) (n k : Nat) :
    ((difference 1 l).drop n).take k =
      difference 1 (((l.drop n).take k).map (· - before l n)) := by
  apply List.ext_getElem
  · simp
  intro i hi hd
  have hik : i < k ∧ n + i < l.length := by
    simp only [List.length_take, List.length_drop, length_difference] at hi
    omega
  have hpart : i < (((l.drop n).take k).map (· - before l n)).length := by
    simpa using hd
  have hni : n + i < (difference 1 l).length := by
    rw [length_difference]
    exact hik.2
  rw [List.getElem_take, List.getElem_drop]
  rcases Nat.eq_zero_or_pos i with rfl | hpos
  · rw [getElem_difference_lt hpart Nat.one_pos hd, List.getElem_map, List.getElem_take,
      List.getElem_drop]
    rcases Nat.eq_zero_or_pos n with rfl | hn
    · rw [getElem_difference_lt hik.2 Nat.one_pos hni]
      exact (sub_zero _).symm
    · have hbefore : before l n = l[n - 1] := by
        rw [before, if_neg (by omega), List.getElem?_eq_getElem (by omega), Option.getD_some]
      rw [getElem_difference_ge hik.2 (by omega) hni]
      exact congrArg (fun a => l[n] - a) hbefore.symm
  · rw [getElem_difference_ge hik.2 (by omega) hni, getElem_difference_ge hpart (by omega) hd]
    simp only [List.getElem_map, List.getElem_take, List.getElem_drop, sub_sub_sub_cancel_right]
    congr 2
    omega

/-- Every list is the differences of a list. -/
theorem exists_difference {s : Nat} (hs : 0 < s) (l : List α) : ∃ x, difference s x = l := by
  induction l using List.reverseRecOn with
  | nil => exact ⟨[], rfl⟩
  | append_singleton l a ih =>
      obtain ⟨x, rfl⟩ := ih
      obtain ⟨b, hb⟩ : ∃ b, b = a + if x.length < s then 0 else x[x.length - s]?.getD 0 := ⟨_, rfl⟩
      refine ⟨x ++ [b], ?_⟩
      have hlen : (x ++ [b]).length = x.length + 1 := by simp
      apply List.ext_getElem
      · simp
      intro i hd hi
      have hix : i < (x ++ [b]).length := by simpa using hi
      have hisx : i - s < (x ++ [b]).length := by omega
      rcases Nat.lt_or_ge i x.length with hil | hil
      · have hself : (x ++ [b])[i] = x[i] := List.getElem_append_left hil
        have hdx : i < (difference s x).length := by simpa using hil
        rw [List.getElem_append_left hdx]
        rcases Nat.lt_or_ge i s with his | his
        · rw [getElem_difference_lt hix his hd, getElem_difference_lt hil his hdx, hself]
        · have hsx : i - s < x.length := by omega
          have hback : (x ++ [b])[i - s] = x[i - s] := List.getElem_append_left hsx
          rw [getElem_difference_ge hix his hd, getElem_difference_ge hil his hdx, hself, hback]
      · obtain rfl : i = x.length := by omega
        have hlast : (difference s x ++ [a])[x.length] = a := by
          simp
        rw [hlast]
        rcases Nat.lt_or_ge x.length s with his | his
        · rw [getElem_difference_lt hix his hd, List.getElem_concat_length rfl, hb, if_pos his,
            add_zero]
        · have hsx : x.length - s < x.length := by omega
          have hback : (x ++ [b])[x.length - s] = x[x.length - s] := List.getElem_append_left hsx
          rw [getElem_difference_ge hix his hd, List.getElem_concat_length rfl, hback, hb,
            if_neg (by omega), List.getElem?_eq_getElem hsx, Option.getD_some,
            add_sub_cancel_right]

end Differences
