import RasterH3.Lib.HashTable
import Mathlib.Algebra.Group.Defs
import Mathlib.Data.List.Perm.Basic

/-!
# Pooling entries

Entries poured into a pool one after the other leave one entry for each key, with the sum of what
came under it. Where the keys stand is decided by which came first. So in another order the same
entries leave the same pool up to the order of its keys, and a list that begins with other entries
has other keys in front.

A pool can be poured into another, entry by entry, and that is the same as pouring in what the
pool was made of. The sums have been formed in another order then, but the keys arrive in the same
one. This is why it does not matter in how many steps a list is pooled, as long as the steps take
it from left to right.
-/

namespace Pools

open HashTable

variable {K V : Type} [DecidableEq K]

def pour [Add V] (pool : List (K × V)) (p : K × V) : List (K × V) :=
  if p.1 ∈ pool.map Prod.fst then Table.mapAt p.1 (· + p.2) pool else pool ++ [p]

def pourAll [Add V] (pool entries : List (K × V)) : List (K × V) := entries.foldl pour pool

def pool [Add V] (entries : List (K × V)) : List (K × V) := pourAll [] entries

section Keys

variable [Add V]

theorem pour_of_mem {C : List (K × V)} {p : K × V} (h : p.1 ∈ C.map Prod.fst) :
    pour C p = Table.mapAt p.1 (· + p.2) C := if_pos h

theorem pour_of_not_mem {C : List (K × V)} {p : K × V} (h : p.1 ∉ C.map Prod.fst) :
    pour C p = C ++ [p] := if_neg h

theorem pourAll_append (C l m : List (K × V)) :
    pourAll C (l ++ m) = pourAll (pourAll C l) m := List.foldl_append

theorem keys_pour (C : List (K × V)) (p : K × V) :
    (pour C p).map Prod.fst =
      if p.1 ∈ C.map Prod.fst then C.map Prod.fst else C.map Prod.fst ++ [p.1] := by
  rw [pour]
  split
  next => rw [Table.keys_mapAt]
  next => rw [List.map_append, List.map_singleton]

theorem mem_keys_pour {C : List (K × V)} {p : K × V} {k : K} :
    k ∈ (pour C p).map Prod.fst ↔ k ∈ C.map Prod.fst ∨ k = p.1 := by
  rw [keys_pour]
  split
  next hmem =>
    refine ⟨.inl, fun h => h.elim id ?_⟩
    rintro rfl
    exact hmem
  next => rw [List.mem_append, List.mem_singleton]

theorem nodup_pour {C : List (K × V)} (h : (C.map Prod.fst).Nodup) (p : K × V) :
    ((pour C p).map Prod.fst).Nodup := by
  rw [pour]
  split
  next => rwa [Table.keys_mapAt]
  next hmem => exact Table.keys_append_nodup p.2 h hmem

theorem nodup_pourAll {C : List (K × V)} (h : (C.map Prod.fst).Nodup) (l : List (K × V)) :
    ((pourAll C l).map Prod.fst).Nodup := by
  induction l generalizing C with
  | nil => exact h
  | cons p l ih => exact ih (nodup_pour h p)

theorem mem_keys_pourAll {C l : List (K × V)} {k : K} :
    k ∈ (pourAll C l).map Prod.fst ↔ k ∈ C.map Prod.fst ∨ k ∈ l.map Prod.fst := by
  induction l generalizing C with
  | nil => simp [pourAll]
  | cons p l ih =>
    rw [pourAll, List.foldl_cons, ← pourAll, ih, mem_keys_pour, List.map_cons, List.mem_cons,
      or_assoc]

theorem nodup_pool (l : List (K × V)) : ((pool l).map Prod.fst).Nodup :=
  @nodup_pourAll _ _ _ _ [] List.nodup_nil l

theorem mem_keys_pool {l : List (K × V)} {k : K} :
    k ∈ (pool l).map Prod.fst ↔ k ∈ l.map Prod.fst := by
  rw [pool, mem_keys_pourAll]
  exact or_iff_right List.not_mem_nil

/-- What is in the pool already keeps its place. -/
theorem keys_pourAll (C l : List (K × V)) :
    ∃ more, (pourAll C l).map Prod.fst = C.map Prod.fst ++ more := by
  induction l generalizing C with
  | nil => exact ⟨[], (List.append_nil _).symm⟩
  | cons p l ih =>
    obtain ⟨more, hmore⟩ := ih (pour C p)
    rw [keys_pour] at hmore
    split at hmore
    next => exact ⟨more, hmore⟩
    next => exact ⟨p.1 :: more, by rw [pourAll, List.foldl_cons, ← pourAll, hmore]; simp⟩

/-- Entries under different keys are what they leave. -/
theorem pourAll_fresh {C l : List (K × V)} (h : ((C ++ l).map Prod.fst).Nodup) :
    pourAll C l = C ++ l := by
  induction l generalizing C with
  | nil => exact (List.append_nil C).symm
  | cons p l ih =>
    have hfresh : p.1 ∉ C.map Prod.fst := by
      rw [List.map_append, List.map_cons, List.nodup_append] at h
      exact fun hmem => h.2.2 _ hmem _ List.mem_cons_self rfl
    rw [pourAll, List.foldl_cons, ← pourAll, pour, if_neg hfresh, ih (by simpa using h),
      List.append_assoc, List.singleton_append]

theorem pool_of_nodup {l : List (K × V)} (h : (l.map Prod.fst).Nodup) : pool l = l :=
  pourAll_fresh (C := []) h

/-- A key stands behind those that were there before it. -/
theorem keys_pool_append_cons {l : List (K × V)} {p : K × V} (h : p.1 ∉ l.map Prod.fst)
    (m : List (K × V)) :
    ∃ more, (pool (l ++ p :: m)).map Prod.fst = (pool l).map Prod.fst ++ p.1 :: more := by
  obtain ⟨more, hmore⟩ := keys_pourAll (pour (pool l) p) m
  have hfresh : p.1 ∉ (pool l).map Prod.fst := fun hmem => h (mem_keys_pool.mp hmem)
  refine ⟨more, ?_⟩
  rw [pool, pourAll_append]
  refine hmore.trans ?_
  rw [pour_of_not_mem hfresh]
  simp

end Keys

section Sums

theorem mapAt_of_not_mem {k : K} {C : List (K × V)} (h : k ∉ C.map Prod.fst) (f : V → V) :
    Table.mapAt k f C = C := by
  conv_rhs => rw [← List.map_id C]
  refine List.map_congr_left fun p hp => if_neg ?_
  rintro rfl
  exact h (List.mem_map_of_mem hp)

theorem mapAt_append (k : K) (f : V → V) (C D : List (K × V)) :
    Table.mapAt k f (C ++ D) = Table.mapAt k f C ++ Table.mapAt k f D := List.map_append

variable [AddCommSemigroup V]

theorem mapAt_add (k : K) (v w : V) (C : List (K × V)) :
    Table.mapAt k (· + w) (Table.mapAt k (· + v) C) = Table.mapAt k (· + (v + w)) C := by
  simp only [Table.mapAt, List.map_map]
  refine List.map_congr_left fun p _ => ?_
  by_cases hk : p.1 = k
  · simp [hk, add_assoc]
  · simp [hk]

theorem mapAt_comm (k k' : K) (v w : V) (C : List (K × V)) :
    Table.mapAt k' (· + w) (Table.mapAt k (· + v) C) =
      Table.mapAt k (· + v) (Table.mapAt k' (· + w) C) := by
  simp only [Table.mapAt, List.map_map]
  refine List.map_congr_left fun p _ => ?_
  by_cases hk : p.1 = k
  · subst hk
    by_cases hk' : p.1 = k'
    · simp [hk', add_right_comm]
    · simp [hk']
  · by_cases hk' : p.1 = k'
    · subst hk'
      simp [hk]
    · simp [hk, hk']

/-- Two entries for one key are one with their sum. -/
theorem pour_pour (C : List (K × V)) (k : K) (v w : V) :
    pour (pour C (k, v)) (k, w) = pour C (k, v + w) := by
  rw [pour, if_pos (mem_keys_pour.mpr (.inr rfl)), pour, pour]
  split
  next => exact mapAt_add k v w C
  next hmem =>
    rw [mapAt_append, mapAt_of_not_mem hmem]
    simp [Table.mapAt]

/-- An entry for a key that is there can wait. -/
theorem pour_comm {C : List (K × V)} {p : K × V} (h : p.1 ∈ C.map Prod.fst) (q : K × V) :
    pour (pour C p) q = pour (pour C q) p := by
  have hkeys : (Table.mapAt p.1 (· + p.2) C).map Prod.fst = C.map Prod.fst :=
    Table.keys_mapAt _ _ C
  rw [pour_of_mem h, pour_of_mem (mem_keys_pour.mpr (.inl h))]
  by_cases hmem : q.1 ∈ C.map Prod.fst
  · rw [pour_of_mem hmem, pour_of_mem (hkeys ▸ hmem)]
    exact mapAt_comm p.1 q.1 p.2 q.2 C
  · have hne : q.1 ≠ p.1 := fun heq => hmem (heq ▸ h)
    rw [pour_of_not_mem hmem, pour_of_not_mem (hkeys ▸ hmem), mapAt_append]
    simp [Table.mapAt, hne]

theorem pourAll_pour {C : List (K × V)} {p : K × V} (h : p.1 ∈ C.map Prod.fst)
    (l : List (K × V)) : pourAll (pour C p) l = pour (pourAll C l) p := by
  induction l generalizing C with
  | nil => rfl
  | cons q l ih =>
    rw [pourAll, List.foldl_cons, pour_comm h, ← pourAll, ih (mem_keys_pour.mpr (.inl h))]
    rfl

/-- A pool that has received one more entry is poured like the pool, and then the entry. -/
theorem pourAll_pour_right (C : List (K × V)) {B : List (K × V)} (h : (B.map Prod.fst).Nodup)
    (p : K × V) : pourAll C (pour B p) = pour (pourAll C B) p := by
  induction B generalizing C with
  | nil => rfl
  | cons q B ih =>
    rw [List.map_cons, List.nodup_cons] at h
    by_cases hq : q.1 = p.1
    · have hfirst : pour (q :: B) p = (q.1, q.2 + p.2) :: B := by
        rw [pour, if_pos (by simp [hq]), ← hq]
        rw [show q :: B = [q] ++ B from rfl, mapAt_append, mapAt_of_not_mem h.1]
        simp [Table.mapAt]
      have hsplit : pour C (q.1, q.2 + p.2) = pour (pour C q) p := by
        rw [← pour_pour, hq]
        congr 1
        exact congrArg (pour C) (Prod.ext hq.symm rfl)
      rw [hfirst, pourAll, List.foldl_cons, hsplit, ← pourAll,
        pourAll_pour (mem_keys_pour.mpr (.inr hq.symm))]
      rfl
    · have hrest : pour (q :: B) p = q :: pour B p := by
        by_cases hmem : p.1 ∈ B.map Prod.fst
        · rw [pour_of_mem (List.mem_cons_of_mem _ hmem), pour_of_mem hmem]
          simp [Table.mapAt, hq]
        · rw [pour_of_not_mem hmem, pour_of_not_mem]
          · rfl
          · rw [List.map_cons, List.mem_cons]
            exact not_or.mpr ⟨Ne.symm hq, hmem⟩
      rw [hrest]
      exact ih (pour C q) h.2

theorem pourAll_pool (C l : List (K × V)) : pourAll C (pool l) = pourAll C l := by
  induction l using List.reverseRecOn with
  | nil => rfl
  | append_singleton l p ih =>
    rw [pool, pourAll_append, pourAll_append, ← ih]
    exact pourAll_pour_right C (nodup_pool l) p

theorem pool_append (l m : List (K × V)) : pourAll (pool l) (pool m) = pool (l ++ m) := by
  rw [pourAll_pool, pool, pool, pourAll_append]

/-! ## Other orders -/

theorem pour_perm {C D : List (K × V)} (h : C.Perm D) (p : K × V) : (pour C p).Perm (pour D p) := by
  by_cases hmem : p.1 ∈ C.map Prod.fst
  · rw [pour_of_mem hmem, pour_of_mem ((h.map Prod.fst).mem_iff.mp hmem)]
    exact h.map _
  · rw [pour_of_not_mem hmem, pour_of_not_mem fun hD => hmem ((h.map Prod.fst).mem_iff.mpr hD)]
    exact h.append_right [p]

theorem pourAll_perm {C D : List (K × V)} (h : C.Perm D) (l : List (K × V)) :
    (pourAll C l).Perm (pourAll D l) := by
  induction l generalizing C D with
  | nil => exact h
  | cons p l ih => exact ih (pour_perm h p)

theorem pour_swap (C : List (K × V)) (p q : K × V) :
    (pour (pour C p) q).Perm (pour (pour C q) p) := by
  by_cases hp : p.1 ∈ C.map Prod.fst
  · rw [pour_comm hp]
  by_cases hq : q.1 ∈ C.map Prod.fst
  · rw [pour_comm hq]
  obtain ⟨k, v⟩ := p
  obtain ⟨k', w⟩ := q
  by_cases heq : k = k'
  · subst heq
    rw [pour_pour, pour_pour, add_comm]
  · have hfresh : ∀ {a b : K × V}, a.1 ∉ C.map Prod.fst → b.1 ∉ C.map Prod.fst → a.1 ≠ b.1 →
        pour (pour C a) b = C ++ [a, b] := by
      intro a b ha hb hne
      rw [pour.eq_def C, if_neg ha, pour, if_neg (by simp_all [Ne.symm hne])]
      simp
    rw [hfresh hp hq heq, hfresh hq hp (Ne.symm heq)]
    exact (List.Perm.swap _ _ []).append_left C

theorem pourAll_of_perm {l m : List (K × V)} (h : l.Perm m) (C : List (K × V)) :
    (pourAll C l).Perm (pourAll C m) := by
  induction h generalizing C with
  | nil => exact .refl _
  | cons p _ ih => exact ih (pour C p)
  | swap p q l => exact pourAll_perm (pour_swap C q p) l
  | trans _ _ ih ih' => exact (ih C).trans (ih' C)

theorem pool_perm {l m : List (K × V)} (h : l.Perm m) : (pool l).Perm (pool m) :=
  pourAll_of_perm h []

end Sums

end Pools
