import Mathlib.Data.List.Nodup
import Mathlib.Data.Nat.Log
import Mathlib.Tactic

/-!
# A hash table with its capacity

The standard library's hash map, as far as a program can see it: entries in
some order, no key twice, and a capacity. The order of the list is the
iteration order, which a program may not rely on; statements about tables
therefore compare them by lookup, never by their lists.

The capacity is what a memory budget is charged for, so it is modelled as the
allocator does it. Bucket counts are powers of two, an eighth of the buckets
(one of them, in the two smallest tables) stays empty, and a full table grows
to the least capacity with room for one more. The one fact all else rests on
is that capacities are exactly the values `capacityFor` takes, so that
`capacityFor n` is the least capacity that holds `n` entries.
-/

namespace HashTable

/-! ## Capacities -/

/-- The capacity of a fresh table for `n` entries. -/
def capacityFor (n : Nat) : Nat :=
  if n = 0 then 0
  else if n < 4 then 3
  else if n < 8 then 7
  else if n < 15 then 14
  else 2 ^ Nat.clog 2 (n * 8 / 7) / 8 * 7

def IsCapacity (c : Nat) : Prop := c = 0 ∨ c = 3 ∨ ∃ j, c = 7 * 2 ^ j

/-- Three buckets in eight, or seven: a power of two from 8 on splits evenly. -/
theorem eight_dvd_pow_clog {n : Nat} (h : 15 ≤ n) :
    ∃ j, 2 ^ Nat.clog 2 (n * 8 / 7) = 8 * 2 ^ j := by
  have hthree : 3 ≤ Nat.clog 2 (n * 8 / 7) := by
    by_contra hlt
    have hpow : 2 ^ Nat.clog 2 (n * 8 / 7) ≤ 2 ^ 2 :=
      Nat.pow_le_pow_right (by decide) (by omega)
    have := Nat.le_pow_clog (b := 2) (by decide) (n * 8 / 7)
    omega
  obtain ⟨j, hj⟩ := Nat.exists_eq_add_of_le hthree
  exact ⟨j, by rw [hj, Nat.pow_add]⟩

theorem isCapacity_capacityFor (n : Nat) : IsCapacity (capacityFor n) := by
  rw [capacityFor]
  split
  · exact .inl rfl
  split
  · exact .inr (.inl rfl)
  split
  · exact .inr (.inr ⟨0, rfl⟩)
  split
  · exact .inr (.inr ⟨1, rfl⟩)
  · obtain ⟨j, hj⟩ := eight_dvd_pow_clog (n := n) (by omega)
    exact .inr (.inr ⟨j, by rw [hj]; omega⟩)

theorem le_capacityFor (n : Nat) : n ≤ capacityFor n := by
  rw [capacityFor]
  split
  · omega
  split
  · omega
  split
  · omega
  split
  · omega
  · obtain ⟨j, hj⟩ := eight_dvd_pow_clog (n := n) (by omega)
    have := Nat.le_pow_clog (b := 2) (by decide) (n * 8 / 7)
    omega

theorem capacityFor_le {n c : Nat} (hc : IsCapacity c) (h : n ≤ c) : capacityFor n ≤ c := by
  rw [capacityFor]
  rcases hc with rfl | rfl | ⟨j, rfl⟩
  · simp [Nat.le_zero.mp h]
  · split
    · omega
    split
    · omega
    · omega
  · have hpos : 0 < 2 ^ j := Nat.two_pow_pos j
    split
    · omega
    split
    · omega
    split
    · omega
    split
    · next hlow _ =>
        -- Above 7 entries the table has at least 16 buckets.
        rcases j with _ | j
        · omega
        · have := Nat.two_pow_pos j
          rw [Nat.pow_succ] at h ⊢
          omega
    · have hle : n * 8 / 7 ≤ 2 ^ (3 + j) := by
        rw [Nat.pow_add]
        omega
      have hclog : Nat.clog 2 (n * 8 / 7) ≤ 3 + j :=
        Nat.clog_le_of_le_pow hle
      have hpow : 2 ^ Nat.clog 2 (n * 8 / 7) ≤ 2 ^ (3 + j) :=
        Nat.pow_le_pow_right (by decide) hclog
      rw [Nat.pow_add] at hpow
      omega

theorem capacityFor_mono {n m : Nat} (h : n ≤ m) : capacityFor n ≤ capacityFor m :=
  capacityFor_le (isCapacity_capacityFor m) (Nat.le_trans h (le_capacityFor m))

/-! ## Tables -/

/-- A table cannot be built with a repeated key, with more entries than its
capacity, or with a capacity the allocator never hands out. -/
structure Table (K V : Type) where
  entries : List (K × V)
  capacity : Nat
  nodup : (entries.map Prod.fst).Nodup
  fits : entries.length ≤ capacity
  isCapacity : IsCapacity capacity

namespace Table

variable {K V : Type}

def empty : Table K V := ⟨[], 0, List.nodup_nil, Nat.le_refl _, .inl rfl⟩

def withCapacity (n : Nat) : Table K V :=
  ⟨[], capacityFor n, List.nodup_nil, Nat.zero_le _, isCapacity_capacityFor n⟩

def len (t : Table K V) : Nat := t.entries.length

/-- The capacity after one more entry. -/
def grown (t : Table K V) : Nat :=
  if t.entries.length < t.capacity then t.capacity else capacityFor (t.capacity + 1)

theorem isCapacity_grown (t : Table K V) : IsCapacity t.grown := by
  rw [grown]
  split
  · exact t.isCapacity
  · exact isCapacity_capacityFor _

theorem len_lt_grown (t : Table K V) : t.entries.length < t.grown := by
  rw [grown]
  split
  · next h => exact h
  · have := t.fits
    have := le_capacityFor (t.capacity + 1)
    omega

variable [DecidableEq K]

def get? (t : Table K V) (k : K) : Option V := t.entries.lookup k

/-- The entries with `f` applied under `k`. -/
def mapAt (k : K) (f : V → V) (entries : List (K × V)) : List (K × V) :=
  entries.map fun p => if p.1 = k then (p.1, f p.2) else p

omit [DecidableEq K] in
theorem keys_append_nodup {entries : List (K × V)} {k : K} (v : V)
    (h : (entries.map Prod.fst).Nodup) (hk : k ∉ entries.map Prod.fst) :
    ((entries ++ [(k, v)]).map Prod.fst).Nodup := by
  rw [List.map_append]
  refine List.Nodup.append h (List.nodup_singleton k) ?_
  rw [List.disjoint_comm]
  simpa using hk

theorem keys_mapAt (k : K) (f : V → V) (entries : List (K × V)) :
    (mapAt k f entries).map Prod.fst = entries.map Prod.fst := by
  rw [mapAt, List.map_map]
  refine List.map_congr_left fun p _ => ?_
  by_cases h : p.1 = k <;> simp [h]

/-- `entry(k).or_insert(init)`, updated by `f`: an absent key is appended. -/
def upsert (t : Table K V) (k : K) (init : V) (f : V → V) : Table K V :=
  if h : k ∈ t.entries.map Prod.fst then
    ⟨mapAt k f t.entries, t.capacity, by rw [keys_mapAt]; exact t.nodup,
      by rw [mapAt, List.length_map]; exact t.fits, t.isCapacity⟩
  else
    ⟨t.entries ++ [(k, f init)], t.grown, keys_append_nodup _ t.nodup h,
      by have := t.len_lt_grown; simpa using this, t.isCapacity_grown⟩

theorem entries_upsert (t : Table K V) (k : K) (init : V) (f : V → V) :
    (t.upsert k init f).entries =
      if k ∈ t.entries.map Prod.fst then mapAt k f t.entries
      else t.entries ++ [(k, f init)] := by
  rw [upsert]
  split <;> rfl

/-- Every entry of a list upserted in turn: an absent key starts from
`init` of the entry's value, and `f` combines that value with what is there. -/
def upsertAll (init : V → V) (f : V → V → V) (t : Table K V) (entries : List (K × V)) :
    Table K V :=
  entries.foldl (fun t p => t.upsert p.1 (init p.2) (f p.2)) t

/-- What holds of every value, and is kept by an update, holds after it. -/
theorem forall_mapAt {P : V → Prop} {k : K} {f : V → V} {entries : List (K × V)}
    (h : ∀ p ∈ entries, P p.2) (hf : ∀ v, P v → P (f v)) : ∀ p ∈ mapAt k f entries, P p.2 := by
  intro p hp
  obtain ⟨q, hq, rfl⟩ := List.mem_map.mp hp
  split
  · exact hf q.2 (h q hq)
  · exact h q hq

theorem forall_upsert {P : V → Prop} {t : Table K V} {k : K} {init : V} {f : V → V}
    (h : ∀ p ∈ t.entries, P p.2) (hinit : P (f init)) (hf : ∀ v, P v → P (f v)) :
    ∀ p ∈ (t.upsert k init f).entries, P p.2 := by
  rw [entries_upsert]
  split
  · exact forall_mapAt h hf
  · intro p hp
    rcases List.mem_append.mp hp with hold | hnew
    · exact h p hold
    · rw [List.mem_singleton.mp hnew]
      exact hinit

theorem forall_upsertAll {P : V → Prop} {init : V → V} {f : V → V → V} {t : Table K V}
    {entries : List (K × V)} (h : ∀ p ∈ t.entries, P p.2)
    (hentries : ∀ p ∈ entries, P (f p.2 (init p.2)) ∧ ∀ v, P v → P (f p.2 v)) :
    ∀ p ∈ (t.upsertAll init f entries).entries, P p.2 := by
  induction entries generalizing t with
  | nil => exact h
  | cons p entries ih =>
    obtain ⟨hinit, hf⟩ := hentries p List.mem_cons_self
    exact ih (forall_upsert h hinit hf) fun q hq => hentries q (List.mem_cons_of_mem p hq)

/-- `insert` of every entry of a list. -/
def insertAll (t : Table K V) (entries : List (K × V)) : Table K V :=
  t.upsertAll id (fun v _ => v) entries

/-! ## Lookup -/

theorem lookup_cons (p : K × V) (entries : List (K × V)) (k : K) :
    (p :: entries).lookup k = if p.1 = k then some p.2 else entries.lookup k := by
  by_cases h : p.1 = k
  · rw [if_pos h, ← h, List.lookup_cons_self]
  · rw [if_neg h, List.lookup_cons, beq_eq_false_iff_ne.mpr (Ne.symm h)]

theorem lookup_eq_none {entries : List (K × V)} {k : K} :
    entries.lookup k = none ↔ k ∉ entries.map Prod.fst := by
  induction entries with
  | nil => simp
  | cons p entries ih =>
      rw [lookup_cons, List.map_cons, List.mem_cons]
      by_cases h : p.1 = k
      · simp [h]
      · simp [h, Ne.symm h, ih]

theorem lookup_mapAt (k k' : K) (f : V → V) (entries : List (K × V)) :
    (mapAt k f entries).lookup k' =
      if k = k' then (entries.lookup k').map f else entries.lookup k' := by
  induction entries with
  | nil => simp [mapAt]
  | cons p entries ih =>
      rw [mapAt, List.map_cons, ← mapAt, lookup_cons, lookup_cons, ih]
      by_cases hpk : p.1 = k
      · rw [if_pos hpk]
        by_cases hk : k = k'
        · simp [hk, hpk]
        · simp [hk, hpk]
      · rw [if_neg hpk]
        by_cases hp : p.1 = k'
        · have hk : k ≠ k' := fun h => hpk (hp.trans h.symm)
          simp [hp, hk]
        · simp [hp]

@[simp] theorem get?_upsert (t : Table K V) (k k' : K) (init : V) (f : V → V) :
    (t.upsert k init f).get? k' =
      if k = k' then some (f ((t.get? k').getD init)) else t.get? k' := by
  rw [upsert, get?]
  split
  · next hmem =>
      simp only [lookup_mapAt, get?]
      split
      · next heq =>
          subst heq
          obtain ⟨v, hv⟩ : ∃ v, t.entries.lookup k = some v := by
            rw [← Option.ne_none_iff_exists', ne_eq, lookup_eq_none]
            exact fun h => h hmem
          simp [hv]
      · rfl
  · next hmem =>
      rw [List.lookup_append]
      by_cases heq : k = k'
      · subst heq
        simp [get?, lookup_eq_none.mpr hmem]
      · simp [heq, get?, lookup_cons]

/-! ## Keys, length and capacity -/

theorem mem_keys_upsert {t : Table K V} {k k' : K} {init : V} {f : V → V} :
    k' ∈ (t.upsert k init f).entries.map Prod.fst ↔
      k' = k ∨ k' ∈ t.entries.map Prod.fst := by
  rw [upsert]
  split
  · next hmem =>
      rw [keys_mapAt]
      exact ⟨.inr, fun h => h.elim (fun h => h ▸ hmem) id⟩
  · rw [List.map_append, List.mem_append, List.map_singleton, List.mem_singleton]
    exact or_comm

theorem mem_keys_upsertAll {init : V → V} {f : V → V → V} {k : K} :
    ∀ {entries : List (K × V)} {t : Table K V},
      k ∈ (t.upsertAll init f entries).entries.map Prod.fst ↔
        k ∈ t.entries.map Prod.fst ∨ k ∈ entries.map Prod.fst := by
  intro entries
  induction entries with
  | nil => intro t; simp [upsertAll]
  | cons p entries ih =>
      intro t
      rw [upsertAll, List.foldl_cons, ← upsertAll, ih, mem_keys_upsert, List.map_cons,
        List.mem_cons]
      tauto

omit [DecidableEq K] in
/-- The length of a table is a matter of its keys alone. -/
theorem len_eq_of_keys {t t' : Table K V}
    (h : ∀ k, k ∈ t.entries.map Prod.fst ↔ k ∈ t'.entries.map Prod.fst) :
    t.len = t'.len := by
  have hperm := (List.perm_ext_iff_of_nodup t.nodup t'.nodup).mpr h
  simpa [len] using hperm.length_eq

theorem len_le_upsert (t : Table K V) (k : K) (init : V) (f : V → V) :
    t.len ≤ (t.upsert k init f).len := by
  rw [upsert]
  split
  · simp [len, mapAt]
  · simp [len]

theorem capacity_upsert (t : Table K V) (k : K) (init : V) (f : V → V) :
    (t.upsert k init f).capacity =
      max t.capacity (capacityFor (t.upsert k init f).len) := by
  rw [upsert]
  split
  · have hle : capacityFor t.entries.length ≤ t.capacity := capacityFor_le t.isCapacity t.fits
    simp only [len, mapAt, List.length_map]
    omega
  · simp only [len, grown, List.length_append, List.length_singleton]
    split
    · next hroom =>
        have hle : capacityFor (t.entries.length + 1) ≤ t.capacity :=
          capacityFor_le t.isCapacity hroom
        omega
    · next hfull =>
        have hfits := t.fits
        have heq : t.entries.length = t.capacity := by omega
        have hle := le_capacityFor (t.capacity + 1)
        rw [heq]
        omega

theorem capacity_upsertAll (init : V → V) (f : V → V → V) :
    ∀ (entries : List (K × V)) (t : Table K V),
      t.len ≤ (t.upsertAll init f entries).len ∧
      (t.upsertAll init f entries).capacity =
        max t.capacity (capacityFor (t.upsertAll init f entries).len) := by
  intro entries
  induction entries with
  | nil =>
      intro t
      have hle : capacityFor t.len ≤ t.capacity := capacityFor_le t.isCapacity t.fits
      exact ⟨Nat.le_refl _, (Nat.max_eq_left hle).symm⟩
  | cons p entries ih =>
      intro t
      obtain ⟨hlen, hcap⟩ := ih (t.upsert p.1 (init p.2) (f p.2))
      have hle := len_le_upsert t p.1 (init p.2) (f p.2)
      have hstep := capacity_upsert t p.1 (init p.2) (f p.2)
      have hmono := capacityFor_mono hlen
      rw [upsertAll, List.foldl_cons, ← upsertAll]
      exact ⟨Nat.le_trans hle hlen, by omega⟩

theorem len_upsert_le (t : Table K V) (k : K) (init : V) (f : V → V) :
    (t.upsert k init f).len ≤ t.len + 1 := by
  rw [upsert]
  split
  next => simp [len, mapAt]
  next => simp [len]

theorem len_insertAll_le (entries : List (K × V)) (t : Table K V) :
    (t.insertAll entries).len ≤ t.len + entries.length := by
  induction entries generalizing t with
  | nil => exact Nat.le_refl _
  | cons p entries ih =>
      have hstep := len_upsert_le t p.1 p.2 fun _ => p.2
      have hrest := ih (t.upsert p.1 p.2 fun _ => p.2)
      show ((t.upsert p.1 p.2 fun _ => p.2).insertAll entries).len ≤ _
      rw [List.length_cons]
      omega

/-- Two tables with the same keys, the first no larger, stay so under entries
with the same keys. -/
theorem capacity_upsertAll_le {init : V → V} {f : V → V → V} {t t' : Table K V}
    {entries entries' : List (K × V)}
    (hkeys : ∀ k, k ∈ t'.entries.map Prod.fst ↔ k ∈ t.entries.map Prod.fst)
    (hcap : t'.capacity ≤ t.capacity)
    (hentries : ∀ k, k ∈ entries'.map Prod.fst ↔ k ∈ entries.map Prod.fst) :
    (t'.upsertAll init f entries').capacity ≤ (t.upsertAll init f entries).capacity := by
  have hlen : (t'.upsertAll init f entries').len = (t.upsertAll init f entries).len :=
    len_eq_of_keys fun k => by
      rw [mem_keys_upsertAll, mem_keys_upsertAll, hkeys, hentries]
  rw [(capacity_upsertAll init f entries' t').2, (capacity_upsertAll init f entries t).2, hlen]
  omega

/-! ## A table read back

Inserting the entries of a table into an empty one gives the same entries, in
the least capacity that holds them. -/

theorem insertAll_entries :
    ∀ (entries : List (K × V)) (t : Table K V),
      ((t.entries ++ entries).map Prod.fst).Nodup →
      (t.insertAll entries).entries = t.entries ++ entries := by
  intro entries
  induction entries with
  | nil => intro t _; simp [insertAll, upsertAll]
  | cons p entries ih =>
      intro t hnodup
      have hfresh : p.1 ∉ t.entries.map Prod.fst := by
        rw [List.map_append, List.map_cons, List.nodup_append] at hnodup
        exact fun hmem => hnodup.2.2 _ hmem _ List.mem_cons_self rfl
      have hstep : (t.upsert p.1 p.2 fun _ => p.2).entries = t.entries ++ [p] := by
        rw [upsert, dif_neg hfresh]
      have hrest := ih (t.upsert p.1 p.2 fun _ => p.2) (by rw [hstep]; simpa using hnodup)
      rw [hstep] at hrest
      simpa [insertAll, upsertAll] using hrest

def rebuilt (t : Table K V) : Table K V := empty.insertAll t.entries

@[simp] theorem rebuilt_entries (t : Table K V) : t.rebuilt.entries = t.entries := by
  have := insertAll_entries t.entries empty (by simpa [empty] using t.nodup)
  simpa [rebuilt, empty] using this

@[simp] theorem rebuilt_len (t : Table K V) : t.rebuilt.len = t.len := by
  rw [len, rebuilt_entries, len]

@[simp] theorem get?_rebuilt (t : Table K V) (k : K) : t.rebuilt.get? k = t.get? k := by
  rw [get?, rebuilt_entries, get?]

theorem rebuilt_capacity (t : Table K V) : t.rebuilt.capacity = capacityFor t.len := by
  rw [rebuilt, insertAll, (capacity_upsertAll id _ t.entries empty).2,
    ← insertAll, ← rebuilt, rebuilt_len]
  exact Nat.max_eq_right (Nat.zero_le _)

theorem rebuilt_capacity_le (t : Table K V) : t.rebuilt.capacity ≤ t.capacity := by
  rw [rebuilt_capacity]
  exact capacityFor_le t.isCapacity t.fits

end Table

end HashTable
