import Mathlib.Data.List.Perm.Basic
import Mathlib.Data.List.Nodup

/-!
# Playing a list through

One entry holds the place; each later one takes it when it beats the holder. If
of two different entries always exactly one beats the other, the order of play
decides who holds the place in the end, with one exception: a champion, who
beats every other entry, always does. So a list without a champion has two
orders with different ends.

In one order the place is held in the end by whoever beats all that come later
and has beaten the holder at its turn. Those that it loses to have then all come
earlier, and each has lost the place again.
-/

namespace Ladder

variable {α : Type*} {beats : α → α → Prop} [DecidableRel beats]

def play (beats : α → α → Prop) [DecidableRel beats] (holder : α) (rest : List α) : α :=
  rest.foldl (fun holder x => if beats x holder then x else holder) holder

@[simp] theorem play_nil (holder : α) : play beats holder [] = holder := rfl

@[simp] theorem play_cons (holder x : α) (rest : List α) :
    play beats holder (x :: rest) = play beats (if beats x holder then x else holder) rest := rfl

def Champion (beats : α → α → Prop) (l : List α) (w : α) : Prop :=
  w ∈ l ∧ ∀ x ∈ l, x ≠ w → beats w x

omit [DecidableRel beats] in
theorem Champion.perm {l l' : List α} {w : α} (h : Champion beats l w) (hperm : l.Perm l') :
    Champion beats l' w :=
  ⟨hperm.mem_iff.mp h.1, fun x hx => h.2 x (hperm.mem_iff.mpr hx)⟩

/-- Of two different entries exactly one beats the other, and none beats itself. -/
structure Decisive (beats : α → α → Prop) (l : List α) : Prop where
  asymm : ∀ x y, beats x y → ¬ beats y x
  total : ∀ x ∈ l, ∀ y ∈ l, x ≠ y → beats x y ∨ beats y x

theorem play_mem (holder : α) (rest : List α) : play beats holder rest ∈ holder :: rest := by
  induction rest generalizing holder with
  | nil => exact List.mem_singleton_self _
  | cons x rest ih =>
    rw [play_cons]
    split
    · exact List.mem_cons_of_mem _ (ih x)
    · rcases List.mem_cons.mp (ih holder) with heq | hmem
      · rw [heq]
        exact List.mem_cons_self
      · exact List.mem_cons_of_mem _ (List.mem_cons_of_mem _ hmem)

theorem play_of_champion {holder w : α} {rest : List α} (hasymm : ∀ x y, beats x y → ¬ beats y x)
    (h : Champion beats (holder :: rest) w) : play beats holder rest = w := by
  have hunbeaten : ∀ x ∈ holder :: rest, ¬ beats x w := by
    intro x hx hxw
    by_cases heq : x = w
    · subst heq
      exact hasymm x x hxw hxw
    · exact hasymm x w hxw (h.2 x hx heq)
  induction rest generalizing holder with
  | nil => exact (List.mem_singleton.mp h.1).symm
  | cons x rest ih =>
    obtain ⟨hmem, hbeats⟩ := h
    have hsub : ∀ y ∈ [holder, x], ∀ z ∈ y :: rest, z ∈ holder :: x :: rest := by
      simp only [List.mem_cons, List.not_mem_nil, or_false]
      rintro y hy z (rfl | hz)
      · exact hy.imp_right .inl
      · exact .inr (.inr hz)
    rw [play_cons]
    split
    next hx =>
      have hne : w ≠ holder := by
        rintro rfl
        exact hunbeaten x (List.mem_cons_of_mem _ List.mem_cons_self) hx
      have hin := hsub x (List.mem_cons_of_mem _ List.mem_cons_self)
      exact ih ⟨List.mem_of_ne_of_mem hne hmem, fun z hz => hbeats z (hin z hz)⟩
        fun z hz => hunbeaten z (hin z hz)
    next hx =>
      have hin := hsub holder List.mem_cons_self
      refine ih ⟨?_, fun z hz => hbeats z (hin z hz)⟩ fun z hz => hunbeaten z (hin z hz)
      rcases List.mem_cons.mp hmem with rfl | hmem
      · exact List.mem_cons_self
      rcases List.mem_cons.mp hmem with rfl | hmem
      · have heq : holder = w := by
          by_contra hne
          exact hx (hbeats holder List.mem_cons_self hne)
        rw [heq]
        exact List.mem_cons_self
      · exact List.mem_cons_of_mem _ hmem

/-- Who has lost the place does not get it back. -/
theorem play_ne_of_beaten {w x : α} {rest : List α} (hx : beats x w) (hw : w ∉ x :: rest) :
    play beats w (x :: rest) ≠ w := by
  rw [play_cons, if_pos hx]
  intro heq
  have hmem : play beats x rest ∈ x :: rest := play_mem x rest
  rw [heq] at hmem
  exact hw hmem

theorem play_eq_self_iff {w : α} {rest : List α} (hw : w ∉ rest) :
    play beats w rest = w ↔ ∀ x ∈ rest, ¬ beats x w := by
  induction rest with
  | nil => simp
  | cons x rest ih =>
    by_cases hx : beats x w
    · exact iff_of_false (play_ne_of_beaten hx hw) fun h => h x List.mem_cons_self hx
    · rw [play_cons, if_neg hx, ih fun hmem => hw (List.mem_cons_of_mem _ hmem),
        List.forall_mem_cons]
      exact (and_iff_right hx).symm

/-- Who holds the place in the end. -/
def leader (beats : α → α → Prop) [DecidableRel beats] : List α → Option α
  | [] => none
  | holder :: rest => some (play beats holder rest)

theorem leader_mem {l : List α} {w : α} (h : leader beats l = some w) : w ∈ l := by
  cases l with
  | nil => cases h
  | cons holder rest => exact Option.some.inj h ▸ play_mem holder rest

/-- At its turn an entry takes the place or leaves it. -/
theorem leader_append_cons (before after : List α) (w : α) :
    leader beats (before ++ w :: after) =
      some (play beats ((leader beats before).elim w fun holder =>
        if beats w holder then w else holder) after) := by
  cases before with
  | nil => rfl
  | cons holder before =>
    rw [List.cons_append, leader, play, List.foldl_append, List.foldl_cons]
    rfl

theorem leader_append_cons_eq_iff {before after : List α} {w : α}
    (hnodup : (before ++ w :: after).Nodup) :
    leader beats (before ++ w :: after) = some w ↔
      (∀ holder, leader beats before = some holder → beats w holder) ∧
        ∀ x ∈ after, ¬ beats x w := by
  obtain ⟨-, hafter, hapart⟩ := List.nodup_append.mp hnodup
  have hw : w ∉ after := (List.nodup_cons.mp hafter).1
  rw [leader_append_cons, Option.some_inj]
  cases hbefore : leader beats before with
  | none =>
    rw [Option.elim_none, play_eq_self_iff hw]
    exact (and_iff_right nofun).symm
  | some holder =>
    have hne : holder ≠ w := hapart holder (leader_mem hbefore) w List.mem_cons_self
    rw [Option.elim_some]
    by_cases hbeats : beats w holder
    · rw [if_pos hbeats, play_eq_self_iff hw]
      exact (and_iff_right fun x hx => Option.some.inj hx ▸ hbeats).symm
    · rw [if_neg hbeats]
      refine iff_of_false (fun heq => ?_) fun h => hbeats (h.1 holder rfl)
      have hmem : play beats holder after ∈ holder :: after := play_mem holder after
      rw [heq] at hmem
      exact (List.mem_cons.mp hmem).elim (fun h => hne h.symm) hw

theorem leader_of_champion {l : List α} {w : α} (hasymm : ∀ x y, beats x y → ¬ beats y x)
    (h : Champion beats l w) : leader beats l = some w := by
  cases l with
  | nil => cases h.1
  | cons holder rest => exact congrArg some (play_of_champion hasymm h)

/-- One and the same end in every order of play, exactly if there is a champion. -/
theorem play_same_iff {l : List α} (hne : l ≠ []) (hnodup : l.Nodup) (hdec : Decisive beats l)
    (w : α) :
    (∀ holder rest, (holder :: rest).Perm l → play beats holder rest = w) ↔
      Champion beats l w := by
  constructor
  · intro hsame
    have hw : w ∈ l := by
      cases l with
      | nil => exact absurd rfl hne
      | cons holder rest => exact hsame holder rest (List.Perm.refl _) ▸ play_mem holder rest
    refine ⟨hw, fun x hx hxw => ?_⟩
    by_contra hlose
    have hbeats := (hdec.total x hx w hw hxw).resolve_right hlose
    -- play `w` first and `x` next
    classical
    have hperm : (w :: x :: (l.erase w).erase x).Perm l :=
      ((List.perm_cons_erase ((List.mem_erase_of_ne hxw).mpr hx)).symm.cons w).trans
        (List.perm_cons_erase hw).symm
    have hout := (List.nodup_cons.mp (hperm.nodup_iff.mpr hnodup)).1
    exact play_ne_of_beaten hbeats hout (hsame w _ hperm)
  · intro hchampion holder rest hperm
    exact play_of_champion hdec.asymm (hchampion.perm hperm.symm)

end Ladder
