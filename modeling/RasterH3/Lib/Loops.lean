import Mathlib.Tactic

/-!
# Loops over buffers

A buffer is a list, an access outside of it is `none`, and so is a loop with such an
access in one of its turns. A loop that is `some` has stayed inside its buffers.

`forRange_rule` is the invariant rule. The other rules are for the loops that go
through a buffer from front to back: element by element (`fillEach_eq`), or in rows of
one length, each of which the body replaces (`forRows`). The last section is about lists that
are mapped by a function that may fail.
-/

namespace Loops

variable {α σ : Type}

/-- `for i in a..b`. -/
def forRange (a b : Nat) (body : Nat → σ → Option σ) (s : σ) : Option σ :=
  (List.range' a (b - a)).foldlM (fun s i => body i s) s

theorem forRange_rule {body : Nat → σ → Option σ} (I : Nat → σ → Prop) {a b : Nat} {s : σ}
    (hstart : I a s)
    (hturn : ∀ i s, a ≤ i → i < b → I i s → ∃ s', body i s = some s' ∧ I (i + 1) s') :
    ∃ s', forRange a b body s = some s' ∧ I (max a b) s' := by
  obtain ⟨n, hn⟩ : ∃ n, n = b - a := ⟨_, rfl⟩
  induction n generalizing a s with
  | zero =>
      refine ⟨s, ?_, ?_⟩
      · rw [forRange, ← hn]
        rfl
      · rw [Nat.max_eq_left (by omega)]
        exact hstart
  | succ n ih =>
      obtain ⟨s', hbody, hnext⟩ := hturn a s le_rfl (by omega) hstart
      obtain ⟨s'', hrest, hend⟩ := ih hnext (fun i s hi => hturn i s (by omega)) (by omega)
      refine ⟨s'', ?_, ?_⟩
      · have hlen : b - (a + 1) = n := by omega
        rw [forRange, ← hn, List.range'_succ, List.foldlM_cons, hbody]
        rw [forRange, hlen] at hrest
        exact hrest
      · rw [Nat.max_eq_right (by omega)] at hend ⊢
        exact hend

/-- `l[a..b]`. -/
def slice (l : List α) (a b : Nat) : Option (List α) :=
  if a ≤ b ∧ b ≤ l.length then some ((l.drop a).take (b - a)) else none

theorem slice_of_le {l : List α} {a b : Nat} (hab : a ≤ b) (hb : b ≤ l.length) :
    slice l a b = some ((l.drop a).take (b - a)) := if_pos ⟨hab, hb⟩

/-- What `f` does to `&mut l[a..b]`. -/
def onSlice (l : List α) (a b : Nat) (f : List α → Option (List α)) : Option (List α) := do
  let s ← slice l a b
  let s' ← f s
  return l.take a ++ s' ++ l.drop b

theorem onSlice_append {f : List α → Option (List α)} {front part part' back : List α} {a b : Nat}
    (ha : front.length = a) (hb : a + part.length = b) (hf : f part = some part') :
    onSlice (front ++ (part ++ back)) a b f = some (front ++ (part' ++ back)) := by
  subst ha
  subst hb
  have hslice : slice (front ++ (part ++ back)) front.length (front.length + part.length) =
      some part := by
    rw [slice_of_le (Nat.le_add_right ..) (by simp), List.drop_left, Nat.add_sub_cancel_left,
      List.take_left]
  rw [onSlice, hslice]
  simp only [Option.bind_eq_bind, Option.bind_some, hf, List.take_left, Option.pure_def]
  rw [← List.append_assoc front part, ← List.length_append, List.drop_left, List.append_assoc]

/-- `l[i]` is assigned. -/
def store (l : List α) (i : Nat) (x : α) : Option (List α) :=
  if i < l.length then some (l.set i x) else none

/-- Every element of a buffer of length `n` is assigned, in order. -/
def fillEach : Nat → (Nat → Option α) → Option (List α)
  | 0, _ => some []
  | n + 1, f => do
      let l ← fillEach n f
      let x ← f n
      return l ++ [x]

theorem fillEach_eq {n : Nat} {f : Nat → Option α} : ∀ {l : List α}, l.length = n →
    (∀ i, i < n → f i = l[i]?) → fillEach n f = some l := by
  induction n with
  | zero =>
      intro l hlen _
      rw [List.eq_nil_of_length_eq_zero hlen]
      rfl
  | succ n ih =>
      intro l hlen hf
      obtain ⟨front, x, rfl⟩ : ∃ front x, l = front ++ [x] := by
        rcases List.eq_nil_or_concat l with rfl | ⟨front, x, rfl⟩
        · cases hlen
        · exact ⟨front, x, List.concat_eq_append⟩
      have hfront : front.length = n := by simpa using hlen
      have hprev : fillEach n f = some front := by
        apply ih hfront
        intro i hi
        rw [hf i (by omega), List.getElem?_append_left (by omega)]
      have hlast : f n = some x := by
        rw [hf n (Nat.lt_succ_self n), ← hfront, List.getElem?_concat_length]
      rw [fillEach, hprev]
      simp only [Option.bind_eq_bind, Option.bind_some, hlast, Option.pure_def]

/-! ## Overwriting from front to back -/

/-- The first `n` elements are new. -/
def overwritten (new old : List α) (n : Nat) : List α := new.take n ++ old.drop n

section

variable {new old : List α} {n i : Nat}

theorem length_overwritten (hlen : new.length = old.length) :
    (overwritten new old n).length = old.length := by
  simp only [overwritten, List.length_append, List.length_take, List.length_drop]
  omega

theorem overwritten_of_le (hlen : new.length = old.length) (h : old.length ≤ n) :
    overwritten new old n = new := by
  rw [overwritten, List.take_of_length_le (by omega), List.drop_eq_nil_of_le h, List.append_nil]

theorem getElem?_overwritten_lt (h : i < n) (hi : i < new.length) :
    (overwritten new old n)[i]? = some new[i] := by
  rw [overwritten, List.getElem?_append_left (by rw [List.length_take]; omega),
    List.getElem?_take_of_lt h, List.getElem?_eq_getElem hi]

theorem getElem?_overwritten_ge (hlen : new.length = old.length) (h : n ≤ i)
    (hi : i < old.length) : (overwritten new old n)[i]? = some old[i] := by
  rw [overwritten, List.getElem?_append_right (by rw [List.length_take]; omega), List.length_take,
    List.getElem?_drop, Nat.min_eq_left (by omega), Nat.add_sub_cancel' h,
    List.getElem?_eq_getElem hi]

/-- One element more. -/
theorem store_overwritten (hlen : new.length = old.length) (hn : n < new.length) :
    store (overwritten new old n) n new[n] = some (overwritten new old (n + 1)) := by
  rw [store, if_pos (by rw [length_overwritten hlen, ← hlen]; exact hn)]
  congr 1
  apply List.ext_getElem?
  intro i
  rw [List.getElem?_set, length_overwritten hlen]
  rcases Nat.lt_trichotomy i n with h | h | h
  · rw [if_neg (by omega), getElem?_overwritten_lt h (by omega),
      getElem?_overwritten_lt (by omega) (by omega)]
  · subst h
    rw [if_pos rfl, if_pos (by omega), getElem?_overwritten_lt (by omega) hn]
  · rw [if_neg (by omega)]
    rcases Nat.lt_or_ge i old.length with hi | hi
    · rw [getElem?_overwritten_ge hlen (by omega) hi, getElem?_overwritten_ge hlen (by omega) hi]
    · rw [List.getElem?_eq_none (by rw [length_overwritten hlen]; exact hi),
        List.getElem?_eq_none (by rw [length_overwritten hlen]; exact hi)]

/-- A block of elements more. -/
theorem onSlice_overwritten {f : List α → Option (List α)} {m : Nat}
    (hlen : new.length = old.length) (hend : n + m ≤ old.length)
    (hf : f ((old.drop n).take m) = some ((new.drop n).take m)) :
    onSlice (overwritten new old n) n (n + m) f = some (overwritten new old (n + m)) := by
  have hsplit : overwritten new old n = new.take n ++ ((old.drop n).take m ++ old.drop (n + m)) := by
    rw [overwritten, ← List.drop_drop, List.take_append_drop]
  have hblock : n + ((old.drop n).take m).length = n + m := by
    rw [List.length_take, List.length_drop]
    omega
  rw [hsplit, onSlice_append (by rw [List.length_take]; omega) hblock hf, overwritten,
    List.take_add, List.append_assoc]

end

/-! ## Rows -/

/-- Consecutive pieces of one length. -/
theorem flatMap_take_drop (l : List α) (k start h : Nat) :
    (List.range h).flatMap (fun r => (l.drop (start + r * k)).take k) =
      (l.drop start).take (h * k) := by
  induction h with
  | zero => simp
  | succ h ih =>
      rw [List.range_succ, List.flatMap_append, ih, List.flatMap_singleton, Nat.succ_mul,
        List.take_add, List.drop_drop]

theorem rows_drop (l : List α) (k h : Nat) :
    (List.range h).flatMap (fun r => (l.drop (r * k)).take k) ++ l.drop (h * k) = l := by
  have hrows := flatMap_take_drop l k 0 h
  simp only [Nat.zero_add, List.drop_zero] at hrows
  rw [hrows, List.take_append_drop]

theorem length_rows {stride h : Nat} {g : Nat → List α}
    (hg : ∀ r, r < h → (g r).length = stride) :
    ((List.range h).flatMap g).length = h * stride := by
  induction h with
  | zero => simp
  | succ h ih =>
      rw [List.range_succ, List.flatMap_append, List.length_append,
        ih fun r hr => hg r (by omega), List.flatMap_singleton, hg h (Nat.lt_succ_self h),
        Nat.succ_mul]

theorem getElem?_rows {stride h r i : Nat} {g : Nat → List α}
    (hg : ∀ r, r < h → (g r).length = stride) (hr : r < h) (hi : i < stride) :
    ((List.range h).flatMap g)[r * stride + i]? = (g r)[i]? := by
  induction h with
  | zero => exact absurd hr (Nat.not_lt_zero r)
  | succ h ih =>
      have hfront := length_rows fun r hr => hg r (Nat.lt_succ_of_lt hr)
      rw [List.range_succ, List.flatMap_append, List.flatMap_singleton]
      rcases Nat.lt_succ_iff_lt_or_eq.mp hr with hlt | rfl
      · have hend : (r + 1) * stride ≤ h * stride := Nat.mul_le_mul_right _ hlt
        rw [Nat.succ_mul] at hend
        rw [List.getElem?_append_left (by rw [hfront]; omega)]
        exact ih (fun r hr => hg r (Nat.lt_succ_of_lt hr)) hlt
      · rw [List.getElem?_append_right (by rw [hfront]; omega), hfront, Nat.add_sub_cancel_left]

/-- A loop over the rows of a buffer that replaces each of them. -/
theorem forRows {stride h : Nat} {f : Nat → List α → Option (List α)} {g g' : Nat → List α}
    {rest : List α} (hlen : ∀ r, r < h → (g r).length = stride)
    (hlen' : ∀ r, r < h → (g' r).length = stride) (hf : ∀ r, r < h → f r (g r) = some (g' r)) :
    forRange 0 h (fun r l => onSlice l (r * stride) ((r + 1) * stride) (f r))
      ((List.range h).flatMap g ++ rest) = some ((List.range h).flatMap g' ++ rest) := by
  -- The rows up to `r` are new, the rows from `r` on are old.
  have hturn : ∀ r l, 0 ≤ r → r < h →
      l = (List.range r).flatMap g' ++ ((List.range' r (h - r)).flatMap g ++ rest) →
      ∃ l', onSlice l (r * stride) ((r + 1) * stride) (f r) = some l' ∧
        l' = (List.range (r + 1)).flatMap g' ++
          ((List.range' (r + 1) (h - (r + 1))).flatMap g ++ rest) := by
    intro r l _ hr hl
    have hsplit : List.range' r (h - r) = r :: List.range' (r + 1) (h - (r + 1)) := by
      have hleft : h - r = (h - (r + 1)) + 1 := by omega
      rw [hleft, List.range'_succ]
    have hfront : ((List.range r).flatMap g').length = r * stride :=
      length_rows fun i hi => hlen' i (by omega)
    have hend : r * stride + (g r).length = (r + 1) * stride := by
      rw [hlen r hr, Nat.succ_mul]
    refine ⟨_, ?_, rfl⟩
    rw [hl, hsplit, List.flatMap_cons, List.append_assoc,
      onSlice_append hfront hend (hf r hr), List.range_succ, List.flatMap_append,
      List.flatMap_singleton, List.append_assoc]
  have hstart : (List.range h).flatMap g ++ rest =
      (List.range 0).flatMap g' ++ ((List.range' 0 (h - 0)).flatMap g ++ rest) := by
    rw [Nat.sub_zero, ← List.range_eq_range', List.range_zero, List.flatMap_nil, List.nil_append]
  obtain ⟨l, hloop, hl⟩ := forRange_rule _ hstart hturn
  rw [hloop, hl, Nat.max_eq_right (Nat.zero_le h), Nat.sub_self]
  rfl

/-! ## A list mapped by what may fail -/

theorem mapM_ok {E α β : Type} {f : α → Except E β} {xs : List α} {ys : List β} :
    xs.mapM f = .ok ys ↔ List.Forall₂ (fun x y => f x = .ok y) xs ys := by
  induction xs generalizing ys with
  | nil =>
    constructor
    · intro h
      obtain rfl := Except.ok.inj h
      exact .nil
    · intro h
      cases h
      rfl
  | cons x xs ih =>
    rw [List.mapM_cons]
    cases hx : f x with
    | error e =>
      constructor
      · intro h
        cases h
      · intro h
        cases h with
        | cons hy _ =>
          rw [hx] at hy
          cases hy
    | ok y =>
      cases hxs : xs.mapM f with
      | error e =>
        constructor
        · intro h
          cases h
        · intro h
          cases h with
          | cons _ hys =>
            rw [ih.mpr hys] at hxs
            cases hxs
      | ok ys' =>
        constructor
        · intro h
          obtain rfl := Except.ok.inj h
          exact .cons hx (ih.mp hxs)
        · intro h
          cases h with
          | cons hy hys =>
            rw [ih.mpr hys] at hxs
            rw [hx] at hy
            obtain rfl := Except.ok.inj hy
            obtain rfl := Except.ok.inj hxs
            rfl

theorem mapM_ok_of_forall {E α β : Type} {f : α → Except E β} {R : α → β → Prop} {xs : List α}
    (h : ∀ x ∈ xs, ∃ y, f x = .ok y ∧ R x y) : ∃ ys, xs.mapM f = .ok ys ∧ List.Forall₂ R xs ys := by
  induction xs with
  | nil => exact ⟨[], rfl, .nil⟩
  | cons x xs ih =>
      rcases h x List.mem_cons_self with ⟨y, hy, hxy⟩
      rcases ih fun z hz => h z (List.mem_cons_of_mem x hz) with ⟨ys, hys, hrest⟩
      exact ⟨y :: ys, mapM_ok.mpr (.cons hy (mapM_ok.mp hys)), .cons hxy hrest⟩

theorem mapM_some {A B : Type} {f : A → Option B} {g : A → B} {l : List A}
    (h : ∀ a ∈ l, f a = some (g a)) : l.mapM f = some (l.map g) := by
  induction l with
  | nil => rfl
  | cons a l ih =>
      rw [List.mapM_cons, h a List.mem_cons_self, ih fun b hb => h b (List.mem_cons_of_mem a hb)]
      rfl

theorem exists_of_mapM_some {A B : Type} {f : A → Option B} {l : List A} {bs : List B}
    (h : l.mapM f = some bs) {a : A} (ha : a ∈ l) : ∃ b ∈ bs, f a = some b := by
  induction l generalizing bs with
  | nil => cases ha
  | cons a' l ih =>
      rw [List.mapM_cons] at h
      rcases Option.bind_eq_some_iff.mp h with ⟨b, hb, h⟩
      rcases Option.bind_eq_some_iff.mp h with ⟨rest, hrest, h⟩
      cases h
      rcases List.mem_cons.mp ha with rfl | ha
      · exact ⟨b, List.mem_cons_self, hb⟩
      · rcases ih hrest ha with ⟨c, hc, hfc⟩
        exact ⟨c, List.mem_cons_of_mem b hc, hfc⟩

/-- Two nested loops are one. -/
theorem foldlM_flatMap {A B S : Type} {m : Type → Type} [Monad m] [LawfulMonad m]
    {f : S → B → m S} {g : A → List B} {l : List A} {s : S} :
    (l.flatMap g).foldlM f s = l.foldlM (fun s a => (g a).foldlM f s) s := by
  induction l generalizing s with
  | nil => rfl
  | cons a l ih =>
      rw [List.flatMap_cons, List.foldlM_append, List.foldlM_cons]
      exact bind_congr fun _ => ih

/-- A search that never leaves its buffers. -/
theorem anyM_some {A : Type} {f : A → Option Bool} {g : A → Bool} {l : List A}
    (h : ∀ a ∈ l, f a = some (g a)) : l.anyM f = some (l.any g) := by
  induction l with
  | nil => rfl
  | cons a l ih =>
      rw [List.anyM, h a List.mem_cons_self, List.any_cons]
      cases g a with
      | false => exact ih fun b hb => h b (List.mem_cons_of_mem a hb)
      | true => rfl

end Loops
