import RasterH3.Lib.Reader

/-!
# Formats

A format says which bytes spell a value; there may be several spellings, or none. A reader
reads a format when it answers `x` exactly on the inputs that begin with a spelling of `x`,
and hands back what follows. Such a reader does not look at what it leaves.

What a writer produces is honest when it can be taken for a spelling of the value under one
condition only, that the value fits, and then to the last byte.

Formats are closed under what readers are built with. Sequencing, choice, lists of a given
length and the change of a value by a function each have a rule, with the reader on one side
and the format on the other, so that the proof that a reader reads its format follows the
text of the reader. From the equivalence the other facts come for free: a beginning of a
spelling is no spelling, and what is left over has not been looked at.
-/

namespace Bytes

variable {E α β : Type}

/-- Which bytes spell a value. -/
abbrev Format (α : Type) := α → List UInt8 → Prop

def Reads (read : Reader E α) (f : Format α) : Prop :=
  ∀ input x rest, read input = .ok (x, rest) ↔ ∃ bytes, f x bytes ∧ input = bytes ++ rest

namespace Reads

variable {read : Reader E α} {f g : Format α}

theorem whole (h : Reads read f) {x : α} {bytes : List UInt8} (hx : f x bytes)
    (rest : List UInt8) : read (bytes ++ rest) = .ok (x, rest) :=
  (h _ _ _).mpr ⟨bytes, hx, rfl⟩

/-- A reader that answers does not look at the bytes it leaves. -/
theorem extend (h : Reads read f) {input rest : List UInt8} {x : α}
    (hread : read input = .ok (x, rest)) (more : List UInt8) :
    read (input ++ more) = .ok (x, rest ++ more) := by
  obtain ⟨bytes, hx, rfl⟩ := (h _ _ _).mp hread
  rw [List.append_assoc]
  exact h.whole hx _

theorem congr (h : Reads read f) (hfg : ∀ x bytes, f x bytes ↔ g x bytes) : Reads read g := by
  intro input x rest
  rw [h input x rest]
  simp only [hfg]

theorem pure (x : α) : Reads (Pure.pure x : Reader E α) fun y bytes => y = x ∧ bytes = [] := by
  intro input y rest
  constructor
  · intro h
    obtain ⟨rfl, rfl⟩ := Prod.mk.inj (Except.ok.inj h)
    exact ⟨[], ⟨rfl, rfl⟩, rfl⟩
  · rintro ⟨_, ⟨rfl, rfl⟩, rfl⟩
    rfl

theorem throw (e : E) : Reads (MonadExcept.throw e : Reader E α) fun _ _ => False := by
  intro input y rest
  constructor
  · intro h
    cases h
  · rintro ⟨_, h, -⟩
    exact h.elim

theorem bind {next : α → Reader E β} {f' : α → Format β} (h : Reads read f)
    (h' : ∀ x, Reads (next x) (f' x)) :
    Reads (read >>= next) fun y bytes => ∃ x b b', f x b ∧ f' x y b' ∧ bytes = b ++ b' := by
  intro input y rest
  rw [bind_run]
  constructor
  · intro hy
    cases hread : read input with
    | error e =>
      rw [hread] at hy
      cases hy
    | ok out =>
      rw [hread] at hy
      obtain ⟨b, hb, rfl⟩ := (h _ _ _).mp hread
      obtain ⟨b', hb', hrest⟩ := (h' out.1 out.2 y rest).mp hy
      exact ⟨b ++ b', ⟨out.1, b, b', hb, hb', rfl⟩, by rw [hrest, List.append_assoc]⟩
  · rintro ⟨_, ⟨x, b, b', hb, hb', rfl⟩, rfl⟩
    rw [List.append_assoc, h.whole hb]
    exact (h' x).whole hb' rest

theorem map (g : α → β) (h : Reads read f) :
    Reads (read >>= fun x => Pure.pure (g x)) fun y bytes => ∃ x, f x bytes ∧ y = g x := by
  refine (h.bind fun x => pure (g x)).congr fun y bytes => ?_
  constructor
  · rintro ⟨x, b, _, hb, ⟨rfl, rfl⟩, rfl⟩
    exact ⟨x, by rwa [List.append_nil], rfl⟩
  · rintro ⟨x, hb, rfl⟩
    exact ⟨x, bytes, [], hb, ⟨rfl, rfl⟩, (List.append_nil bytes).symm⟩

theorem ite {c : Prop} [Decidable c] {read' : Reader E α} (h : Reads read f)
    (h' : Reads read' g) :
    Reads (if c then read else read') fun x bytes => if c then f x bytes else g x bytes := by
  by_cases hc : c
  · simpa only [if_pos hc] using h
  · simpa only [if_neg hc] using h'

/-- A reader does not answer on the beginning of a spelling. -/
theorem cut (h : Reads read f) {x : α} {bytes p : List UInt8} (hx : f x bytes)
    (hp : p <+: bytes) (hne : p ≠ bytes) : ∃ e, read p = .error e := by
  cases hread : read p with
  | error e => exact ⟨e, rfl⟩
  | ok out =>
    obtain ⟨more, rfl⟩ := hp
    have hext := h.extend hread more
    have hwhole := h.whole hx []
    rw [List.append_nil, hext] at hwhole
    obtain ⟨-, hmore⟩ := List.append_eq_nil_iff.mp (Prod.mk.inj (Except.ok.inj hwhole)).2
    exact absurd (by rw [hmore, List.append_nil]) hne

theorem exact (eof : E) (n : Nat) :
    Reads (Reader.exact eof n) fun x bytes => x.length = n ∧ bytes = x := by
  intro input x rest
  rw [Reader.exact]
  constructor
  · intro h
    split at h
    · cases h
    next hle =>
      obtain ⟨rfl, rfl⟩ := Prod.mk.inj (Except.ok.inj h)
      exact ⟨_, ⟨by simpa using hle, rfl⟩, (List.take_append_drop n input).symm⟩
  · rintro ⟨_, ⟨hlen, rfl⟩, rfl⟩
    rw [if_neg (by simp [hlen]), List.take_left' hlen, List.drop_left' hlen]

theorem readLe_some {w n : Nat} {input rest : List UInt8} (h : readLe w input = some (n, rest)) :
    n < 256 ^ w ∧ input = writeLe w n ++ rest := by
  induction w generalizing n input with
  | zero =>
    obtain ⟨rfl, rfl⟩ := Prod.mk.inj (Option.some.inj h)
    exact ⟨by simp, rfl⟩
  | succ w ih =>
    cases input with
    | nil => cases h
    | cons b input =>
      rw [readLe] at h
      split at h
      · cases h
      next n' rest' hread =>
        obtain ⟨rfl, rfl⟩ := Prod.mk.inj (Option.some.inj h)
        obtain ⟨hlt, rfl⟩ := ih hread
        have hb := b.toNat_lt
        refine ⟨by rw [Nat.pow_succ']; omega, ?_⟩
        rw [writeLe, show (b.toNat + 256 * n') % 256 = b.toNat by omega,
          show (b.toNat + 256 * n') / 256 = n' by omega, UInt8.ofNat_toNat, List.cons_append]

theorem le (eof : E) (w : Nat) :
    Reads (Reader.le eof w) fun n bytes => n < 256 ^ w ∧ bytes = writeLe w n := by
  intro input n rest
  rw [Reader.le]
  constructor
  · intro h
    split at h
    · cases h
    next out hread =>
      obtain rfl := Except.ok.inj h
      obtain ⟨hlt, rfl⟩ := readLe_some hread
      exact ⟨_, ⟨hlt, rfl⟩, rfl⟩
  · rintro ⟨_, ⟨hlt, rfl⟩, rfl⟩
    rw [readLe_writeLe_of_lt hlt]

/-- A list of `n` values, one after the other. -/
def Listed (f : Format α) (n : Nat) (xs : List α) (bytes : List UInt8) : Prop :=
  xs.length = n ∧ ∃ pieces, List.Forall₂ f xs pieces ∧ bytes = pieces.flatten

theorem repeated (h : Reads read f) (n : Nat) : Reads (Reader.repeated read n) (Listed f n) := by
  induction n with
  | zero =>
    refine (pure []).congr fun xs bytes => ?_
    constructor
    · rintro ⟨rfl, rfl⟩
      exact ⟨rfl, [], .nil, rfl⟩
    · rintro ⟨hlen, pieces, hall, rfl⟩
      obtain rfl := List.length_eq_zero_iff.mp hlen
      cases hall
      exact ⟨rfl, rfl⟩
  | succ n ih =>
    refine (h.bind fun x => ih.bind fun xs => pure (x :: xs)).congr fun xs bytes => ?_
    constructor
    · rintro ⟨x, b, _, hx, ⟨xs, b', _, ⟨hlen, pieces, hall, rfl⟩, ⟨rfl, rfl⟩, rfl⟩, rfl⟩
      exact ⟨congrArg (· + 1) hlen, b :: pieces, .cons hx hall, by simp⟩
    · rintro ⟨hlen, pieces, hall, rfl⟩
      cases hall with
      | nil => cases hlen
      | @cons x b xs pieces hx hall =>
        exact ⟨x, b, _, hx, ⟨xs, _, [], ⟨Nat.succ.inj hlen, pieces, hall, rfl⟩, ⟨rfl, rfl⟩,
          (List.append_nil _).symm⟩, rfl⟩

end Reads

/-! ## Honest writers -/

/-- The bytes can be taken for a spelling, with something behind it, only if it fits. -/
def Honest (spells : List UInt8 → Prop) (bytes : List UInt8) (fits : Prop) : Prop :=
  ∀ rest rest', (∃ b, spells b ∧ bytes ++ rest = b ++ rest') ↔ fits ∧ rest' = rest

namespace Honest

variable {P Q : List UInt8 → Prop} {b b' : List UInt8} {fits fits' : Prop}

/-- All spellings have the length of the one that is written. -/
theorem sized (h : ∀ c, P c → fits ∧ c.length = b.length) (hb : fits → P b) :
    Honest P b fits := by
  intro rest rest'
  constructor
  · rintro ⟨c, hc, heq⟩
    obtain ⟨hfits, hlen⟩ := h c hc
    exact ⟨hfits, (List.append_inj heq hlen.symm).2.symm⟩
  · rintro ⟨hfits, rfl⟩
    exact ⟨b, hb hfits, rfl⟩

/-- The value has one spelling at the most. -/
theorem unique (h : ∀ c, P c ↔ fits ∧ c = b) : Honest P b fits := by
  refine sized (fun c hc => ?_) fun hfits => (h b).mpr ⟨hfits, rfl⟩
  obtain ⟨hfits, rfl⟩ := (h c).mp hc
  exact ⟨hfits, rfl⟩

theorem congr (h : Honest P b fits) (hPQ : ∀ c, P c ↔ Q c) : Honest Q b fits := by
  intro rest rest'
  rw [← h rest rest']
  simp only [hPQ]

theorem of_iff (h : Honest P b fits) (hiff : fits ↔ fits') : Honest P b fits' := by
  intro rest rest'
  rw [h rest rest', hiff]

theorem seq (h : Honest P b fits) (h' : Honest Q b' fits') :
    Honest (fun bytes => ∃ c c', P c ∧ Q c' ∧ bytes = c ++ c') (b ++ b') (fits ∧ fits') := by
  intro rest rest'
  constructor
  · rintro ⟨_, ⟨c, c', hc, hc', rfl⟩, heq⟩
    rw [List.append_assoc, List.append_assoc] at heq
    obtain ⟨hfits, hrest⟩ := (h _ _).mp ⟨c, hc, heq⟩
    obtain ⟨hfits', hrest'⟩ := (h' rest rest').mp ⟨c', hc', hrest.symm⟩
    exact ⟨⟨hfits, hfits'⟩, hrest'⟩
  · rintro ⟨⟨hfits, hfits'⟩, rfl⟩
    obtain ⟨c, hc, heq⟩ := (h (b' ++ rest') (b' ++ rest')).mpr ⟨hfits, rfl⟩
    obtain ⟨c', hc', heq'⟩ := (h' rest' rest').mpr ⟨hfits', rfl⟩
    exact ⟨c ++ c', ⟨c, c', hc, hc', rfl⟩, by rw [List.append_assoc, heq, heq', List.append_assoc]⟩

theorem list {f : Format α} {write : α → List UInt8} {fits : α → Prop} {xs : List α}
    (h : ∀ x ∈ xs, Honest (f x) (write x) (fits x)) :
    Honest (Reads.Listed f xs.length xs) (xs.flatMap write) (∀ x ∈ xs, fits x) := by
  induction xs with
  | nil =>
    refine unique fun c => ?_
    constructor
    · rintro ⟨-, pieces, hall, rfl⟩
      cases hall
      exact ⟨nofun, rfl⟩
    · rintro ⟨-, rfl⟩
      exact ⟨rfl, [], .nil, rfl⟩
  | cons x xs ih =>
    have hseq := (h x List.mem_cons_self).seq (ih fun y hy => h y (List.mem_cons_of_mem _ hy))
    rw [List.flatMap_cons, List.forall_mem_cons]
    refine hseq.congr fun c => ?_
    constructor
    · rintro ⟨b, _, hb, ⟨-, pieces, hall, rfl⟩, rfl⟩
      exact ⟨rfl, b :: pieces, .cons hb hall, rfl⟩
    · rintro ⟨-, pieces, hall, rfl⟩
      cases hall with
      | @cons _ b _ pieces hb hall => exact ⟨b, _, hb, ⟨rfl, pieces, hall, rfl⟩, rfl⟩

end Honest

end Bytes
