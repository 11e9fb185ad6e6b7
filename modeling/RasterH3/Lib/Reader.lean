import RasterH3.Lib.Bytes

/-!
# Readers of a byte stream, and where a stream may be cut

A reader takes bytes off the front of a stream or fails. What is asked of a
reader and an encoding is more than that reading undoes writing: a reader that is
given only the beginning of an encoding must fail, since a format without frames
has no other way to notice that a file was cut. `Framed` says both, and the
lemmas say that it survives sequencing, so that a format is framed when its
fields are.
-/

namespace Bytes

abbrev Reader (E : Type) := StateT (List UInt8) (Except E)

variable {E α β : Type}

namespace Reader

/-- `read_exact`: a fixed number of bytes, or the error of a short stream. -/
def exact (eof : E) (n : Nat) : Reader E (List UInt8) := fun input =>
  if input.length < n then .error eof else .ok (input.take n, input.drop n)

/-- An unsigned little-endian integer of `w` bytes. -/
def le (eof : E) (w : Nat) : Reader E Nat := fun input =>
  match readLe w input with
  | none => .error eof
  | some out => .ok out

def repeated (read : Reader E α) : Nat → Reader E (List α)
  | 0 => pure []
  | n + 1 => do
      let x ← read
      let xs ← repeated read n
      return x :: xs

end Reader

/-- A sequence that answers has answered in both parts. -/
theorem bind_eq_ok {x : Except E α} {f : α → Except E β} {y : β} (h : x >>= f = .ok y) :
    ∃ a, x = .ok a ∧ f a = .ok y := by
  cases x with
  | error e => cases h
  | ok a => exact ⟨a, rfl, h⟩

/-- `read` takes exactly `bytes` for `x`, and fails on less. -/
structure Framed (read : Reader E α) (bytes : List UInt8) (x : α) : Prop where
  whole : ∀ rest, read (bytes ++ rest) = .ok (x, rest)
  cut : ∀ p, p <+: bytes → p ≠ bytes → ∃ e, read p = .error e

theorem bind_run (read : Reader E α) (next : α → Reader E β) (input : List UInt8) :
    (read >>= next) input = read input >>= fun out => next out.1 out.2 := rfl

/-- A prefix of two pieces ends in the first or has the first whole. -/
theorem prefix_append_cases {p b b' : List UInt8} (h : p <+: b ++ b') (hne : p ≠ b ++ b') :
    (p <+: b ∧ p ≠ b) ∨ ∃ q, p = b ++ q ∧ q <+: b' ∧ q ≠ b' := by
  rcases List.prefix_or_prefix_of_prefix h (List.prefix_append b b') with hp | ⟨q, rfl⟩
  · by_cases heq : p = b
    · subst heq
      refine .inr ⟨[], (List.append_nil p).symm, List.nil_prefix, fun hnil => hne ?_⟩
      rw [← hnil, List.append_nil]
    · exact .inl ⟨hp, heq⟩
  · exact .inr ⟨q, rfl, (List.prefix_append_right_inj b).mp h, fun heq => hne (by rw [heq])⟩

namespace Framed

theorem pure (x : α) : Framed (Pure.pure x : Reader E α) [] x where
  whole := fun _ => rfl
  cut := fun _ h hne => absurd (List.prefix_nil.mp h) hne

theorem bind {read : Reader E α} {next : α → Reader E β} {b b' : List UInt8} {x : α} {y : β}
    (h : Framed read b x) (h' : Framed (next x) b' y) : Framed (read >>= next) (b ++ b') y where
  whole := fun rest => by
    rw [bind_run, List.append_assoc, h.whole]
    exact h'.whole rest
  cut := fun p hp hne => by
    rcases prefix_append_cases hp hne with ⟨hp, hne⟩ | ⟨q, rfl, hq, hne⟩
    · obtain ⟨e, he⟩ := h.cut p hp hne
      exact ⟨e, by rw [bind_run, he]; rfl⟩
    · obtain ⟨e, he⟩ := h'.cut q hq hne
      exact ⟨e, by rw [bind_run, h.whole]; exact he⟩

/-- A last step that reads nothing. -/
theorem bind_last {read : Reader E α} {next : α → Reader E β} {b : List UInt8} {x : α} {y : β}
    (h : Framed read b x) (h' : next x = Pure.pure y) : Framed (read >>= next) b y := by
  have hbind := h.bind (h' ▸ pure y)
  rwa [List.append_nil] at hbind

theorem exact {eof : E} {bytes : List UInt8} {n : Nat} (hn : bytes.length = n) :
    Framed (Reader.exact eof n) bytes bytes where
  whole := fun rest => by
    rw [Reader.exact, if_neg (by simp [hn]), List.take_left' hn, List.drop_left' hn]
  cut := fun p hp hne => by
    refine ⟨eof, ?_⟩
    have hlt := hp.length_le
    have hlen : p.length ≠ bytes.length := fun heq => hne (hp.eq_of_length heq)
    rw [Reader.exact, if_pos (by omega)]

theorem readLe_none {w : Nat} {input : List UInt8} (h : input.length < w) :
    readLe w input = none := by
  induction w generalizing input with
  | zero => omega
  | succ w ih =>
      cases input with
      | nil => rfl
      | cons b input =>
          rw [readLe, ih (by simpa using h)]

theorem le {eof : E} {w n : Nat} (hn : n < 256 ^ w) : Framed (Reader.le eof w) (writeLe w n) n where
  whole := fun rest => by rw [Reader.le, readLe_writeLe_of_lt hn]
  cut := fun p hp hne => by
    refine ⟨eof, ?_⟩
    have hle := hp.length_le
    have hlen : p.length ≠ (writeLe w n).length := fun heq => hne (hp.eq_of_length heq)
    rw [Bytes.length_writeLe] at hle hlen
    rw [Reader.le, readLe_none (by omega)]

theorem repeated_nil (read : Reader E α) : Framed (Reader.repeated read 0) [] [] := pure []

theorem repeated_cons {read : Reader E α} {n : Nat} {b b' : List UInt8} {x : α} {xs : List α}
    (h : Framed read b x) (h' : Framed (Reader.repeated read n) b' xs) :
    Framed (Reader.repeated read (n + 1)) (b ++ b') (x :: xs) :=
  h.bind (h'.bind_last rfl)

end Framed

end Bytes
