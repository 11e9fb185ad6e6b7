import RasterH3.Lib.Format

/-!
# Numbers in either byte order, and counted lists

A number of `w` bytes is spelled little-endian or, in reverse, big-endian. A list that is
preceded by its length is often guarded: if the bytes that are left cannot hold so many
items, the reader fails before it reads one. The guard makes no difference to what is read,
since the items would not have been there.

Reading a list by a loop that hands on a state, an extremum or a count, is a fold over the
items of the list (`iterated_run`). With it a reader that builds nothing can be compared
with one that builds a value, item by item.
-/

namespace Bytes

variable {E α σ : Type}

def writeNum (little : Bool) (w n : Nat) : List UInt8 :=
  if little then writeLe w n else (writeLe w n).reverse

@[simp] theorem length_writeNum (little : Bool) (w n : Nat) : (writeNum little w n).length = w := by
  cases little <;> simp [writeNum]

namespace Reader

/-- A number of `w` bytes in the given order. -/
def num (eof : E) (little : Bool) (w : Nat) : Reader E Nat := fun input =>
  if input.length < w then .error eof
  else
    let bytes := input.take w
    match readLe w (if little then bytes else bytes.reverse) with
    | none => .error eof
    | some (n, _) => .ok (n, input.drop w)

/-- Fails unless `n` items of `size` bytes fit into what is left. -/
def guarded (eof : E) (n size : Nat) : Reader E Unit := fun input =>
  if input.length < n * size then .error eof else .ok ((), input)

/-- `step` as often as is said, on a state that is handed on. -/
def iterated (step : σ → Reader E σ) : Nat → σ → Reader E σ
  | 0, s => pure s
  | n + 1, s => step s >>= iterated step n

end Reader

theorem readLe_of_length {w : Nat} {bytes : List UInt8} (h : bytes.length = w) :
    ∃ n, n < 256 ^ w ∧ bytes = writeLe w n ∧ readLe w bytes = some (n, []) := by
  obtain ⟨n, hn, rfl⟩ := exists_writeLe w bytes h
  have hread := readLe_writeLe_of_lt hn []
  rw [List.append_nil] at hread
  exact ⟨n, hn, rfl, hread⟩

namespace Reads

theorem num (eof : E) (little : Bool) (w : Nat) :
    Reads (Reader.num eof little w) fun n bytes => n < 256 ^ w ∧ bytes = writeNum little w n := by
  intro input n rest
  unfold Reader.num
  constructor
  · intro h
    split at h
    next => cases h
    next hlong =>
      have hlen : (input.take w).length = w := List.length_take_of_le (by omega)
      have hord : (if little then input.take w else (input.take w).reverse).length = w := by
        cases little <;> simp [hlen]
      obtain ⟨m, hm, hbytes, hread⟩ := readLe_of_length hord
      simp only [hread] at h
      cases h
      refine ⟨input.take w, ⟨hm, ?_⟩, (List.take_append_drop w input).symm⟩
      cases little with
      | true => exact hbytes
      | false =>
          rw [writeNum, if_neg (by simp), ← hbytes]
          simp
  · intro h
    rcases h with ⟨_, ⟨hn, rfl⟩, rfl⟩
    have hlen := length_writeNum little w n
    rw [if_neg (by simp), List.take_left' hlen, List.drop_left' hlen]
    have hord : (if little then writeNum little w n else (writeNum little w n).reverse) =
        writeLe w n := by
      cases little <;> simp [writeNum]
    have hread := readLe_writeLe_of_lt hn []
    rw [List.append_nil] at hread
    simp only [hord, hread]

/-- The items of a list take at least so many bytes. -/
theorem listed_length {f : Format α} {size : Nat} (hsize : ∀ x b, f x b → size ≤ b.length)
    {n : Nat} {xs : List α} {bytes : List UInt8} (h : Listed f n xs bytes) :
    n * size ≤ bytes.length := by
  rcases h with ⟨rfl, pieces, hall, rfl⟩
  induction hall with
  | nil => simp
  | @cons x b xs pieces hx hall ih =>
      have := hsize x b hx
      rw [List.length_cons, List.flatten_cons, List.length_append, Nat.succ_mul xs.length]
      omega

/-- A guard that what is read satisfies anyway. -/
theorem guarded {read : Reader E α} {f : Format α} (eof : E) {n size : Nat} (h : Reads read f)
    (hsize : ∀ x b, f x b → n * size ≤ b.length) :
    Reads (Reader.guarded eof n size >>= fun _ => read) f := by
  intro input x rest
  rw [bind_run]
  unfold Reader.guarded
  constructor
  · intro hread
    split at hread
    next => cases hread
    next => exact (h input x rest).mp hread
  · intro hspelled
    have hlong : n * size ≤ input.length := by
      rcases hspelled with ⟨b, hb, rfl⟩
      have := hsize x b hb
      rw [List.length_append]
      omega
    rw [if_neg (by omega)]
    exact (h input x rest).mpr hspelled

/-- The items that a guard counts. -/
theorem guarded_repeated {read : Reader E α} {f : Format α} (eof : E) (n : Nat) {size : Nat}
    (h : Reads read f) (hsize : ∀ x b, f x b → size ≤ b.length) :
    Reads (Reader.guarded eof n size >>= fun _ => Reader.repeated read n) (Listed f n) :=
  (h.repeated n).guarded eof fun _ _ hlist => listed_length hsize hlist

end Reads

theorem guarded_run {eof : E} {n size : Nat} {input : List UInt8} (h : n * size ≤ input.length) :
    Reader.guarded eof n size input = .ok ((), input) :=
  if_neg (by omega)

/-- A loop over the spellings of a list folds the list. -/
theorem iterated_run {step : σ → Reader E σ} {f : Format α} {update : σ → α → σ}
    {xs : List α} {n : Nat} {bytes : List UInt8} (hlist : Reads.Listed f n xs bytes)
    (hstep : ∀ s, ∀ x ∈ xs, ∀ b rest, f x b → step s (b ++ rest) = .ok (update s x, rest))
    (s : σ) (rest : List UInt8) :
    Reader.iterated step n s (bytes ++ rest) = .ok (xs.foldl update s, rest) := by
  rcases hlist with ⟨rfl, pieces, hall, rfl⟩
  induction hall generalizing s with
  | nil => rfl
  | @cons x b xs pieces hx hall ih =>
      rw [List.length_cons, List.flatten_cons, List.append_assoc, Reader.iterated, bind_run,
        hstep s x List.mem_cons_self b _ hx]
      exact ih (fun s x hx => hstep s x (List.mem_cons_of_mem _ hx)) _

end Bytes
