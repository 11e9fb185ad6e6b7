import RasterH3.Lib.Numerals
import Mathlib.Algebra.Order.Group.Nat
import Mathlib.Logic.Encodable.Basic
import Mathlib.Tactic.Ring

/-!
# Little-endian integers in a byte stream

Writers append bytes, readers take them off the front and hand back the rest. A read that
runs past the end is `none`: a short stream is never a value.

What every codec needs is one law, that reading undoes writing and leaves what follows
alone. It is stated once for naturals of a fixed width, and the signed and unsigned integers
are read through it.

Varints are here as well, naturals in base 128, and a class for encodings that know where
they end. A decoder that does not look at the bytes it leaves is `Streaming`; formats that
are put together of such decoders can be cut and joined without looking inside.
-/

namespace Bytes

/-- The low `w` bytes of `n`, least significant first. -/
def writeLe : Nat → Nat → List UInt8
  | 0, _ => []
  | w + 1, n => UInt8.ofNat (n % 256) :: writeLe w (n / 256)

def readLe : Nat → List UInt8 → Option (Nat × List UInt8)
  | 0, bytes => some (0, bytes)
  | _ + 1, [] => none
  | w + 1, b :: bytes =>
      match readLe w bytes with
      | none => none
      | some (n, rest) => some (b.toNat + 256 * n, rest)

@[simp] theorem length_writeLe (w n : Nat) : (writeLe w n).length = w := by
  induction w generalizing n with
  | zero => rfl
  | succ w ih => rw [writeLe, List.length_cons, ih]

theorem readLe_writeLe (w n : Nat) (rest : List UInt8) :
    readLe w (writeLe w n ++ rest) = some (n % 256 ^ w, rest) := by
  induction w generalizing n with
  | zero => simp [readLe, writeLe, Nat.mod_one]
  | succ w ih =>
      rw [writeLe, List.cons_append, readLe, ih]
      have hbyte : (UInt8.ofNat (n % 256)).toNat = n % 256 := by
        rw [UInt8.toNat_ofNat']
        omega
      rw [hbyte, Nat.pow_succ', Nat.mod_mul]

theorem readLe_writeLe_of_lt {w n : Nat} (h : n < 256 ^ w) (rest : List UInt8) :
    readLe w (writeLe w n ++ rest) = some (n, rest) := by
  rw [readLe_writeLe, Nat.mod_eq_of_lt h]

/-- Every string of bytes is the number it reads as. -/
theorem exists_writeLe : ∀ (k : Nat) (bytes : List UInt8), bytes.length = k →
    ∃ n, n < 256 ^ k ∧ writeLe k n = bytes
  | 0, bytes, h => ⟨0, by simp, (List.eq_nil_of_length_eq_zero h).symm⟩
  | k + 1, [], h => by cases h
  | k + 1, b :: bytes, h => by
      obtain ⟨n, hn, hbytes⟩ := exists_writeLe k bytes (by simpa using h)
      have hb := b.toNat_lt
      refine ⟨b.toNat + 256 * n, ?_, ?_⟩
      · rw [Nat.pow_succ]
        omega
      · have hmod : (b.toNat + 256 * n) % 256 = b.toNat := by omega
        have hdiv : (b.toNat + 256 * n) / 256 = n := by omega
        rw [writeLe, hmod, hdiv, hbytes, UInt8.ofNat_toNat]

/-! ## Machine integers -/

def writeI32 (k : Int32) : List UInt8 := writeLe 4 k.toBitVec.toNat

def readI32 (bytes : List UInt8) : Option (Int32 × List UInt8) :=
  (readLe 4 bytes).map fun (n, rest) => (Int32.ofBitVec (BitVec.ofNat 32 n), rest)

def writeI64 (k : Int64) : List UInt8 := writeLe 8 k.toBitVec.toNat

def readI64 (bytes : List UInt8) : Option (Int64 × List UInt8) :=
  (readLe 8 bytes).map fun (n, rest) => (Int64.ofBitVec (BitVec.ofNat 64 n), rest)

def writeFin64 (k : Fin (2 ^ 64)) : List UInt8 := writeLe 8 k.val

def readFin64 (bytes : List UInt8) : Option (Fin (2 ^ 64) × List UInt8) :=
  (readLe 8 bytes).map fun (n, rest) => (Fin.ofNat (2 ^ 64) n, rest)

@[simp] theorem readI32_writeI32 (k : Int32) (rest : List UInt8) :
    readI32 (writeI32 k ++ rest) = some (k, rest) := by
  rw [readI32, writeI32, readLe_writeLe_of_lt (by have := k.toBitVec.isLt; omega)]
  simp

@[simp] theorem readI64_writeI64 (k : Int64) (rest : List UInt8) :
    readI64 (writeI64 k ++ rest) = some (k, rest) := by
  rw [readI64, writeI64, readLe_writeLe_of_lt (by have := k.toBitVec.isLt; omega)]
  simp

@[simp] theorem readFin64_writeFin64 (k : Fin (2 ^ 64)) (rest : List UInt8) :
    readFin64 (writeFin64 k ++ rest) = some (k, rest) := by
  rw [readFin64, writeFin64, readLe_writeLe_of_lt (by have := k.isLt; omega)]
  have hval : Fin.ofNat (2 ^ 64) k.val = k := Fin.ext (Nat.mod_eq_of_lt k.isLt)
  exact congrArg (fun n => some (n, rest)) hval

/-! ## Encodings of other types -/

/-- A lossless encoding that knows where it ends. -/
class Codec (α : Type) where
  encode : α → List UInt8
  decode : List UInt8 → Option (α × List UInt8)
  decode_encode : ∀ x rest, decode (encode x ++ rest) = some (x, rest)

attribute [simp] Codec.decode_encode

/-- Naturals in base 128, the high bit set on every byte but the last. -/
def writeVarint (n : Nat) : List UInt8 :=
  if h : n < 128 then [UInt8.ofNat n]
  else UInt8.ofNat (128 + n % 128) :: writeVarint (n / 128)
termination_by n

def readVarint : List UInt8 → Option (Nat × List UInt8)
  | [] => none
  | b :: bytes =>
      if b.toNat < 128 then some (b.toNat, bytes)
      else (readVarint bytes).map fun (n, rest) => (b.toNat - 128 + 128 * n, rest)

theorem readVarint_writeVarint (n : Nat) (rest : List UInt8) :
    readVarint (writeVarint n ++ rest) = some (n, rest) := by
  induction n using writeVarint.induct with
  | case1 n h =>
      have hbyte : (UInt8.ofNat n).toNat = n := by
        rw [UInt8.toNat_ofNat']
        omega
      rw [writeVarint, dif_pos h, List.singleton_append, readVarint, hbyte, if_pos h]
  | case2 n h ih =>
      have hbyte : (UInt8.ofNat (128 + n % 128)).toNat = 128 + n % 128 := by
        rw [UInt8.toNat_ofNat']
        omega
      rw [writeVarint, dif_neg h, List.cons_append, readVarint, hbyte, if_neg (by omega), ih]
      simp only [Option.map_some, Option.some.injEq, Prod.mk.injEq, and_true]
      omega

instance : Codec Nat where
  encode := writeVarint
  decode := readVarint
  decode_encode := readVarint_writeVarint

/-- A codec for whatever can be numbered. -/
@[reducible] def Codec.ofEncodable {α : Type} [Encodable α] : Codec α where
  encode x := writeVarint (Encodable.encode x)
  decode bytes := do
    let (n, rest) ← readVarint bytes
    let x ← Encodable.decode n
    return (x, rest)
  decode_encode x rest := by simp [readVarint_writeVarint]

theorem readLe_append {w : Nat} {input rest : List UInt8} {n : Nat} (extra : List UInt8)
    (h : readLe w input = some (n, rest)) : readLe w (input ++ extra) = some (n, rest ++ extra) := by
  induction w generalizing input n with
  | zero =>
      obtain ⟨rfl, rfl⟩ := Prod.mk.inj (Option.some.inj h)
      rfl
  | succ w ih =>
      cases input with
      | nil => cases h
      | cons b input =>
          rw [readLe] at h
          split at h
          next => cases h
          next n' rest' hread =>
            obtain ⟨rfl, rfl⟩ := Prod.mk.inj (Option.some.inj h)
            rw [List.cons_append, readLe, ih hread]

theorem readI32_append {input rest : List UInt8} {k : Int32} (extra : List UInt8)
    (h : readI32 input = some (k, rest)) : readI32 (input ++ extra) = some (k, rest ++ extra) := by
  obtain ⟨out, hread, heq⟩ := Option.map_eq_some_iff.mp h
  obtain ⟨rfl, rfl⟩ := Prod.mk.inj heq
  rw [readI32, readLe_append extra hread]
  rfl

theorem readI64_append {input rest : List UInt8} {k : Int64} (extra : List UInt8)
    (h : readI64 input = some (k, rest)) : readI64 (input ++ extra) = some (k, rest ++ extra) := by
  obtain ⟨out, hread, heq⟩ := Option.map_eq_some_iff.mp h
  obtain ⟨rfl, rfl⟩ := Prod.mk.inj heq
  rw [readI64, readLe_append extra hread]
  rfl

theorem readVarint_append {input rest : List UInt8} {n : Nat} (extra : List UInt8)
    (h : readVarint input = some (n, rest)) :
    readVarint (input ++ extra) = some (n, rest ++ extra) := by
  induction input generalizing n with
  | nil => cases h
  | cons b input ih =>
      rw [readVarint] at h
      rw [List.cons_append, readVarint]
      split at h
      next hlt =>
        obtain ⟨rfl, rfl⟩ := Prod.mk.inj (Option.some.inj h)
        rw [if_pos hlt]
      next hge =>
        cases hread : readVarint input with
        | none => rw [hread] at h; cases h
        | some out =>
            rw [hread] at h
            obtain ⟨rfl, rfl⟩ := Prod.mk.inj (Option.some.inj h)
            rw [if_neg hge, ih hread]
            rfl

/-- A decoder that does not look at the bytes it leaves. -/
class Streaming (α : Type) [Codec α] : Prop where
  decode_append : ∀ {input rest : List UInt8} {x : α} (extra : List UInt8),
    Codec.decode input = some (x, rest) → Codec.decode (input ++ extra) = some (x, rest ++ extra)

instance : Streaming Nat := ⟨readVarint_append⟩

end Bytes
