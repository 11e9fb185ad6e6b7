import RasterH3.Lib.Bytes
import Mathlib.Data.List.Basic

/-!
# Protobuf messages on the wire

A message is a list of fields, each a number and a payload of one of four wire types; what
the fields mean is for the schema to say. Reading a message back is reading its fields one
after the other until the bytes are used up, so the one law needed is that a field can be
told from what follows it.

Fields may come in any order and more than once. The lookups by number follow the rules for
that: of a number the last occurrence counts, of repeated messages all of them do, in order.
Lemmas go with the ways in which messages are put together, by appending lists of fields and
by mapping a list to fields of one number.
-/

namespace Protobuf

open Bytes

inductive WireValue where
  | varint (n : Nat)
  | fixed64 (n : Nat)
  | bytes (b : List UInt8)
  | fixed32 (n : Nat)
  deriving DecidableEq, Repr

structure Field where
  number : Nat
  payload : WireValue
  deriving DecidableEq, Repr

namespace WireValue

def wireType : WireValue → Nat
  | varint _ => 0
  | fixed64 _ => 1
  | bytes _ => 2
  | fixed32 _ => 5

def write : WireValue → List UInt8
  | varint n => writeVarint n
  | fixed64 n => writeLe 8 n
  | bytes b => writeVarint b.length ++ b
  | fixed32 n => writeLe 4 n

/-- The fixed widths hold what they are given. -/
def Fits : WireValue → Prop
  | fixed64 n => n < 256 ^ 8
  | fixed32 n => n < 256 ^ 4
  | varint _ | bytes _ => True

def read (wire : Nat) (input : List UInt8) : Option (WireValue × List UInt8) :=
  match wire with
  | 0 => (readVarint input).map fun (n, rest) => (varint n, rest)
  | 1 => (readLe 8 input).map fun (n, rest) => (fixed64 n, rest)
  | 2 =>
      match readVarint input with
      | none => none
      | some (n, rest) =>
          if n ≤ rest.length then some (bytes (rest.take n), rest.drop n) else none
  | 5 => (readLe 4 input).map fun (n, rest) => (fixed32 n, rest)
  | _ => none

theorem read_write {p : WireValue} (h : p.Fits) (rest : List UInt8) :
    read p.wireType (p.write ++ rest) = some (p, rest) := by
  cases p with
  | varint n => simp only [wireType, write, read, readVarint_writeVarint, Option.map_some]
  | fixed64 n => simp only [wireType, write, read, readLe_writeLe_of_lt h, Option.map_some]
  | fixed32 n => simp only [wireType, write, read, readLe_writeLe_of_lt h, Option.map_some]
  | bytes b =>
      simp only [wireType, write, read, List.append_assoc, readVarint_writeVarint]
      rw [if_pos (by simp), List.take_left, List.drop_left]

theorem wireType_lt (p : WireValue) : p.wireType < 8 := by
  cases p <;> simp [wireType]

end WireValue

/-- `(field_number << 3) | wire_type`, a key and also a drawing command. -/
def tag (number low : Nat) : Nat := number <<< 3 ||| low

theorem tag_eq {number low : Nat} (h : low < 8) : tag number low = 8 * number + low := by
  have hshift : number <<< 3 = 2 ^ 3 * number := by
    rw [Nat.shiftLeft_eq, Nat.mul_comm]
  rw [tag, hshift]
  exact (Nat.two_pow_add_eq_or_of_lt h number).symm

namespace Field

def write (f : Field) : List UInt8 :=
  writeVarint (tag f.number f.payload.wireType) ++ f.payload.write

def read (input : List UInt8) : Option (Field × List UInt8) :=
  match readVarint input with
  | none => none
  | some (key, rest) =>
      (WireValue.read (key % 8) rest).map fun (payload, rest) => (⟨key / 8, payload⟩, rest)

theorem read_write {f : Field} (h : f.payload.Fits) (rest : List UInt8) :
    read (f.write ++ rest) = some (f, rest) := by
  have hlt := f.payload.wireType_lt
  have hmod : tag f.number f.payload.wireType % 8 = f.payload.wireType := by
    rw [tag_eq hlt]
    omega
  have hdiv : tag f.number f.payload.wireType / 8 = f.number := by
    rw [tag_eq hlt]
    omega
  simp only [read, write, List.append_assoc, readVarint_writeVarint, hmod, hdiv,
    WireValue.read_write h, Option.map_some]

end Field

theorem writeVarint_ne_nil (n : Nat) : writeVarint n ≠ [] := by
  rw [writeVarint]
  split <;> simp

/-! ## Readers that go on to the end

Every round takes a byte, so the length bounds the rounds. -/

section ReadAll

variable {α : Type}

def readAll (read : List UInt8 → Option (α × List UInt8)) :
    Nat → List UInt8 → Option (List α)
  | _, [] => some []
  | 0, _ :: _ => none
  | rounds + 1, b :: bytes =>
      match read (b :: bytes) with
      | none => none
      | some (x, rest) => (readAll read rounds rest).map (x :: ·)

theorem readAll_flatMap {read : List UInt8 → Option (α × List UInt8)} {write : α → List UInt8}
    {xs : List α} (hread : ∀ x ∈ xs, ∀ rest, read (write x ++ rest) = some (x, rest))
    (hne : ∀ x ∈ xs, write x ≠ []) {rounds : Nat} (hle : (xs.flatMap write).length ≤ rounds) :
    readAll read rounds (xs.flatMap write) = some xs := by
  induction xs generalizing rounds with
  | nil => cases rounds <;> rfl
  | cons x xs ih =>
      have hpos : 0 < (write x).length :=
        List.length_pos_iff.mpr (hne x List.mem_cons_self)
      rw [List.flatMap_cons, List.length_append] at hle
      obtain ⟨b, bytes, hcons⟩ : ∃ b bytes, write x ++ xs.flatMap write = b :: bytes :=
        List.exists_cons_of_ne_nil (by simp [hne x List.mem_cons_self])
      cases rounds with
      | zero => omega
      | succ rounds =>
          rw [List.flatMap_cons, hcons, readAll, ← hcons, hread x List.mem_cons_self]
          simp only []
          rw [ih (fun y hy => hread y (List.mem_cons_of_mem x hy))
            (fun y hy => hne y (List.mem_cons_of_mem x hy)) (by omega), Option.map_some]

end ReadAll

def readMessage (bytes : List UInt8) : Option (List Field) :=
  readAll Field.read bytes.length bytes

def writeMessage (fields : List Field) : List UInt8 := fields.flatMap Field.write

theorem readMessage_writeMessage {fields : List Field} (h : ∀ f ∈ fields, f.payload.Fits) :
    readMessage (writeMessage fields) = some fields :=
  readAll_flatMap (fun f hf => Field.read_write (h f hf))
    (fun f _ => by simp [Field.write, writeVarint_ne_nil]) le_rfl

/-- A packed field of varints. -/
def readPacked (bytes : List UInt8) : Option (List Nat) :=
  readAll readVarint bytes.length bytes

def writePacked (ns : List Nat) : List UInt8 := ns.flatMap writeVarint

theorem readPacked_writePacked (ns : List Nat) : readPacked (writePacked ns) = some ns :=
  readAll_flatMap (fun n _ => readVarint_writeVarint n) (fun n _ => writeVarint_ne_nil n) le_rfl

/-! ## Fields by number -/

/-- The length-delimited payloads under a number, in order. -/
def bytesAt (number : Nat) (fields : List Field) : List (List UInt8) :=
  fields.filterMap fun f =>
    match f.payload with
    | .bytes b => if f.number = number then some b else none
    | _ => none

def varintsAt (number : Nat) (fields : List Field) : List Nat :=
  fields.filterMap fun f =>
    match f.payload with
    | .varint n => if f.number = number then some n else none
    | _ => none

/-- The last varint under a number counts. -/
def varintAt (number : Nat) (fields : List Field) : Option Nat :=
  (varintsAt number fields).getLast?

@[simp] theorem bytesAt_nil (number : Nat) : bytesAt number [] = [] := rfl

@[simp] theorem bytesAt_append (number : Nat) (fs gs : List Field) :
    bytesAt number (fs ++ gs) = bytesAt number fs ++ bytesAt number gs :=
  List.filterMap_append

@[simp] theorem bytesAt_cons_varint (number m n : Nat) (fs : List Field) :
    bytesAt number (⟨m, .varint n⟩ :: fs) = bytesAt number fs := rfl

@[simp] theorem bytesAt_cons_bytes (number m : Nat) (b : List UInt8) (fs : List Field) :
    bytesAt number (⟨m, .bytes b⟩ :: fs) =
      if m = number then b :: bytesAt number fs else bytesAt number fs := by
  by_cases h : m = number <;> simp [bytesAt, h]

@[simp] theorem bytesAt_map_bytes (number m : Nat) (bs : List (List UInt8)) :
    bytesAt number (bs.map fun b => ⟨m, .bytes b⟩) = if m = number then bs else [] := by
  by_cases h : m = number <;> simp [bytesAt, List.filterMap_map, h]

@[simp] theorem varintsAt_nil (number : Nat) : varintsAt number [] = [] := rfl

@[simp] theorem varintsAt_append (number : Nat) (fs gs : List Field) :
    varintsAt number (fs ++ gs) = varintsAt number fs ++ varintsAt number gs :=
  List.filterMap_append

@[simp] theorem varintsAt_cons_varint (number m n : Nat) (fs : List Field) :
    varintsAt number (⟨m, .varint n⟩ :: fs) =
      if m = number then n :: varintsAt number fs else varintsAt number fs := by
  by_cases h : m = number <;> simp [varintsAt, h]

@[simp] theorem varintsAt_cons_bytes (number m : Nat) (b : List UInt8) (fs : List Field) :
    varintsAt number (⟨m, .bytes b⟩ :: fs) = varintsAt number fs := rfl

@[simp] theorem varintsAt_map_bytes (number m : Nat) (bs : List (List UInt8)) :
    varintsAt number (bs.map fun b => ⟨m, .bytes b⟩) = [] := by
  simp [varintsAt, List.filterMap_map]

end Protobuf
