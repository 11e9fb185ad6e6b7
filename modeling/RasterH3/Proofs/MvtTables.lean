import RasterH3.Lib.Related
import RasterH3.Proofs.MvtGeometry
import RasterH3.Proofs.SortRunCodec

/-!
# Shared keys and values

The features of a layer share a table of keys and a table of values, and a feature has a
list of indices into both. A value that equals one already in the table gets its index. So
what a reader finds there need not be the value itself, because a text is held as a string
or as the bytes of an array: `meaning` is what a reader makes of a value, and equality as
the encoder takes it is shown to be equality of meanings (`meaning_eq_of_valueEq`).

The tables grow at their ends only (`Grows`), so that an index stays right however many
features follow. A feature can therefore be looked at when it is written, and is read later,
from the tables that are left after the last one (`decodeTags_tags`). The invariant is that
an index in a map leads to the key or the value it was given for (`Ok`); one tag keeps it
(`ok_addTag`), and the tags of a feature are an induction over that.

An index is written as 32 bits. A table with more entries would hand out indices that are
short of their number, and so the statements ask for room (`Room`), as many entries as tags
are still to come.

A table of values is written whole or not at all. Whether it can be written is asked of the
properties of the features, and for that their values and the table have to be the same up
to meaning, with or without room. `Listed` carries this: what the map knows is in the table,
so that after a tag its value is there, and nothing else has come to it (`listed_addTag`).
-/

namespace RasterH3.Pmtiles.Mvt

open Bytes Protobuf

/-! ## What a value means -/

def meaning : MvtValue → Option TileValue
  | .string s => some (.string s)
  | .hexStr bytes len =>
      if 16 < len.toNat then none else (fromUtf8 (hexBytes bytes len)).map .string
  | .float bits => some (.float bits)
  | .double bits => some (.double bits)
  | .int v => some (.int v)
  | .uint v => some (.uint v)
  | .bool v => some (.bool v)

/-- A `HexStr` lies in its array and is a string. -/
def Spelled : MvtValue → Prop
  | .hexStr bytes len => len.toNat ≤ 16 ∧ (fromUtf8 (hexBytes bytes len)).isSome
  | _ => True

theorem spelled_iff {v : MvtValue} : Spelled v ↔ ∃ m, meaning v = some m := by
  cases v with
  | hexStr bytes len =>
      simp only [Spelled, meaning]
      split
      next h =>
        constructor
        · exact fun hs => absurd hs.1 (by omega)
        · rintro ⟨m, hm⟩
          cases hm
      next h =>
        rw [Option.isSome_iff_exists]
        constructor
        · rintro ⟨-, s, hs⟩
          exact ⟨.string s, by rw [hs]; rfl⟩
        · rintro ⟨m, hm⟩
          obtain ⟨s, hs, -⟩ := Option.map_eq_some_iff.mp hm
          exact ⟨by omega, s, hs⟩
  | string s => exact ⟨fun _ => ⟨_, rfl⟩, fun _ => trivial⟩
  | float bits => exact ⟨fun _ => ⟨_, rfl⟩, fun _ => trivial⟩
  | double bits => exact ⟨fun _ => ⟨_, rfl⟩, fun _ => trivial⟩
  | int i => exact ⟨fun _ => ⟨_, rfl⟩, fun _ => trivial⟩
  | uint u => exact ⟨fun _ => ⟨_, rfl⟩, fun _ => trivial⟩
  | bool b => exact ⟨fun _ => ⟨_, rfl⟩, fun _ => trivial⟩

theorem meaning_hexStr_of_utf8 {bytes : Vector UInt8 16} {len : UInt8} {s : String}
    (hlen : len.toNat ≤ 16) (h : utf8 s = hexBytes bytes len) :
    meaning (.hexStr bytes len) = some (.string s) := by
  rw [meaning, if_neg (by omega), ← h, fromUtf8_utf8]
  rfl

theorem meaning_eq_of_valueEq {v v' : MvtValue} (h : valueEq v v' = true) :
    meaning v = meaning v' := by
  cases v <;> cases v' <;>
    simp only [valueEq, beq_iff_eq, Bool.and_eq_true, decide_eq_true_eq, Bool.false_eq_true] at h
  case string.string a b =>
    have hab : some a = some b := by
      rw [← fromUtf8_utf8 a, h, fromUtf8_utf8]
    rw [Option.some.inj hab]
  case string.hexStr a b len => exact (meaning_hexStr_of_utf8 h.1 h.2).symm
  case hexStr.string b len a => exact meaning_hexStr_of_utf8 h.1 h.2.symm
  case hexStr.hexStr a lenA b lenB =>
    obtain ⟨rfl, hbytes⟩ := h
    rw [meaning, meaning, hbytes]
  all_goals rw [h]

/-! ## Values on the wire -/

theorem writeBytesField_eq (n : Nat) (b : List UInt8) :
    writeBytesField n b = Field.write ⟨n, .bytes b⟩ := by
  simp [writeBytesField, writeTag, Field.write, WireValue.write, WireValue.wireType]

theorem writeBytesField_message (n : Nat) (b : List UInt8) :
    writeBytesField n b = writeMessage [⟨n, .bytes b⟩] := by
  simp [writeBytesField_eq, writeMessage]

theorem decodeValue_string (s : String) :
    decodeValue (writeStringField 1 s) = some (.string s) := by
  rw [writeStringField, writeBytesField_message, decodeValue,
    readMessage_writeMessage (by simp [WireValue.Fits])]
  show (fromUtf8 (utf8 s)).map TileValue.string = _
  rw [fromUtf8_utf8]
  rfl

theorem readMessage_field {n : Nat} {p : WireValue} (hp : p.Fits) :
    readMessage (Field.write ⟨n, p⟩) = some [⟨n, p⟩] := by
  have hmessage : Field.write ⟨n, p⟩ = writeMessage [⟨n, p⟩] := by
    simp [writeMessage]
  rw [hmessage]
  exact readMessage_writeMessage (by simpa using hp)

theorem decodeValue_writeTo {v : MvtValue} {bytes : List UInt8} (h : writeTo v = some bytes) :
    decodeValue bytes = meaning v := by
  cases v with
  | string s =>
      obtain rfl := Option.some.inj h
      exact decodeValue_string s
  | hexStr hex len =>
      rw [writeTo] at h
      rw [meaning]
      split at h
      next => cases h
      next hlen =>
        rw [if_neg hlen]
        split at h
        next s hs =>
          obtain rfl := Option.some.inj h
          rw [hs]
          exact decodeValue_string s
        next hs =>
          obtain rfl := Option.some.inj h
          rw [hs]
          rfl
  | float bits =>
      obtain rfl := Option.some.inj h
      have hread : readMessage (writeTag 2 5 ++ writeLe 4 bits.toNat) = _ :=
        readMessage_field (n := 2) (p := .fixed32 bits.toNat) bits.toNat_lt
      rw [decodeValue, hread]
      show some (TileValue.float (UInt32.ofNat bits.toNat)) = _
      rw [UInt32.ofNat_toNat]
      rfl
  | double bits =>
      obtain rfl := Option.some.inj h
      have hread : readMessage (writeTag 3 1 ++ writeLe 8 bits.toNat) = _ :=
        readMessage_field (n := 3) (p := .fixed64 bits.toNat) bits.toNat_lt
      rw [decodeValue, hread]
      show some (TileValue.double (UInt64.ofNat bits.toNat)) = _
      rw [UInt64.ofNat_toNat]
      rfl
  | int i =>
      obtain rfl := Option.some.inj h
      have hread : readMessage (writeTag 4 0 ++ writeVarint i.toBitVec.toNat) = _ :=
        readMessage_field (n := 4) (p := .varint i.toBitVec.toNat) trivial
      rw [decodeValue, hread]
      show some (TileValue.int (Int64.ofBitVec (BitVec.ofNat 64 i.toBitVec.toNat))) = _
      rw [BitVec.ofNat_toNat, BitVec.setWidth_eq]
      rfl
  | uint u =>
      obtain rfl := Option.some.inj h
      have hread : readMessage (writeTag 5 0 ++ writeVarint u.toNat) = _ :=
        readMessage_field (n := 5) (p := .varint u.toNat) trivial
      rw [decodeValue, hread]
      show some (TileValue.uint (UInt64.ofNat u.toNat)) = _
      rw [UInt64.ofNat_toNat]
      rfl
  | bool b =>
      obtain rfl := Option.some.inj h
      have hread : readMessage (writeTag 7 0 ++ writeVarint (if b then 1 else 0)) = _ :=
        readMessage_field (n := 7) (p := .varint (if b then 1 else 0)) trivial
      rw [decodeValue, hread]
      cases b <;> rfl

theorem writeTo_of_spelled {v : MvtValue} (h : Spelled v) : ∃ bytes, writeTo v = some bytes := by
  cases v with
  | hexStr bytes len =>
      obtain ⟨hlen, hsome⟩ := h
      obtain ⟨s, hs⟩ := Option.isSome_iff_exists.mp hsome
      exact ⟨_, by rw [writeTo, if_neg (by omega), hs]⟩
  | string s => exact ⟨_, rfl⟩
  | float bits => exact ⟨_, rfl⟩
  | double bits => exact ⟨_, rfl⟩
  | int i => exact ⟨_, rfl⟩
  | uint u => exact ⟨_, rfl⟩
  | bool b => exact ⟨_, rfl⟩

/-! ## Everything or nothing -/

section MapAll

variable {α β : Type} {f : α → Option β}

theorem mapAll_cons_eq_some {x : α} {xs : List α} {zs : List β} :
    mapAll f (x :: xs) = some zs ↔
      ∃ y ys, f x = some y ∧ mapAll f xs = some ys ∧ zs = y :: ys := by
  simp only [mapAll, Option.bind_eq_bind, Option.bind_eq_some_iff]
  constructor
  · rintro ⟨y, hy, ys, hys, hzs⟩
    exact ⟨y, ys, hy, hys, (Option.some.inj hzs).symm⟩
  · rintro ⟨y, ys, hy, hys, rfl⟩
    exact ⟨y, hy, ys, hys, rfl⟩

theorem exists_mapAll {xs : List α} (h : ∀ x ∈ xs, ∃ y, f x = some y) :
    ∃ ys, mapAll f xs = some ys := by
  induction xs with
  | nil => exact ⟨[], rfl⟩
  | cons x xs ih =>
      obtain ⟨hx, hxs⟩ := List.forall_mem_cons.mp h
      obtain ⟨y, hy⟩ := hx
      obtain ⟨ys, hys⟩ := ih hxs
      exact ⟨y :: ys, mapAll_cons_eq_some.mpr ⟨y, ys, hy, hys, rfl⟩⟩

theorem exists_of_mapAll {xs : List α} {ys : List β} (h : mapAll f xs = some ys) {x : α}
    (hx : x ∈ xs) : ∃ y, f x = some y := by
  induction xs generalizing ys with
  | nil => cases hx
  | cons x' xs ih =>
      obtain ⟨y, ys, hy, hys, rfl⟩ := mapAll_cons_eq_some.mp h
      rcases List.mem_cons.mp hx with rfl | hx
      · exact ⟨y, hy⟩
      · exact ih hys hx

theorem getElem?_of_mapAll {xs : List α} {ys : List β} (h : mapAll f xs = some ys) {i : Nat}
    {x : α} (hx : xs[i]? = some x) : ∃ y, f x = some y ∧ ys[i]? = some y := by
  induction xs generalizing ys i with
  | nil => cases hx
  | cons x' xs ih =>
      obtain ⟨y, ys, hy, hys, rfl⟩ := mapAll_cons_eq_some.mp h
      cases i with
      | zero =>
          obtain rfl := Option.some.inj hx
          exact ⟨y, hy, rfl⟩
      | succ i => exact ih hys hx

end MapAll

/-! ## Tables -/

namespace Tables

/-- An index in a map leads to the key or value it was given for. -/
structure Ok (t : Tables) : Prop where
  keys : ∀ k i, t.keyMap.lookup k = some i → t.keys[i]? = some k
  values : ∀ e ∈ t.valMap, t.values[e.2]? = some e.1

def Listed (t : Tables) : Prop := ∀ e ∈ t.valMap, e.1 ∈ t.values

structure Grows (t t' : Tables) : Prop where
  keys : t.keys <+: t'.keys
  values : t.values <+: t'.values

theorem Grows.refl (t : Tables) : t.Grows t := ⟨List.prefix_rfl, List.prefix_rfl⟩

theorem Grows.trans {t t' t'' : Tables} (h : t.Grows t') (h' : t'.Grows t'') : t.Grows t'' :=
  ⟨h.keys.trans h'.keys, h.values.trans h'.values⟩

theorem ok_empty : empty.Ok := ⟨fun _ _ h => (by cases h), fun _ h => (by cases h)⟩

theorem listed_empty : empty.Listed := fun _ h => (by cases h)

theorem keyIndex_cases (t : Tables) (k : String) :
    (∃ i, t.keyMap.lookup k = some i ∧ t.keyIndex k = (t, i)) ∨
    t.keyIndex k =
      ({ t with keys := t.keys ++ [k], keyMap := (k, asU32 t.keys.length) :: t.keyMap },
        asU32 t.keys.length) := by
  unfold keyIndex
  split
  next i h => exact .inl ⟨i, h, rfl⟩
  next => exact .inr rfl

theorem valueIndex_cases (t : Tables) (k : String) (v : MvtValue) :
    (∃ e ∈ t.valMap, valueEq e.1 v = true ∧ t.valueIndex k v = (t, e.2)) ∨
    ∃ m, (m = t.valMap ∨ m = (v, asU32 t.values.length) :: t.valMap) ∧
      t.valueIndex k v = ({ t with values := t.values ++ [v], valMap := m },
        asU32 t.values.length) := by
  unfold valueIndex
  simp only []
  split
  next => exact .inr ⟨_, .inl rfl, rfl⟩
  next =>
    split
    next e h => exact .inl ⟨e, List.mem_of_find?_eq_some h, by simpa using List.find?_some h, rfl⟩
    next => exact .inr ⟨_, .inr rfl, rfl⟩

/-- One tag: the tables after it and the two indices. -/
def addTag (t : Tables) (k : String) (v : MvtValue) : Tables × Nat × Nat :=
  let (t, keyIdx) := t.keyIndex k
  let (t, valIdx) := t.valueIndex k v
  (t, keyIdx, valIdx)

theorem tags_cons (t : Tables) (k : String) (v : MvtValue) (props : List (String × MvtValue)) :
    t.tags ((k, v) :: props) =
      (((t.addTag k v).1.tags props).1,
        (t.addTag k v).2.1 :: (t.addTag k v).2.2 :: ((t.addTag k v).1.tags props).2) := rfl

theorem addTag_grows (t : Tables) (k : String) (v : MvtValue) : t.Grows (t.addTag k v).1 := by
  have hkey : t.Grows (t.keyIndex k).1 := by
    rcases t.keyIndex_cases k with ⟨i, -, h⟩ | h <;> rw [h]
    · exact .refl t
    · exact ⟨List.prefix_append _ _, List.prefix_rfl⟩
  refine hkey.trans ?_
  show (t.keyIndex k).1.Grows ((t.keyIndex k).1.valueIndex k v).1
  rcases (t.keyIndex k).1.valueIndex_cases k v with ⟨e, -, -, h⟩ | ⟨m, -, h⟩ <;> rw [h]
  · exact .refl _
  · exact ⟨List.prefix_rfl, List.prefix_append _ _⟩

theorem length_addTag_le (t : Tables) (k : String) (v : MvtValue) :
    (t.addTag k v).1.keys.length ≤ t.keys.length + 1 ∧
      (t.addTag k v).1.values.length ≤ t.values.length + 1 := by
  show ((t.keyIndex k).1.valueIndex k v).1.keys.length ≤ _ ∧
    ((t.keyIndex k).1.valueIndex k v).1.values.length ≤ _
  rcases t.keyIndex_cases k with ⟨i, -, hk⟩ | hk <;>
    rcases (t.keyIndex k).1.valueIndex_cases k v with ⟨e, -, -, hv⟩ | ⟨m, -, hv⟩ <;>
    rw [hv, hk] <;> simp

theorem getElem?_concat_length {α : Type} (xs : List α) (x : α) : (xs ++ [x])[xs.length]? = some x := by
  simp

theorem ok_keyIndex {t : Tables} (ok : t.Ok) (k : String) (h : t.keys.length < 2 ^ 32) :
    (t.keyIndex k).1.Ok ∧ (t.keyIndex k).1.keys[(t.keyIndex k).2]? = some k := by
  rcases t.keyIndex_cases k with ⟨i, hi, heq⟩ | heq
  · rw [heq]
    exact ⟨ok, ok.keys k i hi⟩
  · have hidx : asU32 t.keys.length = t.keys.length := Nat.mod_eq_of_lt h
    rw [heq, hidx]
    refine ⟨⟨fun k' i hi => ?_, ok.values⟩, getElem?_concat_length _ _⟩
    rw [List.lookup_cons] at hi
    split at hi
    next hk =>
      obtain rfl := Option.some.inj hi
      rw [beq_iff_eq.mp hk]
      exact getElem?_concat_length _ _
    next => exact Related.getElem?_of_prefix (List.prefix_append _ _) (ok.keys k' i hi)

theorem ok_valueIndex {t : Tables} (ok : t.Ok) (k : String) (v : MvtValue)
    (h : t.values.length < 2 ^ 32) :
    (t.valueIndex k v).1.Ok ∧
      ∃ v', (t.valueIndex k v).1.values[(t.valueIndex k v).2]? = some v' ∧
        meaning v' = meaning v := by
  rcases t.valueIndex_cases k v with ⟨e, he, hsame, heq⟩ | ⟨m, hm, heq⟩
  · rw [heq]
    exact ⟨ok, e.1, ok.values e he, meaning_eq_of_valueEq hsame⟩
  · have hidx : asU32 t.values.length = t.values.length := Nat.mod_eq_of_lt h
    rw [hidx] at hm
    rw [heq, hidx]
    refine ⟨⟨ok.keys, fun e he => ?_⟩, v, getElem?_concat_length _ _, rfl⟩
    have hold : ∀ e ∈ t.valMap, (t.values ++ [v])[e.2]? = some e.1 := fun e he =>
      Related.getElem?_of_prefix (List.prefix_append _ _) (ok.values e he)
    rcases hm with rfl | rfl
    · exact hold e he
    · rcases List.mem_cons.mp he with rfl | he
      · exact getElem?_concat_length _ _
      · exact hold e he

theorem values_keyIndex (t : Tables) (k : String) :
    (t.keyIndex k).1.values = t.values ∧ (t.keyIndex k).1.valMap = t.valMap := by
  rcases t.keyIndex_cases k with ⟨i, -, h⟩ | h <;> rw [h] <;> exact ⟨rfl, rfl⟩

theorem keys_valueIndex (t : Tables) (k : String) (v : MvtValue) :
    (t.valueIndex k v).1.keys = t.keys := by
  rcases t.valueIndex_cases k v with ⟨e, -, -, h⟩ | ⟨m, -, h⟩ <;> rw [h]

/-- The indices of a tag lead to its key and to a value that means the same. -/
theorem ok_addTag {t : Tables} (ok : t.Ok) (k : String) (v : MvtValue)
    (hk : t.keys.length < 2 ^ 32) (hv : t.values.length < 2 ^ 32) :
    (t.addTag k v).1.Ok ∧ (t.addTag k v).1.keys[(t.addTag k v).2.1]? = some k ∧
      ∃ v', (t.addTag k v).1.values[(t.addTag k v).2.2]? = some v' ∧ meaning v' = meaning v := by
  obtain ⟨okKey, hkey⟩ := ok_keyIndex ok k hk
  rw [← (t.values_keyIndex k).1] at hv
  obtain ⟨okVal, hval⟩ := ok_valueIndex okKey k v hv
  refine ⟨okVal, ?_, hval⟩
  show ((t.keyIndex k).1.valueIndex k v).1.keys[(t.keyIndex k).2]? = some k
  rw [keys_valueIndex]
  exact hkey

/-- After a tag its value is in the table, up to meaning. -/
theorem listed_addTag {t : Tables} (h : t.Listed) (k : String) (v : MvtValue) :
    (t.addTag k v).1.Listed ∧ (∃ v' ∈ (t.addTag k v).1.values, meaning v' = meaning v) ∧
      ∀ v' ∈ (t.addTag k v).1.values, v' ∈ t.values ∨ v' = v := by
  obtain ⟨hvalues, hmap⟩ := t.values_keyIndex k
  have hkey : (t.keyIndex k).1.Listed := by
    intro e he
    rw [hmap] at he
    rw [hvalues]
    exact h e he
  rw [← hvalues]
  show ((t.keyIndex k).1.valueIndex k v).1.Listed ∧
    (∃ v' ∈ ((t.keyIndex k).1.valueIndex k v).1.values, meaning v' = meaning v) ∧
    ∀ v' ∈ ((t.keyIndex k).1.valueIndex k v).1.values, _
  generalize (t.keyIndex k).1 = t at hkey ⊢
  rcases t.valueIndex_cases k v with ⟨e, he, hsame, heq⟩ | ⟨m, hm, heq⟩
  · rw [heq]
    exact ⟨hkey, ⟨e.1, hkey e he, meaning_eq_of_valueEq hsame⟩, fun v' hv' => .inl hv'⟩
  · rw [heq]
    refine ⟨fun e he => ?_, ⟨v, by simp, rfl⟩, fun v' hv' => ?_⟩
    · rcases hm with rfl | rfl
      · exact List.mem_append_left _ (hkey e he)
      · rcases List.mem_cons.mp he with rfl | he
        · exact List.mem_append_right _ (by simp)
        · exact List.mem_append_left _ (hkey e he)
    · simpa using hv'

/-! ## The tags of a feature -/

/-- A property and what is read for it. -/
def Reads (p : String × MvtValue) (q : String × TileValue) : Prop :=
  p.1 = q.1 ∧ meaning p.2 = some q.2

/-- The tables have room for so many tags more. -/
structure Room (t : Tables) (n : Nat) : Prop where
  keys : t.keys.length + n ≤ 2 ^ 32
  values : t.values.length + n ≤ 2 ^ 32

theorem tags_grows (t : Tables) (props : List (String × MvtValue)) : t.Grows (t.tags props).1 := by
  induction props generalizing t with
  | nil => exact .refl t
  | cons p props ih => exact (t.addTag_grows p.1 p.2).trans (ih _)

theorem Room.addTag {t : Tables} {n : Nat} (h : t.Room (n + 1)) (k : String) (v : MvtValue) :
    (t.addTag k v).1.Room n := by
  obtain ⟨hk, hv⟩ := t.length_addTag_le k v
  exact ⟨by have := h.keys; omega, by have := h.values; omega⟩

theorem Room.tags {t : Tables} {n : Nat} (props : List (String × MvtValue))
    (h : t.Room (props.length + n)) : (t.tags props).1.Room n := by
  induction props generalizing t with
  | nil => rwa [List.length_nil, Nat.zero_add] at h
  | cons p props ih =>
      have hroom : t.Room ((props.length + n) + 1) := by
        rwa [List.length_cons, Nat.add_right_comm] at h
      exact ih (hroom.addTag p.1 p.2)

theorem ok_tags {t : Tables} (ok : t.Ok) (props : List (String × MvtValue))
    (h : t.Room props.length) : (t.tags props).1.Ok := by
  induction props generalizing t with
  | nil => exact ok
  | cons p props ih =>
      rw [List.length_cons] at h
      obtain ⟨ok', -⟩ := ok_addTag ok p.1 p.2 (by have := h.keys; omega)
        (by have := h.values; omega)
      exact ih ok' (h.addTag p.1 p.2)

/-- The tags are read right from any tables that these have grown to. -/
theorem decodeTags_tags {t : Tables} (ok : t.Ok) {props : List (String × MvtValue)}
    (h : t.Room props.length) {t' : Tables} (hgrows : (t.tags props).1.Grows t')
    {values : List TileValue} (hvalues : mapAll meaning t'.values = some values) :
    ∃ read, decodeTags t'.keys values (t.tags props).2 = some read ∧
      List.Forall₂ Reads props read := by
  induction props generalizing t with
  | nil => exact ⟨[], rfl, .nil⟩
  | cons p props ih =>
      obtain ⟨k, v⟩ := p
      rw [List.length_cons] at h
      obtain ⟨ok', hkey, v', hval, hmeaning⟩ := ok_addTag ok k v (by have := h.keys; omega)
        (by have := h.values; omega)
      rw [tags_cons] at hgrows ⊢
      have hgrows' := (tags_grows (t.addTag k v).1 props).trans hgrows
      obtain ⟨read, hread, hall⟩ := ih ok' (h.addTag k v) hgrows
      obtain ⟨m, hm, hget⟩ := getElem?_of_mapAll hvalues (Related.getElem?_of_prefix hgrows'.values hval)
      refine ⟨(k, m) :: read, ?_, .cons ⟨rfl, hmeaning ▸ hm⟩ hall⟩
      simp only [decodeTags, Related.getElem?_of_prefix hgrows'.keys hkey, hget, hread,
        Option.bind_eq_bind, Option.bind_some]
      rfl

theorem listed_tags {t : Tables} (h : t.Listed) (props : List (String × MvtValue)) :
    (t.tags props).1.Listed ∧
      (∀ p ∈ props, ∃ v ∈ (t.tags props).1.values, meaning v = meaning p.2) ∧
      ∀ v ∈ (t.tags props).1.values, v ∈ t.values ∨ ∃ p ∈ props, v = p.2 := by
  induction props generalizing t with
  | nil => exact ⟨h, fun p hp => (by cases hp), fun v hv => .inl hv⟩
  | cons p props ih =>
      obtain ⟨hlisted, ⟨w, hw, hmeaning⟩, hfrom⟩ := listed_addTag h p.1 p.2
      obtain ⟨hlisted', hcover, hfrom'⟩ := ih hlisted
      refine ⟨hlisted', fun q hq => ?_, fun v hv => ?_⟩
      · rcases List.mem_cons.mp hq with rfl | hq
        · exact ⟨w, (tags_grows _ props).values.subset hw, hmeaning⟩
        · exact hcover q hq
      · rcases hfrom' v hv with hv | ⟨q, hq, rfl⟩
        · rcases hfrom v hv with hv | rfl
          · exact .inl hv
          · exact .inr ⟨p, List.mem_cons_self, rfl⟩
        · exact .inr ⟨q, List.mem_cons_of_mem p hq, rfl⟩

end Tables

end RasterH3.Pmtiles.Mvt
