import RasterH3.Agg.Spill
import RasterH3.Lib.Reader

/-!
# Sorted runs of an export

A feature that waits to be sorted is a `SortRecord`: the latitude of its cell's centre, the
cell, and its properties with the names interned as ids. A run file is one record after the
other without any framing, and reading it back stops where the file does.

Floats are their bits: nothing here computes with them, and equality of property values is
equality of bits in the source too. A string is its UTF-8 bytes.

A reader takes bytes off the front and fails with the error of a short read, of an unknown
tag or of a text that is not UTF-8. The latitude of a record is the one field where a short
read is no error. The digits of a cell are written into an array of sixteen bytes from
behind and then moved to its front, as the source does it, and what was behind them stays.
-/

namespace RasterH3.Pmtiles

open Agg (CellIndex)
open Bytes

inductive RunError where
  | tooManyProperties
  | stringTooLong
  | unexpectedEof
  | invalidUtf8
  | unknownTag (tag : UInt8)
  | tooManyNames
  deriving DecidableEq, Repr

namespace RunError

def message : RunError → String
  | tooManyProperties => "more than 65535 properties on one feature"
  | stringTooLong => "property string longer than 4 GiB"
  | unexpectedEof => "failed to fill whole buffer"
  | invalidUtf8 => "invalid utf-8 sequence"
  | unknownTag tag => "corrupt export run: unknown value tag " ++ toString tag.toNat
  | tooManyNames => "more than 65535 distinct property names"

end RunError

inductive MvtValue where
  | string (s : String)
  | hexStr (bytes : Vector UInt8 16) (len : UInt8)
  | float (bits : UInt32)
  | double (bits : UInt64)
  | int (v : Int64)
  | uint (v : UInt64)
  | bool (v : Bool)
  deriving DecidableEq

/-- The bytes of a `HexStr` that count, as the writer takes them. -/
def hexBytes (bytes : Vector UInt8 16) (len : UInt8) : List UInt8 :=
  bytes.toList.take (min len.toNat 16)

namespace MvtValue

/-- Equal as values: the rest of a `HexStr`'s array is not looked at. -/
def Same : MvtValue → MvtValue → Prop
  | hexStr a lenA, hexStr b lenB => lenA = lenB ∧ hexBytes a lenA = hexBytes b lenB
  | v, v' => v = v'

instance : DecidableRel Same := fun v v' => by
  cases v <;> cases v' <;> unfold Same <;> infer_instance

/-! ### Digits -/

def hexDigit (n : Nat) : UInt8 := if n < 10 then UInt8.ofNat (48 + n) else UInt8.ofNat (87 + n)

/-- The loop of `fast_hex_u64`: `idx` places are left before the digits written. -/
def hexLoop : Nat → Nat → List UInt8 → List UInt8
  | 0, _, digits => digits
  | idx + 1, val, digits =>
      if val = 0 then digits else hexLoop idx (val / 16) (hexDigit (val % 16) :: digits)

/-- `fast_hex_u64`: no leading zeros, and one digit for zero. -/
def fastHexU64 (val : Nat) : List UInt8 := if val = 0 then [hexDigit 0] else hexLoop 16 val []

/-- The digits are written right-aligned and then copied to the front; what was
behind them stays. -/
def fromHexU64 (n : Nat) : MvtValue :=
  let digits := fastHexU64 n
  let aligned := List.replicate (16 - digits.length) 0 ++ digits
  let shifted := digits ++ aligned.drop digits.length
  .hexStr (Vector.ofFn fun i => shifted.getD i 0) (UInt8.ofNat digits.length)

end MvtValue

structure SortRecord where
  lat : UInt64
  h3Index : CellIndex
  properties : List (UInt16 × MvtValue)
  deriving DecidableEq

namespace SortRecord

structure Same (r r' : SortRecord) : Prop where
  lat : r.lat = r'.lat
  h3Index : r.h3Index = r'.h3Index
  properties : List.Forall₂ (fun p p' => p.1 = p'.1 ∧ p.2.Same p'.2) r.properties r'.properties

end SortRecord

def utf8 (s : String) : List UInt8 := s.toByteArray.data.toList

def fromUtf8 (bytes : List UInt8) : Option String := String.fromUTF8? ⟨bytes.toArray⟩

/-! ## Writing -/

def writeValue : MvtValue → Except RunError (List UInt8)
  | .string s =>
      if (utf8 s).length < 2 ^ 32 then .ok ([0] ++ writeLe 4 (utf8 s).length ++ utf8 s)
      else .error .stringTooLong
  | .hexStr bytes len => .ok ([1, len] ++ hexBytes bytes len)
  | .float bits => .ok ([2] ++ writeLe 4 bits.toNat)
  | .double bits => .ok ([3] ++ writeLe 8 bits.toNat)
  | .int v => .ok ([4] ++ writeI64 v)
  | .uint v => .ok ([5] ++ writeLe 8 v.toNat)
  | .bool v => .ok [6, if v then 1 else 0]

def writeProperties : List (UInt16 × MvtValue) → Except RunError (List UInt8)
  | [] => .ok []
  | (key, value) :: rest => do
      let bytes ← writeValue value
      let rest ← writeProperties rest
      return writeLe 2 key.toNat ++ bytes ++ rest

def SortRecord.write (r : SortRecord) : Except RunError (List UInt8) :=
  if r.properties.length < 2 ^ 16 then do
    let properties ← writeProperties r.properties
    return writeLe 8 r.lat.toNat ++ writeFin64 r.h3Index ++ writeLe 2 r.properties.length ++
      properties
  else .error .tooManyProperties

def writeRun : List SortRecord → Except RunError (List UInt8)
  | [] => .ok []
  | r :: records => do
      let bytes ← r.write
      let rest ← writeRun records
      return bytes ++ rest

/-! ## Reading -/

abbrev RunReader := Reader RunError

def readExact (n : Nat) : RunReader (List UInt8) := Reader.exact .unexpectedEof n

/-- `from_le_bytes(read_array(r)?)` of `w` bytes. -/
def readArray (w : Nat) : RunReader Nat := Reader.le .unexpectedEof w

def readString : RunReader MvtValue := do
  let len ← readArray 4
  let buf ← readExact len
  match fromUtf8 buf with
  | some s => return .string s
  | none => throw .invalidUtf8

def readHexStr : RunReader MvtValue := do
  let len ← readArray 1
  let bytes ← readExact (min len 16)
  return .hexStr (Vector.ofFn fun i => bytes.getD i 0) (UInt8.ofNat len)

def readValue (tag : Nat) : RunReader MvtValue :=
  match tag with
  | 0 => readString
  | 1 => readHexStr
  | 2 => do return .float (UInt32.ofNat (← readArray 4))
  | 3 => do return .double (UInt64.ofNat (← readArray 8))
  | 4 => do return .int (Int64.ofBitVec (BitVec.ofNat 64 (← readArray 8)))
  | 5 => do return .uint (UInt64.ofNat (← readArray 8))
  | 6 => do return .bool ((← readArray 1) != 0)
  | other => throw (.unknownTag (UInt8.ofNat other))

def readProperty : RunReader (UInt16 × MvtValue) := do
  let key ← readArray 2
  let tag ← readArray 1
  let value ← readValue tag
  return (UInt16.ofNat key, value)

/-- What follows the latitude. -/
def readBody (lat : UInt64) : RunReader SortRecord := do
  let h3Index ← readArray 8
  let count ← readArray 2
  let properties ← Reader.repeated readProperty count
  return ⟨lat, Fin.ofNat _ h3Index, properties⟩

/-- `SortRecord::read_from`. A read of the latitude that fails for want of bytes
is taken for the end of the run. -/
def readFrom (input : List UInt8) : Except RunError (Option SortRecord × List UInt8) :=
  match readArray 8 input with
  | .error _ => .ok (none, [])
  | .ok (lat, rest) => do
      let (record, rest) ← readBody (UInt64.ofNat lat) rest
      return (some record, rest)

/-- The records read, and the error that ended the reading if one did. Every
round takes a record. -/
def readRun : Nat → List UInt8 → List SortRecord × Option RunError
  | 0, _ => ([], none)
  | rounds + 1, input =>
      match readFrom input with
      | .error e => ([], some e)
      | .ok (none, _) => ([], none)
      | .ok (some record, rest) =>
          let (records, last) := readRun rounds rest
          (record :: records, last)

/-- A whole file; no record is empty, so its bytes bound the rounds. -/
def readFile (file : List UInt8) : List SortRecord × Option RunError :=
  readRun (file.length + 1) file

end RasterH3.Pmtiles
