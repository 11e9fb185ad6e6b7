import RasterH3.Agg.Remap
import RasterH3.Lib.Text
import Mathlib

/-!
# The text form of remapping rules

A specification is a list of entries between commas or semicolons. An entry has sources and
a target: an integer, a range or a list in brackets on the left, an integer or a word for
nothing on the right. The sources `else`, `default`, `*` and `_` set what happens to the
categories that no rule names.

A list may contain lists. How deep they are nested is not known beforehand, so the reading of
sources takes a number of rounds, one more than the text has characters.
-/

namespace RasterH3.Agg.RemapParser

open Text

inductive RemapError where
  | invalidParameter (what : String)
  | outOfRounds
  deriving DecidableEq, Repr

/-! ## Text -/

/-- What is before and after the first occurrence of a pattern. -/
def splitAtFirst (pattern : List Char) : List Char → Option (List Char × List Char)
  | [] => none
  | c :: s =>
      if pattern.isPrefixOf (c :: s) then some ([], (c :: s).drop pattern.length)
      else (splitAtFirst pattern s).map fun (before, after) => (c :: before, after)

/-- `str::split`. -/
def splitAll (separator : Char) : List Char → List (List Char)
  | [] => [[]]
  | c :: s =>
      if c = separator then [] :: splitAll separator s
      else
        match splitAll separator s with
        | [] => [[c]]
        | part :: parts => (c :: part) :: parts

/-- `str::parse::<i64>`: a sign and digits. -/
def parseI64 (s : List Char) : Option Int64 :=
  let (negative, digits) := match s with
    | '-' :: rest => (true, rest)
    | '+' :: rest => (false, rest)
    | s => (false, s)
  if digits ≠ [] ∧ digits.all Char.isDigit then
    let n : Nat := digits.foldl (fun n c => 10 * n + (c.toNat - '0'.toNat)) 0
    let value : Int := if negative then -n else n
    if -2 ^ 63 ≤ value ∧ value < 2 ^ 63 then some (Int64.ofInt value) else none
  else none

def enclosed (first last : Char) (s : List Char) : Bool :=
  s.head? = some first ∧ s.getLast? = some last

def inner (s : List Char) : List Char := s.tail.dropLast

def text (s : List Char) : String := String.ofList s

/-! ## Tokens -/

def isFallbackToken (s : List Char) : Bool :=
  text (s.map Char.toLower) ∈ ["else", "default", "*", "_"]

/-- Surrounding quotes are stripped. -/
def cleanToken (s : List Char) : List Char :=
  let t := trim s
  let double := Char.ofNat 34
  let single := Char.ofNat 39
  if (enclosed double double t || enclosed single single t) && 2 ≤ t.length then trim (inner t)
  else t

def parseTarget (s : List Char) : Except RemapError (Option Int64) :=
  if text (s.map Char.toLower) ∈ ["null", "none", "nodata", "drop", "skip"] then .ok none
  else
    match parseI64 s with
    | some target => .ok (some target)
    | none => .error (.invalidParameter ("Invalid target category '" ++ text s ++
        "': must be an integer or 'null'"))

/-! ## Sources -/

/-- Nested wrappers of one element are collapsed. -/
def collapse (rounds : Nat) (trimmed : List Char) : List Char :=
  match rounds with
  | 0 => trimmed
  | rounds + 1 =>
      if enclosed '[' ']' trimmed then
        let content := trim (inner trimmed)
        if enclosed '[' ']' content ∧ ',' ∉ inner content then collapse rounds content
        else trimmed
      else trimmed

def parseRange (trimmed start stop : List Char) (target : Option Int64) :
    Except RemapError RemapRule :=
  match parseI64 (trim start) with
  | none => .error (.invalidParameter ("Invalid range start in '" ++ text trimmed ++ "'"))
  | some s =>
      match parseI64 (trim stop) with
      | none => .error (.invalidParameter ("Invalid range end in '" ++ text trimmed ++ "'"))
      | some e => .ok (.range s e target)

/-- `101-109`. The first character may be a sign, and it must be one byte long. -/
def hyphenRange (trimmed : List Char) : Option (Int64 × Int64) :=
  match trimmed with
  | [] => none
  | c :: rest =>
      if c.toNat < 128 then do
        let (left, right) ← splitAtFirst ['-'] rest
        let s ← parseI64 (trim (c :: left))
        let e ← parseI64 (trim right)
        return (s, e)
      else none

/-- A range or a single category. -/
def parseSingle (trimmed : List Char) (target : Option Int64) : Except RemapError RemapRule :=
  match splitAtFirst ['.', '.', '='] trimmed with
  | some (start, stop) => parseRange trimmed start stop target
  | none =>
      match splitAtFirst ['.', '.'] trimmed with
      | some (start, stop) => parseRange trimmed start stop target
      | none =>
          match hyphenRange trimmed with
          | some (s, e) => .ok (.range s e target)
          | none =>
              match parseI64 trimmed with
              | some value => .ok (.exact value target)
              | none => .error (.invalidParameter ("Invalid category specification '" ++
                  text trimmed ++
                  "': must be an integer, range (e.g. 101..109), or 'else'"))

def parseSourceRules (rounds : Nat) (src : List Char) (target : Option Int64)
    (rules : List RemapRule) : Except RemapError (List RemapRule) :=
  match rounds with
  | 0 => .error .outOfRounds
  | rounds + 1 =>
      let trimmed := collapse (trim src).length (trim src)
      if enclosed '[' ']' trimmed then
        (splitAll ',' (inner trimmed)).foldlM
          (fun rules part => parseSourceRules rounds (trim part) target rules) rules
      else do
        let rule ← parseSingle trimmed target
        return rules ++ [rule]

/-! ## Entries -/

/-- Commas and semicolons outside of brackets end an entry. `current` is read backwards. -/
def splitEntries (current : List Char) (inBracket : Bool) : List Char → List (List Char)
  | [] => if trim current = [] then [] else [current.reverse]
  | c :: s =>
      if c = '[' then splitEntries (c :: current) true s
      else if c = ']' then splitEntries (c :: current) false s
      else if (c = ',' ∨ c = ';') ∧ inBracket = false then
        if trim current = [] then splitEntries current inBracket s
        else current.reverse :: splitEntries [] inBracket s
      else splitEntries (c :: current) inBracket s

/-- `=>`, `->` or a colon, in this order. -/
def splitItem (item : List Char) : Except RemapError (List Char × List Char) :=
  match splitAtFirst ['=', '>'] item with
  | some parts => .ok parts
  | none =>
      match splitAtFirst ['-', '>'] item with
      | some parts => .ok parts
      | none =>
          match splitAtFirst [':'] item with
          | some parts => .ok parts
          | none => .error (.invalidParameter ("Invalid remap entry '" ++ text item ++
              "': missing ':' separator (e.g. '101..109: 1')"))

/-- The rules so far and what happens to the other categories. -/
abbrev Read := List RemapRule × UnmappedAction

def parseEntry (read : Read) (entry : List Char) : Except RemapError Read :=
  let item := trim entry
  if item = [] then .ok read
  else do
    let (srcPart, targetPart) ← splitItem item
    let src := cleanToken srcPart
    let target ← parseTarget (cleanToken targetPart)
    if isFallbackToken src then
      return (read.1, match target with
        | none => .drop
        | some v => .mapTo v)
    else do
      let rules ← parseSourceRules (src.length + 1) src target read.1
      return (rules, read.2)

def parseRules (spec : List Char) : Except RemapError Read :=
  let trimmed := trim spec
  if trimmed = [] then .error (.invalidParameter "Remap specification cannot be empty")
  else
    let clean :=
      if enclosed '{' '}' trimmed || enclosed '[' ']' trimmed then trim (inner trimmed)
      else trimmed
    (splitEntries [] false clean).foldlM parseEntry ([], .passThrough)

def parse (spec : List Char) : Except RemapError CategoryRemapper := do
  let (rules, unmappedAction) ← parseRules spec
  return CategoryRemapper.new rules unmappedAction

end RasterH3.Agg.RemapParser
