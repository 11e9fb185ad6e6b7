import Mathlib.Data.List.AList

/-!
# Remapping of categories

Rules give single categories and ranges of them a target, or drop them. They are kept in two
forms: a map and a list of ranges, and, where all of them lie between 0 and 65535, a table
of targets up to the greatest category that a rule names.

A lookup takes the table if there is one and the category is in it, and goes through map and
ranges otherwise. The two are written here as the source has them, with the loop over the
rules gathering the map, the list and the bounds of the table in one pass. The text form of
the rules is read in a module of its own.
-/

namespace RasterH3.Agg

inductive UnmappedAction where
  | passThrough
  | drop
  | mapTo (target : Int64)
  deriving DecidableEq, Repr

def UnmappedAction.apply (action : UnmappedAction) (cat : Int64) : Option Int64 :=
  match action with
  | .passThrough => some cat
  | .drop => none
  | .mapTo target => some target

/-- No target stands for a category that is dropped. -/
inductive RemapRule where
  | exact (src : Int64) (target : Option Int64)
  | range (first last : Int64) (target : Option Int64)
  deriving DecidableEq, Repr

/-- The ends of a range in order, and its target. -/
abbrev RangeRule := Int64 × Int64 × Option Int64

def RangeRule.contains (rule : RangeRule) (cat : Int64) : Bool := rule.1 ≤ cat && cat ≤ rule.2.1

structure CategoryRemapper where
  lut : Option (List (Option Int64))
  directMap : AList fun _ : Int64 => Option Int64
  rangeRules : List RangeRule
  unmappedAction : UnmappedAction

namespace CategoryRemapper

/-- What the loop over the rules has gathered, with the least and the greatest category. -/
structure Gathered where
  directMap : AList fun _ : Int64 => Option Int64
  rangeRules : List RangeRule
  bounds : Option (Int64 × Int64)

def Gathered.widen (g : Gathered) (s e : Int64) : Option (Int64 × Int64) :=
  match g.bounds with
  | none => some (s, e)
  | some (minVal, maxVal) => some (min minVal s, max maxVal e)

def Gathered.add (g : Gathered) : RemapRule → Gathered
  | .exact src target =>
      { g with directMap := g.directMap.insert src target, bounds := g.widen src src }
  | .range first last target =>
      let (s, e) := if first ≤ last then (first, last) else (last, first)
      { g with rangeRules := g.rangeRules ++ [(s, e, target)], bounds := g.widen s e }

def gather (rules : List RemapRule) : Gathered := rules.foldl Gathered.add ⟨∅, [], none⟩

/-- The entry of the table for a category. -/
def lutEntry (g : Gathered) (unmappedAction : UnmappedAction) (cat : Int64) : Option Int64 :=
  match g.directMap.lookup cat with
  | some target => target
  | none =>
      match g.rangeRules.find? (RangeRule.contains · cat) with
      | some rule => rule.2.2
      | none => unmappedAction.apply cat

def new (rules : List RemapRule) (unmappedAction : UnmappedAction) : CategoryRemapper :=
  let g := gather rules
  let lut :=
    match g.bounds with
    | some (minVal, maxVal) =>
        if 0 ≤ minVal ∧ maxVal ≤ 65535 then
          some ((List.range (maxVal.toInt.toNat + 1)).map fun i =>
            lutEntry g unmappedAction (Int64.ofNat i))
        else none
    | none => none
  { lut, directMap := g.directMap, rangeRules := g.rangeRules, unmappedAction }

/-- The loop over the ranges, which returns from the first that contains the category. -/
def remapRanges (unmappedAction : UnmappedAction) (cat : Int64) : List RangeRule → Option Int64
  | [] => unmappedAction.apply cat
  | rule :: rules =>
      if rule.contains cat then rule.2.2 else remapRanges unmappedAction cat rules

def remapFallback (r : CategoryRemapper) (cat : Int64) : Option Int64 :=
  match r.directMap.lookup cat with
  | some target => target
  | none => remapRanges r.unmappedAction cat r.rangeRules

def remap (r : CategoryRemapper) (cat : Int64) : Option Int64 :=
  match r.lut with
  | some lut =>
      if h : 0 ≤ cat ∧ cat.toInt.toNat < lut.length then lut.get ⟨cat.toInt.toNat, h.2⟩
      else r.remapFallback cat
  | none => r.remapFallback cat

end CategoryRemapper

end RasterH3.Agg
