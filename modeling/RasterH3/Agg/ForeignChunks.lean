import RasterH3.Lib.ExactFloat
import Mathlib.Algebra.Order.Floor.Ring
import Mathlib.Data.Nat.Sqrt

/-!
# The bounds of foreign chunks

A grid over the extent of some rectangles holds in each bucket the positions of the
rectangles that reach into it, as words of 32 bits. A query looks into the buckets it
reaches into.

Numbers are those of an ordered field. What is computed of them is rounded, by a function
that is an argument. An index out of range is `none`, of a bucket as of a rectangle.

Built once for a partition, the grid is asked for every cell that may have to be shared. Its
extent is that of the rectangles, its buckets are about as many as they are, and a
coordinate beyond the extent is clamped into the outermost bucket. A chunk whose bounds are
not a finite box is widened to all longitudes before it is filed.
-/

namespace RasterH3.Agg

/-- `[min_lon, min_lat, max_lon, max_lat]` -/
structure Rect (F : Type) where
  west : F
  south : F
  east : F
  north : F

section Rect

variable {F : Type} [Field F] [LinearOrder F]

def rectsIntersect (a b : Rect F) : Bool :=
  a.west ≤ b.east ∧ b.west ≤ a.east ∧ a.south ≤ b.north ∧ b.south ≤ a.north

/-- What is not a finite box inside of the longitudes is widened to all of them. -/
def normalizedForeignBounds (w s e n : ExactFloat F) : Rect F :=
  match w, s, e, n with
  | .finite w, .finite s, .finite e, .finite n =>
      if n < s then ⟨-180, -90, 180, 90⟩
      else if e < w ∨ w < -180 ∨ 180 < e then ⟨-180, max s (-90), 180, min n 90⟩
      else ⟨w, max s (-90), e, min n 90⟩
  | _, _, _, _ => ⟨-180, -90, 180, 90⟩

end Rect

structure ForeignChunks (F : Type) where
  rects : List (Rect F)
  /-- `none` for the infinities of an empty list. -/
  extent : Option (Rect F)
  nx : Nat
  ny : Nat
  buckets : List (List Nat)

namespace ForeignChunks

variable {F : Type} [Field F] [LinearOrder F] [FloorRing F] (round : F → F)

def widen (a r : Rect F) : Rect F where
  west := min a.west r.west
  south := min a.south r.south
  east := max a.east r.east
  north := max a.north r.north

def extentOf : List (Rect F) → Option (Rect F)
  | [] => none
  | r :: rects => some (rects.foldl widen r)

/-- `ceil` of the square root. -/
def ceilSqrt (n : Nat) : Nat := if n.sqrt * n.sqrt = n then n.sqrt else n.sqrt + 1

/-- Buckets along each side. -/
def side (count : Nat) : Nat := min (max (ceilSqrt count) 1) 512

/-- The bucket of a coordinate among `n`, clamped to the grid. -/
def bucketOf (lo hi : F) (n : Nat) (v : F) : Nat :=
  let t := if lo < hi then round (round (v - lo) / round (hi - lo)) else 0
  min ⌊round (t * n)⌋.toNat (n - 1)

structure BucketRange where
  x0 : Nat
  y0 : Nat
  x1 : Nat
  y1 : Nat

def bucketRange (extent : Rect F) (nx ny : Nat) (r : Rect F) : BucketRange where
  x0 := bucketOf round extent.west extent.east nx r.west
  y0 := bucketOf round extent.south extent.north ny r.south
  x1 := bucketOf round extent.west extent.east nx r.east
  y1 := bucketOf round extent.south extent.north ny r.north

/-- `a..=b` -/
def rangeInclusive (a b : Nat) : List Nat := List.range' a (b + 1 - a)

/-- The position of a rectangle is pushed to a bucket `as u32`. -/
def push (buckets : List (List Nat)) (k i : Nat) : Option (List (List Nat)) :=
  if k < buckets.length then some (buckets.modify k (· ++ [i % 2 ^ 32])) else none

/-- A rectangle is filed in all buckets of its range. -/
def file (nx : Nat) (range : BucketRange) (i : Nat) (buckets : List (List Nat)) :
    Option (List (List Nat)) :=
  (rangeInclusive range.y0 range.y1).foldlM (fun buckets y =>
    (rangeInclusive range.x0 range.x1).foldlM (fun buckets x => push buckets (y * nx + x) i)
      buckets) buckets

def new (rects : List (Rect F)) : Option (ForeignChunks F) :=
  match extentOf rects with
  | none => some ⟨rects, none, 1, 1, [[]]⟩
  | some extent => do
      let side := side rects.length
      let buckets ← rects.zipIdx.foldlM
        (fun buckets (r, i) => file side (bucketRange round extent side side r) i buckets)
        (List.replicate (side * side) [])
      return ⟨rects, some extent, side, side, buckets⟩

/-- Whether a rectangle meets one of those in a bucket. -/
def meetsBucket (index : ForeignChunks F) (r : Rect F) (k : Nat) : Option Bool := do
  let bucket ← index.buckets[k]?
  bucket.anyM fun i => (index.rects[i]?).map (rectsIntersect r)

def intersects (index : ForeignChunks F) (r : Rect F) : Option Bool :=
  match index.extent with
  | none => some false
  | some extent =>
      if !rectsIntersect r extent then some false
      else
        let range := bucketRange round extent index.nx index.ny r
        (rangeInclusive range.y0 range.y1).anyM fun y =>
          (rangeInclusive range.x0 range.x1).anyM fun x =>
            index.meetsBucket r (y * index.nx + x)

end ForeignChunks

end RasterH3.Agg
