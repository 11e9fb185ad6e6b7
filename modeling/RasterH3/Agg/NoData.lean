import RasterH3.Lib.ExactFloat

/-!
# Which pixels count

A pixel of a floating-point raster that is NaN or infinite never counts, nor does one within
a tolerance of the marker. A pixel of an integer raster is compared with the marker exactly,
in its own type. The check of a whole slice looks at three of its pixels first.
-/

namespace RasterH3.Agg

inductive IntType where
  | u8 | u16 | u32 | u64 | i8 | i16 | i32 | i64

namespace IntType

/-- `<$ty>::MIN`. -/
def min : IntType → Int
  | u8 | u16 | u32 | u64 => 0
  | i8 => -2 ^ 7
  | i16 => -2 ^ 15
  | i32 => -2 ^ 31
  | i64 => -2 ^ 63

/-- `<$ty>::MAX`. -/
def max : IntType → Int
  | u8 => 2 ^ 8 - 1
  | u16 => 2 ^ 16 - 1
  | u32 => 2 ^ 32 - 1
  | u64 => 2 ^ 64 - 1
  | i8 => 2 ^ 7 - 1
  | i16 => 2 ^ 15 - 1
  | i32 => 2 ^ 31 - 1
  | i64 => 2 ^ 63 - 1

/-- The integers of a type. -/
abbrev Native (t : IntType) : Type := {v : Int // t.min ≤ v ∧ v ≤ t.max}

theorem min_le_max (t : IntType) : t.min ≤ t.max := by cases t <;> decide

namespace Native

variable {t : IntType}

def MIN : t.Native := ⟨t.min, Int.le_refl _, t.min_le_max⟩

def MAX : t.Native := ⟨t.max, t.min_le_max, Int.le_refl _⟩

theorem MIN_le (v : t.Native) : MIN ≤ v := v.property.1

theorem le_MAX (v : t.Native) : v ≤ MAX := v.property.2

end Native

end IntType

/-- The pixel types of a decoded raster. -/
inductive PixelType where
  | f32
  | f64
  | int (t : IntType)

/-- A pixel. In exact arithmetic the two floating-point types have the same values. -/
def Pixel (F : Type) : PixelType → Type
  | .f32 | .f64 => ExactFloat F
  | .int t => t.Native

/-! ## One pixel -/

/-- `1e-6`. -/
def tolerance (F : Type) [Field F] : F := 1 / 10 ^ 6

section Pixels

variable {F : Type} [Field F] [LinearOrder F]

open ExactFloat in
def isValidFloat (v : ExactFloat F) (marker : Option (ExactFloat F)) : Bool :=
  if ¬ v.isFinite then false
  else
    match marker with
    | some nd => if beq v nd || near (tolerance F) v nd then false else true
    | none => true

def isValidInteger {t : IntType} (v : t.Native) (marker : Option t.Native) : Bool :=
  match marker with
  | some nd => v != nd
  | none => true

/-- `is_valid_pixel`, which `PixelValidity` and the kernels' `is_valid` call. -/
def isValidPixel : {t : PixelType} → Pixel F t → Option (Pixel F t) → Bool
  | .f32 | .f64 => isValidFloat
  | .int _ => isValidInteger

/-! ## A slice -/

/-- The first, the middle and the last pixel of a slice, if it has any. -/
def probes {P : Type} (slice : List P) : List P :=
  slice[0]?.toList ++ slice[slice.length / 2]?.toList ++ slice[slice.length - 1]?.toList

open ExactFloat in
def isNd (nd v : ExactFloat F) : Bool :=
  !v.isFinite || beq v nd || near (tolerance F) v nd

def isSliceAllNodataFloat (slice : List (ExactFloat F)) (marker : Option (ExactFloat F)) :
    Bool :=
  if slice.isEmpty then true
  else
    match marker with
    | some nd => if (probes slice).any fun v => !isNd nd v then false else slice.all (isNd nd)
    | none => slice.all fun v => !v.isFinite

def isSliceAllNodataInteger {t : IntType} (slice : List t.Native) (marker : Option t.Native) :
    Bool :=
  match marker with
  | some nd =>
      if slice.isEmpty then true
      else if (probes slice).any fun v => v != nd then false
      else slice.all fun v => v == nd
  | none => false

def isSliceAllNodata : {t : PixelType} → List (Pixel F t) → Option (Pixel F t) → Bool
  | .f32 | .f64 => isSliceAllNodataFloat
  | .int _ => isSliceAllNodataInteger

end Pixels

end RasterH3.Agg
