import RasterH3.Lib.Checked
import RasterH3.Pmtiles.TileId

/-!
# Tile ids in machine words

The functions of tile ids once more, with every operation on `u64`, `u32` and `u8` that could
leave its type. A shift that would lose bits counts as an overflow as well.
-/

namespace RasterH3.Pmtiles

open Checked

/-- The loop of `zxy_to_tile_id`; the side is `2 ^ k` in the round before the last `k`. -/
def indexLoopWord : Nat → Nat → Nat → Nat → Option Nat
  | 0, _, _, d => some d
  | k + 1, tx, ty, d => do
      let s := 2 ^ k
      let rx := if 0 < tx &&& s then 1 else 0
      let ry := if 0 < ty &&& s then 1 else 0
      let square ← mul 64 s s
      let threefold ← mul 64 3 rx
      let term ← mul 64 square (threefold ^^^ ry)
      let d ← add 64 d term
      let low ← sub s 1
      let lx := tx &&& low
      let ly := ty &&& low
      if ry = 0 then
        if rx = 1 then do
          let lx ← sub low lx
          let ly ← sub low ly
          indexLoopWord k ly lx d
        else indexLoopWord k ly lx d
      else indexLoopWord k lx ly d

/-- `((1u64 << (2 * z)) - 1) / 3`. -/
def tilesBelowWord (z : Nat) : Option Nat := do
  let bits ← mul 8 2 z
  let all ← shl 64 1 bits
  let rest ← sub all 1
  return rest / 3

def zxyToTileIdWord (z x y : Nat) : Option Nat :=
  if z = 0 then some 0
  else do
    let acc ← tilesBelowWord z
    let last ← sub z 1
    let _ ← shl 64 1 last
    let d ← indexLoopWord z x y 0
    add 64 acc d

def tileIdToZWord (i : Nat) : Option Nat := do
  let threefold ← mul 64 3 i
  let c ← add 64 threefold 1
  let leading ← sub 63 (Nat.log2 c)
  let bits ← sub 63 leading
  return bits / 2

def rotateWord (s rx ry : Nat) (p : Nat × Nat) : Option (Nat × Nat) :=
  if ry = 0 then
    if rx = 1 then do
      let low ← sub s 1
      let x ← sub low p.1
      let y ← sub low p.2
      return (y, x)
    else some (p.2, p.1)
  else some p

/-- The loop of `tile_id_to_zxy`. -/
def hilbertLoopWord : Nat → Nat → Nat → Nat × Nat → Option (Nat × Nat)
  | 0, _, _, p => some p
  | n + 1, s, t, p => do
      let rx := 1 &&& (t / 2)
      let ry := 1 &&& (t ^^^ rx)
      let q ← rotateWord s rx ry p
      let dx ← mul 64 s rx
      let x ← add 64 q.1 dx
      let dy ← mul 64 s ry
      let y ← add 64 q.2 dy
      let s ← mul 64 2 s
      hilbertLoopWord n s (t / 4) (x, y)

def tileIdToZxyWord (i : Nat) : Option (Nat × Nat × Nat) :=
  if i = 0 then some (0, 0, 0)
  else do
    let z ← tileIdToZWord i
    let acc ← tilesBelowWord z
    let t ← sub i acc
    let _ ← shl 64 1 z
    let p ← hilbertLoopWord z 1 t (0, 0)
    let x ← fit 32 p.1
    let y ← fit 32 p.2
    return (z, x, y)

end RasterH3.Pmtiles
