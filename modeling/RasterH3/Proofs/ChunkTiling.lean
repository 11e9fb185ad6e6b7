import RasterH3.Raster.ChunkGrid
import RasterH3.Lib.Loops

/-!
# Chunk grids tile the image

An image is cut into chunks in three ways: into the tiles of a file, into its strips, and
into squares of a given size. Whatever reads the image relies on the pieces not to overlap
and to leave nothing out.

Both ways to compute them give the pieces of a rectangle in the order of their numbers:
`getChunkBounds` computes piece `k` from `k` (`getChunkBounds_eq`), and the loops of
`partitionGrid` run through rows and columns (`partitionGrid_eq`). So one theorem about
pieces answers for both (`tiles_pieces`): piece `k` holds pixel `(x, y)` just if it is in
the column and the row of the pixel. The pieces at the right and the lower edge are cut off,
and none is empty.

The code computes in 32 bits. The offset of an existing chunk is below the side of the image
and cannot wrap. The loops go one step further: they add the size once more to leave, and it
is this sum that must fit. With a size near half of `u32::MAX` and an image as large it does
not, and the loop goes on from an offset that has wrapped, or panics where overflow is
checked.

Strips of an image without columns are empty. `Fits` has the two conditions, and
`chunk_grid_tiles_iff` says that a grid of sizes that pass the checks of the code tiles the
image just if they hold.
-/

namespace RasterH3.Raster

open Cuts

variable {width height : Nat}

/-! ## Rectangles over an image -/

namespace RasterChunk

/-- The rectangle holds the pixel in column `x` and row `y`. -/
def Covers (chunk : RasterChunk) (x y : Nat) : Prop :=
  (chunk.colOffset ≤ x ∧ x < chunk.colOffset + chunk.width) ∧
    chunk.rowOffset ≤ y ∧ y < chunk.rowOffset + chunk.height

instance (chunk : RasterChunk) (x y : Nat) : Decidable (chunk.Covers x y) :=
  inferInstanceAs (Decidable ((_ ∧ _) ∧ _ ∧ _))

end RasterChunk

/-- The rectangles are not empty, lie in the image and cover each pixel once. -/
structure TilesImage (width height : Nat) (chunks : List RasterChunk) : Prop where
  nonempty : ∀ chunk ∈ chunks, 0 < chunk.width ∧ 0 < chunk.height
  inside : ∀ chunk ∈ chunks,
    chunk.colOffset + chunk.width ≤ width ∧ chunk.rowOffset + chunk.height ≤ height
  once : ∀ x y, x < width → y < height → chunks.countP (fun chunk => chunk.Covers x y) = 1

/-- The rectangle in a column and a row of a grid of `chunkW` by `chunkH` pieces. -/
def pieceAt (width height chunkW chunkH col row : Nat) : RasterChunk where
  colOffset := col * chunkW
  rowOffset := row * chunkH
  width := pieceLen width chunkW (col * chunkW)
  height := pieceLen height chunkH (row * chunkH)

/-- All pieces of a grid, in the order of their numbers. -/
def pieces (width height chunkW chunkH : Nat) : List RasterChunk :=
  let across := divCeil width chunkW
  (List.range (across * divCeil height chunkH)).map fun k =>
    pieceAt width height chunkW chunkH (k % across) (k / across)

section Pieces

variable {chunkW chunkH k : Nat}

/-- Every number stands for a column and a row that start in the image. -/
theorem starts_lt (hW : 0 < chunkW) (hH : 0 < chunkH)
    (hk : k < divCeil width chunkW * divCeil height chunkH) :
    k % divCeil width chunkW * chunkW < width ∧ k / divCeil width chunkW * chunkH < height := by
  have hcol := Nat.mod_lt k (across_pos_of_lt hk)
  have hrow := row_lt hk
  exact ⟨(lt_divCeil_iff hW).mp hcol, (lt_divCeil_iff hH).mp hrow⟩

theorem covers_pieceAt_iff (hW : 0 < chunkW) (hH : 0 < chunkH) {x y col row : Nat}
    (hx : x < width) (hy : y < height) :
    (pieceAt width height chunkW chunkH col row).Covers x y ↔
      x / chunkW = col ∧ y / chunkH = row := by
  rw [← mem_piece_iff hW hx, ← mem_piece_iff hH hy]
  exact Iff.rfl

theorem tiles_pieces (hW : 0 < chunkW) (hH : 0 < chunkH) :
    TilesImage width height (pieces width height chunkW chunkH) := by
  refine { nonempty := ?_, inside := ?_, once := ?_ }
  · intro chunk hmem
    rcases List.mem_map.mp hmem with ⟨k, hk, rfl⟩
    have hstart := starts_lt hW hH (List.mem_range.mp hk)
    exact ⟨pieceLen_pos hW hstart.1, pieceLen_pos hH hstart.2⟩
  · intro chunk hmem
    rcases List.mem_map.mp hmem with ⟨k, hk, rfl⟩
    have hstart := starts_lt hW hH (List.mem_range.mp hk)
    exact ⟨add_pieceLen_le hstart.1, add_pieceLen_le hstart.2⟩
  · intro x y hx hy
    have hcol : x / chunkW < divCeil width chunkW :=
      (lt_divCeil_iff hW).mpr (Nat.lt_of_le_of_lt (Nat.div_mul_le_self x chunkW) hx)
    have hrow : y / chunkH < divCeil height chunkH :=
      (lt_divCeil_iff hH).mpr (Nat.lt_of_le_of_lt (Nat.div_mul_le_self y chunkH) hy)
    rw [pieces, List.countP_map]
    refine countP_range (number_lt hcol hrow) ?_
    intro j
    rw [← number_eq_iff hcol]
    simp only [Function.comp_apply, decide_eq_true_eq, covers_pieceAt_iff hW hH hx hy]
    exact ⟨fun h => ⟨h.1.symm, h.2.symm⟩, fun h => ⟨h.1.symm, h.2.symm⟩⟩

theorem pieces_eq_flatMap :
    pieces width height chunkW chunkH =
      (List.range (divCeil height chunkH)).flatMap fun row =>
        (List.range (divCeil width chunkW)).map fun col =>
          pieceAt width height chunkW chunkH col row := by
  rw [pieces, range_mul, List.map_flatMap]
  refine List.flatMap_congr fun row _ => ?_
  rw [List.map_map]
  refine List.map_congr_left fun col hcol => ?_
  have hnum := (number_eq_iff (List.mem_range.mp hcol)).mpr (Eq.refl (row * divCeil width chunkW + col))
  rw [Function.comp_apply, hnum.1, hnum.2]

end Pieces

/-! ## The layout of a file -/

/-- The layout cuts an image of this size into pieces of its own size. -/
structure ChunkLayout.Cuts (layout : ChunkLayout) (width height : Nat) : Prop where
  width_pos : 0 < layout.chunkWidth
  height_pos : 0 < layout.chunkHeight
  across : layout.chunksAcross = divCeil width layout.chunkWidth
  total : layout.totalChunks = layout.chunksAcross * divCeil height layout.chunkHeight

namespace ChunkLayout

variable {layout : ChunkLayout}

theorem newTiled_cuts {tileWidth tileHeight : Nat}
    (h : newTiled width height tileWidth tileHeight = some layout) : layout.Cuts width height := by
  unfold newTiled at h
  split at h
  next hpos =>
    simp only [bind, Option.bind_eq_some_iff, Checked.mul_eq_some] at h
    rcases h with ⟨total, ⟨-, rfl⟩, hlayout⟩
    cases hlayout
    exact { width_pos := hpos.1, height_pos := hpos.2, across := rfl, total := rfl }
  next => cases h

theorem newStriped_eq {rowsPerStrip : Nat} (h : newStriped width height rowsPerStrip = some layout) :
    0 < rowsPerStrip ∧ layout =
      { chunkWidth := width
        chunkHeight := rowsPerStrip
        chunksAcross := 1
        chunksDown := divCeil height rowsPerStrip
        totalChunks := divCeil height rowsPerStrip } := by
  unfold newStriped at h
  split at h
  next hpos => exact ⟨hpos, (Option.some.inj h).symm⟩
  next => cases h

theorem newStriped_cuts {rowsPerStrip : Nat} (hwidth : 0 < width)
    (h : newStriped width height rowsPerStrip = some layout) : layout.Cuts width height := by
  rcases newStriped_eq h with ⟨hpos, rfl⟩
  exact
    { width_pos := hwidth
      height_pos := hpos
      across := (divCeil_self hwidth).symm
      total := (Nat.one_mul _).symm }

theorem parseLayout_cuts {chunkW chunkH : Nat}
    (h : parseLayout width height chunkW chunkH = .ok layout) : layout.Cuts width height := by
  unfold parseLayout at h
  split at h
  next => cases h
  next hne =>
    simp only [] at h
    split at h
    next => cases h
    next total htotal =>
      cases h
      have hprod := (Checked.mul_eq_some.mp htotal).2
      exact
        { width_pos := Nat.pos_of_ne_zero fun h => hne (.inl h)
          height_pos := Nat.pos_of_ne_zero fun h => hne (.inr h)
          across := rfl
          total := hprod.symm }

/-- No offset of a chunk of the layout wraps. -/
theorem getChunkBounds_eq (hcuts : layout.Cuts width height) (hw : width < 2 ^ 32)
    (hh : height < 2 ^ 32) {k : Nat} (hk : k < layout.totalChunks) :
    layout.getChunkBounds k width height =
      some (pieceAt width height layout.chunkWidth layout.chunkHeight
        (k % layout.chunksAcross) (k / layout.chunksAcross)) := by
  rw [hcuts.total] at hk
  have hpos := across_pos_of_lt hk
  have hstart : k % layout.chunksAcross * layout.chunkWidth < width ∧
      k / layout.chunksAcross * layout.chunkHeight < height := by
    rw [hcuts.across] at hk ⊢
    exact starts_lt hcuts.width_pos hcuts.height_pos hk
  rw [getChunkBounds, if_neg (by omega)]
  simp only []
  rw [Checked.mul_of_lt (by omega), Checked.mul_of_lt (by omega)]
  rfl

theorem chunkBounds_eq (hcuts : layout.Cuts width height) (hw : width < 2 ^ 32)
    (hh : height < 2 ^ 32) :
    layout.chunkBounds width height =
      some (pieces width height layout.chunkWidth layout.chunkHeight) := by
  rw [chunkBounds, Loops.mapM_some fun k hk => getChunkBounds_eq hcuts hw hh (List.mem_range.mp hk),
    pieces, hcuts.total, hcuts.across]

theorem chunkBounds_tiles (hcuts : layout.Cuts width height) (hw : width < 2 ^ 32)
    (hh : height < 2 ^ 32) :
    ∃ chunks, layout.chunkBounds width height = some chunks ∧ TilesImage width height chunks :=
  ⟨_, chunkBounds_eq hcuts hw hh, tiles_pieces hcuts.width_pos hcuts.height_pos⟩

/-- Strips of an image without columns are empty. -/
theorem striped_empty {rowsPerStrip : Nat} (hheight : 0 < height)
    (h : newStriped 0 height rowsPerStrip = some layout) (hh : height < 2 ^ 32) :
    ¬ ∃ chunks, layout.chunkBounds 0 height = some chunks ∧ TilesImage 0 height chunks := by
  rcases newStriped_eq h with ⟨hpos, rfl⟩
  intro hex
  rcases hex with ⟨chunks, hchunks, htiles⟩
  have hdown : 0 < divCeil height rowsPerStrip := (lt_divCeil_iff hpos).mpr (by omega)
  unfold chunkBounds at hchunks
  obtain ⟨n, hn⟩ : ∃ n, divCeil height rowsPerStrip = n + 1 := ⟨_, (Nat.succ_pred_eq_of_pos hdown).symm⟩
  rw [hn, List.range_succ_eq_map, List.mapM_cons] at hchunks
  rcases Option.bind_eq_some_iff.mp hchunks with ⟨first, hfirst, hrest⟩
  rcases Option.bind_eq_some_iff.mp hrest with ⟨rest, -, hlist⟩
  cases hlist
  have hwidth := (htiles.nonempty first List.mem_cons_self).1
  have hzero : first.width = 0 := by
    rw [getChunkBounds, if_neg Nat.one_ne_zero] at hfirst
    rcases Option.bind_eq_some_iff.mp hfirst with ⟨colOffset, -, hrow⟩
    rcases Option.bind_eq_some_iff.mp hrow with ⟨rowOffset, -, hchunk⟩
    cases hchunk
    exact Nat.min_zero _
  omega

end ChunkLayout

/-! ## The loops -/

section Loops

variable {size : Nat} (hsize : 0 < size)

theorem partitionRow_eq {chunkH row n j : Nat} {chunks : List RasterChunk}
    (hn : divCeil width size = j + n) (hfit : j * size < 2 ^ 32) :
    partitionRow width hsize row chunkH (j * size) chunks =
      if divCeil width size * size < 2 ^ 32 then
        some (chunks ++ (List.range' j n).map fun col =>
          ⟨col * size, row, pieceLen width size (col * size), chunkH⟩)
      else none := by
  induction n generalizing j chunks with
  | zero =>
      have hend : ¬ j * size < width := by
        rw [← lt_divCeil_iff hsize, hn]
        omega
      rw [partitionRow, if_neg hend, hn, Nat.add_zero, if_pos hfit]
      simp
  | succ n ih =>
      have hmore : j * size < width := by
        rw [← lt_divCeil_iff hsize, hn]
        omega
      rw [partitionRow, if_pos hmore]
      have hstep : j * size + size = (j + 1) * size := (Nat.succ_mul j size).symm
      split
      next hadd =>
        -- the offset after this chunk does not fit, nor does the last one
        have hwrap : ¬ (j + 1) * size < 2 ^ 32 := by
          intro hlt
          rw [Checked.add_of_lt (by omega)] at hadd
          cases hadd
        have hle : (j + 1) * size ≤ divCeil width size * size :=
          Nat.mul_le_mul_right size (by omega)
        rw [if_neg (by omega)]
      next next' hadd =>
        have hsum := Checked.add_eq_some.mp hadd
        obtain rfl : next' = (j + 1) * size := by omega
        rw [ih (by omega) (by omega)]
        simp [List.range'_succ]

theorem partitionRows_eq {n r : Nat} {chunks : List RasterChunk}
    (hn : divCeil height size = r + n) (hfit : r * size < 2 ^ 32) :
    partitionRows width height hsize (r * size) chunks =
      if divCeil height size * size < 2 ^ 32 ∧
          (n = 0 ∨ divCeil width size * size < 2 ^ 32) then
        some (chunks ++ (List.range' r n).flatMap fun row =>
          (List.range (divCeil width size)).map fun col => pieceAt width height size size col row)
      else none := by
  induction n generalizing r chunks with
  | zero =>
      have hend : ¬ r * size < height := by
        rw [← lt_divCeil_iff hsize, hn]
        omega
      rw [partitionRows, if_neg hend, hn, Nat.add_zero, if_pos ⟨hfit, .inl rfl⟩]
      simp
  | succ n ih =>
      have hmore : r * size < height := by
        rw [← lt_divCeil_iff hsize, hn]
        omega
      have hstep : r * size + size = (r + 1) * size := (Nat.succ_mul r size).symm
      have hrow := @partitionRow_eq width size hsize (pieceLen height size (r * size)) (r * size)
        (divCeil width size) 0 chunks (Nat.zero_add _).symm (by omega)
      rw [Nat.zero_mul] at hrow
      rw [partitionRows, if_pos hmore]
      simp only []
      rw [hrow]
      by_cases hcols : divCeil width size * size < 2 ^ 32
      · rw [if_pos hcols]
        simp only []
        split
        next hadd =>
          have hwrap : ¬ (r + 1) * size < 2 ^ 32 := by
            intro hlt
            rw [Checked.add_of_lt (by omega)] at hadd
            cases hadd
          have hle : (r + 1) * size ≤ divCeil height size * size :=
            Nat.mul_le_mul_right size (by omega)
          rw [if_neg (by omega)]
        next next' hadd =>
          have hsum := Checked.add_eq_some.mp hadd
          obtain rfl : next' = (r + 1) * size := by omega
          rw [ih (by omega) (by omega)]
          simp only [hcols, or_true, and_true]
          simp [List.range'_succ, List.range_eq_range', pieceAt]
      · rw [if_neg hcols, if_neg (by omega)]

include hsize in
/-- The squares are the pieces of the grid, if the sums that end the loops fit. -/
theorem partitionGrid_eq :
    partitionGrid width height size =
      if divCeil height size * size < 2 ^ 32 ∧
          (height = 0 ∨ divCeil width size * size < 2 ^ 32) then
        some (pieces width height size size)
      else none := by
  have hrows := @partitionRows_eq width height size hsize (divCeil height size) 0 []
    (Nat.zero_add _).symm (by omega)
  have hzero : divCeil height size = 0 ↔ height = 0 := by
    have := @lt_divCeil_iff height size 0 hsize
    omega
  rw [Nat.zero_mul, ← List.range_eq_range', List.nil_append] at hrows
  rw [partitionGrid, dif_pos hsize, hrows, pieces_eq_flatMap]
  simp only [hzero]

end Loops

/-! ## Every grid -/

/-- The ways to cut an image into chunks, with the numbers they are given. -/
inductive ChunkGrid where
  | tiled (tileWidth tileHeight : Nat)
  | striped (rowsPerStrip : Nat)
  /-- The sizes that the decoder of a file gives. -/
  | parsed (chunkW chunkH : Nat)
  | squares (chunkSize : Nat)

namespace ChunkGrid

def layout (width height : Nat) : ChunkGrid → Option ChunkLayout
  | tiled tileWidth tileHeight => ChunkLayout.newTiled width height tileWidth tileHeight
  | striped rowsPerStrip => ChunkLayout.newStriped width height rowsPerStrip
  | parsed chunkW chunkH => (parseLayout width height chunkW chunkH).toOption
  | squares _ => none

/-- The sizes pass the checks of the code. -/
def Accepted (width height : Nat) : ChunkGrid → Prop
  | squares chunkSize => 0 < chunkSize
  | grid => grid.layout width height ≠ none

def rects (width height : Nat) : ChunkGrid → Option (List RasterChunk)
  | squares chunkSize => partitionGrid width height chunkSize
  | grid => (grid.layout width height).bind fun layout => layout.chunkBounds width height

/-- Strips need a column, and the loops of the squares must be able to add the size to
the last offset. -/
def Fits (width height : Nat) : ChunkGrid → Prop
  | striped _ => width ≠ 0 ∨ height = 0
  | squares chunkSize =>
      divCeil height chunkSize * chunkSize < 2 ^ 32 ∧
        (height = 0 ∨ divCeil width chunkSize * chunkSize < 2 ^ 32)
  | _ => True

end ChunkGrid

/-- What is expected of a grid: its rectangles come out, and they tile the image. -/
def ChunkGrid.Tiling (width height : Nat) (grid : ChunkGrid) : Prop :=
  ∃ chunks, grid.rects width height = some chunks ∧ TilesImage width height chunks

theorem squares_tiling_iff {chunkSize : Nat} (hsize : 0 < chunkSize) :
    (ChunkGrid.squares chunkSize).Tiling width height ↔
      (ChunkGrid.squares chunkSize).Fits width height := by
  have heq : partitionGrid width height chunkSize = _ := partitionGrid_eq hsize
  unfold ChunkGrid.Tiling ChunkGrid.rects ChunkGrid.Fits
  simp only [heq]
  split
  next h => exact ⟨fun _ => h, fun _ => ⟨_, rfl, tiles_pieces hsize hsize⟩⟩
  next h =>
    refine ⟨fun hex => ?_, fun hfit => absurd hfit h⟩
    rcases hex with ⟨_, hnone, _⟩
    cases hnone

theorem striped_tiling_iff {rowsPerStrip : Nat} (hw : width < 2 ^ 32) (hh : height < 2 ^ 32)
    {layout : ChunkLayout} (hlayout : ChunkLayout.newStriped width height rowsPerStrip = some layout) :
    (ChunkGrid.striped rowsPerStrip).Tiling width height ↔
      (ChunkGrid.striped rowsPerStrip).Fits width height := by
  have hrects : (ChunkGrid.striped rowsPerStrip).rects width height =
      layout.chunkBounds width height := by
    rw [ChunkGrid.rects, ChunkGrid.layout, hlayout, Option.bind_some]
    exact fun _ hne => nomatch hne
  unfold ChunkGrid.Tiling
  rw [hrects]
  unfold ChunkGrid.Fits
  rcases Nat.eq_zero_or_pos width with hzero | hpos
  · subst hzero
    rcases Nat.eq_zero_or_pos height with hzero' | hpos'
    · subst hzero'
      refine ⟨fun _ => .inr rfl, fun _ => ⟨[], ?_, ?_⟩⟩
      · rcases ChunkLayout.newStriped_eq hlayout with ⟨-, rfl⟩
        simp [ChunkLayout.chunkBounds]
      · exact
          { nonempty := by simp
            inside := by simp
            once := fun x _ hx => absurd hx (Nat.not_lt_zero x) }
    · have hnot := ChunkLayout.striped_empty hpos' hlayout hh
      exact ⟨fun h => absurd h hnot, fun h => absurd h (by omega)⟩
  · have htiles := ChunkLayout.chunkBounds_tiles (ChunkLayout.newStriped_cuts hpos hlayout) hw hh
    exact ⟨fun _ => .inl (by omega), fun _ => htiles⟩

/-- A grid of accepted sizes tiles the image just if its last offsets fit. -/
theorem chunk_grid_tiles_iff (grid : ChunkGrid) (hw : width < 2 ^ 32) (hh : height < 2 ^ 32)
    (haccepted : grid.Accepted width height) :
    grid.Tiling width height ↔ grid.Fits width height := by
  cases grid with
  | squares chunkSize => exact squares_tiling_iff haccepted
  | striped rowsPerStrip =>
      obtain ⟨layout, hlayout⟩ := Option.ne_none_iff_exists'.mp haccepted
      exact striped_tiling_iff hw hh hlayout
  | tiled tileWidth tileHeight =>
      obtain ⟨layout, hlayout⟩ := Option.ne_none_iff_exists'.mp haccepted
      have htiles := ChunkLayout.chunkBounds_tiles (ChunkLayout.newTiled_cuts hlayout) hw hh
      refine ⟨fun _ => trivial, fun _ => ?_⟩
      rw [ChunkGrid.Tiling, ChunkGrid.rects, hlayout, Option.bind_some]
      · exact htiles
      · intro chunkSize hne
        cases hne
  | parsed chunkW chunkH =>
      obtain ⟨layout, hlayout⟩ := Option.ne_none_iff_exists'.mp haccepted
      have hparse : parseLayout width height chunkW chunkH = .ok layout := by
        cases h : parseLayout width height chunkW chunkH with
        | error e => rw [ChunkGrid.layout, h] at hlayout; cases hlayout
        | ok l => rw [ChunkGrid.layout, h] at hlayout; cases hlayout; rfl
      have htiles := ChunkLayout.chunkBounds_tiles (ChunkLayout.parseLayout_cuts hparse) hw hh
      refine ⟨fun _ => trivial, fun _ => ?_⟩
      rw [ChunkGrid.Tiling, ChunkGrid.rects, hlayout, Option.bind_some]
      · exact htiles
      · intro chunkSize hne
        cases hne

/-- The squares of 4 pixels of an image of 10 by 7. -/
theorem chunk_grid_tiles_small :
    (ChunkGrid.squares 4).Tiling 10 7 ↔ (ChunkGrid.squares 4).Fits 10 7 :=
  chunk_grid_tiles_iff (.squares 4) (by decide) (by decide) (by decide : 0 < 4)

/-- One row of `u32::MAX` pixels in two squares: the sum that would end the loop over the
columns wraps. -/
theorem wide_row_wraps :
    ¬ ∀ (grid : ChunkGrid) (width height : Nat), width < 2 ^ 32 → height < 2 ^ 32 →
      grid.Accepted width height → grid.Tiling width height := by
  intro hall
  have htiling := hall (.squares (2 ^ 31)) (2 ^ 32 - 1) 1 (by decide) (by decide)
    (by decide : 0 < 2 ^ 31)
  have hfits := (squares_tiling_iff (by decide)).mp htiling
  simp [ChunkGrid.Fits, divCeil] at hfits

end RasterH3.Raster
