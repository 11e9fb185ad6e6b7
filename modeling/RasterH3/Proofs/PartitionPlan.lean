import RasterH3.Agg.Partition

/-!
# A plan covers the mosaic

A plan cuts the grid of every tile into rectangles of about as many chunks as a worker
should have, drops those without a chunk to stream, and packs neighbours together until a
group has enough. Workers take the groups, and a chunk must go to one of them and to no
other.

Everything about the rectangles follows from the order in which they are cut: of two of them
the earlier one is of an earlier tile, or lies wholly above the later one, or beside it to
the left (`Before`). So no two share a chunk, and packing keeps their order. Each tile is
cut by two nested loops with a step, and `stepBy_pairwise` and `exists_step` say of one such
loop that its steps do not overlap and leave nothing out; the rectangles of a tile, and
those of a mosaic, are products and concatenations of that.

The sizes are chosen by a rounded square root, which is a parameter here: whatever it gives
is clamped, and the other side is the least with which the rectangle reaches the target.
That bounds a rectangle from above. Without one of its rows it has fewer positions than the
target (`LessARow`), so that it exceeds the target by less than a row.

That the count of a rectangle is the number of its streamed chunks rests on the index of a
position in the grid being one-to-one (`index_injective`). A group of more than the target
is a single block (`pack_spec`), so the bound of a block is the bound of a partition. What a
plan has to be is `Covers`; the workers stream their chunks in the order of the mosaic, and
that partitions, taken one after the other, need not be in that order is a counterexample at
the end.
-/

namespace RasterH3.Agg.Partition

open ScanPartition

/-! ## Cutting a range into steps -/

section Steps

variable {n k i x : Nat}

theorem mem_stepBy (hk : 0 < k) : i ∈ stepBy n k ↔ ∃ j, i = j * k ∧ i < n := by
  rw [stepBy, List.mem_map]
  constructor
  · rintro ⟨j, hj, rfl⟩
    refine ⟨j, rfl, ?_⟩
    rw [List.mem_range, Nat.lt_div_iff_mul_lt hk] at hj
    omega
  · rintro ⟨j, rfl, hj⟩
    refine ⟨j, ?_, rfl⟩
    rw [List.mem_range, Nat.lt_div_iff_mul_lt hk]
    omega

theorem lt_of_mem_stepBy (hk : 0 < k) (h : i ∈ stepBy n k) : i < n := by
  obtain ⟨-, -, hlt⟩ := (mem_stepBy hk).mp h
  exact hlt

/-- Steps do not overlap. -/
theorem stepBy_pairwise (n k : Nat) : (stepBy n k).Pairwise fun i i' => i + k ≤ i' := by
  rw [stepBy, List.pairwise_map]
  refine List.pairwise_lt_range.imp fun {j j'} hlt => ?_
  have := Nat.mul_le_mul_right k (Nat.succ_le_of_lt hlt)
  rw [Nat.succ_mul] at this
  exact this

/-- And leave nothing out. -/
theorem exists_step (hk : 0 < k) (hx : x < n) : ∃ i ∈ stepBy n k, i ≤ x ∧ x < min (i + k) n := by
  refine ⟨x / k * k, (mem_stepBy hk).mpr ⟨x / k, rfl, ?_⟩, Nat.div_mul_le_self x k, ?_⟩
  · exact (Nat.div_mul_le_self x k).trans_lt hx
  · have := Nat.lt_div_mul_add hk (a := x)
    omega

theorem one_le_clamp {hi : Nat} : 1 ≤ clamp x 1 hi := le_max_left _ _

end Steps

/-! ## The grid of a tile -/

namespace Grid

variable {chunks : List (Nat × Nat)} {p : Nat × Nat}

theorem min?_le {l : List Nat} {x : Nat} (h : x ∈ l) : l.min?.getD 0 ≤ x := by
  cases hmin : l.min? with
  | none => exact Nat.zero_le x
  | some a => exact (List.min?_eq_some_iff.mp hmin).2 x h

theorem le_max? {l : List Nat} {x : Nat} (h : x ∈ l) : x ≤ l.max?.getD 0 := by
  cases hmax : l.max? with
  | none =>
    rw [List.max?_eq_none_iff.mp hmax] at h
    cases h
  | some a => exact (List.max?_eq_some_iff.mp hmax).2 x h

theorem max?_lt {l : List Nat} {hi : Nat} (hne : l ≠ []) (h : ∀ x ∈ l, x < hi) :
    l.max?.getD 0 < hi := by
  cases hmax : l.max? with
  | none => exact absurd (List.max?_eq_none_iff.mp hmax) hne
  | some a => exact h a (List.max?_eq_some_iff.mp hmax).1

/-- The grid has every chunk. -/
theorem of_spec (h : p ∈ chunks) :
    ((Grid.of chunks).c0 ≤ p.1 ∧ p.1 < (Grid.of chunks).c1) ∧
      (Grid.of chunks).r0 ≤ p.2 ∧ p.2 < (Grid.of chunks).r1 := by
  have hcol := List.mem_map_of_mem (f := Prod.fst) h
  have hrow := List.mem_map_of_mem (f := Prod.snd) h
  exact ⟨⟨min?_le hcol, Nat.lt_succ_of_le (le_max? hcol)⟩, min?_le hrow,
    Nat.lt_succ_of_le (le_max? hrow)⟩

variable {g : Grid} {br re bc ce : Nat}

/-- A position in the grid. -/
def Inside (g : Grid) (p : Nat × Nat) : Prop :=
  (g.c0 ≤ p.1 ∧ p.1 < g.c1) ∧ g.r0 ≤ p.2 ∧ p.2 < g.r1

theorem index_div {r c : Nat} (hc : c < g.cols) :
    (r * g.cols + c) / g.cols = r ∧ (r * g.cols + c) % g.cols = c := by
  have hpos : 0 < g.cols := by omega
  constructor
  · rw [Nat.mul_comm, Nat.mul_add_div hpos, Nat.div_eq_of_lt hc, Nat.add_zero]
  · rw [Nat.mul_comm, Nat.mul_add_mod, Nat.mod_eq_of_lt hc]

theorem index_eq {r c : Nat} (hp : g.Inside p) (hc : c < g.cols) :
    g.index p = r * g.cols + c ↔ p.2 = g.r0 + r ∧ p.1 = g.c0 + c := by
  obtain ⟨⟨hc0, hc1⟩, hr0, hr1⟩ := hp
  have hcol : p.1 - g.c0 < g.cols := by
    rw [cols]
    omega
  constructor
  · intro heq
    rw [index] at heq
    obtain ⟨hrow, hcol'⟩ := index_div (r := p.2 - g.r0) hcol
    rw [heq] at hrow hcol'
    obtain ⟨hr, hc'⟩ := index_div (r := r) hc
    omega
  · rintro ⟨hr, hc'⟩
    rw [index, hr, hc', Nat.add_sub_cancel_left, Nat.add_sub_cancel_left]

theorem index_injective {p q : Nat × Nat} (hp : g.Inside p) (hq : g.Inside q)
    (h : g.index p = g.index q) : p = q := by
  have hcol : q.1 - g.c0 < g.cols := by
    obtain ⟨⟨hc0, hc1⟩, -⟩ := hq
    rw [cols]
    omega
  obtain ⟨hr, hc⟩ := (index_eq hp hcol).mp h
  obtain ⟨⟨hc0, -⟩, hr0, -⟩ := hq
  exact Prod.ext (by omega) (by omega)

theorem mem_cells {i : Nat} :
    i ∈ g.cells br re bc ce ↔
      ∃ r c, (br ≤ r ∧ r < re) ∧ (bc ≤ c ∧ c < ce) ∧ i = r * g.cols + c := by
  simp only [cells, List.mem_flatMap, List.mem_map, List.mem_range'_1]
  constructor
  · rintro ⟨r, hr, c, hc, rfl⟩
    exact ⟨r, c, by omega, by omega, rfl⟩
  · rintro ⟨r, c, hr, hc, rfl⟩
    exact ⟨r, by omega, c, by omega, rfl⟩

theorem cells_nodup (hce : ce ≤ g.cols) : (g.cells br re bc ce).Nodup := by
  rw [cells, List.nodup_flatMap]
  refine ⟨fun r _ => ?_, ?_⟩
  · exact List.Nodup.map (fun c c' h => Nat.add_left_cancel h) List.nodup_range'
  · refine (List.nodup_range' (s := br) (n := re - br)).imp fun {r r'} hne => ?_
    intro i hi hi'
    obtain ⟨c, hc, rfl⟩ := List.mem_map.mp hi
    obtain ⟨c', hc', heq⟩ := List.mem_map.mp hi'
    rw [List.mem_range'_1] at hc hc'
    have := (index_div (g := g) (r := r) (c := c) (by omega)).1
    have := (index_div (g := g) (r := r') (c := c') (by omega)).1
    rw [heq] at this
    omega

end Grid

/-! ## The blocks of a tile -/

def ChunkBlock.At (b : ChunkBlock) (tileIdx : Nat) (p : Nat × Nat) : Prop :=
  b.tileIdx = tileIdx ∧ (b.colStart ≤ p.1 ∧ p.1 < b.colEnd) ∧ b.rowStart ≤ p.2 ∧ p.2 < b.rowEnd

theorem contains_iff {b : ChunkBlock} {tileIdx : Nat} {p : Nat × Nat} :
    b.contains tileIdx p.1 p.2 = true ↔ b.At tileIdx p := by
  simp [ChunkBlock.contains, ChunkBlock.At]

/-- `b` is cut before `b'`: from an earlier tile, wholly above it, or to its left in the
same rows. -/
def Before (b b' : ChunkBlock) : Prop :=
  b.tileIdx < b'.tileIdx ∨ b.tileIdx = b'.tileIdx ∧
    (b.rowEnd ≤ b'.rowStart ∨ b.rowStart = b'.rowStart ∧ b.colEnd ≤ b'.colStart)

namespace ChunkBlock

def width (b : ChunkBlock) : Nat := b.colEnd - b.colStart

def height (b : ChunkBlock) : Nat := b.rowEnd - b.rowStart

/-- Without one of its rows the rectangle has fewer positions than the target. -/
def LessARow (b : ChunkBlock) (targetChunks : Nat) : Prop :=
  b.width * (b.height - 1) < targetChunks

theorem LessARow.area_lt {b : ChunkBlock} {targetChunks : Nat} (h : b.LessARow targetChunks) :
    b.width * b.height < targetChunks + b.width := by
  rw [LessARow, Nat.mul_sub_one] at h
  omega

end ChunkBlock

/-- The height of the rectangles is the least with which they reach the target, or less. -/
theorem width_mul_height_lt {target bw rows : Nat} (htarget : 0 < target) (hbw : 0 < bw) :
    bw * (clamp (divCeil target bw) 1 rows - 1) < target := by
  have hceil : bw * (divCeil target bw - 1) < target := by
    have hdiv : divCeil target bw - 1 = (target - 1) / bw := by
      rw [divCeil, show target + bw - 1 = target - 1 + bw by omega, Nat.add_div_right _ hbw,
        Nat.succ_sub_one]
    have := Nat.mul_div_le (target - 1) bw
    rw [hdiv]
    omega
  refine (Nat.mul_le_mul_left bw ?_).trans_lt hceil
  rw [clamp]
  omega

theorem Before.disjoint {b b' : ChunkBlock} (h : Before b b') {tileIdx : Nat} {p : Nat × Nat}
    (hb : b.At tileIdx p) : ¬ b'.At tileIdx p := by
  rintro ⟨htile', hcol', hrow'⟩
  obtain ⟨htile, hcol, hrow⟩ := hb
  rcases h with hlt | ⟨-, habove | ⟨-, hleft⟩⟩ <;> omega

section Blocks

variable {g : Grid} {chunks : List (Nat × Nat)} {tileIdx bw bh br bc : Nat} {p : Nat × Nat}

theorem blockAt_iff (hp : g.Inside p) :
    (blockAt tileIdx g chunks bw bh br bc).1.At (tileIdx % 2 ^ 32) p ↔
      (bc ≤ p.1 - g.c0 ∧ p.1 - g.c0 < min (bc + bw) g.cols) ∧
        br ≤ p.2 - g.r0 ∧ p.2 - g.r0 < min (br + bh) g.rows := by
  obtain ⟨⟨hc0, hc1⟩, hr0, hr1⟩ := hp
  simp only [blockAt, ChunkBlock.At, true_and]
  omega

theorem length_cells (g : Grid) (br re bc ce : Nat) :
    (g.cells br re bc ce).length = (ce - bc) * (re - br) := by
  rw [Grid.cells, List.length_flatMap]
  simp [Nat.mul_comm]

theorem blockAt_area :
    (blockAt tileIdx g chunks bw bh br bc).2 ≤
      (blockAt tileIdx g chunks bw bh br bc).1.width *
        (blockAt tileIdx g chunks bw bh br bc).1.height := by
  refine List.countP_le_length.trans ?_
  rw [length_cells]
  simp only [blockAt, ChunkBlock.width, ChunkBlock.height]
  rw [Nat.add_sub_add_left, Nat.add_sub_add_left]

theorem blockAt_lessARow {target : Nat} (h : bw * (bh - 1) < target) :
    (blockAt tileIdx g chunks bw bh br bc).1.LessARow target := by
  simp only [ChunkBlock.LessARow, ChunkBlock.width, ChunkBlock.height, blockAt]
  exact (Nat.mul_le_mul (by omega) (by omega)).trans_lt h

theorem blockAt_count (hnodup : chunks.Nodup) (hin : ∀ p ∈ chunks, g.Inside p) :
    (blockAt tileIdx g chunks bw bh br bc).2 =
      chunks.countP fun p =>
        (blockAt tileIdx g chunks bw bh br bc).1.contains (tileIdx % 2 ^ 32) p.1 p.2 := by
  set b := (blockAt tileIdx g chunks bw bh br bc).1 with hb
  have hfilter : ((g.cells br (min (br + bh) g.rows) bc (min (bc + bw) g.cols)).filter fun i =>
      chunks.any fun p => g.index p == i).Perm
      ((chunks.filter fun p => b.contains (tileIdx % 2 ^ 32) p.1 p.2).map g.index) := by
    refine (List.perm_ext_iff_of_nodup ((Grid.cells_nodup (min_le_right _ _)).filter _) ?_).mpr ?_
    · refine List.Nodup.map_on ?_ (hnodup.filter _)
      intro p hp q hq heq
      exact Grid.index_injective (hin p (List.mem_of_mem_filter hp))
        (hin q (List.mem_of_mem_filter hq)) heq
    · intro i
      simp only [List.mem_filter, List.mem_map, List.any_eq_true, beq_iff_eq, contains_iff]
      constructor
      · rintro ⟨hi, p, hp, rfl⟩
        refine ⟨p, ⟨hp, (blockAt_iff (hin p hp)).mpr ?_⟩, rfl⟩
        obtain ⟨r, c, hr, hc, heq⟩ := Grid.mem_cells.mp hi
        obtain ⟨hrow, hcol⟩ := (Grid.index_eq (hin p hp) (by omega)).mp heq
        omega
      · rintro ⟨p, ⟨hp, hat⟩, rfl⟩
        refine ⟨Grid.mem_cells.mpr ?_, p, hp, rfl⟩
        obtain ⟨hcol, hrow⟩ := (blockAt_iff (hin p hp)).mp hat
        exact ⟨p.2 - g.r0, p.1 - g.c0, hrow, hcol, rfl⟩
  rw [List.countP_eq_length_filter, ← List.length_map g.index, ← hfilter.length_eq,
    ← List.countP_eq_length_filter]
  rfl

end Blocks

section TileBlocks

variable {squareWidth : Nat → Nat → Nat → Nat} {targetChunks tileIdx : Nat} {tile : TileLayout}
  {chunks : List (Nat × Nat)} {b : ChunkBlock × Nat} {p : Nat × Nat}

theorem mem_tileBlocks (h : b ∈ tileBlocks squareWidth targetChunks tileIdx tile chunks) :
    chunks ≠ [] ∧ ∃ bw bh br bc, 0 < bw ∧ 0 < bh ∧ br < (Grid.of chunks).rows ∧
      bc < (Grid.of chunks).cols ∧ b = blockAt tileIdx (Grid.of chunks) chunks bw bh br bc ∧
        0 < b.2 ∧ (0 < targetChunks → bw * (bh - 1) < targetChunks) := by
  rw [tileBlocks] at h
  split at h
  · cases h
  next hne =>
    obtain ⟨br, hbr, hb⟩ := List.mem_flatMap.mp h
    obtain ⟨hb, hpos⟩ := List.mem_filter.mp hb
    obtain ⟨bc, hbc, rfl⟩ := List.mem_map.mp hb
    exact ⟨fun hnil => hne (by rw [hnil]; rfl), _, _, br, bc, one_le_clamp, one_le_clamp,
      lt_of_mem_stepBy one_le_clamp hbr, lt_of_mem_stepBy one_le_clamp hbc, rfl,
      of_decide_eq_true hpos, fun htarget => width_mul_height_lt htarget one_le_clamp⟩

theorem count_of_mem_tileBlocks (hnodup : chunks.Nodup)
    (h : b ∈ tileBlocks squareWidth targetChunks tileIdx tile chunks) :
    b.1.tileIdx = tileIdx % 2 ^ 32 ∧ 0 < b.2 ∧
      b.2 = chunks.countP fun p => b.1.contains (tileIdx % 2 ^ 32) p.1 p.2 := by
  obtain ⟨-, bw, bh, br, bc, -, -, -, -, rfl, hpos, -⟩ := mem_tileBlocks h
  exact ⟨rfl, hpos, blockAt_count hnodup fun p hp => Grid.of_spec hp⟩

theorem area_of_mem_tileBlocks (htarget : 0 < targetChunks)
    (h : b ∈ tileBlocks squareWidth targetChunks tileIdx tile chunks) :
    b.2 ≤ b.1.width * b.1.height ∧ b.1.LessARow targetChunks := by
  obtain ⟨-, bw, bh, br, bc, -, -, -, -, rfl, -, hrow⟩ := mem_tileBlocks h
  exact ⟨blockAt_area, blockAt_lessARow (hrow htarget)⟩

/-- A block is a proper rectangle within the bounds of the chunks. -/
theorem fits_of_mem_tileBlocks {across down : Nat}
    (hin : ∀ p ∈ chunks, p.1 < across ∧ p.2 < down)
    (h : b ∈ tileBlocks squareWidth targetChunks tileIdx tile chunks) :
    b.1.colStart < b.1.colEnd ∧ b.1.rowStart < b.1.rowEnd ∧ b.1.colEnd ≤ across ∧
      b.1.rowEnd ≤ down := by
  obtain ⟨hne, bw, bh, br, bc, hbw, hbh, hbr, hbc, rfl, -⟩ := mem_tileBlocks h
  have hc1 : (Grid.of chunks).c1 ≤ across := by
    refine Grid.max?_lt (by simpa using hne) fun x hx => ?_
    obtain ⟨p, hp, rfl⟩ := List.mem_map.mp hx
    exact (hin p hp).1
  have hr1 : (Grid.of chunks).r1 ≤ down := by
    refine Grid.max?_lt (by simpa using hne) fun x hx => ?_
    obtain ⟨p, hp, rfl⟩ := List.mem_map.mp hx
    exact (hin p hp).2
  rw [Grid.rows] at hbr
  rw [Grid.cols] at hbc
  simp only [blockAt, Grid.rows, Grid.cols]
  omega

theorem tileBlocks_cover (squareWidth : Nat → Nat → Nat → Nat) (targetChunks : Nat)
    (tile : TileLayout) (hnodup : chunks.Nodup) (hp : p ∈ chunks) :
    ∃ b ∈ tileBlocks squareWidth targetChunks tileIdx tile chunks,
      b.1.At (tileIdx % 2 ^ 32) p := by
  have hin := Grid.of_spec hp
  have hinside : ∀ q ∈ chunks, (Grid.of chunks).Inside q := fun q hq => Grid.of_spec hq
  rw [tileBlocks, if_neg (by simpa using List.ne_nil_of_mem hp)]
  set g := Grid.of chunks
  set bw := clamp (squareWidth targetChunks tile.chunkHeight tile.chunkWidth) 1 g.cols
  set bh := clamp (divCeil targetChunks bw) 1 g.rows
  have hcol : p.1 - g.c0 < g.cols := by
    rw [Grid.cols]
    omega
  have hrow : p.2 - g.r0 < g.rows := by
    rw [Grid.rows]
    omega
  obtain ⟨bc, hbc, hcols⟩ := exists_step (k := bw) one_le_clamp hcol
  obtain ⟨br, hbr, hrows⟩ := exists_step (k := bh) one_le_clamp hrow
  have hat : (blockAt tileIdx g chunks bw bh br bc).1.At (tileIdx % 2 ^ 32) p :=
    (blockAt_iff hin).mpr ⟨hcols, hrows⟩
  refine ⟨blockAt tileIdx g chunks bw bh br bc, ?_, hat⟩
  refine List.mem_flatMap.mpr ⟨br, hbr, List.mem_filter.mpr ⟨List.mem_map_of_mem hbc, ?_⟩⟩
  rw [decide_eq_true_iff, blockAt_count hnodup hinside]
  exact List.countP_pos_iff.mpr ⟨p, hp, contains_iff.mpr hat⟩

/-- The blocks of a tile are cut row of blocks by row of blocks, each from left to right. -/
theorem tileBlocks_before :
    ((tileBlocks squareWidth targetChunks tileIdx tile chunks).map Prod.fst).Pairwise Before := by
  rw [List.pairwise_map, tileBlocks]
  split
  · exact .nil
  rw [List.pairwise_flatMap]
  constructor
  · intro br _
    refine List.Pairwise.filter _ (List.pairwise_map.mpr ?_)
    refine (stepBy_pairwise _ _).imp fun {bc bc'} hle => ?_
    refine .inr ⟨rfl, .inr ⟨rfl, ?_⟩⟩
    simp only [blockAt]
    omega
  · refine (stepBy_pairwise _ _).imp fun {br br'} hle => ?_
    intro b hb b' hb'
    obtain ⟨bc, -, rfl⟩ := List.mem_map.mp (List.mem_of_mem_filter hb)
    obtain ⟨bc', -, rfl⟩ := List.mem_map.mp (List.mem_of_mem_filter hb')
    refine .inr ⟨rfl, .inl ?_⟩
    simp only [blockAt]
    omega

end TileBlocks

/-! ## The blocks of a mosaic -/

section Mosaic

variable {m : MosaicLayout} {c : ChunkRef} {tileIdx : Nat}

theorem colRow_of_tile {tile : TileLayout} (htile : m.tiles[c.tileIdx]? = some tile)
    (hidx : c.chunkIdx < tile.chunksAcross * tile.chunksDown) :
    chunkColRow m c = (c.chunkIdx % tile.chunksAcross, c.chunkIdx / tile.chunksAcross) ∧
      (chunkColRow m c).1 < tile.chunksAcross ∧ (chunkColRow m c).2 < tile.chunksDown := by
  have hpos : 0 < tile.chunksAcross := Nat.pos_of_mul_pos_right (Nat.zero_lt_of_lt hidx)
  have heq : chunkColRow m c =
      (c.chunkIdx % tile.chunksAcross, c.chunkIdx / tile.chunksAcross) := by
    simp only [chunkColRow, htile, Option.map_some, Option.getD_some, Nat.max_eq_left hpos]
  rw [heq]
  exact ⟨rfl, Nat.mod_lt _ hpos, Nat.div_lt_of_lt_mul hidx⟩

theorem mem_present {p : Nat × Nat} :
    p ∈ present m tileIdx ↔ ∃ c ∈ m.chunkRefs, c.tileIdx = tileIdx ∧ chunkColRow m c = p := by
  simp only [present, List.mem_map, List.mem_filter, decide_eq_true_eq, and_assoc]

theorem present_nodup (m : MosaicLayout) (tileIdx : Nat) : (present m tileIdx).Nodup := by
  refine List.Nodup.map_on ?_ (m.nodup.filter _)
  intro c hc c' hc' heq
  obtain ⟨hmem, rfl⟩ : c ∈ m.chunkRefs ∧ c.tileIdx = tileIdx := by simpa using hc
  obtain ⟨hmem', htile'⟩ : c' ∈ m.chunkRefs ∧ c'.tileIdx = c.tileIdx := by simpa using hc'
  obtain ⟨tile, htile, hidx⟩ := m.inTile c hmem
  obtain ⟨tile', htile'', hidx'⟩ := m.inTile c' hmem'
  obtain rfl : tile' = tile := by
    rw [htile', htile] at htile''
    exact (Option.some.inj htile'').symm
  rw [(colRow_of_tile htile hidx).1, (colRow_of_tile htile'' hidx').1, Prod.mk.injEq] at heq
  have hchunk : c.chunkIdx = c'.chunkIdx := by
    rw [← Nat.div_add_mod c.chunkIdx tile'.chunksAcross, heq.1, heq.2, Nat.div_add_mod]
  cases c
  cases c'
  simp_all

variable {squareWidth : Nat → Nat → Nat → Nat} {targetChunks : Nat} {b : ChunkBlock × Nat}

theorem mem_blocks :
    b ∈ blocks squareWidth m targetChunks ↔ ∃ tileIdx tile, m.tiles[tileIdx]? = some tile ∧
      b ∈ tileBlocks squareWidth targetChunks tileIdx tile (present m tileIdx) := by
  simp only [blocks, List.mem_flatMap, Prod.exists, List.mem_zipIdx_iff_getElem?]
  exact exists_comm

def ChunkBlock.Has (m : MosaicLayout) (b : ChunkBlock) (c : ChunkRef) : Prop :=
  b.At c.tileIdx (chunkColRow m c)

instance (m : MosaicLayout) (b : ChunkBlock) : DecidablePred (b.Has m) := fun _ =>
  inferInstanceAs (Decidable (_ ∧ (_ ∧ _) ∧ _ ∧ _))

theorem lt_of_tile (htiles : m.tiles.length ≤ 2 ^ 32) {tile : TileLayout}
    (htile : m.tiles[tileIdx]? = some tile) : tileIdx % 2 ^ 32 = tileIdx :=
  Nat.mod_eq_of_lt ((List.getElem?_eq_some_iff.mp htile).1.trans_le htiles)

theorem blocks_before (htiles : m.tiles.length ≤ 2 ^ 32) :
    ((blocks squareWidth m targetChunks).map Prod.fst).Pairwise Before := by
  have hidx : m.tiles.zipIdx.Pairwise fun t t' => t.2 < t'.2 := by
    have hrange := List.pairwise_lt_range' (s := 0) (n := m.tiles.length)
    rw [← List.zipIdx_map_snd 0 m.tiles, List.pairwise_map] at hrange
    exact hrange
  rw [List.pairwise_map, blocks, List.pairwise_flatMap]
  refine ⟨fun t _ => List.pairwise_map.mp tileBlocks_before, ?_⟩
  refine hidx.imp_of_mem fun {t t'} ht ht' hlt b hb b' hb' => .inl ?_
  rw [List.mem_zipIdx_iff_getElem?] at ht ht'
  rw [(count_of_mem_tileBlocks (present_nodup m t.2) hb).1, lt_of_tile htiles ht,
    (count_of_mem_tileBlocks (present_nodup m t'.2) hb').1, lt_of_tile htiles ht']
  exact hlt

/-- The count of a block is the number of streamed chunks it has. -/
theorem count_of_mem_blocks (htiles : m.tiles.length ≤ 2 ^ 32)
    (h : b ∈ blocks squareWidth m targetChunks) :
    0 < b.2 ∧ b.2 = m.chunkRefs.countP (b.1.Has m ·) := by
  obtain ⟨tileIdx, tile, htile, hb⟩ := mem_blocks.mp h
  obtain ⟨hidx, hpos, hcount⟩ := count_of_mem_tileBlocks (present_nodup m tileIdx) hb
  rw [lt_of_tile htiles htile] at hidx hcount
  refine ⟨hpos, hcount.trans ?_⟩
  rw [present, List.countP_map, List.countP_filter]
  refine List.countP_congr fun c _ => ?_
  simp only [Function.comp_apply, Bool.and_eq_true, contains_iff, decide_eq_true_eq]
  constructor
  · rintro ⟨hat, rfl⟩
    exact hat
  · intro hhas
    obtain rfl : tileIdx = c.tileIdx := hidx ▸ hhas.1
    exact ⟨hhas, rfl⟩

theorem blocks_cover (squareWidth : Nat → Nat → Nat → Nat) (targetChunks : Nat)
    (htiles : m.tiles.length ≤ 2 ^ 32) (hc : c ∈ m.chunkRefs) :
    ∃ b ∈ blocks squareWidth m targetChunks, b.1.Has m c := by
  obtain ⟨tile, htile, -⟩ := m.inTile c hc
  obtain ⟨b, hb, hat⟩ := tileBlocks_cover squareWidth targetChunks tile
    (present_nodup m c.tileIdx) (mem_present.mpr ⟨c, hc, rfl, rfl⟩)
  rw [lt_of_tile htiles htile] at hat
  exact ⟨b, mem_blocks.mpr ⟨c.tileIdx, tile, htile, hb⟩, hat⟩

theorem validateBlock_ok (htiles : m.tiles.length ≤ 2 ^ 32)
    (h : b ∈ blocks squareWidth m targetChunks) : validateBlock m b.1 = .ok () := by
  obtain ⟨tileIdx, tile, htile, hb⟩ := mem_blocks.mp h
  have hidx := (count_of_mem_tileBlocks (present_nodup m tileIdx) hb).1
  rw [lt_of_tile htiles htile] at hidx
  have hin : ∀ p ∈ present m tileIdx, p.1 < tile.chunksAcross ∧ p.2 < tile.chunksDown := by
    intro p hp
    obtain ⟨c, hc, rfl, rfl⟩ := mem_present.mp hp
    obtain ⟨tile', htile', hchunk⟩ := m.inTile c hc
    obtain rfl : tile = tile' := Option.some.inj (htile.symm.trans htile')
    exact (colRow_of_tile htile hchunk).2
  obtain ⟨hcol, hrow, hacross, hdown⟩ := fits_of_mem_tileBlocks hin hb
  simp only [validateBlock, hidx, htile]
  rw [if_neg (by omega)]

end Mosaic

/-! ## Packing -/

section Pack

variable {w : ChunkBlock → Nat}

def Fits (targetChunks : Nat) (w : ChunkBlock → Nat) (group : List ChunkBlock) : Prop :=
  (group.map w).sum ≤ targetChunks ∨ group.length = 1

/-- Groups of consecutive blocks. One that exceeds the target is a single block. -/
theorem pack_spec (targetChunks : Nat) (blocks : List (ChunkBlock × Nat)) (hweight : ∀ b ∈ blocks, b.2 = w b.1)
    (current : List ChunkBlock)
    (hcurrent : current ≠ [] → Fits targetChunks w current) :
    (pack targetChunks blocks current (current.map w).sum).flatten =
        current ++ blocks.map Prod.fst ∧
      ∀ group ∈ pack targetChunks blocks current (current.map w).sum,
        group ≠ [] ∧ Fits targetChunks w group := by
  induction blocks generalizing current with
  | nil =>
    rw [pack]
    split
    next hempty =>
      rw [List.isEmpty_iff.mp hempty]
      exact ⟨rfl, nofun⟩
    next hne =>
      have hne : current ≠ [] := by simpa using hne
      refine ⟨by simp, fun group hgroup => ?_⟩
      rw [List.mem_singleton.mp hgroup]
      exact ⟨hne, hcurrent hne⟩
  | cons b blocks ih =>
    obtain ⟨block, n⟩ := b
    obtain rfl : n = w block := hweight _ List.mem_cons_self
    have hrest : ∀ b ∈ blocks, b.2 = w b.1 :=
      fun b hb => hweight b (List.mem_cons_of_mem _ hb)
    rw [pack]
    split
    next hfull =>
      have hne : current ≠ [] := by simpa using hfull.1
      obtain ⟨hflat, hfits⟩ := ih hrest [block] fun _ => .inr rfl
      rw [List.map_singleton, List.sum_singleton] at hflat hfits
      refine ⟨by rw [List.flatten_cons, hflat]; rfl, fun group hgroup => ?_⟩
      rcases List.mem_cons.mp hgroup with rfl | hgroup
      · exact ⟨hne, hcurrent hne⟩
      · exact hfits group hgroup
    next hroom =>
      have hnext : Fits targetChunks w (current ++ [block]) := by
        by_cases hempty : current = []
        · rw [hempty]
          exact .inr rfl
        · refine .inl ?_
          have := not_and.mp hroom (by simpa using hempty)
          simpa using this
      obtain ⟨hflat, hfits⟩ := ih hrest (current ++ [block]) fun _ => hnext
      rw [List.map_append, List.map_singleton, List.sum_append, List.sum_singleton] at hflat hfits
      exact ⟨by rw [hflat, List.append_assoc]; rfl, hfits⟩

end Pack

/-! ## Plans -/

section Plans

variable {m : MosaicLayout} {squareWidth : Nat → Nat → Nat → Nat} {targetChunks : Nat}

theorem countP_or {α : Type} {p q : α → Bool} {l : List α} (h : ∀ x ∈ l, p x = true → q x = false) :
    l.countP (fun x => p x || q x) = l.countP p + l.countP q := by
  induction l with
  | nil => rfl
  | cons x l ih =>
    have hx := h x List.mem_cons_self
    rw [List.countP_cons, List.countP_cons, List.countP_cons,
      ih fun y hy => h y (List.mem_cons_of_mem _ hy)]
    cases hp : p x
    · simp only [Bool.false_or, Bool.false_eq_true, if_false]
      omega
    · simp only [hx hp, Bool.or_false, if_true, Bool.false_eq_true, if_false]
      omega

theorem countP_one {α : Type} {p : α → Bool} {l : List α}
    (hone : l.Pairwise fun x y => ¬ (p x = true ∧ p y = true)) (hsome : ∃ x ∈ l, p x = true) :
    l.countP p = 1 := by
  induction hone with
  | nil =>
    obtain ⟨x, hx, -⟩ := hsome
    cases hx
  | @cons x l hx hone ih =>
    rw [List.countP_cons]
    cases hp : p x
    · obtain ⟨y, hy, hpy⟩ := hsome
      rcases List.mem_cons.mp hy with rfl | hy
      · rw [hp] at hpy
        cases hpy
      · rw [ih ⟨y, hy, hpy⟩]
        rfl
    · have hnone : l.countP p = 0 :=
        List.countP_eq_zero.mpr fun y hy hpy => hx y hy ⟨hp, hpy⟩
      rw [hnone]
      rfl

theorem containsChunk_iff {p : ScanPartition} {c : ChunkRef} :
    p.containsChunk m c = true ↔ ∃ b ∈ p.blocks, b.Has m c := by
  simp only [containsChunk, List.any_eq_true, contains_iff, ChunkBlock.Has]

/-- Blocks that are apart have as many chunks as each of them has, added up. -/
theorem chunkCount_eq {p : ScanPartition} (hapart : p.blocks.Pairwise Before) :
    p.chunkCount m = (p.blocks.map fun b => m.chunkRefs.countP (b.Has m ·)).sum := by
  obtain ⟨index, count, fingerprint, blocks⟩ := p
  rw [chunkCount, ← List.countP_eq_length_filter]
  simp only at hapart ⊢
  induction hapart with
  | nil => exact List.countP_eq_zero.mpr fun c _ => Bool.false_ne_true
  | @cons b blocks hb hapart ih =>
    rw [List.map_cons, List.sum_cons, ← ih, ← countP_or]
    · refine List.countP_congr fun c _ => ?_
      rw [containsChunk_iff, Bool.or_eq_true, containsChunk_iff, decide_eq_true_iff]
      simp only [List.mem_cons, exists_eq_or_imp]
    · intro c _ hc
      rw [← Bool.not_eq_true, containsChunk_iff]
      rintro ⟨b', hb', hc'⟩
      exact (hb b' hb').disjoint (of_decide_eq_true (p := b.Has m c) hc) hc'

/-- What the plan of a mosaic has to be. The blocks are listed by tile, then from the top,
then from the left, and no two of them share a position. A worker streams its chunks in the
order of the mosaic. -/
structure Covers (m : MosaicLayout) (targetChunks : Nat) (plan : List ScanPartition) : Prop where
  once : ∀ c ∈ m.chunkRefs, (plan.countP fun p => p.containsChunk m c) = 1
  apart : (plan.flatMap ScanPartition.blocks).Pairwise Before
  /-- What exceeds the target is one rectangle, by less than one of its rows. -/
  size : ∀ p ∈ plan, 0 < p.chunkCount m ∧ (p.chunkCount m ≤ targetChunks ∨
    ∃ b, p.blocks = [b] ∧ p.chunkCount m < targetChunks + b.width)
  rows : ∀ p ∈ plan, ∀ b ∈ p.blocks, b.LessARow targetChunks
  indices : ∀ i (p : ScanPartition), plan[i]? = some p → p.index = i ∧ p.count = plan.length
  streams : ∀ p ∈ plan, p.restrictMosaic m = .ok (m.chunkRefs.filter (p.containsChunk m))

/-- A chunk is in no two partitions of a plan. -/
theorem Covers.disjoint {plan : List ScanPartition} (h : Covers m targetChunks plan)
    {c : ChunkRef} (hc : c ∈ m.chunkRefs) (p q : Fin plan.length)
    (hp : plan[p].containsChunk m c = true) (hq : plan[q].containsChunk m c = true) : p = q := by
  have hnot : ∀ p q : Fin plan.length, p < q → plan[p].containsChunk m c = true →
      plan[q].containsChunk m c ≠ true := by
    intro p q hlt hp hq
    have hone := h.once c hc
    rw [← List.take_append_drop q plan, List.countP_append] at hone
    have hbefore : 0 < (plan.take q).countP fun p => p.containsChunk m c :=
      List.countP_pos_iff.mpr ⟨plan[p], List.mem_take_iff_getElem.mpr
        ⟨p, lt_min hlt p.isLt, rfl⟩, hp⟩
    have hafter : 0 < (plan.drop q).countP fun p => p.containsChunk m c :=
      List.countP_pos_iff.mpr ⟨plan[q], List.mem_drop_iff_getElem.mpr
        ⟨0, by simp, by simp⟩, hq⟩
    omega
  rcases lt_trichotomy p q with hlt | heq | hlt
  · exact absurd hq (hnot p q hlt hp)
  · exact heq
  · exact absurd hp (hnot q p hlt hq)

/-- The groups of a plan are cut in order, none is empty, and their blocks have chunks and
fit the mosaic. -/
structure Grouped (m : MosaicLayout) (targetChunks : Nat) (groups : List (List ChunkBlock)) :
    Prop where
  before : groups.flatten.Pairwise Before
  cover : ∀ c ∈ m.chunkRefs, ∃ b ∈ groups.flatten, b.Has m c
  fits : ∀ group ∈ groups, group ≠ [] ∧
    Fits targetChunks (fun b => m.chunkRefs.countP (b.Has m ·)) group
  blocks : ∀ b ∈ groups.flatten, 0 < m.chunkRefs.countP (b.Has m ·) ∧ validateBlock m b = .ok ()
  area : ∀ b ∈ groups.flatten, m.chunkRefs.countP (b.Has m ·) ≤ b.width * b.height ∧
    b.LessARow targetChunks

theorem grouped_pack (squareWidth : Nat → Nat → Nat → Nat) (hpos : 0 < targetChunks)
    (htiles : m.tiles.length ≤ 2 ^ 32) :
    Grouped m targetChunks (pack targetChunks (blocks squareWidth m targetChunks) [] 0) := by
  have hspec := pack_spec targetChunks (blocks squareWidth m targetChunks)
    (w := fun b => m.chunkRefs.countP (b.Has m ·))
    (fun b hb => (count_of_mem_blocks htiles hb).2) [] fun h => absurd rfl h
  obtain ⟨hflat, hfits⟩ := hspec
  rw [List.nil_append] at hflat
  constructor
  · exact hflat ▸ blocks_before htiles
  · intro c hc
    obtain ⟨b, hb, hhas⟩ := blocks_cover squareWidth targetChunks htiles hc
    exact ⟨b.1, hflat ▸ List.mem_map_of_mem hb, hhas⟩
  · exact hfits
  · intro b hb
    obtain ⟨b', hb', rfl⟩ := List.mem_map.mp (hflat ▸ hb)
    obtain ⟨hpos, hcount⟩ := count_of_mem_blocks htiles hb'
    exact ⟨hcount ▸ hpos, validateBlock_ok htiles hb'⟩
  · intro b hb
    obtain ⟨b', hb', rfl⟩ := List.mem_map.mp (hflat ▸ hb)
    obtain ⟨tileIdx, tile, -, hin⟩ := mem_blocks.mp hb'
    rw [← (count_of_mem_blocks htiles hb').2]
    exact area_of_mem_tileBlocks hpos hin

theorem forM_ok {α : Type} {f : α → Except PartitionError Unit} {l : List α}
    (h : ∀ x ∈ l, f x = .ok ()) : l.forM f = .ok () := by
  induction l with
  | nil => rfl
  | cons x l ih =>
    show (f x >>= fun _ => l.forM f) = .ok ()
    rw [h x List.mem_cons_self]
    exact ih fun y hy => h y (List.mem_cons_of_mem _ hy)

theorem Grouped.covers {groups : List (List ChunkBlock)} (h : Grouped m targetChunks groups)
    {plan : List ScanPartition} (hblocks : plan.map ScanPartition.blocks = groups)
    (hindices : ∀ i (p : ScanPartition), plan[i]? = some p → p.index = i ∧ p.count = plan.length)
    (hfingerprint : ∀ p ∈ plan, p.mosaicFingerprint = mosaicFingerprint m) :
    Covers m targetChunks plan := by
  subst hblocks
  have hbefore := h.before
  rw [← List.flatMap_def, List.pairwise_flatMap] at hbefore
  obtain ⟨hinside, hacross⟩ := hbefore
  have hmem : ∀ p ∈ plan, ∀ b ∈ p.blocks, b ∈ (plan.map ScanPartition.blocks).flatten :=
    fun p hp b hb => List.mem_flatten.mpr ⟨p.blocks, List.mem_map_of_mem hp, hb⟩
  constructor
  · intro c hc
    refine countP_one (hacross.imp fun {p q} hpq => ?_) ?_
    · rintro ⟨hp, hq⟩
      obtain ⟨b, hb, hhas⟩ := containsChunk_iff.mp hp
      obtain ⟨b', hb', hhas'⟩ := containsChunk_iff.mp hq
      exact (hpq b hb b' hb').disjoint hhas hhas'
    · obtain ⟨b, hb, hhas⟩ := h.cover c hc
      obtain ⟨group, hgroup, hb⟩ := List.mem_flatten.mp hb
      obtain ⟨p, hp, rfl⟩ := List.mem_map.mp hgroup
      exact ⟨p, hp, containsChunk_iff.mpr ⟨b, hb, hhas⟩⟩
  · rw [List.flatMap_def]
    exact h.before
  · intro p hp
    obtain ⟨hne, hfits⟩ := h.fits p.blocks (List.mem_map_of_mem hp)
    rw [chunkCount_eq (hinside p hp)]
    refine ⟨?_, hfits.imp_right fun hone => ?_⟩
    · obtain ⟨b, hb⟩ := List.exists_mem_of_ne_nil _ hne
      have hpos := (h.blocks b (hmem p hp b hb)).1
      have hle := List.single_le_sum (fun _ _ => Nat.zero_le _) _
        (List.mem_map_of_mem (f := fun b => m.chunkRefs.countP (ChunkBlock.Has m b ·)) hb)
      exact hpos.trans_le hle
    · obtain ⟨b, hb⟩ := List.length_eq_one_iff.mp hone
      obtain ⟨harea, hrow⟩ := h.area b (hmem p hp b (by rw [hb]; exact List.mem_singleton_self b))
      refine ⟨b, hb, ?_⟩
      rw [hb, List.map_singleton, List.sum_singleton]
      exact harea.trans_lt hrow.area_lt
  · exact fun p hp b hb => (h.area b (hmem p hp b hb)).2
  · exact hindices
  · intro p hp
    obtain ⟨i, hi⟩ := List.getElem?_of_mem hp
    obtain ⟨hindex, hcount⟩ := hindices i p hi
    have hlt := (List.getElem?_eq_some_iff.mp hi).1
    have hvalid : p.validateFor m = .ok () := by
      rw [validateFor, if_neg (by omega), if_neg (by rw [hfingerprint p hp]; exact fun h => h rfl)]
      exact forM_ok fun b hb => (h.blocks b (hmem p hp b hb)).2
    rw [restrictMosaic, hvalid]
    rfl

theorem planPartitions_covers (squareWidth : Nat → Nat → Nat → Nat) (hpos : targetChunks ≠ 0)
    (htiles : m.tiles.length ≤ 2 ^ 32) :
    ∃ plan, planPartitions squareWidth m targetChunks = .ok plan ∧
      (plan.length < 2 ^ 32 → Covers m targetChunks plan) := by
  have hgrouped := grouped_pack squareWidth (Nat.pos_of_ne_zero hpos) htiles
  rw [planPartitions, if_neg hpos]
  generalize pack targetChunks (blocks squareWidth m targetChunks) [] 0 = groups at hgrouped
  refine ⟨_, rfl, fun hcount => hgrouped.covers ?_ ?_ ?_⟩
  · rw [List.map_map]
    exact List.zipIdx_map_fst 0 groups
  · intro i p hp
    rw [List.length_map, List.length_zipIdx] at hcount ⊢
    rw [List.getElem?_map, Option.map_eq_some_iff] at hp
    obtain ⟨g, hg, rfl⟩ := hp
    rw [List.getElem?_zipIdx, Option.map_eq_some_iff] at hg
    obtain ⟨group, hgroup, rfl⟩ := hg
    have hi := (List.getElem?_eq_some_iff.mp hgroup).1
    simp only [Nat.zero_add]
    exact ⟨Nat.mod_eq_of_lt (hi.trans hcount), Nat.mod_eq_of_lt hcount⟩
  · intro p hp
    obtain ⟨g, -, rfl⟩ := List.mem_map.mp hp
    dsimp only

end Plans

/-- Rectangles are streamed one after the other, the rows of a mosaic are not cut. -/
def InStreamOrder (m : MosaicLayout) (plan : List ScanPartition) : Prop :=
  (plan.flatMap fun p => m.chunkRefs.filter (p.containsChunk m)) = m.chunkRefs

instance (m : MosaicLayout) : DecidablePred (InStreamOrder m) := fun _ =>
  inferInstanceAs (Decidable (_ = _))

/-- The square root of `target * height / width`, rounded. -/
def roundedSqrt (targetChunks chunkHeight chunkWidth : Nat) : Nat :=
  (Nat.sqrt (4 * targetChunks * chunkHeight / chunkWidth) + 1) / 2

def twoByTwo : MosaicLayout where
  tiles := [{
    width := 512
    height := 512
    chunkWidth := 256
    chunkHeight := 256
    chunksAcross := 2
    chunksDown := 2
    -- 10° east, 50° north, pixels of 1/64 of a degree
    geotransform := [0x3f90000000000000, 0, 0x4024000000000000, 0, 0xbf90000000000000,
      0x4049000000000000]
    -- EPSG:4326
    crsIdentity := [69, 80, 83, 71, 58, 52, 51, 50, 54] }]
  overlapRule := .cutline
  bbox := none
  chunkRefs := [⟨0, 0⟩, ⟨0, 1⟩, ⟨0, 2⟩, ⟨0, 3⟩]
  nodup := by decide
  inTile := by simp

/-- A single block that cannot be cut. -/
def Indivisible (p : ScanPartition) : Prop :=
  ∃ b, p.blocks = [b] ∧ b.width * b.height = 1

/-- The plan of a target of three: the whole grid. -/
def wholeGrid : ScanPartition where
  index := 0
  count := 1
  mosaicFingerprint := Partition.mosaicFingerprint twoByTwo
  blocks := [⟨0, 0, 2, 0, 2⟩]

theorem planPartitions_wholeGrid : planPartitions roundedSqrt twoByTwo 3 = .ok [wholeGrid] := by
  decide +kernel

/-- Of four chunks, two partitions of two are the columns while the rows are streamed, and for a
target of three the whole grid is one block. -/
theorem columns_out_of_stream_order :
    (¬ ∀ plan, planPartitions roundedSqrt twoByTwo 2 = .ok plan → InStreamOrder twoByTwo plan) ∧
    ¬ ∀ plan, planPartitions roundedSqrt twoByTwo 3 = .ok plan →
      ∀ p ∈ plan, p.chunkCount twoByTwo ≤ 3 ∨ Indivisible p := by
  constructor
  · intro h
    have hplan : ∃ plan, planPartitions roundedSqrt twoByTwo 2 = .ok plan ∧
        ¬ InStreamOrder twoByTwo plan := ⟨_, rfl, by decide +kernel⟩
    obtain ⟨plan, hok, hout⟩ := hplan
    exact hout (h plan hok)
  · intro h
    rcases h _ planPartitions_wholeGrid wholeGrid (List.mem_singleton_self _) with
      hfew | ⟨b, hb, harea⟩
    · exact absurd hfew (by decide +kernel)
    · obtain rfl := List.singleton_injective hb
      exact absurd harea (by decide)

theorem planPartitions_covers_twoByTwo :
    planPartitions roundedSqrt twoByTwo 3 = .ok [wholeGrid] ∧ Covers twoByTwo 3 [wholeGrid] := by
  obtain ⟨plan, hok, hcovers⟩ : ∃ plan, planPartitions roundedSqrt twoByTwo 3 = .ok plan ∧
      (plan.length < 2 ^ 32 → Covers twoByTwo 3 plan) :=
    planPartitions_covers roundedSqrt (by decide) (by decide)
  obtain rfl : plan = [wholeGrid] := Except.ok.inj (hok.symm.trans planPartitions_wholeGrid)
  exact ⟨hok, hcovers (by decide)⟩

end RasterH3.Agg.Partition
