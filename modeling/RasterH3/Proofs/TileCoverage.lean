import RasterH3.Proofs.TileEviction

/-!
# The tiles of a cell

Which tiles does a cell belong to? The rows are those between the rows of its points,
clamped. The columns are another matter, because a cell may lie across the antimeridian,
where the greatest `x` is followed by the least.

A cell that crosses is unwrapped: every point gets a name that differs from its `x` by whole
turns, next to the names before it, and the columns between the least and the greatest name
are taken modulo a turn. They are fewer than a turn has, so none comes twice, and the column
of a name is that of its point. The induction along the points keeps two facts, that each
name is a name of its point (`SameTurn`) and that the names seen lie between the least and
the greatest (`Unwrapped.Covers`). In any other case the columns are those between the
clamped columns of the points.

The two agree except on the antimeridian itself, where `x = 1` is the first column of the
next turn and, clamped, the last column of this one. A vertex that lies exactly there is in
one of the two columns, which of them depends on the other vertices;
`covers_without_repeats` says so, and the last theorem has a cell for either case.
-/

namespace RasterH3.Pmtiles

variable {F : Type} [Field F] [LinearOrder F] [IsStrictOrderedRing F] [FloorRing F]

/-- The column of a point, taken modulo a turn. -/
def columnOf (x : F) (z : Nat) : Nat := (⌊x * 2 ^ z⌋ % 2 ^ z).toNat

/-! ## Points of the range -/

omit [IsStrictOrderedRing F] in
theorem cellTileRange_bounds (center : MercatorPoint F) (vertices : List (MercatorPoint F))
    (z : Nat) : ∀ p ∈ center :: vertices,
      let r := cellTileRangeMercator center vertices z
      (r.minTx ≤ tileCoord p.x z ∧ tileCoord p.x z ≤ r.maxTx) ∧
        r.minTy ≤ tileCoord p.y z ∧ tileCoord p.y z ≤ r.maxTy := by
  have hfold : ∀ (vs : List (MercatorPoint F)) (r : TileRange) (x y : Nat),
      ((r.minTx ≤ x ∧ x ≤ r.maxTx) ∧ r.minTy ≤ y ∧ y ≤ r.maxTy) ∨
        (∃ p ∈ vs, tileCoord p.x z = x ∧ tileCoord p.y z = y) →
      let r' := vs.foldl (fun r v =>
        let t := mercatorToTileXy v z
        (⟨min r.minTx t.1, max r.maxTx t.1, min r.minTy t.2, max r.maxTy t.2⟩ : TileRange)) r
      (r'.minTx ≤ x ∧ x ≤ r'.maxTx) ∧ r'.minTy ≤ y ∧ y ≤ r'.maxTy := by
    intro vs
    induction vs with
    | nil =>
      intro r x y h
      rcases h with h | ⟨p, hp, -⟩
      · exact h
      · cases hp
    | cons v vs ih =>
      intro r x y h
      refine ih _ x y ?_
      simp only [mercatorToTileXy]
      rcases h with h | ⟨p, hp, hx, hy⟩
      · left
        omega
      · rcases List.mem_cons.mp hp with rfl | hp
        · left
          omega
        · exact Or.inr ⟨p, hp, hx, hy⟩
  intro p hp
  refine hfold vertices _ _ _ ?_
  rcases List.mem_cons.mp hp with rfl | hp
  · exact Or.inl ⟨⟨le_refl _, le_refl _⟩, le_refl _, le_refl _⟩
  · exact Or.inr ⟨p, hp, rfl, rfl⟩

/-- Before the antimeridian the clamped column is the column. -/
theorem tileCoord_eq_columnOf {x : F} (hx : 0 ≤ x) (hlt : x < 1) (z : Nat) :
    tileCoord x z = columnOf x z := by
  have hpow : (0 : F) < 2 ^ z := by positivity
  have hfloor : 0 ≤ ⌊x * 2 ^ z⌋ := Int.floor_nonneg.mpr (by positivity)
  have hbelow : ⌊x * 2 ^ z⌋ < 2 ^ z := by
    rw [Int.floor_lt]
    push_cast
    exact (mul_lt_iff_lt_one_left hpow).mpr hlt
  rw [tileCoord, columnOf, Int.emod_eq_of_lt hfloor hbelow]
  omega

theorem floor_turn (z : Nat) : ⌊(1 : F) * 2 ^ z⌋ = 2 ^ z := by
  rw [one_mul]
  exact_mod_cast Int.floor_intCast (R := F) (2 ^ z)

theorem columnOf_one (z : Nat) : columnOf (1 : F) z = 0 := by
  rw [columnOf, floor_turn, Int.emod_self]
  rfl

theorem tileCoord_one (z : Nat) : tileCoord (1 : F) z = 2 ^ z - 1 := by
  have hpos := Nat.two_pow_pos z
  have hcast : ((2 ^ z : Nat) : Int) = 2 ^ z := by push_cast; rfl
  rw [tileCoord, floor_turn]
  omega

/-! ## Names of a point -/

omit [LinearOrder F] [IsStrictOrderedRing F] [FloorRing F] in
/-- Two numbers that differ by whole turns. -/
def SameTurn (x u : F) : Prop := ∃ k : Int, u = x + k

omit [IsStrictOrderedRing F] [FloorRing F] in
theorem lower_sameTurn (u : F) (rounds : Nat) (x : F) : SameTurn x (lower u rounds x) := by
  induction rounds generalizing x with
  | zero => exact ⟨0, by simp [lower]⟩
  | succ n ih =>
    rw [lower]
    split
    · obtain ⟨k, hk⟩ := ih (x - 1)
      refine ⟨k - 1, ?_⟩
      rw [hk]
      push_cast
      ring
    · exact ⟨0, by simp⟩

omit [IsStrictOrderedRing F] [FloorRing F] in
theorem raise_sameTurn (u : F) (rounds : Nat) (x : F) : SameTurn x (raise u rounds x) := by
  induction rounds generalizing x with
  | zero => exact ⟨0, by simp [raise]⟩
  | succ n ih =>
    rw [raise]
    split
    · obtain ⟨k, hk⟩ := ih (x + 1)
      refine ⟨k + 1, ?_⟩
      rw [hk]
      push_cast
      ring
    · exact ⟨0, by simp⟩

omit [IsStrictOrderedRing F] in
theorem unwrapNear_sameTurn (u x : F) : SameTurn x (unwrapNear u x) := by
  obtain ⟨k, hk⟩ := lower_sameTurn u (⌊|x - u|⌋.toNat + 1) x
  obtain ⟨k', hk'⟩ := raise_sameTurn u (⌊|x - u|⌋.toNat + 1) (lower u (⌊|x - u|⌋.toNat + 1) x)
  refine ⟨k + k', ?_⟩
  rw [unwrapNear, hk', hk]
  push_cast
  ring

/-- A name of the point lies between the least and the greatest seen. -/
def Unwrapped.Covers (s : Unwrapped F) (x : F) : Prop :=
  ∃ u, SameTurn x u ∧ s.min ≤ u ∧ u ≤ s.max

omit [IsStrictOrderedRing F] in
theorem Unwrapped.covers_next (s : Unwrapped F) (x : F) : (s.next x).Covers x :=
  ⟨unwrapNear s.last x, unwrapNear_sameTurn s.last x, min_le_right _ _, le_max_right _ _⟩

omit [IsStrictOrderedRing F] in
theorem Unwrapped.Covers.next {s : Unwrapped F} {y : F} (h : s.Covers y) (x : F) :
    (s.next x).Covers y := by
  obtain ⟨u, hu, hmin, hmax⟩ := h
  exact ⟨u, hu, min_le_of_left_le hmin, le_max_of_le_left hmax⟩

omit [IsStrictOrderedRing F] in
theorem Unwrapped.covers_foldl (vs : List (MercatorPoint F)) {s : Unwrapped F} {y : F}
    (h : s.Covers y ∨ ∃ v ∈ vs, v.x = y) :
    (vs.foldl (fun s v => s.next v.x) s).Covers y := by
  induction vs generalizing s with
  | nil =>
    rcases h with h | ⟨v, hv, -⟩
    · exact h
    · cases hv
  | cons v vs ih =>
    refine ih ?_
    rcases h with h | ⟨w, hw, rfl⟩
    · exact Or.inl (h.next v.x)
    · rcases List.mem_cons.mp hw with rfl | hw
      · exact Or.inl (s.covers_next w.x)
      · exact Or.inr ⟨w, hw, rfl⟩

/-! ## The wrapped columns -/

theorem columnOf_sameTurn {x u : F} (h : SameTurn x u) (z : Nat) : columnOf u z = columnOf x z := by
  obtain ⟨k, rfl⟩ := h
  have hfloor : ⌊(x + k) * 2 ^ z⌋ = ⌊x * 2 ^ z⌋ + k * 2 ^ z := by
    have hmul : (x + k) * 2 ^ z = x * 2 ^ z + ((k * 2 ^ z : Int) : F) := by
      push_cast
      ring
    rw [hmul, Int.floor_add_intCast]
  rw [columnOf, columnOf, hfloor, Int.add_mul_emod_self_right]

/-- The columns from `lo` to `hi`, modulo a turn. -/
theorem wrapped_nodup {lo hi : Int} {z : Nat} (hturn : hi - lo < 2 ^ z) :
    ((List.range (hi + 1 - lo).toNat).map fun i : Nat => ((lo + i) % 2 ^ z).toNat).Nodup := by
  have hpos : (0 : Int) < 2 ^ z := by positivity
  refine List.Nodup.map_on (fun i hi' j hj' hij => ?_) List.nodup_range
  rw [List.mem_range] at hi' hj'
  have hmod : (lo + i) % 2 ^ z = (lo + j) % 2 ^ z := by
    have hi0 := Int.emod_nonneg (lo + i) hpos.ne'
    have hj0 := Int.emod_nonneg (lo + j) hpos.ne'
    omega
  have hcancel : (i : Int) % 2 ^ z = j % 2 ^ z := Int.ModEq.add_left_cancel' lo hmod
  rw [Int.emod_eq_of_lt (by omega) (by omega), Int.emod_eq_of_lt (by omega) (by omega)] at hcancel
  omega

theorem mem_wrapped {lo hi : F} {z : Nat} {u : F} (hlo : lo ≤ u) (hhi : u ≤ hi) :
    columnOf u z ∈ (List.range (⌊hi * 2 ^ z⌋ + 1 - ⌊lo * 2 ^ z⌋).toNat).map
      fun i : Nat => ((⌊lo * 2 ^ z⌋ + i) % 2 ^ z).toNat := by
  have hpow : (0 : F) ≤ 2 ^ z := by positivity
  have hmin : ⌊lo * 2 ^ z⌋ ≤ ⌊u * 2 ^ z⌋ := Int.floor_mono (mul_le_mul_of_nonneg_right hlo hpow)
  have hmax : ⌊u * 2 ^ z⌋ ≤ ⌊hi * 2 ^ z⌋ := Int.floor_mono (mul_le_mul_of_nonneg_right hhi hpow)
  refine List.mem_map.mpr ⟨(⌊u * 2 ^ z⌋ - ⌊lo * 2 ^ z⌋).toNat, List.mem_range.mpr (by omega), ?_⟩
  have hsum : ⌊lo * 2 ^ z⌋ + ((⌊u * 2 ^ z⌋ - ⌊lo * 2 ^ z⌋).toNat : Int) = ⌊u * 2 ^ z⌋ := by omega
  rw [hsum, columnOf]

theorem wrappedColumns_spec {center : MercatorPoint F} {vertices : List (MercatorPoint F)}
    {z : Nat} {columns : List Nat} (hten : vertices.length ≤ 10)
    (h : wrappedColumns center vertices z = some columns) :
    columns.Nodup ∧ ∀ p ∈ center :: vertices, columnOf p.x z ∈ columns := by
  cases vertices with
  | nil => cases h
  | cons first rest =>
    have hrest : rest.take 9 = rest := List.take_of_length_le (by
      rw [List.length_cons] at hten
      omega)
    simp only [wrappedColumns, hrest, bind_pure_comp, List.map_eq_map, List.map_map] at h
    generalize hs : Unwrapped.next (rest.foldl (fun s v => s.next v.x)
      ⟨first.x, first.x, first.x⟩) center.x = s at h
    have hcovers : ∀ p ∈ center :: first :: rest, s.Covers p.x := by
      intro p hp
      rw [← hs]
      rcases List.mem_cons.mp hp with rfl | hp
      · exact Unwrapped.covers_next _ _
      · refine Unwrapped.Covers.next (Unwrapped.covers_foldl rest ?_) _
        rcases List.mem_cons.mp hp with rfl | hp
        · exact Or.inl ⟨p.x, ⟨0, by simp⟩, le_refl _, le_refl _⟩
        · exact Or.inr ⟨p, hp, rfl⟩
    split at h
    · split at h
      · split at h
        next hturn =>
          cases h
          refine ⟨wrapped_nodup hturn, fun p hp => ?_⟩
          obtain ⟨u, hu, hmin, hmax⟩ := hcovers p hp
          rw [← columnOf_sameTurn hu]
          exact mem_wrapped hmin hmax
        next => cases h
      · cases h
    · cases h

/-! ## The tiles -/

/-- The columns of a cell: none twice, and of every point either the clamped column or the
column modulo a turn. -/
theorem columns_spec (center : MercatorPoint F) {vertices : List (MercatorPoint F)} (z : Nat)
    (hten : vertices.length ≤ 10) :
    let r := cellTileRangeMercator center vertices z
    let columns :=
      if r.minTx = r.maxTx then [r.minTx]
      else (wrappedColumns center vertices z).getD (inclusive r.minTx r.maxTx)
    columns.Nodup ∧ ∀ p ∈ center :: vertices,
      tileCoord p.x z ∈ columns ∨ columnOf p.x z ∈ columns := by
  intro r columns
  have hbounds : ∀ p ∈ center :: vertices, r.minTx ≤ tileCoord p.x z ∧ tileCoord p.x z ≤ r.maxTx :=
    fun p hp => (cellTileRange_bounds center vertices z p hp).1
  show List.Nodup (ite _ _ _) ∧ ∀ p ∈ center :: vertices,
    tileCoord p.x z ∈ ite _ _ _ ∨ columnOf p.x z ∈ ite _ _ _
  split
  next hone =>
    refine ⟨List.nodup_singleton _, fun p hp => Or.inl (List.mem_singleton.mpr ?_)⟩
    obtain ⟨hmin, hmax⟩ := hbounds p hp
    show tileCoord p.x z = r.minTx
    omega
  next =>
    cases hwrapped : wrappedColumns center vertices z with
    | some wrapped =>
      obtain ⟨hnodup, hmem⟩ := wrappedColumns_spec hten hwrapped
      exact ⟨hnodup, fun p hp => Or.inr (hmem p hp)⟩
    | none =>
      refine ⟨List.nodup_range', fun p hp => Or.inl ?_⟩
      obtain ⟨hmin, hmax⟩ := hbounds p hp
      show tileCoord p.x z ∈ List.range' _ _
      rw [List.mem_range'_1]
      omega

theorem forEachCellTile_spec (center : MercatorPoint F) {vertices : List (MercatorPoint F)}
    (z : Nat) (hten : vertices.length ≤ 10) :
    (forEachCellTileMercator center vertices z).Nodup ∧ ∀ p ∈ center :: vertices,
      (tileCoord p.x z, tileCoord p.y z) ∈ forEachCellTileMercator center vertices z ∨
        (columnOf p.x z, tileCoord p.y z) ∈ forEachCellTileMercator center vertices z := by
  obtain ⟨hnodup, hmem⟩ := columns_spec center z hten
  rw [forEachCellTileMercator]
  simp only [List.mem_flatMap, List.mem_map]
  constructor
  · rw [List.nodup_flatMap]
    refine ⟨fun tx _ => List.Nodup.map (fun _ _ h => (Prod.ext_iff.mp h).2) List.nodup_range', ?_⟩
    refine hnodup.imp fun {tx tx'} hne tile htile htile' => hne ?_
    obtain ⟨_, -, rfl⟩ := List.mem_map.mp htile
    obtain ⟨_, -, h⟩ := List.mem_map.mp htile'
    exact (Prod.ext_iff.mp h).1.symm
  · intro p hp
    obtain ⟨-, hmin, hmax⟩ := cellTileRange_bounds center vertices z p hp
    have hrow : tileCoord p.y z ∈ inclusive (cellTileRangeMercator center vertices z).minTy
        (cellTileRangeMercator center vertices z).maxTy := by
      rw [inclusive, List.mem_range'_1]
      omega
    rcases hmem p hp with h | h
    · exact Or.inl ⟨_, h, _, hrow, rfl⟩
    · exact Or.inr ⟨_, h, _, hrow, rfl⟩

/-- No tile comes twice, and every point has its tile; on the antimeridian either column will
do. -/
theorem covers_without_repeats (center : MercatorPoint F) {vertices : List (MercatorPoint F)}
    (z : Nat) (hten : vertices.length ≤ 10)
    (hx : ∀ p ∈ center :: vertices, 0 ≤ p.x ∧ p.x ≤ 1) :
    (forEachCellTileMercator center vertices z).Nodup ∧ ∀ p ∈ center :: vertices,
      (p.x ≠ 1 →
        (columnOf p.x z, tileCoord p.y z) ∈ forEachCellTileMercator center vertices z) ∧
      (p.x = 1 →
        (2 ^ z - 1, tileCoord p.y z) ∈ forEachCellTileMercator center vertices z ∨
          (0, tileCoord p.y z) ∈ forEachCellTileMercator center vertices z) := by
  obtain ⟨hnodup, hmem⟩ := forEachCellTile_spec center z hten
  refine ⟨hnodup, fun p hp => ⟨fun hne => ?_, fun hone => ?_⟩⟩
  · have htile := hmem p hp
    rwa [tileCoord_eq_columnOf (hx p hp).1 (lt_of_le_of_ne (hx p hp).2 hne) z, or_self] at htile
  · have htile := hmem p hp
    rwa [hone, tileCoord_one, columnOf_one] at htile

/-- A cell across the antimeridian has tiles at both ends of the row, and each of them once. -/
theorem covers_across :
    let tiles := forEachCellTileMercator (⟨19 / 20, 1 / 3⟩ : MercatorPoint ℚ)
      [⟨9 / 10, 1 / 2⟩, ⟨1, 2 / 5⟩, ⟨1 / 20, 1 / 4⟩] 3
    tiles.Nodup ∧ (7, 2) ∈ tiles ∧ (0, 2) ∈ tiles ∧ ((7, 3) ∈ tiles ∨ (0, 3) ∈ tiles) := by
  intro tiles
  have hx : ∀ p ∈ (⟨19 / 20, 1 / 3⟩ : MercatorPoint ℚ) ::
      [⟨9 / 10, 1 / 2⟩, ⟨1, 2 / 5⟩, ⟨1 / 20, 1 / 4⟩], 0 ≤ p.x ∧ p.x ≤ 1 := by
    decide +kernel
  obtain ⟨hnodup, hcovers⟩ := covers_without_repeats _ 3 (by decide) hx
  have hcenter := (hcovers ⟨19 / 20, 1 / 3⟩ (by simp)).1 (by norm_num)
  have hwest := (hcovers ⟨1 / 20, 1 / 4⟩ (by simp)).1 (by norm_num)
  have hseam := (hcovers ⟨1, 2 / 5⟩ (by simp)).2 rfl
  have hcolumns : columnOf (19 / 20 : ℚ) 3 = 7 ∧ columnOf (1 / 20 : ℚ) 3 = 0 := by decide +kernel
  have hrows : tileCoord (1 / 3 : ℚ) 3 = 2 ∧ tileCoord (1 / 4 : ℚ) 3 = 2 ∧
      tileCoord (2 / 5 : ℚ) 3 = 3 := by
    decide +kernel
  rw [hcolumns.1, hrows.1] at hcenter
  rw [hcolumns.2, hrows.2.1] at hwest
  rw [hrows.2.2] at hseam
  exact ⟨hnodup, hcenter, hwest, hseam⟩

def besideAntimeridian : List (MercatorPoint ℚ) := [⟨9 / 10, 1 / 2⟩, ⟨1, 1 / 4⟩, ⟨9 / 10, 1 / 4⟩]

/-- A vertex on the antimeridian is not in the column modulo a turn, nor always in the clamped
column. -/
theorem antimeridian_vertex_has_one_column :
    (columnOf (1 : ℚ) 3, tileCoord (1 / 4 : ℚ) 3) ∉
        forEachCellTileMercator ⟨19 / 20, 1 / 3⟩ besideAntimeridian 3 ∧
      (tileCoord (1 : ℚ) 3, tileCoord (1 / 4 : ℚ) 3) ∉
        forEachCellTileMercator (⟨1 / 20, 1 / 3⟩ : MercatorPoint ℚ)
          [⟨1, 1 / 4⟩, ⟨1 / 10, 1 / 2⟩, ⟨1 / 10, 1 / 4⟩] 3 := by
  decide +kernel

end RasterH3.Pmtiles
