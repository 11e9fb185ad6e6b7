import RasterH3.Pmtiles.TilePyramid

/-!
# When an evicted tile comes back

Features arrive from north to south, and the tiles that they can no longer reach are written
and forgotten. A tile is evicted when its south edge is more than the margin north of the
horizon, and what comes later reaches at most one cell radius north of it. So a later
feature does not touch the tile, unless its place in the tile is not its place on the globe:
south of the Mercator limit every latitude is clamped into the last row, whose south edge is
that limit. A last row that was evicted may come back, and is then written again. Nothing is
lost either way; `PolarClear` says exactly when no tile is written twice.

A run is a list of features and evictions. What has been produced so far, every feature with
every tile it covers, is at any time in a bucket or in a written tile (`Reached`); adding a
feature to its tiles adds its pairs to the buckets, and an eviction moves the tiles that are
due out and leaves the others (`Tidy.evict`), with the queue of evictions having one entry
for each bucket at the latitude of its tile. By then it is settled that each pair is in a
written tile at the end, and what remains to be counted is tiles. `count_flushAll_step` says
how often a tile has been written, counting one that is still open: an eviction does not
change that, and a feature adds one where it opens a tile.

A tile that a later feature covers has not been evicted, the last row apart
(`le_horizon_of_mem_coverage`), which gives one direction; a tile that is covered again
after its eviction is counted twice, which gives the other.
-/

namespace RasterH3.Pmtiles

variable {F : Type} [Field F] [LinearOrder F] [IsStrictOrderedRing F] [FloorRing F]

/-! ## Rows -/

section Rows

omit [IsStrictOrderedRing F] in
theorem cellTileRange_rows (center : MercatorPoint F) (vertices : List (MercatorPoint F))
    (z : Nat) :
    (∃ p ∈ center :: vertices,
      (cellTileRangeMercator center vertices z).minTy = tileCoord p.y z) ∧
    ∃ p ∈ center :: vertices, (cellTileRangeMercator center vertices z).maxTy = tileCoord p.y z := by
  have hfold : ∀ (vs : List (MercatorPoint F)) (r : TileRange),
      vs ⊆ vertices →
      (∃ p ∈ center :: vertices, r.minTy = tileCoord p.y z) →
      (∃ p ∈ center :: vertices, r.maxTy = tileCoord p.y z) →
      (∃ p ∈ center :: vertices, (vs.foldl (fun r v =>
        let t := mercatorToTileXy v z
        (⟨min r.minTx t.1, max r.maxTx t.1, min r.minTy t.2, max r.maxTy t.2⟩ : TileRange)) r).minTy =
          tileCoord p.y z) ∧
      ∃ p ∈ center :: vertices, (vs.foldl (fun r v =>
        let t := mercatorToTileXy v z
        (⟨min r.minTx t.1, max r.maxTx t.1, min r.minTy t.2, max r.maxTy t.2⟩ : TileRange)) r).maxTy =
          tileCoord p.y z := by
    intro vs
    induction vs with
    | nil => exact fun r _ hmin hmax => ⟨hmin, hmax⟩
    | cons v vs ih =>
        intro r hsub hmin hmax
        have hv : v ∈ center :: vertices := List.mem_cons_of_mem _ (hsub List.mem_cons_self)
        refine ih _ (fun p hp => hsub (List.mem_cons_of_mem v hp)) ?_ ?_
        · rcases min_choice r.minTy (mercatorToTileXy v z).2 with h | h
          · exact hmin.imp fun p hp => ⟨hp.1, h.trans hp.2⟩
          · exact ⟨v, hv, h⟩
        · rcases max_choice r.maxTy (mercatorToTileXy v z).2 with h | h
          · exact hmax.imp fun p hp => ⟨hp.1, h.trans hp.2⟩
          · exact ⟨v, hv, h⟩
  exact hfold vertices _ (fun _ h => h) ⟨center, List.mem_cons_self, rfl⟩
    ⟨center, List.mem_cons_self, rfl⟩

omit [IsStrictOrderedRing F] in
theorem tileCoord_lt (v : F) (z : Nat) : tileCoord v z < 2 ^ z := by
  have hpos := Nat.two_pow_pos z
  have hle : min (max ⌊v * 2 ^ z⌋ 0) (2 ^ z - 1) ≤ (2 ^ z - 1 : Int) := min_le_right _ _
  have hcast : ((2 ^ z : Nat) : Int) = 2 ^ z := by push_cast; rfl
  unfold tileCoord
  omega

omit [IsStrictOrderedRing F] in
/-- A row that is covered is no further north than one of the feature's points. -/
theorem row_of_mem_coverage {P : Type} {axis : MercatorAxis F} {f : Feature F P} {k : TileKey}
    (hk : k ∈ TilePyramidAccumulator.coverage axis f) :
    k.1 = f.zoom ∧ k.2.2 < 2 ^ k.1 ∧ ∃ p ∈ f.center :: f.vertices,
      tileCoord (MercatorPoint.fromLatLng axis p).y k.1 ≤ k.2.2 := by
  obtain ⟨⟨tx, ty⟩, ht, rfl⟩ := List.mem_map.mp hk
  rw [forEachCellTileMercator, List.mem_flatMap] at ht
  obtain ⟨tx', -, ht⟩ := ht
  obtain ⟨ty', hrow, heq⟩ := List.mem_map.mp ht
  obtain ⟨rfl, rfl⟩ := Prod.mk.inj heq
  obtain ⟨⟨p, hp, hmin⟩, ⟨q, hq, hmax⟩⟩ := cellTileRange_rows
    (MercatorPoint.fromLatLng axis f.center) (f.vertices.map (MercatorPoint.fromLatLng axis)) f.zoom
  rw [inclusive, List.mem_range'_1] at hrow
  have hlt := tileCoord_lt q.y f.zoom
  refine ⟨rfl, ?_, ?_⟩
  · show ty' < 2 ^ f.zoom
    omega
  · rw [← List.map_cons] at hp
    obtain ⟨p', hp', rfl⟩ := List.mem_map.mp hp
    exact ⟨p', hp', by rw [← hmin]; exact hrow.1⟩

/-- Away from the last row, a point of the row or further north lies north of the row's
south edge. -/
theorem tileSouth_lt {axis : MercatorAxis F} {p : LatLng F} {k : TileKey}
    (hrow : tileCoord (MercatorPoint.fromLatLng axis p).y k.1 ≤ k.2.2)
    (hlast : k.2.2 + 1 < 2 ^ k.1) : tileSouth axis k < p.lat := by
  have hn : (0 : F) < 2 ^ k.1 := by positivity
  have hv₀ : (0 : F) ≤ (k.2.2 + 1) / 2 ^ k.1 := by positivity
  have hv₁ : ((k.2.2 : F) + 1) / 2 ^ k.1 ≤ 1 := by
    rw [div_le_one hn]
    exact_mod_cast hlast.le
  have hy : (MercatorPoint.fromLatLng axis p).y < (k.2.2 + 1) / 2 ^ k.1 := by
    have hcast : ((2 ^ k.1 : Nat) : Int) = 2 ^ k.1 := by push_cast; rfl
    have hfloor : ⌊(MercatorPoint.fromLatLng axis p).y * 2 ^ k.1⌋ ≤ (k.2.2 : Int) := by
      unfold tileCoord at hrow
      omega
    have hlt := Int.lt_floor_add_one ((MercatorPoint.fromLatLng axis p).y * 2 ^ k.1)
    have hle : ((⌊(MercatorPoint.fromLatLng axis p).y * 2 ^ k.1⌋ : Int) : F) ≤ (k.2.2 : Int) := by
      exact_mod_cast hfloor
    rw [lt_div_iff₀ hn]
    push_cast at hle
    linarith
  by_contra hsouth
  rw [not_lt, tileSouth] at hsouth
  obtain ⟨hlo, hhi⟩ := axis.toLat_mem _ hv₀ hv₁
  have hclamp : clamp (-latLimit) latLimit p.lat ≤ axis.toLat ((k.2.2 + 1) / 2 ^ k.1) :=
    max_le hlo ((min_le_right _ _).trans hsouth)
  have hanti := axis.antitone _ _ (le_max_left _ _) hclamp hhi
  rw [axis.toY_toLat _ hv₀ hv₁] at hanti
  exact absurd hy (not_lt.mpr ((le_min hv₁ hanti).trans (le_max_right _ _)))

end Rows

/-! ## The buckets -/

section Buckets

omit [IsStrictOrderedRing F] [FloorRing F]

variable {P : Type}

/-- What is in the tiles: features with the tile they are in. -/
def pairs (tiles : List (TileKey × MvtLayer F P)) : List (Feature F P × TileKey) :=
  tiles.flatMap fun t => t.2.map fun f => (f, t.1)

omit [Field F] [LinearOrder F] in
theorem pairs_append (a b : List (TileKey × MvtLayer F P)) :
    pairs (a ++ b) = pairs a ++ pairs b := List.flatMap_append

namespace TilePyramidAccumulator

/-- The queue has one entry for each bucket, at the latitude of its tile. -/
structure Tidy (axis : MercatorAxis F) (acc : TilePyramidAccumulator F P) : Prop where
  nodup : (Keyed.keys acc.tileBuckets).Nodup
  perm : (acc.tileEvictionQueue.toList.map TileEvictionEntry.tileKey).Perm
    (Keyed.keys acc.tileBuckets)
  lat : ∀ e ∈ acc.tileEvictionQueue.toList,
    e.safeEvictLat = tileSouth axis e.tileKey - acc.safetyMargin

theorem Tidy.new (axis : MercatorAxis F) (safetyMargin : F) :
    Tidy axis (TilePyramidAccumulator.new safetyMargin : TilePyramidAccumulator F P) where
  nodup := List.nodup_nil
  perm := .nil
  lat := fun _ he => nomatch he

theorem Tidy.getOrCreateLayer {axis : MercatorAxis F} {acc : TilePyramidAccumulator F P}
    (h : Tidy axis acc) (k : TileKey) : Tidy axis (acc.getOrCreateLayer axis k) := by
  unfold TilePyramidAccumulator.getOrCreateLayer
  split
  next => exact h
  next hk =>
    refine ⟨?_, ?_, ?_⟩
    · rw [Keyed.keys_append]
      exact (List.perm_append_singleton k _).nodup_iff.mpr (List.nodup_cons.mpr ⟨hk, h.nodup⟩)
    · simp only [MaxHeap.push, Keyed.keys_append, Keyed.keys_cons, Keyed.keys_nil]
      refine ((List.perm_orderedInsert _ _ _).map _).trans ?_
      rw [List.map_cons]
      exact (h.perm.cons k).trans (List.perm_append_singleton k _).symm
    · intro e he
      rcases MaxHeap.mem_push.mp he with rfl | he
      · rfl
      · exact h.lat e he

theorem keys_getOrCreateLayer (axis : MercatorAxis F) (acc : TilePyramidAccumulator F P)
    (k : TileKey) :
    Keyed.keys (acc.getOrCreateLayer axis k).tileBuckets =
      if k ∈ Keyed.keys acc.tileBuckets then Keyed.keys acc.tileBuckets
      else Keyed.keys acc.tileBuckets ++ [k] := by
  unfold getOrCreateLayer
  split <;> simp

theorem pairs_getOrCreateLayer (axis : MercatorAxis F) (acc : TilePyramidAccumulator F P)
    (k : TileKey) :
    pairs (acc.getOrCreateLayer axis k).tileBuckets = pairs acc.tileBuckets := by
  unfold getOrCreateLayer
  split
  next => rfl
  next => simp [pairs]

theorem keys_addToTile (axis : MercatorAxis F) (f : Feature F P)
    (acc : TilePyramidAccumulator F P) (k : TileKey) :
    Keyed.keys (addToTile axis f acc k).tileBuckets =
      if k ∈ Keyed.keys acc.tileBuckets then Keyed.keys acc.tileBuckets
      else Keyed.keys acc.tileBuckets ++ [k] := by
  rw [← keys_getOrCreateLayer axis, addToTile, Keyed.keys, Keyed.keys, List.map_map]
  refine List.map_congr_left fun b _ => ?_
  simp only [Function.comp]
  split <;> rfl

theorem Tidy.addToTile {axis : MercatorAxis F} {acc : TilePyramidAccumulator F P}
    (h : Tidy axis acc) (f : Feature F P) (k : TileKey) :
    Tidy axis (addToTile axis f acc k) := by
  have hget := h.getOrCreateLayer k
  have hkeys : Keyed.keys (TilePyramidAccumulator.addToTile axis f acc k).tileBuckets =
      Keyed.keys (acc.getOrCreateLayer axis k).tileBuckets := by
    rw [keys_addToTile, keys_getOrCreateLayer]
  exact ⟨hkeys ▸ hget.nodup, hkeys ▸ hget.perm, hget.lat⟩

omit [Field F] [LinearOrder F] in
theorem pairs_map_add {tiles : List (TileKey × MvtLayer F P)} (hnodup : (Keyed.keys tiles).Nodup)
    {k : TileKey} (hk : k ∈ Keyed.keys tiles) (f : Feature F P) :
    (pairs (tiles.map fun b => if b.1 = k then (b.1, addToLayer b.2 f) else b)).Perm
      ((f, k) :: pairs tiles) := by
  induction tiles with
  | nil => cases hk
  | cons b tiles ih =>
      obtain ⟨hfresh, hrest⟩ := List.nodup_cons.mp hnodup
      rw [List.map_cons]
      by_cases hb : b.1 = k
      · have hsame : (tiles.map fun b => if b.1 = k then (b.1, addToLayer b.2 f) else b) =
            tiles := by
          refine (List.map_congr_left (g := id) fun b' hb' => if_neg ?_).trans (List.map_id _)
          rintro heq
          exact hfresh (hb.trans heq.symm ▸ List.mem_map_of_mem hb')
        have hlayer : addToLayer b.2 f = b.2 ++ [f] := if_neg (not_lt.mpr f.three)
        rw [if_pos hb, hsame, hlayer]
        simp only [pairs, List.flatMap_cons, List.map_append, List.map_cons, List.map_nil,
          List.append_assoc, hb]
        exact List.perm_middle
      · have hk := (List.mem_cons.mp hk).resolve_left fun h => hb h.symm
        rw [if_neg hb]
        exact ((ih hrest hk).append_left _).trans List.perm_middle

theorem pairs_addToTile {axis : MercatorAxis F} {acc : TilePyramidAccumulator F P}
    (h : Tidy axis acc) (f : Feature F P) (k : TileKey) :
    (pairs (TilePyramidAccumulator.addToTile axis f acc k).tileBuckets).Perm
      ((f, k) :: pairs acc.tileBuckets) := by
  have hk : k ∈ Keyed.keys (acc.getOrCreateLayer axis k).tileBuckets := by
    rw [keys_getOrCreateLayer]
    split
    next hk => exact hk
    next => exact List.mem_append_right _ (List.mem_singleton_self k)
  rw [← pairs_getOrCreateLayer axis acc k]
  exact pairs_map_add (h.getOrCreateLayer k).nodup hk f

/-- What adding a feature to some tiles does. -/
theorem foldl_addToTile {axis : MercatorAxis F} (f : Feature F P) (ks : List TileKey)
    {acc : TilePyramidAccumulator F P} (h : Tidy axis acc) :
    Tidy axis (ks.foldl (TilePyramidAccumulator.addToTile axis f) acc) ∧
      (ks.foldl (TilePyramidAccumulator.addToTile axis f) acc).safetyMargin = acc.safetyMargin ∧
      (pairs (ks.foldl (TilePyramidAccumulator.addToTile axis f) acc).tileBuckets).Perm
        (pairs acc.tileBuckets ++ ks.map fun k => (f, k)) ∧
      (Keyed.keys acc.tileBuckets).Sublist
        (Keyed.keys (ks.foldl (TilePyramidAccumulator.addToTile axis f) acc).tileBuckets) ∧
      ∀ k, k ∈ Keyed.keys (ks.foldl (TilePyramidAccumulator.addToTile axis f) acc).tileBuckets ↔
        k ∈ Keyed.keys acc.tileBuckets ∨ k ∈ ks := by
  induction ks generalizing acc with
  | nil => exact ⟨h, rfl, by simp, List.Sublist.refl _, by simp⟩
  | cons k ks ih =>
      obtain ⟨htidy, hmargin, hpairs, hsub, hmem⟩ := ih (h.addToTile f k)
      have hkeys := keys_addToTile axis f acc k
      refine ⟨htidy, hmargin.trans ?_, hpairs.trans ?_, List.Sublist.trans ?_ hsub, fun k' => ?_⟩
      · unfold TilePyramidAccumulator.addToTile getOrCreateLayer
        split <;> rfl
      · rw [List.map_cons]
        exact ((pairs_addToTile h f k).append_right _).trans List.perm_middle.symm
      · rw [hkeys]
        split
        next => exact List.Sublist.refl _
        next => exact List.sublist_append_left _ _
      · rw [List.foldl_cons, hmem, hkeys, List.mem_cons, or_left_comm]
        split
        next hk =>
          constructor
          · exact fun h => h.elim (fun h => Or.inr (Or.inl h)) fun h => Or.inr (Or.inr h)
          · rintro (rfl | h)
            · exact Or.inl hk
            · exact h
        next =>
          rw [List.mem_append, List.mem_singleton]
          tauto

/-! ## Eviction -/

omit [Field F] [LinearOrder F] in
theorem perm_cons_of_lookup {tiles : List (TileKey × MvtLayer F P)}
    (hnodup : (Keyed.keys tiles).Nodup) {k : TileKey} {layer : MvtLayer F P}
    (hlookup : tiles.lookup k = some layer) :
    ((k, layer) :: tiles.filter fun b => b.1 ≠ k).Perm tiles := by
  induction tiles with
  | nil => cases hlookup
  | cons b tiles ih =>
      obtain ⟨hfresh, hrest⟩ := List.nodup_cons.mp hnodup
      obtain ⟨k', layer'⟩ := b
      rw [List.lookup_cons] at hlookup
      by_cases hk : k = k'
      · subst hk
        simp only [beq_self_eq_true, Option.some.injEq] at hlookup
        subst hlookup
        rw [List.filter_cons_of_neg (by simp), List.filter_eq_self.mpr fun b hb => ?_]
        simp only [ne_eq, decide_not, Bool.not_eq_eq_eq_not, Bool.not_true, decide_eq_false_iff_not]
        intro heq
        have hkey := List.mem_map_of_mem (f := Prod.fst) hb
        rw [heq] at hkey
        exact hfresh hkey
      · simp only [beq_eq_false_iff_ne.mpr hk] at hlookup
        rw [List.filter_cons_of_pos (by simpa using fun h => hk h.symm)]
        exact (List.Perm.swap _ _ _).trans ((ih hrest hlookup).cons _)

omit [Field F] [LinearOrder F] in
theorem exists_lookup {tiles : List (TileKey × MvtLayer F P)} {k : TileKey}
    (hk : k ∈ Keyed.keys tiles) : ∃ layer, tiles.lookup k = some layer := by
  cases hlookup : tiles.lookup k with
  | some layer => exact ⟨layer, rfl⟩
  | none =>
      obtain ⟨layer, hb⟩ := Keyed.mem_keys.mp hk
      have := List.lookup_eq_none_iff.mp hlookup _ hb
      simp at this

omit [Field F] [LinearOrder F] in
/-- The popped entries take their tiles out of the buckets. -/
theorem takeTiles_spec {entries : List (TileEvictionEntry F)}
    {tiles : List (TileKey × MvtLayer F P)} (hnodup : (Keyed.keys tiles).Nodup)
    (hentries : (entries.map TileEvictionEntry.tileKey).Nodup)
    (hmem : ∀ e ∈ entries, e.tileKey ∈ Keyed.keys tiles) :
    Keyed.keys (takeTiles entries tiles).1 = entries.map TileEvictionEntry.tileKey ∧
      ((takeTiles entries tiles).1 ++ (takeTiles entries tiles).2).Perm tiles := by
  induction entries generalizing tiles with
  | nil => exact ⟨rfl, .refl _⟩
  | cons e entries ih =>
      obtain ⟨layer, hlookup⟩ := exists_lookup (hmem e List.mem_cons_self)
      have hperm := perm_cons_of_lookup hnodup hlookup
      obtain ⟨hfresh, hrest⟩ := List.nodup_cons.mp hentries
      have hkeys : Keyed.keys (tiles.filter fun b => b.1 ≠ e.tileKey) =
          (Keyed.keys tiles).filter fun k => k ≠ e.tileKey := by
        simp only [Keyed.keys, List.filter_map]
        rfl
      obtain ⟨hready, hleft⟩ := @ih (tiles.filter fun b => b.1 ≠ e.tileKey)
        (hkeys ▸ hnodup.filter _) hrest (fun e' he' => by
          rw [hkeys, List.mem_filter]
          refine ⟨hmem e' (List.mem_cons_of_mem e he'), ?_⟩
          have : e'.tileKey ≠ e.tileKey := fun heq =>
            hfresh (heq ▸ List.mem_map_of_mem he')
          simpa using this)
      rw [takeTiles, hlookup]
      exact ⟨congrArg (List.cons e.tileKey) hready, (hleft.cons _).trans hperm⟩

omit [Field F] in
theorem safeEvictLat_le {e e' : TileEvictionEntry F} (h : e ≤ e') :
    e.safeEvictLat ≤ e'.safeEvictLat := by
  rcases Prod.Lex.le_iff.mp h with h | ⟨h, -⟩
  · exact h.le
  · exact h.le

/-- An eviction moves the tiles that are due out, and leaves the others. -/
theorem Tidy.evict {axis : MercatorAxis F} {acc : TilePyramidAccumulator F P}
    (h : Tidy axis acc) (latHorizon : F) :
    Tidy axis (acc.evict latHorizon).1 ∧
      (acc.evict latHorizon).1.safetyMargin = acc.safetyMargin ∧
      ((acc.evict latHorizon).2 ++ (acc.evict latHorizon).1.tileBuckets).Perm acc.tileBuckets ∧
      (∀ k ∈ Keyed.keys (acc.evict latHorizon).2,
        latHorizon < tileSouth axis k - acc.safetyMargin) ∧
      ∀ k ∈ Keyed.keys (acc.evict latHorizon).1.tileBuckets,
        tileSouth axis k - acc.safetyMargin ≤ latHorizon := by
  have hsplit := List.takeWhile_append_dropWhile
    (p := fun e : TileEvictionEntry F => decide (latHorizon < e.safeEvictLat))
    (l := acc.tileEvictionQueue.toList)
  have hkeys := h.perm
  rw [← hsplit, List.map_append] at hkeys
  have hqueue := hkeys.nodup_iff.mpr h.nodup
  have hmem : ∀ e ∈ acc.tileEvictionQueue.toList.takeWhile
      (fun e => decide (latHorizon < e.safeEvictLat)), e.tileKey ∈ Keyed.keys acc.tileBuckets :=
    fun e he => hkeys.mem_iff.mp (List.mem_append_left _ (List.mem_map_of_mem he))
  obtain ⟨hready, hperm⟩ := takeTiles_spec h.nodup (List.nodup_append.mp hqueue).1 hmem
  have hleft : ((acc.tileEvictionQueue.toList.dropWhile
      (fun e => decide (latHorizon < e.safeEvictLat))).map TileEvictionEntry.tileKey).Perm
        (Keyed.keys (acc.evict latHorizon).1.tileBuckets) := by
    have hall := hkeys.trans (hperm.map Prod.fst).symm
    rw [List.map_append] at hall
    have hfst : (takeTiles (acc.tileEvictionQueue.toList.takeWhile
      (fun e => decide (latHorizon < e.safeEvictLat))) acc.tileBuckets).1.map Prod.fst =
        (acc.tileEvictionQueue.toList.takeWhile
          (fun e => decide (latHorizon < e.safeEvictLat))).map TileEvictionEntry.tileKey := hready
    rw [hfst] at hall
    exact (List.perm_append_left_iff _).mp hall
  refine ⟨⟨?_, hleft, ?_⟩, rfl, hperm, ?_, ?_⟩
  · exact hleft.nodup_iff.mp (List.nodup_append.mp hqueue).2.1
  · exact fun e he => h.lat e (MaxHeap.mem_of_mem_skim he)
  · intro k hk
    have hk := hready ▸ hk
    obtain ⟨e, he, rfl⟩ := List.mem_map.mp hk
    have hdue := List.mem_takeWhile_imp he
    rw [← h.lat e ((List.takeWhile_sublist _).subset he)]
    simpa using hdue
  · intro k hk
    obtain ⟨e, he, rfl⟩ := List.mem_map.mp (hleft.mem_iff.mpr hk)
    have hnot := MaxHeap.drop_of_mem_skim (h := acc.tileEvictionQueue)
      (fun x y hxy hx => by
        simp only [decide_eq_true_eq] at hx ⊢
        exact hx.trans_le (safeEvictLat_le hxy)) he
    rw [← h.lat e (MaxHeap.mem_of_mem_skim he)]
    simpa using hnot

end TilePyramidAccumulator

end Buckets

/-! ## Runs -/

open TilePyramidAccumulator

variable {P : Type}

/-- Every feature with every tile it covers. -/
def produced (axis : MercatorAxis F) (ops : List (TileOp F P)) : List (Feature F P × TileKey) :=
  ops.flatMap fun
    | .add f => (coverage axis f).map fun k => (f, k)
    | .evict _ => []

omit [IsStrictOrderedRing F] in
theorem produced_add (axis : MercatorAxis F) (ops : List (TileOp F P)) (f : Feature F P) :
    produced axis (ops ++ [.add f]) =
      produced axis ops ++ (coverage axis f).map fun k => (f, k) := by
  simp [produced, List.flatMap_append]

omit [IsStrictOrderedRing F] in
theorem produced_evict (axis : MercatorAxis F) (ops : List (TileOp F P)) (latHorizon : F) :
    produced axis (ops ++ [.evict latHorizon]) = produced axis ops := by
  simp [produced, List.flatMap_append]

/-- What arrives after an eviction has its centre no further north than the horizon. -/
def Follows : TileOp F P → TileOp F P → Prop
  | .evict latHorizon, .add f => f.center.lat ≤ latHorizon
  | _, _ => True

/-- Features arrive from north to south, and no cell is wider than the radius. -/
structure Descending (radius : F) (ops : List (TileOp F P)) : Prop where
  follows : ops.Pairwise Follows
  radius : ∀ f, .add f ∈ ops → ∀ p ∈ f.vertices, p.lat ≤ f.center.lat + radius

omit [IsStrictOrderedRing F] [FloorRing F] in
theorem Descending.center {radius : F} {ops : List (TileOp F P)} (h : Descending radius ops)
    {pre post : List (TileOp F P)} {latHorizon : F} (hops : ops = pre ++ .evict latHorizon :: post)
    {f : Feature F P} (hf : .add f ∈ post) : f.center.lat ≤ latHorizon := by
  have hfollows := h.follows
  rw [hops] at hfollows
  exact (List.pairwise_cons.mp (List.pairwise_append.mp hfollows).2.1).1 _ hf

/-- The tiles handed to the writer by the end of a run. -/
def writtenTiles (axis : MercatorAxis F) (safetyMargin : F) (ops : List (TileOp F P)) :
    List (TileKey × MvtLayer F P) :=
  (Tiling.run axis safetyMargin ops).flushAll

/-- No tile is written twice, what is written is what was produced, and each pair of a
feature and a tile is in one written tile. -/
structure WrittenOnce (axis : MercatorAxis F) (safetyMargin : F) (ops : List (TileOp F P)) :
    Prop where
  once : (Keyed.keys (writtenTiles axis safetyMargin ops)).Nodup
  complete : (pairs (writtenTiles axis safetyMargin ops)).Perm (produced axis ops)
  exact : ∀ f k, (f, k) ∈ produced axis ops →
    ∃! tile, tile ∈ writtenTiles axis safetyMargin ops ∧ tile.1 = k ∧ f ∈ tile.2

/-- No tile of a last row is covered both before and after an eviction whose horizon is
south of the Mercator limit by more than the margin. -/
def PolarClear (axis : MercatorAxis F) (safetyMargin : F) (ops : List (TileOp F P)) : Prop :=
  ∀ pre latHorizon post, ops = pre ++ .evict latHorizon :: post →
    ∀ f g, .add f ∈ pre → .add g ∈ post → ∀ k ∈ coverage axis f, k ∈ coverage axis g →
      k.2.2 + 1 = 2 ^ k.1 → tileSouth axis k - safetyMargin ≤ latHorizon

omit [IsStrictOrderedRing F] in
theorem Tiling.run_snoc (axis : MercatorAxis F) (safetyMargin : F) (ops : List (TileOp F P))
    (op : TileOp F P) :
    Tiling.run axis safetyMargin (ops ++ [op]) =
      Tiling.step axis (Tiling.run axis safetyMargin ops) op := by
  simp [Tiling.run, List.foldl_append]

/-- What holds after the steps `ops`. -/
structure Reached (axis : MercatorAxis F) (safetyMargin : F) (ops : List (TileOp F P))
    (st : Tiling F P) : Prop where
  tidy : Tidy axis st.accumulator
  margin : st.accumulator.safetyMargin = safetyMargin
  pairs : (pairs st.written ++ pairs st.accumulator.tileBuckets).Perm (produced axis ops)
  seen : ∀ k, k ∈ Keyed.keys st.written ∨ k ∈ Keyed.keys st.accumulator.tileBuckets ↔
    ∃ f, .add f ∈ ops ∧ k ∈ coverage axis f
  closed : ∀ k ∈ Keyed.keys st.written, ∃ pre latHorizon post,
    ops = pre ++ .evict latHorizon :: post ∧ (∃ f, .add f ∈ pre ∧ k ∈ coverage axis f) ∧
      latHorizon < tileSouth axis k - safetyMargin

omit [IsStrictOrderedRing F] in
theorem Reached.add {axis : MercatorAxis F} {safetyMargin : F} {ops : List (TileOp F P)}
    {st : Tiling F P} (h : Reached axis safetyMargin ops st) (f : Feature F P) :
    Reached axis safetyMargin (ops ++ [.add f]) (Tiling.step axis st (.add f)) := by
  obtain ⟨htidy, hmargin, hpairs, -, hmem⟩ := foldl_addToTile f (coverage axis f) h.tidy
  refine ⟨htidy, hmargin.trans h.margin, ?_, fun k => ?_, fun k hk => ?_⟩
  · rw [produced_add]
    refine (hpairs.append_left (Pmtiles.pairs st.written)).trans ?_
    rw [← List.append_assoc]
    exact h.pairs.append_right _
  · show k ∈ Keyed.keys st.written ∨ _ ↔ _
    rw [show (k ∈ Keyed.keys (Tiling.step axis st (.add f)).accumulator.tileBuckets) ↔ _ from hmem k,
      ← or_assoc, h.seen]
    constructor
    · rintro (⟨g, hg, hk⟩ | hk)
      · exact ⟨g, List.mem_append_left _ hg, hk⟩
      · exact ⟨f, List.mem_append_right _ (List.mem_singleton_self _), hk⟩
    · rintro ⟨g, hg, hk⟩
      rcases List.mem_append.mp hg with hg | hg
      · exact Or.inl ⟨g, hg, hk⟩
      · obtain rfl : g = f := by simpa using hg
        exact Or.inr hk
  · obtain ⟨pre, latHorizon, post, rfl, hf, hlt⟩ := h.closed k hk
    exact ⟨pre, latHorizon, post ++ [.add f], by simp, hf, hlt⟩

omit [IsStrictOrderedRing F] in
theorem Reached.evict {axis : MercatorAxis F} {safetyMargin : F} {ops : List (TileOp F P)}
    {st : Tiling F P} (h : Reached axis safetyMargin ops st) (latHorizon : F) :
    Reached axis safetyMargin (ops ++ [.evict latHorizon])
      (Tiling.step axis st (.evict latHorizon)) := by
  obtain ⟨htidy, hmargin, hperm, hdue, -⟩ := h.tidy.evict latHorizon
  have hkeys : ∀ k, k ∈ Keyed.keys (st.accumulator.evict latHorizon).2 ∨
      k ∈ Keyed.keys (st.accumulator.evict latHorizon).1.tileBuckets ↔
        k ∈ Keyed.keys st.accumulator.tileBuckets := by
    intro k
    rw [← List.mem_append, ← Keyed.keys_append]
    exact (hperm.map Prod.fst).mem_iff
  have hwritten : (Tiling.step axis st (.evict latHorizon)).written =
      st.written ++ (st.accumulator.evict latHorizon).2 := rfl
  have hacc : (Tiling.step axis st (.evict latHorizon)).accumulator =
      (st.accumulator.evict latHorizon).1 := rfl
  have hops : ∀ g : Feature F P, .add g ∈ ops ++ [TileOp.evict latHorizon] ↔ .add g ∈ ops := by
    simp
  refine ⟨htidy, hmargin.trans h.margin, ?_, fun k => ?_, fun k hk => ?_⟩
  · rw [hwritten, hacc, pairs_append, List.append_assoc, ← pairs_append, produced_evict]
    exact ((hperm.flatMap_right _).append_left _).trans h.pairs
  · simp only [hwritten, hacc, Keyed.keys_append, List.mem_append, or_assoc, hkeys, h.seen, hops]
  · rw [hwritten, Keyed.keys_append, List.mem_append] at hk
    rcases hk with hk | hk
    · obtain ⟨pre, latHorizon', post, rfl, hf, hlt⟩ := h.closed k hk
      exact ⟨pre, latHorizon', post ++ [.evict latHorizon], by simp, hf, hlt⟩
    · refine ⟨ops, latHorizon, [], by simp, ?_, ?_⟩
      · exact (h.seen k).mp (Or.inr ((hkeys k).mp (Or.inl hk)))
      · rw [← h.margin]
        exact hdue k hk

omit [IsStrictOrderedRing F] in
theorem reached (axis : MercatorAxis F) (safetyMargin : F) (ops : List (TileOp F P)) :
    Reached axis safetyMargin ops (Tiling.run axis safetyMargin ops) := by
  induction ops using List.reverseRecOn with
  | nil => exact ⟨.new axis safetyMargin, rfl, .refl _, by simp [Tiling.run, TilePyramidAccumulator.new],
      fun k hk => nomatch hk⟩
  | append_singleton ops op ih =>
      rw [Tiling.run_snoc]
      cases op with
      | add f => exact ih.add f
      | evict latHorizon => exact ih.evict latHorizon

/-! ## Writing twice -/

omit [IsStrictOrderedRing F] in
/-- Evicting only moves tiles. -/
theorem flushAll_evict {axis : MercatorAxis F} {st : Tiling F P} (h : Tidy axis st.accumulator)
    (latHorizon : F) :
    (Tiling.step axis st (.evict latHorizon)).flushAll.Perm st.flushAll := by
  show ((st.written ++ _) ++ _).Perm _
  rw [List.append_assoc]
  exact (h.evict latHorizon).2.2.1.append_left _

omit [IsStrictOrderedRing F] in
/-- How often a tile has been written, counting one that is still open. -/
theorem count_flushAll_step (axis : MercatorAxis F) {st : Tiling F P}
    (h : Tidy axis st.accumulator) (op : TileOp F P) (k : TileKey) :
    (Keyed.keys st.flushAll).count k ≤ (Keyed.keys (Tiling.step axis st op).flushAll).count k := by
  cases op with
  | add f =>
      have hsub := (foldl_addToTile f (coverage axis f) h).2.2.2.1
      refine List.Sublist.count_le k ?_
      simp only [Tiling.flushAll, Keyed.keys_append]
      exact hsub.append_left _
  | evict latHorizon =>
      exact (((flushAll_evict h latHorizon).map Prod.fst).count_eq k).ge

omit [IsStrictOrderedRing F] in
theorem count_flushAll_run (axis : MercatorAxis F) (safetyMargin : F) (ops rest : List (TileOp F P))
    (k : TileKey) :
    (Keyed.keys (Tiling.run axis safetyMargin ops).flushAll).count k ≤
      (Keyed.keys (Tiling.run axis safetyMargin (ops ++ rest)).flushAll).count k := by
  induction rest using List.reverseRecOn with
  | nil => rw [List.append_nil]
  | append_singleton rest op ih =>
      rw [← List.append_assoc, Tiling.run_snoc]
      exact ih.trans (count_flushAll_step axis (reached axis safetyMargin _).tidy op k)

omit [IsStrictOrderedRing F] in
theorem mem_written_run (axis : MercatorAxis F) (safetyMargin : F) (ops rest : List (TileOp F P))
    {k : TileKey} (hk : k ∈ Keyed.keys (Tiling.run axis safetyMargin ops).written) :
    k ∈ Keyed.keys (Tiling.run axis safetyMargin (ops ++ rest)).written := by
  induction rest using List.reverseRecOn with
  | nil => rwa [List.append_nil]
  | append_singleton rest op ih =>
      rw [← List.append_assoc, Tiling.run_snoc]
      cases op with
      | add f => exact ih
      | evict latHorizon =>
          show k ∈ Keyed.keys (_ ++ _)
          rw [Keyed.keys_append]
          exact List.mem_append_left _ ih

omit [IsStrictOrderedRing F] in
/-- A tile that is covered again after its eviction is written twice. -/
theorem polarClear_of_once {axis : MercatorAxis F} {safetyMargin : F} {ops : List (TileOp F P)}
    (h : (Keyed.keys (writtenTiles axis safetyMargin ops)).Nodup) :
    PolarClear axis safetyMargin ops := by
  intro pre latHorizon post hops f g hf hg k hkf hkg _
  by_contra hlt
  rw [not_le] at hlt
  have hopen := ((reached axis safetyMargin (pre ++ [.evict latHorizon])).seen k).mpr
    ⟨f, List.mem_append_left _ hf, hkf⟩
  have hwritten : k ∈ Keyed.keys
      (Tiling.run axis safetyMargin (pre ++ [.evict latHorizon])).written := by
    refine hopen.resolve_right fun hk => ?_
    rw [Tiling.run_snoc] at hk
    have hpre := reached axis safetyMargin pre
    have hle := (hpre.tidy.evict latHorizon).2.2.2.2 k hk
    rw [hpre.margin] at hle
    exact absurd hlt (not_lt.mpr hle)
  obtain ⟨mid, rest, rfl⟩ := List.append_of_mem hg
  have hagain : k ∈ Keyed.keys (Tiling.run axis safetyMargin
      (pre ++ [.evict latHorizon] ++ mid ++ [.add g])).accumulator.tileBuckets := by
    rw [Tiling.run_snoc]
    exact ((foldl_addToTile g (coverage axis g) (reached axis safetyMargin _).tidy).2.2.2.2 k).mpr
      (Or.inr hkg)
  have hfirst : k ∈ Keyed.keys (Tiling.run axis safetyMargin
      (pre ++ [.evict latHorizon] ++ mid ++ [.add g])).written := by
    rw [List.append_assoc _ mid]
    exact mem_written_run axis safetyMargin _ _ hwritten
  have htwice : 2 ≤ (Keyed.keys (Tiling.run axis safetyMargin
      (pre ++ [.evict latHorizon] ++ mid ++ [.add g])).flushAll).count k := by
    rw [Tiling.flushAll, Keyed.keys_append, List.count_append]
    have h₁ := List.count_pos_iff.mpr hfirst
    have h₂ := List.count_pos_iff.mpr hagain
    omega
  have hend := count_flushAll_run axis safetyMargin
    (pre ++ [.evict latHorizon] ++ mid ++ [.add g]) rest k
  have hone := List.nodup_iff_count_le_one.mp h k
  rw [hops, writtenTiles] at hone
  simp only [List.append_assoc, List.cons_append, List.nil_append] at hend htwice hone
  omega

/-- A tile that a later feature covers has not been evicted, the last row apart. -/
theorem le_horizon_of_mem_coverage {axis : MercatorAxis F} {safetyMargin radius : F}
    {f : Feature F P} {latHorizon : F} (hr : 0 ≤ radius) (hm : radius ≤ safetyMargin)
    (hcenter : f.center.lat ≤ latHorizon)
    (hradius : ∀ p ∈ f.vertices, p.lat ≤ f.center.lat + radius) {k : TileKey}
    (hk : k ∈ coverage axis f) (hlast : k.2.2 + 1 ≠ 2 ^ k.1) :
    tileSouth axis k - safetyMargin ≤ latHorizon := by
  obtain ⟨-, hlt, p, hp, hrow⟩ := row_of_mem_coverage hk
  have hsouth := tileSouth_lt hrow (by omega)
  have hlat : p.lat ≤ latHorizon + radius := by
    rcases List.mem_cons.mp hp with rfl | hp
    · linarith
    · linarith [hradius p hp]
  linarith

theorem once_of_polarClear {axis : MercatorAxis F} {safetyMargin radius : F}
    {ops : List (TileOp F P)} (hr : 0 ≤ radius) (hm : radius ≤ safetyMargin)
    (hdesc : Descending radius ops) (hclear : PolarClear axis safetyMargin ops) :
    (Keyed.keys (writtenTiles axis safetyMargin ops)).Nodup := by
  have hrun : ∀ pre, pre <+: ops →
      (Keyed.keys (Tiling.run axis safetyMargin pre).flushAll).Nodup := by
    intro pre
    induction pre using List.reverseRecOn with
    | nil => exact fun _ => List.nodup_nil
    | append_singleton pre op ih =>
        intro hprefix
        have ih := ih ((List.prefix_append pre [op]).trans hprefix)
        have hpre := reached axis safetyMargin pre
        rw [Tiling.run_snoc]
        cases op with
        | evict latHorizon =>
            exact ((flushAll_evict hpre.tidy latHorizon).map Prod.fst).nodup_iff.mpr ih
        | add g =>
            obtain ⟨htidy, -, -, -, hmem⟩ := foldl_addToTile g (coverage axis g) hpre.tidy
            rw [Tiling.flushAll, Keyed.keys_append, List.nodup_append'] at ih ⊢
            refine ⟨ih.1, htidy.nodup, fun k hw hb => ?_⟩
            rcases (hmem k).mp hb with hb | hk
            · exact ih.2.2 hw hb
            · obtain ⟨p₁, latHorizon, p₂, rfl, ⟨f, hf, hkf⟩, hlt⟩ := hpre.closed k hw
              obtain ⟨rest, hops⟩ := hprefix
              have hops : ops = p₁ ++ .evict latHorizon :: (p₂ ++ [.add g] ++ rest) := by
                rw [← hops]
                simp
              have hg : TileOp.add g ∈ p₂ ++ [.add g] ++ rest := by simp
              have hcenter := hdesc.center hops hg
              have hradius := hdesc.radius g (by rw [hops]; simp)
              refine absurd hlt (not_lt.mpr ?_)
              by_cases hlast : k.2.2 + 1 = 2 ^ k.1
              · exact hclear _ _ _ hops f g hf hg k hkf hk hlast
              · exact le_horizon_of_mem_coverage hr hm hcenter hradius hk hlast
  exact hrun ops (List.prefix_refl ops)

omit [IsStrictOrderedRing F] in
theorem WrittenOnce.of_once {axis : MercatorAxis F} {safetyMargin : F} {ops : List (TileOp F P)}
    (h : (Keyed.keys (writtenTiles axis safetyMargin ops)).Nodup) :
    WrittenOnce axis safetyMargin ops := by
  have hpairs : (pairs (writtenTiles axis safetyMargin ops)).Perm (produced axis ops) := by
    rw [writtenTiles, Tiling.flushAll, pairs_append]
    exact (reached axis safetyMargin ops).pairs
  refine ⟨h, hpairs, fun f k hfk => ?_⟩
  obtain ⟨tile, htile, hf⟩ := List.mem_flatMap.mp (hpairs.mem_iff.mpr hfk)
  obtain ⟨f', hf', heq⟩ := List.mem_map.mp hf
  obtain ⟨rfl, rfl⟩ := Prod.mk.inj heq
  refine ⟨tile, ⟨htile, rfl, hf'⟩, ?_⟩
  rintro tile' ⟨htile', hkey, -⟩
  exact List.inj_on_of_nodup_map h htile' htile hkey

/-- Every tile is written once, with all its features, exactly when no last row is
covered again after it was evicted. -/
theorem writtenOnce_iff {axis : MercatorAxis F} {safetyMargin radius : F}
    {ops : List (TileOp F P)} (hr : 0 ≤ radius) (hm : radius ≤ safetyMargin)
    (hdesc : Descending radius ops) :
    WrittenOnce axis safetyMargin ops ↔ PolarClear axis safetyMargin ops :=
  ⟨fun h => polarClear_of_once h.once,
    fun h => .of_once (once_of_polarClear hr hm hdesc h)⟩

/-- Nothing comes back as long as no horizon is far beyond the Mercator limit. -/
theorem polarClear_of_horizons {axis : MercatorAxis F} {safetyMargin : F}
    {ops : List (TileOp F P)}
    (h : ∀ latHorizon, .evict latHorizon ∈ ops → axis.toLat 1 - safetyMargin ≤ latHorizon) :
    PolarClear axis safetyMargin ops := by
  intro pre latHorizon post hops f g _ _ k _ _ hlast
  have hsouth : tileSouth axis k = axis.toLat 1 := by
    have hcast : (k.2.2 : F) + 1 = 2 ^ k.1 := by exact_mod_cast hlast
    rw [tileSouth, hcast, div_self (by positivity)]
  rw [hsouth]
  exact h latHorizon (by rw [hops]; simp)

/-! ## Two runs at zoom 0 -/

/-- An axis that agrees with the projection at the equator and at the limits. -/
def linearAxis : MercatorAxis ℚ where
  toY lat := (1 - lat / latLimit) / 2
  toLat y := latLimit * (1 - 2 * y)
  antitone lat lat' _ h _ := by
    have hpos : (0 : ℚ) < latLimit := by norm_num [latLimit]
    have := div_le_div_of_nonneg_right h hpos.le
    linarith
  toY_toLat y _ _ := by
    have hpos : (0 : ℚ) < latLimit := by norm_num [latLimit]
    field_simp
    ring
  toLat_mem y h₀ h₁ := by
    have hpos : (0 : ℚ) < latLimit := by norm_num [latLimit]
    constructor <;> nlinarith

/-- A hexagon of a tenth of a degree. -/
def hexagonAt (lat : ℚ) : Feature ℚ Unit where
  center := ⟨lat, 0⟩
  vertices := [⟨lat, 1 / 10⟩, ⟨lat + 1 / 10, 1 / 20⟩, ⟨lat + 1 / 10, -1 / 20⟩, ⟨lat, -1 / 10⟩,
    ⟨lat - 1 / 10, -1 / 20⟩, ⟨lat - 1 / 10, 1 / 20⟩]
  zoom := 0
  properties := ()
  three := by simp

/-- Two cells with an eviction at the second between them. -/
def cornerCells (lat lat' : ℚ) : List (TileOp ℚ Unit) :=
  [.add (hexagonAt lat), .evict lat', .add (hexagonAt lat')]

/-- A cell at the equator and one at the south pole, with the margin of resolution 5. -/
theorem last_row_written_twice :
    ¬ WrittenOnce linearAxis (53 / 200) (cornerCells 0 (-899 / 10)) := by
  intro h
  have honce := h.once
  have hkeys : Keyed.keys (writtenTiles linearAxis (53 / 200) (cornerCells 0 (-899 / 10))) =
      [(0, 0, 0), (0, 0, 0)] := by
    decide +kernel
  rw [hkeys] at honce
  exact absurd honce (by decide)

theorem twoCells_descending : Descending (53 / 500 : ℚ) (cornerCells 40 30) := by
  refine ⟨by simp [cornerCells, Follows, hexagonAt], ?_⟩
  intro f hf p hp
  simp only [cornerCells, List.mem_cons, TileOp.add.injEq, reduceCtorEq, List.not_mem_nil,
    or_false, false_or] at hf
  rcases hf with rfl | rfl <;>
  · simp only [hexagonAt, List.mem_cons, List.not_mem_nil, or_false] at hp ⊢
    rcases hp with rfl | rfl | rfl | rfl | rfl | rfl <;> norm_num

theorem writtenOnce_at_forty : WrittenOnce linearAxis (53 / 200) (cornerCells 40 30) := by
  refine (writtenOnce_iff (by norm_num) (by norm_num) twoCells_descending).mpr
    (polarClear_of_horizons ?_)
  intro latHorizon hmem
  have heq : latHorizon = 30 := by simpa [cornerCells] using hmem
  rw [heq]
  norm_num [linearAxis, latLimit]

end RasterH3.Pmtiles
