import RasterH3.Agg.ForeignChunks
import RasterH3.Lib.Loops

/-!
# The grid answers as a scan does

Whether a cell can have samples in another partition is asked of the chunks outside this
one: does their rectangle meet the box of the cell? There may be many of both, so the
rectangles are filed in a grid of buckets, each in all the buckets it reaches into, and a
query looks at the buckets it reaches into.

The bucket of a coordinate grows with it (`bucketOf_mono`), whatever is rounded. So two
rectangles that meet reach into a common bucket, the one of the greater of their lower ends
(`common_bucket`), and the query finds there the position that was filed. The extent of the
grid is that of the rectangles, and coordinates beyond it fall into the first or the last
bucket, so that no index leaves the grid, in building it or in asking.

A rectangle that lies beyond a pole comes out of the normalisation with its south above its
north. It reaches into no range of rows if that is taken literally, and the argument needs
it to be filed. One of its sides is then an end of the extent, and both fall into the last
row (`Normalized.sides`, `le_bucketOf_hi`).

A position is found as a word of 32 bits, so a query is answered as by a scan of the first
`2 ^ 32` rectangles (`intersects_eq`). What is assumed of doubles and their rounding is
`Rounds`: rounding is monotone, exact on small whole numbers, and leaves the difference of
two doubles positive.
-/

namespace RasterH3.Agg.ForeignChunks

variable {F : Type} [Field F] [LinearOrder F] [IsStrictOrderedRing F] [FloorRing F] {round : F → F}

/-! ## Buckets of coordinates -/

/-- What is known of rounding, and of the doubles. -/
structure Rounds (round : F → F) (double : F → Prop) : Prop where
  mono : Monotone round
  exact : ∀ k : Nat, k ≤ 512 → round k = k
  gradual : ∀ a b, double a → double b → a < b → 0 < round (b - a)

variable {double : F → Prop}

theorem bucketOf_mono (hround : Rounds round double) {lo hi : F} (hlo : double lo)
    (hhi : double hi) (n : Nat) : Monotone (bucketOf round lo hi n) := by
  intro v v' hv
  unfold bucketOf
  dsimp only
  split
  next hlt =>
      have hpos := hround.gradual lo hi hlo hhi hlt
      have hquot : round (v - lo) / round (hi - lo) ≤ round (v' - lo) / round (hi - lo) :=
        div_le_div_of_nonneg_right (hround.mono (sub_le_sub_right hv lo)) hpos.le
      have hscaled := mul_le_mul_of_nonneg_right (hround.mono hquot) (Nat.cast_nonneg (α := F) n)
      exact min_le_min_right _ (Int.toNat_le_toNat (Int.floor_mono (hround.mono hscaled)))
  next => exact le_rfl

omit [IsStrictOrderedRing F] in
theorem bucketOf_lt {lo hi v : F} {n : Nat} (hn : 0 < n) : bucketOf round lo hi n v < n := by
  have : bucketOf round lo hi n v ≤ n - 1 := min_le_right _ _
  omega

/-- The lower end of the extent falls into the first bucket. -/
theorem bucketOf_lo (hround : Rounds round double) {lo hi : F} (n : Nat) :
    bucketOf round lo hi n lo = 0 := by
  have hzero : round 0 = 0 := by exact_mod_cast hround.exact 0 (by decide)
  unfold bucketOf
  simp [hzero]

/-- The upper end falls into the last one, unless all are in the first. -/
theorem le_bucketOf_hi (hround : Rounds round double) {lo hi : F} (hlo : double lo)
    (hhi : double hi) {n : Nat} (hn : n ≤ 512) (v : F) :
    bucketOf round lo hi n v ≤ bucketOf round lo hi n hi := by
  unfold bucketOf
  dsimp only
  split
  next hlt =>
      have hpos := hround.gradual lo hi hlo hhi hlt
      have hone : round 1 = 1 := by exact_mod_cast hround.exact 1 (by decide)
      rw [div_self hpos.ne', hone, one_mul, hround.exact n hn, Int.floor_natCast, Int.toNat_natCast,
        Nat.min_eq_right (Nat.sub_le n 1)]
      exact min_le_right _ _
  next => exact le_rfl

/-! ## Normalised rectangles -/

def Normalized (r : Rect F) : Prop := ∃ w s e n, r = normalizedForeignBounds w s e n

omit [FloorRing F] in
/-- Their sides are in order, but for one that lies beyond a pole. -/
theorem Normalized.sides {r : Rect F} (h : Normalized r) : r.west ≤ r.east ∧ -90 ≤ r.south ∧
    r.north ≤ 90 ∧ (r.south ≤ r.north ∨ r.north = 90 ∨ r.south = -90) := by
  have hglobe : ∀ r : Rect F, r = ⟨-180, -90, 180, 90⟩ → r.west ≤ r.east ∧ -90 ≤ r.south ∧
      r.north ≤ 90 ∧ (r.south ≤ r.north ∨ r.north = 90 ∨ r.south = -90) := by
    rintro _ rfl
    exact ⟨by norm_num, le_rfl, le_rfl, .inr (.inl rfl)⟩
  have hclipped : ∀ s n : F, s ≤ n →
      max s (-90) ≤ min n 90 ∨ min n 90 = 90 ∨ max s (-90) = -90 := by
    intro s n hsn
    rcases le_total 90 n with hn | hn
    · exact .inr (.inl (min_eq_right hn))
    rcases le_total s (-90) with hs | hs
    · exact .inr (.inr (max_eq_right hs))
    · left
      rwa [max_eq_left hs, min_eq_left hn]
  rcases h with ⟨w, s, e, n, rfl⟩
  cases w with
  | finite w =>
      cases s with
      | finite s =>
          cases e with
          | finite e =>
              cases n with
              | finite n =>
                  rw [normalizedForeignBounds]
                  split
                  next => exact hglobe _ rfl
                  next hsn =>
                    split
                    next => exact ⟨by norm_num, le_max_right _ _, min_le_right _ _,
                      hclipped s n (not_lt.mp hsn)⟩
                    next hwe =>
                      rw [not_or] at hwe
                      exact ⟨not_lt.mp hwe.1, le_max_right _ _, min_le_right _ _,
                        hclipped s n (not_lt.mp hsn)⟩
              | infinity | negInfinity | nan => exact hglobe _ rfl
          | infinity | negInfinity | nan => exact hglobe _ rfl
      | infinity | negInfinity | nan => exact hglobe _ rfl
  | infinity | negInfinity | nan => exact hglobe _ rfl

/-! ## The extent -/

/-- The extent holds the rectangles, and its ends are theirs. -/
structure Extent (rects : List (Rect F)) (extent : Rect F) : Prop where
  west : ∀ r ∈ rects, extent.west ≤ r.west
  south : ∀ r ∈ rects, extent.south ≤ r.south
  east : ∀ r ∈ rects, r.east ≤ extent.east
  north : ∀ r ∈ rects, r.north ≤ extent.north
  west_mem : ∃ r ∈ rects, extent.west = r.west
  south_mem : ∃ r ∈ rects, extent.south = r.south
  east_mem : ∃ r ∈ rects, extent.east = r.east
  north_mem : ∃ r ∈ rects, extent.north = r.north

omit [Field F] [IsStrictOrderedRing F] [FloorRing F] in
theorem Extent.widen {rects : List (Rect F)} {extent : Rect F} (h : Extent rects extent)
    (r : Rect F) : Extent (rects ++ [r]) (widen extent r) := by
  have hall : ∀ {P : Rect F → Prop}, (∀ q ∈ rects, P q) → P r → ∀ q ∈ rects ++ [r], P q := by
    intro P hold hnew q hq
    rcases List.mem_append.mp hq with hq | hq
    · exact hold q hq
    · rwa [List.mem_singleton.mp hq]
  have hend : ∀ {f : Rect F → F} {a b : F}, (∃ q ∈ rects, a = f q) → b = a ∨ b = f r →
      ∃ q ∈ rects ++ [r], b = f q := by
    rintro f a b ⟨q, hq, rfl⟩ (rfl | rfl)
    · exact ⟨q, List.mem_append_left _ hq, rfl⟩
    · exact ⟨r, List.mem_append_right _ List.mem_cons_self, rfl⟩
  exact ⟨hall (fun q hq => (min_le_left _ _).trans (h.west q hq)) (min_le_right _ _),
    hall (fun q hq => (min_le_left _ _).trans (h.south q hq)) (min_le_right _ _),
    hall (fun q hq => (h.east q hq).trans (le_max_left _ _)) (le_max_right _ _),
    hall (fun q hq => (h.north q hq).trans (le_max_left _ _)) (le_max_right _ _),
    hend h.west_mem (min_choice _ _), hend h.south_mem (min_choice _ _),
    hend h.east_mem (max_choice _ _), hend h.north_mem (max_choice _ _)⟩

omit [Field F] [IsStrictOrderedRing F] [FloorRing F] in
theorem extentOf_spec {rects : List (Rect F)} (h : rects ≠ []) :
    ∃ extent, extentOf rects = some extent ∧ Extent rects extent := by
  obtain ⟨r, rects, rfl⟩ := List.exists_cons_of_ne_nil h
  refine ⟨_, rfl, ?_⟩
  -- the induction is on the rectangles that are still to come
  suffices hfold : ∀ seen extent, Extent seen extent →
      Extent (seen ++ rects) (rects.foldl ForeignChunks.widen extent) by
    have hone : Extent [r] r := by
      constructor <;> simp
    exact hfold [r] r hone
  clear h
  induction rects with
  | nil =>
      intro seen extent hseen
      rwa [List.append_nil]
  | cons q rects ih =>
      intro seen extent hseen
      have hnext := ih (seen ++ [q]) _ (hseen.widen q)
      rwa [List.append_assoc] at hnext

/-! ## What is filed -/

/-- A position is in a bucket. -/
def In (buckets : List (List Nat)) (k i : Nat) : Prop :=
  ∃ bucket, buckets[k]? = some bucket ∧ i ∈ bucket

theorem push_spec {buckets : List (List Nat)} {k : Nat} (h : k < buckets.length) (i : Nat) :
    ∃ buckets', push buckets k i = some buckets' ∧ buckets'.length = buckets.length ∧
      ∀ k' v, In buckets' k' v ↔ In buckets k' v ∨ (k = k' ∧ v = i % 2 ^ 32) := by
  refine ⟨_, if_pos h, List.length_modify _ _ _, fun k' v => ?_⟩
  unfold In
  rw [List.getElem?_modify]
  rcases eq_or_ne k k' with rfl | hne
  · rw [List.getElem?_eq_getElem h]
    simp [or_comm]
  · rw [or_iff_left fun hk => hne hk.1]
    simp [hne]

theorem pushes_spec {pushes : List (Nat × Nat)} {buckets : List (List Nat)}
    (h : ∀ p ∈ pushes, p.1 < buckets.length) :
    ∃ buckets', pushes.foldlM (fun buckets p => push buckets p.1 p.2) buckets = some buckets' ∧
      buckets'.length = buckets.length ∧
      ∀ k v, In buckets' k v ↔ In buckets k v ∨ ∃ p ∈ pushes, p.1 = k ∧ v = p.2 % 2 ^ 32 := by
  induction pushes generalizing buckets with
  | nil => exact ⟨buckets, rfl, rfl, by simp⟩
  | cons p pushes ih =>
      rcases push_spec (h p List.mem_cons_self) p.2 with ⟨next, hpush, hlen, hin⟩
      rcases @ih next fun q hq => (h q (List.mem_cons_of_mem p hq)).trans_eq hlen.symm with
        ⟨last, hrest, hlen', hin'⟩
      refine ⟨last, ?_, hlen'.trans hlen, fun k v => ?_⟩
      · rw [List.foldlM_cons, hpush]
        exact hrest
      · rw [hin', hin, or_assoc]
        simp only [List.mem_cons, exists_eq_or_imp]

/-- The buckets of a range, row by row. -/
def cellsOf (nx : Nat) (range : BucketRange) : List Nat :=
  (rangeInclusive range.y0 range.y1).flatMap fun y =>
    (rangeInclusive range.x0 range.x1).map fun x => y * nx + x

theorem file_eq (nx : Nat) (range : BucketRange) (i : Nat) (buckets : List (List Nat)) :
    file nx range i buckets =
      ((cellsOf nx range).map fun k => (k, i)).foldlM (fun buckets p => push buckets p.1 p.2)
        buckets := by
  simp only [file, cellsOf, List.foldlM_map, Loops.foldlM_flatMap]

theorem mem_rangeInclusive {a b x : Nat} : x ∈ rangeInclusive a b ↔ a ≤ x ∧ x ≤ b := by
  rw [rangeInclusive, List.mem_range'_1]
  omega

theorem mem_cellsOf {nx : Nat} {range : BucketRange} {k : Nat} : k ∈ cellsOf nx range ↔
    ∃ x y, range.x0 ≤ x ∧ x ≤ range.x1 ∧ range.y0 ≤ y ∧ y ≤ range.y1 ∧ k = y * nx + x := by
  rw [cellsOf, List.mem_flatMap]
  constructor
  · rintro ⟨y, hy, hk⟩
    rcases List.mem_map.mp hk with ⟨x, hx, rfl⟩
    rw [mem_rangeInclusive] at hx hy
    exact ⟨x, y, hx.1, hx.2, hy.1, hy.2, rfl⟩
  · rintro ⟨x, y, hx0, hx1, hy0, hy1, rfl⟩
    exact ⟨y, mem_rangeInclusive.mpr ⟨hy0, hy1⟩,
      List.mem_map.mpr ⟨x, mem_rangeInclusive.mpr ⟨hx0, hx1⟩, rfl⟩⟩

/-- The positions are filed in the buckets of their rectangles, cut to words, and no bucket is
outside of the grid. -/
structure Filed (round : F → F) (rects : List (Rect F)) (extent : Rect F)
    (index : ForeignChunks F) : Prop where
  rects_eq : index.rects = rects
  extent_eq : index.extent = some extent
  nx : 0 < index.nx ∧ index.nx ≤ 512
  ny : 0 < index.ny ∧ index.ny ≤ 512
  length : index.buckets.length = index.ny * index.nx
  filed : ∀ k v, In index.buckets k v ↔ ∃ i r, rects[i]? = some r ∧
    k ∈ cellsOf index.nx (bucketRange round extent index.nx index.ny r) ∧ v = i % 2 ^ 32

theorem side_pos (count : Nat) : 0 < side count ∧ side count ≤ 512 := by
  unfold side
  omega

omit [IsStrictOrderedRing F] in
theorem cellsOf_lt {nx ny : Nat} (hnx : 0 < nx) (hny : 0 < ny) (extent r : Rect F) {k : Nat}
    (h : k ∈ cellsOf nx (bucketRange round extent nx ny r)) : k < ny * nx := by
  rcases mem_cellsOf.mp h with ⟨x, y, -, hx, -, hy, rfl⟩
  have hx' : x < nx := hx.trans_lt (bucketOf_lt hnx)
  have hy' : y + 1 ≤ ny := hy.trans_lt (bucketOf_lt hny)
  calc y * nx + x < y * nx + nx := Nat.add_lt_add_left hx' _
    _ = (y + 1) * nx := (Nat.succ_mul y nx).symm
    _ ≤ ny * nx := Nat.mul_le_mul_right nx hy'

omit [IsStrictOrderedRing F] in
theorem new_spec {rects : List (Rect F)} {extent : Rect F} (h : extentOf rects = some extent) :
    ∃ index, new round rects = some index ∧ Filed round rects extent index := by
  obtain ⟨n, hn⟩ : ∃ n, n = side rects.length := ⟨_, rfl⟩
  have hside := side_pos rects.length
  rw [← hn] at hside
  let pushes := rects.zipIdx.flatMap fun p =>
    (cellsOf n (bucketRange round extent n n p.1)).map fun k => (k, p.2)
  have hinside : ∀ p ∈ pushes, p.1 < (List.replicate (n * n) ([] : List Nat)).length := by
    intro p hp
    rcases List.mem_flatMap.mp hp with ⟨q, -, hq⟩
    rcases List.mem_map.mp hq with ⟨k, hk, rfl⟩
    rw [List.length_replicate]
    exact cellsOf_lt hside.1 hside.1 extent q.1 hk
  rcases pushes_spec hinside with ⟨buckets, hfold, hlen, hin⟩
  refine ⟨⟨rects, some extent, n, n, buckets⟩, ?_, rfl, rfl, hside, hside,
    hlen.trans List.length_replicate, fun k v => ?_⟩
  · have hfile : rects.zipIdx.foldlM
        (fun buckets p => file n (bucketRange round extent n n p.1) p.2 buckets)
        (List.replicate (n * n) []) = some buckets := by
      rw [← hfold, Loops.foldlM_flatMap]
      simp only [file_eq]
    have hnew : new round rects = rects.zipIdx.foldlM
        (fun buckets p => file n (bucketRange round extent n n p.1) p.2 buckets)
        (List.replicate (n * n) []) >>= fun buckets =>
          some ⟨rects, some extent, n, n, buckets⟩ := by
      simp only [new, h, ← hn]
      rfl
    rw [hnew, hfile]
    rfl
  · rw [hin]
    have hempty : ¬ In (List.replicate (n * n) ([] : List Nat)) k v := by
      rintro ⟨bucket, hbucket, hv⟩
      rw [(List.eq_of_mem_replicate (List.mem_of_getElem? hbucket))] at hv
      cases hv
    rw [or_iff_right hempty]
    constructor
    · rintro ⟨p, hp, rfl, rfl⟩
      rcases List.mem_flatMap.mp hp with ⟨⟨r, i⟩, hr, hp⟩
      rcases List.mem_map.mp hp with ⟨k, hk, rfl⟩
      exact ⟨i, r, List.mk_mem_zipIdx_iff_getElem?.mp hr, hk, rfl⟩
    · rintro ⟨i, r, hr, hk, rfl⟩
      exact ⟨(k, i), List.mem_flatMap.mpr ⟨(r, i), List.mk_mem_zipIdx_iff_getElem?.mpr hr,
        List.mem_map.mpr ⟨k, hk, rfl⟩⟩, rfl, rfl⟩

/-! ## Queries -/

omit [Field F] [IsStrictOrderedRing F] [FloorRing F] in
theorem common_end {f : F → Nat} (hf : Monotone f) {q₀ q₁ r₀ r₁ : F} (hq : q₀ ≤ q₁)
    (hr : f r₀ ≤ f r₁) (h : q₀ ≤ r₁ ∧ r₀ ≤ q₁) :
    ∃ x, (f q₀ ≤ x ∧ x ≤ f q₁) ∧ f r₀ ≤ x ∧ x ≤ f r₁ :=
  ⟨max (f q₀) (f r₀), ⟨le_max_left _ _, max_le (hf hq) (hf h.2)⟩, le_max_right _ _,
    max_le (hf h.1) hr⟩

/-- A query that meets a rectangle reaches into one of its buckets. -/
theorem common_bucket (hround : Rounds round double) {rects : List (Rect F)} {extent r q : Rect F}
    (hextent : Extent rects extent) (hnormal : ∀ r ∈ rects, Normalized r)
    (hdouble : ∀ r ∈ rects, double r.west ∧ double r.south ∧ double r.east ∧ double r.north)
    {nx ny : Nat} (hny : ny ≤ 512) (hr : r ∈ rects)
    (hq : q.west ≤ q.east ∧ q.south ≤ q.north) (hmeets : rectsIntersect q r = true) :
    ∃ k, k ∈ cellsOf nx (bucketRange round extent nx ny q) ∧
      k ∈ cellsOf nx (bucketRange round extent nx ny r) := by
  have hmeets := of_decide_eq_true hmeets
  have hwest : double extent.west := by
    rcases hextent.west_mem with ⟨p, hp, heq⟩
    rw [heq]
    exact (hdouble p hp).1
  have hsouth : double extent.south := by
    rcases hextent.south_mem with ⟨p, hp, heq⟩
    rw [heq]
    exact (hdouble p hp).2.1
  have heast : double extent.east := by
    rcases hextent.east_mem with ⟨p, hp, heq⟩
    rw [heq]
    exact (hdouble p hp).2.2.1
  have hnorth : double extent.north := by
    rcases hextent.north_mem with ⟨p, hp, heq⟩
    rw [heq]
    exact (hdouble p hp).2.2.2
  have hx := bucketOf_mono hround hwest heast nx
  have hy := bucketOf_mono hround hsouth hnorth ny
  rcases (hnormal r hr).sides with ⟨hordered, -, -, hlats⟩
  have hrows : bucketOf round extent.south extent.north ny r.south ≤
      bucketOf round extent.south extent.north ny r.north := by
    rcases hlats with hle | hpole | hpole
    · exact hy hle
    · -- no other rectangle reaches further north
      have htop : extent.north = 90 := by
        refine le_antisymm ?_ (hpole ▸ hextent.north r hr)
        rcases hextent.north_mem with ⟨p, hp, heq⟩
        exact heq.trans_le (hnormal p hp).sides.2.2.1
      rw [hpole, ← htop]
      exact le_bucketOf_hi hround hsouth hnorth hny r.south
    · have hbottom : extent.south = -90 := by
        refine le_antisymm (hpole ▸ hextent.south r hr) ?_
        rcases hextent.south_mem with ⟨p, hp, heq⟩
        exact (hnormal p hp).sides.2.1.trans_eq heq.symm
      rw [hpole, ← hbottom, bucketOf_lo hround]
      exact Nat.zero_le _
  rcases common_end hx hq.1 (hx hordered) ⟨hmeets.1, hmeets.2.1⟩ with ⟨x, hqx, hrx⟩
  rcases common_end hy hq.2 hrows hmeets.2.2 with ⟨y, hqy, hry⟩
  exact ⟨y * nx + x, mem_cellsOf.mpr ⟨x, y, hqx.1, hqx.2, hqy.1, hqy.2, rfl⟩,
    mem_cellsOf.mpr ⟨x, y, hrx.1, hrx.2, hry.1, hry.2, rfl⟩⟩

def answers (rects : List (Rect F)) (index : ForeignChunks F) (q : Rect F) (k : Nat) : Bool :=
  (index.buckets.getD k []).any fun i => (rects[i]?).any (rectsIntersect q)

omit [IsStrictOrderedRing F] in
theorem meetsBucket_eq {rects : List (Rect F)} {extent : Rect F} {index : ForeignChunks F}
    (h : Filed round rects extent index) (q : Rect F) {k : Nat} (hk : k < index.ny * index.nx) :
    index.meetsBucket q k = some (answers rects index q k) := by
  obtain ⟨bucket, hbucket⟩ : ∃ bucket, index.buckets[k]? = some bucket :=
    ⟨_, List.getElem?_eq_getElem (hk.trans_eq h.length.symm)⟩
  rw [meetsBucket, answers, hbucket, List.getD_eq_getElem?_getD, hbucket, h.rects_eq]
  refine Loops.anyM_some fun i hi => ?_
  rcases (h.filed k i).mp ⟨bucket, hbucket, hi⟩ with ⟨j, r, hj, -, rfl⟩
  have hlt : j % 2 ^ 32 < rects.length :=
    (Nat.mod_le _ _).trans_lt (List.getElem?_eq_some_iff.mp hj).1
  rw [List.getElem?_eq_getElem hlt]
  rfl

omit [IsStrictOrderedRing F] in
theorem answers_iff {rects : List (Rect F)} {extent : Rect F} {index : ForeignChunks F}
    (h : Filed round rects extent index) {q : Rect F} {k : Nat} :
    answers rects index q k = true ↔ ∃ i r r', rects[i]? = some r ∧
      k ∈ cellsOf index.nx (bucketRange round extent index.nx index.ny r) ∧
      rects[i % 2 ^ 32]? = some r' ∧ rectsIntersect q r' = true := by
  rw [answers, List.any_eq_true]
  constructor
  · rintro ⟨v, hv, hmeets⟩
    rw [List.getD_eq_getElem?_getD] at hv
    cases hbucket : index.buckets[k]? with
    | none =>
        rw [hbucket] at hv
        cases hv
    | some bucket =>
        rw [hbucket] at hv
        rcases (h.filed k v).mp ⟨bucket, hbucket, hv⟩ with ⟨i, r, hi, hk, rfl⟩
        cases hr' : rects[i % 2 ^ 32]? with
        | none =>
            rw [hr'] at hmeets
            cases hmeets
        | some r' =>
            rw [hr'] at hmeets
            exact ⟨i, r, r', hi, hk, hr', hmeets⟩
  · rintro ⟨i, r, r', hi, hk, hr', hmeets⟩
    rcases (h.filed k _).mpr ⟨i, r, hi, hk, rfl⟩ with ⟨bucket, hbucket, hv⟩
    refine ⟨i % 2 ^ 32, ?_, ?_⟩
    · rw [List.getD_eq_getElem?_getD, hbucket]
      exact hv
    · rw [hr']
      exact hmeets

theorem mem_take_iff {A : Type} {l : List A} {n : Nat} {a : A} :
    a ∈ l.take n ↔ ∃ i < n, l[i]? = some a := by
  rw [List.mem_iff_getElem?]
  simp only [List.getElem?_take, Option.ite_none_right_eq_some]

/-- Everything that is assumed of the rectangles. -/
structure Rects (double : F → Prop) (rects : List (Rect F)) : Prop where
  normalized : ∀ r ∈ rects, Normalized r
  doubles : ∀ r ∈ rects, double r.west ∧ double r.south ∧ double r.east ∧ double r.north

/-- A query is answered as by a scan of the rectangles whose positions are words. -/
theorem intersects_eq (hround : Rounds round double) {rects : List (Rect F)}
    (hrects : Rects double rects) {extent : Rect F} (hextent : Extent rects extent)
    {index : ForeignChunks F} (h : Filed round rects extent index) {q : Rect F}
    (hq : q.west ≤ q.east ∧ q.south ≤ q.north) :
    index.intersects round q = some ((rects.take (2 ^ 32)).any (rectsIntersect q)) := by
  rw [intersects, h.extent_eq]
  dsimp only
  by_cases hmeets : rectsIntersect q extent = true
  · rw [hmeets]
    have hrow : ∀ y ∈ rangeInclusive (bucketRange round extent index.nx index.ny q).y0
          (bucketRange round extent index.nx index.ny q).y1,
        ((rangeInclusive (bucketRange round extent index.nx index.ny q).x0
          (bucketRange round extent index.nx index.ny q).x1).anyM fun x =>
            index.meetsBucket q (y * index.nx + x)) =
          some ((rangeInclusive (bucketRange round extent index.nx index.ny q).x0
            (bucketRange round extent index.nx index.ny q).x1).any fun x =>
              answers rects index q (y * index.nx + x)) := by
      intro y hy
      refine Loops.anyM_some fun x hx => meetsBucket_eq h q ?_
      rw [mem_rangeInclusive] at hx hy
      exact cellsOf_lt h.nx.1 h.ny.1 extent q
        (mem_cellsOf.mpr ⟨x, y, hx.1, hx.2, hy.1, hy.2, rfl⟩)
    refine (Loops.anyM_some hrow).trans (congrArg some ?_)
    rw [Bool.eq_iff_iff, List.any_eq_true, List.any_eq_true]
    constructor
    · rintro ⟨y, -, hy⟩
      rcases List.any_eq_true.mp hy with ⟨x, -, hanswers⟩
      rcases (answers_iff h).mp hanswers with ⟨i, r, r', -, -, hr', hmeets⟩
      exact ⟨r', mem_take_iff.mpr ⟨i % 2 ^ 32, Nat.mod_lt _ (by decide), hr'⟩, hmeets⟩
    · rintro ⟨r, hr, hmeets⟩
      rcases mem_take_iff.mp hr with ⟨i, hi, hr⟩
      rcases common_bucket hround hextent hrects.normalized hrects.doubles h.ny.2
        (List.mem_of_getElem? hr) hq hmeets with ⟨k, hkq, hkr⟩
      rcases mem_cellsOf.mp hkq with ⟨x, y, hx0, hx1, hy0, hy1, rfl⟩
      refine ⟨y, mem_rangeInclusive.mpr ⟨hy0, hy1⟩, List.any_eq_true.mpr
        ⟨x, mem_rangeInclusive.mpr ⟨hx0, hx1⟩, (answers_iff h).mpr ⟨i, r, r, hr, hkr, ?_, hmeets⟩⟩⟩
      rwa [Nat.mod_eq_of_lt hi]
  · rw [Bool.not_eq_true] at hmeets
    rw [hmeets]
    refine congrArg some (Eq.symm ?_)
    rw [List.any_eq_false]
    intro r hr hr'
    have hle := of_decide_eq_true hr'
    have hmem := List.mem_of_mem_take hr
    refine of_decide_eq_false hmeets ⟨hle.1.trans (hextent.east r hmem),
      (hextent.west r hmem).trans hle.2.1, hle.2.2.1.trans (hextent.north r hmem),
      (hextent.south r hmem).trans hle.2.2.2⟩

/-- The grid is built without leaving it, and a query does not leave it either. -/
theorem query_eq (hround : Rounds round double) {rects : List (Rect F)}
    (hrects : Rects double rects) {q : Rect F} (hq : q.west ≤ q.east ∧ q.south ≤ q.north) :
    ∃ index, new round rects = some index ∧
      index.intersects round q = some ((rects.take (2 ^ 32)).any (rectsIntersect q)) := by
  by_cases hne : rects = []
  · subst hne
    exact ⟨⟨[], none, 1, 1, [[]]⟩, rfl, rfl⟩
  · rcases extentOf_spec hne with ⟨extent, hextentOf, hextent⟩
    rcases @new_spec _ _ _ _ round _ _ hextentOf with ⟨index, hnew, hfiled⟩
    exact ⟨index, hnew, intersects_eq hround hrects hextent hfiled hq⟩

/-- It agrees with a scan just if a query that meets a rectangle meets one of the first
`2 ^ 32`. -/
theorem intersects_iff_scan (hround : Rounds round double) {rects : List (Rect F)}
    (hrects : Rects double rects) {q : Rect F} (hq : q.west ≤ q.east ∧ q.south ≤ q.north) :
    (∃ index, new round rects = some index ∧
      index.intersects round q = some (rects.any (rectsIntersect q))) ↔
    (rects.any (rectsIntersect q) = true →
      (rects.take (2 ^ 32)).any (rectsIntersect q) = true) := by
  rcases query_eq hround hrects hq with ⟨index, hnew, hquery⟩
  constructor
  · rintro ⟨index', hnew', hscan⟩ hmeets
    obtain rfl := Option.some.inj (hnew.symm.trans hnew')
    rw [← Option.some.inj (hscan.symm.trans hquery)]
    exact hmeets
  · intro hfirst
    refine ⟨index, hnew, hquery.trans (congrArg some (Bool.eq_iff_iff.mpr ⟨fun h => ?_, hfirst⟩))⟩
    rcases List.any_eq_true.mp h with ⟨r, hr, hmeets⟩
    exact List.any_eq_true.mpr ⟨r, List.mem_of_mem_take hr, hmeets⟩

theorem rounds_id : Rounds (id : ℚ → ℚ) fun _ => True :=
  ⟨monotone_id, fun _ _ => rfl, fun _ _ _ _ h => sub_pos.mpr h⟩

/-- A rectangle inside of the globe is its own normalisation. -/
theorem normalized_of_inside {r : Rect ℚ} (hlng : -180 ≤ r.west ∧ r.west ≤ r.east ∧ r.east ≤ 180)
    (hlat : -90 ≤ r.south ∧ r.south ≤ r.north ∧ r.north ≤ 90) : Normalized r := by
  refine ⟨.finite r.west, .finite r.south, .finite r.east, .finite r.north, ?_⟩
  have hbox : ¬(r.east < r.west ∨ r.west < -180 ∨ 180 < r.east) := by
    rintro (h | h | h)
    · exact absurd hlng.2.1 (not_le.mpr h)
    · exact absurd hlng.1 (not_le.mpr h)
    · exact absurd hlng.2.2 (not_le.mpr h)
  rw [normalizedForeignBounds, if_neg (not_lt.mpr hlat.2.1), if_neg hbox, max_eq_left hlat.1,
    min_eq_left hlat.2.2]

/-- Two rectangles and a query in the corner of one. -/
theorem intersects_iff_scan_corner : ∃ index,
    new id [(⟨0, 0, 1, 1⟩ : Rect ℚ), ⟨2, 2, 3, 3⟩] = some index ∧
      index.intersects id ⟨3, 3, 3, 3⟩ =
        some ([(⟨0, 0, 1, 1⟩ : Rect ℚ), ⟨2, 2, 3, 3⟩].any (rectsIntersect ⟨3, 3, 3, 3⟩)) := by
  have hrects : Rects (fun _ => True) [(⟨0, 0, 1, 1⟩ : Rect ℚ), ⟨2, 2, 3, 3⟩] := by
    refine ⟨fun r hr => ?_, fun _ _ => ⟨trivial, trivial, trivial, trivial⟩⟩
    rcases List.mem_pair.mp hr with rfl | rfl <;>
      exact normalized_of_inside (by norm_num) (by norm_num)
  exact (intersects_iff_scan rounds_id hrects ⟨le_rfl, le_rfl⟩).mpr id

/-- A query that meets only what comes after the first `2 ^ 32` is answered with no. -/
theorem missed_of_late {first : List (Rect ℚ)} {late q : Rect ℚ} (hlen : first.length = 2 ^ 32)
    (hrects : Rects (fun _ => True) (first ++ [late])) (hq : q.west ≤ q.east ∧ q.south ≤ q.north)
    (hfirst : ∀ r ∈ first, rectsIntersect q r = false) (hlate : rectsIntersect q late = true) :
    ¬ ∃ index, new id (first ++ [late]) = some index ∧
      index.intersects id q = some ((first ++ [late]).any (rectsIntersect q)) := by
  rintro ⟨index, hnew, hscan⟩
  rcases query_eq rounds_id hrects hq with ⟨index', hnew', hquery⟩
  obtain rfl := Option.some.inj (hnew.symm.trans hnew')
  rw [List.take_left' hlen, List.any_eq_false.mpr fun r hr => by simp [hfirst r hr]] at hquery
  have hmeets : (first ++ [late]).any (rectsIntersect q) = true :=
    List.any_eq_true.mpr ⟨late, List.mem_append_right _ List.mem_cons_self, hlate⟩
  rw [hmeets] at hscan
  cases hscan.symm.trans hquery

theorem late_rectangle_missed : ¬ ∃ index,
    new id (List.replicate (2 ^ 32) (⟨0, 0, 0, 0⟩ : Rect ℚ) ++ [(⟨1, 1, 1, 1⟩ : Rect ℚ)]) =
        some index ∧
      index.intersects id ⟨1, 1, 1, 1⟩ =
        some ((List.replicate (2 ^ 32) (⟨0, 0, 0, 0⟩ : Rect ℚ) ++ [(⟨1, 1, 1, 1⟩ : Rect ℚ)]).any
          (rectsIntersect ⟨1, 1, 1, 1⟩)) := by
  have hrects : ∀ n, Rects (fun _ => True)
      (List.replicate n (⟨0, 0, 0, 0⟩ : Rect ℚ) ++ [(⟨1, 1, 1, 1⟩ : Rect ℚ)]) := by
    refine fun n => ⟨fun r hr => ?_, fun _ _ => ⟨trivial, trivial, trivial, trivial⟩⟩
    rcases List.mem_append.mp hr with hr | hr
    · rw [List.eq_of_mem_replicate hr]
      exact normalized_of_inside (by norm_num) (by norm_num)
    · rw [List.mem_singleton.mp hr]
      exact normalized_of_inside (by norm_num) (by norm_num)
  have hfirst : ∀ n, ∀ r ∈ List.replicate n (⟨0, 0, 0, 0⟩ : Rect ℚ),
      rectsIntersect ⟨1, 1, 1, 1⟩ r = false := by
    intro n r hr
    rw [List.eq_of_mem_replicate hr]
    decide +kernel
  exact missed_of_late List.length_replicate (hrects _) ⟨le_rfl, le_rfl⟩ (hfirst _)
    (by decide +kernel)

end RasterH3.Agg.ForeignChunks
