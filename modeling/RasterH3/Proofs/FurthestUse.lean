import RasterH3.Raster.DecoderCache
import RasterH3.Lib.Loops

/-!
# The tile that is needed furthest in the future

A worker keeps some decoders open. When it needs one more and has no place left, it gives up
the one whose tile is needed last among its coming jobs, which it reads off a list computed
beforehand: for each job, the next job with the same tile.

The list is computed from behind, and says what it should by an induction in that direction
(`nextTileUses_spec`). A cache entry, however, was last touched at some job in the past, and
its next use may have gone by: jobs are shared among workers, and another worker may have
had it. So what has to be known of an entry is that its next use is the first job of its
tile after some job not later than the current one (`Cached`). Such a position is either
behind the current job, and then it is the first one behind it, or the list of next uses
leads from it to a later position of the same tile. So the loop comes to the first job
behind the current one in at most as many rounds as there are jobs, and stays inside the
list (`catchUp_spec`).

Once all entries have caught up, the largest next use is that of the tile needed furthest in
the future, and no further use at all counts as the largest (`furthest_spec`). A request is
a hit, or a miss with room, or a miss that gives up an entry, and each keeps `Cached`. If
the decoder does not open, the entry that was given up is gone all the same.
-/

namespace RasterH3.Raster

/-- The first job of a tile from a position on, or none. -/
structure NextFrom (tiles : List Nat) (start tile : Nat) (use : NextUse) : Prop where
  job : ∀ i : Nat, use = i → start ≤ i ∧ tiles[i]? = some tile
  first : ∀ i : Nat, start ≤ i → tiles[i]? = some tile → use ≤ i

section NextFrom

variable {tiles : List Nat} {start tile : Nat} {use use' : NextUse}

theorem NextFrom.unique (h : NextFrom tiles start tile use) (h' : NextFrom tiles start tile use') :
    use = use' := by
  have hle : ∀ {u v}, NextFrom tiles start tile u → NextFrom tiles start tile v → u ≤ v := by
    intro u v hu hv
    cases v using WithTop.recTopCoe with
    | top => exact le_top
    | coe i =>
        rcases hv.job i rfl with ⟨hi, htile⟩
        exact hu.first i hi htile
  exact le_antisymm (hle h h') (hle h' h)

/-- The first job is the first from any position up to it. -/
theorem NextFrom.later (h : NextFrom tiles start tile use) {start' : Nat} (hle : start ≤ start')
    (huse : (start' : NextUse) ≤ use) : NextFrom tiles start' tile use where
  job i hi := ⟨WithTop.coe_le_coe.mp (huse.trans_eq hi), (h.job i hi).2⟩
  first i hi := h.first i (hle.trans hi)

theorem NextFrom.skip (h : NextFrom tiles (start + 1) tile use) (hne : tiles[start]? ≠ some tile) :
    NextFrom tiles start tile use where
  job i hi := ⟨(Nat.le_succ start).trans (h.job i hi).1, (h.job i hi).2⟩
  first i hi htile := by
    rcases Nat.eq_or_lt_of_le hi with rfl | hlt
    · exact absurd htile hne
    · exact h.first i hlt htile

theorem NextFrom.here (h : tiles[start]? = some tile) : NextFrom tiles start tile start where
  job i hi := by
    obtain rfl := WithTop.coe_inj.mp hi
    exact ⟨le_rfl, h⟩
  first i hi _ := WithTop.coe_le_coe.mpr hi

theorem NextFrom.none (h : tiles.length ≤ start) : NextFrom tiles start tile ⊤ where
  job i hi := absurd hi (WithTop.top_ne_coe)
  first i hi htile := by
    have := (List.getElem?_eq_some_iff.mp htile).1
    omega

end NextFrom

/-! ## The list of next uses -/

section NextUses

variable {tileCount : Nat}

theorem nextTileUsesFrom_spec {done rest : List Nat} (h : ∀ t ∈ rest, t < tileCount) :
    (nextTileUsesFrom tileCount rest done.length).1.length = rest.length ∧
      (∀ i t, rest[i]? = some t →
        ∃ use, (nextTileUsesFrom tileCount rest done.length).1[i]? = some use ∧
          NextFrom (done ++ rest) (done.length + i + 1) t use) ∧
      ∀ t < tileCount, ∃ use, (nextTileUsesFrom tileCount rest done.length).2[t]? = some use ∧
        NextFrom (done ++ rest) done.length t use := by
  induction rest generalizing done with
  | nil =>
      refine ⟨rfl, fun i t hi => by simp at hi, fun t ht => ⟨⊤, ?_, NextFrom.none (by simp)⟩⟩
      simp [nextTileUsesFrom, ht]
  | cons tile rest ih =>
      rcases @ih (done ++ [tile]) fun t ht => h t (List.mem_cons_of_mem tile ht) with
        ⟨hlen, huses, htiles⟩
      rw [List.length_append, List.length_singleton] at hlen huses htiles
      rw [List.append_assoc, List.singleton_append] at huses htiles
      have hhere : (done ++ tile :: rest)[done.length]? = some tile := by simp
      refine ⟨by simp [nextTileUsesFrom, hlen], fun i t hi => ?_, fun t ht => ?_⟩
      · cases i with
        | zero =>
            cases hi
            rcases htiles tile (h tile List.mem_cons_self) with ⟨use, huse, hnext⟩
            refine ⟨use, ?_, hnext⟩
            simp [nextTileUsesFrom, huse]
        | succ i =>
            rcases huses i t hi with ⟨use, huse, hnext⟩
            refine ⟨use, huse, ?_⟩
            rwa [Nat.add_assoc done.length, Nat.add_comm 1 i] at hnext
      · rcases htiles t ht with ⟨use, huse, hnext⟩
        rcases eq_or_ne t tile with rfl | hne
        · refine ⟨(done.length : NextUse), ?_, NextFrom.here hhere⟩
          have hlt := (List.getElem?_eq_some_iff.mp huse).1
          simp [nextTileUsesFrom, hlt]
        · refine ⟨use, ?_, hnext.skip ?_⟩
          · simp [nextTileUsesFrom, List.getElem?_set_ne (Ne.symm hne), huse]
          · rw [hhere]
            exact fun heq => hne (Option.some.inj heq).symm

/-- Each job's next use is the next job with its tile. -/
theorem nextTileUses_spec {tiles : List Nat} (h : ∀ t ∈ tiles, t < tileCount) {i t : Nat}
    (hi : tiles[i]? = some t) : ∃ use, (nextTileUses tiles tileCount)[i]? = some use ∧
      NextFrom tiles (i + 1) t use := by
  rcases (@nextTileUsesFrom_spec tileCount [] tiles h).2.1 i t hi with ⟨use, huse, hnext⟩
  refine ⟨use, huse, ?_⟩
  rwa [List.length_nil, Nat.zero_add] at hnext

end NextUses

namespace DecoderCache

/-! ## Catching up -/

section CatchUp

variable {tiles : List Nat} {nextUses : List NextUse}

/-- What the list of next uses says. -/
def Links (tiles : List Nat) (nextUses : List NextUse) : Prop :=
  ∀ i t, tiles[i]? = some t → ∃ use, nextUses[i]? = some use ∧ NextFrom tiles (i + 1) t use

/-- The loop comes to the first job after the current one, and does not leave the list. -/
theorem catchUp_spec (hlinks : Links tiles nextUses) {jobId start tile rounds : Nat} {use : NextUse}
    (h : NextFrom tiles start tile use) (hstart : start ≤ jobId + 1)
    (hrounds : ∀ i : Nat, use = i → jobId < i + rounds) :
    ∃ use', catchUp nextUses jobId rounds use = .ok use' ∧
      NextFrom tiles (jobId + 1) tile use' := by
  induction rounds generalizing start use with
  | zero =>
      have hbehind : ((jobId + 1 : Nat) : NextUse) ≤ use := by
        cases use using WithTop.recTopCoe with
        | top => exact le_top
        | coe i => exact WithTop.coe_le_coe.mpr (hrounds i rfl)
      refine ⟨use, ?_, h.later hstart hbehind⟩
      rw [catchUp, if_neg]
      intro hle
      exact Nat.not_succ_le_self jobId (WithTop.coe_le_coe.mp (hbehind.trans hle))
  | succ rounds ih =>
      cases use using WithTop.recTopCoe with
      | top => exact ⟨⊤, rfl, h.later hstart le_top⟩
      | coe i =>
          rcases h.job i rfl with ⟨-, htile⟩
          by_cases hi : i ≤ jobId
          · rcases hlinks i tile htile with ⟨use, huse, hnext⟩
            have hlater : ∀ k : Nat, use = k → jobId < k + rounds := by
              intro k hk
              have := (hnext.job k hk).1
              have := hrounds i rfl
              omega
            rcases ih hnext (Nat.succ_le_succ hi) hlater with ⟨use', hrun, hspec⟩
            refine ⟨use', ?_, hspec⟩
            show (if i ≤ jobId then _ else _) = _
            rw [if_pos hi, huse]
            exact hrun
          · have hbehind : jobId + 1 ≤ i := by omega
            refine ⟨(i : NextUse), ?_, h.later hstart (WithTop.coe_le_coe.mpr hbehind)⟩
            show (if i ≤ jobId then _ else _) = _
            rw [if_neg hi]
            rfl

end CatchUp

/-! ## Making room -/

section Evict

variable {T : Type}

theorem furthestFrom_spec {before entries : List (CacheEntry T)} {best : Nat} {e : CacheEntry T}
    (hbest : (before ++ entries)[best]? = some e) (hmost : ∀ e' ∈ before, e'.nextUse ≤ e.nextUse) :
    ∃ victim,
      (before ++ entries)[furthestFrom entries before.length best e.nextUse]? = some victim ∧
      ∀ e' ∈ before ++ entries, e'.nextUse ≤ victim.nextUse := by
  induction entries generalizing before best e with
  | nil =>
      refine ⟨e, hbest, ?_⟩
      rwa [List.append_nil]
  | cons x entries ih =>
      have hsplit : before ++ x :: entries = (before ++ [x]) ++ entries := by simp
      have hlen : (before ++ [x]).length = before.length + 1 := List.length_append
      rw [furthestFrom]
      split
      next hle =>
          have hx : ((before ++ [x]) ++ entries)[before.length]? = some x := by simp
          rw [hsplit, ← hlen]
          refine ih hx fun e' he' => ?_
          rcases List.mem_append.mp he' with he' | he'
          · exact (hmost e' he').trans hle
          · rw [List.mem_singleton.mp he']
      next hgt =>
          rw [hsplit] at hbest ⊢
          rw [← hlen]
          refine ih hbest fun e' he' => ?_
          rcases List.mem_append.mp he' with he' | he'
          · exact hmost e' he'
          · rw [List.mem_singleton.mp he']
            exact (not_le.mp hgt).le

theorem furthest_spec {entries : List (CacheEntry T)} (h : entries ≠ []) :
    ∃ pos victim, furthest entries = some pos ∧ entries[pos]? = some victim ∧
      ∀ e ∈ entries, e.nextUse ≤ victim.nextUse := by
  cases entries with
  | nil => exact absurd rfl h
  | cons e entries =>
      have hfirst : ([e] ++ entries)[0]? = some e := rfl
      have hmost : ∀ e' ∈ [e], e'.nextUse ≤ e.nextUse := by simp
      rcases furthestFrom_spec hfirst hmost with ⟨victim, hvictim, hle⟩
      exact ⟨_, victim, rfl, hvictim, hle⟩

theorem swapRemove_concat {A : Type} (init : List A) (last : A) (i : Nat) :
    swapRemove (init ++ [last]) i = ((init ++ [last]).set i last).dropLast := by
  rw [swapRemove, List.getLast?_concat]

theorem swapRemove_perm {A : Type} {l : List A} {i : Nat} {x : A} (h : l[i]? = some x) :
    (x :: swapRemove l i).Perm l := by
  rcases List.eq_nil_or_concat l with rfl | ⟨init, last, hl⟩
  · cases h
  rw [List.concat_eq_append] at hl
  subst hl
  rw [swapRemove_concat]
  rcases lt_or_ge i init.length with hi | hi
  · rw [List.getElem?_append_left hi] at h
    obtain ⟨a, b, rfl, rfl⟩ : ∃ a b, init = a ++ x :: b ∧ a.length = i := by
      refine ⟨init.take i, init.drop (i + 1), ?_, List.length_take_of_le hi.le⟩
      rw [← (List.getElem?_eq_some_iff.mp h).2, List.getElem_cons_drop, List.take_append_drop]
    have hset : (a ++ x :: b ++ [last]).set a.length last = a ++ last :: b ++ [last] := by simp
    rw [hset, List.dropLast_concat]
    calc (x :: (a ++ last :: b)).Perm (x :: last :: (a ++ b)) := List.perm_middle.cons x
      _ |>.Perm (last :: x :: (a ++ b)) := List.Perm.swap ..
      _ |>.Perm (last :: (a ++ x :: b)) := List.perm_middle.symm.cons last
      _ |>.Perm (a ++ x :: b ++ [last]) := (List.perm_append_singleton last _).symm
  · have hlast : i = init.length := by
      have := (List.getElem?_eq_some_iff.mp h).1
      rw [List.length_append, List.length_singleton] at this
      omega
    subst hlast
    obtain rfl : last = x := by simpa using h
    rw [List.set_append_right _ _ le_rfl, Nat.sub_self, List.set_cons_zero, List.dropLast_concat]
    exact (List.perm_append_singleton last init).symm

def held (entries : List (CacheEntry T)) : List (Nat × T) := entries.map fun e => (e.tile, e.value)

/-- The next uses stored are those of jobs not later than the current one. -/
def Predicted (tiles : List Nat) (next : Nat) (e : CacheEntry T) : Prop :=
  ∃ start ≤ next, NextFrom tiles start e.tile e.nextUse

variable {tiles : List Nat} {cache : DecoderCache T} {rounds jobId : Nat}

theorem caughtUp_spec (hlinks : Links tiles cache.nextUses) (hrounds : jobId < rounds)
    (h : ∀ e ∈ cache.entries, Predicted tiles (jobId + 1) e) :
    ∃ entries, cache.caughtUp rounds jobId = .ok entries ∧ held entries = held cache.entries ∧
      ∀ e ∈ entries, NextFrom tiles (jobId + 1) e.tile e.nextUse := by
  have hentry : ∀ e ∈ cache.entries, ∃ e', (catchUp cache.nextUses jobId rounds e.nextUse).map
      (fun u => { e with nextUse := u }) = .ok e' ∧
      ((e.tile, e.value) = (e'.tile, e'.value) ∧
        NextFrom tiles (jobId + 1) e'.tile e'.nextUse) := by
    intro e he
    rcases h e he with ⟨start, hstart, hnext⟩
    rcases catchUp_spec hlinks hnext hstart fun i _ => Nat.lt_add_left i hrounds with
      ⟨use, hrun, hspec⟩
    exact ⟨{ e with nextUse := use }, by rw [hrun]; rfl, rfl, hspec⟩
  rcases Loops.mapM_ok_of_forall hentry with ⟨entries, hrun, hpairs⟩
  have hflip : List.Forall₂ (fun e' e : CacheEntry T =>
      NextFrom tiles (jobId + 1) e'.tile e'.nextUse ∧ (e'.tile, e'.value) = (e.tile, e.value))
      entries cache.entries :=
    List.Forall₂.flip (hpairs.imp fun _ _ h => ⟨h.2, h.1.symm⟩)
  rcases (List.forall₂_and_left _ _).mp hflip with ⟨hnext, hheld⟩
  refine ⟨entries, hrun, ?_, hnext⟩
  have hmaps : List.Forall₂ Eq (held entries) (held cache.entries) := by
    rwa [held, held, List.forall₂_map_left_iff, List.forall₂_map_right_iff]
  rwa [List.forall₂_eq_eq_eq] at hmaps

/-- What is given up was needed furthest in the future of all that was held. -/
theorem evicted_spec (hlinks : Links tiles cache.nextUses) (hrounds : jobId < rounds)
    (hne : cache.entries ≠ []) (h : ∀ e ∈ cache.entries, Predicted tiles (jobId + 1) e) :
    ∃ kept victim use, cache.evicted rounds jobId = .ok kept ∧
      (victim :: held kept).Perm (held cache.entries) ∧
      (∀ e ∈ kept, Predicted tiles (jobId + 1) e) ∧
      NextFrom tiles (jobId + 1) victim.1 use ∧
      ∀ p ∈ held cache.entries, ∀ use', NextFrom tiles (jobId + 1) p.1 use' → use' ≤ use := by
  rcases caughtUp_spec hlinks hrounds h with ⟨entries, hrun, hheld, hnext⟩
  have hentries : entries ≠ [] := by
    rintro rfl
    exact hne (List.map_eq_nil_iff.mp hheld.symm)
  rcases furthest_spec hentries with ⟨pos, victim, hpos, hvictim, hle⟩
  have hperm := swapRemove_perm hvictim
  refine ⟨swapRemove entries pos, (victim.tile, victim.value), victim.nextUse, ?_, ?_,
    fun e he => ?_, hnext victim (List.mem_of_getElem? hvictim), fun p hp use' huse' => ?_⟩
  · simp only [evicted, hrun, bind, Except.bind, hpos]
    rfl
  · rw [← hheld]
    exact hperm.map fun e => (e.tile, e.value)
  · exact ⟨jobId + 1, le_rfl, hnext e (hperm.subset (List.mem_cons_of_mem victim he))⟩
  · rw [← hheld] at hp
    rcases List.mem_map.mp hp with ⟨e, he, rfl⟩
    rw [huse'.unique (hnext e he)]
    exact hle e he

end Evict

/-! ## Requests -/

section Request

variable {T E : Type} {tiles : List Nat} {tileCount capacity rounds : Nat} {IsFor : Nat → T → Prop}

/-- What a request does to what is held. -/
inductive Served (tiles : List Nat) (cache : DecoderCache T) (jobId key : Nat) (opened : Except E T)
    (cache' : DecoderCache T) : Except E T → Prop
  | hit {value : T} (open_ : (key, value) ∈ held cache.entries)
      (same : held cache'.entries = held cache.entries) :
      Served tiles cache jobId key opened cache' (.ok value)
  | room (closed : ∀ value, (key, value) ∉ held cache.entries)
      (notFull : cache.entries.length < cache.capacity)
      (added : held cache'.entries =
        held cache.entries ++ opened.toOption.toList.map fun value => (key, value)) :
      Served tiles cache jobId key opened cache' opened
  | full {kept : List (Nat × T)} {victim : Nat × T} {use : NextUse}
      (closed : ∀ value, (key, value) ∉ held cache.entries)
      (isFull : cache.entries.length = cache.capacity)
      (removed : (victim :: kept).Perm (held cache.entries))
      (needed : NextFrom tiles (jobId + 1) victim.1 use)
      (furthest : ∀ p ∈ held cache.entries, ∀ use',
        NextFrom tiles (jobId + 1) p.1 use' → use' ≤ use)
      (added : held cache'.entries = kept ++ opened.toOption.toList.map fun value => (key, value)) :
      Served tiles cache jobId key opened cache' opened

/-- What holds between requests, where the jobs of those before are below `next`. -/
structure Cached (tiles : List Nat) (tileCount capacity : Nat) (IsFor : Nat → T → Prop) (next : Nat)
    (cache : DecoderCache T) : Prop where
  capacity : cache.capacity = max capacity 1
  nextUses : cache.nextUses = nextTileUses tiles tileCount
  size : cache.entries.length ≤ cache.capacity
  nodup : ((held cache.entries).map Prod.fst).Nodup
  isFor : ∀ p ∈ held cache.entries, IsFor p.1 p.2
  predicted : ∀ e ∈ cache.entries, Predicted tiles next e

theorem cached_new : Cached tiles tileCount capacity IsFor 0
    (new T capacity (nextTileUses tiles tileCount)) where
  capacity := rfl
  nextUses := rfl
  size := Nat.zero_le _
  nodup := List.nodup_nil
  isFor _ hp := nomatch hp
  predicted _ he := nomatch he

theorem length_held (entries : List (CacheEntry T)) : (held entries).length = entries.length :=
  List.length_map _

/-- The entry that is returned has the next use of the job. -/
theorem touch_spec {cache : DecoderCache T} {before after : List (CacheEntry T)} {jobId : Nat}
    {e : CacheEntry T} {use : NextUse} (he : cache.entries = before ++ e :: after)
    (huse : cache.nextUses[jobId]? = some use) :
    cache.touch before.length jobId =
      .ok ({ cache with entries := before ++ { e with nextUse := use } :: after }, e.value) := by
  have hpos : cache.entries[before.length]? = some e := by simp [he]
  have hset : cache.entries.set before.length { e with nextUse := use } =
      before ++ { e with nextUse := use } :: after := by simp [he]
  rw [touch, hpos, List.getD_eq_getElem?_getD, huse]
  show Except.ok (mk _ _ (cache.entries.set _ { e with nextUse := use }), e.value) = _
  rw [hset]

theorem cached_links {cache : DecoderCache T} {next : Nat}
    (h : Cached tiles tileCount capacity IsFor next cache) (htiles : ∀ t ∈ tiles, t < tileCount) :
    Links tiles cache.nextUses := by
  rw [h.nextUses]
  exact fun i t hi => nextTileUses_spec htiles hi

theorem Predicted.mono {next next' : Nat} {e : CacheEntry T} (h : Predicted tiles next e)
    (hle : next ≤ next') : Predicted tiles next' e := by
  rcases h with ⟨start, hstart, hnext⟩
  exact ⟨start, hstart.trans hle, hnext⟩

theorem held_append (before after : List (CacheEntry T)) (e : CacheEntry T) :
    held (before ++ e :: after) = held before ++ (e.tile, e.value) :: held after := by
  rw [held, List.map_append, List.map_cons]
  rfl

/-- An entry that is there already. -/
theorem hit_spec {cache : DecoderCache T} {next jobId key : Nat} {opened : Except E T}
    (h : Cached tiles tileCount capacity IsFor next cache) (htiles : ∀ t ∈ tiles, t < tileCount)
    (hnext : next ≤ jobId) (hkey : tiles[jobId]? = some key) {pos : Nat}
    (hpos : cache.entries.findIdx? (fun e => e.tile == key) = some pos) :
    ∃ cache' result, cache.getOrTryOpen rounds key jobId opened = .ok (cache', result) ∧
      Served tiles cache jobId key opened cache' result ∧
      (∀ value, result = .ok value → IsFor key value) ∧
      Cached tiles tileCount capacity IsFor (jobId + 1) cache' := by
  rcases cached_links h htiles jobId key hkey with ⟨use, huse, huseNext⟩
  -- the entries around the one that is asked for stay as they are
  rcases List.findIdx?_eq_some_iff_getElem.mp hpos with ⟨hlt, htile, -⟩
  have htile := beq_iff_eq.mp htile
  obtain ⟨before, e, after, hentries, rfl, rfl⟩ : ∃ before e after,
      cache.entries = before ++ e :: after ∧ before.length = pos ∧ e.tile = key :=
    ⟨cache.entries.take pos, cache.entries[pos], cache.entries.drop (pos + 1),
      by rw [List.getElem_cons_drop, List.take_append_drop], List.length_take_of_le hlt.le, htile⟩
  have hheld : held (before ++ { e with nextUse := use } :: after) = held cache.entries := by
    rw [hentries, held_append, held_append]
  refine ⟨{ cache with entries := before ++ { e with nextUse := use } :: after }, .ok e.value, ?_,
    .hit ?_ hheld, fun value hvalue => ?_, ?_⟩
  · rw [getOrTryOpen, hpos]
    show (do let p ← cache.touch before.length jobId; pure _) = _
    rw [touch_spec hentries huse]
    rfl
  · rw [hentries, held_append]
    exact List.mem_append_right _ List.mem_cons_self
  · obtain rfl := Except.ok.inj hvalue
    refine h.isFor (e.tile, e.value) ?_
    rw [hentries, held_append]
    exact List.mem_append_right _ List.mem_cons_self
  · refine ⟨h.capacity, h.nextUses, ?_, ?_, ?_, fun e' he' => ?_⟩
    · rw [← length_held]
      show (held (before ++ _ :: after)).length ≤ _
      rw [hheld, length_held]
      exact h.size
    · show ((held (before ++ _ :: after)).map Prod.fst).Nodup
      rw [hheld]
      exact h.nodup
    · show ∀ p ∈ held (before ++ _ :: after), _
      rw [hheld]
      exact h.isFor
    · rcases List.mem_append.mp he' with he' | he'
      · exact (h.predicted e' (hentries ▸ List.mem_append_left _ he')).mono (by omega)
      · rcases List.mem_cons.mp he' with rfl | he'
        · exact ⟨jobId + 1, le_rfl, huseNext⟩
        · have hmem : e' ∈ cache.entries := by
            rw [hentries]
            exact List.mem_append_right _ (List.mem_cons_of_mem _ he')
          exact (h.predicted e' hmem).mono (by omega)

/-- What is kept when there is no entry. -/
structure Kept (tiles : List Nat) (cache : DecoderCache T) (jobId : Nat)
    (kept : List (CacheEntry T)) : Prop where
  size : kept.length < cache.capacity
  rest : ∃ more, (more ++ held kept).Perm (held cache.entries)
  predicted : ∀ e ∈ kept, Predicted tiles (jobId + 1) e

theorem Kept.mem {cache : DecoderCache T} {jobId : Nat} {kept : List (CacheEntry T)}
    (h : Kept tiles cache jobId kept) {p : Nat × T} (hp : p ∈ held kept) :
    p ∈ held cache.entries := by
  rcases h.rest with ⟨more, hperm⟩
  exact hperm.subset (List.mem_append_right more hp)

theorem Kept.nodup {cache : DecoderCache T} {jobId : Nat} {kept : List (CacheEntry T)}
    (h : Kept tiles cache jobId kept) (hnodup : ((held cache.entries).map Prod.fst).Nodup) :
    ((held kept).map Prod.fst).Nodup := by
  rcases h.rest with ⟨more, hperm⟩
  have hmap := (hperm.map Prod.fst).nodup_iff.mpr hnodup
  rw [List.map_append] at hmap
  exact hmap.of_append_right

theorem closed_of_none {entries : List (CacheEntry T)} {key : Nat}
    (hpos : entries.findIdx? (fun e => e.tile == key) = none) (value : T) :
    (key, value) ∉ held entries := by
  intro hmem
  rcases List.mem_map.mp hmem with ⟨e, he, hpair⟩
  have hne := List.findIdx?_eq_none_iff.mp hpos e he
  rw [(Prod.mk.inj hpair).1, beq_self_eq_true] at hne
  cases hne

/-- An entry that has to be opened. -/
theorem miss_spec {cache : DecoderCache T} {next jobId key : Nat} {opened : Except E T}
    (h : Cached tiles tileCount capacity IsFor next cache) (htiles : ∀ t ∈ tiles, t < tileCount)
    (hkey : tiles[jobId]? = some key) (hopened : ∀ value, opened = .ok value → IsFor key value)
    (hpos : cache.entries.findIdx? (fun e => e.tile == key) = none) {kept : List (CacheEntry T)}
    (hkept : Kept tiles cache jobId kept)
    (hroom : cache.makeRoom rounds jobId = .ok kept) :
    ∃ cache', cache.getOrTryOpen rounds key jobId opened = .ok (cache', opened) ∧
      held cache'.entries = held kept ++ opened.toOption.toList.map (fun value => (key, value)) ∧
      Cached tiles tileCount capacity IsFor (jobId + 1) cache' := by
  cases opened with
  | error e =>
      refine ⟨{ cache with entries := kept }, ?_, (List.append_nil _).symm, h.capacity, h.nextUses,
        hkept.size.le, hkept.nodup h.nodup, fun p hp => h.isFor p (hkept.mem hp), hkept.predicted⟩
      rw [getOrTryOpen, hpos]
      show (do let kept ← cache.makeRoom rounds jobId; _) = _
      rw [hroom]
      rfl
  | ok value =>
      rcases cached_links h htiles jobId key hkey with ⟨use, huse, huseNext⟩
      have htouch := @touch_spec T { cache with entries := kept ++ [⟨key, some 0, value⟩] } kept []
        jobId _ use rfl huse
      have hheld := held_append kept [] ⟨key, use, value⟩
      refine ⟨{ cache with entries := kept ++ [⟨key, use, value⟩] }, ?_, hheld, h.capacity,
        h.nextUses, ?_, ?_, fun p hp => ?_, fun e he => ?_⟩
      · rw [getOrTryOpen, hpos]
        show (do let kept ← cache.makeRoom rounds jobId; _) = _
        rw [hroom]
        show (do let p ← touch _ _ _; pure _) = _
        rw [htouch]
        rfl
      · rw [List.length_append]
        exact hkept.size
      · show ((held (kept ++ _)).map Prod.fst).Nodup
        rw [hheld, List.map_append, List.nodup_append]
        refine ⟨hkept.nodup h.nodup, List.nodup_singleton key, fun tile htile other hother => ?_⟩
        obtain rfl : other = key := List.mem_singleton.mp hother
        rintro rfl
        rcases List.mem_map.mp htile with ⟨⟨_, held'⟩, hp, rfl⟩
        exact closed_of_none hpos held' (hkept.mem hp)
      · rw [hheld] at hp
        rcases List.mem_append.mp hp with hp | hp
        · exact h.isFor p (hkept.mem hp)
        · obtain rfl := List.mem_singleton.mp hp
          exact hopened value rfl
      · rcases List.mem_append.mp he with he | he
        · exact hkept.predicted e he
        · obtain rfl := List.mem_singleton.mp he
          exact ⟨jobId + 1, le_rfl, huseNext⟩

theorem served {cache : DecoderCache T} {next jobId key : Nat} {opened : Except E T}
    (h : Cached tiles tileCount capacity IsFor next cache) (htiles : ∀ t ∈ tiles, t < tileCount)
    (hrounds : tiles.length ≤ rounds) (hnext : next ≤ jobId) (hkey : tiles[jobId]? = some key)
    (hopened : ∀ value, opened = .ok value → IsFor key value) :
    ∃ cache' result, cache.getOrTryOpen rounds key jobId opened = .ok (cache', result) ∧
      Served tiles cache jobId key opened cache' result ∧
      (∀ value, result = .ok value → IsFor key value) ∧
      Cached tiles tileCount capacity IsFor (jobId + 1) cache' := by
  cases hpos : cache.entries.findIdx? (fun e => e.tile == key) with
  | some pos =>
      rcases hit_spec h htiles hnext hkey hpos with ⟨cache', result, hrun, hserved, hisFor, hcached⟩
      exact ⟨cache', result, hrun, hserved, hisFor, hcached⟩
  | none =>
      have hpredicted : ∀ e ∈ cache.entries, Predicted tiles (jobId + 1) e :=
        fun e he => (h.predicted e he).mono (by omega)
      by_cases hfull : cache.entries.length = cache.capacity
      · have hne : cache.entries ≠ [] := by
          intro hnil
          rw [hnil, h.capacity, List.length_nil] at hfull
          omega
        have hlt : jobId < rounds := (List.getElem?_eq_some_iff.mp hkey).1.trans_le hrounds
        rcases evicted_spec (cached_links h htiles) hlt hne hpredicted with
          ⟨kept, victim, use, hrun, hperm, hkeptNext, hvictim, hfurthest⟩
        have hlen : kept.length + 1 = cache.entries.length := by
          rw [← length_held, ← length_held, ← hperm.length_eq, List.length_cons]
        have hkept : Kept tiles cache jobId kept := ⟨by omega, ⟨[victim], hperm⟩, hkeptNext⟩
        have hroom : cache.makeRoom rounds jobId = .ok kept := (if_pos hfull).trans hrun
        rcases miss_spec h htiles hkey hopened hpos hkept hroom with ⟨cache', hget, hheld, hcached⟩
        exact ⟨cache', opened, hget,
          .full (closed_of_none hpos) hfull hperm hvictim hfurthest hheld, hopened, hcached⟩
      · have hkept : Kept tiles cache jobId cache.entries :=
          ⟨lt_of_le_of_ne h.size hfull, ⟨[], .refl _⟩, hpredicted⟩
        rcases miss_spec h htiles hkey hopened hpos hkept (if_neg hfull) with
          ⟨cache', hget, hheld, hcached⟩
        exact ⟨cache', opened, hget,
          .room (closed_of_none hpos) (lt_of_le_of_ne h.size hfull) hheld, hopened, hcached⟩

/-- The states of a worker's cache, with a number above the jobs it has been asked for. A decoder
that is opened for a tile is one for that tile. -/
inductive Reached (E : Type) (tiles : List Nat) (tileCount capacity rounds : Nat)
    (IsFor : Nat → T → Prop) : Nat → DecoderCache T → Prop
  | start : Reached E tiles tileCount capacity rounds IsFor 0
      (new T capacity (nextTileUses tiles tileCount))
  | request {next jobId key : Nat} {cache cache' : DecoderCache T} {opened result : Except E T}
      (before : Reached E tiles tileCount capacity rounds IsFor next cache) (later : next ≤ jobId)
      (job : tiles[jobId]? = some key) (isFor : ∀ value, opened = .ok value → IsFor key value)
      (served : cache.getOrTryOpen rounds key jobId opened = .ok (cache', result)) :
      Reached E tiles tileCount capacity rounds IsFor (jobId + 1) cache'

theorem reached_cached (htiles : ∀ t ∈ tiles, t < tileCount) (hrounds : tiles.length ≤ rounds)
    {next : Nat} {cache : DecoderCache T}
    (h : Reached E tiles tileCount capacity rounds IsFor next cache) :
    Cached tiles tileCount capacity IsFor next cache := by
  induction h with
  | start => exact cached_new
  | request before later job isFor hrun ih =>
      rcases served ih htiles hrounds later job isFor with ⟨cache', result, hrun', -, -, hcached⟩
      rw [hrun] at hrun'
      rw [(Prod.mk.inj (Except.ok.inj hrun')).1]
      exact hcached

/-- A worker's cache over any of its runs, and what the next request does. -/
theorem furthest_tile_evicted (htiles : ∀ t ∈ tiles, t < tileCount)
    (hrounds : tiles.length ≤ rounds) {next : Nat} {cache : DecoderCache T}
    (h : Reached E tiles tileCount capacity rounds IsFor next cache) :
    cache.entries.length ≤ max capacity 1 ∧ ((held cache.entries).map Prod.fst).Nodup ∧
      ∀ jobId key (opened : Except E T), next ≤ jobId → tiles[jobId]? = some key →
        (∀ value, opened = .ok value → IsFor key value) →
        ∃ cache' result, cache.getOrTryOpen rounds key jobId opened = .ok (cache', result) ∧
          Served tiles cache jobId key opened cache' result ∧
          ∀ value, result = .ok value → IsFor key value := by
  have hcached := reached_cached htiles hrounds h
  refine ⟨hcached.size.trans_eq hcached.capacity, hcached.nodup, ?_⟩
  intro jobId key opened hnext hkey hopened
  rcases served hcached htiles hrounds hnext hkey hopened with
    ⟨cache', result, hrun, hserved, hisFor, -⟩
  exact ⟨cache', result, hrun, hserved, hisFor⟩

/-- Two decoders are open when the third tile is needed. -/
theorem furthest_tile_evicted_third :
    ∃ cache' result, (⟨2, nextTileUses [0, 1, 2, 1, 0] 3, [⟨0, (4 : Nat), 0⟩, ⟨1, (3 : Nat), 1⟩]⟩ :
        DecoderCache Nat).getOrTryOpen 5 2 2 (.ok 2 : Except Unit Nat) = .ok (cache', result) ∧
      ∀ value, result = .ok value → value = 2 := by
  have htiles : ∀ t ∈ [0, 1, 2, 1, 0], t < 3 := by decide
  have hopens : ∀ tile value, (.ok tile : Except Unit Nat) = .ok value → value = tile :=
    fun _ _ h => (Except.ok.inj h).symm
  have hfirst : Reached Unit [0, 1, 2, 1, 0] 3 2 5 (fun tile value => value = tile) 1
      ⟨2, nextTileUses [0, 1, 2, 1, 0] 3, [⟨0, (4 : Nat), 0⟩]⟩ :=
    .request .start le_rfl rfl (hopens 0) rfl
  have hsecond : Reached Unit [0, 1, 2, 1, 0] 3 2 5 (fun tile value => value = tile) 2
      ⟨2, nextTileUses [0, 1, 2, 1, 0] 3, [⟨0, (4 : Nat), 0⟩, ⟨1, (3 : Nat), 1⟩]⟩ :=
    .request hfirst le_rfl rfl (hopens 1) rfl
  rcases (furthest_tile_evicted htiles le_rfl hsecond).2.2 2 2 (.ok 2) le_rfl rfl
    (hopens 2) with ⟨cache', result, hrun, -, hisFor⟩
  exact ⟨cache', result, hrun, hisFor⟩

example : ((⟨2, nextTileUses [0, 1, 2, 1, 0] 3, [⟨0, (4 : Nat), 0⟩, ⟨1, (3 : Nat), 1⟩]⟩ :
    DecoderCache Nat).getOrTryOpen 5 2 2 (.ok 2 : Except Unit Nat)).map
      (fun p => held p.1.entries) = .ok [(1, 1), (2, 2)] := rfl

end Request

end DecoderCache

end RasterH3.Raster
