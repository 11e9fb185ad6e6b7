import RasterH3.Raster.RangeReader
import RasterH3.Proofs.RemoteReads
import Mathlib

/-!
# A cursor over the bytes of an object

The reader is the standard interface to a remote source, a position that reads move and
seeks set. It is compared with one that keeps a position in a list of bytes and computes
with integers (`Cursor`). They agree on every read, one that fails included: reads are exact
or fail, and a read that fails leaves the position where it was.

A relative seek computes in 64-bit words, with a base that is unsigned and an offset that
has a sign. It agrees just if its target lies below `2 ^ 63`, and with overflow checks what
it is relative to must lie there too (`Fits`): a larger base is negative as a signed word,
and a larger target becomes so. `wrapI64_word` says what becomes of a word, and
`relative_exact_iff` compares the seek with the sum of integers for each of the two ways to
build the code. A seek from the start always fits.

A run agrees just if all its seeks fit, each at the state where it is made (`FitAll`). That
is an equivalence too, and both directions go along the run: as long as the seeks fit, the
reader and the cursor have one position, and the first that does not fit is the one they
part at (`follows_iff_fitAll`). The size of the object and every position stay words
(`Holds64`), since a read goes no further than the end.
-/

namespace RasterH3.Raster

open HttpRangeReader

/-! ## The reference -/

def SeekFrom.target (obj : List UInt8) (cursor : Nat) : SeekFrom → Int
  | .start offset => offset.toNat
  | .current delta => cursor + delta.toInt
  | .fromEnd delta => obj.length + delta.toInt

/-- A call over the bytes of an object, with the position before and after it. -/
inductive Cursor (obj : List UInt8) (cursor : Nat) : ReaderCall → ReaderResult → Nat → Prop
  | read (len : Nat) (fetch : Fetch) : Cursor obj cursor (.read len fetch)
      (.bytes (.ok ((obj.drop cursor).take len))) (cursor + min len (obj.length - cursor))
  | readFailed {len : Nat} {fetch : Fetch} {e : ReaderError} (inside : cursor < obj.length)
      (some_ : 0 < len) : Cursor obj cursor (.read len fetch) (.bytes (.error e)) cursor
  | seek {pos : SeekFrom} {next : Nat} (exact : pos.target obj cursor = next)
      (word : next < 2 ^ 64) :
      Cursor obj cursor (.seek pos) (.position (.ok next)) next
  | seekFailed {pos : SeekFrom} {e : ReaderError}
      (outside : pos.target obj cursor < 0 ∨ 2 ^ 64 ≤ pos.target obj cursor) :
      Cursor obj cursor (.seek pos) (.position (.error e)) cursor

/-- No call of a run panics, and each does what the cursor does. -/
def Follows (overflowChecks : Bool) (obj : List UInt8) : HttpRangeReader → List ReaderCall → Prop
  | _, [] => True
  | r, call :: calls => ∃ result r', r.call overflowChecks call = some (result, r') ∧
      Cursor obj r.cursor call result r'.cursor ∧ Follows overflowChecks obj r' calls

/-! ## Seeks -/

/-- What a relative seek is relative to, and where it leads, are not too large. -/
def FitsFrom (overflowChecks : Bool) (base : Nat) (delta : Int64) : Prop :=
  base + delta.toInt < 2 ^ 63 ∧ (overflowChecks → base < 2 ^ 63)

instance (overflowChecks : Bool) (base : Nat) (delta : Int64) :
    Decidable (FitsFrom overflowChecks base delta) := inferInstanceAs (Decidable (_ ∧ _))

def Fits (overflowChecks : Bool) (r : HttpRangeReader) : ReaderCall → Prop
  | .seek (.current delta) => FitsFrom overflowChecks r.cursor delta
  | .seek (.fromEnd delta) => FitsFrom overflowChecks r.source.totalSize delta
  | _ => True

/-- Every seek of a run fits the state where it is made. -/
def FitAll (overflowChecks : Bool) : HttpRangeReader → List ReaderCall → Prop
  | _, [] => True
  | r, call :: calls => Fits overflowChecks r call ∧
      ∀ result r', r.call overflowChecks call = some (result, r') → FitAll overflowChecks r' calls

/-- What the mathematically exact seek gives. -/
def ExactTarget (target : Int) (result : Except ReaderError Nat) : Prop :=
  match result with
  | .ok next => target = next ∧ next < 2 ^ 64
  | .error _ => target < 0 ∨ 2 ^ 64 ≤ target

/-- A word below `2 ^ 63` is the same signed, any other one is `2 ^ 64` less. -/
theorem wrapI64_word {base : Nat} (h : base < 2 ^ 64) :
    wrapI64 base = if base < 2 ^ 63 then (base : Int) else base - 2 ^ 64 := by
  unfold wrapI64
  split
  next => omega
  next => omega

/-- The seek takes what is not below `2 ^ 63` for a negative number, or for a small one. -/
theorem relative_eq {overflowChecks : Bool} {base : Nat} (hbase : base < 2 ^ 64) {delta : Int64}
    {target : Int} (htarget : base + delta.toInt = target) :
    relative overflowChecks base delta =
      if overflowChecks ∧ ¬(base < 2 ^ 63 ↔ target < 2 ^ 63) then none
      else if target < 2 ^ 63 then
        some (if target < 0 then .error beforeStart else .ok target.toNat)
      else some (if target < 2 ^ 64 then .error beforeStart else .ok (target - 2 ^ 64).toNat) := by
  have hlow := Int64.le_toInt delta
  have hhigh := Int64.toInt_lt delta
  have hword := wrapI64_word hbase
  have hsum : wrapI64 (wrapI64 base + delta.toInt) =
      if target < 2 ^ 63 then target else target - 2 ^ 64 := by
    unfold wrapI64 at hword ⊢
    split
    next => split at hword <;> omega
    next => split at hword <;> omega
  have hpanic :
      (overflowChecks ∧ wrapI64 (wrapI64 base + delta.toInt) ≠ wrapI64 base + delta.toInt) ↔
        (overflowChecks ∧ ¬(base < 2 ^ 63 ↔ target < 2 ^ 63)) := by
    refine and_congr_right fun _ => ?_
    rw [hsum, hword]
    split_ifs <;> omega
  have hasU64 : ∀ i : Int, 0 ≤ i → i < 2 ^ 63 → asU64 i = i.toNat := by
    intro i hi hlt
    unfold asU64
    omega
  rw [relative, addI64]
  by_cases hp : overflowChecks ∧ ¬(base < 2 ^ 63 ↔ target < 2 ^ 63)
  · rw [if_pos (hpanic.mpr hp), if_pos hp]
    rfl
  · rw [if_neg (hpanic.not.mpr hp), if_neg hp, Option.map_some, hsum]
    split
    next hlt =>
      refine congrArg some ?_
      split
      next => rfl
      next hpos => rw [hasU64 _ (by omega) hlt]
    next hge =>
      refine congrArg some ?_
      by_cases hword : target < 2 ^ 64
      · rw [if_pos (by omega), if_pos hword]
      · rw [if_neg (by omega), if_neg hword, hasU64 _ (by omega) (by omega)]

theorem relative_exact_iff {overflowChecks : Bool} {base : Nat} (hbase : base < 2 ^ 64)
    (delta : Int64) :
    (∃ result, relative overflowChecks base delta = some result ∧
      ExactTarget (base + delta.toInt) result) ↔ FitsFrom overflowChecks base delta := by
  have hhigh := Int64.toInt_lt delta
  generalize htarget : base + delta.toInt = target
  rw [relative_eq hbase htarget, FitsFrom, htarget]
  split
  next hpanic =>
      constructor
      · rintro ⟨_, ⟨⟩, -⟩
      · rintro ⟨hlt, hb⟩
        exact absurd (iff_of_true (hb hpanic.1) hlt) hpanic.2
  next hsome =>
      have hsmall : overflowChecks → (base < 2 ^ 63 ↔ target < 2 ^ 63) :=
        fun hc => not_not.mp fun hne => hsome ⟨hc, hne⟩
      split
      next hlt =>
        refine iff_of_true ⟨_, rfl, ?_⟩ ⟨hlt, fun hc => (hsmall hc).mpr hlt⟩
        split
        next hneg => exact .inl hneg
        next hpos => exact ⟨by omega, by omega⟩
      next hge =>
        refine iff_of_false ?_ fun h => hge h.1
        rintro ⟨result, hresult, hexact⟩
        obtain rfl := Option.some.inj hresult
        split at hexact
        next hword =>
          have : target < 0 ∨ 2 ^ 64 ≤ target := hexact
          omega
        next hlarge =>
          have := hexact.1
          omega

/-! ## Runs -/

/-- The object fits the words that hold its size and the position. -/
structure Holds64 (obj : List UInt8) (r : HttpRangeReader) : Prop where
  source : Holds obj r.source
  size : obj.length < 2 ^ 64
  cursor : r.cursor < 2 ^ 64

/-- A read agrees with the cursor whether it fails or not. -/
theorem read_follows {obj : List UInt8} {r : HttpRangeReader} (h : Holds64 obj r) {fetch : Fetch}
    (ht : Truthful obj fetch) (hk : Keeps obj fetch) (len : Nat) :
    ∃ result r', r.read fetch len = some (result, r') ∧ Holds64 obj r' ∧
      Cursor obj r.cursor (.read len fetch) (.bytes result) r'.cursor := by
  unfold HttpRangeReader.read
  rw [h.source.size]
  split
  next hempty =>
    refine ⟨.ok [], r, rfl, h, ?_⟩
    have hnone : (obj.drop r.cursor).take len = [] := by
      rcases hempty with hout | rfl
      · rw [List.drop_eq_nil_of_le hout, List.take_nil]
      · exact List.take_zero
    have hstay : r.cursor + min len (obj.length - r.cursor) = r.cursor := by
      rcases hempty with hout | rfl
      · omega
      · rw [Nat.zero_min, Nat.add_zero]
    have hread := @Cursor.read obj r.cursor len fetch
    rwa [hnone, hstay] at hread
  next hin =>
    rw [not_or, not_le] at hin
    rcases readRangeInto_exact h.source ht hk r.cursor (min len (obj.length - r.cursor)) with
      ⟨result, src, hrun, hsrc, hexact⟩
    simp only [hrun, Option.map_some]
    cases result with
    | error e =>
        exact ⟨_, _, rfl, ⟨hsrc, h.size, h.cursor⟩, .readFailed hin.1 (Nat.pos_of_ne_zero hin.2)⟩
    | ok bytes =>
        have hbytes : bytes = (obj.drop r.cursor).take len := by
          rw [hexact bytes rfl, take_min_size]
        have hlen : bytes.length = min len (obj.length - r.cursor) := by
          rw [hbytes, List.length_take, List.length_drop]
        refine ⟨_, _, rfl, ⟨hsrc, h.size, ?_⟩, ?_⟩
        · have := h.size
          show r.cursor + bytes.length < 2 ^ 64
          omega
        · have hread := @Cursor.read obj r.cursor len fetch
          rwa [← hbytes, ← hlen] at hread

theorem seek_follows_iff {overflowChecks : Bool} {obj : List UInt8} {r : HttpRangeReader}
    (h : Holds64 obj r) (pos : SeekFrom) :
    (∃ result r', r.call overflowChecks (.seek pos) = some (result, r') ∧
      Cursor obj r.cursor (.seek pos) result r'.cursor) ↔ Fits overflowChecks r (.seek pos) := by
  have hexact : (∃ result r', r.call overflowChecks (.seek pos) = some (result, r') ∧
      Cursor obj r.cursor (.seek pos) result r'.cursor) ↔
      ∃ result, r.newCursor overflowChecks pos = some result ∧
        ExactTarget (pos.target obj r.cursor) result := by
    rw [HttpRangeReader.call, HttpRangeReader.seek]
    cases r.newCursor overflowChecks pos with
    | none =>
        constructor
        · rintro ⟨_, _, ⟨⟩, -⟩
        · rintro ⟨_, ⟨⟩, -⟩
    | some result =>
        rw [Option.map_some]
        cases result with
        | error e =>
            constructor
            · rintro ⟨_, _, ⟨⟩, hcursor⟩
              cases hcursor with
              | seekFailed houtside => exact ⟨_, rfl, houtside⟩
            · rintro ⟨_, ⟨⟩, houtside⟩
              exact ⟨_, _, rfl, .seekFailed houtside⟩
        | ok next =>
            constructor
            · rintro ⟨_, _, ⟨⟩, hcursor⟩
              cases hcursor with
              | seek hexact hword => exact ⟨_, rfl, hexact, hword⟩
            · rintro ⟨_, ⟨⟩, hexact, hword⟩
              exact ⟨_, _, rfl, .seek hexact hword⟩
  rw [hexact]
  cases pos with
  | start offset => exact iff_of_true ⟨_, rfl, rfl, offset.toNat_lt⟩ trivial
  | current delta =>
      rw [newCursor, SeekFrom.target, Fits]
      exact relative_exact_iff h.cursor delta
  | fromEnd delta =>
      have hsize : r.source.totalSize < 2 ^ 64 := h.source.size.trans_lt h.size
      rw [newCursor, SeekFrom.target, Fits, ← h.source.size]
      exact relative_exact_iff hsize delta

/-- A seek puts a word where the position is, and leaves the source. -/
theorem seek_holds {overflowChecks : Bool} {obj : List UInt8} {r r' : HttpRangeReader}
    {pos : SeekFrom} {result : Except ReaderError Nat} (h : Holds64 obj r)
    (hseek : r.seek overflowChecks pos = some (result, r')) : Holds64 obj r' := by
  have hword : ∀ base delta next, relative overflowChecks base delta = some (.ok next) →
      next < 2 ^ 64 := by
    intro base delta next hrel
    rw [relative, Option.map_eq_some_iff] at hrel
    rcases hrel with ⟨target, -, htarget⟩
    split at htarget
    next => cases htarget
    next =>
      obtain rfl := Except.ok.inj htarget
      unfold asU64
      omega
  rw [HttpRangeReader.seek, Option.map_eq_some_iff] at hseek
  rcases hseek with ⟨new, hnew, hout⟩
  cases new with
  | error e =>
      obtain ⟨-, rfl⟩ := Prod.mk.inj hout
      exact h
  | ok next =>
      obtain ⟨-, rfl⟩ := Prod.mk.inj hout
      refine ⟨h.source, h.size, ?_⟩
      cases pos with
      | start offset =>
          obtain rfl := Except.ok.inj (Option.some.inj hnew)
          exact offset.toNat_lt
      | current delta => exact hword _ _ _ hnew
      | fromEnd delta => exact hword _ _ _ hnew

/-- The transport of a read keeps the contract for the object. -/
def KeepsContract (obj : List UInt8) : ReaderCall → Prop
  | .read _ fetch => Truthful obj fetch ∧ Keeps obj fetch
  | .seek _ => True

theorem call_holds {overflowChecks : Bool} {obj : List UInt8} {r r' : HttpRangeReader}
    {call : ReaderCall} {result : ReaderResult} (h : Holds64 obj r) (hkept : KeepsContract obj call)
    (hcall : r.call overflowChecks call = some (result, r')) : Holds64 obj r' := by
  cases call with
  | read len fetch =>
      rcases read_follows h hkept.1 hkept.2 len with ⟨_, r'', hrun, hholds, -⟩
      rw [HttpRangeReader.call, hrun] at hcall
      obtain ⟨-, rfl⟩ := Prod.mk.inj (Option.some.inj hcall)
      exact hholds
  | seek pos =>
      rw [HttpRangeReader.call, Option.map_eq_some_iff] at hcall
      rcases hcall with ⟨⟨result', r''⟩, hseek, hout⟩
      obtain ⟨-, rfl⟩ := Prod.mk.inj hout
      exact seek_holds h hseek

theorem call_follows_iff {overflowChecks : Bool} {obj : List UInt8} {r : HttpRangeReader}
    (h : Holds64 obj r) {call : ReaderCall} (hkept : KeepsContract obj call) :
    (∃ result r', r.call overflowChecks call = some (result, r') ∧
      Cursor obj r.cursor call result r'.cursor) ↔ Fits overflowChecks r call := by
  cases call with
  | read len fetch =>
      rcases read_follows h hkept.1 hkept.2 len with ⟨result, r', hrun, -, hcursor⟩
      refine iff_of_true ⟨.bytes result, r', ?_, hcursor⟩ trivial
      rw [HttpRangeReader.call, hrun]
      rfl
  | seek pos => exact seek_follows_iff h pos

theorem follows_iff_fitAll {overflowChecks : Bool} {obj : List UInt8} {r : HttpRangeReader}
    (h : Holds64 obj r) {calls : List ReaderCall} (hkept : ∀ call ∈ calls, KeepsContract obj call) :
    Follows overflowChecks obj r calls ↔ FitAll overflowChecks r calls := by
  induction calls generalizing r with
  | nil => exact Iff.rfl
  | cons call calls ih =>
      have hcall := hkept call List.mem_cons_self
      have hrest : ∀ c ∈ calls, KeepsContract obj c :=
        fun c hc => hkept c (List.mem_cons_of_mem call hc)
      constructor
      · rintro ⟨result, r', hrun, hcursor, hfollows⟩
        refine ⟨(call_follows_iff h hcall).mp ⟨result, r', hrun, hcursor⟩, ?_⟩
        intro result' r'' hrun'
        obtain ⟨-, rfl⟩ := Prod.mk.inj (Option.some.inj (hrun.symm.trans hrun'))
        exact (ih (call_holds h hcall hrun) hrest).mp hfollows
      · rintro ⟨hfits, hall⟩
        rcases (call_follows_iff h hcall).mpr hfits with ⟨result, r', hrun, hcursor⟩
        exact ⟨result, r', hrun, hcursor,
          (ih (call_holds h hcall hrun) hrest).mpr (hall result r' hrun)⟩

/-- A reader follows the cursor in just the runs whose seeks fit. -/
theorem reader_follows_iff {overflowChecks : Bool} {obj : List UInt8} {p : ProbeResult}
    {calls : List ReaderCall} (hsize : obj.length < 2 ^ 64) (htruthful : TruthfulProbe obj p)
    (hkeeps : KeepsProbe p) (hkept : ∀ call ∈ calls, KeepsContract obj call) :
    Follows overflowChecks obj (.new (.fromProbe p)) calls ↔
      FitAll overflowChecks (.new (.fromProbe p)) calls :=
  follows_iff_fitAll ⟨holds_fromProbe htruthful hkeeps, hsize, Nat.two_pow_pos 64⟩ hkept

theorem FitAll.cons {overflowChecks : Bool} {r r' : HttpRangeReader} {call : ReaderCall}
    {calls : List ReaderCall} {result : ReaderResult} (hfits : Fits overflowChecks r call)
    (hrun : r.call overflowChecks call = some (result, r'))
    (hrest : FitAll overflowChecks r' calls) :
    FitAll overflowChecks r (call :: calls) := by
  refine ⟨hfits, fun _ _ hrun' => ?_⟩
  obtain ⟨-, rfl⟩ := Prod.mk.inj (Option.some.inj (hrun.symm.trans hrun'))
  exact hrest

theorem call_seek_ok {overflowChecks : Bool} {r : HttpRangeReader} {pos : SeekFrom} {next : Nat}
    (h : r.newCursor overflowChecks pos = some (.ok next)) :
    r.call overflowChecks (.seek pos) = some (.position (.ok next), { r with cursor := next }) := by
  rw [HttpRangeReader.call, HttpRangeReader.seek, h]
  rfl

/-- Before the end, a read of what is left, which is fetched; then a seek back, and a read beyond
the end. -/
theorem reader_follows_twoBlocks :
    Follows true twoBlocks
      (.new (.fromProbe (.partialBlock (.replicate defaultBlockSize 0) 131075)))
      [.seek (.fromEnd (-2)), .read 9 (clipped twoBlocks), .seek (.current (-1)),
        .seek (.fromEnd 4), .read 2 (clipped twoBlocks)] := by
  have hsize : twoBlocks.length < 2 ^ 64 := by
    rw [length_twoBlocks]
    decide
  refine (reader_follows_iff hsize truthfulProbe_twoBlocks keepsProbe_twoBlocks
    fun call hcall => ?_).mpr ?_
  · fin_cases hcall
    · trivial
    · exact clipped_contract twoBlocks
    · trivial
    · trivial
    · exact clipped_contract twoBlocks
  · obtain ⟨src, hread, hend⟩ := readRangeInto_twoBlocks (le_refl 2)
    have hnear : relative true 131075 (-2) = some (.ok 131073) := by decide +kernel
    have hback : relative true 131075 (-1) = some (.ok 131074) := by decide +kernel
    have hbeyond : relative true src.totalSize 4 = some (.ok 131079) := by
      rw [hend]
      decide +kernel
    have hfirst : FitsFrom true 131075 (-2) := by decide +kernel
    have hsecond : FitsFrom true 131075 (-1) := by decide +kernel
    have hthird : FitsFrom true src.totalSize 4 := by
      rw [hend]
      decide +kernel
    have hrun : (HttpRangeReader.mk (.fromProbe (.partialBlock (.replicate defaultBlockSize 0)
        131075)) 131073).call true (.read 9 (clipped twoBlocks)) =
          some (.bytes (.ok [2, 3]), ⟨src, 131075⟩) := by
      have hopen : ¬ (131075 ≤ 131073 ∨ 9 = 0) := by decide
      have htoRead : min 9 (131075 - 131073) = 2 := by decide
      simp only [HttpRangeReader.call, HttpRangeReader.read, totalSize_twoBlocks, hopen, htoRead,
        hread, ↓reduceIte]
      rfl
    exact .cons hfirst (call_seek_ok hnear) (.cons trivial hrun (.cons hsecond (call_seek_ok hback)
      (.cons hthird (call_seek_ok hbeyond) ⟨trivial, fun _ _ _ => trivial⟩)))

/-- From a position that is negative as a signed word not even a seek to the same position is
exact. -/
theorem position_from_two_pow_sixty_three :
    ¬ Follows true [1, 2, 3] (.new (.fromProbe (.partialBlock [1, 2, 3] 3)))
        [.seek (.start (2 ^ 63)), .seek (.current 0)] ∧
      ¬ Follows false [1, 2, 3] (.new (.fromProbe (.partialBlock [1, 2, 3] 3)))
        [.seek (.start (2 ^ 63)), .seek (.current 0)] := by
  have hdiffers : ∀ overflowChecks,
      ¬ Follows overflowChecks [1, 2, 3] (.new (.fromProbe (.partialBlock [1, 2, 3] 3)))
        [.seek (.start (2 ^ 63)), .seek (.current 0)] := by
    intro overflowChecks hfollows
    have hholds : Holds [1, 2, 3] (.fromProbe (.partialBlock [1, 2, 3] 3)) :=
      holds_fromProbe ⟨rfl, List.prefix_refl _⟩ rfl
    have hkept : ∀ call ∈ [ReaderCall.seek (.start (2 ^ 63)), .seek (.current 0)],
        KeepsContract [1, 2, 3] call := by
      intro call hcall
      rcases List.mem_pair.mp hcall with rfl | rfl <;> trivial
    have hfits := (follows_iff_fitAll ⟨hholds, by decide, Nat.two_pow_pos 64⟩ hkept).mp hfollows
    have hlt := (hfits.2 _ _ (call_seek_ok rfl)).1.1
    revert hlt
    decide +kernel
  exact ⟨hdiffers true, hdiffers false⟩

end RasterH3.Raster
