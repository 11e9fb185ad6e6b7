import RasterH3.Lib.Reader
import RasterH3.Raster.HttpRange

/-!
# Remote reads are exact or fail

A source answers reads from a cache of blocks and fetches what it does not have. `Holds`
says what the cache may contain: the whole object, or blocks that are whole. A read keeps it
and returns exactly the bytes of the object, provided its transport keeps the contract of
the trait, to return the bytes asked for or fail (`Keeps`). A range that a source asks for
never goes beyond the end of the object, and the contract is asked for ranges inside it
only: a transport may clip at the end.

A read lies in one block or across several. Within a block it is a matter of where the block
begins (`take_blockOf`); across several, the code fetches one range for what is missing,
cuts it into blocks and copies from them in turn (`readAcross_exact`). `readRangeInto_exact`
joins the cases with the invariant, and `runReads_exact` is the induction over any sequence
of reads, from what a probe has left.

The built-in transport keeps the contract whatever its server answers. It compares the range
that a response announces with the one it asked for, and the length of the body with both; a
server that ignores the request and sends the whole object is noticed. That the bytes are
those of the object cannot be checked, and is asked of the server (`HonestServer`).

The source itself does not check. An answer that is too short is cached and handed out: the
last section has a transport that does this, a read that returns a short count, and another
that returns nothing.
-/

namespace RasterH3.Raster

open RemoteHttpSource

/-! ## Transports -/

/-- What is delivered are bytes of the object, from `start` on. -/
def Truthful (obj : List UInt8) (fetch : Fetch) : Prop :=
  ∀ start stop total bytes, fetch start stop total = .ok bytes → bytes <+: obj.drop start

/-- What is delivered of a range inside the object has the length asked for. A transport may
clip a range at the end of the object: the source never asks beyond it. -/
def Keeps (obj : List UInt8) (fetch : Fetch) : Prop :=
  ∀ start stop total bytes, start ≤ stop → stop < obj.length →
    fetch start stop total = .ok bytes → bytes.length = stop - start + 1

/-- The probe tells the size of the object and delivers its first bytes. -/
def TruthfulProbe (obj : List UInt8) : ProbeResult → Prop
  | .complete data totalSize => totalSize = obj.length ∧ data <+: obj
  | .partialBlock data totalSize => totalSize = obj.length ∧ data <+: obj

/-- The probe delivers all it should: the whole object, or the whole first block. -/
def KeepsProbe : ProbeResult → Prop
  | .complete data totalSize => data.length = totalSize
  | .partialBlock data totalSize => data.length = min defaultBlockSize totalSize

/-! ## The cache -/

def blockOf (obj : List UInt8) (blockSize k : Nat) : List UInt8 :=
  (obj.drop (k * blockSize)).take blockSize

/-- The source has the object's size, and caches the object or whole blocks of it. -/
structure Holds (obj : List UInt8) (src : RemoteHttpSource) : Prop where
  size : src.totalSize = obj.length
  blockSize : 0 < src.cache.blockSize
  complete : ∀ full, src.cache.completeFile = some full → full = obj
  blocks : ∀ k block, src.cache.getBlock k = some block →
    block = blockOf obj src.cache.blockSize k

theorem eq_take_of_isPrefixOf {l b : List UInt8} {n : Nat} (h : b <+: l) (hlen : b.length = min n l.length) :
    b = l.take n := by
  rw [List.prefix_iff_eq_take.mp h, hlen, List.take_eq_take_iff]
  omega

theorem holds_fromProbe {obj : List UInt8} {p : ProbeResult} (ht : TruthfulProbe obj p)
    (hk : KeepsProbe p) : Holds obj (fromProbe p) := by
  cases p with
  | complete data totalSize =>
      obtain ⟨hsize, hdata⟩ := ht
      refine ⟨hsize, Nat.zero_lt_succ _, ?_, fun k block h => nomatch h⟩
      rintro full ⟨⟩
      exact hdata.eq_of_length (hk.trans hsize)
  | partialBlock data totalSize =>
      obtain ⟨hsize, hdata⟩ := ht
      refine ⟨hsize, Nat.zero_lt_succ _, fun full h => (nomatch h), fun k block h => ?_⟩
      have hfirst : data = obj.take defaultBlockSize :=
        eq_take_of_isPrefixOf hdata (hsize ▸ hk)
      simp only [fromProbe, ByteCache.newWithInitialBlock, ByteCache.getBlock,
        List.lookup_cons] at h
      split at h
      next hzero =>
        obtain rfl : k = 0 := by simpa using hzero
        obtain rfl := Option.some.inj h
        simp [blockOf, hfirst, fromProbe, ByteCache.newWithInitialBlock]
      next => cases h

/-! ## One read -/

/-- The part of a block that a read inside it takes. -/
theorem take_blockOf {obj : List UInt8} {bs k off len : Nat} (hin : off + len ≤ bs)
    (hsize : k * bs + off + len ≤ obj.length) :
    off + len ≤ (blockOf obj bs k).length ∧
      ((blockOf obj bs k).drop off).take (min ((blockOf obj bs k).length - off) len) =
        (obj.drop (k * bs + off)).take len := by
  have hlen : (blockOf obj bs k).length = min bs (obj.length - k * bs) := by
    rw [blockOf, List.length_take, List.length_drop]
  refine ⟨by omega, ?_⟩
  rw [Nat.min_eq_right (by omega), blockOf, List.drop_take, List.drop_drop, List.take_take,
    Nat.min_eq_left (by omega)]

/-- What the read copies when it is not an error. -/
def Exact (obj : List UInt8) (offset len : Nat) (result : Except RemoteError (List UInt8)) : Prop :=
  ∀ bytes, result = .ok bytes → bytes = (obj.drop offset).take len

theorem take_min_size {obj : List UInt8} (offset len : Nat) :
    (obj.drop offset).take (min len (obj.length - offset)) = (obj.drop offset).take len := by
  rw [List.take_eq_take_iff, List.length_drop]
  omega

theorem readAcross_exact {obj : List UInt8} {src : RemoteHttpSource} (h : Holds obj src)
    {fetch : Fetch} (ht : Truthful obj fetch) (hk : Keeps obj fetch) {offset len : Nat}
    (hlen : 0 < len) (hsize : offset + len ≤ obj.length) :
    ∃ result src', src.readAcross fetch offset len = some (result, src') ∧ Holds obj src' ∧
      Exact obj offset len result := by
  unfold readAcross
  cases hfetch : fetch offset (offset + len - 1) (some src.totalSize) with
  | error e => exact ⟨_, _, rfl, h, fun bytes hb => nomatch hb⟩
  | ok fetched =>
      have hfull : fetched.length = len := by
        rw [hk _ _ _ _ (by omega) (by omega) hfetch]
        omega
      refine ⟨_, _, if_neg (by simp [hfull]), h, ?_⟩
      rintro bytes ⟨⟩
      refine eq_take_of_isPrefixOf (ht _ _ _ _ hfetch) ?_
      rw [List.length_drop]
      omega

theorem readThrough_exact {obj : List UInt8} {src : RemoteHttpSource} (h : Holds obj src)
    {fetch : Fetch} (ht : Truthful obj fetch) (hk : Keeps obj fetch) {k off len : Nat}
    (hlen : 0 < len) (hin : off + len ≤ src.cache.blockSize)
    (hsize : k * src.cache.blockSize + off + len ≤ obj.length)
    (hnone : src.cache.getBlock k = none) :
    ∃ result src', src.readThrough fetch k off len = some (result, src') ∧ Holds obj src' ∧
      Exact obj (k * src.cache.blockSize + off) len result := by
  unfold readThrough
  simp only
  cases hfetch : fetch (k * src.cache.blockSize)
      (min (k * src.cache.blockSize + src.cache.blockSize) src.totalSize - 1)
      (some src.totalSize) with
  | error e => exact ⟨_, _, rfl, h, fun bytes hb => nomatch hb⟩
  | ok fetched =>
      have hend := h.size
      have hblock : fetched = blockOf obj src.cache.blockSize k := by
        refine eq_take_of_isPrefixOf (ht _ _ _ _ hfetch) ?_
        rw [hk _ _ _ _ (by omega) (by omega) hfetch, List.length_drop, h.size]
        omega
      obtain ⟨hwhole, hpart⟩ := take_blockOf hin hsize
      rw [← hblock] at hwhole hpart
      simp only [ByteCache.insertBlock, hnone]
      refine ⟨_, _, if_neg (by omega), ⟨h.size, h.blockSize, h.complete, ?_⟩, ?_⟩
      · intro k' block hget
        simp only [ByteCache.getBlock, List.lookup_cons] at hget
        split at hget
        next heq =>
          obtain rfl : k' = k := by simpa using heq
          obtain rfl := Option.some.inj hget
          exact hblock
        next => exact h.blocks k' block hget
      · rintro bytes ⟨⟩
        exact hpart

/-- A read of a source that holds the object returns exactly the object's bytes, or fails. -/
theorem readRangeInto_exact {obj : List UInt8} {src : RemoteHttpSource} (h : Holds obj src)
    {fetch : Fetch} (ht : Truthful obj fetch) (hk : Keeps obj fetch) (offset len : Nat) :
    ∃ result src', src.readRangeInto fetch offset len = some (result, src') ∧ Holds obj src' ∧
      Exact obj offset len result := by
  unfold readRangeInto
  split
  next hempty =>
    refine ⟨_, _, rfl, h, ?_⟩
    rintro bytes ⟨⟩
    rcases hempty with hout | rfl
    · rw [List.drop_eq_nil_of_le (h.size ▸ hout), List.take_nil]
    · rw [List.take_zero]
  next hin =>
    simp only [not_or, not_le] at hin
    obtain ⟨hoff, hne⟩ := hin
    rw [h.size] at hoff ⊢
    simp only
    have hexact : ∀ {result}, Exact obj offset (min len (obj.length - offset)) result →
        Exact obj offset len result := by
      intro result hres bytes hb
      rw [← take_min_size]
      exact hres bytes hb
    generalize hactual : min len (obj.length - offset) = actualLen at hexact ⊢
    cases hcomplete : src.cache.completeFile with
    | some full =>
        obtain rfl := h.complete full hcomplete
        simp only [ByteCache.copyFromComplete, hcomplete, Option.map_some]
        refine ⟨_, _, rfl, h, hexact ?_⟩
        rintro bytes ⟨⟩
        rw [if_neg (by omega), Nat.min_eq_left (by omega)]
    | none =>
        simp only [ByteCache.copyFromComplete, hcomplete, Option.map_none]
        have hdiv := Nat.div_mul_le_self offset src.cache.blockSize
        have hmod := Nat.lt_div_mul_add h.blockSize (a := offset)
        have hoffset : offset / src.cache.blockSize * src.cache.blockSize +
            (offset - offset / src.cache.blockSize * src.cache.blockSize) = offset := by
          omega
        split
        next hfits =>
          have hin : offset - offset / src.cache.blockSize * src.cache.blockSize + actualLen ≤
              src.cache.blockSize := by
            omega
          have hsize : offset / src.cache.blockSize * src.cache.blockSize +
              (offset - offset / src.cache.blockSize * src.cache.blockSize) + actualLen ≤
                obj.length := by
            omega
          cases hget : src.cache.getBlock (offset / src.cache.blockSize) with
          | none =>
              obtain ⟨result, src', hrun, hholds, hres⟩ :=
                readThrough_exact h ht hk (by omega) hin hsize hget
              rw [hoffset] at hres
              exact ⟨result, src', hrun, hholds, hexact hres⟩
          | some block =>
              obtain rfl := h.blocks _ block hget
              obtain ⟨hwhole, hpart⟩ := take_blockOf hin hsize
              rw [hoffset] at hpart
              simp only
              rw [if_pos (by omega)]
              refine ⟨_, _, rfl, h, hexact ?_⟩
              rintro bytes ⟨⟩
              exact hpart
        next =>
          obtain ⟨result, src', hrun, hholds, hres⟩ :=
            @readAcross_exact _ _ h _ ht hk offset actualLen (by omega) (by omega)
          exact ⟨result, src', hrun, hholds, hexact hres⟩

/-! ## Any sequence of reads -/

/-- No read panics, every one is exact or fails, and the cache holds whole blocks. -/
def ReadsExact (obj : List UInt8) (p : ProbeResult) (calls : List ReadCall) : Prop :=
  ∃ results src, runReads (fromProbe p) calls = some (results, src) ∧
    List.Forall₂ (fun call result => Exact obj call.offset call.len result) calls results ∧
      Holds obj src

theorem runReads_exact {obj : List UInt8} {src : RemoteHttpSource} (h : Holds obj src)
    {calls : List ReadCall} (hcalls : ∀ call ∈ calls, Truthful obj call.fetch ∧ Keeps obj call.fetch) :
    ∃ results src', runReads src calls = some (results, src') ∧
      List.Forall₂ (fun call result => Exact obj call.offset call.len result) calls results ∧
        Holds obj src' := by
  induction calls generalizing src with
  | nil => exact ⟨[], src, rfl, .nil, h⟩
  | cons call calls ih =>
      obtain ⟨ht, hk⟩ := hcalls call List.mem_cons_self
      obtain ⟨result, src₁, hrun, hholds, hexact⟩ :=
        readRangeInto_exact h ht hk call.offset call.len
      obtain ⟨results, src₂, hruns, hall, hlast⟩ :=
        ih hholds fun c hc => hcalls c (List.mem_cons_of_mem call hc)
      refine ⟨result :: results, src₂, ?_, .cons hexact hall, hlast⟩
      simp [runReads, hrun, hruns]

/-- Reads over a transport that keeps its contract, from the probe on. -/
theorem reads_exact {obj : List UInt8} {p : ProbeResult} (htruthful : TruthfulProbe obj p)
    (hkeeps : KeepsProbe p) {calls : List ReadCall}
    (hcalls : ∀ call ∈ calls, Truthful obj call.fetch ∧ Keeps obj call.fetch) :
    ReadsExact obj p calls :=
  runReads_exact (holds_fromProbe htruthful hkeeps) hcalls

/-- A transport that has the object and clips a range at its end. -/
def clipped (obj : List UInt8) : Fetch := fun start stop _ =>
  .ok ((obj.drop start).take (stop - start + 1))

theorem clipped_contract (obj : List UInt8) :
    Truthful obj (clipped obj) ∧ Keeps obj (clipped obj) := by
  refine ⟨fun start stop total bytes h => ?_, fun start stop total bytes hle hlt h => ?_⟩
  · exact Except.ok.inj h ▸ List.take_prefix _ _
  · obtain rfl := Except.ok.inj h
    rw [List.length_take, List.length_drop]
    omega

/-- An object of a block and three bytes. -/
def twoBlocks : List UInt8 := .replicate defaultBlockSize 0 ++ [1, 2, 3]

theorem length_twoBlocks : twoBlocks.length = 131075 := by
  rw [twoBlocks, List.length_append, List.length_replicate]
  rfl

theorem truthfulProbe_twoBlocks :
    TruthfulProbe twoBlocks (.partialBlock (.replicate defaultBlockSize 0) 131075) :=
  ⟨length_twoBlocks.symm, List.prefix_append _ _⟩

theorem keepsProbe_twoBlocks :
    KeepsProbe (.partialBlock (.replicate defaultBlockSize 0) 131075) :=
  (List.length_replicate ..).trans (by decide)

theorem totalSize_twoBlocks :
    (fromProbe (.partialBlock (.replicate defaultBlockSize 0) 131075)).totalSize = 131075 :=
  rfl

/-- The bytes of the second block, which the probe has not delivered, are fetched. -/
theorem readRangeInto_twoBlocks {len : Nat} (h : 2 ≤ len) :
    ∃ src, (fromProbe (.partialBlock (.replicate defaultBlockSize 0) 131075)).readRangeInto
      (clipped twoBlocks) 131073 len = some (.ok [2, 3], src) ∧ src.totalSize = 131075 := by
  have hsecond : twoBlocks.drop 131072 = [1, 2, 3] :=
    List.drop_left' (List.length_replicate ..)
  have hlen : len ≠ 0 := by omega
  simp [readRangeInto, readThrough, fromProbe, ByteCache.newWithInitialBlock,
    ByteCache.copyFromComplete, ByteCache.getBlock, ByteCache.insertBlock, clipped,
    List.lookup_cons, defaultBlockSize, hsecond, h, hlen, -List.reduceReplicate]

/-- Reads of the block of the probe, of what lies behind it up to the end, and across both. -/
theorem reads_exact_twoBlocks :
    ReadsExact twoBlocks (.partialBlock (.replicate defaultBlockSize 0) 131075)
        [⟨0, 3, clipped twoBlocks⟩, ⟨131073, 9, clipped twoBlocks⟩,
          ⟨131070, 4, clipped twoBlocks⟩] ∧
      ∃ src, (fromProbe (.partialBlock (.replicate defaultBlockSize 0) 131075)).readRangeInto
        (clipped twoBlocks) 131073 9 = some (.ok [2, 3], src) := by
  constructor
  · refine reads_exact truthfulProbe_twoBlocks keepsProbe_twoBlocks fun call hcall => ?_
    fin_cases hcall <;> exact clipped_contract twoBlocks
  · obtain ⟨src, hrun, -⟩ := readRangeInto_twoBlocks (show 2 ≤ 9 by decide)
    exact ⟨src, hrun⟩

/-! ## The built-in transport -/

theorem parseContentRange_spec {value : String} {start stop total : Nat}
    (h : parseContentRange value = some (start, stop, total)) : start ≤ stop ∧ stop < total := by
  unfold parseContentRange at h
  simp only at h
  split at h
  next =>
    simp only [Option.bind_eq_bind, Option.bind_eq_some_iff] at h
    obtain ⟨_, _, _, _, _, _, _, _, _, _, hif⟩ := h
    split at hif
    next hle =>
      obtain ⟨rfl, rfl, rfl⟩ := by simpa using hif
      exact hle
    next => cases hif
  next => cases h

/-- What the headers of an accepted answer say. -/
theorem validateRangeResponseHeaders_ok {status : Nat} {contentRange : Option String}
    {start stop total : Nat} {expectedTotal : Option Nat}
    (h : validateRangeResponseHeaders status contentRange start stop expectedTotal = .ok total) :
    status = 206 ∧ contentRange.bind parseContentRange = some (start, stop, total) ∧
      expectedTotal.all (· = total) := by
  unfold validateRangeResponseHeaders at h
  split at h
  next => cases h
  next hstatus =>
    split at h
    next => cases h
    next actualStart actualStop actualTotal hparse =>
      split at h
      next => cases h
      next hmatch =>
        obtain rfl := Except.ok.inj h
        simp only [not_or, not_not] at hmatch
        obtain ⟨rfl, rfl, htotal⟩ := hmatch
        refine ⟨by simpa using hstatus, hparse, ?_⟩
        cases expectedTotal with
        | none => rfl
        | some n => simpa using htotal

theorem validateRangeResponse_ok {status : Nat} {contentRange : Option String}
    {start stop total bodyLen : Nat} {expectedTotal : Option Nat}
    (h : validateRangeResponse status contentRange start stop expectedTotal bodyLen = .ok total) :
    bodyLen = stop - start + 1 ∧
      validateRangeResponseHeaders status contentRange start stop expectedTotal = .ok total := by
  obtain ⟨total', hheaders, h⟩ := Bytes.bind_eq_ok h
  split at h
  next => cases h
  next hlen =>
    obtain rfl := Except.ok.inj h
    exact ⟨by simpa using hlen, hheaders⟩

/-- An accepted answer to a range request. -/
theorem fetchRange_ok {url : String} {server : Server} {start stop : Nat} {total : Option Nat}
    {data : List UInt8} (h : HttpTransport.fetchRange url server start stop total = .ok data) :
    data.length = stop - start + 1 ∧ ∃ resp body size, executeRequest url server = .ok resp ∧
      resp.status = 206 ∧ resp.contentRange.bind parseContentRange = some (start, stop, size) ∧
        resp.body = some body ∧ data = body.take (stop - start + 1 + 1) := by
  unfold HttpTransport.fetchRange at h
  split at h
  next => cases h
  next =>
    obtain ⟨resp, hresp, h⟩ := Bytes.bind_eq_ok h
    obtain ⟨size, hheaders, h⟩ := Bytes.bind_eq_ok h
    obtain ⟨data', hbody, h⟩ := Bytes.bind_eq_ok h
    obtain ⟨_, hvalid, h⟩ := Bytes.bind_eq_ok h
    obtain rfl := Except.ok.inj h
    obtain ⟨hstatus, hparse, -⟩ := validateRangeResponseHeaders_ok hheaders
    refine ⟨(validateRangeResponse_ok hvalid).1, resp, ?_⟩
    unfold readBody at hbody
    split at hbody
    next => cases hbody
    next body hsome =>
      exact ⟨body, size, hresp, hstatus, hparse, hsome, (Except.ok.inj hbody).symm⟩

/-- Whatever the server answers, a range that is delivered is whole. -/
theorem http_keeps (obj : List UInt8) (url : String) (server : Server) :
    Keeps obj (HttpTransport.fetchRange url server) :=
  fun _ _ _ _ _ _ h => (fetchRange_ok h).1

theorem http_keepsProbe {url : String} {server : Server} {p : ProbeResult}
    (h : HttpTransport.probe url server defaultBlockSize = .ok p) : KeepsProbe p := by
  unfold HttpTransport.probe at h
  obtain ⟨resp, hresp, h⟩ := Bytes.bind_eq_ok h
  split at h
  next =>
    split at h
    next => cases h
    next s e parsedTotal hparsed =>
      obtain ⟨_, hheaders, h⟩ := Bytes.bind_eq_ok h
      obtain ⟨data, hbody, h⟩ := Bytes.bind_eq_ok h
      obtain ⟨total, hvalid, h⟩ := Bytes.bind_eq_ok h
      obtain rfl := Except.ok.inj h
      obtain ⟨hlen, hheaders⟩ := validateRangeResponse_ok hvalid
      obtain ⟨-, hparse, -⟩ := validateRangeResponseHeaders_ok hheaders
      rw [hparsed] at hparse
      obtain ⟨-, -, rfl⟩ := by simpa using hparse
      have hpos : 0 < parsedTotal := by
        cases hrange : resp.contentRange with
        | none => rw [hrange] at hparsed; cases hparsed
        | some value =>
            rw [hrange] at hparsed
            have := parseContentRange_spec hparsed
            omega
      have hblock : 0 < defaultBlockSize := Nat.zero_lt_succ _
      show data.length = min defaultBlockSize parsedTotal
      omega
  next =>
    split at h
    next =>
      split at h
      next => cases h
      next =>
        simp only at h
        split at h
        next => cases h
        next =>
          obtain rfl := Except.ok.inj h
          rfl
    next => cases h

/-- The bytes of an answer that claims a range are the object's. -/
def HonestServer (obj : List UInt8) (server : Server) : Prop :=
  ∀ n r, server n = .response r → ∀ body start stop total, r.body = some body →
    r.contentRange.bind parseContentRange = some (start, stop, total) →
      body.take (stop - start + 1) <+: obj.drop start

theorem executeRequest_ok {url : String} {server : Server} {resp : Response}
    (h : executeRequest url server = .ok resp) : ∃ n, server n = .response resp := by
  have hloop : ∀ left, attemptFrom url server left = .ok resp → ∃ n, server n = .response resp := by
    intro left
    induction left with
    | zero =>
        intro h
        rw [attemptFrom] at h
        split at h
        next r hr => exact ⟨_, (Except.ok.inj h) ▸ hr⟩
        next => cases h
    | succ left ih =>
        intro h
        rw [attemptFrom] at h
        split at h
        next r hr => exact ⟨_, (Except.ok.inj h) ▸ hr⟩
        next =>
          split at h
          next => exact ih h
          next => cases h
  exact hloop maxRetries h

theorem http_truthful {obj : List UInt8} (url : String) {server : Server}
    (h : HonestServer obj server) : Truthful obj (HttpTransport.fetchRange url server) := by
  intro start stop total bytes hfetch
  obtain ⟨hlen, resp, body, size, hresp, -, hparse, hbody, rfl⟩ := fetchRange_ok hfetch
  obtain ⟨n, hn⟩ := executeRequest_ok hresp
  have hprefix := h n resp hn body start stop size hbody hparse
  rw [List.length_take] at hlen
  have hshort : body.length ≤ stop - start + 1 := by omega
  rw [List.take_of_length_le hshort] at hprefix
  rwa [List.take_of_length_le (by omega)]

/-- With the built-in transport every read is exact or fails, however the servers behave. -/
theorem http_reads_exact {obj : List UInt8} (url : String) {server : Server} {p : ProbeResult}
    (hprobe : HttpTransport.probe url server defaultBlockSize = .ok p)
    (htruthful : TruthfulProbe obj p) (reads : List (Nat × Nat × Server))
    (hhonest : ∀ r ∈ reads, HonestServer obj r.2.2) :
    ReadsExact obj p
      (reads.map fun r => ⟨r.1, r.2.1, HttpTransport.fetchRange url r.2.2⟩) := by
  refine reads_exact htruthful (http_keepsProbe hprobe) fun call hcall => ?_
  obtain ⟨r, hr, rfl⟩ := List.mem_map.mp hcall
  exact ⟨http_truthful url (hhonest r hr), http_keeps obj url r.2.2⟩

/-! ## A transport that answers short -/

def threeBytes : Fetch := clipped [1, 2, 3]

/-- A first block of one byte in three is taken for whole: a read of all three returns
one byte, and a read of the other two, which fetches them, returns none. -/
theorem short_first_block_read_short :
    runReads (fromProbe (.partialBlock [1] 3)) [⟨0, 3, threeBytes⟩, ⟨1, 2, threeBytes⟩] =
        some ([.ok [1], .ok []], fromProbe (.partialBlock [1] 3)) ∧
      TruthfulProbe [1, 2, 3] (.partialBlock [1] 3) ∧
        ¬ ReadsExact [1, 2, 3] (.partialBlock [1] 3) [⟨0, 3, threeBytes⟩, ⟨1, 2, threeBytes⟩] := by
  have hrun : runReads (fromProbe (.partialBlock [1] 3)) [⟨0, 3, threeBytes⟩, ⟨1, 2, threeBytes⟩] =
      some ([.ok [1], .ok []], fromProbe (.partialBlock [1] 3)) := rfl
  refine ⟨hrun, ⟨rfl, by decide⟩, ?_⟩
  rintro ⟨results, src, hrun', hall, -⟩
  obtain ⟨rfl, rfl⟩ := Prod.mk.inj (Option.some.inj (hrun.symm.trans hrun'))
  cases hall with
  | cons hfirst _ => exact absurd (hfirst [1] rfl) (by decide)

end RasterH3.Raster
