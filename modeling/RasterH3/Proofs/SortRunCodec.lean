import RasterH3.Pmtiles.SortRun

/-!
# What a run file says about where it was cut

A run is a file of records without a header and without a count, so that its end is the only
sign that all of it has been read. Past the latitude of a record every field is framed: the
reader knows how many bytes it wants and fails without them. The latitude is not. A short
read there is how the end of a run looks, so a file cut inside the first eight bytes of a
record reads like one that ends there.

`Framed` says what a framed reader does with a whole encoding and with a proper beginning of
one, and it is closed under doing one after the other. Fields, values, properties and the
body of a record are framed by that rule alone. A value comes back up to the unused bytes of
a short text, which `Same` leaves out.

A run is then read by an induction on its records. `Stops` is what it carries: where the
last whole record before the cut ends, that everything up to there is read, and what comes
of the bytes after it, an error or an end according to how many there are. A record before
the cut passes this on (`Stops.cons`), and the record that the cut falls into begins it
(`Stops.first`); `readFrom_cut` decides that record. `cut_detected_iff` reads the condition
off: a cut that is no boundary is noticed exactly if the record it falls into has kept eight
bytes.
-/

namespace RasterH3.Pmtiles

open Bytes

/-! ## Fields -/

theorem Same.hexStr (bytes : Vector UInt8 16) (len : UInt8) :
    MvtValue.Same (.hexStr bytes len)
      (.hexStr (Vector.ofFn fun i => (hexBytes bytes len).getD i 0) len) := by
  refine ⟨rfl, ?_⟩
  apply List.ext_getElem
  · simp [hexBytes]
  · intro i h h'
    have hi : i < min len.toNat 16 := by
      simp only [hexBytes, List.length_take] at h
      omega
    simp [hexBytes, hi]

theorem fromUtf8_utf8 (s : String) : fromUtf8 (utf8 s) = some s := by
  rw [fromUtf8, utf8, String.fromUTF8?]
  exact dif_pos s.isValidUTF8

theorem readString_framed {s : String} (h : (utf8 s).length < 2 ^ 32) :
    Framed readString (writeLe 4 (utf8 s).length ++ utf8 s) (.string s) := by
  refine (Framed.le h).bind ((Framed.exact rfl).bind_last ?_)
  rw [fromUtf8_utf8]

theorem readHexStr_framed (bytes : Vector UInt8 16) (len : UInt8) :
    Framed readHexStr (writeLe 1 len.toNat ++ hexBytes bytes len)
      (.hexStr (Vector.ofFn fun i => (hexBytes bytes len).getD i 0) len) := by
  have htake : (hexBytes bytes len).length = min len.toNat 16 := by
    simp [hexBytes]
  refine (Framed.le len.toNat_lt).bind ((Framed.exact htake).bind_last ?_)
  rw [UInt8.ofNat_toNat]

/-- One number, whatever it is turned into. -/
theorem Framed.number {w n : Nat} {f : Nat → MvtValue} {v : MvtValue} (h : n < 256 ^ w)
    (hv : f n = v) : Framed (do return f (← readArray w)) (writeLe w n) v := by
  rw [← hv]
  exact (Framed.le h).bind_last rfl

theorem writeLe_tag (tag : Nat) (h : tag < 256) : writeLe 1 tag = [UInt8.ofNat tag] := by
  rw [writeLe, writeLe, Nat.mod_eq_of_lt h]

/-- A value starts with its tag, and the tag tells how the rest is read. -/
theorem writeValue_framed {v : MvtValue} {bytes : List UInt8} (h : writeValue v = .ok bytes) :
    ∃ tag < 256, ∃ tail v', bytes = writeLe 1 tag ++ tail ∧ v.Same v' ∧
      Framed (readValue tag) tail v' := by
  cases v with
  | string s =>
      simp only [writeValue] at h
      split at h
      next hlen =>
        obtain rfl := Except.ok.inj h
        exact ⟨0, by decide, _, .string s, List.append_assoc _ _ _, rfl, readString_framed hlen⟩
      next => cases h
  | hexStr b len =>
      obtain rfl := Except.ok.inj h
      refine ⟨1, by decide, _, _, ?_, Same.hexStr b len, readHexStr_framed b len⟩
      rw [writeLe_tag len.toNat len.toNat_lt, UInt8.ofNat_toNat]
      rfl
  | float bits =>
      obtain rfl := Except.ok.inj h
      exact ⟨2, by decide, _, .float bits, rfl, rfl,
        Framed.number bits.toNat_lt (congrArg _ UInt32.ofNat_toNat)⟩
  | double bits =>
      obtain rfl := Except.ok.inj h
      exact ⟨3, by decide, _, .double bits, rfl, rfl,
        Framed.number bits.toNat_lt (congrArg _ UInt64.ofNat_toNat)⟩
  | int v =>
      obtain rfl := Except.ok.inj h
      exact ⟨4, by decide, _, .int v, rfl, rfl,
        Framed.number v.toBitVec.isLt (congrArg _ (by simp))⟩
  | uint v =>
      obtain rfl := Except.ok.inj h
      exact ⟨5, by decide, _, .uint v, rfl, rfl,
        Framed.number v.toNat_lt (congrArg _ UInt64.ofNat_toNat)⟩
  | bool v =>
      obtain rfl := Except.ok.inj h
      refine ⟨6, by decide, writeLe 1 v.toNat, .bool v, ?_, rfl, ?_⟩
      · cases v <;> rfl
      · exact Framed.number (by cases v <;> decide) (by cases v <;> rfl)

theorem readProperty_framed {key : UInt16} {v' : MvtValue} {tag : Nat} {tail : List UInt8}
    (htag : tag < 256) (h : Framed (readValue tag) tail v') :
    Framed readProperty (writeLe 2 key.toNat ++ (writeLe 1 tag ++ tail)) (key, v') := by
  refine (Framed.le key.toNat_lt).bind ((Framed.le htag).bind (h.bind_last ?_))
  rw [UInt16.ofNat_toNat]

theorem writeProperties_framed {properties : List (UInt16 × MvtValue)} {bytes : List UInt8}
    (h : writeProperties properties = .ok bytes) :
    ∃ properties', List.Forall₂ (fun p p' => p.1 = p'.1 ∧ p.2.Same p'.2) properties properties' ∧
      Framed (Reader.repeated readProperty properties.length) bytes properties' := by
  induction properties generalizing bytes with
  | nil =>
      obtain rfl := Except.ok.inj h
      exact ⟨[], .nil, Framed.repeated_nil _⟩
  | cons p properties ih =>
      obtain ⟨key, value⟩ := p
      rw [writeProperties] at h
      cases hvalue : writeValue value with
      | error e => rw [hvalue] at h; cases h
      | ok valueBytes =>
      cases hrest : writeProperties properties with
      | error e => rw [hvalue, hrest] at h; cases h
      | ok rest =>
      rw [hvalue, hrest] at h
      obtain rfl := Except.ok.inj h
      obtain ⟨tag, htag, tail, v', rfl, hsame, hread⟩ := writeValue_framed hvalue
      obtain ⟨properties', hall, hframed⟩ := ih hrest
      exact ⟨(key, v') :: properties', .cons ⟨rfl, hsame⟩ hall,
        (readProperty_framed htag hread).repeated_cons hframed⟩

/-! ## Records -/

/-- A record is its latitude and a framed body. -/
theorem write_framed {r : SortRecord} {bytes : List UInt8} (h : r.write = .ok bytes) :
    ∃ body r', bytes = writeLe 8 r.lat.toNat ++ body ∧ r.Same r' ∧
      Framed (readBody r.lat) body r' := by
  rw [SortRecord.write] at h
  split at h
  next hcount =>
    cases hp : writeProperties r.properties with
    | error e => rw [hp] at h; cases h
    | ok tail =>
    rw [hp] at h
    obtain rfl := Except.ok.inj h
    obtain ⟨properties', hall, hframed⟩ := writeProperties_framed hp
    refine ⟨writeFin64 r.h3Index ++ (writeLe 2 r.properties.length ++ tail),
      ⟨r.lat, r.h3Index, properties'⟩, by simp only [List.append_assoc], ⟨rfl, rfl, hall⟩, ?_⟩
    have hcell : Fin.ofNat (2 ^ 64) r.h3Index.val = r.h3Index :=
      Fin.ext (Nat.mod_eq_of_lt r.h3Index.isLt)
    refine (Framed.le r.h3Index.isLt).bind ((Framed.le hcount).bind (hframed.bind_last ?_))
    rw [hcell]
  next => cases h

theorem readArray_lat (lat : UInt64) (rest : List UInt8) :
    readArray 8 (writeLe 8 lat.toNat ++ rest) = .ok (lat.toNat, rest) :=
  (Framed.le lat.toNat_lt).whole rest

theorem readFrom_lat (lat : UInt64) (rest : List UInt8) :
    readFrom (writeLe 8 lat.toNat ++ rest) =
      (readBody lat rest >>= fun out => .ok (some out.1, out.2)) := by
  rw [readFrom, readArray_lat]
  show ((readBody (UInt64.ofNat lat.toNat)) rest >>= _) = _
  rw [UInt64.ofNat_toNat]
  rfl

theorem readFrom_short {input : List UInt8} (h : input.length < 8) :
    readFrom input = .ok (none, []) := by
  rw [readFrom, readArray, Reader.le, Framed.readLe_none h]

theorem readFrom_whole {r : SortRecord} {bytes : List UInt8} (h : r.write = .ok bytes) :
    ∃ r', r.Same r' ∧ ∀ rest, readFrom (bytes ++ rest) = .ok (some r', rest) := by
  obtain ⟨body, r', rfl, hsame, hframed⟩ := write_framed h
  refine ⟨r', hsame, fun rest => ?_⟩
  rw [List.append_assoc, readFrom_lat, hframed.whole]
  rfl

/-- Only a cut inside the latitude goes unnoticed. -/
theorem readFrom_cut {r : SortRecord} {bytes p : List UInt8} (h : r.write = .ok bytes)
    (hp : p <+: bytes) (hne : p ≠ bytes) (hlen : 8 ≤ p.length) : ∃ e, readFrom p = .error e := by
  obtain ⟨body, r', rfl, -, hframed⟩ := write_framed h
  rcases prefix_append_cases hp hne with ⟨hp, hne⟩ | ⟨q, rfl, hq, hne⟩
  · have hle := hp.length_le
    have hlt : p.length ≠ (writeLe 8 r.lat.toNat).length := fun heq => hne (hp.eq_of_length heq)
    rw [Bytes.length_writeLe] at hle hlt
    omega
  · obtain ⟨e, he⟩ := hframed.cut q hq hne
    exact ⟨e, by rw [readFrom_lat, he]; rfl⟩

/-! ## Runs -/

theorem writeRun_cons {r : SortRecord} {records : List SortRecord} {file : List UInt8}
    (h : writeRun (r :: records) = .ok file) :
    ∃ bytes rest, r.write = .ok bytes ∧ writeRun records = .ok rest ∧ file = bytes ++ rest := by
  rw [writeRun] at h
  cases hr : r.write with
  | error e => rw [hr] at h; cases h
  | ok bytes =>
  cases hrest : writeRun records with
  | error e => rw [hr, hrest] at h; cases h
  | ok rest =>
  rw [hr, hrest] at h
  exact ⟨bytes, rest, rfl, rfl, (Except.ok.inj h).symm⟩

/-- The number of bytes of the first records, for some number of them. -/
def Boundary (records : List SortRecord) (n : Nat) : Prop :=
  ∃ k bytes, writeRun (records.take k) = .ok bytes ∧ bytes.length = n

/-- What reading the beginning `p` of a run should give: records of the run, and
then an error. -/
def DetectsCut (records : List SortRecord) (p : List UInt8) : Prop :=
  ∃ k read e, readFile p = (read, some e) ∧ List.Forall₂ SortRecord.Same (records.take k) read

theorem not_detectsCut {records : List SortRecord} {p : List UInt8} (h : (readFile p).2 = none) :
    ¬DetectsCut records p := by
  rintro ⟨k, read, e, hread, -⟩
  rw [hread] at h
  cases h

/-- Where the last whole record ends, what is read up to there, and what comes of
the bytes after it. -/
structure Stops (records : List SortRecord) (p : List UInt8)
    (out : List SortRecord × Option RunError) (n : Nat) : Prop where
  boundary : Boundary records n
  le : n ≤ p.length
  last : ∀ m, Boundary records m → m ≤ p.length → m ≤ n
  read : ∃ k, List.Forall₂ SortRecord.Same (records.take k) out.1
  ended : p.length < n + 8 → out.2 = none
  failed : n + 8 ≤ p.length → out.2 ≠ none

theorem boundary_zero (records : List SortRecord) : Boundary records 0 := ⟨0, [], rfl, rfl⟩

theorem boundary_cons {r : SortRecord} {records : List SortRecord} {bytes : List UInt8} {m : Nat}
    (hr : r.write = .ok bytes) :
    Boundary (r :: records) m ↔ m = 0 ∨ ∃ m', Boundary records m' ∧ m = bytes.length + m' := by
  constructor
  · rintro ⟨k, all, hall, rfl⟩
    cases k with
    | zero =>
        obtain rfl := Except.ok.inj hall
        exact .inl rfl
    | succ k =>
        obtain ⟨bytes', rest, hr', hrest, rfl⟩ := writeRun_cons hall
        obtain rfl : bytes = bytes' := Except.ok.inj (hr.symm.trans hr')
        exact .inr ⟨rest.length, ⟨k, rest, hrest, rfl⟩, List.length_append⟩
  · rintro (rfl | ⟨m', ⟨k, rest, hrest, rfl⟩, rfl⟩)
    · exact boundary_zero _
    · refine ⟨k + 1, bytes ++ rest, ?_, List.length_append⟩
      rw [List.take_succ_cons, writeRun, hr, hrest]
      rfl

theorem readRun_some {rounds : Nat} {input rest : List UInt8} {record : SortRecord}
    (h : readFrom input = .ok (some record, rest)) :
    readRun (rounds + 1) input = (record :: (readRun rounds rest).1, (readRun rounds rest).2) := by
  rw [readRun, h]

theorem eight_le_length {r : SortRecord} {bytes : List UInt8} (h : r.write = .ok bytes) :
    8 ≤ bytes.length := by
  obtain ⟨body, -, rfl, -, -⟩ := write_framed h
  rw [List.length_append, Bytes.length_writeLe]
  omega

theorem readRun_nil (rounds : Nat) : readRun rounds [] = ([], none) := by
  cases rounds with
  | zero => rfl
  | succ rounds => rw [readRun, readFrom_short (by decide)]

theorem readRun_whole {records : List SortRecord} {file : List UInt8} {rounds : Nat}
    (h : writeRun records = .ok file) (hrounds : file.length < rounds) :
    ∃ read, readRun rounds file = (read, none) ∧ List.Forall₂ SortRecord.Same records read := by
  induction records generalizing file rounds with
  | nil =>
      obtain rfl := Except.ok.inj h
      exact ⟨[], readRun_nil rounds, .nil⟩
  | cons r records ih =>
      obtain ⟨bytes, rest, hr, hrest, rfl⟩ := writeRun_cons h
      obtain ⟨r', hsame, hread⟩ := readFrom_whole hr
      have hpos := eight_le_length hr
      rw [List.length_append] at hrounds
      cases rounds with
      | zero => omega
      | succ rounds =>
          obtain ⟨read, hout, hall⟩ := ih hrest (show rest.length < rounds by omega)
          exact ⟨r' :: read, by rw [readRun_some (hread rest), hout], .cons hsame hall⟩

/-- A whole record before the cut is read, and the cut lies in the records after it. -/
theorem Stops.cons {r r' : SortRecord} {records : List SortRecord} {bytes q : List UInt8}
    {out : List SortRecord × Option RunError} {n : Nat} (hr : r.write = .ok bytes)
    (hsame : r.Same r') (h : Stops records q out n) :
    Stops (r :: records) (bytes ++ q) (r' :: out.1, out.2) (bytes.length + n) where
  boundary := (boundary_cons hr).mpr (.inr ⟨n, h.boundary, rfl⟩)
  le := by
    have := h.le
    rw [List.length_append]
    omega
  last := fun m hm hle => by
    rw [List.length_append] at hle
    rcases (boundary_cons hr).mp hm with rfl | ⟨m', hm', rfl⟩
    · exact Nat.zero_le _
    · have := h.last m' hm' (by omega)
      omega
  read := by
    obtain ⟨k, hk⟩ := h.read
    exact ⟨k + 1, .cons hsame hk⟩
  ended := fun hlt => h.ended (by rw [List.length_append] at hlt; omega)
  failed := fun hle => h.failed (by rw [List.length_append] at hle; omega)

/-- The cut lies in the first record. -/
theorem Stops.first {r : SortRecord} {records : List SortRecord} {bytes p : List UInt8}
    {out : List SortRecord × Option RunError} (hr : r.write = .ok bytes)
    (hlt : p.length < bytes.length) (hnil : out.1 = []) (hended : p.length < 8 → out.2 = none)
    (hfailed : 8 ≤ p.length → out.2 ≠ none) : Stops (r :: records) p out 0 where
  boundary := boundary_zero _
  le := Nat.zero_le _
  last := fun m hm hle => by
    rcases (boundary_cons hr).mp hm with rfl | ⟨m', -, rfl⟩ <;> omega
  read := ⟨0, by rw [hnil]; exact .nil⟩
  ended := fun h => hended (by omega)
  failed := fun h => hfailed (by omega)

theorem readRun_stops {records : List SortRecord} {file p : List UInt8} {rounds : Nat}
    (h : writeRun records = .ok file) (hp : p <+: file) (hrounds : p.length < rounds) :
    ∃ n, Stops records p (readRun rounds p) n := by
  induction records generalizing file p rounds with
  | nil =>
      obtain rfl := Except.ok.inj h
      obtain rfl := List.prefix_nil.mp hp
      refine ⟨0, boundary_zero _, Nat.le_refl _, fun m _ hm => hm, ⟨0, ?_⟩, ?_, ?_⟩
      · rw [readRun_nil]
        exact .nil
      · rw [readRun_nil]
        exact fun _ => rfl
      · exact fun hle => absurd hle (by decide)
  | cons r records ih =>
      obtain ⟨bytes, rest, hr, hrest, rfl⟩ := writeRun_cons h
      have hpos := eight_le_length hr
      cases rounds with
      | zero => omega
      | succ rounds =>
      by_cases hwhole : bytes <+: p
      · obtain ⟨q, rfl⟩ := hwhole
        obtain ⟨r', hsame, hread⟩ := readFrom_whole hr
        rw [List.length_append] at hrounds
        obtain ⟨n, hn⟩ := ih hrest ((List.prefix_append_right_inj bytes).mp hp)
          (show q.length < rounds by omega)
        exact ⟨bytes.length + n, by rw [readRun_some (hread q)]; exact hn.cons hr hsame⟩
      · have hcut : p <+: bytes :=
          (List.prefix_or_prefix_of_prefix hp (List.prefix_append _ _)).resolve_right hwhole
        have hne : p ≠ bytes := fun heq => hwhole (heq ▸ List.prefix_refl _)
        have hlt : p.length < bytes.length :=
          Nat.lt_of_le_of_ne hcut.length_le fun heq => hne (hcut.eq_of_length heq)
        refine ⟨0, ?_⟩
        by_cases hlen : p.length < 8
        · rw [readRun, readFrom_short hlen]
          exact .first hr hlt rfl (fun _ => rfl) (fun hle => absurd hle (by omega))
        · obtain ⟨e, he⟩ := readFrom_cut hr hcut hne (by omega)
          rw [readRun, he]
          exact .first hr hlt rfl (fun h => absurd h hlen) (fun _ => by simp)

/-- A run file reads back as written, and a file cut inside a record is noticed
exactly when the cut leaves the latitude of that record whole. -/
theorem cut_detected_iff {records : List SortRecord} {file : List UInt8}
    (h : writeRun records = .ok file) :
    (∃ read, readFile file = (read, none) ∧ List.Forall₂ SortRecord.Same records read) ∧
      ∀ cut < file.length, ¬Boundary records cut →
        (DetectsCut records (file.take cut) ↔
          ∀ n, Boundary records n → n ≤ cut → n + 8 ≤ cut) := by
  refine ⟨readRun_whole h (Nat.lt_succ_self _), fun cut hcut _ => ?_⟩
  have hlen : (file.take cut).length = cut := by
    rw [List.length_take]
    omega
  obtain ⟨n, hn⟩ := readRun_stops h (List.take_prefix cut file) (Nat.lt_succ_self _)
  have hle : n ≤ cut := hlen ▸ hn.le
  constructor
  · intro hdetects m hm hmle
    by_contra hlt
    have hmn := hn.last m hm (by omega)
    exact not_detectsCut (hn.ended (by omega)) hdetects
  · intro hfar
    have hfailed := hn.failed (by rw [hlen]; exact hfar n hn.boundary hle)
    obtain ⟨k, hk⟩ := hn.read
    cases hout : readRun ((file.take cut).length + 1) (file.take cut) with
    | mk read last =>
      rw [hout] at hfailed hk
      cases last with
      | none => exact absurd rfl hfailed
      | some e => exact ⟨k, read, e, hout, hk⟩

/-- Two cells at 50 and 49 degrees north, with a count on the first. -/
def twoCells : List SortRecord :=
  [⟨0x4049000000000000, 0x8a1fb46622dffff, [(0, .uint 7)]⟩,
    ⟨0x4048800000000000, 0x8a1fb46622e7fff, []⟩]

theorem boundary_twoCells {m : Nat} (h : Boundary twoCells m) : m = 0 ∨ m = 29 ∨ m = 47 := by
  have hnil : ∀ {n}, Boundary [] n → n = 0 := by
    rintro n ⟨k, bytes, hbytes, rfl⟩
    rw [List.take_nil] at hbytes
    rw [← Except.ok.inj hbytes, List.length_nil]
  rcases (boundary_cons rfl).mp h with h | ⟨m', h', rfl⟩
  · exact .inl h
  · rcases (boundary_cons rfl).mp h' with rfl | ⟨m'', h'', rfl⟩
    · exact .inr (.inl rfl)
    · obtain rfl := hnil h''
      exact .inr (.inr rfl)

theorem cut_detected_in_second_cell : ∃ file, writeRun twoCells = .ok file ∧ file.length = 47 ∧
    DetectsCut twoCells (file.take 37) := by
  refine ⟨_, rfl, rfl, ((cut_detected_iff rfl).2 37 (by decide) fun h => ?_).mpr ?_⟩
  · have := boundary_twoCells h
    omega
  · intro n h
    have := boundary_twoCells h
    omega

/-- Three bytes into the second cell, the run reads as one that ends after the first. -/
theorem cut_in_latitude_reads_as_end : ∃ file, writeRun twoCells = .ok file ∧ 32 < file.length ∧
    ¬Boundary twoCells 32 ∧ readFile (file.take 32) = (twoCells.take 1, none) ∧
    ¬DetectsCut twoCells (file.take 32) := by
  refine ⟨_, rfl, by decide, fun h => ?_, by decide +kernel, not_detectsCut (by decide +kernel)⟩
  have := boundary_twoCells h
  omega

end RasterH3.Pmtiles
