import RasterH3.Pmtiles.Archive

/-!
# Directories read back

A directory lists tiles by their number: where the contents of each lie in the file, how
long they are, and over how many tiles the entry runs. It is written in columns, the numbers
as differences and the offsets as zero where an entry follows the one before it, and read
back column by column; that is one lemma per column and one for putting the entries together
again (`assemble_columns`), with what the reader knows of the entry before as the state of
the induction.

A root directory must fit into the first bytes of a file. A large one is split into leaves,
and the root points at them. The leaves are made larger until the root is small enough, so
that the statements are about leaves of any size (`Leaves`) and only the last step of them
about the loop.

What a lookup finds is then a fact about sorted lists. In a directory of runs of length one,
the last entry not after the tile is the tile's own entry or none of its business
(`findTile_eq_find?`), and in a root of pointers it is the leaf that would hold the tile,
because the pointers have the first numbers of their leaves and these ascend throughout
(`lastNotAfter_leafDirectories`). `lookup_buildDirectories` says the same of a directory
with leaves and of one without. All fields have to fit in their machine integers, and the
sizes of the leaves in 32 bits, which the number of tiles bounds.
-/

namespace RasterH3.Pmtiles

open Bytes

/-! ## Ranges of bytes -/

theorem slice_append_left {a : List UInt8} (b : List UInt8) {offset length : Nat}
    (h : offset + length ≤ a.length) : slice (a ++ b) offset length = slice a offset length := by
  unfold slice
  rw [if_pos h, if_pos (by rw [List.length_append]; omega), List.drop_append_of_le_length (by omega),
    List.take_append_of_le_length (by rw [List.length_drop]; omega)]

theorem slice_append_right (a b : List UInt8) (offset length : Nat) :
    slice (a ++ b) (a.length + offset) length = slice b offset length := by
  unfold slice
  rw [List.length_append, List.drop_append]
  have hdrop : a.drop (a.length + offset) = [] := List.drop_eq_nil_of_le (by omega)
  rw [hdrop, List.nil_append, Nat.add_sub_cancel_left]
  by_cases h : offset + length ≤ b.length
  · rw [if_pos h, if_pos (by omega)]
  · rw [if_neg h, if_neg (by omega)]

theorem slice_whole (a b : List UInt8) : slice (a ++ b) 0 a.length = some a := by
  rw [slice, if_pos (by rw [List.length_append]; omega), List.drop_zero,
    List.take_left' rfl]

theorem length_of_slice {bytes out : List UInt8} {offset length : Nat}
    (h : slice bytes offset length = some out) :
    out.length = length ∧ offset + length ≤ bytes.length := by
  unfold slice at h
  split at h
  next hle =>
    obtain rfl := Option.some.inj h
    refine ⟨?_, hle⟩
    rw [List.length_take, List.length_drop]
    omega
  next => cases h

/-! ## Columns -/

theorem readVarints_flatMap (vs : List Nat) (rest : List UInt8) :
    readVarints vs.length (vs.flatMap writeVarint ++ rest) = some (vs, rest) := by
  induction vs with
  | nil => rfl
  | cons v vs ih =>
      rw [List.length_cons, readVarints, List.flatMap_cons, List.append_assoc,
        readVarint_writeVarint]
      simp [ih]

@[simp] theorem length_idDeltas (last : Nat) (es : List Entry) :
    (idDeltas last es).length = es.length := by
  induction es generalizing last with
  | nil => rfl
  | cons e es ih => simp [idDeltas, ih]

@[simp] theorem length_offsetCodes (prev : Option Entry) (es : List Entry) :
    (offsetCodes prev es).length = es.length := by
  induction es generalizing prev with
  | nil => rfl
  | cons e es ih => simp [offsetCodes, ih]

/-- What the reader knows of the entry before. -/
def extent (e : Entry) : Nat × Nat := (e.offset, e.length)

@[simp] theorem offsetFrom_offsetCode (prev : Option Entry) (e : Entry) :
    offsetFrom (prev.map extent) (offsetCode prev e) = some e.offset := by
  cases prev with
  | none => simp [offsetFrom, offsetCode]
  | some p =>
      rw [offsetCode]
      split
      next heq => simp [offsetFrom, extent, heq]
      next => simp [offsetFrom]

theorem assemble_columns {last : Nat} {prev : Option Entry} {es : List Entry}
    (hlast : ∀ e ∈ es, last ≤ e.tileId)
    (hsorted : es.Pairwise fun e e' => e.tileId ≤ e'.tileId) :
    assemble last (prev.map extent) (idDeltas last es) (es.map Entry.runLength)
      (es.map Entry.length) (offsetCodes prev es) = some es := by
  induction es generalizing last prev with
  | nil => rfl
  | cons e es ih =>
      obtain ⟨hfirst, hrest⟩ := List.pairwise_cons.mp hsorted
      have hid : last + (e.tileId - last) = e.tileId := by
        have := hlast e List.mem_cons_self
        omega
      have ih := @ih e.tileId (some e) hfirst hrest
      rw [offsetCodes, idDeltas, List.map_cons, List.map_cons, assemble, hid, offsetFrom_offsetCode]
      simp only [Option.map_some, extent] at ih
      simp [ih]

theorem decodeDirectory_encodeDirectory (gz : Gzip) {es : List Entry}
    (hsorted : es.Pairwise fun e e' => e.tileId ≤ e'.tileId) :
    decodeDirectory gz (encodeDirectory gz es) = some es := by
  have hdeltas := readVarints_flatMap (idDeltas 0 es)
  have hruns := readVarints_flatMap (es.map Entry.runLength)
  have hlengths := readVarints_flatMap (es.map Entry.length)
  have hoffsets := readVarints_flatMap (offsetCodes none es)
  simp only [length_idDeltas, length_offsetCodes, List.length_map] at hdeltas hruns hlengths hoffsets
  have hoffsets := hoffsets []
  rw [List.append_nil] at hoffsets
  have hassemble := @assemble_columns 0 none es (fun e _ => Nat.zero_le _) hsorted
  rw [Option.map_none] at hassemble
  simp [decodeDirectory, encodeDirectory, gz.lossless, directoryBytes, readVarint_writeVarint,
    hdeltas, hruns, hlengths, hoffsets, hassemble]

/-! ## Sizes -/

theorem length_writeVarint_le {k n : Nat} (h : n < 128 ^ (k + 1)) :
    (writeVarint n).length ≤ k + 1 := by
  induction k generalizing n with
  | zero =>
      rw [writeVarint, dif_pos (by simpa using h)]
      exact le_rfl
  | succ k ih =>
      rw [writeVarint]
      split
      next => simp
      next =>
        have hdiv : n / 128 < 128 ^ (k + 1) := by
          rw [Nat.div_lt_iff_lt_mul (by decide), ← Nat.pow_succ]
          exact h
        have := ih hdiv
        rw [List.length_cons]
        omega

theorem length_flatMap_writeVarint_le {vs : List Nat} (h : ∀ v ∈ vs, v ≤ 2 ^ 64) :
    (vs.flatMap writeVarint).length ≤ 10 * vs.length := by
  induction vs with
  | nil => simp
  | cons v vs ih =>
      have hv : v < 128 ^ (9 + 1) := by
        have := h v List.mem_cons_self
        omega
      have hhead := length_writeVarint_le hv
      have htail := ih fun v' hv' => h v' (List.mem_cons_of_mem v hv')
      rw [List.flatMap_cons, List.length_append, List.length_cons]
      omega

/-- The fields of an entry fit in their machine integers. -/
structure Entry.Fits (e : Entry) : Prop where
  tileId : e.tileId < 2 ^ 64
  offset : e.offset < 2 ^ 64
  length : e.length < 2 ^ 32
  runLength : e.runLength ≤ 1

theorem idDeltas_le {last : Nat} {es : List Entry} (h : ∀ e ∈ es, e.Fits) :
    ∀ d ∈ idDeltas last es, d ≤ 2 ^ 64 := by
  induction es generalizing last with
  | nil => simp [idDeltas]
  | cons e es ih =>
      have he := (h e List.mem_cons_self).tileId
      have htail := @ih e.tileId fun e' he' => h e' (List.mem_cons_of_mem e he')
      rw [idDeltas]
      intro d hd
      rcases List.mem_cons.mp hd with rfl | hd
      · omega
      · exact htail d hd

theorem offsetCodes_le {prev : Option Entry} {es : List Entry} (h : ∀ e ∈ es, e.Fits) :
    ∀ o ∈ offsetCodes prev es, o ≤ 2 ^ 64 := by
  induction es generalizing prev with
  | nil => simp [offsetCodes]
  | cons e es ih =>
      have he := (h e List.mem_cons_self).offset
      have htail := @ih (some e) fun e' he' => h e' (List.mem_cons_of_mem e he')
      rw [offsetCodes]
      intro o ho
      rcases List.mem_cons.mp ho with rfl | ho
      · cases prev with
        | none => exact he
        | some p =>
            rw [offsetCode]
            split <;> omega
      · exact htail o ho

theorem length_encodeDirectory_le (gz : Gzip) {es : List Entry} (h : ∀ e ∈ es, e.Fits)
    (hlen : es.length ≤ maxEntriesPerLeaf) :
    (encodeDirectory gz es).length ≤ 2 * (10 + 40 * es.length) + 64 := by
  have hcount := length_writeVarint_le (k := 9) (n := es.length) (by
    have : maxEntriesPerLeaf < 128 ^ (9 + 1) := by decide
    omega)
  have hdeltas := length_flatMap_writeVarint_le (@idDeltas_le 0 es h)
  have hruns := @length_flatMap_writeVarint_le (es.map Entry.runLength) (by
    intro v hv
    obtain ⟨e, he, rfl⟩ := List.mem_map.mp hv
    have := (h e he).runLength
    omega)
  have hlengths := @length_flatMap_writeVarint_le (es.map Entry.length) (by
    intro v hv
    obtain ⟨e, he, rfl⟩ := List.mem_map.mp hv
    have := (h e he).length
    omega)
  have hoffsets := length_flatMap_writeVarint_le (@offsetCodes_le none es h)
  have hbound := gz.bound (directoryBytes es)
  simp only [length_idDeltas, length_offsetCodes, List.length_map] at *
  rw [directoryBytes] at hbound
  simp only [List.length_append] at hbound
  rw [encodeDirectory, directoryBytes]
  omega

theorem length_encodeDirectory_lt (gz : Gzip) {es : List Entry} (h : ∀ e ∈ es, e.Fits)
    (hlen : es.length ≤ maxEntriesPerLeaf) : (encodeDirectory gz es).length < 2 ^ 32 := by
  have hle := length_encodeDirectory_le gz h hlen
  rw [maxEntriesPerLeaf] at hlen
  omega

/-- A directory of a few tiles is not split. -/
theorem buildDirectories_of_few (gz : Gzip) {es : List Entry} (h : ∀ e ∈ es, e.Fits)
    (hlen : es.length ≤ 200) : buildDirectories gz es = (encodeDirectory gz es, []) := by
  have hmax : es.length ≤ maxEntriesPerLeaf := by
    rw [maxEntriesPerLeaf]
    omega
  have hle := length_encodeDirectory_le gz h hmax
  have hroot : (encodeDirectory gz es).length ≤ maxRootBytes := by
    rw [maxRootBytes]
    omega
  rw [buildDirectories, if_pos hmax]
  exact if_pos hroot

/-! ## The last entry not after a tile -/

theorem mem_of_lastNotAfter {tileId : Nat} {es : List Entry} {e : Entry}
    (h : lastNotAfter tileId es = some e) : e ∈ es ∧ e.tileId ≤ tileId := by
  induction es with
  | nil => cases h
  | cons e' es ih =>
      rw [lastNotAfter] at h
      split at h
      next found =>
        have := ih (found.trans h)
        exact ⟨List.mem_cons_of_mem e' this.1, this.2⟩
      next =>
        split at h
        next hle =>
          obtain rfl := Option.some.inj h
          exact ⟨List.mem_cons_self, hle⟩
        next => cases h

theorem lastNotAfter_eq_none {tileId : Nat} {es : List Entry} (h : ∀ e ∈ es, tileId < e.tileId) :
    lastNotAfter tileId es = none := by
  cases hlast : lastNotAfter tileId es with
  | none => rfl
  | some e =>
      obtain ⟨hmem, hle⟩ := mem_of_lastNotAfter hlast
      have := h e hmem
      omega

abbrev Ascending (es : List Entry) : Prop := es.Pairwise fun e e' => e.tileId < e'.tileId

theorem lastNotAfter_of_mem {es : List Entry} (hsorted : Ascending es) {e : Entry} (he : e ∈ es) :
    lastNotAfter e.tileId es = some e := by
  induction es with
  | nil => cases he
  | cons e' es ih =>
      obtain ⟨hfirst, hrest⟩ := List.pairwise_cons.mp hsorted
      rw [lastNotAfter]
      rcases List.mem_cons.mp he with rfl | he
      · rw [lastNotAfter_eq_none hfirst]
        simp
      · rw [ih hrest he]

/-- In a directory of single tiles the search finds the tile's entry or nothing. -/
theorem findTile_eq_find? {es : List Entry} (hsorted : Ascending es)
    (hruns : ∀ e ∈ es, e.runLength = 1) (tileId : Nat) :
    findTile es tileId = es.find? fun e => e.tileId = tileId := by
  cases hfind : es.find? (fun e => e.tileId = tileId) with
  | some e =>
      obtain rfl : e.tileId = tileId := by simpa using List.find?_some hfind
      have hmem := List.mem_of_find?_eq_some hfind
      rw [findTile, lastNotAfter_of_mem hsorted hmem]
      simp [hruns e hmem]
  | none =>
      rw [List.find?_eq_none] at hfind
      cases hlast : lastNotAfter tileId es with
      | none =>
          rw [findTile, hlast]
          rfl
      | some e =>
          obtain ⟨hmem, hle⟩ := mem_of_lastNotAfter hlast
          have hne : e.tileId ≠ tileId := by simpa using hfind e hmem
          rw [findTile, hlast]
          simp only [Option.bind_eq_bind, Option.bind_some, hruns e hmem]
          rw [if_neg (by omega)]

/-! ## Leaves -/

theorem flatten_chunks {α : Type} (n : Nat) (xs : List α) : (chunks n xs).flatten = xs := by
  induction xs using chunks.induct n with
  | case1 => simp [chunks]
  | case2 x xs ih => rw [chunks, List.flatten_cons, ih, List.cons_append, List.take_append_drop]

theorem length_le_of_mem_chunks {α : Type} {n : Nat} (hn : 0 < n) {xs c : List α}
    (h : c ∈ chunks n xs) : c.length ≤ n := by
  induction xs using chunks.induct n with
  | case1 => simp [chunks] at h
  | case2 x xs ih =>
      rw [chunks] at h
      rcases List.mem_cons.mp h with rfl | h
      · rw [List.length_cons, List.length_take]
        omega
      · exact ih h

theorem ne_nil_of_mem_chunks {α : Type} {n : Nat} {xs c : List α} (h : c ∈ chunks n xs) :
    c ≠ [] := by
  induction xs using chunks.induct n with
  | case1 => simp [chunks] at h
  | case2 x xs ih =>
      rw [chunks] at h
      rcases List.mem_cons.mp h with rfl | h
      · exact List.cons_ne_nil _ _
      · exact ih h

/-- What the leaf directories are made from: chunks that are not empty, whose encodings
fit in 32 bits and whose entries ascend throughout. -/
structure Leaves (gz : Gzip) (cs : List (List Entry)) : Prop where
  nonempty : ∀ c ∈ cs, c ≠ []
  short : ∀ c ∈ cs, (encodeDirectory gz c).length < 2 ^ 32
  ascending : Ascending cs.flatten

namespace Leaves

theorem tail {gz : Gzip} {c : List Entry} {cs : List (List Entry)} (h : Leaves gz (c :: cs)) :
    Leaves gz cs where
  nonempty := fun c' hc' => h.nonempty c' (List.mem_cons_of_mem c hc')
  short := fun c' hc' => h.short c' (List.mem_cons_of_mem c hc')
  ascending := (List.pairwise_append.mp h.ascending).2.1

end Leaves

structure PointsAt (gz : Gzip) (leaves : List UInt8) (offset : Nat) (p : Entry)
    (c : List Entry) : Prop where
  runLength : p.runLength = 0
  head : ∃ e es, c = e :: es ∧ p.tileId = e.tileId
  after : offset ≤ p.offset
  bytes : slice leaves (p.offset - offset) p.length = some (encodeDirectory gz c)

/-- A pointer stays right when a leaf is put in front. -/
theorem PointsAt.cons {gz : Gzip} {leaves front : List UInt8} {offset : Nat} {p : Entry}
    {c : List Entry} (h : PointsAt gz leaves (offset + front.length) p c) :
    PointsAt gz (front ++ leaves) offset p c where
  runLength := h.runLength
  head := h.head
  after := (Nat.le_add_right _ _).trans h.after
  bytes := by
    have hafter := h.after
    rw [show p.offset - offset = front.length + (p.offset - (offset + front.length)) by omega,
      slice_append_right]
    exact h.bytes

/-- The pointers and leaves of a first chunk and of the rest. -/
theorem leafDirectories_cons {gz : Gzip} {c : List Entry} {cs : List (List Entry)}
    (h : Leaves gz (c :: cs)) (offset : Nat) :
    ∃ p, (leafDirectories gz offset (c :: cs)).1 =
        p :: (leafDirectories gz (offset + (encodeDirectory gz c).length) cs).1 ∧
      (leafDirectories gz offset (c :: cs)).2 = encodeDirectory gz c ++
        (leafDirectories gz (offset + (encodeDirectory gz c).length) cs).2 ∧
      ∀ leaves, PointsAt gz (encodeDirectory gz c ++ leaves) offset p c := by
  have hmod := Nat.mod_eq_of_lt (h.short c List.mem_cons_self)
  refine ⟨⟨(c.map Entry.tileId).headD 0, offset, (encodeDirectory gz c).length, 0⟩, ?_, ?_, ?_⟩
  · simp only [leafDirectories, hmod]
  · simp only [leafDirectories, hmod]
  · intro leaves
    refine ⟨rfl, ?_, le_rfl, ?_⟩
    · cases c with
      | nil => exact absurd rfl (h.nonempty [] List.mem_cons_self)
      | cons e es => exact ⟨e, es, rfl, rfl⟩
    · rw [Nat.sub_self]
      exact slice_whole _ _

theorem leafDirectories_mem {gz : Gzip} {cs : List (List Entry)} (h : Leaves gz cs)
    (offset : Nat) : ∀ p ∈ (leafDirectories gz offset cs).1, ∃ c ∈ cs,
      PointsAt gz (leafDirectories gz offset cs).2 offset p c := by
  induction cs generalizing offset with
  | nil => simp [leafDirectories]
  | cons c cs ih =>
      obtain ⟨p₀, hpointers, hbytes, hpoints⟩ := leafDirectories_cons h offset
      rw [hpointers, hbytes]
      intro p hp
      rcases List.mem_cons.mp hp with rfl | hp
      · exact ⟨c, List.mem_cons_self, hpoints _⟩
      · obtain ⟨c', hc', hpoint⟩ := ih h.tail _ p hp
        exact ⟨c', List.mem_cons_of_mem c hc', hpoint.cons⟩

/-- The ids of the pointers are ids of their leaves. -/
theorem leafDirectories_tileId {gz : Gzip} {cs : List (List Entry)} (h : Leaves gz cs)
    (offset : Nat) : ∀ p ∈ (leafDirectories gz offset cs).1, ∃ e ∈ cs.flatten,
      p.tileId = e.tileId := by
  intro p hp
  obtain ⟨c, hc, hpoint⟩ := leafDirectories_mem h offset p hp
  obtain ⟨e, es, rfl, hid⟩ := hpoint.head
  exact ⟨e, List.mem_flatten.mpr ⟨_, hc, List.mem_cons_self⟩, hid⟩

theorem leafDirectories_ascending {gz : Gzip} {cs : List (List Entry)} (h : Leaves gz cs)
    (offset : Nat) : Ascending (leafDirectories gz offset cs).1 := by
  induction cs generalizing offset with
  | nil => exact List.Pairwise.nil
  | cons c cs ih =>
      obtain ⟨p₀, hpointers, -, hpoints⟩ := leafDirectories_cons h offset
      rw [hpointers]
      refine List.pairwise_cons.mpr ⟨fun p hp => ?_, ih h.tail _⟩
      obtain ⟨e₀, es, rfl, hid₀⟩ := (hpoints []).head
      obtain ⟨e, he, hid⟩ := leafDirectories_tileId h.tail _ p hp
      rw [hid₀, hid]
      exact (List.pairwise_append.mp h.ascending).2.2 e₀ List.mem_cons_self e he

/-- The pointer found for a tile points at the leaf that has its entry. -/
theorem lastNotAfter_leafDirectories {gz : Gzip} {cs : List (List Entry)} (h : Leaves gz cs)
    (offset : Nat) {e : Entry} (he : e ∈ cs.flatten) :
    ∃ p, lastNotAfter e.tileId (leafDirectories gz offset cs).1 = some p ∧ ∃ c ∈ cs, e ∈ c ∧
      PointsAt gz (leafDirectories gz offset cs).2 offset p c := by
  induction cs generalizing offset with
  | nil => cases he
  | cons c cs ih =>
      obtain ⟨p₀, hpointers, hbytes, hpoints⟩ := leafDirectories_cons h offset
      rw [hpointers, hbytes, lastNotAfter]
      obtain ⟨hchunk, -, hbetween⟩ := List.pairwise_append.mp h.ascending
      rw [List.flatten_cons] at he
      rcases List.mem_append.mp he with he | he
      · have hlater : lastNotAfter e.tileId
            (leafDirectories gz (offset + (encodeDirectory gz c).length) cs).1 = none := by
          refine lastNotAfter_eq_none fun p hp => ?_
          obtain ⟨e', he', hid⟩ := leafDirectories_tileId h.tail _ p hp
          rw [hid]
          exact hbetween e he e' he'
        have hfirst : p₀.tileId ≤ e.tileId := by
          obtain ⟨e₀, es, rfl, hid⟩ := (hpoints []).head
          rw [hid]
          rcases List.mem_cons.mp he with rfl | he
          · exact le_rfl
          · exact ((List.pairwise_cons.mp hchunk).1 e he).le
        rw [hlater]
        exact ⟨p₀, if_pos hfirst, c, List.mem_cons_self, he, hpoints _⟩
      · obtain ⟨p, hp, c', hc', hin, hpoint⟩ := ih h.tail (offset + (encodeDirectory gz c).length) he
        rw [hp]
        exact ⟨p, rfl, c', List.mem_cons_of_mem c hc', hin, hpoint.cons⟩

/-! ## Lookups -/

/-- The contents of the entry with the id. -/
def contentsAt (bytes : List UInt8) (h : Header) (es : List Entry) (tileId : Nat) :
    Option (List UInt8) :=
  (es.find? fun e => e.tileId = tileId).bind fun e => slice bytes (h.dataOffset + e.offset) e.length

theorem lookup_directory {gz : Gzip} {bytes : List UInt8} {h : Header} {es : List Entry}
    (hsorted : Ascending es) (hruns : ∀ e ∈ es, e.runLength = 1) {offset length : Nat}
    (hraw : slice bytes offset length = some (encodeDirectory gz es)) (tileId depth : Nat) :
    lookup gz bytes h tileId (depth + 1) offset length = contentsAt bytes h es tileId := by
  rw [lookup, hraw]
  simp only [Option.bind_eq_bind, Option.bind_some,
    decodeDirectory_encodeDirectory gz (hsorted.imp fun h => h.le), findTile_eq_find? hsorted hruns]
  rw [contentsAt]
  refine Option.bind_congr fun e he => ?_
  rw [if_neg (by simp [hruns e (List.mem_of_find?_eq_some he)])]

/-- A lookup through the root of a split directory. -/
theorem lookup_leafDirectories {gz : Gzip} {bytes : List UInt8} {h : Header}
    {cs : List (List Entry)} (hcs : Leaves gz cs) (hruns : ∀ e ∈ cs.flatten, e.runLength = 1)
    {offset length : Nat}
    (hroot : slice bytes offset length =
      some (encodeDirectory gz (leafDirectories gz 0 cs).1))
    (hleaves : ∀ off len out, slice (leafDirectories gz 0 cs).2 off len = some out →
      slice bytes (h.leafOffset + off) len = some out)
    (tileId depth : Nat) :
    lookup gz bytes h tileId (depth + 2) offset length = contentsAt bytes h cs.flatten tileId := by
  have hfollow : ∀ p c, c ∈ cs → PointsAt gz (leafDirectories gz 0 cs).2 0 p c →
      lookup gz bytes h tileId (depth + 1) (h.leafOffset + p.offset) p.length =
        contentsAt bytes h c tileId := by
    intro p c hc hp
    have hsub : c.Sublist cs.flatten := List.sublist_flatten_of_mem hc
    exact lookup_directory (hcs.ascending.sublist hsub)
      (fun e he => hruns e (hsub.subset he)) (hleaves _ _ _ hp.bytes) tileId depth
  rw [lookup, hroot]
  simp only [Option.bind_eq_bind, Option.bind_some, decodeDirectory_encodeDirectory gz
    ((leafDirectories_ascending hcs 0).imp fun h => h.le), findTile]
  cases hfind : cs.flatten.find? (fun e => e.tileId = tileId) with
  | some e =>
      obtain rfl : e.tileId = tileId := by simpa using List.find?_some hfind
      obtain ⟨p, hp, c, hc, hin, hpoint⟩ :=
        lastNotAfter_leafDirectories hcs 0 (List.mem_of_find?_eq_some hfind)
      have hsorted : Ascending c := hcs.ascending.sublist (List.sublist_flatten_of_mem hc)
      have hmine : c.find? (fun e' => e'.tileId = e.tileId) = some e := by
        rw [← findTile_eq_find? hsorted fun e' he' =>
          hruns e' (List.mem_flatten.mpr ⟨c, hc, he'⟩), findTile, lastNotAfter_of_mem hsorted hin]
        simp [hruns e (List.mem_of_find?_eq_some hfind)]
      rw [hp]
      simp [hpoint.runLength, hfollow p c hc hpoint, contentsAt, hmine, hfind]
  | none =>
      rw [contentsAt, hfind]
      cases hlast : lastNotAfter tileId (leafDirectories gz 0 cs).1 with
      | none => rfl
      | some p =>
          obtain ⟨c, hc, hpoint⟩ := leafDirectories_mem hcs 0 p (mem_of_lastNotAfter hlast).1
          have hmissing : c.find? (fun e => e.tileId = tileId) = none := by
            rw [List.find?_eq_none] at hfind ⊢
            exact fun e he => hfind e (List.mem_flatten.mpr ⟨c, hc, he⟩)
          simp [hpoint.runLength, hfollow p c hc hpoint, contentsAt, hmissing]

/-- A lookup through whichever directory was built. -/
theorem lookup_buildDirectories {gz : Gzip} {bytes : List UInt8} {h : Header} {es : List Entry}
    (hsorted : Ascending es) (hruns : ∀ e ∈ es, e.runLength = 1) (hfits : ∀ e ∈ es, e.Fits)
    {offset length : Nat}
    (hroot : slice bytes offset length = some (buildDirectories gz es).1)
    (hleaves : ∀ off len out, slice (buildDirectories gz es).2 off len = some out →
      slice bytes (h.leafOffset + off) len = some out)
    (tileId : Nat) : lookup gz bytes h tileId 4 offset length = contentsAt bytes h es tileId := by
  have hsplit : Leaves gz (chunks maxEntriesPerLeaf es) := by
    refine ⟨fun c hc => ne_nil_of_mem_chunks hc, fun c hc => ?_, ?_⟩
    · refine length_encodeDirectory_lt gz (fun e he => hfits e ?_)
        (length_le_of_mem_chunks (by decide) hc)
      rw [← flatten_chunks maxEntriesPerLeaf es]
      exact List.mem_flatten.mpr ⟨c, hc, he⟩
    · rw [flatten_chunks]
      exact hsorted
  have hleaf : buildDirectories gz es = buildLeafDirectories gz es maxEntriesPerLeaf →
      lookup gz bytes h tileId 4 offset length = contentsAt bytes h es tileId := by
    intro heq
    rw [heq] at hroot hleaves
    have hlookup := lookup_leafDirectories hsplit (by rwa [flatten_chunks]) hroot hleaves tileId 2
    rwa [flatten_chunks] at hlookup
  by_cases hlen : es.length ≤ maxEntriesPerLeaf
  · by_cases hbytes : (encodeDirectory gz es).length ≤ maxRootBytes
    · have heq : buildDirectories gz es = (encodeDirectory gz es, []) := by
        rw [buildDirectories, if_pos hlen]
        exact if_pos hbytes
      rw [heq] at hroot
      exact lookup_directory hsorted hruns hroot tileId 3
    · refine hleaf ?_
      rw [buildDirectories, if_pos hlen]
      exact if_neg hbytes
  · exact hleaf (by rw [buildDirectories, if_neg hlen])

end RasterH3.Pmtiles
