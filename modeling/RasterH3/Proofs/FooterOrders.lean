import RasterH3.Parquet.ColumnOrder

/-!
# The footer fix-up is all or nothing

The library writes a footer that declares the total order of floating-point numbers for some
columns, and the fix-up replaces that in the bytes of the finished file. A mistake there
would spoil the file, so everything is checked before anything is written, on a copy of the
footer. The bytes of the file stay the same until the one write, which has the length of
what it replaces (`exec_writeAll`).

Each check is an equivalence. `readFooter` succeeds just if the file is a footer with its
length and the magic number behind it (`FooterAt`), `elementsStart` just if the footer is
the header of the list, as many bytes as its elements take and a zero, and `patchElements`
just if these bytes are the entries of the orders. Together they say which files the fix-up
accepts (`OrdersLast`). The footer is looked at from behind, so the parts are told apart by
their lengths; a list of fewer than fifteen elements has a shorter header than a longer one,
and the field of the list is given by its distance from the field before, which is known up
to a bound.

The writer of the file is a run of seeks, reads and writes that each can fail (`exec`). What
a check finds is stated for any bytes whatever, and in particular it does not matter what
the footer says before its last field. So the fix-up fails on a file it does not know, and
leaves it as it was.
-/

namespace RasterH3.Parquet

/-! ## Runs over a file -/

def exec {α : Type} (m : FileM α) (file : File) : Except FileFault α × File := m.run.run file

section Runs

variable {α β : Type} {m : FileM α} {file file' : File}

theorem exec_bind_ok {k : α → FileM β} {a : α} (h : exec m file = (.ok a, file')) :
    exec (m >>= k) file = exec (k a) file' := by
  unfold exec at *
  rw [ExceptT.run_bind, StateT.run_bind, h]
  rfl

theorem exec_bind_error {k : α → FileM β} {e : FileFault} (h : exec m file = (.error e, file')) :
    exec (m >>= k) file = (.error e, file') := by
  unfold exec at *
  rw [ExceptT.run_bind, StateT.run_bind, h]
  rfl

theorem exec_ofExcept (x : Except FileFault α) : exec (ofExcept x) file = (x, file) := rfl

variable {bytes : List UInt8} {pos : Nat}

theorem exec_seekStart (next : Nat) :
    exec (FileM.seekStart next) ⟨bytes, pos⟩ = (.ok (), ⟨bytes, next⟩) := rfl

theorem exec_seekEnd {back : Nat} (h : back ≤ bytes.length) :
    exec (FileM.seekEnd back) ⟨bytes, pos⟩ =
      (.ok (bytes.length - back), ⟨bytes, bytes.length - back⟩) := by
  show exec (if bytes.length < back then _ else _) ⟨bytes, pos⟩ = _
  rw [if_neg (by omega)]
  rfl

theorem exec_seekEnd_before {back : Nat} (h : bytes.length < back) :
    exec (FileM.seekEnd back) ⟨bytes, pos⟩ = (.error .seekBeforeStart, ⟨bytes, pos⟩) := by
  show exec (if bytes.length < back then _ else _) ⟨bytes, pos⟩ = _
  rw [if_pos h]
  rfl

theorem exec_readExact {front data back : List UInt8} {len : Nat}
    (h : bytes = front ++ data ++ back) (hpos : pos = front.length) (hlen : data.length = len) :
    exec (FileM.readExact len) ⟨bytes, pos⟩ = (.ok data, ⟨bytes, pos + len⟩) := by
  subst hlen
  have hdata : (bytes.drop pos).take data.length = data := by
    rw [h, hpos, List.append_assoc, List.drop_left, List.take_left]
  have hinside : ¬ bytes.length < pos + data.length := by
    rw [h, hpos, List.length_append, List.length_append]
    omega
  show exec (if bytes.length < pos + data.length then _ else _) ⟨bytes, pos⟩ = _
  rw [if_neg hinside]
  show ((Except.ok ((bytes.drop pos).take data.length), _) : Except FileFault _ × File) = _
  rw [hdata]

/-- What is replaced by as much is all that changes. -/
theorem exec_writeAll {front old back data : List UInt8} (h : bytes = front ++ old ++ back)
    (hpos : pos = front.length) (hlen : old.length = data.length) :
    exec (FileM.writeAll data) ⟨bytes, pos⟩ =
      (.ok (), ⟨front ++ data ++ back, front.length + data.length⟩) := by
  have hfilled : bytes ++ List.replicate (pos - bytes.length) 0 = front ++ (old ++ back) := by
    have hle : pos - bytes.length = 0 := by
      rw [h, hpos, List.length_append, List.length_append]
      omega
    rw [hle, List.replicate_zero, List.append_nil, h, List.append_assoc]
  show ((Except.ok (), _) : Except FileFault Unit × File) = _
  dsimp only
  rw [hfilled, hpos, List.take_left, ← List.drop_drop, List.drop_left, ← hlen, List.drop_left]

end Runs

/-! ## The footer of a file -/

/-- Bytes, a footer behind them, its length and the magic number. -/
def FooterAt (bytes : List UInt8) (start : Nat) (footer : List UInt8) : Prop :=
  ∃ front, front.length = start ∧ footer.length < 2 ^ 32 ∧
    bytes = front ++ footer ++ (Bytes.writeLe 4 footer.length ++ magic)

/-- The last eight bytes. -/
theorem exists_tail {bytes : List UInt8} (h : 8 ≤ bytes.length) : ∃ front len found,
    bytes = front ++ (Bytes.writeLe 4 len ++ found) ∧ len < 2 ^ 32 ∧ found.length = 4 := by
  have htail : (bytes.drop (bytes.length - 8)).length = 8 := by
    rw [List.length_drop]
    omega
  generalize htaken : bytes.drop (bytes.length - 8) = tail at htail
  rcases Bytes.exists_writeLe 4 (tail.take 4) (by rw [List.length_take, htail]; rfl) with
    ⟨len, hlt, hlen⟩
  refine ⟨bytes.take (bytes.length - 8), len, tail.drop 4, ?_, hlt, ?_⟩
  · rw [hlen, List.take_append_drop, ← htaken, List.take_append_drop]
  · rw [List.length_drop, htail]

theorem readLe_tail {len : Nat} (hlt : len < 2 ^ 32) (found : List UInt8) :
    Bytes.readLe 4 (Bytes.writeLe 4 len ++ found) = some (len, found) :=
  Bytes.readLe_writeLe_of_lt hlt found

theorem drop_writeLe (len : Nat) (found : List UInt8) :
    (Bytes.writeLe 4 len ++ found).drop 4 = found := by
  rw [List.drop_left' (Bytes.length_writeLe 4 len)]

/-- What is read is the footer, if there is one. -/
def FooterFound (bytes : List UInt8) : Except FileFault (Nat × List UInt8) → Prop
  | .ok (start, footer) => FooterAt bytes start footer
  | .error e => e ≠ .panic ∧ ∀ start footer, ¬ FooterAt bytes start footer

/-- The parts behind a footer are told apart by their lengths. -/
theorem FooterAt.tail {bytes footer front found : List UInt8} {start len : Nat}
    (h : FooterAt bytes start footer) (hbytes : bytes = front ++ (Bytes.writeLe 4 len ++ found))
    (hlt : len < 2 ^ 32) (hfound : found.length = 4) :
    found = magic ∧ footer.length = len ∧ front.length = start + len := by
  rcases h with ⟨before, hstart, hsmall, h⟩
  have hsame := h.symm.trans hbytes
  have hlen : (Bytes.writeLe 4 footer.length ++ magic).length =
      (Bytes.writeLe 4 len ++ found).length := by
    rw [List.length_append, List.length_append, Bytes.length_writeLe, Bytes.length_writeLe, hfound]
    rfl
  rcases List.append_inj' hsame hlen with ⟨hfront, htail⟩
  have hread := readLe_tail hsmall magic
  rw [htail, readLe_tail hlt] at hread
  obtain ⟨hfooter, hmagic⟩ := Prod.mk.inj (Option.some.inj hread)
  refine ⟨hmagic, hfooter.symm, ?_⟩
  rw [← hfront, List.length_append, hstart, hfooter]

theorem FooterAt.unique {bytes footer footer' : List UInt8} {start start' : Nat}
    (h : FooterAt bytes start footer) (h' : FooterAt bytes start' footer') : footer = footer' := by
  rcases h' with ⟨front, -, hlt, hbytes⟩
  rcases h.tail hbytes hlt rfl with ⟨-, hlen, hfront⟩
  rcases h with ⟨before, -, -, hbefore⟩
  rw [hlen] at hbefore
  exact (List.append_inj' (List.append_cancel_right (hbefore.symm.trans hbytes)) hlen).2

theorem readFooter_spec (bytes : List UInt8) (pos : Nat) :
    (exec readFooter ⟨bytes, pos⟩).2.bytes = bytes ∧
      FooterFound bytes (exec readFooter ⟨bytes, pos⟩).1 := by
  unfold readFooter
  rw [exec_bind_ok (exec_seekEnd (Nat.zero_le _))]
  by_cases hshort : bytes.length < 8
  · rw [exec_bind_error (exec_seekEnd_before hshort)]
    refine ⟨rfl, by decide, fun start footer h => ?_⟩
    rcases h with ⟨front, -, -, rfl⟩
    rw [List.length_append, List.length_append, List.length_append, Bytes.length_writeLe] at hshort
    exact absurd hshort (by simp [magic])
  rw [exec_bind_ok (exec_seekEnd (Nat.le_of_not_lt hshort))]
  rcases exists_tail (Nat.le_of_not_lt hshort) with ⟨front, len, found, hbytes, hlt, hfound⟩
  have htail : (Bytes.writeLe 4 len ++ found).length = 8 := by
    rw [List.length_append, Bytes.length_writeLe, hfound]
  have hlen : bytes.length = front.length + 8 := by rw [hbytes, List.length_append, htail]
  rw [exec_bind_ok (exec_readExact (hbytes.trans (List.append_nil _).symm) (by omega) htail),
    drop_writeLe]
  split
  next hmagic =>
      refine ⟨rfl, by decide, fun start footer h => hmagic (h.tail hbytes hlt hfound).1⟩
  next hmagic =>
      rw [readLe_tail hlt]
      dsimp only
      split
      next hlarge =>
        refine ⟨rfl, by decide, fun start footer h => ?_⟩
        have := (h.tail hbytes hlt hfound).2.2
        omega
      next hfits =>
        obtain ⟨before, footer, rfl, hfooter⟩ : ∃ before footer, front = before ++ footer ∧
            footer.length = len := by
          refine ⟨front.take (front.length - len), front.drop (front.length - len),
            (List.take_append_drop _ _).symm, ?_⟩
          rw [List.length_drop]
          omega
        have hstart : bytes.length - 0 - (8 + len) = before.length := by
          rw [hlen, List.length_append]
          omega
        rw [hstart, exec_bind_ok (exec_seekStart _),
          exec_bind_ok (exec_readExact hbytes rfl hfooter)]
        rw [not_not] at hmagic
        exact ⟨rfl, before, rfl, hfooter ▸ hlt, by rw [hbytes, hfooter, hmagic]⟩

/-! ## The list of orders -/

/-- A footer that may end with the list of so many orders, and where its elements start. -/
def ListAt (footer : List UInt8) (columns start : Nat) (front elements : List UInt8) : Prop :=
  ∃ lead, ∃ field : UInt8, front = lead ++ [field] ++ listHeader columns ∧ field &&& 0x0F = 0x09 ∧
    field >>> 4 ≠ 0 ∧ elements.length = columns * elementLen ∧ start = front.length ∧
    footer = front ++ elements ++ [0]

def ListFound (footer : List UInt8) (columns : Nat) : Except FileFault Nat → Prop
  | .ok start => ∃ front elements, ListAt footer columns start front elements
  | .error e => e ≠ .panic ∧ ∀ start front elements, ¬ ListAt footer columns start front elements

theorem exists_back {α : Type} {l : List α} {k : Nat} (h : k ≤ l.length) :
    ∃ front back, l = front ++ back ∧ back.length = k := by
  refine ⟨l.take (l.length - k), l.drop (l.length - k), (List.take_append_drop _ _).symm, ?_⟩
  rw [List.length_drop]
  omega

theorem sub_append (front back : List UInt8) :
    Checked.sub (front ++ back).length back.length = some front.length := by
  rw [Checked.sub_of_le (by simp)]
  simp

theorem getElem?_after (front back : List UInt8) (x : UInt8) :
    (front ++ [x] ++ back)[front.length]? = some x := by
  rw [List.append_assoc, List.getElem?_append_right le_rfl, Nat.sub_self]
  rfl

theorem slice_middle (front middle back : List UInt8) :
    Loops.slice (front ++ middle ++ back) front.length (front ++ middle).length = some middle := by
  rw [List.length_append, Loops.slice_of_le (Nat.le_add_right ..) (by simp),
    Nat.add_sub_cancel_left, List.append_assoc, List.drop_left, List.take_left]

theorem ok_bind {α β : Type} (a : α) (f : α → Except FileFault β) : (Except.ok a >>= f) = f a := rfl

/-- The parts at the end of a footer are told apart by their lengths. -/
theorem ListAt.parts {lead found elements front elements' : List UInt8} {field stop : UInt8}
    {columns start : Nat} (h : ListAt (lead ++ [field] ++ found ++ elements ++ [stop]) columns start
      front elements') (hfound : found.length = (listHeader columns).length)
    (helements : elements.length = columns * elementLen) :
    stop = 0 ∧ elements' = elements ∧ found = listHeader columns ∧ field &&& 0x0F = 0x09 ∧
      field >>> 4 ≠ 0 := by
  rcases h with ⟨lead', field', rfl, hlow, hhigh, hlen, -, hsame⟩
  rcases List.append_inj' hsame rfl with ⟨hsame, hstop⟩
  rcases List.append_inj' hsame (helements.trans hlen.symm) with ⟨hsame, helems⟩
  rcases List.append_inj' hsame hfound with ⟨hsame, hhead⟩
  obtain rfl := List.singleton_inj.mp (List.append_inj' hsame rfl).2
  exact ⟨List.singleton_inj.mp hstop, helems.symm, hhead, hlow, hhigh⟩

theorem elementsStart_spec (footer : List UInt8) (columns : Nat) :
    ListFound footer columns (elementsStart footer columns) := by
  unfold elementsStart
  dsimp only
  split
  next hshort =>
      refine ⟨by decide, fun start front elements h => ?_⟩
      rcases h with ⟨lead, field, rfl, -, -, hlen, -, rfl⟩
      simp only [List.length_append, List.length_singleton, hlen] at hshort
      omega
  next hlong =>
      obtain ⟨front₁, last, rfl, hlast⟩ := @exists_back _ footer 1 (by omega)
      obtain ⟨stop, rfl⟩ := List.length_eq_one_iff.mp hlast
      rw [List.length_append, List.length_singleton] at hlong
      obtain ⟨front₂, elements, rfl, helements⟩ :=
        @exists_back _ front₁ (columns * elementLen) (by omega)
      rw [List.length_append, helements] at hlong
      obtain ⟨front₃, found, rfl, hfound⟩ :=
        @exists_back _ front₂ (listHeader columns).length (by omega)
      rw [List.length_append, hfound] at hlong
      obtain ⟨lead, one, rfl, hone⟩ := @exists_back _ front₃ 1 (by omega)
      obtain ⟨field, rfl⟩ := List.length_eq_one_iff.mp hone
      have hstopAt := sub_append (lead ++ [field] ++ found ++ elements) [stop]
      have hstop := getElem?_after (lead ++ [field] ++ found ++ elements) [] stop
      have hstart := sub_append (lead ++ [field] ++ found) elements
      have hheaderAt := sub_append (lead ++ [field]) found
      have hfieldAt := sub_append lead [field]
      have hfield := getElem?_after lead (found ++ elements ++ [stop]) field
      have hslice := slice_middle (lead ++ [field]) found (elements ++ [stop])
      rw [helements] at hstart
      rw [hfound] at hheaderAt
      rw [List.append_nil] at hstop
      simp only [← List.append_assoc] at hfield hslice
      simp only [List.length_singleton] at hstopAt hfieldAt
      simp only [hstopAt, hstop, hstart, hheaderAt, hfieldAt, hfield, hslice, orPanic, ok_bind]
      split
      next hbad =>
        exact ⟨by decide, fun start front elements' h => hbad (h.parts hfound helements).1⟩
      next hzero =>
        split
        next hbad =>
          refine ⟨by decide, fun start front elements' h => ?_⟩
          rcases h.parts hfound helements with ⟨-, -, hhead, hlow, hhigh⟩
          rcases hbad with hbad | hbad | hbad
          · exact hbad hhead
          · exact hbad hlow
          · exact hhigh hbad
        next hgood =>
          rw [not_or, not_or, not_not, not_not] at hgood
          rw [not_not] at hzero
          exact ⟨lead ++ [field] ++ found, elements, lead, field, by rw [hgood.1], hgood.2.1,
            hgood.2.2, helements, rfl, by rw [hzero]⟩

/-! ## The entries -/

/-- A footer may hold the order. -/
def ColumnOrder.Known : ColumnOrder → Prop
  | .other _ => False
  | _ => True

/-- The first byte of an entry: a union whose only field is an empty struct. -/
def ColumnOrder.tag : ColumnOrder → UInt8
  | .ieee754TotalOrder => 0x2C
  | _ => 0x1C

def entries (orders : List ColumnOrder) : List UInt8 :=
  orders.flatMap fun order => [order.tag, 0, 0]

/-- What an order is declared as afterwards. -/
def ColumnOrder.restored : ColumnOrder → ColumnOrder
  | .ieee754TotalOrder => .typeDefinedOrder .undefined
  | order => order

theorem length_entries (orders : List ColumnOrder) :
    (entries orders).length = orders.length * elementLen := by
  induction orders with
  | nil => rfl
  | cons order orders ih =>
      rw [entries, List.flatMap_cons, List.length_append, ← entries, ih]
      simp only [List.length_cons, List.length_nil, elementLen]
      omega

theorem expected_of_known {order : ColumnOrder} (h : order.Known) :
    expected order = .ok order.tag := by
  cases order with
  | typeDefinedOrder sort => rfl
  | ieee754TotalOrder => rfl
  | other debug => exact h.elim

theorem tag_eq_iff {order : ColumnOrder} (h : order.Known) :
    order.tag = ieee754TotalOrder ↔ order = .ieee754TotalOrder := by
  cases order with
  | typeDefinedOrder sort => exact iff_of_false (show (0x1C : UInt8) ≠ 0x2C by decide) (by simp)
  | ieee754TotalOrder => exact iff_of_true rfl rfl
  | other debug => exact h.elim

theorem restored_tag (order : ColumnOrder) : order.restored.tag = typeOrder := by
  cases order with
  | typeDefinedOrder sort => rfl
  | ieee754TotalOrder => rfl
  | other debug => rfl

theorem restored_of_ne {order : ColumnOrder} (h : order ≠ .ieee754TotalOrder) :
    order.restored = order := by
  cases order with
  | typeDefinedOrder sort => rfl
  | ieee754TotalOrder => exact absurd rfl h
  | other debug => rfl

/-- What the elements are and become. -/
def Patched (orders : List ColumnOrder) (elements before after : List UInt8) (patched : Bool) :
    Except FileFault (List UInt8 × Bool) → Prop
  | .ok (footer, patched') => (∀ order ∈ orders, order.Known) ∧ elements = entries orders ∧
      footer = before ++ entries (orders.map .restored) ++ after ∧
      patched' = (patched || decide (.ieee754TotalOrder ∈ orders))
  | .error e => e ≠ .panic ∧ ¬((∀ order ∈ orders, order.Known) ∧ elements = entries orders)

theorem Patched.cons {order : ColumnOrder} {orders : List ColumnOrder}
    {rest before after : List UInt8} {patched : Bool}
    {result : Except FileFault (List UInt8 × Bool)} (hknown : order.Known)
    (h : Patched orders rest (before ++ [order.restored.tag, 0, 0]) after
      (patched || decide (order = .ieee754TotalOrder)) result) :
    Patched (order :: orders) ([order.tag, 0, 0] ++ rest) before after patched result := by
  cases result with
  | error e =>
      refine ⟨h.1, fun hwritten => h.2
        ⟨fun o ho => hwritten.1 o (List.mem_cons_of_mem order ho), ?_⟩⟩
      exact (List.append_inj hwritten.2 rfl).2
  | ok out =>
      rcases out with ⟨footer, patched'⟩
      rcases h with ⟨hall, rfl, hfooter, hpatched⟩
      refine ⟨fun o ho => ?_, rfl, ?_, ?_⟩
      · rcases List.mem_cons.mp ho with rfl | ho
        · exact hknown
        · exact hall o ho
      · rw [hfooter, List.append_assoc before]
        rfl
      · rw [hpatched, Bool.or_assoc, ← Bool.decide_or]
        simp only [List.mem_cons, eq_comm]

theorem patchElements_spec {orders : List ColumnOrder} {before elements after : List UInt8}
    {patched : Bool} (hlen : elements.length = orders.length * elementLen) :
    Patched orders elements before after patched
      (patchElements orders before.length (before ++ elements ++ after) patched) := by
  induction orders generalizing before elements patched with
  | nil =>
      obtain rfl := List.eq_nil_of_length_eq_zero hlen
      exact ⟨by simp, rfl, rfl, by simp⟩
  | cons order orders ih =>
      obtain ⟨element, rest, rfl, helement⟩ : ∃ element rest, elements = element ++ rest ∧
          element.length = elementLen := by
        refine ⟨elements.take elementLen, elements.drop elementLen,
          (List.take_append_drop _ _).symm, ?_⟩
        rw [List.length_take, hlen, List.length_cons, Nat.add_one_mul]
        omega
      have hrest : rest.length = orders.length * elementLen := by
        rw [List.length_append, helement, List.length_cons, Nat.add_one_mul] at hlen
        omega
      have hslice := slice_middle before element (rest ++ after)
      rw [← List.append_assoc, List.append_assoc before, List.length_append, helement] at hslice
      rw [patchElements, hslice]
      simp only [orPanic, ok_bind]
      by_cases hknown : order.Known
      · rw [expected_of_known hknown, ok_bind]
        split
        next hother =>
          refine ⟨by decide, fun hwritten => hother ?_⟩
          exact (List.append_inj hwritten.2 helement).1
        next hsame =>
          rw [not_not] at hsame
          subst hsame
          refine Patched.cons hknown ?_
          have hnext : before.length + elementLen = (before ++ [order.restored.tag, 0, 0]).length :=
            (@List.length_append _ before [order.restored.tag, 0, 0]).symm
          rw [hnext]
          split
          next hfloat =>
            have hset :
                (before ++ ([order.tag, 0, 0] ++ rest) ++ after).set before.length typeOrder =
                before ++ [order.restored.tag, 0, 0] ++ rest ++ after := by
              rw [restored_tag]
              simp
            rw [hset, decide_eq_true ((tag_eq_iff hknown).mp hfloat), Bool.or_true]
            exact ih hrest
          next hfixed =>
            have hne : order ≠ .ieee754TotalOrder := fun heq => hfixed ((tag_eq_iff hknown).mpr heq)
            have hsame : before ++ ([order.tag, 0, 0] ++ rest) ++ after =
                before ++ [order.restored.tag, 0, 0] ++ rest ++ after := by
              rw [restored_of_ne hne, ← List.append_assoc before]
            rw [hsame, decide_eq_false hne, Bool.or_false]
            exact ih hrest
      · cases order with
        | typeDefinedOrder sort => exact absurd trivial hknown
        | ieee754TotalOrder => exact absurd trivial hknown
        | other debug =>
            refine ⟨by simp, fun hwritten => ?_⟩
            exact hwritten.1 _ List.mem_cons_self

/-! ## The fix-up -/

/-- The header of a list of structs in the compact protocol. -/
def compactListHeader (len : Nat) : List UInt8 :=
  if len < 15 then [UInt8.ofNat (16 * len + 12)]
  else UInt8.ofNat (16 * 15 + 12) :: Bytes.writeVarint len

/-- A file whose footer ends with the list of the orders, as a field whose number is given by
its distance from the one before, with the bytes around the elements. -/
structure OrdersLast (bytes : List UInt8) (orders : List ColumnOrder) (front back : List UInt8) :
    Prop where
  known : ∀ order ∈ orders, order.Known
  footer : ∃ before lead delta len, 0 < delta ∧ delta < 16 ∧
    front = before ++ (lead ++ [UInt8.ofNat (16 * delta + 9)] ++ compactListHeader orders.length) ∧
    len = front.length - before.length + orders.length * elementLen + 1 ∧ len < 2 ^ 32 ∧
    back = 0 :: (Bytes.writeLe 4 len ++ magic)
  whole : bytes = front ++ entries orders ++ back

theorem lengthBytes_eq (n : Nat) : lengthBytes n = Bytes.writeVarint n := by
  induction n using Nat.strong_induction_on with
  | _ n ih =>
      rw [lengthBytes, Bytes.writeVarint]
      split
      next => rfl
      next hlarge =>
        have hbyte : UInt8.ofNat n ||| 0x80 = UInt8.ofNat (128 + n % 128) := by
          have hor : ∀ k < 256, k ||| 128 = 128 + k % 128 := by decide +kernel
          apply UInt8.toNat_inj.mp
          rw [UInt8.toNat_or, UInt8.toNat_ofNat', UInt8.toNat_ofNat']
          refine (hor _ (Nat.mod_lt _ (by decide))).trans ?_
          omega
        rw [hbyte, Nat.shiftRight_eq_div_pow, ih _ (by omega)]

theorem listHeader_eq (len : Nat) : listHeader len = compactListHeader len := by
  unfold listHeader compactListHeader
  split
  next hsmall =>
      have hheader : ∀ k < 15, UInt8.ofNat k <<< 4 ||| 0x0C = UInt8.ofNat (16 * k + 12) := by decide
      rw [hheader len hsmall]
  next =>
      rw [lengthBytes_eq]
      rfl

/-- A field of a list, not too far from the field before. -/
theorem listField_iff (field : UInt8) : (field &&& 0x0F = 0x09 ∧ field >>> 4 ≠ 0) ↔
    ∃ delta, 0 < delta ∧ delta < 16 ∧ field = UInt8.ofNat (16 * delta + 9) := by
  have hfields : ∀ k < 256, (UInt8.ofNat k &&& 0x0F = 0x09 ∧ UInt8.ofNat k >>> 4 ≠ 0) ↔
      0 < k / 16 ∧ k % 16 = 9 := by decide +kernel
  have hfield := hfields field.toNat field.toNat_lt
  rw [UInt8.ofNat_toNat] at hfield
  rw [hfield]
  have hlt := field.toNat_lt
  constructor
  · rintro ⟨hpos, hlow⟩
    refine ⟨field.toNat / 16, hpos, by omega, ?_⟩
    have hsum : 16 * (field.toNat / 16) + 9 = field.toNat := by omega
    rw [hsum, UInt8.ofNat_toNat]
  · rintro ⟨delta, hpos, hsmall, rfl⟩
    rw [UInt8.toNat_ofNat']
    omega

/-- A file that ends so is what the checks look for. -/
theorem OrdersLast.found {bytes front back : List UInt8} {orders : List ColumnOrder}
    (h : OrdersLast bytes orders front back) : ∃ start footer at_ front',
    FooterAt bytes start footer ∧ ListAt footer orders.length at_ front' (entries orders) := by
  rcases h.footer with ⟨before, lead, delta, len, hpos, hsmall, hfront, hlen, hlt, hback⟩
  have hfield := (listField_iff _).mpr ⟨delta, hpos, hsmall, rfl⟩
  rw [← listHeader_eq] at hfront
  generalize hfront' : lead ++ [UInt8.ofNat (16 * delta + 9)] ++ listHeader orders.length =
    front' at hfront
  have hfooter : (front' ++ entries orders ++ [0]).length = len := by
    rw [hlen, hfront, List.length_append, List.length_append, List.length_append, length_entries]
    simp
  refine ⟨before.length, front' ++ entries orders ++ [0], front'.length, front',
    ⟨before, rfl, hfooter.trans_lt hlt, ?_⟩, lead, _, hfront'.symm, hfield.1, hfield.2,
    length_entries orders, rfl, rfl⟩
  rw [h.whole, hfooter, hfront, hback]
  simp

/-- And what the checks find is a file that ends so. -/
theorem ordersLast_of_found {bytes footer front' : List UInt8} {orders : List ColumnOrder}
    {start at_ : Nat} (hfooter : FooterAt bytes start footer)
    (hlist : ListAt footer orders.length at_ front' (entries orders))
    (hknown : ∀ order ∈ orders, order.Known) : ∃ before back, before.length = start ∧
      footer = front' ++ entries orders ++ [0] ∧ bytes = before ++ footer ++ back ∧
      OrdersLast bytes orders (before ++ front') ([0] ++ back) := by
  rcases hfooter with ⟨before, hstart, hlt, hbytes⟩
  rcases hlist with ⟨lead, field, hfront', hlow, hhigh, -, -, hwhole⟩
  rcases (listField_iff field).mp ⟨hlow, hhigh⟩ with ⟨delta, hpos, hsmall, rfl⟩
  refine ⟨before, _, hstart, hwhole, hbytes, hknown, ⟨before, lead, delta, footer.length, hpos,
    hsmall, ?_, ?_, hlt, rfl⟩, ?_⟩
  · rw [← listHeader_eq, hfront']
  · rw [hwhole]
    simp [length_entries, Nat.add_assoc]
  · rw [hbytes, hwhole]
    simp

/-- What the fix-up does where there is something to do. -/
def Restores (bytes : List UInt8) (orders : List ColumnOrder) :
    Except FileFault Unit → List UInt8 → Prop
  | .ok _, bytes' => ∃ front back, OrdersLast bytes orders front back ∧
      bytes' = front ++ entries (orders.map .restored) ++ back
  | .error e, bytes' => bytes' = bytes ∧ e ≠ .panic ∧
      ∀ front back, ¬ OrdersLast bytes orders front back

theorem restore_spec {orders : List ColumnOrder} (hfloat : .ieee754TotalOrder ∈ orders)
    (bytes : List UInt8) (pos : Nat) :
    Restores bytes orders (exec (restoreTypeDefinedFloatOrders (some orders)) ⟨bytes, pos⟩).1
      (exec (restoreTypeDefinedFloatOrders (some orders)) ⟨bytes, pos⟩).2.bytes := by
  rw [restoreTypeDefinedFloatOrders, if_pos hfloat]
  rcases readFooter_spec bytes pos with ⟨hsame, hfound⟩
  rcases hread : exec readFooter ⟨bytes, pos⟩ with ⟨footerRead, bytes', pos'⟩
  rw [hread] at hsame hfound
  obtain rfl : bytes' = bytes := hsame
  cases footerRead with
  | error e =>
      rw [exec_bind_error hread]
      refine ⟨rfl, hfound.1, fun front back h => ?_⟩
      rcases h.found with ⟨start, footer, at_, front', hfooter, -⟩
      exact hfound.2 start footer hfooter
  | ok footerRead =>
      rcases footerRead with ⟨start, footer⟩
      rw [exec_bind_ok hread]
      dsimp only
      have hlist := elementsStart_spec footer orders.length
      cases hstart : elementsStart footer orders.length with
      | error e =>
          rw [hstart] at hlist
          rw [exec_bind_error (exec_ofExcept _)]
          refine ⟨rfl, hlist.1, fun front back h => ?_⟩
          rcases h.found with ⟨start', footer', at_, front', hfooter', hlist'⟩
          obtain rfl := hfound.unique hfooter'
          exact hlist.2 _ _ _ hlist'
      | ok at_ =>
          rw [hstart] at hlist
          rcases hlist with ⟨front', elements, hlist⟩
          rw [exec_bind_ok (exec_ofExcept _)]
          obtain ⟨lead, field, -, -, -, hlen, rfl, rfl⟩ := id hlist
          have hpatch := @patchElements_spec orders front' elements [0] false hlen
          cases hpatched : patchElements orders front'.length (front' ++ elements ++ [0]) false with
          | error e =>
              rw [hpatched] at hpatch
              rw [exec_bind_error (exec_ofExcept _)]
              refine ⟨rfl, hpatch.1, fun front back h => ?_⟩
              rcases h.found with ⟨start', footer', at_, front'', hfooter', hlist'⟩
              rcases hlist' with ⟨-, -, -, -, -, hlen', -, hwhole⟩
              have hsame := (hfound.unique hfooter').trans hwhole
              have hparts := (List.append_inj' hsame rfl).1
              exact hpatch.2 ⟨h.known, (List.append_inj' hparts (hlen.trans hlen'.symm)).2⟩
          | ok out =>
              rcases out with ⟨footer', patched⟩
              rw [hpatched] at hpatch
              rcases hpatch with ⟨hknown, rfl, rfl, rfl⟩
              rcases ordersLast_of_found hfound hlist hknown with
                ⟨before, back, rfl, -, hbytes, hlast⟩
              rw [exec_bind_ok (exec_ofExcept _)]
              dsimp only
              rw [if_pos (by simp [hfloat])]
              have hslice := slice_middle front' (entries (orders.map .restored)) [0]
              rw [List.length_append, length_entries, List.length_map] at hslice
              have hread : ∀ file,
                  exec (ofExcept (orPanic (some (entries (orders.map .restored))))) file =
                    (.ok (entries (orders.map .restored)), file) := fun _ => rfl
              rw [exec_bind_ok (exec_seekStart _), hslice, exec_bind_ok (hread _),
                exec_writeAll hlast.whole List.length_append.symm
                  (by rw [length_entries, length_entries, List.length_map])]
              exact ⟨before ++ front', [0] ++ back, hlast, rfl⟩

/-- The footer fix-up leaves the file as it was and fails, or changes the entries of the total
order and nothing else, and it accepts every file whose footer ends with the orders. -/
theorem restore_all_or_nothing (file : File) (orders : Option (List ColumnOrder)) :
    (∀ e file', exec (restoreTypeDefinedFloatOrders orders) file = (.error e, file') →
      file'.bytes = file.bytes ∧ e ≠ .panic) ∧
    (∀ file', exec (restoreTypeDefinedFloatOrders orders) file = (.ok (), file') →
      file'.bytes.length = file.bytes.length ∧
        (file'.bytes = file.bytes ∧ (∀ list, orders = some list → .ieee754TotalOrder ∉ list) ∨
          ∃ list front back, orders = some list ∧ OrdersLast file.bytes list front back ∧
            file'.bytes = front ++ entries (list.map .restored) ++ back)) ∧
    ∀ list front back, orders = some list → OrdersLast file.bytes list front back →
      ∃ file', exec (restoreTypeDefinedFloatOrders orders) file = (.ok (), file') := by
  have hnothing : (∀ list, orders = some list → .ieee754TotalOrder ∉ list) →
      exec (restoreTypeDefinedFloatOrders orders) file = (.ok (), file) := by
    intro h
    cases orders with
    | none => rfl
    | some list =>
        rw [restoreTypeDefinedFloatOrders, if_neg (h list rfl)]
        rfl
  by_cases hfloat : ∃ list, orders = some list ∧ .ieee754TotalOrder ∈ list
  · rcases hfloat with ⟨list, rfl, hfloat⟩
    have hspec := restore_spec hfloat file.bytes file.pos
    rcases hrun : exec (restoreTypeDefinedFloatOrders (some list)) file with ⟨result, file'⟩
    rw [hrun] at hspec
    cases result with
    | error e =>
        rcases hspec with ⟨hsame, hpanic, hnone⟩
        refine ⟨?_, ?_, ?_⟩
        · rintro _ _ ⟨⟩
          exact ⟨hsame, hpanic⟩
        · rintro _ ⟨⟩
        · rintro _ front back ⟨⟩ h
          exact absurd h (hnone front back)
    | ok _ =>
        rcases hspec with ⟨front, back, hlast, hbytes⟩
        refine ⟨?_, ?_, fun _ _ _ _ _ => ⟨file', rfl⟩⟩
        · rintro _ _ ⟨⟩
        · rintro _ ⟨⟩
          refine ⟨?_, .inr ⟨list, front, back, rfl, hlast, hbytes⟩⟩
          rw [hbytes, hlast.whole]
          simp only [List.length_append, length_entries, List.length_map]
  · rw [hnothing fun list hlist hmem => hfloat ⟨list, hlist, hmem⟩]
    refine ⟨?_, ?_, fun _ _ _ _ _ => ⟨file, rfl⟩⟩
    · rintro _ _ ⟨⟩
    · rintro _ ⟨⟩
      exact ⟨rfl, .inl ⟨rfl, fun list hlist hmem => hfloat ⟨list, hlist, hmem⟩⟩⟩

example : (exec (restoreTypeDefinedFloatOrders
      (some [.typeDefinedOrder .signed, .ieee754TotalOrder]))
    ⟨[0x15, 0x04, 0x19, 0x2C, 0x1C, 0, 0, 0x2C, 0, 0, 0, 11, 0, 0, 0, 0x50, 0x41, 0x52, 0x31],
      0⟩).2.bytes =
    [0x15, 0x04, 0x19, 0x2C, 0x1C, 0, 0, 0x1C, 0, 0, 0, 11, 0, 0, 0, 0x50, 0x41, 0x52, 0x31] := by
  decide

end RasterH3.Parquet
