import RasterH3.Proofs.RowGroups
import Mathlib

/-!
# The pipeline writes the drained rows

One thread drains the streamer into row groups and sends them to another, which sorts and
writes them and sends the empty buffers back. Two buffers circulate, so neither channel ever
holds more than it can and the writer never waits to give one back; a draining thread that
waits for a buffer waits for one of the two. A third buffer appears only after the writer
has dropped its ends, and then nothing is sent back any more.

The rows are followed through the threads: written, in the writer's hands, queued, and in
the current buffer (`Holds`). As long as nothing failed these are the drained rows, each
group but the last is full, and the file is published only at the end. A row moves from one
of these places to the next by a step of one thread, and the invariant is shown step by
step; draining is a loop within a step, in which a group that becomes full is closed and the
rest goes into the next (`Continues`).

Failures come from three sides. The streamer fails, and the draining thread closes the
channel and waits for the writer; the writer fails, and a send to it fails at the latest
with the next group (`Holds.sendFails`), so that rows are lost and the export is an error;
or the file cannot be put in its place. In each case the target is untouched.

The last part is about waiting. `canStep_of_inv` goes through what the two threads may be
waiting for, and finds that one of them can go on, or that the streamer has to be called,
until the export has returned. `parquet_exports` says all of this of any state that is
reached, for any kind of rows.
-/

namespace RasterH3.Parquet

/-! ## Who holds a buffer -/

namespace Main

variable {B : Type}

def held : Main B → Nat
  | .draining _ | .sending _ _ | .sendingLast _ => 1
  | _ => 0

def failed : Main B → Bool
  | .streamFailed | .joiningFailed | .returned none => true
  | _ => false

def ended : Main B → Bool
  | .returned _ => true
  | _ => false

end Main

namespace Writer

variable {B : Type}

def held : Writer B → Nat
  | .writing _ | .recycling _ => 1
  | _ => 0

def live : Writer B → Bool
  | .receiving | .writing _ | .recycling _ => true
  | _ => false

/-- What it returns. -/
def totalRows : Writer B → Option Nat
  | .returning totalRows _ _ | .finished totalRows => totalRows
  | _ => none

def failed : Writer B → Bool
  | .returning none _ _ | .finished none => true
  | _ => false

def ended : Writer B → Bool
  | .finished _ => true
  | _ => false

end Writer

/-! ## Sizes of row groups -/

/-- The groups are not empty and full, the last one only while more may follow. -/
structure Sized (size : Nat) (more : Bool) (sizes : List Nat) : Prop where
  full : ∀ n ∈ (if more then sizes else sizes.dropLast), n = size
  nonempty : ∀ n ∈ sizes, 0 < n ∧ n ≤ size

namespace Sized

variable {size : Nat} {sizes : List Nat}

theorem close (h : Sized size true sizes) (more : Bool) : Sized size more sizes := by
  refine ⟨fun n hn => h.full n ?_, h.nonempty⟩
  cases more with
  | true => exact hn
  | false => exact List.dropLast_subset _ hn

theorem push (h : Sized size true sizes) (hpos : 0 < size) :
    Sized size true (sizes ++ [size]) := by
  refine ⟨fun n hn => ?_, fun n hn => ?_⟩
  · rcases List.mem_append.mp hn with hn | hn
    · exact h.full n hn
    · exact List.mem_singleton.mp hn
  · rcases List.mem_append.mp hn with hn | hn
    · exact h.nonempty n hn
    · obtain rfl := List.mem_singleton.mp hn
      exact ⟨hpos, le_rfl⟩

theorem pushLast (h : Sized size true sizes) {last : Nat} (hpos : 0 < last) (hle : last ≤ size) :
    Sized size false (sizes ++ [last]) := by
  refine ⟨fun n hn => h.full n ?_, fun n hn => ?_⟩
  · simpa using hn
  · rcases List.mem_append.mp hn with hn | hn
    · exact h.nonempty n hn
    · obtain rfl := List.mem_singleton.mp hn
      exact ⟨hpos, hle⟩

end Sized

namespace Pipeline

variable {R F : Type} [LinearOrder F] [OrderTop F] [OrderBot F] {ops : RowGroupBuffer R F}
  {group : RowGroup R F}

/-! ## The invariant -/

section Invariant

variable (bufs : Buffers ops group) (config : ExportConfig F) (before : Option (ParquetFile F))

/-- The draining thread has these rows. -/
def MainHolds : Main ops.Buffer → List R → Prop
  | .draining buf, rows => buf = bufs.ofRows rows ∧ rows.length < rowGroupSize config
  | .sending buf _, rows => buf = bufs.ofRows rows ∧ rows.length = rowGroupSize config
  | .sendingLast buf, rows =>
      buf = bufs.ofRows rows ∧ 0 < rows.length ∧ rows.length < rowGroupSize config
  | _, rows => rows = []

/-- The writer thread has these rows. -/
def WriterHolds : Writer ops.Buffer → List (List R) → Prop
  | .writing buf, hand => ∃ rows, buf = bufs.ofRows rows ∧ hand = [rows]
  | .recycling buf, hand => buf = bufs.ofRows [] ∧ hand = []
  | _, hand => hand = []

structure Holds (s : Pipeline R F ops.Buffer) (written hand queued : List (List R))
    (rows : List R) : Prop where
  main : MainHolds bufs config s.main rows
  writer : WriterHolds bufs s.writer hand
  writerQueue : s.writerQueue = queued.map bufs.ofRows
  nonempty : ∀ g ∈ queued, 0 < g.length
  recycleQueue : ∀ buf ∈ s.recycleQueue, buf = bufs.ofRows []
  atMostTwo : s.writer.live = true →
    s.main.held + queued.length + s.writer.held + s.recycleQueue.length ≤ 2
  bothThere : s.writer.live = true → s.main.writerTx = true →
    s.main.held + queued.length + s.writer.held + s.recycleQueue.length = 2
  closed : s.writer.live = false → s.writer.failed = false → s.main.writerTx = false ∧ queued = []
  rowGroups : s.rowGroups = written.map group.columns
  sorted : ∀ g ∈ written, g.Pairwise fun a b => group.cell a ≤ group.cell b
  totalRows : s.totalRows = written.flatten.length
  covered : ∀ g ∈ written, ∀ r ∈ g, ∀ p ∈ group.points r, ∃ b, s.bbox = some b ∧ b.Covers p
  published : ∀ n, s.writer.totalRows = some n → n = s.totalRows ∧
    s.geo = if config.options.geoparquet then some (s.bbox.getD config.fallbackBbox) else none
  failed : s.failed = (s.main.failed || s.writer.failed)
  ended : s.main.ended = true → s.writer.ended = true
  untouched : (∀ n, s.main ≠ .returned (some n)) → s.target = before
  target : ∀ n, s.main = .returned (some n) →
    s.writer.totalRows = some n ∧ s.target = some ⟨s.rowGroups, s.geo⟩
  complete : s.failed = false →
    ((written ++ hand ++ queued).flatten ++ rows).Perm s.drained
  sized : s.failed = false →
    Sized (rowGroupSize config) s.main.writerTx ((written ++ hand ++ queued).map List.length)

def Inv (s : Pipeline R F ops.Buffer) : Prop :=
  ∃ written hand queued rows, Holds bufs config before s written hand queued rows

end Invariant

variable {bufs : Buffers ops group} {config : ExportConfig F} {before : Option (ParquetFile F)}
  {s s' : Pipeline R F ops.Buffer}

omit [LinearOrder F] [OrderTop F] [OrderBot F] in
theorem rowGroupSize_pos : 0 < rowGroupSize config := by
  rw [rowGroupSize]
  omega

theorem inv_initial : Inv bufs config before (initial ops before : Pipeline R F ops.Buffer) := by
  refine ⟨[], [], [], [], ?_⟩
  constructor <;>
    simp [initial, MainHolds, WriterHolds, bufs.withCapacityAndOptions, rowGroupSize_pos,
      Main.held, Writer.held, Main.failed, Writer.failed, Main.ended, Writer.totalRows,
      Writer.live, Main.writerTx]
  exact ⟨nofun, nofun⟩

/-! ## Draining -/

theorem foldl_pushRecord (rows more : List R) :
    more.foldl ops.pushRecord (bufs.ofRows rows) = bufs.ofRows (rows ++ more) := by
  induction more generalizing rows with
  | nil => rw [List.append_nil, List.foldl_nil]
  | cons r more ih =>
    rw [List.foldl_cons, bufs.pushRecord, ih, List.append_assoc]
    rfl

/-- An iteration ends with the rows in the buffer, or there are none and the channel is
closed. -/
structure Continues (bufs : Buffers ops group) (config : ExportConfig F) (main : Main ops.Buffer)
    (rows : List R) : Prop where
  holds : MainHolds bufs config main rows
  held : main.writerTx = true → main.held = 1
  heldAtMost : main.held ≤ 1
  failed : main.failed = false
  ended : main.ended = false

theorem Continues.ne_returned {main : Main ops.Buffer} {rows : List R}
    (h : Continues bufs config main rows) (n : Option Nat) : main ≠ .returned n := by
  rintro rfl
  exact absurd h.ended (by simp [Main.ended])

theorem continues_endIteration {rows : List R} (h : rows.length < rowGroupSize config)
    (drained : Nat) :
    Continues bufs config (endIteration ops (bufs.ofRows rows) drained) rows := by
  rw [endIteration, bufs.len]
  split
  · split
    next hempty =>
      exact ⟨List.length_eq_zero_iff.mp hempty, nofun, Nat.zero_le _, rfl, rfl⟩
    next hsome =>
      exact ⟨⟨rfl, Nat.pos_of_ne_zero hsome, h⟩, fun _ => rfl, le_rfl, rfl, rfl⟩
  · exact ⟨⟨rfl, h⟩, fun _ => rfl, le_rfl, rfl, rfl⟩

theorem continues_empty (drained : Nat) :
    Continues bufs config (endIteration ops (bufs.ofRows []) drained) [] :=
  continues_endIteration (show ([] : List R).length < _ from rowGroupSize_pos) drained

theorem continues_drain {rows more : List R} (h : rows.length < rowGroupSize config)
    (hspace : more.length ≤ max (rowGroupSize config - rows.length) 1) :
    Continues bufs config
      (if rowGroupSize config ≤ ops.len (bufs.ofRows (rows ++ more)) then
        .sending (bufs.ofRows (rows ++ more)) more.length
      else endIteration ops (bufs.ofRows (rows ++ more)) more.length) (rows ++ more) := by
  rw [bufs.len]
  split
  next hfull =>
    have hlen : (rows ++ more).length = rowGroupSize config := by
      rw [List.length_append] at hfull ⊢
      omega
    exact ⟨⟨rfl, hlen⟩, fun _ => rfl, le_rfl, rfl, rfl⟩
  next hshort => exact continues_endIteration (Nat.lt_of_not_le hshort) _

section Steps

variable {written hand queued : List (List R)} {rows : List R}

theorem Holds.continues (h : Holds bufs config before s written hand queued rows)
    (htx : s.main.writerTx = true) {main : Main ops.Buffer} {rows' drained : List R}
    {recycle : List ops.Buffer} (hmain : Continues bufs config main rows')
    (hrecycle : ∀ buf ∈ recycle, buf = bufs.ofRows [])
    (hcount : s.writer.live = true → 1 + recycle.length = s.main.held + s.recycleQueue.length)
    (hcomplete : s.failed = false →
      ((written ++ hand ++ queued).flatten ++ rows').Perm drained) :
    Inv bufs config before
      { s with main := main, recycleQueue := recycle, drained := drained } := by
  have hopen : s.main.failed = false ∧ ∀ n, s.main ≠ .returned n := by
    cases hm : s.main <;> rw [hm] at htx <;> first | exact ⟨rfl, nofun⟩ | cases htx
  refine ⟨written, hand, queued, rows', { h with
    main := hmain.holds
    recycleQueue := hrecycle
    atMostTwo := fun hlive => ?_
    bothThere := fun hlive htx' => ?_
    closed := fun hlive hfail => absurd (h.closed hlive hfail).1 (by rw [htx]; nofun)
    failed := ?_
    ended := fun hended => absurd hmain.ended (by rw [hended]; nofun)
    untouched := fun _ => h.untouched fun n => hopen.2 _
    target := fun n hn => absurd hn (hmain.ne_returned _)
    complete := hcomplete
    sized := fun hfail => ?_ }⟩
  · have hboth := h.bothThere hlive htx
    have hone := hmain.heldAtMost
    have hsame := hcount hlive
    show main.held + queued.length + s.writer.held + recycle.length ≤ 2
    omega
  · have hboth := h.bothThere hlive htx
    have hone := hmain.held htx'
    have hsame := hcount hlive
    show main.held + queued.length + s.writer.held + recycle.length = 2
    omega
  · rw [h.failed, hopen.1, hmain.failed]
  · have hsized := h.sized hfail
    rw [htx] at hsized
    exact hsized.close _

theorem inv_drain (h : Inv bufs config before s) {more : List R}
    (hstep : drain ops config s more = some s') : Inv bufs config before s' := by
  obtain ⟨written, hand, queued, rows, h⟩ := h
  rw [drain] at hstep
  split at hstep
  next buf hmain =>
    obtain ⟨rfl, hrows⟩ : buf = bufs.ofRows rows ∧ rows.length < rowGroupSize config := by
      simpa only [hmain, MainHolds] using h.main
    rw [bufs.len] at hstep
    split at hstep
    next hspace =>
      simp only [Option.some.injEq, foldl_pushRecord] at hstep
      subst hstep
      refine h.continues (by rw [hmain]; rfl) (continues_drain hrows hspace) h.recycleQueue
        (fun _ => by rw [hmain]; rfl) fun hfail => ?_
      rw [← List.append_assoc]
      exact (h.complete hfail).append_right more
    next => cases hstep
  next => cases hstep

theorem inv_drainFails (h : Inv bufs config before s) {more : List R}
    (hstep : drainFails ops s more = some s') : Inv bufs config before s' := by
  obtain ⟨written, hand, queued, rows, h⟩ := h
  rw [drainFails] at hstep
  split at hstep
  next buf hmain =>
    cases hstep
    have htx : s.main.writerTx = true := by rw [hmain]; rfl
    refine ⟨written, hand, queued, [], { h with
      main := rfl
      atMostTwo := fun hlive => ?_
      bothThere := nofun
      closed := fun hlive hfail => absurd (h.closed hlive hfail).1 (by rw [htx]; nofun)
      failed := rfl
      ended := nofun
      untouched := fun _ => h.untouched fun n => by rw [hmain]; nofun
      target := nofun
      complete := nofun
      sized := nofun }⟩
    have htwo := h.atMostTwo hlive
    rw [hmain] at htwo
    simp only [Main.held] at htwo ⊢
    omega
  next => cases hstep

/-- The writer has dropped its receiver before the channel was closed: it has failed. -/
theorem Holds.writer_failed (h : Holds bufs config before s written hand queued rows)
    (htx : s.main.writerTx = true) (hlive : s.writer.live = false) : s.writer.failed = true := by
  by_contra hfail
  rw [Bool.not_eq_true] at hfail
  have hclosed := (h.closed hlive hfail).1
  rw [htx] at hclosed
  cases hclosed

theorem live_of_not_writerRx {B : Type} {w : Writer B} (h : w.writerRx = false) :
    w.live = false := by
  cases w <;> first | rfl | cases h

theorem live_of_not_recycleTx {B : Type} {w : Writer B} (h : w.recycleTx = false) :
    w.live = false := by
  cases w <;> first | rfl | cases h

/-- A send that fails ends the loop, and what was to be sent is lost. -/
theorem Holds.sendFails (h : Holds bufs config before s written hand queued rows)
    (htx : s.main.writerTx = true) (hrx : s.writer.writerRx = false) :
    Inv bufs config before { s with main := .joining } := by
  have hlive := live_of_not_writerRx hrx
  have hwriter := h.writer_failed htx hlive
  have hfailed : s.failed = true := by rw [h.failed, hwriter, Bool.or_true]
  have hopen : ∀ n, s.main ≠ .returned n := by
    intro n hn
    rw [hn] at htx
    cases htx
  exact ⟨written, hand, queued, [], { h with
    main := rfl
    atMostTwo := fun hl => by rw [hlive] at hl; cases hl
    bothThere := nofun
    closed := fun _ hfail => by rw [hwriter] at hfail; cases hfail
    failed := by rw [hfailed, hwriter, Bool.or_true]
    ended := nofun
    untouched := fun _ => h.untouched fun n => hopen _
    target := nofun
    complete := fun hfail => by rw [hfailed] at hfail; cases hfail
    sized := fun hfail => by rw [hfailed] at hfail; cases hfail }⟩

/-- A send moves the rows of the current buffer behind those that are queued. -/
theorem Holds.send (h : Holds bufs config before s written hand queued rows)
    (htx : s.main.writerTx = true) (hheld : s.main.held = 1) {main : Main ops.Buffer}
    (hholds : MainHolds bufs config main []) (hmain : main.held = 0 ∧ main.failed = false ∧
      main.ended = false) (hrows : 0 < rows.length)
    (hsized : Sized (rowGroupSize config) true ((written ++ hand ++ queued).map List.length) →
      Sized (rowGroupSize config) main.writerTx
        ((written ++ hand ++ queued).map List.length ++ [rows.length])) :
    Inv bufs config before
      { s with main := main, writerQueue := s.writerQueue ++ [bufs.ofRows rows] } := by
  have hopen : s.main.failed = false ∧ ∀ n, s.main ≠ .returned n := by
    cases hm : s.main <;> rw [hm] at htx <;> first | exact ⟨rfl, nofun⟩ | cases htx
  refine ⟨written, hand, queued ++ [rows], [], { h with
    main := hholds
    writerQueue := by rw [h.writerQueue, List.map_append, List.map_singleton]
    nonempty := fun g hg => ?_
    atMostTwo := fun hlive => ?_
    bothThere := fun hlive _ => ?_
    closed := fun hlive hfail => absurd (h.closed hlive hfail).1 (by rw [htx]; nofun)
    failed := by rw [h.failed, hopen.1, hmain.2.1]
    ended := fun hended => absurd hmain.2.2 (by rw [hended]; nofun)
    untouched := fun _ => h.untouched fun n => hopen.2 _
    target := fun n hn => absurd hmain.2.2 (by rw [show main = _ from hn]; nofun)
    complete := fun hfail => ?_
    sized := fun hfail => ?_ }⟩
  · rcases List.mem_append.mp hg with hg | hg
    · exact h.nonempty g hg
    · obtain rfl := List.mem_singleton.mp hg
      exact hrows
  · have hboth := h.bothThere hlive htx
    show main.held + (queued ++ [rows]).length + s.writer.held + s.recycleQueue.length ≤ 2
    rw [List.length_append, List.length_singleton]
    omega
  · have hboth := h.bothThere hlive htx
    show main.held + (queued ++ [rows]).length + s.writer.held + s.recycleQueue.length = 2
    rw [List.length_append, List.length_singleton]
    omega
  · have hcomplete := h.complete hfail
    rw [← List.append_assoc, List.flatten_append, List.flatten_singleton, List.append_nil]
    exact hcomplete
  · have hsame := h.sized hfail
    rw [htx] at hsame
    rw [← List.append_assoc, List.map_append, List.map_singleton]
    exact hsized hsame

theorem inv_stepMain (h : Inv bufs config before s) (hstep : stepMain ops s = some s') :
    Inv bufs config before s' := by
  obtain ⟨written, hand, queued, rows, h⟩ := h
  have hmainHolds := h.main
  rw [stepMain] at hstep
  split at hstep
  next => cases hstep
  next buf drained hmain =>
    obtain ⟨rfl, hrows⟩ : buf = bufs.ofRows rows ∧ rows.length = rowGroupSize config := by
      simpa only [hmain, MainHolds] using hmainHolds
    have htx : s.main.writerTx = true := by rw [hmain]; rfl
    split at hstep
    next hrx =>
      cases hstep
      exact h.sendFails htx hrx
    next =>
      split at hstep
      next =>
        cases hstep
        refine h.send htx (by rw [hmain]; rfl) rfl ⟨rfl, rfl, rfl⟩ (hrows ▸ rowGroupSize_pos)
          fun hsized => ?_
        rw [hrows]
        exact hsized.push rowGroupSize_pos
      next => cases hstep
  next drained hmain =>
    obtain rfl : rows = [] := by simpa only [hmain, MainHolds] using hmainHolds
    have htx : s.main.writerTx = true := by rw [hmain]; rfl
    split at hstep
    next buf rest hrecycle =>
      cases hstep
      obtain rfl := h.recycleQueue buf (by rw [hrecycle]; exact List.mem_cons_self)
      refine h.continues htx (continues_empty drained)
        (fun b hb => h.recycleQueue b ?_) (fun _ => ?_) h.complete
      · rw [hrecycle]
        exact List.mem_cons_of_mem _ hb
      · rw [hrecycle, hmain, List.length_cons]
        simp only [Main.held]
        omega
    next hrecycle =>
      split at hstep
      next => cases hstep
      next htxAlive =>
        cases hstep
        have hlive := live_of_not_recycleTx (Bool.not_eq_true _ ▸ htxAlive)
        refine h.continues htx ?_ h.recycleQueue (fun hl => by rw [hlive] at hl; cases hl)
          h.complete
        rw [bufs.withCapacityAndOptions]
        exact continues_empty drained
  next buf hmain =>
    obtain ⟨rfl, hpos, hrows⟩ : buf = bufs.ofRows rows ∧ 0 < rows.length ∧
        rows.length < rowGroupSize config := by
      simpa only [hmain, MainHolds] using hmainHolds
    have htx : s.main.writerTx = true := by rw [hmain]; rfl
    split at hstep
    next hrx =>
      cases hstep
      exact h.sendFails htx hrx
    next =>
      split at hstep
      next =>
        cases hstep
        exact h.send htx (by rw [hmain]; rfl) rfl ⟨rfl, rfl, rfl⟩ hpos
          fun hsized => hsized.pushLast hpos hrows.le
      next => cases hstep
  next hmain =>
    cases hstep
    have hrows : rows = [] := by simpa only [hmain, MainHolds] using hmainHolds
    refine ⟨written, hand, queued, rows, { h with
      main := hrows
      recycleQueue := nofun
      atMostTwo := fun hlive => ?_
      bothThere := nofun
      closed := fun hlive hfail => ⟨rfl, (h.closed hlive hfail).2⟩
      failed := by rw [h.failed, hmain]; rfl
      ended := nofun
      untouched := fun _ => h.untouched fun n => by rw [hmain]; nofun
      target := nofun
      sized := fun hfail => by rw [h.failed, hmain] at hfail; cases hfail }⟩
    have htwo := h.atMostTwo hlive
    rw [hmain] at htwo
    simp only [Main.held, List.length_nil] at htwo ⊢
    omega
  next hmain =>
    have hrows : rows = [] := by simpa only [hmain, MainHolds] using hmainHolds
    split at hstep
    next result hwriter =>
      cases hstep
      exact ⟨written, hand, queued, rows, { h with
        main := hrows
        atMostTwo := fun hlive => by rw [hwriter] at hlive; cases hlive
        bothThere := nofun
        closed := fun hlive hfail => ⟨rfl, (h.closed hlive hfail).2⟩
        failed := by rw [h.failed, hmain]; rfl
        ended := fun _ => by rw [hwriter]; rfl
        untouched := fun _ => h.untouched fun n => by rw [hmain]; nofun
        target := nofun
        sized := fun hfail => by rw [h.failed, hmain] at hfail; cases hfail }⟩
    next => cases hstep
  next hmain =>
    have hrows : rows = [] := by simpa only [hmain, MainHolds] using hmainHolds
    split at hstep
    next hwriter =>
      cases hstep
      exact ⟨written, hand, queued, rows, { h with
        main := hrows
        atMostTwo := fun hlive => by rw [hwriter] at hlive; cases hlive
        bothThere := nofun
        closed := fun hlive hfail => by rw [hwriter] at hfail; cases hfail
        failed := by rw [h.failed, hmain, hwriter]; rfl
        ended := fun _ => by rw [hwriter]; rfl
        untouched := fun _ => h.untouched fun n => by rw [hmain]; nofun
        target := nofun
        sized := fun hfail => by rw [h.failed, hwriter, Bool.or_comm] at hfail; cases hfail }⟩
    next total hwriter =>
      cases hstep
      exact ⟨written, hand, queued, rows, { h with
        main := hrows
        atMostTwo := fun hlive => by rw [hwriter] at hlive; cases hlive
        bothThere := nofun
        closed := fun hlive hfail => ⟨rfl, (h.closed hlive hfail).2⟩
        failed := by rw [h.failed, hmain]; rfl
        ended := fun _ => by rw [hwriter]; rfl
        untouched := fun hne => absurd rfl (hne total)
        target := fun n hn => by
          cases hn
          exact ⟨by rw [hwriter]; rfl, rfl⟩
        sized := fun hfail => by
          have hsized := h.sized hfail
          rw [hmain] at hsized
          exact hsized }⟩
    next => cases hstep
  next => cases hstep

theorem inv_persistFails (h : Inv bufs config before s) (hstep : persistFails ops s = some s') :
    Inv bufs config before s' := by
  obtain ⟨written, hand, queued, rows, h⟩ := h
  rw [persistFails] at hstep
  split at hstep
  next hmain hwriter =>
    cases hstep
    have hrows : rows = [] := by simpa only [hmain, MainHolds] using h.main
    exact ⟨written, hand, queued, rows, { h with
      main := hrows
      atMostTwo := fun hlive => by rw [hwriter] at hlive; cases hlive
      bothThere := nofun
      closed := fun hlive hfail => ⟨rfl, (h.closed hlive hfail).2⟩
      failed := rfl
      ended := fun _ => by rw [hwriter]; rfl
      untouched := fun _ => h.untouched fun n => by rw [hmain]; nofun
      target := nofun
      complete := nofun
      sized := nofun }⟩
  next => cases hstep

/-- A writer that has not ended leaves the target path alone. -/
theorem Holds.ne_returned (h : Holds bufs config before s written hand queued rows)
    (hwriter : s.writer.ended = false) (n : Option Nat) : s.main ≠ .returned n := by
  intro hmain
  have hended := h.ended (by rw [hmain]; rfl)
  rw [hwriter] at hended
  cases hended

theorem covers_bbox {written : List R} {bbox : Option (Bounds F)} {r : R} {p : F × F}
    (hr : r ∈ written) (hp : p ∈ group.points r) :
    ∃ b, mergeBbox bbox (ops.geometryBounds (bufs.ofRows written)) = some b ∧ b.Covers p := by
  have hcovers : (Bounds.ofPoints (written.flatMap group.points)).Covers p :=
    Bounds.covers_extendWkb _ (List.mem_flatMap.mpr ⟨r, hr, hp⟩)
  rw [bufs.geometryBounds, hcovers.nonEmpty]
  cases bbox with
  | none => exact ⟨_, rfl, hcovers⟩
  | some a => exact ⟨_, rfl, hcovers.union_right a⟩

omit [OrderTop F] [OrderBot F] in
theorem covers_bbox_of_covers {bbox : Option (Bounds F)} {p : F × F}
    (h : ∃ b, bbox = some b ∧ b.Covers p) (bounds : Option (Bounds F)) :
    ∃ b, mergeBbox bbox bounds = some b ∧ b.Covers p := by
  obtain ⟨a, rfl, hcovers⟩ := h
  cases bounds with
  | none => exact ⟨a, rfl, hcovers⟩
  | some b => exact ⟨_, rfl, hcovers.union_left b⟩

/-- Writing a buffer moves its rows, sorted, behind those that are written. -/
theorem Holds.write (h : Holds bufs config before s written [rows'] queued rows)
    {buf : ops.Buffer} (hwriter : s.writer = .writing buf) {sorted : List R}
    (hperm : sorted.Perm rows')
    (hsorted : sorted.Pairwise fun a b => group.cell a ≤ group.cell b) :
    Holds bufs config before
      { s with
        writer := .recycling (bufs.ofRows [])
        rowGroups := s.rowGroups ++ [group.columns sorted]
        totalRows := s.totalRows + sorted.length
        bbox := mergeBbox s.bbox (ops.geometryBounds (bufs.ofRows sorted)) } (written ++ [sorted]) [] queued rows := by
  have hlive : s.writer.live = true := by rw [hwriter]; rfl
  exact { h with
    writer := ⟨rfl, rfl⟩
    atMostTwo := fun _ => by
      have htwo := h.atMostTwo hlive
      rwa [hwriter] at htwo
    bothThere := fun _ htx => by
      have hboth := h.bothThere hlive htx
      rwa [hwriter] at hboth
    closed := nofun
    rowGroups := by rw [h.rowGroups, List.map_append, List.map_singleton]
    sorted := fun g hg => by
      rcases List.mem_append.mp hg with hg | hg
      · exact h.sorted g hg
      · obtain rfl := List.mem_singleton.mp hg
        exact hsorted
    totalRows := by
      rw [h.totalRows, List.flatten_append, List.length_append, List.flatten_singleton]
    covered := fun g hg r hr p hp => by
      rcases List.mem_append.mp hg with hg | hg
      · exact covers_bbox_of_covers (h.covered g hg r hr p hp) _
      · obtain rfl := List.mem_singleton.mp hg
        exact covers_bbox hr hp
    published := nofun
    failed := by rw [h.failed, hwriter]; rfl
    ended := fun hended => absurd (h.ended hended) (by rw [hwriter]; nofun)
    target := fun n hn => absurd hn (h.ne_returned (by rw [hwriter]; rfl) _)
    complete := fun hfail => by
      refine List.Perm.trans ?_ (h.complete hfail)
      simp only [List.flatten_append, List.flatten_singleton, List.append_nil, List.append_assoc]
      exact (hperm.append_right _).append_left _
    sized := fun hfail => by
      have hsized := h.sized hfail
      simp only [List.map_append, List.map_singleton, ← hperm.length_eq] at hsized
      simpa only [List.map_append, List.map_singleton, List.map_nil, List.append_nil] using
        hsized }

theorem inv_stepWriter (h : Inv bufs config before s)
    (hstep : stepWriter ops config s = some s') : Inv bufs config before s' := by
  obtain ⟨written, hand, queued, rows, h⟩ := h
  have hwriterHolds := h.writer
  rw [stepWriter] at hstep
  split at hstep
  next hwriter =>
    obtain rfl : hand = [] := by simpa only [hwriter, WriterHolds] using hwriterHolds
    have hlive : s.writer.live = true := by rw [hwriter]; rfl
    have hopen := h.ne_returned (by rw [hwriter]; rfl)
    split at hstep
    next buf rest hqueue =>
      cases queued with
      | nil => rw [h.writerQueue] at hqueue; cases hqueue
      | cons g queued =>
        rw [h.writerQueue, List.map_cons] at hqueue
        obtain ⟨rfl, rfl⟩ := List.cons.inj hqueue
        have hg : g.length ≠ 0 := (h.nonempty g List.mem_cons_self).ne'
        rw [bufs.len, if_neg hg] at hstep
        cases hstep
        exact ⟨written, [g], queued, rows, { h with
          writer := ⟨g, rfl, rfl⟩
          writerQueue := rfl
          nonempty := fun g' hg' => h.nonempty g' (List.mem_cons_of_mem _ hg')
          atMostTwo := fun _ => by
            have htwo := h.atMostTwo hlive
            rw [hwriter, List.length_cons] at htwo
            simp only [Writer.held] at htwo ⊢
            omega
          bothThere := fun _ htx => by
            have hboth := h.bothThere hlive htx
            rw [hwriter, List.length_cons] at hboth
            simp only [Writer.held] at hboth ⊢
            omega
          closed := nofun
          published := nofun
          failed := by rw [h.failed, hwriter]; rfl
          ended := fun hended => absurd (h.ended hended) (by rw [hwriter]; nofun)
          target := fun n hn => absurd hn (hopen _)
          complete := fun hfail => by simpa using h.complete hfail
          sized := fun hfail => by simpa using h.sized hfail }⟩
    next hqueue =>
      split at hstep
      next => cases hstep
      next htx =>
        cases hstep
        have hqueued : queued = [] := by
          rw [h.writerQueue] at hqueue
          exact List.map_eq_nil_iff.mp hqueue
        exact ⟨written, [], queued, rows, { h with
          writer := rfl
          atMostTwo := nofun
          bothThere := nofun
          closed := fun _ _ => ⟨by simpa using htx, hqueued⟩
          published := nofun
          failed := by rw [h.failed, hwriter]; rfl
          ended := fun hended => absurd (h.ended hended) (by rw [hwriter]; nofun)
          target := fun n hn => absurd hn (hopen _) }⟩
  next buf hwriter =>
    obtain ⟨rows', rfl, rfl⟩ : ∃ rows, buf = bufs.ofRows rows ∧ hand = [rows] := by
      simpa only [hwriter, WriterHolds] using hwriterHolds
    obtain ⟨sorted, hperm, hsorted, hbuf⟩ := bufs.sortByH3Index rows'
    simp only [hbuf, bufs.clear, bufs.flushToRowGroup, bufs.len, Option.some.injEq] at hstep
    subst hstep
    exact ⟨_, _, _, _, h.write hwriter hperm hsorted⟩
  next buf hwriter =>
    obtain ⟨rfl, rfl⟩ : buf = bufs.ofRows [] ∧ hand = [] := by
      simpa only [hwriter, WriterHolds] using hwriterHolds
    have hlive : s.writer.live = true := by rw [hwriter]; rfl
    have hopen := h.ne_returned (by rw [hwriter]; rfl)
    split at hstep
    next hrx =>
      cases hstep
      have htx : s.main.writerTx = false := by
        cases hm : s.main <;> rw [hm] at hrx <;> first | rfl | cases hrx
      exact ⟨written, [], queued, rows, { h with
        writer := rfl
        atMostTwo := fun _ => by
          have htwo := h.atMostTwo hlive
          rw [hwriter] at htwo
          simp only [Writer.held] at htwo ⊢
          omega
        bothThere := fun _ htx' => by rw [htx] at htx'; cases htx'
        closed := nofun
        published := nofun
        failed := by rw [h.failed, hwriter]; rfl
        ended := fun hended => absurd (h.ended hended) (by rw [hwriter]; nofun)
        target := fun n hn => absurd hn (hopen _) }⟩
    next =>
      split at hstep
      next =>
        cases hstep
        exact ⟨written, [], queued, rows, { h with
          writer := rfl
          recycleQueue := fun buf hbuf => by
            rcases List.mem_append.mp hbuf with hbuf | hbuf
            · exact h.recycleQueue buf hbuf
            · exact List.mem_singleton.mp hbuf
          atMostTwo := fun _ => by
            have htwo := h.atMostTwo hlive
            rw [hwriter] at htwo
            simp only [Writer.held, List.length_append, List.length_singleton] at htwo ⊢
            omega
          bothThere := fun _ htx => by
            have hboth := h.bothThere hlive htx
            rw [hwriter] at hboth
            simp only [Writer.held, List.length_append, List.length_singleton] at hboth ⊢
            omega
          closed := nofun
          published := nofun
          failed := by rw [h.failed, hwriter]; rfl
          ended := fun hended => absurd (h.ended hended) (by rw [hwriter]; nofun)
          target := fun n hn => absurd hn (hopen _) }⟩
      next => cases hstep
  next hwriter =>
    cases hstep
    have hhand : hand = [] := by simpa only [hwriter, WriterHolds] using hwriterHolds
    exact ⟨written, hand, queued, rows, { h with
      writer := hhand
      atMostTwo := nofun
      bothThere := nofun
      closed := fun _ _ => h.closed (by rw [hwriter]; rfl) (by rw [hwriter]; rfl)
      published := fun n hn => by
        cases hn
        exact ⟨rfl, rfl⟩
      failed := by rw [h.failed, hwriter]; rfl
      ended := fun hended => absurd (h.ended hended) (by rw [hwriter]; nofun)
      target := fun n hn => absurd hn (h.ne_returned (by rw [hwriter]; rfl) _) }⟩
  next result hwriter =>
    cases hstep
    have hhand : hand = [] := by simpa only [hwriter, WriterHolds] using hwriterHolds
    exact ⟨written, hand, queued, rows, { h with
      writer := hhand
      atMostTwo := nofun
      bothThere := nofun
      closed := fun _ hfail => h.closed (by rw [hwriter]; rfl) <| by
        cases result with
        | none => cases hfail
        | some total => rw [hwriter]; rfl
      published := fun n hn => h.published n (by rw [hwriter]; exact hn)
      failed := by
        rw [h.failed, hwriter]
        cases result <;> rfl
      ended := fun _ => rfl
      target := fun n hn => absurd hn (h.ne_returned (by rw [hwriter]; rfl) _) }⟩
  next => cases hstep
  next => cases hstep

theorem inv_writerFails (h : Inv bufs config before s) (hstep : writerFails ops s = some s') :
    Inv bufs config before s' := by
  obtain ⟨written, hand, queued, rows, h⟩ := h
  have hfails : s.writer.ended = false →
      Inv bufs config before { s with writer := .returning none true true, failed := true } :=
    fun hended => ⟨written, [], queued, rows, { h with
      writer := rfl
      atMostTwo := nofun
      bothThere := nofun
      closed := nofun
      published := nofun
      failed := (Bool.or_true _).symm
      ended := fun hmain => absurd (h.ended hmain) (by rw [hended]; nofun)
      target := fun n hn => absurd hn (h.ne_returned hended _)
      complete := nofun
      sized := nofun }⟩
  rw [writerFails] at hstep
  split at hstep
  next hwriter =>
    cases hstep
    exact hfails (by rw [hwriter]; rfl)
  next hwriter =>
    cases hstep
    exact hfails (by rw [hwriter]; rfl)
  next => cases hstep

theorem inv_dropWriterRx (h : Inv bufs config before s) (hstep : dropWriterRx ops s = some s') :
    Inv bufs config before s' := by
  obtain ⟨written, hand, queued, rows, h⟩ := h
  rw [dropWriterRx] at hstep
  split at hstep
  next result recycleTx hwriter =>
    cases hstep
    have hhand : hand = [] := by simpa only [hwriter, WriterHolds] using h.writer
    have hfailed : Writer.failed (.returning result false recycleTx : Writer ops.Buffer) =
        s.writer.failed := by
      rw [hwriter]
      cases result <;> rfl
    -- the queue is empty unless the writer failed
    have hqueued : s.failed = false → queued = [] := fun hfail => by
      rw [h.failed, Bool.or_eq_false_iff] at hfail
      exact (h.closed (by rw [hwriter]; rfl) hfail.2).2
    exact ⟨written, hand, [], rows, { h with
      writer := hhand
      writerQueue := rfl
      nonempty := nofun
      atMostTwo := nofun
      bothThere := nofun
      closed := fun _ hfail =>
        ⟨(h.closed (by rw [hwriter]; rfl) (by rw [← hfailed]; exact hfail)).1, rfl⟩
      published := fun n hn => h.published n (by rw [hwriter]; exact hn)
      failed := by rw [h.failed, ← hfailed]
      ended := fun hended => absurd (h.ended hended) (by rw [hwriter]; nofun)
      target := fun n hn => absurd hn (h.ne_returned (by rw [hwriter]; rfl) _)
      complete := fun hfail => by
        have hcomplete := h.complete hfail
        rwa [hqueued hfail] at hcomplete
      sized := fun hfail => by
        have hsized := h.sized hfail
        rwa [hqueued hfail] at hsized }⟩
  next => cases hstep

theorem inv_dropRecycleTx (h : Inv bufs config before s)
    (hstep : dropRecycleTx ops s = some s') : Inv bufs config before s' := by
  obtain ⟨written, hand, queued, rows, h⟩ := h
  rw [dropRecycleTx] at hstep
  split at hstep
  next result writerRx hwriter =>
    cases hstep
    have hhand : hand = [] := by simpa only [hwriter, WriterHolds] using h.writer
    have hfailed : Writer.failed (.returning result writerRx false : Writer ops.Buffer) =
        s.writer.failed := by
      rw [hwriter]
      cases result <;> rfl
    exact ⟨written, hand, queued, rows, { h with
      writer := hhand
      atMostTwo := nofun
      bothThere := nofun
      closed := fun _ hfail => h.closed (by rw [hwriter]; rfl) (by rw [← hfailed]; exact hfail)
      published := fun n hn => h.published n (by rw [hwriter]; exact hn)
      failed := by rw [h.failed, ← hfailed]
      ended := fun hended => absurd (h.ended hended) (by rw [hwriter]; nofun)
      target := fun n hn => absurd hn (h.ne_returned (by rw [hwriter]; rfl) _) }⟩
  next => cases hstep

end Steps

theorem inv_step (h : Inv bufs config before s) {action : Action R}
    (hstep : step ops config s action = some s') : Inv bufs config before s' := by
  cases action with
  | drain rows => exact inv_drain h hstep
  | drainFails rows => exact inv_drainFails h hstep
  | main => exact inv_stepMain h hstep
  | persistFails => exact inv_persistFails h hstep
  | writer => exact inv_stepWriter h hstep
  | writerFails => exact inv_writerFails h hstep
  | dropWriterRx => exact inv_dropWriterRx h hstep
  | dropRecycleTx => exact inv_dropRecycleTx h hstep

theorem inv_run (h : Inv bufs config before s) {actions : List (Action R)}
    (hrun : run ops config s actions = some s') : Inv bufs config before s' := by
  induction actions generalizing s with
  | nil => cases hrun; exact h
  | cons action actions ih =>
    obtain ⟨next, hstep, hrest⟩ := Option.bind_eq_some_iff.mp hrun
    exact ih (inv_step h hstep) hrest

/-! ## What a run leaves -/

/-- The file has these rows. -/
structure Exported (group : RowGroup R F) (config : ExportConfig F) (drained : List R)
    (file : ParquetFile F) (totalRows : Nat) (groups : List (List R)) : Prop where
  rowGroups : file.rowGroups = groups.map group.columns
  rows : groups.flatten.Perm drained
  full : ∀ g ∈ groups.dropLast, g.length = rowGroupSize config
  nonempty : ∀ g ∈ groups, 0 < g.length ∧ g.length ≤ rowGroupSize config
  sorted : ∀ g ∈ groups, g.Pairwise fun a b => group.cell a ≤ group.cell b
  totalRows : totalRows = drained.length
  bbox : config.options.geoparquet = true → ∃ b, file.geo = some b ∧
    ∀ r ∈ drained, ∀ p ∈ group.points r, b.Covers p
  noGeo : config.options.geoparquet = false → file.geo = none

theorem exported_of_inv (h : Inv bufs config before s) {n : Nat}
    (hmain : s.main = .returned (some n)) :
    s.failed = false ∧ ∃ file groups, s.target = some file ∧
      Exported group config s.drained file n groups := by
  obtain ⟨written, hand, queued, rows, h⟩ := h
  obtain ⟨hresult, htarget⟩ := h.target n hmain
  obtain ⟨hn, hgeo⟩ := h.published n hresult
  have hrows : rows = [] := by simpa only [hmain, MainHolds] using h.main
  have hwriter : s.writer.live = false ∧ s.writer.failed = false ∧ hand = [] := by
    have hholds := h.writer
    cases hw : s.writer <;> rw [hw] at hresult hholds <;> cases hresult <;>
      exact ⟨rfl, rfl, hholds⟩
  obtain ⟨hlive, hfailed, rfl⟩ := hwriter
  obtain ⟨htx, rfl⟩ := h.closed hlive hfailed
  have hfail : s.failed = false := by rw [h.failed, hmain, hfailed]; rfl
  have hcomplete := h.complete hfail
  have hsized := h.sized hfail
  subst hrows
  simp only [List.append_nil, htx] at hcomplete hsized
  refine ⟨hfail, _, written, htarget, h.rowGroups, hcomplete, fun g hg => ?_, fun g hg => ?_,
    h.sorted, ?_, fun hon => ?_, fun hoff => ?_⟩
  · refine hsized.full _ ?_
    rw [if_neg Bool.false_ne_true, ← List.map_dropLast]
    exact List.mem_map_of_mem hg
  · exact hsized.nonempty _ (List.mem_map_of_mem hg)
  · rw [hn, h.totalRows, hcomplete.length_eq]
  · refine ⟨s.bbox.getD config.fallbackBbox, by rw [hgeo, if_pos hon], fun r hr p hp => ?_⟩
    obtain ⟨g, hg, hrg⟩ := List.mem_flatten.mp (hcomplete.symm.subset hr)
    obtain ⟨b, hb, hcovers⟩ := h.covered g hg r hrg p hp
    rw [hb]
    exact hcovers
  · rw [hgeo, if_neg (by rw [hoff]; nofun)]

theorem untouched_of_inv (h : Inv bufs config before s)
    (hmain : s.failed = true ∨ ∀ n, s.main ≠ .returned (some n)) : s.target = before := by
  rcases hmain with hfail | hmain
  · by_contra htouched
    have hreturned : ∃ n, s.main = .returned (some n) := by
      obtain ⟨written, hand, queued, rows, h⟩ := h
      by_contra hno
      exact htouched (h.untouched fun n hn => hno ⟨n, hn⟩)
    obtain ⟨n, hn⟩ := hreturned
    rw [(exported_of_inv h hn).1] at hfail
    cases hfail
  · obtain ⟨written, hand, queued, rows, h⟩ := h
    exact h.untouched hmain

theorem recycled_of_inv (h : Inv bufs config before s) :
    ∀ buf ∈ s.recycleQueue, buf = ops.withCapacityAndOptions := by
  obtain ⟨written, hand, queued, rows, h⟩ := h
  rw [bufs.withCapacityAndOptions]
  exact h.recycleQueue

/-! ## Nobody waits forever -/

omit [LinearOrder F] [OrderTop F] [OrderBot F] in
theorem drain_isSome {buf : ops.Buffer} (hmain : s.main = .draining buf) {rows : List R}
    (h : rows.length ≤ max (rowGroupSize config - ops.len buf) 1) :
    (drain ops config s rows).isSome = true := by
  rw [drain, hmain]
  simp only [h, if_true, Option.isSome_some]

/-- The streamer is called, or one of the threads can go on. -/
def CanStep (config : ExportConfig F) (s : Pipeline R F ops.Buffer) : Prop :=
  (∃ buf, s.main = .draining buf ∧ ∀ rows : List R,
      rows.length ≤ max (rowGroupSize config - ops.len buf) 1 →
      (drain ops config s rows).isSome = true) ∨
    ∃ action ∈ [Action.main, .writer, .dropWriterRx, .dropRecycleTx],
      (step ops config s action).isSome = true

omit [OrderTop F] [OrderBot F] in
theorem canStep_draining {buf : ops.Buffer} (hmain : s.main = .draining buf) :
    CanStep config s := Or.inl ⟨buf, hmain, fun _ => drain_isSome hmain⟩

omit [OrderTop F] [OrderBot F] in
theorem canStep_main (h : (stepMain ops s).isSome = true) : CanStep config s :=
  Or.inr ⟨.main, by simp, h⟩

omit [OrderTop F] [OrderBot F] in
theorem canStep_writer (h : (stepWriter ops config s).isSome = true) : CanStep config s :=
  Or.inr ⟨.writer, by simp, h⟩

/-- A writer that waits for a buffer. The draining thread has one, or it takes the one that
was sent back, or it has closed the channel. -/
theorem Holds.canStep_receiving {written hand queued : List (List R)} {rows : List R}
    (h : Holds bufs config before s written hand queued rows) (hwriter : s.writer = .receiving) :
    CanStep config s := by
  cases hqueue : s.writerQueue with
  | cons buf rest => exact canStep_writer (by simp [stepWriter, hwriter, hqueue])
  | nil =>
    have hqueued : queued = [] := by
      have hmap := h.writerQueue
      rw [hqueue] at hmap
      exact List.map_eq_nil_iff.mp hmap.symm
    subst hqueued
    cases hmain : s.main with
    | draining buf => exact canStep_draining hmain
    | sending buf drained =>
      exact canStep_main (by simp [stepMain, hmain, hwriter, hqueue, Writer.writerRx, channelBound])
    | recycling drained =>
      have htwo := h.bothThere (by rw [hwriter]; rfl) (by rw [hmain]; rfl)
      rw [hmain, hwriter] at htwo
      cases hrecycle : s.recycleQueue with
      | nil =>
        rw [hrecycle] at htwo
        simp [Main.held, Writer.held] at htwo
      | cons buf rest => exact canStep_main (by simp [stepMain, hmain, hrecycle])
    | sendingLast buf =>
      exact canStep_main (by simp [stepMain, hmain, hwriter, hqueue, Writer.writerRx, channelBound])
    | streamFailed => exact canStep_main (by simp [stepMain, hmain])
    | joiningFailed | joining | returned _ =>
      exact canStep_writer (by simp [stepWriter, hwriter, hqueue, hmain, Main.writerTx])

omit [OrderTop F] [OrderBot F] in
/-- Nothing can block a draining thread whose writer has ended. -/
theorem canStep_finished {total : Option Nat} (hwriter : s.writer = .finished total) :
    (s.main.ended = true ∧ s.writer.ended = true) ∨ CanStep config s := by
  cases hmain : s.main with
  | draining buf => exact Or.inr (canStep_draining hmain)
  | sending buf drained =>
    exact Or.inr (canStep_main (by simp [stepMain, hmain, hwriter, Writer.writerRx]))
  | recycling drained =>
    cases hrecycle : s.recycleQueue with
    | nil =>
      exact Or.inr (canStep_main (by simp [stepMain, hmain, hwriter, hrecycle, Writer.recycleTx]))
    | cons buf rest => exact Or.inr (canStep_main (by simp [stepMain, hmain, hrecycle]))
  | sendingLast buf =>
    exact Or.inr (canStep_main (by simp [stepMain, hmain, hwriter, Writer.writerRx]))
  | streamFailed => exact Or.inr (canStep_main (by simp [stepMain, hmain]))
  | joiningFailed => exact Or.inr (canStep_main (by simp [stepMain, hmain, hwriter]))
  | joining =>
    cases total with
    | none => exact Or.inr (canStep_main (by simp [stepMain, hmain, hwriter]))
    | some n => exact Or.inr (canStep_main (by simp [stepMain, hmain, hwriter]))
  | returned result => exact Or.inl ⟨rfl, by rw [hwriter]; rfl⟩

theorem canStep_of_inv (h : Inv bufs config before s) :
    (s.main.ended = true ∧ s.writer.ended = true) ∨ CanStep config s := by
  obtain ⟨written, hand, queued, rows, h⟩ := h
  cases hwriter : s.writer with
  | receiving => exact Or.inr (h.canStep_receiving hwriter)
  | writing buf => exact Or.inr (canStep_writer (by simp [stepWriter, hwriter]))
  | recycling buf =>
    refine Or.inr (canStep_writer ?_)
    have htwo := h.atMostTwo (by rw [hwriter]; rfl)
    rw [hwriter] at htwo
    have hroom : s.recycleQueue.length < channelBound := by
      simp only [Writer.held, channelBound] at htwo ⊢
      omega
    rw [stepWriter, hwriter]
    simp only [hroom, if_true]
    split <;> rfl
  | closing => exact Or.inr (canStep_writer (by simp [stepWriter, hwriter]))
  | returning result writerRx recycleTx =>
    refine Or.inr ?_
    cases writerRx with
    | true => exact Or.inr ⟨.dropWriterRx, by simp, by simp [step, dropWriterRx, hwriter]⟩
    | false =>
      cases recycleTx with
      | true => exact Or.inr ⟨.dropRecycleTx, by simp, by simp [step, dropRecycleTx, hwriter]⟩
      | false => exact canStep_writer (by simp [stepWriter, hwriter])
  | finished total => rw [← hwriter]; exact canStep_finished hwriter

/-! ## Every run -/

/-- What an export promises of a state it reaches. -/
structure Reaches (ops : RowGroupBuffer R F) (group : RowGroup R F) (config : ExportConfig F)
    (before : Option (ParquetFile F)) (s : Pipeline R F ops.Buffer) : Prop where
  exported : ∀ n, s.main = .returned (some n) → s.failed = false ∧
    ∃ file groups, s.target = some file ∧ Exported group config s.drained file n groups
  untouched : (s.failed = true ∨ ∀ n, s.main ≠ .returned (some n)) → s.target = before
  recycled : ∀ buf ∈ s.recycleQueue, buf = ops.withCapacityAndOptions
  progress : (s.main.ended = true ∧ s.writer.ended = true) ∨ CanStep config s

theorem reaches_of_inv (h : Inv bufs config before s) : Reaches ops group config before s :=
  ⟨fun _ => exported_of_inv h, untouched_of_inv h, recycled_of_inv h, canStep_of_inv h⟩

end Pipeline

open Pipeline

/-- Whatever the streamer, the file and the scheduler do. -/
theorem parquet_exports {A F : Type} [LinearOrder F] [OrderTop F] [OrderBot F] [Inhabited F]
    [Zero F] (cells : Cells F) (sort : UnstableSort) (config : ExportConfig F)
    (before : Option (ParquetFile F)) :
    (∀ (stats : ContinuousStats A F) actions s,
      run (continuousBuffer cells stats sort config.options) config (initial _ before) actions =
        some s →
      Reaches _ (continuousRowGroup cells config.options stats) config before s) ∧
    ∀ (stats : CategoricalStats A F) actions s,
      run (categoricalBuffer cells stats sort config.options) config (initial _ before) actions =
        some s →
      Reaches _ (categoricalRowGroup cells config.options stats) config before s := by
  refine ⟨fun stats actions s hrun => ?_, fun stats actions s hrun => ?_⟩
  · have hinv : Inv (ContinuousRowGroupBuffer.buffers cells sort config.options stats) config
        before s := inv_run inv_initial hrun
    exact reaches_of_inv hinv
  · have hinv : Inv (CategoricalRowGroupBuffer.buffers cells sort config.options stats) config
        before s := inv_run inv_initial hrun
    exact reaches_of_inv hinv

/-- Three records in groups of two, the second group short. -/
theorem parquet_exports_three :
    let cells : Cells (Fin 9) :=
      ⟨UInt64, some, fun _ => [(1, 2), (3, 4)], fun _ => (1, 2), fun _ => []⟩
    let stats : ContinuousStats Unit (Fin 9) :=
      ⟨fun _ => 1, fun _ => 2, fun _ => 3, fun _ => 4, fun _ => 5⟩
    let sort : UnstableSort := ⟨fun keys => (List.range keys.length).insertionSort
      fun i j => keys.getD i 0 ≤ keys.getD j 0, fun _ => ⟨List.perm_insertionSort _ _,
        List.pairwise_insertionSort _ _⟩⟩
    let config : ExportConfig (Fin 9) := ⟨2, ⟨false, true⟩, .empty⟩
    ∃ actions s, run (continuousBuffer cells stats sort config.options) config
        (initial _ none) actions = some s ∧ s.main = .returned (some 3) ∧
      Reaches _ (continuousRowGroup cells config.options stats) config none s := by
  intro cells stats sort config
  let actions : List (Action (MultiRecord Unit)) :=
    [.drain [⟨5, ()⟩, ⟨3, ()⟩], .main, .writer, .writer, .writer, .main, .drain [⟨4, ()⟩],
      .drain [], .main, .writer, .writer, .writer, .writer, .writer, .dropWriterRx,
      .dropRecycleTx, .writer, .main]
  have hrun : (run (continuousBuffer cells stats sort config.options) config (initial _ none)
      actions).map (fun s => s.main) = some (.returned (some 3)) := by rfl
  obtain ⟨s, hs, hmain⟩ := Option.map_eq_some_iff.mp hrun
  exact ⟨actions, s, hs, hmain, (parquet_exports cells sort config none).1 stats actions s hs⟩

end RasterH3.Parquet
