import RasterH3.Agg.WindowSchedule
import RasterH3.Lib.Loops

/-!
# Windows tile their chunk

A batch of decoded chunks is cut into windows for the workers, so many in a wave as there
are maps to write into. Four loops are nested: over waves, over the items of a batch, over
the windows of a chunk and over the jobs of a wave, and they share a place in the batch that
survives from wave to wave. An item may be an error, a sparse chunk or a chunk with samples
missing.

Number the pixels of a chunk row by row. Whether it is made of whole rows or is a piece of
one, a window is an interval of these numbers (`mem_iff`), it starts where the window before
it ended (`next_place`), and so does its slice of the samples (`samplesOf_eq`). That is the
whole argument: the windows cut from a place cover each pixel from there on once
(`countP_cutWindows`), and the numbers that are left bound the rounds of both loops.

The loops hand out what `pending` lists, wave by wave. A turn of the inner loop takes the
head of this list or moves to the next item without touching it. The streaming controller
has this list to begin with, and `processBatch_eq_controller` says that nothing is lost by
it.

A window has at most `16384` pixels and a slice less than `2 ^ 63` entries, so that nothing
overflows on the way, as long as the chunk has been long enough so far (`cutJob_eq`). A
chunk without all of its samples ends the loops early, and so does an error; what was handed
out before is handed out (`EndsEarly`).
-/

namespace RasterH3.Agg

open Raster (RasterChunk)

variable {pixels width height row col : Nat}

/-! ## One window -/

/-- The place of a window that has been reached: a column other than the first only
in a row that does not fit. -/
structure Aligned (pixels width height row col : Nat) : Prop where
  fits : width ≤ pixels → col = 0
  col_lt : 0 < width → col < width
  done : height ≤ row → col = 0
  row_le : row ≤ height

theorem aligned_start : Aligned pixels width height 0 0 :=
  { fits := fun _ => rfl
    col_lt := fun h => h
    done := fun _ => rfl
    row_le := Nat.zero_le _ }

/-- What is known of a window that is cut at an aligned place. -/
structure Cut (pixels width height row col : Nat) (win : Window) : Prop where
  row_eq : win.row = row
  col_eq : win.col = col
  width_pos : 0 < win.width
  height_pos : 0 < win.height
  right : col + win.width ≤ width
  bottom : row + win.height ≤ height
  shape : win.height = 1 ∨ win.width = width ∧ col = 0
  budget : win.width * win.height ≤ pixels

theorem nextWindow_cut (hpixels : 0 < pixels) (hal : Aligned pixels width height row col)
    (hrow : row < height) (hwidth : 0 < width) :
    Cut pixels width height row col (nextWindow pixels width height row col) := by
  have hcol := hal.col_lt hwidth
  unfold nextWindow
  split
  next h =>
    have hcol : col = 0 := hal.fits h
    have hone : 0 < pixels / width := Nat.div_pos h hwidth
    have hall : width * min (pixels / width) (height - row) ≤ pixels :=
      (Nat.mul_le_mul_left _ (Nat.min_le_left ..)).trans (Nat.mul_div_le ..)
    exact ⟨rfl, rfl, hwidth, by show 0 < min _ _; omega, by show col + width ≤ _; omega,
      by show row + min _ _ ≤ _; omega,
      Or.inr ⟨rfl, hcol⟩, hall⟩
  next h =>
    exact ⟨rfl, rfl, by show 0 < min _ _; omega, Nat.one_pos, by show col + min _ _ ≤ _; omega,
      hrow, Or.inl rfl, by show min _ _ * 1 ≤ _; omega⟩

variable {win : Window}

/-- The number of pixels, counted in rows, is the area. -/
theorem Cut.pixels_eq (hcut : Cut pixels width height row col win) :
    (win.height - 1) * width + win.width = win.width * win.height := by
  rcases hcut.shape with h | ⟨h, -⟩
  · rw [h]
    simp
  · obtain ⟨k, hk⟩ : ∃ k, win.height = k + 1 := ⟨win.height - 1, by have := hcut.height_pos; omega⟩
    rw [h, hk, Nat.add_sub_cancel, Nat.mul_succ, Nat.mul_comm]

theorem Cut.next_aligned (hwidth : 0 < width) (hal : Aligned pixels width height row col)
    (hrow : row < height) (hcut : Cut pixels width height row col win)
    (hwin : win = nextWindow pixels width height row col) :
    Aligned pixels width height (win.next width).1 (win.next width).2 := by
  have hright := hcut.right
  have hbottom := hcut.bottom
  have hcol := hal.col_lt hwidth
  unfold Window.next
  rw [hcut.row_eq, hcut.col_eq]
  split
  next h =>
    have hzero : col = 0 := by omega
    exact ⟨fun _ => hzero, fun _ => hcol, fun _ => hzero, hbottom⟩
  next hpart =>
    -- A piece of a row: the rows of this chunk do not fit.
    have hwide : ¬ width ≤ pixels := by
      intro hfits
      rw [hwin, nextWindow, if_pos hfits] at hpart
      exact hpart rfl
    split
    next h => exact ⟨fun _ => rfl, fun h => h, fun _ => rfl, hrow⟩
    next h =>
      exact ⟨fun hfits => absurd hfits hwide, fun _ => by omega, fun hdone => by omega,
        hrow.le⟩

/-- The next window starts where this one ends. -/
theorem Cut.next_place (hcut : Cut pixels width height row col win) :
    (win.next width).1 * width + (win.next width).2 =
      row * width + col + win.width * win.height := by
  have hpos := hcut.width_pos
  have hright := hcut.right
  unfold Window.next
  rw [hcut.row_eq, hcut.col_eq]
  split
  next h => rw [h, Nat.add_mul, Nat.mul_comm width]; omega
  next hpart =>
    have hone : win.height = 1 := hcut.shape.resolve_right fun h => hpart h.1
    split
    next h => simp only [hone, Nat.mul_one, Nat.add_mul, Nat.one_mul]; omega
    next h => simp only [hone, Nat.mul_one]; omega

/-- A window ends inside its chunk. -/
theorem Cut.place_le (hcut : Cut pixels width height row col win) :
    row * width + col + win.width * win.height ≤ width * height := by
  have hright := hcut.right
  have hrows : (row + win.height) * width ≤ height * width := Nat.mul_le_mul_right _ hcut.bottom
  have hfull := hcut.pixels_eq
  have hpos := hcut.height_pos
  obtain ⟨k, hk⟩ : ∃ k, win.height = k + 1 := ⟨win.height - 1, by omega⟩
  rw [hk, Nat.add_sub_cancel] at hfull
  rw [hk, ← Nat.add_assoc, Nat.succ_mul, Nat.add_mul, Nat.mul_comm height] at hrows
  rw [hk]
  omega

def Window.Contains (win : Window) (r c : Nat) : Prop :=
  (win.row ≤ r ∧ r < win.row + win.height) ∧ win.col ≤ c ∧ c < win.col + win.width

instance (win : Window) (r c : Nat) : Decidable (win.Contains r c) := instDecidableAnd

/-- In row-major order a window is an interval. -/
theorem Cut.mem_iff (hcut : Cut pixels width height row col win) {r c : Nat} (hc : c < width) :
    win.Contains r c ↔ row * width + col ≤ r * width + c ∧
      r * width + c < row * width + col + win.width * win.height := by
  have hright := hcut.right
  unfold Window.Contains
  rw [hcut.row_eq, hcut.col_eq]
  rcases hcut.shape with hone | ⟨hall, hzero⟩
  · -- In another row the numbers are a whole row apart.
    rw [hone, Nat.mul_one]
    rcases Nat.lt_trichotomy r row with h | h | h
    · have hrows : (r + 1) * width ≤ row * width := Nat.mul_le_mul_right _ h
      rw [Nat.succ_mul] at hrows
      omega
    · subst h
      omega
    · have hrows : (row + 1) * width ≤ r * width := Nat.mul_le_mul_right _ h
      rw [Nat.succ_mul] at hrows
      omega
  · rw [hall, hzero, Nat.mul_comm width, Nat.add_zero, ← Nat.add_mul]
    have hlow : row ≤ r ↔ row * width ≤ r * width + c := by
      rw [← Nat.le_div_iff_mul_le (by omega), Nat.mul_comm, Nat.mul_add_div (by omega),
        Nat.div_eq_of_lt hc, Nat.add_zero]
    have hhigh : r < row + win.height ↔ r * width + c < (row + win.height) * width := by
      rw [← Nat.div_lt_iff_lt_mul (by omega), Nat.mul_comm, Nat.mul_add_div (by omega),
        Nat.div_eq_of_lt hc, Nat.add_zero]
    omega

/-! ## All windows of a chunk -/

theorem cutWindows_succ {fuel : Nat} (hrow : row < height) (hwidth : 0 < width) :
    cutWindows pixels width height (fuel + 1) row col =
      nextWindow pixels width height row col ::
        cutWindows pixels width height fuel
          ((nextWindow pixels width height row col).next width).1
          ((nextWindow pixels width height row col).next width).2 := by
  rw [cutWindows, if_neg (by omega)]
  by_cases hfits : width ≤ pixels
  · simp only [nextWindow, Window.next, if_pos hfits, if_true]
  · simp only [nextWindow, Window.next, if_neg hfits]
    congr 1
    split
    next h => rfl
    next h =>
      split
      next h => rfl
      next h => rfl

theorem cutWindows_done {fuel : Nat} (h : height ≤ row ∨ width = 0) :
    cutWindows pixels width height fuel row col = [] := by
  cases fuel with
  | zero => rfl
  | succ fuel => rw [cutWindows, if_pos h]

def pixelsLeft (width height row col : Nat) : Nat := width * height - (row * width + col)

theorem pixelsLeft_pos (hal : Aligned pixels width height row col) (hrow : row < height)
    (hwidth : 0 < width) : row * width + col < width * height := by
  have hrows : (row + 1) * width ≤ height * width := Nat.mul_le_mul_right _ hrow
  have hcol := hal.col_lt hwidth
  rw [Nat.succ_mul] at hrows
  rw [Nat.mul_comm width]
  omega

theorem Cut.pixelsLeft_lt (hcut : Cut pixels width height row col win)
    (hplace : row * width + col < width * height) :
    pixelsLeft width height (win.next width).1 (win.next width).2 <
      pixelsLeft width height row col := by
  have harea : 0 < win.width * win.height := Nat.mul_pos hcut.width_pos hcut.height_pos
  have hnext := hcut.next_place
  unfold pixelsLeft
  omega

/-- What holds of no windows, and of a window before windows, holds of the windows
from an aligned place on. -/
theorem cutWindows_induction {motive : Nat → Nat → List Window → Prop} (hpixels : 0 < pixels)
    (hdone : ∀ row col, Aligned pixels width height row col → height ≤ row ∨ width = 0 →
      motive row col [])
    (hcut : ∀ row col wins, Aligned pixels width height row col → row < height → 0 < width →
      Cut pixels width height row col (nextWindow pixels width height row col) →
      motive ((nextWindow pixels width height row col).next width).1
        ((nextWindow pixels width height row col).next width).2 wins →
      motive row col (nextWindow pixels width height row col :: wins)) :
    ∀ {fuel row col : Nat}, Aligned pixels width height row col →
      pixelsLeft width height row col ≤ fuel →
      motive row col (cutWindows pixels width height fuel row col) := by
  intro fuel
  induction fuel with
  | zero =>
      intro row col hal hleft
      have hstop : height ≤ row ∨ width = 0 := by
        by_contra hmore
        have hplace := pixelsLeft_pos hal (by omega) (by omega)
        unfold pixelsLeft at hleft
        omega
      rw [cutWindows_done hstop]
      exact hdone row col hal hstop
  | succ fuel ih =>
      intro row col hal hleft
      by_cases hstop : height ≤ row ∨ width = 0
      · rw [cutWindows_done hstop]
        exact hdone row col hal hstop
      · have hrow : row < height := by omega
        have hwidth : 0 < width := by omega
        have hwin := nextWindow_cut hpixels hal hrow hwidth
        have hless := hwin.pixelsLeft_lt (pixelsLeft_pos hal hrow hwidth)
        rw [cutWindows_succ hrow hwidth]
        exact hcut row col _ hal hrow hwidth hwin
          (ih (hwin.next_aligned hwidth hal hrow rfl) (by omega))

/-- A round for every pixel that is left is enough. -/
theorem cutWindows_congr (hpixels : 0 < pixels) {fuel fuel' : Nat}
    (hal : Aligned pixels width height row col) (hleft : pixelsLeft width height row col ≤ fuel)
    (hleft' : pixelsLeft width height row col ≤ fuel') :
    cutWindows pixels width height fuel row col = cutWindows pixels width height fuel' row col := by
  refine cutWindows_induction (motive := fun row col wins => ∀ fuel',
    pixelsLeft width height row col ≤ fuel' →
      wins = cutWindows pixels width height fuel' row col) hpixels ?_ ?_ hal hleft fuel' hleft'
  · intro row col _ hstop fuel' _
    exact (cutWindows_done hstop).symm
  · intro row col wins hal hrow hwidth hwin ih fuel' hleft'
    have hless := hwin.pixelsLeft_lt (pixelsLeft_pos hal hrow hwidth)
    obtain ⟨rounds, rfl⟩ : ∃ rounds, fuel' = rounds + 1 := ⟨fuel' - 1, by omega⟩
    rw [cutWindows_succ hrow hwidth, ← ih rounds (by omega)]

/-- The windows from a place on cover the pixels from there on, each of them once. -/
theorem countP_cutWindows (hpixels : 0 < pixels) {fuel : Nat}
    (hal : Aligned pixels width height row col) (hleft : pixelsLeft width height row col ≤ fuel)
    {r c : Nat} (hr : r < height) (hc : c < width) :
    (cutWindows pixels width height fuel row col).countP (fun win => win.Contains r c) =
      if row * width + col ≤ r * width + c then 1 else 0 := by
  refine cutWindows_induction (motive := fun row col wins =>
    wins.countP (fun win => win.Contains r c) =
      if row * width + col ≤ r * width + c then 1 else 0) hpixels ?_ ?_ hal hleft
  · intro row col _ hstop
    have hrows : (r + 1) * width ≤ row * width := Nat.mul_le_mul_right _ (by omega)
    rw [Nat.succ_mul] at hrows
    rw [List.countP_nil, if_neg (by omega)]
  · intro row col wins hal hrow hwidth hwin ih
    have hnext := hwin.next_place
    have harea : 0 < _ * _ := Nat.mul_pos hwin.width_pos hwin.height_pos
    rw [List.countP_cons, ih, hnext]
    simp only [decide_eq_true_eq, hwin.mem_iff hc]
    split <;> split <;> split <;> omega

theorem cutWindows_cut (hpixels : 0 < pixels) {fuel : Nat}
    (hal : Aligned pixels width height row col) (hleft : pixelsLeft width height row col ≤ fuel)
    {win : Window} (hwin : win ∈ cutWindows pixels width height fuel row col) :
    ∃ row col, Cut pixels width height row col win := by
  revert hwin
  refine cutWindows_induction (motive := fun _ _ wins => win ∈ wins →
    ∃ row col, Cut pixels width height row col win) hpixels ?_ ?_ hal hleft
  · intro row col _ _ hwin
    cases hwin
  · intro row col wins _ _ _ hcut ih hwin
    rcases List.mem_cons.mp hwin with rfl | hwin
    · exact ⟨row, col, hcut⟩
    · exact ih hwin

/-! ## The samples of a window -/

variable {T : Type}

/-- The samples of a rectangle, row by row. -/
def samplesOf (width spp : Nat) (data : List T) (win : Window) : List T :=
  (List.range win.height).flatMap fun r =>
    (data.drop (((win.row + r) * width + win.col) * spp)).take (win.width * spp)

/-- The samples of a window are one slice. -/
theorem Cut.samplesOf_eq (hcut : Cut pixels width height row col win) (spp : Nat) (data : List T) :
    samplesOf width spp data win =
      (data.drop ((row * width + col) * spp)).take (win.width * win.height * spp) := by
  unfold samplesOf
  rw [hcut.row_eq, hcut.col_eq]
  rcases hcut.shape with h | ⟨h, hzero⟩
  · simp [h]
  · have hrows : ∀ r, ((row + r) * width + col) * spp =
        (row * width + col) * spp + r * (width * spp) := by
      intro r
      ring
    simp only [hrows, h]
    rw [Loops.flatMap_take_drop]
    congr 1
    ring

/-- With the row stride of the chunk a worker finds the samples of row `r`. -/
theorem Cut.strided (hcut : Cut pixels width height row col win) (spp : Nat) (data : List T)
    {r q : Nat} (hr : r < win.height) (hq : q < win.width * spp) :
    (samplesOf width spp data win)[r * width * spp + q]? =
      data[((row + r) * width + col) * spp + q]? := by
  have hin : r * width * spp + q < win.width * win.height * spp := by
    rcases hcut.shape with h | ⟨h, -⟩
    · obtain rfl : r = 0 := by omega
      rw [h, Nat.mul_one]
      omega
    · have hrows : (r + 1) * (width * spp) ≤ win.height * (width * spp) :=
        Nat.mul_le_mul_right _ hr
      rw [h] at hq ⊢
      rw [Nat.succ_mul] at hrows
      calc r * width * spp + q < r * (width * spp) + width * spp := by
            rw [Nat.mul_assoc]
            omega
        _ ≤ win.height * (width * spp) := hrows
        _ = width * win.height * spp := by ring
  rw [hcut.samplesOf_eq, List.getElem?_take_of_lt hin, List.getElem?_drop]
  congr 1
  ring

/-! ## One job -/

variable {E M : Type} {allowance : WorkerAllowance} {tiles : Nat → TileReader}

/-- The job a worker should get for a window. -/
def windowJob (spp : Nat) (item : DecodedChunk T) (win : Window) : WindowJob T where
  tileIdx := item.tileIdx
  bounds := ⟨item.chunk.colOffset + win.col, item.chunk.rowOffset + win.row, win.width, win.height⟩
  samples := samplesOf item.chunk.width spp item.data win
  stride := item.chunk.width
  overlap := item.overlap

def tooShort : BatchError E :=
  .invalidMetadata "decoded chunk shorter than its declared dimensions"

/-- Nothing overflows, as long as the chunk has been long enough so far. A window has
at most `16384` pixels of less than `2 ^ 16` samples, and a slice less than `2 ^ 63`
entries. -/
theorem cutJob_eq {spp : Nat} {item : DecodedChunk T} {win : Window}
    (hpixels : pixels ≤ 16384) (hspp : 0 < spp) (hspp' : spp < 2 ^ 16)
    (hcut : Cut pixels item.chunk.width item.chunk.height row col win)
    (hsofar : (row * item.chunk.width + col) * spp ≤ item.data.length) :
    @cutJob E T spp item win =
      if (row * item.chunk.width + col + win.width * win.height) * spp ≤ item.data.length then
        .ok (windowJob spp item win)
      else .error tooShort := by
  have hdata := item.data_lt
  have hcols := item.cols_lt
  have hrows := item.rows_lt
  have hplace : row * item.chunk.width + col ≤ (row * item.chunk.width + col) * spp :=
    Nat.le_mul_of_pos_right _ hspp
  have harea : win.width * win.height ≤ 16384 := hcut.budget.trans hpixels
  have hslice : win.width * win.height * spp < 2 ^ 30 := by
    calc win.width * win.height * spp ≤ 16384 * spp := Nat.mul_le_mul_right _ harea
      _ < 2 ^ 30 := by omega
  have hstart : sampleStart item.chunk.width spp win =
      some ((row * item.chunk.width + col) * spp) := by
    unfold sampleStart
    rw [hcut.row_eq, hcut.col_eq, Checked.mul_of_lt (by omega)]
    simp only [Option.bind_eq_bind, Option.bind_some]
    rw [Checked.add_of_lt (by omega), Option.bind_some, Checked.mul_of_lt (by omega)]
  have hlen : sampleLen item.chunk.width spp win = some (win.width * win.height * spp) := by
    have hall := hcut.pixels_eq
    unfold sampleLen
    rw [Checked.mul_of_lt (by omega)]
    simp only [Option.bind_eq_bind, Option.bind_some]
    rw [Checked.add_of_lt (by omega), Option.bind_some, hall, Checked.mul_of_lt (by omega)]
  have hbounds : windowBounds item.chunk win = some (windowJob spp item win).bounds := by
    have hright := hcut.right
    have hbottom := hcut.bottom
    have hwpos := hcut.width_pos
    have hhpos := hcut.height_pos
    unfold windowBounds
    rw [hcut.row_eq, hcut.col_eq, Checked.add_of_lt (by omega)]
    simp only [Option.bind_eq_bind, Option.bind_some]
    rw [Checked.add_of_lt (by omega), Option.bind_some, windowJob, hcut.row_eq, hcut.col_eq]
    rfl
  have hborrow : @borrowWindow E T item.data ((row * item.chunk.width + col) * spp)
      (win.width * win.height * spp) =
        if (row * item.chunk.width + col + win.width * win.height) * spp ≤ item.data.length then
          .ok (samplesOf item.chunk.width spp item.data win)
        else .error tooShort := by
    unfold borrowWindow
    rw [Checked.add_of_lt (by omega), hcut.samplesOf_eq, ← Nat.add_mul]
    rfl
  unfold cutJob
  rw [hstart, hlen, hbounds]
  simp only [orOverflow, hborrow, bind, Except.bind, pure, Except.pure]
  by_cases h : (row * item.chunk.width + col + win.width * win.height) * spp ≤ item.data.length
  · simp only [if_pos h]
    rfl
  · simp only [if_neg h]

/-! ## What is pending -/

open Schedule (samplesPerPixel isSparse nextJob fillWave processWaves processBatch)

variable (allowance tiles)

/-- The jobs of an item from a place on. -/
def jobsFrom : Except String (DecodedChunk T) → Nat → Nat → List (WindowJob T)
  | .error _, _, _ => []
  | .ok item, row, col =>
      if isSparse tiles item then []
      else
        (cutWindows allowance.pixels item.chunk.width item.chunk.height
          (pixelsLeft item.chunk.width item.chunk.height row col) row col).map
            (windowJob (samplesPerPixel tiles item) item)

/-- The jobs that are still to come. -/
def pending (s : Schedule T) : List (WindowJob T) :=
  match s.items with
  | [] => []
  | item :: rest =>
      jobsFrom allowance tiles item s.row s.col ++
        rest.flatMap fun item => jobsFrom allowance tiles item 0 0

/-- A bound on the turns of the inner loop that an item takes from a place on. -/
def turnsFrom : Except String (DecodedChunk T) → Nat → Nat → Nat
  | .error _, _, _ => 1
  | .ok item, row, col => pixelsLeft item.chunk.width item.chunk.height row col + 1

def turns (items : List (Except String (DecodedChunk T))) : Nat :=
  (items.map fun item => turnsFrom item 0 0).sum

def turnsLeft (s : Schedule T) : Nat :=
  match s.items with
  | [] => 0
  | item :: rest => turnsFrom item s.row s.col + turns rest

/-- The place in the chunk at hand is aligned, and its samples up to there exist. -/
structure Placed (s : Schedule T) : Prop where
  aligned : ∀ item rest, s.items = .ok item :: rest →
    Aligned allowance.pixels item.chunk.width item.chunk.height s.row s.col
  sofar : ∀ item rest, s.items = .ok item :: rest →
    (s.row * item.chunk.width + s.col) * samplesPerPixel tiles item ≤ item.data.length

variable {allowance tiles}

theorem pending_cons (item : Except String (DecodedChunk T))
    (rest : List (Except String (DecodedChunk T))) (row col : Nat) :
    pending allowance tiles ⟨item :: rest, row, col⟩ = jobsFrom allowance tiles item row col ++
      rest.flatMap fun item => jobsFrom allowance tiles item 0 0 := rfl

theorem turnsLeft_cons (item : DecodedChunk T) (rest : List (Except String (DecodedChunk T)))
    (row col : Nat) : turnsLeft ⟨.ok item :: rest, row, col⟩ =
      pixelsLeft item.chunk.width item.chunk.height row col + 1 + turns rest := rfl

theorem placed_start (items : List (Except String (DecodedChunk T))) :
    Placed allowance tiles ⟨items, 0, 0⟩ :=
  { aligned := fun _ _ _ => aligned_start
    sofar := fun _ _ _ => by simp }

theorem pending_start (items : List (Except String (DecodedChunk T))) :
    pending allowance tiles ⟨items, 0, 0⟩ =
      items.flatMap fun item => jobsFrom allowance tiles item 0 0 := by
  cases items with
  | nil => rfl
  | cons item rest => rfl

theorem turnsLeft_start (items : List (Except String (DecodedChunk T))) :
    turnsLeft ⟨items, 0, 0⟩ = turns items := by
  cases items with
  | nil => rfl
  | cons item rest => simp [turnsLeft, turns]

/-- Every sample of the window is there. -/
def WindowJob.Whole (tiles : Nat → TileReader) (job : WindowJob T) : Prop :=
  job.samples.length =
    job.bounds.width * job.bounds.height * max (tiles job.tileIdx).samplesPerPixel 1

/-- What a number of turns does. -/
structure Advanced (allowance : WorkerAllowance) (tiles : Nat → TileReader) (s : Schedule T)
    (jobs : List (WindowJob T)) (s' : Schedule T) : Prop where
  placed : Placed allowance tiles s'
  pending_eq : pending allowance tiles s = jobs ++ pending allowance tiles s'
  suffix : s'.items <:+ s.items
  turns_le : turnsLeft s' ≤ turnsLeft s
  whole : ∀ job ∈ jobs, job.Whole tiles

/-- Why the loops stop early: an item that is an error, or a chunk without all of its
samples. -/
def EndsEarly (tiles : Nat → TileReader) (items : List (Except String (DecodedChunk T)))
    (e : BatchError E) : Prop :=
  (∃ reason, .error reason ∈ items ∧ e = .streamFailed reason) ∨
    ∃ item, .ok item ∈ items ∧ isSparse tiles item = false ∧ e = tooShort ∧
      item.data.length < item.chunk.width * item.chunk.height * samplesPerPixel tiles item

theorem EndsEarly.mono {items items' : List (Except String (DecodedChunk T))} {e : BatchError E}
    (h : EndsEarly tiles items e) (hsub : items ⊆ items') : EndsEarly tiles items' e := by
  rcases h with ⟨reason, hmem, he⟩ | ⟨item, hmem, hitem⟩
  · exact Or.inl ⟨reason, hsub hmem, he⟩
  · exact Or.inr ⟨item, hsub hmem, hitem⟩

theorem samplesPerPixel_pos (item : DecodedChunk T) : 0 < samplesPerPixel tiles item :=
  Nat.lt_of_lt_of_le Nat.one_pos (Nat.le_max_right ..)

theorem samplesPerPixel_lt (item : DecodedChunk T) : samplesPerPixel tiles item < 2 ^ 16 :=
  Nat.max_lt.mpr ⟨(tiles item.tileIdx).spp_lt, by norm_num⟩

/-! ## One turn -/

variable {s s' : Schedule T}

/-- The chunk at hand is done, empty or sparse. -/
theorem advanced_skip {item : DecodedChunk T} {rest : List (Except String (DecodedChunk T))}
    {row col : Nat}
    (hstop : item.chunk.height ≤ row ∨ item.chunk.width = 0 ∨ isSparse tiles item) :
    Advanced allowance tiles ⟨.ok item :: rest, row, col⟩ [] ⟨rest, 0, 0⟩ := by
  have hnone : jobsFrom allowance tiles (.ok item) row col = [] := by
    cases hsparse : isSparse tiles item with
    | true => simp only [jobsFrom, hsparse, if_true]
    | false =>
        rw [hsparse] at hstop
        have hdone : item.chunk.height ≤ row ∨ item.chunk.width = 0 := by simpa using hstop
        simp only [jobsFrom, cutWindows_done hdone, List.map_nil, ite_self]
  refine ⟨placed_start rest, ?_, List.suffix_cons .., ?_, by simp⟩
  · rw [pending_start, pending_cons, hnone]
  · rw [turnsLeft_start, turnsLeft_cons]
    omega

/-- A window is cut from the chunk at hand. -/
theorem advanced_cut {item : DecodedChunk T} {rest : List (Except String (DecodedChunk T))}
    {row col : Nat} (hplaced : Placed allowance tiles ⟨.ok item :: rest, row, col⟩)
    (hrow : row < item.chunk.height) (hwidth : 0 < item.chunk.width)
    (hsparse : isSparse tiles item = false) {win : Window}
    (hwin : win = nextWindow allowance.pixels item.chunk.width item.chunk.height row col)
    (hfits : (row * item.chunk.width + col + win.width * win.height) *
      samplesPerPixel tiles item ≤ item.data.length) :
    Advanced allowance tiles ⟨.ok item :: rest, row, col⟩
      [windowJob (samplesPerPixel tiles item) item win]
      ⟨.ok item :: rest, (win.next item.chunk.width).1, (win.next item.chunk.width).2⟩ ∧
    turnsLeft ⟨.ok item :: rest, (win.next item.chunk.width).1, (win.next item.chunk.width).2⟩ <
      turnsLeft ⟨.ok item :: rest, row, col⟩ := by
  have hal : Aligned _ _ _ row col := hplaced.aligned item rest rfl
  have hcut : Cut allowance.pixels item.chunk.width item.chunk.height row col win :=
    hwin ▸ nextWindow_cut allowance.pixels_pos hal hrow hwidth
  have hal' := hcut.next_aligned hwidth hal hrow hwin
  have hless := hcut.pixelsLeft_lt (pixelsLeft_pos hal hrow hwidth)
  have hturns : turnsLeft
        ⟨.ok item :: rest, (win.next item.chunk.width).1, (win.next item.chunk.width).2⟩ <
      turnsLeft ⟨.ok item :: rest, row, col⟩ := by
    rw [turnsLeft_cons, turnsLeft_cons]
    omega
  refine ⟨⟨⟨?_, ?_⟩, ?_, List.suffix_rfl, hturns.le, ?_⟩, hturns⟩
  · intro item' rest' h
    cases h
    exact hal'
  · intro item' rest' h
    cases h
    show ((win.next item.chunk.width).1 * _ + (win.next item.chunk.width).2) * _ ≤ _
    rw [hcut.next_place]
    exact hfits
  · have hlist : cutWindows allowance.pixels item.chunk.width item.chunk.height
          (pixelsLeft item.chunk.width item.chunk.height row col) row col =
        win :: cutWindows allowance.pixels item.chunk.width item.chunk.height
          (pixelsLeft item.chunk.width item.chunk.height (win.next item.chunk.width).1
            (win.next item.chunk.width).2)
          (win.next item.chunk.width).1 (win.next item.chunk.width).2 := by
      obtain ⟨rounds, hrounds⟩ : ∃ rounds,
          pixelsLeft item.chunk.width item.chunk.height row col = rounds + 1 :=
        ⟨pixelsLeft item.chunk.width item.chunk.height row col - 1, by omega⟩
      rw [hrounds, cutWindows_succ hrow hwidth, ← hwin]
      congr 1
      exact cutWindows_congr allowance.pixels_pos hal' (by omega) le_rfl
    simp only [pending_cons, jobsFrom, hsparse, hlist]
    rfl
  · intro job hjob
    rw [List.mem_singleton.mp hjob]
    show (samplesOf _ _ _ _).length = _
    rw [hcut.samplesOf_eq, List.length_take, List.length_drop]
    rw [Nat.add_mul] at hfits
    exact Nat.min_eq_left (by omega)

/-- A turn takes the head of what is pending, or moves to the next item. -/
theorem nextJob_cases (hplaced : Placed allowance tiles s) (hmore : 0 < s.items.length) :
    (∃ job s', @nextJob E T allowance tiles s = .ok (job, s') ∧
      Advanced allowance tiles s job.toList s' ∧ turnsLeft s' < turnsLeft s) ∨
    ∃ e, @nextJob E T allowance tiles s = .error e ∧ EndsEarly tiles s.items e := by
  obtain ⟨items, row, col⟩ := s
  rcases items with _ | ⟨⟨reason⟩ | item, rest⟩
  · exact absurd hmore (Nat.lt_irrefl 0)
  · exact Or.inr ⟨_, rfl, Or.inl ⟨reason, List.mem_cons_self, rfl⟩⟩
  · by_cases hstop : item.chunk.height ≤ row ∨ item.chunk.width = 0 ∨ isSparse tiles item
    · refine Or.inl ⟨none, ⟨rest, 0, 0⟩, ?_, advanced_skip hstop, ?_⟩
      · show (if _ then _ else _) = _
        rw [if_pos hstop]
      · rw [turnsLeft_start, turnsLeft_cons]
        omega
    · obtain ⟨hrow, hwidth, hsparse⟩ : row < item.chunk.height ∧ 0 < item.chunk.width ∧
          isSparse tiles item = false := by
        simp only [not_or, not_le, Bool.not_eq_true] at hstop
        exact ⟨hstop.1, Nat.pos_of_ne_zero hstop.2.1, hstop.2.2⟩
      have hal : Aligned _ _ _ row col := hplaced.aligned item rest rfl
      have hcut := nextWindow_cut allowance.pixels_pos hal hrow hwidth
      have hjob := @cutJob_eq _ _ _ T E _ item _ allowance.pixels_le
        (@samplesPerPixel_pos T tiles item) (samplesPerPixel_lt item) hcut
        (hplaced.sofar item rest rfl)
      by_cases hfits : (row * item.chunk.width + col +
          (nextWindow allowance.pixels item.chunk.width item.chunk.height row col).width *
            (nextWindow allowance.pixels item.chunk.width item.chunk.height row col).height) *
          samplesPerPixel tiles item ≤ item.data.length
      · rw [if_pos hfits] at hjob
        refine Or.inl ⟨some _, _, ?_, advanced_cut hplaced hrow hwidth hsparse rfl hfits⟩
        simp only [nextJob, if_neg hstop, hjob]
        rfl
      · rw [if_neg hfits] at hjob
        refine Or.inr ⟨tooShort, ?_, Or.inr ⟨item, List.mem_cons_self, hsparse, rfl, ?_⟩⟩
        · simp only [nextJob, if_neg hstop, hjob]
          rfl
        · -- The window is inside the chunk, so the chunk is too short as well.
          have hplace := hcut.place_le
          exact (not_le.mp hfits).trans_le (Nat.mul_le_mul_right _ hplace)

theorem Advanced.refl (hplaced : Placed allowance tiles s) : Advanced allowance tiles s [] s :=
  ⟨hplaced, rfl, List.suffix_rfl, le_rfl, by simp⟩

theorem Advanced.trans {s'' : Schedule T} {jobs jobs' : List (WindowJob T)}
    (h : Advanced allowance tiles s jobs s') (h' : Advanced allowance tiles s' jobs' s'') :
    Advanced allowance tiles s (jobs ++ jobs') s'' := by
  refine ⟨h'.placed, ?_, h'.suffix.trans h.suffix, h'.turns_le.trans h.turns_le, ?_⟩
  · rw [h.pending_eq, h'.pending_eq, List.append_assoc]
  · intro job hjob
    rcases List.mem_append.mp hjob with hjob | hjob
    · exact h.whole job hjob
    · exact h'.whole job hjob

/-! ## Waves -/

/-- How the inner loop ends. A wave never has more jobs than there are maps, and it has
as many unless it is the last. -/
theorem fillWave_cases {rounds : Nat} : ∀ {s : Schedule T} {jobs : List (WindowJob T)},
    Placed allowance tiles s → turnsLeft s < rounds → jobs.length ≤ allowance.tasks →
    (∃ new s', @fillWave E T allowance tiles rounds jobs s = .ok (jobs ++ new, s') ∧
      Advanced allowance tiles s new s' ∧ (jobs ++ new).length ≤ allowance.tasks ∧
      (0 < s'.items.length → (jobs ++ new).length = allowance.tasks) ∧
      (jobs.length < allowance.tasks → 0 < s.items.length → turnsLeft s' < turnsLeft s)) ∨
    ∃ e, @fillWave E T allowance tiles rounds jobs s = .error e ∧ EndsEarly tiles s.items e := by
  induction rounds with
  | zero => intro s jobs _ hleft; exact absurd hleft (Nat.not_lt_zero _)
  | succ rounds ih =>
      intro s jobs hplaced hleft hjobs
      unfold fillWave
      by_cases hmore : jobs.length < allowance.tasks ∧ 0 < s.items.length
      · rw [if_pos hmore]
        rcases @nextJob_cases T E allowance tiles s hplaced hmore.2 with
          ⟨job, s', hjob, hadv, hless⟩ | ⟨e, he, hends⟩
        · rw [hjob]
          show (∃ new s'', fillWave allowance tiles rounds (jobs ++ job.toList) s' = _ ∧ _) ∨
            ∃ e, fillWave allowance tiles rounds (jobs ++ job.toList) s' = _ ∧ _
          have hroom : (jobs ++ job.toList).length ≤ allowance.tasks := by
            cases job with
            | none => simpa using hmore.1.le
            | some job => simpa using hmore.1
          rcases ih hadv.placed (by omega) hroom with
            ⟨new, s'', hfill, hadv', hlen, hfull, -⟩ | ⟨e, he, hends⟩
          · refine Or.inl ⟨job.toList ++ new, s'', ?_, hadv.trans hadv', ?_, ?_, ?_⟩
            · rw [hfill, List.append_assoc]
            · rw [← List.append_assoc]
              exact hlen
            · rw [← List.append_assoc]
              exact hfull
            · exact fun _ _ => hadv'.turns_le.trans_lt hless
          · exact Or.inr ⟨e, he, hends.mono hadv.suffix.subset⟩
        · rw [he]
          exact Or.inr ⟨e, rfl, hends⟩
      · rw [if_neg hmore]
        refine Or.inl ⟨[], s, ?_, Advanced.refl hplaced, ?_, ?_, ?_⟩
        · rw [List.append_nil]
        · simpa using hjobs
        · intro hitems
          rw [List.append_nil]
          omega
        · exact fun hlt hitems => absurd ⟨hlt, hitems⟩ hmore

/-- The outcome of a batch: its waves are run one after the other, then it ends. -/
def runWaves (run : M → List (WindowJob T) → Except E M) (waves : List (List (WindowJob T)))
    (ending : Option (BatchError E)) (m : M) : Except (BatchError E) M := do
  let m ← (waves.foldlM run m).mapError .wave
  match ending with
  | none => .ok m
  | some e => .error e

theorem runWaves_cons (run : M → List (WindowJob T) → Except E M) (wave : List (WindowJob T))
    (waves : List (List (WindowJob T))) (ending : Option (BatchError E)) (m : M) :
    runWaves run (wave :: waves) ending m =
      ((run m wave).mapError .wave >>= fun m => runWaves run waves ending m) := by
  unfold runWaves
  rw [List.foldlM_cons]
  cases run m wave with
  | error e => rfl
  | ok m => rfl

/-- What the outer loop hands out from a schedule on. -/
structure Handed (E : Type) (allowance : WorkerAllowance) (tiles : Nat → TileReader)
    (s : Schedule T) (waves : List (List (WindowJob T))) (ending : Option (BatchError E)) :
    Prop where
  sizes : ∀ wave ∈ waves, wave ≠ [] ∧ wave.length ≤ allowance.tasks
  full : ∀ wave ∈ waves.dropLast, wave.length = allowance.tasks
  whole : ∀ job ∈ waves.flatten, job.Whole tiles
  taken : waves.flatten <+: pending allowance tiles s
  all : ending = none → waves.flatten = pending allowance tiles s
  ends : ∀ e, ending = some e → EndsEarly tiles s.items e

theorem Handed.nil (hitems : s.items = []) : Handed E allowance tiles s [] none := by
  have hnone : pending allowance tiles s = [] := by
    unfold pending
    rw [hitems]
  exact
    { sizes := by simp
      full := by simp
      whole := by simp
      taken := List.nil_prefix
      all := fun _ => hnone.symm
      ends := by simp }

theorem Handed.early {e : BatchError E} (hends : EndsEarly tiles s.items e) :
    Handed E allowance tiles s [] (some e) :=
  { sizes := by simp
    full := by simp
    whole := by simp
    taken := List.nil_prefix
    all := by simp
    ends := by
      intro e' he
      cases he
      exact hends }

/-- Without items there is nothing to hand out. -/
theorem Handed.waves_nil {waves : List (List (WindowJob T))} {ending : Option (BatchError E)}
    (h : Handed E allowance tiles s waves ending) (hitems : s.items = []) : waves = [] := by
  have hnone : pending allowance tiles s = [] := by
    unfold pending
    rw [hitems]
  have hflat : waves.flatten = [] := List.prefix_nil.mp (hnone ▸ h.taken)
  rw [List.eq_nil_iff_forall_not_mem]
  intro wave hwave
  exact (h.sizes wave hwave).1 (List.flatten_eq_nil_iff.mp hflat wave hwave)

theorem Handed.cons {jobs : List (WindowJob T)} {waves : List (List (WindowJob T))}
    {ending : Option (BatchError E)} (hadv : Advanced allowance tiles s jobs s')
    (hjobs : jobs ≠ []) (hlen : jobs.length ≤ allowance.tasks)
    (hfull : 0 < s'.items.length → jobs.length = allowance.tasks)
    (h : Handed E allowance tiles s' waves ending) :
    Handed E allowance tiles s (jobs :: waves) ending := by
  refine ⟨?_, ?_, ?_, ?_, ?_, ?_⟩
  · intro wave hwave
    rcases List.mem_cons.mp hwave with rfl | hwave
    · exact ⟨hjobs, hlen⟩
    · exact h.sizes wave hwave
  · intro wave hwave
    cases hwaves : waves with
    | nil => rw [hwaves] at hwave; cases hwave
    | cons next rest =>
        rw [hwaves, List.dropLast_cons_cons, List.mem_cons, ← hwaves] at hwave
        rcases hwave with rfl | hwave
        · apply hfull
          by_contra hnone
          have hempty := h.waves_nil (List.eq_nil_of_length_eq_zero (by omega))
          rw [hempty] at hwaves
          cases hwaves
        · exact h.full wave hwave
  · intro job hjob
    rw [List.flatten_cons] at hjob
    rcases List.mem_append.mp hjob with hjob | hjob
    · exact hadv.whole job hjob
    · exact h.whole job hjob
  · rw [List.flatten_cons, hadv.pending_eq]
    exact (List.prefix_append_right_inj jobs).mpr h.taken
  · intro hnone
    rw [List.flatten_cons, hadv.pending_eq, h.all hnone]
  · exact fun e he => (h.ends e he).mono hadv.suffix.subset

theorem processWaves_handed (run : M → List (WindowJob T) → Except E M) {rounds : Nat} :
    ∀ {s : Schedule T}, Placed allowance tiles s → turnsLeft s + 2 ≤ rounds →
      ∃ waves ending, Handed E allowance tiles s waves ending ∧
        ∀ m, processWaves allowance tiles run rounds s m = runWaves run waves ending m := by
  induction rounds with
  | zero => intro s _ hleft; exact absurd hleft (Nat.not_succ_le_zero _)
  | succ rounds ih =>
      intro s hplaced hleft
      by_cases hitems : 0 < s.items.length
      · rcases @fillWave_cases T E allowance tiles rounds s [] hplaced (by omega)
          (Nat.zero_le _) with ⟨jobs, s', hfill, hadv, hlen, hfull, hless⟩ | ⟨e, he, hends⟩
        · rw [List.nil_append] at hfill hlen hfull
          have hless := hless allowance.tasks_pos hitems
          obtain ⟨waves, ending, hhanded, hrun⟩ := ih hadv.placed (by omega)
          cases jobs with
          | nil =>
              -- Only items that are skipped were left.
              refine ⟨waves, ending, ?_, ?_⟩
              · have hsame : pending allowance tiles s = pending allowance tiles s' :=
                  hadv.pending_eq
                exact ⟨hhanded.sizes, hhanded.full, hhanded.whole, hsame ▸ hhanded.taken,
                  fun h => hsame ▸ hhanded.all h,
                  fun e he => (hhanded.ends e he).mono hadv.suffix.subset⟩
              · intro m
                rw [processWaves, if_pos hitems, hfill, ← hrun m]
                rfl
          | cons job jobs =>
              refine ⟨(job :: jobs) :: waves, ending,
                hhanded.cons hadv (List.cons_ne_nil _ _) hlen hfull, ?_⟩
              intro m
              rw [processWaves, if_pos hitems, hfill, runWaves_cons]
              show ((run m (job :: jobs)).mapError .wave >>= fun m =>
                processWaves allowance tiles run rounds s' m) = _
              simp only [hrun]
        · refine ⟨[], some e, Handed.early hends, ?_⟩
          intro m
          rw [processWaves, if_pos hitems, he]
          rfl
      · refine ⟨[], none, Handed.nil (List.eq_nil_of_length_eq_zero (by omega)), ?_⟩
        intro m
        rw [processWaves, if_neg hitems]
        rfl

/-! ## What the workers get -/

/-- A pixel, given by its column and its row in the raster, is in a rectangle. -/
def InBounds (bounds : RasterChunk) (x y : Nat) : Prop :=
  (bounds.rowOffset ≤ y ∧ y < bounds.rowOffset + bounds.height) ∧
    bounds.colOffset ≤ x ∧ x < bounds.colOffset + bounds.width

instance (bounds : RasterChunk) (x y : Nat) : Decidable (InBounds bounds x y) :=
  instDecidableAnd

/-- A job is for a rectangle of the chunk, has the samples of this rectangle, and
finds them with its stride. -/
structure JobOf (allowance : WorkerAllowance) (tiles : Nat → TileReader) (item : DecodedChunk T)
    (job : WindowJob T) : Prop where
  tile : job.tileIdx = item.tileIdx ∧ job.overlap = item.overlap ∧ job.stride = item.chunk.width
  cols : item.chunk.colOffset ≤ job.bounds.colOffset ∧
    job.bounds.colOffset + job.bounds.width ≤ item.chunk.colOffset + item.chunk.width
  rows : item.chunk.rowOffset ≤ job.bounds.rowOffset ∧
    job.bounds.rowOffset + job.bounds.height ≤ item.chunk.rowOffset + item.chunk.height
  budget : job.bounds.width * job.bounds.height ≤ allowance.pixels
  samples : job.samples = samplesOf item.chunk.width (samplesPerPixel tiles item) item.data
    ⟨job.bounds.rowOffset - item.chunk.rowOffset, job.bounds.colOffset - item.chunk.colOffset,
      job.bounds.width, job.bounds.height⟩
  strided : ∀ r q, r < job.bounds.height → q < job.bounds.width * samplesPerPixel tiles item →
    job.samples[r * job.stride * samplesPerPixel tiles item + q]? =
      item.data[((job.bounds.rowOffset - item.chunk.rowOffset + r) * item.chunk.width +
        (job.bounds.colOffset - item.chunk.colOffset)) * samplesPerPixel tiles item + q]?

/-- The jobs of an item: each pixel of the chunk is in one of them, unless the chunk
is sparse. -/
def Tiles (allowance : WorkerAllowance) (tiles : Nat → TileReader) :
    Except String (DecodedChunk T) → List (WindowJob T) → Prop
  | .error _, jobs => jobs = []
  | .ok item, jobs =>
      (∀ x y, jobs.countP (fun job => InBounds job.bounds x y) =
        if InBounds item.chunk x y ∧ isSparse tiles item = false then 1 else 0) ∧
      ∀ job ∈ jobs, JobOf allowance tiles item job

theorem Cut.jobOf {item : DecodedChunk T}
    (hcut : Cut allowance.pixels item.chunk.width item.chunk.height row col win) :
    JobOf allowance tiles item (windowJob (samplesPerPixel tiles item) item win) := by
  have hright := hcut.right
  have hbottom := hcut.bottom
  have hrow := hcut.row_eq
  have hcol := hcut.col_eq
  refine ⟨⟨rfl, rfl, rfl⟩, ⟨?_, ?_⟩, ⟨?_, ?_⟩, hcut.budget, ?_, ?_⟩
  · exact Nat.le_add_right ..
  · show _ + win.col + win.width ≤ _
    omega
  · exact Nat.le_add_right ..
  · show _ + win.row + win.height ≤ _
    omega
  · simp only [windowJob, Nat.add_sub_cancel_left]
  · intro r q hr hq
    simp only [windowJob, Nat.add_sub_cancel_left] at hr hq ⊢
    rw [hcut.strided _ _ hr hq, hrow, hcol]

theorem inBounds_windowJob {spp : Nat} {item : DecodedChunk T} {x y : Nat}
    (hin : InBounds item.chunk x y) :
    InBounds (windowJob spp item win).bounds x y ↔
      win.Contains (y - item.chunk.rowOffset) (x - item.chunk.colOffset) := by
  obtain ⟨⟨hrow, -⟩, hcol, -⟩ := hin
  simp only [InBounds, Window.Contains, windowJob]
  omega

theorem tiles_jobsFrom (item : Except String (DecodedChunk T)) :
    Tiles allowance tiles item (jobsFrom allowance tiles item 0 0) := by
  cases item with
  | error reason => rfl
  | ok item =>
      cases hsparse : isSparse tiles item with
      | true => simp [Tiles, jobsFrom, hsparse]
      | false =>
          have hjobs : ∀ job ∈ jobsFrom allowance tiles (.ok item) 0 0,
              JobOf allowance tiles item job := by
            intro job hjob
            simp only [jobsFrom, hsparse, Bool.false_eq_true, if_false, List.mem_map] at hjob
            obtain ⟨win, hwin, rfl⟩ := hjob
            obtain ⟨row, col, hcut⟩ :=
              cutWindows_cut allowance.pixels_pos aligned_start le_rfl hwin
            exact hcut.jobOf
          refine ⟨?_, hjobs⟩
          intro x y
          by_cases hin : InBounds item.chunk x y
          · rw [if_pos ⟨hin, hsparse⟩]
            simp only [jobsFrom, hsparse, Bool.false_eq_true, if_false, List.countP_map,
              Function.comp_def, inBounds_windowJob hin]
            obtain ⟨⟨hrow, hrow'⟩, hcol, hcol'⟩ := hin
            rw [countP_cutWindows allowance.pixels_pos aligned_start le_rfl (by omega) (by omega)]
            exact if_pos (by omega)
          · rw [if_neg fun h => hin h.1, List.countP_eq_zero]
            intro job hjob
            have hcols := (hjobs job hjob).cols
            have hrows := (hjobs job hjob).rows
            rw [decide_eq_true_eq]
            unfold InBounds at hin ⊢
            omega

/-- The windows that the streaming controller cuts cover each pixel of a chunk once. -/
theorem Chunk.countP_windows {A : Type} {n : Nat} (hpixels : 0 < pixels) (c : Chunk A n)
    (hsparse : c.sparse = false) {x y : Nat} (hy : y < c.height) (hx : x < c.width) :
    (c.windows pixels).countP (fun win => win.Contains y x) = 1 := by
  rw [Chunk.windows, hsparse, if_neg Bool.false_ne_true,
    countP_cutWindows hpixels aligned_start (Nat.sub_le ..) hy hx, if_pos (by omega)]

/-- A batch ends after at most a round for every pixel and every item. Its waves have
a map for every job. The jobs of an item tile its chunk if it is not sparse, each has
the samples of its rectangle and no more pixels than a worker may have, and all of
them are handed out unless the batch ends early. -/
theorem windows_tile_chunks (allowance : WorkerAllowance) (tiles : Nat → TileReader)
    (run : M → List (WindowJob T) → Except E M) (items : List (Except String (DecodedChunk T)))
    (rounds : Nat) (hrounds : turns items + 2 ≤ rounds) :
    ∃ waves ending shares,
      (∀ m, processBatch allowance tiles run rounds items m = runWaves run waves ending m) ∧
      (∀ wave ∈ waves, wave ≠ [] ∧ wave.length ≤ allowance.tasks) ∧
      (∀ job ∈ waves.flatten, job.Whole tiles) ∧
      List.Forall₂ (Tiles allowance tiles) items shares ∧
      waves.flatten <+: shares.flatten ∧
      (ending = none → waves.flatten = shares.flatten) ∧
      ∀ e, ending = some e → EndsEarly tiles items e := by
  have hleft : turnsLeft ⟨items, 0, 0⟩ + 2 ≤ rounds := by
    rw [turnsLeft_start]
    exact hrounds
  obtain ⟨waves, ending, hhanded, hrun⟩ := processWaves_handed run
    (@placed_start T allowance tiles items) hleft
  have htaken := hhanded.taken
  have hall := hhanded.all
  rw [pending_start, List.flatMap_def] at htaken hall
  refine ⟨waves, ending, items.map fun item => jobsFrom allowance tiles item 0 0, hrun,
    hhanded.sizes, hhanded.whole, ?_, htaken, hall, hhanded.ends⟩
  rw [List.forall₂_map_right_iff]
  exact List.forall₂_same.mpr fun item _ => tiles_jobsFrom item

/-- Three columns and two rows. -/
def smallChunk : DecodedChunk Nat where
  tileIdx := 0
  chunkIdx := 0
  chunk := ⟨3, 5, 3, 2⟩
  data := [10, 11, 12, 20, 21, 22]
  overlap := false
  cols_lt := by decide
  rows_lt := by decide
  data_lt := by decide

def twoWorkers : WorkerAllowance where
  tasks := 2
  pixels := 2
  tasks_pos := by decide
  pixels_pos := by decide
  pixels_le := by decide

def oneBand (chunkInfo : Option (List Nat × List Nat)) : TileReader where
  samplesPerPixel := 1
  chunkInfo := chunkInfo
  spp_lt := by decide

/-- Every wave in turn. -/
def logWaves (log : List (List (WindowJob Nat))) (wave : List (WindowJob Nat)) :
    Except Empty (List (List (WindowJob Nat))) := .ok (log ++ [wave])

example : processBatch twoWorkers (fun _ => oneBand none) logWaves 9 [.ok smallChunk] [] =
    .ok [[⟨0, ⟨3, 5, 2, 1⟩, [10, 11], 3, false⟩, ⟨0, ⟨5, 5, 1, 1⟩, [12], 3, false⟩],
      [⟨0, ⟨3, 6, 2, 1⟩, [20, 21], 3, false⟩, ⟨0, ⟨5, 6, 1, 1⟩, [22], 3, false⟩]] := rfl

theorem windows_tile_chunks_small :
    ∃ waves ending shares,
      (∀ m, processBatch twoWorkers (fun _ => oneBand none) logWaves 9 [.ok smallChunk] m =
        runWaves logWaves waves ending m) ∧
      (∀ wave ∈ waves, wave ≠ [] ∧ wave.length ≤ 2) ∧
      (∀ job ∈ waves.flatten, job.Whole fun _ => oneBand none) ∧
      List.Forall₂ (Tiles twoWorkers fun _ => oneBand none) [.ok smallChunk] shares ∧
      waves.flatten <+: shares.flatten ∧
      (ending = none → waves.flatten = shares.flatten) ∧
      ∀ e, ending = some e → EndsEarly (fun _ => oneBand none) [.ok smallChunk] e :=
  windows_tile_chunks twoWorkers (fun _ => oneBand none) logWaves [.ok smallChunk] 9 (by decide)

theorem sparse_chunk_is_not_cut :
    InBounds smallChunk.chunk 3 5 ∧
      processBatch twoWorkers (fun _ => oneBand (some ([0], [0]))) logWaves 9
        [.ok smallChunk] [] = .ok [] :=
  ⟨by decide, rfl⟩

/-! ## The streaming controller

There the jobs of a batch are a list, and a wave takes its next part. -/

section Controller

variable {A L C : Type} {n : Nat} [SpillAccumulator A] [LinearOrder L]

theorem mapM_id_ok {α ε : Type} (l : List α) :
    (l.map (@Except.ok ε α)).mapM id = .ok l := by
  induction l with
  | nil => rfl
  | cons a l ih =>
      rw [List.map_cons, List.mapM_cons, ih]
      rfl

/-- Waves that are full up to the last one are what the controller takes. -/
theorem processWaves_flatten (cfg : Setup A L C n) {waves : List (List (Job A n))} :
    ∀ {rounds : Nat} {s : MultiHorizonStreamer A L C n}, waves.flatten.length ≤ rounds →
      (∀ wave ∈ waves, wave ≠ [] ∧ wave.length ≤ cfg.workerTasks) →
      (∀ wave ∈ waves.dropLast, wave.length = cfg.workerTasks) →
      MultiHorizonStreamer.processWaves cfg rounds (waves.flatten.map .ok) s =
        waves.foldlM (fun s wave => s.processWave cfg wave) s := by
  induction waves with
  | nil =>
      intro rounds s _ _ _
      cases rounds with
      | zero => rfl
      | succ rounds => rfl
  | cons wave waves ih =>
      intro rounds s hrounds hsizes hfull
      obtain ⟨hne, hlen⟩ := hsizes wave List.mem_cons_self
      obtain ⟨job, jobs, rfl⟩ := List.exists_cons_of_ne_nil hne
      rw [List.flatten_cons, List.length_append, List.length_cons] at hrounds
      obtain ⟨left, rfl⟩ : ∃ left, rounds = left + 1 := ⟨rounds - 1, by omega⟩
      have hsplit : waves.flatten = [] ∨ (job :: jobs).length = cfg.workerTasks := by
        cases waves with
        | nil => exact Or.inl rfl
        | cons next rest =>
            rw [List.dropLast_cons_cons] at hfull
            exact Or.inr (hfull _ List.mem_cons_self)
      have htake : ((job :: jobs) ++ waves.flatten).take cfg.workerTasks = job :: jobs := by
        rcases hsplit with h | h
        · rw [h, List.append_nil, List.take_of_length_le hlen]
        · rw [← h, List.take_left]
      have hdrop : ((job :: jobs) ++ waves.flatten).drop cfg.workerTasks = waves.flatten := by
        rcases hsplit with h | h
        · rw [h, List.append_nil, List.drop_eq_nil_of_le hlen]
        · rw [← h, List.drop_left]
      have hrest : ∀ s : MultiHorizonStreamer A L C n,
          MultiHorizonStreamer.processWaves cfg left (waves.flatten.map .ok) s =
            waves.foldlM (fun s wave => s.processWave cfg wave) s := by
        intro s
        apply ih (by omega) (fun w hw => hsizes w (List.mem_cons_of_mem _ hw))
        intro w hw
        cases waves with
        | nil => cases hw
        | cons next rest =>
            rw [List.dropLast_cons_cons] at hfull
            exact hfull w (List.mem_cons_of_mem _ hw)
      have hmore : MultiHorizonStreamer.processWaves cfg (left + 1)
          (((job :: jobs) ++ waves.flatten).map .ok) s = (do
            let wave ← ((((job :: jobs) ++ waves.flatten).map .ok).take cfg.workerTasks).mapM id
            let s ← s.processWave cfg wave
            MultiHorizonStreamer.processWaves cfg left
              ((((job :: jobs) ++ waves.flatten).map .ok).drop cfg.workerTasks) s) := rfl
      rw [List.flatten_cons, hmore, ← List.map_take, htake, mapM_id_ok, ← List.map_drop, hdrop,
        List.foldlM_cons]
      show (s.processWave cfg (job :: jobs) >>= fun s =>
        MultiHorizonStreamer.processWaves cfg left (waves.flatten.map .ok) s) = _
      simp only [hrest]

/-- A chunk with what a kernel makes of its windows. -/
def DecodedChunk.toChunk (tiles : Nat → TileReader) (kernel : WindowJob T → Job A n)
    (item : DecodedChunk T) : Chunk A n where
  width := item.chunk.width
  height := item.chunk.height
  sparse := isSparse tiles item
  process := fun win => (kernel (windowJob (samplesPerPixel tiles item) item win)).maps
  failures := fun win => (kernel (windowJob (samplesPerPixel tiles item) item win)).failures

omit [SpillAccumulator A] in
theorem jobs_toChunk (kernel : WindowJob T → Job A n) (item : DecodedChunk T) :
    (item.toChunk tiles kernel).jobs allowance.pixels =
      (jobsFrom allowance tiles (.ok item) 0 0).map kernel := by
  have hleft : pixelsLeft item.chunk.width item.chunk.height 0 0 =
      item.chunk.width * item.chunk.height := by
    rw [pixelsLeft, Nat.zero_mul, Nat.add_zero, Nat.sub_zero]
  rw [Chunk.jobs, Chunk.windows, jobsFrom, hleft]
  show (if isSparse tiles item then _ else _ : List Window).map _ = _
  split
  next => rfl
  next =>
    rw [List.map_map]
    rfl

/-- On chunks that have all of their samples the loops over indices do what the
controller does with its list of jobs. -/
theorem processBatch_eq_controller (cfg : Setup A L C n) (allowance : WorkerAllowance)
    (htasks : cfg.workerTasks = allowance.tasks) (hpixels : cfg.workerPixels = allowance.pixels)
    (kernel : WindowJob T → Job A n) {items : List (DecodedChunk T)}
    (hlong : ∀ item ∈ items, isSparse tiles item = false →
      item.chunk.width * item.chunk.height * samplesPerPixel tiles item ≤ item.data.length)
    {rounds : Nat} (hrounds : turns (items.map .ok) + 2 ≤ rounds)
    (s : MultiHorizonStreamer A L C n) :
    processBatch allowance tiles (fun s wave => s.processWave cfg (wave.map kernel)) rounds
      (items.map .ok) s =
        (s.processBatch cfg (items.map fun item => .ok (item.toChunk tiles kernel))).mapError
          .wave := by
  have hleft : turnsLeft ⟨items.map .ok, 0, 0⟩ + 2 ≤ rounds := by
    rw [turnsLeft_start]
    exact hrounds
  obtain ⟨waves, ending, hhanded, hrun⟩ := processWaves_handed
    (fun s wave => MultiHorizonStreamer.processWave cfg (wave.map kernel) s)
    (@placed_start T allowance tiles (items.map .ok)) hleft
  have hnone : ending = none := by
    by_contra hsome
    obtain ⟨e, he⟩ := Option.ne_none_iff_exists'.mp hsome
    rcases hhanded.ends e he with ⟨reason, hmem, -⟩ | ⟨item, hmem, hsparse, -, hshort⟩
    · obtain ⟨_, _, h⟩ := List.mem_map.mp hmem
      cases h
    · obtain ⟨_, hitem, h⟩ := List.mem_map.mp hmem
      cases h
      exact absurd (hlong item hitem hsparse) (not_le.mpr hshort)
  have hjobs : (items.map fun item => Except.ok (item.toChunk tiles kernel)).flatMap
      (MultiHorizonStreamer.itemJobs cfg) = (waves.map (List.map kernel)).flatten.map .ok := by
    have hall := hhanded.all hnone
    rw [pending_start, List.flatMap_map] at hall
    rw [← List.map_flatten, hall, List.flatMap_map, List.map_flatMap, List.map_flatMap]
    apply List.flatMap_congr
    intro item _
    show ((item.toChunk tiles kernel).jobs cfg.workerPixels).map _ = _
    rw [hpixels, jobs_toChunk]
  have hcontroller : s.processBatch cfg (items.map fun item => .ok (item.toChunk tiles kernel)) =
      (waves.map (List.map kernel)).foldlM (fun s wave => s.processWave cfg wave) s := by
    unfold MultiHorizonStreamer.processBatch
    rw [hjobs]
    apply processWaves_flatten cfg (by rw [List.length_map])
    · intro wave hwave
      obtain ⟨jobs, hjobs, rfl⟩ := List.mem_map.mp hwave
      obtain ⟨hne, hlen⟩ := hhanded.sizes jobs hjobs
      rw [List.length_map, htasks]
      exact ⟨by simpa using hne, hlen⟩
    · intro wave hwave
      rw [← List.map_dropLast] at hwave
      obtain ⟨jobs, hjobs, rfl⟩ := List.mem_map.mp hwave
      rw [List.length_map, htasks]
      exact hhanded.full jobs hjobs
  rw [processBatch, hrun s, hcontroller, List.foldlM_map, hnone, runWaves]
  cases waves.foldlM (fun s wave => MultiHorizonStreamer.processWave cfg (wave.map kernel) s) s with
  | error e => rfl
  | ok s => rfl

end Controller

end RasterH3.Agg
