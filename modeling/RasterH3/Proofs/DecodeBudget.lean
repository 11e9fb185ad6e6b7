import RasterH3.Raster.DecodePipeline
import RasterH3.Proofs.PrefetchOrder

/-!
# The decode budget keeps its accounts

The bytes charged are a multiset with one charge for each buffer: those that workers
decode into or are about to push, those in the slots of the queue, those the consumer
holds, and the idle ones. `Balanced` says that the counter of the budget is their sum, and
that what was admitted of them is within the limit or belongs to one of them alone.

Each step moves, changes or removes one charge. A worker settles for what its decoder
allocated without being asked, so the charge then keeps what it was granted beside its
bytes, and goes with both through the queue, the consumer and the idle pool. When a
reservation takes an idle buffer over it is admitted with all its bytes, whatever its first
grant was: at that moment all that is charged fits under the limit, or nothing else is
charged. `Acquired` is the specification of `acquire` from which everything else follows.
-/

namespace RasterH3.Raster

open OrderedPrefetchQueue Charges

namespace DecodeBudget

/-- Evicting removes idle charges. When it ends without room, no buffer is idle and
somebody else is charged. -/
theorem reserveLoop_account (b : DecodeBudget) {extra : Nat} {buffer : Option Buffer}
    {r : Multiset Charge} (idle : List Buffer) {used : Nat}
    (h : Account b.limit used (buffer.getD 0 ::ₘ (r + ↑idle))) :
    Account b.limit (b.reserveLoop extra (decodedBufferBytes buffer) used idle).2.1
        (buffer.getD 0 ::ₘ (r + ↑(b.reserveLoop extra (decodedBufferBytes buffer) used idle).2.2)) ∧
      if (b.reserveLoop extra (decodedBufferBytes buffer) used idle).1 = true then
        (b.reserveLoop extra (decodedBufferBytes buffer) used idle).2.1 + extra ≤ b.limit ∨
          (b.reserveLoop extra (decodedBufferBytes buffer) used idle).2.1 -
            decodedBufferBytes buffer = 0
      else
        (b.reserveLoop extra (decodedBufferBytes buffer) used idle).2.2 = [] ∧
          ¬ ((b.reserveLoop extra (decodedBufferBytes buffer) used idle).2.1 + extra ≤ b.limit ∨
            (b.reserveLoop extra (decodedBufferBytes buffer) used idle).2.1 -
              decodedBufferBytes buffer = 0) := by
  induction idle generalizing used with
  | nil =>
      refine ⟨h, ?_⟩
      simp only [reserveLoop, decide_eq_true_eq]
      split
      next hfits => exact hfits
      next hfull => exact ⟨trivial, hfull⟩
  | cons evicted idle ih =>
      rw [reserveLoop]
      split
      next hfits => exact ⟨h, by simpa using hfits⟩
      next =>
        have hrotate : buffer.getD 0 ::ₘ (r + ↑(evicted :: idle)) =
            evicted ::ₘ (buffer.getD 0 ::ₘ (r + (↑idle : Multiset Charge))) := by
          rw [← Multiset.cons_coe, Multiset.add_cons, Multiset.cons_swap]
        rw [hrotate] at h
        exact ih h.remove

/-- What a stretch of `acquire` leaves, of the charges that are not idle. -/
def Acquired (b : DecodeBudget) (need : Nat) (buffer : Option Buffer) (r : Multiset Charge)
    (st : BudgetState) : Acquire → Prop
  | .waiting buffer' st' =>
      buffer' = buffer ∧ st.closed = false ∧ st'.closed = false ∧ st'.nextJob = st.nextJob ∧
        Account b.limit st'.used (buffer.getD 0 ::ₘ (r + ↑st'.idle)) ∧ st'.idle = [] ∧
          ¬ (st'.used + (need - decodedBufferBytes buffer) ≤ b.limit ∨
            st'.used - decodedBufferBytes buffer = 0)
  | .refused st' =>
      st.closed = true ∧ st'.closed = true ∧ st'.nextJob = st.nextJob ∧
        Account b.limit st'.used (r + ↑st'.idle)
  | .granted charged st' =>
      charged = max need (decodedBufferBytes buffer) ∧ st.closed = false ∧ st'.closed = false ∧
        st'.nextJob = st.nextJob + 1 ∧
          Account b.limit st'.used (⟨charged, charged⟩ ::ₘ (r + ↑st'.idle)) ∧
            (st'.used ≤ b.limit ∨ st'.used = charged)

theorem reserve_acquired (b : DecodeBudget) {need : Nat} {buffer : Option Buffer}
    {r : Multiset Charge} {st : BudgetState}
    (h : Account b.limit st.used (buffer.getD 0 ::ₘ (r + ↑st.idle))) :
    Acquired b need buffer r st (b.reserve need buffer st) := by
  unfold reserve
  simp only
  split
  next hclosed => exact ⟨hclosed, hclosed, rfl, h.remove⟩
  next hopen =>
    have hopen : st.closed = false := by simpa using hopen
    obtain ⟨haccount, hend⟩ :=
      @reserveLoop_account b (need - decodedBufferBytes buffer) buffer r st.idle _ h
    rcases hout : b.reserveLoop (need - decodedBufferBytes buffer) (decodedBufferBytes buffer)
      st.used st.idle with ⟨fits, used, idle⟩
    rw [hout] at haccount hend
    simp only at haccount hend ⊢
    have hused := haccount.used
    rw [bytes_cons] at hused
    have hcredit : (buffer.getD 0).bytes = decodedBufferBytes buffer := rfl
    split
    next hfits =>
      rw [if_pos hfits] at hend
      refine ⟨by omega, hopen, hopen, rfl, ⟨?_, within_admit ?_⟩, ?_⟩
      · rw [bytes_cons]
        show used + (need - decodedBufferBytes buffer) =
          decodedBufferBytes buffer + (need - decodedBufferBytes buffer) + bytes (r + ↑idle)
        omega
      · show decodedBufferBytes buffer + (need - decodedBufferBytes buffer) + bytes (r + ↑idle) ≤
          b.limit ∨ bytes (r + ↑idle) = 0
        omega
      · show used + (need - decodedBufferBytes buffer) ≤ b.limit ∨
          used + (need - decodedBufferBytes buffer) =
            decodedBufferBytes buffer + (need - decodedBufferBytes buffer)
        omega
    next hfull =>
      rw [if_neg hfull] at hend
      exact ⟨rfl, hopen, hopen, rfl, haccount, hend.1, hend.2⟩

end DecodeBudget

/-! ## The charges of the pipeline -/

/-- The buffer a worker has in hand, decodes into or is about to give back. -/
def workerCharge (p : DecodePlan) : DecodeWorker → Charge
  | .reserving _ buffer => buffer.getD 0
  | .decoding _ charged => ⟨charged, charged⟩
  | .pushing job charged => (p.item job charged).getD 0
  | .returning job charged => (p.item job charged).getD 0
  | _ => 0

def itemCharge (item : Item) : Charge := item.getD 0

def slotCharge (slot : Option Item) : Charge := slot.elim 0 itemCharge

/-- A decode that panicked leaves what its job was granted. -/
def panickedCharge (charged : Nat) : Charge := ⟨charged, charged⟩

namespace Pipeline

variable {p : DecodePlan}

/-- The charges that are not idle. -/
def busy (p : DecodePlan) (s : Pipeline) : Multiset Charge :=
  ↑(s.workers.map (workerCharge p)) +
    (↑(s.queue.queue.slots.map slotCharge) + (↑s.held + ↑(s.panicked.map panickedCharge)))

def charges (p : DecodePlan) (s : Pipeline) : Multiset Charge := busy p s + ↑s.budget.idle

/-- The accounts of the pipeline. -/
def Balanced (p : DecodePlan) (s : Pipeline) : Prop :=
  Account p.limit s.budget.used (charges p s)

/-- A step that leaves the worker's bytes to other places changes one charge. -/
theorem busy_worker {s : Pipeline} {w : Nat} {old : DecodeWorker}
    (hpc : s.workers[w]? = some old) : ∃ r, busy p s = workerCharge p old ::ₘ r ∧
      ∀ pc, busy p (s.setWorker w pc) = workerCharge p pc ::ₘ r := by
  obtain ⟨hw, rfl⟩ := List.getElem?_eq_some_iff.mp hpc
  refine ⟨↑((s.workers.eraseIdx w).map (workerCharge p)) +
    (↑(s.queue.queue.slots.map slotCharge) + (↑s.held + ↑(s.panicked.map panickedCharge))), ?_, fun pc => ?_⟩
  · rw [busy, ← Multiset.cons_add, Multiset.cons_coe, ← List.map_cons,
      Multiset.coe_eq_coe.mpr ((List.getElem_cons_eraseIdx_perm hw).map _)]
  · rw [busy, ← Multiset.cons_add, Multiset.cons_coe, ← List.map_cons]
    show (↑((s.workers.set w pc).map (workerCharge p)) : Multiset Charge) + _ = _
    rw [Multiset.coe_eq_coe.mpr ((List.set_perm_cons_eraseIdx hw pc).map _)]
    rfl

/-- What the loops of `drain_into` take out of the slots is in the batch. -/
theorem takeReady_regroup {q : OrderedPrefetchQueue} (room : Nat) (call : DrainCall Item)
    (st : OrderedQueueState Item) :
    Regroup (↑(st.slots.map slotCharge) + ↑(call.batch.map itemCharge))
        (↑((q.takeReady room call st).2.slots.map slotCharge) +
          ↑((q.takeReady room call st).1.batch.map itemCharge)) ∧
      call.batch.length ≤ (q.takeReady room call st).1.batch.length ∧
        (q.takeReady room call st).1.targetMin = call.targetMin ∧
          (q.takeReady room call st).2.closed = st.closed := by
  induction room generalizing call st with
  | zero => exact ⟨.refl _, le_rfl, rfl, rfl⟩
  | succ room ih =>
      rw [takeReady]
      split
      next =>
        split
        next item hslot =>
          obtain ⟨hrest, hlen, hsame⟩ :=
            ih { call with batch := call.batch ++ [item] } (q.takeSlot st)
          refine ⟨.trans ?_ hrest, ?_, hsame⟩
          · have hget : st.slots[st.nextRead % q.capacity]? = some (some item) := by
              rw [slot] at hslot
              cases hs : st.slots[st.nextRead % q.capacity]? with
              | none => rw [hs] at hslot; cases hslot
              | some v => rw [hs] at hslot; exact congrArg some hslot
            have hperm := Multiset.coe_eq_coe.mpr ((perm_set hget none).map slotCharge)
            simp only [List.map_cons, ← Multiset.cons_coe] at hperm
            have hslots : itemCharge item ::ₘ
                (↑((q.takeSlot st).slots.map slotCharge) : Multiset Charge) =
                  0 ::ₘ ↑(st.slots.map slotCharge) := hperm
            have hbatch : (↑((call.batch ++ [item]).map itemCharge) : Multiset Charge) =
                itemCharge item ::ₘ ↑(call.batch.map itemCharge) := by
              rw [List.map_append, ← Multiset.coe_add, Multiset.add_comm]
              rfl
            have hmoved : itemCharge item ::ₘ (↑((q.takeSlot st).slots.map slotCharge) +
                (↑(call.batch.map itemCharge) : Multiset Charge)) =
                  0 ::ₘ (↑(st.slots.map slotCharge) + ↑(call.batch.map itemCharge)) := by
              rw [← Multiset.cons_add, hslots, Multiset.cons_add]
            show Regroup _ (↑((q.takeSlot st).slots.map slotCharge) +
              (↑((call.batch ++ [item]).map itemCharge) : Multiset Charge))
            rw [hbatch, Multiset.add_cons, hmoved]
            exact regroup_zero_cons _
          · rw [List.length_append] at hlen
            exact le_trans (Nat.le_add_right _ _) hlen
        next => exact ⟨.refl _, le_rfl, rfl, rfl⟩
      next => exact ⟨.refl _, le_rfl, rfl, rfl⟩

/-- The consumer keeps the buffers of a batch; its errors have none. -/
theorem regroup_buffers (batch : List Item) :
    Regroup (↑(batch.map itemCharge)) ↑(batch.filterMap id) := by
  induction batch with
  | nil => exact .refl _
  | cons item batch ih =>
      rw [List.map_cons, ← Multiset.cons_coe]
      cases item with
      | none => exact (regroup_cons_zero _).trans ih
      | some buffer =>
          rw [List.filterMap_cons_some (f := id) rfl, ← Multiset.cons_coe]
          exact ih.cons buffer

/-- A drain for at least one item sleeps only before its first one, and what it takes out
of the slots it hands to the consumer. It returns nothing if nothing was there, or if a
terminal item was. -/
theorem resumeFirst_one (q : OrderedPrefetchQueue) (maxBatch : Nat) (st : OrderedQueueState Item) :
    (q.mustWait st = true ∧ q.resumeFirst (DrainCall.start Item 1 maxBatch) st =
        .waiting .first (DrainCall.start Item 1 maxBatch) st) ∨
      q.mustWait st = false ∧ ∃ batch terminal st',
        q.resumeFirst (DrainCall.start Item 1 maxBatch) st = .returned batch terminal st' ∧
          Regroup ↑(st.slots.map slotCharge)
              (↑(st'.slots.map slotCharge) + ↑(batch.filterMap id)) ∧
            st'.closed = st.closed ∧
              (batch = [] → terminal = none → st'.closed = true ∨ q.totalJobs ≤ st'.nextRead) ∧
                (batch = [] → st' = st ∨ st.terminalItem ≠ none) := by
  have hsame : Regroup ↑(st.slots.map slotCharge)
      (↑(st.slots.map slotCharge) + ↑(([] : List Item).filterMap id)) := by
    rw [List.filterMap_nil, Multiset.coe_nil, Multiset.add_zero]
    exact .refl _
  unfold resumeFirst
  split
  next hwait => exact .inl ⟨hwait, rfl⟩
  next hready =>
    have hready : q.mustWait st = false := by simpa using hready
    refine .inr ⟨hready, ?_⟩
    split
    next item hterminal =>
      exact ⟨_, _, _, rfl, hsame, rfl, nofun, fun _ => .inr (by rw [hterminal]; nofun)⟩
    next =>
      split
      next hended =>
        exact ⟨_, _, _, rfl, hsame, rfl, fun _ _ => (hended.imp_right And.left).symm,
          fun _ => .inl rfl⟩
      next hgoing =>
        simp only [not_or, not_le, not_and] at hgoing
        obtain ⟨hlt, hfull⟩ := hgoing
        cases hslot : q.slot st st.nextRead with
        | none =>
            rw [hslot] at hfull
            cases hclosed : st.closed with
            | false => simp [mustWait, hlt, hslot, hclosed] at hready
            | true => exact absurd rfl (hfull hclosed)
        | some item =>
            have hroom : ∃ room, (DrainCall.start Item 1 maxBatch).targetMax -
                (DrainCall.start Item 1 maxBatch).batch.length = room + 1 := by
              refine ⟨max maxBatch 1 - 1, ?_⟩
              show max maxBatch 1 - 0 = _
              omega
            obtain ⟨room, hroom⟩ := hroom
            rw [hroom]
            obtain ⟨hregroup, -, hmin, hclosed⟩ := takeReady_regroup (q := q) (room + 1)
              (DrainCall.start Item 1 maxBatch) st
            have htake : q.takeReady (room + 1) (DrainCall.start Item 1 maxBatch) st =
                q.takeReady room { DrainCall.start Item 1 maxBatch with batch := [item] }
                  (q.takeSlot st) := by
              rw [takeReady, if_pos hlt, hslot]
              rfl
            have hlen := (takeReady_regroup (q := q) room
              { DrainCall.start Item 1 maxBatch with batch := [item] } (q.takeSlot st)).2.1
            rw [← htake] at hlen
            rcases hout : q.takeReady (room + 1) (DrainCall.start Item 1 maxBatch) st with
              ⟨call', st'⟩
            rw [hout] at hregroup hlen hmin hclosed
            have hmin : call'.targetMin = 1 := hmin
            have hzero : call'.targetMin - call'.batch.length = 0 := by
              rw [hmin]
              exact Nat.sub_eq_zero_of_le hlen
            have hbuffers : Regroup ↑(st.slots.map slotCharge)
                (↑(st'.slots.map slotCharge) + ↑(call'.batch.filterMap id)) := by
              refine .trans ?_ ((regroup_buffers call'.batch).add_left _)
              simpa [DrainCall.start] using hregroup
            have hsome : call'.batch ≠ [] := List.ne_nil_of_length_pos hlen
            simp only [hzero, gather, finishDrain]
            split
            next =>
              exact ⟨_, _, _, rfl, hbuffers, hclosed, fun hnil => absurd hnil hsome,
                fun hnil => absurd hnil hsome⟩
            next =>
              exact ⟨_, _, _, rfl, hbuffers, hclosed, fun hnil => absurd hnil hsome,
                fun hnil => absurd hnil hsome⟩

/-- Closing the budget frees the idle buffers. -/
theorem Balanced.close {s : Pipeline} (h : Balanced p s) :
    Account p.limit (DecodeBudget.close s.budget).used
      (busy p s + ↑(DecodeBudget.close s.budget).idle) := by
  have hclosed := h.remove_add
  rw [bytes_coe] at hclosed
  show Account _ (s.budget.used - (s.budget.idle.map Charge.bytes).sum)
    (busy p s + ↑([] : List Charge))
  rwa [Multiset.coe_nil, Multiset.add_zero]

/-- A worker that moves on with the same charge. -/
theorem busy_setWorker {s : Pipeline} {w : Nat} {old : DecodeWorker} (pc : DecodeWorker)
    (hpc : s.workers[w]? = some old) (hcharge : workerCharge p pc = workerCharge p old) :
    busy p (s.setWorker w pc) = busy p s := by
  obtain ⟨r, hbusy, hset⟩ := busy_worker (p := p) hpc
  rw [hbusy, hset, hcharge]

theorem Balanced.afterAcquire {s : Pipeline} {w job : Nat} {buffer : Option Buffer}
    {st : BudgetState} {a : Acquire} {r : Multiset Charge}
    (hset : ∀ pc, busy p (s.setWorker w pc) = workerCharge p pc ::ₘ r)
    (ha : p.budget.Acquired (p.need job) buffer r st a) :
    Balanced p (s.afterAcquire w job a) := by
  cases a with
  | waiting buffer' st' =>
      obtain ⟨rfl, -, -, -, haccount, -, -⟩ := ha
      show Account p.limit st'.used (busy p (s.setWorker w _) + _)
      rw [hset, Multiset.cons_add]
      exact haccount
  | refused st' =>
      obtain ⟨-, -, -, haccount⟩ := ha
      show Account p.limit st'.used (busy p (s.setWorker w _) + _)
      rw [hset, Multiset.cons_add]
      exact haccount.regroup (regroup_zero_cons _)
  | granted charged st' =>
      obtain ⟨-, -, -, -, haccount, -⟩ := ha
      show Account p.limit st'.used (busy p (s.setWorker w _) + _)
      rw [hset, Multiset.cons_add]
      exact haccount

theorem turn_acquired {s : Pipeline} (h : Balanced p s) {w job : Nat} {a : Acquire}
    (hpc : s.workers[w]? = some (.awaiting job))
    (hturn : p.budget.turn (p.need job) job s.budget = some a) :
    ∃ r buffer st, (∀ pc, busy p (s.setWorker w pc) = workerCharge p pc ::ₘ r) ∧
      (s.budget.nextJob = job ∨ s.budget.closed = true) ∧ st.closed = s.budget.closed ∧
        st.nextJob = s.budget.nextJob ∧ p.budget.Acquired (p.need job) buffer r st a := by
  obtain ⟨r, hbusy, hset⟩ := busy_worker (p := p) hpc
  have haccount : Account p.limit s.budget.used (0 ::ₘ (r + ↑s.budget.idle)) := by
    have := h
    rwa [Balanced, charges, hbusy, Multiset.cons_add] at this
  unfold DecodeBudget.turn at hturn
  split at hturn
  next => cases hturn
  next hmine =>
    have hmine : s.budget.nextJob = job ∨ s.budget.closed = true := by
      by_contra hnot
      push Not at hnot
      exact hmine ⟨hnot.1, by simpa using hnot.2⟩
    split at hturn
    next hidle =>
      obtain rfl := Option.some.inj hturn
      exact ⟨r, none, s.budget, hset, hmine, rfl, rfl,
        DecodeBudget.reserve_acquired p.budget haccount⟩
    next buffer idle hidle =>
      obtain rfl := Option.some.inj hturn
      refine ⟨r, some buffer, { s.budget with idle }, hset, hmine, rfl, rfl,
        DecodeBudget.reserve_acquired p.budget ?_⟩
      rw [hidle] at haccount
      have hmoved : 0 ::ₘ (r + (↑(buffer :: idle) : Multiset Charge)) =
          0 ::ₘ (buffer ::ₘ (r + (↑idle : Multiset Charge))) := by
        rw [← Multiset.cons_coe, Multiset.add_cons]
      rw [hmoved] at haccount
      exact haccount.remove

theorem retry_acquired {s : Pipeline} (h : Balanced p s) {w job : Nat} {buffer : Option Buffer}
    (hpc : s.workers[w]? = some (.reserving job buffer)) :
    ∃ r, (∀ pc, busy p (s.setWorker w pc) = workerCharge p pc ::ₘ r) ∧
      busy p s = buffer.getD 0 ::ₘ r ∧
      p.budget.Acquired (p.need job) buffer r s.budget
        (p.budget.reserve (p.need job) buffer s.budget) := by
  obtain ⟨r, hbusy, hset⟩ := busy_worker (p := p) hpc
  refine ⟨r, hset, hbusy, DecodeBudget.reserve_acquired p.budget ?_⟩
  have := h
  rwa [Balanced, charges, hbusy, Multiset.cons_add] at this

/-- A worker settles for what its decoder allocated. -/
theorem Balanced.settle {s : Pipeline} (h : Balanced p s) {w : Nat} {old : DecodeWorker}
    (pc : DecodeWorker) (hpc : s.workers[w]? = some old)
    (hle : (workerCharge p pc).admitted ≤ (workerCharge p old).admitted) :
    Account p.limit
      (DecodeBudget.settle (workerCharge p old).bytes (workerCharge p pc).bytes s.budget).used
        (busy p (s.setWorker w pc) + ↑s.budget.idle) := by
  obtain ⟨r, hbusy, hset⟩ := busy_worker (p := p) hpc
  rw [Balanced, charges, hbusy, Multiset.cons_add] at h
  rw [hset, Multiset.cons_add]
  exact Account.settle h hle

/-- A buffer has at most the bytes granted to its job admitted. -/
theorem item_admitted_le (p : DecodePlan) (job charged : Nat) :
    ((p.item job charged).getD 0).admitted ≤ charged := by
  cases hresult : p.result job with
  | none => simp [DecodePlan.item, hresult]
  | some bytes =>
      simp only [DecodePlan.item, hresult, Option.map_some, Option.getD_some, Charge.admitted]
      exact Nat.min_le_right ..

/-- The bytes pushed are in a slot that was empty. -/
theorem Balanced.push {s : Pipeline} (h : Balanced p s) {w job charged i : Nat}
    {answered : List (Nat × Bool)} (hpc : s.workers[w]? = some (.pushing job charged))
    (hslot : s.queue.queue.slots[i]? = some none) :
    Balanced p
      { s.setWorker w .top with
        queue :=
          { s.queue with
            queue :=
              { s.queue.queue with
                slots := s.queue.queue.slots.set i (some (p.item job charged)) }
            answered := answered } } := by
  have hworkers := Multiset.coe_eq_coe.mpr ((perm_set hpc .top).map (workerCharge p))
  have hslots := Multiset.coe_eq_coe.mpr
    ((perm_set hslot (some (p.item job charged))).map slotCharge)
  simp only [List.map_cons, ← Multiset.cons_coe] at hworkers hslots
  have hmoved : charges p
      { s.setWorker w .top with
        queue :=
          { s.queue with
            queue :=
              { s.queue.queue with
                slots := s.queue.queue.slots.set i (some (p.item job charged)) }
            answered := answered } } = charges p s := by
    have hboth := congrArg₂ (· + ·) hworkers hslots
    simp only [Multiset.cons_add, Multiset.add_cons] at hboth
    rw [Multiset.cons_swap] at hboth
    have hsum := (Multiset.cons_inj_right _).mp ((Multiset.cons_inj_right _).mp hboth)
    simp only [charges, busy, ← Multiset.add_assoc]
    show (↑((s.workers.set w .top).map (workerCharge p)) +
      ↑((s.queue.queue.slots.set i (some (p.item job charged))).map slotCharge) + ↑s.held +
        ↑(s.panicked.map panickedCharge) + ↑s.budget.idle : Multiset Charge) = _
    rw [hsum]
  rw [Balanced, hmoved]
  exact h

end Pipeline

end RasterH3.Raster
