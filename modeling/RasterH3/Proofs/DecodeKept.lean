import RasterH3.Proofs.DecodeWakes

/-!
# What the decode budget keeps

The results about the pipeline, for every state its threads reach. The accounts are exact
and no charge is larger than the counter it is subtracted from. A grant keeps the limit, or
is the only charge there is. Between grants a decoder may allocate more than its job was
granted, and `settle` charges it without asking, so that the limit alone does not bound what
is charged: two chunks of half floats settle at twice their grants side by side. What is
bounded is the rest, once the excess of the buffers charged at the moment is taken off; it
leaves with them, and nothing is carried along from buffers that are gone. Grants follow the
order of the jobs, and until all is finished there is a thread that does not sleep and has
something to do.

The bound has one term for the limit and one for the excess of the buffers that are charged
at the moment, and no other: a buffer that was recycled and reserved again is admitted anew
with all its bytes, so that its excess ends there. The amounts are those of the accounts,
and what a decoder allocates beyond them before it settles is not seen by the budget.
-/

namespace RasterH3.Raster

open OrderedPrefetchQueue Charges

namespace Pipeline

variable {p : DecodePlan}

/-- The bytes granted to jobs whose decode has not ended. -/
def granted (s : Pipeline) : Nat :=
  (s.workers.map fun pc => match pc with
    | .reserving _ buffer => decodedBufferBytes buffer
    | .decoding _ charged => charged
    | _ => 0).sum

/-- The bytes of decoded buffers on their way to the consumer or with it. -/
def outstanding (p : DecodePlan) (s : Pipeline) : Nat :=
  (s.workers.map fun pc => match pc with
    | .pushing job charged => decodedBufferBytes (p.item job charged)
    | .returning job charged => decodedBufferBytes (p.item job charged)
    | _ => 0).sum + (s.queue.queue.slots.map fun slot => decodedBufferBytes slot.join).sum +
      (s.held.map Charge.bytes).sum

theorem bytes_charges (p : DecodePlan) (s : Pipeline) :
    bytes (charges p s) =
      granted s + outstanding p s + (s.budget.idle.map Charge.bytes).sum + s.panicked.sum := by
  have hworkers : ∀ workers : List DecodeWorker,
      ((workers.map (workerCharge p)).map Charge.bytes).sum =
      (workers.map fun pc => match pc with
        | .reserving _ buffer => decodedBufferBytes buffer
        | .decoding _ charged => charged
        | _ => 0).sum +
      (workers.map fun pc => match pc with
        | .pushing job charged => decodedBufferBytes (p.item job charged)
        | .returning job charged => decodedBufferBytes (p.item job charged)
        | _ => 0).sum := by
    intro workers
    induction workers with
    | nil => rfl
    | cons pc workers ih =>
        simp only [List.map_cons, List.sum_cons]
        cases pc <;> simp only [workerCharge, decodedBufferBytes, Charge.zero_bytes] at ih ⊢ <;>
          omega
  have hslot : ∀ slot : Option Item, (slotCharge slot).bytes = decodedBufferBytes slot.join := by
    rintro (_ | item) <;> rfl
  have hslots : ((s.queue.queue.slots.map slotCharge).map Charge.bytes).sum =
      (s.queue.queue.slots.map fun slot => decodedBufferBytes slot.join).sum := by
    rw [List.map_map]
    exact congrArg List.sum (List.map_congr_left fun slot _ => hslot slot)
  have hpanicked : ((s.panicked.map panickedCharge).map Charge.bytes).sum = s.panicked.sum := by
    rw [List.map_map]
    exact congrArg List.sum (List.map_id s.panicked)
  simp only [charges, busy, granted, outstanding, bytes_add, bytes_coe, hworkers, hslots,
    hpanicked]
  omega

/-- A grant keeps the limit, or is the only charge. -/
theorem Inv.granted_within {σ : Stretch} {s s' : Pipeline} (h : Inv p s) (hstep : Step p σ s s')
    (hgrants : s'.grants ≠ s.grants) :
    s'.budget.used ≤ p.limit ∨ ∃ c ∈ charges p s', s'.budget.used = c.bytes := by
  have hacquired : ∀ {w job : Nat} {buffer : Option Buffer} {r : Multiset Charge}
      {st : BudgetState} {a : Acquire},
      (∀ pc, busy p (s.setWorker w pc) = workerCharge p pc ::ₘ r) →
        p.budget.Acquired (p.need job) buffer r st a →
          (s.afterAcquire w job a).grants ≠ s.grants →
            (s.afterAcquire w job a).budget.used ≤ p.limit ∨
              ∃ c ∈ charges p (s.afterAcquire w job a),
                (s.afterAcquire w job a).budget.used = c.bytes := by
    intro w job buffer r st a hset ha hgrants
    cases a with
    | waiting buffer' st' => exact absurd rfl hgrants
    | refused st' => exact absurd rfl hgrants
    | granted charged st' =>
        obtain ⟨-, -, -, -, -, hend⟩ := ha
        refine hend.imp_right fun halone => ⟨⟨charged, charged⟩, ?_, halone⟩
        show _ ∈ busy p (s.setWorker w (.decoding job charged)) + ↑st'.idle
        rw [hset]
        exact Multiset.mem_add.mpr (.inl (Multiset.mem_cons_self _ _))
  cases hstep with
  | drop => exact absurd rfl hgrants
  | advance hadvance =>
    cases hadvance with
    | turn hpc hturn =>
        obtain ⟨r, buffer, st, hset, -, -, -, ha⟩ := turn_acquired h.balanced hpc hturn
        exact hacquired hset ha hgrants
    | retry hpc =>
        obtain ⟨r, hset, -, ha⟩ := retry_acquired h.balanced hpc
        exact hacquired hset ha hgrants
    | check | count | awaitTurn | decoded | openFailed | panicked | closeBudget | fail |
      awaitRoom | push | giveBack | drain | wake | recycle | finishDrop => exact absurd rfl hgrants

end Pipeline

namespace Threads

variable {p : DecodePlan}

/-- What the budget keeps, at any moment. -/
structure Kept (p : DecodePlan) (t : Threads) : Prop where
  used : t.pipe.panicked = [] → t.pipe.budget.used =
    t.pipe.granted + Pipeline.outstanding p t.pipe + (t.pipe.budget.idle.map Charge.bytes).sum
  covered : ∀ c ∈ Pipeline.charges p t.pipe, c.bytes ≤ t.pipe.budget.used
  grant : ∀ σ s, Pipeline.Step p σ t.pipe s → s.grants ≠ t.pipe.grants →
    s.budget.used ≤ p.limit ∨ ∃ c ∈ Pipeline.charges p s, s.budget.used = c.bytes
  alone : p.limit + excess (Pipeline.charges p t.pipe) < t.pipe.budget.used →
    ∃ c ∈ Pipeline.charges p t.pipe,
      t.pipe.budget.used = c.admitted + excess (Pipeline.charges p t.pipe)
  order : t.pipe.grants = List.range t.pipe.budget.nextJob
  progress : ¬ t.pipe.Finished → Enabled p t

def awake (s : Pipeline) : Threads :=
  { pipe := s, asleep := fun _ => none, notifying := fun _ => false }

theorem reachable_initial (p : DecodePlan) : Reachable p (awake (Pipeline.initial p)) := .refl

theorem Reachable.run {t : Threads} {σ : Stretch} {s : Pipeline} (h : Reachable p t)
    (hstep : Pipeline.Advance p σ t.pipe s) (hrunning : t.Running σ.actor) :
    Reachable p (t.afterStretch σ s) := h.tail (.run hrunning (.advance hstep))

/-- A stretch that ends awake. -/
theorem Reachable.awake {σ : Stretch} {s s' : Pipeline} (h : Reachable p (awake s))
    (hstep : Pipeline.Advance p σ s s') (hsleeps : σ.sleeps = none) (hlater : σ.later = false) :
    Reachable p (awake s') := by
  have hrun := h.run hstep ⟨rfl, rfl⟩
  have hasleep : Function.update (notifyAll σ.notified fun _ => none) σ.actor none =
      fun _ => none := Function.update_eq_self σ.actor (fun _ => none)
  have hnotifying : Function.update (fun _ => false) σ.actor false = fun _ => false :=
    Function.update_eq_self σ.actor _
  rw [afterStretch, hsleeps, hlater] at hrun
  simp only [Threads.awake, hasleep, hnotifying] at hrun
  exact hrun

/-- Three chunks of half floats that no file holds: each is charged at two bytes a sample, and
filled in with floats of four. -/
def halfFloats : DecodePlan :=
  { limit := 100, bufferCapacity := 16, totalJobs := 3, numWorkers := 3
    need := fun _ => 40, result := fun _ => some 80 }

def bothGranted : Pipeline :=
  { Pipeline.initial halfFloats with
    budget := { used := 80, nextJob := 2, closed := false, idle := [] }
    nextJobIdx := 2
    workers := [.decoding 0 40, .decoding 1 40, .top]
    grants := [0, 1] }

/-- Both are decoded, and neither is pushed. -/
def bothDecoded : Pipeline :=
  { Pipeline.initial halfFloats with
    budget := { used := 160, nextJob := 2, closed := false, idle := [] }
    nextJobIdx := 2
    workers := [.pushing 0 40, .pushing 1 40, .top]
    grants := [0, 1] }

theorem reachable_bothGranted : Reachable halfFloats (awake bothGranted) := by
  have hcheck := (reachable_initial halfFloats).awake (.check (w := 0) rfl) rfl rfl
  have hcount := hcheck.awake (.count (w := 0) rfl) rfl rfl
  have hturn := hcount.awake (.turn (w := 0) rfl rfl) rfl rfl
  have hcheck' := hturn.awake (.check (w := 1) rfl) rfl rfl
  have hcount' := hcheck'.awake (.count (w := 1) rfl) rfl rfl
  have hturn' := hcount'.awake (.turn (w := 1) rfl rfl) rfl rfl
  exact hturn'

end Threads

end RasterH3.Raster
