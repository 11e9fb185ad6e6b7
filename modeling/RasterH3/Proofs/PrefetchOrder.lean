import RasterH3.Raster.PrefetchQueue
import Mathlib.Data.Nat.ModEq
import Mathlib.Tactic

/-!
# The prefetch queue delivers in order

Workers hand in the results of numbered jobs as they finish, and one consumer takes them out
in the order of the jobs, a batch at a time. In between is a ring of slots under a lock. A
worker whose job is too far ahead waits, the consumer waits for the next job, and an error
ends everything behind the results that come before it.

The ring is correct because of one window. Job `j` may be stored only while `j < next_read +
capacity`, and everything below `next_read` has left, so the occupied slots belong to
distinct jobs of one window of `capacity` consecutive ids: no two share a slot, and the slot
of `next_read` holds nothing but job `next_read`. `Ring` states that window; the stretches
of the queue preserve it, and `Open` adds what the consumer has already been given.

Once a terminal item has been handed out the window is gone for good: `next_read` jumps to
the end and the queue is closed. `Settled` is that phase, and nothing but an end of stream
can come out of it.

The code of a drain waits in the middle of a loop, with a batch in hand. A stretch is what
happens between two waits, and a drain is a sequence of stretches; what all of them have in
common is `Progress`, that the items taken are the next results in order and that the window
survives. So the invariant has one lemma for each stretch and not one for each path through
the loop, and the consumer's step is a stretch of the call that sleeps, whichever that was.
-/

namespace RasterH3.Raster

open OrderedPrefetchQueue QueueSystem

variable {T : Type} {q : OrderedPrefetchQueue} {result : Nat → T}

/-! ## Slots of the ring -/

theorem slot_set_self {st : OrderedQueueState T} (id : Nat) {v : Option T}
    (hcap : 0 < q.capacity) (hlen : st.slots.length = q.capacity) :
    q.slot { st with slots := st.slots.set (id % q.capacity) v } id = v := by
  have hlt : id % q.capacity < st.slots.length := by
    rw [hlen]; exact Nat.mod_lt _ hcap
  simp only [slot, List.getElem?_set_self hlt, Option.join_some]

theorem slot_set_of_ne {id other : Nat} (st : OrderedQueueState T) (v : Option T)
    (hne : id % q.capacity ≠ other % q.capacity) :
    q.slot { st with slots := st.slots.set (id % q.capacity) v } other =
      q.slot st other := by
  simp only [slot, List.getElem?_set_ne hne]

/-- Two jobs of one window that share a slot are the same job. -/
theorem eq_of_mod_eq_of_window {cap lo i j : Nat} (hi : lo ≤ i) (hi' : i < lo + cap)
    (hj : lo ≤ j) (hj' : j < lo + cap) (h : i % cap = j % cap) : i = j := by
  have hmod : i ≡ j [MOD cap] := h
  rcases Nat.le_total i j with hij | hij
  · have hdvd : cap ∣ j - i := (Nat.modEq_iff_dvd' hij).mp hmod
    have := Nat.eq_zero_of_dvd_of_lt hdvd (by omega)
    omega
  · have hdvd : cap ∣ i - j := (Nat.modEq_iff_dvd' hij).mp hmod.symm
    have := Nat.eq_zero_of_dvd_of_lt hdvd (by omega)
    omega

/-- The window: which jobs are stored, and that nothing else is. -/
structure Ring (q : OrderedPrefetchQueue) (result : Nat → T) (pushed : List Nat)
    (st : OrderedQueueState T) : Prop where
  len : st.slots.length = q.capacity
  bound : st.nextRead ≤ q.totalJobs
  pushed_lt : ∀ id ∈ pushed, id < q.totalJobs ∧ id < st.nextRead + q.capacity
  delivered_pushed : ∀ id, id < st.nextRead → id ∈ pushed
  stored : ∀ id, st.nextRead ≤ id → id < st.nextRead + q.capacity →
    q.slot st id = if id ∈ pushed then some (result id) else none

theorem ring_initial (hcap : 0 < q.capacity) :
    Ring q result [] (OrderedPrefetchQueue.initial T q) where
  len := List.length_replicate
  bound := Nat.zero_le _
  pushed_lt := by simp
  delivered_pushed := by simp [OrderedPrefetchQueue.initial]
  stored := by
    intro id _ _
    have hlt : id % q.capacity < q.capacity := Nat.mod_lt _ hcap
    simp [slot, OrderedPrefetchQueue.initial, hlt]

/-- Flags and the terminal item are not part of the window. -/
theorem Ring.congr {pushed : List Nat} {st st' : OrderedQueueState T}
    (h : Ring q result pushed st) (hslots : st'.slots = st.slots)
    (hnext : st'.nextRead = st.nextRead) : Ring q result pushed st' where
  len := by rw [hslots]; exact h.len
  bound := by rw [hnext]; exact h.bound
  pushed_lt := by rw [hnext]; exact h.pushed_lt
  delivered_pushed := by rw [hnext]; exact h.delivered_pushed
  stored := by
    intro id hlo hhi
    rw [hnext] at hlo hhi
    have := h.stored id hlo hhi
    simpa only [slot, hslots] using this

/-- An accepted job goes into an empty slot, and the window gains it. -/
theorem Ring.push {pushed : List Nat} {st : OrderedQueueState T} {id : Nat}
    (hcap : 0 < q.capacity) (h : Ring q result pushed st)
    (hid : id < q.totalJobs) (hnew : id ∉ pushed)
    (hroom : id < st.nextRead + q.capacity) :
    q.slot st id = none ∧
    Ring q result (pushed ++ [id])
      { st with slots := st.slots.set (id % q.capacity) (some (result id)) } := by
  have hlo : st.nextRead ≤ id := by
    by_contra hlt
    exact hnew (h.delivered_pushed id (by omega))
  refine ⟨by rw [h.stored id hlo hroom, if_neg hnew], ?_⟩
  constructor
  · simp [h.len]
  · exact h.bound
  · intro j hj
    rcases List.mem_append.mp hj with hj | hj
    · exact h.pushed_lt j hj
    · rw [List.mem_singleton] at hj
      subst hj
      exact ⟨hid, hroom⟩
  · exact fun j hj => List.mem_append_left _ (h.delivered_pushed j hj)
  · intro j hjlo hjhi
    by_cases hj : j = id
    · subst hj
      rw [slot_set_self j hcap h.len]
      simp
    · have hne : id % q.capacity ≠ j % q.capacity := fun hmod =>
        hj (eq_of_mod_eq_of_window hlo hroom hjlo hjhi hmod).symm
      rw [slot_set_of_ne st _ hne, h.stored j hjlo hjhi]
      simp [hj]

/-- Taking the next slot: it held the next result, and the window moves on. -/
theorem Ring.take {pushed : List Nat} {st : OrderedQueueState T} {item : T}
    (hcap : 0 < q.capacity) (h : Ring q result pushed st)
    (hlt : st.nextRead < q.totalJobs)
    (hslot : q.slot st st.nextRead = some item) :
    item = result st.nextRead ∧ Ring q result pushed (q.takeSlot st) := by
  have hself := h.stored st.nextRead (Nat.le_refl _) (by omega)
  have hmem : st.nextRead ∈ pushed := by
    by_contra hno
    rw [if_neg hno, hslot] at hself
    cases hself
  rw [if_pos hmem, hslot] at hself
  refine ⟨Option.some.inj hself, ?_⟩
  constructor
  · simp [takeSlot, h.len]
  · exact hlt
  · intro j hj
    have := h.pushed_lt j hj
    simp only [takeSlot]
    omega
  · intro j hj
    simp only [takeSlot] at hj
    rcases Nat.lt_succ_iff_lt_or_eq.mp hj with hj | rfl
    · exact h.delivered_pushed j hj
    · exact hmem
  · intro j hjlo hjhi
    simp only [takeSlot] at hjlo hjhi
    by_cases hwrap : j = st.nextRead + q.capacity
    · -- The slot just emptied is the one the new last job of the window uses.
      have hno : j ∉ pushed := fun hj => by
        have := (h.pushed_lt j hj).2
        omega
      have hmod : st.nextRead % q.capacity = j % q.capacity := by
        rw [hwrap, Nat.add_mod_right]
      rw [if_neg hno, takeSlot]
      show (Option.join _) = none
      rw [hmod]
      exact slot_set_self j hcap h.len
    · have hne : st.nextRead % q.capacity ≠ j % q.capacity := fun hmod =>
        absurd (eq_of_mod_eq_of_window (Nat.le_refl _) (by omega) (by omega)
          (by omega) hmod) (by omega)
      have := slot_set_of_ne st none hne
      rw [← h.stored j (by omega) (by omega), ← this]
      rfl

/-! ## What a stretch of `drain_into` does

`Progress` collects what every caller needs: the items this call has taken
are the next results in order, the window survives, and the flags are those
the stretch started with. -/

/-- From `st` with `batch` in hand, the call has moved on to `st'` and
`batch'`, taking the results in between. -/
structure Progress (q : OrderedPrefetchQueue) (result : Nat → T)
    (pushed : List Nat) (batch : List T) (st : OrderedQueueState T)
    (batch' : List T) (st' : OrderedQueueState T) : Prop where
  ring : Ring q result pushed st'
  le : st.nextRead ≤ st'.nextRead
  batch_eq : batch' = batch ++
    (List.range' st.nextRead (st'.nextRead - st.nextRead)).map result
  closed_eq : st'.closed = st.closed
  terminal_eq : st'.terminalItem = st.terminalItem

theorem Progress.refl {pushed : List Nat} {batch : List T}
    {st : OrderedQueueState T} (h : Ring q result pushed st) :
    Progress q result pushed batch st batch st where
  ring := h
  le := Nat.le_refl _
  batch_eq := by simp
  closed_eq := rfl
  terminal_eq := rfl

theorem Progress.trans {pushed : List Nat} {b b' b'' : List T}
    {st st' st'' : OrderedQueueState T}
    (h : Progress q result pushed b st b' st')
    (h' : Progress q result pushed b' st' b'' st'') :
    Progress q result pushed b st b'' st'' where
  ring := h'.ring
  le := Nat.le_trans h.le h'.le
  batch_eq := by
    have hle := h.le
    have hle' := h'.le
    rw [h'.batch_eq, h.batch_eq, List.append_assoc, ← List.map_append]
    congr 2
    obtain ⟨a, ha⟩ := Nat.exists_eq_add_of_le hle
    obtain ⟨c, hc⟩ := Nat.exists_eq_add_of_le hle'
    have h1 : st'.nextRead - st.nextRead = a := by omega
    have h2 : st''.nextRead - st'.nextRead = c := by omega
    have h3 : st''.nextRead - st.nextRead = a + c := by omega
    rw [h1, h2, h3, ha, List.range'_append_1]
  closed_eq := h'.closed_eq.trans h.closed_eq
  terminal_eq := h'.terminal_eq.trans h.terminal_eq

theorem Progress.take {pushed : List Nat} (batch : List T)
    {st : OrderedQueueState T} {item : T} (hcap : 0 < q.capacity)
    (h : Ring q result pushed st) (hlt : st.nextRead < q.totalJobs)
    (hslot : q.slot st st.nextRead = some item) :
    Progress q result pushed batch st (batch ++ [item]) (q.takeSlot st) := by
  obtain ⟨rfl, hring⟩ := h.take hcap hlt hslot
  exact
    { ring := hring
      le := by simp [takeSlot]
      batch_eq := by simp [takeSlot]
      closed_eq := rfl
      terminal_eq := rfl }

theorem takeReady_progress (hcap : 0 < q.capacity) {pushed : List Nat} :
    ∀ (room : Nat) (call : DrainCall T) (st : OrderedQueueState T),
      Ring q result pushed st →
      Progress q result pushed call.batch st
        (q.takeReady room call st).1.batch (q.takeReady room call st).2 ∧
      (q.takeReady room call st).1.targetMin = call.targetMin ∧
      (q.takeReady room call st).1.targetMax = call.targetMax := by
  intro room
  induction room with
  | zero => exact fun call st h => ⟨.refl h, rfl, rfl⟩
  | succ room ih =>
      intro call st h
      rw [takeReady]
      split
      · next hlt =>
          cases hslot : q.slot st st.nextRead with
          | none => exact ⟨.refl h, rfl, rfl⟩
          | some item =>
              have hstep := Progress.take call.batch hcap h hlt hslot
              obtain ⟨hrest, hmin, hmax⟩ := ih { call with batch := call.batch ++ [item] }
                (q.takeSlot st) hstep.ring
              exact ⟨hstep.trans hrest, hmin, hmax⟩
      · exact ⟨.refl h, rfl, rfl⟩

/-- How a stretch of `drain_into` can end. -/
inductive DrainEnd (q : OrderedPrefetchQueue) (result : Nat → T)
    (pushed : List Nat) (call : DrainCall T) (st : OrderedQueueState T) :
    DrainOutcome T → Prop where
  | waiting {pc : DrainPc} {call' : DrainCall T} {st' : OrderedQueueState T}
      (hprog : Progress q result pushed call.batch st call'.batch st')
      (hmax : call'.targetMax = call.targetMax)
      (hfirst : pc = .first → call'.batch = [])
      (hopen : st'.closed = false) :
      DrainEnd q result pushed call st (.waiting pc call' st')
  | returned {batch : List T} {st' : OrderedQueueState T}
      (hprog : Progress q result pushed call.batch st batch st')
      (hterm : st'.terminalItem = none) :
      DrainEnd q result pushed call st (.returned batch none st')
  | terminal {batch : List T} {st' : OrderedQueueState T} {item : T}
      (hprog : Progress q result pushed call.batch st batch st')
      (hterm : st'.terminalItem = some item) :
      DrainEnd q result pushed call st
        (.returned batch (some item)
          { st' with terminalItem := none, nextRead := q.totalJobs })

theorem DrainEnd.after {pushed : List Nat} {call : DrainCall T} (call' : DrainCall T)
    {st st' : OrderedQueueState T} {o : DrainOutcome T}
    (h : Progress q result pushed call.batch st call'.batch st')
    (hmax : call'.targetMax = call.targetMax)
    (h' : DrainEnd q result pushed call' st' o) :
    DrainEnd q result pushed call st o := by
  cases h' with
  | waiting hprog hm hfirst hopen =>
      exact .waiting (h.trans hprog) (hm.trans hmax) hfirst hopen
  | returned hprog hterm => exact .returned (h.trans hprog) hterm
  | terminal hprog hterm => exact .terminal (h.trans hprog) hterm

theorem finishDrain_end {pushed : List Nat} {call : DrainCall T}
    {st : OrderedQueueState T} (h : Ring q result pushed st) :
    DrainEnd q result pushed call st (q.finishDrain call st) := by
  rw [finishDrain]
  cases hterm : st.terminalItem with
  | none => exact .returned (.refl h) hterm
  | some item => exact .terminal (.refl h) hterm

theorem gather_end (hcap : 0 < q.capacity) {pushed : List Nat} :
    ∀ (room : Nat) (call : DrainCall T) (st : OrderedQueueState T),
      Ring q result pushed st →
      DrainEnd q result pushed call st (q.gather room call st) := by
  intro room
  induction room with
  | zero => exact fun call st h => finishDrain_end h
  | succ room ih =>
      intro call st h
      rw [gather]
      split
      · next hgo =>
          cases hslot : q.slot st st.nextRead with
          | none => exact .waiting (.refl h) rfl (fun hpc => nomatch hpc) hgo.2
          | some item =>
              have hstep := Progress.take call.batch hcap h hgo.1 hslot
              exact DrainEnd.after { call with batch := call.batch ++ [item] }
                hstep rfl (ih { call with batch := call.batch ++ [item] } _ hstep.ring)
      · exact finishDrain_end h

theorem resumeMore_end (hcap : 0 < q.capacity) {pushed : List Nat}
    {call : DrainCall T} {st : OrderedQueueState T}
    (h : Ring q result pushed st) :
    DrainEnd q result pushed call st (q.resumeMore call st) := by
  rw [resumeMore]
  split
  · next hwait =>
      simp only [mustWait, Bool.and_eq_true, Bool.not_eq_true'] at hwait
      exact .waiting (.refl h) rfl (fun hpc => nomatch hpc) hwait.2
  · split
    · next hlt =>
        cases hslot : q.slot st st.nextRead with
        | none => exact finishDrain_end h
        | some item =>
            have hstep := Progress.take call.batch hcap h hlt hslot
            exact DrainEnd.after { call with batch := call.batch ++ [item] }
              hstep rfl
              (gather_end hcap _ { call with batch := call.batch ++ [item] } _ hstep.ring)
    · exact finishDrain_end h

theorem resumeFirst_end (hcap : 0 < q.capacity) {pushed : List Nat}
    {call : DrainCall T} {st : OrderedQueueState T}
    (h : Ring q result pushed st) (hempty : call.batch = []) :
    DrainEnd q result pushed call st (q.resumeFirst call st) := by
  rw [resumeFirst]
  split
  · next hwait =>
      simp only [mustWait, Bool.and_eq_true, Bool.not_eq_true'] at hwait
      exact .waiting (.refl h) rfl (fun _ => hempty) hwait.2
  · cases hterm : st.terminalItem with
    | some item => exact .terminal (.refl h) hterm
    | none =>
        simp only []
        split
        · refine .returned ?_ hterm
          rw [hempty]
          exact .refl h
        · obtain ⟨hprog, _, hmax⟩ := takeReady_progress hcap
            (call.targetMax - call.batch.length) call st h
          exact .after _ hprog hmax (gather_end hcap _ _ _ hprog.ring)

theorem resume_end (hcap : 0 < q.capacity) {pushed : List Nat} {pc : DrainPc}
    {call : DrainCall T} {st : OrderedQueueState T}
    (h : Ring q result pushed st) (hempty : pc = .first → call.batch = []) :
    DrainEnd q result pushed call st (q.resume pc call st) := by
  cases pc with
  | first => exact resumeFirst_end hcap h (hempty rfl)
  | more => exact resumeMore_end hcap h

/-! ## The invariant

Before a terminal item goes out, the consumer holds exactly the results
below `next_read`, counting the batch of a sleeping call. Afterwards it
holds a prefix of the results and the error, and the queue is finished. -/

namespace QueueSystem

/-- The batch a sleeping `drain_into` has gathered so far. -/
def inHand (s : QueueSystem T) : List T :=
  match s.consumer with
  | some (_, call) => call.batch
  | none => []

structure Open (q : OrderedPrefetchQueue) (result : Nat → T)
    (s : QueueSystem T) : Prop where
  ring : Ring q result s.pushed s.queue
  in_order : s.items ++ s.inHand = (List.range s.queue.nextRead).map result
  no_error : s.errors = []
  terminal : s.queue.terminalItem = s.failure
  failed_closed : s.failure ≠ none → s.queue.closed = true
  first_empty : ∀ call, s.consumer = some (.first, call) → call.batch = []

structure Settled (q : OrderedPrefetchQueue) (result : Nat → T)
    (s : QueueSystem T) : Prop where
  closed : s.queue.closed = true
  finished : s.queue.nextRead = q.totalJobs
  terminal : s.queue.terminalItem = none
  idle : s.consumer = none
  error : ∃ e, s.failure = some e ∧ s.errors = [e]
  in_order : ∃ m ≤ q.totalJobs, s.items = (List.range m).map result

structure Inv (q : OrderedPrefetchQueue) (result : Nat → T)
    (s : QueueSystem T) : Prop where
  answered : ∀ id ∈ s.pushed, id ∈ s.answered.map Prod.fst
  phase : s.Open q result ∨ s.Settled q result

theorem inv_initial (hcap : 0 < q.capacity) : Inv q result (initial T q) where
  answered := by simp [pushed, initial]
  phase := .inl
    { ring := ring_initial hcap
      in_order := by simp [items, inHand, initial, OrderedPrefetchQueue.initial]
      no_error := by simp [errors, initial]
      terminal := rfl
      failed_closed := fun h => absurd rfl h
      first_empty := fun _ h => nomatch h }

theorem pushed_answered (s : QueueSystem T) (st : OrderedQueueState T)
    (id : Nat) (ok : Bool) :
    ({ s with queue := st, answered := s.answered ++ [(id, ok)] } :
      QueueSystem T).pushed = if ok then s.pushed ++ [id] else s.pushed := by
  cases ok <;> simp [pushed]

/-- The two ways `push` can answer. -/
theorem push_cases {id : Nat} {item : T} {ok : Bool}
    {st st' : OrderedQueueState T} (h : q.push id item st = some (ok, st')) :
    (ok = false ∧ st' = st ∧ st.closed = true) ∨
    (ok = true ∧ st.closed = false ∧ id < st.nextRead + q.capacity ∧
      st' = { st with slots := st.slots.set (id % q.capacity) (some item) }) := by
  rw [OrderedPrefetchQueue.push] at h
  split at h
  · cases h
  · next hroom =>
      split at h <;> rename_i hclosed
      · cases h
        exact .inl ⟨rfl, rfl, hclosed⟩
      · cases h
        have hopen : st.closed = false := by simpa using hclosed
        exact .inr ⟨rfl, hopen, by
          by_contra hfar
          exact hroom ⟨by omega, hopen⟩, rfl⟩

theorem Inv.push {s : QueueSystem T} {id : Nat} {ok : Bool}
    {st : OrderedQueueState T} (hcap : 0 < q.capacity) (h : s.Inv q result)
    (hid : id < q.totalJobs) (hnew : id ∉ s.answered.map Prod.fst)
    (hpush : q.push id (result id) s.queue = some (ok, st)) :
    Inv q result
      { s with queue := st, answered := s.answered ++ [(id, ok)] } where
  answered := by
    intro j hj
    rw [pushed_answered] at hj
    simp only [List.map_append, List.map_cons, List.map_nil, List.mem_append,
      List.mem_singleton]
    split at hj
    · rcases List.mem_append.mp hj with hj | hj
      · exact .inl (h.answered j hj)
      · exact .inr (List.mem_singleton.mp hj)
    · exact .inl (h.answered j hj)
  phase := by
    rcases push_cases hpush with ⟨rfl, rfl, _⟩ | ⟨rfl, hopen, hroom, rfl⟩
    · -- Refused: nothing changed.
      rcases h.phase with ho | hs
      · exact .inl
          { ho with
            ring := by rw [pushed_answered]; exact ho.ring }
      · exact .inr { hs with }
    · rcases h.phase with ho | hs
      · have hnot : id ∉ s.pushed := fun hmem => hnew (h.answered id hmem)
        have hring := (ho.ring.push hcap hid hnot hroom).2
        exact .inl
          { ho with
            ring := by rw [pushed_answered]; exact hring }
      · rw [hs.closed] at hopen
        cases hopen

/-- While the queue is open only the results of pushed jobs matter. -/
theorem Open.congr_result {s : QueueSystem T} {result' : Nat → T} (h : s.Open q result)
    (hsame : ∀ id ∈ s.pushed, result' id = result id) : s.Open q result' :=
  { h with
    ring :=
      { h.ring with
        stored := by
          intro id hle hlt
          rw [h.ring.stored id hle hlt]
          split
          next hmem => rw [hsame id hmem]
          next => rfl }
    in_order := by
      rw [h.in_order]
      refine List.map_congr_left fun id hid => (hsame id ?_).symm
      exact h.ring.delivered_pushed id (List.mem_range.mp hid) }

/-- Whatever a job hands in is its result from then on. -/
theorem Inv.push_item {s : QueueSystem T} {id : Nat} {item : T} {ok : Bool}
    {st : OrderedQueueState T} (hcap : 0 < q.capacity) (h : s.Inv q result)
    (hid : id < q.totalJobs) (hnew : id ∉ s.answered.map Prod.fst)
    (hpush : q.push id item s.queue = some (ok, st)) :
    ∃ result', Inv q result'
      { s with queue := st, answered := s.answered ++ [(id, ok)] } := by
  rcases push_cases hpush with ⟨rfl, rfl, hclosed⟩ | ⟨-, hopen, -, -⟩
  · refine ⟨result, h.push hcap hid hnew ?_⟩
    simp [OrderedPrefetchQueue.push, hclosed]
  · have hphase := h.phase.resolve_right fun hs => by
      rw [hs.closed] at hopen
      cases hopen
    have hsame : ∀ j ∈ s.pushed, Function.update result id item j = result j := by
      intro j hj
      have hne : j ≠ id := fun heq => hnew (heq ▸ h.answered j hj)
      exact Function.update_of_ne hne ..
    refine ⟨Function.update result id item, Inv.push hcap
      ⟨h.answered, .inl (hphase.congr_result hsame)⟩ hid hnew ?_⟩
    rwa [Function.update_self]

theorem Inv.close {s : QueueSystem T} (h : s.Inv q result) :
    Inv q result { s with queue := OrderedPrefetchQueue.close s.queue } where
  answered := h.answered
  phase := h.phase.imp
    (fun ho =>
      { ho with
        ring := ho.ring.congr rfl rfl
        failed_closed := fun _ => rfl })
    (fun hs => { hs with closed := rfl })

theorem Inv.fail {s : QueueSystem T} (error : T) (h : s.Inv q result) :
    Inv q result
      { s with
        queue := OrderedPrefetchQueue.fail error s.queue
        failure := if s.queue.closed then s.failure else some error } := by
  cases hclosed : s.queue.closed with
  | true =>
      have hsame : OrderedPrefetchQueue.fail error s.queue = s.queue := by
        simp [OrderedPrefetchQueue.fail, hclosed]
      rw [hsame]
      exact h
  | false =>
      rcases h.phase with ho | hs
      · refine ⟨h.answered, .inl ?_⟩
        simp only [OrderedPrefetchQueue.fail, hclosed]
        exact
          { ho with
            ring := ho.ring.congr rfl rfl
            terminal := rfl
            failed_closed := fun _ => rfl }
      · rw [hs.closed] at hclosed
        cases hclosed

/-! ## The consumer's steps

A drain is one lemma: whichever way its stretch ends, `Progress` says what it
took, and what it took is what the invariant is waiting for. -/

theorem filterMap_item_deliveries (call : DrainCall T) (batch : List T)
    (terminal : Option T) :
    (deliveries call batch terminal).filterMap Delivery.item? = batch := by
  have hitems : ∀ l : List T, (l.map Delivery.item).filterMap Delivery.item? = l := by
    intro l
    induction l with
    | nil => rfl
    | cons x l ih => simp [Delivery.item?, ih]
  rw [deliveries.eq_def]
  split
  · split <;> rfl
  · rw [List.filterMap_append, hitems]
    cases terminal <;> simp [Delivery.item?]

theorem filterMap_error_deliveries (call : DrainCall T) (batch : List T)
    (terminal : Option T) :
    (deliveries call batch terminal).filterMap Delivery.error? =
      terminal.toList := by
  have hitems : ∀ l : List T, (l.map Delivery.item).filterMap Delivery.error? = [] := by
    intro l
    induction l with
    | nil => rfl
    | cons x l ih => simp [Delivery.error?]
  rw [deliveries.eq_def]
  split
  · split <;> rfl
  · rw [List.filterMap_append, hitems]
    cases terminal <;> simp [Delivery.error?]

theorem Open.afterDrain {s : QueueSystem T} {call : DrainCall T}
    {o : DrainOutcome T} (h : s.Open q result) (hcall : call.batch = s.inHand)
    (hend : DrainEnd q result s.pushed call s.queue o) :
    (s.afterDrain call o).Open q result ∨
      (s.afterDrain call o).Settled q result := by
  -- What the call holds at the end continues what has been delivered.
  have hheld : ∀ {batch : List T} {st' : OrderedQueueState T},
      Progress q result s.pushed call.batch s.queue batch st' →
      s.items ++ batch = (List.range st'.nextRead).map result := by
    intro batch st' hprog
    rw [hprog.batch_eq, hcall, ← List.append_assoc, h.in_order,
      ← List.map_append, List.range_eq_range', List.range_eq_range']
    have hle := hprog.le
    congr 1
    obtain ⟨taken, htaken⟩ := Nat.exists_eq_add_of_le hle
    rw [htaken, Nat.add_sub_cancel_left]
    have := List.range'_append_1 (s := 0) (m := s.queue.nextRead) (n := taken)
    rwa [Nat.zero_add] at this
  cases hend with
  | @waiting pc call' st' hprog hmax hfirst hopen =>
      refine .inl
        { ring := hprog.ring
          in_order := hheld hprog
          no_error := h.no_error
          terminal := hprog.terminal_eq.trans h.terminal
          failed_closed := fun hf => ?_
          first_empty := ?_ }
      · rw [hprog.closed_eq] at hopen
        rw [h.failed_closed hf] at hopen
        cases hopen
      · intro c hc
        obtain ⟨rfl, rfl⟩ := Prod.mk.inj (Option.some.inj hc)
        exact hfirst rfl
  | @returned batch st' hprog hterm =>
      refine .inl
        { ring := hprog.ring
          in_order := ?_
          no_error := ?_
          terminal := hprog.terminal_eq.trans h.terminal
          failed_closed := fun hf => hprog.closed_eq.trans (h.failed_closed hf)
          first_empty := fun _ hc => nomatch hc }
      · simp only [items, QueueSystem.afterDrain, inHand, List.append_nil,
          List.filterMap_append, filterMap_item_deliveries]
        exact hheld hprog
      · simp only [errors, QueueSystem.afterDrain, List.filterMap_append,
          filterMap_error_deliveries, Option.toList_none, List.append_nil]
        exact h.no_error
  | @terminal batch st' item hprog hterm =>
      have hfail : s.failure = some item := by
        rw [← h.terminal, ← hprog.terminal_eq, hterm]
      refine .inr
        { closed := hprog.closed_eq.trans (h.failed_closed (by rw [hfail]; simp))
          finished := rfl
          terminal := rfl
          idle := rfl
          error := ⟨item, hfail, ?_⟩
          in_order := ⟨st'.nextRead, hprog.ring.bound, ?_⟩ }
      · have := h.no_error
        simp only [errors] at this
        simp only [errors, QueueSystem.afterDrain, List.filterMap_append,
          filterMap_error_deliveries, this, Option.toList_some, List.nil_append]
      · simp only [items, QueueSystem.afterDrain, List.filterMap_append,
          filterMap_item_deliveries]
        exact hheld hprog

/-- While the queue is open, a consumer step is a stretch of its call, which
holds what the sleeping call held. -/
theorem Open.consume {s s' : QueueSystem T} {call : DrainCall T}
    (hcap : 0 < q.capacity) (h : s.Open q result)
    (hstep : ConsumerStep q call s s') :
    ∃ pc o, s' = s.afterDrain call o ∧ q.resume pc call s.queue = o ∧
      call.batch = s.inHand ∧ (pc = .first → call.batch = []) ∧
      DrainEnd q result s.pushed call s.queue o := by
  cases hstep with
  | drain minBatch maxBatch hidle =>
      exact ⟨.first, _, rfl, rfl, by rw [inHand, hidle]; rfl, fun _ => rfl,
        resumeFirst_end hcap h.ring rfl⟩
  | @wake _ pc _ hasleep =>
      have hfirst : pc = .first → call.batch = [] := by
        rintro rfl
        exact h.first_empty _ hasleep
      exact ⟨pc, _, rfl, rfl, by rw [inHand, hasleep], hfirst,
        resume_end hcap h.ring hfirst⟩

/-- After the terminal error a drain finds nothing and says so. -/
theorem Settled.consume {s s' : QueueSystem T} {call : DrainCall T}
    (h : s.Settled q result) (hstep : ConsumerStep q call s s') :
    s' = s.afterDrain call (.returned [] none s.queue) := by
  cases hstep with
  | drain minBatch maxBatch _ =>
      simp [resumeFirst, mustWait, h.finished, h.terminal]
  | wake hasleep => rw [h.idle] at hasleep; cases hasleep

theorem Settled.afterDrain {s : QueueSystem T} (call : DrainCall T)
    (h : s.Settled q result) :
    (s.afterDrain call (.returned [] none s.queue)).Settled q result where
  closed := h.closed
  finished := h.finished
  terminal := h.terminal
  idle := rfl
  error := by
    obtain ⟨e, hfail, herr⟩ := h.error
    refine ⟨e, hfail, ?_⟩
    rw [← herr, errors, QueueSystem.afterDrain, List.filterMap_append,
      filterMap_error_deliveries]
    simp [errors]
  in_order := by
    obtain ⟨m, hm, hitems⟩ := h.in_order
    refine ⟨m, hm, ?_⟩
    rw [← hitems, items, QueueSystem.afterDrain, List.filterMap_append,
      filterMap_item_deliveries]
    simp [items]

theorem Inv.consume {s s' : QueueSystem T} {call : DrainCall T}
    (hcap : 0 < q.capacity) (h : s.Inv q result)
    (hstep : ConsumerStep q call s s') : s'.Inv q result := by
  have hanswered : s'.answered = s.answered := by
    cases hstep with
    | drain _ _ _ => rw [QueueSystem.afterDrain.eq_def]; split <;> rfl
    | wake _ => rw [QueueSystem.afterDrain.eq_def]; split <;> rfl
  refine ⟨by rw [pushed, hanswered]; exact h.answered, ?_⟩
  rcases h.phase with ho | hs
  · obtain ⟨_, o, rfl, -, hcall, -, hend⟩ := ho.consume hcap hstep
    exact ho.afterDrain hcall hend
  · rw [hs.consume hstep]
    exact .inr (hs.afterDrain call)

theorem Inv.step {s s' : QueueSystem T} (hcap : 0 < q.capacity)
    (h : s.Inv q result) (hstep : Step q result s s') : s'.Inv q result := by
  cases hstep with
  | push hid hnew hpush => exact h.push hcap hid hnew hpush
  | close => exact h.close
  | fail error => exact h.fail error
  | consume hstep => exact h.consume hcap hstep

theorem Reachable.inv {s : QueueSystem T} (hcap : 0 < q.capacity)
    (h : Reachable q result s) : s.Inv q result := by
  induction h with
  | refl => exact inv_initial hcap
  | tail _ hstep ih => exact ih.step hcap hstep

/-! ## What the consumer can rely on -/

/-- A closed queue lets nobody sleep. -/
theorem Inv.awake {s s' : QueueSystem T} {call : DrainCall T}
    (hcap : 0 < q.capacity) (h : s.Inv q result)
    (hclosed : s.queue.closed = true) (hstep : ConsumerStep q call s s') :
    s'.consumer = none := by
  rcases h.phase with ho | hs
  · obtain ⟨_, o, rfl, -, -, -, hend⟩ := ho.consume hcap hstep
    cases hend with
    | waiting hprog _ _ hopen =>
        rw [hprog.closed_eq, hclosed] at hopen
        cases hopen
    | returned _ _ => rfl
    | terminal _ _ => rfl
  · rw [hs.consume hstep]
    rfl

/-- A failure not yet delivered goes out with the next consumer step. -/
theorem Inv.deliver_error {s s' : QueueSystem T} {call : DrainCall T} {e : T}
    (hcap : 0 < q.capacity) (h : s.Inv q result) (hfail : s.failure = some e)
    (hnone : s.errors = []) (hstep : ConsumerStep q call s s') :
    ∃ batch : List T,
      s'.delivered = s.delivered ++ batch.map .item ++ [.error e] := by
  rcases h.phase with ho | hs
  · obtain ⟨_, o, rfl, -, -, -, hend⟩ := ho.consume hcap hstep
    have hclosed := ho.failed_closed (by rw [hfail]; simp)
    have hterm := ho.terminal.trans hfail
    cases hend with
    | waiting hprog _ _ hopen =>
        rw [hprog.closed_eq, hclosed] at hopen
        cases hopen
    | returned hprog hno =>
        rw [hprog.terminal_eq, hterm] at hno
        cases hno
    | @terminal batch _ item hprog hsome =>
        rw [hprog.terminal_eq, hterm] at hsome
        cases hsome
        refine ⟨batch, ?_⟩
        rw [QueueSystem.afterDrain, List.append_assoc]
        cases batch <;> rfl
  · obtain ⟨e', _, herr⟩ := hs.error
    rw [hnone] at herr
    cases herr

/-- Two stretches that start at a full slot return with something in hand. -/
theorem resume_takes (hcap : 0 < q.capacity) {pushed : List Nat} {pc : DrainPc}
    {call : DrainCall T} {st st' : OrderedQueueState T} {batch : List T}
    {item : T} {terminal : Option T} (h : Ring q result pushed st)
    (hroom : pc = .first → call.batch.length < call.targetMax)
    (hterm : st.terminalItem = none) (hlt : st.nextRead < q.totalJobs)
    (hslot : q.slot st st.nextRead = some item)
    (hret : q.resume pc call st = .returned batch terminal st') : batch ≠ [] := by
  have hstep := Progress.take call.batch hcap h hlt hslot
  -- From the moment the item is in hand, nothing leaves the batch.
  have hkeep : ∀ (call' : DrainCall T) (st₁ : OrderedQueueState T),
      call'.batch ≠ [] → ∀ o, o = .returned batch terminal st' →
      DrainEnd q result pushed call' st₁ o → batch ≠ [] := by
    intro call' st₁ hne o ho hend hnil
    rw [ho] at hend
    cases hend with
    | returned hprog _ =>
        rw [hnil] at hprog
        exact hne (List.append_eq_nil_iff.mp hprog.batch_eq.symm).1
    | terminal hprog _ =>
        rw [hnil] at hprog
        exact hne (List.append_eq_nil_iff.mp hprog.batch_eq.symm).1
  have hwait : q.mustWait st = false := by simp [mustWait, hslot]
  cases pc with
  | first =>
      obtain ⟨room, hroom⟩ : ∃ room, call.targetMax - call.batch.length = room + 1 :=
        ⟨call.targetMax - call.batch.length - 1, by have := hroom rfl; omega⟩
      have hstart : ¬(q.totalJobs ≤ st.nextRead ∨
          st.closed = true ∧ (q.slot st st.nextRead).isNone) := by
        rw [hslot]
        simpa using hlt
      rw [resume, resumeFirst, hwait, hterm, if_neg hstart, hroom, takeReady,
        if_pos hlt, hslot] at hret
      obtain ⟨hprog, -, -⟩ := takeReady_progress hcap room
        { call with batch := call.batch ++ [item] } (q.takeSlot st) hstep.ring
      refine hkeep _ _ ?_ _ hret (gather_end hcap _ _ _ hprog.ring)
      rw [hprog.batch_eq]
      simp
  | more =>
      rw [resume, resumeMore, hwait, if_pos hlt, hslot] at hret
      exact hkeep { call with batch := call.batch ++ [item] } _ (by simp) _ hret
        (gather_end hcap _ _ _ hstep.ring)

/-- Closed with every result in the ring: each call that asks for an item gets
one, until all have left; only then does the stream end. -/
theorem Inv.deliver_rest {s s' : QueueSystem T} {call : DrainCall T}
    (hcap : 0 < q.capacity) (h : s.Inv q result)
    (hclosed : s.queue.closed = true) (hfail : s.failure = none)
    (hall : ∀ id < q.totalJobs, id ∈ s.pushed) (hroom : 0 < call.targetMax)
    (hstep : ConsumerStep q call s s') :
    (∃ batch : List T, batch ≠ [] ∧
      s'.delivered = s.delivered ++ batch.map .item) ∨
    (s.items = (List.range q.totalJobs).map result ∧
      s'.delivered = s.delivered ++ [.endOfStream]) := by
  have ho : s.Open q result := h.phase.resolve_right fun hs => by
    obtain ⟨e, he, -⟩ := hs.error
    rw [hfail] at he
    cases he
  obtain ⟨pc, o, rfl, hret, hcall, hfirst, hend⟩ := ho.consume hcap hstep
  have hterm := ho.terminal.trans hfail
  cases hend with
  | waiting hprog _ _ hopen =>
      rw [hprog.closed_eq, hclosed] at hopen
      cases hopen
  | terminal hprog hsome =>
      rw [hprog.terminal_eq, hterm] at hsome
      cases hsome
  | @returned batch st' hprog hno =>
      cases batch with
      | cons item rest => exact .inl ⟨item :: rest, by simp, by
          simp [QueueSystem.afterDrain, deliveries]⟩
      | nil =>
          have hempty : call.batch = [] :=
            (List.append_eq_nil_iff.mp hprog.batch_eq.symm).1
          have hdone : q.totalJobs ≤ s.queue.nextRead := by
            by_contra hlt
            have hlt : s.queue.nextRead < q.totalJobs := by omega
            have hslot := ho.ring.stored s.queue.nextRead (Nat.le_refl _) (by omega)
            rw [if_pos (hall _ hlt)] at hslot
            refine resume_takes hcap ho.ring (fun _ => ?_) hterm hlt hslot hret rfl
            rw [hempty]
            exact hroom
          refine .inr ⟨?_, ?_⟩
          · have hitems := ho.in_order
            have heq : s.queue.nextRead = q.totalJobs :=
              Nat.le_antisymm ho.ring.bound hdone
            rwa [← hcall, hempty, List.append_nil, heq] at hitems
          · simp [QueueSystem.afterDrain, deliveries, hroom]

theorem Inv.items_prefix {s : QueueSystem T} (h : s.Inv q result) :
    ∃ m ≤ q.totalJobs, s.items = (List.range m).map result := by
  rcases h.phase with ho | hs
  · refine ⟨s.items.length, ?_, ?_⟩
    · have := congrArg List.length ho.in_order
      have hbound := ho.ring.bound
      simp at this
      omega
    · have hpre : s.items <+: (List.range s.queue.nextRead).map result :=
        ⟨s.inHand, ho.in_order⟩
      have htake := List.prefix_iff_eq_take.mp hpre
      have hlen := hpre.length_le
      simp only [List.length_map, List.length_range] at hlen
      rw [← List.map_take, List.take_range, Nat.min_eq_left hlen] at htake
      exact htake
  · exact hs.in_order

/-- An accepted result never lands on another one. -/
theorem Inv.push_empty {s : QueueSystem T} {id : Nat} {st : OrderedQueueState T}
    (hcap : 0 < q.capacity) (h : s.Inv q result) (hid : id < q.totalJobs)
    (hnew : id ∉ s.answered.map Prod.fst)
    (hpush : q.push id (result id) s.queue = some (true, st)) :
    q.slot s.queue id = none := by
  rcases push_cases hpush with ⟨hfalse, -⟩ | ⟨-, hopen, hroom, -⟩
  · cases hfalse
  · rcases h.phase with ho | hs
    · exact (ho.ring.push hcap hid (fun hmem => hnew (h.answered id hmem)) hroom).1
    · rw [hs.closed] at hopen
      cases hopen

theorem Inv.errors_once {s : QueueSystem T} (h : s.Inv q result) :
    s.errors = [] ∨ ∃ e, s.failure = some e ∧ s.errors = [e] :=
  h.phase.imp (·.no_error) (·.error)

theorem new_capacity_pos (capacity totalJobs : Nat) :
    0 < (OrderedPrefetchQueue.new capacity totalJobs).capacity :=
  Nat.lt_of_lt_of_le (by decide) (Nat.le_max_right capacity 16)

/-- In order, exactly once, under any interleaving: what holds in every state
the queue, its workers and its consumer can reach. A failure counts from the
moment a worker reports it to a queue that is still open. -/
theorem delivers_in_order_exactly_once (capacity totalJobs : Nat)
    (result : Nat → T) (s : QueueSystem T)
    (hreach : Reachable (OrderedPrefetchQueue.new capacity totalJobs) result s) :
    let q := OrderedPrefetchQueue.new capacity totalJobs
    (∃ m ≤ totalJobs, s.items = (List.range m).map result) ∧
    (∀ id < totalJobs, id ∉ s.answered.map Prod.fst → ∀ st,
      q.push id (result id) s.queue = some (true, st) →
      q.slot s.queue id = none) ∧
    (s.errors = [] ∨ ∃ e, s.failure = some e ∧ s.errors = [e]) ∧
    (∀ call s', ConsumerStep q call s s' → s.queue.closed = true →
      s'.consumer = none) ∧
    (∀ e, s.failure = some e → s.errors = [] →
      ∀ call s', ConsumerStep q call s s' → ∃ batch : List T,
        s'.delivered = s.delivered ++ batch.map .item ++ [.error e]) ∧
    (s.queue.closed = true → s.failure = none →
      (∀ id < totalJobs, id ∈ s.pushed) →
      ∀ call s', ConsumerStep q call s s' → 0 < call.targetMax →
        (∃ batch : List T, batch ≠ [] ∧
          s'.delivered = s.delivered ++ batch.map .item) ∨
        (s.items = (List.range totalJobs).map result ∧
          s'.delivered = s.delivered ++ [.endOfStream])) := by
  intro q
  have hcap : 0 < q.capacity := new_capacity_pos capacity totalJobs
  have hinv : s.Inv q result := Reachable.inv hcap hreach
  refine ⟨hinv.items_prefix, ?_, hinv.errors_once, ?_, ?_, ?_⟩
  · exact fun id hid hnew st hpush => hinv.push_empty hcap hid hnew hpush
  · exact fun call s' hstep hclosed => hinv.awake hcap hclosed hstep
  · exact fun e hfail hnone call s' hstep =>
      hinv.deliver_error hcap hfail hnone hstep
  · exact fun hclosed hfail hall call s' hstep hroom =>
      hinv.deliver_rest hcap hclosed hfail hall hroom hstep

/-- Job 0 of two is in the ring when a worker fails: the next drain ends with
the error, not with the end of the stream. -/
theorem delivers_error_behind_item :
    let q := OrderedPrefetchQueue.new 4 2
    let s₀ := initial Nat q
    let s₁ : QueueSystem Nat :=
      { s₀ with
        queue := { s₀.queue with slots := s₀.queue.slots.set 0 (some 10) }
        answered := [(0, true)] }
    let s₂ : QueueSystem Nat :=
      { s₁ with
        queue := { s₁.queue with terminalItem := some 99, closed := true }
        failure := some 99 }
    Reachable q (· + 10) s₂ ∧ s₂.errors = [] ∧
    ∃ batch : List Nat,
      (s₂.afterDrain (DrainCall.start Nat 2 8)
        (q.resumeFirst (DrainCall.start Nat 2 8) s₂.queue)).delivered =
      s₂.delivered ++ batch.map .item ++ [.error 99] := by
  intro q s₀ s₁ s₂
  have hpush : Step q (· + 10) s₀ s₁ :=
    .push (q := q) (s := s₀) (by decide) (by decide) rfl
  have hreach : Reachable q (· + 10) s₂ := (Relation.ReflTransGen.single hpush).tail (.fail 99)
  exact ⟨hreach, rfl, (delivers_in_order_exactly_once 4 2 (· + 10) s₂ hreach).2.2.2.2.1
    99 rfl rfl _ _ (.drain 2 8 rfl)⟩

/-- Once closed without a failure, the queue never has one. -/
theorem Inv.closed_step {s s' : QueueSystem T} (hcap : 0 < q.capacity)
    (h : s.Inv q result) (hclosed : s.queue.closed = true)
    (hstep : Step q result s s') :
    s'.queue.closed = true ∧ s'.failure = s.failure := by
  cases hstep with
  | push _ _ hpush =>
      rcases push_cases hpush with ⟨-, rfl, -⟩ | ⟨-, hopen, -⟩
      · exact ⟨hclosed, rfl⟩
      · rw [hclosed] at hopen
        cases hopen
  | close => exact ⟨rfl, rfl⟩
  | fail error => simp [OrderedPrefetchQueue.fail, hclosed]
  | @consume _ call hstep =>
      rcases h.phase with ho | hs
      · obtain ⟨_, o, rfl, -, -, -, hend⟩ := ho.consume hcap hstep
        cases hend with
        | waiting hprog _ _ _ => exact ⟨hprog.closed_eq.trans hclosed, rfl⟩
        | returned hprog _ => exact ⟨hprog.closed_eq.trans hclosed, rfl⟩
        | terminal hprog _ => exact ⟨hprog.closed_eq.trans hclosed, rfl⟩
      · rw [hs.consume hstep]
        exact ⟨hclosed, rfl⟩

/-- `fail` on a queue that is already closed drops its error: the consumer is
told that the stream has ended, and no later step delivers the error. -/
theorem fail_after_close_ends_stream :
    let q := OrderedPrefetchQueue.new 16 1
    ∃ s₁ s₂ : QueueSystem Nat, Reachable q id s₁ ∧
      Step q id s₁
        { s₁ with
          queue := OrderedPrefetchQueue.fail 7 s₁.queue
          failure := if s₁.queue.closed then s₁.failure else some 7 } ∧
      ConsumerStep q (DrainCall.start Nat 1 1)
        { s₁ with
          queue := OrderedPrefetchQueue.fail 7 s₁.queue
          failure := if s₁.queue.closed then s₁.failure else some 7 } s₂ ∧
      s₂.delivered = [.endOfStream] ∧
      ∀ s, Relation.ReflTransGen (Step q id) s₂ s → s.errors = [] := by
  intro q
  have hcap : 0 < q.capacity := new_capacity_pos 16 1
  have hclose : Reachable q id
      { initial Nat q with queue := OrderedPrefetchQueue.close (q.initial Nat) } :=
    .single .close
  have hfail := hclose.tail (.fail 7)
  refine ⟨_, _, hclose, .fail 7, .drain 1 1 rfl, rfl, fun s hrun => ?_⟩
  have hstay : s.Inv q id ∧ s.queue.closed = true ∧ s.failure = none := by
    induction hrun with
    | refl =>
        exact ⟨Reachable.inv hcap (hfail.tail (.consume (.drain 1 1 rfl))), rfl, rfl⟩
    | tail _ hstep ih =>
        obtain ⟨hinv, hclosed, hfail⟩ := ih
        obtain ⟨hclosed', hfail'⟩ := hinv.closed_step hcap hclosed hstep
        exact ⟨hinv.step hcap hstep, hclosed', hfail'.trans hfail⟩
  refine hstay.1.errors_once.resolve_right fun ⟨e, hfail, _⟩ => ?_
  rw [hstay.2.2] at hfail
  cases hfail

end QueueSystem

end RasterH3.Raster
