/-
**The buffered channel refines the bounded first-in-first-out queue with close.**

The occupied slots of the cyclic buffer, in cyclic order, are the contents of the abstract queue of
`CppMultithreaded/BoundedFifo.lean`, and every locked update is a step of that queue.  What the
abstract queue guarantees about the past and the future of an event therefore holds of every
interleaving of the channel.

Main definitions:

* `BufferedChannel.Refines` — the refinement invariant;
* `BufferedChannel.FifoChannel` — what the channel guarantees.

Main results:

* `BufferedChannel.Refines.step` — every step of the channel is a step of the queue, or none;
* `BufferedChannel.channel_refines_fifo` — **the channel refines the queue**, with the consequences
  for the values sent and received and for the close.
-/

import CppMultithreaded.Channel

set_option relaxedAutoImplicit false
set_option autoImplicit false

namespace BufferedChannel

open BoundedFifo

variable {α : Type*} [Inhabited α] {ι : Type*} [DecidableEq ι]

/-! ### The refinement -/

/-- The refinement invariant, for a channel of the given capacity. -/
structure Refines (capacity : ℕ) (s : State α ι) : Prop where
  wellFormed : WellFormed s.channel
  capacity_eq : s.channel.capacity = capacity
  /-- The history is a trace of the queue, which ends in the queue the channel stands for. -/
  trace : Trace capacity s.log s.channel.queue

variable {capacity : ℕ} {s s' : State α ι}

omit [DecidableEq ι] in
/-- A step that concerns neither the members nor the history. -/
theorem Refines.frame (h : Refines capacity s) (hc : s'.channel = s.channel)
    (hl : s'.log = s.log) : Refines capacity s' := by
  constructor
  · rw [hc]
    exact h.wellFormed
  · rw [hc]
    exact h.capacity_eq
  · rw [hc, hl]
    exact h.trace

omit [DecidableEq ι] in
/-- A step that records an event and leaves the members alone. -/
theorem Refines.observe {e : Event α} (h : Refines capacity s)
    (hs : Step capacity s.channel.queue e s.channel.queue) (hc : s'.channel = s.channel)
    (hl : s'.log = s.log ++ [e]) : Refines capacity s' := by
  constructor
  · rw [hc]
    exact h.wellFormed
  · rw [hc]
    exact h.capacity_eq
  · rw [hc, hl]
    exact Trace.snoc h.trace hs

/-- Every step of the channel keeps the refinement invariant. -/
theorem Refines.step (h : Refines capacity s) (hl : Locked s) (hs : Effect s s') :
    Refines capacity s' := by
  have hwf := h.wellFormed
  have hcap := h.capacity_eq
  cases hs with
  | call t op ht => exact h.frame rfl rfl
  | callClose t ht => exact h.frame rfl rfl
  | lock t p hm hp => exact h.frame rfl rfl
  | proceed t op w ht hr => exact h.frame rfl rfl
  | sleep t op w ht hr => exact h.frame rfl rfl
  | sendRejected t v w ht hc =>
      refine h.observe ?_ rfl rfl
      rw [Channel.queue, hc]
      exact Step.rejected
  | sendStored t v w ht hc =>
      -- the predicate of the wait is still true, and the channel is open: there is a free slot
      have hready := hl.ready t (.send v) w ht
      have hlt : s.channel.size < s.channel.capacity := by
        simpa [Channel.ready, Op.waitsOn, hc] using hready
      constructor
      · exact hwf.send v hlt
      · exact hcap
      · refine Trace.snoc h.trace ?_
        rw [Channel.queue, Channel.queue, hc, Channel.slots_send hwf v hlt,
          show (s.channel.send v).closed = false from hc]
        refine Step.sent v ?_
        rw [Channel.slots, CyclicBuffer.length_slots, ← hcap]
        exact hlt
  | recvExhausted t w ht hz =>
      -- the predicate of the wait is still true, and there is no value: the channel is closed
      have hready := hl.ready t .recv w ht
      have hclosed : s.channel.closed = true := by
        simpa [Channel.ready, Op.waitsOn, hz] using hready
      refine h.observe ?_ rfl rfl
      rw [Channel.queue, hclosed, Channel.slots, hz, CyclicBuffer.slots_zero]
      exact Step.exhausted
  | recvTaken t w m ht hz =>
      constructor
      · exact hwf.recv m hz
      · exact hcap
      · refine Trace.snoc h.trace ?_
        rw [Channel.queue, Channel.slots_recv hwf m hz]
        exact Step.received
  | closeAgain t ht hc => exact h.frame rfl (List.append_nil _)
  | closeFirst t ht hc =>
      constructor
      · exact ⟨hwf.pos, hwf.length, hwf.head_lt, hwf.size_le, hwf.tail_eq⟩
      · exact hcap
      · exact Trace.snoc h.trace Step.closed
  | unlock t p hp => exact h.frame rfl rfl
  | wakeOne t u c ht hu => exact h.frame rfl rfl
  | wakeNone t c ht hnone => exact h.frame rfl rfl
  | wakeAll t c ht =>
      cases c with
      | notEmpty => exact h.frame rfl rfl
      | notFull => exact h.frame rfl rfl
  | spuriousWakeup t op ht => exact h.frame rfl rfl

variable [Fintype ι]

theorem refines_of_reachable {size : ℤ} (h : (system α ι size).Reachable s) :
    Refines (if size > 0 then size.toNat else 1) s := by
  refine h.invariant ?_ ?_
  · intro s hs
    rw [show s = initial size from hs]
    exact ⟨wellFormed_construct size, rfl, Trace.nil⟩
  · intro s a s' hr hI hs
    exact hI.step (locked_of_reachable hr) (effect_of_step hs)

/-! ### The consequences -/

omit [Inhabited α] in
/-- A value was never sent or received after the end had been reported. -/
theorem sentOf_eq_receivedOf_of_exhausted {l : List (Event α)} {q : Queue α}
    (h : Trace capacity l q) (he : Event.exhausted ∈ l) : sentOf l = receivedOf l := by
  obtain ⟨l₁, l₂, rfl⟩ := List.append_of_mem he
  obtain ⟨-, heq, hrest⟩ := h.of_exhausted
  have hsent : sentOf (.exhausted :: l₂) = [] := by
    refine List.filterMap_eq_nil_iff.2 ?_
    intro e he'
    rcases List.mem_cons.1 he' with rfl | he'
    · rfl
    · rcases hrest e he' with rfl | rfl | rfl <;> rfl
  have hrecv : receivedOf (.exhausted :: l₂) = [] := by
    refine List.filterMap_eq_nil_iff.2 ?_
    intro e he'
    rcases List.mem_cons.1 he' with rfl | he'
    · rfl
    · rcases hrest e he' with rfl | rfl | rfl <;> rfl
  rw [sentOf_append, receivedOf_append, hsent, hrecv, heq]

/-- What the channel, constructed with the argument `size`, guarantees in a state. -/
structure FifoChannel (size : ℤ) (s : State α ι) : Prop where
  capacity_eq : s.channel.capacity = if size > 0 then size.toNat else 1
  size_le : s.channel.size ≤ s.channel.capacity
  tail_eq : s.channel.tail = (s.channel.head + s.channel.size) % s.channel.capacity
  /-- The occupied slots are the values sent and not yet received, in send order. -/
  slots_eq : sentOf s.log = receivedOf s.log ++ s.channel.slots
  /-- Nothing is lost, duplicated or reordered. -/
  received_prefix : receivedOf s.log <+: sentOf s.log
  /-- The history is a trace of the queue. -/
  trace : Trace s.channel.capacity s.log ⟨s.channel.slots, s.channel.closed⟩
  /-- A `Send` succeeds only while the channel is open. -/
  open_of_sent : ∀ l v l', s.log = l ++ .sent v :: l' → .closed ∉ l
  /-- A `Send` throws only after the close. -/
  closed_of_rejected : ∀ l l', s.log = l ++ .rejected :: l' → .closed ∈ l
  /-- When a `Recv` returns `nullopt` the channel is closed and everything sent has been received;
  afterwards no `Send` succeeds and every `Recv` returns `nullopt`. -/
  of_exhausted : ∀ l l', s.log = l ++ .exhausted :: l' →
    .closed ∈ l ∧ sentOf l = receivedOf l ∧
      ∀ e ∈ l', e = .rejected ∨ e = .exhausted ∨ e = .closed
  /-- Once a `Recv` has returned `nullopt`, every value ever sent has been received. -/
  all_received : .exhausted ∈ s.log → sentOf s.log = receivedOf s.log

omit [DecidableEq ι] [Fintype ι] in
/-- What the abstract queue guarantees, the channel guarantees. -/
theorem Refines.fifoChannel {size : ℤ} {s : State α ι}
    (hR : Refines (if size > 0 then size.toNat else 1) s) : FifoChannel size s := by
  have htrace := hR.trace
  constructor
  · exact hR.capacity_eq
  · exact hR.wellFormed.size_le
  · exact hR.wellFormed.tail_eq
  · exact htrace.conservation
  · rw [htrace.conservation]
    exact List.prefix_append _ _
  · rw [hR.capacity_eq]
    exact htrace
  · intro l v l' hl
    rw [hl] at htrace
    exact htrace.open_of_sent
  · intro l l' hl
    rw [hl] at htrace
    exact htrace.closed_of_rejected
  · intro l l' hl
    rw [hl] at htrace
    exact htrace.of_exhausted
  · exact sentOf_eq_receivedOf_of_exhausted htrace

/-- **The channel refines the bounded first-in-first-out queue with close**, for every constructor
argument, every set of threads and every interleaving. -/
theorem channel_refines_fifo {size : ℤ} {s : State α ι} (h : (system α ι size).Reachable s) :
    FifoChannel size s := (refines_of_reachable h).fifoChannel

/-- A channel of capacity two: two values are sent, one is received, and the channel is closed. -/
theorem channel_refines_fifo_two_slots :
    ∃ s : State ℕ (Fin 2), (system ℕ (Fin 2) 2).Reachable s ∧ s.channel.slots = [8] ∧
      s.channel.closed = true ∧ FifoChannel 2 s := by
  obtain ⟨s, hs⟩ : ∃ s, (system ℕ (Fin 2) 2).run (initial 2)
      [.call 0 (.send 7), .lock 0, .check 0, .update 0 0, .unlock 0, .notifyOne 0 none,
        .call 0 (.send 8), .lock 0, .check 0, .update 0 0, .unlock 0, .call 1 .recv, .lock 1,
        .check 1, .update 1 0, .unlock 1, .notifyOne 1 none, .callClose 1, .lock 1, .update 1 0] =
          some s := ⟨_, rfl⟩
  have hr : (system ℕ (Fin 2) 2).Reachable s := Automaton.Reachable.of_run rfl hs
  have hslots : s.channel.slots = [8] ∧ s.channel.closed = true := by
    obtain rfl := Option.some_inj.1 hs
    exact ⟨rfl, rfl⟩
  exact ⟨s, hr, hslots.1, hslots.2, channel_refines_fifo hr⟩

end BufferedChannel
