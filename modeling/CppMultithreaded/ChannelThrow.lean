/-
**A `Send` whose copy assignment throws.**

The copy assignment into `buffer[tail]` may exit `Send` by an exception.  The destructor of the lock then
releases the mutex; neither `tail` nor `size` has changed, and the slot is not one of the occupied ones,
whatever the assignment has left in it.  So the queue is as if that `Send` had not been called.

The wake-ups are another matter.  A `Send` that had been woken by the single notification for a free slot
takes that notification with it, and another sender may sleep on although the slot is free.  As long as
only calls fail that have not been woken, no wake-up is lost.

Main definitions:

* `BufferedChannel.assignThrows` — the step that fails;
* `BufferedChannel.ThrowState`, `BufferedChannel.throwSystem` — the channel with such steps, and the
  number of woken calls that have failed;
* `BufferedChannel.Unsent` — a state in which a call has failed, next to the one before.

Main results:

* `BufferedChannel.unsent_of_assignThrows` — the failed call leaves the queue alone;
* `BufferedChannel.Covered.assignThrows` — a call that has not been woken may fail;
* `BufferedChannel.failed_send_unsent` — **a failed `Send` leaves the queue alone, and loses no wake-up
  unless it had been woken**;
* `BufferedChannel.failed_send_takes_wakeup` — a run where it had been woken.
-/

import CppMultithreaded.ChannelFifo
import CppMultithreaded.ChannelWakeup

set_option relaxedAutoImplicit false
set_option autoImplicit false

namespace BufferedChannel

open BoundedFifo

variable {α : Type*} {ι : Type*} [DecidableEq ι]

/-! ### The step that fails -/

/-- The copy assignment of `Send` throws, and leaves `slot` in the slot it was to assign to: the lock is
released, and the call has ended. -/
def assignThrows (s : State α ι) (t : ι) (slot : α) : State α ι :=
  { s.leave t [] with
    channel := { s.channel with buffer := s.channel.buffer.set s.channel.tail slot } }

/-- The state, and the number of calls of `Send` that had been woken and have failed. -/
structure ThrowState (α ι : Type*) where
  state : State α ι
  failedWoken : ℕ

/-- The steps of the channel, and the step of a copy assignment that throws. -/
inductive ThrowAction (α ι : Type*)
  | step (a : Action α ι)
  | assignThrows (t : ι) (slot : α)

variable [Inhabited α] [Fintype ι]

/-- The step function.  The copy assignment is reached on an open channel only. -/
def throwStep (s : ThrowState α ι) : ThrowAction α ι → Option (ThrowState α ι)
  | .step a => (BufferedChannel.step s.state a).map fun s' => { s with state := s' }
  | .assignThrows t slot =>
      match s.state.pc t with
      | .updating (.send _) woken =>
          if s.state.channel.closed then none
          else some ⟨assignThrows s.state t slot, s.failedWoken + if woken then 1 else 0⟩
      | _ => none

/-- The automaton of a channel constructed with the argument `size`, whose copy assignments may throw. -/
def throwSystem (α ι : Type*) [Inhabited α] [DecidableEq ι] [Fintype ι] (size : ℤ) :
    Automaton (ThrowState α ι) (ThrowAction α ι) where
  init s := s = ⟨initial size, 0⟩
  step := throwStep

/-- The effects of a step. -/
inductive ThrowEffect (s : ThrowState α ι) : ThrowState α ι → Prop
  | step (s' : State α ι) : Effect s.state s' → ThrowEffect s { s with state := s' }
  | assignThrows (t : ι) (v slot : α) (w : Bool) : s.state.pc t = .updating (.send v) w →
      s.state.channel.closed = false →
      ThrowEffect s ⟨BufferedChannel.assignThrows s.state t slot, s.failedWoken + if w then 1 else 0⟩

theorem throwEffect_of_step {s s' : ThrowState α ι} {a : ThrowAction α ι}
    (h : throwStep s a = some s') : ThrowEffect s s' := by
  cases a with
  | step a =>
      obtain ⟨s₁, hs, rfl⟩ := Option.map_eq_some_iff.1 h
      exact ThrowEffect.step s₁ (effect_of_step hs)
  | assignThrows t slot =>
      cases hpc : s.state.pc t with
      | updating op w =>
          cases op with
          | send v =>
              simp only [throwStep, hpc, Option.ite_none_left_eq_some] at h
              obtain ⟨hclosed, heq⟩ := h
              obtain rfl := Option.some.inj heq
              exact ThrowEffect.assignThrows t v slot w hpc (by simpa using hclosed)
          | recv => simp [throwStep, hpc] at h
      | _ => simp [throwStep, hpc] at h

/-! ### The queue -/

/-- The state after a call of thread `t` has failed: all members but the contents of a free slot are as
they were before, nothing has been recorded, and the thread holds no lock and is in no call. -/
structure Unsent (t : ι) (s s' : State α ι) : Prop where
  slots : s'.channel.slots = s.channel.slots
  closed : s'.channel.closed = s.channel.closed
  head : s'.channel.head = s.channel.head
  tail : s'.channel.tail = s.channel.tail
  size : s'.channel.size = s.channel.size
  capacity : s'.channel.capacity = s.channel.capacity
  log : s'.log = s.log
  mtx : s'.mtx = none
  outside : s'.pc t = .outside
  others : ∀ u, u ≠ t → s'.pc u = s.pc u

section

variable {s : State α ι} {t : ι} {v slot : α} {w : Bool} {capacity : ℕ}

omit [DecidableEq ι] [Fintype ι] in
/-- The slot that a `Send` assigns to is free. -/
theorem slots_set_tail (h : WellFormed s.channel) (hlt : s.channel.size < s.channel.capacity)
    (slot : α) :
    CyclicBuffer.slots (s.channel.buffer.set s.channel.tail slot) s.channel.head s.channel.size =
      s.channel.slots := by
  refine CyclicBuffer.slots_set_of_ne ?_
  intro i hi
  rw [h.length, h.tail_eq]
  exact CyclicBuffer.mod_ne_mod (by omega) (by omega)

omit [Inhabited α] [Fintype ι] [DecidableEq ι] in
/-- A `Send` that has found its predicate true on an open channel has found a free slot. -/
theorem Locked.size_lt (h : Locked s) (ht : s.pc t = .updating (.send v) w)
    (hc : s.channel.closed = false) : s.channel.size < s.channel.capacity := by
  have hready := h.ready t (.send v) w ht
  simpa [Channel.ready, Op.waitsOn, hc] using hready

omit [Fintype ι] in
/-- **The failed call leaves the queue alone.** -/
theorem unsent_of_assignThrows (hl : Locked s) (hwf : WellFormed s.channel)
    (ht : s.pc t = .updating (.send v) w) (hc : s.channel.closed = false) (slot : α) :
    Unsent t s (assignThrows s t slot) := by
  refine ⟨slots_set_tail hwf (hl.size_lt ht hc) slot, rfl, rfl, rfl, rfl, rfl, List.append_nil _, rfl,
    Function.update_self .., fun u hu => Function.update_of_ne hu _ _⟩

omit [Fintype ι] in
/-- The queue that the channel stands for is the same, and so is the history. -/
theorem Refines.assignThrows (h : Refines capacity s) (hl : Locked s)
    (ht : s.pc t = .updating (.send v) w) (hc : s.channel.closed = false) (slot : α) :
    Refines capacity (assignThrows s t slot) := by
  have hwf := h.wellFormed
  have hunsent := unsent_of_assignThrows hl hwf ht hc slot
  have hqueue : (BufferedChannel.assignThrows s t slot).channel.queue = s.channel.queue := by
    rw [Channel.queue, Channel.queue, hunsent.slots, hunsent.closed]
  refine ⟨⟨hwf.pos, ?_, hwf.head_lt, hwf.size_le, hwf.tail_eq⟩, h.capacity_eq, ?_⟩
  · exact List.length_set.trans hwf.length
  · rw [hqueue, hunsent.log]
    exact h.trace

omit [Inhabited α] [Fintype ι] in
/-- The lock has been released. -/
theorem Locked.assignThrows (h : Locked s) (ht : s.pc t = .updating (.send v) w) (slot : α) :
    Locked (assignThrows s t slot) :=
  h.release (t := t) (by rw [ht]; rfl) rfl rfl

/-! ### The wake-ups -/

omit [Inhabited α] in
/-- A call that has not been woken may fail: it has no notification to take with it.  For the
receivers, any call may fail. -/
theorem Covered.assignThrows {c : Cond} (h : Covered c s) (ht : s.pc t = .updating (.send v) w)
    (hw : c = .notFull → w = false) (slot : α) : Covered c (assignThrows s t slot) := by
  refine h.move (t := t) (p := .outside) rfl rfl id ?_
  rw [ht]
  have havailable :
      available (BufferedChannel.assignThrows s t slot).channel c = available s.channel c := by
    cases c <;> rfl
  rw [havailable]
  cases c with
  | notEmpty => cases w <;> simp [Pc.credit, Op.waitsOn]
  | notFull =>
      rw [hw rfl]
      simp [Pc.credit]

omit [Inhabited α] [Fintype ι] in
/-- A call that fails owes no notification to all. -/
theorem CloseOwes.assignThrows {c : Cond} (h : CloseOwes c s) (ht : s.pc t = .updating (.send v) w)
    (slot : α) : CloseOwes c (assignThrows s t slot) := by
  refine h.move (t := t) (p := .outside) rfl rfl id ?_
  rw [ht]
  cases c <;> simp [Pc.owesAll]

end

/-! ### Runs -/

variable {size : ℤ} {s : ThrowState α ι}

theorem locked_of_throwReachable (h : (throwSystem α ι size).Reachable s) : Locked s.state := by
  refine h.invariant (I := fun s => Locked s.state) ?_ ?_
  · rintro s rfl
    exact locked_of_reachable (Automaton.Reachable.init (A := system α ι size) rfl)
  · intro s a s' _ hl hs
    cases throwEffect_of_step hs with
    | step s₁ he => exact hl.step he
    | assignThrows t v slot w ht hc => exact hl.assignThrows ht slot

theorem refines_of_throwReachable (h : (throwSystem α ι size).Reachable s) :
    Refines (if size > 0 then size.toNat else 1) s.state := by
  refine h.invariant (I := fun s => Refines (if size > 0 then size.toNat else 1) s.state) ?_ ?_
  · rintro s rfl
    exact refines_of_reachable (Automaton.Reachable.init (A := system α ι size) rfl)
  · intro s a s' hr hR hs
    have hl := locked_of_throwReachable hr
    cases throwEffect_of_step hs with
    | step s₁ he => exact hR.step hl he
    | assignThrows t v slot w ht hc => exact hR.assignThrows hl ht hc slot

/-- As long as no call of `Send` that had been woken has failed, the wake-ups of the senders are covered;
those of the receivers are covered in any case. -/
theorem covered_of_throwReachable {c : Cond} (h : (throwSystem α ι size).Reachable s) :
    (c = .notFull → s.failedWoken = 0) → Covered c s.state := by
  refine h.invariant (I := fun s => (c = .notFull → s.failedWoken = 0) → Covered c s.state) ?_ ?_
  · rintro s rfl -
    exact covered_of_reachable (Automaton.Reachable.init (A := system α ι size) rfl)
  · intro s a s' hr hcov hs hzero
    have hl := locked_of_throwReachable hr
    cases throwEffect_of_step hs with
    | step s₁ he => exact (hcov hzero).step hl he
    | assignThrows t v slot w ht hc =>
        refine (hcov fun hfull => ?_).assignThrows ht (fun hfull => ?_) slot
        · have hsum := hzero hfull
          simp only at hsum
          omega
        · have hsum := hzero hfull
          cases w with
          | false => rfl
          | true => simp at hsum

theorem closeOwes_of_throwReachable {c : Cond} (h : (throwSystem α ι size).Reachable s) :
    CloseOwes c s.state := by
  refine h.invariant (I := fun s => CloseOwes c s.state) ?_ ?_
  · rintro s rfl
    exact CloseOwes.of_open rfl
  · intro s a s' _ hI hs
    cases throwEffect_of_step hs with
    | step s₁ he => exact hI.step he
    | assignThrows t v slot w ht hc => exact hI.assignThrows ht slot

/-- **A failed `Send` leaves the queue alone, and loses no wake-up unless it had been woken.**  Whatever
calls have failed, the channel is still the queue of the values that have been sent and not received.  As
long as no call has failed that had been woken, a sender that sleeps although its predicate is true is
waited for. -/
theorem failed_send_unsent (h : (throwSystem α ι size).Reachable s) :
    FifoChannel size s.state ∧
      (∀ t slot s', (throwSystem α ι size).step s (.assignThrows t slot) = some s' →
        Unsent t s.state s'.state) ∧
      (s.failedWoken = 0 → ∀ t, (s.state.pc t).sleepsOn .notFull = true →
        s.state.channel.ready .notFull = true →
        (∃ u, (s.state.pc u).owes .notFull = true) ∨ (∃ u, (s.state.pc u).unchecked .notFull = true) ∨
          ∃ u, (s.state.pc u).rechecked .notFull = true ∧ s.state.mtx = some u) := by
  have hl := locked_of_throwReachable h
  have hR := refines_of_throwReachable h
  refine ⟨hR.fifoChannel, ?_, ?_⟩
  · intro t slot s' hs
    have hpc : ∃ v w, s.state.pc t = .updating (.send v) w ∧ s.state.channel.closed = false ∧
        s'.state = assignThrows s.state t slot := by
      change throwStep s (.assignThrows t slot) = some s' at hs
      cases hpc : s.state.pc t with
      | updating op w =>
          cases op with
          | send v =>
              simp only [throwStep, hpc, Option.ite_none_left_eq_some] at hs
              obtain ⟨hclosed, heq⟩ := hs
              exact ⟨v, w, rfl, by simpa using hclosed, by rw [← Option.some.inj heq]⟩
          | recv => simp [throwStep, hpc] at hs
      | _ => simp [throwStep, hpc] at hs
    obtain ⟨v, w, ht, hc, heq⟩ := hpc
    rw [heq]
    exact unsent_of_assignThrows hl hR.wellFormed ht hc slot
  · intro hzero t ht hready
    exact (covered_of_throwReachable h fun _ => hzero).law (closeOwes_of_throwReachable h) hl ht hready

/-- A run of a channel of capacity one: thread `t` sends a value, thread `u` falls asleep in `Send`, and
thread `t` takes the value. -/
def fullThenFree (t u : ι) : List (Action ℕ ι) :=
  [Action.call t (.send 5), .lock t, .check t, .update t 0, .unlock t, .notifyOne t none,
    .call u (.send 7), .lock u, .check u, .call t .recv, .lock t, .check t, .update t 0, .unlock t]

/-- Thread `0` has not slept when its copy assignment throws: thread `2` still owes the notification to
thread `1`. -/
theorem failed_send_unsent_not_woken :
    ∃ s : ThrowState ℕ (Fin 3), (throwSystem ℕ (Fin 3) 1).run ⟨initial 1, 0⟩
        ((fullThenFree 2 1).map .step ++ [.step (.call 0 (.send 6)), .step (.lock 0), .step (.check 0),
          .assignThrows 0 9]) = some s ∧
      (s.state.pc 1).sleepsOn .notFull = true ∧ FifoChannel 1 s.state ∧
      ((∃ u, (s.state.pc u).owes .notFull = true) ∨ (∃ u, (s.state.pc u).unchecked .notFull = true) ∨
        ∃ u, (s.state.pc u).rechecked .notFull = true ∧ s.state.mtx = some u) := by
  obtain ⟨s, hs⟩ : ∃ s, (throwSystem ℕ (Fin 3) 1).run ⟨initial 1, 0⟩
      ((fullThenFree 2 1).map .step ++ [.step (.call 0 (.send 6)), .step (.lock 0), .step (.check 0),
        .assignThrows 0 9]) = some s := ⟨_, rfl⟩
  have hr : (throwSystem ℕ (Fin 3) 1).Reachable s := Automaton.Reachable.of_run rfl hs
  have hstate : s.failedWoken = 0 ∧ (s.state.pc 1).sleepsOn .notFull = true ∧
      s.state.channel.ready .notFull = true := by
    obtain rfl := Option.some_inj.1 hs
    exact ⟨rfl, rfl, rfl⟩
  obtain ⟨hfifo, -, hlaw⟩ := failed_send_unsent hr
  exact ⟨s, hs, hstate.2.1, hfifo, hlaw hstate.1 1 hstate.2.1 hstate.2.2⟩

/-- **A failed `Send` takes the wake-up with it.**  Threads `0` and `1` sleep in `Send` on a channel of
capacity one; thread `2` takes the value and wakes thread `0`, whose copy assignment throws.  Thread `1`
sleeps on although the slot is free, and all other threads are outside. -/
theorem failed_send_takes_wakeup :
    ∃ s : ThrowState ℕ (Fin 3), (throwSystem ℕ (Fin 3) 1).Reachable s ∧
      (s.state.pc 1).sleepsOn .notFull = true ∧ s.state.channel.size < s.state.channel.capacity ∧
      s.state.pc 0 = .outside ∧ s.state.pc 2 = .outside ∧
      ¬((∃ u, (s.state.pc u).owes .notFull = true) ∨ ∃ u, (s.state.pc u).unchecked .notFull = true) := by
  obtain ⟨s, hs⟩ : ∃ s, (throwSystem ℕ (Fin 3) 1).run ⟨initial 1, 0⟩
      ([.step (.call 2 (.send 5)), .step (.lock 2), .step (.check 2), .step (.update 2 0),
        .step (.unlock 2), .step (.notifyOne 2 none), .step (.call 0 (.send 6)), .step (.lock 0),
        .step (.check 0), .step (.call 1 (.send 7)), .step (.lock 1), .step (.check 1),
        .step (.call 2 .recv), .step (.lock 2), .step (.check 2), .step (.update 2 0),
        .step (.unlock 2), .step (.notifyOne 2 (some 0)), .step (.lock 0), .step (.check 0),
        .assignThrows 0 9]) = some s := ⟨_, rfl⟩
  refine ⟨s, Automaton.Reachable.of_run rfl hs, ?_⟩
  obtain rfl := Option.some_inj.1 hs
  exact ⟨rfl, by decide, rfl, rfl, by decide⟩

end BufferedChannel
