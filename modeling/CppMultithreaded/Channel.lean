/-
**The buffered channel of hw-3.**

`BufferedChannel<T>` is a cyclic buffer behind a mutex and two condition variables.  Every call of
`Send`, `Recv` and `Close` is modelled as its separate steps: taking the mutex, evaluating the wait
predicate, going to sleep atomically with the release of the mutex, the update of the members, the
release of the mutex, and only later the notification.  A sleeper may wake up spuriously, and a
thread that is woken has to take the mutex again before it evaluates its predicate again.

`Send` and `Recv` have the same shape and differ in the condition variable they wait on, the one
they notify, and the update; a call is therefore described by an operation `Op`.

Main definitions:

* `BufferedChannel.Channel` — the members the mutex protects, with `Channel.construct`,
  `Channel.send`, `Channel.recv` and `Channel.close`;
* `BufferedChannel.Pc`, `BufferedChannel.State`, `BufferedChannel.Action` — the program points of a
  thread, the states and the steps;
* `BufferedChannel.system` — the automaton, for a constructor argument and a set of threads;
* `BufferedChannel.WellFormed`, `BufferedChannel.Locked` — the invariants of the members and of the
  mutex.

Main results:

* `BufferedChannel.Channel.slots_send`, `BufferedChannel.Channel.slots_recv` — the updates append a
  value to, or drop the first value of, the occupied slots;
* `BufferedChannel.locked_of_reachable` — a thread inside a critical section holds the mutex, and its
  wait predicate stays true until its update.
-/

import CppMultithreaded.Automaton
import CppMultithreaded.BoundedFifo
import CppMultithreaded.CyclicBuffer
import Mathlib.Data.Fintype.Basic

set_option relaxedAutoImplicit false
set_option autoImplicit false

namespace BufferedChannel

open BoundedFifo (Event)

variable {α : Type*}

/-! ### The members protected by the mutex -/

/-- The members that the mutex protects. -/
structure Channel (α : Type*) where
  capacity : ℕ
  closed : Bool
  buffer : List α
  head : ℕ
  tail : ℕ
  size : ℕ

/-- The condition variables. -/
inductive Cond
  | notEmpty
  | notFull
  deriving DecidableEq, Repr

/-- The predicates of the two waits. -/
def Channel.ready (c : Channel α) : Cond → Bool
  | .notFull => c.closed || decide (c.size < c.capacity)
  | .notEmpty => c.closed || decide (0 < c.size)

variable [Inhabited α]

/-- The constructor, for the argument `size`. -/
def Channel.construct (size : ℤ) : Channel α :=
  let capacity := if size > 0 then size.toNat else 1
  { capacity := capacity
    closed := false
    buffer := List.replicate capacity default
    head := 0
    tail := 0
    size := 0 }

omit [Inhabited α] in
/-- The update of `Send`, on a channel that is open and not full. -/
def Channel.send (c : Channel α) (value : α) : Channel α :=
  { c with
    buffer := c.buffer.set c.tail value
    tail := (c.tail + 1) % c.capacity
    size := c.size + 1 }

/-- The value `Recv` returns, on a channel that is not empty. -/
def Channel.front (c : Channel α) : α := c.buffer.getD c.head default

omit [Inhabited α] in
/-- The update of `Recv`, on a channel that is not empty.  The value is moved out of its slot, which
is left holding some value `moved`. -/
def Channel.recv (c : Channel α) (moved : α) : Channel α :=
  { c with
    buffer := c.buffer.set c.head moved
    head := (c.head + 1) % c.capacity
    size := c.size - 1 }

omit [Inhabited α] in
/-- The update of `Close`. -/
def Channel.close (c : Channel α) : Channel α := { c with closed := true }

/-- The values in the `size` slots from `head` on, in cyclic order. -/
def Channel.slots (c : Channel α) : List α := CyclicBuffer.slots c.buffer c.head c.size

/-- The queue a channel stands for. -/
def Channel.queue (c : Channel α) : BoundedFifo.Queue α := ⟨c.slots, c.closed⟩

/-! ### States and steps -/

/-- The two operations that wait. -/
inductive Op (α : Type*)
  | send (value : α)
  | recv

/-- The condition variable an operation waits on. -/
def Op.waitsOn : Op α → Cond
  | .send _ => .notFull
  | .recv => .notEmpty

/-- The program points of a thread.  The flag `woken` records that the thread has slept. -/
inductive Pc (α : Type*)
  /-- In none of the calls. -/
  | outside
  /-- About to take the mutex. -/
  | locking (op : Op α)
  /-- Holds the mutex, about to evaluate the wait predicate. -/
  | checking (op : Op α) (woken : Bool)
  /-- Asleep on the condition variable of the operation. -/
  | asleep (op : Op α)
  /-- Woken, about to take the mutex again. -/
  | woken (op : Op α)
  /-- Holds the mutex, has found the wait predicate true, and has not made its update yet. -/
  | updating (op : Op α) (woken : Bool)
  /-- Has made its update, about to release the mutex and then to notify `c`. -/
  | unlocking (c : Cond)
  /-- About to call `c.notify_one()`. -/
  | notifying (c : Cond)
  /-- In `Close`, about to take the mutex. -/
  | closeLocking
  /-- In `Close`, holds the mutex. -/
  | closeUpdating
  /-- In `Close`, has set the flag, about to release the mutex. -/
  | closeUnlocking
  /-- In `Close`, about to call `c.notify_all()`. -/
  | closeNotifying (c : Cond)

/-- The channel, its mutex, the threads, and the history of the observable events.  An event is
recorded at the locked update that decides the outcome of the call. -/
structure State (α ι : Type*) where
  channel : Channel α
  /-- The thread that holds the mutex. -/
  mtx : Option ι
  pc : ι → Pc α
  log : List (Event α)

/-- The steps. -/
inductive Action (α ι : Type*)
  | call (t : ι) (op : Op α)
  | callClose (t : ι)
  | lock (t : ι)
  | check (t : ι)
  | update (t : ι) (moved : α)
  | unlock (t : ι)
  | notifyOne (t : ι) (woken : Option ι)
  | notifyAll (t : ι)
  | spuriousWakeup (t : ι)

variable {ι : Type*} [DecidableEq ι]

omit [Inhabited α] in
/-- Thread `t` moves to the program point `p`. -/
def State.goto (s : State α ι) (t : ι) (p : Pc α) : State α ι :=
  { s with pc := Function.update s.pc t p }

omit [Inhabited α] in
/-- Thread `t` leaves its call, and the mutex is released by the destructor of the lock. -/
def State.leave (s : State α ι) (t : ι) (e : List (Event α)) : State α ι :=
  { s with mtx := none, pc := Function.update s.pc t .outside, log := s.log ++ e }

/-- Thread `t` is at the program point where `mtx.lock()` returns. -/
def Pc.afterLock : Pc α → Option (Pc α)
  | .locking op => some (.checking op false)
  | .woken op => some (.checking op true)
  | .closeLocking => some .closeUpdating
  | _ => none

/-- The program point after the release of the mutex. -/
def Pc.afterUnlock : Pc α → Option (Pc α)
  | .unlocking c => some (.notifying c)
  | .closeUnlocking => some (.closeNotifying .notEmpty)
  | _ => none

/-- The program point after the wake-up of a thread that sleeps on `c`. -/
def Pc.wake (c : Cond) : Pc α → Pc α
  | .asleep op => if op.waitsOn = c then .woken op else .asleep op
  | p => p

/-- A thread at this program point sleeps on `c`. -/
def Pc.sleepsOn (c : Cond) : Pc α → Bool
  | .asleep op => decide (op.waitsOn = c)
  | _ => false

omit [Inhabited α] in
/-- The evaluation of the wait predicate. -/
def check (s : State α ι) (t : ι) (op : Op α) (woken : Bool) : State α ι :=
  if s.channel.ready op.waitsOn then s.goto t (.updating op woken)
  else { s.goto t (.asleep op) with mtx := none }

/-- The rest of `Send` under the mutex: throw on a closed channel, else store the value. -/
def sendUpdate (s : State α ι) (t : ι) (value : α) : State α ι :=
  if s.channel.closed then s.leave t [.rejected]
  else
    { s.goto t (.unlocking .notEmpty) with
      channel := s.channel.send value
      log := s.log ++ [.sent value] }

/-- The rest of `Recv` under the mutex: report the end on an empty channel, else take a value. -/
def recvUpdate (s : State α ι) (t : ι) (moved : α) : State α ι :=
  if s.channel.size = 0 then s.leave t [.exhausted]
  else
    { s.goto t (.unlocking .notFull) with
      channel := s.channel.recv moved
      log := s.log ++ [.received s.channel.front] }

/-- The rest of `Close` under the mutex. -/
def closeUpdate (s : State α ι) (t : ι) : State α ι :=
  if s.channel.closed then s.leave t []
  else
    { s.goto t .closeUnlocking with
      channel := s.channel.close
      log := s.log ++ [.closed] }

/-- The update of a thread that holds the mutex. -/
def update (s : State α ι) (t : ι) (moved : α) : Option (State α ι) :=
  match s.pc t with
  | .updating (.send value) _ => some (sendUpdate s t value)
  | .updating .recv _ => some (recvUpdate s t moved)
  | .closeUpdating => some (closeUpdate s t)
  | _ => none

variable [Fintype ι]

omit [Inhabited α] in
/-- The call `c.notify_one()`: one thread that sleeps on `c` is woken, if there is any. -/
def notifyOne (s : State α ι) (t : ι) (c : Cond) : Option ι → Option (State α ι)
  | some u =>
      if (s.pc u).sleepsOn c then some ((s.goto u ((s.pc u).wake c)).goto t .outside) else none
  | none => if ∀ u, (s.pc u).sleepsOn c = false then some (s.goto t .outside) else none

omit [Inhabited α] [Fintype ι] in
/-- The call `c.notify_all()`: every thread that sleeps on `c` is woken.  `Close` notifies
`notEmpty` first and `notFull` second. -/
def notifyAll (s : State α ι) (t : ι) (c : Cond) : State α ι :=
  let woken : State α ι := { s with pc := fun u => (s.pc u).wake c }
  match c with
  | .notEmpty => woken.goto t (.closeNotifying .notFull)
  | .notFull => woken.goto t .outside

/-- The step function. -/
def step (s : State α ι) : Action α ι → Option (State α ι)
  | .call t op =>
      match s.pc t with
      | .outside => some (s.goto t (.locking op))
      | _ => none
  | .callClose t =>
      match s.pc t with
      | .outside => some (s.goto t .closeLocking)
      | _ => none
  | .lock t =>
      match s.mtx with
      | none => (s.pc t).afterLock.map fun p => { s.goto t p with mtx := some t }
      | some _ => none
  | .check t =>
      match s.pc t with
      | .checking op woken => some (check s t op woken)
      | _ => none
  | .update t moved => update s t moved
  | .unlock t => (s.pc t).afterUnlock.map fun p => { s.goto t p with mtx := none }
  | .notifyOne t w =>
      match s.pc t with
      | .notifying c => notifyOne s t c w
      | _ => none
  | .notifyAll t =>
      match s.pc t with
      | .closeNotifying c => some (notifyAll s t c)
      | _ => none
  | .spuriousWakeup t =>
      match s.pc t with
      | .asleep op => some (s.goto t (.woken op))
      | _ => none

/-- The channel constructed with the argument `size`, with every thread outside. -/
def initial (size : ℤ) : State α ι :=
  { channel := Channel.construct size, mtx := none, pc := fun _ => .outside, log := [] }

/-- The automaton of a channel constructed with the argument `size`, for the threads `ι`. -/
def system (α ι : Type*) [Inhabited α] [DecidableEq ι] [Fintype ι] (size : ℤ) :
    Automaton (State α ι) (Action α ι) where
  init s := s = initial size
  step := step

/-! ### What a step can do -/

/-- The effects a step can have, one constructor for each. -/
inductive Effect (s : State α ι) : State α ι → Prop
  | call (t : ι) (op : Op α) : s.pc t = .outside → Effect s (s.goto t (.locking op))
  | callClose (t : ι) : s.pc t = .outside → Effect s (s.goto t .closeLocking)
  | lock (t : ι) (p : Pc α) : s.mtx = none → (s.pc t).afterLock = some p →
      Effect s { s.goto t p with mtx := some t }
  | proceed (t : ι) (op : Op α) (w : Bool) : s.pc t = .checking op w →
      s.channel.ready op.waitsOn = true → Effect s (s.goto t (.updating op w))
  | sleep (t : ι) (op : Op α) (w : Bool) : s.pc t = .checking op w →
      s.channel.ready op.waitsOn = false → Effect s { s.goto t (.asleep op) with mtx := none }
  | sendRejected (t : ι) (v : α) (w : Bool) : s.pc t = .updating (.send v) w →
      s.channel.closed = true → Effect s (s.leave t [.rejected])
  | sendStored (t : ι) (v : α) (w : Bool) : s.pc t = .updating (.send v) w →
      s.channel.closed = false →
      Effect s { s.goto t (.unlocking .notEmpty) with
        channel := s.channel.send v
        log := s.log ++ [.sent v] }
  | recvExhausted (t : ι) (w : Bool) : s.pc t = .updating .recv w → s.channel.size = 0 →
      Effect s (s.leave t [.exhausted])
  | recvTaken (t : ι) (w : Bool) (m : α) : s.pc t = .updating .recv w → s.channel.size ≠ 0 →
      Effect s { s.goto t (.unlocking .notFull) with
        channel := s.channel.recv m
        log := s.log ++ [.received s.channel.front] }
  | closeAgain (t : ι) : s.pc t = .closeUpdating → s.channel.closed = true →
      Effect s (s.leave t [])
  | closeFirst (t : ι) : s.pc t = .closeUpdating → s.channel.closed = false →
      Effect s { s.goto t .closeUnlocking with
        channel := s.channel.close
        log := s.log ++ [.closed] }
  | unlock (t : ι) (p : Pc α) : (s.pc t).afterUnlock = some p →
      Effect s { s.goto t p with mtx := none }
  | wakeOne (t u : ι) (c : Cond) : s.pc t = .notifying c → (s.pc u).sleepsOn c = true →
      Effect s ((s.goto u ((s.pc u).wake c)).goto t .outside)
  | wakeNone (t : ι) (c : Cond) : s.pc t = .notifying c →
      (∀ u, (s.pc u).sleepsOn c = false) → Effect s (s.goto t .outside)
  | wakeAll (t : ι) (c : Cond) : s.pc t = .closeNotifying c → Effect s (notifyAll s t c)
  | spuriousWakeup (t : ι) (op : Op α) : s.pc t = .asleep op → Effect s (s.goto t (.woken op))

omit [Fintype ι] in
theorem effect_of_update {s s' : State α ι} {t : ι} {m : α} (h : update s t m = some s') :
    Effect s s' := by
  cases hp : s.pc t with
  | updating op w =>
      cases op with
      | send v =>
          simp only [update, hp, Option.some.injEq, sendUpdate] at h
          subst h
          split_ifs with hc
          · exact Effect.sendRejected t v w hp hc
          · exact Effect.sendStored t v w hp (by simpa using hc)
      | recv =>
          simp only [update, hp, Option.some.injEq, recvUpdate] at h
          subst h
          split_ifs with hc
          · exact Effect.recvExhausted t w hp hc
          · exact Effect.recvTaken t w m hp hc
  | closeUpdating =>
      simp only [update, hp, Option.some.injEq, closeUpdate] at h
      subst h
      split_ifs with hc
      · exact Effect.closeAgain t hp hc
      · exact Effect.closeFirst t hp (by simpa using hc)
  | _ => simp [update, hp] at h

theorem effect_of_notifyOne {s s' : State α ι} {t : ι} {c : Cond} {w : Option ι}
    (ht : s.pc t = .notifying c) (h : notifyOne s t c w = some s') : Effect s s' := by
  cases w with
  | some u =>
      simp only [notifyOne, Option.ite_none_right_eq_some, Option.some.injEq] at h
      obtain ⟨hu, rfl⟩ := h
      exact Effect.wakeOne t u c ht hu
  | none =>
      simp only [notifyOne, Option.ite_none_right_eq_some, Option.some.injEq] at h
      obtain ⟨hu, rfl⟩ := h
      exact Effect.wakeNone t c ht hu

/-- **Inversion of the step function.** -/
theorem effect_of_step {s s' : State α ι} {a : Action α ι} (h : step s a = some s') :
    Effect s s' := by
  cases a with
  | call t op =>
      cases hp : s.pc t with
      | outside =>
          simp only [step, hp, Option.some.injEq] at h
          subst h
          exact Effect.call t op hp
      | _ => simp [step, hp] at h
  | callClose t =>
      cases hp : s.pc t with
      | outside =>
          simp only [step, hp, Option.some.injEq] at h
          subst h
          exact Effect.callClose t hp
      | _ => simp [step, hp] at h
  | lock t =>
      cases hm : s.mtx with
      | none =>
          simp only [step, hm] at h
          obtain ⟨p, hp, rfl⟩ := Option.map_eq_some_iff.1 h
          exact Effect.lock t p hm hp
      | some u => simp [step, hm] at h
  | check t =>
      cases hp : s.pc t with
      | checking op w =>
          simp only [step, hp, Option.some.injEq, check] at h
          subst h
          split_ifs with hr
          · exact Effect.proceed t op w hp hr
          · exact Effect.sleep t op w hp (by simpa using hr)
      | _ => simp [step, hp] at h
  | update t m => exact effect_of_update h
  | unlock t =>
      obtain ⟨p, hp, rfl⟩ := Option.map_eq_some_iff.1 h
      exact Effect.unlock t p hp
  | notifyOne t w =>
      cases hp : s.pc t with
      | notifying c =>
          simp only [step, hp] at h
          exact effect_of_notifyOne hp h
      | _ => simp [step, hp] at h
  | notifyAll t =>
      cases hp : s.pc t with
      | closeNotifying c =>
          simp only [step, hp, Option.some.injEq] at h
          subst h
          exact Effect.wakeAll t c hp
      | _ => simp [step, hp] at h
  | spuriousWakeup t =>
      cases hp : s.pc t with
      | asleep op =>
          simp only [step, hp, Option.some.injEq] at h
          subst h
          exact Effect.spuriousWakeup t op hp
      | _ => simp [step, hp] at h

/-! ### The mutex -/

/-- A thread at this program point holds the mutex. -/
def Pc.holds : Pc α → Bool
  | .checking _ _ | .updating _ _ | .unlocking _ | .closeUpdating | .closeUnlocking => true
  | _ => false

omit [Inhabited α] in
@[simp] theorem Pc.holds_wake (c : Cond) (p : Pc α) : (p.wake c).holds = p.holds := by
  cases p with
  | asleep op =>
      simp only [Pc.wake]
      split_ifs <;> rfl
  | _ => rfl

omit [Inhabited α] in
theorem Pc.wake_eq_updating {c : Cond} {p : Pc α} {op : Op α} {w : Bool}
    (h : p.wake c = .updating op w) : p = .updating op w := by
  cases p with
  | asleep op' =>
      simp only [Pc.wake] at h
      split_ifs at h
  | _ => exact h

omit [Inhabited α] in
theorem Pc.holds_afterLock {p q : Pc α} (h : p.afterLock = some q) :
    p.holds = false ∧ ∀ op w, q ≠ .updating op w := by
  cases p <;> simp only [Pc.afterLock, Option.some.injEq, reduceCtorEq] at h <;> subst h <;>
    simp [Pc.holds]

omit [Inhabited α] in
theorem Pc.holds_afterUnlock {p q : Pc α} (h : p.afterUnlock = some q) :
    p.holds = true ∧ q.holds = false := by
  cases p <;> simp only [Pc.afterUnlock, Option.some.injEq, reduceCtorEq] at h <;> subst h <;>
    simp [Pc.holds]

/-- The invariant of the mutex. -/
structure Locked (s : State α ι) : Prop where
  /-- A thread inside a critical section holds the mutex. -/
  owner : ∀ t, (s.pc t).holds = true → s.mtx = some t
  /-- The wait predicate a thread has found true stays true until its update. -/
  ready : ∀ t op w, s.pc t = .updating op w → s.channel.ready op.waitsOn = true

namespace Locked

variable {s s' : State α ι} {t : ι} {p : Pc α}

omit [Inhabited α] [DecidableEq ι] [Fintype ι] in
/-- While `t` holds the mutex, no other thread does. -/
theorem eq_of_holds (h : Locked s) (ht : (s.pc t).holds = true) {u : ι}
    (hu : (s.pc u).holds = true) : u = t := by
  have hmt := h.owner t ht
  rw [h.owner u hu] at hmt
  exact Option.some.inj hmt

omit [Inhabited α] [Fintype ι] in
/-- A move that touches neither the mutex nor the channel. -/
theorem move (h : Locked s) (hp : p.holds = true → s.mtx = some t)
    (hr : ∀ op w, p = .updating op w → s.channel.ready op.waitsOn = true) :
    Locked (s.goto t p) := by
  constructor
  · intro u hu
    by_cases hut : u = t
    · simp only [State.goto, hut, Function.update_self] at hu
      rw [hut]
      exact hp hu
    · simp only [State.goto, Function.update_of_ne hut] at hu
      exact h.owner u hu
  · intro u op w hu
    by_cases hut : u = t
    · simp only [State.goto, hut, Function.update_self] at hu
      exact hr op w hu
    · simp only [State.goto, Function.update_of_ne hut] at hu
      exact h.ready u op w hu

omit [Inhabited α] [Fintype ι] in
/-- A move of the holder that keeps the mutex, whatever it does to the channel. -/
theorem hold (h : Locked s) (ht : (s.pc t).holds = true) (hp : ∀ op w, p ≠ .updating op w)
    (hpc : s'.pc = Function.update s.pc t p) (hm : s'.mtx = s.mtx) : Locked s' := by
  constructor
  · intro u hu
    by_cases hut : u = t
    · rw [hm, hut]
      exact h.owner t ht
    · rw [hpc, Function.update_of_ne hut] at hu
      rw [hm]
      exact h.owner u hu
  · intro u op w hu
    by_cases hut : u = t
    · rw [hpc, hut, Function.update_self] at hu
      exact absurd hu (hp op w)
    · rw [hpc, Function.update_of_ne hut] at hu
      exact absurd (h.eq_of_holds ht (by rw [hu]; rfl)) hut

omit [Inhabited α] [Fintype ι] in
/-- A move of the holder that releases the mutex, whatever it does to the channel. -/
theorem release (h : Locked s) (ht : (s.pc t).holds = true) (hp : p.holds = false)
    (hpc : s'.pc = Function.update s.pc t p) : Locked s' := by
  have hnone : ∀ u, (s'.pc u).holds = false := by
    intro u
    by_cases hut : u = t
    · rw [hpc, hut, Function.update_self]
      exact hp
    · rw [hpc, Function.update_of_ne hut]
      by_contra hu
      exact hut (h.eq_of_holds ht (by simpa using hu))
  constructor
  · intro u hu
    rw [hnone u] at hu
    simp at hu
  · intro u op w hu
    have hfalse := hnone u
    rw [hu] at hfalse
    simp [Pc.holds] at hfalse

omit [Inhabited α] [Fintype ι] in
/-- Taking the free mutex. -/
theorem acquire (h : Locked s) (hm : s.mtx = none) (hp : ∀ op w, p ≠ .updating op w) :
    Locked { s.goto t p with mtx := some t } := by
  have hnone : ∀ u, (s.pc u).holds = false := by
    intro u
    by_contra hu
    have hmu := h.owner u (by simpa using hu)
    rw [hm] at hmu
    simp at hmu
  constructor
  · intro u hu
    by_cases hut : u = t
    · rw [hut]
    · simp only [State.goto, Function.update_of_ne hut, hnone u] at hu
      simp at hu
  · intro u op w hu
    by_cases hut : u = t
    · simp only [State.goto, hut, Function.update_self] at hu
      exact absurd hu (hp op w)
    · simp only [State.goto, Function.update_of_ne hut] at hu
      exact h.ready u op w hu

omit [Inhabited α] [DecidableEq ι] [Fintype ι] in
/-- Waking threads concerns neither the mutex nor the channel. -/
theorem wake (h : Locked s) (c : Cond) :
    Locked { s with pc := fun u => (s.pc u).wake c } := by
  constructor
  · intro u hu
    rw [Pc.holds_wake] at hu
    exact h.owner u hu
  · intro u op w hu
    exact h.ready u op w (Pc.wake_eq_updating hu)

omit [Fintype ι] in
/-- Every step keeps the invariant of the mutex. -/
theorem step (h : Locked s) (hs : Effect s s') : Locked s' := by
  cases hs with
  | call t op ht => exact h.move (by simp [Pc.holds]) (by simp)
  | callClose t ht => exact h.move (by simp [Pc.holds]) (by simp)
  | lock t p hm hp => exact h.acquire hm (Pc.holds_afterLock hp).2
  | proceed t op w ht hr =>
      refine h.move (fun _ => h.owner t (by rw [ht]; rfl)) ?_
      intro op' w' heq
      rw [Pc.updating.injEq] at heq
      rw [← heq.1]
      exact hr
  | sleep t op w ht hr => exact h.release (t := t) (by rw [ht]; rfl) rfl rfl
  | sendRejected t v w ht hc => exact h.release (t := t) (by rw [ht]; rfl) rfl rfl
  | sendStored t v w ht hc => exact h.hold (t := t) (by rw [ht]; rfl) (by simp) rfl rfl
  | recvExhausted t w ht hz => exact h.release (t := t) (by rw [ht]; rfl) rfl rfl
  | recvTaken t w m ht hz => exact h.hold (t := t) (by rw [ht]; rfl) (by simp) rfl rfl
  | closeAgain t ht hc => exact h.release (t := t) (by rw [ht]; rfl) rfl rfl
  | closeFirst t ht hc => exact h.hold (t := t) (by rw [ht]; rfl) (by simp) rfl rfl
  | unlock t p hp =>
      exact h.release (t := t) (Pc.holds_afterUnlock hp).1 (Pc.holds_afterUnlock hp).2 rfl
  | wakeOne t u c ht hu =>
      have hwoken : Locked (s.goto u ((s.pc u).wake c)) := by
        refine h.move ?_ ?_
        · intro hh
          rw [Pc.holds_wake] at hh
          exact h.owner u hh
        · intro op w heq
          exact h.ready u op w (Pc.wake_eq_updating heq)
      exact hwoken.move (by simp [Pc.holds]) (by simp)
  | wakeNone t c ht hnone => exact h.move (by simp [Pc.holds]) (by simp)
  | wakeAll t c ht =>
      cases c with
      | notEmpty => exact (h.wake .notEmpty).move (by simp [Pc.holds]) (by simp)
      | notFull => exact (h.wake .notFull).move (by simp [Pc.holds]) (by simp)
  | spuriousWakeup t op ht => exact h.move (by simp [Pc.holds]) (by simp)

end Locked

theorem locked_of_reachable {size : ℤ} {s : State α ι} (h : (system α ι size).Reachable s) :
    Locked s := by
  refine h.invariant ?_ ?_
  · intro s hs
    rw [show s = initial size from hs]
    exact ⟨by simp [initial, Pc.holds], by simp [initial]⟩
  · intro s a s' _ hI hs
    exact hI.step (effect_of_step hs)

/-! ### The cyclic buffer -/

/-- The invariant of the members. -/
structure WellFormed (c : Channel α) : Prop where
  pos : 0 < c.capacity
  length : c.buffer.length = c.capacity
  head_lt : c.head < c.capacity
  size_le : c.size ≤ c.capacity
  tail_eq : c.tail = (c.head + c.size) % c.capacity

theorem wellFormed_construct (size : ℤ) : WellFormed (Channel.construct size : Channel α) := by
  have hpos : 0 < (Channel.construct size : Channel α).capacity := by
    simp only [Channel.construct]
    split_ifs <;> omega
  constructor
  · exact hpos
  · simp [Channel.construct]
  · exact hpos
  · exact Nat.zero_le _
  · exact (Nat.zero_mod _).symm

variable {c : Channel α}

omit [Inhabited α] in
theorem WellFormed.send (h : WellFormed c) (v : α) (hlt : c.size < c.capacity) :
    WellFormed (c.send v) := by
  constructor
  · exact h.pos
  · simpa [Channel.send] using h.length
  · exact h.head_lt
  · exact hlt
  · simp only [Channel.send, h.tail_eq, Nat.mod_add_mod]
    rw [Nat.add_assoc]

/-- The update of `Send` appends the value to the occupied slots. -/
theorem Channel.slots_send (h : WellFormed c) (v : α) (hlt : c.size < c.capacity) :
    (c.send v).slots = c.slots ++ [v] := by
  have hpush := CyclicBuffer.slots_push c.buffer c.head (k := c.size) v
    (by rw [h.length]; exact hlt)
  rw [h.length, ← h.tail_eq] at hpush
  exact hpush

omit [Inhabited α] in
theorem WellFormed.recv (h : WellFormed c) (m : α) (hne : c.size ≠ 0) :
    WellFormed (c.recv m) := by
  have hsize := h.size_le
  constructor
  · exact h.pos
  · simpa [Channel.recv] using h.length
  · exact Nat.mod_lt _ h.pos
  · simp only [Channel.recv]
    omega
  · simp only [Channel.recv, h.tail_eq, Nat.mod_add_mod]
    rw [show c.head + 1 + (c.size - 1) = c.head + c.size by omega]

/-- The update of `Recv` drops the first value of the occupied slots, which it returns. -/
theorem Channel.slots_recv (h : WellFormed c) (m : α) (hne : c.size ≠ 0) :
    c.slots = c.front :: (c.recv m).slots := by
  obtain ⟨k, hk⟩ := Nat.exists_eq_succ_of_ne_zero hne
  have hsize := h.size_le
  have hhead : c.head % c.buffer.length = c.head := by
    rw [h.length, Nat.mod_eq_of_lt h.head_lt]
  have hpop := CyclicBuffer.slots_pop c.buffer c.head (k := k) m
    (by rw [h.length]; omega)
  rw [hhead] at hpop
  have hnew : (c.recv m).slots = CyclicBuffer.slots (c.buffer.set c.head m) (c.head + 1) k := by
    have hmod := CyclicBuffer.slots_mod (c.buffer.set c.head m) (c.head + 1) k
    rw [List.length_set, h.length] at hmod
    simp only [Channel.slots, Channel.recv, hk, Nat.succ_eq_add_one, Nat.add_sub_cancel]
    exact hmod
  rw [hnew]
  simp only [Channel.slots, hk, Channel.front]
  exact hpop

end BufferedChannel
