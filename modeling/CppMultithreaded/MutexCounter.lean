/-
**A counter protected by the futex mutex.**

`CppMultithreaded/Mutex.lean` proves that at most one thread is in its critical section.  This
module adds the client the tests of hw-4 run: every critical section increments a
shared counter, not atomically, but by a read followed by a write of the value read plus one.  The
client is layered over the mutex: its automaton is simulated by the automaton of the mutex, so that
mutual exclusion is inherited, and no update of the counter is lost.

Main definitions:

* `FutexMutex.Section`, `FutexMutex.CounterState`, `FutexMutex.CounterAction` — where a thread is
  inside its critical section, the states and the steps of the client;
* `FutexMutex.counterSystem` — the automaton of the client;
* `FutexMutex.NoLostUpdate` — the invariant of the counter.

Main results:

* `FutexMutex.counterSimulation` — the mutex simulates its client;
* `FutexMutex.mutex_excludes_and_counts` — **mutual exclusion, and the counter at quiescence is the
  number of completed critical sections**.
-/

import CppMultithreaded.Mutex
import CppMultithreaded.ThreadWeight

set_option relaxedAutoImplicit false
set_option autoImplicit false

namespace FutexMutex

open Automaton

/-! ### The client -/

/-- Where a thread is inside its critical section. -/
inductive Section
  /-- The counter has not been read yet. -/
  | unread
  /-- The counter has been read, and held the value given. -/
  | loaded (value : ℕ)
  /-- The incremented value has been written back. -/
  | stored
  deriving DecidableEq, Repr

/-- The mutex together with its client. -/
structure CounterState (T : Type*) where
  /-- The mutex. -/
  mutex : State T
  /-- The shared counter. -/
  counter : ℕ
  /-- Where every thread is inside its critical section. -/
  place : T → Section
  /-- The number of critical sections every thread has completed. -/
  completed : T → ℕ

/-- The steps of the client: an atomic step of the mutex, a read of the counter, or a write. -/
inductive CounterAction (T : Type*)
  | mutex (a : Action T)
  | load (t : T)
  | store (t : T)

variable {T : Type*} [DecidableEq T] [Fintype T]

/-- The bookkeeping of the client at a step of the mutex: the exchange by `0` in `Unlock` completes
the critical section of the thread, which must have written the counter; the other steps of the
mutex do not concern the client. -/
def CounterState.onMutex (s : CounterState T) (m : State T) :
    Action T → Option (CounterState T)
  | .unlock t =>
      if s.place t = .stored then
        some { s with
          mutex := m
          place := Function.update s.place t .unread
          completed := Function.update s.completed t (s.completed t + 1) }
      else none
  | _ => some { s with mutex := m }

/-- The step function of the client. -/
def counterStep (s : CounterState T) : CounterAction T → Option (CounterState T)
  | .mutex a => (step s.mutex a).bind fun m => s.onMutex m a
  | .load t =>
      if s.mutex.pc t = .critical ∧ s.place t = .unread then
        some { s with place := Function.update s.place t (.loaded s.counter) }
      else none
  | .store t =>
      match s.place t with
      | .loaded v =>
          if s.mutex.pc t = .critical then
            some { s with counter := v + 1, place := Function.update s.place t .stored }
          else none
      | _ => none

/-- Nobody has started, and the counter is zero. -/
def counterInitial : CounterState T :=
  { mutex := initial, counter := 0, place := fun _ => .unread, completed := fun _ => 0 }

/-- The automaton of the client, for the threads `T`. -/
def counterSystem (T : Type*) [DecidableEq T] [Fintype T] :
    Automaton (CounterState T) (CounterAction T) where
  init s := s = counterInitial
  step := counterStep

/-- What a step of the client can do. -/
theorem counterStep_cases {s s' : CounterState T} {a : CounterAction T}
    (h : counterStep s a = some s') :
    (∃ t m, step s.mutex (.unlock t) = some m ∧ s.place t = .stored ∧
        s' = { s with
          mutex := m
          place := Function.update s.place t .unread
          completed := Function.update s.completed t (s.completed t + 1) }) ∨
      (∃ b m, (∀ t, b ≠ .unlock t) ∧ step s.mutex b = some m ∧ s' = { s with mutex := m }) ∨
      (∃ t, s.mutex.pc t = .critical ∧ s.place t = .unread ∧
        s' = { s with place := Function.update s.place t (.loaded s.counter) }) ∨
      ∃ t v, s.mutex.pc t = .critical ∧ s.place t = .loaded v ∧
        s' = { s with counter := v + 1, place := Function.update s.place t .stored } := by
  cases a with
  | mutex b =>
      obtain ⟨m, hm, hs⟩ := Option.bind_eq_some_iff.1 h
      cases b with
      | unlock t =>
          simp only [CounterState.onMutex, Option.ite_none_right_eq_some, Option.some.injEq] at hs
          exact Or.inl ⟨t, m, hm, hs.1, hs.2.symm⟩
      | _ =>
          simp only [CounterState.onMutex, Option.some.injEq] at hs
          exact Or.inr (Or.inl ⟨_, m, by simp, hm, hs.symm⟩)
  | load t =>
      simp only [counterStep, Option.ite_none_right_eq_some, Option.some.injEq] at h
      exact Or.inr (Or.inr (Or.inl ⟨t, h.1.1, h.1.2, h.2.symm⟩))
  | store t =>
      cases hp : s.place t with
      | loaded v =>
          simp only [counterStep, hp, Option.ite_none_right_eq_some, Option.some.injEq] at h
          exact Or.inr (Or.inr (Or.inr ⟨t, v, h.1, hp, h.2.symm⟩))
      | _ => simp [counterStep, hp] at h

/-- The mutex simulates its client: the steps inside a critical section leave the mutex alone. -/
def counterSimulation (T : Type*) [DecidableEq T] [Fintype T] :
    Simulation (counterSystem T) (system T) where
  abs := CounterState.mutex
  init s hs := by
    rw [show s = counterInitial from hs]
    rfl
  step s a s' _ hs := by
    rcases counterStep_cases hs with ⟨t, m, hm, -, rfl⟩ | ⟨b, m, -, hm, rfl⟩ |
      ⟨t, -, -, rfl⟩ | ⟨t, v, -, -, rfl⟩
    · exact Steps.tail (.unlock t) Steps.refl hm
    · exact Steps.tail b Steps.refl hm
    · exact Steps.refl
    · exact Steps.refl

/-! ### The critical section is left by `Unlock` only -/

/-- A thread in its critical section stays there until its own exchange by `0`. -/
theorem critical_of_step {s s' : State T} {b : Action T} (h : step s b = some s') {t : T}
    (ht : s.pc t = .critical) (hb : b ≠ .unlock t) : s'.pc t = .critical := by
  have hkeep : ∀ {u : T} {p : Pc}, s.pc u ≠ .critical → Function.update s.pc u p t = .critical := by
    intro u p hu
    have htu : t ≠ u := by
      intro htu
      rw [htu] at ht
      exact hu ht
    rw [Function.update_of_ne htu, ht]
  cases b with
  | lock u =>
      simp only [step, Option.ite_none_right_eq_some, Option.some.injEq] at h
      obtain ⟨hu, rfl⟩ := h
      exact hkeep (by simp [hu])
  | compareExchange u =>
      simp only [step, Option.ite_none_right_eq_some, Option.some.injEq, lockCompareExchange] at h
      obtain ⟨hu, rfl⟩ := h
      split_ifs <;> exact hkeep (by simp [hu])
  | exchange u =>
      simp only [step, Option.ite_none_right_eq_some, Option.some.injEq, lockExchange] at h
      obtain ⟨hu, rfl⟩ := h
      split_ifs <;> exact hkeep (by simp [hu])
  | futexWait u =>
      simp only [step, Option.ite_none_right_eq_some, Option.some.injEq, futexWait] at h
      obtain ⟨hu, rfl⟩ := h
      split_ifs <;> exact hkeep (by simp [hu])
  | spuriousWakeup u =>
      simp only [step, Option.ite_none_right_eq_some, Option.some.injEq] at h
      obtain ⟨hu, rfl⟩ := h
      exact hkeep (by simp [hu])
  | unlock u =>
      simp only [step, Option.ite_none_right_eq_some, Option.some.injEq, unlockExchange] at h
      obtain ⟨hu, rfl⟩ := h
      have htu : t ≠ u := by
        intro htu
        exact hb (by rw [htu])
      split_ifs <;> simp [htu, ht]
  | futexWakeOne u w =>
      simp only [step, Option.ite_none_right_eq_some] at h
      obtain ⟨hu, hw⟩ := h
      rcases futexWakeOne_eq_some hw with ⟨v, hv, rfl⟩ | ⟨-, rfl⟩
      · have htu : t ≠ u := by
          intro htu
          rw [htu, hu] at ht
          simp at ht
        rw [State.goto_pc, Function.update_of_ne htu]
        exact hkeep (by simp [hv])
      · exact hkeep (by simp [hu])

/-! ### No update is lost -/

/-- The increment a thread has written but not yet completed. -/
def Section.pending : Section → ℕ
  | .stored => 1
  | _ => 0

@[simp] theorem Section.pending_unread : Section.unread.pending = 0 := rfl

@[simp] theorem Section.pending_loaded (v : ℕ) : (Section.loaded v).pending = 0 := rfl

@[simp] theorem Section.pending_stored : Section.stored.pending = 1 := rfl

/-- The invariant of the counter. -/
structure NoLostUpdate (s : CounterState T) : Prop where
  /-- A thread that has read the counter is still in its critical section. -/
  inside : ∀ t, s.place t ≠ .unread → s.mutex.pc t = .critical
  /-- The value read is still the value of the counter. -/
  fresh : ∀ t v, s.place t = .loaded v → v = s.counter
  /-- The counter counts the completed critical sections and the increments written in the current
  one. -/
  count : s.counter = ∑ t, s.completed t + ∑ t, (s.place t).pending

/-- Every step of the client keeps the invariant of the counter. -/
theorem NoLostUpdate.step {s s' : CounterState T} {a : CounterAction T} (h : NoLostUpdate s)
    (hx : Exclusive s.mutex) (hs : counterStep s a = some s') : NoLostUpdate s' := by
  rcases counterStep_cases hs with ⟨t, m, hm, ht, rfl⟩ | ⟨b, m, hb, hm, rfl⟩ |
    ⟨t, htc, ht, rfl⟩ | ⟨t, v, htc, ht, rfl⟩
  · -- `Unlock` moves the increment of the thread from the current section to the completed ones
    have hplace := ThreadWeight.sum_update Section.pending s.place t .unread
    have hcompleted := ThreadWeight.sum_update (fun n : ℕ => n) s.completed t (s.completed t + 1)
    have hcount := h.count
    simp only [ht, Section.pending_unread, Section.pending_stored] at hplace
    refine ⟨?_, ?_, ?_⟩
    · intro u hu
      have hut : u ≠ t := by
        intro hut
        rw [hut] at hu
        simp at hu
      simp only [Function.update_of_ne hut] at hu
      refine critical_of_step hm (h.inside u hu) ?_
      simpa using Ne.symm hut
    · intro u w hu
      by_cases hut : u = t
      · rw [hut] at hu
        simp at hu
      · simp only [Function.update_of_ne hut] at hu
        exact h.fresh u w hu
    · dsimp only
      omega
  · refine ⟨?_, h.fresh, h.count⟩
    intro u hu
    exact critical_of_step hm (h.inside u hu) (hb u)
  · have hplace := ThreadWeight.sum_update Section.pending s.place t (.loaded s.counter)
    have hcount := h.count
    simp only [ht, Section.pending_unread, Section.pending_loaded] at hplace
    refine ⟨?_, ?_, ?_⟩
    · intro u hu
      by_cases hut : u = t
      · rw [hut]
        exact htc
      · simp only [Function.update_of_ne hut] at hu
        exact h.inside u hu
    · intro u w hu
      by_cases hut : u = t
      · simp only [hut, Function.update_self, Section.loaded.injEq] at hu
        exact hu.symm
      · simp only [Function.update_of_ne hut] at hu
        exact h.fresh u w hu
    · dsimp only
      omega
  · have hplace := ThreadWeight.sum_update Section.pending s.place t .stored
    have hcount := h.count
    have hv := h.fresh t v ht
    simp only [ht, Section.pending_loaded, Section.pending_stored] at hplace
    refine ⟨?_, ?_, ?_⟩
    · intro u hu
      by_cases hut : u = t
      · rw [hut]
        exact htc
      · simp only [Function.update_of_ne hut] at hu
        exact h.inside u hu
    · intro u w hu
      by_cases hut : u = t
      · simp [hut] at hu
      · -- another thread that has read the counter would be in its critical section too
        simp only [Function.update_of_ne hut] at hu
        exact absurd (hx.unique u t (h.inside u (by simp [hu])) htc) hut
    · dsimp only
      omega

theorem noLostUpdate_of_reachable {s : CounterState T} (h : (counterSystem T).Reachable s) :
    NoLostUpdate s := by
  refine h.invariant ?_ ?_
  · intro s hs
    rw [show s = counterInitial from hs]
    exact ⟨by simp [counterInitial], by simp [counterInitial],
      by simp [counterInitial, Section.pending]⟩
  · intro s a s' hr hI hs
    exact hI.step (exclusive_of_reachable ((counterSimulation T).reachable hr)) hs

/-- While no thread is in its critical section, the counter is the number of completed critical
sections. -/
theorem counter_eq_completed {s : CounterState T} (h : (counterSystem T).Reachable s)
    (hq : ∀ t, s.mutex.pc t ≠ .critical) : s.counter = ∑ t, s.completed t := by
  have hI := noLostUpdate_of_reachable h
  have hzero : ∑ t, (s.place t).pending = 0 := by
    refine Finset.sum_eq_zero ?_
    intro t _
    have hunread : s.place t = .unread := by
      by_contra hne
      exact hq t (hI.inside t hne)
    rw [hunread]
    rfl
  have hcount := hI.count
  omega

/-- **Mutual exclusion of the futex mutex.**  In every reachable state at most one thread is between
the return of `Lock` and the exchange by `0` of its `Unlock`, and the word is non-zero exactly when
there is one.  Consequently, when the critical sections are non-atomic increments of a shared
counter, the counter at quiescence is the number of completed critical sections. -/
theorem mutex_excludes_and_counts (T : Type*) [DecidableEq T] [Fintype T] :
    (∀ s : State T, (system T).Reachable s →
        (∀ t u, s.pc t = .critical → s.pc u = .critical → t = u) ∧
          (s.mtxState ≠ 0 ↔ ∃ t, s.pc t = .critical)) ∧
      ∀ s : CounterState T, (counterSystem T).Reachable s →
        (∀ t, s.mutex.pc t = .outside) → s.counter = ∑ t, s.completed t := by
  refine ⟨?_, ?_⟩
  · intro s h
    have hx := exclusive_of_reachable h
    exact ⟨hx.unique, hx.held⟩
  · intro s h hq
    refine counter_eq_completed h ?_
    intro t
    rw [hq t]
    simp

/-- Two threads that increment the counter once each leave it at two, also when the second one has
to sleep for the mutex. -/
theorem mutex_excludes_and_counts_two_threads :
    ∃ s : CounterState (Fin 2), (counterSystem (Fin 2)).Reachable s ∧
      (∀ t, s.mutex.pc t = .outside) ∧ s.counter = 2 ∧ s.counter = ∑ t, s.completed t := by
  obtain ⟨s, hs⟩ : ∃ s, (counterSystem (Fin 2)).run counterInitial
      [.mutex (.lock 0), .mutex (.compareExchange 0), .load 0, .mutex (.lock 1),
        .mutex (.compareExchange 1), .mutex (.exchange 1), .mutex (.futexWait 1), .store 0,
        .mutex (.unlock 0), .mutex (.futexWakeOne 0 (some 1)), .mutex (.exchange 1), .load 1,
        .store 1, .mutex (.unlock 1), .mutex (.futexWakeOne 1 none)] = some s := ⟨_, rfl⟩
  have hr : (counterSystem (Fin 2)).Reachable s := Reachable.of_run rfl hs
  have hq : ∀ t, s.mutex.pc t = .outside := by
    obtain rfl := Option.some_inj.1 hs
    decide
  have hc : s.counter = 2 := by
    obtain rfl := Option.some_inj.1 hs
    rfl
  exact ⟨s, hr, hq, hc, (mutex_excludes_and_counts (Fin 2)).2 s hr hq⟩

end FutexMutex
