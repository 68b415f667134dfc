/-
**The futex mutex of hw-4.**

`Mutex::Lock` and `Mutex::Unlock` are modelled as the sequence of their atomic operations on
`mtx_state`: the compare-and-exchange of `0` by `1`, the two exchanges of `2`, the exchange of `0`,
and the two futex calls.  Any number of threads run any sequence of `Lock(); …; Unlock()`.

`FutexWait` compares `mtx_state` with its argument and puts the caller to sleep only if they are
equal; a sleeper may wake up spuriously.  `FutexWakeOne` wakes one sleeper, if there is any.

Main definitions:

* `FutexMutex.Pc`, `FutexMutex.State`, `FutexMutex.Action` — the program points of a thread, the
  states and the atomic steps;
* `FutexMutex.lockCompareExchange`, `FutexMutex.lockExchange`, `FutexMutex.unlockExchange`,
  `FutexMutex.futexWait` — the operations of the source;
* `FutexMutex.system` — the automaton;
* `FutexMutex.Exclusive` — the invariant behind mutual exclusion;
* `FutexMutex.WakeDue` — somebody is going to wake a sleeper or to take the lock with `2`.

Main results:

* `FutexMutex.exclusive_of_reachable` — at most one thread is in its critical section, and
  `mtx_state` is non-zero exactly when there is one;
* `FutexMutex.no_lost_wakeup` — **no wake-up is lost**.
-/

import CppMultithreaded.Automaton
import Mathlib.Data.Fintype.Basic

set_option relaxedAutoImplicit false
set_option autoImplicit false

namespace FutexMutex

/-! ### States and steps -/

/-- The program points of a thread. -/
inductive Pc
  /-- Not in `Lock`, not in `Unlock`, and not holding the mutex. -/
  | outside
  /-- In `Lock`, about to exchange `0` by `1`. -/
  | compareExchange
  /-- In `Lock`, about to exchange the state by `2`: either after the failed compare-and-exchange,
  or after `FutexWait`.  The loop test follows in both places. -/
  | exchange
  /-- In `Lock`, about to call `FutexWait(&mtx_state, 2)`. -/
  | futexWait
  /-- In `Lock`, asleep inside `FutexWait`. -/
  | asleep
  /-- `Lock` has returned and `Unlock` has not yet exchanged the state by `0`. -/
  | critical
  /-- In `Unlock`, which has read `2`, about to call `FutexWakeOne`. -/
  | wakeOne
  deriving DecidableEq, Repr

/-- The mutex word and the program point of every thread. -/
structure State (T : Type*) where
  /-- The word: `0` is free, `1` is captured without competition, `2` is captured with
  competition. -/
  mtxState : ℕ
  /-- The program points. -/
  pc : T → Pc

/-- The atomic steps. -/
inductive Action (T : Type*)
  | lock (t : T)
  | compareExchange (t : T)
  | exchange (t : T)
  | futexWait (t : T)
  | spuriousWakeup (t : T)
  | unlock (t : T)
  | futexWakeOne (t : T) (woken : Option T)

variable {T : Type*} [DecidableEq T]

/-- Thread `t` moves to the program point `p`. -/
def State.goto (s : State T) (t : T) (p : Pc) : State T :=
  { s with pc := Function.update s.pc t p }

@[simp] theorem State.goto_mtxState (s : State T) (t : T) (p : Pc) :
    (s.goto t p).mtxState = s.mtxState := rfl

@[simp] theorem State.goto_pc (s : State T) (t : T) (p : Pc) :
    (s.goto t p).pc = Function.update s.pc t p := rfl

/-- The compare-and-exchange at the start of `Lock`.  When it fails, `expected` holds the value
found; the exchange is skipped when that is already `2`. -/
def lockCompareExchange (s : State T) (t : T) : State T :=
  if s.mtxState = 0 then { s.goto t .critical with mtxState := 1 }
  else if s.mtxState ≠ 2 then s.goto t .exchange
  else s.goto t .futexWait

/-- The exchange by `2` in `Lock`, and the loop test on the value it returns. -/
def lockExchange (s : State T) (t : T) : State T :=
  if s.mtxState ≠ 0 then { s.goto t .futexWait with mtxState := 2 }
  else { s.goto t .critical with mtxState := 2 }

/-- The call `FutexWait(&mtx_state, 2)`: sleep if the word is `2`, else return at once. -/
def futexWait (s : State T) (t : T) : State T :=
  if s.mtxState = 2 then s.goto t .asleep else s.goto t .exchange

/-- The exchange by `0` in `Unlock`, and the test on the value it returns. -/
def unlockExchange (s : State T) (t : T) : State T :=
  if s.mtxState = 2 then { s.goto t .wakeOne with mtxState := 0 }
  else { s.goto t .outside with mtxState := 0 }

variable [Fintype T]

/-- The call `FutexWakeOne(&mtx_state)`: one sleeper is woken, if there is any. -/
def futexWakeOne (s : State T) (t : T) : Option T → Option (State T)
  | some u => if s.pc u = .asleep then some ((s.goto u .exchange).goto t .outside) else none
  | none => if ∀ u, s.pc u ≠ .asleep then some (s.goto t .outside) else none

/-- The step function. -/
def step (s : State T) : Action T → Option (State T)
  | .lock t => if s.pc t = .outside then some (s.goto t .compareExchange) else none
  | .compareExchange t =>
      if s.pc t = .compareExchange then some (lockCompareExchange s t) else none
  | .exchange t => if s.pc t = .exchange then some (lockExchange s t) else none
  | .futexWait t => if s.pc t = .futexWait then some (futexWait s t) else none
  | .spuriousWakeup t => if s.pc t = .asleep then some (s.goto t .exchange) else none
  | .unlock t => if s.pc t = .critical then some (unlockExchange s t) else none
  | .futexWakeOne t w => if s.pc t = .wakeOne then futexWakeOne s t w else none

/-- The free mutex, with every thread outside. -/
def initial : State T := { mtxState := 0, pc := fun _ => .outside }

/-- The automaton of the mutex, for the threads `T`. -/
def system (T : Type*) [DecidableEq T] [Fintype T] : Automaton (State T) (Action T) where
  init s := s = initial
  step := step

theorem futexWakeOne_eq_some {s s' : State T} {t : T} {w : Option T}
    (h : futexWakeOne s t w = some s') :
    (∃ u, s.pc u = .asleep ∧ s' = (s.goto u .exchange).goto t .outside) ∨
      ((∀ u, s.pc u ≠ .asleep) ∧ s' = s.goto t .outside) := by
  cases w with
  | some u =>
      simp only [futexWakeOne, Option.ite_none_right_eq_some, Option.some.injEq] at h
      exact Or.inl ⟨u, h.1, h.2.symm⟩
  | none =>
      simp only [futexWakeOne, Option.ite_none_right_eq_some, Option.some.injEq] at h
      exact Or.inr ⟨h.1, h.2.symm⟩

/-! ### Mutual exclusion -/

/-- The invariant behind mutual exclusion. -/
structure Exclusive (s : State T) : Prop where
  /-- Two threads in their critical sections are the same thread. -/
  unique : ∀ t u, s.pc t = .critical → s.pc u = .critical → t = u
  /-- The word is non-zero exactly when some thread is in its critical section. -/
  held : s.mtxState ≠ 0 ↔ ∃ t, s.pc t = .critical

omit [Fintype T] in
/-- A move outside the critical section, which leaves the word zero or non-zero as it was. -/
theorem Exclusive.move {s : State T} (h : Exclusive s) {t : T} {p : Pc} {m : ℕ}
    (ht : s.pc t ≠ .critical) (hp : p ≠ .critical) (hm : m ≠ 0 ↔ s.mtxState ≠ 0) :
    Exclusive { s.goto t p with mtxState := m } := by
  have hpc : ∀ u, Function.update s.pc t p u = .critical ↔ s.pc u = .critical := by
    intro u
    by_cases hu : u = t
    · subst hu
      simp [hp, ht]
    · simp [hu]
  constructor
  · intro u v hu hv
    exact h.unique u v ((hpc u).1 hu) ((hpc v).1 hv)
  · simp only [State.goto_pc, hpc, hm, h.held]

omit [Fintype T] in
/-- Taking the free mutex. -/
theorem Exclusive.acquire {s : State T} (h : Exclusive s) {t : T} {m : ℕ}
    (h0 : s.mtxState = 0) (hm : m ≠ 0) :
    Exclusive { s.goto t .critical with mtxState := m } := by
  have hfree : ∀ u, s.pc u ≠ .critical := by
    intro u hu
    exact h.held.2 ⟨u, hu⟩ h0
  have hpc : ∀ u, Function.update s.pc t .critical u = .critical → u = t := by
    intro u hu
    by_contra hne
    rw [Function.update_of_ne hne] at hu
    exact hfree u hu
  constructor
  · intro u v hu hv
    rw [hpc u hu, hpc v hv]
  · exact iff_of_true hm ⟨t, by simp⟩

omit [Fintype T] in
/-- Leaving the critical section. -/
theorem Exclusive.release {s : State T} (h : Exclusive s) {t : T} {p : Pc}
    (ht : s.pc t = .critical) (hp : p ≠ .critical) :
    Exclusive { s.goto t p with mtxState := 0 } := by
  have hpc : ∀ u, Function.update s.pc t p u ≠ .critical := by
    intro u hu
    by_cases hut : u = t
    · subst hut
      rw [Function.update_self] at hu
      exact hp hu
    · rw [Function.update_of_ne hut] at hu
      exact hut (h.unique u t hu ht)
  constructor
  · intro u v hu _
    exact absurd hu (hpc u)
  · simp [hpc]

/-- Every step keeps mutual exclusion. -/
theorem Exclusive.step {s s' : State T} {a : Action T} (h : Exclusive s)
    (hs : step s a = some s') : Exclusive s' := by
  cases a with
  | lock t =>
      simp only [FutexMutex.step, Option.ite_none_right_eq_some, Option.some.injEq] at hs
      obtain ⟨ht, rfl⟩ := hs
      exact h.move (by simp [ht]) (by decide) Iff.rfl
  | compareExchange t =>
      simp only [FutexMutex.step, Option.ite_none_right_eq_some, Option.some.injEq] at hs
      obtain ⟨ht, rfl⟩ := hs
      unfold lockCompareExchange
      split_ifs with h0 h2
      · exact h.acquire h0 (by decide)
      · exact h.move (by simp [ht]) (by decide) Iff.rfl
      · exact h.move (by simp [ht]) (by decide) Iff.rfl
  | exchange t =>
      simp only [FutexMutex.step, Option.ite_none_right_eq_some, Option.some.injEq] at hs
      obtain ⟨ht, rfl⟩ := hs
      unfold lockExchange
      split_ifs with h0
      · exact h.move (by simp [ht]) (by decide) (iff_of_true (by decide) h0)
      · exact h.acquire (not_not.1 h0) (by decide)
  | futexWait t =>
      simp only [FutexMutex.step, Option.ite_none_right_eq_some, Option.some.injEq] at hs
      obtain ⟨ht, rfl⟩ := hs
      unfold futexWait
      split_ifs with h2
      · exact h.move (by simp [ht]) (by decide) Iff.rfl
      · exact h.move (by simp [ht]) (by decide) Iff.rfl
  | spuriousWakeup t =>
      simp only [FutexMutex.step, Option.ite_none_right_eq_some, Option.some.injEq] at hs
      obtain ⟨ht, rfl⟩ := hs
      exact h.move (by simp [ht]) (by decide) Iff.rfl
  | unlock t =>
      simp only [FutexMutex.step, Option.ite_none_right_eq_some, Option.some.injEq] at hs
      obtain ⟨ht, rfl⟩ := hs
      unfold unlockExchange
      split_ifs with h2
      · exact h.release ht (by decide)
      · exact h.release ht (by decide)
  | futexWakeOne t w =>
      simp only [FutexMutex.step, Option.ite_none_right_eq_some] at hs
      obtain ⟨ht, hw⟩ := hs
      rcases futexWakeOne_eq_some hw with ⟨u, hu, rfl⟩ | ⟨-, rfl⟩
      · have hwoken : Exclusive (s.goto u .exchange) :=
          h.move (by simp [hu]) (by decide) Iff.rfl
        have hne : t ≠ u := by
          rintro rfl
          simp [ht] at hu
        exact hwoken.move (by simp [hne, ht]) (by decide) Iff.rfl
      · exact h.move (by simp [ht]) (by decide) Iff.rfl

omit [DecidableEq T] [Fintype T] in
theorem exclusive_initial : Exclusive (initial : State T) := by
  constructor <;> simp [initial]

/-- **Mutual exclusion.** -/
theorem exclusive_of_reachable {s : State T} (h : (system T).Reachable s) : Exclusive s := by
  refine h.invariant ?_ ?_
  · rintro s rfl
    exact exclusive_initial
  · intro s a s' _ hI hs
    exact hI.step hs

/-! ### No lost wake-up -/

/-- Somebody is going to wake a sleeper, or to take the lock with `2`: the word is `2`, so that the
holder's `Unlock` will read `2`; or a thread in `Unlock` has read `2`; or an awake thread in `Lock`
is about to exchange the word by `2`. -/
def WakeDue (s : State T) : Prop :=
  s.mtxState = 2 ∨ (∃ t, s.pc t = .wakeOne) ∨ ∃ t, s.pc t = .exchange

omit [Fintype T] [DecidableEq T] in
theorem WakeDue.of_two {s : State T} (h : s.mtxState = 2) : WakeDue s := Or.inl h

omit [Fintype T] [DecidableEq T] in
theorem WakeDue.of_wakeOne {s : State T} {t : T} (h : s.pc t = .wakeOne) : WakeDue s :=
  Or.inr (Or.inl ⟨t, h⟩)

omit [Fintype T] [DecidableEq T] in
theorem WakeDue.of_exchange {s : State T} {t : T} (h : s.pc t = .exchange) : WakeDue s :=
  Or.inr (Or.inr ⟨t, h⟩)

/-- The invariant: while some thread sleeps, a wake-up is due. -/
def SleepersWoken (s : State T) : Prop := (∃ t, s.pc t = .asleep) → WakeDue s

omit [Fintype T] in
/-- A move of a thread that is neither about to wake nor about to exchange, and that neither falls
asleep nor takes the word away from `2`. -/
theorem SleepersWoken.move {s : State T} (h : SleepersWoken s) {t : T} {p : Pc} {m : ℕ}
    (hw : s.pc t ≠ .wakeOne) (he : s.pc t ≠ .exchange) (hp : p ≠ .asleep)
    (hm : s.mtxState = 2 → m = 2) : SleepersWoken { s.goto t p with mtxState := m } := by
  rintro ⟨u, hu⟩
  have hu' : s.pc u = .asleep := by
    by_cases hut : u = t
    · subst hut
      simp only [State.goto_pc, Function.update_self] at hu
      exact absurd hu hp
    · simpa [hut] using hu
  have hother : ∀ {v : T} {q : Pc}, s.pc t ≠ q → s.pc v = q → Function.update s.pc t p v = q := by
    intro v q hq hv
    have hvt : v ≠ t := by
      rintro rfl
      exact hq hv
    rw [Function.update_of_ne hvt, hv]
  rcases h ⟨u, hu'⟩ with h2 | ⟨v, hv⟩ | ⟨v, hv⟩
  · exact WakeDue.of_two (hm h2)
  · exact WakeDue.of_wakeOne (t := v) (hother hw hv)
  · exact WakeDue.of_exchange (t := v) (hother he hv)

/-- Every step keeps the law. -/
theorem SleepersWoken.step {s s' : State T} {a : Action T} (h : SleepersWoken s)
    (hs : step s a = some s') : SleepersWoken s' := by
  cases a with
  | lock t =>
      simp only [FutexMutex.step, Option.ite_none_right_eq_some, Option.some.injEq] at hs
      obtain ⟨ht, rfl⟩ := hs
      exact h.move (by simp [ht]) (by simp [ht]) (by decide) id
  | compareExchange t =>
      simp only [FutexMutex.step, Option.ite_none_right_eq_some, Option.some.injEq] at hs
      obtain ⟨ht, rfl⟩ := hs
      unfold lockCompareExchange
      split_ifs with h0 h2
      · -- the word goes from `0` to `1`: whoever was due to act still is
        refine h.move (by simp [ht]) (by simp [ht]) (by decide) ?_
        intro h2
        omega
      · exact h.move (by simp [ht]) (by simp [ht]) (by decide) id
      · exact h.move (by simp [ht]) (by simp [ht]) (by decide) id
  | exchange t =>
      simp only [FutexMutex.step, Option.ite_none_right_eq_some, Option.some.injEq] at hs
      obtain ⟨ht, rfl⟩ := hs
      unfold lockExchange
      split_ifs with h0
      · exact fun _ => WakeDue.of_two rfl
      · exact fun _ => WakeDue.of_two rfl
  | futexWait t =>
      simp only [FutexMutex.step, Option.ite_none_right_eq_some, Option.some.injEq] at hs
      obtain ⟨ht, rfl⟩ := hs
      unfold futexWait
      split_ifs with h2
      · exact fun _ => WakeDue.of_two h2
      · exact fun _ => WakeDue.of_exchange (t := t) (by simp)
  | spuriousWakeup t =>
      simp only [FutexMutex.step, Option.ite_none_right_eq_some, Option.some.injEq] at hs
      obtain ⟨ht, rfl⟩ := hs
      exact fun _ => WakeDue.of_exchange (t := t) (by simp)
  | unlock t =>
      simp only [FutexMutex.step, Option.ite_none_right_eq_some, Option.some.injEq] at hs
      obtain ⟨ht, rfl⟩ := hs
      unfold unlockExchange
      split_ifs with h2
      · exact fun _ => WakeDue.of_wakeOne (t := t) (by simp)
      · refine h.move (by simp [ht]) (by simp [ht]) (by decide) ?_
        intro h2'
        exact absurd h2' h2
  | futexWakeOne t w =>
      simp only [FutexMutex.step, Option.ite_none_right_eq_some] at hs
      obtain ⟨ht, hw⟩ := hs
      rcases futexWakeOne_eq_some hw with ⟨u, hu, rfl⟩ | ⟨hnone, rfl⟩
      · -- the thread woken is about to exchange the word by `2`
        have hne : u ≠ t := by
          rintro rfl
          simp [ht] at hu
        exact fun _ => WakeDue.of_exchange (t := u) (by simp [hne])
      · rintro ⟨u, hu⟩
        by_cases hut : u = t
        · subst hut
          simp at hu
        · simp only [State.goto_pc, Function.update_of_ne hut] at hu
          exact absurd hu (hnone u)

theorem sleepersWoken_of_reachable {s : State T} (h : (system T).Reachable s) :
    SleepersWoken s := by
  refine h.invariant ?_ ?_
  · rintro s rfl ⟨t, ht⟩
    simp [initial] at ht
  · intro s a s' _ hI hs
    exact hI.step hs

omit [Fintype T] in
/-- The exchange by `0` of a holder that finds `2` goes on to `FutexWakeOne`. -/
theorem unlockExchange_two {s : State T} {t : T} (h : s.mtxState = 2) :
    (unlockExchange s t).pc t = .wakeOne := by
  simp [unlockExchange, h]

/-- **No wake-up is lost.**  While a thread sleeps in `FutexWait`, either the word is `2` and there
is a holder, whose `Unlock` will go on to `FutexWakeOne`; or a thread in `Unlock` has read `2` and
has not yet called `FutexWakeOne`; or an awake thread in `Lock` is about to exchange the word by
`2`.  In particular, while the mutex is free one of the last two holds. -/
theorem no_lost_wakeup {s : State T} (h : (system T).Reachable s) {t : T}
    (ht : s.pc t = .asleep) :
    ((s.mtxState = 2 ∧ ∃ u, s.pc u = .critical ∧ (unlockExchange s u).pc u = .wakeOne) ∨
        (∃ u, s.pc u = .wakeOne) ∨ ∃ u, s.pc u = .exchange) ∧
      ¬ (s.mtxState = 0 ∧ ∀ u, s.pc u ≠ .wakeOne ∧ s.pc u ≠ .exchange) := by
  have hdue : WakeDue s := sleepersWoken_of_reachable h ⟨t, ht⟩
  constructor
  · rcases hdue with h2 | hrest
    · obtain ⟨u, hu⟩ := (exclusive_of_reachable h).held.1 (by omega)
      exact Or.inl ⟨h2, u, hu, unlockExchange_two h2⟩
    · exact Or.inr hrest
  · rintro ⟨h0, hnone⟩
    rcases hdue with h2 | ⟨u, hu⟩ | ⟨u, hu⟩
    · omega
    · exact (hnone u).1 hu
    · exact (hnone u).2 hu

/-- Thread `0` holds the mutex and thread `1` sleeps: the word is `2`. -/
theorem no_lost_wakeup_two_threads :
    ∃ s : State (Fin 2), (system (Fin 2)).Reachable s ∧ s.pc 1 = .asleep ∧
      (((s.mtxState = 2 ∧ ∃ u, s.pc u = .critical ∧ (unlockExchange s u).pc u = .wakeOne) ∨
          (∃ u, s.pc u = .wakeOne) ∨ ∃ u, s.pc u = .exchange) ∧
        ¬ (s.mtxState = 0 ∧ ∀ u, s.pc u ≠ .wakeOne ∧ s.pc u ≠ .exchange)) := by
  obtain ⟨s, hs⟩ : ∃ s, (system (Fin 2)).run initial
      [.lock 0, .compareExchange 0, .lock 1, .compareExchange 1, .exchange 1, .futexWait 1] =
        some s := ⟨_, rfl⟩
  have hr : (system (Fin 2)).Reachable s := Automaton.Reachable.of_run rfl hs
  have ht : s.pc 1 = .asleep := by
    obtain rfl := Option.some_inj.1 hs
    rfl
  exact ⟨s, hr, ht, no_lost_wakeup hr ht⟩

end FutexMutex
