/-
**Every `Lock` and every `Unlock` of the futex mutex returns.**

Once no thread calls `Lock` anew, the threads that are inside get through, whatever the schedule: the
mutex has neither a deadlock nor a livelock.  The rank counts the exchanges of `0` that are still to
come, the wake-ups that are still to come, and for each thread in `Lock` how far it is from sleeping.  A
thread that has been woken for nothing can go to sleep again only after it has set the word to `2`, and
only an `Unlock` takes the word away from `2`.

Main definitions:

* `FutexMutex.Pc.unlocks`, `FutexMutex.State.depth` — the parts of the rank;
* `FutexMutex.finishing` — the steps where no thread calls `Lock` anew.

Main results:

* `FutexMutex.rank_step` — every step lowers the rank, apart from the spurious wake-ups;
* `FutexMutex.settled_outside` — threads that cannot go on are outside;
* `FutexMutex.calls_complete` — **every call completes**.
-/

import CppMultithreaded.Completion
import CppMultithreaded.Mutex
import CppMultithreaded.ThreadWeight
import Mathlib.Algebra.Module.Defs
import Mathlib.Tactic.Ring

set_option relaxedAutoImplicit false
set_option autoImplicit false

namespace FutexMutex

/-! ### The rank -/

/-- A thread has still to exchange the word by `0`. -/
def Pc.unlocks : Pc → ℕ
  | .compareExchange | .exchange | .futexWait | .asleep | .critical => 1
  | .outside | .wakeOne => 0

/-- A thread has still to call `FutexWakeOne`. -/
def Pc.wakes : Pc → ℕ
  | .wakeOne => 1
  | _ => 0

/-- How far a thread in `Lock` is from sleeping, where the word is `mtxState`. -/
def Pc.depth (mtxState : ℕ) : Pc → ℕ
  | .compareExchange => 5
  | .futexWait => if mtxState = 2 then 2 else 4
  | .exchange => 3
  | .asleep => 1
  | .outside | .critical | .wakeOne => 0

theorem Pc.depth_le (mtxState : ℕ) (p : Pc) : p.depth mtxState ≤ 5 := by
  cases p with
  | futexWait =>
      rw [Pc.depth]
      split_ifs <;> decide
  | _ => simp [Pc.depth]

/-- Where the word becomes `2` no thread is further from sleeping. -/
theorem Pc.depth_two_le (mtxState : ℕ) (p : Pc) : p.depth 2 ≤ p.depth mtxState := by
  cases p with
  | futexWait =>
      simp only [Pc.depth, if_true]
      split_ifs <;> decide
  | _ => exact le_rfl

/-- A word that is not `2` before and after. -/
theorem Pc.depth_of_ne_two {m m' : ℕ} (hm : m ≠ 2) (hm' : m' ≠ 2) (p : Pc) :
    p.depth m = p.depth m' := by
  cases p with
  | futexWait => simp only [Pc.depth, if_neg hm, if_neg hm']
  | _ => rfl

/-- Where the word changes, a thread gets further from sleeping by two steps at most. -/
theorem Pc.depth_le_add_two (m m' : ℕ) (p : Pc) : p.depth m ≤ p.depth m' + 2 := by
  cases p with
  | futexWait =>
      rw [Pc.depth, Pc.depth]
      split_ifs <;> simp
  | _ => exact Nat.le_add_right _ 2

variable {T : Type*} [DecidableEq T] [Fintype T]

/-- The rank of a state. -/
def State.rank (s : State T) : ℕ :=
  (2 * Fintype.card T + 4) * ∑ t, (s.pc t).unlocks + 3 * ∑ t, (s.pc t).wakes +
    ∑ t, (s.pc t).depth s.mtxState

omit [DecidableEq T] in
theorem State.rank_le (s : State T) :
    s.rank ≤ 2 * Fintype.card T ^ 2 + 12 * Fintype.card T := by
  have hunlocks : ∑ t, (s.pc t).unlocks ≤ Fintype.card T := by
    have hle := Finset.sum_le_card_nsmul Finset.univ (fun t => (s.pc t).unlocks) 1
      fun t _ => by cases s.pc t <;> decide
    simpa using hle
  have hwakes : ∑ t, (s.pc t).wakes ≤ Fintype.card T := by
    have hle := Finset.sum_le_card_nsmul Finset.univ (fun t => (s.pc t).wakes) 1
      fun t _ => by cases s.pc t <;> decide
    simpa using hle
  have hdepth : ∑ t, (s.pc t).depth s.mtxState ≤ Fintype.card T * 5 := by
    have hle := Finset.sum_le_card_nsmul Finset.univ (fun t => (s.pc t).depth s.mtxState) 5
      fun t _ => Pc.depth_le _ _
    simpa using hle
  have hmul := Nat.mul_le_mul_left (2 * Fintype.card T + 4) hunlocks
  calc s.rank ≤ (2 * Fintype.card T + 4) * Fintype.card T + 3 * Fintype.card T +
        Fintype.card T * 5 := by
        rw [State.rank]
        omega
    _ = 2 * Fintype.card T ^ 2 + 12 * Fintype.card T := by ring

section Moves

variable {s s' : State T} {t : T} {p : Pc} (hpc : s'.pc = Function.update s.pc t p)

include hpc

/-- The parts of the rank after a move of one thread. -/
theorem rank_update :
    ∃ unlocks wakes depth,
      s'.rank = (2 * Fintype.card T + 4) * unlocks + 3 * wakes + depth ∧
      unlocks + (s.pc t).unlocks = ∑ u, (s.pc u).unlocks + p.unlocks ∧
      wakes + (s.pc t).wakes = ∑ u, (s.pc u).wakes + p.wakes ∧
      depth + (s.pc t).depth s'.mtxState =
        ∑ u, (s.pc u).depth s'.mtxState + p.depth s'.mtxState := by
  refine ⟨_, _, _, rfl, ?_, ?_, ?_⟩
  · rw [hpc]
    exact ThreadWeight.sum_update Pc.unlocks s.pc t p
  · rw [hpc]
    exact ThreadWeight.sum_update Pc.wakes s.pc t p
  · rw [hpc]
    exact ThreadWeight.sum_update (Pc.depth s'.mtxState) s.pc t p

/-- A move of a thread inside of `Lock` to a program point that is closer to sleeping. -/
theorem rank_move (hunlocks : p.unlocks = (s.pc t).unlocks) (hwakes : p.wakes = (s.pc t).wakes)
    (hword : ∀ q : Pc, q.depth s'.mtxState ≤ q.depth s.mtxState)
    (hdepth : p.depth s'.mtxState < (s.pc t).depth s'.mtxState) : s'.rank + 1 ≤ s.rank := by
  obtain ⟨unlocks, wakes, depth, heq, hu, hw, hd⟩ := rank_update hpc
  have hsum : ∑ u, (s.pc u).depth s'.mtxState ≤ ∑ u, (s.pc u).depth s.mtxState :=
    Finset.sum_le_sum fun u _ => hword (s.pc u)
  have hsame : unlocks = ∑ u, (s.pc u).unlocks := by omega
  rw [heq, State.rank, hsame]
  omega

/-- The exchange by `0`. -/
theorem rank_unlock (ht : s.pc t = .critical) (hunlocks : p.unlocks = 0) (hwakes : p.wakes ≤ 1)
    (hdepth : p.depth s'.mtxState = 0) : s'.rank + 1 ≤ s.rank := by
  obtain ⟨unlocks, wakes, depth, heq, hu, hw, hd⟩ := rank_update hpc
  have hone : (s.pc t).unlocks = 1 := by rw [ht]; rfl
  have hsum : ∑ u, (s.pc u).depth s'.mtxState ≤
      ∑ u, (s.pc u).depth s.mtxState + 2 * Fintype.card T := by
    have hle : ∑ u, (s.pc u).depth s'.mtxState ≤ ∑ u, ((s.pc u).depth s.mtxState + 2) :=
      Finset.sum_le_sum fun u _ => Pc.depth_le_add_two _ _ (s.pc u)
    rw [Finset.sum_add_distrib, Finset.sum_const, Finset.card_univ, smul_eq_mul] at hle
    omega
  have hless : ∑ u, (s.pc u).unlocks = unlocks + 1 := by omega
  rw [heq, State.rank, hless, Nat.mul_add, Nat.mul_one]
  omega

end Moves

section Wake

variable {s : State T} {t : T}

/-- A wake-up takes a sleeper further from sleeping by two steps. -/
theorem rank_wake (ht : s.pc t = .asleep) : (s.goto t .exchange).rank = s.rank + 2 := by
  obtain ⟨unlocks, wakes, depth, heq, hu, hw, hd⟩ := rank_update (s.goto_pc t .exchange)
  rw [ht, show Pc.asleep.unlocks = 1 from rfl, show Pc.exchange.unlocks = 1 from rfl] at hu
  rw [ht, show Pc.asleep.wakes = 0 from rfl, show Pc.exchange.wakes = 0 from rfl] at hw
  rw [ht, s.goto_mtxState, show Pc.asleep.depth s.mtxState = 1 from rfl,
    show Pc.exchange.depth s.mtxState = 3 from rfl] at hd
  have hsame : unlocks = ∑ u, (s.pc u).unlocks := by omega
  rw [heq, State.rank, hsame]
  omega

/-- The call of `FutexWakeOne` is over. -/
theorem rank_awoken (ht : s.pc t = .wakeOne) : (s.goto t .outside).rank + 3 = s.rank := by
  obtain ⟨unlocks, wakes, depth, heq, hu, hw, hd⟩ := rank_update (s.goto_pc t .outside)
  rw [ht, show Pc.wakeOne.unlocks = 0 from rfl, show Pc.outside.unlocks = 0 from rfl] at hu
  rw [ht, show Pc.wakeOne.wakes = 1 from rfl, show Pc.outside.wakes = 0 from rfl] at hw
  rw [ht, s.goto_mtxState, show Pc.wakeOne.depth s.mtxState = 0 from rfl,
    show Pc.outside.depth s.mtxState = 0 from rfl] at hd
  have hsame : unlocks = ∑ u, (s.pc u).unlocks := by omega
  rw [heq, State.rank, hsame]
  omega

end Wake

/-! ### No thread calls `Lock` anew -/

/-- The step is no call of `Lock`. -/
def Action.goesOn : Action T → Bool
  | .lock _ => false
  | _ => true

/-- The step is a spurious wake-up. -/
def Action.spurious : Action T → Bool
  | .spuriousWakeup _ => true
  | _ => false

/-- The mutex, where no thread calls `Lock` anew. -/
def finishing (T : Type*) [DecidableEq T] [Fintype T] : Automaton (State T) (Action T) :=
  (system T).restrict fun _ a => a.goesOn = true

/-- **Every step lowers the rank**, apart from the spurious wake-ups. -/
theorem rank_step {s s' : State T} {a : Action T} (h : (finishing T).step s a = some s') :
    s'.rank + 1 ≤ s.rank + if a.spurious then 3 else 0 := by
  obtain ⟨hgoes, hs⟩ := Automaton.restrict_step_eq_some.1 h
  cases a with
  | lock t => simp [Action.goesOn] at hgoes
  | compareExchange t =>
      refine le_trans ?_ (Nat.le_add_right _ _)
      simp only [system, step, Option.ite_none_right_eq_some, Option.some.injEq] at hs
      obtain ⟨ht, rfl⟩ := hs
      unfold lockCompareExchange
      split_ifs with h0 h2
      · refine rank_move (t := t) rfl (by rw [ht]; rfl) (by rw [ht]; rfl) ?_ (by simp [ht, Pc.depth])
        intro q
        rw [h0]
        have heq : q.depth 1 = q.depth 0 := Pc.depth_of_ne_two (by decide) (by decide) q
        exact heq.le
      · exact rank_move (t := t) rfl (by rw [ht]; rfl) (by rw [ht]; rfl) (fun _ => le_rfl)
          (by simp [ht, Pc.depth])
      · exact rank_move (t := t) rfl (by rw [ht]; rfl) (by rw [ht]; rfl) (fun _ => le_rfl)
          (by simp [ht, Pc.depth, not_not.1 h2])
  | exchange t =>
      refine le_trans ?_ (Nat.le_add_right _ _)
      simp only [system, step, Option.ite_none_right_eq_some, Option.some.injEq] at hs
      obtain ⟨ht, rfl⟩ := hs
      unfold lockExchange
      split_ifs with h0
      · exact rank_move (t := t) rfl (by rw [ht]; rfl) (by rw [ht]; rfl) (Pc.depth_two_le _)
          (by simp [ht, Pc.depth])
      · exact rank_move (t := t) rfl (by rw [ht]; rfl) (by rw [ht]; rfl) (Pc.depth_two_le _)
          (by simp [ht, Pc.depth])
  | futexWait t =>
      refine le_trans ?_ (Nat.le_add_right _ _)
      simp only [system, step, Option.ite_none_right_eq_some, Option.some.injEq] at hs
      obtain ⟨ht, rfl⟩ := hs
      unfold futexWait
      split_ifs with h2
      · exact rank_move (t := t) rfl (by rw [ht]; rfl) (by rw [ht]; rfl) (fun _ => le_rfl)
          (by simp [ht, Pc.depth, h2])
      · exact rank_move (t := t) rfl (by rw [ht]; rfl) (by rw [ht]; rfl) (fun _ => le_rfl)
          (by simp [ht, Pc.depth, h2])
  | spuriousWakeup t =>
      simp only [system, step, Option.ite_none_right_eq_some, Option.some.injEq] at hs
      obtain ⟨ht, rfl⟩ := hs
      have hrank := rank_wake ht
      rw [show (Action.spuriousWakeup t).spurious = true from rfl, if_pos rfl]
      omega
  | unlock t =>
      refine le_trans ?_ (Nat.le_add_right _ _)
      simp only [system, step, Option.ite_none_right_eq_some, Option.some.injEq] at hs
      obtain ⟨ht, rfl⟩ := hs
      unfold unlockExchange
      split_ifs with h2
      · exact rank_unlock rfl ht rfl le_rfl rfl
      · exact rank_unlock rfl ht rfl (Nat.zero_le 1) rfl
  | futexWakeOne t w =>
      refine le_trans ?_ (Nat.le_add_right _ _)
      simp only [system, step, Option.ite_none_right_eq_some] at hs
      obtain ⟨ht, hw⟩ := hs
      rcases futexWakeOne_eq_some hw with ⟨u, hu, rfl⟩ | ⟨-, rfl⟩
      · -- one wake-up less is still to come, and one sleeper is awake
        have hne : t ≠ u := by
          rintro rfl
          simp [ht] at hu
        have hwoken := rank_wake hu
        have hdone := rank_awoken (s := s.goto u .exchange) (t := t) (by simp [hne, ht])
        omega
      · have hdone := rank_awoken ht
        omega

/-! ### Completion -/

/-- A thread inside of `Lock` or `Unlock`, or in its critical section, can go on, unless it sleeps. -/
theorem exists_step {s : State T} {t : T} (hout : s.pc t ≠ .outside) (hsleep : s.pc t ≠ .asleep) :
    ∃ a : Action T, a.spurious = false ∧ (finishing T).step s a ≠ none := by
  have hstep : ∀ a : Action T, a.goesOn = true → step s a ≠ none →
      (finishing T).step s a ≠ none := by
    intro a ha hne
    obtain ⟨s', hs'⟩ := Option.ne_none_iff_exists'.1 hne
    rw [show (finishing T).step s a = some s' from Automaton.restrict_step_eq_some.2 ⟨ha, hs'⟩]
    exact Option.some_ne_none s'
  cases hp : s.pc t with
  | outside => exact absurd hp hout
  | asleep => exact absurd hp hsleep
  | compareExchange => exact ⟨.compareExchange t, rfl, hstep _ rfl (by simp [step, hp])⟩
  | exchange => exact ⟨.exchange t, rfl, hstep _ rfl (by simp [step, hp])⟩
  | futexWait => exact ⟨.futexWait t, rfl, hstep _ rfl (by simp [step, hp])⟩
  | critical => exact ⟨.unlock t, rfl, hstep _ rfl (by simp [step, hp])⟩
  | wakeOne =>
      by_cases hasleep : ∃ u, s.pc u = .asleep
      · obtain ⟨u, hu⟩ := hasleep
        exact ⟨.futexWakeOne t (some u), rfl, hstep _ rfl (by simp [step, hp, futexWakeOne, hu])⟩
      · refine ⟨.futexWakeOne t none, rfl, hstep _ rfl ?_⟩
        simp [step, hp, futexWakeOne, not_exists.1 hasleep]

/-- **Threads that cannot go on are outside**: a sleeper is owed a wake-up. -/
theorem settled_outside {s : State T} (hr : (system T).Reachable s)
    (hs : (finishing T).Settled Action.spurious s) : s.mtxState = 0 ∧ ∀ t, s.pc t = .outside := by
  have hmove : ∀ t, s.pc t = .outside ∨ s.pc t = .asleep := by
    intro t
    by_contra hne
    obtain ⟨hout, hsleep⟩ := not_or.1 hne
    obtain ⟨a, ha, hstep⟩ := exists_step hout hsleep
    exact hstep (hs a ha)
  have hfree : s.mtxState = 0 := by
    by_contra hne
    obtain ⟨t, ht⟩ := (exclusive_of_reachable hr).held.1 hne
    rcases hmove t with hm | hm <;> simp [ht] at hm
  refine ⟨hfree, ?_⟩
  intro t
  refine (hmove t).resolve_right ?_
  intro ht
  rcases sleepersWoken_of_reachable hr ⟨t, ht⟩ with h2 | ⟨u, hu⟩ | ⟨u, hu⟩
  · omega
  · rcases hmove u with hm | hm <;> simp [hu] at hm
  · rcases hmove u with hm | hm <;> simp [hu] at hm

/-- **Every call completes**: where no thread calls `Lock` anew, a run has at most `2 n² + 12 n` steps
for `n` threads, and three more for each spurious wake-up; and it can be continued until every thread is
outside and the mutex is free. -/
theorem calls_complete {s : State T} (hr : (system T).Reachable s) :
    (finishing T).CompletesWithin Action.spurious 3 (2 * Fintype.card T ^ 2 + 12 * Fintype.card T)
      (fun t => t.mtxState = 0 ∧ ∀ u, t.pc u = .outside) s := by
  refine Automaton.CompletesWithin.of_rank (I := (system T).Reachable) State.rank ?_ ?_ hr s.rank_le
  · intro s a s' hr hs
    exact ⟨Automaton.Reachable.step a hr (Automaton.restrict_step_eq_some.1 hs).2, rank_step hs⟩
  · intro s hr hs
    exact settled_outside hr hs

/-- Thread `0` is in its critical section and thread `1` sleeps: a few steps later both are outside. -/
theorem calls_complete_two_threads :
    ∃ s : State (Fin 2), (system (Fin 2)).Reachable s ∧ s.pc 0 = .critical ∧ s.pc 1 = .asleep ∧
      (finishing (Fin 2)).CompletesWithin Action.spurious 3
        (2 * Fintype.card (Fin 2) ^ 2 + 12 * Fintype.card (Fin 2))
        (fun t => t.mtxState = 0 ∧ ∀ u, t.pc u = .outside) s := by
  obtain ⟨s, hs⟩ : ∃ s, (system (Fin 2)).run initial
      [.lock 0, .compareExchange 0, .lock 1, .compareExchange 1, .exchange 1, .futexWait 1] =
        some s := ⟨_, rfl⟩
  have hr : (system (Fin 2)).Reachable s := Automaton.Reachable.of_run rfl hs
  have hpc : s.pc 0 = .critical ∧ s.pc 1 = .asleep := by
    obtain rfl := Option.some_inj.1 hs
    exact ⟨rfl, rfl⟩
  exact ⟨s, hr, hpc.1, hpc.2, calls_complete hr⟩

end FutexMutex
