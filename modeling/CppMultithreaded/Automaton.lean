/-
**Labelled automata: reachability, invariants, executable runs and simulation.**

Every concurrent component of the repository is modelled as an automaton: a set of initial states
and a partial step function, whose label resolves the nondeterminism (which thread moves, whether
a weak compare-and-exchange fails spuriously, which sleeper a notification wakes).  The step
function is executable, so a concrete interleaving is a list of labels that can be run.

Nothing in this module refers to a particular program.

Main definitions:

* `Automaton`, `Automaton.Reachable`, `Automaton.Steps` — an automaton, its reachable states, and
  its runs from a given state;
* `Automaton.run` — running a list of labels;
* `Automaton.restrict` — the automaton whose steps moreover satisfy a guard;
* `Automaton.Simulation` — a functional simulation between two automata.

Main results:

* `Automaton.Reachable.invariant` — **the invariant rule**: what holds initially and is kept by
  every step of a reachable state holds of every reachable state;
* `Automaton.Steps.stable` — what every step keeps, every run keeps;
* `Automaton.Reachable.of_run` — a successful run reaches its last state;
* `Automaton.Steps.exists_of_rank`, `Automaton.length_run_le` — termination by a rank;
* `Automaton.Reachable.of_restrict` — restricting the steps only removes reachable states;
* `Automaton.Simulation.reachable` — a simulation maps reachable states to reachable states.
-/

import Mathlib.Logic.Relation
import Mathlib.Tactic.Common

set_option relaxedAutoImplicit false
set_option autoImplicit false

/-- An automaton with states `σ` and labels `α`: its initial states, and its step function, which
is `none` where the label is not enabled. -/
structure Automaton (σ α : Type*) where
  /-- The initial states. -/
  init : σ → Prop
  /-- The step function. -/
  step : σ → α → Option σ

namespace Automaton

variable {σ α τ β : Type*}

/-! ### Reachability -/

/-- The states that some run from an initial state reaches. -/
inductive Reachable (A : Automaton σ α) : σ → Prop
  | init {s : σ} : A.init s → Reachable A s
  | step {s s' : σ} (a : α) : Reachable A s → A.step s a = some s' → Reachable A s'

/-- The state `s'` is reached from `s` by zero or more steps. -/
inductive Steps (A : Automaton σ α) (s : σ) : σ → Prop
  | refl : Steps A s s
  | tail {t u : σ} (a : α) : Steps A s t → A.step t a = some u → Steps A s u

variable {A : Automaton σ α}

/-- **The invariant rule.**  The step premise may use that the state is reachable, so invariants
can be proved one after the other. -/
theorem Reachable.invariant {I : σ → Prop} (hinit : ∀ s, A.init s → I s)
    (hstep : ∀ s a s', A.Reachable s → I s → A.step s a = some s' → I s') {s : σ}
    (h : A.Reachable s) : I s := by
  induction h with
  | init hs => exact hinit _ hs
  | step a hr hs ih => exact hstep _ a _ hr ih hs

theorem Steps.single {s s' : σ} {a : α} (h : A.step s a = some s') : A.Steps s s' :=
  Steps.tail a Steps.refl h

theorem Steps.trans {s t u : σ} (h : A.Steps s t) (h' : A.Steps t u) : A.Steps s u := by
  induction h' with
  | refl => exact h
  | tail a _ hs ih => exact Steps.tail a ih hs

/-- What is reached from a reachable state is reachable. -/
theorem Reachable.steps {s s' : σ} (h : A.Reachable s) (hs : A.Steps s s') : A.Reachable s' := by
  induction hs with
  | refl => exact h
  | tail a _ hstep ih => exact Reachable.step a ih hstep

/-- **The stability rule**: a property that every step of a reachable state keeps is kept by every
run from a reachable state. -/
theorem Steps.stable {P : σ → Prop}
    (hstep : ∀ s a s', A.Reachable s → P s → A.step s a = some s' → P s') {s s' : σ}
    (h : A.Reachable s) (hs : A.Steps s s') (hP : P s) : P s' := by
  induction hs with
  | refl => exact hP
  | tail a hst hstep' ih => exact hstep _ a _ (h.steps hst) ih hstep'

/-! ### Runs -/

/-- Running a list of labels from a state. -/
def run (A : Automaton σ α) (s : σ) : List α → Option σ
  | [] => some s
  | a :: as => (A.step s a).bind fun t => run A t as

theorem run_append (A : Automaton σ α) (s : σ) (as bs : List α) :
    A.run s (as ++ bs) = (A.run s as).bind fun t => A.run t bs := by
  induction as generalizing s with
  | nil => rfl
  | cons a as ih =>
      rw [List.cons_append, run, run, Option.bind_assoc]
      exact congrArg _ (funext ih)

theorem Steps.of_run {as : List α} : ∀ {s s' : σ}, A.run s as = some s' → A.Steps s s' := by
  induction as with
  | nil =>
      intro s s' h
      simp only [run, Option.some.injEq] at h
      subst h
      exact Steps.refl
  | cons a as ih =>
      intro s s' h
      obtain ⟨t, hst, hrun⟩ := Option.bind_eq_some_iff.1 h
      exact (Steps.single hst).trans (ih hrun)

/-- A successful run from an initial state reaches its last state. -/
theorem Reachable.of_run {as : List α} {s s' : σ} (hs : A.init s) (h : A.run s as = some s') :
    A.Reachable s' :=
  (Reachable.init hs).steps (Steps.of_run h)

/-! ### Ranks -/

/-- **Termination**: where every state that is not final has a step to a state of smaller rank, a run
from every state leads to a final one. -/
theorem Steps.exists_of_rank {I P : σ → Prop} {rank : σ → ℕ}
    (hstep : ∀ s, I s → P s ∨ ∃ a s', A.step s a = some s' ∧ I s' ∧ rank s' < rank s) {s : σ}
    (hI : I s) : ∃ s', A.Steps s s' ∧ P s' := by
  induction hk : rank s using Nat.strongRecOn generalizing s with
  | ind k ih =>
      rcases hstep s hI with hfinal | ⟨a, t, hst, hIt, hlt⟩
      · exact ⟨s, Steps.refl, hfinal⟩
      · obtain ⟨s', hsteps, hfinal⟩ := ih (rank t) (hk ▸ hlt) hIt rfl
        exact ⟨s', (Steps.single hst).trans hsteps, hfinal⟩

/-- The length of a run, where every step lowers the rank, apart from those that `slow` picks out,
which may raise it by less than `k`. -/
theorem length_run_le {I : σ → Prop} {rank : σ → ℕ} {slow : α → Bool} {k : ℕ}
    (hstep : ∀ s a s', I s → A.step s a = some s' →
      I s' ∧ rank s' + 1 ≤ rank s + if slow a then k else 0)
    {as : List α} {s s' : σ} (hI : I s) (h : A.run s as = some s') :
    as.length + rank s' ≤ rank s + k * as.countP slow := by
  induction as generalizing s with
  | nil =>
      rw [run, Option.some.injEq] at h
      simp [h]
  | cons a as ih =>
      obtain ⟨t, hst, hrun⟩ := Option.bind_eq_some_iff.1 h
      obtain ⟨hIt, hrank⟩ := hstep s a t hI hst
      have hrest := ih hIt hrun
      rw [List.countP_cons, List.length_cons]
      split_ifs at hrank ⊢ with hslow
      · rw [Nat.mul_add, Nat.mul_one]
        omega
      · simp only [Nat.add_zero] at hrank ⊢
        omega

/-! ### Restricting the steps -/

/-- The automaton whose steps moreover satisfy the guard `P`. -/
def restrict (A : Automaton σ α) (P : σ → α → Prop) [∀ s a, Decidable (P s a)] :
    Automaton σ α where
  init := A.init
  step s a := if P s a then A.step s a else none

variable {P : σ → α → Prop} [∀ s a, Decidable (P s a)]

@[simp] theorem restrict_init : (A.restrict P).init = A.init := rfl

theorem restrict_step_eq_some {s s' : σ} {a : α} :
    (A.restrict P).step s a = some s' ↔ P s a ∧ A.step s a = some s' := by
  simp [restrict]

/-- Restricting the steps only removes reachable states. -/
theorem Reachable.of_restrict {s : σ} (h : (A.restrict P).Reachable s) : A.Reachable s := by
  induction h with
  | init hs => exact Reachable.init hs
  | step a _ hs ih => exact Reachable.step a ih (restrict_step_eq_some.1 hs).2

/-- A run whose labels satisfy the guard in every state is a run of the restricted automaton. -/
theorem run_restrict {as : List α} (h : ∀ a ∈ as, ∀ s, P s a) (s : σ) :
    (A.restrict P).run s as = A.run s as := by
  induction as generalizing s with
  | nil => rfl
  | cons a as ih =>
      have hstep : (A.restrict P).step s a = A.step s a := if_pos (h a List.mem_cons_self s)
      have htail := ih fun b hb => h b (List.mem_cons_of_mem a hb)
      simp only [run, hstep, htail]

/-! ### Simulation -/

/-- A functional simulation of `A` by `B`: initial states are mapped to initial states, and every
step of a reachable state of `A` is mapped to zero or more steps of `B`. -/
structure Simulation (A : Automaton σ α) (B : Automaton τ β) where
  /-- The state of `B` that a state of `A` stands for. -/
  abs : σ → τ
  /-- Initial states are mapped to initial states. -/
  init : ∀ s, A.init s → B.init (abs s)
  /-- Steps are mapped to runs. -/
  step : ∀ s a s', A.Reachable s → A.step s a = some s' → B.Steps (abs s) (abs s')

/-- **A simulation maps reachable states to reachable states.** -/
theorem Simulation.reachable {B : Automaton τ β} (f : Simulation A B) {s : σ}
    (h : A.Reachable s) : B.Reachable (f.abs s) := by
  induction h with
  | init hs => exact Reachable.init (f.init _ hs)
  | step a hr hs ih => exact ih.steps (f.step _ a _ hr hs)

end Automaton
