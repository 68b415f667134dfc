/-
**Completion: the runs of an automaton end, and end well.**

A concurrent component makes progress when it cannot go on for ever and cannot get stuck halfway.  Both
are stated here for the runs from a given state.  Some steps, the *slow* ones, may set the component
back: a sleeper that wakes up spuriously, a compare-exchange that fails spuriously.  A run may be longer
by a fixed number of steps for each of these.

The proof is by a rank, a natural number that every step lowers, apart from the slow ones.

Nothing in this module refers to a particular program.

Main definitions:

* `Automaton.Settled` — no step but a slow one is enabled;
* `Automaton.CompletesWithin` — the runs from a state have a bounded length, apart from the slow steps,
  and end in a state with a given property.

Main results:

* `Automaton.CompletesWithin.of_rank` — **the rank rule**;
* `Automaton.CompletesWithin.exists_run` — some run without slow steps leads to a state with the
  property.
-/

import CppMultithreaded.Automaton
import Mathlib.Tactic.Common

set_option relaxedAutoImplicit false
set_option autoImplicit false

namespace Automaton

variable {σ α : Type*}

/-- No step is enabled, apart from the slow ones. -/
def Settled (A : Automaton σ α) (slow : α → Bool) (s : σ) : Prop :=
  ∀ a, slow a = false → A.step s a = none

/-- **Completion.**  A run from `s` has at most `n` steps, and `k` more for each slow one; and where no
step but a slow one is left, `P` holds. -/
structure CompletesWithin (A : Automaton σ α) (slow : α → Bool) (k n : ℕ) (P : σ → Prop) (s : σ) :
    Prop where
  length_le : ∀ as t, A.run s as = some t → as.length ≤ n + k * as.countP slow
  settled : ∀ t, A.Steps s t → A.Settled slow t → P t

variable {A : Automaton σ α} {slow : α → Bool} {k n : ℕ} {P I : σ → Prop} {s t : σ}

/-- What a run from `s` keeps, from one step to the next. -/
theorem Steps.invariant (hstep : ∀ s a s', I s → A.step s a = some s' → I s') (hs : A.Steps s t)
    (hI : I s) : I t := by
  induction hs with
  | refl => exact hI
  | tail a _ hst ih => exact hstep _ a _ ih hst

namespace CompletesWithin

/-- **The rank rule**: every step lowers the rank, apart from the slow ones, which may raise it by less
than `k`; and where no other step is left, `P` holds. -/
theorem of_rank (rank : σ → ℕ)
    (hstep : ∀ s a s', I s → A.step s a = some s' →
      I s' ∧ rank s' + 1 ≤ rank s + if slow a then k else 0)
    (hP : ∀ s, I s → A.Settled slow s → P s) (hI : I s) (hn : rank s ≤ n) :
    A.CompletesWithin slow k n P s := by
  refine ⟨?_, ?_⟩
  · intro as t hrun
    have hle := length_run_le hstep hI hrun
    omega
  · intro t hst hsettled
    exact hP t (hst.invariant (fun s a s' hs h => (hstep s a s' hs h).1) hI) hsettled

/-- The rest of a run that has started completes as well. -/
theorem of_step (h : A.CompletesWithin slow k (n + 1) P s) {a : α} (ha : slow a = false)
    (hst : A.step s a = some t) : A.CompletesWithin slow k n P t := by
  refine ⟨?_, ?_⟩
  · intro as u hrun
    have hle := h.length_le (a :: as) u (by rw [run, hst]; exact hrun)
    rw [List.length_cons, List.countP_cons_of_neg (by simp [ha])] at hle
    omega
  · intro u hsteps hsettled
    exact h.settled u ((Steps.single hst).trans hsteps) hsettled

/-- Some run without slow steps leads to a state with the property. -/
theorem exists_run (h : A.CompletesWithin slow k n P s) :
    ∃ as t, A.run s as = some t ∧ (∀ a ∈ as, slow a = false) ∧ P t := by
  induction n generalizing s with
  | zero =>
      refine ⟨[], s, rfl, by simp, h.settled s Steps.refl ?_⟩
      intro a ha
      by_contra hne
      obtain ⟨t, ht⟩ := Option.ne_none_iff_exists'.1 hne
      have hle := h.length_le [a] t (by rw [run, ht]; rfl)
      rw [List.countP_cons_of_neg (by simp [ha])] at hle
      simp at hle
  | succ n ih =>
      by_cases hsettled : A.Settled slow s
      · exact ⟨[], s, rfl, by simp, h.settled s Steps.refl hsettled⟩
      · simp only [Settled, not_forall] at hsettled
        obtain ⟨a, ha, hne⟩ := hsettled
        obtain ⟨t, ht⟩ := Option.ne_none_iff_exists'.1 hne
        obtain ⟨as, u, hrun, has, hu⟩ := ih (h.of_step ha ht)
        refine ⟨a :: as, u, ?_, ?_, hu⟩
        · rw [run, ht]
          exact hrun
        · intro b hb
          rcases List.mem_cons.1 hb with rfl | hb
          · exact ha
          · exact has b hb

end CompletesWithin

end Automaton
