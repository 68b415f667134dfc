/-
**Weights summed over the threads of a system.**

The counting invariants of this development have the form `∑ t, w (pc t)`: every thread carries a
weight that depends on its program point, and a step changes the program point of one or two
threads.  The lemmas here say how such a sum moves, without subtraction, so that `omega` can use
them directly.

Nothing in this module refers to a particular program.

Main results:

* `ThreadWeight.sum_update_of`, `ThreadWeight.sum_update` — **changing one thread exchanges its old weight
  for its new one**;
* `ThreadWeight.card_filter_update` — the same for the number of threads with a property;
* `ThreadWeight.exists_of_sum_pos` — a positive sum has a thread of positive weight.
-/

import Mathlib.Algebra.BigOperators.Group.Finset.Basic
import Mathlib.Algebra.BigOperators.Group.Finset.Piecewise
import Mathlib.Algebra.Order.BigOperators.Group.Finset
import Mathlib.Data.Fintype.Basic

set_option relaxedAutoImplicit false
set_option autoImplicit false

namespace ThreadWeight

open Finset

variable {ι β : Type*} [Fintype ι]

/-- **Changing one thread exchanges its old weight for its new one**, also where the weight depends on
the thread. -/
theorem sum_update_of [DecidableEq ι] (w : ι → β → ℕ) (f : ι → β) (t : ι) (b : β) :
    ∑ u, w u (Function.update f t b u) + w t (f t) = ∑ u, w u (f u) + w t b := by
  have hnew : ∑ u, w u (Function.update f t b u) = w t b + ∑ u ∈ univ.erase t, w u (f u) := by
    rw [← add_sum_erase univ _ (mem_univ t), Function.update_self]
    refine congrArg (w t b + ·) (sum_congr rfl ?_)
    intro u hu
    rw [Function.update_of_ne (ne_of_mem_erase hu)]
  have hold : ∑ u, w u (f u) = w t (f t) + ∑ u ∈ univ.erase t, w u (f u) :=
    (add_sum_erase univ _ (mem_univ t)).symm
  omega

theorem sum_update [DecidableEq ι] (w : β → ℕ) (f : ι → β) (t : ι) (b : β) :
    ∑ u, w (Function.update f t b u) + w (f t) = ∑ u, w (f u) + w b :=
  sum_update_of (fun _ => w) f t b

/-- Two sums that differ in one thread. -/
theorem sum_of_ne [DecidableEq ι] {f g : ι → ℕ} {t : ι} (h : ∀ u, u ≠ t → g u = f u) :
    ∑ u, g u + f t = ∑ u, f u + g t := by
  have hsum := sum_update (fun n : ℕ => n) f t (g t)
  rwa [← Function.eq_update_iff.2 ⟨rfl, h⟩] at hsum

/-- Changing one thread changes the number of threads with a property by that thread alone. -/
theorem card_filter_update [DecidableEq ι] (p : ι → β → Prop) [∀ t b, Decidable (p t b)] (f : ι → β)
    (t : ι) (b : β) :
    (univ.filter fun u => p u (Function.update f t b u)).card + (if p t (f t) then 1 else 0) =
      (univ.filter fun u => p u (f u)).card + if p t b then 1 else 0 := by
  rw [card_filter, card_filter]
  exact sum_update_of (fun u b => if p u b then 1 else 0) f t b

/-- A positive sum has a thread of positive weight. -/
theorem exists_of_sum_pos {w : β → ℕ} {f : ι → β} (h : 0 < ∑ u, w (f u)) : ∃ t, 0 < w (f t) := by
  obtain ⟨t, -, ht⟩ := exists_ne_zero_of_sum_ne_zero h.ne'
  exact ⟨t, Nat.pos_of_ne_zero ht⟩

end ThreadWeight
