/-
**Locks and their holders.**

A lock says who holds it, and the program points of the threads say which locks they hold.  The two are
different parts of a state, and a proof needs both: a thread that is past its `lock` can go on because
the lock says so, and a lock that is taken is going to be free because its holder can go on.

Nothing in this module refers to a particular program.

Main definitions:

* `Ownership.Agree` — the locks and the threads say the same;
* `Ownership.Move` — what a step does to them: nothing, or a thread takes or frees a lock.

Main results:

* `Ownership.Agree.move` — **every step keeps the agreement**.
-/

import Mathlib.Logic.Function.Basic
import Mathlib.Tactic.Common

set_option relaxedAutoImplicit false
set_option autoImplicit false

namespace Ownership

variable {O L D : Type*}

/-- **The locks and the threads say the same.**  A thread holds at most one lock, and `D` is what it does
with it. -/
def Agree (holds : O → Option (L × D)) (holder : L → Option (O × D)) : Prop :=
  ∀ o l d, holds o = some (l, d) ↔ holder l = some (o, d)

variable [DecidableEq O] [DecidableEq L]

/-- What a step does to the locks and to their holders. -/
inductive Move (holds : O → Option (L × D)) (holder : L → Option (O × D))
    (holds' : O → Option (L × D)) (holder' : L → Option (O × D)) : Prop
  | keep : holds' = holds → holder' = holder → Move holds holder holds' holder'
  | take (o : O) (l : L) (d : D) : holds o = none → holder l = none →
      holds' = Function.update holds o (some (l, d)) →
      holder' = Function.update holder l (some (o, d)) → Move holds holder holds' holder'
  | free (o : O) (l : L) (d : D) : holder l = some (o, d) →
      holds' = Function.update holds o none → holder' = Function.update holder l none →
      Move holds holder holds' holder'

variable {holds holds' : O → Option (L × D)} {holder holder' : L → Option (O × D)}

/-- **Every step keeps the agreement.** -/
theorem Agree.move (h : Agree holds holder) (hm : Move holds holder holds' holder') :
    Agree holds' holder' := by
  intro o' l' d'
  cases hm with
  | keep ho hl =>
      rw [ho, hl]
      exact h o' l' d'
  | take o l d hnone hfree ho hl =>
      rw [ho, hl]
      have hother := h o' l' d'
      by_cases hoo : o' = o <;> by_cases hll : l' = l
      · subst hoo hll
        simp [eq_comm]
      · subst hoo
        rw [hnone] at hother
        simp only [Function.update_self, Function.update_of_ne hll, ← hother, reduceCtorEq,
          Option.some.injEq, Prod.mk.injEq, iff_false]
        rintro ⟨rfl, -⟩
        exact hll rfl
      · subst hll
        rw [hfree] at hother
        simp only [Function.update_self, Function.update_of_ne hoo, hother, reduceCtorEq,
          Option.some.injEq, Prod.mk.injEq, false_iff]
        rintro ⟨rfl, -⟩
        exact hoo rfl
      · rwa [Function.update_of_ne hoo, Function.update_of_ne hll]
  | free o l d hheld ho hl =>
      rw [ho, hl]
      have hother := h o' l' d'
      have hown := (h o l d).2 hheld
      by_cases hoo : o' = o <;> by_cases hll : l' = l
      · subst hoo hll
        simp
      · subst hoo
        rw [hown] at hother
        simp only [Function.update_self, Function.update_of_ne hll, ← hother, reduceCtorEq,
          Option.some.injEq, Prod.mk.injEq, false_iff]
        rintro ⟨rfl, -⟩
        exact hll rfl
      · subst hll
        rw [hheld] at hother
        simp only [Function.update_self, Function.update_of_ne hoo, hother, reduceCtorEq,
          Option.some.injEq, Prod.mk.injEq, iff_false]
        rintro ⟨rfl, -⟩
        exact hoo rfl
      · rwa [Function.update_of_ne hoo, Function.update_of_ne hll]

end Ownership
