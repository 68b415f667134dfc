/-
**Every call of a Future returns, once its handler has been called.**

A thread that is inside of a `Future` or of a pending handler gets through, whatever the schedule, or it
sleeps on a `Future` that is not ready: no wake-up is lost, although the handlers notify after they have
released the mutex.  And when `Shutdown` has returned no thread sleeps any more.

Main definitions:

* `ProcessPool.returning` — the steps of the parent process inside of shared states;
* `ProcessPool.Parent.rank` — the rank of a state.

Main results:

* `ProcessPool.Parent.Linked.rank_step` — every step lowers the rank, apart from the spurious wake-ups;
* `ProcessPool.Parent.Linked.waits` — threads that cannot go on sleep on `Future`s that are not ready;
* `ProcessPool.future_calls_return` — **the calls return**.
-/

import CppMultithreaded.Completion
import CppMultithreaded.PoolAwait
import CppMultithreaded.PoolShutdown
import Mathlib.Data.Fintype.Sum
import Mathlib.Tactic.Ring

set_option relaxedAutoImplicit false
set_option autoImplicit false

namespace ProcessPool

variable {τ θ : Type*} {P : Program τ} {n : ℕ}

/-! ### The threads -/

/-- The threads of the program, the readers, and the one in `Shutdown`. -/
def Party.equivSum : Party n θ ≃ θ ⊕ Fin n ⊕ Unit where
  toFun
    | .program t => .inl t
    | .reader w => .inr (.inl w)
    | .shutdown => .inr (.inr ())
  invFun
    | .inl t => .program t
    | .inr (.inl w) => .reader w
    | .inr (.inr ()) => .shutdown
  left_inv p := by cases p <;> rfl
  right_inv x := by rcases x with t | w | ⟨⟩ <;> rfl

instance [Fintype θ] : Fintype (Party n θ) := Fintype.ofEquiv _ Party.equivSum.symm

theorem Party.card [Fintype θ] : Fintype.card (Party n θ) = Fintype.card θ + (n + 1) := by
  rw [Fintype.card_congr Party.equivSum]
  simp

/-! ### The rank -/

/-- After its first operation little is left of a call. -/
theorem FutureForm.cost_rest (m : ℕ) {op : Monitor.Op Delivery FutureQuery}
    {k : Monitor.Cont Delivery FutureQuery} {waited : Bool} (h : FutureForm ⟨op :: k.ops, waited⟩) :
    k.cost m = 0 ∨ op = .wait ∧ k.cost m = 3 := by
  obtain ⟨ops, waited'⟩ := k
  cases h with
  | get resultSize _ => exact Or.inr ⟨rfl, rfl⟩
  | _ => exact Or.inl rfl

/-- The weight of a thread is bounded: it does one call at a time. -/
theorem cost_le_of_allowed {m : ℕ} (hm : 0 < m) {p : Monitor.Pc Delivery FutureQuery}
    (h : p.Allowed FutureForm) : p.cost m ≤ 2 * m + 4 := by
  have hrest : ∀ {op : Monitor.Op Delivery FutureQuery} {k : Monitor.Cont Delivery FutureQuery}
      {waited : Bool},
      FutureForm ⟨op :: k.ops, waited⟩ → k.cost m ≤ 3 := by
    intro op k waited hform
    rcases hform.cost_rest m with hzero | ⟨-, hthree⟩ <;> omega
  cases p with
  | idle => exact Nat.zero_le _
  | locking op k =>
      have hform : FutureForm ⟨op :: k.ops, k.waited⟩ := h
      rcases hform.cost_rest m with hzero | ⟨rfl, hthree⟩
      · rw [Monitor.Pc.cost, hzero]
        cases op <;> simp only [Monitor.Op.cost] <;> omega
      · rw [Monitor.Pc.cost, hthree, Monitor.Op.cost]
        omega
  | checking k =>
      have hk := hrest h
      rw [Monitor.Pc.cost]
      omega
  | asleep k =>
      have hk := hrest h
      rw [Monitor.Pc.cost]
      omega
  | woken k =>
      have hk := hrest h
      rw [Monitor.Pc.cost]
      omega
  | reading r k =>
      have hk := hrest h
      rw [Monitor.Pc.cost]
      omega
  | releasing k =>
      obtain ⟨op, waited, hform, -⟩ := h
      have hk := hrest hform
      rw [Monitor.Pc.cost]
      omega
  | updating u k =>
      have hk := (FutureForm.cost_rest m h).resolve_right (by rintro ⟨heq, -⟩; cases heq)
      rw [Monitor.Pc.cost, hk]
      omega
  | unlocking k =>
      obtain ⟨u, hform⟩ := h
      have hk := (hform.cost_rest m).resolve_right (by rintro ⟨heq, -⟩; cases heq)
      rw [Monitor.Pc.cost, hk]
      omega
  | notifying k =>
      obtain ⟨u, hform⟩ := h
      have hk := (hform.cost_rest m).resolve_right (by rintro ⟨heq, -⟩; cases heq)
      rw [Monitor.Pc.cost, hk]
      omega

section Rank

variable [DecidableEq θ] [NeZero n] [Fintype θ]

/-- What a thread has still to do inside of a shared state. -/
def Parent.weight (s : Parent P n θ) (p : Party n θ) : ℕ :=
  match s.inside p with
  | some state => ((s.future state).pc p).cost (Fintype.card (Party n θ))
  | none => 0

/-- The rank of a state. -/
def Parent.rank (s : Parent P n θ) : ℕ := ∑ p, s.weight p

/-- The step is one inside of the shared states: the pool does nothing but store the result of a handler
that has been called, and no call begins. -/
def ParentAction.returns : ParentAction P n θ → Bool
  | .deliver _ | .monitor _ => true
  | .pool _ | .call _ _ _ | .handle _ => false

/-- The step is a spurious wake-up. -/
def ParentAction.spurious : ParentAction P n θ → Bool
  | .monitor a => a.spurious
  | _ => false

/-- The parent process, where threads only do what they are inside of. -/
def returning (P : Program τ) (n : ℕ) (θ : Type*) [DecidableEq θ] [NeZero n] :
    Automaton (Parent P n θ) (ParentAction P n θ) :=
  (parent P n θ).restrict fun _ a => a.returns = true

namespace Parent.Linked

variable {s s' : Parent P n θ} (h : s.Linked)

include h

/-- The rank is bounded. -/
theorem rank_le : s.rank ≤
    Fintype.card (Party n θ) * (2 * Fintype.card (Party n θ) + 4) := by
  have hpos : 0 < Fintype.card (Party n θ) := Fintype.card_pos_iff.2 ⟨.shutdown⟩
  have hweight : ∀ p, s.weight p ≤ 2 * Fintype.card (Party n θ) + 4 := by
    intro p
    rw [Parent.weight]
    split
    · exact cost_le_of_allowed hpos ((h.form _).pc p)
    · exact Nat.zero_le _
  have hle := Finset.sum_le_card_nsmul Finset.univ s.weight _ fun p _ => hweight p
  rwa [Finset.card_univ, smul_eq_mul] at hle

/-- A step inside of a shared state changes the rank as it changes the rank of the shared state. -/
theorem rank_advance {a : Monitor.Action Delivery FutureQuery (Party n θ)} {state : ℕ}
    {f : Monitor.State SharedState Delivery FutureQuery FutureAnswer (Party n θ)}
    (hf : Monitor.Effect sharedState (s.future state) a f) (hinside : s.inside a.thread = some state)
    (q : State P n θ) :
    Parent.rank { s.advance state a.thread f with pool := q } + (s.future state).rank =
      s.rank + f.rank := by
  rw [Parent.rank, Parent.rank, Monitor.State.rank, Monitor.State.rank, ← Finset.sum_add_distrib,
    ← Finset.sum_add_distrib]
  refine Finset.sum_congr rfl ?_
  intro p _
  by_cases hp : p = a.thread
  · subst hp
    have hold : s.weight a.thread =
        ((s.future state).pc a.thread).cost (Fintype.card (Party n θ)) := by
      rw [Parent.weight, hinside]
    have hnew : Parent.weight { s.advance state a.thread f with pool := q } a.thread =
        (f.pc a.thread).cost (Fintype.card (Party n θ)) := by
      simp only [Parent.weight, Parent.advance, Function.update_self]
      cases hpc : f.pc a.thread <;> simp [hpc, Monitor.Pc.cost]
    rw [hold, hnew, Nat.add_comm]
  · by_cases hin : s.inside p = some state
    · have hold : s.weight p = ((s.future state).pc p).cost (Fintype.card (Party n θ)) := by
        rw [Parent.weight, hin]
      have hnew : Parent.weight { s.advance state a.thread f with pool := q } p =
          (f.pc p).cost (Fintype.card (Party n θ)) := by
        simp [Parent.weight, Parent.advance, Function.update_of_ne hp, hin]
      rw [hold, hnew, Nat.add_comm]
    · -- a thread that is not inside of this shared state is left alone
      have hidle := h.idle_of_outside hin
      have hidle' := (hf.idle_of_ne hp).2 hidle
      have hsame : Parent.weight { s.advance state a.thread f with pool := q } p = s.weight p := by
        simp only [Parent.weight, Parent.advance, Function.update_of_ne hp]
        cases hst : s.inside p with
        | none => rfl
        | some st =>
            have hne : st ≠ state := by
              rintro rfl
              exact hin hst
            simp only [Function.update_of_ne hne]
      rw [hsame, hidle, hidle']

/-- **Every step lowers the rank**, apart from the spurious wake-ups. -/
theorem rank_step {a : ParentAction P n θ} (hs : (returning P n θ).step s a = some s') :
    s'.rank + 1 ≤ s.rank + if a.spurious then 3 else 0 := by
  obtain ⟨hreturns, hs⟩ := Automaton.restrict_step_eq_some.1 hs
  cases Parent.effect_of_step hs with
  | pool a q _ _ _ => cases hreturns
  | call t k c job state f _ _ _ => cases hreturns
  | handle a p state d f _ _ _ => cases hreturns
  | deliver a p state d q f _ hinside _ hf =>
      have hadvance : Parent.rank { s.advance state p f with pool := q } + (s.future state).rank =
          s.rank + f.rank := h.rank_advance hf hinside q
      have hrank : f.rank + 1 ≤ (s.future state).rank := hf.rank rfl
      omega
  | monitor a state f hinner hinside hf =>
      have hadvance : (s.advance state a.thread f).rank + (s.future state).rank = s.rank + f.rank :=
        h.rank_advance hf hinside s.pool
      have hrank := hf.rank (by cases a <;> first | rfl | cases hinner)
      have hsame : (ParentAction.monitor a : ParentAction P n θ).spurious = a.spurious := rfl
      rw [hsame]
      omega

end Parent.Linked

end Rank

/-! ### Completion -/

section Completion

variable [DecidableEq θ] [NeZero n]

/-- The pool can store what a handler is called with. -/
theorem exists_step_of_delivery {s : State P n θ} {a : Action P n θ} {x : Party n θ × ℕ × Delivery}
    (h : a.delivery s = some x) : ∃ q, (pool P n θ).step s a = some q := by
  cases a with
  | complete w =>
      obtain ⟨handler, hh, -⟩ := Option.map_eq_some_iff.1 h
      have hreader : ∃ header payload taskId pending,
          (s.link w).reader = .complete header payload taskId pending := by
        cases hr : (s.link w).reader with
        | complete header payload taskId pending => exact ⟨header, payload, taskId, pending, rfl⟩
        | _ => simp [Link.handler, hr] at hh
      obtain ⟨header, payload, taskId, pending, hr⟩ := hreader
      obtain ⟨q, hq⟩ : ∃ q, s.step (.complete w) = some q := by
        simp [State.step, hh, State.onLink, Link.step, hr]
      exact ⟨q, Automaton.restrict_step_eq_some.2 ⟨rfl, hq⟩⟩
  | failPending taskId =>
      obtain ⟨p, hp, -⟩ := Option.map_eq_some_iff.1 h
      cases hpc : s.shutdown with
      | failPending temp =>
          rw [hpc, ShutdownPc.draining] at hp
          obtain ⟨q, hq⟩ : ∃ q, s.step (.failPending taskId) = some q := by
            simp [State.step, hpc, hp]
          exact ⟨q, Automaton.restrict_step_eq_some.2 ⟨rfl, hq⟩⟩
      | _ => simp [hpc, ShutdownPc.draining] at hp
  | _ => cases h

/-- Nobody can go on in the shared state of a `Future`. -/
theorem Parent.Linked.quiet {s : Parent P n θ} (h : s.Linked)
    (hs : (returning P n θ).Settled ParentAction.spurious s) (state : ℕ) :
    Monitor.Quiet sharedState (s.future state) := by
  refine Monitor.quiet_of_stuck (h.future state) ?_
  intro a hgoes ha
  by_contra hne
  obtain ⟨f, hf⟩ := Option.ne_none_iff_exists'.1 hne
  have hinside := (h.inside a.thread state).2 ((Monitor.effect_of_step hf).ne_idle hgoes)
  have hstuck : ∀ b : ParentAction P n θ, b.returns = true → b.spurious = false → s.step b = none := by
    intro b hb hspurious
    by_contra hne
    obtain ⟨s', hs'⟩ := Option.ne_none_iff_exists'.1 hne
    have hnone := hs b hspurious
    rw [show (returning P n θ).step s b = some s' from Automaton.restrict_step_eq_some.2 ⟨hb, hs'⟩]
      at hnone
    cases hnone
  have hmonitor : inner a = true → False := by
    intro hinner
    have hnone := hstuck (.monitor a) rfl ha
    simp [Parent.step, hinner, hinside, hf] at hnone
  cases a with
  | call t ops => cases hgoes
  | update p =>
      -- the handler stores the result, and so does the pool
      obtain ⟨d, k, hp, -, -⟩ := (Monitor.effect_of_step hf).of_update
      obtain ⟨b, hb⟩ := h.due state p (.update d) (by rw [hp]; exact List.mem_cons_self)
      obtain ⟨q, hq⟩ := exists_step_of_delivery hb
      have hnone := hstuck (.deliver b) rfl rfl
      have hin : s.inside p = some state := hinside
      simp [Parent.step, hb, hin, hq, hf] at hnone
  | _ => exact hmonitor rfl

/-- **Threads that cannot go on sleep on `Future`s that are not ready**, and wait for their handlers. -/
theorem Parent.Linked.waits {s : Parent P n θ} (h : s.Linked)
    (hs : (returning P n θ).Settled ParentAction.spurious s) {p : Party n θ} {state : ℕ}
    (hp : s.inside p = some state) : (∃ t, p = .program t) ∧ (s.pool.states state).ready = false ∧
      ∃ x ∈ s.pool.returned, x.2 = state := by
  obtain ⟨hsleep, hready⟩ := ((h.quiet hs state).idle p).resolve_left ((h.inside p state).1 hp)
  rw [h.shared state] at hready
  cases hpc : (s.future state).pc p with
  | asleep k =>
      obtain ⟨ht, hx⟩ := h.due state p .wait (by rw [hpc]; exact List.mem_cons_self)
      exact ⟨ht, hready, hx⟩
  | _ => simp [hpc, Monitor.Pc.sleeps] at hsleep

/-- **Every call of a `Future` returns, once its handler has been called**: where no call begins and the
pool does nothing else, a run has at most `N (2 N + 4)` steps for `N` threads, the readers and `Shutdown`
among them, and three more for each spurious wake-up; it ends with threads that sleep on `Future`s that
are not ready, and no thread is left inside when `Shutdown` has returned. -/
theorem future_calls_return [Fintype θ] {s : Parent P n θ} (h : (parent P n θ).Reachable s) :
    (returning P n θ).CompletesWithin ParentAction.spurious 3
      ((Fintype.card θ + (n + 1)) * (2 * (Fintype.card θ + (n + 1)) + 4))
      (fun s' => (∀ p state, s'.inside p = some state →
          (∃ t, p = .program t) ∧ (s'.pool.states state).ready = false) ∧
        (s'.pool.shutdown = .returned → ∀ p, s'.inside p = none)) s := by
  have hle := (linked_of_reachable h).rank_le
  rw [Party.card] at hle
  refine Automaton.CompletesWithin.of_rank (I := (parent P n θ).Reachable) Parent.rank ?_ ?_ h hle
  · intro s a s' hr hs
    exact ⟨Automaton.Reachable.step a hr (Automaton.restrict_step_eq_some.1 hs).2,
      (linked_of_reachable hr).rank_step hs⟩
  · intro s hr hs
    have hlinked := linked_of_reachable hr
    refine ⟨?_, ?_⟩
    · intro p state hp
      obtain ⟨ht, hready, -⟩ := hlinked.waits hs hp
      exact ⟨ht, hready⟩
    · intro hdone p
      by_contra hne
      obtain ⟨state, hp⟩ := Option.ne_none_iff_exists'.1 hne
      obtain ⟨-, hready, x, hx, rfl⟩ := hlinked.waits hs hp
      rw [ready_of_shutdown hlinked.pool hdone hx] at hready
      cases hready

end Completion

/-- A thread sleeps in `Get`, and the reader has called the handler: a few steps later both are
through. -/
theorem future_calls_return_sleeper :
    ∃ s : Parent byteProgram 1 Bool, (parent byteProgram 1 Bool).Reachable s ∧
      s.inside (.program false) = some 0 ∧ s.inside (.reader 0) = some 0 ∧
      (returning byteProgram 1 Bool).CompletesWithin ParentAction.spurious 3
        ((Fintype.card Bool + (1 + 1)) * (2 * (Fintype.card Bool + (1 + 1)) + 4))
        (fun s' => (∀ p state, s'.inside p = some state →
            (∃ t, p = .program t) ∧ (s'.pool.states state).ready = false) ∧
          (s'.pool.shutdown = .returned → ∀ p, s'.inside p = none)) s := by
  obtain ⟨s, hs⟩ : ∃ s, (parent byteProgram 1 Bool).run Parent.initial (sleepRun 0) = some s := ⟨_, rfl⟩
  have hr : (parent byteProgram 1 Bool).Reachable s := Automaton.Reachable.of_run rfl hs
  have hinside : s.inside (.program false) = some 0 ∧ s.inside (.reader 0) = some 0 := by
    obtain rfl := Option.some_inj.1 hs
    exact ⟨rfl, rfl⟩
  exact ⟨s, hr, hinside.1, hinside.2, future_calls_return hr⟩

end ProcessPool
