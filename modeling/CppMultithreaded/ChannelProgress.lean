/-
**The calls of the buffered channel return, or wait for something that is missing.**

Once no thread makes a new call, the threads inside of `Send`, `Recv` and `Close` get as far as they can,
whatever the schedule: each returns, unless it sleeps and its predicate is false.  A thread that wakes up
for nothing goes to sleep again; it is woken at most once for each notification, and each update makes
one.  So a channel that has been closed lets every thread go, and in an open one the threads that are
left all wait for the same: for a value, or for a free slot.

Main definitions:

* `BufferedChannel.Pc.weight`, `BufferedChannel.State.rank` — the rank;
* `BufferedChannel.finishing` — the steps where no thread makes a new call;
* `BufferedChannel.Waiting` — every thread is outside, or waits for something that is missing.

Main results:

* `BufferedChannel.held_of_reachable` — the mutex is held by a thread in a critical section only;
* `BufferedChannel.rank_step` — every step lowers the rank, apart from the spurious wake-ups;
* `BufferedChannel.waiting_of_settled` — threads that cannot go on wait for something that is missing;
* `BufferedChannel.channel_calls_complete` — **every call completes**, or waits for something that is
  missing.
-/

import CppMultithreaded.ChannelFifo
import CppMultithreaded.ChannelWakeup
import CppMultithreaded.Completion
import Mathlib.Algebra.Module.Defs
import Mathlib.Tactic.Ring

set_option relaxedAutoImplicit false
set_option autoImplicit false

namespace BufferedChannel

variable {α : Type*} {ι : Type*}

/-! ### The mutex -/

/-- The thread that holds the mutex is in a critical section. -/
def Held (s : State α ι) : Prop := ∀ t, s.mtx = some t → (s.pc t).holds = true

section Held

variable [DecidableEq ι] {s s' : State α ι} {t : ι} {p : Pc α}

omit [DecidableEq ι] in
theorem Held.of_none (h : s.mtx = none) : Held s := by
  intro t ht
  rw [h] at ht
  simp at ht

/-- A move that does not take a thread out of its critical section. -/
theorem Held.move (h : Held s) (hpc : s'.pc = Function.update s.pc t p) (hm : s'.mtx = s.mtx)
    (hp : (s.pc t).holds = true → p.holds = true) : Held s' := by
  intro u hu
  rw [hm] at hu
  rw [hpc]
  rcases eq_or_ne u t with rfl | hne
  · rw [Function.update_self]
    exact hp (h u hu)
  · rw [Function.update_of_ne hne]
    exact h u hu

omit [DecidableEq ι] in
theorem Held.wakeAll (h : Held s) (c : Cond) :
    Held { s with pc := fun u => (s.pc u).wake c } := by
  intro u hu
  rw [Pc.holds_wake]
  exact h u hu

variable [Fintype ι] [Inhabited α]

omit [Fintype ι] in
/-- Every step keeps it. -/
theorem Held.step (h : Held s) (hs : Effect s s') : Held s' := by
  cases hs with
  | call t op ht => exact h.move rfl rfl (by simp [ht, Pc.holds])
  | callClose t ht => exact h.move rfl rfl (by simp [ht, Pc.holds])
  | lock t p hm hp =>
      intro u hu
      obtain rfl := Option.some.inj hu
      simp only [State.goto, Function.update_self]
      cases hpc : s.pc t <;> simp only [hpc, Pc.afterLock, Option.some.injEq, reduceCtorEq] at hp <;>
        rw [← hp] <;> rfl
  | proceed t op w ht hr => exact h.move rfl rfl (by simp [Pc.holds])
  | sleep t op w ht hr => exact Held.of_none rfl
  | sendRejected t v w ht hc => exact Held.of_none rfl
  | sendStored t v w ht hc => exact h.move rfl rfl (by simp [Pc.holds])
  | recvExhausted t w ht hz => exact Held.of_none rfl
  | recvTaken t w m ht hz => exact h.move rfl rfl (by simp [Pc.holds])
  | closeAgain t ht hc => exact Held.of_none rfl
  | closeFirst t ht hc => exact h.move rfl rfl (by simp [Pc.holds])
  | unlock t p hp => exact Held.of_none rfl
  | wakeOne t u c ht hu =>
      have hwoken : Held (s.goto u ((s.pc u).wake c)) := h.move rfl rfl (by simp)
      have htu := ne_of_notifying ht hu
      refine hwoken.move rfl rfl ?_
      simp [State.goto, Function.update_of_ne htu, ht, Pc.holds]
  | wakeNone t c ht hnone => exact h.move rfl rfl (by simp [ht, Pc.holds])
  | wakeAll t c ht =>
      cases c with
      | notEmpty => exact (h.wakeAll .notEmpty).move rfl rfl (by simp [ht, Pc.wake, Pc.holds])
      | notFull => exact (h.wakeAll .notFull).move rfl rfl (by simp [ht, Pc.wake, Pc.holds])
  | spuriousWakeup t op ht => exact h.move rfl rfl (by simp [ht, Pc.holds])

theorem held_of_reachable {size : ℤ} (h : (system α ι size).Reachable s) : Held s := by
  refine h.invariant ?_ ?_
  · intro s hs
    rw [show s = initial size from hs]
    exact Held.of_none rfl
  · intro s a s' _ hI hs
    exact hI.step (effect_of_step hs)

end Held

/-! ### The rank -/

/-- How much a thread has still to do, where there are `n` threads.  A notification counts for the wake-ups
that it causes. -/
def Pc.weight (n : ℕ) : Pc α → ℕ
  | .outside => 0
  | .notifying _ => 3
  | .unlocking _ => 4
  | .updating _ _ => 5
  | .asleep _ => 6
  | .checking _ _ => 7
  | .woken _ | .locking _ => 8
  | .closeNotifying .notFull => 2 * n + 1
  | .closeNotifying .notEmpty => 4 * n + 2
  | .closeUnlocking => 4 * n + 3
  | .closeUpdating => 4 * n + 4
  | .closeLocking => 4 * n + 5

theorem Pc.weight_le (n : ℕ) (p : Pc α) : p.weight n ≤ 4 * n + 8 := by
  cases p with
  | closeNotifying c => cases c <;> simp only [Pc.weight] <;> omega
  | _ =>
      simp only [Pc.weight]
      omega

/-- A sleeper that is woken has two steps more to do. -/
theorem Pc.weight_wake_le (n : ℕ) (c : Cond) (p : Pc α) : (p.wake c).weight n ≤ p.weight n + 2 := by
  cases p with
  | asleep op =>
      simp only [Pc.wake]
      split_ifs
      · exact le_rfl
      · exact Nat.le_add_right _ 2
  | _ => exact Nat.le_add_right _ 2

theorem Pc.weight_afterLock {n : ℕ} {p q : Pc α} (h : p.afterLock = some q) :
    q.weight n < p.weight n := by
  cases p <;> simp only [Pc.afterLock, Option.some.injEq, reduceCtorEq] at h <;> subst h <;>
    simp [Pc.weight]

theorem Pc.weight_afterUnlock {n : ℕ} {p q : Pc α} (h : p.afterUnlock = some q) :
    q.weight n < p.weight n := by
  cases p <;> simp only [Pc.afterUnlock, Option.some.injEq, reduceCtorEq] at h <;> subst h <;>
    simp [Pc.weight]

variable [DecidableEq ι] [Fintype ι] {s s' : State α ι} {t : ι} {p : Pc α}

/-- The rank of a state. -/
def State.rank (s : State α ι) : ℕ := ∑ t, (s.pc t).weight (Fintype.card ι)

omit [DecidableEq ι] in
theorem State.rank_le (s : State α ι) : s.rank ≤ 4 * Fintype.card ι ^ 2 + 8 * Fintype.card ι := by
  have hle := Finset.sum_le_card_nsmul Finset.univ (fun t => (s.pc t).weight (Fintype.card ι))
    (4 * Fintype.card ι + 8) fun t _ => Pc.weight_le _ _
  rw [Finset.card_univ, smul_eq_mul] at hle
  calc s.rank ≤ Fintype.card ι * (4 * Fintype.card ι + 8) := hle
    _ = 4 * Fintype.card ι ^ 2 + 8 * Fintype.card ι := by ring

/-- A move of one thread. -/
theorem rank_move (hpc : s'.pc = Function.update s.pc t p) :
    s'.rank + (s.pc t).weight (Fintype.card ι) = s.rank + p.weight (Fintype.card ι) := by
  rw [State.rank, hpc]
  exact ThreadWeight.sum_update (Pc.weight (Fintype.card ι)) s.pc t p

theorem rank_goto (s : State α ι) (t : ι) (p : Pc α) :
    (s.goto t p).rank + (s.pc t).weight (Fintype.card ι) =
      s.rank + p.weight (Fintype.card ι) := rank_move rfl

theorem rank_lt_of_move (hpc : s'.pc = Function.update s.pc t p)
    (hlt : p.weight (Fintype.card ι) < (s.pc t).weight (Fintype.card ι)) : s'.rank + 1 ≤ s.rank := by
  have heq := rank_move hpc
  omega

omit [DecidableEq ι] in
/-- Waking everybody. -/
theorem rank_wakeAll (s : State α ι) (c : Cond) :
    ({ s with pc := fun u => (s.pc u).wake c } : State α ι).rank ≤
      s.rank + 2 * Fintype.card ι := by
  have hle : ∑ u, ((s.pc u).wake c).weight (Fintype.card ι) ≤
      ∑ u, ((s.pc u).weight (Fintype.card ι) + 2) :=
    Finset.sum_le_sum fun u _ => Pc.weight_wake_le _ c (s.pc u)
  rw [Finset.sum_add_distrib, Finset.sum_const, Finset.card_univ, smul_eq_mul] at hle
  simp only [State.rank]
  omega

/-! ### No thread makes a new call -/

/-- The step is no new call. -/
def Action.goesOn : Action α ι → Bool
  | .call _ _ | .callClose _ => false
  | _ => true

/-- The step is a spurious wake-up. -/
def Action.spurious : Action α ι → Bool
  | .spuriousWakeup _ => true
  | _ => false

variable [Inhabited α]

/-- The channel, where no thread makes a new call. -/
def finishing (α ι : Type*) [Inhabited α] [DecidableEq ι] [Fintype ι] (size : ℤ) :
    Automaton (State α ι) (Action α ι) :=
  (system α ι size).restrict fun _ a => a.goesOn = true

omit [Fintype ι] [Inhabited α] in
/-- The evaluation of a wait predicate. -/
theorem pc_check (s : State α ι) (t : ι) (op : Op α) (w : Bool) :
    (check s t op w).pc = Function.update s.pc t (.updating op w) ∨
      (check s t op w).pc = Function.update s.pc t (.asleep op) := by
  rw [check]
  split_ifs
  · exact Or.inl rfl
  · exact Or.inr rfl

omit [Fintype ι] in
/-- The update of a thread that holds the mutex. -/
theorem pc_update {m : α} (h : update s t m = some s') :
    ((∃ op w, s.pc t = .updating op w) ∧ (s'.pc = Function.update s.pc t .outside ∨
        ∃ c, s'.pc = Function.update s.pc t (.unlocking c))) ∨
      s.pc t = .closeUpdating ∧ (s'.pc = Function.update s.pc t .outside ∨
        s'.pc = Function.update s.pc t .closeUnlocking) := by
  cases hp : s.pc t with
  | updating op w =>
      refine Or.inl ⟨⟨op, w, rfl⟩, ?_⟩
      cases op with
      | send v =>
          simp only [update, hp, Option.some.injEq, sendUpdate] at h
          rw [← h]
          split_ifs
          · exact Or.inl rfl
          · exact Or.inr ⟨_, rfl⟩
      | recv =>
          simp only [update, hp, Option.some.injEq, recvUpdate] at h
          rw [← h]
          split_ifs
          · exact Or.inl rfl
          · exact Or.inr ⟨_, rfl⟩
  | closeUpdating =>
      refine Or.inr ⟨rfl, ?_⟩
      simp only [update, hp, Option.some.injEq, closeUpdate] at h
      rw [← h]
      split_ifs
      · exact Or.inl rfl
      · exact Or.inr rfl
  | _ => simp [update, hp] at h

omit [Inhabited α] in
/-- `notify_one` wakes one thread at most. -/
theorem rank_notifyOne {c : Cond} {w : Option ι} (ht : s.pc t = .notifying c)
    (h : notifyOne s t c w = some s') : s'.rank + 1 ≤ s.rank := by
  cases w with
  | none =>
      simp only [notifyOne, Option.ite_none_right_eq_some, Option.some.injEq] at h
      rw [← h.2]
      exact rank_lt_of_move (t := t) rfl (by rw [ht]; exact Nat.succ_pos 2)
  | some u =>
      simp only [notifyOne, Option.ite_none_right_eq_some, Option.some.injEq] at h
      obtain ⟨hu, rfl⟩ := h
      have hwoken := rank_goto s u ((s.pc u).wake c)
      have hdone := rank_goto (s.goto u ((s.pc u).wake c)) t .outside
      have hwake := Pc.weight_wake_le (Fintype.card ι) c (s.pc u)
      have hpc : (s.goto u ((s.pc u).wake c)).pc t = .notifying c := by
        simp only [State.goto, Function.update_of_ne (ne_of_notifying ht hu), ht]
      rw [hpc] at hdone
      simp only [Pc.weight] at hdone
      omega

omit [Inhabited α] in
/-- Each `notify_all` of `Close` wakes the others at most. -/
theorem rank_notifyAll {c : Cond} (ht : s.pc t = .closeNotifying c) :
    (notifyAll s t c).rank + 1 ≤ s.rank := by
  have hwoken := rank_wakeAll s c
  have hpc : ({ s with pc := fun u => (s.pc u).wake c } : State α ι).pc t = .closeNotifying c := by
    simp only [ht, Pc.wake]
  cases c with
  | notEmpty =>
      have hdone := rank_goto { s with pc := fun u => (s.pc u).wake .notEmpty } t
        (.closeNotifying .notFull)
      rw [hpc] at hdone
      simp only [Pc.weight] at hdone
      simp only [notifyAll]
      omega
  | notFull =>
      have hdone := rank_goto { s with pc := fun u => (s.pc u).wake .notFull } t .outside
      rw [hpc] at hdone
      simp only [Pc.weight] at hdone
      simp only [notifyAll]
      omega

/-- **Every step lowers the rank**, apart from the spurious wake-ups. -/
theorem rank_step {size : ℤ} {a : Action α ι} (h : (finishing α ι size).step s a = some s') :
    s'.rank + 1 ≤ s.rank + if a.spurious then 3 else 0 := by
  obtain ⟨hgoes, hs⟩ := Automaton.restrict_step_eq_some.1 h
  cases a with
  | call t op => simp [Action.goesOn] at hgoes
  | callClose t => simp [Action.goesOn] at hgoes
  | lock t =>
      refine le_trans ?_ (Nat.le_add_right _ _)
      simp only [system, step] at hs
      split at hs
      · obtain ⟨p, hp, rfl⟩ := Option.map_eq_some_iff.1 hs
        exact rank_lt_of_move (t := t) rfl (Pc.weight_afterLock hp)
      · simp at hs
  | check t =>
      refine le_trans ?_ (Nat.le_add_right _ _)
      simp only [system, step] at hs
      split at hs
      · next op w hp =>
          obtain rfl := Option.some.inj hs
          rcases pc_check s t op w with hpc | hpc
          · exact rank_lt_of_move hpc (by simp [hp, Pc.weight])
          · exact rank_lt_of_move hpc (by simp [hp, Pc.weight])
      · simp at hs
  | update t m =>
      refine le_trans ?_ (Nat.le_add_right _ _)
      rcases pc_update hs with ⟨⟨op, w, hp⟩, hpc | ⟨c, hpc⟩⟩ | ⟨hp, hpc | hpc⟩
      · exact rank_lt_of_move hpc (by simp [hp, Pc.weight])
      · exact rank_lt_of_move hpc (by simp [hp, Pc.weight])
      · exact rank_lt_of_move hpc (by simp [hp, Pc.weight])
      · exact rank_lt_of_move hpc (by simp [hp, Pc.weight])
  | unlock t =>
      refine le_trans ?_ (Nat.le_add_right _ _)
      obtain ⟨p, hp, rfl⟩ := Option.map_eq_some_iff.1 hs
      exact rank_lt_of_move (t := t) rfl (Pc.weight_afterUnlock hp)
  | notifyOne t w =>
      refine le_trans ?_ (Nat.le_add_right _ _)
      simp only [system, step] at hs
      split at hs
      · next c hp => exact rank_notifyOne hp hs
      · simp at hs
  | notifyAll t =>
      refine le_trans ?_ (Nat.le_add_right _ _)
      simp only [system, step] at hs
      split at hs
      · next c hp =>
          rw [← Option.some.inj hs]
          exact rank_notifyAll hp
      · simp at hs
  | spuriousWakeup t =>
      simp only [system, step] at hs
      split at hs
      · next op hp =>
          rw [← Option.some.inj hs]
          have hmove := rank_goto s t (.woken op)
          rw [hp] at hmove
          simp only [Pc.weight] at hmove
          rw [show (Action.spuriousWakeup t : Action α ι).spurious = true from rfl, if_pos rfl]
          omega
      · simp at hs

/-! ### Completion -/

/-- A thread in a critical section, or about to notify, can go on. -/
theorem exists_step_of_active (size : ℤ) (h : (s.pc t).holds = true ∨
      (∃ c, s.pc t = .notifying c) ∨ ∃ c, s.pc t = .closeNotifying c) :
    ∃ a : Action α ι, a.spurious = false ∧ ∃ s', (finishing α ι size).step s a = some s' := by
  have hstep : ∀ (a : Action α ι), a.goesOn = true → a.spurious = false → (step s a).isSome →
      ∃ a : Action α ι, a.spurious = false ∧ ∃ s', (finishing α ι size).step s a = some s' := by
    intro a ha hs hsome
    obtain ⟨s', hs'⟩ := Option.isSome_iff_exists.1 hsome
    exact ⟨a, hs, s', Automaton.restrict_step_eq_some.2 ⟨ha, hs'⟩⟩
  rcases h with hholds | ⟨c, hp⟩ | ⟨c, hp⟩
  · cases hp : s.pc t with
    | checking op w => exact hstep (.check t) rfl rfl (by simp [step, hp])
    | updating op w => exact hstep (.update t default) rfl rfl (by cases op <;> simp [step, update, hp])
    | unlocking c => exact hstep (.unlock t) rfl rfl (by simp [step, hp, Pc.afterUnlock])
    | closeUpdating => exact hstep (.update t default) rfl rfl (by simp [step, update, hp])
    | closeUnlocking => exact hstep (.unlock t) rfl rfl (by simp [step, hp, Pc.afterUnlock])
    | _ => simp [hp, Pc.holds] at hholds
  · by_cases hsleep : ∃ u, (s.pc u).sleepsOn c = true
    · obtain ⟨u, hu⟩ := hsleep
      exact hstep (.notifyOne t (some u)) rfl rfl (by simp [step, hp, notifyOne, hu])
    · refine hstep (.notifyOne t none) rfl rfl ?_
      have hnone : ∀ u, (s.pc u).sleepsOn c = false := by
        intro u
        simpa using not_exists.1 hsleep u
      simp [step, hp, notifyOne, hnone]
  · exact hstep (.notifyAll t) rfl rfl (by simp [step, hp])

omit [Inhabited α] [DecidableEq ι] in
/-- Where every thread is outside or asleep, the predicates of the sleepers are false. -/
theorem not_ready_of_quiet (hcov : ∀ c, Covered c s) (hclose : ∀ c, CloseOwes c s) (hl : Locked s)
    (hquiet : ∀ t, s.pc t = .outside ∨ ∃ op, s.pc t = .asleep op) {op : Op α}
    (ht : s.pc t = .asleep op) : s.channel.ready op.waitsOn = false := by
  have hsleep : (s.pc t).sleepsOn op.waitsOn = true := by simp [ht, Pc.sleepsOn]
  by_contra hready
  have hready : s.channel.ready op.waitsOn = true := by simpa using hready
  rcases (hcov _).law (hclose _) hl hsleep hready with ⟨u, hu⟩ | ⟨u, hu⟩ | ⟨u, hu, -⟩
  · rcases hquiet u with hp | ⟨op', hp⟩ <;> cases op.waitsOn <;>
      simp [hp, Pc.owes, Pc.owesAll] at hu
  · rcases hquiet u with hp | ⟨op', hp⟩ <;> simp [hp, Pc.unchecked] at hu
  · rcases hquiet u with hp | ⟨op', hp⟩ <;> simp [hp, Pc.rechecked] at hu

omit [Inhabited α] in
/-- A channel that is open announces a value or a free slot. -/
theorem ready_of_ne {ch : Channel α} (hwf : WellFormed ch) {c c' : Cond} (hne : c ≠ c')
    (h : ch.ready c = false) : ch.ready c' = true := by
  have hpos := hwf.pos
  have hzero := (available_eq_zero h).1
  cases c with
  | notEmpty =>
      cases c' with
      | notEmpty => exact absurd rfl hne
      | notFull =>
          simp only [available] at hzero
          simp only [Channel.ready, Bool.or_eq_true, decide_eq_true_eq]
          exact Or.inr (by omega)
  | notFull =>
      cases c' with
      | notFull => exact absurd rfl hne
      | notEmpty =>
          simp only [available] at hzero
          simp only [Channel.ready, Bool.or_eq_true, decide_eq_true_eq]
          exact Or.inr (by omega)

/-- Every thread is outside, or waits for something that is missing: in an open channel, and all for
the same. -/
structure Waiting (s : State α ι) : Prop where
  free : s.mtx = none
  waits : ∀ t, s.pc t = .outside ∨ ∃ op, s.pc t = .asleep op ∧ s.channel.ready op.waitsOn = false
  closed : s.channel.closed = true → ∀ t, s.pc t = .outside
  same : ∀ t u op op', s.pc t = .asleep op → s.pc u = .asleep op' → op.waitsOn = op'.waitsOn

/-- **Threads that cannot go on wait for something that is missing.** -/
theorem waiting_of_settled {size : ℤ} (hr : (system α ι size).Reachable s)
    (hs : (finishing α ι size).Settled Action.spurious s) : Waiting s := by
  have hactive : ∀ t, (s.pc t).holds = false ∧ (∀ c, s.pc t ≠ .notifying c) ∧
      ∀ c, s.pc t ≠ .closeNotifying c := by
    intro t
    have hnot : ¬((s.pc t).holds = true ∨ (∃ c, s.pc t = .notifying c) ∨
        ∃ c, s.pc t = .closeNotifying c) := by
      intro h
      obtain ⟨a, ha, s', hs'⟩ := exists_step_of_active size h
      rw [hs a ha] at hs'
      simp at hs'
    obtain ⟨hholds, hrest⟩ := not_or.1 hnot
    obtain ⟨hone, hall⟩ := not_or.1 hrest
    exact ⟨by simpa using hholds, not_exists.1 hone, not_exists.1 hall⟩
  have hfree : s.mtx = none := by
    cases hm : s.mtx with
    | none => rfl
    | some t =>
        have hholds := held_of_reachable hr t hm
        rw [(hactive t).1] at hholds
        simp at hholds
  -- the mutex is free, so nobody waits for it
  have hlock : ∀ t, (s.pc t).afterLock = none := by
    intro t
    by_contra hne
    obtain ⟨p, hp⟩ := Option.ne_none_iff_exists'.1 hne
    have hnone := hs (.lock t) rfl
    have hsome : (finishing α ι size).step s (.lock t) = some { s.goto t p with mtx := some t } :=
      Automaton.restrict_step_eq_some.2 ⟨rfl, by simp [system, step, hfree, hp]⟩
    rw [hnone] at hsome
    simp at hsome
  have hquiet : ∀ t, s.pc t = .outside ∨ ∃ op, s.pc t = .asleep op := by
    intro t
    obtain ⟨hholds, hone, hall⟩ := hactive t
    have hl := hlock t
    cases hp : s.pc t with
    | outside => exact Or.inl rfl
    | asleep op => exact Or.inr ⟨op, rfl⟩
    | notifying c => exact absurd hp (hone c)
    | closeNotifying c => exact absurd hp (hall c)
    | locking op => simp [hp, Pc.afterLock] at hl
    | woken op => simp [hp, Pc.afterLock] at hl
    | closeLocking => simp [hp, Pc.afterLock] at hl
    | _ => simp [hp, Pc.holds] at hholds
  have hwaits : ∀ t op, s.pc t = .asleep op → s.channel.ready op.waitsOn = false :=
    fun t op ht => not_ready_of_quiet (fun _ => covered_of_reachable hr)
      (fun _ => closeOwes_of_reachable hr) (locked_of_reachable hr) hquiet ht
  refine ⟨hfree, ?_, ?_, ?_⟩
  · intro t
    rcases hquiet t with ht | ⟨op, ht⟩
    · exact Or.inl ht
    · exact Or.inr ⟨op, ht, hwaits t op ht⟩
  · intro hclosed t
    refine (hquiet t).resolve_right ?_
    rintro ⟨op, ht⟩
    have hopen := (available_eq_zero (hwaits t op ht)).2
    rw [hclosed] at hopen
    simp at hopen
  · intro t u op op' ht hu
    by_contra hne
    have hready := ready_of_ne (refines_of_reachable hr).wellFormed hne (hwaits t op ht)
    rw [hwaits u op' hu] at hready
    simp at hready

/-- **Every call completes, or waits for something that is missing**: where no thread makes a new call, a
run has at most `4 n² + 8 n` steps for `n` threads, and three more for each spurious wake-up; and it can be
continued until every thread has returned or sleeps on a predicate that is false.  In a channel that has
been closed every thread returns. -/
theorem channel_calls_complete {size : ℤ} (hr : (system α ι size).Reachable s) :
    (finishing α ι size).CompletesWithin Action.spurious 3
      (4 * Fintype.card ι ^ 2 + 8 * Fintype.card ι) Waiting s := by
  refine Automaton.CompletesWithin.of_rank (I := (system α ι size).Reachable) State.rank ?_ ?_ hr
    s.rank_le
  · intro s a s' hr hs
    exact ⟨Automaton.Reachable.step a hr (Automaton.restrict_step_eq_some.1 hs).2, rank_step hs⟩
  · intro s hr hs
    exact waiting_of_settled hr hs

/-- Two receivers sleep, and a third thread is about to close the channel: a few steps later all are
outside. -/
theorem channel_calls_complete_two_receivers :
    ∃ s : State ℕ (Fin 3), (system ℕ (Fin 3) 1).Reachable s ∧ s.pc 0 = .asleep .recv ∧
      s.pc 1 = .asleep .recv ∧ s.channel.closed = true ∧
      (finishing ℕ (Fin 3) 1).CompletesWithin Action.spurious 3
        (4 * Fintype.card (Fin 3) ^ 2 + 8 * Fintype.card (Fin 3)) Waiting s := by
  obtain ⟨s, hs⟩ : ∃ s, (system ℕ (Fin 3) 1).run (initial 1)
      [.call 0 .recv, .lock 0, .check 0, .call 1 .recv, .lock 1, .check 1, .callClose 2, .lock 2,
        .update 2 0] = some s := ⟨_, rfl⟩
  have hr : (system ℕ (Fin 3) 1).Reachable s := Automaton.Reachable.of_run rfl hs
  have hpc : s.pc 0 = .asleep .recv ∧ s.pc 1 = .asleep .recv ∧ s.channel.closed = true := by
    obtain rfl := Option.some_inj.1 hs
    exact ⟨rfl, rfl, rfl⟩
  exact ⟨s, hr, hpc.1, hpc.2.1, hpc.2.2, channel_calls_complete hr⟩

end BufferedChannel
