/-
**Monitors with one condition variable.**

An object behind a mutex, with a predicate that threads wait for.  A thread runs calls, each a sequence
of three kinds of operations: an update, which is followed by a notification of all sleepers once the
mutex has been released; a wait until the predicate holds; and a query.  Each operation takes the mutex
and releases it again, so that other threads may come between two operations of one call.

Every operation is split into its steps: taking the mutex, the access to the object, falling asleep
together with the release of the mutex, the release, and only later the notification.  A sleeper may
wake up spuriously, and takes the mutex again before it looks at the predicate again.

For a predicate that no update makes false again, the operations behave as if they were done one after
the other, no wake-up is lost, a query behind a wait finds the predicate true, and all calls get through
or wait for an update that has not been made.

Nothing in this module refers to a particular program.

Main definitions:

* `Monitor.Object`, `Monitor.Op` — the object, and the operations on it;
* `Monitor.Pc`, `Monitor.State`, `Monitor.Action`, `Monitor.system` — the threads and their steps;
* `Monitor.Replays` — a log of updates and answers that a sequential use of the object gives;
* `Monitor.Invariant` — what holds in every reachable state;
* `Monitor.Allowed` — the calls have a given form;
* `Monitor.Quiet` — no thread can go on.

Main results:

* `Monitor.effect_of_step` — inversion of the step function;
* `Monitor.Invariant.step`, `Monitor.invariant_of_reachable` — **the invariant of every run**;
* `Monitor.Replays.ready_of_mem` — where one answer shows that the predicate is true, later ones do so,
  too;
* `Monitor.Allowed.step` — the calls keep their form;
* `Monitor.Effect.rank`, `Monitor.quiet_of_stuck` — **every step lowers the rank**, and threads that
  cannot go on are outside, or wait for an update.
-/

import CppMultithreaded.Automaton
import CppMultithreaded.ThreadWeight
import Mathlib.Algebra.Module.Defs

set_option relaxedAutoImplicit false
set_option autoImplicit false

namespace Monitor

variable {σ U R β ι : Type*}

/-! ### Objects and operations -/

/-- An object: its initial value, the predicate that is waited for, its updates and its queries. -/
structure Object (σ U R β : Type*) where
  init : σ
  ready : σ → Bool
  apply : U → σ → σ
  eval : R → σ → β

/-- No update makes the predicate false again. -/
def Object.Stable (O : Object σ U R β) : Prop :=
  ∀ u x, O.ready x = true → O.ready (O.apply u x) = true

/-- The operations. -/
inductive Op (U R : Type*)
  | wait
  | update (u : U)
  | read (r : R)

/-- The rest of a call, and whether the call has waited. -/
structure Cont (U R : Type*) where
  ops : List (Op U R)
  waited : Bool

/-- The program points of a thread. -/
inductive Pc (U R : Type*)
  /-- Outside of a call. -/
  | idle
  /-- About to take the mutex for an operation. -/
  | locking (op : Op U R) (k : Cont U R)
  /-- Holds the mutex, about to look at the predicate. -/
  | checking (k : Cont U R)
  /-- Asleep on the condition variable. -/
  | asleep (k : Cont U R)
  /-- Woken, about to take the mutex again. -/
  | woken (k : Cont U R)
  /-- Holds the mutex, about to make an update. -/
  | updating (u : U) (k : Cont U R)
  /-- Holds the mutex, about to make a query. -/
  | reading (r : R) (k : Cont U R)
  /-- About to release the mutex. -/
  | releasing (k : Cont U R)
  /-- Has made an update, about to release the mutex and then to notify. -/
  | unlocking (k : Cont U R)
  /-- About to notify all sleepers. -/
  | notifying (k : Cont U R)

/-- What is recorded: the updates made, and the answers given, with whether the call has waited. -/
inductive Entry (U R β ι : Type*)
  | updated (t : ι) (u : U)
  | answered (t : ι) (r : R) (b : β) (waited : Bool)

/-- The object, its mutex, the threads, and the log. -/
structure State (σ U R β ι : Type*) where
  shared : σ
  mtx : Option ι
  pc : ι → Pc U R
  log : List (Entry U R β ι)

/-- The steps. -/
inductive Action (U R ι : Type*)
  | call (t : ι) (ops : List (Op U R))
  | lock (t : ι)
  | check (t : ι)
  | update (t : ι)
  | read (t : ι)
  | unlock (t : ι)
  | notifyAll (t : ι)
  | spuriousWakeup (t : ι)

/-- The program point at the start of the rest of a call. -/
def Cont.start : Cont U R → Pc U R
  | ⟨[], _⟩ => .idle
  | ⟨op :: ops, waited⟩ => .locking op ⟨ops, waited⟩

/-- The program point after the mutex has been taken for an operation. -/
def Op.locked (k : Cont U R) : Op U R → Pc U R
  | .wait => .checking k
  | .update u => .updating u k
  | .read r => .reading r k

/-- The program point of a thread after a notification. -/
def Pc.wake : Pc U R → Pc U R
  | .asleep k => .woken k
  | p => p

variable [DecidableEq ι]

/-- Thread `t` moves to the program point `p`. -/
def State.goto (s : State σ U R β ι) (t : ι) (p : Pc U R) : State σ U R β ι :=
  { s with pc := Function.update s.pc t p }

/-- The step function. -/
def step (O : Object σ U R β) (s : State σ U R β ι) : Action U R ι → Option (State σ U R β ι)
  | .call t ops =>
      match s.pc t with
      | .idle => some (s.goto t (Cont.start ⟨ops, false⟩))
      | _ => none
  | .lock t =>
      match s.mtx, s.pc t with
      | none, .locking op k => some { s.goto t (op.locked k) with mtx := some t }
      | none, .woken k => some { s.goto t (.checking k) with mtx := some t }
      | _, _ => none
  | .check t =>
      match s.pc t with
      | .checking k =>
          if O.ready s.shared then some (s.goto t (.releasing { k with waited := true }))
          else some { s.goto t (.asleep k) with mtx := none }
      | _ => none
  | .update t =>
      match s.pc t with
      | .updating u k =>
          some { s.goto t (.unlocking k) with
            shared := O.apply u s.shared
            log := s.log ++ [.updated t u] }
      | _ => none
  | .read t =>
      match s.pc t with
      | .reading r k =>
          some { s.goto t (.releasing k) with
            log := s.log ++ [.answered t r (O.eval r s.shared) k.waited] }
      | _ => none
  | .unlock t =>
      match s.pc t with
      | .releasing k => some { s.goto t k.start with mtx := none }
      | .unlocking k => some { s.goto t (.notifying k) with mtx := none }
      | _ => none
  | .notifyAll t =>
      match s.pc t with
      | .notifying k => some { s with pc := Function.update (fun u => (s.pc u).wake) t k.start }
      | _ => none
  | .spuriousWakeup t =>
      match s.pc t with
      | .asleep k => some (s.goto t (.woken k))
      | _ => none

omit [DecidableEq ι] in
/-- The object before its first use, with every thread outside of a call. -/
def State.initial (O : Object σ U R β) : State σ U R β ι := ⟨O.init, none, fun _ => .idle, []⟩

/-- The automaton of the threads `ι` on an object. -/
def system (O : Object σ U R β) (ι : Type*) [DecidableEq ι] :
    Automaton (State σ U R β ι) (Action U R ι) where
  init s := s = State.initial O
  step := step O

/-- The effects of a step, one constructor for each. -/
inductive Effect (O : Object σ U R β) (s : State σ U R β ι) :
    Action U R ι → State σ U R β ι → Prop
  | call (t : ι) (ops : List (Op U R)) : s.pc t = .idle →
      Effect O s (.call t ops) (s.goto t (Cont.start ⟨ops, false⟩))
  | lock (t : ι) (op : Op U R) (k : Cont U R) : s.mtx = none → s.pc t = .locking op k →
      Effect O s (.lock t) { s.goto t (op.locked k) with mtx := some t }
  | relock (t : ι) (k : Cont U R) : s.mtx = none → s.pc t = .woken k →
      Effect O s (.lock t) { s.goto t (.checking k) with mtx := some t }
  | pass (t : ι) (k : Cont U R) : s.pc t = .checking k → O.ready s.shared = true →
      Effect O s (.check t) (s.goto t (.releasing { k with waited := true }))
  | sleep (t : ι) (k : Cont U R) : s.pc t = .checking k → O.ready s.shared = false →
      Effect O s (.check t) { s.goto t (.asleep k) with mtx := none }
  | update (t : ι) (u : U) (k : Cont U R) : s.pc t = .updating u k →
      Effect O s (.update t)
        { s.goto t (.unlocking k) with
          shared := O.apply u s.shared
          log := s.log ++ [.updated t u] }
  | read (t : ι) (r : R) (k : Cont U R) : s.pc t = .reading r k →
      Effect O s (.read t)
        { s.goto t (.releasing k) with
          log := s.log ++ [.answered t r (O.eval r s.shared) k.waited] }
  | release (t : ι) (k : Cont U R) : s.pc t = .releasing k →
      Effect O s (.unlock t) { s.goto t k.start with mtx := none }
  | unlock (t : ι) (k : Cont U R) : s.pc t = .unlocking k →
      Effect O s (.unlock t) { s.goto t (.notifying k) with mtx := none }
  | notifyAll (t : ι) (k : Cont U R) : s.pc t = .notifying k →
      Effect O s (.notifyAll t)
        { s with pc := Function.update (fun u => (s.pc u).wake) t k.start }
  | spuriousWakeup (t : ι) (k : Cont U R) : s.pc t = .asleep k →
      Effect O s (.spuriousWakeup t) (s.goto t (.woken k))

/-- **Inversion of the step function.** -/
theorem effect_of_step {O : Object σ U R β} {s s' : State σ U R β ι} {a : Action U R ι}
    (h : step O s a = some s') : Effect O s a s' := by
  cases a with
  | call t ops =>
      simp only [step] at h
      split at h
      · next hp =>
          rw [← Option.some.inj h]
          exact Effect.call t ops hp
      · cases h
  | lock t =>
      simp only [step] at h
      split at h
      · next op k hfree hp =>
          rw [← Option.some.inj h]
          exact Effect.lock t op k hfree hp
      · next k hfree hp =>
          rw [← Option.some.inj h]
          exact Effect.relock t k hfree hp
      · cases h
  | check t =>
      simp only [step] at h
      split at h
      · next k hp =>
          split_ifs at h with hready
          · rw [← Option.some.inj h]
            exact Effect.pass t k hp hready
          · rw [← Option.some.inj h]
            exact Effect.sleep t k hp (Bool.eq_false_iff.2 hready)
      · cases h
  | update t =>
      simp only [step] at h
      split at h
      · next u k hp =>
          rw [← Option.some.inj h]
          exact Effect.update t u k hp
      · cases h
  | read t =>
      simp only [step] at h
      split at h
      · next r k hp =>
          rw [← Option.some.inj h]
          exact Effect.read t r k hp
      · cases h
  | unlock t =>
      simp only [step] at h
      split at h
      · next k hp =>
          rw [← Option.some.inj h]
          exact Effect.release t k hp
      · next k hp =>
          rw [← Option.some.inj h]
          exact Effect.unlock t k hp
      · cases h
  | notifyAll t =>
      simp only [step] at h
      split at h
      · next k hp =>
          rw [← Option.some.inj h]
          exact Effect.notifyAll t k hp
      · cases h
  | spuriousWakeup t =>
      simp only [step] at h
      split at h
      · next k hp =>
          rw [← Option.some.inj h]
          exact Effect.spuriousWakeup t k hp
      · cases h

/-! ### What a step leaves alone -/

/-- The thread that makes a step. -/
def Action.thread : Action U R ι → ι
  | .call t _ | .lock t | .check t | .update t | .read t | .unlock t | .notifyAll t
  | .spuriousWakeup t => t

/-- The step is no new call. -/
def Action.goesOn : Action U R ι → Bool
  | .call _ _ => false
  | _ => true

/-- The operations that a thread has still to do. -/
def Pc.ops : Pc U R → List (Op U R)
  | .idle => []
  | .locking op k => op :: k.ops
  | .checking k | .asleep k | .woken k => .wait :: k.ops
  | .updating u k => .update u :: k.ops
  | .reading r k => .read r :: k.ops
  | .releasing k | .unlocking k | .notifying k => k.ops

theorem Cont.ops_start (k : Cont U R) : k.start.ops = k.ops := by
  obtain ⟨ops, waited⟩ := k
  cases ops <;> rfl

theorem Op.ops_locked (k : Cont U R) (op : Op U R) : (op.locked k).ops = op :: k.ops := by
  cases op <;> rfl

theorem Pc.ops_wake (p : Pc U R) : p.wake.ops = p.ops := by
  cases p <;> rfl

/-- A step leaves the other threads alone, or wakes them. -/
theorem Effect.pc_of_ne {O : Object σ U R β} {s s' : State σ U R β ι} {a : Action U R ι}
    (he : Effect O s a s') {u : ι} (hu : u ≠ a.thread) :
    s'.pc u = s.pc u ∨ s'.pc u = (s.pc u).wake := by
  cases he with
  | notifyAll t k hp =>
      have hne : u ≠ t := hu
      refine Or.inr ?_
      dsimp only
      rw [Function.update_of_ne hne]
  | _ => exact Or.inl (Function.update_of_ne hu _ _)

theorem Pc.wake_eq_idle {p : Pc U R} : p.wake = .idle ↔ p = .idle := by
  cases p <;> simp [wake]

/-- A step leaves the other threads inside, or outside, of a call. -/
theorem Effect.idle_of_ne {O : Object σ U R β} {s s' : State σ U R β ι} {a : Action U R ι}
    (he : Effect O s a s') {u : ι} (hu : u ≠ a.thread) : s'.pc u = .idle ↔ s.pc u = .idle := by
  rcases he.pc_of_ne hu with hpc | hpc
  · rw [hpc]
  · rw [hpc, Pc.wake_eq_idle]

/-- A thread that makes a step is inside of a call. -/
theorem Effect.ne_idle {O : Object σ U R β} {s s' : State σ U R β ι} {a : Action U R ι}
    (he : Effect O s a s') (hgoes : a.goesOn = true) : s.pc a.thread ≠ .idle := by
  cases he with
  | call t ops hp => cases hgoes
  | lock t op k hfree hp => simp [Action.thread, hp]
  | relock t k hfree hp => simp [Action.thread, hp]
  | pass t k hp hready => simp [Action.thread, hp]
  | sleep t k hp hready => simp [Action.thread, hp]
  | update t u k hp => simp [Action.thread, hp]
  | read t r k hp => simp [Action.thread, hp]
  | release t k hp => simp [Action.thread, hp]
  | unlock t k hp => simp [Action.thread, hp]
  | notifyAll t k hp => simp [Action.thread, hp]
  | spuriousWakeup t k hp => simp [Action.thread, hp]

/-- A step that is no new call adds nothing to what a thread has still to do. -/
theorem Effect.mem_ops {O : Object σ U R β} {s s' : State σ U R β ι} {a : Action U R ι}
    (he : Effect O s a s') (hgoes : a.goesOn = true) {u : ι} {op : Op U R}
    (h : op ∈ (s'.pc u).ops) : op ∈ (s.pc u).ops := by
  by_cases hu : u = a.thread
  · subst hu
    cases he with
    | call t ops hp => cases hgoes
    | lock t op' k hfree hp =>
        have hmem : op ∈ (op'.locked k).ops := by simpa [State.goto, Action.thread] using h
        rw [Op.ops_locked] at hmem
        simpa [Action.thread, hp, Pc.ops] using hmem
    | release t k hp =>
        have hmem : op ∈ k.start.ops := by simpa [State.goto, Action.thread] using h
        rw [Cont.ops_start] at hmem
        simpa [Action.thread, hp, Pc.ops] using hmem
    | notifyAll t k hp =>
        have hmem : op ∈ k.start.ops := by simpa [Action.thread] using h
        rw [Cont.ops_start] at hmem
        simpa [Action.thread, hp, Pc.ops] using hmem
    | relock t k hfree hp => simpa [State.goto, Action.thread, hp, Pc.ops] using h
    | unlock t k hp => simpa [State.goto, Action.thread, hp, Pc.ops] using h
    | sleep t k hp hready => simpa [State.goto, Action.thread, hp, Pc.ops] using h
    | spuriousWakeup t k hp => simpa [State.goto, Action.thread, hp, Pc.ops] using h
    | pass t k hp hready =>
        have hmem : op ∈ k.ops := by simpa [State.goto, Action.thread, Pc.ops] using h
        simp [Action.thread, hp, Pc.ops, hmem]
    | update t u k hp =>
        have hmem : op ∈ k.ops := by simpa [State.goto, Action.thread, Pc.ops] using h
        simp [Action.thread, hp, Pc.ops, hmem]
    | read t r k hp =>
        have hmem : op ∈ k.ops := by simpa [State.goto, Action.thread, Pc.ops] using h
        simp [Action.thread, hp, Pc.ops, hmem]
  · rcases he.pc_of_ne hu with hpc | hpc
    · rwa [hpc] at h
    · rwa [hpc, Pc.ops_wake] at h

/-- A new call adds its own operations. -/
theorem Effect.mem_ops_of_call {O : Object σ U R β} {s s' : State σ U R β ι} {t : ι}
    {ops : List (Op U R)} (he : Effect O s (.call t ops) s') {u : ι} {op : Op U R}
    (h : op ∈ (s'.pc u).ops) : u = t ∧ op ∈ ops ∨ op ∈ (s.pc u).ops := by
  cases he with
  | call t ops hp =>
      by_cases hu : u = t
      · subst hu
        have hmem : op ∈ (Cont.start ⟨ops, false⟩).ops := by simpa [State.goto] using h
        rw [Cont.ops_start] at hmem
        exact Or.inl ⟨rfl, hmem⟩
      · simp only [State.goto, Function.update_of_ne hu] at h
        exact Or.inr h

/-- The store of an update. -/
theorem Effect.of_update {O : Object σ U R β} {s s' : State σ U R β ι} {t : ι}
    (he : Effect O s (.update t) s') : ∃ u k, s.pc t = .updating u k ∧ s'.pc t = .unlocking k ∧
      s'.shared = O.apply u s.shared := by
  cases he with
  | update t u k hp => exact ⟨u, k, hp, by simp [State.goto], rfl⟩

/-- An answer that is in the log has been there before, or is the one that the step gives. -/
theorem Effect.mem_log {O : Object σ U R β} {s s' : State σ U R β ι} {a : Action U R ι}
    (he : Effect O s a s') {t : ι} {r : R} {b : β} {waited : Bool}
    (h : .answered t r b waited ∈ s'.log) : .answered t r b waited ∈ s.log ∨
      ∃ k, s.pc t = .reading r k ∧ b = O.eval r s.shared ∧ waited = k.waited := by
  cases he with
  | update u d k hp =>
      simp only [List.mem_append, List.mem_singleton, reduceCtorEq, or_false] at h
      exact Or.inl h
  | read t' r' k hp =>
      refine (List.mem_append.1 h).imp_right ?_
      intro hmem
      simp only [List.mem_singleton, Entry.answered.injEq] at hmem
      obtain ⟨rfl, rfl, rfl, rfl⟩ := hmem
      exact ⟨k, hp, rfl, rfl⟩
  | _ => exact Or.inl h

/-- Only an update changes the object. -/
theorem Effect.shared_eq {O : Object σ U R β} {s s' : State σ U R β ι} {a : Action U R ι}
    (he : Effect O s a s') (ha : a ≠ .update a.thread) : s'.shared = s.shared := by
  cases he with
  | update t u k hp => exact absurd rfl ha
  | _ => rfl

/-! ### The invariant -/

/-- A thread at this program point holds the mutex. -/
def Pc.holds : Pc U R → Bool
  | .checking _ | .updating _ _ | .reading _ _ | .releasing _ | .unlocking _ => true
  | _ => false

/-- The thread is asleep. -/
def Pc.sleeps : Pc U R → Bool
  | .asleep _ => true
  | _ => false

/-- The thread is going to notify all sleepers. -/
def Pc.owes : Pc U R → Bool
  | .unlocking _ | .notifying _ => true
  | _ => false

/-- The call of the thread has waited. -/
def Pc.waited : Pc U R → Bool
  | .idle => false
  | .locking _ k | .checking k | .asleep k | .woken k | .updating _ k | .reading _ k | .releasing k
  | .unlocking k | .notifying k => k.waited

/-- **A sequential use of the object gives this log**: it starts at `x` and ends at `y`; the answers are
those of the object at their place, and where the call has waited the predicate holds there. -/
inductive Replays (O : Object σ U R β) : σ → List (Entry U R β ι) → σ → Prop
  | nil (x : σ) : Replays O x [] x
  | updated {x y : σ} {es : List (Entry U R β ι)} (t : ι) (u : U) :
      Replays O (O.apply u x) es y → Replays O x (.updated t u :: es) y
  | answered {x y : σ} {es : List (Entry U R β ι)} (t : ι) (r : R) {waited : Bool} :
      (waited = true → O.ready x = true) → Replays O x es y →
      Replays O x (.answered t r (O.eval r x) waited :: es) y

/-- What holds in every reachable state. -/
structure Invariant (O : Object σ U R β) (s : State σ U R β ι) : Prop where
  locked : ∀ t, (s.pc t).holds = true ↔ s.mtx = some t
  replays : Replays O O.init s.log s.shared
  waited : ∀ t, (s.pc t).waited = true → O.ready s.shared = true
  /-- While somebody sleeps although the predicate holds, somebody is going to notify. -/
  owed : O.ready s.shared = true → (∃ t, (s.pc t).sleeps = true) → ∃ t, (s.pc t).owes = true

section Lemmas

variable {O : Object σ U R β}

omit [DecidableEq ι] in
theorem Replays.snoc_updated {x y : σ} {es : List (Entry U R β ι)} (h : Replays O x es y) (t : ι)
    (u : U) :
    Replays O x (es ++ [.updated t u]) (O.apply u y) := by
  induction h with
  | nil x => exact Replays.updated t u (Replays.nil _)
  | updated t' u' _ ih => exact Replays.updated t' u' ih
  | answered t' r hwaited _ ih => exact Replays.answered t' r hwaited ih

omit [DecidableEq ι] in
theorem Replays.snoc_answered {x y : σ} {es : List (Entry U R β ι)} (h : Replays O x es y) (t : ι)
    (r : R) {waited : Bool} (hready : waited = true → O.ready y = true) :
    Replays O x (es ++ [.answered t r (O.eval r y) waited]) y := by
  induction h with
  | nil x => exact Replays.answered t r hready (Replays.nil _)
  | updated t' u' _ ih => exact Replays.updated t' u' (ih hready)
  | answered t' r' hwaited _ ih => exact Replays.answered t' r' hwaited (ih hready)

@[simp] theorem Pc.holds_wake (p : Pc U R) : p.wake.holds = p.holds := by
  cases p <;> rfl

@[simp] theorem Pc.waited_wake (p : Pc U R) : p.wake.waited = p.waited := by
  cases p <;> rfl

@[simp] theorem Pc.sleeps_wake (p : Pc U R) : p.wake.sleeps = false := by
  cases p <;> rfl

theorem Cont.holds_start (k : Cont U R) : k.start.holds = false := by
  obtain ⟨ops, waited⟩ := k
  cases ops <;> rfl

theorem Cont.sleeps_start (k : Cont U R) : k.start.sleeps = false := by
  obtain ⟨ops, waited⟩ := k
  cases ops <;> rfl

/-- A call that goes on remembers whether it has waited. -/
theorem Cont.waited_of_start {k : Cont U R} (h : k.start.waited = true) : k.waited = true := by
  obtain ⟨ops, waited⟩ := k
  cases ops with
  | nil => cases h
  | cons op ops => exact h

theorem Op.holds_locked (k : Cont U R) (op : Op U R) : (op.locked k).holds = true := by
  cases op <;> rfl

theorem Op.waited_locked (k : Cont U R) (op : Op U R) : (op.locked k).waited = k.waited := by
  cases op <;> rfl

theorem Op.sleeps_locked (k : Cont U R) (op : Op U R) : (op.locked k).sleeps = false := by
  cases op <;> rfl

namespace Invariant

variable {s s' : State σ U R β ι} {t : ι} {p : Pc U R} (h : Invariant O s)

include h

/-- The mutex after a move of one thread: it keeps it, or takes it, or releases it. -/
theorem locked_update (hpc : s'.pc = Function.update s.pc t p)
    (hm : p.holds = (s.pc t).holds ∧ s'.mtx = s.mtx ∨
      s.mtx = none ∧ p.holds = true ∧ s'.mtx = some t ∨
      (s.pc t).holds = true ∧ p.holds = false ∧ s'.mtx = none) (u : ι) :
    (s'.pc u).holds = true ↔ s'.mtx = some u := by
  by_cases hut : u = t
  · rw [hut, hpc, Function.update_self]
    rcases hm with ⟨hp, hmtx⟩ | ⟨-, hp, hmtx⟩ | ⟨-, hp, hmtx⟩
    · rw [hp, hmtx]
      exact h.locked t
    · simp [hp, hmtx]
    · simp [hp, hmtx]
  · rw [hpc, Function.update_of_ne hut, h.locked u]
    rcases hm with ⟨-, hmtx⟩ | ⟨hnone, -, hmtx⟩ | ⟨ht, -, hmtx⟩
    · rw [hmtx]
    · simp [hnone, hmtx, Ne.symm hut]
    · simp [hmtx, (h.locked t).1 ht, Ne.symm hut]

/-- One thread moves, and the object stays as it is. -/
theorem move (hpc : s'.pc = Function.update s.pc t p) (hshared : s'.shared = s.shared)
    (hlog : Replays O O.init s'.log s.shared)
    (hm : p.holds = (s.pc t).holds ∧ s'.mtx = s.mtx ∨
      s.mtx = none ∧ p.holds = true ∧ s'.mtx = some t ∨
      (s.pc t).holds = true ∧ p.holds = false ∧ s'.mtx = none)
    (hwaited : p.waited = true → O.ready s.shared = true)
    (howed : O.ready s.shared = true →
      p.sleeps = false ∧ ((s.pc t).owes = true → p.owes = true ∨ ∀ u, (s.pc u).sleeps = false)) :
    Invariant O s' := by
  refine ⟨h.locked_update hpc hm, hshared ▸ hlog, ?_, ?_⟩
  · intro u hu
    rw [hshared]
    by_cases hut : u = t
    · rw [hut, hpc, Function.update_self] at hu
      exact hwaited hu
    · rw [hpc, Function.update_of_ne hut] at hu
      exact h.waited u hu
  · intro hready hsleep
    rw [hshared] at hready
    obtain ⟨hp, howes⟩ := howed hready
    obtain ⟨u, hu⟩ := hsleep
    have hut : u ≠ t := by
      rintro rfl
      rw [hpc, Function.update_self, hp] at hu
      cases hu
    rw [hpc, Function.update_of_ne hut] at hu
    obtain ⟨v, hv⟩ := h.owed hready ⟨u, hu⟩
    rw [hpc]
    by_cases hvt : v = t
    · rw [hvt] at hv
      rcases howes hv with howes | hnone
      · exact ⟨t, by rw [Function.update_self]; exact howes⟩
      · rw [hnone u] at hu
        cases hu
    · exact ⟨v, by rw [Function.update_of_ne hvt]; exact hv⟩

/-- **Every step keeps the invariant**, where no update makes the predicate false again. -/
theorem step (hstable : O.Stable) {a : Action U R ι} (he : Effect O s a s') : Invariant O s' := by
  cases he with
  | call t ops hp =>
      refine h.move rfl rfl h.replays (Or.inl ⟨?_, rfl⟩) ?_ ?_
      · rw [Cont.holds_start, hp]
        rfl
      · intro hw
        cases Cont.waited_of_start hw
      · exact fun _ => ⟨Cont.sleeps_start _, by simp [hp, Pc.owes]⟩
  | lock t op k hfree hp =>
      refine h.move rfl rfl h.replays (Or.inr (Or.inl ⟨hfree, Op.holds_locked k op, rfl⟩)) ?_ ?_
      · intro hw
        rw [Op.waited_locked] at hw
        exact h.waited t (by rw [hp]; exact hw)
      · exact fun _ => ⟨Op.sleeps_locked k op, by simp [hp, Pc.owes]⟩
  | relock t k hfree hp =>
      refine h.move rfl rfl h.replays (Or.inr (Or.inl ⟨hfree, rfl, rfl⟩)) ?_ ?_
      · exact fun hw => h.waited t (by rw [hp]; exact hw)
      · exact fun _ => ⟨rfl, by simp [hp, Pc.owes]⟩
  | pass t k hp hready =>
      refine h.move rfl rfl h.replays (Or.inl ⟨by rw [hp]; rfl, rfl⟩) (fun _ => hready) ?_
      exact fun _ => ⟨rfl, by simp [hp, Pc.owes]⟩
  | sleep t k hp hready =>
      refine h.move rfl rfl h.replays (Or.inr (Or.inr ⟨by rw [hp]; rfl, rfl, rfl⟩)) ?_ ?_
      · exact fun hw => h.waited t (by rw [hp]; exact hw)
      · intro hnot
        rw [hready] at hnot
        cases hnot
  | update t u k hp =>
      have hother : ∀ v, v ≠ t → Function.update s.pc t (.unlocking k) v = s.pc v :=
        fun v hv => Function.update_of_ne hv _ _
      refine ⟨h.locked_update rfl (Or.inl ⟨by rw [hp]; rfl, rfl⟩), h.replays.snoc_updated t u, ?_, ?_⟩
      · intro v hv
        refine hstable u s.shared ?_
        by_cases hvt : v = t
        · refine h.waited t ?_
          rw [hp]
          rw [hvt] at hv
          simpa [State.goto, Pc.waited] using hv
        · exact h.waited v (by rw [← hother v hvt]; exact hv)
      · exact fun _ _ => ⟨t, by simp [State.goto, Pc.owes]⟩
  | read t r k hp =>
      have hready : k.waited = true → O.ready s.shared = true := fun hw =>
        h.waited t (by rw [hp]; exact hw)
      refine h.move rfl rfl (h.replays.snoc_answered t r hready) (Or.inl ⟨by rw [hp]; rfl, rfl⟩)
        hready ?_
      exact fun _ => ⟨rfl, by simp [hp, Pc.owes]⟩
  | release t k hp =>
      refine h.move rfl rfl h.replays
        (Or.inr (Or.inr ⟨by rw [hp]; rfl, Cont.holds_start k, rfl⟩)) ?_ ?_
      · exact fun hw => h.waited t (by rw [hp]; exact Cont.waited_of_start hw)
      · exact fun _ => ⟨Cont.sleeps_start k, by simp [hp, Pc.owes]⟩
  | unlock t k hp =>
      refine h.move rfl rfl h.replays (Or.inr (Or.inr ⟨by rw [hp]; rfl, rfl, rfl⟩)) ?_ ?_
      · exact fun hw => h.waited t (by rw [hp]; exact hw)
      · exact fun _ => ⟨rfl, fun _ => Or.inl rfl⟩
  | notifyAll t k hp =>
      have hwake : Invariant O { s with pc := fun u => (s.pc u).wake } := by
        refine ⟨?_, h.replays, ?_, ?_⟩
        · simpa using h.locked
        · simpa using h.waited
        · rintro - ⟨u, hu⟩
          simp at hu
      refine hwake.move (t := t) (p := k.start) rfl rfl h.replays (Or.inl ⟨?_, rfl⟩) ?_ ?_
      · rw [Cont.holds_start, Pc.holds_wake, hp]
        rfl
      · exact fun hw => h.waited t (by rw [hp]; exact Cont.waited_of_start hw)
      · exact fun _ => ⟨Cont.sleeps_start k, fun _ => Or.inr fun u => Pc.sleeps_wake (s.pc u)⟩
  | spuriousWakeup t k hp =>
      refine h.move rfl rfl h.replays (Or.inl ⟨by rw [hp]; rfl, rfl⟩) ?_ ?_
      · exact fun hw => h.waited t (by rw [hp]; exact hw)
      · exact fun _ => ⟨rfl, by simp [hp, Pc.owes]⟩

end Invariant

/-- **The invariant of every run**, where no update makes the predicate false again. -/
theorem invariant_of_reachable (hstable : O.Stable) {s : State σ U R β ι}
    (h : (system O ι).Reachable s) : Invariant O s := by
  refine h.invariant ?_ ?_
  · rintro s rfl
    refine ⟨?_, Replays.nil _, ?_, ?_⟩
    · simp [State.initial, Pc.holds]
    · simp [State.initial, Pc.waited]
    · simp [State.initial, Pc.sleeps]
  · intro s a s' _ hinv hs
    exact hinv.step hstable (effect_of_step hs)

/-! ### Answers -/

omit [DecidableEq ι] in
theorem Replays.of_append {x z : σ} {es es' : List (Entry U R β ι)} (h : Replays O x (es ++ es') z) :
    ∃ y, Replays O x es y ∧ Replays O y es' z := by
  induction es generalizing x with
  | nil => exact ⟨x, Replays.nil x, h⟩
  | cons e es ih =>
      rw [List.cons_append] at h
      cases h with
      | updated t u h =>
          obtain ⟨y, hes, hes'⟩ := ih h
          exact ⟨y, Replays.updated t u hes, hes'⟩
      | answered t r hwaited h =>
          obtain ⟨y, hes, hes'⟩ := ih h
          exact ⟨y, Replays.answered t r hwaited hes, hes'⟩

omit [DecidableEq ι] in
/-- The predicate stays true. -/
theorem Replays.ready (hstable : O.Stable) {x y : σ} {es : List (Entry U R β ι)} (h : Replays O x es y)
    (hx : O.ready x = true) : O.ready y = true := by
  induction h with
  | nil x => exact hx
  | updated t u _ ih => exact ih (hstable u _ hx)
  | answered t r hwaited _ ih => exact ih hx

omit [DecidableEq ι] in
/-- **Where one answer shows that the predicate is true, it is true at every later answer.** -/
theorem Replays.ready_of_mem (hstable : O.Stable) {x y : σ} {es es' : List (Entry U R β ι)}
    (h : Replays O x (es ++ es') y) {t : ι} {r : R} {b : β} {waited : Bool}
    (hmem : .answered t r b waited ∈ es)
    (hshows : ∀ z, b = O.eval r z → waited = true ∨ O.ready z = true)
    {t' : ι} {r' : R} {b' : β} {waited' : Bool} (hmem' : .answered t' r' b' waited' ∈ es') :
    ∃ z, O.ready z = true ∧ b' = O.eval r' z := by
  obtain ⟨v, hes, hes'⟩ := h.of_append
  obtain ⟨es₁, es₂, rfl⟩ := List.append_of_mem hmem
  obtain ⟨z, -, hz⟩ := hes.of_append
  have hv : O.ready v = true := by
    cases hz with
    | answered _ _ hwaited hrest => exact hrest.ready hstable ((hshows z rfl).elim hwaited id)
  obtain ⟨es₃, es₄, rfl⟩ := List.append_of_mem hmem'
  obtain ⟨z', hz', hrest⟩ := hes'.of_append
  cases hrest with
  | answered _ _ _ _ => exact ⟨z', hz'.ready hstable hv, rfl⟩

/-! ### Calls of a given form -/

/-- The operation is a wait. -/
def Op.isWait : Op U R → Bool
  | .wait => true
  | _ => false

/-- A set of rests of calls that has with a rest also what is left of it after its first operation. -/
def Progresses (K : Cont U R → Prop) : Prop :=
  ∀ op ops waited, K ⟨op :: ops, waited⟩ → K ⟨ops, waited || op.isWait⟩

/-- The rest of the call of a thread, with the operation that it is doing, is in `K`. -/
def Pc.Allowed (K : Cont U R → Prop) : Pc U R → Prop
  | .idle => True
  | .locking op k => K ⟨op :: k.ops, k.waited⟩
  | .checking k | .asleep k | .woken k => K ⟨.wait :: k.ops, k.waited⟩
  | .updating u k => K ⟨.update u :: k.ops, k.waited⟩
  | .reading r k => K ⟨.read r :: k.ops, k.waited⟩
  | .releasing k => ∃ op waited, K ⟨op :: k.ops, waited⟩ ∧ k.waited = (waited || op.isWait)
  | .unlocking k | .notifying k => ∃ u, K ⟨.update u :: k.ops, k.waited⟩

/-- The calls that are being done, and those whose answers have been recorded, are in `K`. -/
structure Allowed (K : Cont U R → Prop) (s : State σ U R β ι) : Prop where
  pc : ∀ t, (s.pc t).Allowed K
  log : ∀ t r b waited, .answered t r b waited ∈ s.log → ∃ ops, K ⟨.read r :: ops, waited⟩

section Allowed

variable {K : Cont U R → Prop}

theorem Cont.allowed_start {k : Cont U R} (h : K k) : k.start.Allowed K := by
  obtain ⟨ops, waited⟩ := k
  cases ops with
  | nil => exact True.intro
  | cons op ops => exact h

theorem Op.allowed_locked {op : Op U R} {k : Cont U R} (h : K ⟨op :: k.ops, k.waited⟩) :
    (op.locked k).Allowed K := by
  cases op <;> exact h

theorem Pc.Allowed.wake {p : Pc U R} (h : p.Allowed K) : p.wake.Allowed K := by
  cases p <;> exact h

/-- What is left after an update. -/
theorem Progresses.of_update (hK : Progresses K) {k : Cont U R}
    (h : ∃ u, K ⟨.update u :: k.ops, k.waited⟩) : K k := by
  obtain ⟨u, hu⟩ := h
  have hnext := hK (.update u) k.ops k.waited hu
  rwa [show (Op.update u : Op U R).isWait = false from rfl, Bool.or_false] at hnext

namespace Allowed

variable {s s' : State σ U R β ι} {t : ι} {p : Pc U R} (h : Allowed K s)

include h

omit [DecidableEq ι] in
theorem of_eq (hp : s.pc t = p) : p.Allowed K := hp ▸ h.pc t

/-- One thread moves. -/
theorem pc_update (hp : p.Allowed K) (u : ι) : (Function.update s.pc t p u).Allowed K := by
  by_cases hut : u = t
  · rw [hut, Function.update_self]
    exact hp
  · rw [Function.update_of_ne hut]
    exact h.pc u

/-- **The calls stay in `K`**, where every new call is in it. -/
theorem step (hK : Progresses K) {a : Action U R ι}
    (hcall : ∀ t ops, a = .call t ops → K ⟨ops, false⟩) (he : Effect O s a s') : Allowed K s' := by
  refine ⟨?_, ?_⟩
  · cases he with
    | call t ops hp => exact h.pc_update (Cont.allowed_start (hcall t ops rfl))
    | lock t op k hfree hp => exact h.pc_update (Op.allowed_locked (h.of_eq hp))
    | relock t k hfree hp =>
        have hk := h.of_eq hp
        exact h.pc_update hk
    | pass t k hp hready =>
        have hk := h.of_eq hp
        exact h.pc_update ⟨.wait, k.waited, hk, (Bool.or_true _).symm⟩
    | sleep t k hp hready =>
        have hk := h.of_eq hp
        exact h.pc_update hk
    | update t u k hp => exact h.pc_update ⟨u, h.of_eq hp⟩
    | read t r k hp => exact h.pc_update ⟨.read r, k.waited, h.of_eq hp, (Bool.or_false _).symm⟩
    | release t k hp =>
        obtain ⟨op, waited, hk, heq⟩ := h.of_eq hp
        have hnext := hK op k.ops waited hk
        rw [← heq] at hnext
        exact h.pc_update (Cont.allowed_start hnext)
    | unlock t k hp =>
        have hk := h.of_eq hp
        exact h.pc_update hk
    | notifyAll t k hp =>
        have hwake : Allowed K { s with pc := fun u => (s.pc u).wake } :=
          ⟨fun u => (h.pc u).wake, h.log⟩
        exact hwake.pc_update (Cont.allowed_start (hK.of_update (h.of_eq hp)))
    | spuriousWakeup t k hp =>
        have hk := h.of_eq hp
        exact h.pc_update hk
  · intro t r b waited hmem
    rcases he.mem_log hmem with hold | ⟨k, hp, rfl, rfl⟩
    · exact h.log t r b waited hold
    · exact ⟨k.ops, h.of_eq hp⟩

end Allowed

end Allowed

/-! ### Completion -/

/-- The number of steps of an operation, where `n` threads use the object. -/
def Op.cost (n : ℕ) : Op U R → ℕ
  | .wait | .read _ => 3
  | .update _ => 2 * n + 4

/-- The number of steps of the rest of a call. -/
def Cont.cost (n : ℕ) (k : Cont U R) : ℕ := k.ops.foldr (fun op m => op.cost n + m) 0

/-- The weight of a thread: the steps that it has still to do, and for a notification two steps of
every sleeper. -/
def Pc.cost (n : ℕ) : Pc U R → ℕ
  | .idle => 0
  | .locking op k => op.cost n + k.cost n
  | .checking k => k.cost n + 2
  | .asleep k => k.cost n + 1
  | .woken k => k.cost n + 3
  | .updating _ k => k.cost n + (2 * n + 3)
  | .reading _ k => k.cost n + 2
  | .releasing k => k.cost n + 1
  | .unlocking k => k.cost n + (2 * n + 2)
  | .notifying k => k.cost n + (2 * n + 1)

@[simp] theorem Cont.cost_start (n : ℕ) (k : Cont U R) : k.start.cost n = k.cost n := by
  obtain ⟨ops, waited⟩ := k
  cases ops with
  | nil => rfl
  | cons op ops => simp [Cont.start, Pc.cost, Cont.cost]

theorem Op.cost_locked (n : ℕ) (k : Cont U R) (op : Op U R) :
    (op.locked k).cost n + 1 = op.cost n + k.cost n := by
  cases op <;> simp only [Op.locked, Pc.cost, Op.cost] <;> omega

theorem Pc.cost_wake_le (n : ℕ) (p : Pc U R) : p.wake.cost n ≤ p.cost n + 2 := by
  cases p <;> simp [Pc.wake, Pc.cost]

variable [Fintype ι]

/-- The rank of a state. -/
def State.rank (s : State σ U R β ι) : ℕ := ∑ t, (s.pc t).cost (Fintype.card ι)

omit [DecidableEq ι] in
/-- A notification takes every sleeper back by two steps. -/
theorem rank_wake_le (s : State σ U R β ι) :
    ∑ t, (s.pc t).wake.cost (Fintype.card ι) ≤ s.rank + 2 * Fintype.card ι := by
  have hle : ∑ t, (s.pc t).wake.cost (Fintype.card ι) ≤ ∑ t, ((s.pc t).cost (Fintype.card ι) + 2) :=
    Finset.sum_le_sum fun t _ => Pc.cost_wake_le _ (s.pc t)
  rw [Finset.sum_add_distrib, Finset.sum_const, Finset.card_univ, smul_eq_mul] at hle
  rw [State.rank]
  omega

/-- The step is a spurious wake-up. -/
def Action.spurious : Action U R ι → Bool
  | .spuriousWakeup _ => true
  | _ => false

/-- **Every step lowers the rank**, apart from new calls and spurious wake-ups. -/
theorem Effect.rank {s s' : State σ U R β ι} {a : Action U R ι} (he : Effect O s a s')
    (hgoes : a.goesOn = true) : s'.rank + 1 ≤ s.rank + if a.spurious then 3 else 0 := by
  have hmove := ThreadWeight.sum_update (Pc.cost (Fintype.card ι)) s.pc
  simp only [State.rank]
  cases he with
  | call t ops hp => cases hgoes
  | lock t op k hfree hp =>
      have hsum := hmove t (op.locked k)
      have hcost := Op.cost_locked (Fintype.card ι) k op
      rw [hp, Pc.cost] at hsum
      simp only [State.goto]
      omega
  | relock t k hfree hp =>
      have hsum := hmove t (.checking k)
      rw [hp, Pc.cost, Pc.cost] at hsum
      simp only [State.goto]
      omega
  | pass t k hp hready =>
      have hsum := hmove t (.releasing { k with waited := true })
      have hsame : Cont.cost (Fintype.card ι) { k with waited := true } = k.cost (Fintype.card ι) := rfl
      rw [hp, Pc.cost, Pc.cost, hsame] at hsum
      simp only [State.goto]
      omega
  | sleep t k hp hready =>
      have hsum := hmove t (.asleep k)
      rw [hp, Pc.cost, Pc.cost] at hsum
      simp only [State.goto]
      omega
  | update t u k hp =>
      have hsum := hmove t (.unlocking k)
      rw [hp, Pc.cost, Pc.cost] at hsum
      simp only [State.goto]
      omega
  | read t r k hp =>
      have hsum := hmove t (.releasing k)
      rw [hp, Pc.cost, Pc.cost] at hsum
      simp only [State.goto]
      omega
  | release t k hp =>
      have hsum := hmove t k.start
      rw [hp, Cont.cost_start, Pc.cost] at hsum
      simp only [State.goto]
      omega
  | unlock t k hp =>
      have hsum := hmove t (.notifying k)
      rw [hp, Pc.cost, Pc.cost] at hsum
      simp only [State.goto]
      omega
  | notifyAll t k hp =>
      -- what the sleepers gain is the weight of the notification
      have hsum := ThreadWeight.sum_update (Pc.cost (Fintype.card ι)) (fun u => (s.pc u).wake) t k.start
      have hwake := rank_wake_le s
      have hwoken : (s.pc t).wake = .notifying k := by
        rw [hp]
        rfl
      rw [Cont.cost_start, hwoken, Pc.cost] at hsum
      rw [State.rank] at hwake
      dsimp only
      omega
  | spuriousWakeup t k hp =>
      have hsum := hmove t (.woken k)
      rw [hp, Pc.cost, Pc.cost] at hsum
      simp only [State.goto, Action.spurious, if_true]
      omega

/-- No thread can go on: each is outside of a call, or sleeps and waits for an update. -/
structure Quiet (O : Object σ U R β) (s : State σ U R β ι) : Prop where
  free : s.mtx = none
  idle : ∀ t, s.pc t = .idle ∨ (s.pc t).sleeps = true ∧ O.ready s.shared = false

omit [Fintype ι] in
/-- A thread inside of a call can go on, unless it sleeps or the mutex is taken. -/
theorem exists_step {s : State σ U R β ι} {t : ι} (hidle : s.pc t ≠ .idle)
    (hsleep : (s.pc t).sleeps = false) (hmtx : (s.pc t).holds = true ∨ s.mtx = none) :
    ∃ a : Action U R ι, a.goesOn = true ∧ a.spurious = false ∧ step O s a ≠ none := by
  cases hp : s.pc t with
  | idle => exact absurd hp hidle
  | asleep k => simp [hp, Pc.sleeps] at hsleep
  | locking op k =>
      have hfree : s.mtx = none := hmtx.resolve_left (by simp [hp, Pc.holds])
      exact ⟨.lock t, rfl, rfl, by simp [step, hp, hfree]⟩
  | woken k =>
      have hfree : s.mtx = none := hmtx.resolve_left (by simp [hp, Pc.holds])
      exact ⟨.lock t, rfl, rfl, by simp [step, hp, hfree]⟩
  | checking k =>
      refine ⟨.check t, rfl, rfl, ?_⟩
      simp only [step, hp]
      split_ifs <;> simp
  | updating u k => exact ⟨.update t, rfl, rfl, by simp [step, hp]⟩
  | reading r k => exact ⟨.read t, rfl, rfl, by simp [step, hp]⟩
  | releasing k => exact ⟨.unlock t, rfl, rfl, by simp [step, hp]⟩
  | unlocking k => exact ⟨.unlock t, rfl, rfl, by simp [step, hp]⟩
  | notifying k => exact ⟨.notifyAll t, rfl, rfl, by simp [step, hp]⟩

omit [Fintype ι] in
/-- **Threads that cannot go on are outside, or wait for an update.** -/
theorem quiet_of_stuck {s : State σ U R β ι} (h : Invariant O s)
    (hs : ∀ a : Action U R ι, a.goesOn = true → a.spurious = false → step O s a = none) :
    Quiet O s := by
  have hstuck : ∀ t, (s.pc t).holds = true ∨ s.mtx = none →
      s.pc t = .idle ∨ (s.pc t).sleeps = true := by
    intro t hmtx
    by_contra hne
    obtain ⟨hidle, hsleep⟩ := not_or.1 hne
    obtain ⟨a, hgoes, ha, hstep⟩ := exists_step (O := O) hidle (Bool.eq_false_iff.2 hsleep) hmtx
    exact hstep (hs a hgoes ha)
  have hfree : s.mtx = none := by
    by_contra hne
    obtain ⟨t, ht⟩ := Option.ne_none_iff_exists'.1 hne
    have hholds := (h.locked t).2 ht
    rcases hstuck t (Or.inl hholds) with hp | hp
    · simp [hp, Pc.holds] at hholds
    · cases hpc : s.pc t <;> simp [hpc, Pc.holds, Pc.sleeps] at hholds hp
  refine ⟨hfree, ?_⟩
  intro t
  refine (hstuck t (Or.inr hfree)).imp_right ?_
  intro hsleep
  refine ⟨hsleep, Bool.eq_false_iff.2 ?_⟩
  intro hready
  -- somebody is going to notify the sleepers, and can do so
  obtain ⟨u, hu⟩ := h.owed hready ⟨t, hsleep⟩
  rcases hstuck u (Or.inr hfree) with hp | hp
  · simp [hp, Pc.owes] at hu
  · cases hpc : s.pc u <;> simp [hpc, Pc.owes, Pc.sleeps] at hu hp

end Lemmas

end Monitor
