/-
**The scheduler of hw-1, and the frames of its coroutines.**

A `Task` owns the frame of a coroutine until `Spawn` releases the handle into the queue of the
scheduler.  `Run` takes handles from the queue one after the other, resumes them, and destroys the
frames that have finished; a coroutine that suspends itself with `co_await Scheduler::Yield()` puts its
own handle back into the queue, from inside of the resumption.  An exception that leaves the body of a
coroutine is kept in the promise; `Run` destroys the frame and exits with the exception.  What is left in
the queue is destroyed by the destructor.

Everything happens on one thread, and the scheduler is the current one of that thread.  What the body of
a coroutine does between two suspensions is up to it: it may spawn further tasks, and then it yields,
finishes or throws.  A step goes from one place where code outside of the scheduler runs, or where its
loops begin again, to the next one.

Main definitions:

* `CoroutineScheduler.Frame`, `CoroutineScheduler.State`, `CoroutineScheduler.Action` — frames, states
  and steps;
* `CoroutineScheduler.State.step`, `CoroutineScheduler.system` — the automaton;
* `CoroutineScheduler.Owned` — every frame is in the queue, or in the hands of `Run`, or has been
  destroyed;
* `CoroutineScheduler.Effect` — what a step can do.

Main results:

* `CoroutineScheduler.effect_of_step` — **inversion of a step**;
* `CoroutineScheduler.owned_of_reachable` — **every frame has one owner**.
-/

import CppMultithreaded.Automaton
import Mathlib.Algebra.Ring.Nat
import Mathlib.Data.List.Nodup
import Mathlib.Tactic.Common

set_option relaxedAutoImplicit false
set_option autoImplicit false

namespace CoroutineScheduler

variable {ε : Type*}

/-! ### Frames -/

/-- Where the body of a coroutine is. -/
inductive Body
  /-- At its initial suspension, or suspended by `Yield`. -/
  | suspended
  | running
  /-- At its final suspension. -/
  | done
  deriving DecidableEq

/-- The frame of a coroutine, with the exception of its promise, and the number of times that it has
been destroyed. -/
structure Frame (ε : Type*) where
  body : Body
  exception : Option ε
  destroyed : ℕ
  deriving DecidableEq

/-- A coroutine that has been created is at its initial suspension. -/
def Frame.create : Frame ε := ⟨.suspended, none, 0⟩

/-! ### States -/

/-- Where the thread is. -/
inductive Pc
  /-- Outside of the scheduler. -/
  | outside
  /-- At the head of the loop of `Run`. -/
  | loop
  /-- In the body of the coroutine that `Run` resumes. -/
  | running (handle : ℕ)
  /-- In `Run`, after `resume` has returned. -/
  | resumed (handle : ℕ)
  /-- At the head of the loop of `~Scheduler`. -/
  | destructor
  /-- After `~Scheduler`. -/
  | gone
  deriving DecidableEq

/-- The frames, by their handles, of which `spawned` have been spawned; the queue; and the place of the
thread.  Next to the state of the source, it is recorded which exceptions the bodies have thrown and with
which ones `Run` has exited, which coroutines have been resumed since `Run` was called last, how many had
been spawned then, and whether a frame has been used that had been destroyed. -/
structure State (ε : Type*) where
  frames : ℕ → Frame ε
  spawned : ℕ
  readyQueue : List ℕ
  pc : Pc
  thrown : List ε
  propagated : List ε
  resumes : List ℕ
  spawnedBefore : ℕ
  fault : Bool

namespace State

/-- The scheduler has been constructed. -/
def initial : State ε := ⟨fun _ => Frame.create, 0, [], .outside, [], [], [], 0, false⟩

/-- The frame of the handle exists. -/
def alive (s : State ε) (handle : ℕ) : Bool := handle < s.spawned ∧ (s.frames handle).destroyed = 0

/-- The frame is looked at, by `done()` or `promise()`. -/
def inspect (s : State ε) (handle : ℕ) : State ε :=
  if s.alive handle then s else { s with fault := true }

/-- The frame changes. -/
def update (s : State ε) (handle : ℕ) (frame : Frame ε) : State ε :=
  { s with frames := Function.update s.frames handle frame }

/-- `handle.done()`. -/
def done (s : State ε) (handle : ℕ) : Bool := (s.frames handle).body = .done

/-- `handle.resume()`, up to the body of the coroutine, which has to be suspended. -/
def resume (s : State ε) (handle : ℕ) : State ε :=
  if s.alive handle ∧ (s.frames handle).body = .suspended then
    { s.update handle { s.frames handle with body := .running } with
      resumes := s.resumes ++ [handle] }
  else { s with fault := true }

/-- `handle.destroy()`. -/
def destroy (s : State ε) (handle : ℕ) : State ε :=
  (s.inspect handle).update handle
    { s.frames handle with destroyed := (s.frames handle).destroyed + 1 }

/-- `Spawn`, with the frame of a coroutine that has been created. -/
def spawn (s : State ε) : State ε :=
  { s with
    frames := Function.update s.frames s.spawned Frame.create
    spawned := s.spawned + 1
    readyQueue := s.readyQueue ++ [s.spawned] }

/-- The body of the coroutine returns to `Run`, with the frame as it is then. -/
def leave (s : State ε) (handle : ℕ) (frame : Frame ε) : State ε :=
  { s.update handle frame with pc := .resumed handle }

end State

/-! ### Steps -/

/-- What happens next. -/
inductive Action (ε : Type*)
  /-- `Spawn` is called, outside of `Run` or by the body of a coroutine. -/
  | spawn
  /-- `Spawn` is called with a task that has no frame. -/
  | spawnEmpty
  /-- `Run` is called. -/
  | run
  /-- The scheduler goes on. -/
  | advance
  /-- The body of the coroutine awaits `Scheduler::Yield()`. -/
  | yield
  /-- The body of the coroutine comes to its end. -/
  | finish
  /-- An exception leaves the body of the coroutine. -/
  | throw (exception : ε)
  /-- `~Scheduler` is called. -/
  | destroy

/-- `Run` from the head of its loop to the body of a coroutine. -/
def State.advanceLoop (s : State ε) : State ε :=
  match s.readyQueue with
  | [] => { s with pc := .outside }
  | handle :: rest =>
      let s := { s with readyQueue := rest }.inspect handle
      if s.done handle then { s with pc := .resumed handle }
      else { s.resume handle with pc := .running handle }

/-- `Run` from the return of `resume` to the head of its loop, or to its exit by an exception. -/
def State.advanceResumed (s : State ε) (handle : ℕ) : State ε :=
  match (s.frames handle).exception with
  | some ex =>
      { (s.inspect handle).destroy handle with
        pc := .outside
        propagated := s.propagated ++ [ex] }
  | none =>
      if s.done handle then { (s.inspect handle).destroy handle with pc := .loop }
      else { s.inspect handle with pc := .loop }

/-- An iteration of the loop of `~Scheduler`, or its end. -/
def State.advanceDestructor (s : State ε) : State ε :=
  match s.readyQueue with
  | [] => { s with pc := .gone }
  | handle :: rest => { s with readyQueue := rest }.destroy handle

/-- The step function. -/
def State.step (s : State ε) (a : Action ε) : Option (State ε) :=
  match s.pc, a with
  | .outside, .spawn => some s.spawn
  | .outside, .spawnEmpty => some s
  | .outside, .run => some { s with pc := .loop, resumes := [], spawnedBefore := s.spawned }
  | .outside, .destroy => some { s with pc := .destructor }
  | .loop, .advance => some s.advanceLoop
  | .running _, .spawn => some s.spawn
  | .running _, .spawnEmpty => some s
  | .running handle, .yield =>
      -- `await_suspend` schedules the handle of the coroutine, which is suspended by then
      some { s.leave handle { s.frames handle with body := .suspended } with
        readyQueue := s.readyQueue ++ [handle] }
  | .running handle, .finish => some (s.leave handle { s.frames handle with body := .done })
  | .running handle, .throw ex =>
      some { s.leave handle { s.frames handle with body := .done, exception := some ex } with
        thrown := s.thrown ++ [ex] }
  | .resumed handle, .advance => some (s.advanceResumed handle)
  | .destructor, .advance => some s.advanceDestructor
  | _, _ => none

/-- The scheduler. -/
def system (ε : Type*) : Automaton (State ε) (Action ε) where
  init s := s = .initial
  step := State.step

/-! ### Owners -/

/-- The handle that is in the hands of `Run`. -/
def Pc.handle? : Pc → Option ℕ
  | .running handle | .resumed handle => some handle
  | _ => none

/-- **Every frame has one owner**: it is in the queue, or in the hands of `Run`, or has been destroyed. -/
structure Owned (s : State ε) : Prop where
  nodup : s.readyQueue.Nodup
  queued : ∀ h ∈ s.readyQueue, h < s.spawned ∧ s.frames h = Frame.create
  running : ∀ h, s.pc = .running h →
    h < s.spawned ∧ h ∉ s.readyQueue ∧ s.frames h = ⟨.running, none, 0⟩
  /-- The coroutine has yielded, and is back in the queue, or has finished. -/
  resumed : ∀ h, s.pc = .resumed h →
    h < s.spawned ∧ (h ∈ s.readyQueue ∨ h ∉ s.readyQueue ∧ ∃ ex, s.frames h = ⟨.done, ex, 0⟩)
  destroyed : ∀ h < s.spawned, h ∉ s.readyQueue → s.pc.handle? ≠ some h →
    (s.frames h).destroyed = 1
  gone : s.pc = .gone → s.readyQueue = []
  fault : s.fault = false

section Operations

variable {s : State ε} {h : ℕ} {frame : Frame ε}

theorem alive_of_eq (hlt : h < s.spawned) (hframe : (s.frames h).destroyed = 0) :
    s.alive h = true := by simp [State.alive, hlt, hframe]

theorem inspect_of_alive (halive : s.alive h = true) : s.inspect h = s := if_pos halive

/-- A frame that exists is destroyed. -/
theorem destroy_of_eq (hlt : h < s.spawned) {body : Body} {ex : Option ε}
    (hframe : s.frames h = ⟨body, ex, 0⟩) : s.destroy h = s.update h ⟨body, ex, 1⟩ := by
  have halive := alive_of_eq hlt (by rw [hframe])
  unfold State.destroy
  rw [inspect_of_alive halive, hframe]

/-- A coroutine that is suspended is resumed. -/
theorem resume_of_eq (hlt : h < s.spawned) (hframe : s.frames h = Frame.create) :
    s.resume h = { s.update h ⟨.running, none, 0⟩ with resumes := s.resumes ++ [h] } := by
  have halive := alive_of_eq hlt (by rw [hframe]; rfl)
  unfold State.resume
  rw [if_pos ⟨halive, by rw [hframe]; rfl⟩, hframe]
  rfl

end Operations

/-- The effects of a step, where every frame has one owner. -/
inductive Effect (s : State ε) : Action ε → State ε → Prop
  | spawn : s.pc = .outside ∨ (∃ h, s.pc = .running h) → Effect s .spawn s.spawn
  | spawnEmpty : s.pc = .outside ∨ (∃ h, s.pc = .running h) → Effect s .spawnEmpty s
  | run : s.pc = .outside →
      Effect s .run { s with pc := .loop, resumes := [], spawnedBefore := s.spawned }
  | return : s.pc = .loop → s.readyQueue = [] → Effect s .advance { s with pc := .outside }
  | resume (h : ℕ) (rest : List ℕ) : s.pc = .loop → s.readyQueue = h :: rest →
      Effect s .advance { s.update h ⟨.running, none, 0⟩ with
        readyQueue := rest, resumes := s.resumes ++ [h], pc := .running h }
  | yield (h : ℕ) : s.pc = .running h →
      Effect s .yield { s.update h Frame.create with
        readyQueue := s.readyQueue ++ [h], pc := .resumed h }
  | finish (h : ℕ) : s.pc = .running h →
      Effect s .finish { s.update h ⟨.done, none, 0⟩ with pc := .resumed h }
  | throw (h : ℕ) (ex : ε) : s.pc = .running h →
      Effect s (.throw ex) { s.update h ⟨.done, some ex, 0⟩ with
        pc := .resumed h, thrown := s.thrown ++ [ex] }
  | again (h : ℕ) : s.pc = .resumed h → h ∈ s.readyQueue → Effect s .advance { s with pc := .loop }
  | destroyFinished (h : ℕ) : s.pc = .resumed h → s.frames h = ⟨.done, none, 0⟩ →
      Effect s .advance { s.update h ⟨.done, none, 1⟩ with pc := .loop }
  | rethrow (h : ℕ) (ex : ε) : s.pc = .resumed h → s.frames h = ⟨.done, some ex, 0⟩ →
      Effect s .advance { s.update h ⟨.done, some ex, 1⟩ with
        pc := .outside, propagated := s.propagated ++ [ex] }
  | destroy : s.pc = .outside → Effect s .destroy { s with pc := .destructor }
  | destroyQueued (h : ℕ) (rest : List ℕ) : s.pc = .destructor → s.readyQueue = h :: rest →
      Effect s .advance { s.update h ⟨.suspended, none, 1⟩ with readyQueue := rest }
  | gone : s.pc = .destructor → s.readyQueue = [] → Effect s .advance { s with pc := .gone }

section Inversion

variable {s s' : State ε}

/-- Inversion of `Run` at the head of its loop. -/
theorem effect_of_advanceLoop (h : Owned s) (hpc : s.pc = .loop) : Effect s .advance s.advanceLoop := by
  unfold State.advanceLoop
  split
  · next hqueue => exact Effect.return hpc hqueue
  · next handle rest hqueue =>
      obtain ⟨hlt, hframe⟩ := h.queued handle (hqueue ▸ List.mem_cons_self)
      have halive : State.alive { s with readyQueue := rest } handle = true :=
        alive_of_eq hlt (by simp [hframe, Frame.create])
      have hdone : ¬State.done { s with readyQueue := rest } handle = true := by
        simp [State.done, hframe, Frame.create]
      have hresume := resume_of_eq (s := { s with readyQueue := rest }) hlt hframe
      simp only [inspect_of_alive halive, if_neg hdone, hresume]
      exact Effect.resume handle rest hpc hqueue

/-- Inversion of `Run` where a coroutine has returned to it. -/
theorem effect_of_advanceResumed (h : Owned s) {handle : ℕ} (hpc : s.pc = .resumed handle) :
    Effect s .advance (s.advanceResumed handle) := by
  obtain ⟨hlt, hqueue | ⟨-, ex, hframe⟩⟩ := h.resumed handle hpc
  · -- the coroutine has yielded
    have hframe := (h.queued handle hqueue).2
    have halive := alive_of_eq hlt (by rw [hframe]; rfl)
    have hdone : ¬s.done handle = true := by simp [State.done, hframe, Frame.create]
    have hnone : (s.frames handle).exception = none := by rw [hframe]; rfl
    simp only [State.advanceResumed, hnone, if_neg hdone, inspect_of_alive halive]
    exact Effect.again handle hpc hqueue
  · have halive := alive_of_eq hlt (by rw [hframe])
    have hdone : s.done handle = true := by simp [State.done, hframe]
    cases ex with
    | none =>
        simp only [State.advanceResumed, hframe, if_pos hdone, inspect_of_alive halive,
          destroy_of_eq hlt hframe]
        exact Effect.destroyFinished handle hpc hframe
    | some ex =>
        simp only [State.advanceResumed, hframe, inspect_of_alive halive, destroy_of_eq hlt hframe]
        exact Effect.rethrow handle ex hpc hframe

/-- Inversion of `~Scheduler`. -/
theorem effect_of_advanceDestructor (h : Owned s) (hpc : s.pc = .destructor) :
    Effect s .advance s.advanceDestructor := by
  unfold State.advanceDestructor
  split
  · next hqueue => exact Effect.gone hpc hqueue
  · next handle rest hqueue =>
      obtain ⟨hlt, hframe⟩ := h.queued handle (hqueue ▸ List.mem_cons_self)
      have hdestroy := destroy_of_eq (s := { s with readyQueue := rest }) hlt hframe
      rw [hdestroy]
      exact Effect.destroyQueued handle rest hpc hqueue

/-- **Inversion of a step.** -/
theorem effect_of_step (h : Owned s) {a : Action ε} (hs : s.step a = some s') : Effect s a s' := by
  unfold State.step at hs
  split at hs
  all_goals first | contradiction | obtain rfl := Option.some.inj hs
  case _ hpc => exact Effect.spawn (Or.inl hpc)
  case _ hpc => exact Effect.spawnEmpty (Or.inl hpc)
  case _ hpc => exact Effect.run hpc
  case _ hpc => exact Effect.destroy hpc
  case _ hpc => exact effect_of_advanceLoop h hpc
  case _ hpc => exact Effect.spawn (Or.inr ⟨_, hpc⟩)
  case _ hpc => exact Effect.spawnEmpty (Or.inr ⟨_, hpc⟩)
  case _ hpc =>
    rw [(h.running _ hpc).2.2]
    exact Effect.yield _ hpc
  case _ hpc =>
    rw [(h.running _ hpc).2.2]
    exact Effect.finish _ hpc
  case _ hpc =>
    rw [(h.running _ hpc).2.2]
    exact Effect.throw _ _ hpc
  case _ hpc => exact effect_of_advanceResumed h hpc
  case _ hpc => exact effect_of_advanceDestructor h hpc

end Inversion

section Invariant

variable {s s' : State ε}

theorem owned_initial : Owned (State.initial : State ε) := by
  constructor <;> simp [State.initial]

/-- A task is spawned. -/
theorem Owned.spawn (h : Owned s) (hpc : s.pc = .outside ∨ ∃ h, s.pc = .running h) : Owned s.spawn := by
  have hfresh : s.spawned ∉ s.readyQueue := fun hmem => lt_irrefl _ (h.queued _ hmem).1
  have hframes : ∀ i, i ≠ s.spawned → s.spawn.frames i = s.frames i :=
    fun i hi => Function.update_of_ne hi _ _
  refine ⟨?_, ?_, ?_, ?_, ?_, ?_, h.fault⟩
  · exact h.nodup.append (List.nodup_singleton _) (List.disjoint_singleton.2 hfresh)
  · intro i hi
    rcases List.mem_append.1 hi with hi | hi
    · obtain ⟨hlt, hframe⟩ := h.queued i hi
      exact ⟨Nat.lt_succ_of_lt hlt, by rw [hframes i (Nat.ne_of_lt hlt), hframe]⟩
    · rw [List.mem_singleton.1 hi]
      exact ⟨Nat.lt_succ_self _, Function.update_self ..⟩
  · intro i hi
    obtain ⟨hlt, hnot, hframe⟩ := h.running i hi
    refine ⟨Nat.lt_succ_of_lt hlt, ?_, by rw [hframes i (Nat.ne_of_lt hlt), hframe]⟩
    simp [State.spawn, hnot, Nat.ne_of_lt hlt]
  · intro i hi
    rcases hpc with hpc | ⟨j, hpc⟩
    · exact absurd (hpc.symm.trans hi) (by simp)
    · exact absurd (hpc.symm.trans hi) (by simp)
  · intro i hi hnot hpc'
    obtain ⟨hnot, hne⟩ := not_or.1 (fun hmem => hnot (List.mem_append.2 hmem))
    have hlt : i < s.spawned := lt_of_le_of_ne (Nat.le_of_lt_succ hi) fun heq => hne (by simp [heq])
    rw [hframes i (Nat.ne_of_lt hlt)]
    exact h.destroyed i hlt hnot hpc'
  · intro hgone
    rcases hpc with hpc | ⟨j, hpc⟩
    · exact absurd (hpc.symm.trans hgone) (by simp)
    · exact absurd (hpc.symm.trans hgone) (by simp)

/-- Where nothing is in the hands of `Run`, a frame that is not in the queue has been destroyed. -/
theorem Owned.between (hnodup : s.readyQueue.Nodup)
    (hqueued : ∀ h ∈ s.readyQueue, h < s.spawned ∧ s.frames h = Frame.create)
    (hpc : s.pc.handle? = none)
    (hdestroyed : ∀ h < s.spawned, h ∉ s.readyQueue → (s.frames h).destroyed = 1)
    (hgone : s.pc = .gone → s.readyQueue = []) (hfault : s.fault = false) : Owned s := by
  refine ⟨hnodup, hqueued, ?_, ?_, fun i hi hnot _ => hdestroyed i hi hnot, hgone, hfault⟩
  · intro i hi
    rw [hi] at hpc
    simp [Pc.handle?] at hpc
  · intro i hi
    rw [hi] at hpc
    simp [Pc.handle?] at hpc

/-- A frame in the queue, apart from the one that changes. -/
theorem Owned.queued_update (h : Owned s) {i j : ℕ} (frame : Frame ε) (hj : j ∈ s.readyQueue)
    (hne : j ≠ i) : j < s.spawned ∧ Function.update s.frames i frame j = Frame.create := by
  rw [Function.update_of_ne hne]
  exact h.queued j hj

/-- A frame that is neither in the queue nor in the hands of `Run`, apart from the one that changes. -/
theorem Owned.destroyed_update (h : Owned s) {i j : ℕ} (frame : Frame ε) (hj : j < s.spawned)
    (hnot : j ∉ s.readyQueue) (hpc : s.pc.handle? ≠ some j) (hne : j ≠ i) :
    (Function.update s.frames i frame j).destroyed = 1 := by
  rw [Function.update_of_ne hne]
  exact h.destroyed j hj hnot hpc

/-- The body of the coroutine has come to its end. -/
theorem Owned.done (h : Owned s) {i : ℕ} (hpc : s.pc = .running i) (ex : Option ε) (thrown : List ε) :
    Owned { s.update i ⟨.done, ex, 0⟩ with pc := .resumed i, thrown := thrown } := by
  obtain ⟨hlt, hnot, -⟩ := h.running i hpc
  have hne : ∀ j ∈ s.readyQueue, j ≠ i := fun j hj heq => hnot (heq ▸ hj)
  refine ⟨h.nodup, fun j hj => h.queued_update _ hj (hne j hj), by simp, ?_, ?_, by simp, h.fault⟩
  · intro j hj
    obtain rfl : i = j := by simpa using hj
    exact ⟨hlt, Or.inr ⟨hnot, ex, Function.update_self ..⟩⟩
  · intro j hj hnotj hpcj
    have hji : j ≠ i := fun heq => hpcj (by rw [heq]; rfl)
    refine h.destroyed_update _ hj hnotj ?_ hji
    rw [hpc]
    simpa [Pc.handle?] using hji.symm

/-- `Run` destroys the frame that is in its hands. -/
theorem Owned.destroyHeld (h : Owned s) {i : ℕ} (hpc : s.pc = .resumed i) {ex : Option ε}
    (hframe : s.frames i = ⟨.done, ex, 0⟩) {pc : Pc} (hfree : pc.handle? = none) (hgone : pc ≠ .gone)
    (propagated : List ε) :
    Owned { s.update i ⟨.done, ex, 1⟩ with pc := pc, propagated := propagated } := by
  have hne : ∀ j ∈ s.readyQueue, j ≠ i := by
    rintro j hj rfl
    have heq := (h.queued j hj).2
    rw [hframe] at heq
    simp [Frame.create] at heq
  refine Owned.between h.nodup (fun j hj => h.queued_update _ hj (hne j hj)) hfree ?_
    (fun heq => absurd heq hgone) h.fault
  intro j hj hnot
  by_cases hji : j = i
  · rw [hji]
    simp [State.update]
  · refine h.destroyed_update _ hj hnot ?_ hji
    rw [hpc]
    simpa [Pc.handle?] using Ne.symm hji

/-- **Every step leaves every frame with one owner.** -/
theorem Owned.effect (h : Owned s) {a : Action ε} (he : Effect s a s') : Owned s' := by
  -- with nothing in the hands of `Run`, a frame is in the queue or destroyed
  have hfree : s.pc.handle? = none →
      ∀ i < s.spawned, i ∉ s.readyQueue → (s.frames i).destroyed = 1 := by
    intro hnone i hi hnot
    exact h.destroyed i hi hnot (by rw [hnone]; simp)
  cases he with
  | spawn hpc => exact h.spawn hpc
  | spawnEmpty => exact h
  | run hpc =>
      exact Owned.between h.nodup h.queued rfl (hfree (by rw [hpc]; rfl)) (by simp) h.fault
  | «return» hpc hqueue =>
      exact Owned.between h.nodup h.queued rfl (hfree (by rw [hpc]; rfl)) (by simp) h.fault
  | resume i rest hpc hqueue =>
      have hlt := (h.queued i (hqueue ▸ List.mem_cons_self)).1
      have hnodup := h.nodup
      rw [hqueue, List.nodup_cons] at hnodup
      have hrest : ∀ j ∈ rest, j ∈ s.readyQueue := fun j hj => hqueue ▸ List.mem_cons_of_mem i hj
      have hne : ∀ j ∈ rest, j ≠ i := fun j hj heq => hnodup.1 (heq ▸ hj)
      refine ⟨hnodup.2, fun j hj => h.queued_update _ (hrest j hj) (hne j hj), ?_, by simp, ?_, by simp,
        h.fault⟩
      · intro j hj
        obtain rfl : i = j := by simpa using hj
        exact ⟨hlt, hnodup.1, Function.update_self ..⟩
      · intro j hj hnot hpcj
        have hji : j ≠ i := fun heq => hpcj (by rw [heq]; rfl)
        refine h.destroyed_update _ hj ?_ (by rw [hpc]; simp [Pc.handle?]) hji
        rw [hqueue, List.mem_cons, not_or]
        exact ⟨hji, hnot⟩
  | yield i hpc =>
      obtain ⟨hlt, hnot, -⟩ := h.running i hpc
      have hne : ∀ j ∈ s.readyQueue, j ≠ i := fun j hj heq => hnot (heq ▸ hj)
      have hself : i ∈ s.readyQueue ++ [i] := List.mem_append_right _ List.mem_cons_self
      refine ⟨h.nodup.append (List.nodup_singleton i) (List.disjoint_singleton.2 hnot), ?_, by simp, ?_,
        ?_, by simp, h.fault⟩
      · intro j hj
        rcases List.mem_append.1 hj with hj | hj
        · exact h.queued_update _ hj (hne j hj)
        · rw [List.mem_singleton.1 hj]
          exact ⟨hlt, Function.update_self ..⟩
      · intro j hj
        obtain rfl : i = j := by simpa using hj
        exact ⟨hlt, Or.inl hself⟩
      · intro j hj hnotj hpcj
        have hji : j ≠ i := fun heq => hpcj (by rw [heq]; rfl)
        refine h.destroyed_update _ hj (fun hmem => hnotj (List.mem_append_left _ hmem)) ?_ hji
        rw [hpc]
        simpa [Pc.handle?] using hji.symm
  | finish i hpc => exact h.done hpc none s.thrown
  | throw i ex hpc => exact h.done hpc (some ex) _
  | again i hpc hmem =>
      refine Owned.between h.nodup h.queued rfl ?_ (by simp) h.fault
      intro j hj hnot
      refine h.destroyed j hj hnot ?_
      rw [hpc]
      rintro heq
      exact hnot (Option.some.inj heq ▸ hmem)
  | destroyFinished i hpc hframe => exact h.destroyHeld hpc hframe rfl (by simp) s.propagated
  | rethrow i ex hpc hframe => exact h.destroyHeld hpc hframe rfl (by simp) _
  | destroy hpc =>
      exact Owned.between h.nodup h.queued rfl (hfree (by rw [hpc]; rfl)) (by simp) h.fault
  | destroyQueued i rest hpc hqueue =>
      have hnodup := h.nodup
      rw [hqueue, List.nodup_cons] at hnodup
      have hrest : ∀ j ∈ rest, j ∈ s.readyQueue := fun j hj => hqueue ▸ List.mem_cons_of_mem i hj
      have hne : ∀ j ∈ rest, j ≠ i := fun j hj heq => hnodup.1 (heq ▸ hj)
      have hnone : s.pc.handle? = none := by rw [hpc]; rfl
      refine Owned.between hnodup.2 (fun j hj => h.queued_update _ (hrest j hj) (hne j hj)) hnone ?_
        (fun heq => absurd (hpc.symm.trans heq) (by simp)) h.fault
      intro j hj hnot
      by_cases hji : j = i
      · rw [hji]
        simp [State.update]
      · refine h.destroyed_update _ hj ?_ (by rw [hnone]; simp) hji
        rw [hqueue, List.mem_cons, not_or]
        exact ⟨hji, hnot⟩
  | gone hpc hqueue =>
      exact Owned.between h.nodup h.queued rfl (hfree (by rw [hpc]; rfl)) (fun _ => hqueue) h.fault

/-- **Every frame has one owner**, in every state that is reached. -/
theorem owned_of_reachable (h : (system ε).Reachable s) : Owned s := by
  refine h.invariant (fun s hs => hs ▸ owned_initial) ?_
  intro s a s' _ howned hs
  exact howned.effect (effect_of_step howned hs)

end Invariant

end CoroutineScheduler
