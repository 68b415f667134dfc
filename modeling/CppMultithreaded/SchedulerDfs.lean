/-
**The search on the frames of its coroutines.**

The search resumes its coroutines in the order of a queue, and knows of a coroutine only where it is
suspended.  The scheduler itself knows nothing of the search, but owns the frames.  This module connects
the two: an iteration of `Run` in the search is a round of the scheduler, in which a coroutine is resumed,
comes back, and is queued again or destroyed.  So when `Run` returns from a search, every frame has been
destroyed once, and when it throws, then it throws what the coroutine has thrown.

Main definitions:

* `CoroutineScheduler.At` — the place of the thread, with the queue and the exceptions;
* `CooperativeDfs.Represents` — the frames in the queue are those of the coroutines of the search.

Main results:

* `CoroutineScheduler.At.resume`, `CoroutineScheduler.At.again`,
  `CoroutineScheduler.At.destroyFinished`, `CoroutineScheduler.At.rethrow` — the steps of a round;
* `CooperativeDfs.Represents.next`, `CooperativeDfs.Represents.steps` — **an iteration is a round**, and a
  run is a run;
* `CooperativeDfs.frames_of_returns` — **what `Run` leaves of the frames of a search**.
-/

import CppMultithreaded.DfsModel
import CppMultithreaded.SchedulerModel

set_option relaxedAutoImplicit false
set_option autoImplicit false

namespace CoroutineScheduler

variable {ε : Type*}

/-! ### The steps of a round -/

/-- Where the thread is, what is in the queue, how many coroutines have been spawned, and what `Run` has
thrown. -/
structure At (pc : Pc) (queue : List ℕ) (spawned : ℕ) (propagated : List ε) (s : State ε) : Prop where
  pc : s.pc = pc
  readyQueue : s.readyQueue = queue
  spawned : s.spawned = spawned
  propagated : s.propagated = propagated

namespace At

variable {s : State ε} {i n : ℕ} {queue rest : List ℕ} {exs : List ε}

/-- Outside of `Run`, a task is spawned. -/
theorem spawn (h : At .outside queue n exs s) :
    ∃ s', s.step .spawn = some s' ∧ At .outside (queue ++ [n]) (n + 1) exs s' := by
  refine ⟨s.spawn, ?_, h.pc, ?_, ?_, h.propagated⟩
  · unfold State.step
    rw [h.pc]
  · show s.readyQueue ++ [s.spawned] = queue ++ [n]
    rw [h.readyQueue, h.spawned]
  · show s.spawned + 1 = n + 1
    rw [h.spawned]

/-- `Run` is called. -/
theorem run (h : At .outside queue n exs s) :
    ∃ s', s.step .run = some s' ∧ At .loop queue n exs s' := by
  have hst : s.step .run =
      some { s with pc := .loop, resumes := [], spawnedBefore := s.spawned } := by
    unfold State.step
    rw [h.pc]
  exact ⟨_, hst, rfl, h.readyQueue, h.spawned, h.propagated⟩

/-- `Run` returns. -/
theorem returns (h : At .loop [] n exs s) :
    ∃ s', s.step .advance = some s' ∧ At .outside [] n exs s' := by
  refine ⟨{ s with pc := .outside }, ?_, rfl, h.readyQueue, h.spawned, h.propagated⟩
  unfold State.step State.advanceLoop
  rw [h.pc]
  simp only [h.readyQueue]

/-- The first coroutine of the queue is resumed. -/
theorem resume (howned : Owned s) (h : At .loop (i :: rest) n exs s) :
    ∃ s', s.step .advance = some s' ∧ At (.running i) rest n exs s' := by
  have hst : s.step .advance = some s.advanceLoop := by
    unfold State.step
    rw [h.pc]
  refine ⟨s.advanceLoop, hst, ?_⟩
  have he := effect_of_step howned hst
  generalize s.advanceLoop = s' at he
  cases he with
  | resume j rest' _ hqueue =>
      obtain ⟨rfl, rfl⟩ := List.cons.inj (hqueue.symm.trans h.readyQueue)
      exact ⟨rfl, rfl, h.spawned, h.propagated⟩
  | «return» _ hqueue =>
      rw [h.readyQueue] at hqueue
      simp at hqueue
  | again _ hpc | destroyFinished _ hpc | rethrow _ _ hpc | destroyQueued _ _ hpc | gone hpc =>
      simp [h.pc] at hpc

/-- The coroutine yields. -/
theorem yield (h : At (.running i) queue n exs s) :
    ∃ s', s.step .yield = some s' ∧ At (.resumed i) (queue ++ [i]) n exs s' := by
  have hst : s.step .yield = some { s.leave i { s.frames i with body := .suspended } with
      readyQueue := s.readyQueue ++ [i] } := by
    unfold State.step
    rw [h.pc]
  refine ⟨_, hst, rfl, ?_, h.spawned, h.propagated⟩
  show s.readyQueue ++ [i] = queue ++ [i]
  rw [h.readyQueue]

/-- The coroutine comes to its end. -/
theorem finish (howned : Owned s) (h : At (.running i) queue n exs s) :
    ∃ s', s.step .finish = some s' ∧ s'.frames i = ⟨.done, none, 0⟩ ∧
      At (.resumed i) queue n exs s' := by
  refine ⟨s.leave i { s.frames i with body := .done }, ?_, ?_, rfl, h.readyQueue, h.spawned,
    h.propagated⟩
  · unfold State.step
    rw [h.pc]
  · show Function.update s.frames i _ i = _
    rw [Function.update_self, (howned.running i h.pc).2.2]

/-- An exception leaves the coroutine. -/
theorem throw (howned : Owned s) (h : At (.running i) queue n exs s) (ex : ε) :
    ∃ s', s.step (.throw ex) = some s' ∧ s'.frames i = ⟨.done, some ex, 0⟩ ∧
      At (.resumed i) queue n exs s' := by
  have hst : s.step (.throw ex) =
      some { s.leave i { s.frames i with body := .done, exception := some ex } with
        thrown := s.thrown ++ [ex] } := by
    unfold State.step
    rw [h.pc]
  refine ⟨_, hst, ?_, rfl, h.readyQueue, h.spawned, h.propagated⟩
  show Function.update s.frames i _ i = _
  rw [Function.update_self, (howned.running i h.pc).2.2]

/-- What `Run` does with the coroutine that has come back. -/
theorem resumed_effect (howned : Owned s) (h : At (.resumed i) queue n exs s) :
    ∃ s', s.step .advance = some s' ∧ Effect s .advance s' := by
  have hst : s.step .advance = some (s.advanceResumed i) := by
    unfold State.step
    rw [h.pc]
  exact ⟨_, hst, effect_of_step howned hst⟩

/-- A coroutine that has yielded is left in the queue. -/
theorem again (howned : Owned s) (h : At (.resumed i) queue n exs s) (hi : i ∈ queue) :
    ∃ s', s.step .advance = some s' ∧ At .loop queue n exs s' := by
  obtain ⟨s', hst, he⟩ := h.resumed_effect howned
  have hframe := (howned.queued i (h.readyQueue ▸ hi)).2
  refine ⟨s', hst, ?_⟩
  cases he with
  | again _ _ _ => exact ⟨rfl, h.readyQueue, h.spawned, h.propagated⟩
  | destroyFinished j hpc hdone | rethrow j _ hpc hdone =>
      obtain rfl := Pc.resumed.inj (hpc.symm.trans h.pc)
      rw [hframe] at hdone
      simp [Frame.create] at hdone
  | «return» hpc | resume _ _ hpc | destroyQueued _ _ hpc | gone hpc => simp [h.pc] at hpc

/-- A coroutine that has finished is destroyed. -/
theorem destroyFinished (howned : Owned s) (h : At (.resumed i) queue n exs s)
    (hframe : s.frames i = ⟨.done, none, 0⟩) :
    ∃ s', s.step .advance = some s' ∧ At .loop queue n exs s' := by
  obtain ⟨s', hst, he⟩ := h.resumed_effect howned
  refine ⟨s', hst, ?_⟩
  cases he with
  | destroyFinished _ _ _ => exact ⟨rfl, h.readyQueue, h.spawned, h.propagated⟩
  | again _ _ _ => exact ⟨rfl, h.readyQueue, h.spawned, h.propagated⟩
  | rethrow j _ hpc hdone =>
      obtain rfl := Pc.resumed.inj (hpc.symm.trans h.pc)
      rw [hframe] at hdone
      simp at hdone
  | «return» hpc | resume _ _ hpc | destroyQueued _ _ hpc | gone hpc => simp [h.pc] at hpc

/-- An exception is thrown again. -/
theorem rethrow (howned : Owned s) (h : At (.resumed i) queue n exs s) {ex : ε}
    (hframe : s.frames i = ⟨.done, some ex, 0⟩) :
    ∃ s', s.step .advance = some s' ∧ At .outside queue n (exs ++ [ex]) s' := by
  obtain ⟨s', hst, he⟩ := h.resumed_effect howned
  refine ⟨s', hst, ?_⟩
  cases he with
  | rethrow j ex' hpc hdone =>
      obtain rfl := Pc.resumed.inj (hpc.symm.trans h.pc)
      rw [hframe] at hdone
      obtain rfl : ex = ex' := by simpa using hdone
      refine ⟨rfl, h.readyQueue, h.spawned, ?_⟩
      show s.propagated ++ [ex] = exs ++ [ex]
      rw [h.propagated]
  | destroyFinished j hpc hdone =>
      obtain rfl := Pc.resumed.inj (hpc.symm.trans h.pc)
      rw [hframe] at hdone
      simp at hdone
  | again j hpc hqueue =>
      obtain rfl := Pc.resumed.inj (hpc.symm.trans h.pc)
      rw [(howned.queued j hqueue).2] at hframe
      simp [Frame.create] at hframe
  | «return» hpc | resume _ _ hpc | destroyQueued _ _ hpc | gone hpc => simp [h.pc] at hpc

end At

end CoroutineScheduler

namespace CooperativeDfs

open CoroutineScheduler (State At system owned_of_reachable)
open Automaton (Steps)

variable {graph : Graph}

/-! ### An iteration is a round -/

/-- The thread is at the head of the loop of `Run`, and the coroutines of the search are those whose
frames are in the queue. -/
structure Represents (q : Scheduler) (n : ℕ) (s : State String) : Prop where
  reachable : (system String).Reachable s
  loop : ∃ (handles : List ℕ) (tasks : ℕ → Task), At .loop handles n [] s ∧
    handles.map tasks = q.readyQueue

namespace Represents

variable {q q' : Scheduler} {n : ℕ} {s : State String}

/-- **An iteration of `Run` that does not throw is a round.** -/
theorem next (h : Represents q n s) (hnext : Scheduler.Next graph q q') :
    ∃ s', (system String).Steps s s' ∧ Represents q' n s' := by
  obtain ⟨hr, handles, tasks, hat, hmap⟩ := h
  cases hnext with
  | @turn t rest shared q' hturn =>
      obtain ⟨i, handles, rfl, -, hrest⟩ := List.map_eq_cons_iff.1 hmap
      have howned := owned_of_reachable hr
      have hfresh : i ∉ handles := by
        have hnodup := howned.nodup
        rw [hat.readyQueue] at hnodup
        exact (List.nodup_cons.1 hnodup).1
      obtain ⟨s₁, hst₁, hat₁⟩ := hat.resume howned
      have hr₁ := hr.step _ hst₁
      cases hresume : t.resume graph shared with
      | error e => simp [Scheduler.turn, hresume] at hturn
      | ok r =>
          obtain ⟨t', shared'⟩ := r
          simp only [Scheduler.turn, hresume] at hturn
          split_ifs at hturn with hfinal
          · -- the coroutine has finished, and its frame is destroyed
            obtain rfl := Except.ok.inj hturn
            obtain ⟨s₂, hst₂, hframe, hat₂⟩ := hat₁.finish (owned_of_reachable hr₁)
            have hr₂ := hr₁.step _ hst₂
            obtain ⟨s₃, hst₃, hat₃⟩ := hat₂.destroyFinished (owned_of_reachable hr₂) hframe
            exact ⟨s₃, ((Steps.single hst₁).tail _ hst₂).tail _ hst₃, hr₂.step _ hst₃, handles, tasks,
              hat₃, hrest⟩
          · -- the coroutine has yielded, and is the last one of the queue
            obtain rfl := Except.ok.inj hturn
            obtain ⟨s₂, hst₂, hat₂⟩ := hat₁.yield
            have hr₂ := hr₁.step _ hst₂
            obtain ⟨s₃, hst₃, hat₃⟩ := hat₂.again (owned_of_reachable hr₂) (by simp)
            refine ⟨s₃, ((Steps.single hst₁).tail _ hst₂).tail _ hst₃, hr₂.step _ hst₃, handles ++ [i],
              Function.update tasks i t', hat₃, ?_⟩
            have hothers : handles.map (Function.update tasks i t') = rest := by
              rw [← hrest]
              refine List.map_congr_left fun j hj => Function.update_of_ne ?_ _ _
              rintro rfl
              exact hfresh hj
            rw [List.map_append, hothers, List.map_singleton, Function.update_self]
            rfl

/-- What `Run` comes to, the scheduler comes to. -/
theorem steps (h : Represents q n s) (hsteps : q.Steps graph q') :
    ∃ s', (system String).Steps s s' ∧ Represents q' n s' := by
  induction hsteps with
  | refl => exact ⟨s, Automaton.Steps.refl, h⟩
  | tail _ hnext ih =>
      obtain ⟨s₁, hs₁, h₁⟩ := ih
      obtain ⟨s₂, hs₂, h₂⟩ := h₁.next hnext
      exact ⟨s₂, hs₁.trans hs₂, h₂⟩

/-- The queue is empty, and `Run` returns: every frame has been destroyed once. -/
theorem returns {shared : Shared} (h : Represents ⟨[], shared⟩ n s) : ∃ s',
    (system String).Steps s s' ∧ At .outside [] n [] s' ∧ ∀ i < n, (s'.frames i).destroyed = 1 := by
  obtain ⟨hr, handles, tasks, hat, hmap⟩ := h
  obtain rfl : handles = [] := List.map_eq_nil_iff.1 hmap
  obtain ⟨s', hst, hat'⟩ := hat.returns
  refine ⟨s', Steps.single hst, hat', ?_⟩
  intro i hi
  refine (owned_of_reachable (hr.step _ hst)).destroyed i ?_ ?_ ?_
  · rw [hat'.spawned]
    exact hi
  · rw [hat'.readyQueue]
    exact List.not_mem_nil
  · rw [hat'.pc]
    simp [CoroutineScheduler.Pc.handle?]

/-- Where the first coroutine of the queue throws, `Run` exits with its exception. -/
theorem throws {t : Task} {rest : List Task} {shared : Shared} (h : Represents ⟨t :: rest, shared⟩ n s)
    (e : String) : ∃ s' queue, (system String).Steps s s' ∧ At .outside queue n [e] s' := by
  obtain ⟨hr, handles, tasks, hat, hmap⟩ := h
  obtain ⟨i, handles, rfl, -, -⟩ := List.map_eq_cons_iff.1 hmap
  obtain ⟨s₁, hst₁, hat₁⟩ := hat.resume (owned_of_reachable hr)
  have hr₁ := hr.step _ hst₁
  obtain ⟨s₂, hst₂, hframe, hat₂⟩ := hat₁.throw (owned_of_reachable hr₁) e
  obtain ⟨s₃, hst₃, hat₃⟩ := hat₂.rethrow (owned_of_reachable (hr₁.step _ hst₂)) hframe
  exact ⟨s₃, handles, ((Steps.single hst₁).tail _ hst₂).tail _ hst₃, hat₃⟩

end Represents

/-! ### A search -/

/-- The tasks are spawned. -/
theorem exists_spawned (n : ℕ) : ∃ s : State String, (system String).Reachable s ∧
    At .outside (List.range n) n [] s := by
  induction n with
  | zero => exact ⟨.initial, Automaton.Reachable.init rfl, rfl, rfl, rfl, rfl⟩
  | succ n ih =>
      obtain ⟨s, hr, hat⟩ := ih
      obtain ⟨s', hst, hat'⟩ := hat.spawn
      rw [List.range_succ]
      exact ⟨s', hr.step _ hst, hat'⟩

/-- `Run` is called, with the coroutines of a search in the queue. -/
theorem exists_represents (q : Scheduler) : ∃ s, Represents q q.readyQueue.length s := by
  obtain ⟨s, hr, hat⟩ := exists_spawned q.readyQueue.length
  obtain ⟨s', hst, hat'⟩ := hat.run
  refine ⟨s', hr.step _ hst, _, fun i => q.readyQueue.getD i (dfsCoroutine 0), hat', ?_⟩
  refine List.ext_getElem (by simp) ?_
  intro i h₁ h₂
  simp [h₂]

/-- **What `Run` leaves of the frames of a search.**  The scheduler has a run with the frames of the
coroutines of the search; where the search returns, each of them has been destroyed once, and where it
throws, `Run` has exited with this exception. -/
theorem frames_of_returns {q : Scheduler} {r : Except String Shared} (h : q.Returns graph r) :
    ∃ (s : State String) (queue : List ℕ), (system String).Reachable s ∧
      match r with
      | .ok _ => At .outside [] q.readyQueue.length [] s ∧
          ∀ i < q.readyQueue.length, (s.frames i).destroyed = 1
      | .error e => At .outside queue q.readyQueue.length [e] s := by
  obtain ⟨s, hs⟩ := exists_represents q
  rcases h.steps with ⟨shared, rfl, hsteps⟩ | ⟨e, t, rest, shared, rfl, hsteps, -⟩
  · obtain ⟨s₁, hs₁, h₁⟩ := hs.steps hsteps
    obtain ⟨s₂, hs₂, hat, hdestroyed⟩ := h₁.returns
    exact ⟨s₂, [], h₁.reachable.steps hs₂, hat, hdestroyed⟩
  · obtain ⟨s₁, hs₁, h₁⟩ := hs.steps hsteps
    obtain ⟨s₂, queue, hs₂, hat⟩ := h₁.throws e
    exact ⟨s₂, queue, h₁.reachable.steps hs₂, hat⟩

end CooperativeDfs
