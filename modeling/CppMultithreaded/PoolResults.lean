/-
**Results are never misrouted, duplicated or changed.**

For any number of workers and of threads, and any interleaving, with workers that die at any step, every
task is executed at most once; a `Future` is completed by a reader with the response of an execution of
its own function on its own arguments only; and a `Future` that is ready stays as it is.

Main definitions:

* `ProcessPool.State.Routed` — what is right about the results in a state.

Main results:

* `ProcessPool.routed_of_reachable`, `ProcessPool.ready_stable` — results are right in every reachable
  state, and stay;
* `ProcessPool.SharedState.completed_returned`, `ProcessPool.SharedState.completed_threw` — what a
  `Future` holds after a call that has returned, or thrown;
* `ProcessPool.results_never_misrouted` — the two of them together.
-/

import CppMultithreaded.PoolRefinement

set_option relaxedAutoImplicit false
set_option autoImplicit false

namespace ProcessPool

variable {τ θ : Type*} {P : Program τ} {n : ℕ}

/-! ### What a Future holds -/

/-- A call that returns: the `Future` holds the representation of the result. -/
theorem SharedState.completed_returned {job : Job P} {taskId : ℕ} {result : List UInt8} {r : Response}
    (hfits : (Outcome.returned result).Fits (P.resultSize job.type))
    (hr : r = respond taskId ⟨some (job.fn, job.args), result, []⟩) :
    SharedState.completed job r.status.code r.payload =
      ⟨true, (P.resultSize job.type).map fun _ => result, none⟩ := by
  have hlen : result.length = (P.resultSize job.type).getD 0 := hfits
  rw [completed, hr]
  cases hsize : P.resultSize job.type with
  | none =>
      rw [hsize, Option.getD_none, List.length_eq_zero_iff] at hlen
      simp [hlen, respond, complete, setValue, ResultStatus.code, make]
  | some size =>
      have hpos := (P.resultSize_lt job.type size hsize).1
      rw [hsize, Option.getD_some] at hlen
      have hne : result ≠ [] := by
        rintro rfl
        rw [List.length_nil] at hlen
        omega
      simp [hne, hlen, respond, complete, setValue, ResultStatus.code, make]

/-- A call that throws: the `Future` holds the text of the exception, unless that is empty. -/
theorem SharedState.completed_threw {job : Job P} {taskId : ℕ} {output error : List UInt8}
    {r : Response} (herror : error ≠ [])
    (hr : r = respond taskId ⟨some (job.fn, job.args), output, error⟩) :
    SharedState.completed job r.status.code r.payload = ⟨true, none, some error⟩ := by
  rw [completed, hr]
  simp [herror, respond, complete, setException, ResultStatus.code, make]

/-! ### What is right about the results -/

/-- The results are right. -/
structure State.Routed (s : State P n θ) : Prop where
  /-- Every task is executed at most once. -/
  executed_once : (s.executed.map Execution.taskId).Nodup
  /-- What a worker executes is the function of the task, on its arguments. -/
  executed_own : ∀ e ∈ s.executed, ∃ job state, s.origin state = .named e.taskId job ∧ e.Runs job
  /-- What a reader completes a `Future` with is the response of an execution of its own task. -/
  completed_own : ∀ c ∈ s.completed, ∃ job, s.origin c.state = .named c.taskId job ∧
    s.states c.state = SharedState.completed job c.status c.payload ∧
    ∃ e ∈ s.executed, ∃ r, e.taskId = c.taskId ∧ e.Runs job ∧ e.response = some r ∧
      r.status.code = c.status ∧ r.payload = c.payload
  /-- Ids belong to one `Future` only, and what `Submit` returns is the `Future` of its task. -/
  named_once : ∀ i job job' state state', s.origin state = .named i job →
    s.origin state' = .named i job' → state = state'
  returned_own : ∀ x ∈ s.returned, ∃ i, s.origin x.2 = .named i x.1
  /-- A pending handler is called at most once, by a reader or by `FailAllPending`. -/
  called_once : (s.completed.map Completion.taskId ++ s.failed).Nodup
  /-- A `Future` that is ready has had its handler called. -/
  ready : ∀ state, (s.states state).ready = true → ∃ i job, s.origin state = .named i job ∧
    ((∃ c ∈ s.completed, c.taskId = i ∧ c.state = state) ∨
      (i ∈ s.failed ∧ s.states state = SharedState.shutDown))

section Reachable

variable [DecidableEq θ] [NeZero n]

omit [DecidableEq θ] [NeZero n] in
theorem State.Sound.called_once {s : State P n θ} (h : s.Sound) :
    (s.completed.map Completion.taskId ++ s.failed).Nodup := by
  refine List.nodup_append.2 ⟨h.settled.completed_nodup, h.settled.failed_nodup, ?_⟩
  intro i hi j hj heq
  obtain ⟨c, hc, rfl⟩ := List.mem_map.1 hi
  have hcompleted := (h.settled.completed c hc).1
  rw [heq, h.settled.failed j hj] at hcompleted
  simp at hcompleted

omit [DecidableEq θ] [NeZero n] in
/-- The handler of a `Future` that is ready has been called. -/
theorem State.Sound.ready {s : State P n θ} (h : s.Sound) {state : ℕ}
    (hready : (s.states state).ready = true) : ∃ i job, s.origin state = .named i job ∧
      ((∃ c ∈ s.completed, c.taskId = i ∧ c.state = state) ∨
        (i ∈ s.failed ∧ s.states state = SharedState.shutDown)) := by
  have hnamed : ∃ i job, s.origin state = .named i job := by
    by_contra hnone
    push Not at hnone
    have hmake := h.settled.unnamed state hnone
    have hstates : s.states state = SharedState.make := hmake
    rw [hstates] at hready
    simp [SharedState.make] at hready
  obtain ⟨i, job, hi⟩ := hnamed
  refine ⟨i, job, hi, ?_⟩
  have htask := h.named.task_of_origin i job state hi
  by_cases hcompleted : s.place i = .completed
  · obtain ⟨c, hc, rfl⟩ := h.settled.of_completed i hcompleted
    obtain ⟨-, job', htask', -⟩ := h.settled.completed c hc
    have heq := Option.some.inj (htask'.symm.trans htask)
    exact Or.inl ⟨c, hc, rfl, congrArg Prod.snd heq⟩
  · by_cases hfailed : s.place i = .failed
    · exact Or.inr ⟨h.settled.of_failed i hfailed, h.settled.failed_state i job state htask hfailed⟩
    · have hnot := h.settled.not_ready htask hcompleted hfailed
      have hstates : (s.states state).ready = false := hnot
      rw [hstates] at hready
      simp at hready

/-- **The results are right in every reachable state.** -/
theorem routed_of_reachable {s : State P n θ} (h : (pool P n θ).Reachable s) : s.Routed := by
  have hsound := sound_of_reachable h
  refine ⟨hsound.sent.executed_nodup, ?_, ?_, ?_, ?_, hsound.called_once, fun _ => hsound.ready⟩
  · intro e he
    obtain ⟨job, state, htask, hruns⟩ := hsound.faithful.executed e he
    exact ⟨job, state, hsound.named.origin_of_task _ _ _ htask, hruns⟩
  · intro c hc
    obtain ⟨-, job, htask, hstate⟩ := hsound.settled.completed c hc
    refine ⟨job, hsound.named.origin_of_task _ _ _ htask, hstate, ?_⟩
    obtain ⟨e, he, r, hresponse, hid, hstatus, hpayload⟩ := hsound.faithful.completed c hc
    obtain ⟨job', state', htask', hruns⟩ := hsound.faithful.executed e he
    rw [hid] at htask'
    obtain rfl := congrArg Prod.fst (Option.some.inj (htask'.symm.trans htask))
    exact ⟨e, he, r, hid, hruns, hresponse, hstatus, hpayload⟩
  · intro i job job' state state' hi hi'
    have htask := hsound.named.task_of_origin i job state hi
    have htask' := hsound.named.task_of_origin i job' state' hi'
    exact congrArg Prod.snd (Option.some.inj (htask.symm.trans htask'))
  · intro x hx
    obtain ⟨i, hi⟩ := hsound.named.of_returned x hx
    exact ⟨i, hsound.named.origin_of_task i x.1 x.2 hi⟩

/-- **A `Future` that is ready stays as it is.** -/
theorem ready_stable {s s' : State P n θ} (h : (pool P n θ).Reachable s)
    (hs : (pool P n θ).Steps s s') {state : ℕ} (hready : (s.states state).ready = true) :
    s'.states state = s.states state := by
  -- The value at the start of the run is kept by every step of it.
  refine Automaton.Steps.stable (P := fun u => u.states state = s.states state) ?_ h hs rfl
  intro u a u' hu heq hstep
  obtain ⟨hwrap, hstep⟩ := Automaton.restrict_step_eq_some.1 hstep
  have hsound := sound_of_reachable hu
  rw [← heq] at hready
  rcases State.routing_step hsound.framed hsound.idle hwrap (effect_of_step hstep) with hsame | hmove
  · have hstates : u'.states = u.states := congrArg (fun R => R.states) hsame
    rw [hstates]
    exact heq
  · have hkeep := hsound.settled.ready_stable hsound.named hsound.placed hmove hready
    exact Eq.trans hkeep heq

/-- **Results are never misrouted, duplicated or changed.** -/
theorem results_never_misrouted {s : State P n θ} (h : (pool P n θ).Reachable s) :
    s.Routed ∧ ∀ s', (pool P n θ).Steps s s' → ∀ state, (s.states state).ready = true →
      s'.states state = s.states state :=
  ⟨routed_of_reachable h, fun _ hs _ hready => ready_stable h hs hready⟩

end Reachable

/-! ### A run -/

/-- The steps of a call of `Submit` up to the choice of a worker. -/
def submitSteps (t : θ) (job : Job P) : List (Action P n θ) :=
  [.makeState t job, .fetchTaskId t, .insertPending t, .chooseWorker t]

/-- The steps of a call of `Submit` that write the request for a byte to a worker, and return. -/
def writeSteps (t : θ) (w : Fin n) : List (Action P n θ) :=
  [.lockWriteMutex t, .link w (.write (.submit t) 32), .link w (.write (.submit t) 9),
    .returnFuture t]

/-- The steps of a worker that runs such a request, and those of its reader. -/
def answerSteps (w : Fin n) (result : UInt8) : List (Action P n θ) :=
  [.link w (.readRequest 32), .link w (.readRequest 9), .execute w (.returned [result]),
    .link w (.writeResponse 24), .link w (.writeResponse 1), .link w (.readResponse 24),
    .link w (.readResponse 1), .lookup w, .complete w]

/-- Two threads submit at the same time, and the worker of the second answers first; the other one dies
after it has answered. -/
def twoTasks (v w : Fin n) : List (Action byteProgram n Bool) :=
  submitSteps false (byteJob 1 5) ++ submitSteps true (byteJob 2 6) ++ writeSteps true w ++
    writeSteps false v ++ answerSteps w 36 ++ answerSteps v 25 ++ [Action.link v .die]

theorem results_never_misrouted_two_tasks :
    ∃ s : State byteProgram 2 Bool, (pool byteProgram 2 Bool).Reachable s ∧
      s.states 0 = ⟨true, some [25], none⟩ ∧ s.states 1 = ⟨true, some [36], none⟩ ∧ s.Routed := by
  obtain ⟨s, hs⟩ : ∃ s, (pool byteProgram 2 Bool).run State.initial (twoTasks 0 1) = some s :=
    ⟨_, rfl⟩
  have hr : (pool byteProgram 2 Bool).Reachable s := Automaton.Reachable.of_run rfl hs
  have hstates : s.states 0 = ⟨true, some [25], none⟩ ∧ s.states 1 = ⟨true, some [36], none⟩ := by
    obtain rfl := Option.some_inj.1 hs
    exact ⟨rfl, rfl⟩
  exact ⟨s, hr, hstates.1, hstates.2, (results_never_misrouted hr).1⟩

end ProcessPool
