/-
**From a call of `Submit` to an execution.**

Every id belongs to one call of `Submit`, and every task is at one stage of its way: held by the thread
that has fetched the id, in flight to one worker, answered by it, or closed.  So no task is executed
twice, and an execution is always that of the function that was submitted.

Main definitions:

* `ProcessPool.Routing.Named` — ids and shared states belong to one call of `Submit` each;
* `ProcessPool.Routing.Sent` — **a task is at one stage only**;
* `ProcessPool.Routing.Faithful` — **what is executed is a task, and what is answered is an execution
  of it**.

Main results:

* `ProcessPool.Routing.Named.step`, `ProcessPool.Routing.Sent.step`,
  `ProcessPool.Routing.Faithful.step` — every step keeps these invariants.
-/

import CppMultithreaded.PoolRouting

set_option relaxedAutoImplicit false
set_option autoImplicit false

namespace ProcessPool

variable {τ θ : Type*} {P : Program τ} {n : ℕ} [DecidableEq θ]

/-! ### Updates of one value -/

/-- An update of one value keeps the values that differ from it. -/
theorem update_of_apply_ne {α β : Type*} [DecidableEq α] {f : α → β} {i j : α} {a b c : β}
    (hi : f i = a) (hj : f j = b) (hne : a ≠ b) : Function.update f j c i = a := by
  have hij : i ≠ j := by
    rintro rfl
    exact hne (hi.symm.trans hj)
  rw [Function.update_of_ne hij]
  exact hi

/-- A value that an update has not put there was there before. -/
theorem of_update_apply_ne {α β : Type*} [DecidableEq α] {f : α → β} {i j : α} {a c : β}
    (h : Function.update f j c i = a) (hne : a ≠ c) : f i = a ∧ i ≠ j := by
  rcases eq_or_ne i j with rfl | hij
  · rw [Function.update_self] at h
    exact absurd h.symm hne
  · rw [Function.update_of_ne hij] at h
    exact ⟨h, hij⟩

/-- An update that keeps a part of the old value keeps this part of every value. -/
theorem apply_update_eq {α β γ : Type*} [DecidableEq α] {f : α → β} {j : α} {c : β} (g : β → γ)
    (h : g c = g (f j)) (i : α) : g (Function.update f j c i) = g (f i) := by
  rcases eq_or_ne i j with rfl | hij
  · rw [Function.update_self]
    exact h
  · rw [Function.update_of_ne hij]

/-! ### Ids and shared states -/

/-- The function, the shared state and the id of a call of `Submit` that has fetched its id. -/
def SubmitPc.task? : SubmitPc P n → Option (Job P × ℕ × ℕ)
  | .insertPending job state taskId => some (job, state, taskId)
  | .chooseWorker job state taskId => some (job, state, taskId)
  | .lockWriteMutex job state taskId _ => some (job, state, taskId)
  | .write job state taskId _ => some (job, state, taskId)
  | _ => none

/-- **Every id belongs to one call of `Submit`, and so does every shared state.** -/
structure Routing.Named (R : Routing P n θ) : Prop where
  task_lt : ∀ i x, R.task i = some x → i < R.nextTaskId
  origin_of_task : ∀ i job state, R.task i = some (job, state) → R.origin state = .named i job
  task_of_origin : ∀ i job state, R.origin state = .named i job → R.task i = some (job, state)
  origin_lt : ∀ state, R.origin state ≠ .absent → state < R.nextState
  of_fetch : ∀ t job state, R.thread t = .fetchTaskId job state → R.origin state = .made t job
  of_thread : ∀ t job state i, (R.thread t).task? = some (job, state, i) →
    R.task i = some (job, state)
  of_returned : ∀ x ∈ R.returned, ∃ i, R.task i = some x

namespace Routing.Named

variable {R R' : Routing P n θ}

/-- A thread moves on, without making a shared state. -/
theorem move (h : R.Named) (t : θ) (pc : SubmitPc P n)
    (hfetch : ∀ job state, pc ≠ .fetchTaskId job state)
    (htask : pc.task? = none ∨ pc.task? = (R.thread t).task?) :
    Named { R with thread := Function.update R.thread t pc } := by
  refine ⟨h.task_lt, h.origin_of_task, h.task_of_origin, h.origin_lt, ?_, ?_, h.of_returned⟩
  · intro u job state hu
    rcases eq_or_ne u t with rfl | hne
    · simp only [Function.update_self] at hu
      exact absurd hu (hfetch job state)
    · simp only [Function.update_of_ne hne] at hu
      exact h.of_fetch u job state hu
  · intro u job state i hu
    rcases eq_or_ne u t with rfl | hne
    · simp only [Function.update_self] at hu
      rcases htask with hnone | hsame
      · rw [hnone] at hu
        simp at hu
      · rw [hsame] at hu
        exact h.of_thread u job state i hu
    · simp only [Function.update_of_ne hne] at hu
      exact h.of_thread u job state i hu

theorem makeState (h : R.Named) (t : θ) (job : Job P) :
    Named { R with toLedger := R.makeState t job } := by
  -- the new shared state is not one of those that belong to a thread or an id
  have hnew : ∀ u job' state, R.origin state = .made u job' → state ≠ R.nextState := by
    intro u job' state hstate heq
    have hlt := h.origin_lt state (by rw [hstate]; simp)
    omega
  have hnamed : ∀ i job' state, R.origin state = .named i job' → state ≠ R.nextState := by
    intro i job' state hstate heq
    have hlt := h.origin_lt state (by rw [hstate]; simp)
    omega
  refine ⟨h.task_lt, ?_, ?_, ?_, ?_, ?_, h.of_returned⟩
  · intro i job' state hi
    have hold := h.origin_of_task i job' state hi
    simp only [Ledger.makeState, Function.update_of_ne (hnamed i job' state hold)]
    exact hold
  · intro i job' state hi
    exact h.task_of_origin i job' state (of_update_apply_ne hi (by simp)).1
  · intro state hstate
    simp only [Ledger.makeState] at hstate ⊢
    rcases eq_or_ne state R.nextState with rfl | hne
    · exact Nat.lt_succ_self _
    · rw [Function.update_of_ne hne] at hstate
      exact Nat.lt_succ_of_lt (h.origin_lt state hstate)
  · intro u job' state hu
    simp only [Ledger.makeState] at hu ⊢
    rcases eq_or_ne u t with rfl | hne
    · rw [Function.update_self] at hu
      injection hu with hjob hstate
      rw [← hjob, ← hstate, Function.update_self]
    · rw [Function.update_of_ne hne] at hu
      have hold := h.of_fetch u job' state hu
      rw [Function.update_of_ne (hnew u job' state hold)]
      exact hold
  · intro u job' state i hu
    simp only [Ledger.makeState] at hu
    rcases eq_or_ne u t with rfl | hne
    · rw [Function.update_self] at hu
      simp [SubmitPc.task?] at hu
    · rw [Function.update_of_ne hne] at hu
      exact h.of_thread u job' state i hu

theorem fetchTaskId (h : R.Named) {t : θ} {job : Job P} {state : ℕ}
    (ht : R.thread t = .fetchTaskId job state) (hlt : R.nextTaskId + 1 < 2 ^ 64) :
    Named { R with toLedger := R.fetchTaskId t job state } := by
  have hmade := h.of_fetch t job state ht
  -- the ids do not wrap, so that the new one is greater than all others
  have hnext : (R.nextTaskId + 1) % 2 ^ 64 = R.nextTaskId + 1 := Nat.mod_eq_of_lt hlt
  have hkeep : ∀ i x, R.task i = some x →
      Function.update R.task R.nextTaskId (some (job, state)) i = some x := by
    intro i x hi
    have hne : i ≠ R.nextTaskId := (h.task_lt i x hi).ne
    rw [Function.update_of_ne hne]
    exact hi
  refine ⟨?_, ?_, ?_, ?_, ?_, ?_, ?_⟩
  · intro i x hi
    simp only [Ledger.fetchTaskId, hnext] at hi ⊢
    rcases eq_or_ne i R.nextTaskId with rfl | hne
    · exact Nat.lt_succ_self _
    · rw [Function.update_of_ne hne] at hi
      exact Nat.lt_succ_of_lt (h.task_lt i x hi)
  · intro i job' state' hi
    simp only [Ledger.fetchTaskId] at hi ⊢
    rcases eq_or_ne i R.nextTaskId with rfl | hne
    · rw [Function.update_self, Option.some.injEq, Prod.mk.injEq] at hi
      rw [← hi.1, ← hi.2, Function.update_self]
    · rw [Function.update_of_ne hne] at hi
      have hold := h.origin_of_task i job' state' hi
      have hstate : state' ≠ state := by
        rintro rfl
        rw [hmade] at hold
        simp at hold
      rw [Function.update_of_ne hstate]
      exact hold
  · intro i job' state' hi
    simp only [Ledger.fetchTaskId] at hi ⊢
    rcases eq_or_ne state' state with rfl | hne
    · rw [Function.update_self] at hi
      obtain ⟨rfl, rfl⟩ := Origin.named.inj hi
      rw [Function.update_self]
    · rw [Function.update_of_ne hne] at hi
      exact hkeep i _ (h.task_of_origin i job' state' hi)
  · intro state' hstate'
    simp only [Ledger.fetchTaskId] at hstate' ⊢
    rcases eq_or_ne state' state with rfl | hne
    · exact h.origin_lt state' (by rw [hmade]; simp)
    · rw [Function.update_of_ne hne] at hstate'
      exact h.origin_lt state' hstate'
  · intro u job' state' hu
    simp only [Ledger.fetchTaskId] at hu ⊢
    rcases eq_or_ne u t with rfl | hne
    · simp [Function.update_self] at hu
    · rw [Function.update_of_ne hne] at hu
      have hold := h.of_fetch u job' state' hu
      have hstate : state' ≠ state := by
        rintro rfl
        rw [hmade] at hold
        injection hold with hut
        exact hne hut.symm
      rw [Function.update_of_ne hstate]
      exact hold
  · intro u job' state' i hu
    simp only [Ledger.fetchTaskId] at hu ⊢
    rcases eq_or_ne u t with rfl | hne
    · rw [Function.update_self] at hu
      simp only [SubmitPc.task?, Option.some.injEq, Prod.mk.injEq] at hu
      obtain ⟨rfl, rfl, rfl⟩ := hu
      rw [Function.update_self]
    · rw [Function.update_of_ne hne] at hu
      exact hkeep i _ (h.of_thread u job' state' i hu)
  · intro x hx
    obtain ⟨i, hi⟩ := h.of_returned x hx
    exact ⟨i, hkeep i x hi⟩

/-- **Every step keeps the names.** -/
theorem step (h : R.Named) (hs : R.Step R') : R'.Named := by
  cases hs with
  | makeState t job _ => exact h.makeState t job
  | fetchTaskId t job state ht hlt => exact h.fetchTaskId ht hlt
  | insertPending t job state taskId ht =>
      have hmove := h.move t (.chooseWorker job state taskId) (by simp)
        (Or.inr (by rw [ht]; rfl))
      exact ⟨hmove.task_lt, hmove.origin_of_task, hmove.task_of_origin, hmove.origin_lt,
        hmove.of_fetch, hmove.of_thread, hmove.of_returned⟩
  | chooseWorker t job state taskId w ht => exact h.move t _ (by simp) (Or.inr (by rw [ht]; rfl))
  | refuse t => exact h.move t .idle (by simp) (Or.inl rfl)
  | send t job state taskId w ht =>
      have hmove := h.move t (.write job state taskId w) (by simp)
        (Or.inr (by rw [ht]; rfl))
      exact ⟨hmove.task_lt, hmove.origin_of_task, hmove.task_of_origin, hmove.origin_lt,
        hmove.of_fetch, hmove.of_thread, hmove.of_returned⟩
  | returnFuture t job state taskId w ht =>
      have hmove := h.move t .idle (by simp) (Or.inl rfl)
      refine ⟨hmove.task_lt, hmove.origin_of_task, hmove.task_of_origin, hmove.origin_lt,
        hmove.of_fetch, hmove.of_thread, ?_⟩
      intro x hx
      rcases List.mem_append.1 hx with hold | hnew
      · exact h.of_returned x hold
      · rw [List.mem_singleton.1 hnew]
        exact ⟨taskId, h.of_thread t job state taskId (by rw [ht]; rfl)⟩
  | _ =>
      exact ⟨h.task_lt, h.origin_of_task, h.task_of_origin, h.origin_lt, h.of_fetch, h.of_thread,
        h.of_returned⟩

end Routing.Named

/-! ### The way to an execution -/

/-- The id that a call of `Submit` holds, as long as its request has not begun. -/
def SubmitPc.holds : SubmitPc P n → Option ℕ
  | .insertPending _ _ taskId => some taskId
  | .chooseWorker _ _ taskId => some taskId
  | .lockWriteMutex _ _ taskId _ => some taskId
  | _ => none

/-- **A task is at one stage only**: held by a thread, in flight to a worker, answered by a worker, or
closed. -/
structure Routing.Sent (R : Routing P n θ) : Prop where
  stage_lt : ∀ i, R.nextTaskId ≤ i → R.stage i = .absent
  of_thread : ∀ t i, (R.thread t).holds = some i → R.stage i = .held t
  of_runs : ∀ w i job, (i, job) ∈ R.runs w →
    R.stage i = .sent w ∧ ∃ state, R.task i = some (job, state)
  runs_nodup : ∀ w, ((R.runs w).map Prod.fst).Nodup
  of_executed : ∀ e ∈ R.executed, R.stage e.taskId = .answered e.worker ∨ R.stage e.taskId = .closed
  executed_nodup : (R.executed.map Execution.taskId).Nodup
  of_responses : ∀ w, ∀ r ∈ R.responses w, R.stage r.taskId = .answered w
  responses_nodup : ∀ w, ((R.responses w).map Response.taskId).Nodup
  of_answered : ∀ i w, R.stage i = .answered w → ∃ r ∈ R.responses w, r.taskId = i

omit [DecidableEq θ] in
@[simp] theorem taskId_respond (taskId : ℕ) (e : Executed) : (respond taskId e).taskId = taskId := by
  rw [respond]
  split_ifs <;> rfl

namespace Routing.Sent

variable {R R' : Routing P n θ}

theorem move (h : R.Sent) (t : θ) (pc : SubmitPc P n)
    (hpc : pc.holds = none ∨ pc.holds = (R.thread t).holds) :
    ∀ u i, (Function.update R.thread t pc u).holds = some i → R.stage i = .held u := by
  intro u i hu
  rcases eq_or_ne u t with rfl | hne
  · rw [Function.update_self] at hu
    rcases hpc with hnone | hsame
    · rw [hnone] at hu
      simp at hu
    · rw [hsame] at hu
      exact h.of_thread u i hu
  · rw [Function.update_of_ne hne] at hu
    exact h.of_thread u i hu

theorem fetchTaskId (h : R.Sent) (hn : R.Named) {t : θ} {job : Job P} {state : ℕ}
    (hlt : R.nextTaskId + 1 < 2 ^ 64) : Sent { R with toLedger := R.fetchTaskId t job state } := by
  have hnext : (R.nextTaskId + 1) % 2 ^ 64 = R.nextTaskId + 1 := Nat.mod_eq_of_lt hlt
  have hfresh := h.stage_lt R.nextTaskId le_rfl
  have hkeep : ∀ {i : ℕ} {a : Stage n θ}, R.stage i = a → a ≠ .absent →
      Function.update R.stage R.nextTaskId (.held t) i = a := by
    intro i a hi hne
    exact update_of_apply_ne hi hfresh hne
  refine ⟨?_, ?_, ?_, h.runs_nodup, ?_, h.executed_nodup, ?_, h.responses_nodup, ?_⟩
  · intro i hi
    simp only [Ledger.fetchTaskId, hnext] at hi ⊢
    rw [Function.update_of_ne (by omega)]
    exact h.stage_lt i (by omega)
  · intro u i hu
    simp only [Ledger.fetchTaskId] at hu ⊢
    rcases eq_or_ne u t with rfl | hne
    · rw [Function.update_self] at hu
      obtain rfl := Option.some.inj hu
      rw [Function.update_self]
    · rw [Function.update_of_ne hne] at hu
      exact hkeep (h.of_thread u i hu) (by simp)
  · intro w i job' hi
    obtain ⟨hstage, state', htask⟩ := h.of_runs w i job' hi
    refine ⟨hkeep hstage (by simp), state', ?_⟩
    simp only [Ledger.fetchTaskId]
    rw [Function.update_of_ne (hn.task_lt i _ htask).ne]
    exact htask
  · intro e he
    rcases h.of_executed e he with hstage | hstage
    · exact Or.inl (hkeep hstage (by simp))
    · exact Or.inr (hkeep hstage (by simp))
  · intro w r hr
    exact hkeep (h.of_responses w r hr) (by simp)
  · intro i w hi
    exact h.of_answered i w (of_update_apply_ne hi (by simp)).1

theorem send (h : R.Sent) (hn : R.Named) {t : θ} {job : Job P} {state taskId : ℕ} {w : Fin n}
    (ht : R.thread t = .lockWriteMutex job state taskId w) :
    Sent { R with
      toLedger := R.send t job state taskId w
      runs := Function.update R.runs w (R.runs w ++ [(taskId, job)]) } := by
  have hheld : R.stage taskId = .held t := h.of_thread t taskId (by rw [ht]; rfl)
  have htask : R.task taskId = some (job, state) :=
    hn.of_thread t job state taskId (by rw [ht]; rfl)
  have hkeep : ∀ {i : ℕ} {a : Stage n θ}, R.stage i = a → a ≠ .held t →
      Function.update R.stage taskId (.sent w) i = a := by
    intro i a hi hne
    exact update_of_apply_ne hi hheld hne
  refine ⟨?_, ?_, ?_, ?_, ?_, h.executed_nodup, ?_, h.responses_nodup, ?_⟩
  · intro i hi
    exact hkeep (h.stage_lt i hi) (by simp)
  · intro u i hu
    simp only [Ledger.send] at hu ⊢
    rcases eq_or_ne u t with rfl | hne
    · rw [Function.update_self] at hu
      simp [SubmitPc.holds] at hu
    · rw [Function.update_of_ne hne] at hu
      exact hkeep (h.of_thread u i hu) (by simpa using hne)
  · intro v i job' hi
    simp only [Ledger.send] at hi ⊢
    rcases eq_or_ne v w with rfl | hne
    · rw [Function.update_self] at hi
      rcases List.mem_append.1 hi with hold | hnew
      · obtain ⟨hstage, htask'⟩ := h.of_runs v i job' hold
        exact ⟨hkeep hstage (by simp), htask'⟩
      · obtain ⟨rfl, rfl⟩ := Prod.mk.inj (List.mem_singleton.1 hnew)
        exact ⟨Function.update_self _ _ _, state, htask⟩
    · rw [Function.update_of_ne hne] at hi
      obtain ⟨hstage, htask'⟩ := h.of_runs v i job' hi
      exact ⟨hkeep hstage (by simp), htask'⟩
  · intro v
    rcases eq_or_ne v w with rfl | hne
    · simp only [Function.update_self, List.map_append, List.map_cons, List.map_nil]
      refine List.nodup_append.2 ⟨h.runs_nodup v, List.nodup_singleton _, ?_⟩
      intro a ha b hb
      obtain ⟨⟨i, job'⟩, hmem, rfl⟩ := List.mem_map.1 ha
      rw [List.mem_singleton.1 hb]
      rintro rfl
      have hsent := (h.of_runs v _ job' hmem).1
      rw [hheld] at hsent
      simp at hsent
    · simp only [Function.update_of_ne hne]
      exact h.runs_nodup v
  · intro e he
    rcases h.of_executed e he with hstage | hstage
    · exact Or.inl (hkeep hstage (by simp))
    · exact Or.inr (hkeep hstage (by simp))
  · intro v r hr
    exact hkeep (h.of_responses v r hr) (by simp)
  · intro i v hi
    exact h.of_answered i v (of_update_apply_ne hi (by simp)).1

omit [DecidableEq θ] in
/-- A worker has called an executor: it has taken the first task in flight to it, and its response, if
there is one, is the last in flight. -/
theorem record (h : R.Sent) {e : Execution n} {job : Job P} {rest : List (ℕ × Job P)}
    {rs : List Response} (hruns : R.runs e.worker = (e.taskId, job) :: rest)
    (hrs : rs = R.responses e.worker ++ e.response.toList)
    (hid : ∀ r ∈ e.response, r.taskId = e.taskId) :
    Sent { R with
      toLedger := R.record e
      runs := Function.update R.runs e.worker rest
      responses := Function.update R.responses e.worker rs } := by
  have hsent := (h.of_runs e.worker e.taskId job (by rw [hruns]; exact List.mem_cons_self)).1
  have hnodup := h.runs_nodup e.worker
  rw [hruns, List.map_cons, List.nodup_cons] at hnodup
  -- only the id of the execution is sent to this worker and changes its stage
  have hkeep : ∀ {i : ℕ} {a b : Stage n θ}, R.stage i = a → a ≠ .sent e.worker →
      Function.update R.stage e.taskId b i = a := by
    intro i a b hi hne
    exact update_of_apply_ne hi hsent hne
  refine ⟨?_, ?_, ?_, ?_, ?_, ?_, ?_, ?_, ?_⟩
  · intro i hi
    exact hkeep (h.stage_lt i hi) (by simp)
  · intro u i hu
    exact hkeep (h.of_thread u i hu) (by simp)
  · intro v i job' hi
    rcases eq_or_ne v e.worker with rfl | hne
    · simp only [Function.update_self] at hi
      have hmem := h.of_runs e.worker i job' (by rw [hruns]; exact List.mem_cons_of_mem _ hi)
      refine ⟨?_, hmem.2⟩
      -- the rest of the tasks in flight have other ids
      have hi' : i ≠ e.taskId := by
        rintro rfl
        exact hnodup.1 (List.mem_map.2 ⟨_, hi, rfl⟩)
      simp only [Ledger.record, Function.update_of_ne hi']
      exact hmem.1
    · simp only [Function.update_of_ne hne] at hi
      have hmem := h.of_runs v i job' hi
      exact ⟨hkeep hmem.1 (by simpa using hne), hmem.2⟩
  · intro v
    rcases eq_or_ne v e.worker with rfl | hne
    · simp only [Function.update_self]
      exact hnodup.2
    · simp only [Function.update_of_ne hne]
      exact h.runs_nodup v
  · intro e' he'
    rcases List.mem_append.1 he' with hold | hnew
    · rcases h.of_executed e' hold with hstage | hstage
      · exact Or.inl (hkeep hstage (by simp))
      · exact Or.inr (hkeep hstage (by simp))
    · rw [List.mem_singleton.1 hnew]
      simp only [Ledger.record, Function.update_self]
      split_ifs
      · exact Or.inl rfl
      · exact Or.inr rfl
  · simp only [Ledger.record, List.map_append, List.map_cons, List.map_nil]
    refine List.nodup_append.2 ⟨h.executed_nodup, List.nodup_singleton _, ?_⟩
    -- an id that had been executed before would not be sent now
    intro a ha b hb
    obtain ⟨e', hmem, rfl⟩ := List.mem_map.1 ha
    rw [List.mem_singleton.1 hb]
    intro heq
    rcases h.of_executed e' hmem with hstage | hstage
    · rw [heq, hsent] at hstage
      simp at hstage
    · rw [heq, hsent] at hstage
      simp at hstage
  · intro v r hr
    rcases eq_or_ne v e.worker with rfl | hne
    · simp only [Function.update_self, hrs] at hr
      rcases List.mem_append.1 hr with hold | hnew
      · exact hkeep (h.of_responses e.worker r hold) (by simp)
      · have hmem := Option.mem_toList.1 hnew
        simp only [Ledger.record, hid r hmem, Function.update_self]
        rw [if_pos (by rw [Option.mem_def.1 hmem]; rfl)]
    · simp only [Function.update_of_ne hne] at hr
      exact hkeep (h.of_responses v r hr) (by simp)
  · intro v
    rcases eq_or_ne v e.worker with rfl | hne
    · simp only [Function.update_self, hrs, List.map_append]
      refine List.nodup_append.2 ⟨h.responses_nodup e.worker, ?_, ?_⟩
      · cases e.response <;> simp
      · -- a response under this id would have been given before the execution
        intro a ha b hb
        obtain ⟨r, hr, rfl⟩ := List.mem_map.1 ha
        obtain ⟨r', hr', rfl⟩ := List.mem_map.1 hb
        rw [hid r' (Option.mem_toList.1 hr')]
        intro heq
        have hanswered := h.of_responses e.worker r hr
        rw [heq, hsent] at hanswered
        simp at hanswered
    · simp only [Function.update_of_ne hne]
      exact h.responses_nodup v
  · intro i v hi
    simp only [Ledger.record] at hi
    rcases eq_or_ne i e.taskId with rfl | hne
    · rw [Function.update_self] at hi
      split_ifs at hi with hsome
      obtain ⟨r, hr⟩ := Option.isSome_iff_exists.1 hsome
      rw [← Stage.answered.inj hi]
      refine ⟨r, ?_, hid r hr⟩
      simp only [Function.update_self, hrs]
      exact List.mem_append_right _ (Option.mem_toList.2 hr)
    · rw [Function.update_of_ne hne] at hi
      obtain ⟨r, hr, hri⟩ := h.of_answered i v hi
      refine ⟨r, ?_, hri⟩
      rcases eq_or_ne v e.worker with rfl | hv
      · simp only [Function.update_self, hrs]
        exact List.mem_append_left _ hr
      · simp only [Function.update_of_ne hv]
        exact hr

omit [DecidableEq θ] in
theorem lookup (h : R.Sent) {w : Fin n} {r : Response} {rest : List Response}
    {handler : Fin n → Option Handler} (hresponses : R.responses w = r :: rest) :
    Sent { R with
      toLedger := R.lookup w r.taskId
      responses := Function.update R.responses w rest
      handler := handler } := by
  have hanswered := h.of_responses w r (by rw [hresponses]; exact List.mem_cons_self)
  have hnodup := h.responses_nodup w
  rw [hresponses, List.map_cons, List.nodup_cons] at hnodup
  have hkeep : ∀ {i : ℕ} {a : Stage n θ}, R.stage i = a → a ≠ .answered w →
      Function.update R.stage r.taskId .closed i = a := by
    intro i a hi hne
    exact update_of_apply_ne hi hanswered hne
  refine ⟨?_, ?_, ?_, h.runs_nodup, ?_, h.executed_nodup, ?_, ?_, ?_⟩
  · intro i hi
    exact hkeep (h.stage_lt i hi) (by simp)
  · intro u i hu
    exact hkeep (h.of_thread u i hu) (by simp)
  · intro v i job hi
    obtain ⟨hstage, htask⟩ := h.of_runs v i job hi
    exact ⟨hkeep hstage (by simp), htask⟩
  · intro e he
    simp only [Ledger.lookup]
    rcases eq_or_ne e.taskId r.taskId with heq | hne
    · rw [heq, Function.update_self]
      exact Or.inr rfl
    · rw [Function.update_of_ne hne]
      exact h.of_executed e he
  · intro v r' hr'
    rcases eq_or_ne v w with rfl | hne
    · simp only [Function.update_self] at hr'
      have hi : r'.taskId ≠ r.taskId := by
        intro heq
        exact hnodup.1 (heq ▸ List.mem_map.2 ⟨r', hr', rfl⟩)
      simp only [Ledger.lookup, Function.update_of_ne hi]
      exact h.of_responses v r' (by rw [hresponses]; exact List.mem_cons_of_mem _ hr')
    · simp only [Function.update_of_ne hne] at hr'
      exact hkeep (h.of_responses v r' hr') (by simpa using hne)
  · intro v
    rcases eq_or_ne v w with rfl | hne
    · simp only [Function.update_self]
      exact hnodup.2
    · simp only [Function.update_of_ne hne]
      exact h.responses_nodup v
  · intro i v hi
    obtain ⟨hold, hne⟩ := of_update_apply_ne hi (by simp)
    obtain ⟨r', hr', hri⟩ := h.of_answered i v hold
    refine ⟨r', ?_, hri⟩
    rcases eq_or_ne v w with rfl | hv
    · simp only [Function.update_self]
      rw [hresponses] at hr'
      rcases List.mem_cons.1 hr' with rfl | hrest
      · exact absurd hri.symm hne
      · exact hrest
    · simp only [Function.update_of_ne hv]
      exact hr'

/-- **Every step keeps the stages.** -/
theorem step (h : R.Sent) (hn : R.Named) (hs : R.Step R') : R'.Sent := by
  cases hs with
  | makeState t job ht =>
      exact ⟨h.stage_lt, h.move t _ (Or.inl rfl), h.of_runs, h.runs_nodup, h.of_executed,
        h.executed_nodup, h.of_responses, h.responses_nodup, h.of_answered⟩
  | fetchTaskId t job state ht hlt => exact h.fetchTaskId hn hlt
  | insertPending t job state taskId ht =>
      exact ⟨h.stage_lt, h.move t _ (Or.inr (by rw [ht]; rfl)), h.of_runs, h.runs_nodup,
        h.of_executed, h.executed_nodup, h.of_responses, h.responses_nodup, h.of_answered⟩
  | chooseWorker t job state taskId w ht =>
      exact ⟨h.stage_lt, h.move t _ (Or.inr (by rw [ht]; rfl)), h.of_runs, h.runs_nodup,
        h.of_executed, h.executed_nodup, h.of_responses, h.responses_nodup, h.of_answered⟩
  | refuse t =>
      exact ⟨h.stage_lt, h.move t _ (Or.inl rfl), h.of_runs, h.runs_nodup, h.of_executed,
        h.executed_nodup, h.of_responses, h.responses_nodup, h.of_answered⟩
  | send t job state taskId w ht => exact h.send hn ht
  | returnFuture t job state taskId w ht =>
      exact ⟨h.stage_lt, h.move t _ (Or.inl rfl), h.of_runs, h.runs_nodup, h.of_executed,
        h.executed_nodup, h.of_responses, h.responses_nodup, h.of_answered⟩
  | execute w taskId job rest outcome hruns hfits =>
      exact h.record (e := Execution.ofTask w taskId job outcome) hruns rfl
        (by simp [Execution.ofTask])
  | crash w taskId job rest hruns =>
      have hrecord := h.record (e := Execution.crashed w taskId job) hruns rfl
        (by simp [Execution.crashed])
      simp only [Execution.crashed, Option.toList_none, List.append_nil, Function.update_eq_self]
        at hrecord
      exact hrecord
  | lookup w r rest hresponses _ => exact h.lookup hresponses
  | complete w handler _ =>
      exact ⟨h.stage_lt, h.of_thread, h.of_runs, h.runs_nodup, h.of_executed, h.executed_nodup,
        h.of_responses, h.responses_nodup, h.of_answered⟩
  | drain _ =>
      exact ⟨h.stage_lt, h.of_thread, h.of_runs, h.runs_nodup, h.of_executed, h.executed_nodup,
        h.of_responses, h.responses_nodup, h.of_answered⟩
  | fail taskId pending _ _ =>
      exact ⟨h.stage_lt, h.of_thread, h.of_runs, h.runs_nodup, h.of_executed, h.executed_nodup,
        h.of_responses, h.responses_nodup, h.of_answered⟩

end Routing.Sent

/-! ### What is executed, and what is answered -/

/-- The execution has called the function of the task on its arguments, and its response, if there is
one, tells how the call has ended. -/
def Execution.Runs (e : Execution n) (job : Job P) : Prop :=
  e.called = some (job.fn, job.args) ∧
    ∀ r, e.response = some r → ∃ outcome : Outcome, outcome.Fits (P.resultSize job.type) ∧
      r = respond e.taskId ⟨some (job.fn, job.args), outcome.output, outcome.error⟩

/-- Some execution of the task has produced the response. -/
def Ledger.Produced (L : Ledger P n θ) (taskId status : ℕ) (payload : List UInt8) : Prop :=
  ∃ e ∈ L.executed, ∃ r, e.response = some r ∧ e.taskId = taskId ∧ r.status.code = status ∧
    r.payload = payload

/-- **What is executed is a task, and what is answered is an execution of it.** -/
structure Routing.Faithful (R : Routing P n θ) : Prop where
  executed : ∀ e ∈ R.executed, ∃ job state, R.task e.taskId = some (job, state) ∧ e.Runs job
  responses : ∀ w, ∀ r ∈ R.responses w, ∃ e ∈ R.executed, e.worker = w ∧ e.taskId = r.taskId ∧
    e.response = some r
  handler : ∀ w h, R.handler w = some h → R.Produced h.taskId h.status h.payload
  completed : ∀ c ∈ R.completed, R.Produced c.taskId c.status c.payload

omit [DecidableEq θ] in
theorem Ledger.Produced.mono {L L' : Ledger P n θ} (hsub : L.executed ⊆ L'.executed)
    {taskId status : ℕ} {payload : List UInt8} (h : L.Produced taskId status payload) :
    L'.Produced taskId status payload := by
  obtain ⟨e, he, hrest⟩ := h
  exact ⟨e, hsub he, hrest⟩

namespace Routing.Faithful

variable {R R' : Routing P n θ}

omit [DecidableEq θ] in
theorem record (h : R.Faithful) {e : Execution n} {job : Job P} {state : ℕ} {rs : List Response}
    (runs : Fin n → List (ℕ × Job P)) (htask : R.task e.taskId = some (job, state)) (hruns : e.Runs job)
    (hid : ∀ r ∈ e.response, r.taskId = e.taskId)
    (hrs : rs = R.responses e.worker ++ e.response.toList) :
    Faithful { R with
      toLedger := R.record e
      runs := runs
      responses := Function.update R.responses e.worker rs } := by
  have hsub : R.executed ⊆ R.executed ++ [e] := List.subset_append_left _ _
  refine ⟨?_, ?_, ?_, ?_⟩
  · intro e' he'
    rcases List.mem_append.1 he' with hold | hnew
    · exact h.executed e' hold
    · rw [List.mem_singleton.1 hnew]
      exact ⟨job, state, htask, hruns⟩
  · intro v r hr
    have hold : ∀ u, r ∈ R.responses u → ∃ e' ∈ R.executed ++ [e], e'.worker = u ∧
        e'.taskId = r.taskId ∧ e'.response = some r := by
      intro u hu
      obtain ⟨e', he', hrest⟩ := h.responses u r hu
      exact ⟨e', hsub he', hrest⟩
    rcases eq_or_ne v e.worker with rfl | hne
    · simp only [Function.update_self, hrs] at hr
      rcases List.mem_append.1 hr with hmem | hnew
      · exact hold e.worker hmem
      · have hresponse := Option.mem_toList.1 hnew
        exact ⟨e, List.mem_append_right _ (List.mem_singleton_self e), rfl,
          (hid r hresponse).symm, hresponse⟩
    · simp only [Function.update_of_ne hne] at hr
      exact hold v hr
  · intro w handler hhandler
    exact (h.handler w handler hhandler).mono hsub
  · intro c hc
    exact (h.completed c hc).mono hsub

/-- **Every step keeps it that what is executed is a task.** -/
theorem step (h : R.Faithful) (hn : R.Named) (hsent : R.Sent) (hs : R.Step R') : R'.Faithful := by
  cases hs with
  | fetchTaskId t job state _ _ =>
      refine ⟨?_, h.responses, h.handler, h.completed⟩
      intro e he
      obtain ⟨job', state', htask, hruns⟩ := h.executed e he
      refine ⟨job', state', ?_, hruns⟩
      simp only [Ledger.fetchTaskId]
      rw [Function.update_of_ne (hn.task_lt _ _ htask).ne]
      exact htask
  | execute w taskId job rest outcome hruns hfits =>
      obtain ⟨-, state, htask⟩ := hsent.of_runs w taskId job (by rw [hruns]; exact List.mem_cons_self)
      refine h.record (e := Execution.ofTask w taskId job outcome) _ htask ⟨rfl, ?_⟩
        (by simp [Execution.ofTask]) rfl
      intro r hr
      exact ⟨outcome, hfits, (Option.some.inj hr).symm⟩
  | crash w taskId job rest hruns =>
      obtain ⟨-, state, htask⟩ := hsent.of_runs w taskId job (by rw [hruns]; exact List.mem_cons_self)
      have hrecord := h.record (e := Execution.crashed w taskId job) (Function.update R.runs w rest)
        htask ⟨rfl, by simp [Execution.crashed]⟩ (by simp [Execution.crashed]) rfl
      simp only [Execution.crashed, Option.toList_none, List.append_nil, Function.update_eq_self]
        at hrecord
      exact hrecord
  | lookup w r rest hresponses _ =>
      have hr : r ∈ R.responses w := by
        rw [hresponses]
        exact List.mem_cons_self
      refine ⟨h.executed, ?_, ?_, h.completed⟩
      · intro v r' hr'
        rcases eq_or_ne v w with rfl | hne
        · simp only [Function.update_self] at hr'
          exact h.responses v r' (by rw [hresponses]; exact List.mem_cons_of_mem _ hr')
        · simp only [Function.update_of_ne hne] at hr'
          exact h.responses v r' hr'
      · intro v handler hhandler
        rcases eq_or_ne v w with rfl | hne
        · simp only [Function.update_self] at hhandler
          obtain ⟨pending, -, rfl⟩ := Option.map_eq_some_iff.1 hhandler
          obtain ⟨e, he, -, hid, hresponse⟩ := h.responses v r hr
          exact ⟨e, he, r, hresponse, hid, rfl, rfl⟩
        · simp only [Function.update_of_ne hne] at hhandler
          exact h.handler v handler hhandler
  | complete w handler hhandler =>
      refine ⟨h.executed, h.responses, ?_, ?_⟩
      · intro v handler' hhandler'
        rcases eq_or_ne v w with rfl | hne
        · simp [Function.update_self] at hhandler'
        · simp only [Function.update_of_ne hne] at hhandler'
          exact h.handler v handler' hhandler'
      · intro c hc
        rcases List.mem_append.1 hc with hold | hnew
        · exact h.completed c hold
        · rw [List.mem_singleton.1 hnew]
          exact h.handler w handler hhandler
  | _ => exact ⟨h.executed, h.responses, h.handler, h.completed⟩

end Routing.Faithful

end ProcessPool
