/-
**No Future is left hanging by Shutdown.**

A call of `Submit` inserts its pending handler, and then checks `stopping_`; the call of `Shutdown` sets
`stopping_`, and in the end swaps the map.  So the handler of a call that has passed the check is in the
map before the swap, and is taken out by a reader or by `FailAllPending`; and as the readers have been
joined by then, whoever has taken it has called it when `Shutdown` returns.

Main definitions:

* `ProcessPool.State.Passed` — the call of `Submit` with the id has passed its check;
* `ProcessPool.State.Drained` — what `Shutdown` has done so far.

Main results:

* `ProcessPool.Routing.Step.place_stable` — a handler that has been taken out of the map is not put back;
* `ProcessPool.drained_of_reachable` — the invariant;
* `ProcessPool.no_future_left_hanging` — when `Shutdown` has returned, every `Future` that `Submit` has
  returned or returns later is ready.
-/

import CppMultithreaded.PoolReuse

set_option relaxedAutoImplicit false
set_option autoImplicit false

namespace ProcessPool

variable {τ θ : Type*} {P : Program τ} {n : ℕ}

/-! ### Handlers are not put back -/

section Level

variable [DecidableEq θ] {R R' : Routing P n θ}

/-- A handler that has been inserted stays inserted. -/
theorem Routing.Step.place_ne_absent (hs : R.Step R') {i : ℕ} (h : R.place i ≠ .absent) :
    R'.place i ≠ .absent := by
  have hupdate : ∀ {j : ℕ} {a : Place n}, a ≠ .absent →
      Function.update R.place j a i ≠ .absent := by
    intro j a ha hi
    exact h (of_update_apply_ne hi ha.symm).1
  cases hs with
  | insertPending t job state taskId _ => exact hupdate (by simp)
  | lookup w r rest _ _ =>
      simp only [Ledger.lookup]
      split_ifs
      · exact hupdate (by simp)
      · exact h
  | complete w handler _ => exact hupdate (by simp)
  | drain _ =>
      simp only [Ledger.drain]
      split_ifs
      · simp
      · exact h
  | fail taskId p _ => exact hupdate (by simp)
  | _ => exact h

/-- **A handler that has been taken out of the map is not put back.** -/
theorem Routing.Step.place_stable (hs : R.Step R') (hp : R.Placed) {i : ℕ} (h : R.place i ≠ .absent)
    (h' : R.place i ≠ .pending) : R'.place i ≠ .pending := by
  have hupdate : ∀ {j : ℕ} {a : Place n}, a ≠ .pending →
      Function.update R.place j a i ≠ .pending := by
    intro j a ha hi
    exact h' (of_update_apply_ne hi ha.symm).1
  cases hs with
  | insertPending t job state taskId ht =>
      have hne : i ≠ taskId := by
        rintro rfl
        exact h (hp.of_insert t job state i ht)
      simp only [Ledger.insertPending, Function.update_of_ne hne]
      exact h'
  | lookup w r rest _ _ =>
      simp only [Ledger.lookup]
      split_ifs
      · exact hupdate (by simp)
      · exact h'
  | complete w handler _ => exact hupdate (by simp)
  | drain _ =>
      simp only [Ledger.drain]
      split_ifs
      · simp
      · exact h'
  | fail taskId p _ => exact hupdate (by simp)
  | _ => exact h'

end Level

/-! ### What Shutdown has done so far -/

/-- The id of a call of `Submit` that has passed the check of `stopping_`. -/
def SubmitPc.passed : SubmitPc P n → Option ℕ
  | .lockWriteMutex _ _ taskId _ => some taskId
  | .write _ _ taskId _ => some taskId
  | _ => none

/-- The call of `Submit` with the id has passed its check, and may have returned. -/
def State.Passed (s : State P n θ) (i : ℕ) : Prop :=
  (∃ t, (s.thread t).passed = some i) ∨ ∃ x ∈ s.returned, s.task i = some x

/-- The reader of the worker has been joined. -/
def ShutdownPc.joined : ShutdownPc n → Fin n → Prop
  | .notStarted, _ | .sendStop _, _ | .writeStop _ _, _ => False
  | .joinReaders rest, w => w ∉ rest
  | _, _ => True

/-- What `Shutdown` has done so far: the readers that have been joined have ended; and once the map has
been swapped, no handler of a call that has passed its check is in the map. -/
structure State.Drained (s : State P n θ) : Prop where
  inserted : ∀ i, s.Passed i → s.place i ≠ .absent
  joined : ∀ w, s.shutdown.joined w → (s.link w).reader = .ended
  swapped : s.shutdown.swapped = true → ∀ i, s.Passed i → s.place i ≠ .pending

section Reachable

variable [DecidableEq θ] [NeZero n]

omit [NeZero n] in
/-- A call that has passed its check: it had passed it before, or it passes it in this step. -/
theorem passed_goTo {s : State P n θ} {t : θ} {pc : SubmitPc P n} {i : ℕ}
    (h : (∃ u, (Function.update s.thread t pc u).passed = some i) ∨
      ∃ x ∈ s.returned, s.task i = some x) : s.Passed i ∨ pc.passed = some i := by
  rcases h with ⟨u, hu⟩ | hreturned
  · rcases eq_or_ne u t with rfl | hne
    · rw [Function.update_self] at hu
      exact Or.inr hu
    · rw [Function.update_of_ne hne] at hu
      exact Or.inl (Or.inl ⟨u, hu⟩)
  · exact Or.inl (Or.inr hreturned)

/-- **A call passes its check only while `stopping_` is not set**, and its handler is inserted. -/
theorem passed_of_effect {s s' : State P n θ} {a : Action P n θ} (hsound : s.Sound)
    (hwrap : a.noWrap s = true) (he : Effect s a s') {i : ℕ} (h : s'.Passed i) :
    s.Passed i ∨ (s.stopping = false ∧ s.place i ≠ .absent) := by
  cases he with
  | makeState t job _ =>
      rcases passed_goTo h with hold | hnew
      · exact Or.inl hold
      · simp [SubmitPc.passed] at hnew
  | fetchTaskId t job state ht =>
      rcases h with ⟨u, hu⟩ | ⟨x, hx, hi⟩
      · rcases passed_goTo (s := s) (Or.inl ⟨u, hu⟩) with hold | hnew
        · exact Or.inl hold
        · simp [SubmitPc.passed] at hnew
      · refine Or.inl (Or.inr ⟨x, hx, ?_⟩)
        obtain ⟨j, hj⟩ := hsound.named.of_returned x hx
        simp only [Ledger.fetchTaskId] at hi
        rcases eq_or_ne i s.nextTaskId with rfl | hne
        · rw [Function.update_self] at hi
          have horigin := hsound.named.origin_of_task j x.1 x.2 hj
          rw [← Option.some.inj hi, hsound.named.of_fetch t job state ht] at horigin
          simp at horigin
        · rw [Function.update_of_ne hne] at hi
          exact hi
  | insertPending t job state taskId _ =>
      rcases passed_goTo h with hold | hnew
      · exact Or.inl hold
      · simp [SubmitPc.passed] at hnew
  | refuse t job state taskId _ _ =>
      rcases passed_goTo h with hold | hnew
      · exact Or.inl hold
      · simp [SubmitPc.passed] at hnew
  | chooseWorker t job state taskId ht hstop =>
      rcases passed_goTo h with hold | hnew
      · exact Or.inl hold
      · obtain rfl := Option.some.inj hnew
        exact Or.inr ⟨hstop, hsound.placed.of_inserted t taskId
          (by simp [State.routing, ht, SubmitPc.inserted])⟩
  | lockWriteMutex t job state taskId w l ht _ =>
      rcases passed_goTo h with hold | hnew
      · exact Or.inl hold
      · exact Or.inl (Or.inl ⟨t, by rw [ht]; exact hnew⟩)
  | writeFails t job state taskId w l _ _ =>
      rcases passed_goTo h with hold | hnew
      · exact Or.inl hold
      · simp [SubmitPc.passed] at hnew
  | returnFuture t job state taskId w l ht _ =>
      rcases h with ⟨u, hu⟩ | ⟨x, hx, hi⟩
      · rcases passed_goTo (s := s) (Or.inl ⟨u, hu⟩) with hold | hnew
        · exact Or.inl hold
        · simp [SubmitPc.passed] at hnew
      · rcases List.mem_append.1 hx with hold | hnew
        · exact Or.inl (Or.inr ⟨x, hold, hi⟩)
        · rw [List.mem_singleton.1 hnew] at hi
          have htask := hsound.named.of_thread t job state taskId
            (by simp [State.routing, ht, SubmitPc.task?])
          obtain rfl := hsound.named.task_inj hi htask
          exact Or.inl (Or.inl ⟨t, by rw [ht]; rfl⟩)
  | _ => exact Or.inl h

theorem place_of_effect {s s' : State P n θ} {a : Action P n θ} (hsound : s.Sound)
    (hwrap : a.noWrap s = true) (he : Effect s a s') {i : ℕ} (h : s.place i ≠ .absent) :
    s'.place i ≠ .absent ∧ (s.place i ≠ .pending → s'.place i ≠ .pending) := by
  rcases State.routing_step hsound.framed hsound.idle hwrap he with hsame | hmove
  · have hplace : s'.place = s.place := congrArg (fun R => R.place) hsame
    rw [hplace]
    exact ⟨h, id⟩
  · exact ⟨hmove.place_ne_absent h, hmove.place_stable hsound.placed h⟩

/-- The reader of a worker has been joined: it had been joined before, or it has ended. -/
theorem joined_of_effect {s s' : State P n θ} {a : Action P n θ} (he : Effect s a s') {w : Fin n}
    (h : s'.shutdown.joined w) : s.shutdown.joined w ∨ (s.link w).reader = .ended := by
  cases he with
  | shutdown _ => simp [ShutdownPc.joined] at h
  | lockStop v rest l hpc _ => simp [ShutdownPc.joined] at h
  | stopFails v rest l hpc _ => simp [ShutdownPc.joined] at h
  | unlockStop v rest l hpc _ => simp [ShutdownPc.joined] at h
  | join v rest hpc hended =>
      rcases eq_or_ne w v with rfl | hne
      · exact Or.inr hended
      · refine Or.inl ?_
        rw [hpc]
        exact List.not_mem_cons_of_ne_of_not_mem hne h
  | closeRequestFd v rest l hpc _ => exact Or.inl (by rw [hpc]; trivial)
  | closeResponseFd v rest l hpc _ => exact Or.inl (by rw [hpc]; trivial)
  | waitpid v rest hpc _ => exact Or.inl (by rw [hpc]; trivial)
  | nextLoop pc hpc =>
      rcases ShutdownPc.afterLoop_cases hpc with ⟨hs, rfl⟩ | ⟨hs, rfl⟩ | ⟨hs, rfl⟩ | ⟨hs, rfl⟩
      · exact absurd (List.mem_finRange w) h
      · exact Or.inl (by rw [hs]; exact List.not_mem_nil)
      · exact Or.inl (by rw [hs]; trivial)
      · exact Or.inl (by rw [hs]; trivial)
  | swapPending hpc => exact Or.inl (by rw [hpc]; trivial)
  | failPending taskId p temp hpc _ => exact Or.inl (by rw [hpc]; trivial)
  | _ => exact Or.inl h

/-- The map has been swapped: it had been swapped before, or it is swapped in this step. -/
theorem swapped_of_effect {s s' : State P n θ} {a : Action P n θ} (he : Effect s a s')
    (h : s'.shutdown.swapped = true) : s.shutdown.swapped = true ∨ s'.place = s.drain.place := by
  cases he with
  | shutdown _ => simp [ShutdownPc.swapped] at h
  | lockStop w rest l _ _ => simp [ShutdownPc.swapped] at h
  | stopFails w rest l _ _ => simp [ShutdownPc.swapped] at h
  | unlockStop w rest l _ _ => simp [ShutdownPc.swapped] at h
  | join w rest _ _ => simp [ShutdownPc.swapped] at h
  | closeRequestFd w rest l _ _ => simp [ShutdownPc.swapped] at h
  | closeResponseFd w rest l _ _ => simp [ShutdownPc.swapped] at h
  | waitpid w rest _ _ => simp [ShutdownPc.swapped] at h
  | nextLoop pc hpc =>
      rcases ShutdownPc.afterLoop_cases hpc with ⟨hs, rfl⟩ | ⟨hs, rfl⟩ | ⟨hs, rfl⟩ | ⟨hs, rfl⟩
      · simp [ShutdownPc.swapped] at h
      · simp [ShutdownPc.swapped] at h
      · simp [ShutdownPc.swapped] at h
      · exact Or.inl (by rw [hs]; rfl)
  | swapPending _ => exact Or.inr rfl
  | failPending taskId p temp hpc _ => exact Or.inl (by rw [hpc]; rfl)
  | _ => exact Or.inl h

omit [DecidableEq θ] [NeZero n] in
theorem stopping_of_swapped {s : State P n θ} (hsound : s.Sound) (h : s.shutdown.swapped = true) :
    s.stopping ≠ false := by
  intro hstop
  rw [hsound.idle hstop] at h
  simp [ShutdownPc.swapped] at h

/-- **Every step keeps what `Shutdown` has done.** -/
theorem State.Drained.step {s s' : State P n θ} {a : Action P n θ} (h : s.Drained)
    (hsound : s.Sound) (hwrap : a.noWrap s = true) (he : Effect s a s') : s'.Drained := by
  have hinserted : ∀ i, s'.Passed i → s.place i ≠ .absent := by
    intro i hi
    rcases passed_of_effect hsound hwrap he hi with hold | ⟨-, hplace⟩
    · exact h.inserted i hold
    · exact hplace
  refine ⟨?_, ?_, ?_⟩
  · intro i hi
    exact (place_of_effect hsound hwrap he (hinserted i hi)).1
  · intro w hw
    have hended : (s.link w).reader = .ended := by
      rcases joined_of_effect he hw with hold | hnew
      · exact h.joined w hold
      · exact hnew
    rcases he.link w with hsame | ⟨b, -, hl⟩
    · rw [hsame]
      exact hended
    · exact ended_of_effect hended hl
  · intro hswapped i hi
    rcases swapped_of_effect he hswapped with hold | hdrain
    · -- The call has passed its check before, as `stopping_` is set.
      rcases passed_of_effect hsound hwrap he hi with hpassed | ⟨hstop, -⟩
      · exact (place_of_effect hsound hwrap he (hinserted i hi)).2 (h.swapped hold i hpassed)
      · exact absurd hstop (stopping_of_swapped hsound hold)
    · rw [hdrain]
      simp only [Ledger.drain]
      split_ifs with hpending
      · simp
      · exact hpending

omit [DecidableEq θ] [NeZero n] in
theorem drained_initial : (State.initial : State P n θ).Drained := by
  refine ⟨?_, by simp [State.initial, ShutdownPc.joined], by simp [State.initial, ShutdownPc.swapped]⟩
  rintro i (⟨t, ht⟩ | ⟨x, hx, -⟩)
  · simp [State.initial, Ledger.initial, SubmitPc.passed] at ht
  · simp [State.initial, Ledger.initial] at hx

/-- **The invariant of `Shutdown`.** -/
theorem drained_of_reachable {s : State P n θ} (h : (pool P n θ).Reachable s) : s.Drained := by
  refine Automaton.Reachable.invariant ?_ ?_ h
  · intro s hs
    rw [show s = State.initial from hs]
    exact drained_initial
  · intro s a s' hr hdrained hs
    obtain ⟨hwrap, hs⟩ := Automaton.restrict_step_eq_some.1 hs
    exact hdrained.step (sound_of_reachable hr) hwrap (effect_of_step hs)

/-! ### When Shutdown has returned -/

/-- When `Shutdown` has returned, it stays so. -/
theorem returned_of_effect {s s' : State P n θ} {a : Action P n θ} (hsound : s.Sound)
    (h : s.shutdown = .returned) (he : Effect s a s') : s'.shutdown = .returned := by
  have hstop := stopping_of_swapped hsound (by rw [h]; rfl)
  cases he with
  | shutdown hfalse => exact absurd hfalse hstop
  | lockStop w rest l hpc _ => simp [h] at hpc
  | stopFails w rest l hpc _ => simp [h] at hpc
  | unlockStop w rest l hpc _ => simp [h] at hpc
  | join w rest hpc _ => simp [h] at hpc
  | closeRequestFd w rest l hpc _ => simp [h] at hpc
  | closeResponseFd w rest l hpc _ => simp [h] at hpc
  | waitpid w rest hpc _ => simp [h] at hpc
  | nextLoop pc hpc => simp [h, ShutdownPc.afterLoop] at hpc
  | swapPending hpc => simp [h] at hpc
  | failPending taskId p temp hpc _ => simp [h] at hpc
  | _ => exact h

/-- When `Shutdown` has returned, the handler of a call that has passed its check has been called. -/
theorem called_of_returned {s : State P n θ} (h : (pool P n θ).Reachable s)
    (hdone : s.shutdown = .returned) {i : ℕ} (hi : s.Passed i) :
    s.place i = .completed ∨ s.place i = .failed := by
  have hsound := sound_of_reachable h
  have hdrained := drained_of_reachable h
  cases hplace : s.place i with
  | absent => exact absurd hplace (hdrained.inserted i hi)
  | pending => exact absurd hplace (hdrained.swapped (by rw [hdone]; rfl) i hi)
  | reader w =>
      obtain ⟨handler, hhandler, -⟩ := hsound.placed.of_reader i w hplace
      have hended := hdrained.joined w (by rw [hdone]; trivial)
      simp [State.routing, Link.handler, hended] at hhandler
  | draining =>
      obtain ⟨p, hp⟩ := hsound.placed.of_draining i hplace
      simp [State.routing, hdone, ShutdownPc.draining] at hp
  | completed => exact Or.inl rfl
  | failed => exact Or.inr rfl

/-- The `Future` holds the response of an execution of the task. -/
def State.Answered (s : State P n θ) (job : Job P) (state : ℕ) : Prop :=
  ∃ i, s.origin state = .named i job ∧ ∃ e ∈ s.executed, ∃ r, e.taskId = i ∧ e.Runs job ∧
    e.response = some r ∧ s.states state = SharedState.completed job r.status.code r.payload

/-- A `Future` whose handler has been called by a reader holds the response of its task. -/
theorem answered_of_completed {s : State P n θ} (h : (pool P n θ).Reachable s) {i : ℕ}
    {x : Job P × ℕ} (hi : s.task i = some x) (hplace : s.place i = .completed) :
    (s.states x.2).ready = true ∧ s.Answered x.1 x.2 := by
  have hsound := sound_of_reachable h
  obtain ⟨c, hc, rfl⟩ := hsound.settled.of_completed i hplace
  obtain ⟨job, horigin, hstate, e, he, r, hid, hruns, hresponse, hstatus, hpayload⟩ :=
    (routed_of_reachable h).completed_own c hc
  have htask := hsound.named.task_of_origin _ _ _ horigin
  obtain rfl := Option.some.inj (hi.symm.trans htask)
  refine ⟨by rw [hstate]; exact SharedState.ready_complete _ _ _ _, ?_⟩
  rw [← hstatus, ← hpayload] at hstate
  exact ⟨c.taskId, horigin, e, he, r, hid, hruns, hresponse, hstate⟩

/-- When `Shutdown` has returned, the `Future`s that `Submit` has returned are ready. -/
theorem ready_of_shutdown {s : State P n θ} (h : (pool P n θ).Reachable s)
    (hdone : s.shutdown = .returned) {x : Job P × ℕ} (hx : x ∈ s.returned) :
    (s.states x.2).ready = true := by
  have hsound := sound_of_reachable h
  obtain ⟨i, hi⟩ := hsound.named.of_returned x hx
  rcases called_of_returned h hdone (Or.inr ⟨x, hx, hi⟩) with hplace | hplace
  · exact (answered_of_completed h hi hplace).1
  · have hstate : s.states x.2 = SharedState.shutDown := hsound.settled.failed_state i x.1 x.2 hi hplace
    rw [hstate]
    rfl

/-- **No `Future` is left hanging by `Shutdown`**: when it has returned, every `Future` that a call of
`Submit` has returned, or returns later, is ready, and holds the response of its task, or the error of
`Shutdown`. -/
theorem no_future_left_hanging {s s' : State P n θ} (h : (pool P n θ).Reachable s)
    (hdone : s.shutdown = .returned) (hs : (pool P n θ).Steps s s') :
    ∀ x ∈ s'.returned, (s'.states x.2).ready = true ∧
      (s'.Answered x.1 x.2 ∨ s'.states x.2 = SharedState.shutDown) := by
  have hr := h.steps hs
  have hdone' : s'.shutdown = .returned := by
    refine Automaton.Steps.stable (P := fun u => u.shutdown = .returned) ?_ h hs hdone
    intro u a u' hu hpc hstep
    obtain ⟨-, hstep⟩ := Automaton.restrict_step_eq_some.1 hstep
    exact returned_of_effect (sound_of_reachable hu) hpc (effect_of_step hstep)
  have hsound := sound_of_reachable hr
  intro x hx
  obtain ⟨i, hi⟩ := hsound.named.of_returned x hx
  rcases called_of_returned hr hdone' (Or.inr ⟨x, hx, hi⟩) with hplace | hplace
  · obtain ⟨hready, hanswered⟩ := answered_of_completed hr hi hplace
    exact ⟨hready, Or.inl hanswered⟩
  · have hstate : s'.states x.2 = SharedState.shutDown :=
      hsound.settled.failed_state i x.1 x.2 hi hplace
    refine ⟨?_, Or.inr hstate⟩
    rw [hstate]
    rfl

end Reachable

/-- The steps of `Shutdown` that send the stop request to a worker. -/
def stopSteps (w : Fin n) : List (Action P n θ) :=
  [.lockStop, .link w (.write .shutdown 32), .unlockStop]

/-- The steps of a worker that takes the stop request, and the end of its reader. -/
def leaveSteps (w : Fin n) : List (Action P n θ) :=
  [.link w (.readRequest 32), .link w .leave, .link w .leave, .link w .leave, .link w .responseEof]

/-- The steps of `Shutdown` from the join of two readers to the swap of the map. -/
def joinSteps : List (Action P n θ) :=
  [.join, .join, .nextLoop, .closeRequestFd, .closeResponseFd, .waitpid, .closeRequestFd,
    .closeResponseFd, .waitpid, .nextLoop, .swapPending]

/-- A call of `Submit` passes its check before `Shutdown` begins, and writes its request after the stop
request. -/
def lateRequest (v w : Fin n) : List (Action byteProgram n Bool) :=
  submitSteps false (byteJob 1 5) ++ [Action.shutdown] ++ stopSteps v ++ stopSteps w ++
    [Action.nextLoop] ++ writeSteps false v ++ leaveSteps v ++ leaveSteps w ++ joinSteps ++
    [Action.failPending 1, .nextLoop]

theorem no_future_left_hanging_late_request :
    ∃ s : State byteProgram 2 Bool, (pool byteProgram 2 Bool).Reachable s ∧
      s.shutdown = .returned ∧ s.states 0 = SharedState.shutDown ∧
      ∀ x ∈ s.returned, (s.states x.2).ready = true ∧
        (s.Answered x.1 x.2 ∨ s.states x.2 = SharedState.shutDown) := by
  obtain ⟨s, hs⟩ : ∃ s, (pool byteProgram 2 Bool).run State.initial (lateRequest 0 1) =
      some s :=
    ⟨_, rfl⟩
  have hr : (pool byteProgram 2 Bool).Reachable s := Automaton.Reachable.of_run rfl hs
  have hdone : s.shutdown = .returned ∧ s.states 0 = SharedState.shutDown := by
    obtain rfl := Option.some_inj.1 hs
    exact ⟨rfl, rfl⟩
  exact ⟨s, hr, hdone.1, hdone.2, no_future_left_hanging hr hdone.1 Automaton.Steps.refl⟩

/-- When ids wrap, a `Future` can be left hanging: its handler is replaced by that of a later call with
the same id, which is answered. -/
theorem future_left_hanging_reused_id :
    ∃ s : State byteProgram 1 Bool, (system byteProgram 1 Bool).Reachable s ∧
      s.shutdown = .returned ∧ ∃ x ∈ s.returned, (s.states x.2).ready = false := by
  obtain ⟨s, hr, hdone, hreturned, hready, -⟩ := reused_id_hangs
  exact ⟨s, hr.of_restrict, hdone, _, hreturned, hready⟩

end ProcessPool
