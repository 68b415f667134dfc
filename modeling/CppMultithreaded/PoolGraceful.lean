/-
**Shutdown is graceful.**

As long as no worker dies, what has been written to a worker before its stop request is executed, and
when `Shutdown` returns, its `Future` has been completed by the response: the worker answers every
request before it takes the stop request, the reader gets every response before it sees the end of the
stream, and `Shutdown` joins the readers before it fails what is left in the map.

Main definitions:

* `ProcessPool.gracefulPool` — the pool whose workers do not die;
* `ProcessPool.Routing.Waiting`, `ProcessPool.Routing.Seen` — the handler of a task waits in the map
  until the response is seen, and is taken by the reader then;
* `ProcessPool.State.StopOnce` — at most one stop request for a worker is begun;
* `ProcessPool.State.Graceful` — the invariants together.

Main results:

* `ProcessPool.graceful_of_reachable` — the invariants hold in every reachable state;
* `ProcessPool.shutdown_graceful` — **what was written before the stop request has been executed and
  answered when `Shutdown` has returned**.
-/

import CppMultithreaded.PoolOrder
import CppMultithreaded.PoolShutdown

set_option relaxedAutoImplicit false
set_option autoImplicit false

namespace ProcessPool

variable {τ θ : Type*} {P : Program τ} {n : ℕ}

/-! ### Handlers wait for their responses -/

/-- The id of a call of `Submit` whose handler waits, and whose request has not begun. -/
def SubmitPc.waits : SubmitPc P n → Option ℕ
  | .chooseWorker _ _ taskId => some taskId
  | .lockWriteMutex _ _ taskId _ => some taskId
  | _ => none

theorem SubmitPc.holds_of_waits {pc : SubmitPc P n} {i : ℕ} (h : pc.waits = some i) :
    pc.holds = some i := by
  cases pc <;> first | exact h | simp [waits] at h

/-- Until the map is swapped, the handler of a task is in it as long as the response has not been
seen. -/
structure Routing.Waiting (R : Routing P n θ) : Prop where
  of_thread : ∀ t i, (R.thread t).waits = some i → R.place i = .pending
  of_sent : ∀ i w, R.stage i = .sent w → R.place i = .pending
  of_answered : ∀ i w, R.stage i = .answered w → R.place i = .pending

/-- The handler of a task whose response has been seen is with the reader, or has been called. -/
def Routing.Seen (R : Routing P n θ) : Prop :=
  ∀ i, R.stage i = .closed → (∃ w, R.place i = .reader w) ∨ R.place i = .completed

section Level

variable [DecidableEq θ] {R R' : Routing P n θ}

namespace Routing.Waiting

/-- A thread moves on. -/
theorem move (h : R.Waiting) (t : θ) (pc : SubmitPc P n)
    (hpc : pc.waits = none ∨ pc.waits = (R.thread t).waits) :
    ∀ u i, (Function.update R.thread t pc u).waits = some i → R.place i = .pending := by
  intro u i hu
  rcases eq_or_ne u t with rfl | hne
  · rw [Function.update_self] at hu
    rcases hpc with hnone | hsame
    · rw [hnone] at hu
      simp at hu
    · rw [hsame] at hu
      exact h.of_thread u i hu
  · rw [Function.update_of_ne hne] at hu
    exact h.of_thread u i hu

theorem insertPending (h : R.Waiting) (t : θ) (job : Job P) (state taskId : ℕ) :
    Waiting { R with toLedger := R.insertPending t job state taskId } := by
  have hkeep : ∀ {i : ℕ}, R.place i = .pending →
      Function.update R.place taskId .pending i = .pending := by
    intro i hi
    rcases eq_or_ne i taskId with rfl | hne
    · exact Function.update_self _ _ _
    · rw [Function.update_of_ne hne]
      exact hi
  refine ⟨?_, fun i w hi => hkeep (h.of_sent i w hi), fun i w hi => hkeep (h.of_answered i w hi)⟩
  intro u i hu
  simp only [Ledger.insertPending] at hu ⊢
  rcases eq_or_ne u t with rfl | hne
  · rw [Function.update_self] at hu
    obtain rfl := Option.some.inj hu
    exact Function.update_self _ _ _
  · rw [Function.update_of_ne hne] at hu
    exact hkeep (h.of_thread u i hu)

omit [DecidableEq θ] in
theorem lookup (h : R.Waiting) (hsent : R.Sent) {w : Fin n} {r : Response} {rest : List Response}
    {handler : Fin n → Option Handler} (hresponses : R.responses w = r :: rest) :
    Waiting { R with
      toLedger := R.lookup w r.taskId
      responses := Function.update R.responses w rest
      handler := handler } := by
  have hanswered := hsent.of_responses w r (by rw [hresponses]; exact List.mem_cons_self)
  have hkeep : ∀ {i : ℕ}, i ≠ r.taskId → R.place i = .pending →
      (R.lookup w r.taskId).place i = .pending := by
    intro i hne hi
    simp only [Ledger.lookup]
    split_ifs
    · rw [Function.update_of_ne hne]
      exact hi
    · exact hi
  refine ⟨?_, ?_, ?_⟩
  · intro u i hu
    have hheld := hsent.of_thread u i (SubmitPc.holds_of_waits hu)
    refine hkeep ?_ (h.of_thread u i hu)
    rintro rfl
    rw [hanswered] at hheld
    simp at hheld
  · intro i v hi
    obtain ⟨hold, hne⟩ := of_update_apply_ne hi (by simp)
    exact hkeep hne (h.of_sent i v hold)
  · intro i v hi
    obtain ⟨hold, hne⟩ := of_update_apply_ne hi (by simp)
    exact hkeep hne (h.of_answered i v hold)

/-- **Every step but the swap of the map keeps the handlers waiting.** -/
theorem step (h : R.Waiting) (hsent : R.Sent) (hp : R.Placed) (hs : R.Step R')
    (hopen : R'.swapped = false) : R'.Waiting := by
  cases hs with
  | makeState t job _ => exact ⟨h.move t _ (Or.inl rfl), h.of_sent, h.of_answered⟩
  | fetchTaskId t job state _ _ =>
      refine ⟨h.move t _ (Or.inl rfl), ?_, ?_⟩
      · intro i w hi
        exact h.of_sent i w (of_update_apply_ne hi (by simp)).1
      · intro i w hi
        exact h.of_answered i w (of_update_apply_ne hi (by simp)).1
  | insertPending t job state taskId _ => exact h.insertPending t job state taskId
  | chooseWorker t job state taskId w ht =>
      exact ⟨h.move t _ (Or.inr (by rw [ht]; rfl)), h.of_sent, h.of_answered⟩
  | refuse t => exact ⟨h.move t _ (Or.inl rfl), h.of_sent, h.of_answered⟩
  | send t job state taskId w ht =>
      refine ⟨h.move t _ (Or.inl rfl), ?_, ?_⟩
      · intro i v hi
        simp only [Ledger.send] at hi
        rcases eq_or_ne i taskId with rfl | hne
        · exact h.of_thread t i (by rw [ht]; rfl)
        · rw [Function.update_of_ne hne] at hi
          exact h.of_sent i v hi
      · intro i v hi
        exact h.of_answered i v (of_update_apply_ne hi (by simp)).1
  | returnFuture t job state taskId w _ =>
      exact ⟨h.move t _ (Or.inl rfl), h.of_sent, h.of_answered⟩
  | execute w taskId job rest outcome hruns _ =>
      refine ⟨h.of_thread, ?_, ?_⟩
      · intro i v hi
        exact h.of_sent i v (of_update_apply_ne hi (by simp [Execution.ofTask])).1
      · intro i v hi
        simp only [Ledger.record, Execution.ofTask] at hi
        rcases eq_or_ne i taskId with rfl | hne
        · exact h.of_sent i w (hsent.of_runs w i job (by rw [hruns]; exact List.mem_cons_self)).1
        · rw [Function.update_of_ne hne] at hi
          exact h.of_answered i v hi
  | crash w taskId job rest _ =>
      refine ⟨h.of_thread, ?_, ?_⟩
      · intro i v hi
        exact h.of_sent i v (of_update_apply_ne hi (by simp [Execution.crashed])).1
      · intro i v hi
        exact h.of_answered i v (of_update_apply_ne hi (by simp [Execution.crashed])).1
  | lookup w r rest hresponses _ => exact h.lookup hsent hresponses
  | complete w handler hw =>
      have hkeep : ∀ {i : ℕ}, R.place i = .pending →
          Function.update R.place handler.taskId .completed i = .pending := by
        intro i hi
        exact update_of_apply_ne hi (hp.handler w handler hw).1 (by simp)
      exact ⟨fun u i hu => hkeep (h.of_thread u i hu), fun i v hi => hkeep (h.of_sent i v hi),
        fun i v hi => hkeep (h.of_answered i v hi)⟩
  | drain _ => simp at hopen
  | fail taskId p _ hswapped =>
      have hopen' : R.swapped = false := hopen
      rw [hswapped] at hopen'
      simp at hopen'

end Routing.Waiting

/-- **A response that is seen finds its handler.** -/
theorem Routing.Seen.step (h : R.Seen) (hp : R.Placed) (hs : R.Step R')
    (hresponded : ∀ e ∈ R'.executed, e.response.isSome = true)
    (hwaiting : ∀ w, ∀ r ∈ R.responses w, R.place r.taskId = .pending) : R'.Seen := by
  cases hs with
  | fetchTaskId t job state _ _ =>
      intro i hi
      exact h i (of_update_apply_ne hi (by simp)).1
  | insertPending t job state taskId ht =>
      have habsent := hp.of_insert t job state taskId ht
      intro i hi
      rcases h i hi with ⟨w, hplace⟩ | hplace
      · exact Or.inl ⟨w, update_of_apply_ne hplace habsent (by simp)⟩
      · exact Or.inr (update_of_apply_ne hplace habsent (by simp))
  | send t job state taskId w _ =>
      intro i hi
      exact h i (of_update_apply_ne hi (by simp)).1
  | execute w taskId job rest outcome _ _ =>
      intro i hi
      exact h i (of_update_apply_ne hi (by simp [Execution.ofTask])).1
  | crash w taskId job rest _ =>
      have hcrash := hresponded (Execution.crashed w taskId job)
        (List.mem_append_right _ (List.mem_singleton_self _))
      simp [Execution.crashed] at hcrash
  | lookup w r rest hresponses _ =>
      intro i hi
      simp only [Ledger.lookup]
      rcases eq_or_ne i r.taskId with rfl | hne
      · have hpending := hwaiting w r (by rw [hresponses]; exact List.mem_cons_self)
        obtain ⟨p, hfound⟩ := hp.of_pending _ hpending
        rw [hfound, Option.isSome_some, if_pos rfl, Function.update_self]
        exact Or.inl ⟨w, rfl⟩
      · simp only [Ledger.lookup, Function.update_of_ne hne] at hi
        split_ifs
        · rw [Function.update_of_ne hne]
          exact h i hi
        · exact h i hi
  | complete w handler _ =>
      intro i hi
      simp only [Ledger.complete]
      rcases eq_or_ne i handler.taskId with rfl | hne
      · exact Or.inr (Function.update_self _ _ _)
      · rw [Function.update_of_ne hne]
        exact h i hi
  | drain _ =>
      intro i hi
      simp only [Ledger.drain]
      rcases h i hi with ⟨w, hplace⟩ | hplace
      · exact Or.inl ⟨w, by rw [hplace, if_neg (by simp)]⟩
      · exact Or.inr (by rw [hplace, if_neg (by simp)])
  | fail taskId p hlookup _ =>
      have hdraining := (hp.draining taskId p hlookup).1
      intro i hi
      rcases h i hi with ⟨w, hplace⟩ | hplace
      · exact Or.inl ⟨w, update_of_apply_ne hplace hdraining (by simp)⟩
      · exact Or.inr (update_of_apply_ne hplace hdraining (by simp))
  | _ => exact h

end Level

/-! ### At most one stop request -/

/-- The workers for which no stop request has begun. -/
def ShutdownPc.stopsLeft : ShutdownPc n → List (Fin n)
  | .notStarted => List.finRange n
  | .sendStop rest => rest
  | .writeStop _ rest => rest
  | _ => []

/-- The number of stop requests that have begun. -/
def Link.stops (l : Link P θ) : ℕ := l.begun.countP Frame.isStop

/-- **At most one stop request for a worker is begun.** -/
structure State.StopOnce (s : State P n θ) : Prop where
  nodup : s.shutdown.stopsLeft.Nodup
  none_left : ∀ w ∈ s.shutdown.stopsLeft, (s.link w).stops = 0
  once : ∀ w, (s.link w).stops ≤ 1

/-- A step of a link begins at most the stop requests that it locks the mutex for. -/
theorem stops_of_effect {l l' : Link P θ} {a : LinkAction P θ} (he : LinkEffect l a l') :
    l'.stops = l.stops + a.begins.countP Frame.isStop := by
  rw [Link.stops, Link.begun_of_effect he, List.countP_append]
  rfl

section Reachable

variable [DecidableEq θ] [NeZero n]

/-- What a step changes about the stop requests: `Shutdown` begins one for the first of the workers
that are left, or none is begun. -/
theorem stops_of_step {s s' : State P n θ} {a : Action P n θ} (he : Effect s a s') :
    (∃ w rest, s.shutdown = .sendStop (w :: rest) ∧ s'.shutdown = .writeStop w rest ∧
      (s'.link w).stops = (s.link w).stops + 1 ∧ ∀ v, v ≠ w → s'.link v = s.link v) ∨
      ∀ v, (s'.link v).stops = (s.link v).stops := by
  have hset : ∀ {w : Fin n} {b : LinkAction P θ} {l : Link P θ}, LinkEffect (s.link w) b l →
      b.begins.countP Frame.isStop = 0 →
      ∀ v, (Function.update s.link w l v).stops = (s.link v).stops := by
    intro w b l hl hb v
    refine apply_update_eq Link.stops ?_ v
    rw [stops_of_effect hl, hb, Nat.add_zero]
  cases he with
  | lockWriteMutex t job state taskId w l _ hl => exact Or.inr (hset hl rfl)
  | writeFails t job state taskId w l _ hl => exact Or.inr (hset hl rfl)
  | returnFuture t job state taskId w l _ hl => exact Or.inr (hset hl rfl)
  | internal w a l ha hl =>
      refine Or.inr (hset hl ?_)
      cases a <;> first | rfl | simp [LinkAction.internal] at ha
  | execute w outcome t header payload l _ _ hl => exact Or.inr (hset hl rfl)
  | kill w outcome header payload l _ _ hl => exact Or.inr (hset hl rfl)
  | crash w t header payload l _ _ hl => exact Or.inr (hset hl rfl)
  | lookup w header payload l _ hl => exact Or.inr (hset hl rfl)
  | complete w handler l _ hl => exact Or.inr (hset hl rfl)
  | lockStop w rest l hpc hl =>
      refine Or.inl ⟨w, rest, hpc, rfl, ?_, ?_⟩
      · simp only [State.setLink, Function.update_self]
        rw [stops_of_effect hl]
        rfl
      · intro v hne
        simp only [State.setLink, Function.update_of_ne hne]
  | stopFails w rest l _ hl => exact Or.inr (hset hl rfl)
  | unlockStop w rest l _ hl => exact Or.inr (hset hl rfl)
  | closeRequestFd w rest l _ hl => exact Or.inr (hset hl rfl)
  | closeResponseFd w rest l _ hl => exact Or.inr (hset hl rfl)
  | _ => exact Or.inr fun _ => rfl

/-- The workers that are left for a stop request are some of those that were left. -/
theorem stopsLeft_of_effect {s s' : State P n θ} {a : Action P n θ} (hsound : s.Sound)
    (he : Effect s a s') : List.Sublist s'.shutdown.stopsLeft s.shutdown.stopsLeft := by
  cases he with
  | shutdown hstop =>
      rw [hsound.idle hstop]
      exact List.Sublist.refl _
  | lockStop w rest l hpc _ =>
      rw [hpc]
      exact List.sublist_cons_self w rest
  | stopFails w rest l hpc _ =>
      rw [hpc]
      exact List.Sublist.refl _
  | unlockStop w rest l hpc _ =>
      rw [hpc]
      exact List.Sublist.refl _
  | nextLoop pc hpc =>
      rcases ShutdownPc.afterLoop_cases hpc with ⟨hs, rfl⟩ | ⟨hs, rfl⟩ | ⟨hs, rfl⟩ | ⟨hs, rfl⟩
      all_goals exact List.nil_sublist _
  | join w rest _ _ => exact List.nil_sublist _
  | closeRequestFd w rest l _ _ => exact List.nil_sublist _
  | closeResponseFd w rest l _ _ => exact List.nil_sublist _
  | waitpid w rest _ _ => exact List.nil_sublist _
  | swapPending _ => exact List.nil_sublist _
  | failPending taskId p temp _ _ => exact List.nil_sublist _
  | _ => exact List.Sublist.refl _

theorem State.StopOnce.step {s s' : State P n θ} {a : Action P n θ} (h : s.StopOnce)
    (hsound : s.Sound) (he : Effect s a s') : s'.StopOnce := by
  have hleft := stopsLeft_of_effect hsound he
  rcases stops_of_step he with ⟨w, rest, hpc, hpc', hstops, hother⟩ | hsame
  · have hnodup := h.nodup
    have hzero := h.none_left w (by rw [hpc]; exact List.mem_cons_self)
    rw [hpc] at hnodup
    obtain ⟨hnotin, -⟩ := List.nodup_cons.1 hnodup
    refine ⟨h.nodup.sublist hleft, ?_, ?_⟩
    · intro v hv
      rw [hpc'] at hv
      have hne : v ≠ w := by
        rintro rfl
        exact hnotin hv
      rw [hother v hne]
      exact h.none_left v (by rw [hpc]; exact List.mem_cons_of_mem _ hv)
    · intro v
      rcases eq_or_ne v w with rfl | hne
      · omega
      · rw [hother v hne]
        exact h.once v
  · refine ⟨h.nodup.sublist hleft, ?_, ?_⟩
    · intro v hv
      rw [hsame v]
      exact h.none_left v (hleft.subset hv)
    · intro v
      rw [hsame v]
      exact h.once v

/-! ### The invariants -/

/-- The pool whose workers do not die, and whose ids do not wrap. -/
def gracefulPool (P : Program τ) (n : ℕ) (θ : Type*) [DecidableEq θ] [NeZero n] :
    Automaton (State P n θ) (Action P n θ) :=
  (pool P n θ).restrict fun _ a => a.noDeath = true

/-- **The invariants of a pool whose workers do not die.** -/
structure State.Graceful (s : State P n θ) : Prop where
  orderly : ∀ w, (s.link w).Orderly
  stopOnce : s.StopOnce
  waiting : s.shutdown.swapped = false → s.routing.Waiting
  seen : s.routing.Seen
  /-- Every call of an executor has a response. -/
  responded : ∀ e ∈ s.executed, e.response.isSome = true
  /-- What the workers have taken they have executed. -/
  taken : ∀ w, ∀ x ∈ (s.link w).takenRuns, ∃ state outcome, s.task x.1 = some (x.2, state) ∧
    Execution.ofTask w x.1 x.2 outcome ∈ s.executed

theorem orderly_of_effect {s s' : State P n θ} {a : Action P n θ} (h : ∀ w, (s.link w).Orderly)
    (hsound : s.Sound) (hdrained : s.Drained) (hdeath : a.noDeath = true) (he : Effect s a s') :
    ∀ w, (s'.link w).Orderly := by
  have hset : ∀ {w : Fin n} {b : LinkAction P θ} {l : Link P θ}, LinkEffect (s.link w) b l →
      b.Orderly (s.link w) → ∀ v, (Function.update s.link w l v).Orderly := by
    intro w b l hl hb v
    rcases eq_or_ne v w with rfl | hne
    · rw [Function.update_self]
      exact (h v).step (hsound.framed v) hb hl
    · rw [Function.update_of_ne hne]
      exact h v
  cases he with
  | lockWriteMutex t job state taskId w l _ hl => exact hset hl trivial
  | writeFails t job state taskId w l _ hl => exact hset hl trivial
  | returnFuture t job state taskId w l _ hl => exact hset hl trivial
  | internal w a l ha hl =>
      refine hset hl ?_
      cases a <;> trivial
  | execute w outcome t header payload l _ _ hl => exact hset hl trivial
  | kill w outcome header payload l _ _ hl => exact hset hl trivial
  | crash w t header payload l _ _ hl => simp [Action.noDeath] at hdeath
  | lookup w header payload l _ hl => exact hset hl trivial
  | complete w handler l _ hl => exact hset hl trivial
  | lockStop w rest l _ hl => exact hset hl trivial
  | stopFails w rest l _ hl => exact hset hl trivial
  | unlockStop w rest l _ hl => exact hset hl trivial
  | closeRequestFd w rest l hpc hl =>
      exact hset hl (hdrained.joined w (by rw [hpc]; trivial))
  | closeResponseFd w rest l hpc hl =>
      exact hset hl (hdrained.joined w (by rw [hpc]; trivial))
  | _ => exact h

/-- The calls of executors are kept, and so are the tasks. -/
theorem executed_of_effect {s s' : State P n θ} {a : Action P n θ} (hsound : s.Sound)
    (he : Effect s a s') : s.executed ⊆ s'.executed ∧
      ∀ i x, s.task i = some x → s'.task i = some x := by
  cases he with
  | fetchTaskId t job state _ =>
      refine ⟨List.Subset.refl _, ?_⟩
      intro i x hi
      have hne : i ≠ s.nextTaskId := (hsound.named.task_lt i x hi).ne
      simp only [Ledger.fetchTaskId, Function.update_of_ne hne]
      exact hi
  | execute w outcome t header payload l _ _ _ =>
      exact ⟨List.subset_append_left _ _, fun _ _ hi => hi⟩
  | crash w t header payload l _ _ _ =>
      exact ⟨List.subset_append_left _ _, fun _ _ hi => hi⟩
  | _ => exact ⟨List.Subset.refl _, fun _ _ hi => hi⟩

theorem responded_of_effect {s s' : State P n θ} {a : Action P n θ}
    (h : ∀ e ∈ s.executed, e.response.isSome = true) (hdeath : a.noDeath = true)
    (he : Effect s a s') : ∀ e ∈ s'.executed, e.response.isSome = true := by
  cases he with
  | execute w outcome t header payload l _ _ _ =>
      intro e hmem
      rcases List.mem_append.1 hmem with hold | hnew
      · exact h e hold
      · rw [List.mem_singleton.1 hnew]
        rfl
  | crash w t header payload l _ _ _ => simp [Action.noDeath] at hdeath
  | _ => exact h

/-- What a worker has taken: it had taken it before, or it takes it in this step, and executes it or
crashes. -/
theorem taken_of_effect {s s' : State P n θ} {a : Action P n θ} (hsound : s.Sound)
    (he : Effect s a s') {w : Fin n} {x : ℕ × Job P} (hx : x ∈ (s'.link w).takenRuns) :
    x ∈ (s.link w).takenRuns ∨ ∃ state, s.task x.1 = some (x.2, state) ∧
      ((∃ outcome, Execution.ofTask w x.1 x.2 outcome ∈ s'.executed) ∨
        Execution.crashed w x.1 x.2 ∈ s'.executed) := by
  have hset : ∀ {v : Fin n} {b : LinkAction P θ} {l : Link P θ}, LinkEffect (s.link v) b l →
      b.executes = false → x ∈ (Function.update s.link v l w).takenRuns →
      x ∈ (s.link w).takenRuns := by
    intro v b l hl hb hmem
    rw [apply_update_eq Link.takenRuns (Link.takenRuns_of_effect (hsound.framed v) hl hb)] at hmem
    exact hmem
  -- a task that is taken is the first request in flight
  have htake : ∀ {v : Fin n} {l : Link P θ} {taskId : ℕ} {job : Job P} {rest : List (Frame P)},
      (s.link v).requests = Frame.run taskId job :: rest →
      l.taken = (s.link v).taken ++ [Frame.run taskId job] →
      x ∈ (Function.update s.link v l w).takenRuns → x ∈ (s.link w).takenRuns ∨
        w = v ∧ x = (taskId, job) ∧ ∃ state, s.task taskId = some (job, state) := by
    intro v l taskId job rest hrequests htaken hmem
    rcases eq_or_ne w v with rfl | hne
    · rw [Function.update_self, Link.takenRuns, htaken, List.filterMap_append] at hmem
      rcases List.mem_append.1 hmem with hold | hnew
      · exact Or.inl hold
      · obtain ⟨-, htask⟩ := hsound.sent.of_runs w taskId job
          (by simp [State.routing, Link.runs, hrequests, Frame.task?])
        exact Or.inr ⟨rfl, List.mem_singleton.1 hnew, htask⟩
    · rw [Function.update_of_ne hne] at hmem
      exact Or.inl hmem
  cases he with
  | lockWriteMutex t job state taskId v l _ hl => exact Or.inl (hset hl rfl hx)
  | writeFails t job state taskId v l _ hl => exact Or.inl (hset hl rfl hx)
  | returnFuture t job state taskId v l _ hl => exact Or.inl (hset hl rfl hx)
  | internal v a l ha hl =>
      refine Or.inl (hset hl ?_ hx)
      cases a <;> first | rfl | simp [LinkAction.internal] at ha
  | execute v outcome t header payload l hw ht hl =>
      obtain ⟨taskId, job, rest, hrequests, -, hrecord, rfl⟩ :=
        execution_of_request (hsound.framed v) hw ht hl v
      rcases htake hrequests (by simp [Link.reply, Link.take, hrequests]) hx with
        hold | ⟨rfl, rfl, state, htask⟩
      · exact Or.inl hold
      · refine Or.inr ⟨state, htask, Or.inl ⟨outcome, ?_⟩⟩
        rw [← hrecord]
        exact List.mem_append_right _ (List.mem_singleton_self _)
  | kill v outcome header payload l hw ht hl =>
      obtain ⟨_, job, _, -, hexecutor, -⟩ := task_of_running (n := n) (hsound.framed v) hw
      rw [hexecutor] at ht
      simp at ht
  | crash v t header payload l hw ht hl =>
      obtain ⟨taskId, job, rest, hrequests, hexecutor, -, hcrashed⟩ :=
        task_of_running (n := n) (hsound.framed v) hw
      obtain rfl := Option.some.inj (ht.symm.trans hexecutor)
      cases hl
      rcases htake hrequests (by simp [Link.take, Link.kill, hrequests]) hx with
        hold | ⟨rfl, rfl, state, htask⟩
      · exact Or.inl hold
      · refine Or.inr ⟨state, htask, Or.inr ?_⟩
        rw [← hcrashed]
        exact List.mem_append_right _ (List.mem_singleton_self _)
  | lookup v header payload l _ hl => exact Or.inl (hset hl rfl hx)
  | complete v handler l _ hl => exact Or.inl (hset hl rfl hx)
  | lockStop v rest l _ hl => exact Or.inl (hset hl rfl hx)
  | stopFails v rest l _ hl => exact Or.inl (hset hl rfl hx)
  | unlockStop v rest l _ hl => exact Or.inl (hset hl rfl hx)
  | closeRequestFd v rest l _ hl => exact Or.inl (hset hl rfl hx)
  | closeResponseFd v rest l _ hl => exact Or.inl (hset hl rfl hx)
  | _ => exact Or.inl hx

/-- When the map has been swapped, it stays so. -/
theorem swapped_mono {s s' : State P n θ} {a : Action P n θ} (hsound : s.Sound)
    (h : s.shutdown.swapped = true) (he : Effect s a s') : s'.shutdown.swapped = true := by
  have hstop := stopping_of_swapped hsound h
  cases he with
  | shutdown hfalse => exact absurd hfalse hstop
  | lockStop w rest l hpc _ => simp [hpc, ShutdownPc.swapped] at h
  | stopFails w rest l hpc _ => simp [hpc, ShutdownPc.swapped] at h
  | unlockStop w rest l hpc _ => simp [hpc, ShutdownPc.swapped] at h
  | join w rest hpc _ => simp [hpc, ShutdownPc.swapped] at h
  | closeRequestFd w rest l hpc _ => simp [hpc, ShutdownPc.swapped] at h
  | closeResponseFd w rest l hpc _ => simp [hpc, ShutdownPc.swapped] at h
  | waitpid w rest hpc _ => simp [hpc, ShutdownPc.swapped] at h
  | nextLoop pc hpc =>
      rcases ShutdownPc.afterLoop_cases hpc with ⟨hs, rfl⟩ | ⟨hs, rfl⟩ | ⟨hs, rfl⟩ | ⟨hs, rfl⟩
      · simp [hs, ShutdownPc.swapped] at h
      · simp [hs, ShutdownPc.swapped] at h
      · simp [hs, ShutdownPc.swapped] at h
      · rfl
  | swapPending _ => rfl
  | failPending taskId p temp _ _ => rfl
  | _ => exact h

omit [DecidableEq θ] [NeZero n] in
/-- Once the map has been swapped, the readers have ended, and no response is in flight. -/
theorem State.Graceful.responses_nil {s : State P n θ} (h : s.Graceful) (hdrained : s.Drained)
    (hswapped : s.shutdown.swapped = true) (w : Fin n) :
    (s.link w).reader = .ended ∧ (s.link w).responses = [] := by
  have hjoined : s.shutdown.joined w := by
    cases hs : s.shutdown <;> simp [hs, ShutdownPc.swapped, ShutdownPc.joined] at hswapped ⊢
  have hended := hdrained.joined w hjoined
  exact ⟨hended, ((h.orderly w).ended hended).2⟩

/-- **Every step in which no worker dies keeps the invariants.** -/
theorem State.Graceful.step {s s' : State P n θ} {a : Action P n θ} (h : s.Graceful)
    (hsound : s.Sound) (hdrained : s.Drained) (hwrap : a.noWrap s = true)
    (hdeath : a.noDeath = true) (he : Effect s a s') : s'.Graceful := by
  have hresponded := responded_of_effect h.responded hdeath he
  have hopen : s'.shutdown.swapped = false → s.shutdown.swapped = false := by
    intro hs'
    by_contra hs
    rw [swapped_mono hsound (by simpa using hs) he] at hs'
    simp at hs'
  have hwaiting : ∀ w, ∀ r ∈ s.routing.responses w, s.routing.place r.taskId = .pending := by
    intro w r hr
    cases hs : s.shutdown.swapped with
    | false => exact (h.waiting hs).of_answered _ w (hsound.sent.of_responses w r hr)
    | true =>
        have hnil : s.routing.responses w = [] := (h.responses_nil hdrained hs w).2
        rw [hnil] at hr
        simp at hr
  refine ⟨orderly_of_effect h.orderly hsound hdrained hdeath he, h.stopOnce.step hsound he, ?_, ?_,
    hresponded, ?_⟩
  · intro hs'
    have hold := h.waiting (hopen hs')
    rcases State.routing_step hsound.framed hsound.idle hwrap he with hsame | hmove
    · rw [hsame]
      exact hold
    · exact hold.step hsound.sent hsound.placed hmove hs'
  · rcases State.routing_step hsound.framed hsound.idle hwrap he with hsame | hmove
    · rw [hsame]
      exact h.seen
    · exact h.seen.step hsound.placed hmove hresponded hwaiting
  · obtain ⟨hsub, htask⟩ := executed_of_effect hsound he
    intro w x hx
    rcases taken_of_effect hsound he hx with hold | ⟨state, hi, ⟨outcome, hmem⟩ | hmem⟩
    · obtain ⟨state, outcome, hi, hmem⟩ := h.taken w x hold
      exact ⟨state, outcome, htask _ _ hi, hsub hmem⟩
    · exact ⟨state, outcome, htask _ _ hi, hmem⟩
    · have hcrash := hresponded _ hmem
      simp [Execution.crashed] at hcrash

omit [DecidableEq θ] [NeZero n] in
theorem graceful_initial : (State.initial : State P n θ).Graceful := by
  refine ⟨fun _ => Link.Orderly.initial, ⟨List.nodup_finRange n, fun _ _ => rfl, fun _ => Nat.zero_le 1⟩,
    fun _ => ?_, ?_, ?_, ?_⟩
  · constructor <;> simp [State.initial, State.routing, Ledger.initial, SubmitPc.waits]
  · intro i hi
    simp [State.initial, State.routing, Ledger.initial] at hi
  · simp [State.initial, Ledger.initial]
  · simp [State.initial, Link.initial, Link.takenRuns]

theorem pool_of_graceful {s : State P n θ} (h : (gracefulPool P n θ).Reachable s) :
    (pool P n θ).Reachable s := h.of_restrict

/-- **The invariants hold in every reachable state.** -/
theorem graceful_of_reachable {s : State P n θ} (h : (gracefulPool P n θ).Reachable s) :
    s.Graceful := by
  refine Automaton.Reachable.invariant ?_ ?_ h
  · intro s hs
    rw [show s = State.initial from hs]
    exact graceful_initial
  · intro s a s' hr hgraceful hs
    obtain ⟨hdeath, hs⟩ := Automaton.restrict_step_eq_some.1 hs
    obtain ⟨hwrap, hs⟩ := Automaton.restrict_step_eq_some.1 hs
    have hpool := pool_of_graceful hr
    exact hgraceful.step (sound_of_reachable hpool) (drained_of_reachable hpool) hwrap hdeath
      (effect_of_step hs)

/-! ### When Shutdown has returned -/

/-- When `Shutdown` has returned, an executed task has been completed by its reader. -/
theorem completed_of_executed {s : State P n θ} (h : (gracefulPool P n θ).Reachable s)
    (hdone : s.shutdown = .returned) {e : Execution n} (he : e ∈ s.executed) :
    s.place e.taskId = .completed := by
  have hgraceful := graceful_of_reachable h
  have hpool := pool_of_graceful h
  have hsound := sound_of_reachable hpool
  have hnil := hgraceful.responses_nil (drained_of_reachable hpool) (by rw [hdone]; rfl)
  have hclosed : s.stage e.taskId = .closed := by
    rcases hsound.sent.of_executed e he with hanswered | hclosed
    · obtain ⟨r, hr, -⟩ := hsound.sent.of_answered _ _ hanswered
      have hempty : s.routing.responses e.worker = [] := (hnil e.worker).2
      rw [hempty] at hr
      simp at hr
    · exact hclosed
  rcases hgraceful.seen e.taskId hclosed with ⟨w, hplace⟩ | hplace
  · obtain ⟨handler, hhandler, -⟩ := hsound.placed.of_reader _ w hplace
    simp [State.routing, Link.handler, (hnil w).1] at hhandler
  · exact hplace

/-- The task has been executed by the worker, and its `Future` has been completed by the response of
this execution, and by nothing else. -/
def State.AnsweredBy (s : State P n θ) (w : Fin n) (i : ℕ) (job : Job P) : Prop :=
  ∃ state, s.origin state = .named i job ∧ ∃ e ∈ s.executed, e.worker = w ∧ e.taskId = i ∧
    e.Runs job ∧ ∃ r, e.response = some r ∧
      (⟨i, state, r.status.code, r.payload⟩ : Completion) ∈ s.completed ∧ i ∉ s.failed ∧
      s.states state = SharedState.completed job r.status.code r.payload

/-- **Shutdown is graceful**: when it has returned, what had been written to a worker before its stop
request has been executed by the worker, and completed by the response. -/
theorem shutdown_graceful {s : State P n θ} (h : (gracefulPool P n θ).Reachable s)
    (hdone : s.shutdown = .returned) {w : Fin n} {before after : List (Frame P)}
    (hw : (s.link w).written = before ++ .stop :: after) {i : ℕ} {job : Job P}
    (hi : Frame.run i job ∈ before) : s.AnsweredBy w i job := by
  have hgraceful := graceful_of_reachable h
  have hpool := pool_of_graceful h
  have hsound := sound_of_reachable hpool
  have hrouted := routed_of_reachable hpool
  obtain ⟨hended, -⟩ :=
    hgraceful.responses_nil (drained_of_reachable hpool) (by rw [hdone]; rfl) w
  have hleft : (s.link w).worker.got = none := by
    by_contra hgot
    exact (hgraceful.orderly w).not_ended (Option.isSome_iff_ne_none.2 hgot) hended
  -- The worker has taken the request, and so it has executed it.
  have htaken : (i, job) ∈ (s.link w).takenRuns := by
    have heq := (hgraceful.orderly w).taken_of_written hleft (hgraceful.stopOnce.once w) hw
    refine List.mem_filterMap.2 ⟨Frame.run i job, ?_, rfl⟩
    rw [heq]
    exact List.mem_append_left _ hi
  obtain ⟨state, outcome, htask, hmem⟩ := hgraceful.taken w (i, job) htaken
  -- The response of this execution is the one that the reader has seen.
  obtain ⟨c, hc, hid⟩ := hsound.settled.of_completed i (completed_of_executed h hdone hmem)
  obtain ⟨job', horigin, hstate, e, he, r, hei, hruns, hresponse, hstatus, hpayload⟩ :=
    hrouted.completed_own c hc
  rw [hid] at horigin hei
  have htask' := hsound.named.task_of_origin i job' c.state horigin
  obtain ⟨rfl, rfl⟩ := Prod.mk.inj (Option.some.inj (htask.symm.trans htask'))
  have heq : e = Execution.ofTask w i job outcome :=
    List.inj_on_of_nodup_map hrouted.executed_once he hmem hei
  refine ⟨c.state, horigin, e, he, ?_, hei, hruns, r, hresponse, ?_, ?_, ?_⟩
  · rw [heq]
    rfl
  · rw [hstatus, hpayload, ← hid]
    exact hc
  · intro hfailed
    have hplace := hsound.settled.failed i hfailed
    have hplace' := completed_of_executed h hdone hmem
    rw [show (Execution.ofTask w i job outcome).taskId = i from rfl] at hplace'
    exact absurd (hplace'.symm.trans hplace) (by simp)
  · rw [hstatus, hpayload]
    exact hstate

end Reachable

/-- A task is written to a worker before `Shutdown`, and another one to the other worker after its stop
request: the first is answered, the second is failed. -/
def gracefulRun (v w : Fin n) : List (Action byteProgram n Bool) :=
  submitSteps false (byteJob 1 5) ++ submitSteps true (byteJob 2 6) ++ writeSteps false v ++
    [Action.shutdown] ++ stopSteps v ++ stopSteps w ++ [Action.nextLoop] ++ writeSteps true w ++
    answerSteps v 25 ++ leaveSteps v ++ leaveSteps w ++ joinSteps ++
    [Action.failPending 2, .nextLoop]

theorem shutdown_graceful_one_answered :
    ∃ s : State byteProgram 2 Bool, (gracefulPool byteProgram 2 Bool).Reachable s ∧
      s.shutdown = .returned ∧ s.states 0 = ⟨true, some [25], none⟩ ∧
      s.states 1 = SharedState.shutDown ∧ s.AnsweredBy 0 1 (byteJob 1 5) := by
  obtain ⟨s, hs⟩ : ∃ s, (gracefulPool byteProgram 2 Bool).run State.initial (gracefulRun 0 1) =
      some s := ⟨_, rfl⟩
  have hr : (gracefulPool byteProgram 2 Bool).Reachable s := Automaton.Reachable.of_run rfl hs
  have hdone : s.shutdown = .returned ∧ s.states 0 = ⟨true, some [25], none⟩ ∧
      s.states 1 = SharedState.shutDown ∧
      (s.link 0).written = [.run 1 (byteJob 1 5)] ++ .stop :: [] := by
    obtain rfl := Option.some_inj.1 hs
    exact ⟨rfl, rfl, rfl, rfl⟩
  obtain ⟨hreturned, hfirst, hsecond, hwritten⟩ := hdone
  exact ⟨s, hr, hreturned, hfirst, hsecond,
    shutdown_graceful hr hreturned hwritten List.mem_cons_self⟩

/-- When ids wrap, a task that was written before the stop request can be left without an answer. -/
theorem unanswered_reused_id :
    ∃ s : State byteProgram 1 Bool, (immortal byteProgram 1 Bool).Reachable s ∧
      s.shutdown = .returned ∧
      (∃ sent, (s.link 0).written = (sent ++ [.run 1 (byteJob 1 5)]) ++ .stop :: []) ∧
      (byteJob 1 5, 0) ∈ s.returned ∧ (s.states 0).ready = false := by
  obtain ⟨s, hr, hdone, hreturned, hready, sent, hwritten⟩ := reused_id_hangs
  refine ⟨s, hr, hdone, ⟨sent, ?_⟩, hreturned, hready⟩
  rw [hwritten, List.append_assoc]
  rfl

end ProcessPool
