/-
**The process pool refines its bookkeeping of tasks.**

Read at the level of messages, a step of the pool is a step of the bookkeeping, or moves bytes only.
So what the bookkeeping keeps, the pool keeps.

Main definitions:

* `ProcessPool.State.routing` — the pool at the level of messages;
* `ProcessPool.State.Sound` — the invariants of the pool.

Main results:

* `ProcessPool.State.routing_step` — **a step of the pool is a step at the level of messages**, or moves
  bytes only;
* `ProcessPool.sound_of_reachable` — the invariants hold in every reachable state.
-/

import CppMultithreaded.PoolModel
import CppMultithreaded.PoolPlaces

set_option relaxedAutoImplicit false
set_option autoImplicit false

namespace ProcessPool

variable {τ θ : Type*} {P : Program τ} {n : ℕ}

/-! ### The level of messages -/

/-- The pool at the level of messages. -/
def State.routing (s : State P n θ) : Routing P n θ :=
  { toLedger := s.toLedger
    runs := fun w => (s.link w).runs
    responses := fun w => (s.link w).responses
    handler := fun w => (s.link w).handler
    draining := s.shutdown.draining
    swapped := s.shutdown.swapped }

/-- The level of messages, with a link replaced. -/
theorem routing_setLink (s : State P n θ) (L : Ledger P n θ) (w : Fin n) (l : Link P θ)
    (pc : ShutdownPc n) (b : Bool) (k : ℕ) :
    State.routing { toLedger := L, link := Function.update s.link w l, shutdown := pc
                    stopping := b, nextWorker := k } =
      { toLedger := L
        runs := Function.update s.routing.runs w l.runs
        responses := Function.update s.routing.responses w l.responses
        handler := Function.update s.routing.handler w l.handler
        draining := pc.draining
        swapped := pc.swapped } := by
  have hruns := Function.comp_update Link.runs s.link w l
  have hresponses := Function.comp_update Link.responses s.link w l
  have hhandler := Function.comp_update Link.handler s.link w l
  simp only [Function.comp_def] at hruns hresponses hhandler
  simp only [State.routing, hruns, hresponses, hhandler]

/-- The level of messages is left alone by a link with the same messages in flight. -/
theorem routing_same {s : State P n θ} {w : Fin n} {l : Link P θ} (L : Ledger P n θ)
    (pc : ShutdownPc n) (b : Bool) (k : ℕ) (h : (s.link w).Same l) :
    State.routing { toLedger := L, link := Function.update s.link w l, shutdown := pc
                    stopping := b, nextWorker := k } =
      { s.routing with toLedger := L, draining := pc.draining, swapped := pc.swapped } := by
  rw [routing_setLink, h.runs, h.responses, h.handler]
  simp only [State.routing, Function.update_eq_self]

section Step

variable [DecidableEq θ] [NeZero n]

omit [DecidableEq θ] [NeZero n] in
/-- What the links are that begin or give up a request, or close a descriptor. -/
theorem same_of_shutdown {l l' : Link P θ} {a : LinkAction P θ} (h : LinkEffect l a l')
    (ha : a = .lock .shutdown .stop ∨ (∃ o, a = .writeFails o) ∨ (∃ o, a = .unlock o) ∨
      a = .closeRequestFd ∨ a = .closeResponseFd) : l.Same l' := by
  rcases ha with rfl | ⟨o, rfl⟩ | ⟨o, rfl⟩ | rfl | rfl
  · cases h
    refine ⟨?_, rfl, rfl, rfl⟩
    simp [Link.runs, Frame.task?]
  all_goals
    cases h
    exact ⟨rfl, rfl, rfl, rfl⟩

omit [DecidableEq θ] [NeZero n] in
/-- What a worker is about to run is a task, its executor is known, and the execution of the request is
that of the task. -/
theorem task_of_running {l : Link P θ} (hf : l.Framed) {header payload : List UInt8}
    (hw : l.worker = .execute header payload) :
    ∃ taskId job rest, l.requests = Frame.run taskId job :: rest ∧
      P.executorAt (TaskHeader.ofBytes header).executor = some job.type ∧
      (∀ (w : Fin n) outcome, Execution.ofRequest P w job.type header payload outcome =
        Execution.ofTask w taskId job outcome) ∧
      ∀ w : Fin n, Execution.ofCrash P w job.type header payload =
        Execution.crashed w taskId job := by
  obtain ⟨taskId, job, rest, hrequests, -, hheader, rfl, -⟩ := hf.of_execute hw
  refine ⟨taskId, job, rest, hrequests, ?_, ?_, ?_⟩
  · rw [hheader]
    exact P.executorAt_executor job.type
  · intro w outcome
    simp only [Execution.ofRequest, Execution.ofTask, answer, hheader, executeTyped_payload]
    rfl
  · intro w
    simp only [Execution.ofCrash, Execution.crashed, hheader, readCall_payload]
    rfl

omit [DecidableEq θ] [NeZero n] in
/-- The execution of a request is that of the first task in flight, and its response begins. -/
theorem execution_of_request {l l' : Link P θ} (hf : l.Framed) {header payload : List UInt8} {t : τ}
    {outcome : Outcome} (hw : l.worker = .execute header payload)
    (ht : P.executorAt (TaskHeader.ofBytes header).executor = some t)
    (hl : LinkEffect l (.execute outcome) l') (w : Fin n) :
    ∃ taskId job rest, l.requests = Frame.run taskId job :: rest ∧
      outcome.Fits (P.resultSize job.type) ∧
      Execution.ofRequest P w t header payload outcome = Execution.ofTask w taskId job outcome ∧
      l' = l.reply (respond taskId ⟨some (job.fn, job.args), outcome.output, outcome.error⟩) := by
  obtain ⟨taskId, job, rest, hrequests, hexecutor, hrecord, -⟩ := task_of_running (n := n) hf hw
  obtain rfl := Option.some.inj (hexecutor.symm.trans ht)
  cases hl with
  | execute _ header' payload' _ hw' hexec =>
      obtain ⟨rfl, rfl⟩ := WorkerPc.execute.inj (hw.symm.trans hw')
      obtain ⟨taskId', job', rest', hrequests', hfits, rfl, -⟩ := hf.execute hw hexec
      obtain ⟨hframe, rfl⟩ := List.cons.inj (hrequests.symm.trans hrequests')
      obtain ⟨rfl, rfl⟩ := Frame.run.inj hframe
      exact ⟨taskId, job, rest, hrequests, hfits, hrecord w outcome, rfl⟩

/-- **A step of the pool is a step at the level of messages**, or moves bytes only. -/
theorem State.routing_step {s s' : State P n θ} {a : Action P n θ}
    (hf : ∀ w, (s.link w).Framed) (hidle : s.stopping = false → s.shutdown = .notStarted)
    (hwrap : a.noWrap s = true) (he : Effect s a s') :
    s'.routing = s.routing ∨ s.routing.Step s'.routing := by
  cases he with
  | makeState t job ht => exact Or.inr (Routing.Step.makeState t job ht)
  | fetchTaskId t job state ht =>
      exact Or.inr (Routing.Step.fetchTaskId t job state ht (of_decide_eq_true hwrap))
  | insertPending t job state taskId ht =>
      exact Or.inr (Routing.Step.insertPending t job state taskId ht)
  | refuse t job state taskId ht _ => exact Or.inr (Routing.Step.refuse t)
  | chooseWorker t job state taskId ht _ =>
      exact Or.inr (Routing.Step.chooseWorker t job state taskId _ ht)
  | lockWriteMutex t job state taskId w l ht hl =>
      refine Or.inr ?_
      cases hl with
      | lock _ _ _ =>
          simp only [State.setLink]
          rw [routing_setLink]
          have hstep := Routing.Step.send (R := s.routing) t job state taskId w ht
          simpa [State.routing, Link.runs, Frame.task?, Link.handler] using hstep
  | writeFails t job state taskId w l ht hl =>
      simp only [State.setLink]
      rw [routing_same _ _ _ _ (same_of_shutdown hl (Or.inr (Or.inl ⟨_, rfl⟩)))]
      exact Or.inr (Routing.Step.refuse t)
  | returnFuture t job state taskId w l ht hl =>
      simp only [State.setLink]
      rw [routing_same _ _ _ _ (same_of_shutdown hl (Or.inr (Or.inr (Or.inl ⟨_, rfl⟩))))]
      exact Or.inr (Routing.Step.returnFuture t job state taskId w ht)
  | internal w a l ha hl =>
      simp only [State.setLink]
      rw [routing_same _ _ _ _ (Link.same_of_internal (hf w) ha hl)]
      exact Or.inl rfl
  | execute w outcome t header payload l hw ht hl =>
      refine Or.inr ?_
      obtain ⟨taskId, job, rest, hrequests, hfits, hrecord, rfl⟩ :=
        execution_of_request (hf w) hw ht hl w
      have hruns : s.routing.runs w = (taskId, job) :: rest.filterMap Frame.task? := by
        simp [State.routing, Link.runs, hrequests, Frame.task?]
      have hstep := Routing.Step.execute w taskId job _ outcome hruns hfits
      simp only [State.setLink]
      rw [routing_setLink, hrecord]
      simpa [State.routing, Link.reply, Link.take, Link.runs, hrequests, Link.handler] using hstep
  | kill w outcome header payload l hw ht hl =>
      obtain ⟨_, job, _, -, hexecutor, -⟩ := task_of_running (n := n) (hf w) hw
      rw [hexecutor] at ht
      simp at ht
  | crash w t header payload l hw ht hl =>
      refine Or.inr ?_
      obtain ⟨taskId, job, rest, hrequests, hexecutor, -, hrecord⟩ :=
        task_of_running (n := n) (hf w) hw
      obtain rfl := Option.some.inj (hexecutor.symm.trans ht)
      cases hl with
      | crash _ _ _ =>
          have hruns : s.routing.runs w = (taskId, job) :: rest.filterMap Frame.task? := by
            simp [State.routing, Link.runs, hrequests, Frame.task?]
          have hstep := Routing.Step.crash w taskId job _ hruns
          simp only [State.setLink]
          rw [routing_setLink, hrecord w]
          simpa [State.routing, Link.kill, Link.take, Link.runs, hrequests, Link.handler] using hstep
  | lookup w header payload l hr hl =>
      refine Or.inr ?_
      obtain ⟨r, rest, hresponses, hheader, rfl, -⟩ := (hf w).of_lookup hr
      have hid : (ResultHeader.ofBytes header).taskId = r.taskId := by rw [hheader]; rfl
      have hnone : s.routing.handler w = none := by simp [State.routing, Link.handler, hr]
      have hstep := Routing.Step.lookup w r rest hresponses hnone
      rw [hid] at hl
      simp only [State.setLink]
      rw [routing_setLink, hid]
      cases hfound : s.pending.lookup r.taskId with
      | none =>
          rw [hfound] at hl
          cases hl with
          | lookupNone _ _ _ =>
              simpa [State.routing, Link.runs, hresponses, Link.handler, hfound] using hstep
      | some p =>
          rw [hfound] at hl
          cases hl with
          | lookupSome header' _ _ hr' =>
              obtain ⟨rfl, rfl⟩ := ReaderPc.lookup.inj (hr.symm.trans hr')
              simpa [State.routing, Link.runs, hresponses, Link.handler, hfound, hheader,
                Response.resultHeader] using hstep
  | complete w handler l hh hl =>
      refine Or.inr ?_
      have hstep := Routing.Step.complete (R := s.routing) w handler hh
      cases hl with
      | complete _ _ _ _ _ =>
          simp only [State.setLink]
          rw [routing_setLink]
          simpa [State.routing, Link.runs, Link.handler] using hstep
  | shutdown hstop => simp [State.routing, hidle hstop, ShutdownPc.draining, ShutdownPc.swapped]
  | shutdownAgain _ => exact Or.inl rfl
  | lockStop w rest l hpc hl =>
      simp only [State.setLink]
      rw [routing_same _ _ _ _ (same_of_shutdown hl (Or.inl rfl))]
      simp [State.routing, hpc, ShutdownPc.draining, ShutdownPc.swapped]
  | stopFails w rest l hpc hl =>
      simp only [State.setLink]
      rw [routing_same _ _ _ _ (same_of_shutdown hl (Or.inr (Or.inl ⟨_, rfl⟩)))]
      simp [State.routing, hpc, ShutdownPc.draining, ShutdownPc.swapped]
  | unlockStop w rest l hpc hl =>
      simp only [State.setLink]
      rw [routing_same _ _ _ _ (same_of_shutdown hl (Or.inr (Or.inr (Or.inl ⟨_, rfl⟩))))]
      simp [State.routing, hpc, ShutdownPc.draining, ShutdownPc.swapped]
  | join w rest hpc _ => simp [State.routing, hpc, ShutdownPc.draining, ShutdownPc.swapped]
  | closeRequestFd w rest l hpc hl =>
      simp only [State.setLink]
      rw [routing_same _ _ _ _ (same_of_shutdown hl (Or.inr (Or.inr (Or.inr (Or.inl rfl)))))]
      simp [State.routing, hpc, ShutdownPc.draining, ShutdownPc.swapped]
  | closeResponseFd w rest l hpc hl =>
      simp only [State.setLink]
      rw [routing_same _ _ _ _ (same_of_shutdown hl (Or.inr (Or.inr (Or.inr (Or.inr rfl)))))]
      simp [State.routing, hpc, ShutdownPc.draining, ShutdownPc.swapped]
  | waitpid w rest hpc _ => simp [State.routing, hpc, ShutdownPc.draining, ShutdownPc.swapped]
  | nextLoop pc hpc =>
      refine Or.inl ?_
      rcases ShutdownPc.afterLoop_cases hpc with ⟨hs, rfl⟩ | ⟨hs, rfl⟩ | ⟨hs, rfl⟩ | ⟨hs, rfl⟩
      all_goals simp [State.routing, hs, ShutdownPc.draining, ShutdownPc.swapped]
  | swapPending hpc =>
      refine Or.inr ?_
      have hstep := Routing.Step.drain (R := s.routing)
        (by simp [State.routing, hpc, ShutdownPc.draining])
      simpa [State.routing, hpc, ShutdownPc.draining, ShutdownPc.swapped] using hstep
  | failPending taskId p temp hpc hp =>
      refine Or.inr ?_
      have hstep := Routing.Step.fail (R := s.routing) taskId p
        (by simpa [State.routing, hpc, ShutdownPc.draining] using hp)
        (by simp [State.routing, hpc, ShutdownPc.swapped])
      simpa [State.routing, hpc, ShutdownPc.draining, ShutdownPc.swapped] using hstep

/-! ### The invariants -/

/-- **The invariants of the pool**: the bytes in flight are those of the frames in flight, and the level
of messages is sound. -/
structure State.Sound (s : State P n θ) : Prop where
  framed : ∀ w, (s.link w).Framed
  idle : s.stopping = false → s.shutdown = .notStarted
  nextTaskId_lt : s.nextTaskId < 2 ^ 64
  named : s.routing.Named
  sent : s.routing.Sent
  faithful : s.routing.Faithful
  placed : s.routing.Placed
  settled : s.routing.Settled

omit [DecidableEq θ] [NeZero n] in
theorem framed_setLink {s : State P n θ} (hf : ∀ w, (s.link w).Framed) {w : Fin n}
    {a : LinkAction P θ} {l : Link P θ} (hl : LinkEffect (s.link w) a l) (ha : a.Valid) (v : Fin n) :
    (Function.update s.link w l v).Framed := by
  rcases eq_or_ne v w with rfl | hne
  · rw [Function.update_self]
    exact (hf v).step ha hl
  · rw [Function.update_of_ne hne]
    exact hf v

theorem framed_of_effect {s s' : State P n θ} {a : Action P n θ} (h : s.Sound) (he : Effect s a s') :
    ∀ w, (s'.link w).Framed := by
  cases he with
  | lockWriteMutex t job state taskId w l ht hl =>
      refine framed_setLink h.framed hl ?_
      intro i hi
      obtain rfl := Option.some.inj hi
      have hlt := h.named.task_lt taskId _ (h.named.of_thread t job state taskId
        (by simp [State.routing, ht, SubmitPc.task?]))
      exact hlt.trans h.nextTaskId_lt
  | writeFails t job state taskId w l ht hl => exact framed_setLink h.framed hl trivial
  | returnFuture t job state taskId w l ht hl => exact framed_setLink h.framed hl trivial
  | internal w a l ha hl =>
      refine framed_setLink h.framed hl ?_
      cases a <;> trivial
  | execute w outcome t header payload l _ _ hl => exact framed_setLink h.framed hl trivial
  | kill w outcome header payload l _ _ hl => exact framed_setLink h.framed hl trivial
  | crash w t header payload l _ _ hl => exact framed_setLink h.framed hl trivial
  | lookup w header payload l _ hl => exact framed_setLink h.framed hl trivial
  | complete w handler l _ hl => exact framed_setLink h.framed hl trivial
  | lockStop w rest l _ hl =>
      refine framed_setLink h.framed hl ?_
      intro i hi
      simp [Frame.taskId?] at hi
  | stopFails w rest l _ hl => exact framed_setLink h.framed hl trivial
  | unlockStop w rest l _ hl => exact framed_setLink h.framed hl trivial
  | closeRequestFd w rest l _ hl => exact framed_setLink h.framed hl trivial
  | closeResponseFd w rest l _ hl => exact framed_setLink h.framed hl trivial
  | _ => exact h.framed

theorem idle_of_effect {s s' : State P n θ} {a : Action P n θ}
    (h : s.stopping = false → s.shutdown = .notStarted) (he : Effect s a s') :
    s'.stopping = false → s'.shutdown = .notStarted := by
  intro hstop
  cases he with
  | shutdown _ => simp at hstop
  | lockStop w rest l hpc _ => simp [h hstop] at hpc
  | stopFails w rest l hpc _ => simp [h hstop] at hpc
  | unlockStop w rest l hpc _ => simp [h hstop] at hpc
  | join w rest hpc _ => simp [h hstop] at hpc
  | closeRequestFd w rest l hpc _ => simp [h hstop] at hpc
  | closeResponseFd w rest l hpc _ => simp [h hstop] at hpc
  | waitpid w rest hpc _ => simp [h hstop] at hpc
  | nextLoop pc hpc => simp [h hstop, ShutdownPc.afterLoop] at hpc
  | swapPending hpc => simp [h hstop] at hpc
  | failPending taskId p temp hpc _ => simp [h hstop] at hpc
  | _ => exact h hstop

theorem nextTaskId_of_effect {s s' : State P n θ} {a : Action P n θ} (h : s.nextTaskId < 2 ^ 64)
    (he : Effect s a s') : s'.nextTaskId < 2 ^ 64 := by
  cases he with
  | fetchTaskId t job state _ => exact Nat.mod_lt _ (Nat.two_pow_pos 64)
  | _ => exact h

theorem State.Sound.step {s s' : State P n θ} {a : Action P n θ} (h : s.Sound)
    (hwrap : a.noWrap s = true) (he : Effect s a s') : s'.Sound := by
  have hframed := framed_of_effect h he
  have hidle := idle_of_effect h.idle he
  have hlt := nextTaskId_of_effect h.nextTaskId_lt he
  rcases State.routing_step h.framed h.idle hwrap he with heq | hstep
  · refine ⟨hframed, hidle, hlt, ?_, ?_, ?_, ?_, ?_⟩
    all_goals rw [heq]
    · exact h.named
    · exact h.sent
    · exact h.faithful
    · exact h.placed
    · exact h.settled
  · exact ⟨hframed, hidle, hlt, h.named.step hstep, h.sent.step h.named hstep,
      h.faithful.step h.named h.sent hstep, h.placed.step h.named h.sent hstep,
      h.settled.step h.named h.placed hstep⟩

omit [DecidableEq θ] [NeZero n] in
theorem sound_initial : (State.initial : State P n θ).Sound := by
  refine ⟨fun _ => Link.Framed.initial, fun _ => rfl, by simp [State.initial, Ledger.initial], ?_, ?_, ?_,
    ?_, ?_⟩
  · constructor <;> simp [State.initial, State.routing, Ledger.initial, SubmitPc.task?]
  · constructor <;>
      simp [State.initial, State.routing, Ledger.initial, SubmitPc.holds, Link.runs, Link.initial]
  · constructor <;> simp [State.initial, State.routing, Ledger.initial, Link.handler, Link.initial]
  · constructor <;>
      simp [State.initial, State.routing, Ledger.initial, SubmitPc.inserted, Link.handler,
        Link.initial, ShutdownPc.draining]
  · constructor <;> simp [State.initial, State.routing, Ledger.initial]

/-- **The invariants hold in every reachable state.** -/
theorem sound_of_reachable {s : State P n θ} (h : (pool P n θ).Reachable s) : s.Sound := by
  refine Automaton.Reachable.invariant ?_ ?_ h
  · intro s hs
    rw [show s = State.initial from hs]
    exact sound_initial
  · intro s a s' _ hsound hs
    obtain ⟨hwrap, hs⟩ := Automaton.restrict_step_eq_some.1 hs
    exact hsound.step hwrap (effect_of_step hs)

end Step

end ProcessPool
