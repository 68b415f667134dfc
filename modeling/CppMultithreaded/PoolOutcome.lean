/-
**How the outcome of a task reaches its `Future`.**

On its way from the worker to the caller of `Get` the outcome of a call is encoded several times, and
each encoding infers the case from what is empty: `ExecuteTyped` leaves an output and the text of an
exception, `WorkerLoop` chooses the status from the two, `ReaderLoop` and the pending handler choose
from the status and from the size of the payload.  An exception with an empty text does not survive this.

Main definitions:

* `ProcessPool.SharedState.get` — `Future::Get`;
* `ProcessPool.transport` — the shared state of a task, once the response to it has been delivered;
* `ProcessPool.Outcome.Transported` — what `Get` does tells how the call has ended.

Main results:

* `ProcessPool.transport_eq` — the headers and the executor survive the transport;
* `ProcessPool.transport_of_completed` — in every run of the pool, a `Future` completed by a reader is in
  the state that `transport` computes;
* `ProcessPool.get_transport_threw_empty` — what becomes of an exception with an empty text;
* `ProcessPool.transported_iff` — **every other outcome is transported faithfully**.
-/

import CppMultithreaded.PoolResults

set_option relaxedAutoImplicit false
set_option autoImplicit false

namespace ProcessPool

variable {τ θ : Type*} {P : Program τ} {n : ℕ}

/-! ### `Get` -/

/-- `Future::Get`: the value, or the text of the exception that is thrown.  It waits (`none`) until the
state is ready. -/
def SharedState.get (resultSize : Option ℕ) (s : SharedState) :
    Option (Except (List UInt8) (List UInt8)) :=
  if s.ready then
    match s.error with
    | some what => some (.error what)
    | none =>
        match resultSize with
        | some _ => s.value.map .ok
        | none => some (.ok [])
  else none

/-- What `Get` does tells how the call has ended. -/
structure Outcome.Transported (outcome : Outcome) (got : Except (List UInt8) (List UInt8)) : Prop where
  returned : ∀ result, outcome = .returned result → got = .ok result
  threw : ∀ what, outcome = .threw what → got = .error what
  threwUnknown : outcome = .threwUnknown → ∃ what, got = .error what
  normally : (∃ result, got = .ok result) ↔ ∃ result, outcome = .returned result

/-! ### The way of an outcome -/

/-- The shared state of a task whose call ends with `outcome`, once the response has been delivered: the
request is written, the worker calls the executor that its header names and responds, and the reader
calls the pending handler. -/
def transport (job : Job P) (taskId : ℕ) (outcome : Outcome) : SharedState :=
  let request : Frame P := .run taskId job
  match P.executorAt (TaskHeader.ofBytes request.taskHeader.bytes).executor with
  | none => SharedState.make
  | some t =>
      let response := answer P t request.taskHeader.bytes request.payload outcome
      let header := ResultHeader.ofBytes response.resultHeader.bytes
      SharedState.completed job header.status response.payload

section Transport

variable {job : Job P} {taskId : ℕ} {outcome : Outcome} (hi : taskId < 2 ^ 64)
  (hfits : outcome.Fits (P.resultSize job.type))

include hi hfits

/-- The headers and the executor survive the transport. -/
theorem transport_eq {r : Response}
    (hr : r = respond taskId ⟨some (job.fn, job.args), outcome.output, outcome.error⟩) :
    transport job taskId outcome = SharedState.completed job r.status.code r.payload := by
  have hrequest : (requestFraming P).valid (.run taskId job) := by
    intro i hmem
    obtain rfl := Option.some.inj hmem
    exact hi
  have hheader := Frame.ofBytes_taskHeader hrequest
  have hresponse : responseFraming.valid r := by
    rw [hr]
    exact valid_respond hi (hfits.output_lt fun k hk => (P.resultSize_lt job.type k hk).2)
      hfits.error_lt
  have hanswer : answer P job.type (Frame.run taskId job).taskHeader.bytes
      (Frame.run taskId job).payload outcome = r := by
    rw [answer, hheader, hr]
    exact congrArg (respond taskId) (executeTyped_payload job outcome)
  have hexecutor : P.executorAt
      (TaskHeader.ofBytes (Frame.run taskId job).taskHeader.bytes).executor = some job.type := by
    rw [hheader]
    exact P.executorAt_executor job.type
  unfold transport
  simp only [hexecutor, hanswer]
  rw [Response.ofBytes_resultHeader hresponse]
  rfl

/-! ### What `Get` does -/

/-- The state of a task that has returned. -/
theorem get_transport_returned {result : List UInt8} (ho : outcome = .returned result) :
    (transport job taskId outcome).get (P.resultSize job.type) = some (.ok result) := by
  subst ho
  rw [transport_eq hi hfits (r := respond taskId ⟨some (job.fn, job.args), result, []⟩) rfl,
    SharedState.completed_returned hfits rfl]
  cases hsize : P.resultSize job.type with
  | none =>
      have hlen : result.length = (P.resultSize job.type).getD 0 := hfits
      rw [hsize, Option.getD_none, List.length_eq_zero_iff] at hlen
      rw [hlen]
      rfl
  | some size => rfl

/-- The state of a task that has thrown an exception whose text is not empty. -/
theorem get_transport_error (hne : outcome.error ≠ []) :
    (transport job taskId outcome).get (P.resultSize job.type) = some (.error outcome.error) := by
  rw [transport_eq hi hfits rfl, SharedState.completed_threw hne rfl]
  rfl

/-- **An exception with an empty text is lost**: the `Future` of a task without a result takes the call
for one that has returned, and any other one reports the size of the payload. -/
theorem get_transport_threw_empty (ho : outcome = .threw []) :
    (transport job taskId outcome).get (P.resultSize job.type) =
      match P.resultSize job.type with
      | none => some (.ok [])
      | some _ => some (.error (text "invalid payload size for result")) := by
  subst ho
  rw [transport_eq hi hfits rfl, SharedState.completed]
  cases hsize : P.resultSize job.type with
  | none => rfl
  | some size =>
      have hpos := (P.resultSize_lt job.type size hsize).1
      have hlen : ([] : List UInt8).length ≠ size := by
        rw [List.length_nil]
        omega
      simp [respond, Outcome.error, Outcome.output, SharedState.complete, SharedState.setValue,
        ResultStatus.code, hpos.ne, SharedState.setException, SharedState.get, SharedState.make]

/-- **An outcome is transported faithfully exactly when it is not an exception with an empty text.** -/
theorem transported_iff :
    (∃ got, (transport job taskId outcome).get (P.resultSize job.type) = some got ∧
      outcome.Transported got) ↔ outcome ≠ .threw [] := by
  constructor
  · rintro ⟨got, hgot, htransported⟩ rfl
    -- the text would have to be empty, but no value and no other text is
    have herror := htransported.threw [] rfl
    rw [get_transport_threw_empty hi hfits rfl, herror] at hgot
    cases hsize : P.resultSize job.type with
    | none => simp [hsize] at hgot
    | some size =>
        simp only [hsize, Option.some.injEq, Except.error.injEq] at hgot
        exact absurd hgot (by decide)
  · intro hne
    cases outcome with
    | returned result =>
        exact ⟨.ok result, get_transport_returned hi hfits rfl, by simp, by simp, by simp, by simp⟩
    | threw what =>
        have hwhat : what ≠ [] := fun h => hne (congrArg Outcome.threw h)
        exact ⟨.error what, get_transport_error hi hfits hwhat, by simp, by simp, by simp, by simp⟩
    | threwUnknown =>
        exact ⟨.error _, get_transport_error hi hfits (by decide), by simp, by simp, by simp, by simp⟩

end Transport

/-- **In every run of the pool**, a `Future` completed by a reader is in the state that `transport`
computes for an outcome of its own task. -/
theorem transport_of_completed [DecidableEq θ] [NeZero n] {s : State P n θ}
    (h : (pool P n θ).Reachable s) {c : Completion} (hc : c ∈ s.completed) :
    ∃ job outcome, s.origin c.state = .named c.taskId job ∧
      outcome.Fits (P.resultSize job.type) ∧ s.states c.state = transport job c.taskId outcome := by
  have hsound := sound_of_reachable h
  obtain ⟨job, horigin, hstate, e, he, r, hid, ⟨-, hruns⟩, hresponse, hstatus, hpayload⟩ :=
    (routed_of_reachable h).completed_own c hc
  obtain ⟨outcome, hfits, hr⟩ := hruns r hresponse
  have hlt : c.taskId < 2 ^ 64 :=
    (hsound.named.task_lt _ _ (hsound.named.task_of_origin _ _ _ horigin)).trans hsound.nextTaskId_lt
  rw [hid] at hr
  refine ⟨job, outcome, horigin, hfits, ?_⟩
  rw [transport_eq hlt hfits hr, hstatus, hpayload]
  exact hstate

/-! ### Two tasks -/

theorem transported_iff_returned :
    (∃ got, (transport (byteJob 1 5) 1 (.returned [25])).get (some 1) = some got ∧
      (Outcome.returned [25]).Transported got) ↔ Outcome.returned [25] ≠ .threw [] :=
  transported_iff (by decide) rfl

/-- A program with one type of functions, without arguments and without a result. -/
def voidProgram : Program Unit where
  argSizes _ := []
  resultSize _ := none
  executor _ := 8192
  executorAt address := if address = 8192 then some () else none
  executorAt_executor _ := rfl
  executor_lt _ := by decide
  resultSize_lt _ _ hk := nomatch hk

/-- A function without arguments. -/
def voidJob : Job voidProgram where
  type := ()
  fn := 1
  args := []
  fn_lt := by norm_num
  args_size := rfl
  payload_lt := by norm_num

/-- A task without a result throws `std::runtime_error("")`, and `Get` returns normally. -/
theorem empty_exception_lost :
    ¬ ∀ (job : Job voidProgram) (taskId : ℕ) (outcome : Outcome), taskId < 2 ^ 64 →
      outcome.Fits (voidProgram.resultSize job.type) →
      ∃ got, (transport job taskId outcome).get (voidProgram.resultSize job.type) = some got ∧
        outcome.Transported got := by
  intro hall
  obtain ⟨got, hgot, htransported⟩ := hall voidJob 1 (.threw []) (by decide) (by decide)
  have hok : (transport voidJob 1 (.threw [])).get (voidProgram.resultSize voidJob.type) =
      some (.ok []) := rfl
  rw [hok, htransported.threw [] rfl] at hgot
  simp at hgot

end ProcessPool
