/-
**Routing: the process pool at the level of messages.**

Above the bytes, the pool is a bookkeeping of tasks.  `Submit` makes a shared state, fetches an id,
inserts a pending handler under the id, and sends the task to one worker; the worker answers it; the
reader of the worker takes the handler of the answered id out of the map and calls it; and
`FailAllPending` takes out and fails whatever handlers are left.

The ledger records, besides the data of the parent, the history: how far each task has got on its way
to an execution (its stage), and where its pending handler is (its place).

Main definitions:

* `ProcessPool.Ledger` — the memory of the parent, and the history, with one operation for each step;
* `ProcessPool.Routing`, `ProcessPool.Routing.Step` — the pool at the level of messages, and its
  steps.
-/

import CppMultithreaded.PoolLink
import Mathlib.Data.List.AList

set_option relaxedAutoImplicit false
set_option autoImplicit false

namespace ProcessPool

variable {τ θ : Type*} {P : Program τ} {n : ℕ}

/-! ### The ledger -/

/-- The program points of `Submit`. -/
inductive SubmitPc (P : Program τ) (n : ℕ)
  /-- Not in `Submit`. -/
  | idle
  /-- About to increment `next_task_id_`. -/
  | fetchTaskId (job : Job P) (state : ℕ)
  /-- About to insert the pending handler. -/
  | insertPending (job : Job P) (state taskId : ℕ)
  /-- About to check `stopping_` and to select a worker. -/
  | chooseWorker (job : Job P) (state taskId : ℕ)
  /-- About to lock the `write_mutex` of the worker. -/
  | lockWriteMutex (job : Job P) (state taskId : ℕ) (w : Fin n)
  /-- Writing the request. -/
  | write (job : Job P) (state taskId : ℕ) (w : Fin n)

/-- How far a task has got on its way to an execution. -/
inductive Stage (n : ℕ) (θ : Type*)
  | absent
  /-- A thread has fetched its id. -/
  | held (t : θ)
  /-- The request has begun. -/
  | sent (w : Fin n)
  /-- The worker has run it, and the response has begun. -/
  | answered (w : Fin n)
  /-- The reader has got the response, or the worker has crashed. -/
  | closed

/-- Where the pending handler of a task is. -/
inductive Place (n : ℕ)
  | absent
  /-- In the map. -/
  | pending
  /-- Taken by the reader of a worker. -/
  | reader (w : Fin n)
  /-- Taken by `FailAllPending`. -/
  | draining
  /-- Called by a reader. -/
  | completed
  /-- Called by `FailAllPending`. -/
  | failed
  deriving DecidableEq

/-- Where a shared state comes from. -/
inductive Origin (P : Program τ) (θ : Type*)
  | absent
  /-- A thread has made it for a call of `Submit`. -/
  | made (t : θ) (job : Job P)
  /-- The call has fetched an id. -/
  | named (taskId : ℕ) (job : Job P)

/-- A call of an executor: what it has called, and the response, unless it has crashed. -/
structure Execution (n : ℕ) where
  worker : Fin n
  taskId : ℕ
  called : Option (ℕ × List (List UInt8))
  response : Option Response
  deriving DecidableEq

/-- A call of a pending handler by a reader. -/
structure Completion where
  taskId : ℕ
  state : ℕ
  status : ℕ
  payload : List UInt8
  deriving DecidableEq

/-- The memory of the parent process, and the history of the pool. -/
structure Ledger (P : Program τ) (n : ℕ) (θ : Type*) where
  thread : θ → SubmitPc P n
  nextTaskId : ℕ
  pending : AList fun _ : ℕ => Pending
  /-- The shared states, and the number of those that have been made. -/
  states : ℕ → SharedState
  nextState : ℕ
  /-- The origins of the shared states, and the function and the shared state of each id. -/
  origin : ℕ → Origin P θ
  task : ℕ → Option (Job P × ℕ)
  stage : ℕ → Stage n θ
  place : ℕ → Place n
  /-- The calls of executors, and those of pending handlers, by readers and by `FailAllPending`. -/
  executed : List (Execution n)
  completed : List Completion
  failed : List ℕ
  /-- The calls of `Submit` that have returned. -/
  returned : List (Job P × ℕ)

/-- The text of the error of `Shutdown`. -/
def shutdownReason : List UInt8 := text "process pool shutdown"

namespace Ledger

/-- The ledger of a new pool. -/
def initial : Ledger P n θ :=
  { thread := fun _ => .idle, nextTaskId := 1, pending := ∅, states := fun _ => SharedState.make
    nextState := 0, origin := fun _ => .absent, task := fun _ => none, stage := fun _ => .absent
    place := fun _ => .absent, executed := [], completed := [], failed := [], returned := [] }

section Submit

variable [DecidableEq θ]

/-- A thread moves on. -/
def goTo (L : Ledger P n θ) (t : θ) (pc : SubmitPc P n) : Ledger P n θ :=
  { L with thread := Function.update L.thread t pc }

/-- `MakeState`. -/
def makeState (L : Ledger P n θ) (t : θ) (job : Job P) : Ledger P n θ :=
  { L with
    thread := Function.update L.thread t (.fetchTaskId job L.nextState)
    states := Function.update L.states L.nextState SharedState.make
    nextState := L.nextState + 1
    origin := Function.update L.origin L.nextState (.made t job) }

/-- `next_task_id_.fetch_add(1)`. -/
def fetchTaskId (L : Ledger P n θ) (t : θ) (job : Job P) (state : ℕ) : Ledger P n θ :=
  { L with
    thread := Function.update L.thread t (.insertPending job state L.nextTaskId)
    nextTaskId := (L.nextTaskId + 1) % 2 ^ 64
    origin := Function.update L.origin state (.named L.nextTaskId job)
    task := Function.update L.task L.nextTaskId (some (job, state))
    stage := Function.update L.stage L.nextTaskId (.held t) }

/-- `pending_[task_id] = MakePending(state)`. -/
def insertPending (L : Ledger P n θ) (t : θ) (job : Job P) (state taskId : ℕ) : Ledger P n θ :=
  { L with
    thread := Function.update L.thread t (.chooseWorker job state taskId)
    pending := L.pending.insert taskId ⟨state, P.resultSize job.type⟩
    place := Function.update L.place taskId .pending }

/-- The request of a task begins. -/
def send (L : Ledger P n θ) (t : θ) (job : Job P) (state taskId : ℕ) (w : Fin n) : Ledger P n θ :=
  { L with
    thread := Function.update L.thread t (.write job state taskId w)
    stage := Function.update L.stage taskId (.sent w) }

/-- `Submit` returns the `Future`. -/
def returnFuture (L : Ledger P n θ) (t : θ) (job : Job P) (state : ℕ) : Ledger P n θ :=
  { L with
    thread := Function.update L.thread t .idle
    returned := L.returned ++ [(job, state)] }

end Submit

/-- A worker has called an executor. -/
def record (L : Ledger P n θ) (e : Execution n) : Ledger P n θ :=
  { L with
    executed := L.executed ++ [e]
    stage := Function.update L.stage e.taskId
      (if e.response.isSome then .answered e.worker else .closed) }

/-- A reader looks up an id, and takes the handler out of the map. -/
def lookup (L : Ledger P n θ) (w : Fin n) (taskId : ℕ) : Ledger P n θ :=
  { L with
    pending := L.pending.erase taskId
    stage := Function.update L.stage taskId .closed
    place :=
      if (L.pending.lookup taskId).isSome then Function.update L.place taskId (.reader w)
      else L.place }

/-- A reader calls a handler. -/
def complete (L : Ledger P n θ) (h : Handler) : Ledger P n θ :=
  { L with
    states := Function.update L.states h.pending.state
      ((L.states h.pending.state).complete h.pending.resultSize h.status h.payload)
    completed := L.completed ++ [⟨h.taskId, h.pending.state, h.status, h.payload⟩]
    place := Function.update L.place h.taskId .completed }

/-- `temp.swap(pending_)`. -/
def drain (L : Ledger P n θ) : Ledger P n θ :=
  { L with
    pending := ∅
    place := fun taskId => if L.place taskId = .pending then .draining else L.place taskId }

/-- `FailAllPending` calls a handler. -/
def fail (L : Ledger P n θ) (taskId : ℕ) (pending : Pending) : Ledger P n θ :=
  { L with
    states := Function.update L.states pending.state
      ((L.states pending.state).setException shutdownReason)
    failed := L.failed ++ [taskId]
    place := Function.update L.place taskId .failed }

end Ledger

/-! ### The steps -/

/-- The pool at the level of messages: the ledger, the tasks and the responses in flight, the calls
that the readers are about to make, and the handlers that `FailAllPending` has taken, once it has
swapped the map. -/
structure Routing (P : Program τ) (n : ℕ) (θ : Type*) extends Ledger P n θ where
  runs : Fin n → List (ℕ × Job P)
  responses : Fin n → List Response
  handler : Fin n → Option Handler
  draining : AList fun _ : ℕ => Pending
  swapped : Bool

/-- The execution of a task. -/
def Execution.ofTask (w : Fin n) (taskId : ℕ) (job : Job P) (outcome : Outcome) : Execution n :=
  { worker := w
    taskId := taskId
    called := some (job.fn, job.args)
    response := some (respond taskId ⟨some (job.fn, job.args), outcome.output, outcome.error⟩) }

/-- The execution of a task that crashes. -/
def Execution.crashed (w : Fin n) (taskId : ℕ) (job : Job P) : Execution n :=
  { worker := w, taskId := taskId, called := some (job.fn, job.args), response := none }

variable [DecidableEq θ]

/-- The steps of the pool at the level of messages. -/
inductive Routing.Step (R : Routing P n θ) : Routing P n θ → Prop
  | makeState (t : θ) (job : Job P) : R.thread t = .idle →
      Step R { R with toLedger := R.makeState t job }
  | fetchTaskId (t : θ) (job : Job P) (state : ℕ) : R.thread t = .fetchTaskId job state →
      R.nextTaskId + 1 < 2 ^ 64 → Step R { R with toLedger := R.fetchTaskId t job state }
  | insertPending (t : θ) (job : Job P) (state taskId : ℕ) :
      R.thread t = .insertPending job state taskId →
      Step R { R with toLedger := R.insertPending t job state taskId }
  | chooseWorker (t : θ) (job : Job P) (state taskId : ℕ) (w : Fin n) :
      R.thread t = .chooseWorker job state taskId →
      Step R { R with toLedger := R.goTo t (.lockWriteMutex job state taskId w) }
  | refuse (t : θ) : Step R { R with toLedger := R.goTo t .idle }
  | send (t : θ) (job : Job P) (state taskId : ℕ) (w : Fin n) :
      R.thread t = .lockWriteMutex job state taskId w →
      Step R { R with
        toLedger := R.send t job state taskId w
        runs := Function.update R.runs w (R.runs w ++ [(taskId, job)]) }
  | returnFuture (t : θ) (job : Job P) (state taskId : ℕ) (w : Fin n) :
      R.thread t = .write job state taskId w →
      Step R { R with toLedger := R.returnFuture t job state }
  | execute (w : Fin n) (taskId : ℕ) (job : Job P) (rest : List (ℕ × Job P)) (outcome : Outcome) :
      R.runs w = (taskId, job) :: rest → outcome.Fits (P.resultSize job.type) →
      Step R { R with
        toLedger := R.record (Execution.ofTask w taskId job outcome)
        runs := Function.update R.runs w rest
        responses := Function.update R.responses w (R.responses w ++
          [respond taskId ⟨some (job.fn, job.args), outcome.output, outcome.error⟩]) }
  | crash (w : Fin n) (taskId : ℕ) (job : Job P) (rest : List (ℕ × Job P)) :
      R.runs w = (taskId, job) :: rest →
      Step R { R with
        toLedger := R.record (Execution.crashed w taskId job)
        runs := Function.update R.runs w rest }
  | lookup (w : Fin n) (r : Response) (rest : List Response) :
      R.responses w = r :: rest → R.handler w = none →
      Step R { R with
        toLedger := R.lookup w r.taskId
        responses := Function.update R.responses w rest
        handler := Function.update R.handler w ((R.pending.lookup r.taskId).map fun pending =>
          ⟨r.taskId, pending, r.status.code, r.payload⟩) }
  | complete (w : Fin n) (h : Handler) : R.handler w = some h →
      Step R { R with
        toLedger := R.complete h
        handler := Function.update R.handler w none }
  | drain : R.draining = ∅ →
      Step R { R with toLedger := R.drain, draining := R.pending, swapped := true }
  | fail (taskId : ℕ) (pending : Pending) : R.draining.lookup taskId = some pending →
      R.swapped = true → Step R { R with
        toLedger := R.fail taskId pending
        draining := R.draining.erase taskId }

end ProcessPool
