/-
**The Futures of the process pool, and the threads that use them.**

A `Future` is a handle of a shared state: a mutex, a condition variable, a flag, a value and an error.
The threads of the program call `Wait`, `IsReady` and `Get`; a reader of the pool, or `Shutdown`, calls
the pending handler, which stores the result under the mutex and notifies all waiters after it has
released it.  The model of the pool does the call of a handler in one step.  Here the parent process is
put together: the pool, a monitor for each shared state, and where each thread is inside; and the call
of a handler is the sequence of steps that it is, of which only the store under the mutex is the step of
the pool.

Main definitions:

* `ProcessPool.sharedState` — the shared state of a `Future`, as the object of a monitor;
* `ProcessPool.FutureCall` — the calls of a `Future`;
* `ProcessPool.Parent`, `ProcessPool.Parent.step`, `ProcessPool.parent` — the parent process.

Main results:

* `ProcessPool.Parent.effect_of_step` — inversion of the step function;
* `ProcessPool.delivery_stable` — a call of a handler that is due stays due, whatever the other threads
  do.
-/

import CppMultithreaded.Monitor
import CppMultithreaded.PoolOutcome

set_option relaxedAutoImplicit false
set_option autoImplicit false

namespace ProcessPool

variable {τ θ : Type*} {P : Program τ} {n : ℕ}

/-! ### The shared state of a Future -/

/-- A call of a pending handler: `SetValue`, where the handler knows the size of the value, or
`SetException`. -/
inductive Delivery
  | setValue (resultSize : Option ℕ) (payload : List UInt8)
  | setException (what : List UInt8)
  deriving DecidableEq

/-- What a call of a pending handler stores. -/
def SharedState.deliver : Delivery → SharedState → SharedState
  | .setValue resultSize payload, s => s.setValue resultSize payload
  | .setException what, s => s.setException what

/-- The call of a pending handler that `ReaderLoop` makes for a response. -/
def Delivery.ofResponse (h : Handler) : Delivery :=
  if h.status = ResultStatus.exception.code then .setException h.payload
  else .setValue h.pending.resultSize h.payload

/-- What `Get` does after it has waited: the exception, or the value.  It must not find the value missing
(`none`). -/
def SharedState.result (resultSize : Option ℕ) (s : SharedState) :
    Option (Except (List UInt8) (List UInt8)) :=
  match s.error with
  | some what => some (.error what)
  | none =>
      match resultSize with
      | some _ => s.value.map .ok
      | none => some (.ok [])

/-- What a `Future` is asked under the mutex: whether it is ready, and for the result. -/
inductive FutureQuery
  | isReady
  | get (resultSize : Option ℕ)
  deriving DecidableEq

/-- The answers. -/
inductive FutureAnswer
  | ready (b : Bool)
  | got (result : Option (Except (List UInt8) (List UInt8)))

/-- **The shared state of a `Future`**, as the object of a monitor. -/
def sharedState : Monitor.Object SharedState Delivery FutureQuery FutureAnswer where
  init := SharedState.make
  ready s := s.ready
  apply := SharedState.deliver
  eval
    | .isReady, s => .ready s.ready
    | .get resultSize, s => .got (s.result resultSize)

/-- The calls of a `Future`. -/
inductive FutureCall
  | wait
  | isReady
  | get
  deriving DecidableEq

/-- The operations on the shared state that a call consists of.  `Get` calls `Wait`, and then takes the
mutex once more. -/
def FutureCall.ops (resultSize : Option ℕ) : FutureCall → List (Monitor.Op Delivery FutureQuery)
  | .wait => [.wait]
  | .isReady => [.read .isReady]
  | .get => [.wait, .read (.get resultSize)]

theorem SharedState.deliver_ofResponse (h : Handler) (s : SharedState) :
    s.deliver (.ofResponse h) = s.complete h.pending.resultSize h.status h.payload := by
  rw [Delivery.ofResponse, complete]
  split_ifs <;> rfl

@[simp] theorem SharedState.ready_deliver (d : Delivery) (s : SharedState) :
    (s.deliver d).ready = true := by
  cases d with
  | setException what => rfl
  | setValue resultSize payload =>
      cases resultSize with
      | none => rfl
      | some size =>
          simp only [deliver, setValue]
          split_ifs <;> rfl

theorem stable_sharedState : sharedState.Stable := fun d s _ => SharedState.ready_deliver d s

theorem SharedState.get_of_ready {s : SharedState} (h : s.ready = true) (resultSize : Option ℕ) :
    s.get resultSize = s.result resultSize := if_pos h

/-! ### The parent process -/

/-- The threads that use the shared states: those of the program, the readers, and the one in
`Shutdown`. -/
inductive Party (n : ℕ) (θ : Type*)
  | program (t : θ)
  | reader (w : Fin n)
  | shutdown
  deriving DecidableEq

/-- The thread of the parent process that makes a step of a link. -/
def LinkAction.party (w : Fin n) : LinkAction P θ → Option (Party n θ)
  | .write (.submit t) _ => some (.program t)
  | .write .shutdown _ => some .shutdown
  | .readResponse _ | .responseEof | .lookup _ | .complete => some (.reader w)
  | _ => none

/-- The thread of the parent process that makes a step of the pool. -/
def Action.party : Action P n θ → Option (Party n θ)
  | .makeState t _ | .fetchTaskId t | .insertPending t | .chooseWorker t | .lockWriteMutex t
  | .writeFails t | .returnFuture t => some (.program t)
  | .link w a => a.party w
  | .execute _ _ | .crash _ => none
  | .lookup w | .complete w => some (.reader w)
  | .shutdown | .lockStop | .stopFails | .unlockStop | .join | .closeRequestFd | .closeResponseFd
  | .waitpid | .nextLoop | .swapPending | .failPending _ => some .shutdown

/-- The step is the call of a pending handler. -/
def Action.handles : Action P n θ → Bool
  | .complete _ | .failPending _ => true
  | _ => false

/-- The call of a pending handler that a step of the pool makes: the thread, the shared state, and what
the handler is called with. -/
def Action.delivery (s : State P n θ) : Action P n θ → Option (Party n θ × ℕ × Delivery)
  | .complete w =>
      (s.link w).handler.map fun h => (.reader w, h.pending.state, .ofResponse h)
  | .failPending taskId =>
      (s.shutdown.draining.lookup taskId).map fun p =>
        (.shutdown, p.state, .setException shutdownReason)
  | _ => none

section Frame

variable [DecidableEq θ]

omit [DecidableEq θ] in
/-- Only a reader moves its own program point. -/
theorem reader_of_linkEffect {l l' : Link P θ} {a : LinkAction P θ} (h : LinkEffect l a l') (w : Fin n)
    (ha : a.party w ≠ some (.reader w)) : l'.reader = l.reader := by
  cases h with
  | readResponse k _ _ => exact absurd rfl ha
  | responseEof _ _ _ => exact absurd rfl ha
  | lookupNone header payload _ => exact absurd rfl ha
  | lookupSome header payload pending _ => exact absurd rfl ha
  | complete header payload taskId pending _ => exact absurd rfl ha
  | execute outcome header payload l' _ hexec =>
      obtain rfl | ⟨t, -, -, rfl⟩ := Link.execute_cases hexec
      · rfl
      · rfl
  | _ => rfl

variable [NeZero n] {s s' : State P n θ} {a : Action P n θ}

/-- A step of another thread leaves the handler that a reader is about to call. -/
theorem handler_of_effect (h : Effect s a s') (w : Fin n) (ha : a.party ≠ some (.reader w)) :
    (s'.link w).handler = (s.link w).handler := by
  have hsame : ∀ {v : Fin n} {b : LinkAction P θ} {l : Link P θ}, LinkEffect (s.link v) b l →
      (v = w → b.party w ≠ some (.reader w)) →
      (Function.update s.link v l w).handler = (s.link w).handler := by
    intro v b l hl hb
    by_cases hvw : v = w
    · subst hvw
      rw [Function.update_self, Link.handler, Link.handler, reader_of_linkEffect hl v (hb rfl)]
    · rw [Function.update_of_ne (Ne.symm hvw)]
  cases h with
  | lockWriteMutex t job state taskId v l _ hl => exact hsame hl (by simp [LinkAction.party])
  | writeFails t job state taskId v l _ hl => exact hsame hl (by simp [LinkAction.party])
  | returnFuture t job state taskId v l _ hl => exact hsame hl (by simp [LinkAction.party])
  | internal v b l _ hl =>
      refine hsame hl ?_
      rintro rfl
      exact ha
  | execute v outcome t header payload l _ _ hl => exact hsame hl (by simp [LinkAction.party])
  | kill v outcome header payload l _ _ hl => exact hsame hl (by simp [LinkAction.party])
  | crash v t header payload l _ _ hl => exact hsame hl (by simp [LinkAction.party])
  | lookup v header payload l _ hl =>
      refine hsame hl ?_
      rintro rfl
      exact ha
  | complete v handler l _ hl =>
      refine hsame hl ?_
      rintro rfl
      exact ha
  | lockStop v rest l _ hl => exact hsame hl (by simp [LinkAction.party])
  | stopFails v rest l _ hl => exact hsame hl (by simp [LinkAction.party])
  | unlockStop v rest l _ hl => exact hsame hl (by simp [LinkAction.party])
  | closeRequestFd v rest l _ hl => exact hsame hl (by simp [LinkAction.party])
  | closeResponseFd v rest l _ hl => exact hsame hl (by simp [LinkAction.party])
  | _ => rfl

/-- A step of another thread leaves `Shutdown` where it is. -/
theorem shutdown_of_effect (h : Effect s a s') (ha : a.party ≠ some .shutdown) :
    s'.shutdown = s.shutdown := by
  cases h <;> first | rfl | exact absurd rfl ha

/-- **A call of a handler that is due stays due**, whatever the other threads do. -/
theorem delivery_stable (h : Effect s a s') {b : Action P n θ} {p : Party n θ} {state : ℕ} {d : Delivery}
    (hb : b.delivery s = some (p, state, d)) (ha : a.party ≠ some p) :
    b.delivery s' = some (p, state, d) := by
  cases b with
  | complete w =>
      obtain ⟨handler, hh, heq⟩ := Option.map_eq_some_iff.1 hb
      have hp : p = .reader w := (congrArg Prod.fst heq).symm
      rw [Action.delivery, handler_of_effect h w (by rw [← hp]; exact ha)]
      exact hb
  | failPending taskId =>
      obtain ⟨pending, hlookup, heq⟩ := Option.map_eq_some_iff.1 hb
      have hp : p = .shutdown := (congrArg Prod.fst heq).symm
      rw [Action.delivery, shutdown_of_effect h (by rw [← hp]; exact ha)]
      exact hb
  | _ => cases hb

/-- The `Future`s that `Submit` has returned stay returned. -/
theorem mem_returned_of_effect (h : Effect s a s') {x : Job P × ℕ} (hx : x ∈ s.returned) :
    x ∈ s'.returned := by
  cases h with
  | returnFuture t job state taskId w l _ hl => exact List.mem_append_left _ hx
  | _ => exact hx

/-- Only the call of a handler changes a shared state. -/
theorem states_of_effect (h : Effect s a s') (hs : s.Sound) (ha : a.handles = false) :
    s'.states = s.states := by
  cases h with
  | makeState t job ht =>
      -- the new shared state has not been used before
      have hunnamed : ∀ i job, s.origin s.nextState ≠ .named i job := by
        intro i job hi
        have hne : s.routing.origin s.nextState ≠ .absent := by
          rw [show s.routing.origin = s.origin from rfl, hi]
          simp
        exact absurd (hs.named.origin_lt s.nextState hne) (lt_irrefl _)
      have hmake : s.states s.nextState = SharedState.make := hs.settled.unnamed _ hunnamed
      simp only [Ledger.makeState]
      rw [← hmake, Function.update_eq_self]
  | complete w handler l _ _ => cases ha
  | failPending taskId pending temp _ _ => cases ha
  | _ => rfl

end Frame

/-- The parent process: the pool, the shared states as monitors, and the shared state that each thread is
inside of. -/
structure Parent (P : Program τ) (n : ℕ) (θ : Type*) where
  pool : State P n θ
  future : ℕ → Monitor.State SharedState Delivery FutureQuery FutureAnswer (Party n θ)
  inside : Party n θ → Option ℕ

/-- The steps of the parent process. -/
inductive ParentAction (P : Program τ) (n : ℕ) (θ : Type*)
  /-- A step of the pool, other than the call of a handler. -/
  | pool (a : Action P n θ)
  /-- A thread of the program calls the `k`-th `Future` that `Submit` has returned. -/
  | call (t : θ) (k : ℕ) (c : FutureCall)
  /-- A thread of the pool calls a pending handler. -/
  | handle (a : Action P n θ)
  /-- The handler stores the result. -/
  | deliver (a : Action P n θ)
  /-- Any other step inside of a `Future` or a handler. -/
  | monitor (a : Monitor.Action Delivery FutureQuery (Party n θ))

/-- The step is inside of a call, and is not the store of a handler. -/
def inner : Monitor.Action Delivery FutureQuery (Party n θ) → Bool
  | .call _ _ | .update _ => false
  | _ => true

/-- The parent process before the first call of `Submit`. -/
def Parent.initial : Parent P n θ :=
  ⟨State.initial, fun _ => Monitor.State.initial sharedState, fun _ => none⟩

section Step

variable [DecidableEq θ]

/-- A thread has made a step inside of a shared state. -/
def Parent.advance (s : Parent P n θ) (state : ℕ) (p : Party n θ)
    (f : Monitor.State SharedState Delivery FutureQuery FutureAnswer (Party n θ)) : Parent P n θ :=
  { s with
    future := Function.update s.future state f
    inside := Function.update s.inside p
      (match f.pc p with
        | .idle => none
        | _ => some state) }

variable [NeZero n]

/-- The step function of the parent process. -/
def Parent.step (s : Parent P n θ) : ParentAction P n θ → Option (Parent P n θ)
  | .pool a =>
      if a.handles = false ∧ ∀ p ∈ a.party, s.inside p = none then
        ((ProcessPool.pool P n θ).step s.pool a).map fun q => { s with pool := q }
      else none
  | .call t k c =>
      match s.pool.returned[k]?, s.pool.thread t, s.inside (.program t) with
      | some (job, state), .idle, none =>
          (Monitor.step sharedState (s.future state)
            (.call (.program t) (c.ops (P.resultSize job.type)))).map (s.advance state (.program t))
      | _, _, _ => none
  | .handle a =>
      match a.delivery s.pool with
      | some (p, state, d) =>
          if s.inside p = none then
            (Monitor.step sharedState (s.future state) (.call p [.update d])).map (s.advance state p)
          else none
      | none => none
  | .deliver a =>
      match a.delivery s.pool with
      | some (p, state, _) =>
          if s.inside p = some state then
            ((ProcessPool.pool P n θ).step s.pool a).bind fun q =>
              (Monitor.step sharedState (s.future state) (.update p)).map fun f =>
                { s.advance state p f with pool := q }
          else none
      | none => none
  | .monitor a =>
      if inner a = true then
        (s.inside a.thread).bind fun state =>
          (Monitor.step sharedState (s.future state) a).map (s.advance state a.thread)
      else none

/-- The parent process. -/
def parent (P : Program τ) (n : ℕ) (θ : Type*) [DecidableEq θ] [NeZero n] :
    Automaton (Parent P n θ) (ParentAction P n θ) where
  init s := s = Parent.initial
  step := Parent.step

/-- The effects of a step of the parent process, one constructor for each. -/
inductive Parent.Effect (s : Parent P n θ) : ParentAction P n θ → Parent P n θ → Prop
  | pool (a : Action P n θ) (q : State P n θ) : a.handles = false →
      (∀ p ∈ a.party, s.inside p = none) → (ProcessPool.pool P n θ).step s.pool a = some q →
      Effect s (.pool a) { s with pool := q }
  | call (t : θ) (k : ℕ) (c : FutureCall) (job : Job P) (state : ℕ)
      (f : Monitor.State SharedState Delivery FutureQuery FutureAnswer (Party n θ)) :
      (job, state) ∈ s.pool.returned → s.inside (.program t) = none →
      Monitor.Effect sharedState (s.future state)
        (.call (.program t) (c.ops (P.resultSize job.type))) f →
      Effect s (.call t k c) (s.advance state (.program t) f)
  | handle (a : Action P n θ) (p : Party n θ) (state : ℕ) (d : Delivery)
      (f : Monitor.State SharedState Delivery FutureQuery FutureAnswer (Party n θ)) :
      a.delivery s.pool = some (p, state, d) → s.inside p = none →
      Monitor.Effect sharedState (s.future state) (.call p [.update d]) f →
      Effect s (.handle a) (s.advance state p f)
  | deliver (a : Action P n θ) (p : Party n θ) (state : ℕ) (d : Delivery) (q : State P n θ)
      (f : Monitor.State SharedState Delivery FutureQuery FutureAnswer (Party n θ)) :
      a.delivery s.pool = some (p, state, d) → s.inside p = some state →
      (ProcessPool.pool P n θ).step s.pool a = some q →
      Monitor.Effect sharedState (s.future state) (.update p) f →
      Effect s (.deliver a) { s.advance state p f with pool := q }
  | monitor (a : Monitor.Action Delivery FutureQuery (Party n θ)) (state : ℕ)
      (f : Monitor.State SharedState Delivery FutureQuery FutureAnswer (Party n θ)) : inner a = true →
      s.inside a.thread = some state → Monitor.Effect sharedState (s.future state) a f →
      Effect s (.monitor a) (s.advance state a.thread f)

/-- **Inversion of the step function.** -/
theorem Parent.effect_of_step {s s' : Parent P n θ} {a : ParentAction P n θ}
    (h : s.step a = some s') : s.Effect a s' := by
  cases a with
  | pool a =>
      simp only [Parent.step, Option.ite_none_right_eq_some] at h
      obtain ⟨⟨hhandles, hinside⟩, h⟩ := h
      obtain ⟨q, hq, rfl⟩ := Option.map_eq_some_iff.1 h
      exact Effect.pool a q hhandles hinside hq
  | call t k c =>
      simp only [Parent.step] at h
      split at h
      · next job state hk hidle hnone =>
          obtain ⟨f, hf, rfl⟩ := Option.map_eq_some_iff.1 h
          exact Effect.call t k c job state f (List.mem_of_getElem? hk) hnone (Monitor.effect_of_step hf)
      · cases h
  | handle a =>
      simp only [Parent.step] at h
      split at h
      · next p state d hd =>
          rw [Option.ite_none_right_eq_some] at h
          obtain ⟨hnone, h⟩ := h
          obtain ⟨f, hf, rfl⟩ := Option.map_eq_some_iff.1 h
          exact Effect.handle a p state d f hd hnone (Monitor.effect_of_step hf)
      · cases h
  | deliver a =>
      simp only [Parent.step] at h
      split at h
      · next p state d hd =>
          rw [Option.ite_none_right_eq_some] at h
          obtain ⟨hinside, h⟩ := h
          obtain ⟨q, hq, h⟩ := Option.bind_eq_some_iff.1 h
          obtain ⟨f, hf, rfl⟩ := Option.map_eq_some_iff.1 h
          exact Effect.deliver a p state d q f hd hinside hq (Monitor.effect_of_step hf)
      · cases h
  | monitor a =>
      simp only [Parent.step, Option.ite_none_right_eq_some] at h
      obtain ⟨hinner, h⟩ := h
      obtain ⟨state, hinside, h⟩ := Option.bind_eq_some_iff.1 h
      obtain ⟨f, hf, rfl⟩ := Option.map_eq_some_iff.1 h
      exact Effect.monitor a state f hinner hinside (Monitor.effect_of_step hf)

end Step

end ProcessPool
