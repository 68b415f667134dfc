/-
**The process pool of hw-6.**

Any number of threads call `Submit`, any of them may call `Shutdown`, every worker process runs
`WorkerLoop`, and a thread of the parent runs `ReaderLoop` for every worker.  The steps below are those
of the source: what is done under a mutex that no other step can observe is one step, and every `read`
and `write` moves a chunk of some bytes.

Main definitions:

* `ProcessPool.ShutdownPc` — the program points of `Shutdown`;
* `ProcessPool.State`, `ProcessPool.Action`, `ProcessPool.State.step` — the pool and its steps;
* `ProcessPool.system`, `ProcessPool.pool` — the automaton, without and with the assumption that ids do
  not wrap.

Main results:

* `ProcessPool.effect_of_step` — inversion of the step function.
-/

import CppMultithreaded.Automaton
import CppMultithreaded.PoolRouting
import Mathlib.Data.List.FinRange

set_option relaxedAutoImplicit false
set_option autoImplicit false

namespace ProcessPool

variable {τ θ : Type*} {P : Program τ} {n : ℕ}

/-! ### States -/

/-- The program points of `Shutdown`, after the call that has set `stopping_`; each loop has the
workers that are left. -/
inductive ShutdownPc (n : ℕ)
  | notStarted
  /-- About to lock the `write_mutex` of the first of the workers. -/
  | sendStop (rest : List (Fin n))
  /-- Writing the stop request. -/
  | writeStop (w : Fin n) (rest : List (Fin n))
  /-- About to join the reader of the first of the workers. -/
  | joinReaders (rest : List (Fin n))
  /-- About to close the request stream of the first of the workers. -/
  | closeRequest (rest : List (Fin n))
  /-- About to close the response stream. -/
  | closeResponse (w : Fin n) (rest : List (Fin n))
  /-- In `waitpid`. -/
  | waitpid (w : Fin n) (rest : List (Fin n))
  /-- In `FailAllPending`, about to swap the map. -/
  | swapPending
  /-- In `FailAllPending`, with the handlers that are left. -/
  | failPending (temp : AList fun _ : ℕ => Pending)
  | returned

/-- The handlers that `FailAllPending` has taken. -/
def ShutdownPc.draining : ShutdownPc n → AList fun _ : ℕ => Pending
  | .failPending temp => temp
  | _ => ∅

/-- The map has been swapped. -/
def ShutdownPc.swapped : ShutdownPc n → Bool
  | .failPending _ | .returned => true
  | _ => false

/-- The program point after a loop that is done. -/
def ShutdownPc.afterLoop : ShutdownPc n → Option (ShutdownPc n)
  | .sendStop [] => some (.joinReaders (List.finRange n))
  | .joinReaders [] => some (.closeRequest (List.finRange n))
  | .closeRequest [] => some .swapPending
  | .failPending temp => if temp.entries = [] then some .returned else none
  | _ => none

theorem ShutdownPc.afterLoop_cases {pc pc' : ShutdownPc n} (h : pc.afterLoop = some pc') :
    (pc = .sendStop [] ∧ pc' = .joinReaders (List.finRange n)) ∨
      (pc = .joinReaders [] ∧ pc' = .closeRequest (List.finRange n)) ∨
      (pc = .closeRequest [] ∧ pc' = .swapPending) ∨ (pc = .failPending ∅ ∧ pc' = .returned) := by
  cases pc with
  | sendStop rest => cases rest <;> simp_all [afterLoop]
  | joinReaders rest => cases rest <;> simp_all [afterLoop]
  | closeRequest rest => cases rest <;> simp_all [afterLoop]
  | failPending temp =>
      simp only [afterLoop, Option.ite_none_right_eq_some, Option.some.injEq] at h
      obtain ⟨hempty, rfl⟩ := h
      have htemp : temp = ∅ := AList.ext hempty
      simp [htemp]
  | _ => simp [afterLoop] at h

/-- A state of the pool. -/
structure State (P : Program τ) (n : ℕ) (θ : Type*) extends Ledger P n θ where
  link : Fin n → Link P θ
  shutdown : ShutdownPc n
  stopping : Bool
  nextWorker : ℕ

/-- A new pool. -/
def State.initial : State P n θ :=
  { toLedger := Ledger.initial, link := fun _ => Link.initial, shutdown := .notStarted
    stopping := false, nextWorker := 0 }

/-- The steps of the pool. -/
inductive Action (P : Program τ) (n : ℕ) (θ : Type*)
  /-- The steps of a thread in `Submit`. -/
  | makeState (t : θ) (job : Job P)
  | fetchTaskId (t : θ)
  | insertPending (t : θ)
  | chooseWorker (t : θ)
  | lockWriteMutex (t : θ)
  | writeFails (t : θ)
  | returnFuture (t : θ)
  /-- A step that moves bytes on a link, or ends a process or a thread. -/
  | link (w : Fin n) (a : LinkAction P θ)
  /-- The steps of `WorkerLoop` and `ReaderLoop` that call something. -/
  | execute (w : Fin n) (outcome : Outcome)
  | crash (w : Fin n)
  | lookup (w : Fin n)
  | complete (w : Fin n)
  /-- The steps of `Shutdown`. -/
  | shutdown
  | lockStop
  | stopFails
  | unlockStop
  | join
  | closeRequestFd
  | closeResponseFd
  | waitpid
  | nextLoop
  | swapPending
  | failPending (taskId : ℕ)

/-- The executor that the worker is about to call, and the header and the payload of the request. -/
def Link.running (l : Link P θ) : Option (τ × List UInt8 × List UInt8) :=
  match l.worker with
  | .execute header payload =>
      (P.executorAt (TaskHeader.ofBytes header).executor).map fun t => (t, header, payload)
  | _ => none

/-- The execution of a request, where `outcome` is how the call ends. -/
def Execution.ofRequest (P : Program τ) (w : Fin n) (t : τ) (header payload : List UInt8)
    (outcome : Outcome) : Execution n :=
  { worker := w
    taskId := (TaskHeader.ofBytes header).taskId
    called := (executeTyped (P.argSizes t) payload outcome).called
    response := some (answer P t header payload outcome) }

/-- The execution of a request that crashes. -/
def Execution.ofCrash (P : Program τ) (w : Fin n) (t : τ) (header payload : List UInt8) :
    Execution n :=
  { worker := w
    taskId := (TaskHeader.ofBytes header).taskId
    called := (readCall (P.argSizes t) payload).toOption
    response := none }

/-! ### Steps -/

section Step

variable [DecidableEq θ]

/-- A step of one of the links. -/
def State.onLink (s : State P n θ) (w : Fin n) (a : LinkAction P θ) : Option (State P n θ) :=
  ((s.link w).step a).map fun l => { s with link := Function.update s.link w l }

/-- The step function of the pool. -/
def State.step [NeZero n] (s : State P n θ) : Action P n θ → Option (State P n θ)
  | .makeState t job =>
      match s.thread t with
      | .idle => some { s with toLedger := s.makeState t job }
      | _ => none
  | .fetchTaskId t =>
      match s.thread t with
      | .fetchTaskId job state => some { s with toLedger := s.fetchTaskId t job state }
      | _ => none
  | .insertPending t =>
      match s.thread t with
      | .insertPending job state taskId =>
          some { s with toLedger := s.insertPending t job state taskId }
      | _ => none
  | .chooseWorker t =>
      match s.thread t with
      | .chooseWorker job state taskId =>
          if s.stopping = true then some { s with toLedger := s.goTo t .idle }
          else
            some { s with
              toLedger := s.goTo t (.lockWriteMutex job state taskId (Fin.ofNat n s.nextWorker))
              nextWorker := (s.nextWorker + 1) % 2 ^ 64 }
      | _ => none
  | .lockWriteMutex t =>
      match s.thread t with
      | .lockWriteMutex job state taskId w =>
          (s.onLink w (.lock (.submit t) (.run taskId job))).map fun s' =>
            { s' with toLedger := s.send t job state taskId w }
      | _ => none
  | .writeFails t =>
      match s.thread t with
      | .write _ _ _ w =>
          (s.onLink w (.writeFails (.submit t))).map fun s' => { s' with toLedger := s.goTo t .idle }
      | _ => none
  | .returnFuture t =>
      match s.thread t with
      | .write job state _ w =>
          (s.onLink w (.unlock (.submit t))).map fun s' =>
            { s' with toLedger := s.returnFuture t job state }
      | _ => none
  | .link w a => if a.internal = true then s.onLink w a else none
  | .execute w outcome =>
      match (s.link w).running with
      | some (t, header, payload) =>
          (s.onLink w (.execute outcome)).map fun s' =>
            { s' with toLedger := s.record (Execution.ofRequest P w t header payload outcome) }
      | none => s.onLink w (.execute outcome)
  | .crash w =>
      match (s.link w).running with
      | some (t, header, payload) =>
          (s.onLink w .crash).map fun s' =>
            { s' with toLedger := s.record (Execution.ofCrash P w t header payload) }
      | none => none
  | .lookup w =>
      match (s.link w).reader with
      | .lookup header _ =>
          let taskId := (ResultHeader.ofBytes header).taskId
          (s.onLink w (.lookup (s.pending.lookup taskId))).map fun s' =>
            { s' with toLedger := s.lookup w taskId }
      | _ => none
  | .complete w =>
      match (s.link w).handler with
      | some h => (s.onLink w .complete).map fun s' => { s' with toLedger := s.complete h }
      | none => none
  | .shutdown =>
      if s.stopping = true then some s
      else some { s with stopping := true, shutdown := .sendStop (List.finRange n) }
  | .lockStop =>
      match s.shutdown with
      | .sendStop (w :: rest) =>
          (s.onLink w (.lock .shutdown .stop)).map fun s' =>
            { s' with shutdown := .writeStop w rest }
      | _ => none
  | .stopFails =>
      match s.shutdown with
      | .writeStop w rest =>
          (s.onLink w (.writeFails .shutdown)).map fun s' => { s' with shutdown := .sendStop rest }
      | _ => none
  | .unlockStop =>
      match s.shutdown with
      | .writeStop w rest =>
          (s.onLink w (.unlock .shutdown)).map fun s' => { s' with shutdown := .sendStop rest }
      | _ => none
  | .join =>
      match s.shutdown with
      | .joinReaders (w :: rest) =>
          match (s.link w).reader with
          | .ended => some { s with shutdown := .joinReaders rest }
          | _ => none
      | _ => none
  | .closeRequestFd =>
      match s.shutdown with
      | .closeRequest (w :: rest) =>
          (s.onLink w .closeRequestFd).map fun s' => { s' with shutdown := .closeResponse w rest }
      | _ => none
  | .closeResponseFd =>
      match s.shutdown with
      | .closeResponse w rest =>
          (s.onLink w .closeResponseFd).map fun s' => { s' with shutdown := .waitpid w rest }
      | _ => none
  | .waitpid =>
      match s.shutdown with
      | .waitpid w rest =>
          match (s.link w).worker with
          | .gone => some { s with shutdown := .closeRequest rest }
          | _ => none
      | _ => none
  | .nextLoop => s.shutdown.afterLoop.map fun pc => { s with shutdown := pc }
  | .swapPending =>
      match s.shutdown with
      | .swapPending => some { s with toLedger := s.drain, shutdown := .failPending s.pending }
      | _ => none
  | .failPending taskId =>
      match s.shutdown with
      | .failPending temp =>
          (temp.lookup taskId).map fun p =>
            { s with toLedger := s.fail taskId p, shutdown := .failPending (temp.erase taskId) }
      | _ => none

/-- The pool. -/
def system (P : Program τ) (n : ℕ) (θ : Type*) [DecidableEq θ] [NeZero n] :
    Automaton (State P n θ) (Action P n θ) where
  init s := s = State.initial
  step := State.step

/-- The step does not make the ids wrap. -/
def Action.noWrap (s : State P n θ) : Action P n θ → Bool
  | .fetchTaskId _ => decide (s.nextTaskId + 1 < 2 ^ 64)
  | _ => true

/-- The step does not let a worker die. -/
def Action.noDeath : Action P n θ → Bool
  | .link _ .die => false
  | .crash _ => false
  | _ => true

/-- The pool, where ids do not wrap. -/
def pool (P : Program τ) (n : ℕ) (θ : Type*) [DecidableEq θ] [NeZero n] :
    Automaton (State P n θ) (Action P n θ) :=
  (system P n θ).restrict fun s a => a.noWrap s = true

/-! ### What a step can do -/

/-- The state with a link replaced. -/
def State.setLink (s : State P n θ) (w : Fin n) (l : Link P θ) : State P n θ :=
  { s with link := Function.update s.link w l }

/-- The effects of a step of the pool, one constructor for each. -/
inductive Effect [NeZero n] (s : State P n θ) : Action P n θ → State P n θ → Prop
  | makeState (t : θ) (job : Job P) : s.thread t = .idle →
      Effect s (.makeState t job) { s with toLedger := s.makeState t job }
  | fetchTaskId (t : θ) (job : Job P) (state : ℕ) : s.thread t = .fetchTaskId job state →
      Effect s (.fetchTaskId t) { s with toLedger := s.fetchTaskId t job state }
  | insertPending (t : θ) (job : Job P) (state taskId : ℕ) :
      s.thread t = .insertPending job state taskId →
      Effect s (.insertPending t) { s with toLedger := s.insertPending t job state taskId }
  | refuse (t : θ) (job : Job P) (state taskId : ℕ) : s.thread t = .chooseWorker job state taskId →
      s.stopping = true → Effect s (.chooseWorker t) { s with toLedger := s.goTo t .idle }
  | chooseWorker (t : θ) (job : Job P) (state taskId : ℕ) :
      s.thread t = .chooseWorker job state taskId → s.stopping = false →
      Effect s (.chooseWorker t) { s with
        toLedger := s.goTo t (.lockWriteMutex job state taskId (Fin.ofNat n s.nextWorker))
        nextWorker := (s.nextWorker + 1) % 2 ^ 64 }
  | lockWriteMutex (t : θ) (job : Job P) (state taskId : ℕ) (w : Fin n) (l : Link P θ) :
      s.thread t = .lockWriteMutex job state taskId w →
      LinkEffect (s.link w) (.lock (.submit t) (.run taskId job)) l →
      Effect s (.lockWriteMutex t)
        { s.setLink w l with toLedger := s.send t job state taskId w }
  | writeFails (t : θ) (job : Job P) (state taskId : ℕ) (w : Fin n) (l : Link P θ) :
      s.thread t = .write job state taskId w →
      LinkEffect (s.link w) (.writeFails (.submit t)) l →
      Effect s (.writeFails t) { s.setLink w l with toLedger := s.goTo t .idle }
  | returnFuture (t : θ) (job : Job P) (state taskId : ℕ) (w : Fin n) (l : Link P θ) :
      s.thread t = .write job state taskId w → LinkEffect (s.link w) (.unlock (.submit t)) l →
      Effect s (.returnFuture t) { s.setLink w l with toLedger := s.returnFuture t job state }
  | internal (w : Fin n) (a : LinkAction P θ) (l : Link P θ) : a.internal = true →
      LinkEffect (s.link w) a l → Effect s (.link w a) (s.setLink w l)
  | execute (w : Fin n) (outcome : Outcome) (t : τ) (header payload : List UInt8) (l : Link P θ) :
      (s.link w).worker = .execute header payload →
      P.executorAt (TaskHeader.ofBytes header).executor = some t →
      LinkEffect (s.link w) (.execute outcome) l →
      Effect s (.execute w outcome) { s.setLink w l with
        toLedger := s.record (Execution.ofRequest P w t header payload outcome) }
  | kill (w : Fin n) (outcome : Outcome) (header payload : List UInt8) (l : Link P θ) :
      (s.link w).worker = .execute header payload →
      P.executorAt (TaskHeader.ofBytes header).executor = none →
      LinkEffect (s.link w) (.execute outcome) l →
      Effect s (.execute w outcome) (s.setLink w l)
  | crash (w : Fin n) (t : τ) (header payload : List UInt8) (l : Link P θ) :
      (s.link w).worker = .execute header payload →
      P.executorAt (TaskHeader.ofBytes header).executor = some t →
      LinkEffect (s.link w) .crash l →
      Effect s (.crash w) { s.setLink w l with
        toLedger := s.record (Execution.ofCrash P w t header payload) }
  | lookup (w : Fin n) (header payload : List UInt8) (l : Link P θ) :
      (s.link w).reader = .lookup header payload →
      LinkEffect (s.link w) (.lookup (s.pending.lookup (ResultHeader.ofBytes header).taskId)) l →
      Effect s (.lookup w) { s.setLink w l with
        toLedger := s.lookup w (ResultHeader.ofBytes header).taskId }
  | complete (w : Fin n) (h : Handler) (l : Link P θ) : (s.link w).handler = some h →
      LinkEffect (s.link w) .complete l →
      Effect s (.complete w) { s.setLink w l with toLedger := s.complete h }
  | shutdown : s.stopping = false →
      Effect s .shutdown { s with stopping := true, shutdown := .sendStop (List.finRange n) }
  | shutdownAgain : s.stopping = true → Effect s .shutdown s
  | lockStop (w : Fin n) (rest : List (Fin n)) (l : Link P θ) :
      s.shutdown = .sendStop (w :: rest) → LinkEffect (s.link w) (.lock .shutdown .stop) l →
      Effect s .lockStop { s.setLink w l with shutdown := .writeStop w rest }
  | stopFails (w : Fin n) (rest : List (Fin n)) (l : Link P θ) :
      s.shutdown = .writeStop w rest → LinkEffect (s.link w) (.writeFails .shutdown) l →
      Effect s .stopFails { s.setLink w l with shutdown := .sendStop rest }
  | unlockStop (w : Fin n) (rest : List (Fin n)) (l : Link P θ) :
      s.shutdown = .writeStop w rest → LinkEffect (s.link w) (.unlock .shutdown) l →
      Effect s .unlockStop { s.setLink w l with shutdown := .sendStop rest }
  | join (w : Fin n) (rest : List (Fin n)) : s.shutdown = .joinReaders (w :: rest) →
      (s.link w).reader = .ended → Effect s .join { s with shutdown := .joinReaders rest }
  | closeRequestFd (w : Fin n) (rest : List (Fin n)) (l : Link P θ) :
      s.shutdown = .closeRequest (w :: rest) → LinkEffect (s.link w) .closeRequestFd l →
      Effect s .closeRequestFd { s.setLink w l with shutdown := .closeResponse w rest }
  | closeResponseFd (w : Fin n) (rest : List (Fin n)) (l : Link P θ) :
      s.shutdown = .closeResponse w rest → LinkEffect (s.link w) .closeResponseFd l →
      Effect s .closeResponseFd { s.setLink w l with shutdown := .waitpid w rest }
  | waitpid (w : Fin n) (rest : List (Fin n)) : s.shutdown = .waitpid w rest →
      (s.link w).worker = .gone → Effect s .waitpid { s with shutdown := .closeRequest rest }
  | nextLoop (pc : ShutdownPc n) : s.shutdown.afterLoop = some pc →
      Effect s .nextLoop { s with shutdown := pc }
  | swapPending : s.shutdown = .swapPending →
      Effect s .swapPending { s with toLedger := s.drain, shutdown := .failPending s.pending }
  | failPending (taskId : ℕ) (p : Pending) (temp : AList fun _ : ℕ => Pending) :
      s.shutdown = .failPending temp → temp.lookup taskId = some p →
      Effect s (.failPending taskId)
        { s with toLedger := s.fail taskId p, shutdown := .failPending (temp.erase taskId) }

/-- The step of the pool is the step of the link to `v`. -/
inductive Action.OnLink (s : State P n θ) (v : Fin n) : Action P n θ → LinkAction P θ → Prop
  | lockWriteMutex (t : θ) (job : Job P) (state taskId : ℕ) :
      s.thread t = .lockWriteMutex job state taskId v →
      OnLink s v (.lockWriteMutex t) (.lock (.submit t) (.run taskId job))
  | writeFails (t : θ) : OnLink s v (.writeFails t) (.writeFails (.submit t))
  | returnFuture (t : θ) : OnLink s v (.returnFuture t) (.unlock (.submit t))
  | internal (a : LinkAction P θ) : a.internal = true → OnLink s v (.link v a) a
  | execute (outcome : Outcome) : OnLink s v (.execute v outcome) (.execute outcome)
  | crash : OnLink s v (.crash v) .crash
  | lookup (found : Option Pending) : OnLink s v (.lookup v) (.lookup found)
  | complete : OnLink s v (.complete v) .complete
  | lockStop : OnLink s v .lockStop (.lock .shutdown .stop)
  | stopFails : OnLink s v .stopFails (.writeFails .shutdown)
  | unlockStop : OnLink s v .unlockStop (.unlock .shutdown)
  | closeRequestFd : OnLink s v .closeRequestFd .closeRequestFd
  | closeResponseFd : OnLink s v .closeResponseFd .closeResponseFd

/-- A step changes a link by a step of the link. -/
theorem Effect.link [NeZero n] {s s' : State P n θ} {a : Action P n θ} (h : Effect s a s')
    (v : Fin n) :
    s'.link v = s.link v ∨ ∃ b, a.OnLink s v b ∧ LinkEffect (s.link v) b (s'.link v) := by
  have hset : ∀ {w : Fin n} {b : LinkAction P θ} {l : Link P θ}, a.OnLink s w b →
      LinkEffect (s.link w) b l → Function.update s.link w l v = s.link v ∨
        ∃ b, a.OnLink s v b ∧ LinkEffect (s.link v) b (Function.update s.link w l v) := by
    intro w b l hb hl
    rcases eq_or_ne v w with rfl | hne
    · rw [Function.update_self]
      exact Or.inr ⟨b, hb, hl⟩
    · rw [Function.update_of_ne hne]
      exact Or.inl rfl
  cases h with
  | lockWriteMutex t job state taskId w l ht hl =>
      exact hset (.lockWriteMutex t job state taskId ht) hl
  | writeFails t job state taskId w l _ hl => exact hset (.writeFails t) hl
  | returnFuture t job state taskId w l _ hl => exact hset (.returnFuture t) hl
  | internal w a l ha hl => exact hset (.internal a ha) hl
  | execute w outcome t header payload l _ _ hl => exact hset (.execute outcome) hl
  | kill w outcome header payload l _ _ hl => exact hset (.execute outcome) hl
  | crash w t header payload l _ _ hl => exact hset .crash hl
  | lookup w header payload l _ hl => exact hset (.lookup _) hl
  | complete w handler l _ hl => exact hset .complete hl
  | lockStop w rest l _ hl => exact hset .lockStop hl
  | stopFails w rest l _ hl => exact hset .stopFails hl
  | unlockStop w rest l _ hl => exact hset .unlockStop hl
  | closeRequestFd w rest l _ hl => exact hset .closeRequestFd hl
  | closeResponseFd w rest l _ hl => exact hset .closeResponseFd hl
  | _ => exact Or.inl rfl

theorem effect_of_onLink {s s' : State P n θ} {w : Fin n} {a : LinkAction P θ}
    (h : s.onLink w a = some s') : ∃ l, LinkEffect (s.link w) a l ∧ s' = s.setLink w l := by
  obtain ⟨l, hl, rfl⟩ := Option.map_eq_some_iff.1 h
  exact ⟨l, effect_of_linkStep hl, rfl⟩

theorem effect_of_onLink_map {s s' : State P n θ} {w : Fin n} {a : LinkAction P θ}
    {f : State P n θ → State P n θ} (h : (s.onLink w a).map f = some s') :
    ∃ l, LinkEffect (s.link w) a l ∧ s' = f (s.setLink w l) := by
  obtain ⟨t, ht, rfl⟩ := Option.map_eq_some_iff.1 h
  obtain ⟨l, hl, rfl⟩ := effect_of_onLink ht
  exact ⟨l, hl, rfl⟩

omit [DecidableEq θ] in
theorem running_eq_some {l : Link P θ} {t : τ} {header payload : List UInt8}
    (h : l.running = some (t, header, payload)) : l.worker = .execute header payload ∧
      P.executorAt (TaskHeader.ofBytes header).executor = some t := by
  cases hw : l.worker with
  | execute header' payload' =>
      simp only [Link.running, hw, Option.map_eq_some_iff, Prod.mk.injEq] at h
      obtain ⟨t', ht, rfl, rfl, rfl⟩ := h
      exact ⟨rfl, ht⟩
  | _ => simp [Link.running, hw] at h

/-- **Inversion of the step function.** -/
theorem effect_of_step [NeZero n] {s s' : State P n θ} {a : Action P n θ}
    (h : s.step a = some s') : Effect s a s' := by
  cases a with
  | makeState t job =>
      cases ht : s.thread t with
      | idle =>
          simp only [State.step, ht, Option.some.injEq] at h
          subst h
          exact Effect.makeState t job ht
      | _ => simp [State.step, ht] at h
  | fetchTaskId t =>
      cases ht : s.thread t with
      | fetchTaskId job state =>
          simp only [State.step, ht, Option.some.injEq] at h
          subst h
          exact Effect.fetchTaskId t job state ht
      | _ => simp [State.step, ht] at h
  | insertPending t =>
      cases ht : s.thread t with
      | insertPending job state taskId =>
          simp only [State.step, ht, Option.some.injEq] at h
          subst h
          exact Effect.insertPending t job state taskId ht
      | _ => simp [State.step, ht] at h
  | chooseWorker t =>
      cases ht : s.thread t with
      | chooseWorker job state taskId =>
          simp only [State.step, ht] at h
          split_ifs at h with hstop
          · rw [← Option.some.inj h]
            exact Effect.refuse t job state taskId ht hstop
          · rw [← Option.some.inj h]
            exact Effect.chooseWorker t job state taskId ht (by simpa using hstop)
      | _ => simp [State.step, ht] at h
  | lockWriteMutex t =>
      cases ht : s.thread t with
      | lockWriteMutex job state taskId w =>
          simp only [State.step, ht] at h
          obtain ⟨l, hl, rfl⟩ := effect_of_onLink_map h
          exact Effect.lockWriteMutex t job state taskId w l ht hl
      | _ => simp [State.step, ht] at h
  | writeFails t =>
      cases ht : s.thread t with
      | write job state taskId w =>
          simp only [State.step, ht] at h
          obtain ⟨l, hl, rfl⟩ := effect_of_onLink_map h
          exact Effect.writeFails t job state taskId w l ht hl
      | _ => simp [State.step, ht] at h
  | returnFuture t =>
      cases ht : s.thread t with
      | write job state taskId w =>
          simp only [State.step, ht] at h
          obtain ⟨l, hl, rfl⟩ := effect_of_onLink_map h
          exact Effect.returnFuture t job state taskId w l ht hl
      | _ => simp [State.step, ht] at h
  | link w a =>
      simp only [State.step, Option.ite_none_right_eq_some] at h
      obtain ⟨hinternal, h⟩ := h
      obtain ⟨l, hl, rfl⟩ := effect_of_onLink h
      exact Effect.internal w a l hinternal hl
  | execute w outcome =>
      cases hr : (s.link w).running with
      | some r =>
          obtain ⟨t, header, payload⟩ := r
          obtain ⟨hw, ht⟩ := running_eq_some hr
          simp only [State.step, hr] at h
          obtain ⟨l, hl, rfl⟩ := effect_of_onLink_map h
          exact Effect.execute w outcome t header payload l hw ht hl
      | none =>
          simp only [State.step, hr] at h
          obtain ⟨l, hl, rfl⟩ := effect_of_onLink h
          have hl' := hl
          cases hl' with
          | execute _ header payload _ hw _ =>
              refine Effect.kill w outcome header payload l hw ?_ hl
              simpa [Link.running, hw] using hr
  | crash w =>
      cases hr : (s.link w).running with
      | some r =>
          obtain ⟨t, header, payload⟩ := r
          obtain ⟨hw, ht⟩ := running_eq_some hr
          simp only [State.step, hr] at h
          obtain ⟨l, hl, rfl⟩ := effect_of_onLink_map h
          exact Effect.crash w t header payload l hw ht hl
      | none => simp [State.step, hr] at h
  | lookup w =>
      cases hr : (s.link w).reader with
      | lookup header payload =>
          simp only [State.step, hr] at h
          obtain ⟨l, hl, rfl⟩ := effect_of_onLink_map h
          exact Effect.lookup w header payload l hr hl
      | _ => simp [State.step, hr] at h
  | complete w =>
      cases hh : (s.link w).handler with
      | some handler =>
          simp only [State.step, hh] at h
          obtain ⟨l, hl, rfl⟩ := effect_of_onLink_map h
          exact Effect.complete w handler l hh hl
      | none => simp [State.step, hh] at h
  | shutdown =>
      simp only [State.step] at h
      split_ifs at h with hstop
      · rw [← Option.some.inj h]
        exact Effect.shutdownAgain hstop
      · rw [← Option.some.inj h]
        exact Effect.shutdown (by simpa using hstop)
  | lockStop =>
      cases hpc : s.shutdown with
      | sendStop todo =>
          cases todo with
          | nil => simp [State.step, hpc] at h
          | cons w rest =>
              simp only [State.step, hpc] at h
              obtain ⟨l, hl, rfl⟩ := effect_of_onLink_map h
              exact Effect.lockStop w rest l hpc hl
      | _ => simp [State.step, hpc] at h
  | stopFails =>
      cases hpc : s.shutdown with
      | writeStop w rest =>
          simp only [State.step, hpc] at h
          obtain ⟨l, hl, rfl⟩ := effect_of_onLink_map h
          exact Effect.stopFails w rest l hpc hl
      | _ => simp [State.step, hpc] at h
  | unlockStop =>
      cases hpc : s.shutdown with
      | writeStop w rest =>
          simp only [State.step, hpc] at h
          obtain ⟨l, hl, rfl⟩ := effect_of_onLink_map h
          exact Effect.unlockStop w rest l hpc hl
      | _ => simp [State.step, hpc] at h
  | join =>
      cases hpc : s.shutdown with
      | joinReaders todo =>
          cases todo with
          | nil => simp [State.step, hpc] at h
          | cons w rest =>
              cases hr : (s.link w).reader with
              | ended =>
                  simp only [State.step, hpc, hr, Option.some.injEq] at h
                  subst h
                  exact Effect.join w rest hpc hr
              | _ => simp [State.step, hpc, hr] at h
      | _ => simp [State.step, hpc] at h
  | closeRequestFd =>
      cases hpc : s.shutdown with
      | closeRequest todo =>
          cases todo with
          | nil => simp [State.step, hpc] at h
          | cons w rest =>
              simp only [State.step, hpc] at h
              obtain ⟨l, hl, rfl⟩ := effect_of_onLink_map h
              exact Effect.closeRequestFd w rest l hpc hl
      | _ => simp [State.step, hpc] at h
  | closeResponseFd =>
      cases hpc : s.shutdown with
      | closeResponse w rest =>
          simp only [State.step, hpc] at h
          obtain ⟨l, hl, rfl⟩ := effect_of_onLink_map h
          exact Effect.closeResponseFd w rest l hpc hl
      | _ => simp [State.step, hpc] at h
  | waitpid =>
      cases hpc : s.shutdown with
      | waitpid w rest =>
          cases hw : (s.link w).worker with
          | gone =>
              simp only [State.step, hpc, hw, Option.some.injEq] at h
              subst h
              exact Effect.waitpid w rest hpc hw
          | _ => simp [State.step, hpc, hw] at h
      | _ => simp [State.step, hpc] at h
  | nextLoop =>
      obtain ⟨pc, hpc, rfl⟩ := Option.map_eq_some_iff.1 h
      exact Effect.nextLoop pc hpc
  | swapPending =>
      cases hpc : s.shutdown with
      | swapPending =>
          simp only [State.step, hpc, Option.some.injEq] at h
          subst h
          exact Effect.swapPending hpc
      | _ => simp [State.step, hpc] at h
  | failPending taskId =>
      cases hpc : s.shutdown with
      | failPending temp =>
          simp only [State.step, hpc] at h
          obtain ⟨p, hp, rfl⟩ := Option.map_eq_some_iff.1 h
          exact Effect.failPending taskId p temp hpc hp
      | _ => simp [State.step, hpc] at h

end Step

end ProcessPool
