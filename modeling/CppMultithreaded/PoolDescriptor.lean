/-
**The descriptors of the process pool.**

`Shutdown` closes the `request_fd` of a worker after it has joined the readers, without `write_mutex`.
A call of `Submit` that has passed the check of `stopping_` reads `request_fd` when it calls
`WriteExact`, which then makes its `write` calls with that number.  So a call may use a number that
has been closed, and that stands for another file in the meantime.

The state is that of the pool together with the descriptor table of the parent process, in which the
rest of the process opens and closes files.

Main definitions:

* `ProcessPool.File`, `ProcessPool.Descriptors`, `ProcessPool.Descriptors.step` — the descriptor table,
  the pool with it, and its steps;
* `ProcessPool.State.Pending` — a call of `Submit` has still something to write to a worker;
* `ProcessPool.quietDescriptors` — `Shutdown` closes a descriptor only when no call has something to
  write to it;
* `ProcessPool.Descriptors.Table` — the invariant of the descriptor table.

Main results:

* `ProcessPool.Descriptors.Table.step` — every step keeps the invariant;
* `ProcessPool.calls_open_iff`, `ProcessPool.late_calls` — a `write` call uses the stream of its worker
  as long as `Shutdown` has not closed it, and never afterwards;
* `ProcessPool.submit_writes_to_its_worker` — **where no descriptor is closed too early, every `write`
  call of `Submit` uses the open descriptor of its worker**;
* `ProcessPool.quietSimulation` — such a run is one of the pool;
* `ProcessPool.closed_descriptor_reused` — a request that goes to another file.
-/

import CppMultithreaded.PoolShutdown

set_option relaxedAutoImplicit false
set_option autoImplicit false

namespace ProcessPool

variable {τ θ : Type*} {P : Program τ} {n : ℕ}

/-! ### The descriptor table -/

/-- What a descriptor number of the parent process stands for. -/
inductive File (n : ℕ)
  | closed
  /-- The stream of the requests to a worker. -/
  | request (w : Fin n)
  /-- The stream of the responses of a worker. -/
  | response (w : Fin n)
  | other
  deriving DecidableEq

/-- The pool with the descriptor table of the parent process. -/
structure Descriptors (P : Program τ) (n : ℕ) (θ : Type*) where
  pool : State P n θ
  /-- The fields `request_fd` and `response_fd` of the workers. -/
  requestFd : Fin n → ℤ
  responseFd : Fin n → ℤ
  file : ℤ → File n
  /-- The argument `fd` of the `WriteExact` that a call of `Submit` is in. -/
  writing : θ → Option ℤ
  /-- The worker whose `request_fd` has been closed and not yet been set to −1. -/
  assigning : Option (Fin n)
  /-- The bytes that calls of `Submit` have written to other files. -/
  stray : List UInt8

/-- The pool after its constructor, in a process that may have other files open. -/
structure Descriptors.Initial (s : Descriptors P n θ) : Prop where
  pool : s.pool = State.initial
  request : ∀ w fd, s.file fd = .request w ↔ s.requestFd w = fd
  response : ∀ w fd, s.file fd = .response w ↔ s.responseFd w = fd
  nonneg : ∀ fd, s.file fd ≠ .closed → 0 ≤ fd
  writing : ∀ t, s.writing t = none
  assigning : s.assigning = none
  stray : s.stray = []

/-- The steps of the pool with its descriptors. -/
inductive DescriptorAction (P : Program τ) (n : ℕ) (θ : Type*)
  /-- A step of the pool that is none of those below. -/
  | pool (a : Action P n θ)
  /-- A thread in `Submit` calls `WriteExact` with the value that `request_fd` has now. -/
  | callWriteExact (t : θ)
  /-- A `write` call of a thread in `Submit` writes `k` bytes. -/
  | write (t : θ) (k : ℕ)
  /-- A `write` call of a thread in `Submit` fails, and `WriteExact` throws. -/
  | writeFails (t : θ)
  /-- The steps of `Shutdown` on the descriptors of a worker. -/
  | closeRequestFd
  | assignRequestFd
  | closeResponseFd
  /-- The rest of the process opens a file under a number that is free, or closes one. -/
  | openFile (fd : ℕ)
  | closeFile (fd : ℕ)

/-- The steps of the pool that use no descriptor, or one that nobody else can close. -/
def Action.plain : Action P n θ → Bool
  | .link _ (.write (.submit _) _) | .writeFails _ | .closeRequestFd | .closeResponseFd => false
  | _ => true

/-! ### Steps -/

section Step

variable [DecidableEq θ]

/-- The number of buffers that the holder of `write_mutex` has still to write. -/
def Link.buffersLeft (l : Link P θ) (o : Owner θ) : ℕ :=
  match l.writeMutex with
  | some (o', _, todo) => if o' = o then todo.length else 0
  | none => 0

/-- The holder of `write_mutex` writes `k` bytes to another file: the chunk, and the link then. -/
def Link.misdirect (l : Link P θ) (o : Owner θ) (k : ℕ) : Option (List UInt8 × Link P θ) :=
  match l.writeMutex with
  | some (o', f, todo) =>
      if o' = o then
        (Framing.writeSome k todo).map fun (chunk, todo') =>
          (chunk, { l with writeMutex := some (o, f, todo'), dropped := l.dropped ++ chunk })
      else none
  | none => none

/-- The argument of `WriteExact` after a `write` call, when the holder of the mutex had `k` buffers left
before it: the call of `WriteExact` returns with the last byte of a buffer. -/
def Link.stillWriting (l : Link P θ) (o : Owner θ) (k : ℕ) (fd : ℤ) : Option ℤ :=
  if l.buffersLeft o = k then some fd else none

/-- The step function of the pool with its descriptors. -/
def Descriptors.step [NeZero n] (s : Descriptors P n θ) :
    DescriptorAction P n θ → Option (Descriptors P n θ)
  | .pool a => if a.plain = true then (s.pool.step a).map fun p => { s with pool := p } else none
  | .callWriteExact t =>
      match s.pool.thread t, s.writing t with
      | .write _ _ _ w, none =>
          if 0 < (s.pool.link w).buffersLeft (.submit t) then
            some { s with writing := Function.update s.writing t (some (s.requestFd w)) }
          else none
      | _, _ => none
  | .write t k =>
      match s.pool.thread t, s.writing t with
      | .write _ _ _ w, some fd =>
          let left := (s.pool.link w).buffersLeft (.submit t)
          if s.file fd = .request w then
            (s.pool.step (.link w (.write (.submit t) k))).map fun p =>
              { s with
                pool := p
                writing := Function.update s.writing t
                  ((p.link w).stillWriting (.submit t) left fd) }
          else if s.file fd = .closed then none
          else
            ((s.pool.link w).misdirect (.submit t) k).map fun (chunk, l) =>
              { s with
                pool := s.pool.setLink w l
                writing := Function.update s.writing t (l.stillWriting (.submit t) left fd)
                stray := s.stray ++ chunk }
      | _, _ => none
  | .writeFails t =>
      match s.writing t with
      | some _ => (s.pool.step (.writeFails t)).map fun p =>
          { s with pool := p, writing := Function.update s.writing t none }
      | none => none
  | .closeRequestFd =>
      match s.pool.shutdown with
      | .closeRequest (w :: _) => (s.pool.step .closeRequestFd).map fun p =>
          if 0 ≤ s.requestFd w then
            { s with
              pool := p
              file := Function.update s.file (s.requestFd w) .closed
              assigning := some w }
          else { s with pool := p }
      | _ => none
  | .assignRequestFd =>
      s.assigning.map fun w =>
        { s with requestFd := Function.update s.requestFd w (-1), assigning := none }
  | .closeResponseFd =>
      match s.pool.shutdown, s.assigning with
      | .closeResponse w _, none => (s.pool.step .closeResponseFd).map fun p =>
          if 0 ≤ s.responseFd w then
            { s with
              pool := p
              file := Function.update s.file (s.responseFd w) .closed
              responseFd := Function.update s.responseFd w (-1) }
          else { s with pool := p }
      | _, _ => none
  | .openFile fd =>
      if s.file fd = .closed then some { s with file := Function.update s.file fd .other } else none
  | .closeFile fd =>
      if s.file fd = .other then some { s with file := Function.update s.file fd .closed } else none

/-- The pool with the descriptor table. -/
def descriptors (P : Program τ) (n : ℕ) (θ : Type*) [DecidableEq θ] [NeZero n] :
    Automaton (Descriptors P n θ) (DescriptorAction P n θ) where
  init := Descriptors.Initial
  step := Descriptors.step

/-- The call of `Submit` in a thread has chosen the worker, and has still something to write to it. -/
def State.Pending (s : State P n θ) (t : θ) (w : Fin n) : Prop :=
  (∃ job state taskId, s.thread t = .lockWriteMutex job state taskId w) ∨
    0 < (s.link w).buffersLeft (.submit t)

/-- `Shutdown` closes the descriptor of a worker only when no call of `Submit` has something to write
to it. -/
def DescriptorAction.Quiet (s : Descriptors P n θ) : DescriptorAction P n θ → Prop
  | .closeRequestFd => ∀ w rest, s.pool.shutdown = .closeRequest (w :: rest) →
      ∀ t, ¬ s.pool.Pending t w
  | _ => True

noncomputable instance (s : Descriptors P n θ) (a : DescriptorAction P n θ) :
    Decidable (a.Quiet s) :=
  Classical.propDecidable _

/-- The pool with the descriptor table, where `Shutdown` does not close descriptors too early. -/
noncomputable def quietDescriptors (P : Program τ) (n : ℕ) (θ : Type*) [DecidableEq θ] [NeZero n] :
    Automaton (Descriptors P n θ) (DescriptorAction P n θ) :=
  (descriptors P n θ).restrict fun s a => a.Quiet s

end Step

/-- A thread in `Submit` that has chosen the worker `w` is about to make a `write` call on `fd`. -/
def Descriptors.Calls (s : Descriptors P n θ) (t : θ) (w : Fin n) (fd : ℤ) : Prop :=
  s.writing t = some fd ∧ ∃ job state taskId, s.pool.thread t = .write job state taskId w

/-! ### What the steps of the pool leave alone -/

section Frame

variable [DecidableEq θ]

/-- The thread that holds or takes `write_mutex` in a step of a link. -/
def LinkAction.owner? : LinkAction P θ → Option (Owner θ)
  | .lock o _ | .write o _ | .writeFails o => some o
  | _ => none

omit [DecidableEq θ] in
theorem requestFd_of_effect {l l' : Link P θ} {a : LinkAction P θ} (he : LinkEffect l a l')
    (ha : a ≠ .closeRequestFd) : l'.requestFd = l.requestFd := by
  cases he with
  | execute outcome header payload l' _ hl =>
      unfold Link.execute at hl
      split at hl
      · obtain rfl := Option.some.inj hl
        rfl
      · split_ifs at hl
        obtain rfl := Option.some.inj hl
        rfl
  | closeRequestFd => exact absurd rfl ha
  | _ => rfl

/-- The buffers of an owner are kept everywhere, when they are kept in the link that changes. -/
theorem buffersLeft_update {link : Fin n → Link P θ} {w : Fin n} {l : Link P θ} {o : Owner θ}
    (h : l.buffersLeft o = (link w).buffersLeft o) (v : Fin n) :
    (Function.update link w l v).buffersLeft o = (link v).buffersLeft o :=
  apply_update_eq (fun l : Link P θ => l.buffersLeft o) h v

/-- The buffers of a thread are left alone by the steps of the others, and by the unlocking. -/
theorem buffersLeft_of_effect {l l' : Link P θ} {a : LinkAction P θ} {o : Owner θ}
    (he : LinkEffect l a l') (ho : a.owner? ≠ some o) : l'.buffersLeft o = l.buffersLeft o := by
  cases he with
  | lock o' f hm =>
      have hne : o' ≠ o := fun h => ho (by rw [h]; rfl)
      simp [Link.buffersLeft, hm, hne]
  | write o' k f todo todo' chunk hm _ _ =>
      have hne : o' ≠ o := fun h => ho (by rw [h]; rfl)
      simp [Link.buffersLeft, hm, hne]
  | writeFails o' f todo hm _ _ =>
      have hne : o' ≠ o := fun h => ho (by rw [h]; rfl)
      simp [Link.buffersLeft, hm, hne]
  | unlock o' f hm => simp [Link.buffersLeft, hm]
  | execute outcome header payload l' _ hl =>
      unfold Link.execute at hl
      split at hl
      · obtain rfl := Option.some.inj hl
        rfl
      · split_ifs at hl
        obtain rfl := Option.some.inj hl
        rfl
  | _ => rfl

variable [NeZero n] {s s' : State P n θ} {a : Action P n θ}

/-- A plain step leaves the descriptors of the workers alone, and the buffers of the threads, except
that a thread may lock the mutex of the worker that it has chosen. -/
theorem link_of_plain (he : Effect s a s') (ha : a.plain = true) (v : Fin n) :
    (s'.link v).requestFd = (s.link v).requestFd ∧
      ∀ t, (s'.link v).buffersLeft (.submit t) = (s.link v).buffersLeft (.submit t) ∨
        ∃ job state taskId, s.thread t = .lockWriteMutex job state taskId v := by
  have hset : ∀ {w : Fin n} {b : LinkAction P θ} {l : Link P θ}, LinkEffect (s.link w) b l →
      b ≠ .closeRequestFd → (∀ t, b.owner? = some (.submit t) →
        ∃ job state taskId, s.thread t = .lockWriteMutex job state taskId w) →
      (Function.update s.link w l v).requestFd = (s.link v).requestFd ∧
        ∀ t, (Function.update s.link w l v).buffersLeft (.submit t) =
          (s.link v).buffersLeft (.submit t) ∨
          ∃ job state taskId, s.thread t = .lockWriteMutex job state taskId v := by
    intro w b l hl hclose howner
    rcases eq_or_ne v w with rfl | hne
    · rw [Function.update_self]
      refine ⟨requestFd_of_effect hl hclose, fun t => ?_⟩
      by_cases ho : b.owner? = some (.submit t)
      · exact Or.inr (howner t ho)
      · exact Or.inl (buffersLeft_of_effect hl ho)
    · rw [Function.update_of_ne hne]
      exact ⟨rfl, fun _ => Or.inl rfl⟩
  cases he with
  | lockWriteMutex u job state taskId w l hu hl =>
      refine hset hl (by simp) fun t ho => ?_
      obtain rfl : u = t := by simpa [LinkAction.owner?] using ho
      exact ⟨job, state, taskId, hu⟩
  | returnFuture u job state taskId w l _ hl => exact hset hl (by simp) (by simp [LinkAction.owner?])
  | internal w b l hb hl =>
      refine hset hl ?_ fun t ho => ?_
      · rintro rfl
        simp [LinkAction.internal] at hb
      · -- the only internal step that a thread makes is a `write`, which is not plain
        cases b with
        | write o k =>
            obtain rfl : o = .submit t := by simpa [LinkAction.owner?] using ho
            simp [Action.plain] at ha
        | lock o f => simp [LinkAction.internal] at hb
        | writeFails o => simp [LinkAction.internal] at hb
        | _ => simp [LinkAction.owner?] at ho
  | execute w outcome u header payload l _ _ hl =>
      exact hset hl (by simp) (by simp [LinkAction.owner?])
  | kill w outcome header payload l _ _ hl =>
      exact hset hl (by simp) (by simp [LinkAction.owner?])
  | crash w u header payload l _ _ hl => exact hset hl (by simp) (by simp [LinkAction.owner?])
  | lookup w header payload l _ hl => exact hset hl (by simp) (by simp [LinkAction.owner?])
  | complete w handler l _ hl => exact hset hl (by simp) (by simp [LinkAction.owner?])
  | lockStop w rest l _ hl => exact hset hl (by simp) (by simp [LinkAction.owner?])
  | stopFails w rest l _ hl => exact hset hl (by simp) (by simp [LinkAction.owner?])
  | unlockStop w rest l _ hl => exact hset hl (by simp) (by simp [LinkAction.owner?])
  | writeFails t job state taskId w l _ hl => simp [Action.plain] at ha
  | closeRequestFd w rest l _ hl => simp [Action.plain] at ha
  | closeResponseFd w rest l _ hl => simp [Action.plain] at ha
  | _ => exact ⟨rfl, fun _ => Or.inl rfl⟩

/-- A thread that has something to write stays where it is, in the plain steps. -/
theorem thread_of_plain (he : Effect s a s') (ha : a.plain = true) {t : θ} {job : Job P}
    {state taskId : ℕ} {w : Fin n} (ht : s.thread t = .write job state taskId w)
    (hleft : 0 < (s.link w).buffersLeft (.submit t)) : s'.thread t = .write job state taskId w := by
  have hother : ∀ {u : θ} {pc : SubmitPc P n}, s.thread u ≠ s.thread t →
      Function.update s.thread u pc t = .write job state taskId w := by
    intro u pc hne
    rw [Function.update_of_ne (fun h => hne (by rw [h]))]
    exact ht
  cases he with
  | makeState u job' hu => exact hother (by rw [hu, ht]; simp)
  | fetchTaskId u job' state' hu => exact hother (by rw [hu, ht]; simp)
  | insertPending u job' state' taskId' hu => exact hother (by rw [hu, ht]; simp)
  | refuse u job' state' taskId' hu _ => exact hother (by rw [hu, ht]; simp)
  | chooseWorker u job' state' taskId' hu _ => exact hother (by rw [hu, ht]; simp)
  | lockWriteMutex u job' state' taskId' w' l hu _ => exact hother (by rw [hu, ht]; simp)
  | returnFuture u job' state' taskId' w' l hu hl =>
      by_cases hut : u = t
      · -- the thread would have written everything
        subst hut
        rw [ht] at hu
        obtain ⟨rfl, rfl, rfl, rfl⟩ := SubmitPc.write.inj hu
        cases hl with
        | unlock o f hm => simp [Link.buffersLeft, hm] at hleft
      · simp only [Ledger.returnFuture]
        rw [Function.update_of_ne (Ne.symm hut)]
        exact ht
  | writeFails u job' state' taskId' w' l _ _ => simp [Action.plain] at ha
  | _ => exact ht

/-- Only the choice of a worker, before `Shutdown` has begun, brings a call to `write_mutex`. -/
theorem chosen_of_effect (he : Effect s a s') {t : θ} {job : Job P} {state taskId : ℕ} {w : Fin n}
    (ht : s'.thread t = .lockWriteMutex job state taskId w) :
    s.thread t = .lockWriteMutex job state taskId w ∨ s.stopping = false := by
  have hother : ∀ {u : θ} {pc : SubmitPc P n},
      Function.update s.thread u pc t = .lockWriteMutex job state taskId w →
      pc ≠ .lockWriteMutex job state taskId w → s.thread t = .lockWriteMutex job state taskId w := by
    intro u pc hu hne
    exact (of_update_apply_ne hu hne.symm).1
  cases he with
  | makeState u job' _ => exact Or.inl (hother ht (by simp))
  | fetchTaskId u job' state' _ => exact Or.inl (hother ht (by simp))
  | insertPending u job' state' taskId' _ => exact Or.inl (hother ht (by simp))
  | refuse u job' state' taskId' _ _ => exact Or.inl (hother ht (by simp))
  | chooseWorker u job' state' taskId' _ hstop => exact Or.inr hstop
  | lockWriteMutex u job' state' taskId' w' l _ _ => exact Or.inl (hother ht (by simp))
  | writeFails u job' state' taskId' w' l _ _ => exact Or.inl (hother ht (by simp))
  | returnFuture u job' state' taskId' w' l _ _ => exact Or.inl (hother ht (by simp))
  | _ => exact Or.inl ht

theorem stopping_of_effect (he : Effect s a s') (hstop : s'.stopping = false) :
    s.stopping = false := by
  cases he with
  | shutdown _ => simp at hstop
  | _ => exact hstop

/-- A plain step leaves `Shutdown` between its two `close` calls. -/
theorem closeResponse_of_plain (he : Effect s a s') (ha : a.plain = true)
    (hidle : s.stopping = false → s.shutdown = .notStarted) {w : Fin n} {rest : List (Fin n)}
    (hpc : s.shutdown = .closeResponse w rest) : s'.shutdown = .closeResponse w rest := by
  cases he with
  | shutdown hstop => simp [hidle hstop] at hpc
  | lockStop v rest' l hpc' _ => simp [hpc] at hpc'
  | stopFails v rest' l hpc' _ => simp [hpc] at hpc'
  | unlockStop v rest' l hpc' _ => simp [hpc] at hpc'
  | join v rest' hpc' _ => simp [hpc] at hpc'
  | closeRequestFd v rest' l hpc' _ => simp [hpc] at hpc'
  | closeResponseFd v rest' l _ _ => simp [Action.plain] at ha
  | waitpid v rest' hpc' _ => simp [hpc] at hpc'
  | nextLoop pc hpc' => simp [hpc, ShutdownPc.afterLoop] at hpc'
  | swapPending hpc' => simp [hpc] at hpc'
  | failPending taskId p temp hpc' _ => simp [hpc] at hpc'
  | _ => exact hpc

end Frame

/-! ### What a step can do -/

section Effect

variable [DecidableEq θ] [NeZero n]

/-- The effects of a step of the pool with its descriptors. -/
inductive DescriptorEffect (s : Descriptors P n θ) :
    DescriptorAction P n θ → Descriptors P n θ → Prop
  | pool (a : Action P n θ) (p : State P n θ) : a.plain = true → s.pool.step a = some p →
      DescriptorEffect s (.pool a) { s with pool := p }
  | callWriteExact (t : θ) (w : Fin n) (job : Job P) (state taskId : ℕ) :
      s.pool.thread t = .write job state taskId w →
      0 < (s.pool.link w).buffersLeft (.submit t) →
      DescriptorEffect s (.callWriteExact t)
        { s with writing := Function.update s.writing t (some (s.requestFd w)) }
  | write (t : θ) (k : ℕ) (w : Fin n) (fd : ℤ) (l : Link P θ) : s.Calls t w fd →
      s.file fd = .request w → LinkEffect (s.pool.link w) (.write (.submit t) k) l →
      s.pool.step (.link w (.write (.submit t) k)) = some (s.pool.setLink w l) →
      DescriptorEffect s (.write t k) { s with
        pool := s.pool.setLink w l
        writing := Function.update s.writing t
          (l.stillWriting (.submit t) ((s.pool.link w).buffersLeft (.submit t)) fd) }
  | misdirect (t : θ) (k : ℕ) (w : Fin n) (fd : ℤ) (chunk : List UInt8) (l : Link P θ) :
      s.Calls t w fd → s.file fd ≠ .request w → s.file fd ≠ .closed →
      (s.pool.link w).misdirect (.submit t) k = some (chunk, l) →
      DescriptorEffect s (.write t k) { s with
        pool := s.pool.setLink w l
        writing := Function.update s.writing t
          (l.stillWriting (.submit t) ((s.pool.link w).buffersLeft (.submit t)) fd)
        stray := s.stray ++ chunk }
  | writeFails (t : θ) (w : Fin n) (fd : ℤ) (l : Link P θ) : s.Calls t w fd →
      LinkEffect (s.pool.link w) (.writeFails (.submit t)) l →
      s.pool.step (.writeFails t) =
        some { s.pool.setLink w l with toLedger := s.pool.goTo t .idle } →
      DescriptorEffect s (.writeFails t) { s with
        pool := { s.pool.setLink w l with toLedger := s.pool.goTo t .idle }
        writing := Function.update s.writing t none }
  | closeRequestFd (w : Fin n) (rest : List (Fin n)) (l : Link P θ) :
      s.pool.shutdown = .closeRequest (w :: rest) → LinkEffect (s.pool.link w) .closeRequestFd l →
      s.pool.step .closeRequestFd =
        some { s.pool.setLink w l with shutdown := .closeResponse w rest } →
      0 ≤ s.requestFd w → DescriptorEffect s .closeRequestFd { s with
        pool := { s.pool.setLink w l with shutdown := .closeResponse w rest }
        file := Function.update s.file (s.requestFd w) .closed
        assigning := some w }
  | skipRequestFd (w : Fin n) (rest : List (Fin n)) (l : Link P θ) :
      s.pool.shutdown = .closeRequest (w :: rest) → LinkEffect (s.pool.link w) .closeRequestFd l →
      s.pool.step .closeRequestFd =
        some { s.pool.setLink w l with shutdown := .closeResponse w rest } →
      s.requestFd w < 0 → DescriptorEffect s .closeRequestFd { s with
        pool := { s.pool.setLink w l with shutdown := .closeResponse w rest } }
  | assignRequestFd (w : Fin n) : s.assigning = some w →
      DescriptorEffect s .assignRequestFd { s with
        requestFd := Function.update s.requestFd w (-1), assigning := none }
  | closeResponseFd (w : Fin n) (rest : List (Fin n)) (l : Link P θ) :
      s.pool.shutdown = .closeResponse w rest → s.assigning = none →
      LinkEffect (s.pool.link w) .closeResponseFd l →
      s.pool.step .closeResponseFd = some { s.pool.setLink w l with shutdown := .waitpid w rest } →
      0 ≤ s.responseFd w →
      DescriptorEffect s .closeResponseFd { s with
        pool := { s.pool.setLink w l with shutdown := .waitpid w rest }
        file := Function.update s.file (s.responseFd w) .closed
        responseFd := Function.update s.responseFd w (-1) }
  | skipResponseFd (w : Fin n) (rest : List (Fin n)) (l : Link P θ) :
      s.pool.shutdown = .closeResponse w rest → s.assigning = none →
      LinkEffect (s.pool.link w) .closeResponseFd l →
      s.pool.step .closeResponseFd = some { s.pool.setLink w l with shutdown := .waitpid w rest } →
      s.responseFd w < 0 →
      DescriptorEffect s .closeResponseFd { s with
        pool := { s.pool.setLink w l with shutdown := .waitpid w rest } }
  | openFile (fd : ℕ) : s.file fd = .closed →
      DescriptorEffect s (.openFile fd) { s with file := Function.update s.file fd .other }
  | closeFile (fd : ℕ) : s.file fd = .other →
      DescriptorEffect s (.closeFile fd) { s with file := Function.update s.file fd .closed }

/-- **Inversion of the step function.** -/
theorem descriptorEffect_of_step {s s' : Descriptors P n θ} {a : DescriptorAction P n θ}
    (h : s.step a = some s') : DescriptorEffect s a s' := by
  cases a with
  | pool a =>
      simp only [Descriptors.step, Option.ite_none_right_eq_some] at h
      obtain ⟨ha, h⟩ := h
      obtain ⟨p, hp, rfl⟩ := Option.map_eq_some_iff.1 h
      exact DescriptorEffect.pool a p ha hp
  | callWriteExact t =>
      simp only [Descriptors.step] at h
      split at h
      case h_1 job state taskId w ht hw =>
        simp only [Option.ite_none_right_eq_some, Option.some.injEq] at h
        obtain ⟨hleft, rfl⟩ := h
        exact DescriptorEffect.callWriteExact t w job state taskId ht hleft
      case h_2 => simp at h
  | write t k =>
      simp only [Descriptors.step] at h
      split at h
      case h_1 job state taskId w fd ht hw =>
        have hcall : s.Calls t w fd := ⟨hw, job, state, taskId, ht⟩
        split_ifs at h with hrequest hclosed
        · obtain ⟨p, hp, rfl⟩ := Option.map_eq_some_iff.1 h
          have hp' := effect_of_step hp
          cases hp' with
          | internal _ _ l _ hl =>
              have hself : (s.pool.setLink w l).link w = l := Function.update_self _ _ _
              rw [hself]
              exact DescriptorEffect.write t k w fd l hcall hrequest hl hp
        · obtain ⟨⟨chunk, l⟩, hl, rfl⟩ := Option.map_eq_some_iff.1 h
          exact DescriptorEffect.misdirect t k w fd chunk l hcall hrequest hclosed hl
      case h_2 => simp at h
  | writeFails t =>
      cases hw : s.writing t with
      | none => simp [Descriptors.step, hw] at h
      | some fd =>
          simp only [Descriptors.step, hw] at h
          obtain ⟨p, hp, rfl⟩ := Option.map_eq_some_iff.1 h
          have hp' := effect_of_step hp
          cases hp' with
          | writeFails _ job state taskId w l ht hl =>
              exact DescriptorEffect.writeFails t w fd l ⟨hw, job, state, taskId, ht⟩ hl hp
  | closeRequestFd =>
      simp only [Descriptors.step] at h
      split at h
      case h_1 w rest hpc =>
        obtain ⟨p, hp, rfl⟩ := Option.map_eq_some_iff.1 h
        have hp' := effect_of_step hp
        cases hp' with
        | closeRequestFd w' rest' l hpc' hl =>
            rw [hpc] at hpc'
            obtain ⟨rfl, rfl⟩ := List.cons.inj (ShutdownPc.closeRequest.inj hpc')
            split_ifs with hfd
            · exact DescriptorEffect.closeRequestFd w rest l hpc hl hp hfd
            · exact DescriptorEffect.skipRequestFd w rest l hpc hl hp (not_le.1 hfd)
      case h_2 => simp at h
  | assignRequestFd =>
      simp only [Descriptors.step] at h
      obtain ⟨w, hw, rfl⟩ := Option.map_eq_some_iff.1 h
      exact DescriptorEffect.assignRequestFd w hw
  | closeResponseFd =>
      simp only [Descriptors.step] at h
      split at h
      case h_1 w rest hpc hassign =>
        obtain ⟨p, hp, rfl⟩ := Option.map_eq_some_iff.1 h
        have hp' := effect_of_step hp
        cases hp' with
        | closeResponseFd w' rest' l hpc' hl =>
            rw [hpc] at hpc'
            obtain ⟨rfl, rfl⟩ := ShutdownPc.closeResponse.inj hpc'
            split_ifs with hfd
            · exact DescriptorEffect.closeResponseFd w rest l hpc hassign hl hp hfd
            · exact DescriptorEffect.skipResponseFd w rest l hpc hassign hl hp (not_le.1 hfd)
      case h_2 => simp at h
  | openFile fd =>
      simp only [Descriptors.step, Option.ite_none_right_eq_some, Option.some.injEq] at h
      obtain ⟨hfd, rfl⟩ := h
      exact DescriptorEffect.openFile fd hfd
  | closeFile fd =>
      simp only [Descriptors.step, Option.ite_none_right_eq_some, Option.some.injEq] at h
      obtain ⟨hfd, rfl⟩ := h
      exact DescriptorEffect.closeFile fd hfd

end Effect

/-! ### The descriptor table along a run -/

section Table

variable [DecidableEq θ]

/-- **The invariant of the descriptor table**: a number stands for the requests to a worker if and only
if it is in the field `request_fd` of the worker and has not been closed. -/
structure Descriptors.Table (s : Descriptors P n θ) : Prop where
  idle : s.pool.stopping = false → s.pool.shutdown = .notStarted
  request : ∀ w fd,
    s.file fd = .request w ↔ (s.pool.link w).requestFd = true ∧ s.requestFd w = fd
  nonneg : ∀ w, (s.pool.link w).requestFd = true → 0 ≤ s.requestFd w
  closed : ∀ w, (s.pool.link w).requestFd = false → s.requestFd w < 0 ∨ s.assigning = some w
  assigning : ∀ w, s.assigning = some w →
    (s.pool.link w).requestFd = false ∧ ∃ rest, s.pool.shutdown = .closeResponse w rest
  response : ∀ w, 0 ≤ s.responseFd w → s.file (s.responseFd w) = .response w
  writing : ∀ t fd, s.writing t = some fd → ∃ w, s.Calls t w fd ∧
    0 < (s.pool.link w).buffersLeft (.submit t) ∧
    ((s.pool.link w).requestFd = true → fd = s.requestFd w)

theorem misdirect_eq_some {l l' : Link P θ} {o : Owner θ} {k : ℕ} {chunk : List UInt8}
    (h : l.misdirect o k = some (chunk, l')) :
    l'.requestFd = l.requestFd ∧ ∀ o', o' ≠ o → l'.buffersLeft o' = l.buffersLeft o' := by
  unfold Link.misdirect at h
  split at h
  case h_1 o₁ f todo hm =>
    split_ifs at h with ho
    obtain ⟨⟨chunk', todo'⟩, -, heq⟩ := Option.map_eq_some_iff.1 h
    obtain ⟨rfl, rfl⟩ := Prod.mk.inj heq
    refine ⟨rfl, fun o' hne => ?_⟩
    simp [Link.buffersLeft, hm, ho, hne.symm]
  case h_2 => simp at h

namespace Descriptors.Table

variable {s s' : Descriptors P n θ}

/-- A thread that writes to a worker has its buffers left. -/
theorem left_of_calls (h : s.Table) {t : θ} {w : Fin n} {fd : ℤ} (hcall : s.Calls t w fd) :
    0 < (s.pool.link w).buffersLeft (.submit t) ∧
      ((s.pool.link w).requestFd = true → fd = s.requestFd w) := by
  obtain ⟨hw, job, state, taskId, ht⟩ := hcall
  obtain ⟨v, ⟨-, job', state', taskId', ht'⟩, hleft, hfd⟩ := h.writing t fd hw
  rw [ht] at ht'
  obtain ⟨-, -, -, rfl⟩ := SubmitPc.write.inj ht'
  exact ⟨hleft, hfd⟩

/-- A `write` call of a thread, successful or not, to whatever file. -/
theorem write (h : s.Table) {t : θ} {w : Fin n} {fd : ℤ} {l : Link P θ} {L : Ledger P n θ}
    {x : Option ℤ} (stray : List UInt8) (hcall : s.Calls t w fd)
    (hfd : l.requestFd = (s.pool.link w).requestFd)
    (hleft : ∀ u, u ≠ t →
      l.buffersLeft (.submit u) = (s.pool.link w).buffersLeft (.submit u))
    (hthread : ∀ u, u ≠ t → L.thread u = s.pool.thread u)
    (hx : ∀ fd', x = some fd' → fd' = fd ∧ 0 < l.buffersLeft (.submit t) ∧
      L.thread t = s.pool.thread t) :
    Table { s with
      pool := { s.pool.setLink w l with toLedger := L }
      writing := Function.update s.writing t x
      stray := stray } := by
  have hflag : ∀ v, (Function.update s.pool.link w l v).requestFd = (s.pool.link v).requestFd :=
    apply_update_eq Link.requestFd hfd
  have hbuffers : ∀ u v, u ≠ t → (Function.update s.pool.link w l v).buffersLeft (.submit u) =
      (s.pool.link v).buffersLeft (.submit u) :=
    fun u v hne => buffersLeft_update (hleft u hne) v
  refine ⟨h.idle, ?_, ?_, ?_, ?_, h.response, ?_⟩
  · intro v fd'
    rw [h.request v fd']
    simp only [State.setLink, hflag]
  · intro v hv
    exact h.nonneg v (by simpa only [State.setLink, hflag] using hv)
  · intro v hv
    exact h.closed v (by simpa only [State.setLink, hflag] using hv)
  · intro v hv
    obtain ⟨hclosed, hpc⟩ := h.assigning v hv
    exact ⟨by simpa only [State.setLink, hflag] using hclosed, hpc⟩
  · intro u fd' hu
    have hwriting : Function.update s.writing t x u = some fd' := hu
    simp only [State.setLink, hflag]
    rcases eq_or_ne u t with rfl | hne
    · rw [Function.update_self] at hwriting
      obtain ⟨rfl, hpos, hsame⟩ := hx fd' hwriting
      obtain ⟨-, job, state, taskId, ht⟩ := id hcall
      refine ⟨w, ⟨hu, job, state, taskId, by rw [hsame]; exact ht⟩, ?_, ?_⟩
      · rw [Function.update_self]
        exact hpos
      · exact (h.left_of_calls hcall).2
    · rw [Function.update_of_ne hne] at hwriting
      obtain ⟨v, ⟨-, job, state, taskId, ht⟩, hpos, hv⟩ := h.writing u fd' hwriting
      refine ⟨v, ⟨hu, job, state, taskId, by rw [hthread u hne]; exact ht⟩, ?_, hv⟩
      rw [hbuffers u v hne]
      exact hpos

/-- A plain step of the pool. -/
theorem plain [NeZero n] (h : s.Table) {a : Action P n θ} {p : State P n θ} (ha : a.plain = true)
    (he : Effect s.pool a p) : Table { s with pool := p } := by
  have hflag : ∀ w, (p.link w).requestFd = (s.pool.link w).requestFd :=
    fun w => (link_of_plain he ha w).1
  refine ⟨idle_of_effect h.idle he, ?_, ?_, ?_, ?_, h.response, ?_⟩
  · intro w fd
    rw [h.request w fd, hflag]
  · intro w hw
    exact h.nonneg w (by rw [← hflag]; exact hw)
  · intro w hw
    exact h.closed w (by rw [← hflag]; exact hw)
  · intro w hw
    obtain ⟨hclosed, rest, hpc⟩ := h.assigning w hw
    exact ⟨by rw [hflag]; exact hclosed, rest, closeResponse_of_plain he ha h.idle hpc⟩
  · intro t fd ht
    obtain ⟨w, ⟨-, job, state, taskId, hthread⟩, hpos, hfd⟩ := h.writing t fd ht
    refine ⟨w, ⟨ht, job, state, taskId, thread_of_plain he ha hthread hpos⟩, ?_, ?_⟩
    · rcases (link_of_plain he ha w).2 t with hsame | ⟨job', state', taskId', hlock⟩
      · rw [hsame]
        exact hpos
      · rw [hlock] at hthread
        simp at hthread
    · intro hw
      exact hfd (by rw [← hflag]; exact hw)

/-- The entry of a number that stands for no requests changes. -/
theorem request_update (h : s.Table) {fd : ℤ} {x : File n} (hold : ∀ v, s.file fd ≠ .request v)
    (hx : ∀ v, x ≠ .request v) (w : Fin n) (fd' : ℤ) : Function.update s.file fd x fd' = .request w ↔
      (s.pool.link w).requestFd = true ∧ s.requestFd w = fd' := by
  rw [← h.request w fd']
  rcases eq_or_ne fd' fd with rfl | hne
  · rw [Function.update_self]
    exact iff_of_false (hx w) (hold w)
  · rw [Function.update_of_ne hne]

/-- The rest of the process opens or closes a file. -/
theorem setFile (h : s.Table) {fd : ℤ} {x : File n} (hold : s.file fd = .closed ∨ s.file fd = .other)
    (hx : ∀ v, x ≠ .request v) : Table { s with file := Function.update s.file fd x } := by
  refine ⟨h.idle, h.request_update ?_ hx, h.nonneg, h.closed, h.assigning, ?_, h.writing⟩
  · intro v
    rcases hold with hold | hold <;> simp [hold]
  · intro w hw
    refine (Function.update_of_ne ?_ _ _).trans (h.response w hw)
    rintro heq
    have hresponse := h.response w hw
    rw [heq] at hresponse
    rcases hold with hold | hold <;> simp [hold] at hresponse

theorem initial {s : Descriptors P n θ} (h : s.Initial) : s.Table := by
  have hlink : ∀ w, s.pool.link w = Link.initial := fun w => by rw [h.pool]; rfl
  refine ⟨fun _ => by rw [h.pool]; rfl, ?_, ?_, ?_, ?_, ?_, ?_⟩
  · intro w fd
    rw [h.request, hlink]
    simp [Link.initial]
  · intro w _
    refine h.nonneg _ ?_
    rw [(h.request w _).2 rfl]
    simp
  · intro w hw
    rw [hlink] at hw
    simp [Link.initial] at hw
  · intro w hw
    rw [h.assigning] at hw
    simp at hw
  · intro w _
    exact (h.response w _).2 rfl
  · intro t fd ht
    rw [h.writing] at ht
    simp at ht

/-- `close` of a request stream. -/
theorem closeRequestFd (h : s.Table) {w : Fin n} {rest : List (Fin n)} {l : Link P θ}
    (hpc : s.pool.shutdown = .closeRequest (w :: rest))
    (hl : LinkEffect (s.pool.link w) .closeRequestFd l) (hfd : 0 ≤ s.requestFd w) :
    Table { s with
      pool := { s.pool.setLink w l with shutdown := .closeResponse w rest }
      file := Function.update s.file (s.requestFd w) .closed
      assigning := some w } := by
  have hnone : ∀ v, s.assigning ≠ some v := by
    intro v hv
    obtain ⟨-, rest', hpc'⟩ := h.assigning v hv
    simp [hpc] at hpc'
  -- a descriptor that is not negative has not been closed before
  have hopen : (s.pool.link w).requestFd = true := by
    by_contra hclosed
    rcases h.closed w (by simpa using hclosed) with hneg | hv
    · omega
    · exact hnone w hv
  have hself : l.requestFd = false := by
    cases hl
    rfl
  have hleft : ∀ t, l.buffersLeft (.submit t) = (s.pool.link w).buffersLeft (.submit t) :=
    fun t => buffersLeft_of_effect hl (by simp [LinkAction.owner?])
  have hfile : s.file (s.requestFd w) = .request w := (h.request w _).2 ⟨hopen, rfl⟩
  refine ⟨?_, ?_, ?_, ?_, ?_, ?_, ?_⟩
  · intro hstop
    simp [h.idle hstop] at hpc
  · intro v fd
    simp only [State.setLink]
    rcases eq_or_ne v w with rfl | hne
    · rw [Function.update_self, hself]
      refine iff_of_false (fun hv => ?_) (by simp)
      obtain ⟨hv, hfd'⟩ := of_update_apply_ne hv (by simp)
      exact hfd' ((h.request v fd).1 hv).2.symm
    · rw [Function.update_of_ne hne, ← h.request v fd]
      rcases eq_or_ne fd (s.requestFd w) with rfl | hfd'
      · rw [Function.update_self, hfile]
        exact iff_of_false (by simp) (by simpa using hne.symm)
      · rw [Function.update_of_ne hfd']
  · intro v hv
    simp only [State.setLink] at hv
    rcases eq_or_ne v w with rfl | hne
    · exact hfd
    · rw [Function.update_of_ne hne] at hv
      exact h.nonneg v hv
  · intro v hv
    simp only [State.setLink] at hv
    rcases eq_or_ne v w with rfl | hne
    · exact Or.inr rfl
    · rw [Function.update_of_ne hne] at hv
      exact Or.inl ((h.closed v hv).resolve_right (hnone v))
  · intro v hv
    obtain rfl := Option.some.inj hv
    simp only [State.setLink, Function.update_self]
    exact ⟨hself, rest, rfl⟩
  · intro v hv
    refine (Function.update_of_ne ?_ _ _).trans (h.response v hv)
    rintro heq
    have hresponse := h.response v hv
    rw [heq, hfile] at hresponse
    simp at hresponse
  · intro t fd ht
    obtain ⟨v, hcall, hpos, hv⟩ := h.writing t fd ht
    refine ⟨v, hcall, ?_, ?_⟩
    · exact hpos.trans_eq (buffersLeft_update (hleft t) v).symm
    · simp only [State.setLink]
      rcases eq_or_ne v w with rfl | hne
      · rw [Function.update_self, hself]
        simp
      · rw [Function.update_of_ne hne]
        exact hv

/-- `Shutdown` goes on, without a change of the table. -/
theorem goOn (h : s.Table) {w : Fin n} {l : Link P θ} {pc : ShutdownPc n}
    (hstop : s.pool.stopping = true) (hassign : s.assigning = none)
    (hfd : l.requestFd = (s.pool.link w).requestFd)
    (hleft : ∀ t, l.buffersLeft (.submit t) = (s.pool.link w).buffersLeft (.submit t)) :
    Table { s with pool := { s.pool.setLink w l with shutdown := pc } } := by
  have hflag : ∀ v, (Function.update s.pool.link w l v).requestFd = (s.pool.link v).requestFd :=
    apply_update_eq Link.requestFd hfd
  refine ⟨?_, ?_, ?_, ?_, ?_, h.response, ?_⟩
  · intro hstop'
    exact absurd (hstop.symm.trans hstop') (by simp)
  · intro v fd
    simp only [State.setLink, hflag]
    exact h.request v fd
  · intro v hv
    exact h.nonneg v (by simpa only [State.setLink, hflag] using hv)
  · intro v hv
    exact h.closed v (by simpa only [State.setLink, hflag] using hv)
  · intro v hv
    exact absurd (hassign.symm.trans hv) (by simp)
  · intro t fd ht
    obtain ⟨v, hcall, hpos, hv⟩ := h.writing t fd ht
    refine ⟨v, hcall, ?_, ?_⟩
    · exact hpos.trans_eq (buffersLeft_update (hleft t) v).symm
    · simpa only [State.setLink, hflag] using hv

theorem assignRequestFd (h : s.Table) {w : Fin n} (hw : s.assigning = some w) :
    Table { s with requestFd := Function.update s.requestFd w (-1), assigning := none } := by
  obtain ⟨hclosed, -⟩ := h.assigning w hw
  have hother : ∀ {v : Fin n}, (s.pool.link v).requestFd = true →
      Function.update s.requestFd w (-1) v = s.requestFd v := by
    intro v hv
    refine Function.update_of_ne ?_ _ _
    rintro rfl
    simp [hclosed] at hv
  refine ⟨h.idle, ?_, ?_, ?_, by simp, h.response, ?_⟩
  · intro v fd
    rw [h.request v fd]
    exact and_congr_right fun hv => by simp only [hother hv]
  · intro v hv
    exact (h.nonneg v hv).trans_eq (hother hv).symm
  · intro v hv
    rcases eq_or_ne v w with rfl | hne
    · exact Or.inl (by simp)
    · have hold := (h.closed v hv).resolve_right fun h' => hne (Option.some.inj (h'.symm.trans hw))
      exact Or.inl (by simpa only [Function.update_of_ne hne] using hold)
  · intro t fd ht
    obtain ⟨v, hcall, hpos, hv⟩ := h.writing t fd ht
    exact ⟨v, hcall, hpos, fun hopen => (hv hopen).trans (hother hopen).symm⟩

/-- `close` of a response stream. -/
theorem closeResponseFd (h : s.Table) {w : Fin n} (hw : 0 ≤ s.responseFd w) :
    Table { s with
      file := Function.update s.file (s.responseFd w) .closed
      responseFd := Function.update s.responseFd w (-1) } := by
  have hfile := h.response w hw
  refine ⟨h.idle, h.request_update (by simp [hfile]) (by simp), h.nonneg, h.closed, h.assigning, ?_,
    h.writing⟩
  intro v hv
  rcases eq_or_ne v w with rfl | hne
  · simp at hv
  · simp only [Function.update_of_ne hne] at hv ⊢
    have hold := h.response v hv
    refine (Function.update_of_ne ?_ _ _).trans hold
    rintro heq
    rw [heq, hfile] at hold
    exact hne (File.response.inj hold).symm

/-- **Every step keeps the invariant.** -/
theorem step [NeZero n] (h : s.Table) {a : DescriptorAction P n θ} (he : DescriptorEffect s a s') :
    s'.Table := by
  have hstop : s.pool.shutdown ≠ .notStarted → s.pool.stopping = true := by
    intro hne
    by_contra hstop
    exact hne (h.idle (by simpa using hstop))
  cases he with
  | pool a p ha hp => exact h.plain ha (effect_of_step hp)
  | callWriteExact t w job state taskId ht hleft =>
      refine ⟨h.idle, h.request, h.nonneg, h.closed, h.assigning, h.response, ?_⟩
      intro u fd hu
      have hwriting : Function.update s.writing t (some (s.requestFd w)) u = some fd := hu
      rcases eq_or_ne u t with rfl | hne
      · rw [Function.update_self, Option.some.injEq] at hwriting
        exact ⟨w, ⟨hu, job, state, taskId, ht⟩, hleft, fun _ => hwriting.symm⟩
      · rw [Function.update_of_ne hne] at hwriting
        obtain ⟨v, ⟨-, hv⟩, hpos, hfd⟩ := h.writing u fd hwriting
        exact ⟨v, ⟨hu, hv⟩, hpos, hfd⟩
  | write t k w fd l hcall _ hl _ =>
      have hpos := (h.left_of_calls hcall).1
      refine h.write s.stray hcall (requestFd_of_effect hl (by simp)) ?_ (fun _ _ => rfl) ?_
      · intro u hne
        exact buffersLeft_of_effect hl (by simpa [LinkAction.owner?] using hne.symm)
      · intro fd' hfd'
        simp only [Link.stillWriting, Option.ite_none_right_eq_some, Option.some.injEq] at hfd'
        exact ⟨hfd'.2.symm, by rw [hfd'.1]; exact hpos, rfl⟩
  | misdirect t k w fd chunk l hcall _ _ hl =>
      have hpos := (h.left_of_calls hcall).1
      obtain ⟨hfd, hleft⟩ := misdirect_eq_some hl
      refine h.write (s.stray ++ chunk) hcall hfd ?_ (fun _ _ => rfl) ?_
      · intro u hne
        exact hleft (.submit u) (by simpa using hne)
      · intro fd' hfd'
        simp only [Link.stillWriting, Option.ite_none_right_eq_some, Option.some.injEq] at hfd'
        exact ⟨hfd'.2.symm, by rw [hfd'.1]; exact hpos, rfl⟩
  | writeFails t w fd l hcall hl _ =>
      refine h.write s.stray hcall (requestFd_of_effect hl (by simp)) ?_ ?_ (by simp)
      · intro u hne
        exact buffersLeft_of_effect hl (by simpa [LinkAction.owner?] using hne.symm)
      · intro u hne
        exact Function.update_of_ne hne _ _
  | closeRequestFd w rest l hpc hl _ hfd => exact h.closeRequestFd hpc hl hfd
  | skipRequestFd w rest l hpc hl _ hfd =>
      refine h.goOn (hstop (by simp [hpc])) ?_ ?_ ?_
      · by_contra hassign
        obtain ⟨v, hv⟩ := Option.ne_none_iff_exists'.1 hassign
        obtain ⟨-, rest', hpc'⟩ := h.assigning v hv
        simp [hpc] at hpc'
      · -- a negative descriptor has been closed before
        have hclosed : (s.pool.link w).requestFd = false := by
          by_contra hopen
          exact absurd (h.nonneg w (by simpa using hopen)) (not_le.2 hfd)
        rw [hclosed]
        cases hl
        rfl
      · exact fun t => buffersLeft_of_effect hl (by simp [LinkAction.owner?])
  | assignRequestFd w hw => exact h.assignRequestFd hw
  | closeResponseFd w rest l hpc hassign hl _ hw =>
      have hmove : Descriptors.Table
          { s with pool := { s.pool.setLink w l with shutdown := .waitpid w rest } } :=
        h.goOn (hstop (by simp [hpc])) hassign (requestFd_of_effect hl (by simp))
          fun t => buffersLeft_of_effect hl (by simp [LinkAction.owner?])
      exact hmove.closeResponseFd hw
  | skipResponseFd w rest l hpc hassign hl _ _ =>
      exact h.goOn (hstop (by simp [hpc])) hassign (requestFd_of_effect hl (by simp))
        fun t => buffersLeft_of_effect hl (by simp [LinkAction.owner?])
  | openFile fd hfd => exact h.setFile (Or.inl hfd) (by simp)
  | closeFile fd hfd => exact h.setFile (Or.inr hfd) (by simp)

end Descriptors.Table

variable [NeZero n]

theorem table_of_reachable {s : Descriptors P n θ} (h : (descriptors P n θ).Reachable s) :
    s.Table := by
  refine Automaton.Reachable.invariant (fun _ => Descriptors.Table.initial) ?_ h
  intro s a s' _ htable hs
  exact htable.step (descriptorEffect_of_step hs)

/-- **A `write` call uses the open stream of its worker exactly as long as `Shutdown` has not closed
it.** -/
theorem calls_open_iff {s : Descriptors P n θ} (h : (descriptors P n θ).Reachable s) {t : θ}
    {w : Fin n} {fd : ℤ} (hcall : s.Calls t w fd) :
    s.file fd = .request w ↔ (s.pool.link w).requestFd = true := by
  have htable := table_of_reachable h
  rw [htable.request]
  refine ⟨And.left, fun hopen => ⟨hopen, ?_⟩⟩
  exact ((htable.left_of_calls hcall).2 hopen).symm

/-- A stream that `Shutdown` has closed stays closed. -/
theorem closed_of_effect {s s' : Descriptors P n θ} {a : DescriptorAction P n θ}
    (he : DescriptorEffect s a s') {v : Fin n} (hv : (s.pool.link v).requestFd = false) :
    (s'.pool.link v).requestFd = false := by
  have hset : ∀ {w : Fin n} {b : LinkAction P θ} {l : Link P θ},
      LinkEffect (s.pool.link w) b l → (Function.update s.pool.link w l v).requestFd = false := by
    intro w b l hl
    rcases eq_or_ne v w with rfl | hne
    · rw [Function.update_self]
      by_cases hb : b = .closeRequestFd
      · subst hb
        cases hl
        rfl
      · rw [requestFd_of_effect hl hb, hv]
    · rw [Function.update_of_ne hne]
      exact hv
  cases he with
  | pool a p ha hp => exact (link_of_plain (effect_of_step hp) ha v).1.trans hv
  | write t k w fd l _ _ hl _ => exact hset hl
  | misdirect t k w fd chunk l _ _ _ hl =>
      exact (apply_update_eq Link.requestFd (misdirect_eq_some hl).1 v).trans hv
  | writeFails t w fd l _ hl _ => exact hset hl
  | closeRequestFd w rest l _ hl _ _ => exact hset hl
  | skipRequestFd w rest l _ hl _ _ => exact hset hl
  | closeResponseFd w rest l _ _ hl _ _ => exact hset hl
  | skipResponseFd w rest l _ _ hl _ _ => exact hset hl
  | _ => exact hv

/-- When `Shutdown` has closed the stream of a worker, no later `write` call of a `Submit` that has
chosen the worker uses it. -/
theorem late_calls {s s' : Descriptors P n θ} (h : (descriptors P n θ).Reachable s) {w : Fin n}
    (hclosed : (s.pool.link w).requestFd = false) (hs : (descriptors P n θ).Steps s s') {t : θ} {fd : ℤ}
    (hcall : s'.Calls t w fd) : s'.file fd ≠ .request w := by
  have hstays : (s'.pool.link w).requestFd = false :=
    hs.stable (P := fun s => (s.pool.link w).requestFd = false)
      (fun _ _ _ _ hu hstep => closed_of_effect (descriptorEffect_of_step hstep) hu) h hclosed
  intro hfile
  rw [calls_open_iff (h.steps hs) hcall] at hfile
  simp [hstays] at hfile

end Table

/-! ### Runs in which no descriptor is closed too early -/

section Quiet

variable [DecidableEq θ] [NeZero n]

/-- **What holds where no descriptor is closed too early**: a worker to which a call of `Submit` has
something to write has its descriptor open. -/
structure Descriptors.Served (s : Descriptors P n θ) : Prop where
  table : s.Table
  running : s.pool.stopping = false → ∀ w, (s.pool.link w).requestFd = true
  pending : ∀ t w, s.pool.Pending t w → (s.pool.link w).requestFd = true
  stray : s.stray = []

namespace Descriptors.Served

variable {s s' : Descriptors P n θ}

omit [NeZero n] in
theorem pending_of_calls (h : s.Served) {t : θ} {w : Fin n} {fd : ℤ} (hcall : s.Calls t w fd) :
    s.pool.Pending t w :=
  Or.inr (h.table.left_of_calls hcall).1

omit [NeZero n] in
theorem file_of_calls (h : s.Served) {t : θ} {w : Fin n} {fd : ℤ} (hcall : s.Calls t w fd) :
    fd = s.requestFd w ∧ s.file fd = .request w := by
  have hopen := h.pending t w (h.pending_of_calls hcall)
  have hfd := (h.table.left_of_calls hcall).2 hopen
  exact ⟨hfd, (h.table.request w fd).2 ⟨hopen, hfd.symm⟩⟩

omit [NeZero n] in
/-- A `write` call leaves only those something to write that had it before. -/
theorem pending_of_effect (h : s.Served) {t : θ} {w : Fin n} {fd : ℤ} (hcall : s.Calls t w fd)
    {a : LinkAction P θ} {l : Link P θ} (hl : LinkEffect (s.pool.link w) a l)
    (ha : a.owner? = some (.submit t)) (u : θ) (hpos : 0 < l.buffersLeft (.submit u)) :
    s.pool.Pending u w := by
  by_cases hut : u = t
  · rw [hut]
    exact h.pending_of_calls hcall
  · have hne : a.owner? ≠ some (.submit u) := by
      rw [ha]
      simpa using Ne.symm hut
    rw [buffersLeft_of_effect hl hne] at hpos
    exact Or.inr hpos

omit [NeZero n] in
/-- A step of one link that leaves the descriptor open. -/
theorem setLink (h : s.Served) {w : Fin n} {l : Link P θ} {p : State P n θ}
    (hlink : p.link = Function.update s.pool.link w l) (hstop : p.stopping = s.pool.stopping)
    (hthread : ∀ t job state taskId v, p.thread t = .lockWriteMutex job state taskId v →
      s.pool.thread t = .lockWriteMutex job state taskId v)
    (hfd : l.requestFd = (s.pool.link w).requestFd)
    (hleft : ∀ t, 0 < l.buffersLeft (.submit t) → s.pool.Pending t w) :
    (p.stopping = false → ∀ v, (p.link v).requestFd = true) ∧
      ∀ t v, p.Pending t v → (p.link v).requestFd = true := by
  have hflag : ∀ v, (p.link v).requestFd = (s.pool.link v).requestFd := by
    intro v
    rw [hlink]
    exact apply_update_eq Link.requestFd hfd v
  refine ⟨?_, ?_⟩
  · intro hp v
    rw [hflag]
    exact h.running (hstop.symm.trans hp) v
  · rintro t v (⟨job, state, taskId, ht⟩ | hpos)
    · rw [hflag]
      exact h.pending t v (Or.inl ⟨job, state, taskId, hthread t job state taskId v ht⟩)
    · rw [hflag]
      rw [hlink] at hpos
      rcases eq_or_ne v w with rfl | hne
      · rw [Function.update_self] at hpos
        exact h.pending t v (hleft t hpos)
      · rw [Function.update_of_ne hne] at hpos
        exact h.pending t v (Or.inr hpos)

omit [NeZero n] in
/-- `close` of a request stream to which no call has something to write. -/
theorem close (h : s.Served) {w : Fin n} {rest : List (Fin n)} {l : Link P θ}
    (hpc : s.pool.shutdown = .closeRequest (w :: rest))
    (hl : LinkEffect (s.pool.link w) .closeRequestFd l) (hquiet : ∀ t, ¬ s.pool.Pending t w)
    {p : State P n θ} (hp : p = { s.pool.setLink w l with shutdown := .closeResponse w rest }) :
    (p.stopping = false → ∀ v, (p.link v).requestFd = true) ∧
      ∀ t v, p.Pending t v → (p.link v).requestFd = true := by
  subst hp
  refine ⟨?_, ?_⟩
  · intro hstop
    simp [h.table.idle hstop] at hpc
  · intro t v hpending
    have hold : s.pool.Pending t v := by
      rcases hpending with hlock | hpos
      · exact Or.inl hlock
      · have hleft := buffersLeft_of_effect (o := .submit t) hl (by simp [LinkAction.owner?])
        exact Or.inr (hpos.trans_eq (buffersLeft_update hleft v))
    have hne : v ≠ w := by
      rintro rfl
      exact hquiet t hold
    simp only [State.setLink, Function.update_of_ne hne]
    exact h.pending t v hold

theorem step (h : s.Served) {a : DescriptorAction P n θ} (ha : a.Quiet s)
    (he : DescriptorEffect s a s') : s'.Served := by
  have htable := h.table.step he
  cases he with
  | pool a p hplain hp =>
      have he := effect_of_step hp
      have hflag : ∀ v, (p.link v).requestFd = (s.pool.link v).requestFd :=
        fun v => (link_of_plain he hplain v).1
      refine ⟨htable, ?_, ?_, h.stray⟩
      · intro hstop v
        exact (hflag v).trans (h.running (stopping_of_effect he hstop) v)
      · rintro t v (⟨job, state, taskId, ht⟩ | hpos)
        · refine (hflag v).trans ?_
          rcases chosen_of_effect he ht with hold | hstop
          · exact h.pending t v (Or.inl ⟨job, state, taskId, hold⟩)
          · -- the call has just passed its check, when `Shutdown` had not begun
            exact h.running hstop v
        · refine (hflag v).trans (h.pending t v ?_)
          rcases (link_of_plain he hplain v).2 t with hsame | hlock
          · exact Or.inr (hsame ▸ hpos)
          · exact Or.inl hlock
  | write t k w fd l hcall _ hl _ =>
      obtain ⟨hrunning, hpending⟩ := h.setLink (w := w) (l := l) (p := s.pool.setLink w l) rfl rfl
        (fun _ _ _ _ _ hu => hu) (requestFd_of_effect hl (by simp)) (h.pending_of_effect hcall hl rfl)
      exact ⟨htable, hrunning, hpending, h.stray⟩
  | misdirect t k w fd chunk l hcall hfile _ _ => exact absurd (h.file_of_calls hcall).2 hfile
  | writeFails t w fd l hcall hl _ =>
      obtain ⟨hrunning, hpending⟩ := h.setLink (w := w) (l := l)
        (p := { s.pool.setLink w l with toLedger := s.pool.goTo t .idle }) rfl rfl
        (fun u job state taskId v hu => (of_update_apply_ne hu (by simp)).1)
        (requestFd_of_effect hl (by simp)) (h.pending_of_effect hcall hl rfl)
      exact ⟨htable, hrunning, hpending, h.stray⟩
  | closeRequestFd w rest l hpc hl _ _ =>
      obtain ⟨hrunning, hpending⟩ := h.close hpc hl (ha w rest hpc) rfl
      exact ⟨htable, hrunning, hpending, h.stray⟩
  | skipRequestFd w rest l hpc hl _ _ =>
      obtain ⟨hrunning, hpending⟩ := h.close hpc hl (ha w rest hpc) rfl
      exact ⟨htable, hrunning, hpending, h.stray⟩
  | assignRequestFd w _ => exact ⟨htable, h.running, h.pending, h.stray⟩
  | closeResponseFd w rest l _ _ hl _ _ =>
      obtain ⟨hrunning, hpending⟩ := h.setLink (w := w) (l := l)
        (p := { s.pool.setLink w l with shutdown := .waitpid w rest }) rfl rfl
        (fun _ _ _ _ _ hu => hu) (requestFd_of_effect hl (by simp)) fun u hpos =>
          Or.inr (buffersLeft_of_effect hl (by simp [LinkAction.owner?]) ▸ hpos)
      exact ⟨htable, hrunning, hpending, h.stray⟩
  | skipResponseFd w rest l _ _ hl _ _ =>
      obtain ⟨hrunning, hpending⟩ := h.setLink (w := w) (l := l)
        (p := { s.pool.setLink w l with shutdown := .waitpid w rest }) rfl rfl
        (fun _ _ _ _ _ hu => hu) (requestFd_of_effect hl (by simp)) fun u hpos =>
          Or.inr (buffersLeft_of_effect hl (by simp [LinkAction.owner?]) ▸ hpos)
      exact ⟨htable, hrunning, hpending, h.stray⟩
  | openFile fd _ => exact ⟨htable, h.running, h.pending, h.stray⟩
  | callWriteExact t w job state taskId _ _ => exact ⟨htable, h.running, h.pending, h.stray⟩
  | closeFile fd _ => exact ⟨htable, h.running, h.pending, h.stray⟩

omit [NeZero n] in
theorem initial {s : Descriptors P n θ} (h : s.Initial) : s.Served := by
  refine ⟨Table.initial h, ?_, ?_, h.stray⟩
  all_goals rw [h.pool]
  · exact fun _ _ => rfl
  · exact fun _ _ _ => rfl

end Descriptors.Served

theorem served_of_reachable {s : Descriptors P n θ} (h : (quietDescriptors P n θ).Reachable s) :
    s.Served := by
  refine Automaton.Reachable.invariant (fun _ => Descriptors.Served.initial) ?_ h
  intro s a s' _ hserved hs
  obtain ⟨hquiet, hs⟩ := Automaton.restrict_step_eq_some.1 hs
  exact hserved.step hquiet (descriptorEffect_of_step hs)

/-- **Where `Shutdown` closes no descriptor to which a call of `Submit` has something to write, every
`write` call of `Submit` uses the open descriptor of its worker**, and no byte goes to another file. -/
theorem submit_writes_to_its_worker {s : Descriptors P n θ}
    (h : (quietDescriptors P n θ).Reachable s) :
    s.stray = [] ∧
      ∀ t w fd, s.Calls t w fd → fd = s.requestFd w ∧ s.file fd = .request w := by
  have hserved := served_of_reachable h
  exact ⟨hserved.stray, fun _ _ _ hcall => hserved.file_of_calls hcall⟩

/-- Where no descriptor is closed too early, a run is one of the pool. -/
noncomputable def quietSimulation :
    Automaton.Simulation (quietDescriptors P n θ) (system P n θ) where
  abs := Descriptors.pool
  init _ hs := hs.pool
  step s a s' hr hs := by
    have hserved := served_of_reachable hr
    obtain ⟨-, hs⟩ := Automaton.restrict_step_eq_some.1 hs
    have he := descriptorEffect_of_step hs
    cases he with
    | pool a p _ hp => exact Automaton.Steps.single (a := a) hp
    | write t k w fd l _ _ _ hp => exact Automaton.Steps.single (a := .link w (.write (.submit t) k)) hp
    | misdirect t k w fd chunk l hcall hfile _ _ =>
        exact absurd (hserved.file_of_calls hcall).2 hfile
    | writeFails t w fd l _ _ hp => exact Automaton.Steps.single (a := .writeFails t) hp
    | closeRequestFd w rest l _ _ hp _ => exact Automaton.Steps.single (a := .closeRequestFd) hp
    | skipRequestFd w rest l _ _ hp _ => exact Automaton.Steps.single (a := .closeRequestFd) hp
    | closeResponseFd w rest l _ _ _ hp _ => exact Automaton.Steps.single (a := .closeResponseFd) hp
    | skipResponseFd w rest l _ _ _ hp _ => exact Automaton.Steps.single (a := .closeResponseFd) hp
    | callWriteExact t w job state taskId _ _ => exact Automaton.Steps.refl
    | assignRequestFd w _ => exact Automaton.Steps.refl
    | openFile fd _ => exact Automaton.Steps.refl
    | closeFile fd _ => exact Automaton.Steps.refl

end Quiet

/-! ### A request that goes to another file -/

/-- The pool after its constructor, with one worker: the descriptors below 3 are those of the terminal,
and the ends of the two socket pairs that belong to the worker have been closed. -/
def Descriptors.spawned (w : Fin n) : Descriptors P n θ :=
  { pool := State.initial
    requestFd := fun _ => 3
    responseFd := fun _ => 5
    file := fun fd =>
      if fd = 3 then .request w else if fd = 5 then .response w
      else if 0 ≤ fd ∧ fd ≤ 2 then .other else .closed
    writing := fun _ => none
    assigning := none
    stray := [] }

theorem initial_spawned : (Descriptors.spawned 0 : Descriptors P 1 θ).Initial := by
  refine ⟨rfl, ?_, ?_, ?_, fun _ => rfl, rfl, rfl⟩
  · intro w fd
    obtain rfl := Subsingleton.elim w 0
    simp only [Descriptors.spawned]
    split_ifs <;> simp <;> omega
  · intro w fd
    obtain rfl := Subsingleton.elim w 0
    simp only [Descriptors.spawned]
    split_ifs <;> simp <;> omega
  · intro fd hfd
    simp only [Descriptors.spawned] at hfd
    split_ifs at hfd <;> simp at hfd <;> omega

/-- A call of `Submit` has chosen the worker, and is about to write its request. -/
def callSteps (t : θ) (job : Job P) : List (DescriptorAction P n θ) :=
  (submitSteps t job ++ [Action.lockWriteMutex t]).map .pool ++ [DescriptorAction.callWriteExact t]

/-- The pool after its constructor, with two workers. -/
def Descriptors.spawnedTwo : Descriptors P 2 θ :=
  { pool := State.initial
    requestFd := fun w => if w = 0 then 3 else 4
    responseFd := fun w => if w = 0 then 5 else 7
    file := fun fd =>
      if fd = 3 then .request 0 else if fd = 4 then .request 1
      else if fd = 5 then .response 0 else if fd = 7 then .response 1
      else if 0 ≤ fd ∧ fd ≤ 2 then .other else .closed
    writing := fun _ => none
    assigning := none
    stray := [] }

theorem initial_spawnedTwo : (Descriptors.spawnedTwo : Descriptors P 2 θ).Initial := by
  refine ⟨rfl, ?_, ?_, ?_, fun _ => rfl, rfl, rfl⟩
  · intro w fd
    obtain rfl | rfl : w = 0 ∨ w = 1 := by omega
    · simp only [Descriptors.spawnedTwo]
      split_ifs <;> simp <;> omega
    · simp only [Descriptors.spawnedTwo]
      split_ifs <;> simp <;> omega
  · intro w fd
    obtain rfl | rfl : w = 0 ∨ w = 1 := by omega
    · simp only [Descriptors.spawnedTwo]
      split_ifs <;> simp <;> omega
    · simp only [Descriptors.spawnedTwo]
      split_ifs <;> simp <;> omega
  · intro fd hfd
    simp only [Descriptors.spawnedTwo] at hfd
    split_ifs at hfd <;> simp at hfd <;> omega

/-- The steps in which no descriptor of a request stream is closed are not restricted. -/
theorem run_quietDescriptors [DecidableEq θ] [NeZero n] {as : List (DescriptorAction P n θ)}
    (h : ∀ a ∈ as, a ≠ .closeRequestFd) (s : Descriptors P n θ) :
    (quietDescriptors P n θ).run s as = (descriptors P n θ).run s as := by
  refine Automaton.run_restrict ?_ s
  intro a ha u
  cases a with
  | closeRequestFd => exact absurd rfl (h _ ha)
  | _ => exact trivial

/-- A call of `Submit` has chosen the worker `w`, another one has been answered by the worker `v`, and
`Shutdown` has joined the readers. -/
def joinedRun (v w : Fin n) : List (DescriptorAction byteProgram n Bool) :=
  (submitSteps false (byteJob 1 5)).map .pool ++
    [.pool (.lockWriteMutex false), .callWriteExact false, .write false 32, .callWriteExact false,
      .write false 9] ++
    ([Action.returnFuture false] ++ answerSteps v 25 ++ submitSteps true (byteJob 2 6) ++
      [Action.shutdown] ++ stopSteps v ++ stopSteps w ++ [Action.nextLoop] ++ leaveSteps v ++
      leaveSteps w ++ [Action.join, .join, .nextLoop]).map .pool

/-- `Shutdown` closes the descriptor of one worker while a call of `Submit` has still to write its
request to the other one. -/
theorem submit_writes_to_its_worker_other_closed :
    ∃ s s' : Descriptors byteProgram 2 Bool, (quietDescriptors byteProgram 2 Bool).Reachable s ∧
      s.pool.Pending true 1 ∧
      (quietDescriptors byteProgram 2 Bool).run s [.closeRequestFd, .assignRequestFd,
        .pool (.lockWriteMutex true), .callWriteExact true] = some s' ∧
      s'.requestFd 0 = -1 ∧ s'.file 3 = .closed ∧ s'.Calls true 1 4 ∧
      4 = s'.requestFd 1 ∧ s'.file 4 = .request 1 := by
  obtain ⟨s, hs⟩ : ∃ s, (descriptors byteProgram 2 Bool).run Descriptors.spawnedTwo (joinedRun 0 1) =
      some s :=
    ⟨_, rfl⟩
  have hquiet : ∀ a ∈ joinedRun (0 : Fin 2) 1, a ≠ DescriptorAction.closeRequestFd := by
    simp [joinedRun, submitSteps, answerSteps, stopSteps, leaveSteps]
  have hr : (quietDescriptors byteProgram 2 Bool).Reachable s :=
    Automaton.Reachable.of_run initial_spawnedTwo ((run_quietDescriptors hquiet _).trans hs)
  obtain ⟨hclosing, hidle, hwaiting, hfree⟩ : s.pool.shutdown = .closeRequest [0, 1] ∧
      s.pool.thread false = .idle ∧
      s.pool.thread true = .lockWriteMutex (byteJob 2 6) 1 2 1 ∧
      (s.pool.link 0).writeMutex = none := by
    obtain rfl := Option.some_inj.1 hs
    exact ⟨rfl, rfl, rfl, rfl⟩
  have hpending : s.pool.Pending true 1 := Or.inl ⟨_, _, _, hwaiting⟩
  -- nobody has something to write to the worker whose descriptor is closed first
  have hclose : (DescriptorAction.closeRequestFd : DescriptorAction byteProgram 2 Bool).Quiet s := by
    intro w rest hpc t ht
    obtain ⟨rfl, -⟩ : w = 0 ∧ rest = [1] := by
      rw [hclosing] at hpc
      simpa [eq_comm] using hpc
    rcases ht with ⟨job, state, taskId, ht⟩ | hleft
    · cases t with
      | false => simp [hidle] at ht
      | true => simp [hwaiting] at ht
    · simp [Link.buffersLeft, hfree] at hleft
  obtain ⟨s', hs'⟩ : ∃ s', (descriptors byteProgram 2 Bool).run s [.closeRequestFd, .assignRequestFd,
      .pool (.lockWriteMutex true), .callWriteExact true] = some s' := by
    obtain rfl := Option.some_inj.1 hs
    exact ⟨_, rfl⟩
  have hrun : (quietDescriptors byteProgram 2 Bool).run s [.closeRequestFd, .assignRequestFd,
      .pool (.lockWriteMutex true), .callWriteExact true] = some s' := by
    have hstep : (quietDescriptors byteProgram 2 Bool).step s .closeRequestFd =
        (descriptors byteProgram 2 Bool).step s .closeRequestFd := if_pos hclose
    rw [← hs', Automaton.run, Automaton.run, hstep]
    exact congrArg _ (funext fun t => run_quietDescriptors (by simp) t)
  obtain ⟨hassigned, hclosed, hcall⟩ : s'.requestFd 0 = -1 ∧ s'.file 3 = .closed ∧
      s'.Calls true 1 4 := by
    obtain rfl := Option.some_inj.1 hs
    obtain rfl := Option.some_inj.1 hs'
    exact ⟨rfl, rfl, rfl, _, _, _, rfl⟩
  exact ⟨s, s', hr, hpending, hrun, hassigned, hclosed, hcall,
    (submit_writes_to_its_worker (hr.steps (Automaton.Steps.of_run hrun))).2 true 1 4 hcall⟩

/-- A call of `Submit` passes its check before `Shutdown` begins, and goes on when the request stream has
been closed and another file has been opened. -/
def reuseRun (w : Fin n) : List (DescriptorAction byteProgram n Bool) :=
  (submitSteps false (byteJob 1 5) ++ [Action.shutdown] ++ stopSteps w ++ [Action.nextLoop] ++
    leaveSteps w ++ [Action.join, .nextLoop]).map .pool ++
    [DescriptorAction.closeRequestFd, .openFile 3, .pool (.lockWriteMutex false),
      .callWriteExact false]

/-- **A closed descriptor number is used**: the header of a task goes to another file. -/
theorem closed_descriptor_reused :
    ∃ s s' : Descriptors byteProgram 1 Bool, (descriptors byteProgram 1 Bool).Reachable s ∧
      s.Calls false 0 3 ∧ s.file 3 = .other ∧ s.step (.write false 32) = some s' ∧
      s'.stray = (Frame.run 1 (byteJob 1 5)).taskHeader.bytes := by
  obtain ⟨s, hs⟩ : ∃ s, (descriptors byteProgram 1 Bool).run (Descriptors.spawned 0) (reuseRun 0) =
      some s :=
    ⟨_, rfl⟩
  have hr : (descriptors byteProgram 1 Bool).Reachable s :=
    Automaton.Reachable.of_run initial_spawned hs
  obtain ⟨s', hs'⟩ : ∃ s', s.step (.write false 32) = some s' := by
    obtain rfl := Option.some_inj.1 hs
    exact ⟨_, rfl⟩
  refine ⟨s, s', hr, ?_, ?_, hs', ?_⟩
  · obtain rfl := Option.some_inj.1 hs
    exact ⟨rfl, _, _, _, rfl⟩
  · obtain rfl := Option.some_inj.1 hs
    rfl
  · obtain rfl := Option.some_inj.1 hs
    obtain rfl := Option.some_inj.1 hs'
    rfl

end ProcessPool
