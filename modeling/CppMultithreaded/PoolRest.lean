/-
**The process pool comes to rest.**

A call of `Submit` or `Shutdown` waits for `write_mutex`, for readers and for workers, and these for
requests and responses.  A `write` waits for room in the stream.  None of them waits for ever: a reader
waits for nothing but bytes, so that a worker gets its responses away and comes back to its requests; the
holder of a `write_mutex` gets its request away, unless the worker has died and the write fails; a worker
that gets a stop request leaves, and its reader follows.  Where no call begins, the pool therefore comes
to rest, whatever the order of the steps and whichever workers die: every call has returned, the workers
are gone or wait for a request, and the `Future`s are ready, apart from those of workers that have died
before `Shutdown`.

Main definitions:

* `ProcessPool.State.holds`, `ProcessPool.State.holder` — which thread holds which `write_mutex`;
* `ProcessPool.Link.Tidy`, `ProcessPool.State.Tidy` — what the program points say about the history;
* `ProcessPool.settling` — the pool with bounded streams, where no call begins;
* `ProcessPool.State.AtRest` — nothing is left to do.

Main results:

* `ProcessPool.State.Tidy.step` — every step keeps the invariant;
* `ProcessPool.at_rest_of_stuck` — **a pool that cannot go on is at rest**;
* `ProcessPool.calls_return` — **every call returns**.
-/

import CppMultithreaded.Completion
import CppMultithreaded.Ownership
import CppMultithreaded.PoolDeath
import CppMultithreaded.PoolRank

set_option relaxedAutoImplicit false
set_option autoImplicit false

namespace ProcessPool

variable {τ θ : Type*} {P : Program τ} {n : ℕ}

/-! ### The holders of the mutexes -/

/-- The `write_mutex` that a call of `Submit` holds, and its request. -/
def SubmitPc.holding : SubmitPc P n → Option (Fin n × Frame P)
  | .write job _ taskId w => some (w, .run taskId job)
  | _ => none

/-- The `write_mutex` that `Shutdown` holds, and its request. -/
def ShutdownPc.holding : ShutdownPc n → Option (Fin n × Frame P)
  | .writeStop w _ => some (w, .stop)
  | _ => none

/-- The `write_mutex` that a thread holds. -/
def State.holds (s : State P n θ) : Owner θ → Option (Fin n × Frame P)
  | .submit t => (s.thread t).holding
  | .shutdown => s.shutdown.holding

/-- The thread that holds a `write_mutex`. -/
def Link.holder (l : Link P θ) : Option (Owner θ × Frame P) := l.writeMutex.map fun m => (m.1, m.2.1)

/-- The threads that hold the mutexes. -/
def State.holder (s : State P n θ) (w : Fin n) : Option (Owner θ × Frame P) := (s.link w).holder

theorem Link.holder_eq_some {l : Link P θ} {o : Owner θ} {f : Frame P} :
    l.holder = some (o, f) ↔ ∃ todo, l.writeMutex = some (o, f, todo) := by
  constructor
  · intro h
    obtain ⟨⟨o', f', todo⟩, hm, heq⟩ := Option.map_eq_some_iff.1 h
    obtain ⟨rfl, rfl⟩ := Prod.mk.inj heq
    exact ⟨todo, hm⟩
  · rintro ⟨todo, hm⟩
    rw [holder, hm]
    rfl

/-- The step neither locks nor unlocks `write_mutex`. -/
def LinkAction.keepsHolder : LinkAction P θ → Bool
  | .lock _ _ | .writeFails _ | .unlock _ => false
  | _ => true

section Holders

variable [DecidableEq θ] {l l' : Link P θ}

omit [DecidableEq θ] in
theorem Link.holder_of_effect {a : LinkAction P θ} (ha : a.keepsHolder = true)
    (he : LinkEffect l a l') : l'.holder = l.holder := by
  cases he with
  | lock o f _ => cases ha
  | writeFails o f todo _ _ _ => cases ha
  | unlock o f _ => cases ha
  | write o k f todo todo' chunk hm _ _ =>
      rw [holder, holder, hm]
      rfl
  | execute outcome header payload _ _ hexec =>
      rw [holder, holder, (begun_execute hexec).2.2.1]
  | _ => rfl

omit [DecidableEq θ] in
theorem Link.holder_of_lock {o : Owner θ} {f : Frame P} (he : LinkEffect l (.lock o f) l') :
    l.holder = none ∧ l'.holder = some (o, f) := by
  cases he with
  | lock o f hm =>
      refine ⟨?_, rfl⟩
      rw [holder, hm]
      rfl

omit [DecidableEq θ] in
theorem Link.holder_of_unlock {o : Owner θ}
    (he : LinkEffect l (.unlock o) l' ∨ LinkEffect l (.writeFails o) l') :
    (∃ f, l.holder = some (o, f)) ∧ l'.holder = none := by
  rcases he with he | he
  · cases he with
    | unlock o f hm => exact ⟨⟨f, holder_eq_some.2 ⟨[], hm⟩⟩, rfl⟩
  · cases he with
    | writeFails o f todo hm _ _ => exact ⟨⟨f, holder_eq_some.2 ⟨todo, hm⟩⟩, rfl⟩

variable {s s' : State P n θ}

/-- A thread moves on. -/
theorem State.holds_of_thread (t : θ) (pc : SubmitPc P n)
    (hthread : s'.thread = Function.update s.thread t pc) (hshutdown : s'.shutdown = s.shutdown) :
    s'.holds = Function.update s.holds (.submit t) pc.holding := by
  funext o
  cases o with
  | submit u =>
      rcases eq_or_ne u t with rfl | hne
      · simp [holds, hthread]
      · rw [Function.update_of_ne (by simpa using hne)]
        simp [holds, hthread, Function.update_of_ne hne]
  | shutdown =>
      rw [Function.update_of_ne (by simp)]
      simp [holds, hshutdown]

/-- `Shutdown` moves on. -/
theorem State.holds_of_shutdown (hthread : s'.thread = s.thread) :
    s'.holds = Function.update s.holds .shutdown s'.shutdown.holding := by
  funext o
  cases o with
  | submit u =>
      rw [Function.update_of_ne (by simp)]
      simp [holds, hthread]
  | shutdown => simp [holds]

omit [DecidableEq θ] in
/-- A link changes. -/
theorem State.holder_of_link {w : Fin n} {l : Link P θ}
    (hlink : s'.link = Function.update s.link w l) :
    s'.holder = Function.update s.holder w l.holder := by
  funext v
  rcases eq_or_ne v w with rfl | hne
  · simp [holder, hlink]
  · simp [holder, hlink, Function.update_of_ne hne]

/-- **What a step does to the mutexes.** -/
theorem move_of_effect [NeZero n] {a : Action P n θ}
    (hidle : s.stopping = false → s.shutdown = .notStarted) (he : Effect s a s') :
    Ownership.Move s.holds s.holder s'.holds s'.holder := by
  have hthread : ∀ {t : θ} {pc : SubmitPc P n}, s'.thread = Function.update s.thread t pc →
      s'.shutdown = s.shutdown → pc.holding = none → (s.thread t).holding = none →
      s'.holds = s.holds := by
    intro t pc hth hsh hnone hold
    rw [State.holds_of_thread t pc hth hsh, hnone, ← hold]
    exact Function.update_eq_self (Owner.submit t) s.holds
  have hshutdown : s'.thread = s.thread → (s'.shutdown.holding : Option (Fin n × Frame P)) = none →
      (s.shutdown.holding : Option (Fin n × Frame P)) = none → s'.holds = s.holds := by
    intro hth hnone hold
    rw [State.holds_of_shutdown hth, hnone, ← hold]
    exact Function.update_eq_self Owner.shutdown s.holds
  have hlink : ∀ {w : Fin n} {b : LinkAction P θ} {l : Link P θ}, LinkEffect (s.link w) b l →
      b.keepsHolder = true → s'.link = Function.update s.link w l → s'.holder = s.holder := by
    intro w b l hl hb hupdate
    rw [State.holder_of_link hupdate, Link.holder_of_effect hb hl]
    exact Function.update_eq_self w s.holder
  cases he with
  | makeState t job ht => exact .keep (hthread rfl rfl rfl (by rw [ht]; rfl)) rfl
  | fetchTaskId t job state ht => exact .keep (hthread rfl rfl rfl (by rw [ht]; rfl)) rfl
  | insertPending t job state taskId ht => exact .keep (hthread rfl rfl rfl (by rw [ht]; rfl)) rfl
  | refuse t job state taskId ht _ => exact .keep (hthread rfl rfl rfl (by rw [ht]; rfl)) rfl
  | chooseWorker t job state taskId ht _ => exact .keep (hthread rfl rfl rfl (by rw [ht]; rfl)) rfl
  | lockWriteMutex t job state taskId w l ht hl =>
      obtain ⟨hfree, hheld⟩ := Link.holder_of_lock hl
      refine .take (.submit t) w (.run taskId job) ?_ hfree
        (State.holds_of_thread t (.write job state taskId w) rfl rfl) ?_
      · show (s.thread t).holding = none
        rw [ht]
        rfl
      · rw [← hheld]
        exact State.holder_of_link rfl
  | writeFails t job state taskId w l ht hl =>
      obtain ⟨⟨f, hf⟩, hnone⟩ := Link.holder_of_unlock (Or.inr hl)
      refine .free (.submit t) w f hf (State.holds_of_thread t .idle rfl rfl) ?_
      rw [← hnone]
      exact State.holder_of_link rfl
  | returnFuture t job state taskId w l ht hl =>
      obtain ⟨⟨f, hf⟩, hnone⟩ := Link.holder_of_unlock (Or.inl hl)
      refine .free (.submit t) w f hf (State.holds_of_thread t .idle rfl rfl) ?_
      rw [← hnone]
      exact State.holder_of_link rfl
  | internal w b l hinternal hl =>
      exact .keep rfl (hlink hl (by cases b <;> first | rfl | cases hinternal) rfl)
  | execute w outcome t header payload l _ _ hl => exact .keep rfl (hlink hl rfl rfl)
  | kill w outcome header payload l _ _ hl => exact .keep rfl (hlink hl rfl rfl)
  | crash w t header payload l _ _ hl => exact .keep rfl (hlink hl rfl rfl)
  | lookup w header payload l _ hl => exact .keep rfl (hlink hl rfl rfl)
  | complete w handler l _ hl => exact .keep rfl (hlink hl rfl rfl)
  | shutdown hstop => exact .keep (hshutdown rfl rfl (by rw [hidle hstop]; rfl)) rfl
  | shutdownAgain _ => exact .keep rfl rfl
  | lockStop w rest l hpc hl =>
      obtain ⟨hfree, hheld⟩ := Link.holder_of_lock hl
      refine .take .shutdown w .stop ?_ hfree (State.holds_of_shutdown rfl) ?_
      · show s.shutdown.holding = none
        rw [hpc]
        rfl
      · rw [← hheld]
        exact State.holder_of_link rfl
  | stopFails w rest l hpc hl =>
      obtain ⟨⟨f, hf⟩, hnone⟩ := Link.holder_of_unlock (Or.inr hl)
      refine .free .shutdown w f hf (State.holds_of_shutdown rfl) ?_
      rw [← hnone]
      exact State.holder_of_link rfl
  | unlockStop w rest l hpc hl =>
      obtain ⟨⟨f, hf⟩, hnone⟩ := Link.holder_of_unlock (Or.inl hl)
      refine .free .shutdown w f hf (State.holds_of_shutdown rfl) ?_
      rw [← hnone]
      exact State.holder_of_link rfl
  | join w rest hpc _ => exact .keep (hshutdown rfl rfl (by rw [hpc]; rfl)) rfl
  | closeRequestFd w rest l hpc hl =>
      exact .keep (hshutdown rfl rfl (by rw [hpc]; rfl)) (hlink hl rfl rfl)
  | closeResponseFd w rest l hpc hl =>
      exact .keep (hshutdown rfl rfl (by rw [hpc]; rfl)) (hlink hl rfl rfl)
  | waitpid w rest hpc _ => exact .keep (hshutdown rfl rfl (by rw [hpc]; rfl)) rfl
  | nextLoop pc hloop =>
      obtain ⟨hpc, rfl⟩ | ⟨hpc, rfl⟩ | ⟨hpc, rfl⟩ | ⟨hpc, rfl⟩ := ShutdownPc.afterLoop_cases hloop
      all_goals exact .keep (hshutdown rfl rfl (by rw [hpc]; rfl)) rfl
  | swapPending hpc => exact .keep (hshutdown rfl rfl (by rw [hpc]; rfl)) rfl
  | failPending taskId p temp hpc _ => exact .keep (hshutdown rfl rfl (by rw [hpc]; rfl)) rfl

end Holders

/-! ### What the program points say about the history -/

/-- A worker that has taken a stop request has left its loop, one that responds has something to write,
and a request has been written when nothing of it is left. -/
structure Link.Tidy (l : Link P θ) : Prop where
  stopped : l.worker.got.isSome = true → Frame.stop ∉ l.taken
  responding : ∀ todo, l.worker = .respond todo → todo ≠ []
  posted : ∀ o f, l.writeMutex = some (o, f, []) → f ∈ l.written

/-- A worker that gets some bytes does not respond. -/
theorem WorkerPc.receive_ne_respond {p : WorkerPc} {chunk : List UInt8} {todo : List (List UInt8)}
    (h : 0 < p.wants) : p.receive chunk ≠ .respond todo := by
  cases p with
  | readHeader got =>
      simp only [receive, afterHeader]
      split_ifs <;> simp
  | readPayload header got =>
      simp only [receive]
      split_ifs <;> simp
  | _ => simp [wants] at h

namespace Link

variable {l l' : Link P θ}

/-- What has been written stays. -/
theorem written_of_effect {a : LinkAction P θ} (he : LinkEffect l a l') : l.written ⊆ l'.written := by
  cases he with
  | write o k f todo todo' chunk _ _ _ =>
      simp only
      split_ifs
      · exact List.subset_append_left _ _
      · exact List.Subset.refl _
  | execute outcome header payload _ _ hexec =>
      rw [(begun_execute hexec).2.1]
      exact List.Subset.refl _
  | _ => exact List.Subset.refl _

/-- A worker that is gone stays gone. -/
theorem gone_of_effect {a : LinkAction P θ} (h : l.worker = .gone) (he : LinkEffect l a l') :
    l'.worker = .gone := by
  cases he with
  | readStop k hpos hwants _ => simp [h, WorkerPc.wants] at hwants; omega
  | readRequest k hpos hwants _ => simp [h, WorkerPc.wants] at hwants; omega
  | requestEof hwants _ _ => simp [h, WorkerPc.wants] at hwants
  | execute outcome header payload _ hw _ => simp [h] at hw
  | crash header payload hw => simp [h] at hw
  | writeResponse k todo todo' chunk hw _ => simp [h] at hw
  | responseFails todo hw _ => simp [h] at hw
  | leave p hp => simp [h, WorkerPc.next] at hp
  | die => rfl
  | _ => exact h

theorem Tidy.step (h : l.Tidy) (hf : l.Framed) {a : LinkAction P θ} (he : LinkEffect l a l') :
    l'.Tidy := by
  cases he with
  | lock o f _ =>
      refine ⟨h.stopped, h.responding, ?_⟩
      intro o' f' hm
      simp [buffers] at hm
  | write o k f todo todo' chunk _ _ _ =>
      refine ⟨h.stopped, h.responding, ?_⟩
      intro o' f' hm
      obtain ⟨-, rfl, rfl⟩ : o = o' ∧ f = f' ∧ todo' = [] := by simpa using hm
      simp
  | writeFails o f todo _ _ _ => exact ⟨h.stopped, h.responding, by simp⟩
  | unlock o f _ => exact ⟨h.stopped, h.responding, by simp⟩
  | readStop k _ _ _ => exact ⟨by simp [take, WorkerPc.got], by simp [take], h.posted⟩
  | readRequest k hpos hwants _ =>
      obtain ⟨got, hgot, -⟩ := Framed.got_of_wants (hpos.trans_le hwants)
      refine ⟨fun _ => h.stopped (by rw [hgot]; rfl), ?_, h.posted⟩
      intro todo hw
      exact absurd hw (WorkerPc.receive_ne_respond (hpos.trans_le hwants))
  | requestEof hwants _ _ => exact ⟨by simp [WorkerPc.got], by simp, h.posted⟩
  | execute outcome header payload l' hw hexec =>
      obtain ⟨taskId, job, rest, hrequests, -, rfl, -⟩ := hf.execute hw hexec
      have hold := h.stopped (by rw [hw]; rfl)
      refine ⟨?_, ?_, h.posted⟩
      · simp [reply, take, hrequests, hold]
      · intro todo hw'
        obtain rfl : buffers _ _ = todo := by simpa [reply] using hw'
        simp [buffers]
  | crash header payload hw => exact ⟨by simp [take, kill, WorkerPc.got], by simp [take, kill], h.posted⟩
  | writeResponse k todo todo' chunk hw _ =>
      refine ⟨fun _ => h.stopped (by rw [hw]; rfl), ?_, h.posted⟩
      intro todo'' hw'
      simp only at hw'
      split_ifs at hw' with hnil
      obtain rfl := WorkerPc.respond.inj hw'
      exact hnil
  | responseFails todo _ _ => exact ⟨by simp [WorkerPc.got], by simp, h.posted⟩
  | leave p hp =>
      cases hw : l.worker <;> simp [hw, WorkerPc.next] at hp
      all_goals
        subst hp
        exact ⟨by simp [WorkerPc.got], by simp, h.posted⟩
  | die => exact ⟨by simp [kill, WorkerPc.got], by simp [kill], h.posted⟩
  | _ => exact ⟨h.stopped, h.responding, h.posted⟩

theorem Tidy.initial : (Link.initial : Link P θ).Tidy := by
  constructor <;> simp [Link.initial]

end Link

/-- **What the program points of the pool say about the history.** -/
structure State.Tidy (s : State P n θ) : Prop where
  agree : Ownership.Agree s.holds s.holder
  link : ∀ w, (s.link w).Tidy
  /-- `Shutdown` has sent its request to the workers that its first loop is done with. -/
  stopSent : ∀ w, w ∉ s.shutdown.stopsLeft → Frame.stop ∈ (s.link w).begun
  /-- A request that has crashed has killed its worker. -/
  crashed : ∀ e ∈ s.executed, e.response = none → (s.link e.worker).worker = .gone
  /-- `Submit` returns when the request has been written. -/
  returned : ∀ x ∈ s.returned, ∃ w i, s.task i = some x ∧ Frame.run i x.1 ∈ (s.link w).written

section Tidy

variable [DecidableEq θ] [NeZero n] {s s' : State P n θ} {a : Action P n θ}

/-- The stop requests that `Shutdown` has still to send: it sends one, or none. -/
theorem stopsLeft_of_effect_eq (hidle : s.stopping = false → s.shutdown = .notStarted)
    (he : Effect s a s') : (∃ w rest, s.shutdown.stopsLeft = w :: rest ∧
      s'.shutdown.stopsLeft = rest ∧ Frame.stop ∈ (s'.link w).begun) ∨
        s'.shutdown.stopsLeft = s.shutdown.stopsLeft := by
  cases he with
  | lockStop w rest l hpc hl =>
      refine Or.inl ⟨w, rest, by rw [hpc]; rfl, rfl, ?_⟩
      simp only [State.setLink, Function.update_self]
      rw [Link.begun_of_effect hl]
      exact List.mem_append_right _ List.mem_cons_self
  | shutdown hstop => exact Or.inr (by rw [hidle hstop]; rfl)
  | stopFails w rest l hpc _ => exact Or.inr (by rw [hpc]; rfl)
  | unlockStop w rest l hpc _ => exact Or.inr (by rw [hpc]; rfl)
  | join w rest hpc _ => exact Or.inr (by rw [hpc]; rfl)
  | closeRequestFd w rest l hpc _ => exact Or.inr (by rw [hpc]; rfl)
  | closeResponseFd w rest l hpc _ => exact Or.inr (by rw [hpc]; rfl)
  | waitpid w rest hpc _ => exact Or.inr (by rw [hpc]; rfl)
  | nextLoop pc hloop =>
      obtain ⟨hpc, rfl⟩ | ⟨hpc, rfl⟩ | ⟨hpc, rfl⟩ | ⟨hpc, rfl⟩ := ShutdownPc.afterLoop_cases hloop
      all_goals exact Or.inr (by rw [hpc]; rfl)
  | swapPending hpc => exact Or.inr (by rw [hpc]; rfl)
  | failPending taskId p temp hpc _ => exact Or.inr (by rw [hpc]; rfl)
  | _ => exact Or.inr rfl

/-- What a link keeps, the pool keeps. -/
theorem link_of_effect {I : Link P θ → Prop} (he : Effect s a s') {w : Fin n}
    (hstep : ∀ b l, LinkEffect (s.link w) b l → I (s.link w) → I l) (h : I (s.link w)) :
    I (s'.link w) := by
  rcases he.link w with hsame | ⟨b, -, hl⟩
  · rwa [hsame]
  · exact hstep b _ hl h

/-- The executions: the old ones, one that has a response, or one that has killed its worker. -/
theorem executed_cases (he : Effect s a s') {e : Execution n} (h : e ∈ s'.executed) :
    e ∈ s.executed ∨ e.response.isSome = true ∨ (s'.link e.worker).worker = .gone := by
  cases he with
  | execute w outcome t header payload l _ _ _ =>
      refine (List.mem_append.1 h).imp_right ?_
      intro hnew
      rw [List.mem_singleton.1 hnew]
      exact Or.inl rfl
  | crash w t header payload l _ _ hl =>
      refine (List.mem_append.1 h).imp_right ?_
      intro hnew
      rw [List.mem_singleton.1 hnew]
      refine Or.inr ?_
      cases hl with
      | crash header payload _ => simp [State.setLink, Execution.ofCrash, Link.kill, Link.take]
  | _ => exact Or.inl h

/-- What `Submit` returns has been written. -/
theorem returned_cases (h : s.Tidy) (hsound : s.Sound) (he : Effect s a s') {x : Job P × ℕ}
    (hx : x ∈ s'.returned) : x ∈ s.returned ∨
      ∃ w i, s.task i = some x ∧ Frame.run i x.1 ∈ (s.link w).written := by
  cases he with
  | returnFuture t job state taskId w l ht hl =>
      refine (List.mem_append.1 hx).imp_right ?_
      intro hnew
      rw [List.mem_singleton.1 hnew]
      have htask : s.task taskId = some (job, state) :=
        hsound.named.of_thread t job state taskId (by
          show (s.thread t).task? = _
          rw [ht]
          rfl)
      refine ⟨w, taskId, htask, ?_⟩
      have hholds : s.holds (.submit t) = some (w, .run taskId job) := by
        show (s.thread t).holding = _
        rw [ht]
        rfl
      obtain ⟨todo, hm⟩ := Link.holder_eq_some.1 ((h.agree _ _ _).1 hholds)
      cases hl with
      | unlock _ f hm' =>
          obtain ⟨rfl, -⟩ : Frame.run taskId job = f ∧ todo = [] := by simpa using hm.symm.trans hm'
          exact (h.link w).posted _ _ hm'
  | _ => exact Or.inl hx

/-- **Every step keeps the invariant.** -/
theorem State.Tidy.step (h : s.Tidy) (hsound : s.Sound) (he : Effect s a s') : s'.Tidy := by
  have hbegun : ∀ w f, f ∈ (s.link w).begun → f ∈ (s'.link w).begun := by
    intro w f hf
    refine link_of_effect (I := fun l => f ∈ l.begun) he ?_ hf
    intro b l hl hmem
    rw [Link.begun_of_effect hl]
    exact List.mem_append_left _ hmem
  have hgone : ∀ w, (s.link w).worker = .gone → (s'.link w).worker = .gone := by
    intro w hw
    exact link_of_effect (I := fun l => l.worker = .gone) he
      (fun b l hl hgone => Link.gone_of_effect hgone hl) hw
  have hposted : ∀ x, (∃ w i, s.task i = some x ∧ Frame.run i x.1 ∈ (s.link w).written) →
      ∃ w i, s'.task i = some x ∧ Frame.run i x.1 ∈ (s'.link w).written := by
    rintro x ⟨w, i, htask, hmem⟩
    refine ⟨w, i, (executed_of_effect hsound he).2 i x htask, ?_⟩
    exact link_of_effect (I := fun l => Frame.run i x.1 ∈ l.written) he
      (fun b l hl hwritten => Link.written_of_effect hl hwritten) hmem
  refine ⟨h.agree.move (move_of_effect hsound.idle he), ?_, ?_, ?_, ?_⟩
  · intro w
    exact link_of_effect (I := Link.Tidy) he (fun b l hl htidy => htidy.step (hsound.framed w) hl)
      (h.link w)
  · intro w hw
    rcases stopsLeft_of_effect_eq hsound.idle he with ⟨v, rest, hleft, hleft', hsent⟩ | hsame
    · rcases eq_or_ne w v with rfl | hne
      · exact hsent
      · refine hbegun w _ (h.stopSent w ?_)
        rw [hleft, List.mem_cons, not_or]
        exact ⟨hne, hleft' ▸ hw⟩
    · exact hbegun w _ (h.stopSent w (hsame ▸ hw))
  · intro e hmem hnone
    rcases executed_cases he hmem with hold | hsome | hdead
    · exact hgone _ (h.crashed e hold hnone)
    · rw [hnone] at hsome
      cases hsome
    · exact hdead
  · intro x hx
    rcases returned_cases h hsound he hx with hold | hnew
    · exact hposted x (h.returned x hold)
    · exact hposted x hnew

omit [DecidableEq θ] [NeZero n] in
theorem tidy_initial : (State.initial : State P n θ).Tidy := by
  refine ⟨?_, fun _ => Link.Tidy.initial, ?_, ?_, ?_⟩
  · intro o w f
    cases o <;> simp [State.holds, State.holder, Link.holder, State.initial, Ledger.initial,
      Link.initial, SubmitPc.holding, ShutdownPc.holding]
  · simp [State.initial, ShutdownPc.stopsLeft]
  · simp [State.initial, Ledger.initial]
  · simp [State.initial, Ledger.initial]

theorem tidy_of_reachable (h : (pool P n θ).Reachable s) : s.Tidy := by
  refine Automaton.Reachable.invariant ?_ ?_ h
  · intro s hs
    rw [show s = State.initial from hs]
    exact tidy_initial
  · intro s a s' hr htidy hs
    exact htidy.step (sound_of_reachable hr)
      (effect_of_step (Automaton.restrict_step_eq_some.1 hs).2)

end Tidy

/-! ### Links that wait -/

/-- A link where nothing is in flight: the worker waits for a request, and the reader for a response. -/
structure Link.Waits (l : Link P θ) : Prop where
  worker : l.worker = .readHeader []
  reader : l.reader = .readHeader []
  requests : l.requests = []
  responses : l.responses = []

namespace Link.Framed

variable {l : Link P θ}

/-- A worker that asks for bytes where none are left waits for a request. -/
theorem waits_worker (hf : l.Framed) (hwants : 0 < l.worker.wants) (hrequest : l.request = [])
    (hdropped : l.dropped = []) (hunsent : l.unsent = []) :
    l.worker = .readHeader [] ∧ l.requests = [] := by
  have hsized := hf.workerSized
  cases hw : l.worker with
  | readHeader got =>
      rw [hw] at hsized
      have hstream := hf.request got (by rw [hw]; rfl)
      rw [hrequest, hdropped, hunsent, List.append_nil, List.append_nil, List.append_nil] at hstream
      have hnil := Framing.stream_incomplete hstream hsized
      rw [hnil, Framing.stream_nil] at hstream
      exact ⟨by rw [hstream], hnil⟩
  | readPayload header got =>
      rw [hw] at hsized
      have hstream := hf.request (header ++ got) (by rw [hw]; rfl)
      rw [hrequest, hdropped, hunsent, List.append_nil, List.append_nil, List.append_nil] at hstream
      have hle := Framing.stream_incomplete_payload hf.requestsValid hstream hsized.1
      exact absurd hsized.2.2 (Nat.not_lt.2 hle)
  | _ => simp [hw, WorkerPc.wants] at hwants

/-- A reader that asks for bytes where none are left waits for a response. -/
theorem waits_reader (hf : l.Framed) (hwants : 0 < l.reader.wants) (hresponse : l.response = [])
    (hunsent : l.worker.unsent = []) (hlost : l.lost = []) :
    l.reader = .readHeader [] ∧ l.responses = [] := by
  have hsized := hf.readerSized
  cases hr : l.reader with
  | readHeader got =>
      rw [hr] at hsized
      have hstream := hf.response got (by rw [hr]; rfl)
      rw [hresponse, hunsent, hlost, List.append_nil, List.append_nil, List.append_nil] at hstream
      have hnil := Framing.stream_incomplete hstream hsized
      rw [hnil, Framing.stream_nil] at hstream
      exact ⟨by rw [hstream], hnil⟩
  | readPayload header got =>
      rw [hr] at hsized
      have hstream := hf.response (header ++ got) (by rw [hr]; rfl)
      rw [hresponse, hunsent, hlost, List.append_nil, List.append_nil, List.append_nil] at hstream
      have hle := Framing.stream_incomplete_payload hf.responsesValid hstream hsized.1
      exact absurd hsized.2 (Nat.not_lt.2 hle)
  | _ => simp [hr, ReaderPc.wants] at hwants

end Link.Framed

/-! ### Pools that cannot go on -/

/-- The stream has room for the bytes that the step writes; a `write` blocks where it has not. -/
def Action.hasRoom (capacity : ℕ) (s : State P n θ) : Action P n θ → Bool
  | .link w (.write _ k) => decide ((s.link w).request.length + k ≤ capacity)
  | .link w (.writeResponse k) => decide ((s.link w).response.length + k ≤ capacity)
  | _ => true

/-- The pool, where no call begins, no exception has a text longer than `limit`, and a stream does not
take more than `capacity` bytes. -/
def settling (P : Program τ) (n : ℕ) (θ : Type*) [DecidableEq θ] [NeZero n] (limit capacity : ℕ) :
    Automaton (State P n θ) (Action P n θ) :=
  (pool P n θ).restrict fun s a => a.continues limit = true ∧ a.hasRoom capacity s = true

/-- No step of a call, of a worker or of a reader is enabled. -/
def State.Stuck [DecidableEq θ] [NeZero n] (limit capacity : ℕ) (s : State P n θ) : Prop :=
  ∀ a : Action P n θ, a.continues limit = true → a.dies = false → a.noWrap s = true →
    a.hasRoom capacity s = true → s.step a = none

section Stuck

variable [DecidableEq θ] [NeZero n] {s : State P n θ} {limit capacity : ℕ}

theorem stuck_of_settled (hs : (settling P n θ limit capacity).Settled Action.dies s) :
    s.Stuck limit capacity := by
  intro a ha hdies hwrap hroom
  by_contra hne
  obtain ⟨s', hs'⟩ := Option.ne_none_iff_exists'.1 hne
  have hnone := hs a hdies
  rw [show (settling P n θ limit capacity).step s a = some s' from
    Automaton.restrict_step_eq_some.2
      ⟨⟨ha, hroom⟩, Automaton.restrict_step_eq_some.2 ⟨hwrap, hs'⟩⟩] at hnone
  cases hnone

namespace State.Stuck

variable (h : s.Stuck limit capacity) (w : Fin n)

include h

/-- A reader has ended, or waits for bytes of a worker that may still write some. -/
theorem reader (hsound : s.Sound) : (s.link w).reader = .ended ∨
    (0 < (s.link w).reader.wants ∧ (s.link w).response = [] ∧
      (s.link w).worker.responseOpen = true) := by
  have hwaits : 0 < (s.link w).reader.wants → (s.link w).response = [] ∧
      (s.link w).worker.responseOpen = true := by
    intro hwants
    have hempty : (s.link w).response = [] := by
      by_contra hne
      have hnone := h (.link w (.readResponse 1)) rfl rfl rfl rfl
      have hpos := List.length_pos_iff.2 hne
      simp only [State.step, LinkAction.internal, if_true, onLink, Link.step] at hnone
      rw [if_pos ⟨Nat.one_pos, hpos, hwants⟩] at hnone
      simp at hnone
    refine ⟨hempty, ?_⟩
    by_contra hclosed
    have hnone := h (.link w .responseEof) rfl rfl rfl rfl
    simp [State.step, LinkAction.internal, onLink, Link.step, hwants, hempty, hclosed] at hnone
  have hsized := (hsound.framed w).readerSized
  cases hr : (s.link w).reader with
  | ended => exact Or.inl rfl
  | readHeader got =>
      rw [hr] at hsized hwaits
      have hpos : 0 < (ReaderPc.readHeader got).wants := Nat.sub_pos_of_lt hsized
      exact Or.inr ⟨hpos, hwaits hpos⟩
  | readPayload header got =>
      rw [hr] at hsized hwaits
      have hpos : 0 < (ReaderPc.readPayload header got).wants := Nat.sub_pos_of_lt hsized.2
      exact Or.inr ⟨hpos, hwaits hpos⟩
  | lookup header payload =>
      have hnone := h (.lookup w) rfl rfl rfl rfl
      simp only [State.step, hr, onLink, Link.step, Option.map_map] at hnone
      split at hnone <;> simp at hnone
  | complete header payload taskId pending =>
      have hnone := h (.complete w) rfl rfl rfl rfl
      simp [State.step, Link.handler, onLink, Link.step, hr] at hnone

/-- A worker is gone, or waits for bytes: its reader makes room for a response. -/
theorem worker (hcapacity : 0 < capacity) (hsound : s.Sound) (htidy : s.Tidy)
    (hclosing : (s.link w).Closing) : (s.link w).worker = .gone ∨
    (0 < (s.link w).worker.wants ∧ (s.link w).request = [] ∧ (s.link w).requestFd = true) := by
  have hwaits : 0 < (s.link w).worker.wants → (s.link w).request = [] ∧
      (s.link w).requestFd = true := by
    intro hwants
    have hempty : (s.link w).request = [] := by
      by_contra hne
      have hnone := h (.link w (.readRequest 1)) rfl rfl rfl rfl
      have hpos := List.length_pos_iff.2 hne
      simp only [State.step, LinkAction.internal, if_true, onLink, Link.step] at hnone
      rw [if_pos ⟨Nat.one_pos, hpos, hwants⟩] at hnone
      split at hnone <;> simp at hnone
    refine ⟨hempty, ?_⟩
    by_contra hclosed
    have hnone := h (.link w .requestEof) rfl rfl rfl rfl
    simp [State.step, LinkAction.internal, onLink, Link.step, hwants, hempty, hclosed] at hnone
  have hsized := (hsound.framed w).workerSized
  have hleave : ∀ p, (s.link w).worker.next ≠ some p := by
    intro p hp
    have hnone := h (.link w .leave) rfl rfl rfl rfl
    simp [State.step, LinkAction.internal, onLink, Link.step, hp] at hnone
  cases hw : (s.link w).worker with
  | gone => exact Or.inl rfl
  | readHeader got =>
      rw [hw] at hsized hwaits
      have hpos : 0 < (WorkerPc.readHeader got).wants := Nat.sub_pos_of_lt hsized
      exact Or.inr ⟨hpos, hwaits hpos⟩
  | readPayload header got =>
      rw [hw] at hsized hwaits
      have hpos : 0 < (WorkerPc.readPayload header got).wants := Nat.sub_pos_of_lt hsized.2.2
      exact Or.inr ⟨hpos, hwaits hpos⟩
  | execute header payload =>
      obtain ⟨taskId, job, rest, -, hexecutor, -, -⟩ := task_of_running (n := n) (hsound.framed w) hw
      have hnone := h (.execute w (.returned (List.replicate ((P.resultSize job.type).getD 0) 0)))
        rfl rfl rfl rfl
      simp [State.step, Link.running, onLink, Link.step, Link.execute, hw, hexecutor,
        Outcome.Fits] at hnone
  | respond todo =>
      have hempty : (s.link w).response = [] := by
        rcases h.reader w hsound with hended | ⟨-, hempty, -⟩
        · have hclosed := (hclosing.ended hended).1
          rw [hw] at hclosed
          cases hclosed
        · exact hempty
      obtain ⟨k, hk, r, hr⟩ := Framing.exists_writeSome ((htidy.link w).responding todo hw)
      have hnone := h (.link w (.writeResponse k)) rfl rfl rfl
        (decide_eq_true (by rw [hempty]; exact (Nat.zero_add k).le.trans (hk.trans hcapacity)))
      simp [State.step, LinkAction.internal, onLink, Link.step, hw, hr] at hnone
  | closeRequest => exact absurd rfl (hw ▸ hleave _)
  | closeResponse => exact absurd rfl (hw ▸ hleave _)
  | exit => exact absurd rfl (hw ▸ hleave _)

/-- The holder of a `write_mutex` could go on: its write fails, or the worker makes room for it. -/
theorem mutex_free (hcapacity : 0 < capacity) (hsound : s.Sound) (htidy : s.Tidy)
    (hclosing : (s.link w).Closing) : (s.link w).writeMutex = none := by
  by_contra hne
  obtain ⟨⟨o, f, todo⟩, hm⟩ := Option.ne_none_iff_exists'.1 hne
  have hholds := (htidy.agree o w f).2 (Link.holder_eq_some.2 ⟨todo, hm⟩)
  by_cases hwrite : todo ≠ [] ∧ (s.link w).writable = true
  · have hempty : (s.link w).request = [] := by
      rcases h.worker w hcapacity hsound htidy hclosing with hgone | ⟨-, hempty, -⟩
      · have hopen := hwrite.2
        rw [Link.writable, hgone] at hopen
        simp [WorkerPc.requestOpen] at hopen
      · exact hempty
    obtain ⟨k, hk, r, hr⟩ := Framing.exists_writeSome hwrite.1
    have hnone := h (.link w (.write o k)) rfl rfl rfl
      (decide_eq_true (by rw [hempty]; exact (Nat.zero_add k).le.trans (hk.trans hcapacity)))
    simp [State.step, LinkAction.internal, onLink, Link.step, hm, hwrite.2, hr] at hnone
  · cases o with
    | submit t =>
        cases ht : s.thread t with
        | write job state taskId v =>
            obtain ⟨rfl, rfl⟩ : v = w ∧ Frame.run taskId job = f := by
              simpa [holds, ht, SubmitPc.holding] using hholds
            cases todo with
            | nil =>
                have hnone := h (.returnFuture t) rfl rfl rfl rfl
                simp [State.step, ht, onLink, Link.step, hm] at hnone
            | cons buffer rest =>
                have hnone := h (.writeFails t) rfl rfl rfl rfl
                simp [State.step, ht, onLink, Link.step, hm] at hnone hwrite
                simp [hwrite] at hnone
        | _ => simp [holds, ht, SubmitPc.holding] at hholds
    | shutdown =>
        cases hpc : s.shutdown with
        | writeStop v rest' =>
            obtain ⟨rfl, rfl⟩ : v = w ∧ Frame.stop = f := by
              simpa [holds, hpc, ShutdownPc.holding] using hholds
            cases todo with
            | nil =>
                have hnone := h .unlockStop rfl rfl rfl rfl
                simp [State.step, hpc, onLink, Link.step, hm] at hnone
            | cons buffer rest =>
                have hnone := h .stopFails rfl rfl rfl rfl
                simp [State.step, hpc, onLink, Link.step, hm] at hnone hwrite
                simp [hwrite] at hnone
        | _ => simp [holds, hpc, ShutdownPc.holding] at hholds

/-- Every call of `Submit` has returned. -/
theorem idle (htidy : s.Tidy) (hfree : ∀ w, (s.link w).writeMutex = none)
    (hids : ∀ t job state, s.thread t = .fetchTaskId job state → s.nextTaskId + 1 < 2 ^ 64) (t : θ) :
    s.thread t = .idle := by
  cases ht : s.thread t with
  | idle => rfl
  | fetchTaskId job state =>
      have hnone := h (.fetchTaskId t) rfl rfl (by simpa [Action.noWrap] using hids t job state ht) rfl
      simp [State.step, ht] at hnone
  | insertPending job state taskId =>
      have hnone := h (.insertPending t) rfl rfl rfl rfl
      simp [State.step, ht] at hnone
  | chooseWorker job state taskId =>
      have hnone := h (.chooseWorker t) rfl rfl rfl rfl
      simp only [State.step, ht] at hnone
      split_ifs at hnone
  | lockWriteMutex job state taskId w =>
      have hnone := h (.lockWriteMutex t) rfl rfl rfl rfl
      simp [State.step, ht, onLink, Link.step, hfree w] at hnone
  | write job state taskId w =>
      have hholds : s.holds (.submit t) = some (w, .run taskId job) := by
        simp [holds, ht, SubmitPc.holding]
      obtain ⟨todo, hm⟩ := Link.holder_eq_some.1 ((htidy.agree _ _ _).1 hholds)
      rw [hfree w] at hm
      cases hm

/-- **A worker is gone, and its reader has ended, or both wait and nothing is in flight.** -/
theorem waits (hcapacity : 0 < capacity) (hsound : s.Sound) (htidy : s.Tidy)
    (hclosing : (s.link w).Closing) :
    ((s.link w).worker = .gone ∧ (s.link w).reader = .ended) ∨ (s.link w).Waits := by
  have hf := hsound.framed w
  rcases h.worker w hcapacity hsound htidy hclosing with hgone | ⟨hwants, hrequest, hfd⟩
  · refine Or.inl ⟨hgone, (h.reader w hsound).resolve_right ?_⟩
    rintro ⟨-, -, hopen⟩
    rw [hgone] at hopen
    cases hopen
  · obtain ⟨got, hgot, hunsent, hopen⟩ := Link.Framed.got_of_wants hwants
    have hresponseOpen := (Link.Orderly.open_of_got (p := (s.link w).worker) (by rw [hgot]; rfl)).2
    have hdropped := hf.dropped (by rw [Link.writable, hfd, hopen]; rfl)
    have hnothing : (s.link w).unsent = [] := by
      rw [Link.unsent, h.mutex_free w hcapacity hsound htidy hclosing]
    obtain ⟨hworker, hrequests⟩ := hf.waits_worker hwants hrequest hdropped hnothing
    rcases h.reader w hsound with hended | ⟨hreads, hresponse, -⟩
    · rw [(hclosing.ended hended).1] at hresponseOpen
      cases hresponseOpen
    · obtain ⟨hreader, hresponses⟩ := hf.waits_reader hreads hresponse hunsent
        (hf.lost (by rw [hgot]; rfl))
      exact Or.inr ⟨hworker, hreader, hrequests, hresponses⟩

omit w in
/-- A worker that waits has not been sent a stop request. -/
theorem gone_of_stopped (hcapacity : 0 < capacity) (hsound : s.Sound) (htidy : s.Tidy)
    (hclosing : ∀ w, (s.link w).Closing) (hstopped : s.shutdown.stopsLeft = []) (w : Fin n) :
    (s.link w).worker = .gone ∧ (s.link w).reader = .ended := by
  refine (h.waits w hcapacity hsound htidy (hclosing w)).resolve_right ?_
  intro hwaits
  have hbegun := htidy.stopSent w (by rw [hstopped]; exact List.not_mem_nil)
  rw [Link.begun, hwaits.requests, List.append_nil] at hbegun
  exact (htidy.link w).stopped (by rw [hwaits.worker]; rfl) hbegun

omit w in
/-- **`Shutdown` has not been called, or has returned.** -/
theorem shutdown (hcapacity : 0 < capacity) (hsound : s.Sound) (htidy : s.Tidy)
    (hclosing : ∀ w, (s.link w).Closing) :
    s.shutdown = .notStarted ∨ s.shutdown = .returned := by
  have hgone := h.gone_of_stopped hcapacity hsound htidy hclosing
  have hfree := fun w => h.mutex_free w hcapacity hsound htidy (hclosing w)
  cases hpc : s.shutdown with
  | notStarted => exact Or.inl rfl
  | returned => exact Or.inr rfl
  | sendStop todo =>
      cases todo with
      | nil =>
          have hnone := h .nextLoop rfl rfl rfl rfl
          simp [State.step, hpc, ShutdownPc.afterLoop] at hnone
      | cons w rest =>
          have hnone := h .lockStop rfl rfl rfl rfl
          simp [State.step, hpc, onLink, Link.step, hfree w] at hnone
  | writeStop w rest =>
      have hholds : s.holds .shutdown = some (w, .stop) := by
        simp [holds, hpc, ShutdownPc.holding]
      obtain ⟨todo, hm⟩ := Link.holder_eq_some.1 ((htidy.agree _ _ _).1 hholds)
      rw [hfree w] at hm
      cases hm
  | joinReaders todo =>
      cases todo with
      | nil =>
          have hnone := h .nextLoop rfl rfl rfl rfl
          simp [State.step, hpc, ShutdownPc.afterLoop] at hnone
      | cons w rest =>
          have hnone := h .join rfl rfl rfl rfl
          simp [State.step, hpc, (hgone (by rw [hpc]; rfl) w).2] at hnone
  | closeRequest todo =>
      cases todo with
      | nil =>
          have hnone := h .nextLoop rfl rfl rfl rfl
          simp [State.step, hpc, ShutdownPc.afterLoop] at hnone
      | cons w rest =>
          have hnone := h .closeRequestFd rfl rfl rfl rfl
          simp [State.step, hpc, onLink, Link.step] at hnone
  | closeResponse w rest =>
      have hnone := h .closeResponseFd rfl rfl rfl rfl
      simp [State.step, hpc, onLink, Link.step] at hnone
  | waitpid w rest =>
      have hnone := h .waitpid rfl rfl rfl rfl
      simp [State.step, hpc, (hgone (by rw [hpc]; rfl) w).1] at hnone
  | swapPending =>
      have hnone := h .swapPending rfl rfl rfl rfl
      simp [State.step, hpc] at hnone
  | failPending temp =>
      have hnone := h .nextLoop rfl rfl rfl rfl
      by_cases hempty : temp.entries = []
      · simp [State.step, hpc, ShutdownPc.afterLoop, hempty] at hnone
      · obtain ⟨x, hx⟩ := List.exists_mem_of_ne_nil _ hempty
        have hlookup : temp.lookup x.1 = some x.2 := AList.mem_lookup_iff.2 hx
        have hfail := h (.failPending x.1) rfl rfl rfl rfl
        simp [State.step, hpc, hlookup] at hfail

end State.Stuck

/-! ### Pools at rest -/

omit [DecidableEq θ] [NeZero n] in
/-- A task that has been sent to a worker that waits now has been taken. -/
theorem takenRuns_of_waits {l : Link P θ} (hposted : l.Posted) (hwaits : l.Waits) {i : ℕ} {job : Job P}
    (hwritten : Frame.run i job ∈ l.written) : (i, job) ∈ l.takenRuns := by
  have hbegun := hposted _ (Or.inl hwritten)
  rw [Link.begun, hwaits.requests, List.append_nil] at hbegun
  exact List.mem_filterMap.2 ⟨_, hbegun, rfl⟩

/-- **What has been sent to a worker that waits now has been answered.** -/
theorem answered_of_waits (hr : (pool P n θ).Reachable s) {w : Fin n} (hwaits : (s.link w).Waits)
    {x : Job P × ℕ} {i : ℕ} (hi : s.task i = some x) (hwritten : Frame.run i x.1 ∈ (s.link w).written) :
    (s.states x.2).ready = true ∧ s.Answered x.1 x.2 := by
  have hsound := sound_of_reachable hr
  have hmortal := mortal_of_reachable hr
  obtain ⟨e, he, rfl, rfl⟩ :=
    hmortal.taken w _ (takenRuns_of_waits (hmortal.posted w) hwaits hwritten)
  have hresponse : e.response.isSome = true := by
    by_contra hnone
    have hgone := (tidy_of_reachable hr).crashed e he (by simpa using hnone)
    rw [hwaits.worker] at hgone
    cases hgone
  have hclosed : s.stage e.taskId = .closed := by
    refine (hsound.sent.of_executed e he).resolve_left ?_
    intro hanswered
    obtain ⟨r, hmem, -⟩ := hsound.sent.of_answered _ _ hanswered
    rw [show s.routing.responses e.worker = [] from hwaits.responses] at hmem
    cases hmem
  refine answered_of_completed hr hi ((hmortal.heard.closed e he hresponse hclosed).resolve_left ?_)
  intro hplace
  obtain ⟨handler, hhandler, -⟩ := hsound.placed.of_reader _ _ hplace
  simp [State.routing, Link.handler, hwaits.reader] at hhandler

/-- **Nothing is left to do.** -/
structure State.AtRest (s : State P n θ) : Prop where
  /-- Every call has returned. -/
  submit : ∀ t, s.thread t = .idle
  shutdown : s.shutdown = .notStarted ∨ s.shutdown = .returned
  /-- No `write_mutex` is held. -/
  unlocked : ∀ w, (s.link w).writeMutex = none
  /-- The workers are gone or wait for a request; after `Shutdown` they are gone. -/
  worker : ∀ w, ((s.link w).worker = .gone ∧ (s.link w).reader = .ended) ∨
    (s.shutdown = .notStarted ∧ (s.link w).Waits)
  /-- A `Future` whose worker lives holds the response of its task. -/
  answered : ∀ x ∈ s.returned, ∃ w i, s.task i = some x ∧ Frame.run i x.1 ∈ (s.link w).written ∧
    ((s.link w).worker ≠ .gone → (s.states x.2).ready = true ∧ s.Answered x.1 x.2)
  /-- After `Shutdown` the others are ready as well. -/
  ready : s.shutdown = .returned → ∀ x ∈ s.returned, (s.states x.2).ready = true

/-- **A pool that cannot go on is at rest.** -/
theorem at_rest_of_stuck (hcapacity : 0 < capacity) (hr : (pool P n θ).Reachable s)
    (h : s.Stuck limit capacity)
    (hids : ∀ t job state, s.thread t = .fetchTaskId job state → s.nextTaskId + 1 < 2 ^ 64) :
    s.AtRest := by
  have hsound := sound_of_reachable hr
  have htidy := tidy_of_reachable hr
  have hclosing := (mortal_of_reachable hr).closing
  have hshutdown := h.shutdown hcapacity hsound htidy hclosing
  have hfree := fun w => h.mutex_free w hcapacity hsound htidy (hclosing w)
  refine ⟨h.idle htidy hfree hids, hshutdown, hfree, ?_, ?_, ?_⟩
  · intro w
    rcases hshutdown with hpc | hpc
    · exact (h.waits w hcapacity hsound htidy (hclosing w)).imp_right fun hwaits => ⟨hpc, hwaits⟩
    · exact Or.inl (h.gone_of_stopped hcapacity hsound htidy hclosing (by rw [hpc]; rfl) w)
  · intro x hx
    obtain ⟨w, i, hi, hwritten⟩ := htidy.returned x hx
    refine ⟨w, i, hi, hwritten, ?_⟩
    intro halive
    have hwaits := (h.waits w hcapacity hsound htidy (hclosing w)).resolve_left
      fun hgone => halive hgone.1
    exact answered_of_waits hr hwaits hi hwritten
  · intro hdone x hx
    exact ready_of_shutdown hr hdone hx

end Stuck

/-! ### Every call returns -/

/-- The ids that a call has still to fetch. -/
def SubmitPc.fetches : SubmitPc P n → ℕ
  | .fetchTaskId _ _ => 1
  | _ => 0

/-- The ids do not wrap before every call has fetched its own. -/
def State.IdsLeft [Fintype θ] (s : State P n θ) : Prop :=
  s.nextTaskId + ∑ t, (s.thread t).fetches < 2 ^ 64

section Completion

variable [Fintype θ] {s s' : State P n θ} {limit capacity : ℕ}

theorem State.idsLeft_of_card (h : s.nextTaskId + Fintype.card θ < 2 ^ 64) : s.IdsLeft := by
  have hle : ∀ pc : SubmitPc P n, pc.fetches ≤ 1 := by
    intro pc
    cases pc <;> simp [SubmitPc.fetches]
  have hsum : ∑ t, (s.thread t).fetches ≤ ∑ _t : θ, 1 := Finset.sum_le_sum fun t _ => hle (s.thread t)
  rw [← Finset.card_eq_sum_ones, Finset.card_univ] at hsum
  rw [IdsLeft]
  omega

theorem State.IdsLeft.fetch (h : s.IdsLeft) {t : θ} {job : Job P} {state : ℕ}
    (ht : s.thread t = .fetchTaskId job state) : s.nextTaskId + 1 < 2 ^ 64 := by
  have hle : (s.thread t).fetches ≤ ∑ u, (s.thread u).fetches :=
    Finset.single_le_sum (f := fun u => (s.thread u).fetches) (fun u _ => Nat.zero_le _)
      (Finset.mem_univ t)
  have hone : (s.thread t).fetches = 1 := by
    rw [ht]
    rfl
  rw [IdsLeft] at h
  omega

variable [DecidableEq θ] [NeZero n]

/-- Where no call begins, the ids last. -/
theorem State.IdsLeft.step (h : s.IdsLeft) {a : Action P n θ} (ha : a.continues limit = true)
    (he : Effect s a s') : s'.IdsLeft := by
  have hthread : ∀ (t : θ) (pc : SubmitPc P n) (c : ℕ), (s.thread t).fetches = pc.fetches + c →
      ∑ u, (Function.update s.thread t pc u).fetches + c = ∑ u, (s.thread u).fetches := by
    intro t pc c hc
    have hsum := ThreadWeight.sum_update SubmitPc.fetches s.thread t pc
    omega
  have hkeep : ∀ {t : θ} {pc : SubmitPc P n}, (s.thread t).fetches = pc.fetches →
      s.nextTaskId + ∑ u, (Function.update s.thread t pc u).fetches < 2 ^ 64 := by
    intro t pc hpc
    have hsum := hthread t pc 0 hpc
    rw [IdsLeft] at h
    omega
  cases he with
  | makeState t job _ => cases ha
  | fetchTaskId t job state ht =>
      have hsum := hthread t (.insertPending job state s.nextTaskId) 1 (by rw [ht]; rfl)
      rw [IdsLeft] at h ⊢
      simp only [Ledger.fetchTaskId]
      omega
  | insertPending t job state taskId ht => exact hkeep (by rw [ht]; rfl)
  | refuse t job state taskId ht _ => exact hkeep (by rw [ht]; rfl)
  | chooseWorker t job state taskId ht _ => exact hkeep (by rw [ht]; rfl)
  | lockWriteMutex t job state taskId w l ht _ => exact hkeep (by rw [ht]; rfl)
  | writeFails t job state taskId w l ht _ => exact hkeep (by rw [ht]; rfl)
  | returnFuture t job state taskId w l ht _ => exact hkeep (by rw [ht]; rfl)
  | _ => exact h

/-- **Every call returns.**  Where no call begins, a run of the pool has at most as many steps as its
rank says, and one more for each death of a worker, whatever the order of the steps and however small
the buffers of the streams; it ends with a pool at rest. -/
theorem calls_return (limit : ℕ) (hcapacity : 0 < capacity) (h : (pool P n θ).Reachable s)
    (hids : s.nextTaskId + Fintype.card θ < 2 ^ 64) :
    (settling P n θ limit capacity).CompletesWithin Action.dies 1 (s.rank limit) State.AtRest s := by
  refine Automaton.CompletesWithin.of_rank (I := fun s => (pool P n θ).Reachable s ∧ s.IdsLeft)
    (State.rank limit) ?_ ?_ ⟨h, State.idsLeft_of_card hids⟩ (Nat.le_refl _)
  · rintro s a s' ⟨hr, hleft⟩ hs
    obtain ⟨⟨ha, -⟩, hs⟩ := Automaton.restrict_step_eq_some.1 hs
    have hstep := (Automaton.restrict_step_eq_some.1 hs).2
    exact ⟨⟨Automaton.Reachable.step a hr hs, hleft.step ha (effect_of_step hstep)⟩,
      State.rank_of_step (sound_of_reachable hr).framed ha hstep⟩
  · rintro s ⟨hr, hleft⟩ hs
    exact at_rest_of_stuck hcapacity hr (stuck_of_settled hs) fun t job state ht => hleft.fetch ht

end Completion

/-- Two calls of `Submit` and one of `Shutdown` are under way, and a stream takes one byte: they
return. -/
theorem calls_return_two_submits :
    ∃ s : State byteProgram 1 Bool, (pool byteProgram 1 Bool).Reachable s ∧
      s.holds (.submit false) = some (0, .run 1 (byteJob 1 5)) ∧ s.shutdown = .sendStop [0] ∧
      s.thread true = .fetchTaskId (byteJob 2 6) 1 ∧
      (settling byteProgram 1 Bool 17 1).CompletesWithin Action.dies 1 (s.rank 17) State.AtRest s := by
  obtain ⟨s, hs⟩ : ∃ s, (pool byteProgram 1 Bool).run State.initial
      (submitSteps false (byteJob 1 5) ++
        [.lockWriteMutex false, .makeState true (byteJob 2 6), .shutdown]) = some s := ⟨_, rfl⟩
  have hr : (pool byteProgram 1 Bool).Reachable s := Automaton.Reachable.of_run rfl hs
  obtain ⟨hholds, hshutdown, hthread, hids⟩ : s.holds (.submit false) = some (0, .run 1 (byteJob 1 5)) ∧
      s.shutdown = .sendStop [0] ∧ s.thread true = .fetchTaskId (byteJob 2 6) 1 ∧ s.nextTaskId = 2 := by
    obtain rfl := Option.some_inj.1 hs
    exact ⟨rfl, rfl, rfl, rfl⟩
  exact ⟨s, hr, hholds, hshutdown, hthread, calls_return 17 Nat.one_pos hr (by rw [hids]; decide)⟩

end ProcessPool
