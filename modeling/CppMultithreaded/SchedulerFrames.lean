/-
**The scheduler handles every frame once, and the coroutines advance in lockstep.**

That no frame is destroyed twice or used after it has been destroyed follows from its one owner.  The
lockstep follows from the order of the queue: at any time, it consists of coroutines that have still to
be resumed in the current round, followed by coroutines that have been resumed in it.  A coroutine that
is spawned during `Run` joins the second part, without having been resumed; that does no harm to the
coroutines that were spawned before.

An exception ends `Run` in the next step, so that nothing is resumed until `Run` is called again.

Main definitions:

* `CoroutineScheduler.State.pending` — the exception that is on its way through `Run`;
* `CoroutineScheduler.Rounds` — the two parts of the queue;
* `CoroutineScheduler.Handled` — what is true in every state;
* `CoroutineScheduler.Exits` — what follows an exception.

Main results:

* `CoroutineScheduler.Rounds.effect` — **every step keeps the two parts of the queue**;
* `CoroutineScheduler.exits_of_reachable` — an exception is the last thing that happens in `Run`;
* `CoroutineScheduler.frames_handled_once` — **every frame is handled exactly once**.
-/

import CppMultithreaded.SchedulerModel

set_option relaxedAutoImplicit false
set_option autoImplicit false

namespace CoroutineScheduler

variable {ε : Type*} {s s' : State ε} {a : Action ε}

/-! ### Exceptions -/

/-- The exception in the promise of the coroutine that has returned to `Run`. -/
def State.pending (s : State ε) : List ε :=
  match s.pc with
  | .resumed handle => (s.frames handle).exception.toList
  | _ => []

theorem State.pending_of_ne (h : ∀ handle, s.pc ≠ .resumed handle) : s.pending = [] := by
  unfold State.pending
  split
  · next handle hpc => exact absurd hpc (h handle)
  · rfl

/-- **`Run` exits with the exceptions that the bodies have thrown**, one after the other. -/
theorem thrown_of_effect (howned : Owned s) (h : s.thrown = s.propagated ++ s.pending)
    (he : Effect s a s') : s'.thrown = s'.propagated ++ s'.pending := by
  cases he with
  | spawn hpc =>
      have hne : ∀ handle, s.pc ≠ .resumed handle := by
        intro handle heq
        rcases hpc with hpc | ⟨i, hpc⟩
        · exact absurd (hpc.symm.trans heq) (by simp)
        · exact absurd (hpc.symm.trans heq) (by simp)
      rw [State.pending_of_ne (s := s.spawn) hne]
      rw [State.pending_of_ne hne] at h
      exact h
  | spawnEmpty => exact h
  | run hpc | «return» hpc | resume i rest hpc hqueue | destroy hpc | gone hpc =>
      rw [State.pending_of_ne (by simp [hpc])] at h
      simpa [State.pending, State.update] using h
  | destroyQueued i rest hpc hqueue =>
      rw [State.pending_of_ne (by simp [hpc])] at h
      simpa [State.pending, State.update, hpc] using h
  | yield i hpc | finish i hpc =>
      rw [State.pending_of_ne (by simp [hpc])] at h
      simpa [State.pending, State.update, Frame.create] using h
  | throw i ex hpc =>
      rw [State.pending_of_ne (by simp [hpc]), List.append_nil] at h
      simp [State.pending, State.update, h]
  | again i hpc hmem =>
      simpa [State.pending, hpc, (howned.queued i hmem).2, Frame.create] using h
  | destroyFinished i hpc hframe => simpa [State.pending, State.update, hpc, hframe] using h
  | rethrow i ex hpc hframe => simpa [State.pending, State.update, hpc, hframe] using h

/-! ### Rounds -/

/-- The coroutines in `now` have still to be resumed in the round that follows `k` others, the ones in
`later` have been resumed in it; a coroutine that has been spawned during `Run` may be in either part. -/
structure Rounds (s : State ε) (k : ℕ) (now later : List ℕ) : Prop where
  queue : s.readyQueue = now ++ later
  le : ∀ h, s.resumes.count h ≤ k + 1
  now_le : ∀ h ∈ now, s.resumes.count h ≤ k
  now_ge : ∀ h ∈ now, h < s.spawnedBefore → k ≤ s.resumes.count h
  later_ge : ∀ h ∈ later, h < s.spawnedBefore → k + 1 ≤ s.resumes.count h
  running_ge : ∀ h, s.pc = .running h → h < s.spawnedBefore → k + 1 ≤ s.resumes.count h
  spawnedBefore_le : s.spawnedBefore ≤ s.spawned

namespace Rounds

variable {k h : ℕ} {now later rest : List ℕ}

/-- A round is over where nothing has still to be resumed in it. -/
theorem next (hr : Rounds s k [] later) (hpc : ∀ h, s.pc ≠ .running h) : Rounds s (k + 1) later [] := by
  refine ⟨?_, fun i => Nat.le_trans (hr.le i) (Nat.le_succ _), fun i _ => hr.le i, hr.later_ge, by simp,
    fun i hi => absurd hi (hpc i), hr.spawnedBefore_le⟩
  rw [hr.queue, List.nil_append, List.append_nil]

/-- The first handle of the queue belongs to the current round, or to the next one. -/
theorem exists_cons (hr : Rounds s k now later) (hpc : ∀ h, s.pc ≠ .running h)
    (hqueue : s.readyQueue = h :: rest) :
    ∃ k now later, Rounds s k (h :: now) later ∧ rest = now ++ later := by
  cases now with
  | cons i now =>
      have heq := hqueue.symm.trans hr.queue
      rw [List.cons_append] at heq
      obtain ⟨rfl, hrest⟩ := List.cons.inj heq
      exact ⟨k, now, later, hr, hrest⟩
  | nil =>
      have hnext := hr.next hpc
      have heq := hqueue.symm.trans hr.queue
      rw [List.nil_append] at heq
      subst heq
      exact ⟨k + 1, rest, [], hnext, (List.append_nil _).symm⟩

/-- The thread is somewhere else, or a frame has changed. -/
theorem congr (hr : Rounds s k now later) (hqueue : s'.readyQueue = s.readyQueue)
    (hresumes : s'.resumes = s.resumes) (hbefore : s'.spawnedBefore = s.spawnedBefore)
    (hspawned : s.spawned ≤ s'.spawned) (hpc : ∀ h, s'.pc ≠ .running h) : Rounds s' k now later := by
  refine ⟨hqueue.trans hr.queue, ?_, ?_, ?_, ?_, fun i hi => absurd hi (hpc i), ?_⟩
  · rw [hresumes]
    exact hr.le
  · rw [hresumes]
    exact hr.now_le
  · rw [hresumes, hbefore]
    exact hr.now_ge
  · rw [hresumes, hbefore]
    exact hr.later_ge
  · rw [hbefore]
    exact Nat.le_trans hr.spawnedBefore_le hspawned

/-- **Every step keeps the two parts of the queue.** -/
theorem effect (howned : Owned s) (hr : Rounds s k now later) (he : Effect s a s') :
    ∃ k now later, Rounds s' k now later := by
  cases he with
  | spawn hpc =>
      -- the new coroutine has been spawned after `Run` was called last
      refine ⟨k, now, later ++ [s.spawned], ?_, hr.le, hr.now_le, hr.now_ge, ?_, hr.running_ge,
        Nat.le_trans hr.spawnedBefore_le (Nat.le_succ _)⟩
      · change s.readyQueue ++ [s.spawned] = _
        rw [hr.queue, List.append_assoc]
      · intro i hi hlt
        rcases List.mem_append.1 hi with hi | hi
        · exact hr.later_ge i hi hlt
        · rw [List.mem_singleton.1 hi] at hlt
          exact absurd hr.spawnedBefore_le (Nat.not_le.2 hlt)
  | spawnEmpty => exact ⟨k, now, later, hr⟩
  | run hpc =>
      refine ⟨0, s.readyQueue, [], (List.append_nil _).symm, ?_, ?_, ?_, by simp, by simp, le_rfl⟩
      · exact fun i => by simp
      · exact fun i _ => by simp
      · exact fun i _ _ => Nat.zero_le _
  | «return» hpc hqueue | destroy hpc | gone hpc hqueue | again i hpc hmem | finish i hpc
  | throw i ex hpc | destroyFinished i hpc hframe | rethrow i ex hpc hframe =>
      exact ⟨k, now, later, hr.congr rfl rfl rfl le_rfl (by simp)⟩
  | resume i rest hpc hqueue =>
      obtain ⟨k, now, later, hr, rfl⟩ := hr.exists_cons (by simp [hpc]) hqueue
      have hnodup := howned.nodup
      rw [hqueue, List.nodup_cons] at hnodup
      have hself : (s.resumes ++ [i]).count i = s.resumes.count i + 1 := by simp
      have hother : ∀ j, j ≠ i → (s.resumes ++ [i]).count j = s.resumes.count j := by
        intro j hj
        simp [Ne.symm hj]
      have hmono : ∀ j, s.resumes.count j ≤ (s.resumes ++ [i]).count j :=
        fun j => (List.sublist_append_left _ _).count_le j
      have hi := hr.now_le i List.mem_cons_self
      have hne : ∀ j ∈ now, j ≠ i := fun j hj heq => hnodup.1 (heq ▸ List.mem_append_left _ hj)
      refine ⟨k, now, later, rfl, ?_, ?_, ?_, ?_, ?_, hr.spawnedBefore_le⟩
      · intro j
        by_cases hj : j = i
        · simp only [hj, hself]
          omega
        · simp only [hother j hj]
          exact hr.le j
      · intro j hj
        simp only [hother j (hne j hj)]
        exact hr.now_le j (List.mem_cons_of_mem i hj)
      · intro j hj hlt
        exact Nat.le_trans (hr.now_ge j (List.mem_cons_of_mem i hj) hlt) (hmono j)
      · intro j hj hlt
        exact Nat.le_trans (hr.later_ge j hj hlt) (hmono j)
      · intro j hj hlt
        obtain rfl : i = j := by simpa using hj
        have hk := hr.now_ge i List.mem_cons_self hlt
        simp only [hself]
        omega
  | yield i hpc =>
      refine ⟨k, now, later ++ [i], ?_, hr.le, hr.now_le, hr.now_ge, ?_, by simp, hr.spawnedBefore_le⟩
      · change s.readyQueue ++ [i] = _
        rw [hr.queue, List.append_assoc]
      · intro j hj hlt
        rcases List.mem_append.1 hj with hj | hj
        · exact hr.later_ge j hj hlt
        · obtain rfl := List.mem_singleton.1 hj
          exact hr.running_ge j hpc hlt
  | destroyQueued i rest hpc hqueue =>
      obtain ⟨k, now, later, hr, rfl⟩ := hr.exists_cons (by simp [hpc]) hqueue
      refine ⟨k, now, later, rfl, hr.le, fun j hj => hr.now_le j (List.mem_cons_of_mem i hj),
        fun j hj => hr.now_ge j (List.mem_cons_of_mem i hj), hr.later_ge, ?_, hr.spawnedBefore_le⟩
      intro j hj
      exact absurd (hpc.symm.trans hj) (by simp)

end Rounds

theorem rounds_initial : Rounds (State.initial : State ε) 0 [] [] := by
  constructor <;> simp [State.initial]

/-- In every state that is reached, the queue has two parts, and `Run` has exited with the exceptions that
have been thrown. -/
theorem rounds_of_reachable (h : (system ε).Reachable s) :
    s.thrown = s.propagated ++ s.pending ∧ ∃ k now later, Rounds s k now later := by
  refine h.invariant (I := fun s => s.thrown = s.propagated ++ s.pending ∧
    ∃ k now later, Rounds s k now later) ?_ ?_
  · rintro s rfl
    exact ⟨rfl, 0, [], [], rounds_initial⟩
  · rintro s a s' hreach ⟨hthrown, k, now, later, hr⟩ hs
    have howned := owned_of_reachable hreach
    have he := effect_of_step howned hs
    exact ⟨thrown_of_effect howned hthrown he, hr.effect howned he⟩

/-! ### What follows an exception -/

/-- The exception has left `Run`, which has not been called again; `resumes` and `propagated` are as they
were when it was thrown. -/
structure Exited (ex : ε) (resumes : List ℕ) (propagated : List ε) (s : State ε) : Prop where
  owned : Owned s
  resumes : s.resumes = resumes
  propagated : s.propagated = propagated ++ [ex]
  outside : s.pc = .outside ∨ s.pc = .destructor ∨ s.pc = .gone

/-- The step that follows an exception is the exit of `Run`. -/
theorem exited_of_throw {ex : ε} {s₁ s₂ : State ε} (howned : Owned s)
    (hthrow : s.step (.throw ex) = some s₁) (hs : s₁.step a = some s₂) :
    Exited ex s₁.resumes s.propagated s₂ := by
  have he := effect_of_step howned hthrow
  have howned₁ := howned.effect he
  have he₁ := effect_of_step howned₁ hs
  have howned₂ := howned₁.effect he₁
  obtain ⟨i, hpc, hframe, hsame⟩ : ∃ i, s₁.pc = .resumed i ∧ s₁.frames i = ⟨.done, some ex, 0⟩ ∧
      s₁.propagated = s.propagated := by
    cases he with
    | throw i _ hpc => exact ⟨i, rfl, Function.update_self .., rfl⟩
  cases he₁ with
  | rethrow j ex' hpc' hframe' =>
      obtain rfl : i = j := by simpa [hpc] using hpc'
      obtain rfl : ex = ex' := by simpa [hframe] using hframe'
      exact ⟨howned₂, rfl, by rw [← hsame], Or.inl rfl⟩
  | again j hpc' hmem =>
      obtain rfl : i = j := by simpa [hpc] using hpc'
      have heq := (howned₁.queued i hmem).2
      simp [hframe, Frame.create] at heq
  | destroyFinished j hpc' hframe' =>
      obtain rfl : i = j := by simpa [hpc] using hpc'
      simp [hframe] at hframe'
  | spawn hpc' | spawnEmpty hpc' =>
      rcases hpc' with hpc' | ⟨j, hpc'⟩
      · simp [hpc] at hpc'
      · simp [hpc] at hpc'
  | run hpc' | «return» hpc' | resume _ _ hpc' | yield _ hpc' | finish _ hpc' | throw _ _ hpc'
  | destroy hpc' | destroyQueued _ _ hpc' | gone hpc' => simp [hpc] at hpc'

/-- Nothing is resumed, and no other exception leaves `Run`, until it is called again. -/
theorem Exited.effect {ex : ε} {resumes : List ℕ} {propagated : List ε}
    (h : Exited ex resumes propagated s) (he : Effect s a s') (hrun : a ≠ .run) :
    Exited ex resumes propagated s' := by
  have howned := h.owned.effect he
  obtain ⟨hrunning, hresumed, hloop⟩ :
      (∀ i, s.pc ≠ .running i) ∧ (∀ i, s.pc ≠ .resumed i) ∧ s.pc ≠ .loop := by
    rcases h.outside with hpc | hpc | hpc <;> simp [hpc]
  cases he with
  | spawn hpc => exact ⟨howned, h.resumes, h.propagated, h.outside⟩
  | spawnEmpty => exact h
  | destroy hpc => exact ⟨howned, h.resumes, h.propagated, Or.inr (Or.inl rfl)⟩
  | gone hpc => exact ⟨howned, h.resumes, h.propagated, Or.inr (Or.inr rfl)⟩
  | destroyQueued i rest hpc => exact ⟨howned, h.resumes, h.propagated, Or.inr (Or.inl hpc)⟩
  | run => exact absurd rfl hrun
  | «return» hpc | resume _ _ hpc => exact absurd hpc hloop
  | yield i hpc | finish i hpc | throw i _ hpc => exact absurd hpc (hrunning i)
  | again i hpc | destroyFinished i hpc | rethrow i _ hpc => exact absurd hpc (hresumed i)

theorem Exited.run {ex : ε} {resumes : List ℕ} {propagated : List ε} {as : List (Action ε)}
    (h : Exited ex resumes propagated s) (has : ∀ a ∈ as, a ≠ .run)
    (hs : (system ε).run s as = some s') : Exited ex resumes propagated s' := by
  induction as generalizing s with
  | nil => exact Option.some.inj hs ▸ h
  | cons a as ih =>
      obtain ⟨t, hst, hrun⟩ := Option.bind_eq_some_iff.1 hs
      have hnext := h.effect (effect_of_step h.owned hst) (has a List.mem_cons_self)
      exact ih hnext (fun b hb => has b (List.mem_cons_of_mem a hb)) hrun

/-- **What follows an exception**: as soon as the scheduler goes on, the exception has left `Run`, and
whatever happens then, nothing is resumed and no other exception leaves `Run` until it is called again. -/
def Exits (s : State ε) : Prop :=
  ∀ ex s₁, s.step (.throw ex) = some s₁ → ∀ a as s₂, (∀ b ∈ as, b ≠ .run) →
    (system ε).run s₁ (a :: as) = some s₂ →
    s₂.resumes = s₁.resumes ∧ s₂.propagated = s.propagated ++ [ex]

theorem exits_of_reachable (h : (system ε).Reachable s) : Exits s := by
  intro ex s₁ hthrow a as s₂ has hrun
  obtain ⟨t, hst, hrun⟩ := Option.bind_eq_some_iff.1 hrun
  have hexited := (exited_of_throw (owned_of_reachable h) hthrow hst).run has hrun
  exact ⟨hexited.resumes, hexited.propagated⟩

/-! ### Every frame is handled once -/

/-- The destructor comes to its end, where it has destroyed what was left in the queue. -/
theorem exists_gone (h : Owned s) (hpc : s.pc = .destructor) :
    ∃ s', (system ε).run s (List.replicate (s.readyQueue.length + 1) .advance) = some s' ∧
      s'.pc = .gone := by
  induction hqueue : s.readyQueue generalizing s with
  | nil =>
      have hstep : s.step .advance = some { s with pc := .gone } := by
        unfold State.step State.advanceDestructor
        rw [hpc]
        simp only [hqueue]
      refine ⟨{ s with pc := .gone }, ?_, rfl⟩
      change (s.step .advance).bind _ = _
      rw [hstep]
      rfl
  | cons i rest ih =>
      obtain ⟨t, hst⟩ : ∃ t, s.step .advance = some t := by
        unfold State.step
        rw [hpc]
        exact ⟨_, rfl⟩
      have he := effect_of_step h hst
      have howned := h.effect he
      have ht : t.pc = .destructor ∧ t.readyQueue = rest := by
        cases he with
        | destroyQueued j rest' hpc' hqueue' =>
            rw [hqueue] at hqueue'
            exact ⟨hpc, (List.cons.inj hqueue').2.symm⟩
        | gone hpc' hqueue' =>
            rw [hqueue] at hqueue'
            simp at hqueue'
        | «return» hpc' | resume _ _ hpc' | again _ hpc' | destroyFinished _ hpc'
        | rethrow _ _ hpc' => simp [hpc] at hpc'
      obtain ⟨s', hrun, hgone⟩ := ih howned ht.1 ht.2
      refine ⟨s', ?_, hgone⟩
      change (s.step .advance).bind _ = _
      rw [hst]
      exact hrun

/-- A frame that has not finished and has not been destroyed. -/
def State.Unfinished (s : State ε) (h : ℕ) : Prop :=
  h < s.spawned ∧ (s.frames h).body ≠ .done ∧ (s.frames h).destroyed = 0

/-- What is true in every state. -/
structure Handled (s : State ε) : Prop where
  /-- An unfinished frame is in the queue, once, or is the one that is being resumed. -/
  unfinished : ∀ h, s.Unfinished h →
    s.readyQueue.count h = 1 ∧ s.pc ≠ .running h ∨ s.readyQueue.count h = 0 ∧ s.pc = .running h
  /-- There are only unfinished frames in the queue. -/
  queue : ∀ h ∈ s.readyQueue, s.Unfinished h
  /-- No frame has been looked at or resumed or destroyed after it had been destroyed, and none has been
  resumed after it had finished. -/
  fault : s.fault = false
  destroyed_le : ∀ h < s.spawned, (s.frames h).destroyed ≤ 1
  /-- After `~Scheduler`, every frame has been destroyed. -/
  gone : s.pc = .gone → ∀ h < s.spawned, (s.frames h).destroyed = 1
  /-- `~Scheduler` comes to its end. -/
  ends : s.pc = .outside → ∃ n s', (system ε).run s (.destroy :: List.replicate n .advance) = some s' ∧
    s'.pc = .gone
  /-- `Run` exits with the exceptions that have been thrown. -/
  thrown : s.thrown = s.propagated ++ s.pending
  /-- No coroutine is ahead by more than one resumption of an unfinished one that was spawned before
  `Run`. -/
  lockstep : ∀ g, s.Unfinished g → g < s.spawnedBefore → ∀ h,
    s.resumes.count h ≤ s.resumes.count g + 1

/-- An unfinished frame is in the queue, or is being resumed. -/
theorem Owned.of_unfinished (h : Owned s) {g : ℕ} (hg : s.Unfinished g) :
    g ∈ s.readyQueue ∨ s.pc = .running g := by
  obtain ⟨hlt, hbody, hdestroyed⟩ := hg
  by_contra hnot
  obtain ⟨hqueue, hpc⟩ := not_or.1 hnot
  by_cases hhandle : s.pc.handle? = some g
  · -- the frame is in the hands of `Run`, and has finished
    have hresumed : s.pc = .resumed g := by
      cases hpc' : s.pc <;> simp_all [Pc.handle?]
    obtain ⟨-, hmem | ⟨-, ex, hframe⟩⟩ := h.resumed g hresumed
    · exact hqueue hmem
    · rw [hframe] at hbody
      exact hbody rfl
  · have hone := h.destroyed g hlt hqueue hhandle
    omega

theorem Rounds.le_of_unfinished {k g : ℕ} {now later : List ℕ} (hr : Rounds s k now later)
    (howned : Owned s) (hg : s.Unfinished g) (hbefore : g < s.spawnedBefore) :
    k ≤ s.resumes.count g := by
  rcases howned.of_unfinished hg with hmem | hpc
  · rw [hr.queue] at hmem
    rcases List.mem_append.1 hmem with hmem | hmem
    · exact hr.now_ge g hmem hbefore
    · have hle := hr.later_ge g hmem hbefore
      omega
  · have hle := hr.running_ge g hpc hbefore
    omega

/-- A frame is destroyed at most once. -/
theorem Owned.destroyed_le (h : Owned s) {i : ℕ} (hi : i < s.spawned) :
    (s.frames i).destroyed ≤ 1 := by
  by_cases hqueue : i ∈ s.readyQueue
  · rw [(h.queued i hqueue).2]
    exact Nat.zero_le _
  by_cases hpc : s.pc.handle? = some i
  · cases hplace : s.pc with
    | running j =>
        obtain rfl : j = i := by simpa [hplace, Pc.handle?] using hpc
        rw [(h.running j hplace).2.2]
        exact Nat.zero_le _
    | resumed j =>
        obtain rfl : j = i := by simpa [hplace, Pc.handle?] using hpc
        obtain ⟨-, ex, hframe⟩ := (h.resumed j hplace).2.resolve_left hqueue
        rw [hframe]
        exact Nat.zero_le _
    | _ => simp [hplace, Pc.handle?] at hpc
  · rw [h.destroyed i hi hqueue hpc]

theorem handled_of_reachable (h : (system ε).Reachable s) : Handled s := by
  have howned := owned_of_reachable h
  obtain ⟨hthrown, k, now, later, hr⟩ := rounds_of_reachable h
  refine ⟨?_, ?_, howned.fault, fun i hi => howned.destroyed_le hi, ?_, ?_, hthrown, ?_⟩
  · intro g hg
    rcases howned.of_unfinished hg with hmem | hpc
    · have hne : s.pc ≠ .running g := fun hpc => (howned.running g hpc).2.1 hmem
      exact Or.inl ⟨List.count_eq_one_of_mem howned.nodup hmem, hne⟩
    · exact Or.inr ⟨List.count_eq_zero.2 (howned.running g hpc).2.1, hpc⟩
  · intro g hg
    obtain ⟨hlt, hframe⟩ := howned.queued g hg
    exact ⟨hlt, by simp [hframe, Frame.create], by rw [hframe]; rfl⟩
  · intro hgone i hi
    have hempty := howned.gone hgone
    exact howned.destroyed i hi (by simp [hempty]) (by simp [hgone, Pc.handle?])
  · intro hpc
    have hstep : s.step .destroy = some { s with pc := .destructor } := by
      unfold State.step
      rw [hpc]
    have howned' := howned.effect (effect_of_step howned hstep)
    obtain ⟨s', hrun, hgone⟩ := exists_gone howned' rfl
    refine ⟨s.readyQueue.length + 1, s', ?_, hgone⟩
    change (s.step .destroy).bind _ = _
    rw [hstep]
    exact hrun
  · intro g hg hbefore i
    have hle := hr.le i
    have hge := hr.le_of_unfinished howned hg hbefore
    omega

/-- **The scheduler handles every frame exactly once**, in every state of every run, and an exception is
the last thing that happens in `Run`. -/
theorem frames_handled_once (h : (system ε).Reachable s) : Handled s ∧ Exits s :=
  ⟨handled_of_reachable h, exits_of_reachable h⟩

/-- Two coroutines, of which the first one yields and the second one throws: `Run` exits, and the first
one is destroyed by the destructor. -/
def firstYieldsSecondThrows : List (Action ℕ) :=
  [.spawn, .spawn, .run, .advance, .yield, .advance, .advance, .throw 7, .advance, .destroy, .advance,
    .advance]

/-- At the end of that run, both frames have been destroyed, and the exception has left `Run`. -/
theorem frames_handled_once_two_coroutines :
    ∃ s, (system ℕ).run .initial firstYieldsSecondThrows = some s ∧ (Handled s ∧ Exits s) ∧
      (s.frames 0).destroyed = 1 ∧ (s.frames 1).destroyed = 1 ∧ s.propagated = [7] := by
  have hend : ((system ℕ).run .initial firstYieldsSecondThrows).map
      (fun s => ((s.frames 0).destroyed, (s.frames 1).destroyed, s.propagated)) = some (1, 1, [7]) := by rfl
  obtain ⟨s, hs, hvalues⟩ := Option.map_eq_some_iff.1 hend
  have hreach : (system ℕ).Reachable s := Automaton.Reachable.of_run rfl hs
  simp only [Prod.mk.injEq] at hvalues
  exact ⟨s, hs, frames_handled_once hreach, hvalues⟩

end CoroutineScheduler
