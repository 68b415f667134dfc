/-
**From a pending handler to a `Future` that is ready.**

The pending handler of a task is in one place only: in the map, with the reader that has taken it out, or
with `FailAllPending`.  It is called once, and then the shared state is ready.

Main definitions:

* `ProcessPool.Routing.Placed` — **a pending handler is in one place only**;
* `ProcessPool.Routing.Settled` — **a shared state is ready exactly when its handler has been called**,
  and holds what it was called with.

Main results:

* `ProcessPool.Routing.Placed.step`, `ProcessPool.Routing.Settled.step` — every step keeps these
  invariants;
* `ProcessPool.Routing.Settled.ready_stable` — no step changes a shared state that is ready.
-/

import CppMultithreaded.PoolStages

set_option relaxedAutoImplicit false
set_option autoImplicit false

namespace ProcessPool

variable {τ θ : Type*} {P : Program τ} {n : ℕ} [DecidableEq θ]

/-! ### Where a pending handler is -/

/-- The pending handler of a task, as `MakePending` makes it. -/
def Ledger.HandlerOf (L : Ledger P n θ) (i : ℕ) (p : Pending) : Prop :=
  ∃ job, L.task i = some (job, p.state) ∧ p.resultSize = P.resultSize job.type

/-- The id of a call of `Submit` that has inserted its pending handler. -/
def SubmitPc.inserted : SubmitPc P n → Option ℕ
  | .chooseWorker _ _ taskId => some taskId
  | .lockWriteMutex _ _ taskId _ => some taskId
  | .write _ _ taskId _ => some taskId
  | _ => none

/-- **A pending handler is in one place only.** -/
structure Routing.Placed (R : Routing P n θ) : Prop where
  place_lt : ∀ i, R.nextTaskId ≤ i → R.place i = .absent
  of_insert : ∀ t job state i, R.thread t = .insertPending job state i → R.place i = .absent
  of_inserted : ∀ t i, (R.thread t).inserted = some i → R.place i ≠ .absent
  pending : ∀ i p, R.pending.lookup i = some p → R.place i = .pending ∧ R.HandlerOf i p
  draining : ∀ i p, R.draining.lookup i = some p → R.place i = .draining ∧ R.HandlerOf i p
  handler : ∀ w h, R.handler w = some h → R.place h.taskId = .reader w ∧ R.HandlerOf h.taskId h.pending
  of_pending : ∀ i, R.place i = .pending → ∃ p, R.pending.lookup i = some p
  of_draining : ∀ i, R.place i = .draining → ∃ p, R.draining.lookup i = some p
  of_reader : ∀ i w, R.place i = .reader w → ∃ h, R.handler w = some h ∧ h.taskId = i

namespace Routing.Placed

variable {R R' : Routing P n θ}

/-- A thread moves on, without fetching an id. -/
theorem move (h : R.Placed) (t : θ) (pc : SubmitPc P n)
    (hpc : ∀ job state i, pc ≠ .insertPending job state i)
    (hin : pc.inserted = none ∨ pc.inserted = (R.thread t).inserted) :
    Placed { R with thread := Function.update R.thread t pc } := by
  refine ⟨h.place_lt, ?_, ?_, h.pending, h.draining, h.handler, h.of_pending, h.of_draining,
    h.of_reader⟩
  · intro u job state i hu
    rcases eq_or_ne u t with rfl | hne
    · simp only [Function.update_self] at hu
      exact absurd hu (hpc job state i)
    · simp only [Function.update_of_ne hne] at hu
      exact h.of_insert u job state i hu
  · intro u i hu
    rcases eq_or_ne u t with rfl | hne
    · simp only [Function.update_self] at hu
      rcases hin with hnone | hsame
      · rw [hnone] at hu
        simp at hu
      · rw [hsame] at hu
        exact h.of_inserted u i hu
    · simp only [Function.update_of_ne hne] at hu
      exact h.of_inserted u i hu

theorem fetchTaskId (h : R.Placed) (hn : R.Named) {t : θ} {job : Job P} {state : ℕ}
    (hlt : R.nextTaskId + 1 < 2 ^ 64) : Placed { R with toLedger := R.fetchTaskId t job state } := by
  have hnext : (R.nextTaskId + 1) % 2 ^ 64 = R.nextTaskId + 1 := Nat.mod_eq_of_lt hlt
  have hkeep : ∀ {i p}, R.HandlerOf i p → (R.fetchTaskId t job state).HandlerOf i p := by
    rintro i p ⟨job', htask, hsize⟩
    refine ⟨job', ?_, hsize⟩
    simp only [Ledger.fetchTaskId]
    rw [Function.update_of_ne (hn.task_lt i _ htask).ne]
    exact htask
  refine ⟨?_, ?_, ?_, ?_, ?_, ?_, h.of_pending, h.of_draining, h.of_reader⟩
  · intro i hi
    simp only [Ledger.fetchTaskId, hnext] at hi ⊢
    exact h.place_lt i (by omega)
  · intro u job' state' i hu
    simp only [Ledger.fetchTaskId] at hu ⊢
    rcases eq_or_ne u t with rfl | hne
    · rw [Function.update_self] at hu
      injection hu with _ _ hi
      exact h.place_lt i hi.le
    · rw [Function.update_of_ne hne] at hu
      exact h.of_insert u job' state' i hu
  · intro u i hu
    simp only [Ledger.fetchTaskId] at hu ⊢
    rcases eq_or_ne u t with rfl | hne
    · rw [Function.update_self] at hu
      simp [SubmitPc.inserted] at hu
    · rw [Function.update_of_ne hne] at hu
      exact h.of_inserted u i hu
  · intro i p hp
    exact ⟨(h.pending i p hp).1, hkeep (h.pending i p hp).2⟩
  · intro i p hp
    exact ⟨(h.draining i p hp).1, hkeep (h.draining i p hp).2⟩
  · intro w handler hh
    exact ⟨(h.handler w handler hh).1, hkeep (h.handler w handler hh).2⟩

theorem insertPending (h : R.Placed) (hn : R.Named) (hs : R.Sent) {t : θ} {job : Job P}
    {state taskId : ℕ} (ht : R.thread t = .insertPending job state taskId) :
    Placed { R with toLedger := R.insertPending t job state taskId } := by
  have habsent := h.of_insert t job state taskId ht
  have hheld : R.stage taskId = .held t := hs.of_thread t taskId (by rw [ht]; rfl)
  have htask : R.task taskId = some (job, state) :=
    hn.of_thread t job state taskId (by rw [ht]; rfl)
  have hkeep : ∀ {i : ℕ} {a : Place n}, R.place i = a → a ≠ .absent →
      Function.update R.place taskId .pending i = a := by
    intro i a hi hne
    exact update_of_apply_ne hi habsent hne
  refine ⟨?_, ?_, ?_, ?_, ?_, ?_, ?_, ?_, ?_⟩
  · intro i hi
    have hne : i ≠ taskId := ((hn.task_lt taskId _ htask).trans_le hi).ne'
    simp only [Ledger.insertPending, Function.update_of_ne hne]
    exact h.place_lt i hi
  · intro u job' state' i hu
    simp only [Ledger.insertPending] at hu ⊢
    rcases eq_or_ne u t with rfl | hne
    · simp [Function.update_self] at hu
    · rw [Function.update_of_ne hne] at hu
      have hheld' := hs.of_thread u i (by rw [hu]; rfl)
      -- another thread holds another id
      have hi : i ≠ taskId := by
        rintro rfl
        rw [hheld] at hheld'
        injection hheld' with heq
        exact hne heq.symm
      rw [Function.update_of_ne hi]
      exact h.of_insert u job' state' i hu
  · intro u i hu
    simp only [Ledger.insertPending] at hu ⊢
    rcases eq_or_ne i taskId with rfl | hi
    · simp [Function.update_self]
    · rw [Function.update_of_ne hi]
      rcases eq_or_ne u t with rfl | hne
      · rw [Function.update_self] at hu
        exact absurd (Option.some.inj hu).symm hi
      · rw [Function.update_of_ne hne] at hu
        exact h.of_inserted u i hu
  · intro i p hp
    simp only [Ledger.insertPending] at hp ⊢
    rcases eq_or_ne i taskId with rfl | hi
    · rw [AList.lookup_insert] at hp
      rw [Function.update_self, ← Option.some.inj hp]
      exact ⟨rfl, job, htask, rfl⟩
    · rw [AList.lookup_insert_ne hi] at hp
      obtain ⟨hplace, hof⟩ := h.pending i p hp
      rw [Function.update_of_ne hi]
      exact ⟨hplace, hof⟩
  · intro i p hp
    exact ⟨hkeep (h.draining i p hp).1 (by simp), (h.draining i p hp).2⟩
  · intro w handler hh
    exact ⟨hkeep (h.handler w handler hh).1 (by simp), (h.handler w handler hh).2⟩
  · intro i hi
    simp only [Ledger.insertPending] at hi ⊢
    rcases eq_or_ne i taskId with rfl | hne
    · exact ⟨_, AList.lookup_insert _⟩
    · rw [Function.update_of_ne hne] at hi
      rw [AList.lookup_insert_ne hne]
      exact h.of_pending i hi
  · intro i hi
    simp only [Ledger.insertPending] at hi
    rcases eq_or_ne i taskId with rfl | hne
    · simp [Function.update_self] at hi
    · rw [Function.update_of_ne hne] at hi
      exact h.of_draining i hi
  · intro i w hi
    simp only [Ledger.insertPending] at hi
    rcases eq_or_ne i taskId with rfl | hne
    · simp [Function.update_self] at hi
    · rw [Function.update_of_ne hne] at hi
      exact h.of_reader i w hi

omit [DecidableEq θ] in
theorem lookup_none (h : R.Placed) {w : Fin n} {r : Response}
    {responses : Fin n → List Response} (hw : R.handler w = none)
    (hnone : R.pending.lookup r.taskId = none) :
    Placed { R with
      toLedger := R.lookup w r.taskId
      responses := responses
      handler := Function.update R.handler w none } := by
  have hplace : (R.lookup w r.taskId).place = R.place := by simp [Ledger.lookup, hnone]
  have hpending : ∀ i, (R.lookup w r.taskId).pending.lookup i = R.pending.lookup i := by
    intro i
    simp only [Ledger.lookup]
    rcases eq_or_ne i r.taskId with rfl | hne
    · rw [AList.lookup_erase, hnone]
    · rw [AList.lookup_erase_ne hne]
  have hhandler : Function.update R.handler w none = R.handler := by
    rw [← hw, Function.update_eq_self]
  rw [hhandler]
  refine ⟨?_, ?_, ?_, ?_, ?_, ?_, ?_, ?_, ?_⟩
  all_goals simp only [hplace, hpending]
  · exact h.place_lt
  · exact h.of_insert
  · exact h.of_inserted
  · exact h.pending
  · exact h.draining
  · exact h.handler
  · exact h.of_pending
  · exact h.of_draining
  · exact h.of_reader

omit [DecidableEq θ] in
theorem lookup_some (h : R.Placed) {w : Fin n} {r : Response} {p : Pending}
    {responses : Fin n → List Response} (hw : R.handler w = none)
    (hsome : R.pending.lookup r.taskId = some p) :
    Placed { R with
      toLedger := R.lookup w r.taskId
      responses := responses
      handler := Function.update R.handler w (some ⟨r.taskId, p, r.status.code, r.payload⟩) } := by
  obtain ⟨hplace, hof⟩ := h.pending r.taskId p hsome
  have hnew : (R.lookup w r.taskId).place = Function.update R.place r.taskId (.reader w) := by
    simp [Ledger.lookup, hsome]
  have hkeep : ∀ {i : ℕ} {a : Place n}, R.place i = a → a ≠ .pending →
      Function.update R.place r.taskId (.reader w) i = a := by
    intro i a hi hne
    exact update_of_apply_ne hi hplace hne
  have hother : ∀ {i : ℕ} {a : Place n}, Function.update R.place r.taskId (.reader w) i = a →
      a ≠ .reader w → R.place i = a ∧ i ≠ r.taskId := by
    intro i a hi hne
    exact of_update_apply_ne hi hne
  refine ⟨?_, ?_, ?_, ?_, ?_, ?_, ?_, ?_, ?_⟩
  all_goals simp only [hnew]
  · intro i hi
    exact hkeep (h.place_lt i hi) (by simp)
  · intro u job state i hu
    exact hkeep (h.of_insert u job state i hu) (by simp)
  · intro u i hu habsent
    exact h.of_inserted u i hu (hother habsent (by simp)).1
  · intro i p' hp'
    simp only [Ledger.lookup] at hp'
    rcases eq_or_ne i r.taskId with rfl | hne
    · rw [AList.lookup_erase] at hp'
      simp at hp'
    · rw [AList.lookup_erase_ne hne] at hp'
      rw [Function.update_of_ne hne]
      exact h.pending i p' hp'
  · intro i p' hp'
    exact ⟨hkeep (h.draining i p' hp').1 (by simp), (h.draining i p' hp').2⟩
  · intro v handler hh
    rcases eq_or_ne v w with rfl | hne
    · rw [Function.update_self] at hh
      obtain rfl := Option.some.inj hh
      exact ⟨Function.update_self _ _ _, hof⟩
    · rw [Function.update_of_ne hne] at hh
      exact ⟨hkeep (h.handler v handler hh).1 (by simp), (h.handler v handler hh).2⟩
  · intro i hi
    obtain ⟨hold, hne⟩ := hother hi (by simp)
    simp only [Ledger.lookup, AList.lookup_erase_ne hne]
    exact h.of_pending i hold
  · intro i hi
    exact h.of_draining i (hother hi (by simp)).1
  · intro i v hi
    rcases eq_or_ne i r.taskId with rfl | hi'
    · rw [Function.update_self] at hi
      injection hi with hvw
      rw [← hvw, Function.update_self]
      exact ⟨_, rfl, rfl⟩
    · rw [Function.update_of_ne hi'] at hi
      obtain ⟨handler, hh, hid⟩ := h.of_reader i v hi
      -- the reader had no handler before
      have hne : v ≠ w := by
        rintro rfl
        rw [hw] at hh
        simp at hh
      rw [Function.update_of_ne hne]
      exact ⟨handler, hh, hid⟩

omit [DecidableEq θ] in
theorem complete (h : R.Placed) {w : Fin n} {handler : Handler} (hw : R.handler w = some handler) :
    Placed { R with
      toLedger := R.complete handler
      handler := Function.update R.handler w none } := by
  have hplace := (h.handler w handler hw).1
  have hkeep : ∀ {i : ℕ} {a : Place n}, R.place i = a → a ≠ .reader w →
      Function.update R.place handler.taskId .completed i = a := by
    intro i a hi hne
    exact update_of_apply_ne hi hplace hne
  have hother : ∀ {i : ℕ} {a : Place n},
      Function.update R.place handler.taskId .completed i = a → a ≠ .completed →
      R.place i = a ∧ i ≠ handler.taskId := by
    intro i a hi hne
    exact of_update_apply_ne hi hne
  refine ⟨?_, ?_, ?_, ?_, ?_, ?_, ?_, ?_, ?_⟩
  · intro i hi
    exact hkeep (h.place_lt i hi) (by simp)
  · intro u job state i hu
    exact hkeep (h.of_insert u job state i hu) (by simp)
  · intro u i hu habsent
    exact h.of_inserted u i hu (hother habsent (by simp)).1
  · intro i p hp
    exact ⟨hkeep (h.pending i p hp).1 (by simp), (h.pending i p hp).2⟩
  · intro i p hp
    exact ⟨hkeep (h.draining i p hp).1 (by simp), (h.draining i p hp).2⟩
  · intro v handler' hh
    rcases eq_or_ne v w with rfl | hne
    · simp [Function.update_self] at hh
    · simp only [Function.update_of_ne hne] at hh
      exact ⟨hkeep (h.handler v handler' hh).1 (by simpa using hne), (h.handler v handler' hh).2⟩
  · intro i hi
    exact h.of_pending i (hother hi (by simp)).1
  · intro i hi
    exact h.of_draining i (hother hi (by simp)).1
  · intro i v hi
    obtain ⟨hold, hne⟩ := hother hi (by simp)
    obtain ⟨handler', hh, hid⟩ := h.of_reader i v hold
    -- the handler of the reader is that of the id which is completed
    have hv : v ≠ w := by
      rintro rfl
      rw [hw] at hh
      obtain rfl := Option.some.inj hh
      exact hne hid.symm
    simp only [Function.update_of_ne hv]
    exact ⟨handler', hh, hid⟩

omit [DecidableEq θ] in
theorem drain (h : R.Placed) (hempty : R.draining = ∅) :
    Placed { R with toLedger := R.drain, draining := R.pending, swapped := true } := by
  have hkeep : ∀ {i : ℕ} {a : Place n}, R.place i = a → a ≠ .pending → R.drain.place i = a := by
    intro i a hi hne
    simp only [Ledger.drain]
    rw [if_neg (by rw [hi]; exact hne)]
    exact hi
  have hdrained : ∀ {i : ℕ} {a : Place n}, R.drain.place i = a →
      R.place i = a ∧ a ≠ .pending ∨ a = .draining ∧ R.place i = .pending := by
    intro i a hi
    simp only [Ledger.drain] at hi
    split_ifs at hi with hp
    · exact Or.inr ⟨hi.symm, hp⟩
    · exact Or.inl ⟨hi, fun ha => hp (hi.trans ha)⟩
  refine ⟨?_, ?_, ?_, ?_, ?_, ?_, ?_, ?_, ?_⟩
  · intro i hi
    exact hkeep (h.place_lt i hi) (by simp)
  · intro u job state i hu
    exact hkeep (h.of_insert u job state i hu) (by simp)
  · intro u i hu habsent
    rcases hdrained habsent with ⟨hold, -⟩ | ⟨hne, -⟩
    · exact h.of_inserted u i hu hold
    · simp at hne
  · intro i p hp
    simp [Ledger.drain] at hp
  · intro i p hp
    obtain ⟨hplace, hof⟩ := h.pending i p hp
    refine ⟨?_, hof⟩
    simp [Ledger.drain, hplace]
  · intro w handler hh
    exact ⟨hkeep (h.handler w handler hh).1 (by simp), (h.handler w handler hh).2⟩
  · intro i hi
    rcases hdrained hi with ⟨-, hne⟩ | ⟨hne, -⟩
    · exact absurd rfl hne
    · simp at hne
  · intro i hi
    rcases hdrained hi with ⟨hold, -⟩ | ⟨-, hold⟩
    · obtain ⟨p, hp⟩ := h.of_draining i hold
      simp [hempty] at hp
    · exact h.of_pending i hold
  · intro i w hi
    rcases hdrained hi with ⟨hold, -⟩ | ⟨hne, -⟩
    · exact h.of_reader i w hold
    · simp at hne

omit [DecidableEq θ] in
theorem fail (h : R.Placed) {taskId : ℕ} {p : Pending}
    (hp : R.draining.lookup taskId = some p) :
    Placed { R with
      toLedger := R.fail taskId p
      draining := R.draining.erase taskId } := by
  have hplace := (h.draining taskId p hp).1
  have hkeep : ∀ {i : ℕ} {a : Place n}, R.place i = a → a ≠ .draining →
      Function.update R.place taskId .failed i = a := by
    intro i a hi hne
    exact update_of_apply_ne hi hplace hne
  have hother : ∀ {i : ℕ} {a : Place n}, Function.update R.place taskId .failed i = a →
      a ≠ .failed → R.place i = a ∧ i ≠ taskId := by
    intro i a hi hne
    exact of_update_apply_ne hi hne
  refine ⟨?_, ?_, ?_, ?_, ?_, ?_, ?_, ?_, ?_⟩
  · intro i hi
    exact hkeep (h.place_lt i hi) (by simp)
  · intro u job state i hu
    exact hkeep (h.of_insert u job state i hu) (by simp)
  · intro u i hu habsent
    exact h.of_inserted u i hu (hother habsent (by simp)).1
  · intro i p' hp'
    exact ⟨hkeep (h.pending i p' hp').1 (by simp), (h.pending i p' hp').2⟩
  · intro i p' hp'
    simp only at hp'
    rcases eq_or_ne i taskId with rfl | hne
    · rw [AList.lookup_erase] at hp'
      simp at hp'
    · rw [AList.lookup_erase_ne hne] at hp'
      simp only [Ledger.fail, Function.update_of_ne hne]
      exact h.draining i p' hp'
  · intro w handler hh
    exact ⟨hkeep (h.handler w handler hh).1 (by simp), (h.handler w handler hh).2⟩
  · intro i hi
    exact h.of_pending i (hother hi (by simp)).1
  · intro i hi
    obtain ⟨hold, hne⟩ := hother hi (by simp)
    simp only [AList.lookup_erase_ne hne]
    exact h.of_draining i hold
  · intro i w hi
    exact h.of_reader i w (hother hi (by simp)).1

/-- **Every step keeps the places.** -/
theorem step (h : R.Placed) (hn : R.Named) (hsent : R.Sent) (hs : R.Step R') : R'.Placed := by
  cases hs with
  | makeState t job ht =>
      have hmove := h.move t (.fetchTaskId job R.nextState) (by simp) (Or.inl rfl)
      exact ⟨hmove.place_lt, hmove.of_insert, hmove.of_inserted, hmove.pending, hmove.draining,
        hmove.handler, hmove.of_pending, hmove.of_draining, hmove.of_reader⟩
  | fetchTaskId t job state ht hlt => exact h.fetchTaskId hn hlt
  | insertPending t job state taskId ht => exact h.insertPending hn hsent ht
  | chooseWorker t job state taskId w ht => exact h.move t _ (by simp) (Or.inr (by rw [ht]; rfl))
  | refuse t => exact h.move t .idle (by simp) (Or.inl rfl)
  | send t job state taskId w ht =>
      have hmove := h.move t (.write job state taskId w) (by simp) (Or.inr (by rw [ht]; rfl))
      exact ⟨hmove.place_lt, hmove.of_insert, hmove.of_inserted, hmove.pending, hmove.draining,
        hmove.handler, hmove.of_pending, hmove.of_draining, hmove.of_reader⟩
  | returnFuture t job state taskId w ht =>
      have hmove := h.move t .idle (by simp) (Or.inl rfl)
      exact ⟨hmove.place_lt, hmove.of_insert, hmove.of_inserted, hmove.pending, hmove.draining,
        hmove.handler, hmove.of_pending, hmove.of_draining, hmove.of_reader⟩
  | lookup w r rest _ hw =>
      cases hfound : R.pending.lookup r.taskId with
      | none => exact h.lookup_none hw hfound
      | some p => exact h.lookup_some hw hfound
  | complete w handler hw => exact h.complete hw
  | drain hempty => exact h.drain hempty
  | fail taskId p hp _ => exact h.fail hp
  | execute w taskId job rest outcome _ _ =>
      exact ⟨h.place_lt, h.of_insert, h.of_inserted, h.pending, h.draining, h.handler, h.of_pending,
        h.of_draining, h.of_reader⟩
  | crash w taskId job rest _ =>
      exact ⟨h.place_lt, h.of_insert, h.of_inserted, h.pending, h.draining, h.handler, h.of_pending,
        h.of_draining, h.of_reader⟩

end Routing.Placed

/-! ### When a shared state is ready -/

/-- The shared state after its handler has been called with a response. -/
def SharedState.completed (job : Job P) (status : ℕ) (payload : List UInt8) : SharedState :=
  SharedState.make.complete (P.resultSize job.type) status payload

/-- The shared state after `FailAllPending`. -/
def SharedState.shutDown : SharedState := SharedState.make.setException shutdownReason

/-- **A shared state is ready exactly when its handler has been called**, and holds what it was called
with. -/
structure Routing.Settled (R : Routing P n θ) : Prop where
  unnamed : ∀ state, (∀ i job, R.origin state ≠ .named i job) → R.states state = SharedState.make
  waiting : ∀ i job state, R.task i = some (job, state) → R.place i ≠ .completed →
    R.place i ≠ .failed → R.states state = SharedState.make
  completed : ∀ c ∈ R.completed, R.place c.taskId = .completed ∧ ∃ job,
    R.task c.taskId = some (job, c.state) ∧
      R.states c.state = SharedState.completed job c.status c.payload
  of_completed : ∀ i, R.place i = .completed → ∃ c ∈ R.completed, c.taskId = i
  completed_nodup : (R.completed.map Completion.taskId).Nodup
  failed : ∀ i ∈ R.failed, R.place i = .failed
  of_failed : ∀ i, R.place i = .failed → i ∈ R.failed
  failed_state : ∀ i job state, R.task i = some (job, state) → R.place i = .failed →
    R.states state = SharedState.shutDown
  failed_nodup : R.failed.Nodup

namespace Routing

variable {R R' : Routing P n θ}

omit [DecidableEq θ] in
/-- A shared state belongs to one id. -/
theorem Named.task_inj (hn : R.Named) {i j : ℕ} {job job' : Job P} {state : ℕ}
    (hi : R.task i = some (job, state)) (hj : R.task j = some (job', state)) : i = j := by
  have heq := (hn.origin_of_task i job state hi).symm.trans (hn.origin_of_task j job' state hj)
  injection heq

namespace Settled

omit [DecidableEq θ] in
/-- Handlers move, without being called. -/
theorem move (h : R.Settled) {place : ℕ → Place n}
    (hcompleted : ∀ i, place i = .completed ↔ R.place i = .completed)
    (hfailed : ∀ i, place i = .failed ↔ R.place i = .failed) :
    Settled { R with place := place } := by
  refine ⟨h.unnamed, ?_, ?_, ?_, h.completed_nodup, ?_, ?_, ?_, h.failed_nodup⟩
  · intro i job state hi hc hf
    exact h.waiting i job state hi (fun hp => hc ((hcompleted i).2 hp))
      (fun hp => hf ((hfailed i).2 hp))
  · intro c hc
    obtain ⟨hplace, hstate⟩ := h.completed c hc
    exact ⟨(hcompleted _).2 hplace, hstate⟩
  · intro i hi
    exact h.of_completed i ((hcompleted i).1 hi)
  · intro i hi
    exact (hfailed i).2 (h.failed i hi)
  · intro i hi
    exact h.of_failed i ((hfailed i).1 hi)
  · intro i job state hi hf
    exact h.failed_state i job state hi ((hfailed i).1 hf)

theorem makeState (h : R.Settled) (hn : R.Named) (t : θ) (job : Job P) :
    Settled { R with toLedger := R.makeState t job } := by
  have htask : ∀ {i job' state}, R.task i = some (job', state) → state ≠ R.nextState := by
    intro i job' state hi
    have hlt := hn.origin_lt state (by rw [hn.origin_of_task i job' state hi]; simp)
    exact hlt.ne
  refine ⟨?_, ?_, ?_, h.of_completed, h.completed_nodup, h.failed, h.of_failed, ?_, h.failed_nodup⟩
  · intro state hstate
    simp only [Ledger.makeState] at hstate ⊢
    rcases eq_or_ne state R.nextState with rfl | hne
    · rw [Function.update_self]
    · rw [Function.update_of_ne hne] at hstate ⊢
      exact h.unnamed state hstate
  · intro i job' state hi hc hf
    simp only [Ledger.makeState, Function.update_of_ne (htask hi)]
    exact h.waiting i job' state hi hc hf
  · intro c hc
    obtain ⟨hplace, job', hi, hstate⟩ := h.completed c hc
    refine ⟨hplace, job', hi, ?_⟩
    simp only [Ledger.makeState, Function.update_of_ne (htask hi)]
    exact hstate
  · intro i job' state hi hf
    simp only [Ledger.makeState, Function.update_of_ne (htask hi)]
    exact h.failed_state i job' state hi hf

theorem fetchTaskId (h : R.Settled) (hn : R.Named) (hp : R.Placed) {t : θ} {job : Job P} {state : ℕ}
    (ht : R.thread t = .fetchTaskId job state) :
    Settled { R with toLedger := R.fetchTaskId t job state } := by
  have habsent := hp.place_lt R.nextTaskId le_rfl
  refine ⟨?_, ?_, ?_, h.of_completed, h.completed_nodup, h.failed, h.of_failed, ?_, h.failed_nodup⟩
  · intro state' hstate'
    refine h.unnamed state' ?_
    intro i job' hold
    refine hstate' i job' ?_
    simp only [Ledger.fetchTaskId]
    refine update_of_apply_ne hold (hn.of_fetch t job state ht) (by simp)
  · intro i job' state' hi hc hf
    simp only [Ledger.fetchTaskId] at hi
    rcases eq_or_ne i R.nextTaskId with rfl | hne
    · rw [Function.update_self, Option.some.injEq, Prod.mk.injEq] at hi
      rw [← hi.2]
      refine h.unnamed state ?_
      intro i job'' hold
      rw [hn.of_fetch t job state ht] at hold
      simp at hold
    · rw [Function.update_of_ne hne] at hi
      exact h.waiting i job' state' hi hc hf
  · intro c hc
    obtain ⟨hplace, job', hi, hstate⟩ := h.completed c hc
    refine ⟨hplace, job', ?_, hstate⟩
    simp only [Ledger.fetchTaskId, Function.update_of_ne (hn.task_lt _ _ hi).ne]
    exact hi
  · intro i job' state' hi hf
    simp only [Ledger.fetchTaskId] at hi hf
    rcases eq_or_ne i R.nextTaskId with rfl | hne
    · rw [habsent] at hf
      simp at hf
    · rw [Function.update_of_ne hne] at hi
      exact h.failed_state i job' state' hi hf

omit [DecidableEq θ] in
/-- A handler is called: the other shared states are left alone. -/
theorem states_of_ne (hn : R.Named) {i j : ℕ} {job job' : Job P} {state : ℕ} {p : Pending}
    {s : SharedState} (hi : R.task i = some (job, p.state)) (hj : R.task j = some (job', state))
    (hne : j ≠ i) : Function.update R.states p.state s state = R.states state := by
  refine Function.update_of_ne ?_ _ _
  rintro rfl
  exact hne (hn.task_inj hj hi)

omit [DecidableEq θ] in
theorem complete (h : R.Settled) (hn : R.Named) (hp : R.Placed) {w : Fin n} {handler : Handler}
    (hw : R.handler w = some handler) :
    Settled { R with
      toLedger := R.complete handler
      handler := Function.update R.handler w none } := by
  obtain ⟨hplace, job, htask, hsize⟩ := hp.handler w handler hw
  have hmake := h.waiting handler.taskId job handler.pending.state htask (by rw [hplace]; simp)
    (by rw [hplace]; simp)
  -- a completed id is not with a reader any more
  have hunique : handler.taskId ∉ R.completed.map Completion.taskId := by
    intro hmem
    obtain ⟨c, hc, hid⟩ := List.mem_map.1 hmem
    have hcompleted := (h.completed c hc).1
    rw [hid, hplace] at hcompleted
    simp at hcompleted
  refine ⟨?_, ?_, ?_, ?_, ?_, ?_, ?_, ?_, h.failed_nodup⟩
  · intro state hstate
    have hne : state ≠ handler.pending.state := by
      rintro rfl
      exact hstate _ _ (hn.origin_of_task _ _ _ htask)
    simp only [Ledger.complete, Function.update_of_ne hne]
    exact h.unnamed state hstate
  · intro i job' state hi hc hf
    simp only [Ledger.complete] at hc hf ⊢
    have hne : i ≠ handler.taskId := by
      rintro rfl
      simp [Function.update_self] at hc
    rw [Function.update_of_ne hne] at hc hf
    rw [states_of_ne hn htask hi hne]
    exact h.waiting i job' state hi hc hf
  · intro c hc
    rcases List.mem_append.1 hc with hold | hnew
    · obtain ⟨hplace', job', hi, hstate⟩ := h.completed c hold
      have hne : c.taskId ≠ handler.taskId := by
        intro heq
        exact hunique (heq ▸ List.mem_map.2 ⟨c, hold, rfl⟩)
      refine ⟨?_, job', hi, ?_⟩
      · simp only [Ledger.complete, Function.update_of_ne hne]
        exact hplace'
      · simp only [Ledger.complete]
        rw [states_of_ne hn htask hi hne]
        exact hstate
    · rw [List.mem_singleton.1 hnew]
      refine ⟨Function.update_self _ _ _, job, htask, ?_⟩
      simp only [Ledger.complete, Function.update_self, hmake, hsize, SharedState.completed]
  · intro i hi
    rcases eq_or_ne i handler.taskId with rfl | hne
    · exact ⟨_, List.mem_append_right _ (List.mem_singleton_self _), rfl⟩
    · simp only [Ledger.complete, Function.update_of_ne hne] at hi
      obtain ⟨c, hc, hid⟩ := h.of_completed i hi
      exact ⟨c, List.mem_append_left _ hc, hid⟩
  · simp only [Ledger.complete, List.map_append, List.map_cons, List.map_nil]
    refine List.nodup_append.2 ⟨h.completed_nodup, List.nodup_singleton _, ?_⟩
    intro a ha b hb heq
    rw [List.mem_singleton.1 hb] at heq
    exact hunique (heq ▸ ha)
  · intro i hi
    exact update_of_apply_ne (h.failed i hi) hplace (by simp)
  · intro i hi
    exact h.of_failed i (of_update_apply_ne hi (by simp)).1
  · intro i job' state hi hf
    obtain ⟨hold, hne⟩ := of_update_apply_ne hf (by simp)
    simp only [Ledger.complete]
    rw [states_of_ne hn htask hi hne]
    exact h.failed_state i job' state hi hold

omit [DecidableEq θ] in
theorem fail (h : R.Settled) (hn : R.Named) (hp : R.Placed) {taskId : ℕ} {p : Pending}
    (hlookup : R.draining.lookup taskId = some p) :
    Settled { R with
      toLedger := R.fail taskId p
      draining := R.draining.erase taskId } := by
  obtain ⟨hplace, job, htask, hsize⟩ := hp.draining taskId p hlookup
  have hmake := h.waiting taskId job p.state htask (by rw [hplace]; simp) (by rw [hplace]; simp)
  -- a failed id has left the map
  have hunique : taskId ∉ R.failed := by
    intro hmem
    have hfailed := h.failed taskId hmem
    rw [hplace] at hfailed
    simp at hfailed
  refine ⟨?_, ?_, ?_, ?_, h.completed_nodup, ?_, ?_, ?_, ?_⟩
  · intro state hstate
    have hne : state ≠ p.state := by
      rintro rfl
      exact hstate _ _ (hn.origin_of_task _ _ _ htask)
    simp only [Ledger.fail, Function.update_of_ne hne]
    exact h.unnamed state hstate
  · intro i job' state hi hc hf
    simp only [Ledger.fail] at hc hf ⊢
    have hne : i ≠ taskId := by
      rintro rfl
      simp [Function.update_self] at hf
    rw [Function.update_of_ne hne] at hc hf
    rw [states_of_ne hn htask hi hne]
    exact h.waiting i job' state hi hc hf
  · intro c hc
    obtain ⟨hplace', job', hi, hstate⟩ := h.completed c hc
    have hne : c.taskId ≠ taskId := by
      intro heq
      rw [heq, hplace] at hplace'
      simp at hplace'
    refine ⟨?_, job', hi, ?_⟩
    · simp only [Ledger.fail, Function.update_of_ne hne]
      exact hplace'
    · simp only [Ledger.fail]
      rw [states_of_ne hn htask hi hne]
      exact hstate
  · intro i hi
    exact h.of_completed i (of_update_apply_ne hi (by simp)).1
  · intro i hi
    rcases List.mem_append.1 hi with hold | hnew
    · exact update_of_apply_ne (h.failed i hold) hplace (by simp)
    · rw [List.mem_singleton.1 hnew]
      exact Function.update_self _ _ _
  · intro i hi
    rcases eq_or_ne i taskId with rfl | hne
    · exact List.mem_append_right _ (List.mem_singleton_self i)
    · simp only [Ledger.fail, Function.update_of_ne hne] at hi
      exact List.mem_append_left _ (h.of_failed i hi)
  · intro i job' state hi hf
    simp only [Ledger.fail] at hf ⊢
    rcases eq_or_ne i taskId with rfl | hne
    · obtain ⟨-, rfl⟩ := Prod.mk.inj (Option.some.inj (htask.symm.trans hi))
      rw [Function.update_self, hmake, SharedState.shutDown]
    · rw [Function.update_of_ne hne] at hf
      rw [states_of_ne hn htask hi hne]
      exact h.failed_state i job' state hi hf
  · simp only [Ledger.fail]
    refine List.nodup_append.2 ⟨h.failed_nodup, List.nodup_singleton _, ?_⟩
    intro a ha b hb heq
    rw [List.mem_singleton.1 hb] at heq
    exact hunique (heq ▸ ha)

/-- **Every step keeps the shared states settled.** -/
theorem step (h : R.Settled) (hn : R.Named) (hp : R.Placed) (hs : R.Step R') : R'.Settled := by
  cases hs with
  | makeState t job _ => exact h.makeState hn t job
  | fetchTaskId t job state ht _ => exact h.fetchTaskId hn hp ht
  | insertPending t job state taskId ht =>
      have habsent := hp.of_insert t job state taskId ht
      have hiff : ∀ a : Place n, a ≠ .absent → a ≠ .pending →
          ∀ i, Function.update R.place taskId .pending i = a ↔ R.place i = a := by
        intro a hne hne' i
        refine ⟨fun hi => (of_update_apply_ne hi hne').1, fun hi => ?_⟩
        exact update_of_apply_ne hi habsent hne
      have hmove := h.move (hiff .completed (by simp) (by simp)) (hiff .failed (by simp) (by simp))
      exact ⟨hmove.unnamed, hmove.waiting, hmove.completed, hmove.of_completed,
        hmove.completed_nodup, hmove.failed, hmove.of_failed, hmove.failed_state, hmove.failed_nodup⟩
  | lookup w r rest _ _ =>
      have hiff : ∀ a : Place n, a ≠ .pending → (∀ v, a ≠ .reader v) →
          ∀ i, (R.lookup w r.taskId).place i = a ↔ R.place i = a := by
        intro a hne hne' i
        simp only [Ledger.lookup]
        split_ifs with hfound
        · obtain ⟨p, hlookup⟩ := Option.isSome_iff_exists.1 hfound
          refine ⟨fun hi => (of_update_apply_ne hi (hne' w)).1, fun hi => ?_⟩
          exact update_of_apply_ne hi (hp.pending _ p hlookup).1 hne
        · exact Iff.rfl
      have hmove := h.move (hiff .completed (by simp) (by simp)) (hiff .failed (by simp) (by simp))
      exact ⟨hmove.unnamed, hmove.waiting, hmove.completed, hmove.of_completed,
        hmove.completed_nodup, hmove.failed, hmove.of_failed, hmove.failed_state, hmove.failed_nodup⟩
  | complete w handler hw => exact h.complete hn hp hw
  | drain _ =>
      have hiff : ∀ a : Place n, a ≠ .pending → a ≠ .draining →
          ∀ i, R.drain.place i = a ↔ R.place i = a := by
        intro a hne hne' i
        simp only [Ledger.drain]
        split_ifs with hi
        · rw [hi]
          exact ⟨fun ha => absurd ha.symm hne', fun ha => absurd ha.symm hne⟩
        · exact Iff.rfl
      have hmove := h.move (hiff .completed (by simp) (by simp)) (hiff .failed (by simp) (by simp))
      exact ⟨hmove.unnamed, hmove.waiting, hmove.completed, hmove.of_completed,
        hmove.completed_nodup, hmove.failed, hmove.of_failed, hmove.failed_state, hmove.failed_nodup⟩
  | fail taskId p hlookup _ => exact h.fail hn hp hlookup
  | _ =>
      exact ⟨h.unnamed, h.waiting, h.completed, h.of_completed, h.completed_nodup, h.failed,
        h.of_failed, h.failed_state, h.failed_nodup⟩

omit [DecidableEq θ] in
/-- A shared state whose handler has not been called is not ready. -/
theorem not_ready (h : R.Settled) {i : ℕ} {job : Job P} {state : ℕ}
    (htask : R.task i = some (job, state)) (hc : R.place i ≠ .completed)
    (hf : R.place i ≠ .failed) : (R.states state).ready = false := by
  rw [h.waiting i job state htask hc hf]
  rfl

/-- **No step changes a shared state that is ready.** -/
theorem ready_stable (h : R.Settled) (hn : R.Named) (hp : R.Placed) (hs : R.Step R') {state : ℕ}
    (hready : (R.states state).ready = true) : R'.states state = R.states state := by
  cases hs with
  | makeState t job _ =>
      simp only [Ledger.makeState]
      refine Function.update_of_ne ?_ _ _
      rintro rfl
      have hfresh := h.unnamed R.nextState (fun i job' hi =>
        absurd (hn.origin_lt R.nextState (by rw [hi]; simp)) (lt_irrefl _))
      rw [hfresh] at hready
      simp [SharedState.make] at hready
  | complete w handler hw =>
      obtain ⟨hplace, job, htask, -⟩ := hp.handler w handler hw
      simp only [Ledger.complete]
      refine Function.update_of_ne ?_ _ _
      rintro rfl
      rw [h.not_ready htask (by rw [hplace]; simp) (by rw [hplace]; simp)] at hready
      simp at hready
  | fail taskId p hlookup _ =>
      obtain ⟨hplace, job, htask, -⟩ := hp.draining taskId p hlookup
      simp only [Ledger.fail]
      refine Function.update_of_ne ?_ _ _
      rintro rfl
      rw [h.not_ready htask (by rw [hplace]; simp) (by rw [hplace]; simp)] at hready
      simp at hready
  | _ => rfl

end Settled

end Routing

end ProcessPool
