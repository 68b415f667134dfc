/-
**What a failed `Submit` leaves behind.**

`Submit` puts its handler into the map first.  After that it can be refused, or a `write` of the request
can fail, after any number of bytes; the exception leaves `Submit` without anything being undone.  So the
handler stays in the map, until another step takes it out, and what has been written of the request stays
in the stream.

In the runs below a `write` of the parent may fail at any time, also where the next one succeeds.  A
state of the pool stands together with the bytes that have been written to each request stream, and with
what is known of the call of each thread: the map as it would be without it, its own handler, and the
bytes that it has written.

Main definitions:

* `ProcessPool.PendingChange`, `ProcessPool.State.change` — what a step does to the map;
* `ProcessPool.Observed`, `ProcessPool.faulty` — the pool under observation, whose writes may fail;
* `ProcessPool.Observed.Throws` — the steps in which a call of `Submit` exits by an exception.

Main results:

* `ProcessPool.pending_of_effect` — inversion of the steps, for the map;
* `ProcessPool.exists_observed` — every run of the pool can be observed;
* `ProcessPool.Observed.Accounted.step`, `ProcessPool.Observed.Sending.step` — every step keeps what is
  known of the calls;
* `ProcessPool.sent_of_closed` — nothing is written to a stream that has been closed;
* `ProcessPool.failed_submit_trace` — **what a failed `Submit` leaves behind**;
* `ProcessPool.failed_submit_leaves_trace` — a handler that stays in the map, and a partial frame that a
  later call extends.
-/

import CppMultithreaded.PoolDescriptor
import CppMultithreaded.PoolOrder
import CppMultithreaded.PoolResults

set_option relaxedAutoImplicit false
set_option autoImplicit false

namespace ProcessPool

variable {τ θ : Type*} {P : Program τ} {n : ℕ}

/-! ### The map -/

/-- What a step does to the map of the pending handlers. -/
inductive PendingChange
  | keep
  | insert (taskId : ℕ) (pending : Pending)
  | erase (taskId : ℕ)
  | clear

namespace PendingChange

/-- The map after the change. -/
def apply (m : AList fun _ : ℕ => Pending) : PendingChange → AList fun _ : ℕ => Pending
  | .keep => m
  | .insert taskId pending => m.insert taskId pending
  | .erase taskId => m.erase taskId
  | .clear => ∅

/-- The change concerns the entry of the id. -/
def concerns (taskId : ℕ) : PendingChange → Bool
  | .keep => false
  | .insert i _ | .erase i => decide (i = taskId)
  | .clear => true

variable {c : PendingChange} {m m' : AList fun _ : ℕ => Pending} {i : ℕ}

theorem lookup_apply_of_not_concerns (h : c.concerns i = false) :
    (c.apply m).lookup i = m.lookup i := by
  cases c with
  | keep => rfl
  | insert j p => exact AList.lookup_insert_ne (Ne.symm (by simpa [concerns] using h))
  | erase j => exact AList.lookup_erase_ne (Ne.symm (by simpa [concerns] using h))
  | clear => simp [concerns] at h

/-- After a change that concerns it, the entry does not depend on the map before. -/
theorem lookup_apply_of_concerns (h : c.concerns i = true) :
    (c.apply m).lookup i = (c.apply m').lookup i := by
  cases c with
  | keep => simp [concerns] at h
  | insert j p =>
      obtain rfl : j = i := by simpa [concerns] using h
      rw [apply, apply, AList.lookup_insert, AList.lookup_insert]
  | erase j =>
      obtain rfl : j = i := by simpa [concerns] using h
      rw [apply, apply, AList.lookup_erase, AList.lookup_erase]
  | clear => rfl

/-- The change of an entry depends on this entry only. -/
theorem lookup_apply_congr (h : m.lookup i = m'.lookup i) :
    (c.apply m).lookup i = (c.apply m').lookup i := by
  cases hc : c.concerns i with
  | false => rw [lookup_apply_of_not_concerns hc, lookup_apply_of_not_concerns hc, h]
  | true => exact lookup_apply_of_concerns hc

end PendingChange

/-- The handler that a thread in `Submit` has put into the map, with its id. -/
def SubmitPc.ownEntry : SubmitPc P n → Option (ℕ × Pending)
  | .chooseWorker job state taskId | .lockWriteMutex job state taskId _
  | .write job state taskId _ => some (taskId, ⟨state, P.resultSize job.type⟩)
  | _ => none

/-- What a step does to the map. -/
def State.change (s : State P n θ) : Action P n θ → PendingChange
  | .insertPending t =>
      match s.thread t with
      | .insertPending job state taskId => .insert taskId ⟨state, P.resultSize job.type⟩
      | _ => .keep
  | .lookup w =>
      match (s.link w).reader with
      | .lookup header _ => .erase (ResultHeader.ofBytes header).taskId
      | _ => .keep
  | .swapPending => .clear
  | _ => .keep

variable [DecidableEq θ]

/-- **Inversion of the steps, for the map.** -/
theorem pending_of_effect [NeZero n] {s s' : State P n θ} {a : Action P n θ} (he : Effect s a s') :
    s'.pending = (s.change a).apply s.pending := by
  cases he with
  | insertPending t job state taskId ht =>
      simp only [State.change, ht]
      rfl
  | lookup w header payload l hr _ =>
      simp only [State.change, hr]
      rfl
  | _ => rfl

/-! ### The pool under observation -/

/-- What is known of a call of `Submit`. -/
structure Call where
  /-- The map as it would be without the call: as it was before, with the changes of all other steps. -/
  base : AList fun _ : ℕ => Pending
  /-- The handler that the call has put in, until another step changes the entry of its id. -/
  own : Option (ℕ × Pending)
  /-- What had been written to the stream when the call got `write_mutex`, and what it has written. -/
  before : List UInt8
  wrote : List UInt8

/-- Another step changes the map. -/
def Call.after (c : Call) (change : PendingChange) : Call :=
  { c with
    base := change.apply c.base
    own := c.own.filter fun x => !change.concerns x.1 }

@[simp] theorem Call.after_keep (c : Call) : c.after .keep = c := by
  obtain ⟨base, own, before, wrote⟩ := c
  cases own <;> rfl

/-- The entry of an id that the map has to have: that of the call, or the one without the call. -/
def Call.entry (c : Call) (taskId : ℕ) : Option Pending :=
  match c.own with
  | some (i, p) => if i = taskId then some p else c.base.lookup taskId
  | none => c.base.lookup taskId

/-- A state of the pool, all that has been written to the request streams, and what is known of the
last call of each thread. -/
structure Observed (P : Program τ) (n : ℕ) (θ : Type*) where
  state : State P n θ
  sent : Fin n → List UInt8
  call : θ → Call

/-- The bytes that a `write` of `k` bytes writes. -/
def Link.chunk (l : Link P θ) (k : ℕ) : List UInt8 :=
  match l.writeMutex with
  | some (_, _, todo) => ((Framing.writeSome k todo).map Prod.fst).getD []
  | none => []

namespace Observed

/-- What has been written to the stream of the worker that a thread in `Submit` has chosen. -/
def chosenStream (o : Observed P n θ) (t : θ) : List UInt8 :=
  match o.state.thread t with
  | .lockWriteMutex _ _ _ w => o.sent w
  | _ => []

/-- What is known of the calls after a step. -/
def callAfter (o : Observed P n θ) (a : Action P n θ) : θ → Call :=
  match a with
  | .makeState t _ => Function.update o.call t ⟨o.state.pending, none, [], []⟩
  | .insertPending t =>
      Function.update (fun u => (o.call u).after (o.state.change a)) t
        { o.call t with
          own :=
            match o.state.change a with
            | .insert taskId pending => some (taskId, pending)
            | _ => none }
  | .lockWriteMutex t =>
      Function.update o.call t { o.call t with before := o.chosenStream t }
  | .link w (.write (.submit t) k) =>
      Function.update o.call t
        { o.call t with wrote := (o.call t).wrote ++ (o.state.link w).chunk k }
  | _ => fun u => (o.call u).after (o.state.change a)

/-- What has been written after a step. -/
def sentAfter (o : Observed P n θ) (a : Action P n θ) : Fin n → List UInt8 :=
  match a with
  | .link w (.write _ k) => Function.update o.sent w (o.sent w ++ (o.state.link w).chunk k)
  | _ => o.sent

/-- The observation of a step. -/
def observe (o : Observed P n θ) (a : Action P n θ) (s' : State P n θ) : Observed P n θ :=
  { state := s', sent := o.sentAfter a, call := o.callAfter a }

/-- A new pool. -/
def initial : Observed P n θ :=
  { state := State.initial, sent := fun _ => [], call := fun _ => ⟨∅, none, [], []⟩ }

end Observed

/-! ### Writes that fail -/

/-- The holder of `write_mutex` releases it, with the buffers `todo` left. -/
def Link.abandon (l : Link P θ) (todo : List (List UInt8)) : Link P θ :=
  { l with writeMutex := none, dropped := l.dropped ++ todo.flatten }

/-- A `write` of the holder of `write_mutex` fails, whatever has become of the stream, and the guard of
the mutex releases it. -/
def Link.writeError (l : Link P θ) (o : Owner θ) : Option (Link P θ) :=
  match l.writeMutex with
  | some (o', _, buffer :: rest) => if o' = o then some (l.abandon (buffer :: rest)) else none
  | _ => none

/-- The steps of the pool, and the `write` calls of the parent that fail. -/
inductive FaultAction (P : Program τ) (n : ℕ) (θ : Type*)
  | step (a : Action P n θ)
  /-- A `write` of `Submit` fails, and the exception leaves `Submit`. -/
  | submitWriteError (t : θ)
  /-- A `write` of `Shutdown` fails, and the exception is caught. -/
  | stopWriteError

/-- The step function of the pool under observation. -/
def Observed.step [NeZero n] (o : Observed P n θ) : FaultAction P n θ → Option (Observed P n θ)
  | .step a => (o.state.step a).map (o.observe a)
  | .submitWriteError t =>
      match o.state.thread t with
      | .write _ _ _ w =>
          ((o.state.link w).writeError (.submit t)).map fun l =>
            { o with state := { o.state.setLink w l with toLedger := o.state.goTo t .idle } }
      | _ => none
  | .stopWriteError =>
      match o.state.shutdown with
      | .writeStop w rest =>
          ((o.state.link w).writeError .shutdown).map fun l =>
            { o with state := { o.state.setLink w l with shutdown := .sendStop rest } }
      | _ => none

/-- The pool under observation, whose writes may fail. -/
def faulty (P : Program τ) (n : ℕ) (θ : Type*) [DecidableEq θ] [NeZero n] :
    Automaton (Observed P n θ) (FaultAction P n θ) where
  init o := o = Observed.initial
  step := Observed.step

/-- Every run of the pool can be observed. -/
theorem exists_observed [NeZero n] {s : State P n θ} (h : (system P n θ).Reachable s) :
    ∃ o, (faulty P n θ).Reachable o ∧ o.state = s := by
  induction h with
  | init hs => exact ⟨Observed.initial, Automaton.Reachable.init rfl, hs.symm⟩
  | @step s s' a _ hst ih =>
      obtain ⟨o, hr, rfl⟩ := ih
      have hobserved : (faulty P n θ).step o (.step a) = some (o.observe a s') := by
        show (o.state.step a).map (o.observe a) = _
        rw [show o.state.step a = some s' from hst, Option.map_some]
      exact ⟨_, hr.step _ hobserved, rfl⟩

/-- The step ends the call of `Submit` of a thread by an exception. -/
def Observed.Throws (o' : Observed P n θ) (t : θ) : FaultAction P n θ → Prop
  | .step (.chooseWorker u) => u = t ∧ o'.state.thread t = .idle
  | .step (.writeFails u) | .submitWriteError u => u = t
  | _ => False

/-! ### What a step can do -/

/-- The effects of a step, one constructor for each. -/
inductive FaultEffect [NeZero n] (o : Observed P n θ) : FaultAction P n θ → Observed P n θ → Prop
  | step (a : Action P n θ) (s' : State P n θ) : Effect o.state a s' →
      FaultEffect o (.step a) (o.observe a s')
  | submitWriteError (t : θ) (job : Job P) (state taskId : ℕ) (w : Fin n) (f : Frame P)
      (todo : List (List UInt8)) : o.state.thread t = .write job state taskId w →
      (o.state.link w).writeMutex = some (.submit t, f, todo) → todo ≠ [] →
      FaultEffect o (.submitWriteError t) { o with
        state := { o.state.setLink w ((o.state.link w).abandon todo) with
          toLedger := o.state.goTo t .idle } }
  | stopWriteError (w : Fin n) (rest : List (Fin n)) (f : Frame P) (todo : List (List UInt8)) :
      o.state.shutdown = .writeStop w rest →
      (o.state.link w).writeMutex = some (.shutdown, f, todo) → todo ≠ [] →
      FaultEffect o .stopWriteError { o with
        state := { o.state.setLink w ((o.state.link w).abandon todo) with
          shutdown := .sendStop rest } }

theorem writeError_eq_some {l l' : Link P θ} {o : Owner θ} (h : l.writeError o = some l') :
    ∃ f todo, l.writeMutex = some (o, f, todo) ∧ todo ≠ [] ∧ l' = l.abandon todo := by
  cases hm : l.writeMutex with
  | none => simp [Link.writeError, hm] at h
  | some m =>
      obtain ⟨o', f, todo⟩ := m
      cases todo with
      | nil => simp [Link.writeError, hm] at h
      | cons buffer rest =>
          simp only [Link.writeError, hm, Option.ite_none_right_eq_some, Option.some.injEq] at h
          obtain ⟨rfl, rfl⟩ := h
          exact ⟨f, buffer :: rest, rfl, List.cons_ne_nil _ _, rfl⟩

theorem faultEffect_of_step [NeZero n] {o o' : Observed P n θ} {a : FaultAction P n θ}
    (h : o.step a = some o') : FaultEffect o a o' := by
  cases a with
  | step a =>
      obtain ⟨s', hs, rfl⟩ := Option.map_eq_some_iff.1 h
      exact FaultEffect.step a s' (effect_of_step hs)
  | submitWriteError t =>
      cases ht : o.state.thread t with
      | write job state taskId w =>
          simp only [Observed.step, ht] at h
          obtain ⟨l, hl, rfl⟩ := Option.map_eq_some_iff.1 h
          obtain ⟨f, todo, hm, htodo, rfl⟩ := writeError_eq_some hl
          exact FaultEffect.submitWriteError t job state taskId w f todo ht hm htodo
      | _ => simp [Observed.step, ht] at h
  | stopWriteError =>
      cases hpc : o.state.shutdown with
      | writeStop w rest =>
          simp only [Observed.step, hpc] at h
          obtain ⟨l, hl, rfl⟩ := Option.map_eq_some_iff.1 h
          obtain ⟨f, todo, hm, htodo, rfl⟩ := writeError_eq_some hl
          exact FaultEffect.stopWriteError w rest f todo hpc hm htodo
      | _ => simp [Observed.step, hpc] at h

/-- What a step does to the program point of a thread. -/
inductive Submits (t : θ) : Action P n θ → SubmitPc P n → SubmitPc P n → Prop
  | stay (a : Action P n θ) (pc : SubmitPc P n) : a ≠ .insertPending t → Submits t a pc pc
  | makeState (job : Job P) (state : ℕ) :
      Submits t (.makeState t job) .idle (.fetchTaskId job state)
  | fetchTaskId (job : Job P) (state taskId : ℕ) :
      Submits t (.fetchTaskId t) (.fetchTaskId job state) (.insertPending job state taskId)
  | insertPending (job : Job P) (state taskId : ℕ) :
      Submits t (.insertPending t) (.insertPending job state taskId)
        (.chooseWorker job state taskId)
  | refuse (job : Job P) (state taskId : ℕ) :
      Submits t (.chooseWorker t) (.chooseWorker job state taskId) .idle
  | chooseWorker (job : Job P) (state taskId : ℕ) (w : Fin n) :
      Submits t (.chooseWorker t) (.chooseWorker job state taskId)
        (.lockWriteMutex job state taskId w)
  | lockWriteMutex (job : Job P) (state taskId : ℕ) (w : Fin n) :
      Submits t (.lockWriteMutex t) (.lockWriteMutex job state taskId w)
        (.write job state taskId w)
  | writeFails (job : Job P) (state taskId : ℕ) (w : Fin n) :
      Submits t (.writeFails t) (.write job state taskId w) .idle
  | returnFuture (job : Job P) (state taskId : ℕ) (w : Fin n) :
      Submits t (.returnFuture t) (.write job state taskId w) .idle

/-- **Inversion of the steps, for a thread.** -/
theorem submits_of_effect [NeZero n] {s s' : State P n θ} {a : Action P n θ} (he : Effect s a s')
    (t : θ) : Submits t a (s.thread t) (s'.thread t) := by
  have hupdate : ∀ {u : θ} {pc : SubmitPc P n} {b : Action P n θ}, (t ≠ u → b ≠ .insertPending t) →
      Submits u b (s.thread u) pc → Submits t b (s.thread t) (Function.update s.thread u pc t) := by
    intro u pc b hb hu
    rcases eq_or_ne t u with rfl | hne
    · rw [Function.update_self]
      exact hu
    · rw [Function.update_of_ne hne]
      exact Submits.stay b _ (hb hne)
  cases he with
  | makeState u job hu =>
      exact hupdate (by simp) (by rw [hu]; exact Submits.makeState job _)
  | fetchTaskId u job state hu =>
      exact hupdate (by simp) (by rw [hu]; exact Submits.fetchTaskId job state _)
  | insertPending u job state taskId hu =>
      refine hupdate (fun hne h => hne ?_) (by rw [hu]; exact Submits.insertPending job state taskId)
      exact (Action.insertPending.inj h).symm
  | refuse u job state taskId hu _ =>
      exact hupdate (by simp) (by rw [hu]; exact Submits.refuse job state taskId)
  | chooseWorker u job state taskId hu _ =>
      exact hupdate (by simp) (by rw [hu]; exact Submits.chooseWorker job state taskId _)
  | lockWriteMutex u job state taskId w l hu _ =>
      exact hupdate (by simp) (by rw [hu]; exact Submits.lockWriteMutex job state taskId w)
  | writeFails u job state taskId w l hu _ =>
      exact hupdate (by simp) (by rw [hu]; exact Submits.writeFails job state taskId w)
  | returnFuture u job state taskId w l hu _ =>
      exact hupdate (by simp) (by rw [hu]; exact Submits.returnFuture job state taskId w)
  | _ => exact Submits.stay _ _ (by simp)

/-! ### What a call has done to the map -/

/-- A step of the others keeps the account of an entry. -/
theorem Call.entry_after {c : Call} {m : AList fun _ : ℕ => Pending}
    (h : ∀ i, m.lookup i = c.entry i) (change : PendingChange) (i : ℕ) :
    (change.apply m).lookup i = (c.after change).entry i := by
  have hi := h i
  cases hown : c.own with
  | none =>
      simp only [Call.entry, hown] at hi
      simp only [Call.entry, Call.after, hown, Option.filter_none]
      exact PendingChange.lookup_apply_congr hi
  | some x =>
      obtain ⟨j, p⟩ := x
      simp only [Call.entry, hown] at hi
      cases hc : change.concerns j with
      | true =>
          simp only [Call.entry, Call.after, hown, Option.filter_some, hc, Bool.not_true,
            Bool.false_eq_true, if_false]
          split_ifs at hi with hji
          · subst hji
            exact PendingChange.lookup_apply_of_concerns hc
          · exact PendingChange.lookup_apply_congr hi
      | false =>
          simp only [Call.entry, Call.after, hown, Option.filter_some, hc, Bool.not_false, if_true]
          split_ifs at hi ⊢ with hji
          · subst hji
            rw [PendingChange.lookup_apply_of_not_concerns hc, hi]
          · exact PendingChange.lookup_apply_congr hi

/-- The account of the call of a thread. -/
structure Observed.Accounted (o : Observed P n θ) (t : θ) : Prop where
  /-- The map is as it would be without the call, apart from the handler of the call. -/
  pending : ∀ i, o.state.pending.lookup i = (o.call t).entry i
  own : o.state.thread t ≠ .idle → ∀ x ∈ (o.call t).own, (o.state.thread t).ownEntry = some x

namespace Observed

variable {o : Observed P n θ} {a : Action P n θ} {t : θ}

/-- For all steps but the first ones of the call itself, the account is that of a step of the others. -/
theorem callAfter_cases (o : Observed P n θ) (a : Action P n θ) (t : θ) :
    (∃ job, a = .makeState t job) ∨ a = .insertPending t ∨
      ((o.callAfter a t).base = ((o.call t).after (o.state.change a)).base ∧
        (o.callAfter a t).own = ((o.call t).after (o.state.change a)).own) := by
  cases a with
  | makeState u job =>
      rcases eq_or_ne t u with rfl | hne
      · exact Or.inl ⟨job, rfl⟩
      · simp [callAfter, State.change, Function.update_of_ne hne]
  | insertPending u =>
      rcases eq_or_ne t u with rfl | hne
      · exact Or.inr (Or.inl rfl)
      · simp [callAfter, Function.update_of_ne hne]
  | lockWriteMutex u =>
      rcases eq_or_ne t u with rfl | hne
      · simp [callAfter, State.change]
      · simp [callAfter, State.change, Function.update_of_ne hne]
  | link w b =>
      refine Or.inr (Or.inr ?_)
      cases b with
      | write owner k =>
          cases owner with
          | submit u =>
              rcases eq_or_ne t u with rfl | hne
              · simp [callAfter, State.change]
              · simp [callAfter, State.change, Function.update_of_ne hne]
          | shutdown => exact ⟨rfl, rfl⟩
      | _ => exact ⟨rfl, rfl⟩
  | _ => exact Or.inr (Or.inr ⟨rfl, rfl⟩)

theorem own_of_callAfter {x : ℕ × Pending} (hx : x ∈ (o.callAfter a t).own)
    (ha : a ≠ .insertPending t) : (∀ job, a ≠ .makeState t job) ∧ x ∈ (o.call t).own := by
  have hmake : ∀ job, a ≠ .makeState t job := by
    rintro job rfl
    simp [callAfter] at hx
  refine ⟨hmake, ?_⟩
  rcases o.callAfter_cases a t with ⟨job, rfl⟩ | rfl | ⟨-, hown⟩
  · exact absurd rfl (hmake job)
  · exact absurd rfl ha
  · rw [hown] at hx
    exact (Option.mem_filter_iff.1 hx).1

variable [NeZero n]

/-- **Every step keeps the account.** -/
theorem Accounted.step (h : o.Accounted t) {s' : State P n θ} (he : Effect o.state a s') :
    (o.observe a s').Accounted t := by
  refine ⟨?_, ?_⟩
  · show ∀ i, s'.pending.lookup i = (o.callAfter a t).entry i
    rw [pending_of_effect he]
    intro i
    rcases o.callAfter_cases a t with ⟨job, rfl⟩ | rfl | ⟨hbase, hown⟩
    · simp [callAfter, Call.entry, State.change, PendingChange.apply]
    · -- before the call inserts its handler, the map is as it would be without the call
      cases he with
      | insertPending _ job state taskId ht =>
          have hnone : (o.call t).own = none := by
            refine Option.eq_none_iff_forall_not_mem.2 fun x hx => ?_
            have hx' := h.own (by rw [ht]; simp) x hx
            simp [ht, SubmitPc.ownEntry] at hx'
          have hi := h.pending i
          simp only [Call.entry, hnone] at hi
          simp only [callAfter, State.change, ht, Function.update_self, Call.entry,
            PendingChange.apply]
          split_ifs with hid
          · rw [← hid, AList.lookup_insert]
          · rw [AList.lookup_insert_ne (Ne.symm hid), hi]
    · have hentry := Call.entry_after h.pending (o.state.change a) i
      rw [hentry, Call.entry, Call.entry, hbase, hown]
  · show s'.thread t ≠ .idle → ∀ x ∈ (o.callAfter a t).own, (s'.thread t).ownEntry = some x
    intro hidle x hx
    have hsubmits := submits_of_effect he t
    have hown := h.own
    generalize hpc : o.state.thread t = pc at hsubmits hown
    generalize s'.thread t = pc' at hsubmits hidle
    cases hsubmits with
    | stay _ _ ha => exact hown hidle x (own_of_callAfter hx ha).2
    | makeState job state => exact absurd rfl ((own_of_callAfter hx (by simp)).1 job)
    | fetchTaskId job state taskId =>
        have hnone := hown (by simp) x (own_of_callAfter hx (by simp)).2
        simp [SubmitPc.ownEntry] at hnone
    | insertPending job state taskId =>
        simp only [callAfter, State.change, hpc, Function.update_self, Option.mem_some_iff] at hx
        rw [← hx]
        rfl
    | chooseWorker job state taskId w => exact hown (by simp) x (own_of_callAfter hx (by simp)).2
    | lockWriteMutex job state taskId w => exact hown (by simp) x (own_of_callAfter hx (by simp)).2
    | refuse job state taskId => exact absurd rfl hidle
    | writeFails job state taskId w => exact absurd rfl hidle
    | returnFuture job state taskId w => exact absurd rfl hidle

omit [NeZero n] [DecidableEq θ] in
/-- A call that ends without a step of the pool keeps the account. -/
theorem Accounted.exit (h : o.Accounted t) {s' : State P n θ} (hpending : s'.pending = o.state.pending)
    (hthread : s'.thread t = .idle ∨ s'.thread t = o.state.thread t) :
    Accounted { o with state := s' } t := by
  refine ⟨?_, ?_⟩
  · intro i
    show s'.pending.lookup i = (o.call t).entry i
    rw [hpending]
    exact h.pending i
  · show s'.thread t ≠ .idle → ∀ x ∈ (o.call t).own, (s'.thread t).ownEntry = some x
    rcases hthread with hidle | hsame
    · exact fun hne => absurd hidle hne
    · rw [hsame]
      exact h.own

theorem Accounted.fault {o' : Observed P n θ} {b : FaultAction P n θ} (h : o.Accounted t)
    (he : FaultEffect o b o') : o'.Accounted t := by
  cases he with
  | step a s' he => exact h.step he
  | submitWriteError u job state taskId w f todo hu _ _ =>
      refine h.exit rfl ?_
      rcases eq_or_ne t u with rfl | hne
      · exact Or.inl (Function.update_self _ _ _)
      · exact Or.inr (Function.update_of_ne hne _ _)
  | stopWriteError w rest f todo _ _ _ => exact h.exit rfl (Or.inr rfl)

end Observed

/-! ### What a call has written -/

/-- The call has not locked `write_mutex` yet. -/
def SubmitPc.beforeWrite : SubmitPc P n → Bool
  | .idle | .write _ _ _ _ => false
  | _ => true

/-- A thread in `Submit` writes the request `f` to the worker, with the buffers `todo` left. -/
structure Observed.Writes (o : Observed P n θ) (t : θ) (w : Fin n) (f : Frame P)
    (todo : List (List UInt8)) : Prop where
  thread : ∃ job state taskId, o.state.thread t = .write job state taskId w ∧ f = .run taskId job
  /-- Since it has got the mutex, nothing has been written to the stream but by this call. -/
  sent : o.sent w = (o.call t).before ++ (o.call t).wrote
  rest : (o.call t).wrote ++ todo.flatten = f.taskHeader.bytes ++ f.payload
  nonempty : [] ∉ todo

/-- What is known of the writes of a thread. -/
structure Observed.Sending (o : Observed P n θ) (t : θ) : Prop where
  unsent : (o.state.thread t).beforeWrite = true → (o.call t).wrote = []
  writes : ∀ w f todo, (o.state.link w).writeMutex = some (.submit t, f, todo) → o.Writes t w f todo

/-- How a thread comes to hold the `write_mutex` of a worker. -/
inductive Holding (s s' : State P n θ) (t : θ) (w : Fin n) (f : Frame P)
    (todo : List (List UInt8)) : Action P n θ → Prop
  | lock (job : Job P) (state taskId : ℕ) : s.thread t = .lockWriteMutex job state taskId w →
      s'.thread t = .write job state taskId w → f = .run taskId job →
      todo = buffers f.taskHeader.bytes f.payload → Holding s s' t w f todo (.lockWriteMutex t)
  | write (k : ℕ) (todo₀ : List (List UInt8)) (chunk : List UInt8) :
      (s.link w).writeMutex = some (.submit t, f, todo₀) →
      Framing.writeSome k todo₀ = some (chunk, todo) → s'.thread = s.thread →
      Holding s s' t w f todo (.link w (.write (.submit t) k))
  | keep (a : Action P n θ) : (s.link w).writeMutex = some (.submit t, f, todo) →
      (∀ o k, a ≠ .link w (.write o k)) → Holding s s' t w f todo a

omit [DecidableEq θ] in
/-- The holder of a mutex, after a step of the link. -/
theorem writeMutex_of_effect {l l' : Link P θ} {b : LinkAction P θ} {o : Owner θ} {f : Frame P}
    {todo : List (List UInt8)} (he : LinkEffect l b l') (hm : l'.writeMutex = some (o, f, todo)) :
    (b = .lock o f ∧ todo = buffers f.taskHeader.bytes f.payload) ∨
      (∃ k todo₀ chunk, b = .write o k ∧ l.writeMutex = some (o, f, todo₀) ∧
        Framing.writeSome k todo₀ = some (chunk, todo)) ∨
      (l.writeMutex = some (o, f, todo) ∧ ∀ o k, b ≠ .write o k) := by
  cases he with
  | lock o' f' _ =>
      obtain ⟨rfl, rfl, rfl⟩ : o' = o ∧ f' = f ∧ _ = todo := by simpa using hm
      exact Or.inl ⟨rfl, rfl⟩
  | write o' k f' todo₀ todo' chunk hold _ hsome =>
      obtain ⟨rfl, rfl, rfl⟩ : o' = o ∧ f' = f ∧ todo' = todo := by simpa using hm
      exact Or.inr (Or.inl ⟨k, todo₀, chunk, rfl, hold, hsome⟩)
  | writeFails o' f' todo' _ _ _ => simp at hm
  | unlock o' f' _ => simp at hm
  | execute outcome header payload _ _ hexec =>
      rw [(Link.begun_execute hexec).2.2.1] at hm
      exact Or.inr (Or.inr ⟨hm, by simp⟩)
  | _ => exact Or.inr (Or.inr ⟨hm, by simp⟩)

/-- **Inversion of the steps, for a mutex that a thread in `Submit` holds.** -/
theorem holding_of_effect [NeZero n] {s s' : State P n θ} {a : Action P n θ} (he : Effect s a s')
    {t : θ} {w : Fin n} {f : Frame P} {todo : List (List UInt8)}
    (hm : (s'.link w).writeMutex = some (.submit t, f, todo)) : Holding s s' t w f todo a := by
  -- a step on a link that does not lock its mutex for the thread, and writes nothing
  have hset : ∀ {v : Fin n} {b : LinkAction P θ} {l : Link P θ}, LinkEffect (s.link v) b l →
      (∀ u g, b ≠ .lock (.submit u) g) → (∀ o k, b ≠ .write o k) →
      (Function.update s.link v l w).writeMutex = some (.submit t, f, todo) →
      (s.link w).writeMutex = some (.submit t, f, todo) := by
    intro v b l hl hlock hwrite hnew
    rcases eq_or_ne w v with rfl | hne
    · rw [Function.update_self] at hnew
      rcases writeMutex_of_effect hl hnew with ⟨hb, -⟩ | ⟨k, _, _, hb, -⟩ | ⟨hold, -⟩
      · exact absurd hb (hlock t f)
      · exact absurd hb (hwrite (.submit t) k)
      · exact hold
    · rwa [Function.update_of_ne hne] at hnew
  cases he with
  | lockWriteMutex u job state taskId v l hu hl =>
      have hnew : (Function.update s.link v l w).writeMutex = some (.submit t, f, todo) := hm
      rcases eq_or_ne w v with rfl | hne
      · rw [Function.update_self] at hnew
        rcases writeMutex_of_effect hl hnew with ⟨hb, htodo⟩ | ⟨k, _, _, hb, -⟩ | ⟨hold, -⟩
        · obtain ⟨hut, hf⟩ := LinkAction.lock.inj hb
          obtain rfl := Owner.submit.inj hut
          exact Holding.lock job state taskId hu (Function.update_self _ _ _) hf.symm htodo
        · simp at hb
        · exact Holding.keep _ hold (by simp)
      · rw [Function.update_of_ne hne] at hnew
        exact Holding.keep _ hnew (by simp)
  | internal v b l hb hl =>
      have hnew : (Function.update s.link v l w).writeMutex = some (.submit t, f, todo) := hm
      rcases eq_or_ne w v with rfl | hne
      · rw [Function.update_self] at hnew
        rcases writeMutex_of_effect hl hnew with ⟨rfl, -⟩ | ⟨k, todo₀, chunk, rfl, hold, hsome⟩ |
          ⟨hold, hwrite⟩
        · simp [LinkAction.internal] at hb
        · exact Holding.write k todo₀ chunk hold hsome rfl
        · exact Holding.keep _ hold fun o k h => hwrite o k (Action.link.inj h).2
      · rw [Function.update_of_ne hne] at hnew
        exact Holding.keep _ hnew fun o k h => hne (Action.link.inj h).1.symm
  | writeFails u job state taskId v l _ hl =>
      exact Holding.keep _ (hset hl (by simp) (by simp) hm) (by simp)
  | returnFuture u job state taskId v l _ hl =>
      exact Holding.keep _ (hset hl (by simp) (by simp) hm) (by simp)
  | execute v outcome u header payload l _ _ hl =>
      exact Holding.keep _ (hset hl (by simp) (by simp) hm) (by simp)
  | kill v outcome header payload l _ _ hl =>
      exact Holding.keep _ (hset hl (by simp) (by simp) hm) (by simp)
  | crash v u header payload l _ _ hl =>
      exact Holding.keep _ (hset hl (by simp) (by simp) hm) (by simp)
  | lookup v header payload l _ hl =>
      exact Holding.keep _ (hset hl (by simp) (by simp) hm) (by simp)
  | complete v handler l _ hl =>
      exact Holding.keep _ (hset hl (by simp) (by simp) hm) (by simp)
  | lockStop v rest l _ hl => exact Holding.keep _ (hset hl (by simp) (by simp) hm) (by simp)
  | stopFails v rest l _ hl => exact Holding.keep _ (hset hl (by simp) (by simp) hm) (by simp)
  | unlockStop v rest l _ hl => exact Holding.keep _ (hset hl (by simp) (by simp) hm) (by simp)
  | closeRequestFd v rest l _ hl =>
      exact Holding.keep _ (hset hl (by simp) (by simp) hm) (by simp)
  | closeResponseFd v rest l _ hl =>
      exact Holding.keep _ (hset hl (by simp) (by simp) hm) (by simp)
  | _ => exact Holding.keep _ hm (by simp)

/-- The buffers of a request are not empty. -/
theorem nil_notMem_buffers (f : Frame P) : [] ∉ buffers f.taskHeader.bytes f.payload := by
  have hheader : f.taskHeader.bytes ≠ [] := by
    intro hnil
    have hlen := congrArg List.length hnil
    simp [taskHeaderSize] at hlen
  unfold buffers
  split_ifs with hpayload
  · simpa using hheader
  · simpa using ⟨hheader, hpayload⟩

theorem nil_notMem_writeSome {k : ℕ} {todo todo' : List (List UInt8)} {chunk : List UInt8}
    (h : [] ∉ todo) (hsome : Framing.writeSome k todo = some (chunk, todo')) : [] ∉ todo' := by
  cases todo with
  | nil => simp [Framing.writeSome] at hsome
  | cons buffer rest =>
      rw [List.mem_cons, not_or] at h
      simp only [Framing.writeSome] at hsome
      split_ifs at hsome with hk
      · obtain ⟨-, rfl⟩ := Prod.mk.inj (Option.some.inj hsome)
        rw [List.mem_cons, not_or]
        refine ⟨?_, h.2⟩
        intro hnil
        have hle := List.drop_eq_nil_iff.1 hnil.symm
        omega
      · obtain ⟨-, rfl⟩ := Prod.mk.inj (Option.some.inj hsome)
        exact h.2

namespace Observed

variable {o : Observed P n θ} {a : Action P n θ} {t : θ}

/-- Only the call itself changes what is known of its writes. -/
theorem callAfter_writes (o : Observed P n θ) (a : Action P n θ) (t : θ) :
    (∃ job, a = .makeState t job) ∨ a = .lockWriteMutex t ∨
      (∃ w k, a = .link w (.write (.submit t) k)) ∨
      ((o.callAfter a t).before = (o.call t).before ∧ (o.callAfter a t).wrote = (o.call t).wrote) := by
  cases a with
  | makeState u job =>
      rcases eq_or_ne t u with rfl | hne
      · exact Or.inl ⟨job, rfl⟩
      · simp [callAfter, Function.update_of_ne hne]
  | insertPending u =>
      rcases eq_or_ne t u with rfl | hne
      · simp [callAfter]
      · simp [callAfter, Function.update_of_ne hne, Call.after]
  | lockWriteMutex u =>
      rcases eq_or_ne t u with rfl | hne
      · exact Or.inr (Or.inl rfl)
      · simp [callAfter, Function.update_of_ne hne]
  | link w b =>
      cases b with
      | write owner k =>
          cases owner with
          | submit u =>
              rcases eq_or_ne t u with rfl | hne
              · exact Or.inr (Or.inr (Or.inl ⟨w, k, rfl⟩))
              · simp [callAfter, Function.update_of_ne hne]
          | shutdown => exact Or.inr (Or.inr (Or.inr ⟨rfl, rfl⟩))
      | _ => exact Or.inr (Or.inr (Or.inr ⟨rfl, rfl⟩))
  | _ => exact Or.inr (Or.inr (Or.inr ⟨rfl, rfl⟩))

omit [DecidableEq θ] in
theorem sentAfter_of_ne (o : Observed P n θ) {w : Fin n}
    (ha : ∀ owner k, a ≠ .link w (.write owner k)) : o.sentAfter a w = o.sent w := by
  cases a with
  | link v b =>
      cases b with
      | write owner k =>
          have hne : w ≠ v := by
            rintro rfl
            exact ha owner k rfl
          exact Function.update_of_ne hne _ _
      | _ => rfl
  | _ => rfl

variable [NeZero n]

/-- A thread that writes holds the mutex of the worker that it has chosen. -/
theorem Sending.chosen_of_write (h : o.Sending t) {s' : State P n θ} {w : Fin n} {k : ℕ}
    (he : Effect o.state (.link w (.write (.submit t) k)) s') :
    ∃ job state taskId, o.state.thread t = .write job state taskId w := by
  cases he with
  | internal _ _ l _ hl =>
      cases hl with
      | write _ _ f todo todo' chunk hm _ _ =>
          obtain ⟨job, state, taskId, ht, -⟩ := (h.writes w f todo hm).thread
          exact ⟨job, state, taskId, ht⟩

/-- A thread that holds a mutex stays where it is, as long as it holds the mutex. -/
theorem thread_of_held {s' : State P n θ} {job : Job P} {state taskId : ℕ} {w : Fin n}
    (he : Effect o.state a s') (ht : o.state.thread t = .write job state taskId w)
    (hm : (s'.link w).writeMutex ≠ none) : s'.thread t = .write job state taskId w := by
  have hsubmits := submits_of_effect he t
  rw [ht] at hsubmits
  generalize hpc : s'.thread t = pc at hsubmits
  cases hsubmits with
  | stay _ _ _ => rfl
  | writeFails _ _ _ _ =>
      cases he with
      | writeFails _ job' state' taskId' v l hu hl =>
          obtain ⟨-, -, -, rfl⟩ := SubmitPc.write.inj (hu.symm.trans ht)
          refine absurd ?_ hm
          show (Function.update o.state.link v l v).writeMutex = none
          rw [Function.update_self]
          cases hl with
          | writeFails _ _ _ _ _ _ => rfl
  | returnFuture _ _ _ _ =>
      cases he with
      | returnFuture _ job' state' taskId' v l hu hl =>
          obtain ⟨-, -, -, rfl⟩ := SubmitPc.write.inj (hu.symm.trans ht)
          refine absurd ?_ hm
          show (Function.update o.state.link v l v).writeMutex = none
          rw [Function.update_self]
          cases hl with
          | unlock _ _ _ => rfl

/-- A step that writes nothing to the stream keeps what is known of the holder of its mutex. -/
theorem Sending.keep (h : o.Sending t) {s' : State P n θ} (he : Effect o.state a s') {w : Fin n}
    {f : Frame P} {todo : List (List UInt8)} (hm : (s'.link w).writeMutex ≠ none)
    (hold : (o.state.link w).writeMutex = some (.submit t, f, todo))
    (ha : ∀ owner k, a ≠ .link w (.write owner k)) : (o.observe a s').Writes t w f todo := by
  obtain ⟨⟨job, state, taskId, ht, hf⟩, hsent, hrest, hnonempty⟩ := h.writes w f todo hold
  have hkept : (o.callAfter a t).before = (o.call t).before ∧
      (o.callAfter a t).wrote = (o.call t).wrote := by
    rcases o.callAfter_writes a t with ⟨job', rfl⟩ | rfl | ⟨v, k, rfl⟩ | hkept
    · cases he with
      | makeState _ _ hidle =>
          rw [ht] at hidle
          simp at hidle
    · cases he with
      | lockWriteMutex _ _ _ _ _ _ hlock _ =>
          rw [ht] at hlock
          simp at hlock
    · -- the thread writes to the worker that it has chosen only
      obtain ⟨job', state', taskId', hv⟩ := h.chosen_of_write he
      obtain ⟨-, -, -, rfl⟩ := SubmitPc.write.inj (hv.symm.trans ht)
      exact absurd rfl (ha (.submit t) k)
    · exact hkept
  refine ⟨⟨job, state, taskId, thread_of_held he ht hm, hf⟩, ?_, ?_, hnonempty⟩
  · show o.sentAfter a w = (o.callAfter a t).before ++ (o.callAfter a t).wrote
    rw [o.sentAfter_of_ne ha, hkept.1, hkept.2, hsent]
  · show (o.callAfter a t).wrote ++ todo.flatten = f.taskHeader.bytes ++ f.payload
    rw [hkept.2, hrest]

/-- **Every step keeps what is known of the writes.** -/
theorem Sending.step (h : o.Sending t) {s' : State P n θ} (he : Effect o.state a s') :
    (o.observe a s').Sending t := by
  have hsubmits := submits_of_effect he t
  refine ⟨?_, ?_⟩
  · show (s'.thread t).beforeWrite = true → (o.callAfter a t).wrote = []
    intro hbefore
    have hold : (∃ job, a = .makeState t job) ∨ (o.state.thread t).beforeWrite = true := by
      generalize o.state.thread t = pc at hsubmits
      generalize s'.thread t = pc' at hsubmits hbefore
      cases hsubmits with
      | stay _ _ _ => exact Or.inr hbefore
      | makeState job state => exact Or.inl ⟨job, rfl⟩
      | lockWriteMutex job state taskId w => simp [SubmitPc.beforeWrite] at hbefore
      | refuse job state taskId => simp [SubmitPc.beforeWrite] at hbefore
      | writeFails job state taskId w => simp [SubmitPc.beforeWrite] at hbefore
      | returnFuture job state taskId w => simp [SubmitPc.beforeWrite] at hbefore
      | _ => exact Or.inr rfl
    rcases hold with ⟨job, rfl⟩ | hold
    · simp [callAfter]
    · rcases o.callAfter_writes a t with ⟨job, rfl⟩ | rfl | ⟨w, k, rfl⟩ | ⟨-, hwrote⟩
      · simp [callAfter]
      · simpa [callAfter] using h.unsent hold
      · obtain ⟨job, state, taskId, ht⟩ := h.chosen_of_write he
        rw [ht] at hold
        simp [SubmitPc.beforeWrite] at hold
      · rw [hwrote]
        exact h.unsent hold
  · intro w f todo hm
    have hholding := holding_of_effect he hm
    cases hholding with
    | lock job state taskId ht ht' hf htodo =>
        -- the call has written nothing yet
        have hwrote := h.unsent (by rw [ht]; rfl)
        refine ⟨⟨job, state, taskId, ht', hf⟩, ?_, ?_, ?_⟩
        · simp [observe, sentAfter, callAfter, chosenStream, ht, hwrote]
        · simp [observe, callAfter, hwrote, htodo, flatten_buffers]
        · rw [htodo]
          exact nil_notMem_buffers f
    | write k todo₀ chunk hold hsome hthread =>
        obtain ⟨⟨job, state, taskId, ht, hf⟩, hsent, hrest, hnonempty⟩ := h.writes w f todo₀ hold
        have hchunk : (o.state.link w).chunk k = chunk := by
          simp [Link.chunk, hold, hsome]
        refine ⟨⟨job, state, taskId, (congrFun hthread t).trans ht, hf⟩, ?_, ?_,
          nil_notMem_writeSome hnonempty hsome⟩
        · simp [observe, sentAfter, callAfter, hchunk, hsent]
        · simp only [observe, callAfter, Function.update_self, hchunk, List.append_assoc,
            Framing.flatten_writeSome hsome]
          exact hrest
    | keep _ hold ha => exact h.keep he (ne_of_eq_of_ne hm (by simp)) hold ha

omit [NeZero n] [DecidableEq θ] in
/-- A write that fails releases the mutex, and writes nothing. -/
theorem Sending.release (h : o.Sending t) {s' : State P n θ} {v : Fin n} {l : Link P θ}
    {owner : Owner θ} {f : Frame P} {todo : List (List UInt8)}
    (hm : (o.state.link v).writeMutex = some (owner, f, todo)) (hl : l.writeMutex = none)
    (hlink : s'.link = Function.update o.state.link v l)
    (hthread : s'.thread t = o.state.thread t ∨ (s'.thread t = .idle ∧ owner = .submit t)) :
    Sending { o with state := s' } t := by
  refine ⟨?_, ?_⟩
  · show (s'.thread t).beforeWrite = true → (o.call t).wrote = []
    rcases hthread with hsame | ⟨hidle, -⟩
    · rw [hsame]
      exact h.unsent
    · simp [hidle, SubmitPc.beforeWrite]
  · show ∀ w g rest, (s'.link w).writeMutex = some (.submit t, g, rest) → _
    intro w g rest hnew
    have hne : w ≠ v := by
      rintro rfl
      rw [hlink, Function.update_self, hl] at hnew
      simp at hnew
    rw [hlink, Function.update_of_ne hne] at hnew
    obtain ⟨⟨job, state, taskId, ht, hg⟩, hsent, hrest, hnonempty⟩ := h.writes w g rest hnew
    rcases hthread with hsame | ⟨-, rfl⟩
    · exact ⟨⟨job, state, taskId, hsame.trans ht, hg⟩, hsent, hrest, hnonempty⟩
    · -- the thread holds one mutex only
      obtain ⟨⟨job', state', taskId', hv, -⟩, -⟩ := h.writes v f todo hm
      exact absurd (SubmitPc.write.inj (ht.symm.trans hv)).2.2.2 hne

theorem Sending.fault {o' : Observed P n θ} {b : FaultAction P n θ} (h : o.Sending t)
    (he : FaultEffect o b o') : o'.Sending t := by
  cases he with
  | step a s' he => exact h.step he
  | submitWriteError u job state taskId w f todo hu hm _ =>
      refine h.release hm rfl rfl ?_
      rcases eq_or_ne t u with rfl | hne
      · exact Or.inr ⟨Function.update_self _ _ _, rfl⟩
      · exact Or.inl (Function.update_of_ne hne _ _)
  | stopWriteError w rest f todo _ hm _ => exact h.release hm rfl rfl (Or.inl rfl)

end Observed

/-! ### Streams that are closed -/

omit [DecidableEq θ] in
/-- A stream that has been closed stays closed. -/
theorem writable_of_effect {l l' : Link P θ} {b : LinkAction P θ} (he : LinkEffect l b l')
    (h : l.writable = false) : l'.writable = false := by
  rw [Link.writable, Bool.and_eq_false_iff] at h ⊢
  rcases h with hfd | hopen
  · left
    by_cases hb : b = .closeRequestFd
    · subst hb
      cases he with
      | closeRequestFd => rfl
    · rw [requestFd_of_effect he hb, hfd]
  · -- the worker has left its loop
    have hleft : ∀ p : WorkerPc, p.wants ≠ 0 → l.worker = p → False := by
      rintro p hp rfl
      obtain ⟨_, _, _, hgot⟩ := Link.Framed.got_of_wants (Nat.pos_of_ne_zero hp)
      rw [hopen] at hgot
      simp at hgot
    cases he with
    | readStop k hpos hwants _ => exact (hleft _ (by omega) rfl).elim
    | readRequest k hpos hwants _ => exact (hleft _ (by omega) rfl).elim
    | requestEof hwants _ _ => exact (hleft _ (by omega) rfl).elim
    | execute outcome header payload _ hw _ => simp [hw, WorkerPc.requestOpen] at hopen
    | writeResponse k todo todo' chunk hw _ => simp [hw, WorkerPc.requestOpen] at hopen
    | responseFails todo hw _ => simp [hw, WorkerPc.requestOpen] at hopen
    | crash header payload _ => exact Or.inr rfl
    | die => exact Or.inr rfl
    | leave p hp =>
        right
        cases hw : l.worker <;>
          simp only [hw, WorkerPc.next, reduceCtorEq, Option.some.injEq] at hp <;> rw [← hp] <;> rfl
    | _ => exact Or.inr hopen

section Closed

variable [NeZero n] {o o' : Observed P n θ}

/-- **No step writes to a stream that has been closed.** -/
theorem closed_of_faultEffect {a : FaultAction P n θ} (he : FaultEffect o a o') {w : Fin n}
    (h : (o.state.link w).writable = false) :
    (o'.state.link w).writable = false ∧ o'.sent w = o.sent w := by
  have habandon : ∀ v todo, (Function.update o.state.link v ((o.state.link v).abandon todo) w).writable =
      (o.state.link w).writable := by
    intro v todo
    have hsame : ((o.state.link v).abandon todo).writable = (o.state.link v).writable := rfl
    exact apply_update_eq Link.writable hsame w
  cases he with
  | step a s' he =>
      refine ⟨?_, o.sentAfter_of_ne ?_⟩
      · show (s'.link w).writable = false
        rcases he.link w with hsame | ⟨b, -, hb⟩
        · rw [hsame, h]
        · exact writable_of_effect hb h
      · rintro owner k rfl
        cases he with
        | internal _ _ l _ hl =>
            cases hl with
            | write _ _ f todo todo' chunk _ hw _ =>
                rw [h] at hw
                simp at hw
  | submitWriteError t job state taskId v f todo _ _ _ => exact ⟨(habandon v todo).trans h, rfl⟩
  | stopWriteError v rest f todo _ _ _ => exact ⟨(habandon v todo).trans h, rfl⟩

/-- Nothing is ever written to a stream that has been closed. -/
theorem sent_of_closed (hr : (faulty P n θ).Reachable o) (hs : (faulty P n θ).Steps o o') {w : Fin n}
    (h : (o.state.link w).writable = false) : o'.sent w = o.sent w := by
  have hstep : ∀ (p : Observed P n θ) (a : FaultAction P n θ) (p' : Observed P n θ),
      (faulty P n θ).Reachable p → (p.state.link w).writable = false ∧ p.sent w = o.sent w →
      (faulty P n θ).step p a = some p' →
      (p'.state.link w).writable = false ∧ p'.sent w = o.sent w := by
    rintro p a p' - ⟨hclosed, hsent⟩ hp
    obtain ⟨hclosed', hsent'⟩ := closed_of_faultEffect (faultEffect_of_step hp) hclosed
    exact ⟨hclosed', hsent'.trans hsent⟩
  exact (hs.stable hstep hr ⟨h, rfl⟩).2

end Closed

/-! ### A Submit that fails -/

variable [NeZero n]

/-- What a call of `Submit` that exits by an exception leaves behind: the state `o` is that before the
last step, `o'` that after it. -/
structure Trace (o o' : Observed P n θ) (t : θ) : Prop where
  exited : o'.state.thread t = .idle
  /-- The exception does nothing to the map: it is as it would be without the call, apart from the
  handler of the call, unless another step has changed its entry. -/
  pending : o'.state.pending = o.state.pending
  entry : ∀ i, o'.state.pending.lookup i = (o'.call t).entry i
  own : ∀ x ∈ (o'.call t).own, (o.state.thread t).ownEntry = some x
  /-- A call that has been refused has written nothing. -/
  refused : (o.state.thread t).beforeWrite = true → (o'.call t).wrote = []
  /-- A call whose `write` has failed has written a part of its request, and the stream ends with it. -/
  cut : ∀ job state taskId w, o.state.thread t = .write job state taskId w →
    o'.sent w = (o'.call t).before ++ (o'.call t).wrote ∧
    ∃ rest, rest ≠ [] ∧ (o'.call t).wrote ++ rest =
      (Frame.run taskId job).taskHeader.bytes ++ (Frame.run taskId job).payload
  /-- Where the stream has been closed, nothing follows. -/
  closed : ∀ w, (o.state.link w).writable = false →
    ∀ o'', (faulty P n θ).Steps o' o'' → o''.sent w = o'.sent w

theorem accounted_of_reachable {o : Observed P n θ} (h : (faulty P n θ).Reachable o) (t : θ) :
    o.Accounted t := by
  refine h.invariant (I := fun o => o.Accounted t) ?_ ?_
  · rintro o rfl
    exact ⟨fun _ => rfl, fun hne => absurd rfl hne⟩
  · intro o a o' _ ho hs
    exact ho.fault (faultEffect_of_step hs)

theorem sending_of_reachable {o : Observed P n θ} (h : (faulty P n θ).Reachable o) (t : θ) :
    o.Sending t := by
  refine h.invariant (I := fun o => o.Sending t) ?_ ?_
  · rintro o rfl
    exact ⟨fun _ => rfl, by simp [Observed.initial, State.initial, Link.initial]⟩
  · intro o a o' _ ho hs
    exact ho.fault (faultEffect_of_step hs)

/-- The step in which a call exits by an exception only ends the call. -/
theorem throws_of_effect {o o' : Observed P n θ} {a : FaultAction P n θ} {t : θ}
    (he : FaultEffect o a o') (ht : o'.Throws t a) :
    o'.state.thread t = .idle ∧ o.state.thread t ≠ .idle ∧ o'.state.pending = o.state.pending ∧
      o'.call t = o.call t ∧ o'.sent = o.sent ∧
      ∀ job state taskId w, o.state.thread t = .write job state taskId w →
        ∃ f todo, (o.state.link w).writeMutex = some (.submit t, f, todo) ∧ todo ≠ [] := by
  cases he with
  | step a s' he =>
      cases he with
      | refuse u job state taskId hu _ =>
          obtain rfl : u = t := ht.1
          exact ⟨Function.update_self _ _ _, by rw [hu]; simp, rfl, Call.after_keep _, rfl,
            fun _ _ _ _ hw => by rw [hu] at hw; simp at hw⟩
      | chooseWorker u job state taskId hu _ =>
          obtain ⟨rfl, hidle⟩ : u = t ∧ _ = SubmitPc.idle := ht
          refine absurd hidle ?_
          show Function.update o.state.thread u _ u ≠ .idle
          simp
      | writeFails u job state taskId w l hu hl =>
          obtain rfl : u = t := ht
          refine ⟨Function.update_self _ _ _, by rw [hu]; simp, rfl, Call.after_keep _, rfl, ?_⟩
          intro job' state' taskId' v hv
          obtain ⟨-, -, -, rfl⟩ := SubmitPc.write.inj (hu.symm.trans hv)
          cases hl with
          | writeFails _ f todo hm htodo _ => exact ⟨f, todo, hm, htodo⟩
      | _ => exact False.elim ht
  | submitWriteError u job state taskId w f todo hu hm htodo =>
      obtain rfl : u = t := ht
      refine ⟨Function.update_self _ _ _, by rw [hu]; simp, rfl, rfl, rfl, ?_⟩
      intro job' state' taskId' v hv
      obtain ⟨-, -, -, rfl⟩ := SubmitPc.write.inj (hu.symm.trans hv)
      exact ⟨f, todo, hm, htodo⟩
  | stopWriteError w rest f todo _ _ _ => exact False.elim ht

/-- **What a failed `Submit` leaves behind.**  Nothing is undone: the map is as it would be without the
call, apart from its handler, and what has been written of its request stays in the stream. -/
theorem failed_submit_trace {o o' : Observed P n θ} {a : FaultAction P n θ} {t : θ}
    (h : (faulty P n θ).Reachable o) (hs : (faulty P n θ).step o a = some o') (ht : o'.Throws t a) :
    Trace o o' t := by
  have haccounted := accounted_of_reachable h t
  have hsending := sending_of_reachable h t
  have he := faultEffect_of_step hs
  obtain ⟨hidle, hbusy, hpending, hcall, hsent, hmutex⟩ := throws_of_effect he ht
  refine ⟨hidle, hpending, ?_, ?_, ?_, ?_, ?_⟩
  · rw [hpending, hcall]
    exact haccounted.pending
  · rw [hcall]
    exact haccounted.own hbusy
  · rw [hcall]
    exact hsending.unsent
  · intro job state taskId w hw
    obtain ⟨f, todo, hm, htodo⟩ := hmutex job state taskId w hw
    obtain ⟨⟨job', state', taskId', hw', rfl⟩, hstream, hrest, hnonempty⟩ := hsending.writes w f todo hm
    obtain ⟨rfl, -, rfl, -⟩ := SubmitPc.write.inj (hw.symm.trans hw')
    rw [hcall, hsent]
    refine ⟨hstream, todo.flatten, ?_, hrest⟩
    -- the buffers that are left are not empty
    intro hnil
    obtain ⟨buffer, rest, rfl⟩ := List.exists_cons_of_ne_nil htodo
    have hbuffer := List.flatten_eq_nil_iff.1 hnil buffer List.mem_cons_self
    exact hnonempty (hbuffer ▸ List.mem_cons_self)
  · intro w hw o'' hs''
    exact sent_of_closed (h.step a hs) hs'' (closed_of_faultEffect he hw).1

/-- A call of `Submit` that writes the first ten bytes of its request. -/
def cutSteps (t : θ) (job : Job P) (w : Fin n) : List (FaultAction P n θ) :=
  (submitSteps t job).map .step ++
    [FaultAction.step (.lockWriteMutex t), .step (.link w (.write (.submit t) 10))]

/-- The worker dies before the rest of the request is written. -/
theorem failed_submit_trace_worker_dies : ∃ o o' : Observed byteProgram 1 Bool,
    (faulty byteProgram 1 Bool).Reachable o ∧ (o.state.link 0).writable = false ∧
      (o.call false).wrote.length = 10 ∧ Trace o o' false := by
  obtain ⟨o, ho⟩ : ∃ o, (faulty byteProgram 1 Bool).run Observed.initial
      (cutSteps false (byteJob 1 5) 0 ++ [FaultAction.step (.link 0 .die)]) = some o := ⟨_, rfl⟩
  have hr : (faulty byteProgram 1 Bool).Reachable o := Automaton.Reachable.of_run rfl ho
  obtain ⟨o', hs⟩ : ∃ o', (faulty byteProgram 1 Bool).step o (.step (.writeFails false)) = some o' := by
    obtain rfl := Option.some_inj.1 ho
    exact ⟨_, rfl⟩
  have hstate : (o.state.link 0).writable = false ∧ (o.call false).wrote.length = 10 := by
    obtain rfl := Option.some_inj.1 ho
    exact ⟨rfl, rfl⟩
  exact ⟨o, o', hr, hstate.1, hstate.2, failed_submit_trace hr hs rfl⟩

/-- **A failed `Submit` leaves a trace.**  A call that is refused in a pool whose map is empty, with no
step of another thread in between, leaves its handler in the map; and after a call whose `write` has
failed after ten bytes, a call that succeeds writes its request to the same stream behind them. -/
theorem failed_submit_leaves_trace :
    (∃ o o' : Observed byteProgram 1 Bool, (faulty byteProgram 1 Bool).Reachable o ∧
      (faulty byteProgram 1 Bool).run o ((submitSteps false (byteJob 1 5)).map .step) = some o' ∧
      o'.Throws false (.step (.chooseWorker false)) ∧
      o.state.pending = ∅ ∧ o'.state.pending.lookup 1 = some ⟨0, some 1⟩) ∧
    ∃ o o' : Observed byteProgram 1 Bool, (faulty byteProgram 1 Bool).run Observed.initial
        (cutSteps false (byteJob 1 5) 0 ++ [FaultAction.submitWriteError false]) = some o ∧
      (faulty byteProgram 1 Bool).run o
        ((submitSteps true (byteJob 2 6) ++ writeSteps true 0).map .step) = some o' ∧
      o.state.thread false = .idle ∧ o'.state.returned = [(byteJob 2 6, 1)] ∧
      o.sent 0 = (Frame.run 1 (byteJob 1 5)).taskHeader.bytes.take 10 ∧
      o'.sent 0 = o.sent 0 ++ ((Frame.run 2 (byteJob 2 6)).taskHeader.bytes ++
        (Frame.run 2 (byteJob 2 6)).payload) := by
  refine ⟨?_, ?_⟩
  · obtain ⟨o, ho⟩ : ∃ o, (faulty byteProgram 1 Bool).run Observed.initial
        [.step .shutdown] = some o := ⟨_, rfl⟩
    obtain ⟨o', ho'⟩ : ∃ o', (faulty byteProgram 1 Bool).run o
        ((submitSteps false (byteJob 1 5)).map .step) = some o' := by
      obtain rfl := Option.some_inj.1 ho
      exact ⟨_, rfl⟩
    refine ⟨o, o', Automaton.Reachable.of_run rfl ho, ho', ?_⟩
    obtain rfl := Option.some_inj.1 ho
    obtain rfl := Option.some_inj.1 ho'
    exact ⟨⟨rfl, rfl⟩, rfl, rfl⟩
  · have hcut : ((faulty byteProgram 1 Bool).run Observed.initial
        (cutSteps false (byteJob 1 5) 0 ++ [FaultAction.submitWriteError false])).map
          (fun o => (o.state.thread false, o.sent 0)) =
        some (.idle, (Frame.run 1 (byteJob 1 5)).taskHeader.bytes.take 10) := by rfl
    have hlater : ((faulty byteProgram 1 Bool).run Observed.initial
        (cutSteps false (byteJob 1 5) 0 ++ [FaultAction.submitWriteError false] ++
          (submitSteps true (byteJob 2 6) ++ writeSteps true 0).map .step)).map
          (fun o => (o.state.returned, o.sent 0)) =
        some ([(byteJob 2 6, 1)], (Frame.run 1 (byteJob 1 5)).taskHeader.bytes.take 10 ++
          ((Frame.run 2 (byteJob 2 6)).taskHeader.bytes ++
            (Frame.run 2 (byteJob 2 6)).payload)) := by rfl
    obtain ⟨o, ho, hstate⟩ := Option.map_eq_some_iff.1 hcut
    obtain ⟨hidle, hsent⟩ := Prod.mk.inj hstate
    rw [Automaton.run_append, ho, Option.bind_some] at hlater
    obtain ⟨o', ho', hstate'⟩ := Option.map_eq_some_iff.1 hlater
    obtain ⟨hreturned, hsent'⟩ := Prod.mk.inj hstate'
    rw [← hsent] at hsent'
    exact ⟨o, o', ho, ho', hidle, hreturned, hsent, hsent'⟩

end ProcessPool
