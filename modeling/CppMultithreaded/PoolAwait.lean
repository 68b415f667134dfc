/-
**What a thread gets from a Future of the pool.**

The parent process as a whole: threads submit tasks and use the `Future`s that `Submit` has returned,
while the readers and `Shutdown` call the pending handlers.  The shared state of every `Future` is the
one of the pool, although the handlers store the results step by step; and whatever is done by whom in
which order, a call of `Get` that answers gives the outcome of its own task, or the error of `Shutdown`.

Main definitions:

* `ProcessPool.FutureForm` — what may be left of a call inside of a shared state;
* `ProcessPool.Due` — the operations that a thread may have before it;
* `ProcessPool.Parent.Linked` — what holds in every reachable state of the parent process.

Main results:

* `ProcessPool.Parent.Linked.step`, `ProcessPool.linked_of_reachable` — **the invariant of every run**;
* `ProcessPool.get_answers` — **what `Get` answers**.
-/

import CppMultithreaded.PoolFuture

set_option relaxedAutoImplicit false
set_option autoImplicit false

namespace ProcessPool

variable {τ θ : Type*} {P : Program τ} {n : ℕ}

/-! ### What is left of a call -/

/-- What may be left of a call inside of a shared state: `Get` asks for the result after it has waited
only, and a handler does nothing after it has stored the result. -/
inductive FutureForm : Monitor.Cont Delivery FutureQuery → Prop
  | done (waited : Bool) : FutureForm ⟨[], waited⟩
  | wait (waited : Bool) : FutureForm ⟨[.wait], waited⟩
  | isReady (waited : Bool) : FutureForm ⟨[.read .isReady], waited⟩
  | get (resultSize : Option ℕ) (waited : Bool) : FutureForm ⟨[.wait, .read (.get resultSize)], waited⟩
  | result (resultSize : Option ℕ) : FutureForm ⟨[.read (.get resultSize)], true⟩
  | deliver (d : Delivery) (waited : Bool) : FutureForm ⟨[.update d], waited⟩

theorem progresses_futureForm : Monitor.Progresses FutureForm := by
  intro op ops waited h
  cases h with
  | wait _ => exact FutureForm.done _
  | isReady _ => exact FutureForm.done _
  | get resultSize _ =>
      rw [show (Monitor.Op.wait : Monitor.Op Delivery FutureQuery).isWait = true from rfl, Bool.or_true]
      exact FutureForm.result resultSize
  | result resultSize => exact FutureForm.done _
  | deliver d _ => exact FutureForm.done _

theorem FutureCall.form (resultSize : Option ℕ) (c : FutureCall) :
    FutureForm ⟨c.ops resultSize, false⟩ := by
  cases c with
  | wait => exact FutureForm.wait false
  | isReady => exact FutureForm.isReady false
  | get => exact FutureForm.get resultSize false

/-- The operations that a thread may have before it: a thread of the program uses a `Future` that
`Submit` has returned, at the type of its result, and any other thread calls a pending handler. -/
def Due (s : State P n θ) (p : Party n θ) (state : ℕ) : Monitor.Op Delivery FutureQuery → Prop
  | .update d => ∃ a : Action P n θ, a.delivery s = some (p, state, d)
  | .wait => (∃ t, p = .program t) ∧ ∃ x ∈ s.returned, x.2 = state
  | .read q => (∃ t, p = .program t) ∧
      ∃ x ∈ s.returned, x.2 = state ∧
        ∀ resultSize, q = .get resultSize → resultSize = P.resultSize x.1.type

/-- An answer that has been given is right. -/
def Right (s : State P n θ) (state : ℕ) : FutureQuery → FutureAnswer → Prop
  | .isReady, b => b = .ready true → (s.states state).ready = true
  | .get resultSize, b =>
      (s.states state).ready = true ∧ b = .got ((s.states state).result resultSize) ∧
        ∃ x ∈ s.returned, x.2 = state ∧ resultSize = P.resultSize x.1.type

section Steps

variable [DecidableEq θ] [NeZero n]

/-- What a thread may have before it stays so, whatever the other threads do. -/
theorem Due.of_effect {s s' : State P n θ} {a : Action P n θ} (h : Effect s a s') {p : Party n θ}
    (ha : a.party ≠ some p) {state : ℕ} {op : Monitor.Op Delivery FutureQuery}
    (hdue : Due s p state op) :
    Due s' p state op := by
  cases op with
  | update d =>
      obtain ⟨b, hb⟩ := hdue
      exact ⟨b, delivery_stable h hb ha⟩
  | wait =>
      obtain ⟨hp, x, hx, hstate⟩ := hdue
      exact ⟨hp, x, mem_returned_of_effect h hx, hstate⟩
  | read q =>
      obtain ⟨hp, x, hx, hstate⟩ := hdue
      exact ⟨hp, x, mem_returned_of_effect h hx, hstate⟩

omit [DecidableEq θ] [NeZero n] in
/-- A handler is called with one thing. -/
theorem delivery_unique {s : State P n θ} {a b : Action P n θ} {p : Party n θ} {state state' : ℕ}
    {d d' : Delivery} (ha : a.delivery s = some (p, state, d))
    (hb : b.delivery s = some (p, state', d')) :
    d = d' := by
  cases a with
  | complete w =>
      obtain ⟨h, hh, heq⟩ := Option.map_eq_some_iff.1 ha
      obtain ⟨rfl, -, rfl⟩ : Party.reader w = p ∧ _ ∧ _ := by simpa using heq
      cases b with
      | complete v =>
          obtain ⟨h', hh', heq'⟩ := Option.map_eq_some_iff.1 hb
          obtain ⟨rfl, -, rfl⟩ : v = w ∧ _ ∧ _ := by simpa using heq'
          rw [Option.some.inj (hh.symm.trans hh')]
      | failPending taskId => simp [Action.delivery] at hb
      | _ => cases hb
  | failPending taskId =>
      obtain ⟨q, hq, heq⟩ := Option.map_eq_some_iff.1 ha
      obtain ⟨rfl, -, rfl⟩ : Party.shutdown = p ∧ _ ∧ _ := by simpa using heq
      cases b with
      | complete v => simp [Action.delivery] at hb
      | failPending taskId' =>
          obtain ⟨q', hq', heq'⟩ := Option.map_eq_some_iff.1 hb
          obtain ⟨-, rfl⟩ : _ ∧ _ := by simpa using heq'
          rfl
      | _ => cases hb
  | _ => cases ha

omit [DecidableEq θ] [NeZero n] in
/-- The call of a handler is made by the thread that the step of the pool belongs to. -/
theorem party_of_delivery {s : State P n θ} {a : Action P n θ} {p : Party n θ} {state : ℕ} {d : Delivery}
    (h : a.delivery s = some (p, state, d)) : a.party = some p := by
  cases a with
  | complete w =>
      obtain ⟨handler, -, heq⟩ := Option.map_eq_some_iff.1 h
      exact congrArg (fun x => some x.1) heq
  | failPending taskId =>
      obtain ⟨q, -, heq⟩ := Option.map_eq_some_iff.1 h
      exact congrArg (fun x => some x.1) heq
  | _ => cases h

/-- The step of the pool that calls a handler stores what the handler is called with. -/
theorem states_of_delivery {s s' : State P n θ} {a : Action P n θ} (h : Effect s a s') {p : Party n θ}
    {state : ℕ} {d : Delivery} (hd : a.delivery s = some (p, state, d)) :
    s'.states = Function.update s.states state ((s.states state).deliver d) := by
  cases h with
  | complete w handler l hh _ =>
      rw [Action.delivery, hh] at hd
      obtain ⟨rfl, rfl, rfl⟩ : _ ∧ handler.pending.state = state ∧ Delivery.ofResponse handler = d := by
        simpa using hd
      rw [SharedState.deliver_ofResponse]
      rfl
  | failPending taskId q temp hpc hq =>
      rw [Action.delivery, hpc, ShutdownPc.draining, hq] at hd
      obtain ⟨rfl, rfl, rfl⟩ : _ ∧ q.state = state ∧ Delivery.setException shutdownReason = d := by
        simpa using hd
      rfl
  | _ => cases hd

/-- An answer that is right stays right. -/
theorem Right.of_step {s s' : State P n θ} {a : Action P n θ} (h : (pool P n θ).Reachable s)
    (hs : (pool P n θ).step s a = some s') {state : ℕ} {q : FutureQuery} {b : FutureAnswer}
    (hright : Right s state q b) : Right s' state q b := by
  have hstable : (s.states state).ready = true → s'.states state = s.states state :=
    ready_stable h (Automaton.Steps.single hs)
  cases q with
  | isReady =>
      intro hb
      have hready := hright hb
      rw [hstable hready]
      exact hready
  | get resultSize =>
      obtain ⟨hready, hb, x, hx, hstate⟩ := hright
      have heffect := effect_of_step (Automaton.restrict_step_eq_some.1 hs).2
      refine ⟨?_, ?_, x, mem_returned_of_effect heffect hx, hstate⟩
      · rw [hstable hready]
        exact hready
      · rw [hstable hready]
        exact hb

end Steps

/-! ### The invariant -/

section Linked

variable [DecidableEq θ] [NeZero n]

/-- What holds in every reachable state of the parent process. -/
structure Parent.Linked (s : Parent P n θ) : Prop where
  pool : (ProcessPool.pool P n θ).Reachable s.pool
  future : ∀ state, Monitor.Invariant sharedState (s.future state)
  form : ∀ state, Monitor.Allowed FutureForm (s.future state)
  /-- A thread is inside of one shared state at a time. -/
  inside : ∀ p state, s.inside p = some state ↔ (s.future state).pc p ≠ .idle
  /-- The shared states are those of the pool. -/
  shared : ∀ state, (s.future state).shared = s.pool.states state
  due : ∀ state p op, op ∈ ((s.future state).pc p).ops → Due s.pool p state op
  right : ∀ state t q b waited, .answered t q b waited ∈ (s.future state).log → Right s.pool state q b

namespace Parent.Linked

variable {s s' : Parent P n θ} (h : s.Linked)

include h

theorem idle_of_outside {p : Party n θ} {state : ℕ} (hp : s.inside p ≠ some state) :
    (s.future state).pc p = .idle :=
  not_not.1 (mt (h.inside p state).2 hp)

/-- A thread that is not inside of a shared state has nothing before it there. -/
theorem not_mem_ops {p : Party n θ} {state : ℕ} (hp : s.inside p ≠ some state)
    {op : Monitor.Op Delivery FutureQuery} : op ∉ ((s.future state).pc p).ops := by
  rw [h.idle_of_outside hp]
  exact List.not_mem_nil

/-- A step of the pool, other than the call of a handler. -/
theorem pool_step {a : Action P n θ} {q : State P n θ} (ha : a.handles = false)
    (hinside : ∀ p ∈ a.party, s.inside p = none) (hq : (ProcessPool.pool P n θ).step s.pool a = some q) :
    Linked { s with pool := q } := by
  have heffect := ProcessPool.effect_of_step (Automaton.restrict_step_eq_some.1 hq).2
  refine ⟨Automaton.Reachable.step a h.pool hq, h.future, h.form, h.inside, ?_, ?_, ?_⟩
  · intro state
    rw [states_of_effect heffect (sound_of_reachable h.pool) ha]
    exact h.shared state
  · intro state p op hop
    refine (h.due state p op hop).of_effect heffect ?_
    intro hparty
    have hnone := hinside p hparty
    exact h.not_mem_ops (by rw [hnone]; simp) hop
  · intro state t r b waited hmem
    exact (h.right state t r b waited hmem).of_step h.pool hq

section Advance

variable {a : Monitor.Action Delivery FutureQuery (Party n θ)} {state : ℕ}
  {f : Monitor.State SharedState Delivery FutureQuery FutureAnswer (Party n θ)}
  (hf : Monitor.Effect sharedState (s.future state) a f)

include hf

/-- The answer of a step is right. -/
theorem right_of_effect {t : Party n θ} {q : FutureQuery} {b : FutureAnswer} {waited : Bool}
    (hmem : .answered t q b waited ∈ f.log) : Right s.pool state q b := by
  rcases hf.mem_log hmem with hold | ⟨k, hp, rfl, rfl⟩
  · exact h.right state t q b waited hold
  · obtain ⟨-, x, hx, hstate, hsize⟩ := h.due state t (.read q) (by rw [hp]; exact List.mem_cons_self)
    cases q with
    | isReady =>
        intro hb
        rw [← h.shared state]
        exact FutureAnswer.ready.inj hb
    | get resultSize =>
        -- the call has waited, so the shared state is ready
        have hform : FutureForm ⟨.read (.get resultSize) :: k.ops, k.waited⟩ :=
          (h.form state).of_eq hp
        have hwaited : k.waited = true := by
          generalize k.ops = ops at hform
          generalize k.waited = waited at hform
          cases hform
          rfl
        have hready := (h.future state).waited t (by rw [hp]; exact hwaited)
        rw [show sharedState.ready (s.future state).shared = (s.future state).shared.ready from rfl,
          h.shared state] at hready
        refine ⟨hready, ?_, x, hx, hstate, hsize resultSize rfl⟩
        rw [← h.shared state]
        rfl

/-- A thread makes a step inside of a shared state, and the pool may make one, too. -/
theorem advance (hinside : s.inside a.thread = none ∨ s.inside a.thread = some state)
    (hcall : ∀ t ops, a = .call t ops → FutureForm ⟨ops, false⟩) {q : State P n θ}
    (hq : (ProcessPool.pool P n θ).Reachable q)
    (hshared : ∀ st, (if st = state then f.shared else s.pool.states st) = q.states st)
    (hdue : ∀ p op, op ∈ (f.pc p).ops → Due q p state op)
    (hother : ∀ p st op, st ≠ state → op ∈ ((s.future st).pc p).ops → Due q p st op)
    (hright : ∀ st r b, Right s.pool st r b → Right q st r b) :
    Linked { s.advance state a.thread f with pool := q } := by
  refine ⟨hq, ?_, ?_, ?_, ?_, ?_, ?_⟩
  · intro st
    by_cases hst : st = state
    · subst hst
      simp only [Parent.advance, Function.update_self]
      exact (h.future st).step stable_sharedState hf
    · simp only [Parent.advance, Function.update_of_ne hst]
      exact h.future st
  · intro st
    by_cases hst : st = state
    · subst hst
      simp only [Parent.advance, Function.update_self]
      exact (h.form st).step progresses_futureForm hcall hf
    · simp only [Parent.advance, Function.update_of_ne hst]
      exact h.form st
  · intro p st
    by_cases hpa : p = a.thread
    · subst hpa
      by_cases hst : st = state
      · subst hst
        simp only [Parent.advance, Function.update_self]
        cases hpc : f.pc a.thread <;> simp
      · have hidle : (s.future st).pc a.thread = .idle := h.idle_of_outside (by
          rcases hinside with hin | hin <;> simp [hin, Ne.symm hst])
        simp only [Parent.advance, Function.update_self, Function.update_of_ne hst, hidle]
        cases f.pc a.thread <;> simp [Ne.symm hst]
    · simp only [Parent.advance, Function.update_of_ne hpa]
      rw [h.inside p st]
      by_cases hst : st = state
      · subst hst
        rw [Function.update_self, Ne, Ne, hf.idle_of_ne hpa]
      · rw [Function.update_of_ne hst]
  · intro st
    by_cases hst : st = state
    · subst hst
      simpa [Parent.advance] using hshared st
    · simp only [Parent.advance, Function.update_of_ne hst]
      rw [h.shared st]
      simpa [hst] using hshared st
  · intro st p op hop
    by_cases hst : st = state
    · subst hst
      simp only [Parent.advance, Function.update_self] at hop
      exact hdue p op hop
    · simp only [Parent.advance, Function.update_of_ne hst] at hop
      exact hother p st op hst hop
  · intro st t r b waited hmem
    by_cases hst : st = state
    · subst hst
      simp only [Parent.advance, Function.update_self] at hmem
      exact hright st r b (h.right_of_effect hf hmem)
    · simp only [Parent.advance, Function.update_of_ne hst] at hmem
      exact hright st r b (h.right st t r b waited hmem)

/-- A thread makes a step inside of a shared state, other than a store. -/
theorem advance_same (hinside : s.inside a.thread = none ∨ s.inside a.thread = some state)
    (ha : a ≠ .update a.thread) (hcall : ∀ t ops, a = .call t ops → FutureForm ⟨ops, false⟩)
    (hdue : ∀ p op, op ∈ (f.pc p).ops → Due s.pool p state op) :
    Linked (s.advance state a.thread f) := by
  refine h.advance hf hinside hcall h.pool ?_ hdue (fun p st op _ => h.due st p op) fun _ _ _ hr => hr
  intro st
  split_ifs with hst
  · rw [hf.shared_eq ha, h.shared state, hst]
  · rfl

end Advance

/-- **Every step of the parent process keeps the invariant.** -/
theorem step {a : ParentAction P n θ} (he : s.Effect a s') : s'.Linked := by
  cases he with
  | pool a q ha hinside hq => exact h.pool_step ha hinside hq
  | call t k c job state f hreturned hinside hf =>
      refine h.advance_same hf (Or.inl hinside) (by simp [Monitor.Action.thread]) ?_ ?_
      · rintro t' ops heq
        injection heq with ht hops
        rw [← hops]
        exact c.form _
      · intro p op hop
        rcases hf.mem_ops_of_call hop with ⟨rfl, hmem⟩ | hmem
        · cases c with
          | wait =>
              obtain rfl := List.mem_singleton.1 hmem
              exact ⟨⟨t, rfl⟩, _, hreturned, rfl⟩
          | isReady =>
              obtain rfl := List.mem_singleton.1 hmem
              exact ⟨⟨t, rfl⟩, _, hreturned, rfl, fun _ hq => by cases hq⟩
          | get =>
              simp only [FutureCall.ops, List.mem_cons, List.not_mem_nil, or_false] at hmem
              rcases hmem with rfl | rfl
              · exact ⟨⟨t, rfl⟩, _, hreturned, rfl⟩
              · exact ⟨⟨t, rfl⟩, _, hreturned, rfl, fun _ hq => (FutureQuery.get.inj hq).symm⟩
        · exact h.due state p op hmem
  | handle a p state d f hd hinside hf =>
      refine h.advance_same hf (Or.inl hinside) (by simp [Monitor.Action.thread]) ?_ ?_
      · rintro t' ops heq
        injection heq with ht hops
        rw [← hops]
        exact FutureForm.deliver d false
      · intro u op hop
        rcases hf.mem_ops_of_call hop with ⟨rfl, hmem⟩ | hmem
        · obtain rfl := List.mem_singleton.1 hmem
          exact ⟨a, hd⟩
        · exact h.due state u op hmem
  | deliver a p state d q f hd hinside hq hf =>
      have heffect := ProcessPool.effect_of_step (Automaton.restrict_step_eq_some.1 hq).2
      have hparty : ∀ u, u ≠ p → a.party ≠ some u := by
        intro u hu heq
        exact hu (Option.some.inj (heq.symm.trans (party_of_delivery hd)))
      obtain ⟨d', k, hp, hpf, hshared⟩ := hf.of_update
      -- what is stored is what the step of the pool stores
      obtain ⟨b, hb⟩ := h.due state p (.update d') (by rw [hp]; exact List.mem_cons_self)
      obtain rfl := delivery_unique hb hd
      have hform : FutureForm ⟨.update d' :: k.ops, k.waited⟩ := (h.form state).of_eq hp
      have hops : k.ops = [] := by
        generalize k.ops = ops at hform
        cases hform
        rfl
      refine h.advance hf (Or.inr hinside) (fun _ _ heq => by cases heq)
        (Automaton.Reachable.step a h.pool hq) ?_ ?_ ?_ ?_
      · intro st
        rw [states_of_delivery heffect hd]
        split_ifs with hst
        · rw [hst, Function.update_self, hshared, h.shared state]
          rfl
        · rw [Function.update_of_ne hst]
      · intro u op hop
        by_cases hu : u = p
        · rw [hu, hpf, show (Monitor.Pc.unlocking k).ops = k.ops from rfl, hops] at hop
          cases hop
        · exact (h.due state u op (hf.mem_ops rfl hop)).of_effect heffect (hparty u hu)
      · intro u st op hst hop
        by_cases hu : u = p
        · refine absurd hop (h.not_mem_ops ?_)
          rw [hu, hinside]
          simpa using Ne.symm hst
        · exact (h.due st u op hop).of_effect heffect (hparty u hu)
      · exact fun st r b hr => hr.of_step h.pool hq
  | monitor a state f hinner hinside hf =>
      refine h.advance_same hf (Or.inr hinside) ?_ ?_ ?_
      · intro heq
        rw [heq] at hinner
        cases hinner
      · rintro t ops rfl
        cases hinner
      · intro u op hop
        refine h.due state u op (hf.mem_ops ?_ hop)
        cases a <;> first | rfl | cases hinner

end Parent.Linked

theorem linked_initial : (Parent.initial : Parent P n θ).Linked := by
  refine ⟨Automaton.Reachable.init rfl, ?_, ?_, ?_, ?_, ?_, ?_⟩
  · exact fun _ => Monitor.invariant_of_reachable stable_sharedState (Automaton.Reachable.init rfl)
  · exact fun _ => ⟨fun _ => True.intro, fun _ _ _ _ hmem => by cases hmem⟩
  · simp [Parent.initial, Monitor.State.initial]
  · exact fun _ => rfl
  · exact fun _ _ _ hop => by cases hop
  · exact fun _ _ _ _ _ hmem => by cases hmem

/-- **The invariant holds in every reachable state.** -/
theorem linked_of_reachable {s : Parent P n θ} (h : (parent P n θ).Reachable s) : s.Linked := by
  refine h.invariant ?_ ?_
  · rintro s rfl
    exact linked_initial
  · intro s a s' _ hlinked hs
    exact hlinked.step (Parent.effect_of_step hs)

/-! ### What Get answers -/

/-- Some call of the function of the task by a worker has had an outcome that `Get` reports as `got`: a
result as it is, and an exception by its text, unless that is empty. -/
def State.Yields (s : State P n θ) (taskId : ℕ) (job : Job P)
    (got : Except (List UInt8) (List UInt8)) : Prop :=
  ∃ e ∈ s.executed, ∃ outcome : Outcome, e.taskId = taskId ∧ e.called = some (job.fn, job.args) ∧
    e.response = some (respond taskId ⟨some (job.fn, job.args), outcome.output, outcome.error⟩) ∧
    (transport job taskId outcome).get (P.resultSize job.type) = some got ∧
    (∀ result, outcome = .returned result → got = .ok result) ∧
    (outcome.error ≠ [] → got = .error outcome.error)

omit [DecidableEq θ] [NeZero n] in
/-- Every outcome is reported somehow. -/
theorem exists_get_transport {job : Job P} {taskId : ℕ} {outcome : Outcome} (hi : taskId < 2 ^ 64)
    (hfits : outcome.Fits (P.resultSize job.type)) : ∃ got,
      (transport job taskId outcome).get (P.resultSize job.type) = some got ∧
        (∀ result, outcome = .returned result → got = .ok result) ∧
        (outcome.error ≠ [] → got = .error outcome.error) := by
  cases outcome with
  | returned result => exact ⟨_, get_transport_returned hi hfits rfl, by simp, by simp [Outcome.error]⟩
  | threwUnknown => exact ⟨_, get_transport_error hi hfits (by decide), by simp, fun _ => rfl⟩
  | threw what =>
      by_cases hwhat : what = []
      · subst hwhat
        have hempty := get_transport_threw_empty hi hfits rfl
        cases hsize : P.resultSize job.type with
        | none =>
            rw [hsize] at hempty
            exact ⟨_, hempty, by simp, by simp [Outcome.error]⟩
        | some size =>
            rw [hsize] at hempty
            exact ⟨_, hempty, by simp, by simp [Outcome.error]⟩
      · exact ⟨_, get_transport_error hi hfits hwhat, by simp, fun _ => rfl⟩

/-- What `Get` does once a reader has called the handler. -/
theorem yields_of_completed {s : State P n θ} (h : (pool P n θ).Reachable s) {c : Completion}
    (hc : c ∈ s.completed) : ∃ job got, s.origin c.state = .named c.taskId job ∧
      (s.states c.state).result (P.resultSize job.type) = some got ∧ s.Yields c.taskId job got := by
  have hsound := sound_of_reachable h
  obtain ⟨job, horigin, hstate, e, he, r, hid, ⟨hcalled, hruns⟩, hresponse, hstatus, hpayload⟩ :=
    (routed_of_reachable h).completed_own c hc
  obtain ⟨outcome, hfits, hr⟩ := hruns r hresponse
  have hlt : c.taskId < 2 ^ 64 :=
    (hsound.named.task_lt _ _ (hsound.named.task_of_origin _ _ _ horigin)).trans hsound.nextTaskId_lt
  rw [hid] at hr
  have htransport : s.states c.state = transport job c.taskId outcome := by
    rw [transport_eq hlt hfits hr, hstatus, hpayload]
    exact hstate
  have hready : (s.states c.state).ready = true := by
    rw [hstate]
    exact SharedState.ready_complete _ _ _ _
  have hresult := SharedState.get_of_ready hready (P.resultSize job.type)
  obtain ⟨got, hgot, hreturned, herror⟩ := exists_get_transport hlt hfits
  refine ⟨job, got, horigin, ?_, e, he, outcome, hid, hcalled, ?_, hgot, hreturned, herror⟩
  · rw [← hresult, htransport]
    exact hgot
  · rw [hresponse, hr]

/-- The answers that the calls of `Future`s have given are right. -/
structure Parent.Answers (s : Parent P n θ) : Prop where
  /-- `Get` reports a call of the function of its own task on its own arguments, or that the pool has
  been shut down. -/
  get : ∀ state t resultSize b waited,
    .answered t (.get resultSize) b waited ∈ (s.future state).log → ∃ i job got,
      s.pool.origin state = .named i job ∧ resultSize = P.resultSize job.type ∧ b = .got (some got) ∧
        (s.pool.Yields i job got ∨ i ∈ s.pool.failed ∧ got = .error shutdownReason)
  /-- All calls of `Get` of one `Future` answer the same. -/
  agree : ∀ state t t' size size' b b' waited waited',
    .answered t (.get size) b waited ∈ (s.future state).log →
    .answered t' (.get size') b' waited' ∈ (s.future state).log → b = b'
  /-- Once `Get` has answered, or `IsReady` has answered `true`, `IsReady` answers `true`. -/
  stays : ∀ state es es', (s.future state).log = es ++ es' →
    ∀ t q b waited, .answered t q b waited ∈ es → ((∃ size, q = .get size) ∨ b = .ready true) →
      ∀ t' b' waited', .answered t' .isReady b' waited' ∈ es' → b' = .ready true

/-- **What `Get` answers**, whatever the threads of the program and the pool do, and in which order. -/
theorem get_answers {s : Parent P n θ} (h : (parent P n θ).Reachable s) : s.Answers := by
  have hlinked := linked_of_reachable h
  have hrouted := routed_of_reachable hlinked.pool
  refine ⟨?_, ?_, ?_⟩
  · intro state t resultSize b waited hmem
    obtain ⟨hready, rfl, x, hx, rfl, rfl⟩ := hlinked.right state t _ b waited hmem
    obtain ⟨i, hi⟩ := hrouted.returned_own x hx
    obtain ⟨j, job, hj, hcalled⟩ := hrouted.ready x.2 hready
    obtain ⟨rfl, rfl⟩ : i = j ∧ x.1 = job := by
      rw [hi] at hj
      exact ⟨(Origin.named.inj hj).1, (Origin.named.inj hj).2⟩
    rcases hcalled with ⟨c, hc, rfl, hstate⟩ | ⟨hfailed, hstate⟩
    · obtain ⟨job, got, horigin, hresult, hyields⟩ := yields_of_completed hlinked.pool hc
      rw [hstate] at horigin hresult
      obtain rfl : x.1 = job := by
        rw [hi] at horigin
        exact (Origin.named.inj horigin).2
      exact ⟨c.taskId, x.1, got, hi, rfl, congrArg FutureAnswer.got hresult, Or.inl hyields⟩
    · refine ⟨i, x.1, .error shutdownReason, hi, rfl, ?_, Or.inr ⟨hfailed, rfl⟩⟩
      rw [hstate]
      rfl
  · intro state t t' size size' b b' waited waited' hmem hmem'
    obtain ⟨-, rfl, x, hx, rfl, rfl⟩ := hlinked.right state t _ b waited hmem
    obtain ⟨-, rfl, x', hx', hstate, rfl⟩ := hlinked.right _ t' _ b' waited' hmem'
    obtain ⟨i, hi⟩ := hrouted.returned_own x hx
    obtain ⟨i', hi'⟩ := hrouted.returned_own x' hx'
    rw [hstate, hi] at hi'
    rw [(Origin.named.inj hi').2]
  · intro state es es' hlog t q b waited hmem hshows t' b' waited' hmem'
    have hreplays := (hlinked.future state).replays
    rw [hlog] at hreplays
    have hwaited : (∃ size, q = .get size) → waited = true := by
      rintro ⟨size, rfl⟩
      have hin : .answered t (.get size) b waited ∈ (s.future state).log := by
        rw [hlog]
        exact List.mem_append_left _ hmem
      obtain ⟨ops, hform⟩ := (hlinked.form state).log _ _ _ _ hin
      cases hform
      rfl
    obtain ⟨z, hz, rfl⟩ := hreplays.ready_of_mem stable_sharedState hmem (by
      rintro z rfl
      refine hshows.imp hwaited ?_
      intro hb
      cases q with
      | isReady => exact FutureAnswer.ready.inj hb
      | get size => cases hb) hmem'
    exact congrArg FutureAnswer.ready hz

end Linked

/-! ### A thread that waits -/

/-- A thread submits a task and calls `Get`, which falls asleep; then the worker answers, and the reader
calls the handler. -/
def sleepRun (w : Fin n) : List (ParentAction byteProgram n Bool) :=
  (submitSteps false (byteJob 1 5) ++ writeSteps false w).map .pool ++
    [.call false 0 .get, .monitor (.lock (.program false)), .monitor (.check (.program false))] ++
    (answerSteps w 25).dropLast.map .pool ++ [.handle (.complete w)]

/-- The handler stores the result and wakes the thread, and `Get` answers. -/
def awaitRun (w : Fin n) : List (ParentAction byteProgram n Bool) :=
  sleepRun w ++
    [.monitor (.lock (.reader w)), .deliver (.complete w), .monitor (.unlock (.reader w)),
      .monitor (.notifyAll (.reader w)), .monitor (.lock (.program false)),
      .monitor (.check (.program false)), .monitor (.unlock (.program false)),
      .monitor (.lock (.program false)), .monitor (.read (.program false)),
      .monitor (.unlock (.program false))]

theorem get_answers_sleeper :
    ∃ s : Parent byteProgram 1 Bool, (parent byteProgram 1 Bool).Reachable s ∧
      (s.future 0).log = [.updated (.reader 0) (.setValue (some 1) [25]),
        .answered (.program false) (.get (some 1)) (.got (some (.ok [25]))) true] ∧ s.Answers := by
  obtain ⟨s, hs⟩ : ∃ s, (parent byteProgram 1 Bool).run Parent.initial (awaitRun 0) = some s :=
    ⟨_, rfl⟩
  have hr : (parent byteProgram 1 Bool).Reachable s := Automaton.Reachable.of_run rfl hs
  have hlog : (s.future 0).log = [.updated (.reader 0) (.setValue (some 1) [25]),
      .answered (.program false) (.get (some 1)) (.got (some (.ok [25]))) true] := by
    obtain rfl := Option.some_inj.1 hs
    rfl
  exact ⟨s, hr, hlog, get_answers hr⟩

end ProcessPool
