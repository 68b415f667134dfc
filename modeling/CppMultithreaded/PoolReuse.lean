/-
**Ids that are used again.**

Ids are numbers below `2 ^ 64`, so after that many calls of `Submit` an id is used again, and the handler
that is in the map under this id is replaced.  Here one thread has inserted the handler of its task, and
waits for `write_mutex`, while another thread makes `2 ^ 64` calls, one after the other, each of which is
answered.  The last of them replaces the handler of the first thread, and takes it out of the map.

The pool has one worker; the link to it is at rest between the calls.

Main definitions:

* `ProcessPool.single`, `ProcessPool.Link.calm` — a pool with one worker, and a link at rest;
* `ProcessPool.Ledger.choose`, `ProcessPool.Ledger.answered` — what a call of `Submit` does up to the
  choice of the worker, and what is done from then on until its response has been dealt with;
* `ProcessPool.Ledger.After` — what some calls leave behind, one after the other.

Main results:

* `ProcessPool.choose_steps`, `ProcessPool.answer_steps` — a call that is answered;
* `ProcessPool.Ledger.After.round`, `ProcessPool.round_steps` — **any number of calls**: the ids count
  on, and the ids of the calls are not in the map afterwards;
* `ProcessPool.reused_id_hangs` — a `Future` whose id is used again is not ready when `Shutdown` has
  returned.
-/

import CppMultithreaded.PoolResults

set_option relaxedAutoImplicit false
set_option autoImplicit false

namespace ProcessPool

variable {τ θ : Type*} {P : Program τ}

/-! ### A pool with one worker -/

/-- A pool with one worker, before `Shutdown`. -/
def single (L : Ledger P 1 θ) (l : Link P θ) (nextWorker : ℕ) : State P 1 θ :=
  { toLedger := L, link := fun _ => l, shutdown := .notStarted, stopping := false, nextWorker }

/-- A link on which nothing is in flight. -/
def Link.calm (written taken : List (Frame P)) : Link P θ :=
  { Link.initial with written := written, taken := taken }

/-- The link when the worker is about to run the request. -/
def Link.delivered (written taken : List (Frame P)) (f : Frame P) : Link P θ :=
  { Link.calm (written ++ [f]) taken with
    worker := .execute f.taskHeader.bytes f.payload
    requests := [f] }

/-- The link when the reader is about to look up the response. -/
def Link.heard (written taken : List (Frame P)) (r : Response) : Link P θ :=
  { Link.calm written taken with
    reader := .lookup r.resultHeader.bytes r.payload
    responses := [r] }

section Steps

variable [DecidableEq θ]

/-- The pool whose workers do not die. -/
def immortal (P : Program τ) (n : ℕ) (θ : Type*) [DecidableEq θ] [NeZero n] :
    Automaton (State P n θ) (Action P n θ) :=
  (system P n θ).restrict fun _ a => a.noDeath = true

theorem immortal_step {n : ℕ} [NeZero n] {s s' : State P n θ} {a : Action P n θ}
    (ha : a.noDeath = true) (h : s.step a = some s') : (immortal P n θ).Steps s s' :=
  Automaton.Steps.single (Automaton.restrict_step_eq_some.2 ⟨ha, h⟩)

variable {L : Ledger P 1 θ} {l l' : Link P θ} {nextWorker : ℕ} {written taken : List (Frame P)}
  {t : θ} {job : Job P} {state taskId : ℕ} {result : List UInt8}

theorem onLink_single {a : LinkAction P θ} (h : l.step a = some l') :
    (single L l nextWorker).onLink 0 a = some (single L l' nextWorker) := by
  have hsame : Function.update (fun _ : Fin 1 => l) 0 l' = fun _ => l' :=
    funext fun w => by rw [Subsingleton.elim w 0, Function.update_self]
  rw [State.onLink, show (single L l nextWorker).link 0 = l from rfl, h, Option.map_some]
  simp only [single, hsame]

/-- The steps of the link that move bytes, one after the other. -/
theorem internal_steps {as : List (LinkAction P θ)}
    (has : ∀ a ∈ as, a.internal = true ∧ a ≠ .die) (h : as.foldlM Link.step l = some l') :
    (immortal P 1 θ).Steps (single L l nextWorker) (single L l' nextWorker) := by
  induction as generalizing l with
  | nil =>
      obtain rfl := Option.some_inj.1 h
      exact Automaton.Steps.refl
  | cons a as ih =>
      rw [List.foldlM_cons] at h
      obtain ⟨l₁, hl, hrest⟩ := Option.bind_eq_some_iff.1 h
      obtain ⟨hinternal, hdie⟩ := has a List.mem_cons_self
      have hstep : (single L l nextWorker).step (.link 0 a) = some (single L l₁ nextWorker) := by
        simp only [State.step, hinternal, if_true, onLink_single hl]
      have hmortal : (Action.link 0 a : Action P 1 θ).noDeath = true := by
        cases a <;> first | rfl | exact absurd rfl hdie
      exact (immortal_step hmortal hstep).trans
        (ih (fun b hb => has b (List.mem_cons_of_mem _ hb)) hrest)

/-! ### A call of Submit, up to the choice of the worker -/

/-- What a call of `Submit` has done when it has chosen the worker. -/
def Ledger.choose (L : Ledger P 1 θ) (t : θ) (job : Job P) : Ledger P 1 θ :=
  let fetched := (L.makeState t job).fetchTaskId t job L.nextState
  (fetched.insertPending t job L.nextState L.nextTaskId).goTo t
    (.lockWriteMutex job L.nextState L.nextTaskId 0)

theorem choose_steps (job : Job P) (ht : L.thread t = .idle) :
    (immortal P 1 θ).Steps (single L l nextWorker)
      (single (L.choose t job) l ((nextWorker + 1) % 2 ^ 64)) := by
  have hself : ∀ (f : θ → SubmitPc P 1) (pc : SubmitPc P 1), Function.update f t pc t = pc :=
    fun _ _ => Function.update_self _ _ _
  let made := L.makeState t job
  let fetched := made.fetchTaskId t job L.nextState
  let inserted := fetched.insertPending t job L.nextState L.nextTaskId
  have hmake : (immortal P 1 θ).Steps (single L l nextWorker) (single made l nextWorker) :=
    immortal_step (a := .makeState t job) rfl (by simp only [State.step, single, ht, made])
  have hfetch : (immortal P 1 θ).Steps (single made l nextWorker) (single fetched l nextWorker) :=
    immortal_step (a := .fetchTaskId t) rfl (by
      simp only [State.step, single, made, fetched, Ledger.makeState, hself])
  have hinsert : (immortal P 1 θ).Steps (single fetched l nextWorker) (single inserted l nextWorker) :=
    immortal_step (a := .insertPending t) rfl (by
      simp only [State.step, single, fetched, inserted, Ledger.fetchTaskId, hself]
      rfl)
  have hchoose : (immortal P 1 θ).Steps (single inserted l nextWorker)
      (single (L.choose t job) l ((nextWorker + 1) % 2 ^ 64)) :=
    immortal_step (a := .chooseWorker t) rfl (by
      simp only [State.step, single, inserted, Ledger.insertPending, hself,
        Subsingleton.elim (Fin.ofNat 1 nextWorker) 0]
      rfl)
  exact ((hmake.trans hfetch).trans hinsert).trans hchoose

/-! ### From the choice of the worker on -/

/-- The link when a thread has locked `write_mutex` to write its request. -/
def Link.locked (written taken : List (Frame P)) (t : θ) (f : Frame P) : Link P θ :=
  { (Link.calm written taken : Link P θ) with
    writeMutex := some (.submit t, f, buffers f.taskHeader.bytes f.payload)
    requests := [f] }

/-- The link when the thread has left `write_mutex`. -/
def Link.unlocked (written taken : List (Frame P)) (f : Frame P) : Link P θ :=
  { (Link.calm (written ++ [f]) taken : Link P θ) with
    request := f.taskHeader.bytes ++ f.payload
    requests := [f] }

/-- The link when the request has been written. -/
def Link.sent (written taken : List (Frame P)) (t : θ) (f : Frame P) : Link P θ :=
  { (Link.unlocked written taken f : Link P θ) with writeMutex := some (.submit t, f, []) }

omit [DecidableEq θ] in
theorem writeSome_first {k : ℕ} {buffer : List UInt8} (h : buffer.length = k)
    (rest : List (List UInt8)) : Framing.writeSome k (buffer :: rest) = some (buffer, rest) := by
  simp [Framing.writeSome, h]

omit [DecidableEq θ] in
theorem payload_ne_nil (job : Job P) : job.payload ≠ [] := by
  intro h
  have hlen := job.length_payload
  rw [h, List.length_nil] at hlen
  omega

/-- A thread writes its request. -/
theorem write_steps :
    [.write (.submit t) 32, .write (.submit t) job.payload.length].foldlM Link.step
        (Link.locked written taken t (.run taskId job)) =
      some (Link.sent written taken t (.run taskId job)) := by
  have hheader := writeSome_first (Frame.run taskId job).taskHeader.length_bytes [job.payload]
  have hpayload := writeSome_first (rfl : job.payload.length = _) []
  rw [show taskHeaderSize = 32 from rfl] at hheader
  simp [Link.locked, Link.sent, Link.unlocked, Link.calm, Link.initial, Link.step, Link.writable,
    WorkerPc.requestOpen, buffers, Frame.payload, payload_ne_nil, hheader, hpayload]

/-- The worker reads a request. -/
theorem read_steps (hid : taskId < 2 ^ 64) :
    [.readRequest 32, .readRequest job.payload.length].foldlM Link.step
        (Link.unlocked written taken (.run taskId job) : Link P θ) =
      some (Link.delivered written taken (.run taskId job)) := by
  have hheader := (Frame.run taskId job).taskHeader.length_bytes
  have hround := Frame.ofBytes_taskHeader (f := Frame.run taskId job) (by
    intro i hi
    obtain rfl := Option.some.inj hi
    exact hid)
  have hcommand : (Frame.run taskId job).taskHeader.command ≠ Command.stop.code := by
    simp [Frame.taskHeader, Command.code]
  have hsize : (Frame.run taskId job).taskHeader.payloadSize = job.payload.length := rfl
  have hpos := List.length_pos_iff.2 (payload_ne_nil job)
  simp [Link.unlocked, Link.delivered, Link.calm, Link.initial, Link.step, WorkerPc.wants,
    WorkerPc.receive, WorkerPc.afterHeader, Frame.payload, payload_ne_nil, hheader, hround, hcommand,
    hsize, hpos, taskHeaderSize]

/-- The worker writes a response, and the reader reads it. -/
theorem reply_steps {r : Response} (hr : responseFraming.valid r) (hpayload : r.payload ≠ []) :
    [.writeResponse 24, .writeResponse r.payload.length, .readResponse 24,
      .readResponse r.payload.length].foldlM Link.step
        ((Link.delivered written taken (.run taskId job) : Link P θ).reply r) =
      some (Link.heard (written ++ [.run taskId job]) (taken ++ [.run taskId job]) r) := by
  have hlen := r.resultHeader.length_bytes
  have hround := Response.ofBytes_resultHeader hr
  have hfirst := writeSome_first r.resultHeader.length_bytes [r.payload]
  have hsecond := writeSome_first (rfl : r.payload.length = _) []
  have hsize : r.resultHeader.payloadSize = r.payload.length := rfl
  have hpos := List.length_pos_iff.2 hpayload
  rw [show resultHeaderSize = 24 from rfl] at hfirst
  simp [Link.delivered, Link.heard, Link.reply, Link.take, Link.calm, Link.initial, Link.step, buffers,
    ReaderPc.wants, ReaderPc.receive, ReaderPc.afterHeader, hpayload, hlen, hround, hfirst, hsecond,
    hsize, hpos, resultHeaderSize]

/-- The response to a task whose function has returned the bytes. -/
def valueResponse (taskId : ℕ) (result : List UInt8) : Response := ⟨taskId, .value, result⟩

/-- What has been done when a request has been sent, run and answered, and its response has been dealt
with. -/
def Ledger.answered (L : Ledger P 1 θ) (t : θ) (job : Job P) (state taskId : ℕ) (result : List UInt8) :
    Ledger P 1 θ :=
  let run := ((L.send t job state taskId 0).returnFuture t job state).record
    (Execution.ofTask 0 taskId job (.returned result))
  match L.pending.lookup taskId with
  | none => run.lookup 0 taskId
  | some pending =>
      (run.lookup 0 taskId).complete ⟨taskId, pending, ResultStatus.value.code, result⟩

omit [DecidableEq θ] in
theorem valid_valueResponse (hid : taskId < 2 ^ 64)
    (hfits : (Outcome.returned result).Fits (P.resultSize job.type)) :
    responseFraming.valid (valueResponse taskId result) :=
  ⟨hid, hfits.output_lt fun n hn => (P.resultSize_lt job.type n hn).2⟩

/-- The worker runs a request. -/
theorem execute_step (hid : taskId < 2 ^ 64) (hresult : result ≠ [])
    (hfits : (Outcome.returned result).Fits (P.resultSize job.type)) :
    (immortal P 1 θ).Steps (single L (Link.delivered written taken (.run taskId job)) nextWorker)
      (single (L.record (Execution.ofTask 0 taskId job (.returned result)))
        ((Link.delivered written taken (.run taskId job)).reply (valueResponse taskId result))
        nextWorker) := by
  have hround : TaskHeader.ofBytes (Frame.run taskId job).taskHeader.bytes =
      (Frame.run taskId job).taskHeader := Frame.ofBytes_taskHeader (by
    intro i hi
    obtain rfl := Option.some.inj hi
    exact hid)
  have hexecutor : P.executorAt (Frame.run taskId job).taskHeader.executor = some job.type :=
    P.executorAt_executor job.type
  have hanswer : answer P job.type (Frame.run taskId job).taskHeader.bytes job.payload
      (.returned result) = valueResponse taskId result := by
    rw [answer, hround, executeTyped_payload]
    simp [respond, Outcome.output, Outcome.error, hresult, valueResponse, Frame.taskHeader]
  have hrecord : Execution.ofRequest P (0 : Fin 1) job.type (Frame.run taskId job).taskHeader.bytes
      job.payload (.returned result) = Execution.ofTask 0 taskId job (.returned result) := by
    rw [Execution.ofRequest, hanswer, hround, executeTyped_payload, Execution.ofTask]
    simp [respond, Outcome.output, Outcome.error, hresult, valueResponse, Frame.taskHeader]
  have hlink : (Link.delivered written taken (.run taskId job) : Link P θ).step
      (.execute (.returned result)) = some ((Link.delivered written taken (.run taskId job)).reply
        (valueResponse taskId result)) := by
    simp only [Link.step, Link.delivered, Link.execute, Frame.payload, hround, hexecutor, hanswer,
      if_pos hfits]
  have hrunning : (Link.delivered written taken (.run taskId job) : Link P θ).running =
      some (job.type, (Frame.run taskId job).taskHeader.bytes, job.payload) := by
    simp only [Link.running, Link.delivered, Frame.payload, hround, hexecutor, Option.map_some]
  refine immortal_step (a := .execute 0 (.returned result)) rfl ?_
  simp only [State.step]
  rw [show (single L (Link.delivered written taken (.run taskId job)) nextWorker).link 0 =
    Link.delivered written taken (.run taskId job) from rfl, hrunning]
  simp only [onLink_single hlink, Option.map_some, hrecord]
  rfl

/-- The reader deals with a response: it calls the handler that it finds. -/
theorem lookup_steps (hvalid : responseFraming.valid (valueResponse taskId result)) :
    (immortal P 1 θ).Steps
      (single L (Link.heard written taken (valueResponse taskId result)) nextWorker)
      (single (match L.pending.lookup taskId with
        | none => L.lookup 0 taskId
        | some pending =>
            (L.lookup 0 taskId).complete ⟨taskId, pending, ResultStatus.value.code, result⟩)
        (Link.calm written taken) nextWorker) := by
  have hround := Response.ofBytes_resultHeader hvalid
  have hid : (valueResponse taskId result).resultHeader.taskId = taskId := rfl
  have hstep : ∀ {l' : Link P θ},
      (Link.heard written taken (valueResponse taskId result) : Link P θ).step
        (.lookup (L.pending.lookup taskId)) = some l' →
      (single L (Link.heard written taken (valueResponse taskId result)) nextWorker).step (.lookup 0) =
        some (single (L.lookup 0 taskId) l' nextWorker) := by
    intro l' hl
    show Option.map _ ((single L _ nextWorker).onLink 0
      (.lookup (L.pending.lookup (ResultHeader.ofBytes _).taskId))) = _
    rw [hround, hid, onLink_single hl]
    rfl
  cases hfound : L.pending.lookup taskId with
  | none =>
      rw [hfound] at hstep
      exact immortal_step rfl (hstep rfl)
  | some pending =>
      rw [hfound] at hstep
      let called : Link P θ := { (Link.heard written taken (valueResponse taskId result) : Link P θ) with
        reader := .complete (valueResponse taskId result).resultHeader.bytes result
          (ResultHeader.ofBytes (valueResponse taskId result).resultHeader.bytes).taskId pending
        responses := [] }
      have hlookup : (immortal P 1 θ).Steps
          (single L (Link.heard written taken (valueResponse taskId result)) nextWorker)
          (single (L.lookup 0 taskId) called nextWorker) := immortal_step rfl (hstep rfl)
      have hhandler : called.handler = some ⟨taskId, pending, ResultStatus.value.code, result⟩ := by
        simp only [called, Link.handler, hround]
        rfl
      have hcomplete : called.step .complete = some (Link.calm written taken) := rfl
      refine hlookup.trans (immortal_step (a := .complete 0) rfl ?_)
      simp only [State.step]
      rw [show (single (L.lookup 0 taskId) called nextWorker).link 0 = called from rfl, hhandler]
      simp only [onLink_single hcomplete, Option.map_some]
      rfl

/-- **A call of `Submit` that is answered**, from the choice of the worker on. -/
theorem answer_steps (result : List UInt8) (ht : L.thread t = .lockWriteMutex job state taskId 0)
    (hid : taskId < 2 ^ 64) (hresult : result ≠ [])
    (hfits : (Outcome.returned result).Fits (P.resultSize job.type)) :
    (immortal P 1 θ).Steps (single L (Link.calm written taken) nextWorker)
      (single (L.answered t job state taskId result)
        (Link.calm (written ++ [.run taskId job]) (taken ++ [.run taskId job])) nextWorker) := by
  have hvalid := valid_valueResponse hid hfits
  have hlock : (immortal P 1 θ).Steps (single L (Link.calm written taken) nextWorker)
      (single (L.send t job state taskId 0) (Link.locked written taken t (.run taskId job))
        nextWorker) := by
    refine immortal_step (a := .lockWriteMutex t) rfl ?_
    have hlink : (Link.calm written taken : Link P θ).step (.lock (.submit t) (.run taskId job)) =
        some (Link.locked written taken t (.run taskId job)) := rfl
    simp only [State.step]
    rw [show (single L (Link.calm written taken) nextWorker).thread t = _ from ht]
    simp only [onLink_single hlink, Option.map_some]
    rfl
  have hwrite : (immortal P 1 θ).Steps
      (single (L.send t job state taskId 0) (Link.locked written taken t (.run taskId job)) nextWorker)
      (single (L.send t job state taskId 0) (Link.sent written taken t (.run taskId job)) nextWorker) :=
    internal_steps (by simp [LinkAction.internal]) write_steps
  have hreturn : (immortal P 1 θ).Steps
      (single (L.send t job state taskId 0) (Link.sent written taken t (.run taskId job)) nextWorker)
      (single ((L.send t job state taskId 0).returnFuture t job state)
        (Link.unlocked written taken (.run taskId job)) nextWorker) := by
    refine immortal_step (a := .returnFuture t) rfl ?_
    have hlink : (Link.sent written taken t (.run taskId job)).step (.unlock (.submit t)) =
        some (Link.unlocked written taken (.run taskId job)) := by
      simp [Link.step, Link.sent, Link.unlocked, Link.calm, Link.initial]
    have hthread : (L.send t job state taskId 0).thread t = .write job state taskId 0 :=
      Function.update_self _ _ _
    simp only [State.step]
    rw [show (single (L.send t job state taskId 0) _ nextWorker).thread t = _ from hthread]
    simp only [onLink_single hlink, Option.map_some]
    rfl
  have hread : (immortal P 1 θ).Steps
      (single ((L.send t job state taskId 0).returnFuture t job state)
        (Link.unlocked written taken (.run taskId job)) nextWorker)
      (single ((L.send t job state taskId 0).returnFuture t job state)
        (Link.delivered written taken (.run taskId job)) nextWorker) :=
    internal_steps (by simp [LinkAction.internal]) (read_steps hid)
  have hreply : (immortal P 1 θ).Steps
      (single (((L.send t job state taskId 0).returnFuture t job state).record
          (Execution.ofTask 0 taskId job (.returned result)))
        ((Link.delivered written taken (.run taskId job)).reply (valueResponse taskId result))
        nextWorker)
      (single (((L.send t job state taskId 0).returnFuture t job state).record
          (Execution.ofTask 0 taskId job (.returned result)))
        (Link.heard (written ++ [.run taskId job]) (taken ++ [.run taskId job])
          (valueResponse taskId result)) nextWorker) :=
    internal_steps (by simp [LinkAction.internal]) (reply_steps hvalid hresult)
  exact ((((hlock.trans hwrite).trans hreturn).trans hread).trans
    (execute_step hid hresult hfits)).trans (hreply.trans (lookup_steps hvalid))

/-! ### Any number of calls -/

/-- What a call of `Submit` that is answered leaves behind. -/
def Ledger.round (L : Ledger P 1 θ) (t : θ) (job : Job P) (result : List UInt8) : Ledger P 1 θ :=
  (L.choose t job).answered t job L.nextState L.nextTaskId result

/-- What a thread leaves behind that has made `k` calls, each of which has been answered. -/
structure Ledger.After (L : Ledger P 1 θ) (t : θ) (k : ℕ) (L' : Ledger P 1 θ) : Prop where
  idle : L'.thread t = .idle
  /-- The other threads have not moved. -/
  thread : ∀ u, u ≠ t → L'.thread u = L.thread u
  /-- The ids count on. -/
  nextTaskId : L'.nextTaskId = (L.nextTaskId + k) % 2 ^ 64
  /-- The shared states that had been made are left alone. -/
  nextState : L.nextState ≤ L'.nextState
  states : ∀ state < L.nextState, L'.states state = L.states state
  /-- The handlers in the map were there before, and none of them has an id of the calls. -/
  lookup : ∀ i p, L'.pending.lookup i = some p → L.pending.lookup i = some p ∧
    ∀ j < k, i ≠ (L.nextTaskId + j) % 2 ^ 64

namespace Ledger.After

variable {L L' : Ledger P 1 θ} {k : ℕ}

omit [DecidableEq θ] in
theorem refl (ht : L.thread t = .idle) (hid : L.nextTaskId < 2 ^ 64) : L.After t 0 L :=
  ⟨ht, fun _ _ => rfl, (Nat.mod_eq_of_lt hid).symm, le_rfl, fun _ _ => rfl,
    fun _ _ hp => ⟨hp, fun _ hj => absurd hj (Nat.not_lt_zero _)⟩⟩

/-- **One more call.** -/
theorem round (h : L.After t k L') (job : Job P) (result : List UInt8) :
    L.After t (k + 1) (L'.round t job result) := by
  have hfound : (L'.choose t job).pending.lookup L'.nextTaskId =
      some ⟨L'.nextState, P.resultSize job.type⟩ := AList.lookup_insert _
  rw [Ledger.round, Ledger.answered, hfound]
  refine ⟨?_, ?_, ?_, ?_, ?_, ?_⟩
  · exact Function.update_self _ _ _
  · intro u hu
    rw [← h.thread u hu]
    simp [Ledger.complete, Ledger.lookup, Ledger.record, Ledger.returnFuture, Ledger.send, Ledger.choose,
      Ledger.goTo, Ledger.insertPending, Ledger.fetchTaskId, Ledger.makeState, Function.update_of_ne hu]
  · show (L'.nextTaskId + 1) % 2 ^ 64 = (L.nextTaskId + (k + 1)) % 2 ^ 64
    rw [h.nextTaskId, Nat.mod_add_mod, Nat.add_assoc]
  · exact Nat.le_succ_of_le h.nextState
  · intro state hstate
    have hne : state ≠ L'.nextState := by
      have hle := h.nextState
      omega
    rw [← h.states state hstate]
    show Function.update (Function.update L'.states L'.nextState _) L'.nextState _ state = _
    rw [Function.update_of_ne hne, Function.update_of_ne hne]
  · intro i p hp
    have hpending : (((L'.pending.insert L'.nextTaskId ⟨L'.nextState, P.resultSize job.type⟩).erase
        L'.nextTaskId).lookup i) = some p := hp
    have hne : i ≠ L'.nextTaskId := by
      rintro rfl
      rw [AList.lookup_erase] at hpending
      cases hpending
    rw [AList.lookup_erase_ne hne, AList.lookup_insert_ne hne] at hpending
    obtain ⟨hold, hids⟩ := h.lookup i p hpending
    refine ⟨hold, ?_⟩
    intro j hj
    rcases Nat.lt_succ_iff_lt_or_eq.1 hj with hlt | rfl
    · exact hids j hlt
    · exact h.nextTaskId ▸ hne

end Ledger.After

/-- **Any number of calls can be made**, one after the other, each of which is answered. -/
theorem round_steps (job : Job P) (result : List UInt8) (ht : L.thread t = .idle)
    (hid : L.nextTaskId < 2 ^ 64) (hresult : result ≠ [])
    (hfits : (Outcome.returned result).Fits (P.resultSize job.type)) (k : ℕ) :
    ∃ L' written' taken' nextWorker',
      (immortal P 1 θ).Steps (single L (Link.calm written taken) nextWorker)
        (single L' (Link.calm written' taken') nextWorker') ∧ L.After t k L' := by
  induction k with
  | zero => exact ⟨L, written, taken, nextWorker, Automaton.Steps.refl, .refl ht hid⟩
  | succ k ih =>
      obtain ⟨L', written', taken', nextWorker', hsteps, hafter⟩ := ih
      have hid' : L'.nextTaskId < 2 ^ 64 := by
        rw [hafter.nextTaskId]
        exact Nat.mod_lt _ (Nat.two_pow_pos 64)
      exact ⟨_, _, _, _, (hsteps.trans (choose_steps job hafter.idle)).trans
        (answer_steps result (Function.update_self _ _ _) hid' hresult hfits), hafter.round job result⟩

end Steps

/-! ### A Future whose id is used again -/

/-- `Shutdown`, when no call of `Submit` is under way. -/
def shutdownSteps : List (Action byteProgram 1 Bool) :=
  [.shutdown, .lockStop, .link 0 (.write .shutdown 32), .unlockStop, .nextLoop,
    .link 0 (.readRequest 32), .link 0 .leave, .link 0 .leave, .link 0 .leave, .link 0 .responseEof,
    .join, .nextLoop, .closeRequestFd, .closeResponseFd, .waitpid, .nextLoop, .swapPending]

/-- `Shutdown` returns, where the map is empty. -/
theorem shutdown_steps {L : Ledger byteProgram 1 Bool} (hpending : L.pending = ∅)
    (written taken : List (Frame byteProgram)) (nextWorker : ℕ) :
    ∃ s, (immortal byteProgram 1 Bool).Steps (single L (Link.calm written taken) nextWorker) s ∧
      s.toLedger = L.drain ∧ s.shutdown = .returned ∧ (s.link 0).written = written ++ [.stop] := by
  obtain ⟨s, hs, hledger, hpc, hwritten⟩ : ∃ s,
      (immortal byteProgram 1 Bool).run (single L (Link.calm written taken) nextWorker) shutdownSteps =
        some s ∧ s.toLedger = L.drain ∧ s.shutdown = .failPending L.pending ∧
        (s.link 0).written = written ++ [.stop] := ⟨_, rfl, rfl, rfl, rfl⟩
  have hdone : (immortal byteProgram 1 Bool).Steps s { s with shutdown := .returned } :=
    immortal_step (a := .nextLoop) rfl (by
      simp only [State.step, hpc, hpending, ShutdownPc.afterLoop]
      rfl)
  exact ⟨_, (Automaton.Steps.of_run hs).trans hdone, hledger, rfl, hwritten⟩

/-- After `2 ^ 64` calls, a map that held the handler of the first task is empty. -/
theorem pending_of_after {L L' : Ledger byteProgram 1 Bool} (h : L.After true (2 ^ 64) L')
    (hid : L.nextTaskId = 2) (hpending : L.pending = AList.insert 1 ⟨0, some 1⟩ ∅) : L'.pending = ∅ := by
  have hnone : ∀ i p, L'.pending.lookup i ≠ some p := by
    intro i p hp
    obtain ⟨hold, hids⟩ := h.lookup i p hp
    -- the last of the calls has the id `1` again
    have hne : i ≠ 1 := by
      have hlast := hids (2 ^ 64 - 1) (by norm_num)
      rwa [hid] at hlast
    rw [hpending, AList.lookup_insert_ne hne, AList.lookup_empty] at hold
    cases hold
  refine AList.ext ?_
  cases hentries : L'.pending.entries with
  | nil => rfl
  | cons x rest =>
      refine absurd ?_ (hnone x.1 x.2)
      rw [AList.lookup, hentries, List.dlookup_cons_eq]

/-- A thread has chosen the worker for its task; then another thread makes `2 ^ 64` calls, the last of
which has the id of the first task again, before the first thread writes its request. -/
theorem reused_id_hangs : ∃ s : State byteProgram 1 Bool,
    (immortal byteProgram 1 Bool).Reachable s ∧ s.shutdown = .returned ∧
      (byteJob 1 5, 0) ∈ s.returned ∧ (s.states 0).ready = false ∧
      ∃ sent, (s.link 0).written = sent ++ [.run 1 (byteJob 1 5), .stop] := by
  obtain ⟨first, hfirst⟩ : ∃ first : Ledger byteProgram 1 Bool,
      first = Ledger.initial.choose false (byteJob 1 5) := ⟨_, rfl⟩
  have hinit : (immortal byteProgram 1 Bool).Reachable (single Ledger.initial (Link.calm [] []) 0) :=
    Automaton.Reachable.init rfl
  have hchoose : (immortal byteProgram 1 Bool).Steps (single Ledger.initial (Link.calm [] []) 0)
      (single first (Link.calm [] []) ((0 + 1) % 2 ^ 64)) := hfirst ▸ choose_steps (byteJob 1 5) rfl
  obtain ⟨hid, hstate, hpending, hidle, hwaits, hready⟩ : first.nextTaskId = 2 ∧ first.nextState = 1 ∧
      first.pending = AList.insert 1 ⟨0, some 1⟩ ∅ ∧ first.thread true = .idle ∧
      first.thread false = .lockWriteMutex (byteJob 1 5) 0 1 0 ∧ (first.states 0).ready = false := by
    rw [hfirst]
    exact ⟨rfl, rfl, rfl, rfl, rfl, rfl⟩
  -- the calls of the other thread
  obtain ⟨L, written, taken, nextWorker, hround, hafter⟩ :=
    round_steps (byteJob 2 6) [36] hidle (by rw [hid]; norm_num) (List.cons_ne_nil _ _) rfl (2 ^ 64)
  have hempty := pending_of_after hafter hid hpending
  -- the request of the first thread is written, run and answered, but its handler is not in the map
  have hanswer : (immortal byteProgram 1 Bool).Steps (single L (Link.calm written taken) nextWorker)
      (single (L.answered false (byteJob 1 5) 0 1 [25]) (Link.calm (written ++ [.run 1 (byteJob 1 5)])
        (taken ++ [.run 1 (byteJob 1 5)])) nextWorker) :=
    answer_steps [25] ((hafter.thread false (by simp)).trans hwaits) (by norm_num)
      (List.cons_ne_nil _ _) rfl
  obtain ⟨hpending', hreturned, hstates⟩ : (L.answered false (byteJob 1 5) 0 1 [25]).pending = ∅ ∧
      (byteJob 1 5, 0) ∈ (L.answered false (byteJob 1 5) 0 1 [25]).returned ∧
      (L.answered false (byteJob 1 5) 0 1 [25]).states = L.states := by
    rw [Ledger.answered, hempty]
    refine ⟨?_, List.mem_append_right _ (List.mem_singleton_self _), rfl⟩
    show L.pending.erase 1 = ∅
    rw [hempty]
    rfl
  obtain ⟨s, hshutdown, hledger, hdone, hwritten⟩ :=
    shutdown_steps hpending' (written ++ [.run 1 (byteJob 1 5)]) (taken ++ [.run 1 (byteJob 1 5)])
      nextWorker
  refine ⟨s, hinit.steps (((hchoose.trans hround).trans hanswer).trans hshutdown), hdone, ?_, ?_,
    written, ?_⟩
  · rw [hledger]
    exact hreturned
  · rw [hledger]
    show ((L.answered false (byteJob 1 5) 0 1 [25]).states 0).ready = false
    rw [hstates, hafter.states 0 (by rw [hstate]; exact Nat.one_pos)]
    exact hready
  · rw [hwritten, List.append_assoc]
    rfl

end ProcessPool
