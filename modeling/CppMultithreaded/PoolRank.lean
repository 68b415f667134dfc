/-
**The steps that are left to the process pool.**

Without new calls the pool comes to rest.  Every byte of a request is written and read, every request is
executed, every byte of the response is written and read, the handler of the task is called; the loops of
`Shutdown` get to their ends.  The rank of a state adds up what each of them may still take.  How long a
response will be is not known before the task has been executed; `limit` bounds the texts of the
exceptions.

Main definitions:

* `ProcessPool.Link.rank`, `ProcessPool.State.rank` — the steps that are left;
* `ProcessPool.Action.continues`, `ProcessPool.Action.dies` — the steps that begin no call, and the death
  of a worker.

Main results:

* `ProcessPool.Link.rank_of_effect` — what a step of a link does to its rank;
* `ProcessPool.State.rank_of_step` — **every step that begins no call lowers the rank**, and the death of
  a worker does not raise it.
-/

import CppMultithreaded.PoolRefinement
import CppMultithreaded.ThreadWeight

set_option relaxedAutoImplicit false
set_option autoImplicit false

namespace ProcessPool

open Framing (transfers transfers_writeSome)

variable {τ θ : Type*} {P : Program τ} {n : ℕ}

/-! ### The rank of a link -/

/-- The bytes of the longest payload of a response. -/
def Job.responseLimit (limit : ℕ) (job : Job P) : ℕ := max ((P.resultSize job.type).getD 0) limit

/-- The steps from the execution of a request to the call of its handler. -/
def Frame.cost (limit : ℕ) : Frame P → ℕ
  | .run _ job => 2 * (resultHeaderSize + job.responseLimit limit) + 5
  | .stop => 0

/-- The steps from the lock of `write_mutex` to the call of the handler. -/
def Frame.sendCost (limit : ℕ) (f : Frame P) : ℕ :=
  2 * (taskHeaderSize + f.payload.length) + 4 + f.cost limit

/-- The steps that the requests in flight will take. -/
def framesCost (limit : ℕ) : List (Frame P) → ℕ
  | [] => 0
  | f :: fs => f.cost limit + framesCost limit fs

theorem framesCost_append (limit : ℕ) (fs gs : List (Frame P)) :
    framesCost limit (fs ++ gs) = framesCost limit fs + framesCost limit gs := by
  induction fs with
  | nil => simp [framesCost]
  | cons f fs ih =>
      rw [List.cons_append, framesCost, framesCost, ih, Nat.add_assoc]

theorem framesCost_tail_le (limit : ℕ) (fs : List (Frame P)) :
    framesCost limit fs.tail ≤ framesCost limit fs := by
  cases fs with
  | nil => rfl
  | cons f fs => exact Nat.le_add_left _ _

/-- The steps of a worker until it has exited, without those of the requests. -/
def WorkerPc.cost : WorkerPc → ℕ
  | .respond todo => transfers todo + 4
  | .closeRequest => 3
  | .closeResponse => 2
  | .exit => 1
  | .gone => 0
  | _ => 4

/-- The steps of a reader until it has ended, without those of the responses. -/
def ReaderPc.cost : ReaderPc → ℕ
  | .complete _ _ _ _ => 2
  | .ended => 0
  | _ => 1

/-- The steps of the holder of `write_mutex`. -/
def Link.holderCost (l : Link P θ) : ℕ :=
  match l.writeMutex with
  | some (_, _, todo) => transfers todo + 1
  | none => 0

/-- **The steps that are left to a link.** -/
def Link.rank (limit : ℕ) (l : Link P θ) : ℕ :=
  l.holderCost + l.request.length + framesCost limit l.requests + l.worker.cost +
    l.response.length + 2 * l.responses.length + l.reader.cost

/-- What a step adds to the steps that are left. -/
def LinkAction.gain (limit : ℕ) : LinkAction P θ → ℕ
  | .lock _ f => f.sendCost limit
  | .die | .closeRequestFd | .closeResponseFd => 1
  | _ => 0

/-- No exception has a text longer than `limit`. -/
def LinkAction.limited (limit : ℕ) : LinkAction P θ → Bool
  | .execute outcome => decide (outcome.error.length ≤ limit)
  | _ => true

/-- The bytes that a step reads are in the stream. -/
def LinkAction.Available (l : Link P θ) : LinkAction P θ → Prop
  | .readRequest k => k ≤ l.request.length
  | .readResponse k => k ≤ l.response.length
  | _ => True

@[simp] theorem WorkerPc.cost_closeRequest : WorkerPc.closeRequest.cost = 3 := rfl

@[simp] theorem WorkerPc.cost_gone : WorkerPc.gone.cost = 0 := rfl

@[simp] theorem WorkerPc.cost_execute (header payload : List UInt8) :
    (WorkerPc.execute header payload).cost = 4 := rfl

@[simp] theorem WorkerPc.cost_respond (todo : List (List UInt8)) :
    (WorkerPc.respond todo).cost = transfers todo + 4 := rfl

@[simp] theorem ReaderPc.cost_readHeader (got : List UInt8) : (ReaderPc.readHeader got).cost = 1 := rfl

@[simp] theorem ReaderPc.cost_lookup (header payload : List UInt8) :
    (ReaderPc.lookup header payload).cost = 1 := rfl

@[simp] theorem ReaderPc.cost_complete (header payload : List UInt8) (taskId : ℕ) (pending : Pending) :
    (ReaderPc.complete header payload taskId pending).cost = 2 := rfl

@[simp] theorem ReaderPc.cost_ended : ReaderPc.ended.cost = 0 := rfl

theorem WorkerPc.cost_receive {p : WorkerPc} (chunk : List UInt8) (h : 0 < p.wants) :
    p.cost = 4 ∧ (p.receive chunk).cost ≤ 4 := by
  cases p with
  | readHeader got =>
      refine ⟨rfl, ?_⟩
      simp only [receive, afterHeader]
      split_ifs <;> simp [cost]
  | readPayload header got =>
      refine ⟨rfl, ?_⟩
      simp only [receive]
      split_ifs <;> simp [cost]
  | _ => simp [wants] at h

theorem ReaderPc.cost_receive {p : ReaderPc} (chunk : List UInt8) (h : 0 < p.wants) :
    p.cost = 1 ∧ (p.receive chunk).cost = 1 := by
  cases p with
  | readHeader got =>
      refine ⟨rfl, ?_⟩
      simp only [receive, afterHeader]
      split_ifs <;> rfl
  | readPayload header got =>
      refine ⟨rfl, ?_⟩
      simp only [receive]
      split_ifs <;> rfl
  | _ => simp [wants] at h

theorem WorkerPc.cost_next {p p' : WorkerPc} (h : p.next = some p') : p'.cost + 1 = p.cost := by
  cases p <;> simp only [next, Option.some.injEq, reduceCtorEq] at h
  all_goals
    subst h
    rfl

/-- The buffers of a frame: its bytes, and at most two of them. -/
theorem transfers_buffers_le (header payload : List UInt8) :
    transfers (buffers header payload) ≤ 2 * (header.length + payload.length) + 2 := by
  have hlength : (buffers header payload).length ≤ 2 := by
    rw [buffers]
    split_ifs <;> simp
  rw [transfers, flatten_buffers, List.length_append]
  omega

/-- The response to a task is not longer than its limit. -/
theorem transfers_respond_le {limit : ℕ} {job : Job P} {outcome : Outcome} (taskId : ℕ)
    (hfits : outcome.Fits (P.resultSize job.type)) (hlimit : outcome.error.length ≤ limit)
    {r : Response}
    (hr : r = respond taskId ⟨some (job.fn, job.args), outcome.output, outcome.error⟩) :
    transfers (buffers r.resultHeader.bytes r.payload) + 3 ≤ (Frame.run taskId job).cost limit := by
  have hpayload : r.payload.length ≤ job.responseLimit limit := by
    rw [hr, respond, Job.responseLimit]
    split_ifs
    · exact hlimit.trans (le_max_right _ _)
    · exact Nat.zero_le _
    · cases outcome with
      | returned result => exact (Nat.le_of_eq hfits).trans (le_max_left _ _)
      | _ => exact Nat.zero_le _
  have hheader : r.resultHeader.bytes.length = resultHeaderSize := r.resultHeader.length_bytes
  have hle := transfers_buffers_le r.resultHeader.bytes r.payload
  rw [Frame.cost]
  omega

section Link

variable [DecidableEq θ] {l l' : Link P θ} {limit : ℕ}

theorem Link.available_of_step {a : LinkAction P θ} (h : l.step a = some l') : a.Available l := by
  cases a with
  | readRequest k =>
      simp only [step, Option.ite_none_right_eq_some] at h
      exact h.1.2.1
  | readResponse k =>
      simp only [step, Option.ite_none_right_eq_some] at h
      exact h.1.2.1
  | _ => exact trivial

omit [DecidableEq θ] in
/-- **What a step of a link does to its rank.** -/
theorem Link.rank_of_effect (hf : l.Framed) {a : LinkAction P θ} (hread : a.Available l)
    (ha : a.limited limit = true) (he : LinkEffect l a l') :
    l'.rank limit + 1 ≤ l.rank limit + a.gain limit := by
  have htail := framesCost_tail_le limit l.requests
  cases he with
  | lock o f hm =>
      have hheader : f.taskHeader.bytes.length = taskHeaderSize := f.taskHeader.length_bytes
      have hle := transfers_buffers_le f.taskHeader.bytes f.payload
      simp only [rank, holderCost, hm, framesCost_append, framesCost, LinkAction.gain, Frame.sendCost]
      omega
  | write o k f todo todo' chunk hm _ hsome =>
      have hle := transfers_writeSome hsome
      simp only [rank, holderCost, hm, List.length_append]
      omega
  | writeFails o f todo hm _ _ =>
      simp only [rank, holderCost, hm]
      omega
  | unlock o f hm =>
      simp only [rank, holderCost, hm]
      omega
  | readStop k hpos hwants _ =>
      obtain ⟨hcost, -⟩ := WorkerPc.cost_receive [] (hpos.trans_le hwants)
      simp only [rank, holderCost, take, List.length_drop, hcost, WorkerPc.cost_closeRequest]
      omega
  | readRequest k hpos hwants _ =>
      obtain ⟨hcost, hle⟩ :=
        WorkerPc.cost_receive (l.request.take k) (hpos.trans_le hwants)
      have hbytes : k ≤ l.request.length := hread
      simp only [rank, holderCost, List.length_drop, hcost]
      omega
  | requestEof hwants _ _ =>
      obtain ⟨hcost, -⟩ := WorkerPc.cost_receive [] hwants
      simp only [rank, holderCost, hcost, WorkerPc.cost_closeRequest]
      omega
  | execute outcome header payload l' hw hexec =>
      obtain ⟨taskId, job, rest, hrequests, hfits, rfl, -⟩ := hf.execute hw hexec
      have hlimit : outcome.error.length ≤ limit := of_decide_eq_true ha
      have hle := transfers_respond_le taskId hfits hlimit rfl
      simp only [rank, holderCost, reply, take, hw, hrequests, framesCost, List.tail_cons,
        WorkerPc.cost_execute, WorkerPc.cost_respond, List.length_append, List.length_singleton]
      omega
  | crash header payload hw =>
      simp only [rank, holderCost, take, kill, hw, WorkerPc.cost_execute, WorkerPc.cost_gone]
      omega
  | writeResponse k todo todo' chunk hw hsome =>
      have hle := transfers_writeSome hsome
      have hcost : (if todo' = [] then WorkerPc.readHeader [] else .respond todo').cost =
          transfers todo' + 4 := by
        split_ifs with hnil
        · rw [hnil]
          rfl
        · rfl
      simp only [rank, holderCost, hw, hcost, WorkerPc.cost_respond, List.length_append]
      omega
  | responseFails todo hw _ =>
      simp only [rank, holderCost, hw, WorkerPc.cost_respond, WorkerPc.cost_closeRequest]
      omega
  | leave p hp =>
      have hcost := WorkerPc.cost_next hp
      simp only [rank, holderCost]
      omega
  | die =>
      simp only [rank, holderCost, kill, WorkerPc.cost_gone, LinkAction.gain]
      omega
  | readResponse k hpos hwants =>
      obtain ⟨hcost, hnew⟩ :=
        ReaderPc.cost_receive (l.response.take k) (hpos.trans_le hwants)
      have hbytes : k ≤ l.response.length := hread
      simp only [rank, holderCost, List.length_drop, hcost, hnew]
      omega
  | responseEof hwants _ _ =>
      obtain ⟨hcost, -⟩ := ReaderPc.cost_receive [] hwants
      simp only [rank, holderCost, hcost, ReaderPc.cost_ended]
      omega
  | lookupNone header payload hr =>
      obtain ⟨r, rest, hresponses, -⟩ := hf.of_lookup hr
      simp only [rank, holderCost, hr, hresponses, List.tail_cons, List.length_cons,
        ReaderPc.cost_lookup, ReaderPc.cost_readHeader]
      omega
  | lookupSome header payload pending hr =>
      obtain ⟨r, rest, hresponses, -⟩ := hf.of_lookup hr
      simp only [rank, holderCost, hr, hresponses, List.tail_cons, List.length_cons,
        ReaderPc.cost_lookup, ReaderPc.cost_complete]
      omega
  | complete header payload taskId pending hr =>
      simp only [rank, holderCost, hr, ReaderPc.cost_complete, ReaderPc.cost_readHeader]
      omega
  | closeRequestFd => exact Nat.le_refl _
  | closeResponseFd => exact Nat.le_refl _

end Link

/-! ### The rank of the pool -/

/-- The steps of a call of `Submit` until it returns, and those of the request that it will send. -/
def SubmitPc.cost (limit : ℕ) : SubmitPc P n → ℕ
  | .idle | .write _ _ _ _ => 0
  | .lockWriteMutex job _ taskId _ => (Frame.run taskId job).sendCost limit
  | .chooseWorker job _ taskId => (Frame.run taskId job).sendCost limit + 1
  | .insertPending job _ taskId => (Frame.run taskId job).sendCost limit + 3
  | .fetchTaskId job _ => (Frame.run 0 job).sendCost limit + 4

/-- The steps of `Shutdown` until it returns, and those of the requests that it will send. -/
def ShutdownPc.cost : ShutdownPc n → ℕ
  | .notStarted | .returned => 0
  | .sendStop rest => (2 * taskHeaderSize + 4) * rest.length + 4 * n + 6
  | .writeStop _ rest => (2 * taskHeaderSize + 4) * rest.length + 4 * n + 6
  | .joinReaders rest => rest.length + 3 * n + 5
  | .closeRequest rest => 3 * rest.length + 4
  | .closeResponse _ rest => 3 * rest.length + 6
  | .waitpid _ rest => 3 * rest.length + 5
  | .swapPending => 3
  | .failPending _ => 2

/-- **The steps that are left to the pool**, where no call begins and no exception has a text longer than
`limit`. -/
def State.rank [Fintype θ] (limit : ℕ) (s : State P n θ) : ℕ :=
  ∑ t, (s.thread t).cost limit + ∑ w, (s.link w).rank limit + s.shutdown.cost +
    s.pending.keys.length + s.shutdown.draining.keys.length

/-- The step does not begin a call, and no exception has a text longer than `limit`. -/
def Action.continues (limit : ℕ) : Action P n θ → Bool
  | .makeState _ _ | .shutdown => false
  | .execute _ outcome => decide (outcome.error.length ≤ limit)
  | _ => true

/-- A worker dies. -/
def Action.dies : Action P n θ → Bool
  | .link _ .die => true
  | _ => false

theorem ShutdownPc.cost_afterLoop {pc pc' : ShutdownPc n} (h : pc.afterLoop = some pc') :
    pc'.cost + 1 ≤ pc.cost ∧ pc.draining = ∅ ∧ pc'.draining = ∅ := by
  obtain ⟨rfl, rfl⟩ | ⟨rfl, rfl⟩ | ⟨rfl, rfl⟩ | ⟨rfl, rfl⟩ := afterLoop_cases h
  all_goals
    refine ⟨?_, rfl, rfl⟩
    simp only [cost, List.length_nil, List.length_finRange]
    omega

section Rank

variable [DecidableEq θ] [NeZero n] [Fintype θ] {s s' : State P n θ} {limit : ℕ}

/-- **Every step that begins no call lowers the rank**, apart from the death of a worker, which does not
raise it. -/
theorem State.rank_of_step (hf : ∀ w, (s.link w).Framed) {a : Action P n θ}
    (ha : a.continues limit = true) (h : s.step a = some s') :
    s'.rank limit + 1 ≤ s.rank limit + if a.dies then 1 else 0 := by
  have hthread : ∀ (t : θ) (pc : SubmitPc P n) (c : ℕ), (s.thread t).cost limit = pc.cost limit + c →
      ∑ u, (Function.update s.thread t pc u).cost limit + c = ∑ u, (s.thread u).cost limit := by
    intro t pc c hc
    have hsum := ThreadWeight.sum_update (SubmitPc.cost limit) s.thread t pc
    omega
  have hlink : ∀ {w : Fin n} {b : LinkAction P θ} {l : Link P θ}, LinkEffect (s.link w) b l →
      b.Available (s.link w) → b.limited limit = true →
      ∑ v, (Function.update s.link w l v).rank limit + 1 ≤
        ∑ v, (s.link v).rank limit + b.gain limit := by
    intro w b l hl hread hlimited
    have hsum := ThreadWeight.sum_update (Link.rank limit) s.link w l
    have hle := Link.rank_of_effect (hf w) hread hlimited hl
    omega
  cases effect_of_step h with
  | makeState t job _ => cases ha
  | fetchTaskId t job state ht =>
      have hsum := hthread t (.insertPending job state s.nextTaskId) 1 (by rw [ht]; rfl)
      simp only [rank, Ledger.fetchTaskId]
      omega
  | insertPending t job state taskId ht =>
      have hsum := hthread t (.chooseWorker job state taskId) 2 (by rw [ht]; rfl)
      have hkeys := List.length_erase_le (a := taskId) (l := s.pending.keys)
      simp only [rank, Ledger.insertPending, AList.keys_insert, List.length_cons]
      omega
  | refuse t job state taskId ht _ =>
      have hsum := hthread t .idle ((Frame.run taskId job).sendCost limit + 1)
        (by rw [ht]; exact (Nat.zero_add _).symm)
      simp only [rank, Ledger.goTo]
      omega
  | chooseWorker t job state taskId ht _ =>
      have hsum := hthread t (.lockWriteMutex job state taskId (Fin.ofNat n s.nextWorker)) 1
        (by rw [ht]; rfl)
      simp only [rank, Ledger.goTo]
      omega
  | lockWriteMutex t job state taskId w l ht hl =>
      have hsum := hthread t (.write job state taskId w) ((Frame.run taskId job).sendCost limit)
        (by rw [ht]; exact (Nat.zero_add _).symm)
      have hle := hlink hl trivial rfl
      simp only [LinkAction.gain] at hle
      simp only [rank, setLink, Ledger.send]
      omega
  | writeFails t job state taskId w l ht hl =>
      have hsum := hthread t .idle 0 (by rw [ht]; rfl)
      have hle := hlink hl trivial rfl
      simp only [LinkAction.gain] at hle
      simp only [rank, setLink, Ledger.goTo]
      omega
  | returnFuture t job state taskId w l ht hl =>
      have hsum := hthread t .idle 0 (by rw [ht]; rfl)
      have hle := hlink hl trivial rfl
      simp only [LinkAction.gain] at hle
      simp only [rank, setLink, Ledger.returnFuture]
      omega
  | internal w b l hinternal hl =>
      simp only [step, hinternal, if_true] at h
      obtain ⟨l', hl', -⟩ := Option.map_eq_some_iff.1 h
      have hgain : b.gain limit = if (Action.link w b : Action P n θ).dies then 1 else 0 := by
        cases b <;> first | rfl | cases hinternal
      have hle := hlink hl (Link.available_of_step hl') (by cases b <;> first | rfl | cases hinternal)
      rw [hgain] at hle
      simp only [rank, setLink]
      omega
  | execute w outcome t header payload l hw ht hl =>
      have hle := hlink hl trivial ha
      simp only [LinkAction.gain] at hle
      simp only [rank, setLink, Ledger.record]
      omega
  | kill w outcome header payload l hw ht hl =>
      have hle := hlink hl trivial ha
      simp only [LinkAction.gain] at hle
      simp only [rank, setLink]
      omega
  | crash w t header payload l hw ht hl =>
      have hle := hlink hl trivial rfl
      simp only [LinkAction.gain] at hle
      simp only [rank, setLink, Ledger.record]
      omega
  | lookup w header payload l hr hl =>
      have hle := hlink hl trivial rfl
      have hkeys :=
        List.length_erase_le (a := (ResultHeader.ofBytes header).taskId) (l := s.pending.keys)
      simp only [LinkAction.gain] at hle
      simp only [rank, setLink, Ledger.lookup, AList.keys_erase]
      omega
  | complete w handler l hh hl =>
      have hle := hlink hl trivial rfl
      simp only [LinkAction.gain] at hle
      simp only [rank, setLink, Ledger.complete]
      omega
  | shutdown _ => cases ha
  | shutdownAgain _ => cases ha
  | lockStop w rest l hpc hl =>
      have hle := hlink hl trivial rfl
      have hrest := Nat.mul_add_one (2 * taskHeaderSize + 4) rest.length
      simp only [LinkAction.gain, Frame.sendCost, Frame.payload, Frame.cost, List.length_nil] at hle
      simp only [rank, setLink, hpc, ShutdownPc.cost, ShutdownPc.draining, List.length_cons]
      omega
  | stopFails w rest l hpc hl =>
      have hle := hlink hl trivial rfl
      simp only [LinkAction.gain] at hle
      simp only [rank, setLink, hpc, ShutdownPc.cost, ShutdownPc.draining]
      omega
  | unlockStop w rest l hpc hl =>
      have hle := hlink hl trivial rfl
      simp only [LinkAction.gain] at hle
      simp only [rank, setLink, hpc, ShutdownPc.cost, ShutdownPc.draining]
      omega
  | join w rest hpc _ =>
      simp only [rank, hpc, ShutdownPc.cost, ShutdownPc.draining, List.length_cons]
      omega
  | closeRequestFd w rest l hpc hl =>
      have hle := hlink hl trivial rfl
      simp only [LinkAction.gain] at hle
      simp only [rank, setLink, hpc, ShutdownPc.cost, ShutdownPc.draining, List.length_cons]
      omega
  | closeResponseFd w rest l hpc hl =>
      have hle := hlink hl trivial rfl
      simp only [LinkAction.gain] at hle
      simp only [rank, setLink, hpc, ShutdownPc.cost, ShutdownPc.draining]
      omega
  | waitpid w rest hpc _ =>
      simp only [rank, hpc, ShutdownPc.cost, ShutdownPc.draining]
      omega
  | nextLoop pc hpc =>
      obtain ⟨hcost, hbefore, hafter⟩ := ShutdownPc.cost_afterLoop hpc
      simp only [rank, hbefore, hafter]
      omega
  | swapPending hpc =>
      simp only [rank, Ledger.drain, hpc, ShutdownPc.cost, ShutdownPc.draining]
      simp only [AList.keys_empty, List.length_nil]
      omega
  | failPending taskId p temp hpc hp =>
      have hmem : taskId ∈ temp.keys := AList.mem_keys.1 (AList.lookup_isSome.1 (by rw [hp]; rfl))
      have hkeys := List.length_erase_of_mem hmem
      have hpos := List.length_pos_of_mem hmem
      simp only [rank, Ledger.fail, hpc, ShutdownPc.cost, ShutdownPc.draining, AList.keys_erase]
      omega

end Rank

end ProcessPool
