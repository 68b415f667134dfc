/-
**The loops of the pool, step by step.**

`PoolStream` runs `WorkerLoop` and `ReaderLoop` on streams that end.  In the pool a worker and its
reader take one step at a time, and the streams grow meanwhile.  A log of a run of a link says which
bytes the parent has written, what the worker has done, and which responses the reader has decoded.
Every step does the next part of what the loop does on the bytes it has, those in the stream, and those
that are still to come, so that the log is a first part of what `workerLoop` and `readerLoop` do, and
all of it at the end.

The functions are taken to end a call of theirs as `Executors` says.

Main definitions:

* `ProcessPool.Link.sends`, `ProcessPool.Link.performs`, `ProcessPool.Link.decodes` — what a step does;
* `ProcessPool.LinkLog`, `ProcessPool.Link.Logs` — the log of a run;
* `ProcessPool.WorkerPc.runsOn`, `ProcessPool.ReaderPc.runsOn` — the rest of a loop, from a program
  point;
* `ProcessPool.Link.Follows`, `ProcessPool.Link.Hears` — the log agrees with the loops;
* `ProcessPool.Link.runsAsked` — the requests that have been begun and completely written.

Main results:

* `ProcessPool.Link.runsOn_step` — **a step of a worker does the next part of `workerLoop`**;
* `ProcessPool.Link.reader_runsOn_step` — **a step of a reader does the next part of `readerLoop`**;
* `ProcessPool.loops_of_logs` — **a run of a link does a first part of the two loops**, and all of them
  where they have ended;
* `ProcessPool.sent_of_logs` — what has been sent is a first part of the requests that have been begun;
* `ProcessPool.in_step_of_logs` — **a link is in step** with the requests that have been written to it;
* `ProcessPool.exists_logs` — every run of the pool is such a run on each of its links.
-/

import CppMultithreaded.PoolOrder
import CppMultithreaded.PoolRefinement
import CppMultithreaded.PoolStream

set_option relaxedAutoImplicit false
set_option autoImplicit false

namespace ProcessPool

open Framing (readExact)

variable {τ θ : Type*} {P : Program τ} {n : ℕ}

/-! ### What a step does -/

instance : Append WorkerRun :=
  ⟨fun run run' => ⟨run.invoked ++ run'.invoked, run.written ++ run'.written⟩⟩

theorem WorkerRun.append_def (run run' : WorkerRun) :
    run ++ run' = ⟨run.invoked ++ run'.invoked, run.written ++ run'.written⟩ := rfl

theorem WorkerRun.nil_append (run : WorkerRun) : (⟨[], []⟩ : WorkerRun) ++ run = run := rfl

theorem WorkerRun.append_nil (run : WorkerRun) : run ++ (⟨[], []⟩ : WorkerRun) = run := by
  rw [append_def, List.append_nil, List.append_nil]

theorem WorkerRun.append_assoc (run run' run'' : WorkerRun) :
    run ++ run' ++ run'' = run ++ (run' ++ run'') := by
  simp only [append_def, List.append_assoc]

/-- The call of an executor that a worker is about to make. -/
def WorkerPc.calls : WorkerPc → List (ℕ × List UInt8)
  | .execute header payload => [((TaskHeader.ofBytes header).executor, payload)]
  | _ => []

/-- The response that a reader is about to look up. -/
def ReaderPc.decoded : ReaderPc → List Decoded
  | .lookup header payload =>
      [⟨(ResultHeader.ofBytes header).taskId, (ResultHeader.ofBytes header).status, payload⟩]
  | _ => []

/-- The bytes that a step adds to the request stream. -/
def Link.sends (l : Link P θ) : LinkAction P θ → List UInt8
  | .write _ k => l.unsent.take k
  | _ => []

/-- The executors that a step calls, and the bytes that it adds to the response stream. -/
def Link.performs (l : Link P θ) : LinkAction P θ → WorkerRun
  | .execute _ | .crash => ⟨l.worker.calls, []⟩
  | .writeResponse k => ⟨[], l.worker.unsent.take k⟩
  | _ => ⟨[], []⟩

/-- The responses that a step decodes. -/
def Link.decodes (l : Link P θ) : LinkAction P θ → List Decoded
  | .lookup _ => l.reader.decoded
  | _ => []

/-- A call ends as `E` says. -/
def LinkAction.Agrees (E : Executors) (l : Link P θ) : LinkAction P θ → Prop
  | .execute outcome => ∀ header payload, l.worker = .execute header payload →
      ∃ t, P.executorAt (TaskHeader.ofBytes header).executor = some t ∧
        E.run (TaskHeader.ofBytes header).executor payload =
          executeTyped (P.argSizes t) payload outcome
  | _ => True

/-- The worker does not give up what it has begun. -/
def LinkAction.Graceful : LinkAction P θ → Prop
  | .die | .crash | .responseFails => False
  | _ => True

/-- What has happened on a link. -/
structure LinkLog where
  sent : List UInt8
  ran : WorkerRun
  decoded : List Decoded

def LinkLog.empty : LinkLog := ⟨[], ⟨[], []⟩, []⟩

/-- The log after a step. -/
def LinkLog.next (log : LinkLog) (l : Link P θ) (a : LinkAction P θ) : LinkLog :=
  ⟨log.sent ++ l.sends a, log.ran ++ l.performs a, log.decoded ++ l.decodes a⟩

variable {E : Executors} {deaths : Prop} {log : LinkLog} {l l' : Link P θ} {a : LinkAction P θ}

/-- The logs of the runs of a new link, in which workers give up only if `deaths`. -/
inductive Link.Logs (E : Executors) (deaths : Prop) : LinkLog → Link P θ → Prop
  | initial : Logs E deaths .empty .initial
  | step {log : LinkLog} {l l' : Link P θ} (a : LinkAction P θ) : Logs E deaths log l → a.Valid →
      LinkEffect l a l' → a.Agrees E l → (¬ deaths → a.Graceful) → Logs E deaths (log.next l a) l'

/-! ### The worker -/

/-- What `WorkerLoop` does from a program point on, where the request stream ends after the bytes. -/
def WorkerPc.runsOn (E : Executors) (p : WorkerPc) (bytes : List UInt8) : WorkerRun :=
  match p.got with
  | none => ⟨[], []⟩
  | some got => ⟨[], p.unsent⟩ ++ workerLoop E (got ++ bytes)

theorem WorkerPc.runsOn_of_none {p : WorkerPc} (h : p.got = none) (bytes : List UInt8) :
    p.runsOn E bytes = ⟨[], []⟩ := by
  rw [runsOn, h]

/-- A worker that asks for bytes has nothing to write. -/
theorem WorkerPc.runsOn_of_got {p : WorkerPc} {got : List UInt8} (h : p.got = some got)
    (hunsent : p.unsent = []) (bytes : List UInt8) : p.runsOn E bytes = workerLoop E (got ++ bytes) := by
  rw [runsOn, h, hunsent]
  rfl

/-- The response that a worker begins to write when it has called an executor. -/
def replyTo (E : Executors) (header payload : List UInt8) : Response :=
  respond (TaskHeader.ofBytes header).taskId (E.run (TaskHeader.ofBytes header).executor payload)

/-- The call of an executor, and what comes after it. -/
theorem WorkerPc.runsOn_execute {header payload : List UInt8}
    (hs : (WorkerPc.execute header payload).Sized) (bytes : List UInt8) :
    (WorkerPc.execute header payload).runsOn E bytes =
      ⟨[((TaskHeader.ofBytes header).executor, payload)], []⟩ ++
        (WorkerPc.respond (buffers (replyTo E header payload).resultHeader.bytes
          (replyTo E header payload).payload)).runsOn E bytes := by
  obtain ⟨hheader, hcommand, hpayload⟩ := hs
  have hread : readExact taskHeaderSize (header ++ payload ++ bytes) =
      some (header, payload ++ bytes) := by
    rw [List.append_assoc]
    exact Framing.readExact_append hheader _
  have hrest : ProcessPool.readPayload (TaskHeader.ofBytes header).payloadSize (payload ++ bytes) =
      some (payload, bytes) := by
    rw [readPayload_eq]
    exact Framing.readExact_append hpayload _
  rw [runsOn_of_got rfl rfl, workerLoop_run hread hcommand hrest]
  rfl

/-- The header of a `Stop`. -/
theorem workerLoop_of_stop {header : List UInt8} (hlen : header.length = taskHeaderSize)
    (hstop : (TaskHeader.ofBytes header).command = Command.stop.code) (bytes : List UInt8) :
    workerLoop E (header ++ bytes) = ⟨[], []⟩ :=
  workerLoop_stop (Framing.readExact_append hlen bytes) hstop

/-- A worker that leaves has left its loop. -/
theorem WorkerPc.got_of_next {p p' : WorkerPc} (h : p.next = some p') :
    p.got = none ∧ p'.got = none := by
  cases p <;> simp [next] at h <;> subst h <;> exact ⟨rfl, rfl⟩

/-- A worker that has left its loop does nothing. -/
theorem Link.performs_of_none (hgot : l.worker.got = none) (he : LinkEffect l a l') :
    l.performs a = ⟨[], []⟩ ∧ l'.worker.got = none := by
  cases he with
  | readStop k hpos hwants _ =>
      obtain ⟨got, hsome, -⟩ := Link.Framed.got_of_wants (hpos.trans_le hwants)
      simp [hsome] at hgot
  | readRequest k hpos hwants _ =>
      obtain ⟨got, hsome, -⟩ := Link.Framed.got_of_wants (hpos.trans_le hwants)
      simp [hsome] at hgot
  | requestEof hwants _ _ => exact ⟨rfl, rfl⟩
  | execute outcome header payload _ hw _ => simp [hw, WorkerPc.got] at hgot
  | crash header payload hw => simp [hw, WorkerPc.got] at hgot
  | writeResponse k todo todo' chunk hw _ => simp [hw, WorkerPc.got] at hgot
  | responseFails todo hw _ => exact ⟨rfl, rfl⟩
  | leave p hp => exact ⟨rfl, (WorkerPc.got_of_next hp).2⟩
  | die => exact ⟨rfl, rfl⟩
  | _ => exact ⟨rfl, hgot⟩

/-- **A step of a worker does the next part of `workerLoop`**, and a step of the parent brings the bytes
closer. -/
theorem Link.runsOn_step (hs : l.worker.Sized) (he : LinkEffect l a l') (ha : a.Agrees E l)
    (hgraceful : a.Graceful) (heof : a ≠ .requestEof) (coming : List UInt8) :
    l.worker.runsOn E (l.request ++ (l.sends a ++ coming)) =
      l.performs a ++ l'.worker.runsOn E (l'.request ++ coming) := by
  cases he with
  | write o k f todo todo' chunk hm _ hsome =>
      have hunsent : l.unsent = todo.flatten := by rw [unsent, hm]
      rw [show l.sends (.write o k) = chunk by
        rw [sends, hunsent, Framing.take_of_writeSome hsome]]
      show _ = (⟨[], []⟩ : WorkerRun) ++ l.worker.runsOn E (l.request ++ chunk ++ coming)
      rw [List.append_assoc, WorkerRun.nil_append]
  | readStop k hpos hwants hclose =>
      obtain ⟨got, hgot, hunsent, -⟩ := Link.Framed.got_of_wants (hpos.trans_le hwants)
      rcases Link.Framed.receive_worker hgot hs (hpos.trans_le hwants)
        ((List.length_take_le k l.request).trans hwants) with ⟨hgot', -⟩ | ⟨-, hlen, hstop⟩
      · simp [hclose, WorkerPc.got] at hgot'
      · rw [WorkerPc.runsOn_of_got hgot hunsent, ← List.take_append_drop k l.request,
          List.append_assoc, ← List.append_assoc, workerLoop_of_stop hlen hstop]
        rfl
  | readRequest k hpos hwants hloop =>
      obtain ⟨got, hgot, hunsent, -⟩ := Link.Framed.got_of_wants (hpos.trans_le hwants)
      rcases Link.Framed.receive_worker hgot hs (hpos.trans_le hwants)
        ((List.length_take_le k l.request).trans hwants) with ⟨hgot', -, hunsent'⟩ | ⟨hclose, -⟩
      · rw [WorkerPc.runsOn_of_got hgot hunsent]
        show _ = (⟨[], []⟩ : WorkerRun) ++
          (l.worker.receive (l.request.take k)).runsOn E (l.request.drop k ++ coming)
        rw [WorkerPc.runsOn_of_got hgot' hunsent', WorkerRun.nil_append, List.append_assoc,
          ← List.append_assoc (l.request.take k), List.take_append_drop]
        rfl
      · exact absurd hclose hloop
  | requestEof _ _ _ => exact absurd rfl heof
  | execute outcome header payload _ hw hexec =>
      obtain ⟨t, ht, hrun⟩ := ha header payload hw
      rw [execute, ht] at hexec
      simp only [Option.ite_none_right_eq_some, Option.some.injEq] at hexec
      obtain ⟨-, rfl⟩ := hexec
      rw [hw] at hs
      rw [hw, WorkerPc.runsOn_execute hs, replyTo, hrun]
      simp only [performs, hw, WorkerPc.calls]
      rfl
  | crash header payload hw => exact hgraceful.elim
  | writeResponse k todo todo' chunk hw hsome =>
      have hflatten := Framing.flatten_writeSome hsome
      have hperforms : l.performs (.writeResponse k) = ⟨[], chunk⟩ := by
        rw [performs, hw, WorkerPc.unsent, Framing.take_of_writeSome hsome]
      rw [hw, hperforms]
      have hrest : (if todo' = [] then WorkerPc.readHeader [] else .respond todo').runsOn E
          (l.request ++ coming) = ⟨[], todo'.flatten⟩ ++ workerLoop E (l.request ++ coming) := by
        split_ifs with hdone
        · rw [hdone]
          rfl
        · rfl
      show _ = (⟨[], chunk⟩ : WorkerRun) ++
        (if todo' = [] then WorkerPc.readHeader [] else .respond todo').runsOn E (l.request ++ coming)
      rw [hrest, ← WorkerRun.append_assoc]
      show (⟨[], todo.flatten⟩ : WorkerRun) ++ workerLoop E (l.request ++ coming) =
        (⟨[], chunk ++ todo'.flatten⟩ : WorkerRun) ++ workerLoop E (l.request ++ coming)
      rw [hflatten]
  | responseFails todo hw _ => exact hgraceful.elim
  | leave p hp =>
      obtain ⟨hgot, hgot'⟩ := WorkerPc.got_of_next hp
      rw [WorkerPc.runsOn_of_none hgot]
      show _ = (⟨[], []⟩ : WorkerRun) ++ p.runsOn E (l.request ++ coming)
      rw [WorkerPc.runsOn_of_none hgot', WorkerRun.nil_append]
  | die => exact hgraceful.elim
  | _ => rfl

/-- Where the stream has ended, a worker that waits for more does nothing any more. -/
theorem WorkerPc.runsOn_nil {p : WorkerPc} (hs : p.Sized) (hwants : 0 < p.wants) :
    p.runsOn E [] = ⟨[], []⟩ := by
  cases p with
  | readHeader got =>
      rw [runsOn_of_got rfl rfl, List.append_nil]
      exact workerLoop_eof (if_neg (not_le.2 hs))
  | readPayload header got =>
      obtain ⟨hheader, -, hlt⟩ := hs
      rw [runsOn_of_got rfl rfl, List.append_nil]
      refine workerLoop_torn (Framing.readExact_append hheader got) ?_
      rw [readPayload_eq]
      exact if_neg (not_le.2 hlt)
  | _ => simp [wants] at hwants

/-- A worker that gives up has done a first part of the rest. -/
theorem Link.runsOn_giveUp (hs : l.worker.Sized) (he : LinkEffect l a l') (hgraceful : ¬ a.Graceful)
    (bytes : List UInt8) :
    l'.worker.got = none ∧ l.sends a = [] ∧
      ∃ rest, l.worker.runsOn E bytes = l.performs a ++ rest := by
  cases he with
  | crash header payload hw =>
      rw [hw] at hs
      refine ⟨rfl, rfl, ?_⟩
      rw [hw, WorkerPc.runsOn_execute hs, performs, hw]
      exact ⟨_, rfl⟩
  | responseFails todo hw _ => exact ⟨rfl, rfl, _, (WorkerRun.nil_append _).symm⟩
  | die => exact ⟨rfl, rfl, _, (WorkerRun.nil_append _).symm⟩
  | _ => exact absurd trivial hgraceful

/-- Nothing is sent on a stream that is closed, and it stays closed. -/
theorem Link.closed_step (hfd : l.requestFd = false) (he : LinkEffect l a l') :
    l.sends a = [] ∧ l'.requestFd = false := by
  cases he with
  | write o k f todo todo' chunk hm hw hsome => simp [writable, hfd] at hw
  | execute outcome header payload _ hw hexec =>
      obtain rfl | ⟨t, -, -, rfl⟩ := execute_cases hexec
      · exact ⟨rfl, hfd⟩
      · exact ⟨rfl, hfd⟩
  | closeRequestFd => exact ⟨rfl, rfl⟩
  | _ => exact ⟨rfl, hfd⟩

/-- What has happened on the link agrees with `workerLoop`. -/
inductive Link.Follows (E : Executors) (deaths : Prop) (log : LinkLog) (l : Link P θ) : Prop
  /-- The worker goes on as `WorkerLoop` does; after a `Stop` there is nothing left. -/
  | goesOn : (∀ coming, workerLoop E (log.sent ++ coming) =
      log.ran ++ l.worker.runsOn E (l.request ++ coming)) → Follows E deaths log l
  /-- It has seen the end of the stream. -/
  | ended : l.worker.got = none → l.requestFd = false → workerLoop E log.sent = log.ran →
      Follows E deaths log l
  /-- It has given up. -/
  | gaveUp : deaths → l.worker.got = none → (∀ coming, ∃ rest,
      workerLoop E (log.sent ++ coming) = log.ran ++ rest) → Follows E deaths log l

namespace Link.Follows

/-- **Every step keeps the agreement with `workerLoop`.** -/
theorem step (h : l.Follows E deaths log) (hs : l.worker.Sized) (he : LinkEffect l a l')
    (ha : a.Agrees E l) (hgraceful : ¬ deaths → a.Graceful) : l'.Follows E deaths (log.next l a) := by
  cases h with
  | goesOn hrest =>
      by_cases heof : a = .requestEof
      · subst heof
        cases he with
        | requestEof hwants hempty hfd =>
            refine .ended rfl hfd ?_
            have hnothing := hrest []
            rw [hempty, List.append_nil, List.append_nil, WorkerPc.runsOn_nil hs hwants] at hnothing
            show workerLoop E (log.sent ++ []) = log.ran ++ ⟨[], []⟩
            rw [List.append_nil]
            exact hnothing
      by_cases hg : a.Graceful
      · refine .goesOn fun coming => ?_
        rw [LinkLog.next, List.append_assoc, hrest, runsOn_step hs he ha hg heof,
          WorkerRun.append_assoc]
      · have hdeaths : deaths := by
          by_contra hno
          exact hg (hgraceful hno)
        refine .gaveUp hdeaths (runsOn_giveUp (E := E) hs he hg []).1 fun coming => ?_
        obtain ⟨-, hsends, rest, hperforms⟩ := runsOn_giveUp (E := E) hs he hg (l.request ++ coming)
        refine ⟨rest, ?_⟩
        rw [LinkLog.next, hsends, List.append_nil, hrest, hperforms, WorkerRun.append_assoc]
  | ended hgot hfd heq =>
      obtain ⟨hperforms, hgot'⟩ := performs_of_none hgot he
      obtain ⟨hsends, hfd'⟩ := closed_step hfd he
      refine .ended hgot' hfd' ?_
      rw [LinkLog.next, hsends, hperforms, List.append_nil, WorkerRun.append_nil]
      exact heq
  | gaveUp hdeaths hgot hpart =>
      obtain ⟨hperforms, hgot'⟩ := performs_of_none hgot he
      refine .gaveUp hdeaths hgot' fun coming => ?_
      rw [LinkLog.next, hperforms, WorkerRun.append_nil, List.append_assoc]
      exact hpart _

end Link.Follows

/-! ### The reader -/

/-- The call of a handler that a reader is about to make. -/
def ReaderPc.call : ReaderPc → List HandlerCall
  | .complete header payload taskId pending =>
      [⟨pending, ⟨taskId, (ResultHeader.ofBytes header).status, payload⟩⟩]
  | _ => []

/-- The handlers that a step calls. -/
def Link.completes (l : Link P θ) : LinkAction P θ → List HandlerCall
  | .complete => l.reader.call
  | _ => []

/-- A lookup finds what the map holds. -/
def LinkAction.Finds (pending : ℕ → Option Pending) (l : Link P θ) : LinkAction P θ → Prop
  | .lookup found => ∀ header payload, l.reader = .lookup header payload →
      found = pending (ResultHeader.ofBytes header).taskId
  | _ => True

/-- The map after a step. -/
def Link.pendingAfter (l : Link P θ) (pending : ℕ → Option Pending) : LinkAction P θ → ℕ → Option Pending
  | .lookup _ =>
      match l.reader with
      | .lookup header _ => Function.update pending (ResultHeader.ofBytes header).taskId none
      | _ => pending
  | _ => pending

/-- What has been decoded and called before the rest. -/
def ReaderRun.after (decoded : List Decoded) (completed : List HandlerCall) (run : ReaderRun) :
    ReaderRun :=
  { run with decoded := decoded ++ run.decoded, completed := completed ++ run.completed }

/-- What `ReaderLoop` does from a program point on, where the response stream ends after the bytes. -/
def ReaderPc.runsOn (pending : ℕ → Option Pending) (p : ReaderPc) (bytes : List UInt8) : ReaderRun :=
  match p.got with
  | none => ⟨[], [], pending⟩
  | some got => (readerLoop pending (got ++ bytes)).after [] p.call

section Reader

variable {pending : ℕ → Option Pending}

/-- A reader that is not about to call a handler. -/
theorem ReaderPc.runsOn_of_got {p : ReaderPc} {got : List UInt8} (h : p.got = some got)
    (hcall : p.call = []) (bytes : List UInt8) :
    p.runsOn pending bytes = readerLoop pending (got ++ bytes) := by
  rw [runsOn, h, hcall]
  rfl

theorem ReaderPc.call_of_wants {p : ReaderPc} (h : 0 < p.wants) : p.call = [] := by
  cases p <;> first | rfl | simp [wants] at h

theorem ReaderPc.call_receive {p : ReaderPc} (h : 0 < p.wants) (chunk : List UInt8) :
    (p.receive chunk).call = [] := by
  cases hp : p.receive chunk with
  | complete header payload taskId handler =>
      exact absurd hp ((Link.handler_receive chunk h).2 header payload taskId handler)
  | _ => rfl

/-- A response that has been read. -/
theorem ReaderPc.runsOn_lookup {header payload : List UInt8}
    (hs : (ReaderPc.lookup header payload).Sized) (bytes : List UInt8) :
    (ReaderPc.lookup header payload).runsOn pending bytes =
      match pending (ResultHeader.ofBytes header).taskId with
      | none => (readerLoop pending bytes).after (ReaderPc.lookup header payload).decoded []
      | some handler =>
          (readerLoop (Function.update pending (ResultHeader.ofBytes header).taskId none) bytes).after
            (ReaderPc.lookup header payload).decoded
            (ReaderPc.complete header payload (ResultHeader.ofBytes header).taskId handler).call := by
  obtain ⟨hheader, hpayload⟩ := hs
  have hread : readExact resultHeaderSize (header ++ payload ++ bytes) =
      some (header, payload ++ bytes) := by
    rw [List.append_assoc]
    exact Framing.readExact_append hheader _
  have hrest : ProcessPool.readPayload (ResultHeader.ofBytes header).payloadSize (payload ++ bytes) =
      some (payload, bytes) := by
    rw [readPayload_eq]
    exact Framing.readExact_append hpayload _
  rw [runsOn_of_got rfl rfl, readerLoop_decode hread hrest]
  cases hp : pending (ResultHeader.ofBytes header).taskId <;> simp only [hp] <;> rfl

/-- **A step of a reader does the next part of `readerLoop`**, where nobody else changes the map, and a
step of the worker brings the bytes closer. -/
theorem Link.reader_runsOn_step (hs : l.reader.Sized) (he : LinkEffect l a l')
    (hfound : a.Finds pending l) (heof : a ≠ .responseEof) (coming : List UInt8) :
    l.reader.runsOn pending (l.response ++ ((l.performs a).written ++ coming)) =
      (l'.reader.runsOn (l.pendingAfter pending a) (l'.response ++ coming)).after (l.decodes a)
        (l.completes a) := by
  cases he with
  | execute outcome header payload _ hw hexec =>
      obtain rfl | ⟨t, -, -, rfl⟩ := execute_cases hexec
      · rfl
      · rfl
  | writeResponse k todo todo' chunk hw hsome =>
      have hwritten : (l.performs (.writeResponse k)).written = chunk := by
        rw [performs, hw, WorkerPc.unsent, Framing.take_of_writeSome hsome]
      rw [hwritten, ← List.append_assoc]
      rfl
  | readResponse k hpos hwants =>
      obtain ⟨got, hgot⟩ := Link.Framed.got_of_wants_reader (hpos.trans_le hwants)
      obtain ⟨hgot', -⟩ := Link.Framed.receive_reader hgot hs (hpos.trans_le hwants)
        ((List.length_take_le k l.response).trans hwants)
      have hcall := ReaderPc.call_of_wants (hpos.trans_le hwants)
      have hcall' := ReaderPc.call_receive (hpos.trans_le hwants) (l.response.take k)
      rw [ReaderPc.runsOn_of_got hgot hcall]
      show _ = ((l.reader.receive (l.response.take k)).runsOn pending
        (l.response.drop k ++ coming)).after [] []
      rw [ReaderPc.runsOn_of_got hgot' hcall', List.append_assoc,
        ← List.append_assoc (l.response.take k), List.take_append_drop]
      rfl
  | responseEof _ _ _ => exact absurd rfl heof
  | lookupNone header payload hr =>
      have hnone := hfound header payload hr
      rw [hr] at hs
      rw [hr, ReaderPc.runsOn_lookup hs, ← hnone]
      simp only [pendingAfter, decodes, hr]
      rw [Function.update_eq_self_iff.2 hnone]
      rfl
  | lookupSome header payload handler hr =>
      have hsome := hfound header payload hr
      rw [hr] at hs
      rw [hr, ReaderPc.runsOn_lookup hs, ← hsome]
      simp only [pendingAfter, decodes, hr]
      rfl
  | complete header payload taskId handler hr =>
      rw [hr]
      simp only [completes, hr]
      rfl
  | _ => rfl

/-- What is decoded does not depend on the map. -/
theorem decoded_readerLoop (pending pending' : ℕ → Option Pending) (bytes : List UInt8) :
    (readerLoop pending bytes).decoded = (readerLoop pending' bytes).decoded := by
  induction hlen : bytes.length using Nat.strong_induction_on generalizing bytes pending pending' with
  | _ size ih =>
      cases hheader : readExact resultHeaderSize bytes with
      | none => rw [readerLoop_eof hheader, readerLoop_eof hheader]
      | some p =>
          obtain ⟨header, rest⟩ := p
          cases hpayload : readPayload (ResultHeader.ofBytes header).payloadSize rest with
          | none => rw [readerLoop_torn hheader hpayload, readerLoop_torn hheader hpayload]
          | some q =>
              obtain ⟨payload, rest'⟩ := q
              have hlt : rest'.length < size := by
                have hsize : resultHeaderSize = 24 := rfl
                have hfirst := Framing.length_of_readExact hheader
                have hsecond := Framing.length_of_readExact ((readPayload_eq _ _).symm.trans hpayload)
                omega
              rw [readerLoop_decode hheader hpayload, readerLoop_decode hheader hpayload]
              have hrest := fun pending pending' => ih _ hlt pending pending' rest' rfl
              simp only
              split <;> split <;> exact congrArg (List.cons _) (hrest _ _)

/-- Where the stream has ended, a reader that waits for more does nothing any more. -/
theorem ReaderPc.runsOn_nil {p : ReaderPc} (hs : p.Sized) (hwants : 0 < p.wants) :
    p.runsOn pending [] = ⟨[], [], pending⟩ := by
  cases p with
  | readHeader got =>
      rw [runsOn_of_got rfl rfl, List.append_nil]
      exact readerLoop_eof (if_neg (not_le.2 hs))
  | readPayload header got =>
      obtain ⟨hheader, hlt⟩ := hs
      rw [runsOn_of_got rfl rfl, List.append_nil]
      refine readerLoop_torn (Framing.readExact_append hheader got) ?_
      rw [readPayload_eq]
      exact if_neg (not_le.2 hlt)
  | _ => simp [wants] at hwants

/-- Nothing is written on a response stream that is closed, and it stays closed. -/
theorem Link.silent_step (hopen : l.worker.responseOpen = false) (he : LinkEffect l a l') :
    (l.performs a).written = [] ∧ l'.worker.responseOpen = false := by
  have hwants : ¬ 0 < l.worker.wants := by
    cases hw : l.worker <;> simp [hw, WorkerPc.responseOpen, WorkerPc.wants] at hopen ⊢
  cases he with
  | readStop k hpos hk _ => exact absurd (hpos.trans_le hk) hwants
  | readRequest k hpos hk _ => exact absurd (hpos.trans_le hk) hwants
  | requestEof hk _ _ => exact absurd hk hwants
  | execute outcome header payload _ hw _ => simp [hw, WorkerPc.responseOpen] at hopen
  | crash header payload hw => exact ⟨rfl, rfl⟩
  | writeResponse k todo todo' chunk hw _ => simp [hw, WorkerPc.responseOpen] at hopen
  | responseFails todo hw _ => simp [hw, WorkerPc.responseOpen] at hopen
  | leave p hp =>
      refine ⟨rfl, ?_⟩
      cases hw : l.worker with
      | exit =>
          rw [hw] at hp
          obtain rfl := Option.some.inj hp
          rfl
      | gone => simp [hw, WorkerPc.next] at hp
      | _ => simp [hw, WorkerPc.responseOpen] at hopen
  | die => exact ⟨rfl, rfl⟩
  | _ => exact ⟨rfl, hopen⟩

/-- A reader that has ended decodes nothing. -/
theorem Link.ended_step (hended : l.reader = .ended) (he : LinkEffect l a l') :
    l.decodes a = [] ∧ l'.reader = .ended := by
  refine ⟨?_, ended_of_effect hended he⟩
  cases he with
  | lookupNone header payload hr => simp [hended] at hr
  | lookupSome header payload handler hr => simp [hended] at hr
  | _ => rfl

/-- What has happened on the link agrees with `readerLoop`. -/
inductive Link.Hears (log : LinkLog) (l : Link P θ) : Prop
  /-- The reader goes on as `ReaderLoop` does. -/
  | goesOn : (∀ pending coming, (readerLoop pending (log.ran.written ++ coming)).decoded =
      log.decoded ++ (l.reader.runsOn pending (l.response ++ coming)).decoded) → Hears log l
  /-- It has seen the end of the stream. -/
  | ended : l.reader = .ended → l.worker.responseOpen = false →
      (∀ pending, (readerLoop pending log.ran.written).decoded = log.decoded) → Hears log l

namespace Link.Hears

/-- What a reader decodes does not depend on the map. -/
theorem decoded_runsOn (pending pending' : ℕ → Option Pending) (p : ReaderPc) (bytes : List UInt8) :
    (p.runsOn pending bytes).decoded = (p.runsOn pending' bytes).decoded := by
  rw [ReaderPc.runsOn, ReaderPc.runsOn]
  cases p.got with
  | none => rfl
  | some got => exact decoded_readerLoop pending pending' (got ++ bytes)

/-- **Every step keeps the agreement with `readerLoop`.** -/
theorem step (h : l.Hears log) (hs : l.reader.Sized) (he : LinkEffect l a l') :
    l'.Hears (log.next l a) := by
  cases h with
  | goesOn hrest =>
      by_cases heof : a = .responseEof
      · subst heof
        cases he with
        | responseEof hwants hempty hclosed =>
            refine .ended rfl hclosed fun pending => ?_
            have hnothing := hrest pending []
            rw [hempty, List.append_nil, List.append_nil, ReaderPc.runsOn_nil hs hwants] at hnothing
            show (readerLoop pending (log.ran.written ++ [])).decoded = log.decoded ++ []
            rw [List.append_nil]
            exact hnothing
      · refine .goesOn fun pending coming => ?_
        -- a map in which the lookup finds what it has found
        obtain ⟨pending', hfound⟩ : ∃ pending', a.Finds pending' l := by
          cases a with
          | lookup found => exact ⟨fun _ => found, fun _ _ _ => rfl⟩
          | _ => exact ⟨pending, trivial⟩
        have hstep := reader_runsOn_step hs he hfound heof coming
        show (readerLoop pending (log.ran.written ++ (l.performs a).written ++ coming)).decoded =
          log.decoded ++ l.decodes a ++ (l'.reader.runsOn pending (l'.response ++ coming)).decoded
        rw [List.append_assoc, hrest, decoded_runsOn pending pending' l.reader, hstep,
          decoded_runsOn pending (l.pendingAfter pending' a) l'.reader, List.append_assoc]
        rfl
  | ended hended hopen heq =>
      obtain ⟨hwritten, hopen'⟩ := silent_step hopen he
      obtain ⟨hdecodes, hended'⟩ := ended_step hended he
      refine .ended hended' hopen' fun pending => ?_
      show (readerLoop pending (log.ran.written ++ (l.performs a).written)).decoded =
        log.decoded ++ l.decodes a
      rw [hwritten, hdecodes, List.append_nil, List.append_nil]
      exact heq pending

end Link.Hears

end Reader

/-! ### Both loops -/

/-- The bytes in flight are those of the frames in flight. -/
theorem framed_of_logs (h : Link.Logs E deaths log l) : l.Framed := by
  induction h with
  | initial => exact Link.Framed.initial
  | step a _ hvalid he _ _ ih => exact ih.step hvalid he

/-- **The log of a run of a link agrees with the loops.** -/
theorem follows_of_logs (h : Link.Logs E deaths log l) : l.Follows E deaths log ∧ l.Hears log := by
  induction h with
  | initial => exact ⟨.goesOn fun coming => rfl, .goesOn fun pending coming => rfl⟩
  | step a hrun _ he ha hgraceful ih =>
      obtain ⟨hfollows, hhears⟩ := ih
      have hframed := framed_of_logs hrun
      exact ⟨hfollows.step hframed.workerSized he ha hgraceful, hhears.step hframed.readerSized he⟩

/-- **A run of a link does a first part of what the loops do** on the bytes that the parent has written,
and on those that the worker has written; and all of it, where the worker has left its loop and has not
given up, and where the reader has ended. -/
theorem loops_of_logs (h : Link.Logs E deaths log l) :
    (∃ rest, workerLoop E log.sent = log.ran ++ rest) ∧
    (¬ deaths → l.worker.got = none → workerLoop E log.sent = log.ran) ∧
    ∀ pending, log.decoded <+: (readerLoop pending log.ran.written).decoded ∧
      (l.reader = .ended → (readerLoop pending log.ran.written).decoded = log.decoded) := by
  obtain ⟨hfollows, hhears⟩ := follows_of_logs h
  refine ⟨?_, ?_, fun pending => ⟨?_, ?_⟩⟩
  · cases hfollows with
    | goesOn hrest => exact ⟨_, by simpa using hrest []⟩
    | ended _ _ heq => exact ⟨⟨[], []⟩, by rw [heq, WorkerRun.append_nil]⟩
    | gaveUp _ _ hpart => simpa using hpart []
  · intro hno hgot
    cases hfollows with
    | goesOn hrest =>
        have hnothing := hrest []
        rwa [List.append_nil, WorkerPc.runsOn_of_none hgot, WorkerRun.append_nil] at hnothing
    | ended _ _ heq => exact heq
    | gaveUp hdeaths _ _ => exact absurd hdeaths hno
  · cases hhears with
    | goesOn hrest => exact ⟨_, (by simpa using hrest pending [] : _ = _).symm⟩
    | ended _ _ heq => exact (heq pending).symm ▸ List.prefix_rfl
  · intro hended
    cases hhears with
    | goesOn hrest =>
        have hnothing := hrest pending []
        rw [List.append_nil, hended] at hnothing
        rw [hnothing]
        exact List.append_nil _
    | ended _ _ heq => exact heq pending

/-! ### The requests on a link -/

/-- The bytes of the requests that have been begun are sent, dropped, or still to be sent. -/
theorem Link.sends_step (hf : l.Framed) (he : LinkEffect l a l') :
    l.sends a ++ (l'.dropped ++ l'.unsent) =
      l.dropped ++ l.unsent ++ (requestFraming P).stream a.begins := by
  cases he with
  | lock o f hm =>
      have hunsent : l.unsent = [] := by rw [unsent, hm]
      rw [hunsent, List.append_nil]
      show l.dropped ++ (buffers f.taskHeader.bytes f.payload).flatten = _
      rw [flatten_buffers]
      exact congrArg (l.dropped ++ ·) ((requestFraming P).stream_singleton f).symm
  | write o k f todo todo' chunk hm hw hsome =>
      have hunsent : l.unsent = todo.flatten := by rw [unsent, hm]
      have hsends : l.sends (.write o k) = chunk := by
        rw [sends, hunsent, Framing.take_of_writeSome hsome]
      rw [hsends, hunsent, ← Framing.flatten_writeSome hsome]
      show chunk ++ (l.dropped ++ todo'.flatten) = l.dropped ++ (chunk ++ todo'.flatten) ++ []
      rw [hf.dropped hw, List.append_nil]
      rfl
  | writeFails o f todo hm _ _ =>
      have hunsent : l.unsent = todo.flatten := by rw [unsent, hm]
      rw [hunsent]
      rfl
  | unlock o f hm =>
      have hunsent : l.unsent = [] := by
        rw [unsent, hm]
        rfl
      rw [hunsent]
      exact (List.append_nil _).symm
  | execute outcome header payload _ hw hexec =>
      obtain rfl | ⟨t, -, -, rfl⟩ := execute_cases hexec
      · exact (List.append_nil _).symm
      · exact (List.append_nil _).symm
  | _ => exact (List.append_nil _).symm

/-- **What the parent has sent is a first part of the requests that have been begun.** -/
theorem sent_of_logs (h : Link.Logs E deaths log l) :
    log.sent ++ (l.dropped ++ l.unsent) = (requestFraming P).stream l.begun := by
  induction h with
  | initial => rfl
  | @step log l l' a hrun _ he _ _ ih =>
      calc log.sent ++ l.sends a ++ (l'.dropped ++ l'.unsent)
          = log.sent ++ (l.dropped ++ l.unsent) ++ (requestFraming P).stream a.begins := by
            rw [List.append_assoc, Link.sends_step (framed_of_logs hrun) he, ← List.append_assoc]
        _ = (requestFraming P).stream l'.begun := by
            rw [ih, Link.begun_of_effect he, Framing.stream_append]

/-- The requests that have been begun have ids below `2 ^ 64`. -/
theorem valid_of_logs (h : Link.Logs E deaths log l) :
    ∀ f ∈ l.begun, ∀ i ∈ f.taskId?, i < 2 ^ 64 := by
  induction h with
  | initial => exact fun f hf => absurd hf List.not_mem_nil
  | step a _ hvalid he _ _ ih =>
      rw [Link.begun_of_effect he]
      intro f hf
      rcases List.mem_append.1 hf with hold | hnew
      · exact ih f hold
      · cases a with
        | lock o g =>
            obtain rfl := List.mem_singleton.1 hnew
            exact hvalid
        | _ => exact absurd hnew List.not_mem_nil

/-- Requests cross as the bytes of their frames. -/
theorem Frame.stream_requests {fs : List (Frame P)} (h : ∀ f ∈ fs, ∀ i ∈ f.taskId?, i < 2 ^ 64) :
    streamFraming.stream (fs.pmap Frame.request h) = (requestFraming P).stream fs := by
  induction fs with
  | nil => rfl
  | cons f fs ih =>
      rw [List.pmap, ← List.singleton_append, Framing.stream_append, bytes_request, ih,
        ← Framing.stream_append]
      rfl

/-- The runs that the parent has asked for: those of the requests begun on the link that it has
completely written. -/
def Link.runsAsked (h : Link.Logs E deaths log l) : List RunRequest :=
  runsBeforeStop
    (streamFraming.complete (l.begun.pmap Frame.request (valid_of_logs h)) log.sent.length)

/-- **A link is in step with the requests that have been begun on it**: the worker has run a first part
of those that have been completely written, and the reader has decoded a first part of the responses to
them. -/
theorem in_step_of_logs (h : Link.Logs E deaths log l) :
    log.ran.invoked <+: (Link.runsAsked h).map (fun r => (r.executor, r.payload)) ∧
    log.ran.written <+: responseFraming.stream ((Link.runsAsked h).map (RunRequest.response E)) ∧
    log.decoded <+: ((Link.runsAsked h).map (RunRequest.response E)).map Response.decoded := by
  have hsent : log.sent = (streamFraming.stream
      (l.begun.pmap Frame.request (valid_of_logs h))).take log.sent.length := by
    rw [Frame.stream_requests, ← sent_of_logs h, List.take_left]
  obtain ⟨⟨rest, hrest⟩, -, hdecoded⟩ := loops_of_logs h
  rw [hsent, workerLoop_take] at hrest
  have hwritten : log.ran.written <+: responseFraming.stream
      ((Link.runsAsked h).map (RunRequest.response E)) :=
    ⟨rest.written, (congrArg WorkerRun.written hrest).symm⟩
  refine ⟨⟨rest.invoked, (congrArg WorkerRun.invoked hrest).symm⟩, hwritten, ?_⟩
  have hvalid : ∀ r ∈ (Link.runsAsked h).map (RunRequest.response E), responseFraming.valid r := by
    intro r hr
    obtain ⟨request, -, rfl⟩ := List.mem_map.1 hr
    exact request.valid_response E
  refine (hdecoded fun _ => none).1.trans ?_
  rw [List.prefix_iff_eq_take.1 hwritten, readerLoop_take hvalid, (decodes_deliver _ _).decoded]
  exact (Framing.complete_prefix responseFraming _ _).map _

/-! ### The pool -/

section Pool

/-- The ids of the requests that are under way are below `2 ^ 64`. -/
structure State.IdsBounded (s : State P n θ) : Prop where
  nextTaskId_lt : s.nextTaskId < 2 ^ 64
  task_lt : ∀ t x, (s.thread t).task? = some x → x.2.2 < 2 ^ 64

variable [DecidableEq θ] [NeZero n]

theorem State.IdsBounded.step {s s' : State P n θ} {a : Action P n θ} (h : s.IdsBounded)
    (he : Effect s a s') : s'.IdsBounded := by
  have hgo : ∀ (t : θ) (pc : SubmitPc P n), (∀ x, pc.task? = some x → x.2.2 < 2 ^ 64) →
      ∀ u x, (Function.update s.thread t pc u).task? = some x → x.2.2 < 2 ^ 64 := by
    intro t pc hpc u x hx
    rcases eq_or_ne u t with rfl | hne
    · rw [Function.update_self] at hx
      exact hpc x hx
    · rw [Function.update_of_ne hne] at hx
      exact h.task_lt u x hx
  -- a thread keeps the id of its request until it has returned
  have hkeep : ∀ (t : θ) (pc : SubmitPc P n), pc.task? = (s.thread t).task? →
      ∀ u x, (Function.update s.thread t pc u).task? = some x → x.2.2 < 2 ^ 64 :=
    fun t pc hpc => hgo t pc fun x hx => h.task_lt t x (hpc ▸ hx)
  have hidle : ∀ t u x, (Function.update s.thread t .idle u).task? = some x → x.2.2 < 2 ^ 64 :=
    fun t => hgo t .idle fun x hx => by cases hx
  refine ⟨nextTaskId_of_effect h.nextTaskId_lt he, ?_⟩
  cases he with
  | makeState t job ht => exact hgo t _ fun x hx => by cases hx
  | fetchTaskId t job state ht =>
      refine hgo t _ fun x hx => ?_
      obtain rfl := Option.some.inj hx
      exact h.nextTaskId_lt
  | insertPending t job state taskId ht => exact hkeep t _ (by rw [ht]; rfl)
  | refuse t job state taskId ht _ => exact hidle t
  | chooseWorker t job state taskId ht _ => exact hkeep t _ (by rw [ht]; rfl)
  | lockWriteMutex t job state taskId w l ht _ => exact hkeep t _ (by rw [ht]; rfl)
  | writeFails t job state taskId w l ht _ => exact hidle t
  | returnFuture t job state taskId w l ht _ => exact hidle t
  | _ => exact h.task_lt

theorem idsBounded_of_reachable {s : State P n θ} (h : (system P n θ).Reachable s) :
    s.IdsBounded := by
  refine h.invariant ?_ ?_
  · rintro s rfl
    exact ⟨Nat.one_lt_two_pow (by decide), fun t x hx => by cases hx⟩
  · exact fun s a s' _ hI hs => hI.step (effect_of_step hs)

omit [DecidableEq θ] [NeZero n] in
theorem State.IdsBounded.valid {s : State P n θ} {a : Action P n θ} {w : Fin n} {b : LinkAction P θ}
    (h : s.IdsBounded) (hb : a.OnLink s w b) : b.Valid := by
  cases hb with
  | lockWriteMutex t job state taskId ht =>
      intro i hi
      obtain rfl := Option.some.inj hi
      exact h.task_lt t (job, state, taskId) (by rw [ht]; rfl)
  | internal b hb => cases b <;> trivial
  | lockStop => exact fun i hi => by simp [Frame.taskId?] at hi
  | _ => trivial

/-- In a step of the pool the calls end as `E` says, and workers give up only if `deaths`. -/
def Action.Agrees (E : Executors) (deaths : Prop) (s : State P n θ) (a : Action P n θ) : Prop :=
  ∀ w b, a.OnLink s w b → b.Agrees E (s.link w) ∧ (¬ deaths → b.Graceful)

noncomputable instance (s : State P n θ) (a : Action P n θ) : Decidable (a.Agrees E deaths s) :=
  Classical.propDecidable _

/-- The pool, where the functions end their calls as `E` says, and workers give up only if `deaths`. -/
noncomputable def agreeing (P : Program τ) (n : ℕ) (θ : Type*) [DecidableEq θ] [NeZero n]
    (E : Executors) (deaths : Prop) : Automaton (State P n θ) (Action P n θ) :=
  (system P n θ).restrict fun s a => a.Agrees E deaths s

/-- **Every run of the pool has a log on each of its links.** -/
theorem exists_logs {s : State P n θ} (h : (agreeing P n θ E deaths).Reachable s) (w : Fin n) :
    ∃ log, Link.Logs E deaths log (s.link w) := by
  refine Automaton.Reachable.invariant (I := fun s => ∃ log, Link.Logs E deaths log (s.link w)) ?_ ?_ h
  · rintro s rfl
    exact ⟨_, .initial⟩
  · rintro s a s' hr ⟨log, hlog⟩ hs
    obtain ⟨hagrees, hs⟩ := Automaton.restrict_step_eq_some.1 hs
    rcases (effect_of_step hs).link w with hsame | ⟨b, hb, hl⟩
    · exact ⟨log, hsame ▸ hlog⟩
    · obtain ⟨ha, hgraceful⟩ := hagrees w b hb
      have hids := idsBounded_of_reachable (Automaton.Reachable.of_restrict hr)
      exact ⟨_, .step b hlog (hids.valid hb) hl ha hgraceful⟩

end Pool

end ProcessPool
