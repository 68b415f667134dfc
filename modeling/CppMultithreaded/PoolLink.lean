/-
**The link between the process pool and one worker.**

The parent and a worker process are connected by two byte streams.  The parent writes requests under
`write_mutex`; the worker reads them in `WorkerLoop`, runs them, and writes responses; a thread of the
parent reads these in `ReaderLoop`.  Every `read` and `write` moves a chunk of some bytes.  The worker
may die at any step, which closes its ends of the streams.

The link records, besides the state of the program, its history: the requests that have been begun
and not yet taken by the worker, the responses that have been begun and not yet taken by the reader,
the requests completely written, and those taken.  The steps of the program do not look at it.

Main definitions:

* `ProcessPool.WorkerPc`, `ProcessPool.ReaderPc` — the program points of `WorkerLoop` and
  `ReaderLoop`;
* `ProcessPool.Link`, `ProcessPool.LinkAction`, `ProcessPool.Link.step` — a link and its steps;
* `ProcessPool.Link.Framed` — the bytes in flight are those of the frames in flight.

Main results:

* `ProcessPool.Link.Framed.step` — every step keeps the framing;
* `ProcessPool.Link.Framed.of_execute` — **what a worker runs is the first request in flight**;
* `ProcessPool.Link.Framed.of_lookup` — **what a reader looks up is the first response in flight**;
* `ProcessPool.Link.Framed.of_ended` — a reader that sees the end of the stream has taken every
  response, unless some of them were lost.
-/

import CppMultithreaded.PoolMessage

set_option relaxedAutoImplicit false
set_option autoImplicit false

namespace ProcessPool

variable {τ θ : Type*} {P : Program τ}

/-! ### Program points -/

/-- The program points of `WorkerLoop`. -/
inductive WorkerPc
  /-- In the `ReadExact` of a header, with the bytes it has got. -/
  | readHeader (got : List UInt8)
  /-- In the `ReadExact` of a payload, with the header and the bytes it has got. -/
  | readPayload (header got : List UInt8)
  /-- About to call the executor. -/
  | execute (header payload : List UInt8)
  /-- In a `WriteExact`, with the buffers that are left. -/
  | respond (todo : List (List UInt8))
  /-- Has left the loop, about to close the request stream. -/
  | closeRequest
  /-- About to close the response stream. -/
  | closeResponse
  /-- About to exit. -/
  | exit
  /-- The process does not exist any more. -/
  | gone

/-- The program points of `ReaderLoop`. -/
inductive ReaderPc
  /-- In the `ReadExact` of a header, with the bytes it has got. -/
  | readHeader (got : List UInt8)
  /-- In the `ReadExact` of a payload, with the header and the bytes it has got. -/
  | readPayload (header got : List UInt8)
  /-- About to look up the pending handler. -/
  | lookup (header payload : List UInt8)
  /-- Has taken the pending handler of a task out of the map, and is about to call it. -/
  | complete (header payload : List UInt8) (taskId : ℕ) (pending : Pending)
  /-- The thread has ended. -/
  | ended

/-- The worker has its end of the request stream open. -/
def WorkerPc.requestOpen : WorkerPc → Bool
  | .closeResponse | .exit | .gone => false
  | _ => true

/-- The worker has its end of the response stream open. -/
def WorkerPc.responseOpen : WorkerPc → Bool
  | .exit | .gone => false
  | _ => true

/-- The program point after the header of a request. -/
def WorkerPc.afterHeader (bytes : List UInt8) : WorkerPc :=
  let header := TaskHeader.ofBytes bytes
  if header.command = Command.stop.code then .closeRequest
  else if header.payloadSize = 0 then .execute bytes []
  else .readPayload bytes []

/-- The number of bytes that the worker asks for. -/
def WorkerPc.wants : WorkerPc → ℕ
  | .readHeader got => taskHeaderSize - got.length
  | .readPayload header got => (TaskHeader.ofBytes header).payloadSize - got.length
  | _ => 0

/-- The worker gets some of the bytes that it asks for. -/
def WorkerPc.receive (chunk : List UInt8) : WorkerPc → WorkerPc
  | .readHeader got =>
      if (got ++ chunk).length = taskHeaderSize then .afterHeader (got ++ chunk)
      else .readHeader (got ++ chunk)
  | .readPayload header got =>
      if (got ++ chunk).length = (TaskHeader.ofBytes header).payloadSize then
        .execute header (got ++ chunk)
      else .readPayload header (got ++ chunk)
  | p => p

/-- The program point after the header of a response. -/
def ReaderPc.afterHeader (bytes : List UInt8) : ReaderPc :=
  if (ResultHeader.ofBytes bytes).payloadSize = 0 then .lookup bytes [] else .readPayload bytes []

/-- The number of bytes that the reader asks for. -/
def ReaderPc.wants : ReaderPc → ℕ
  | .readHeader got => resultHeaderSize - got.length
  | .readPayload header got => (ResultHeader.ofBytes header).payloadSize - got.length
  | _ => 0

/-- The reader gets some of the bytes that it asks for. -/
def ReaderPc.receive (chunk : List UInt8) : ReaderPc → ReaderPc
  | .readHeader got =>
      if (got ++ chunk).length = resultHeaderSize then .afterHeader (got ++ chunk)
      else .readHeader (got ++ chunk)
  | .readPayload header got =>
      if (got ++ chunk).length = (ResultHeader.ofBytes header).payloadSize then
        .lookup header (got ++ chunk)
      else .readPayload header (got ++ chunk)
  | p => p

/-- The program points after the loop. -/
def WorkerPc.next : WorkerPc → Option WorkerPc
  | .closeRequest => some .closeResponse
  | .closeResponse => some .exit
  | .exit => some .gone
  | _ => none

/-- The bytes that the worker has still to write. -/
def WorkerPc.unsent : WorkerPc → List UInt8
  | .respond todo => todo.flatten
  | _ => []

/-! ### Links -/

/-- Who holds `write_mutex`. -/
inductive Owner (θ : Type*)
  | submit (t : θ)
  | shutdown
  deriving DecidableEq

/-- The link to one worker. -/
structure Link (P : Program τ) (θ : Type*) where
  /-- The descriptors of the parent are open. -/
  requestFd : Bool
  responseFd : Bool
  /-- The holder of `write_mutex`, the request it writes, and the buffers that are left. -/
  writeMutex : Option (Owner θ × Frame P × List (List UInt8))
  /-- The bytes in the streams. -/
  request : List UInt8
  response : List UInt8
  worker : WorkerPc
  reader : ReaderPc
  /-- The requests begun and not taken, and the bytes of them that will never be written. -/
  requests : List (Frame P)
  dropped : List UInt8
  /-- The responses begun and not taken, and the bytes of them that will never be written. -/
  responses : List Response
  lost : List UInt8
  /-- The requests completely written, and the requests taken by the worker. -/
  written : List (Frame P)
  taken : List (Frame P)

/-- A link after `SpawnWorker`. -/
def Link.initial : Link P θ :=
  { requestFd := true, responseFd := true, writeMutex := none, request := [], response := []
    worker := .readHeader [], reader := .readHeader [], requests := [], dropped := []
    responses := [], lost := [], written := [], taken := [] }

/-- The steps of a link.  A worker may `die` at any point, and it may `crash` while it runs a
request. -/
inductive LinkAction (P : Program τ) (θ : Type*)
  | lock (o : Owner θ) (f : Frame P)
  | write (o : Owner θ) (k : ℕ)
  | writeFails (o : Owner θ)
  | unlock (o : Owner θ)
  | readRequest (k : ℕ)
  | requestEof
  | execute (outcome : Outcome)
  | crash
  | writeResponse (k : ℕ)
  | responseFails
  | leave
  | die
  | readResponse (k : ℕ)
  | responseEof
  | lookup (found : Option Pending)
  | complete
  | closeRequestFd
  | closeResponseFd

/-- The bytes that the holder of `write_mutex` has still to write. -/
def Link.unsent (l : Link P θ) : List UInt8 :=
  match l.writeMutex with
  | some (_, _, todo) => todo.flatten
  | none => []

/-- A write of the parent succeeds: its descriptor and the peer are open. -/
def Link.writable (l : Link P θ) : Bool := l.requestFd && l.worker.requestOpen

/-- The worker takes the first request. -/
def Link.take (l : Link P θ) : Link P θ :=
  { l with requests := l.requests.tail, taken := l.taken ++ l.requests.head?.toList }

/-- The worker dies. -/
def Link.kill (l : Link P θ) : Link P θ :=
  { l with worker := .gone, lost := l.worker.unsent ++ l.lost }

/-- The worker has run a request, and begins to write the response. -/
def Link.reply (l : Link P θ) (r : Response) : Link P θ :=
  { l.take with
    worker := .respond (buffers r.resultHeader.bytes r.payload)
    responses := l.responses ++ [r] }

/-- The response of the executor `t` to a request. -/
def answer (P : Program τ) (t : τ) (header payload : List UInt8) (outcome : Outcome) : Response :=
  respond (TaskHeader.ofBytes header).taskId (executeTyped (P.argSizes t) payload outcome)

/-- The worker calls the executor that the header names; there has to be one. -/
def Link.execute (l : Link P θ) (header payload : List UInt8) (outcome : Outcome) :
    Option (Link P θ) :=
  match P.executorAt (TaskHeader.ofBytes header).executor with
  | none => some l.kill
  | some t =>
      if outcome.Fits (P.resultSize t) then some (l.reply (answer P t header payload outcome))
      else none

/-- What a call does: the worker dies where there is no executor, and else begins to write its answer. -/
theorem Link.execute_cases {l l' : Link P θ} {header payload : List UInt8} {outcome : Outcome}
    (h : l.execute header payload outcome = some l') :
    l' = l.kill ∨ ∃ t, P.executorAt (TaskHeader.ofBytes header).executor = some t ∧
      outcome.Fits (P.resultSize t) ∧ l' = l.reply (answer P t header payload outcome) := by
  rw [execute] at h
  cases hexecutor : P.executorAt (TaskHeader.ofBytes header).executor with
  | none =>
      rw [hexecutor] at h
      exact .inl (Option.some.inj h).symm
  | some t =>
      rw [hexecutor] at h
      obtain ⟨hfits, heq⟩ := Option.ite_none_right_eq_some.1 h
      exact .inr ⟨t, rfl, hfits, (Option.some.inj heq).symm⟩

variable [DecidableEq θ]

/-- The step function of a link. -/
def Link.step (l : Link P θ) : LinkAction P θ → Option (Link P θ)
  | .lock o f =>
      match l.writeMutex with
      | none =>
          some { l with
            writeMutex := some (o, f, buffers f.taskHeader.bytes f.payload)
            requests := l.requests ++ [f] }
      | some _ => none
  | .write o k =>
      match l.writeMutex with
      | some (o', f, todo) =>
          if o' = o ∧ l.writable = true then
            (Framing.writeSome k todo).map fun (chunk, todo') =>
              { l with
                writeMutex := some (o, f, todo')
                request := l.request ++ chunk
                written := if todo' = [] then l.written ++ [f] else l.written }
          else none
      | none => none
  | .writeFails o =>
      match l.writeMutex with
      | some (o', _, buffer :: rest) =>
          if o' = o ∧ l.writable = false then
            some { l with
              writeMutex := none
              dropped := l.dropped ++ (buffer :: rest).flatten }
          else none
      | _ => none
  | .unlock o =>
      match l.writeMutex with
      | some (o', _, []) => if o' = o then some { l with writeMutex := none } else none
      | _ => none
  | .readRequest k =>
      if 0 < k ∧ k ≤ l.request.length ∧ k ≤ l.worker.wants then
        let l' := { l with
          worker := l.worker.receive (l.request.take k)
          request := l.request.drop k }
        match l'.worker with
        | .closeRequest => some l'.take
        | _ => some l'
      else none
  | .requestEof =>
      if 0 < l.worker.wants ∧ l.request = [] ∧ l.requestFd = false then
        some { l with worker := .closeRequest }
      else none
  | .execute outcome =>
      match l.worker with
      | .execute header payload => l.execute header payload outcome
      | _ => none
  | .crash =>
      match l.worker with
      | .execute _ _ => some l.kill.take
      | _ => none
  | .writeResponse k =>
      match l.worker with
      | .respond todo =>
          (Framing.writeSome k todo).map fun (chunk, todo') =>
            { l with
              response := l.response ++ chunk
              worker := if todo' = [] then .readHeader [] else .respond todo' }
      | _ => none
  | .responseFails =>
      match l.worker with
      | .respond todo =>
          if l.responseFd = false then
            some { l with worker := .closeRequest, lost := todo.flatten ++ l.lost }
          else none
      | _ => none
  | .leave => l.worker.next.map fun p => { l with worker := p }
  | .die => some l.kill
  | .readResponse k =>
      if 0 < k ∧ k ≤ l.response.length ∧ k ≤ l.reader.wants then
        some { l with
          reader := l.reader.receive (l.response.take k)
          response := l.response.drop k }
      else none
  | .responseEof =>
      if 0 < l.reader.wants ∧ l.response = [] ∧ l.worker.responseOpen = false then
        some { l with reader := .ended }
      else none
  | .lookup found =>
      match l.reader with
      | .lookup header payload =>
          match found with
          | none => some { l with reader := .readHeader [], responses := l.responses.tail }
          | some pending =>
              some { l with
                reader := .complete header payload (ResultHeader.ofBytes header).taskId pending
                responses := l.responses.tail }
      | _ => none
  | .complete =>
      match l.reader with
      | .complete _ _ _ _ => some { l with reader := .readHeader [] }
      | _ => none
  | .closeRequestFd => some { l with requestFd := false }
  | .closeResponseFd => some { l with responseFd := false }

/-! ### What a step can do -/

/-- The effects of a step of a link, one constructor for each. -/
inductive LinkEffect (l : Link P θ) : LinkAction P θ → Link P θ → Prop
  | lock (o : Owner θ) (f : Frame P) : l.writeMutex = none →
      LinkEffect l (.lock o f) { l with
        writeMutex := some (o, f, buffers f.taskHeader.bytes f.payload)
        requests := l.requests ++ [f] }
  | write (o : Owner θ) (k : ℕ) (f : Frame P) (todo todo' : List (List UInt8))
      (chunk : List UInt8) : l.writeMutex = some (o, f, todo) → l.writable = true →
      Framing.writeSome k todo = some (chunk, todo') →
      LinkEffect l (.write o k) { l with
        writeMutex := some (o, f, todo')
        request := l.request ++ chunk
        written := if todo' = [] then l.written ++ [f] else l.written }
  | writeFails (o : Owner θ) (f : Frame P) (todo : List (List UInt8)) :
      l.writeMutex = some (o, f, todo) → todo ≠ [] → l.writable = false →
      LinkEffect l (.writeFails o) { l with
        writeMutex := none
        dropped := l.dropped ++ todo.flatten }
  | unlock (o : Owner θ) (f : Frame P) : l.writeMutex = some (o, f, []) →
      LinkEffect l (.unlock o) { l with writeMutex := none }
  | readStop (k : ℕ) : 0 < k → k ≤ l.worker.wants →
      l.worker.receive (l.request.take k) = .closeRequest →
      LinkEffect l (.readRequest k)
        (Link.take { l with worker := .closeRequest, request := l.request.drop k })
  | readRequest (k : ℕ) : 0 < k → k ≤ l.worker.wants →
      l.worker.receive (l.request.take k) ≠ .closeRequest →
      LinkEffect l (.readRequest k) { l with
        worker := l.worker.receive (l.request.take k)
        request := l.request.drop k }
  | requestEof : 0 < l.worker.wants → l.request = [] → l.requestFd = false →
      LinkEffect l .requestEof { l with worker := .closeRequest }
  | execute (outcome : Outcome) (header payload : List UInt8) (l' : Link P θ) :
      l.worker = .execute header payload → l.execute header payload outcome = some l' →
      LinkEffect l (.execute outcome) l'
  | crash (header payload : List UInt8) : l.worker = .execute header payload →
      LinkEffect l .crash l.kill.take
  | writeResponse (k : ℕ) (todo todo' : List (List UInt8)) (chunk : List UInt8) :
      l.worker = .respond todo → Framing.writeSome k todo = some (chunk, todo') →
      LinkEffect l (.writeResponse k) { l with
        response := l.response ++ chunk
        worker := if todo' = [] then .readHeader [] else .respond todo' }
  | responseFails (todo : List (List UInt8)) : l.worker = .respond todo → l.responseFd = false →
      LinkEffect l .responseFails
        { l with worker := .closeRequest, lost := todo.flatten ++ l.lost }
  | leave (p : WorkerPc) : l.worker.next = some p → LinkEffect l .leave { l with worker := p }
  | die : LinkEffect l .die l.kill
  | readResponse (k : ℕ) : 0 < k → k ≤ l.reader.wants →
      LinkEffect l (.readResponse k) { l with
        reader := l.reader.receive (l.response.take k)
        response := l.response.drop k }
  | responseEof : 0 < l.reader.wants → l.response = [] → l.worker.responseOpen = false →
      LinkEffect l .responseEof { l with reader := .ended }
  | lookupNone (header payload : List UInt8) : l.reader = .lookup header payload →
      LinkEffect l (.lookup none)
        { l with reader := .readHeader [], responses := l.responses.tail }
  | lookupSome (header payload : List UInt8) (pending : Pending) :
      l.reader = .lookup header payload →
      LinkEffect l (.lookup (some pending)) { l with
        reader := .complete header payload (ResultHeader.ofBytes header).taskId pending
        responses := l.responses.tail }
  | complete (header payload : List UInt8) (taskId : ℕ) (pending : Pending) :
      l.reader = .complete header payload taskId pending →
      LinkEffect l .complete { l with reader := .readHeader [] }
  | closeRequestFd : LinkEffect l .closeRequestFd { l with requestFd := false }
  | closeResponseFd : LinkEffect l .closeResponseFd { l with responseFd := false }

/-- **Inversion of the step function of a link.** -/
theorem effect_of_linkStep {l l' : Link P θ} {a : LinkAction P θ} (h : l.step a = some l') :
    LinkEffect l a l' := by
  cases a with
  | lock o f =>
      cases hm : l.writeMutex with
      | none =>
          simp only [Link.step, hm, Option.some.injEq] at h
          subst h
          exact LinkEffect.lock o f hm
      | some _ => simp [Link.step, hm] at h
  | write o k =>
      cases hm : l.writeMutex with
      | none => simp [Link.step, hm] at h
      | some m =>
          obtain ⟨o', f, todo⟩ := m
          simp only [Link.step, hm, Option.ite_none_right_eq_some] at h
          obtain ⟨⟨rfl, hw⟩, h⟩ := h
          obtain ⟨⟨chunk, todo'⟩, hsome, rfl⟩ := Option.map_eq_some_iff.1 h
          exact LinkEffect.write o' k f todo todo' chunk hm hw hsome
  | writeFails o =>
      cases hm : l.writeMutex with
      | none => simp [Link.step, hm] at h
      | some m =>
          obtain ⟨o', f, todo⟩ := m
          cases todo with
          | nil => simp [Link.step, hm] at h
          | cons buffer rest =>
              simp only [Link.step, hm, Option.ite_none_right_eq_some, Option.some.injEq] at h
              obtain ⟨⟨rfl, hw⟩, rfl⟩ := h
              exact LinkEffect.writeFails o' f (buffer :: rest) hm (List.cons_ne_nil _ _) hw
  | unlock o =>
      cases hm : l.writeMutex with
      | none => simp [Link.step, hm] at h
      | some m =>
          obtain ⟨o', f, todo⟩ := m
          cases todo with
          | nil =>
              simp only [Link.step, hm, Option.ite_none_right_eq_some, Option.some.injEq] at h
              obtain ⟨rfl, rfl⟩ := h
              exact LinkEffect.unlock o' f hm
          | cons buffer rest => simp [Link.step, hm] at h
  | readRequest k =>
      simp only [Link.step, Option.ite_none_right_eq_some] at h
      obtain ⟨⟨hpos, -, hwants⟩, h⟩ := h
      cases hp : l.worker.receive (l.request.take k) with
      | closeRequest =>
          simp only [hp, Option.some.injEq] at h
          subst h
          exact LinkEffect.readStop k hpos hwants hp
      | _ =>
          simp only [hp, Option.some.injEq] at h
          rw [← h, ← hp]
          exact LinkEffect.readRequest k hpos hwants (by rw [hp]; simp)
  | requestEof =>
      simp only [Link.step, Option.ite_none_right_eq_some, Option.some.injEq] at h
      obtain ⟨⟨hwants, hempty, hfd⟩, rfl⟩ := h
      exact LinkEffect.requestEof hwants hempty hfd
  | execute outcome =>
      cases hp : l.worker with
      | execute header payload =>
          simp only [Link.step, hp] at h
          exact LinkEffect.execute outcome header payload l' hp h
      | _ => simp [Link.step, hp] at h
  | crash =>
      cases hp : l.worker with
      | execute header payload =>
          simp only [Link.step, hp, Option.some.injEq] at h
          subst h
          exact LinkEffect.crash header payload hp
      | _ => simp [Link.step, hp] at h
  | writeResponse k =>
      cases hp : l.worker with
      | respond todo =>
          simp only [Link.step, hp] at h
          obtain ⟨⟨chunk, todo'⟩, hsome, rfl⟩ := Option.map_eq_some_iff.1 h
          exact LinkEffect.writeResponse k todo todo' chunk hp hsome
      | _ => simp [Link.step, hp] at h
  | responseFails =>
      cases hp : l.worker with
      | respond todo =>
          simp only [Link.step, hp, Option.ite_none_right_eq_some, Option.some.injEq] at h
          obtain ⟨hfd, rfl⟩ := h
          exact LinkEffect.responseFails todo hp hfd
      | _ => simp [Link.step, hp] at h
  | leave =>
      obtain ⟨p, hp, rfl⟩ := Option.map_eq_some_iff.1 h
      exact LinkEffect.leave p hp
  | die =>
      rw [← Option.some.inj h]
      exact LinkEffect.die
  | readResponse k =>
      simp only [Link.step, Option.ite_none_right_eq_some, Option.some.injEq] at h
      obtain ⟨⟨hpos, -, hwants⟩, rfl⟩ := h
      exact LinkEffect.readResponse k hpos hwants
  | responseEof =>
      simp only [Link.step, Option.ite_none_right_eq_some, Option.some.injEq] at h
      obtain ⟨⟨hwants, hempty, hclosed⟩, rfl⟩ := h
      exact LinkEffect.responseEof hwants hempty hclosed
  | lookup found =>
      cases hp : l.reader with
      | lookup header payload =>
          cases found with
          | none =>
              simp only [Link.step, hp, Option.some.injEq] at h
              subst h
              exact LinkEffect.lookupNone header payload hp
          | some pending =>
              simp only [Link.step, hp, Option.some.injEq] at h
              subst h
              exact LinkEffect.lookupSome header payload pending hp
      | _ => simp [Link.step, hp] at h
  | complete =>
      cases hp : l.reader with
      | complete header payload taskId pending =>
          simp only [Link.step, hp, Option.some.injEq] at h
          subst h
          exact LinkEffect.complete header payload taskId pending hp
      | _ => simp [Link.step, hp] at h
  | closeRequestFd =>
      rw [← Option.some.inj h]
      exact LinkEffect.closeRequestFd
  | closeResponseFd =>
      rw [← Option.some.inj h]
      exact LinkEffect.closeResponseFd

omit [DecidableEq θ] in
/-- A reader that has ended stays so. -/
theorem ended_of_effect {l l' : Link P θ} {a : LinkAction P θ} (h : l.reader = .ended)
    (he : LinkEffect l a l') : l'.reader = .ended := by
  cases he with
  | execute outcome header payload _ hw hexec =>
      obtain rfl | ⟨t, -, -, rfl⟩ := Link.execute_cases hexec
      · exact h
      · exact h
  | readResponse k hpos hwants =>
      rw [h] at hwants
      simp only [ReaderPc.wants] at hwants
      omega
  | responseEof _ _ _ => rfl
  | lookupNone header payload hr => simp [h] at hr
  | lookupSome header payload pending hr => simp [h] at hr
  | complete header payload taskId pending hr => simp [h] at hr
  | _ => exact h

/-! ### The framing -/

/-- The bytes that the worker has of the first request in flight, while it is in its loop. -/
def WorkerPc.got : WorkerPc → Option (List UInt8)
  | .readHeader got => some got
  | .readPayload header got => some (header ++ got)
  | .execute header payload => some (header ++ payload)
  | .respond _ => some []
  | _ => none

/-- The bytes that the reader has of the first response in flight, while it is in its loop. -/
def ReaderPc.got : ReaderPc → Option (List UInt8)
  | .readHeader got => some got
  | .readPayload header got => some (header ++ got)
  | .lookup header payload => some (header ++ payload)
  | .complete _ _ _ _ => some []
  | .ended => none

/-- The sizes of what the worker has got. -/
def WorkerPc.Sized : WorkerPc → Prop
  | .readHeader got => got.length < taskHeaderSize
  | .readPayload header got =>
      header.length = taskHeaderSize ∧ (TaskHeader.ofBytes header).command ≠ Command.stop.code ∧
        got.length < (TaskHeader.ofBytes header).payloadSize
  | .execute header payload =>
      header.length = taskHeaderSize ∧ (TaskHeader.ofBytes header).command ≠ Command.stop.code ∧
        payload.length = (TaskHeader.ofBytes header).payloadSize
  | _ => True

/-- The sizes of what the reader has got. -/
def ReaderPc.Sized : ReaderPc → Prop
  | .readHeader got => got.length < resultHeaderSize
  | .readPayload header got =>
      header.length = resultHeaderSize ∧ got.length < (ResultHeader.ofBytes header).payloadSize
  | .lookup header payload =>
      header.length = resultHeaderSize ∧ payload.length = (ResultHeader.ofBytes header).payloadSize
  | _ => True

/-- **The bytes in flight are those of the frames in flight**, in both directions. -/
structure Link.Framed (l : Link P θ) : Prop where
  requestsValid : ∀ f ∈ l.requests, (requestFraming P).valid f
  responsesValid : ∀ r ∈ l.responses, responseFraming.valid r
  request : ∀ got, l.worker.got = some got →
    got ++ (l.request ++ (l.dropped ++ l.unsent)) = (requestFraming P).stream l.requests
  response : ∀ got, l.reader.got = some got →
    got ++ (l.response ++ (l.worker.unsent ++ l.lost)) = responseFraming.stream l.responses
  workerSized : l.worker.Sized
  readerSized : l.reader.Sized
  /-- Nothing is written to the request stream after some bytes have been dropped. -/
  dropped : l.writable = true → l.dropped = []
  /-- Nothing of a response is lost while the worker is in its loop. -/
  lost : l.worker.got.isSome = true → l.lost = []

/-- The request that is begun has a header that can be represented. -/
def LinkAction.Valid : LinkAction P θ → Prop
  | .lock _ f => (requestFraming P).valid f
  | _ => True

namespace Link.Framed

variable {l l' : Link P θ}

omit [DecidableEq θ] in
/-- **What a worker runs is the first request in flight.** -/
theorem of_execute (h : l.Framed) {header payload : List UInt8}
    (hw : l.worker = .execute header payload) :
    ∃ taskId job rest, l.requests = Frame.run taskId job :: rest ∧ taskId < 2 ^ 64 ∧
      TaskHeader.ofBytes header = (Frame.run taskId job).taskHeader ∧ payload = job.payload ∧
      l.request ++ (l.dropped ++ l.unsent) = (requestFraming P).stream rest := by
  have hsized := h.workerSized
  rw [hw] at hsized
  obtain ⟨hheader, hcommand, hpayload⟩ := hsized
  obtain ⟨f, rest, hrequests, rfl, hpay, hrest⟩ :=
    Framing.stream_frame h.requestsValid (h.request _ (by rw [hw]; rfl)) hheader hpayload
  have hvalid := h.requestsValid f (by rw [hrequests]; exact List.mem_cons_self)
  have hround := Frame.ofBytes_taskHeader hvalid
  cases f with
  | run taskId job => exact ⟨taskId, job, rest, hrequests, hvalid taskId rfl, hround, hpay, hrest⟩
  | stop =>
      refine absurd ?_ hcommand
      exact congrArg TaskHeader.command hround

omit [DecidableEq θ] in
/-- What a worker leaves its loop for is the first request in flight. -/
theorem of_stop (h : l.Framed) {got rest : List UInt8} (hlen : got.length = taskHeaderSize)
    (hgot : got ++ rest = (requestFraming P).stream l.requests)
    (hcommand : (TaskHeader.ofBytes got).command = Command.stop.code) :
    ∃ rest, l.requests = Frame.stop :: rest := by
  obtain ⟨f, rest, hrequests, rfl, -⟩ := Framing.stream_header hgot hlen
  have hvalid := h.requestsValid f (by rw [hrequests]; exact List.mem_cons_self)
  cases f with
  | run taskId job =>
      rw [show TaskHeader.ofBytes ((requestFraming P).header (Frame.run taskId job)) =
        (Frame.run taskId job).taskHeader from Frame.ofBytes_taskHeader hvalid] at hcommand
      simp [Frame.taskHeader, Command.code] at hcommand
  | stop => exact ⟨rest, hrequests⟩

omit [DecidableEq θ] in
/-- **What a reader looks up is the first response in flight.** -/
theorem of_lookup (h : l.Framed) {header payload : List UInt8}
    (hr : l.reader = .lookup header payload) :
    ∃ r rest, l.responses = r :: rest ∧ ResultHeader.ofBytes header = r.resultHeader ∧
      payload = r.payload ∧
      l.response ++ (l.worker.unsent ++ l.lost) = responseFraming.stream rest := by
  have hsized := h.readerSized
  rw [hr] at hsized
  obtain ⟨hheader, hpayload⟩ := hsized
  obtain ⟨r, rest, hresponses, rfl, hpay, hrest⟩ :=
    Framing.stream_frame h.responsesValid (h.response _ (by rw [hr]; rfl)) hheader hpayload
  have hvalid := h.responsesValid r (by rw [hresponses]; exact List.mem_cons_self)
  exact ⟨r, rest, hresponses, Response.ofBytes_resultHeader hvalid, hpay, hrest⟩

omit [DecidableEq θ] in
/-- A reader that sees the end of the stream has taken every response, unless some of them were
lost. -/
theorem of_ended (h : l.Framed) (hwants : 0 < l.reader.wants) (hempty : l.response = [])
    (hclosed : l.worker.responseOpen = false) (hlost : l.lost = []) : l.responses = [] := by
  have hunsent : l.worker.unsent = [] := by
    cases hw : l.worker <;> simp [hw, WorkerPc.responseOpen, WorkerPc.unsent] at hclosed ⊢
  have hstream := h.response
  have hsized := h.readerSized
  rw [hempty, hunsent, hlost] at hstream
  cases hr : l.reader with
  | readHeader got =>
      rw [hr] at hsized hstream
      have heq := hstream got rfl
      rw [List.append_nil, List.append_nil, List.append_nil] at heq
      exact Framing.stream_incomplete heq hsized
  | readPayload header got =>
      rw [hr] at hsized hstream
      obtain ⟨hheader, hgot⟩ := hsized
      have heq := hstream (header ++ got) rfl
      rw [List.append_nil, List.append_nil, List.append_nil] at heq
      have hle := Framing.stream_incomplete_payload h.responsesValid heq hheader
      exact absurd hgot (not_lt.2 hle)
  | _ => simp [hr, ReaderPc.wants] at hwants

/-! ### Every step keeps the framing -/

omit [DecidableEq θ] in
theorem lock (h : l.Framed) {o : Owner θ} {f : Frame P} (hf : (requestFraming P).valid f)
    (hm : l.writeMutex = none) :
    Framed { l with
      writeMutex := some (o, f, buffers f.taskHeader.bytes f.payload)
      requests := l.requests ++ [f] } := by
  have hunsent : l.unsent = [] := by rw [unsent, hm]
  refine ⟨?_, h.responsesValid, ?_, h.response, h.workerSized, h.readerSized, h.dropped, h.lost⟩
  · intro g hg
    rcases List.mem_append.1 hg with hold | hnew
    · exact h.requestsValid g hold
    · rw [List.mem_singleton.1 hnew]
      exact hf
  · intro got hgot
    have heq := h.request got hgot
    rw [hunsent, List.append_nil] at heq
    rw [Framing.stream_append, ← heq, Framing.stream_singleton]
    simp only [unsent, flatten_buffers, List.append_assoc]
    rfl

omit [DecidableEq θ] in
theorem write (h : l.Framed) {o : Owner θ} {f : Frame P} {todo todo' : List (List UInt8)}
    {chunk : List UInt8} {written : List (Frame P)} (hm : l.writeMutex = some (o, f, todo))
    (hw : l.writable = true) (hchunk : chunk ++ todo'.flatten = todo.flatten) :
    Framed { l with
      writeMutex := some (o, f, todo')
      request := l.request ++ chunk
      written := written } := by
  have hunsent : l.unsent = todo.flatten := by rw [unsent, hm]
  refine ⟨h.requestsValid, h.responsesValid, ?_, h.response, h.workerSized, h.readerSized, h.dropped,
    h.lost⟩
  intro got hgot
  have heq := h.request got hgot
  rw [hunsent, h.dropped hw, List.nil_append, ← hchunk] at heq
  simp only [unsent, h.dropped hw, List.nil_append, List.append_assoc]
  exact heq

omit [DecidableEq θ] in
/-- Giving up a request, or being done with it. -/
theorem unlock (h : l.Framed) {o : Owner θ} {f : Frame P} {todo : List (List UInt8)}
    (hm : l.writeMutex = some (o, f, todo)) (hw : l.writable = false ∨ todo = []) :
    Framed ({ l with writeMutex := none, dropped := l.dropped ++ todo.flatten } : Link P θ) := by
  have hunsent : l.unsent = todo.flatten := by rw [unsent, hm]
  refine ⟨h.requestsValid, h.responsesValid, ?_, h.response, h.workerSized, h.readerSized, ?_, h.lost⟩
  · intro got hgot
    have heq := h.request got hgot
    rw [hunsent] at heq
    simp only [unsent, List.append_nil]
    exact heq
  · intro hwritable
    have hold : l.writable = true := hwritable
    rcases hw with hw | hw
    · rw [hw] at hold
      simp at hold
    · rw [hw, h.dropped hold]
      rfl

omit [DecidableEq θ] in
/-- The worker gets some bytes: it is still in its loop, or it has got the header of a stop
request. -/
theorem receive_worker {p : WorkerPc} {got chunk : List UInt8} (hp : p.got = some got)
    (hs : p.Sized) (hpos : 0 < p.wants) (hle : chunk.length ≤ p.wants) :
    ((p.receive chunk).got = some (got ++ chunk) ∧ (p.receive chunk).Sized ∧
        (p.receive chunk).unsent = []) ∨
      (p.receive chunk = .closeRequest ∧ (got ++ chunk).length = taskHeaderSize ∧
        (TaskHeader.ofBytes (got ++ chunk)).command = Command.stop.code) := by
  cases p with
  | readHeader got' =>
      obtain rfl := Option.some.inj hp
      simp only [WorkerPc.wants] at hle hpos
      simp only [WorkerPc.receive]
      split_ifs with hlen
      · simp only [WorkerPc.afterHeader]
        split_ifs with hcommand hsize
        · exact Or.inr ⟨rfl, hlen, hcommand⟩
        · refine Or.inl ⟨?_, ⟨hlen, hcommand, hsize.symm⟩, rfl⟩
          simp only [WorkerPc.got, List.append_nil]
        · refine Or.inl ⟨?_, ⟨hlen, hcommand, Nat.pos_of_ne_zero hsize⟩, rfl⟩
          simp only [WorkerPc.got, List.append_nil]
      · refine Or.inl ⟨rfl, ?_, rfl⟩
        have hlen' : (got' ++ chunk).length = got'.length + chunk.length := List.length_append
        simp only [WorkerPc.Sized]
        omega
  | readPayload header got' =>
      obtain rfl := Option.some.inj hp
      obtain ⟨hheader, hcommand, -⟩ := hs
      simp only [WorkerPc.wants] at hle hpos
      simp only [WorkerPc.receive]
      split_ifs with hlen
      · refine Or.inl ⟨?_, ⟨hheader, hcommand, hlen⟩, rfl⟩
        simp only [WorkerPc.got, List.append_assoc]
      · refine Or.inl ⟨?_, ⟨hheader, hcommand, ?_⟩, rfl⟩
        · simp only [WorkerPc.got, List.append_assoc]
        · have hlen' : (got' ++ chunk).length = got'.length + chunk.length := List.length_append
          omega
  | _ => simp [WorkerPc.wants] at hpos

omit [DecidableEq θ] in
/-- The reader gets some bytes. -/
theorem receive_reader {p : ReaderPc} {got chunk : List UInt8} (hp : p.got = some got)
    (hs : p.Sized) (hpos : 0 < p.wants) (hle : chunk.length ≤ p.wants) :
    (p.receive chunk).got = some (got ++ chunk) ∧ (p.receive chunk).Sized := by
  cases p with
  | readHeader got' =>
      obtain rfl := Option.some.inj hp
      simp only [ReaderPc.wants] at hle hpos
      simp only [ReaderPc.receive]
      split_ifs with hlen
      · simp only [ReaderPc.afterHeader]
        split_ifs with hsize
        · refine ⟨?_, hlen, hsize.symm⟩
          simp only [ReaderPc.got, List.append_nil]
        · refine ⟨?_, hlen, Nat.pos_of_ne_zero hsize⟩
          simp only [ReaderPc.got, List.append_nil]
      · refine ⟨rfl, ?_⟩
        have hlen' : (got' ++ chunk).length = got'.length + chunk.length := List.length_append
        simp only [ReaderPc.Sized]
        omega
  | readPayload header got' =>
      obtain rfl := Option.some.inj hp
      simp only [ReaderPc.wants] at hle hpos
      simp only [ReaderPc.receive]
      split_ifs with hlen
      · refine ⟨?_, hs.1, hlen⟩
        simp only [ReaderPc.got, List.append_assoc]
      · refine ⟨?_, hs.1, ?_⟩
        · simp only [ReaderPc.got, List.append_assoc]
        · have hlen' : (got' ++ chunk).length = got'.length + chunk.length := List.length_append
          omega
  | _ => simp [ReaderPc.wants] at hpos

omit [DecidableEq θ] in
/-- A worker that asks for bytes is in its loop. -/
theorem got_of_wants {p : WorkerPc} (h : 0 < p.wants) : ∃ got, p.got = some got ∧ p.unsent = [] ∧
    p.requestOpen = true := by
  cases p with
  | readHeader got => exact ⟨got, rfl, rfl, rfl⟩
  | readPayload header got => exact ⟨header ++ got, rfl, rfl, rfl⟩
  | _ => simp [WorkerPc.wants] at h

omit [DecidableEq θ] in
theorem got_of_wants_reader {p : ReaderPc} (h : 0 < p.wants) : ∃ got, p.got = some got := by
  cases p with
  | readHeader got => exact ⟨got, rfl⟩
  | readPayload header got => exact ⟨header ++ got, rfl⟩
  | _ => simp [ReaderPc.wants] at h

omit [DecidableEq θ] in
/-- The worker leaves its loop, or goes on leaving. -/
theorem leave (h : l.Framed) {p : WorkerPc} {lost : List UInt8} (hgot : p.got = none)
    (hunsent : p.unsent = []) (hopen : p.requestOpen = true → l.worker.requestOpen = true)
    (hlost : lost = l.worker.unsent ++ l.lost) : Framed { l with worker := p, lost := lost } := by
  refine ⟨h.requestsValid, h.responsesValid, ?_, ?_, ?_, h.readerSized, ?_, ?_⟩
  · intro got hp
    rw [show p.got = some got from hp] at hgot
    simp at hgot
  · intro got hp
    show got ++ (l.response ++ (p.unsent ++ lost)) = _
    rw [hunsent, hlost, List.nil_append]
    exact h.response got hp
  · cases p <;> trivial
  · intro hw
    refine h.dropped ?_
    simp only [writable, Bool.and_eq_true] at hw ⊢
    exact ⟨hw.1, hopen hw.2⟩
  · intro hp
    rw [show p.got = none from hgot] at hp
    simp at hp

omit [DecidableEq θ] in
theorem readRequest (h : l.Framed) {k : ℕ} (hpos : 0 < k) (hwants : k ≤ l.worker.wants) :
    (∃ rest, l.requests = Frame.stop :: rest ∧
      l.worker.receive (l.request.take k) = .closeRequest) ∨
    ((l.worker.receive (l.request.take k)).got.isSome = true ∧
      Framed { l with
        worker := l.worker.receive (l.request.take k)
        request := l.request.drop k }) := by
  obtain ⟨got, hgot, hunsent, hopen⟩ := got_of_wants (hpos.trans_le hwants)
  have heq := h.request got hgot
  have hlen : (l.request.take k).length ≤ l.worker.wants :=
    (List.length_take_le k _).trans hwants
  rw [← List.take_append_drop k l.request, List.append_assoc, ← List.append_assoc] at heq
  rcases receive_worker hgot h.workerSized (hpos.trans_le hwants) hlen with
    ⟨hgot', hsized, hunsent'⟩ | ⟨hclose, hheader, hcommand⟩
  · refine Or.inr ⟨by rw [hgot']; rfl, h.requestsValid, h.responsesValid, ?_, ?_, hsized,
      h.readerSized, ?_, ?_⟩
    · intro g hg
      rw [show g = got ++ l.request.take k from Option.some.inj (hg.symm.trans hgot')]
      exact heq
    · intro g hg
      have hold := h.response g hg
      rw [hunsent] at hold
      rw [hunsent']
      exact hold
    · intro hw
      refine h.dropped ?_
      simp only [writable, Bool.and_eq_true] at hw ⊢
      exact ⟨hw.1, hopen⟩
    · intro _
      exact h.lost (by rw [hgot]; rfl)
  · obtain ⟨rest, hrest⟩ := h.of_stop hheader heq hcommand
    exact Or.inl ⟨rest, hrest, hclose⟩

omit [DecidableEq θ] in
theorem take (h : l.Framed) (hgot : l.worker.got = none) : l.take.Framed := by
  refine ⟨?_, h.responsesValid, ?_, h.response, h.workerSized, h.readerSized, h.dropped, h.lost⟩
  · intro f hf
    exact h.requestsValid f (List.mem_of_mem_tail hf)
  · intro got hg
    rw [show l.worker.got = some got from hg] at hgot
    simp at hgot

omit [DecidableEq θ] in
/-- Running a request: its executor is known, and its response begins. -/
theorem execute (h : l.Framed) {header payload : List UInt8} {outcome : Outcome}
    (hw : l.worker = .execute header payload) (hs : l.execute header payload outcome = some l') :
    ∃ taskId job rest, l.requests = Frame.run taskId job :: rest ∧
      outcome.Fits (P.resultSize job.type) ∧
      l' = l.reply (respond taskId ⟨some (job.fn, job.args), outcome.output, outcome.error⟩) ∧
      l'.Framed := by
  obtain ⟨taskId, job, rest, hrequests, hid, hheader, rfl, hrest⟩ := h.of_execute hw
  have hexec : (Frame.run taskId job).taskHeader.executor = P.executor job.type := rfl
  have hanswer : answer P job.type header job.payload outcome =
      respond taskId ⟨some (job.fn, job.args), outcome.output, outcome.error⟩ := by
    rw [answer, hheader, executeTyped_payload]
    rfl
  rw [Link.execute, hheader, hexec, P.executorAt_executor] at hs
  simp only [Option.ite_none_right_eq_some, Option.some.injEq, hanswer] at hs
  obtain ⟨hfits, rfl⟩ := hs
  refine ⟨taskId, job, rest, hrequests, hfits, rfl, ?_⟩
  have hsize : ∀ n ∈ P.resultSize job.type, n < 2 ^ 64 := fun n hn =>
    (P.resultSize_lt job.type n hn).2
  have hvalid := valid_respond (e := ⟨some (job.fn, job.args), outcome.output, outcome.error⟩) hid
    (hfits.output_lt hsize) hfits.error_lt
  generalize respond taskId ⟨some (job.fn, job.args), outcome.output, outcome.error⟩ = r at hvalid ⊢
  have hlost := h.lost (by rw [hw]; rfl)
  refine ⟨?_, ?_, ?_, ?_, trivial, h.readerSized, ?_, fun _ => hlost⟩
  · intro f hf
    exact h.requestsValid f (List.mem_of_mem_tail hf)
  · intro r' hr'
    rcases List.mem_append.1 hr' with hold | hnew
    · exact h.responsesValid r' hold
    · rw [List.mem_singleton.1 hnew]
      exact hvalid
  · intro got hgot
    rw [← Option.some.inj hgot]
    show [] ++ (l.request ++ (l.dropped ++ l.unsent)) = (requestFraming P).stream l.requests.tail
    rw [hrequests, List.nil_append]
    exact hrest
  · intro got hgot
    have hold := h.response got hgot
    rw [hw, hlost] at hold
    show got ++ (l.response ++ ((buffers r.resultHeader.bytes r.payload).flatten ++ l.lost)) =
      responseFraming.stream (l.responses ++ [r])
    rw [Framing.stream_append, ← hold, Framing.stream_singleton, flatten_buffers, hlost]
    simp only [WorkerPc.unsent, List.append_nil, List.append_assoc]
    rfl
  · intro hwritable
    refine h.dropped ?_
    simp only [writable, Bool.and_eq_true, hw] at hwritable ⊢
    exact ⟨hwritable.1, rfl⟩

omit [DecidableEq θ] in
theorem writeResponse (h : l.Framed) {todo todo' : List (List UInt8)} {chunk : List UInt8}
    (hw : l.worker = .respond todo) (hchunk : chunk ++ todo'.flatten = todo.flatten) :
    Framed { l with
      response := l.response ++ chunk
      worker := if todo' = [] then .readHeader [] else .respond todo' } := by
  have hunsent : (if todo' = [] then WorkerPc.readHeader [] else .respond todo').unsent =
      todo'.flatten := by
    split_ifs with hnil
    · rw [hnil]
      rfl
    · rfl
  have hgot : (if todo' = [] then WorkerPc.readHeader [] else .respond todo').got = some [] := by
    split_ifs <;> rfl
  refine ⟨h.requestsValid, h.responsesValid, ?_, ?_, ?_, h.readerSized, ?_, ?_⟩
  · intro got hg
    refine h.request got ?_
    rw [hw]
    exact hgot.symm.trans hg
  · intro got hg
    have hold := h.response got hg
    rw [hw, show (WorkerPc.respond todo).unsent = todo.flatten from rfl, ← hchunk] at hold
    rw [hunsent, List.append_assoc, ← hold, List.append_assoc]
  · show WorkerPc.Sized (if todo' = [] then .readHeader [] else .respond todo')
    split_ifs
    · exact (requestFraming P).headerSize_pos
    · trivial
  · intro hwritable
    refine h.dropped ?_
    simp only [writable, Bool.and_eq_true, hw] at hwritable ⊢
    exact ⟨hwritable.1, rfl⟩
  · intro _
    exact h.lost (by rw [hw]; rfl)

omit [DecidableEq θ] in
theorem readResponse (h : l.Framed) {k : ℕ} (hpos : 0 < k) (hwants : k ≤ l.reader.wants) :
    Framed { l with
      reader := l.reader.receive (l.response.take k)
      response := l.response.drop k } := by
  obtain ⟨got, hgot⟩ := got_of_wants_reader (hpos.trans_le hwants)
  have hlen : (l.response.take k).length ≤ l.reader.wants :=
    (List.length_take_le k _).trans hwants
  obtain ⟨hgot', hsized⟩ := receive_reader hgot h.readerSized (hpos.trans_le hwants) hlen
  refine ⟨h.requestsValid, h.responsesValid, h.request, ?_, h.workerSized, hsized, h.dropped, h.lost⟩
  intro g hg
  rw [show g = got ++ l.response.take k from Option.some.inj (hg.symm.trans hgot'),
    ← h.response got hgot, List.append_assoc, ← List.append_assoc (l.response.take k),
    List.take_append_drop]

omit [DecidableEq θ] in
/-- The reader moves on, without taking bytes from the stream. -/
theorem moveReader (h : l.Framed) {p : ReaderPc} {rs : List Response} (hsized : p.Sized)
    (hrs : rs ⊆ l.responses) (hgot : ∀ got, p.got = some got →
      got ++ (l.response ++ (l.worker.unsent ++ l.lost)) = responseFraming.stream rs) :
    Framed { l with reader := p, responses := rs } :=
  ⟨h.requestsValid, fun r hr => h.responsesValid r (hrs hr), h.request, hgot, h.workerSized, hsized,
    h.dropped, h.lost⟩

omit [DecidableEq θ] in
/-- **Every step keeps the framing.** -/
theorem step (h : l.Framed) {a : LinkAction P θ} (ha : a.Valid) (he : LinkEffect l a l') :
    l'.Framed := by
  cases he with
  | lock o f hm => exact h.lock ha hm
  | write o k f todo todo' chunk hm hw hsome => exact h.write hm hw (Framing.flatten_writeSome hsome)
  | writeFails o f todo hm _ hw => exact h.unlock hm (Or.inl hw)
  | unlock o f hm =>
      have hdone := h.unlock hm (Or.inr rfl)
      rw [List.flatten_nil, List.append_nil] at hdone
      exact hdone
  | readStop k hpos hwants hclose =>
      obtain ⟨got, -, hunsent, hopen⟩ := got_of_wants (hpos.trans_le hwants)
      have hleft : Framed { l with worker := .closeRequest, lost := l.lost } :=
        h.leave rfl rfl (fun _ => hopen) (by rw [hunsent, List.nil_append])
      refine take ?_ rfl
      exact ⟨hleft.requestsValid, hleft.responsesValid, by simp [WorkerPc.got], hleft.response, trivial,
        hleft.readerSized, hleft.dropped, hleft.lost⟩
  | readRequest k hpos hwants hloop =>
      rcases h.readRequest hpos hwants with ⟨rest, -, hclose⟩ | ⟨-, hframed⟩
      · exact absurd hclose hloop
      · exact hframed
  | requestEof hwants _ hfd =>
      obtain ⟨got, -, hunsent, hopen⟩ := got_of_wants hwants
      exact h.leave rfl rfl (fun _ => hopen) (by rw [hunsent, List.nil_append])
  | execute outcome header payload l' hw hs =>
      obtain ⟨_, _, _, _, _, _, hframed⟩ := h.execute hw hs
      exact hframed
  | crash header payload hw =>
      exact (h.leave rfl rfl (by simp [WorkerPc.requestOpen]) rfl).take rfl
  | writeResponse k todo todo' chunk hw hsome =>
      exact h.writeResponse hw (Framing.flatten_writeSome hsome)
  | responseFails todo hw hfd =>
      exact h.leave rfl rfl (fun _ => by rw [hw]; rfl) (by rw [hw]; rfl)
  | leave p hp =>
      cases hw : l.worker <;> simp only [hw, WorkerPc.next, reduceCtorEq, Option.some.injEq] at hp
      all_goals
        subst hp
        exact h.leave rfl rfl (by simp [WorkerPc.requestOpen]) (by rw [hw]; rfl)
  | die => exact h.leave rfl rfl (by simp [WorkerPc.requestOpen]) rfl
  | readResponse k hpos hwants => exact h.readResponse hpos hwants
  | responseEof _ _ _ => exact h.moveReader trivial (List.Subset.refl _) (by simp [ReaderPc.got])
  | lookupNone header payload hr =>
      obtain ⟨r, rest, hresponses, -, -, hrest⟩ := h.of_lookup hr
      refine h.moveReader responseFraming.headerSize_pos (fun _ hmem => List.mem_of_mem_tail hmem) ?_
      intro got hgot
      rw [← Option.some.inj hgot, hresponses]
      exact hrest
  | lookupSome header payload pending hr =>
      obtain ⟨r, rest, hresponses, -, -, hrest⟩ := h.of_lookup hr
      refine h.moveReader trivial (fun _ hmem => List.mem_of_mem_tail hmem) ?_
      intro got hgot
      rw [← Option.some.inj hgot, hresponses]
      exact hrest
  | complete header payload taskId pending hr =>
      refine h.moveReader responseFraming.headerSize_pos (List.Subset.refl _) ?_
      intro got hgot
      refine h.response got ?_
      rw [hr]
      exact hgot
  | closeRequestFd =>
      exact ⟨h.requestsValid, h.responsesValid, h.request, h.response, h.workerSized, h.readerSized,
        by simp [writable], h.lost⟩
  | closeResponseFd =>
      exact ⟨h.requestsValid, h.responsesValid, h.request, h.response, h.workerSized, h.readerSized,
        h.dropped, h.lost⟩

omit [DecidableEq θ] in
theorem initial : (Link.initial : Link P θ).Framed := by
  refine ⟨?_, ?_, ?_, ?_, (requestFraming P).headerSize_pos, responseFraming.headerSize_pos, ?_, ?_⟩
  · simp [Link.initial]
  · simp [Link.initial]
  · simp [Link.initial, WorkerPc.got, Link.unsent]
  · simp [Link.initial, ReaderPc.got, WorkerPc.unsent]
  · simp [Link.initial]
  · simp [Link.initial]

end Link.Framed

/-! ### The messages in flight -/

/-- The id and the function of a request for a task. -/
def Frame.task? : Frame P → Option (ℕ × Job P)
  | .run taskId job => some (taskId, job)
  | .stop => none

/-- What a reader that has taken a pending handler out of the map is about to call it with. -/
structure Handler where
  taskId : ℕ
  pending : Pending
  status : ℕ
  payload : List UInt8
  deriving DecidableEq

/-- The tasks in flight to the worker. -/
def Link.runs (l : Link P θ) : List (ℕ × Job P) := l.requests.filterMap Frame.task?

/-- The tasks that the worker has taken. -/
def Link.takenRuns (l : Link P θ) : List (ℕ × Job P) := l.taken.filterMap Frame.task?

/-- The call that the reader is about to make. -/
def Link.handler (l : Link P θ) : Option Handler :=
  match l.reader with
  | .complete header payload taskId pending =>
      some ⟨taskId, pending, (ResultHeader.ofBytes header).status, payload⟩
  | _ => none

/-- The steps of a link that move bytes, or end a process or a thread. -/
def LinkAction.internal : LinkAction P θ → Bool
  | .write _ _ | .readRequest _ | .requestEof | .writeResponse _ | .responseFails | .leave | .die
  | .readResponse _ | .responseEof => true
  | _ => false

/-- The links have the same messages in flight. -/
structure Link.Same (l l' : Link P θ) : Prop where
  runs : l'.runs = l.runs
  takenRuns : l'.takenRuns = l.takenRuns
  responses : l'.responses = l.responses
  handler : l'.handler = l.handler

namespace Link

variable {l l' : Link P θ}

omit [DecidableEq θ] in
/-- A reader that gets some bytes has no handler, before and after. -/
theorem handler_receive {p : ReaderPc} (chunk : List UInt8) (h : 0 < p.wants) :
    (∀ header payload taskId pending, p ≠ .complete header payload taskId pending) ∧
      ∀ header payload taskId pending, p.receive chunk ≠ .complete header payload taskId pending := by
  cases p with
  | readHeader got =>
      refine ⟨by simp, ?_⟩
      intro header payload taskId pending
      simp only [ReaderPc.receive, ReaderPc.afterHeader]
      split_ifs <;> simp
  | readPayload header got =>
      refine ⟨by simp, ?_⟩
      intro header payload taskId pending
      simp only [ReaderPc.receive]
      split_ifs <;> simp
  | _ => simp [ReaderPc.wants] at h

omit [DecidableEq θ] in
theorem handler_eq_none (h : ∀ header payload taskId pending,
    l.reader ≠ .complete header payload taskId pending) : l.handler = none := by
  cases hr : l.reader with
  | complete header payload taskId pending => exact absurd hr (h header payload taskId pending)
  | _ => simp [handler, hr]

omit [DecidableEq θ] in
/-- **The internal steps of a link keep the messages in flight**, except that the worker may take a
stop request. -/
theorem same_of_internal (h : l.Framed) {a : LinkAction P θ} (ha : a.internal = true)
    (he : LinkEffect l a l') : l.Same l' := by
  cases he with
  | readStop k hpos hwants hclose =>
      rcases h.readRequest hpos hwants with ⟨rest, hrest, -⟩ | ⟨hgot, -⟩
      · refine ⟨?_, ?_, rfl, rfl⟩
        · simp only [runs, take, hrest, List.tail_cons, List.filterMap_cons, Frame.task?]
        · simp only [takenRuns, take, hrest, List.head?_cons, Option.toList_some,
            List.filterMap_append, List.filterMap_cons, Frame.task?, List.filterMap_nil,
            List.append_nil]
      · rw [hclose] at hgot
        simp [WorkerPc.got] at hgot
  | readResponse k hpos hwants =>
      obtain ⟨hbefore, hafter⟩ :=
        handler_receive (l.response.take k) (hpos.trans_le hwants)
      refine ⟨rfl, rfl, rfl, ?_⟩
      rw [handler_eq_none hbefore, handler_eq_none hafter]
  | responseEof hwants _ _ =>
      obtain ⟨hbefore, -⟩ := handler_receive [] hwants
      refine ⟨rfl, rfl, rfl, ?_⟩
      rw [handler_eq_none hbefore]
      rfl
  | write o k f todo todo' chunk _ _ _ => exact ⟨rfl, rfl, rfl, rfl⟩
  | readRequest k _ _ _ => exact ⟨rfl, rfl, rfl, rfl⟩
  | requestEof _ _ _ => exact ⟨rfl, rfl, rfl, rfl⟩
  | writeResponse k todo todo' chunk _ _ => exact ⟨rfl, rfl, rfl, rfl⟩
  | responseFails todo _ _ => exact ⟨rfl, rfl, rfl, rfl⟩
  | leave p _ => exact ⟨rfl, rfl, rfl, rfl⟩
  | die => exact ⟨rfl, rfl, rfl, rfl⟩
  | _ => simp [LinkAction.internal] at ha

end Link

end ProcessPool
