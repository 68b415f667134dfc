/-
**The two loops of the process pool of hw-6 on streams that are cut.**

`WorkerLoop` reads requests, calls the executor that each of them names, and writes a response;
`ReaderLoop` reads responses and hands them to the pending handlers.  Here both run on a stream that
ends after any byte, with any executors, payloads and ids.  A stream that ends is modelled by the list
of its bytes; how they are cut into chunks on the way does not matter for `ReadExact`.

Main definitions:

* `ProcessPool.Request`, `ProcessPool.streamFraming` — requests with any ids and payloads, and their
  layout, which is that of `ProcessPool.requestFraming`;
* `ProcessPool.Executors`, `ProcessPool.Program.executors` — the functions at the addresses that the
  headers name, and those of a program;
* `ProcessPool.workerLoop`, `ProcessPool.readerLoop` — the two loops;
* `ProcessPool.InStep` — what the two loops do on streams that are cut anywhere.

Main results:

* `ProcessPool.workerLoop_take` — **a worker runs the requests that are completely present** before the
  first `Stop`, and nothing else;
* `ProcessPool.readerLoop_take` — **a reader decodes the responses that are completely present**;
* `ProcessPool.decodes_deliver` — what becomes of the pending handlers;
* `ProcessPool.streams_in_step` — **requests and responses stay in step** under any truncation.
-/

import CppMultithreaded.PoolMessage

set_option relaxedAutoImplicit false
set_option autoImplicit false

namespace ProcessPool

open Framing (readExact)

/-! ### Requests -/

/-- A request to run something, with the values that the members of its header can have. -/
structure RunRequest where
  taskId : ℕ
  executor : ℕ
  payload : List UInt8
  taskId_lt : taskId < 2 ^ 64
  executor_lt : executor < 2 ^ 64
  payload_lt : payload.length < 2 ^ 64

/-- A request. -/
inductive Request
  | run (r : RunRequest)
  | stop

def Request.taskHeader : Request → TaskHeader
  | .run r => ⟨Command.run.code, r.taskId, r.executor, r.payload.length⟩
  | .stop => ⟨Command.stop.code, 0, 0, 0⟩

def Request.payload : Request → List UInt8
  | .run r => r.payload
  | .stop => []

/-- The header of a request, as the worker reads it. -/
theorem Request.ofBytes_taskHeader (f : Request) :
    TaskHeader.ofBytes f.taskHeader.bytes = f.taskHeader := by
  cases f with
  | run r =>
      exact TaskHeader.ofBytes_bytes (by simp [Request.taskHeader, Command.code]) r.taskId_lt
        r.executor_lt r.payload_lt
  | stop =>
      exact TaskHeader.ofBytes_bytes (by simp [Request.taskHeader, Command.code])
        (Nat.two_pow_pos 64) (Nat.two_pow_pos 64) (Nat.two_pow_pos 64)

theorem Request.payloadSize_taskHeader (f : Request) :
    f.taskHeader.payloadSize = f.payload.length := by
  cases f <;> rfl

/-- The layout of the requests. -/
def streamFraming : Framing Request UInt8 where
  headerSize := taskHeaderSize
  header f := f.taskHeader.bytes
  payload f := f.payload
  payloadSize bytes := (TaskHeader.ofBytes bytes).payloadSize
  valid _ := True
  headerSize_pos := Nat.succ_pos 31
  length_header f := f.taskHeader.length_bytes
  payloadSize_header f _ := by rw [f.ofBytes_taskHeader, f.payloadSize_taskHeader]

section Frames

variable {τ : Type*} {P : Program τ}

/-- The request that a frame of the pool is. -/
def Frame.request : (f : Frame P) → (∀ i ∈ f.taskId?, i < 2 ^ 64) → Request
  | .run taskId job, h =>
      .run ⟨taskId, P.executor job.type, job.payload, h taskId rfl, P.executor_lt job.type,
        (Frame.run taskId job).length_payload_lt⟩
  | .stop, _ => .stop

/-- It crosses as the same bytes. -/
theorem Frame.bytes_request (f : Frame P) (h : ∀ i ∈ f.taskId?, i < 2 ^ 64) :
    streamFraming.stream [f.request h] = (requestFraming P).stream [f] := by
  cases f <;> rfl

end Frames

/-! ### The loop of the worker -/

/-- The functions at the addresses of executors.  Vectors and strings have sizes below `2 ^ 64`. -/
structure Executors where
  run : ℕ → List UInt8 → Executed
  output_lt : ∀ executor payload, (run executor payload).output.length < 2 ^ 64
  error_lt : ∀ executor payload, (run executor payload).error.length < 2 ^ 64

/-- The instantiations of `ExecuteTyped` of a program, where `outcome` says how the call that a payload
holds ends.  There is no function at the other addresses. -/
def Program.executors {τ : Type*} (P : Program τ) (outcome : τ → List UInt8 → Outcome)
    (hfits : ∀ t payload, (outcome t payload).Fits (P.resultSize t)) : Executors where
  run executor payload :=
    match P.executorAt executor with
    | some t => executeTyped (P.argSizes t) payload (outcome t payload)
    | none => ⟨none, [], []⟩
  output_lt executor payload := by
    cases P.executorAt executor with
    | none => exact Nat.two_pow_pos 64
    | some t => exact (executeTyped_lt _ _ (hfits t payload) fun n hn => (P.resultSize_lt t n hn).2).1
  error_lt executor payload := by
    cases P.executorAt executor with
    | none => exact Nat.two_pow_pos 64
    | some t => exact (executeTyped_lt _ _ (hfits t payload) fun n hn => (P.resultSize_lt t n hn).2).2

/-- What a worker has done: the executors it has called, with the payloads, and the bytes it has
written. -/
structure WorkerRun where
  invoked : List (ℕ × List UInt8)
  written : List UInt8

/-- Reading the payload that a header announces. -/
def readPayload (payloadSize : ℕ) (bytes : List UInt8) : Option (List UInt8 × List UInt8) :=
  if payloadSize = 0 then some ([], bytes) else readExact payloadSize bytes

theorem readPayload_eq (payloadSize : ℕ) (bytes : List UInt8) :
    readPayload payloadSize bytes = readExact payloadSize bytes := by
  rw [readPayload]
  split_ifs with hzero
  · simp [readExact, hzero]
  · rfl

/-- `WorkerLoop`, on a request stream that ends after the given bytes. -/
def workerLoop (E : Executors) (request : List UInt8) : WorkerRun :=
  match _hheader : readExact taskHeaderSize request with
  | none => ⟨[], []⟩
  | some (bytes, rest) =>
      let header := TaskHeader.ofBytes bytes
      if header.command = Command.stop.code then ⟨[], []⟩
      else
        match _hpayload : readPayload header.payloadSize rest with
        | none => ⟨[], []⟩
        | some (payload, rest) =>
            let response := respond header.taskId (E.run header.executor payload)
            let run := workerLoop E rest
            ⟨(header.executor, payload) :: run.invoked,
              (buffers response.resultHeader.bytes response.payload).flatten ++ run.written⟩
  termination_by request.length
  decreasing_by
    have hsize : taskHeaderSize = 32 := rfl
    rw [readPayload_eq] at _hpayload
    have hfirst := Framing.length_of_readExact _hheader
    have hsecond := Framing.length_of_readExact _hpayload
    omega

/-! ### What the worker does on a stream that is cut -/

/-- The requests to run something that come before the first `Stop`. -/
def runsBeforeStop : List Request → List RunRequest
  | .run r :: fs => r :: runsBeforeStop fs
  | _ => []

/-- The response to a request. -/
def RunRequest.response (E : Executors) (r : RunRequest) : Response :=
  respond r.taskId (E.run r.executor r.payload)

/-- Each of the requests is run once, and answered, in order. -/
def WorkerRun.ofRuns (E : Executors) (rs : List RunRequest) : WorkerRun :=
  ⟨rs.map fun r => (r.executor, r.payload), responseFraming.stream (rs.map (RunRequest.response E))⟩

theorem WorkerRun.ofRuns_cons (E : Executors) (r : RunRequest) (rs : List RunRequest) :
    WorkerRun.ofRuns E (r :: rs) =
      ⟨(r.executor, r.payload) :: (WorkerRun.ofRuns E rs).invoked,
        (buffers (r.response E).resultHeader.bytes (r.response E).payload).flatten ++
          (WorkerRun.ofRuns E rs).written⟩ := by
  rw [WorkerRun.ofRuns, WorkerRun.ofRuns, List.map_cons, List.map_cons, Framing.stream_cons,
    flatten_buffers, List.append_assoc]
  rfl

section Worker

variable {E : Executors} {request bytes rest payload rest' : List UInt8}

theorem workerLoop_eof (h : readExact taskHeaderSize request = none) :
    workerLoop E request = ⟨[], []⟩ := by
  rw [workerLoop]
  split
  · rfl
  · next heq => simp [h] at heq

theorem workerLoop_stop (h : readExact taskHeaderSize request = some (bytes, rest))
    (hstop : (TaskHeader.ofBytes bytes).command = Command.stop.code) :
    workerLoop E request = ⟨[], []⟩ := by
  rw [workerLoop]
  split
  · rfl
  · next heq =>
      obtain ⟨rfl, rfl⟩ := Prod.mk.inj (Option.some.inj (h.symm.trans heq))
      exact if_pos hstop

theorem workerLoop_torn (h : readExact taskHeaderSize request = some (bytes, rest))
    (hpayload : readPayload (TaskHeader.ofBytes bytes).payloadSize rest = none) :
    workerLoop E request = ⟨[], []⟩ := by
  rw [workerLoop]
  split
  · rfl
  · next heq =>
      obtain ⟨rfl, rfl⟩ := Prod.mk.inj (Option.some.inj (h.symm.trans heq))
      simp only
      split_ifs
      · rfl
      · split
        · rfl
        · next heq' => simp [hpayload] at heq'

theorem workerLoop_run (h : readExact taskHeaderSize request = some (bytes, rest))
    (hrun : (TaskHeader.ofBytes bytes).command ≠ Command.stop.code)
    (hpayload : readPayload (TaskHeader.ofBytes bytes).payloadSize rest = some (payload, rest')) :
    workerLoop E request =
      let header := TaskHeader.ofBytes bytes
      let response := respond header.taskId (E.run header.executor payload)
      ⟨(header.executor, payload) :: (workerLoop E rest').invoked,
        (buffers response.resultHeader.bytes response.payload).flatten ++
          (workerLoop E rest').written⟩ := by
  rw [workerLoop]
  split
  · next heq => simp [h] at heq
  · next heq =>
      obtain ⟨rfl, rfl⟩ := Prod.mk.inj (Option.some.inj (h.symm.trans heq))
      simp only [if_neg hrun]
      split
      · next heq' => simp [hpayload] at heq'
      · next heq' =>
          obtain ⟨rfl, rfl⟩ := Prod.mk.inj (Option.some.inj (hpayload.symm.trans heq'))
          rfl

end Worker

/-- The header of the first frame is read where the cut does not come first. -/
theorem readExact_stream {φ : Type*} {F : Framing φ UInt8} (f : φ) (fs : List φ) (k : ℕ) :
    readExact F.headerSize ((F.stream (f :: fs)).take k) =
      if F.headerSize ≤ k then some (F.header f, (F.payload f ++ F.stream fs).take (k - F.headerSize))
      else none := by
  have hread := Framing.readExact_take (F.header f) (F.payload f ++ F.stream fs) k
  rw [F.length_header] at hread
  rw [Framing.stream_cons, hread]

/-- **A worker runs the requests that are completely present before the first `Stop`, and nothing
else.**  The induction is on the requests. -/
theorem workerLoop_take (E : Executors) (fs : List Request) (k : ℕ) :
    workerLoop E ((streamFraming.stream fs).take k) =
      .ofRuns E (runsBeforeStop (streamFraming.complete fs k)) := by
  induction fs generalizing k with
  | nil =>
      refine workerLoop_eof ?_
      rw [Framing.stream_nil, List.take_nil]
      rfl
  | cons f fs ih =>
      have hheader := readExact_stream (F := streamFraming) f fs k
      have hsize := streamFraming.headerSize_pos
      rw [Framing.complete]
      by_cases hcut : streamFraming.headerSize ≤ k
      swap
      · -- the cut is in the header
        rw [if_neg hcut] at hheader
        rw [workerLoop_eof hheader, if_neg (by omega)]
        rfl
      rw [if_pos hcut] at hheader
      have hbytes : TaskHeader.ofBytes (streamFraming.header f) = f.taskHeader := f.ofBytes_taskHeader
      have hpayload : readPayload f.taskHeader.payloadSize
          ((streamFraming.payload f ++ streamFraming.stream fs).take (k - streamFraming.headerSize)) =
          if f.payload.length ≤ k - streamFraming.headerSize then
            some (f.payload,
              (streamFraming.stream fs).take (k - streamFraming.headerSize - f.payload.length))
          else none := by
        rw [readPayload_eq, f.payloadSize_taskHeader]
        exact Framing.readExact_take f.payload (streamFraming.stream fs) (k - streamFraming.headerSize)
      cases f with
      | stop =>
          rw [workerLoop_stop hheader (by rw [hbytes]; rfl)]
          split_ifs <;> rfl
      | run r =>
          have hlen : streamFraming.payload (.run r) = r.payload := rfl
          rw [hlen]
          by_cases hfits : r.payload.length ≤ k - streamFraming.headerSize
          · rw [show (Request.run r).payload = r.payload from rfl, if_pos hfits] at hpayload
            rw [workerLoop_run hheader (by rw [hbytes]; simp [Request.taskHeader, Command.code])
              (by rw [hbytes]; exact hpayload), ih,
              if_pos (by omega), runsBeforeStop, WorkerRun.ofRuns_cons, hbytes, Nat.sub_sub]
            rfl
          · -- the cut is in the payload
            rw [show (Request.run r).payload = r.payload from rfl, if_neg hfits] at hpayload
            rw [workerLoop_torn hheader (by rw [hbytes]; exact hpayload), if_neg (by omega)]
            rfl

/-! ### The loop of the reader -/

/-- A response, as a reader decodes it. -/
structure Decoded where
  taskId : ℕ
  status : ℕ
  payload : List UInt8
  deriving DecidableEq

/-- A call of a pending handler: `SetException` or `SetValue`, according to the status. -/
structure HandlerCall where
  pending : Pending
  response : Decoded
  deriving DecidableEq

/-- What a reader has done: the responses it has decoded, the handlers it has called, and the map it has
left. -/
structure ReaderRun where
  decoded : List Decoded
  completed : List HandlerCall
  pending : ℕ → Option Pending

/-- A response, before what comes after it. -/
def ReaderRun.decode (d : Decoded) (run : ReaderRun) : ReaderRun :=
  { run with decoded := d :: run.decoded }

/-- A response that completes a pending handler, before what comes after it. -/
def ReaderRun.complete (d : Decoded) (pending : Pending) (run : ReaderRun) : ReaderRun :=
  { run with decoded := d :: run.decoded, completed := ⟨pending, d⟩ :: run.completed }

/-- `ReaderLoop`, on a response stream that ends after the given bytes. -/
def readerLoop (pending : ℕ → Option Pending) (response : List UInt8) : ReaderRun :=
  match _hheader : readExact resultHeaderSize response with
  | none => ⟨[], [], pending⟩
  | some (bytes, rest) =>
      let header := ResultHeader.ofBytes bytes
      match _hpayload : readPayload header.payloadSize rest with
      | none => ⟨[], [], pending⟩
      | some (payload, rest) =>
          let decoded : Decoded := ⟨header.taskId, header.status, payload⟩
          match pending header.taskId with
          | none => (readerLoop pending rest).decode decoded
          | some handler =>
              (readerLoop (Function.update pending header.taskId none) rest).complete decoded handler
  termination_by response.length
  decreasing_by
    all_goals
      have hsize : resultHeaderSize = 24 := rfl
      rw [readPayload_eq] at _hpayload
      have hfirst := Framing.length_of_readExact _hheader
      have hsecond := Framing.length_of_readExact _hpayload
      omega

/-- A response, as it is decoded. -/
def Response.decoded (r : Response) : Decoded := ⟨r.taskId, r.status.code, r.payload⟩

/-- The responses are handed to the pending handlers, one after the other; an id without a handler is
passed over. -/
def deliver (pending : ℕ → Option Pending) : List Response → ReaderRun
  | [] => ⟨[], [], pending⟩
  | r :: rs =>
      match pending r.taskId with
      | none => (deliver pending rs).decode r.decoded
      | some handler =>
          (deliver (Function.update pending r.taskId none) rs).complete r.decoded handler

section Reader

variable {pending : ℕ → Option Pending} {response bytes rest payload rest' : List UInt8}

theorem readerLoop_eof (h : readExact resultHeaderSize response = none) :
    readerLoop pending response = ⟨[], [], pending⟩ := by
  rw [readerLoop]
  split
  · rfl
  · next heq => simp [h] at heq

theorem readerLoop_torn (h : readExact resultHeaderSize response = some (bytes, rest))
    (hpayload : readPayload (ResultHeader.ofBytes bytes).payloadSize rest = none) :
    readerLoop pending response = ⟨[], [], pending⟩ := by
  rw [readerLoop]
  split
  · rfl
  · next heq =>
      obtain ⟨rfl, rfl⟩ := Prod.mk.inj (Option.some.inj (h.symm.trans heq))
      simp only
      split
      · rfl
      · next heq' => simp [hpayload] at heq'

theorem readerLoop_decode (h : readExact resultHeaderSize response = some (bytes, rest))
    (hpayload : readPayload (ResultHeader.ofBytes bytes).payloadSize rest = some (payload, rest')) :
    readerLoop pending response =
      let header := ResultHeader.ofBytes bytes
      match pending header.taskId with
      | none => (readerLoop pending rest').decode ⟨header.taskId, header.status, payload⟩
      | some handler =>
          (readerLoop (Function.update pending header.taskId none) rest').complete
            ⟨header.taskId, header.status, payload⟩ handler := by
  rw [readerLoop]
  split
  · next heq => simp [h] at heq
  · next heq =>
      obtain ⟨rfl, rfl⟩ := Prod.mk.inj (Option.some.inj (h.symm.trans heq))
      simp only
      split
      · next heq' => simp [hpayload] at heq'
      · next heq' =>
          obtain ⟨rfl, rfl⟩ := Prod.mk.inj (Option.some.inj (hpayload.symm.trans heq'))
          rfl

end Reader

/-- **A reader decodes the responses that are completely present, and nothing else.**  The induction is
on the responses. -/
theorem readerLoop_take {rs : List Response} (hv : ∀ r ∈ rs, responseFraming.valid r)
    (pending : ℕ → Option Pending) (k : ℕ) :
    readerLoop pending ((responseFraming.stream rs).take k) =
      deliver pending (responseFraming.complete rs k) := by
  induction rs generalizing pending k with
  | nil =>
      refine readerLoop_eof ?_
      rw [Framing.stream_nil, List.take_nil]
      rfl
  | cons r rs ih =>
      have hheader := readExact_stream (F := responseFraming) r rs k
      have hsize := responseFraming.headerSize_pos
      rw [Framing.complete]
      by_cases hcut : responseFraming.headerSize ≤ k
      swap
      · -- the cut is in the header
        rw [if_neg hcut] at hheader
        rw [readerLoop_eof hheader, if_neg (by omega)]
        rfl
      rw [if_pos hcut] at hheader
      have hbytes : ResultHeader.ofBytes (responseFraming.header r) = r.resultHeader :=
        Response.ofBytes_resultHeader (hv r List.mem_cons_self)
      have hlen : responseFraming.payload r = r.payload := rfl
      have hpayload := Framing.readExact_take r.payload (responseFraming.stream rs)
        (k - responseFraming.headerSize)
      rw [← readPayload_eq] at hpayload
      rw [hlen] at hheader ⊢
      by_cases hfits : r.payload.length ≤ k - responseFraming.headerSize
      · rw [if_pos hfits] at hpayload
        have hrest := fun pending => ih (fun r' hr' => hv r' (List.mem_cons_of_mem r hr')) pending
          (k - (responseFraming.headerSize + r.payload.length))
        rw [readerLoop_decode hheader (by rw [hbytes]; exact hpayload), hbytes, if_pos (by omega),
          deliver, Nat.sub_sub]
        simp only [hrest]
        rfl
      · -- the cut is in the payload
        rw [if_neg hfits] at hpayload
        rw [readerLoop_torn hheader (by rw [hbytes]; exact hpayload), if_neg (by omega)]
        rfl

/-- What a reader does with the responses `rs`: it decodes them, in order; it calls handlers only with
them, and no handler twice; the first response with an id completes the handler that is pending under
it; and no other handler is taken out of the map. -/
structure Decodes (rs : List Response) (pending : ℕ → Option Pending) (run : ReaderRun) : Prop where
  decoded : run.decoded = rs.map Response.decoded
  completed : ∀ c ∈ run.completed,
    c.response ∈ rs.map Response.decoded ∧ pending c.response.taskId = some c.pending
  once : (run.completed.map fun c => c.response.taskId).Nodup
  first : ∀ before r after, rs = before ++ r :: after → (∀ b ∈ before, b.taskId ≠ r.taskId) →
    ∀ handler, pending r.taskId = some handler → ⟨handler, r.decoded⟩ ∈ run.completed
  left : ∀ i, run.pending i = if i ∈ rs.map Response.taskId then none else pending i

/-- An id without a handler is passed over. -/
theorem Decodes.decode {r : Response} {rs : List Response} {pending : ℕ → Option Pending}
    {run : ReaderRun} (h : Decodes rs pending run) (hnone : pending r.taskId = none) :
    Decodes (r :: rs) pending (run.decode r.decoded) := by
  refine ⟨congrArg _ h.decoded, ?_, h.once, ?_, ?_⟩
  · intro c hc
    obtain ⟨hmem, hsome⟩ := h.completed c hc
    exact ⟨List.mem_cons_of_mem _ hmem, hsome⟩
  · intro before r' after heq hfirst handler hsome
    cases before with
    | nil =>
        obtain ⟨rfl, -⟩ := List.cons.inj heq
        simp [hnone] at hsome
    | cons b before =>
        obtain ⟨rfl, hrest⟩ := List.cons.inj heq
        exact h.first before r' after hrest (fun b hb => hfirst b (List.mem_cons_of_mem _ hb))
          handler hsome
  · intro i
    have hleft : run.pending i = _ := h.left i
    rw [ReaderRun.decode, hleft, List.map_cons]
    by_cases hi : i = r.taskId
    · rw [hi, hnone]
      simp
    · simp [hi]

/-- A handler that is completed is taken out of the map. -/
theorem Decodes.complete {r : Response} {rs : List Response} {pending : ℕ → Option Pending}
    {handler : Pending} {run : ReaderRun}
    (h : Decodes rs (Function.update pending r.taskId none) run)
    (hsome : pending r.taskId = some handler) :
    Decodes (r :: rs) pending (run.complete r.decoded handler) := by
  have hother : ∀ c ∈ run.completed, c.response.taskId ≠ r.taskId := by
    intro c hc heq
    have hc := (h.completed c hc).2
    rw [heq, Function.update_self] at hc
    simp at hc
  refine ⟨congrArg _ h.decoded, ?_, ?_, ?_, ?_⟩
  · intro c hc
    rcases List.mem_cons.1 hc with rfl | hc
    · exact ⟨List.mem_cons_self, hsome⟩
    · obtain ⟨hmem, hpending⟩ := h.completed c hc
      rw [Function.update_of_ne (hother c hc)] at hpending
      exact ⟨List.mem_cons_of_mem _ hmem, hpending⟩
  · refine List.nodup_cons.2 ⟨?_, h.once⟩
    intro hmem
    obtain ⟨c, hc, heq⟩ := List.mem_map.1 hmem
    exact hother c hc heq
  · intro before r' after heq hfirst handler' hsome'
    cases before with
    | nil =>
        obtain ⟨rfl, -⟩ := List.cons.inj heq
        rw [hsome] at hsome'
        rw [Option.some.inj hsome']
        exact List.mem_cons_self
    | cons b before =>
        obtain ⟨rfl, hrest⟩ := List.cons.inj heq
        have hne := hfirst r List.mem_cons_self
        refine List.mem_cons_of_mem _ (h.first before r' after hrest
          (fun b hb => hfirst b (List.mem_cons_of_mem _ hb)) handler' ?_)
        rwa [Function.update_of_ne (Ne.symm hne)]
  · intro i
    have hleft : run.pending i = _ := h.left i
    rw [ReaderRun.complete, hleft, List.map_cons]
    by_cases hi : i = r.taskId
    · rw [hi, Function.update_self]
      simp
    · rw [Function.update_of_ne hi]
      simp [hi]

/-- **What becomes of the pending handlers.** -/
theorem decodes_deliver (rs : List Response) (pending : ℕ → Option Pending) :
    Decodes rs pending (deliver pending rs) := by
  induction rs generalizing pending with
  | nil =>
      refine ⟨rfl, by simp [deliver], List.nodup_nil, ?_, by simp [deliver]⟩
      intro before r after heq
      exact absurd heq (by simp)
  | cons r rs ih =>
      rw [deliver]
      cases hp : pending r.taskId with
      | none => exact (ih pending).decode hp
      | some handler => exact (ih _).complete hp

/-! ### Both loops -/

/-- **Requests and responses stay in step** when the request stream is cut after `k` bytes: the worker
calls the executors of the requests that are completely present before the first `Stop`, with their
payloads; it writes one response for each, with its id; and a reader of these responses, cut after any
number of bytes, decodes those that are completely present, and completes nothing else. -/
structure InStep (E : Executors) (fs : List Request) (k : ℕ) : Prop where
  invoked : (workerLoop E ((streamFraming.stream fs).take k)).invoked =
    (runsBeforeStop (streamFraming.complete fs k)).map fun r => (r.executor, r.payload)
  written : (workerLoop E ((streamFraming.stream fs).take k)).written = responseFraming.stream
    ((runsBeforeStop (streamFraming.complete fs k)).map (RunRequest.response E))
  ids : ∀ r, (RunRequest.response E r).taskId = r.taskId
  read : ∀ pending l, Decodes
    (responseFraming.complete
      ((runsBeforeStop (streamFraming.complete fs k)).map (RunRequest.response E)) l)
    pending (readerLoop pending ((workerLoop E ((streamFraming.stream fs).take k)).written.take l))

theorem RunRequest.taskId_response (E : Executors) (r : RunRequest) :
    (r.response E).taskId = r.taskId := by
  rw [RunRequest.response, respond]
  split_ifs <;> rfl

/-- The responses of a worker can be represented. -/
theorem RunRequest.valid_response (E : Executors) (r : RunRequest) :
    responseFraming.valid (r.response E) :=
  valid_respond r.taskId_lt (E.output_lt r.executor r.payload) (E.error_lt r.executor r.payload)

theorem streams_in_step (E : Executors) (fs : List Request) (k : ℕ) : InStep E fs k := by
  have hworker := workerLoop_take E fs k
  refine ⟨by rw [hworker]; rfl, by rw [hworker]; rfl, RunRequest.taskId_response E, ?_⟩
  intro pending l
  have hvalid : ∀ r ∈ (runsBeforeStop (streamFraming.complete fs k)).map (RunRequest.response E),
      responseFraming.valid r := by
    intro r hr
    obtain ⟨request, -, rfl⟩ := List.mem_map.1 hr
    exact request.valid_response E
  rw [hworker]
  exact (readerLoop_take hvalid pending l).symm ▸ decodes_deliver _ pending

/-- The executor of `byteProgram`, whose functions return their argument once more. -/
def echoExecutors : Executors :=
  byteProgram.executors (fun _ payload => .returned [payload.getLastD 0]) fun _ _ => rfl

/-- Two requests for functions of `byteProgram`, and a `Stop`. -/
def echoRequests : List Request :=
  [(Frame.run 1 (byteJob 1 5)).request (by simp [Frame.taskId?]),
    (Frame.run 2 (byteJob 2 6)).request (by simp [Frame.taskId?]), .stop]

/-- The stream of the requests is cut within the payload of the second: one executor is called.  The
response to it is decoded if it is completely present. -/
theorem streams_in_step_cut_payload :
    InStep echoExecutors echoRequests 77 ∧
      (workerLoop echoExecutors ((streamFraming.stream echoRequests).take 77)).invoked =
        [(4096, (byteJob 1 5).payload)] ∧
      (workerLoop echoExecutors ((streamFraming.stream echoRequests).take 77)).written =
        responseFraming.stream [⟨1, .value, [5]⟩] ∧
      ∀ pending,
        (readerLoop pending ((workerLoop echoExecutors
          ((streamFraming.stream echoRequests).take 77)).written.take 24)).decoded = [] ∧
        (readerLoop pending ((workerLoop echoExecutors
          ((streamFraming.stream echoRequests).take 77)).written.take 25)).decoded = [⟨1, 1, [5]⟩] := by
  have h := streams_in_step echoExecutors echoRequests 77
  exact ⟨h, h.invoked.trans rfl, h.written.trans rfl,
    fun pending => ⟨(h.read pending 24).decoded.trans rfl, (h.read pending 25).decoded.trans rfl⟩⟩

end ProcessPool
