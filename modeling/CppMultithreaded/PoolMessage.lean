/-
**The messages of the process pool of hw-6.**

A task crosses to a worker process as bytes: a header, the address of a plain function, and the
representations of its arguments.  The header names an executor, the instantiation of `ExecuteTyped`
for the types of the function, which decodes the payload and calls the function.  The result crosses
back as bytes, and is stored in the shared state of the `Future` by the pending handler of the task.

Main definitions:

* `ProcessPool.Program` — the instantiations of `ExecuteTyped`, with their addresses;
* `ProcessPool.Job` — a function with arguments that fit one of the instantiations;
* `ProcessPool.readCall`, `ProcessPool.executeTyped` — decoding and running a payload;
* `ProcessPool.Frame`, `ProcessPool.Response`, `ProcessPool.requestFraming`,
  `ProcessPool.responseFraming` — what crosses in the two directions;
* `ProcessPool.SharedState`, `ProcessPool.Pending` — the state of a `Future`, and its handler;
* `ProcessPool.byteProgram` — a program for runs on fixed inputs.

Main results:

* `ProcessPool.readCall_payload` — **a worker calls the function that was submitted, on the arguments
  that were submitted**;
* `ProcessPool.TaskHeader.ofBytes_bytes`, `ProcessPool.ResultHeader.ofBytes_bytes` — the headers
  survive their round trip.
-/

import CppMultithreaded.ByteString
import CppMultithreaded.Framing

set_option relaxedAutoImplicit false
set_option autoImplicit false

namespace ProcessPool

open ByteString (encode decode)

/-! ### Headers -/

/-- The commands of a request. -/
inductive Command
  | run
  | stop
  deriving DecidableEq, Repr

def Command.code : Command → ℕ
  | .run => 1
  | .stop => 2

/-- The statuses of a response. -/
inductive ResultStatus
  | value
  | void
  | exception
  deriving DecidableEq, Repr

def ResultStatus.code : ResultStatus → ℕ
  | .value => 1
  | .void => 2
  | .exception => 3

/-- The header of a request. -/
structure TaskHeader where
  command : ℕ
  taskId : ℕ
  executor : ℕ
  payloadSize : ℕ
  deriving DecidableEq

/-- The representation of the header; four bytes of padding follow the command. -/
def TaskHeader.bytes (header : TaskHeader) : List UInt8 :=
  encode 4 header.command ++ (List.replicate 4 0 ++ (encode 8 header.taskId ++
    (encode 8 header.executor ++ encode 8 header.payloadSize)))

def TaskHeader.ofBytes (bytes : List UInt8) : TaskHeader :=
  { command := decode (bytes.take 4)
    taskId := decode ((bytes.drop 8).take 8)
    executor := decode ((bytes.drop 16).take 8)
    payloadSize := decode (bytes.drop 24) }

/-- The size of the header of a request. -/
def taskHeaderSize : ℕ := 32

/-- The header of a response. -/
structure ResultHeader where
  taskId : ℕ
  status : ℕ
  payloadSize : ℕ
  deriving DecidableEq

/-- The representation of the header; four bytes of padding follow the status. -/
def ResultHeader.bytes (header : ResultHeader) : List UInt8 :=
  encode 8 header.taskId ++ (encode 4 header.status ++ (List.replicate 4 0 ++
    encode 8 header.payloadSize))

def ResultHeader.ofBytes (bytes : List UInt8) : ResultHeader :=
  { taskId := decode (bytes.take 8)
    status := decode ((bytes.drop 8).take 4)
    payloadSize := decode (bytes.drop 16) }

/-- The size of the header of a response. -/
def resultHeaderSize : ℕ := 24

@[simp] theorem TaskHeader.length_bytes (header : TaskHeader) :
    header.bytes.length = taskHeaderSize := by simp [TaskHeader.bytes, taskHeaderSize]

@[simp] theorem ResultHeader.length_bytes (header : ResultHeader) :
    header.bytes.length = resultHeaderSize := by simp [ResultHeader.bytes, resultHeaderSize]

theorem TaskHeader.ofBytes_bytes_eq (header : TaskHeader) :
    TaskHeader.ofBytes header.bytes =
      ⟨decode (encode 4 header.command), decode (encode 8 header.taskId),
        decode (encode 8 header.executor), decode (encode 8 header.payloadSize)⟩ := by
  simp [TaskHeader.ofBytes, TaskHeader.bytes, List.drop_append, ByteString.drop_encode]

theorem ResultHeader.ofBytes_bytes_eq (header : ResultHeader) :
    ResultHeader.ofBytes header.bytes =
      ⟨decode (encode 8 header.taskId), decode (encode 4 header.status),
        decode (encode 8 header.payloadSize)⟩ := by
  simp [ResultHeader.ofBytes, ResultHeader.bytes, List.drop_append, ByteString.drop_encode]

/-- **The header of a request survives its round trip.** -/
theorem TaskHeader.ofBytes_bytes {header : TaskHeader} (hc : header.command < 2 ^ 32)
    (hi : header.taskId < 2 ^ 64) (he : header.executor < 2 ^ 64)
    (hp : header.payloadSize < 2 ^ 64) : TaskHeader.ofBytes header.bytes = header := by
  rw [TaskHeader.ofBytes_bytes_eq, ByteString.decode_encode (show _ < 256 ^ 4 by omega),
    ByteString.decode_encode (show header.taskId < 256 ^ 8 by omega),
    ByteString.decode_encode (show header.executor < 256 ^ 8 by omega),
    ByteString.decode_encode (show header.payloadSize < 256 ^ 8 by omega)]

/-- **The header of a response survives its round trip.** -/
theorem ResultHeader.ofBytes_bytes {header : ResultHeader} (hi : header.taskId < 2 ^ 64)
    (hs : header.status < 2 ^ 32) (hp : header.payloadSize < 2 ^ 64) :
    ResultHeader.ofBytes header.bytes = header := by
  rw [ResultHeader.ofBytes_bytes_eq,
    ByteString.decode_encode (show header.taskId < 256 ^ 8 by omega),
    ByteString.decode_encode (show header.status < 256 ^ 4 by omega),
    ByteString.decode_encode (show header.payloadSize < 256 ^ 8 by omega)]

/-! ### Tasks -/

/-- The instantiations of `ExecuteTyped`, one for each type of function that is submitted.  For each
of them, the sizes of the arguments, the size of the result (none for `void`), and its address.  The
address means the same in the worker, which is a fork of the parent. -/
structure Program (τ : Type*) where
  argSizes : τ → List ℕ
  resultSize : τ → Option ℕ
  executor : τ → ℕ
  /-- The instantiation at an address. -/
  executorAt : ℕ → Option τ
  executorAt_executor : ∀ t, executorAt (executor t) = some t
  executor_lt : ∀ t, executor t < 2 ^ 64
  resultSize_lt : ∀ t n, resultSize t = some n → 0 < n ∧ n < 2 ^ 64

variable {τ : Type*} {P : Program τ}

/-- A function with arguments, whose representations have the sizes that its type asks for. -/
structure Job (P : Program τ) where
  type : τ
  fn : ℕ
  args : List (List UInt8)
  fn_lt : fn < 2 ^ 64
  args_size : args.map List.length = P.argSizes type
  payload_lt : 8 + (args.map List.length).sum < 2 ^ 64

/-- The payload of a request: the function, and then the arguments. -/
def Job.payload (job : Job P) : List UInt8 := encode 8 job.fn ++ job.args.flatten

theorem Job.length_payload (job : Job P) :
    job.payload.length = 8 + (job.args.map List.length).sum := by
  rw [Job.payload, List.length_append, ByteString.length_encode, List.length_flatten]

/-! ### Running a payload -/

/-- The text of an exception. -/
def text (s : String) : List UInt8 := s.toList.map fun c => UInt8.ofNat c.toNat

/-- Reading an object of `size` bytes of the payload, from the offset on. -/
def readValue (size : ℕ) (data : List UInt8) (offset : ℕ) : Except String (List UInt8 × ℕ) :=
  if offset + size > data.length then .error "invalid serialized payload"
  else .ok ((data.drop offset).take size, offset + size)

/-- Reading objects of the given sizes, one after the other. -/
def readValues (data : List UInt8) : List ℕ → ℕ → Except String (List (List UInt8) × ℕ)
  | [], offset => .ok ([], offset)
  | size :: sizes, offset =>
      (readValue size data offset).bind fun (value, offset) =>
        (readValues data sizes offset).map fun (values, offset) => (value :: values, offset)

/-- The function and the arguments that a payload holds. -/
def readCall (sizes : List ℕ) (data : List UInt8) : Except String (ℕ × List (List UInt8)) :=
  (readValue 8 data 0).bind fun (fn, offset) =>
    (readValues data sizes offset).bind fun (args, offset) =>
      if offset ≠ data.length then .error "payload has unexpected tail bytes"
      else .ok (decode fn, args)

theorem readValue_append (before value after : List UInt8) :
    readValue value.length (before ++ (value ++ after)) before.length =
      .ok (value, before.length + value.length) := by
  rw [readValue, if_neg (by simp), List.drop_left, List.take_left]

theorem readValues_flatten (before : List UInt8) (args : List (List UInt8)) :
    readValues (before ++ args.flatten) (args.map List.length) before.length =
      .ok (args, (before ++ args.flatten).length) := by
  induction args generalizing before with
  | nil => simp [readValues]
  | cons value args ih =>
      have hrest := ih (before ++ value)
      rw [List.append_assoc, List.length_append] at hrest
      rw [List.map_cons, readValues, List.flatten_cons, readValue_append]
      simp only [Except.bind, hrest, Except.map]

/-- **A worker calls the function that was submitted, on the arguments that were submitted.** -/
theorem readCall_payload (job : Job P) :
    readCall (P.argSizes job.type) job.payload = .ok (job.fn, job.args) := by
  have hlt := job.fn_lt
  have hfn := readValue_append [] (encode 8 job.fn) job.args.flatten
  have hargs := readValues_flatten (encode 8 job.fn) job.args
  rw [ByteString.length_encode] at hfn hargs
  rw [readCall, Job.payload, ← job.args_size]
  simp only [List.nil_append, List.length_nil, Nat.zero_add] at hfn
  simp only [hfn, Except.bind, hargs]
  rw [if_neg (by simp), ByteString.decode_encode (show job.fn < 256 ^ 8 by omega)]

theorem readValues_error {data : List UInt8} {sizes : List ℕ} {offset : ℕ} {what : String}
    (h : readValues data sizes offset = .error what) : what = "invalid serialized payload" := by
  induction sizes generalizing offset with
  | nil => cases h
  | cons size sizes ih =>
      rw [readValues, readValue] at h
      split_ifs at h
      · exact (Except.error.inj h).symm
      · simp only [Except.bind] at h
        cases hrest : readValues data sizes (offset + size) with
        | error what' =>
            rw [hrest] at h
            exact ih (hrest.trans h)
        | ok p =>
            rw [hrest] at h
            cases h

/-- The errors of a payload that holds no call. -/
theorem readCall_error {sizes : List ℕ} {data : List UInt8} {what : String}
    (h : readCall sizes data = .error what) :
    what = "invalid serialized payload" ∨ what = "payload has unexpected tail bytes" := by
  rw [readCall, readValue] at h
  split_ifs at h
  · exact Or.inl (Except.error.inj h).symm
  · simp only [Except.bind] at h
    cases hargs : readValues data sizes (0 + 8) with
    | error what' =>
        rw [hargs] at h
        exact Or.inl (readValues_error (hargs.trans (congrArg _ (Except.error.inj h))))
    | ok p =>
        rw [hargs] at h
        simp only at h
        split_ifs at h
        exact Or.inr (Except.error.inj h).symm

/-- How a call of a function ends. -/
inductive Outcome
  | returned (result : List UInt8)
  | threw (what : List UInt8)
  | threwUnknown
  deriving DecidableEq

/-- The result has the size of its type, and a string has a size below `2 ^ 64`. -/
def Outcome.Fits (resultSize : Option ℕ) : Outcome → Prop
  | .returned result => result.length = resultSize.getD 0
  | .threw what => what.length < 2 ^ 64
  | .threwUnknown => True

instance (resultSize : Option ℕ) (outcome : Outcome) : Decidable (outcome.Fits resultSize) :=
  match outcome with
  | .returned _ => inferInstanceAs (Decidable (_ = _))
  | .threw _ => inferInstanceAs (Decidable (_ < _))
  | .threwUnknown => .isTrue trivial

/-- What `ExecuteTyped` leaves behind: the function it has called with its arguments, the output, and
the text of the exception. -/
structure Executed where
  called : Option (ℕ × List (List UInt8))
  output : List UInt8
  error : List UInt8
  deriving DecidableEq

/-- The output of a call. -/
def Outcome.output : Outcome → List UInt8
  | .returned result => result
  | _ => []

/-- The text of the exception of a call. -/
def Outcome.error : Outcome → List UInt8
  | .returned _ => []
  | .threw what => what
  | .threwUnknown => text "unknown exception"

/-- `ExecuteTyped`, where `outcome` is how the call of the function ends. -/
def executeTyped (sizes : List ℕ) (data : List UInt8) (outcome : Outcome) : Executed :=
  match readCall sizes data with
  | .error what => ⟨none, [], text what⟩
  | .ok call => ⟨some call, outcome.output, outcome.error⟩

theorem executeTyped_payload (job : Job P) (outcome : Outcome) :
    executeTyped (P.argSizes job.type) job.payload outcome =
      ⟨some (job.fn, job.args), outcome.output, outcome.error⟩ := by
  rw [executeTyped, readCall_payload]

theorem Outcome.Fits.output_lt {resultSize : Option ℕ} {outcome : Outcome}
    (h : outcome.Fits resultSize) (hsize : ∀ n ∈ resultSize, n < 2 ^ 64) :
    outcome.output.length < 2 ^ 64 := by
  cases outcome with
  | returned result =>
      rw [Outcome.output, show result.length = resultSize.getD 0 from h]
      cases resultSize with
      | none => exact Nat.two_pow_pos 64
      | some n => exact hsize n rfl
  | _ => exact Nat.two_pow_pos 64

theorem Outcome.Fits.error_lt {resultSize : Option ℕ} {outcome : Outcome}
    (h : outcome.Fits resultSize) : outcome.error.length < 2 ^ 64 := by
  cases outcome with
  | returned result => exact Nat.two_pow_pos 64
  | threw what => exact h
  | threwUnknown => decide

/-- What `ExecuteTyped` leaves behind has a size that a header can hold. -/
theorem executeTyped_lt {resultSize : Option ℕ} (sizes : List ℕ) (data : List UInt8) {outcome : Outcome}
    (h : outcome.Fits resultSize) (hsize : ∀ n ∈ resultSize, n < 2 ^ 64) :
    (executeTyped sizes data outcome).output.length < 2 ^ 64 ∧
      (executeTyped sizes data outcome).error.length < 2 ^ 64 := by
  rw [executeTyped]
  cases hcall : readCall sizes data with
  | error what =>
      refine ⟨Nat.two_pow_pos 64, ?_⟩
      show (text what).length < 2 ^ 64
      obtain rfl | rfl := readCall_error hcall <;> decide
  | ok call => exact ⟨h.output_lt hsize, h.error_lt⟩

/-! ### Requests and responses -/

/-- A request. -/
inductive Frame (P : Program τ)
  | run (taskId : ℕ) (job : Job P)
  | stop

/-- The header that `Submit` and `Shutdown` write. -/
def Frame.taskHeader : Frame P → TaskHeader
  | .run taskId job =>
      ⟨Command.run.code, taskId, P.executor job.type, job.payload.length⟩
  | .stop => ⟨Command.stop.code, 0, 0, 0⟩

def Frame.payload : Frame P → List UInt8
  | .run _ job => job.payload
  | .stop => []

/-- The id of the task, if the request is for one. -/
def Frame.taskId? : Frame P → Option ℕ
  | .run taskId _ => some taskId
  | .stop => none

/-- A response. -/
structure Response where
  taskId : ℕ
  status : ResultStatus
  payload : List UInt8
  deriving DecidableEq

def Response.resultHeader (r : Response) : ResultHeader :=
  ⟨r.taskId, r.status.code, r.payload.length⟩

/-- The buffers that are written for a frame: the header, and the payload unless it is empty. -/
def buffers (header payload : List UInt8) : List (List UInt8) :=
  header :: if payload = [] then [] else [payload]

theorem flatten_buffers (header payload : List UInt8) :
    (buffers header payload).flatten = header ++ payload := by
  rw [buffers, List.flatten_cons]
  split_ifs with h
  · rw [h]
    rfl
  · rw [List.flatten_singleton]

/-- The response of `WorkerLoop`. -/
def respond (taskId : ℕ) (e : Executed) : Response :=
  if e.error ≠ [] then ⟨taskId, .exception, e.error⟩
  else if e.output = [] then ⟨taskId, .void, []⟩
  else ⟨taskId, .value, e.output⟩

theorem Frame.payloadSize_taskHeader (f : Frame P) : f.taskHeader.payloadSize = f.payload.length := by
  cases f <;> rfl

theorem Frame.length_payload_lt (f : Frame P) : f.payload.length < 2 ^ 64 := by
  cases f with
  | run taskId job =>
      rw [Frame.payload, job.length_payload]
      exact job.payload_lt
  | stop => exact Nat.two_pow_pos 64

/-- The layout of the requests. -/
def requestFraming (P : Program τ) : Framing (Frame P) UInt8 where
  headerSize := taskHeaderSize
  header f := f.taskHeader.bytes
  payload f := f.payload
  payloadSize bytes := (TaskHeader.ofBytes bytes).payloadSize
  valid f := ∀ i ∈ f.taskId?, i < 2 ^ 64
  headerSize_pos := by simp [taskHeaderSize]
  length_header f := f.taskHeader.length_bytes
  payloadSize_header f _ := by
    have hlt := f.length_payload_lt
    rw [TaskHeader.ofBytes_bytes_eq, f.payloadSize_taskHeader]
    exact ByteString.decode_encode (by omega)

/-- The layout of the responses. -/
def responseFraming : Framing Response UInt8 where
  headerSize := resultHeaderSize
  header r := r.resultHeader.bytes
  payload r := r.payload
  payloadSize bytes := (ResultHeader.ofBytes bytes).payloadSize
  valid r := r.taskId < 2 ^ 64 ∧ r.payload.length < 2 ^ 64
  headerSize_pos := by simp [resultHeaderSize]
  length_header r := r.resultHeader.length_bytes
  payloadSize_header r h := by
    rw [ResultHeader.ofBytes_bytes_eq]
    have hlt := h.2
    exact ByteString.decode_encode (show r.payload.length < 256 ^ 8 by omega)

theorem valid_respond {taskId : ℕ} {e : Executed} (hi : taskId < 2 ^ 64)
    (ho : e.output.length < 2 ^ 64) (he : e.error.length < 2 ^ 64) :
    responseFraming.valid (respond taskId e) := by
  rw [respond]
  split_ifs
  · exact ⟨hi, he⟩
  · exact ⟨hi, Nat.two_pow_pos 64⟩
  · exact ⟨hi, ho⟩

/-- The header of a request, as the worker reads it. -/
theorem Frame.ofBytes_taskHeader {f : Frame P} (h : (requestFraming P).valid f) :
    TaskHeader.ofBytes f.taskHeader.bytes = f.taskHeader := by
  have hlt := f.length_payload_lt
  rw [← f.payloadSize_taskHeader] at hlt
  cases f with
  | run taskId job =>
      exact TaskHeader.ofBytes_bytes (by simp [Frame.taskHeader, Command.code]) (h taskId rfl)
        (P.executor_lt job.type) hlt
  | stop =>
      exact TaskHeader.ofBytes_bytes (by simp [Frame.taskHeader, Command.code]) (Nat.two_pow_pos 64)
        (Nat.two_pow_pos 64) hlt

/-- The header of a response, as the reader reads it. -/
theorem Response.ofBytes_resultHeader {r : Response} (h : responseFraming.valid r) :
    ResultHeader.ofBytes r.resultHeader.bytes = r.resultHeader := by
  refine ResultHeader.ofBytes_bytes h.1 ?_ h.2
  cases hs : r.status <;> simp [Response.resultHeader, hs, ResultStatus.code]

/-! ### Shared states -/

/-- The state that a `Future` shares with the pool: whether it is ready, the representation of the
value, and the text of the exception. -/
structure SharedState where
  ready : Bool
  value : Option (List UInt8)
  error : Option (List UInt8)
  deriving DecidableEq

/-- The state that `MakeState` creates. -/
def SharedState.make : SharedState := ⟨false, none, none⟩

/-- A pending handler: the shared state, and the size of its value (none for `void`). -/
structure Pending where
  state : ℕ
  resultSize : Option ℕ
  deriving DecidableEq

/-- `SetException` of a pending handler. -/
def SharedState.setException (what : List UInt8) (s : SharedState) : SharedState :=
  { s with ready := true, error := some what }

/-- `SetValue` of a pending handler. -/
def SharedState.setValue (resultSize : Option ℕ) (payload : List UInt8) (s : SharedState) :
    SharedState :=
  match resultSize with
  | some size =>
      if payload.length ≠ size then s.setException (text "invalid payload size for result")
      else { s with ready := true, value := some payload }
  | none => { s with ready := true }

/-- What `ReaderLoop` does with a response. -/
def SharedState.complete (resultSize : Option ℕ) (status : ℕ) (payload : List UInt8)
    (s : SharedState) : SharedState :=
  if status = ResultStatus.exception.code then s.setException payload
  else s.setValue resultSize payload

@[simp] theorem SharedState.ready_complete (resultSize : Option ℕ) (status : ℕ)
    (payload : List UInt8) (s : SharedState) :
    (s.complete resultSize status payload).ready = true := by
  rw [SharedState.complete]
  split_ifs
  · rfl
  · cases resultSize with
    | none => rfl
    | some size =>
        simp only [SharedState.setValue]
        split_ifs <;> rfl

/-! ### A program -/

/-- A program with one type of functions, from a byte to a byte. -/
def byteProgram : Program Unit where
  argSizes _ := [1]
  resultSize _ := some 1
  executor _ := 4096
  executorAt address := if address = 4096 then some () else none
  executorAt_executor _ := rfl
  executor_lt _ := by norm_num
  resultSize_lt _ k hk := by
    obtain rfl := Option.some.inj hk
    norm_num

/-- The call of the function at `fn` with the byte `x`. -/
def byteJob (fn x : UInt8) : Job byteProgram where
  type := ()
  fn := fn.toNat
  args := [[x]]
  fn_lt := by
    have hlt := fn.toNat_lt
    omega
  args_size := rfl
  payload_lt := by norm_num

end ProcessPool
