/-
**The programs at both ends of the shared-memory queue.**

A producer sends texts, numbers and stops: `SendText`, `SendNumber` and `SendStop` turn a value into a
message, and `Send` calls `TrySend` until it returns `true`.  The program `consumer` receives messages,
where `Receive` calls `TryReceive` until it returns one, prints what it has received, and exits at the
first stop.

Each of these loops is a process of its own, on top of the steps of the queue.  What the consumer prints
is a first part of what the producers have sent, in the order in which it was committed, each producer's
values in the order of its program, up to the first stop, and decoded to the values that were passed to
`SendText` and `SendNumber`.

A string is the list of its bytes.

Main definitions:

* `MpscQueue.Value`, `MpscQueue.Value.message` — what a producer sends, and the message that carries it;
* `MpscQueue.bytesToString`, `MpscQueue.bytesToInt64`, `MpscQueue.consumerLoop` — what the consumer
  makes of a message;
* `MpscQueue.Clients`, `MpscQueue.clientStep`, `MpscQueue.clientSystem` — the programs on a queue;
* `MpscQueue.ClientDelivery` — what holds of the programs at both ends.

Main results:

* `MpscQueue.consumerLoop_message` — **the round trip** of a value through its message;
* `MpscQueue.Sends.step`, `MpscQueue.Receives.step` — what the loops of the two programs keep;
* `MpscQueue.clients_deliver` — **every value is printed as it was sent**, in every run.
-/

import CppMultithreaded.QueueSingle
import Mathlib.Data.Set.List

set_option relaxedAutoImplicit false
set_option autoImplicit false

namespace MpscQueue

variable {ι : Type*} {bufferSize : ℕ} {interestedType : MessageType}

/-! ### Values and messages -/

/-- What a producer sends. -/
inductive Value
  | text (text : List UInt8)
  | number (value : Int64)
  | stop
  deriving DecidableEq

/-- The message that `SendText`, `SendNumber` and `SendStop` pass to `Send`. -/
def Value.message : Value → Message
  | .text bytes => ⟨.text, bytes⟩
  | .number x => ⟨.number, ByteString.encode 8 x.toUInt64.toNat⟩
  | .stop => ⟨.stop, []⟩

/-- `BytesToString`. -/
def bytesToString (bytes : List UInt8) : List UInt8 := bytes

/-- `BytesToInt64`. -/
def bytesToInt64 (bytes : List UInt8) : Except String Int64 :=
  if bytes.length ≠ 8 then .error "Invalid int64 payload size"
  else .ok (UInt64.ofNat (ByteString.decode bytes)).toInt64

/-- The body of the loop of `consumer`: what is printed for a message. -/
def consumerLoop (m : Message) : Except String (Option Value) :=
  if m.type = .stop then .ok (some .stop)
  else if m.type = .text then .ok (some (.text (bytesToString m.payload)))
  else if m.type = .number then
    match bytesToInt64 m.payload with
    | .error e => .error e
    | .ok value => .ok (some (.number value))
  else .ok none

/-- `BytesToInt64` accepts what `SendNumber` sends, and returns it. -/
theorem bytesToInt64_encode (value : Int64) :
    bytesToInt64 (ByteString.encode 8 value.toUInt64.toNat) = .ok value := by
  rw [bytesToInt64, if_neg (by simp),
    ByteString.decode_encode (lt_of_lt_of_le value.toUInt64.toNat_lt (by decide)), UInt64.ofNat_toNat,
    Int64.toInt64_toUInt64]

/-- **The round trip**: the consumer prints what was sent. -/
theorem consumerLoop_message (v : Value) : consumerLoop v.message = .ok (some v) := by
  cases v with
  | text bytes => rfl
  | number x =>
      have hx := bytesToInt64_encode x
      simp [consumerLoop, Value.message, hx]
  | stop => rfl

theorem Value.message_injective : Function.Injective Value.message := by
  intro v w h
  have heq := congrArg consumerLoop h
  rw [consumerLoop_message, consumerLoop_message] at heq
  exact Option.some.inj (Except.ok.inj heq)

theorem Value.sendable (v : Value) : v.message.type.Sendable := by
  cases v with
  | text bytes => exact Or.inl rfl
  | number x => exact Or.inr (Or.inl rfl)
  | stop => exact Or.inr (Or.inr rfl)

/-- The values up to the first stop. -/
def upToStop : List Value → List Value
  | [] => []
  | v :: vs => if v = .stop then [v] else v :: upToStop vs

/-! ### The programs -/

/-- Where the loop of `Send`, or the loop of `consumer` and `Receive`, is. -/
inductive Phase
  /-- About to call `TrySend`, or `TryReceive`. -/
  | ready
  /-- Inside of the call, or about to look at its outcome. -/
  | calling
  /-- The consumer has received a stop. -/
  | exited
  /-- The program has been left by an exception. -/
  | threw
  deriving DecidableEq

/-- The queue and the programs: the values that each producer has not yet sent, the first of which is the
one that it is sending, and what the consumer has printed. -/
structure Clients (ι : Type*) where
  queue : State ι
  todo : ι → List Value
  sender : ι → Phase
  receiver : Phase
  output : List Value

/-- The steps of the programs. -/
inductive ClientAction (ι : Type*)
  /-- `Send` calls `TrySend`. -/
  | trySend (i : ι)
  /-- `Send` looks at what `TrySend` has returned. -/
  | sendReturned (i : ι)
  /-- A step inside of `TrySend`, or of `TryReceive`. -/
  | inside (a : Action ι)
  /-- `Receive` calls `TryReceive`. -/
  | tryReceive
  /-- `Receive` looks at what `TryReceive` has returned, and the consumer handles the message. -/
  | receiveReturned

/-- The step is one inside of a call. -/
def Action.inside (s : State ι) : Action ι → Bool
  | .send (.trySend _ _) => false
  | .send _ => true
  | .receive =>
      match s.recv with
      | .idle _ => false
      | _ => true

/-- The consumer handles a message. -/
def Clients.consume (c : Clients ι) (m : Message) : Clients ι :=
  match consumerLoop m with
  | .error _ => { c with receiver := .threw }
  | .ok printed =>
      { c with
        output := c.output ++ printed.toList
        receiver := if m.type = .stop then .exited else .ready }

variable [DecidableEq ι]

/-- The step function of the programs, on the queue `Q`. -/
def clientStep (Q : Automaton (State ι) (Action ι)) (c : Clients ι) : ClientAction ι → Option (Clients ι)
  | .trySend i =>
      match c.sender i, c.todo i with
      | .ready, v :: _ => (Q.step c.queue (.send (.trySend i v.message))).map fun q =>
          { c with queue := q, sender := Function.update c.sender i .calling }
      | _, _ => none
  | .sendReturned i =>
      match c.sender i, c.queue.pc i with
      | .calling, .idle (some (.ok true)) =>
          some { c with
            todo := Function.update c.todo i (c.todo i).tail
            sender := Function.update c.sender i .ready }
      | .calling, .idle (some (.ok false)) =>
          some { c with sender := Function.update c.sender i .ready }
      | .calling, .idle (some (.error _)) =>
          some { c with sender := Function.update c.sender i .threw }
      | _, _ => none
  | .inside a =>
      if a.inside c.queue then (Q.step c.queue a).map fun q => { c with queue := q } else none
  | .tryReceive =>
      if c.receiver = .ready then
        (Q.step c.queue .receive).map fun q => { c with queue := q, receiver := .calling }
      else none
  | .receiveReturned =>
      match c.receiver, c.queue.recv with
      | .calling, .idle (some none) => some { c with receiver := .ready }
      | .calling, .idle (some (some m)) => some (c.consume m)
      | _, _ => none

omit [DecidableEq ι] in
/-- The programs before their first step. -/
def Clients.initial (prog : ι → List Value) : Clients ι :=
  ⟨State.initial, prog, fun _ => .ready, .ready, []⟩

/-- The producers with the programs `prog` and the consumer, on the queue `Q`. -/
def clientSystem (Q : Automaton (State ι) (Action ι)) (prog : ι → List Value) :
    Automaton (Clients ι) (ClientAction ι) where
  init c := c = Clients.initial prog
  step := clientStep Q

/-- The effects of a step of the programs, one constructor for each. -/
inductive ClientEffect (Q : Automaton (State ι) (Action ι)) (c : Clients ι) :
    ClientAction ι → Clients ι → Prop
  | trySend (i : ι) (v : Value) (vs : List Value) (q : State ι) : c.sender i = .ready →
      c.todo i = v :: vs → Q.step c.queue (.send (.trySend i v.message)) = some q →
      ClientEffect Q c (.trySend i)
        { c with queue := q, sender := Function.update c.sender i .calling }
  | sent (i : ι) : c.sender i = .calling → c.queue.pc i = .idle (some (.ok true)) →
      ClientEffect Q c (.sendReturned i)
        { c with
          todo := Function.update c.todo i (c.todo i).tail
          sender := Function.update c.sender i .ready }
  | full (i : ι) : c.sender i = .calling → c.queue.pc i = .idle (some (.ok false)) →
      ClientEffect Q c (.sendReturned i) { c with sender := Function.update c.sender i .ready }
  | threw (i : ι) (e : String) : c.sender i = .calling → c.queue.pc i = .idle (some (.error e)) →
      ClientEffect Q c (.sendReturned i) { c with sender := Function.update c.sender i .threw }
  | inside (a : Action ι) (q : State ι) : a.inside c.queue = true → Q.step c.queue a = some q →
      ClientEffect Q c (.inside a) { c with queue := q }
  | tryReceive (q : State ι) : c.receiver = .ready → Q.step c.queue .receive = some q →
      ClientEffect Q c .tryReceive { c with queue := q, receiver := .calling }
  | nothing : c.receiver = .calling → c.queue.recv = .idle (some none) →
      ClientEffect Q c .receiveReturned { c with receiver := .ready }
  | received (m : Message) : c.receiver = .calling → c.queue.recv = .idle (some (some m)) →
      ClientEffect Q c .receiveReturned (c.consume m)

/-- **Inversion of the step function of the programs.** -/
theorem effect_of_clientStep {Q : Automaton (State ι) (Action ι)} {c c' : Clients ι}
    {a : ClientAction ι} (h : clientStep Q c a = some c') : ClientEffect Q c a c' := by
  cases a with
  | trySend i =>
      simp only [clientStep] at h
      split at h
      · next v vs hready htodo =>
          obtain ⟨q, hq, rfl⟩ := Option.map_eq_some_iff.1 h
          exact ClientEffect.trySend i v vs q hready htodo hq
      · cases h
  | sendReturned i =>
      simp only [clientStep] at h
      split at h
      · next hcalling hp =>
          rw [← Option.some.inj h]
          exact ClientEffect.sent i hcalling hp
      · next hcalling hp =>
          rw [← Option.some.inj h]
          exact ClientEffect.full i hcalling hp
      · next e hcalling hp =>
          rw [← Option.some.inj h]
          exact ClientEffect.threw i e hcalling hp
      · cases h
  | inside a =>
      simp only [clientStep, Option.ite_none_right_eq_some, Option.map_eq_some_iff] at h
      obtain ⟨hinside, q, hq, rfl⟩ := h
      exact ClientEffect.inside a q hinside hq
  | tryReceive =>
      simp only [clientStep, Option.ite_none_right_eq_some, Option.map_eq_some_iff] at h
      obtain ⟨hready, q, hq, rfl⟩ := h
      exact ClientEffect.tryReceive q hready hq
  | receiveReturned =>
      simp only [clientStep] at h
      split at h
      · next hcalling hp =>
          rw [← Option.some.inj h]
          exact ClientEffect.nothing hcalling hp
      · next m hcalling hp =>
          rw [← Option.some.inj h]
          exact ClientEffect.received m hcalling hp
      · cases h

/-- **The queue under the programs** runs as it does on its own. -/
theorem queue_reachable {Q : Automaton (State ι) (Action ι)} {prog : ι → List Value}
    (hinit : Q.init State.initial) {c : Clients ι} (h : (clientSystem Q prog).Reachable c) :
    Q.Reachable c.queue := by
  refine h.invariant (I := fun c => Q.Reachable c.queue) ?_ ?_
  · intro c hc
    rw [show c = Clients.initial prog from hc]
    exact Automaton.Reachable.init hinit
  · intro c a c' _ hr hst
    cases effect_of_clientStep hst with
    | trySend i v vs q hready htodo hq => exact hr.step _ hq
    | inside a q hinside hq => exact hr.step _ hq
    | tryReceive q hready hq => exact hr.step _ hq
    | received m hcalling hp =>
        rw [Clients.consume]
        cases consumerLoop m <;> exact hr
    | _ => exact hr

/-! ### The loop of `Send` -/

section Sender

variable {sent : List Message} {prog todo : List Value} {p p' : SendPc ι} {phase : Phase}

/-- The message that a producer is sending. -/
def SendPc.sending? : SendPc ι → Option Message
  | .loadReadPos m | .loadReservePos m _ | .reserving m _ _ => some m
  | .writing r _ => some r.message
  | .idle _ => none

/-- The last call of `TrySend` has returned `true`. -/
def SendPc.succeeded : SendPc ι → Bool
  | .idle (some (.ok true)) => true
  | _ => false

/-- The values that a producer has not yet sent: its loop drops the first one where it finds that
`TrySend` has returned `true`. -/
def unsent (p : SendPc ι) (phase : Phase) (todo : List Value) : List Value :=
  if phase = .calling ∧ p.succeeded = true then todo.tail else todo

/-- What the loop of `Send` keeps, of one producer with the program `prog` that has committed the messages
`sent`. -/
structure Sender (bufferSize : ℕ) (prog : List Value) (sent : List Message) (p : SendPc ι)
    (phase : Phase) (todo : List Value) : Prop where
  sent : sent ++ (unsent p phase todo).map Value.message = prog.map Value.message
  sending : ∀ m ∈ p.sending?, phase = .calling ∧ ∃ v ∈ todo.head?, v.message = m
  error : ∀ e, p = .idle (some (.error e)) →
    phase ≠ .ready ∧ ∃ v ∈ todo.head?, bufferSize < messageSize v.message
  threw : phase = .threw → ∃ e, p = .idle (some (.error e))
  called : phase = .calling → p ≠ .idle none
  running : phase ≠ .exited

omit [DecidableEq ι] in
theorem SendPc.succeeded_of_sending {m : Message} (h : m ∈ p.sending?) : p.succeeded = false := by
  cases p with
  | idle result => simp [SendPc.sending?] at h
  | _ => rfl

omit [DecidableEq ι] in
/-- Inside of `TrySend` the producer goes on with the same message, or finds the ring full. -/
theorem Sender.move (h : Sender bufferSize prog sent p phase todo) {m : Message} (hp : m ∈ p.sending?)
    (hp' : m ∈ p'.sending? ∨ p' = .idle (some (.ok false))) :
    Sender bufferSize prog sent p' phase todo := by
  obtain ⟨hcalling, hhead⟩ := h.sending m hp
  have hsent := h.sent
  rw [unsent, SendPc.succeeded_of_sending hp, if_neg (by simp)] at hsent
  rcases hp' with hp' | rfl
  · refine ⟨?_, ?_, ?_, ?_, ?_, ?_⟩
    · rw [unsent, SendPc.succeeded_of_sending hp', if_neg (by simp)]
      exact hsent
    · intro m' hm'
      rw [Option.mem_unique hm' hp']
      exact ⟨hcalling, hhead⟩
    · rintro e rfl
      simp [SendPc.sending?] at hp'
    · simp [hcalling]
    · rintro - rfl
      simp [SendPc.sending?] at hp'
    · exact h.running
  · refine ⟨?_, by simp [SendPc.sending?], by simp, by simp [hcalling], by simp, h.running⟩
    rw [unsent, if_neg (by simp [SendPc.succeeded])]
    exact hsent

omit [DecidableEq ι] in
/-- The call returns `true`, and the message has been committed. -/
theorem Sender.commit (h : Sender bufferSize prog sent p phase todo) {m : Message}
    (hp : m ∈ p.sending?) :
    Sender bufferSize prog (sent ++ [m]) (.idle (some (.ok true)) : SendPc ι) phase todo := by
  obtain ⟨hcalling, v, hv, rfl⟩ := h.sending m hp
  have hsent := h.sent
  rw [unsent, SendPc.succeeded_of_sending hp, if_neg (by simp)] at hsent
  refine ⟨?_, by simp [SendPc.sending?], by simp, by simp [hcalling], by simp, h.running⟩
  rw [unsent, if_pos ⟨hcalling, rfl⟩, List.append_assoc, ← hsent]
  cases todo with
  | nil => simp at hv
  | cons w vs =>
      obtain rfl := Option.some.inj hv
      rfl

omit [DecidableEq ι] in
/-- `Send` calls `TrySend`. -/
theorem Sender.call (h : Sender bufferSize prog sent p .ready todo) {v : Value} {vs : List Value}
    (htodo : todo = v :: vs) :
    Sender bufferSize prog sent
      (if messageSize v.message > bufferSize then .idle (some (.error tooLarge))
        else .loadReadPos v.message : SendPc ι) .calling todo := by
  have hsent : sent ++ todo.map Value.message = prog.map Value.message := h.sent
  split_ifs with hlarge
  · refine ⟨hsent, by simp [SendPc.sending?], ?_, by simp, by simp, by simp⟩
    intro e _
    exact ⟨by simp, v, by simp [htodo], hlarge⟩
  · refine ⟨hsent, ?_, by simp, by simp, by simp, by simp⟩
    intro m hm
    obtain rfl := Option.some.inj hm
    exact ⟨rfl, v, by simp [htodo], rfl⟩

end Sender

/-- The messages of producer `i` that have been committed, in order. -/
def Producers.sentBy (s : Producers ι) (i : ι) : List Message :=
  (s.committed.filter fun r => r.owner = i).map Reservation.message

/-- What the loops of `Send` keep, of all producers. -/
def Sends (bufferSize : ℕ) (prog : ι → List Value) (c : Clients ι) : Prop :=
  ∀ i, Sender bufferSize (prog i) (c.queue.sentBy i) (c.queue.pc i) (c.sender i) (c.todo i)

section Sends

variable {prog : ι → List Value} {c : Clients ι}

/-- What one producer does leaves the others as they are. -/
theorem Sends.update (h : Sends bufferSize prog c) {c' : Clients ι} (i : ι)
    (hothers : ∀ j, j ≠ i → c'.queue.sentBy j = c.queue.sentBy j ∧ c'.queue.pc j = c.queue.pc j ∧
      c'.sender j = c.sender j ∧ c'.todo j = c.todo j)
    (hi : Sender bufferSize (prog i) (c'.queue.sentBy i) (c'.queue.pc i) (c'.sender i) (c'.todo i)) :
    Sends bufferSize prog c' := by
  intro j
  by_cases hj : j = i
  · rw [hj]
    exact hi
  · obtain ⟨hsent, hpc, hsender, htodo⟩ := hothers j hj
    rw [hsent, hpc, hsender, htodo]
    exact h j

/-- A producer moves inside of `TrySend`. -/
theorem Sends.move (h : Sends bufferSize prog c) {q : Producers ι} {i : ι} {p : SendPc ι} {m : Message}
    (hcommitted : q.committed = c.queue.committed) (hpc : q.pc = Function.update c.queue.pc i p)
    (hp : m ∈ (c.queue.pc i).sending?) (hp' : m ∈ p.sending? ∨ p = .idle (some (.ok false))) :
    Sends bufferSize prog { c with queue := { c.queue with toProducers := q } } := by
  have hsent : ∀ j, q.sentBy j = c.queue.sentBy j := fun j => by
    rw [Producers.sentBy, Producers.sentBy, hcommitted]
  refine h.update i ?_ ?_
  · intro j hj
    exact ⟨hsent j, by simp [hpc, hj], rfl, rfl⟩
  · show Sender bufferSize (prog i) (q.sentBy i) (q.pc i) (c.sender i) (c.todo i)
    rw [hsent, hpc, Function.update_self]
    exact (h i).move hp hp'

/-- **A step inside of `TrySend` keeps the loops of `Send`.** -/
theorem Sends.send (h : Sends bufferSize prog c) (hr : Ranges bufferSize c.queue.toProducers)
    {q : Producers ι} {a : SendAction ι} (ha : a.message? = none)
    (he : SendEffect bufferSize c.queue.toProducers a q) :
    Sends bufferSize prog { c with queue := { c.queue with toProducers := q } } := by
  cases he with
  | call i m result hp => simp [SendAction.message?] at ha
  | loadReadPos i m hp =>
      exact h.move (m := m) (i := i) rfl rfl (by simp [hp, SendPc.sending?])
        (Or.inl (by simp [SendPc.sending?]))
  | checkSpace i m readPos hp =>
      rw [Producers.checkSpace]
      split_ifs
      · exact h.move (m := m) (i := i) rfl rfl (by simp [hp, SendPc.sending?]) (Or.inr rfl)
      · exact h.move (m := m) (i := i) rfl rfl (by simp [hp, SendPc.sending?])
          (Or.inl (by simp [SendPc.sending?]))
  | retry i b m readPos reservePos hp =>
      exact h.move (m := m) (i := i) rfl rfl (by simp [hp, SendPc.sending?])
        (Or.inl (by simp [SendPc.sending?]))
  | win i m readPos hp =>
      exact h.move (m := m) (i := i) rfl rfl (by simp [hp, SendPc.sending?])
        (Or.inl (by simp [SendPc.sending?, reservation]))
  | write i r w todo hp =>
      exact h.move (m := r.message) (i := i) rfl rfl (by simp [hp, SendPc.sending?])
        (Or.inl (by simp [SendPc.sending?]))
  | wait i b => exact h
  | commit i r hp heq =>
      obtain ⟨-, rfl, -⟩ := hr.writing i r (by rw [hp]; rfl)
      refine h.update r.owner ?_ ?_
      · intro j hj
        refine ⟨?_, ?_, rfl, rfl⟩
        · show ((c.queue.committed ++ [r]).filter _).map _ = _
          rw [List.filter_append, List.filter_cons_of_neg (by simpa using Ne.symm hj), List.filter_nil,
            List.append_nil]
          rfl
        · show Function.update c.queue.pc r.owner _ j = _
          rw [Function.update_of_ne hj]
      · have hsent : (c.queue.commit r.owner r).sentBy r.owner =
            c.queue.sentBy r.owner ++ [r.message] := by
          show ((c.queue.committed ++ [r]).filter _).map _ = _
          rw [List.filter_append, List.filter_cons_of_pos (by simp), List.map_append]
          rfl
        show Sender bufferSize (prog r.owner) ((c.queue.commit r.owner r).sentBy r.owner)
          (Function.update c.queue.pc r.owner _ r.owner) (c.sender r.owner) (c.todo r.owner)
        rw [hsent, Function.update_self]
        exact (h r.owner).commit (by simp [hp, SendPc.sending?])

/-- The consumer leaves the loops of `Send` alone. -/
theorem Sends.receive (h : Sends bufferSize prog c) :
    Sends bufferSize prog { c with queue := recvStep bufferSize interestedType c.queue } := by
  intro i
  show Sender bufferSize (prog i) ((recvStep bufferSize interestedType c.queue).sentBy i)
    ((recvStep bufferSize interestedType c.queue).pc i) (c.sender i) (c.todo i)
  rcases toProducers_recvStep bufferSize interestedType c.queue with heq | ⟨value, _, -, heq⟩
  · rw [heq]
    exact h i
  · rw [heq]
    exact h i

/-- The queue under the programs makes a step of the unrestricted queue. -/
theorem step_of_sendable {s q : State ι} {a : Action ι}
    (h : (sendableSystem ι bufferSize interestedType).step s a = some q) :
    step bufferSize interestedType s a = some q := by
  obtain ⟨-, h⟩ := Automaton.restrict_step_eq_some.1 h
  obtain ⟨-, h⟩ := Automaton.restrict_step_eq_some.1 h
  exact (Automaton.restrict_step_eq_some.1 h).2

/-- **Every step of the programs keeps the loops of `Send`.** -/
theorem Sends.step (h : Sends bufferSize prog c) (hr : Ranges bufferSize c.queue.toProducers)
    {a : ClientAction ι} {c' : Clients ι}
    (he : ClientEffect (sendableSystem ι bufferSize interestedType) c a c') :
    Sends bufferSize prog c' := by
  cases he with
  | trySend i v vs q hready htodo hq =>
      obtain ⟨p, hp, rfl⟩ := Option.map_eq_some_iff.1 (step_of_sendable hq)
      cases effect_of_sendStep hp with
      | call _ _ result hidle =>
          refine h.update i ?_ ?_
          · intro j hj
            exact ⟨rfl, Function.update_of_ne hj _ _, Function.update_of_ne hj _ _, rfl⟩
          · show Sender bufferSize (prog i) (c.queue.sentBy i) (Function.update c.queue.pc i _ i)
              (Function.update c.sender i .calling i) (c.todo i)
            rw [Function.update_self, Function.update_self]
            have hi := h i
            rw [hready] at hi
            exact hi.call htodo
  | sent i hcalling hp =>
      refine h.update i ?_ ?_
      · intro j hj
        exact ⟨rfl, rfl, Function.update_of_ne hj _ _, Function.update_of_ne hj _ _⟩
      · show Sender bufferSize (prog i) (c.queue.sentBy i) (c.queue.pc i)
          (Function.update c.sender i .ready i) (Function.update c.todo i (c.todo i).tail i)
        rw [Function.update_self, Function.update_self]
        have hsent := (h i).sent
        rw [unsent, if_pos ⟨hcalling, by rw [hp]; rfl⟩] at hsent
        exact ⟨hsent, by simp [hp, SendPc.sending?], by simp [hp], by simp, by simp, by simp⟩
  | full i hcalling hp =>
      refine h.update i ?_ ?_
      · intro j hj
        exact ⟨rfl, rfl, Function.update_of_ne hj _ _, rfl⟩
      · show Sender bufferSize (prog i) (c.queue.sentBy i) (c.queue.pc i)
          (Function.update c.sender i .ready i) (c.todo i)
        rw [Function.update_self]
        have hsent := (h i).sent
        rw [unsent, if_neg (by simp [hp, SendPc.succeeded])] at hsent
        exact ⟨hsent, by simp [hp, SendPc.sending?], by simp [hp], by simp, by simp, by simp⟩
  | threw i e hcalling hp =>
      refine h.update i ?_ ?_
      · intro j hj
        exact ⟨rfl, rfl, Function.update_of_ne hj _ _, rfl⟩
      · show Sender bufferSize (prog i) (c.queue.sentBy i) (c.queue.pc i)
          (Function.update c.sender i .threw i) (c.todo i)
        rw [Function.update_self]
        have hsent := (h i).sent
        rw [unsent, if_neg (by simp [hp, SendPc.succeeded])] at hsent
        refine ⟨hsent, by simp [hp, SendPc.sending?], ?_, fun _ => ⟨e, hp⟩, by simp, by simp⟩
        intro e' he'
        exact ⟨by simp, ((h i).error e' he').2⟩
  | inside a q hinside hq =>
      have hstep := step_of_sendable hq
      cases a with
      | send a =>
          obtain ⟨p, hp, rfl⟩ := Option.map_eq_some_iff.1 hstep
          refine h.send hr ?_ (effect_of_sendStep hp)
          cases a with
          | trySend i m => simp [Action.inside] at hinside
          | _ => rfl
      | receive =>
          rw [← Option.some.inj hstep]
          exact h.receive
  | tryReceive q hready hq =>
      rw [← Option.some.inj (step_of_sendable hq)]
      exact h.receive
  | nothing hcalling hp => exact h
  | received m hcalling hp =>
      rw [Clients.consume]
      cases consumerLoop m <;> exact h

end Sends

/-! ### The loop of the consumer -/

/-- The message that `TryReceive` has returned. -/
def RecvPc.result : RecvPc → List Message
  | .idle (some (some m)) => [m]
  | _ => []

omit [DecidableEq ι] in
/-- The consumer obtains the message that `TryReceive` returns, where it returns. -/
theorem obtained_recvStep (bufferSize : ℕ) (interestedType : MessageType) (s : State ι) :
    (recvStep bufferSize interestedType s).obtained =
      s.obtained ++ (recvStep bufferSize interestedType s).recv.result := by
  cases hp : s.recv with
  | loadCommitPos readPos =>
      simp only [recvStep, hp, State.peek]
      split_ifs <;> simp [RecvPc.result]
  | readHeader readPos commitPos =>
      simp only [recvStep, hp, State.readBuffer, afterHeader]
      split_ifs <;> simp [RecvPc.result]
  | storeReadPos value result =>
      rw [recvStep, hp]
      cases result with
      | none => simp [State.release, RecvPc.result]
      | some result => cases result <;> simp [State.release, RecvPc.result]
  | _ => simp [recvStep, hp, State.readBuffer, RecvPc.result]

omit [DecidableEq ι] in
theorem recvStep_ne_idle_none (bufferSize : ℕ) (interestedType : MessageType) (s : State ι) :
    (recvStep bufferSize interestedType s).recv ≠ .idle none := by
  cases hp : s.recv with
  | loadCommitPos readPos =>
      simp only [recvStep, hp, State.peek]
      split_ifs <;> simp
  | readHeader readPos commitPos =>
      simp only [recvStep, hp, State.readBuffer, afterHeader]
      split_ifs <;> simp
  | storeReadPos value result =>
      rw [recvStep, hp]
      cases result <;> simp [State.release]
  | _ => simp [recvStep, hp, State.readBuffer]

/-- What the loop of the consumer keeps. -/
structure Receives (c : Clients ι) : Prop where
  obtained : c.output.map Value.message ++
    (if c.receiver = .calling then c.queue.recv.result else []) = c.queue.obtained
  idle : c.receiver ≠ .calling → ∃ result, c.queue.recv = .idle result
  called : c.receiver = .calling → c.queue.recv ≠ .idle none
  noThrow : c.receiver ≠ .threw
  running : c.receiver ≠ .exited → .stop ∉ c.output
  exited : c.receiver = .exited → ∃ vs, c.output = vs ++ [.stop] ∧ .stop ∉ vs

theorem Receives.step {c c' : Clients ι} (h : Receives c)
    (hvalues : ∀ m ∈ c.queue.obtained, ∃ v : Value, v.message = m) {a : ClientAction ι}
    (he : ClientEffect (sendableSystem ι bufferSize interestedType) c a c') : Receives c' := by
  cases he with
  | trySend i v vs q hready htodo hq =>
      obtain ⟨p, -, rfl⟩ := Option.map_eq_some_iff.1 (step_of_sendable hq)
      exact ⟨h.obtained, h.idle, h.called, h.noThrow, h.running, h.exited⟩
  | sent i hcalling hp => exact ⟨h.obtained, h.idle, h.called, h.noThrow, h.running, h.exited⟩
  | full i hcalling hp => exact ⟨h.obtained, h.idle, h.called, h.noThrow, h.running, h.exited⟩
  | threw i e hcalling hp => exact ⟨h.obtained, h.idle, h.called, h.noThrow, h.running, h.exited⟩
  | inside a q hinside hq =>
      have hstep := step_of_sendable hq
      cases a with
      | send a =>
          obtain ⟨p, -, rfl⟩ := Option.map_eq_some_iff.1 hstep
          exact ⟨h.obtained, h.idle, h.called, h.noThrow, h.running, h.exited⟩
      | receive =>
          rw [← Option.some.inj hstep]
          have hrecv : ∀ result, c.queue.recv ≠ .idle result := by
            intro result hp
            simp [Action.inside, hp] at hinside
          have hcalling : c.receiver = .calling := by
            by_contra hnot
            obtain ⟨result, hp⟩ := h.idle hnot
            exact hrecv result hp
          have hnone : c.queue.recv.result = [] := by
            cases hp : c.queue.recv with
            | idle result => exact absurd hp (hrecv result)
            | _ => rfl
          have hobtained := h.obtained
          rw [if_pos hcalling, hnone, List.append_nil] at hobtained
          refine ⟨?_, fun hnot => absurd hcalling hnot, fun _ => recvStep_ne_idle_none _ _ _, h.noThrow,
            h.running, h.exited⟩
          rw [if_pos hcalling, obtained_recvStep, hobtained]
  | tryReceive q hready hq =>
      rw [← Option.some.inj (step_of_sendable hq)]
      have hobtained := h.obtained
      rw [hready, if_neg (by simp), List.append_nil] at hobtained
      refine ⟨?_, fun hnot => absurd rfl hnot, fun _ => recvStep_ne_idle_none _ _ _, by simp,
        fun _ => h.running (by simp [hready]), by simp⟩
      rw [if_pos rfl, obtained_recvStep, hobtained]
  | nothing hcalling hp =>
      have hobtained := h.obtained
      rw [if_pos hcalling, hp] at hobtained
      exact ⟨hobtained, fun _ => ⟨_, hp⟩, by simp, by simp, fun _ => h.running (by simp [hcalling]),
        by simp⟩
  | received m hcalling hp =>
      have hobtained := h.obtained
      rw [if_pos hcalling, hp, show (RecvPc.idle (some (some m))).result = [m] from rfl] at hobtained
      obtain ⟨v, rfl⟩ := hvalues m (by simp [← hobtained])
      have hrunning : .stop ∉ c.output := h.running (by simp [hcalling])
      have hstop : v.message.type = .stop ↔ v = .stop := by cases v <;> simp [Value.message]
      have hconsume : c.consume v.message = { c with
          output := c.output ++ [v]
          receiver := if v = .stop then .exited else .ready } := by
        rw [Clients.consume, consumerLoop_message]
        simp [hstop]
      rw [hconsume]
      refine ⟨?_, fun _ => ⟨_, hp⟩, fun _ => by simp [hp], ?_, ?_, ?_⟩
      · show (c.output ++ [v]).map Value.message ++ _ = c.queue.obtained
        rw [if_neg (by split_ifs <;> simp), List.map_append, List.append_nil]
        exact hobtained
      · show (if v = .stop then Phase.exited else .ready) ≠ .threw
        split_ifs <;> simp
      · intro hnot
        have hv : v ≠ .stop := by
          rintro rfl
          exact hnot rfl
        rw [List.mem_append, List.mem_singleton, not_or]
        exact ⟨hrunning, Ne.symm hv⟩
      · intro hexited
        simp only at hexited
        split_ifs at hexited with hv
        exact ⟨c.output, by rw [hv], hrunning⟩

/-! ### Both ends -/

/-- A list that runs up to its first stop, if it has one, and is a first part of another. -/
theorem prefix_upToStop {out vs : List Value} (h : out <+: vs) :
    (.stop ∉ out → out <+: upToStop vs) ∧
      ((∃ ws, out = ws ++ [.stop] ∧ .stop ∉ ws) → out = upToStop vs) := by
  induction vs generalizing out with
  | nil =>
      obtain rfl := List.prefix_nil.1 h
      simp
  | cons v vs ih =>
      cases out with
      | nil => simp
      | cons w out =>
          obtain ⟨rfl, htail⟩ := List.cons_prefix_cons.1 h
          obtain ⟨hrunning, hexited⟩ := ih htail
          refine ⟨?_, ?_⟩
          · intro hnot
            rw [List.mem_cons, not_or] at hnot
            rw [upToStop, if_neg (Ne.symm hnot.1)]
            exact List.cons_prefix_cons.2 ⟨rfl, hrunning hnot.2⟩
          · rintro ⟨ws, heq, hnot⟩
            cases ws with
            | nil =>
                obtain ⟨rfl, rfl⟩ := List.cons.inj heq
                simp [upToStop]
            | cons x ws =>
                obtain ⟨rfl, rfl⟩ := List.cons.inj heq
                rw [List.mem_cons, not_or] at hnot
                rw [upToStop, if_neg (Ne.symm hnot.1), ← hexited ⟨ws, rfl, hnot.2⟩]

/-- What holds of the programs at both ends. -/
structure ClientDelivery (bufferSize : ℕ) (interestedType : MessageType) (prog : ι → List Value)
    (c : Clients ι) : Prop where
  /-- A producer's messages are committed in the order of its program, each once. -/
  sent : ∀ i, c.queue.sentBy i <+: (prog i).map Value.message
  finished : ∀ i, c.todo i = [] → c.queue.sentBy i = (prog i).map Value.message
  /-- What is printed are the values committed that pass the filter, in order, up to the first stop. -/
  printed : ∃ values : List Value, c.queue.committed.map Reservation.message = values.map Value.message ∧
    c.output <+: upToStop (values.filter fun v => wanted interestedType v.message.type) ∧
    (c.receiver = .exited →
      c.output = upToStop (values.filter fun v => wanted interestedType v.message.type))
  noThrow : c.receiver ≠ .threw
  tooLarge : ∀ i, c.sender i = .threw → ∃ v ∈ (c.todo i).head?, bufferSize < messageSize v.message

section Runs

variable {prog : ι → List Value} {c : Clients ι}

/-- What has been committed are messages of values. -/
theorem Sends.exists_value (h : Sends bufferSize prog c) {r : Reservation ι}
    (hr : r ∈ c.queue.committed) : ∃ v : Value, v.message = r.message := by
  have hmem : r.message ∈ c.queue.sentBy r.owner :=
    List.mem_map_of_mem (List.mem_filter.2 ⟨hr, by simp⟩)
  have hprog : r.message ∈ (prog r.owner).map Value.message := by
    rw [← (h r.owner).sent]
    exact List.mem_append_left _ hmem
  obtain ⟨v, -, hv⟩ := List.mem_map.1 hprog
  exact ⟨v, hv⟩

theorem sends_initial : Sends bufferSize prog (Clients.initial prog) := by
  intro i
  refine ⟨?_, by simp [Clients.initial, State.initial, Producers.initial, SendPc.sending?], ?_, ?_, ?_,
    ?_⟩
  · simp [Producers.sentBy, Clients.initial, State.initial, Producers.initial, unsent]
  · simp [Clients.initial, State.initial, Producers.initial]
  all_goals simp [Clients.initial]

omit [DecidableEq ι] in
theorem receives_initial : Receives (Clients.initial prog) :=
  ⟨rfl, fun _ => ⟨none, rfl⟩, by simp [Clients.initial], by simp [Clients.initial],
    by simp [Clients.initial], by simp [Clients.initial]⟩

/-- What the loops keep makes up the delivery from end to end. -/
theorem delivery_of_invariants (hsends : Sends bufferSize prog c) (hreceives : Receives c)
    (hdelivered : Delivered bufferSize interestedType c.queue) :
    ClientDelivery bufferSize interestedType prog c := by
  refine ⟨?_, ?_, ?_, hreceives.noThrow, ?_⟩
  · intro i
    rw [← (hsends i).sent]
    exact List.prefix_append _ _
  · intro i hnil
    have hsent := (hsends i).sent
    rw [hnil, unsent] at hsent
    simpa using hsent
  · obtain ⟨values, hvalues⟩ : ∃ values : List Value,
        values.map Value.message = c.queue.committed.map Reservation.message := by
      have hrange : c.queue.committed.map Reservation.message ∈ Set.range (List.map Value.message) := by
        rw [Set.range_list_map]
        intro m hm
        obtain ⟨r, hr, rfl⟩ := List.mem_map.1 hm
        exact hsends.exists_value hr
      exact hrange
    have hpre : c.output <+: values.filter fun v => wanted interestedType v.message.type := by
      have hobtained : c.output.map Value.message <+:
          (values.filter fun v => wanted interestedType v.message.type).map Value.message := by
        have hdeliverable : (values.filter fun v => wanted interestedType v.message.type).map
            Value.message = deliverable interestedType c.queue.committed := by
          rw [deliverable, ← hvalues, List.filter_map]
          rfl
        rw [hdeliverable]
        refine List.IsPrefix.trans ?_ hdelivered.obtained_isPrefix
        rw [← hreceives.obtained]
        exact List.prefix_append _ _
      exact (List.prefix_map_iff_of_injective Value.message_injective).1 hobtained
    obtain ⟨hrunning, hexited⟩ := prefix_upToStop hpre
    refine ⟨values, hvalues.symm, ?_, fun hrecv => hexited (hreceives.exited hrecv)⟩
    by_cases hrecv : c.receiver = .exited
    · exact ⟨[], (List.append_nil _).trans (hexited (hreceives.exited hrecv))⟩
    · exact hrunning (hreceives.running hrecv)
  · intro i hthrew
    obtain ⟨e, he⟩ := (hsends i).threw hthrew
    exact ((hsends i).error e he).2

variable (h8 : bufferSize % 8 = 0) (hpos : 0 < bufferSize) (h64 : bufferSize < 2 ^ 64)

include h8 hpos h64

/-- The invariants of the programs. -/
theorem invariants_of_clients
    (h : (clientSystem (sendableSystem ι bufferSize interestedType) prog).Reachable c) :
    Sends bufferSize prog c ∧ Receives c := by
  refine h.invariant (I := fun c => Sends bufferSize prog c ∧ Receives c) ?_ ?_
  · intro c hc
    rw [show c = Clients.initial prog from hc]
    exact ⟨sends_initial, receives_initial⟩
  · intro c a c' hr hI hst
    obtain ⟨hsends, hreceives⟩ := hI
    have hqueue := queue_reachable (Q := sendableSystem ι bufferSize interestedType) rfl hr
    have he := effect_of_clientStep hst
    refine ⟨hsends.step (ring_of_reachable h8 hpos h64 hqueue).ranges he, hreceives.step ?_ he⟩
    intro m hm
    rw [(delivered_of_reachable h8 hpos h64 hqueue).obtained] at hm
    obtain ⟨r, hr, rfl⟩ := List.mem_map.1 (List.mem_of_mem_filter hm)
    exact hsends.exists_value (List.mem_of_mem_take hr)

/-- **Every value is printed as it was sent**, whatever the programs of the producers and the order of
their steps, in every run of `sendableSystem` on a ring whose size is a multiple of 8. -/
theorem clients_deliver
    (h : (clientSystem (sendableSystem ι bufferSize interestedType) prog).Reachable c) :
    ClientDelivery bufferSize interestedType prog c := by
  obtain ⟨hsends, hreceives⟩ := invariants_of_clients h8 hpos h64 h
  have hqueue := queue_reachable (Q := sendableSystem ι bufferSize interestedType) rfl h
  exact delivery_of_invariants hsends hreceives (delivered_of_reachable h8 hpos h64 hqueue)

end Runs

omit [DecidableEq ι] in
/-- A `Send` whose first `TrySend` succeeds at once, with `writes` writes. -/
def sendOnce (i : ι) (writes : ℕ) : List (ClientAction ι) :=
  [.trySend i, .inside (.send (.loadReadPos i)), .inside (.send (.loadReservePos i)),
    .inside (.send (.compareExchangeReserve i false))] ++
    List.replicate writes (.inside (.send (.write i))) ++
    [.inside (.send (.compareExchangeCommit i false)), .sendReturned i]

omit [DecidableEq ι] in
/-- A `Receive` whose first `TryReceive` returns a message, after `steps` steps. -/
def receiveOnce (steps : ℕ) : List (ClientAction ι) :=
  [.tryReceive] ++ List.replicate steps (.inside .receive) ++ [.receiveReturned]

/-- One producer sends a text and a number, another one a stop. -/
def textNumberStop : Fin 2 → List Value
  | 0 => [.text [104], .number (-7)]
  | 1 => [.stop]

/-- Everything is printed, and the consumer exits. -/
theorem clients_deliver_text_number_stop :
    ∃ c : Clients (Fin 2), (clientSystem (sendableSystem (Fin 2) 64 .all) textNumberStop).run
        (Clients.initial textNumberStop)
        (sendOnce 0 3 ++ sendOnce 0 2 ++ receiveOnce 5 ++ sendOnce 1 1 ++ receiveOnce 5 ++
          receiveOnce 4) = some c ∧
      c.output = [.text [104], .number (-7), .stop] ∧ c.receiver = .exited ∧
      ClientDelivery 64 .all textNumberStop c := by
  obtain ⟨c, hc⟩ : ∃ c, (clientSystem (sendableSystem (Fin 2) 64 .all) textNumberStop).run
      (Clients.initial textNumberStop)
      (sendOnce 0 3 ++ sendOnce 0 2 ++ receiveOnce 5 ++ sendOnce 1 1 ++ receiveOnce 5 ++
        receiveOnce 4) = some c := ⟨_, rfl⟩
  refine ⟨c, hc, ?_, ?_, clients_deliver (by decide) (by decide) (by decide)
    (Automaton.Reachable.of_run rfl hc)⟩
  · obtain rfl := Option.some_inj.1 hc
    decide
  · obtain rfl := Option.some_inj.1 hc
    decide

end MpscQueue
