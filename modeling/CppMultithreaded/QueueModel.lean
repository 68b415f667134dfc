/-
**The shared-memory queue of hw-5.**

Producers and a consumer share three atomic positions and a ring of bytes.  A `TrySend` loads
`readPos` and `reservePos`, computes the free space from the two, wins a range by a compare-exchange
on `reservePos`, writes its records, and publishes the range by a compare-exchange on `commitPos`.  A
`TryReceive` loads `readPos` and `commitPos`, reads the record at `readPos`, and releases it by a
store to `readPos`.  Every load, store, compare-exchange, `memcpy` and `memset` is a step of its own;
the local computation between two of them belongs to the earlier one.

Two automata share the steps of the producers: in `producers` the environment stores arbitrary values
to `readPos`, in `system` a consumer does.

Positions are natural numbers.  The subtractions of positions are those of `uint64_t`.

Main definitions:

* `MpscQueue.Reservation` — a range won on `reservePos`, with the writes its owner has to make;
* `MpscQueue.SendPc`, `MpscQueue.Producers`, `MpscQueue.SendAction`, `MpscQueue.sendStep` — the
  program points, the states and the steps of the producers;
* `MpscQueue.RecvPc`, `MpscQueue.State`, `MpscQueue.recvStep` — those of the consumer;
* `MpscQueue.producers`, `MpscQueue.system` — the automata.

Main results:

* `MpscQueue.effect_of_sendStep` — **inversion of the step function of the producers**;
* `MpscQueue.systemSimulation` — the consumer is one of the environments of `producers`.
-/

import CppMultithreaded.Automaton
import CppMultithreaded.QueueRecord

set_option relaxedAutoImplicit false
set_option autoImplicit false

namespace MpscQueue

variable {ι : Type*}

/-! ### Shared memory -/

/-- The members of the header of the queue, and the ring. -/
structure Shared where
  reservePos : ℕ
  commitPos : ℕ
  readPos : ℕ
  buffer : ℕ → UInt8

/-! ### Producers -/

/-- A range won on `reservePos`: who won it, in which of its calls, for which message, and the locals
of that call. -/
structure Reservation (ι : Type*) where
  owner : ι
  call : ℕ
  message : Message
  myBegin : ℕ
  paddingSize : ℕ
  deriving DecidableEq

/-- The bytes a range needs. -/
def Reservation.required (r : Reservation ι) : ℕ := r.paddingSize + messageSize r.message

/-- The end of the range. -/
def Reservation.myEnd (r : Reservation ι) : ℕ := r.myBegin + r.required

/-- The position of the message record. -/
def Reservation.messagePos (r : Reservation ι) : ℕ := r.myBegin + r.paddingSize

/-- The padding in front of a record of `size` bytes that is put at `reservePos`. -/
def paddingSizeAt (bufferSize reservePos size : ℕ) : ℕ :=
  let offset := reservePos % bufferSize
  let tailSpace := bufferSize - offset
  if tailSpace < size then u32 tailSpace else 0

/-- The free space, from the two positions a producer has loaded. -/
def freeSpace (bufferSize readPos reservePos : ℕ) : ℕ :=
  let used := sub64 reservePos readPos
  sub64 bufferSize used

/-- The range that producer `i` asks for in its call number `call`. -/
def reservation (bufferSize : ℕ) (i : ι) (call : ℕ) (m : Message) (reservePos : ℕ) :
    Reservation ι :=
  ⟨i, call, m, reservePos, paddingSizeAt bufferSize reservePos (messageSize m)⟩

/-- The writes of the owner of a range: the padding record, where there is room for a header, and the
message record. -/
def Reservation.writes (bufferSize : ℕ) (r : Reservation ι) : List Write :=
  (if 8 ≤ r.paddingSize then writePaddingRecord (r.myBegin % bufferSize) r.paddingSize else []) ++
    writeMessageRecord (r.messagePos % bufferSize) r.message

/-- A range is written in five steps at most. -/
theorem Reservation.length_writes_le (bufferSize : ℕ) (r : Reservation ι) :
    (r.writes bufferSize).length ≤ 5 := by
  rw [Reservation.writes, writeMessageRecord, writePaddingRecord, List.length_append]
  split_ifs <;> simp

/-- The exception of `TrySend`. -/
def tooLarge : String := "Message is too large for ring buffer"

/-- The program points of a producer. -/
inductive SendPc (ι : Type*)
  /-- Outside of `TrySend`, with the outcome of the last call. -/
  | idle (result : Option (Except String Bool))
  /-- At the top of the loop, about to load `readPos`. -/
  | loadReadPos (m : Message)
  /-- About to load `reservePos`. -/
  | loadReservePos (m : Message) (readPos : ℕ)
  /-- Has found enough free space, about to perform the compare-exchange on `reservePos`. -/
  | reserving (m : Message) (readPos reservePos : ℕ)
  /-- Has won a range, and has still to make the writes `todo`; where there are none left, about to
  perform the compare-exchange on `commitPos`. -/
  | writing (r : Reservation ι) (todo : List Write)

/-- A write that has been made: by whom, and for which range. -/
structure LogEntry (ι : Type*) where
  writer : ι
  range : Reservation ι
  write : Write
  deriving DecidableEq

/-- The shared memory and the producers, with their history: how many calls each producer has made,
the shared memory at the start of its last call, the ranges won, the ranges committed, and the writes
made, each in order. -/
structure Producers (ι : Type*) where
  shared : Shared
  pc : ι → SendPc ι
  calls : ι → ℕ
  entry : ι → Shared
  won : List (Reservation ι)
  committed : List (Reservation ι)
  written : List (LogEntry ι)

/-- The steps of the producers.  A weak compare-exchange may fail spuriously. -/
inductive SendAction (ι : Type*)
  | trySend (i : ι) (m : Message)
  | loadReadPos (i : ι)
  | loadReservePos (i : ι)
  | compareExchangeReserve (i : ι) (spurious : Bool)
  | write (i : ι)
  | compareExchangeCommit (i : ι) (spurious : Bool)

variable [DecidableEq ι]

/-- Producer `i` moves to the program point `p`. -/
def Producers.goto (s : Producers ι) (i : ι) (p : SendPc ι) : Producers ι :=
  { s with pc := Function.update s.pc i p }

/-- Producer `i` enters `TrySend`. -/
def Producers.call (bufferSize : ℕ) (s : Producers ι) (i : ι) (m : Message) : Producers ι :=
  { s.goto i (if messageSize m > bufferSize then .idle (some (.error tooLarge)) else .loadReadPos m) with
    calls := Function.update s.calls i (s.calls i + 1)
    entry := Function.update s.entry i s.shared }

/-- Producer `i` has loaded both positions and decides whether there is enough space. -/
def Producers.checkSpace (bufferSize : ℕ) (s : Producers ι) (i : ι) (m : Message)
    (readPos reservePos : ℕ) : Producers ι :=
  if freeSpace bufferSize readPos reservePos <
      paddingSizeAt bufferSize reservePos (messageSize m) + messageSize m then
    s.goto i (.idle (some (.ok false)))
  else s.goto i (.reserving m readPos reservePos)

/-- Producer `i` wins the range `r`. -/
def Producers.win (bufferSize : ℕ) (s : Producers ι) (i : ι) (r : Reservation ι) : Producers ι :=
  { s.goto i (.writing r (r.writes bufferSize)) with
    shared := { s.shared with reservePos := r.myEnd }
    won := s.won ++ [r] }

/-- Producer `i` makes the write `w` for its range `r`. -/
def Producers.write (s : Producers ι) (i : ι) (r : Reservation ι) (w : Write) (todo : List Write) :
    Producers ι :=
  { s.goto i (.writing r todo) with
    shared := { s.shared with buffer := ByteString.write s.shared.buffer w.pos w.bytes }
    written := s.written ++ [⟨i, r, w⟩] }

/-- Producer `i` commits its range `r`, and returns. -/
def Producers.commit (s : Producers ι) (i : ι) (r : Reservation ι) : Producers ι :=
  { s.goto i (.idle (some (.ok true))) with
    shared := { s.shared with commitPos := r.myEnd }
    committed := s.committed ++ [r] }

/-- The step function of the producers. -/
def sendStep (bufferSize : ℕ) (s : Producers ι) : SendAction ι → Option (Producers ι)
  | .trySend i m =>
      match s.pc i with
      | .idle _ => some (s.call bufferSize i m)
      | _ => none
  | .loadReadPos i =>
      match s.pc i with
      | .loadReadPos m => some (s.goto i (.loadReservePos m s.shared.readPos))
      | _ => none
  | .loadReservePos i =>
      match s.pc i with
      | .loadReservePos m readPos => some (s.checkSpace bufferSize i m readPos s.shared.reservePos)
      | _ => none
  | .compareExchangeReserve i spurious =>
      match s.pc i with
      | .reserving m _ reservePos =>
          if spurious ∨ s.shared.reservePos ≠ reservePos then some (s.goto i (.loadReadPos m))
          else some (s.win bufferSize i (reservation bufferSize i (s.calls i) m reservePos))
      | _ => none
  | .write i =>
      match s.pc i with
      | .writing r (w :: todo) => some (s.write i r w todo)
      | _ => none
  | .compareExchangeCommit i spurious =>
      match s.pc i with
      | .writing r [] =>
          if spurious ∨ s.shared.commitPos ≠ r.myBegin then some s else some (s.commit i r)
      | _ => none

/-! ### The producers in an arbitrary environment -/

/-- The steps of the producers, and the stores of the environment. -/
inductive ProducersAction (ι : Type*)
  | send (a : SendAction ι)
  | storeReadPos (value : ℕ)

/-- The store to `readPos`. -/
def Producers.storeReadPos (s : Producers ι) (value : ℕ) : Producers ι :=
  { s with shared := { s.shared with readPos := value } }

/-- The step function. -/
def producersStep (bufferSize : ℕ) (s : Producers ι) : ProducersAction ι → Option (Producers ι)
  | .send a => sendStep bufferSize s a
  | .storeReadPos value => some (s.storeReadPos value)

omit [DecidableEq ι] in
/-- The segment as `InitializeIfNeeded` leaves it, with every producer outside of `TrySend`. -/
def Producers.initial : Producers ι :=
  let shared : Shared := ⟨0, 0, 0, fun _ => 0⟩
  { shared := shared
    pc := fun _ => .idle none
    calls := fun _ => 0
    entry := fun _ => shared
    won := []
    committed := []
    written := [] }

/-- The automaton of the producers `ι` on a ring of `bufferSize` bytes, in an environment that stores
arbitrary values to `readPos`. -/
def producers (ι : Type*) [DecidableEq ι] (bufferSize : ℕ) :
    Automaton (Producers ι) (ProducersAction ι) where
  init s := s = Producers.initial
  step := producersStep bufferSize

/-! ### The consumer -/

/-- The program points of the consumer. -/
inductive RecvPc
  /-- Outside of `TryReceive`, with the outcome of the last call. -/
  | idle (result : Option (Option Message))
  /-- At the top of the loop, about to load `readPos`. -/
  | loadReadPos
  /-- About to load `commitPos`. -/
  | loadCommitPos (readPos : ℕ)
  /-- About to copy the header at `readPos`. -/
  | readHeader (readPos commitPos : ℕ)
  /-- About to copy the payload of the record at `readPos`. -/
  | readPayload (readPos nextReadPos : ℕ) (type : MessageType) (payloadSize : ℕ)
  /-- About to store to `readPos`, and then to return `result`, or to continue the loop. -/
  | storeReadPos (value : ℕ) (result : Option (Option Message))

/-- The shared memory, the producers and the consumer, with the history of the consumer: the messages
it has obtained, the number of message records it has released, and the blocks of the ring it has
read. -/
structure State (ι : Type*) extends Producers ι where
  recv : RecvPc
  obtained : List Message
  released : ℕ
  reads : List (ℕ × ℕ)

/-- The filter of `TryReceive`. -/
def wanted (interestedType type : MessageType) : Bool :=
  interestedType = .all || type = interestedType || type = .stop

omit [DecidableEq ι] in
/-- The consumer has loaded both positions. -/
def State.peek (bufferSize : ℕ) (s : State ι) (readPos commitPos : ℕ) : State ι :=
  if readPos = commitPos then { s with recv := .idle (some none) }
  else
    let offset := readPos % bufferSize
    let tailSpace := bufferSize - offset
    if tailSpace < 8 then { s with recv := .storeReadPos (readPos + tailSpace) none }
    else { s with recv := .readHeader readPos commitPos }

omit [DecidableEq ι] in
/-- The program point after a header has been copied. -/
def afterHeader (interestedType : MessageType) (header : MessageHeader)
    (readPos commitPos : ℕ) : RecvPc :=
  let type := MessageType.ofCode header.type
  let totalSize := alignUp (u32 (8 + header.payloadSize)) alignment
  let nextReadPos := readPos + totalSize
  if nextReadPos > commitPos then .idle (some none)
  else if type = .padding then .storeReadPos nextReadPos none
  else if wanted interestedType type then
    if header.payloadSize ≠ 0 then .readPayload readPos nextReadPos type header.payloadSize
    else .storeReadPos nextReadPos (some (some ⟨type, []⟩))
  else .storeReadPos nextReadPos (some none)

omit [DecidableEq ι] in
/-- The consumer copies `size` bytes from the address `offset` on, and moves to `next` of them. -/
def State.readBuffer (s : State ι) (offset size : ℕ) (next : List UInt8 → RecvPc) : State ι :=
  { s with
    recv := next (ByteString.read s.shared.buffer offset size)
    reads := s.reads ++ [(offset, size)] }

omit [DecidableEq ι] in
/-- The consumer stores to `readPos`, and returns `result` or continues the loop. -/
def State.release (s : State ι) (value : ℕ) : Option (Option Message) → State ι
  | none => { s with toProducers := s.toProducers.storeReadPos value, recv := .loadReadPos }
  | some result =>
      { s with
        toProducers := s.toProducers.storeReadPos value
        recv := .idle (some result)
        obtained := s.obtained ++ result.toList
        released := s.released + 1 }

omit [DecidableEq ι] in
/-- The next step of the consumer; outside of `TryReceive` it calls it. -/
def recvStep (bufferSize : ℕ) (interestedType : MessageType) (s : State ι) : State ι :=
  match s.recv with
  | .idle _ => { s with recv := .loadReadPos }
  | .loadReadPos => { s with recv := .loadCommitPos s.shared.readPos }
  | .loadCommitPos readPos => s.peek bufferSize readPos s.shared.commitPos
  | .readHeader readPos commitPos =>
      s.readBuffer (readPos % bufferSize) 8 fun bytes =>
        afterHeader interestedType (.ofBytes bytes) readPos commitPos
  | .readPayload readPos nextReadPos type payloadSize =>
      s.readBuffer (readPos % bufferSize + 8) payloadSize fun bytes =>
        .storeReadPos nextReadPos (some (some ⟨type, bytes⟩))
  | .storeReadPos value result => s.release value result

/-! ### The producers and the consumer -/

/-- The steps of the producers and of the consumer. -/
inductive Action (ι : Type*)
  | send (a : SendAction ι)
  | receive

/-- The step function. -/
def step (bufferSize : ℕ) (interestedType : MessageType) (s : State ι) : Action ι → Option (State ι)
  | .send a => (sendStep bufferSize s.toProducers a).map fun p => { s with toProducers := p }
  | .receive => some (recvStep bufferSize interestedType s)

omit [DecidableEq ι] in
/-- Everything is as `InitializeIfNeeded` leaves it. -/
def State.initial : State ι :=
  { Producers.initial with recv := .idle none, obtained := [], released := 0, reads := [] }

/-- The automaton of the producers `ι` and a consumer on a ring of `bufferSize` bytes. -/
def system (ι : Type*) [DecidableEq ι] (bufferSize : ℕ) (interestedType : MessageType) :
    Automaton (State ι) (Action ι) where
  init s := s = State.initial
  step := step bufferSize interestedType

/-! ### What a step can do -/

/-- The effects of a step of the producers, one constructor for each. -/
inductive SendEffect (bufferSize : ℕ) (s : Producers ι) : SendAction ι → Producers ι → Prop
  | call (i : ι) (m : Message) (result : Option (Except String Bool)) : s.pc i = .idle result →
      SendEffect bufferSize s (.trySend i m) (s.call bufferSize i m)
  | loadReadPos (i : ι) (m : Message) : s.pc i = .loadReadPos m →
      SendEffect bufferSize s (.loadReadPos i) (s.goto i (.loadReservePos m s.shared.readPos))
  | checkSpace (i : ι) (m : Message) (readPos : ℕ) : s.pc i = .loadReservePos m readPos →
      SendEffect bufferSize s (.loadReservePos i)
        (s.checkSpace bufferSize i m readPos s.shared.reservePos)
  | retry (i : ι) (b : Bool) (m : Message) (readPos reservePos : ℕ) :
      s.pc i = .reserving m readPos reservePos →
      SendEffect bufferSize s (.compareExchangeReserve i b) (s.goto i (.loadReadPos m))
  | win (i : ι) (m : Message) (readPos : ℕ) : s.pc i = .reserving m readPos s.shared.reservePos →
      SendEffect bufferSize s (.compareExchangeReserve i false)
        (s.win bufferSize i (reservation bufferSize i (s.calls i) m s.shared.reservePos))
  | write (i : ι) (r : Reservation ι) (w : Write) (todo : List Write) :
      s.pc i = .writing r (w :: todo) →
      SendEffect bufferSize s (.write i) (s.write i r w todo)
  | wait (i : ι) (b : Bool) : SendEffect bufferSize s (.compareExchangeCommit i b) s
  | commit (i : ι) (r : Reservation ι) : s.pc i = .writing r [] → s.shared.commitPos = r.myBegin →
      SendEffect bufferSize s (.compareExchangeCommit i false) (s.commit i r)

/-- **Inversion of the step function of the producers.** -/
theorem effect_of_sendStep {bufferSize : ℕ} {s s' : Producers ι} {a : SendAction ι}
    (h : sendStep bufferSize s a = some s') : SendEffect bufferSize s a s' := by
  cases a with
  | trySend i m =>
      cases hp : s.pc i with
      | idle result =>
          simp only [sendStep, hp, Option.some.injEq] at h
          subst h
          exact SendEffect.call i m result hp
      | _ => simp [sendStep, hp] at h
  | loadReadPos i =>
      cases hp : s.pc i with
      | loadReadPos m =>
          simp only [sendStep, hp, Option.some.injEq] at h
          subst h
          exact SendEffect.loadReadPos i m hp
      | _ => simp [sendStep, hp] at h
  | loadReservePos i =>
      cases hp : s.pc i with
      | loadReservePos m readPos =>
          simp only [sendStep, hp, Option.some.injEq] at h
          subst h
          exact SendEffect.checkSpace i m readPos hp
      | _ => simp [sendStep, hp] at h
  | compareExchangeReserve i spurious =>
      cases hp : s.pc i with
      | reserving m readPos reservePos =>
          simp only [sendStep, hp] at h
          split_ifs at h with hfail
          · rw [← Option.some.inj h]
            exact SendEffect.retry i spurious m readPos reservePos hp
          · rw [← Option.some.inj h]
            obtain ⟨hb, heq⟩ := not_or.1 hfail
            rw [Bool.not_eq_true] at hb
            have hpos : s.shared.reservePos = reservePos := not_not.1 heq
            subst hpos hb
            exact SendEffect.win i m readPos hp
      | _ => simp [sendStep, hp] at h
  | write i =>
      cases hp : s.pc i with
      | writing r todo =>
          cases todo with
          | nil => simp [sendStep, hp] at h
          | cons w todo =>
              simp only [sendStep, hp, Option.some.injEq] at h
              subst h
              exact SendEffect.write i r w todo hp
      | _ => simp [sendStep, hp] at h
  | compareExchangeCommit i spurious =>
      cases hp : s.pc i with
      | writing r todo =>
          cases todo with
          | nil =>
              simp only [sendStep, hp] at h
              split_ifs at h with hfail
              · rw [← Option.some.inj h]
                exact SendEffect.wait i spurious
              · rw [← Option.some.inj h]
                obtain ⟨hb, heq⟩ := not_or.1 hfail
                rw [Bool.not_eq_true] at hb
                subst hb
                exact SendEffect.commit i r hp (not_not.1 heq)
          | cons w todo => simp [sendStep, hp] at h
      | _ => simp [sendStep, hp] at h

omit [DecidableEq ι] in
/-- What a step of the consumer does to the memory it shares with the producers. -/
theorem toProducers_recvStep (bufferSize : ℕ) (interestedType : MessageType) (s : State ι) :
    (recvStep bufferSize interestedType s).toProducers = s.toProducers ∨
      ∃ value result, s.recv = .storeReadPos value result ∧
        (recvStep bufferSize interestedType s).toProducers = s.toProducers.storeReadPos value := by
  cases hp : s.recv with
  | loadCommitPos readPos =>
      refine Or.inl ?_
      simp only [recvStep, hp, State.peek]
      split_ifs <;> rfl
  | storeReadPos value result =>
      refine Or.inr ⟨value, result, rfl, ?_⟩
      rw [recvStep, hp]
      cases result <;> rfl
  | _ => exact Or.inl (by simp only [recvStep, hp, State.readBuffer])

/-! ### The consumer is one of the environments of the producers -/

/-- The message that a step passes to `TrySend`. -/
def SendAction.message? : SendAction ι → Option Message
  | .trySend _ m => some m
  | _ => none

/-- The steps of the producers, where only short payloads are sent. -/
def SendAction.Small (a : SendAction ι) : Prop := ∀ m ∈ a.message?, m.Small

instance (a : SendAction ι) : Decidable a.Small :=
  inferInstanceAs (Decidable (∀ m ∈ a.message?, m.Small))

/-- The step of the producers that a step contains. -/
def ProducersAction.send? : ProducersAction ι → Option (SendAction ι)
  | .send a => some a
  | .storeReadPos _ => none

/-- The step of the producers that a step contains. -/
def Action.send? : Action ι → Option (SendAction ι)
  | .send a => some a
  | .receive => none

/-- The automaton `producers`, where only short payloads are sent. -/
def smallProducers (ι : Type*) [DecidableEq ι] (bufferSize : ℕ) :
    Automaton (Producers ι) (ProducersAction ι) :=
  (producers ι bufferSize).restrict fun _ a => ∀ b ∈ a.send?, b.Small

/-- The automaton `system`, where only short payloads are sent. -/
def smallSystem (ι : Type*) [DecidableEq ι] (bufferSize : ℕ) (interestedType : MessageType) :
    Automaton (State ι) (Action ι) :=
  (system ι bufferSize interestedType).restrict fun _ a => ∀ b ∈ a.send?, b.Small

/-- **The consumer is one of the environments of the producers.** -/
def systemSimulation (bufferSize : ℕ) (interestedType : MessageType) :
    Automaton.Simulation (smallSystem ι bufferSize interestedType)
      (smallProducers ι bufferSize) where
  abs s := s.toProducers
  init s h := by
    rw [show s = State.initial from h]
    rfl
  step s a s' _ h := by
    obtain ⟨hsmall, hstep⟩ := Automaton.restrict_step_eq_some.1 h
    cases a with
    | send a =>
        obtain ⟨p, hp, rfl⟩ := Option.map_eq_some_iff.1 hstep
        refine Automaton.Steps.single (a := .send a) (Automaton.restrict_step_eq_some.2 ⟨?_, hp⟩)
        exact hsmall
    | receive =>
        rw [← Option.some.inj hstep]
        rcases toProducers_recvStep bufferSize interestedType s with heq | ⟨value, -, -, heq⟩
        · rw [heq]
          exact Automaton.Steps.refl
        · rw [heq]
          refine Automaton.Steps.single (a := .storeReadPos value)
            (Automaton.restrict_step_eq_some.2 ⟨?_, rfl⟩)
          simp [ProducersAction.send?]

end MpscQueue
