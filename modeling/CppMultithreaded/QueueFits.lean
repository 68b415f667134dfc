/-
**Programs that fit into the ring.**

Where all values that the producers send fit into the ring together, as in the demo and in the tests,
the ring is never full and its end is never reached.  A `TrySend` then never returns `false`, never
throws, and never wins with positions that are too far apart, so that the results about the queue hold
of every run, without a condition on the order of the steps.

Main definitions:

* `MpscQueue.programSize` — the bytes that the records of a program take in the ring;
* `MpscQueue.Fitting` — there is room for all that is still to be sent;
* `MpscQueue.demo` — the programs of the demo.

Main results:

* `MpscQueue.Fitting.step` — every step of the programs leaves room for everything;
* `MpscQueue.sendable_of_fits` — programs that fit make only steps of `sendableSystem`, whatever the order;
* `MpscQueue.programs_fit` — **programs that fit are never refused, and are delivered**.
-/

import CppMultithreaded.QueueBoundary
import CppMultithreaded.QueueClients
import CppMultithreaded.QueueRace
import CppMultithreaded.ThreadWeight

set_option relaxedAutoImplicit false
set_option autoImplicit false

namespace MpscQueue

variable {ι : Type*} {bufferSize : ℕ} {interestedType : MessageType}

/-! ### Room for everything -/

/-- The bytes that the records of a program take, where none is preceded by padding. -/
def programSize (vs : List Value) : ℕ := (vs.map fun v => messageSize v.message).sum

@[simp] theorem programSize_nil : programSize [] = 0 := rfl

@[simp] theorem programSize_cons (v : Value) (vs : List Value) :
    programSize (v :: vs) = messageSize v.message + programSize vs := rfl

/-- The values for which a producer has not yet won a range. -/
def unreserved (p : SendPc ι) (phase : Phase) (todo : List Value) : List Value :=
  if phase = .calling ∧ (p.range?.isSome = true ∨ p.succeeded = true) then todo.tail else todo

variable [Fintype ι]

/-- There is room for all that is still to be sent, so that no call has failed. -/
structure Fitting (bufferSize : ℕ) (c : Clients ι) : Prop where
  room : c.queue.shared.reservePos +
    ∑ i, programSize (unreserved (c.queue.pc i) (c.sender i) (c.todo i)) ≤ bufferSize
  notFull : ∀ i, c.queue.pc i ≠ .idle (some (.ok false))
  notLarge : ∀ i e, c.queue.pc i ≠ .idle (some (.error e))

/-- A record that fits into the rest of the first lap needs no padding. -/
theorem paddingSizeAt_of_le {reservePos size : ℕ} (hsize : 0 < size) (hle : reservePos + size ≤ bufferSize) :
    paddingSizeAt bufferSize reservePos size = 0 := by
  rw [paddingSizeAt, Nat.mod_eq_of_lt (by omega), if_neg (by omega)]

section Fitting

variable [DecidableEq ι] {c : Clients ι}

/-- One producer changes, and `reservePos` with it. -/
theorem Fitting.update (h : Fitting bufferSize c) {c' : Clients ι} {i : ι} {k : ℕ}
    (hreserve : c'.queue.shared.reservePos = c.queue.shared.reservePos + k)
    (hothers : ∀ j, j ≠ i → c'.queue.pc j = c.queue.pc j ∧ c'.sender j = c.sender j ∧
      c'.todo j = c.todo j)
    (hsize : programSize (unreserved (c'.queue.pc i) (c'.sender i) (c'.todo i)) + k ≤
      programSize (unreserved (c.queue.pc i) (c.sender i) (c.todo i)))
    (hfull : c'.queue.pc i ≠ .idle (some (.ok false)))
    (hlarge : ∀ e, c'.queue.pc i ≠ .idle (some (.error e))) : Fitting bufferSize c' := by
  refine ⟨?_, ?_, ?_⟩
  · have hroom := h.room
    have hsum := ThreadWeight.sum_of_ne (t := i)
      (f := fun j => programSize (unreserved (c.queue.pc j) (c.sender j) (c.todo j)))
      (g := fun j => programSize (unreserved (c'.queue.pc j) (c'.sender j) (c'.todo j)))
      fun j hj => by rw [(hothers j hj).1, (hothers j hj).2.1, (hothers j hj).2.2]
    omega
  · intro j
    by_cases hj : j = i
    · rw [hj]
      exact hfull
    · rw [(hothers j hj).1]
      exact h.notFull j
  · intro j e
    by_cases hj : j = i
    · rw [hj]
      exact hlarge e
    · rw [(hothers j hj).1]
      exact h.notLarge j e

/-- The record that a producer is looking for space for fits behind `reservePos`. -/
theorem Fitting.size_le {prog : ι → List Value} (h : Fitting bufferSize c)
    (hs : Sends bufferSize prog c) {i : ι} {m : Message} (hm : (c.queue.pc i).message? = some m) :
    c.queue.shared.reservePos + messageSize m ≤ bufferSize := by
  have hsending : m ∈ (c.queue.pc i).sending? := by
    cases hp : c.queue.pc i <;> simp_all [SendPc.message?, SendPc.sending?]
  have hrange : (c.queue.pc i).range? = none := by
    cases hp : c.queue.pc i <;> simp_all [SendPc.message?, SendPc.range?]
  obtain ⟨-, v, hv, rfl⟩ := (hs i).sending m hsending
  have hroom := h.room
  rw [← Finset.add_sum_erase _ _ (Finset.mem_univ i), unreserved, hrange,
    SendPc.succeeded_of_sending hsending, if_neg (by simp)] at hroom
  cases htodo : c.todo i with
  | nil => simp [htodo] at hv
  | cons w vs =>
      rw [htodo] at hv hroom
      obtain rfl := Option.some.inj hv
      rw [programSize_cons] at hroom
      omega

/-- A step inside of `TrySend` that keeps `reservePos` and the message. -/
theorem Fitting.move (h : Fitting bufferSize c) {q : Producers ι} {i : ι} {p : SendPc ι}
    (hreserve : q.shared.reservePos = c.queue.shared.reservePos)
    (hpc : q.pc = Function.update c.queue.pc i p) (hp : p.message? ≠ none ∨ p.range? ≠ none)
    (hrange : p.range?.isSome = (c.queue.pc i).range?.isSome)
    (hsucceeded : (c.queue.pc i).succeeded = false) :
    Fitting bufferSize { c with queue := { c.queue with toProducers := q } } := by
  have hidle : ∀ result, p ≠ .idle result := by
    rintro result rfl
    simp [SendPc.message?, SendPc.range?] at hp
  have hnot : p.succeeded = false := by
    cases p with
    | idle result => exact absurd rfl (hidle result)
    | _ => rfl
  refine h.update (i := i) (k := 0) hreserve ?_ ?_ ?_ ?_
  · intro j hj
    exact ⟨by simp [hpc, hj], rfl, rfl⟩
  · show programSize (unreserved (q.pc i) (c.sender i) (c.todo i)) + 0 ≤ _
    rw [hpc, Function.update_self, unreserved, unreserved, hrange, hsucceeded, hnot]
    exact le_rfl
  · show q.pc i ≠ _
    rw [hpc, Function.update_self]
    exact hidle _
  · intro e
    show q.pc i ≠ _
    rw [hpc, Function.update_self]
    exact hidle _

/-- What a producer has loaded leaves enough space. -/
theorem Fitting.enough {prog : ι → List Value} (h : Fitting bufferSize c)
    (hs : Sends bufferSize prog c) (h64 : bufferSize < 2 ^ 64) (hring : Ring bufferSize c.queue)
    {i : ι} {m : Message} {readPos : ℕ} (hp : c.queue.pc i = .loadReservePos m readPos) :
    paddingSizeAt bufferSize c.queue.shared.reservePos (messageSize m) + messageSize m ≤
      freeSpace bufferSize readPos c.queue.shared.reservePos := by
  have hm : (c.queue.pc i).message? = some m := by rw [hp]; rfl
  have hroom := h.size_le hs hm
  have hsize := le_messageSize (hring.ranges.trying i m hm).1
  have hloaded := hring.window.loaded i m readPos hp
  have hread := hring.window.readPos_le
  have hcommit := hring.ranges.commitPos_le
  rw [paddingSizeAt_of_le (by omega) hroom, freeSpace_eq h64 (by omega) (by omega)]
  omega

/-- **A step inside of `TrySend` leaves room for everything.** -/
theorem Fitting.send {prog : ι → List Value} (h : Fitting bufferSize c)
    (hs : Sends bufferSize prog c) (h64 : bufferSize < 2 ^ 64) (hring : Ring bufferSize c.queue)
    {q : Producers ι} {a : SendAction ι} (ha : a.message? = none)
    (he : SendEffect bufferSize c.queue.toProducers a q) :
    Fitting bufferSize { c with queue := { c.queue with toProducers := q } } := by
  cases he with
  | call i m result hp => simp [SendAction.message?] at ha
  | loadReadPos i m hp =>
      exact h.move (i := i) rfl rfl (Or.inl (by simp [SendPc.message?])) (by simp [hp, SendPc.range?])
        (by simp [hp, SendPc.succeeded])
  | checkSpace i m readPos hp =>
      rw [Producers.checkSpace, if_neg (not_lt.2 (h.enough hs h64 hring hp))]
      exact h.move (i := i) rfl rfl (Or.inl (by simp [SendPc.message?])) (by simp [hp, SendPc.range?])
        (by simp [hp, SendPc.succeeded])
  | retry i b m readPos reservePos hp =>
      exact h.move (i := i) rfl rfl (Or.inl (by simp [SendPc.message?])) (by simp [hp, SendPc.range?])
        (by simp [hp, SendPc.succeeded])
  | win i m readPos hp =>
      have hm : (c.queue.pc i).message? = some m := by rw [hp]; rfl
      have hsize := le_messageSize (hring.ranges.trying i m hm).1
      have hpadding := paddingSizeAt_of_le (by omega) (h.size_le hs hm)
      obtain ⟨hcalling, v, hv, rfl⟩ := (hs i).sending m (by rw [hp]; rfl)
      refine h.update (i := i) (k := messageSize v.message) ?_ ?_ ?_ ?_ ?_
      · show (reservation bufferSize i (c.queue.calls i) v.message c.queue.shared.reservePos).myEnd = _
        rw [Reservation.myEnd, Reservation.required, reservation, hpadding, Nat.zero_add]
      · intro j hj
        exact ⟨Function.update_of_ne hj _ _, rfl, rfl⟩
      · show programSize (unreserved (Function.update c.queue.pc i _ i) (c.sender i) (c.todo i)) + _ ≤ _
        rw [Function.update_self, unreserved, if_pos ⟨hcalling, Or.inl rfl⟩, unreserved,
          if_neg (by simp [hp, SendPc.range?, SendPc.succeeded])]
        cases htodo : c.todo i with
        | nil => simp [htodo] at hv
        | cons w vs =>
            rw [htodo] at hv
            obtain rfl := Option.some.inj hv
            rw [List.tail_cons, programSize_cons, Nat.add_comm]
      · show Function.update c.queue.pc i _ i ≠ _
        simp
      · intro e
        show Function.update c.queue.pc i _ i ≠ _
        simp
  | write i r w todo hp =>
      exact h.move (i := i) rfl rfl (Or.inr (by simp [SendPc.range?])) (by simp [hp, SendPc.range?])
        (by simp [hp, SendPc.succeeded])
  | wait i b => exact h
  | commit i r hp heq =>
      refine h.update (i := i) (k := 0) rfl ?_ ?_ ?_ ?_
      · intro j hj
        exact ⟨Function.update_of_ne hj _ _, rfl, rfl⟩
      · show programSize (unreserved (Function.update c.queue.pc i _ i) (c.sender i) (c.todo i)) + 0 ≤ _
        rw [Function.update_self, unreserved, unreserved, hp]
        simp [SendPc.range?, SendPc.succeeded]
      · show Function.update c.queue.pc i _ i ≠ _
        simp
      · intro e
        show Function.update c.queue.pc i _ i ≠ _
        simp

omit [DecidableEq ι] in
/-- The consumer leaves the room as it is. -/
theorem Fitting.receive (h : Fitting bufferSize c) :
    Fitting bufferSize { c with queue := recvStep bufferSize interestedType c.queue } := by
  rcases toProducers_recvStep bufferSize interestedType c.queue with heq | ⟨value, _, -, heq⟩
  · exact ⟨by rw [heq]; exact h.room, by rw [heq]; exact h.notFull, by rw [heq]; exact h.notLarge⟩
  · exact ⟨by rw [heq]; exact h.room, by rw [heq]; exact h.notFull, by rw [heq]; exact h.notLarge⟩

/-- **Every step of the programs leaves room for everything.** -/
theorem Fitting.step {prog : ι → List Value} (h : Fitting bufferSize c)
    (hs : Sends bufferSize prog c) (h64 : bufferSize < 2 ^ 64) (hring : Ring bufferSize c.queue)
    {a : ClientAction ι} {c' : Clients ι}
    (he : ClientEffect (sendableSystem ι bufferSize interestedType) c a c') : Fitting bufferSize c' := by
  cases he with
  | trySend i v vs q hready htodo hq =>
      obtain ⟨p, hp, rfl⟩ := Option.map_eq_some_iff.1 (step_of_sendable hq)
      cases effect_of_sendStep hp with
      | call _ _ result hidle =>
          have hsmall : messageSize v.message ≤ bufferSize := by
            have hroom := h.room
            rw [← Finset.add_sum_erase _ _ (Finset.mem_univ i), unreserved, hready, if_neg (by simp),
              htodo, programSize_cons] at hroom
            omega
          have hpc : (c.queue.call bufferSize i v.message).pc =
              Function.update c.queue.pc i (.loadReadPos v.message) := by
            simp [Producers.call, Producers.goto, not_lt.2 hsmall]
          refine h.update (i := i) (k := 0) rfl ?_ ?_ ?_ ?_
          · intro j hj
            refine ⟨?_, Function.update_of_ne hj _ _, rfl⟩
            show (c.queue.call bufferSize i v.message).pc j = _
            rw [hpc, Function.update_of_ne hj]
          · show programSize (unreserved ((c.queue.call bufferSize i v.message).pc i)
              (Function.update c.sender i .calling i) (c.todo i)) + 0 ≤ _
            rw [hpc, Function.update_self, unreserved, if_neg (by simp [SendPc.range?, SendPc.succeeded]),
              unreserved, hready, if_neg (by simp)]
            exact le_rfl
          · show (c.queue.call bufferSize i v.message).pc i ≠ _
            simp [hpc]
          · intro e
            show (c.queue.call bufferSize i v.message).pc i ≠ _
            simp [hpc]
  | sent i hcalling hp =>
      refine h.update (i := i) (k := 0) rfl ?_ ?_ (h.notFull i) (h.notLarge i)
      · intro j hj
        exact ⟨rfl, Function.update_of_ne hj _ _, Function.update_of_ne hj _ _⟩
      · show programSize (unreserved (c.queue.pc i) (Function.update c.sender i .ready i)
          (Function.update c.todo i (c.todo i).tail i)) + 0 ≤ _
        rw [Function.update_self, Function.update_self, unreserved, if_neg (by simp), unreserved,
          if_pos ⟨hcalling, Or.inr (by rw [hp]; rfl)⟩]
        exact le_rfl
  | full i hcalling hp => exact absurd hp (h.notFull i)
  | threw i e hcalling hp => exact absurd hp (h.notLarge i e)
  | inside a q hinside hq =>
      have hstep := step_of_sendable hq
      cases a with
      | send a =>
          obtain ⟨p, hp, rfl⟩ := Option.map_eq_some_iff.1 hstep
          refine h.send hs h64 hring ?_ (effect_of_sendStep hp)
          cases a with
          | trySend i m => simp [Action.inside] at hinside
          | _ => rfl
      | receive =>
          rw [← Option.some.inj hstep]
          exact h.receive
  | tryReceive q hready hq =>
      rw [← Option.some.inj (step_of_sendable hq)]
      have hrecv : Fitting bufferSize { c with queue := recvStep bufferSize interestedType c.queue } :=
        h.receive
      exact ⟨hrecv.room, hrecv.notFull, hrecv.notLarge⟩
  | nothing hcalling hp => exact ⟨h.room, h.notFull, h.notLarge⟩
  | received m hcalling hp =>
      rw [Clients.consume]
      cases consumerLoop m <;> exact ⟨h.room, h.notFull, h.notLarge⟩

omit [DecidableEq ι] in
/-- Where everything fits, no producer wins with positions that are too far apart. -/
theorem Fitting.winsStale (h : Fitting bufferSize c) (a : SendAction ι) :
    winsStale bufferSize c.queue.toProducers a = false := by
  cases a with
  | compareExchangeReserve i spurious =>
      cases hp : c.queue.pc i with
      | reserving m readPos reservePos =>
          have hroom := h.room
          simp only [MpscQueue.winsStale, hp, Bool.and_eq_false_iff, decide_eq_false_iff_not,
            beq_eq_false_iff_ne]
          by_cases heq : c.queue.shared.reservePos = reservePos
          · exact Or.inr (by omega)
          · exact Or.inl (Or.inr heq)
      | _ => simp only [MpscQueue.winsStale, hp]
  | _ => rfl

end Fitting

section Lift

variable [DecidableEq ι] {prog : ι → List Value} {c c' : Clients ι}

/-- The step on the queue of a program. -/
def Clients.queueStep? (c : Clients ι) : ClientAction ι → Option (Action ι)
  | .trySend i =>
      if c.sender i = .ready then (c.todo i).head?.map fun v => .send (.trySend i v.message) else none
  | .inside a => if a.inside c.queue then some a else none
  | .tryReceive => some .receive
  | .sendReturned _ | .receiveReturned => none

omit [Fintype ι] in
/-- A step of the programs does not depend on the queue, except for the step on the queue. -/
theorem clientStep_of_queueStep {Q R : Automaton (State ι) (Action ι)} {a : ClientAction ι}
    (h : clientStep Q c a = some c')
    (hstep : ∀ b ∈ c.queueStep? a, ∀ q, Q.step c.queue b = some q → R.step c.queue b = some q) :
    clientStep R c a = some c' := by
  cases effect_of_clientStep h with
  | trySend i v vs q hready htodo hq =>
      have hq' := hstep _ (by simp [Clients.queueStep?, hready, htodo]) q hq
      simp [clientStep, hready, htodo, hq']
  | sent i hcalling hp => simp [clientStep, hcalling, hp]
  | full i hcalling hp => simp [clientStep, hcalling, hp]
  | threw i e hcalling hp => simp [clientStep, hcalling, hp]
  | inside a q hinside hq =>
      have hq' := hstep _ (by simp [Clients.queueStep?, hinside]) q hq
      simp [clientStep, hinside, hq']
  | tryReceive q hready hq =>
      have hq' := hstep _ (by simp [Clients.queueStep?]) q hq
      simp [clientStep, hready, hq']
  | nothing hcalling hp => simp [clientStep, hcalling, hp]
  | received m hcalling hp => simp [clientStep, hcalling, hp]

/-- Where everything fits, the programs make only steps of `sendableSystem`. -/
theorem Fitting.sendable (h : Fitting bufferSize c) (hs : Sends bufferSize prog c)
    (hsmall : ∀ i, ∀ v ∈ prog i, v.message.Small) {a : ClientAction ι} {b : Action ι}
    (hb : b ∈ c.queueStep? a) {q : State ι}
    (hq : (system ι bufferSize interestedType).step c.queue b = some q) :
    (sendableSystem ι bufferSize interestedType).step c.queue b = some q := by
  have hmessages : ∀ b' ∈ b.send?, ∀ m ∈ b'.message?, m.Small ∧ m.type.Sendable := by
    intro b' hb' m hm
    cases a with
    | trySend i =>
        simp only [Clients.queueStep?] at hb
        split_ifs at hb with hready
        · cases htodo : c.todo i with
          | nil => simp [htodo] at hb
          | cons v vs =>
              rw [htodo] at hb
              obtain rfl := Option.some.inj hb
              obtain rfl := Option.some.inj hb'
              obtain rfl := Option.some.inj hm
              have hprog : v.message ∈ (prog i).map Value.message := by
                rw [← (hs i).sent, unsent, if_neg (by simp [hready]), htodo]
                simp
              obtain ⟨w, hw, heq⟩ := List.mem_map.1 hprog
              exact ⟨heq ▸ hsmall i w hw, v.sendable⟩
        · cases hb
    | inside a =>
        simp only [Clients.queueStep?] at hb
        split_ifs at hb with hinside
        · obtain rfl := Option.some.inj hb
          cases a with
          | receive => simp [Action.send?] at hb'
          | send a =>
              obtain rfl := Option.some.inj hb'
              cases a with
              | trySend i m => simp [Action.inside] at hinside
              | _ => simp [SendAction.message?] at hm
        · cases hb
    | tryReceive =>
        obtain rfl := Option.some.inj hb
        simp [Action.send?] at hb'
    | sendReturned i => cases hb
    | receiveReturned => cases hb
  refine Automaton.restrict_step_eq_some.2 ⟨fun b' hb' m hm => (hmessages b' hb' m hm).2,
    Automaton.restrict_step_eq_some.2 ⟨fun b' _ => h.winsStale b',
      Automaton.restrict_step_eq_some.2 ⟨fun b' hb' m hm => (hmessages b' hb' m hm).1, hq⟩⟩⟩

omit [DecidableEq ι] in
theorem fitting_initial (hfit : ∑ i, programSize (prog i) ≤ bufferSize) :
    Fitting bufferSize (Clients.initial prog) := by
  refine ⟨?_, ?_, ?_⟩
  · simpa [Clients.initial, State.initial, Producers.initial, unreserved] using hfit
  · simp [Clients.initial, State.initial, Producers.initial]
  · simp [Clients.initial, State.initial, Producers.initial]

/-- **Programs that fit into the ring make only steps of `sendableSystem`**, in whatever order. -/
theorem sendable_of_fits (h8 : bufferSize % 8 = 0) (hpos : 0 < bufferSize) (h64 : bufferSize < 2 ^ 64)
    (hsmall : ∀ i, ∀ v ∈ prog i, v.message.Small) (hfit : ∑ i, programSize (prog i) ≤ bufferSize)
    (h : (clientSystem (system ι bufferSize interestedType) prog).Reachable c) :
    (clientSystem (sendableSystem ι bufferSize interestedType) prog).Reachable c ∧
      Fitting bufferSize c := by
  refine h.invariant (I := fun c => (clientSystem (sendableSystem ι bufferSize interestedType)
    prog).Reachable c ∧ Fitting bufferSize c) ?_ ?_
  · intro c hc
    refine ⟨Automaton.Reachable.init hc, ?_⟩
    rw [show c = Clients.initial prog from hc]
    exact fitting_initial hfit
  · intro c a c' _ hI hst
    obtain ⟨hr, hfitting⟩ := hI
    have hsends := (invariants_of_clients h8 hpos h64 hr).1
    have hring := ring_of_reachable h8 hpos h64
      (queue_reachable (Q := sendableSystem ι bufferSize interestedType) rfl hr)
    have hst' := clientStep_of_queueStep (R := sendableSystem ι bufferSize interestedType) hst
      fun b hb q hq => hfitting.sendable hsends hsmall hb hq
    exact ⟨hr.step a hst', hfitting.step hsends h64 hring (effect_of_clientStep hst')⟩

/-- **Programs that fit into the ring are never refused, and are delivered**: in every run, no `TrySend`
returns `false` or throws, no two parties race for a byte of the ring, and what is printed is what was
sent. -/
theorem programs_fit (h8 : bufferSize % 8 = 0) (hpos : 0 < bufferSize) (h64 : bufferSize < 2 ^ 64)
    (hsmall : ∀ i, ∀ v ∈ prog i, v.message.Small) (hfit : ∑ i, programSize (prog i) ≤ bufferSize)
    (h : (clientSystem (system ι bufferSize interestedType) prog).Reachable c) :
    (∀ i, c.queue.pc i ≠ .idle (some (.ok false)) ∧ ∀ e, c.queue.pc i ≠ .idle (some (.error e))) ∧
      RaceFree bufferSize c.queue ∧ ClientDelivery bufferSize interestedType prog c := by
  obtain ⟨hr, hfitting⟩ := sendable_of_fits h8 hpos h64 hsmall hfit h
  obtain ⟨hsends, hreceives⟩ := invariants_of_clients h8 hpos h64 hr
  have hqueue := queue_reachable (Q := sendableSystem ι bufferSize interestedType) rfl hr
  have hdelivered := delivered_of_reachable h8 hpos h64 hqueue
  exact ⟨fun i => ⟨hfitting.notFull i, hfitting.notLarge i⟩,
    raceFree_of_ring (ring_of_reachable h8 hpos h64 hqueue) hdelivered,
    delivery_of_invariants hsends hreceives hdelivered⟩

end Lift

/-- The bytes of an ASCII string. -/
def bytesOf (text : String) : List UInt8 := text.toList.map fun c => UInt8.ofNat c.toNat

/-- The programs of `producer_first`, `producer_second` and `producer_stop`. -/
def demo : Fin 3 → List Value
  | 0 => [.text (bytesOf "hello from producer 1"), .number 111,
      .text (bytesOf "another message from producer 1")]
  | 1 => [.text (bytesOf "hello from producer 2"), .number 222,
      .text (bytesOf "another message from producer 2")]
  | 2 => [.stop]

theorem demo_small : ∀ i, ∀ v ∈ demo i, v.message.Small := by decide

theorem demo_fits : ∑ i, programSize (demo i) ≤ 65536 - headerSize := by decide

/-- The demo, where the second producer has sent its first text and the first one has won a range. -/
theorem programs_fit_demo :
    ∃ c : Clients (Fin 3), (clientSystem (system (Fin 3) (65536 - headerSize) .text) demo).run
        (Clients.initial demo) (sendOnce 1 3 ++ (sendOnce 0 3).take 5) = some c ∧
      RaceFree (65536 - headerSize) c.queue ∧ ClientDelivery (65536 - headerSize) .text demo c := by
  obtain ⟨c, hc⟩ : ∃ c, (clientSystem (system (Fin 3) (65536 - headerSize) .text) demo).run
      (Clients.initial demo) (sendOnce 1 3 ++ (sendOnce 0 3).take 5) = some c := ⟨_, rfl⟩
  exact ⟨c, hc, (programs_fit (by decide) (by decide) (by decide) demo_small demo_fits
    (Automaton.Reachable.of_run rfl hc)).2⟩

end MpscQueue
