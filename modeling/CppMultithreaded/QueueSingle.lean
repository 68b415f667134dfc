/-
**The shared-memory queue with one producer.**

A single producer never sees positions that are too far apart: `reservePos` is its own, and `readPos`
only grows.  So nothing unread is overwritten, and every message whose `TrySend` succeeds is
delivered, in order and unchanged, to a consumer that is interested in it.

Main definitions:

* `MpscQueue.RecvPc.rank` — how far the consumer is from the top of its loop;
* `MpscQueue.singleSystem` — one producer, which sends text, number and stop messages;
* `MpscQueue.Untouched` — a `TrySend` that has not won a range has changed nothing;
* `MpscQueue.ExactDelivery` — what holds of a queue with one producer.

Main results:

* `MpscQueue.exists_drained` — **a consumer that goes on alone obtains everything** that has been
  committed;
* `MpscQueue.sendable_of_single` — a single producer never wins with positions that are too far apart;
* `MpscQueue.exact_delivery` — **exact delivery** with one producer.
-/

import CppMultithreaded.QueueDelivery

set_option relaxedAutoImplicit false
set_option autoImplicit false

namespace MpscQueue

variable {ι : Type*} {bufferSize : ℕ} {interestedType : MessageType} {s : State ι}

/-! ### A consumer that goes on alone -/

/-- The distance to the top of the loop of `TryReceive`, or to its end. -/
def RecvPc.rank : RecvPc → ℕ
  | .idle _ | .loadReadPos => 0
  | .storeReadPos _ _ => 1
  | .readPayload _ _ _ _ => 2
  | .readHeader _ _ => 3
  | .loadCommitPos _ => 4

/-- Inside of the loop every step of the consumer comes closer to its end. -/
theorem rank_recvStep (bufferSize : ℕ) (interestedType : MessageType) (h : s.recv.rank ≠ 0) :
    (recvStep bufferSize interestedType s).recv.rank < s.recv.rank := by
  cases hp : s.recv with
  | idle result => simp [hp, RecvPc.rank] at h
  | loadReadPos => simp [hp, RecvPc.rank] at h
  | loadCommitPos readPos =>
      simp only [recvStep, hp, State.peek]
      split_ifs <;> simp [RecvPc.rank]
  | readHeader readPos commitPos =>
      simp only [recvStep, hp, State.readBuffer, afterHeader]
      split_ifs <;> simp [RecvPc.rank]
  | readPayload readPos nextReadPos type payloadSize =>
      simp [recvStep, hp, State.readBuffer, RecvPc.rank]
  | storeReadPos value result =>
      rw [recvStep, hp]
      cases result <;> simp [State.release, RecvPc.rank]

/-- The consumer does not commit. -/
theorem committed_recvStep (bufferSize : ℕ) (interestedType : MessageType) (s : State ι) :
    (recvStep bufferSize interestedType s).committed = s.committed ∧
      (recvStep bufferSize interestedType s).shared.commitPos = s.shared.commitPos := by
  rcases toProducers_recvStep bufferSize interestedType s with heq | ⟨value, _, _, heq⟩
  · rw [heq]
    exact ⟨rfl, rfl⟩
  · rw [heq]
    exact ⟨rfl, rfl⟩

/-- The step that stores to `readPos`. -/
theorem recvStep_store (bufferSize : ℕ) (interestedType : MessageType) {value : ℕ}
    {result : Option (Option Message)} (hp : s.recv = .storeReadPos value result) :
    (recvStep bufferSize interestedType s).recv.rank = 0 ∧
      (recvStep bufferSize interestedType s).shared.readPos = value := by
  rw [recvStep, hp]
  cases result <;> exact ⟨rfl, rfl⟩

/-- The consumer has made `n` steps alone. -/
def receives (bufferSize : ℕ) (interestedType : MessageType) (n : ℕ) (s : State ι) : State ι :=
  (recvStep bufferSize interestedType)^[n] s

theorem receives_zero (s : State ι) : receives bufferSize interestedType 0 s = s := rfl

theorem receives_add (m n : ℕ) (s : State ι) :
    receives bufferSize interestedType (m + n) s =
      receives bufferSize interestedType m (receives bufferSize interestedType n s) :=
  Function.iterate_add_apply _ m n s

theorem receives_succ (n : ℕ) (s : State ι) :
    receives bufferSize interestedType (n + 1) s =
      receives bufferSize interestedType n (recvStep bufferSize interestedType s) :=
  Function.iterate_succ_apply _ n s

theorem committed_receives (bufferSize : ℕ) (interestedType : MessageType) (n : ℕ) (s : State ι) :
    (receives bufferSize interestedType n s).committed = s.committed ∧
      (receives bufferSize interestedType n s).shared.commitPos = s.shared.commitPos := by
  induction n generalizing s with
  | zero => exact ⟨rfl, rfl⟩
  | succ n ih =>
      rw [receives_succ, (ih _).1, (ih _).2]
      exact committed_recvStep bufferSize interestedType s

/-- A consumer that goes on comes to the top of its loop, or returns. -/
theorem exists_rank_zero (bufferSize : ℕ) (interestedType : MessageType) (s : State ι) :
    ∃ n, (receives bufferSize interestedType n s).recv.rank = 0 := by
  induction hk : s.recv.rank using Nat.strong_induction_on generalizing s with
  | _ k ih =>
      by_cases hzero : s.recv.rank = 0
      · exact ⟨0, hzero⟩
      · have hlt := rank_recvStep bufferSize interestedType hzero
        obtain ⟨n, hn⟩ := ih _ (hk ▸ hlt) _ rfl
        refine ⟨n + 1, ?_⟩
        rw [receives_succ]
        exact hn

/-- A consumer that goes on alone reads up to `commitPos` and returns. -/
def CatchesUp (bufferSize : ℕ) (interestedType : MessageType) (s : State ι) : Prop :=
  ∃ n, (receives bufferSize interestedType n s).shared.readPos = s.shared.commitPos ∧
    ∃ result, (receives bufferSize interestedType n s).recv = .idle result

theorem CatchesUp.of_receives {n : ℕ}
    (h : CatchesUp bufferSize interestedType (receives bufferSize interestedType n s)) :
    CatchesUp bufferSize interestedType s := by
  obtain ⟨m, hread, hidle⟩ := h
  rw [← receives_add, (committed_receives bufferSize interestedType n s).2] at hread
  rw [← receives_add] at hidle
  exact ⟨m + n, hread, hidle⟩

theorem recvStep_loadReadPos (hp : s.recv = .loadReadPos) :
    recvStep bufferSize interestedType s = { s with recv := .loadCommitPos s.shared.readPos } := by
  rw [recvStep, hp]

/-- At the top of the loop there is nothing left to read. -/
theorem CatchesUp.of_eq (hp : s.recv = .loadReadPos) (heq : s.shared.readPos = s.shared.commitPos) :
    CatchesUp bufferSize interestedType s := by
  have htwo : receives bufferSize interestedType 2 s = { s with recv := .idle (some none) } := by
    rw [receives_succ, receives_succ, recvStep_loadReadPos hp, receives_zero]
    simp only [recvStep, State.peek]
    rw [if_pos heq]
  refine ⟨2, ?_⟩
  rw [htwo]
  exact ⟨heq, some none, rfl⟩

/-- Outside of a call and at the top of the loop the consumer does the same. -/
theorem CatchesUp.of_rank_zero (hrank : s.recv.rank = 0)
    (hloop : ∀ n, (receives bufferSize interestedType n s).recv = .loadReadPos →
      (receives bufferSize interestedType n s).shared = s.shared →
      CatchesUp bufferSize interestedType (receives bufferSize interestedType n s)) :
    CatchesUp bufferSize interestedType s := by
  cases hp : s.recv with
  | idle result =>
      have hone : receives bufferSize interestedType 1 s = { s with recv := .loadReadPos } := by
        rw [receives_succ, receives_zero, recvStep, hp]
      refine CatchesUp.of_receives (hloop 1 ?_ ?_)
      · rw [hone]
      · rw [hone]
  | loadReadPos => exact CatchesUp.of_receives (hloop 0 hp rfl)
  | _ => simp [hp, RecvPc.rank] at hrank

variable [DecidableEq ι]

theorem reachable_receives (n : ℕ)
    (h : (sendableSystem ι bufferSize interestedType).Reachable s) :
    (sendableSystem ι bufferSize interestedType).Reachable
      (receives bufferSize interestedType n s) := by
  induction n generalizing s with
  | zero => exact h
  | succ n ih =>
      rw [receives_succ]
      refine ih (Automaton.Reachable.step .receive h ?_)
      simp only [sendableSystem, freshSystem, smallSystem, Automaton.restrict_step_eq_some]
      simp [Action.send?, system, step]

section Drain

variable (h8 : bufferSize % 8 = 0) (hpos : 0 < bufferSize) (h64 : bufferSize < 2 ^ 64)

include h8 hpos h64

/-- **Once around its loop** the consumer advances `readPos`, if there is something to read. -/
theorem exists_advance (h : (sendableSystem ι bufferSize interestedType).Reachable s)
    (hp : s.recv = .loadReadPos) (hlt : s.shared.readPos < s.shared.commitPos) :
    ∃ n, (receives bufferSize interestedType n s).recv.rank = 0 ∧
      s.shared.readPos < (receives bufferSize interestedType n s).shared.readPos := by
  have hring := ring_of_reachable h8 hpos h64 h
  have hdelivered := delivered_of_reachable h8 hpos h64 h
  have htail := tailSpace_ge h8 hpos hring.window.readPos_mod
  obtain ⟨r, hr, hcase⟩ := hdelivered.header h8 hring hlt
  have hmem := Ring.mem_committed hr
  have hwon := hring.ranges.isPrefix.subset hmem
  have hfits := hring.ranges.fits r hwon
  have hend := (hring.ranges.committed.bounds hmem).2.2
  have hsize := hfits.size_pos
  rw [Reservation.myEnd, Reservation.required] at hend
  -- the first three steps load the positions and copy a header
  have hheader : receives bufferSize interestedType 3 s =
      { s with
        recv := afterHeader interestedType (.ofBytes (ByteString.read s.shared.buffer
          (s.shared.readPos % bufferSize) 8)) s.shared.readPos s.shared.commitPos
        reads := s.reads ++ [(s.shared.readPos % bufferSize, 8)] } := by
    rw [receives_succ, receives_succ, receives_succ, receives_zero, recvStep_loadReadPos hp]
    simp only [recvStep, State.peek]
    rw [if_neg hlt.ne, if_neg (by omega)]
    rfl
  -- the last step stores to `readPos`
  have hstore : ∀ n value, s.shared.readPos < value →
      (∃ result, (receives bufferSize interestedType n s).recv = .storeReadPos value result) →
      ∃ n, (receives bufferSize interestedType n s).recv.rank = 0 ∧
        s.shared.readPos < (receives bufferSize interestedType n s).shared.readPos := by
    rintro n value hvalue ⟨result, hn⟩
    obtain ⟨hrank, hread⟩ := recvStep_store bufferSize interestedType hn
    refine ⟨1 + n, ?_⟩
    rw [receives_add]
    exact ⟨hrank, hread.symm ▸ hvalue⟩
  rcases hcase with ⟨hread, heq⟩ | ⟨hread, hroom, heq⟩
  · rw [Reservation.messagePos] at hread
    rw [heq, afterHeader_message interestedType hfits.small (hring.sending.won r hwon),
      if_neg (by omega)] at hheader
    split_ifs at hheader with hwanted hpayload
    · refine hstore (1 + 3) (s.shared.readPos + messageSize r.message) (by omega) ?_
      rw [receives_add, hheader]
      exact ⟨_, rfl⟩
    all_goals
      refine hstore 3 (s.shared.readPos + messageSize r.message) (by omega) ?_
      rw [hheader]
      exact ⟨_, rfl⟩
  · have haligned := aligned_of_ranges h8 hring.ranges r hwon
    have hmod := haligned.padding_mod
    have hpad := haligned.padding_lt
    rw [heq, afterHeader_padding interestedType hroom (by omega) hmod, if_neg (by omega)] at hheader
    refine hstore 3 (s.shared.readPos + r.paddingSize) (by omega) ?_
    rw [hheader]
    exact ⟨_, rfl⟩

/-- From the top of its loop, by induction on the number of bytes left. -/
theorem catchesUp_of_loadReadPos (h : (sendableSystem ι bufferSize interestedType).Reachable s)
    (hp : s.recv = .loadReadPos) : CatchesUp bufferSize interestedType s := by
  induction hk : s.shared.commitPos - s.shared.readPos using Nat.strong_induction_on
    generalizing s with
  | _ k ih =>
      have hle := (ring_of_reachable h8 hpos h64 h).window.readPos_le
      rcases hle.eq_or_lt with heq | hlt
      · exact CatchesUp.of_eq hp heq
      · obtain ⟨n, hrank, hadvance⟩ := exists_advance h8 hpos h64 h hp hlt
        have hcommit := (committed_receives bufferSize interestedType n s).2
        refine CatchesUp.of_receives (n := n) (CatchesUp.of_rank_zero hrank ?_)
        intro m hm hshared
        refine ih _ ?_ (reachable_receives m (reachable_receives n h)) hm rfl
        rw [hshared]
        omega

theorem catchesUp_of_reachable (h : (sendableSystem ι bufferSize interestedType).Reachable s) :
    CatchesUp bufferSize interestedType s := by
  obtain ⟨n, hn⟩ := exists_rank_zero bufferSize interestedType s
  refine CatchesUp.of_receives (n := n) (CatchesUp.of_rank_zero hn ?_)
  intro m hm _
  exact catchesUp_of_loadReadPos h8 hpos h64 (reachable_receives m (reachable_receives n h)) hm

/-- **A consumer that goes on alone obtains everything** that has been committed. -/
theorem exists_drained (h : (sendableSystem ι bufferSize interestedType).Reachable s) :
    ∃ n, (receives bufferSize interestedType n s).shared.readPos = s.shared.commitPos ∧
      (∃ result, (receives bufferSize interestedType n s).recv = .idle result) ∧
      (receives bufferSize interestedType n s).obtained =
        deliverable interestedType s.committed := by
  obtain ⟨n, hread, hidle⟩ := catchesUp_of_reachable h8 hpos h64 h
  have hr := reachable_receives n h
  obtain ⟨hcommitted, hcommit⟩ := committed_receives bufferSize interestedType n s
  refine ⟨n, hread, hidle, ?_⟩
  rw [(delivered_of_reachable h8 hpos h64 hr).drained (ring_of_reachable h8 hpos h64 hr)
    (hread.trans hcommit.symm), hcommitted]

end Drain

/-! ### One producer -/

/-- One producer, which sends text, number and stop messages with short payloads, and a consumer. -/
def singleSystem (bufferSize : ℕ) (interestedType : MessageType) :
    Automaton (State Unit) (Action Unit) :=
  (smallSystem Unit bufferSize interestedType).restrict fun _ a =>
    ∀ b ∈ a.send?, ∀ m ∈ b.message?, m.type.Sendable

/-- The positions that the producer has loaded are at most the size of the ring apart. -/
structure Fresh (bufferSize : ℕ) (s : State Unit) : Prop where
  loaded : ∀ m readPos, s.pc () = .loadReservePos m readPos →
    s.shared.reservePos ≤ readPos + bufferSize
  reserving : ∀ m readPos reservePos, s.pc () = .reserving m readPos reservePos →
    reservePos ≤ readPos + bufferSize

/-- **Every step keeps the positions fresh**: nobody else moves `reservePos`. -/
theorem Fresh.send {s : State Unit} (h : Fresh bufferSize s) (hw : Window bufferSize s)
    {p : Producers Unit} {a : SendAction Unit} (he : SendEffect bufferSize s.toProducers a p) :
    Fresh bufferSize { s with toProducers := p } := by
  cases he with
  | call i m result hpc =>
      refine ⟨?_, ?_⟩
      · intro m' readPos heq
        simp only [Producers.call, Producers.goto, Function.update_self] at heq
        split_ifs at heq
      · intro m' readPos reservePos heq
        simp only [Producers.call, Producers.goto, Function.update_self] at heq
        split_ifs at heq
  | loadReadPos i m hpc =>
      refine ⟨?_, ?_⟩
      · intro m' readPos heq
        simp only [Producers.goto, Function.update_self, SendPc.loadReservePos.injEq] at heq
        rw [← heq.2]
        exact hw.reservePos_le
      · simp [Producers.goto]
  | checkSpace i m readPos hpc =>
      rw [Producers.checkSpace]
      split_ifs
      · exact ⟨by simp [Producers.goto], by simp [Producers.goto]⟩
      · refine ⟨by simp [Producers.goto], ?_⟩
        intro m' readPos' reservePos heq
        simp only [Producers.goto, Function.update_self, SendPc.reserving.injEq] at heq
        obtain ⟨-, rfl, rfl⟩ := heq
        exact h.loaded m readPos hpc
  | retry i b m readPos reservePos hpc => exact ⟨by simp [Producers.goto], by simp [Producers.goto]⟩
  | win i m readPos hpc =>
      exact ⟨by simp [Producers.win, Producers.goto], by simp [Producers.win, Producers.goto]⟩
  | write i r w todo hpc =>
      exact ⟨by simp [Producers.write, Producers.goto], by simp [Producers.write, Producers.goto]⟩
  | wait i b => exact h
  | commit i r hpc heq =>
      exact ⟨by simp [Producers.commit, Producers.goto], by simp [Producers.commit, Producers.goto]⟩

/-- A step of the consumer does not touch the producer. -/
theorem Fresh.receive {s : State Unit} (h : Fresh bufferSize s) :
    Fresh bufferSize (recvStep bufferSize interestedType s) := by
  rcases toProducers_recvStep bufferSize interestedType s with heq | ⟨value, _, _, heq⟩
  · exact ⟨by rw [heq]; exact h.loaded, by rw [heq]; exact h.reserving⟩
  · exact ⟨by rw [heq]; exact h.loaded, by rw [heq]; exact h.reserving⟩

theorem Fresh.winsStale {s : State Unit} (h : Fresh bufferSize s) (a : SendAction Unit) :
    winsStale bufferSize s.toProducers a = false := by
  cases a with
  | compareExchangeReserve i spurious =>
      cases hp : s.pc i with
      | reserving m readPos reservePos =>
          have hle := h.reserving m readPos reservePos hp
          simp only [MpscQueue.winsStale, hp, Bool.and_eq_false_iff, decide_eq_false_iff_not]
          exact Or.inr (by omega)
      | _ => simp only [MpscQueue.winsStale, hp]
  | _ => rfl

/-- **A single producer never wins with positions that are too far apart.** -/
theorem sendable_of_single (h8 : bufferSize % 8 = 0) (hpos : 0 < bufferSize)
    (h64 : bufferSize < 2 ^ 64) {s : State Unit}
    (h : (singleSystem bufferSize interestedType).Reachable s) :
    (sendableSystem Unit bufferSize interestedType).Reachable s ∧ Fresh bufferSize s := by
  refine h.invariant (I := fun s =>
    (sendableSystem Unit bufferSize interestedType).Reachable s ∧ Fresh bufferSize s) ?_ ?_
  · intro s hs
    refine ⟨Automaton.Reachable.init hs, ?_⟩
    rw [show s = State.initial from hs]
    exact ⟨by simp [State.initial, Producers.initial], by simp [State.initial, Producers.initial]⟩
  · intro s a s' _ hI hs
    obtain ⟨hr, hfresh⟩ := hI
    obtain ⟨ha, hsmall⟩ := Automaton.restrict_step_eq_some.1 hs
    have hstep : (sendableSystem Unit bufferSize interestedType).step s a = some s' :=
      Automaton.restrict_step_eq_some.2
        ⟨ha, Automaton.restrict_step_eq_some.2 ⟨fun b _ => hfresh.winsStale b, hsmall⟩⟩
    refine ⟨Automaton.Reachable.step a hr hstep, ?_⟩
    obtain ⟨-, hs⟩ := Automaton.restrict_step_eq_some.1 hsmall
    cases a with
    | send a =>
        obtain ⟨p, hp, rfl⟩ := Option.map_eq_some_iff.1 hs
        exact hfresh.send (ring_of_reachable h8 hpos h64 hr).window (effect_of_sendStep hp)
    | receive =>
        rw [← Option.some.inj hs]
        exact hfresh.receive

/-- A producer that has not won a range in its last call. -/
def SendPc.unwon : SendPc ι → Bool
  | .idle (some (.ok false)) | .idle (some (.error _)) => true
  | .loadReadPos _ | .loadReservePos _ _ | .reserving _ _ _ => true
  | _ => false

/-- Nothing but `readPos` has changed since the start of the last call. -/
structure Untouched (s : Producers Unit) : Prop where
  reservePos : s.shared.reservePos = (s.entry ()).reservePos
  commitPos : s.shared.commitPos = (s.entry ()).commitPos
  buffer : s.shared.buffer = (s.entry ()).buffer

/-- **A `TrySend` that has not won a range has changed nothing.** -/
theorem untouched_send {p p' : Producers Unit} {a : SendAction Unit}
    (h : (p.pc ()).unwon = true → Untouched p) (he : SendEffect bufferSize p a p') :
    (p'.pc ()).unwon = true → Untouched p' := by
  intro hunwon
  cases he with
  | call i m result hpc => exact ⟨rfl, rfl, rfl⟩
  | loadReadPos i m hpc =>
      have hu := h (by rw [hpc]; rfl)
      exact ⟨hu.reservePos, hu.commitPos, hu.buffer⟩
  | checkSpace i m readPos hpc =>
      have hu := h (by rw [hpc]; rfl)
      rw [Producers.checkSpace]
      split_ifs <;> exact ⟨hu.reservePos, hu.commitPos, hu.buffer⟩
  | retry i b m readPos reservePos hpc =>
      have hu := h (by rw [hpc]; rfl)
      exact ⟨hu.reservePos, hu.commitPos, hu.buffer⟩
  | win i m readPos hpc => simp [Producers.win, Producers.goto, SendPc.unwon] at hunwon
  | write i r w todo hpc => simp [Producers.write, Producers.goto, SendPc.unwon] at hunwon
  | wait i b => exact h hunwon
  | commit i r hpc heq => simp [Producers.commit, Producers.goto, SendPc.unwon] at hunwon

theorem untouched_of_single {s : State Unit}
    (h : (singleSystem bufferSize interestedType).Reachable s) :
    (s.pc ()).unwon = true → Untouched s.toProducers := by
  refine h.invariant (I := fun s => (s.pc ()).unwon = true → Untouched s.toProducers) ?_ ?_
  · intro s hs
    rw [show s = State.initial from hs]
    exact fun _ => ⟨rfl, rfl, rfl⟩
  · intro s a s' _ hI hs
    obtain ⟨-, hs⟩ := Automaton.restrict_step_eq_some.1 hs
    obtain ⟨-, hs⟩ := Automaton.restrict_step_eq_some.1 hs
    cases a with
    | send a =>
        obtain ⟨p, hp, rfl⟩ := Option.map_eq_some_iff.1 hs
        exact untouched_send hI (effect_of_sendStep hp)
    | receive =>
        rw [← Option.some.inj hs]
        rcases toProducers_recvStep bufferSize interestedType s with heq | ⟨value, _, _, heq⟩
        · rw [heq]
          exact hI
        · rw [heq]
          intro hunwon
          exact ⟨(hI hunwon).reservePos, (hI hunwon).commitPos, (hI hunwon).buffer⟩

/-! ### Exact delivery -/

/-- What holds of a queue with one producer. -/
structure ExactDelivery (bufferSize : ℕ) (interestedType : MessageType) (s : State Unit) : Prop where
  /-- The messages obtained are the first of those committed that pass the filter. -/
  isPrefix : s.obtained <+: deliverable interestedType s.committed
  reads : ∀ b ∈ s.reads, b.1 + b.2 ≤ bufferSize
  writes : ∀ e ∈ s.written, e.write.stop ≤ bufferSize
  /-- A consumer that has caught up has obtained all of them, and a consumer that goes on alone
  catches up. -/
  caughtUp : s.shared.readPos = s.shared.commitPos →
    s.obtained = deliverable interestedType s.committed
  drains : ∃ n, (receives bufferSize interestedType n s).shared.readPos = s.shared.commitPos ∧
    (∃ result, (receives bufferSize interestedType n s).recv = .idle result) ∧
    (receives bufferSize interestedType n s).obtained = deliverable interestedType s.committed
  /-- Outside of `TrySend` everything that has been reserved is committed. -/
  idle : ∀ result, s.pc () = .idle result → s.committed = s.won
  /-- A call that returns `false` or throws has changed neither the positions nor the ring. -/
  refused : ∀ result, s.pc () = .idle (some result) → result ≠ .ok true → Untouched s.toProducers

/-- **Exact delivery** with one producer and one consumer. -/
theorem exact_delivery (h8 : bufferSize % 8 = 0) (hpos : 0 < bufferSize) (h64 : bufferSize < 2 ^ 64)
    {s : State Unit} (h : (singleSystem bufferSize interestedType).Reachable s) :
    ExactDelivery bufferSize interestedType s := by
  have hr := (sendable_of_single h8 hpos h64 h).1
  have hring := ring_of_reachable h8 hpos h64 hr
  have hdelivered := delivered_of_reachable h8 hpos h64 hr
  refine ⟨hdelivered.obtained_isPrefix, hdelivered.reads, fun e he => hring.written_stop_le he,
    hdelivered.drained hring, exists_drained h8 hpos h64 hr, ?_, ?_⟩
  · -- between two calls of the only producer, everything that has been won is committed
    intro result hpc
    have hall : ∀ r ∈ s.won, r ∈ s.committed := by
      intro r hmem
      rcases hring.ranges.pending r hmem with hcomm | hwriting
      · exact hcomm
      · rw [show r.owner = () from rfl, hpc] at hwriting
        simp [SendPc.range?] at hwriting
    obtain ⟨rest, hrest⟩ := hring.ranges.isPrefix
    cases rest with
    | nil => rw [← hrest, List.append_nil]
    | cons r rest =>
        -- a range behind the committed ones would be committed as well
        have hmem : r ∈ s.won := by simp [← hrest]
        have hwon := hring.ranges.won
        rw [← hrest] at hwon
        obtain ⟨c, hc, htail⟩ := Tiling.Tiles.append_iff.1 hwon
        have hend := (hring.ranges.committed.bounds (hall r hmem)).2.2
        have hlt := (hring.ranges.fits r hmem).myBegin_lt
        have hcut := hring.ranges.committed.end_unique hc
        have hlo := htail.1
        omega
  · intro result hpc hresult
    refine untouched_of_single h ?_
    rw [hpc]
    cases result with
    | error e => rfl
    | ok b =>
        cases b with
        | false => rfl
        | true => exact absurd rfl hresult

/-- A ring of `24` bytes: a text of one byte is sent and received; a text of three bytes is sent, in
front of which the last eight bytes of the ring are skipped, and received. -/
def twoTexts : List (Action Unit) :=
  let trySend (m : Message) (writes : ℕ) : List (Action Unit) :=
    [Action.send (.trySend () m), .send (.loadReadPos ()), .send (.loadReservePos ()),
      .send (.compareExchangeReserve () false)] ++
      List.replicate writes (Action.send (.write ())) ++
      [Action.send (.compareExchangeCommit () false)]
  trySend ⟨.text, [104]⟩ 3 ++ List.replicate 6 Action.receive ++ trySend ⟨.text, [1, 2, 3]⟩ 4 ++
    List.replicate 10 Action.receive

/-- Both texts arrive. -/
theorem exact_delivery_two_texts :
    ∃ s : State Unit, (singleSystem 24 .text).run State.initial twoTexts = some s ∧
      s.obtained = [⟨.text, [104]⟩, ⟨.text, [1, 2, 3]⟩] ∧ ExactDelivery 24 .text s := by
  obtain ⟨s, hs⟩ : ∃ s, (singleSystem 24 .text).run State.initial twoTexts = some s := ⟨_, rfl⟩
  have hend : s.obtained = [⟨.text, [104]⟩, ⟨.text, [1, 2, 3]⟩] := by
    obtain rfl := Option.some_inj.1 hs
    decide
  exact ⟨s, hs, hend, exact_delivery (by decide) (by decide) (by decide)
    (Automaton.Reachable.of_run rfl hs)⟩

end MpscQueue
