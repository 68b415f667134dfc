/-
**Programs that fit into the ring complete.**

The producers and the consumer, taken together, come to an end: every producer to the end of its program,
and the consumer to the first stop, if there is one.  What it has printed then are all values that pass
its filter, in the order in which they were committed, up to the first stop.

A poll of the consumer that finds nothing, and an iteration of `PublishReservedRange` that has to wait,
change nothing but the phase of a loop, and are left out of the runs whose length is bounded.

Main definitions:

* `MpscQueue.RecvPc.Ahead` — the call of `TryReceive` is going to release a record;
* `MpscQueue.Clients.rank` — how far the programs are from their end;
* `MpscQueue.finishingClients`, `MpscQueue.Done` — the programs without idle polls, and their end.

Main results:

* `MpscQueue.recvStep_of_ahead` — a `TryReceive` that starts below `commitPos` does release one;
* `MpscQueue.rank_clientStep` — every step brings the programs closer to their end;
* `MpscQueue.done_of_settled` — programs that cannot go on have done everything;
* `MpscQueue.programs_complete` — **the programs complete**.
-/

import CppMultithreaded.QueueFits
import CppMultithreaded.QueueProgress
import Mathlib.Algebra.BigOperators.Ring.Finset

set_option relaxedAutoImplicit false
set_option autoImplicit false

namespace MpscQueue

variable {ι : Type*} {bufferSize : ℕ} {interestedType : MessageType}

/-! ### Calls of `TryReceive` that find a record -/

/-- The call of `TryReceive` is going to release a record. -/
def RecvPc.Ahead (q : Shared) (next : Option (Reservation ι)) : RecvPc → Prop
  | .loadReadPos | .loadCommitPos _ => q.readPos < q.commitPos
  | .readHeader _ commitPos => ∃ r ∈ next, r.myEnd ≤ commitPos
  | _ => True

section Ahead

variable {s : State ι}

/-- The producers keep a call ahead. -/
theorem RecvPc.Ahead.mono {p : Producers ι} (h : s.recv.Ahead s.shared s.committed[s.released]?)
    (hread : p.shared.readPos = s.shared.readPos) (hcommit : s.shared.commitPos ≤ p.shared.commitPos)
    (hcommitted : s.committed <+: p.committed) :
    s.recv.Ahead p.shared p.committed[s.released]? := by
  cases hp : s.recv with
  | readHeader readPos commitPos =>
      rw [hp] at h
      obtain ⟨r, hr, hle⟩ := h
      obtain ⟨hn, -⟩ := List.getElem?_eq_some_iff.1 (Option.mem_def.1 hr)
      obtain ⟨rest, hrest⟩ := hcommitted
      refine ⟨r, ?_, hle⟩
      rw [← hrest, List.getElem?_append_left hn]
      exact hr
  | loadReadPos =>
      rw [hp] at h
      exact hread.trans_lt (lt_of_lt_of_le h hcommit)
  | loadCommitPos readPos =>
      rw [hp] at h
      exact hread.trans_lt (lt_of_lt_of_le h hcommit)
  | _ => trivial

/-- **A call that is ahead goes on until it releases a record.** -/
theorem recvStep_of_ahead (h8 : bufferSize % 8 = 0) (hpos : 0 < bufferSize) (hring : Ring bufferSize s)
    (hd : Delivered bufferSize interestedType s) (hidle : ∀ result, s.recv ≠ .idle result)
    (h : s.recv.Ahead s.shared s.committed[s.released]?) :
    (∃ value result, s.recv = .storeReadPos value (some result)) ∨
      (∀ result, (recvStep bufferSize interestedType s).recv ≠ .idle result) ∧
      (recvStep bufferSize interestedType s).released = s.released ∧
      (recvStep bufferSize interestedType s).recv.Ahead (recvStep bufferSize interestedType s).shared
        (recvStep bufferSize interestedType s).committed[
          (recvStep bufferSize interestedType s).released]? := by
  have hwindow := hring.window.recv
  have hknows := hd.recv
  have htail := tailSpace_ge h8 hpos hring.window.readPos_mod
  cases hp : s.recv with
  | idle result => exact absurd hp (hidle result)
  | loadReadPos =>
      rw [hp] at h
      refine Or.inr ?_
      rw [recvStep_loadReadPos hp]
      exact ⟨by simp, rfl, h⟩
  | loadCommitPos readPos =>
      rw [hp] at h hwindow
      have hread : readPos = s.shared.readPos := hwindow
      have hlt : s.shared.readPos < s.shared.commitPos := h
      refine Or.inr ?_
      simp only [recvStep, hp, State.peek]
      rw [if_neg (by omega), if_neg (by rw [hread]; omega)]
      obtain ⟨r, hr, -⟩ := hd.exists_next hring hlt
      exact ⟨by simp, rfl, r, hr, (hring.ranges.committed.bounds (Ring.mem_committed hr)).2.2⟩
  | readHeader readPos commitPos =>
      rw [hp] at h hwindow
      obtain ⟨rfl, hlt, hcommit⟩ := hwindow
      obtain ⟨r', hr', hle⟩ := h
      refine Or.inr ?_
      rw [recvStep, hp]
      obtain ⟨r, hr, hcase⟩ := hd.header h8 hring (hlt.trans_le hcommit)
      obtain rfl := Option.mem_unique hr hr'
      have hwon := hring.ranges.isPrefix.subset (Ring.mem_committed hr)
      have haligned := aligned_of_ranges h8 hring.ranges r hwon
      rw [Reservation.myEnd, Reservation.required] at hle
      simp only [State.readBuffer]
      rcases hcase with ⟨hread, hheader⟩ | ⟨hread, hroom, hheader⟩
      · rw [Reservation.messagePos] at hread
        rw [hheader, afterHeader_message interestedType (hring.ranges.fits r hwon).small
          (hring.sending.won r hwon), if_neg (by omega)]
        split_ifs <;> exact ⟨by simp, trivial, trivial⟩
      · have hmod := haligned.padding_mod
        have hpad := haligned.padding_lt
        rw [hheader, afterHeader_padding interestedType hroom (by omega) hmod, if_neg (by omega)]
        exact ⟨by simp, trivial, trivial⟩
  | readPayload readPos nextReadPos type payloadSize =>
      refine Or.inr ?_
      rw [recvStep, hp]
      exact ⟨by simp [State.readBuffer], rfl, trivial⟩
  | storeReadPos value result =>
      cases result with
      | some result => exact Or.inl ⟨value, result, rfl⟩
      | none =>
          rw [hp] at hknows
          obtain ⟨r, hr, rfl⟩ := hknows
          have hend := (hring.ranges.committed.bounds (Ring.mem_committed hr)).2.2
          have hsize :=
            (hring.ranges.fits r (hring.ranges.isPrefix.subset (Ring.mem_committed hr))).size_pos
          rw [Reservation.myEnd, Reservation.required] at hend
          refine Or.inr ?_
          rw [recvStep, hp]
          refine ⟨by simp [State.release], rfl, ?_⟩
          show r.messagePos < s.shared.commitPos
          rw [Reservation.messagePos]
          omega

end Ahead

/-! ### The rank of the programs -/

/-- How far the loop of `Send` is from the end of its program, of `len` values, not counting the steps
inside of `TrySend`. -/
def Phase.sendWeight (n len : ℕ) : Phase → ℕ
  | .ready => (3 * n + 11) * len
  | .calling => (3 * n + 11) * (len - 1) + 1
  | .exited | .threw => 0

theorem State.remaining_le (s : State ι) : s.remaining ≤ 9 := RecvPc.remaining_le _ _

/-- How far the consumer is from having released `total` records. -/
def receiveWeight (total : ℕ) (receiver : Phase) (q : State ι) : ℕ :=
  match receiver with
  | .ready => 12 * (total - q.released)
  | .calling =>
      match q.recv with
      | .idle _ => 12 * (total - q.released) + 1
      | _ => 12 * (total - q.released - 1) + q.remaining + 1
  | .exited | .threw => 0

theorem receiveWeight_of_calling {total : ℕ} {q : State ι} (hidle : ∀ result, q.recv ≠ .idle result) :
    receiveWeight total .calling q = 12 * (total - q.released - 1) + q.remaining + 1 := by
  rw [receiveWeight]
  cases hp : q.recv with
  | idle result => exact absurd hp (hidle result)
  | _ => rfl

theorem receiveWeight_of_idle {total : ℕ} {q : State ι} {result : Option (Option Message)}
    (hidle : q.recv = .idle result) :
    receiveWeight total .calling q = 12 * (total - q.released) + 1 := by
  rw [receiveWeight, hidle]

theorem receiveWeight_le_of_ne (total : ℕ) {receiver : Phase} (hne : receiver ≠ .calling) (q : State ι) :
    receiveWeight total receiver q ≤ 12 * (total - q.released) := by
  cases receiver with
  | ready => exact le_rfl
  | calling => exact absurd rfl hne
  | _ => exact Nat.zero_le _

/-- What the consumer does with a message leaves the queue and the producers alone. -/
theorem Clients.exists_consume (c : Clients ι) (m : Message) :
    ∃ receiver output, receiver ≠ .calling ∧
      c.consume m = { c with receiver := receiver, output := output } := by
  rw [Clients.consume]
  cases consumerLoop m with
  | error e => exact ⟨.threw, c.output, by simp, rfl⟩
  | ok printed =>
      refine ⟨if m.type = .stop then .exited else .ready, c.output ++ printed.toList, ?_, rfl⟩
      split_ifs <;> simp

/-- A state where the consumer has no more left to do. -/
theorem receiveWeight_le {total : ℕ} {receiver : Phase} {q q' : State ι} (hrecv : q'.recv = q.recv)
    (hreleased : q'.released = q.released) (hremaining : q'.remaining ≤ q.remaining) :
    receiveWeight total receiver q' ≤ receiveWeight total receiver q := by
  cases receiver with
  | calling =>
      rw [receiveWeight, receiveWeight, hrecv, hreleased]
      cases q.recv with
      | idle result => exact le_rfl
      | _ =>
          simp only
          omega
  | ready => rw [receiveWeight, receiveWeight, hreleased]
  | _ => exact le_rfl

variable [Fintype ι]

/-- The rank of a state of the programs. -/
def Clients.rank (total : ℕ) (c : Clients ι) : ℕ :=
  ∑ i, (c.sender i).sendWeight (Fintype.card ι) (c.todo i).length + c.queue.toProducers.rank +
    receiveWeight total c.receiver c.queue

variable [DecidableEq ι]

omit [DecidableEq ι] in
/-- At the start each value counts with its `Send` and its `Receive`. -/
theorem rank_initial (prog : ι → List Value) :
    (Clients.initial prog).rank (∑ i, (prog i).length) =
      (3 * Fintype.card ι + 23) * ∑ i, (prog i).length := by
  have hsend : ∑ i, ((Clients.initial prog).sender i).sendWeight (Fintype.card ι)
      ((Clients.initial prog).todo i).length = (3 * Fintype.card ι + 11) * ∑ i, (prog i).length := by
    rw [Finset.mul_sum]
    rfl
  have hqueue : (Clients.initial prog).queue.toProducers.rank = 0 := by
    simp [Clients.initial, State.initial, Producers.initial, Producers.rank, SendPc.distance]
  have hreceive : receiveWeight (∑ i, (prog i).length) (Clients.initial prog).receiver
      (Clients.initial prog).queue = 12 * ∑ i, (prog i).length := rfl
  rw [Clients.rank, hsend, hqueue, hreceive]
  ring

/-- Every range has one owner. -/
theorem sum_length_filter (rs : List (Reservation ι)) :
    ∑ i, (rs.filter fun r => r.owner = i).length = rs.length := by
  induction rs with
  | nil => simp
  | cons r rs ih =>
      have hone : ∀ i, ((r :: rs).filter fun r => r.owner = i).length =
          (rs.filter fun r => r.owner = i).length + if r.owner = i then 1 else 0 := by
        intro i
        rw [List.filter_cons]
        split_ifs <;> simp_all
      rw [Finset.sum_congr rfl fun i _ => hone i, Finset.sum_add_distrib, ih]
      simp

/-- The consumer has no more records to release than there are values. -/
theorem Sends.length_committed_le {prog : ι → List Value} {c : Clients ι}
    (h : Sends bufferSize prog c) : c.queue.committed.length ≤ ∑ i, (prog i).length := by
  rw [← sum_length_filter]
  refine Finset.sum_le_sum ?_
  intro i _
  have hlength := congrArg List.length (h i).sent
  rw [Producers.sentBy, List.length_append, List.length_map, List.length_map, List.length_map] at hlength
  omega

/-! ### No idle polls -/

/-- The step is no poll of the consumer that finds nothing, and no iteration of `PublishReservedRange` that
has to wait. -/
def ClientAction.goesOn (c : Clients ι) : ClientAction ι → Bool
  | .inside (.send a) => (ProducersAction.send a).goesOn c.queue.toProducers
  | .tryReceive => c.queue.shared.readPos != c.queue.shared.commitPos
  | _ => true

/-- The step is a compare-exchange that fails spuriously. -/
def ClientAction.slow : ClientAction ι → Bool
  | .inside (.send a) => (ProducersAction.send a).slow
  | _ => false

/-- The programs, without idle polls. -/
def finishingClients (ι : Type*) [DecidableEq ι] (bufferSize : ℕ) (interestedType : MessageType)
    (prog : ι → List Value) : Automaton (Clients ι) (ClientAction ι) :=
  (clientSystem (system ι bufferSize interestedType) prog).restrict fun c a => a.goesOn c = true

section Rank

variable {prog : ι → List Value} {c c' : Clients ι} {total : ℕ}

/-- The loop of one producer advances, by more than the calls get further from their end. -/
theorem rank_of_sender {i : ι} {k : ℕ}
    (hothers : ∀ j, j ≠ i → c'.sender j = c.sender j ∧ c'.todo j = c.todo j)
    (hsend : (c'.sender i).sendWeight (Fintype.card ι) (c'.todo i).length + k + 1 ≤
      (c.sender i).sendWeight (Fintype.card ι) (c.todo i).length)
    (hqueue : c'.queue.toProducers.rank ≤ c.queue.toProducers.rank + k)
    (hreceive : receiveWeight total c'.receiver c'.queue ≤ receiveWeight total c.receiver c.queue) :
    c'.rank total + 1 ≤ c.rank total := by
  have hsum := ThreadWeight.sum_of_ne (t := i)
    (f := fun j => (c.sender j).sendWeight (Fintype.card ι) (c.todo j).length)
    (g := fun j => (c'.sender j).sendWeight (Fintype.card ι) (c'.todo j).length)
    fun j hj => by rw [(hothers j hj).1, (hothers j hj).2]
  rw [Clients.rank, Clients.rank]
  omega

/-- A call of `TrySend` takes a producer to the top of the loop. -/
theorem rank_call {s : Producers ι} {i : ι} {m : Message} {result : Option (Except String Bool)}
    (hp : s.pc i = .idle result) :
    (s.call bufferSize i m).rank ≤ s.rank + (3 * Fintype.card ι + 9) := by
  have hmove := rank_move (s := s) (i := i)
    (p := if messageSize m > bufferSize then .idle (some (.error tooLarge)) else .loadReadPos m)
    (show (s.call bufferSize i m).pc = Function.update s.pc i _ from rfl) rfl
  rw [hp] at hmove
  split_ifs at hmove
  · simp only [SendPc.distance] at hmove
    omega
  · simp only [SendPc.distance] at hmove
    omega

/-- `Send` calls `TrySend`, and has one call less to make. -/
theorem rank_trySend {i : ι} {v : Value} {vs : List Value} {p : Producers ι}
    (hready : c.sender i = .ready) (htodo : c.todo i = v :: vs)
    (hp : sendStep bufferSize c.queue.toProducers (.trySend i v.message) = some p) :
    ({ c with
      queue := { c.queue with toProducers := p }
      sender := Function.update c.sender i .calling } : Clients ι).rank total + 1 ≤ c.rank total := by
  cases effect_of_sendStep hp with
  | call _ _ result hidle =>
      refine rank_of_sender (i := i) ?_ ?_ (rank_call hidle) le_rfl
      · intro j hj
        exact ⟨Function.update_of_ne hj _ _, rfl⟩
      · simp only [Function.update_self, hready, htodo, Phase.sendWeight, List.length_cons,
          Nat.add_sub_cancel, Nat.mul_add]
        omega

/-- `Send` has seen that `TrySend` has returned `true`. -/
theorem rank_sent {i : ι} (hcalling : c.sender i = .calling) :
    ({ c with
      todo := Function.update c.todo i (c.todo i).tail
      sender := Function.update c.sender i .ready } : Clients ι).rank total + 1 ≤ c.rank total := by
  refine rank_of_sender (i := i) (k := 0) ?_ ?_ le_rfl le_rfl
  · intro j hj
    exact ⟨Function.update_of_ne hj _ _, Function.update_of_ne hj _ _⟩
  · simp only [Function.update_self, hcalling, Phase.sendWeight, List.length_tail]
    exact le_rfl

omit [DecidableEq ι] in
/-- A step that only the consumer has an eye on. -/
theorem rank_of_receiver (hsender : c'.sender = c.sender) (htodo : c'.todo = c.todo)
    (hqueue : c'.queue.toProducers.rank = c.queue.toProducers.rank)
    (hreceive : receiveWeight total c'.receiver c'.queue + 1 ≤ receiveWeight total c.receiver c.queue) :
    c'.rank total + 1 ≤ c.rank total := by
  rw [Clients.rank, Clients.rank, hsender, htodo, hqueue]
  omega

omit [DecidableEq ι] in
theorem producersRank_recvStep (s : State ι) :
    (recvStep bufferSize interestedType s).toProducers.rank = s.toProducers.rank := by
  rcases toProducers_recvStep bufferSize interestedType s with heq | ⟨value, _, -, heq⟩
  · rw [heq]
  · rw [heq]
    rfl

omit [DecidableEq ι] in
/-- A step inside of `TryReceive`. -/
theorem rank_receive (h8 : bufferSize % 8 = 0) (hpos : 0 < bufferSize) (hring : Ring bufferSize c.queue)
    (hd : Delivered bufferSize interestedType c.queue) (hcalling : c.receiver = .calling)
    (hidle : ∀ result, c.queue.recv ≠ .idle result)
    (hahead : c.queue.recv.Ahead c.queue.shared c.queue.committed[c.queue.released]?) :
    ({ c with queue := recvStep bufferSize interestedType c.queue } : Clients ι).rank total + 1 ≤
      c.rank total := by
  refine rank_of_receiver rfl rfl (producersRank_recvStep c.queue) ?_
  rw [hcalling, receiveWeight_of_calling hidle]
  rcases recvStep_of_ahead h8 hpos hring hd hidle hahead with ⟨value, result, hp⟩ | ⟨hnot, hreleased, -⟩
  · have hknows := hd.recv
    rw [hp] at hknows
    obtain ⟨r, hr, -⟩ := hknows
    obtain ⟨hn, -⟩ := List.getElem?_eq_some_iff.1 (Option.mem_def.1 hr)
    have hrelease : recvStep bufferSize interestedType c.queue = c.queue.release value (some result) := by
      rw [recvStep, hp]
    have hremaining : c.queue.remaining = 1 := by
      rw [State.remaining, hp]
      rfl
    rw [hrelease, receiveWeight_of_idle (q := c.queue.release value (some result)) rfl, hremaining,
      show (c.queue.release value (some result)).released = c.queue.released + 1 from rfl]
    omega
  · have hremaining := remaining_receive h8 hpos hring hd hidle
    rw [receiveWeight_of_calling hnot, hreleased]
    omega

omit [DecidableEq ι] in
/-- `Receive` calls `TryReceive`, where there is a record. -/
theorem rank_tryReceive (hring : Ring bufferSize c.queue)
    (hd : Delivered bufferSize interestedType c.queue) (htotal : c.queue.committed.length ≤ total)
    (hready : c.receiver = .ready) {result : Option (Option Message)}
    (hidle : c.queue.recv = .idle result) (hlt : c.queue.shared.readPos < c.queue.shared.commitPos) :
    ({ c with
      queue := recvStep bufferSize interestedType c.queue
      receiver := .calling } : Clients ι).rank total + 1 ≤ c.rank total := by
  refine rank_of_receiver rfl rfl (producersRank_recvStep c.queue) ?_
  obtain ⟨r, hr, -⟩ := hd.exists_next hring hlt
  obtain ⟨hn, -⟩ := List.getElem?_eq_some_iff.1 (Option.mem_def.1 hr)
  have hcall : recvStep bufferSize interestedType c.queue = { c.queue with recv := .loadReadPos } := by
    rw [recvStep, hidle]
  have hreleased : (recvStep bufferSize interestedType c.queue).released = c.queue.released := by
    rw [hcall]
  have hremaining := (recvStep bufferSize interestedType c.queue).remaining_le
  rw [hready, receiveWeight_of_calling (q := recvStep bufferSize interestedType c.queue)
    (by simp [hcall]), hreleased, receiveWeight]
  omega

/-- A step inside of `TrySend`. -/
theorem rank_send {a : SendAction ι} {p : Producers ι}
    (hp : sendStep bufferSize c.queue.toProducers a = some p) (ha : a.message? = none)
    (hgoes : (ProducersAction.send a).goesOn c.queue.toProducers = true) :
    ({ c with queue := { c.queue with toProducers := p } } : Clients ι).rank total + 1 ≤
      c.rank total + if (ProducersAction.send a).slow then 3 else 0 := by
  have hqueue : p.rank + 1 ≤ c.queue.toProducers.rank +
      if (ProducersAction.send a).slow then 3 else 0 := by
    refine rank_step (Automaton.restrict_step_eq_some.2 ⟨hgoes, Automaton.restrict_step_eq_some.2
      ⟨?_, hp⟩⟩)
    simp [ProducersAction.send?, SendAction.Small, ha]
  have hreceive : receiveWeight total c.receiver { c.queue with toProducers := p } ≤
      receiveWeight total c.receiver c.queue :=
    receiveWeight_le rfl rfl (remaining_send (effect_of_sendStep hp))
  show ∑ i, (c.sender i).sendWeight (Fintype.card ι) (c.todo i).length + p.rank +
    receiveWeight total c.receiver { c.queue with toProducers := p } + 1 ≤ _
  rw [Clients.rank]
  omega

end Rank

/-! ### Every step -/

/-- What holds of the programs without idle polls: a call of `TryReceive` that has started is going to
release a record. -/
structure Completing (bufferSize : ℕ) (interestedType : MessageType) (prog : ι → List Value)
    (c : Clients ι) : Prop where
  reachable : (clientSystem (sendableSystem ι bufferSize interestedType) prog).Reachable c
  fitting : Fitting bufferSize c
  ahead : c.receiver = .calling →
    c.queue.recv.Ahead c.queue.shared c.queue.committed[c.queue.released]?

omit [Fintype ι] in
/-- `commitPos` only grows. -/
theorem commitPos_sendStep {s s' : Producers ι} {a : SendAction ι} (hr : Ranges bufferSize s)
    (he : SendEffect bufferSize s a s') : s.shared.commitPos ≤ s'.shared.commitPos := by
  cases he with
  | checkSpace i m readPos hp =>
      rw [Producers.checkSpace]
      split_ifs <;> exact le_rfl
  | commit i r hp heq =>
      obtain ⟨hmem, -, -⟩ := hr.writing i r (by rw [hp]; rfl)
      rw [heq]
      exact (hr.fits r hmem).myBegin_lt.le
  | _ => exact le_rfl

section Step

variable {prog : ι → List Value} {c c' : Clients ι} {a : ClientAction ι}

omit [Fintype ι] in
/-- **A call of `TryReceive` stays ahead.** -/
theorem ahead_clientStep (h8 : bufferSize % 8 = 0) (hpos : 0 < bufferSize)
    (hring : Ring bufferSize c.queue)
    (hd : Delivered bufferSize interestedType c.queue)
    (h : c.receiver = .calling →
      c.queue.recv.Ahead c.queue.shared c.queue.committed[c.queue.released]?)
    (hreceives : Receives c) (hgoes : a.goesOn c = true)
    (he : ClientEffect (sendableSystem ι bufferSize interestedType) c a c') :
    c'.receiver = .calling →
      c'.queue.recv.Ahead c'.queue.shared c'.queue.committed[c'.queue.released]? := by
  have hsend : ∀ {b : SendAction ι} {p : Producers ι},
      SendEffect bufferSize c.queue.toProducers b p → c.receiver = .calling →
      c.queue.recv.Ahead p.shared p.committed[c.queue.released]? := by
    intro b p hb hcalling
    obtain ⟨hcommitted, hread⟩ := committed_sendStep hb
    exact (h hcalling).mono hread (commitPos_sendStep hring.ranges hb) hcommitted
  cases he with
  | trySend i v vs q hready htodo hq =>
      obtain ⟨p, hp, rfl⟩ := Option.map_eq_some_iff.1 (step_of_sendable hq)
      exact hsend (effect_of_sendStep hp)
  | inside b q hinside hq =>
      have hstep := step_of_sendable hq
      cases b with
      | send b =>
          obtain ⟨p, hp, rfl⟩ := Option.map_eq_some_iff.1 hstep
          exact hsend (effect_of_sendStep hp)
      | receive =>
          obtain rfl := Option.some.inj hstep
          intro hcalling
          have hidle : ∀ result, c.queue.recv ≠ .idle result := by
            intro result hp
            simp [Action.inside, hp] at hinside
          rcases recvStep_of_ahead h8 hpos hring hd hidle (h hcalling) with ⟨value, result, hp⟩ |
            ⟨-, -, hahead⟩
          · rw [show recvStep bufferSize interestedType c.queue = c.queue.release value (some result) by
              rw [recvStep, hp]]
            trivial
          · exact hahead
  | tryReceive q hready hq =>
      obtain rfl := Option.some.inj (step_of_sendable hq)
      intro _
      obtain ⟨result, hidle⟩ := hreceives.idle (by simp [hready])
      have hle := hring.window.readPos_le
      simp only [ClientAction.goesOn, bne_iff_ne] at hgoes
      rw [show recvStep bufferSize interestedType c.queue = { c.queue with recv := .loadReadPos } by
        rw [recvStep, hidle]]
      exact lt_of_le_of_ne hle hgoes
  | nothing hcalling hp => simp
  | received m hcalling hp =>
      obtain ⟨receiver, output, hreceiver, heq⟩ := c.exists_consume m
      rw [heq]
      exact fun hnot => absurd hnot hreceiver
  | _ => exact h

/-- **Every step brings the programs closer to their end**, apart from the compare-exchanges that fail
spuriously. -/
theorem rank_clientStep (h8 : bufferSize % 8 = 0) (hpos : 0 < bufferSize)
    (hring : Ring bufferSize c.queue)
    (hd : Delivered bufferSize interestedType c.queue) (hfitting : Fitting bufferSize c)
    (hsends : Sends bufferSize prog c) (hreceives : Receives c)
    (hahead : c.receiver = .calling →
      c.queue.recv.Ahead c.queue.shared c.queue.committed[c.queue.released]?)
    (hgoes : a.goesOn c = true)
    (he : ClientEffect (sendableSystem ι bufferSize interestedType) c a c') :
    c'.rank (∑ i, (prog i).length) + 1 ≤
      c.rank (∑ i, (prog i).length) + if a.slow then 3 else 0 := by
  cases he with
  | trySend i v vs q hready htodo hq =>
      obtain ⟨p, hp, rfl⟩ := Option.map_eq_some_iff.1 (step_of_sendable hq)
      exact rank_trySend hready htodo hp
  | sent i hcalling hp => exact rank_sent hcalling
  | full i hcalling hp => exact absurd hp (hfitting.notFull i)
  | threw i e hcalling hp => exact absurd hp (hfitting.notLarge i e)
  | inside b q hinside hq =>
      have hstep := step_of_sendable hq
      cases b with
      | send b =>
          obtain ⟨p, hp, rfl⟩ := Option.map_eq_some_iff.1 hstep
          refine rank_send hp ?_ hgoes
          cases b with
          | trySend i m => simp [Action.inside] at hinside
          | _ => rfl
      | receive =>
          obtain rfl := Option.some.inj hstep
          have hidle : ∀ result, c.queue.recv ≠ .idle result := by
            intro result hp
            simp [Action.inside, hp] at hinside
          have hcalling : c.receiver = .calling := by
            by_contra hnot
            obtain ⟨result, hp⟩ := hreceives.idle hnot
            exact hidle result hp
          exact rank_receive h8 hpos hring hd hcalling hidle (hahead hcalling)
  | tryReceive q hready hq =>
      obtain rfl := Option.some.inj (step_of_sendable hq)
      obtain ⟨result, hidle⟩ := hreceives.idle (by simp [hready])
      simp only [ClientAction.goesOn, bne_iff_ne] at hgoes
      exact rank_tryReceive hring hd hsends.length_committed_le hready hidle
        (lt_of_le_of_ne hring.window.readPos_le hgoes)
  | nothing hcalling hp =>
      refine rank_of_receiver rfl rfl rfl ?_
      rw [hcalling, receiveWeight_of_idle hp]
      exact le_rfl
  | received m hcalling hp =>
      obtain ⟨receiver, output, hreceiver, heq⟩ := c.exists_consume m
      rw [heq]
      refine rank_of_receiver rfl rfl rfl ?_
      have hle := receiveWeight_le_of_ne (∑ i, (prog i).length) hreceiver c.queue
      rw [hcalling, receiveWeight_of_idle hp]
      simp only
      omega

variable (h8 : bufferSize % 8 = 0) (hpos : 0 < bufferSize) (h64 : bufferSize < 2 ^ 64)
  (hsmall : ∀ i, ∀ v ∈ prog i, v.message.Small)

include h8 hpos h64 hsmall

/-- The step of the programs, on the queue where no producer wins with stale positions. -/
theorem Completing.sendable_step (h : Completing bufferSize interestedType prog c)
    (hst : clientStep (system ι bufferSize interestedType) c a = some c') :
    clientStep (sendableSystem ι bufferSize interestedType) c a = some c' :=
  clientStep_of_queueStep hst fun _ hb _ hq =>
    h.fitting.sendable (invariants_of_clients h8 hpos h64 h.reachable).1 hsmall hb hq

/-- **The step lemma** of the programs without idle polls. -/
theorem Completing.step (h : Completing bufferSize interestedType prog c)
    (hst : (finishingClients ι bufferSize interestedType prog).step c a = some c') :
    Completing bufferSize interestedType prog c' ∧
      c'.rank (∑ i, (prog i).length) + 1 ≤
        c.rank (∑ i, (prog i).length) + if a.slow then 3 else 0 := by
  obtain ⟨hgoes, hst⟩ := Automaton.restrict_step_eq_some.1 hst
  have hst' := h.sendable_step h8 hpos h64 hsmall hst
  have he := effect_of_clientStep hst'
  obtain ⟨hsends, hreceives⟩ := invariants_of_clients h8 hpos h64 h.reachable
  have hqueue := queue_reachable (Q := sendableSystem ι bufferSize interestedType) rfl h.reachable
  have hring := ring_of_reachable h8 hpos h64 hqueue
  have hdelivered := delivered_of_reachable h8 hpos h64 hqueue
  refine ⟨⟨h.reachable.step a hst', h.fitting.step hsends h64 hring he, ?_⟩, ?_⟩
  · exact ahead_clientStep h8 hpos hring hdelivered h.ahead hreceives hgoes he
  · exact rank_clientStep h8 hpos hring hdelivered h.fitting hsends hreceives h.ahead hgoes he

end Step

/-! ### Where no program can go on -/

/-- All programs have come to their end. -/
structure Done (interestedType : MessageType) (prog : ι → List Value) (c : Clients ι) : Prop where
  /-- Every producer has sent its program. -/
  sent : ∀ i, c.queue.sentBy i = (prog i).map Value.message
  /-- What is printed are all values that pass the filter, in the order in which they were committed, up
  to the first stop. -/
  printed : ∃ values : List Value, c.queue.committed.map Reservation.message = values.map Value.message ∧
    c.output = upToStop (values.filter fun v => wanted interestedType v.message.type)
  exited : (∃ i, .stop ∈ prog i) → c.receiver = .exited

theorem upToStop_eq_self {vs : List Value} (h : .stop ∉ vs) : upToStop vs = vs := by
  induction vs with
  | nil => rfl
  | cons v vs ih =>
      rw [List.mem_cons, not_or] at h
      rw [upToStop, if_neg (Ne.symm h.1), ih h.2]

section Settled

variable {prog : ι → List Value} {c : Clients ι}
  (hs : (finishingClients ι bufferSize interestedType prog).Settled ClientAction.slow c)

include hs

omit [Fintype ι] in
/-- Where the programs cannot go on, no step is enabled. -/
theorem clientStep_of_settled {a : ClientAction ι} (hslow : a.slow = false) (hgoes : a.goesOn c = true) :
    clientStep (system ι bufferSize interestedType) c a = none := by
  by_contra hne
  obtain ⟨c', hc'⟩ := Option.ne_none_iff_exists'.1 hne
  have hstep : (finishingClients ι bufferSize interestedType prog).step c a = some c' :=
    Automaton.restrict_step_eq_some.2 ⟨hgoes, hc'⟩
  rw [hs a hslow] at hstep
  cases hstep

omit [Fintype ι] in
/-- No producer can go on inside of `TrySend`. -/
theorem producers_settled :
    (finishing ι bufferSize).Settled ProducersAction.slow c.queue.toProducers := by
  intro b hslow
  cases b with
  | storeReadPos value => cases hslow
  | send b =>
      by_contra hne
      obtain ⟨p, hp⟩ := Option.ne_none_iff_exists'.1 hne
      obtain ⟨hgoes, hp⟩ := Automaton.restrict_step_eq_some.1 hp
      obtain ⟨-, hp⟩ := Automaton.restrict_step_eq_some.1 hp
      replace hp : sendStep bufferSize c.queue.toProducers b = some p := hp
      have hinside : (Action.send b).inside c.queue = true := by
        cases b with
        | trySend i m => cases hgoes
        | _ => rfl
      have hnone := clientStep_of_settled hs (a := .inside (.send b)) hslow hgoes
      simp [clientStep, hinside, system, MpscQueue.step, hp] at hnone

/-- Every producer has come to the end of its program. -/
theorem todo_of_settled (hr : Ranges bufferSize c.queue.toProducers) (hf : Fitting bufferSize c)
    (hsends : Sends bufferSize prog c) (i : ι) : c.todo i = [] := by
  obtain ⟨result, hidle⟩ := (finished_of_settled hr (producers_settled hs)).idle i
  cases hphase : c.sender i with
  | ready =>
      cases htodo : c.todo i with
      | nil => rfl
      | cons v vs =>
          have hnone := clientStep_of_settled hs (a := .trySend i) rfl rfl
          simp [clientStep, hphase, htodo, system, MpscQueue.step, sendStep, hidle] at hnone
  | calling =>
      exfalso
      have hnone := clientStep_of_settled hs (a := .sendReturned i) rfl rfl
      cases result with
      | none => exact (hsends i).called hphase hidle
      | some result =>
          cases result with
          | error e => simp [clientStep, hphase, hidle] at hnone
          | ok b => cases b <;> simp [clientStep, hphase, hidle] at hnone
  | exited => exact absurd hphase (hsends i).running
  | threw =>
      obtain ⟨e, he⟩ := (hsends i).threw hphase
      exact absurd he (hf.notLarge i e)

omit [Fintype ι] in
/-- The consumer has exited, or has read all that has been committed. -/
theorem receiver_of_settled (hreceives : Receives c) :
    c.receiver = .exited ∨
      c.receiver = .ready ∧ c.queue.shared.readPos = c.queue.shared.commitPos := by
  cases hphase : c.receiver with
  | ready =>
      refine Or.inr ⟨rfl, ?_⟩
      by_contra hne
      have hnone := clientStep_of_settled hs (a := .tryReceive) rfl (by simp [ClientAction.goesOn, hne])
      simp [clientStep, hphase, system, MpscQueue.step] at hnone
  | calling =>
      exfalso
      cases hp : c.queue.recv with
      | idle result =>
          have hnone := clientStep_of_settled hs (a := .receiveReturned) rfl rfl
          cases result with
          | none => exact hreceives.called hphase hp
          | some result => cases result <;> simp [clientStep, hphase, hp] at hnone
      | _ =>
          have hnone := clientStep_of_settled hs (a := .inside .receive) rfl rfl
          simp [clientStep, Action.inside, hp, system, MpscQueue.step] at hnone
  | exited => exact Or.inl rfl
  | threw => exact absurd hphase hreceives.noThrow

end Settled

section Complete

variable {prog : ι → List Value} {c : Clients ι} (h8 : bufferSize % 8 = 0) (hpos : 0 < bufferSize)
  (h64 : bufferSize < 2 ^ 64)

include h8 hpos h64

/-- **Programs that cannot go on have done everything.** -/
theorem done_of_settled (h : Completing bufferSize interestedType prog c)
    (hs : (finishingClients ι bufferSize interestedType prog).Settled ClientAction.slow c) :
    Done interestedType prog c := by
  obtain ⟨hsends, hreceives⟩ := invariants_of_clients h8 hpos h64 h.reachable
  have hqueue := queue_reachable (Q := sendableSystem ι bufferSize interestedType) rfl h.reachable
  have hring := ring_of_reachable h8 hpos h64 hqueue
  have hd := delivered_of_reachable h8 hpos h64 hqueue
  have hdelivery := delivery_of_invariants hsends hreceives hd
  have hsent : ∀ i, c.queue.sentBy i = (prog i).map Value.message := fun i =>
    hdelivery.finished i (todo_of_settled hs hring.ranges h.fitting hsends i)
  obtain ⟨values, hvalues, hpre, hexited⟩ := hdelivery.printed
  rcases receiver_of_settled hs hreceives with hreceiver | ⟨hreceiver, hread⟩
  · exact ⟨hsent, ⟨values, hvalues, hexited hreceiver⟩, fun _ => hreceiver⟩
  · -- the consumer has received everything, and no stop
    have hnot : .stop ∉ c.output := hreceives.running (by simp [hreceiver])
    have hall : c.output = values.filter fun v => wanted interestedType v.message.type := by
      have hobtained := hreceives.obtained
      rw [hreceiver, if_neg (by simp), List.append_nil, hd.drained hring hread, deliverable, hvalues,
        List.filter_map] at hobtained
      exact List.map_injective_iff.2 Value.message_injective hobtained
    refine ⟨hsent, ⟨values, hvalues, ?_⟩, ?_⟩
    · rw [upToStop_eq_self (hall ▸ hnot), hall]
    · rintro ⟨i, hi⟩
      have hmem : Value.stop.message ∈ c.queue.sentBy i := by
        rw [hsent i]
        exact List.mem_map_of_mem hi
      obtain ⟨r, hr, heq⟩ := List.mem_map.1 hmem
      have hcommitted : Value.stop.message ∈ c.queue.committed.map Reservation.message :=
        heq ▸ List.mem_map_of_mem (List.mem_of_mem_filter hr)
      rw [hvalues] at hcommitted
      have hstop := (List.mem_map_of_injective Value.message_injective).1 hcommitted
      refine absurd ?_ hnot
      rw [hall]
      exact List.mem_filter.2 ⟨hstop, by simp [wanted, Value.message]⟩

/-- **The programs complete.**  Where all values fit into the ring together, a run of `n` producers and
the consumer has at most `3 n + 23` steps for each value, and three more for each compare-exchange that
fails spuriously, idle polls aside.  Where no program can go on, every producer has sent its program, and
the consumer has printed all values that pass its filter, up to the first stop. -/
theorem programs_complete (hsmall : ∀ i, ∀ v ∈ prog i, v.message.Small)
    (hfit : ∑ i, programSize (prog i) ≤ bufferSize) :
    (finishingClients ι bufferSize interestedType prog).CompletesWithin ClientAction.slow 3
      ((3 * Fintype.card ι + 23) * ∑ i, (prog i).length) (Done interestedType prog)
      (Clients.initial prog) := by
  refine Automaton.CompletesWithin.of_rank (I := Completing bufferSize interestedType prog)
    (Clients.rank (∑ i, (prog i).length)) ?_ ?_ ?_ (rank_initial prog).le
  · exact fun c a c' h hst => h.step h8 hpos h64 hsmall hst
  · exact fun c h hs => done_of_settled h8 hpos h64 h hs
  · exact ⟨Automaton.Reachable.init rfl, fitting_initial hfit, by simp [Clients.initial]⟩

end Complete

/-- The demo, with a consumer of texts: some run leads to its end. -/
theorem programs_complete_demo :
    ∃ as c, (finishingClients (Fin 3) (65536 - headerSize) .text demo).run (Clients.initial demo) as =
        some c ∧ Done .text demo c ∧ c.receiver = .exited := by
  have hcomplete : (finishingClients (Fin 3) (65536 - headerSize) .text demo).CompletesWithin _ _ _ _ _ :=
    programs_complete (by decide) (by decide) (by decide) demo_small demo_fits
  obtain ⟨as, c, hrun, -, hdone⟩ := hcomplete.exists_run
  exact ⟨as, c, hrun, hdone, hdone.exited ⟨2, by decide⟩⟩

end MpscQueue
