/-
**The calls of the shared-memory queue complete.**

A producer that retries has been overtaken by one that has won a range, and a producer that waits for
its turn to publish waits for the owner of an earlier range.  So the calls of `TrySend` that have started
all return: each step brings the producers closer to the end, apart from the compare-exchanges that fail
spuriously and the stores of the environment.  At the end every range won has been published.

The consumer never waits.  Where the positions are multiples of 8 it passes through its loop twice at
most, the second time only behind a padding record, so that a `TryReceive` returns after a fixed number
of its own steps.

The iterations of `PublishReservedRange` that find another `commitPos` change nothing, and are left out.

Main definitions:

* `MpscQueue.Producers.rank` — how far the producers are from the end of their calls;
* `MpscQueue.finishing` — the producers in an arbitrary environment, where none calls `TrySend` anew;
* `MpscQueue.Finished` — no call has been left halfway;
* `MpscQueue.State.remaining` — the number of steps that the consumer has still to make;
* `MpscQueue.receiving` — producers and consumer, where the consumer does not call `TryReceive` anew.

Main results:

* `MpscQueue.rank_step` — every step lowers the rank of the producers;
* `MpscQueue.sends_complete` — **the calls of `TrySend` complete**;
* `MpscQueue.receive_wait_free` — **a `TryReceive` returns after nine steps of the consumer at most**,
  whatever the producers do.
-/

import CppMultithreaded.Completion
import CppMultithreaded.QueueSingle
import CppMultithreaded.ThreadWeight
import Mathlib.Algebra.Module.Defs
import Mathlib.Tactic.Ring

set_option relaxedAutoImplicit false
set_option autoImplicit false

namespace MpscQueue

variable {ι : Type*} {bufferSize : ℕ} {interestedType : MessageType}

/-! ### The rank of the producers -/

/-- How far a producer is from the end of its call.  While it tries to win a range it is at least `c`
away; a compare-exchange that is bound to fail takes it back to the top of the loop. -/
def SendPc.distance (c reservePos : ℕ) : SendPc ι → ℕ
  | .idle _ => 0
  | .loadReadPos _ => c + 3
  | .loadReservePos _ _ => c + 2
  | .reserving _ _ reservePos' => if reservePos' = reservePos then c + 1 else c + 4
  | .writing _ todo => todo.length + 1

/-- Where `reservePos` changes, a producer gets further from the end by three steps at most. -/
theorem SendPc.distance_le_add_three (c reservePos reservePos' : ℕ) (p : SendPc ι) :
    p.distance c reservePos' ≤ p.distance c reservePos + 3 := by
  cases p with
  | reserving m readPos q =>
      simp only [SendPc.distance]
      split_ifs <;> omega
  | _ => exact Nat.le_add_right _ 3

variable [Fintype ι]

/-- The rank of a state of the producers. -/
def Producers.rank (s : Producers ι) : ℕ :=
  ∑ i, (s.pc i).distance (3 * Fintype.card ι + 6) s.shared.reservePos

theorem Producers.rank_le {s : Producers ι} (hw : Written bufferSize s) :
    s.rank ≤ 3 * Fintype.card ι ^ 2 + 10 * Fintype.card ι := by
  have hle : s.rank ≤ Fintype.card ι * (3 * Fintype.card ι + 10) := by
    have hsum := Finset.sum_le_card_nsmul Finset.univ
      (fun i => (s.pc i).distance (3 * Fintype.card ι + 6) s.shared.reservePos)
      (3 * Fintype.card ι + 10) ?_
    · simpa [Producers.rank] using hsum
    · intro i _
      cases hp : s.pc i with
      | reserving m readPos q =>
          simp only [SendPc.distance]
          split_ifs <;> omega
      | writing r todo =>
          obtain ⟨done, hdone, -⟩ := hw.writing i r todo hp
          have hlength := r.length_writes_le bufferSize
          rw [← hdone, List.length_append] at hlength
          simp only [SendPc.distance]
          omega
      | _ => simp only [SendPc.distance]; omega
  calc s.rank ≤ Fintype.card ι * (3 * Fintype.card ι + 10) := hle
    _ = 3 * Fintype.card ι ^ 2 + 10 * Fintype.card ι := by ring

variable [DecidableEq ι]

omit [Fintype ι] in
theorem Producers.goto_pc (s : Producers ι) (i : ι) (p : SendPc ι) :
    (s.goto i p).pc = Function.update s.pc i p := rfl

section Moves

variable {s s' : Producers ι} {i : ι} {p : SendPc ι}

/-- One producer moves, and `reservePos` stays. -/
theorem rank_move (hpc : s'.pc = Function.update s.pc i p)
    (hreserve : s'.shared.reservePos = s.shared.reservePos) :
    s'.rank + (s.pc i).distance (3 * Fintype.card ι + 6) s.shared.reservePos =
      s.rank + p.distance (3 * Fintype.card ι + 6) s.shared.reservePos := by
  rw [Producers.rank, hreserve, hpc]
  exact ThreadWeight.sum_update (SendPc.distance _ s.shared.reservePos) s.pc i p

/-- One producer comes closer to the end. -/
theorem rank_lt_of_move (hpc : s'.pc = Function.update s.pc i p)
    (hreserve : s'.shared.reservePos = s.shared.reservePos)
    (hlt : p.distance (3 * Fintype.card ι + 6) s.shared.reservePos <
      (s.pc i).distance (3 * Fintype.card ι + 6) s.shared.reservePos) : s'.rank + 1 ≤ s.rank := by
  have hmove := rank_move hpc hreserve
  omega

/-- A compare-exchange on `reservePos` that fails, spuriously or because of another producer. -/
theorem rank_retry {m : Message} {readPos reservePos : ℕ}
    (hp : s.pc i = .reserving m readPos reservePos) {spurious : Bool}
    (hfail : spurious = true ∨ s.shared.reservePos ≠ reservePos) :
    (s.goto i (.loadReadPos m)).rank + 1 ≤ s.rank + if spurious then 3 else 0 := by
  have hmove := rank_move (s.goto_pc i (.loadReadPos m)) rfl
  rw [hp] at hmove
  simp only [SendPc.distance] at hmove
  by_cases heq : reservePos = s.shared.reservePos
  · rw [if_pos (hfail.resolve_right (not_not.2 heq.symm))]
    rw [if_pos heq] at hmove
    omega
  · rw [if_neg heq] at hmove
    omega

/-- **A producer that wins a range comes closer to the end by more than the others are thrown back.** -/
theorem rank_win {m : Message} {readPos reservePos : ℕ} (hp : s.pc i = .reserving m readPos reservePos)
    (r : Reservation ι) : (s.win bufferSize i r).rank + 1 ≤ s.rank := by
  have hmove := ThreadWeight.sum_update (SendPc.distance (3 * Fintype.card ι + 6) r.myEnd) s.pc i
    (.writing r (r.writes bufferSize))
  have hothers : ∑ u, (s.pc u).distance (3 * Fintype.card ι + 6) r.myEnd ≤
      s.rank + 3 * Fintype.card ι := by
    have hle : ∑ u, (s.pc u).distance (3 * Fintype.card ι + 6) r.myEnd ≤
        ∑ u, ((s.pc u).distance (3 * Fintype.card ι + 6) s.shared.reservePos + 3) :=
      Finset.sum_le_sum fun u _ => SendPc.distance_le_add_three _ _ _ (s.pc u)
    rw [Finset.sum_add_distrib, Finset.sum_const, Finset.card_univ, smul_eq_mul] at hle
    rw [Producers.rank]
    omega
  have hown : 3 * Fintype.card ι + 7 ≤ (s.pc i).distance (3 * Fintype.card ι + 6) r.myEnd := by
    rw [hp]
    simp only [SendPc.distance]
    split_ifs <;> omega
  have hwrites := r.length_writes_le bufferSize
  have hnew : (s.win bufferSize i r).rank =
      ∑ u, (Function.update s.pc i (.writing r (r.writes bufferSize)) u).distance
        (3 * Fintype.card ι + 6) r.myEnd := rfl
  rw [show (SendPc.writing r (r.writes bufferSize)).distance (3 * Fintype.card ι + 6) r.myEnd =
    (r.writes bufferSize).length + 1 from rfl] at hmove
  omega

end Moves

/-! ### No producer calls `TrySend` anew -/

/-- The step is no call of `TrySend`, and no iteration of `PublishReservedRange` that has to wait. -/
def ProducersAction.goesOn (s : Producers ι) : ProducersAction ι → Bool
  | .send (.trySend _ _) => false
  | .send (.compareExchangeCommit i _) =>
      match s.pc i with
      | .writing r [] => s.shared.commitPos == r.myBegin
      | _ => false
  | _ => true

/-- The step is a compare-exchange that fails spuriously, or a store of the environment. -/
def ProducersAction.slow : ProducersAction ι → Bool
  | .send (.compareExchangeReserve _ spurious) | .send (.compareExchangeCommit _ spurious) => spurious
  | .storeReadPos _ => true
  | _ => false

/-- The producers in an arbitrary environment, where none calls `TrySend` anew. -/
def finishing (ι : Type*) [DecidableEq ι] (bufferSize : ℕ) :
    Automaton (Producers ι) (ProducersAction ι) :=
  (smallProducers ι bufferSize).restrict fun s a => a.goesOn s = true

omit [Fintype ι] in
theorem small_of_finishing {s s' : Producers ι} {a : ProducersAction ι}
    (h : (finishing ι bufferSize).step s a = some s') :
    (smallProducers ι bufferSize).step s a = some s' := (Automaton.restrict_step_eq_some.1 h).2

/-- **Every step lowers the rank**, apart from the slow ones. -/
theorem rank_step {s s' : Producers ι} {a : ProducersAction ι}
    (h : (finishing ι bufferSize).step s a = some s') :
    s'.rank + 1 ≤ s.rank + if a.slow then 3 else 0 := by
  obtain ⟨hgoes, hs⟩ := Automaton.restrict_step_eq_some.1 h
  obtain ⟨-, hs⟩ := Automaton.restrict_step_eq_some.1 hs
  cases a with
  | storeReadPos value =>
      rw [← Option.some.inj hs]
      exact Nat.add_le_add_left (show 1 ≤ 3 by decide) s.rank
  | send a =>
      replace hs : sendStep bufferSize s a = some s' := hs
      cases a with
      | trySend i m => simp [ProducersAction.goesOn] at hgoes
      | loadReadPos i =>
          refine le_trans ?_ (Nat.le_add_right _ _)
          cases effect_of_sendStep hs with
          | loadReadPos _ m hp => exact rank_lt_of_move (i := i) rfl rfl (by simp [hp, SendPc.distance])
      | loadReservePos i =>
          refine le_trans ?_ (Nat.le_add_right _ _)
          cases effect_of_sendStep hs with
          | checkSpace _ m readPos hp =>
              rw [Producers.checkSpace]
              split_ifs
              · exact rank_lt_of_move (s.goto_pc i _) rfl (by simp [hp, SendPc.distance])
              · exact rank_lt_of_move (s.goto_pc i _) rfl (by simp [hp, SendPc.distance])
      | compareExchangeReserve i spurious =>
          cases hp : s.pc i with
          | reserving m readPos reservePos =>
              simp only [sendStep, hp] at hs
              split_ifs at hs with hfail
              · rw [← Option.some.inj hs]
                exact rank_retry hp hfail
              · rw [← Option.some.inj hs]
                exact (rank_win hp _).trans (Nat.le_add_right _ _)
          | _ => simp [sendStep, hp] at hs
      | write i =>
          refine le_trans ?_ (Nat.le_add_right _ _)
          cases effect_of_sendStep hs with
          | write _ r w todo hp => exact rank_lt_of_move (i := i) rfl rfl (by simp [hp, SendPc.distance])
      | compareExchangeCommit i spurious =>
          cases hp : s.pc i with
          | writing r todo =>
              cases todo with
              | nil =>
                  simp only [ProducersAction.goesOn, hp, beq_iff_eq] at hgoes
                  simp only [sendStep, hp] at hs
                  split_ifs at hs with hfail
                  · rw [← Option.some.inj hs,
                      show (ProducersAction.send (SendAction.compareExchangeCommit i spurious)).slow =
                        true from hfail.resolve_right (not_not.2 hgoes)]
                    exact Nat.add_le_add_left (show 1 ≤ 3 by decide) s.rank
                  · rw [← Option.some.inj hs]
                    refine le_trans ?_ (Nat.le_add_right _ _)
                    exact rank_lt_of_move (i := i) rfl rfl (by simp [hp, SendPc.distance])
              | cons w todo => simp [sendStep, hp] at hs
          | _ => simp [sendStep, hp] at hs

/-! ### Where no producer can go on -/

/-- No call has been left halfway: every range won has been published. -/
structure Finished (s : Producers ι) : Prop where
  idle : ∀ i, ∃ result, s.pc i = .idle result
  committed : s.committed = s.won
  commitPos : s.shared.commitPos = s.shared.reservePos

omit [Fintype ι] in
/-- A producer that has no step to make is outside of `TrySend`, or waits to publish its range. -/
theorem pc_of_settled {s : Producers ι} (hs : (finishing ι bufferSize).Settled ProducersAction.slow s)
    (i : ι) : (∃ result, s.pc i = .idle result) ∨
      ∃ r, s.pc i = .writing r [] ∧ s.shared.commitPos ≠ r.myBegin := by
  have hnone : ∀ a : SendAction ι, (ProducersAction.send a).slow = false →
      (ProducersAction.send a).goesOn s = true → a.Small → sendStep bufferSize s a = none := by
    intro a hslow hgoes hsmall
    by_contra hne
    obtain ⟨t, ht⟩ := Option.ne_none_iff_exists'.1 hne
    have hstep : (finishing ι bufferSize).step s (.send a) = some t :=
      Automaton.restrict_step_eq_some.2 ⟨hgoes, Automaton.restrict_step_eq_some.2
        ⟨by simpa [ProducersAction.send?] using hsmall, ht⟩⟩
    rw [hs _ hslow] at hstep
    cases hstep
  cases hp : s.pc i with
  | idle result => exact Or.inl ⟨result, rfl⟩
  | loadReadPos m =>
      have hstep := hnone (.loadReadPos i) rfl rfl (by simp [SendAction.Small, SendAction.message?])
      simp [sendStep, hp] at hstep
  | loadReservePos m readPos =>
      have hstep := hnone (.loadReservePos i) rfl rfl (by simp [SendAction.Small, SendAction.message?])
      simp [sendStep, hp] at hstep
  | reserving m readPos reservePos =>
      have hstep := hnone (.compareExchangeReserve i false) rfl rfl
        (by simp [SendAction.Small, SendAction.message?])
      simp only [sendStep, hp] at hstep
      split_ifs at hstep
  | writing r todo =>
      cases todo with
      | cons w todo =>
          have hstep := hnone (.write i) rfl rfl (by simp [SendAction.Small, SendAction.message?])
          simp [sendStep, hp] at hstep
      | nil =>
          refine Or.inr ⟨r, rfl, ?_⟩
          intro heq
          have hstep := hnone (.compareExchangeCommit i false) rfl
            (by simp [ProducersAction.goesOn, hp, heq]) (by simp [SendAction.Small, SendAction.message?])
          simp [sendStep, hp, heq] at hstep

omit [Fintype ι] in
/-- **Where no producer can go on, none is inside of a call**: the owner of the first range that has not
been published can publish it. -/
theorem finished_of_settled {s : Producers ι} (hr : Ranges bufferSize s)
    (hs : (finishing ι bufferSize).Settled ProducersAction.slow s) : Finished s := by
  obtain ⟨rest, hrest⟩ := hr.isPrefix
  have hwon := hr.won
  rw [← hrest] at hwon
  obtain ⟨c, hc, htail⟩ := Tiling.Tiles.append_iff.1 hwon
  obtain rfl := hr.committed.end_unique hc
  cases rest with
  | cons r rest =>
      exfalso
      have hmem : r ∈ s.won := by simp [← hrest]
      obtain ⟨hbegin, hlt, -⟩ := htail
      rcases hr.pending r hmem with hcommitted | hrange
      · have hle := (hr.mem_committed_iff hmem).1 hcommitted
        omega
      · rcases pc_of_settled hs r.owner with ⟨result, hp⟩ | ⟨r', hp, hne⟩
        · simp [hp, SendPc.range?] at hrange
        · rw [hp] at hrange
          obtain rfl := Option.some.inj hrange
          exact hne hbegin.symm
  | nil =>
      rw [List.append_nil] at hrest
      have heq : s.shared.commitPos = s.shared.reservePos := htail
      refine ⟨?_, hrest, heq⟩
      intro i
      rcases pc_of_settled hs i with hidle | ⟨r, hp, -⟩
      · exact hidle
      · obtain ⟨hmem, -, hle⟩ := hr.writing i r (by rw [hp]; rfl)
        obtain ⟨-, hlt, hend⟩ := hr.won.bounds hmem
        omega

omit [Fintype ι] in
/-- A range that has been won stays. -/
theorem won_sendStep {s s' : Producers ι} {a : SendAction ι} (he : SendEffect bufferSize s a s') :
    s.won <+: s'.won := by
  cases he with
  | checkSpace i m readPos hp =>
      rw [Producers.checkSpace]
      split_ifs <;> exact List.prefix_rfl
  | win i m readPos hp => exact List.prefix_append _ _
  | _ => exact List.prefix_rfl

/-- **The calls of `TrySend` complete.**  From any state that the producers can reach, whatever is stored
to `readPos`, and where no producer calls `TrySend` anew, a run has at most `3 n² + 10 n` steps for `n`
producers, and three more for each compare-exchange that fails spuriously and each store of the
environment.  Where no producer can go on all calls have returned, and every range that had been won is
published. -/
theorem sends_complete {s : Producers ι} (h : (smallProducers ι bufferSize).Reachable s) :
    (finishing ι bufferSize).CompletesWithin ProducersAction.slow 3
      (3 * Fintype.card ι ^ 2 + 10 * Fintype.card ι)
      (fun t => Finished t ∧ s.won <+: t.committed) s := by
  refine Automaton.CompletesWithin.of_rank
    (I := fun t => (smallProducers ι bufferSize).Reachable t ∧ s.won <+: t.won) Producers.rank
    ?_ ?_ ⟨h, List.prefix_rfl⟩ (Producers.rank_le (written_of_reachable h))
  · intro t a t' ⟨hr, hwon⟩ hst
    have hsmall := small_of_finishing hst
    refine ⟨⟨hr.step a hsmall, hwon.trans ?_⟩, rank_step hst⟩
    obtain ⟨-, hs⟩ := Automaton.restrict_step_eq_some.1 hsmall
    cases a with
    | send a => exact won_sendStep (effect_of_sendStep hs)
    | storeReadPos value =>
        rw [← Option.some.inj hs]
        exact List.prefix_rfl
  · intro t ⟨hr, hwon⟩ hsettled
    have hfinished := finished_of_settled (ranges_of_reachable hr) hsettled
    exact ⟨hfinished, hfinished.committed ▸ hwon⟩

/-- The steps of a `TrySend` up to the first write, for a message without payload. -/
def winEmpty (i : ι) : List (ProducersAction ι) :=
  [.send (.trySend i empty), .send (.loadReadPos i), .send (.loadReservePos i),
    .send (.compareExchangeReserve i false)]

/-- Producer `1` has written its range and has to wait for producer `0`, which has won an earlier one. -/
theorem sends_complete_two_producers :
    ∃ s : Producers (Fin 2), (smallProducers (Fin 2) 24).run Producers.initial
        (winEmpty 0 ++ winEmpty 1 ++ [.send (.write 1)]) = some s ∧
      s.won.map Reservation.owner = [0, 1] ∧ s.committed = [] ∧
      (finishing (Fin 2) 24).CompletesWithin ProducersAction.slow 3
        (3 * Fintype.card (Fin 2) ^ 2 + 10 * Fintype.card (Fin 2))
        (fun t => Finished t ∧ s.won <+: t.committed) s := by
  obtain ⟨s, hs⟩ : ∃ s, (smallProducers (Fin 2) 24).run Producers.initial
      (winEmpty 0 ++ winEmpty 1 ++ [.send (.write 1)]) = some s := ⟨_, rfl⟩
  refine ⟨s, hs, ?_, ?_, sends_complete (Automaton.Reachable.of_run rfl hs)⟩
  · obtain rfl := Option.some_inj.1 hs
    rfl
  · obtain rfl := Option.some_inj.1 hs
    rfl

/-! ### The consumer -/

omit [Fintype ι] in
/-- A step of the producers takes back no range that is committed, and leaves `readPos` alone. -/
theorem committed_sendStep {s s' : Producers ι} {a : SendAction ι} (he : SendEffect bufferSize s a s') :
    s.committed <+: s'.committed ∧ s'.shared.readPos = s.shared.readPos := by
  cases he with
  | checkSpace i m readPos hp =>
      rw [Producers.checkSpace]
      split_ifs <;> exact ⟨List.prefix_rfl, rfl⟩
  | commit i r hp heq => exact ⟨List.prefix_append _ _, rfl⟩
  | _ => exact ⟨List.prefix_rfl, rfl⟩

/-- The consumer is past the padding of the next range. -/
def State.past (s : State ι) : Bool :=
  s.committed[s.released]?.any fun r => s.shared.readPos == r.messagePos

/-- The number of steps that the consumer has still to make, where it is past the padding of the next
range, and where it may be in front of it. -/
def RecvPc.remaining (past : Bool) : RecvPc → ℕ
  | .idle _ => 0
  | .storeReadPos _ (some _) => 1
  | .readPayload _ _ _ _ => 2
  | .readHeader _ _ => if past then 3 else 7
  | .loadCommitPos _ => if past then 4 else 8
  | .loadReadPos => if past then 5 else 9
  | .storeReadPos _ none => 6

/-- The number of steps that the consumer has still to make. -/
def State.remaining (s : State ι) : ℕ := s.recv.remaining s.past

theorem RecvPc.remaining_le (past : Bool) (p : RecvPc) : p.remaining past ≤ 9 := by
  cases p with
  | storeReadPos value result => cases result <;> simp [RecvPc.remaining]
  | _ => cases past <;> simp [RecvPc.remaining]

theorem RecvPc.remaining_le_of_false (past : Bool) (p : RecvPc) :
    p.remaining past ≤ p.remaining false := by
  cases p with
  | storeReadPos value result => cases result <;> exact le_rfl
  | _ => cases past <;> simp [RecvPc.remaining]

section Consumer

variable {s : State ι}

omit [Fintype ι] [DecidableEq ι] in
theorem State.past_iff : s.past = true ↔ ∃ r ∈ s.committed[s.released]?, s.shared.readPos = r.messagePos := by
  simp [State.past, Option.any_eq_true]

omit [Fintype ι] in
/-- A step of the producers does not take the consumer further from the end of its call. -/
theorem remaining_send {p : Producers ι} {a : SendAction ι}
    (he : SendEffect bufferSize s.toProducers a p) :
    ({ s with toProducers := p } : State ι).remaining ≤ s.remaining := by
  have hpast : s.past = true → ({ s with toProducers := p } : State ι).past = true := by
    rw [State.past_iff, State.past_iff]
    rintro ⟨r, hr, hread⟩
    obtain ⟨hpre, heq⟩ := committed_sendStep he
    obtain ⟨rest, hrest⟩ := hpre
    obtain ⟨hn, -⟩ := List.getElem?_eq_some_iff.1 (Option.mem_def.1 hr)
    refine ⟨r, ?_, heq.trans hread⟩
    show r ∈ p.committed[s.released]?
    rw [← hrest, List.getElem?_append_left hn]
    exact hr
  show s.recv.remaining ({ s with toProducers := p } : State ι).past ≤ s.recv.remaining s.past
  cases hp : s.past with
  | true => rw [hpast hp]
  | false => exact RecvPc.remaining_le_of_false _ _

omit [Fintype ι] [DecidableEq ι] in
/-- The consumer moves, and no position changes. -/
theorem remaining_moveRecv {recv : RecvPc} {reads : List (ℕ × ℕ)}
    (h : recv.remaining s.past + 1 ≤ s.recv.remaining s.past) :
    ({ s with recv := recv, reads := reads } : State ι).remaining + 1 ≤ s.remaining := h

omit [Fintype ι] [DecidableEq ι] in
/-- The consumer has copied a header: behind it is either a message, and the call comes to its end, or
the padding in front of one. -/
theorem remaining_afterHeader (h8 : bufferSize % 8 = 0) (hring : Ring bufferSize s)
    (hd : Delivered bufferSize interestedType s) (hlt : s.shared.readPos < s.shared.commitPos)
    (commitPos : ℕ) :
    (afterHeader interestedType
      (.ofBytes (ByteString.read s.shared.buffer (s.shared.readPos % bufferSize) 8))
      s.shared.readPos commitPos).remaining s.past + 1 ≤ if s.past then 3 else 7 := by
  obtain ⟨r, hr, hcase⟩ := hd.header h8 hring hlt
  have hwon := hring.ranges.isPrefix.subset (Ring.mem_committed hr)
  have haligned := aligned_of_ranges h8 hring.ranges r hwon
  rcases hcase with ⟨hread, hheader⟩ | ⟨hread, hroom, hheader⟩
  · have hpast : s.past = true := State.past_iff.2 ⟨r, hr, hread⟩
    rw [hheader, hpast, afterHeader_message interestedType (hring.ranges.fits r hwon).small
      (hring.sending.won r hwon), if_pos rfl]
    split_ifs <;> simp [RecvPc.remaining]
  · have hpast : s.past = false := by
      by_contra hpast
      rw [Bool.not_eq_false, State.past_iff] at hpast
      obtain ⟨r', hr', hread'⟩ := hpast
      obtain rfl := Option.mem_unique hr hr'
      rw [hread, Reservation.messagePos] at hread'
      omega
    have hmod := haligned.padding_mod
    have hpad := haligned.padding_lt
    rw [hheader, hpast, afterHeader_padding interestedType hroom (by omega) hmod,
      if_neg Bool.false_ne_true]
    split_ifs <;> simp [RecvPc.remaining]

omit [Fintype ι] [DecidableEq ι] in
/-- **Every step of the consumer brings it closer to the end of its call.** -/
theorem remaining_receive (h8 : bufferSize % 8 = 0) (hpos : 0 < bufferSize) (hring : Ring bufferSize s)
    (hd : Delivered bufferSize interestedType s) (hidle : ∀ result, s.recv ≠ .idle result) :
    (recvStep bufferSize interestedType s).remaining + 1 ≤ s.remaining := by
  have hwindow := hring.window.recv
  have hknows := hd.recv
  have htail := tailSpace_ge h8 hpos hring.window.readPos_mod
  cases hp : s.recv with
  | idle result => exact absurd hp (hidle result)
  | loadReadPos =>
      rw [recvStep_loadReadPos hp]
      refine remaining_moveRecv ?_
      rw [hp]
      cases s.past <;> simp [RecvPc.remaining]
  | loadCommitPos readPos =>
      rw [hp] at hwindow
      have hread : readPos = s.shared.readPos := hwindow
      simp only [recvStep, hp, State.peek]
      split_ifs with hempty hshort
      · refine remaining_moveRecv ?_
        rw [hp]
        cases s.past <;> simp [RecvPc.remaining]
      · rw [hread] at hshort
        omega
      · refine remaining_moveRecv ?_
        rw [hp]
        cases s.past <;> simp [RecvPc.remaining]
  | readHeader readPos commitPos =>
      rw [hp] at hwindow
      obtain ⟨rfl, hlt, hcommit⟩ := hwindow
      rw [recvStep, hp]
      refine remaining_moveRecv ?_
      rw [hp]
      exact remaining_afterHeader h8 hring hd (hlt.trans_le hcommit) commitPos
  | readPayload readPos nextReadPos type payloadSize =>
      rw [recvStep, hp]
      simp [State.remaining, State.readBuffer, RecvPc.remaining, hp]
  | storeReadPos value result =>
      rw [hp] at hknows
      rw [recvStep, hp]
      cases result with
      | none =>
          obtain ⟨r, hr, rfl⟩ := hknows
          have hpast : (s.release r.messagePos none).past = true := State.past_iff.2 ⟨r, hr, rfl⟩
          rw [State.remaining, hpast, State.remaining, hp]
          rfl
      | some result =>
          rw [State.remaining, State.remaining, hp]
          rfl

end Consumer

/-- The step is no call of `TryReceive`. -/
def Action.goesOn (s : State ι) : Action ι → Bool
  | .receive =>
      match s.recv with
      | .idle _ => false
      | _ => true
  | .send _ => true

/-- The step is one of the producers. -/
def Action.sends : Action ι → Bool
  | .send _ => true
  | .receive => false

/-- Producers and consumer, where the consumer does not call `TryReceive` anew. -/
def receiving (ι : Type*) [DecidableEq ι] (bufferSize : ℕ) (interestedType : MessageType) :
    Automaton (State ι) (Action ι) :=
  (sendableSystem ι bufferSize interestedType).restrict fun s a => a.goesOn s = true

omit [Fintype ι] in
/-- **A `TryReceive` returns after nine steps of the consumer at most**, whatever the producers do: from
any state that `sendableSystem` reaches on a ring whose size is a multiple of 8, where the consumer does
not call `TryReceive` anew, a run has at most nine steps besides those of the producers, and where the
consumer cannot go on it is outside of `TryReceive`. -/
theorem receive_wait_free (h8 : bufferSize % 8 = 0) (hpos : 0 < bufferSize) (h64 : bufferSize < 2 ^ 64)
    {s : State ι} (h : (sendableSystem ι bufferSize interestedType).Reachable s) :
    (receiving ι bufferSize interestedType).CompletesWithin Action.sends 1 9
      (fun t => ∃ result, t.recv = .idle result) s := by
  refine Automaton.CompletesWithin.of_rank
    (I := (sendableSystem ι bufferSize interestedType).Reachable) State.remaining ?_ ?_ h
    (RecvPc.remaining_le _ _)
  · intro t a t' hr hst
    obtain ⟨hgoes, hs⟩ := Automaton.restrict_step_eq_some.1 hst
    refine ⟨hr.step a hs, ?_⟩
    obtain ⟨-, hs⟩ := Automaton.restrict_step_eq_some.1 hs
    obtain ⟨-, hs⟩ := Automaton.restrict_step_eq_some.1 hs
    obtain ⟨-, hs⟩ := Automaton.restrict_step_eq_some.1 hs
    cases a with
    | send a =>
        obtain ⟨p, hp, rfl⟩ := Option.map_eq_some_iff.1 hs
        exact Nat.succ_le_succ (remaining_send (effect_of_sendStep hp))
    | receive =>
        rw [← Option.some.inj hs]
        refine remaining_receive h8 hpos (ring_of_reachable h8 hpos h64 hr)
          (delivered_of_reachable h8 hpos h64 hr) ?_
        intro result hidle
        simp [Action.goesOn, hidle] at hgoes
  · intro t hr hsettled
    by_contra hnot
    have hgoes : Action.receive.goesOn t = true := by
      cases hp : t.recv with
      | idle result => exact absurd ⟨result, hp⟩ hnot
      | _ => simp [Action.goesOn, hp]
    have hstep : (receiving ι bufferSize interestedType).step t .receive =
        some (recvStep bufferSize interestedType t) := by
      refine Automaton.restrict_step_eq_some.2 ⟨hgoes, Automaton.restrict_step_eq_some.2 ⟨?_,
        Automaton.restrict_step_eq_some.2 ⟨?_, Automaton.restrict_step_eq_some.2 ⟨?_, rfl⟩⟩⟩⟩
      · simp [Action.send?]
      · simp [Action.send?]
      · simp [Action.send?]
    rw [hsettled .receive rfl] at hstep
    cases hstep

/-- A consumer in front of a padding record. -/
theorem receive_wait_free_padding :
    ∃ s : State Unit, (sendableSystem Unit 24 .text).run State.initial (twoTexts.take 26) = some s ∧
      s.recv = .readHeader 16 40 ∧ s.remaining = 7 ∧
      (receiving Unit 24 .text).CompletesWithin Action.sends 1 9
        (fun t => ∃ result, t.recv = .idle result) s := by
  obtain ⟨s, hs⟩ : ∃ s, (sendableSystem Unit 24 .text).run State.initial (twoTexts.take 26) = some s :=
    ⟨_, rfl⟩
  refine ⟨s, hs, ?_, ?_, receive_wait_free (by decide) (by decide) (by decide)
    (Automaton.Reachable.of_run rfl hs)⟩
  · obtain rfl := Option.some_inj.1 hs
    rfl
  · obtain rfl := Option.some_inj.1 hs
    rfl

end MpscQueue
