/-
**Sending into an empty queue.**

A producer that finds the queue empty has the whole ring at its disposal, but not in one piece: a record
does not cross the end of the ring, and the tail that it skips counts as used.  A record that fits the
ring can be refused for as long as the write offset stays where it is, and in an empty queue nothing
moves it.

Main definitions:

* `MpscQueue.HasRoom` — the record fits behind the write offset, or in front of it;
* `MpscQueue.trySendAlone` — a call of `TrySend` during which nobody else takes a step;
* `MpscQueue.ReturnsAlone` — whatever such a call does, it returns the given result.

Main results:

* `MpscQueue.returnsAlone` — a call in an empty queue returns whether there is room;
* `MpscQueue.returnsAlone_true_iff` — **it returns `true` exactly when there is room**;
* `MpscQueue.empty_queue_refuses` — an empty queue that refuses a record of the size of the ring.
-/

import CppMultithreaded.QueueBoundary

set_option relaxedAutoImplicit false
set_option autoImplicit false

namespace MpscQueue

variable {ι : Type*} {bufferSize : ℕ}

/-! ### Room for a record -/

/-- A record of `size` bytes fits between the write offset and the end of the ring, or between the start
of the ring and the write offset. -/
def HasRoom (bufferSize offset size : ℕ) : Prop := offset + size ≤ bufferSize ∨ size ≤ offset

instance (bufferSize offset size : ℕ) : Decidable (HasRoom bufferSize offset size) :=
  inferInstanceAs (Decidable (_ ∨ _))

theorem messageSize_lt_two_pow (m : Message) : messageSize m < 2 ^ 32 := by
  have hlt := Nat.mod_lt (u32 (8 + u32 m.payload.length) + alignment - 1) (show 0 < 2 ^ 32 by omega)
  rw [messageSize, alignUp, alignment]
  exact (Nat.div_mul_le_self _ 8).trans_lt hlt

theorem freeSpace_self (h64 : bufferSize < 2 ^ 64) (p : ℕ) : freeSpace bufferSize p p = bufferSize := by
  rw [freeSpace_eq h64 le_rfl (Nat.le_add_right p bufferSize), Nat.sub_self, Nat.sub_zero]

/-- The bytes that a record needs fit an empty ring exactly when there is room for the record. -/
theorem required_le_iff (hpos : 0 < bufferSize) {size : ℕ} (hlt : size < 2 ^ 32)
    (hle : size ≤ bufferSize) (p : ℕ) :
    paddingSizeAt bufferSize p size + size ≤ bufferSize ↔ HasRoom bufferSize (p % bufferSize) size := by
  have hmod := Nat.mod_lt p hpos
  unfold HasRoom
  rcases paddingSizeAt_cases bufferSize p hlt with ⟨hpad, htail⟩ | ⟨hpad, htail⟩
  · rw [hpad]
    omega
  · rw [hpad]
    omega

/-! ### A call alone -/

variable [DecidableEq ι]

/-- A weak compare-exchange fails spuriously. -/
def SendAction.isSpurious : SendAction ι → Bool
  | .compareExchangeReserve _ b | .compareExchangeCommit _ b => b
  | _ => false

/-- The call `TrySend(m)` of producer `i` from the state `s₀`, during which nobody else takes a step. -/
def trySendAlone (bufferSize : ℕ) (s₀ : Producers ι) (i : ι) (m : Message) :
    Automaton (Producers ι) (SendAction ι) where
  init s := s = s₀.call bufferSize i m
  step s a := if a.producer = i ∧ a.message? = none then sendStep bufferSize s a else none

/-- The call returns `result`: no other outcome is reached, the call can always go on to return, and
apart from spurious failures it does so after a bounded number of steps.  A call that is refused leaves
the shared memory as it was. -/
structure ReturnsAlone (bufferSize : ℕ) (s₀ : Producers ι) (i : ι) (m : Message) (result : Bool) :
    Prop where
  outcome : ∀ s, (trySendAlone bufferSize s₀ i m).Reachable s → ∀ o, s.pc i = .idle o →
    o = some (.ok result)
  returns : ∀ s, (trySendAlone bufferSize s₀ i m).Reachable s →
    ∃ s', (trySendAlone bufferSize s₀ i m).Steps s s' ∧ s'.pc i = .idle (some (.ok result))
  bounded : ∀ as s, (trySendAlone bufferSize s₀ i m).run (s₀.call bufferSize i m) as = some s →
    as.length ≤ 9 + 3 * as.countP SendAction.isSpurious
  kept : result = false → ∀ s, (trySendAlone bufferSize s₀ i m).Reachable s → s.shared = s₀.shared

/-- A call has one result. -/
theorem ReturnsAlone.unique {s₀ : Producers ι} {i : ι} {m : Message} {b c : Bool}
    (hb : ReturnsAlone bufferSize s₀ i m b) (hc : ReturnsAlone bufferSize s₀ i m c) : b = c := by
  obtain ⟨s, hsteps, hidle⟩ := hb.returns _ (Automaton.Reachable.init rfl)
  have heq := hc.outcome s ((Automaton.Reachable.init rfl).steps hsteps) _ hidle
  exact Except.ok.inj (Option.some.inj heq)

omit [DecidableEq ι] in
/-- Where the call is, and what it still has to do: `q₀` is the shared memory at its start. -/
def SendPc.Solo (bufferSize : ℕ) (q₀ q : Shared) (m : Message) : SendPc ι → Prop
  | .idle o =>
      o = some (.ok (decide (HasRoom bufferSize (q₀.reservePos % bufferSize) (messageSize m)))) ∧
        (HasRoom bufferSize (q₀.reservePos % bufferSize) (messageSize m) ∨ q = q₀)
  | .loadReadPos m' => m' = m ∧ q = q₀
  | .loadReservePos m' readPos => m' = m ∧ readPos = q₀.readPos ∧ q = q₀
  | .reserving m' _ reservePos => m' = m ∧ reservePos = q₀.reservePos ∧ q = q₀ ∧
      HasRoom bufferSize (q₀.reservePos % bufferSize) (messageSize m)
  | .writing r todo => q.commitPos = r.myBegin ∧ todo.length ≤ 5 ∧
      HasRoom bufferSize (q₀.reservePos % bufferSize) (messageSize m)

omit [DecidableEq ι] in
/-- The number of steps that are left, when no compare-exchange fails. -/
def SendPc.remaining : SendPc ι → ℕ
  | .idle _ => 0
  | .loadReadPos _ => 9
  | .loadReservePos _ _ => 8
  | .reserving _ _ _ => 7
  | .writing _ todo => todo.length + 1

section Empty

variable {s₀ s s' : Producers ι} {i : ι} {m : Message} (hpos : 0 < bufferSize)
  (h64 : bufferSize < 2 ^ 64) (hread : s₀.shared.readPos = s₀.shared.reservePos)
  (hcommit : s₀.shared.commitPos = s₀.shared.reservePos) (hsize : messageSize m ≤ bufferSize)

include hpos h64 hread hcommit hsize

/-- **The steps of the call** bring it closer to its return, unless a compare-exchange fails. -/
theorem solo_step {a : SendAction ι} (h : (s.pc i).Solo bufferSize s₀.shared s.shared m)
    (hs : (trySendAlone bufferSize s₀ i m).step s a = some s') :
    (s'.pc i).Solo bufferSize s₀.shared s'.shared m ∧
      (s'.pc i).remaining + 1 ≤ (s.pc i).remaining + if a.isSpurious then 3 else 0 := by
  simp only [trySendAlone] at hs
  split_ifs at hs with ha
  obtain ⟨hi, hm⟩ := ha
  have hrequired := required_le_iff hpos (messageSize_lt_two_pow m) hsize s₀.shared.reservePos
  cases a with
  | trySend j m' => simp [SendAction.message?] at hm
  | loadReadPos j =>
      obtain rfl : j = i := hi
      cases hp : s.pc j with
      | loadReadPos m' =>
          rw [hp] at h
          obtain ⟨rfl, hq⟩ := h
          simp only [sendStep, hp, Option.some.injEq] at hs
          subst hs
          simp [Producers.goto, SendPc.Solo, SendPc.remaining, hq]
      | _ => simp [sendStep, hp] at hs
  | loadReservePos j =>
      obtain rfl : j = i := hi
      cases hp : s.pc j with
      | loadReservePos m' readPos =>
          rw [hp] at h
          obtain ⟨rfl, rfl, hq⟩ := h
          simp only [sendStep, hp, Option.some.injEq, Producers.checkSpace] at hs
          rw [hq, hread, freeSpace_self h64] at hs
          split_ifs at hs with hfull
          · have hroom := hrequired.not.1 (not_le.2 hfull)
            subst hs
            simp [Producers.goto, SendPc.Solo, SendPc.remaining, SendAction.isSpurious, hroom, hq]
          · have hroom := hrequired.1 (not_lt.1 hfull)
            subst hs
            simp [Producers.goto, SendPc.Solo, SendPc.remaining, hroom, hq]
      | _ => simp [sendStep, hp] at hs
  | compareExchangeReserve j b =>
      obtain rfl : j = i := hi
      cases hp : s.pc j with
      | reserving m' readPos reservePos =>
          rw [hp] at h
          obtain ⟨rfl, rfl, hq, hroom⟩ := h
          simp only [sendStep, hp] at hs
          split_ifs at hs with hfail
          · -- nobody else moves `reservePos`, so the failure is spurious
            have hb : b = true := hfail.resolve_right (by simp [hq])
            obtain rfl := Option.some.inj hs
            simp [Producers.goto, SendPc.Solo, SendPc.remaining, SendAction.isSpurious, hq, hb]
          · obtain rfl := Option.some.inj hs
            have hlen := Reservation.length_writes_le bufferSize
              (reservation bufferSize j (s.calls j) m' s₀.shared.reservePos)
            refine ⟨?_, ?_⟩
            · simpa [Producers.win, Producers.goto, SendPc.Solo, hroom, hq, hcommit, reservation]
                using hlen
            · simp only [Producers.win, Producers.goto, Function.update_self, SendPc.remaining]
              omega
      | _ => simp [sendStep, hp] at hs
  | write j =>
      obtain rfl : j = i := hi
      cases hp : s.pc j with
      | writing r todo =>
          cases todo with
          | nil => simp [sendStep, hp] at hs
          | cons w todo =>
              rw [hp] at h
              obtain ⟨hbegin, hlen, hroom⟩ := h
              simp only [sendStep, hp, Option.some.injEq] at hs
              subst hs
              rw [List.length_cons] at hlen
              simp [Producers.write, Producers.goto, SendPc.Solo, SendPc.remaining, hbegin, hroom]
              omega
      | _ => simp [sendStep, hp] at hs
  | compareExchangeCommit j b =>
      obtain rfl : j = i := hi
      cases hp : s.pc j with
      | writing r todo =>
          cases todo with
          | cons w todo => simp [sendStep, hp] at hs
          | nil =>
              rw [hp] at h
              obtain ⟨hbegin, hlen, hroom⟩ := h
              simp only [sendStep, hp] at hs
              split_ifs at hs with hfail
              · have hb : b = true := hfail.resolve_right (by simp [hbegin])
                obtain rfl := Option.some.inj hs
                simp [SendPc.Solo, SendPc.remaining, SendAction.isSpurious, hp, hbegin, hroom, hb]
              · obtain rfl := Option.some.inj hs
                simp [Producers.commit, Producers.goto, SendPc.Solo, SendPc.remaining, hroom]
      | _ => simp [sendStep, hp] at hs

omit hpos h64 hread hcommit hsize in
/-- As long as the call has not returned, it has a step that is not spurious. -/
theorem exists_solo_step (h : (s.pc i).Solo bufferSize s₀.shared s.shared m) :
    (∃ o, s.pc i = .idle o) ∨
      ∃ a, ((trySendAlone bufferSize s₀ i m).step s a).isSome ∧ a.isSpurious = false := by
  cases hp : s.pc i with
  | idle o => exact Or.inl ⟨o, rfl⟩
  | loadReadPos m' =>
      refine Or.inr ⟨.loadReadPos i, ?_, rfl⟩
      simp [trySendAlone, SendAction.producer, SendAction.message?, sendStep, hp]
  | loadReservePos m' readPos =>
      refine Or.inr ⟨.loadReservePos i, ?_, rfl⟩
      simp [trySendAlone, SendAction.producer, SendAction.message?, sendStep, hp]
  | reserving m' readPos reservePos =>
      rw [hp] at h
      refine Or.inr ⟨.compareExchangeReserve i false, ?_, rfl⟩
      simp [trySendAlone, SendAction.producer, SendAction.message?, sendStep, hp, h.2.1, h.2.2.1]
  | writing r todo =>
      rw [hp] at h
      cases todo with
      | cons w todo =>
          refine Or.inr ⟨.write i, ?_, rfl⟩
          simp [trySendAlone, SendAction.producer, SendAction.message?, sendStep, hp]
      | nil =>
          refine Or.inr ⟨.compareExchangeCommit i false, ?_, rfl⟩
          simp [trySendAlone, SendAction.producer, SendAction.message?, sendStep, hp, h.1]

omit hpos h64 hread hcommit in
/-- The call passes its own size check. -/
theorem solo_call : ((s₀.call bufferSize i m).pc i).Solo bufferSize s₀.shared
    (s₀.call bufferSize i m).shared m := by
  simp [Producers.call, Producers.goto, SendPc.Solo, not_lt.2 hsize]

/-- **A call in an empty queue returns whether there is room.** -/
theorem returnsAlone : ReturnsAlone bufferSize s₀ i m
    (decide (HasRoom bufferSize (s₀.shared.reservePos % bufferSize) (messageSize m))) := by
  have hstep : ∀ s a s', (s.pc i).Solo bufferSize s₀.shared s.shared m →
      (trySendAlone bufferSize s₀ i m).step s a = some s' →
      (s'.pc i).Solo bufferSize s₀.shared s'.shared m ∧
        (s'.pc i).remaining + 1 ≤ (s.pc i).remaining + if a.isSpurious then 3 else 0 :=
    fun _ _ _ => solo_step hpos h64 hread hcommit hsize
  have hsolo : ∀ s, (trySendAlone bufferSize s₀ i m).Reachable s →
      (s.pc i).Solo bufferSize s₀.shared s.shared m := by
    intro s hs
    refine hs.invariant ?_ (fun s a s' _ hI h => (hstep s a s' hI h).1)
    intro s hinit
    rw [show s = s₀.call bufferSize i m from hinit]
    exact solo_call hsize
  refine ⟨?_, ?_, ?_, ?_⟩
  · -- the result
    intro s hs o ho
    have h := hsolo s hs
    rw [ho] at h
    exact h.1
  · -- the call returns: its rank falls as long as no exchange fails spuriously
    intro s hs
    have hfinal : ∀ s, (s.pc i).Solo bufferSize s₀.shared s.shared m →
        (∃ o, s.pc i = .idle o) ∨ ∃ a s', (trySendAlone bufferSize s₀ i m).step s a = some s' ∧
          (s'.pc i).Solo bufferSize s₀.shared s'.shared m ∧
            (s'.pc i).remaining < (s.pc i).remaining := by
      intro s h
      rcases exists_solo_step h with hidle | ⟨a, hsome, ha⟩
      · exact Or.inl hidle
      · obtain ⟨s', hs'⟩ := Option.isSome_iff_exists.1 hsome
        obtain ⟨h', hlt⟩ := hstep s a s' h hs'
        rw [ha, if_neg Bool.false_ne_true] at hlt
        exact Or.inr ⟨a, s', hs', h', hlt⟩
    obtain ⟨s', hsteps, o, ho⟩ := Automaton.Steps.exists_of_rank hfinal (hsolo s hs)
    have h' := hsolo s' (hs.steps hsteps)
    rw [ho] at h'
    exact ⟨s', hsteps, ho.trans (congrArg SendPc.idle h'.1)⟩
  · intro as s hs
    have hlen := Automaton.length_run_le hstep (solo_call hsize) hs
    have hfirst : ((s₀.call bufferSize i m).pc i).remaining = 9 := by
      simp [Producers.call, Producers.goto, SendPc.remaining, not_lt.2 hsize]
    rw [hfirst] at hlen
    omega
  · -- without room the call never gets to the exchange
    intro hfull s hs
    have hroom := of_decide_eq_false hfull
    have h := hsolo s hs
    cases hp : s.pc i with
    | idle o =>
        rw [hp] at h
        exact h.2.resolve_left hroom
    | loadReadPos m' =>
        rw [hp] at h
        exact h.2
    | loadReservePos m' readPos =>
        rw [hp] at h
        exact h.2.2
    | reserving m' readPos reservePos =>
        rw [hp] at h
        exact absurd h.2.2.2 hroom
    | writing r todo =>
        rw [hp] at h
        exact absurd h.2.2 hroom

/-- **A call in an empty queue returns `true` exactly when there is room** behind the write offset or in
front of it. -/
theorem returnsAlone_true_iff : ReturnsAlone bufferSize s₀ i m true ↔
    HasRoom bufferSize (s₀.shared.reservePos % bufferSize) (messageSize m) := by
  have hreturns : ReturnsAlone bufferSize s₀ i m _ := returnsAlone hpos h64 hread hcommit hsize
  constructor
  · intro h
    exact of_decide_eq_true (hreturns.unique h)
  · intro hroom
    rw [decide_eq_true hroom] at hreturns
    exact hreturns

end Empty

/-- An empty ring of 24 bytes at the offset 16: the next record of 16 bytes goes in front of it. -/
theorem returnsAlone_true_iff_sixteen : ReturnsAlone 24
    { (Producers.initial : Producers (Fin 1)) with shared := ⟨16, 16, 16, fun _ => 0⟩ } 0 eightBytes
    true :=
  (returnsAlone_true_iff (by decide) (by decide) rfl rfl (by decide)).2 (by decide)

/-- An empty ring of 16 bytes at the offset 8 refuses a record of 16 bytes, and goes on to do so. -/
theorem empty_queue_refuses :
    ¬ ∀ bufferSize : ℕ, 0 < bufferSize → bufferSize % 8 = 0 → bufferSize < 2 ^ 64 →
      ∀ s : State (Fin 1), (sequentialSystem (Fin 1) bufferSize .all).Reachable s →
        (∀ j, (s.pc j).isIdle) → s.recv.isIdle → s.shared.readPos = s.shared.reservePos →
        s.shared.commitPos = s.shared.reservePos → ∀ m : Message, messageSize m ≤ bufferSize →
        ReturnsAlone bufferSize s.toProducers 0 m true := by
  intro hall
  obtain ⟨s, hs⟩ : ∃ s, (sequentialSystem (Fin 1) 16 .all).run State.initial
      (sendEmpty 0 ++ receiveEmpty) = some s := ⟨_, rfl⟩
  obtain ⟨hidle, hrecv, hread, hcommit, hreserve⟩ : (∀ j, (s.pc j).isIdle) ∧ s.recv.isIdle ∧
      s.shared.readPos = 8 ∧ s.shared.commitPos = 8 ∧ s.shared.reservePos = 8 := by
    obtain rfl := Option.some_inj.1 hs
    exact ⟨by decide, rfl, rfl, rfl, rfl⟩
  have hfalse : ReturnsAlone 16 s.toProducers 0 eightBytes _ :=
    returnsAlone (by decide) (by decide) (hread.trans hreserve.symm) (hcommit.trans hreserve.symm)
      (by decide)
  have htrue := hall 16 (by decide) rfl (by decide) s (Automaton.Reachable.of_run rfl hs) hidle hrecv
    (hread.trans hreserve.symm) (hcommit.trans hreserve.symm) eightBytes (by decide)
  have heq := htrue.unique hfalse
  rw [hreserve] at heq
  exact absurd heq (by decide)

end MpscQueue
