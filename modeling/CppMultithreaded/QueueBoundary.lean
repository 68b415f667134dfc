/-
**Record boundaries in a ring of any size.**

The producer measures the tail of the ring exactly.  The consumer recomputes it: a tail that is too
short for a header from the position, any other from the size in its padding record, which it rounds
up to a multiple of eight.  In a ring whose size is no multiple of eight the two can disagree, and then
the consumer goes on inside of the record behind the padding.

The calls are made one after the other here; each call takes its own atomic steps.

Main definitions:

* `MpscQueue.getBufferSizeFromShmSize` — the size of the ring in a segment;
* `MpscQueue.sequentialSystem` — the runs in which no two calls overlap;
* `MpscQueue.Reservation.Agrees`, `MpscQueue.agreeingSystem` — the runs in which every padding has a
  size on which the two sides agree;
* `MpscQueue.AtBoundary` — the consumer is at a boundary that a producer laid out;
* `MpscQueue.Sequential` — the invariant of the runs of `agreeingSystem`.

Main results:

* `MpscQueue.Sequential.send`, `MpscQueue.Sequential.receive` — every call keeps the invariant;
* `MpscQueue.atBoundary_of_agreeing` — **the consumer stays on the boundaries** in such a run;
* `MpscQueue.unaligned_tail_misread` — a run in which it does not.
-/

import CppMultithreaded.QueueDelivery
import Mathlib.Data.Fintype.Basic

set_option relaxedAutoImplicit false
set_option autoImplicit false

namespace MpscQueue

open Tiling (Tiles)
open ByteString (Holds)

variable {ι : Type*} {bufferSize : ℕ} {interestedType : MessageType}

/-! ### The size of the ring -/

/-- The size of `SharedMemoryLayout`: `ProtocolHeader` takes 40 bytes, and `QueueHeader` is aligned to
64 bytes. -/
def headerSize : ℕ := 128

/-- The size of the ring in a segment of `shmSize` bytes. -/
def getBufferSizeFromShmSize (shmSize : ℕ) : Except String ℕ :=
  if shmSize ≤ headerSize then .error "Shared memory size is too small"
  else .ok (shmSize - headerSize)

theorem getBufferSizeFromShmSize_eq_ok {shmSize : ℕ}
    (h : getBufferSizeFromShmSize shmSize = .ok bufferSize) :
    0 < bufferSize ∧ shmSize = headerSize + bufferSize := by
  rw [getBufferSizeFromShmSize] at h
  split_ifs at h with hsmall
  have heq := Except.ok.inj h
  omega

/-! ### Calls that do not overlap -/

/-- Outside of `TrySend`. -/
def SendPc.isIdle : SendPc ι → Bool
  | .idle _ => true
  | _ => false

/-- Outside of `TryReceive`. -/
def RecvPc.isIdle : RecvPc → Bool
  | .idle _ => true
  | _ => false

/-- The producer that takes a step. -/
def SendAction.producer : SendAction ι → ι
  | .trySend i _ | .loadReadPos i | .loadReservePos i | .compareExchangeReserve i _ | .write i
  | .compareExchangeCommit i _ => i

/-- No other call is in progress. -/
def State.Alone (s : State ι) : Action ι → Prop
  | .send a => (∀ j, j = a.producer ∨ (s.pc j).isIdle) ∧ s.recv.isIdle
  | .receive => ∀ j, (s.pc j).isIdle

variable [DecidableEq ι]

instance [Fintype ι] (s : State ι) : (a : Action ι) → Decidable (s.Alone a)
  | .send a =>
      inferInstanceAs (Decidable ((∀ j, j = a.producer ∨ (s.pc j).isIdle) ∧ s.recv.isIdle))
  | .receive => inferInstanceAs (Decidable (∀ j, (s.pc j).isIdle))

/-- The message has a type that is no padding, and that a `uint32_t` holds. -/
def Message.Typed (m : Message) : Prop := m.type.code ≠ 0 ∧ m.type.code < 2 ^ 32

instance (m : Message) : Decidable m.Typed := inferInstanceAs (Decidable (_ ∧ _))

/-- The automaton `smallSystem`, where no two calls overlap, and no padding is sent as a message. -/
def sequentialSystem (ι : Type*) [DecidableEq ι] [Fintype ι] (bufferSize : ℕ)
    (interestedType : MessageType) : Automaton (State ι) (Action ι) :=
  (smallSystem ι bufferSize interestedType).restrict fun s a =>
    s.Alone a ∧ ∀ b ∈ a.send?, ∀ m ∈ b.message?, m.Typed

/-! ### Paddings on which the two sides agree -/

/-- The range that a step of a producer wins. -/
def SendAction.wins (bufferSize : ℕ) (s : Producers ι) : SendAction ι → Option (Reservation ι)
  | .compareExchangeReserve i spurious =>
      match s.pc i with
      | .reserving m _ reservePos =>
          if spurious ∨ s.shared.reservePos ≠ reservePos then none
          else some (reservation bufferSize i (s.calls i) m reservePos)
      | _ => none
  | _ => none

/-- The padding is too short for a header, or a multiple of eight, and the positions do not wrap. -/
def Reservation.Agrees (r : Reservation ι) : Prop :=
  (r.paddingSize < 8 ∨ r.paddingSize % 8 = 0) ∧ r.myEnd < 2 ^ 64

instance (r : Reservation ι) : Decidable r.Agrees := inferInstanceAs (Decidable (_ ∧ _))

/-- The automaton `sequentialSystem`, where the two sides agree on every padding that is laid out. -/
def agreeingSystem (ι : Type*) [DecidableEq ι] [Fintype ι] (bufferSize : ℕ)
    (interestedType : MessageType) : Automaton (State ι) (Action ι) :=
  (sequentialSystem ι bufferSize interestedType).restrict fun s a =>
    ∀ b ∈ a.send?, ∀ r ∈ b.wins bufferSize s.toProducers, r.Agrees

/-! ### Boundaries -/

/-- The position is the start of a padding region or of a message record. -/
def Reservation.StartsAt (r : Reservation ι) (p : ℕ) : Prop :=
  (p = r.myBegin ∧ 0 < r.paddingSize) ∨ p = r.messagePos

/-- The consumer is at a boundary that a producer laid out, inside of no record, and skips exactly the
padding that the producer reserved. -/
structure AtBoundary (s : State ι) : Prop where
  boundary : s.shared.readPos = s.shared.commitPos ∨ ∃ r ∈ s.committed, r.StartsAt s.shared.readPos
  outside : ∀ r ∈ s.won, (s.shared.readPos ≤ r.myBegin ∨ r.messagePos ≤ s.shared.readPos) ∧
    (s.shared.readPos ≤ r.messagePos ∨ r.myEnd ≤ s.shared.readPos)
  skip : ∀ value, s.recv = .storeReadPos value none →
    ∃ r ∈ s.committed, s.shared.readPos = r.myBegin ∧ 0 < r.paddingSize ∧
      value = s.shared.readPos + r.paddingSize

/-- What the consumer knows at its program points, when no producer interferes. -/
def RecvPc.OnRecord (bufferSize : ℕ) (s : Producers ι) : RecvPc → Prop
  | .loadCommitPos readPos => readPos = s.shared.readPos
  | .readHeader readPos commitPos =>
      readPos = s.shared.readPos ∧ commitPos = s.shared.commitPos ∧ readPos ≠ commitPos ∧
        8 ≤ bufferSize - readPos % bufferSize
  | .readPayload _ nextReadPos _ _ =>
      ∃ r ∈ s.committed, s.shared.readPos = r.messagePos ∧ nextReadPos = r.myEnd
  | .storeReadPos value none =>
      ∃ r ∈ s.committed, s.shared.readPos = r.myBegin ∧ 0 < r.paddingSize ∧ value = r.messagePos
  | .storeReadPos value (some _) =>
      ∃ r ∈ s.committed, s.shared.readPos = r.messagePos ∧ value = r.myEnd
  | _ => True

/-- Between the calls the positions are in order and the consumer is at a boundary, and what a call has
loaded is still in the shared memory. -/
structure Sequential (bufferSize : ℕ) (s : State ι) : Prop where
  readPos_le : s.shared.readPos ≤ s.shared.commitPos
  reservePos_le : s.shared.reservePos ≤ s.shared.readPos + bufferSize
  loaded : ∀ i m readPos, s.pc i = .loadReservePos m readPos → readPos = s.shared.readPos
  reserving : ∀ i m readPos reservePos, s.pc i = .reserving m readPos reservePos →
    readPos = s.shared.readPos ∧ paddingSizeAt bufferSize reservePos (messageSize m) +
      messageSize m ≤ freeSpace bufferSize readPos reservePos
  boundary : s.shared.readPos = s.shared.commitPos ∨
    ∃ r ∈ s.committed, s.shared.readPos = r.myBegin ∨ s.shared.readPos = r.messagePos
  recv : s.recv.OnRecord bufferSize s.toProducers
  agrees : ∀ r ∈ s.won, r.Agrees

omit [DecidableEq ι] in
/-- After the header of a message record the consumer goes on to the end of the record. -/
theorem afterHeader_typed (interestedType : MessageType) {m : Message} {p commitPos : ℕ}
    (htyped : m.Typed) (hle : p + messageSize m ≤ commitPos) :
    (∃ type size, afterHeader interestedType (messageHeader m) p commitPos =
      .readPayload p (p + messageSize m) type size) ∨
    ∃ result, afterHeader interestedType (messageHeader m) p commitPos =
      .storeReadPos (p + messageSize m) (some result) := by
  have htype : MessageType.ofCode (messageHeader m).type ≠ .padding := by
    show MessageType.ofCode m.type.code ≠ .padding
    have hcode := htyped.1
    unfold MessageType.ofCode
    split <;> simp_all
  have htotal : alignUp (u32 (8 + (messageHeader m).payloadSize)) alignment = messageSize m := rfl
  simp only [afterHeader, htotal, if_neg (not_lt.2 hle), if_neg htype]
  split_ifs
  · exact Or.inl ⟨_, _, rfl⟩
  · exact Or.inr ⟨_, rfl⟩
  · exact Or.inr ⟨_, rfl⟩

omit [DecidableEq ι] in
/-- What the consumer stores to `readPos` is the end of a padding region or of a message record. -/
theorem RecvPc.OnRecord.store {s : Producers ι} (hr : Ranges bufferSize s) {value : ℕ}
    {result : Option (Option Message)}
    (h : (RecvPc.storeReadPos value result).OnRecord bufferSize s) :
    s.shared.readPos ≤ value ∧ value ≤ s.shared.commitPos ∧ (value = s.shared.commitPos ∨
      ∃ r ∈ s.committed, value = r.myBegin ∨ value = r.messagePos) := by
  cases result with
  | none =>
      obtain ⟨r, hmem, hat, -, rfl⟩ := h
      have hend := (hr.committed.bounds hmem).2.2
      rw [Reservation.myEnd, Reservation.required] at hend
      rw [Reservation.messagePos]
      exact ⟨by omega, by omega, Or.inr ⟨r, hmem, Or.inr rfl⟩⟩
  | some result =>
      obtain ⟨r, hmem, hat, rfl⟩ := h
      refine ⟨?_, (hr.committed.bounds hmem).2.2, ?_⟩
      · rw [hat, Reservation.messagePos, Reservation.myEnd, Reservation.required]
        omega
      · rcases hr.committed.exists_next hmem with hlast | ⟨r', hmem', hnext⟩
        · exact Or.inl hlast
        · exact Or.inr ⟨r', hmem', Or.inl hnext.symm⟩

namespace Sequential

variable {s : State ι} (h : Sequential bufferSize s)

include h

/-! ### The producers -/

omit h in
/-- A step of the only call in progress. -/
theorem of_move {p : Producers ι} {i : ι} {pc : SendPc ι} (hidle : ∀ j, j = i ∨ (s.pc j).isIdle)
    (hrecv : s.recv.isIdle) (hpc : p.pc = Function.update s.pc i pc)
    (hread : p.shared.readPos = s.shared.readPos)
    (hle : p.shared.readPos ≤ p.shared.commitPos)
    (hreserve : p.shared.reservePos ≤ p.shared.readPos + bufferSize)
    (hboundary : p.shared.readPos = p.shared.commitPos ∨
      ∃ r ∈ p.committed, p.shared.readPos = r.myBegin ∨ p.shared.readPos = r.messagePos)
    (hwon : ∀ r ∈ p.won, r.Agrees)
    (hloaded : ∀ m readPos, pc = .loadReservePos m readPos → readPos = s.shared.readPos)
    (hreserving : ∀ m readPos reservePos, pc = .reserving m readPos reservePos →
      readPos = s.shared.readPos ∧ paddingSizeAt bufferSize reservePos (messageSize m) +
        messageSize m ≤ freeSpace bufferSize readPos reservePos) :
    Sequential bufferSize { s with toProducers := p } := by
  have hmoved : ∀ j, p.pc j = pc ∨ (p.pc j).isIdle := by
    intro j
    rcases eq_or_ne j i with rfl | hne
    · exact Or.inl (by rw [hpc, Function.update_self])
    · rw [hpc, Function.update_of_ne hne]
      exact Or.inr ((hidle j).resolve_left hne)
  refine ⟨hle, hreserve, ?_, ?_, hboundary, ?_, hwon⟩
  · intro j m readPos hj
    rcases hmoved j with heq | hj'
    · exact (hloaded m readPos (heq.symm.trans hj)).trans hread.symm
    · simp [show p.pc j = .loadReservePos m readPos from hj, SendPc.isIdle] at hj'
  · intro j m readPos reservePos hj
    rcases hmoved j with heq | hj'
    · obtain ⟨hloadedPos, hspace⟩ := hreserving m readPos reservePos (heq.symm.trans hj)
      exact ⟨hloadedPos.trans hread.symm, hspace⟩
    · simp [show p.pc j = .reserving m readPos reservePos from hj, SendPc.isIdle] at hj'
  · show s.recv.OnRecord bufferSize p
    cases hp : s.recv with
    | idle result => trivial
    | _ => simp [hp, RecvPc.isIdle] at hrecv

/-- **The steps of a `TrySend` keep the consumer at a boundary.** -/
theorem send (h64 : bufferSize < 2 ^ 64) (hr : Ranges bufferSize s.toProducers) {p : Producers ι}
    {a : SendAction ι} (halone : s.Alone (.send a))
    (hagrees : ∀ r ∈ a.wins bufferSize s.toProducers, r.Agrees)
    (he : SendEffect bufferSize s.toProducers a p) :
    Sequential bufferSize { s with toProducers := p } := by
  obtain ⟨hidle, hrecv⟩ := halone
  cases he with
  | call i m result hpc =>
      refine of_move hidle hrecv rfl rfl h.readPos_le h.reservePos_le h.boundary h.agrees ?_ ?_
      · intro m' readPos heq
        split_ifs at heq
      · intro m' readPos reservePos heq
        split_ifs at heq
  | loadReadPos i m hpc =>
      refine of_move hidle hrecv rfl rfl h.readPos_le h.reservePos_le h.boundary h.agrees ?_ (by simp)
      intro m' readPos heq
      exact (SendPc.loadReservePos.inj heq).2.symm
  | checkSpace i m readPos hpc =>
      rw [Producers.checkSpace]
      split_ifs with hfull
      · exact of_move hidle hrecv rfl rfl h.readPos_le h.reservePos_le h.boundary h.agrees (by simp) (by simp)
      · refine of_move hidle hrecv rfl rfl h.readPos_le h.reservePos_le h.boundary h.agrees (by simp) ?_
        intro m' readPos' reservePos' heq
        obtain ⟨rfl, rfl, rfl⟩ := SendPc.reserving.inj heq
        exact ⟨h.loaded i m readPos hpc, not_lt.1 hfull⟩
  | retry i b m readPos reservePos hpc =>
      exact of_move hidle hrecv rfl rfl h.readPos_le h.reservePos_le h.boundary h.agrees (by simp) (by simp)
  | win i m readPos hpc =>
      obtain ⟨hread, hspace⟩ := h.reserving i m readPos _ hpc
      have hle : readPos ≤ s.shared.reservePos := by
        rw [hread]
        exact h.readPos_le.trans hr.commitPos_le
      have hfar : s.shared.reservePos ≤ readPos + bufferSize := by
        rw [hread]
        exact h.reservePos_le
      rw [freeSpace_eq h64 hle hfar] at hspace
      refine of_move hidle hrecv rfl rfl h.readPos_le ?_ h.boundary ?_ (by simp) (by simp)
      · show s.shared.reservePos + (paddingSizeAt bufferSize s.shared.reservePos (messageSize m) +
          messageSize m) ≤ s.shared.readPos + bufferSize
        omega
      · intro r hmem
        rcases List.mem_append.1 hmem with hold | hnew
        · exact h.agrees r hold
        · refine hagrees r ?_
          rw [List.mem_singleton.1 hnew]
          simp [SendAction.wins, hpc]
  | write i r w todo hpc =>
      exact of_move hidle hrecv rfl rfl h.readPos_le h.reservePos_le h.boundary h.agrees (by simp) (by simp)
  | wait i b => exact h
  | commit i r hpc heq =>
      have hlt := (hr.fits r (hr.writing i r (by rw [hpc]; rfl)).1).myBegin_lt
      refine of_move hidle hrecv rfl rfl ?_ h.reservePos_le ?_ h.agrees (by simp) (by simp)
      · show s.shared.readPos ≤ r.myEnd
        have hle := h.readPos_le
        omega
      · -- a consumer that had caught up is now at the start of the range committed
        rcases h.boundary with hcaught | ⟨r', hmem, hat⟩
        · exact Or.inr ⟨r, List.mem_append_right _ (List.mem_singleton_self r),
            Or.inl (hcaught.trans heq)⟩
        · exact Or.inr ⟨r', List.mem_append_left _ hmem, hat⟩

/-! ### The consumer -/

omit [DecidableEq ι] in
/-- Steps of the consumer that do not store to `readPos`. -/
theorem moveRecv {recv : RecvPc} {reads : List (ℕ × ℕ)}
    (hrecv : recv.OnRecord bufferSize s.toProducers) :
    Sequential bufferSize { s with recv := recv, reads := reads } :=
  ⟨h.readPos_le, h.reservePos_le, h.loaded, h.reserving, h.boundary, hrecv, h.agrees⟩

omit [DecidableEq ι] in
/-- **The consumer finds a padding region or a message record at its position.** -/
theorem next (hr : Ranges bufferSize s.toProducers)
    (hlt : s.shared.readPos ≠ s.shared.commitPos) :
    ∃ r ∈ s.committed, r.Fits bufferSize ∧ r.Agrees ∧ r.myEnd ≤ s.shared.commitPos ∧
      ((s.shared.readPos = r.myBegin ∧ 0 < r.paddingSize ∧
          r.paddingSize = bufferSize - s.shared.readPos % bufferSize ∧
          r.paddingSize < messageSize r.message) ∨
        (s.shared.readPos = r.messagePos ∧ 8 ≤ bufferSize - s.shared.readPos % bufferSize)) := by
  obtain ⟨r, hmem, hat⟩ := h.boundary.resolve_left hlt
  have hwon := hr.isPrefix.subset hmem
  have hfits := hr.fits r hwon
  have hsize := hfits.size_pos
  have hmessage := hfits.message_fits
  refine ⟨r, hmem, hfits, h.agrees r hwon, (hr.committed.bounds hmem).2.2, ?_⟩
  rcases paddingSizeAt_cases bufferSize r.myBegin hfits.size_lt with ⟨hpad, -⟩ | ⟨hpad, htail⟩
  · rw [← hfits.padding] at hpad
    have hsame : r.messagePos = r.myBegin := by rw [Reservation.messagePos, hpad, Nat.add_zero]
    have hread : s.shared.readPos = r.messagePos := by
      rcases hat with hat | hat
      · exact hat.trans hsame.symm
      · exact hat
    refine Or.inr ⟨hread, ?_⟩
    rw [hread]
    omega
  · rw [← hfits.padding] at hpad
    rcases hat with hat | hat
    · have hlap := Nat.mod_lt r.myBegin (show 0 < bufferSize by have := hfits.size_le; omega)
      rw [hat]
      exact Or.inl ⟨rfl, by omega, hpad, by omega⟩
    · refine Or.inr ⟨hat, ?_⟩
      rw [hat]
      omega

omit [DecidableEq ι] in
/-- The header of the next record takes the consumer to the next boundary. -/
theorem afterHeader (hr : Ranges bufferSize s.toProducers) (hw : Written bufferSize s.toProducers)
    (hstored : Stored bufferSize s.toProducers) (hsending : Sending Message.Typed s.toProducers)
    (hlt : s.shared.readPos ≠ s.shared.commitPos)
    (htail : 8 ≤ bufferSize - s.shared.readPos % bufferSize) :
    (MpscQueue.afterHeader interestedType
      (.ofBytes (ByteString.read s.shared.buffer (s.shared.readPos % bufferSize) 8))
      s.shared.readPos s.shared.commitPos).OnRecord bufferSize s.toProducers := by
  obtain ⟨r, hmem, hfits, ⟨hmod, -⟩, hend, ⟨hat, -, hpad, hshort⟩ | ⟨hat, -⟩⟩ := h.next hr hlt
  · have hsize := hfits.size_lt
    rw [← hpad] at htail
    have hpad8 := hmod.resolve_left (by omega)
    have hdvd := messageSize_mod r.message
    rw [hat, hstored.paddingHeader hr hw hmem (by omega) hat.le htail,
      afterHeader_padding interestedType htail (by omega) hpad8]
    rw [Reservation.myEnd, Reservation.required] at hend
    rw [if_neg (by omega)]
    exact ⟨r, hmem, hat, by omega, rfl⟩
  · have htyped := hsending.won r (hr.isPrefix.subset hmem)
    have hsum : r.messagePos + messageSize r.message = r.myEnd := by
      rw [Reservation.messagePos, Reservation.myEnd, Reservation.required, Nat.add_assoc]
    rw [hat, hstored.messageHeader hr hw hmem htyped.2 hat.le]
    rcases afterHeader_typed interestedType htyped (hsum.trans_le hend) with
      ⟨type, size, heq⟩ | ⟨result, heq⟩
    · rw [heq]
      exact ⟨r, hmem, hat, hsum⟩
    · rw [heq]
      exact ⟨r, hmem, hat, hsum⟩

omit [DecidableEq ι] in
/-- The store to `readPos` takes the consumer to the next boundary. -/
theorem release (hr : Ranges bufferSize s.toProducers) (hidle : ∀ j, (s.pc j).isIdle) {value : ℕ}
    {result : Option (Option Message)}
    (hk : (RecvPc.storeReadPos value result).OnRecord bufferSize s.toProducers) :
    Sequential bufferSize (s.release value result) := by
  have hreserve := h.reservePos_le
  have hshared : (s.release value result).toProducers = s.toProducers.storeReadPos value := by
    cases result <;> rfl
  obtain ⟨hle, hcommit, hboundary⟩ := hk.store hr
  refine ⟨?_, ?_, ?_, ?_, ?_, ?_, ?_⟩
  · rw [hshared]
    exact hcommit
  · rw [hshared]
    show s.shared.reservePos ≤ value + bufferSize
    omega
  · rw [hshared]
    intro i m readPos hi
    have hpc := hidle i
    simp [show s.pc i = .loadReservePos m readPos from hi, SendPc.isIdle] at hpc
  · rw [hshared]
    intro i m readPos reservePos hi
    have hpc := hidle i
    simp [show s.pc i = .reserving m readPos reservePos from hi, SendPc.isIdle] at hpc
  · rw [hshared]
    exact hboundary
  · cases result <;> trivial
  · rw [hshared]
    exact h.agrees

omit [DecidableEq ι] in
/-- **The steps of a `TryReceive` keep the consumer at a boundary.** -/
theorem receive (hr : Ranges bufferSize s.toProducers) (hw : Written bufferSize s.toProducers)
    (hstored : Stored bufferSize s.toProducers) (hsending : Sending Message.Typed s.toProducers)
    (hidle : ∀ j, (s.pc j).isIdle) : Sequential bufferSize (recvStep bufferSize interestedType s) := by
  have hrecv := h.recv
  unfold recvStep
  cases hp : s.recv with
  | idle result => exact h.moveRecv trivial
  | loadReadPos => exact h.moveRecv rfl
  | loadCommitPos readPos =>
      rw [hp] at hrecv
      obtain rfl : readPos = s.shared.readPos := hrecv
      simp only [State.peek]
      split_ifs with hempty hshort
      · exact h.moveRecv trivial
      · -- only a padding region is less than a header away from the end of the ring
        obtain ⟨r, hmem, -, -, -, ⟨hat, hpos, hpad, -⟩ | ⟨-, hroom⟩⟩ := h.next hr hempty
        · exact h.moveRecv ⟨r, hmem, hat, hpos, by rw [Reservation.messagePos, ← hat, hpad]⟩
        · exact absurd hshort (not_lt.2 hroom)
      · exact h.moveRecv ⟨rfl, rfl, hempty, not_lt.1 hshort⟩
  | readHeader readPos commitPos =>
      rw [hp] at hrecv
      obtain ⟨rfl, rfl, hne, htail⟩ := hrecv
      exact h.moveRecv (h.afterHeader hr hw hstored hsending hne htail)
  | readPayload readPos nextReadPos type payloadSize =>
      rw [hp] at hrecv
      exact h.moveRecv hrecv
  | storeReadPos value result =>
      rw [hp] at hrecv
      exact h.release hr hidle hrecv

omit [DecidableEq ι] in
/-- The invariant puts the consumer at a boundary. -/
theorem atBoundary (hr : Ranges bufferSize s.toProducers) : AtBoundary s := by
  refine ⟨?_, ?_, ?_⟩
  · by_cases hne : s.shared.readPos = s.shared.commitPos
    · exact Or.inl hne
    · obtain ⟨r, hmem, -, -, -, ⟨hat, hpos, -⟩ | ⟨hat, -⟩⟩ := h.next hr hne
      · exact Or.inr ⟨r, hmem, Or.inl ⟨hat, hpos⟩⟩
      · exact Or.inr ⟨r, hmem, Or.inr hat⟩
  · intro r hwon
    have hlt := (hr.fits r hwon).size_pos
    have hmessage : r.messagePos = r.myBegin + r.paddingSize := rfl
    have hend : r.myEnd = r.myBegin + (r.paddingSize + messageSize r.message) := rfl
    rcases h.boundary with hcaught | ⟨r', hmem, hat⟩
    · rcases hr.pending r hwon with hdone | hwriting
      · have hle := (hr.committed.bounds hdone).2.2
        omega
      · have hle := (hr.writing _ r hwriting).2.2
        omega
    · have hmessage' : r'.messagePos = r'.myBegin + r'.paddingSize := rfl
      have hend' : r'.myEnd = r'.myBegin + (r'.paddingSize + messageSize r'.message) := rfl
      rcases hr.won.trichotomy hwon (hr.isPrefix.subset hmem) with rfl | hdis | hdis
      all_goals omega
  · intro value hvalue
    have hrecv := h.recv
    rw [hvalue] at hrecv
    obtain ⟨r, hmem, hat, hpos, rfl⟩ := hrecv
    exact ⟨r, hmem, hat, hpos, by rw [hat, Reservation.messagePos]⟩

end Sequential

/-! ### Every run -/

variable [Fintype ι] {s : State ι}

/-- The invariants of the runs of `agreeingSystem`. -/
theorem sequential_of_agreeing (h64 : bufferSize < 2 ^ 64)
    (h : (agreeingSystem ι bufferSize interestedType).Reachable s) :
    Sequential bufferSize s ∧ Stored bufferSize s.toProducers ∧
      Sending Message.Typed s.toProducers := by
  refine h.invariant (I := fun s => Sequential bufferSize s ∧ Stored bufferSize s.toProducers ∧
    Sending Message.Typed s.toProducers) ?_ ?_
  · intro s hs
    rw [show s = State.initial from hs]
    refine ⟨⟨le_rfl, Nat.zero_le _, ?_, ?_, Or.inl rfl, trivial, ?_⟩, ?_, ?_, ?_⟩
    · simp [State.initial, Producers.initial]
    · simp [State.initial, Producers.initial]
    · simp [State.initial, Producers.initial]
    · intro r b _ hlog
      simp [State.initial, Producers.initial] at hlog
    · simp [State.initial, Producers.initial, SendPc.message?]
    · simp [State.initial, Producers.initial]
  · rintro s a s' hreach ⟨hI, hstored, hsending⟩ hs
    have hsmall := (systemSimulation bufferSize interestedType).reachable
      hreach.of_restrict.of_restrict
    have hranges : Ranges bufferSize s.toProducers := ranges_of_reachable hsmall
    have hwritten : Written bufferSize s.toProducers := written_of_reachable hsmall
    obtain ⟨hagrees, hs⟩ := Automaton.restrict_step_eq_some.1 hs
    obtain ⟨⟨halone, htyped⟩, hs⟩ := Automaton.restrict_step_eq_some.1 hs
    obtain ⟨-, hs⟩ := Automaton.restrict_step_eq_some.1 hs
    cases a with
    | send a =>
        obtain ⟨p, hp, rfl⟩ := Option.map_eq_some_iff.1 hs
        have he := effect_of_sendStep hp
        exact ⟨hI.send h64 hranges halone (hagrees a rfl) he,
          hstored.send hranges hwritten hI.readPos_le hI.reservePos_le he,
          hsending.step (fun m hm _ => htyped a rfl m hm) he⟩
    | receive =>
        rw [← Option.some.inj hs]
        have hI' : Sequential bufferSize (recvStep bufferSize interestedType s) :=
          hI.receive hranges hwritten hstored hsending halone
        refine ⟨hI', ?_⟩
        rcases toProducers_recvStep bufferSize interestedType s with heq | ⟨value, result, hp, heq⟩
        · rw [heq]
          exact ⟨hstored, hsending⟩
        · have hrecv := hI.recv
          rw [hp] at hrecv
          rw [heq]
          exact ⟨hstored.of_eq rfl rfl (hrecv.store hranges).1, hsending.trying, hsending.won⟩

/-- **The consumer stays on the boundaries** that the producers laid out, as long as every padding is
too short for a header or a multiple of eight. -/
theorem atBoundary_of_agreeing {shmSize : ℕ} (hshm : shmSize < 2 ^ 64)
    (hsize : getBufferSizeFromShmSize shmSize = .ok bufferSize)
    (h : (agreeingSystem ι bufferSize interestedType).Reachable s) : AtBoundary s := by
  obtain ⟨-, hsum⟩ := getBufferSizeFromShmSize_eq_ok hsize
  have hsmall := (systemSimulation bufferSize interestedType).reachable h.of_restrict.of_restrict
  exact (sequential_of_agreeing (by omega) h).1.atBoundary (ranges_of_reachable hsmall)

/-! ### Two runs -/

/-- A message of eight bytes, whose record takes sixteen bytes. -/
def eightBytes : Message := ⟨.text, List.replicate 8 0⟩

/-- The steps of a `TrySend` of that message that succeeds at once, where the records of its range take
`writes` writes. -/
def sendEight (i : ι) (writes : ℕ) : List (Action ι) :=
  [Action.send (.trySend i eightBytes), .send (.loadReadPos i), .send (.loadReservePos i),
    .send (.compareExchangeReserve i false)] ++ List.replicate writes (Action.send (.write i)) ++
    [Action.send (.compareExchangeCommit i false)]

/-- A ring of 20 bytes.  The second record leaves a tail of four bytes in front of it, and the consumer
skips four bytes. -/
theorem atBoundary_of_agreeing_short_tail :
    ∃ s : State (Fin 1), (agreeingSystem (Fin 1) 20 .all).run State.initial
        (sendEight 0 2 ++ List.replicate 6 .receive ++ sendEight 0 2 ++ List.replicate 4 .receive) =
          some s ∧
      s.shared.readPos = 20 ∧ AtBoundary s := by
  obtain ⟨s, hs⟩ : ∃ s, (agreeingSystem (Fin 1) 20 .all).run State.initial
      (sendEight 0 2 ++ List.replicate 6 .receive ++ sendEight 0 2 ++ List.replicate 4 .receive) =
        some s := ⟨_, rfl⟩
  have hread : s.shared.readPos = 20 := by
    obtain rfl := Option.some_inj.1 hs
    rfl
  exact ⟨s, hs, hread, atBoundary_of_agreeing (show 148 < 2 ^ 64 by decide) rfl
    (Automaton.Reachable.of_run rfl hs)⟩

/-- A ring of 28 bytes.  The second record leaves a tail of twelve bytes in front of it, and the
consumer skips sixteen, into the record at `[28, 44)`. -/
theorem unaligned_tail_misread :
    ¬ ∀ (shmSize bufferSize : ℕ), shmSize < 2 ^ 64 →
      getBufferSizeFromShmSize shmSize = .ok bufferSize →
      ∀ s : State (Fin 1), (sequentialSystem (Fin 1) bufferSize .all).Reachable s →
        AtBoundary s := by
  intro hall
  obtain ⟨s, hs⟩ : ∃ s, (sequentialSystem (Fin 1) 28 .all).run State.initial
      (sendEight 0 2 ++ List.replicate 6 .receive ++ sendEight 0 4 ++ List.replicate 5 .receive) =
        some s := ⟨_, rfl⟩
  obtain ⟨hread, r, hr, hpos, hstop⟩ : s.shared.readPos = 32 ∧
      ∃ r, s.won[1]? = some r ∧ r.messagePos = 28 ∧ r.myEnd = 44 := by
    obtain rfl := Option.some_inj.1 hs
    exact ⟨rfl, _, rfl, rfl, rfl⟩
  have hat := hall 156 28 (by decide) rfl s (Automaton.Reachable.of_run rfl hs)
  have hout := (hat.outside r (List.mem_of_getElem? hr)).2
  omega

end MpscQueue
