/-
**When the ring of the shared-memory queue is overwritten.**

A producer computes the free space from two positions that it loads one after the other.  Between the
two loads other producers and the consumer may move on, so that the pair is not a snapshot of any
state: the difference of the two can exceed the size of the ring, and then the subtraction that gives
the free space wraps around and reports almost `2 ^ 64` free bytes.  If such a producer wins its
compare-exchange, it reserves bytes that the consumer has not released.

As long as no producer wins with such a pair, nothing unread is overwritten.

Main definitions:

* `MpscQueue.NoOverwrite` — the order of the positions, and that a range shares no cell of the ring
  with the unread bytes below it;
* `MpscQueue.winsStale` — a producer wins a range although its pair of positions is too far apart;
* `MpscQueue.freshSystem` — the runs without such a step;
* `MpscQueue.Window` — the invariant of these runs.

Main results:

* `MpscQueue.Window.send`, `MpscQueue.Window.receive` — the steps of such a run keep the invariant;
* `MpscQueue.no_overwrite_of_fresh` — **nothing unread is overwritten** in such a run;
* `MpscQueue.stale_win_overwrites` — a run of two producers that overwrites an unread message.
-/

import CppMultithreaded.QueueReservation

set_option relaxedAutoImplicit false
set_option autoImplicit false

namespace MpscQueue

variable {ι : Type*}

/-- The order of the positions, and that no cell of a range holds an unread byte below the range. -/
structure NoOverwrite (bufferSize : ℕ) (s : State ι) : Prop where
  readPos_le : s.shared.readPos ≤ s.shared.commitPos
  commitPos_le : s.shared.commitPos ≤ s.shared.reservePos
  reservePos_le : s.shared.reservePos ≤ s.shared.readPos + bufferSize
  disjoint : ∀ r ∈ s.won, ∀ p q, r.myBegin ≤ p → p < r.myEnd → s.shared.readPos ≤ q →
    q < r.myBegin → p % bufferSize ≠ q % bufferSize

variable [DecidableEq ι]

/-- The step wins a range although the positions that its producer has loaded are further apart than
the size of the ring. -/
def winsStale (bufferSize : ℕ) (s : Producers ι) : SendAction ι → Bool
  | .compareExchangeReserve i spurious =>
      match s.pc i with
      | .reserving _ readPos reservePos =>
          !spurious && s.shared.reservePos == reservePos && decide (readPos + bufferSize < reservePos)
      | _ => false
  | _ => false

/-- The automaton `smallSystem`, where no producer wins a range with positions that are too far
apart. -/
def freshSystem (ι : Type*) [DecidableEq ι] (bufferSize : ℕ) (interestedType : MessageType) :
    Automaton (State ι) (Action ι) :=
  (smallSystem ι bufferSize interestedType).restrict fun s a =>
    ∀ b ∈ a.send?, winsStale bufferSize s.toProducers b = false

/-! ### The invariant -/

/-- What the consumer knows at its program points. -/
def RecvPc.InWindow (q : Shared) : RecvPc → Prop
  | .idle _ => True
  | .loadReadPos => True
  | .loadCommitPos readPos => readPos = q.readPos
  | .readHeader readPos commitPos =>
      readPos = q.readPos ∧ readPos < commitPos ∧ commitPos ≤ q.commitPos
  | .readPayload readPos nextReadPos _ _ =>
      readPos = q.readPos ∧ readPos ≤ nextReadPos ∧ nextReadPos ≤ q.commitPos ∧ nextReadPos % 8 = 0
  | .storeReadPos value _ => q.readPos ≤ value ∧ value ≤ q.commitPos ∧ value % 8 = 0

/-- The positions are in order and within one length of the ring, and what the producers and the
consumer have loaded is consistent with them. -/
structure Window (bufferSize : ℕ) (s : State ι) : Prop where
  readPos_mod : s.shared.readPos % 8 = 0
  readPos_le : s.shared.readPos ≤ s.shared.commitPos
  reservePos_le : s.shared.reservePos ≤ s.shared.readPos + bufferSize
  loaded : ∀ i m readPos, s.pc i = .loadReservePos m readPos → readPos ≤ s.shared.readPos
  reserving : ∀ i m readPos reservePos, s.pc i = .reserving m readPos reservePos →
    readPos ≤ s.shared.readPos ∧ readPos ≤ reservePos ∧
      paddingSizeAt bufferSize reservePos (messageSize m) + messageSize m ≤
        freeSpace bufferSize readPos reservePos
  recv : s.recv.InWindow s.shared

omit [DecidableEq ι] in
/-- The free space, where the two positions are at most the size of the ring apart. -/
theorem freeSpace_eq {bufferSize readPos reservePos : ℕ} (h64 : bufferSize < 2 ^ 64)
    (hle : readPos ≤ reservePos) (hfar : reservePos ≤ readPos + bufferSize) :
    freeSpace bufferSize readPos reservePos = bufferSize - (reservePos - readPos) := by
  rw [freeSpace, sub64_of_le hle (by omega), sub64_of_le (by omega) (by omega)]

omit [DecidableEq ι] in
/-- There is always room for a header at a multiple of eight. -/
theorem tailSpace_ge {bufferSize p : ℕ} (h8 : bufferSize % 8 = 0) (hpos : 0 < bufferSize)
    (hp : p % 8 = 0) : p % bufferSize % 8 = 0 ∧ 8 ≤ bufferSize - p % bufferSize := by
  have hlt := Nat.mod_lt p hpos
  have hmod : p % bufferSize % 8 = 0 := by
    rw [Nat.mod_mod_of_dvd _ (Nat.dvd_of_mod_eq_zero h8)]
    exact hp
  exact ⟨hmod, by omega⟩

namespace Window

variable {bufferSize : ℕ} {s s' : State ι} (h : Window bufferSize s)

include h

omit [DecidableEq ι] in
/-- The consumer keeps what it knows when `commitPos` grows. -/
theorem recv_mono {q : Shared} (hread : q.readPos = s.shared.readPos)
    (hcommit : s.shared.commitPos ≤ q.commitPos) : s.recv.InWindow q := by
  have hrecv := h.recv
  cases hp : s.recv with
  | idle result => trivial
  | loadReadPos => trivial
  | loadCommitPos readPos =>
      rw [hp] at hrecv
      rw [RecvPc.InWindow, hread]
      exact hrecv
  | readHeader readPos commitPos =>
      rw [hp] at hrecv
      obtain ⟨heq, hlt, hle⟩ := hrecv
      exact ⟨heq.trans hread.symm, hlt, hle.trans hcommit⟩
  | readPayload readPos nextReadPos type payloadSize =>
      rw [hp] at hrecv
      obtain ⟨heq, hlt, hle, hmod⟩ := hrecv
      exact ⟨heq.trans hread.symm, hlt, hle.trans hcommit, hmod⟩
  | storeReadPos value result =>
      rw [hp] at hrecv
      obtain ⟨hlt, hle, hmod⟩ := hrecv
      exact ⟨hread.trans_le hlt, hle.trans hcommit, hmod⟩

/-- Steps of a producer that do not move `reservePos`. -/
theorem move {p : Producers ι} {i : ι} {pc : SendPc ι}
    (hread : p.shared.readPos = s.shared.readPos)
    (hreserve : p.shared.reservePos ≤ s.shared.readPos + bufferSize)
    (hcommit : s.shared.commitPos ≤ p.shared.commitPos) (hpc : p.pc = Function.update s.pc i pc)
    (hloaded : ∀ m readPos, pc = .loadReservePos m readPos → readPos ≤ s.shared.readPos)
    (hreserving : ∀ m readPos reservePos, pc = .reserving m readPos reservePos →
      readPos ≤ s.shared.readPos ∧ readPos ≤ reservePos ∧
        paddingSizeAt bufferSize reservePos (messageSize m) + messageSize m ≤
          freeSpace bufferSize readPos reservePos) :
    Window bufferSize { s with toProducers := p } := by
  refine ⟨?_, ?_, ?_, ?_, ?_, h.recv_mono hread hcommit⟩
  · show p.shared.readPos % 8 = 0
    rw [hread]
    exact h.readPos_mod
  · show p.shared.readPos ≤ p.shared.commitPos
    rw [hread]
    exact h.readPos_le.trans hcommit
  · show p.shared.reservePos ≤ p.shared.readPos + bufferSize
    rw [hread]
    exact hreserve
  · intro j m readPos hj
    show readPos ≤ p.shared.readPos
    rw [hread]
    rcases eq_or_ne j i with rfl | hne
    · simp only [hpc, Function.update_self] at hj
      exact hloaded m readPos hj
    · simp only [hpc, Function.update_of_ne hne] at hj
      exact h.loaded j m readPos hj
  · intro j m readPos reservePos hj
    show readPos ≤ p.shared.readPos ∧ _
    rw [hread]
    rcases eq_or_ne j i with rfl | hne
    · simp only [hpc, Function.update_self] at hj
      exact hreserving m readPos reservePos hj
    · simp only [hpc, Function.update_of_ne hne] at hj
      exact h.reserving j m readPos reservePos hj

/-- **The steps of the producers keep the window**, unless one wins with positions that are too far
apart. -/
theorem send (h64 : bufferSize < 2 ^ 64) (hr : Ranges bufferSize s.toProducers) {p : Producers ι}
    {a : SendAction ι} (ha : winsStale bufferSize s.toProducers a = false)
    (he : SendEffect bufferSize s.toProducers a p) :
    Window bufferSize { s with toProducers := p } := by
  cases he with
  | call i m result hpc =>
      refine h.move rfl h.reservePos_le le_rfl rfl ?_ ?_
      · intro m' readPos heq
        split_ifs at heq
      · intro m' readPos reservePos heq
        split_ifs at heq
  | loadReadPos i m hpc =>
      refine h.move rfl h.reservePos_le le_rfl rfl ?_ (by simp)
      intro m' readPos heq
      simp only [SendPc.loadReservePos.injEq] at heq
      exact heq.2.ge
  | checkSpace i m readPos hpc =>
      have hle := h.loaded i m readPos hpc
      rw [Producers.checkSpace]
      split_ifs with hfull
      · exact h.move rfl h.reservePos_le le_rfl rfl (by simp) (by simp)
      · refine h.move rfl h.reservePos_le le_rfl rfl (by simp) ?_
        intro m' readPos' reservePos' heq
        simp only [SendPc.reserving.injEq] at heq
        obtain ⟨rfl, rfl, rfl⟩ := heq
        exact ⟨hle, hle.trans (h.readPos_le.trans hr.commitPos_le), not_lt.1 hfull⟩
  | retry i b m readPos reservePos hpc =>
      exact h.move rfl h.reservePos_le le_rfl rfl (by simp) (by simp)
  | win i m readPos hpc =>
      obtain ⟨hread, hle, hspace⟩ := h.reserving i m readPos _ hpc
      have hfar : s.shared.reservePos ≤ readPos + bufferSize := by
        simpa [winsStale, hpc] using ha
      rw [freeSpace_eq h64 hle hfar] at hspace
      refine h.move rfl ?_ le_rfl rfl (by simp) (by simp)
      show s.shared.reservePos +
        (paddingSizeAt bufferSize s.shared.reservePos (messageSize m) + messageSize m) ≤ _
      omega
  | write i r w todo hpc => exact h.move rfl h.reservePos_le le_rfl rfl (by simp) (by simp)
  | wait i b => exact h
  | commit i r hpc heq =>
      have hlt := (hr.fits r (hr.writing i r (by rw [hpc]; rfl)).1).myBegin_lt
      refine h.move rfl h.reservePos_le ?_ rfl (by simp) (by simp)
      rw [heq]
      exact hlt.le

omit [DecidableEq ι] in
/-- Steps of the consumer that do not store to `readPos`. -/
theorem moveRecv {recv : RecvPc} {reads : List (ℕ × ℕ)} (hrecv : recv.InWindow s.shared) :
    Window bufferSize { s with recv := recv, reads := reads } :=
  ⟨h.readPos_mod, h.readPos_le, h.reservePos_le, h.loaded, h.reserving, hrecv⟩

omit [DecidableEq ι] in
/-- The store to `readPos` advances it to a multiple of eight that is at most `commitPos`. -/
theorem release {value : ℕ} (hle : s.shared.readPos ≤ value) (hcommit : value ≤ s.shared.commitPos)
    (hmod : value % 8 = 0) (result : Option (Option Message)) :
    Window bufferSize (s.release value result) := by
  have hreserve := h.reservePos_le
  have hshared : (s.release value result).toProducers = s.toProducers.storeReadPos value := by
    cases result <;> rfl
  refine ⟨?_, ?_, ?_, ?_, ?_, ?_⟩
  · rw [hshared]
    exact hmod
  · rw [hshared]
    exact hcommit
  · rw [hshared]
    show s.shared.reservePos ≤ value + bufferSize
    omega
  · rw [hshared]
    intro i m readPos hi
    exact (h.loaded i m readPos hi).trans hle
  · rw [hshared]
    intro i m readPos reservePos hi
    obtain ⟨hread, hrest⟩ := h.reserving i m readPos reservePos hi
    exact ⟨hread.trans hle, hrest⟩
  · cases result <;> trivial

omit [DecidableEq ι] in
/-- **The steps of the consumer keep the window.** -/
theorem receive (h8 : bufferSize % 8 = 0) (hpos : 0 < bufferSize) (interestedType : MessageType) :
    Window bufferSize (recvStep bufferSize interestedType s) := by
  have hrecv := h.recv
  cases hp : s.recv with
  | idle result =>
      rw [recvStep, hp]
      exact h.moveRecv trivial
  | loadReadPos =>
      rw [recvStep, hp]
      exact h.moveRecv rfl
  | loadCommitPos readPos =>
      rw [hp] at hrecv
      have hread : readPos = s.shared.readPos := hrecv
      have hle := h.readPos_le
      have htail := tailSpace_ge h8 hpos h.readPos_mod
      simp only [recvStep, hp, State.peek]
      split_ifs with hempty hshort
      · exact h.moveRecv trivial
      · -- no position of a record is less than a header away from the end of the ring
        rw [hread] at hshort
        omega
      · exact h.moveRecv ⟨hread, by omega, le_rfl⟩
  | readHeader readPos commitPos =>
      rw [hp] at hrecv
      obtain ⟨hread, -, hcommit⟩ := hrecv
      have hmod := h.readPos_mod
      rw [← hread] at hmod
      simp only [recvStep, hp, State.readBuffer]
      generalize MessageHeader.ofBytes _ = header
      refine h.moveRecv ?_
      have htotal := alignUp_mod (u32 (8 + header.payloadSize))
      simp only [afterHeader]
      generalize alignUp (u32 (8 + header.payloadSize)) alignment = totalSize at htotal ⊢
      split_ifs with hlarge
      · trivial
      all_goals
        simp only [RecvPc.InWindow]
        omega
  | readPayload readPos nextReadPos type payloadSize =>
      rw [hp] at hrecv
      obtain ⟨hread, hle, hrest⟩ := hrecv
      simp only [recvStep, hp, State.readBuffer]
      exact h.moveRecv ⟨hread.ge.trans hle, hrest⟩
  | storeReadPos value result =>
      rw [hp] at hrecv
      obtain ⟨hle, hcommit, hmod⟩ := hrecv
      rw [recvStep, hp]
      exact h.release hle hcommit hmod result

end Window

/-! ### Nothing unread is overwritten -/

variable {bufferSize : ℕ} {interestedType : MessageType} {s : State ι}

theorem ranges_of_small (h : (smallSystem ι bufferSize interestedType).Reachable s) :
    Ranges bufferSize s.toProducers :=
  ranges_of_reachable ((systemSimulation bufferSize interestedType).reachable h)

theorem window_of_fresh (h8 : bufferSize % 8 = 0) (hpos : 0 < bufferSize)
    (h64 : bufferSize < 2 ^ 64) (h : (freshSystem ι bufferSize interestedType).Reachable s) :
    Window bufferSize s := by
  refine h.invariant ?_ ?_
  · intro s hs
    rw [show s = State.initial from hs]
    refine ⟨rfl, le_rfl, Nat.zero_le _, ?_, ?_, trivial⟩
    · simp [State.initial, Producers.initial]
    · simp [State.initial, Producers.initial]
  · intro s a s' hr hI hs
    obtain ⟨ha, hs⟩ := Automaton.restrict_step_eq_some.1 hs
    obtain ⟨-, hs⟩ := Automaton.restrict_step_eq_some.1 hs
    cases a with
    | send a =>
        obtain ⟨p, hp, rfl⟩ := Option.map_eq_some_iff.1 hs
        exact hI.send h64 (ranges_of_small hr.of_restrict) (ha a rfl) (effect_of_sendStep hp)
    | receive =>
        rw [← Option.some.inj hs]
        exact hI.receive h8 hpos interestedType

/-- **Nothing unread is overwritten**, as long as no producer wins a range with positions that are too
far apart. -/
theorem no_overwrite_of_fresh (h8 : bufferSize % 8 = 0) (hpos : 0 < bufferSize)
    (h64 : bufferSize < 2 ^ 64) (h : (freshSystem ι bufferSize interestedType).Reachable s) :
    NoOverwrite bufferSize s := by
  have hwindow := window_of_fresh h8 hpos h64 h
  have hranges := ranges_of_small h.of_restrict
  refine ⟨hwindow.readPos_le, hranges.commitPos_le, hwindow.reservePos_le, ?_⟩
  intro r hr p q hbegin hend hread hq
  have hle := (hranges.won.bounds hr).2.2
  have hreserve := hwindow.reservePos_le
  exact (CyclicBuffer.mod_ne_mod (by omega) (by omega)).symm

/-- A message without payload. -/
def empty : Message := ⟨.text, []⟩

/-- The steps of a `TrySend` that succeeds at once, for a message without payload. -/
def sendEmpty (i : ι) : List (Action ι) :=
  [.send (.trySend i empty), .send (.loadReadPos i), .send (.loadReservePos i),
    .send (.compareExchangeReserve i false), .send (.write i), .send (.compareExchangeCommit i false)]

/-- The steps of a `TryReceive` of such a message. -/
def receiveEmpty : List (Action ι) := List.replicate 5 .receive

/-- A ring of `8` bytes.  A record is sent and received; a second one has to wait for the first. -/
theorem no_overwrite_of_fresh_two_records :
    ∃ s : State (Fin 2), (freshSystem (Fin 2) 8 .all).run State.initial
        (sendEmpty 0 ++ receiveEmpty ++ sendEmpty 1) = some s ∧
      s.shared.reservePos = 16 ∧ NoOverwrite 8 s := by
  obtain ⟨s, hs⟩ : ∃ s, (freshSystem (Fin 2) 8 .all).run State.initial
      (sendEmpty 0 ++ receiveEmpty ++ sendEmpty 1) = some s := ⟨_, rfl⟩
  have hend : s.shared.reservePos = 16 := by
    obtain rfl := Option.some_inj.1 hs
    rfl
  exact ⟨s, hs, hend, no_overwrite_of_fresh (by decide) (by decide) (by decide)
    (Automaton.Reachable.of_run rfl hs)⟩

/-- Producer `i` loads `readPos = 0`; producer `j` sends, the consumer receives, and producer `j` sends
again; producer `i` loads `reservePos = 16` and wins `[16, 24)`, which shares its cells with the unread
record at `[8, 16)`. -/
def staleRun (i j : ι) : List (Action ι) :=
  [Action.send (.trySend i empty), .send (.loadReadPos i)] ++ sendEmpty j ++ receiveEmpty ++
    sendEmpty j ++ [Action.send (.loadReservePos i), .send (.compareExchangeReserve i false)]

/-- **An unread record can be overwritten.** -/
theorem stale_win_overwrites :
    ¬ ∀ s : State (Fin 2), (smallSystem (Fin 2) 8 .all).Reachable s → NoOverwrite 8 s := by
  intro hall
  obtain ⟨s, hs⟩ : ∃ s, (smallSystem (Fin 2) 8 .all).run State.initial (staleRun 0 1) = some s :=
    ⟨_, rfl⟩
  have hend : s.shared.readPos = 8 ∧ s.shared.reservePos = 24 := by
    obtain rfl := Option.some_inj.1 hs
    exact ⟨rfl, rfl⟩
  have hle := (hall s (Automaton.Reachable.of_run rfl hs)).reservePos_le
  omega

end MpscQueue
