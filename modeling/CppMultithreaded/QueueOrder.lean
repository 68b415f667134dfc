/-
**The memory orders of the shared-memory queue.**

The ring is plain memory, and the parties hand its bytes over to each other through the positions: a
producer publishes what it has written by the compare-exchange on `commitPos`, and the consumer gives
back what it has read by the store to `readPos`.  The operations on the positions, with the memory orders
that the source passes to them, and the accesses to the ring form a log.

The atomic operations interleave, as in the other modules.  What is asked here is whether they order the
accesses to the ring: not only that no two parties are about to access the same byte at once, but that of
any two conflicting accesses of a run one happens before the other, also where the ring has been passed
many times in between.  As for delivery, the size of the ring is a multiple of 8 and the messages are
texts, numbers and stops with short payloads.

Main definitions:

* `MpscQueue.Orders`, `MpscQueue.sourceOrders` — the memory orders, and those of the source;
* `MpscQueue.OrderedState`, `MpscQueue.orderedSystem` — the queue with its log;
* `MpscQueue.Placed` — what an access of the log stands for, and who knows it;
* `MpscQueue.Advance` — what a step does to the positions, and by which operation.

Main results:

* `MpscQueue.Placed.advance` — the knowledge keeps up with the positions;
* `MpscQueue.knows_of_conflicts` — **a party knows the accesses that it is about to conflict with**;
* `MpscQueue.accesses_ordered` — **the ring has no data race**, exactly if four of the nine orders
  acquire and release.
-/

import CppMultithreaded.HappensBefore
import CppMultithreaded.QueueRace

set_option relaxedAutoImplicit false
set_option autoImplicit false

namespace MpscQueue

open HappensBefore

/-! ### The log of the queue -/

/-- The atomic positions. -/
inductive Position
  | readPos
  | reservePos
  | commitPos
  deriving DecidableEq, Repr

/-- The memory orders of the operations on the positions. -/
structure Orders where
  /-- The load of `readPos` in `TrySend`. -/
  loadReadPos : MemoryOrder
  loadReservePos : MemoryOrder
  /-- The compare-exchange on `reservePos`. -/
  reserve : MemoryOrder
  reserveFailure : MemoryOrder
  /-- The compare-exchange on `commitPos`. -/
  commit : MemoryOrder
  commitFailure : MemoryOrder
  /-- The load of `readPos` in `TryReceive`. -/
  receiveReadPos : MemoryOrder
  loadCommitPos : MemoryOrder
  storeReadPos : MemoryOrder
  deriving DecidableEq, Repr

/-- The memory orders of the source. -/
def sourceOrders : Orders :=
  { loadReadPos := .acquire
    loadReservePos := .acquire
    reserve := .acqRel
    reserveFailure := .acquire
    commit := .release
    commitFailure := .acquire
    receiveReadPos := .acquire
    loadCommitPos := .acquire
    storeReadPos := .release }

/-- The events of the producers and of the consumer, which is `none`. -/
abbrev QueueEvent (ι : Type*) := Event (Option ι) Access Position

/-- The queue, and the log of the run. -/
structure OrderedState (ι : Type*) extends State ι where
  log : List (QueueEvent ι)

variable {ι : Type*}

/-- The operation that a step of a producer performs. -/
def Orders.sendEvent? (orders : Orders) (s : Producers ι) : SendAction ι → Option (QueueEvent ι)
  | .trySend _ _ => none
  | .loadReadPos i => some ⟨some i, .load .readPos orders.loadReadPos⟩
  | .loadReservePos i => some ⟨some i, .load .reservePos orders.loadReservePos⟩
  | .compareExchangeReserve i spurious =>
      match s.pc i with
      | .reserving _ _ reservePos =>
          some ⟨some i,
            if spurious ∨ s.shared.reservePos ≠ reservePos then .load .reservePos orders.reserveFailure
            else .readModifyWrite .reservePos orders.reserve⟩
      | _ => none
  | .write i => (s.pc i).access?.map fun c => ⟨some i, .access c⟩
  | .compareExchangeCommit i spurious =>
      match s.pc i with
      | .writing r _ =>
          some ⟨some i,
            if spurious ∨ s.shared.commitPos ≠ r.myBegin then .load .commitPos orders.commitFailure
            else .readModifyWrite .commitPos orders.commit⟩
      | _ => none

/-- The operation that the next step of the consumer performs. -/
def Orders.recvEvent? (orders : Orders) (bufferSize : ℕ) : RecvPc → Option (QueueEvent ι)
  | .loadReadPos => some ⟨none, .load .readPos orders.receiveReadPos⟩
  | .loadCommitPos _ => some ⟨none, .load .commitPos orders.loadCommitPos⟩
  | .storeReadPos _ _ => some ⟨none, .store .readPos orders.storeReadPos⟩
  | p => (p.access? bufferSize).map fun c => ⟨none, .access c⟩

/-- The operation that a step performs. -/
def Orders.event? (orders : Orders) (bufferSize : ℕ) (s : State ι) : Action ι → Option (QueueEvent ι)
  | .send a => orders.sendEvent? s.toProducers a
  | .receive => orders.recvEvent? bufferSize s.recv

/-- Everything is as `InitializeIfNeeded` leaves it, before the first event. -/
def OrderedState.initial : OrderedState ι := { State.initial with log := [] }

variable [DecidableEq ι]

/-- The automaton `sendableSystem` with the memory orders `orders`. -/
def orderedSystem (ι : Type*) [DecidableEq ι] (bufferSize : ℕ) (interestedType : MessageType)
    (orders : Orders) : Automaton (OrderedState ι) (Action ι) where
  init s := s = OrderedState.initial
  step s a :=
    ((sendableSystem ι bufferSize interestedType).step s.toState a).map fun s' =>
      { s' with log := s.log ++ (orders.event? bufferSize s.toState a).toList }

/-- Without the log it is the queue. -/
def orderedSimulation (bufferSize : ℕ) (interestedType : MessageType) (orders : Orders) :
    Automaton.Simulation (orderedSystem ι bufferSize interestedType orders)
      (sendableSystem ι bufferSize interestedType) where
  abs s := s.toState
  init s h := by
    rw [show s = OrderedState.initial from h]
    rfl
  step s a s' _ h := by
    obtain ⟨p, hp, rfl⟩ := Option.map_eq_some_iff.1 h
    exact Automaton.Steps.single (a := a) hp

/-! ### What the parties rely on -/

/-- A producer writes only where the positions below this one have been given back, one length of the
ring before. -/
def SendPc.freed (bufferSize : ℕ) : SendPc ι → ℕ
  | .loadReservePos _ readPos | .reserving _ readPos _ => readPos
  | .writing r _ => r.myEnd - bufferSize
  | .idle _ | .loadReadPos _ => 0

/-- The consumer reads only records that start below this position. -/
def RecvPc.limit : RecvPc → ℕ
  | .readHeader _ commitPos => commitPos
  | .readPayload _ nextReadPos _ _ => nextReadPos
  | .storeReadPos value _ => value
  | .idle _ | .loadReadPos | .loadCommitPos _ => 0

variable {bufferSize : ℕ} {interestedType : MessageType} {s s' : State ι}

omit [DecidableEq ι] in
theorem Ring.freed_le (h : Ring bufferSize s) (i : ι) :
    (s.pc i).freed bufferSize ≤ s.shared.readPos := by
  cases hp : s.pc i with
  | idle result => exact Nat.zero_le _
  | loadReadPos m => exact Nat.zero_le _
  | loadReservePos m readPos => exact h.window.loaded i m readPos hp
  | reserving m readPos reservePos => exact (h.window.reserving i m readPos reservePos hp).1
  | writing r todo =>
      obtain ⟨hr, -⟩ := h.ranges.writing i r (by rw [hp]; rfl)
      have hend := (h.ranges.won.bounds hr).2.2
      have hfar := h.window.reservePos_le
      rw [SendPc.freed]
      omega

omit [DecidableEq ι] in
theorem Ring.limit_le (h : Ring bufferSize s) : s.recv.limit ≤ s.shared.commitPos := by
  have hrecv := h.window.recv
  cases hp : s.recv with
  | readHeader readPos commitPos =>
      rw [hp] at hrecv
      exact hrecv.2.2
  | readPayload readPos nextReadPos type payloadSize =>
      rw [hp] at hrecv
      exact hrecv.2.2.1
  | storeReadPos value result =>
      rw [hp] at hrecv
      exact hrecv.2.1
  | _ => exact Nat.zero_le _

/-! ### The invariant -/

/-- Event `n` of the log is the access `c` of party `p`.  It stands for the positions from `pos` on, and
what its record has been published to, or given back to, knows it. -/
structure Placed (bufferSize : ℕ) (s : State ι) (log : List (QueueEvent ι)) (n : ℕ) (p : Option ι)
    (c : Access) (pos : ℕ) : Prop where
  stands : c.StandsFor bufferSize pos
  write : ∀ i, p = some i → ∃ r ∈ s.won, r.owner = i ∧ r.myBegin ≤ pos ∧ pos + c.size ≤ r.myEnd ∧
    (r.myBegin < s.shared.commitPos → Carried log .commitPos n) ∧
    (r.myBegin < s.recv.limit → Knows log none n)
  read : p = none → c.isWrite = false ∧ pos + c.size ≤ s.shared.commitPos
  released : pos < s.shared.readPos → Carried log .readPos n
  freed : ∀ i, pos < (s.pc i).freed bufferSize → Knows log (some i) n

/-- What a step does to the positions that the parties rely on, and by which operation. -/
structure Advance (bufferSize : ℕ) (s : State ι) (e : Option (QueueEvent ι)) (s' : State ι) :
    Prop where
  won : s.won ⊆ s'.won
  commitPos_le : s.shared.commitPos ≤ s'.shared.commitPos
  commitPos : ∀ r ∈ s.won, r.myBegin < s'.shared.commitPos → r.myBegin < s.shared.commitPos ∨
    ∃ x ∈ e, x.thread = some r.owner ∧ x.op.Releases .commitPos
  limit : s'.recv.limit ≤ s.recv.limit ∨ s'.recv.limit ≤ s.shared.commitPos ∧
    ∃ x ∈ e, x.thread = none ∧ x.op.Acquires .commitPos
  readPos : (s'.shared.readPos = s.shared.readPos ∧ ∀ x ∈ e, ¬x.op.Stores .readPos) ∨
    s'.shared.readPos ≤ s.recv.limit ∧ ∃ x ∈ e, x.thread = none ∧ x.op.Releases .readPos
  freed : ∀ i, (s'.pc i).freed bufferSize ≤ (s.pc i).freed bufferSize ∨
    (s'.pc i).freed bufferSize ≤ s.shared.readPos ∧
      ∃ x ∈ e, x.thread = some i ∧ x.op.Acquires .readPos
  not_stores : ∀ x ∈ e, ¬x.op.Stores .commitPos

omit [DecidableEq ι] in
/-- **The knowledge keeps up with the positions.** -/
theorem Placed.advance {log : List (QueueEvent ι)} {e : Option (QueueEvent ι)} {n : ℕ} {p : Option ι}
    {c : Access} {pos : ℕ} (h : Placed bufferSize s log n p c pos)
    (hn : log[n]? = some ⟨p, .access c⟩) (ha : Advance bufferSize s e s') :
    Placed bufferSize s' (log ++ e.toList) n p c pos := by
  have hself : Knows log p n := knows_of_getElem? hn
  -- what was known is known
  have hknows : ∀ {q}, Knows log q n → Knows (log ++ e.toList) q n := by
    intro q hq
    cases e with
    | none => rwa [Option.toList_none, List.append_nil]
    | some x => exact hq.concat
  have hcarried : ∀ {a}, (∀ x ∈ e, ¬x.op.Stores a) → Carried log a n →
      Carried (log ++ e.toList) a n := by
    intro a hstores hq
    cases e with
    | none => rwa [Option.toList_none, List.append_nil]
    | some x => exact hq.concat (hstores x rfl)
  -- the consumer knows what lies below its limit
  have hlimit : pos < s.recv.limit → Knows log none n := by
    intro hlt
    cases p with
    | none => exact hself
    | some i =>
        obtain ⟨r, -, -, hbegin, -, -, hlimit⟩ := h.write i rfl
        exact hlimit (by omega)
  refine ⟨h.stands, ?_, ?_, ?_, ?_⟩
  · rintro i rfl
    obtain ⟨r, hr, rfl, hbegin, hend, hcommit, hread⟩ := h.write i rfl
    refine ⟨r, ha.won hr, rfl, hbegin, hend, ?_, ?_⟩
    · intro hlt
      rcases ha.commitPos r hr hlt with hold | ⟨x, rfl, hx, hreleases⟩
      · exact hcarried ha.not_stores (hcommit hold)
      · exact Knows.carried (hx ▸ hself) hreleases
    · intro hlt
      rcases ha.limit with hle | ⟨hle, x, rfl, hx, hacquires⟩
      · exact hknows (hread (by omega))
      · exact hx ▸ (hcommit (by omega)).knows hacquires
  · intro hp
    obtain ⟨hread, hle⟩ := h.read hp
    exact ⟨hread, hle.trans ha.commitPos_le⟩
  · intro hlt
    rcases ha.readPos with ⟨heq, hstores⟩ | ⟨hle, x, rfl, hx, hreleases⟩
    · rw [heq] at hlt
      exact hcarried hstores (h.released hlt)
    · exact Knows.carried (hx ▸ hlimit (by omega)) hreleases
  · intro i hlt
    rcases ha.freed i with hle | ⟨hle, x, rfl, hx, hacquires⟩
    · exact hknows (h.freed i (by omega))
    · exact hx ▸ (h.released (by omega)).knows hacquires

/-! ### What a party is about to conflict with -/

/-- A byte of an access stands for a byte of its block of positions. -/
theorem exists_byte {c : Access} {pos x : ℕ} (h : c.StandsFor bufferSize pos) (hx : c.Covers x) :
    ∃ q, pos ≤ q ∧ q < pos + c.size ∧ q % bufferSize = x % bufferSize := by
  obtain ⟨hlo, hhi⟩ := hx
  have haddress := h (by omega)
  obtain ⟨k, rfl⟩ := Nat.exists_eq_add_of_le hlo
  refine ⟨pos + k, by omega, by omega, ?_⟩
  rw [haddress, Nat.mod_add_mod]

/-- Accesses that conflict have a byte in common, or are a length of the ring apart. -/
theorem bytes_of_conflicts {c d : Access} {pos pos' : ℕ} (hc : c.StandsFor bufferSize pos)
    (hd : d.StandsFor bufferSize pos') (h : c.Conflicts d) :
    ∃ q q', pos ≤ q ∧ q < pos + c.size ∧ pos' ≤ q' ∧ q' < pos' + d.size ∧
      (q = q' ∨ q + bufferSize ≤ q' ∨ q' + bufferSize ≤ q) := by
  obtain ⟨-, x, hx, hx'⟩ := h
  obtain ⟨q, hlo, hhi, hmod⟩ := exists_byte hc hx
  obtain ⟨q', hlo', hhi', hmod'⟩ := exists_byte hd hx'
  have hcongr : q % bufferSize = q' % bufferSize := hmod.trans hmod'.symm
  refine ⟨q, q', hlo, hhi, hlo', hhi', ?_⟩
  rcases Nat.lt_trichotomy q q' with hlt | heq | hgt
  · refine Or.inr (Or.inl ?_)
    by_contra hnear
    exact CyclicBuffer.mod_ne_mod hlt (not_le.1 hnear) hcongr
  · exact Or.inl heq
  · refine Or.inr (Or.inr ?_)
    by_contra hnear
    exact CyclicBuffer.mod_ne_mod hgt (not_le.1 hnear) hcongr.symm

omit [DecidableEq ι] in
/-- A producer that is about to write relies on the range that it has won. -/
theorem freed_of_writes (hring : Ring bufferSize s) {r : Reservation ι} (hr : r ∈ s.won)
    (hcommit : s.shared.commitPos ≤ r.myBegin) :
    (s.pc r.owner).freed bufferSize = r.myEnd - bufferSize := by
  have hlt := (hring.ranges.fits r hr).myBegin_lt
  rcases hring.ranges.pending r hr with hmem | hrange
  · have hend := (hring.ranges.mem_committed_iff hr).1 hmem
    omega
  · cases hp : s.pc r.owner with
    | writing r' todo =>
        rw [hp] at hrange
        obtain rfl := Option.some.inj hrange
        rfl
    | _ => simp [hp, SendPc.range?] at hrange

omit [DecidableEq ι] in
/-- The range that the consumer is about to read starts below its limit. -/
theorem limit_of_reads (hring : Ring bufferSize s) (hd : Delivered bufferSize interestedType s)
    {d : Access} (ha : d ∈ s.recv.access? bufferSize) {r : Reservation ι}
    (hr : r ∈ s.committed[s.released]?) : r.myBegin < s.recv.limit := by
  have hwindow := hring.window.recv
  have hknows := hd.recv
  cases hp : s.recv with
  | readHeader readPos commitPos =>
      rw [hp] at hwindow
      obtain ⟨hread, hlt, hcommit⟩ := hwindow
      obtain ⟨r', hr', hpos⟩ := hd.exists_next hring (by omega)
      obtain rfl := Option.mem_unique hr hr'
      rw [Reservation.messagePos] at hpos
      rw [RecvPc.limit]
      omega
  | readPayload readPos nextReadPos type payloadSize =>
      rw [hp] at hknows
      obtain ⟨r', hr', -, rfl, -⟩ := hknows
      obtain rfl := Option.mem_unique hr hr'
      exact (hring.ranges.fits r (hring.ranges.isPrefix.subset (Ring.mem_committed hr))).myBegin_lt
  | _ => simp [hp, RecvPc.access?] at ha

omit [DecidableEq ι] in
/-- **A party knows the accesses that it is about to conflict with.** -/
theorem knows_of_conflicts (hring : Ring bufferSize s) (hd : Delivered bufferSize interestedType s)
    {log : List (QueueEvent ι)} {n : ℕ} {p q : Option ι} {c d : Access} {pos : ℕ}
    (h : Placed bufferSize s log n p c pos) (ha : d ∈ s.access? bufferSize q) (hpq : p ≠ q)
    (hcd : c.Conflicts d) : Knows log q n := by
  have hread := hring.window.readPos_le
  have hfar := hring.window.reservePos_le
  cases q with
  | some j =>
      obtain ⟨r, hr, rfl, hcommit, pos', hstands, hbegin, hend⟩ :=
        standsFor_of_writes hring.ranges hring.written ha
      obtain ⟨x, y, hx, hx', hy, hy', hxy⟩ := bytes_of_conflicts h.stands hstands hcd
      -- the old access is a length of the ring below the new one
      have hbelow : x + bufferSize ≤ y := by
        cases p with
        | none =>
            obtain ⟨-, hle⟩ := h.read rfl
            omega
        | some i =>
            obtain ⟨r', hr', rfl, hbegin', hend', -⟩ := h.write i rfl
            have hreserve := (hring.ranges.won.bounds hr').2.2
            rcases hring.ranges.won.trichotomy hr hr' with rfl | hle | hle
            · exact absurd rfl hpq
            · omega
            · omega
      refine h.freed r.owner ?_
      rw [freed_of_writes hring hr hcommit]
      omega
  | none =>
      obtain ⟨-, r, hr, pos', hstands, hread', hbegin, hend⟩ := standsFor_of_reads hring hd ha
      have hlimit := limit_of_reads hring hd ha hr
      have hwon := hring.ranges.isPrefix.subset (Ring.mem_committed hr)
      obtain ⟨x, y, hx, hx', hy, hy', hxy⟩ := bytes_of_conflicts h.stands hstands hcd
      obtain ⟨i, rfl⟩ := Option.ne_none_iff_exists'.1 hpq
      obtain ⟨r', hr', rfl, hbegin', hend', -, hknows⟩ := h.write i rfl
      have hreserve := (hring.ranges.won.bounds hr').2.2
      refine hknows ?_
      rcases hring.ranges.won.trichotomy hwon hr' with rfl | hle | hle
      · exact hlimit
      · omega
      · have hlt := (hring.ranges.fits r' hr').myBegin_lt
        omega

omit [DecidableEq ι] in
/-- A new access is above everything that the other parties rely on. -/
theorem placed_of_access (hring : Ring bufferSize s) (hd : Delivered bufferSize interestedType s)
    (hring' : Ring bufferSize s') (hwon : s'.won = s.won)
    (hcommit : s'.shared.commitPos = s.shared.commitPos)
    (hread : s'.shared.readPos = s.shared.readPos) {p : Option ι} {c : Access}
    (ha : c ∈ s.access? bufferSize p) (log : List (QueueEvent ι)) (n : ℕ) :
    ∃ pos, Placed bufferSize s' log n p c pos := by
  have hle := hring.window.readPos_le
  have hlimit := hring'.limit_le
  have hfreed := hring'.freed_le
  rw [hcommit] at hlimit
  rw [hread] at hfreed
  cases p with
  | some i =>
      obtain ⟨r, hr, rfl, hbegin, pos, hstands, hpos, hend⟩ :=
        standsFor_of_writes hring.ranges hring.written ha
      refine ⟨pos, hstands, ?_, by simp, ?_, ?_⟩
      · rintro i heq
        obtain rfl := Option.some.inj heq
        refine ⟨r, hwon ▸ hr, rfl, hpos, hend, ?_, ?_⟩
        · omega
        · omega
      · omega
      · intro j hlt
        have := hfreed j
        omega
  | none =>
      obtain ⟨hisRead, r, hr, pos, hstands, hlo, -, hend⟩ := standsFor_of_reads hring hd ha
      have hcommitted := (hring.ranges.committed.bounds (Ring.mem_committed hr)).2.2
      refine ⟨pos, hstands, by simp, ?_, ?_, ?_⟩
      · intro _
        exact ⟨hisRead, by omega⟩
      · omega
      · intro j hlt
        have := hfreed j
        omega

/-! ### What a step does to the positions -/

/-- The orders with which the positions order the accesses to the ring. -/
structure Orders.Sound (orders : Orders) : Prop where
  loadReadPos : orders.loadReadPos.acquires = true
  commit : orders.commit.releases = true
  loadCommitPos : orders.loadCommitPos.acquires = true
  storeReadPos : orders.storeReadPos.releases = true

theorem sound_sourceOrders : sourceOrders.Sound := ⟨rfl, rfl, rfl, rfl⟩

omit [DecidableEq ι] in
/-- A producer stores to no position. -/
theorem not_stores_of_sendEvent? {orders : Orders} {s : Producers ι} {a : SendAction ι}
    {e : QueueEvent ι} (he : e ∈ orders.sendEvent? s a) (x : Position) : ¬e.op.Stores x := by
  cases a with
  | trySend i m => simp [Orders.sendEvent?] at he
  | loadReadPos i =>
      obtain rfl := Option.some.inj he
      exact id
  | loadReservePos i =>
      obtain rfl := Option.some.inj he
      exact id
  | compareExchangeReserve i spurious =>
      simp only [Orders.sendEvent?] at he
      split at he
      · obtain rfl := Option.some.inj he
        split_ifs
        · exact id
        · exact id
      · simp at he
  | write i =>
      obtain ⟨c, -, rfl⟩ := Option.map_eq_some_iff.1 he
      exact id
  | compareExchangeCommit i spurious =>
      simp only [Orders.sendEvent?] at he
      split at he
      · obtain rfl := Option.some.inj he
        split_ifs
        · exact id
        · exact id
      · simp at he

/-- A step of a producer that moves it to a program point where it relies on nothing more. -/
theorem Advance.goto {e : Option (QueueEvent ι)} {p : Producers ι} {i : ι} {pc : SendPc ι}
    (hstores : ∀ x ∈ e, ∀ a, ¬x.op.Stores a) (hwon : s.won ⊆ p.won)
    (hcommit : p.shared.commitPos = s.shared.commitPos)
    (hread : p.shared.readPos = s.shared.readPos) (hpc : p.pc = Function.update s.pc i pc)
    (hfreed : pc.freed bufferSize ≤ (s.pc i).freed bufferSize) :
    Advance bufferSize s e { s with toProducers := p } := by
  refine ⟨hwon, hcommit.ge, ?_, Or.inl le_rfl, ?_, ?_, fun x hx => hstores x hx _⟩
  · intro r _ hlt
    exact Or.inl (hcommit ▸ hlt)
  · exact Or.inl ⟨hread, fun x hx => hstores x hx _⟩
  · intro j
    refine Or.inl ?_
    show (p.pc j).freed bufferSize ≤ _
    rw [hpc]
    rcases eq_or_ne j i with rfl | hne
    · rwa [Function.update_self]
    · rw [Function.update_of_ne hne]

/-- The steps of the producers. -/
theorem Advance.send {orders : Orders} (ho : orders.Sound) (h64 : bufferSize < 2 ^ 64)
    (hring : Ring bufferSize s) {p : Producers ι} {a : SendAction ι}
    (ha : winsStale bufferSize s.toProducers a = false)
    (he : SendEffect bufferSize s.toProducers a p) :
    Advance bufferSize s (orders.sendEvent? s.toProducers a) { s with toProducers := p } := by
  have hstores : ∀ x ∈ orders.sendEvent? s.toProducers a, ∀ y, ¬x.op.Stores y :=
    fun x hx y => not_stores_of_sendEvent? hx y
  cases he with
  | call i m result hpc =>
      refine Advance.goto hstores (List.Subset.refl _) rfl rfl rfl ?_
      split_ifs
      · exact Nat.zero_le _
      · exact Nat.zero_le _
  | loadReadPos i m hpc =>
      refine ⟨List.Subset.refl _, le_rfl, fun _ _ => Or.inl, Or.inl le_rfl, ?_, ?_, ?_⟩
      · exact Or.inl ⟨rfl, fun x hx => hstores x hx _⟩
      · intro j
        rcases eq_or_ne j i with rfl | hne
        · refine Or.inr ⟨?_, _, rfl, rfl, rfl, ho.loadReadPos⟩
          show (Function.update s.pc j _ j).freed bufferSize ≤ _
          rw [Function.update_self]
          exact le_rfl
        · refine Or.inl ?_
          show (Function.update s.pc i _ j).freed bufferSize ≤ _
          rw [Function.update_of_ne hne]
      · exact fun x hx => hstores x hx _
  | checkSpace i m readPos hpc =>
      rw [Producers.checkSpace]
      split_ifs with hfull
      · exact Advance.goto hstores (List.Subset.refl _) rfl rfl rfl (Nat.zero_le _)
      · refine Advance.goto hstores (List.Subset.refl _) rfl rfl rfl ?_
        rw [hpc]
        exact le_rfl
  | retry i b m readPos reservePos hpc =>
      exact Advance.goto hstores (List.Subset.refl _) rfl rfl rfl (Nat.zero_le _)
  | win i m readPos hpc =>
      obtain ⟨hread, hle, hspace⟩ := hring.window.reserving i m readPos _ hpc
      have hfar : s.shared.reservePos ≤ readPos + bufferSize := by
        simpa [winsStale, hpc] using ha
      rw [freeSpace_eq h64 hle hfar] at hspace
      refine Advance.goto hstores (List.subset_append_left _ _) rfl rfl rfl ?_
      rw [hpc]
      show s.shared.reservePos +
        (paddingSizeAt bufferSize s.shared.reservePos (messageSize m) + messageSize m) - bufferSize ≤
          readPos
      omega
  | write i r w todo hpc =>
      refine Advance.goto hstores (List.Subset.refl _) rfl rfl rfl ?_
      rw [hpc]
      exact le_rfl
  | wait i b =>
      have hpc : s.pc = Function.update s.pc i (s.pc i) := (Function.update_eq_self i s.pc).symm
      exact Advance.goto hstores (List.Subset.refl _) rfl rfl hpc le_rfl
  | commit i r hpc heq =>
      obtain ⟨hr, rfl, -⟩ := hring.ranges.writing i r (by rw [hpc]; rfl)
      have hlt := (hring.ranges.fits r hr).myBegin_lt
      have hevent : orders.sendEvent? s.toProducers (.compareExchangeCommit r.owner false) =
          some ⟨some r.owner, .readModifyWrite .commitPos orders.commit⟩ := by
        simp [Orders.sendEvent?, hpc, heq]
      rw [hevent] at hstores ⊢
      refine ⟨List.Subset.refl _, ?_, ?_, Or.inl le_rfl, ?_, ?_, ?_⟩
      · show s.shared.commitPos ≤ r.myEnd
        omega
      · -- what the commit publishes is its own range
        intro r' hr' hbelow
        have hbelow' : r'.myBegin < r.myEnd := hbelow
        rcases hring.ranges.won.trichotomy hr hr' with rfl | hle | hle
        · exact Or.inr ⟨_, rfl, rfl, rfl, ho.commit⟩
        · omega
        · have hlt' := (hring.ranges.fits r' hr').myBegin_lt
          exact Or.inl (by omega)
      · exact Or.inl ⟨rfl, fun x hx => hstores x hx _⟩
      · intro j
        refine Or.inl ?_
        show (Function.update s.pc r.owner _ j).freed bufferSize ≤ _
        rcases eq_or_ne j r.owner with rfl | hne
        · rw [Function.update_self]
          exact Nat.zero_le _
        · rw [Function.update_of_ne hne]
      · exact fun x hx => hstores x hx _

omit [DecidableEq ι] in
/-- A step of the consumer that stores to no position. -/
theorem Advance.moveRecv {e : Option (QueueEvent ι)} {recv : RecvPc} {reads : List (ℕ × ℕ)}
    (hstores : ∀ x ∈ e, ∀ a, ¬x.op.Stores a)
    (hlimit : recv.limit ≤ s.recv.limit ∨ recv.limit ≤ s.shared.commitPos ∧
      ∃ x ∈ e, x.thread = none ∧ x.op.Acquires .commitPos) :
    Advance bufferSize s e { s with recv := recv, reads := reads } where
  won := List.Subset.refl _
  commitPos_le := le_rfl
  commitPos _ _ := Or.inl
  limit := hlimit
  readPos := Or.inl ⟨rfl, fun x hx => hstores x hx _⟩
  freed _ := Or.inl le_rfl
  not_stores x hx := hstores x hx _

theorem limit_afterHeader (interestedType : MessageType) (header : MessageHeader)
    (readPos commitPos : ℕ) :
    (afterHeader interestedType header readPos commitPos).limit ≤ commitPos := by
  simp only [afterHeader]
  split_ifs with hlarge
  · exact Nat.zero_le _
  all_goals exact not_lt.1 hlarge

omit [DecidableEq ι] in
/-- The steps of the consumer. -/
theorem Advance.receive {orders : Orders} (ho : orders.Sound) (h8 : bufferSize % 8 = 0)
    (hpos : 0 < bufferSize) (hring : Ring bufferSize s) :
    Advance bufferSize s (orders.recvEvent? bufferSize s.recv)
      (recvStep bufferSize interestedType s) := by
  cases hp : s.recv with
  | idle result =>
      rw [recvStep, hp]
      exact Advance.moveRecv (by simp [Orders.recvEvent?, RecvPc.access?]) (Or.inl (Nat.zero_le _))
  | loadReadPos =>
      rw [recvStep, hp]
      refine Advance.moveRecv ?_ (Or.inl (Nat.zero_le _))
      rintro x hx a
      obtain rfl := Option.some.inj hx
      exact id
  | loadCommitPos readPos =>
      have hrecv := hring.window.recv
      have htail := tailSpace_ge h8 hpos hring.window.readPos_mod
      rw [hp] at hrecv
      have hread : readPos = s.shared.readPos := hrecv
      have hstores : ∀ x ∈ orders.recvEvent? bufferSize (.loadCommitPos readPos), ∀ a,
          ¬(x : QueueEvent ι).op.Stores a := by
        intro x hx a
        obtain rfl := Option.some.inj hx
        exact id
      simp only [recvStep, hp, State.peek]
      split_ifs with hempty hshort
      · exact Advance.moveRecv hstores (Or.inl (Nat.zero_le _))
      · rw [hread] at hshort
        omega
      · exact Advance.moveRecv hstores (Or.inr ⟨le_rfl, _, rfl, rfl, rfl, ho.loadCommitPos⟩)
  | readHeader readPos commitPos =>
      simp only [recvStep, hp, State.readBuffer]
      refine Advance.moveRecv ?_ (Or.inl ?_)
      · intro x hx a
        obtain rfl := Option.some.inj hx
        exact id
      · rw [hp]
        exact limit_afterHeader interestedType _ readPos commitPos
  | readPayload readPos nextReadPos type payloadSize =>
      simp only [recvStep, hp, State.readBuffer]
      refine Advance.moveRecv ?_ (Or.inl ?_)
      · intro x hx a
        obtain rfl := Option.some.inj hx
        exact id
      · rw [hp]
        exact le_rfl
  | storeReadPos value result =>
      have hproducers : (s.release value result).toProducers = s.toProducers.storeReadPos value := by
        cases result <;> rfl
      have hlimit : (s.release value result).recv.limit = 0 := by
        cases result <;> rfl
      rw [recvStep, hp]
      refine ⟨?_, ?_, ?_, ?_, Or.inr ⟨?_, _, rfl, rfl, rfl, ho.storeReadPos⟩, ?_, ?_⟩
      · rw [hproducers]
        exact List.Subset.refl _
      · rw [hproducers]
        exact le_rfl
      · rw [hproducers]
        exact fun _ _ => Or.inl
      · exact Or.inl (hlimit ▸ Nat.zero_le _)
      · rw [hproducers, hp]
        exact le_rfl
      · rw [hproducers]
        exact fun _ => Or.inl le_rfl
      · intro x hx
        obtain rfl := Option.some.inj hx
        simp [Op.Stores]

/-! ### Every run -/

/-- The step accesses the ring, and changes no position. -/
structure Accesses (bufferSize : ℕ) (s : State ι) (e : QueueEvent ι) (c : Access) (s' : State ι) :
    Prop where
  access : c ∈ s.access? bufferSize e.thread
  won : s'.won = s.won
  commitPos : s'.shared.commitPos = s.shared.commitPos
  readPos : s'.shared.readPos = s.shared.readPos

theorem accesses_of_send {orders : Orders} {p : Producers ι} {a : SendAction ι} {e : QueueEvent ι}
    {c : Access} (he : SendEffect bufferSize s.toProducers a p)
    (hx : e ∈ orders.sendEvent? s.toProducers a) (hop : e.op = .access c) :
    Accesses bufferSize s e c { s with toProducers := p } := by
  cases he with
  | call i m result hpc => simp [Orders.sendEvent?] at hx
  | loadReadPos i m hpc =>
      obtain rfl := Option.some.inj hx
      simp at hop
  | checkSpace i m readPos hpc =>
      obtain rfl := Option.some.inj hx
      simp at hop
  | retry i b m readPos reservePos hpc =>
      simp only [Orders.sendEvent?, hpc] at hx
      obtain rfl := Option.some.inj hx
      simp only at hop
      split_ifs at hop
  | win i m readPos hpc =>
      simp only [Orders.sendEvent?, hpc] at hx
      obtain rfl := Option.some.inj hx
      simp at hop
  | write i r w todo hpc =>
      obtain ⟨d, hd, rfl⟩ := Option.map_eq_some_iff.1 hx
      obtain rfl := Op.access.inj hop
      exact ⟨hd, rfl, rfl, rfl⟩
  | wait i b =>
      simp only [Orders.sendEvent?] at hx
      split at hx
      · obtain rfl := Option.some.inj hx
        simp only at hop
        split_ifs at hop
      · simp at hx
  | commit i r hpc heq =>
      simp only [Orders.sendEvent?, hpc] at hx
      obtain rfl := Option.some.inj hx
      simp only at hop
      split_ifs at hop

omit [DecidableEq ι] in
theorem accesses_of_receive {orders : Orders} {e : QueueEvent ι} {c : Access}
    (hx : e ∈ orders.recvEvent? bufferSize s.recv) (hop : e.op = .access c) :
    Accesses bufferSize s e c (recvStep bufferSize interestedType s) := by
  cases hp : s.recv with
  | idle result => simp [hp, Orders.recvEvent?, RecvPc.access?] at hx
  | readHeader readPos commitPos =>
      rw [hp] at hx
      obtain rfl := Option.some.inj hx
      obtain rfl := Op.access.inj hop
      have hproducers : (recvStep bufferSize interestedType s).toProducers = s.toProducers := by
        simp only [recvStep, hp, State.readBuffer]
      refine ⟨?_, ?_, ?_, ?_⟩
      · show _ ∈ s.recv.access? bufferSize
        rw [hp]
        rfl
      all_goals rw [hproducers]
  | readPayload readPos nextReadPos type payloadSize =>
      rw [hp] at hx
      obtain rfl := Option.some.inj hx
      obtain rfl := Op.access.inj hop
      have hproducers : (recvStep bufferSize interestedType s).toProducers = s.toProducers := by
        simp only [recvStep, hp, State.readBuffer]
      refine ⟨?_, ?_, ?_, ?_⟩
      · show _ ∈ s.recv.access? bufferSize
        rw [hp]
        rfl
      all_goals rw [hproducers]
  | _ =>
      rw [hp] at hx
      obtain rfl := Option.some.inj hx
      simp at hop

/-- The accesses of the log are ordered, and placed. -/
structure Ordered (bufferSize : ℕ) (s : OrderedState ι) : Prop where
  raceFree : HappensBefore.RaceFree Access.Conflicts s.log
  placed : ∀ n p c, s.log[n]? = some ⟨p, .access c⟩ →
    ∃ pos, Placed bufferSize s.toState s.log n p c pos

omit [DecidableEq ι] in
/-- Every step keeps the invariant. -/
theorem Ordered.step {s : OrderedState ι} {s' : State ι} {e : Option (QueueEvent ι)}
    (h : Ordered bufferSize s) (hring : Ring bufferSize s.toState)
    (hd : Delivered bufferSize interestedType s.toState) (hring' : Ring bufferSize s')
    (ha : Advance bufferSize s.toState e s')
    (he : ∀ x ∈ e, ∀ c, x.op = .access c → Accesses bufferSize s.toState x c s') :
    Ordered bufferSize { s' with log := s.log ++ e.toList } := by
  have hplaced : ∀ n p c, s.log[n]? = some ⟨p, .access c⟩ →
      ∃ pos, Placed bufferSize s' (s.log ++ e.toList) n p c pos := by
    intro n p c hn
    obtain ⟨pos, hpos⟩ := h.placed n p c hn
    exact ⟨pos, hpos.advance hn ha⟩
  cases e with
  | none =>
      rw [Option.toList_none, List.append_nil] at hplaced ⊢
      exact ⟨h.raceFree, hplaced⟩
  | some e =>
      rw [Option.toList_some] at hplaced ⊢
      by_cases haccess : ∃ c, e.op = .access c
      · obtain ⟨c, hc⟩ := haccess
        have hnew := he e rfl c hc
        obtain ⟨q, op⟩ := e
        obtain rfl : op = .access c := hc
        constructor
        · refine raceFree_concat_access.2 ⟨h.raceFree, ?_⟩
          intro n p d hn hpq hconflicts
          obtain ⟨pos, hpos⟩ := h.placed n p d hn
          exact knows_of_conflicts hring hd hpos hnew.access hpq hconflicts
        · intro n p d hn
          rcases getElem?_concat.1 hn with hn | ⟨rfl, heq⟩
          · exact hplaced n p d hn
          · obtain ⟨rfl, hop⟩ := Event.mk.inj heq
            obtain rfl := Op.access.inj hop
            exact placed_of_access hring hd hring' hnew.won hnew.commitPos hnew.readPos hnew.access _ _
      · have hop : ∀ c, e.op ≠ .access c := fun c hc => haccess ⟨c, hc⟩
        constructor
        · exact (raceFree_concat hop).2 h.raceFree
        · intro n p d hn
          rcases getElem?_concat.1 hn with hn | ⟨-, rfl⟩
          · exact hplaced n p d hn
          · exact absurd rfl (hop d)

theorem ordered_of_reachable {orders : Orders} (ho : orders.Sound) (h8 : bufferSize % 8 = 0)
    (hpos : 0 < bufferSize) (h64 : bufferSize < 2 ^ 64) {s : OrderedState ι}
    (h : (orderedSystem ι bufferSize interestedType orders).Reachable s) : Ordered bufferSize s := by
  refine h.invariant ?_ ?_
  · rintro s rfl
    exact ⟨raceFree_nil, by simp [OrderedState.initial]⟩
  · intro s a s' hr hI hs
    have hsystem := (orderedSimulation bufferSize interestedType orders).reachable hr
    obtain ⟨p, hp, rfl⟩ := Option.map_eq_some_iff.1 hs
    have hring := ring_of_reachable h8 hpos h64 hsystem
    have hd := delivered_of_reachable h8 hpos h64 hsystem
    have hring' := ring_of_reachable h8 hpos h64 (Automaton.Reachable.step a hsystem hp)
    obtain ⟨-, hp⟩ := Automaton.restrict_step_eq_some.1 hp
    obtain ⟨hfresh, hp⟩ := Automaton.restrict_step_eq_some.1 hp
    obtain ⟨-, hp⟩ := Automaton.restrict_step_eq_some.1 hp
    cases a with
    | send a =>
        obtain ⟨q, hq, rfl⟩ := Option.map_eq_some_iff.1 hp
        have he := effect_of_sendStep hq
        refine hI.step hring hd hring' (Advance.send ho h64 hring (hfresh a rfl) he) ?_
        exact fun x hx c hc => accesses_of_send he hx hc
    | receive =>
        obtain rfl := Option.some.inj hp
        refine hI.step hring hd hring' (Advance.receive ho h8 hpos hring) ?_
        exact fun x hx c hc => accesses_of_receive hx hc

/-! ### The orders are needed -/

/-- **The ring has no data race** with these memory orders: in no run of any number of producers and a
consumer on a ring whose size is a multiple of 8 below `2 ^ 64`, where the messages are texts, numbers
and stops with short payloads and no producer wins with stale positions. -/
def Orders.OrderAccesses (orders : Orders) : Prop :=
  ∀ (ι : Type) [DecidableEq ι] (bufferSize : ℕ) (interestedType : MessageType), bufferSize % 8 = 0 →
    0 < bufferSize → bufferSize < 2 ^ 64 →
      ∀ s, (orderedSystem ι bufferSize interestedType orders).Reachable s →
        HappensBefore.RaceFree Access.Conflicts s.log

/-- The events of a run. -/
def Orders.events (orders : Orders) (bufferSize : ℕ) (interestedType : MessageType) (s : State ι) :
    List (Action ι) → List (QueueEvent ι)
  | [] => []
  | a :: as =>
      (orders.event? bufferSize s a).toList ++
        ((sendableSystem ι bufferSize interestedType).step s a).elim []
          fun s' => orders.events bufferSize interestedType s' as

/-- A run of the queue is one of the queue with its log. -/
theorem run_ordered (orders : Orders) {as : List (Action ι)} {s s' : State ι} (log : List (QueueEvent ι))
    (h : (sendableSystem ι bufferSize interestedType).run s as = some s') :
    (orderedSystem ι bufferSize interestedType orders).run { s with log := log } as =
      some { s' with log := log ++ orders.events bufferSize interestedType s as } := by
  induction as generalizing s log with
  | nil =>
      obtain rfl := Option.some.inj h
      simp [Automaton.run, Orders.events]
  | cons a as ih =>
      obtain ⟨t, hst, hrun⟩ := Option.bind_eq_some_iff.1 h
      simp only [Automaton.run, orderedSystem, hst, Option.map_some, Option.bind_some, Orders.events,
        Option.elim_some, ← List.append_assoc]
      exact ih _ hrun

/-- A producer sends a record that fills a ring of `8` bytes, and the consumer copies its header. -/
def firstRecord : List (Action Unit) := sendEmpty () ++ List.replicate 4 .receive

/-- The consumer gives the record back, and the producer writes the next one. -/
def secondRecord : List (Action Unit) :=
  sendEmpty () ++ receiveEmpty ++ (sendEmpty ()).take 5

theorem events_firstRecord (orders : Orders) :
    orders.events 8 .all State.initial firstRecord =
      [] ++ [⟨some (), .load .readPos orders.loadReadPos⟩] ++
        [⟨some (), .load .reservePos orders.loadReservePos⟩] ++
        [⟨some (), .readModifyWrite .reservePos orders.reserve⟩] ++
        [⟨some (), .access ⟨0, 8, true⟩⟩] ++
        [⟨some (), .readModifyWrite .commitPos orders.commit⟩] ++
        [⟨none, .load .readPos orders.receiveReadPos⟩] ++
        [⟨none, .load .commitPos orders.loadCommitPos⟩] ++ [⟨none, .access ⟨0, 8, false⟩⟩] := rfl

theorem events_secondRecord (orders : Orders) :
    orders.events 8 .all State.initial secondRecord =
      [] ++ [⟨some (), .load .readPos orders.loadReadPos⟩] ++
        [⟨some (), .load .reservePos orders.loadReservePos⟩] ++
        [⟨some (), .readModifyWrite .reservePos orders.reserve⟩] ++
        [⟨some (), .access ⟨0, 8, true⟩⟩] ++
        [⟨some (), .readModifyWrite .commitPos orders.commit⟩] ++
        [⟨none, .load .readPos orders.receiveReadPos⟩] ++
        [⟨none, .load .commitPos orders.loadCommitPos⟩] ++ [⟨none, .access ⟨0, 8, false⟩⟩] ++
        [⟨none, .store .readPos orders.storeReadPos⟩] ++
        [⟨some (), .load .readPos orders.loadReadPos⟩] ++
        [⟨some (), .load .reservePos orders.loadReservePos⟩] ++
        [⟨some (), .readModifyWrite .reservePos orders.reserve⟩] ++
        [⟨some (), .access ⟨0, 8, true⟩⟩] := rfl

/-- The log of such a run has no race. -/
theorem raceFree_of_run {orders : Orders} (h : orders.OrderAccesses) (as : List (Action Unit))
    (has : ((sendableSystem Unit 8 .all).run State.initial as).isSome = true) :
    HappensBefore.RaceFree Access.Conflicts (orders.events 8 .all State.initial as) := by
  obtain ⟨s, hs⟩ := Option.isSome_iff_exists.1 has
  have hrun := run_ordered orders [] hs
  rw [List.nil_append] at hrun
  exact h Unit 8 .all rfl (by decide) (by decide) _ (Automaton.Reachable.of_run rfl hrun)

/-- Where no run races, the orders acquire and release. -/
theorem sound_of_orderAccesses {orders : Orders} (h : orders.OrderAccesses) : orders.Sound := by
  have hwrite : (⟨0, 8, true⟩ : Access).Conflicts ⟨0, 8, false⟩ :=
    ⟨Or.inl rfl, 0, by simp [Access.Covers], by simp [Access.Covers]⟩
  have hfirst : orders.loadCommitPos.acquires = true ∧ orders.commit.releases = true := by
    have hs := raceFree_of_run h firstRecord rfl
    rw [events_firstRecord] at hs
    have hknows := (raceFree_concat_access.1 hs).2 3 (some ()) ⟨0, 8, true⟩ rfl (by simp) hwrite
    simp only [knows_concat, carried_concat, not_knows_nil, not_carried_nil, Op.Acquires, Op.Releases,
      Op.Stores] at hknows
    simpa using hknows
  have hsecond : orders.loadReadPos.acquires = true ∧ orders.storeReadPos.releases = true := by
    have hs := raceFree_of_run h secondRecord rfl
    rw [events_secondRecord] at hs
    have hknows := (raceFree_concat_access.1 hs).2 7 none ⟨0, 8, false⟩ rfl (by simp) hwrite.symm
    simp only [knows_concat, carried_concat, not_knows_nil, not_carried_nil, Op.Acquires, Op.Releases,
      Op.Stores] at hknows
    simpa using hknows
  exact ⟨hsecond.1, hfirst.2, hfirst.1, hsecond.2⟩

/-- **The accesses to the ring are ordered.**  With the memory orders of the source, of any two
conflicting accesses of different parties in such a run one happens before the other: the writes of a
record before the reads of the consumer, and both before the writes that use the bytes again.  This
needs that the compare-exchange on `commitPos` and the store to `readPos` release and that the loads of
`commitPos` in `TryReceive` and of `readPos` in `TrySend` acquire, and nothing else: the five other
orders do not matter. -/
theorem accesses_ordered :
    sourceOrders.OrderAccesses ∧ ∀ orders : Orders, orders.OrderAccesses ↔ orders.Sound := by
  have hsound : ∀ orders : Orders, orders.Sound → orders.OrderAccesses := by
    intro orders ho ι _ bufferSize interestedType h8 hpos h64 s hs
    exact (ordered_of_reachable ho h8 hpos h64 hs).raceFree
  exact ⟨hsound _ sound_sourceOrders, fun orders => ⟨sound_of_orderAccesses, hsound orders⟩⟩

end MpscQueue
