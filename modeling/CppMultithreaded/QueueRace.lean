/-
**No two parties access the same byte of the ring at once.**

The ring is plain memory: the writes of the producers and the reads of the consumer are `memcpy` and
`memset` calls, and only the three positions are atomic.  Two accesses to one byte, one of them a write,
would be a data race.  In the runs where no producer wins with stale positions there is none, if the size
of the ring is a multiple of 8 and the messages are texts, numbers and stops with short payloads: the
blocks that the parties are about to access stand for disjoint blocks of positions, all between `readPos`
and `readPos + bufferSize`.

Main definitions:

* `MpscQueue.Access`, `MpscQueue.Access.Conflicts` — an access to the ring, and two that conflict;
* `MpscQueue.State.access?` — the access to the ring that a party makes in its next step;
* `MpscQueue.Access.StandsFor` — the block of positions that an access stands for.

Main results:

* `MpscQueue.standsFor_of_writes`, `MpscQueue.standsFor_of_reads` — a producer writes inside of its
  range, the consumer reads inside of the next one;
* `MpscQueue.buffer_sendStep`, `MpscQueue.reads_recvStep` — a step accesses nothing else;
* `MpscQueue.race_free` — **no two parties are about to make conflicting accesses**.
-/

import CppMultithreaded.QueueDelivery

set_option relaxedAutoImplicit false
set_option autoImplicit false

namespace MpscQueue

variable {ι : Type*} {bufferSize : ℕ} {interestedType : MessageType}

/-! ### Accesses -/

/-- An access to a block of the ring. -/
structure Access where
  address : ℕ
  size : ℕ
  isWrite : Bool
  deriving DecidableEq

/-- The access is to this byte. -/
def Access.Covers (a : Access) (x : ℕ) : Prop := a.address ≤ x ∧ x < a.address + a.size

/-- The accesses have a byte in common, and one of them is a write. -/
def Access.Conflicts (a b : Access) : Prop :=
  (a.isWrite = true ∨ b.isWrite = true) ∧ ∃ x, a.Covers x ∧ b.Covers x

/-- The block of the ring that a producer writes in its next step. -/
def SendPc.access? : SendPc ι → Option Access
  | .writing _ (w :: _) => some ⟨w.pos, w.bytes.length, true⟩
  | _ => none

/-- The block of the ring that the consumer reads in its next step. -/
def RecvPc.access? (bufferSize : ℕ) : RecvPc → Option Access
  | .readHeader readPos _ => some ⟨readPos % bufferSize, 8, false⟩
  | .readPayload readPos _ _ payloadSize => some ⟨readPos % bufferSize + 8, payloadSize, false⟩
  | _ => none

/-- The access that a producer, or the consumer, makes in its next step. -/
def State.access? (bufferSize : ℕ) (s : State ι) : Option ι → Option Access
  | some i => (s.pc i).access?
  | none => s.recv.access? bufferSize

/-- No two parties are about to make conflicting accesses. -/
def RaceFree (bufferSize : ℕ) (s : State ι) : Prop :=
  ∀ p q, p ≠ q → ∀ a ∈ s.access? bufferSize p, ∀ b ∈ s.access? bufferSize q, ¬a.Conflicts b

theorem isWrite_of_access {p : SendPc ι} {a : Access} (ha : a ∈ p.access?) : a.isWrite = true := by
  cases p with
  | writing r todo =>
      cases todo with
      | nil => simp [SendPc.access?] at ha
      | cons w todo => rw [← Option.some.inj ha]
  | _ => simp [SendPc.access?] at ha

/-! ### A step accesses nothing else -/

/-- **A producer changes no byte but those that it is about to write.** -/
theorem buffer_sendStep [DecidableEq ι] {s s' : Producers ι} {a : SendAction ι}
    (he : SendEffect bufferSize s a s') {x : ℕ}
    (hx : ∀ i, ∀ b ∈ (s.pc i).access?, ¬b.Covers x) : s'.shared.buffer x = s.shared.buffer x := by
  cases he with
  | write i r w todo hpc =>
      have hnot : ¬(w.pos ≤ x ∧ x < w.pos + w.bytes.length) :=
        hx i ⟨w.pos, w.bytes.length, true⟩ (by rw [hpc]; rfl)
      show ByteString.write s.shared.buffer w.pos w.bytes x = s.shared.buffer x
      rcases Nat.lt_or_ge x w.pos with hlt | hge
      · exact ByteString.write_of_lt hlt
      · exact ByteString.write_of_ge (by omega)
  | checkSpace i m readPos hpc =>
      rw [Producers.checkSpace]
      split_ifs <;> rfl
  | _ => rfl

/-- **The consumer reads no byte but those that it is about to read.** -/
theorem reads_recvStep (bufferSize : ℕ) (interestedType : MessageType) (s : State ι) :
    (recvStep bufferSize interestedType s).reads =
      s.reads ++ ((s.recv.access? bufferSize).map fun a => (a.address, a.size)).toList := by
  cases hp : s.recv with
  | loadCommitPos readPos =>
      simp only [recvStep, hp, State.peek, RecvPc.access?]
      split_ifs <;> simp
  | storeReadPos value result =>
      rw [recvStep, hp]
      cases result <;> simp [State.release, RecvPc.access?]
  | _ => simp [recvStep, hp, State.readBuffer, RecvPc.access?]

/-! ### Positions -/

/-- The access is to the cells of the block of positions from `pos` on. -/
def Access.StandsFor (bufferSize : ℕ) (a : Access) (pos : ℕ) : Prop :=
  0 < a.size → a.address = pos % bufferSize

/-- Accesses that stand for disjoint blocks of one window do not conflict. -/
theorem not_conflicts_of_le {a b : Access} {pos pos' : ℕ} (ha : a.StandsFor bufferSize pos)
    (hb : b.StandsFor bufferSize pos') (hle : pos + a.size ≤ pos')
    (hhi : pos' + b.size ≤ pos + bufferSize) : ¬a.Conflicts b := by
  rintro ⟨-, x, ⟨hax, hax'⟩, hbx, hbx'⟩
  have hsize : 0 < a.size := by omega
  have hsize' : 0 < b.size := by omega
  rw [ha hsize] at hax hax'
  rw [hb hsize'] at hbx hbx'
  rcases CyclicBuffer.block_disjoint hle hhi hsize' with
    hdis | hdis
  · omega
  · omega

theorem Access.Conflicts.symm {a b : Access} (h : a.Conflicts b) : b.Conflicts a := by
  obtain ⟨hwrite, x, hax, hbx⟩ := h
  exact ⟨hwrite.symm, x, hbx, hax⟩

/-- **A producer writes inside of the range that it has won.** -/
theorem standsFor_of_writes {s : Producers ι} (hr : Ranges bufferSize s) (hw : Written bufferSize s)
    {i : ι} {a : Access} (ha : a ∈ (s.pc i).access?) :
    ∃ r ∈ s.won, r.owner = i ∧ s.shared.commitPos ≤ r.myBegin ∧ ∃ pos, a.StandsFor bufferSize pos ∧
      r.myBegin ≤ pos ∧ pos + a.size ≤ r.myEnd := by
  cases hpc : s.pc i with
  | writing r todo =>
      cases todo with
      | nil => simp [hpc, SendPc.access?] at ha
      | cons w todo =>
          rw [hpc] at ha
          obtain rfl := Option.some.inj ha
          obtain ⟨hmem, howner, hcommit⟩ := hr.writing i r (by rw [hpc]; rfl)
          obtain ⟨done, hdone, -⟩ := hw.writing i r _ hpc
          have hwmem : w ∈ r.writes bufferSize := by
            rw [← hdone]
            exact List.mem_append_right _ List.mem_cons_self
          rw [writes_eq (hr.fits r hmem)] at hwmem
          obtain ⟨c, hc, rfl⟩ := List.mem_map.1 hwmem
          obtain ⟨hbegin, -, hend⟩ := bounds_of_mem_blocks (hr.fits r hmem) hc
          exact ⟨r, hmem, howner, hcommit, c.pos, fun _ => rfl, hbegin, hend⟩
  | _ => simp [hpc, SendPc.access?] at ha

variable {s : State ι}

/-- **The consumer reads inside of the next committed range**, from `readPos` on. -/
theorem standsFor_of_reads (hring : Ring bufferSize s)
    (hd : Delivered bufferSize interestedType s) {a : Access}
    (ha : a ∈ s.recv.access? bufferSize) :
    a.isWrite = false ∧ ∃ r ∈ s.committed[s.released]?, ∃ pos, a.StandsFor bufferSize pos ∧
      s.shared.readPos ≤ pos ∧ r.myBegin ≤ pos ∧ pos + a.size ≤ r.myEnd := by
  have hwindow := hring.window.recv
  have hknows := hd.recv
  cases hp : s.recv with
  | readHeader readPos commitPos =>
      rw [hp] at ha hwindow
      obtain rfl := Option.some.inj ha
      obtain ⟨hread, hlt, hcommit⟩ := hwindow
      obtain ⟨r, hr, hpos⟩ := hd.exists_next hring (by omega)
      have hmem := Ring.mem_committed hr
      have hsize := (hring.ranges.fits r (hring.ranges.isPrefix.subset hmem)).size_pos
      rw [Reservation.messagePos] at hpos
      refine ⟨rfl, r, hr, readPos, fun _ => rfl, hread.ge, by omega, ?_⟩
      rw [Reservation.myEnd, Reservation.required]
      simp only
      omega
  | readPayload readPos nextReadPos type payloadSize =>
      rw [hp] at ha hwindow hknows
      obtain rfl := Option.some.inj ha
      obtain ⟨hread, -⟩ := hwindow
      obtain ⟨r, hr, hmsg, -, -, rfl, -⟩ := hknows
      have hmem := Ring.mem_committed hr
      have hfits := hring.ranges.fits r (hring.ranges.isPrefix.subset hmem)
      have hsize := le_messageSize hfits.small
      have hblock := hfits.message_fits
      rw [Reservation.messagePos] at hmsg hblock
      refine ⟨rfl, r, hr, readPos + 8, ?_, by omega, by omega, ?_⟩
      · intro hpos
        simp only at hpos ⊢
        rw [CyclicBuffer.add_mod_of_lt (by rw [hmsg]; omega)]
      · rw [Reservation.myEnd, Reservation.required]
        simp only
        omega
  | _ => simp [hp, RecvPc.access?] at ha

/-! ### No race -/

theorem raceFree_of_ring (hring : Ring bufferSize s) (hd : Delivered bufferSize interestedType s) :
    RaceFree bufferSize s := by
  have hwindow := hring.window
  -- a producer and the consumer: above `commitPos`, and below it
  have hmixed : ∀ i, ∀ a ∈ (s.pc i).access?, ∀ b ∈ s.recv.access? bufferSize, ¬b.Conflicts a := by
    intro i a ha b hb
    obtain ⟨r, hmem, -, hcommit, pos, hstands, hbegin, hend⟩ :=
      standsFor_of_writes hring.ranges hring.written ha
    obtain ⟨-, r', hr', pos', hstands', hread, -, hle⟩ := standsFor_of_reads hring hd hb
    have hcommitted := (hring.ranges.committed.bounds (Ring.mem_committed hr')).2.2
    have hreserve := (hring.ranges.won.bounds hmem).2.2
    have hfar := hwindow.reservePos_le
    exact not_conflicts_of_le hstands' hstands (by omega) (by omega)
  intro p q hpq a ha b hb
  cases p with
  | none =>
      cases q with
      | none => exact absurd rfl hpq
      | some j => exact hmixed j b hb a ha
  | some i =>
      cases q with
      | none => exact fun h => hmixed i a ha b hb h.symm
      | some j =>
          -- two producers: in two different ranges
          obtain ⟨r, hmem, howner, hcommit, pos, hstands, hbegin, hend⟩ :=
            standsFor_of_writes hring.ranges hring.written ha
          obtain ⟨r', hmem', howner', hcommit', pos', hstands', hbegin', hend'⟩ :=
            standsFor_of_writes hring.ranges hring.written hb
          have hread := hwindow.readPos_le
          have hfar := hwindow.reservePos_le
          have hreserve := (hring.ranges.won.bounds hmem).2.2
          have hreserve' := (hring.ranges.won.bounds hmem').2.2
          rcases hring.ranges.won.trichotomy hmem hmem' with rfl | hle | hle
          · exact absurd (congrArg some (howner.symm.trans howner')) hpq
          · exact not_conflicts_of_le hstands hstands' (by omega) (by omega)
          · exact fun h => not_conflicts_of_le hstands' hstands (by omega) (by omega) h.symm

/-- Where there is no race, a producer does not change what the consumer is about to read. -/
theorem RaceFree.read_eq [DecidableEq ι] (h : RaceFree bufferSize s) {p : Producers ι}
    {a : SendAction ι} (he : SendEffect bufferSize s.toProducers a p) {b : Access}
    (hb : b ∈ s.recv.access? bufferSize) :
    ByteString.read p.shared.buffer b.address b.size =
      ByteString.read s.shared.buffer b.address b.size := by
  refine List.map_congr_left ?_
  intro k hk
  rw [List.mem_range] at hk
  refine buffer_sendStep he ?_
  intro i c hc hcovers
  refine h (some i) none (by simp) c hc b hb ⟨Or.inl (isWrite_of_access hc), b.address + k, hcovers, ?_⟩
  exact ⟨by omega, by omega⟩

/-- **No two parties are about to make conflicting accesses** to a ring whose size is a multiple of 8,
so that what the consumer reads does not depend on the producers' steps that its reads overlap with. -/
theorem race_free [DecidableEq ι] (h8 : bufferSize % 8 = 0) (hpos : 0 < bufferSize)
    (h64 : bufferSize < 2 ^ 64) (h : (sendableSystem ι bufferSize interestedType).Reachable s) :
    RaceFree bufferSize s ∧ ∀ a p, sendStep bufferSize s.toProducers a = some p →
      ∀ b ∈ s.recv.access? bufferSize,
        ByteString.read p.shared.buffer b.address b.size =
          ByteString.read s.shared.buffer b.address b.size := by
  have hfree : RaceFree bufferSize s :=
    raceFree_of_ring (ring_of_reachable h8 hpos h64 h) (delivered_of_reachable h8 hpos h64 h)
  exact ⟨hfree, fun a p hp b hb => hfree.read_eq (effect_of_sendStep hp) hb⟩

/-- A producer has won the second range and is about to write it, while the consumer is about to read
the first one. -/
theorem race_free_two_records :
    ∃ s : State (Fin 2), (sendableSystem (Fin 2) 16 .all).Reachable s ∧
      s.access? 16 (some 1) = some ⟨8, 8, true⟩ ∧ s.access? 16 none = some ⟨0, 8, false⟩ ∧
      RaceFree 16 s := by
  obtain ⟨s, hs⟩ : ∃ s, (sendableSystem (Fin 2) 16 .all).run State.initial
      (sendEmpty 0 ++ (sendEmpty 1).take 4 ++ List.replicate 3 .receive) = some s := ⟨_, rfl⟩
  have hr := Automaton.Reachable.of_run rfl hs
  refine ⟨s, hr, ?_, ?_, (race_free (by decide) (by decide) (by decide) hr).1⟩
  · obtain rfl := Option.some_inj.1 hs
    rfl
  · obtain rfl := Option.some_inj.1 hs
    rfl

end MpscQueue
