/-
**Delivery through the shared-memory queue.**

In the runs of `freshSystem` nothing unread is overwritten, so what a producer has written stays in
the ring until the consumer has released it.  The consumer then reads, at every position it reaches,
the header and the payload of the next range that has been committed, and the messages it obtains are
those of the ranges committed, in order and filtered by type.

Main definitions:

* `MpscQueue.Reservation.blocks` — the writes of a range, at positions instead of addresses;
* `MpscQueue.Stored` — what has been written and not yet released is still in the ring;
* `MpscQueue.Delivered` — the messages obtained, the position of the consumer and what it knows about
  the next range.

Main results:

* `MpscQueue.tiles_blocks` — the blocks of a range fill it from its first record on, each byte once;
* `MpscQueue.Stored.send` — **a write leaves what is unread alone**;
* `MpscQueue.Delivered.header` — the consumer finds the header of the next record at its position;
* `MpscQueue.Delivered.send`, `MpscQueue.Delivered.receive` — every step keeps the delivery;
* `MpscQueue.delivered_of_reachable`, `MpscQueue.exists_drained` — **the messages are delivered in
  order**, and a consumer that goes on alone obtains all of them.
-/

import CppMultithreaded.QueueRing
import Mathlib.Logic.Function.Iterate

set_option relaxedAutoImplicit false
set_option autoImplicit false

namespace MpscQueue

open Tiling (Tiles)
open ByteString (Holds)

variable {ι : Type*} {bufferSize : ℕ} {interestedType : MessageType}

/-! ### Blocks -/

/-- The writes of a range, at the positions that their addresses stand for. -/
def Reservation.blocks (r : Reservation ι) : List Write :=
  (if 8 ≤ r.paddingSize then writePaddingRecord r.myBegin r.paddingSize else []) ++
    writeMessageRecord r.messagePos r.message

theorem writes_eq {r : Reservation ι} (h : r.Fits bufferSize) :
    r.writes bufferSize = r.blocks.map (Write.wrap bufferSize) := by
  rw [Reservation.writes, Reservation.blocks, List.map_append,
    writeMessageRecord_mod h.small h.message_fits, writePaddingRecord_mod h.padding_fits]
  refine congrArg (· ++ _) ?_
  split_ifs <;> rfl

/-- Where the records of a range start: a padding that is too short for a header is left alone. -/
def Reservation.recordsBegin (r : Reservation ι) : ℕ :=
  if 8 ≤ r.paddingSize then r.myBegin else r.messagePos

/-- **The blocks of a range fill it** from its first record on, each byte once. -/
theorem tiles_blocks {r : Reservation ι} (h : r.Fits bufferSize) :
    Tiles Write.pos Write.stop r.recordsBegin r.blocks r.myEnd := by
  have hend : r.myEnd = r.messagePos + messageSize r.message := by
    rw [Reservation.myEnd, Reservation.required, Reservation.messagePos, Nat.add_assoc]
  refine Tiling.Tiles.append_iff.2 ⟨r.messagePos, ?_, ?_⟩
  · rw [Reservation.recordsBegin]
    split_ifs with hroom
    · exact tiles_writePaddingRecord hroom r.myBegin
    · exact Tiling.tiles_nil.2 rfl
  · rw [hend]
    exact tiles_writeMessageRecord h.small r.messagePos

/-- A block of a range is not empty, and inside of the range. -/
theorem bounds_of_mem_blocks {r : Reservation ι} (h : r.Fits bufferSize) {b : Write}
    (hb : b ∈ r.blocks) : r.myBegin ≤ b.pos ∧ b.pos < b.stop ∧ b.stop ≤ r.myEnd := by
  obtain ⟨hfirst, hrest⟩ := (tiles_blocks h).bounds hb
  refine ⟨le_trans ?_ hfirst, hrest⟩
  rw [Reservation.recordsBegin, Reservation.messagePos]
  split_ifs <;> omega

/-- A range starts at a multiple of eight, and its padding is nothing or has room for a header. -/
structure Reservation.Aligned (r : Reservation ι) : Prop where
  begin_mod : r.myBegin % 8 = 0
  padding_mod : r.paddingSize % 8 = 0
  padding_lt : r.paddingSize < 2 ^ 32

theorem aligned_of_fits {r : Reservation ι} (h8 : bufferSize % 8 = 0) (h : r.Fits bufferSize)
    (hr : r.myBegin % 8 = 0) : r.Aligned := by
  have hpos : 0 < bufferSize := lt_of_lt_of_le (by have := h.size_pos; omega) h.size_le
  have htail := (tailSpace_ge h8 hpos hr).1
  have hlt := h.size_lt
  refine ⟨hr, ?_, ?_⟩
  all_goals
    rw [h.padding]
    rcases paddingSizeAt_cases bufferSize r.myBegin h.size_lt with ⟨heq, -⟩ | ⟨heq, hle⟩ <;> omega

theorem aligned_of_ranges {s : Producers ι} (h8 : bufferSize % 8 = 0) (h : Ranges bufferSize s) :
    ∀ r ∈ s.won, r.Aligned := by
  have hbegin := (h.won.boundaries (P := fun p => p % 8 = 0) rfl ?_).1
  · intro r hr
    exact aligned_of_fits h8 (h.fits r hr) (hbegin r hr)
  · intro r hr hmod
    have hpad := (aligned_of_fits h8 (h.fits r hr) hmod).padding_mod
    have hsize := messageSize_mod r.message
    rw [Reservation.myEnd, Reservation.required]
    omega

/-- The writes of a range stay inside of the ring. -/
theorem write_stop_le {r : Reservation ι} (h : r.Fits bufferSize) {w : Write}
    (hw : w ∈ r.writes bufferSize) : w.stop ≤ bufferSize := by
  rcases List.mem_append.1 hw with hpad | hmsg
  · split_ifs at hpad with hroom
    · exact ((tiles_writePaddingRecord hroom _).bounds hpad).2.2.trans h.padding_fits
    · simp at hpad
  · exact ((tiles_writeMessageRecord h.small _).bounds hmsg).2.2.trans h.message_fits

/-! ### What is stored -/

/-- What has been written at a position that is not released yet is still in the ring. -/
def Stored (bufferSize : ℕ) (s : Producers ι) : Prop :=
  ∀ r : Reservation ι, ∀ b ∈ r.blocks, ⟨r.owner, r, b.wrap bufferSize⟩ ∈ s.written →
    s.shared.readPos ≤ b.pos → Holds s.shared.buffer (b.pos % bufferSize) b.bytes

/-- Blocks of ranges are equal or disjoint. -/
theorem blocks_trichotomy {s : Producers ι} (h : Ranges bufferSize s) {r r' : Reservation ι}
    (hr : r ∈ s.won) (hr' : r' ∈ s.won) {b b' : Write} (hb : b ∈ r.blocks) (hb' : b' ∈ r'.blocks) :
    b = b' ∨ b.stop ≤ b'.pos ∨ b'.stop ≤ b.pos := by
  have hbounds := bounds_of_mem_blocks (h.fits r hr) hb
  have hbounds' := bounds_of_mem_blocks (h.fits r' hr') hb'
  rcases h.won.trichotomy hr hr' with rfl | hle | hle
  · exact (tiles_blocks (h.fits r hr)).trichotomy hb hb'
  · exact Or.inr (Or.inl (by omega))
  · exact Or.inr (Or.inr (by omega))

variable [DecidableEq ι]

namespace Stored

variable {s s' : Producers ι} (h : Stored bufferSize s)

include h

omit [DecidableEq ι] in
/-- Steps that write nothing. -/
theorem of_eq (hbuffer : s'.shared.buffer = s.shared.buffer) (hwritten : s'.written = s.written)
    (hread : s.shared.readPos ≤ s'.shared.readPos) : Stored bufferSize s' := by
  intro r b hb hlog hle
  rw [hwritten] at hlog
  rw [hbuffer]
  exact h r b hb hlog (hread.trans hle)

/-- **A write leaves what is unread alone.** -/
theorem write (hr : Ranges bufferSize s) (hw : Written bufferSize s)
    (hread : s.shared.readPos ≤ s.shared.commitPos)
    (hreserve : s.shared.reservePos ≤ s.shared.readPos + bufferSize) {i : ι} {r : Reservation ι}
    {w : Write} {todo : List Write} (hpc : s.pc i = .writing r (w :: todo)) :
    Stored bufferSize (s.write i r w todo) := by
  obtain ⟨hmem, howner, hbegin⟩ := hr.writing i r (by rw [hpc]; rfl)
  obtain ⟨done, hdone, -⟩ := hw.writing i r _ hpc
  have hwmem : w ∈ r.writes bufferSize := by
    rw [← hdone]
    exact List.mem_append_right _ List.mem_cons_self
  rw [writes_eq (hr.fits r hmem)] at hwmem
  obtain ⟨c, hc, rfl⟩ := List.mem_map.1 hwmem
  have hcbounds := bounds_of_mem_blocks (hr.fits r hmem) hc
  have hrbounds := hr.won.bounds hmem
  intro r' b hb hlog hunread
  have hle : s.shared.readPos ≤ b.pos := hunread
  show Holds (ByteString.write s.shared.buffer (c.pos % bufferSize) c.bytes) _ _
  rcases List.mem_append.1 hlog with hold | hnew
  · have hmem' := (hw.sound _ hold).1
    have hbbounds := bounds_of_mem_blocks (hr.fits r' hmem') hb
    have hend : r'.myEnd ≤ s.shared.reservePos := (hr.won.bounds hmem').2.2
    have hheld := h r' b hb hold hle
    have hpos : b.stop = b.pos + b.bytes.length := rfl
    have hpos' : c.stop = c.pos + c.bytes.length := rfl
    -- both blocks are between `readPos` and `readPos + bufferSize`
    rcases blocks_trichotomy hr hmem' hmem hb hc with rfl | hdis | hdis
    · exact ByteString.holds_write_self _ _ _
    · refine ByteString.holds_write_of_disjoint hheld ?_
      exact CyclicBuffer.block_disjoint (by omega) (by omega) (by omega)
    · refine ByteString.holds_write_of_disjoint hheld ?_
      have hle' : s.shared.readPos ≤ c.pos := by omega
      exact (CyclicBuffer.block_disjoint (by omega) (by omega) (by omega)).symm
  · have hsame := (LogEntry.mk.inj (List.mem_singleton.1 hnew)).2.2
    have hpos : b.pos % bufferSize = c.pos % bufferSize := (Write.mk.inj hsame).1
    have hbytes : b.bytes = c.bytes := (Write.mk.inj hsame).2
    rw [hpos, hbytes]
    exact ByteString.holds_write_self _ _ _

/-- **Every step of the producers keeps what is stored.** -/
theorem send (hr : Ranges bufferSize s) (hw : Written bufferSize s)
    (hread : s.shared.readPos ≤ s.shared.commitPos)
    (hreserve : s.shared.reservePos ≤ s.shared.readPos + bufferSize) {a : SendAction ι}
    (he : SendEffect bufferSize s a s') : Stored bufferSize s' := by
  cases he with
  | call i m result hpc => exact h.of_eq rfl rfl le_rfl
  | loadReadPos i m hpc => exact h.of_eq rfl rfl le_rfl
  | checkSpace i m readPos hpc =>
      rw [Producers.checkSpace]
      split_ifs <;> exact h.of_eq rfl rfl le_rfl
  | retry i b m readPos reservePos hpc => exact h.of_eq rfl rfl le_rfl
  | win i m readPos hpc => exact h.of_eq rfl rfl le_rfl
  | write i r w todo hpc => exact h.write hr hw hread hreserve hpc
  | wait i b => exact h
  | commit i r hpc heq => exact h.of_eq rfl rfl le_rfl

section Committed

variable (hr : Ranges bufferSize s) (hw : Written bufferSize s) {r : Reservation ι}
  (hc : r ∈ s.committed)

include hr hw hc

omit [DecidableEq ι] in
/-- A block of a committed range that is not released yet is in the ring. -/
theorem holds {b : Write} (hb : b ∈ r.blocks) (hle : s.shared.readPos ≤ b.pos) :
    Holds s.shared.buffer (b.pos % bufferSize) b.bytes := by
  refine h r b hb (hw.committed r hc _ ?_) hle
  rw [writes_eq (hr.fits r (hr.isPrefix.subset hc))]
  exact List.mem_map_of_mem hb

omit [DecidableEq ι] in
/-- The header of a message record in memory. -/
theorem messageHeader (hcode : r.message.type.code < 2 ^ 32)
    (hle : s.shared.readPos ≤ r.messagePos) :
    MessageHeader.ofBytes (ByteString.read s.shared.buffer (r.messagePos % bufferSize) 8) =
      MpscQueue.messageHeader r.message := by
  have hsmall := (hr.fits r (hr.isPrefix.subset hc)).small
  have hblock : (⟨r.messagePos, (MpscQueue.messageHeader r.message).bytes⟩ : Write) ∈ r.blocks :=
    List.mem_append_right _ List.mem_cons_self
  rw [(h.holds hr hw hc hblock hle).read_eq (by simp)]
  refine MessageHeader.ofBytes_bytes hcode ?_
  rw [payloadSize_messageHeader hsmall]
  rw [Message.Small] at hsmall
  omega

omit [DecidableEq ι] in
/-- The header of a padding record in memory. -/
theorem paddingHeader (hpad : r.paddingSize < 2 ^ 32) (hle : s.shared.readPos ≤ r.myBegin)
    (hroom : 8 ≤ r.paddingSize) :
    MessageHeader.ofBytes (ByteString.read s.shared.buffer (r.myBegin % bufferSize) 8) =
      ⟨0, r.paddingSize - 8⟩ := by
  have hheader : MpscQueue.paddingHeader r.paddingSize = ⟨0, r.paddingSize - 8⟩ := by
    rw [MpscQueue.paddingHeader, sub32_of_le hroom (by omega)]
    rfl
  have hblock : (⟨r.myBegin, (MpscQueue.paddingHeader r.paddingSize).bytes⟩ : Write) ∈ r.blocks := by
    refine List.mem_append_left _ ?_
    rw [if_pos hroom]
    exact List.mem_cons_self
  rw [(h.holds hr hw hc hblock hle).read_eq (by simp), hheader]
  exact MessageHeader.ofBytes_bytes (by simp) (by simp only; omega)

end Committed

end Stored

/-! ### The messages -/

/-- Every message that is being sent, or for which a range has been won, satisfies `P`. -/
structure Sending (P : Message → Prop) (s : Producers ι) : Prop where
  trying : ∀ i m, (s.pc i).message? = some m → P m
  won : ∀ r ∈ s.won, P r.message

namespace Sending

variable {P : Message → Prop} {s s' : Producers ι} (h : Sending P s)

include h

/-- Steps inside of a call that do not win a range. -/
theorem move {i : ι} {p : SendPc ι} (hwon : s'.won = s.won) (hpc : s'.pc = Function.update s.pc i p)
    (hp : ∀ m, p.message? = some m → P m) : Sending P s' := by
  refine ⟨?_, ?_⟩
  · intro j m hj
    rw [hpc] at hj
    rcases eq_or_ne j i with rfl | hne
    · rw [Function.update_self] at hj
      exact hp m hj
    · rw [Function.update_of_ne hne] at hj
      exact h.trying j m hj
  · rw [hwon]
    exact h.won

/-- Only the messages that pass the check of their size are sent. -/
theorem step {a : SendAction ι} (ha : ∀ m ∈ a.message?, messageSize m ≤ bufferSize → P m)
    (he : SendEffect bufferSize s a s') : Sending P s' := by
  cases he with
  | call i m result hpc =>
      refine h.move rfl rfl ?_
      intro m' hm'
      split_ifs at hm' with hlarge
      · simp [SendPc.message?] at hm'
      · rw [← Option.some.inj hm']
        exact ha m rfl (not_lt.1 hlarge)
  | loadReadPos i m hpc =>
      refine h.move rfl rfl ?_
      intro m' hm'
      exact h.trying i m' (by rw [hpc, ← hm']; rfl)
  | checkSpace i m readPos hpc =>
      rw [Producers.checkSpace]
      split_ifs
      · exact h.move rfl rfl (by simp [SendPc.message?])
      · refine h.move rfl rfl ?_
        intro m' hm'
        exact h.trying i m' (by rw [hpc, ← hm']; rfl)
  | retry i b m readPos reservePos hpc =>
      refine h.move rfl rfl ?_
      intro m' hm'
      exact h.trying i m' (by rw [hpc, ← hm']; rfl)
  | win i m readPos hpc =>
      have hm := h.trying i m (by rw [hpc]; rfl)
      refine ⟨?_, ?_⟩
      · intro j m' hj
        rcases eq_or_ne j i with rfl | hne
        · simp [Producers.win, Producers.goto, SendPc.message?] at hj
        · simp only [Producers.win, Producers.goto, Function.update_of_ne hne] at hj
          exact h.trying j m' hj
      · intro r hr
        rcases List.mem_append.1 hr with hold | hnew
        · exact h.won r hold
        · rw [List.mem_singleton.1 hnew]
          exact hm
  | write i r w todo hpc => exact h.move rfl rfl (by simp [SendPc.message?])
  | wait i b => exact h
  | commit i r hpc heq => exact h.move rfl rfl (by simp [SendPc.message?])

end Sending

/-! ### What the consumer finds -/

/-- The invariants of the ring together. -/
structure Ring (bufferSize : ℕ) (s : State ι) : Prop where
  ranges : Ranges bufferSize s.toProducers
  written : Written bufferSize s.toProducers
  stored : Stored bufferSize s.toProducers
  window : Window bufferSize s
  sending : Sending (fun m => m.type.Sendable) s.toProducers

variable {s : State ι}

omit [DecidableEq ι] in
/-- The header of a message record in memory. -/
theorem Ring.messageHeader (h : Ring bufferSize s) {r : Reservation ι} (hr : r ∈ s.committed)
    (hle : s.shared.readPos ≤ r.messagePos) :
    MessageHeader.ofBytes (ByteString.read s.shared.buffer (r.messagePos % bufferSize) 8) =
      messageHeader r.message :=
  h.stored.messageHeader h.ranges h.written hr
    (h.sending.won r (h.ranges.isPrefix.subset hr)).code_lt hle

omit [DecidableEq ι] in
/-- The header of a padding record in memory. -/
theorem Ring.paddingHeader (h8 : bufferSize % 8 = 0) (h : Ring bufferSize s) {r : Reservation ι}
    (hr : r ∈ s.committed) (hle : s.shared.readPos ≤ r.myBegin) (hroom : 8 ≤ r.paddingSize) :
    MessageHeader.ofBytes (ByteString.read s.shared.buffer (r.myBegin % bufferSize) 8) =
      ⟨0, r.paddingSize - 8⟩ :=
  h.stored.paddingHeader h.ranges h.written hr
    (aligned_of_ranges h8 h.ranges r (h.ranges.isPrefix.subset hr)).padding_lt hle hroom

omit [DecidableEq ι] in
/-- The payload of a message record in memory. -/
theorem Ring.payload (h : Ring bufferSize s) {r : Reservation ι} (hr : r ∈ s.committed)
    (hle : s.shared.readPos ≤ r.messagePos) :
    ByteString.read s.shared.buffer (r.messagePos % bufferSize + 8) r.message.payload.length =
      r.message.payload := by
  have hfits := h.ranges.fits r (h.ranges.isPrefix.subset hr)
  by_cases hnil : r.message.payload = []
  · rw [hnil]
    rfl
  · have hblock : (⟨r.messagePos + 8, r.message.payload⟩ : Write) ∈ r.blocks := by
      refine List.mem_append_right _ (List.mem_cons_of_mem _ (List.mem_append_left _ ?_))
      rw [if_neg hnil]
      exact List.mem_singleton_self _
    have hpos : 0 < r.message.payload.length := List.length_pos_iff.2 hnil
    have hsize := le_messageSize hfits.small
    have hmsg := hfits.message_fits
    rw [← CyclicBuffer.add_mod_of_lt (by omega)]
    exact h.stored.holds h.ranges h.written hr hblock (hle.trans (Nat.le_add_right _ 8))

omit [DecidableEq ι] in
/-- The step after the header of a padding record. -/
theorem afterHeader_padding (interestedType : MessageType) {paddingSize p commitPos : ℕ}
    (hroom : 8 ≤ paddingSize) (hlt : paddingSize ≤ 2 ^ 32 - 8) (hmod : paddingSize % 8 = 0) :
    afterHeader interestedType ⟨0, paddingSize - 8⟩ p commitPos =
      if p + paddingSize > commitPos then .idle (some none)
      else .storeReadPos (p + paddingSize) none := by
  have hsum : 8 + (paddingSize - 8) = paddingSize := by omega
  simp only [afterHeader, hsum]
  rw [u32_of_lt (by omega), alignUp_of_dvd hlt hmod]
  rfl

omit [DecidableEq ι] in
/-- The step after the header of a message record. -/
theorem afterHeader_message (interestedType : MessageType) {m : Message} {p commitPos : ℕ}
    (hsmall : m.Small) (hsend : m.type.Sendable) :
    afterHeader interestedType (messageHeader m) p commitPos =
      if p + messageSize m > commitPos then .idle (some none)
      else if wanted interestedType m.type then
        if m.payload.length ≠ 0 then .readPayload p (p + messageSize m) m.type m.payload.length
        else .storeReadPos (p + messageSize m) (some (some m))
      else .storeReadPos (p + messageSize m) (some none) := by
  have htype : MessageType.ofCode (messageHeader m).type = m.type := hsend.ofCode_code
  have htotal : alignUp (u32 (8 + (messageHeader m).payloadSize)) alignment = messageSize m := rfl
  simp only [afterHeader, htype, htotal, if_neg hsend.ne_padding]
  rw [payloadSize_messageHeader hsmall]
  split_ifs with hlarge hwanted hsize
  · rfl
  · rfl
  · have hnil : m.payload = [] := List.length_eq_zero_iff.1 (not_not.1 hsize)
    rw [← hnil]
  · rfl

/-! ### What is delivered -/

/-- The messages of the ranges that pass the filter of the consumer. -/
def deliverable (interestedType : MessageType) (rs : List (Reservation ι)) : List Message :=
  (rs.map Reservation.message).filter fun m => wanted interestedType m.type

/-- What the consumer knows about the next range. -/
def RecvPc.Knows (interestedType : MessageType) (next : Option (Reservation ι)) : RecvPc → Prop
  | .readPayload readPos nextReadPos type payloadSize =>
      ∃ r ∈ next, readPos = r.messagePos ∧ nextReadPos = r.myEnd ∧ type = r.message.type ∧
        payloadSize = r.message.payload.length ∧ wanted interestedType type = true
  | .storeReadPos value none => ∃ r ∈ next, value = r.messagePos
  | .storeReadPos value (some result) =>
      ∃ r ∈ next, value = r.myEnd ∧
        result = if wanted interestedType r.message.type then some r.message else none
  | _ => True

/-- The consumer has obtained the messages of the ranges it has released, and is at the end of these
ranges, or at the message record of the next range. -/
structure Delivered (bufferSize : ℕ) (interestedType : MessageType) (s : State ι) : Prop where
  released_le : s.released ≤ s.committed.length
  obtained : s.obtained = deliverable interestedType (s.committed.take s.released)
  position : ∃ c, Tiles Reservation.myBegin Reservation.myEnd 0 (s.committed.take s.released) c ∧
    (s.shared.readPos = c ∨ ∃ r ∈ s.committed[s.released]?, s.shared.readPos = r.messagePos)
  recv : s.recv.Knows interestedType s.committed[s.released]?
  reads : ∀ b ∈ s.reads, b.1 + b.2 ≤ bufferSize

omit [DecidableEq ι] in
/-- The ranges released end where the next range starts. -/
theorem Ring.tiles_released (hring : Ring bufferSize s) {n : ℕ} {r : Reservation ι}
    (hr : r ∈ s.committed[n]?) :
    Tiles Reservation.myBegin Reservation.myEnd 0 (s.committed.take n) r.myBegin ∧
      s.committed.take (n + 1) = s.committed.take n ++ [r] := by
  have hsucc : s.committed.take (n + 1) = s.committed.take n ++ [r] := by
    rw [List.take_add_one, Option.mem_def.1 hr]
    rfl
  have htiles := hring.ranges.committed
  rw [← List.take_append_drop (n + 1) s.committed, hsucc] at htiles
  obtain ⟨_, hfirst, -⟩ := Tiling.Tiles.append_iff.1 htiles
  obtain ⟨c, hc, hlo, -⟩ := Tiling.Tiles.append_iff.1 hfirst
  rw [hlo]
  exact ⟨hc, hsucc⟩

omit [DecidableEq ι] in
theorem Ring.mem_committed {n : ℕ} {r : Reservation ι} (hr : r ∈ s.committed[n]?) :
    r ∈ s.committed := List.mem_of_getElem? (Option.mem_def.1 hr)

namespace Delivered

variable (h : Delivered bufferSize interestedType s)

include h

omit [DecidableEq ι] in
/-- Below `commitPos` there is a next range, and the consumer is at its start or at its message
record. -/
theorem exists_next (hring : Ring bufferSize s) (hlt : s.shared.readPos < s.shared.commitPos) :
    ∃ r ∈ s.committed[s.released]?, s.shared.readPos = r.myBegin ∨
      s.shared.readPos = r.messagePos := by
  obtain ⟨c, hc, hread | ⟨r, hr, hread⟩⟩ := h.position
  · have hne : s.released ≠ s.committed.length := by
      intro heq
      rw [heq, List.take_length] at hc
      have hend := hring.ranges.committed.end_unique hc
      omega
    have hn : s.released < s.committed.length := lt_of_le_of_ne h.released_le hne
    have hr : s.committed[s.released] ∈ s.committed[s.released]? :=
      Option.mem_def.2 (List.getElem?_eq_getElem hn)
    refine ⟨_, hr, Or.inl ?_⟩
    rw [hread]
    exact hc.end_unique (hring.tiles_released hr).1
  · exact ⟨r, hr, Or.inr hread⟩

omit [DecidableEq ι] in
/-- **The consumer finds the header of the next record at its position.** -/
theorem header (h8 : bufferSize % 8 = 0) (hring : Ring bufferSize s)
    (hlt : s.shared.readPos < s.shared.commitPos) :
    ∃ r ∈ s.committed[s.released]?,
      (s.shared.readPos = r.messagePos ∧
        MessageHeader.ofBytes (ByteString.read s.shared.buffer (s.shared.readPos % bufferSize) 8) =
          messageHeader r.message) ∨
      (s.shared.readPos = r.myBegin ∧ 8 ≤ r.paddingSize ∧
        MessageHeader.ofBytes (ByteString.read s.shared.buffer (s.shared.readPos % bufferSize) 8) =
          ⟨0, r.paddingSize - 8⟩) := by
  obtain ⟨r, hr, hread⟩ := h.exists_next hring hlt
  have hmem := Ring.mem_committed hr
  have haligned := aligned_of_ranges h8 hring.ranges r (hring.ranges.isPrefix.subset hmem)
  have hmod := haligned.padding_mod
  refine ⟨r, hr, ?_⟩
  by_cases hmsg : s.shared.readPos = r.messagePos
  · refine Or.inl ⟨hmsg, ?_⟩
    rw [hmsg]
    exact hring.messageHeader hmem hmsg.le
  · have hbegin := hread.resolve_right hmsg
    have hroom : 8 ≤ r.paddingSize := by
      rw [hbegin, Reservation.messagePos] at hmsg
      omega
    refine Or.inr ⟨hbegin, hroom, ?_⟩
    rw [hbegin]
    exact hring.paddingHeader h8 hmem hbegin.le hroom

omit [DecidableEq ι] in
/-- Nothing is missing once the consumer has caught up. -/
theorem drained (hring : Ring bufferSize s) (heq : s.shared.readPos = s.shared.commitPos) :
    s.obtained = deliverable interestedType s.committed := by
  obtain ⟨c, hc, hread⟩ := h.position
  have hall : s.committed.take s.released = s.committed := by
    refine List.take_of_length_le ?_
    by_contra hlt
    obtain ⟨r, hr⟩ : ∃ r, r ∈ s.committed[s.released]? :=
      ⟨_, Option.mem_def.2 (List.getElem?_eq_getElem (not_le.1 hlt))⟩
    have hmem := Ring.mem_committed hr
    have hbegin := hc.end_unique (hring.tiles_released hr).1
    have hend := (hring.ranges.committed.bounds hmem).2.2
    have hfits := hring.ranges.fits r (hring.ranges.isPrefix.subset hmem)
    have hlt' := hfits.myBegin_lt
    rcases hread with hread | ⟨r', hr', hread⟩
    · omega
    · rw [Option.mem_unique hr' hr, Reservation.messagePos] at hread
      have hpos := hfits.size_pos
      rw [Reservation.myEnd, Reservation.required] at hend
      omega
  rw [h.obtained, hall]

omit [DecidableEq ι] in
theorem obtained_isPrefix : s.obtained <+: deliverable interestedType s.committed := by
  rw [h.obtained]
  exact ((List.take_prefix _ _).map _).filter _

omit [DecidableEq ι] in
/-- Steps of the producers only add ranges that are committed. -/
theorem mono {p : Producers ι} (hread : p.shared.readPos = s.shared.readPos)
    (hcommitted : s.committed <+: p.committed) :
    Delivered bufferSize interestedType { s with toProducers := p } := by
  obtain ⟨rest, hrest⟩ := hcommitted
  have htake : p.committed.take s.released = s.committed.take s.released := by
    rw [← hrest, List.take_append_of_le_length h.released_le]
  -- the next range of the consumer, if there is one, stays the next
  have hnext : ∀ r ∈ s.committed[s.released]?, r ∈ p.committed[s.released]? := by
    intro r hr
    obtain ⟨hn, -⟩ := List.getElem?_eq_some_iff.1 (Option.mem_def.1 hr)
    rw [← hrest, List.getElem?_append_left hn]
    exact hr
  refine ⟨?_, ?_, ?_, ?_, h.reads⟩
  · refine h.released_le.trans ?_
    simp [← hrest]
  · show s.obtained = deliverable interestedType (p.committed.take s.released)
    rw [htake]
    exact h.obtained
  · obtain ⟨c, hc, hpos⟩ := h.position
    refine ⟨c, ?_, ?_⟩
    · show Tiles _ _ 0 (p.committed.take s.released) c
      rw [htake]
      exact hc
    · rcases hpos with hpos | ⟨r, hr, hpos⟩
      · exact Or.inl (hread.trans hpos)
      · exact Or.inr ⟨r, hnext r hr, hread.trans hpos⟩
  · have hrecv := h.recv
    show s.recv.Knows interestedType p.committed[s.released]?
    cases hp : s.recv with
    | readPayload readPos nextReadPos type payloadSize =>
        rw [hp] at hrecv
        obtain ⟨r, hr, hrest'⟩ := hrecv
        exact ⟨r, hnext r hr, hrest'⟩
    | storeReadPos value result =>
        rw [hp] at hrecv
        cases result with
        | none =>
            obtain ⟨r, hr, hrest'⟩ := hrecv
            exact ⟨r, hnext r hr, hrest'⟩
        | some result =>
            obtain ⟨r, hr, hrest'⟩ := hrecv
            exact ⟨r, hnext r hr, hrest'⟩
    | _ => trivial

/-- **The steps of the producers keep the delivery.** -/
theorem send {p : Producers ι} {a : SendAction ι} (he : SendEffect bufferSize s.toProducers a p) :
    Delivered bufferSize interestedType { s with toProducers := p } := by
  cases he with
  | checkSpace i m readPos hpc =>
      rw [Producers.checkSpace]
      split_ifs <;> exact h.mono rfl List.prefix_rfl
  | commit i r hpc heq => exact h.mono rfl (List.prefix_append _ _)
  | _ => exact h.mono rfl List.prefix_rfl

omit [DecidableEq ι] in
/-- Steps of the consumer that do not store to `readPos`. -/
theorem moveRecv {recv : RecvPc} (hrecv : recv.Knows interestedType s.committed[s.released]?) :
    Delivered bufferSize interestedType { s with recv := recv } :=
  ⟨h.released_le, h.obtained, h.position, hrecv, h.reads⟩

omit [DecidableEq ι] in
/-- Steps of the consumer that read a block of the ring. -/
theorem readBuffer {offset size : ℕ} {next : List UInt8 → RecvPc} (hle : offset + size ≤ bufferSize)
    (hrecv : (next (ByteString.read s.shared.buffer offset size)).Knows interestedType
      s.committed[s.released]?) :
    Delivered bufferSize interestedType (s.readBuffer offset size next) := by
  refine ⟨h.released_le, h.obtained, h.position, hrecv, ?_⟩
  intro b hb
  rcases List.mem_append.1 hb with hold | hnew
  · exact h.reads b hold
  · rw [List.mem_singleton.1 hnew]
    exact hle

omit [DecidableEq ι] in
/-- The header of the next record decides what the consumer does. -/
theorem afterHeader (h8 : bufferSize % 8 = 0) (hring : Ring bufferSize s) {commitPos : ℕ}
    (hlt : s.shared.readPos < s.shared.commitPos) :
    (MpscQueue.afterHeader interestedType
      (.ofBytes (ByteString.read s.shared.buffer (s.shared.readPos % bufferSize) 8))
      s.shared.readPos commitPos).Knows interestedType s.committed[s.released]? := by
  obtain ⟨r, hr, hcase⟩ := h.header h8 hring hlt
  have hwon := hring.ranges.isPrefix.subset (Ring.mem_committed hr)
  have haligned := aligned_of_ranges h8 hring.ranges r hwon
  rcases hcase with ⟨hread, hheader⟩ | ⟨hread, hroom, hheader⟩
  · have hend : s.shared.readPos + messageSize r.message = r.myEnd := by
      rw [hread, Reservation.messagePos, Reservation.myEnd, Reservation.required, Nat.add_assoc]
    rw [hheader, afterHeader_message interestedType (hring.ranges.fits r hwon).small
      (hring.sending.won r hwon), hend]
    split_ifs with hlarge hwanted hsize
    · trivial
    · exact ⟨r, hr, hread, rfl, rfl, rfl, hwanted⟩
    · exact ⟨r, hr, rfl, by rw [if_pos hwanted]⟩
    · exact ⟨r, hr, rfl, by rw [if_neg hwanted]⟩
  · have hmod := haligned.padding_mod
    have hpad := haligned.padding_lt
    rw [hheader, afterHeader_padding interestedType hroom (by omega) hmod]
    split_ifs with hlarge
    · trivial
    · exact ⟨r, hr, by rw [hread, Reservation.messagePos]⟩

omit [DecidableEq ι] in
/-- The store to `readPos`. -/
theorem release (hring : Ring bufferSize s) {value : ℕ} {result : Option (Option Message)}
    (hk : (RecvPc.storeReadPos value result).Knows interestedType s.committed[s.released]?) :
    Delivered bufferSize interestedType (s.release value result) := by
  cases result with
  | none =>
      obtain ⟨r, hr, rfl⟩ := hk
      obtain ⟨c, hc, -⟩ := h.position
      exact ⟨h.released_le, h.obtained, ⟨c, hc, Or.inr ⟨r, hr, rfl⟩⟩, trivial, h.reads⟩
  | some result =>
      obtain ⟨r, hr, rfl, hresult⟩ := hk
      obtain ⟨htiles, hsucc⟩ := hring.tiles_released hr
      obtain ⟨hn, -⟩ := List.getElem?_eq_some_iff.1 (Option.mem_def.1 hr)
      have hlt := (hring.ranges.fits r (hring.ranges.isPrefix.subset (Ring.mem_committed hr))).myBegin_lt
      refine ⟨hn, ?_, ⟨r.myEnd, ?_, Or.inl rfl⟩, trivial, h.reads⟩
      · show s.obtained ++ result.toList =
          deliverable interestedType (s.committed.take (s.released + 1))
        rw [hsucc, h.obtained, hresult]
        simp only [deliverable, List.map_append, List.filter_append, List.map_cons, List.map_nil]
        refine (List.append_right_inj _).2 ?_
        split_ifs with hwanted
        · simp [hwanted]
        · simp [hwanted]
      · show Tiles _ _ 0 (s.committed.take (s.released + 1)) r.myEnd
        rw [hsucc]
        exact htiles.snoc rfl hlt

omit [DecidableEq ι] in
/-- **The steps of the consumer keep the delivery.** -/
theorem receive (h8 : bufferSize % 8 = 0) (hpos : 0 < bufferSize) (hring : Ring bufferSize s) :
    Delivered bufferSize interestedType (recvStep bufferSize interestedType s) := by
  have hwindow := hring.window.recv
  have hknows := h.recv
  have htail := tailSpace_ge h8 hpos hring.window.readPos_mod
  cases hp : s.recv with
  | idle result =>
      rw [recvStep, hp]
      exact h.moveRecv trivial
  | loadReadPos =>
      rw [recvStep, hp]
      exact h.moveRecv trivial
  | loadCommitPos readPos =>
      rw [hp] at hwindow
      have hread : readPos = s.shared.readPos := hwindow
      simp only [recvStep, hp, State.peek]
      split_ifs with hempty hshort
      · exact h.moveRecv trivial
      · rw [hread] at hshort
        omega
      · exact h.moveRecv trivial
  | readHeader readPos commitPos =>
      rw [hp] at hwindow
      obtain ⟨hread, hlt, hcommit⟩ := hwindow
      have hbelow : s.shared.readPos < s.shared.commitPos := by omega
      rw [recvStep, hp]
      subst hread
      exact h.readBuffer (by omega) (h.afterHeader h8 hring hbelow)
  | readPayload readPos nextReadPos type payloadSize =>
      rw [hp] at hwindow hknows
      obtain ⟨hread, -⟩ := hwindow
      obtain ⟨r, hr, hmsg, rfl, rfl, rfl, hwanted⟩ := hknows
      have hmem := Ring.mem_committed hr
      have hfits := hring.ranges.fits r (hring.ranges.isPrefix.subset hmem)
      have hsize := le_messageSize hfits.small
      have hblock := hfits.message_fits
      rw [recvStep, hp]
      refine h.readBuffer ?_ ?_
      · rw [hmsg]
        omega
      · refine ⟨r, hr, rfl, ?_⟩
        rw [if_pos hwanted, hmsg, hring.payload hmem (by omega)]
  | storeReadPos value result =>
      rw [hp] at hknows
      rw [recvStep, hp]
      exact h.release hring hknows

end Delivered

/-! ### Every run -/

/-- The automaton `freshSystem`, where only text, number and stop messages are sent. -/
def sendableSystem (ι : Type*) [DecidableEq ι] (bufferSize : ℕ) (interestedType : MessageType) :
    Automaton (State ι) (Action ι) :=
  (freshSystem ι bufferSize interestedType).restrict fun _ a =>
    ∀ b ∈ a.send?, ∀ m ∈ b.message?, m.type.Sendable

section Runs

variable (h8 : bufferSize % 8 = 0) (hpos : 0 < bufferSize) (h64 : bufferSize < 2 ^ 64)

include h8 hpos h64

theorem ring_of_reachable (h : (sendableSystem ι bufferSize interestedType).Reachable s) :
    Ring bufferSize s := by
  have hproducers : ∀ {s : State ι}, (sendableSystem ι bufferSize interestedType).Reachable s →
      Ranges bufferSize s.toProducers ∧ Written bufferSize s.toProducers ∧ Window bufferSize s := by
    intro s h
    have hsmall := (systemSimulation bufferSize interestedType).reachable h.of_restrict.of_restrict
    exact ⟨ranges_of_reachable hsmall, written_of_reachable hsmall,
      window_of_fresh h8 hpos h64 h.of_restrict⟩
  have hrest : Stored bufferSize s.toProducers ∧
      Sending (fun m => m.type.Sendable) s.toProducers := by
    refine h.invariant (I := fun s => Stored bufferSize s.toProducers ∧
      Sending (fun m => m.type.Sendable) s.toProducers) ?_ ?_
    · intro s hs
      rw [show s = State.initial from hs]
      refine ⟨?_, ?_, ?_⟩
      · intro r b _ hlog
        simp [State.initial, Producers.initial] at hlog
      · simp [State.initial, Producers.initial, SendPc.message?]
      · simp [State.initial, Producers.initial]
    · intro s a s' hr hI hs
      obtain ⟨hstored, hsending⟩ := hI
      obtain ⟨hranges, hwritten, hwindow⟩ := hproducers hr
      obtain ⟨ha, hs⟩ := Automaton.restrict_step_eq_some.1 hs
      obtain ⟨-, hs⟩ := Automaton.restrict_step_eq_some.1 hs
      obtain ⟨-, hs⟩ := Automaton.restrict_step_eq_some.1 hs
      cases a with
      | send a =>
          obtain ⟨p, hp, rfl⟩ := Option.map_eq_some_iff.1 hs
          have he := effect_of_sendStep hp
          exact ⟨hstored.send hranges hwritten hwindow.readPos_le hwindow.reservePos_le he,
            hsending.step (fun m hm _ => ha a rfl m hm) he⟩
      | receive =>
          rw [← Option.some.inj hs]
          rcases toProducers_recvStep bufferSize interestedType s with heq | ⟨value, _, hp, heq⟩
          · rw [heq]
            exact ⟨hstored, hsending⟩
          · have hrecv := hwindow.recv
            rw [hp] at hrecv
            rw [heq]
            exact ⟨hstored.of_eq rfl rfl hrecv.1, hsending.trying, hsending.won⟩
  obtain ⟨hranges, hwritten, hwindow⟩ := hproducers h
  exact ⟨hranges, hwritten, hrest.1, hwindow, hrest.2⟩

theorem delivered_of_reachable (h : (sendableSystem ι bufferSize interestedType).Reachable s) :
    Delivered bufferSize interestedType s := by
  refine h.invariant ?_ ?_
  · intro s hs
    rw [show s = State.initial from hs]
    refine ⟨le_rfl, rfl, ⟨0, rfl, Or.inl rfl⟩, trivial, ?_⟩
    simp [State.initial]
  · intro s a s' hr hI hs
    obtain ⟨-, hs⟩ := Automaton.restrict_step_eq_some.1 hs
    obtain ⟨-, hs⟩ := Automaton.restrict_step_eq_some.1 hs
    obtain ⟨-, hs⟩ := Automaton.restrict_step_eq_some.1 hs
    cases a with
    | send a =>
        obtain ⟨p, hp, rfl⟩ := Option.map_eq_some_iff.1 hs
        exact hI.send (effect_of_sendStep hp)
    | receive =>
        rw [← Option.some.inj hs]
        exact hI.receive h8 hpos (ring_of_reachable h8 hpos h64 hr)

end Runs

omit [DecidableEq ι] in
/-- A message that has been written stays inside of the ring. -/
theorem Ring.written_stop_le (h : Ring bufferSize s) {e : LogEntry ι} (he : e ∈ s.written) :
    e.write.stop ≤ bufferSize := by
  obtain ⟨hwon, hmem, -⟩ := h.written.sound e he
  exact write_stop_le (h.ranges.fits _ hwon) hmem

end MpscQueue
