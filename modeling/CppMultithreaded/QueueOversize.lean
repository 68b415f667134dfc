/-
**Payloads that are too large for the shared-memory queue.**

`TrySend` compares the size of the record with the size of the ring.  The size is computed in
`uint32_t`, the payload is copied with its real length.  For a payload close to `2 ^ 32` bytes the sum
wraps around, and for a longer one its length is cut off, so that the check lets through a record for
which too little is reserved.

Main definitions:

* `MpscQueue.recordSize` — the size of a record, computed without wrap;
* `MpscQueue.Reservation.Contained` — all that is written for a range is inside of it and of the ring;
* `MpscQueue.producersAnywhere` — the producers, from any three positions on;
* `MpscQueue.SizeChecked` — payloads that are too large are rejected, the others stay in their ranges.

Main results:

* `MpscQueue.contained_of_fits` — the range of a short payload contains what is written for it;
* `MpscQueue.not_contained_of_long` — no range contains the payload of any other message;
* `MpscQueue.sizeChecked_iff` — **the check is right exactly for the payloads that do not wrap, and for
  those that are too large even after they have been cut off**;
* `MpscQueue.truncated_payload_accepted` — a payload of `2 ^ 32` bytes is accepted by a ring of eight.
-/

import CppMultithreaded.QueueEmpty

set_option relaxedAutoImplicit false
set_option autoImplicit false

namespace MpscQueue

variable {ι : Type*} {bufferSize : ℕ}

/-! ### Sizes that wrap around -/

/-- The size of the record of a payload, computed without wrap. -/
def recordSize (payloadSize : ℕ) : ℕ := (8 + payloadSize + 7) / 8 * 8

theorem messageSize_eq_recordSize {m : Message} (h : m.Small) :
    messageSize m = recordSize m.payload.length := by
  rw [messageSize_eq h, recordSize]
  omega

/-- The size that is computed is that of the payload as far as `uint32_t` holds its length. -/
theorem messageSize_of_mod {m : Message} (h : m.payload.length % 2 ^ 32 ≤ 2 ^ 32 - 16) :
    messageSize m = (m.payload.length % 2 ^ 32 + 15) / 8 * 8 := by
  have hlen : u32 m.payload.length = m.payload.length % 2 ^ 32 := rfl
  rw [messageSize, hlen, u32_of_lt (x := 8 + m.payload.length % 2 ^ 32) (by omega),
    alignUp_eq (by omega)]
  omega

/-- Where the rounding wraps around, next to nothing is left. -/
theorem messageSize_of_wrap {m : Message} (h : 2 ^ 32 - 16 < m.payload.length % 2 ^ 32) :
    messageSize m ≤ 8 := by
  simp only [messageSize, alignUp, alignment, u32]
  omega

/-- The record of a long payload is larger than the size that is computed for it. -/
theorem messageSize_le_of_long {m : Message} (h : ¬m.Small) :
    messageSize m ≤ m.payload.length := by
  rw [Message.Small] at h
  by_cases hmod : m.payload.length % 2 ^ 32 ≤ 2 ^ 32 - 16
  · rw [messageSize_of_mod hmod]
    omega
  · have hwrap := messageSize_of_wrap (not_le.1 hmod)
    omega

/-! ### What is written for a range -/

/-- Every byte that is written for the range is inside of it and of the ring, and the header says how
long the payload is. -/
structure Reservation.Contained (bufferSize : ℕ) (r : Reservation ι) : Prop where
  bytes : ∀ w ∈ r.writes bufferSize, ∀ a, w.pos ≤ a → a < w.stop →
    a < bufferSize ∧ ∃ p, r.myBegin ≤ p ∧ p < r.myEnd ∧ p % bufferSize = a
  payloadSize : (messageHeader r.message).payloadSize = r.message.payload.length

/-- **The range of a short payload contains what is written for it.** -/
theorem contained_of_fits {r : Reservation ι} (h : r.Fits bufferSize) : r.Contained bufferSize := by
  refine ⟨?_, payloadSize_messageHeader h.small⟩
  intro w hw a hpos hstop
  have hle := write_stop_le h hw
  rw [writes_eq h] at hw
  obtain ⟨b, hb, rfl⟩ := List.mem_map.1 hw
  obtain ⟨hbegin, -, hend⟩ := bounds_of_mem_blocks h hb
  rw [Write.stop] at hend hstop hle
  simp only [Write.wrap] at hpos hstop hle
  -- the byte is as far from the address of the block as from the position it stands for
  have hmod : (b.pos + (a - b.pos % bufferSize)) % bufferSize = b.pos % bufferSize +
      (a - b.pos % bufferSize) := CyclicBuffer.add_mod_of_lt (by omega)
  exact ⟨by omega, b.pos + (a - b.pos % bufferSize), by omega, by omega, by omega⟩

/-- **No range contains a payload that is not short.** -/
theorem not_contained_of_long {r : Reservation ι} (hlong : ¬r.message.Small)
    (hbegin : r.messagePos = 0) (hend : r.myEnd ≤ bufferSize) : ¬r.Contained bufferSize := by
  intro h
  have hsize := messageSize_le_of_long hlong
  have hne : r.message.payload ≠ [] := by
    intro hnil
    rw [Message.Small, hnil, List.length_nil] at hlong
    exact hlong (by omega)
  have hlen : 0 < r.message.payload.length := List.length_pos_iff.2 hne
  have hmem : (⟨8, r.message.payload⟩ : Write) ∈ r.writes bufferSize := by
    refine List.mem_append_right _ ?_
    rw [hbegin, Nat.zero_mod, writeMessageRecord, if_neg hne]
    simp
  -- the last byte of the payload
  obtain ⟨-, p, -, hp, hmod⟩ := h.bytes _ hmem (r.message.payload.length + 7) (by simp; omega)
    (by simp only [Write.stop]; omega)
  rw [Nat.mod_eq_of_lt (by omega)] at hmod
  rw [Reservation.messagePos] at hbegin
  rw [Reservation.myEnd, Reservation.required] at hp
  omega

/-! ### The check of the size -/

variable [DecidableEq ι]

/-- The automaton `producers`, from any positions and any contents of the ring on. -/
def producersAnywhere (ι : Type*) [DecidableEq ι] (bufferSize : ℕ) :
    Automaton (Producers ι) (ProducersAction ι) where
  init s := (∀ i, (s.pc i).isIdle) ∧ s.won = []
  step := producersStep bufferSize

/-- `TrySend(m)` of producer `i` throws exactly when the record is larger than the ring, and whatever
it reserves contains what is written for it. -/
structure SizeChecked (bufferSize : ℕ) (i : ι) (m : Message) : Prop where
  throws : ∀ s s' : Producers ι, sendStep bufferSize s (.trySend i m) = some s' →
    (s'.pc i = .idle (some (.error tooLarge)) ↔ bufferSize < recordSize m.payload.length)
  contained : ∀ s, (producersAnywhere ι bufferSize).Reachable s → ∀ r ∈ s.won, r.owner = i →
    r.message = m → r.Contained bufferSize

/-- Only the check at the start of a call throws. -/
theorem throws_on_entry {s s' : Producers ι} {a : SendAction ι} {i : ι} {e : String}
    (he : SendEffect bufferSize s a s') (ha : a.message? = none)
    (h : s'.pc i = .idle (some (.error e))) : s.pc i = .idle (some (.error e)) := by
  cases he with
  | call j m result hpc => simp [SendAction.message?] at ha
  | wait j b => exact h
  | checkSpace j m readPos hpc =>
      rw [Producers.checkSpace] at h
      rcases eq_or_ne i j with rfl | hne
      · split_ifs at h <;> simp [Producers.goto] at h
      · split_ifs at h <;> simpa [Producers.goto, hne] using h
  | loadReadPos j | retry j | win j | write j | commit j =>
      rcases eq_or_ne i j with rfl | hne
      · simp [Producers.goto, Producers.win, Producers.write, Producers.commit] at h
      · simpa [Producers.goto, Producers.win, Producers.write, Producers.commit, hne] using h

theorem call_throws_iff {s s' : Producers ι} {i : ι} {m : Message}
    (h : sendStep bufferSize s (.trySend i m) = some s') :
    s'.pc i = .idle (some (.error tooLarge)) ↔ bufferSize < messageSize m := by
  cases effect_of_sendStep h with
  | call _ _ result hpc =>
      simp only [Producers.call, Producers.goto, Function.update_self]
      split_ifs with hlarge <;> simp [hlarge]

/-- A step wins at most one range, with the padding that belongs to its start. -/
theorem won_of_effect {s s' : Producers ι} {a : SendAction ι} (he : SendEffect bufferSize s a s') :
    s'.won = s.won ∨ ∃ i m, s'.won =
      s.won ++ [reservation bufferSize i (s.calls i) m s.shared.reservePos] := by
  cases he with
  | win i m readPos hpc => exact Or.inr ⟨i, m, rfl⟩
  | checkSpace i m readPos hpc =>
      rw [Producers.checkSpace]
      split_ifs <;> exact Or.inl rfl
  | _ => exact Or.inl rfl

/-- What has been won has passed the check, and has the padding that belongs to its start. -/
structure Admitted (bufferSize : ℕ) (s : Producers ι) : Prop where
  sending : Sending (fun m => messageSize m ≤ bufferSize) s
  padding : ∀ r ∈ s.won, r.paddingSize =
    paddingSizeAt bufferSize r.myBegin (messageSize r.message)

theorem admitted_of_reachable {s : Producers ι} (h : (producersAnywhere ι bufferSize).Reachable s) :
    Admitted bufferSize s := by
  refine h.invariant ?_ ?_
  · intro s hinit
    obtain ⟨hidle, hwon⟩ := hinit
    refine ⟨⟨?_, by simp [hwon]⟩, by simp [hwon]⟩
    intro i m hm
    have hi := hidle i
    cases hp : s.pc i <;> simp [hp, SendPc.message?, SendPc.isIdle] at hm hi
  · intro s a s' _ hI hs
    cases a with
    | storeReadPos value =>
        rw [← Option.some.inj hs]
        exact ⟨⟨hI.sending.trying, hI.sending.won⟩, hI.padding⟩
    | send a =>
        have he := effect_of_sendStep hs
        refine ⟨hI.sending.step (fun m _ hm => hm) he, ?_⟩
        rcases won_of_effect he with hwon | ⟨i, m, hwon⟩
        · rw [hwon]
          exact hI.padding
        · intro r hr
          rw [hwon] at hr
          rcases List.mem_append.1 hr with hold | hnew
          · exact hI.padding r hold
          · rw [List.mem_singleton.1 hnew]
            rfl

/-- The payload does not wrap, or is too large even after its length has been cut off. -/
def Message.Checkable (bufferSize : ℕ) (m : Message) : Prop :=
  m.payload.length ≤ 2 ^ 32 - 16 ∨
    m.payload.length % 2 ^ 32 ≤ 2 ^ 32 - 16 ∧ bufferSize < recordSize (m.payload.length % 2 ^ 32)

/-- Where the payload is not short, the check lets through exactly those that wrap. -/
theorem checkable_iff_of_long (h8 : 8 ≤ bufferSize) {m : Message} (hlong : ¬m.Small) :
    m.Checkable bufferSize ↔ bufferSize < messageSize m := by
  rw [Message.Small] at hlong
  rw [Message.Checkable, or_iff_right hlong]
  by_cases hmod : m.payload.length % 2 ^ 32 ≤ 2 ^ 32 - 16
  · rw [messageSize_of_mod hmod, recordSize, and_iff_right hmod]
    omega
  · have hwrap := messageSize_of_wrap (not_le.1 hmod)
    constructor
    · rintro ⟨hle, -⟩
      exact absurd hle hmod
    · intro hlt
      omega

/-- The steps by which producer `i` wins its first range. -/
def firstWin (i : ι) (m : Message) : List (ProducersAction ι) :=
  [ProducersAction.send (.trySend i m), .send (.loadReadPos i), .send (.loadReservePos i),
    .send (.compareExchangeReserve i false)]

/-- In an empty ring a record that passes the check gets the range at its start. -/
theorem exists_first_range (h64 : bufferSize < 2 ^ 64) (i : ι) {m : Message}
    (hle : messageSize m ≤ bufferSize) :
    ∃ s, (producersAnywhere ι bufferSize).Reachable s ∧ ⟨i, 1, m, 0, 0⟩ ∈ s.won := by
  have hfree : ¬freeSpace bufferSize 0 0 < messageSize m := by
    rw [freeSpace_self h64]
    exact not_lt.2 hle
  have hpad : paddingSizeAt bufferSize 0 (messageSize m) = 0 := by
    rw [paddingSizeAt, Nat.zero_mod, if_neg (by omega)]
  have hrun : ((producersAnywhere ι bufferSize).run Producers.initial (firstWin i m)).map
      Producers.won = some [⟨i, 1, m, 0, 0⟩] := by
    simp [firstWin, Automaton.run, producersAnywhere, producersStep, sendStep, Producers.initial,
      Producers.call, Producers.goto, Producers.checkSpace, Producers.win, reservation, hpad, hfree,
      not_lt.2 hle]
  obtain ⟨s, hs, hwon⟩ := Option.map_eq_some_iff.1 hrun
  refine ⟨s, Automaton.Reachable.of_run ⟨?_, rfl⟩ hs, by simp [hwon]⟩
  intro j
  rfl

/-- **The check of the size is right** exactly for the payloads that do not wrap, and for those that
are too large even after their length has been cut off. -/
theorem sizeChecked_iff (h8 : 8 ≤ bufferSize) (h64 : bufferSize < 2 ^ 64) (i : ι) (m : Message) :
    SizeChecked bufferSize i m ↔
      m.payload.length ≤ 2 ^ 32 - 16 ∨ m.payload.length % 2 ^ 32 ≤ 2 ^ 32 - 16 ∧
        bufferSize < recordSize (m.payload.length % 2 ^ 32) := by
  change SizeChecked bufferSize i m ↔ m.Checkable bufferSize
  by_cases hsmall : m.Small
  · refine iff_of_true ⟨?_, ?_⟩ (Or.inl hsmall)
    · intro s s' hs
      rw [call_throws_iff hs, messageSize_eq_recordSize hsmall]
    · rintro s hs r hr - rfl
      have hadmitted := admitted_of_reachable hs
      exact contained_of_fits ⟨hsmall, hadmitted.sending.won r hr, hadmitted.padding r hr⟩
  rw [checkable_iff_of_long h8 hsmall]
  constructor
  · -- a record that is let through has a range that does not contain it
    intro h
    by_contra hlt
    obtain ⟨s, hs, hr⟩ := exists_first_range h64 i (not_lt.1 hlt)
    refine not_contained_of_long hsmall ?_ ?_ (h.contained s hs _ hr rfl rfl)
    · rfl
    · simpa [Reservation.myEnd, Reservation.required] using hlt
  · intro hlt
    refine ⟨?_, ?_⟩
    · intro s s' hs
      have hlong := messageSize_le_of_long hsmall
      rw [call_throws_iff hs, iff_true_left hlt, recordSize]
      omega
    · -- nothing is reserved for a record that is rejected
      rintro s hs r hr - rfl
      exact absurd ((admitted_of_reachable hs).sending.won r hr) (not_le.2 hlt)

/-- A ring of eight bytes rejects a payload of one byte. -/
theorem sizeChecked_iff_one_byte : SizeChecked 8 (0 : Fin 1) ⟨.text, [0]⟩ :=
  (sizeChecked_iff (by decide) (by decide) 0 ⟨.text, [0]⟩).2 (Or.inl (by decide))

/-- A ring of eight bytes accepts a payload of `2 ^ 32` bytes. -/
theorem truncated_payload_accepted :
    ¬∀ bufferSize : ℕ, 8 ≤ bufferSize → bufferSize < 2 ^ 64 → ∀ m : Message,
      m.payload.length < 2 ^ 64 → SizeChecked bufferSize (0 : Fin 1) m := by
  intro hall
  have hlen : (List.replicate (2 ^ 32) (0 : UInt8)).length = 2 ^ 32 := List.length_replicate
  have h := hall 8 (by decide) (by decide) ⟨.text, List.replicate (2 ^ 32) 0⟩ (by
    rw [hlen]
    decide)
  have hsize : messageSize ⟨.text, List.replicate (2 ^ 32) 0⟩ = 8 := by
    rw [messageSize, hlen]
    decide
  obtain ⟨s', hs⟩ : ∃ s', sendStep 8 (Producers.initial : Producers (Fin 1))
      (.trySend 0 ⟨.text, List.replicate (2 ^ 32) 0⟩) = some s' := ⟨_, rfl⟩
  have hthrows := (h.throws _ s' hs).2 (by
    rw [hlen]
    decide)
  rw [call_throws_iff hs, hsize] at hthrows
  exact absurd hthrows (by decide)

end MpscQueue
