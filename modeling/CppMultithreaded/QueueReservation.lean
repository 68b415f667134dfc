/-
**Reservation and publication in the shared-memory queue.**

Any number of producers reserve ranges of the ring, write their records, and publish the ranges, in an
environment that stores arbitrary values to `readPos`.  The history lists the ranges won and the
ranges committed; the invariants tie both to the two positions.

Main definitions:

* `MpscQueue.Ranges` — the ranges won tile `[0, reservePos)`, and those committed are a first part of
  them that tiles `[0, commitPos)`;
* `MpscQueue.Written` — the writes made, for the ranges committed and for those being written;
* `MpscQueue.replay` — the ring after the writes of the log;
* `MpscQueue.ProgramOrder` — the ranges of one producer come from calls of increasing number.

Main results:

* `MpscQueue.Ranges.step`, `MpscQueue.Written.step`, `MpscQueue.ProgramOrder.step` — every step keeps
  the invariants;
* `MpscQueue.Ranges.committed_snoc` — **only the owner of the next range can commit**;
* `MpscQueue.buffer_eq_replay` — the ring holds the writes of the log;
* `MpscQueue.reservation_discipline` — **reservation and publication**: in every reachable state the
  ranges tile, are committed in order, and are completely written once they are committed.
-/

import CppMultithreaded.QueueModel

set_option relaxedAutoImplicit false
set_option autoImplicit false

namespace MpscQueue

open Tiling (Tiles)

variable {ι : Type*} {bufferSize : ℕ}

/-! ### Sizes -/

/-- What a range that has been won satisfies. -/
structure Reservation.Fits (bufferSize : ℕ) (r : Reservation ι) : Prop where
  small : r.message.Small
  size_le : messageSize r.message ≤ bufferSize
  padding : r.paddingSize = paddingSizeAt bufferSize r.myBegin (messageSize r.message)

/-- The padding in front of a record is nothing, or the rest of the ring. -/
theorem paddingSizeAt_cases (bufferSize p : ℕ) {size : ℕ} (hsize : size < 2 ^ 32) :
    (paddingSizeAt bufferSize p size = 0 ∧ size ≤ bufferSize - p % bufferSize) ∨
      (paddingSizeAt bufferSize p size = bufferSize - p % bufferSize ∧
        bufferSize - p % bufferSize < size) := by
  rw [paddingSizeAt]
  split_ifs with h
  · exact Or.inr ⟨u32_of_lt (by omega), h⟩
  · exact Or.inl ⟨rfl, by omega⟩

section Fits

variable {r : Reservation ι} (h : r.Fits bufferSize)

include h

theorem Reservation.Fits.size_lt : messageSize r.message < 2 ^ 32 := messageSize_lt h.small

theorem Reservation.Fits.size_pos : 8 ≤ messageSize r.message := by
  have hle := le_messageSize h.small
  omega

theorem Reservation.Fits.myBegin_lt : r.myBegin < r.myEnd := by
  have hpos := h.size_pos
  rw [Reservation.myEnd, Reservation.required]
  omega

/-- A padding record ends with the ring. -/
theorem Reservation.Fits.padding_fits :
    r.myBegin % bufferSize + r.paddingSize ≤ bufferSize := by
  have hpos : 0 < bufferSize := lt_of_lt_of_le (by have := h.size_pos; omega) h.size_le
  have hmod := Nat.mod_lt r.myBegin hpos
  rw [h.padding]
  rcases paddingSizeAt_cases bufferSize r.myBegin h.size_lt with ⟨heq, -⟩ | ⟨heq, -⟩ <;> omega

/-- **A message record does not cross the end of the ring.** -/
theorem Reservation.Fits.message_fits :
    r.messagePos % bufferSize + messageSize r.message ≤ bufferSize := by
  have hpos : 0 < bufferSize := lt_of_lt_of_le (by have := h.size_pos; omega) h.size_le
  have hmod := Nat.mod_lt r.myBegin hpos
  rw [Reservation.messagePos, h.padding]
  rcases paddingSizeAt_cases bufferSize r.myBegin h.size_lt with ⟨heq, hle⟩ | ⟨heq, -⟩
  · rw [heq, Nat.add_zero]
    omega
  · -- after the padding the record starts at the first cell of the ring
    have hlap : r.myBegin + (bufferSize - r.myBegin % bufferSize) =
        bufferSize * (r.myBegin / bufferSize + 1) := by
      have hdiv := Nat.div_add_mod r.myBegin bufferSize
      rw [Nat.mul_add, Nat.mul_one]
      omega
    rw [heq, hlap, Nat.mul_mod_right, Nat.zero_add]
    exact h.size_le

end Fits

/-! ### The ranges -/

/-- The message for which a producer is looking for space. -/
def SendPc.message? : SendPc ι → Option Message
  | .loadReadPos m | .loadReservePos m _ | .reserving m _ _ => some m
  | _ => none

/-- The range that a producer has won and not yet committed. -/
def SendPc.range? : SendPc ι → Option (Reservation ι)
  | .writing r _ => some r
  | _ => none

/-- The ranges won tile `[0, reservePos)`; those committed are a first part of them and tile
`[0, commitPos)`; the others are being written by their owners. -/
structure Ranges (bufferSize : ℕ) (s : Producers ι) : Prop where
  fits : ∀ r ∈ s.won, r.Fits bufferSize
  won : Tiles Reservation.myBegin Reservation.myEnd 0 s.won s.shared.reservePos
  committed : Tiles Reservation.myBegin Reservation.myEnd 0 s.committed s.shared.commitPos
  isPrefix : s.committed <+: s.won
  writing : ∀ i r, (s.pc i).range? = some r →
    r ∈ s.won ∧ r.owner = i ∧ s.shared.commitPos ≤ r.myBegin
  pending : ∀ r ∈ s.won, r ∈ s.committed ∨ (s.pc r.owner).range? = some r
  trying : ∀ i m, (s.pc i).message? = some m → m.Small ∧ messageSize m ≤ bufferSize

namespace Ranges

variable {s s' : Producers ι} (h : Ranges bufferSize s)

include h

theorem commitPos_le : s.shared.commitPos ≤ s.shared.reservePos := by
  obtain ⟨rest, hrest⟩ := h.isPrefix
  have hwon := h.won
  rw [← hrest] at hwon
  obtain ⟨c, hc, htail⟩ := Tiling.Tiles.append_iff.1 hwon
  rw [h.committed.end_unique hc]
  exact htail.le

/-- A range ends at or below `commitPos` exactly when it has been committed. -/
theorem mem_committed_iff {r : Reservation ι} (hr : r ∈ s.won) :
    r ∈ s.committed ↔ r.myEnd ≤ s.shared.commitPos := by
  obtain ⟨rest, hrest⟩ := h.isPrefix
  have hwon := h.won
  rw [← hrest] at hwon hr
  exact ⟨fun hmem => (h.committed.bounds hmem).2.2, hwon.mem_prefix h.committed hr⟩

/-- **Only the owner of the next range can commit.** -/
theorem committed_snoc {r : Reservation ι} (hr : r ∈ s.won)
    (heq : s.shared.commitPos = r.myBegin) : s.committed ++ [r] <+: s.won := by
  obtain ⟨rest, hrest⟩ := h.isPrefix
  have hlt := (h.fits r hr).myBegin_lt
  have hnot : r ∉ s.committed := by
    rw [h.mem_committed_iff hr]
    omega
  have hwon := h.won
  rw [← hrest] at hwon
  obtain ⟨c, hc, htail⟩ := Tiling.Tiles.append_iff.1 hwon
  have hmem : r ∈ rest := by
    rw [← hrest] at hr
    exact (List.mem_append.1 hr).resolve_left hnot
  cases rest with
  | nil => simp at hmem
  | cons x rest =>
      have hx : x ∈ s.won := by simp [← hrest]
      have hlo : x.myBegin = r.myBegin := by rw [htail.1, ← h.committed.end_unique hc, heq]
      rw [h.won.eq_of_lo_eq hx hr hlo] at hrest
      exact ⟨rest, by rw [List.append_assoc, List.singleton_append, hrest]⟩

variable [DecidableEq ι]

/-- Steps that neither win nor commit a range. -/
theorem move {i : ι} {p : SendPc ι} (hreserve : s'.shared.reservePos = s.shared.reservePos)
    (hcommit : s'.shared.commitPos = s.shared.commitPos) (hwon : s'.won = s.won)
    (hcommitted : s'.committed = s.committed) (hpc : s'.pc = Function.update s.pc i p)
    (hrange : p.range? = (s.pc i).range?)
    (hm : ∀ m, p.message? = some m → m.Small ∧ messageSize m ≤ bufferSize) :
    Ranges bufferSize s' := by
  have hranges : ∀ j, (s'.pc j).range? = (s.pc j).range? := by
    intro j
    rcases eq_or_ne j i with rfl | hne
    · rw [hpc, Function.update_self, hrange]
    · rw [hpc, Function.update_of_ne hne]
  refine ⟨?_, ?_, ?_, ?_, ?_, ?_, ?_⟩
  · rw [hwon]
    exact h.fits
  · rw [hwon, hreserve]
    exact h.won
  · rw [hcommitted, hcommit]
    exact h.committed
  · rw [hwon, hcommitted]
    exact h.isPrefix
  · intro j r hj
    rw [hranges] at hj
    rw [hwon, hcommit]
    exact h.writing j r hj
  · intro r hr
    rw [hwon] at hr
    rw [hcommitted, hranges]
    exact h.pending r hr
  · intro j m hj
    rcases eq_or_ne j i with rfl | hne
    · rw [hpc, Function.update_self] at hj
      exact hm m hj
    · rw [hpc, Function.update_of_ne hne] at hj
      exact h.trying j m hj

theorem win {i : ι} {m : Message} {readPos : ℕ}
    (hpc : s.pc i = .reserving m readPos s.shared.reservePos) :
    Ranges bufferSize
      (s.win bufferSize i (reservation bufferSize i (s.calls i) m s.shared.reservePos)) := by
  have hm := h.trying i m (by rw [hpc]; rfl)
  have hnone : (s.pc i).range? = none := by rw [hpc]; rfl
  have hfits : (reservation bufferSize i (s.calls i) m s.shared.reservePos).Fits bufferSize :=
    ⟨hm.1, hm.2, rfl⟩
  generalize hr : reservation bufferSize i (s.calls i) m s.shared.reservePos = r at hfits ⊢
  have howner : r.owner = i := by rw [← hr]; rfl
  have hbegin : r.myBegin = s.shared.reservePos := by rw [← hr]; rfl
  refine ⟨?_, h.won.snoc hbegin hfits.myBegin_lt, h.committed,
    h.isPrefix.trans (List.prefix_append _ _), ?_, ?_, ?_⟩
  · intro r' hr'
    rcases List.mem_append.1 hr' with hold | hnew
    · exact h.fits r' hold
    · rw [List.mem_singleton.1 hnew]
      exact hfits
  · intro j r' hj
    rcases eq_or_ne j i with rfl | hne
    · simp only [Producers.win, Producers.goto, Function.update_self, SendPc.range?,
        Option.some.injEq] at hj
      rw [← hj]
      refine ⟨List.mem_append_right _ (List.mem_singleton_self r), howner, ?_⟩
      rw [hbegin]
      exact h.commitPos_le
    · simp only [Producers.win, Producers.goto, Function.update_of_ne hne] at hj
      obtain ⟨hmem, hrest⟩ := h.writing j r' hj
      exact ⟨List.mem_append_left _ hmem, hrest⟩
  · intro r' hr'
    rcases List.mem_append.1 hr' with hold | hnew
    · rcases h.pending r' hold with hcomm | hwriting
      · exact Or.inl hcomm
      · have hne : r'.owner ≠ i := by
          intro heq
          rw [heq, hnone] at hwriting
          simp at hwriting
        refine Or.inr ?_
        simp only [Producers.win, Producers.goto, Function.update_of_ne hne]
        exact hwriting
    · rw [List.mem_singleton.1 hnew, howner]
      refine Or.inr ?_
      simp only [Producers.win, Producers.goto, Function.update_self, SendPc.range?]
  · intro j m' hj
    rcases eq_or_ne j i with rfl | hne
    · simp [Producers.win, Producers.goto, SendPc.message?] at hj
    · simp only [Producers.win, Producers.goto, Function.update_of_ne hne] at hj
      exact h.trying j m' hj

theorem commit {i : ι} {r : Reservation ι} (hpc : s.pc i = .writing r [])
    (heq : s.shared.commitPos = r.myBegin) : Ranges bufferSize (s.commit i r) := by
  obtain ⟨hmem, howner, -⟩ := h.writing i r (by rw [hpc]; rfl)
  have hlt := (h.fits r hmem).myBegin_lt
  refine ⟨h.fits, h.won, h.committed.snoc heq.symm hlt, h.committed_snoc hmem heq, ?_, ?_, ?_⟩
  · intro j r' hj
    rcases eq_or_ne j i with rfl | hne
    · simp [Producers.commit, Producers.goto, SendPc.range?] at hj
    · simp only [Producers.commit, Producers.goto, Function.update_of_ne hne] at hj
      obtain ⟨hmem', howner', hle⟩ := h.writing j r' hj
      refine ⟨hmem', howner', ?_⟩
      -- two uncommitted ranges are disjoint, and the committed one is the first
      rcases h.won.trichotomy hmem hmem' with hsame | hdis | hdis
      · exact absurd (by rw [← howner', ← hsame, howner]) hne
      · exact hdis
      · have hlt' := (h.fits r' hmem').myBegin_lt
        omega
  · intro r' hr'
    rcases h.pending r' hr' with hcomm | hwriting
    · exact Or.inl (List.mem_append_left _ hcomm)
    · rcases eq_or_ne r'.owner i with hown | hne
      · rw [hown, hpc] at hwriting
        rw [← Option.some.inj hwriting]
        exact Or.inl (List.mem_append_right _ (List.mem_singleton_self r))
      · refine Or.inr ?_
        simp only [Producers.commit, Producers.goto, Function.update_of_ne hne]
        exact hwriting
  · intro j m hj
    rcases eq_or_ne j i with rfl | hne
    · simp [Producers.commit, Producers.goto, SendPc.message?] at hj
    · simp only [Producers.commit, Producers.goto, Function.update_of_ne hne] at hj
      exact h.trying j m hj

/-- **Every step of the producers keeps the ranges.** -/
theorem step {a : SendAction ι} (ha : a.Small) (he : SendEffect bufferSize s a s') :
    Ranges bufferSize s' := by
  cases he with
  | call i m result hpc =>
      refine h.move rfl rfl rfl rfl rfl ?_ ?_
      · rw [hpc]
        split_ifs <;> rfl
      · intro m' hm'
        split_ifs at hm' with hlarge
        · simp [SendPc.message?] at hm'
        · rw [← Option.some.inj hm']
          exact ⟨ha m rfl, not_lt.1 hlarge⟩
  | loadReadPos i m hpc =>
      have hm := h.trying i m (by rw [hpc]; rfl)
      refine h.move rfl rfl rfl rfl rfl (by rw [hpc]; rfl) ?_
      intro m' hm'
      rw [← Option.some.inj hm']
      exact hm
  | checkSpace i m readPos hpc =>
      have hm := h.trying i m (by rw [hpc]; rfl)
      rw [Producers.checkSpace]
      split_ifs
      · exact h.move rfl rfl rfl rfl rfl (by rw [hpc]; rfl) (by simp [SendPc.message?])
      · refine h.move rfl rfl rfl rfl rfl (by rw [hpc]; rfl) ?_
        intro m' hm'
        rw [← Option.some.inj hm']
        exact hm
  | retry i b m readPos reservePos hpc =>
      have hm := h.trying i m (by rw [hpc]; rfl)
      refine h.move rfl rfl rfl rfl rfl (by rw [hpc]; rfl) ?_
      intro m' hm'
      rw [← Option.some.inj hm']
      exact hm
  | win i m readPos hpc => exact h.win hpc
  | write i r w todo hpc =>
      exact h.move rfl rfl rfl rfl rfl (by rw [hpc]; rfl) (by simp [SendPc.message?])
  | wait i b => exact h
  | commit i r hpc heq => exact h.commit hpc heq

omit [DecidableEq ι] in
/-- The environment does not touch the ranges. -/
theorem storeReadPos (value : ℕ) : Ranges bufferSize (s.storeReadPos value) :=
  ⟨h.fits, h.won, h.committed, h.isPrefix, h.writing, h.pending, h.trying⟩

end Ranges

variable [DecidableEq ι] {s s' : Producers ι}

omit [DecidableEq ι] in
theorem ranges_initial : Ranges bufferSize (Producers.initial : Producers ι) := by
  refine ⟨?_, rfl, rfl, List.prefix_rfl, ?_, ?_, ?_⟩
  · simp [Producers.initial]
  · simp [Producers.initial, SendPc.range?]
  · simp [Producers.initial]
  · simp [Producers.initial, SendPc.message?]

/-- A property of the producers that holds initially, and that their steps and the stores of the
environment keep, holds of every reachable state. -/
theorem producers_invariant {I : Producers ι → Prop} (hinit : I Producers.initial)
    (hstep : ∀ s a s', (smallProducers ι bufferSize).Reachable s → I s → a.Small →
      SendEffect bufferSize s a s' → I s')
    (hstore : ∀ s value, I s → I (s.storeReadPos value))
    (h : (smallProducers ι bufferSize).Reachable s) : I s := by
  refine h.invariant ?_ ?_
  · intro s hs
    rw [show s = Producers.initial from hs]
    exact hinit
  · intro s a s' hr hI hs
    obtain ⟨ha, hs⟩ := Automaton.restrict_step_eq_some.1 hs
    cases a with
    | send a => exact hstep s a s' hr hI (ha a rfl) (effect_of_sendStep hs)
    | storeReadPos value =>
        rw [← Option.some.inj hs]
        exact hstore s value hI

theorem ranges_of_reachable (h : (smallProducers ι bufferSize).Reachable s) :
    Ranges bufferSize s :=
  producers_invariant ranges_initial (fun _ _ _ _ hI ha he => hI.step ha he)
    (fun _ value hI => hI.storeReadPos value) h

/-! ### The writes -/

/-- A range that is being written has had the writes that its owner has done with, and a range that
is committed has had all of them; no other writes are made. -/
structure Written (bufferSize : ℕ) (s : Producers ι) : Prop where
  writing : ∀ i r todo, s.pc i = .writing r todo →
    ∃ done, done ++ todo = r.writes bufferSize ∧ ∀ w ∈ done, ⟨i, r, w⟩ ∈ s.written
  committed : ∀ r ∈ s.committed, ∀ w ∈ r.writes bufferSize, ⟨r.owner, r, w⟩ ∈ s.written
  sound : ∀ e ∈ s.written,
    e.range ∈ s.won ∧ e.write ∈ e.range.writes bufferSize ∧ e.writer = e.range.owner

namespace Written

variable (h : Written bufferSize s)

include h

/-- Steps that make no write and do not touch the ranges. -/
theorem move {i : ι} {p : SendPc ι} (hwon : s'.won = s.won) (hcommitted : s'.committed = s.committed)
    (hwritten : s'.written = s.written) (hpc : s'.pc = Function.update s.pc i p)
    (hrange : p.range? = none) : Written bufferSize s' := by
  refine ⟨?_, ?_, ?_⟩
  · intro j r todo hj
    rw [hwritten]
    rcases eq_or_ne j i with rfl | hne
    · rw [hpc, Function.update_self] at hj
      rw [hj] at hrange
      simp [SendPc.range?] at hrange
    · rw [hpc, Function.update_of_ne hne] at hj
      exact h.writing j r todo hj
  · rw [hcommitted, hwritten]
    exact h.committed
  · rw [hwon, hwritten]
    exact h.sound

theorem win {i : ι} {r : Reservation ι} : Written bufferSize (s.win bufferSize i r) := by
  refine ⟨?_, h.committed, ?_⟩
  · intro j r' todo hj
    rcases eq_or_ne j i with rfl | hne
    · simp only [Producers.win, Producers.goto, Function.update_self, SendPc.writing.injEq] at hj
      obtain ⟨rfl, rfl⟩ := hj
      exact ⟨[], rfl, by simp⟩
    · simp only [Producers.win, Producers.goto, Function.update_of_ne hne] at hj
      exact h.writing j r' todo hj
  · intro e he
    obtain ⟨hmem, hrest⟩ := h.sound e he
    exact ⟨List.mem_append_left _ hmem, hrest⟩

theorem write (hr : Ranges bufferSize s) {i : ι} {r : Reservation ι} {w : Write} {todo : List Write}
    (hpc : s.pc i = .writing r (w :: todo)) : Written bufferSize (s.write i r w todo) := by
  obtain ⟨done, hdone, hlog⟩ := h.writing i r _ hpc
  obtain ⟨hmem, howner, -⟩ := hr.writing i r (by rw [hpc]; rfl)
  refine ⟨?_, ?_, ?_⟩
  · intro j r' todo' hj
    rcases eq_or_ne j i with rfl | hne
    · simp only [Producers.write, Producers.goto, Function.update_self, SendPc.writing.injEq] at hj
      obtain ⟨rfl, rfl⟩ := hj
      refine ⟨done ++ [w], by rw [List.append_assoc, List.singleton_append, hdone], ?_⟩
      intro w' hw'
      rcases List.mem_append.1 hw' with hold | hnew
      · exact List.mem_append_left _ (hlog w' hold)
      · rw [List.mem_singleton.1 hnew]
        exact List.mem_append_right _ (List.mem_singleton_self _)
    · simp only [Producers.write, Producers.goto, Function.update_of_ne hne] at hj
      obtain ⟨done', hdone', hlog'⟩ := h.writing j r' todo' hj
      exact ⟨done', hdone', fun w' hw' => List.mem_append_left _ (hlog' w' hw')⟩
  · intro r' hr' w' hw'
    exact List.mem_append_left _ (h.committed r' hr' w' hw')
  · intro e he
    rcases List.mem_append.1 he with hold | hnew
    · exact h.sound e hold
    · rw [List.mem_singleton.1 hnew]
      refine ⟨hmem, ?_, howner.symm⟩
      rw [← hdone]
      exact List.mem_append_right _ List.mem_cons_self

theorem commit (hr : Ranges bufferSize s) {i : ι} {r : Reservation ι}
    (hpc : s.pc i = .writing r []) : Written bufferSize (s.commit i r) := by
  obtain ⟨done, hdone, hlog⟩ := h.writing i r _ hpc
  obtain ⟨-, howner, -⟩ := hr.writing i r (by rw [hpc]; rfl)
  refine ⟨?_, ?_, h.sound⟩
  · intro j r' todo hj
    rcases eq_or_ne j i with rfl | hne
    · simp [Producers.commit, Producers.goto] at hj
    · simp only [Producers.commit, Producers.goto, Function.update_of_ne hne] at hj
      exact h.writing j r' todo hj
  · intro r' hr' w hw
    rcases List.mem_append.1 hr' with hold | hnew
    · exact h.committed r' hold w hw
    · rw [List.mem_singleton.1 hnew] at hw ⊢
      rw [List.append_nil] at hdone
      rw [howner]
      exact hlog w (hdone ▸ hw)

/-- **Every step of the producers keeps the record of the writes.** -/
theorem step (hr : Ranges bufferSize s) {a : SendAction ι} (he : SendEffect bufferSize s a s') :
    Written bufferSize s' := by
  cases he with
  | call i m result hpc => exact h.move rfl rfl rfl rfl (by split_ifs <;> rfl)
  | loadReadPos i m hpc => exact h.move rfl rfl rfl rfl rfl
  | checkSpace i m readPos hpc =>
      rw [Producers.checkSpace]
      split_ifs <;> exact h.move rfl rfl rfl rfl rfl
  | retry i b m readPos reservePos hpc => exact h.move rfl rfl rfl rfl rfl
  | win i m readPos hpc => exact h.win
  | write i r w todo hpc => exact h.write hr hpc
  | wait i b => exact h
  | commit i r hpc heq => exact h.commit hr hpc

end Written

theorem written_of_reachable (h : (smallProducers ι bufferSize).Reachable s) :
    Written bufferSize s := by
  refine producers_invariant ⟨?_, ?_, ?_⟩ ?_ ?_ h
  · simp [Producers.initial]
  · simp [Producers.initial]
  · simp [Producers.initial]
  · intro s a s' hr hI _ he
    exact hI.step (ranges_of_reachable hr) he
  · intro s value hI
    exact ⟨hI.writing, hI.committed, hI.sound⟩

/-! ### The ring -/

/-- The ring after the writes of the log, made one after the other. -/
def replay (buffer : ℕ → UInt8) (log : List (LogEntry ι)) : ℕ → UInt8 :=
  log.foldl (fun buffer e => ByteString.write buffer e.write.pos e.write.bytes) buffer

omit [DecidableEq ι] in
theorem replay_snoc (buffer : ℕ → UInt8) (log : List (LogEntry ι)) (e : LogEntry ι) :
    replay buffer (log ++ [e]) = ByteString.write (replay buffer log) e.write.pos e.write.bytes := by
  rw [replay, List.foldl_append]
  rfl

/-- **The log is what happens to the ring**: the ring holds the writes of the log, and nothing else. -/
theorem buffer_eq_replay (h : (smallProducers ι bufferSize).Reachable s) :
    s.shared.buffer = replay (fun _ => 0) s.written := by
  refine producers_invariant (I := fun s => s.shared.buffer = replay (fun _ => 0) s.written) rfl ?_ ?_ h
  · intro s a s' _ hI _ he
    cases he with
    | checkSpace i m readPos hpc =>
        rw [Producers.checkSpace]
        split_ifs <;> exact hI
    | write i r w todo hpc =>
        show ByteString.write s.shared.buffer w.pos w.bytes =
          replay (fun _ => 0) (s.written ++ [⟨i, r, w⟩])
        rw [replay_snoc, hI]
    | _ => exact hI
  · intro s value hI
    exact hI

/-! ### Program order -/

/-- The ranges of one producer come from calls of increasing number, and while a producer looks for
space, the number of its call is above those of its ranges. -/
structure ProgramOrder (s : Producers ι) : Prop where
  le : ∀ r ∈ s.won, r.call ≤ s.calls r.owner
  lt : ∀ r ∈ s.won, ∀ m, (s.pc r.owner).message? = some m → r.call < s.calls r.owner
  pairwise : s.won.Pairwise fun r r' => r.owner = r'.owner → r.call < r'.call

namespace ProgramOrder

variable (h : ProgramOrder s)

include h

/-- Steps inside of a call that do not win a range. -/
theorem move {i : ι} {p : SendPc ι} (hwon : s'.won = s.won) (hcalls : s'.calls = s.calls)
    (hpc : s'.pc = Function.update s.pc i p)
    (hm : ∀ m, p.message? = some m → (s.pc i).message? = some m) : ProgramOrder s' := by
  refine ⟨?_, ?_, ?_⟩
  · rw [hwon, hcalls]
    exact h.le
  · intro r hr m hj
    rw [hwon] at hr
    rw [hcalls]
    rw [hpc] at hj
    rcases eq_or_ne r.owner i with heq | hne
    · rw [heq, Function.update_self] at hj
      rw [← heq] at hm
      exact h.lt r hr m (hm m hj)
    · rw [Function.update_of_ne hne] at hj
      exact h.lt r hr m hj
  · rw [hwon]
    exact h.pairwise

theorem call {i : ι} {m : Message} : ProgramOrder (s.call bufferSize i m) := by
  have hcalls : ∀ r ∈ s.won, r.owner ≠ i → (s.call bufferSize i m).calls r.owner =
      s.calls r.owner := fun r _ hne => Function.update_of_ne hne _ _
  have hself : (s.call bufferSize i m).calls i = s.calls i + 1 := Function.update_self _ _ _
  refine ⟨?_, ?_, h.pairwise⟩
  · intro r hr
    have hle := h.le r hr
    rcases eq_or_ne r.owner i with heq | hne
    · rw [heq] at hle ⊢
      omega
    · rw [hcalls r hr hne]
      exact hle
  · intro r hr m' hj
    have hle := h.le r hr
    rcases eq_or_ne r.owner i with heq | hne
    · rw [heq] at hle ⊢
      omega
    · rw [hcalls r hr hne]
      simp only [Producers.call, Producers.goto, Function.update_of_ne hne] at hj
      exact h.lt r hr m' hj

theorem win {i : ι} {m : Message} {readPos : ℕ}
    (hpc : s.pc i = .reserving m readPos s.shared.reservePos) :
    ProgramOrder
      (s.win bufferSize i (reservation bufferSize i (s.calls i) m s.shared.reservePos)) := by
  refine ⟨?_, ?_, ?_⟩
  · intro r hr
    rcases List.mem_append.1 hr with hold | hnew
    · exact h.le r hold
    · rw [List.mem_singleton.1 hnew]
      exact le_rfl
  · intro r hr m' hj
    rcases eq_or_ne r.owner i with heq | hne
    · rw [heq] at hj
      simp [Producers.win, Producers.goto, SendPc.message?] at hj
    · simp only [Producers.win, Producers.goto, Function.update_of_ne hne] at hj
      rcases List.mem_append.1 hr with hold | hnew
      · exact h.lt r hold m' hj
      · exact absurd (by rw [List.mem_singleton.1 hnew]; rfl) hne
  · refine List.pairwise_append.2 ⟨h.pairwise, List.pairwise_singleton _ _, ?_⟩
    intro r hr r' hr' heq
    rw [List.mem_singleton.1 hr'] at heq ⊢
    have howner : r.owner = i := heq
    have hlt := h.lt r hr m (by rw [howner, hpc]; rfl)
    rw [howner] at hlt
    exact hlt

/-- **Every step of the producers keeps the program order.** -/
theorem step {a : SendAction ι} (he : SendEffect bufferSize s a s') : ProgramOrder s' := by
  cases he with
  | call i m result hpc => exact h.call
  | loadReadPos i m hpc =>
      refine h.move rfl rfl rfl ?_
      rw [hpc]
      exact fun _ hm => hm
  | checkSpace i m readPos hpc =>
      rw [Producers.checkSpace]
      split_ifs
      · exact h.move rfl rfl rfl (by simp [SendPc.message?])
      · refine h.move rfl rfl rfl ?_
        rw [hpc]
        exact fun _ hm => hm
  | retry i b m readPos reservePos hpc =>
      refine h.move rfl rfl rfl ?_
      rw [hpc]
      exact fun _ hm => hm
  | win i m readPos hpc => exact h.win hpc
  | write i r w todo hpc => exact h.move rfl rfl rfl (by simp [SendPc.message?])
  | wait i b => exact h
  | commit i r hpc heq => exact h.move rfl rfl rfl (by simp [SendPc.message?])

end ProgramOrder

theorem programOrder_of_reachable (h : (smallProducers ι bufferSize).Reachable s) :
    ProgramOrder s := by
  refine producers_invariant ⟨?_, ?_, ?_⟩ ?_ ?_ h
  · simp [Producers.initial]
  · simp [Producers.initial]
  · simp [Producers.initial]
  · intro s a s' _ hI _ he
    exact hI.step he
  · intro s value hI
    exact ⟨hI.le, hI.lt, hI.pairwise⟩

/-! ### The discipline -/

/-- The discipline of reservation and publication. -/
structure Discipline (bufferSize : ℕ) (s : Producers ι) : Prop where
  /-- The ranges won are non-empty and consecutive, and cover `[0, reservePos)`. -/
  tiles : Tiles Reservation.myBegin Reservation.myEnd 0 s.won s.shared.reservePos
  disjoint : s.won.Pairwise fun r r' => r.myEnd ≤ r'.myBegin
  boundary : s.shared.commitPos = 0 ∨ ∃ r ∈ s.won, r.myEnd = s.shared.commitPos
  /-- What lies below `commitPos` has been completely written by its owner. -/
  written : ∀ r ∈ s.won, r.myEnd ≤ s.shared.commitPos →
    ∀ w ∈ r.writes bufferSize, ⟨r.owner, r, w⟩ ∈ s.written
  /-- The ranges are committed in the order in which they were won, each once. -/
  inOrder : s.committed <+: s.won
  once : s.committed.Nodup
  committed_iff : ∀ r ∈ s.won, r ∈ s.committed ↔ r.myEnd ≤ s.shared.commitPos
  /-- The ranges of one producer are committed in the order of its calls. -/
  programOrder : s.committed.Pairwise fun r r' => r.owner = r'.owner → r.call < r'.call
  /-- The message record is written to one block, which the end of the ring does not cut. -/
  contiguous : ∀ r ∈ s.won,
    Tiles Write.pos Write.stop (r.messagePos % bufferSize)
      (writeMessageRecord (r.messagePos % bufferSize) r.message)
      (r.messagePos % bufferSize + messageSize r.message) ∧
    r.messagePos % bufferSize + messageSize r.message ≤ bufferSize
  /-- So is the padding record, where there is room for one. -/
  padding : ∀ r ∈ s.won, 8 ≤ r.paddingSize →
    Tiles Write.pos Write.stop (r.myBegin % bufferSize)
      (writePaddingRecord (r.myBegin % bufferSize) r.paddingSize)
      (r.myBegin % bufferSize + r.paddingSize) ∧
    r.myBegin % bufferSize + r.paddingSize ≤ bufferSize
  /-- The writes of the log are what has been written to the ring. -/
  buffer : s.shared.buffer = replay (fun _ => 0) s.written

/-- **Reservation and publication.**  For any number of producers, in every environment. -/
theorem reservation_discipline (h : (smallProducers ι bufferSize).Reachable s) :
    Discipline bufferSize s := by
  have hranges := ranges_of_reachable h
  have hwritten := written_of_reachable h
  have horder := programOrder_of_reachable h
  refine ⟨hranges.won, hranges.won.pairwise, ?_, ?_, hranges.isPrefix, ?_, ?_, ?_, ?_, ?_,
    buffer_eq_replay h⟩
  · rcases hranges.committed.exists_last with hzero | ⟨r, hr, heq⟩
    · exact Or.inl hzero
    · exact Or.inr ⟨r, hranges.isPrefix.subset hr, heq⟩
  · intro r hr hle
    exact hwritten.committed r ((hranges.mem_committed_iff hr).2 hle)
  · refine hranges.committed.pairwise.imp_of_mem ?_
    intro r r' hr _ hle heq
    have hlt := (hranges.fits r (hranges.isPrefix.subset hr)).myBegin_lt
    rw [← heq] at hle
    omega
  · intro r hr
    exact hranges.mem_committed_iff hr
  · exact horder.pairwise.sublist hranges.isPrefix.sublist
  · intro r hr
    have hfits := hranges.fits r hr
    exact ⟨tiles_writeMessageRecord hfits.small _, hfits.message_fits⟩
  · intro r hr hroom
    exact ⟨tiles_writePaddingRecord hroom _, (hranges.fits r hr).padding_fits⟩

/-- A run of two producers on a ring of `24` bytes: producer `i` wins `[0, 16)` and producer `j`
wins `[16, 40)`, whose first eight bytes are padding; producer `j` has to wait for producer `i`. -/
def overtaking (i j : ι) : List (ProducersAction ι) :=
  [.send (.trySend i ⟨.text, [1, 2, 3]⟩), .send (.loadReadPos i), .send (.loadReservePos i),
    .send (.compareExchangeReserve i true), .send (.loadReadPos i), .send (.loadReservePos i),
    .send (.compareExchangeReserve i false), .storeReadPos 16,
    .send (.trySend j ⟨.number, [1, 2, 3, 4, 5, 6, 7, 8]⟩), .send (.loadReadPos j),
    .send (.loadReservePos j), .send (.compareExchangeReserve j false), .send (.write j),
    .send (.write j), .send (.write j), .send (.compareExchangeCommit j false), .send (.write i),
    .send (.write i), .send (.write i), .send (.compareExchangeCommit i false),
    .send (.compareExchangeCommit j false)]

/-- Both ranges are committed in the end, in the order in which they were won. -/
theorem reservation_discipline_overtaking :
    ∃ s : Producers (Fin 2),
      (smallProducers (Fin 2) 24).run Producers.initial (overtaking 0 1) = some s ∧
      s.committed.map Reservation.owner = [0, 1] ∧ s.shared.commitPos = 40 ∧ Discipline 24 s := by
  obtain ⟨s, hs⟩ : ∃ s, (smallProducers (Fin 2) 24).run Producers.initial (overtaking 0 1) = some s :=
    ⟨_, rfl⟩
  have hd : Discipline 24 s := reservation_discipline (Automaton.Reachable.of_run rfl hs)
  have hend : s.committed.map Reservation.owner = [0, 1] ∧ s.shared.commitPos = 40 := by
    obtain rfl := Option.some_inj.1 hs
    exact ⟨rfl, rfl⟩
  exact ⟨s, hs, hend.1, hend.2, hd⟩

end MpscQueue
