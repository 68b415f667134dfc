/-
**A consumer of the shared-memory queue on memory that anyone can write to.**

`TryReceive` follows the sizes that it finds in the ring.  Here the ring holds arbitrary bytes, and the
positions are any two numbers with `readPos ≤ commitPos`.  The additions of positions wrap around in
`uint64_t`, as those of sizes do in `uint32_t`.  A call is modelled by the iterations of its loop, each
with the blocks it reads, the value it stores to `readPos`, and the result it returns.

Main definitions:

* `MpscQueue.Call`, `MpscQueue.Call.iteration` — an iteration of the loop of `TryReceive`;
* `MpscQueue.Call.Safe` — a call that terminates, reads the ring only, moves `readPos` forward and not
  past `commitPos`, and returns no payload longer than the committed region;
* `MpscQueue.Call.Readable` — what the committed region has to look like.

Main results:

* `MpscQueue.Call.receives_iteration` — an iteration is a run of the steps of the consumer;
* `MpscQueue.Call.safe_iff_readable` — **a call is safe exactly on a region that is readable**;
* `MpscQueue.Call.straddling_record_overread` — a record that crosses the end of the ring.
-/

import CppMultithreaded.QueueSingle

set_option relaxedAutoImplicit false
set_option autoImplicit false

namespace MpscQueue

/-! ### The loop of `TryReceive` -/

/-- A position, as `uint64_t` holds it. -/
def u64 (x : ℕ) : ℕ := x % 2 ^ 64

theorem u64_of_lt {x : ℕ} (h : x < 2 ^ 64) : u64 x = x := Nat.mod_eq_of_lt h

/-- What stays the same during a call of `TryReceive`. -/
structure Call where
  bufferSize : ℕ
  interestedType : MessageType
  buffer : ℕ → UInt8
  commitPos : ℕ

/-- What an iteration of the loop does: the blocks it reads, the value it stores to `readPos`, and what
it returns, unless it continues. -/
structure Iteration where
  reads : List (ℕ × ℕ)
  store : Option ℕ
  result : Option (Option Message)

namespace Call

variable (c : Call)

/-- The bytes between a position and the end of the ring. -/
def tailSpace (readPos : ℕ) : ℕ := c.bufferSize - readPos % c.bufferSize

/-- The header at a position. -/
def header (readPos : ℕ) : MessageHeader :=
  .ofBytes (ByteString.read c.buffer (readPos % c.bufferSize) 8)

/-- The type that the header at a position gives. -/
def type (readPos : ℕ) : MessageType := .ofCode (c.header readPos).type

/-- The size of the record at a position, according to its header. -/
def totalSize (readPos : ℕ) : ℕ := alignUp (u32 (8 + (c.header readPos).payloadSize)) alignment

/-- An iteration that has loaded `readPos`. -/
def iteration (readPos : ℕ) : Iteration :=
  if readPos = c.commitPos then ⟨[], none, some none⟩
  else
    let offset := readPos % c.bufferSize
    if c.tailSpace readPos < 8 then ⟨[], some (u64 (readPos + c.tailSpace readPos)), none⟩
    else
      let nextReadPos := u64 (readPos + c.totalSize readPos)
      let payloadSize := (c.header readPos).payloadSize
      if nextReadPos > c.commitPos then ⟨[(offset, 8)], none, some none⟩
      else if c.type readPos = .padding then ⟨[(offset, 8)], some nextReadPos, none⟩
      else if wanted c.interestedType (c.type readPos) then
        ⟨(offset, 8) :: if payloadSize ≠ 0 then [(offset + 8, payloadSize)] else [], some nextReadPos,
          some (some ⟨c.type readPos, ByteString.read c.buffer (offset + 8) payloadSize⟩)⟩
      else ⟨[(offset, 8)], some nextReadPos, some none⟩

/-- The positions that a call loads, one in each iteration. -/
inductive Visits (start : ℕ) : ℕ → Prop
  | first : Visits start start
  | next {p v : ℕ} : Visits start p → (c.iteration p).result = none →
      (c.iteration p).store = some v → Visits start v

/-- **What a call should do** on whatever memory: it returns, it reads inside of the ring, it moves
`readPos` forward and not past `commitPos`, and it returns no payload longer than the committed region. -/
structure Safe (readPos : ℕ) : Prop where
  terminates : ∃ p, c.Visits readPos p ∧ (c.iteration p).result ≠ none
  reads : ∀ p, c.Visits readPos p → ∀ b ∈ (c.iteration p).reads, b.1 + b.2 ≤ c.bufferSize
  stores : ∀ p, c.Visits readPos p → ∀ v ∈ (c.iteration p).store, p ≤ v ∧ v ≤ c.commitPos
  payload : ∀ p, c.Visits readPos p → ∀ m, (c.iteration p).result = some (some m) →
    m.payload.length ≤ c.commitPos - readPos

/-! ### Readable memory -/

/-- The committed region from a position on can be read: the tails and the padding records that come
first lie in it and have a size, and what follows them is `commitPos`, a header whose record is not
committed, a message that is of no interest, or a message that ends with the ring at the latest and is
not longer than the committed region. -/
inductive Readable (start : ℕ) : ℕ → Prop
  | committed {p : ℕ} : p = c.commitPos → Readable start p
  | tail {p : ℕ} : p ≠ c.commitPos → c.tailSpace p < 8 → p + c.tailSpace p ≤ c.commitPos →
      Readable start (p + c.tailSpace p) → Readable start p
  | unfinished {p : ℕ} : p ≠ c.commitPos → 8 ≤ c.tailSpace p → c.commitPos < p + c.totalSize p →
      p + c.totalSize p < 2 ^ 64 → Readable start p
  | padding {p : ℕ} : p ≠ c.commitPos → 8 ≤ c.tailSpace p → p + c.totalSize p ≤ c.commitPos →
      c.type p = .padding → 0 < c.totalSize p → Readable start (p + c.totalSize p) → Readable start p
  | unwanted {p : ℕ} : p ≠ c.commitPos → 8 ≤ c.tailSpace p → p + c.totalSize p ≤ c.commitPos →
      c.type p ≠ .padding → wanted c.interestedType (c.type p) = false → Readable start p
  | message {p : ℕ} : p ≠ c.commitPos → 8 ≤ c.tailSpace p → p + c.totalSize p ≤ c.commitPos →
      c.type p ≠ .padding → wanted c.interestedType (c.type p) = true →
      p % c.bufferSize + 8 + (c.header p).payloadSize ≤ c.bufferSize →
      (c.header p).payloadSize ≤ c.commitPos - start → Readable start p

/-! ### The branches of an iteration -/

variable {c} {start p q v : ℕ}

theorem totalSize_lt (c : Call) (p : ℕ) : c.totalSize p < 2 ^ 32 := by
  have hlt : u32 (u32 (8 + (c.header p).payloadSize) + 8 - 1) < 2 ^ 32 :=
    Nat.mod_lt _ (by decide)
  rw [totalSize, alignUp, alignment]
  omega

theorem iteration_committed (h : p = c.commitPos) : c.iteration p = ⟨[], none, some none⟩ := if_pos h

theorem iteration_tail (hne : p ≠ c.commitPos) (ht : c.tailSpace p < 8) :
    c.iteration p = ⟨[], some (u64 (p + c.tailSpace p)), none⟩ := by
  rw [iteration, if_neg hne, if_pos ht]

section Header

variable (hne : p ≠ c.commitPos) (ht : 8 ≤ c.tailSpace p)

include hne ht

theorem iteration_unfinished (hlt : c.commitPos < u64 (p + c.totalSize p)) :
    c.iteration p = ⟨[(p % c.bufferSize, 8)], none, some none⟩ := by
  rw [iteration, if_neg hne, if_neg (not_lt.2 ht), if_pos hlt]

theorem iteration_padding (hle : u64 (p + c.totalSize p) ≤ c.commitPos)
    (htype : c.type p = .padding) :
    c.iteration p = ⟨[(p % c.bufferSize, 8)], some (u64 (p + c.totalSize p)), none⟩ := by
  rw [iteration, if_neg hne, if_neg (not_lt.2 ht), if_neg (not_lt.2 hle), if_pos htype]

theorem iteration_unwanted (hle : u64 (p + c.totalSize p) ≤ c.commitPos)
    (htype : c.type p ≠ .padding) (hw : wanted c.interestedType (c.type p) = false) :
    c.iteration p = ⟨[(p % c.bufferSize, 8)], some (u64 (p + c.totalSize p)), some none⟩ := by
  rw [iteration, if_neg hne, if_neg (not_lt.2 ht), if_neg (not_lt.2 hle), if_neg htype, hw,
    if_neg Bool.false_ne_true]

theorem iteration_message (hle : u64 (p + c.totalSize p) ≤ c.commitPos)
    (htype : c.type p ≠ .padding) (hw : wanted c.interestedType (c.type p) = true) :
    c.iteration p =
      ⟨(p % c.bufferSize, 8) :: if (c.header p).payloadSize ≠ 0 then
        [(p % c.bufferSize + 8, (c.header p).payloadSize)] else [], some (u64 (p + c.totalSize p)),
        some (some ⟨c.type p,
          ByteString.read c.buffer (p % c.bufferSize + 8) (c.header p).payloadSize⟩)⟩ := by
  rw [iteration, if_neg hne, if_neg (not_lt.2 ht), if_neg (not_lt.2 hle), if_neg htype, hw,
    if_pos rfl]

end Header

/-- A header is read inside of the ring. -/
theorem header_fits (hpos : 0 < c.bufferSize) (ht : 8 ≤ c.tailSpace p) :
    p % c.bufferSize + 8 ≤ c.bufferSize := by
  have hmod := Nat.mod_lt p hpos
  rw [tailSpace] at ht
  omega

/-! ### The positions of a call -/

/-- The position after the first iteration, if there is another one. -/
theorem Visits.head (h : c.Visits p q) : q = p ∨ ∃ v, (c.iteration p).result = none ∧
    (c.iteration p).store = some v ∧ c.Visits v q := by
  induction h with
  | first => exact Or.inl rfl
  | @next r w hr hresult hstore ih =>
      rcases ih with rfl | ⟨v, hnone, hv, hrest⟩
      · exact Or.inr ⟨w, hresult, hstore, Visits.first⟩
      · exact Or.inr ⟨v, hnone, hv, hrest.next hresult hstore⟩

theorem Visits.cons (hresult : (c.iteration p).result = none)
    (hstore : (c.iteration p).store = some v) (h : c.Visits v q) : c.Visits p q := by
  induction h with
  | first => exact Visits.first.next hresult hstore
  | next _ hr hs ih => exact ih.next hr hs

/-- After the iteration that returns there is no other. -/
theorem Visits.eq_of_returns (h : c.Visits p q) (hresult : (c.iteration p).result ≠ none) :
    q = p := by
  rcases h.head with heq | ⟨v, hnone, -, -⟩
  · exact heq
  · exact absurd hnone hresult

/-- A position that is stored again is never left. -/
theorem Visits.eq_of_stuck (h : c.Visits p q) (hstore : (c.iteration p).store = some p) : q = p := by
  induction h with
  | first => rfl
  | next _ hresult hs ih =>
      rw [ih, hstore] at hs
      exact (Option.some.inj hs).symm

/-- Of two positions of a call one comes after the other. -/
theorem Visits.linear (hp : c.Visits start p) (hq : c.Visits start q) :
    c.Visits p q ∨ c.Visits q p := by
  induction hp with
  | first => exact Or.inl hq
  | @next r v hr hresult hstore ih =>
      rcases ih with hrq | hqr
      · rcases hrq.head with rfl | ⟨w, -, hw, hrest⟩
        · exact Or.inr (Visits.first.next hresult hstore)
        · rw [hstore] at hw
          obtain rfl := Option.some.inj hw
          exact Or.inl hrest
      · exact Or.inr (hqr.next hresult hstore)

/-! ### Safe calls -/

/-- What an iteration of a safe call does.  The position that it computes does not wrap around. -/
structure SafeAt (c : Call) (start p : ℕ) : Prop where
  noWrap : p ≠ c.commitPos → (c.tailSpace p < 8 → p + c.tailSpace p < 2 ^ 64) ∧
    (8 ≤ c.tailSpace p → p + c.totalSize p < 2 ^ 64)
  reads : ∀ b ∈ (c.iteration p).reads, b.1 + b.2 ≤ c.bufferSize
  stores : ∀ v ∈ (c.iteration p).store, p ≤ v ∧ v ≤ c.commitPos
  payload : ∀ m, (c.iteration p).result = some (some m) → m.payload.length ≤ c.commitPos - start

/-- The rest of a safe call. -/
structure SafeFrom (c : Call) (start p : ℕ) : Prop where
  terminates : ∃ q, c.Visits p q ∧ (c.iteration q).result ≠ none
  safeAt : ∀ q, c.Visits p q → c.SafeAt start q

theorem SafeFrom.of_returns (hresult : (c.iteration p).result ≠ none) (h : c.SafeAt start p) :
    c.SafeFrom start p := by
  refine ⟨⟨p, Visits.first, hresult⟩, ?_⟩
  intro q hq
  rw [hq.eq_of_returns hresult]
  exact h

theorem SafeFrom.of_continues (hresult : (c.iteration p).result = none)
    (hstore : (c.iteration p).store = some v) (h : c.SafeAt start p) (hrest : c.SafeFrom start v) :
    c.SafeFrom start p := by
  obtain ⟨q, hq, hreturns⟩ := hrest.terminates
  refine ⟨⟨q, hq.cons hresult hstore, hreturns⟩, ?_⟩
  intro q hq
  rcases hq.head with rfl | ⟨w, -, hw, hrest'⟩
  · exact h
  · rw [hstore] at hw
    obtain rfl := Option.some.inj hw
    exact hrest.safeAt q hrest'

/-- **A call on a readable region is safe.** -/
theorem safeFrom_of_readable (hpos : 0 < c.bufferSize) (h64 : c.commitPos < 2 ^ 64)
    (h : c.Readable start p) : c.SafeFrom start p := by
  induction h with
  | committed heq =>
      have hit := iteration_committed heq
      exact SafeFrom.of_returns (by simp [hit])
        ⟨fun hne => absurd heq hne, by simp [hit], by simp [hit], by simp [hit]⟩
  | @tail p hne ht hle _ ih =>
      have hit := iteration_tail hne ht
      rw [u64_of_lt (by omega)] at hit
      exact SafeFrom.of_continues (by rw [hit]) (by rw [hit])
        ⟨fun _ => ⟨fun _ => by omega, fun h => by omega⟩, by simp [hit], by simp [hit, hle],
          by simp [hit]⟩ ih
  | @unfinished p hne ht hlt h64' =>
      have hit := iteration_unfinished hne ht (by rwa [u64_of_lt h64'])
      have hfits := header_fits hpos ht
      exact SafeFrom.of_returns (by simp [hit])
        ⟨fun _ => ⟨fun h => by omega, fun _ => h64'⟩, by simpa [hit] using hfits, by simp [hit],
          by simp [hit]⟩
  | @padding p hne ht hle htype _ _ ih =>
      have hu : u64 (p + c.totalSize p) = p + c.totalSize p := u64_of_lt (by omega)
      have hit := iteration_padding hne ht (by rwa [hu]) htype
      rw [hu] at hit
      have hfits := header_fits hpos ht
      exact SafeFrom.of_continues (by rw [hit]) (by rw [hit])
        ⟨fun _ => ⟨fun h => by omega, fun _ => by omega⟩, by simpa [hit] using hfits,
          by simp [hit, hle], by simp [hit]⟩ ih
  | @unwanted p hne ht hle htype hw =>
      have hu : u64 (p + c.totalSize p) = p + c.totalSize p := u64_of_lt (by omega)
      have hit := iteration_unwanted hne ht (by rwa [hu]) htype hw
      have hfits := header_fits hpos ht
      exact SafeFrom.of_returns (by simp [hit])
        ⟨fun _ => ⟨fun h => by omega, fun _ => by omega⟩, by simpa [hit] using hfits,
          by simp [hit, hu, hle], by simp [hit]⟩
  | @message p hne ht hle htype hw hend hregion =>
      have hu : u64 (p + c.totalSize p) = p + c.totalSize p := u64_of_lt (by omega)
      have hit := iteration_message hne ht (by rwa [hu]) htype hw
      have hfits := header_fits hpos ht
      refine SafeFrom.of_returns (by simp [hit])
        ⟨fun _ => ⟨fun h => by omega, fun _ => by omega⟩, ?_, by simp [hit, hu, hle], ?_⟩
      · intro b hb
        rw [hit] at hb
        rcases List.mem_cons.1 hb with rfl | hb
        · exact hfits
        · split_ifs at hb
          · rw [List.mem_singleton.1 hb]
            exact hend
          · simp at hb
      · intro m hm
        rw [hit, Option.some.injEq, Option.some.injEq] at hm
        rw [← hm, ByteString.length_read]
        exact hregion

/-- **A safe call is on a readable region.**  The induction is on what is left of it. -/
theorem Safe.readable (hpos : 0 < c.bufferSize) (h64 : c.commitPos < 2 ^ 64) (h : c.Safe start)
    (hp : c.Visits start p) (hle : p ≤ c.commitPos) : c.Readable start p := by
  induction hk : c.commitPos - p using Nat.strong_induction_on generalizing p with
  | _ k ih =>
      have hmod := Nat.mod_lt p hpos
      have htotal := totalSize_lt c p
      by_cases heq : p = c.commitPos
      · exact Readable.committed heq
      by_cases ht : c.tailSpace p < 8
      · have hit := iteration_tail heq ht
        have hstore := h.stores p hp (u64 (p + c.tailSpace p)) (by rw [hit]; rfl)
        have htail : c.tailSpace p = c.bufferSize - p % c.bufferSize := rfl
        have hu : u64 (p + c.tailSpace p) = p + c.tailSpace p := by
          rw [u64] at hstore ⊢
          omega
        rw [hu] at hit hstore
        refine Readable.tail heq ht hstore.2 (ih _ ?_ ?_ hstore.2 rfl)
        · omega
        · exact hp.next (by rw [hit]) (by rw [hit])
      have ht := not_lt.1 ht
      by_cases hlt : c.commitPos < u64 (p + c.totalSize p)
      · refine Readable.unfinished heq ht ?_ ?_
        · rw [u64] at hlt
          omega
        · rw [u64] at hlt
          omega
      have hcommit := not_lt.1 hlt
      -- the position that is stored has not wrapped around, since it is not smaller
      have hu : ∀ {result : Option (Option Message)} {reads : List (ℕ × ℕ)},
          c.iteration p = ⟨reads, some (u64 (p + c.totalSize p)), result⟩ →
          u64 (p + c.totalSize p) = p + c.totalSize p := by
        intro result reads hit
        have hstore := h.stores p hp (u64 (p + c.totalSize p)) (by rw [hit]; rfl)
        rw [u64] at hstore ⊢
        omega
      by_cases htype : c.type p = .padding
      · have hit := iteration_padding heq ht hcommit htype
        have hnext := hu hit
        rw [hnext] at hit hcommit
        have hsize : 0 < c.totalSize p := by
          rw [Nat.pos_iff_ne_zero]
          intro hzero
          -- a padding record without a size is skipped for ever
          rw [hzero, Nat.add_zero] at hit
          obtain ⟨q, hq, hreturns⟩ := h.terminates
          rcases hp.linear hq with hpq | hqp
          · rw [hpq.eq_of_stuck (by rw [hit]), hit] at hreturns
            exact hreturns rfl
          · rw [← hqp.eq_of_returns hreturns, hit] at hreturns
            exact hreturns rfl
        refine Readable.padding heq ht hcommit htype hsize (ih _ ?_ ?_ hcommit rfl)
        · omega
        · exact hp.next (by rw [hit]) (by rw [hit])
      cases hw : wanted c.interestedType (c.type p) with
      | false =>
          have hnext := hu (iteration_unwanted heq ht hcommit htype hw)
          rw [hnext] at hcommit
          exact Readable.unwanted heq ht hcommit htype hw
      | true =>
          have hit := iteration_message heq ht hcommit htype hw
          have hnext := hu hit
          have hpayload := h.payload p hp _ (by rw [hit])
          rw [ByteString.length_read] at hpayload
          rw [hnext] at hcommit
          refine Readable.message heq ht hcommit htype hw ?_ hpayload
          by_cases hzero : (c.header p).payloadSize = 0
          · rw [hzero, Nat.add_zero]
            exact header_fits hpos ht
          · exact h.reads p hp (p % c.bufferSize + 8, (c.header p).payloadSize)
              (by rw [hit, if_pos hzero]; simp)

/-- **A call of `TryReceive` is safe exactly on a region that is readable.** -/
theorem safe_iff_readable {readPos : ℕ} (h8 : 8 ≤ c.bufferSize) (h64 : c.commitPos < 2 ^ 64)
    (hle : readPos ≤ c.commitPos) : c.Safe readPos ↔ c.Readable readPos readPos := by
  have hpos : 0 < c.bufferSize := by omega
  constructor
  · intro h
    exact h.readable hpos h64 Visits.first hle
  · intro h
    obtain ⟨hterminates, hsafe⟩ := safeFrom_of_readable hpos h64 h
    exact ⟨hterminates, fun p hp => (hsafe p hp).reads, fun p hp => (hsafe p hp).stores,
      fun p hp => (hsafe p hp).payload⟩

/-! ### The steps of the consumer -/

variable {ι : Type*} {bufferSize : ℕ} {interestedType : MessageType} {s : State ι}

/-- The call that the consumer is in. -/
def ofState (bufferSize : ℕ) (interestedType : MessageType) (s : State ι) : Call :=
  ⟨bufferSize, interestedType, s.shared.buffer, s.shared.commitPos⟩

/-- The consumer has made the iteration `it` of its loop. -/
structure Made (s s' : State ι) (it : Iteration) : Prop where
  recv : s'.recv = it.result.elim .loadReadPos fun result => .idle (some result)
  shared : s'.shared = { s.shared with readPos := it.store.getD s.shared.readPos }
  reads : s'.reads = s.reads ++ it.reads

theorem Made.reads_le {s' : State ι} {it : Iteration} (h : Made s s' it)
    (hit : ∀ b ∈ it.reads, b.1 + b.2 ≤ c.bufferSize) {b : ℕ × ℕ} (hb : b ∈ s'.reads) :
    b ∈ s.reads ∨ b.1 + b.2 ≤ c.bufferSize := by
  rw [h.reads] at hb
  exact (List.mem_append.1 hb).imp_right (hit b)

/-- Storing to `readPos` does not change the call. -/
theorem ofState_eq {s' : State ι} (hc : c = ofState bufferSize interestedType s) {value : ℕ}
    (h : s'.shared = { s.shared with readPos := value }) :
    c = ofState bufferSize interestedType s' := by
  rw [ofState, h, hc]
  rfl

section AfterHeader

variable (hle : p + c.totalSize p ≤ c.commitPos)

theorem afterHeader_unfinished (hlt : c.commitPos < p + c.totalSize p) :
    afterHeader c.interestedType (c.header p) p c.commitPos = .idle (some none) := if_pos hlt

include hle

theorem afterHeader_padding (htype : c.type p = .padding) :
    afterHeader c.interestedType (c.header p) p c.commitPos =
      .storeReadPos (p + c.totalSize p) none :=
  (if_neg (not_lt.2 hle)).trans (if_pos htype)

theorem afterHeader_unwanted (htype : c.type p ≠ .padding)
    (hw : wanted c.interestedType (c.type p) = false) :
    afterHeader c.interestedType (c.header p) p c.commitPos =
      .storeReadPos (p + c.totalSize p) (some none) :=
  (if_neg (not_lt.2 hle)).trans ((if_neg htype).trans (if_neg (ne_true_of_eq_false hw)))

theorem afterHeader_wanted (htype : c.type p ≠ .padding)
    (hw : wanted c.interestedType (c.type p) = true) :
    afterHeader c.interestedType (c.header p) p c.commitPos =
      if (c.header p).payloadSize ≠ 0 then
        .readPayload p (p + c.totalSize p) (c.type p) (c.header p).payloadSize
      else .storeReadPos (p + c.totalSize p) (some (some ⟨c.type p, []⟩)) :=
  (if_neg (not_lt.2 hle)).trans ((if_neg htype).trans (if_pos hw))

end AfterHeader

/-- The consumer has loaded both positions. -/
theorem receives_peek (hp : s.recv = .loadReadPos) : receives bufferSize interestedType 2 s =
    s.peek bufferSize s.shared.readPos s.shared.commitPos := by
  simp only [receives_succ, receives_zero, recvStep, hp]
  rfl

/-- The consumer has copied the header. -/
theorem receives_header (hp : s.recv = .loadReadPos) (hc : c = ofState bufferSize interestedType s)
    (hne : s.shared.readPos ≠ c.commitPos) (ht : 8 ≤ c.tailSpace s.shared.readPos) :
    receives bufferSize interestedType 3 s =
      { s with
        recv := afterHeader c.interestedType (c.header s.shared.readPos) s.shared.readPos c.commitPos
        reads := s.reads ++ [(s.shared.readPos % bufferSize, 8)] } := by
  subst hc
  have hpeek : s.peek bufferSize s.shared.readPos s.shared.commitPos =
      { s with recv := .readHeader s.shared.readPos s.shared.commitPos } := by
    exact (if_neg hne).trans (if_neg (not_lt.2 ht))
  rw [receives_add 1 2, receives_peek hp, hpeek]
  rfl

/-- The consumer has stored to `readPos`. -/
theorem made_store {recv : RecvPc} {reads : List (ℕ × ℕ)} {value : ℕ}
    {result : Option (Option Message)} (hrecv : recv = .storeReadPos value result) :
    Made s (receives bufferSize interestedType 1 { s with recv := recv, reads := s.reads ++ reads })
      ⟨reads, some value, result⟩ := by
  subst hrecv
  cases result <;> exact ⟨rfl, rfl, rfl⟩

/-- **An iteration is a run of the steps of the consumer**, where the position does not wrap around. -/
theorem receives_iteration (hp : s.recv = .loadReadPos) (hc : c = ofState bufferSize interestedType s)
    (h : c.SafeAt start s.shared.readPos) :
    ∃ n, Made s (receives bufferSize interestedType n s) (c.iteration s.shared.readPos) := by
  by_cases heq : s.shared.readPos = c.commitPos
  · refine ⟨2, ?_⟩
    have heq' : s.shared.readPos = s.shared.commitPos := by
      rw [heq, hc]
      rfl
    rw [receives_peek hp, iteration_committed heq, State.peek, if_pos heq']
    exact ⟨rfl, rfl, (List.append_nil _).symm⟩
  by_cases ht : c.tailSpace s.shared.readPos < 8
  · have hpeek : s.peek bufferSize s.shared.readPos s.shared.commitPos = { s with
        recv := .storeReadPos (s.shared.readPos + c.tailSpace s.shared.readPos) none } := by
      subst hc
      exact (if_neg heq).trans (if_pos ht)
    refine ⟨1 + 2, ?_⟩
    rw [receives_add, receives_peek hp, hpeek, iteration_tail heq ht,
      u64_of_lt ((h.noWrap heq).1 ht)]
    exact ⟨rfl, rfl, (List.append_nil _).symm⟩
  have ht := not_lt.1 ht
  have hheader := receives_header hp hc heq ht
  have hsize : c.bufferSize = bufferSize := by rw [hc]; rfl
  have hu := u64_of_lt ((h.noWrap heq).2 ht)
  by_cases hlt : c.commitPos < u64 (s.shared.readPos + c.totalSize s.shared.readPos)
  · refine ⟨3, ?_⟩
    rw [hheader, iteration_unfinished heq ht hlt, hsize]
    rw [hu] at hlt
    exact ⟨afterHeader_unfinished hlt, rfl, rfl⟩
  have hcommit := not_lt.1 hlt
  have hle := hu ▸ hcommit
  by_cases htype : c.type s.shared.readPos = .padding
  · refine ⟨1 + 3, ?_⟩
    rw [receives_add, hheader, iteration_padding heq ht hcommit htype, hu, hsize]
    exact made_store (afterHeader_padding hle htype)
  cases hw : wanted c.interestedType (c.type s.shared.readPos) with
  | false =>
      refine ⟨1 + 3, ?_⟩
      rw [receives_add, hheader, iteration_unwanted heq ht hcommit htype hw, hu, hsize]
      exact made_store (afterHeader_unwanted hle htype hw)
  | true =>
      have hrecv := afterHeader_wanted hle htype hw
      rw [iteration_message heq ht hcommit htype hw, hu, hsize]
      by_cases hzero : (c.header s.shared.readPos).payloadSize = 0
      · rw [if_neg (not_not.2 hzero)] at hrecv
        refine ⟨1 + 3, ?_⟩
        rw [receives_add, hheader, if_neg (not_not.2 hzero), hzero]
        exact made_store hrecv
      · rw [if_pos hzero] at hrecv
        refine ⟨2 + 3, ?_⟩
        rw [receives_add, hheader, hrecv, if_pos hzero]
        subst hc
        exact ⟨rfl, rfl, List.append_assoc _ _ _⟩

/-- A consumer alone gets to the positions that a safe call visits, and reads inside of the ring. -/
theorem receives_visits (hp : s.recv = .loadReadPos) (hc : c = ofState bufferSize interestedType s)
    (h : c.SafeFrom start s.shared.readPos) (hq : c.Visits s.shared.readPos q) :
    ∃ n, (receives bufferSize interestedType n s).recv = .loadReadPos ∧
      (receives bufferSize interestedType n s).shared = { s.shared with readPos := q } ∧
      ∀ b ∈ (receives bufferSize interestedType n s).reads,
        b ∈ s.reads ∨ b.1 + b.2 ≤ c.bufferSize := by
  induction hq with
  | first => exact ⟨0, hp, rfl, fun _ => Or.inl⟩
  | @next r v hr hresult hstore ih =>
      obtain ⟨n, hrecv, hshared, hreads⟩ := ih
      have hsafe := h.safeAt r hr
      have hpos : (receives bufferSize interestedType n s).shared.readPos = r := by rw [hshared]
      obtain ⟨k, hmade⟩ := receives_iteration hrecv (ofState_eq hc hshared) (hpos.symm ▸ hsafe)
      rw [hpos] at hmade
      refine ⟨k + n, ?_, ?_, ?_⟩
      · rw [receives_add, hmade.recv, hresult]
        rfl
      · rw [receives_add, hmade.shared, hstore, hshared]
        rfl
      · intro b hb
        rw [receives_add] at hb
        exact (hmade.reads_le hsafe.reads hb).elim (hreads b) Or.inr

/-- **A consumer alone on a readable region returns**, and reads inside of the ring. -/
theorem receives_of_readable (hp : s.recv = .loadReadPos) (hc : c = ofState bufferSize interestedType s)
    (hpos : 0 < c.bufferSize) (h64 : c.commitPos < 2 ^ 64) (h : c.Readable start s.shared.readPos) :
    ∃ n result, (receives bufferSize interestedType n s).recv = .idle (some result) ∧
      ∀ b ∈ (receives bufferSize interestedType n s).reads,
        b ∈ s.reads ∨ b.1 + b.2 ≤ c.bufferSize := by
  have hsafe := safeFrom_of_readable hpos h64 h
  obtain ⟨q, hq, hreturns⟩ := hsafe.terminates
  obtain ⟨n, hrecv, hshared, hreads⟩ := receives_visits hp hc hsafe hq
  have hpos : (receives bufferSize interestedType n s).shared.readPos = q := by rw [hshared]
  obtain ⟨k, hmade⟩ := receives_iteration hrecv (ofState_eq hc hshared) (hpos.symm ▸ hsafe.safeAt q hq)
  rw [hpos] at hmade
  obtain ⟨result, hresult⟩ := Option.ne_none_iff_exists'.1 hreturns
  refine ⟨k + n, result, ?_, ?_⟩
  · rw [receives_add, hmade.recv, hresult]
    rfl
  · intro b hb
    rw [receives_add] at hb
    exact (hmade.reads_le (hsafe.safeAt q hq).reads hb).elim (hreads b) Or.inr

/-- A ring of sixteen bytes with a record header at the offset 8. -/
def headerAtEight (type payloadSize : ℕ) : Call :=
  ⟨16, .all, ByteString.write (fun _ => 0) 8 (MessageHeader.bytes ⟨type, payloadSize⟩), 24⟩

/-- Two padding records of eight bytes lead to `commitPos`. -/
theorem safe_iff_readable_padding : (headerAtEight 0 0).Safe 8 := by
  refine (safe_iff_readable (by decide) (by decide) (by decide)).2 ?_
  refine Readable.padding (by decide) (by decide) (by decide) (by decide) (by decide) ?_
  refine Readable.padding (by decide) (by decide) (by decide) (by decide) (by decide) ?_
  exact Readable.committed (by decide)

/-- The header at the offset 8 of a ring of 16 bytes announces a payload of eight bytes, which is
copied from behind the end of the ring. -/
theorem straddling_record_overread :
    ¬∀ c : Call, 8 ≤ c.bufferSize → c.commitPos < 2 ^ 64 → ∀ readPos, readPos ≤ c.commitPos →
      c.commitPos ≤ readPos + c.bufferSize → c.Safe readPos := by
  intro hall
  have h := hall (headerAtEight 1 8) (by decide) (by decide) 8 (by decide) (by decide)
  have hread := h.reads 8 Visits.first (16, 8) (by decide)
  exact absurd hread (by decide)

end Call

end MpscQueue
