/-
**WriteExact and ReadExact of hw-6 under any splitting.**

`detail.h` moves blocks with two loops around `write` and `read`, which may move less than they have
been asked for, may be interrupted, may move nothing at all, or may fail.  The kernel answers the
successive calls by a script; a loop has no result where the script comes to its end first.  The
stream is the list of its bytes: what has entered it for the writer, and what is still to come for the
reader.  A reader that gets bytes of a stream while they are still being written is covered, since it
is the environment that says how many it gets.

Main definitions:

* `ProcessPool.Detail.sysWrite`, `ProcessPool.Detail.sysRead` — what one answer does;
* `ProcessPool.Detail.writeExact`, `ProcessPool.Detail.readExact` — the two loops;
* `ProcessPool.Detail.writeBlocks`, `ProcessPool.Detail.readBlocks` — blocks, one after the other.

Main results:

* `ProcessPool.Detail.writeLoop_eq`, `ProcessPool.Detail.readLoop_eq` — both loops are transfers;
* `ProcessPool.Detail.writeExact_stream`, `ProcessPool.Detail.readExact_outcome`,
  `ProcessPool.Detail.readExact_bytes`, `ProcessPool.Detail.readExact_partial`,
  `ProcessPool.Detail.readExact_frame` — what they have done when they end;
* `ProcessPool.Detail.readBlocks_prefix` — what is read of the blocks that have been written;
* `ProcessPool.Detail.writeBlocks_ok_iff`, `ProcessPool.Detail.readBlocks_ok_iff` — all blocks are moved
  exactly under the scripts that split them;
* `ProcessPool.Detail.exact_under_any_splitting` — **both are exact, whatever the kernel answers**;
* `ProcessPool.Detail.framing_readExact`, `ProcessPool.Detail.framing_writeSome` — the pool moves its
  streams as the two loops do.
-/

import CppMultithreaded.ByteString
import CppMultithreaded.Framing
import CppMultithreaded.Transfer

set_option relaxedAutoImplicit false
set_option autoImplicit false

namespace ProcessPool.Detail

open Transfer ByteString

/-! ### The loops -/

/-- The error of a call that has been interrupted. -/
def EINTR : ℕ := 4

/-- The errors after which both loops call again. -/
abbrev interrupted : ℕ → Prop := (· = EINTR)

/-- A call that has ended: with a value or an exception, the answers that are left, and what it has
done. -/
structure Finished (ρ σ : Type*) where
  outcome : Except String ρ
  script : List (Answer ℕ)
  state : σ

/-- What a reader has: the memory, and the bytes of the stream that are still to come. -/
structure Source where
  memory : ℕ → UInt8
  stream : List UInt8

/-- `write` of the buffer, with the answer of the kernel: the stream then.  It cannot be answered that
more has been written than has been asked for. -/
def sysWrite (buffer stream : List UInt8) : Answer ℕ → Option (List UInt8)
  | .moved n => if n ≤ buffer.length then some (stream ++ buffer.take n) else none
  | .failed _ => some stream

/-- `read` of up to `size` bytes to the address `ptr`, with the answer of the kernel. -/
def sysRead (ptr size : ℕ) (source : Source) : Answer ℕ → Option Source
  | .moved n =>
      if n ≤ size ∧ n ≤ source.stream.length then
        some ⟨write source.memory ptr (source.stream.take n), source.stream.drop n⟩
      else none
  | .failed _ => some source

section Loops

variable (strerror : ℕ → String)

def throwSystemError {ρ : Type*} (message : String) (errno : ℕ) : Except String ρ :=
  .error (message ++ ": " ++ strerror errno)

/-- The loop of `WriteExact`. -/
def writeLoop (data : List UInt8) :
    ℕ → List (Answer ℕ) → List UInt8 → Option (Finished Unit (List UInt8))
  | written, [], stream => if written < data.length then none else some ⟨.ok (), [], stream⟩
  | written, rc :: script, stream =>
      if written < data.length then
        (sysWrite (data.drop written) stream rc).bind fun stream =>
          match rc with
          | .failed errno =>
              if errno = EINTR then writeLoop data written script stream
              else some ⟨throwSystemError strerror "write failed" errno, script, stream⟩
          | .moved n =>
              if n = 0 then some ⟨.error "write returned 0", script, stream⟩
              else writeLoop data (written + n) script stream
      else some ⟨.ok (), rc :: script, stream⟩

def writeExact (data : List UInt8) (script : List (Answer ℕ)) (stream : List UInt8) :
    Option (Finished Unit (List UInt8)) := writeLoop strerror data 0 script stream

/-- The loop of `ReadExact`. -/
def readLoop (ptr size : ℕ) :
    ℕ → List (Answer ℕ) → Source → Option (Finished Bool Source)
  | readBytes, [], source => if readBytes < size then none else some ⟨.ok true, [], source⟩
  | readBytes, rc :: script, source =>
      if readBytes < size then
        (sysRead (ptr + readBytes) (size - readBytes) source rc).bind fun source =>
          match rc with
          | .failed errno =>
              if errno = EINTR then readLoop ptr size readBytes script source
              else some ⟨throwSystemError strerror "read failed" errno, script, source⟩
          | .moved n =>
              if n = 0 then some ⟨.ok false, script, source⟩
              else readLoop ptr size (readBytes + n) script source
      else some ⟨.ok true, rc :: script, source⟩

def readExact (ptr size : ℕ) (script : List (Answer ℕ)) (source : Source) :
    Option (Finished Bool Source) := readLoop strerror ptr size 0 script source

/-- Blocks written one after the other, up to the first exception. -/
def writeBlocks : List (List UInt8) → List (Answer ℕ) → List UInt8 →
    Option (Finished Unit (List UInt8))
  | [], script, stream => some ⟨.ok (), script, stream⟩
  | data :: blocks, script, stream =>
      (writeExact strerror data script stream).bind fun call =>
        match call.outcome with
        | .ok () => writeBlocks blocks call.script call.state
        | .error _ => some call

/-- Blocks of the given sizes read one after the other into one buffer, up to the first that is not
there: the blocks, and how the last call has ended. -/
def readBlocks (ptr : ℕ) : List ℕ → List (Answer ℕ) → Source →
    Option (List (List UInt8) × Finished Bool Source)
  | [], script, source => some ([], ⟨.ok true, script, source⟩)
  | size :: sizes, script, source =>
      (readExact strerror ptr size script source).bind fun call =>
        match call.outcome with
        | .ok true =>
            (readBlocks ptr sizes call.script call.state).map fun r =>
              (read call.state.memory ptr size :: r.1, r.2)
        | _ => some ([], call)

/-! ### Both loops are transfers -/

/-- How `WriteExact` ends with a transfer. -/
def writeOutcome : Ending ℕ → Except String Unit
  | .full => .ok ()
  | .zero => .error "write returned 0"
  | .failed errno => throwSystemError strerror "write failed" errno

/-- How `ReadExact` ends with a transfer. -/
def readOutcome : Ending ℕ → Except String Bool
  | .full => .ok true
  | .zero => .ok false
  | .failed errno => throwSystemError strerror "read failed" errno

variable {strerror}

theorem writeOutcome_ok {ending : Ending ℕ} :
    writeOutcome strerror ending = .ok () ↔ ending = .full := by
  cases ending <;> simp [writeOutcome, throwSystemError]

theorem readOutcome_true {ending : Ending ℕ} :
    readOutcome strerror ending = .ok true ↔ ending = .full := by
  cases ending <;> simp [readOutcome, throwSystemError]

theorem readOutcome_false {ending : Ending ℕ} :
    readOutcome strerror ending = .ok false ↔ ending = .zero := by
  cases ending <;> simp [readOutcome, throwSystemError]

theorem readOutcome_error {ending : Ending ℕ} :
    (∃ what, readOutcome strerror ending = .error what) ↔ ∃ errno, ending = .failed errno := by
  cases ending <;> simp [readOutcome, throwSystemError]

/-- **`WriteExact` is a transfer**: what has been moved is the prefix of the block that has entered the
stream.  The induction is on the script, and the offset is what has been moved already. -/
theorem writeLoop_eq {data : List UInt8} {written : ℕ} (hle : written ≤ data.length)
    (script : List (Answer ℕ)) (stream : List UInt8) :
    writeLoop strerror data written script stream =
      (transfer interrupted (data.length - written) script).map fun r =>
        ⟨writeOutcome strerror r.1, r.2.2, stream ++ (data.drop written).take r.2.1⟩ := by
  induction script generalizing written stream with
  | nil =>
      rcases Nat.eq_or_lt_of_le hle with rfl | hlt
      · simp [writeLoop, transfer, writeOutcome]
      · rw [transfer_nil (by omega), writeLoop, if_pos hlt]
        rfl
  | cons rc script ih =>
      rcases Nat.eq_or_lt_of_le hle with rfl | hlt
      · simp [writeLoop, transfer, writeOutcome]
      · rw [writeLoop, if_pos hlt]
        have hpos : 0 < data.length - written := by omega
        cases rc with
        | failed errno =>
            rw [sysWrite, Option.bind_some]
            by_cases hintr : interrupted errno
            · rw [transfer_retry hpos hintr]
              exact (if_pos hintr).trans (ih hle stream)
            · rw [transfer_failed hpos hintr]
              refine (if_neg hintr).trans ?_
              simp [writeOutcome]
        | moved n =>
            rw [sysWrite, List.length_drop]
            rcases Nat.lt_or_ge (data.length - written) n with hbeyond | hn
            · rw [if_neg (by omega), transfer_beyond hpos hbeyond]
              rfl
            · rw [if_pos hn, Option.bind_some]
              rcases Nat.eq_zero_or_pos n with rfl | hnpos
              · rw [transfer_moved_zero hpos]
                simp [writeOutcome]
              · rw [transfer_moved hnpos hn]
                refine (if_neg (by omega)).trans ?_
                rw [ih (by omega), Option.map_map, Nat.sub_add_eq]
                congr 1
                funext r
                simp only [Function.comp, List.append_assoc]
                rw [List.take_add, List.drop_drop]

/-- **`ReadExact` is a transfer**: what has been moved is the prefix of the stream that has got to the
destination. -/
theorem readLoop_eq {ptr size readBytes : ℕ} (hle : readBytes ≤ size) (script : List (Answer ℕ))
    (source : Source) :
    readLoop strerror ptr size readBytes script source =
      (transfer interrupted (size - readBytes) script).bind fun r =>
        if r.2.1 ≤ source.stream.length then
          some ⟨readOutcome strerror r.1, r.2.2,
            write source.memory (ptr + readBytes) (source.stream.take r.2.1),
            source.stream.drop r.2.1⟩
        else none := by
  induction script generalizing readBytes source with
  | nil =>
      rcases Nat.eq_or_lt_of_le hle with rfl | hlt
      · simp [readLoop, transfer, readOutcome]
      · rw [transfer_nil (by omega), readLoop, if_pos hlt]
        rfl
  | cons rc script ih =>
      rcases Nat.eq_or_lt_of_le hle with rfl | hlt
      · simp [readLoop, transfer, readOutcome]
      · rw [readLoop, if_pos hlt]
        have hpos : 0 < size - readBytes := by omega
        cases rc with
        | failed errno =>
            rw [sysRead, Option.bind_some]
            by_cases hintr : interrupted errno
            · rw [transfer_retry hpos hintr]
              exact (if_pos hintr).trans (ih hle source)
            · rw [transfer_failed hpos hintr]
              refine (if_neg hintr).trans ?_
              simp [readOutcome]
        | moved n =>
            rw [sysRead]
            rcases Nat.lt_or_ge (size - readBytes) n with hbeyond | hn
            · rw [if_neg (by omega), transfer_beyond hpos hbeyond]
              rfl
            · rcases Nat.eq_zero_or_pos n with rfl | hnpos
              · rw [transfer_moved_zero hpos]
                simp [readOutcome]
              · rw [transfer_moved hnpos hn, Option.bind_map]
                rcases Nat.lt_or_ge source.stream.length n with hless | havailable
                · -- more than there is: no continuation can make up for it
                  rw [if_neg (by omega), Option.bind_none, eq_comm, Option.bind_eq_none_iff]
                  intro r _
                  exact if_neg (by simp only; omega)
                · rw [if_pos ⟨hn, havailable⟩, Option.bind_some]
                  refine (if_neg (by omega)).trans ?_
                  rw [ih (by omega), Nat.sub_add_eq]
                  congr 1
                  funext r
                  simp only [Function.comp, List.length_drop, List.drop_drop]
                  have hlen : (source.stream.take n).length = n := List.length_take_of_le havailable
                  have hwrite := write_append source.memory (ptr + readBytes) (source.stream.take n)
                    ((source.stream.drop n).take r.2.1)
                  rw [hlen, ← List.take_add, Nat.add_assoc] at hwrite
                  rw [hwrite]
                  by_cases hmore : r.2.1 ≤ source.stream.length - n
                  · rw [if_pos hmore, if_pos (by omega)]
                  · rw [if_neg hmore, if_neg (by omega)]

end Loops

/-! ### One block -/

section Blocks

variable {strerror : ℕ → String} {data : List UInt8} {script : List (Answer ℕ)}
  {stream : List UInt8} {ptr size : ℕ} {source : Source}

theorem writeExact_transfer {call : Finished Unit (List UInt8)}
    (h : writeExact strerror data script stream = some call) :
    ∃ ending moved, transfer interrupted data.length script = some (ending, moved, call.script) ∧
      call.outcome = writeOutcome strerror ending ∧ call.state = stream ++ data.take moved := by
  rw [writeExact, writeLoop_eq (Nat.zero_le _), Nat.sub_zero, List.drop_zero] at h
  obtain ⟨⟨ending, moved, rest⟩, heq, rfl⟩ := Option.map_eq_some_iff.1 h
  exact ⟨ending, moved, heq, rfl, rfl⟩

theorem readExact_transfer {call : Finished Bool Source}
    (h : readExact strerror ptr size script source = some call) :
    ∃ ending moved, transfer interrupted size script = some (ending, moved, call.script) ∧
      call.outcome = readOutcome strerror ending ∧ moved ≤ source.stream.length ∧
      call.state = ⟨write source.memory ptr (source.stream.take moved), source.stream.drop moved⟩ := by
  rw [readExact, readLoop_eq (Nat.zero_le _), Nat.sub_zero] at h
  obtain ⟨⟨ending, moved, rest⟩, heq, hsome⟩ := Option.bind_eq_some_iff.1 h
  by_cases hle : moved ≤ source.stream.length
  · rw [if_pos hle] at hsome
    obtain rfl := Option.some_inj.1 hsome
    exact ⟨ending, moved, heq, rfl, hle, rfl⟩
  · rw [if_neg hle] at hsome
    cases hsome

/-- **What has entered the stream when `WriteExact` ends**: the block, or a strict prefix of it when it
has thrown. -/
theorem writeExact_stream {call : Finished Unit (List UInt8)}
    (h : writeExact strerror data script stream = some call) :
    (call.outcome = .ok () → call.state = stream ++ data) ∧
      ∀ what, call.outcome = .error what → ∃ k < data.length, call.state = stream ++ data.take k := by
  obtain ⟨ending, moved, heq, houtcome, hstate⟩ := writeExact_transfer h
  constructor
  · intro hok
    obtain rfl := writeOutcome_ok.1 (houtcome.symm.trans hok)
    rw [hstate, moved_full heq, List.take_length]
  · intro what herror
    have hne : ending ≠ .full := by
      rintro rfl
      rw [houtcome] at herror
      cases herror
    exact ⟨moved, moved_lt heq hne, hstate⟩

/-- **How `ReadExact` ends is what comes first**: the whole block, the end of the stream, or an error. -/
theorem readExact_outcome {call : Finished Bool Source}
    (h : readExact strerror ptr size script source = some call) :
    (call.outcome = .ok true ↔ Full interrupted size script) ∧
      (call.outcome = .ok false ↔ FirstZero interrupted size script) ∧
      ((∃ what, call.outcome = .error what) ↔ ∃ errno, FirstFailure interrupted size errno script) := by
  obtain ⟨ending, moved, heq, houtcome, -, -⟩ := readExact_transfer h
  rw [houtcome, readOutcome_true, readOutcome_false, readOutcome_error]
  exact ⟨eq_full_iff heq, eq_zero_iff heq, exists_congr fun errno => eq_failed_iff heq⟩

/-- **What `ReadExact` has done when it returns `true`**: the destination holds the next `size` bytes of
the stream, and exactly these have been consumed. -/
theorem readExact_bytes {call : Finished Bool Source}
    (h : readExact strerror ptr size script source = some call) (htrue : call.outcome = .ok true) :
    size ≤ source.stream.length ∧ read call.state.memory ptr size = source.stream.take size ∧
      call.state.stream = source.stream.drop size := by
  obtain ⟨ending, moved, heq, houtcome, hle, hstate⟩ := readExact_transfer h
  obtain rfl := readOutcome_true.1 (houtcome.symm.trans htrue)
  obtain rfl := moved_full heq
  rw [hstate]
  exact ⟨hle, (holds_write_self _ _ _).read_eq (List.length_take_of_le hle).symm, rfl⟩

/-- Otherwise it has consumed less. -/
theorem readExact_partial {call : Finished Bool Source}
    (h : readExact strerror ptr size script source = some call) (htrue : call.outcome ≠ .ok true) :
    ∃ k < size, k ≤ source.stream.length ∧ call.state.stream = source.stream.drop k := by
  obtain ⟨ending, moved, heq, houtcome, hle, hstate⟩ := readExact_transfer h
  have hne : ending ≠ .full := fun hfull => htrue (houtcome.trans (readOutcome_true.2 hfull))
  exact ⟨moved, moved_lt heq hne, hle, congrArg Source.stream hstate⟩

/-- `ReadExact` writes to its destination only. -/
theorem readExact_frame {call : Finished Bool Source}
    (h : readExact strerror ptr size script source = some call) {i : ℕ}
    (hi : i < ptr ∨ ptr + size ≤ i) : call.state.memory i = source.memory i := by
  obtain ⟨ending, moved, heq, -, hle, hstate⟩ := readExact_transfer h
  have hsize : moved ≤ size := by
    cases ending with
    | full => exact (moved_full heq).le
    | zero => exact (moved_lt heq (by simp)).le
    | failed errno => exact (moved_lt heq (by simp)).le
  rw [hstate]
  rcases hi with hlo | hhi
  · exact write_of_lt hlo
  · exact write_of_ge (by rw [List.length_take_of_le hle]; omega)

/-- `WriteExact` ends. -/
theorem writeExact_ends (strerror : ℕ → String) (stream : List UInt8)
    (h : Possible interrupted data.length data.length script)
    (hlong : data.length ≤ answered interrupted script) :
    ∃ call, writeExact strerror data script stream = some call := by
  obtain ⟨ending, moved, rest, heq, -⟩ := isSome_of_possible h hlong
  rw [writeExact, writeLoop_eq (Nat.zero_le _), Nat.sub_zero, heq]
  exact ⟨_, rfl⟩

/-- `ReadExact` ends. -/
theorem readExact_ends (strerror : ℕ → String) (ptr : ℕ)
    (h : Possible interrupted size source.stream.length script)
    (hlong : size ≤ answered interrupted script) :
    ∃ call, readExact strerror ptr size script source = some call := by
  obtain ⟨ending, moved, rest, heq, hle⟩ := isSome_of_possible h hlong
  rw [readExact, readLoop_eq (Nat.zero_le _), Nat.sub_zero, heq, Option.bind_some, if_pos hle]
  exact ⟨_, rfl⟩

/-- A script without an end of the stream and without errors fills the block, and what is left of it
is such a script again. -/
theorem readExact_of_progress {call : Finished Bool Source}
    (h : readExact strerror ptr size script source = some call) (hp : Progress interrupted script) :
    call.outcome = .ok true ∧ Progress interrupted call.script := by
  obtain ⟨ending, moved, heq, houtcome, -, -⟩ := readExact_transfer h
  have hended := ended_of_transfer heq
  cases ending with
  | full =>
      obtain ⟨pre, hscript, -⟩ := hended
      refine ⟨houtcome, ?_⟩
      rw [hscript] at hp
      exact fun a ha => hp a (List.mem_append_right pre ha)
  | zero =>
      obtain ⟨pre, hscript, -⟩ := hended
      rw [hscript] at hp
      exact absurd (hp (.moved 0) (by simp)) (Nat.lt_irrefl 0)
  | failed errno =>
      obtain ⟨pre, hscript, herrno, -⟩ := hended
      rw [hscript] at hp
      exact absurd (hp (.failed errno) (by simp)) herrno

/-! ### Blocks after blocks -/

/-- **What has entered the stream when the blocks have been written.** -/
theorem writeBlocks_stream {blocks : List (List UInt8)} {sent : Finished Unit (List UInt8)}
    (h : writeBlocks strerror blocks script stream = some sent) :
    ∃ part, sent.state = stream ++ part ∧ part <+: blocks.flatten ∧
      (sent.outcome = .ok () → part = blocks.flatten) := by
  induction blocks generalizing script stream with
  | nil =>
      obtain rfl := Option.some_inj.1 h
      exact ⟨[], (List.append_nil _).symm, List.nil_prefix, fun _ => rfl⟩
  | cons data blocks ih =>
      rw [writeBlocks] at h
      obtain ⟨call, hcall, hrest⟩ := Option.bind_eq_some_iff.1 h
      obtain ⟨hok, herror⟩ := writeExact_stream hcall
      cases houtcome : call.outcome with
      | ok u =>
          rw [houtcome] at hrest
          obtain ⟨part, hstate, hfront, hall⟩ := ih hrest
          rw [hok houtcome, List.append_assoc] at hstate
          refine ⟨data ++ part, hstate, ?_, ?_⟩
          · rw [List.flatten_cons]
            exact (List.prefix_append_right_inj data).2 hfront
          · intro hsent
            rw [hall hsent, List.flatten_cons]
      | error what =>
          rw [houtcome] at hrest
          obtain rfl := Option.some_inj.1 hrest
          obtain ⟨k, -, hstate⟩ := herror what houtcome
          refine ⟨data.take k, hstate, ?_, ?_⟩
          · rw [List.flatten_cons]
            exact (List.take_prefix k data).trans (List.prefix_append _ _)
          · intro hsent
            rw [houtcome] at hsent
            cases hsent

/-- **What is read of a stream of blocks, which may have been cut**: blocks of the front, unchanged, and
all of them when every call has returned `true`. -/
theorem readBlocks_prefix {blocks got : List (List UInt8)} {received : Finished Bool Source}
    (h : readBlocks strerror ptr (blocks.map List.length) script source = some (got, received))
    (hstream : source.stream <+: blocks.flatten) :
    got <+: blocks ∧ (received.outcome = .ok true → got = blocks ∧
      received.state.stream = source.stream.drop blocks.flatten.length) := by
  induction blocks generalizing script source got with
  | nil =>
      obtain ⟨rfl, rfl⟩ := Prod.mk.inj (Option.some_inj.1 h)
      exact ⟨List.prefix_rfl, fun _ => ⟨rfl, rfl⟩⟩
  | cons data blocks ih =>
      rw [List.map_cons, readBlocks] at h
      obtain ⟨call, hcall, hrest⟩ := Option.bind_eq_some_iff.1 h
      by_cases htrue : call.outcome = .ok true
      · rw [htrue] at hrest
        obtain ⟨⟨got', received'⟩, hmore, heq⟩ := Option.map_eq_some_iff.1 hrest
        obtain ⟨rfl, rfl⟩ := Prod.mk.inj heq
        obtain ⟨hlen, hread, hdrop⟩ := readExact_bytes hcall htrue
        obtain ⟨tail, htail⟩ := hstream
        rw [List.flatten_cons] at htail
        -- the first block is in the stream as a whole
        have hdata : source.stream.take data.length = data := by
          have htake := congrArg (List.take data.length) htail
          rwa [List.take_append_of_le_length hlen, List.take_left] at htake
        have hsuffix : call.state.stream <+: blocks.flatten := by
          have hskip := congrArg (List.drop data.length) htail
          rw [List.drop_append_of_le_length hlen, List.drop_left] at hskip
          exact ⟨tail, by rw [hdrop, hskip]⟩
        obtain ⟨hgot, hall⟩ := ih hmore hsuffix
        dsimp only
        rw [hread, hdata]
        refine ⟨(List.prefix_cons_inj data).2 hgot, ?_⟩
        intro hreceived
        obtain ⟨rfl, hend⟩ := hall hreceived
        refine ⟨rfl, ?_⟩
        rw [hend, hdrop, List.drop_drop, List.flatten_cons, List.length_append]
      · have hstop : some (([] : List (List UInt8)), call) = some (got, received) := by
          cases houtcome : call.outcome with
          | error what =>
              rw [houtcome] at hrest
              exact hrest
          | ok b =>
              rw [houtcome] at hrest htrue
              cases b with
              | true => exact absurd rfl htrue
              | false => exact hrest
        obtain ⟨rfl, rfl⟩ := Prod.mk.inj (Option.some_inj.1 hstop)
        exact ⟨List.nil_prefix, fun hreceived => absurd hreceived htrue⟩

/-- Without an end of the stream and without errors every call returns `true`. -/
theorem readBlocks_of_progress {sizes : List ℕ} {got : List (List UInt8)}
    {received : Finished Bool Source}
    (h : readBlocks strerror ptr sizes script source = some (got, received))
    (hp : Progress interrupted script) : received.outcome = .ok true := by
  induction sizes generalizing script source got with
  | nil =>
      obtain ⟨-, rfl⟩ := Prod.mk.inj (Option.some_inj.1 h)
      rfl
  | cons size sizes ih =>
      rw [readBlocks] at h
      obtain ⟨call, hcall, hrest⟩ := Option.bind_eq_some_iff.1 h
      obtain ⟨htrue, hscript⟩ := readExact_of_progress hcall hp
      rw [htrue] at hrest
      obtain ⟨⟨got', received'⟩, hmore, heq⟩ := Option.map_eq_some_iff.1 hrest
      obtain ⟨-, rfl⟩ := Prod.mk.inj heq
      exact ih hmore hscript

/-- `WriteExact` under answers that move the whole block. -/
theorem writeExact_of_full {rest : List (Answer ℕ)} (stream : List UInt8)
    (h : transfer interrupted data.length script = some (.full, data.length, rest)) :
    writeExact strerror data script stream = some ⟨.ok (), rest, stream ++ data⟩ := by
  rw [writeExact, writeLoop_eq (Nat.zero_le _), Nat.sub_zero, h, Option.map_some, List.drop_zero,
    List.take_length]
  rfl

/-- `ReadExact` under answers that move the whole block. -/
theorem readExact_of_full {rest : List (Answer ℕ)} (hle : size ≤ source.stream.length)
    (h : transfer interrupted size script = some (.full, size, rest)) :
    ∃ memory, readExact strerror ptr size script source =
      some ⟨.ok true, rest, ⟨memory, source.stream.drop size⟩⟩ := by
  rw [readExact, readLoop_eq (Nat.zero_le _), Nat.sub_zero, h, Option.bind_some, if_pos hle]
  exact ⟨_, rfl⟩

/-- **All blocks are written iff the answers split them.** -/
theorem writeBlocks_ok_iff {blocks : List (List UInt8)} :
    (∃ sent, writeBlocks strerror blocks script stream = some sent ∧ sent.outcome = .ok ()) ↔
      Splits interrupted (blocks.map List.length) script := by
  induction blocks generalizing script stream with
  | nil => exact iff_of_true ⟨_, rfl, rfl⟩ trivial
  | cons data blocks ih =>
      rw [List.map_cons, splits_cons_iff]
      constructor
      · rintro ⟨sent, hsent, hok⟩
        rw [writeBlocks] at hsent
        obtain ⟨call, hcall, hrest⟩ := Option.bind_eq_some_iff.1 hsent
        obtain ⟨ending, moved, heq, houtcome, -⟩ := writeExact_transfer hcall
        cases hcalled : call.outcome with
        | ok u =>
            rw [hcalled] at hrest
            obtain rfl := writeOutcome_ok.1 (houtcome.symm.trans hcalled)
            obtain rfl := moved_full heq
            exact ⟨call.script, heq, ih.1 ⟨sent, hrest, hok⟩⟩
        | error what =>
            rw [hcalled] at hrest
            obtain rfl := Option.some_inj.1 hrest
            rw [hcalled] at hok
            cases hok
      · rintro ⟨rest, heq, hsplits⟩
        obtain ⟨sent, hsent, hok⟩ := (@ih _ (stream ++ data)).2 hsplits
        refine ⟨sent, ?_, hok⟩
        rw [writeBlocks, writeExact_of_full stream heq]
        exact hsent

/-- **All blocks of a stream are read back iff the answers split them.** -/
theorem readBlocks_ok_iff {blocks : List (List UInt8)} {tail : List UInt8}
    (hstream : source.stream = blocks.flatten ++ tail) :
    (∃ received, readBlocks strerror ptr (blocks.map List.length) script source =
        some (blocks, received) ∧ received.outcome = .ok true ∧ received.state.stream = tail) ↔
      Splits interrupted (blocks.map List.length) script := by
  induction blocks generalizing script source with
  | nil => exact iff_of_true ⟨_, rfl, rfl, hstream⟩ trivial
  | cons data blocks ih =>
      rw [List.flatten_cons, List.append_assoc] at hstream
      have hdrop : source.stream.drop data.length = blocks.flatten ++ tail := by
        rw [hstream, List.drop_left]
      rw [List.map_cons, splits_cons_iff]
      constructor
      · rintro ⟨received, hreceived, hok, hend⟩
        rw [readBlocks] at hreceived
        obtain ⟨call, hcall, hrest⟩ := Option.bind_eq_some_iff.1 hreceived
        obtain ⟨ending, moved, heq, houtcome, -⟩ := readExact_transfer hcall
        by_cases htrue : call.outcome = .ok true
        · rw [htrue] at hrest
          obtain ⟨⟨got, received'⟩, hmore, hgot⟩ := Option.map_eq_some_iff.1 hrest
          obtain ⟨hcons, rfl⟩ := Prod.mk.inj hgot
          obtain ⟨-, rfl⟩ := List.cons.inj hcons
          obtain ⟨-, -, hstate⟩ := readExact_bytes hcall htrue
          obtain rfl := readOutcome_true.1 (houtcome.symm.trans htrue)
          obtain rfl := moved_full heq
          exact ⟨call.script, heq, (ih (hstate.trans hdrop)).1 ⟨_, hmore, hok, hend⟩⟩
        · -- a call that has not returned `true` is the last one
          have hstop : some (([] : List (List UInt8)), call) = some (data :: blocks, received) := by
            cases hcalled : call.outcome with
            | error what =>
                rw [hcalled] at hrest
                exact hrest
            | ok b =>
                rw [hcalled] at hrest htrue
                cases b with
                | true => exact absurd rfl htrue
                | false => exact hrest
          cases hstop
      · rintro ⟨rest, heq, hsplits⟩
        have hle : data.length ≤ source.stream.length := by
          rw [hstream, List.length_append]
          exact Nat.le_add_right _ _
        obtain ⟨memory, hcall⟩ : ∃ memory, readExact strerror ptr data.length script source =
            some ⟨.ok true, rest, ⟨memory, source.stream.drop data.length⟩⟩ :=
          readExact_of_full hle heq
        obtain ⟨-, hread, -⟩ := readExact_bytes hcall rfl
        obtain ⟨received, hreceived, hend⟩ :=
          (@ih _ ⟨memory, source.stream.drop data.length⟩ hdrop).2 hsplits
        have hdata : read memory ptr data.length = data := by
          rw [hread, hstream, List.take_left]
        refine ⟨received, ?_, hend⟩
        rw [readBlocks, hcall, Option.bind_some]
        dsimp only
        rw [hreceived, hdata]
        rfl

end Blocks

/-! ### Both are exact -/

/-- **`WriteExact` and `ReadExact` are exact under any splitting.**  Under every script of the kernel:
`WriteExact` that returns has put the block in the stream, and a strict prefix of it when it has thrown;
how `ReadExact` ends is what comes first, and when it returns `true` the destination holds the next bytes
of the stream and nothing beyond them has been consumed; both end once the kernel has given as many
answers as there are bytes, interruptions apart.  A sequence of blocks is written as a whole exactly
under the scripts that split it, and is then in the stream, each byte once and in order; under any
other script a part of its front is.  From there every script that splits the same sequence, however
differently, reads every block back unchanged and leaves nothing, and whatever the script, what is read
is the front of the blocks. -/
theorem exact_under_any_splitting (strerror : ℕ → String) :
    (∀ data script stream,
      (∀ call, writeExact strerror data script stream = some call →
        (call.outcome = .ok () → call.state = stream ++ data) ∧
        ∀ what, call.outcome = .error what →
          ∃ k < data.length, call.state = stream ++ data.take k) ∧
      (Possible interrupted data.length data.length script →
        data.length ≤ answered interrupted script →
          ∃ call, writeExact strerror data script stream = some call)) ∧
    (∀ ptr size script source,
      (∀ call, readExact strerror ptr size script source = some call →
        (call.outcome = .ok true ↔ Full interrupted size script) ∧
        (call.outcome = .ok false ↔ FirstZero interrupted size script) ∧
        ((∃ what, call.outcome = .error what) ↔
          ∃ errno, FirstFailure interrupted size errno script) ∧
        (call.outcome = .ok true → size ≤ source.stream.length ∧
          read call.state.memory ptr size = source.stream.take size ∧
          call.state.stream = source.stream.drop size)) ∧
      (Possible interrupted size source.stream.length script →
        size ≤ answered interrupted script →
          ∃ call, readExact strerror ptr size script source = some call)) ∧
    ∀ blocks writes,
      ((∃ sent, writeBlocks strerror blocks writes [] = some sent ∧ sent.outcome = .ok ()) ↔
        Splits interrupted (blocks.map List.length) writes) ∧
      ∀ sent, writeBlocks strerror blocks writes [] = some sent →
        sent.state <+: blocks.flatten ∧ (sent.outcome = .ok () → sent.state = blocks.flatten) ∧
        ∀ ptr reads memory,
          (sent.outcome = .ok () →
            ((∃ received, readBlocks strerror ptr (blocks.map List.length) reads ⟨memory, sent.state⟩ =
                some (blocks, received) ∧ received.outcome = .ok true ∧ received.state.stream = []) ↔
              Splits interrupted (blocks.map List.length) reads)) ∧
          ∀ got received,
            readBlocks strerror ptr (blocks.map List.length) reads ⟨memory, sent.state⟩ =
                some (got, received) →
              got <+: blocks ∧ (received.outcome = .ok true → got = blocks) ∧
              (Progress interrupted reads → received.outcome = .ok true) ∧
              (sent.outcome = .ok () → received.outcome = .ok true → received.state.stream = []) := by
  refine ⟨?_, ?_, ?_⟩
  · intro data script stream
    exact ⟨fun _ hcall => writeExact_stream hcall, writeExact_ends strerror stream⟩
  · intro ptr size script source
    refine ⟨?_, readExact_ends strerror ptr⟩
    intro call hcall
    obtain ⟨htrue, hfalse, herror⟩ := readExact_outcome hcall
    exact ⟨htrue, hfalse, herror, readExact_bytes hcall⟩
  · intro blocks writes
    refine ⟨writeBlocks_ok_iff, ?_⟩
    intro sent hsent
    obtain ⟨part, hstate, hfront, hall⟩ := writeBlocks_stream hsent
    rw [List.nil_append] at hstate
    subst hstate
    refine ⟨hfront, hall, ?_⟩
    intro ptr reads memory
    constructor
    · intro hok
      refine readBlocks_ok_iff ?_
      rw [List.append_nil]
      exact hall hok
    · intro got received hreceived
      obtain ⟨hgot, hblocks⟩ := readBlocks_prefix hreceived hfront
      refine ⟨hgot, fun htrue => (hblocks htrue).1, readBlocks_of_progress hreceived, ?_⟩
      intro hok htrue
      rw [(hblocks htrue).2]
      dsimp only
      rw [hall hok, List.drop_length]

/-- Three blocks, one of them empty, that are written in pieces with an interruption in between, and read
in others. -/
theorem exact_of_three_blocks :
    ∃ sent, writeBlocks (fun _ => "") [[1], [], [2, 3]]
        [.moved 1, .failed EINTR, .moved 1, .moved 1] [] = some sent ∧ sent.state = [1, 2, 3] ∧
      ∃ received, readBlocks (fun _ => "") 0 [1, 0, 2] [.failed EINTR, .moved 1, .moved 2]
          ⟨fun _ => 0, sent.state⟩ = some ([[1], [], [2, 3]], received) ∧
        received.outcome = .ok true ∧ received.state.stream = [] := by
  obtain ⟨-, -, hblocks⟩ := exact_under_any_splitting fun _ => ""
  have hwrites : Splits interrupted [1, 0, 2] [.moved 1, .failed EINTR, .moved 1, .moved 1] :=
    ⟨[.moved 1], _, rfl, by simp [Progress, Answer.Goes], rfl,
      [], _, rfl, by simp [Progress], rfl,
      [.failed EINTR, .moved 1, .moved 1], [], rfl, by simp [Progress, Answer.Goes], rfl, trivial⟩
  have hreads : Splits interrupted [1, 0, 2] [.failed EINTR, .moved 1, .moved 2] :=
    ⟨[.failed EINTR, .moved 1], _, rfl, by simp [Progress, Answer.Goes], rfl,
      [], _, rfl, by simp [Progress], rfl,
      [.moved 2], [], rfl, by simp [Progress, Answer.Goes], rfl, trivial⟩
  obtain ⟨hsplits, hrest⟩ := hblocks [[1], [], [2, 3]] [.moved 1, .failed EINTR, .moved 1, .moved 1]
  obtain ⟨sent, hsent, hok⟩ := hsplits.2 hwrites
  obtain ⟨-, hstate, hread⟩ := hrest sent hsent
  exact ⟨sent, hsent, hstate hok, ((hread 0 _ fun _ => 0).1 hok).2 hreads⟩

/-! ### The streams of the pool -/

/-- **The pool reads its streams as `ReadExact` does**: with a kernel that reports the end of a stream
where there is nothing left, and no error, `ReadExact` gives the bytes that the loops of the pool get,
or none when they get none. -/
theorem framing_readExact {strerror : ℕ → String} {ptr size : ℕ} {script : List (Answer ℕ)}
    {source : Source} {call : Finished Bool Source} {b : Bool}
    (h : readExact strerror ptr size script source = some call) (hok : call.outcome = .ok b)
    (hend : ∀ pre post, script = pre ++ .moved 0 :: post → Progress interrupted pre →
      total pre < size → total pre = source.stream.length) :
    Framing.readExact size source.stream =
      if b then some (read call.state.memory ptr size, call.state.stream) else none := by
  rw [Framing.readExact]
  cases b with
  | true =>
      obtain ⟨hle, hread, hstream⟩ := readExact_bytes h hok
      rw [if_pos hle, if_pos rfl, hread, hstream]
  | false =>
      obtain ⟨pre, post, hscript, hp, hlt⟩ := (readExact_outcome h).2.1.1 hok
      have hlen := hend pre post hscript hp hlt
      rw [if_neg (by omega)]
      rfl

/-- **The pool writes its buffers as `WriteExact` does**: what a call of `write` moves is a chunk that a
writer of the pool can write, and what it leaves is the rest of the buffer. -/
theorem framing_writeSome {buffer stream stream' : List UInt8} {n : ℕ}
    (h : sysWrite buffer stream (.moved n) = some stream') (hn : 0 < n) :
    ∃ chunk todo, Framing.writeSome n [buffer] = some (chunk, todo) ∧ stream' = stream ++ chunk ∧
      todo.flatten = buffer.drop n := by
  rw [sysWrite] at h
  split_ifs at h with hle
  obtain rfl := Option.some_inj.1 h
  rcases Nat.eq_or_lt_of_le hle with rfl | hlt
  · refine ⟨buffer, [], ?_, by rw [List.take_length], by rw [List.drop_length]; rfl⟩
    rw [Framing.writeSome, if_neg (by omega), if_pos rfl]
  · refine ⟨buffer.take n, [buffer.drop n], ?_, rfl, List.append_nil _⟩
    rw [Framing.writeSome, if_pos ⟨hn, hlt⟩]

end ProcessPool.Detail
