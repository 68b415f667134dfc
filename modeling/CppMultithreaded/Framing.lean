/-
**Frames in a byte stream.**

A frame is a header of fixed size, from which the size of the payload can be read off, followed by the
payload.  A stream carries frames one after the other; writer and reader move it in chunks of any
size.  What a reader has of the current frame, what is in the stream, and what the writer has still to
write make up the frames in flight, and this alone determines what the reader gets.

Nothing in this module refers to a particular program.

Main definitions:

* `Framing` — how frames are laid out;
* `Framing.stream` — the frames of a list, one after the other;
* `Framing.writeSome` — a write of some of the bytes that are left;
* `Framing.transfers` — the writes and the reads that are left;
* `Framing.readExact`, `Framing.complete` — reading a stream that ends, and the frames that are
  completely present where it has been cut.

Main results:

* `Framing.stream_header` — a reader that has as many bytes as a header has, has the header of the
  first frame;
* `Framing.stream_frame` — **a reader that has a header and as many bytes as it announces has the
  first frame**;
* `Framing.stream_incomplete`, `Framing.stream_incomplete_payload` — a reader that has everything and
  is not done with a frame has nothing;
* `Framing.flatten_writeSome` — a write moves bytes from the writer to the stream;
* `Framing.transfers_writeSome` — a write leaves fewer writes and reads;
* `Framing.readExact_take` — what a reader gets of a stream that is cut.
-/

import Mathlib.Data.List.Basic
import Mathlib.Tactic.Common

set_option relaxedAutoImplicit false
set_option autoImplicit false

/-- How frames are laid out: a header of fixed size, and a payload whose size is read off the
header. -/
structure Framing (φ β : Type*) where
  /-- The size of a header. -/
  headerSize : ℕ
  /-- The header of a frame. -/
  header : φ → List β
  /-- The payload of a frame. -/
  payload : φ → List β
  /-- The size of the payload that a header announces. -/
  payloadSize : List β → ℕ
  /-- The frames that can be represented. -/
  valid : φ → Prop
  headerSize_pos : 0 < headerSize
  length_header : ∀ f, (header f).length = headerSize
  payloadSize_header : ∀ f, valid f → payloadSize (header f) = (payload f).length

namespace Framing

variable {φ β : Type*} (F : Framing φ β)

/-- The frames of the list, one after the other. -/
def stream (fs : List φ) : List β := fs.flatMap fun f => F.header f ++ F.payload f

@[simp] theorem stream_nil : F.stream [] = [] := rfl

theorem stream_cons (f : φ) (fs : List φ) :
    F.stream (f :: fs) = F.header f ++ (F.payload f ++ F.stream fs) := by
  rw [stream, List.flatMap_cons, List.append_assoc]
  rfl

theorem stream_append (fs gs : List φ) : F.stream (fs ++ gs) = F.stream fs ++ F.stream gs :=
  List.flatMap_append

theorem stream_singleton (f : φ) : F.stream [f] = F.header f ++ F.payload f := by
  rw [stream_cons, stream_nil, List.append_nil]

variable {F} {fs : List φ}

/-- A stream with bytes starts with a frame. -/
theorem exists_cons_of_ne_nil (h : F.stream fs ≠ []) : ∃ f fs', fs = f :: fs' := by
  cases fs with
  | nil => exact absurd rfl h
  | cons f fs' => exact ⟨f, fs', rfl⟩

/-- **A reader that has as many bytes as a header has, has the header of the first frame.** -/
theorem stream_header {got rest : List β} (h : got ++ rest = F.stream fs)
    (hlen : got.length = F.headerSize) :
    ∃ f fs', fs = f :: fs' ∧ got = F.header f ∧ rest = F.payload f ++ F.stream fs' := by
  have hpos := F.headerSize_pos
  have hne : F.stream fs ≠ [] := by
    intro hnil
    rw [hnil] at h
    have hgot := List.append_eq_nil_iff.1 h
    rw [hgot.1, List.length_nil] at hlen
    omega
  obtain ⟨f, fs', rfl⟩ := exists_cons_of_ne_nil hne
  rw [stream_cons] at h
  obtain ⟨hgot, hrest⟩ := List.append_inj h (hlen.trans (F.length_header f).symm)
  exact ⟨f, fs', rfl, hgot, hrest⟩

/-- **A reader that has a header and as many bytes as it announces has the first frame.** -/
theorem stream_frame {header got rest : List β} (hv : ∀ f ∈ fs, F.valid f)
    (h : header ++ got ++ rest = F.stream fs) (hheader : header.length = F.headerSize)
    (hgot : got.length = F.payloadSize header) :
    ∃ f fs', fs = f :: fs' ∧ header = F.header f ∧ got = F.payload f ∧ rest = F.stream fs' := by
  rw [List.append_assoc] at h
  obtain ⟨f, fs', rfl, rfl, hrest⟩ := stream_header h hheader
  rw [F.payloadSize_header f (hv f List.mem_cons_self)] at hgot
  obtain ⟨hpayload, htail⟩ := List.append_inj hrest hgot
  exact ⟨f, fs', rfl, rfl, hpayload, htail⟩

/-- A reader that has everything, but less than a header, has nothing. -/
theorem stream_incomplete {got : List β} (h : got = F.stream fs)
    (hlen : got.length < F.headerSize) : fs = [] := by
  cases fs with
  | nil => rfl
  | cons f fs' =>
      have hsize := congrArg List.length h
      rw [stream_cons, List.length_append, F.length_header] at hsize
      omega

/-- A reader that has a header always gets the payload. -/
theorem stream_incomplete_payload {header got : List β} (hv : ∀ f ∈ fs, F.valid f)
    (h : header ++ got = F.stream fs) (hheader : header.length = F.headerSize) :
    F.payloadSize header ≤ got.length := by
  obtain ⟨f, fs', rfl, rfl, hgot⟩ := stream_header h hheader
  have hsize := congrArg List.length hgot
  rw [List.length_append] at hsize
  rw [F.payloadSize_header f (hv f List.mem_cons_self)]
  omega

/-! ### Writing in chunks -/

/-- Writing `k` bytes of the first of the buffers that are left: the bytes written, and what is left
then.  At least one byte is written, and a buffer that has been written is dropped. -/
def writeSome (k : ℕ) : List (List β) → Option (List β × List (List β))
  | [] => none
  | buffer :: rest =>
      if 0 < k ∧ k < buffer.length then some (buffer.take k, buffer.drop k :: rest)
      else if k = buffer.length then some (buffer, rest)
      else none

/-- A write moves bytes from the writer to the stream. -/
theorem flatten_writeSome {k : ℕ} {todo todo' : List (List β)} {chunk : List β}
    (h : writeSome k todo = some (chunk, todo')) : chunk ++ todo'.flatten = todo.flatten := by
  cases todo with
  | nil => simp [writeSome] at h
  | cons buffer rest =>
      simp only [writeSome] at h
      split_ifs at h
      · obtain ⟨rfl, rfl⟩ := Prod.mk.inj (Option.some.inj h)
        rw [List.flatten_cons, List.flatten_cons, ← List.append_assoc, List.take_append_drop]
      · obtain ⟨rfl, rfl⟩ := Prod.mk.inj (Option.some.inj h)
        rw [List.flatten_cons]

/-- The bytes written are the first of those that are left. -/
theorem take_of_writeSome {k : ℕ} {todo todo' : List (List β)} {chunk : List β}
    (h : writeSome k todo = some (chunk, todo')) : todo.flatten.take k = chunk := by
  have hlen : chunk.length = k := by
    cases todo with
    | nil => simp [writeSome] at h
    | cons buffer rest =>
        simp only [writeSome] at h
        split_ifs at h with hpart hall
        · obtain ⟨rfl, rfl⟩ := Prod.mk.inj (Option.some.inj h)
          exact List.length_take_of_le (Nat.le_of_lt hpart.2)
        · obtain ⟨rfl, rfl⟩ := Prod.mk.inj (Option.some.inj h)
          exact hall.symm
  rw [← flatten_writeSome h, ← hlen, List.take_left]

/-- Where buffers are left, something can be written if there is room for one more byte. -/
theorem exists_writeSome {todo : List (List β)} (h : todo ≠ []) :
    ∃ k ≤ 1, ∃ r, writeSome k todo = some r := by
  cases todo with
  | nil => exact absurd rfl h
  | cons buffer rest =>
      by_cases hpart : 1 < buffer.length
      · exact ⟨1, Nat.le_refl _, _, if_pos ⟨Nat.one_pos, hpart⟩⟩
      · exact ⟨buffer.length, Nat.not_lt.1 hpart, (buffer, rest), by simp [writeSome]⟩

/-- The number of steps that it takes at most to write the buffers that are left, and to read the
bytes. -/
def transfers (todo : List (List β)) : ℕ := 2 * todo.flatten.length + todo.length

@[simp] theorem transfers_nil : transfers ([] : List (List β)) = 0 := rfl

/-- **A write leaves fewer steps**, also with the bytes that are then to be read. -/
theorem transfers_writeSome {k : ℕ} {todo todo' : List (List β)} {chunk : List β}
    (h : writeSome k todo = some (chunk, todo')) :
    transfers todo' + chunk.length + 1 ≤ transfers todo := by
  have hflatten := congrArg List.length (flatten_writeSome h)
  rw [List.length_append] at hflatten
  have hbuffers : todo'.length + 1 = todo.length ∨ (todo'.length = todo.length ∧ 0 < chunk.length) := by
    cases todo with
    | nil => simp [writeSome] at h
    | cons buffer rest =>
        simp only [writeSome] at h
        split_ifs at h with hpart
        · obtain ⟨rfl, rfl⟩ := Prod.mk.inj (Option.some.inj h)
          exact Or.inr ⟨rfl, by rw [List.length_take]; omega⟩
        · obtain ⟨rfl, rfl⟩ := Prod.mk.inj (Option.some.inj h)
          exact Or.inl rfl
  simp only [transfers]
  omega

/-! ### Streams that are cut -/

/-- Reading exactly `size` bytes of a stream that ends: the bytes and the rest of the stream, or nothing
where the end comes first. -/
def readExact (size : ℕ) (bytes : List β) : Option (List β × List β) :=
  if size ≤ bytes.length then some (bytes.take size, bytes.drop size) else none

theorem length_of_readExact {size : ℕ} {bytes got rest : List β}
    (h : readExact size bytes = some (got, rest)) : rest.length + size = bytes.length := by
  rw [readExact] at h
  split_ifs at h with hle
  obtain ⟨-, rfl⟩ := Prod.mk.inj (Option.some.inj h)
  rw [List.length_drop]
  omega

/-- A block at the front of a stream is read off it. -/
theorem readExact_append {size : ℕ} {got : List β} (h : got.length = size) (rest : List β) :
    readExact size (got ++ rest) = some (got, rest) := by
  rw [readExact, if_pos (by rw [List.length_append]; omega), ← h, List.take_left, List.drop_left]

/-- **A block is read off a stream that is cut** where the cut does not come first. -/
theorem readExact_take (a b : List β) (k : ℕ) :
    readExact a.length ((a ++ b).take k) =
      if a.length ≤ k then some (a, b.take (k - a.length)) else none := by
  rw [readExact, List.length_take, List.length_append]
  split_ifs with hsize hle hle
  · rw [List.take_append, List.take_of_length_le hle, List.take_left, List.drop_left]
  · omega
  · omega
  · rfl

variable (F)

/-- The frames that are completely present in the first `k` bytes of their stream. -/
def complete : List φ → ℕ → List φ
  | [], _ => []
  | f :: fs, k =>
      if F.headerSize + (F.payload f).length ≤ k then
        f :: complete fs (k - (F.headerSize + (F.payload f).length))
      else []

/-- The frames that are completely present come first. -/
theorem complete_prefix (fs : List φ) (k : ℕ) : F.complete fs k <+: fs := by
  induction fs generalizing k with
  | nil => exact List.nil_prefix
  | cons f fs ih =>
      rw [complete]
      split_ifs
      · exact List.cons_prefix_cons.2 ⟨rfl, ih _⟩
      · exact List.nil_prefix

end Framing
