/-
**The records of the shared-memory queue of hw-5.**

A message travels as a record: a header of eight bytes, the payload, and zeros up to a multiple of
eight bytes.  Where a record would cross the end of the ring, the rest of the ring is skipped by a
padding record.  A record is written by a few `memcpy` and `memset` calls; it is modelled as the list
of these writes, each an address with the bytes written there.

The arithmetic of the source is that of `uint32_t` and `uint64_t`, and is modelled as such: for
payloads close to `2 ^ 32` bytes, and for subtractions below zero, it wraps around.

Main definitions:

* `MpscQueue.alignUp`, `MpscQueue.messageSize` — the size of the record of a message;
* `MpscQueue.MessageHeader`, `MpscQueue.MessageType`, `MpscQueue.Message`;
* `MpscQueue.writePaddingRecord`, `MpscQueue.writeMessageRecord` — the writes of a record.

Main results:

* `MpscQueue.messageSize_eq` — the size of a record, where nothing wraps around;
* `MpscQueue.MessageHeader.ofBytes_bytes` — a header survives its round trip through memory;
* `MpscQueue.tiles_writeMessageRecord`, `MpscQueue.tiles_writePaddingRecord` — **the writes of a
  record fill one contiguous block, each byte once**;
* `MpscQueue.writeMessageRecord_mod` — writing at an address of the ring is writing at the position
  it stands for, as long as the record does not cross the end of the ring.
-/

import CppMultithreaded.ByteString
import CppMultithreaded.CyclicBuffer
import CppMultithreaded.Tiling

set_option relaxedAutoImplicit false
set_option autoImplicit false

namespace MpscQueue

open ByteString (encode decode)
open Tiling (Tiles)

/-! ### Arithmetic -/

/-- The conversion to `uint32_t`. -/
def u32 (x : ℕ) : ℕ := x % 2 ^ 32

/-- The subtraction of `uint32_t`. -/
def sub32 (a b : ℕ) : ℕ := (a + (2 ^ 32 - b % 2 ^ 32)) % 2 ^ 32

/-- The subtraction of `uint64_t`. -/
def sub64 (a b : ℕ) : ℕ := (a + (2 ^ 64 - b % 2 ^ 64)) % 2 ^ 64

theorem u32_of_lt {x : ℕ} (h : x < 2 ^ 32) : u32 x = x := Nat.mod_eq_of_lt h

theorem sub32_of_le {a b : ℕ} (hba : b ≤ a) (h : a - b < 2 ^ 32) : sub32 a b = a - b := by
  rw [sub32]
  omega

theorem sub64_of_le {a b : ℕ} (hba : b ≤ a) (h : a - b < 2 ^ 64) : sub64 a b = a - b := by
  rw [sub64]
  omega

/-- The default of the second argument of `alignUp`. -/
def alignment : ℕ := 8

/-- `value` rounded up to a multiple of `alignment`, in `uint32_t`. -/
def alignUp (value alignment : ℕ) : ℕ := u32 (value + alignment - 1) / alignment * alignment

theorem alignUp_eq {value : ℕ} (h : value ≤ 2 ^ 32 - 8) :
    alignUp value alignment = (value + 7) / 8 * 8 := by
  rw [alignUp, alignment, Nat.add_sub_assoc (by omega), u32_of_lt (by omega)]

theorem alignUp_mod (value : ℕ) : alignUp value alignment % 8 = 0 := Nat.mul_mod_left _ _

/-- A multiple of eight is left alone. -/
theorem alignUp_of_dvd {value : ℕ} (h : value ≤ 2 ^ 32 - 8) (hdvd : value % 8 = 0) :
    alignUp value alignment = value := by
  rw [alignUp_eq h]
  omega

/-! ### Messages -/

/-- The types of a message.  The enumeration has a fixed underlying type, so that every `uint32_t` is
a value of it. -/
inductive MessageType
  | padding
  | text
  | number
  | stop
  | all
  | unknown (code : ℕ)
  deriving DecidableEq, Repr

/-- The value of an enumerator. -/
def MessageType.code : MessageType → ℕ
  | .padding => 0
  | .text => 1
  | .number => 2
  | .stop => 3
  | .all => 4
  | .unknown code => code

/-- The enumerator with the given value. -/
def MessageType.ofCode : ℕ → MessageType
  | 0 => .padding
  | 1 => .text
  | 2 => .number
  | 3 => .stop
  | 4 => .all
  | code => .unknown code

/-- The types that carry a message through the queue. -/
def MessageType.Sendable (t : MessageType) : Prop := t = .text ∨ t = .number ∨ t = .stop

instance (t : MessageType) : Decidable t.Sendable := inferInstanceAs (Decidable (_ ∨ _ ∨ _))

theorem MessageType.Sendable.ofCode_code {t : MessageType} (h : t.Sendable) :
    MessageType.ofCode t.code = t := by
  rcases h with rfl | rfl | rfl <;> rfl

theorem MessageType.Sendable.code_lt {t : MessageType} (h : t.Sendable) : t.code < 2 ^ 32 := by
  rcases h with rfl | rfl | rfl <;> simp [MessageType.code]

theorem MessageType.Sendable.ne_padding {t : MessageType} (h : t.Sendable) : t ≠ .padding := by
  rcases h with rfl | rfl | rfl <;> simp

/-- A message, as it is passed to `TrySend` and as it is returned by `TryReceive`. -/
structure Message where
  type : MessageType
  payload : List UInt8
  deriving DecidableEq

/-- The payload is so short that the size of the record does not wrap around. -/
def Message.Small (m : Message) : Prop := m.payload.length ≤ 2 ^ 32 - 16

instance (m : Message) : Decidable m.Small := inferInstanceAs (Decidable (_ ≤ _))

/-- The header of a record. -/
structure MessageHeader where
  type : ℕ
  payloadSize : ℕ
  deriving DecidableEq

/-- The representation of a header in memory. -/
def MessageHeader.bytes (header : MessageHeader) : List UInt8 :=
  encode 4 header.type ++ encode 4 header.payloadSize

/-- The header that the bytes represent. -/
def MessageHeader.ofBytes (bytes : List UInt8) : MessageHeader :=
  ⟨decode (bytes.take 4), decode (bytes.drop 4)⟩

@[simp] theorem MessageHeader.length_bytes (header : MessageHeader) : header.bytes.length = 8 := by
  simp [MessageHeader.bytes]

/-- **A header survives its round trip through memory.** -/
theorem MessageHeader.ofBytes_bytes {header : MessageHeader} (ht : header.type < 2 ^ 32)
    (hp : header.payloadSize < 2 ^ 32) : MessageHeader.ofBytes header.bytes = header := by
  have hlen : (encode 4 header.type).length = 4 := ByteString.length_encode 4 _
  have htype := ByteString.decode_encode (show header.type < 256 ^ 4 by omega)
  have hsize := ByteString.decode_encode (show header.payloadSize < 256 ^ 4 by omega)
  rw [MessageHeader.ofBytes, MessageHeader.bytes, List.take_left' hlen, List.drop_left' hlen, htype,
    hsize]

/-- The size of the record of a message. -/
def messageSize (m : Message) : ℕ := alignUp (u32 (8 + u32 m.payload.length)) alignment

theorem messageSize_eq {m : Message} (h : m.Small) :
    messageSize m = (m.payload.length + 15) / 8 * 8 := by
  rw [Message.Small] at h
  rw [messageSize, u32_of_lt (x := m.payload.length) (by omega), u32_of_lt (by omega),
    alignUp_eq (by omega)]
  omega

theorem messageSize_mod (m : Message) : messageSize m % 8 = 0 := alignUp_mod _

theorem messageSize_lt {m : Message} (h : m.Small) : messageSize m < 2 ^ 32 := by
  have heq := messageSize_eq h
  rw [Message.Small] at h
  omega

theorem le_messageSize {m : Message} (h : m.Small) : m.payload.length + 8 ≤ messageSize m := by
  rw [messageSize_eq h]
  omega

/-! ### Writes -/

/-- A call of `memcpy` or `memset`. -/
structure Write where
  pos : ℕ
  bytes : List UInt8
  deriving DecidableEq

/-- The end of the block a write fills. -/
def Write.stop (w : Write) : ℕ := w.pos + w.bytes.length

/-- The write at the address of the ring that stands for its position. -/
def Write.wrap (bufferSize : ℕ) (w : Write) : Write := ⟨w.pos % bufferSize, w.bytes⟩

/-- The header of the padding record that skips `paddingSize` bytes. -/
def paddingHeader (paddingSize : ℕ) : MessageHeader :=
  ⟨MessageType.padding.code, sub32 paddingSize 8⟩

/-- The header of the record of a message. -/
def messageHeader (m : Message) : MessageHeader := ⟨m.type.code, u32 m.payload.length⟩

/-- The writes of `WritePaddingRecord`. -/
def writePaddingRecord (offset paddingSize : ℕ) : List Write :=
  ⟨offset, (paddingHeader paddingSize).bytes⟩ ::
    if 8 < paddingSize then [⟨offset + 8, List.replicate (paddingSize - 8) 0⟩] else []

/-- The number of zeros that follow the payload. -/
def paddingBytes (m : Message) : ℕ :=
  let totalSize := alignUp (u32 (8 + (messageHeader m).payloadSize)) alignment
  u32 (sub64 (sub64 totalSize 8) (messageHeader m).payloadSize)

/-- The writes of `WriteMessageRecord`. -/
def writeMessageRecord (offset : ℕ) (m : Message) : List Write :=
  ⟨offset, (messageHeader m).bytes⟩ ::
    ((if m.payload = [] then [] else [⟨offset + 8, m.payload⟩]) ++
      if paddingBytes m = 0 then []
      else [⟨offset + 8 + (messageHeader m).payloadSize, List.replicate (paddingBytes m) 0⟩])

theorem payloadSize_messageHeader {m : Message} (h : m.Small) :
    (messageHeader m).payloadSize = m.payload.length := by
  rw [Message.Small] at h
  exact u32_of_lt (by omega)

theorem paddingBytes_eq {m : Message} (h : m.Small) :
    paddingBytes m = messageSize m - 8 - m.payload.length := by
  have hle := le_messageSize h
  have hlt := messageSize_lt h
  have htotal : alignUp (u32 (8 + (messageHeader m).payloadSize)) alignment = messageSize m := rfl
  rw [paddingBytes, htotal, payloadSize_messageHeader h, sub64_of_le (a := messageSize m) (by omega)
    (by omega), sub64_of_le (by omega) (by omega), u32_of_lt (by omega)]

/-- **The writes of a message record fill one contiguous block, each byte once.** -/
theorem tiles_writeMessageRecord {m : Message} (h : m.Small) (offset : ℕ) :
    Tiles Write.pos Write.stop offset (writeMessageRecord offset m) (offset + messageSize m) := by
  have hpad := paddingBytes_eq h
  have hle := le_messageSize h
  have hhead : Write.stop ⟨offset, (messageHeader m).bytes⟩ = offset + 8 := by simp [Write.stop]
  refine ⟨rfl, ?_, ?_⟩
  · rw [hhead]
    exact Nat.lt_add_of_pos_right (by omega)
  rw [hhead, payloadSize_messageHeader h]
  refine Tiling.Tiles.append_iff.2 ⟨offset + 8 + m.payload.length, ?_, ?_⟩
  · split
    · next hnil => simp [hnil]
    · next hnil =>
        have hpos : 0 < m.payload.length := List.length_pos_iff.2 hnil
        exact ⟨rfl, Nat.lt_add_of_pos_right hpos, rfl⟩
  · split
    · next hzero => exact Tiling.tiles_nil.2 (by omega)
    · next hzero =>
        refine ⟨rfl, ?_, ?_⟩
        · simp only [Write.stop, List.length_replicate]
          omega
        · simp only [Write.stop, List.length_replicate, Tiling.tiles_nil]
          omega

/-- The writes of a padding record fill one contiguous block, each byte once. -/
theorem tiles_writePaddingRecord {paddingSize : ℕ} (h : 8 ≤ paddingSize) (offset : ℕ) :
    Tiles Write.pos Write.stop offset (writePaddingRecord offset paddingSize)
      (offset + paddingSize) := by
  have hhead : Write.stop ⟨offset, (paddingHeader paddingSize).bytes⟩ = offset + 8 := by
    simp [Write.stop]
  refine ⟨rfl, ?_, ?_⟩
  · rw [hhead]
    exact Nat.lt_add_of_pos_right (by omega)
  rw [hhead]
  split
  · refine ⟨rfl, ?_, ?_⟩
    · simp only [Write.stop, List.length_replicate]
      omega
    · simp only [Write.stop, List.length_replicate, Tiling.tiles_nil]
      omega
  · exact Tiling.tiles_nil.2 (by omega)

/-! ### Addresses of the ring -/

/-- Writing at an address of the ring is writing at the position it stands for, as long as the record
does not cross the end of the ring. -/
theorem writeMessageRecord_mod {m : Message} {p bufferSize : ℕ} (h : m.Small)
    (hfit : p % bufferSize + messageSize m ≤ bufferSize) :
    writeMessageRecord (p % bufferSize) m =
      (writeMessageRecord p m).map (Write.wrap bufferSize) := by
  have hpad := paddingBytes_eq h
  have hle := le_messageSize h
  rw [writeMessageRecord, writeMessageRecord, List.map_cons, List.map_append,
    payloadSize_messageHeader h]
  refine congrArg (List.cons _) (congrArg₂ (· ++ ·) ?_ ?_)
  · split
    · rfl
    · next hnil =>
        have hpos : 0 < m.payload.length := List.length_pos_iff.2 hnil
        simp only [List.map_cons, List.map_nil, Write.wrap]
        rw [CyclicBuffer.add_mod_of_lt (by omega)]
  · split
    · rfl
    · next hzero =>
        simp only [List.map_cons, List.map_nil, Write.wrap]
        rw [Nat.add_assoc p, CyclicBuffer.add_mod_of_lt (by omega), Nat.add_assoc]

/-- The same for a padding record that ends with the ring. -/
theorem writePaddingRecord_mod {p paddingSize bufferSize : ℕ}
    (hfit : p % bufferSize + paddingSize ≤ bufferSize) :
    writePaddingRecord (p % bufferSize) paddingSize =
      (writePaddingRecord p paddingSize).map (Write.wrap bufferSize) := by
  rw [writePaddingRecord, writePaddingRecord, List.map_cons]
  refine congrArg (List.cons _) ?_
  split
  · simp only [List.map_cons, List.map_nil, Write.wrap]
    rw [CyclicBuffer.add_mod_of_lt (by omega)]
  · rfl

end MpscQueue
