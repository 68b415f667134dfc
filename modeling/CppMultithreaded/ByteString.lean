/-
**Fixed-width little-endian numbers, and flat memory.**

The structures that the programs of the repository copy byte by byte hold unsigned numbers of fixed
width.  They are written little-endian; only the round trip is used.  Memory is a function from
addresses, so that a write out of bounds can be expressed, and has to be excluded by proof.

Nothing in this module refers to a particular program.

Main definitions:

* `ByteString.encode`, `ByteString.decode` — a number as a given number of bytes, and back;
* `ByteString.read`, `ByteString.write` — reading and writing a block of a memory;
* `ByteString.Holds` — a block of a memory holds the given values.

Main results:

* `ByteString.decode_encode` — **the round trip**;
* `ByteString.holds_write_self`, `ByteString.holds_write_of_disjoint` — a block holds what was just
  written, and what a disjoint block held before.
-/

import Mathlib.Data.Nat.Digits.Defs
import Mathlib.Data.List.Basic
import Mathlib.Tactic.Common

set_option relaxedAutoImplicit false
set_option autoImplicit false

namespace ByteString

/-! ### Numbers -/

/-- The number `x` as `width` bytes, the least significant one first. -/
def encode : ℕ → ℕ → List UInt8
  | 0, _ => []
  | width + 1, x => UInt8.ofNat (x % 256) :: encode width (x / 256)

/-- The number written by the bytes, the least significant one first. -/
def decode (bytes : List UInt8) : ℕ := Nat.ofDigits 256 (bytes.map UInt8.toNat)

@[simp] theorem length_encode (width x : ℕ) : (encode width x).length = width := by
  induction width generalizing x with
  | zero => rfl
  | succ width ih => rw [encode, List.length_cons, ih]

theorem drop_encode {width n : ℕ} (h : width ≤ n) (x : ℕ) : (encode width x).drop n = [] :=
  List.drop_eq_nil_of_le (by rwa [length_encode])

/-- **The round trip.** -/
theorem decode_encode {width x : ℕ} (h : x < 256 ^ width) : decode (encode width x) = x := by
  induction width generalizing x with
  | zero =>
      have hx : x = 0 := by simpa using h
      rw [hx]
      rfl
  | succ width ih =>
      have hdiv : x / 256 < 256 ^ width := by
        rw [Nat.div_lt_iff_lt_mul (by omega), ← pow_succ]
        exact h
      have hrest := ih hdiv
      have hbyte : (UInt8.ofNat (x % 256)).toNat = x % 256 :=
        UInt8.toNat_ofNat_of_lt (by simp only [UInt8.size]; omega)
      rw [decode] at hrest ⊢
      rw [encode, List.map_cons, Nat.ofDigits_cons, hrest, hbyte]
      exact Nat.mod_add_div x 256

/-! ### Memory -/

variable {β : Type*}

/-- The `n` values of the memory from the address `o` on. -/
def read (m : ℕ → β) (o n : ℕ) : List β := (List.range n).map fun i => m (o + i)

/-- The memory after the values have been written from the address `o` on. -/
def write (m : ℕ → β) (o : ℕ) (vs : List β) : ℕ → β :=
  fun i => if o ≤ i then vs.getD (i - o) (m i) else m i

@[simp] theorem length_read (m : ℕ → β) (o n : ℕ) : (read m o n).length = n := by simp [read]

/-- A write is not seen below its block. -/
theorem write_of_lt {m : ℕ → β} {o i : ℕ} {vs : List β} (h : i < o) : write m o vs i = m i :=
  if_neg (by omega)

/-- A write is not seen above its block. -/
theorem write_of_ge {m : ℕ → β} {o i : ℕ} {vs : List β} (h : o + vs.length ≤ i) :
    write m o vs i = m i := by
  rw [write, if_pos (by omega), List.getD_eq_getElem?_getD, List.getElem?_eq_none (by omega),
    Option.getD_none]

@[simp] theorem write_nil (m : ℕ → β) (o : ℕ) : write m o [] = m := by
  funext i
  simp [write]

/-- Two blocks that are written one after the other are one block. -/
theorem write_append (m : ℕ → β) (o : ℕ) (us vs : List β) :
    write (write m o us) (o + us.length) vs = write m o (us ++ vs) := by
  funext i
  rcases Nat.lt_or_ge i o with hlo | hlo
  · rw [write_of_lt (by omega), write_of_lt hlo, write_of_lt hlo]
  · rw [write.eq_def _ _ (us ++ vs), if_pos hlo, List.getD_eq_getElem?_getD]
    rcases Nat.lt_or_ge i (o + us.length) with hmid | hmid
    · rw [write_of_lt hmid, write, if_pos hlo, List.getD_eq_getElem?_getD,
        List.getElem?_append_left (by omega)]
    · rw [write, if_pos hmid, write_of_ge hmid, List.getD_eq_getElem?_getD,
        List.getElem?_append_right (by omega), Nat.sub_sub]

/-- The block of the memory from the address `o` on holds the values. -/
def Holds (m : ℕ → β) (o : ℕ) (vs : List β) : Prop := read m o vs.length = vs

theorem Holds.read_eq {m : ℕ → β} {o n : ℕ} {vs : List β} (h : Holds m o vs)
    (hn : n = vs.length) : read m o n = vs := by
  rw [hn]
  exact h

/-- A block holds what was just written there. -/
theorem holds_write_self (m : ℕ → β) (o : ℕ) (vs : List β) : Holds (write m o vs) o vs := by
  refine List.ext_getElem (by simp) ?_
  intro i h₁ h₂
  simp only [read, List.getElem_map, List.getElem_range]
  rw [write, if_pos (by omega), Nat.add_sub_cancel_left, List.getD_eq_getElem?_getD,
    List.getElem?_eq_getElem h₂, Option.getD_some]

/-- **A block keeps what it holds under a write to a disjoint block.** -/
theorem holds_write_of_disjoint {m : ℕ → β} {o o' : ℕ} {us vs : List β} (h : Holds m o vs)
    (hd : o + vs.length ≤ o' ∨ o' + us.length ≤ o) : Holds (write m o' us) o vs := by
  have hread : read (write m o' us) o vs.length = read m o vs.length := by
    refine List.map_congr_left ?_
    intro i hi
    have hlt := List.mem_range.1 hi
    rcases hd with hd | hd
    · exact write_of_lt (by omega)
    · exact write_of_ge (by omega)
  rw [Holds, hread]
  exact h

end ByteString
