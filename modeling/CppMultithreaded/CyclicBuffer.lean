/-
**Cyclic buffers: a window of consecutive positions, stored modulo the capacity.**

A ring of `n` cells stores position `p` in the cell `p % n`.  What makes this sound is that two
positions of a window of length `n` never share a cell.  The module proves this once, for the
channel, whose cells are values, and for the byte ring of the shared-memory queue.

Nothing in this module refers to a particular program.

Main definitions:

* `CyclicBuffer.slots` — the values of the `k` cells from a position on, in cyclic order.

Main results:

* `CyclicBuffer.mod_ne_mod` — **two positions of one window are stored in different cells**;
* `CyclicBuffer.slots_push` — storing a value after the last cell of a window that is not full
  appends it to the window;
* `CyclicBuffer.slots_pop` — dropping the first cell drops the first value of the window, whatever
  is left in the dropped cell.
-/

import Mathlib.Data.Nat.ModEq
import Mathlib.Data.List.Basic
import Mathlib.Tactic.Common

set_option relaxedAutoImplicit false
set_option autoImplicit false

namespace CyclicBuffer

/-- **Two positions of one window are stored in different cells.** -/
theorem mod_ne_mod {a b n : ℕ} (hab : a < b) (hb : b < a + n) : a % n ≠ b % n := by
  intro h
  have hdvd : n ∣ b - a := (Nat.modEq_iff_dvd' hab.le).1 h
  have hle : n ≤ b - a := Nat.le_of_dvd (by omega) hdvd
  omega

/-- **Two disjoint blocks of one window are stored in disjoint blocks of cells.** -/
theorem block_disjoint {a b k l n : ℕ} (hab : a + k ≤ b) (hb : b + l ≤ a + n) (hl : 0 < l) :
    a % n + k ≤ b % n ∨ b % n + l ≤ a % n := by
  have hn : 0 < n := by omega
  have hda := Nat.div_add_mod a n
  have hdb := Nat.div_add_mod b n
  have hle : a / n ≤ b / n := Nat.div_le_div_right (by omega)
  have hlt : b / n ≤ a / n + 1 := by
    rw [← Nat.add_div_right a hn]
    exact Nat.div_le_div_right (by omega)
  -- the two blocks are in the same lap, or the second one is in the next lap
  rcases Nat.eq_or_lt_of_le hle with heq | hnext
  · rw [heq] at hda
    exact Or.inl (by omega)
  · have hlap : b / n = a / n + 1 := by omega
    rw [hlap, Nat.mul_add, Nat.mul_one] at hdb
    exact Or.inr (by omega)

/-- Inside a block that is not cut by the end of the ring, positions and cells advance together. -/
theorem add_mod_of_lt {a k n : ℕ} (h : a % n + k < n) : (a + k) % n = a % n + k := by
  rw [← Nat.mod_add_mod, Nat.mod_eq_of_lt h]

variable {α : Type*} [Inhabited α]

/-- The values of the `k` cells from position `head` on, in cyclic order. -/
def slots (buffer : List α) (head k : ℕ) : List α :=
  (List.range k).map fun i => buffer.getD ((head + i) % buffer.length) default

@[simp] theorem slots_zero (buffer : List α) (head : ℕ) : slots buffer head 0 = [] := rfl

@[simp] theorem length_slots (buffer : List α) (head k : ℕ) :
    (slots buffer head k).length = k := by simp [slots]

theorem slots_succ_last (buffer : List α) (head k : ℕ) :
    slots buffer head (k + 1) =
      slots buffer head k ++ [buffer.getD ((head + k) % buffer.length) default] := by
  simp [slots, List.range_succ]

theorem slots_succ_head (buffer : List α) (head k : ℕ) :
    slots buffer head (k + 1) =
      buffer.getD (head % buffer.length) default :: slots buffer (head + 1) k := by
  simp only [slots, List.range_succ_eq_map, List.map_cons, List.map_map, Nat.add_zero]
  refine congrArg (List.cons _) (List.map_congr_left ?_)
  intro i _
  simp only [Function.comp_apply]
  rw [show head + 1 + i = head + Nat.succ i by omega]

/-- Only the cell of the first position matters, not its lap. -/
theorem slots_mod (buffer : List α) (head k : ℕ) :
    slots buffer (head % buffer.length) k = slots buffer head k := by
  simp [slots, Nat.mod_add_mod]

/-- Overwriting a cell outside the window leaves the window alone. -/
theorem slots_set_of_ne {buffer : List α} {head k j : ℕ} {v : α}
    (h : ∀ i < k, (head + i) % buffer.length ≠ j) :
    slots (buffer.set j v) head k = slots buffer head k := by
  refine List.map_congr_left ?_
  intro i hi
  have hne := h i (List.mem_range.1 hi)
  rw [List.length_set, List.getD_eq_getElem?_getD, List.getD_eq_getElem?_getD,
    List.getElem?_set_ne (Ne.symm hne)]

/-- **Storing a value after the last cell** of a window that is not full appends it. -/
theorem slots_push (buffer : List α) (head : ℕ) {k : ℕ} (v : α) (hk : k < buffer.length) :
    slots (buffer.set ((head + k) % buffer.length) v) head (k + 1) =
      slots buffer head k ++ [v] := by
  have hcell : (head + k) % buffer.length < buffer.length := Nat.mod_lt _ (by omega)
  have hold : slots (buffer.set ((head + k) % buffer.length) v) head k = slots buffer head k := by
    refine slots_set_of_ne ?_
    intro i hi
    exact mod_ne_mod (by omega) (by omega)
  rw [slots_succ_last, hold, List.length_set, List.getD_eq_getElem?_getD,
    List.getElem?_set_self hcell]
  rfl

/-- **Dropping the first cell** drops the first value, whatever `m` is left in the cell. -/
theorem slots_pop (buffer : List α) (head : ℕ) {k : ℕ} (m : α) (hk : k < buffer.length) :
    slots buffer head (k + 1) =
      buffer.getD (head % buffer.length) default ::
        slots (buffer.set (head % buffer.length) m) (head + 1) k := by
  rw [slots_succ_head]
  refine congrArg (List.cons _) (slots_set_of_ne ?_).symm
  intro i hi
  exact (mod_ne_mod (by omega) (by omega)).symm

end CyclicBuffer
