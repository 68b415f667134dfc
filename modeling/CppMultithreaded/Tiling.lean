/-
**Lists of consecutive intervals.**

A list of things that each occupy a half-open interval `[lo x, hi x)` *tiles* `[a, b)` when the
intervals are non-empty and each one starts where the previous one ends.  This is the shape of the
ranges a bump allocator hands out, and of the chunks a loop cuts an array into.

Nothing in this module refers to a particular program.

Main definitions:

* `Tiling.Tiles` — the list tiles the interval.

Main results:

* `Tiling.Tiles.append_iff` — a tiling can be cut between any two intervals;
* `Tiling.Tiles.pairwise` — **the intervals are disjoint and in order**;
* `Tiling.Tiles.eq_of_lo_eq` — an interval is determined by its start;
* `Tiling.Tiles.mem_prefix` — the intervals that end before a cut are those of the prefix;
* `Tiling.Tiles.exists_mem` — the intervals cover what is tiled.
-/

import Mathlib.Order.Basic
import Mathlib.Order.Lattice
import Mathlib.Data.List.Basic
import Mathlib.Tactic.Common

set_option relaxedAutoImplicit false
set_option autoImplicit false

namespace Tiling

variable {α β : Type*} [LinearOrder α] {lo hi : β → α}

/-- The intervals `[lo x, hi x)` of the list are non-empty and consecutive, and cover `[a, b)`. -/
def Tiles (lo hi : β → α) : α → List β → α → Prop
  | a, [], b => a = b
  | a, x :: xs, b => lo x = a ∧ lo x < hi x ∧ Tiles lo hi (hi x) xs b

@[simp] theorem tiles_nil {a b : α} : Tiles lo hi a [] b ↔ a = b := Iff.rfl

@[simp] theorem tiles_cons {a b : α} {x : β} {xs : List β} :
    Tiles lo hi a (x :: xs) b ↔ lo x = a ∧ lo x < hi x ∧ Tiles lo hi (hi x) xs b := Iff.rfl

/-- A tiling can be cut between any two intervals. -/
theorem Tiles.append_iff {a c : α} {xs ys : List β} :
    Tiles lo hi a (xs ++ ys) c ↔ ∃ b, Tiles lo hi a xs b ∧ Tiles lo hi b ys c := by
  induction xs generalizing a with
  | nil => simp
  | cons x xs ih =>
      rw [List.cons_append, tiles_cons, ih]
      constructor
      · rintro ⟨h₁, h₂, b, h₃, h₄⟩
        exact ⟨b, ⟨h₁, h₂, h₃⟩, h₄⟩
      · rintro ⟨b, ⟨h₁, h₂, h₃⟩, h₄⟩
        exact ⟨h₁, h₂, b, h₃, h₄⟩

/-- Adding an interval at the end of a tiling. -/
theorem Tiles.snoc {a b : α} {xs : List β} {x : β} (h : Tiles lo hi a xs b) (hx : lo x = b)
    (hlt : lo x < hi x) : Tiles lo hi a (xs ++ [x]) (hi x) :=
  Tiles.append_iff.2 ⟨b, h, hx, hlt, rfl⟩

theorem Tiles.le {a b : α} {xs : List β} (h : Tiles lo hi a xs b) : a ≤ b := by
  induction xs generalizing a with
  | nil => exact le_of_eq h
  | cons x xs ih =>
      obtain ⟨hlo, hlt, htl⟩ := h
      rw [← hlo]
      exact hlt.le.trans (ih htl)

/-- Every interval of a tiling is non-empty and inside what is tiled. -/
theorem Tiles.bounds {a b : α} {xs : List β} (h : Tiles lo hi a xs b) {x : β} (hx : x ∈ xs) :
    a ≤ lo x ∧ lo x < hi x ∧ hi x ≤ b := by
  obtain ⟨ys, zs, rfl⟩ := List.append_of_mem hx
  obtain ⟨c, hys, hlo, hlt, hzs⟩ := Tiles.append_iff.1 h
  rw [hlo] at hlt ⊢
  exact ⟨hys.le, hlt, hzs.le⟩

/-- **The intervals of a tiling are disjoint and in order.** -/
theorem Tiles.pairwise {a b : α} {xs : List β} (h : Tiles lo hi a xs b) :
    xs.Pairwise fun x y => hi x ≤ lo y := by
  induction xs generalizing a with
  | nil => exact List.Pairwise.nil
  | cons x xs ih =>
      obtain ⟨-, -, htl⟩ := h
      refine List.Pairwise.cons ?_ (ih htl)
      intro y hy
      exact (htl.bounds hy).1

/-- Two intervals of a tiling are equal or one ends before the other starts. -/
theorem Tiles.trichotomy {a b : α} {xs : List β} (h : Tiles lo hi a xs b) {x y : β}
    (hx : x ∈ xs) (hy : y ∈ xs) : x = y ∨ hi x ≤ lo y ∨ hi y ≤ lo x := by
  induction xs generalizing a with
  | nil => simp at hx
  | cons z zs ih =>
      obtain ⟨-, -, htl⟩ := h
      rcases List.mem_cons.1 hx with rfl | hx'
      · rcases List.mem_cons.1 hy with rfl | hy'
        · exact Or.inl rfl
        · exact Or.inr (Or.inl (htl.bounds hy').1)
      · rcases List.mem_cons.1 hy with rfl | hy'
        · exact Or.inr (Or.inr (htl.bounds hx').1)
        · exact ih htl hx' hy'

/-- An interval of a tiling is determined by its start. -/
theorem Tiles.eq_of_lo_eq {a b : α} {xs : List β} (h : Tiles lo hi a xs b) {x y : β}
    (hx : x ∈ xs) (hy : y ∈ xs) (hlo : lo x = lo y) : x = y := by
  rcases h.trichotomy hx hy with heq | hle | hle
  · exact heq
  · exact absurd ((h.bounds hx).2.1.trans_le hle) (by rw [hlo]; exact lt_irrefl _)
  · exact absurd ((h.bounds hy).2.1.trans_le hle) (by rw [hlo]; exact lt_irrefl _)

/-- The intervals that end before a cut are those of the prefix. -/
theorem Tiles.mem_prefix {a b c : α} {xs ys : List β} (h : Tiles lo hi a (xs ++ ys) c)
    (hxs : Tiles lo hi a xs b) {x : β} (hx : x ∈ xs ++ ys) (hle : hi x ≤ b) : x ∈ xs := by
  obtain ⟨b', hxs', hys⟩ := Tiles.append_iff.1 h
  have hb : b' = b := by
    clear h hys hx
    induction xs generalizing a with
    | nil =>
        rw [← tiles_nil.1 hxs, ← tiles_nil.1 hxs']
    | cons z zs ih => exact ih hxs.2.2 hxs'.2.2
  rcases List.mem_append.1 hx with hx' | hx'
  · exact hx'
  · have hbounds := hys.bounds hx'
    rw [hb] at hbounds
    exact absurd (hbounds.1.trans_lt hbounds.2.1) (not_lt.2 hle)

/-- The end of what a list tiles is determined by the list. -/
theorem Tiles.end_unique {a b b' : α} {xs : List β} (h : Tiles lo hi a xs b)
    (h' : Tiles lo hi a xs b') : b = b' := by
  induction xs generalizing a with
  | nil => rw [← tiles_nil.1 h, ← tiles_nil.1 h']
  | cons x xs ih => exact ih h.2.2 h'.2.2

/-- What holds of the start of what is tiled, and is carried over each interval, holds of every
boundary. -/
theorem Tiles.boundaries {P : α → Prop} {a b : α} {xs : List β} (h : Tiles lo hi a xs b) (ha : P a)
    (hstep : ∀ x ∈ xs, P (lo x) → P (hi x)) : (∀ x ∈ xs, P (lo x)) ∧ P b := by
  induction xs generalizing a with
  | nil =>
      rw [← tiles_nil.1 h]
      exact ⟨by simp, ha⟩
  | cons x xs ih =>
      obtain ⟨hlo, -, htl⟩ := h
      rw [← hlo] at ha
      obtain ⟨hxs, hb⟩ := ih htl (hstep x List.mem_cons_self ha)
        (fun y hy => hstep y (List.mem_cons_of_mem x hy))
      refine ⟨?_, hb⟩
      intro y hy
      rcases List.mem_cons.1 hy with rfl | hy
      · exact ha
      · exact hxs y hy

/-- A list with a non-empty tiling ends in an interval that ends where the tiling does. -/
theorem Tiles.exists_last {a b : α} {xs : List β} (h : Tiles lo hi a xs b) :
    b = a ∨ ∃ x ∈ xs, hi x = b := by
  induction xs generalizing a with
  | nil => exact Or.inl (tiles_nil.1 h).symm
  | cons x xs ih =>
      obtain ⟨-, -, htl⟩ := h
      rcases ih htl with hb | ⟨y, hy, hb⟩
      · exact Or.inr ⟨x, List.mem_cons_self, hb.symm⟩
      · exact Or.inr ⟨y, List.mem_cons_of_mem x hy, hb⟩

/-- The intervals of a tiling cover what is tiled. -/
theorem Tiles.exists_mem {a b c : α} {xs : List β} (h : Tiles lo hi a xs b) (hac : a ≤ c)
    (hcb : c < b) : ∃ x ∈ xs, lo x ≤ c ∧ c < hi x := by
  induction xs generalizing a with
  | nil =>
      rw [tiles_nil] at h
      exact absurd (hac.trans_lt hcb) (by rw [h]; exact lt_irrefl b)
  | cons x xs ih =>
      obtain ⟨hlo, -, htl⟩ := h
      rcases lt_or_ge c (hi x) with hlt | hge
      · exact ⟨x, List.mem_cons_self, by rw [hlo]; exact hac, hlt⟩
      · obtain ⟨y, hy, hcy⟩ := ih htl hge
        exact ⟨y, List.mem_cons_of_mem x hy, hcy⟩

/-- After an interval comes the end of what is tiled, or another interval. -/
theorem Tiles.exists_next {a b : α} {xs : List β} (h : Tiles lo hi a xs b) {x : β} (hx : x ∈ xs) :
    hi x = b ∨ ∃ y ∈ xs, lo y = hi x := by
  obtain ⟨ys, zs, rfl⟩ := List.append_of_mem hx
  obtain ⟨_, -, -, -, hzs⟩ := Tiles.append_iff.1 h
  cases zs with
  | nil => exact Or.inl (tiles_nil.1 hzs)
  | cons y zs => exact Or.inr ⟨y, by simp, hzs.1⟩

end Tiling
