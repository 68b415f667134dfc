/-
**Depth-first search, as a recursion.**

The sequential depth-first search of a graph that is given by its successor lists.  The vertices
visited so far, in the order of their first visit, are at the same time the set of visited vertices
and the preorder, so that the recursion is a function from orders to orders.  It is bounded by a
number of nested calls; where that number is above the number of vertices that are left, the bound
plays no role.

Nothing in this module refers to a particular program.

Main definitions:

* `DepthFirst.visit`, `DepthFirst.forest` — visiting a vertex, and visiting a list of roots;
* `DepthFirst.enter` — entering a vertex that may have been visited;
* `DepthFirst.White` — reachability that avoids the vertices of an order;
* `DepthFirst.Adequate` — enough nested calls for the vertices that are left;
* `DepthFirst.Consecutive` — a condition on the successor lists of a graph of natural numbers.

Main results:

* `DepthFirst.Adequate.mem_forest_iff` — **the white-path theorem**: what a forest adds to an order is
  what its roots reach without the vertices of that order;
* `DepthFirst.forest_congr` — what a forest appends depends only on which vertices have been visited;
* `DepthFirst.Adequate.forest_fuel` — the bound plays no role where it is large enough;
* `DepthFirst.forest_range_iff` — **the preorder is the ascending order exactly for the consecutive
  graphs**.
-/

import Mathlib.Data.Finset.Card
import Mathlib.Data.List.Nodup
import Mathlib.Data.List.Range
import Mathlib.Logic.Relation
import Mathlib.Tactic.Common

set_option relaxedAutoImplicit false
set_option autoImplicit false

namespace DepthFirst

variable {V : Type*} [DecidableEq V]

/-! ### The recursion -/

/-- Visiting `v`, unless it has been visited: `v` is appended to the order, and then its successors
are visited one after the other. -/
def visit (succ : V → List V) : ℕ → List V → V → List V
  | 0, order, _ => order
  | fuel + 1, order, v =>
      if v ∈ order then order else (succ v).foldl (visit succ fuel) (order ++ [v])

/-- Visiting the roots one after the other. -/
def forest (succ : V → List V) (fuel : ℕ) (order roots : List V) : List V :=
  roots.foldl (visit succ fuel) order

variable {succ : V → List V} {fuel : ℕ} {order roots : List V} {u v w : V}

@[simp] theorem forest_nil : forest succ fuel order [] = order := rfl

@[simp] theorem forest_cons :
    forest succ fuel order (v :: roots) = forest succ fuel (visit succ fuel order v) roots := rfl

theorem forest_append {ws : List V} :
    forest succ fuel order (roots ++ ws) = forest succ fuel (forest succ fuel order roots) ws :=
  List.foldl_append

theorem visit_of_mem (h : v ∈ order) : visit succ fuel order v = order := by
  cases fuel with
  | zero => rfl
  | succ fuel => rw [visit, if_pos h]

theorem visit_of_notMem (h : v ∉ order) :
    visit succ (fuel + 1) order v = forest succ fuel (order ++ [v]) (succ v) := by
  rw [visit, if_neg h, forest]

/-- What a reflexive and transitive relation says about every visit, it says about a forest. -/
theorem forest_rel {R : List V → List V → Prop} (hrefl : ∀ o, R o o)
    (htrans : ∀ {o₁ o₂ o₃}, R o₁ o₂ → R o₂ o₃ → R o₁ o₃)
    (hvisit : ∀ o, ∀ v ∈ roots, R o (visit succ fuel o v)) : R order (forest succ fuel order roots) := by
  induction roots generalizing order with
  | nil => exact hrefl order
  | cons v roots ih =>
      rw [forest_cons]
      refine htrans (hvisit order v List.mem_cons_self) (ih ?_)
      exact fun o w hw => hvisit o w (List.mem_cons_of_mem v hw)

/-- A visit only appends to the order. -/
theorem prefix_visit : order <+: visit succ fuel order v := by
  induction fuel generalizing order v with
  | zero => exact List.prefix_rfl
  | succ fuel ih =>
      by_cases hv : v ∈ order
      · rw [visit_of_mem hv]
      · rw [visit_of_notMem hv]
        refine (List.prefix_append order [v]).trans ?_
        exact forest_rel (fun o => List.prefix_rfl) List.IsPrefix.trans fun o w _ => ih

theorem prefix_forest : order <+: forest succ fuel order roots :=
  forest_rel (fun _ => List.prefix_rfl) List.IsPrefix.trans fun _ _ _ => prefix_visit

/-- What a forest appends depends only on which vertices have been visited, one vertex at a time. -/
theorem visit_congr {order' : List V} (h : ∀ u, u ∈ order ↔ u ∈ order') :
    ∃ new, visit succ fuel order v = order ++ new ∧ visit succ fuel order' v = order' ++ new := by
  induction fuel generalizing order order' v with
  | zero => exact ⟨[], (List.append_nil order).symm, (List.append_nil order').symm⟩
  | succ fuel ih =>
      by_cases hv : v ∈ order
      · refine ⟨[], ?_, ?_⟩
        · rw [visit_of_mem hv, List.append_nil]
        · rw [visit_of_mem ((h v).1 hv), List.append_nil]
      rw [visit_of_notMem hv, visit_of_notMem fun hv' => hv ((h v).2 hv')]
      -- the successors are visited after the same vertices
      have hall : ∀ (ws new : List V), ∃ new', forest succ fuel (order ++ new) ws = order ++ new' ∧
          forest succ fuel (order' ++ new) ws = order' ++ new' := by
        intro ws
        induction ws with
        | nil => exact fun new => ⟨new, rfl, rfl⟩
        | cons w ws ihws =>
            intro new
            have hmem : ∀ u, u ∈ order ++ new ↔ u ∈ order' ++ new := by
              intro u
              rw [List.mem_append, List.mem_append, h u]
            obtain ⟨new', heq, heq'⟩ := ih hmem (v := w)
            rw [forest_cons, forest_cons, heq, heq', List.append_assoc, List.append_assoc]
            exact ihws (new ++ new')
      exact hall (succ v) [v]

/-- **What a forest appends depends only on which vertices have been visited.** -/
theorem forest_congr {order' : List V} (h : ∀ u, u ∈ order ↔ u ∈ order') :
    ∃ new, forest succ fuel order roots = order ++ new ∧
      forest succ fuel order' roots = order' ++ new := by
  induction roots generalizing order order' with
  | nil => exact ⟨[], (List.append_nil order).symm, (List.append_nil order').symm⟩
  | cons v roots ih =>
      obtain ⟨new, heq, heq'⟩ : ∃ new, visit succ fuel order v = order ++ new ∧
          visit succ fuel order' v = order' ++ new := visit_congr h
      have hmem : ∀ u, u ∈ order ++ new ↔ u ∈ order' ++ new := by
        intro u
        rw [List.mem_append, List.mem_append, h u]
      obtain ⟨new', hnew, hnew'⟩ := ih hmem
      refine ⟨new ++ new', ?_, ?_⟩
      · rw [forest_cons, heq, hnew, List.append_assoc]
      · rw [forest_cons, heq', hnew', List.append_assoc]

/-- The vertices that are appended when `v` is entered, whether or not it is one of the `visited`
vertices: `v` itself, and what its successors append. -/
def enter (succ : V → List V) (fuel : ℕ) (visited : List V) (v : V) : List V :=
  (forest succ fuel (visited ++ [v]) (succ v)).drop visited.length

/-- What is appended is what any other list of the same vertices is continued with. -/
theorem append_enter {visited visited' : List V} (h : ∀ u, u ∈ visited ∨ u = v ↔ u ∈ visited' ∨ u = v) :
    visited' ++ enter succ fuel visited v = forest succ fuel (visited' ++ [v]) (succ v) := by
  have hmem : ∀ u, u ∈ visited ++ [v] ↔ u ∈ visited' ++ [v] := by simpa using h
  obtain ⟨new, heq, heq'⟩ : ∃ new,
      forest succ fuel (visited ++ [v]) (succ v) = visited ++ [v] ++ new ∧
        forest succ fuel (visited' ++ [v]) (succ v) = visited' ++ [v] ++ new := forest_congr hmem
  rw [enter, heq, heq', List.append_assoc, List.append_assoc, List.drop_left]

/-! ### White paths -/

/-- The vertex `v` reaches `u` along a path that has no vertex of `order`. -/
def White (succ : V → List V) (order : List V) (v u : V) : Prop :=
  v ∉ order ∧ Relation.ReflTransGen (fun a b => b ∈ succ a ∧ b ∉ order) v u

omit [DecidableEq V] in
theorem White.refl (h : v ∉ order) : White succ order v v := ⟨h, Relation.ReflTransGen.refl⟩

omit [DecidableEq V] in
theorem White.head (hv : v ∉ order) (hw : w ∈ succ v) (h : White succ order w u) :
    White succ order v u :=
  ⟨hv, Relation.ReflTransGen.head ⟨hw, h.1⟩ h.2⟩

omit [DecidableEq V] in
/-- Avoiding more vertices is avoiding the ones of before. -/
theorem White.anti {order' : List V} (hsub : order ⊆ order') (h : White succ order' v u) :
    White succ order v u := by
  refine ⟨fun hv => h.1 (hsub hv), Relation.ReflTransGen.mono ?_ v u h.2⟩
  rintro a b ⟨hab, hb⟩
  exact ⟨hab, fun hb' => hb (hsub hb')⟩

/-- **Soundness**: what a forest adds is reached by white paths from its roots. -/
theorem white_of_mem_forest
    (hvisit : ∀ o, ∀ v ∈ roots, ∀ u ∈ visit succ fuel o v, u ∈ o ∨ White succ o v u)
    (hu : u ∈ forest succ fuel order roots) : u ∈ order ∨ ∃ v ∈ roots, White succ order v u := by
  induction roots generalizing order with
  | nil => exact Or.inl hu
  | cons v roots ih =>
      rw [forest_cons] at hu
      rcases ih (fun o w hw => hvisit o w (List.mem_cons_of_mem v hw)) hu with hu | ⟨w, hw, hwhite⟩
      · rcases hvisit order v List.mem_cons_self u hu with hu | hu
        · exact Or.inl hu
        · exact Or.inr ⟨v, List.mem_cons_self, hu⟩
      · exact Or.inr ⟨w, List.mem_cons_of_mem v hw, hwhite.anti prefix_visit.subset⟩

/-- What a visit adds is reached by white paths from the visited vertex. -/
theorem white_of_mem_visit (hu : u ∈ visit succ fuel order v) :
    u ∈ order ∨ White succ order v u := by
  induction fuel generalizing order v u with
  | zero => exact Or.inl hu
  | succ fuel ih =>
      by_cases hv : v ∈ order
      · rw [visit_of_mem hv] at hu
        exact Or.inl hu
      · rw [visit_of_notMem hv] at hu
        rcases white_of_mem_forest (fun o w _ u hu => ih hu) hu with hu | ⟨w, hw, hwhite⟩
        · rcases List.mem_append.1 hu with hu | hu
          · exact Or.inl hu
          · rw [List.mem_singleton.1 hu]
            exact Or.inr (White.refl hv)
        · exact Or.inr (White.head hv hw (hwhite.anti (List.subset_append_left order [v])))

/-! ### Enough nested calls -/

/-- An order inside of a set that is closed under successors, and a number of nested calls that is
large enough for the vertices that are left. -/
structure Adequate (succ : V → List V) (U : Finset V) (fuel : ℕ) (order : List V) : Prop where
  closed : ∀ v ∈ U, ∀ w ∈ succ v, w ∈ U
  nodup : order.Nodup
  subset : ∀ u ∈ order, u ∈ U
  fuel : U.card < fuel + order.length

/-- The order `order'` continues `order` inside of the set `U`, and has with a new vertex all of its
successors. -/
structure Continues (succ : V → List V) (U : Finset V) (order order' : List V) : Prop where
  /-- The vertices of before come first. -/
  isPrefix : order <+: order'
  /-- No vertex comes twice. -/
  nodup : order'.Nodup
  /-- There are only vertices of `U`. -/
  subset : ∀ u ∈ order', u ∈ U
  /-- A new vertex comes with its successors. -/
  closed : ∀ u ∈ order', u ∉ order → ∀ w ∈ succ u, w ∈ order'

section

variable {U : Finset V} {order' order'' : List V}

theorem Continues.trans (h : Continues succ U order order') (h' : Continues succ U order' order'') :
    Continues succ U order order'' := by
  refine ⟨h.isPrefix.trans h'.isPrefix, h'.nodup, h'.subset, ?_⟩
  intro u hu hu' w hw
  by_cases hmem : u ∈ order'
  · exact h'.isPrefix.subset (h.closed u hmem hu' w hw)
  · exact h'.closed u hu hmem w hw

namespace Adequate

omit [DecidableEq V] in
theorem refl (h : Adequate succ U fuel order) : Continues succ U order order :=
  ⟨List.prefix_rfl, h.nodup, h.subset, fun _ hu hu' => absurd hu hu'⟩

omit [DecidableEq V] in
theorem of_continues (h : Adequate succ U fuel order) (hc : Continues succ U order order') :
    Adequate succ U fuel order' := by
  have hlen := hc.isPrefix.length_le
  have hfuel := h.fuel
  exact ⟨h.closed, hc.nodup, hc.subset, by omega⟩

omit [DecidableEq V] in
/-- A vertex that is visited leaves an adequate order for its successors. -/
theorem snoc (h : Adequate succ U (fuel + 1) order) (hv : v ∈ U) (hmem : v ∉ order) :
    Adequate succ U fuel (order ++ [v]) := by
  have hfuel := h.fuel
  refine ⟨h.closed, ?_, ?_, ?_⟩
  · exact List.Nodup.append h.nodup (List.nodup_singleton v) (List.disjoint_singleton.2 hmem)
  · intro u hu
    rcases List.mem_append.1 hu with hu | hu
    · exact h.subset u hu
    · rw [List.mem_singleton.1 hu]
      exact hv
  · rw [List.length_append, List.length_singleton]
    omega

/-- There is always a nested call left. -/
theorem ne_zero (h : Adequate succ U fuel order) : fuel ≠ 0 := by
  have hcard : order.toFinset.card ≤ U.card :=
    Finset.card_le_card fun u hu => h.subset u (List.mem_toFinset.1 hu)
  rw [List.toFinset_card_of_nodup h.nodup] at hcard
  have hfuel := h.fuel
  omega

/-- What every visit does, a forest does. -/
theorem continues_of_visit (h : Adequate succ U fuel order) (hroots : ∀ v ∈ roots, v ∈ U)
    (hvisit : ∀ o, Adequate succ U fuel o → ∀ v ∈ U,
      Continues succ U o (visit succ fuel o v) ∧ v ∈ visit succ fuel o v) :
    Continues succ U order (forest succ fuel order roots) ∧
      ∀ v ∈ roots, v ∈ forest succ fuel order roots := by
  induction roots generalizing order with
  | nil => exact ⟨h.refl, fun v hv => absurd hv List.not_mem_nil⟩
  | cons v roots ih =>
      obtain ⟨hcont, hmem⟩ := hvisit order h v (hroots v List.mem_cons_self)
      obtain ⟨hcont', hmem'⟩ := ih (h.of_continues hcont)
        fun w hw => hroots w (List.mem_cons_of_mem v hw)
      rw [forest_cons]
      refine ⟨hcont.trans hcont', ?_⟩
      intro w hw
      rcases List.mem_cons.1 hw with rfl | hw
      · exact prefix_forest.subset hmem
      · exact hmem' w hw

/-- **A visit continues the order, and visits the vertex.** -/
theorem visit (h : Adequate succ U fuel order) (hv : v ∈ U) :
    Continues succ U order (visit succ fuel order v) ∧ v ∈ visit succ fuel order v := by
  induction fuel generalizing order v with
  | zero => exact absurd rfl h.ne_zero
  | succ fuel ih =>
      by_cases hmem : v ∈ order
      · rw [visit_of_mem hmem]
        exact ⟨h.refl, hmem⟩
      rw [visit_of_notMem hmem]
      obtain ⟨hcont, hsucc⟩ := (h.snoc hv hmem).continues_of_visit (h.closed v hv)
        fun o ho w hw => ih ho hw
      have hv' : v ∈ forest succ fuel (order ++ [v]) (succ v) :=
        prefix_forest.subset (List.mem_append_right order List.mem_cons_self)
      refine ⟨⟨?_, hcont.nodup, hcont.subset, ?_⟩, hv'⟩
      · exact (List.prefix_append order [v]).trans hcont.isPrefix
      · intro u hu hu' w hw
        by_cases huv : u = v
        · rw [huv] at hw
          exact hsucc w hw
        · refine hcont.closed u hu ?_ w hw
          simp [hu', huv]

/-- The same for a forest. -/
theorem forest (h : Adequate succ U fuel order) (hroots : ∀ v ∈ roots, v ∈ U) :
    Continues succ U order (forest succ fuel order roots) ∧
      ∀ v ∈ roots, v ∈ forest succ fuel order roots :=
  h.continues_of_visit hroots fun _ ho _ hv => ho.visit hv

/-- **The bound plays no role where it is large enough**, one vertex at a time. -/
theorem visit_succ (h : Adequate succ U fuel order) (hv : v ∈ U) :
    DepthFirst.visit succ (fuel + 1) order v = DepthFirst.visit succ fuel order v := by
  induction fuel generalizing order v with
  | zero => exact absurd rfl h.ne_zero
  | succ fuel ih =>
      by_cases hmem : v ∈ order
      · rw [visit_of_mem hmem, visit_of_mem hmem]
      rw [visit_of_notMem hmem, visit_of_notMem hmem]
      have hsnoc := h.snoc hv hmem
      -- the two forests run through the same orders
      have heq : ∀ (ws : List V) (o : List V), Adequate succ U fuel o → (∀ w ∈ ws, w ∈ U) →
          DepthFirst.forest succ (fuel + 1) o ws = DepthFirst.forest succ fuel o ws := by
        intro ws
        induction ws with
        | nil => exact fun o _ _ => rfl
        | cons w ws ihws =>
            intro o ho hws
            have hw := hws w List.mem_cons_self
            rw [forest_cons, forest_cons, ih ho hw]
            exact ihws _ (ho.of_continues (ho.visit hw).1)
              fun x hx => hws x (List.mem_cons_of_mem w hx)
      exact heq (succ v) _ hsnoc (h.closed v hv)

/-- The bound plays no role where it is large enough. -/
theorem forest_fuel (h : Adequate succ U fuel order) (hroots : ∀ v ∈ roots, v ∈ U) :
    DepthFirst.forest succ (fuel + 1) order roots = DepthFirst.forest succ fuel order roots := by
  induction roots generalizing order with
  | nil => rfl
  | cons v roots ih =>
      have hv := hroots v List.mem_cons_self
      rw [forest_cons, forest_cons, h.visit_succ hv]
      exact ih (h.of_continues (h.visit hv).1) fun w hw => hroots w (List.mem_cons_of_mem v hw)

/-- **The white-path theorem.** -/
theorem mem_forest_iff (h : Adequate succ U fuel order) (hroots : ∀ v ∈ roots, v ∈ U) :
    u ∈ DepthFirst.forest succ fuel order roots ↔
      u ∈ order ∨ ∃ v ∈ roots, White succ order v u := by
  constructor
  · exact white_of_mem_forest fun o w _ u hu => white_of_mem_visit hu
  obtain ⟨hcont, hmem⟩ := h.forest hroots
  rintro (hu | ⟨v, hv, hv', hpath⟩)
  · exact hcont.isPrefix.subset hu
  · -- along the path, every vertex is new, and so comes with its successors
    have hnew : u ∈ DepthFirst.forest succ fuel order roots ∧ u ∉ order := by
      induction hpath with
      | refl => exact ⟨hmem v hv, hv'⟩
      | tail _ hstep ih => exact ⟨hcont.closed _ ih.1 ih.2 _ hstep.1, hstep.2⟩
    exact hnew.1

end Adequate

end

/-! ### Ascending preorders -/

/-- Whenever `w` is a successor of `u` beyond `u + 1`, an earlier successor of `u` reaches `w - 1`
along a path of vertices above `u`. -/
def ConsecutiveAt (succ : ℕ → List ℕ) (u : ℕ) : Prop :=
  ∀ pre w post, succ u = pre ++ w :: post → u + 1 < w →
    ∃ x ∈ pre, White succ (List.range (u + 1)) x (w - 1)

/-- The graph with the vertices below `n` is consecutive. -/
def Consecutive (succ : ℕ → List ℕ) (n : ℕ) : Prop := ∀ u < n, ConsecutiveAt succ u

section

variable {succ : ℕ → List ℕ} {fuel n k u v w : ℕ} {order roots : List ℕ}

/-- A list that a range begins with is a range. -/
theorem eq_range_of_isPrefix (h : order <+: List.range n) : order = List.range order.length := by
  have hlen : order.length ≤ n := by simpa using h.length_le
  conv_lhs => rw [List.prefix_iff_eq_take.1 h]
  rw [List.take_range, Nat.min_eq_left hlen]

theorem eq_range_of_isPrefix_snoc (h : order ++ [v] <+: List.range n) : order = List.range v := by
  have heq := eq_range_of_isPrefix h
  rw [List.length_append, List.length_singleton, List.range_succ] at heq
  obtain ⟨horder, hv⟩ := List.append_inj' heq rfl
  rw [List.singleton_inj.1 hv]
  exact horder

/-- Where the order becomes a part of the ascending one, the vertex that is visited is the number of
the vertices visited before. -/
theorem eq_range_of_isPrefix_visit (h : Adequate succ (Finset.range n) fuel order) (hv : v ∉ order)
    (hasc : visit succ fuel order v <+: List.range n) : order = List.range v := by
  obtain ⟨fuel, rfl⟩ := Nat.exists_eq_succ_of_ne_zero h.ne_zero
  rw [visit_of_notMem hv] at hasc
  exact eq_range_of_isPrefix_snoc (prefix_forest.trans hasc)

/-- A vertex whose successors are visited in ascending order is consecutive. -/
theorem consecutiveAt_of_isPrefix
    (h : Adequate succ (Finset.range n) fuel (List.range (v + 1))) (hv : v < n)
    (hasc : forest succ fuel (List.range (v + 1)) (succ v) <+: List.range n) :
    ConsecutiveAt succ v := by
  intro pre w post hsplit hw
  have hU : ∀ x ∈ pre ++ w :: post, x ∈ Finset.range n := by
    rw [← hsplit]
    exact h.closed v (Finset.mem_range.2 hv)
  have hpre : ∀ x ∈ pre, x ∈ Finset.range n := fun x hx => hU x (List.mem_append_left _ hx)
  have hwU : w ∈ Finset.range n := hU w (List.mem_append_right _ List.mem_cons_self)
  have hmid := h.of_continues (h.forest hpre).1
  rw [hsplit, forest_append, forest_cons] at hasc
  have hvisit := prefix_forest.trans hasc
  -- the order before `w` is visited is ascending, and `w` is in it or comes next
  have hrange := eq_range_of_isPrefix (prefix_visit.trans hvisit)
  have hmem : w - 1 ∈ forest succ fuel (List.range (v + 1)) pre := by
    by_cases hin : w ∈ forest succ fuel (List.range (v + 1)) pre
    · rw [hrange, List.mem_range] at hin ⊢
      omega
    · rw [eq_range_of_isPrefix_visit hmid hin hvisit, List.mem_range]
      omega
  rcases (h.mem_forest_iff hpre).1 hmem with hlt | hwhite
  · rw [List.mem_range] at hlt
    omega
  · exact hwhite

/-- A forest that visits in ascending order only visits consecutive vertices. -/
theorem consecutiveAt_of_forest (h : Adequate succ (Finset.range n) fuel order)
    (hroots : ∀ v ∈ roots, v ∈ Finset.range n)
    (hasc : forest succ fuel order roots <+: List.range n)
    (hu : u ∈ forest succ fuel order roots) (hnew : u ∉ order) : ConsecutiveAt succ u := by
  induction fuel generalizing order roots with
  | zero => exact absurd rfl h.ne_zero
  | succ fuel ih =>
      induction roots generalizing order with
      | nil => exact absurd hu hnew
      | cons v roots ihroots =>
          have hv := hroots v List.mem_cons_self
          have hroots' : ∀ w ∈ roots, w ∈ Finset.range n :=
            fun w hw => hroots w (List.mem_cons_of_mem v hw)
          rw [forest_cons] at hu hasc
          by_cases hmem : u ∈ visit succ (fuel + 1) order v
          · -- the root itself is visited next, or else `u` comes from its successors
            have hvisit := prefix_forest.trans hasc
            have hin : v ∉ order := by
              intro hin
              rw [visit_of_mem hin] at hmem
              exact hnew hmem
            have horder := eq_range_of_isPrefix_visit h hin hvisit
            have hsnoc := h.snoc hv hin
            rw [visit_of_notMem hin] at hmem hvisit
            by_cases huv : u = v
            · rw [horder, ← List.range_succ] at hsnoc hvisit
              rw [huv]
              exact consecutiveAt_of_isPrefix hsnoc (Finset.mem_range.1 hv) hvisit
            · refine ih hsnoc (h.closed v hv) hvisit hmem ?_
              simp [hnew, huv]
          · exact ihroots (h.of_continues (h.visit hv).1) hroots' hasc hu hmem

/-- In a consecutive graph, a visit goes on in ascending order. -/
theorem visit_range (hc : Consecutive succ n)
    (h : Adequate succ (Finset.range n) fuel (List.range k)) (hk : k < n) :
    ∃ m, visit succ fuel (List.range k) k = List.range m := by
  induction fuel generalizing k with
  | zero => exact absurd rfl h.ne_zero
  | succ fuel ih =>
      have hnot : k ∉ List.range k := by simp
      have hsnoc := h.snoc (Finset.mem_range.2 hk) hnot
      rw [← List.range_succ] at hsnoc
      rw [visit_of_notMem hnot, ← List.range_succ]
      -- the successors are visited one after the other
      have hall : ∀ pre post, succ k = pre ++ post →
          ∃ m, forest succ fuel (List.range (k + 1)) pre = List.range m := by
        intro pre
        induction pre using List.reverseRecOn with
        | nil => exact fun post _ => ⟨k + 1, rfl⟩
        | append_singleton pre w ihpre =>
            intro post hsplit
            rw [List.append_assoc, List.singleton_append] at hsplit
            obtain ⟨m, hm⟩ := ihpre (w :: post) hsplit
            have hU : ∀ x ∈ pre ++ w :: post, x ∈ Finset.range n := by
              rw [← hsplit]
              exact h.closed k (Finset.mem_range.2 hk)
            have hpre : ∀ x ∈ pre, x ∈ Finset.range n :=
              fun x hx => hU x (List.mem_append_left _ hx)
            have hw : w < n :=
              Finset.mem_range.1 (hU w (List.mem_append_right _ List.mem_cons_self))
            have hcont := (hsnoc.forest hpre).1
            have hmid := hsnoc.of_continues hcont
            have hkm : k + 1 ≤ m := by simpa [hm] using hcont.isPrefix.length_le
            rw [forest_append, hm, forest_cons, forest_nil]
            by_cases hin : w < m
            · exact ⟨m, visit_of_mem (List.mem_range.2 hin)⟩
            · -- `w` is the next vertex, since `w - 1` has been visited
              have hwm : w = m := by
                by_cases hnext : w = k + 1
                · omega
                · obtain ⟨x, hx, hwhite⟩ := hc k hk pre w post hsplit (by omega)
                  have hmem := (hsnoc.mem_forest_iff hpre).2 (Or.inr ⟨x, hx, hwhite⟩)
                  rw [hm, List.mem_range] at hmem
                  omega
              rw [hm] at hmid
              rw [hwm]
              exact ih hmid (by omega)
      exact hall (succ k) [] (List.append_nil _).symm

/-- In a consecutive graph, the roots in ascending order are visited in ascending order. -/
theorem forest_range (hc : Consecutive succ n) (h : Adequate succ (Finset.range n) fuel [])
    (hk : k ≤ n) : ∃ m, k ≤ m ∧ forest succ fuel [] (List.range k) = List.range m := by
  induction k with
  | zero => exact ⟨0, le_rfl, rfl⟩
  | succ k ih =>
      obtain ⟨m, hkm, hm⟩ := ih (by omega)
      have hroots : ∀ v ∈ List.range k, v ∈ Finset.range n := by
        intro v hv
        rw [List.mem_range] at hv
        exact Finset.mem_range.2 (by omega)
      have hcont := (h.forest hroots).1
      have hmid := h.of_continues hcont
      rw [hm] at hmid
      rw [List.range_succ, forest_append, hm, forest_cons, forest_nil]
      by_cases hin : k < m
      · exact ⟨m, hin, visit_of_mem (List.mem_range.2 hin)⟩
      · have hkm' : k = m := by omega
        subst hkm'
        obtain ⟨m', hm'⟩ := visit_range hc hmid (by omega)
        refine ⟨m', ?_, hm'⟩
        have hmem := (hmid.visit (v := k) (Finset.mem_range.2 (by omega))).2
        rw [hm'] at hmem
        exact List.mem_range.1 hmem

/-- **The preorder is the ascending order exactly for the consecutive graphs.** -/
theorem forest_range_iff (hU : ∀ v < n, ∀ w ∈ succ v, w < n) (hfuel : n < fuel) :
    forest succ fuel [] (List.range n) = List.range n ↔ Consecutive succ n := by
  have h : Adequate succ (Finset.range n) fuel [] := by
    refine ⟨?_, List.nodup_nil, fun u hu => absurd hu List.not_mem_nil, ?_⟩
    · simpa using hU
    · simpa using hfuel
  have hroots : ∀ v ∈ List.range n, v ∈ Finset.range n := by simp
  constructor
  · intro heq u hu
    refine consecutiveAt_of_forest h hroots ?_ (u := u) ?_ List.not_mem_nil
    · rw [heq]
    · rw [heq, List.mem_range]
      exact hu
  · intro hc
    obtain ⟨m, hnm, hm⟩ := forest_range hc h le_rfl
    have hmn : m ≤ n := by
      by_contra hlt
      have hmem := (h.forest hroots).1.subset n (by rw [hm, List.mem_range]; omega)
      simp at hmem
    rw [hm, show m = n by omega]

end

end DepthFirst
