/-
**The order of the cooperative depth-first search is not that of a depth-first search.**

`CooperativeDFS` looks at the visited set before it spawns a coroutine, but no coroutine has begun
then: every vertex is a start vertex, and all of them are entered in ascending order before any edge
is inspected.  The returned order is the ascending one, whatever the edges are.

It is the preorder of the sequential depth-first forest exactly for the graphs on which that preorder
is ascending.  These are the consecutive graphs: an edge out of `u` that jumps over the next vertex,
to some `w`, comes after an edge out of `u` from whose end `w - 1` is reached above `u`.

Main definitions:

* `CooperativeDfs.Graph.preorder` — the preorder of the sequential depth-first forest.

Main results:

* `CooperativeDfs.Graph.preorder_eq` — the preorder does not depend on the bound used to compute it;
* `CooperativeDfs.returns_preorder_iff` — **the returned order is the preorder exactly for the
  consecutive graphs** with fewer than `2 ^ 31` vertices;
* `CooperativeDfs.skipped_edge_reorders` — a graph on which the two orders differ.
-/

import CppMultithreaded.DepthFirst
import CppMultithreaded.DfsReach
import Mathlib.Algebra.Ring.Int.Defs

set_option relaxedAutoImplicit false
set_option autoImplicit false

namespace CooperativeDfs

variable {graph : Graph}

/-! ### The sequential forest -/

/-- The successors of a vertex, in the order of its adjacency list. -/
def Graph.successors (graph : Graph) (v : ℕ) : List ℕ := (graph.edges v).map Int.toNat

/-- The preorder of the sequential depth-first forest, with the roots in ascending order. -/
def Graph.preorder (graph : Graph) : List ℕ :=
  DepthFirst.forest graph.successors (graph.adj.length + 1) [] (List.range graph.adj.length)

theorem Graph.Valid.successors_lt (h : graph.Valid) {v w : ℕ} (hw : w ∈ graph.successors v) :
    w < graph.adj.length := by
  obtain ⟨x, hx, rfl⟩ := List.mem_map.1 hw
  have hlt := h.edge hx
  omega

theorem Graph.Valid.adequate (h : graph.Valid) {fuel : ℕ} (hfuel : graph.adj.length < fuel) :
    DepthFirst.Adequate graph.successors (Finset.range graph.adj.length) fuel [] := by
  refine ⟨?_, List.nodup_nil, fun u hu => absurd hu List.not_mem_nil, ?_⟩
  · intro v _ w hw
    exact Finset.mem_range.2 (h.successors_lt hw)
  · simpa using hfuel

theorem mem_range_of_mem_range (n : ℕ) : ∀ v ∈ List.range n, v ∈ Finset.range n := by simp

/-- The preorder does not depend on the bound used to compute it. -/
theorem Graph.preorder_eq (h : graph.Valid) (k : ℕ) :
    DepthFirst.forest graph.successors (graph.adj.length + 1 + k) []
      (List.range graph.adj.length) = graph.preorder := by
  induction k with
  | zero => rfl
  | succ k ih =>
      have hfuel : graph.adj.length < graph.adj.length + 1 + k := by omega
      rw [← Nat.add_assoc, (h.adequate hfuel).forest_fuel (mem_range_of_mem_range _), ih]

/-- Every vertex is in the preorder. -/
theorem Graph.mem_preorder (h : graph.Valid) {v : ℕ} (hv : v < graph.adj.length) :
    v ∈ graph.preorder :=
  ((h.adequate (Nat.lt_succ_self _)).forest (mem_range_of_mem_range _)).2 v (List.mem_range.2 hv)

/-! ### The comparison -/

/-- `CooperativeDFS` only visits vertices below the number of vertices as an `int`. -/
theorem lt_size_of_cooperativeDFS {log : Option String} {fuel : ℕ} {order : List ℕ}
    (h : cooperativeDFS graph log fuel = some (.ok order)) : ∀ v ∈ order, (v : ℤ) < graph.size := by
  obtain ⟨r, hr, hmap⟩ := Option.map_eq_some_iff.1 h
  cases r with
  | error e => simp [Except.map] at hmap
  | ok s =>
      obtain ⟨fresh, live, -, -, hp, -⟩ := (sound_spawnLoop graph log).of_returns ⟨fuel, hr⟩
      rw [← Except.ok.inj hmap]
      exact fun v hv => hp.bound v (List.mem_append_left _ hv)

/-- The number of vertices as an `int` is at most `2 ^ 31 - 1`. -/
theorem Graph.size_lt (graph : Graph) : graph.size < 2 ^ 31 := by
  have hlt := Int.bmod_lt (x := graph.adj.length) (m := 2 ^ 32) (by decide)
  exact lt_of_lt_of_le hlt (by decide)

/-- `CooperativeDFS` has at most one outcome. -/
theorem cooperativeDFS_unique {log : Option String} {fuel fuel' : ℕ}
    {r r' : Except String (List ℕ)} (h : cooperativeDFS graph log fuel = some r)
    (h' : cooperativeDFS graph log fuel' = some r') : r = r' := by
  obtain ⟨s, hs, rfl⟩ := Option.map_eq_some_iff.1 h
  obtain ⟨s', hs', rfl⟩ := Option.map_eq_some_iff.1 h'
  rw [Scheduler.Returns.unique ⟨fuel, hs⟩ ⟨fuel', hs'⟩]

/-- **The returned order is the preorder of the depth-first forest exactly for the consecutive
graphs**, as long as the vertices can be counted. -/
theorem returns_preorder_iff (graph : Graph) (hvalid : graph.Valid) (log : Option String) :
    (∃ fuel, cooperativeDFS graph log fuel = some (.ok graph.preorder)) ↔
      graph.adj.length < 2 ^ 31 ∧
        DepthFirst.Consecutive graph.successors graph.adj.length := by
  have hiff : graph.preorder = List.range graph.adj.length ↔
      DepthFirst.Consecutive graph.successors graph.adj.length :=
    DepthFirst.forest_range_iff (fun v _ w hw => hvalid.successors_lt hw) (Nat.lt_succ_self _)
  constructor
  · rintro ⟨fuel, hr⟩
    have hsize : graph.adj.length < 2 ^ 31 := by
      -- the last vertex is in the preorder, and so below the number of vertices as an `int`
      by_contra hlarge
      have hlast := lt_size_of_cooperativeDFS hr (graph.adj.length - 1)
        (Graph.mem_preorder hvalid (by omega))
      have hlt := graph.size_lt
      omega
    refine ⟨hsize, hiff.1 ?_⟩
    obtain ⟨fuel', hr'⟩ := exists_cooperativeDFS_eq_range hsize hvalid log
    exact Except.ok.inj (cooperativeDFS_unique hr hr')
  · rintro ⟨hsize, hc⟩
    rw [hiff.2 hc]
    exact exists_cooperativeDFS_eq_range hsize hvalid log

/-- On a path that is numbered along its edges, the two orders agree. -/
theorem returns_preorder_path :
    let graph : Graph := ⟨[[1], [2], []]⟩
    graph.preorder = [0, 1, 2] ∧ DepthFirst.Consecutive graph.successors 3 :=
  ⟨by rfl, ((returns_preorder_iff ⟨[[1], [2], []]⟩ (by decide) none).1 ⟨20, by rfl⟩).2⟩

/-- **A graph on which the two orders differ**: the only edge leads from `0` to `2`. -/
theorem skipped_edge_reorders :
    let graph : Graph := ⟨[[2], [], []]⟩
    graph.Valid ∧ cooperativeDFS graph none 20 = some (.ok [0, 1, 2]) ∧
      graph.preorder = [0, 2, 1] := by
  refine ⟨by decide, by rfl, by rfl⟩

end CooperativeDfs
